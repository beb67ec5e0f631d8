import EterOS.Lib.Bytes
import EterOS.Mm.Pmm
/-!
# Heap — the heap of the kernel

`src/kernel/mm/heap.c`, over the bytes of memory.  A block is a header of 32 bytes and its payload behind it; a free
block keeps the links of its free list in the first 16 bytes of the payload, a block in use a magic number in the last
4.  An `ASSERT` that fails stops the kernel: the functions that hold one give `none` there.
-/
namespace EterOS.Heap

open Buffer (blit le digits)
open Mm (PAGE_SIZE E820Entry E820_USABLE)

def SIZE_MAX : Nat := 2 ^ 64 - 1

def HEAP_ALIGNMENT : Nat := 8

def ARCH_RESERVED_MEM_END : Nat := 0x100000

def HEAP_MAGIC : Nat := 0x48454150

def HEAP_FOOTER_MAGIC : Nat := 0x464F4F54

def NUM_BUCKETS : Nat := 10

def MAX_HEAP_SIZE : Nat := 96 * 1024 * 1024

def HEADER_SIZE : Nat := 32

def NODE_SIZE : Nat := 16

/-! ## Fields -/

/-- The fields of `block_header_t`, and of the `free_node_t` behind it. -/
inductive Fld where
  | size
  | magic
  | isFree
  | next
  | prev
  | nextFree
  | prevFree
  deriving DecidableEq

def Fld.offset : Fld → Nat
  | size => 0
  | magic => 8
  | isFree => 12
  | next => 16
  | prev => 24
  | nextFree => 32
  | prevFree => 40

def Fld.width : Fld → Nat
  | magic => 4
  | isFree => 1
  | _ => 8

def get (m : Buffer) (block : Nat) (f : Fld) : Nat := m.le (block + f.offset) f.width

def put (m : Buffer) (block : Nat) (f : Fld) (v : Nat) : Buffer := m.blit (block + f.offset) (digits v) f.width

/-! ## The functions -/

def align (n : Nat) : Nat :=
  let aligned := (n + (HEAP_ALIGNMENT - 1)) % 2 ^ 64 / HEAP_ALIGNMENT * HEAP_ALIGNMENT
  if aligned < NODE_SIZE then NODE_SIZE else aligned

def getBucketIndex (size : Nat) : Nat :=
  if size ≤ 32 then 0
  else if size ≤ 64 then 1
  else if size ≤ 128 then 2
  else if size ≤ 256 then 3
  else if size ≤ 512 then 4
  else if size ≤ 1024 then 5
  else if size ≤ 2048 then 6
  else if size ≤ 4096 then 7
  else if size ≤ 8192 then 8
  else 9

/-- Memory and the variables of the heap; `initialized` is `mm_initialized`. -/
structure KHeap where
  mem : Buffer
  heapStart : Nat
  freeBuckets : Nat → Nat
  memoryUsed : Nat
  memoryTotal : Nat
  initialized : Bool

open Function (update)

def addToFreeList (h : KHeap) (block : Nat) : KHeap :=
  if block = 0 ∨ get h.mem block .isFree = 0 then h
  else
    let bucket := getBucketIndex (get h.mem block .size)
    let m := put h.mem block .nextFree (h.freeBuckets bucket)
    let m := put m block .prevFree 0
    let m := if h.freeBuckets bucket ≠ 0 then put m (h.freeBuckets bucket) .prevFree block else m
    { h with mem := m, freeBuckets := update h.freeBuckets bucket block }

def removeFromFreeList (h : KHeap) (block : Nat) : KHeap :=
  if block = 0 ∨ get h.mem block .isFree = 0 then h
  else
    let bucket := getBucketIndex (get h.mem block .size)
    let h :=
      if get h.mem block .prevFree ≠ 0 then
        { h with mem := put h.mem (get h.mem block .prevFree) .nextFree (get h.mem block .nextFree) }
      else { h with freeBuckets := update h.freeBuckets bucket (get h.mem block .nextFree) }
    let m :=
      if get h.mem block .nextFree ≠ 0 then put h.mem (get h.mem block .nextFree) .prevFree (get h.mem block .prevFree)
      else h.mem
    let m := put m block .nextFree 0
    { h with mem := put m block .prevFree 0 }

/-- The `while` over a free list: the first block that is large enough, or null; `fuel` bounds the walk. -/
def findFit (m : Buffer) (alignedSize : Nat) : Nat → Nat → Option Nat
  | 0, _ => some 0
  | fuel + 1, curr =>
    if curr = 0 then some 0
    else if get m curr .isFree = 0 then findFit m alignedSize fuel (get m curr .nextFree)
    else if get m curr .magic ≠ HEAP_MAGIC then none
    else if alignedSize ≤ get m curr .size then some curr
    else findFit m alignedSize fuel (get m curr .nextFree)

def searchBuckets (h : KHeap) (alignedSize : Nat) : List Nat → Option Nat
  | [] => some 0
  | b :: bs =>
    match findFit h.mem alignedSize h.memoryTotal (h.freeBuckets b) with
    | none => none
    | some curr => if curr = 0 then searchBuckets h alignedSize bs else some curr

/-- Both loops: a block that is large enough, from the bucket of the size on, or null. -/
def findBlock (h : KHeap) (alignedSize : Nat) : Option Nat :=
  let startBucket := getBucketIndex alignedSize
  searchBuckets h alignedSize (List.range' startBucket (NUM_BUCKETS - startBucket))

/-- The headers of a block that is cut and of the rest of it, and the `prev` of what comes after. -/
def cutBlock (m : Buffer) (curr alignedSize : Nat) : Buffer :=
  let newBlock := curr + HEADER_SIZE + alignedSize
  let m := put m newBlock .size (get m curr .size - alignedSize - HEADER_SIZE)
  let m := put m newBlock .isFree 1
  let m := put m newBlock .magic HEAP_MAGIC
  let m := put m newBlock .next (get m curr .next)
  let m := put m newBlock .prev curr
  let m := if get m newBlock .next ≠ 0 then put m (get m newBlock .next) .prev newBlock else m
  let m := put m curr .size alignedSize
  put m curr .next newBlock

/-- A block with room for another is cut: the rest becomes a free block of its own. -/
def splitBlock (h : KHeap) (curr alignedSize : Nat) : KHeap :=
  if alignedSize + HEADER_SIZE + NODE_SIZE ≤ get h.mem curr .size then
    addToFreeList { h with mem := cutBlock h.mem curr alignedSize } (curr + HEADER_SIZE + alignedSize)
  else h

def footerAddr (block size : Nat) : Nat := block + HEADER_SIZE + size - 4

def markUsed (h : KHeap) (curr : Nat) : KHeap :=
  let m := put h.mem curr .isFree 0
  { h with
    mem := m.blit (footerAddr curr (get m curr .size)) (digits HEAP_FOOTER_MAGIC) 4
    memoryUsed := (h.memoryUsed + (get m curr .size + HEADER_SIZE)) % 2 ^ 64 }

def takeBlock (h : KHeap) (curr alignedSize : Nat) : KHeap :=
  markUsed (splitBlock (removeFromFreeList h curr) curr alignedSize) curr

def kmallocImpl (h : KHeap) (size : Nat) : Option (KHeap × Nat) :=
  if size = 0 then some (h, 0)
  else if h.initialized = false then none
  else if h.heapStart = 0 then some (h, 0)
  else if SIZE_MAX - HEAP_ALIGNMENT - HEADER_SIZE < size then some (h, 0)
  else if h.memoryTotal < size then some (h, 0)
  else
    let alignedSize := align (size + 4)
    match findBlock h alignedSize with
    | none => none
    | some curr => if curr = 0 then some (h, 0) else some (takeBlock h curr alignedSize, curr + HEADER_SIZE)

def kmalloc (h : KHeap) (size : Nat) : Option (KHeap × Nat) :=
  if size = 0 then some (h, 0) else kmallocImpl h size

def absorb (m : Buffer) (block behind : Nat) : Buffer :=
  let m := put m block .size ((get m block .size + (HEADER_SIZE + get m behind .size)) % 2 ^ 64)
  let m := put m block .next (get m behind .next)
  if get m block .next ≠ 0 then put m (get m block .next) .prev block else m

def mergeNext (h : KHeap) (block : Nat) : Option KHeap :=
  let next := get h.mem block .next
  if next ≠ 0 ∧ get h.mem next .isFree ≠ 0 then
    if get h.mem next .magic ≠ HEAP_MAGIC then none
    else
      let h := removeFromFreeList h next
      some { h with mem := absorb h.mem block next }
  else some h

/-- The block before takes it in, where that is free; whichever it is goes to its free list. -/
def mergePrev (h : KHeap) (block : Nat) : Option KHeap :=
  let prev := get h.mem block .prev
  if prev ≠ 0 ∧ get h.mem prev .isFree ≠ 0 then
    if get h.mem prev .magic ≠ HEAP_MAGIC then none
    else
      let h := removeFromFreeList h prev
      some (addToFreeList { h with mem := absorb h.mem prev block } prev)
  else some (addToFreeList h block)

def headerOf (ptr : Nat) : Nat := (ptr + 2 ^ 64 - HEADER_SIZE) % 2 ^ 64

def kfreeImpl (h : KHeap) (ptr : Nat) : Option KHeap :=
  if ptr = 0 then some h
  else if h.heapStart = 0 then some h
  else
    let block := headerOf ptr
    let size := get h.mem block .size
    if block < h.heapStart ∨ h.heapStart + h.memoryTotal ≤ block then none
    else if get h.mem block .magic ≠ HEAP_MAGIC then none
    else if get h.mem block .isFree ≠ 0 then none
    else if h.mem.le (footerAddr block size) 4 ≠ HEAP_FOOTER_MAGIC then none
    else
      let h := { h with
        mem := put h.mem block .isFree 1, memoryUsed := (h.memoryUsed + 2 ^ 64 - (size + HEADER_SIZE)) % 2 ^ 64 }
      match mergeNext h block with
      | none => none
      | some h => mergePrev h block

def kfree (h : KHeap) (ptr : Nat) : Option KHeap :=
  if ptr = 0 then some h else kfreeImpl h ptr

def kcalloc (h : KHeap) (num size : Nat) : Option (KHeap × Nat) :=
  if num > 0 ∧ SIZE_MAX / num < size then some (h, 0)
  else
    let total := num * size % 2 ^ 64
    match kmalloc h total with
    | none => none
    | some (h, ptr) => if ptr ≠ 0 then some ({ h with mem := h.mem.blit ptr (fun _ => 0) total }, ptr) else some (h, ptr)

def krealloc (h : KHeap) (ptr size : Nat) : Option (KHeap × Nat) :=
  if ptr = 0 then kmalloc h size
  else if size = 0 then
    match kfreeImpl h ptr with
    | none => none
    | some h => some (h, 0)
  else
    let block := headerOf ptr
    if get h.mem block .magic ≠ HEAP_MAGIC then none
    else if size ≤ get h.mem block .size then some (h, ptr)
    else
      match kmallocImpl h size with
      | none => none
      | some (h, newPtr) =>
        if newPtr = 0 then some (h, 0)
        else
          match kfreeImpl { h with mem := h.mem.blit newPtr (h.mem.drop ptr) (get h.mem block .size) } ptr with
          | none => none
          | some h => some (h, newPtr)

/-- The walk of `mm_verify_heap`: the blocks it comes by, or `none` where an assertion fails; `fuel` bounds it. -/
def verifyFrom (m : Buffer) : Nat → Nat → Option (List Nat)
  | 0, _ => none
  | fuel + 1, curr =>
    if curr = 0 then some []
    else if get m curr .magic ≠ HEAP_MAGIC then none
    else if m.le (footerAddr curr (get m curr .size)) 4 ≠ HEAP_FOOTER_MAGIC then none
    else if get m curr .next ≠ 0 ∧ get m (get m curr .next) .prev ≠ curr then none
    else (verifyFrom m fuel (get m curr .next)).map (curr :: ·)

def mmVerifyHeap (h : KHeap) : Option (List Nat) :=
  if h.heapStart = 0 ∨ h.initialized = false then some [] else verifyFrom h.mem (h.memoryTotal + 1) h.heapStart

/-! ## The start -/

/-- What `mm_init` finds: memory as it is, the linker's `_kernel_end`, and the memory map of the boot loader. -/
structure Boot where
  mem : Buffer
  kernelEnd : Nat
  /-- The kernel is linked below 4 GB. -/
  linked : kernelEnd ≤ 2 ^ 32
  memMap : Option (List E820Entry)

def pageAlignUp (addr : Nat) : Nat := (addr + (PAGE_SIZE - 1)) % 2 ^ 64 / PAGE_SIZE * PAGE_SIZE

def Boot.candidateAddr (b : Boot) : Nat := max (pageAlignUp b.kernelEnd) ARCH_RESERVED_MEM_END

/-- What a region of the map has room for: where the heap would begin and where the region ends. -/
def Boot.region (b : Boot) (e : E820Entry) : Nat × Nat :=
  (max (pageAlignUp e.baseAddr) b.candidateAddr, min ((e.baseAddr + e.length) % 2 ^ 64) 0x100000000)

/-- The loop over the map: `best_start` and `best_size`, the start 0 where no region is large enough. -/
def Boot.best (b : Boot) : List E820Entry → Nat × Nat
  | [] => (0, 0)
  | e :: es =>
    match b.region e with
    | (regionStart, regionEnd) =>
      if e.type = E820_USABLE ∧ regionStart < regionEnd ∧ 1024 * 1024 ≤ regionEnd - regionStart then
        (regionStart, min ((regionEnd - regionStart) * 3 / 4) MAX_HEAP_SIZE)
      else b.best es

def Boot.place (b : Boot) : Nat × Nat :=
  match b.best (b.memMap.getD []) with
  | (bestStart, bestSize) =>
    if bestStart = 0 then (pageAlignUp (max 0x00400000 b.candidateAddr), 8 * 1024 * 1024) else (bestStart, bestSize)

def mmInit (b : Boot) : KHeap :=
  match b.place with
  | (heapStart, memoryTotal) =>
    let m := put b.mem heapStart .size (memoryTotal - HEADER_SIZE)
    let m := put m heapStart .isFree 1
    let m := put m heapStart .magic HEAP_MAGIC
    let m := put m heapStart .next 0
    let m := put m heapStart .prev 0
    addToFreeList ⟨m, heapStart, fun _ => 0, 0, memoryTotal, false⟩ heapStart

def Boot.heap (b : Boot) : KHeap := { mmInit b with initialized := true }

end EterOS.Heap
