import EterOS.Lib.Bytes
import Mathlib.Data.List.Basic
/-!
# Malloc — the heap of the C library

`src/userspace/libc/src/malloc.c`, over the bytes of memory: a block is a header of 32 bytes (size, next, prev, free) and
its payload behind it.  `sbrk` grows the break by what it is asked for or leaves it, as it chooses; it is asked with an
`int64_t`, and the break stays in the half of the address space that is the program's.
-/
namespace EterOS.Libc

open Buffer (blit le digits)

def SIZE_MAX : Nat := 2 ^ 64 - 1

def ALIGNMENT : Nat := 16

def align (size : Nat) : Nat := (size + (ALIGNMENT - 1)) % 2 ^ 64 / ALIGNMENT * ALIGNMENT

def BLOCK_SIZE : Nat := 32

/-- `USER_LIMIT`: the kernel lets the break go no further. -/
def USER_LIMIT : Nat := 0x00007FFFFFFFFFFF

/-! ## Headers -/

structure Hdr where
  size : Nat
  next : Nat
  prev : Nat
  free : Bool

def hdr (m : Buffer) (a : Nat) : Hdr where
  size := m.le a 8
  next := m.le (a + 8) 8
  prev := m.le (a + 16) 8
  free := m.le (a + 24) 4 ≠ 0

def setSize (m : Buffer) (a v : Nat) : Buffer := m.blit a (digits v) 8
def setNext (m : Buffer) (a v : Nat) : Buffer := m.blit (a + 8) (digits v) 8
def setPrev (m : Buffer) (a v : Nat) : Buffer := m.blit (a + 16) (digits v) 8
def setFree (m : Buffer) (a : Nat) (free : Bool) : Buffer := m.blit (a + 24) (digits (if free then 1 else 0)) 4

/-! ## The functions -/

/-- `find_free_block`: the block, or null, and `*last`; `fuel` bounds the walk. -/
def findFreeBlock (m : Buffer) (size : Nat) : Nat → Nat → Nat → Nat × Nat
  | 0, last, _ => (0, last)
  | fuel + 1, last, current =>
    if current = 0 then (0, last)
    else if (hdr m current).free = true ∧ size ≤ (hdr m current).size then (current, last)
    else findFreeBlock m size fuel current (hdr m current).next

def splitBlock (m : Buffer) (block size : Nat) : Buffer :=
  if (size + BLOCK_SIZE + ALIGNMENT) % 2 ^ 64 ≤ (hdr m block).size then
    let new := block + BLOCK_SIZE + size
    let m := setSize m new ((hdr m block).size - size - BLOCK_SIZE)
    let m := setNext m new (hdr m block).next
    let m := setPrev m new block
    let m := setFree m new true
    let m := if (hdr m new).next ≠ 0 then setPrev m (hdr m new).next new else m
    let m := setSize m block size
    setNext m block new
  else m

/-- A block takes in the one behind it: `size`, `next`, and the `prev` of what comes after. -/
def absorb (m : Buffer) (block behind : Nat) : Buffer :=
  let m := setSize m block (((hdr m block).size + BLOCK_SIZE + (hdr m behind).size) % 2 ^ 64)
  let m := setNext m block (hdr m behind).next
  if (hdr m block).next ≠ 0 then setPrev m (hdr m block).next block else m

def coalesceBlock (m : Buffer) (block : Nat) : Buffer :=
  let m := if (hdr m block).next ≠ 0 ∧ (hdr m (hdr m block).next).free = true then absorb m block (hdr m block).next else m
  if (hdr m block).prev ≠ 0 ∧ (hdr m (hdr m block).prev).free = true then absorb m (hdr m block).prev block else m

structure LibcHeap where
  mem : Buffer
  heapStart : Nat
  brk : Nat

/-- `sbrk(increment)` for an increment that is not 0: the break before it, which it grows, or it fails. -/
def sbrk (granted : Bool) (brk increment : Nat) : Option Nat :=
  if granted = true ∧ increment < 2 ^ 63 ∧ brk + increment ≤ USER_LIMIT then some (brk + increment) else none

def requestSpace (granted : Bool) (h : LibcHeap) (last size : Nat) : LibcHeap × Nat :=
  match sbrk granted h.brk ((size + BLOCK_SIZE) % 2 ^ 64) with
  | none => (h, 0)
  | some brk =>
    let block := h.brk
    let m := if last ≠ 0 then setNext h.mem last block else h.mem
    let m := setSize m block size
    let m := setNext m block 0
    let m := setPrev m block last
    let m := setFree m block false
    ({ h with mem := m, brk }, block)

def malloc (granted : Bool) (h : LibcHeap) (size : Nat) : LibcHeap × Nat :=
  if size = 0 then (h, 0)
  else if SIZE_MAX - BLOCK_SIZE - ALIGNMENT < size then (h, 0)
  else
    let size := align size
    if h.heapStart = 0 then
      match requestSpace granted h 0 size with
      | (h, block) => if block = 0 then (h, 0) else ({ h with heapStart := block }, block + BLOCK_SIZE)
    else
      match findFreeBlock h.mem size h.brk h.heapStart h.heapStart with
      | (block, last) =>
        if block = 0 then
          match requestSpace granted h last size with
          | (h, block) => if block = 0 then (h, 0) else (h, block + BLOCK_SIZE)
        else ({ h with mem := splitBlock (setFree h.mem block false) block size }, block + BLOCK_SIZE)

def free (h : LibcHeap) (ptr : Nat) : LibcHeap :=
  if ptr = 0 then h
  else { h with mem := coalesceBlock (setFree h.mem (ptr - BLOCK_SIZE) true) (ptr - BLOCK_SIZE) }

def calloc (granted : Bool) (h : LibcHeap) (nelem elsize : Nat) : LibcHeap × Nat :=
  if nelem ≠ 0 ∧ SIZE_MAX / nelem < elsize then (h, 0)
  else
    match malloc granted h (nelem * elsize % 2 ^ 64) with
    | (h, ptr) =>
      if ptr ≠ 0 then ({ h with mem := h.mem.blit ptr (fun _ => 0) (nelem * elsize % 2 ^ 64) }, ptr) else (h, ptr)

def realloc (granted : Bool) (h : LibcHeap) (ptr size : Nat) : LibcHeap × Nat :=
  if ptr = 0 then malloc granted h size
  else if size = 0 then (free h ptr, 0)
  else if SIZE_MAX - BLOCK_SIZE - ALIGNMENT < size then (h, 0)
  else
    let size := align size
    let block := ptr - BLOCK_SIZE
    let b := hdr h.mem block
    if size ≤ b.size then ({ h with mem := splitBlock h.mem block size }, ptr)
    else if b.next ≠ 0 ∧ (hdr h.mem b.next).free = true ∧
        size ≤ (b.size + BLOCK_SIZE + (hdr h.mem b.next).size) % 2 ^ 64 then
      ({ h with mem := splitBlock (absorb h.mem block b.next) block size }, ptr)
    else
      match malloc granted h size with
      | (h, new) =>
        if new = 0 then (h, 0)
        else (free { h with mem := h.mem.blit new (h.mem.drop ptr) (hdr h.mem block).size } ptr, new)

/-! ## One header changes -/

/-- The memory changes in the header at `a`, which becomes `x`, and nowhere else. -/
structure Upd (m m' : Buffer) (a : Nat) (x : Hdr) : Prop where
  self : hdr m' a = x
  out : ∀ i, i < a ∨ a + BLOCK_SIZE ≤ i → m' i = m i

variable {m m' m'' : Buffer} {a d v : Nat} {x y : Hdr}

theorem hdr_congr (h : ∀ i, a ≤ i → i < a + BLOCK_SIZE → m' i = m i) : hdr m' a = hdr m a := by
  unfold BLOCK_SIZE at h
  unfold hdr
  rw [Buffer.le_congr fun i hi hi' => h i hi (by omega), Buffer.le_congr fun i hi hi' => h i (by omega) (by omega),
    Buffer.le_congr fun i hi hi' => h i (show a ≤ i by omega) (by omega),
    Buffer.le_congr fun i hi hi' => h i (show a ≤ i by omega) (by omega)]

theorem Upd.other (h : Upd m m' a x) (hs : a + BLOCK_SIZE ≤ d ∨ d + BLOCK_SIZE ≤ a) : hdr m' d = hdr m d := by
  apply hdr_congr
  intro i hi hi'
  apply h.out
  omega

theorem Upd.trans (h : Upd m m' a x) (h' : Upd m' m'' a y) : Upd m m'' a y :=
  ⟨h'.self, fun i hi => (h'.out i hi).trans (h.out i hi)⟩

theorem upd_blit {src : Buffer} (off : Nat) {n : Nat} (ho : off + n ≤ BLOCK_SIZE) (hx : hdr (m.blit (a + off) src n) a = x) :
    Upd m (m.blit (a + off) src n) a x := by
  refine ⟨hx, fun i hi => ?_⟩
  rcases hi with hi | hi
  · exact Buffer.blit_of_lt (by omega)
  · exact Buffer.blit_of_ge (by omega)

theorem upd_setSize (hv : v < 2 ^ 64) : Upd m (setSize m a v) a { hdr m a with size := v } := by
  have hv : v < 256 ^ 8 := hv
  apply upd_blit 0 (by decide)
  unfold hdr
  rw [Nat.add_zero, Buffer.le_blit_digits, Nat.mod_eq_of_lt hv, Buffer.le_blit_of_disjoint (by omega),
    Buffer.le_blit_of_disjoint (by omega), Buffer.le_blit_of_disjoint (by omega)]

theorem upd_setNext (hv : v < 2 ^ 64) : Upd m (setNext m a v) a { hdr m a with next := v } := by
  have hv : v < 256 ^ 8 := hv
  apply upd_blit _ (by decide)
  unfold hdr
  rw [Buffer.le_blit_digits, Nat.mod_eq_of_lt hv, Buffer.le_blit_of_disjoint (by omega),
    Buffer.le_blit_of_disjoint (by omega), Buffer.le_blit_of_disjoint (by omega)]

theorem upd_setPrev (hv : v < 2 ^ 64) : Upd m (setPrev m a v) a { hdr m a with prev := v } := by
  have hv : v < 256 ^ 8 := hv
  apply upd_blit _ (by decide)
  unfold hdr
  rw [Buffer.le_blit_digits, Nat.mod_eq_of_lt hv, Buffer.le_blit_of_disjoint (by omega),
    Buffer.le_blit_of_disjoint (by omega), Buffer.le_blit_of_disjoint (by omega)]

theorem upd_setFree (free : Bool) : Upd m (setFree m a free) a { hdr m a with free } := by
  apply upd_blit _ (by decide)
  unfold hdr
  rw [Buffer.le_blit_digits, Buffer.le_blit_of_disjoint (by omega), Buffer.le_blit_of_disjoint (by omega),
    Buffer.le_blit_of_disjoint (by omega)]
  cases free <;> rfl

end EterOS.Libc
