import EterOS.Lib.Flow
import EterOS.Mm.UserSpace
import EterOS.Syscall.Basic
/-!
# Memory — the system calls that change a user address space

`sys_mmap`, `sys_brk`, `sys_munmap`, `sys_mprotect` and `sys_mremap` of `kernel/arch/x86_64/syscall.c`, for the task that
is current and its address space.  Addresses and lengths are 64-bit values and the arithmetic on them wraps.  The kernel
writes user pages through their addresses, and may write read-only ones; where the page is not there the task is killed,
and outside user space the machine stops.
-/
namespace EterOS.Syscall

open Mm

def ENODEV : Int := 19
def ELFOSABI_LINUX : Nat := 3
def MAX_TASKS : Nat := 64
def MAX_FD : Int := 256

def PROT_WRITE : BitVec 32 := 0x2#32
def PROT_EXEC : BitVec 32 := 0x4#32
def MAP_PRIVATE : BitVec 32 := 0x2#32
def MAP_FIXED : BitVec 32 := 0x10#32
def MAP_ANONYMOUS : BitVec 32 := 0x20#32
def MREMAP_MAYMOVE : BitVec 32 := 0x1#32
def MREMAP_FIXED : BitVec 32 := 0x2#32

/-- `shm_object_t`: the addresses of its pages, 0 where there is none. -/
structure ShmObject where
  pages : List Nat
  protMask : BitVec 32

/-- What `sys_mmap` reads of an open file: whether its `truncate` is that of the shared memory file system, its `impl`,
and the words of a zeroed page once `read_fs` has read into it from an offset. -/
structure FsNode where
  name : String
  shmfs : Bool
  impl : Option ShmObject
  length : Nat
  content : Nat → Nat → BitVec 64

structure MemTask where
  state : TaskState
  cr3 : Nat
  brk : Nat
  mmapBase : Nat
  osAbi : Nat
  fdTable : Nat → Option FsNode
  binderMmapBase : Nat
  binderMmapSize : Nat
  binderMmapOffset : Nat
  binderMmapKptr : Nat

/-- Memory, the task table, the current task, and `framebuffer_get_hw_buffer()`. -/
structure Mem where
  vm : Vm
  tasks : Nat → MemTask
  taskCount : Nat
  cur : Nat
  fbVirt : Nat

abbrev Exec := Flow Mem Int

namespace Mem

def current (s : Mem) : MemTask := s.tasks s.cur

def cr3 (s : Mem) : Nat := s.current.cr3

def modTask (s : Mem) (i : Nat) (g : MemTask → MemTask) : Mem :=
  { s with tasks := Function.update s.tasks i (g (s.tasks i)) }

def taskGetCount (s : Mem) : Nat :=
  ((List.range s.taskCount).filter fun i => (s.tasks i).state = .ready ∨ (s.tasks i).state = .running).length

def pageAlignUp (x : Nat) : Nat := (x + (PAGE_SIZE - 1)) % 2 ^ 64 / PAGE_SIZE * PAGE_SIZE

def pageAlignDown (x : Nat) : Nat := x / PAGE_SIZE * PAGE_SIZE

/-- The addresses of `for (v = start; v < end; v += PAGE_SIZE)`. -/
def pagesOf (start stop : Nat) : List Nat :=
  (List.range ((stop - start + (PAGE_SIZE - 1)) / PAGE_SIZE)).map fun k => start + k * PAGE_SIZE

def toInt64 (x : Nat) : Int := if x < 2 ^ 63 then x else (x : Int) - 2 ^ 64

/-! ## What the calls share -/

/-- A fault of the kernel: on a user address it kills the task, elsewhere it stops the machine. -/
def kernelFault (s : Mem) (virt : Nat) : Exec :=
  if USER_BASE ≤ virt ∧ virt ≤ USER_LIMIT then .stop s else .halt

/-- The kernel fills the page at `virt`; an address that is not canonical is no page fault, and stops the machine. -/
def fillPage (s : Mem) (virt : Nat) (words : Nat → BitVec 64) : Exec :=
  if 2 ^ 47 ≤ virt ∧ virt < 2 ^ 64 - 2 ^ 47 then .halt
  else
    match translate s.vm.mem s.cr3 virt with
    | none => s.kernelFault virt
    | some a => .next { s with vm := { s.vm with mem := Function.update s.vm.mem a.frame words } }

def zeroAt (s : Mem) (virt : Nat) : Exec := s.fillPage virt fun _ => 0#64

/-- `hal_mem_map`, whose result no call looks at. -/
def mapAt (s : Mem) (phys : BitVec 64) (virt : Nat) (flags : BitVec 32) : Mem :=
  { s with vm := (s.vm.halMemMap s.cr3 phys virt flags).1 }

def freshPage (onFail : Mem → Exec) (virt : Nat) (flags : BitVec 32) (s : Mem) : Exec :=
  match s.vm.allocPage with
  | (vm, none) => onFail { s with vm := vm }
  | (vm, some p) => (mapAt { s with vm := vm } (addrOf p) virt flags).zeroAt virt

def dropPage (virt : Nat) (s : Mem) : Exec :=
  let phys := s.vm.halMemGetPhys s.cr3 virt
  if phys = 0 then .next s
  else
    match s.vm.pmm.pmmUnrefPage phys with
    | .error _ => .halt
    | .ok pmm => .next { s with vm := Vm.vmmUnmapPage { s.vm with pmm := pmm } s.cr3 virt }

/-! ## sys_mmap -/

/-- The flags after the checks for `MAP_SHARED` and `MAP_PRIVATE`; `none` is `-ENODEV`. -/
def mmapFlags (s : Mem) (flags : BitVec 32) (fd : Int) : Option (BitVec 32) :=
  if halHas flags 0x3#32 then some flags
  else if s.current.osAbi = ELFOSABI_LINUX ∧ (fd ≠ -1 ∨ halHas flags MAP_ANONYMOUS) then some (flags ||| MAP_PRIVATE)
  else if fd ≠ -1 then none
  else some flags

/-- The largest `mmap_base` among the tasks of this address space; only as many slots are looked at as tasks are READY
or RUNNING. -/
def maxBase (s : Mem) : Nat :=
  let max := (List.range s.taskGetCount).foldl (fun base i =>
    if i < MAX_TASKS ∧ (s.tasks i).cr3 = s.current.cr3 ∧ (s.tasks i).mmapBase > base then (s.tasks i).mmapBase else base) 0
  if max = 0 then s.current.mmapBase else max

/-- The new base, given to the tasks of this address space in the same slots and to the current task. -/
def setBase (s : Mem) (base : Nat) : Mem :=
  { s with
    tasks := fun i =>
      if i < s.taskGetCount ∧ i < MAX_TASKS ∧ (s.tasks i).cr3 = s.current.cr3 ∨ i = s.cur then
        { s.tasks i with mmapBase := base }
      else s.tasks i }

def mmapPlace (s : Mem) (addr len : Nat) (flags : BitVec 32) : Except Int (Mem × Nat) :=
  if halHas flags MAP_FIXED then
    if addr % PAGE_SIZE ≠ 0 then .error (-EINVAL)
    else if !vmmValidateUserPtr addr len then .error (-ENOMEM)
    else .ok (s, addr)
  else
    let virt := s.maxBase
    let alignedLen := pageAlignUp len
    if alignedLen < len then .error (-ENOMEM)
    else
      let newBase := (virt + alignedLen) % 2 ^ 64
      if newBase < virt ∨ newBase > USER_LIMIT + 1 then .error (-ENOMEM) else .ok (s.setBase newBase, virt)

inductive Backing where
  | framebuffer
  | shm (obj : ShmObject)
  | binder
  | properties
  | file (node : Option FsNode)

def backingOf (node : FsNode) (flags : BitVec 32) : Backing :=
  if node.shmfs ∧ halHas flags 0x3#32 then
    match node.impl with
    | some obj => .shm obj
    | none => .file (some node)
  else if node.name = "fb0" ∨ node.name = "card0" then .framebuffer
  else if node.name = "binder" then .binder
  else if node.name = "__properties__" then .properties
  else .file (some node)

def mmapBacking (s : Mem) (flags : BitVec 32) (fd : Int) : Except Int Backing :=
  if fd = -1 then .ok (.file none)
  else if fd < 0 ∨ fd ≥ MAX_FD then .error (-EBADF)
  else
    match s.current.fdTable fd.toNat with
    | none => .error (-EBADF)
    | some node => .ok (backingOf node flags)

def userFlags (prot : BitVec 32) : BitVec 32 :=
  let flags := HAL_MEM_USER ||| HAL_MEM_READ
  let flags := if halHas prot PROT_WRITE then flags ||| HAL_MEM_WRITE else flags
  if halHas prot PROT_EXEC then flags ||| HAL_MEM_EXEC else flags

/-- The properties every `__properties__` mapping starts with, as words. -/
def dummyProps (i : Nat) : BitVec 64 :=
  let bytes := "ro.build.version.sdk=29\nro.debuggable=1\n".toList.map Char.toNat
  (List.range 8).foldl (fun w k => w ||| BitVec.ofNat 64 (bytes.getD (8 * i + k) 0) <<< (8 * k)) 0#64

/-- One page of the framebuffer: the frame it has, the identity map below 4 GB, or else a copy. -/
def mapFramebuffer (offset start virt : Nat) (flags : BitVec 32) (s : Mem) : Exec :=
  let addr := (s.fbVirt + (offset + (virt - start)) % 2 ^ 64) % 2 ^ 64
  let phys := s.vm.halMemGetPhys s.cr3 addr
  if phys ≠ 0 then .next (s.mapAt (BitVec.ofNat 64 phys) virt (flags ||| HAL_MEM_WRITE_COMBINING))
  else if addr < 0x100000000 then .next (s.mapAt (BitVec.ofNat 64 addr) virt (flags ||| HAL_MEM_WRITE_COMBINING))
  else
    match s.vm.allocPage with
    | (vm, none) => .next { s with vm := vm }
    | (vm, some p) =>
      let s := mapAt { s with vm := vm } (addrOf p) virt flags
      match translate s.vm.mem s.cr3 addr with
      | none => s.kernelFault addr
      | some a => s.fillPage virt (s.vm.mem a.frame)

/-- One page of a shared memory object, or a new page beyond its end. -/
def mapShm (obj : ShmObject) (prot : BitVec 32) (offset start virt : Nat) (flags : BitVec 32) (s : Mem) : Exec :=
  if prot &&& obj.protMask ≠ prot then .ret s (-EPERM)
  else
    let idx := (offset + (virt - start)) % 2 ^ 64 / PAGE_SIZE % 2 ^ 32
    let phys := obj.pages.getD idx 0
    if phys ≠ 0 then
      match s.vm.pmm.pmmRefPage phys with
      | .error _ => .halt
      | .ok pmm => .next (mapAt { s with vm := { s.vm with pmm := pmm } } (BitVec.ofNat 64 phys) virt flags)
    else freshPage .next virt flags s

def mapFile (node : Option FsNode) (offset start virt : Nat) (flags : BitVec 32) (s : Mem) : Exec :=
  (freshPage (fun s => .ret s (-ENOMEM)) virt flags s).andThen fun s =>
    match node with
    | none => .next s
    | some node =>
      let off := (offset + (virt - start)) % 2 ^ 64
      if off < node.length then s.fillPage virt (node.content off) else .next s

def mmapPage (backing : Backing) (prot : BitVec 32) (len offset base start virt : Nat) (s : Mem) : Exec :=
  let flags := userFlags prot
  (dropPage virt s).andThen fun s =>
    match backing with
    | .framebuffer => mapFramebuffer offset start virt flags s
    | .shm obj => mapShm obj prot offset start virt flags s
    | .binder =>
      (freshPage (fun s => .ret s (-ENOMEM)) virt flags s).andThen fun s =>
        if virt = start then
          .next (s.modTask s.cur fun t =>
            { t with binderMmapBase := start, binderMmapSize := len, binderMmapOffset := 0, binderMmapKptr := base })
        else .next s
    | .properties =>
      (freshPage (fun s => .ret s (-ENOMEM)) virt flags s).andThen fun s =>
        if virt = start then s.fillPage virt dummyProps else .next s
    | .file node => mapFile node offset start virt flags s

def sysMmap (s : Mem) (addr len : UInt64) (prot flags : BitVec 32) (fd : Int) (offset : UInt64) : Exec :=
  let len := len.toNat
  if len = 0 then .ret s (-EINVAL)
  else
    match s.mmapFlags flags fd with
    | none => .ret s (-ENODEV)
    | some flags =>
      let fd := if halHas flags MAP_ANONYMOUS then -1 else fd
      match s.mmapPlace addr.toNat len flags with
      | .error e => .ret s e
      | .ok (s, virt) =>
        let start := pageAlignDown virt
        let stop := pageAlignUp ((virt + len) % 2 ^ 64)
        if stop < start ∨ (virt + len) % 2 ^ 64 < virt then .ret s (-ENOMEM)
        else
          match s.mmapBacking flags fd with
          | .error e => .ret s e
          | .ok backing =>
            (Flow.each (mmapPage backing prot len offset.toNat virt start) (pagesOf start stop) s).andThen fun s =>
              .ret s (toInt64 virt)

/-! ## sys_brk -/

def sysBrk (s : Mem) (brk : UInt64) : Exec :=
  let brk := brk.toNat
  let old := s.current.brk
  if brk = 0 then .ret s (toInt64 old)
  else if brk > USER_LIMIT then .ret s (toInt64 old)
  else if brk < old then .ret (s.modTask s.cur fun t => { t with brk := brk }) (toInt64 brk)
  else
    let oldPage := pageAlignUp old
    let newPage := pageAlignUp brk
    if newPage < brk then .ret s (toInt64 old)
    else
      (Flow.each (fun virt s =>
          if s.vm.halMemGetPhys s.cr3 virt = 0 then
            freshPage (fun s => .ret s (-ENOMEM)) virt (HAL_MEM_READ ||| HAL_MEM_WRITE ||| HAL_MEM_USER) s
          else .next s) (pagesOf oldPage newPage) s).andThen fun s =>
        .ret (s.modTask s.cur fun t => { t with brk := brk }) (toInt64 brk)

/-! ## sys_munmap, sys_mprotect, sys_mremap -/

def userRange (addr len : Nat) : Option (Nat × Nat) :=
  let stop := pageAlignUp ((addr + len) % 2 ^ 64)
  if addr < USER_BASE ∨ stop > USER_LIMIT + 1 ∨ stop < addr then none else some (addr, stop)

def munmap (s : Mem) (addr len : Nat) : Exec :=
  if addr % PAGE_SIZE ≠ 0 then .ret s (-EINVAL)
  else if len = 0 then .ret s (-EINVAL)
  else
    match userRange addr len with
    | none => .ret s (-EINVAL)
    | some (start, stop) =>
      (Flow.each dropPage (pagesOf start stop) s).andThen fun s =>
        if s.current.binderMmapBase ≥ start ∧ s.current.binderMmapBase < stop then
          .ret (s.modTask s.cur fun t =>
            { t with binderMmapBase := 0, binderMmapSize := 0, binderMmapOffset := 0, binderMmapKptr := 0 }) 0
        else .ret s 0

def sysMunmap (s : Mem) (addr len : UInt64) : Exec := s.munmap addr.toNat len.toNat

def sysMprotect (s : Mem) (addr len : UInt64) (prot : BitVec 32) : Exec :=
  if addr.toNat % PAGE_SIZE ≠ 0 then .ret s (-EINVAL)
  else if halHas prot (~~~0x7#32) then .ret s (-EINVAL)
  else if len.toNat = 0 then .ret s 0
  else
    match userRange addr.toNat len.toNat with
    | none => .ret s (-ENOMEM)
    | some (start, stop) =>
      (Flow.each (fun virt s =>
          let phys := s.vm.halMemGetPhys s.cr3 virt
          if phys ≠ 0 then .next (s.mapAt (BitVec.ofNat 64 phys) virt (userFlags prot)) else .ret s (-ENOMEM))
        (pagesOf start stop) s).andThen fun s => .ret s 0

/-- One page of `sys_mremap`: the frame at the old address is mapped at the new one, and the old page unmapped. -/
def movePage (oldStart newStart i : Nat) (s : Mem) : Exec :=
  let phys := s.vm.halMemGetPhys s.cr3 (oldStart + i)
  if phys ≠ 0 then
    let s := s.mapAt (BitVec.ofNat 64 phys) (newStart + i) (HAL_MEM_USER ||| HAL_MEM_READ ||| HAL_MEM_WRITE)
    .next { s with vm := s.vm.vmmUnmapPage s.cr3 (oldStart + i) }
  else .next s

/-- The growth in place: every page beyond the old end must be free, and gets a new frame. -/
def growInPlace (oldStart oldLen newLen : Nat) (s : Mem) : Exec :=
  let pages := pagesOf (oldStart + oldLen) ((oldStart + newLen) % 2 ^ 64)
  (Flow.each (fun virt s => if s.vm.halMemGetPhys s.cr3 virt ≠ 0 then .ret s (-ENOMEM) else .next s) pages s).andThen
    fun s =>
      (Flow.each (freshPage (fun s => .ret s (-ENOMEM)) · (HAL_MEM_USER ||| HAL_MEM_READ ||| HAL_MEM_WRITE)) pages s).andThen
        fun s => .ret s (toInt64 oldStart)

def sysMremap (s : Mem) (oldAddr oldSize newSize : UInt64) (flags : BitVec 32) (newAddr : UInt64) : Exec :=
  let oldStart := oldAddr.toNat
  let oldLen := pageAlignUp oldSize.toNat
  let newLen := pageAlignUp newSize.toNat
  if oldStart % PAGE_SIZE ≠ 0 then .ret s (-EINVAL)
  else if oldSize.toNat = 0 ∨ newSize.toNat = 0 then .ret s (-EINVAL)
  else if halHas flags MREMAP_FIXED ∧ ¬ halHas flags MREMAP_MAYMOVE then .ret s (-EINVAL)
  else if halHas flags (~~~(MREMAP_MAYMOVE ||| MREMAP_FIXED)) then .ret s (-EINVAL)
  else if (oldStart + oldLen) % 2 ^ 64 < oldStart then .ret s (-EINVAL)
  else if newLen = oldLen then .ret s (toInt64 oldStart)
  else if newLen < oldLen then
    Flow.call 0 (s.munmap ((oldStart + newLen) % 2 ^ 64) (oldLen - newLen)) fun s r =>
      .ret s (if r < 0 then -ENOMEM else toInt64 oldStart)
  else if ¬ halHas flags MREMAP_MAYMOVE then s.growInPlace oldStart oldLen newLen
  else
    let move := fun (s : Mem) newStart =>
      (Flow.each (movePage oldStart newStart) (pagesOf 0 oldLen) s).andThen fun s => .ret s (toInt64 newStart)
    if halHas flags MREMAP_FIXED then
      let newStart := newAddr.toNat
      if newStart % PAGE_SIZE ≠ 0 then .ret s (-EINVAL)
      else if newStart < USER_BASE ∨ (newStart + newLen) % 2 ^ 64 > USER_LIMIT + 1 then .ret s (-EINVAL)
      else
        Flow.call 0 (s.munmap newStart newLen) fun s r => if r < 0 then .ret s (-EINVAL) else move s newStart
    else
      Flow.call 0 (s.sysMmap 0 (UInt64.ofNat newLen) 0x3#32 (MAP_PRIVATE ||| MAP_ANONYMOUS) (-1) 0) fun s mapped =>
        if mapped < 0 then .ret s mapped else move s mapped.toNat

end Mem

end EterOS.Syscall
