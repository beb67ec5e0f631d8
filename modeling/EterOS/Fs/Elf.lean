import Mathlib.Logic.Function.Basic
import EterOS.Lib.Bytes
/-!
# Elf — the loader

`elf_load_file` of `kernel/fs/elf.c`, into the address space of the current task.  A page is the frame it leads to and
whether it may be written; the kernel stores through user addresses, and a store needs a page but no permission (`CR0.WP` is
clear).  An address with no page is a fault in kernel mode.
-/
namespace EterOS.Elf

open Function (update)

def USER_BASE : Nat := 0x200000000
def USER_TOP : Nat := 0x0000800000000000
def UINT32_MAX : Nat := 2 ^ 32 - 1

def ELFOSABI_NONE : UInt8 := 0
def ELFOSABI_LINUX : UInt8 := 3
def ET_EXEC : Nat := 2
def ET_DYN : Nat := 3
def EM_X86_64 : Nat := 62
def PT_LOAD : Nat := 1
def PT_DYNAMIC : Nat := 2
def PT_TLS : Nat := 7
def DT_NULL : Nat := 0
def DT_NEEDED : Nat := 1
def DT_STRTAB : Nat := 5

/-! ## Files -/

/-- What `vfs_lookup` finds; `ioOk` says whether a read of so many bytes from an offset goes through. -/
structure Node where
  length : Nat
  content : Buffer
  uid : UInt32
  gid : UInt32
  mask : UInt32
  ioOk : Nat → Nat → Bool

/-- The return value of `read_fs`, whose offset has 32 bits: as many bytes as there are. -/
def readFs (n : Node) (offset size : Nat) : Int :=
  if n.ioOk (offset % 2 ^ 32) size then (min size (n.length - offset % 2 ^ 32) : Nat) else -1

structure Ehdr where
  ident : Buffer
  type : Nat
  machine : Nat
  entry : Nat
  phoff : Nat
  phentsize : Nat
  phnum : Nat

structure Phdr where
  type : Nat
  flags : Nat
  offset : Nat
  vaddr : Nat
  filesz : Nat
  memsz : Nat
  align : Nat

def ehdrOf (n : Node) : Ehdr :=
  ⟨n.content, n.content.le 16 2, n.content.le 18 2, n.content.le 24 8, n.content.le 32 8, n.content.le 54 2,
    n.content.le 56 2⟩

def phdrOffset (h : Ehdr) (i : Nat) : Nat := (h.phoff + i * h.phentsize) % 2 ^ 32

def phdrOf (n : Node) (h : Ehdr) (i : Nat) : Phdr :=
  let b := n.content.drop (phdrOffset h i)
  ⟨b.le 0 4, b.le 4 4, b.le 8 8, b.le 16 8, b.le 32 8, b.le 40 8, b.le 48 8⟩

/-! ## The address space -/

structure Page where
  frame : Nat
  write : Bool

structure ElfTask where
  euid : UInt32
  egid : UInt32
  osAbi : UInt8
  isLinux : Bool
  tlsVaddr : Nat
  tlsMemsz : Nat
  tlsFilesz : Nat
  tlsAlign : Nat
  brk : Nat
  mmapBase : Nat
  fsBase : Nat

/-- The pages by their numbers, the tables by their level and the numbers of the pages below divided by `512 ^ level`, the
frames' bytes, how often `pmm_alloc_page` was called, and the task. -/
structure Space where
  pages : Nat → Option Page
  tables : Nat → Nat → Option Nat
  frames : Nat → Buffer
  calls : Nat
  task : ElfTask

/-- The files, and what `pmm_alloc_page` answers to its calls one after the other. -/
structure Machine where
  lookup : List UInt8 → Option Node
  alloc : Nat → Option Nat

/-- How a load ends other than by its last line: with `return 0`, with a fault, or not at all. -/
inductive Stop where
  | rejected (s : Space)
  | fault
  | deep

namespace Space

/-- `hal_mem_get_phys`, as a frame's number: 0 where nothing is mapped. -/
def getPhys (s : Space) (p : Nat) : Nat := ((s.pages p).map Page.frame).getD 0

def newTable (s : Space) (f level k : Nat) : Space :=
  { s with
    tables := update s.tables level (update (s.tables level) k (some f))
    frames := update s.frames f fun _ => 0
    calls := s.calls + 1 }

/-- The walk to the table of a page, by `get_next_table` at each of the levels; whether it got there. -/
def walkTables (m : Machine) (p : Nat) : List Nat → Space → Space × Bool
  | [], s => (s, true)
  | level :: levels, s =>
    if (s.tables level (p / 512 ^ level)).isSome then walkTables m p levels s
    else
      match m.alloc s.calls with
      | none => ({ s with calls := s.calls + 1 }, false)
      | some f => walkTables m p levels (s.newTable f level (p / 512 ^ level))

/-- `vmm_map_page` of a user page; `false` is the result -1. -/
def mapPage (m : Machine) (s : Space) (frame p : Nat) (write : Bool) : Space × Bool :=
  match walkTables m p [3, 2, 1] s with
  | (s, false) => (s, false)
  | (s, true) => ({ s with pages := update s.pages p (some ⟨frame, write⟩) }, true)

/-- `hal_mem_map` of a user page, whose result the loader does not look at. -/
def halMemMap (m : Machine) (s : Space) (frame p : Nat) (write : Bool) : Space := (mapPage m s frame p write).1

def pageAt (s : Space) (va : Nat) : Option Page := if va < USER_TOP then s.pages (va / 4096) else none

def byte (s : Space) (va : Nat) : Option UInt8 := (s.pageAt va).map fun a => s.frames a.frame (va % 4096)

def storeByte (s : Space) (va : Nat) (b : UInt8) : Option Space :=
  (s.pageAt va).map fun a => { s with frames := update s.frames a.frame (update (s.frames a.frame) (va % 4096) b) }

def store : Nat → Space → Nat → Buffer → Option Space
  | 0, s, _, _ => some s
  | n + 1, s, va, src => (s.storeByte va (src 0)).bind fun s => store n s (va + 1) (src.drop 1)

def zeroPage (s : Space) (p : Nat) : Option Space :=
  (s.pages p).map fun a => { s with frames := update s.frames a.frame fun _ => 0 }

def readLe (s : Space) : Nat → Nat → Option Nat
  | _, 0 => some 0
  | va, n + 1 => do
    let b ← s.byte va
    let rest ← s.readLe (va + 1) n
    return b.toNat + 256 * rest

def readString (s : Space) : Nat → Nat → Option (List UInt8)
  | 0, _ => none
  | fuel + 1, va => do
    let b ← s.byte va
    if b = 0 then return []
    else
      let rest ← s.readString fuel (va + 1)
      return b :: rest

def setTask (s : Space) (g : ElfTask → ElfTask) : Space := { s with task := g s.task }

end Space

open Space

/-! ## PT_LOAD -/

def pass1 (m : Machine) : Nat → Nat → Space → Except Stop Space
  | 0, _, s => .ok s
  | n + 1, p, s =>
    if s.getPhys p = 0 then
      match m.alloc s.calls with
      | none => .error (.rejected { s with calls := s.calls + 1 })
      | some f =>
        match (halMemMap m { s with calls := s.calls + 1 } f p true).zeroPage p with
        | none => .error .fault
        | some s => pass1 m n (p + 1) s
    else pass1 m n (p + 1) s

structure Segment where
  vaddr : Nat
  memsz : Nat
  filesz : Nat
  offset : Nat
  write : Bool
  deriving DecidableEq

/-- `start_page` and `end_page`, as page numbers. -/
def Segment.first (g : Segment) : Nat := g.vaddr / 4096
def Segment.last (g : Segment) : Nat := (g.vaddr + g.memsz + 4095) / 4096

def Segment.isShared (g : Segment) (p : Nat) : Bool :=
  decide (p = g.first ∧ g.vaddr % 4096 ≠ 0) || decide (p + 1 = g.last ∧ (g.vaddr + g.memsz) % 4096 ≠ 0)

/-- Pass 2: the pages get the segment's permission, those at its misaligned ends stay writable. -/
def pass2 (m : Machine) (g : Segment) : Nat → Nat → Space → Space
  | 0, _, s => s
  | n + 1, p, s =>
    pass2 m g n (p + 1) (if s.getPhys p ≠ 0 then halMemMap m s (s.getPhys p) p (g.write || g.isShared p) else s)

def Segment.ok (g : Segment) : Bool :=
  decide (g.filesz ≤ g.memsz) && decide (g.vaddr + g.memsz < 2 ^ 64) &&
    decide (g.offset ≤ UINT32_MAX ∧ g.filesz ≤ UINT32_MAX) &&
    decide (g.vaddr < USER_TOP ∧ g.vaddr + g.memsz < USER_TOP) && decide (USER_BASE ≤ g.vaddr)

def copySegment (n : Node) (g : Segment) (s : Space) : Except Stop Space :=
  if g.filesz = 0 then .ok s
  else
    match s.store (readFs n g.offset g.filesz).toNat g.vaddr (n.content.drop (g.offset % 2 ^ 32)) with
    | none => .error .fault
    | some s => if readFs n g.offset g.filesz ≠ g.filesz then .error (.rejected s) else .ok s

def loadSegment (m : Machine) (n : Node) (g : Segment) (s : Space) : Except Stop Space :=
  if g.ok = false then .error (.rejected s)
  else do
    let s ← pass1 m (g.last - g.first) g.first s
    let s ← copySegment n g s
    return pass2 m g (g.last - g.first) g.first s

def Phdr.segment (ph : Phdr) (loadOffset : Nat) : Segment :=
  ⟨(ph.vaddr + loadOffset) % 2 ^ 64, ph.memsz, ph.filesz, ph.offset, ph.flags.testBit 1⟩

/-- "Iterate Program Headers", over the indices to go, with `max_vaddr`. -/
def loadSegments (m : Machine) (n : Node) (h : Ehdr) (loadOffset : Nat) : List Nat → Space → Nat → Except Stop (Space × Nat)
  | [], s, maxVaddr => .ok (s, maxVaddr)
  | i :: is, s, maxVaddr =>
    if readFs n (phdrOffset h i) 56 ≠ 56 then .error (.rejected s)
    else if (phdrOf n h i).type = PT_LOAD then do
      let g := (phdrOf n h i).segment loadOffset
      let s ← loadSegment m n g s
      loadSegments m n h loadOffset is s (max maxVaddr (g.vaddr + g.memsz))
    else loadSegments m n h loadOffset is s maxVaddr

/-! ## PT_DYNAMIC and PT_TLS -/

/-- The first pass over the dynamic section, from entry `d` on with so many to go: the string table, 0 without one. -/
def findStrtab (s : Space) (dyn loadOffset : Nat) : Nat → Nat → Option Nat
  | 0, _ => some 0
  | n + 1, d => do
    let tag ← s.readLe (dyn + 16 * d) 8
    if tag = DT_NULL then return 0
    else if tag = DT_STRTAB then
      let ptr ← s.readLe (dyn + 16 * d + 8) 8
      return (ptr + loadOffset) % 2 ^ 64
    else findStrtab s dyn loadOffset n (d + 1)

/-- `"/lib/"` and the name, in a buffer of 256 bytes. -/
def libPath (name : List UInt8) : List UInt8 := ([47, 108, 105, 98, 47] ++ name).take 255

def loadNeeded (loadLib : List UInt8 → Nat → Space → Except Stop Space) (dyn strtab : Nat) :
    Nat → Nat → Space → Except Stop Space
  | 0, _, s => .ok s
  | n + 1, d, s =>
    match s.readLe (dyn + 16 * d) 8 with
    | none => .error .fault
    | some tag =>
      if tag = DT_NULL then .ok s
      else if tag = DT_NEEDED then
        match s.readLe (dyn + 16 * d + 8) 8 with
        | none => .error .fault
        | some val =>
          let strAddr := (strtab + val) % 2 ^ 64
          if strAddr < USER_BASE ∨ USER_TOP ≤ strAddr then loadNeeded loadLib dyn strtab n (d + 1) s
          else
            match s.readString (USER_TOP - strAddr) strAddr with
            | none => .error .fault
            | some name => do
              let s ← loadLib (libPath name) s.task.mmapBase s
              loadNeeded loadLib dyn strtab n (d + 1) s
      else loadNeeded loadLib dyn strtab n (d + 1) s

def parseDynamic (loadLib : List UInt8 → Nat → Space → Except Stop Space) (ph : Phdr) (loadOffset : Nat) (s : Space) :
    Except Stop Space :=
  let dyn := (ph.vaddr + loadOffset) % 2 ^ 64
  if dyn < USER_BASE ∨ 2 ^ 64 ≤ dyn + ph.memsz ∨ USER_TOP < dyn + ph.memsz then .ok s
  else
    match findStrtab s dyn loadOffset (ph.memsz / 16) 0 with
    | none => .error .fault
    | some strtab =>
      if USER_BASE ≤ strtab ∧ strtab < USER_TOP then loadNeeded loadLib dyn strtab (ph.memsz / 16) 0 s else .ok s

def pass3 (loadLib : List UInt8 → Nat → Space → Except Stop Space) (n : Node) (h : Ehdr) (loadOffset : Nat) :
    List Nat → Space → Except Stop Space
  | [], s => .ok s
  | i :: is, s => do
    let ph := phdrOf n h i
    let s := if ph.type = PT_TLS then s.setTask fun t =>
        { t with
          tlsVaddr := (ph.vaddr + loadOffset) % 2 ^ 64, tlsMemsz := ph.memsz, tlsFilesz := ph.filesz, tlsAlign := ph.align }
      else s
    let s ← if ph.type = PT_DYNAMIC then parseDynamic loadLib ph loadOffset s else .ok s
    pass3 loadLib n h loadOffset is s

/-! ## The thread's block -/

def pageAlignUp (x : Nat) : Nat := (x + 4095) % 2 ^ 64 / 4096 * 4096

def ElfTask.alignedTlsSize (t : ElfTask) : Nat :=
  if 0 < t.tlsMemsz then
    let align := if t.tlsAlign ≠ 0 then t.tlsAlign else 1
    (t.tlsMemsz + align + (2 ^ 64 - 1)) % 2 ^ 64 &&& (2 ^ 64 - align)
  else 4096

def ElfTask.tlsTotal (t : ElfTask) : Nat := pageAlignUp ((t.alignedTlsSize + 64) % 2 ^ 64)

/-- The pages of the block: `pmm_alloc_page` is not asked whether it had one. -/
def tlsPages (m : Machine) : Nat → Nat → Space → Except Stop Space
  | 0, _, s => .ok s
  | n + 1, va, s =>
    match (halMemMap m { s with calls := s.calls + 1 } ((m.alloc s.calls).getD 0) (va / 4096) true).store 4096 va
      (fun _ => 0) with
    | none => .error .fault
    | some s => tlsPages m n (va + 4096) s

/-- `memcpy` from user memory to user memory, byte by byte. -/
def copyUser : Nat → Space → Nat → Nat → Option Space
  | 0, s, _, _ => some s
  | n + 1, s, dst, src => do
    let b ← s.byte src
    let s ← s.storeByte dst b
    copyUser n s (dst + 1) (src + 1)

/-- The block of the main executable: its pages, the image below the control block, and the control block's pointer to
itself. -/
def setupTls (m : Machine) (s : Space) : Except Stop Space := do
  let aligned := s.task.alignedTlsSize
  let total := s.task.tlsTotal
  let tlsAlloc := s.task.mmapBase
  let s ← tlsPages m ((total + 4095) / 4096) tlsAlloc s
  let tcb := (tlsAlloc + aligned) % 2 ^ 64
  let copied := if 0 < s.task.tlsMemsz ∧ 0 < s.task.tlsFilesz ∧ s.task.tlsVaddr ≠ 0 then
      copyUser s.task.tlsFilesz s tlsAlloc s.task.tlsVaddr
    else some s
  match copied.bind fun s => s.store 8 tcb (Buffer.digits tcb) with
  | none => .error .fault
  | some s => return s.setTask fun t =>
      { t with fsBase := tcb, mmapBase := pageAlignUp ((tlsAlloc + total + 4096) % 2 ^ 64) }

/-! ## The whole load -/

def granted (t : ElfTask) (n : Node) : Bool :=
  let shift : UInt32 := if t.euid = n.uid then n.mask >>> 6 else if t.egid = n.gid then n.mask >>> 3 else n.mask
  t.euid == 0 || shift &&& 7 &&& 1 != 0

def headerOk (n : Node) : Bool :=
  let h := ehdrOf n
  readFs n 0 64 == 64 && (h.ident 0 == 0x7F && h.ident 1 == 69 && h.ident 2 == 76 && h.ident 3 == 70) &&
    (h.type == ET_EXEC || h.type == ET_DYN) && h.machine == EM_X86_64

/-- The ABI of the image; `is_linux` is only ever set. -/
def ElfTask.setAbi (t : ElfTask) (abi : UInt8) : ElfTask :=
  if abi = ELFOSABI_LINUX ∨ abi = ELFOSABI_NONE then { t with osAbi := ELFOSABI_LINUX, isLinux := true }
    else { t with osAbi := abi }

def loadOffset (h : Ehdr) (base : Nat) : Nat := if h.type = ET_DYN then base else 0

/-- What follows the passes: the break and the block of a main executable, or room behind a library. -/
def finish (m : Machine) (base maxVaddr : Nat) (s : Space) : Except Stop Space :=
  if base = 0 ∨ base = 0x200000000 then setupTls m (s.setTask fun t => { t with brk := maxVaddr })
  else .ok (s.setTask fun t => { t with mmapBase := pageAlignUp ((maxVaddr + 4096) % 2 ^ 64) })

/-- `elf_load_file`, with libraries nested up to a depth: the return value, and what it leaves. -/
def elfLoadFile (m : Machine) : Nat → List UInt8 → Nat → Space → Except Stop (Nat × Space)
  | 0, _, _, _ => .error .deep
  | fuel + 1, path, base, s =>
    match m.lookup path with
    | none => .error (.rejected s)
    | some n =>
      if granted s.task n = false then .error (.rejected s)
      else if headerOk n = false then .error (.rejected s)
      else do
        let h := ehdrOf n
        let s := s.setTask fun t => t.setAbi (h.ident 7)
        let (s, maxVaddr) ← loadSegments m n h (loadOffset h base) (List.range h.phnum) s 0
        -- a library that cannot be loaded is left out
        let loadLib := fun path base s => match elfLoadFile m fuel path base s with
          | .ok r => .ok r.2
          | .error (.rejected s) => .ok s
          | .error e => .error e
        let s ← pass3 loadLib n h (loadOffset h base) (List.range h.phnum) s
        let s ← finish m base maxVaddr s
        return ((h.entry + loadOffset h base) % 2 ^ 64, s)

end EterOS.Elf
