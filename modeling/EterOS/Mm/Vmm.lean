import EterOS.Mm.PageEntry
/-!
# Vmm — the four-level page tables of `kernel/mm/vmm.c`

Physical memory is a page of 512 words for each frame; tables and data are read from it through the identity map, so a
table is named by its frame.  What the active address space is, the code reads from `CR3`: here it is an argument.
A failed assertion of the page allocator ends the operation.
-/
namespace EterOS.Mm

structure Vm where
  mem : Nat → Nat → BitVec 64
  pmm : Pmm

def pml4Index (virt : Nat) : Nat := virt / 2 ^ 39 % 512
def pdptIndex (virt : Nat) : Nat := virt / 2 ^ 30 % 512
def pdIndex (virt : Nat) : Nat := virt / 2 ^ 21 % 512
def ptIndex (virt : Nat) : Nat := virt / 2 ^ 12 % 512

def USER_BASE : Nat := 0x200000000
def USER_LIMIT : Nat := 0x00007FFFFFFFFFFF

namespace Vm

def write (s : Vm) (table i : Nat) (e : BitVec 64) : Vm :=
  { s with mem := Function.update s.mem table (Function.update (s.mem table) i e) }

def zeroPage (s : Vm) (frame : Nat) : Vm := { s with mem := Function.update s.mem frame fun _ => 0#64 }

def copyPage (s : Vm) (dest src : Nat) : Vm := { s with mem := Function.update s.mem dest (s.mem src) }

def allocPage (s : Vm) : Vm × Option Nat :=
  let r := s.pmm.pmmAllocPage
  ({ s with pmm := r.1 }, if r.2 = 0 then none else some (r.2 / PAGE_SIZE))

def freeFrame (s : Vm) (frame : Nat) : Except PmmPanic Vm :=
  (s.pmm.pmmFreePage (frame * PAGE_SIZE)).map fun pmm => { s with pmm := pmm }

def refFrame (s : Vm) (frame : Nat) : Except PmmPanic Vm :=
  (s.pmm.pmmRefPage (frame * PAGE_SIZE)).map fun pmm => { s with pmm := pmm }

/-! ## Walking and mapping -/

def tableFlags : BitVec 64 := PAGE_PRESENT ||| PAGE_WRITE ||| PAGE_USER

def splitTable (e : BitVec 64) (k : Nat) : BitVec 64 :=
  ((e &&& PAGE_ADDR_MASK) + BitVec.ofNat 64 (k * PAGE_SIZE)) ||| (flagsOf e &&& ~~~PAGE_HUGE)

/-- `get_next_table`: a huge page is split on the way, also when `alloc` is 0. -/
def getNextTable (s : Vm) (table i : Nat) (alloc : Bool) : Vm × Option Nat :=
  let e := s.mem table i
  if present e then
    if huge e then
      match s.allocPage with
      | (s, none) => (s, none)
      | (s, some p) =>
        let s := { s with mem := Function.update s.mem p (splitTable e) }
        (s.write table i (addrOf p ||| tableFlags), some p)
    else (s, some (frameOf e))
  else if !alloc then (s, none)
  else
    match s.allocPage with
    | (s, none) => (s, none)
    | (s, some p) => ((s.zeroPage p).write table i (addrOf p ||| tableFlags), some p)

/-- The three table walks every operation starts with; `none` where one of them fails. -/
def walkTables (s : Vm) (cr3 virt : Nat) (alloc : Bool) : Vm × Option Nat :=
  match s.getNextTable cr3 (pml4Index virt) alloc with
  | (s, none) => (s, none)
  | (s, some pdpt) =>
    match s.getNextTable pdpt (pdptIndex virt) alloc with
    | (s, none) => (s, none)
    | (s, some pd) => s.getNextTable pd (pdIndex virt) alloc

/-- `vmm_map_page`; `false` is the result -1. -/
def vmmMapPage (s : Vm) (cr3 : Nat) (phys : BitVec 64) (virt : Nat) (flags : BitVec 64) : Vm × Bool :=
  match s.walkTables cr3 virt true with
  | (s, none) => (s, false)
  | (s, some pt) => (s.write pt (ptIndex virt) ((phys &&& PAGE_ADDR_MASK) ||| flags), true)

def vmmUnmapPage (s : Vm) (cr3 virt : Nat) : Vm :=
  match s.walkTables cr3 virt false with
  | (s, none) => s
  | (s, some pt) => if present (s.mem pt (ptIndex virt)) then s.write pt (ptIndex virt) 0#64 else s

def vmmVirtToPhys (s : Vm) (cr3 virt : Nat) : Nat :=
  if virt = 0 then 0
  else
    let e4 := s.mem cr3 (pml4Index virt)
    if !present e4 then 0
    else
      let e3 := s.mem (frameOf e4) (pdptIndex virt)
      if !present e3 then 0
      else if huge e3 then (e3 &&& 0xFFFFFC0000000#64).toNat + virt % 2 ^ 30
      else
        let e2 := s.mem (frameOf e3) (pdIndex virt)
        if !present e2 then 0
        else if huge e2 then (e2 &&& 0xFFFFFFFFFE00000#64).toNat + virt % 2 ^ 21
        else
          let e1 := s.mem (frameOf e2) (ptIndex virt)
          if !present e1 then 0 else frameOf e1 * PAGE_SIZE + virt % PAGE_SIZE

/-! ## Cloning -/

/-- A loop over the entries of a table whose body may `return`. -/
def forEntries (body : Nat → Vm → Except PmmPanic (Vm × Bool)) : List Nat → Vm → Except PmmPanic Vm
  | [], s => .ok s
  | i :: is, s =>
    match body i s with
    | .error e => .error e
    | .ok (s, true) => forEntries body is s
    | .ok (s, false) => .ok s

/-- The entries `clone_pt_recursive` copies as they are: the top level but for its first entry, and the first 8 GB. -/
def sharedEntry (level i : Nat) : Bool := level == 4 && i != 0 || level == 3 && decide (i < 8)

def cloneLeaf (asCow : Bool) (dest src i : Nat) (s : Vm) : Except PmmPanic Vm :=
  let e := s.mem src i
  if !user e then .ok (s.write dest i e)
  else if asCow then ((s.write src i (cowEntry e)).write dest i (cowEntry e)).refFrame (frameOf e)
  else
    match s.allocPage with
    | (s, none) => .ok s
    | (s, some p) => .ok ((s.copyPage p (frameOf e)).write dest i (addrOf p ||| flagsOf e))

/-- The body of the loop of `clone_pt_recursive`, `below` being the call for the next level. -/
def cloneBody (asCow : Bool) (below : Nat → Nat → Vm → Except PmmPanic Vm) (level dest src i : Nat) (s : Vm) :
    Except PmmPanic (Vm × Bool) :=
  if !present (s.mem src i) then .ok (s, true)
  else if sharedEntry level i then .ok (s.write dest i (s.mem src i), true)
  else if level > 1 then
    match s.allocPage with
    | (s, none) => .ok (s, false)
    | (s, some p) =>
      match below p (frameOf (s.mem src i)) (s.zeroPage p) with
      | .error e => .error e
      | .ok s => .ok (s.write dest i (addrOf p ||| (s.mem src i &&& 0xFFF#64)), true)
  else (cloneLeaf asCow dest src i s).map fun s => (s, true)

/-- `clone_pt_recursive`; level 0 is never asked for. -/
def clonePt (asCow : Bool) : Nat → Nat → Nat → Vm → Except PmmPanic Vm
  | 0, _, _, s => .ok s
  | level + 1, dest, src, s => forEntries (cloneBody asCow (clonePt asCow level) (level + 1) dest src) (List.range 512) s

/-- `vmm_clone_pml4`: the new top-level table, or `none` for the result 0. -/
def vmmClonePml4 (s : Vm) (cr3 : Nat) (asCow : Bool) : Except PmmPanic (Vm × Option Nat) :=
  match s.allocPage with
  | (s, none) => .ok (s, none)
  | (s, some p) => (clonePt asCow 4 p cr3 (s.zeroPage p)).map fun s => (s, some p)

/-! ## Copy on write -/

def vmmResolveCow (s : Vm) (pt i : Nat) : Except PmmPanic (Vm × Bool) :=
  let e := s.mem pt i
  if !cow e then .ok (s, false)
  else if s.pmm.pmmGetRefCount (frameOf e * PAGE_SIZE) = 1 then .ok (s.write pt i (uncowEntry e), true)
  else
    match s.allocPage with
    | (s, none) => .ok (s, false)
    | (s, some p) =>
      let s := (s.copyPage p (frameOf e)).write pt i (addrOf p ||| (flagsOf e &&& ~~~PAGE_COW) ||| PAGE_WRITE)
      (s.freeFrame (frameOf e)).map fun s => (s, true)

/-- `vmm_handle_page_fault` on a write of user mode to a present page, the only fault it handles. -/
def vmmHandlePageFault (s : Vm) (cr3 virt : Nat) : Except PmmPanic (Vm × Bool) :=
  match s.walkTables cr3 virt false with
  | (s, none) => .ok (s, false)
  | (s, some pt) => s.vmmResolveCow pt (ptIndex virt)

/-! ## Destroying -/

def freePt : Nat → Nat → Vm → Except PmmPanic Vm
  | 0, _, s => .ok s
  | level + 1, table, s =>
    (List.range 512).foldlM
      (fun s i =>
        let e := s.mem table i
        if !present e then .ok s
        else if !user e then .ok s
        else if (level + 1 = 3 ∨ level + 1 = 2) ∧ huge e then s.freeFrame (frameOf e)
        else if level + 1 > 1 then (freePt level (frameOf e) s).bind fun s => s.freeFrame (frameOf e)
        else s.freeFrame (frameOf e)) s

def vmmDestroyPml4 (s : Vm) : Option Nat → Except PmmPanic Vm
  | none => .ok s
  | some p => (freePt 4 p s).bind fun s => s.freeFrame p

end Vm

end EterOS.Mm
