import EterOS.Mm.Vmm
/-!
# UserAccess — what a program in user mode reads and writes through an address space

The walk of the processor over the four levels, and a store with the page fault it may raise: a store to a present page
that is not writable enters `vmm_handle_page_fault`, and is tried once more when that reports the fault handled.  A
fault that is not handled ends the program, so the store has no effect.
-/
namespace EterOS.Mm

structure Access where
  frame : Nat
  user : Bool
  write : Bool

/-- The walk for `virt`; `none` where an entry is not present. -/
def translate (m : Nat → Nat → BitVec 64) (cr3 virt : Nat) : Option Access :=
  let e4 := m cr3 (pml4Index virt)
  if !present e4 then none
  else
    let e3 := m (frameOf e4) (pdptIndex virt)
    if !present e3 then none
    else if huge e3 then
      some ⟨frameOf e3 / 2 ^ 18 * 2 ^ 18 + virt / PAGE_SIZE % 2 ^ 18, user e4 && user e3, writable e4 && writable e3⟩
    else
      let e2 := m (frameOf e3) (pdIndex virt)
      if !present e2 then none
      else if huge e2 then
        some ⟨frameOf e2 / 2 ^ 9 * 2 ^ 9 + virt / PAGE_SIZE % 2 ^ 9, user e4 && user e3 && user e2,
          writable e4 && writable e3 && writable e2⟩
      else
        let e1 := m (frameOf e2) (ptIndex virt)
        if !present e1 then none
        else
          some ⟨frameOf e1, user e4 && user e3 && user e2 && user e1, writable e4 && writable e3 && writable e2 &&
            writable e1⟩

def getByte (w : BitVec 64) (k : Nat) : BitVec 8 := (w >>> (8 * k)).setWidth 8

def setByte (w : BitVec 64) (k : Nat) (b : BitVec 8) : BitVec 64 :=
  (w &&& ~~~(0xFF#64 <<< (8 * k))) ||| (b.setWidth 64 <<< (8 * k))

/-- What user mode reads at `virt`; `none` is a fault. -/
def userRead (m : Nat → Nat → BitVec 64) (cr3 virt : Nat) : Option (BitVec 8) :=
  match translate m cr3 virt with
  | none => none
  | some a => if a.user then some (getByte (m a.frame (virt % PAGE_SIZE / 8)) (virt % 8)) else none

namespace Vm

def store (s : Vm) (frame virt : Nat) (b : BitVec 8) : Vm :=
  s.write frame (virt % PAGE_SIZE / 8) (setByte (s.mem frame (virt % PAGE_SIZE / 8)) (virt % 8) b)

/-- A store that raises no fault, else `none`. -/
def tryStore (s : Vm) (cr3 virt : Nat) (b : BitVec 8) : Option Vm :=
  match translate s.mem cr3 virt with
  | none => none
  | some a => if a.user && a.write then some (s.store a.frame virt b) else none

/-- A store of user mode.  A page that is not present is a fault the handler does not handle. -/
def userWrite (s : Vm) (cr3 virt : Nat) (b : BitVec 8) : Except PmmPanic Vm :=
  match s.tryStore cr3 virt b with
  | some s => .ok s
  | none =>
    if translate s.mem cr3 virt = none then .ok s
    else
      match s.vmmHandlePageFault cr3 virt with
      | .error e => .error e
      | .ok (s, false) => .ok s
      | .ok (s, true) => .ok ((s.tryStore cr3 virt b).getD s)

end Vm
end EterOS.Mm
