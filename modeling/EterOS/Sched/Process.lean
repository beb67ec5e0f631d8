import EterOS.Sched.Frame
/-!
# Process — processes and their address spaces

`task_fork`, `task_clone`, `task_waitpid`, `task_waitid`, `task_exec` and `task_setup_private_pml4` of `kernel/task.c`, as
far as the task table goes.  `task_fork` and `task_clone` without `CLONE_VM` release the lock around `vmm_clone_pml4`, and
`task_exec` takes no lock at all: each is two steps, between which other CPUs run, and what it keeps in local variables is
the caller's `inCall`.

A PML4 frame comes from `pmm_alloc_page`, which hands out no frame that is allocated; which one is left open.
-/
namespace EterOS.Sched

open Function (update update_self update_of_ne)

def CLONE_VM : BitVec 64 := 0x00000100
def CLONE_THREAD : BitVec 64 := 0x00010000

def WNOHANG : BitVec 32 := 1
def WUNTRACED : BitVec 32 := 2
def WSTOPPED : BitVec 32 := WUNTRACED
def WEXITED : BitVec 32 := 4
def WCONTINUED : BitVec 32 := 8
def WNOWAIT : BitVec 32 := 0x01000000
def WALL : BitVec 32 := 0x40000000

def P_ALL : Int := 0
def P_PID : Int := 1
def P_PGID : Int := 2

def hasBit {w : Nat} (flags bit : BitVec w) : Bool := flags &&& bit != 0

def asInt (n : Nat) : Int := (BitVec.ofNat 32 n).toInt

namespace State

/-! ## Creation -/

/-- A slot for a child of the current task, READY and with a new id; the CR3 in it is still the one its last user had. -/
def newChild (s : State) (c : Nat) (tgid pgid : Option Nat) (stack : Bool) : State × Option Slot :=
  if s.taskCount ≥ MAX_TASKS then (s, none)
  else
    match s.findFreeSlot with
    | (s, none) => (s, none)
    | (s, some slot) =>
      if !stack then ({ s with taskBitmap := update s.taskBitmap slot false }, none)
      else
        let parent := s.tasks (s.current c)
        let s := s.modTask slot fun t =>
          { t with id := s.nextId, parentId := parent.id
                   tgid := tgid.getD s.nextId, pgid := pgid.getD s.nextId
                   state := .ready, inCall := .none, building := true }
        ({ s with nextId := (s.nextId + 1) % 2 ^ 32 }, some slot)

def finishChild (s : State) (slot : Slot) (pgid cr3 : Nat) : State :=
  let s := s.modTask slot fun t =>
    { t with cr3 := cr3, pgid := pgid, signalPending := 0, waitStatus := 0, waitCode := 0, waitPending := false
             state := .ready, inCall := .none, building := false }
  { s with taskCount := max s.taskCount (slot.val + 1) }.enqueueReady slot

def allocRoot (s : State) (cr3 : Nat) : State :=
  { s with roots := cr3 :: s.roots }

def taskFork (s : State) (c : Nat) (stack : Bool) : State :=
  match s.newChild c none none stack with
  | (s, none) => s
  | (s, some slot) => s.modTask (s.current c) fun t => { t with inCall := .fork slot }

/-- `task_clone`, whole with `CLONE_VM` and up to its call of `vmm_clone_pml4` without. -/
def taskClone (s : State) (c : Nat) (flags : BitVec 64) (stack : Bool) : State :=
  let parent := s.tasks (s.current c)
  match s.newChild c (if hasBit flags CLONE_THREAD then some parent.tgid else none) (some parent.pgid) stack with
  | (s, none) => s
  | (s, some slot) =>
    if hasBit flags CLONE_VM then s.finishChild slot parent.pgid parent.cr3
    else s.modTask (s.current c) fun t => { t with inCall := .fork slot }

/-- `task_fork` and `task_clone` after `vmm_clone_pml4`, which returns 0 when it fails; that is not checked. -/
def forkReturn (s : State) (c childCr3 : Nat) : State :=
  match (s.tasks (s.current c)).inCall with
  | .fork slot =>
    let s := if childCr3 = 0 then s else s.allocRoot childCr3
    (s.finishChild slot (s.tasks (s.current c)).pgid childCr3).modTask (s.current c) fun t => { t with inCall := .none }
  | _ => s

/-! ## exec -/

def loadCr3 (s : State) (c cr3 : Nat) : State :=
  (s.modTask (s.current c) fun t => { t with cr3 := cr3 }).modCpu c fun cpu => { cpu with cr3 := cr3 }

/-- `task_exec` up to its call of `elf_load_file`; an exec that fails before has changed nothing. -/
def taskExec (s : State) (c newCr3 : Nat) : State :=
  let old := (s.tasks (s.current c)).cr3
  ((s.allocRoot newCr3).loadCr3 c newCr3).modTask (s.current c) fun t => { t with inCall := .exec old }

/-- The end of `task_exec`: the old address space goes when the image is loaded, the new one when it could not be. -/
def execReturn (s : State) (c : Nat) (loaded : Bool) : State :=
  let t := s.current c
  match (s.tasks t).inCall with
  | .exec old =>
    let new := (s.tasks t).cr3
    let s := s.modTask t fun t => { t with inCall := .none }
    if loaded then s.vmmDestroyPml4 t old else (s.loadCr3 c old).vmmDestroyPml4 t new
  | _ => s

/-- `task_setup_private_pml4`: the task leaves its PML4 for a new one, and the old one stays. -/
def taskSetupPrivatePml4 (s : State) (c newCr3 : Nat) : State :=
  (s.allocRoot newCr3).loadCr3 c newCr3

/-! ## wait -/

inductive WaitResult
  | event (pid status code : Nat)
  | noChild
  | nothing
  | invalid
  | retry (ms : Nat)
  deriving DecidableEq

/-- A slot `task_waitpid` and `task_waitid` look at: not empty, and not the caller's. -/
def waitable (s : State) (c : Nat) (i : Slot) : Bool :=
  !((s.tasks i).id == 0 && (s.tasks i).state == .ready) && (s.tasks i).id != (s.tasks (s.current c)).id

def waitSlot (s : State) (c : Nat) (target event : Slot → Bool) : Option Slot :=
  (List.finRange MAX_TASKS).find? fun i => s.waitable c i && target i && (s.tasks i).waitPending && event i

def waitStep (s : State) (c : Nat) (target event : Slot → Bool) (options : BitVec 32) : State × WaitResult :=
  match s.waitSlot c target event with
  | some i =>
    let result := WaitResult.event (s.tasks i).id (s.tasks i).waitStatus (s.tasks i).waitCode
    let zombie := (s.tasks i).state = .dead
    if zombie ∧ s.isCurrent i then (s, .retry 10)
    else if hasBit options WNOWAIT then (s, result)
    else if zombie then (s.taskReapZombieLocked i, result)
    else (s.modTask i fun t => { t with waitPending := false, waitCode := 0 }, result)
  | none =>
    if !(List.finRange MAX_TASKS).any fun i => s.waitable c i && target i then (s, .noChild)
    else if hasBit options WNOHANG then (s, .nothing)
    else (s, .retry 100)

def taskIsWaitTarget (current t : Task) (pid : Int) (options : BitVec 32) : Bool :=
  (t.parentId == current.id || hasBit options WALL && t.tgid == current.tgid ||
    hasBit options WALL && t.tgid == current.id) &&
  (pid == -1 || asInt t.id == pid || asInt t.tgid == pid || decide (pid < -1) && asInt t.tgid == -pid)

def waitpidTarget (s : State) (c : Nat) (pid : Int) (options : BitVec 32) (i : Slot) : Bool :=
  taskIsWaitTarget (s.tasks (s.current c)) (s.tasks i) pid options

def waitpidEvent (s : State) (options : BitVec 32) (i : Slot) : Bool :=
  (s.tasks i).state == .dead ||
  (s.tasks i).waitCode == CLD_STOPPED && hasBit options WUNTRACED ||
  (s.tasks i).waitCode == CLD_CONTINUED && hasBit options WCONTINUED

def taskWaitpid (s : State) (c : Nat) (pid : Int) (options : BitVec 32) : State × WaitResult :=
  s.waitStep c (s.waitpidTarget c pid options) (s.waitpidEvent options) options

/-- The children, and with `__WALL` the threads, `task_waitid` may wait for. -/
def isWaitChild (current t : Task) (options : BitVec 32) : Bool :=
  t.parentId == current.id || hasBit options WALL && (t.tgid == current.tgid || t.tgid == current.id)

def waitidTarget (s : State) (c : Nat) (idtype id : Int) (options : BitVec 32) (i : Slot) : Bool :=
  isWaitChild (s.tasks (s.current c)) (s.tasks i) options &&
    if idtype = P_PID then asInt (s.tasks i).id == id || asInt (s.tasks i).tgid == id
    else if idtype = P_PGID then
      asInt (s.tasks i).pgid == (if id ≠ 0 then id else asInt (s.tasks (s.current c)).pgid)
    else true

def waitidEvent (s : State) (options : BitVec 32) (i : Slot) : Bool :=
  if (s.tasks i).state = .dead then hasBit options WEXITED
  else (s.tasks i).waitCode == CLD_STOPPED && hasBit options WSTOPPED ||
    (s.tasks i).waitCode == CLD_CONTINUED && hasBit options WCONTINUED

def taskWaitid (s : State) (c : Nat) (idtype id : Int) (options : BitVec 32) : State × WaitResult :=
  if !hasBit options (WEXITED ||| WSTOPPED ||| WCONTINUED) then (s, .invalid)
  else if idtype ≠ P_PID ∧ idtype ≠ P_PGID ∧ idtype ≠ P_ALL ∧ (List.finRange MAX_TASKS).any fun i =>
        s.waitable c i && isWaitChild (s.tasks (s.current c)) (s.tasks i) options then (s, .invalid)
  else s.waitStep c (s.waitidTarget c idtype id options) (s.waitidEvent options) options

end State
end EterOS.Sched
