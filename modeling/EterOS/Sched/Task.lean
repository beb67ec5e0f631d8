import EterOS.Sched.Queue
import Mathlib.Algebra.Group.Int.Defs
import Mathlib.Algebra.Group.Nat.Defs
/-!
# Task — the task table and the scheduler's entry points

`find_free_slot` to `task_exit_internal` of `kernel/task.c`, and `task_reap_zombie_locked`.  Every function here is one
section under `sched_lock`, so a run of the machine is a sequence of them, in any order over the CPUs.  Left out are the
parts of `task_t` no function below reads: stacks, names, file tables, credentials, the saved registers.

`task_block`, `task_block_with_timeout`, `task_sleep` and `task_exit` mark the current task and release the lock; their
caller then calls `schedule`, with the interrupts of its CPU still off.  `Cpu.yielding` is the point between the two.
-/
namespace EterOS.Sched

open Function (update update_self update_of_ne)

def MAX_CPUS : Nat := 256
def SCHEDULER_HZ : Nat := 10
def TIMER_HZ : Nat := 1000

def CLD_STOPPED : Nat := 5
def CLD_CONTINUED : Nat := 6

/-- `task_state_t`; `TASK_READY` is 0, the state of an unused slot too. -/
inductive TaskState
  | ready
  | running
  | blocked
  | sleeping
  | stopped
  | dead
  deriving DecidableEq

/-- The local variables of a call a task has released the lock in: the `slot` of `task_fork` and `task_clone`, the
`old_cr3` of `task_exec`. -/
inductive Call
  | none
  | fork (slot : Slot)
  | exec (oldCr3 : Nat)
  deriving DecidableEq

structure Task where
  id : Nat
  parentId : Nat
  tgid : Nat
  pgid : Nat
  state : TaskState
  wakeTick : Nat
  signalPending : BitVec 32
  cr3 : Nat
  waitStatus : Nat
  waitCode : Nat
  waitPending : Bool
  inCall : Call
  /-- The slot is claimed by a `task_fork` or `task_clone` that has not given it its CR3 yet. -/
  building : Bool

def Task.zero : Task :=
  { id := 0, parentId := 0, tgid := 0, pgid := 0, state := .ready, wakeTick := 0, signalPending := 0, cr3 := 0,
    waitStatus := 0, waitCode := 0, waitPending := false, inCall := .none, building := false }

structure Cpu where
  online : Bool
  currentTask : Option Slot
  idleTask : Option Slot
  schedTicks : Nat
  /-- The CR3 register. -/
  cr3 : Nat
  /-- The lock is released and `schedule` not yet called. -/
  yielding : Bool

def Cpu.zero : Cpu :=
  { online := false, currentTask := none, idleTask := none, schedTicks := 0, cr3 := 0, yielding := false }

/-- A PML4 that `vmm_destroy_pml4` has torn down: the task it was for, the frame, and the table at the call. -/
structure DestroyCall where
  slot : Slot
  cr3 : Nat
  tasks : Slot → Task
  taskBitmap : Slot → Bool

structure State where
  tasks : Slot → Task
  taskBitmap : Slot → Bool
  taskCount : Nat
  nextId : Nat
  ready : ReadyQueues
  sleep : SleepQueue
  cpus : Nat → Cpu
  totalCpus : Nat
  /-- The PML4 frames that are allocated. -/
  roots : List Nat
  /-- The address spaces torn down so far. -/
  destroyed : List DestroyCall

namespace State

def online (s : State) (c : Nat) : Bool := (s.cpus c).online

def modTask (s : State) (t : Slot) (f : Task → Task) : State :=
  { s with tasks := update s.tasks t (f (s.tasks t)) }

def modCpu (s : State) (c : Nat) (f : Cpu → Cpu) : State :=
  { s with cpus := update s.cpus c (f (s.cpus c)) }

def enqueueReady (s : State) (t : Slot) : State :=
  { s with ready := Sched.enqueueReady s.totalCpus s.online t s.ready }

def dequeueReady (s : State) (t : Slot) : State :=
  { s with ready := Sched.dequeueReady t s.ready }

def enqueueSleep (s : State) (t : Slot) : State :=
  { s with sleep := Sched.enqueueSleep (fun u => (s.tasks u).wakeTick) t s.sleep }

def dequeueSleep (s : State) (t : Slot) : State :=
  { s with sleep := Sched.dequeueSleep t s.sleep }

def current (s : State) (c : Nat) : Slot :=
  (s.cpus c).currentTask.getD 0

/-- The scan over `cpus` before a woken task is queued. -/
def isActive (s : State) (t : Slot) : Bool :=
  (List.range MAX_CPUS).any fun c => (s.cpus c).online && (s.cpus c).currentTask == some t

/-- The scan over `cpus` before a zombie is reaped, which does not look at the CPUs' states. -/
def isCurrent (s : State) (t : Slot) : Bool :=
  (List.range MAX_CPUS).any fun c => (s.cpus c).currentTask == some t

/-! ## Slots -/

def vmmDestroyPml4 (s : State) (slot : Slot) (cr3 : Nat) : State :=
  if cr3 = 0 then s
  else
    { s with
      roots := s.roots.filter (· ≠ cr3)
      destroyed := ⟨slot, cr3, s.tasks, s.taskBitmap⟩ :: s.destroyed }

/-- The scan of `task_reap_zombie_locked`: some other slot with `state != 0` has the zombie's CR3. -/
def sharedCr3 (s : State) (zombie : Slot) : Bool :=
  (List.finRange MAX_TASKS).any fun k =>
    k ≠ zombie && (s.tasks k).state ≠ .ready && (s.tasks k).cr3 == (s.tasks zombie).cr3

def releaseCr3 (s : State) (zombie : Slot) : State :=
  if (s.tasks zombie).cr3 ≠ (s.tasks 0).cr3 ∧ s.sharedCr3 zombie = false then
    s.vmmDestroyPml4 zombie (s.tasks zombie).cr3
  else s

def taskReapZombieLocked (s : State) (zombie : Slot) : State :=
  let s := s.releaseCr3 zombie
  let s := s.modTask zombie fun t =>
    { t with id := 0, state := .ready, waitPending := false, waitCode := 0, waitStatus := 0 }
  { s with taskBitmap := update s.taskBitmap zombie false }

/-- An orphan of task 0 that `find_free_slot` reaps when the bitmap is full. -/
def reapable (s : State) (i : Slot) : Bool :=
  i ≠ 0 && (s.tasks i).state == .dead && (s.tasks i).parentId == (s.tasks 0).id && !s.isCurrent i

def freeBit (s : State) : Option Slot :=
  (List.finRange MAX_TASKS).find? fun i => !s.taskBitmap i

def findFreeSlot (s : State) : State × Option Slot :=
  match s.freeBit with
  | some slot => ({ s with taskBitmap := update s.taskBitmap slot true }, some slot)
  | none =>
    match (List.finRange MAX_TASKS).find? s.reapable with
    | some i =>
      let s := s.taskReapZombieLocked i
      ({ s with taskBitmap := update s.taskBitmap i true }, some i)
    | none => (s, none)

/-! ## Boot -/

def schedulerInit (totalCpus pml4 : Nat) : State :=
  { tasks := update (fun _ => Task.zero) 0 { Task.zero with state := .running, cr3 := pml4 }
    taskBitmap := fun t => t = 0
    taskCount := 1
    nextId := 1
    ready := { nextReady := fun _ => none, prevReady := fun _ => none, targetCpu := fun _ => 0
               localReadyHead := fun _ => none, localReadyTail := fun _ => none, localTaskCount := fun _ => 0 }
    sleep := { nextSleep := fun _ => none, prevSleep := fun _ => none, sleepHead := none }
    cpus := update (fun _ => { Cpu.zero with cr3 := pml4 }) 0
      { Cpu.zero with online := true, currentTask := some 0, cr3 := pml4 }
    totalCpus := totalCpus
    roots := [pml4]
    destroyed := [] }

/-- `task_init_ap` on CPU `c`, then `cpu->state = CPU_STATE_ONLINE`, which follows also when no slot was free. -/
def taskInitAp (s : State) (c : Nat) : State :=
  match s.findFreeSlot with
  | (s, none) => s.modCpu c fun cpu => { cpu with online := true }
  | (s, some slot) =>
    let s := s.modTask slot fun t =>
      { t with id := s.nextId, parentId := 0, tgid := s.nextId, pgid := s.nextId, state := .running
               cr3 := (s.cpus c).cr3, inCall := .none, building := false }
    let s := { s with
      nextId := (s.nextId + 1) % 2 ^ 32
      ready := { s.ready with targetCpu := update s.ready.targetCpu slot c }
      taskCount := max s.taskCount (slot.val + 1) }
    s.modCpu c fun cpu =>
      { cpu with online := true, currentTask := some slot, idleTask := some slot, schedTicks := 0 }

/-- The machine when `smp_init` is done: the application processors in `up` came up, one after the other. -/
def boot (totalCpus : Nat) (up : Nat → Bool) (pml4 : Nat) : State :=
  (((List.range totalCpus).tail).filter up).foldl taskInitAp (schedulerInit totalCpus pml4)

/-! ## The scheduler -/

/-- `task_create` on CPU `c`; `stack` is whether `alloc_kernel_stack` succeeds. -/
def taskCreate (s : State) (c : Nat) (stack : Bool) : State :=
  if s.taskCount ≥ MAX_TASKS then s
  else
    match s.findFreeSlot with
    | (s, none) => s
    | (s, some slot) =>
      if !stack then { s with taskBitmap := update s.taskBitmap slot false }
      else
        let s := s.modTask slot fun t =>
          { t with id := s.nextId, parentId := 0, tgid := s.nextId, pgid := s.nextId, state := .ready
                   cr3 := (s.cpus c).cr3, signalPending := 0, waitStatus := 0, waitCode := 0, waitPending := false
                   inCall := .none, building := false }
        let s := { s with nextId := (s.nextId + 1) % 2 ^ 32, taskCount := max s.taskCount (slot.val + 1) }
        s.enqueueReady slot

def runnable (s : State) (t : Slot) : Bool :=
  (s.tasks t).state == .running || (s.tasks t).state == .ready

def findNextTask (s : State) (c : Nat) (current : Slot) : Option Slot :=
  match s.ready.localReadyHead c with
  | some t => some t
  | none => if s.runnable current then some current else none

def fallback (s : State) (c : Nat) : Slot :=
  (s.cpus c).idleTask.getD 0

def putBack (s : State) (current : Slot) : State :=
  if s.runnable current then
    (s.modTask current fun t => { t with state := .ready }).enqueueReady current
  else s

def switchTo (s : State) (c : Nat) (next : Slot) : State :=
  let s := if (s.tasks next).state = .ready then s.dequeueReady next else s
  let s := s.modTask next fun t => { t with state := .running }
  let s := s.dequeueSleep next
  let s := s.modTask next fun t => { t with wakeTick := 0 }
  s.modCpu c fun cpu =>
    { cpu with currentTask := some next
               cr3 := if (s.tasks next).cr3 ≠ cpu.cr3 ∧ (s.tasks next).cr3 ≠ 0 then (s.tasks next).cr3 else cpu.cr3 }

def resume (s : State) (current : Slot) : State :=
  let s := if (s.tasks current).state = .ready then
      (s.dequeueReady current).modTask current fun t => { t with state := .running }
    else s
  (s.dequeueSleep current).modTask current fun t => { t with wakeTick := 0 }

def schedule (s : State) (c : Nat) : State :=
  let s := s.modCpu c fun cpu => { cpu with yielding := false }
  let current := s.current c
  let next := (s.findNextTask c current).getD (s.fallback c)
  if next = current then s.resume current
  else
    let ticks := ((s.cpus c).schedTicks + 1) % 2 ^ 32
    if s.runnable current && ticks < SCHEDULER_HZ then s.modCpu c fun cpu => { cpu with schedTicks := ticks }
    else
      let s := s.modCpu c fun cpu => { cpu with schedTicks := 0 }
      (s.putBack current).switchTo c next

def taskYield (s : State) (c : Nat) : State :=
  (s.modCpu c fun cpu => { cpu with schedTicks := SCHEDULER_HZ }).schedule c

/-! ## Blocking and waking -/

def markYielding (s : State) (c : Nat) : State :=
  s.modCpu c fun cpu => { cpu with yielding := true }

def taskBlockWithTimeout (s : State) (c wakeTick : Nat) : State :=
  let t := s.current c
  let s := s.markYielding c
  if (s.tasks t).signalPending ≠ 0 then s.modTask t fun task => { task with state := .ready }
  else (s.modTask t fun task => { task with wakeTick := wakeTick, state := .blocked }).enqueueSleep t

def taskBlock (s : State) (c : Nat) : State :=
  let t := s.current c
  let s := s.markYielding c
  if (s.tasks t).signalPending ≠ 0 then s.modTask t fun task => { task with state := .ready }
  else s.modTask t fun task => { task with wakeTick := 0, state := .blocked }

def sleepTicks (ms : Nat) : Nat :=
  let ticks := ms * TIMER_HZ % 2 ^ 64 / 1000
  if ms > 0 && ticks == 0 then 1 else ticks

/-- `task_sleep` up to its call of `schedule`; `now` is `timer_get_ticks()`. -/
def taskSleep (s : State) (c ms now : Nat) : State :=
  let t := s.current c
  let s := s.markYielding c
  (s.modTask t fun task =>
    { task with wakeTick := (now + sleepTicks ms) % 2 ^ 64, state := .sleeping }).enqueueSleep t

/-- A blocked or sleeping task made ready: queued, unless a CPU has not switched away from it yet. -/
def wake (s : State) (t : Slot) : State :=
  let s := (s.modTask t fun task => { task with state := .ready }).dequeueSleep t
  if s.isActive t then s else s.enqueueReady t

/-- The `while` loop of `task_wake_expired`. -/
def wakeExpiredLoop (tick : Nat) : Nat → Option Slot → State → State
  | 0, _, s => s
  | _ + 1, none, s => s
  | fuel + 1, some curr, s =>
    if (s.tasks curr).wakeTick ≤ tick then wakeExpiredLoop tick fuel (s.sleep.nextSleep curr) (s.wake curr) else s

def taskWakeExpired (s : State) (tick : Nat) : State :=
  wakeExpiredLoop tick MAX_TASKS s.sleep.sleepHead s

def taskWakeup (s : State) (t : Slot) : State :=
  let s := if (s.tasks t).state = .blocked ∨ (s.tasks t).state = .sleeping then s.wake t else s
  if (s.tasks t).state = .stopped then
    let s := s.modTask t fun task => { task with state := .ready }
    if s.isActive t then s else s.enqueueReady t
  else s

/-! ## Exit -/

/-- Whether `task_wake_parent_waiter` wakes slot `i` for a task whose parent is `parentId`. -/
def isWaiter (s : State) (parentId : Nat) (i : Slot) : Bool :=
  (s.tasks i).id == parentId && ((s.tasks i).state == .sleeping || (s.tasks i).state == .blocked ||
    (s.tasks i).state == .stopped)

def taskWakeParentWaiter (s : State) (parentId : Nat) : State :=
  (List.finRange MAX_TASKS).foldl (fun s i => if s.isWaiter parentId i then s.wake i else s) s

def reparent (s : State) (id : Nat) : State :=
  { s with tasks := fun i =>
      if (s.tasks i).id ≠ 0 ∧ (s.tasks i).parentId = id then { s.tasks i with parentId := (s.tasks 0).id }
      else s.tasks i }

/-- `task_exit_internal` up to its call of `schedule`. -/
def taskExit (s : State) (c waitStatus waitCode : Nat) : State :=
  let t := s.current c
  let s := s.markYielding c
  let s := s.modTask t fun task =>
    { task with state := .dead, waitStatus := waitStatus, waitCode := waitCode, waitPending := true }
  let s := s.reparent (s.tasks t).id
  s.taskWakeParentWaiter (s.tasks t).parentId

end State
end EterOS.Sched
