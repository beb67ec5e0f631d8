import EterOS.Lib.Run
import Mathlib.Data.List.Nodup
import Mathlib.Data.List.Perm.Basic
import Mathlib.Logic.Function.Basic
/-!
# Futex — waiting on a word and waking

`futex_wait` and `futex_wake` (`kernel/futex.c`), any number of tasks on any words.  The parts of `futex_wait` are steps
of their own, so a word may change between any two of them: the check without the lock, the lock, the check under it,
the node put in its bucket and the task blocked, the wake-up, and the search for the node under the lock again.  The
scan of `futex_wake` is one step, taken when its bucket is not locked.  A task may be woken at any time from elsewhere.
-/
namespace EterOS.Sched

open List
open Function (update update_self update_of_ne)

/-- What the futexes see of the address spaces: the page table of each task, and the word behind a virtual address. -/
structure AddrSpaces where
  cr3 : Nat → UInt64
  word : UInt64 → UInt64 → Nat

structure WaitArgs where
  uaddr : UInt64
  val : UInt32
  /-- Seconds and nanoseconds. -/
  timeout : Option (UInt64 × UInt64)
  /-- `FUTEX_PRIVATE_FLAG`. -/
  priv : Bool
  bitset : UInt32

structure WakeArgs where
  uaddr : UInt64
  count : Int
  priv : Bool
  bitset : UInt32

/-- `futex_node_t`, its address first; `priv` is the flag its `futex_wait` was called with. -/
structure FutexNode where
  id : Nat
  task : Nat
  uaddr : UInt64
  bitset : UInt32
  priv : Bool
  deriving DecidableEq

structure Wait where
  args : WaitArgs
  node : Nat
  target : Option UInt64

inductive FutexPc
  | user
  /-- In `futex_wait`, before the check without the lock. -/
  | check (args : WaitArgs) (target : Option UInt64)
  /-- With the node, before the lock. -/
  | lock (w : Wait)
  /-- With the lock, before the second check. -/
  | recheck (w : Wait)
  /-- With the lock, the word as expected. -/
  | enqueue (w : Wait)
  /-- Queued, the lock released. -/
  | asleep (w : Wait)
  /-- Back from `schedule`, with what the clock said. -/
  | awake (w : Wait) (timedOut : Bool)
  /-- In `futex_wake`. -/
  | waking (args : WakeArgs)

inductive FutexRet
  | ok
  | count (n : Nat)
  | eagain
  | efault
  | enomem
  | etimedout
  | eintr
  deriving DecidableEq

structure Futexes where
  nodes : Fin 16 → List FutexNode
  /-- The task that has the lock of a bucket. -/
  lock : Fin 16 → Option Nat
  pc : Nat → FutexPc
  /-- `state` is `TASK_BLOCKED`. -/
  blocked : Nat → Bool
  pending : Nat → Bool
  mem : Nat → UInt32
  ticks : UInt64
  /-- The address of the next node. -/
  nextNode : Nat
  /-- The nodes `futex_wake` has removed. -/
  woken : List Nat

inductive FutexAct
  | wait (t : Nat) (args : WaitArgs)
  | wake (t : Nat) (args : WakeArgs)
  /-- The next part of the call a task is in. -/
  | go (t : Nat)
  /-- The same, where `kmalloc` has no memory. -/
  | oom (t : Nat)
  | store (word : Nat) (v : UInt32)
  | tick
  /-- A wake-up from elsewhere: a signal, a timeout. -/
  | unblock (t : Nat)
  /-- `signal_pending` is set or cleared. -/
  | pend (t : Nat) (pending : Bool)

namespace Futexes

variable (m : AddrSpaces)

def futexHash (t : Nat) (uaddr : UInt64) (priv : Bool) : Fin 16 :=
  Fin.ofNat 16 ((uaddr >>> 2) ^^^ (if priv then m.cr3 t >>> 12 else 0)).toNat

def validUaddr (uaddr : UInt64) : Bool := uaddr &&& 3 = 0 && uaddr ≠ 0

def targetTick (ticks : UInt64) (ts : UInt64 × UInt64) : UInt64 :=
  let target := ticks + (ts.1 * 1000 + ts.2 / 1000000)
  if target = 0 then 1 else target

def bucketOf (t : Nat) (w : Wait) : Fin 16 := futexHash m t w.args.uaddr w.args.priv

def nodeOf (t : Nat) (w : Wait) : FutexNode :=
  { id := w.node, task := t, uaddr := w.args.uaddr, bitset := w.args.bitset, priv := w.args.priv }

def load (s : Futexes) (t : Nat) (uaddr : UInt64) : UInt32 := s.mem (m.word (m.cr3 t) uaddr)

def selects (t : Nat) (a : WakeArgs) (x : FutexNode) : Bool :=
  x.uaddr = a.uaddr && (!a.priv || m.cr3 x.task = m.cr3 t) && x.bitset &&& a.bitset ≠ 0

/-- The loop of `futex_wake` with so many still to wake: what stays in the bucket, and what is removed. -/
def wakeScan (p : FutexNode → Bool) : Nat → List FutexNode → List FutexNode × List FutexNode
  | _, [] => ([], [])
  | 0, l => (l, [])
  | k + 1, x :: l =>
    if p x then ((wakeScan p k l).1, x :: (wakeScan p k l).2)
    else (x :: (wakeScan p (k + 1) l).1, (wakeScan p (k + 1) l).2)

def setPc (s : Futexes) (t : Nat) (pc : FutexPc) : Futexes := { s with pc := update s.pc t pc }

/-- The scan of `futex_wake`: the removed tasks are woken. -/
def scan (s : Futexes) (t : Nat) (a : WakeArgs) : Futexes × FutexRet :=
  let b := futexHash m t a.uaddr a.priv
  let r := wakeScan (selects m t a) a.count.toNat (s.nodes b)
  ({ s.setPc t .user with
      nodes := update s.nodes b r.1
      blocked := fun u => s.blocked u && !(r.2.any fun x => x.task = u)
      woken := r.2.map (·.id) ++ s.woken }, .count r.2.length)

/-- The next part of a task's call, with what the call returns at its end. -/
def advance (s : Futexes) (t : Nat) : Futexes × Option FutexRet :=
  match s.pc t with
  | .user => (s, none)
  | .check args target =>
    if !validUaddr args.uaddr then (s.setPc t .user, some .efault)
    else if s.load m t args.uaddr ≠ args.val then (s.setPc t .user, some .eagain)
    else ({ s.setPc t (.lock ⟨args, s.nextNode, target⟩) with nextNode := s.nextNode + 1 }, none)
  | .lock w =>
    if s.lock (bucketOf m t w) = none then
      ({ s.setPc t (.recheck w) with lock := update s.lock (bucketOf m t w) (some t) }, none)
    else (s, none)
  | .recheck w =>
    if s.load m t w.args.uaddr ≠ w.args.val then
      ({ s.setPc t .user with lock := update s.lock (bucketOf m t w) none }, some .eagain)
    else (s.setPc t (.enqueue w), none)
  | .enqueue w =>
    ({ s.setPc t (.asleep w) with
        nodes := update s.nodes (bucketOf m t w) (nodeOf t w :: s.nodes (bucketOf m t w))
        lock := update s.lock (bucketOf m t w) none
        blocked := update s.blocked t (!s.pending t) }, none)
  | .asleep w =>
    if s.blocked t then (s, none)
    else (s.setPc t (.awake w (w.target.any fun target => target ≤ s.ticks)), none)
  | .awake w timedOut =>
    if s.lock (bucketOf m t w) = none then
      if (s.nodes (bucketOf m t w)).any fun x => x.id = w.node then
        ({ s.setPc t .user with
            nodes := update s.nodes (bucketOf m t w) ((s.nodes (bucketOf m t w)).filter fun x => x.id ≠ w.node) },
          some (if timedOut then .etimedout else .eintr))
      else (s.setPc t .user, some .ok)
    else (s, none)
  | .waking a =>
    if !validUaddr a.uaddr then (s.setPc t .user, some .efault)
    else if s.lock (futexHash m t a.uaddr a.priv) = none then
      ((s.scan m t a).1, some (s.scan m t a).2)
    else (s, none)

def act (s : Futexes) : FutexAct → Futexes × Option FutexRet
  | .wait t args =>
    match s.pc t with
    | .user => (s.setPc t (.check args (args.timeout.map (targetTick s.ticks))), none)
    | _ => (s, none)
  | .wake t args =>
    match s.pc t with
    | .user => (s.setPc t (.waking args), none)
    | _ => (s, none)
  | .go t => s.advance m t
  | .oom t =>
    match s.pc t with
    | .check args _ =>
      if validUaddr args.uaddr && s.load m t args.uaddr = args.val then (s.setPc t .user, some .enomem) else (s, none)
    | _ => (s, none)
  | .store word v => ({ s with mem := update s.mem word v }, none)
  | .tick => ({ s with ticks := s.ticks + 1 }, none)
  | .unblock t => ({ s with blocked := update s.blocked t false }, none)
  | .pend t pending => ({ s with pending := update s.pending t pending }, none)

def step (s : Futexes) (a : FutexAct) : Futexes := (s.act m a).1

/-- `futex_init`, at any time and with any memory. -/
def boot (mem : Nat → UInt32) (ticks : UInt64) (pending : Nat → Bool) : Futexes where
  nodes := fun _ => []
  lock := fun _ => none
  pc := fun _ => .user
  blocked := fun _ => false
  pending := pending
  mem := mem
  ticks := ticks
  nextNode := 0
  woken := []

/-! ## The scan -/

variable {m} {s : Futexes} {t u : Nat} {w v : Wait} {a : WakeArgs} {b : Fin 16} {p : FutexNode → Bool} {k : Nat}
  {l : List FutexNode} {x : FutexNode} {pc : FutexPc}

theorem wakeScan_removed (p : FutexNode → Bool) : ∀ (k : Nat) (l : List FutexNode), (wakeScan p k l).2 = (l.filter p).take k
  | k, [] => by cases k <;> rfl
  | 0, x :: l => rfl
  | k + 1, x :: l => by
    rw [wakeScan]
    by_cases hx : p x = true
    · rw [if_pos hx, filter_cons_of_pos hx, take_succ_cons, wakeScan_removed p k l]
    · rw [if_neg hx, filter_cons_of_neg hx, ← wakeScan_removed p (k + 1) l]

theorem wakeScan_perm (p : FutexNode → Bool) :
    ∀ (k : Nat) (l : List FutexNode), ((wakeScan p k l).1 ++ (wakeScan p k l).2).Perm l
  | k, [] => by cases k <;> exact List.Perm.refl _
  | 0, x :: l => (append_nil (x :: l)).symm ▸ List.Perm.refl _
  | k + 1, x :: l => by
    rw [wakeScan]
    split
    · exact perm_middle.trans ((wakeScan_perm p k l).cons x)
    · exact (wakeScan_perm p (k + 1) l).cons x

theorem mem_wakeScan : x ∈ l ↔ x ∈ (wakeScan p k l).1 ∨ x ∈ (wakeScan p k l).2 := by
  rw [← (wakeScan_perm p k l).mem_iff, mem_append]

theorem wakeScan_disjoint (hl : (l.map (·.id)).Nodup) {y : FutexNode} (hx : x ∈ (wakeScan p k l).1)
    (hy : y ∈ (wakeScan p k l).2) : x.id ≠ y.id := by
  have hperm := (wakeScan_perm p k l).map (·.id)
  rw [← hperm.nodup_iff, map_append, nodup_append] at hl
  exact hl.2.2 _ (mem_map_of_mem hx) _ (mem_map_of_mem hy)

theorem wakeScan_kept_nodup (hl : (l.map (·.id)).Nodup) : ((wakeScan p k l).1.map (·.id)).Nodup := by
  have hperm := (wakeScan_perm p k l).map (·.id)
  rw [← hperm.nodup_iff, map_append, nodup_append] at hl
  exact hl.1

/-! ## The invariant -/

end Futexes

def FutexPc.wait : FutexPc → Option Wait
  | .lock w | .recheck w | .enqueue w | .asleep w | .awake w _ => some w
  | _ => none

def FutexPc.queued : FutexPc → Bool
  | .asleep _ | .awake _ _ => true
  | _ => false

def FutexPc.locked : FutexPc → Bool
  | .recheck _ | .enqueue _ => true
  | _ => false

namespace Futexes

variable {m : AddrSpaces} {s : Futexes} {t u : Nat} {w v : Wait} {a : WakeArgs} {b : Fin 16} {p : FutexNode → Bool} {k : Nat}
  {x : FutexNode} {pc : FutexPc}

structure Inv (m : AddrSpaces) (s : Futexes) : Prop where
  /-- A node in a bucket is that of a task in `futex_wait`, which has put it there. -/
  owner : ∀ b, ∀ x ∈ s.nodes b, ∃ w, (s.pc x.task).wait = some w ∧ (s.pc x.task).queued = true ∧
    x = nodeOf x.task w ∧ b = bucketOf m x.task w
  nodup : ∀ b, ((s.nodes b).map (·.id)).Nodup
  distinct : ∀ t u w v, (s.pc t).wait = some w → (s.pc u).wait = some v → w.node = v.node → t = u
  bound : ∀ t w, (s.pc t).wait = some w → w.node < s.nextNode
  wokenBound : ∀ i ∈ s.woken, i < s.nextNode
  /-- A node that was put in its bucket is there until a `futex_wake` removes it. -/
  there : ∀ t w, (s.pc t).wait = some w → (s.pc t).queued = true →
    (nodeOf t w ∈ s.nodes (bucketOf m t w) ↔ w.node ∉ s.woken)
  early : ∀ t w, (s.pc t).wait = some w → (s.pc t).queued = false → w.node ∉ s.woken
  locked : ∀ t w, (s.pc t).wait = some w → (s.pc t).locked = true → s.lock (bucketOf m t w) = some t

theorem boot_inv (mem : Nat → UInt32) (ticks : UInt64) (pending : Nat → Bool) : Inv m (boot mem ticks pending) where
  owner := fun b x hx => by simp [boot] at hx
  nodup := fun b => nodup_nil
  distinct := fun t u w v ht => by cases ht
  bound := fun t w ht => by cases ht
  wokenBound := fun i hi => by simp [boot] at hi
  there := fun t w ht => by cases ht
  early := fun t w ht => by cases ht
  locked := fun t w ht => by cases ht

@[simp] theorem setPc_self : (s.setPc t pc).pc t = pc := update_self ..

theorem setPc_of_ne (h : u ≠ t) : (s.setPc t pc).pc u = s.pc u := update_of_ne h ..

theorem Inv.task_eq (h : Inv m s) (hx : x ∈ s.nodes b) (ht : (s.pc t).wait = some w) (hid : x.id = w.node) :
    x.task = t ∧ x = nodeOf t w ∧ b = bucketOf m t w := by
  obtain ⟨v, hv, -, hxv, hb⟩ := h.owner b x hx
  have hvw : v.node = w.node := by
    rw [← hid, hxv]
    rfl
  obtain rfl := h.distinct x.task t v w hv ht hvw
  obtain rfl := Option.some.inj (hv.symm.trans ht)
  exact ⟨rfl, hxv, hb⟩

theorem Inv.change {s' : Futexes} (h : Inv m s) (t : Nat) (hpc : ∀ u ≠ t, s'.pc u = s.pc u)
    (hnodes : ∀ b x, x.task ≠ t → (x ∈ s'.nodes b ↔ x ∈ s.nodes b)) (hnodup : ∀ b, ((s'.nodes b).map (·.id)).Nodup)
    (hnext : s.nextNode ≤ s'.nextNode) (hwoken : s'.woken = s.woken)
    (hlock : ∀ b, ∀ u ≠ t, s.lock b = some u → s'.lock b = some u)
    (howner : ∀ b, ∀ x ∈ s'.nodes b, x.task = t →
      ∃ w, (s'.pc t).wait = some w ∧ (s'.pc t).queued = true ∧ x = nodeOf t w ∧ b = bucketOf m t w)
    (hself : ∀ w, (s'.pc t).wait = some w → (∀ u v, u ≠ t → (s.pc u).wait = some v → v.node ≠ w.node) ∧
      w.node < s'.nextNode ∧
      ((s'.pc t).queued = true → (nodeOf t w ∈ s'.nodes (bucketOf m t w) ↔ w.node ∉ s.woken)) ∧
      ((s'.pc t).queued = false → w.node ∉ s.woken) ∧
      ((s'.pc t).locked = true → s'.lock (bucketOf m t w) = some t)) : Inv m s' := by
  refine ⟨fun b x hx => ?_, hnodup, fun u u' v v' hu hu' heq => ?_, fun u v hu => ?_, fun i hi => ?_, fun u v hu hq => ?_,
    fun u v hu hq => ?_, fun u v hu hl => ?_⟩
  · by_cases hxt : x.task = t
    · obtain ⟨w, hw, hq, hxw, hb⟩ := howner b x hx hxt
      rw [hxt]
      exact ⟨w, hw, hq, hxw, hb⟩
    · rw [hpc _ hxt]
      exact h.owner b x ((hnodes b x hxt).1 hx)
  · by_cases hut : u = t
    · by_cases hut' : u' = t
      · rw [hut, hut']
      · rw [hut] at hu
        rw [hpc u' hut'] at hu'
        exact absurd heq.symm ((hself v hu).1 u' v' hut' hu')
    · by_cases hut' : u' = t
      · rw [hut'] at hu'
        rw [hpc u hut] at hu
        exact absurd heq ((hself v' hu').1 u v hut hu)
      · rw [hpc u hut] at hu
        rw [hpc u' hut'] at hu'
        exact h.distinct u u' v v' hu hu' heq
  · by_cases hut : u = t
    · rw [hut] at hu
      exact (hself v hu).2.1
    · rw [hpc u hut] at hu
      exact Nat.lt_of_lt_of_le (h.bound u v hu) hnext
  · rw [hwoken] at hi
    exact Nat.lt_of_lt_of_le (h.wokenBound i hi) hnext
  · rw [hwoken]
    by_cases hut : u = t
    · rw [hut] at hu hq ⊢
      exact (hself v hu).2.2.1 hq
    · rw [hpc u hut] at hu hq
      rw [hnodes _ (nodeOf u v) hut]
      exact h.there u v hu hq
  · rw [hwoken]
    by_cases hut : u = t
    · rw [hut] at hu hq
      exact (hself v hu).2.2.2.1 hq
    · rw [hpc u hut] at hu hq
      exact h.early u v hu hq
  · by_cases hut : u = t
    · rw [hut] at hu hl ⊢
      exact (hself v hu).2.2.2.2 hl
    · rw [hpc u hut] at hu hl
      exact hlock _ u hut (h.locked u v hu hl)

theorem Inv.setPc_same (h : Inv m s) (ht : (s.pc t).wait = some w) (hwait : pc.wait = some w)
    (hq : pc.queued = (s.pc t).queued) (hl : pc.locked = (s.pc t).locked) : Inv m (s.setPc t pc) := by
  refine h.change t (fun u hu => setPc_of_ne hu) (fun _ _ _ => Iff.rfl) h.nodup (Nat.le_refl _) rfl
    (fun _ _ _ hb => hb) (fun b x hx hxt => ?_) fun v hv => ?_
  · obtain ⟨v, hv, hqv, hxv, hb⟩ := h.owner b x hx
    rw [hxt] at hv hqv hxv hb
    obtain rfl := Option.some.inj (ht.symm.trans hv)
    rw [setPc_self, hq]
    exact ⟨w, hwait, hqv, hxv, hb⟩
  · rw [setPc_self] at hv ⊢
    obtain rfl := Option.some.inj (hwait.symm.trans hv)
    rw [hq, hl]
    refine ⟨fun u v hut hu heq => hut (h.distinct u t v w hu ht heq), h.bound t w ht, h.there t w ht, h.early t w ht,
      h.locked t w ht⟩

/-- A task without a node in a bucket leaves, or moves on without one; a lock it has may go. -/
theorem Inv.leave {s' : Futexes} (h : Inv m s) (t : Nat) (hpc : s'.pc = update s.pc t pc) (hwait : pc.wait = none)
    (hnodes : s'.nodes = s.nodes) (hnot : ∀ b, ∀ x ∈ s.nodes b, x.task ≠ t) (hnext : s'.nextNode = s.nextNode)
    (hwoken : s'.woken = s.woken) (hlock : ∀ b, ∀ u ≠ t, s.lock b = some u → s'.lock b = some u) : Inv m s' := by
  have hself : s'.pc t = pc := by rw [hpc, update_self]
  refine h.change t (fun u hu => by rw [hpc, update_of_ne hu]) (fun b x _ => by rw [hnodes]) (by rw [hnodes]; exact h.nodup)
    (Nat.le_of_eq hnext.symm) hwoken hlock (fun b x hx hxt => ?_) fun v hv => ?_
  · rw [hnodes] at hx
    exact absurd hxt (hnot b x hx)
  · rw [hself, hwait] at hv
    cases hv

theorem Inv.no_node (h : Inv m s) (hq : (s.pc t).queued = false) : ∀ b, ∀ x ∈ s.nodes b, x.task ≠ t := by
  rintro b x hx rfl
  obtain ⟨_, _, hqx, _⟩ := h.owner b x hx
  rw [hq] at hqx
  cases hqx

/-! ## The steps -/

theorem Inv.getNode (h : Inv m s) (args : WaitArgs) (target : Option UInt64) (hq : (s.pc t).queued = false) :
    Inv m { s.setPc t (.lock ⟨args, s.nextNode, target⟩) with nextNode := s.nextNode + 1 } := by
  have hpc : (s.setPc t (.lock ⟨args, s.nextNode, target⟩)).pc t = .lock ⟨args, s.nextNode, target⟩ := setPc_self
  refine h.change t (fun u hu => setPc_of_ne hu) (fun _ _ _ => Iff.rfl) h.nodup (Nat.le_succ _) rfl (fun _ _ _ hb => hb)
    (fun b x hx hxt => absurd hxt (h.no_node hq b x hx)) fun v hv => ?_
  have hv : (((s.setPc t (.lock ⟨args, s.nextNode, target⟩)).pc t)).wait = some v := hv
  rw [hpc] at hv
  obtain rfl := Option.some.inj hv
  refine ⟨fun u v _ hu => Nat.ne_of_lt (h.bound u v hu), Nat.lt_succ_self _, fun hqt => ?_, fun _ hw => ?_, fun hl => ?_⟩
  · have hqt : (((s.setPc t (.lock ⟨args, s.nextNode, target⟩)).pc t)).queued = true := hqt
    rw [hpc] at hqt
    cases hqt
  · exact absurd (h.wokenBound _ hw) (Nat.lt_irrefl _)
  · have hl : (((s.setPc t (.lock ⟨args, s.nextNode, target⟩)).pc t)).locked = true := hl
    rw [hpc] at hl
    cases hl

theorem Inv.acquire (h : Inv m s) (ht : s.pc t = .lock w) (hfree : s.lock (bucketOf m t w) = none) :
    Inv m { s.setPc t (.recheck w) with lock := update s.lock (bucketOf m t w) (some t) } := by
  have hpc : (s.setPc t (.recheck w)).pc t = .recheck w := setPc_self
  have hq : (s.pc t).queued = false := by rw [ht]; rfl
  have hwt : (s.pc t).wait = some w := by rw [ht]; rfl
  refine h.change t (fun u hu => setPc_of_ne hu) (fun _ _ _ => Iff.rfl) h.nodup (Nat.le_refl _) rfl (fun b u _ hb => ?_)
    (fun b x hx hxt => absurd hxt (h.no_node hq b x hx)) fun v hv => ?_
  · have hne : b ≠ bucketOf m t w := by
      rintro rfl
      rw [hfree] at hb
      cases hb
    exact (update_of_ne hne ..).trans hb
  · have hv : ((s.setPc t (.recheck w)).pc t).wait = some v := hv
    rw [hpc] at hv
    obtain rfl := Option.some.inj hv
    refine ⟨fun u v hut hu heq => hut (h.distinct u t v w hu hwt heq), h.bound t w hwt, fun hqt => ?_,
      fun _ => h.early t w hwt hq, fun _ => update_self ..⟩
    have hqt : ((s.setPc t (.recheck w)).pc t).queued = true := hqt
    rw [hpc] at hqt
    cases hqt

theorem Inv.enqueue (h : Inv m s) (ht : s.pc t = .enqueue w) (bl : Nat → Bool) : Inv m { s.setPc t (.asleep w) with
      nodes := update s.nodes (bucketOf m t w) (nodeOf t w :: s.nodes (bucketOf m t w))
      lock := update s.lock (bucketOf m t w) none
      blocked := bl } := by
  have hpc : (s.setPc t (.asleep w)).pc t = .asleep w := setPc_self
  have hq : (s.pc t).queued = false := by rw [ht]; rfl
  have hwt : (s.pc t).wait = some w := by rw [ht]; rfl
  have hlock : s.lock (bucketOf m t w) = some t := h.locked t w hwt (by rw [ht]; rfl)
  refine h.change t (fun u hu => setPc_of_ne hu) (fun b x hxt => ?_) (fun b => ?_) (Nat.le_refl _) rfl
    (fun b u hut hb => ?_) (fun b x hx hxt => ?_) fun v hv => ?_
  · by_cases hb : b = bucketOf m t w
    · subst hb
      simp only [update_self]
      refine ⟨fun hx => (mem_cons.1 hx).resolve_left ?_, fun hx => mem_cons_of_mem _ hx⟩
      rintro rfl
      exact hxt rfl
    · simp [update_of_ne hb]
  · by_cases hb : b = bucketOf m t w
    · subst hb
      simp only [update_self]
      refine nodup_cons.2 ⟨fun hmem => ?_, h.nodup _⟩
      obtain ⟨x, hx, hid⟩ := mem_map.1 hmem
      exact h.no_node hq _ x hx (h.task_eq hx hwt hid).1
    · simp only [update_of_ne hb]
      exact h.nodup b
  · have hne : b ≠ bucketOf m t w := by
      rintro rfl
      exact hut (Option.some.inj (hb.symm.trans hlock))
    exact (update_of_ne hne ..).trans hb
  · refine ⟨w, by rw [show ((s.setPc t (.asleep w)).pc t) = .asleep w from hpc]; rfl,
      by rw [show ((s.setPc t (.asleep w)).pc t) = .asleep w from hpc]; rfl, ?_⟩
    by_cases hb : b = bucketOf m t w
    · subst hb
      simp only [update_self] at hx
      rcases mem_cons.1 hx with rfl | hx
      · exact ⟨rfl, rfl⟩
      · exact absurd hxt (h.no_node hq _ x hx)
    · simp only [update_of_ne hb] at hx
      exact absurd hxt (h.no_node hq _ x hx)
  · have hv : ((s.setPc t (.asleep w)).pc t).wait = some v := hv
    rw [hpc] at hv
    obtain rfl := Option.some.inj hv
    refine ⟨fun u v hut hu heq => hut (h.distinct u t v w hu hwt heq), h.bound t w hwt, fun _ => ?_, fun hqf => ?_,
      fun hl => ?_⟩
    · simp only [update_self]
      exact ⟨fun _ => h.early t w hwt hq, fun _ => mem_cons_self⟩
    · have hqf : ((s.setPc t (.asleep w)).pc t).queued = false := hqf
      rw [hpc] at hqf
      cases hqf
    · have hl : ((s.setPc t (.asleep w)).pc t).locked = true := hl
      rw [hpc] at hl
      cases hl

theorem Inv.unlink (h : Inv m s) (ht : (s.pc t).wait = some w) : Inv m { s.setPc t .user with
      nodes := update s.nodes (bucketOf m t w) ((s.nodes (bucketOf m t w)).filter fun x => x.id ≠ w.node) } := by
  have hpc : (s.setPc t .user).pc t = .user := setPc_self
  refine h.change t (fun u hu => setPc_of_ne hu) (fun b x hxt => ?_) (fun b => ?_) (Nat.le_refl _) rfl
    (fun _ _ _ hb => hb) (fun b x hx hxt => ?_) fun v hv => ?_
  · by_cases hb : b = bucketOf m t w
    · subst hb
      simp only [update_self]
      rw [mem_filter]
      refine ⟨And.left, fun hx => ⟨hx, ?_⟩⟩
      rw [decide_eq_true_iff]
      exact fun hid => hxt (h.task_eq hx ht hid).1
    · simp [update_of_ne hb]
  · by_cases hb : b = bucketOf m t w
    · subst hb
      simp only [update_self]
      exact (h.nodup _).sublist (filter_sublist.map _)
    · simp only [update_of_ne hb]
      exact h.nodup b
  · -- the task has no node left
    have hin : x ∈ s.nodes b := by
      by_cases hb : b = bucketOf m t w
      · subst hb
        simp only [update_self] at hx
        exact mem_of_mem_filter hx
      · simpa [update_of_ne hb] using hx
    obtain ⟨v, hv, -, hxv, hb⟩ := h.owner b x hin
    rw [hxt] at hv hxv hb
    obtain rfl := Option.some.inj (ht.symm.trans hv)
    subst hb
    simp only [update_self] at hx
    rw [mem_filter, decide_eq_true_iff] at hx
    exact absurd (by rw [hxv]; rfl) hx.2
  · have hv : ((s.setPc t .user).pc t).wait = some v := hv
    rw [hpc] at hv
    cases hv

theorem Inv.mem_removed (h : Inv m s) (ht : (s.pc t).wait = some w) :
    w.node ∈ (wakeScan p k (s.nodes b)).2.map (·.id) ↔ nodeOf t w ∈ (wakeScan p k (s.nodes b)).2 := by
  constructor
  · intro hw
    obtain ⟨x, hx, hid⟩ := mem_map.1 hw
    obtain ⟨-, hxw, -⟩ := h.task_eq (mem_wakeScan.2 (Or.inr hx)) ht hid
    exact hxw ▸ hx
  · exact fun hx => mem_map.2 ⟨_, hx, rfl⟩

theorem Inv.scan (h : Inv m s) (ht : s.pc t = .waking a) : Inv m (s.scan m t a).1 := by
  have hpc : ∀ u, ((s.scan m t a).1.pc u).wait = (s.pc u).wait ∧ ((s.scan m t a).1.pc u).queued = (s.pc u).queued ∧
      ((s.scan m t a).1.pc u).locked = (s.pc u).locked := by
    intro u
    by_cases hu : u = t
    · subst hu
      rw [show (s.scan m u a).1.pc u = .user from setPc_self, ht]
      exact ⟨rfl, rfl, rfl⟩
    · rw [show (s.scan m t a).1.pc u = s.pc u from setPc_of_ne hu]
      exact ⟨rfl, rfl, rfl⟩
  set b := futexHash m t a.uaddr a.priv with hb
  set r := wakeScan (selects m t a) a.count.toNat (s.nodes b) with hr
  have hnodes : (s.scan m t a).1.nodes = update s.nodes b r.1 := rfl
  have hwoken : (s.scan m t a).1.woken = r.2.map (·.id) ++ s.woken := rfl
  have hin : ∀ {x}, x ∈ r.2 → x ∈ s.nodes b := fun hx => mem_wakeScan.2 (Or.inr hx)
  have hkept : ∀ {c x}, x ∈ (s.scan m t a).1.nodes c → x ∈ s.nodes c := by
    intro c x hx
    rw [hnodes] at hx
    by_cases hc : c = b
    · subst hc
      rw [update_self] at hx
      exact mem_wakeScan.2 (Or.inl hx)
    · rwa [update_of_ne hc] at hx
  refine ⟨fun c x hx => ?_, fun c => ?_, fun u u' v v' hu hu' => ?_, fun u v hu => ?_, fun i hi => ?_, fun u v hu hq => ?_,
    fun u v hu hq => ?_, fun u v hu hl => ?_⟩
  · rw [(hpc _).1, (hpc _).2.1]
    exact h.owner c x (hkept hx)
  · rw [hnodes]
    by_cases hc : c = b
    · subst hc
      rw [update_self]
      exact wakeScan_kept_nodup (h.nodup _)
    · rw [update_of_ne hc]
      exact h.nodup c
  · rw [(hpc u).1] at hu
    rw [(hpc u').1] at hu'
    exact h.distinct u u' v v' hu hu'
  · rw [(hpc u).1] at hu
    exact h.bound u v hu
  · rw [hwoken, mem_append] at hi
    rcases hi with hi | hi
    · obtain ⟨x, hx, rfl⟩ := mem_map.1 hi
      obtain ⟨v, hv, -, hxv, -⟩ := h.owner b x (hin hx)
      rw [hxv]
      exact h.bound _ v hv
    · exact h.wokenBound i hi
  · rw [(hpc u).1] at hu
    rw [(hpc u).2.1] at hq
    have hold := h.there u v hu hq
    have hids : v.node ∈ r.2.map (·.id) ↔ nodeOf u v ∈ r.2 := h.mem_removed hu
    rw [hnodes, hwoken, mem_append, not_or, hids, ← hold]
    by_cases hc : bucketOf m u v = b
    · rw [hc, update_self]
      constructor
      · intro hx
        exact ⟨fun hy => wakeScan_disjoint (h.nodup b) hx hy rfl, mem_wakeScan.2 (Or.inl hx)⟩
      · rintro ⟨hnot, hx⟩
        exact (mem_wakeScan.1 hx).resolve_right hnot
    · rw [update_of_ne hc]
      refine ⟨fun hx => ⟨fun hy => hc ?_, hx⟩, And.right⟩
      exact ((h.task_eq (hin hy) hu rfl).2.2).symm
  · rw [(hpc u).1] at hu
    rw [(hpc u).2.1] at hq
    rw [hwoken, mem_append, not_or]
    refine ⟨fun hi => ?_, h.early u v hu hq⟩
    exact h.no_node hq b _ (hin ((h.mem_removed hu).1 hi)) rfl
  · rw [(hpc u).1] at hu
    rw [(hpc u).2.2] at hl
    exact h.locked u v hu hl

theorem Inv.outside {s' : Futexes} (h : Inv m s) (hpc : s'.pc = s.pc) (hnodes : s'.nodes = s.nodes)
    (hlock : s'.lock = s.lock) (hnext : s'.nextNode = s.nextNode) (hwoken : s'.woken = s.woken) : Inv m s' := by
  obtain ⟨nodes, lock, pc, _, _, _, _, nextNode, woken⟩ := s'
  subst hpc hnodes hlock hnext hwoken
  exact ⟨h.owner, h.nodup, h.distinct, h.bound, h.wokenBound, h.there, h.early, h.locked⟩

theorem Inv.move (h : Inv m s) (hq : (s.pc t).queued = false) (hwait : pc.wait = none) : Inv m (s.setPc t pc) :=
  h.leave t rfl hwait rfl (h.no_node hq) rfl rfl fun _ _ _ hb => hb

theorem Inv.advance (h : Inv m s) (t : Nat) : Inv m (s.advance m t).1 := by
  unfold Futexes.advance
  cases ht : s.pc t with
  | user => exact h
  | check args target =>
    have hq : (s.pc t).queued = false := by rw [ht]; rfl
    dsimp only
    split
    · exact h.move hq rfl
    · split
      · exact h.move hq rfl
      · exact h.getNode args target hq
  | lock w =>
    dsimp only
    split
    · exact h.acquire ht ‹_›
    · exact h
  | recheck w =>
    have hq : (s.pc t).queued = false := by rw [ht]; rfl
    have hwt : (s.pc t).wait = some w := by rw [ht]; rfl
    have hlock : s.lock (bucketOf m t w) = some t := h.locked t w hwt (by rw [ht]; rfl)
    dsimp only
    split
    · -- the lock is released, and no other task had it
      refine h.leave t rfl rfl rfl (h.no_node hq) rfl rfl fun b u hut hb => ?_
      have hne : b ≠ bucketOf m t w := by
        rintro rfl
        exact hut (Option.some.inj (hb.symm.trans hlock))
      exact (update_of_ne hne ..).trans hb
    · exact h.setPc_same hwt rfl (by rw [ht]; rfl) (by rw [ht]; rfl)
  | enqueue w => exact h.enqueue ht _
  | asleep w =>
    dsimp only
    split
    · exact h
    · exact h.setPc_same (by rw [ht]; rfl) rfl (by rw [ht]; rfl) (by rw [ht]; rfl)
  | awake w timedOut =>
    have hwt : (s.pc t).wait = some w := by rw [ht]; rfl
    dsimp only
    split
    · split
      · exact h.unlink hwt
      · rename_i hgone
        refine h.leave t rfl rfl rfl (fun b x hx hxt => hgone ?_) rfl rfl fun _ _ _ hb => hb
        -- a node of the task would be its own, in this bucket
        obtain ⟨v, hv, -, hxv, hb⟩ := h.owner b x hx
        rw [hxt] at hv hxv hb
        obtain rfl := Option.some.inj (hwt.symm.trans hv)
        rw [any_eq_true]
        exact ⟨x, hb ▸ hx, by rw [hxv]; exact decide_eq_true rfl⟩
    · exact h
  | waking a =>
    dsimp only
    split
    · exact h.move (by rw [ht]; rfl) rfl
    · split
      · exact h.scan ht
      · exact h

theorem Inv.step (h : Inv m s) (a : FutexAct) : Inv m (s.step m a) := by
  cases a with
  | wait t args =>
    rw [Futexes.step, act]
    split
    · exact h.move (by rw [‹s.pc t = _›]; rfl) rfl
    · exact h
  | wake t args =>
    rw [Futexes.step, act]
    split
    · exact h.move (by rw [‹s.pc t = _›]; rfl) rfl
    · exact h
  | go t => exact h.advance t
  | oom t =>
    rw [Futexes.step, act]
    split
    · split
      · exact h.move (by rw [‹s.pc t = _›]; rfl) rfl
      · exact h
    · exact h
  | store word v => exact h.outside rfl rfl rfl rfl rfl
  | tick => exact h.outside rfl rfl rfl rfl rfl
  | unblock t => exact h.outside rfl rfl rfl rfl rfl
  | pend t pending => exact h.outside rfl rfl rfl rfl rfl

/-! ## The protocol -/

/-- A waiter a `futex_wake` with the same flags is for. -/
def Matching (m : AddrSpaces) (t : Nat) (a : WakeArgs) (x : FutexNode) : Prop :=
  x.uaddr = a.uaddr ∧ x.priv = a.priv ∧ (a.priv = true → m.cr3 x.task = m.cr3 t) ∧ x.bitset &&& a.bitset ≠ 0

def Removed (s s' : Futexes) (x : FutexNode) : Prop := (∃ b, x ∈ s.nodes b) ∧ ∀ b, x ∉ s'.nodes b

/-- The nodes the test of a `futex_wake` selects. -/
def selected (m : AddrSpaces) (s : Futexes) (t : Nat) (a : WakeArgs) : List FutexNode :=
  (s.nodes (futexHash m t a.uaddr a.priv)).filter (selects m t a)

structure Woke (m : AddrSpaces) (s s' : Futexes) (t : Nat) (a : WakeArgs) (gone : List FutexNode) : Prop where
  nodup : gone.Nodup
  removed : ∀ x, x ∈ gone ↔ Removed s s' x
  woken : s'.woken = gone.map (·.id) ++ s.woken
  awake : ∀ x ∈ gone, s'.blocked x.task = false
  atMost : gone.length ≤ a.count.toNat
  matching : ∀ x ∈ gone, selects m t a x = true ∧ (x.priv = a.priv → Matching m t a x)
  nobody : gone = [] → 0 < a.count → ∀ b, ∀ x ∈ s.nodes b, ¬ Matching m t a x
  /-- With a sufficient count no waiter is left queued. -/
  everybody : (selected m s t a).length ≤ a.count.toNat → ∀ b, ∀ x ∈ s'.nodes b, ¬ Matching m t a x
  /-- Nor is one about to put its node in the bucket. -/
  late : ∀ u w, (s'.pc u).wait = some w → (s'.pc u).locked = true → ¬ Matching m t a (nodeOf u w)

structure Waited (s' : Futexes) (w : Wait) (r : FutexRet) : Prop where
  returns : r = .ok ∨ r = .etimedout ∨ r = .eintr ∨ r = .eagain
  ok : r = .ok ↔ w.node ∈ s'.woken
  gone : ∀ b, ∀ x ∈ s'.nodes b, x.id ≠ w.node

structure StepOk (m : AddrSpaces) (s : Futexes) (a : FutexAct) : Prop where
  wake : ∀ t args r, a = .go t → s.pc t = .waking args → (s.act m a).2 = some r →
    (r = .efault ∧ validUaddr args.uaddr = false ∧ (s.step m a).nodes = s.nodes) ∨
    ∃ gone, r = .count gone.length ∧ Woke m s (s.step m a) t args gone
  wait : ∀ t w r, a = .go t → (s.pc t).wait = some w → (s.act m a).2 = some r → Waited (s.step m a) w r
  /-- A `futex_wait` that returns before it has a node. -/
  refused : ∀ t args target r, a = .go t ∨ a = .oom t → s.pc t = .check args target → (s.act m a).2 = some r →
    (r = .eagain ∨ r = .efault ∧ validUaddr args.uaddr = false ∨ r = .enomem ∧ a = .oom t) ∧
      (s.step m a).nodes = s.nodes
  /-- A node comes into a bucket only from the task it is of, past its check. -/
  put : ∀ b, ∀ x ∈ (s.step m a).nodes b, x ∈ s.nodes b ∨ ∃ w, s.pc x.task = .enqueue w ∧ x = nodeOf x.task w
  /-- A task queues its node only after it has read the expected value with the lock. -/
  read : ∀ t w, (s.step m a).pc t = .enqueue w →
    s.pc t = .enqueue w ∨ s.pc t = .recheck w ∧ s.load m t w.args.uaddr = w.args.val
  /-- Only `futex_wake` adds to the nodes it has removed. -/
  quiet : (∀ t args, a = .go t → s.pc t ≠ .waking args) → (s.step m a).woken = s.woken

/-- The task has the lock, and reads the value its `futex_wait` expects. -/
def Reads (m : AddrSpaces) (s : Futexes) (x : FutexNode) : Prop :=
  ∃ w, s.pc x.task = .recheck w ∧ x = nodeOf x.task w ∧ s.load m x.task w.args.uaddr = w.args.val

/-- In a bucket, or past the check and not there yet. -/
def Coming (s : Futexes) (x : FutexNode) : Prop :=
  (∃ b, x ∈ s.nodes b) ∨ ∃ w, s.pc x.task = .enqueue w ∧ x = nodeOf x.task w

theorem mem_selected_of_selects (hx : x ∈ s.nodes (futexHash m t a.uaddr a.priv)) (hsel : selects m t a x = true) :
    x ∈ selected m s t a := mem_filter.2 ⟨hx, hsel⟩

theorem Matching.selects (h : Matching m t a x) : selects m t a x = true := by
  obtain ⟨hu, -, hcr3, hbits⟩ := h
  cases hp : a.priv with
  | false => simp [Futexes.selects, hu, hp, hbits]
  | true => simp [Futexes.selects, hu, hp, hbits, hcr3 hp]

theorem matching_of_selects (h : Futexes.selects m t a x = true) (hp : x.priv = a.priv) : Matching m t a x := by
  simp only [Futexes.selects, Bool.and_eq_true, Bool.or_eq_true, Bool.not_eq_eq_eq_not, Bool.not_true,
    decide_eq_true_iff] at h
  obtain ⟨⟨hu, hcr3⟩, hbits⟩ := h
  refine ⟨hu, hp, fun ha => ?_, hbits⟩
  rcases hcr3 with hcr3 | hcr3
  · rw [ha] at hcr3
    cases hcr3
  · exact hcr3

theorem Matching.bucketOf (h : Matching m t a (nodeOf u w)) : bucketOf m u w = futexHash m t a.uaddr a.priv := by
  obtain ⟨hu, hp, hcr3, -⟩ := h
  have hu : w.args.uaddr = a.uaddr := hu
  have hp : w.args.priv = a.priv := hp
  have hcr3 : a.priv = true → m.cr3 u = m.cr3 t := hcr3
  unfold Futexes.bucketOf futexHash
  rw [hu, hp]
  cases ha : a.priv with
  | false => rfl
  | true => rw [hcr3 ha]

theorem Inv.mem_selected (h : Inv m s) (hx : x ∈ s.nodes b) (hmatch : Matching m t a x) :
    b = futexHash m t a.uaddr a.priv ∧ x ∈ selected m s t a := by
  obtain ⟨w, -, -, hxw, hb⟩ := h.owner b x hx
  have hb : b = futexHash m t a.uaddr a.priv := by
    rw [hb]
    rw [hxw] at hmatch
    exact hmatch.bucketOf
  exact ⟨hb, mem_selected_of_selects (hb ▸ hx) hmatch.selects⟩

theorem Inv.woke (h : Inv m s) (hfree : s.lock (futexHash m t a.uaddr a.priv) = none) :
    Woke m s (s.scan m t a).1 t a ((selected m s t a).take a.count.toNat) := by
  have hr : (wakeScan (Futexes.selects m t a) a.count.toNat (s.nodes (futexHash m t a.uaddr a.priv))).2 =
      (selected m s t a).take a.count.toNat := wakeScan_removed ..
  rw [← hr]
  set b := futexHash m t a.uaddr a.priv with hb
  set r := wakeScan (Futexes.selects m t a) a.count.toNat (s.nodes b) with hrdef
  have hnodes : (s.scan m t a).1.nodes = update s.nodes b r.1 := rfl
  have hin : ∀ {x}, x ∈ r.2 → x ∈ s.nodes b := fun hx => mem_wakeScan.2 (Or.inr hx)
  have hpc : ∀ u w, ((s.scan m t a).1.pc u).wait = some w → (s.scan m t a).1.pc u = s.pc u := by
    intro u w hw
    by_cases hu : u = t
    · subst hu
      rw [show (s.scan m u a).1.pc u = .user from setPc_self] at hw
      cases hw
    · exact setPc_of_ne hu
  refine ⟨?_, fun x => ⟨fun hx => ⟨⟨b, hin hx⟩, fun c hc => ?_⟩, ?_⟩, rfl, fun x hx => ?_, ?_, fun x hx => ?_,
    fun hnil hcount c x hx hmatch => ?_, fun hall c x hx hmatch => ?_, fun u w hw hl hmatch => ?_⟩
  · have hnd := h.nodup b
    rw [← ((wakeScan_perm (Futexes.selects m t a) a.count.toNat (s.nodes b)).map (·.id)).nodup_iff, map_append,
      nodup_append] at hnd
    exact List.Nodup.of_map _ hnd.2.1
  · rw [hnodes] at hc
    by_cases hcb : c = b
    · subst hcb
      rw [update_self] at hc
      exact wakeScan_disjoint (h.nodup _) hc hx rfl
    · rw [update_of_ne hcb] at hc
      obtain ⟨v, hv, -, -, hbv⟩ := h.owner b x (hin hx)
      obtain ⟨v', hv', -, -, hcv⟩ := h.owner c x hc
      obtain rfl := Option.some.inj (hv.symm.trans hv')
      exact hcb (hcv.trans hbv.symm)
  · rintro ⟨⟨c, hc⟩, hgone⟩
    have hg := hgone c
    rw [hnodes] at hg
    by_cases hcb : c = b
    · subst hcb
      rw [update_self] at hg
      exact (mem_wakeScan.1 hc).resolve_left hg
    · rw [update_of_ne hcb] at hg
      exact absurd hc hg
  · have hany : (r.2.any fun y => y.task = x.task) = true := any_eq_true.2 ⟨x, hx, decide_eq_true rfl⟩
    change (s.blocked x.task && !(r.2.any fun y => y.task = x.task)) = false
    rw [hany, Bool.not_true, Bool.and_false]
  · rw [hr]
    exact length_take_le _ _
  · rw [hr] at hx
    have hsel := (mem_filter.1 (mem_of_mem_take hx)).2
    exact ⟨hsel, fun hp => matching_of_selects hsel hp⟩
  · have hsel := (h.mem_selected hx hmatch).2
    rw [hr, take_eq_nil_iff] at hnil
    rcases hnil with hnil | hnil
    · omega
    · rw [hnil] at hsel
      cases hsel
  · have hold : x ∈ s.nodes c := by
      rw [hnodes] at hx
      by_cases hcb : c = b
      · subst hcb
        rw [update_self] at hx
        exact mem_wakeScan.2 (Or.inl hx)
      · rwa [update_of_ne hcb] at hx
    obtain ⟨hcb, hsel⟩ := h.mem_selected hold hmatch
    rw [hcb, hnodes, update_self] at hx
    rw [← take_of_length_le hall, ← hr] at hsel
    exact wakeScan_disjoint (h.nodup b) hx hsel rfl
  · have hpcu := hpc u w hw
    rw [hpcu] at hw hl
    have hlock := h.locked u w hw hl
    rw [hmatch.bucketOf, hfree] at hlock
    cases hlock

theorem Inv.waited (h : Inv m s) (ht : (s.pc t).wait = some w) {r : FutexRet} (hr : (s.advance m t).2 = some r) :
    Waited (s.advance m t).1 w r := by
  unfold Futexes.advance at hr ⊢
  cases hpc : s.pc t with
  | user =>
    rw [hpc] at hr
    cases hr
  | check args target =>
    rw [hpc] at ht
    cases ht
  | lock v =>
    rw [hpc] at hr
    dsimp only at hr
    split at hr <;> cases hr
  | recheck v =>
    have hwt : (s.pc t).wait = some w := ht
    rw [hpc] at hr ht
    obtain rfl := Option.some.inj ht
    dsimp only at hr ⊢
    split at hr
    · rw [if_pos ‹_›]
      obtain rfl := Option.some.inj hr
      have hq : (s.pc t).queued = false := by rw [hpc]; rfl
      refine ⟨by simp, ⟨fun hok => (by cases hok), fun hmem => absurd hmem (h.early t v hwt hq)⟩, fun b x hx hid => ?_⟩
      exact h.no_node hq b x hx (h.task_eq hx hwt hid).1
    · cases hr
  | enqueue v =>
    rw [hpc] at hr
    cases hr
  | asleep v =>
    rw [hpc] at hr
    dsimp only at hr
    split at hr <;> cases hr
  | awake v timedOut =>
    have hwt : (s.pc t).wait = some w := ht
    have hq : (s.pc t).queued = true := by rw [hpc]; rfl
    have hthere := h.there t w hwt hq
    rw [hpc] at hr ht
    obtain rfl := Option.some.inj ht
    dsimp only at hr ⊢
    split at hr
    · rw [if_pos ‹_›]
      by_cases hfound : ((s.nodes (Futexes.bucketOf m t v)).any fun x => x.id = v.node) = true
      · -- still queued: a timeout or a signal
        rw [if_pos hfound] at hr ⊢
        obtain ⟨x, hx, hid⟩ := any_eq_true.1 hfound
        have hmem : v.node ∉ s.woken := by
          rw [← hthere, ← (h.task_eq hx hwt (of_decide_eq_true hid)).2.1]
          exact hx
        refine ⟨?_, ⟨fun hok => ?_, fun hw => absurd hw hmem⟩, fun b x hx hid => ?_⟩
        · obtain rfl := Option.some.inj hr
          cases timedOut <;> simp
        · subst hok
          cases timedOut <;> cases hr
        · by_cases hb : b = Futexes.bucketOf m t v
          · subst hb
            simp only [update_self] at hx
            rw [mem_filter, decide_eq_true_iff] at hx
            exact hx.2 hid
          · simp only [update_of_ne hb] at hx
            exact hb (h.task_eq hx hwt hid).2.2
      · rw [if_neg hfound] at hr ⊢
        obtain rfl := Option.some.inj hr
        have hgone : ∀ b, ∀ x ∈ s.nodes b, x.id ≠ v.node := by
          intro b x hx hid
          obtain ⟨-, hxv, hb⟩ := h.task_eq hx hwt hid
          subst hb
          exact hfound (any_eq_true.2 ⟨x, hx, decide_eq_true hid⟩)
        refine ⟨by simp, ⟨fun _ => ?_, fun _ => rfl⟩, hgone⟩
        by_contra hmem
        exact hgone _ _ (hthere.2 hmem) rfl
    · cases hr
  | waking a =>
    rw [hpc] at ht
    cases ht

theorem Inv.wakes (h : Inv m s) (ht : s.pc t = .waking a) {r : FutexRet} (hr : (s.advance m t).2 = some r) :
    (r = .efault ∧ validUaddr a.uaddr = false ∧ (s.advance m t).1.nodes = s.nodes) ∨
      ∃ gone, r = .count gone.length ∧ Woke m s (s.advance m t).1 t a gone := by
  unfold Futexes.advance at hr ⊢
  rw [ht] at hr ⊢
  dsimp only at hr ⊢
  by_cases hvalid : validUaddr a.uaddr = true
  · rw [hvalid, Bool.not_true, if_neg Bool.false_ne_true] at hr ⊢
    by_cases hfree : s.lock (futexHash m t a.uaddr a.priv) = none
    · rw [if_pos hfree] at hr ⊢
      refine Or.inr ⟨_, ?_, h.woke hfree⟩
      obtain rfl := Option.some.inj hr
      rw [← show (wakeScan (Futexes.selects m t a) a.count.toNat (s.nodes (futexHash m t a.uaddr a.priv))).2 =
        (selected m s t a).take a.count.toNat from wakeScan_removed ..]
      rfl
    · rw [if_neg hfree] at hr
      cases hr
  · rw [Bool.eq_false_iff.2 hvalid, Bool.not_false, if_pos rfl] at hr ⊢
    obtain rfl := Option.some.inj hr
    exact Or.inl ⟨rfl, rfl, rfl⟩

theorem act_oom (args : WaitArgs) (target : Option UInt64) (ht : s.pc t = .check args target) : s.act m (.oom t) =
      if validUaddr args.uaddr && s.load m t args.uaddr = args.val then (s.setPc t .user, some .enomem) else (s, none) := by
  rw [act]
  simp [ht]

theorem of_update_enqueue (t : Nat) (pc : FutexPc) (hpc : pc ≠ .enqueue w) (hu : update s.pc t pc u = .enqueue w) :
    s.pc u = .enqueue w := by
  by_cases hut : u = t
  · subst hut
    rw [update_self] at hu
    exact absurd hu hpc
  · rwa [update_of_ne hut] at hu

/-- A task is about to queue its node only where it was, or where it has just read the word. -/
theorem advance_enqueue (hu : (s.advance m t).1.pc u = .enqueue w) :
    s.pc u = .enqueue w ∨ s.pc u = .recheck w ∧ s.load m u w.args.uaddr = w.args.val := by
  unfold Futexes.advance at hu
  cases ht : s.pc t with
  | user =>
    rw [ht] at hu
    exact Or.inl hu
  | check args target =>
    rw [ht] at hu
    dsimp only at hu
    split at hu
    · exact Or.inl (of_update_enqueue t .user nofun hu)
    · split at hu
      · exact Or.inl (of_update_enqueue t .user nofun hu)
      · exact Or.inl (of_update_enqueue t (.lock _) nofun hu)
  | lock v =>
    rw [ht] at hu
    dsimp only at hu
    split at hu
    · exact Or.inl (of_update_enqueue t (.recheck v) nofun hu)
    · exact Or.inl hu
  | recheck v =>
    rw [ht] at hu
    dsimp only at hu
    split at hu
    · exact Or.inl (of_update_enqueue t .user nofun hu)
    · rename_i hval
      by_cases hut : u = t
      · subst hut
        obtain rfl := FutexPc.enqueue.inj (setPc_self.symm.trans hu)
        exact Or.inr ⟨ht, not_not.1 hval⟩
      · exact Or.inl ((setPc_of_ne hut).symm.trans hu)
  | enqueue v =>
    rw [ht] at hu
    exact Or.inl (of_update_enqueue t (.asleep v) nofun hu)
  | asleep v =>
    rw [ht] at hu
    dsimp only at hu
    split at hu
    · exact Or.inl hu
    · exact Or.inl (of_update_enqueue t (.awake v _) nofun hu)
  | awake v timedOut =>
    rw [ht] at hu
    dsimp only at hu
    split at hu
    · split at hu
      · exact Or.inl (of_update_enqueue t .user nofun hu)
      · exact Or.inl (of_update_enqueue t .user nofun hu)
    · exact Or.inl hu
  | waking a =>
    rw [ht] at hu
    dsimp only at hu
    split at hu
    · exact Or.inl (of_update_enqueue t .user nofun hu)
    · split at hu
      · exact Or.inl (of_update_enqueue t .user nofun hu)
      · exact Or.inl hu

theorem mem_of_mem_update {f : Fin 16 → List FutexNode} {c : Fin 16} {l : List FutexNode} (hx : x ∈ update f c l b)
    (hl : x ∈ l → x ∈ f c) : x ∈ f b := by
  by_cases hb : b = c
  · subst hb
    rw [update_self] at hx
    exact hl hx
  · rwa [update_of_ne hb] at hx

theorem advance_put (hx : x ∈ (s.advance m t).1.nodes b) :
    x ∈ s.nodes b ∨ ∃ w, s.pc x.task = .enqueue w ∧ x = nodeOf x.task w := by
  unfold Futexes.advance at hx
  cases ht : s.pc t with
  | user => exact Or.inl (by rwa [ht] at hx)
  | check args target | lock v | recheck v | asleep v =>
    rw [ht] at hx
    dsimp only at hx
    split at hx
    · exact Or.inl hx
    · first
      | exact Or.inl hx
      | split at hx <;> exact Or.inl hx
  | enqueue v =>
    rw [ht] at hx
    dsimp only at hx
    by_cases hb : b = bucketOf m t v
    · subst hb
      rw [update_self, mem_cons] at hx
      rcases hx with rfl | hx
      · exact Or.inr ⟨v, ht, rfl⟩
      · exact Or.inl hx
    · rw [update_of_ne hb] at hx
      exact Or.inl hx
  | awake v timedOut =>
    rw [ht] at hx
    dsimp only at hx
    split at hx
    · split at hx
      · exact Or.inl (mem_of_mem_update hx mem_of_mem_filter)
      · exact Or.inl hx
    · exact Or.inl hx
  | waking a =>
    rw [ht] at hx
    dsimp only at hx
    split at hx
    · exact Or.inl hx
    · split at hx
      · exact Or.inl (mem_of_mem_update hx fun hkept => mem_wakeScan.2 (Or.inl hkept))
      · exact Or.inl hx

theorem advance_woken (ht : ∀ args, s.pc t ≠ .waking args) : (s.advance m t).1.woken = s.woken := by
  unfold Futexes.advance
  cases hpc : s.pc t with
  | user => rfl
  | check args target =>
    dsimp only
    split
    · rfl
    · split <;> rfl
  | lock v =>
    dsimp only
    split <;> rfl
  | recheck v =>
    dsimp only
    split <;> rfl
  | enqueue v => rfl
  | asleep v =>
    dsimp only
    split <;> rfl
  | awake v timedOut =>
    dsimp only
    split
    · split <;> rfl
    · rfl
  | waking a => exact absurd hpc (ht a)

theorem Inv.stepOk (h : Inv m s) (a : FutexAct) : StepOk m s a where
  wake := by
    rintro t args r rfl ht hr
    exact h.wakes ht hr
  wait := by
    rintro t w r rfl ht hr
    exact h.waited ht hr
  refused := by
    rintro t args target r (rfl | rfl) ht hr
    · change (s.advance m t).2 = some r at hr
      change _ ∧ (s.advance m t).1.nodes = s.nodes
      unfold Futexes.advance at hr ⊢
      rw [ht] at hr ⊢
      dsimp only at hr ⊢
      by_cases hvalid : validUaddr args.uaddr = true
      · rw [hvalid, Bool.not_true, if_neg Bool.false_ne_true] at hr ⊢
        split at hr
        · rw [if_pos ‹_›]
          exact ⟨Or.inl (Option.some.inj hr).symm, rfl⟩
        · cases hr
      · have hvalid := Bool.eq_false_iff.2 hvalid
        rw [hvalid, Bool.not_false, if_pos rfl] at hr ⊢
        exact ⟨Or.inr (Or.inl ⟨(Option.some.inj hr).symm, rfl⟩), rfl⟩
    · rw [Futexes.step]
      rw [act_oom args target ht] at hr ⊢
      split at hr
      · rw [if_pos ‹_›]
        exact ⟨Or.inr (Or.inr ⟨(Option.some.inj hr).symm, rfl⟩), rfl⟩
      · cases hr
  put := by
    intro b x hx
    cases a with
    | wait t args | wake t args =>
      rw [Futexes.step, act] at hx
      split at hx <;> exact Or.inl hx
    | go t => exact advance_put hx
    | oom t =>
      rw [Futexes.step, act] at hx
      split at hx
      · split at hx <;> exact Or.inl hx
      · exact Or.inl hx
    | store word v | tick | unblock t | pend t pending => exact Or.inl hx
  read := by
    intro u w hu
    cases a with
    | wait t args =>
      rw [Futexes.step, act] at hu
      split at hu
      · exact Or.inl (of_update_enqueue t (.check args _) nofun hu)
      · exact Or.inl hu
    | wake t args =>
      rw [Futexes.step, act] at hu
      split at hu
      · exact Or.inl (of_update_enqueue t (.waking args) nofun hu)
      · exact Or.inl hu
    | go t => exact advance_enqueue hu
    | oom t =>
      rw [Futexes.step, act] at hu
      split at hu
      · split at hu
        · exact Or.inl (of_update_enqueue t .user nofun hu)
        · exact Or.inl hu
      · exact Or.inl hu
    | store word v | tick | unblock t | pend t pending => exact Or.inl hu
  quiet := by
    intro hquiet
    cases a with
    | wait t args | wake t args =>
      rw [Futexes.step, act]
      split <;> rfl
    | go t => exact advance_woken fun args => hquiet t args rfl
    | oom t =>
      rw [Futexes.step, act]
      split
      · split <;> rfl
      · rfl
    | store word v | tick | unblock t | pend t pending => rfl

theorem StepOk.coming {act : FutexAct} (h : StepOk m s act) (hx : Coming (s.step m act) x) : Coming s x ∨ Reads m s x := by
  rcases hx with ⟨b, hb⟩ | ⟨w, hw, hxw⟩
  · exact Or.inl ((h.put b x hb).imp (fun hx => ⟨b, hx⟩) id)
  · rcases h.read _ w hw with hpc | ⟨hpc, hval⟩
    · exact Or.inl (Or.inr ⟨w, hpc, hxw⟩)
    · exact Or.inr ⟨w, hpc, hxw, hval⟩

/-- Whoever is in a bucket at the end was on its way there at the start, or has read its value since. -/
theorem coming_run : ∀ (acts : List FutexAct) (s : Futexes), Run.Guarded (step m) (StepOk m) s acts →
    Coming (acts.foldl (step m) s) x → Coming s x ∨ ∃ s' ∈ Run.states (step m) s acts, Reads m s' x
  | [], _, _, hx => Or.inl hx
  | act :: acts, s, hok, hx => by
    rcases coming_run acts (s.step m act) hok.2 hx with hx | ⟨s', hs', hread⟩
    · exact (hok.1.coming hx).imp id fun hread => ⟨s, Run.head_mem_states s _, hread⟩
    · exact Or.inr ⟨s', mem_cons_of_mem _ hs', hread⟩

theorem Woke.nobody_coming {s' : Futexes} {gone : List FutexNode} (h : Woke m s s' t a gone)
    (hcount : (selected m s t a).length ≤ a.count.toNat) (hmatch : Matching m t a x) : ¬ Coming s' x := by
  rintro (⟨b, hb⟩ | ⟨w, hw, hxw⟩)
  · exact h.everybody hcount b x hb hmatch
  · rw [hxw] at hmatch
    exact h.late x.task w (by rw [hw]; rfl) (by rw [hw]; rfl) hmatch

/-- No wake-up is lost: behind a `futex_wake` with a sufficient count, a waiter it was for is queued only once it has
read the value it expects again. -/
def NoneLost (m : AddrSpaces) (s : Futexes) (acts : List FutexAct) : Prop :=
  ∀ before t after a k, acts = before ++ .go t :: after → (before.foldl (step m) s).pc t = .waking a →
    ((before.foldl (step m) s).act m (.go t)).2 = some (.count k) →
    (selected m (before.foldl (step m) s) t a).length ≤ a.count.toNat →
    ∀ b, ∀ x ∈ (acts.foldl (step m) s).nodes b, Matching m t a x →
      ∃ s' ∈ Run.states (step m) ((before.foldl (step m) s).step m (.go t)) after, Reads m s' x

theorem noneLost_of_guarded {acts : List FutexAct} (h : Run.Guarded (step m) (StepOk m) s acts) : NoneLost m s acts := by
  rintro before t after a k rfl hpc hret hcount b x hx hmatch
  obtain ⟨-, hgo, hafter⟩ := Run.guarded_append.1 h
  rw [foldl_append, foldl_cons] at hx
  refine (coming_run after _ hafter (Or.inl ⟨b, hx⟩)).resolve_left ?_
  rcases hgo.wake t a _ rfl hpc hret with ⟨hr, -⟩ | ⟨gone, -, hw⟩
  · cases hr
  · exact hw.nobody_coming hcount hmatch

/-- **The futex protocol**: in every run every step does what the two calls promise, a node that is in a bucket
is that of a task which is inside its `futex_wait`, and no wake-up is lost. -/
theorem futexes_keep_protocol (m : AddrSpaces) (mem : Nat → UInt32) (ticks : UInt64) (pending : Nat → Bool)
    (acts : List FutexAct) :
    Run.Guarded (step m) (StepOk m) (boot mem ticks pending) acts ∧
    (∀ s ∈ Run.states (step m) (boot mem ticks pending) acts, ∀ b, ∀ x ∈ s.nodes b,
      ∃ w, (s.pc x.task).wait = some w ∧ (s.pc x.task).queued = true ∧ x = nodeOf x.task w) ∧
    NoneLost m (boot mem ticks pending) acts := by
  have hok : Run.Guarded (step m) (StepOk m) (boot mem ticks pending) acts :=
    Run.guarded_imp (C := fun _ _ => True) (P := Inv m) (fun s a h _ => ⟨h.step a, h.stepOk a⟩) acts _
      (boot_inv mem ticks pending) (Run.guarded_of_forall (fun _ _ => trivial) acts _)
  refine ⟨hok, fun s hs b x hx => ?_, noneLost_of_guarded hok⟩
  have h : Inv m s := Run.states_forall (P := Inv m) (C := fun _ _ => True) (fun s a h _ => h.step a) acts _
    (boot_inv mem ticks pending) (Run.guarded_of_forall (fun _ _ => trivial) acts _) s hs
  obtain ⟨w, hw, hq, hxw, -⟩ := h.owner b x hx
  exact ⟨w, hw, hq, hxw⟩

def oneSpace : AddrSpaces where
  cr3 := fun _ => 0x1000
  word := fun _ uaddr => uaddr.toNat

def anyWait (uaddr : UInt64) (priv : Bool) : WaitArgs :=
  { uaddr := uaddr, val := 0, timeout := none, priv := priv, bitset := 0xffffffff }

def anyWake (uaddr : UInt64) (count : Int) (priv : Bool) : WakeArgs :=
  { uaddr := uaddr, count := count, priv := priv, bitset := 0xffffffff }

def oneWaits (m : AddrSpaces) (uaddr : UInt64) (priv : Bool) : Futexes :=
  [.wait 1 (anyWait uaddr priv), .go 1, .go 1, .go 1, .go 1].foldl (step m) (boot (fun _ => 0) 0 fun _ => false)

/-- A `futex_wake` of no task returns 0 and leaves the waiter, and a `futex_wait` on a bad address fails. -/
theorem wake_of_none :
    (((oneWaits oneSpace 0x100 false).step oneSpace (.wake 2 (anyWake 0x100 0 false))).act oneSpace (.go 2)).2 =
      some (.count 0) ∧
    (∃ b, ∃ x ∈ (((oneWaits oneSpace 0x100 false).step oneSpace (.wake 2 (anyWake 0x100 0 false))).nodes b),
      Matching oneSpace 2 (anyWake 0x100 0 false) x) ∧
    (([.wait 1 (anyWait 0x102 false)].foldl (step oneSpace) (boot (fun _ => 0) 0 fun _ => false)).act oneSpace
      (.go 1)).2 = some .efault := by
  refine ⟨by decide +kernel, ⟨0, ⟨0, 1, 0x100, 0xffffffff, false⟩, by decide +kernel, rfl, rfl, nofun, by decide⟩,
    by decide +kernel⟩

end Futexes
end EterOS.Sched
