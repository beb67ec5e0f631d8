import EterOS.Sched.Task
import EterOS.Lib.Run
import Mathlib.Data.Finset.Card
/-!
# Sem — counting semaphores

`sem_wait` and `sem_signal` (`kernel/sem.c`) on any number of semaphores.  What runs under the lock of a semaphore is one
step, but for `sem_signal`, which comes back to the task its scan has found: between the two other tasks go on, and the
found one may be woken from elsewhere.  A task marks what it waits for in `waiting_sem`, and only `sem_signal` clears the
mark.  A task that was woken from elsewhere and took the semaphore keeps it, and when it then blocks on something else a
later signal goes to it.  `semaphores_keep_wakeups` is the run where no signal does.
-/
namespace EterOS.Sched

open Finset
open Function (update update_self update_of_ne)

variable {n : Nat}

inductive SemPlace
  | idle
  | waiting (sem : Nat)
  deriving DecidableEq

/-- The fields of `task_t` the semaphores use; a task that has a CPU is `ready` here as one that waits for it. -/
structure SemTask where
  state : TaskState
  waitingSem : Option Nat
  signalPending : Bool
  place : SemPlace

structure Sems (n : Nat) where
  count : Nat → Int
  /-- Held by a `sem_signal` that has found a task to wake, or none. -/
  lock : Nat → Option (Option (Fin n))
  task : Fin n → SemTask
  /-- The calls of `sem_wait` that have returned. -/
  completed : Nat → Nat
  /-- The calls of `sem_signal`. -/
  signals : Nat → Nat

inductive SemAct (n : Nat)
  /-- A call of `sem_wait`. -/
  | wait (t : Fin n) (sem : Nat)
  /-- One turn of its loop. -/
  | attempt (t : Fin n)
  /-- A call of `sem_signal`, up to the end of the scan. -/
  | signal (sem : Nat)
  /-- The rest of it. -/
  | finish (sem : Nat)
  /-- A wake-up from elsewhere: a signal, a child, a timeout. -/
  | wake (t : Fin n)
  /-- The task blocks or sleeps on something else. -/
  | block (t : Fin n)
  | sleep (t : Fin n)
  /-- `signal_pending` is set or cleared. -/
  | pend (t : Fin n) (pending : Bool)

namespace Sems

def wrap32 (x : Int) : Int := Int.bmod x (2 ^ 32)

def setTask (s : Sems n) (t : Fin n) (x : SemTask) : Sems n := { s with task := update s.task t x }

/-- The scan of `sem_signal`: the first blocked task that is marked. -/
def scan (s : Sems n) (sem : Nat) : Option (Fin n) :=
  (List.finRange n).find? fun i => (s.task i).state = .blocked && (s.task i).waitingSem = some sem

def blocked (x : SemTask) : SemTask := { x with state := if x.signalPending then .ready else .blocked }

/-- `sem_wait` takes the semaphore and returns. -/
def take (s : Sems n) (t : Fin n) (sem : Nat) : Sems n where
  count := update s.count sem (s.count sem - 1)
  lock := s.lock
  task := update s.task t { s.task t with place := .idle }
  completed := update s.completed sem (s.completed sem + 1)
  signals := s.signals

def step (s : Sems n) : SemAct n → Sems n
  | .wait t sem =>
    if (s.task t).place = .idle ∧ (s.task t).state = .ready then s.setTask t { s.task t with place := .waiting sem } else s
  | .attempt t =>
    match (s.task t).place with
    | .idle => s
    | .waiting sem =>
      if (s.task t).state = .ready ∧ s.lock sem = none then
        if 0 < s.count sem then s.take t sem
        else s.setTask t (blocked { s.task t with waitingSem := some sem })
      else s
  | .signal sem =>
    if s.lock sem = none then
      { s with
        count := update s.count sem (wrap32 (s.count sem + 1))
        lock := update s.lock sem (some (s.scan sem))
        signals := update s.signals sem (s.signals sem + 1) }
    else s
  | .finish sem =>
    match s.lock sem with
    | none => s
    | some none => { s with lock := update s.lock sem none }
    | some (some i) =>
      { s.setTask i { s.task i with waitingSem := none, state := .ready } with lock := update s.lock sem none }
  | .wake t => s.setTask t { s.task t with state := .ready }
  | .block t =>
    if (s.task t).place = .idle ∧ (s.task t).state = .ready then s.setTask t (blocked (s.task t)) else s
  | .sleep t =>
    if (s.task t).place = .idle ∧ (s.task t).state = .ready then s.setTask t { s.task t with state := .sleeping } else s
  | .pend t pending => s.setTask t { s.task t with signalPending := pending }

def BlockedOn (s : Sems n) (sem : Nat) (t : Fin n) : Prop :=
  (s.task t).place = .waiting sem ∧ (s.task t).state = .blocked

/-- A task is inside `sem_wait` and will retry. -/
def Retries (s : Sems n) (sem : Nat) (t : Fin n) : Prop :=
  (s.task t).place = .waiting sem ∧ (s.task t).state = .ready

/-- No wake-up is lost: no more calls of `sem_wait` are completed than the initial values and the signals allow, and
where a semaphore that no signal is busy with is positive while a task is blocked on it, another one retries. -/
def KeepsWakeups (init : Nat → Int) (s : Sems n) : Prop :=
  ∀ sem, (s.completed sem : Int) ≤ init sem + s.signals sem ∧
    (s.lock sem = none → 0 < s.count sem → (∃ t, s.BlockedOn sem t) → ∃ t, s.Retries sem t)

/-- No turn of `sem_wait` makes a count negative. -/
def StaysPositive (s : Sems n) : SemAct n → Prop
  | .attempt t => ∀ sem, (s.step (.attempt t)).count sem = s.count sem ∨ 0 ≤ (s.step (.attempt t)).count sem
  | _ => True

structure Boot (init : Nat → Int) (s : Sems n) : Prop where
  count : s.count = init
  range : ∀ sem, 0 ≤ init sem ∧ init sem < 2 ^ 31
  lock : ∀ sem, s.lock sem = none
  idle : ∀ t, (s.task t).place = .idle
  completed : ∀ sem, s.completed sem = 0
  signals : ∀ sem, s.signals sem = 0

/-- The first blocked task that is marked for the semaphore of a signal is inside `sem_wait` on it. -/
def SignalMet (s : Sems n) : SemAct n → Prop
  | .signal sem => s.lock sem = none → ∀ i, (s.task i).state = .blocked → (s.task i).waitingSem = some sem →
      (∀ j < i, ¬ ((s.task j).state = .blocked ∧ (s.task j).waitingSem = some sem)) → (s.task i).place = .waiting sem
  | _ => True

/-! ## The invariant -/

instance (s : Sems n) (sem : Nat) : DecidablePred (s.BlockedOn sem) := fun _ =>
  inferInstanceAs (Decidable (_ ∧ _))

instance (s : Sems n) (sem : Nat) : DecidablePred (s.Retries sem) := fun _ =>
  inferInstanceAs (Decidable (_ ∧ _))

/-- The tasks in `sem_wait` that will retry, and the one a signal is about to wake. -/
def available (s : Sems n) (sem : Nat) : Finset (Fin n) :=
  Finset.univ.filter fun t => s.Retries sem t ∨ s.lock sem = some (some t)

structure Inv (init : Nat → Int) (s : Sems n) : Prop where
  initial : ∀ sem, 0 ≤ init sem
  balance : ∀ sem, s.count sem = wrap32 (init sem + s.signals sem - s.completed sem)
  bound : ∀ sem, (s.completed sem : Int) ≤ init sem + s.signals sem
  /-- A task in `sem_wait` is ready or blocked. -/
  inside : ∀ sem t, (s.task t).place = .waiting sem → (s.task t).state = .ready ∨ (s.task t).state = .blocked
  marked : ∀ sem t, s.BlockedOn sem t → (s.task t).waitingSem = some sem
  found : ∀ sem t, s.lock sem = some (some t) → (s.task t).place = .waiting sem
  nobody : ∀ sem t, s.lock sem = some none → ¬ s.BlockedOn sem t
  flow : ∀ sem t, s.BlockedOn sem t → s.count sem ≤ (s.available sem).card

variable {init : Nat → Int} {s : Sems n} {sem : Nat} {t i : Fin n} {x : SemTask}

theorem wrap32_le (x : Int) (h : 0 ≤ x) : wrap32 x ≤ x := by
  unfold wrap32
  have := Int.bmod_def x (2 ^ 32)
  omega

theorem wrap32_of_lt {x : Int} (h : 0 ≤ x) (hlt : x < 2 ^ 31) : wrap32 x = x := by
  unfold wrap32
  have := Int.bmod_def x (2 ^ 32)
  omega

theorem Boot.inv (h : Boot init s) : Inv init s where
  initial := fun sem => (h.range sem).1
  balance := fun sem => by
    have := h.range sem
    rw [h.count, h.signals, h.completed, wrap32_of_lt (by simp; omega) (by simp; omega)]
    simp
  bound := fun sem => by
    have := h.range sem
    rw [h.signals, h.completed]
    simp
    omega
  inside := fun sem t ht => by
    rw [h.idle t] at ht
    cases ht
  marked := fun sem t ht => by
    have := ht.1
    rw [h.idle t] at this
    cases this
  found := fun sem t ht => by
    rw [h.lock sem] at ht
    cases ht
  nobody := fun sem t ht => by
    rw [h.lock sem] at ht
    cases ht
  flow := fun sem t ht => by
    have := ht.1
    rw [h.idle t] at this
    cases this

theorem Inv.keeps (h : Inv init s) : KeepsWakeups init s := by
  refine fun sem => ⟨h.bound sem, fun hlock hpos ⟨t, ht⟩ => ?_⟩
  have hcard := h.flow sem t ht
  obtain ⟨u, hu⟩ := card_pos.1 (by omega : 0 < (s.available sem).card)
  rw [available, mem_filter, hlock] at hu
  exact ⟨u, hu.2.resolve_right (by simp)⟩

/-! ## One step -/

@[simp] theorem setTask_self : (s.setTask t x).task t = x := update_self ..

theorem setTask_of_ne {u : Fin n} (h : u ≠ t) : (s.setTask t x).task u = s.task u := update_of_ne h ..

theorem Inv.setTask (h : Inv init s)
    (hin : ∀ sem, x.place = .waiting sem → x.state = .ready ∨ x.state = .blocked ∧ x.waitingSem = some sem)
    (hfound : ∀ sem, s.lock sem = some (some t) → x.place = .waiting sem)
    (hflow : ∀ sem, s.count sem ≤ 0 ∧ s.lock sem = none ∨ (x.place = .waiting sem → x.state = .blocked → s.BlockedOn sem t) ∧
        (s.Retries sem t → x.place = .waiting sem ∧ x.state = .ready)) : Inv init (s.setTask t x) where
  initial := h.initial
  balance := h.balance
  bound := h.bound
  inside := fun sem u hu => by
    by_cases hut : u = t
    · subst hut
      rw [setTask_self] at hu ⊢
      exact (hin sem hu).imp_right And.left
    · rw [setTask_of_ne hut] at hu ⊢
      exact h.inside sem u hu
  marked := fun sem u hu => by
    rw [BlockedOn] at hu
    by_cases hut : u = t
    · subst hut
      rw [setTask_self] at hu ⊢
      rcases hin sem hu.1 with hr | hb
      · rw [hr] at hu
        cases hu.2
      · exact hb.2
    · rw [setTask_of_ne hut] at hu ⊢
      exact h.marked sem u hu
  found := fun sem u hu => by
    by_cases hut : u = t
    · subst hut
      rw [setTask_self]
      exact hfound sem hu
    · rw [setTask_of_ne hut]
      exact h.found sem u hu
  nobody := fun sem u hu hb => by
    rw [BlockedOn] at hb
    by_cases hut : u = t
    · subst hut
      rw [setTask_self] at hb
      rcases hflow sem with ⟨-, hl⟩ | ⟨hf, -⟩
      · have hu : s.lock sem = some none := hu
        rw [hl] at hu
        cases hu
      · exact h.nobody sem u hu (hf hb.1 hb.2)
    · rw [setTask_of_ne hut] at hb
      exact h.nobody sem u hu hb
  flow := fun sem u hu => by
    show s.count sem ≤ _
    rcases hflow sem with ⟨hc, -⟩ | ⟨hf, hr⟩
    · exact hc.trans (Int.natCast_nonneg _)
    have hold : ∃ v, s.BlockedOn sem v := by
      rw [BlockedOn] at hu
      by_cases hut : u = t
      · subst hut
        rw [setTask_self] at hu
        exact ⟨u, hf hu.1 hu.2⟩
      · rw [setTask_of_ne hut] at hu
        exact ⟨u, hu⟩
    obtain ⟨v, hv⟩ := hold
    refine (h.flow sem v hv).trans (Int.ofNat_le.2 (card_le_card fun w hw => ?_))
    rw [available, mem_filter] at hw ⊢
    refine ⟨mem_univ w, hw.2.imp_left fun hret => ?_⟩
    rw [Retries]
    by_cases hwt : w = t
    · subst hwt
      rw [setTask_self]
      exact hr hret
    · rw [setTask_of_ne hwt]
      exact hret

theorem take_waiting {sem' : Nat} {u : Fin n} (hu : ((s.take t sem).task u).place = .waiting sem') :
    u ≠ t ∧ (s.take t sem).task u = s.task u := by
  have hut : u ≠ t := by
    rintro rfl
    have hself : ((s.take u sem).task u).place = .idle := by
      simp [take]
    exact absurd (hself.symm.trans hu) (by simp)
  exact ⟨hut, update_of_ne hut ..⟩

theorem take_blockedOn {sem' : Nat} {u : Fin n} (hu : (s.take t sem).BlockedOn sem' u) : s.BlockedOn sem' u := by
  have heq := (take_waiting hu.1).2
  rw [BlockedOn, heq] at hu
  exact hu

theorem take_available (sem' : Nat) : (s.available sem').erase t ⊆ (s.take t sem).available sem' := by
  intro v hv
  rw [mem_erase, available, mem_filter] at hv
  rw [available, mem_filter]
  refine ⟨mem_univ v, hv.2.2.imp_left fun hret => ?_⟩
  have heq : (s.take t sem).task v = s.task v := update_of_ne hv.1 ..
  rw [Retries, heq]
  exact hret

theorem Inv.range (h : Inv init s) (sem : Nat) : -(2 ^ 31) ≤ s.count sem ∧ s.count sem < 2 ^ 31 := by
  rw [h.balance sem]
  exact ⟨Int.le_bmod (by decide), Int.bmod_lt (by decide)⟩

theorem Inv.take (h : Inv init s) (hp : (s.task t).place = .waiting sem) (hl : s.lock sem = none)
    (hc : 0 < s.count sem) : Inv init (s.take t sem) := by
  have hcount : s.count sem ≤ init sem + s.signals sem - s.completed sem := by
    rw [h.balance sem]
    refine wrap32_le _ ?_
    have := h.bound sem
    omega
  refine ⟨h.initial, fun sem' => ?_, fun sem' => ?_, fun sem' u hu => ?_, fun sem' u hu => ?_, fun sem' u hu => ?_,
    fun sem' u hu hb => h.nobody sem' u hu (take_blockedOn hb), fun sem' u hu => ?_⟩
  · by_cases he : sem' = sem
    · subst he
      have hcast : init sem' + s.signals sem' - ((s.completed sem' + 1 : Nat) : Int) =
          init sem' + s.signals sem' - s.completed sem' - 1 := by
        push_cast
        omega
      have hbal := h.balance sem'
      have hrange := h.range sem'
      simp only [Sems.take, update_self]
      rw [hcast]
      unfold wrap32 at hbal ⊢
      have h1 := Int.bmod_def (init sem' + s.signals sem' - s.completed sem') (2 ^ 32)
      have h2 := Int.bmod_def (init sem' + s.signals sem' - s.completed sem' - 1) (2 ^ 32)
      omega
    · simp only [Sems.take, update_of_ne he]
      exact h.balance sem'
  · by_cases he : sem' = sem
    · subst he
      simp only [Sems.take, update_self]
      push_cast
      omega
    · simp only [Sems.take, update_of_ne he]
      exact h.bound sem'
  · have heq := (take_waiting hu).2
    rw [heq] at hu ⊢
    exact h.inside sem' u hu
  · have heq := (take_waiting hu.1).2
    rw [heq]
    exact h.marked sem' u (take_blockedOn hu)
  · have hplace := h.found sem' u hu
    have hut : u ≠ t := by
      rintro rfl
      obtain rfl := SemPlace.waiting.inj (hp.symm.trans hplace)
      exact absurd (hl.symm.trans hu) (by simp)
    have heq : (s.take t sem).task u = s.task u := update_of_ne hut ..
    rw [heq]
    exact hplace
  · have hflow := h.flow sem' u (take_blockedOn hu)
    have hsub : (s.available sem').erase t ⊆ (s.take t sem).available sem' := take_available sem'
    by_cases he : sem' = sem
    · subst he
      have hle := card_le_card hsub
      have hpred := pred_card_le_card_erase (s := s.available sem') (a := t)
      have hcnt : (s.take t sem').count sem' = s.count sem' - 1 := update_self ..
      omega
    · have hnot : t ∉ s.available sem' := by
        rw [available, mem_filter]
        rintro ⟨-, ⟨hpl, -⟩ | hlk⟩
        · exact he (SemPlace.waiting.inj (hpl.symm.trans hp))
        · exact he (SemPlace.waiting.inj ((h.found sem' t hlk).symm.trans hp))
      rw [erase_eq_of_notMem hnot] at hsub
      have hcnt : (s.take t sem).count sem' = s.count sem' := update_of_ne he ..
      rw [hcnt]
      exact hflow.trans (Int.ofNat_le.2 (card_le_card hsub))

theorem scan_some (h : s.scan sem = some i) : (s.task i).state = .blocked ∧ (s.task i).waitingSem = some sem ∧
    ∀ j < i, ¬ ((s.task j).state = .blocked ∧ (s.task j).waitingSem = some sem) := by
  obtain ⟨hi, as, bs, hsplit, hbefore⟩ := List.find?_eq_some_iff_append.1 h
  rw [Bool.and_eq_true, decide_eq_true_iff, decide_eq_true_iff] at hi
  refine ⟨hi.1, hi.2, fun j hj hmark => ?_⟩
  have hsorted : (List.finRange n).Pairwise (· < ·) := List.pairwise_lt_finRange n
  have hmem : j ∈ as := by
    have hall := List.mem_finRange j
    rw [hsplit] at hall hsorted
    rcases List.mem_append.1 hall with hmem | hmem
    · exact hmem
    · rcases List.mem_cons.1 hmem with rfl | hmem
      · exact absurd hj (lt_irrefl _)
      · have hlt := (List.pairwise_cons.1 (List.pairwise_append.1 hsorted).2.1).1 j hmem
        exact absurd hj (not_lt_of_gt hlt)
  have hnot := hbefore j hmem
  simp [hmark.1, hmark.2] at hnot

theorem scan_none (h : s.scan sem = none) (t : Fin n) :
    ¬ ((s.task t).state = .blocked ∧ (s.task t).waitingSem = some sem) := by
  intro hmark
  have hnot := List.find?_eq_none.1 h t (List.mem_finRange t)
  simp [hmark.1, hmark.2] at hnot

theorem Inv.signal (h : Inv init s) (hl : s.lock sem = none)
    (hm : ∀ i, s.scan sem = some i → (s.task i).place = .waiting sem) :
    Inv init { s with
      count := update s.count sem (wrap32 (s.count sem + 1))
      lock := update s.lock sem (some (s.scan sem))
      signals := update s.signals sem (s.signals sem + 1) } := by
  refine ⟨h.initial, fun sem' => ?_, fun sem' => ?_, h.inside, h.marked, fun sem' u hu => ?_, fun sem' u hu hb => ?_,
    fun sem' u hu => ?_⟩
  · by_cases he : sem' = sem
    · subst he
      simp only [update_self]
      rw [h.balance sem']
      unfold wrap32
      rw [Int.bmod_add_bmod]
      congr 1
      push_cast
      omega
    · simp only [update_of_ne he]
      exact h.balance sem'
  · by_cases he : sem' = sem
    · subst he
      simp only [update_self]
      have := h.bound sem'
      push_cast
      omega
    · simp only [update_of_ne he]
      exact h.bound sem'
  · by_cases he : sem' = sem
    · subst he
      simp only [update_self] at hu
      exact hm u (Option.some.inj hu)
    · simp only [update_of_ne he] at hu
      exact h.found sem' u hu
  · by_cases he : sem' = sem
    · subst he
      simp only [update_self] at hu
      exact scan_none (Option.some.inj hu) u ⟨hb.2, h.marked sem' u hb⟩
    · simp only [update_of_ne he] at hu
      exact h.nobody sem' u hu hb
  · have hu : s.BlockedOn sem' u := hu
    have hflow := h.flow sem' u hu
    by_cases he : sem' = sem
    · subst he
      simp only [update_self]
      obtain ⟨i, hi⟩ : ∃ i, s.scan sem' = some i := by
        cases hscan : s.scan sem' with
        | none => exact absurd ⟨hu.2, h.marked sem' u hu⟩ (scan_none hscan u)
        | some i => exact ⟨i, rfl⟩
      -- the task that is found was not counted before
      have hnot : i ∉ s.available sem' := by
        rw [available, mem_filter, hl]
        rintro ⟨-, hret | hlk⟩
        · have := (scan_some hi).1
          rw [hret.2] at this
          cases this
        · cases hlk
      have hsub : insert i (s.available sem') ⊆ available { s with
          count := update s.count sem' (wrap32 (s.count sem' + 1))
          lock := update s.lock sem' (some (s.scan sem'))
          signals := update s.signals sem' (s.signals sem' + 1) } sem' := by
        intro v hv
        rw [available, mem_filter]
        simp only [update_self]
        refine ⟨mem_univ v, ?_⟩
        rcases mem_insert.1 hv with rfl | hv
        · exact Or.inr (by rw [hi])
        · rw [available, mem_filter, hl] at hv
          exact Or.inl (hv.2.resolve_right (by simp))
      have hcard := card_le_card hsub
      rw [card_insert_of_notMem hnot] at hcard
      have hwrap : wrap32 (s.count sem' + 1) ≤ s.count sem' + 1 := by
        have hrange := h.range sem'
        unfold wrap32
        have := Int.bmod_def (s.count sem' + 1) (2 ^ 32)
        omega
      omega
    · simp only [update_of_ne he]
      refine hflow.trans (Int.ofNat_le.2 (card_le_card fun v hv => ?_))
      rw [available, mem_filter] at hv ⊢
      simp only [update_of_ne he]
      exact hv

theorem Inv.release (h : Inv init s) (hr : ∀ i, s.lock sem = some (some i) → (s.task i).state = .ready) :
    Inv init { s with lock := update s.lock sem none } := by
  have hlock : ∀ sem' o, update s.lock sem none sem' = some o → s.lock sem' = some o := by
    intro sem' o ho
    by_cases he : sem' = sem
    · subst he
      rw [update_self] at ho
      cases ho
    · rwa [update_of_ne he] at ho
  refine ⟨h.initial, h.balance, h.bound, h.inside, h.marked, fun sem' u hu => h.found sem' u (hlock _ _ hu),
    fun sem' u hu => h.nobody sem' u (hlock _ _ hu), fun sem' u hu => ?_⟩
  refine (h.flow sem' u hu).trans (Int.ofNat_le.2 (card_le_card fun v hv => ?_))
  rw [available, mem_filter] at hv ⊢
  refine ⟨mem_univ v, ?_⟩
  by_cases he : sem' = sem
  · subst he
    rcases hv.2 with hret | hlk
    · exact Or.inl hret
    · exact Or.inl ⟨h.found sem' v hlk, hr v hlk⟩
  · simp only [update_of_ne he]
    exact hv.2

theorem Inv.step (h : Inv init s) (a : SemAct n) (hm : SignalMet s a) : Inv init (s.step a) ∧ StaysPositive s a := by
  cases a with
  | wait t sem =>
    refine ⟨?_, trivial⟩
    rw [Sems.step]
    split
    · rename_i hc
      refine h.setTask (fun sem' hp => Or.inl hc.2) (fun sem' hl => ?_) fun sem' => Or.inr ⟨fun _ hb => ?_, fun hr => ?_⟩
      · have := h.found sem' t hl
        rw [hc.1] at this
        cases this
      · rw [show (s.task t).state = .ready from hc.2] at hb
        cases hb
      · rw [Retries, hc.1] at hr
        cases hr.1
    · exact h
  | attempt t =>
    have hsame : ∀ s' : Sems n, s'.count = s.count → ∀ sem, s'.count sem = s.count sem ∨ 0 ≤ s'.count sem :=
      fun s' heq sem => Or.inl (by rw [heq])
    simp only [StaysPositive]
    rw [Sems.step]
    split
    · exact ⟨h, hsame _ rfl⟩
    rename_i sem hp
    split
    · rename_i hc
      split
      · rename_i hpos
        refine ⟨h.take hp hc.2 hpos, fun sem' => ?_⟩
        by_cases he : sem' = sem
        · subst he
          right
          have hcnt : (s.take t sem').count sem' = s.count sem' - 1 := update_self ..
          omega
        · exact Or.inl (update_of_ne he ..)
      · rename_i hpos
        refine ⟨h.setTask (fun sem' hp' => ?_) (fun sem' hl => ?_) fun sem' => ?_, hsame _ rfl⟩
        · have hp' : (s.task t).place = .waiting sem' := hp'
          rw [hp] at hp'
          obtain rfl := SemPlace.waiting.inj hp'
          cases hpend : (s.task t).signalPending <;> simp [blocked, hpend]
        · exact h.found sem' t hl
        · by_cases he : sem' = sem
          · subst he
            exact Or.inl ⟨Int.not_lt.1 hpos, hc.2⟩
          · right
            have hne : (s.task t).place ≠ .waiting sem' := fun heq => he (SemPlace.waiting.inj (heq.symm.trans hp))
            exact ⟨fun hp' _ => absurd hp' hne, fun hr => absurd hr.1 hne⟩
    · exact ⟨h, hsame _ rfl⟩
  | signal sem =>
    refine ⟨?_, trivial⟩
    rw [Sems.step]
    split
    · rename_i hl
      refine h.signal hl fun i hi => ?_
      obtain ⟨hb, hw, hfirst⟩ := scan_some hi
      exact hm hl i hb hw hfirst
    · exact h
  | finish sem =>
    refine ⟨?_, trivial⟩
    rw [Sems.step]
    split
    · exact h
    · rename_i hl
      refine h.release fun i hi => ?_
      rw [hl] at hi
      cases hi
    · rename_i i hl
      have hset : Inv init (s.setTask i { s.task i with waitingSem := none, state := .ready }) := by
        refine h.setTask (fun _ _ => Or.inl rfl) (fun sem' hl' => h.found sem' i hl') fun sem' =>
          Or.inr ⟨?_, fun hr => ⟨hr.1, rfl⟩⟩
        intro _ hb
        cases hb
      refine hset.release fun j hj => ?_
      have hj : s.lock sem = some (some j) := hj
      rw [hl] at hj
      obtain rfl := Option.some.inj (Option.some.inj hj)
      rw [setTask_self]
  | wake t =>
    refine ⟨h.setTask (fun _ _ => Or.inl rfl) (fun sem hl => h.found sem t hl)
      fun sem => Or.inr ⟨fun _ hb => ?_, fun hr => ⟨hr.1, rfl⟩⟩, trivial⟩
    cases hb
  | block t =>
    refine ⟨?_, trivial⟩
    rw [Sems.step]
    split
    · rename_i hc
      have hplace : ∀ sem, (blocked (s.task t)).place ≠ .waiting sem := fun sem heq => by
        have heq : (s.task t).place = .waiting sem := heq
        rw [hc.1] at heq
        cases heq
      refine h.setTask (fun sem hp => absurd hp (hplace sem)) (fun sem hl => h.found sem t hl)
        fun sem => Or.inr ⟨fun hp _ => absurd hp (hplace sem), fun hr => absurd hr.1 (hplace sem)⟩
    · exact h
  | sleep t =>
    refine ⟨?_, trivial⟩
    rw [Sems.step]
    split
    · rename_i hc
      have hplace : ∀ sem, (s.task t).place ≠ .waiting sem := fun sem heq => by
        rw [hc.1] at heq
        cases heq
      refine h.setTask (fun sem hp => absurd hp (hplace sem)) (fun sem hl => h.found sem t hl)
        fun sem => Or.inr ⟨fun hp _ => absurd hp (hplace sem), fun hr => absurd hr.1 (hplace sem)⟩
    · exact h
  | pend t pending =>
    refine ⟨h.setTask (fun sem hp => ?_) (fun sem hl => h.found sem t hl)
      fun sem => Or.inr ⟨fun hp hb => ⟨hp, hb⟩, fun hr => hr⟩, trivial⟩
    rcases h.inside sem t hp with hr | hb
    · exact Or.inl hr
    · exact Or.inr ⟨hb, h.marked sem t ⟨hp, hb⟩⟩

/-- **No wake-up is lost** in every run whose signals find the tasks that wait. -/
theorem semaphores_keep_wakeups (init : Nat → Int) (s : Sems n) (h : Boot init s) (as : List (SemAct n))
    (hm : Run.Guarded step SignalMet s as) :
    (∀ s' ∈ Run.states step s as, KeepsWakeups init s') ∧ Run.Guarded step StaysPositive s as := by
  refine ⟨fun s' hs' => Inv.keeps ?_, ?_⟩
  · exact Run.states_forall (P := Inv init) (fun _ a hi ha => (hi.step a ha).1) as s h.inv hm s' hs'
  · exact Run.guarded_imp (P := Inv init) (fun _ a hi ha => hi.step a ha) as s h.inv hm

def fresh (n : Nat) : Sems n where
  count := fun _ => 0
  lock := fun _ => none
  task := fun _ => { state := .ready, waitingSem := none, signalPending := false, place := .idle }
  completed := fun _ => 0
  signals := fun _ => 0

theorem fresh_boot (n : Nat) : Boot (fun _ => 0) (fresh n) :=
  ⟨rfl, fun _ => by decide, fun _ => rfl, fun _ => rfl, fun _ => rfl, fun _ => rfl⟩

def signalledRun : List (SemAct 2) := [.wait 1 0, .attempt 1, .signal 0, .finish 0, .attempt 1]

theorem fresh_keeps : Boot (fun _ => 0) (fresh 2) ∧ Run.Guarded step SignalMet (fresh 2) signalledRun ∧
    (∀ s' ∈ Run.states step (fresh 2) signalledRun, KeepsWakeups (fun _ => 0) s') ∧
      Run.Guarded step StaysPositive (fresh 2) signalledRun := by
  have hm : Run.Guarded step SignalMet (fresh 2) signalledRun := by
    refine ⟨trivial, trivial, fun _ i => ?_, trivial, trivial, trivial⟩
    revert i
    decide
  exact ⟨fresh_boot 2, hm, semaphores_keep_wakeups _ _ (fresh_boot 2) _ hm⟩

/-- Task 0 blocks in `sem_wait`, is woken from elsewhere, takes the semaphore and blocks on something else; task 1 blocks
in `sem_wait`, and the next signal goes to task 0. -/
theorem signal_goes_astray : Boot (fun _ => 0) (fresh 2) ∧
    ¬ ∀ s' ∈ Run.states step (fresh 2) [.wait 0 0, .attempt 0, .wake 0, .signal 0, .finish 0, .attempt 0, .block 0,
      .wait 1 0, .attempt 1, .signal 0, .finish 0], KeepsWakeups (fun _ => 0) s' := by
  refine ⟨fresh_boot 2, fun h => ?_⟩
  obtain ⟨t, ht⟩ := ((h _ (Run.foldl_mem_states _ _)) 0).2 (by decide) (by decide) ⟨1, by decide, by decide⟩
  revert t
  decide

end Sems
end EterOS.Sched
