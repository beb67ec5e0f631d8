import EterOS.Lib.Dll
import Mathlib.Data.Fintype.Card
import Mathlib.Data.List.TakeWhile
/-!
# Queue — the ready queues and the sleep list

`enqueue_ready`, `dequeue_ready`, `enqueue_sleep` and `dequeue_sleep` of `kernel/task.c`.  A `task_t*` is a slot of the
task table.  The link fields of `task_t` and the `local_ready_*` fields of `cpu_info_t` are kept column by column,
since these four functions touch nothing else.

`ReadyQueues.Rep r q` and `SleepQueue.Rep z l` read the pointers as lists; the spec of each function says what it does
to the lists.
-/
namespace EterOS.Sched

open List
open Function (update update_self update_of_ne)

abbrev MAX_TASKS : Nat := 64

instance : @NeZero Nat Zero.ofOfNat0 MAX_TASKS := ⟨by decide⟩

abbrev Slot := Fin MAX_TASKS

/-! ## Ready queues -/

structure ReadyQueues where
  nextReady : Slot → Option Slot
  prevReady : Slot → Option Slot
  targetCpu : Slot → Nat
  localReadyHead : Nat → Option Slot
  localReadyTail : Nat → Option Slot
  localTaskCount : Nat → Int

/-- The scan of `enqueue_ready` for the online CPU with the fewest ready tasks, CPU 0 when there is none. -/
def bestCpu (totalCpus : Nat) (online : Nat → Bool) (localTaskCount : Nat → Int) : Nat :=
  ((List.range totalCpus).foldl (fun best i =>
    if online i && decide (localTaskCount i < best.2) then (i, localTaskCount i) else best) (0, (999999 : Int))).1

/-- The CPU `enqueue_ready` puts a task on. -/
def readyCpu (totalCpus : Nat) (online : Nat → Bool) (r : ReadyQueues) (t : Slot) : Nat :=
  if r.targetCpu t < totalCpus && online (r.targetCpu t) then r.targetCpu t
  else bestCpu totalCpus online r.localTaskCount

def enqueueReady (totalCpus : Nat) (online : Nat → Bool) (t : Slot) (r : ReadyQueues) : ReadyQueues :=
  -- avoid double enqueuing
  if (r.nextReady t).isSome || (r.prevReady t).isSome then r
  else if r.targetCpu t < totalCpus && r.localReadyHead (r.targetCpu t) == some t then r
  else
    let cpu := readyCpu totalCpus online r t
    let tail := r.localReadyTail cpu
    let nextReady := update r.nextReady t none
    { nextReady := match tail with
        | some last => update nextReady last (some t)
        | none => nextReady
      prevReady := update r.prevReady t tail
      targetCpu := update r.targetCpu t cpu
      localReadyHead := match tail with
        | some _ => r.localReadyHead
        | none => update r.localReadyHead cpu (some t)
      localReadyTail := update r.localReadyTail cpu (some t)
      localTaskCount := update r.localTaskCount cpu (r.localTaskCount cpu + 1) }

/-- The second half of `dequeue_ready`: the task is known to be queued, and what precedes it already skips it. -/
def unlinkReady (t : Slot) (r : ReadyQueues) : ReadyQueues :=
  let cpu := r.targetCpu t
  { nextReady := update r.nextReady t none
    prevReady := match r.nextReady t with
      | some n => update (update r.prevReady n (r.prevReady t)) t none
      | none => update r.prevReady t none
    targetCpu := r.targetCpu
    localReadyHead := r.localReadyHead
    localReadyTail := match r.nextReady t with
      | some _ => r.localReadyTail
      | none => if r.localReadyTail cpu = some t then update r.localReadyTail cpu (r.prevReady t)
        else r.localReadyTail
    localTaskCount := update r.localTaskCount cpu (r.localTaskCount cpu - 1) }

def dequeueReady (t : Slot) (r : ReadyQueues) : ReadyQueues :=
  match r.prevReady t with
  | some p => unlinkReady t { r with nextReady := update r.nextReady p (r.nextReady t) }
  | none =>
    if r.localReadyHead (r.targetCpu t) = some t then
      unlinkReady t { r with localReadyHead := update r.localReadyHead (r.targetCpu t) (r.nextReady t) }
    else r -- not in the ready queue

/-! ## Sleep list -/

structure SleepQueue where
  nextSleep : Slot → Option Slot
  prevSleep : Slot → Option Slot
  sleepHead : Option Slot

/-- The `while` loop of `enqueue_sleep`: from `curr`, the last task before the first that wakes no earlier than `tick`.
A list without repetition ends within `MAX_TASKS` steps. -/
def sleepPos (wakeTick : Slot → Nat) (nextSleep : Slot → Option Slot) (tick : Nat) : Nat → Slot → Slot
  | 0, curr => curr
  | fuel + 1, curr =>
    match nextSleep curr with
    | some n => if wakeTick n < tick then sleepPos wakeTick nextSleep tick fuel n else curr
    | none => curr

def enqueueSleep (wakeTick : Slot → Nat) (t : Slot) (z : SleepQueue) : SleepQueue :=
  let next := update z.nextSleep t none
  let prev := update z.prevSleep t none
  match z.sleepHead with
  | none => { nextSleep := next, prevSleep := prev, sleepHead := some t }
  | some h =>
    if wakeTick h ≥ wakeTick t then
      { nextSleep := update next t (some h), prevSleep := update prev h (some t), sleepHead := some t }
    else
      let curr := sleepPos wakeTick next (wakeTick t) MAX_TASKS h
      { nextSleep := update (update next t (next curr)) curr (some t)
        prevSleep := match next curr with
          | some n => update (update prev n (some t)) t (some curr)
          | none => update prev t (some curr)
        sleepHead := z.sleepHead }

def dequeueSleep (t : Slot) (z : SleepQueue) : SleepQueue :=
  -- not in the list: nothing to do
  if z.prevSleep t = none ∧ z.nextSleep t = none ∧ z.sleepHead ≠ some t then z
  else
    { nextSleep := match z.prevSleep t with
        | some p => update (update z.nextSleep p (z.nextSleep t)) t none
        | none => update z.nextSleep t none
      prevSleep := match z.nextSleep t with
        | some n => update (update z.prevSleep n (z.prevSleep t)) t none
        | none => update z.prevSleep t none
      sleepHead := match z.prevSleep t with
        | some _ => z.sleepHead
        | none => if z.sleepHead = some t then z.nextSleep t else z.sleepHead }

/-! ## The queues read as lists -/

structure ReadyQueues.Rep (r : ReadyQueues) (q : Nat → List Slot) : Prop where
  linked : ∀ c, Dll.Linked r.nextReady r.prevReady (q c)
  head : ∀ c, r.localReadyHead c = (q c).head?
  tail : ∀ c, r.localReadyTail c = (q c).getLast?
  count : ∀ c, r.localTaskCount c = (q c).length
  target : ∀ c, ∀ t ∈ q c, r.targetCpu t = c
  unlinked : ∀ t, (∀ c, t ∉ q c) → r.nextReady t = none ∧ r.prevReady t = none

structure SleepQueue.Rep (z : SleepQueue) (l : List Slot) : Prop where
  linked : Dll.Linked z.nextSleep z.prevSleep l
  head : z.sleepHead = l.head?
  unlinked : ∀ t, t ∉ l → z.nextSleep t = none ∧ z.prevSleep t = none

section ReadySpec

variable {totalCpus : Nat} {online : Nat → Bool} {r : ReadyQueues} {q : Nat → List Slot} {t : Slot}

theorem ReadyQueues.Rep.not_mem_of_ne (h : r.Rep q) {c c' : Nat} {u : Slot} (hu : u ∈ q c) (hc : c' ≠ c) : u ∉ q c' :=
  fun hu' => hc ((h.target c' u hu').symm.trans (h.target c u hu))

theorem enqueueReady_eq (h : r.Rep q) (ht : ∀ c, t ∉ q c) {cpu : Nat} (hcpu : readyCpu totalCpus online r t = cpu) :
    enqueueReady totalCpus online t r =
      { nextReady := Dll.attach r.nextReady (q cpu).getLast? t none
        prevReady := Dll.attach r.prevReady none t (q cpu).getLast?
        targetCpu := update r.targetCpu t cpu
        localReadyHead := update r.localReadyHead cpu (q cpu ++ [t]).head?
        localReadyTail := update r.localReadyTail cpu (some t)
        localTaskCount := update r.localTaskCount cpu (r.localTaskCount cpu + 1) } := by
  obtain ⟨hn, hp⟩ := h.unlinked t ht
  have hhead : r.localReadyHead (r.targetCpu t) ≠ some t := by
    rw [h.head]
    exact fun hh => ht _ (mem_of_mem_head? hh)
  have htail := h.tail cpu
  have hh := h.head cpu
  unfold enqueueReady Dll.attach
  simp only [hn, hp, hcpu, Option.isSome_none, Bool.or_self, Bool.false_eq_true, ↓reduceIte, beq_iff_eq, hhead,
    Bool.and_eq_true, and_false]
  cases hq : q cpu with
  | nil =>
    rw [hq] at htail
    simp [htail]
  | cons a l =>
    obtain ⟨last, hlast⟩ := Option.isSome_iff_exists.1 (show (a :: l).getLast?.isSome by simp)
    rw [hq, hlast] at htail
    rw [hq, List.head?_cons] at hh
    simp [htail, hlast, ← hh]

theorem enqueueReady_rep (h : r.Rep q) (ht : ∀ c, t ∉ q c) : (enqueueReady totalCpus online t r).Rep
      (update q (readyCpu totalCpus online r t) (q (readyCpu totalCpus online r t) ++ [t])) := by
  rw [enqueueReady_eq h ht rfl]
  generalize readyCpu totalCpus online r t = cpu
  have hfresh : ∀ c, ∀ u ∈ q c, u ≠ t := fun c u hu hut => ht c (hut ▸ hu)
  have hother : ∀ c ≠ cpu, ∀ u ∈ q c, u ∉ q cpu ++ t :: [] := fun c hc u hu => by
    simpa using ⟨h.not_mem_of_ne hu (Ne.symm hc), hfresh c u hu⟩
  refine ⟨fun c => ?_, fun c => ?_, fun c => ?_, fun c => ?_, fun c u hu => ?_, fun u hu => ?_⟩
  · by_cases hc : c = cpu
    · subst hc
      rw [update_self]
      have hl : Dll.Linked r.nextReady r.prevReady (q c ++ []) := by simpa using h.linked c
      exact hl.attach (by simpa using ht c)
    · rw [update_of_ne hc]
      exact (h.linked c).congr fun u hu => Dll.attach_of_not_mem _ _ (hother c hc u hu)
  · by_cases hc : c = cpu
    · subst hc; simp
    · simp [update_of_ne hc, h.head]
  · by_cases hc : c = cpu
    · subst hc; simp
    · simp [update_of_ne hc, h.tail]
  · by_cases hc : c = cpu
    · subst hc; simp [h.count]
    · simp [update_of_ne hc, h.count]
  · by_cases hc : c = cpu
    · subst hc
      rw [update_self, mem_append, mem_singleton] at hu
      rcases hu with hu | rfl
      · simp [update_of_ne (hfresh c u hu), h.target c u hu]
      · simp
    · rw [update_of_ne hc] at hu
      simp [update_of_ne (hfresh c u hu), h.target c u hu]
  · have hcpu := hu cpu
    rw [update_self] at hcpu
    have huq : ∀ c, u ∉ q c := fun c hc => by
      by_cases hcc : c = cpu
      · exact hcpu (mem_append_left _ (hcc ▸ hc))
      · exact hu c (by rwa [update_of_ne hcc])
    obtain ⟨hn', hp'⟩ := Dll.attach_of_not_mem r.nextReady r.prevReady hcpu
    exact ⟨hn'.trans (h.unlinked u huq).1, hp'.trans (h.unlinked u huq).2⟩

theorem dequeueReady_of_not_mem (h : r.Rep q) (ht : ∀ c, t ∉ q c) : dequeueReady t r = r := by
  have hhead : r.localReadyHead (r.targetCpu t) ≠ some t := by
    rw [h.head]
    exact fun hh => ht _ (mem_of_mem_head? hh)
  simp [dequeueReady, (h.unlinked t ht).2, hhead]

theorem dequeueReady_eq (h : r.Rep q) {c : Nat} {l1 l2 : List Slot} (hq : q c = l1 ++ t :: l2) : dequeueReady t r =
      { nextReady := Dll.detach r.nextReady l1.getLast? t l2.head?
        prevReady := Dll.detach r.prevReady l2.head? t l1.getLast?
        targetCpu := r.targetCpu
        localReadyHead := update r.localReadyHead c (l1 ++ l2).head?
        localReadyTail := update r.localReadyTail c (l1 ++ l2).getLast?
        localTaskCount := update r.localTaskCount c (r.localTaskCount c - 1) } := by
  have hl := h.linked c
  rw [hq] at hl
  obtain ⟨hprev, hnext⟩ := hl.at_mid
  have ht : r.targetCpu t = c := h.target c t (by simp [hq])
  have hhead := h.head c
  have htail := h.tail c
  rw [hq] at hhead htail
  unfold dequeueReady Dll.detach
  rw [hprev]
  cases hp : l1.getLast? with
  | some p =>
    -- a predecessor: the head stays, the predecessor skips the task
    have htp : t ≠ p := fun he => (Dll.not_mem_around hl.1).1 (he ▸ mem_of_mem_getLast? hp)
    have hh : (l1 ++ l2).head? = r.localReadyHead c := by
      cases l1 with
      | nil => simp at hp
      | cons a l => simpa using hhead.symm
    cases l2 with
    | cons n l =>
      have hlast : (l1 ++ n :: l).getLast? = r.localReadyTail c := by simpa using htail.symm
      simp [unlinkReady, hnext, ht, htp, hprev, hp, hh, hlast]
    | nil =>
      have hlast : r.localReadyTail c = some t := by simpa using htail
      rw [append_nil] at hh ⊢
      simp [unlinkReady, hnext, ht, htp, hprev, hp, hh, hlast]
  | none =>
    -- no predecessor: the task is the head
    have hnil : l1 = [] := by simpa using hp
    subst hnil
    have hh : r.localReadyHead c = some t := by simpa using hhead
    cases l2 with
    | cons n l =>
      have hlast : (n :: l).getLast? = r.localReadyTail c := by simpa using htail.symm
      simp [unlinkReady, hnext, ht, hprev, hh, hlast]
    | nil =>
      have hlast : r.localReadyTail c = some t := by simpa using htail
      simp [unlinkReady, hnext, ht, hprev, hh, hlast]

theorem dequeueReady_rep (h : r.Rep q) {c : Nat} (hc : t ∈ q c) : (dequeueReady t r).Rep (update q c ((q c).erase t)) := by
  obtain ⟨l1, l2, hq⟩ := append_of_mem hc
  have hl := h.linked c
  rw [hq] at hl
  have herase : (q c).erase t = l1 ++ l2 := by
    rw [hq, erase_append_right _ (Dll.not_mem_around hl.1).1, erase_cons_head]
  rw [dequeueReady_eq h hq, herase]
  refine ⟨fun c' => ?_, fun c' => ?_, fun c' => ?_, fun c' => ?_, fun c' u hu => ?_, fun u hu => ?_⟩
  · by_cases hc' : c' = c
    · subst hc'
      rw [update_self]
      exact hl.detach
    · rw [update_of_ne hc']
      refine (h.linked c').congr fun u hu => Dll.detach_of_not_mem _ _ ?_
      rw [← hq]
      exact h.not_mem_of_ne hu (Ne.symm hc')
  · by_cases hc' : c' = c
    · subst hc'; simp
    · simp [update_of_ne hc', h.head]
  · by_cases hc' : c' = c
    · subst hc'; simp
    · simp [update_of_ne hc', h.tail]
  · by_cases hc' : c' = c
    · subst hc'
      have := h.count c'
      simp only [hq, length_append, length_cons] at this
      simp only [update_self, length_append, this]
      omega
    · simp [update_of_ne hc', h.count]
  · by_cases hc' : c' = c
    · subst hc'
      rw [update_self, ← herase] at hu
      exact h.target c' u (mem_of_mem_erase hu)
    · rw [update_of_ne hc'] at hu
      exact h.target c' u hu
  · by_cases hut : u = t
    · subst hut
      exact ⟨Dll.detach_self, Dll.detach_self⟩
    · have huq : ∀ c', u ∉ q c' := fun c' hu' => hu c' (by
        by_cases hcc : c' = c
        · subst hcc
          rw [update_self, ← herase]
          exact (mem_erase_of_ne hut).2 hu'
        · rwa [update_of_ne hcc])
      obtain ⟨hn, hp⟩ := Dll.detach_of_not_mem r.nextReady r.prevReady (hq ▸ huq c)
      exact ⟨hn.trans (h.unlinked u huq).1, hp.trans (h.unlinked u huq).2⟩

end ReadySpec

section SleepSpec

variable {wakeTick : Slot → Nat} {z : SleepQueue} {l : List Slot} {t : Slot}

/-- The loop walks along `l`, from the last task of `l1` on, over the tasks that wake before `tick`. -/
theorem sleepPos_eq (wakeTick : Slot → Nat) {next prev : Slot → Option Slot} (tick : Nat) :
    ∀ (fuel : Nat) (l l1 : List Slot) (curr : Slot),
    Dll.Linked next prev (l1 ++ curr :: l) → l.length < fuel →
      (l1 ++ curr :: l.takeWhile (fun u => decide (wakeTick u < tick))).getLast? =
      some (sleepPos wakeTick next tick fuel curr)
  | fuel + 1, [], l1, curr, h, _ => by
    have hn := h.at_mid.2
    simp [sleepPos, hn]
  | fuel + 1, n :: l, l1, curr, h, hf => by
    have hn := h.at_mid.2
    rw [List.head?_cons] at hn
    by_cases hw : wakeTick n < tick
    · have hstep : Dll.Linked next prev ((l1 ++ [curr]) ++ n :: l) := by simpa using h
      have := sleepPos_eq wakeTick tick fuel l (l1 ++ [curr]) n hstep (by simpa using hf)
      simpa [sleepPos, hn, hw] using this
    · simp [sleepPos, hn, hw]

theorem length_le_maxTasks (h : l.Nodup) : l.length ≤ MAX_TASKS := by
  simpa [MAX_TASKS] using h.length_le_card

theorem enqueueSleep_rep (h : z.Rep l) (ht : t ∉ l) :
    (enqueueSleep wakeTick t z).Rep (l.takeWhile (fun u => decide (wakeTick u < wakeTick t)) ++
      t :: l.dropWhile (fun u => decide (wakeTick u < wakeTick t))) := by
  set l1 := l.takeWhile (fun u => decide (wakeTick u < wakeTick t)) with hl1
  set l2 := l.dropWhile (fun u => decide (wakeTick u < wakeTick t)) with hl2
  have hsplit : l1 ++ l2 = l := takeWhile_append_dropWhile
  have hlink : Dll.Linked z.nextSleep z.prevSleep (l1 ++ l2) := by rw [hsplit]; exact h.linked
  obtain ⟨hn, hp⟩ := h.unlinked t ht
  have hcn : update z.nextSleep t none = z.nextSleep := by rw [← hn, Function.update_eq_self]
  have hcp : update z.prevSleep t none = z.prevSleep := by rw [← hp, Function.update_eq_self]
  have heq : enqueueSleep wakeTick t z =
      { nextSleep := Dll.attach z.nextSleep l1.getLast? t l2.head?
        prevSleep := Dll.attach z.prevSleep l2.head? t l1.getLast?
        sleepHead := (l1 ++ t :: l2).head? } := by
    unfold enqueueSleep Dll.attach
    rw [hcn, hcp, h.head]
    cases hl : l with
    | nil => simp [hl1, hl2, hl, hcn, hcp]
    | cons a l' =>
      by_cases hw : wakeTick a < wakeTick t
      · -- the walk ends on the last task before the place
        have hpos : l1.getLast? = some (sleepPos wakeTick z.nextSleep (wakeTick t) MAX_TASKS a) := by
          have hlk := h.linked
          rw [hl] at hlk
          have hlen := length_le_maxTasks hlk.1
          have := sleepPos_eq wakeTick (wakeTick t) MAX_TASKS l' [] a hlk (by
            rw [length_cons] at hlen
            omega)
          simpa [hl1, hl, hw] using this
        simp only [List.head?_cons, ge_iff_le, Nat.not_le.2 hw, ↓reduceIte]
        generalize sleepPos wakeTick z.nextSleep (wakeTick t) MAX_TASKS a = curr at hpos ⊢
        obtain ⟨pre, hpre⟩ := List.getLast?_eq_some_iff.1 hpos
        have hcurr : z.nextSleep curr = l2.head? := by
          rw [hpre, append_assoc] at hlink
          exact hlink.at_mid.2
        have hhead : (l1 ++ t :: l2).head? = some a := by simp [hl1, hl, hw]
        rw [hhead, hpos]
        cases hn2 : l2.head? with
        | none => simp [hcurr, hn2]
        | some n =>
          have hnt : n ≠ t := fun he => ht (by
            rw [← hsplit, ← he]
            exact mem_append_right _ (mem_of_mem_head? hn2))
          simp [hcurr, hn2, Function.update_comm hnt]
      · simp [hl1, hl2, hl, hw, hcp]
  rw [heq]
  refine ⟨hlink.attach (by rw [hsplit]; exact ht), rfl, fun u hu => ?_⟩
  obtain ⟨hn', hp'⟩ := Dll.attach_of_not_mem z.nextSleep z.prevSleep hu
  have hul : u ∉ l := by
    rw [← hsplit]
    simp only [mem_append, mem_cons, not_or] at hu ⊢
    exact ⟨hu.1, hu.2.2⟩
  exact ⟨hn'.trans (h.unlinked u hul).1, hp'.trans (h.unlinked u hul).2⟩

theorem enqueueSleep_sorted (h : l.Pairwise fun a b => wakeTick a ≤ wakeTick b) :
    (l.takeWhile (fun u => decide (wakeTick u < wakeTick t)) ++
      t :: l.dropWhile (fun u => decide (wakeTick u < wakeTick t))).Pairwise fun a b => wakeTick a ≤ wakeTick b := by
  have hsplit := takeWhile_append_dropWhile (p := fun u => decide (wakeTick u < wakeTick t)) (l := l)
  rw [← hsplit, pairwise_append] at h
  obtain ⟨h1, h2, h12⟩ := h
  have hbefore : ∀ u ∈ l.takeWhile (fun u => decide (wakeTick u < wakeTick t)), wakeTick u ≤ wakeTick t :=
    fun u hu => Nat.le_of_lt (by simpa using mem_takeWhile_imp hu)
  have hafter : ∀ u ∈ l.dropWhile (fun u => decide (wakeTick u < wakeTick t)), wakeTick t ≤ wakeTick u := by
    -- the first task kept wakes no earlier, and the rest no earlier than it
    cases hd : l.dropWhile (fun u => decide (wakeTick u < wakeTick t)) with
    | nil => simp
    | cons a l' =>
      have ha : wakeTick t ≤ wakeTick a := by
        have := List.head?_dropWhile_not (fun u => decide (wakeTick u < wakeTick t)) l
        rw [hd] at this
        simpa using this
      rw [hd, pairwise_cons] at h2
      intro u hu
      rcases mem_cons.1 hu with rfl | hu
      · exact ha
      · exact ha.trans (h2.1 u hu)
  rw [pairwise_append, pairwise_cons]
  refine ⟨h1, ⟨hafter, h2⟩, fun u hu v hv => ?_⟩
  rcases mem_cons.1 hv with rfl | hv
  · exact hbefore u hu
  · exact h12 u hu v hv

theorem dequeueSleep_of_not_mem (h : z.Rep l) (ht : t ∉ l) : dequeueSleep t z = z := by
  have hh : z.sleepHead ≠ some t := by
    rw [h.head]
    exact fun he => ht (mem_of_mem_head? he)
  have hu := h.unlinked t ht
  rw [dequeueSleep, if_pos ⟨hu.2, hu.1, hh⟩]

theorem dequeueSleep_rep (h : z.Rep l) : (dequeueSleep t z).Rep (l.erase t) := by
  by_cases ht : t ∈ l
  · obtain ⟨l1, l2, rfl⟩ := append_of_mem ht
    have hl := h.linked
    obtain ⟨hprev, hnext⟩ := hl.at_mid
    rw [erase_append_right _ (Dll.not_mem_around hl.1).1, erase_cons_head]
    have heq : dequeueSleep t z =
        { nextSleep := Dll.detach z.nextSleep l1.getLast? t l2.head?
          prevSleep := Dll.detach z.prevSleep l2.head? t l1.getLast?
          sleepHead := (l1 ++ l2).head? } := by
      have hin : ¬ (l1.getLast? = none ∧ l2.head? = none ∧ z.sleepHead ≠ some t) := by
        rintro ⟨h1, -, hh⟩
        rw [List.getLast?_eq_none_iff] at h1
        exact hh (by simp [h.head, h1])
      unfold dequeueSleep Dll.detach
      rw [hprev, hnext, if_neg hin]
      cases hp : l1.getLast? with
      | none =>
        have hnil : l1 = [] := by simpa using hp
        subst hnil
        have hh : z.sleepHead = some t := by simpa using h.head
        cases hn : l2.head? <;> simp [hh, hn]
      | some p =>
        have hh : z.sleepHead = (l1 ++ l2).head? := by
          rw [h.head]
          cases l1 with
          | nil => simp at hp
          | cons a l => simp
        cases l2.head? <;> simp [hh]
    rw [heq]
    refine ⟨hl.detach, rfl, fun u hu => ?_⟩
    by_cases hut : u = t
    · subst hut
      exact ⟨Dll.detach_self, Dll.detach_self⟩
    · have hul : u ∉ l1 ++ t :: l2 := by simpa [hut] using hu
      obtain ⟨hn, hp⟩ := Dll.detach_of_not_mem z.nextSleep z.prevSleep hul
      exact ⟨hn.trans (h.unlinked u hul).1, hp.trans (h.unlinked u hul).2⟩
  · rwa [erase_of_not_mem ht, dequeueSleep_of_not_mem h ht]

end SleepSpec

end EterOS.Sched
