import Mathlib.Logic.Relation
import Mathlib.Logic.Function.Basic
import Mathlib.Data.List.Nodup
import Mathlib.Algebra.Group.Nat.Defs
/-!
# Pthread — mutexes and condition variables over a futex

`src/userspace/libc/src/pthread.c`.  A step is one atomic operation of one thread, or a return from `futex_wait` that
nobody called for; what `futex_wait` and `futex_wake` do is what the kernel promises of them.  Threads, mutexes and
condition variables are of any number.  Which thread is between a returned lock and its unlock (`holds`), how many
signals a condition variable has had (`sigs`, and `readAt`, `freedAt`, `given` for the count at three places of the code)
and who was signalled alone (`told`) the code does not keep: they are here to say what it does.
-/
namespace EterOS.Libc

open Function (update update_self update_of_ne)

/-- The local variables of a `pthread_cond_wait` that has read the word: its arguments, `seq`, and the signals there had
been when it read the word and when it let go of the mutex. -/
structure Waiter (M C : Type*) where
  cond : C
  mutex : M
  seq : BitVec 32
  readAt : Nat
  freedAt : Nat

/-- The atomic operation a thread is about to do, with the local variables it goes on with. -/
inductive Pc (M C : Type*) where
  | user
  /-- `atomic_cmpxchg(&mutex->locked, 0, 1)`. -/
  | lock (m : M)
  /-- `atomic_xchg(&mutex->locked, 2)`. -/
  | lockSwap (m : M)
  /-- `futex_wait(&mutex->locked, 2)`. -/
  | lockWait (m : M)
  /-- Queued in it. -/
  | lockQueued (m : M)
  /-- `atomic_xchg(&mutex->locked, 0)`, in a `pthread_cond_wait` if there is a waiter. -/
  | unlock (m : M) (k : Option (Waiter M C))
  /-- `futex_wake(&mutex->locked, 1)`. -/
  | unlockWake (m : M) (k : Option (Waiter M C))
  /-- `seq = cond->futex`. -/
  | condRead (c : C) (m : M)
  /-- `futex_wait(&cond->futex, seq)`. -/
  | condWait (w : Waiter M C)
  /-- Queued in it. -/
  | condQueued (w : Waiter M C)
  /-- `atomic_add(&cond->futex, 1)`, before a wake of `n`. -/
  | condAdd (c : C) (n : Nat)
  /-- `futex_wake(&cond->futex, n)`; the signal is the `given`-th. -/
  | condWake (c : C) (n given : Nat)

inductive PthreadCall (M C : Type*) where
  | mutexLock (m : M)
  | mutexUnlock (m : M)
  | condWait (c : C) (m : M)
  | condSignal (c : C)
  | condBroadcast (c : C)

structure PthreadState (T M C : Type*) where
  locked : M → BitVec 32
  futex : C → BitVec 32
  pc : T → Pc M C
  holds : T → M → Bool
  sigs : C → Nat
  told : T → Prop

variable {T M C : Type*}

def PthreadCall.entry : PthreadCall M C → Pc M C
  | .mutexLock m => .lock m
  | .mutexUnlock m => .unlock m none
  | .condWait c m => .condRead c m
  | .condSignal c => .condAdd c 1
  | .condBroadcast c => .condAdd c 0x7fffffff

/-- After its unlock a waiter waits, and `pthread_mutex_unlock` returns. -/
def afterUnlock : Option (Waiter M C) → Pc M C
  | none => .user
  | some w => .condWait w

def Pc.wake : Pc M C → Pc M C
  | .lockQueued m => .lockSwap m
  | .condQueued w => .lock w.mutex
  | p => p

/-- The waiter of a thread that has let go of its mutex and not returned from `futex_wait`. -/
def Pc.released : Pc M C → Option (Waiter M C)
  | .unlockWake _ k => k
  | .condWait w => some w
  | .condQueued w => some w
  | _ => none

namespace PthreadState

def init : PthreadState T M C where
  locked _ := 0
  futex _ := 0
  pc _ := .user
  holds _ _ := false
  sigs _ := 0
  told _ := False

def goto [DecidableEq T] (s : PthreadState T M C) (t : T) (p : Pc M C) : PthreadState T M C :=
  { s with pc := update s.pc t p }

/-- The threads in `woken` return from `futex_wait`. -/
def wake [DecidableEq T] (s : PthreadState T M C) (woken : List T) : PthreadState T M C :=
  { s with pc := fun u => if u ∈ woken then (s.pc u).wake else s.pc u }

section

variable [DecidableEq T] {s : PthreadState T M C} {t : T} {p : Pc M C} {woken : List T}

@[simp] theorem goto_pc : (s.goto t p).pc = update s.pc t p := rfl

end

def take [DecidableEq T] [DecidableEq M] (s : PthreadState T M C) (t : T) (m : M) (v : BitVec 32) : PthreadState T M C :=
  { s.goto t .user with locked := update s.locked m v, holds := update s.holds t (update (s.holds t) m true) }

def free [DecidableEq T] [DecidableEq M] (s : PthreadState T M C) (t : T) (m : M) (p : Pc M C) : PthreadState T M C :=
  { s.goto t p with locked := update s.locked m 0, holds := update s.holds t (update (s.holds t) m false) }

/-- The operation of `t`, if it is not a `futex_wake`. -/
def exec [DecidableEq T] [DecidableEq M] [DecidableEq C] (s : PthreadState T M C) (t : T) : PthreadState T M C :=
  match s.pc t with
  | .lock m =>
    if s.locked m = 0 then s.take t m 1 else if s.locked m = 2 then s.goto t (.lockWait m) else s.goto t (.lockSwap m)
  | .lockSwap m =>
    if s.locked m = 0 then s.take t m 2 else { s.goto t (.lockWait m) with locked := update s.locked m 2 }
  | .lockWait m => if s.locked m = 2 then s.goto t (.lockQueued m) else s.goto t (.lockSwap m)
  | .unlock m k =>
    let k := k.map fun w => { w with freedAt := s.sigs w.cond }
    if s.locked m = 2 then s.free t m (.unlockWake m k) else s.free t m (afterUnlock k)
  | .condRead c m =>
    { s.goto t (.unlock m (some ⟨c, m, s.futex c, s.sigs c, s.sigs c⟩)) with told := update s.told t False }
  | .condWait w => if s.futex w.cond = w.seq then s.goto t (.condQueued w) else s.goto t (.lock w.mutex)
  | .condAdd c n =>
    { s.goto t (.condWake c n (s.sigs c + 1)) with
      futex := update s.futex c (s.futex c + 1), sigs := update s.sigs c (s.sigs c + 1) }
  | _ => s

def OnMutex (s : PthreadState T M C) (m : M) (t : T) : Prop := s.pc t = .lockQueued m

def OnCond (s : PthreadState T M C) (c : C) (t : T) : Prop := ∃ w, s.pc t = .condQueued w ∧ w.cond = c

def Allowed (s : PthreadState T M C) (t : T) : PthreadCall M C → Prop
  | .mutexUnlock m => s.holds t m = true
  | .condWait _ m => s.holds t m = true
  | _ => True

end PthreadState

/-- `futex_wake` of `n` wakes `woken`: threads that are queued, `n` of them or all there are. -/
structure Wakes (onQueue : T → Prop) (n : Nat) (woken : List T) : Prop where
  nodup : woken.Nodup
  queued : ∀ u ∈ woken, onQueue u
  le : woken.length ≤ n
  all : woken.length = n ∨ ∀ u, onQueue u → u ∈ woken

/-- The signal that is waking now came after `u` let go of its mutex, and nobody but `u` is queued on its condition. -/
def PthreadState.ToldNow (s : PthreadState T M C) (c : C) (given : Nat) (u : T) : Prop :=
  (∃ w, (s.pc u).released = some w ∧ w.cond = c ∧ w.freedAt < given) ∧ ∀ v, s.OnCond c v → v = u

inductive PthreadStep [DecidableEq T] [DecidableEq M] [DecidableEq C] : PthreadState T M C → PthreadState T M C → Prop where
  | call (s : PthreadState T M C) (t : T) (op : PthreadCall M C) (hpc : s.pc t = .user) (ha : s.Allowed t op) :
    PthreadStep s (s.goto t op.entry)
  | exec (s : PthreadState T M C) (t : T) : PthreadStep s (s.exec t)
  | wakeMutex (s : PthreadState T M C) (t : T) (m : M) (k : Option (Waiter M C)) (woken : List T)
    (hpc : s.pc t = .unlockWake m k) (hw : Wakes (s.OnMutex m) 1 woken) :
    PthreadStep s ((s.wake woken).goto t (afterUnlock k))
  | wakeCond (s : PthreadState T M C) (t : T) (c : C) (n given : Nat) (woken : List T)
    (hpc : s.pc t = .condWake c n given) (hw : Wakes (s.OnCond c) n woken) :
    PthreadStep s { (s.wake woken).goto t .user with told := fun u => s.told u ∨ s.ToldNow c given u }
  | spurious (s : PthreadState T M C) (t : T) : PthreadStep s (s.wake [t])

def PthreadReachable [DecidableEq T] [DecidableEq M] [DecidableEq C] (s : PthreadState T M C) : Prop :=
  Relation.ReflTransGen PthreadStep PthreadState.init s

namespace PthreadState

variable {s s' : PthreadState T M C} {t u : T} {m m' : M} {c : C} {p : Pc M C} {woken : List T}

/-! ## Exclusion -/

/-- **Who has a mutex**: one thread at most, none while the word is 0, and those about to unlock. -/
structure Held (s : PthreadState T M C) (m : M) : Prop where
  free : s.locked m = 0 → ∀ t, s.holds t m = false
  one : ∀ t u, s.holds t m = true → s.holds u m = true → t = u
  unlock : ∀ t k, s.pc t = .unlock m k → s.holds t m = true
  read : ∀ t c, s.pc t = .condRead c m → s.holds t m = true

section

variable [DecidableEq T]

theorem Held.goto (h : Held s m) (hu : ∀ k, p = .unlock m k → s.holds t m = true)
    (hr : ∀ c, p = .condRead c m → s.holds t m = true) : Held (s.goto t p) m := by
  refine ⟨h.free, h.one, fun u k hk => ?_, fun u c hc => ?_⟩
  · by_cases hut : u = t
    · subst hut
      rw [goto_pc, update_self] at hk
      exact hu k hk
    · rw [goto_pc, update_of_ne hut] at hk
      exact h.unlock u k hk
  · by_cases hut : u = t
    · subst hut
      rw [goto_pc, update_self] at hc
      exact hr c hc
    · rw [goto_pc, update_of_ne hut] at hc
      exact h.read u c hc

theorem wake_unlock {k : Option (Waiter M C)} (h : (s.wake woken).pc u = .unlock m k) : s.pc u = .unlock m k := by
  unfold wake at h
  dsimp only at h
  split at h
  · cases hp : s.pc u <;> rw [hp] at h <;> cases h
    rfl
  · exact h

theorem wake_condRead (h : (s.wake woken).pc u = .condRead c m) : s.pc u = .condRead c m := by
  unfold wake at h
  dsimp only at h
  split at h
  · cases hp : s.pc u <;> rw [hp] at h <;> cases h
    rfl
  · exact h

theorem Held.wake (h : Held s m) (woken : List T) : Held (s.wake woken) m :=
  ⟨h.free, h.one, fun u k hk => h.unlock u k (wake_unlock hk), fun u c hc => h.read u c (wake_condRead hc)⟩

end

theorem Held.congr (h : Held s m) (hl : s'.locked m = 0 → s.locked m = 0) (hh : ∀ t, s'.holds t m = s.holds t m)
    (hpc : s'.pc = s.pc) : Held s' m := by
  refine ⟨fun h0 t => ?_, fun t u ht hu => ?_, fun t k hk => ?_, fun t c hc => ?_⟩
  · rw [hh]
    exact h.free (hl h0) t
  · rw [hh] at ht hu
    exact h.one t u ht hu
  · rw [hh]
    exact h.unlock t k (hpc ▸ hk)
  · rw [hh]
    exact h.read t c (hpc ▸ hc)

theorem afterUnlock_ne (k : Option (Waiter M C)) (m : M) :
    (∀ k', afterUnlock k ≠ .unlock m k') ∧ ∀ c, afterUnlock k ≠ .condRead c m := by
  cases k with
  | none => exact ⟨fun _ h => (by cases h), fun _ h => by cases h⟩
  | some w => exact ⟨fun _ h => (by cases h), fun _ h => by cases h⟩

variable [DecidableEq T] [DecidableEq M]

@[simp] theorem take_locked {v : BitVec 32} : (s.take t m v).locked = update s.locked m v := rfl
@[simp] theorem take_holds {v : BitVec 32} : (s.take t m v).holds = update s.holds t (update (s.holds t) m true) := rfl
@[simp] theorem free_locked : (s.free t m p).locked = update s.locked m 0 := rfl
@[simp] theorem free_holds : (s.free t m p).holds = update s.holds t (update (s.holds t) m false) := rfl
@[simp] theorem free_pc : (s.free t m p).pc = update s.pc t p := rfl

theorem Held.take (h : ∀ m, Held s m) {v : BitVec 32} (h0 : s.locked m' = 0) (hv : v ≠ 0) : Held (s.take t m' v) m := by
  have hgo : Held (s.goto t .user) m := (h m).goto (fun k hk => by cases hk) fun c hc => by cases hc
  by_cases hm : m = m'
  · subst hm
    have hnone := (h m).free h0
    have hto : ∀ u, (s.take t m v).holds u m = true → u = t := by
      intro u hu
      by_contra hut
      rw [take_holds, update_of_ne hut, hnone u] at hu
      cases hu
    have hsome : ∀ u, s.holds u m = true → False := by
      intro u hu
      rw [hnone u] at hu
      cases hu
    refine ⟨fun hz => ?_, fun a b ha hb => (hto a ha).trans (hto b hb).symm, fun a k hk => ?_, fun a c hc => ?_⟩
    · rw [take_locked, update_self] at hz
      exact absurd hz hv
    · exact (hsome a (hgo.unlock a k hk)).elim
    · exact (hsome a (hgo.read a c hc)).elim
  · refine hgo.congr (fun hz => ?_) (fun u => ?_) rfl
    · rwa [take_locked, update_of_ne hm] at hz
    · by_cases hut : u = t
      · subst hut
        rw [take_holds, update_self, update_of_ne hm]
        rfl
      · rw [take_holds, update_of_ne hut]
        rfl

theorem Held.letGo (h : ∀ m, Held s m) (ht : s.holds t m' = true) (hu : ∀ k, p ≠ .unlock m k) (hr : ∀ c, p ≠ .condRead c m) :
    Held (s.free t m' p) m := by
  have hgo : Held (s.goto t p) m := (h m).goto (fun k hk => absurd hk (hu k)) fun c hc => absurd hc (hr c)
  by_cases hm : m = m'
  · subst hm
    have hnone : ∀ u, (s.free t m p).holds u m = false := by
      intro u
      by_cases hut : u = t
      · subst hut
        rw [free_holds, update_self, update_self]
      · rw [free_holds, update_of_ne hut, ← Bool.not_eq_true]
        exact fun hu' => hut ((h m).one u t hu' ht)
    have hpc : ∀ u, s.holds u m = true → u = t := fun u hu' => (h m).one u t hu' ht
    refine ⟨fun _ => hnone, fun a b ha _ => ?_, fun a k hk => ?_, fun a c hc => ?_⟩
    · rw [hnone a] at ha
      cases ha
    · obtain rfl := hpc a (hgo.unlock a k hk)
      rw [free_pc, update_self] at hk
      exact absurd hk (hu k)
    · obtain rfl := hpc a (hgo.read a c hc)
      rw [free_pc, update_self] at hc
      exact absurd hc (hr c)
  · refine hgo.congr (fun hz => ?_) (fun u => ?_) rfl
    · rwa [free_locked, update_of_ne hm] at hz
    · by_cases hut : u = t
      · subst hut
        rw [free_holds, update_self, update_of_ne hm]
        rfl
      · rw [free_holds, update_of_ne hut]
        rfl

variable [DecidableEq C]

theorem Held.exec (h : ∀ m, Held s m) (t : T) (m : M) : Held (s.exec t) m := by
  unfold PthreadState.exec
  cases hpc : s.pc t with
  | lock m' =>
    dsimp only
    split
    · rename_i h0
      exact Held.take h h0 (by decide)
    · split
      all_goals exact (h m).goto (fun _ hk => by cases hk) fun _ hc => by cases hc
  | lockSwap m' =>
    dsimp only
    split
    · rename_i h0
      exact Held.take h h0 (by decide)
    · rename_i hne
      have hgo : Held (s.goto t (.lockWait m')) m := (h m).goto (fun _ hk => by cases hk) fun _ hc => by cases hc
      refine hgo.congr (fun hz => ?_) (fun _ => rfl) rfl
      by_cases hm : m = m'
      · subst hm
        dsimp only at hz
        rw [update_self] at hz
        cases hz
      · dsimp only at hz
        rwa [update_of_ne hm] at hz
  | lockWait m' =>
    dsimp only
    split
    all_goals exact (h m).goto (fun _ hk => by cases hk) fun _ hc => by cases hc
  | unlock m' k =>
    have ht := (h m').unlock t k hpc
    dsimp only
    split
    · exact Held.letGo h ht (fun _ hk => by cases hk) fun _ hc => by cases hc
    · exact Held.letGo h ht (afterUnlock_ne _ m).1 (afterUnlock_ne _ m).2
  | condRead c m' =>
    have ht := (h m').read t c hpc
    have hgo : Held (s.goto t (.unlock m' (some ⟨c, m', s.futex c, s.sigs c, s.sigs c⟩))) m :=
      (h m).goto (fun _ hk => by cases hk; exact ht) fun _ hc => by cases hc
    exact hgo.congr id (fun _ => rfl) rfl
  | condWait w =>
    dsimp only
    split
    all_goals exact (h m).goto (fun _ hk => by cases hk) fun _ hc => by cases hc
  | condAdd c n =>
    have hgo : Held (s.goto t (.condWake c n (s.sigs c + 1))) m :=
      (h m).goto (fun _ hk => by cases hk) fun _ hc => by cases hc
    exact hgo.congr id (fun _ => rfl) rfl
  | _ => exact h m

theorem Held.step (h : ∀ m, Held s m) (hs : PthreadStep s s') (m : M) : Held s' m := by
  cases hs with
  | call t op hpc ha =>
    apply (h m).goto
    · intro k hk
      cases op <;> cases hk
      exact ha
    · intro c hc
      cases op <;> cases hc
      exact ha
  | exec t => exact Held.exec h t m
  | wakeMutex t m' k woken hpc hw =>
    exact ((h m).wake woken).goto (fun k' hk => absurd hk ((afterUnlock_ne k m).1 k')) fun c hc =>
      absurd hc ((afterUnlock_ne k m).2 c)
  | wakeCond t c n given woken hpc hw =>
    have hgo : Held ((s.wake woken).goto t .user) m :=
      ((h m).wake woken).goto (fun _ hk => by cases hk) fun _ hc => by cases hc
    exact hgo.congr id (fun _ => rfl) rfl
  | spurious t => exact (h m).wake [t]

/-! ## Wake-ups of a mutex -/

/-- A thread about to wake somebody from the mutex's queue, or to take its word. -/
def Pending (m : M) : Pc M C → Prop
  | .lockSwap m' => m' = m
  | .unlockWake m' _ => m' = m
  | _ => False

/-- **Nobody sleeps through an unlock**: while a thread is queued, the word says so or somebody is on the way. -/
def Awake (s : PthreadState T M C) (m : M) : Prop :=
  ∀ t, s.pc t = .lockQueued m → s.locked m = 2 ∨ ∃ u, Pending m (s.pc u)

section

omit [DecidableEq C] [DecidableEq M]

theorem pending_wake {q : Pc M C} (h : Pending m q) : Pending m q.wake := by
  cases q <;> first | exact h | exact h.elim

theorem wake_queued (h : (s.wake woken).pc u = .lockQueued m) : s.pc u = .lockQueued m ∧ u ∉ woken := by
  unfold wake at h
  dsimp only at h
  split at h
  · cases hp : s.pc u <;> rw [hp] at h <;> cases h
  · rename_i hu
    exact ⟨h, hu⟩

theorem Awake.goto (h : Awake s m) (hq : p = .lockQueued m → s.locked m = 2) (hp : Pending m (s.pc t) → Pending m p) :
    Awake (s.goto t p) m := by
  intro v hv
  by_cases hvt : v = t
  · subst hvt
    rw [goto_pc, update_self] at hv
    exact .inl (hq hv)
  · rw [goto_pc, update_of_ne hvt] at hv
    refine (h v hv).imp_right ?_
    rintro ⟨u, hu⟩
    by_cases hut : u = t
    · subst hut
      exact ⟨u, by rw [goto_pc, update_self]; exact hp hu⟩
    · exact ⟨u, by rw [goto_pc, update_of_ne hut]; exact hu⟩

theorem Awake.wake (h : Awake s m) (woken : List T) : Awake (s.wake woken) m := by
  intro v hv
  refine (h v (wake_queued hv).1).imp_right ?_
  rintro ⟨u, hu⟩
  refine ⟨u, ?_⟩
  unfold PthreadState.wake
  dsimp only
  split
  · exact pending_wake hu
  · exact hu

omit [DecidableEq T] in
theorem Awake.congr (h : Awake s m) (hl : s.locked m = 2 → s'.locked m = 2) (hpc : s'.pc = s.pc) : Awake s' m := by
  intro v hv
  rw [hpc] at hv ⊢
  exact (h v hv).imp_left hl

/-- A thread that is not on the way itself leaves those who are, also where the word was not 2 and changes. -/
theorem Awake.leave (h : Awake s m) (hne : s.locked m ≠ 2) (hq : p ≠ .lockQueued m) (hp : ¬ Pending m (s.pc t)) {v : T}
    (hv : (s.goto t p).pc v = .lockQueued m) : ∃ u, Pending m ((s.goto t p).pc u) := by
  have hvt : v ≠ t := by
    rintro rfl
    rw [goto_pc, update_self] at hv
    exact hq hv
  rw [goto_pc, update_of_ne hvt] at hv
  obtain ⟨u, hu⟩ := (h v hv).resolve_left hne
  have hut : u ≠ t := by
    rintro rfl
    exact hp hu
  exact ⟨u, by rw [goto_pc, update_of_ne hut]; exact hu⟩

end

omit [DecidableEq T] [DecidableEq M] [DecidableEq C] in
theorem afterUnlock_not (k : Option (Waiter M C)) (m : M) : afterUnlock k ≠ .lockQueued m := by
  cases k <;> exact fun h => by cases h

theorem Awake.exec (h : Awake s m) (t : T) : Awake (s.exec t) m := by
  unfold PthreadState.exec
  cases hpc : s.pc t with
  | lock m' =>
    have hp : ¬ Pending m (s.pc t) := by
      rw [hpc]
      exact id
    dsimp only
    split
    · rename_i h0
      by_cases hm : m = m'
      · subst hm
        exact fun v hv => .inr (h.leave (p := .user) (by rw [h0]; decide) (fun h => by cases h) hp hv)
      · refine (h.goto (p := .user) (fun h => by cases h) fun hp' => absurd hp' hp).congr (fun h2 => ?_) rfl
        rwa [take_locked, update_of_ne hm]
    · split
      all_goals exact h.goto (fun h => by cases h) fun hp' => absurd hp' hp
  | lockSwap m' =>
    -- The word is 2 from now on.
    have hother : m ≠ m' → ∀ {p}, p ≠ .lockQueued m → Awake (s.goto t p) m := by
      intro hm p hq
      refine h.goto (fun h => absurd h hq) fun hp => ?_
      rw [hpc] at hp
      exact absurd hp.symm hm
    dsimp only
    split
    · by_cases hm : m = m'
      · subst hm
        exact fun v _ => .inl (update_self ..)
      · refine (hother hm (p := .user) (fun h => by cases h)).congr (fun h2 => ?_) rfl
        rwa [take_locked, update_of_ne hm]
    · by_cases hm : m = m'
      · subst hm
        exact fun v _ => .inl (update_self ..)
      · refine (hother hm (p := .lockWait m') (fun h => by cases h)).congr (fun h2 => ?_) rfl
        dsimp only
        rwa [update_of_ne hm]
  | lockWait m' =>
    have hp : ¬ Pending m (s.pc t) := by
      rw [hpc]
      exact id
    dsimp only
    split
    · rename_i h2
      exact h.goto (fun he => by cases he; exact h2) fun hp' => absurd hp' hp
    · exact h.goto (fun he => by cases he) fun hp' => absurd hp' hp
  | unlock m' k =>
    have hp : ¬ Pending m (s.pc t) := by
      rw [hpc]
      exact id
    dsimp only
    split
    · by_cases hm : m = m'
      · subst hm
        refine fun v _ => .inr ⟨t, ?_⟩
        rw [free_pc, update_self]
        rfl
      · refine (h.goto (p := .unlockWake m' _) (fun h => by cases h) fun hp' => absurd hp' hp).congr (fun h2 => ?_) rfl
        rwa [free_locked, update_of_ne hm]
    · rename_i hne
      by_cases hm : m = m'
      · subst hm
        exact fun v hv => .inr (h.leave hne (afterUnlock_not _ m) hp hv)
      · refine (h.goto (fun h => absurd h (afterUnlock_not _ m)) fun hp' => absurd hp' hp).congr (fun h2 => ?_) rfl
        rwa [free_locked, update_of_ne hm]
  | condRead c m' =>
    have hp : ¬ Pending m (s.pc t) := by
      rw [hpc]
      exact id
    exact (h.goto (p := .unlock m' _) (fun h => by cases h) fun hp' => absurd hp' hp).congr id rfl
  | condWait w =>
    have hp : ¬ Pending m (s.pc t) := by
      rw [hpc]
      exact id
    dsimp only
    split
    all_goals exact h.goto (fun h => by cases h) fun hp' => absurd hp' hp
  | condAdd c n =>
    have hp : ¬ Pending m (s.pc t) := by
      rw [hpc]
      exact id
    exact (h.goto (p := .condWake c n _) (fun h => by cases h) fun hp' => absurd hp' hp).congr id rfl
  | _ => exact h

omit [DecidableEq M] [DecidableEq C] in
/-- Of the threads that are still queued after a `futex_wake` of one, none was alone: the one woken is on the way. -/
theorem Awake.wakeMutex (h : Awake s m) {k : Option (Waiter M C)} (hpc : s.pc t = .unlockWake m' k)
    (hw : Wakes (s.OnMutex m') 1 woken) : Awake ((s.wake woken).goto t (afterUnlock k)) m := by
  by_cases hm : m = m'
  · subst hm
    intro v hv
    right
    have hvt : v ≠ t := by
      rintro rfl
      rw [goto_pc, update_self] at hv
      exact afterUnlock_not k m hv
    rw [goto_pc, update_of_ne hvt] at hv
    obtain ⟨hq, hout⟩ := wake_queued hv
    have hlen := hw.all.resolve_right fun hall => hout (hall v hq)
    obtain ⟨u, rfl⟩ := List.length_eq_one_iff.1 hlen
    have hu : s.pc u = .lockQueued m := hw.queued u List.mem_cons_self
    have hut : u ≠ t := by
      rintro rfl
      rw [hpc] at hu
      cases hu
    refine ⟨u, ?_⟩
    rw [goto_pc, update_of_ne hut]
    unfold PthreadState.wake
    dsimp only
    rw [if_pos List.mem_cons_self, hu]
    rfl
  · refine (h.wake woken).goto (fun he => absurd he (afterUnlock_not k m)) fun hp => ?_
    have hstay : (s.wake woken).pc t = .unlockWake m' k := by
      unfold PthreadState.wake
      dsimp only
      split <;> rw [hpc]
      rfl
    rw [hstay] at hp
    exact absurd hp.symm hm

theorem Awake.step (h : Awake s m) (hs : PthreadStep s s') : Awake s' m := by
  cases hs with
  | call t op hpc ha =>
    refine h.goto (fun he => ?_) fun hp => ?_
    · cases op <;> cases he
    · rw [hpc] at hp
      exact hp.elim
  | exec t => exact h.exec t
  | wakeMutex t m' k woken hpc hw => exact h.wakeMutex hpc hw
  | wakeCond t c n given woken hpc hw =>
    refine ((h.wake woken).goto (p := .user) (fun he => by cases he) fun hp => ?_).congr id rfl
    have hstay : (s.wake woken).pc t = .condWake c n given := by
      unfold PthreadState.wake
      dsimp only
      split <;> rw [hpc]
      rfl
    rw [hstay] at hp
    exact hp.elim
  | spurious t => exact h.wake [t]

/-! ## Signals of a condition variable -/

/-- What the local variables of a thread say of the signals there have been, and of its having been signalled alone: a
waiter signalled alone has read an older word, and is queued only where the word has come round. -/
def Counted (sigs : C → Nat) (told : Prop) : Pc M C → Prop
  | .unlock _ (some w) => (w.seq = BitVec.ofNat 32 w.readAt ∧ w.readAt ≤ w.freedAt ∧ w.freedAt ≤ sigs w.cond) ∧ ¬ told
  | .unlockWake _ (some w) | .condWait w =>
    (w.seq = BitVec.ofNat 32 w.readAt ∧ w.readAt ≤ w.freedAt ∧ w.freedAt ≤ sigs w.cond) ∧ (told → w.readAt < sigs w.cond)
  | .condQueued w =>
    (w.seq = BitVec.ofNat 32 w.readAt ∧ w.readAt ≤ w.freedAt ∧ w.freedAt ≤ sigs w.cond) ∧
      (told → w.readAt + 2 ^ 32 ≤ sigs w.cond)
  | .condAdd _ n => 0 < n
  | .condWake c n given => 0 < n ∧ given ≤ sigs c
  | _ => True

structure Signals (s : PthreadState T M C) : Prop where
  count : ∀ c, s.futex c = BitVec.ofNat 32 (s.sigs c)
  counted : ∀ t, Counted s.sigs (s.told t) (s.pc t)

section

omit [DecidableEq M] [DecidableEq C]

variable {sigs sigs' : C → Nat} {told : Prop} {q : Pc M C}

omit [DecidableEq T] in
theorem Counted.mono (h : Counted sigs told q) (hle : ∀ c, sigs c ≤ sigs' c) : Counted sigs' told q := by
  have hw : ∀ {n : Nat} (w : Waiter M C), n ≤ sigs w.cond → n ≤ sigs' w.cond := fun w hn => Nat.le_trans hn (hle w.cond)
  cases q with
  | unlock m k =>
    cases k with
    | none => trivial
    | some w => exact ⟨⟨h.1.1, h.1.2.1, hw w h.1.2.2⟩, h.2⟩
  | unlockWake m k =>
    cases k with
    | none => trivial
    | some w => exact ⟨⟨h.1.1, h.1.2.1, hw w h.1.2.2⟩, fun ht => hw w (h.2 ht)⟩
  | condWait w => exact ⟨⟨h.1.1, h.1.2.1, hw w h.1.2.2⟩, fun ht => hw w (h.2 ht)⟩
  | condQueued w => exact ⟨⟨h.1.1, h.1.2.1, hw w h.1.2.2⟩, fun ht => hw w (h.2 ht)⟩
  | condAdd c n => exact h
  | condWake c n given => exact ⟨h.1, Nat.le_trans h.2 (hle c)⟩
  | _ => trivial

omit [DecidableEq T] in
theorem Counted.wake (h : Counted sigs told q) : Counted sigs told q.wake := by
  cases q <;> first | exact h | exact trivial

omit [DecidableEq T] in
theorem Counted.after {k : Option (Waiter M C)} (h : Counted sigs told (.unlockWake m k)) :
    Counted sigs told (afterUnlock k) := by
  cases k with
  | none => exact trivial
  | some w => exact h

theorem Signals.goto (h : Signals s) (hp : Counted s.sigs (s.told t) p) : Signals (s.goto t p) := by
  refine ⟨h.count, fun u => ?_⟩
  by_cases hut : u = t
  · subst hut
    rw [goto_pc, update_self]
    exact hp
  · rw [goto_pc, update_of_ne hut]
    exact h.counted u

theorem Signals.wake (h : Signals s) (woken : List T) : Signals (s.wake woken) := by
  refine ⟨h.count, fun u => ?_⟩
  unfold PthreadState.wake
  dsimp only
  split
  · exact (h.counted u).wake
  · exact h.counted u

theorem round_of_ofNat_eq {a b : Nat} (hlt : a < b) (h : BitVec.ofNat 32 b = BitVec.ofNat 32 a) : a + 2 ^ 32 ≤ b := by
  have hmod := congrArg BitVec.toNat h
  rw [BitVec.toNat_ofNat, BitVec.toNat_ofNat] at hmod
  omega

end

theorem Signals.exec (h : Signals s) (t : T) : Signals (s.exec t) := by
  have ht := h.counted t
  unfold PthreadState.exec
  cases hpc : s.pc t with
  | lock m' =>
    dsimp only
    split
    · exact ⟨h.count, (h.goto (t := t) (p := .user) trivial).counted⟩
    · split
      all_goals exact h.goto trivial
  | lockSwap m' =>
    dsimp only
    split
    · exact ⟨h.count, (h.goto (t := t) (p := .user) trivial).counted⟩
    · exact ⟨h.count, (h.goto (t := t) (p := .lockWait m') trivial).counted⟩
  | lockWait m' =>
    dsimp only
    split
    all_goals exact h.goto trivial
  | unlock m' k =>
    rw [hpc] at ht
    have hnext : Counted s.sigs (s.told t) (.unlockWake m' (k.map fun w => { w with freedAt := s.sigs w.cond })) := by
      cases k with
      | none => exact trivial
      | some w =>
        obtain ⟨⟨hseq, hread, hfreed⟩, hnot⟩ := ht
        exact ⟨⟨hseq, Nat.le_trans hread hfreed, Nat.le_refl _⟩, fun htold => absurd htold hnot⟩
    dsimp only
    split
    · exact ⟨h.count, (h.goto hnext).counted⟩
    · exact ⟨h.count, (h.goto hnext.after).counted⟩
  | condRead c m' =>
    refine ⟨h.count, fun u => ?_⟩
    dsimp only
    by_cases hut : u = t
    · subst hut
      rw [goto_pc, update_self, update_self]
      exact ⟨⟨h.count c, Nat.le_refl _, Nat.le_refl _⟩, id⟩
    · rw [goto_pc, update_of_ne hut, update_of_ne hut]
      exact h.counted u
  | condWait w =>
    rw [hpc] at ht
    obtain ⟨⟨hseq, hread, hfreed⟩, htold⟩ := ht
    dsimp only
    split
    · rename_i heq
      refine h.goto ⟨⟨hseq, hread, hfreed⟩, fun hto => ?_⟩
      rw [h.count, hseq] at heq
      exact round_of_ofNat_eq (htold hto) heq
    · exact h.goto trivial
  | condAdd c n =>
    rw [hpc] at ht
    have hle : ∀ c', s.sigs c' ≤ update s.sigs c (s.sigs c + 1) c' := by
      intro c'
      by_cases hc : c' = c
      · subst hc
        rw [update_self]
        exact Nat.le_succ _
      · exact Nat.le_of_eq (update_of_ne hc ..).symm
    refine ⟨fun c' => ?_, fun u => ?_⟩
    · dsimp only
      by_cases hc : c' = c
      · subst hc
        rw [update_self, update_self, h.count, BitVec.ofNat_add]
        rfl
      · rw [update_of_ne hc, update_of_ne hc, h.count]
    · dsimp only
      by_cases hut : u = t
      · subst hut
        rw [goto_pc, update_self]
        exact ⟨ht, Nat.le_of_eq (update_self c (s.sigs c + 1) s.sigs).symm⟩
      · rw [goto_pc, update_of_ne hut]
        exact (h.counted u).mono hle
  | _ => exact h

omit [DecidableEq M] [DecidableEq C] in
theorem Signals.wakeCond (h : Signals s) {n given : Nat} (hpc : s.pc t = .condWake c n given)
    (hw : Wakes (s.OnCond c) n woken) :
    Signals { (s.wake woken).goto t .user with told := fun u => s.told u ∨ s.ToldNow c given u } := by
  have ht := h.counted t
  rw [hpc] at ht
  obtain ⟨hpos, hgiven⟩ := ht
  have hgo : Signals ((s.wake woken).goto t .user) := (h.wake woken).goto trivial
  refine ⟨h.count, fun u => ?_⟩
  have hu := hgo.counted u
  -- Whoever is past its unlock was so before, and was told just now by a later signal.
  by_cases hut : u = t
  · subst hut
    dsimp only
    rw [goto_pc, update_self]
    trivial
  · rw [goto_pc, update_of_ne hut] at hu
    have hnow : ∀ {w}, (s.pc u).released = some w → w.readAt ≤ w.freedAt → s.ToldNow c given u →
        w.readAt < s.sigs w.cond := by
      rintro w hr hle ⟨⟨w', hr', rfl, hlt⟩, -⟩
      cases hr.symm.trans hr'
      exact Nat.lt_of_le_of_lt hle (Nat.lt_of_lt_of_le hlt hgiven)
    dsimp only
    rw [goto_pc, update_of_ne hut]
    unfold PthreadState.wake at hu ⊢
    dsimp only at hu ⊢
    split
    · rename_i hmem
      obtain ⟨w, hq, -⟩ := hw.queued u hmem
      rw [hq]
      trivial
    · rename_i hout
      rw [if_neg hout] at hu
      cases hq : s.pc u with
      | unlock m k =>
        rw [hq] at hu
        cases k with
        | none => trivial
        | some w =>
          refine ⟨hu.1, ?_⟩
          rintro (hold | ⟨⟨w', hr, -⟩, -⟩)
          · exact hu.2 hold
          · rw [hq] at hr
            cases hr
      | unlockWake m k =>
        rw [hq] at hu
        cases k with
        | none => trivial
        | some w => exact ⟨hu.1, fun hto => hto.elim hu.2 (hnow (by rw [hq]; rfl) hu.1.2.1)⟩
      | condWait w =>
        rw [hq] at hu
        exact ⟨hu.1, fun hto => hto.elim hu.2 (hnow (by rw [hq]; rfl) hu.1.2.1)⟩
      | condQueued w =>
        rw [hq] at hu
        refine ⟨hu.1, fun hto => hto.elim hu.2 ?_⟩
        rintro ⟨⟨w', hr, hc, -⟩, halone⟩
        rw [hq] at hr
        cases hr
        have hon : s.OnCond c u := ⟨w, hq, hc⟩
        -- The wake had somebody to wake, and that was `u`.
        rcases hw.all with hlen | hall
        · obtain ⟨v, hv⟩ := List.exists_mem_of_length_pos (hlen.symm ▸ hpos)
          exact absurd (halone v (hw.queued v hv) ▸ hv) hout
        · exact absurd (hall u hon) hout
      | condAdd c' n' =>
        rw [hq] at hu
        exact hu
      | condWake c' n' given' =>
        rw [hq] at hu
        exact hu
      | _ => trivial

theorem Signals.step (h : Signals s) (hs : PthreadStep s s') : Signals s' := by
  cases hs with
  | call t op hpc ha =>
    apply h.goto
    cases op with
    | condSignal c => exact Nat.one_pos
    | condBroadcast c => exact show 0 < 0x7fffffff by decide
    | _ => trivial
  | exec t => exact h.exec t
  | wakeMutex t m' k woken hpc hw =>
    have ht := h.counted t
    rw [hpc] at ht
    exact (h.wake woken).goto (Counted.after (m := m') ht)
  | wakeCond t c n given woken hpc hw => exact h.wakeCond hpc hw
  | spurious t => exact h.wake [t]

/-! ## Runs -/

theorem Held.reachable (h : PthreadReachable s) : ∀ m, Held s m := by
  induction h with
  | refl =>
    refine fun m => ⟨fun _ _ => rfl, fun t u ht => ?_, fun t k hk => ?_, fun t c hc => ?_⟩
    · cases ht
    · cases hk
    · cases hc
  | tail _ hs ih => exact fun m => Held.step ih hs m

theorem Awake.reachable (h : PthreadReachable s) (m : M) : Awake s m := by
  induction h with
  | refl => exact fun t ht => by cases ht
  | tail _ hs ih => exact ih.step hs

theorem Signals.reachable (h : PthreadReachable s) : Signals s := by
  induction h with
  | refl => exact ⟨fun _ => rfl, fun _ => trivial⟩
  | tail _ hs ih => exact ih.step hs

/-- **Mutexes exclude, and no wake-up is lost**, in every state of every run: one thread at most is between a lock and its
unlock; while a mutex is free and a thread queued on it, another is about to wake somebody or to take the word; and a
waiter that a signal after its unlock has found alone is not queued, fewer than `2 ^ 32` signals after it read the word. -/
theorem pthread_safe (s : PthreadState T M C) (h : PthreadReachable s) :
    (∀ m t u, s.holds t m = true → s.holds u m = true → t = u) ∧
    (∀ m t, s.locked m = 0 → s.OnMutex m t →
      ∃ u, u ≠ t ∧ ((∃ k, s.pc u = .unlockWake m k) ∨ s.pc u = .lockSwap m)) ∧
    ∀ t w, s.told t → s.sigs w.cond < w.readAt + 2 ^ 32 → s.pc t ≠ .condQueued w := by
  refine ⟨fun m => (Held.reachable h m).one, fun m t h0 hq => ?_, fun t w hto hlt hpc => ?_⟩
  · obtain ⟨u, hu⟩ := (Awake.reachable h m t hq).resolve_left (by rw [h0]; decide)
    refine ⟨u, ?_, ?_⟩
    · rintro rfl
      rw [hq] at hu
      exact hu
    · cases hp : s.pc u with
      | lockSwap m' =>
        rw [hp] at hu
        obtain rfl : m' = m := hu
        exact .inr rfl
      | unlockWake m' k =>
        rw [hp] at hu
        obtain rfl : m' = m := hu
        exact .inl ⟨k, rfl⟩
      | _ =>
        rw [hp] at hu
        exact hu.elim
  · have ht := (Signals.reachable h).counted t
    rw [hpc] at ht
    exact absurd (ht.2 hto) (Nat.not_le_of_lt hlt)

def contended : PthreadState Nat Nat Nat :=
  ((((((((init.goto 0 (.lock 7)).exec 0).goto 1 (.lock 7)).exec 1).exec 1).exec 1).goto 0 (.unlock 7 none)).exec 0)

theorem contended_reachable : PthreadReachable contended := by
  have hcall : ∀ {s : PthreadState Nat Nat Nat} (t : Nat) (op), PthreadReachable s → s.pc t = .user → s.Allowed t op →
      PthreadReachable (s.goto t op.entry) := fun t op h hpc ha => h.tail (.call _ t op hpc ha)
  have hexec : ∀ {s : PthreadState Nat Nat Nat} (t : Nat), PthreadReachable s → PthreadReachable (s.exec t) :=
    fun t h => h.tail (.exec _ t)
  have hfirst := hexec 0 (hcall 0 (.mutexLock 7) .refl rfl trivial)
  have hsecond := hexec 1 (hexec 1 (hexec 1 (hcall 1 (.mutexLock 7) hfirst rfl trivial)))
  exact hexec 0 (hcall 0 (.mutexUnlock 7) hsecond rfl rfl)

/-- The mutex is free and thread 1 queued on it: somebody is on the way. -/
theorem pthread_safe_contended :
    contended.locked 7 = 0 ∧ contended.pc 1 = .lockQueued 7 ∧
      ∃ u, u ≠ 1 ∧ ((∃ k, contended.pc u = .unlockWake 7 k) ∨ contended.pc u = .lockSwap 7) :=
  ⟨rfl, rfl, (pthread_safe contended contended_reachable).2.1 7 1 rfl rfl⟩

end PthreadState
end EterOS.Libc
