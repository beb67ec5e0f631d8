import EterOS.Lib.Ring
import EterOS.Lib.Tally
import Mathlib.Logic.Relation
/-!
# Mbox — the mailboxes of the network stack

`sys_mbox_post`, `sys_mbox_trypost`, `sys_arch_mbox_fetch` and `sys_arch_mbox_tryfetch` of
`kernel/net/lwip_port/sys_arch.c`, called by any number of tasks on one mailbox.  A step is one access of one task to
what they share: a wait or a signal of one of the two semaphores, which count as semaphores do, or a read or a write of
the ring.  What was inserted and removed so far (`inserted`, `removed`), whether the caller of a task has a place for a
message (`stores`), what its call has removed (`fetched`) and what it returned (`ret`) are here to say what the code does.
-/
namespace EterOS.Net

open Function (update update_self update_of_ne)

/-- What a call returned: `ERR_OK`, `ERR_MEM`, `SYS_ARCH_TIMEOUT`, `SYS_MBOX_EMPTY`, or the message it stored, if the
caller had a place for it. -/
inductive MboxRet (μ : Type*) where
  | ok
  | errMem
  | timeout
  | empty
  | message (got : Option μ)

/-- The next access of a task, with its local variables: `trying` is a `trypost`, `store` says that `msg` is not null. -/
inductive MboxPc (μ : Type*) where
  | idle
  /-- `sem_wait(&m->mutex)`. -/
  | postLock (trying : Bool) (msg : μ)
  /-- `next_head`, and the comparison with `m->tail`. -/
  | postCheck (trying : Bool) (msg : μ)
  /-- `m->messages[m->head] = msg`. -/
  | postWrite (msg : μ) (next : Nat)
  /-- `m->head = next_head`. -/
  | postAdvance (msg : μ) (next : Nat)
  /-- `sem_signal(&m->mutex)`. -/
  | postUnlock
  /-- `sem_signal(&m->sem)`. -/
  | postSignal
  /-- `sem_signal(&m->mutex)` with the ring full. -/
  | postFull (trying : Bool) (msg : μ)
  /-- `sem_wait(&m->sem)`. -/
  | fetchWait (store : Bool)
  /-- One turn of the loop with a timeout. -/
  | fetchTurn (store : Bool)
  /-- The check of `sys_arch_mbox_tryfetch`. -/
  | tryfetchTurn (store : Bool)
  /-- `sem_wait(&m->mutex)`. -/
  | takeLock (store : Bool)
  /-- `*msg = m->messages[m->tail]`. -/
  | takeRead (store : Bool)
  /-- `m->tail = (m->tail + 1) % m->size`. -/
  | takeAdvance (store : Bool) (got : Option μ)
  /-- `sem_signal(&m->mutex)`. -/
  | takeUnlock (got : Option μ)

inductive MboxCall (μ : Type*) where
  | post (msg : μ)
  | trypost (msg : μ)
  | fetch (store timed : Bool)
  | tryfetch (store : Bool)

/-- `sys_mbox_s`, where each task is, and what the code does not keep. -/
structure MboxState (T μ : Type*) where
  count : Nat
  mutex : Nat
  messages : Nat → μ
  size : Nat
  head : Nat
  tail : Nat
  pc : T → MboxPc μ
  inserted : List μ
  removed : List μ
  stores : T → Bool
  fetched : T → List μ
  ret : T → Option (MboxRet μ)

variable {T μ : Type*}

def MboxCall.entry : MboxCall μ → MboxPc μ
  | .post msg => .postLock false msg
  | .trypost msg => .postLock true msg
  | .fetch store timed => if timed then .fetchTurn store else .fetchWait store
  | .tryfetch store => .tryfetchTurn store

/-- `msg` is not null. -/
def MboxCall.stores : MboxCall μ → Bool
  | .fetch store _ | .tryfetch store => store
  | _ => false

def sysMboxNew (messages : Nat → μ) (size : Int) : MboxState T μ where
  count := 0
  mutex := 1
  messages
  size := if size ≤ 0 then 32 else size.toNat
  head := 0
  tail := 0
  pc _ := .idle
  inserted := []
  removed := []
  stores _ := false
  fetched _ := []
  ret _ := none

namespace MboxState

variable [DecidableEq T]

def goto (s : MboxState T μ) (t : T) (p : MboxPc μ) : MboxState T μ := { s with pc := update s.pc t p }

def return_ (s : MboxState T μ) (t : T) (r : MboxRet μ) : MboxState T μ :=
  { s.goto t .idle with ret := update s.ret t (some r) }

def call (s : MboxState T μ) (t : T) (c : MboxCall μ) : MboxState T μ :=
  { s.goto t c.entry with
    ret := update s.ret t none
    fetched := update s.fetched t []
    stores := update s.stores t c.stores }

/-- The next access of `t`; `expired` says that its timeout is, if it comes to that. A wait at 0 makes no step. -/
def exec (s : MboxState T μ) (t : T) (expired : Bool) : MboxState T μ :=
  match s.pc t with
  | .idle => s
  | .postLock trying msg => if 0 < s.mutex then { s.goto t (.postCheck trying msg) with mutex := s.mutex - 1 } else s
  | .postCheck trying msg =>
    if (s.head + 1) % s.size ≠ s.tail then s.goto t (.postWrite msg ((s.head + 1) % s.size))
      else s.goto t (.postFull trying msg)
  | .postWrite msg next => { s.goto t (.postAdvance msg next) with messages := update s.messages s.head msg }
  | .postAdvance msg next => { s.goto t .postUnlock with head := next, inserted := s.inserted ++ [msg] }
  | .postUnlock => { s.goto t .postSignal with mutex := s.mutex + 1 }
  | .postSignal => { s.return_ t .ok with count := s.count + 1 }
  | .postFull trying msg =>
    if trying then { s.return_ t .errMem with mutex := s.mutex + 1 }
    else { s.goto t (.postLock trying msg) with mutex := s.mutex + 1 }
  | .fetchWait store => if 0 < s.count then { s.goto t (.takeLock store) with count := s.count - 1 } else s
  | .fetchTurn store =>
    if 0 < s.count then { s.goto t (.takeLock store) with count := s.count - 1 }
    else if expired then s.return_ t .timeout else s
  | .tryfetchTurn store =>
    if 0 < s.count then { s.goto t (.takeLock store) with count := s.count - 1 } else s.return_ t .empty
  | .takeLock store => if 0 < s.mutex then { s.goto t (.takeRead store) with mutex := s.mutex - 1 } else s
  | .takeRead store => s.goto t (.takeAdvance store (if store then some (s.messages s.tail) else none))
  | .takeAdvance _ got =>
    { s.goto t (.takeUnlock got) with
      tail := (s.tail + 1) % s.size
      removed := s.removed ++ [s.messages s.tail]
      fetched := update s.fetched t (s.fetched t ++ [s.messages s.tail]) }
  | .takeUnlock got => { s.return_ t (.message got) with mutex := s.mutex + 1 }

end MboxState

inductive MboxStep [DecidableEq T] : MboxState T μ → MboxState T μ → Prop where
  | call (s : MboxState T μ) (t : T) (c : MboxCall μ) (hpc : s.pc t = .idle) : MboxStep s (s.call t c)
  | exec (s : MboxState T μ) (t : T) (expired : Bool) : MboxStep s (s.exec t expired)

def MboxReachable [DecidableEq T] (messages : Nat → μ) (size : Int) (s : MboxState T μ) : Prop :=
  Relation.ReflTransGen MboxStep (sysMboxNew messages size) s

/-! ## The ring -/

def MboxState.undelivered (s : MboxState T μ) : Nat := s.inserted.length - s.removed.length

/-- **The ring holds what is undelivered**, the oldest at the tail, and leaves a slot free. -/
structure RingOk (s : MboxState T μ) : Prop where
  tail : s.tail < s.size
  lt : s.undelivered < s.size
  order : s.inserted = s.removed ++ Ring.contents s.messages s.size s.tail s.undelivered
  head : s.head = (s.tail + s.undelivered) % s.size

section Ring

variable {s s' : MboxState T μ} {msg : μ}

theorem RingOk.next_iff (h : RingOk s) : (s.head + 1) % s.size = s.tail ↔ s.undelivered + 1 = s.size := by
  obtain ⟨htail, hlt, -, hhead⟩ := h
  rw [hhead, Nat.mod_add_mod]
  constructor
  · intro he
    by_contra hne
    have hmod : (s.tail + (s.undelivered + 1)) % s.size = (s.tail + 0) % s.size := by
      rw [← Nat.add_assoc, he, Nat.add_zero, Nat.mod_eq_of_lt htail]
    have hcancel := Nat.ModEq.add_left_cancel' s.tail hmod
    rw [Nat.ModEq, Nat.mod_eq_of_lt (by omega), Nat.zero_mod] at hcancel
    omega
  · intro he
    rw [Nat.add_assoc, he, Nat.add_mod_right, Nat.mod_eq_of_lt htail]

theorem RingOk.head_free (h : RingOk s) {i : Nat} (hi : i < s.undelivered) : (s.tail + i) % s.size ≠ s.head := by
  rw [h.head]
  exact Ring.index_ne hi h.lt

theorem RingOk.isPrefix (h : RingOk s) : s.removed <+: s.inserted := ⟨_, h.order.symm⟩

theorem RingOk.length_le (h : RingOk s) : s.removed.length ≤ s.inserted.length := h.isPrefix.length_le

theorem RingOk.congr (h : RingOk s) (hm : ∀ i < s.undelivered,
    s'.messages ((s.tail + i) % s.size) = s.messages ((s.tail + i) % s.size))
    (hs : s'.size = s.size) (hh : s'.head = s.head) (ht : s'.tail = s.tail) (hi : s'.inserted = s.inserted)
    (hr : s'.removed = s.removed) : RingOk s' := by
  have hn : s'.undelivered = s.undelivered := by
    unfold MboxState.undelivered
    rw [hi, hr]
  have hc : Ring.contents s'.messages s.size s.tail s.undelivered =
      Ring.contents s.messages s.size s.tail s.undelivered := by
    unfold Ring.contents
    apply List.map_congr_left
    intro i hi
    exact hm i (List.mem_range.1 hi)
  constructor
  · rw [ht, hs]
    exact h.tail
  · rw [hn, hs]
    exact h.lt
  · rw [hi, hr, hs, ht, hn, hc]
    exact h.order
  · rw [hh, ht, hn, hs]
    exact h.head

theorem RingOk.push (h : RingOk s) (s' : MboxState T μ) (hfree : (s.head + 1) % s.size ≠ s.tail)
    (hmsg : s.messages s.head = msg)
    (hm : s'.messages = s.messages) (hs : s'.size = s.size) (hh : s'.head = (s.head + 1) % s.size) (ht : s'.tail = s.tail)
    (hi : s'.inserted = s.inserted ++ [msg]) (hr : s'.removed = s.removed) :
    RingOk s' ∧ s'.undelivered = s.undelivered + 1 := by
  have hle := h.length_le
  have hn : s'.undelivered = s.undelivered + 1 := by
    unfold MboxState.undelivered
    rw [hi, hr, List.length_append, List.length_singleton]
    omega
  have hlt := h.lt
  have hroom : s.undelivered + 1 ≠ s.size := fun he => hfree (h.next_iff.2 he)
  refine ⟨⟨?_, ?_, ?_, ?_⟩, hn⟩
  · rw [ht, hs]
    exact h.tail
  · rw [hn, hs]
    omega
  · have hcontents : Ring.contents s.messages s.size s.tail (s.undelivered + 1) =
        Ring.contents s.messages s.size s.tail s.undelivered ++ [msg] := by
      rw [Ring.contents, List.range_succ, List.map_append, List.map_singleton, ← h.head, hmsg]
      rfl
    rw [hi, hr, hm, hs, ht, hn, hcontents, ← List.append_assoc, ← h.order]
  · rw [hh, ht, hn, hs, h.head, Nat.mod_add_mod, Nat.add_assoc]

theorem RingOk.pop (h : RingOk s) (s' : MboxState T μ) (hpos : 0 < s.undelivered) (hm : s'.messages = s.messages)
    (hs : s'.size = s.size)
    (hh : s'.head = s.head) (ht : s'.tail = (s.tail + 1) % s.size) (hi : s'.inserted = s.inserted)
    (hr : s'.removed = s.removed ++ [s.messages s.tail]) : RingOk s' ∧ s'.undelivered + 1 = s.undelivered := by
  have hn : s'.undelivered = s.undelivered - 1 := by
    unfold MboxState.undelivered at hpos ⊢
    rw [hi, hr, List.length_append, List.length_singleton]
    omega
  have hlt := h.lt
  have htail := h.tail
  refine ⟨⟨?_, ?_, ?_, ?_⟩, by omega⟩
  · rw [ht, hs]
    exact Nat.mod_lt _ (Nat.zero_lt_of_lt htail)
  · rw [hn, hs]
    omega
  · have hcontents : Ring.contents s.messages s.size s.tail s.undelivered = _ := Ring.contents_pop hpos
    rw [Nat.mod_eq_of_lt htail] at hcontents
    rw [hi, hr, hm, hs, ht, hn, List.append_assoc, List.singleton_append, ← hcontents]
    exact h.order
  · rw [hh, ht, hn, hs, h.head, Nat.mod_add_mod]
    congr 1
    omega

end Ring

/-! ## The two semaphores -/

namespace MboxPc

def inside : MboxPc μ → Bool
  | .postCheck .. | .postWrite .. | .postAdvance .. | .postUnlock | .postFull .. => true
  | .takeRead .. | .takeAdvance .. | .takeUnlock .. => true
  | _ => false

/-- With a permit of `m->sem` and without the message it is for. -/
def taking : MboxPc μ → Bool
  | .takeLock .. | .takeRead .. | .takeAdvance .. => true
  | _ => false

def owing : MboxPc μ → Bool
  | .postUnlock | .postSignal => true
  | _ => false

end MboxPc

variable {pc : T → MboxPc μ} {t : T} {p : MboxPc μ} {count mutex n : Nat}

/-- **The mutex excludes**: it is 0 while a task is inside, and one is at most. -/
structure LockOk (mutex : Nat) (pc : T → MboxPc μ) : Prop where
  le : mutex ≤ 1
  zero : ∀ t, (pc t).inside = true → mutex = 0
  one : ∀ t u, (pc t).inside = true → (pc u).inside = true → t = u

/-- **The permits**: those in the semaphore, those of tasks that will take a message and those still to be given are as
many as the messages. -/
def PermitOk (count n : Nat) (pc : T → MboxPc μ) : Prop :=
  ∃ k j, Tally (fun t => (pc t).taking = true) k ∧ Tally (fun t => (pc t).owing = true) j ∧ count + k + j = n

section

variable [DecidableEq T]

theorem LockOk.goto (h : LockOk mutex pc) (hp : p.inside = true → (pc t).inside = true) : LockOk mutex (update pc t p) := by
  have hold : ∀ u, (update pc t p u).inside = true → (pc u).inside = true := by
    intro u hu
    by_cases hut : u = t
    · subst hut
      rw [update_self] at hu
      exact hp hu
    · rwa [update_of_ne hut] at hu
  exact ⟨h.le, fun u hu => h.zero u (hold u hu), fun u v hu hv => h.one u v (hold u hu) (hold v hv)⟩

theorem LockOk.enter (h : LockOk mutex pc) (hpos : 0 < mutex) : LockOk (mutex - 1) (update pc t p) := by
  have hnone : ∀ u, (pc u).inside ≠ true := by
    intro u hu
    rw [h.zero u hu] at hpos
    exact Nat.lt_irrefl 0 hpos
  have hto : ∀ u, (update pc t p u).inside = true → u = t := by
    intro u hu
    by_contra hut
    rw [update_of_ne hut] at hu
    exact hnone u hu
  have hle := h.le
  exact ⟨by omega, fun _ _ => by omega, fun u v hu hv => (hto u hu).trans (hto v hv).symm⟩

theorem LockOk.leave (h : LockOk mutex pc) (ht : (pc t).inside = true) (hp : p.inside = false) :
    LockOk (mutex + 1) (update pc t p) := by
  have hnone : ∀ u, (update pc t p u).inside ≠ true := by
    intro u hu
    by_cases hut : u = t
    · subst hut
      rw [update_self, hp] at hu
      cases hu
    · rw [update_of_ne hut] at hu
      exact hut (h.one u t hu ht)
  have hzero := h.zero t ht
  exact ⟨by omega, fun u hu => absurd hu (hnone u), fun u _ hu => absurd hu (hnone u)⟩

omit [DecidableEq T] in
theorem PermitOk.pos (h : PermitOk count n pc) (ht : (pc t).taking = true) : 0 < n := by
  obtain ⟨k, j, hk, -, hsum⟩ := h
  have := hk.pos ht
  omega

theorem update_iff {f : MboxPc μ → Bool} (u : T) : f (update pc t p u) = true ↔ (u = t ∧ f p = true) ∨
    (u ≠ t ∧ f (pc u) = true) := by
  by_cases hut : u = t
  · subst hut
    simp
  · simp [hut]

theorem tally_same {f : MboxPc μ → Bool} {k : Nat} (h : Tally (fun u => f (pc u) = true) k) (hp : f p = f (pc t)) :
    Tally (fun u => f (update pc t p u) = true) k := by
  apply h.congr
  intro u
  rw [update_iff]
  by_cases hut : u = t
  · subst hut
    simp [hp]
  · simp [hut]

theorem tally_enter {f : MboxPc μ → Bool} {k : Nat} (h : Tally (fun u => f (pc u) = true) k) (ht : f (pc t) = false)
    (hp : f p = true) : Tally (fun u => f (update pc t p u) = true) (k + 1) := by
  refine h.enter (i := t) (by simp [ht]) fun u => ?_
  rw [update_iff]
  by_cases hut : u = t
  · simp [hut, hp]
  · simp [hut]

theorem tally_leave {f : MboxPc μ → Bool} {k : Nat} (h : Tally (fun u => f (pc u) = true) (k + 1)) (ht : f (pc t) = true)
    (hp : f p = false) : Tally (fun u => f (update pc t p u) = true) k := by
  refine h.leave (i := t) ht fun u => ?_
  rw [update_iff]
  simp [hp]

theorem PermitOk.goto (h : PermitOk count n pc) (ht : p.taking = (pc t).taking) (ho : p.owing = (pc t).owing) :
    PermitOk count n (update pc t p) := by
  obtain ⟨k, j, hk, hj, hsum⟩ := h
  exact ⟨k, j, tally_same hk ht, tally_same hj ho, hsum⟩

theorem PermitOk.take (h : PermitOk count n pc) (hpos : 0 < count) (ht : (pc t).taking = false) (hp : p.taking = true)
    (ho : p.owing = (pc t).owing) : PermitOk (count - 1) n (update pc t p) := by
  obtain ⟨k, j, hk, hj, hsum⟩ := h
  exact ⟨k + 1, j, tally_enter hk ht hp, tally_same hj ho, by omega⟩

theorem PermitOk.give (h : PermitOk count n pc) (ho : (pc t).owing = true) (hp : p.owing = false)
    (ht : p.taking = (pc t).taking) : PermitOk (count + 1) n (update pc t p) := by
  obtain ⟨k, j, hk, hj, hsum⟩ := h
  obtain ⟨j', rfl⟩ := Nat.exists_eq_succ_of_ne_zero (hj.pos ho).ne'
  exact ⟨k, j', tally_same hk ht, tally_leave hj ho hp, by omega⟩

theorem PermitOk.inserted (h : PermitOk count n pc) (ho : (pc t).owing = false) (hp : p.owing = true)
    (ht : p.taking = (pc t).taking) : PermitOk count (n + 1) (update pc t p) := by
  obtain ⟨k, j, hk, hj, hsum⟩ := h
  exact ⟨k, j + 1, tally_same hk ht, tally_enter hj ho hp, by omega⟩

theorem PermitOk.removed (h : PermitOk count (n + 1) pc) (ht : (pc t).taking = true) (hp : p.taking = false)
    (ho : p.owing = (pc t).owing) : PermitOk count n (update pc t p) := by
  obtain ⟨k, j, hk, hj, hsum⟩ := h
  obtain ⟨k', rfl⟩ := Nat.exists_eq_succ_of_ne_zero (hk.pos ht).ne'
  exact ⟨k', j, tally_leave hk ht hp, tally_same hj ho, by omega⟩

end

/-! ## What a task knows -/

/-- What the local variables of a task that is inside say of the ring. -/
def Local (s : MboxState T μ) : MboxPc μ → Prop
  | .postWrite _ next => next = (s.head + 1) % s.size ∧ next ≠ s.tail
  | .postAdvance msg next => next = (s.head + 1) % s.size ∧ next ≠ s.tail ∧ s.messages s.head = msg
  | .postFull .. => (s.head + 1) % s.size = s.tail
  | .takeAdvance store got => got = if store then some (s.messages s.tail) else none
  | _ => True

/-- What a call has removed, what it has returned and what it will return. -/
def Got (fetched : List μ) (ret : Option (MboxRet μ)) (stores : Bool) : MboxPc μ → Prop
  | .idle => (∃ m, fetched = [m] ∧ ret = some (.message (if stores then some m else none))) ∨
      fetched = [] ∧ ∀ got, ret ≠ some (.message got)
  | .takeUnlock got => ret = none ∧ ∃ m, fetched = [m] ∧ got = if stores then some m else none
  | .fetchWait store | .fetchTurn store | .tryfetchTurn store | .takeLock store | .takeRead store | .takeAdvance store _ =>
      ret = none ∧ fetched = [] ∧ store = stores
  | _ => ret = none ∧ fetched = []

/-- **The invariant of a mailbox.** -/
structure MboxInv (s : MboxState T μ) : Prop where
  ring : RingOk s
  lock : LockOk s.mutex s.pc
  permits : PermitOk s.count s.undelivered s.pc
  known : ∀ t, Local s (s.pc t)
  got : ∀ t, Got (s.fetched t) (s.ret t) (s.stores t) (s.pc t)

theorem local_of_outside {s : MboxState T μ} (h : p.inside = false) : Local s p := by
  cases p <;> first | exact trivial | cases h

section

variable [DecidableEq T] {s s' : MboxState T μ}

theorem MboxInv.others (h : MboxInv s) (hpc : s'.pc = update s.pc t p)
    (hring : (s.pc t).inside = true ∨ s'.messages = s.messages ∧ s'.head = s.head ∧ s'.tail = s.tail ∧ s'.size = s.size)
    (ht : Local s' p) : ∀ u, Local s' (s'.pc u) := by
  intro u
  by_cases hut : u = t
  · subst hut
    rwa [hpc, update_self]
  · rw [hpc, update_of_ne hut]
    rcases hring with hin | ⟨hm, hh, hta, hs⟩
    · apply local_of_outside
      rw [Bool.eq_false_iff]
      exact fun hu => hut (h.lock.one u t hu hin)
    · have hu := h.known u
      unfold Local at hu ⊢
      rw [hm, hh, hta, hs]
      exact hu

theorem MboxInv.gotOthers (h : MboxInv s) (hpc : s'.pc = update s.pc t p)
    (hf : ∀ u, u ≠ t → s'.fetched u = s.fetched u ∧ s'.ret u = s.ret u ∧ s'.stores u = s.stores u)
    (ht : Got (s'.fetched t) (s'.ret t) (s'.stores t) p) : ∀ u, Got (s'.fetched u) (s'.ret u) (s'.stores u) (s'.pc u) := by
  intro u
  by_cases hut : u = t
  · subst hut
    rwa [hpc, update_self]
  · obtain ⟨hfetched, hret, hstores⟩ := hf u hut
    rw [hpc, update_of_ne hut, hfetched, hret, hstores]
    exact h.got u

theorem MboxInv.goto (h : MboxInv s) (hin : p.inside = true → (s.pc t).inside = true) (htake : p.taking = (s.pc t).taking)
    (howe : p.owing = (s.pc t).owing) (hlocal : Local s p) (hgot : Got (s.fetched t) (s.ret t) (s.stores t) p) :
    MboxInv (s.goto t p) where
  ring := h.ring.congr (fun _ _ => rfl) rfl rfl rfl rfl rfl
  lock := h.lock.goto hin
  permits := h.permits.goto htake howe
  known := h.others rfl (.inr ⟨rfl, rfl, rfl, rfl⟩) hlocal
  got := h.gotOthers rfl (fun _ _ => ⟨rfl, rfl, rfl⟩) hgot

theorem MboxInv.return (h : MboxInv s) {r : MboxRet μ} (htake : (s.pc t).taking = false) (howe : (s.pc t).owing = false)
    (hgot : Got (s.fetched t) (some r) (s.stores t) (.idle : MboxPc μ)) : MboxInv (s.return_ t r) where
  ring := h.ring.congr (fun _ _ => rfl) rfl rfl rfl rfl rfl
  lock := h.lock.goto fun hp => by cases hp
  permits := h.permits.goto htake.symm howe.symm
  known := h.others rfl (.inr ⟨rfl, rfl, rfl, rfl⟩) trivial
  got := by
    apply h.gotOthers (t := t) rfl
    · intro u hut
      exact ⟨rfl, update_of_ne hut .., rfl⟩
    · show Got (s.fetched t) (update s.ret t (some r) t) _ _
      rwa [update_self]

theorem MboxInv.lockMutex (h : MboxInv s) (hpos : 0 < s.mutex) (htake : p.taking = (s.pc t).taking)
    (howe : p.owing = (s.pc t).owing) (hlocal : Local s p) (hgot : Got (s.fetched t) (s.ret t) (s.stores t) p) :
    MboxInv { s.goto t p with mutex := s.mutex - 1 } where
  ring := h.ring.congr (fun _ _ => rfl) rfl rfl rfl rfl rfl
  lock := h.lock.enter hpos
  permits := h.permits.goto htake howe
  known := h.others rfl (.inr ⟨rfl, rfl, rfl, rfl⟩) hlocal
  got := h.gotOthers rfl (fun _ _ => ⟨rfl, rfl, rfl⟩) hgot

theorem MboxInv.unlockMutex (h : MboxInv s) (hin : (s.pc t).inside = true) (hout : p.inside = false)
    (htake : p.taking = (s.pc t).taking) (howe : p.owing = (s.pc t).owing)
      (hgot : Got (s.fetched t) (s.ret t) (s.stores t) p) :
    MboxInv { s.goto t p with mutex := s.mutex + 1 } where
  ring := h.ring.congr (fun _ _ => rfl) rfl rfl rfl rfl rfl
  lock := h.lock.leave hin hout
  permits := h.permits.goto htake howe
  known := h.others rfl (.inr ⟨rfl, rfl, rfl, rfl⟩) (local_of_outside hout)
  got := h.gotOthers rfl (fun _ _ => ⟨rfl, rfl, rfl⟩) hgot

theorem MboxInv.unlockReturn (h : MboxInv s) {r : MboxRet μ} (hin : (s.pc t).inside = true)
    (htake : (s.pc t).taking = false) (howe : (s.pc t).owing = false)
    (hgot : Got (s.fetched t) (some r) (s.stores t) (.idle : MboxPc μ)) :
    MboxInv { s.return_ t r with mutex := s.mutex + 1 } where
  ring := h.ring.congr (fun _ _ => rfl) rfl rfl rfl rfl rfl
  lock := h.lock.leave hin rfl
  permits := h.permits.goto htake.symm howe.symm
  known := h.others rfl (.inr ⟨rfl, rfl, rfl, rfl⟩) trivial
  got := by
    apply h.gotOthers (t := t) rfl
    · intro u hut
      exact ⟨rfl, update_of_ne hut .., rfl⟩
    · show Got (s.fetched t) (update s.ret t (some r) t) _ _
      rwa [update_self]

theorem MboxInv.permit (h : MboxInv s) {store : Bool} (hpos : 0 < s.count)
    (htake : (s.pc t).taking = false) (howe : (s.pc t).owing = false)
    (hgot : Got (s.fetched t) (s.ret t) (s.stores t) (.takeLock store : MboxPc μ)) :
    MboxInv { s.goto t (.takeLock store) with count := s.count - 1 } where
  ring := h.ring.congr (fun _ _ => rfl) rfl rfl rfl rfl rfl
  lock := h.lock.goto fun hp => by cases hp
  permits := h.permits.take hpos htake rfl howe.symm
  known := h.others rfl (.inr ⟨rfl, rfl, rfl, rfl⟩) trivial
  got := h.gotOthers rfl (fun _ _ => ⟨rfl, rfl, rfl⟩) hgot

theorem MboxInv.signal (h : MboxInv s) (hpc : s.pc t = .postSignal) :
    MboxInv { s.return_ t .ok with count := s.count + 1 } where
  ring := h.ring.congr (fun _ _ => rfl) rfl rfl rfl rfl rfl
  lock := h.lock.goto fun hp => by cases hp
  permits := h.permits.give (by rw [hpc]; rfl) rfl (by rw [hpc]; rfl)
  known := h.others rfl (.inr ⟨rfl, rfl, rfl, rfl⟩) trivial
  got := by
    have ht := h.got t
    rw [hpc] at ht
    apply h.gotOthers (t := t) rfl
    · intro u hut
      exact ⟨rfl, update_of_ne hut .., rfl⟩
    · show Got (s.fetched t) (update s.ret t (some .ok) t) _ _
      rw [update_self]
      exact .inr ⟨ht.2, fun _ he => by cases he⟩

theorem MboxInv.write (h : MboxInv s) {msg : μ} {next : Nat} (hpc : s.pc t = .postWrite msg next) :
    MboxInv { s.goto t (.postAdvance msg next) with messages := update s.messages s.head msg } where
  ring := h.ring.congr (fun i hi => update_of_ne (h.ring.head_free hi) _ _) rfl rfl rfl rfl rfl
  lock := h.lock.goto fun _ => by rw [hpc]; rfl
  permits := h.permits.goto (by rw [hpc]; rfl) (by rw [hpc]; rfl)
  known := by
    have ht := h.known t
    rw [hpc] at ht
    refine h.others rfl (.inl (by rw [hpc]; rfl)) ⟨ht.1, ht.2, ?_⟩
    exact update_self ..
  got := by
    have ht := h.got t
    rw [hpc] at ht
    exact h.gotOthers rfl (fun _ _ => ⟨rfl, rfl, rfl⟩) ht

theorem MboxInv.advance (h : MboxInv s) {msg : μ} {next : Nat} (hpc : s.pc t = .postAdvance msg next) :
    MboxInv { s.goto t .postUnlock with head := next, inserted := s.inserted ++ [msg] } := by
  have ht := h.known t
  rw [hpc] at ht
  obtain ⟨rfl, hfree, hmsg⟩ := ht
  obtain ⟨hring, hn⟩ := h.ring.push
    { s.goto t .postUnlock with head := (s.head + 1) % s.size, inserted := s.inserted ++ [msg] }
    hfree hmsg rfl rfl rfl rfl rfl rfl
  constructor
  · exact hring
  · exact h.lock.goto fun _ => by rw [hpc]; rfl
  · rw [hn]
    exact h.permits.inserted (by rw [hpc]; rfl) rfl (by rw [hpc]; rfl)
  · exact h.others rfl (.inl (by rw [hpc]; rfl)) trivial
  · have hgot := h.got t
    rw [hpc] at hgot
    exact h.gotOthers rfl (fun _ _ => ⟨rfl, rfl, rfl⟩) hgot

theorem MboxInv.remove (h : MboxInv s) {store : Bool} {got : Option μ} (hpc : s.pc t = .takeAdvance store got) :
    MboxInv { s.goto t (.takeUnlock got) with
      tail := (s.tail + 1) % s.size
      removed := s.removed ++ [s.messages s.tail]
      fetched := update s.fetched t (s.fetched t ++ [s.messages s.tail]) } := by
  have hpos := h.permits.pos (t := t) (by rw [hpc]; rfl)
  obtain ⟨hring, hn⟩ := h.ring.pop
    { s.goto t (.takeUnlock got) with
      tail := (s.tail + 1) % s.size
      removed := s.removed ++ [s.messages s.tail]
      fetched := update s.fetched t (s.fetched t ++ [s.messages s.tail]) } hpos rfl rfl rfl rfl rfl rfl
  have hpermits := h.permits
  rw [← hn] at hpermits
  constructor
  · exact hring
  · exact h.lock.goto fun _ => by rw [hpc]; rfl
  · exact hpermits.removed (by rw [hpc]; rfl) rfl (by rw [hpc]; rfl)
  · exact h.others rfl (.inl (by rw [hpc]; rfl)) trivial
  · have hgot := h.got t
    have hlocal := h.known t
    rw [hpc] at hgot hlocal
    apply h.gotOthers (t := t) rfl
    · intro u hut
      exact ⟨update_of_ne hut .., rfl, rfl⟩
    · obtain ⟨hret, hnone, hstore⟩ := hgot
      show Got (update s.fetched t (s.fetched t ++ [s.messages s.tail]) t) (s.ret t) (s.stores t) _
      rw [update_self, hnone, ← hstore]
      exact ⟨hret, s.messages s.tail, rfl, hlocal⟩

theorem MboxInv.exec (h : MboxInv s) (t : T) (expired : Bool) : MboxInv (s.exec t expired) := by
  have hlocal := h.known t
  have hgot := h.got t
  unfold MboxState.exec
  cases hpc : s.pc t <;> rw [hpc] at hlocal hgot <;> dsimp only
  case idle => exact h
  case postLock trying msg =>
    split
    · rename_i hpos
      exact h.lockMutex hpos (by rw [hpc]; rfl) (by rw [hpc]; rfl) trivial hgot
    · exact h
  case postCheck trying msg =>
    split
    · rename_i hne
      exact h.goto (fun _ => by rw [hpc]; rfl) (by rw [hpc]; rfl) (by rw [hpc]; rfl) ⟨rfl, hne⟩ hgot
    · rename_i heq
      exact h.goto (fun _ => by rw [hpc]; rfl) (by rw [hpc]; rfl) (by rw [hpc]; rfl) (not_not.1 heq) hgot
  case postWrite msg next => exact h.write hpc
  case postAdvance msg next => exact h.advance hpc
  case postUnlock => exact h.unlockMutex (by rw [hpc]; rfl) rfl (by rw [hpc]; rfl) (by rw [hpc]; rfl) hgot
  case postSignal => exact h.signal hpc
  case postFull trying msg =>
    split
    · exact h.unlockReturn (by rw [hpc]; rfl) (by rw [hpc]; rfl) (by rw [hpc]; rfl)
        (.inr ⟨hgot.2, fun _ he => by cases he⟩)
    · exact h.unlockMutex (by rw [hpc]; rfl) rfl (by rw [hpc]; rfl) (by rw [hpc]; rfl) hgot
  case fetchWait store =>
    split
    · rename_i hpos
      exact h.permit hpos (by rw [hpc]; rfl) (by rw [hpc]; rfl) hgot
    · exact h
  case fetchTurn store =>
    split
    · rename_i hpos
      exact h.permit hpos (by rw [hpc]; rfl) (by rw [hpc]; rfl) hgot
    · split
      · exact h.return (by rw [hpc]; rfl) (by rw [hpc]; rfl) (.inr ⟨hgot.2.1, fun _ he => by cases he⟩)
      · exact h
  case tryfetchTurn store =>
    split
    · rename_i hpos
      exact h.permit hpos (by rw [hpc]; rfl) (by rw [hpc]; rfl) hgot
    · exact h.return (by rw [hpc]; rfl) (by rw [hpc]; rfl) (.inr ⟨hgot.2.1, fun _ he => by cases he⟩)
  case takeLock store =>
    split
    · rename_i hpos
      exact h.lockMutex hpos (by rw [hpc]; rfl) (by rw [hpc]; rfl) trivial hgot
    · exact h
  case takeRead store => exact h.goto (fun _ => by rw [hpc]; rfl) (by rw [hpc]; rfl) (by rw [hpc]; rfl) rfl hgot
  case takeAdvance store got => exact h.remove hpc
  case takeUnlock got =>
    obtain ⟨-, m, hf, hgot⟩ := hgot
    apply h.unlockReturn (by rw [hpc]; rfl) (by rw [hpc]; rfl) (by rw [hpc]; rfl)
    left
    exact ⟨m, hf, by rw [hgot]⟩

theorem MboxInv.call (h : MboxInv s) (hpc : s.pc t = .idle) (c : MboxCall μ) : MboxInv (s.call t c) := by
  have hflags : c.entry.inside = false ∧ c.entry.taking = false ∧ c.entry.owing = false := by
    cases c with
    | fetch store timed => cases timed <;> exact ⟨rfl, rfl, rfl⟩
    | _ => exact ⟨rfl, rfl, rfl⟩
  constructor
  · exact h.ring.congr (fun _ _ => rfl) rfl rfl rfl rfl rfl
  · apply h.lock.goto
    rw [hflags.1]
    exact fun hp => by cases hp
  · apply h.permits.goto
    · rw [hflags.2.1, hpc]
      rfl
    · rw [hflags.2.2, hpc]
      rfl
  · exact h.others rfl (.inr ⟨rfl, rfl, rfl, rfl⟩) (local_of_outside hflags.1)
  · apply h.gotOthers (t := t) rfl
    · intro u hut
      exact ⟨update_of_ne hut .., update_of_ne hut .., update_of_ne hut ..⟩
    · show Got (update s.fetched t [] t) (update s.ret t none t) (update s.stores t c.stores t) _
      rw [update_self, update_self, update_self]
      cases c with
      | fetch store timed => cases timed <;> exact ⟨rfl, rfl, rfl⟩
      | tryfetch store => exact ⟨rfl, rfl, rfl⟩
      | _ => exact ⟨rfl, rfl⟩

omit [DecidableEq T] in
theorem MboxInv.new (messages : Nat → μ) (size : Int) : MboxInv (sysMboxNew messages size : MboxState T μ) := by
  have hsize : 0 < (sysMboxNew messages size : MboxState T μ).size := by
    unfold sysMboxNew
    dsimp only
    split <;> omega
  constructor
  · exact ⟨hsize, hsize, rfl, (Nat.zero_mod _).symm⟩
  · refine ⟨Nat.le_refl 1, fun t ht => ?_, fun t u ht => ?_⟩
    · cases ht
    · cases ht
  · exact ⟨0, 0, Tally.none fun t ht => (by cases ht), Tally.none fun t ht => (by cases ht), rfl⟩
  · exact fun t => trivial
  · exact fun t => .inr ⟨rfl, fun got he => by cases he⟩

theorem MboxInv.reachable {messages : Nat → μ} {size : Int} (h : MboxReachable messages size s) : MboxInv s := by
  induction h with
  | refl => exact MboxInv.new messages size
  | tail _ hs ih =>
    cases hs with
    | call t c hpc => exact ih.call hpc c
    | exec t expired => exact ih.exec t expired

theorem exec_errMem {expired : Bool} (h : MboxInv s) (hpc : s.pc t ≠ .idle) (hr : (s.exec t expired).ret t = some .errMem) :
    ∃ msg, s.pc t = .postFull true msg := by
  have hgot := h.got t
  unfold MboxState.exec at hr
  cases hp : s.pc t <;> rw [hp] at hgot hr <;> dsimp only at hr
  case idle => exact absurd hp hpc
  case postFull trying msg =>
    cases trying
    · rw [if_neg (by decide)] at hr
      cases hgot.1.symm.trans hr
    · exact ⟨msg, rfl⟩
  all_goals
    revert hr
    repeat' split
    all_goals
      intro hr
      first
      | cases hgot.1.symm.trans hr
      | cases (update_self t _ s.ret).symm.trans hr

/-- **The mailbox delivers**, in every state of every run: what was removed is what was inserted first; a message is
written where no undelivered one is; a fetch removes a message that is there; a `trypost` that returns `ERR_MEM` leaves a
full ring; and a call that returned anything but a message has removed none, one that returned a message that one, and has
stored it where the caller has a place for it. -/
theorem mbox_delivers (messages : Nat → μ) (size : Int) (s : MboxState T μ) (h : MboxReachable messages size s) :
    s.removed <+: s.inserted ∧
    (∀ t msg next, s.pc t = .postWrite msg next → ∀ i < s.undelivered, (s.tail + i) % s.size ≠ s.head) ∧
    (∀ t, (∃ store, s.pc t = .takeRead store) ∨ (∃ store got, s.pc t = .takeAdvance store got) →
      0 < s.undelivered ∧ s.head ≠ s.tail) ∧
    (∀ t expired, s.pc t ≠ .idle → (s.exec t expired).ret t = some .errMem →
      s.undelivered = s.size - 1 ∧ (s.exec t expired).undelivered = s.size - 1) ∧
    ∀ t, (∀ got, s.ret t = some (.message got) → ∃ m, s.fetched t = [m] ∧ got = if s.stores t then some m else none) ∧
      (∀ r, s.ret t = some r → (∀ got, r ≠ .message got) → s.fetched t = []) := by
  have hinv := MboxInv.reachable h
  refine ⟨hinv.ring.isPrefix, fun t msg next _ i hi => hinv.ring.head_free hi, fun t ht => ?_, fun t expired hpc hr => ?_,
    fun t => ⟨fun got hr => ?_, fun r hr hne => ?_⟩⟩
  · have htaking : (s.pc t).taking = true := by
      rcases ht with ⟨store, ht⟩ | ⟨store, got, ht⟩ <;> rw [ht] <;> rfl
    have hpos := hinv.permits.pos htaking
    refine ⟨hpos, fun he => ?_⟩
    have hfree := hinv.ring.head_free hpos
    rw [Nat.add_zero, Nat.mod_eq_of_lt hinv.ring.tail] at hfree
    exact hfree he.symm
  · obtain ⟨msg, hp⟩ := exec_errMem hinv hpc hr
    have hfull := hinv.known t
    rw [hp] at hfull
    have hn := hinv.ring.next_iff.1 hfull
    have hexec : (s.exec t expired).undelivered = s.undelivered := by
      unfold MboxState.exec
      rw [hp]
      rfl
    rw [hexec]
    exact ⟨by omega, by omega⟩
  · have hgot := hinv.got t
    cases hp : s.pc t <;> rw [hp, hr] at hgot
    case idle =>
      rcases hgot with ⟨m, hf, hm⟩ | ⟨-, hno⟩
      · cases hm
        exact ⟨m, hf, rfl⟩
      · exact absurd rfl (hno got)
    all_goals cases hgot.1
  · have hgot := hinv.got t
    cases hp : s.pc t <;> rw [hp, hr] at hgot
    case idle =>
      rcases hgot with ⟨m, -, hm⟩ | ⟨hf, -⟩
      · exact absurd (Option.some.inj hm) (hne _)
      · exact hf
    all_goals cases hgot.1

end

def fetchedOne : MboxState Nat Nat :=
  let s := (sysMboxNew (fun _ => 0) 2 : MboxState Nat Nat).call 0 (.post 5)
  let s := [0, 0, 0, 0, 0, 0].foldl (fun s t => s.exec t false) s
  [1, 1, 1, 1, 1].foldl (fun s t => s.exec t false) (s.call 1 (.fetch true true))

theorem mbox_delivers_one :
    fetchedOne.ret 1 = some (.message (some 5)) ∧ fetchedOne.removed <+: fetchedOne.inserted ∧
      ∃ m, fetchedOne.fetched 1 = [m] ∧ some 5 = if fetchedOne.stores 1 then some m else none := by
  have hexec : ∀ (ts : List Nat) {s : MboxState Nat Nat}, MboxReachable (fun _ => 0) 2 s →
      MboxReachable (fun _ => 0) 2 (ts.foldl (fun s t => s.exec t false) s) := by
    intro ts
    induction ts with
    | nil => exact id
    | cons t ts ih => exact fun h => ih (h.tail (.exec _ t false))
  have hpost := hexec [0, 0, 0, 0, 0, 0] (Relation.ReflTransGen.refl.tail (.call _ 0 (.post 5) rfl))
  have hfetch := hexec [1, 1, 1, 1, 1] (hpost.tail (.call _ 1 (.fetch true true) rfl))
  have h := mbox_delivers (fun _ => 0) 2 fetchedOne hfetch
  exact ⟨rfl, h.1, (h.2.2.2.2 1).1 (some 5) rfl⟩

end EterOS.Net
