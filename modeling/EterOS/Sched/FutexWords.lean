import EterOS.Sched.Futex
/-!
# FutexWords — which word a wake is for

`futex_wake` finds its waiters by the virtual address, and without `FUTEX_PRIVATE_FLAG` by nothing else.  A waiter on
the same address in another address space is on another word; a waiter on the same word at another address is not found.
-/
namespace EterOS.Sched
namespace Futexes

open Function (update update_self update_of_ne)

variable {m : AddrSpaces} {s : Futexes} {t u : Nat} {a : WakeArgs} {b : Fin 16} {x : FutexNode}

/-- The waiter is on the word of a `futex_wake`. -/
def onWord (m : AddrSpaces) (t : Nat) (a : WakeArgs) (x : FutexNode) : Bool :=
  m.word (m.cr3 x.task) x.uaddr = m.word (m.cr3 t) a.uaddr

/-- The waiters on the word of a `futex_wake`, wherever they are queued. -/
def waiters (m : AddrSpaces) (s : Futexes) (t : Nat) (a : WakeArgs) : List FutexNode :=
  (List.finRange 16).flatMap fun b => (s.nodes b).filter fun x => onWord m t a x && x.bitset &&& a.bitset ≠ 0

/-- A `futex_wake` wakes no waiter on another word; without the private flag it wakes as many of the waiters on its word
as its count says, where they wait without it too. -/
structure Separate (m : AddrSpaces) (s s' : Futexes) (t : Nat) (a : WakeArgs) : Prop where
  other : ∀ x, Removed s s' x → onWord m t a x = true
  /-- It wakes no other task either. -/
  asleep : ∀ u, s.blocked u = true → s'.blocked u = false → ∃ x, Removed s s' x ∧ x.task = u
  shared : a.priv = false → (∀ x ∈ waiters m s t a, x.priv = false) →
    ∃ l, l.Nodup ∧ l ⊆ waiters m s t a ∧ l.length = min a.count.toNat (waiters m s t a).length ∧ ∀ x ∈ l, Removed s s' x

/-- Those its test selects first wait on its word, and as many as it asks for of those on its word wait at its address. -/
structure Aimed (m : AddrSpaces) (s : Futexes) (t : Nat) (a : WakeArgs) : Prop where
  other : ∀ x ∈ (selected m s t a).take a.count.toNat, onWord m t a x = true
  shared : (∀ x ∈ waiters m s t a, x.priv = false) →
    min a.count.toNat (waiters m s t a).length ≤ ((waiters m s t a).filter fun x => x.uaddr = a.uaddr).length

/-- Each `futex_wake` of a run, where it has scanned its bucket. -/
def Wakes (m : AddrSpaces) (P : Futexes → Nat → WakeArgs → Prop) (s : Futexes) (act : FutexAct) : Prop :=
  ∀ t a k, act = .go t → s.pc t = .waking a → (s.act m act).2 = some (.count k) → P s t a

theorem mem_waiters : x ∈ waiters m s t a ↔ (∃ b, x ∈ s.nodes b) ∧ onWord m t a x = true ∧ x.bitset &&& a.bitset ≠ 0 := by
  simp only [waiters, List.mem_flatMap, List.mem_finRange, true_and, List.mem_filter, Bool.and_eq_true, decide_eq_true_iff]
  constructor
  · rintro ⟨b, hb, h⟩
    exact ⟨⟨b, hb⟩, h⟩
  · rintro ⟨⟨b, hb⟩, h⟩
    exact ⟨b, hb, h⟩

theorem onWord_of_private (hp : a.priv = true) (hx : selects m t a x = true) : onWord m t a x = true := by
  simp only [selects, Bool.and_eq_true, Bool.or_eq_true, Bool.not_eq_eq_eq_not, Bool.not_true, decide_eq_true_iff] at hx
  obtain ⟨⟨hu, hcr3⟩, -⟩ := hx
  rw [hp, or_iff_right Bool.true_eq_false.mp] at hcr3
  rw [onWord, decide_eq_true_iff, hu, hcr3]

theorem mem_selected_of_uaddr (h : Inv m s) (hp : a.priv = false) (hx : x ∈ s.nodes b) (hxp : x.priv = false)
    (hu : x.uaddr = a.uaddr) (hbits : x.bitset &&& a.bitset ≠ 0) : x ∈ selected m s t a := by
  refine (h.mem_selected hx ⟨hu, hxp.trans hp.symm, fun ha => ?_, hbits⟩).2
  rw [hp] at ha
  cases ha

theorem Inv.waiters_nodup (h : Inv m s) : (waiters m s t a).Nodup := by
  refine List.nodup_flatMap.2 ⟨fun b _ => ((h.nodup b).of_map _).filter _, ?_⟩
  refine (List.nodup_finRange 16).imp fun {b c} hbc x hb hc => ?_
  obtain ⟨v, hv, -, -, hbv⟩ := h.owner b x (List.mem_of_mem_filter hb)
  obtain ⟨w, hw, -, -, hcw⟩ := h.owner c x (List.mem_of_mem_filter hc)
  obtain rfl := Option.some.inj (hv.symm.trans hw)
  exact hbc (hbv.trans hcw.symm)

/-- **One wake**: it keeps to its word just when its waiters are so queued. -/
theorem Inv.separate_iff (h : Inv m s) {s' : Futexes} (hw : Woke m s s' t a ((selected m s t a).take a.count.toNat))
    (hasleep : ∀ u, s.blocked u = true → s'.blocked u = false → ∃ x ∈ (selected m s t a).take a.count.toNat, x.task = u) :
    Separate m s s' t a ↔ (a.priv = false → Aimed m s t a) := by
  have hsel : ∀ {x}, selects m t a x = true → x.uaddr = a.uaddr ∧ x.bitset &&& a.bitset ≠ 0 := by
    intro x hx
    rw [selects, Bool.and_eq_true, Bool.and_eq_true] at hx
    exact ⟨of_decide_eq_true hx.1.1, of_decide_eq_true hx.2⟩
  constructor
  · intro hsep hp
    refine ⟨fun x hx => hsep.other x ((hw.removed x).1 hx), fun hpriv => ?_⟩
    obtain ⟨l, hnodup, hsub, hlen, hrem⟩ := hsep.shared hp hpriv
    rw [← hlen]
    refine (List.subperm_of_subset hnodup fun x hx => List.mem_filter.2 ⟨hsub hx, ?_⟩).length_le
    exact decide_eq_true (hsel (hw.matching x ((hw.removed x).2 (hrem x hx))).1).1
  · intro haim
    refine ⟨fun x hx => ?_, fun u hu hu' => ?_, fun hp hpriv => ?_⟩
    · have hmem := (hw.removed x).2 hx
      cases hp : a.priv with
      | false => exact (haim hp).other x hmem
      | true => exact onWord_of_private hp (hw.matching x hmem).1
    · obtain ⟨x, hx, hxu⟩ := hasleep u hu hu'
      exact ⟨x, (hw.removed x).1 hx, hxu⟩
    · -- the removed are waiters on the word, and those on the word at the address are selected
      have hgone : (selected m s t a).take a.count.toNat ⊆ waiters m s t a := by
        intro x hx
        have hxsel := List.mem_filter.1 (List.mem_of_mem_take hx)
        exact mem_waiters.2 ⟨⟨_, hxsel.1⟩, (haim hp).other x hx, (hsel hxsel.2).2⟩
      have hsub : ((waiters m s t a).filter fun x => x.uaddr = a.uaddr) ⊆ selected m s t a := by
        intro x hx
        obtain ⟨hxw, hu⟩ := List.mem_filter.1 hx
        obtain ⟨⟨b, hb⟩, -, hbits⟩ := mem_waiters.1 hxw
        exact mem_selected_of_uaddr h hp hb (hpriv x hxw) (of_decide_eq_true hu) hbits
      have hcount : min a.count.toNat (waiters m s t a).length ≤ (selected m s t a).length :=
        Nat.le_trans ((haim hp).shared hpriv) (List.subperm_of_subset (h.waiters_nodup.filter _) hsub).length_le
      refine ⟨((selected m s t a).take a.count.toNat).take (min a.count.toNat (waiters m s t a).length),
        hw.nodup.sublist (List.take_sublist _ _), fun x hx => hgone (List.mem_of_mem_take hx), ?_,
        fun x hx => (hw.removed x).1 (List.mem_of_mem_take hx)⟩
      rw [List.length_take, List.length_take]
      exact Nat.min_eq_left (Nat.le_min.2 ⟨Nat.min_le_left _ _, hcount⟩)

theorem advance_count {k : Nat} (ht : s.pc t = .waking a) (hr : (s.advance m t).2 = some (.count k)) :
    s.lock (futexHash m t a.uaddr a.priv) = none ∧ (s.advance m t).1 = (s.scan m t a).1 := by
  unfold advance at hr ⊢
  rw [ht] at hr ⊢
  dsimp only at hr ⊢
  split at hr
  · cases hr
  · rw [if_neg ‹_›]
    split at hr
    · rw [if_pos ‹_›]
      exact ⟨‹_›, rfl⟩
    · cases hr

theorem scan_blocked (hu : s.blocked u = true) (hu' : (s.scan m t a).1.blocked u = false) :
    ∃ x ∈ (selected m s t a).take a.count.toNat, x.task = u := by
  have hr : (wakeScan (selects m t a) a.count.toNat (s.nodes (futexHash m t a.uaddr a.priv))).2 =
      (selected m s t a).take a.count.toNat := wakeScan_removed ..
  change (s.blocked u && !((wakeScan (selects m t a) a.count.toNat (s.nodes (futexHash m t a.uaddr a.priv))).2.any
    fun x => x.task = u)) = false at hu'
  rw [hu, Bool.true_and, hr, Bool.not_eq_false'] at hu'
  obtain ⟨x, hx, hxu⟩ := List.any_eq_true.1 hu'
  exact ⟨x, hx, of_decide_eq_true hxu⟩

theorem Inv.wakes_iff (h : Inv m s) (act : FutexAct) : Wakes m (fun s t a => Separate m s (s.step m act) t a) s act ↔
      Wakes m (fun s t a => a.priv = false → Aimed m s t a) s act := by
  refine forall_congr' fun t => forall_congr' fun a => forall_congr' fun k => ?_
  refine forall_congr' fun hact => forall_congr' fun ht => forall_congr' fun hr => ?_
  subst hact
  obtain ⟨hfree, hstep⟩ := advance_count ht hr
  have hstep : s.step m (.go t) = (s.scan m t a).1 := hstep
  change Separate m s (s.step m (.go t)) t a ↔ (a.priv = false → Aimed m s t a)
  rw [hstep]
  exact h.separate_iff (h.woke hfree) fun u hu hu' => scan_blocked hu hu'

/-- **Futex words**: in every run, each `futex_wake` keeps to its word just when it is private, or its waiters are so
queued. -/
theorem wakes_keep_to_their_word (m : AddrSpaces) (mem : Nat → UInt32) (ticks : UInt64) (pending : Nat → Bool)
    (acts : List FutexAct) :
    Run.Guarded (step m) (fun s act => Wakes m (fun s t a => Separate m s (s.step m act) t a) s act)
      (boot mem ticks pending) acts ↔
    Run.Guarded (step m) (Wakes m fun s t a => a.priv = false → Aimed m s t a) (boot mem ticks pending) acts := by
  constructor
  · exact Run.guarded_imp (P := Inv m) (fun s act h hc => ⟨h.step act, (h.wakes_iff act).1 hc⟩) acts _
      (boot_inv mem ticks pending)
  · exact Run.guarded_imp (P := Inv m) (fun s act h hc => ⟨h.step act, (h.wakes_iff act).2 hc⟩) acts _
      (boot_inv mem ticks pending)

def ownSpaces : AddrSpaces where
  cr3 := fun t => 0x1000 * t.toUInt64
  word := fun cr3 uaddr => (cr3 + uaddr).toNat

def sharedWord : AddrSpaces where
  cr3 := fun t => 0x1000 * t.toUInt64
  word := fun _ _ => 0

/-- Task 2 is in `futex_wake`, after task 1 has waited. -/
def oneWakes (m : AddrSpaces) (waitAt wakeAt : UInt64) : Futexes :=
  (oneWaits m waitAt false).step m (.wake 2 (anyWake wakeAt 1 false))

/-- A wake at the same address removes the waiter of another address space, and a shared word is not woken from another
address. -/
theorem wakes_astray :
    (onWord ownSpaces 2 (anyWake 0x100 1 false) ⟨0, 1, 0x100, 0xffffffff, false⟩ = false ∧
      Removed (oneWakes ownSpaces 0x100 0x100) ((oneWakes ownSpaces 0x100 0x100).step ownSpaces (.go 2))
        ⟨0, 1, 0x100, 0xffffffff, false⟩) ∧
    waiters sharedWord (oneWakes sharedWord 0x100 0x200) 2 (anyWake 0x200 1 false) =
      [⟨0, 1, 0x100, 0xffffffff, false⟩] ∧
    ((oneWakes sharedWord 0x100 0x200).act sharedWord (.go 2)).2 = some (.count 0) ∧
    ∃ b, (⟨0, 1, 0x100, 0xffffffff, false⟩ : FutexNode) ∈
      ((oneWakes sharedWord 0x100 0x200).step sharedWord (.go 2)).nodes b := by
  refine ⟨⟨by decide +kernel, ⟨0, by decide +kernel⟩, by decide +kernel⟩, by decide +kernel, by decide +kernel,
    0, by decide +kernel⟩

end Futexes
end EterOS.Sched
