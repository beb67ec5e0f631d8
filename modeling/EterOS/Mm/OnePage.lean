import EterOS.Mm.PageTree
/-!
# OnePage — mapping and unmapping change one page

`get_next_table` makes a table that leads nowhere, or one of 512 entries in place of a 2 MB page.  The first changes what no
address finds; the second neither, where the entry of the 2 MB page has a base on a 2 MB border and nothing above bit 51 that
`vmm_virt_to_phys` takes for a part of the address.  What is left is the one entry written.
-/
namespace EterOS.Mm

/-! ## The huge page of an address -/

/-- The huge page a walk comes to: how many levels above the pages of 4 KB, and its entry. -/
def hugeFrom (m : Nat → Nat → BitVec 64) : Nat → Nat → Nat → Option (Nat × BitVec 64)
  | 0, _, _ => none
  | level + 1, table, virt =>
    let e := m table (indexAt (level + 1) virt)
    if level = 0 ∨ !present e then none
    else if level < 3 ∧ huge e then some (level, e)
    else hugeFrom m level (frameOf e) virt

def hugeAt (m : Nat → Nat → BitVec 64) (cr3 virt : Nat) : Option (Nat × BitVec 64) := hugeFrom m 4 cr3 virt

def missingFrom (m : Nat → Nat → BitVec 64) : Nat → Nat → Nat → Nat
  | 0, _, _ => 0
  | level + 1, table, virt =>
    let e := m table (indexAt (level + 1) virt)
    if level = 0 then 0
    else if !present e then level
    else if level < 3 ∧ huge e then 1
    else missingFrom m level (frameOf e) virt

def tablesToMake (m : Nat → Nat → BitVec 64) (cr3 virt : Nat) : Nat := missingFrom m 4 cr3 virt

/-- The entry of a 2 MB page whose bits 12 to 20 and 52 to 59 are clear. -/
def Plain (e : BitVec 64) : Prop := e.toNat / 2 ^ 12 % 2 ^ 9 = 0 ∧ e.toNat / 2 ^ 52 % 2 ^ 8 = 0

instance (e : BitVec 64) : Decidable (Plain e) := inferInstanceAs (Decidable (_ ∧ _))

/-! ## Entries as numbers -/

theorem and_field (n a b : Nat) : n &&& ((2 ^ a - 1) * 2 ^ b) = n / 2 ^ b % 2 ^ a * 2 ^ b := by
  apply Nat.eq_of_testBit_eq
  intro i
  rw [Nat.testBit_and, Nat.testBit_mul_two_pow, Nat.testBit_mul_two_pow, Nat.testBit_mod_two_pow, Nat.testBit_div_two_pow,
    Nat.testBit_two_pow_sub_one]
  by_cases hb : b ≤ i
  · simp only [hb, decide_true, Bool.true_and, Nat.sub_add_cancel hb]
    exact Bool.and_comm ..
  · simp [hb]

theorem frameOf_eq (e : BitVec 64) : frameOf e = e.toNat / 2 ^ 12 % 2 ^ 40 := by
  unfold frameOf PAGE_SIZE
  rw [BitVec.toNat_and, show PAGE_ADDR_MASK.toNat = (2 ^ 40 - 1) * 2 ^ 12 from by decide, and_field]
  omega

theorem bigBase_eq (e : BitVec 64) : (e &&& 0xFFFFFFFFFE00000#64).toNat = e.toNat / 2 ^ 21 % 2 ^ 39 * 2 ^ 21 := by
  rw [BitVec.toNat_and, show (0xFFFFFFFFFE00000#64).toNat = (2 ^ 39 - 1) * 2 ^ 21 from by decide, and_field]

theorem frameOf_split (e : BitVec 64) {k : Nat} (hk : k < 512) :
    frameOf (Vm.splitTable e k) = (e.toNat / 2 ^ 12 % 2 ^ 40 + k) % 2 ^ 40 := by
  unfold Vm.splitTable
  rw [frameOf_or, frameOf_eq, BitVec.toNat_add, BitVec.toNat_and, BitVec.toNat_ofNat,
    show PAGE_ADDR_MASK.toNat = (2 ^ 40 - 1) * 2 ^ 12 from by decide, and_field]
  · unfold PAGE_SIZE
    omega
  · have hmask := flagsOf_mask e
    rw [BitVec.and_assoc, BitVec.and_comm (~~~PAGE_HUGE), ← BitVec.and_assoc, hmask, BitVec.zero_and]

theorem not_huge_bit : ∀ j < 12, j ≠ 7 → (~~~PAGE_HUGE).getLsbD j = true := by decide

theorem split_bit (e : BitVec 64) (k : Nat) {j : Nat} (hj : j < 12) (h7 : j ≠ 7) :
    (Vm.splitTable e k).getLsbD j = e.getLsbD j := by
  have hbase : ((e &&& PAGE_ADDR_MASK) + BitVec.ofNat 64 (k * PAGE_SIZE)).getLsbD j = false := by
    have hdvd : ((e &&& PAGE_ADDR_MASK) + BitVec.ofNat 64 (k * PAGE_SIZE)).toNat % 2 ^ 12 = 0 := by
      rw [BitVec.toNat_add, BitVec.toNat_and, BitVec.toNat_ofNat,
        show PAGE_ADDR_MASK.toNat = (2 ^ 40 - 1) * 2 ^ 12 from by decide, and_field]
      unfold PAGE_SIZE
      omega
    rw [BitVec.getLsbD, ← Nat.div_add_mod (BitVec.toNat _) (2 ^ 12), hdvd, Nat.add_zero, Nat.mul_comm,
      Nat.testBit_mul_two_pow]
    simp [show ¬ 12 ≤ j by omega]
  rw [Vm.splitTable, BitVec.getLsbD_or, hbase, Bool.false_or, BitVec.getLsbD_and, not_huge_bit j hj h7, Bool.and_true,
    flagsOf_bit e hj]

theorem split_present (e : BitVec 64) (k : Nat) : present (Vm.splitTable e k) = present e := by
  rw [present_eq, present_eq, split_bit e k (by decide) (by decide)]

theorem split_frame_iff {a k : Nat} (hk : k < 512) :
    (a % 2 ^ 40 + k) % 2 ^ 40 = a / 2 ^ 9 % 2 ^ 39 * 2 ^ 9 + k ↔ a % 2 ^ 9 = 0 ∧ a / 2 ^ 40 % 2 ^ 8 = 0 := by
  omega

/-- **The 4 KB entry stands for its part of the 2 MB page** just for the plain ones. -/
theorem split_phys_iff (e : BitVec 64) (virt : Nat) :
    (pageView 0 (Vm.splitTable e (ptIndex virt)) virt).phys = (pageView 1 e virt).phys ↔ Plain e := by
  have hk : ptIndex virt < 512 := (index_lt virt).2.2.2
  simp only [pageView, if_neg (show ¬ 0 = 2 by decide), if_neg (show ¬ 0 = 1 by decide), if_neg (show ¬ 1 = 2 by decide),
    if_pos, frameOf_split e hk, bigBase_eq, Plain]
  have hvirt : virt % 2 ^ 21 = virt % PAGE_SIZE + PAGE_SIZE * ptIndex virt := Nat.mod_mul (a := PAGE_SIZE) (b := 512)
  have h21 : e.toNat / 2 ^ 21 = e.toNat / 2 ^ 12 / 2 ^ 9 :=
    (Nat.div_div_eq_div_mul _ (2 ^ 12) (2 ^ 9)).symm
  have h52 : e.toNat / 2 ^ 52 = e.toNat / 2 ^ 12 / 2 ^ 40 :=
    (Nat.div_div_eq_div_mul _ (2 ^ 12) (2 ^ 40)).symm
  have hbase : e.toNat / 2 ^ 12 / 2 ^ 9 % 2 ^ 39 * 2 ^ 21 + (virt % PAGE_SIZE + PAGE_SIZE * ptIndex virt) =
      (e.toNat / 2 ^ 12 / 2 ^ 9 % 2 ^ 39 * 2 ^ 9 + ptIndex virt) * PAGE_SIZE + virt % PAGE_SIZE := by
    rw [Nat.add_mul, Nat.mul_assoc _ (2 ^ 9), Nat.mul_comm PAGE_SIZE, Nat.add_comm (virt % PAGE_SIZE), ← Nat.add_assoc]
    rfl
  rw [hvirt, h21, h52, hbase, Nat.add_right_cancel_iff, Nat.mul_left_inj (by decide), split_frame_iff hk]

theorem split_view {e : BitVec 64} (h : Plain e) {virt : Nat} {link : BitVec 64} (hu : user link = true)
    (hw : writable link = true) :
    (pageView 0 (Vm.splitTable e (ptIndex virt)) virt).under link = pageView 1 e virt := by
  have hk : ptIndex virt < 512 := (index_lt virt).2.2.2
  have hphys := (split_phys_iff e virt).2 h
  have hframe : frameOf (Vm.splitTable e (ptIndex virt)) = frameOf e / 2 ^ 9 * 2 ^ 9 + virt / PAGE_SIZE % 2 ^ 9 := by
    obtain ⟨h1, h2⟩ := h
    rw [frameOf_split e hk, frameOf_eq]
    unfold ptIndex PAGE_SIZE
    omega
  have huser : user (Vm.splitTable e (ptIndex virt)) = user e := by
    rw [user_eq, user_eq, split_bit e _ (by decide) (by decide)]
  have hwrite : writable (Vm.splitTable e (ptIndex virt)) = writable e := by
    rw [writable_eq, writable_eq, split_bit e _ (by decide) (by decide)]
  have hacc : ((pageView 0 (Vm.splitTable e (ptIndex virt)) virt).under link).access = (pageView 1 e virt).access := by
    simp [View.under, pageView, hu, hw, huser, hwrite, Nat.mod_one, hframe]
  calc (pageView 0 (Vm.splitTable e (ptIndex virt)) virt).under link
      = ⟨(pageView 1 e virt).phys, (pageView 1 e virt).access⟩ := by rw [← hacc, ← hphys]; rfl
    _ = pageView 1 e virt := rfl

/-! ## The next table -/

inductive NextOut (ρ : Nat → Option (List Nat)) (s : Vm) (cr3 t i : Nat) (alloc : Bool) : Vm → Option Nat → Prop
  | found : present (s.mem t i) = true → huge (s.mem t i) = false → NextOut ρ s cr3 t i alloc s (some (frameOf (s.mem t i)))
  | absent : alloc = false → present (s.mem t i) = false → NextOut ρ s cr3 t i alloc s none
  | full {s' : Vm} : s'.mem = s.mem → s.pmm.clearPages = 0 →
      (alloc = true ∧ present (s.mem t i) = false ∨ present (s.mem t i) = true ∧ huge (s.mem t i) = true) →
      NextOut ρ s cr3 t i alloc s' none
  | made {ρ' : Nat → Option (List Nat)} {s' : Vm} {p : Nat} : alloc = true → present (s.mem t i) = false → Tree ρ' s' cr3 →
      ρ p = none → LinkedTo s.mem s'.mem t i p (fun _ => 0#64) → s'.pmm.clearPages + 1 = s.pmm.clearPages →
      NextOut ρ s cr3 t i alloc s' (some p)
  | split {ρ' : Nat → Option (List Nat)} {s' : Vm} {p : Nat} : present (s.mem t i) = true → huge (s.mem t i) = true →
      Tree ρ' s' cr3 → ρ p = none → LinkedTo s.mem s'.mem t i p (Vm.splitTable (s.mem t i)) →
      s'.pmm.clearPages + 1 = s.pmm.clearPages → NextOut ρ s cr3 t i alloc s' (some p)

section
variable {ρ : Nat → Option (List Nat)} {s : Vm} {cr3 virt t i : Nat} {q : List Nat} {alloc : Bool}

theorem Tree.next (alloc : Bool) (h : Tree ρ s cr3) (ht : ρ t = some q) (hi : i < 512)
    (hbig : present (s.mem t i) = true → huge (s.mem t i) = true → q.length = 2) :
    ∃ s' res, s.getNextTable t i alloc = (s', res) ∧ NextOut ρ s cr3 t i alloc s' res := by
  unfold Vm.getNextTable
  dsimp only
  cases hp : present (s.mem t i) with
  | true =>
    rw [if_pos rfl]
    cases hh : huge (s.mem t i) with
    | false =>
      rw [if_neg (by decide)]
      exact ⟨s, _, rfl, .found hp hh⟩
    | true =>
      rw [if_pos rfl]
      obtain ⟨s1, heq, hm, -⟩ | ⟨s1, p, heq, hm, -, htook⟩ := allocPage_took h.zero
      · rw [heq]
        exact ⟨s1, none, rfl, .full hm (allocPage_none h.zero heq) (.inr ⟨hp, hh⟩)⟩
      · rw [heq]
        obtain ⟨htree, hnew, hl⟩ := h.link (c := Vm.splitTable (s.mem t i)) ht hi hm htook (.inl (hbig hp hh))
        refine ⟨s1.linkTable t i p (Vm.splitTable (s.mem t i)), some p, rfl, .split hp hh htree hnew hl ?_⟩
        exact htook.clearPages
  | false =>
    rw [if_neg (by decide)]
    cases alloc with
    | false => exact ⟨s, none, rfl, .absent rfl hp⟩
    | true =>
      simp only [Bool.not_true, Bool.false_eq_true, if_false]
      obtain ⟨s1, heq, hm, -⟩ | ⟨s1, p, heq, hm, -, htook⟩ := allocPage_took h.zero
      · rw [heq]
        exact ⟨s1, none, rfl, .full hm (allocPage_none h.zero heq) (.inl ⟨rfl, hp⟩)⟩
      · rw [heq]
        obtain ⟨htree, hnew, hl⟩ := h.link (c := fun _ => 0#64) ht hi hm htook (.inr fun _ => Vm.zero_not_present)
        refine ⟨s1.linkTable t i p fun _ => 0#64, some p, rfl, .made rfl hp htree hnew hl ?_⟩
        exact htook.clearPages

variable {level v : Nat}

theorem Tree.reach_ne (h : Tree ρ s cr3) {u : Nat} (hr : Reaches s.mem cr3 v level u) (ht : ρ t = some q)
    (hlen : 4 - level ≠ q.length) : u ≠ t := by
  rintro rfl
  rw [h.role hr] at ht
  cases ht
  exact hlen (way_length level v).symm

variable {p : Nat}

theorem Tree.reach_new (h : Tree ρ s cr3) {u : Nat} (hr : Reaches s.mem cr3 v level u) (hp : ρ p = none) : u ≠ p := by
  rintro rfl
  rw [h.role hr] at hp
  cases hp

theorem Tree.linked_reaches (h : Tree ρ s cr3) {m' : Nat → Nat → BitVec 64} {c : Nat → BitVec 64}
    (hr : Reaches s.mem cr3 v (level + 1) t) (h0 : 0 < level) (hp : ρ p = none)
    (hl : LinkedTo s.mem m' t (indexAt (level + 1) v) p c) : Reaches m' cr3 v level p := by
  have hb := hr.bounds
  have hup : Reaches m' cr3 v (level + 1) t := hr.congr fun l u hlt hu => by
    have hub := hu.bounds
    refine hl.other u _ (h.reach_new hu hp) fun hut => h.reach_ne hu (h.role hr) ?_ hut.1
    rw [way_length]
    omega
  have hdown := hup.down h0 hl.present (by simp [hl.small])
  rwa [hl.frame] at hdown

theorem Tree.linked_view (h : Tree ρ s cr3) {m' : Nat → Nat → BitVec 64} {c : Nat → BitVec 64}
    (hr : Reaches s.mem cr3 virt (level + 1) t) (hp : ρ p = none) (hl : LinkedTo s.mem m' t i p c)
    (hsame : ∀ v, indexAt (level + 1) v = i → viewFrom m' (level + 1) t v = viewFrom s.mem (level + 1) t v) (v : Nat) :
    viewAt m' cr3 v = viewAt s.mem cr3 v := by
  refine Reaches.view_congr (fun l u hu => ?_) 4 cr3 .top
  by_cases hut : u = t ∧ indexAt l v = i
  · obtain ⟨rfl, hi⟩ := hut
    have hlevel : l = level + 1 := by
      have hway := congrArg List.length (Option.some.inj ((h.role hu).symm.trans (h.role hr)))
      have hb := hu.bounds
      have hb' := hr.bounds
      rw [way_length, way_length] at hway
      omega
    subst hlevel
    exact .inr (hsame v hi)
  · exact .inl (hl.other u _ (h.reach_new hu hp) hut)

end

/-! ## The walk -/

/-- The walk has come to table `t` of `level` in state `s`, and nothing is translated differently than in the state `s0` it
began in. -/
structure Going (s0 : Vm) (cr3 virt : Nat) (s : Vm) (level t : Nat) : Prop where
  tree : ∃ ρ, Tree ρ s cr3
  reach : Reaches s.mem cr3 virt level t
  count : s.pmm.clearPages + tablesToMake s0.mem cr3 virt = s0.pmm.clearPages + missingFrom s.mem level t virt
  met : hugeFrom s.mem level t virt = hugeAt s0.mem cr3 virt
  views : ∀ v, viewAt s.mem cr3 v = viewAt s0.mem cr3 v

/-- The 2 MB page `e` of the address was split, into the page table `pt`. -/
structure Split (s0 : Vm) (cr3 virt : Nat) (s : Vm) (pt : Nat) (e : BitVec 64) : Prop where
  tree : ∃ ρ, Tree ρ s cr3
  met : hugeAt s0.mem cr3 virt = some (1, e)
  entry : present e = true
  count : s.pmm.clearPages + tablesToMake s0.mem cr3 virt = s0.pmm.clearPages
  table : s.mem pt = Vm.splitTable e
  pages : ∀ v, (∀ l, 1 < l → l ≤ 4 → indexAt l v = indexAt l virt) → Reaches s.mem cr3 v 1 pt ∧
    ∃ g : View → View, (∀ w, (g w).phys = w.phys) ∧ viewAt s0.mem cr3 v = some (g (pageView 1 e v))
  views : Plain e → ∀ v, viewAt s.mem cr3 v = viewAt s0.mem cr3 v

structure Stopped (s0 : Vm) (cr3 virt : Nat) (alloc : Bool) (s : Vm) : Prop where
  views : ∀ v, viewAt s.mem cr3 v = viewAt s0.mem cr3 v
  short : alloc = true → s0.pmm.clearPages < tablesToMake s0.mem cr3 virt
  unmapped : alloc = false → viewAt s0.mem cr3 virt = none ∨ (∃ e, hugeAt s0.mem cr3 virt = some (1, e)) ∧
    s0.pmm.clearPages = 0
  apart : (∃ e, hugeAt s0.mem cr3 virt = some (1, e)) → s0.pmm.clearPages = 0

inductive StepOut (s0 : Vm) (cr3 virt : Nat) (alloc : Bool) (level : Nat) : Vm → Option Nat → Prop
  | going {s : Vm} {t : Nat} : Going s0 cr3 virt s level t → StepOut s0 cr3 virt alloc level s (some t)
  | split {s : Vm} {pt : Nat} {e : BitVec 64} : level = 1 → Split s0 cr3 virt s pt e →
      StepOut s0 cr3 virt alloc level s (some pt)
  | stopped {s : Vm} : Stopped s0 cr3 virt alloc s → StepOut s0 cr3 virt alloc level s none

section
variable {s0 s : Vm} {cr3 virt level t : Nat} {alloc : Bool}

variable {m : Nat → Nat → BitVec 64}

theorem hugeFrom_absent (h : present (m t (indexAt (level + 1) virt)) = false) : hugeFrom m (level + 1) t virt = none := by
  rw [hugeFrom]
  simp [h]

theorem missingFrom_absent (h : present (m t (indexAt (level + 1) virt)) = false) :
    missingFrom m (level + 1) t virt = level := by
  rw [missingFrom]
  simp only [h]
  split
  · omega
  · rfl

theorem viewFrom_absent (h : present (m t (indexAt (level + 1) virt)) = false) : viewFrom m (level + 1) t virt = none := by
  rw [viewFrom]
  simp [h]

theorem viewFrom_huge (hp : present (m t (indexAt 2 virt)) = true)
    (hh : huge (m t (indexAt 2 virt)) = true) : viewFrom m 2 t virt = some (pageView 1 (m t (indexAt 2 virt)) virt) := by
  rw [viewFrom]
  simp [hp, hh]

theorem viewFrom_link {m' : Nat → Nat → BitVec 64} {p : Nat} {c : Nat → BitVec 64} (h0 : 0 < level)
    (hl : LinkedTo m m' t (indexAt (level + 1) virt) p c) :
    viewFrom m' (level + 1) t virt = (viewFrom m' level p virt).map (View.under (m' t (indexAt (level + 1) virt))) := by
  rw [viewFrom]
  simp [hl.present, hl.small, hl.frame, show level ≠ 0 by omega]

theorem hugeFrom_missing {r : Nat × BitVec 64} : ∀ {level t : Nat}, hugeFrom m level t virt = some r →
    missingFrom m level t virt = 1
  | 0, _, h => by cases h
  | level + 1, t, h => by
    rw [hugeFrom] at h
    rw [missingFrom]
    split at h
    · cases h
    rename_i hgo
    obtain ⟨h0, hp⟩ := not_or.1 hgo
    rw [if_neg h0, if_neg hp]
    split at h
    · rename_i hh
      rw [if_pos hh]
    · rename_i hh
      rw [if_neg hh]
      exact hugeFrom_missing h

theorem Going.next (alloc : Bool) (h : Going s0 cr3 virt s (level + 1) t) (h0 : 0 < level)
    (hsmall : ∀ e, hugeAt s0.mem cr3 virt ≠ some (2, e)) :
    ∃ s' res, s.getNextTable t (indexAt (level + 1) virt) alloc = (s', res) ∧ StepOut s0 cr3 virt alloc level s' res := by
  obtain ⟨⟨ρ, htree⟩, hr, hcount, hhuge, hviews⟩ := h
  have hb := hr.bounds
  have hrole := htree.role hr
  -- a huge page met is one of 2 MB
  have hbig : present (s.mem t (indexAt (level + 1) virt)) = true → huge (s.mem t (indexAt (level + 1) virt)) = true →
      level = 1 ∧ hugeAt s0.mem cr3 virt = some (1, s.mem t (indexAt (level + 1) virt)) := by
    intro hp hh
    have hlevel : level < 3 := by
      by_contra hcon
      obtain rfl : level = 3 := by omega
      rw [htree.top t _ (hrole.trans rfl) (TableRole.indexAt_lt _ _) hp] at hh
      cases hh
    rw [hugeFrom] at hhuge
    simp only [hp, hh, show ¬ (level = 0 ∨ (!true) = true) by simp; omega, if_false, hlevel, and_self, if_true] at hhuge
    have hne : level ≠ 2 := fun h2 => hsmall _ (by rw [← hhuge, h2])
    obtain rfl : level = 1 := by omega
    exact ⟨rfl, hhuge.symm⟩
  obtain ⟨s', res, heq, hout⟩ := htree.next alloc hrole (TableRole.indexAt_lt _ _) fun hp hh => by
    rw [way_length, (hbig hp hh).1]
  refine ⟨s', res, heq, ?_⟩
  cases hout with
  | found hp hh =>
    refine .going ⟨⟨ρ, htree⟩, hr.down h0 hp (by simp [hh]), ?_, ?_, hviews⟩
    · rw [hcount, missingFrom]
      simp [hp, hh, show level ≠ 0 by omega]
    · rw [← hhuge, hugeFrom]
      simp [hp, hh, show level ≠ 0 by omega]
  | absent halloc hp =>
    have hmet : hugeAt s0.mem cr3 virt = none := by rw [← hhuge, hugeFrom_absent hp]
    refine .stopped ⟨hviews, fun hc => ?_, fun _ => .inl ?_, fun ⟨e, he⟩ => ?_⟩
    · rw [halloc] at hc
      cases hc
    · obtain ⟨g, -, hview⟩ := hr.view
      rw [← hviews, hview s.mem fun _ _ _ _ => rfl, viewFrom_absent hp]
      rfl
    · rw [hmet] at he
      cases he
  | full hm hzero hwhy =>
    have hpos : 0 < missingFrom s.mem (level + 1) t virt := by
      rcases hwhy with ⟨-, hp⟩ | ⟨hp, hh⟩
      · rw [missingFrom_absent hp]
        exact h0
      · rw [hugeFrom_missing ((hhuge.trans (hbig hp hh).2))]
        decide
    have hshort : s0.pmm.clearPages < tablesToMake s0.mem cr3 virt := by omega
    have hnone : (∃ e, hugeAt s0.mem cr3 virt = some (1, e)) → s0.pmm.clearPages = 0 := by
      rintro ⟨e, he⟩
      rw [tablesToMake, hugeFrom_missing he] at hshort
      omega
    refine .stopped ⟨fun v => by rw [hm, hviews], fun _ => hshort, fun halloc => .inr ?_, hnone⟩
    rcases hwhy with ⟨hc, -⟩ | ⟨hp, hh⟩
    · rw [halloc] at hc
      cases hc
    · exact ⟨⟨_, (hbig hp hh).2⟩, hnone ⟨_, (hbig hp hh).2⟩⟩
  | @made ρ' s' p halloc hp htree' hnew hl hclear =>
    obtain ⟨l, rfl⟩ : ∃ l, level = l + 1 := ⟨level - 1, by omega⟩
    have hempty : ∀ j, present (s'.mem p j) = false := fun j => by
      rw [hl.table]
      exact Vm.zero_not_present
    refine .going ⟨⟨ρ', htree'⟩, htree.linked_reaches hr h0 hnew hl, ?_, ?_, fun v => ?_⟩
    · rw [missingFrom_absent (hempty _)]
      rw [missingFrom_absent hp] at hcount
      omega
    · rw [hugeFrom_absent (hempty _), ← hhuge, hugeFrom_absent hp]
    · rw [← hviews, htree.linked_view hr hnew hl fun v hv => ?_]
      rw [viewFrom_link h0 (hv ▸ hl), viewFrom_absent (hempty _), viewFrom_absent (hv ▸ hp)]
      rfl
  | @split ρ' s' p hp hh htree' hnew hl hclear =>
    obtain ⟨rfl, hmet⟩ := hbig hp hh
    refine .split rfl ⟨⟨ρ', htree'⟩, hmet, hp, ?_, hl.table, fun v hv => ⟨?_, ?_⟩, fun hplain v => ?_⟩
    · rw [hugeFrom_missing (hhuge.trans hmet)] at hcount
      omega
    · exact (htree.linked_reaches hr h0 hnew hl).address hv
    · have hr' : Reaches _ _ v _ _ := hr.address fun l hl hl' => hv l (by omega) hl'
      obtain ⟨g, hg, hview⟩ := hr'.view
      refine ⟨g, hg, ?_⟩
      rw [← hviews, hview s.mem fun _ _ _ _ => rfl, viewFrom_huge (by rw [hv 2 (by decide) (by decide)]; exact hp)
        (by rw [hv 2 (by decide) (by decide)]; exact hh), hv 2 (by decide) (by decide)]
      rfl
    · rw [← hviews, htree.linked_view hr hnew hl fun v hv => ?_]
      rw [viewFrom_link h0 (hv ▸ hl), viewFrom_huge (hv ▸ hp) (hv ▸ hh), viewFrom_one, hl.table, split_present, hv, hp]
      exact congrArg some (split_view hplain hl.user hl.writable)

theorem Tree.walk {ρ : Nat → Option (List Nat)} (alloc : Bool) (h : Tree ρ s cr3)
    (hsmall : ∀ e, hugeAt s.mem cr3 virt ≠ some (2, e)) :
    ∃ s' res, s.walkTables cr3 virt alloc = (s', res) ∧ StepOut s cr3 virt alloc 1 s' res := by
  have hstart : Going s cr3 virt s 4 cr3 := ⟨⟨ρ, h⟩, .top, rfl, rfl, fun _ => rfl⟩
  unfold Vm.walkTables
  obtain ⟨s1, res1, heq1, hout1⟩ := hstart.next alloc (by decide) hsmall
  rw [show s.getNextTable cr3 (pml4Index virt) alloc = (s1, res1) from heq1]
  cases hout1 with
  | stopped hstop => exact ⟨s1, none, rfl, .stopped hstop⟩
  | split h1 => exact absurd h1 (by decide)
  | going hgo1 =>
    obtain ⟨s2, res2, heq2, hout2⟩ := hgo1.next alloc (by decide) hsmall
    dsimp only
    rw [show s1.getNextTable _ (pdptIndex virt) alloc = (s2, res2) from heq2]
    cases hout2 with
    | stopped hstop => exact ⟨s2, none, rfl, .stopped hstop⟩
    | split h1 => exact absurd h1 (by decide)
    | going hgo2 => exact hgo2.next alloc (by decide) hsmall

end

/-! ## One page -/

/-- `w` is not on the page of `v`; 48 bits of an address are translated. -/
def OffPage (v w : Nat) : Prop := w / PAGE_SIZE % 2 ^ 36 ≠ v / PAGE_SIZE % 2 ^ 36

def SameAt (s s' : Vm) (cr3 w : Nat) : Prop :=
  s'.vmmVirtToPhys cr3 w = s.vmmVirtToPhys cr3 w ∧ translate s'.mem cr3 w = translate s.mem cr3 w

/-- **Mapping changes one page**: it leads where it should and the others stay; a call that fails changes none. -/
structure MapsPage (s : Vm) (cr3 : Nat) (phys : BitVec 64) (virt : Nat) (flags : BitVec 64) : Prop where
  page : (s.vmmMapPage cr3 phys virt flags).2 = true → ∀ o < PAGE_SIZE,
    (s.vmmMapPage cr3 phys virt flags).1.vmmVirtToPhys cr3 (virt + o) = phys.toNat + o
  others : (s.vmmMapPage cr3 phys virt flags).2 = true → ∀ w, OffPage virt w →
    SameAt s (s.vmmMapPage cr3 phys virt flags).1 cr3 w
  failed : (s.vmmMapPage cr3 phys virt flags).2 = false → ∀ w, SameAt s (s.vmmMapPage cr3 phys virt flags).1 cr3 w

/-- **Unmapping takes one page away.** -/
structure UnmapsPage (s : Vm) (cr3 virt : Nat) : Prop where
  page : ∀ o < PAGE_SIZE, (s.vmmUnmapPage cr3 virt).vmmVirtToPhys cr3 (virt + o) = 0 ∧
    translate (s.vmmUnmapPage cr3 virt).mem cr3 (virt + o) = none
  others : ∀ w, OffPage virt w → SameAt s (s.vmmUnmapPage cr3 virt) cr3 w

/-- A page to map: `PAGE_PRESENT` is asked for, the address is that of a frame and the flags add nothing to it, and page 0
can only be frame 0. -/
structure FrameArgs (phys : BitVec 64) (virt : Nat) (flags : BitVec 64) : Prop where
  flags_present : present flags = true
  address : (phys ||| flags) &&& PAGE_ADDR_MASK = phys
  zero : virt = 0 → phys = 0#64

section
variable {s0 s : Vm} {cr3 virt level t : Nat} {phys flags : BitVec 64}

variable {w : Nat}

theorem sameAt_of_view {s' : Vm} (h : viewAt s'.mem cr3 w = viewAt s.mem cr3 w) : SameAt s s' cr3 w := by
  unfold SameAt
  rw [virtToPhys_view, virtToPhys_view, translate_view, translate_view, h]
  exact ⟨rfl, rfl⟩

variable {v : Nat}

theorem indices_eq_iff : ¬ OffPage v w ↔ ∀ l, indexAt l w = indexAt l v := by
  unfold OffPage
  rw [Decidable.not_not, indices_iff]
  constructor
  · rintro ⟨h4, h3, h2, h1⟩ l
    unfold indexAt
    split <;> assumption
  · intro h
    exact ⟨h 4, h 3, h 2, h 1⟩

theorem onPage {o : Nat} (hvirt : virt % PAGE_SIZE = 0) (ho : o < PAGE_SIZE) : ¬ OffPage virt (virt + o) := by
  unfold OffPage PAGE_SIZE at *
  omega

theorem viewFrom_none_congr {m : Nat → Nat → BitVec 64} (hi : ∀ l, indexAt l w = indexAt l v) : ∀ {level t : Nat},
    viewFrom m level t v = none → viewFrom m level t w = none
  | 0, _, _ => rfl
  | level + 1, t, h => by
    rw [viewFrom] at h
    rw [viewFrom, hi]
    split at h
    · rename_i hp
      rw [if_pos hp]
    rename_i hp
    split at h
    · cases h
    rename_i hleaf
    rw [if_neg hp, if_neg hleaf, viewFrom_none_congr hi (Option.map_eq_none_iff.1 h)]
    rfl

theorem viewFrom_hugeFrom {m : Nat → Nat → BitVec 64} {r : Nat × BitVec 64} : ∀ {level t : Nat},
    hugeFrom m level t virt = some r → viewFrom m level t virt ≠ none
  | 0, _, h => by cases h
  | level + 1, t, h => by
    rw [hugeFrom] at h
    rw [viewFrom]
    split at h
    · cases h
    rename_i hgo
    obtain ⟨h0, hp⟩ := not_or.1 hgo
    rw [if_neg hp]
    split at h
    · rename_i hh
      rw [if_pos (.inr hh)]
      exact Option.some_ne_none _
    · rename_i hh
      rw [if_neg (not_or.2 ⟨h0, hh⟩)]
      intro hnone
      exact viewFrom_hugeFrom h (Option.map_eq_none_iff.1 hnone)

variable {ρ : Nat → Option (List Nat)} {pt : Nat} {e : BitVec 64}

theorem Tree.leafWritten (h : Tree ρ s cr3) {i : Nat} (hr : Reaches s.mem cr3 v 1 pt) : ∃ g :
    View → View, (∀ w, (g w).phys = w.phys) ∧
      viewAt (s.write pt i e).mem cr3 v = (viewFrom (s.write pt i e).mem 1 pt v).map g := by
  obtain ⟨g, hg, hview⟩ := hr.view
  refine ⟨g, hg, hview _ fun l u hl hu => ?_⟩
  rw [Vm.write_mem_ne]
  have hb := hu.bounds
  refine h.reach_ne hu (h.role hr) ?_
  rw [way_length]
  omega

theorem Tree.leafWritten_off (h : Tree ρ s cr3) (hr : Reaches s.mem cr3 virt 1 pt) (hoff : OffPage virt w) :
    viewAt (s.write pt (ptIndex virt) e).mem cr3 w = viewAt s.mem cr3 w := by
  refine h.view_write (h.role hr) fun level h0 h4 hway hindex => ?_
  have hlen := congrArg List.length hway
  rw [way_length, way_length] at hlen
  obtain rfl : level = 1 := by omega
  refine absurd hoff (indices_eq_iff.2 fun l => ?_)
  have hways : [pml4Index w, pdptIndex w, pdIndex w] = [pml4Index virt, pdptIndex virt, pdIndex virt] := hway
  simp only [List.cons.injEq, and_true] at hways
  unfold indexAt
  split
  · exact hways.1
  · exact hways.2.1
  · exact hways.2.2
  · exact hindex

theorem viewFrom_written : viewFrom (s.write pt (ptIndex v) e).mem 1 pt v = if !present e then none
    else some (pageView 0 e v) := by
  have hat : (s.write pt (ptIndex v) e).mem pt (ptIndex v) = e := by rw [Vm.write_mem, if_pos ⟨rfl, rfl⟩]
  rw [viewFrom_one, hat]

theorem Tree.phys_written (h : Tree ρ s cr3) (hr : Reaches s.mem cr3 v 1 pt) :
    (s.write pt (ptIndex v) e).vmmVirtToPhys cr3 v =
      if v = 0 then 0 else if present e then frameOf e * PAGE_SIZE + v % PAGE_SIZE else 0 := by
  obtain ⟨g, hg, hview⟩ := h.leafWritten (i := ptIndex v) (e := e) hr
  rw [virtToPhys_view, hview, viewFrom_written]
  cases present e with
  | false => rfl
  | true => simp [hg, pageView]

theorem entry_args : (present ((phys &&& PAGE_ADDR_MASK) ||| flags) = true ∧
    frameOf ((phys &&& PAGE_ADDR_MASK) ||| flags) * PAGE_SIZE = phys.toNat) ↔
    present flags = true ∧ (phys ||| flags) &&& PAGE_ADDR_MASK = phys := by
  have hpres : present ((phys &&& PAGE_ADDR_MASK) ||| flags) = present flags := by
    rw [present_eq, present_eq, BitVec.getLsbD_or, BitVec.getLsbD_and, mask_bit 0 (by decide)]
    simp
  have hmask : ((phys &&& PAGE_ADDR_MASK) ||| flags) &&& PAGE_ADDR_MASK = (phys ||| flags) &&& PAGE_ADDR_MASK := by
    rw [BitVec.and_or_distrib_right, BitVec.and_or_distrib_right, BitVec.and_assoc, BitVec.and_self]
  have hframe : frameOf ((phys &&& PAGE_ADDR_MASK) ||| flags) * PAGE_SIZE = ((phys ||| flags) &&& PAGE_ADDR_MASK).toNat := by
    unfold frameOf PAGE_SIZE
    rw [hmask, BitVec.toNat_and, show PAGE_ADDR_MASK.toNat = (2 ^ 40 - 1) * 2 ^ 12 from by decide, and_field]
    omega
  rw [hpres, hframe, BitVec.toNat_inj]

theorem Tree.page_iff (h : Tree ρ s cr3) (hvirt : virt % PAGE_SIZE = 0) (hr : Reaches s.mem cr3 virt 1 pt) :
      (∀ o < PAGE_SIZE, (s.write pt (ptIndex virt) ((phys &&& PAGE_ADDR_MASK) ||| flags)).vmmVirtToPhys cr3 (virt + o) =
      phys.toNat + o) ↔
      FrameArgs phys virt flags := by
  have hphys : ∀ o < PAGE_SIZE, (s.write pt (ptIndex virt) ((phys &&& PAGE_ADDR_MASK) ||| flags)).vmmVirtToPhys cr3
    (virt + o) =
      if virt + o = 0 then 0
      else if present ((phys &&& PAGE_ADDR_MASK) ||| flags) then
        frameOf ((phys &&& PAGE_ADDR_MASK) ||| flags) * PAGE_SIZE + o
      else 0 := by
    intro o ho
    have hi := indices_eq_iff.1 (onPage hvirt ho)
    have hoffset : (virt + o) % PAGE_SIZE = o := by
      unfold PAGE_SIZE at *
      omega
    rw [show ptIndex virt = ptIndex (virt + o) from (hi 1).symm, h.phys_written (hr.address fun l _ _ => hi l), hoffset]
  constructor
  · intro hall
    have hone := hall 1 (by decide)
    rw [hphys 1 (by decide), if_neg (by omega)] at hone
    have hentry : present ((phys &&& PAGE_ADDR_MASK) ||| flags) = true ∧
        frameOf ((phys &&& PAGE_ADDR_MASK) ||| flags) * PAGE_SIZE = phys.toNat := by
      split at hone
      · rename_i hp
        exact ⟨hp, by omega⟩
      · omega
    obtain ⟨hp, haddr⟩ := entry_args.1 hentry
    refine ⟨hp, haddr, fun h0 => ?_⟩
    have hzero := hall 0 (by decide)
    rw [hphys 0 (by decide), if_pos (by omega)] at hzero
    exact BitVec.eq_of_toNat_eq (by simpa using hzero.symm)
  · rintro ⟨hp, haddr, hzero⟩ o ho
    obtain ⟨hp', hframe⟩ := entry_args.2 ⟨hp, haddr⟩
    rw [hphys o ho, hp', hframe]
    split
    · rename_i h0
      have hphys0 := hzero (by omega)
      rw [hphys0]
      simp only [BitVec.toNat_ofNat, Nat.zero_mod]
      omega
    · rfl

theorem Going.others (h : Going s0 cr3 virt s 1 pt) (hoff : OffPage virt w) :
    SameAt s0 (s.write pt (ptIndex virt) e) cr3 w := by
  obtain ⟨ρ, htree⟩ := h.tree
  exact sameAt_of_view ((htree.leafWritten_off h.reach hoff).trans (h.views w))

theorem upper_indices (h : w / 2 ^ 21 = v / 2 ^ 21) (l : Nat) (hl : 1 < l) (hl' : l ≤ 4) : indexAt l w = indexAt l v := by
  have hdiv : ∀ k, w / (2 ^ 21 * k) = v / (2 ^ 21 * k) := fun k => by
    rw [← Nat.div_div_eq_div_mul, h, Nat.div_div_eq_div_mul]
  obtain rfl | rfl | rfl : l = 2 ∨ l = 3 ∨ l = 4 := by omega
  · exact congrArg (· % 512) h
  · exact congrArg (· % 512) (hdiv 512)
  · exact congrArg (· % 512) (hdiv (512 * 512))

theorem Split.others_iff {e' : BitVec 64} (h : Split s0 cr3 virt s pt e') :
    (∀ w, OffPage virt w → SameAt s0 (s.write pt (ptIndex virt) e) cr3 w) ↔ Plain e' := by
  obtain ⟨ρ, htree⟩ := h.tree
  have hr := (h.pages virt fun _ _ _ => rfl).1
  constructor
  · intro hall
    -- an address of the 2 MB page, on the page after
    obtain ⟨w, hregion, hpos, hoff⟩ : ∃ w, w / 2 ^ 21 = virt / 2 ^ 21 ∧ w ≠ 0 ∧ OffPage virt w := by
      refine ⟨virt / 2 ^ 21 * 2 ^ 21 + (ptIndex virt + 1) % 512 * 2 ^ 12 + 1, by omega, by omega, ?_⟩
      unfold OffPage ptIndex PAGE_SIZE
      omega
    have hw := upper_indices hregion
    obtain ⟨hrw, g, hg, hold⟩ := h.pages w hw
    obtain ⟨g', hg', hview⟩ := hrw.view
    have hnew : viewAt (s.write pt (ptIndex virt) e).mem cr3 w =
        some (g' (pageView 0 (Vm.splitTable e' (ptIndex w)) w)) := by
      rw [htree.leafWritten_off hr hoff, hview s.mem fun _ _ _ _ => rfl, viewFrom_one, h.table, split_present, h.entry]
      rfl
    have hsame := (hall w hoff).1
    rw [virtToPhys_view, virtToPhys_view, if_neg hpos, if_neg hpos, hnew, hold] at hsame
    refine (split_phys_iff e' w).1 ?_
    rw [← hg', ← hg (pageView 1 e' w)]
    exact hsame
  · intro hplain w hoff
    exact sameAt_of_view ((htree.leafWritten_off hr hoff).trans (h.views hplain w))

theorem Tree.mapsPage_iff (h : Tree ρ s cr3) (hvirt : virt % PAGE_SIZE = 0)
    (hsmall : ∀ e, hugeAt s.mem cr3 virt ≠ some (2, e)) :
    MapsPage s cr3 phys virt flags ↔ (tablesToMake s.mem cr3 virt ≤ s.pmm.clearPages →
      FrameArgs phys virt flags ∧ ∀ e, hugeAt s.mem cr3 virt = some (1, e) → Plain e) := by
  obtain ⟨s', res, heq, hout⟩ := h.walk true hsmall
  have hmap : s.vmmMapPage cr3 phys virt flags = res.elim (s', false) fun pt =>
      (s'.write pt (ptIndex virt) ((phys &&& PAGE_ADDR_MASK) ||| flags), true) := by
    rw [Vm.vmmMapPage, heq]
    all_goals cases res <;> rfl
  cases hout with
  | stopped hstop =>
    rw [Option.elim_none] at hmap
    have hshort := hstop.short rfl
    constructor
    · intro _ hroom
      omega
    · intro _
      refine ⟨fun hc => ?_, fun hc => ?_, fun _ w => ?_⟩
      · rw [hmap] at hc
        cases hc
      · rw [hmap] at hc
        cases hc
      · rw [hmap]
        exact sameAt_of_view (hstop.views w)
  | @going pt hgo =>
    rw [Option.elim_some] at hmap
    obtain ⟨ρ', htree⟩ := hgo.tree
    have hnone : hugeAt s.mem cr3 virt = none := by
      rw [← hgo.met, hugeFrom]
      simp
    have hroom : tablesToMake s.mem cr3 virt ≤ s.pmm.clearPages := by
      have hcount := hgo.count
      rw [show missingFrom s'.mem 1 pt virt = 0 from rfl] at hcount
      omega
    constructor
    · intro hm _
      have hpage := hm.page (by rw [hmap])
      rw [hmap] at hpage
      exact ⟨(htree.page_iff hvirt hgo.reach).1 hpage, fun e he => by rw [hnone] at he; cases he⟩
    · intro hc
      refine ⟨fun _ => ?_, fun _ w hoff => ?_, fun hf => ?_⟩
      · rw [hmap]
        exact (htree.page_iff hvirt hgo.reach).2 (hc hroom).1
      · rw [hmap]
        exact hgo.others hoff
      · rw [hmap] at hf
        cases hf
  | @split pt e _ hs =>
    rw [Option.elim_some] at hmap
    obtain ⟨ρ', htree⟩ := hs.tree
    have hr := (hs.pages virt fun _ _ _ => rfl).1
    have hroom : tablesToMake s.mem cr3 virt ≤ s.pmm.clearPages := by
      have hcount := hs.count
      omega
    constructor
    · intro hm _
      have hpage := hm.page (by rw [hmap])
      have hothers := hm.others (by rw [hmap])
      rw [hmap] at hpage hothers
      refine ⟨(htree.page_iff hvirt hr).1 hpage, fun e' he' => ?_⟩
      rw [hs.met] at he'
      cases he'
      exact hs.others_iff.1 hothers
    · intro hc
      obtain ⟨hargs, hplain⟩ := hc hroom
      refine ⟨fun _ => ?_, fun _ w hoff => ?_, fun hf => ?_⟩
      · rw [hmap]
        exact (htree.page_iff hvirt hr).2 hargs
      · rw [hmap]
        exact hs.others_iff.2 (hplain e hs.met) w hoff
      · rw [hmap] at hf
        cases hf

theorem unmapped_page (hvirt : virt % PAGE_SIZE = 0) (h : viewAt s.mem cr3 virt = none) {o : Nat} (ho : o < PAGE_SIZE) :
    s.vmmVirtToPhys cr3 (virt + o) = 0 ∧ translate s.mem cr3 (virt + o) = none := by
  have hnone : viewAt s.mem cr3 (virt + o) = none := viewFrom_none_congr (indices_eq_iff.1 (onPage hvirt ho)) h
  rw [virtToPhys_view, translate_view, hnone]
  refine ⟨?_, rfl⟩
  split
  · rfl
  · rfl

theorem Tree.written_zero (h : Tree ρ s cr3) (hr : Reaches s.mem cr3 virt 1 pt) :
    viewAt (s.write pt (ptIndex virt) 0#64).mem cr3 virt = none := by
  obtain ⟨g, -, hview⟩ := h.leafWritten (i := ptIndex virt) (e := 0#64) hr
  rw [hview, viewFrom_written, Vm.zero_not_present]
  rfl

theorem Tree.unmapsPage_iff (h : Tree ρ s cr3) (hvirt : virt % PAGE_SIZE = 0)
    (hsmall : ∀ e, hugeAt s.mem cr3 virt ≠ some (2, e)) :
    UnmapsPage s cr3 virt ↔ ∀ e, hugeAt s.mem cr3 virt = some (1, e) → 0 < s.pmm.clearPages ∧ Plain e := by
  obtain ⟨s', res, heq, hout⟩ := h.walk false hsmall
  have hunmap : s.vmmUnmapPage cr3 virt = res.elim s' fun pt =>
      if present (s'.mem pt (ptIndex virt)) then s'.write pt (ptIndex virt) 0#64 else s' := by
    rw [Vm.vmmUnmapPage, heq]
    all_goals cases res <;> rfl
  cases hout with
  | stopped hstop =>
    rw [Option.elim_none] at hunmap
    constructor
    · intro hu e he
      -- the page is still there
      obtain hnone | ⟨-, hzero⟩ := hstop.unmapped rfl
      · exact absurd hnone (viewFrom_hugeFrom he)
      · have hpage := (hu.page 0 (by decide)).2
        rw [hunmap, Nat.add_zero, translate_view, hstop.views, Option.map_eq_none_iff] at hpage
        exact absurd hpage (viewFrom_hugeFrom he)
    · intro hc
      have hnone : viewAt s'.mem cr3 virt = none := by
        obtain hnone | ⟨⟨e, he⟩, hzero⟩ := hstop.unmapped rfl
        · rw [hstop.views, hnone]
        · have := (hc e he).1
          omega
      refine ⟨fun o ho => ?_, fun w _ => ?_⟩
      · rw [hunmap]
        exact unmapped_page hvirt hnone ho
      · rw [hunmap]
        exact sameAt_of_view (hstop.views w)
  | @going pt hgo =>
    obtain ⟨ρ', htree⟩ := hgo.tree
    have hnone : hugeAt s.mem cr3 virt = none := by
      rw [← hgo.met, hugeFrom]
      simp
    refine iff_of_true ?_ fun e he => by rw [hnone] at he; cases he
    rw [Option.elim_some] at hunmap
    split at hunmap
    · refine ⟨fun o ho => ?_, fun w hoff => ?_⟩
      · rw [hunmap]
        exact unmapped_page hvirt (htree.written_zero hgo.reach) ho
      · rw [hunmap]
        exact hgo.others hoff
    · rename_i habs
      obtain ⟨g, -, hview⟩ := hgo.reach.view
      have hempty : viewAt s'.mem cr3 virt = none := by
        rw [hview s'.mem fun _ _ _ _ => rfl, viewFrom_one, if_pos (by simpa using habs)]
        rfl
      refine ⟨fun o ho => ?_, fun w _ => ?_⟩
      · rw [hunmap]
        exact unmapped_page hvirt hempty ho
      · rw [hunmap]
        exact sameAt_of_view (hgo.views w)
  | @split pt e _ hs =>
    obtain ⟨ρ', htree⟩ := hs.tree
    have hr := (hs.pages virt fun _ _ _ => rfl).1
    have hroom : 0 < s.pmm.clearPages := by
      have hcount := hs.count
      rw [tablesToMake, hugeFrom_missing hs.met] at hcount
      omega
    rw [Option.elim_some] at hunmap
    rw [hs.table, if_pos (by rw [split_present, hs.entry])] at hunmap
    constructor
    · intro hu e' he'
      rw [hs.met] at he'
      cases he'
      have hothers := hu.others
      rw [hunmap] at hothers
      exact ⟨hroom, hs.others_iff.1 hothers⟩
    · intro hc
      refine ⟨fun o ho => ?_, fun w hoff => ?_⟩
      · rw [hunmap]
        exact unmapped_page hvirt (htree.written_zero hr) ho
      · rw [hunmap]
        exact hs.others_iff.2 (hc e hs.met).2 w hoff

end

/-- **Mapping and unmapping a page outside 1 GB pages change that page only** just where a page of a frame is asked for, and
a 2 MB page met is a plain one that there is a frame to split with. -/
theorem one_page (s : Vm) (cr3 : Nat) (phys : BitVec 64) (virt : Nat) (flags : BitVec 64) (htree : ∃ ρ, Tree ρ s cr3)
    (hvirt : virt % PAGE_SIZE = 0) (hsmall : ∀ e, hugeAt s.mem cr3 virt ≠ some (2, e)) :
    MapsPage s cr3 phys virt flags ∧ UnmapsPage s cr3 virt ↔
      (tablesToMake s.mem cr3 virt ≤ s.pmm.clearPages → FrameArgs phys virt flags) ∧
        ∀ e, hugeAt s.mem cr3 virt = some (1, e) → 0 < s.pmm.clearPages ∧ Plain e := by
  obtain ⟨ρ, h⟩ := htree
  rw [h.mapsPage_iff hvirt hsmall, h.unmapsPage_iff hvirt hsmall]
  constructor
  · rintro ⟨hmap, hunmap⟩
    exact ⟨fun hroom => (hmap hroom).1, hunmap⟩
  · rintro ⟨hargs, hplain⟩
    exact ⟨fun hroom => ⟨hargs hroom, fun e he => (hplain e he).2⟩, hplain⟩

/-- A page is mapped into one of 2 MB, which is split for it, and one is unmapped from it. -/
theorem one_page_split : (userTables.vmmMapPage 1 0x6000#64 (USER_BASE + 0x1000) 0x7#64).2 = true ∧
    MapsPage userTables 1 0x6000#64 (USER_BASE + 0x1000) 0x7#64 ∧ UnmapsPage userTables 1 (USER_BASE + 0x1000) := by
  have hhuge : hugeAt userTables.mem 1 (USER_BASE + 0x1000) = some (1, 0x200087#64) := by decide +kernel
  refine ⟨by decide +kernel, (one_page userTables 1 0x6000#64 (USER_BASE + 0x1000) 0x7#64 ⟨_, userTables_tree⟩ (by decide)
    fun e he => ?_).2 ⟨fun _ => ⟨by decide, by decide, by decide⟩, fun e he => ?_⟩⟩
  · rw [hhuge] at he
    cases he
  · rw [hhuge] at he
    obtain ⟨-, rfl⟩ := Prod.mk.inj (Option.some.inj he)
    exact ⟨by decide +kernel, by decide⟩

/-- A 1 GB page is split as if it were one of 2 MB: the page 2 MB on is lost. -/
theorem giant_page_lost : ¬ ∀ (s : Vm) (cr3 : Nat) (phys : BitVec 64) (virt : Nat) (flags : BitVec 64), (∃ ρ, Tree ρ s cr3) →
    virt % PAGE_SIZE = 0 → FrameArgs phys virt flags → MapsPage s cr3 phys virt flags := by
  intro h
  have hmap := h (oneEntry 1 0x40000083#64) 1 0x5000#64 0x40000000 0x7#64 ⟨_, oneEntry_tree (.inr (by decide))⟩ (by decide)
    ⟨by decide, by decide, by decide⟩
  have hdone : ((oneEntry 1 0x40000083#64).vmmMapPage 1 0x5000#64 0x40000000 0x7#64).2 = true := by decide +kernel
  have hoff : OffPage 0x40000000 0x40200000 := by
    unfold OffPage
    decide
  have hbefore : (oneEntry 1 0x40000083#64).vmmVirtToPhys 1 0x40200000 = 0x40200000 := by decide +kernel
  have hafter : ((oneEntry 1 0x40000083#64).vmmMapPage 1 0x5000#64 0x40000000 0x7#64).1.vmmVirtToPhys 1 0x40200000 = 0 := by
    decide +kernel
  have hsame := (hmap.others hdone 0x40200000 hoff).1
  rw [hbefore, hafter] at hsame
  cases hsame

end EterOS.Mm
