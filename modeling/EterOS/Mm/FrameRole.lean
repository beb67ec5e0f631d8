import EterOS.Mm.Clone
import EterOS.Mm.UserAccess
/-!
# FrameRole — a role for every frame of two address spaces

An invariant on two page-table trees at once is awkward to state over trees.  Here each frame in use has one role: a
table of one side at a path of indices, the page at a full path of either side, or part of what the two sides share.
`WellTyped` is then local: a present entry leads to a frame of the role that the table's role and the index ask for.
That no table is reached twice, that a page is reached only at its own address, and that what is shared is apart from
what is private all follow from a frame having one role.
-/
namespace EterOS.Mm

open Function

/-- What a frame is used for; `shared n` is `n` levels above a page. -/
inductive Role where
  | table (side : Bool) (path : List Nat)
  | page (path : List Nat)
  | shared (n : Nat)
  deriving DecidableEq

/-- The role an entry leads to; `none` where nothing is promised: the kernel's half and the first 8 GB. -/
def Role.child : Role → Nat → Option Role
  | .table side [], i => if i = 0 then some (.table side [0]) else if i < 256 then some (.shared 3) else none
  | .table side [a], i => if 8 ≤ i then some (.table side [a, i]) else none
  | .table side [a, b], i => some (.table side [a, b, i])
  | .table _ [a, b, c], i => some (.page [a, b, c, i])
  | .table _ _, _ => none
  | .page _, _ => none
  | .shared 0, _ => none
  | .shared (n + 1), _ => some (.shared n)

def Role.isPage : Role → Bool
  | .page _ | .shared 0 => true
  | _ => false

structure WellTyped (ρ : Nat → Option Role) (s : Vm) : Prop where
  zero : s.pmm.totalPages = 0 ∨ s.pmm.bits 0 = true
  frames : s.pmm.totalPages ≤ 2 ^ 40
  used : ∀ f, ρ f ≠ none → f < s.pmm.totalPages → s.pmm.bits f = true
  page : ∀ f q, ρ f = some (.page q) → f < s.pmm.totalPages ∧ 1 ≤ s.pmm.refCounts f
  inj : ∀ f f' side p, ρ f = some (.table side p) → ρ f' = some (.table side p) → f = f'
  entry : ∀ t r i c, ρ t = some r → i < 512 → present (s.mem t i) = true → r.child i = some c →
    ρ (frameOf (s.mem t i)) = some c ∧ (c.isPage = false → huge (s.mem t i) = false)
  leaf : ∀ t side p i q, ρ t = some (.table side p) → i < 512 → present (s.mem t i) = true →
    (Role.table side p).child i = some (.page q) → user (s.mem t i) = true
  refs : ∀ t t' p i q, ρ t = some (.table true p) → ρ t' = some (.table false p) → i < 512 →
    (Role.table true p).child i = some (.page q) → present (s.mem t i) = true → present (s.mem t' i) = true →
    frameOf (s.mem t i) = frameOf (s.mem t' i) →
    writable (s.mem t i) = false ∧ writable (s.mem t' i) = false ∧ 2 ≤ s.pmm.refCounts (frameOf (s.mem t i))

theorem child_page_side {side side' : Bool} {p : List Nat} {i : Nat} {q : List Nat}
    (h : (Role.table side p).child i = some (.page q)) : (Role.table side' p).child i = some (.page q) := by
  match p, h with
  | [], h =>
    simp only [Role.child] at h
    split at h
    · cases h
    · split at h <;> cases h
  | [a], h =>
    simp only [Role.child] at h
    split at h <;> cases h
  | [a, b], h => cases h
  | [a, b, c], h => exact h
  | _ :: _ :: _ :: _ :: _, h => cases h

theorem child_page_inj {side side' : Bool} {p p' : List Nat} {i i' : Nat} {q : List Nat}
    (h : (Role.table side p).child i = some (.page q)) (h' : (Role.table side' p').child i' = some (.page q)) :
    p = p' ∧ i = i' := by
  have key : ∀ (side : Bool) (p : List Nat) (i : Nat), (Role.table side p).child i = some (.page q) → q = p ++ [i] := by
    intro side p i h
    match p, h with
    | [], h =>
      simp only [Role.child] at h
      split at h
      · cases h
      · split at h <;> cases h
    | [a], h =>
      simp only [Role.child] at h
      split at h <;> cases h
    | [a, b], h => cases h
    | [a, b, c], h =>
      cases h
      rfl
    | _ :: _ :: _ :: _ :: _, h => cases h
  have hq := (key side p i h).symm.trans (key side' p' i' h')
  exact ⟨(List.append_inj' hq rfl).1, by simpa using (List.append_inj' hq rfl).2⟩

def Maps (ρ : Nat → Option Role) (m : Nat → Nat → BitVec 64) (side : Bool) (f : Nat) : Prop :=
  ∃ t p i q, ρ t = some (.table side p) ∧ i < 512 ∧ (Role.table side p).child i = some (.page q) ∧
    present (m t i) = true ∧ frameOf (m t i) = f

/-! ## Walks stay among the roles -/

def userAddr (virt : Nat) : Prop := USER_BASE ≤ virt ∧ virt ≤ USER_LIMIT

theorem userAddr.pml4 {virt : Nat} (h : userAddr virt) : pml4Index virt < 256 := by
  obtain ⟨-, h⟩ := h
  unfold USER_LIMIT at h
  unfold pml4Index
  omega

theorem userAddr.pdpt {virt : Nat} (h : userAddr virt) (h0 : pml4Index virt = 0) : 8 ≤ pdptIndex virt := by
  obtain ⟨h, h'⟩ := h
  unfold USER_BASE at h
  unfold USER_LIMIT at h'
  unfold pml4Index at h0
  unfold pdptIndex
  omega

theorem index_lt (virt : Nat) : pml4Index virt < 512 ∧ pdptIndex virt < 512 ∧ pdIndex virt < 512 ∧ ptIndex virt < 512 := by
  unfold pml4Index pdptIndex pdIndex ptIndex
  omega

def Role.own (side : Bool) : Role → Bool
  | .table side' _ => side' == side
  | .shared _ => true
  | .page _ => false

/-- The roles along the walk for an address, from the top-level table of a side to the page. -/
structure Chain (side : Bool) (virt : Nat) (r1 r2 r3 r4 : Role) : Prop where
  c1 : (Role.table side []).child (pml4Index virt) = some r1
  c2 : r1.child (pdptIndex virt) = some r2
  c3 : r2.child (pdIndex virt) = some r3
  c4 : r3.child (ptIndex virt) = some r4
  tables : r1.isPage = false ∧ r2.isPage = false ∧ r3.isPage = false
  own : r1.own side = true ∧ r2.own side = true ∧ r3.own side = true

theorem chain_low {side : Bool} {virt : Nat} (hv : userAddr virt) (h0 : pml4Index virt = 0) :
    Chain side virt (.table side [0]) (.table side [0, pdptIndex virt]) (.table side [0, pdptIndex virt, pdIndex virt])
      (.page [0, pdptIndex virt, pdIndex virt, ptIndex virt]) := by
  refine ⟨by simp [Role.child, h0], ?_, rfl, rfl, ⟨rfl, rfl, rfl⟩, by simp [Role.own]⟩
  simp [Role.child, hv.pdpt h0]

theorem chain_high {side : Bool} {virt : Nat} (hv : userAddr virt) (h0 : pml4Index virt ≠ 0) :
    Chain side virt (.shared 3) (.shared 2) (.shared 1) (.shared 0) :=
  ⟨by simp [Role.child, h0, hv.pml4], rfl, rfl, rfl, ⟨rfl, rfl, rfl⟩, ⟨rfl, rfl, rfl⟩⟩

theorem exists_chain (side : Bool) {virt : Nat} (hv : userAddr virt) : ∃ r1 r2 r3 r4, Chain side virt r1 r2 r3 r4 := by
  by_cases h0 : pml4Index virt = 0
  · exact ⟨_, _, _, _, chain_low hv h0⟩
  · exact ⟨_, _, _, _, chain_high hv h0⟩

structure Walk (m : Nat → Nat → BitVec 64) (cr3 virt pdpt pd pt : Nat) : Prop where
  p4 : present (m cr3 (pml4Index virt)) = true
  p3 : present (m pdpt (pdptIndex virt)) = true
  p2 : present (m pd (pdIndex virt)) = true
  p1 : present (m pt (ptIndex virt)) = true
  h4 : huge (m cr3 (pml4Index virt)) = false
  h3 : huge (m pdpt (pdptIndex virt)) = false
  h2 : huge (m pd (pdIndex virt)) = false
  f4 : frameOf (m cr3 (pml4Index virt)) = pdpt
  f3 : frameOf (m pdpt (pdptIndex virt)) = pd
  f2 : frameOf (m pd (pdIndex virt)) = pt

def Walk.access (m : Nat → Nat → BitVec 64) (cr3 virt pdpt pd pt : Nat) : Access :=
  ⟨frameOf (m pt (ptIndex virt)), user (m cr3 (pml4Index virt)) && user (m pdpt (pdptIndex virt)) &&
    user (m pd (pdIndex virt)) &&
      user (m pt (ptIndex virt)),
    writable (m cr3 (pml4Index virt)) && writable (m pdpt (pdptIndex virt)) && writable (m pd (pdIndex virt)) &&
      writable (m pt (ptIndex virt))⟩

theorem Walk.translate_eq {m : Nat → Nat → BitVec 64} {cr3 virt pdpt pd pt : Nat} (h : Walk m cr3 virt pdpt pd pt) :
    translate m cr3 virt = some (Walk.access m cr3 virt pdpt pd pt) := by
  unfold translate
  dsimp only
  rw [h.f4, h.p4, h.p3, h.h3, h.f3, h.p2, h.h2, h.f2, h.p1]
  rfl

section
variable {ρ : Nat → Option Role} {s : Vm} {cr3 virt : Nat} {side : Bool} {r1 r2 r3 r4 : Role}

theorem WellTyped.walk (h : WellTyped ρ s) (hr : ρ cr3 = some (.table side [])) (hc : Chain side virt r1 r2 r3 r4) :
    translate s.mem cr3 virt = none ∨ ∃ pdpt pd pt, Walk s.mem cr3 virt pdpt pd pt ∧ ρ pdpt = some r1 ∧
      ρ pd = some r2 ∧ ρ pt = some r3 ∧ ρ (frameOf (s.mem pt (ptIndex virt))) = some r4 := by
  obtain ⟨i4, i3, i2, i1⟩ := index_lt virt
  by_cases p4 : present (s.mem cr3 (pml4Index virt)) = true
  swap
  · left
    simp [translate, p4]
  obtain ⟨hρ1, hh4⟩ := h.entry _ _ _ _ hr i4 p4 hc.c1
  generalize f4 : frameOf (s.mem cr3 (pml4Index virt)) = pdpt at hρ1
  by_cases p3 : present (s.mem pdpt (pdptIndex virt)) = true
  swap
  · left
    simp [translate, f4, p3]
  obtain ⟨hρ2, hh3⟩ := h.entry _ _ _ _ hρ1 i3 p3 hc.c2
  have h3 := hh3 hc.tables.2.1
  generalize f3 : frameOf (s.mem pdpt (pdptIndex virt)) = pd at hρ2
  by_cases p2 : present (s.mem pd (pdIndex virt)) = true
  swap
  · left
    simp [translate, f4, f3, p2, h3]
  obtain ⟨hρ3, hh2⟩ := h.entry _ _ _ _ hρ2 i2 p2 hc.c3
  have h2 := hh2 hc.tables.2.2
  generalize f2 : frameOf (s.mem pd (pdIndex virt)) = pt at hρ3
  by_cases p1 : present (s.mem pt (ptIndex virt)) = true
  swap
  · left
    simp [translate, f4, f3, f2, p1, h3, h2]
  obtain ⟨hρ4, -⟩ := h.entry _ _ _ _ hρ3 i1 p1 hc.c4
  exact .inr ⟨pdpt, pd, pt, ⟨p4, p3, p2, p1, hh4 hc.tables.1, h3, h2, f4, f3, f2⟩, hρ1, hρ2, hρ3, hρ4⟩

variable {m' : Nat → Nat → BitVec 64}

theorem WellTyped.translate_congr (h : WellTyped ρ s) (hr : ρ cr3 = some (.table side []))
    (hc : Chain side virt r1 r2 r3 r4) (hown : ∀ f r, ρ f = some r → r.own side = true → m' f = s.mem f) :
    translate m' cr3 virt = translate s.mem cr3 virt := by
  obtain ⟨i4, i3, i2, i1⟩ := index_lt virt
  unfold translate
  dsimp only
  rw [hown cr3 _ hr (by simp [Role.own])]
  by_cases p4 : present (s.mem cr3 (pml4Index virt)) = true
  swap
  · simp [p4]
  obtain ⟨hρ1, -⟩ := h.entry _ _ _ _ hr i4 p4 hc.c1
  rw [hown _ _ hρ1 hc.own.1]
  generalize frameOf (s.mem cr3 (pml4Index virt)) = pdpt at hρ1
  by_cases p3 : present (s.mem pdpt (pdptIndex virt)) = true
  swap
  · simp [p3]
  obtain ⟨hρ2, -⟩ := h.entry _ _ _ _ hρ1 i3 p3 hc.c2
  rw [hown _ _ hρ2 hc.own.2.1]
  generalize frameOf (s.mem pdpt (pdptIndex virt)) = pd at hρ2
  by_cases p2 : present (s.mem pd (pdIndex virt)) = true
  swap
  · simp [p2]
  obtain ⟨hρ3, -⟩ := h.entry _ _ _ _ hρ2 i2 p2 hc.c3
  rw [hown _ _ hρ3 hc.own.2.2]

theorem WellTyped.read_congr (h : WellTyped ρ s) (hr : ρ cr3 = some (.table side [])) (hv : userAddr virt)
    (hown : ∀ f r, ρ f = some r → r.own side = true → m' f = s.mem f)
    (hpage : ∀ f, Maps ρ s.mem side f → m' f = s.mem f) : userRead m' cr3 virt = userRead s.mem cr3 virt := by
  obtain ⟨r1, r2, r3, r4, hc⟩ := exists_chain side hv
  unfold userRead
  rw [h.translate_congr hr hc hown]
  by_cases h0 : pml4Index virt = 0
  · obtain hnone | ⟨pdpt, pd, pt, hw, hρ1, hρ2, hρ3, hρ4⟩ := h.walk hr (chain_low hv h0)
    · rw [hnone]
    · rw [hw.translate_eq]
      have hmaps : Maps ρ s.mem side (frameOf (s.mem pt (ptIndex virt))) :=
        ⟨pt, _, _, _, hρ3, (index_lt virt).2.2.2, rfl, hw.p1, rfl⟩
      simp only [Walk.access]
      rw [hpage _ hmaps]
  · obtain hnone | ⟨pdpt, pd, pt, hw, hρ1, hρ2, hρ3, hρ4⟩ := h.walk hr (chain_high hv h0)
    · rw [hnone]
    · rw [hw.translate_eq]
      simp only [Walk.access]
      rw [hown _ _ hρ4 rfl]

theorem Walk.tables_eq {pdpt pd pt : Nat} {alloc : Bool} (hw : Walk s.mem cr3 virt pdpt pd pt) :
    s.walkTables cr3 virt alloc = (s, some pt) := by
  simp [Vm.walkTables, Vm.getNextTable, hw.p4, hw.h4, hw.f4, hw.p3, hw.h3, hw.f3, hw.p2, hw.h2, hw.f2]

end

/-! ## The allocator under the roles -/

theorem WellTyped.alloc {ρ : Nat → Option Role} {s : Vm} (h : WellTyped ρ s) :
    (∃ s', s.allocPage = (s', none) ∧ WellTyped ρ s' ∧ s'.mem = s.mem) ∨
    ∃ s' p, s.allocPage = (s', some p) ∧ s'.mem = s.mem ∧ p < s.pmm.totalPages ∧ ρ p = none ∧ p ≠ 0 ∧
      s'.pmm.bits = Function.update s.pmm.bits p true ∧ s'.pmm.refCounts = Function.update s.pmm.refCounts p 1 ∧
      s'.pmm.totalPages = s.pmm.totalPages := by
  unfold Vm.allocPage
  obtain ⟨p, rover, hpos, hp, hc, heq⟩ | ⟨rover, -, heq⟩ := Pmm.pmmAllocPage_spec h.zero
  · right
    have hne : p * PAGE_SIZE ≠ 0 := Nat.mul_ne_zero (by omega) (by decide)
    have hfree : ρ p = none := by
      by_contra hcon
      rw [h.used p hcon hp] at hc
      cases hc
    simp only [heq, if_neg hne, Nat.mul_div_cancel p (show 0 < PAGE_SIZE by decide)]
    exact ⟨_, p, rfl, rfl, hp, hfree, by omega, rfl, rfl, rfl⟩
  · left
    simp only [heq, if_pos]
    exact ⟨_, rfl, ⟨h.zero, h.frames, h.used, h.page, h.inj, h.entry, h.leaf, h.refs⟩, rfl⟩

/-! ## What keeps the roles -/

section
variable {ρ : Nat → Option Role} {s s' : Vm}

theorem WellTyped.ofTables (h : WellTyped ρ s) (hp : s'.pmm = s.pmm)
    (hm : ∀ t r i c, ρ t = some r → r.child i = some c → s'.mem t = s.mem t) : WellTyped ρ s' := by
  refine ⟨hp ▸ h.zero, hp ▸ h.frames, hp ▸ h.used, hp ▸ h.page, h.inj, fun t r i c hr hi hpr hc => ?_,
    fun t side p i q hr hi hpr hc => ?_, fun t t' p i q hr hr' hi hc hpr hpr' hf => ?_⟩
  · rw [hm t r i c hr hc] at hpr ⊢
    exact h.entry t r i c hr hi hpr hc
  · rw [hm t _ i _ hr hc] at hpr ⊢
    exact h.leaf t side p i q hr hi hpr hc
  · rw [hm t _ i _ hr hc] at hpr hf ⊢
    rw [hm t' _ i _ hr' (child_page_side hc)] at hpr' hf ⊢
    rw [hp]
    exact h.refs t t' p i q hr hr' hi hc hpr hpr' hf

/-- One entry of a page table may change to another for the same address, so long as a frame both sides map is
writable from neither and counted twice. -/
theorem WellTyped.setLeaf (h : WellTyped ρ s) {t i : Nat} {side : Bool} {p q : List Nat} {e : BitVec 64}
    (ht : ρ t = some (.table side p)) (hc : (Role.table side p).child i = some (.page q))
    (he : present e = true → ρ (frameOf e) = some (.page q) ∧ user e = true)
    (hrefs : ∀ t', ρ t' = some (.table (!side) p) → present e = true → present (s.mem t' i) = true →
      frameOf e = frameOf (s.mem t' i) →
      writable e = false ∧ writable (s.mem t' i) = false ∧ 2 ≤ s.pmm.refCounts (frameOf e)) :
    WellTyped ρ (s.write t i e) := by
  have hmem : ∀ u j, ¬ (u = t ∧ j = i) → (s.write t i e).mem u j = s.mem u j := fun u j hu => by
    rw [Vm.write_mem, if_neg hu]
  have hat : (s.write t i e).mem t i = e := by rw [Vm.write_mem, if_pos ⟨rfl, rfl⟩]
  refine ⟨h.zero, h.frames, h.used, h.page, h.inj, fun u r j c hr hj hp hcj => ?_,
    fun u side' p' j q' hr hj hp hcj => ?_, fun u u' p' j q' hr hr' hj hcj hp hp' hf => ?_⟩
  · by_cases hu : u = t ∧ j = i
    · obtain ⟨rfl, rfl⟩ := hu
      rw [hat] at hp ⊢
      rw [ht] at hr
      cases hr
      rw [hc] at hcj
      cases hcj
      exact ⟨(he hp).1, fun hpage => by cases hpage⟩
    · rw [hmem u j hu] at hp ⊢
      exact h.entry u r j c hr hj hp hcj
  · by_cases hu : u = t ∧ j = i
    · obtain ⟨rfl, rfl⟩ := hu
      rw [hat] at hp ⊢
      exact (he hp).2
    · rw [hmem u j hu] at hp ⊢
      exact h.leaf u side' p' j q' hr hj hp hcj
  · by_cases hu : u = t ∧ j = i
    · obtain ⟨rfl, rfl⟩ := hu
      rw [ht] at hr
      cases hr
      have hne : ¬ (u' = u ∧ j = j) := fun hu => by
        rw [hu.1, ht] at hr'
        cases hr'
      rw [hat] at hp hf ⊢
      rw [hmem u' j hne] at hp' hf ⊢
      exact hrefs u' hr' hp hp' hf
    · by_cases hu' : u' = t ∧ j = i
      · obtain ⟨rfl, rfl⟩ := hu'
        rw [ht] at hr'
        cases hr'
        rw [hat] at hp' hf ⊢
        rw [hmem u j hu] at hp hf ⊢
        obtain ⟨h1, h2, h3⟩ := hrefs u hr hp' hp hf.symm
        exact ⟨h2, h1, hf ▸ h3⟩
      · rw [hmem u j hu] at hp hf ⊢
        rw [hmem u' j hu'] at hp' hf ⊢
        exact h.refs u u' p' j q' hr hr' hj hcj hp hp' hf

theorem WellTyped.setLink (h : WellTyped ρ s) {t i : Nat} {r : Role} {e : BitVec 64} (ht : ρ t = some r)
    (hnp : ∀ q, r.child i ≠ some (.page q))
    (he : present e = true → ∀ c, r.child i = some c → ρ (frameOf e) = some c ∧ (c.isPage = false → huge e = false)) :
    WellTyped ρ (s.write t i e) := by
  have hmem : ∀ u j, ¬ (u = t ∧ j = i) → (s.write t i e).mem u j = s.mem u j := fun u j hu => by
    rw [Vm.write_mem, if_neg hu]
  have hat : (s.write t i e).mem t i = e := by rw [Vm.write_mem, if_pos ⟨rfl, rfl⟩]
  have hnot : ∀ u side p j q, ρ u = some (.table side p) → (Role.table side p).child j = some (.page q) →
      ¬ (u = t ∧ j = i) := by
    rintro u side p j q hu hc ⟨rfl, rfl⟩
    rw [ht] at hu
    cases hu
    exact hnp q hc
  refine ⟨h.zero, h.frames, h.used, h.page, h.inj, fun u r' j c hr hj hp hcj => ?_,
    fun u side p j q hr hj hp hcj => ?_, fun u u' p j q hr hr' hj hcj hp hp' hf => ?_⟩
  · by_cases hu : u = t ∧ j = i
    · obtain ⟨rfl, rfl⟩ := hu
      rw [hat] at hp ⊢
      rw [ht] at hr
      cases hr
      exact he hp c hcj
    · rw [hmem u j hu] at hp ⊢
      exact h.entry u r' j c hr hj hp hcj
  · rw [hmem u j (hnot u side p j q hr hcj)] at hp ⊢
    exact h.leaf u side p j q hr hj hp hcj
  · rw [hmem u j (hnot u true p j q hr hcj)] at hp hf ⊢
    rw [hmem u' j (hnot u' false p j q hr' (child_page_side hcj))] at hp' hf ⊢
    exact h.refs u u' p j q hr hr' hj hcj hp hp' hf

/-- A frame without a role may be given one, when it leads nowhere yet and the role is nobody's. -/
theorem WellTyped.extend (h : WellTyped ρ s) {p : Nat} {r : Role} (hp : ρ p = none) (hpt : p < s.pmm.totalPages)
    (hm : ∀ f, f ≠ p → s'.mem f = s.mem f) (hb : s'.pmm.bits = Function.update s.pmm.bits p true)
    (hcnt : s'.pmm.refCounts = Function.update s.pmm.refCounts p 1) (ht : s'.pmm.totalPages = s.pmm.totalPages)
    (hempty : ∀ i c, i < 512 → r.child i = some c → present (s'.mem p i) = false)
    (hnew : ∀ side q, r = .table side q → ∀ f, ρ f ≠ some (.table side q)) :
    WellTyped (Function.update ρ p (some r)) s' := by
  have hof : ∀ f r', f ≠ p → Function.update ρ p (some r) f = some r' → ρ f = some r' := fun f r' hf h' => by
    rwa [update_of_ne hf] at h'
  have hto : ∀ f r', ρ f = some r' → f ≠ p ∧ Function.update ρ p (some r) f = some r' := fun f r' h' => by
    have hfp : f ≠ p := by
      rintro rfl
      rw [hp] at h'
      cases h'
    exact ⟨hfp, by rw [update_of_ne hfp, h']⟩
  have hat : Function.update ρ p (some r) p = some r := update_self ..
  -- an entry of the new frame that matters is not present
  have hdead : ∀ t r' i c, Function.update ρ p (some r) t = some r' → i < 512 → present (s'.mem t i) = true →
      r'.child i = some c → t ≠ p := fun t r' i c hr' hi hpr hc htp => by
    rw [htp, hat] at hr'
    cases hr'
    rw [htp, hempty i c hi hc] at hpr
    cases hpr
  refine ⟨?_, ht ▸ h.frames, fun f hf hft => ?_, fun f q hf => ?_, fun f f' side q hf hf' => ?_,
    fun t r' i c hr' hi hpr hc => ?_, fun t side q i q' hr' hi hpr hc => ?_,
    fun t t' q i q' hr hr' hi hc hpr hpr' hfr => ?_⟩
  · rw [ht, hb]
    rcases h.zero with h0 | h0
    · exact .inl h0
    · right
      by_cases hp0 : (0 : Nat) = p
      · rw [hp0, update_self]
      · rw [update_of_ne hp0, h0]
  · rw [hb]
    by_cases hfp : f = p
    · rw [hfp, update_self]
    · rw [update_of_ne hfp] at hf ⊢
      exact h.used f hf (ht ▸ hft)
  · rw [ht, hcnt]
    by_cases hfp : f = p
    · rw [hfp, update_self]
      exact ⟨hpt, Nat.le_refl 1⟩
    · rw [update_of_ne hfp]
      exact h.page f q (hof f _ hfp hf)
  · by_cases hfp : f = p
    · by_cases hfp' : f' = p
      · rw [hfp, hfp']
      · rw [hfp, hat] at hf
        exact absurd (hof f' _ hfp' hf') (hnew side q (Option.some.inj hf) f')
    · by_cases hfp' : f' = p
      · rw [hfp', hat] at hf'
        exact absurd (hof f _ hfp hf) (hnew side q (Option.some.inj hf') f)
      · exact h.inj f f' side q (hof f _ hfp hf) (hof f' _ hfp' hf')
  · have htp := hdead t r' i c hr' hi hpr hc
    rw [hm t htp] at hpr ⊢
    obtain ⟨hc1, hc2⟩ := h.entry t r' i c (hof t _ htp hr') hi hpr hc
    exact ⟨(hto _ _ hc1).2, hc2⟩
  · have htp := hdead t _ i _ hr' hi hpr hc
    rw [hm t htp] at hpr ⊢
    exact h.leaf t side q i q' (hof t _ htp hr') hi hpr hc
  · have htp := hdead t _ i _ hr hi hpr hc
    have htp' := hdead t' _ i _ hr' hi hpr' (child_page_side hc)
    rw [hm t htp] at hpr hfr ⊢
    rw [hm t' htp'] at hpr' hfr ⊢
    have hpage := (h.entry t _ i _ (hof t _ htp hr) hi hpr hc).1
    rw [hcnt, update_of_ne (hto _ _ hpage).1]
    exact h.refs t t' q i q' (hof t _ htp hr) (hof t' _ htp' hr') hi hc hpr hpr' hfr

theorem WellTyped.recount (h : WellTyped ρ s) {f n : Nat} (hm : s'.mem = s.mem) (hb : s'.pmm.bits = s.pmm.bits)
    (ht : s'.pmm.totalPages = s.pmm.totalPages) (hcnt : s'.pmm.refCounts = Function.update s.pmm.refCounts f n)
    (hn : 1 ≤ n) (hup : s.pmm.refCounts f ≤ n ∨ ∀ t t' p i q, ρ t = some (.table true p) →
      ρ t' = some (.table false p) → i < 512 → (Role.table true p).child i = some (.page q) →
      present (s.mem t i) = true → present (s.mem t' i) = true → frameOf (s.mem t i) = f →
      frameOf (s.mem t' i) ≠ f) : WellTyped ρ s' := by
  refine ⟨?_, ht ▸ h.frames, fun g hg hgt => ?_, fun g q hg => ?_, h.inj, fun t r i c hr hi hpr hc => ?_,
    fun t side p i q hr hi hpr hc => ?_, fun t t' p i q hr hr' hi hc hpr hpr' hfr => ?_⟩
  · rw [ht, hb]
    exact h.zero
  · rw [hb]
    exact h.used g hg (ht ▸ hgt)
  · obtain ⟨h1, h2⟩ := h.page g q hg
    rw [ht, hcnt]
    refine ⟨h1, ?_⟩
    by_cases hgf : g = f
    · rw [hgf, update_self]
      exact hn
    · rw [update_of_ne hgf]
      exact h2
  · rw [hm] at hpr ⊢
    exact h.entry t r i c hr hi hpr hc
  · rw [hm] at hpr ⊢
    exact h.leaf t side p i q hr hi hpr hc
  · rw [hm] at hpr hpr' hfr ⊢
    obtain ⟨h1, h2, h3⟩ := h.refs t t' p i q hr hr' hi hc hpr hpr' hfr
    refine ⟨h1, h2, ?_⟩
    rw [hcnt]
    by_cases hgf : frameOf (s.mem t i) = f
    · rw [hgf, update_self]
      rcases hup with hup | hup
      · rw [hgf] at h3
        omega
      · exact absurd (hfr ▸ hgf) (hup t t' p i q hr hr' hi hc hpr hpr' hgf)
    · rw [update_of_ne hgf]
      exact h3

end

end EterOS.Mm
