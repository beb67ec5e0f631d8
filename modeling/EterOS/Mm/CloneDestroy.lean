import EterOS.Mm.Clone
/-!
# CloneDestroy — when `vmm_destroy_pml4(vmm_clone_pml4(cow))` leaves the page allocator as it was

The clone decides by level and index what it shares, the teardown by `PAGE_USER` what it frees.  The two agree on the
part that is copied (`Clone`); an entry shared as it is that carries `PAGE_USER` makes the teardown release a table
that the clone never took.
-/
namespace EterOS.Mm
namespace Vm

open List

/-- A frame nobody may be handed: held by someone, or not the allocator's to give. -/
def inUse (usable : Nat → Prop) (out : Nat → Nat) (f : Nat) : Prop := usable f → 0 < out f

def SharedAt (m : Nat → Nat → BitVec 64) (cr3 : Nat) (e : BitVec 64) : Prop :=
  present e = true ∧ ((∃ i, 0 < i ∧ i < 512 ∧ e = m cr3 i) ∨ ∃ k < 8, e = m (frameOf (m cr3 0)) k)

/-- No entry that a clone copies as it is carries `PAGE_USER`. -/
def NoUserShared (m : Nat → Nat → BitVec 64) (cr3 : Nat) : Prop := ∀ e, SharedAt m cr3 e → user e = false

/-- An address space as `task_exec` builds it and `get_next_table` extends it, in a system whose references are in
order.  An entry that is shared and carries `PAGE_USER` leads to a table of managed memory that is no user page. -/
structure SpaceOk (usable : Nat → Prop) (out : Nat → Nat) (s : Vm) (cr3 : Nat) : Prop where
  accounts : Accounts usable s.pmm out
  frames : s.pmm.totalPages ≤ 2 ^ 40
  src : SrcOk (inUse usable out) False s.mem 4 cr3
  low : present (s.mem cr3 0) = true
  refs : ∀ p, inUse usable out p → out p + (leaves s.mem 4 cr3).count p < 65535
  shared : ∀ e, SharedAt s.mem cr3 e → user e = true → huge e = false ∧ frameOf e < s.pmm.totalPages ∧
    inUse usable out (frameOf e) ∧ frameOf e ∉ leaves s.mem 4 cr3

structure Neutral (s s2 : Vm) : Prop where
  bits : ∀ p < s.pmm.totalPages, s2.pmm.bits p = s.pmm.bits p
  counts : ∀ p < s.pmm.totalPages, s.pmm.bits p = true → s2.pmm.refCounts p = s.pmm.refCounts p

theorem neutral_of_accounts {usable : Nat → Prop} {out : Nat → Nat} {s s2 : Vm} (h : Accounts usable s.pmm out)
    (h₂ : Accounts usable s2.pmm out) (ht : s2.pmm.totalPages = s.pmm.totalPages) : Neutral s s2 := by
  have hbits : ∀ p < s.pmm.totalPages, s2.pmm.bits p = s.pmm.bits p := by
    intro p hp
    have h1 := (h.page p hp).clear_iff
    have h2 := (h₂.page p (ht ▸ hp)).clear_iff
    rw [Bool.eq_iff_iff, ← Bool.not_eq_false, ← Bool.not_eq_false, h1, h2]
  refine ⟨hbits, fun p hp hset => ?_⟩
  have h1 := h.page p hp
  have h2 := h₂.page p (ht ▸ hp)
  by_cases hu : usable p
  · have hpos : 0 < out p := by
      rcases Nat.eq_zero_or_pos (out p) with h0 | hpos
      · have := h1.clear_iff.2 ⟨hu, h0⟩
        rw [hset] at this
        cases this
      · exact hpos
    rw [h2.count_usable hu hpos, h1.count_usable hu hpos]
  · rw [h2.count_reserved hu, h1.count_reserved hu]

/-! ## Giving back exactly what was taken -/

section
variable {usable : Nat → Prop} {out : Nat → Nat} {s : Vm} {cr3 : Nat}

variable {p : Nat}

theorem destroy_neutral (h : Accounts usable s.pmm out) {s1 : Vm} {g : Nat → Nat}
    (h₁ : Accounts usable s1.pmm fun q => Ledger.gain out p q + g q) (ht : s1.pmm.totalPages = s.pmm.totalPages)
    (hg : ∀ q, (freed s1.mem 4 p).count q = g q) :
    ∃ s2, s1.vmmDestroyPml4 (some p) = .ok s2 ∧ Neutral s s2 := by
  have hcount : ∀ q, (freed s1.mem 4 p ++ [p]).count q = g q + one p q := fun q => by
    rw [count_append, hg, count_single]
  rw [gain_eq] at h₁
  beta_reduce at h₁
  obtain ⟨s2, hok, hacc⟩ := freeAll_accounts (freed s1.mem 4 p ++ [p]) s1 _ h₁ fun q => by
    rw [hcount]
    omega
  refine ⟨s2, by rw [vmmDestroyPml4_eq, hok], neutral_of_accounts h ?_ ((freeAll_counts _ _ _ hok).1.trans ht)⟩
  have heq : (fun q => out q + one p q + g q - (freed s1.mem 4 p ++ [p]).count q) = out := by
    funext q
    rw [hcount]
    omega
  rw [heq] at hacc
  exact hacc

variable {t : Vm}

theorem ready_top (h : SpaceOk usable out s cr3) (htt : t.pmm.totalPages = s.pmm.totalPages)
    (hup : usable p) (hout : out p = 0) (hta : Accounts usable t.pmm (Ledger.gain out p)) :
    Ready usable (inUse usable out) p (t.zeroPage p) (Ledger.gain out p) := by
  refine ⟨hta, fun f hl hu => ?_, htt ▸ h.frames, fun hl => ?_, ?_⟩
  · have := hl hu
    rw [gain_eq]
    dsimp only
    omega
  · have := hl hup
    omega
  · rw [gain_eq]
    simp [one]

theorem live_ne (hup : usable p) (hout : out p = 0) {f : Nat} (hf : inUse usable out f) : f ≠ p := by
  rintro rfl
  have := hf hup
  omega

theorem top_walk (htm : t.mem = s.mem) (hup : usable p) (hout : out p = 0) :
    ∀ f, inUse usable out f → ∀ j, SameWalk (s.mem f j) ((t.zeroPage p).mem f j) := by
  intro f hf j
  rw [zeroPage_mem_ne (live_ne hup hout hf), htm]
  exact SameWalk.refl _

theorem top_bound (h : SpaceOk usable out s cr3) (htm : t.mem = s.mem) (hup : usable p) (hout : out p = 0) :
    ∀ q, inUse usable out q →
      Ledger.gain out p q + (leaves (t.zeroPage p).mem 4 cr3).count q < 65535 := by
  intro q hq
  rw [leaves_congr (top_walk htm hup hout) h.src, Ledger.gain, Function.update_of_ne (live_ne hup hout hq)]
  exact h.refs q hq

variable {live : Nat → Prop} {m : Nat → Nat → BitVec 64}

theorem SrcOk.low {F F' : Prop} : ∀ {level table : Nat}, level ≤ 2 → SrcOk live F m level table → SrcOk live F' m level table
  | 0, _, _, _ => trivial
  | level + 1, table, hl, h => by
    refine ⟨h.1, fun i hi hp => ?_⟩
    have hs : sharedEntry (level + 1) i = false := by
      have h4 : (level + 1 == 4) = false := by
        rw [beq_eq_false_iff_ne]
        omega
      have h3 : (level + 1 == 3) = false := by
        rw [beq_eq_false_iff_ne]
        omega
      simp [sharedEntry, h4, h3]
    have hi := h.2 i hi hp
    rw [if_neg (by simp [hs])] at hi ⊢
    split
    · rename_i hgt
      rw [if_pos hgt] at hi
      exact ⟨hi.1, hi.2.1, hi.2.2.low (by omega)⟩
    · rename_i hgt
      rwa [if_neg hgt] at hi

theorem SrcOk.noUser (h : SrcOk live False m 4 cr3) : SrcOk live (NoUserShared m cr3) m 4 cr3 := by
  refine ⟨h.1, fun i hi hp => ?_⟩
  have hentry := h.2 i hi hp
  by_cases h0 : i = 0
  · subst h0
    rw [if_neg (by decide), if_pos (by decide)] at hentry ⊢
    refine ⟨hentry.1, hentry.2.1, hentry.2.2.1, fun k hk hpk => ?_⟩
    have hk' := hentry.2.2.2 k hk hpk
    split
    · rename_i hs
      have hk8 : k < 8 := by simpa [sharedEntry] using hs
      exact fun hno => hno _ ⟨hpk, .inr ⟨k, hk8, rfl⟩⟩
    · rename_i hs
      rw [if_neg hs, if_pos (by decide)] at hk'
      exact ⟨hk'.1, hk'.2.1, hk'.2.2.low (by decide)⟩
  · rw [if_pos (by simp [sharedEntry, h0])]
    exact fun hno => hno _ ⟨hp, .inl ⟨i, by omega, hi, rfl⟩⟩

theorem neutral_of_noUser (h : SpaceOk usable out s cr3) (asCow : Bool) (hno : NoUserShared s.mem cr3) :
    ∃ s1 b s2, s.vmmClonePml4 cr3 asCow = .ok (s1, b) ∧ s1.vmmDestroyPml4 b = .ok s2 ∧ Neutral s s2 := by
  unfold vmmClonePml4
  obtain ⟨t, heq, htm, htt, hta⟩ | ⟨t, p, heq, htm, htt, hpt, hup, hout, hta⟩ := allocPage_accounts h.accounts
  · rw [heq]
    exact ⟨t, none, t, rfl, rfl, neutral_of_accounts h.accounts hta htt⟩
  rw [heq]
  have hwalk := top_walk htm hup hout
  obtain ⟨s1, g, hok, hd⟩ := clonePt_done asCow 4 p cr3 (t.zeroPage p) (Ledger.gain out p)
    (ready_top h htt hup hout hta) (fun i _ => by simp [zeroPage]) (h.src.noUser.congr hwalk) (top_bound h htm hup hout)
  obtain ⟨s2, hs2, hneutral⟩ := destroy_neutral h.accounts hd.grown.accounts (hd.grown.total.trans htt) (hd.gives hno)
  exact ⟨s1, some p, s2, by simp [hok, Except.map], hs2, hneutral⟩

/-! ## Too little memory for the second table -/

theorem clearPages_take {pmm : Pmm} {rover : Nat} (hp : p < pmm.totalPages) (hc : pmm.bits p = false) :
    ({ pmm.takePage p with lastFreeIdx := rover } : Pmm).clearPages + 1 = pmm.clearPages := by
  rw [← Pmm.clearPages_of_set hp hc]
  rfl

theorem allocPage_cases (ha : Accounts usable s.pmm out) : (s.pmm.clearPages = 0 ∧ ∃ t, s.allocPage = (t, none)) ∨
      ∃ t p, s.allocPage = (t, some p) ∧ t.pmm.clearPages + 1 = s.pmm.clearPages := by
  unfold allocPage
  obtain ⟨p, rover, hpos, hp, hc, heq⟩ | ⟨rover, hall, heq⟩ := Pmm.pmmAllocPage_spec ha.pageZero
  · right
    have hne : p * PAGE_SIZE ≠ 0 := Nat.mul_ne_zero (by omega) (by decide)
    simp only [heq, if_neg hne]
    exact ⟨_, _, rfl, clearPages_take hp hc⟩
  · left
    simp only [heq, if_pos]
    refine ⟨?_, _, rfl⟩
    refine Finset.card_eq_zero.2 (Finset.filter_eq_empty_iff.2 fun p hp hcl => ?_)
    rw [hall p (Finset.mem_range.1 hp)] at hcl
    cases hcl

theorem range_512 : List.range 512 = 0 :: List.range' 1 511 := by rw [range_eq_range', List.range'_succ]

theorem freed_zero (hz : ∀ i, m p i = 0#64) : freed m 4 p = [] := by
  rw [freed]
  exact flatMap_zero fun i _ => hz i

/-- With fewer than two free pages the clone is a top-level table with nothing in it, or nothing at all. -/
theorem neutral_of_noMemory (h : SpaceOk usable out s cr3) (asCow : Bool) (hmem : s.pmm.clearPages < 2) :
    ∃ s1 b s2, s.vmmClonePml4 cr3 asCow = .ok (s1, b) ∧ s1.vmmDestroyPml4 b = .ok s2 ∧ Neutral s s2 := by
  unfold vmmClonePml4
  obtain ⟨t, heq, htm, htt, hta⟩ | ⟨t, p, heq, htm, htt, hpt, hup, hout, hta⟩ := allocPage_accounts h.accounts
  · rw [heq]
    exact ⟨t, none, t, rfl, rfl, neutral_of_accounts h.accounts hta htt⟩
  rw [heq]
  have hclear : (t.zeroPage p).pmm.clearPages = 0 := by
    obtain ⟨-, _, hnone⟩ | ⟨t', p', heq', hc⟩ := allocPage_cases h.accounts
    · rw [hnone] at heq
      cases heq
    · rw [heq'] at heq
      cases heq
      show t.pmm.clearPages = 0
      omega
  have hpc : p ≠ cr3 := Ne.symm (live_ne hup hout h.src.1)
  have hlow : present ((t.zeroPage p).mem cr3 0) = true := by
    rw [zeroPage_mem_ne (Ne.symm hpc), htm]
    exact h.low
  have hta' : Accounts usable (t.zeroPage p).pmm (Ledger.gain out p) := hta
  obtain ⟨u, hu, hum, hut, hua⟩ | ⟨u, q, hu, -⟩ := allocPage_accounts hta'
  · -- the first entry of the top level stops the loop
    have hclone : clonePt asCow 4 p cr3 (t.zeroPage p) = .ok u := by
      rw [clonePt, range_512, forEntries, cloneBody, hlow, hu]
      rfl
    have hz : ∀ i, u.mem p i = 0#64 := fun i => by
      rw [hum]
      simp [zeroPage]
    obtain ⟨s2, hs2, hneutral⟩ := destroy_neutral (p := p) (g := fun _ => 0) h.accounts hua (hut.trans htt)
      fun q => by
        rw [freed_zero hz]
        rfl
    exact ⟨u, some p, s2, by simp [hclone, Except.map], hs2, hneutral⟩
  · obtain ⟨-, _, hnone⟩ | ⟨t', p', heq', hc⟩ := allocPage_cases hta'
    · rw [hnone] at hu
      cases hu
    · omega

/-! ## A shared entry with `PAGE_USER` -/

variable {dest : Nat}

theorem forEntries_shared (asCow : Bool) (below : Nat → Nat → Vm → Except PmmPanic Vm) {level src : Nat}
    (hne : src ≠ dest) : ∀ (is : List Nat) (s : Vm), (∀ i ∈ is, sharedEntry level i = true) →
    ∃ s', (∀ js, forEntries (cloneBody asCow below level dest src) (is ++ js) s =
        forEntries (cloneBody asCow below level dest src) js s') ∧
      s'.pmm = s.pmm ∧ (∀ f, f ≠ dest → s'.mem f = s.mem f) ∧
      (∀ i ∈ is, present (s.mem src i) = true → s'.mem dest i = s.mem src i) ∧
      ∀ j, j ∉ is → s'.mem dest j = s.mem dest j
  | [], s, _ => ⟨s, fun _ => rfl, rfl, fun _ _ => rfl, fun i hi => absurd hi not_mem_nil, fun _ _ => rfl⟩
  | i :: is, s, hall => by
    have hs : sharedEntry level i = true := hall i mem_cons_self
    have hall' : ∀ j ∈ is, sharedEntry level j = true := fun j hj => hall j (mem_cons_of_mem _ hj)
    by_cases hp : present (s.mem src i) = true
    · obtain ⟨s', hloop, hpmm, hframe, hcopy, hother⟩ :=
        forEntries_shared asCow below hne is (s.write dest i (s.mem src i)) hall'
      have hsrc : (s.write dest i (s.mem src i)).mem src = s.mem src := write_mem_ne hne
      rw [hsrc] at hcopy
      refine ⟨s', fun js => ?_, hpmm, fun f hf => ?_, fun j hj hpj => ?_, fun j hj => ?_⟩
      · rw [cons_append, forEntries, cloneBody, hp, hs]
        exact hloop js
      · rw [hframe f hf, write_mem_ne hf]
      · by_cases hjs : j ∈ is
        · exact hcopy j hjs hpj
        · obtain rfl : j = i := (mem_cons.1 hj).resolve_right hjs
          rw [hother j hjs, write_mem, if_pos ⟨rfl, rfl⟩]
      · rw [hother j fun h => hj (mem_cons_of_mem _ h)]
        exact write_dest_other j fun h => hj (h ▸ mem_cons_self)
    · have hp' : present (s.mem src i) = false := by simpa using hp
      obtain ⟨s', hloop, hpmm, hframe, hcopy, hother⟩ := forEntries_shared asCow below hne is s hall'
      refine ⟨s', fun js => ?_, hpmm, hframe, fun j hj hpj => ?_, fun j hj => hother j fun h => hj (mem_cons_of_mem _ h)⟩
      · rw [cons_append, forEntries, cloneBody, hp']
        exact hloop js
      · rcases mem_cons.1 hj with rfl | hj
        · rw [hp'] at hpj
          cases hpj
        · exact hcopy j hj hpj

theorem range_split : List.range 512 = List.range' 0 8 ++ List.range' 8 504 := by
  rw [range_eq_range', List.range'_append_1]

theorem clonePt_three {asCow : Bool} {src : Nat} (hr : Ready usable live dest s out)
    (hzero : ∀ i < 512, s.mem dest i = 0#64) (hsrc : SrcOk live False s.mem 3 src)
    (hbound : ∀ p, live p → out p + (leaves s.mem 3 src).count p < 65535) {s' : Vm}
    (hok : clonePt asCow 3 dest src s = .ok s') :
    ∀ k < 8, present (s.mem src k) = true → s'.mem dest k = s.mem src k := by
  have hne : src ≠ dest := fun h => hr.dest_new (h ▸ hsrc.1)
  have hlow : ∀ i ∈ List.range' 0 8, sharedEntry 3 i = true := fun i hi => by
    obtain ⟨-, hi⟩ := mem_range'_1.1 hi
    simp [sharedEntry]
    omega
  obtain ⟨t, hloop, hpmm, hframe, hcopy, hother⟩ := forEntries_shared asCow (clonePt asCow 2) hne (List.range' 0 8) s hlow
  rw [clonePt, range_split, hloop] at hok
  have hdne : ∀ f, live f → t.mem f = s.mem f := fun f hf => hframe f fun h => hr.dest_new (h ▸ hf)
  have hwalk : ∀ f, live f → ∀ j, SameWalk (s.mem f j) (t.mem f j) := fun f hf j => by
    rw [hdne f hf]
    exact SameWalk.refl _
  have hr' : Ready usable live dest t out := ⟨hpmm ▸ hr.accounts, hr.held, hpmm ▸ hr.frames, hr.dest_new, hr.dest_held⟩
  have hleaves : leaves t.mem 3 src = (List.range' 8 504).flatMap fun i =>
      leavesEntry (leaves t.mem 2) 3 i (t.mem src i) := by
    rw [leaves, range_split, flatMap_append]
    have hnil : ((List.range' 0 8).flatMap fun i => leavesEntry (leaves t.mem 2) 3 i (t.mem src i)) = [] := by
      rw [flatMap_eq_nil_iff]
      intro i hi
      unfold leavesEntry
      rw [hlow i hi]
      split <;> rfl
    rw [hnil, nil_append]
  obtain ⟨s'', h, hok', hd⟩ := cloneLoop_done (clonePt_done asCow 2) (List.range' 8 504) t out
    (nodup_range' ) (fun i hi => by have := (mem_range'_1.1 hi).2; omega) hr' (hsrc.congr hwalk)
    (fun i hi => by
      have hi' := mem_range'_1.1 hi
      rw [hother i fun h => by have := (mem_range'_1.1 h).2; omega]
      exact hzero i (by omega))
    (fun p hp => by
      have := hbound p hp
      rw [← leaves_congr hwalk hsrc, hleaves] at this
      exact this)
  rw [hok] at hok'
  obtain rfl := Except.ok.inj hok'
  intro k hk hp
  rw [hd.other k fun h => by have := (mem_range'_1.1 h).1; omega]
  exact hcopy k (mem_range'_1.2 ⟨Nat.zero_le _, by omega⟩) hp

theorem mem_freed {level table i f : Nat} (hi : i < 512) (hp : present (m table i) = true)
    (hu : user (m table i) = true) (hh : huge (m table i) = false ∨ level = 3) (hl : 0 < level)
    (hf : f = frameOf (m table i) ∨ f ∈ freed m level (frameOf (m table i))) : f ∈ freed m (level + 1) table := by
  rw [freed, mem_flatMap]
  refine ⟨i, mem_range.2 hi, ?_⟩
  have hnh : ¬ ((level + 1 = 3 ∨ level + 1 = 2) ∧ huge (m table i) = true) := by
    rcases hh with hh | hh
    · simp [hh]
    · omega
  unfold freedEntry
  rw [if_neg (by simp [hp]), if_neg (by simp [hu]), if_neg hnh, if_pos (by omega), mem_append, mem_singleton]
  exact hf.symm

/-- The first turn at the top level, with memory for the new PDPT: where the PDPT went, and what is in it. -/
theorem cloneBody_top (asCow : Bool) (hr : Ready usable live dest s out)
    (hsrc : SrcOk live False s.mem 4 cr3) (hlow : present (s.mem cr3 0) = true)
    (hbound : ∀ p, live p → out p + (leaves s.mem 3 (frameOf (s.mem cr3 0))).count p < 65535)
    (hmem : 0 < s.pmm.clearPages) :
    ∃ s' p, cloneBody asCow (clonePt asCow 3) 4 dest cr3 0 s = .ok (s', true) ∧ p ≠ dest ∧
      present (s'.mem dest 0) = true ∧ user (s'.mem dest 0) = true ∧ frameOf (s'.mem dest 0) = p ∧
      (∀ k < 8, present (s.mem (frameOf (s.mem cr3 0)) k) = true → s'.mem p k = s.mem (frameOf (s.mem cr3 0)) k) ∧
      ∀ i, SameWalk (s.mem cr3 i) (s'.mem cr3 i) := by
  have hentry := hsrc.2 0 (by decide) hlow
  rw [if_neg (by decide), if_pos (by decide)] at hentry
  obtain ⟨hu, -, hchild⟩ := hentry
  obtain ⟨t, heq, -⟩ | ⟨t, p, heq, htm, htt, hpt, hup, hout, hta⟩ := allocPage_accounts hr.accounts
  · obtain ⟨hc, -⟩ | ⟨_, _, hsome, -⟩ := allocPage_cases hr.accounts
    · omega
    · rw [hsome] at heq
      cases heq
  obtain ⟨hpl, hpd⟩ := hr.fresh hup hout
  have hmem' : ∀ f, f ≠ p → (t.zeroPage p).mem f = s.mem f := fun f hf => by rw [zeroPage_mem_ne hf, htm]
  have hlive : ∀ f, live f → (t.zeroPage p).mem f = s.mem f := fun f hf => hmem' f fun h => hpl (h ▸ hf)
  have hwalk : ∀ f, live f → ∀ j, SameWalk (s.mem f j) ((t.zeroPage p).mem f j) := fun f hf j => by
    rw [hlive f hf]
    exact SameWalk.refl _
  have hgain : ∀ f, out f ≤ Ledger.gain out p f := fun f => by
    rw [gain_eq]
    exact Nat.le_add_right _ _
  have hready : Ready usable live p (t.zeroPage p) (Ledger.gain out p) := by
    refine ⟨hta, fun f hl hf => (hr.held f hl hf).trans_le (hgain f), htt ▸ hr.frames, hpl, ?_⟩
    rw [gain_eq]
    simp [one]
  have hz : ∀ j < 512, (t.zeroPage p).mem p j = 0#64 := fun j _ => by simp [zeroPage]
  have hbound' : ∀ q, live q →
      Ledger.gain out p q + (leaves (t.zeroPage p).mem 3 (frameOf (s.mem cr3 0))).count q < 65535 := fun q hq => by
    have hqp : q ≠ p := fun h => hpl (h ▸ hq)
    rw [leaves_congr hwalk hchild, Ledger.gain, Function.update_of_ne hqp]
    exact hbound q hq
  obtain ⟨sb, hb, hok, hdone⟩ := clonePt_done asCow 3 p _ (t.zeroPage p) (Ledger.gain out p) hready hz
    (hchild.congr hwalk) hbound'
  have hcopy := clonePt_three hready hz (hchild.congr hwalk) hbound' hok
  rw [hlive _ hchild.1] at hcopy
  have hsrcwalk : ∀ i, SameWalk (s.mem cr3 i) (sb.mem cr3 i) := fun i =>
    (hwalk cr3 hsrc.1 i).trans (hdone.grown.old cr3 hsrc.1 i)
  obtain ⟨hp', hu', -⟩ := reframe_sameFlags (sb.mem cr3 0) (p := p) (f := sb.mem cr3 0 &&& 0xFFF#64)
    fun k hk => low12_bit _ hk
  refine ⟨sb.write dest 0 (addrOf p ||| (sb.mem cr3 0 &&& 0xFFF#64)), p, ?_, hpd, ?_, ?_, ?_, fun k hk hpk => ?_,
    fun i => ?_⟩
  · unfold cloneBody
    rw [if_neg (by simp [hlow]), if_neg (by decide), if_pos (by decide), heq]
    dsimp only
    rw [htm, hok]
  · rw [write_mem, if_pos ⟨rfl, rfl⟩, hp', (hsrcwalk 0).present, hlow]
  · rw [write_mem, if_pos ⟨rfl, rfl⟩, hu', (hsrcwalk 0).user, hu]
  · rw [write_mem, if_pos ⟨rfl, rfl⟩]
    exact frameOf_addrOf_or (Nat.lt_of_lt_of_le hpt hr.frames) (low12_mask _)
  · rw [write_mem_ne hpd]
    exact hcopy k hk hpk
  · rw [write_mem_ne fun h : cr3 = dest => hr.dest_new (h ▸ hsrc.1)]
    exact hsrcwalk i

theorem shared_freed (h : SpaceOk usable out s cr3) {asCow : Bool} {s1 : Vm} (htm : t.mem = s.mem)
    (htt : t.pmm.totalPages = s.pmm.totalPages) (hup : usable p) (hout : out p = 0)
    (hta : Accounts usable t.pmm (Ledger.gain out p)) (hmem : 0 < t.pmm.clearPages)
    (hok : clonePt asCow 4 p cr3 (t.zeroPage p) = .ok s1) {e : BitVec 64} (he : SharedAt s.mem cr3 e)
    (hu : user e = true) : frameOf e ∈ freed s1.mem 4 p := by
  have hr := ready_top h htt hup hout hta
  have hwalk := top_walk htm hup hout
  have hlive : ∀ f, inUse usable out f → (t.zeroPage p).mem f = s.mem f := fun f hf => by
    rw [zeroPage_mem_ne (live_ne hup hout hf), htm]
  have hcr3 := hlive cr3 h.src.1
  have hentry := h.src.2 0 (by decide) h.low
  rw [if_neg (by decide), if_pos (by decide)] at hentry
  have hbound : ∀ q, inUse usable out q → Ledger.gain out p q +
      (leaves (t.zeroPage p).mem 3 (frameOf ((t.zeroPage p).mem cr3 0))).count q < 65535 := fun q hq => by
    have htop := top_bound h htm hup hout q hq
    have hle : (leaves (t.zeroPage p).mem 3 (frameOf ((t.zeroPage p).mem cr3 0))).count q ≤
        (leaves (t.zeroPage p).mem 4 cr3).count q := by
      have hfirst : leavesEntry (leaves (t.zeroPage p).mem 3) 4 0 ((t.zeroPage p).mem cr3 0) =
          leaves (t.zeroPage p).mem 3 (frameOf ((t.zeroPage p).mem cr3 0)) := by
        unfold leavesEntry
        rw [hcr3, if_neg (by simp [h.low]), if_neg (by decide), if_pos (by decide)]
      have hall : leaves (t.zeroPage p).mem 4 cr3 =
        leavesEntry (leaves (t.zeroPage p).mem 3) 4 0 ((t.zeroPage p).mem cr3 0) ++
          (List.range' 1 511).flatMap fun i => leavesEntry (leaves (t.zeroPage p).mem 3) 4 i ((t.zeroPage p).mem cr3 i) := by
        rw [leaves, range_512, flatMap_cons]
      rw [hall, hfirst, count_append]
      exact Nat.le_add_right _ _
    omega
  have hlow : present ((t.zeroPage p).mem cr3 0) = true := by
    rw [hcr3]
    exact h.low
  obtain ⟨s', p2, hbody, hp2, hp0, hu0, hf0, hcopy, hsame⟩ := cloneBody_top asCow hr (h.src.congr hwalk) hlow
    hbound hmem
  have hne : cr3 ≠ p := live_ne hup hout h.src.1
  have hrest : ∀ i ∈ List.range' 1 511, sharedEntry 4 i = true := fun i hi => by
    have := (mem_range'_1.1 hi).1
    simp [sharedEntry]
    omega
  obtain ⟨s'', hloop, -, hframe, hshared, hother⟩ := forEntries_shared asCow (clonePt asCow 3) hne _ s' hrest
  have hs1 : s1 = s'' := by
    have h0 := hloop []
    rw [append_nil] at h0
    rw [clonePt, range_512, forEntries, hbody] at hok
    have hok' : forEntries (cloneBody asCow (clonePt asCow 3) 4 p cr3) (List.range' 1 511) s' = .ok s1 := hok
    rw [h0] at hok'
    exact (Except.ok.inj hok').symm
  subst hs1
  obtain ⟨hpe, ⟨i, hi0, hi, rfl⟩ | ⟨k, hk, rfl⟩⟩ := he
  · -- an entry of the top level
    have hsm := hsame i
    rw [hcr3] at hsm
    have hcp : s1.mem p i = s'.mem cr3 i := by
      refine hshared i (mem_range'_1.2 ⟨hi0, by omega⟩) ?_
      rw [hsm.present]
      exact hpe
    refine mem_freed (i := i) hi ?_ ?_ (.inr rfl) (by decide) (.inl ?_)
    · rw [hcp, hsm.present, hpe]
    · rw [hcp, hsm.user, hu]
    · rw [hcp, hsm.frame]
  · -- an entry of the PDPT
    have h0 : s1.mem p 0 = s'.mem p 0 := hother 0 fun h => by
      have := (mem_range'_1.1 h).1
      omega
    rw [hcr3, hlive _ hentry.2.2.1] at hcopy
    have hk' : s1.mem p2 k = s.mem (frameOf (s.mem cr3 0)) k := by
      rw [hframe p2 hp2]
      exact hcopy k hk hpe
    refine mem_freed (i := 0) (by decide) (h0 ▸ hp0) (h0 ▸ hu0) (.inr rfl) (by decide) (.inr ?_)
    rw [h0, hf0]
    have hnh := (h.shared _ ⟨hpe, .inr ⟨k, hk, rfl⟩⟩ hu).1
    refine mem_freed (i := k) (by omega) ?_ ?_ (.inl ?_) (by decide) (.inl ?_)
    all_goals rw [hk']
    · exact hpe
    · exact hu
    · exact hnh

theorem not_neutral (h : SpaceOk usable out s cr3) (asCow : Bool) (hmem : 2 ≤ s.pmm.clearPages) {e : BitVec 64}
    (he : SharedAt s.mem cr3 e) (hu : user e = true) :
    ¬ ∃ s1 b s2, s.vmmClonePml4 cr3 asCow = .ok (s1, b) ∧ s1.vmmDestroyPml4 b = .ok s2 ∧ Neutral s s2 := by
  rintro ⟨s1, b, s2, hclone, hdestroy, hneutral⟩
  obtain ⟨-, hlt, hlive, hleaf⟩ := h.shared e he hu
  obtain ⟨t, heq, -⟩ | ⟨t, p, heq, htm, htt, hpt, hup, hout, hta⟩ := allocPage_accounts h.accounts
  · obtain ⟨hc, -⟩ | ⟨_, _, hsome, -⟩ := allocPage_cases h.accounts
    · omega
    · rw [hsome] at heq
      cases heq
  have hclear : 0 < t.pmm.clearPages := by
    obtain ⟨hc, -⟩ | ⟨t', p', hsome, hc⟩ := allocPage_cases h.accounts
    · omega
    · rw [heq] at hsome
      cases hsome
      omega
  have hwalk := top_walk htm hup hout
  obtain ⟨s', g, hok, hd⟩ := clonePt_done asCow 4 p cr3 (t.zeroPage p) (Ledger.gain out p)
    (ready_top h htt hup hout hta) (fun i _ => by simp [zeroPage]) (h.src.congr hwalk) (top_bound h htm hup hout)
  rw [vmmClonePml4, heq] at hclone
  simp only [hok, Except.map, Except.ok.injEq, Prod.mk.injEq] at hclone
  obtain ⟨rfl, rfl⟩ := hclone
  have hfreed := shared_freed h htm htt hup hout hta hclear hok he hu
  rw [vmmDestroyPml4_eq] at hdestroy
  -- the clone takes no reference to the shared table, and the teardown drops one
  have hg : g (frameOf e) = 0 := by
    have := hd.shares _ hlive
    rw [leaves_congr hwalk h.src, count_eq_zero_of_not_mem hleaf] at this
    omega
  have htotal : s'.pmm.totalPages = s.pmm.totalPages := hd.grown.total.trans htt
  have hless := (freeAll_counts _ _ _ hdestroy).2.2 (frameOf e) (mem_append_left _ hfreed) (htotal ▸ hlt)
  have hpage := h.accounts.page _ hlt
  have hpage' := hd.grown.accounts.page _ (htotal ▸ hlt)
  have hsame : Ledger.gain out p (frameOf e) + g (frameOf e) = out (frameOf e) := by
    rw [hg, Ledger.gain, Function.update_of_ne (live_ne hup hout hlive)]
    rfl
  rw [hsame] at hpage'
  have hset : s.pmm.bits (frameOf e) = true := by
    cases hb : s.pmm.bits (frameOf e) with
    | true => rfl
    | false =>
      obtain ⟨hu', h0⟩ := hpage.clear_iff.1 hb
      have := hlive hu'
      omega
  have hcount := hneutral.counts _ hlt hset
  by_cases hu' : usable (frameOf e)
  · rw [hpage.count_usable hu' (hlive hu')] at hcount
    rw [hpage'.count_usable hu' (hlive hu')] at hless
    omega
  · rw [hpage.count_reserved hu'] at hcount
    rw [hpage'.count_reserved hu'] at hless
    omega

end

/-- **When clone then destroy is neutral**: just when there is too little memory to clone anything, or no entry that
the clone shares as it is carries `PAGE_USER`.  Neutral says that the teardown freed exactly the pages the clone took,
that every page in use has its old count, and so that no page in use, by whomever, was freed. -/
theorem clone_destroy_neutral_iff (usable : Nat → Prop) (out : Nat → Nat) (s : Vm) (cr3 : Nat) (asCow : Bool)
    (h : SpaceOk usable out s cr3) :
    (∃ s1 b s2, s.vmmClonePml4 cr3 asCow = .ok (s1, b) ∧ s1.vmmDestroyPml4 b = .ok s2 ∧ Neutral s s2) ↔
      s.pmm.clearPages < 2 ∨ NoUserShared s.mem cr3 := by
  constructor
  · intro hn
    by_contra hcon
    rw [not_or, NoUserShared] at hcon
    obtain ⟨hmem, hshared⟩ := hcon
    simp only [not_forall] at hshared
    obtain ⟨e, he, hu⟩ := hshared
    exact not_neutral h asCow (by omega) he (by simpa using hu) hn
  · rintro (hmem | hno)
    · exact neutral_of_noMemory h asCow hmem
    · exact neutral_of_noUser h asCow hno

/-! ## The boot tables -/

def bootPmm : Pmm where
  bits := fun p => decide (p ≠ 6 ∧ p ≠ 7)
  refCounts := fun _ => 1
  totalRam := 8 * PAGE_SIZE
  usedRam := 6 * PAGE_SIZE
  totalPages := 8
  lastFreeIdx := 0

def bootUsable (p : Nat) : Prop := p = 6 ∨ p = 7

theorem bootPmm_accounts : Accounts bootUsable bootPmm fun _ => 0 := by
  refine ⟨fun p hp => ⟨?_, fun _ h => absurd h (Nat.lt_irrefl 0), fun _ => rfl⟩, ?_, ⟨by decide, by decide⟩⟩
  · simp [bootPmm, bootUsable]
    omega
  · rintro (h | h) <;> cases h

theorem boot_inUse {f : Nat} (h6 : f ≠ 6) (h7 : f ≠ 7) : inUse bootUsable (fun _ => 0) f := by
  rintro (h | h)
  · exact absurd h h6
  · exact absurd h h7

def bootVm (flags : BitVec 64) : Vm where
  mem := fun f i =>
    if i ≠ 0 then 0#64
    else if f = 2 then addrOf 3 ||| tableFlags
    else if f = 3 then addrOf 4 ||| flags
    else if f = 4 then 0x87#64
    else 0#64
  pmm := bootPmm

theorem bootVm_absent (flags : BitVec 64) (f : Nat) {i : Nat} (hi : i ≠ 0) : (bootVm flags).mem f i = 0#64 := by
  simp [bootVm, hi]

theorem bootVm_leaves (flags : BitVec 64) : leaves (bootVm flags).mem 4 2 = [] := by
  have h3 : leaves (bootVm flags).mem 3 3 = [] := by
    rw [leaves, flatMap_eq_nil_iff]
    intro k _
    by_cases hk : k = 0
    · subst hk
      unfold leavesEntry
      rw [show sharedEntry 3 0 = true from rfl]
      split <;> rfl
    · simp [leavesEntry, bootVm_absent flags 3 hk, zero_not_present]
  rw [leaves, flatMap_eq_nil_iff]
  intro i _
  by_cases hi : i = 0
  · subst hi
    have hf : frameOf ((bootVm flags).mem 2 0) = 3 := by
      show frameOf (addrOf 3 ||| tableFlags) = 3
      decide
    have hp : present ((bootVm flags).mem 2 0) = true := by
      show present (addrOf 3 ||| tableFlags) = true
      decide
    unfold leavesEntry
    rw [hf, h3, hp, if_neg (by decide), if_neg (by decide), if_pos (by decide)]
  · simp [leavesEntry, bootVm_absent flags 2 hi, zero_not_present]

theorem bootVm_ok {flags : BitVec 64} (hf : frameOf (addrOf 4 ||| flags) = 4)
    (hh : huge (addrOf 4 ||| flags) = false) : SpaceOk bootUsable (fun _ => 0) (bootVm flags) 2 := by
  have hframe : frameOf ((bootVm flags).mem 2 0) = 3 := by
    show frameOf (addrOf 3 ||| tableFlags) = 3
    decide
  have htotal : (bootVm flags).pmm.totalPages = 8 := rfl
  refine ⟨bootPmm_accounts, by rw [htotal]; decide, ⟨boot_inUse (by decide) (by decide), fun i _ hp => ?_⟩, ?_,
    fun p _ => ?_, ?_⟩
  · by_cases hi : i = 0
    · subst hi
      rw [if_neg (by decide), if_pos (by decide), hframe]
      refine ⟨?_, ?_, ?_, fun k _ hpk => ?_⟩
      · show user (addrOf 3 ||| tableFlags) = true
        decide
      · show huge (addrOf 3 ||| tableFlags) = false
        decide
      · exact boot_inUse (by decide) (by decide)
      · by_cases hk : k = 0
        · subst hk
          rw [if_pos (by decide)]
          exact False.elim
        · rw [bootVm_absent flags 3 hk] at hpk
          cases hpk
    · rw [bootVm_absent flags 2 hi] at hp
      cases hp
  · show present (addrOf 3 ||| tableFlags) = true
    decide
  · rw [bootVm_leaves]
    exact (by decide : 0 + 0 < 65535)
  · rintro e ⟨hpe, ⟨i, hi, -, rfl⟩ | ⟨k, -, rfl⟩⟩ _
    · rw [bootVm_absent flags 2 (by omega)] at hpe
      cases hpe
    · rw [hframe] at hpe ⊢
      by_cases hk : k = 0
      · subst hk
        have he : (bootVm flags).mem 3 0 = addrOf 4 ||| flags := rfl
        rw [he, hf, bootVm_leaves, htotal]
        exact ⟨hh, by decide, boot_inUse (by decide) (by decide), not_mem_nil⟩
      · rw [bootVm_absent flags 3 hk] at hpe
        cases hpe

/-- With supervisor boot tables the pair is neutral. -/
theorem clone_destroy_neutral_supervisor :
    ∃ s1 b s2, (bootVm (PAGE_PRESENT ||| PAGE_WRITE)).vmmClonePml4 2 true = .ok (s1, b) ∧
      s1.vmmDestroyPml4 b = .ok s2 ∧ Neutral (bootVm (PAGE_PRESENT ||| PAGE_WRITE)) s2 := by
  refine (clone_destroy_neutral_iff bootUsable (fun _ => 0) _ 2 true (bootVm_ok (by decide) (by decide))).2 (.inr ?_)
  have hframe : frameOf ((bootVm (PAGE_PRESENT ||| PAGE_WRITE)).mem 2 0) = 3 := by
    show frameOf (addrOf 3 ||| tableFlags) = 3
    decide
  rintro e ⟨hpe, ⟨i, hi, -, rfl⟩ | ⟨k, -, rfl⟩⟩
  · rw [bootVm_absent _ 2 (by omega)] at hpe
    cases hpe
  · rw [hframe] at hpe ⊢
    by_cases hk : k = 0
    · subst hk
      show user (addrOf 4 ||| (PAGE_PRESENT ||| PAGE_WRITE)) = false
      decide
    · rw [bootVm_absent _ 3 hk] at hpe
      cases hpe

/-- The boot loader's tables carry `PAGE_USER`: the teardown of the first clone frees the page directory of the
identity map. -/
theorem clone_destroy_frees_boot_table :
    SpaceOk bootUsable (fun _ => 0) (bootVm tableFlags) 2 ∧
      ¬ ∃ s1 b s2, (bootVm tableFlags).vmmClonePml4 2 true = .ok (s1, b) ∧ s1.vmmDestroyPml4 b = .ok s2 ∧
        Neutral (bootVm tableFlags) s2 := by
  have hok : SpaceOk bootUsable (fun _ => 0) (bootVm tableFlags) 2 := bootVm_ok (by decide) (by decide)
  refine ⟨hok, not_neutral hok true (by decide) (e := addrOf 4 ||| tableFlags) ⟨by decide, .inr ⟨0, by decide, ?_⟩⟩
    (by decide)⟩
  have hframe : frameOf ((bootVm tableFlags).mem 2 0) = 3 := by
    show frameOf (addrOf 3 ||| tableFlags) = 3
    decide
  rw [hframe]
  rfl

end Vm
end EterOS.Mm
