import EterOS.Mm.FrameRole
/-!
# Fork — whether the two address spaces of a fork are private to each other

`vmm_clone_pml4` copies the part below 512 GB table by table and shares its pages copy-on-write; every other entry of the
top level it copies as it is.  The roles of `FrameRole` hold after the clone and after every store through either side,
and they give isolation for stores below 512 GB.  The exec stack and the mmap area lie above.
-/
namespace EterOS.Mm
namespace Vm

open List Function

section
variable {ρ : Nat → Option Role} {s : Vm} {side : Bool} {cr3 cr3' virt : Nat}

/-! ## Stores -/

theorem not_maps_of_writable (h : WellTyped ρ s) {t i : Nat} {p q : List Nat} (ht : ρ t = some (.table side p))
    (hi : i < 512) (hc : (Role.table side p).child i = some (.page q)) (hp : present (s.mem t i) = true)
    (hw : writable (s.mem t i) = true) : ¬ Maps ρ s.mem (!side) (frameOf (s.mem t i)) := by
  rintro ⟨t', p', i', q', ht', hi', hc', hp', hf⟩
  have h1 := (h.entry t _ i _ ht hi hp hc).1
  have h2 := (h.entry t' _ i' _ ht' hi' hp' hc').1
  rw [hf, h1] at h2
  cases h2
  obtain ⟨rfl, rfl⟩ := child_page_inj hc hc'
  cases side with
  | true =>
    have := (h.refs t t' p i q ht ht' hi hc hp hp' hf.symm).1
    rw [hw] at this
    cases this
  | false =>
    have := (h.refs t' t p i q ht' ht hi hc' hp' hp hf).2.1
    rw [hw] at this
    cases this

theorem tryStore_isolated (h : WellTyped ρ s) (hr : ρ cr3 = some (.table side [])) (hr' : ρ cr3' = some (.table (!side) []))
    (hv : userAddr virt) (h0 : pml4Index virt = 0) {b : BitVec 8} {s' : Vm} (hs : s.tryStore cr3 virt b = some s') :
    WellTyped ρ s' ∧ ∀ v, userAddr v → userRead s'.mem cr3' v = userRead s.mem cr3' v := by
  obtain hnone | ⟨pdpt, pd, pt, hw, -, -, hρ3, hρ4⟩ := h.walk hr (chain_low hv h0)
  · rw [tryStore, hnone] at hs
    cases hs
  rw [tryStore, hw.translate_eq] at hs
  dsimp only at hs
  split at hs
  swap
  · cases hs
  rename_i hok
  cases hs
  have hwr : writable (s.mem pt (ptIndex virt)) = true := by
    simp only [Walk.access, Bool.and_eq_true] at hok
    exact hok.2.2
  have hnm := not_maps_of_writable h hρ3 (index_lt virt).2.2.2 rfl hw.p1 hwr
  simp only [Walk.access]
  generalize frameOf (s.mem pt (ptIndex virt)) = f at hρ4 hnm
  have hmem : ∀ g, g ≠ f → (s.store f virt b).mem g = s.mem g := fun g hg => write_mem_ne hg
  refine ⟨h.ofTables rfl fun t r i c ht hc => hmem t ?_, fun v hv' => h.read_congr hr' hv' (fun g r hg hown => hmem g ?_)
    fun g hg => hmem g ?_⟩
  · rintro rfl
    rw [hρ4] at ht
    cases ht
    cases hc
  · rintro rfl
    rw [hρ4] at hg
    cases hg
    cases hown
  · rintro rfl
    exact hnm hg

/-! ## The page fault -/

/-- A walk of the kernel changed nothing, or one entry of a side's page table and frames without a role: the other
side reads what it read. -/
theorem reads_of_side (h : WellTyped ρ s) (hr' : ρ cr3' = some (.table (!side) [])) {t : Nat} {p : List Nat}
    (ht : ρ t = some (.table side p)) {m' : Nat → Nat → BitVec 64}
    (hm : ∀ f, f ≠ t → ρ f ≠ none → m' f = s.mem f) :
    ∀ v, userAddr v → userRead m' cr3' v = userRead s.mem cr3' v := by
  intro v hv
  refine h.read_congr hr' hv (fun f r hf hown => hm f ?_ (by simp [hf])) fun f hmaps => ?_
  · rintro rfl
    rw [ht] at hf
    cases hf
    cases side <;> cases hown
  · obtain ⟨t', p', i, q, ht', hi, hc, hp, hf⟩ := hmaps
    have hpage := (h.entry t' _ i _ ht' hi hp hc).1
    rw [hf] at hpage
    refine hm f ?_ (by simp [hpage])
    rintro rfl
    rw [ht] at hpage
    cases hpage

theorem freeFrame_shared {s : Vm} {f : Nat} (hf : f < s.pmm.totalPages) (hcnt : 2 ≤ s.pmm.refCounts f) :
    ∃ s', s.freeFrame f = .ok s' ∧ s'.mem = s.mem ∧ s'.pmm.bits = s.pmm.bits ∧ s'.pmm.totalPages = s.pmm.totalPages ∧
      s'.pmm.refCounts = Function.update s.pmm.refCounts f (s.pmm.refCounts f - 1) := by
  have hdiv : f * PAGE_SIZE / PAGE_SIZE = f := Nat.mul_div_cancel f (by decide)
  refine ⟨{ s with pmm := s.pmm.setRefCount f (s.pmm.refCounts f - 1) }, ?_, rfl, rfl, rfl, rfl⟩
  unfold freeFrame Pmm.pmmFreePage
  have hpos : (s.pmm.setRefCount f (s.pmm.refCounts f - 1)).refCounts f > 0 := by
    simp [Pmm.setRefCount]
    omega
  rw [hdiv]
  dsimp only
  rw [if_neg (by omega), if_neg (by omega), if_pos hpos]
  rfl

/-- `vmm_resolve_cow` at an entry of a side's page table: no assertion fails, the roles stay, the other side reads what
it read. -/
theorem resolveCow_isolated (h : WellTyped ρ s) (hr' : ρ cr3' = some (.table (!side) [])) {t i : Nat} {p q : List Nat}
    (ht : ρ t = some (.table side p)) (hi : i < 512) (hc : (Role.table side p).child i = some (.page q))
    (hp : present (s.mem t i) = true) :
    ∃ s' handled ρ', s.vmmResolveCow t i = .ok (s', handled) ∧ WellTyped ρ' s' ∧
      (∀ f r, ρ f = some r → ρ' f = some r) ∧ ∀ v, userAddr v → userRead s'.mem cr3' v = userRead s.mem cr3' v := by
  have hpage := (h.entry t _ i _ ht hi hp hc).1
  have hu := h.leaf t side p i q ht hi hp hc
  have hcount := h.page _ q hpage
  unfold vmmResolveCow
  dsimp only
  generalize he : s.mem t i = e at *
  split
  · exact ⟨s, false, ρ, rfl, h, fun _ _ hf => hf, fun _ _ => rfl⟩
  have hget : s.pmm.pmmGetRefCount (frameOf e * PAGE_SIZE) = s.pmm.refCounts (frameOf e) := by
    unfold Pmm.pmmGetRefCount
    rw [Nat.mul_div_cancel _ (show 0 < PAGE_SIZE by decide), if_neg (by omega)]
  rw [hget]
  split
  · -- the last owner: the frame is not the other side's, or it would be counted twice
    rename_i hone
    have hwalk := uncowEntry_sameWalk e
    refine ⟨_, true, ρ, rfl, h.setLeaf ht hc (fun _ => ?_) fun t' ht' hpe hp' hf => ?_, fun _ _ hf => hf,
      reads_of_side h hr' ht fun f hf _ => write_mem_ne hf⟩
    · rw [hwalk.frame, hwalk.user]
      exact ⟨hpage, hu⟩
    · rw [hwalk.frame] at hf
      have htwo : 2 ≤ s.pmm.refCounts (frameOf e) := by
        cases side with
        | true =>
          have := h.refs t t' p i q ht ht' hi hc (he ▸ hp) hp' (by rw [he, hf])
          rw [he] at this
          exact this.2.2
        | false =>
          have := h.refs t' t p i q ht' ht hi (child_page_side hc) hp' (he ▸ hp) (by rw [he, hf])
          rw [← hf] at this
          exact this.2.2
      omega
  rename_i hnot
  obtain ⟨u, heq, hu', hum⟩ | ⟨u, pg, heq, hum, hpt, hfree, -, hbits, hcnt, htot⟩ := h.alloc
  · rw [heq]
    exact ⟨u, false, ρ, rfl, hu', fun _ _ hf => hf, fun v _ => by rw [hum]⟩
  rw [heq]
  dsimp only
  generalize hE : addrOf pg ||| (flagsOf e &&& ~~~PAGE_COW) ||| PAGE_WRITE = E
  have hpg : ∀ f r, ρ f = some r → f ≠ pg := by
    rintro f r hf rfl
    rw [hfree] at hf
    cases hf
  -- the copy in a frame of its own, for the same address
  have htyped : WellTyped (Function.update ρ pg (some (.page q))) (u.copyPage pg (frameOf e)) :=
    h.extend hfree hpt (fun f hf => by rw [copyPage_mem_ne hf, hum]) hbits hcnt htot (fun i c _ hcc => by cases hcc)
      fun _ _ hr => by cases hr
  have hkeep : ∀ f r, ρ f = some r → Function.update ρ pg (some (.page q)) f = some r := fun f r hf => by
    rw [update_of_ne (hpg f r hf), hf]
  have hEbits : ∀ k, k < 12 → k ≠ 9 → k ≠ 1 → E.getLsbD k = e.getLsbD k := fun k hk h9 h1 => by
    rw [← hE, BitVec.getLsbD_or, BitVec.getLsbD_or, addrOf_bit pg hk, BitVec.getLsbD_and, flagsOf_bit e hk,
      BitVec.getLsbD_not, cow_bit k (by omega), write_bit k (by omega)]
    simp [h9, h1, show k < 64 by omega]
  have hEframe : frameOf E = pg := by
    have hmask : (flagsOf e &&& ~~~PAGE_COW) &&& PAGE_ADDR_MASK = 0#64 := by
      rw [BitVec.and_assoc, BitVec.and_comm (~~~PAGE_COW), ← BitVec.and_assoc, flagsOf_mask]
      exact BitVec.zero_and
    rw [← hE, frameOf_or (by decide)]
    exact frameOf_addrOf_or (Nat.lt_of_lt_of_le hpt h.frames) hmask
  have hset : WellTyped (Function.update ρ pg (some (.page q))) ((u.copyPage pg (frameOf e)).write t i E) := by
    refine htyped.setLeaf (hkeep t _ ht) hc (fun _ => ?_) fun t' ht' _ hp' hf => ?_
    · rw [hEframe, update_self, user_eq, hEbits 2 (by decide) (by decide) (by decide), ← user_eq]
      exact ⟨rfl, hu⟩
    · -- the other side cannot map a frame that had no role
      have htpg : t' ≠ pg := by
        rintro rfl
        rw [update_self] at ht'
        cases ht'
      rw [update_of_ne htpg] at ht'
      rw [copyPage_mem_ne htpg, hum] at hp' hf
      have := (h.entry t' _ i _ ht' hi hp' (child_page_side hc)).1
      exact absurd (hEframe.symm.trans hf).symm (hpg _ _ this)
  have hmem' : ∀ f, f ≠ t → ρ f ≠ none → ((u.copyPage pg (frameOf e)).write t i E).mem f = s.mem f := fun f hft hf => by
    have hfp : f ≠ pg := fun h' => hf (h' ▸ hfree)
    rw [write_mem_ne hft, copyPage_mem_ne hfp, hum]
  have hne : frameOf e ≠ pg := hpg _ _ hpage
  have hcnt' : ((u.copyPage pg (frameOf e)).write t i E).pmm.refCounts (frameOf e) = s.pmm.refCounts (frameOf e) := by
    show u.pmm.refCounts (frameOf e) = _
    rw [hcnt, update_of_ne hne]
  obtain ⟨s', hfree', hm', hb', ht', hc'⟩ := freeFrame_shared (s := (u.copyPage pg (frameOf e)).write t i E)
    (f := frameOf e) (show frameOf e < u.pmm.totalPages by rw [htot]; exact hcount.1) (by rw [hcnt']; omega)
  refine ⟨s', true, Function.update ρ pg (some (.page q)), ?_, ?_, hkeep, fun v hv => ?_⟩
  · rw [hfree']
    rfl
  · refine hset.recount hm' hb' ht' hc' (by rw [hcnt']; omega) (.inr ?_)
    -- the entry changed was one side's only way to the old frame
    intro v v' p' j q' hv hv' hj hcj hpv hpv' hfv hfv'
    have h1 := (hset.entry v _ j _ hv hj hpv hcj).1
    rw [hfv, update_of_ne hne, hpage] at h1
    cases h1
    obtain ⟨rfl, rfl⟩ := child_page_inj hcj hc
    have hat : ((u.copyPage pg (frameOf e)).write t j E).mem t j = E := by rw [write_mem, if_pos ⟨rfl, rfl⟩]
    cases side with
    | true =>
      have hvt : v = t := hset.inj v t true p' hv (hkeep t _ ht)
      rw [hvt, hat, hEframe] at hfv
      exact hne hfv.symm
    | false =>
      have hvt : v' = t := hset.inj v' t false p' hv' (hkeep t _ ht)
      rw [hvt, hat, hEframe] at hfv'
      exact hne hfv'.symm
  · rw [hm']
    exact reads_of_side h hr' ht hmem' v hv

/-- **One store below 512 GB**: no assertion fails, the roles stay, and the other side reads what it read. -/
theorem userWrite_isolated (h : WellTyped ρ s) (hr : ρ cr3 = some (.table side []))
    (hr' : ρ cr3' = some (.table (!side) [])) (hv : userAddr virt) (h0 : pml4Index virt = 0) (b : BitVec 8) :
    ∃ s' ρ', s.userWrite cr3 virt b = .ok s' ∧ WellTyped ρ' s' ∧ (∀ f r, ρ f = some r → ρ' f = some r) ∧
      ∀ v, userAddr v → userRead s'.mem cr3' v = userRead s.mem cr3' v := by
  unfold userWrite
  cases hts : s.tryStore cr3 virt b with
  | some s' =>
    obtain ⟨hwt, hreads⟩ := tryStore_isolated h hr hr' hv h0 hts
    exact ⟨s', ρ, rfl, hwt, fun _ _ hf => hf, hreads⟩
  | none =>
    dsimp only
    obtain hnone | ⟨pdpt, pd, pt, hw, -, -, hρ3, -⟩ := h.walk hr (chain_low hv h0)
    · rw [if_pos hnone]
      exact ⟨s, ρ, rfl, h, fun _ _ hf => hf, fun _ _ => rfl⟩
    rw [if_neg (by simp [hw.translate_eq]), vmmHandlePageFault, hw.tables_eq]
    obtain ⟨t, handled, ρ', hok, hwt, hkeep, hreads⟩ := resolveCow_isolated h hr' hρ3 (index_lt virt).2.2.2 rfl hw.p1
    dsimp only
    rw [hok]
    cases handled with
    | false => exact ⟨t, ρ', rfl, hwt, hkeep, hreads⟩
    | true =>
      dsimp only
      cases hts' : t.tryStore cr3 virt b with
      | none => exact ⟨t, ρ', rfl, hwt, hkeep, hreads⟩
      | some s' =>
        obtain ⟨hwt', hreads'⟩ := tryStore_isolated hwt (hkeep _ _ hr) (hkeep _ _ hr') hv h0 hts'
        exact ⟨s', ρ', rfl, hwt', hkeep, fun v hv' => (hreads' v hv').trans (hreads v hv')⟩

end

/-! ## The clone -/

/-- Nobody has yet the role of a copy below one of the entries `is`. -/
def FreshBelow (ρ : Nat → Option Role) (path is : List Nat) : Prop :=
  ∀ f q, ρ f = some (.table false q) → ∀ i ∈ is, ¬ (path ++ [i]) <+: q

/-- The roles grew by copies below one of the entries `is`. -/
def GrewBelow (ρ ρ' : Nat → Option Role) (path is : List Nat) : Prop :=
  (∀ f r, ρ f = some r → ρ' f = some r) ∧ ∀ f r, ρ' f = some r → ρ f = some r ∨ ∃ q, r = .table false q ∧
    ∃ i ∈ is, (path ++ [i]) <+: q

theorem FreshBelow.grew {ρ ρ' : Nat → Option Role} {path is js : List Nat} (h : FreshBelow ρ path js)
    (hg : GrewBelow ρ ρ' path is) (hd : ∀ i ∈ is, i ∉ js) : FreshBelow ρ' path js := by
  intro f q hf j hj hpre
  rcases hg.2 f _ hf with hold | ⟨q', hq', i, hi, hpre'⟩
  · exact h f q hold j hj hpre
  · cases hq'
    have heq := prefix_of_prefix_length_le hpre hpre' (by simp)
    have hij : path ++ [j] = path ++ [i] := heq.eq_of_length (by simp)
    have : j = i := by simpa using hij
    exact hd i hi (this ▸ hj)

theorem GrewBelow.trans {ρ1 ρ2 ρ3 : Nat → Option Role} {path is js : List Nat} (h : GrewBelow ρ1 ρ2 path is)
    (h' : GrewBelow ρ2 ρ3 path js) : GrewBelow ρ1 ρ3 path (is ++ js) := by
  refine ⟨fun f r hf => h'.1 f r (h.1 f r hf), fun f r hf => ?_⟩
  rcases h'.2 f r hf with hf | ⟨q, hq, i, hi, hpre⟩
  · rcases h.2 f r hf with hf | ⟨q, hq, i, hi, hpre⟩
    · exact .inl hf
    · exact .inr ⟨q, hq, i, mem_append_left _ hi, hpre⟩
  · exact .inr ⟨q, hq, i, mem_append_right _ hi, hpre⟩

theorem GrewBelow.refl (ρ : Nat → Option Role) (path is : List Nat) : GrewBelow ρ ρ path is :=
  ⟨fun _ _ h => h, fun _ _ h => .inl h⟩

/-- The part of a clone for the entries `is` of the table `dest` at `path`. -/
structure Cloned (ρ ρ' : Nat → Option Role) (path is : List Nat) (dest : Nat) (s s' : Vm) : Prop where
  typed : WellTyped ρ' s'
  grew : GrewBelow ρ ρ' path is
  kept : ∀ f q, ρ f = some (.table false q) → f ≠ dest → s'.mem f = s.mem f
  other : ∀ j, j ∉ is → s'.mem dest j = s.mem dest j

section
variable {ρ : Nat → Option Role} {s s' : Vm} {dest src i : Nat} {path : List Nat}

theorem refFrame_ok {t t' : Vm} {f : Nat} (h : t.refFrame f = .ok t') :
    t'.mem = t.mem ∧ t'.pmm.bits = t.pmm.bits ∧ t'.pmm.totalPages = t.pmm.totalPages ∧
      (f < t.pmm.totalPages → t'.pmm.refCounts = Function.update t.pmm.refCounts f (t.pmm.refCounts f + 1)) := by
  have hdiv : f * PAGE_SIZE / PAGE_SIZE = f := Nat.mul_div_cancel f (by decide)
  unfold refFrame Pmm.pmmRefPage at h
  rw [hdiv] at h
  dsimp only at h
  split at h
  · rename_i hge
    cases h
    exact ⟨rfl, rfl, rfl, fun hlt => by omega⟩
  split at h
  · cases h
    exact ⟨rfl, rfl, rfl, fun _ => rfl⟩
  · cases h

theorem cloneLeaf_cloned (h : WellTyped ρ s) (hsrc : ρ src = some (.table true path))
    (hdest : ρ dest = some (.table false path)) {q : List Nat} (hi : i < 512)
    (hc : (Role.table true path).child i = some (.page q)) (hp : present (s.mem src i) = true)
    (hok : cloneLeaf true dest src i s = .ok s') : Cloned ρ ρ path [i] dest s s' := by
  have hne : src ≠ dest := by
    rintro rfl
    rw [hsrc] at hdest
    cases hdest
  have hu := h.leaf src true path i q hsrc hi hp hc
  have hpage := (h.entry src _ i _ hsrc hi hp hc).1
  unfold cloneLeaf at hok
  dsimp only at hok
  rw [if_neg (by simp [hu]), if_pos rfl] at hok
  generalize he : s.mem src i = e at *
  obtain ⟨hm, hb, ht, hcnt⟩ := refFrame_ok hok
  have hcnt := hcnt (h.page _ q hpage).1
  have hwalk := cowEntry_sameWalk e
  -- the counter first: the two writes do not read it
  have hcounted : WellTyped ρ ⟨s.mem, s'.pmm⟩ := h.recount rfl hb ht hcnt (by omega) (.inl (Nat.le_succ _))
  have hsecond : 2 ≤ s'.pmm.refCounts (frameOf e) := by
    have hone := (h.page _ q hpage).2
    rw [hcnt]
    show 2 ≤ Function.update s.pmm.refCounts (frameOf e) (s.pmm.refCounts (frameOf e) + 1) (frameOf e)
    rw [update_self]
    omega
  have hleaf : present (cowEntry e) = true → ρ (frameOf (cowEntry e)) = some (.page q) ∧
      user (cowEntry e) = true := fun _ => by
      rw [hwalk.frame, hwalk.user]
      exact ⟨hpage, hu⟩
  have hfirst : WellTyped ρ ((⟨s.mem, s'.pmm⟩ : Vm).write src i (cowEntry e)) := by
    refine hcounted.setLeaf hsrc hc hleaf fun t' ht' _ hp' hf => ?_
    rw [hwalk.frame] at hf ⊢
    have := (h.refs src t' path i q hsrc ht' hi hc (he ▸ hp) hp' (by rw [he, hf])).2.1
    exact ⟨cowEntry_writable e, this, hsecond⟩
  have hboth : WellTyped ρ (((⟨s.mem, s'.pmm⟩ : Vm).write src i (cowEntry e)).write dest i (cowEntry e)) := by
    refine hfirst.setLeaf hdest (child_page_side hc) hleaf fun t' ht' _ hp' hf => ?_
    have hts : t' = src := h.inj t' src true path ht' hsrc
    have hat : ((⟨s.mem, s'.pmm⟩ : Vm).write src i (cowEntry e)).mem t' i = cowEntry e := by
      rw [hts, write_mem, if_pos ⟨rfl, rfl⟩]
    rw [hat, hwalk.frame]
    exact ⟨cowEntry_writable e, cowEntry_writable e, hsecond⟩
  have hs' : s' = ((⟨s.mem, s'.pmm⟩ : Vm).write src i (cowEntry e)).write dest i (cowEntry e) := by
    have : s' = ⟨s'.mem, s'.pmm⟩ := rfl
    rw [this, hm]
    rfl
  refine ⟨hs' ▸ hboth, GrewBelow.refl _ _ _, fun f q' hf hfd => ?_, fun j hj => ?_⟩
  · have hfs : f ≠ src := by
      rintro rfl
      rw [hsrc] at hf
      cases hf
    rw [hm, write_mem_ne hfd, write_mem_ne hfs]
  · rw [hm, write_dest_other j (by simpa using hj), write_mem_ne (Ne.symm hne)]

/-- What an entry that is not shared as it is leads to: a table of the same side, or at the last level a page. -/
theorem child_private {side : Bool} {level : Nat} (hlen : path.length + level = 3) (hs : sharedEntry (level + 1) i = false) :
    (Role.table side path).child i = some (if level = 0 then .page (path ++ [i]) else .table side (path ++ [i])) := by
  match path, hlen with
  | [], hlen =>
    obtain rfl : level = 3 := by simpa using hlen
    have hi : i = 0 := by simpa [sharedEntry] using hs
    subst hi
    rfl
  | [a], hlen =>
    obtain rfl : level = 2 := by
      simp only [length_cons, length_nil] at hlen
      omega
    have hi : 8 ≤ i := by simpa [sharedEntry] using hs
    simp [Role.child, hi]
  | [a, b], hlen =>
    obtain rfl : level = 1 := by
      simp only [length_cons, length_nil] at hlen
      omega
    rfl
  | [a, b, c], hlen =>
    obtain rfl : level = 0 := by
      simp only [length_cons, length_nil] at hlen
      omega
    rfl
  | _ :: _ :: _ :: _ :: _, hlen =>
    simp only [length_cons] at hlen
    omega

theorem child_shared {level : Nat} (hlen : path.length + level = 3) (hs : sharedEntry (level + 1) i = true) :
    (∀ q, (Role.table false path).child i ≠ some (.page q)) ∧
      ∀ c, (Role.table false path).child i = some c → (Role.table true path).child i = some c := by
  match path, hlen with
  | [], hlen =>
    obtain rfl : level = 3 := by simpa using hlen
    have hi : i ≠ 0 := by simpa [sharedEntry] using hs
    simp only [Role.child, if_neg hi]
    refine ⟨fun q hq => ?_, fun c hc => hc⟩
    split at hq <;> cases hq
  | [a], hlen =>
    obtain rfl : level = 2 := by
      simp only [length_cons, length_nil] at hlen
      omega
    have hi : ¬ 8 ≤ i := by simpa [sharedEntry] using hs
    simp [Role.child, hi]
  | [a, b], hlen =>
    obtain rfl : level = 1 := by
      simp only [length_cons, length_nil] at hlen
      omega
    cases hs
  | [a, b, c], hlen =>
    obtain rfl : level = 0 := by
      simp only [length_cons, length_nil] at hlen
      omega
    cases hs
  | _ :: _ :: _ :: _ :: _, hlen =>
    simp only [length_cons] at hlen
    omega

def CloneTyped (level : Nat) : Prop :=
  ∀ (path : List Nat) (dest src : Nat) (s s' : Vm) (ρ : Nat → Option Role), path.length + level = 4 → WellTyped ρ s →
    ρ src = some (.table true path) → ρ dest = some (.table false path) → FreshBelow ρ path (List.range 512) →
    clonePt true level dest src s = .ok s' → ∃ ρ', Cloned ρ ρ' path (List.range 512) dest s s'

theorem cloneTable_cloned {level : Nat} (hspec : CloneTyped level) (hlen : path.length + level = 3) (hl : 0 < level)
    (h : WellTyped ρ s) (hsrc : ρ src = some (.table true path)) (hdest : ρ dest = some (.table false path))
    (hi : i < 512) (hs : sharedEntry (level + 1) i = false) (hp : present (s.mem src i) = true)
    (hfresh : FreshBelow ρ path [i]) {go : Bool}
    (hok : cloneBody true (clonePt true level) (level + 1) dest src i s = .ok (s', go)) :
    ∃ ρ', Cloned ρ ρ' path [i] dest s s' := by
  have hchild : ∀ side, (Role.table side path).child i = some (.table side (path ++ [i])) := fun side => by
    rw [child_private hlen hs, if_neg (by omega)]
  unfold cloneBody at hok
  rw [if_neg (by simp [hp]), if_neg (by simp [hs]), if_pos (by omega)] at hok
  obtain ⟨t, heq, hwt, htm⟩ | ⟨t, p, heq, htm, hpt, hfree, -, hbits, hcnt, htot⟩ := h.alloc
  · rw [heq] at hok
    cases hok
    exact ⟨ρ, hwt, GrewBelow.refl _ _ _, fun f q _ _ => by rw [htm], fun j _ => by rw [htm]⟩
  rw [heq] at hok
  dsimp only at hok
  have hpne : ∀ f r, ρ f = some r → f ≠ p := by
    rintro f r hf rfl
    rw [hfree] at hf
    cases hf
  have htyped : WellTyped (Function.update ρ p (some (.table false (path ++ [i])))) (t.zeroPage p) := by
    refine h.extend hfree hpt (fun f hf => by rw [zeroPage_mem_ne hf, htm]) hbits hcnt htot (fun j c _ _ => ?_)
      fun side q hq f hf => ?_
    · have : (t.zeroPage p).mem p j = 0#64 := by simp [zeroPage]
      rw [this]
      exact zero_not_present
    · cases hq
      exact hfresh f _ hf i mem_cons_self (prefix_refl _)
  have hkeep : ∀ f r, ρ f = some r → Function.update ρ p (some (.table false (path ++ [i]))) f = some r := fun f r hf => by
    rw [update_of_ne (hpne f r hf), hf]
  have hfresh' : FreshBelow (Function.update ρ p (some (.table false (path ++ [i])))) (path ++ [i]) (List.range 512) := by
    intro f q hf j _ hpre
    by_cases hfp : f = p
    · rw [hfp, update_self] at hf
      cases hf
      have := hpre.length_le
      simp at this
    · rw [update_of_ne hfp] at hf
      exact hfresh f q hf i mem_cons_self ((prefix_append _ _).trans hpre)
  have hsub := (h.entry src _ i _ hsrc hi hp (hchild true)).1
  rw [htm] at hok
  cases hrec : clonePt true level p (frameOf (s.mem src i)) (t.zeroPage p) with
  | error e =>
    rw [hrec] at hok
    cases hok
  | ok sb =>
    rw [hrec] at hok
    cases hok
    obtain ⟨ρ2, hd⟩ := hspec (path ++ [i]) p _ (t.zeroPage p) sb _
      (by simp only [length_append, length_cons, length_nil]; omega) htyped (hkeep _ _ hsub)
      (update_self ..) hfresh' hrec
    have hkeep2 : ∀ f r, ρ f = some r → ρ2 f = some r := fun f r hf => hd.grew.1 f r (hkeep f r hf)
    have hp2 : ρ2 p = some (.table false (path ++ [i])) := hd.grew.1 _ _ (update_self ..)
    have hdp : dest ≠ p := hpne _ _ hdest
    refine ⟨ρ2, hd.typed.setLink (hkeep2 _ _ hdest) (fun q hq => ?_) fun hpe c hc => ?_, ⟨hkeep2, fun f r hf => ?_⟩,
      fun f q hf hfd => ?_, fun j hj => ?_⟩
    · rw [hchild] at hq
      cases hq
    · rw [hchild] at hc
      cases hc
      obtain ⟨hp', -, hh'⟩ := reframe_sameFlags (sb.mem src i) (p := p) (f := sb.mem src i &&& 0xFFF#64)
        fun k hk => low12_bit _ hk
      rw [frameOf_addrOf_or (Nat.lt_of_lt_of_le hpt h.frames) (low12_mask _), hh']
      refine ⟨hp2, fun _ => ?_⟩
      exact (hd.typed.entry src _ i _ (hkeep2 _ _ hsrc) hi (hp' ▸ hpe) (hchild true)).2 rfl
    · rcases hd.grew.2 f r hf with hf | ⟨q, hq, j, hj, hpre⟩
      · by_cases hfp : f = p
        · rw [hfp, update_self] at hf
          cases hf
          exact .inr ⟨_, rfl, i, mem_cons_self, prefix_refl _⟩
        · rw [update_of_ne hfp] at hf
          exact .inl hf
      · exact .inr ⟨q, hq, i, mem_cons_self, (prefix_append _ _).trans hpre⟩
    · rw [write_mem_ne hfd, hd.kept f q (hkeep _ _ hf) (hpne _ _ hf), zeroPage_mem_ne (hpne _ _ hf), htm]
    · rw [write_dest_other j (by simpa using hj), hd.kept dest path (hkeep _ _ hdest) hdp, zeroPage_mem_ne hdp, htm]

theorem cloneBody_cloned {level : Nat} (hspec : CloneTyped level) (hlen : path.length + level = 3)
    (h : WellTyped ρ s) (hsrc : ρ src = some (.table true path)) (hdest : ρ dest = some (.table false path))
    (hi : i < 512) (hfresh : FreshBelow ρ path [i]) {go : Bool}
    (hok : cloneBody true (clonePt true level) (level + 1) dest src i s = .ok (s', go)) :
    ∃ ρ', Cloned ρ ρ' path [i] dest s s' := by
  by_cases hp : present (s.mem src i) = true
  swap
  · have hp' : present (s.mem src i) = false := by simpa using hp
    rw [cloneBody, hp'] at hok
    cases hok
    exact ⟨ρ, h, GrewBelow.refl _ _ _, fun _ _ _ _ => rfl, fun _ _ => rfl⟩
  by_cases hs : sharedEntry (level + 1) i = true
  · rw [cloneBody, hp, hs] at hok
    cases hok
    obtain ⟨hnp, hsame⟩ := child_shared hlen hs
    exact ⟨ρ, h.setLink hdest hnp fun _ c hc => h.entry src _ i c hsrc hi hp (hsame c hc), GrewBelow.refl _ _ _,
      fun f q _ hfd => write_mem_ne hfd, fun j hj => write_dest_other j (by simpa using hj)⟩
  have hs' : sharedEntry (level + 1) i = false := by simpa using hs
  rcases Nat.eq_zero_or_pos level with hl | hl
  · subst hl
    have hc : (Role.table true path).child i = some (.page (path ++ [i])) := child_private hlen hs'
    rw [cloneBody, hp, hs'] at hok
    cases hleaf : cloneLeaf true dest src i s with
    | error e =>
      simp [hleaf, Except.map] at hok
    | ok t =>
      simp only [hleaf, Except.map, Bool.not_true, Bool.false_eq_true, if_false, Nat.zero_add, gt_iff_lt,
        Nat.lt_irrefl, Except.ok.injEq, Prod.mk.injEq] at hok
      obtain ⟨rfl, -⟩ := hok
      exact ⟨ρ, cloneLeaf_cloned h hsrc hdest hi hc hp hleaf⟩
  · exact cloneTable_cloned hspec hlen hl h hsrc hdest hi hs' hp hfresh hok

theorem cloneLoop_cloned {level : Nat} (hspec : CloneTyped level) (hlen : path.length + level = 3) :
    ∀ (is : List Nat) (s s' : Vm) (ρ : Nat → Option Role), is.Nodup → (∀ i ∈ is, i < 512) → WellTyped ρ s →
      ρ src = some (.table true path) → ρ dest = some (.table false path) → FreshBelow ρ path is →
      forEntries (cloneBody true (clonePt true level) (level + 1) dest src) is s = .ok s' →
      ∃ ρ', Cloned ρ ρ' path is dest s s'
  | [], s, s', ρ, _, _, h, _, _, _, hok => by
    cases hok
    exact ⟨ρ, h, GrewBelow.refl _ _ _, fun _ _ _ _ => rfl, fun _ _ => rfl⟩
  | i :: is, s, s', ρ, hnd, hlt, h, hsrc, hdest, hfresh, hok => by
    obtain ⟨hni, hnd'⟩ := nodup_cons.1 hnd
    have hfresh1 : FreshBelow ρ path [i] := fun f q hf j hj =>
      hfresh f q hf j (mem_cons.2 (.inl (mem_singleton.1 hj)))
    have hfresh2 : FreshBelow ρ path is := fun f q hf j hj => hfresh f q hf j (mem_cons_of_mem _ hj)
    rw [forEntries] at hok
    cases hbody : cloneBody true (clonePt true level) (level + 1) dest src i s with
    | error e =>
      rw [hbody] at hok
      cases hok
    | ok r =>
      obtain ⟨s1, go⟩ := r
      rw [hbody] at hok
      obtain ⟨ρ1, hd⟩ := cloneBody_cloned hspec hlen h hsrc hdest (hlt i mem_cons_self) hfresh1 hbody
      cases go with
      | false =>
        cases hok
        refine ⟨ρ1, hd.typed, ⟨hd.grew.1, fun f r hf => ?_⟩, hd.kept, fun j hj => hd.other j ?_⟩
        · rcases hd.grew.2 f r hf with hf | ⟨q, hq, j, hj, hpre⟩
          · exact .inl hf
          · exact .inr ⟨q, hq, j, mem_cons.2 (.inl (mem_singleton.1 hj)), hpre⟩
        · exact fun hji => hj (mem_cons.2 (.inl (mem_singleton.1 hji)))
      | true =>
        obtain ⟨ρ2, hd2⟩ := cloneLoop_cloned hspec hlen is s1 s' ρ1 hnd'
          (fun j hj => hlt j (mem_cons_of_mem _ hj)) hd.typed (hd.grew.1 _ _ hsrc) (hd.grew.1 _ _ hdest)
          (hfresh2.grew hd.grew fun j hj => by rwa [mem_singleton.1 hj]) hok
        refine ⟨ρ2, hd2.typed, hd.grew.trans hd2.grew, fun f q hf hfd => ?_, fun j hj => ?_⟩
        · rw [hd2.kept f q (hd.grew.1 _ _ hf) hfd, hd.kept f q hf hfd]
        · rw [mem_cons, not_or] at hj
          rw [hd2.other j hj.2, hd.other j (by simpa using hj.1)]

theorem clonePt_cloned : ∀ level, CloneTyped level
  | 0 => fun path dest src s s' ρ _ h _ _ _ hok => by
    cases hok
    exact ⟨ρ, h, GrewBelow.refl _ _ _, fun _ _ _ _ => rfl, fun _ _ => rfl⟩
  | level + 1 => fun path dest src s s' ρ hlen h hsrc hdest hfresh hok =>
    cloneLoop_cloned (clonePt_cloned level) (by omega) (List.range 512) s s' ρ nodup_range
      (fun i hi => mem_range.1 hi) h hsrc hdest hfresh hok

end

/-! ## Runs -/

/-- An address space as `task_exec` lays it out and later calls extend it: tables and pages below 512 GB of its own, each
page counted and mapped with `PAGE_USER` at one address, and the tables of the rest of user space apart from them. -/
def LaidOut (s : Vm) (cr3 : Nat) : Prop :=
  ∃ ρ, WellTyped ρ s ∧ ρ cr3 = some (.table true []) ∧ ∀ f q, ρ f ≠ some (.table false q)

def Forked (s : Vm) (parent child : Nat) : Prop :=
  ∃ ρ, WellTyped ρ s ∧ ρ parent = some (.table true []) ∧ ρ child = some (.table false [])

theorem vmmClonePml4_forked {s s1 : Vm} {cr3 b : Nat} (h : LaidOut s cr3)
    (hok : s.vmmClonePml4 cr3 true = .ok (s1, some b)) : Forked s1 cr3 b := by
  obtain ⟨ρ, hwt, hroot, hnone⟩ := h
  unfold vmmClonePml4 at hok
  obtain ⟨t, heq, -⟩ | ⟨t, p, heq, htm, hpt, hfree, -, hbits, hcnt, htot⟩ := hwt.alloc
  · rw [heq] at hok
    cases hok
  rw [heq] at hok
  dsimp only at hok
  have hne : cr3 ≠ p := by
    rintro rfl
    rw [hfree] at hroot
    cases hroot
  have htyped : WellTyped (Function.update ρ p (some (.table false []))) (t.zeroPage p) := by
    refine hwt.extend hfree hpt (fun f hf => by rw [zeroPage_mem_ne hf, htm]) hbits hcnt htot (fun j c _ _ => ?_)
      fun side q hq f hf => ?_
    · have : (t.zeroPage p).mem p j = 0#64 := by simp [zeroPage]
      rw [this]
      exact zero_not_present
    · cases hq
      exact hnone f _ hf
  have hfresh : FreshBelow (Function.update ρ p (some (.table false []))) [] (List.range 512) := by
    intro f q hf j _ hpre
    by_cases hfp : f = p
    · rw [hfp, update_self] at hf
      cases hf
      have := hpre.length_le
      simp at this
    · rw [update_of_ne hfp] at hf
      exact hnone f q hf
  cases hrec : clonePt true 4 p cr3 (t.zeroPage p) with
  | error e =>
    rw [hrec] at hok
    cases hok
  | ok s' =>
    rw [hrec] at hok
    simp only [Except.map, Except.ok.injEq, Prod.mk.injEq, Option.some.injEq] at hok
    obtain ⟨rfl, rfl⟩ := hok
    have hroot' : Function.update ρ p (some (.table false [])) cr3 = some (.table true []) := by
      rw [update_of_ne hne, hroot]
    have hnew : Function.update ρ p (some (.table false [])) p = some (.table false []) := update_self ..
    obtain ⟨ρ', hd⟩ := clonePt_cloned 4 [] p cr3 (t.zeroPage p) s' _ rfl htyped hroot' hnew hfresh hrec
    exact ⟨ρ', hd.typed, hd.grew.1 _ _ hroot', hd.grew.1 _ _ hnew⟩

structure UserStore where
  side : Bool
  virt : Nat
  byte : BitVec 8

/-- The top-level table of a side: the parent is `true`. -/
def rootOf (parent child : Nat) (side : Bool) : Nat := if side then parent else child

def forkStep (parent child : Nat) (e : Except PmmPanic Vm) (w : UserStore) : Except PmmPanic Vm :=
  e.bind fun s => s.userWrite (rootOf parent child w.side) w.virt w.byte

def LowStore (w : UserStore) : Prop := userAddr w.virt ∧ pml4Index w.virt = 0

instance (w : UserStore) : Decidable (LowStore w) :=
  inferInstanceAs (Decidable ((USER_BASE ≤ w.virt ∧ w.virt ≤ USER_LIMIT) ∧ _))

/-- The store changes no byte the other address space reads at a user address. -/
def Isolated (parent child : Nat) (s : Vm) (w : UserStore) : Prop :=
  ∃ s', s.userWrite (rootOf parent child w.side) w.virt w.byte = .ok s' ∧
    ∀ v, userAddr v → userRead s'.mem (rootOf parent child (!w.side)) v = userRead s.mem (rootOf parent child (!w.side)) v

theorem forked_store {s : Vm} {parent child : Nat} (h : Forked s parent child) {w : UserStore} (hw : LowStore w) :
    Isolated parent child s w ∧ ∃ s', s.userWrite (rootOf parent child w.side) w.virt w.byte = .ok s' ∧
    Forked s' parent child := by
  obtain ⟨ρ, hwt, hp, hc⟩ := h
  have hroot : ∀ side, ρ (rootOf parent child side) = some (.table side []) := fun side => by
    cases side with
    | true => exact hp
    | false => exact hc
  obtain ⟨s', ρ', hok, hwt', hkeep, hreads⟩ := userWrite_isolated hwt (hroot w.side) (hroot (!w.side)) hw.1 hw.2 w.byte
  exact ⟨⟨s', hok, hreads⟩, s', hok, ρ', hwt', hkeep _ _ hp, hkeep _ _ hc⟩

/-- **Fork isolation below 512 GB.**  After the clone of an address space, in every state of any run of user stores
below 512 GB through either side, no assertion fails and every such store changes nothing the other side reads at any
user address. -/
theorem fork_isolated_low (s s1 : Vm) (parent child : Nat) (h : LaidOut s parent)
    (hclone : s.vmmClonePml4 parent true = .ok (s1, some child)) (stores : List UserStore)
    (hlow : ∀ w ∈ stores, LowStore w) :
    ∀ e ∈ Run.states (forkStep parent child) (.ok s1) stores,
      ∃ t, e = .ok t ∧ ∀ w, LowStore w → Isolated parent child t w := by
  intro e he
  have hinv := Run.states_forall (P := fun e => ∃ t, e = .ok t ∧ Forked t parent child) (C := fun _ w => LowStore w)
    (fun e w hP hw => ?_) stores (.ok s1) ⟨s1, rfl, vmmClonePml4_forked h hclone⟩
    ((Run.guarded_iff_forall_mem stores _).2 hlow) e he
  · obtain ⟨t, rfl, hf⟩ := hinv
    exact ⟨t, rfl, fun w hw => (forked_store hf hw).1⟩
  · obtain ⟨t, rfl, hf⟩ := hP
    obtain ⟨-, t', hok, hf'⟩ := forked_store hf hw
    exact ⟨t', hok, hf'⟩

/-! ## A program with one page of its image and one of its stack -/

def forkVm : Vm where
  mem := fun f i =>
    if f = 2 ∧ i = 0 then addrOf 3 ||| tableFlags
    else if f = 3 ∧ i = 8 then addrOf 8 ||| tableFlags
    else if f = 8 ∧ i = 0 then addrOf 9 ||| tableFlags
    else if f = 9 ∧ i = 0 then addrOf 10 ||| tableFlags
    else if f = 2 ∧ i = 255 then addrOf 4 ||| tableFlags
    else if f = 4 ∧ i = 511 then addrOf 5 ||| tableFlags
    else if f = 5 ∧ i = 511 then addrOf 6 ||| tableFlags
    else if f = 6 ∧ i = 511 then addrOf 7 ||| tableFlags
    else 0#64
  pmm :=
    { bits := fun p => decide (p < 12)
      refCounts := fun _ => 1
      totalRam := 24 * PAGE_SIZE
      usedRam := 12 * PAGE_SIZE
      totalPages := 24
      lastFreeIdx := 0 }

def forkRole (f : Nat) : Option Role :=
  if f = 2 then some (.table true [])
  else if f = 3 then some (.table true [0])
  else if f = 8 then some (.table true [0, 8])
  else if f = 9 then some (.table true [0, 8, 0])
  else if f = 10 then some (.page [0, 8, 0, 0])
  else if f = 4 then some (.shared 3)
  else if f = 5 then some (.shared 2)
  else if f = 6 then some (.shared 1)
  else if f = 7 then some (.shared 0)
  else none

theorem forkVm_present {f i : Nat} (h : present (forkVm.mem f i) = true) :
    (f, i) ∈ [(2, 0), (3, 8), (8, 0), (9, 0), (2, 255), (4, 511), (5, 511), (6, 511)] := by
  simp only [mem_cons, Prod.mk.injEq, not_mem_nil, or_false]
  by_contra hcon
  simp only [not_or] at hcon
  obtain ⟨h1, h2, h3, h4, h5, h6, h7, h8⟩ := hcon
  simp [forkVm, h1, h2, h3, h4, h5, h6, h7, h8, zero_not_present] at h

theorem forkRole_some {f : Nat} {r : Role} (h : forkRole f = some r) :
    (f, r) ∈ [(2, .table true []), (3, .table true [0]), (8, .table true [0, 8]), (9, .table true [0, 8, 0]),
      (10, .page [0, 8, 0, 0]), (4, .shared 3), (5, .shared 2), (6, .shared 1), (7, .shared 0)] := by
  have hframe : f ∈ [2, 3, 8, 9, 10, 4, 5, 6, 7] := by
    simp only [mem_cons, not_mem_nil, or_false]
    by_contra hout
    rw [forkRole, if_neg (by omega), if_neg (by omega), if_neg (by omega), if_neg (by omega), if_neg (by omega),
      if_neg (by omega), if_neg (by omega), if_neg (by omega), if_neg (by omega)] at h
    cases h
  simp only [mem_cons, not_mem_nil, or_false] at hframe
  rcases hframe with rfl | rfl | rfl | rfl | rfl | rfl | rfl | rfl | rfl <;> cases h <;> decide

theorem forkVm_entries : ∀ x ∈ [(2, 0), (3, 8), (8, 0), (9, 0), (2, 255), (4, 511), (5, 511), (6, 511)],
    ∀ r ∈ forkRole x.1, ∀ c ∈ r.child x.2, forkRole (frameOf (forkVm.mem x.1 x.2)) = some c ∧
      huge (forkVm.mem x.1 x.2) = false ∧ user (forkVm.mem x.1 x.2) = true := by
  decide

theorem forkVm_typed : WellTyped forkRole forkVm := by
  have hside : ∀ f q, forkRole f ≠ some (.table false q) := fun f q hf => by
    have := forkRole_some hf
    simp at this
  refine ⟨.inr (by decide), by decide, fun f hf _ => ?_, fun f q hf => ?_, fun f f' side p hf hf' => ?_,
    fun t r i c hr hi hp hc => ?_, fun t side p i q hr hi hp hc => ?_, fun t t' p i q hr hr' => absurd hr' (hside t' p)⟩
  · obtain ⟨r, hr⟩ := Option.ne_none_iff_exists'.1 hf
    have := forkRole_some hr
    simp only [mem_cons, Prod.mk.injEq, not_mem_nil, or_false] at this
    have hlt : f < 12 := by omega
    simpa [forkVm] using hlt
  · have := forkRole_some hf
    simp only [mem_cons, Prod.mk.injEq, reduceCtorEq, and_false, false_or, or_false, not_mem_nil] at this
    obtain ⟨rfl, -⟩ := this
    exact ⟨by decide, by decide⟩
  · have h1 := forkRole_some hf
    have h2 := forkRole_some hf'
    simp only [mem_cons, Prod.mk.injEq, Role.table.injEq, reduceCtorEq, and_false, or_false, not_mem_nil] at h1 h2
    rcases h1 with ⟨rfl, rfl, rfl⟩ | ⟨rfl, rfl, rfl⟩ | ⟨rfl, rfl, rfl⟩ | ⟨rfl, rfl, rfl⟩ <;>
      (simp at h2; exact h2.symm)
  · have := forkVm_entries (t, i) (forkVm_present hp) r hr c hc
    exact ⟨this.1, fun _ => this.2.1⟩
  · exact (forkVm_entries (t, i) (forkVm_present hp) _ hr _ hc).2.2

theorem forkVm_laidOut : LaidOut forkVm 2 := ⟨forkRole, forkVm_typed, rfl, fun f q hf => by simpa using forkRole_some hf⟩

def forkSeen (virt : Nat) : Option (Nat × Option (BitVec 8) × Option (BitVec 8)) :=
  match forkVm.vmmClonePml4 2 true with
  | .ok (s1, some child) =>
    match s1.userWrite 2 virt 1 with
    | .ok s2 => some (child, userRead s1.mem child virt, userRead s2.mem child virt)
    | .error _ => none
  | _ => none

theorem of_forkSeen {virt child : Nat} {a b : Option (BitVec 8)} (h : forkSeen virt = some (child, a, b)) :
    ∃ s1 s2, forkVm.vmmClonePml4 2 true = .ok (s1, some child) ∧ s1.userWrite 2 virt 1 = .ok s2 ∧
      userRead s1.mem child virt = a ∧ userRead s2.mem child virt = b := by
  delta forkSeen at h
  cases hclone : forkVm.vmmClonePml4 2 true with
  | error _ =>
    rw [hclone] at h
    cases h
  | ok r =>
    rw [hclone] at h
    obtain ⟨s1, _ | c⟩ := r
    · cases h
    cases hwrite : s1.userWrite 2 virt 1 with
    | error _ =>
      dsimp only at h
      rw [hwrite] at h
      cases h
    | ok s2 =>
      dsimp only at h
      rw [hwrite] at h
      cases h
      exact ⟨s1, s2, rfl, hwrite, rfl, rfl⟩

theorem forkSeen_pages : forkSeen 0x200000000 = some (12, some 0, some 0) ∧
    forkSeen 0x7FFFFFFFF000 = some (12, some 0, some 1) := by
  decide +kernel

/-- The image page is private. -/
theorem fork_isolated_image :
    ∃ s1 child, forkVm.vmmClonePml4 2 true = .ok (s1, some child) ∧
      ∀ e ∈ Run.states (forkStep 2 child) (.ok s1) [⟨true, 0x200000000, 1⟩, ⟨false, 0x200000008, 2⟩],
        ∃ t, e = .ok t ∧ ∀ w, LowStore w → Isolated 2 child t w := by
  obtain ⟨s1, -, hclone, -⟩ := of_forkSeen forkSeen_pages.1
  exact ⟨s1, 12, hclone, fork_isolated_low forkVm s1 2 12 forkVm_laidOut hclone _ (by decide)⟩

/-- The stack page is not: the child reads what the parent stored. -/
theorem fork_stack_not_isolated :
    ¬ ∀ (s s1 : Vm) (parent child : Nat), LaidOut s parent → s.vmmClonePml4 parent true = .ok (s1, some child) →
      ∀ stores : List UserStore, (∀ w ∈ stores, userAddr w.virt) →
        ∀ e ∈ Run.states (forkStep parent child) (.ok s1) stores,
          ∃ t, e = .ok t ∧ ∀ w, userAddr w.virt → Isolated parent child t w := by
  intro hall
  obtain ⟨s1, s2, hclone, hwrite, hbefore, hafter⟩ := of_forkSeen forkSeen_pages.2
  obtain ⟨t, ht, hiso⟩ := hall forkVm s1 2 12 forkVm_laidOut hclone [] (fun w hw => by cases hw) _ (Run.head_mem_states _ _)
  cases ht
  obtain ⟨s', hok, hreads⟩ := hiso ⟨true, 0x7FFFFFFFF000, 1⟩ ⟨by decide, by decide⟩
  obtain rfl : s' = s2 := Except.ok.inj ((Eq.symm hok).trans hwrite)
  have hread : userRead s'.mem 12 0x7FFFFFFFF000 = userRead s1.mem 12 0x7FFFFFFFF000 := hreads _ ⟨by decide, by decide⟩
  rw [hafter, hbefore] at hread
  exact absurd hread (by decide)

end Vm
end EterOS.Mm
