import EterOS.Mm.UserSpace
/-!
# PageTree — a tree of page tables, and what an address finds in it

Every table of an address space is given its path of indices from the top (`Tree`), so that no table is reached twice.  A
walk that is at a table of some level finds a page of 4 KB, 2 MB or 1 GB, or nothing (`viewFrom`); `vmm_virt_to_phys` and
the processor both read their answer off that.
-/
namespace EterOS.Mm

open Function

/-- What an address finds: where `vmm_virt_to_phys` puts it, and what the processor makes of it. -/
structure View where
  phys : Nat
  access : Access

/-- A page found `level` levels above the pages of 4 KB. -/
def pageView (level : Nat) (e : BitVec 64) (virt : Nat) : View where
  phys :=
    if level = 2 then (e &&& 0xFFFFFC0000000#64).toNat + virt % 2 ^ 30
    else if level = 1 then (e &&& 0xFFFFFFFFFE00000#64).toNat + virt % 2 ^ 21
    else frameOf e * PAGE_SIZE + virt % PAGE_SIZE
  access := ⟨frameOf e / 2 ^ (9 * level) * 2 ^ (9 * level) + virt / PAGE_SIZE % 2 ^ (9 * level), user e, writable e⟩

def View.under (e : BitVec 64) (v : View) : View :=
  { v with access := ⟨v.access.frame, user e && v.access.user, writable e && v.access.write⟩ }

def viewFrom (m : Nat → Nat → BitVec 64) : Nat → Nat → Nat → Option View
  | 0, _, _ => none
  | level + 1, table, virt =>
    let e := m table (indexAt (level + 1) virt)
    if !present e then none
    else if level = 0 ∨ level < 3 ∧ huge e then some (pageView level e virt)
    else (viewFrom m level (frameOf e) virt).map (View.under e)

def viewAt (m : Nat → Nat → BitVec 64) (cr3 virt : Nat) : Option View := viewFrom m 4 cr3 virt

@[simp] theorem View.under_phys (e : BitVec 64) (v : View) : (v.under e).phys = v.phys := rfl

section
variable (m : Nat → Nat → BitVec 64) (t virt : Nat)

theorem viewFrom_four : viewFrom m 4 t virt = if !present (m t (pml4Index virt)) then none
    else (viewFrom m 3 (frameOf (m t (pml4Index virt))) virt).map (View.under (m t (pml4Index virt))) := by
  rw [viewFrom]
  simp [indexAt]

theorem viewFrom_three : viewFrom m 3 t virt = if !present (m t (pdptIndex virt)) then none
    else if huge (m t (pdptIndex virt)) then some (pageView 2 (m t (pdptIndex virt)) virt)
    else (viewFrom m 2 (frameOf (m t (pdptIndex virt))) virt).map (View.under (m t (pdptIndex virt))) := by
  rw [viewFrom]
  simp [indexAt]

theorem viewFrom_two : viewFrom m 2 t virt = if !present (m t (pdIndex virt)) then none
    else if huge (m t (pdIndex virt)) then some (pageView 1 (m t (pdIndex virt)) virt)
    else (viewFrom m 1 (frameOf (m t (pdIndex virt))) virt).map (View.under (m t (pdIndex virt))) := by
  rw [viewFrom]
  simp [indexAt]

theorem viewFrom_one : viewFrom m 1 t virt =
    if !present (m t (ptIndex virt)) then none else some (pageView 0 (m t (ptIndex virt)) virt) := by
  rw [viewFrom]
  simp [indexAt]

end

section
variable (m : Nat → Nat → BitVec 64) (cr3 virt : Nat)

theorem translate_view : translate m cr3 virt = (viewAt m cr3 virt).map View.access := by
  unfold translate viewAt
  dsimp only
  rw [viewFrom_four]
  split
  · rfl
  rw [viewFrom_three]
  split
  · rfl
  split
  · simp [pageView, View.under]
  rw [viewFrom_two]
  split
  · rfl
  split
  · simp [pageView, View.under, Bool.and_assoc]
  rw [viewFrom_one]
  split
  · rfl
  · simp [pageView, View.under, Bool.and_assoc, Nat.mod_one]

theorem virtToPhys_view (s : Vm) :
    s.vmmVirtToPhys cr3 virt = if virt = 0 then 0 else ((viewAt s.mem cr3 virt).map View.phys).getD 0 := by
  unfold Vm.vmmVirtToPhys viewAt
  dsimp only
  split
  · rfl
  rw [viewFrom_four]
  split
  · rfl
  rw [viewFrom_three]
  split
  · rfl
  split
  · simp [pageView]
  rw [viewFrom_two]
  split
  · rfl
  split
  · simp [pageView]
  rw [viewFrom_one]
  split
  · rfl
  · simp [pageView]

end

/-! ## The tables on the way of an address -/

/-- The indices that lead to the table of `level` for an address. -/
def way (level virt : Nat) : List Nat := [pml4Index virt, pdptIndex virt, pdIndex virt, ptIndex virt].take (4 - level)

theorem way_succ {level : Nat} (h : level < 4) (virt : Nat) :
    way level virt = way (level + 1) virt ++ [indexAt (level + 1) virt] := by
  match level, h with
  | 0, _ => rfl
  | 1, _ => rfl
  | 2, _ => rfl
  | 3, _ => rfl

theorem way_length (level virt : Nat) : (way level virt).length = 4 - level := by
  rw [way, List.length_take]
  exact Nat.min_eq_left (Nat.sub_le 4 level)

inductive Reaches (m : Nat → Nat → BitVec 64) (cr3 virt : Nat) : Nat → Nat → Prop
  | top : Reaches m cr3 virt 4 cr3
  | down {level t : Nat} : Reaches m cr3 virt (level + 1) t → 0 < level →
      present (m t (indexAt (level + 1) virt)) = true → ¬ (level < 3 ∧ huge (m t (indexAt (level + 1) virt)) = true) →
      Reaches m cr3 virt level (frameOf (m t (indexAt (level + 1) virt)))

section
variable {m m' : Nat → Nat → BitVec 64} {cr3 virt level t : Nat}

theorem Reaches.bounds (h : Reaches m cr3 virt level t) : 0 < level ∧ level ≤ 4 := by
  induction h with
  | top => decide
  | down _ h0 _ _ ih => exact ⟨h0, by omega⟩

/-- **A walk depends on the entries on its way**, or on what it finds from one of the tables there. -/
theorem Reaches.view_congr (hm : ∀ level t, Reaches m cr3 virt level t →
      m' t (indexAt level virt) = m t (indexAt level virt) ∨ viewFrom m' level t virt = viewFrom m level t virt) :
    ∀ (level t : Nat), Reaches m cr3 virt level t → viewFrom m' level t virt = viewFrom m level t virt
  | 0, _, _ => rfl
  | level + 1, t, hr => by
    rcases hm (level + 1) t hr with hentry | hsame
    swap
    · exact hsame
    unfold viewFrom
    dsimp only
    rw [hentry]
    split
    · rfl
    rename_i hp
    split
    · rfl
    rename_i hleaf
    obtain ⟨h0, hhuge⟩ := not_or.1 hleaf
    have hnext := Reaches.down hr (by omega) (by simpa using hp) hhuge
    rw [Reaches.view_congr hm level _ hnext]

theorem Reaches.congr (h : Reaches m cr3 virt level t)
    (hm : ∀ l u, level < l → Reaches m cr3 virt l u → m' u (indexAt l virt) = m u (indexAt l virt)) :
    Reaches m' cr3 virt level t := by
  induction h with
  | top => exact .top
  | @down level t hr h0 hp hh ih =>
    have hentry := hm (level + 1) t (by omega) hr
    have hup := ih fun l u hl hu => hm l u (by omega) hu
    rw [← hentry] at hp hh ⊢
    exact .down hup h0 hp hh

theorem Reaches.address {virt' : Nat} (h : Reaches m cr3 virt level t)
    (hi : ∀ l, level < l → l ≤ 4 → indexAt l virt' = indexAt l virt) : Reaches m cr3 virt' level t := by
  induction h with
  | top => exact .top
  | @down level t hr h0 hp hh ih =>
    have hindex := hi (level + 1) (by omega) (by have := hr.bounds; omega)
    rw [← hindex] at hp hh ⊢
    exact .down (ih fun l hl hl' => hi l (by omega) hl') h0 hp hh

theorem Reaches.view (h : Reaches m cr3 virt level t) : ∃ g : View → View, (∀ v, (g v).phys = v.phys) ∧ ∀ m' :
      Nat → Nat → BitVec 64, (∀ l u, level < l → Reaches m cr3 virt l u → m' u (indexAt l virt) = m u (indexAt l virt)) →
      viewAt m' cr3 virt = (viewFrom m' level t virt).map g := by
  induction h with
  | top => exact ⟨id, fun _ => rfl, fun m' _ => by simp [viewAt]⟩
  | @down level t hr h0 hp hh ih =>
    obtain ⟨g, hg, hview⟩ := ih
    refine ⟨g ∘ View.under (m t (indexAt (level + 1) virt)), fun v => hg _, fun m' hm => ?_⟩
    rw [hview m' fun l u hl hu => hm l u (by omega) hu, viewFrom,
      hm (level + 1) t (by omega) hr, if_neg (by simp [hp]), if_neg (not_or.2 ⟨by omega, hh⟩), Option.map_map]

end

/-! ## The tree -/

/-- The tables of the address space with the top-level table `cr3` stand at the paths `ρ`, each at one, and none of them is
free. -/
structure Tree (ρ : Nat → Option (List Nat)) (s : Vm) (cr3 : Nat) : Prop where
  zero : s.pmm.totalPages = 0 ∨ s.pmm.bits 0 = true
  frames : s.pmm.totalPages ≤ 2 ^ 40
  root : ρ cr3 = some []
  used : ∀ f, ρ f ≠ none → f < s.pmm.totalPages → s.pmm.bits f = true
  top : ∀ t i, ρ t = some [] → i < 512 → present (s.mem t i) = true → huge (s.mem t i) = false
  entry : ∀ t q i, ρ t = some q → q.length < 3 → i < 512 → present (s.mem t i) = true → huge (s.mem t i) = false →
    ρ (frameOf (s.mem t i)) = some (q ++ [i])

section
variable {ρ : Nat → Option (List Nat)} {s s' : Vm} {cr3 virt level t : Nat}

theorem Tree.role (h : Tree ρ s cr3) (hr : Reaches s.mem cr3 virt level t) : ρ t = some (way level virt) := by
  induction hr with
  | top => exact h.root
  | @down level t hr h0 hp hh ih =>
    have hb := hr.bounds
    have hlevel : level < 4 := by omega
    have hlen : (way (level + 1) virt).length < 3 := by
      rw [way_length]
      omega
    have hsmall : huge (s.mem t (indexAt (level + 1) virt)) = false := by
      by_cases h3 : level < 3
      · simpa using fun hc => hh ⟨h3, hc⟩
      · obtain rfl : level = 3 := by omega
        exact h.top t _ ih (TableRole.indexAt_lt _ _) hp
    rw [way_succ hlevel]
    exact h.entry t _ _ ih hlen (TableRole.indexAt_lt _ _) hp hsmall

theorem Tree.view_write (h : Tree ρ s cr3) {q : List Nat} (ht : ρ t = some q) {i : Nat} {e : BitVec 64}
    (hoff : ∀ level, 0 < level → level ≤ 4 → way level virt = q → indexAt level virt ≠ i) :
    viewAt (s.write t i e).mem cr3 virt = viewAt s.mem cr3 virt := by
  refine Reaches.view_congr (fun level u hr => .inl ?_) 4 cr3 .top
  have hb := hr.bounds
  rw [Vm.write_mem, if_neg]
  rintro ⟨rfl, hi⟩
  refine hoff level hb.1 hb.2 ?_ hi
  rw [h.role hr] at ht
  exact Option.some.inj ht

end

/-! ## A new table -/

/-- A frame becomes a table with the given entries, behind entry `i` of table `t`. -/
def Vm.linkTable (s : Vm) (t i p : Nat) (c : Nat → BitVec 64) : Vm :=
  ({ s with mem := Function.update s.mem p c } : Vm).write t i (addrOf p ||| Vm.tableFlags)

structure LinkedTo (m m' : Nat → Nat → BitVec 64) (t i p : Nat) (c : Nat → BitVec 64) : Prop where
  present : present (m' t i) = true
  small : huge (m' t i) = false
  user : user (m' t i) = true
  writable : writable (m' t i) = true
  frame : frameOf (m' t i) = p
  table : m' p = c
  other : ∀ u j, u ≠ p → ¬ (u = t ∧ j = i) → m' u j = m u j

section
variable {ρ : Nat → Option (List Nat)} {s s1 : Vm} {cr3 t i p : Nat} {q : List Nat} {c : Nat → BitVec 64}

theorem linkTable_linked (hp : p < 2 ^ 40) (hne : t ≠ p) (hm : s1.mem = s.mem) :
    LinkedTo s.mem (s1.linkTable t i p c).mem t i p c := by
  have hat : (s1.linkTable t i p c).mem t i = addrOf p ||| Vm.tableFlags := by
    rw [Vm.linkTable, Vm.write_mem, if_pos ⟨rfl, rfl⟩]
  obtain ⟨hpres, hsmall, hframe⟩ := tableEntry_bits hp
  refine ⟨hat ▸ hpres, hat ▸ hsmall, ?_, ?_, hat ▸ hframe, ?_, fun u j hu hij => ?_⟩
  · rw [hat, user_eq, BitVec.getLsbD_or, addrOf_bit p (by decide)]
    decide
  · rw [hat, writable_eq, BitVec.getLsbD_or, addrOf_bit p (by decide)]
    decide
  · rw [Vm.linkTable, Vm.write_mem_ne (Ne.symm hne)]
    exact update_self ..
  · rw [Vm.linkTable, Vm.write_mem, if_neg hij]
    dsimp only
    rw [update_of_ne hu, hm]

theorem Tree.link (h : Tree ρ s cr3) (ht : ρ t = some q) (hi : i < 512) (hm : s1.mem = s.mem)
    (htook : Took s.pmm s1.pmm fun f => f = p) (hc : q.length = 2 ∨ ∀ j, present (c j) = false) :
    Tree (Function.update ρ p (some (q ++ [i]))) (s1.linkTable t i p c) cr3 ∧ ρ p = none ∧
      LinkedTo s.mem (s1.linkTable t i p c).mem t i p c := by
  obtain ⟨hlt, hfree, hbit, -⟩ := htook.fresh p rfl
  have hρp : ρ p = none := by
    by_contra hcon
    rw [h.used p hcon hlt] at hfree
    cases hfree
  have hne : ∀ u q', ρ u = some q' → u ≠ p := by
    rintro u q' hu rfl
    rw [hρp] at hu
    cases hu
  have hl := linkTable_linked (s := s) (i := i) (c := c) (Nat.lt_of_lt_of_le hlt h.frames) (hne t q ht) hm
  refine ⟨?_, hρp, hl⟩
  have hpmm : (s1.linkTable t i p c).pmm = s1.pmm := rfl
  generalize s1.linkTable t i p c = s2 at hl hpmm
  have hupd : ∀ u q', ρ u = some q' → Function.update ρ p (some (q ++ [i])) u = some q' := fun u q' hu => by
    rw [update_of_ne (hne u q' hu), hu]
  refine ⟨?_, ?_, hupd _ _ h.root, fun f hf hf' => ?_, fun u j hu hj hp => ?_, fun u q' j hu hq' hj hp hh => ?_⟩
  · rw [hpmm]
    exact htook.zero h.zero
  · rw [hpmm, htook.total]
    exact h.frames
  · rw [hpmm] at hf' ⊢
    by_cases hfp : f = p
    · rw [hfp, hbit]
    · rw [update_of_ne hfp] at hf
      rw [(htook.same f hfp).1]
      exact h.used f hf (htook.total ▸ hf')
  · by_cases hup : u = p
    · rw [hup, update_self] at hu
      simp at hu
    rw [update_of_ne hup] at hu
    by_cases hij : u = t ∧ j = i
    · rw [hij.1, hij.2]
      exact hl.small
    · rw [hl.other u j hup hij] at hp ⊢
      exact h.top u j hu hj hp
  · by_cases hup : u = p
    · -- an empty table
      rw [hup, update_self, Option.some.injEq] at hu
      rw [hup, hl.table] at hp
      rcases hc with hc | hc
      · rw [← hu, List.length_append, hc] at hq'
        simp at hq'
      · rw [hc j] at hp
        cases hp
    rw [update_of_ne hup] at hu
    by_cases hij : u = t ∧ j = i
    · obtain ⟨rfl, rfl⟩ := hij
      rw [ht] at hu
      cases hu
      rw [hl.frame, update_self]
    · rw [hl.other u j hup hij] at hp hh ⊢
      exact hupd _ _ (h.entry u q' j hu hq' hj hp hh)

theorem Tree.ofTook (h : Tree ρ s cr3) {s' : Vm} {new : Nat → Prop} (hm : s'.mem = s.mem) (ht : Took s.pmm s'.pmm new) :
    Tree ρ s' cr3 := by
  refine ⟨ht.zero h.zero, ht.total ▸ h.frames, h.root, fun f hf hlt => ?_, by rw [hm]; exact h.top,
    by rw [hm]; exact h.entry⟩
  rw [ht.total] at hlt
  by_cases hn : new f
  · exact (ht.fresh f hn).2.2.1
  · rw [(ht.same f hn).1, h.used f hf hlt]

end

/-! ## A small tree -/

def oneEntry (k : Nat) (e : BitVec 64) : Vm where
  mem := Function.update (Function.update (fun _ _ => 0#64) 1 (Function.update (fun _ => 0#64) 0 0x2007#64)) 2
    (Function.update (fun _ => 0#64) k e)
  pmm := { bits := fun p => decide (p < 3), refCounts := fun _ => 1, totalRam := 4 * PAGE_SIZE, usedRam := 3 * PAGE_SIZE,
           totalPages := 4, lastFreeIdx := 0 }

def oneEntryPath (t : Nat) : Option (List Nat) := if t = 1 then some [] else if t = 2 then some [0] else none

theorem oneEntry_tree {k : Nat} {e : BitVec 64} (he : present e = false ∨ huge e = true) :
    Tree oneEntryPath (oneEntry k e) 1 := by
  have hroot : ∀ i, (oneEntry k e).mem 1 i = if i = 0 then 0x2007#64 else 0#64 := fun i => by
    simp [oneEntry, Function.update]
  have hpdpt : ∀ i, (oneEntry k e).mem 2 i = if i = k then e else 0#64 := fun i => by
    simp [oneEntry, Function.update]
  have hfirst : ∀ i, present ((oneEntry k e).mem 1 i) = true → i = 0 := fun i hp => by
    by_contra h0
    rw [hroot, if_neg h0, Vm.zero_not_present] at hp
    cases hp
  refine ⟨.inr rfl, show 4 ≤ 2 ^ 40 by decide, rfl, fun f hf hlt => ?_, fun t i ht hi hp => ?_,
    fun t q i ht hq hi hp hh => ?_⟩
  · unfold oneEntryPath at hf
    have hle : f < 3 := by
      by_contra hcon
      rw [if_neg (by omega), if_neg (by omega)] at hf
      exact hf rfl
    simpa [oneEntry] using hle
  · unfold oneEntryPath at ht
    split at ht
    · rename_i h1
      subst h1
      rw [hroot, if_pos (hfirst i hp)]
      decide
    · split at ht <;> simp at ht
  · unfold oneEntryPath at ht
    split at ht
    · rename_i h1
      subst h1
      obtain rfl := Option.some.inj ht
      rw [hroot, if_pos (hfirst i hp), hfirst i hp]
      decide
    · split at ht
      · rename_i h2
        subst h2
        rw [hpdpt] at hp hh
        split at hp
        · rename_i h1
          rw [if_pos h1] at hh
          rcases he with he | he
          · rw [he] at hp
            cases hp
          · rw [he] at hh
            cases hh
        · rw [Vm.zero_not_present] at hp
          cases hp
      · cases ht

/-- Memory with a few entries in its tables. -/
def ofEntries (es : List (Nat × Nat × BitVec 64)) (pmm : Pmm) : Vm where
  mem t i := ((es.find? fun x => x.1 = t ∧ x.2.1 = i).map fun x => x.2.2).getD 0#64
  pmm := pmm

theorem ofEntries_tree {es : List (Nat × Nat × BitVec 64)} {pmm : Pmm} {ρ : Nat → Option (List Nat)}
    (hzero : pmm.bits 0 = true) (hframes : pmm.totalPages ≤ 2 ^ 40) (hroot : ρ 1 = some [])
    (hused : ∀ f, ρ f ≠ none → pmm.bits f = true)
    (hes : ∀ x ∈ es, ∀ q, ρ x.1 = some q → (q = [] → huge x.2.2 = false) ∧
      (q.length < 3 → huge x.2.2 = false → present x.2.2 = true → ρ (frameOf x.2.2) = some (q ++ [x.2.1]))) :
    Tree ρ (ofEntries es pmm) 1 := by
  have hmem : ∀ t i, present ((ofEntries es pmm).mem t i) = true → (t, i, (ofEntries es pmm).mem t i) ∈ es := by
    intro t i hp
    unfold ofEntries at hp ⊢
    dsimp only at hp ⊢
    cases hfind : es.find? fun x => x.1 = t ∧ x.2.1 = i with
    | none =>
      rw [hfind] at hp
      exact absurd hp (by simpa using Vm.zero_not_present)
    | some x =>
      have hx := List.find?_some hfind
      rw [decide_eq_true_iff] at hx
      obtain ⟨rfl, rfl⟩ := hx
      exact List.mem_of_find?_eq_some hfind
  refine ⟨.inr hzero, hframes, hroot, fun f hf _ => hused f hf, fun t i ht _ hp => ?_, fun t q i ht hq _ hp hh => ?_⟩
  · exact (hes _ (hmem t i hp) [] ht).1 rfl
  · exact (hes _ (hmem t i hp) q ht).2 hq hh hp

/-- Of user mode: a page of 2 MB, one of 4 KB that is copy-on-write and shared, and one that may be written. -/
def userTables : Vm := ofEntries [(1, 0, 0x2007#64), (2, 8, 0x3007#64), (3, 0, 0x200087#64), (3, 1, 0x4007#64),
  (4, 0, 0x5205#64), (4, 1, 0x6007#64)]
  { bits := fun p => decide (p < 7), refCounts := fun p => if p = 5 then 2 else 1, totalRam := 9 * PAGE_SIZE,
    usedRam := 7 * PAGE_SIZE, totalPages := 9, lastFreeIdx := 0 }

def userTablesPath : Nat → Option (List Nat)
  | 1 => some []
  | 2 => some [0]
  | 3 => some [0, 8]
  | 4 => some [0, 8, 1]
  | _ => none

theorem userTables_tree : Tree userTablesPath userTables 1 := by
  refine ofEntries_tree rfl (by decide) rfl (fun f hf => ?_) fun x hx q hq => ?_
  · have hle : f < 5 := by
      by_contra hcon
      refine hf ?_
      unfold userTablesPath
      split <;> first | omega | rfl
    exact decide_eq_true (by omega)
  · simp only [List.mem_cons, List.not_mem_nil, or_false] at hx
    rcases hx with rfl | rfl | rfl | rfl | rfl | rfl <;> obtain rfl := Option.some.inj hq <;> exact ⟨by decide, by decide⟩

end EterOS.Mm
