import EterOS.Lib.Uses
import EterOS.Mm.Confine
/-!
# FrameRefs — the user leaf entries of all address spaces, and the references of their frames

A walk for a user address goes from a top-level table to a page table; the entries walks end at are the user leaf
entries, however many address spaces share a table.  `Refs` says that every frame which is neither the kernel's nor a
table has one reference for each user leaf entry that leads to it, and those that are held elsewhere; `owed` is what the
books are off by in the middle of an operation.
-/
namespace EterOS.Mm

open Function
open TableRole (On indexAt_lt)

/-- The table that the walk for `virt` reads at a level, from one of the top-level tables `C`. -/
inductive Reads (m : Nat → Nat → BitVec 64) (C : Set Nat) (virt : Nat) : Nat → Nat → Prop where
  | top {c : Nat} (hc : c ∈ C) : Reads m C virt 4 c
  | down {level t : Nat} (h : Reads m C virt (level + 1) t) (hl : 0 < level)
      (hp : present (m t (indexAt (level + 1) virt)) = true)
      (hh : level < 3 → huge (m t (indexAt (level + 1) virt)) = false) :
      Reads m C virt level (frameOf (m t (indexAt (level + 1) virt)))

def UserTable (m : Nat → Nat → BitVec 64) (C : Set Nat) (t : Nat) : Prop :=
  ∃ v level, userAddr v ∧ Reads m C v level t

open Classical in
noncomputable def userLeaves (m : Nat → Nat → BitVec 64) (C : Set Nat) (e : Nat × Nat) : Option Nat :=
  if present (m e.1 e.2) = true ∧ ∃ v, userAddr v ∧ Reads m C v 1 e.1 ∧ ptIndex v = e.2 then some (frameOf (m e.1 e.2))
  else none

def addressOf (a b c i : Nat) : Nat := a * 2 ^ 39 + b * 2 ^ 30 + c * 2 ^ 21 + i * 2 ^ 12

theorem addressOf_spec {a b c i : Nat} (ha : a < 256) (hb : b < 512) (hc : c < 512) (hi : i < 512)
    (hlow : ¬ (a = 0 ∧ b < 8)) :
    userAddr (addressOf a b c i) ∧ pml4Index (addressOf a b c i) = a ∧ pdptIndex (addressOf a b c i) = b ∧
      pdIndex (addressOf a b c i) = c ∧ ptIndex (addressOf a b c i) = i := by
  unfold addressOf userAddr pml4Index pdptIndex pdIndex ptIndex USER_BASE USER_LIMIT
  omega

section
variable {C : Set Nat} {ρ : Nat → Option TableRole} {s : Vm} {virt t : Nat}

variable {m : Nat → Nat → BitVec 64}

theorem Reads.nonempty {level : Nat} (h : Reads m C virt level t) : ∃ c, c ∈ C := by
  induction h with
  | top hc => exact ⟨_, hc⟩
  | down _ _ _ _ ih => exact ih

theorem Reads.role {level : Nat} (h : Reads s.mem C virt level t) (hC : ∀ c ∈ C, Tables ρ s c) :
    ∃ r, ρ t = some r ∧ On virt level r := by
  obtain ⟨c0, hc0⟩ := h.nonempty
  induction h with
  | top hc => exact ⟨_, (hC _ hc).root, .top⟩
  | @down level t h hl hp hh ih =>
    obtain ⟨r, ht, hon⟩ := ih
    obtain ⟨c, hc, hmay⟩ := hon.child hl
    obtain ⟨hmh, hhuge⟩ | ⟨-, hρ⟩ := (hC c0 hc0).entry t r _ c ht (indexAt_lt _ _) hp hc
    · rw [hh (hmay hmh)] at hhuge
      cases hhuge
    · exact ⟨c, hρ, .down hon hc⟩

theorem Linked.path {q : List Nat} (h : Linked ρ m t q) :
    ∃ u q' i, q = q' ++ [i] ∧ ρ u = some (.user q') ∧ i < 512 ∧ present (m u i) = true ∧ frameOf (m u i) = t ∧
      (TableRole.user q').child i = some (.user q) ∧
      (q' = [] ∧ i < 256 ∨ (∃ a, q' = [a] ∧ ¬ (a = 0 ∧ i < 8)) ∨ ∃ a b, q' = [a, b]) := by
  obtain ⟨u, q', i, hu, hi, hc, hp, hf⟩ := h
  have hc' := hc
  match q' with
  | [] =>
    simp only [TableRole.child] at hc
    split at hc
    · rename_i hlt
      cases hc
      exact ⟨u, [], i, rfl, hu, hi, hp, hf, hc', .inl ⟨rfl, hlt⟩⟩
    · cases hc
  | [a] =>
    simp only [TableRole.child] at hc
    split at hc
    · cases hc
    · rename_i hlow
      cases hc
      exact ⟨u, [a], i, rfl, hu, hi, hp, hf, hc', .inr (.inl ⟨a, rfl, hlow⟩)⟩
  | [a, b] =>
    cases hc
    exact ⟨u, [a, b], i, rfl, hu, hi, hp, hf, hc', .inr (.inr ⟨a, b, rfl⟩)⟩
  | _ :: _ :: _ :: _ => cases hc

theorem Reads.level {level : Nat} (h : Reads m C virt level t) : 0 < level := by
  cases h with
  | top _ => decide
  | down _ hl _ _ => exact hl

theorem Reads.user {level : Nat} (h : Reads s.mem C virt level t) (hv : userAddr virt) (hC : ∀ c ∈ C, Tables ρ s c) :
    ∃ q, ρ t = some (.user q) ∧ q.length = 4 - level := by
  obtain ⟨r, ht, hon⟩ := h.role hC
  have hpos := h.level
  have h4 := hv.pml4
  have hlow : ¬ (256 ≤ pml4Index virt ∨ pml4Index virt = 0 ∧ pdptIndex virt < 8) := by
    rintro (h' | ⟨h0, h8⟩)
    · omega
    · have := hv.pdpt h0
      omega
  rcases hon.shape with ⟨rfl, rfl⟩ | ⟨rfl, ⟨rfl, -⟩ | ⟨-, hge⟩⟩ | ⟨rfl, ⟨rfl, -⟩ | ⟨-, hk⟩⟩ | ⟨rfl, ⟨rfl, -⟩ | ⟨-, hk⟩⟩ |
    h0
  · exact ⟨_, ht, rfl⟩
  · exact ⟨_, ht, rfl⟩
  · omega
  · exact ⟨_, ht, rfl⟩
  · exact absurd hk hlow
  · exact ⟨_, ht, rfl⟩
  · exact absurd hk hlow
  · omega

theorem reads_of_role (hroot : ∀ c, ρ c = some (.user []) → c ∈ C) (hC : ∀ c ∈ C, Tables ρ s c)
    (hl : AllLinked ρ s.mem) {v : Nat} : ∀ (n t : Nat) (q : List Nat), q.length = n → ρ t = some (.user q) →
      q <+: [pml4Index v, pdptIndex v, pdIndex v] → Reads s.mem C v (4 - n) t
  | 0, t, q, hn, ht, _ => by
    obtain rfl := List.eq_nil_of_length_eq_zero hn
    exact .top (hroot t ht)
  | n + 1, t, q, hn, ht, hq => by
    have hne : q ≠ [] := by
      rintro rfl
      cases hn
    obtain ⟨u, q', i, rfl, hu, hi, hp, hf, hc, hshape⟩ := (hl t q ht hne).path
    have hn' : q'.length = n := by simpa using hn
    have hreads := reads_of_role hroot hC hl n u q' hn' hu ((List.prefix_append q' [i]).trans hq)
    obtain ⟨c0, hc0⟩ := hreads.nonempty
    obtain ⟨hmay, -⟩ | ⟨hhuge, -⟩ := (hC c0 hc0).entry u _ i _ hu hi hp hc
    · cases hmay
    -- the last index of the path is the one the walk reads at its level
    have hindex : 0 < 4 - (n + 1) ∧ 4 - n = (4 - (n + 1)) + 1 ∧ indexAt (4 - (n + 1) + 1) v = i := by
      rcases hshape with ⟨rfl, -⟩ | ⟨a, rfl, -⟩ | ⟨a, b, rfl⟩
      · obtain rfl : n = 0 := hn'.symm
        simpa [indexAt, eq_comm] using hq
      · obtain rfl : n = 1 := hn'.symm
        have := hq
        simp at this
        simp [indexAt, this.2]
      · obtain rfl : n = 2 := hn'.symm
        have := hq
        simp at this
        simp [indexAt, this.2.2]
    obtain ⟨hpos, hlevel, rfl⟩ := hindex
    rw [hlevel] at hreads
    rw [← hf]
    exact .down hreads hpos hp fun _ => hhuge

theorem exists_addressOf (hl : AllLinked ρ s.mem) {q : List Nat} (ht : ρ t = some (.user q)) :
    ∃ a b c, a < 256 ∧ b < 512 ∧ c < 512 ∧ ¬ (a = 0 ∧ b < 8) ∧ q <+: [a, b, c] := by
  have hone : ∀ t a, ρ t = some (.user [a]) → a < 256 := by
    intro t a ht
    obtain ⟨u, q', i, hq, -, -, -, -, -, hshape⟩ := (hl t _ ht (by simp)).path
    rcases hshape with ⟨rfl, hlt⟩ | ⟨a', rfl, -⟩ | ⟨a', b', rfl⟩
    · cases hq
      exact hlt
    · cases hq
    · cases hq
  have htwo : ∀ t a b, ρ t = some (.user [a, b]) → a < 256 ∧ b < 512 ∧ ¬ (a = 0 ∧ b < 8) := by
    intro t a b ht
    obtain ⟨u, q', i, hq, hu, hi, -, -, -, hshape⟩ := (hl t _ ht (by simp)).path
    rcases hshape with ⟨rfl, -⟩ | ⟨a', rfl, hlow⟩ | ⟨a', b', rfl⟩
    · cases hq
    · cases hq
      exact ⟨hone u a hu, hi, hlow⟩
    · cases hq
  rcases List.eq_nil_or_concat q with rfl | hne
  · exact ⟨255, 511, 0, by decide, by decide, by decide, by decide, List.nil_prefix⟩
  · have hq0 : q ≠ [] := by
      obtain ⟨l, x, rfl⟩ := hne
      simp
    obtain ⟨u, q', i, rfl, hu, hi, -, -, -, hshape⟩ := (hl t q ht hq0).path
    rcases hshape with ⟨rfl, hlt⟩ | ⟨a, rfl, hlow⟩ | ⟨a, b, rfl⟩
    · exact ⟨i, 511, 0, hlt, by decide, by decide, by omega, by simp⟩
    · exact ⟨a, i, 0, hone u a hu, hi, by decide, hlow, by simp⟩
    · obtain ⟨ha, hb, hlow⟩ := htwo u a b hu
      exact ⟨a, b, i, ha, hb, hi, hlow, by simp⟩

/-- **The user leaf entries are the entries of the page tables** on the way to user pages. -/
theorem userLeaves_eq (hroot : ∀ c, ρ c = some (.user []) → c ∈ C) (hC : ∀ c ∈ C, Tables ρ s c)
    (hl : AllLinked ρ s.mem) : userLeaves s.mem C = entriesOf ρ s.mem := by
  funext ⟨t, i⟩
  unfold userLeaves
  dsimp only
  split
  · rename_i h
    obtain ⟨hp, v, hv, hreads, rfl⟩ := h
    obtain ⟨q, ht, hq⟩ := hreads.user hv hC
    obtain ⟨a, b, c, rfl⟩ := List.length_eq_three.mp hq
    unfold entriesOf
    dsimp only
    rw [ht]
    simp [hp, (index_lt v).2.2.2]
  · rename_i h
    unfold entriesOf
    dsimp only
    split
    · rename_i a b c ht
      rw [if_neg]
      rintro ⟨hi, hp⟩
      obtain ⟨a', b', c', ha, hb, hc, hlow, hq⟩ := exists_addressOf hl ht
      obtain ⟨rfl, rfl, rfl⟩ : a = a' ∧ b = b' ∧ c = c' := by simpa using hq
      obtain ⟨hv, h4, h3, h2, h1⟩ := addressOf_spec ha hb hc hi hlow
      refine h ⟨hp, _, hv, ?_, h1⟩
      exact reads_of_role hroot hC hl 3 t _ rfl ht (by rw [h4, h3, h2])
    · rfl

theorem userTable_iff (hroot : ∀ c, ρ c = some (.user []) → c ∈ C) (hC : ∀ c ∈ C, Tables ρ s c)
    (hl : AllLinked ρ s.mem) : UserTable s.mem C t ↔ ∃ q, ρ t = some (.user q) := by
  constructor
  · rintro ⟨v, level, hv, hreads⟩
    obtain ⟨q, ht, -⟩ := hreads.user hv hC
    exact ⟨q, ht⟩
  · rintro ⟨q, ht⟩
    obtain ⟨a, b, c, ha, hb, hc, hlow, hq⟩ := exists_addressOf hl ht
    obtain ⟨hv, h4, h3, h2, -⟩ := addressOf_spec ha hb hc (show 0 < 512 by decide) hlow
    exact ⟨_, _, hv, reads_of_role hroot hC hl _ t q rfl ht (by rw [h4, h3, h2]; exact hq)⟩

end

/-! ## References -/

def due (x : Option Nat) (f : Nat) : Int := if x = some f then 1 else 0

/-- The tables of the address spaces `C`, and the references of the frames behind their user leaf entries; a frame of the
kernel has the references `kernel` says, any other one for each entry and `held` elsewhere. -/
structure Refs (C : Set Nat) (kernel : Nat → Option Nat) (held : Nat → Nat) (ρ : Nat → Option TableRole)
    (owed : Nat → Int) (s : Vm) : Prop where
  roots : ∀ c, c ∈ C ↔ ρ c = some (.user [])
  tables : ∀ c ∈ C, Tables ρ s c
  linked : AllLinked ρ s.mem
  inside : ∀ t, ρ t ≠ none → t < s.pmm.totalPages
  pages : 0 < s.pmm.totalPages
  zero : kernel 0 ≠ none
  kernelTables : ∀ t n, ρ t = some (.kernel n) → kernel t ≠ none
  userTables : ∀ t q, ρ t = some (.user q) → kernel t = none
  data : ∀ e f, entriesOf ρ s.mem e = some f → ρ f = none ∧ (f < s.pmm.totalPages → kernel f = none)
  lent : ∀ f, 0 < held f → ρ f = none ∧ kernel f = none
  kept : ∀ f r, kernel f = some r → f < s.pmm.totalPages → s.pmm.bits f = true ∧ s.pmm.refCounts f = r
  counted : ∀ f < s.pmm.totalPages, ρ f = none → kernel f = none →
    ∃ n, Holders (entriesOf ρ s.mem) f n ∧ (s.pmm.refCounts f : Int) = n + held f + owed f
  used : ∀ f < s.pmm.totalPages, kernel f = none → (s.pmm.bits f = true ↔ 0 < s.pmm.refCounts f)

section
variable {C : Set Nat} {kernel : Nat → Option Nat} {held : Nat → Nat} {ρ ρ' : Nat → Option TableRole}
variable {owed owed' : Nat → Int} {s s' : Vm} {cr3 virt : Nat}

theorem Refs.congr (h : Refs C kernel held ρ owed s) (ho : ∀ f < s.pmm.totalPages, owed' f = owed f) :
    Refs C kernel held ρ owed' s := by
  refine { h with counted := fun f hf hρ hk => ?_ }
  rw [ho f hf]
  exact h.counted f hf hρ hk

variable {f : Nat}

theorem Refs.notTable (h : Refs C kernel held ρ owed s) (hc : cr3 ∈ C) (hf : f < s.pmm.totalPages)
    (hb : s.pmm.bits f = false) : ρ f = none ∧ kernel f = none := by
  constructor
  · by_contra hρ
    rw [(h.tables cr3 hc).used f hρ hf] at hb
    cases hb
  · by_contra hk
    obtain ⟨r, hr⟩ := Option.ne_none_iff_exists'.mp hk
    rw [(h.kept f r hr hf).1] at hb
    cases hb

theorem Refs.pos (h : Refs C kernel held ρ owed s) (hf : f < s.pmm.totalPages) (ho : 0 ≤ owed f)
    (hu : (∃ e, entriesOf ρ s.mem e = some f) ∨ 0 < held f) :
    ρ f = none ∧ kernel f = none ∧ 0 < s.pmm.refCounts f := by
  have hdata : ρ f = none ∧ kernel f = none := by
    rcases hu with ⟨e, he⟩ | h0
    · exact ⟨(h.data e f he).1, (h.data e f he).2 hf⟩
    · exact h.lent f h0
  obtain ⟨n, hn, hcount⟩ := h.counted f hf hdata.1 hdata.2
  refine ⟨hdata.1, hdata.2, ?_⟩
  rcases hu with ⟨e, he⟩ | h0
  · have := hn.pos he
    omega
  · omega

theorem Refs.pmm (h : Refs C kernel held ρ owed s) (hm : s'.mem = s.mem) (ht : s'.pmm.totalPages = s.pmm.totalPages)
    (hsame : ∀ g < s.pmm.totalPages, ρ g ≠ none ∨ kernel g ≠ none →
      s'.pmm.bits g = s.pmm.bits g ∧ s'.pmm.refCounts g = s.pmm.refCounts g)
    (hcount : ∀ g < s.pmm.totalPages, ρ g = none → kernel g = none →
      (s'.pmm.refCounts g : Int) = s.pmm.refCounts g + (owed' g - owed g))
    (hused : ∀ g < s.pmm.totalPages, ρ g = none → kernel g = none → (s'.pmm.bits g = true ↔ 0 < s'.pmm.refCounts g)) :
    Refs C kernel held ρ owed' s' := by
  have hzero : ∀ g, ρ g ≠ none ∨ g = 0 → ρ g ≠ none ∨ kernel g ≠ none := by
    rintro g (hg | rfl)
    · exact .inl hg
    · exact .inr h.zero
  refine ⟨h.roots, fun c hc => (h.tables c hc).ofPmm hm ht fun f hf hlt hb => ?_, ?_, ?_, ?_, h.zero, h.kernelTables,
    h.userTables, ?_, h.lent, fun f r hr hf => ?_, fun f hf hρ hk => ?_, fun f hf hk => ?_⟩
  · rw [(hsame f hlt (hzero f hf)).1, hb]
  · rw [hm]
    exact h.linked
  · rw [ht]
    exact h.inside
  · rw [ht]
    exact h.pages
  · rw [hm, ht]
    exact h.data
  · rw [ht] at hf
    obtain ⟨hb, hr'⟩ := hsame f hf (.inr (by rw [hr]; exact Option.some_ne_none r))
    rw [hb, hr']
    exact h.kept f r hr hf
  · rw [ht] at hf
    obtain ⟨n, hn, hc⟩ := h.counted f hf hρ hk
    refine ⟨n, by rw [hm]; exact hn, ?_⟩
    rw [hcount f hf hρ hk, hc]
    omega
  · rw [ht] at hf
    by_cases hρ : ρ f = none
    · exact hused f hf hρ hk
    · obtain ⟨hb, hr⟩ := hsame f hf (.inl hρ)
      rw [hb, hr]
      exact h.used f hf hk

theorem Refs.alloc (h : Refs C kernel held ρ owed s) (hc : cr3 ∈ C) {new : Nat → Prop} (hm : s'.mem = s.mem)
    (ht : Took s.pmm s'.pmm new) (hnew : ∀ f, new f → owed' f = owed f + 1) (hold : ∀ f, ¬ new f → owed' f = owed f) :
    Refs C kernel held ρ owed' s' := by
  have hfresh : ∀ g, new g → ρ g = none ∧ kernel g = none := fun g hg => by
    obtain ⟨hlt, hb, -⟩ := ht.fresh g hg
    exact h.notTable hc hlt hb
  refine h.pmm hm ht.total (fun g hg hk => ht.same g fun hn => ?_) (fun g hg hρ hk => ?_) fun g hg hρ hk => ?_
  · obtain ⟨h1, h2⟩ := hfresh g hn
    rcases hk with hk | hk
    · exact hk h1
    · exact hk h2
  · by_cases hn : new g
    · obtain ⟨hlt, hb, -, hr⟩ := ht.fresh g hn
      have hzero : ¬ 0 < s.pmm.refCounts g := fun h0 => by
        rw [(h.used g hlt hk).mpr h0] at hb
        cases hb
      rw [hr, hnew g hn]
      omega
    · rw [(ht.same g hn).2, hold g hn]
      omega
  · by_cases hn : new g
    · obtain ⟨-, -, hb, hr⟩ := ht.fresh g hn
      simp [hb, hr]
    · rw [(ht.same g hn).1, (ht.same g hn).2]
      exact h.used g hg hk

variable {pmm : Pmm}

theorem Refs.ref (h : Refs C kernel held ρ owed s) (hok : s.pmm.pmmRefPage (f * PAGE_SIZE) = .ok pmm)
    (hf : f < s.pmm.totalPages → ρ f = none ∧ kernel f = none ∧ 0 < s.pmm.refCounts f) :
    Refs C kernel held ρ (fun g => owed g + due (some f) g) { s with pmm := pmm } := by
  obtain ⟨hge, rfl⟩ | ⟨hlt, ht, hb, hcnt⟩ := pmmRefPage_ok hok
  · refine h.congr fun g hg => ?_
    have : f ≠ g := by omega
    simp [due, this]
  obtain ⟨hρf, hkf, hpos⟩ := hf hlt
  refine h.pmm rfl ht (fun g hg hk => ?_) (fun g hg _ _ => ?_) fun g hg hρ hk => ?_
  · have hne : g ≠ f := by
      rintro rfl
      rcases hk with hk | hk
      · exact hk hρf
      · exact hk hkf
    exact ⟨congrFun hb g, by rw [hcnt, update_of_ne hne]⟩
  · by_cases hgf : g = f
    · subst hgf
      rw [hcnt, update_self]
      simp [due]
    · have : f ≠ g := fun h => hgf h.symm
      rw [hcnt, update_of_ne hgf]
      simp [due, this]
  · by_cases hgf : g = f
    · subst hgf
      rw [hb, hcnt, update_self, h.used g hg hk]
      omega
    · rw [hb, hcnt, update_of_ne hgf]
      exact h.used g hg hk

theorem Refs.free (h : Refs C kernel held ρ owed s)
    (hok : s.pmm.pmmFreePage (f * PAGE_SIZE) = .ok pmm) (hf : f < s.pmm.totalPages → ρ f = none ∧ kernel f = none) :
    Refs C kernel held ρ (fun g => owed g - due (some f) g) { s with pmm := pmm } := by
  obtain ⟨hge, rfl⟩ | ⟨hlt, hpos, ht, hcnt, hbits⟩ := pmmFreePage_ok hok
  · refine h.congr fun g hg => ?_
    have : f ≠ g := by omega
    simp [due, this]
  obtain ⟨hρf, hkf⟩ := hf hlt
  have hother : ∀ g, g ≠ f → pmm.bits g = s.pmm.bits g ∧ pmm.refCounts g = s.pmm.refCounts g := fun g hg => by
    refine ⟨?_, by rw [hcnt, update_of_ne hg]⟩
    rcases hbits with ⟨-, hb⟩ | ⟨-, hb⟩
    · rw [hb]
    · rw [hb, update_of_ne hg]
  have hself : pmm.refCounts f = s.pmm.refCounts f - 1 := by rw [hcnt, update_self]
  refine h.pmm rfl ht (fun g hg hk => hother g ?_) (fun g hg _ _ => ?_) fun g hg hρ hk => ?_
  · rintro rfl
    rcases hk with hk | hk
    · exact hk hρf
    · exact hk hkf
  · by_cases hgf : g = f
    · subst hgf
      show ((pmm.refCounts g : Nat) : Int) = _
      rw [hself]
      simp [due]
      omega
    · have : f ≠ g := fun h => hgf h.symm
      show ((pmm.refCounts g : Nat) : Int) = _
      rw [(hother g hgf).2]
      simp [due, this]
  · show pmm.bits g = true ↔ 0 < pmm.refCounts g
    by_cases hgf : g = f
    · subst hgf
      rw [hself]
      have hused := h.used g hg hk
      rcases hbits with ⟨h1, hb⟩ | ⟨h1, hb⟩
      · rw [hb, hused]
        omega
      · rw [hb, update_self, h1]
        simp
    · rw [(hother g hgf).1, (hother g hgf).2]
      exact h.used g hg hk

/-! ## Entries -/

theorem Refs.ofMem (h : Refs C kernel held ρ owed s) (hp : s'.pmm = s.pmm) (hm : ∀ t, ρ t ≠ none → s'.mem t = s.mem t) :
    Refs C kernel held ρ owed s' := by
  have hentries : entriesOf ρ s'.mem = entriesOf ρ s.mem := by
    funext e
    by_cases h0 : ρ e.1 = none
    · unfold entriesOf
      rw [h0]
    · exact entriesOf_congr rfl (congrFun (hm e.1 h0) e.2)
  refine ⟨h.roots, fun c hc => ((h.tables c hc).ofMem hp hm).1, fun t q ht hq => ?_, ?_, ?_, h.zero, h.kernelTables,
    h.userTables, ?_, h.lent, ?_, ?_, ?_⟩
  · refine (h.linked t q ht hq).extend (fun _ _ hr => hr) fun u r i c hu _ _ => ?_
    exact congrFun (hm u (by rw [hu]; exact Option.some_ne_none r)) i
  · rw [hp]
    exact h.inside
  · rw [hp]
    exact h.pages
  · rw [hentries, hp]
    exact h.data
  · rw [hp]
    exact h.kept
  · rw [hentries, hp]
    exact h.counted
  · rw [hp]
    exact h.used

theorem Tables.entryAt (h : Tables ρ s cr3) (hv : userAddr virt) :
    ∃ e, entriesOf ρ s.mem e = (leafAt s.mem cr3 virt).map Leaf.frame := by
  obtain ⟨-, -, -, -, ⟨⟨e, he, -⟩, -, -⟩, -⟩ := h.unmap hv
  exact ⟨e, he⟩

variable {l : Leaf}

theorem Refs.leaf (h : Refs C kernel held ρ owed s) (hc : cr3 ∈ C) (hv : userAddr virt)
    (hl : leafAt s.mem cr3 virt = some l) : ∃ e, entriesOf ρ s.mem e = some l.frame := by
  obtain ⟨e, he⟩ := (h.tables cr3 hc).entryAt hv
  exact ⟨e, by rw [he, hl]; rfl⟩

theorem Refs.fill (h : Refs C kernel held ρ owed s) (hc : cr3 ∈ C) (hv : userAddr virt) {a : Access}
    (ha : translate s.mem cr3 virt = some a) (words : Nat → BitVec 64) :
    Refs C kernel held ρ owed { s with mem := Function.update s.mem a.frame words } := by
  obtain ⟨l, hl, hfr, -⟩ := translate_leaf ha
  obtain ⟨e, he⟩ := h.leaf hc hv hl
  rw [hfr] at he
  refine h.ofMem rfl fun t ht => update_of_ne ?_ ..
  rintro rfl
  exact ht (h.data e _ he).1

/-- **One entry changes**: the reference it was is owed, and the one it is was. -/
theorem Refs.change (h : Refs C kernel held ρ owed s) (hc : cr3 ∈ C) (htab : Tables ρ' s' cr3)
    (htook : Took s.pmm s'.pmm fun f => ρ f = none ∧ ρ' f ≠ none) (hold : ∀ f r, ρ f = some r → ρ' f = some r)
    {before after : Option Nat} (hent : EntryChange ρ ρ' s.mem s'.mem before after)
    (hdata : ∀ f, (∃ e, entriesOf ρ s.mem e = some f) ∨ 0 < held f ∨ after = some f → ρ' f = none)
    (hkern : ∀ f, after = some f → f < s.pmm.totalPages → kernel f = none) :
    Refs C kernel held ρ' (fun f => owed f + due before f - due after f) s' := by
  obtain ⟨⟨e0, he0, hupd⟩, hlinked, hfresh⟩ := hent
  have hnew : ∀ f, ρ f = none → ρ' f ≠ none → kernel f = none := fun f h0 h1 => by
    obtain ⟨hlt, hb, -⟩ := htook.fresh f ⟨h0, h1⟩
    exact (h.notTable hc hlt hb).2
  have hroots : ∀ c, c ∈ C ↔ ρ' c = some (.user []) := fun c => by
    rw [h.roots c]
    constructor
    · exact hold c _
    · intro hc'
      cases h0 : ρ c with
      | none =>
        obtain ⟨q, hq, hne⟩ := hfresh c _ hc' h0
        cases hq
        exact absurd rfl hne
      | some r => rw [← hold c r h0, hc']
  have hentries : ∀ e f, entriesOf ρ' s'.mem e = some f → after = some f ∨
      ∃ e', entriesOf ρ s.mem e' = some f := fun e f he => by
      rw [hupd] at he
      by_cases hee : e = e0
      · rw [hee, update_self] at he
        exact .inl he
      · rw [update_of_ne hee] at he
        exact .inr ⟨e, he⟩
  refine ⟨hroots, fun c hc' => { htab with root := (hroots c).mp hc' }, hlinked h.linked, fun t ht => ?_, ?_, h.zero,
    fun t n ht => ?_, fun t q ht => ?_, fun e f he => ⟨?_, fun hf => ?_⟩, fun f h0 => ⟨hdata f (.inr (.inl h0)), ?_⟩,
    fun f r hr hf => ?_, fun f hf hρ hk => ?_, fun f hf hk => ?_⟩
  · rw [htook.total]
    by_cases h0 : ρ t = none
    · exact (htook.fresh t ⟨h0, ht⟩).1
    · exact h.inside t h0
  · rw [htook.total]
    exact h.pages
  · cases h0 : ρ t with
    | none =>
      obtain ⟨q, hq, -⟩ := hfresh t _ ht h0
      cases hq
    | some r =>
      rw [hold t r h0] at ht
      cases ht
      exact h.kernelTables t n h0
  · cases h0 : ρ t with
    | none => exact hnew t h0 (by rw [ht]; exact Option.some_ne_none _)
    | some r =>
      rw [hold t r h0] at ht
      cases ht
      exact h.userTables t q h0
  · rcases hentries e f he with hf | he'
    · exact hdata f (.inr (.inr hf))
    · exact hdata f (.inl he')
  · rw [htook.total] at hf
    rcases hentries e f he with hf' | ⟨e', he'⟩
    · exact hkern f hf' hf
    · exact (h.data e' f he').2 hf
  · exact (h.lent f h0).2
  · rw [htook.total] at hf
    obtain ⟨hb, hcnt⟩ := htook.same f fun hn => by
      rw [hnew f hn.1 hn.2] at hr
      cases hr
    rw [hb, hcnt]
    exact h.kept f r hr hf
  · rw [htook.total] at hf
    have h0 : ρ f = none := by
      cases h0 : ρ f with
      | none => rfl
      | some r =>
        rw [hold f r h0] at hρ
        cases hρ
    obtain ⟨n, hn, hcount⟩ := h.counted f hf h0 hk
    obtain ⟨n', hn', hsum⟩ := hn.update e0 after
    rw [← hupd] at hn'
    refine ⟨n', hn', ?_⟩
    rw [(htook.same f fun hn => hn.2 hρ).2, hcount]
    rw [he0] at hsum
    have hb : due before f = ((if before = some f then 1 else 0 : Nat) : Int) := by
      unfold due
      split <;> rfl
    have ha : due after f = ((if after = some f then 1 else 0 : Nat) : Int) := by
      unfold due
      split <;> rfl
    rw [hb, ha]
    omega
  · rw [htook.total] at hf
    by_cases hn : ρ f = none ∧ ρ' f ≠ none
    · obtain ⟨-, -, hb, hr⟩ := htook.fresh f hn
      simp [hb, hr]
    · rw [(htook.same f hn).1, (htook.same f hn).2]
      exact h.used f hf hk

/-- **A page mapped**, where nothing is owed back: only its own entry changes, and it does where there is room for the
tables that are missing. -/
theorem Refs.map (h : Refs C kernel held ρ owed s) (hc : cr3 ∈ C) (hv : userAddr virt) (phys : BitVec 64)
    (flags : BitVec 32) (ho : ∀ f, 0 ≤ owed f)
    (hphys : frameOf phys < s.pmm.totalPages →
      ρ (frameOf phys) = none ∧ kernel (frameOf phys) = none ∧ 0 < s.pmm.refCounts (frameOf phys)) :
    ∃ ρ' s' ok, s.halMemMap cr3 phys virt flags = (s', ok) ∧
      Refs C kernel held ρ' (fun f => owed f + due ((leafAt s.mem cr3 virt).map Leaf.frame) f -
        due (if ok = true then some (frameOf phys) else (leafAt s.mem cr3 virt).map Leaf.frame) f) s' ∧
      s'.pmm.totalPages = s.pmm.totalPages ∧
      (∀ v < 2 ^ 48, v / PAGE_SIZE ≠ virt / PAGE_SIZE → leafAt s'.mem cr3 v = leafAt s.mem cr3 v) ∧
      (tablesMissing s.mem cr3 virt ≤ s.pmm.clearPages → ok = true) := by
  obtain ⟨ρ', s', ok, heq, htab, htook, hold, -, hleaf, hok, hent⟩ := (h.tables cr3 hc).map hv phys flags
  refine ⟨ρ', s', ok, heq, ?_, htook.total, fun v hv' hne => ?_, hok⟩
  swap
  · rw [hleaf v hv', if_neg fun hcon => hne hcon.2]
  have hmapped : ∀ f, (if ok = true then some (frameOf phys) else (leafAt s.mem cr3 virt).map Leaf.frame) = some f →
      f = frameOf phys ∨ ∃ e, entriesOf ρ s.mem e = some f := fun f hf => by
    split at hf
    · cases hf
      exact .inl rfl
    · obtain ⟨l, hl, rfl⟩ := Option.map_eq_some_iff.mp hf
      exact .inr (h.leaf hc hv hl)
  have hhave : ∀ f < s.pmm.totalPages, (∃ e, entriesOf ρ s.mem e = some f) ∨ 0 < held f ∨
      (if ok = true then some (frameOf phys) else (leafAt s.mem cr3 virt).map Leaf.frame) = some f →
      ρ f = none ∧ kernel f = none ∧ 0 < s.pmm.refCounts f := fun f hlt hf => by
    rcases hf with he | h0 | hf
    · exact h.pos hlt (ho f) (.inl he)
    · exact h.pos hlt (ho f) (.inr h0)
    · rcases hmapped f hf with rfl | he
      · exact hphys hlt
      · exact h.pos hlt (ho f) (.inl he)
  refine h.change hc htab htook hold hent (fun f hf => ?_) fun f hf hlt => (hhave f hlt (.inr (.inr hf))).2.1
  -- a frame with a reference is not free, so it becomes no table
  by_contra hne
  by_cases hlt : f < s.pmm.totalPages
  · obtain ⟨h0, hk, hpos⟩ := hhave f hlt hf
    obtain ⟨-, hb, -⟩ := htook.fresh f ⟨h0, hne⟩
    rw [(h.used f hlt hk).mpr hpos] at hb
    cases hb
  · by_cases h0 : ρ f = none
    · exact hlt (htook.fresh f ⟨h0, hne⟩).1
    · exact hlt (h.inside f h0)

theorem Refs.unmap (h : Refs C kernel held ρ owed s) (hc : cr3 ∈ C) (hv : userAddr virt) :
    Refs C kernel held ρ (fun f => owed f + due ((leafAt s.mem cr3 virt).map Leaf.frame) f) (s.vmmUnmapPage cr3 virt) ∧
      (s.vmmUnmapPage cr3 virt).pmm = s.pmm ∧ ∀ v < 2 ^ 48, leafAt (s.vmmUnmapPage cr3 virt).mem cr3 v =
        if v / PAGE_SIZE = virt / PAGE_SIZE then none else leafAt s.mem cr3 v := by
  obtain ⟨htab, hpmm, -, hleaf, hent, -⟩ := (h.tables cr3 hc).unmap hv
  refine ⟨?_, hpmm, hleaf⟩
  have htook : Took s.pmm (s.vmmUnmapPage cr3 virt).pmm fun f => ρ f = none ∧ ρ f ≠ none := by
    rw [hpmm]
    exact ⟨rfl, fun f hf => absurd hf.1 hf.2, fun f _ => ⟨rfl, rfl⟩⟩
  have hchange := h.change hc htab htook (fun _ _ hf => hf) hent (fun f hf => ?_) (fun f hf => by cases hf)
  · refine hchange.congr fun f _ => ?_
    simp [due]
  · rcases hf with ⟨e, he⟩ | h0 | hf
    · exact (h.data e f he).1
    · exact (h.lent f h0).1
    · cases hf

/-! ## Pages -/

def Settled (C : Set Nat) (kernel : Nat → Option Nat) (held : Nat → Nat) (s : Vm) : Prop :=
  ∃ ρ, Refs C kernel held ρ (fun _ => 0) s

structure OnlyPage (cr3 virt : Nat) (s s' : Vm) : Prop where
  total : s'.pmm.totalPages = s.pmm.totalPages
  other : ∀ v < 2 ^ 48, v / PAGE_SIZE ≠ virt / PAGE_SIZE → leafAt s'.mem cr3 v = leafAt s.mem cr3 v

theorem OnlyPage.trans {s1 : Vm} (h : OnlyPage cr3 virt s s1) (h' : OnlyPage cr3 virt s1 s') : OnlyPage cr3 virt s s' :=
  ⟨h'.total.trans h.total, fun v hv hne => (h'.other v hv hne).trans (h.other v hv hne)⟩

theorem Settled.fill (h : Settled C kernel held s) (hc : cr3 ∈ C) (hv : userAddr virt) {a : Access}
    (ha : translate s.mem cr3 virt = some a) (words : Nat → BitVec 64) :
    Settled C kernel held { s with mem := Function.update s.mem a.frame words } ∧
      ∀ v, leafAt (Function.update s.mem a.frame words) cr3 v = leafAt s.mem cr3 v := by
  obtain ⟨ρ, h⟩ := h
  refine ⟨⟨ρ, h.fill hc hv ha words⟩, fun v => ?_⟩
  obtain ⟨l, hl, hfr, -⟩ := translate_leaf ha
  obtain ⟨e, he⟩ := h.leaf hc hv hl
  have hnone := (h.data e _ he).1
  have hmem : ∀ t, ρ t ≠ none → Function.update s.mem a.frame words t = s.mem t := by
    intro t ht
    apply update_of_ne
    rintro rfl
    rw [hfr] at hnone
    exact ht hnone
  have hkeep : Tables ρ { s with mem := Function.update s.mem a.frame words } cr3 ∧
      ∀ v, leafAt (Function.update s.mem a.frame words) cr3 v = leafAt s.mem cr3 v := (h.tables cr3 hc).ofMem rfl hmem
  exact hkeep.2 v

theorem Settled.exhausted (h : Settled C kernel held s) (hc : cr3 ∈ C) (hm : s'.mem = s.mem)
    (ht : Took s.pmm s'.pmm fun _ => False) : Settled C kernel held s' := by
  obtain ⟨ρ, h⟩ := h
  exact ⟨ρ, h.alloc hc hm ht (fun _ hf => hf.elim) fun _ _ => rfl⟩

theorem Settled.drop (h : Settled C kernel held s) (hc : cr3 ∈ C) (hv : userAddr virt)
    (hl : leafAt s.mem cr3 virt = some l) (hok : s.pmm.pmmFreePage (l.frame * PAGE_SIZE) = .ok pmm) :
    Settled C kernel held (Vm.vmmUnmapPage { s with pmm := pmm } cr3 virt) ∧
      OnlyPage cr3 virt s (Vm.vmmUnmapPage { s with pmm := pmm } cr3 virt) ∧
      leafAt (Vm.vmmUnmapPage { s with pmm := pmm } cr3 virt).mem cr3 virt = none ∧
      tablesMissing (Vm.vmmUnmapPage { s with pmm := pmm } cr3 virt).mem cr3 virt = 0 := by
  obtain ⟨ρ, h⟩ := h
  obtain ⟨e, he⟩ := h.leaf hc hv hl
  have hdata := h.data e _ he
  have htotal : pmm.totalPages = s.pmm.totalPages := by
    obtain ⟨-, rfl⟩ | ⟨-, -, ht, -⟩ := pmmFreePage_ok hok
    · rfl
    · exact ht
  have hfree := h.free hok fun hlt => ⟨hdata.1, hdata.2 hlt⟩
  obtain ⟨hrefs, hpmm, hleaf⟩ := hfree.unmap hc hv
  obtain ⟨-, -, -, -, -, htables⟩ := (hfree.tables cr3 hc).unmap hv
  refine ⟨⟨ρ, hrefs.congr fun f _ => ?_⟩, ⟨?_, fun v hv' hne => ?_⟩, ?_, htables ?_⟩
  · dsimp only
    rw [hl]
    simp
  · rw [hpmm]
    exact htotal
  · rw [hleaf v hv', if_neg hne]
  · rw [hleaf virt hv.lt, if_pos rfl]
  · rw [hl]
    exact Option.some_ne_none l

/-- **A new page** where there was none, if there is room for its tables as well. -/
theorem Settled.fresh (h : Settled C kernel held s) (hc : cr3 ∈ C) (hv : userAddr virt) {s1 : Vm} {p : Nat}
    (hl : leafAt s.mem cr3 virt = none) (hm : s1.mem = s.mem) (ht : Took s.pmm s1.pmm fun f => f = p)
    (hroom : tablesMissing s.mem cr3 virt < s.pmm.clearPages) (flags : BitVec 32) :
    Settled C kernel held (s1.halMemMap cr3 (addrOf p) virt flags).1 ∧
      OnlyPage cr3 virt s (s1.halMemMap cr3 (addrOf p) virt flags).1 := by
  obtain ⟨ρ, h⟩ := h
  obtain ⟨hlt, hb, hbit, hcnt⟩ := ht.fresh p rfl
  have hclear := ht.clearPages
  have h₁ : Refs C kernel held ρ (due (some p)) s1 := by
    refine h.alloc hc hm ht (fun f hf => ?_) fun f hf => ?_
    · simp [due, hf]
    · have : p ≠ f := fun hpf => hf hpf.symm
      simp [due, this]
  have hfr : frameOf (addrOf p) = p := frameOf_addrOf (Nat.lt_of_lt_of_le hlt (h.tables cr3 hc).frames)
  have hnot := h.notTable hc hlt hb
  obtain ⟨ρ', s', ok, heq, hrefs, htotal, hother, hok⟩ := h₁.map hc hv (addrOf p) flags
    (fun f => by unfold due; split <;> decide) fun _ => by
      rw [hfr]
      exact ⟨hnot.1, hnot.2, by rw [hcnt]; decide⟩
  have hok := hok (by rw [hm]; omega)
  rw [heq]
  refine ⟨⟨ρ', hrefs.congr fun f _ => ?_⟩, htotal.trans ht.total, fun v hv' hne => ?_⟩
  · rw [hm, hl, if_pos hok, hfr]
    simp [due]
  · rw [hother v hv' hne, hm]

variable {phys : BitVec 64}

theorem Settled.share (h : Settled C kernel held s) (hc : cr3 ∈ C) (hv : userAddr virt)
    (hl : leafAt s.mem cr3 virt = none) (hok : s.pmm.pmmRefPage (f * PAGE_SIZE) = .ok pmm)
    (hphys : frameOf phys = f) (hheld : f < s.pmm.totalPages → 0 < held f)
    (hroom : tablesMissing s.mem cr3 virt ≤ s.pmm.clearPages) (flags : BitVec 32) :
    Settled C kernel held ((Vm.mk s.mem pmm).halMemMap cr3 phys virt flags).1 ∧
      OnlyPage cr3 virt s ((Vm.mk s.mem pmm).halMemMap cr3 phys virt flags).1 := by
  obtain ⟨ρ, h⟩ := h
  have hpos : f < s.pmm.totalPages → ρ f = none ∧ kernel f = none ∧ 0 < s.pmm.refCounts f := fun hlt =>
    h.pos hlt (Int.le_refl 0) (.inr (hheld hlt))
  have hsame : pmm.totalPages = s.pmm.totalPages ∧ pmm.bits = s.pmm.bits ∧ s.pmm.refCounts f ≤ pmm.refCounts f := by
    obtain ⟨-, rfl⟩ | ⟨-, ht, hb, hcnt⟩ := pmmRefPage_ok hok
    · exact ⟨rfl, rfl, Nat.le_refl _⟩
    · exact ⟨ht, hb, by rw [hcnt, update_self]; omega⟩
  have hclear : pmm.clearPages = s.pmm.clearPages := Pmm.clearPages_congr hsame.2.1 hsame.1
  obtain ⟨ρ', s', ok, heq, hrefs, htotal, hother, hmapped⟩ := (h.ref hok hpos).map hc hv phys flags
    (fun g => by unfold due; split <;> decide) fun hlt => by
      rw [hphys] at hlt ⊢
      obtain ⟨h1, h2, h3⟩ := hpos (hsame.1 ▸ hlt)
      exact ⟨h1, h2, Nat.lt_of_lt_of_le h3 hsame.2.2⟩
  have hmapped := hmapped (by rw [hclear]; exact hroom)
  rw [heq]
  refine ⟨⟨ρ', hrefs.congr fun g _ => ?_⟩, htotal.trans hsame.1, hother⟩
  rw [hl, if_pos hmapped, hphys]
  simp [due]

theorem Settled.borrow (h : Settled C kernel held s) (hc : cr3 ∈ C) (hv : userAddr virt)
    (hl : leafAt s.mem cr3 virt = none) (hout : s.pmm.totalPages ≤ frameOf phys) (flags : BitVec 32) :
    Settled C kernel held (s.halMemMap cr3 phys virt flags).1 ∧ OnlyPage cr3 virt s (s.halMemMap cr3 phys virt flags).1 := by
  obtain ⟨ρ, h⟩ := h
  obtain ⟨ρ', s', ok, heq, hrefs, htotal, hother, -⟩ := h.map hc hv phys flags (fun _ => Int.le_refl 0) fun hlt => by omega
  rw [heq]
  refine ⟨⟨ρ', hrefs.congr fun g hg => ?_⟩, htotal, hother⟩
  have hne : frameOf phys ≠ g := by omega
  rw [hl]
  cases ok <;> simp [due, hne]

theorem Settled.remap (h : Settled C kernel held s) (hc : cr3 ∈ C) (hv : userAddr virt)
    (hl : leafAt s.mem cr3 virt = some l) (hphys : frameOf phys = l.frame) (flags : BitVec 32) :
    Settled C kernel held (s.halMemMap cr3 phys virt flags).1 ∧ OnlyPage cr3 virt s (s.halMemMap cr3 phys virt flags).1 := by
  obtain ⟨ρ, h⟩ := h
  obtain ⟨ρ', s', ok, heq, hrefs, htotal, hother, -⟩ := h.map hc hv phys flags (fun _ => Int.le_refl 0) fun hlt => by
    rw [hphys] at hlt ⊢
    exact h.pos hlt (Int.le_refl 0) (.inl (h.leaf hc hv hl))
  rw [heq]
  refine ⟨⟨ρ', hrefs.congr fun g _ => ?_⟩, htotal, hother⟩
  rw [hl, hphys]
  simp

/-- **A page moved** to where there is none, if there is room for its tables. -/
theorem Settled.move (h : Settled C kernel held s) (hc : cr3 ∈ C) {old new : Nat} (hold : userAddr old)
    (hnew : userAddr new) (hl : leafAt s.mem cr3 old = some l)
    (hnone : leafAt s.mem cr3 new = none) (hphys : frameOf phys = l.frame)
    (hroom : tablesMissing s.mem cr3 new ≤ s.pmm.clearPages) (flags : BitVec 32) :
    Settled C kernel held ((s.halMemMap cr3 phys new flags).1.vmmUnmapPage cr3 old) ∧
      ((s.halMemMap cr3 phys new flags).1.vmmUnmapPage cr3 old).pmm.totalPages = s.pmm.totalPages ∧
      ∀ v < 2 ^ 48, v / PAGE_SIZE ≠ new / PAGE_SIZE → leafAt s.mem cr3 v = none →
        leafAt ((s.halMemMap cr3 phys new flags).1.vmmUnmapPage cr3 old).mem cr3 v = none := by
  obtain ⟨ρ, h⟩ := h
  obtain ⟨ρ', s', ok, heq, hrefs, htotal, hother, hok⟩ := h.map hc hnew phys flags (fun _ => Int.le_refl 0) fun hlt => by
    rw [hphys] at hlt ⊢
    exact h.pos hlt (Int.le_refl 0) (.inl (h.leaf hc hold hl))
  have hok := hok hroom
  rw [heq]
  have hne : old / PAGE_SIZE ≠ new / PAGE_SIZE := fun hpage => by
    rw [leafAt_page hpage, hnone] at hl
    cases hl
  have hl' : leafAt s'.mem cr3 old = some l := by rw [hother old hold.lt hne, hl]
  obtain ⟨hrefs', hpmm, hleaf⟩ := hrefs.unmap hc hold
  refine ⟨⟨ρ', hrefs'.congr fun g _ => ?_⟩, by rw [hpmm]; exact htotal, fun v hv hne' h0 => ?_⟩
  · rw [hl', hnone, if_pos hok, hphys]
    simp [due]
  · rw [hleaf v hv]
    split
    · rfl
    · rw [hother v hv hne', h0]

end

end EterOS.Mm
