import Mathlib.Algebra.Order.BigOperators.Group.Finset
import Mathlib.Data.Finset.Card
import Mathlib.Data.Set.Card
/-!
# Uses — how many places hold a thing

A row of places is a finite set of indices and what is at each, if anything.  `uses` counts the places that hold a
value; a count over several rows is a sum of these, and changing one row changes one summand.
-/
namespace EterOS

open Finset
open Function (update update_self update_of_ne)

variable {ι κ ν : Type*} [DecidableEq ν]

def uses (S : Finset ι) (L : ι → Option ν) (v : ν) : Nat := (S.filter fun i => L i = some v).card

variable {S : Finset ι} {L L' : ι → Option ν} {i : ι} {v : ν}

theorem uses_congr (h : ∀ i ∈ S, L i = L' i) (v : ν) : uses S L v = uses S L' v := by
  unfold uses
  apply congrArg Finset.card
  apply filter_congr
  intro i hi
  rw [h i hi]

theorem uses_eq_zero : uses S L v = 0 ↔ ∀ i ∈ S, L i ≠ some v := by
  unfold uses
  rw [card_eq_zero, filter_eq_empty_iff]

theorem uses_pos : 0 < uses S L v ↔ ∃ i ∈ S, L i = some v := by
  unfold uses
  rw [card_pos]
  simp [Finset.Nonempty]

theorem uses_le (S : Finset ι) (L : ι → Option ν) (v : ν) : uses S L v ≤ S.card := card_filter_le _ _

theorem uses_of_none (h : ∀ i ∈ S, L i = none) (v : ν) : uses S L v = 0 :=
  uses_eq_zero.mpr fun i hi hv => by simp [h i hi] at hv

section
variable [DecidableEq ι]

theorem uses_clear (hi : i ∈ S) (v : ν) : uses S (update L i none) v + (if L i = some v then 1 else 0) = uses S L v := by
  have herase : (S.filter fun j => update L i none j = some v) = (S.filter fun j => L j = some v).erase i := by
    ext j
    rw [mem_filter, mem_erase, mem_filter]
    by_cases hj : j = i
    · subst hj
      simp
    · simp [hj]
  unfold uses
  rw [herase]
  by_cases hv : L i = some v
  · rw [if_pos hv]
    exact card_erase_add_one (mem_filter.mpr ⟨hi, hv⟩)
  · rw [if_neg hv, Nat.add_zero]
    apply congrArg Finset.card
    apply erase_eq_of_notMem
    exact fun hmem => hv (mem_filter.mp hmem).2

theorem uses_fill (hi : i ∈ S) (hL : L i = none) (w v : ν) : uses S (update L i (some w)) v = uses S L v + if w = v then 1
    else 0 := by
  have h := uses_clear (L := update L i (some w)) hi v
  rw [Function.update_idem, update_self, ← hL, Function.update_eq_self] at h
  simpa using h.symm

theorem uses_insert (hi : i ∉ S) (v : ν) : uses (insert i S) L v = uses S L v + if L i = some v then 1 else 0 := by
  unfold uses
  rw [filter_insert]
  split
  · apply card_insert_of_notMem
    exact fun hmem => hi (mem_filter.mp hmem).1
  · rfl

end

/-! ## Several rows -/

theorem sum_off [DecidableEq κ] {K : Finset κ} {f g : κ → Nat} {k : κ} (hk : k ∈ K) (h : ∀ j ∈ K, j ≠ k → f j = g j) :
    ∑ j ∈ K, f j + g k = ∑ j ∈ K, g j + f k := by
  rw [← add_sum_erase K f hk, ← add_sum_erase K g hk]
  have hsum : ∑ j ∈ K.erase k, f j = ∑ j ∈ K.erase k, g j := by
    apply sum_congr rfl
    intro j hj
    exact h j (mem_of_mem_erase hj) (ne_of_mem_erase hj)
  omega

/-- What the places `S` of the rows `K` hold. -/
def usesIn (K : Finset κ) (S : Finset ι) (rows : κ → ι → Option ν) (v : ν) : Nat := ∑ k ∈ K, uses S (rows k) v

variable {K : Finset κ} {rows rows' : κ → ι → Option ν} {k : κ}

theorem usesIn_congr (h : ∀ k ∈ K, ∀ i ∈ S, rows k i = rows' k i) (v : ν) : usesIn K S rows v = usesIn K S rows' v :=
  sum_congr rfl fun k hk => uses_congr (h k hk) v

theorem usesIn_off [DecidableEq κ] (hk : k ∈ K) (h : ∀ j ∈ K, j ≠ k → ∀ i ∈ S, rows j i = rows' j i) (v : ν) :
    usesIn K S rows v + uses S (rows' k) v = usesIn K S rows' v + uses S (rows k) v :=
  sum_off hk fun j hj hjk => uses_congr (h j hj hjk) v

theorem usesIn_eq_zero : usesIn K S rows v = 0 ↔ ∀ k ∈ K, ∀ i ∈ S, rows k i ≠ some v := by
  unfold usesIn
  rw [sum_eq_zero_iff]
  simp [uses_eq_zero]

theorem usesIn_pos : 0 < usesIn K S rows v ↔ ∃ k ∈ K, ∃ i ∈ S, rows k i = some v := by
  rw [Nat.pos_iff_ne_zero, Ne, usesIn_eq_zero]
  push Not
  rfl

theorem usesIn_le (K : Finset κ) (S : Finset ι) (rows : κ → ι → Option ν) (v : ν) : usesIn K S rows v ≤ K.card * S.card := by
  unfold usesIn
  calc ∑ k ∈ K, uses S (rows k) v ≤ ∑ _k ∈ K, S.card := sum_le_sum fun k _ => uses_le S (rows k) v
    _ = K.card * S.card := sum_const _

/-! ## All places -/

section
variable {ι ν : Type*} {L : ι → Option ν} {i : ι} {v w : ν} {c : Nat}

def holders (L : ι → Option ν) (v : ν) : Set ι := {i | L i = some v}

def Holders (L : ι → Option ν) (v : ν) (c : Nat) : Prop := (holders L v).encard = c

theorem Holders.unique {c' : Nat} (h : Holders L v c) (h' : Holders L v c') : c = c' := by
  unfold Holders at h h'
  rw [h] at h'
  exact Nat.cast_injective h'

theorem holders_zero : Holders L v 0 ↔ ∀ i, L i ≠ some v := by
  unfold Holders holders
  rw [Nat.cast_zero, Set.encard_eq_zero, Set.eq_empty_iff_forall_notMem]
  rfl

theorem Holders.pos (h : Holders L v c) (hi : L i = some v) : 0 < c := by
  rcases Nat.eq_zero_or_pos c with rfl | hc
  · exact absurd hi (holders_zero.mp h i)
  · exact hc

variable [DecidableEq ι]

theorem Holders.fill (h : Holders L v c) (hi : L i = none) : Holders (update L i (some v)) v (c + 1) := by
  have hset : holders (update L i (some v)) v = insert i (holders L v) := by
    ext j
    unfold holders
    by_cases hj : j = i
    · subst hj
      simp
    · simp [hj]
  have hnot : i ∉ holders L v := by
    intro hmem
    exact nomatch hi.symm.trans hmem
  unfold Holders at h ⊢
  rw [hset, Set.encard_insert_of_notMem hnot, h]
  rfl

theorem Holders.fill_other (h : Holders L v c) (hi : L i = none) (hne : w ≠ v) : Holders (update L i (some w)) v c := by
  have hset : holders (update L i (some w)) v = holders L v := by
    ext j
    unfold holders
    by_cases hj : j = i
    · subst hj
      simp [hi, hne]
    · simp [hj]
  unfold Holders at h ⊢
  rw [hset]
  exact h

theorem Holders.clear (h : Holders L v (c + 1)) (hi : L i = some v) : Holders (update L i none) v c := by
  have hset : holders L v = insert i (holders (update L i none) v) := by
    ext j
    unfold holders
    by_cases hj : j = i
    · subst hj
      simp [hi]
    · simp [hj]
  have hnot : i ∉ holders (update L i none) v := by
    unfold holders
    simp
  unfold Holders at h ⊢
  rw [hset, Set.encard_insert_of_notMem hnot] at h
  exact ENat.add_left_injective_of_ne_top ENat.one_ne_top h

theorem Holders.clear_other (h : Holders L v c) (hi : L i = some w) (hne : w ≠ v) : Holders (update L i none) v c := by
  have hset : holders (update L i none) v = holders L v := by
    ext j
    unfold holders
    by_cases hj : j = i
    · subst hj
      simp [hi, hne]
    · simp [hj]
  unfold Holders at h ⊢
  rw [hset]
  exact h

theorem Holders.update (h : Holders L v c) (i : ι) (x : Option ν) [DecidableEq ν] :
    ∃ c', Holders (Function.update L i x) v c' ∧
      c' + (if L i = some v then 1 else 0) = c + if x = some v then 1 else 0 := by
  obtain ⟨c0, h0, hc⟩ : ∃ c0, Holders (Function.update L i none) v c0 ∧ c0 + (if L i = some v then 1 else 0) = c := by
    cases hi : L i with
    | none => exact ⟨c, by rwa [← hi, Function.update_eq_self], by simp⟩
    | some w =>
      by_cases hw : w = v
      · subst hw
        obtain ⟨d, rfl⟩ : ∃ d, c = d + 1 := ⟨c - 1, by have := h.pos hi; omega⟩
        exact ⟨d, h.clear hi, by simp⟩
      · exact ⟨c, h.clear_other hi hw, by simp [hw]⟩
  have hself : Function.update L i none i = none := Function.update_self ..
  cases x with
  | none => exact ⟨c0, h0, by simpa using hc⟩
  | some w =>
    by_cases hw : w = v
    · subst hw
      refine ⟨c0 + 1, ?_, by simp; omega⟩
      simpa using h0.fill hself
    · refine ⟨c0, ?_, by simp [hw]; omega⟩
      simpa using h0.fill_other hself hw

end

end EterOS
