import Mathlib.Data.Finset.Card
/-!
# Tally — how many of any number of parties are at a place

Exactly `n` things have a property, of a type that may be infinite: what a count of threads needs when the threads are
not counted themselves.
-/
namespace EterOS

variable {ι : Type*} {P Q : ι → Prop} {n : Nat} {i : ι}

def Tally (P : ι → Prop) (n : Nat) : Prop := ∃ S : Finset ι, (∀ i, i ∈ S ↔ P i) ∧ S.card = n

namespace Tally

theorem none (h : ∀ i, ¬ P i) : Tally P 0 := ⟨∅, fun i => iff_of_false (Finset.notMem_empty i) (h i), Finset.card_empty⟩

theorem congr (h : Tally P n) (hPQ : ∀ i, Q i ↔ P i) : Tally Q n := by
  obtain ⟨S, hS, rfl⟩ := h
  exact ⟨S, fun i => (hS i).trans (hPQ i).symm, rfl⟩

theorem pos (h : Tally P n) (hi : P i) : 0 < n := by
  obtain ⟨S, hS, rfl⟩ := h
  exact Finset.card_pos.2 ⟨i, (hS i).2 hi⟩

variable [DecidableEq ι]

theorem enter (h : Tally P n) (hi : ¬ P i) (hQ : ∀ j, Q j ↔ j = i ∨ P j) : Tally Q (n + 1) := by
  obtain ⟨S, hS, rfl⟩ := h
  refine ⟨insert i S, fun j => ?_, ?_⟩
  · rw [Finset.mem_insert, hS, hQ]
  · apply Finset.card_insert_of_notMem
    rwa [hS]

theorem leave (h : Tally P (n + 1)) (hi : P i) (hQ : ∀ j, Q j ↔ j ≠ i ∧ P j) : Tally Q n := by
  obtain ⟨S, hS, hcard⟩ := h
  refine ⟨S.erase i, fun j => ?_, ?_⟩
  · rw [Finset.mem_erase, hS, hQ]
  · rw [Finset.card_erase_of_mem ((hS i).2 hi), hcard, Nat.add_sub_cancel]

end Tally
end EterOS
