import Mathlib.Logic.Basic
/-!
# Turns — a counted loop that may break

`for (i = 0; i < n; i++)` with a body that goes on or breaks.  Where it is known beforehand which turns break, the loop ends
behind the first of them, or behind the last turn.
-/
namespace EterOS

variable {σ : Type*}

/-- The next `n` turns, from turn `i` on; a turn says whether it goes on. -/
def turns (turn : Nat → σ → σ × Bool) : Nat → Nat → σ → σ
  | 0, _, s => s
  | n + 1, i, s => if (turn i s).2 then turns turn n (i + 1) (turn i s).1 else (turn i s).1

/-- **The rule of the loop**: `P i` is kept up to turn `i`, and `Q i` is what breaking in turn `i` leaves. -/
theorem turns_spec {turn : Nat → σ → σ × Bool} {stops : Nat → Bool} {total : Nat} {P Q : Nat → σ → Prop}
    (hgo : ∀ i s, i < total → P i s → stops i = false → (turn i s).2 = true ∧ P (i + 1) (turn i s).1)
    (hstop : ∀ i s, i < total → P i s → stops i = true → (turn i s).2 = false ∧ Q i (turn i s).1) :
    ∀ (n i : Nat) (s : σ), i + n = total → (∀ j < i, stops j = false) → P i s →
      ((∀ j < total, stops j = false) ∧ P total (turns turn n i s)) ∨
        ∃ k < total, (∀ j < k, stops j = false) ∧ stops k = true ∧ Q k (turns turn n i s)
  | 0, i, s, hn, hbefore, hP => by
    obtain rfl : i = total := hn
    exact Or.inl ⟨hbefore, hP⟩
  | n + 1, i, s, hn, hbefore, hP => by
    rw [turns]
    cases hi : stops i with
    | true =>
      obtain ⟨hmore, hQ⟩ := hstop i s (by omega) hP hi
      rw [hmore, if_neg Bool.false_ne_true]
      exact Or.inr ⟨i, by omega, hbefore, hi, hQ⟩
    | false =>
      obtain ⟨hmore, hP'⟩ := hgo i s (by omega) hP hi
      rw [hmore, if_pos rfl]
      refine turns_spec hgo hstop n (i + 1) _ (by omega) (fun j hj => ?_) hP'
      rcases Nat.lt_succ_iff_lt_or_eq.1 hj with hj | rfl
      · exact hbefore j hj
      · exact hi

end EterOS
