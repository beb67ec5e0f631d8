import Mathlib.Data.List.Basic
import Mathlib.Data.List.TakeWhile
/-!
# Scan — a list of places that ends at a mark

A search goes over the places in order and stops at an end mark or at the first one that is hit.  `HitAt` is where it stops:
places are told apart by their number, so that two states of one list of places can be compared.
-/
namespace EterOS.Scan

variable {α : Type*} {p q : α → Bool} {l : List α} {a : α} {k : Nat}

/-- Place `k` is the first with `q`, and it and all places before it go on (`p`). -/
structure HitAt (p q : α → Bool) (l : List α) (k : Nat) (a : α) : Prop where
  place : l[k]? = some a
  hit : q a = true
  on : p a = true
  before : ∀ j < k, ∀ b, l[j]? = some b → p b = true ∧ q b = false

theorem find_takeWhile_eq_some : (l.takeWhile p).find? q = some a ↔ ∃ k, HitAt p q l k a := by
  induction l with
  | nil =>
    constructor
    · intro h
      cases h
    · rintro ⟨k, h⟩
      have hplace := h.place
      rw [List.getElem?_nil] at hplace
      cases hplace
  | cons b l ih =>
    have hstep : (∃ k, HitAt p q (b :: l) k a) ↔
        (q b = true ∧ p b = true ∧ b = a) ∨ (p b = true ∧ q b = false ∧ ∃ k, HitAt p q l k a) := by
      constructor
      · rintro ⟨k, hplace, hhit, hon, hbefore⟩
        cases k with
        | zero =>
          rw [List.getElem?_cons_zero, Option.some.injEq] at hplace
          subst hplace
          exact .inl ⟨hhit, hon, rfl⟩
        | succ k =>
          obtain ⟨hpb, hqb⟩ := hbefore 0 (Nat.succ_pos k) b rfl
          rw [List.getElem?_cons_succ] at hplace
          exact .inr ⟨hpb, hqb, k, hplace, hhit, hon,
            fun j hj c hc => hbefore (j + 1) (by omega) c (by rw [List.getElem?_cons_succ]; exact hc)⟩
      · rintro (⟨hhit, hon, rfl⟩ | ⟨hpb, hqb, k, hplace, hhit, hon, hbefore⟩)
        · exact ⟨0, rfl, hhit, hon, fun j hj => absurd hj (Nat.not_lt_zero j)⟩
        · refine ⟨k + 1, hplace, hhit, hon, fun j hj c hc => ?_⟩
          cases j with
          | zero =>
            rw [List.getElem?_cons_zero, Option.some.injEq] at hc
            exact hc ▸ ⟨hpb, hqb⟩
          | succ j => exact hbefore j (by omega) c (by rw [List.getElem?_cons_succ] at hc; exact hc)
    rw [hstep, ← ih]
    cases hp : p b with
    | false => simp [hp]
    | true =>
      rw [List.takeWhile_cons_of_pos hp]
      cases hq : q b with
      | true => simp [hq]
      | false => simp [hq]

theorem find_takeWhile_eq_none : (l.takeWhile p).find? q = none ↔
    ∀ (k : Nat) (a : α), l[k]? = some a → q a = true → ∃ j ≤ k, ∃ b, l[j]? = some b ∧ p b = false := by
  induction l with
  | nil => simp
  | cons b l ih =>
    cases hp : p b with
    | false =>
      rw [List.takeWhile_cons_of_neg (by rw [hp]; decide)]
      exact ⟨fun _ k a _ _ => ⟨0, Nat.zero_le k, b, rfl, hp⟩, fun _ => rfl⟩
    | true =>
      rw [List.takeWhile_cons_of_pos hp]
      cases hq : q b with
      | true =>
        rw [List.find?_cons_of_pos hq]
        constructor
        · intro h
          cases h
        · intro h
          obtain ⟨j, hj, c, hc, hpc⟩ := h 0 b rfl hq
          obtain rfl : j = 0 := Nat.le_zero.1 hj
          rw [List.getElem?_cons_zero, Option.some.injEq] at hc
          rw [← hc, hp] at hpc
          cases hpc
      | false =>
        rw [List.find?_cons_of_neg (by rw [hq]; decide), ih]
        constructor
        · intro h k a hk ha
          cases k with
          | zero =>
            rw [List.getElem?_cons_zero, Option.some.injEq] at hk
            rw [← hk, hq] at ha
            cases ha
          | succ k =>
            obtain ⟨j, hj, c, hc, hpc⟩ := h k a (by rw [List.getElem?_cons_succ] at hk; exact hk) ha
            exact ⟨j + 1, by omega, c, by rw [List.getElem?_cons_succ]; exact hc, hpc⟩
        · intro h k a hk ha
          obtain ⟨j, hj, c, hc, hpc⟩ := h (k + 1) a (by rw [List.getElem?_cons_succ]; exact hk) ha
          cases j with
          | zero =>
            rw [List.getElem?_cons_zero, Option.some.injEq] at hc
            rw [← hc, hp] at hpc
            cases hpc
          | succ j => exact ⟨j, by omega, c, by rw [List.getElem?_cons_succ] at hc; exact hc, hpc⟩

theorem find_eq_some : l.find? q = some a ↔ ∃ k, HitAt (fun _ => true) q l k a := by
  rw [← find_takeWhile_eq_some, List.takeWhile_eq_self_iff.2 fun _ _ => rfl]

end EterOS.Scan
