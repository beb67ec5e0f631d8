import Mathlib.Data.List.Basic
/-!
# Overwrite — a list written at a position

`overwrite l p xs` is `l` with `xs` from position `p` on, grown where it is too short: a file after a write, or an array
after a copy into it.
-/
namespace EterOS

open List

variable {α : Type*} [Inhabited α] {l xs ys : List α} {p : Nat}

/-- `xs` in place of what stands at `p`; a gap before it is filled. -/
def overwrite (l : List α) (p : Nat) (xs : List α) : List α :=
  if xs = [] then l else (l ++ List.replicate (p - l.length) default).take p ++ (xs ++ l.drop (p + xs.length))

theorem overwrite_nil : overwrite l p [] = l := if_pos rfl

theorem overwrite_of_ne (h : xs ≠ []) :
    overwrite l p xs = (l ++ List.replicate (p - l.length) default).take p ++ (xs ++ l.drop (p + xs.length)) := if_neg h

theorem length_pad : ((l ++ List.replicate (p - l.length) default).take p).length = p := by
  rw [length_take, length_append, length_replicate]
  omega

theorem overwrite_of_le (h : p ≤ l.length) : overwrite l p xs = l.take p ++ (xs ++ l.drop (p + xs.length)) := by
  by_cases hxs : xs = []
  · rw [hxs, overwrite_nil, nil_append, length_nil, Nat.add_zero, take_append_drop]
  · rw [overwrite_of_ne hxs, Nat.sub_eq_zero_of_le h, replicate_zero, append_nil]

theorem overwrite_append : overwrite (overwrite l p xs) (p + xs.length) ys = overwrite l p (xs ++ ys) := by
  by_cases hxs : xs = []
  · rw [hxs, overwrite_nil, nil_append, length_nil, Nat.add_zero]
  by_cases hys : ys = []
  · rw [hys, overwrite_nil, append_nil]
  have hne : xs ++ ys ≠ [] := by simp [hxs]
  have hlen : p + xs.length ≤ (overwrite l p xs).length := by
    rw [overwrite_of_ne hxs, length_append, length_pad, length_append]
    omega
  rw [overwrite_of_le hlen, overwrite_of_ne hxs, overwrite_of_ne hne]
  generalize hA : (l ++ List.replicate (p - l.length) default).take p = A
  have hAlen : A.length = p := by rw [← hA, length_pad]
  have htake : (A ++ (xs ++ l.drop (p + xs.length))).take (p + xs.length) = A ++ xs := by
    rw [← append_assoc, take_left' (by rw [length_append, hAlen])]
  have hdrop : (A ++ (xs ++ l.drop (p + xs.length))).drop (p + xs.length + ys.length) = l.drop (p + (xs ++ ys).length) := by
    rw [← append_assoc, drop_append, drop_eq_nil_of_le (by rw [length_append, hAlen]; omega),
      nil_append, drop_drop, length_append, length_append, hAlen]
    congr 1
    omega
  rw [htake, hdrop]
  simp

theorem length_overwrite (h : p + xs.length ≤ l.length) : (overwrite l p xs).length = l.length := by
  rw [overwrite_of_le (by omega), length_append, length_append, length_take, length_drop]
  omega

theorem length_overwrite_le : (overwrite l p xs).length ≤ max l.length (p + xs.length) := by
  by_cases hxs : xs = []
  · rw [hxs, overwrite_nil]
    exact Nat.le_max_left ..
  · rw [overwrite_of_ne hxs, length_append, length_pad, length_append, length_drop]
    omega

theorem take_overwrite (h : p ≤ l.length) : (overwrite l p xs).take (p + xs.length) = l.take p ++ xs := by
  rw [overwrite_of_le h, ← append_assoc, take_left' (by rw [length_append, length_take]; omega)]

end EterOS
