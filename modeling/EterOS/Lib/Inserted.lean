import Mathlib.Data.List.Perm.Basic
/-!
# Inserted — lists that differ by one element in one place

`Inserted a l l'` says that `l'` is `l` with `a` put in somewhere, the order of the rest unchanged.  It passes through
`++` and `flatMap`, so a change in one place of a nested structure is a change in one place of its contents; it counts
as one more element, and a search that `a` does not answer gives what it gave before.
-/
namespace EterOS

open List

variable {ι α : Type*} {a b : α} {l l' m : List α}

def Inserted (a : α) (l l' : List α) : Prop := ∃ l1 l2, l = l1 ++ l2 ∧ l' = l1 ++ a :: l2

namespace Inserted

theorem nil : Inserted a [] [a] := ⟨[], [], rfl, rfl⟩

theorem append_left (h : Inserted a l l') (m : List α) : Inserted a (m ++ l) (m ++ l') := by
  obtain ⟨l1, l2, rfl, rfl⟩ := h
  exact ⟨m ++ l1, l2, (append_assoc ..).symm, (append_assoc ..).symm⟩

theorem append_right (h : Inserted a l l') (m : List α) : Inserted a (l ++ m) (l' ++ m) := by
  obtain ⟨l1, l2, rfl, rfl⟩ := h
  exact ⟨l1, l2 ++ m, append_assoc .., by simp⟩

theorem flatMap {f g : ι → List α} {i : ι} : ∀ {l : List ι}, l.Nodup → i ∈ l → Inserted a (f i) (g i) →
    (∀ j ∈ l, j ≠ i → g j = f j) →
      Inserted a (l.flatMap f) (l.flatMap g)
  | [], _, hi, _, _ => absurd hi not_mem_nil
  | c :: l, hnd, hi, hg, hne => by
    rw [flatMap_cons, flatMap_cons]
    obtain ⟨hc, hnd⟩ := nodup_cons.1 hnd
    by_cases hci : c = i
    · subst hci
      have htail : l.flatMap g = l.flatMap f := flatMap_congr fun j hj =>
        hne j (mem_cons_of_mem _ hj) fun h => hc (h ▸ hj)
      rw [htail]
      exact hg.append_right _
    · have hil : i ∈ l := (mem_cons.1 hi).resolve_left fun h => hci h.symm
      rw [hne c mem_cons_self hci]
      exact (flatMap hnd hil hg fun j hj => hne j (mem_cons_of_mem _ hj)).append_left _

theorem perm (h : Inserted a l l') : l'.Perm (a :: l) := by
  obtain ⟨l1, l2, rfl, rfl⟩ := h
  exact perm_middle

theorem mem_iff (h : Inserted a l l') : b ∈ l' ↔ b = a ∨ b ∈ l := by
  rw [h.perm.mem_iff, mem_cons]

theorem countP (h : Inserted a l l') (p : α → Bool) : l'.countP p = l.countP p + if p a then 1 else 0 := by
  rw [h.perm.countP_eq, countP_cons]

theorem find?_eq (h : Inserted a l l') {p : α → Bool} (ha : p a = false) : l'.find? p = l.find? p := by
  obtain ⟨l1, l2, rfl, rfl⟩ := h
  rw [List.find?_append, List.find?_append, List.find?_cons_of_neg (by rw [ha]; decide)]

end Inserted

theorem flatMap_filter (p : ι → Bool) (f : ι → List α) (l : List ι) :
    (l.filter p).flatMap f = l.flatMap fun a => if p a then f a else [] := by
  induction l with
  | nil => rfl
  | cons a l ih =>
    rw [filter_cons, flatMap_cons, ← ih]
    cases p a <;> rfl

end EterOS
