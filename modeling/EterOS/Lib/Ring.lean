import Mathlib.Logic.Function.Basic
import Mathlib.Data.List.Basic
import Mathlib.Data.Nat.ModEq
/-!
# Ring — a queue in an array that wraps around

`contents` lists what is in the ring, oldest first: `count` cells from `head` on, round the end of the array.
-/
namespace EterOS.Ring

variable {α : Type*} {cell : Nat → α} {size head count : Nat}

def contents (cell : Nat → α) (size head count : Nat) : List α :=
  (List.range count).map fun i => cell ((head + i) % size)

@[simp] theorem contents_zero : contents cell size head 0 = [] := rfl

theorem index_ne {i : Nat} (hi : i < count) (hc : count < size) : (head + i) % size ≠ (head + count) % size := by
  intro h
  have hmod := Nat.ModEq.add_left_cancel' head h
  rw [Nat.ModEq, Nat.mod_eq_of_lt (by omega), Nat.mod_eq_of_lt hc] at hmod
  omega

theorem contents_push (a : α) (h : count < size) :
    contents (Function.update cell ((head + count) % size) a) size head (count + 1) =
      contents cell size head count ++ [a] := by
  rw [contents, List.range_succ, List.map_append, List.map_singleton, Function.update_self]
  congr 1
  apply List.map_congr_left
  intro i hi
  exact Function.update_of_ne (index_ne (List.mem_range.1 hi) h) _ _

theorem contents_pop (h : 0 < count) :
    contents cell size head count = cell (head % size) :: contents cell size ((head + 1) % size) (count - 1) := by
  obtain ⟨n, rfl⟩ : ∃ n, count = n + 1 := ⟨count - 1, by omega⟩
  rw [contents, List.range_succ_eq_map, List.map_cons, List.map_map, Nat.add_zero, Nat.add_sub_cancel]
  congr 1
  apply List.map_congr_left
  intro i _
  simp only [Function.comp_apply, Nat.succ_eq_add_one, Nat.mod_add_mod]
  congr 2
  omega

end EterOS.Ring
