import EterOS.Lib.Bytes
import Mathlib.Data.List.Basic
/-!
# Stores — buffers that are filled byte by byte

`set` is a store of one byte; `sets` are stores whose values depend on their positions only, in any order, as loops make
them.
-/
namespace EterOS.Buffer

open List

variable {b : Buffer} {p q n off : Nat} {v : UInt8}

def set (b : Buffer) (p : Nat) (v : UInt8) : Buffer := fun q => if q = p then v else b q

theorem set_self : b.set p v p = v := if_pos rfl

theorem set_of_ne (h : q ≠ p) : b.set p v q = b q := if_neg h

/-- Stores of `v p` at the positions `ps`, one after the other. -/
def sets (v : Nat → UInt8) (ps : List Nat) (b : Buffer) : Buffer := ps.foldl (fun b p => b.set p (v p)) b

theorem sets_apply (v : Nat → UInt8) : ∀ (ps : List Nat) (b : Buffer) (q : Nat), sets v ps b q = if q ∈ ps then v q else b q
  | [], b, q => rfl
  | p :: ps, b, q => by
    rw [sets, foldl_cons, ← sets, sets_apply v ps]
    by_cases hmem : q ∈ ps
    · rw [if_pos hmem, if_pos (mem_cons_of_mem p hmem)]
    · rw [if_neg hmem]
      by_cases hp : q = p
      · rw [hp, set_self, if_pos (mem_cons_self ..)]
      · rw [set_of_ne hp, if_neg (by simp [hp, hmem])]

def list (b : Buffer) (off n : Nat) : List UInt8 := (List.range n).map fun i => b (off + i)

theorem length_list : (b.list off n).length = n := by
  rw [list, length_map, length_range]

theorem list_congr {c : Buffer} {off' : Nat} (h : ∀ i < n, b (off + i) = c (off' + i)) : b.list off n = c.list off' n :=
  map_congr_left fun i hi => h i (mem_range.1 hi)

theorem list_add (b : Buffer) (off m n : Nat) : b.list off (m + n) = b.list off m ++ b.list (off + m) n := by
  unfold list
  rw [range_add, map_append, map_map]
  congr 1
  apply map_congr_left
  intro i _
  rw [Function.comp_apply, Nat.add_assoc]

theorem list_succ : b.list off (n + 1) = b.list off n ++ [b (off + n)] := by
  rw [list_add]
  rfl

theorem list_of_eq (h : ∀ i < n, b (off + i) = v) : b.list off n = List.replicate n v := by
  rw [eq_replicate_iff]
  refine ⟨length_list, fun x hx => ?_⟩
  obtain ⟨i, hi, rfl⟩ := mem_map.1 hx
  exact h i (mem_range.1 hi)

theorem list_drop_take {k : Nat} (h : p + k ≤ n) : ((b.list off n).drop p).take k = b.list (off + p) k := by
  have hsplit : b.list off n = b.list off p ++ (b.list (off + p) k ++ b.list (off + p + k) (n - (p + k))) := by
    rw [← list_add, ← list_add]
    congr 1
    omega
  rw [hsplit, drop_left' length_list, take_left' length_list]

def zeroUpTo (n : Nat) (b : Buffer) (i : Nat) : Buffer :=
  if i < n then zeroUpTo n (b.set i 0) (i + 1) else b
termination_by n - i
decreasing_by omega

theorem zeroUpTo_of_lt (b : Buffer) {i : Nat} (h : i < n) : zeroUpTo n b i = zeroUpTo n (b.set i 0) (i + 1) := by
  rw [zeroUpTo, if_pos h]

theorem zeroUpTo_of_ge (b : Buffer) {i : Nat} (h : n ≤ i) : zeroUpTo n b i = b := by
  rw [zeroUpTo, if_neg (Nat.not_lt_of_ge h)]

theorem zeroUpTo_apply (n : Nat) (b : Buffer) (i q : Nat) : zeroUpTo n b i q = if i ≤ q ∧ q < n then 0 else b q := by
  fun_induction zeroUpTo n b i with
  | case1 b i hi ih =>
    rw [ih]
    by_cases hq : q = i
    · rw [hq, if_neg (by omega), set_self, if_pos (by omega)]
    · rw [set_of_ne hq]
      have hiff : (i + 1 ≤ q ∧ q < n) ↔ (i ≤ q ∧ q < n) := by omega
      simp only [hiff]
  | case2 b i hi => rw [if_neg (by omega)]

end EterOS.Buffer
