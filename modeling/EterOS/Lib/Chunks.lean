import Mathlib.Data.List.Basic
/-!
# Chunks — a list cut into pieces of one length

`chunks n l` are the full pieces and `pending n l` is what is left over.  What is appended to a list is first put behind
what is left over (`chunks_append`): whoever takes a message byte by byte need keep no more than `pending`.
-/
namespace EterOS.Chunks

open List

variable {α : Type*} {n : Nat} {xs ys : List α} {x : α}

def chunks (n : Nat) (l : List α) : List (List α) := (List.range (l.length / n)).map fun i => (l.drop (i * n)).take n

def pending (n : Nat) (l : List α) : List α := l.drop (l.length / n * n)

theorem chunks_of_lt (h : xs.length < n) : chunks n xs = [] := by
  rw [chunks, Nat.div_eq_of_lt h]
  rfl

theorem pending_of_lt (h : xs.length < n) : pending n xs = xs := by
  rw [pending, Nat.div_eq_of_lt h, Nat.zero_mul, drop_zero]

theorem length_pending : (pending n xs).length = xs.length % n := by
  rw [pending, length_drop, Nat.mod_eq_sub_div_mul]

theorem length_pending_lt (hn : 0 < n) : (pending n xs).length < n := by
  rw [length_pending]
  exact Nat.mod_lt _ hn

theorem chunks_append_of_dvd {k : Nat} (hn : 0 < n) (hx : xs.length = k * n) :
    chunks n (xs ++ ys) = chunks n xs ++ chunks n ys := by
  have hlen : (xs ++ ys).length / n = k + ys.length / n := by
    rw [length_append, hx, Nat.add_comm, Nat.add_mul_div_right _ _ hn, Nat.add_comm]
  have hlen' : xs.length / n = k := by
    rw [hx, Nat.mul_div_cancel _ hn]
  unfold chunks
  rw [hlen, hlen', range_add, map_append, map_map]
  congr 1
  · apply map_congr_left
    intro i hi
    have hle : (i + 1) * n ≤ xs.length := hx ▸ Nat.mul_le_mul_right n (mem_range.1 hi)
    rw [Nat.succ_mul] at hle
    rw [drop_append_of_le_length (by omega), take_append_of_le_length (by rw [length_drop]; omega)]
  · apply map_congr_left
    intro i _
    rw [Function.comp_apply, Nat.add_mul, ← hx, ← drop_drop, drop_left]

theorem pending_append_of_dvd {k : Nat} (hn : 0 < n) (hx : xs.length = k * n) : pending n (xs ++ ys) = pending n ys := by
  unfold pending
  rw [length_append, hx, Nat.add_comm, Nat.add_mul_div_right _ _ hn, Nat.add_comm, Nat.add_mul, ← hx, ← drop_drop, drop_left]

theorem exists_front (n : Nat) (l : List α) : ∃ front k, l = front ++ pending n l ∧ front.length = k * n := by
  refine ⟨l.take (l.length / n * n), l.length / n, ?_, ?_⟩
  · rw [pending, take_append_drop]
  · rw [length_take, Nat.min_eq_left (Nat.div_mul_le_self _ _)]

/-- **What is appended goes behind what was left over.** -/
theorem chunks_append (hn : 0 < n) (xs ys : List α) :
    chunks n (xs ++ ys) = chunks n xs ++ chunks n (pending n xs ++ ys) := by
  obtain ⟨front, k, hsplit, hfront⟩ := exists_front n xs
  have hnone : chunks n (pending n xs) = [] := chunks_of_lt (length_pending_lt hn)
  have hxs : chunks n xs = chunks n front := by
    conv_lhs => rw [hsplit, chunks_append_of_dvd hn hfront, hnone, append_nil]
  conv_lhs => rw [hsplit, append_assoc, chunks_append_of_dvd hn hfront]
  rw [hxs]

theorem pending_append (hn : 0 < n) (xs ys : List α) : pending n (xs ++ ys) = pending n (pending n xs ++ ys) := by
  obtain ⟨front, k, hsplit, hfront⟩ := exists_front n xs
  conv_lhs => rw [hsplit, append_assoc, pending_append_of_dvd hn hfront]

theorem chunks_of_length (hn : 0 < n) (h : xs.length = n) : chunks n xs = [xs] := by
  rw [chunks, h, Nat.div_self hn]
  simp [← h]

theorem chunks_two (hn : 0 < n) (hx : xs.length = n) (hy : ys.length = n) : chunks n (xs ++ ys) = [xs, ys] := by
  rw [chunks_append_of_dvd (k := 1) hn (by omega), chunks_of_length hn hx, chunks_of_length hn hy]
  rfl

theorem pending_of_length (hn : 0 < n) (h : xs.length = n) : pending n xs = [] := by
  rw [pending, h, Nat.div_self hn, Nat.one_mul, ← h, drop_length]

theorem snoc_of_lt (x : α) (hn : 0 < n) (h : (pending n xs).length + 1 < n) :
    chunks n (xs ++ [x]) = chunks n xs ∧ pending n (xs ++ [x]) = pending n xs ++ [x] := by
  have hlt : (pending n xs ++ [x]).length < n := by
    rw [length_append, length_singleton]
    exact h
  rw [chunks_append hn, pending_append hn, chunks_of_lt hlt, pending_of_lt hlt, append_nil]
  exact ⟨rfl, rfl⟩

theorem snoc_of_eq (x : α) (hn : 0 < n) (h : (pending n xs).length + 1 = n) :
    chunks n (xs ++ [x]) = chunks n xs ++ [pending n xs ++ [x]] ∧ pending n (xs ++ [x]) = [] := by
  have hlen : (pending n xs ++ [x]).length = n := by
    rw [length_append, length_singleton]
    exact h
  rw [chunks_append hn, pending_append hn, chunks_of_length hn hlen, pending_of_length hn hlen]
  exact ⟨rfl, rfl⟩

end EterOS.Chunks
