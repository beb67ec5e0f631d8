import EterOS.Lib.Stores
/-!
# Moves — copies inside one memory

`move` takes all bytes before it puts one; a copy that goes piece by piece does the same if it goes upward to a lower place
(`move_forward`) or downward to a higher one (`move_backward`), however the places overlap.
-/
namespace EterOS.Buffer

variable {m : Buffer} {d s i j k n p c : Nat}

/-- The `n` bytes from `s` on, all at once, to `d`. -/
def move (m : Buffer) (d s n : Nat) : Buffer := m.blit d (m.drop s) n

def moveWord (m : Buffer) (d s : Nat) : Buffer := m.blit d (digits (m.le s 8)) 8

theorem move_apply (m : Buffer) (d s n p : Nat) : m.move d s n p = if d ≤ p ∧ p < d + n then m (s + (p - d)) else m p := rfl

theorem move_zero (m : Buffer) (d s : Nat) : m.move d s 0 = m := blit_nothing m d (m.drop s)

theorem move_self (m : Buffer) (d n : Nat) : m.move d d n = m := by
  funext p
  rw [move_apply]
  split
  · congr 1
    omega
  · rfl

theorem set_eq_move (m : Buffer) (d s : Nat) : m.set d (m s) = m.move d s 1 := by
  funext p
  rw [move_apply, set]
  by_cases hp : p = d
  · rw [if_pos hp, if_pos (by omega), hp, Nat.sub_self, Nat.add_zero]
  · rw [if_neg hp, if_neg (by omega)]

theorem digits_le (m : Buffer) : ∀ (n p i : Nat), i < n → digits (m.le p n) i = m (p + i)
  | n + 1, p, 0, _ => by
    apply UInt8.toNat_inj.1
    have := (m p).toNat_lt
    rw [digits, UInt8.toNat_ofNat', pow_zero, Nat.div_one, le]
    show _ = (m p).toNat
    omega
  | n + 1, p, i + 1, h => by
    have hdiv : m.le p (n + 1) / 256 ^ (i + 1) = m.le (p + 1) n / 256 ^ i := by
      have := (m p).toNat_lt
      rw [Nat.pow_succ, Nat.mul_comm, ← Nat.div_div_eq_div_mul, le]
      congr 1
      omega
    have ih := digits_le m n (p + 1) i (Nat.lt_of_succ_lt_succ h)
    rw [digits] at ih
    rw [digits, hdiv, ih, Nat.add_right_comm, Nat.add_assoc]

theorem moveWord_eq (m : Buffer) (d s : Nat) : m.moveWord d s = m.move d s 8 := by
  funext p
  unfold moveWord move blit
  by_cases hp : d ≤ p ∧ p < d + 8
  · rw [if_pos hp, if_pos hp, digits_le m 8 s (p - d) (by omega)]
    rfl
  · rw [if_neg hp, if_neg hp]

theorem move_forward (m : Buffer) (h : d ≤ s) (k c : Nat) : (m.move d s k).move (d + k) (s + k) c = m.move d s (k + c) := by
  funext p
  simp only [move_apply]
  by_cases hnew : d + k ≤ p ∧ p < d + k + c
  · rw [if_pos hnew, if_neg (by omega), if_pos (by omega)]
    congr 1
    omega
  · rw [if_neg hnew]
    have hiff : (d ≤ p ∧ p < d + k) ↔ (d ≤ p ∧ p < d + (k + c)) := by omega
    simp [hiff]

theorem move_backward (m : Buffer) (h : s ≤ d) (j c k : Nat) :
    (m.move (d + (j + c)) (s + (j + c)) k).move (d + j) (s + j) c = m.move (d + j) (s + j) (c + k) := by
  funext p
  simp only [move_apply]
  by_cases hnew : d + j ≤ p ∧ p < d + j + c
  · rw [if_pos hnew, if_neg (by omega), if_pos (by omega)]
  · rw [if_neg hnew]
    by_cases hold : d + (j + c) ≤ p ∧ p < d + (j + c) + k
    · rw [if_pos hold, if_pos (by omega)]
      congr 1
      omega
    · rw [if_neg hold, if_neg (by omega)]

end EterOS.Buffer
