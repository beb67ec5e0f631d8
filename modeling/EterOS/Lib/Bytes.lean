import Mathlib.Tactic.Ring
/-!
# Bytes — buffers, copies and little-endian fields

A buffer is a function from positions to bytes; how much of it is there is the reader's business.  `blit` is `memcpy`,
`le` reads a little-endian field and `digits` is what a store of one puts there.
-/
namespace EterOS

abbrev Buffer : Type := Nat → UInt8

namespace Buffer

variable {b c src dst : Buffer} {n off i v : Nat}

def blit (dst : Buffer) (off : Nat) (src : Buffer) (n : Nat) : Buffer :=
  fun i => if off ≤ i ∧ i < off + n then src (i - off) else dst i

def drop (b : Buffer) (off : Nat) : Buffer := fun i => b (off + i)

/-- The unsigned little-endian field of `n` bytes at `off`. -/
def le (b : Buffer) (off : Nat) : Nat → Nat
  | 0 => 0
  | n + 1 => (b off).toNat + 256 * le b (off + 1) n

def digits (v : Nat) : Buffer := fun i => UInt8.ofNat (v / 256 ^ i)

theorem blit_of_mem (h : off ≤ i) (h' : i < off + n) : blit dst off src n i = src (i - off) := if_pos ⟨h, h'⟩

theorem blit_of_lt (h : i < off) : blit dst off src n i = dst i := if_neg fun hi => by omega

theorem blit_of_ge (h : off + n ≤ i) : blit dst off src n i = dst i := if_neg fun hi => by omega

theorem blit_nothing (dst : Buffer) (off : Nat) (src : Buffer) : blit dst off src 0 = dst :=
  funext fun _ => if_neg fun hi => by omega

theorem le_congr (h : ∀ i, off ≤ i → i < off + n → b i = c i) : le b off n = le c off n := by
  induction n generalizing off with
  | zero => rfl
  | succ n ih =>
    rw [le, le, h off (Nat.le_refl _) (by omega), ih fun i hi hi' => h i (by omega) (by omega)]

theorem le_drop (m : Nat) : le (b.drop m) off n = le b (m + off) n := by
  induction n generalizing off with
  | zero => rfl
  | succ n ih =>
    rw [le, le, ih]
    rfl

theorem le_lt (n : Nat) : le b off n < 256 ^ n := by
  induction n generalizing off with
  | zero => simp [le]
  | succ n ih =>
    have := (b off).toNat_lt
    have : le b (off + 1) n < 256 ^ n := ih
    rw [le, Nat.pow_succ]
    omega

theorem le_blit_of_disjoint {m : Nat} (h : i + m ≤ off ∨ off + n ≤ i) : le (blit dst off src n) i m = le dst i m := by
  apply le_congr
  intro j hj hj'
  rcases h with h | h
  · exact blit_of_lt (by omega)
  · exact blit_of_ge (by omega)

theorem le_blit_of_mem {m : Nat} (h : off ≤ i) (h' : i + m ≤ off + n) :
    le (blit dst off src n) i m = le src (i - off) m := by
  induction m generalizing i with
  | zero => rfl
  | succ m ih =>
    rw [le, le, blit_of_mem h (by omega), ih (by omega) (by omega), Nat.sub_add_comm h]

theorem le_digits_drop (v k : Nat) : ∀ n, le (digits v) k n = v / 256 ^ k % 256 ^ n
  | 0 => by simp [le, Nat.mod_one]
  | n + 1 => by
    rw [le, le_digits_drop v (k + 1) n, digits, UInt8.toNat_ofNat', Nat.pow_succ 256 k, ← Nat.div_div_eq_div_mul,
      Nat.pow_succ 256 n, Nat.mul_comm (256 ^ n), Nat.mod_mul]

theorem le_blit_digits (v : Nat) : le (blit dst off (digits v) n) off n = v % 256 ^ n := by
  rw [le_blit_of_mem (Nat.le_refl _) (Nat.le_refl _), Nat.sub_self, le_digits_drop]
  simp

/-! ## Words -/

def get32 (b : Buffer) (off : Nat) : UInt32 := UInt32.ofNat (b.le off 4)

def put32 (b : Buffer) (off : Nat) (v : UInt32) : Buffer := b.blit off (digits v.toNat) 4

def words (w : Nat → UInt32) : Buffer := fun i => UInt8.ofNat ((w (i / 4)).toNat / 256 ^ (i % 4))

theorem get32_congr (h : ∀ i, off ≤ i → i < off + 4 → b i = c i) : get32 b off = get32 c off := by
  rw [get32, get32, le_congr h]

theorem get32_drop (m : Nat) : get32 (b.drop m) off = get32 b (m + off) := by
  rw [get32, get32, le_drop]

theorem get32_blit_of_disjoint (h : i + 4 ≤ off ∨ off + n ≤ i) : get32 (blit dst off src n) i = get32 dst i := by
  rw [get32, get32, le_blit_of_disjoint h]

theorem get32_blit_of_mem (h : off ≤ i) (h' : i + 4 ≤ off + n) : get32 (blit dst off src n) i = get32 src (i - off) := by
  rw [get32, get32, le_blit_of_mem h h']

theorem get32_put32 (v : UInt32) : get32 (put32 b off v) off = v := by
  have hlt := v.toNat_lt
  rw [get32, put32, le_blit_digits, Nat.mod_eq_of_lt (by omega), UInt32.ofNat_toNat]

theorem get32_put32_of_disjoint (v : UInt32) (h : i + 4 ≤ off ∨ off + 4 ≤ i) : get32 (put32 b off v) i = get32 b i :=
  get32_blit_of_disjoint h

theorem get32_words (w : Nat → UInt32) (k : Nat) : get32 (words w) (4 * k) = w k := by
  have hdigits : le ((words w).drop (4 * k)) 0 4 = le (digits (w k).toNat) 0 4 := by
    apply le_congr
    intro i _ hi
    have hdiv : (4 * k + i) / 4 = k := by omega
    have hmod : (4 * k + i) % 4 = i := by omega
    simp [drop, words, digits, hdiv, hmod]
  have hlt := (w k).toNat_lt
  rw [le_drop, Nat.add_zero, le_digits_drop] at hdigits
  rw [get32, hdigits, pow_zero, Nat.div_one, Nat.mod_eq_of_lt (by omega), UInt32.ofNat_toNat]

end Buffer

/-! ## Copies block by block

A copy that has come to `pos` goes on to the end of its block of `B` bytes, or of the request. -/

variable {B pos done size chunk k turns : Nat}

theorem chunk_bounds (hB : 0 < B) (hlt : done < size) (hc : min (B - pos % B) (size - done) = chunk) :
    0 < chunk ∧ done + chunk ≤ size ∧ pos % B + chunk ≤ B := by
  have hmod := Nat.mod_lt pos hB
  omega

theorem chunk_within (h : pos % B + k < B) : (pos + k) / B = pos / B ∧ (pos + k) % B = pos % B + k := by
  have hpos : pos + k = B * (pos / B) + (pos % B + k) := by rw [← Nat.add_assoc, Nat.div_add_mod]
  constructor
  · rw [hpos, Nat.mul_add_div (Nat.zero_lt_of_lt h), Nat.div_eq_of_lt h, Nat.add_zero]
  · rw [hpos, Nat.mul_add_mod, Nat.mod_eq_of_lt h]

theorem chunk_next (hB : 0 < B) (n : Nat) : pos + min (B - pos % B) n = min (B * (pos / B + 1)) (pos + n) := by
  have hend : pos + (B - pos % B) = B * (pos / B + 1) := by
    have hpos := Nat.div_add_mod pos B
    have hmod := Nat.mod_lt pos hB
    rw [Nat.mul_succ]
    omega
  rw [← hend, Nat.add_min_add_left]

theorem chunk_turns (h : size - done ≤ turns + 1) (hpos : 0 < chunk) : size - (done + chunk) ≤ turns := by
  omega

end EterOS
