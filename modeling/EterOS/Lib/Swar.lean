import EterOS.Lib.Bytes
/-!
# Swar — eight bytes in a word

What can be seen of eight bytes at once: whether two words of them differ, and, by a subtraction and a mask, whether one of
them is zero.  The subtraction borrows from the bytes above the first zero byte, so that the mask tells that there is one,
not where.
-/
namespace EterOS.Swar

variable {m m' : Buffer} {p q n v : Nat}

def word (m : Buffer) (p : Nat) : BitVec 64 := BitVec.ofNat 64 (m.le p 8)

def ones : BitVec 64 := 0x0101010101010101

def highs : BitVec 64 := 0x8080808080808080

def zeroMask (v : BitVec 64) : BitVec 64 := (v - ones) &&& ~~~v &&& highs

/-! ## The mask, byte by byte -/

def onesN : Nat → Nat
  | 0 => 0
  | n + 1 => 1 + 256 * onesN n

def maskN (n v : Nat) : Nat := ((256 ^ n - onesN n + v) % 256 ^ n) &&& (256 ^ n - 1 - v) &&& (128 * onesN n)

theorem onesN_lt : ∀ n, onesN n < 256 ^ n
  | 0 => by decide
  | n + 1 => by
    have := onesN_lt n
    rw [onesN, Nat.pow_succ]
    omega

theorem and_split (a b : Nat) : a &&& b = ((a % 256) &&& (b % 256)) + 256 * ((a / 256) &&& (b / 256)) := by
  have hlow : (a &&& b) % 256 = (a % 256) &&& (b % 256) := Nat.and_mod_two_pow (n := 8)
  have hhigh : (a &&& b) / 256 = (a / 256) &&& (b / 256) := Nat.and_div_two_pow (n := 8)
  rw [← hlow, ← hhigh, Nat.mod_add_div]

theorem byte_mask : ∀ b < 256, b ≠ 0 → (b - 1) &&& (255 - b) &&& 128 = 0 := by decide +kernel

theorem maskN_succ_of_ne {b w : Nat} (hb : b < 256) (hne : b ≠ 0) (hw : w < 256 ^ n) :
    maskN (n + 1) (b + 256 * w) = 256 * maskN n w := by
  have hones := onesN_lt n
  unfold maskN
  rw [onesN, Nat.pow_succ]
  generalize 256 ^ n = P at hw hones
  generalize onesN n = O at hones
  have hdiff : (P * 256 - (1 + 256 * O) + (b + 256 * w)) % (P * 256) = (b - 1) + 256 * ((P - O + w) % P) := by
    have hsum : P * 256 - (1 + 256 * O) + (b + 256 * w) = (b - 1) + 256 * (P - O + w) := by omega
    rw [hsum, Nat.mul_comm P, Nat.mod_mul, Nat.add_mul_mod_self_left, Nat.add_mul_div_left _ _ (by decide),
      Nat.mod_eq_of_lt (by omega), Nat.div_eq_of_lt (by omega), Nat.zero_add]
  have hnot : P * 256 - 1 - (b + 256 * w) = (255 - b) + 256 * (P - 1 - w) := by omega
  have hhigh : 128 * (1 + 256 * O) = 128 + 256 * (128 * O) := by omega
  have hand (x y u v : Nat) (hx : x < 256) (hu : u < 256) :
      (x + 256 * y) &&& (u + 256 * v) = (x &&& u) + 256 * (y &&& v) := by
    rw [and_split, Nat.add_mul_mod_self_left, Nat.add_mul_mod_self_left, Nat.add_mul_div_left _ _ (by decide),
      Nat.add_mul_div_left _ _ (by decide), Nat.mod_eq_of_lt hx, Nat.mod_eq_of_lt hu, Nat.div_eq_of_lt hx,
      Nat.div_eq_of_lt hu, Nat.zero_add, Nat.zero_add]
  rw [hdiff, hnot, hhigh, hand _ _ _ _ (by omega) (by omega),
    hand _ _ _ _ (Nat.lt_of_le_of_lt Nat.and_le_left (by omega)) (by decide), byte_mask b hb hne, Nat.zero_add]

theorem maskN_succ_zero {w : Nat} (hw : w < 256 ^ n) : maskN (n + 1) (256 * w) ≠ 0 := by
  have hones := onesN_lt n
  have hlow : maskN (n + 1) (256 * w) % 256 = 128 := by
    unfold maskN
    rw [onesN, Nat.pow_succ]
    generalize 256 ^ n = P at hw hones
    generalize onesN n = O at hones
    have hmod (a b : Nat) : (a &&& b) % 256 = (a % 256) &&& (b % 256) := Nat.and_mod_two_pow (n := 8)
    have hdiff : (P * 256 - (1 + 256 * O) + 256 * w) % (P * 256) % 256 = 255 := by
      rw [Nat.mod_mul_left_mod]
      omega
    have hnot : (P * 256 - 1 - 256 * w) % 256 = 255 := by omega
    have hhigh : 128 * (1 + 256 * O) % 256 = 128 := by omega
    rw [hmod, hmod, hdiff, hnot, hhigh]
    rfl
  intro h0
  rw [h0] at hlow
  cases hlow

/-- **The mask tells whether a byte is zero.** -/
theorem maskN_le (m : Buffer) : ∀ (n p : Nat), maskN n (m.le p n) ≠ 0 ↔ ∃ i < n, m (p + i) = 0
  | 0, p => by
    simp [maskN, onesN]
  | n + 1, p => by
    have hlt : m.le (p + 1) n < 256 ^ n := Buffer.le_lt n
    by_cases h0 : m p = 0
    · rw [Buffer.le, h0, UInt8.toNat_zero, Nat.zero_add]
      exact ⟨fun _ => ⟨0, Nat.succ_pos n, h0⟩, fun _ => maskN_succ_zero hlt⟩
    · have hne : (m p).toNat ≠ 0 := fun h => h0 (UInt8.toNat_inj.1 h)
      have ih := maskN_le m n (p + 1)
      rw [Buffer.le, maskN_succ_of_ne (m p).toNat_lt hne hlt, Nat.mul_ne_zero_iff, and_iff_right (by decide), ih]
      constructor
      · rintro ⟨i, hi, hz⟩
        exact ⟨i + 1, Nat.succ_lt_succ hi, by rwa [Nat.add_right_comm] at hz⟩
      · rintro ⟨i, hi, hz⟩
        cases i with
        | zero => exact absurd hz h0
        | succ i => exact ⟨i, Nat.lt_of_succ_lt_succ hi, by rwa [Nat.add_right_comm]⟩

/-! ## Words -/

theorem word_toNat (m : Buffer) (p : Nat) : (word m p).toNat = m.le p 8 := by
  rw [word, BitVec.toNat_ofNat]
  exact Nat.mod_eq_of_lt (Buffer.le_lt 8)

theorem zeroMask_toNat (v : BitVec 64) : (zeroMask v).toNat = maskN 8 v.toNat := by
  unfold zeroMask
  rw [BitVec.toNat_and, BitVec.toNat_and, BitVec.toNat_sub, BitVec.toNat_not]
  rfl

/-- **A word shows a zero byte.** -/
theorem zeroMask_word (m : Buffer) (p : Nat) : zeroMask (word m p) ≠ 0 ↔ ∃ i < 8, m (p + i) = 0 := by
  rw [← maskN_le m 8 p, ← word_toNat, ← zeroMask_toNat, ← BitVec.toNat_ne_iff_ne]
  rfl

theorem le_inj : ∀ {n p q : Nat}, m.le p n = m'.le q n ↔ ∀ i < n, m (p + i) = m' (q + i)
  | 0, p, q => by
    constructor
    · intro _ i hi
      cases hi
    · intro _
      rfl
  | n + 1, p, q => by
    have hb := (m p).toNat_lt
    have hb' := (m' q).toNat_lt
    have ih : m.le (p + 1) n = m'.le (q + 1) n ↔ ∀ i < n, m (p + 1 + i) = m' (q + 1 + i) := le_inj
    rw [Buffer.le, Buffer.le]
    constructor
    · intro h i hi
      cases i with
      | zero => exact UInt8.toNat_inj.1 (by simp only [Nat.add_zero]; omega)
      | succ i =>
        have := ih.1 (by omega) i (Nat.lt_of_succ_lt_succ hi)
        rwa [Nat.add_right_comm, Nat.add_right_comm q] at this
    · intro h
      have h0 : m p = m' q := h 0 (Nat.succ_pos n)
      have hrest : m.le (p + 1) n = m'.le (q + 1) n := ih.2 fun i hi => by
        rw [Nat.add_right_comm, Nat.add_right_comm q]
        exact h (i + 1) (Nat.succ_lt_succ hi)
      rw [h0, hrest]

/-- **Words are equal when their bytes are.** -/
theorem word_inj : word m p = word m' q ↔ ∀ i < 8, m (p + i) = m' (q + i) := by
  rw [← le_inj, ← word_toNat, ← word_toNat, BitVec.toNat_inj]

def pattern (c : UInt8) : BitVec 64 := BitVec.ofNat 64 c.toNat * ones

theorem pattern_eq (c : UInt8) (p : Nat) : pattern c = word (fun _ => c) p := by
  apply BitVec.eq_of_toNat_eq
  have hc := c.toNat_lt
  have hones : ones.toNat = 0x0101010101010101 := rfl
  rw [word_toNat, pattern, BitVec.toNat_mul, BitVec.toNat_ofNat, hones]
  simp only [Buffer.le]
  omega

theorem xor_le (m m' : Buffer) : ∀ (n p q : Nat), m.le p n ^^^ m'.le q n = Buffer.le (fun i => m (p + i) ^^^ m' (q + i)) 0 n
  | 0, p, q => by simp [Buffer.le]
  | n + 1, p, q => by
    have hb := (m p).toNat_lt
    have hb' := (m' q).toNat_lt
    have hlow (a b : Nat) : (a ^^^ b) % 256 = (a % 256) ^^^ (b % 256) := Nat.xor_mod_two_pow (n := 8)
    have hhigh (a b : Nat) : (a ^^^ b) / 256 = (a / 256) ^^^ (b / 256) := Nat.xor_div_two_pow (n := 8)
    have hshift : Buffer.le (fun i => m (p + i) ^^^ m' (q + i)) 1 n =
        Buffer.le (fun i => m (p + 1 + i) ^^^ m' (q + 1 + i)) 0 n := by
      rw [← Nat.add_zero 1, ← Buffer.le_drop]
      apply Buffer.le_congr
      intro i _ _
      simp [Buffer.drop, Nat.add_assoc]
    have hmod (b w : Nat) (hb : b < 2 ^ 8) : (b + 256 * w) % 256 = b := by omega
    have hdiv (b w : Nat) (hb : b < 2 ^ 8) : (b + 256 * w) / 256 = w := by omega
    rw [Buffer.le, Buffer.le, Buffer.le, Nat.zero_add, hshift, ← xor_le m m' n (p + 1) (q + 1), UInt8.toNat_xor,
      ← Nat.mod_add_div (((m p).toNat + 256 * m.le (p + 1) n) ^^^ ((m' q).toNat + 256 * m'.le (q + 1) n)) 256, hlow, hhigh,
      hmod _ _ hb, hmod _ _ hb', hdiv _ _ hb, hdiv _ _ hb']
    rfl

theorem xor_word (m m' : Buffer) (p q : Nat) : word m p ^^^ word m' q = word (fun i => m (p + i) ^^^ m' (q + i)) 0 := by
  apply BitVec.eq_of_toNat_eq
  rw [BitVec.toNat_xor, word_toNat, word_toNat, word_toNat]
  exact xor_le m m' 8 p q

/-- **A word shows a byte that is looked for.** -/
theorem zeroMask_xor_word (m : Buffer) (p : Nat) (c : UInt8) :
    zeroMask (word m p ^^^ pattern c) ≠ 0 ↔ ∃ i < 8, m (p + i) = c := by
  rw [pattern_eq c p, xor_word, zeroMask_word]
  simp only [Nat.zero_add]
  have hzero (x : UInt8) : x ^^^ c = 0 ↔ x = c := by
    constructor
    · intro h
      exact UInt8.xor_eq_zero_iff.1 h
    · rintro rfl
      exact UInt8.xor_self
  simp [hzero]

end EterOS.Swar
