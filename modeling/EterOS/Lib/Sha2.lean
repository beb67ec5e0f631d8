import EterOS.Lib.Chunks
import Mathlib.Data.Nat.NthRoot.Defs
import Mathlib.Data.Nat.Prime.Defs
import Mathlib.Tactic.IntervalCases
/-!
# Sha2 — FIPS 180-4 for messages of whole bytes

The functions of the standard over words of `w` bits: SHA-256 and SHA-512 are two choices of `Params`.  The constants are
what the standard says they are, the first bits of the fractional parts of roots of primes.  `expand`, `turn` and `addWords`
are the shape in which programs compute the block function; they compute it (`compress_eq`).
-/
namespace EterOS.Sha2

open List
open Chunks (chunks)

@[ext]
structure Words (w : Nat) where
  a : BitVec w
  b : BitVec w
  c : BitVec w
  d : BitVec w
  e : BitVec w
  f : BitVec w
  g : BitVec w
  h : BitVec w
  deriving DecidableEq

variable {w : Nat}

/-! ## Functions and constants -/

def Ch (x y z : BitVec w) : BitVec w := (x &&& y) ^^^ (~~~x &&& z)

def Maj (x y z : BitVec w) : BitVec w := (x &&& y) ^^^ (x &&& z) ^^^ (y &&& z)

def bigSigma (r : Nat × Nat × Nat) (x : BitVec w) : BitVec w :=
  x.rotateRight r.1 ^^^ x.rotateRight r.2.1 ^^^ x.rotateRight r.2.2

def smallSigma (r : Nat × Nat × Nat) (x : BitVec w) : BitVec w :=
  x.rotateRight r.1 ^^^ x.rotateRight r.2.1 ^^^ x >>> r.2.2

def primes : List Nat := (List.range 410).filter fun n => Nat.Prime n

/-- The first `w` bits of the fractional part of the `n`-th root of prime number `t`, counted from 0. -/
def fraction (w n t : Nat) : BitVec w := BitVec.ofNat w (Nat.nthRoot n (primes.getD t 0 * 2 ^ (n * w)))

def roundConstant (w t : Nat) : BitVec w := fraction w 3 t

def initial (w : Nat) : Words w where
  a := fraction w 2 0
  b := fraction w 2 1
  c := fraction w 2 2
  d := fraction w 2 3
  e := fraction w 2 4
  f := fraction w 2 5
  g := fraction w 2 6
  h := fraction w 2 7

/-- What one function of the standard chooses; a word has `bytes` bytes and a block 16 words. -/
structure Params (w : Nat) where
  bytes : Nat
  rounds : Nat
  bigSigma0 : Nat × Nat × Nat
  bigSigma1 : Nat × Nat × Nat
  smallSigma0 : Nat × Nat × Nat
  smallSigma1 : Nat × Nat × Nat

def sha256 : Params 32 where
  bytes := 4
  rounds := 64
  bigSigma0 := (2, 13, 22)
  bigSigma1 := (6, 11, 25)
  smallSigma0 := (7, 18, 3)
  smallSigma1 := (17, 19, 10)

def sha512 : Params 64 where
  bytes := 8
  rounds := 80
  bigSigma0 := (28, 34, 39)
  bigSigma1 := (14, 18, 41)
  smallSigma0 := (1, 8, 7)
  smallSigma1 := (19, 61, 6)

/-! ## Bytes and words -/

def bigEndian (l : List UInt8) : Nat := l.foldl (fun v b => 256 * v + b.toNat) 0

def bytesBE (n v : Nat) : List UInt8 := (List.range n).map fun i => UInt8.ofNat (v / 256 ^ (n - 1 - i))

theorem length_bytesBE (n v : Nat) : (bytesBE n v).length = n := by
  rw [bytesBE, length_map, length_range]

/-! ## The hash -/

namespace Params

variable (P : Params w)

def block : Nat := 16 * P.bytes

def word (m : List UInt8) (t : Nat) : BitVec w := BitVec.ofNat w (bigEndian ((m.drop (t * P.bytes)).take P.bytes))

def schedule (m : List UInt8) (t : Nat) : BitVec w :=
  if t < 16 then P.word m t
  else
    smallSigma P.smallSigma1 (schedule m (t - 2)) + schedule m (t - 7) + smallSigma P.smallSigma0 (schedule m (t - 15)) +
      schedule m (t - 16)
termination_by t
decreasing_by all_goals omega

def round (m : List UInt8) (v : Words w) (t : Nat) : Words w :=
  let t₁ := v.h + bigSigma P.bigSigma1 v.e + Ch v.e v.f v.g + roundConstant w t + P.schedule m t
  let t₂ := bigSigma P.bigSigma0 v.a + Maj v.a v.b v.c
  { a := t₁ + t₂, b := v.a, c := v.b, d := v.c, e := v.d + t₁, f := v.e, g := v.f, h := v.g }

end Params

def Words.add (x y : Words w) : Words w :=
  { a := x.a + y.a, b := x.b + y.b, c := x.c + y.c, d := x.d + y.d, e := x.e + y.e, f := x.f + y.f, g := x.g + y.g,
    h := x.h + y.h }

def Words.toList (v : Words w) : List (BitVec w) := [v.a, v.b, v.c, v.d, v.e, v.f, v.g, v.h]

namespace Params

variable (P : Params w)

def compress (v : Words w) (m : List UInt8) : Words w := v.add ((List.range P.rounds).foldl (P.round m) v)

/-- The zero bytes of the padding: the smallest number that fills a block with the byte 0x80 and a length of two words. -/
def zeros (n : Nat) : Nat := (P.block - (n + 1 + 2 * P.bytes) % P.block) % P.block

/-- What is put behind a message of `n` bytes: a 1 bit, zeros, and the number of its bits. -/
def padding (n : Nat) : List UInt8 := 0x80 :: List.replicate (P.zeros n) 0 ++ bytesBE (2 * P.bytes) (8 * n)

def hash (m : List UInt8) : List UInt8 :=
  (((chunks P.block (m ++ P.padding m.length)).foldl P.compress (initial w)).toList).flatMap fun x => bytesBE P.bytes x.toNat

end Params

/-! ## The constants -/

def trial (n : Nat) : Bool := decide (2 ≤ n) && [2, 3, 5, 7, 11, 13, 17, 19].all fun d => n % d != 0 || n == d

theorem trial_iff {n : Nat} (hn : n < 410) : trial n = true ↔ n.Prime := by
  unfold trial
  rw [Bool.and_eq_true, decide_eq_true_iff, all_eq_true]
  constructor
  · rintro ⟨htwo, hall⟩
    by_contra hnot
    have hsq := Nat.minFac_sq_le_self (by omega) hnot
    have hprime := Nat.minFac_prime (n := n) (by omega)
    have hlt : n.minFac < 21 := by
      by_contra hge
      have := Nat.pow_le_pow_left (Nat.le_of_not_lt hge) 2
      omega
    have hdvd := Nat.mod_eq_zero_of_dvd (Nat.minFac_dvd n)
    have hne : n ≠ n.minFac := fun he => hnot (he ▸ hprime)
    generalize n.minFac = d at hprime hlt hdvd hne
    have hmem : d ∈ [2, 3, 5, 7, 11, 13, 17, 19] := by
      clear hall hdvd hne hsq
      revert hprime
      interval_cases d <;> decide
    have hd := hall d hmem
    rw [Bool.or_eq_true, bne_iff_ne, beq_iff_eq] at hd
    exact hd.elim (fun h => h hdvd) hne
  · intro hprime
    refine ⟨hprime.two_le, fun d hd => ?_⟩
    rw [Bool.or_eq_true, bne_iff_ne, beq_iff_eq]
    by_cases hdvd : n % d = 0
    · right
      have hcases := (Nat.dvd_prime hprime).1 (Nat.dvd_of_mod_eq_zero hdvd)
      have hone : d ≠ 1 := by
        rintro rfl
        exact absurd hd (by decide)
      exact (hcases.resolve_left hone).symm
    · exact .inl hdvd

theorem primes_eq : primes = [2, 3, 5, 7, 11, 13, 17, 19, 23, 29, 31, 37, 41, 43, 47, 53, 59, 61, 67, 71, 73, 79, 83, 89, 97,
    101, 103, 107, 109, 113, 127, 131, 137, 139, 149, 151, 157, 163, 167, 173, 179, 181, 191, 193, 197, 199, 211,
    223, 227, 229, 233, 239, 241, 251, 257, 263, 269, 271, 277, 281, 283, 293, 307, 311, 313, 317, 331, 337, 347, 349, 353,
    359, 367, 373, 379, 383, 389, 397, 401, 409] := by
  have htrial : primes = (List.range 410).filter trial := by
    apply filter_congr
    intro n hn
    rw [Bool.eq_iff_iff, decide_eq_true_iff]
    exact (trial_iff (mem_range.1 hn)).symm
  rw [htrial]
  decide +kernel

/-! ## The block function as programs compute it -/

def expand (s0 s1 : BitVec w → BitVec w) (m : List (BitVec w)) (i : Nat) : List (BitVec w) :=
  m ++ [s1 (m.getD (i - 2) 0) + m.getD (i - 7) 0 + s0 (m.getD (i - 15) 0) + m.getD (i - 16) 0]

/-- A turn of the loop over the rounds, with the constants in an array `k`. -/
def turn (S0 S1 : BitVec w → BitVec w) (ch maj : BitVec w → BitVec w → BitVec w → BitVec w) (k m : List (BitVec w))
    (v : Words w)
    (i : Nat) : Words w :=
  let t1 := v.h + S1 v.e + ch v.e v.f v.g + k.getD i 0 + m.getD i 0
  let t2 := S0 v.a + maj v.a v.b v.c
  { h := v.g, g := v.f, f := v.e, e := v.d + t1, d := v.c, c := v.b, b := v.a, a := t1 + t2 }

namespace Params

variable {P : Params w} {block : List UInt8} {m k : List (BitVec w)} {s0 s1 S0 S1 : BitVec w → BitVec w}
  {ch maj : BitVec w → BitVec w → BitVec w → BitVec w} {t n : Nat}

theorem schedule_of_lt (h : t < 16) : P.schedule block t = P.word block t := by
  rw [schedule, if_pos h]

theorem schedule_of_ge (h : 16 ≤ t) : P.schedule block t =
    smallSigma P.smallSigma1 (P.schedule block (t - 2)) + P.schedule block (t - 7) +
      smallSigma P.smallSigma0 (P.schedule block (t - 15)) + P.schedule block (t - 16) := by
  rw [schedule, if_neg (by omega)]

theorem expand_spec (h0 : ∀ x, s0 x = smallSigma P.smallSigma0 x) (h1 : ∀ x, s1 x = smallSigma P.smallSigma1 x) : ∀ n,
    (List.range' 16 n).foldl (expand s0 s1) ((List.range 16).map (P.word block)) =
    (List.range (16 + n)).map (P.schedule block)
  | 0 => by
    apply map_congr_left
    intro t ht
    exact (schedule_of_lt (mem_range.1 ht)).symm
  | n + 1 => by
    have hget : ∀ t, 0 < t → t ≤ 16 → ((List.range (16 + n)).map (P.schedule block)).getD (16 + n - t) 0 =
        P.schedule block (16 + n - t) := by
      intro t h0 ht
      rw [getD_eq_getElem?_getD, List.getElem?_map, List.getElem?_range (by omega)]
      rfl
    rw [List.range'_concat, foldl_append, expand_spec h0 h1 n, Nat.one_mul, ← Nat.add_assoc, range_succ, map_append]
    simp only [foldl_cons, foldl_nil, expand]
    rw [h0, h1, hget 2 (by omega) (by omega), hget 7 (by omega) (by omega), hget 15 (by omega) (by omega),
      hget 16 (by omega) (by omega), ← schedule_of_ge (by omega)]
    rfl

theorem turns_spec (hS0 : ∀ x, S0 x = bigSigma P.bigSigma0 x) (hS1 : ∀ x, S1 x = bigSigma P.bigSigma1 x)
    (hch : ∀ x y z, ch x y z = Ch x y z) (hmaj : ∀ x y z, maj x y z = Maj x y z)
      (hk : ∀ t < n, k.getD t 0 = roundConstant w t)
    (hm : ∀ t < n, m.getD t 0 = P.schedule block t) (v : Words w) :
    (List.range n).foldl (turn S0 S1 ch maj k m) v = (List.range n).foldl (P.round block) v := by
  induction n with
  | zero => rfl
  | succ n ih =>
    rw [range_succ, foldl_append, foldl_append, ih (fun t ht => hk t (by omega)) fun t ht => hm t (by omega)]
    simp only [foldl_cons, foldl_nil, turn, round, hS0, hS1, hch, hmaj, hk n (Nat.lt_succ_self n), hm n (Nat.lt_succ_self n)]

theorem compress_eq (block : List UInt8) (hrounds : 16 ≤ P.rounds) (h0 : ∀ x, s0 x = smallSigma P.smallSigma0 x)
    (h1 : ∀ x, s1 x = smallSigma P.smallSigma1 x) (hS0 : ∀ x, S0 x = bigSigma P.bigSigma0 x)
    (hS1 : ∀ x, S1 x = bigSigma P.bigSigma1 x) (hch : ∀ x y z, ch x y z = Ch x y z) (hmaj : ∀ x y z, maj x y z = Maj x y z)
    (hk : ∀ t < P.rounds, k.getD t 0 = roundConstant w t) (v : Words w) :
    v.add ((List.range P.rounds).foldl
      (turn S0 S1 ch maj k ((List.range' 16 (P.rounds - 16)).foldl (expand s0 s1) ((List.range 16).map (P.word block)))) v) =
      P.compress v block := by
  rw [expand_spec h0 h1, Nat.add_sub_cancel' hrounds, compress, turns_spec hS0 hS1 hch hmaj hk]
  intro t ht
  rw [getD_eq_getElem?_getD, List.getElem?_map, List.getElem?_range ht]
  rfl

end Params

/-! ## Words from bytes -/

theorem ofNat_shiftLeft (x n : Nat) : BitVec.ofNat w x <<< n = BitVec.ofNat w (x <<< n) := by
  apply BitVec.eq_of_toNat_eq
  rw [BitVec.toNat_shiftLeft, BitVec.toNat_ofNat, BitVec.toNat_ofNat, Nat.shiftLeft_eq, Nat.shiftLeft_eq, Nat.mod_mul_mod]

theorem shift_or_byte (v n : Nat) (b : UInt8) :
    BitVec.ofNat w v <<< (n + 8) ||| BitVec.ofNat w b.toNat <<< n = BitVec.ofNat w (256 * v + b.toNat) <<< n := by
  rw [ofNat_shiftLeft, ofNat_shiftLeft, ofNat_shiftLeft, ← BitVec.ofNat_or, Nat.add_comm n, Nat.shiftLeft_add,
    ← Nat.shiftLeft_or_distrib, ← Nat.shiftLeft_add_eq_or_of_lt b.toNat_lt, Nat.shiftLeft_eq v 8, Nat.mul_comm v]

end EterOS.Sha2
