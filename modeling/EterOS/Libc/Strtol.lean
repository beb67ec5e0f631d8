import Mathlib.Data.List.TakeWhile
import Mathlib.Algebra.Group.Int.Defs
import Mathlib.Algebra.Group.Nat.Defs
/-!
# Strtol — `userspace/libc/src/stdlib.c`

`strtol`, `strtoll`, `strtoul` and `strtoull` against 7.22.1.4 of the C standard.  A string is its bytes before the NUL, a
pointer into it what follows there; `long` and `long long` both have 64 bits, and what is beyond them is cut off.
-/
namespace EterOS.Strtol

open List

/-! ## The code -/

def skip (s : List UInt8) : List UInt8 := s.dropWhile fun c => c = 32 ∨ c = 9 ∨ c = 10

def sign : List UInt8 → Bool × List UInt8
  | [] => (false, [])
  | c :: p => if c = '-'.toUInt8 then (true, p) else if c = '+'.toUInt8 then (false, p) else (false, c :: p)

def hasPrefix (p : List UInt8) : Bool :=
  p.head? = some '0'.toUInt8 ∧ (p.tail.head? = some 'x'.toUInt8 ∨ p.tail.head? = some 'X'.toUInt8)

def detect (base : Nat) (p : List UInt8) : Nat × List UInt8 :=
  if base = 0 then
    if p.head? = some '0'.toUInt8 then if hasPrefix p then (16, p.drop 2) else (8, p)
    else (10, p)
  else if base = 16 ∧ hasPrefix p then (16, p.drop 2)
  else (base, p)

def digit (c : UInt8) : Option Nat :=
  if '0'.toUInt8 ≤ c ∧ c ≤ '9'.toUInt8 then some (c.toNat - '0'.toNat)
  else if 'a'.toUInt8 ≤ c ∧ c ≤ 'z'.toUInt8 then some (c.toNat - 'a'.toNat + 10)
  else if 'A'.toUInt8 ≤ c ∧ c ≤ 'Z'.toUInt8 then some (c.toNat - 'A'.toNat + 10)
  else none

def digits (base : Nat) : List UInt8 → BitVec 64 → BitVec 64 × List UInt8
  | [], res => (res, [])
  | c :: p, res =>
    match digit c with
    | some v => if v < base then digits base p (res * BitVec.ofNat 64 base + BitVec.ofNat 64 v) else (res, c :: p)
    | none => (res, c :: p)

/-- What the four functions have in common: the sign, the number and `*endptr`. -/
def scan (s : List UInt8) (base : Nat) : Bool × BitVec 64 × List UInt8 :=
  let (neg, p) := sign (skip s)
  let (base, p) := detect base p
  let (res, p) := digits base p 0
  (neg, res, p)

def strtol (s : List UInt8) (base : Nat) : BitVec 64 × List UInt8 :=
  let (neg, res, p) := scan s base
  (if neg then -res else res, p)

def strtoll (s : List UInt8) (base : Nat) : BitVec 64 × List UInt8 :=
  let (neg, res, p) := scan s base
  (if neg then -res else res, p)

def strtoul (s : List UInt8) (base : Nat) : BitVec 64 × List UInt8 :=
  let (_, res, p) := scan s base
  (res, p)

def strtoull (s : List UInt8) (base : Nat) : BitVec 64 × List UInt8 :=
  let (_, res, p) := scan s base
  (res, p)

/-! ## The standard -/

def isSpace (c : UInt8) : Bool := c = 32 ∨ 9 ≤ c ∧ c ≤ 13

def isDigit (base : Nat) (c : UInt8) : Bool := (digit c).any (· < base)

def number (base : Nat) (ds : List UInt8) (n : Nat) : Nat := ds.foldl (fun n c => n * base + (digit c).getD 0) n

def subject (base : Nat) (p : List UInt8) : Nat × List UInt8 :=
  if (base = 0 ∨ base = 16) ∧ hasPrefix p ∧ (p.drop 2).head?.any (isDigit 16) then (16, p.drop 2)
  else (if base = 0 then (if p.head? = some '0'.toUInt8 then 8 else 10) else base, p)

/-- The sign, the number and what follows it; `none` where there are no digits. -/
def parse (s : List UInt8) (base : Nat) : Option (Bool × Nat × List UInt8) :=
  let (neg, p) := sign (s.dropWhile isSpace)
  let (base, p) := subject base p
  if p.head?.any (isDigit base) then some (neg, number base (p.takeWhile (isDigit base)) 0, p.dropWhile (isDigit base))
    else none

def signed (s : List UInt8) (base : Nat) : Int × List UInt8 :=
  match parse s base with
  | none => (0, s)
  | some (neg, n, p) => (max (-2 ^ 63) (min (2 ^ 63 - 1) (if neg then -(n : Int) else n)), p)

/-- A number beyond the limit is the limit, a number with a minus sign its negative. -/
def unsigned (s : List UInt8) (base : Nat) : Nat × List UInt8 :=
  match parse s base with
  | none => (0, s)
  | some (neg, n, p) => (if 2 ^ 64 ≤ n then 2 ^ 64 - 1 else if neg then (2 ^ 64 - n) % 2 ^ 64 else n, p)

/-! ## Where they agree -/

def FitsSigned (neg : Bool) (n : Nat) : Prop :=
  if neg then n ≤ 2 ^ 63 ∨ n % 2 ^ 64 = 2 ^ 63 else n < 2 ^ 63 ∨ n % 2 ^ 64 = 2 ^ 63 - 1

def FitsUnsigned (neg : Bool) (n : Nat) : Prop :=
  if n < 2 ^ 64 then neg → n = 0 ∨ n = 2 ^ 63 else n % 2 ^ 64 = 2 ^ 64 - 1

/-- With white space that the code does not know, it must stand at the start and no number behind it; a prefix needs a digit;
without digits there is nothing to pass over; and the number fits. -/
def Right (fits : Bool → Nat → Prop) (s : List UInt8) (base : Nat) : Prop :=
  if skip s ≠ s.dropWhile isSpace then skip s = s ∧ parse s base = none
  else
    ((base = 0 ∨ base = 16) → hasPrefix (sign (skip s)).2 → ((sign (skip s)).2.drop 2).head?.any (isDigit 16)) ∧
      match parse s base with
      | none => (sign (skip s)).2 = s
      | some (neg, n, _) => fits neg n

/-! ## The digits -/

theorem digits_eq (base : Nat) : ∀ (p : List UInt8) (n : Nat), digits base p (BitVec.ofNat 64 n) =
    (BitVec.ofNat 64 (number base (p.takeWhile (isDigit base)) n), p.dropWhile (isDigit base))
  | [], _ => rfl
  | c :: p, n => by
    rw [digits, takeWhile_cons, dropWhile_cons]
    cases hc : digit c with
    | none =>
      have hdigit : isDigit base c = false := by rw [isDigit, hc]; rfl
      rw [hdigit]
      rfl
    | some v =>
      by_cases hv : v < base
      · have hdigit : isDigit base c = true := by rw [isDigit, hc]; exact decide_eq_true hv
        have hnumber : number base (c :: p.takeWhile (isDigit base)) n =
            number base (p.takeWhile (isDigit base)) (n * base + v) := by
          rw [number, foldl_cons, hc]
          rfl
        simp [hdigit, if_pos hv, hnumber, ← BitVec.ofNat_mul, ← BitVec.ofNat_add, digits_eq base p]
      · have hdigit : isDigit base c = false := by rw [isDigit, hc]; exact decide_eq_false hv
        simp only [hdigit, if_neg hv]
        rfl

theorem digits_none {base : Nat} {p : List UInt8} (h : p.head?.any (isDigit base) = false) : digits base p 0 = (0, p) := by
  have hnone : p.takeWhile (isDigit base) = [] ∧ p.dropWhile (isDigit base) = p := by
    cases p with
    | nil => exact ⟨rfl, rfl⟩
    | cons c p =>
      have hc : isDigit base c = false := h
      rw [takeWhile_cons, dropWhile_cons, hc]
      exact ⟨rfl, rfl⟩
  have := digits_eq base p 0
  rw [hnone.1, hnone.2] at this
  exact this

/-! ## The prefix -/

variable {base : Nat} {p s : List UInt8}

theorem detect_eq (base : Nat) (p : List UInt8) : detect base p = if (base = 0 ∨ base = 16) ∧ hasPrefix p then (16, p.drop 2)
    else (if base = 0 then (if p.head? = some '0'.toUInt8 then 8 else 10) else base, p) := by
  have hzero : hasPrefix p = true → p.head? = some '0'.toUInt8 := fun h => (of_decide_eq_true h).1
  unfold detect
  by_cases hp : hasPrefix p = true
  · rw [if_pos (hzero hp), if_pos (hzero hp)]
    by_cases h0 : base = 0 <;> by_cases h16 : base = 16 <;> simp [h0, h16, hp]
  · by_cases h0 : base = 0
    · by_cases hhead : p.head? = some '0'.toUInt8 <;> simp [h0, hp, hhead]
    · simp [h0, hp]

theorem detect_subject (h : (base = 0 ∨ base = 16) → hasPrefix p → (p.drop 2).head?.any (isDigit 16)) :
    detect base p = subject base p := by
  rw [detect_eq, subject]
  by_cases hp : (base = 0 ∨ base = 16) ∧ hasPrefix p
  · rw [if_pos hp, if_pos ⟨hp.1, hp.2, h hp.1 hp.2⟩]
  · rw [if_neg hp]
    exact (if_neg fun h' : _ ∧ _ ∧ _ => hp ⟨h'.1, h'.2.1⟩).symm

theorem length_subject (base : Nat) (p : List UInt8) : (subject base p).2.length ≤ p.length := by
  unfold subject
  split
  · exact (drop_sublist 2 p).length_le
  · exact Nat.le_refl _

theorem subject_of_none (h : (subject base p).2.head?.any (isDigit (subject base p).1) = false) :
    (subject base p).2 = p := by
  unfold subject at h ⊢
  split at h
  · rename_i hp
    exact absurd hp.2.2 (by rw [h]; decide)
  · rename_i hp
    rw [if_neg hp]

theorem length_sign (p : List UInt8) : (sign p).2.length ≤ p.length := by
  cases p with
  | nil => exact Nat.le_refl _
  | cons c p =>
    rw [sign]
    by_cases hminus : c = '-'.toUInt8
    · rw [if_pos hminus]
      exact Nat.le_succ _
    · rw [if_neg hminus]
      by_cases hplus : c = '+'.toUInt8
      · rw [if_pos hplus]
        exact Nat.le_succ _
      · rw [if_neg hplus]

/-- **A prefix without a digit**: the standard stops behind the 0, the code behind the `x`. -/
theorem bare_prefix (hbase : base = 0 ∨ base = 16) (hp : hasPrefix p = true)
    (h : (p.drop 2).head?.any (isDigit 16) = false) :
    digits (detect base p).1 (detect base p).2 0 = (0, p.drop 2) ∧
    (subject base p).2.head?.any (isDigit (subject base p).1) = true ∧
        (subject base p).2.dropWhile (isDigit (subject base p).1) ≠ p.drop 2 := by
  rw [detect_eq, if_pos ⟨hbase, hp⟩, subject, if_neg fun h' => by rw [h'.2.2] at h; cases h]
  refine ⟨digits_none h, ?_⟩
  obtain ⟨hzero, hx⟩ := of_decide_eq_true hp
  match p with
  | [c] => simp at hx
  | c :: x :: r =>
    cases hzero
    have hdigits : ∀ b ∈ [8, 16], isDigit b '0'.toUInt8 = true ∧ isDigit b 'x'.toUInt8 = false ∧
        isDigit b 'X'.toUInt8 = false := by
      decide
    have hb : (if base = 0 then (if ('0'.toUInt8 :: x :: r).head? = some '0'.toUInt8 then 8 else 10) else base) ∈
        [8, 16] := by
      rcases hbase with rfl | rfl
      · exact mem_cons_self
      · exact mem_cons_of_mem _ mem_cons_self
    generalize (if base = 0 then (if ('0'.toUInt8 :: x :: r).head? = some '0'.toUInt8 then 8 else 10) else base) = b at hb ⊢
    have hxdigit : isDigit b x = false := by
      rcases hx with hx | hx <;> cases hx
      · exact (hdigits b hb).2.1
      · exact (hdigits b hb).2.2
    refine ⟨(hdigits b hb).1, ?_⟩
    rw [dropWhile_cons, (hdigits b hb).1, if_pos rfl, dropWhile_cons, hxdigit]
    exact fun h => absurd (congrArg List.length h) (by simp)

/-! ## White space -/

theorem skip_isSpace : ∀ s : List UInt8, s.dropWhile isSpace = (skip s).dropWhile isSpace
  | [] => rfl
  | c :: s => by
    unfold skip
    rw [dropWhile_cons, dropWhile_cons]
    by_cases hc : c = 32 ∨ c = 9 ∨ c = 10
    · have hspace : isSpace c = true := by
        rcases hc with rfl | rfl | rfl <;> decide
      rw [hspace, if_pos rfl, if_pos (by simpa using hc)]
      exact skip_isSpace s
    · rw [if_neg (show ¬ (decide (c = 32 ∨ c = 9 ∨ c = 10)) = true by simpa using hc), dropWhile_cons]

theorem unknown_space {c : UInt8} (h : isSpace c = true) (hblank : ¬ (c = 32 ∨ c = 9 ∨ c = 10)) :
    c ≠ '-'.toUInt8 ∧ c ≠ '+'.toUInt8 ∧ c ≠ '0'.toUInt8 ∧ digit c = none := by
  rcases of_decide_eq_true h with h32 | ⟨hlo, hhi⟩
  · exact absurd (.inl h32) hblank
  have h9 : c.toNat ≠ (9 : UInt8).toNat := fun h => hblank (.inr (.inl (UInt8.toNat_inj.1 h)))
  have h10 : c.toNat ≠ (10 : UInt8).toNat := fun h => hblank (.inr (.inr (UInt8.toNat_inj.1 h)))
  have hlo := UInt8.le_iff_toNat_le.1 hlo
  have hhi := UInt8.le_iff_toNat_le.1 hhi
  simp only [UInt8.reduceToNat] at h9 h10 hlo hhi
  have hc : c = UInt8.ofNat c.toNat := (UInt8.ofNat_toNat).symm
  have hcases : c.toNat = 11 ∨ c.toNat = 12 ∨ c.toNat = 13 := by omega
  rcases hcases with h | h | h <;> rw [h] at hc <;> rw [hc] <;> decide

/-- **White space the code does not know** is not passed over and no digit. -/
theorem scan_unknown (h : skip s ≠ s.dropWhile isSpace) (base : Nat) :
    scan s base = (false, 0, skip s) ∧ (s.dropWhile isSpace).length < (skip s).length := by
  rw [skip_isSpace] at h ⊢
  cases hs : skip s with
  | nil =>
    rw [hs] at h
    exact absurd rfl h
  | cons c r =>
    rw [hs, dropWhile_cons] at h
    have hspace : isSpace c = true := by
      by_contra hspace
      rw [if_neg hspace] at h
      exact h rfl
    have hblank : ¬ (c = 32 ∨ c = 9 ∨ c = 10) := by
      have hstop := List.head?_dropWhile_not (fun c : UInt8 => decide (c = 32 ∨ c = 9 ∨ c = 10)) s
      rw [show s.dropWhile (fun c : UInt8 => decide (c = 32 ∨ c = 9 ∨ c = 10)) = c :: r from hs] at hstop
      exact of_decide_eq_false hstop
    obtain ⟨hminus, hplus, hzero, hdigit⟩ := unknown_space hspace hblank
    have hhead : (c :: r).head? ≠ some '0'.toUInt8 := fun h => hzero (Option.some.inj h)
    have hpref : hasPrefix (c :: r) = false := decide_eq_false fun h => hhead h.1
    constructor
    · rw [scan, hs, sign, if_neg hminus, if_neg hplus]
      dsimp only
      rw [detect_eq, if_neg fun h => by rw [hpref] at h; cases h.2]
      simp [digits, hdigit]
    · rw [dropWhile_cons, if_pos hspace, length_cons]
      exact Nat.lt_succ_of_le (dropWhile_sublist _).length_le

/-! ## The numbers -/

theorem fits_signed (neg : Bool) (n : Nat) : (if neg then -BitVec.ofNat 64 n else BitVec.ofNat 64 n).toInt =
    max (-2 ^ 63) (min (2 ^ 63 - 1) (if neg then -(n : Int) else n)) ↔ FitsSigned neg n := by
  cases neg with
  | false =>
    simp only [FitsSigned, Bool.false_eq_true, if_false, BitVec.toInt_eq_toNat_cond, BitVec.toNat_ofNat]
    by_cases hn : n < 2 ^ 63
    · rw [Nat.mod_eq_of_lt (hn.trans (by decide))]
      omega
    · rw [Int.min_eq_left (by omega)]
      omega
  | true =>
    simp only [FitsSigned, if_true, BitVec.toInt_eq_toNat_cond, BitVec.toNat_neg, BitVec.toNat_ofNat]
    by_cases hn : n ≤ 2 ^ 63
    · rw [Nat.mod_eq_of_lt (hn.trans_lt (by decide) : n < 2 ^ 64)]
      omega
    · rw [Int.min_eq_right (by omega), Int.max_eq_left (by omega)]
      omega

theorem fits_unsigned (neg : Bool) (n : Nat) : (BitVec.ofNat 64 n).toNat =
    (if 2 ^ 64 ≤ n then 2 ^ 64 - 1 else if neg then (2 ^ 64 - n) % 2 ^ 64 else n) ↔ FitsUnsigned neg n := by
  rw [BitVec.toNat_ofNat, FitsUnsigned]
  by_cases hn : n < 2 ^ 64
  · rw [if_neg (Nat.not_le.2 hn), if_pos hn, Nat.mod_eq_of_lt hn]
    cases neg with
    | false => exact ⟨fun _ h => absurd h Bool.false_ne_true, fun _ => rfl⟩
    | true =>
      rw [if_pos rfl, imp_iff_right rfl]
      obtain rfl | hpos := Nat.eq_zero_or_pos n
      · exact ⟨fun _ => .inl rfl, fun _ => rfl⟩
      · rw [Nat.mod_eq_of_lt (Nat.sub_lt (by decide) hpos)]
        omega
  · rw [if_pos (Nat.not_lt.1 hn), if_neg hn]

theorem length_parse {neg : Bool} {n : Nat} {rest : List UInt8} (h : parse s base = some (neg, n, rest)) :
    rest.length ≤ (s.dropWhile isSpace).length := by
  unfold parse at h
  dsimp only at h
  split at h
  · cases h
    exact ((dropWhile_sublist _).length_le.trans (length_subject base _)).trans (length_sign _)
  · cases h

/-- **Where the code and the standard agree**, for any reading of the value. -/
theorem scan_iff {α : Type*} (val : Bool → BitVec 64 → α) (std : Bool → Nat → α) (zero : α) (fits : Bool → Nat → Prop)
    (hzero : ∀ neg, val neg 0 = zero) (hfits : ∀ neg n, val neg (BitVec.ofNat 64 n) = std neg n ↔ fits neg n)
      (s : List UInt8)
    (base : Nat) : (val (scan s base).1 (scan s base).2.1, (scan s base).2.2) =
      (match parse s base with | none => (zero, s) | some (neg, n, p) => (std neg n, p)) ↔ Right fits s base := by
  unfold Right
  by_cases hskip : skip s ≠ s.dropWhile isSpace
  · obtain ⟨hscan, hlt⟩ := scan_unknown hskip base
    rw [if_pos hskip, hscan]
    cases hparse : parse s base with
    | none =>
      rw [hzero]
      simp
    | some r =>
      have hle := length_parse (show parse s base = some (r.1, r.2.1, r.2.2) from hparse)
      refine ⟨fun h => ?_, fun h => by cases h.2⟩
      have hend : (skip s).length = r.2.2.length := congrArg (fun q => q.2.length) h
      rw [← hend] at hle
      exact absurd hlt (Nat.not_lt.2 hle)
  · have hsame := not_not.1 hskip
    rw [if_neg hskip]
    unfold scan parse
    rw [← hsame]
    dsimp only
    generalize sign (skip s) = r
    obtain ⟨neg, p⟩ := r
    dsimp only
    by_cases hbare : (base = 0 ∨ base = 16) → hasPrefix p → (p.drop 2).head?.any (isDigit 16)
    · rw [detect_subject hbare]
      have hnone := @subject_of_none base p
      generalize subject base p = q at hnone ⊢
      by_cases hd : q.2.head?.any (isDigit q.1) = true
      · have hdigits := digits_eq q.1 q.2 0
        rw [if_pos hd, show (0 : BitVec 64) = BitVec.ofNat 64 0 from rfl, hdigits]
        simp only [Prod.mk.injEq, and_true, hfits]
        exact ⟨fun h => ⟨hbare, h⟩, fun h => h.2⟩
      · have hd' := Bool.eq_false_iff.2 hd
        rw [if_neg hd, digits_none hd', hnone hd', hzero]
        simp only [Prod.mk.injEq, true_and]
        exact ⟨fun h => ⟨hbare, h⟩, fun h => h.2⟩
    · obtain ⟨hbase, hpref, hhex⟩ : (base = 0 ∨ base = 16) ∧ hasPrefix p = true ∧
          ¬ (p.drop 2).head?.any (isDigit 16) = true := by
        simpa [Classical.not_imp] using hbare
      obtain ⟨hcode, hd, hne⟩ := bare_prefix hbase hpref (Bool.eq_false_iff.2 hhex)
      rw [if_pos hd, hcode]
      exact ⟨fun h => absurd (congrArg Prod.snd h).symm hne, fun h => absurd h.1 hbare⟩

/-- **`strtol` and its kin against the standard**: for every string and every base, the value and the end pointer are the
standard's just where the conditions hold. -/
theorem strtol_conforms (s : List UInt8) (base : Nat) :
    (((strtol s base).1.toInt, (strtol s base).2) = signed s base ↔ Right FitsSigned s base) ∧
      (((strtoll s base).1.toInt, (strtoll s base).2) = signed s base ↔ Right FitsSigned s base) ∧
        (((strtoul s base).1.toNat, (strtoul s base).2) = unsigned s base ↔ Right FitsUnsigned s base) ∧
          (((strtoull s base).1.toNat, (strtoull s base).2) = unsigned s base ↔ Right FitsUnsigned s base) := by
  have hsigned := scan_iff (fun neg res => (if neg then -res else res).toInt) (fun neg n => max (-2 ^ 63) (min (2 ^ 63 - 1)
    (if neg then -(n : Int) else n))) 0 FitsSigned (by decide) fits_signed s base
  have hunsigned := scan_iff (fun _ res => res.toNat) (fun neg n => if 2 ^ 64 ≤ n then 2 ^ 64 - 1
    else if neg then (2 ^ 64 - n) % 2 ^ 64 else n) 0 FitsUnsigned (fun _ => rfl) fits_unsigned s base
  exact ⟨hsigned, hsigned, hunsigned, hunsigned⟩

/-- The end pointer for `0x` in base 16 stands behind the `x`. -/
theorem strtol_bare_prefix : ¬ ∀ s base, base = 0 ∨ 2 ≤ base ∧ base ≤ 36 →
    ((strtol s base).1.toInt, (strtol s base).2) = signed s base := by
  intro hall
  have := hall ['0'.toUInt8, 'x'.toUInt8] 16 (by decide)
  revert this
  decide

end EterOS.Strtol
