import EterOS.Text.Vsnprintf
import Mathlib.Data.Nat.Digits.Lemmas
/-!
# Vcbprintf — `userspace/libc/src/stdio.c`

The formatter of the C library against 7.21.6.1 of the C standard.  `out` and `arg` are any function and what it works on. 
The pointer format, which the standard leaves open, is `0x` and the address.
-/
namespace EterOS.Printf

open List
open Kprintf (Arg number vaInteger)

structure Flags where
  minus : Bool := false
  plus : Bool := false
  space : Bool := false
  hash : Bool := false
  zero : Bool := false

inductive Conv
  | d | i | u | x | X | o | p | s | c
  deriving DecidableEq

def Conv.char : Conv → UInt8
  | d => 'd'.toUInt8
  | i => 'i'.toUInt8
  | u => 'u'.toUInt8
  | x => 'x'.toUInt8
  | X => 'X'.toUInt8
  | o => 'o'.toUInt8
  | p => 'p'.toUInt8
  | s => 's'.toUInt8
  | c => 'c'.toUInt8

def Conv.base : Conv → Nat
  | x | X | p => 16
  | o => 8
  | _ => 10

theorem Conv.one_lt_base (k : Conv) : 1 < k.base := by cases k <;> decide

def conv? (spec : UInt8) : Option Conv := [.d, .i, .u, .x, .X, .o, .p, .s, .c].find? (Conv.char · = spec)

def digit (k : Conv) (d : Nat) : UInt8 :=
  UInt8.ofNat (if d < 10 then d + '0'.toNat else d - 10 + if k = .X then 'A'.toNat else 'a'.toNat)

/-! ## The output -/

section
variable {σ : Type*} (out : UInt8 → σ → σ)

def put (c : UInt8) (s : σ × Nat) : σ × Nat := (out c s.1, s.2 + 1)

/-- `while (n--) { out(c, arg); count++; }`, from an `n` that is not negative. -/
def putN (c : UInt8) : Nat → σ × Nat → σ × Nat
  | 0, s => s
  | n + 1, s => putN c n (put out c s)

def puts (text : List UInt8) (s : σ × Nat) : σ × Nat := text.foldl (fun s c => put out c s) s

/-- The loop that fills `buf` from the last digit on, and what it leaves of `val`. -/
def fill (k : Conv) (val : Nat) : List UInt8 × Nat :=
  if _h : val = 0 then ([], val)
  else
    let filled := fill k (val / k.base)
    (digit k (val % k.base) :: filled.1, filled.2)
termination_by val
decreasing_by exact Nat.div_lt_self (Nat.pos_of_ne_zero _h) k.one_lt_base

/-- The end of both integer branches: sign or prefix, zeros and `buf`, in the field. -/
def putNumber (f : Flags) (width : Nat) (pre : List UInt8) (zeros : Nat) (buf : List UInt8) (s : σ × Nat) : σ × Nat :=
  let padding := width - (buf.length + zeros + pre.length)
  let s := if !f.minus && !f.zero then putN out ' '.toUInt8 padding s else s
  let s := puts out pre s
  let s := if !f.minus && f.zero then putN out '0'.toUInt8 padding s else s
  let s := puts out buf.reverse (putN out '0'.toUInt8 zeros s)
  if f.minus then putN out ' '.toUInt8 padding s else s

def putSigned (f : Flags) (width : Nat) (prec : Int) (val : BitVec 64) : σ × Nat → σ × Nat :=
  let neg := val.toInt < 0
  let uval := if neg then -val else val
  let buf := if uval = 0 then (if prec ≠ 0 then ['0'.toUInt8] else []) else (fill .d uval.toNat).1
  let sign := if neg then ['-'.toUInt8] else if f.plus then ['+'.toUInt8] else if f.space then [' '.toUInt8] else []
  putNumber out f width sign (prec - buf.length).toNat buf

/-- The prefix is looked for in what the loop has left of the value. -/
def putUnsigned (k : Conv) (f : Flags) (width : Nat) (prec : Int) (val : BitVec 64) : σ × Nat → σ × Nat :=
  let filled := if val = 0 then ((if prec ≠ 0 then ['0'.toUInt8] else []), val.toNat) else fill k val.toNat
  let buf := filled.1
  let val := filled.2
  let pre := if k = .p ∨ f.hash ∧ val ≠ 0 ∧ k.base = 16 then ['0'.toUInt8, (if k = .X then 'X' else 'x').toUInt8]
    else if f.hash ∧ val ≠ 0 ∧ k.base = 8 then ['0'.toUInt8] else []
  putNumber out f width pre (prec - buf.length).toNat buf

def putText (f : Flags) (padding : Nat) (text : List UInt8) (s : σ × Nat) : σ × Nat :=
  let s := if !f.minus then putN out ' '.toUInt8 padding s else s
  let s := puts out text s
  if f.minus then putN out ' '.toUInt8 padding s else s

structure Spec where
  flags : Flags
  width : Nat
  prec : Int
  long : Bool

def conversion (d : Spec) (spec : UInt8) (ap : List Arg) (s : σ × Nat) : Option ((σ × Nat) × List Arg) :=
  match conv? spec with
  | none => some (if spec = '%'.toUInt8 then put out '%'.toUInt8 s else s, ap)
  | some .s =>
    match ap with
    | .str str :: ap =>
      let str := str.getD ("(null)".toList.map Char.toUInt8)
      let len := (BitVec.ofNat 32 str.length).toInt
      let len := if 0 ≤ d.prec ∧ d.prec < len then d.prec else len
      some (putText out d.flags (d.width - len).toNat (str.take len.toNat) s, ap)
    | _ => none
  | some .c =>
    match ap with
    | .int v :: ap => some (putText out d.flags (d.width - 1) [UInt8.ofNat v.toNat] s, ap)
    | _ => none
  | some .p =>
    match ap with
    | .ptr v :: ap => some (putUnsigned out .p d.flags d.width d.prec v s, ap)
    | _ => none
  | some k =>
    if k = .d ∨ k = .i then
      (vaInteger d.long (·.signExtend 64) ap).map fun (v, ap) => (putSigned out d.flags d.width d.prec v s, ap)
    else (vaInteger d.long (·.setWidth 64) ap).map fun (v, ap) => (putUnsigned out k d.flags d.width d.prec v s, ap)

end

/-! ## The format -/

def flags : List UInt8 → Flags → Flags × List UInt8
  | [], f => (f, [])
  | c :: p, f =>
    if c = '-'.toUInt8 then flags p { f with minus := true }
    else if c = '+'.toUInt8 then flags p { f with plus := true }
    else if c = ' '.toUInt8 then flags p { f with space := true }
    else if c = '#'.toUInt8 then flags p { f with hash := true }
    else if c = '0'.toUInt8 then flags p { f with zero := true }
    else (f, c :: p)

/-- A star's argument; a negative width sets the flag, and that of the smallest `int` is not an `int`. -/
def starWidth (f : Flags) : List Arg → Option (Flags × Nat × List Arg)
  | .int v :: ap =>
    if v.toInt < 0 then if v = BitVec.intMin 32 then none else some ({ f with minus := true }, v.toInt.natAbs, ap)
    else some (f, v.toInt.toNat, ap)
  | _ => none

def starPrec : List Arg → Option (Int × List Arg)
  | .int v :: ap => some (v.toInt, ap)
  | _ => none

def width (f : Flags) (p : List UInt8) (ap : List Arg) : Option (Flags × Nat × List UInt8 × List Arg) :=
  if p.head? = some '*'.toUInt8 then (starWidth f ap).map fun (f, w, ap) => (f, w, p.tail, ap)
  else (number p 0).map fun (w, p) => (f, w, p, ap)

def precision (p : List UInt8) (ap : List Arg) : Option (Int × List UInt8 × List Arg) :=
  if p.head? = some '.'.toUInt8 then
    if p.tail.head? = some '*'.toUInt8 then (starPrec ap).map fun (n, ap) => (n, p.tail.tail, ap)
    else (number p.tail 0).map fun (n, p) => ((n : Int), p, ap)
  else some (-1, p, ap)

/-- Whether the argument has 64 bits; `h` and `hh` are only passed over. -/
def length (p : List UInt8) : Bool × List UInt8 :=
  if p.head? = some 'l'.toUInt8 then (true, if p.tail.head? = some 'l'.toUInt8 then p.tail.tail else p.tail)
  else if p.head? = some 'h'.toUInt8 then (false, if p.tail.head? = some 'h'.toUInt8 then p.tail.tail else p.tail)
  else if p.head? = some 'z'.toUInt8 then (true, p.tail)
  else (false, p)

def directive (p : List UInt8) (ap : List Arg) : Option (Spec × List UInt8 × List Arg) :=
  let (f, p) := flags p {}
  (width f p ap).bind fun (f, w, p, ap) =>
    (precision p ap).map fun (prec, p, ap) =>
      let (long, p) := length p
      (⟨f, w, prec, long⟩, p, ap)

theorem length_flags (p : List UInt8) (f : Flags) : (flags p f).2.length ≤ p.length := by
  fun_induction flags p f <;> simp_all <;> omega

theorem length_tail (p : List UInt8) : p.tail.length ≤ p.length := by
  rw [List.length_tail]
  exact Nat.sub_le _ _

variable {p q : List UInt8} {ap aq : List Arg}

theorem length_width {f g : Flags} {w : Nat} (h : width f p ap = some (g, w, q, aq)) : q.length ≤ p.length := by
  unfold width at h
  split at h
  · obtain ⟨⟨g', w', aq'⟩, -, heq⟩ := Option.map_eq_some_iff.1 h
    cases heq
    exact length_tail p
  · obtain ⟨⟨w', q'⟩, hn, heq⟩ := Option.map_eq_some_iff.1 h
    cases heq
    exact Kprintf.length_number hn

theorem length_precision {n : Int} (h : precision p ap = some (n, q, aq)) : q.length ≤ p.length := by
  have htail := length_tail p
  unfold precision at h
  split at h
  · split at h
    · obtain ⟨⟨n', aq'⟩, -, heq⟩ := Option.map_eq_some_iff.1 h
      cases heq
      exact (length_tail p.tail).trans htail
    · obtain ⟨⟨n', q'⟩, hn, heq⟩ := Option.map_eq_some_iff.1 h
      cases heq
      exact (Kprintf.length_number hn).trans htail
  · cases h
    exact Nat.le_refl _

theorem length_length (p : List UInt8) : (length p).2.length ≤ p.length := by
  unfold length
  grind

theorem length_directive {d : Spec} (h : directive p ap = some (d, q, aq)) : q.length ≤ p.length := by
  unfold directive at h
  obtain ⟨⟨f, w, p1, ap1⟩, hw, h⟩ := Option.bind_eq_some_iff.1 h
  obtain ⟨⟨n, p2, ap2⟩, hn, h⟩ := Option.map_eq_some_iff.1 h
  cases h
  exact (length_length p2).trans ((length_precision hn).trans ((length_width hw).trans (length_flags p _)))

section
variable {σ : Type*} (out : UInt8 → σ → σ)

/-- `while (*p)`, on the bytes before the NUL; `none` where an argument has another type or a number is beyond an `int`. -/
def loop (p : List UInt8) (ap : List Arg) (s : σ × Nat) : Option (σ × Nat) :=
  match p with
  | [] => some s
  | c :: p =>
    if c ≠ '%'.toUInt8 then loop p ap (put out c s)
    else
      match _hd : directive p ap with
      | none => none
      | some (_, [], _) => some s
      | some (d, spec :: q, ap) =>
        match conversion out d spec ap s with
        | none => none
        | some (s, ap) => loop q ap s
termination_by p.length
decreasing_by
  · exact Nat.lt_succ_self _
  · have := length_directive _hd
    rw [length_cons] at this ⊢
    omega

/-- What has become of `arg`, and the count. -/
def vcbprintf (fmt : List UInt8) (ap : List Arg) (arg : σ) : Option (σ × Int) :=
  (loop out fmt ap (arg, 0)).map fun s => (s.1, (BitVec.ofNat 32 s.2).toInt)

end

/-! ## What is handed over -/

/-- Text in a field: to the left, behind spaces, or with zeros between its two parts. -/
def field (minus zero : Bool) (width : Nat) (pre body : List UInt8) : List UInt8 :=
  let padding := width - (pre ++ body).length
  if minus then pre ++ body ++ List.replicate padding ' '.toUInt8
  else if zero then pre ++ List.replicate padding '0'.toUInt8 ++ body
  else List.replicate padding ' '.toUInt8 ++ pre ++ body

def numeral (k : Conv) (n : Nat) : List UInt8 :=
  if n = 0 then ['0'.toUInt8] else ((Nat.digits k.base n).map (digit k)).reverse

/-- At least as many digits as the precision has, and none of 0 with a precision of 0. -/
def body (k : Conv) (prec : Option Nat) (v : Int) : List UInt8 :=
  let digits := if v = 0 ∧ prec = some 0 then [] else numeral k v.natAbs
  List.replicate (prec.getD 1 - digits.length) '0'.toUInt8 ++ digits

/-- The sign, or the prefix of the alternative form, where `alt` says that there is one. -/
def lead (k : Conv) (f : Flags) (v : Int) (alt : Bool) : List UInt8 :=
  match k with
  | .d | .i =>
    if v < 0 then ['-'.toUInt8] else if f.plus then ['+'.toUInt8] else if f.space then [' '.toUInt8] else []
  | .o => if f.hash && alt then ['0'.toUInt8] else []
  | .x | .X => if f.hash && alt then ['0'.toUInt8, k.char] else []
  | .p => ['0'.toUInt8, 'x'.toUInt8]
  | _ => []

def given (prec : Int) : Option Nat := if prec < 0 then none else some prec.toNat

/-- An integer, as the code has it: the flag for zeros counts with a precision too, and no alternative form has a prefix. -/
def number' (k : Conv) (f : Flags) (width : Nat) (prec : Int) (v : Int) : List UInt8 :=
  field f.minus f.zero width (lead k f v false) (body k (given prec) v)

section
variable {σ : Type*} (out : UInt8 → σ → σ)

theorem puts_append (a b : List UInt8) (s : σ × Nat) : puts out (a ++ b) s = puts out b (puts out a s) := foldl_append

theorem puts_eq : ∀ (text : List UInt8) (s : σ × Nat),
    puts out text s = (text.foldl (fun a c => out c a) s.1, s.2 + text.length)
  | [], _ => rfl
  | c :: text, s => by
    rw [puts, foldl_cons, ← puts, puts_eq text, foldl_cons, length_cons, put, Nat.add_assoc, Nat.add_comm 1]

theorem putN_eq (c : UInt8) : ∀ (n : Nat) (s : σ × Nat), putN out c n s = puts out (List.replicate n c) s
  | 0, _ => rfl
  | n + 1, s => putN_eq c n (put out c s)

theorem putNumber_eq (f : Flags) (width : Nat) (pre : List UInt8) (zeros : Nat) (buf : List UInt8) (s : σ × Nat) :
    putNumber out f width pre zeros buf s =
      puts out (field f.minus f.zero width pre (List.replicate zeros '0'.toUInt8 ++ buf.reverse)) s := by
  have hlen : buf.length + zeros + pre.length = (pre ++ (List.replicate zeros '0'.toUInt8 ++ buf.reverse)).length := by
    simp only [length_append, length_replicate, length_reverse]
    omega
  unfold putNumber field
  rw [hlen]
  cases f.minus <;> cases f.zero <;> simp [putN_eq, puts_append]

theorem putText_puts (f : Flags) (padding : Nat) (text : List UInt8) (s : σ × Nat) : putText out f padding text s =
    puts out (if f.minus then text ++ List.replicate padding ' '.toUInt8
      else List.replicate padding ' '.toUInt8 ++ text) s := by
  unfold putText
  cases f.minus <;> simp [putN_eq, puts_append]

theorem putText_eq (f : Flags) (width : Nat) (text : List UInt8) (s : σ × Nat) :
    putText out f (width - text.length) text s = puts out (field f.minus false width [] text) s := by
  rw [putText_puts, field]
  cases f.minus <;> simp

/-- The loop goes on until nothing is left. -/
theorem fill_eq (k : Conv) (n : Nat) : fill k n = ((Nat.digits k.base n).map (digit k), 0) := by
  induction n using Nat.strongRecOn with
  | ind n ih =>
    rw [fill]
    by_cases hn : n = 0
    · rw [dif_pos hn, hn, Nat.digits_zero, map_nil]
    · rw [dif_neg hn, Nat.digits_def' k.one_lt_base (Nat.pos_of_ne_zero hn), map_cons,
        ih _ (Nat.div_lt_self (Nat.pos_of_ne_zero hn) k.one_lt_base)]

theorem length_numeral_pos (k : Conv) (n : Nat) : 1 ≤ (numeral k n).length := by
  unfold numeral
  split
  · exact Nat.le_refl _
  · rename_i hn
    rw [length_reverse, length_map]
    exact length_pos_iff.2 (Nat.digits_ne_nil_iff_ne_zero.2 hn)

theorem body_eq (k : Conv) (prec : Int) (v : Int) (n : Nat) (hn : n = v.natAbs) {buf : List UInt8}
    (hbuf : buf = if n = 0 then (if prec ≠ 0 then ['0'.toUInt8] else []) else (fill k n).1) :
    List.replicate (prec - buf.length).toNat '0'.toUInt8 ++ buf.reverse = body k (given prec) v := by
  have hdigits : buf.reverse = if v = 0 ∧ given prec = some 0 then [] else numeral k v.natAbs := by
    rw [hbuf, numeral, fill_eq, ← hn, given]
    grind
  have hzeros : (prec - buf.length).toNat = (given prec).getD 1 - buf.reverse.length := by
    have := length_numeral_pos k v.natAbs
    by_cases hp : prec < 0
    · have hgiven : given prec = none := if_pos hp
      rw [hgiven, if_neg (by simp)] at hdigits
      rw [hgiven, hdigits, Option.getD_none]
      omega
    · have hgiven : given prec = some prec.toNat := if_neg hp
      rw [length_reverse, hgiven, Option.getD_some]
      omega
  rw [body, hzeros, hdigits]

theorem putSigned_eq {k : Conv} (hk : k = .d ∨ k = .i) (f : Flags) (width : Nat) (prec : Int) (val : BitVec 64)
    (s : σ × Nat) :
    putSigned out f width prec val s = puts out (number' k f width prec val.toInt) s := by
  have hn : (if val.toInt < 0 then -val else val).toNat = val.toInt.natAbs := by
    have hlt := val.isLt
    rw [apply_ite BitVec.toNat, BitVec.toNat_neg, BitVec.toInt_eq_toNat_cond]
    by_cases hneg : 2 * val.toNat < 2 ^ 64
    · rw [if_pos hneg, if_neg (by omega)]
      omega
    · rw [if_neg hneg, if_pos (by omega)]
      omega
  have hfill : ∀ n, fill .d n = fill k n := by
    intro n
    rw [fill_eq, fill_eq]
    rcases hk with rfl | rfl <;> rfl
  have hlead : lead k f val.toInt false = if val.toInt < 0 then ['-'.toUInt8]
      else if f.plus then ['+'.toUInt8] else if f.space then [' '.toUInt8] else [] := by
    rcases hk with rfl | rfl <;> rfl
  unfold putSigned
  rw [putNumber_eq, number', hlead, body_eq k prec val.toInt _ hn]
  rw [hfill]
  simp only [BitVec.toNat_eq]
  rfl

theorem putUnsigned_eq {k : Conv} (hk : ¬ (k = .d ∨ k = .i ∨ k = .s ∨ k = .c)) (f : Flags) (width : Nat) (prec : Int)
    (val : BitVec 64) (s : σ × Nat) :
    putUnsigned out k f width prec val s = puts out (number' k f width prec val.toNat) s := by
  -- nothing of the value is left when the prefix is looked for
  have hleft : (if val = 0 then ((if prec ≠ 0 then ['0'.toUInt8] else []), val.toNat) else fill k val.toNat) =
      ((if val.toNat = 0 then (if prec ≠ 0 then ['0'.toUInt8] else []) else (fill k val.toNat).1), 0) := by
    simp only [BitVec.toNat_eq, fill_eq]
    change (if val.toNat = 0 then _ else _) = _
    split
    · rename_i hval
      rw [hval]
    · rfl
  have hlead : lead k f val.toNat false = if k = .p then ['0'.toUInt8, 'x'.toUInt8] else [] := by
    cases k <;> simp_all [lead]
  unfold putUnsigned
  rw [hleft, putNumber_eq, number', hlead, body_eq k prec val.toNat val.toNat rfl rfl]
  by_cases hp : k = .p
  · subst hp
    rfl
  · simp [hp]

end

/-! ## Formats -/

inductive Flag
  | minus | plus | space | hash | zero
  deriving DecidableEq

def Flag.char : Flag → UInt8
  | minus => '-'.toUInt8
  | plus => '+'.toUInt8
  | space => ' '.toUInt8
  | hash => '#'.toUInt8
  | zero => '0'.toUInt8

def Flag.set (f : Flags) : Flag → Flags
  | minus => { f with minus := true }
  | plus => { f with plus := true }
  | space => { f with space := true }
  | hash => { f with hash := true }
  | zero => { f with zero := true }

inductive Amount
  | digits (ds : List (Fin 10))
  | star

def Amount.spell : Amount → List UInt8
  | digits ds => ds.map fun d : Fin 10 => digit .d d
  | star => ['*'.toUInt8]

def value (ds : List (Fin 10)) (n : Nat) : Nat := ds.foldl (fun n (d : Fin 10) => n * 10 + d) n

inductive Length
  | none | hh | h | l | ll | z
  deriving DecidableEq

def Length.spell : Length → List UInt8
  | none => []
  | hh => ['h'.toUInt8, 'h'.toUInt8]
  | h => ['h'.toUInt8]
  | l => ['l'.toUInt8]
  | ll => ['l'.toUInt8, 'l'.toUInt8]
  | z => ['z'.toUInt8]

def Length.long : Length → Bool
  | l | ll | z => true
  | _ => false

structure Directive where
  flags : List Flag
  width : Amount
  prec : Option Amount
  length : Length
  conv : Conv
  width_start : ∀ ds, width = .digits ds → ds.head? ≠ some 0

namespace Directive
variable (d : Directive)

def precSpell : List UInt8 := d.prec.elim [] fun n => '.'.toUInt8 :: n.spell

def spell : List UInt8 := d.flags.map Flag.char ++ (d.width.spell ++ (d.precSpell ++ (d.length.spell ++ [d.conv.char])))

/-- The flags, the width and the precision (negative, where there is none); a number is an `int`. -/
def request (ap : List Arg) : Option (Flags × Nat × Int × List Arg) :=
  let f := d.flags.foldl Flag.set {}
  (match d.width with
    | .digits ds => if value ds 0 < 2 ^ 31 then some (f, value ds 0, ap) else none
    | .star => starWidth f ap).bind fun (f, w, ap) =>
  (match d.prec with
    | none => some (-1, ap)
    | some (.digits ds) => if value ds 0 < 2 ^ 31 then some ((value ds 0 : Int), ap) else none
    | some .star => starPrec ap).map fun (n, ap) => (f, w, n, ap)

end Directive

theorem le_value : ∀ (ds : List (Fin 10)) (n : Nat), n ≤ value ds n
  | [], _ => Nat.le_refl _
  | d :: ds, n => by
    have := le_value ds (n * 10 + d)
    rw [value, foldl_cons, ← value]
    omega

theorem number_spell (hq : ∀ c ∈ q.head?, c < '0'.toUInt8 ∨ '9'.toUInt8 < c) : ∀ (ds : List (Fin 10)) (n : Nat), n < 2 ^ 31 →
      number (ds.map (fun d : Fin 10 => digit .d d) ++ q) n = if value ds n < 2 ^ 31 then some (value ds n, q) else none
  | [], n, hn => by
    have hval : value [] n = n := rfl
    rw [hval, if_pos hn, map_nil, nil_append]
    cases q with
    | nil => rfl
    | cons c q =>
      have hc : ¬ ('0'.toUInt8 ≤ c ∧ c ≤ '9'.toUInt8) := by
        rintro ⟨hlo, hhi⟩
        exact (hq c rfl).elim (fun h => absurd hlo (UInt8.not_le.2 h)) fun h => absurd hhi (UInt8.not_le.2 h)
      rw [number, if_neg hc]
  | d :: ds, n, _ => by
    have hdigit : '0'.toUInt8 ≤ digit .d d ∧ digit .d d ≤ '9'.toUInt8 ∧ (digit .d d).toNat - '0'.toNat = d := by
      revert d
      decide
    rw [map_cons, cons_append, number, if_pos ⟨hdigit.1, hdigit.2.1⟩, hdigit.2.2]
    have hval : value (d :: ds) n = value ds (n * 10 + d) := rfl
    rw [hval]
    by_cases hlt : n * 10 + d < 2 ^ 31
    · rw [if_pos hlt, number_spell hq ds _ hlt]
    · have := le_value ds (n * 10 + d)
      rw [if_neg hlt, if_neg (by omega)]

theorem length_head (m : Length) (k : Conv) (q : List UInt8) : ∃ c r, m.spell ++ k.char :: q = c :: r ∧ 'A'.toUInt8 ≤ c := by
  cases m with
  | none => exact ⟨k.char, q, rfl, by cases k <;> decide⟩
  | _ => exact ⟨_, _, rfl, by decide⟩

theorem length_spell (m : Length) (k : Conv) (q : List UInt8) : length (m.spell ++ k.char :: q) = (m.long, k.char :: q) := by
  have hchar : k.char ≠ 'l'.toUInt8 ∧ k.char ≠ 'h'.toUInt8 ∧ k.char ≠ 'z'.toUInt8 := by cases k <;> decide
  cases m <;> simp [length, Length.spell, Length.long, hchar] <;> decide

theorem flags_spell (hq : ∀ c ∈ q.head?, ∀ fl : Flag, c ≠ fl.char) :
    ∀ (fs : List Flag) (f : Flags), flags (fs.map Flag.char ++ q) f = (fs.foldl Flag.set f, q)
  | [], f => by
    cases q with
    | nil => rfl
    | cons c q =>
      have hne := hq c rfl
      exact (if_neg (hne .minus)).trans ((if_neg (hne .plus)).trans ((if_neg (hne .space)).trans ((if_neg (hne .hash)).trans
        (if_neg (hne .zero)))))
  | fl :: fs, f => by cases fl <;> exact flags_spell hq fs _

theorem digits_head (ds : List (Fin 10)) {P : UInt8 → Prop} (hd : ∀ d ∈ ds.head?, P (digit .d (d : Fin 10)))
    (hq : ∀ c ∈ q.head?, P c) : ∀ c ∈ (ds.map (fun d : Fin 10 => digit .d d) ++ q).head?, P c := by
  cases ds with
  | nil => exact hq
  | cons d ds =>
    rintro c ⟨⟩
    exact hd d rfl

theorem digits_ne_star (ds : List (Fin 10)) (hq : ∀ c ∈ q.head?, c ≠ '*'.toUInt8) :
    (ds.map (fun d : Fin 10 => digit .d d) ++ q).head? ≠ some '*'.toUInt8 := by
  have hne : ∀ d : Fin 10, digit .d d ≠ '*'.toUInt8 := by decide
  exact fun h => digits_head ds (fun d _ => hne d) hq _ h rfl

theorem directive_spell (d : Directive) (q : List UInt8) (ap : List Arg) : directive (d.spell ++ q) ap =
    (d.request ap).map fun (f, w, n, ap) => (⟨f, w, n, d.length.long⟩, d.conv.char :: q, ap) := by
  obtain ⟨c, r, hletter, hc⟩ := length_head d.length d.conv q
  have hlength := length_spell d.length d.conv q
  rw [hletter] at hlength
  have hbelow {b : UInt8} (hb : b < 'A'.toUInt8) : c ≠ b := fun h => UInt8.not_le.2 hb (h ▸ hc)
  have hprec (ap : List Arg) : precision (d.precSpell ++ (c :: r)) ap = (match d.prec with
      | none => some (-1, ap)
      | some (.digits ds) => if value ds 0 < 2 ^ 31 then some ((value ds 0 : Int), ap) else none
      | some .star => starPrec ap).map fun (n, ap) => (n, c :: r, ap) := by
    unfold Directive.precSpell precision
    match d.prec with
    | none => exact if_neg fun h => hbelow (by decide) (Option.some.inj h)
    | some .star => rfl
    | some (.digits ds) =>
      have hstar := digits_ne_star ds (q := c :: r) (by
        rintro b ⟨⟩
        exact hbelow (by decide))
      have hnum := number_spell (q := c :: r) (by
        rintro b ⟨⟩
        exact .inr (UInt8.lt_of_lt_of_le (by decide) hc)) ds 0 (by decide)
      simp only [Option.elim, Amount.spell, cons_append, List.head?_cons, tail_cons, if_true, if_neg hstar, hnum]
      split <;> rfl
  -- behind the width: a dot or a letter
  have hdot : ∀ b ∈ (d.precSpell ++ (c :: r)).head?, b = '.'.toUInt8 ∨ 'A'.toUInt8 ≤ b := by
    unfold Directive.precSpell
    cases d.prec with
    | none =>
      rintro b ⟨⟩
      exact .inr hc
    | some n =>
      rintro b ⟨⟩
      exact .inl rfl
  have hdot' : ∀ b ∈ (d.precSpell ++ (c :: r)).head?, b ≠ '*'.toUInt8 ∧ (b < '0'.toUInt8 ∨ '9'.toUInt8 < b) ∧
      ∀ fl : Flag, b ≠ fl.char := by
    intro b hb
    rcases hdot b hb with rfl | hle
    · exact ⟨by decide, .inl (by decide), fun fl => by cases fl <;> decide⟩
    · have hlt {a : UInt8} (ha : a < 'A'.toUInt8) : b ≠ a := fun h => UInt8.not_le.2 ha (h ▸ hle)
      exact ⟨hlt (by decide), .inr (UInt8.lt_of_lt_of_le (by decide) hle), fun fl => hlt (by cases fl <;> decide)⟩
  have hwidth (f : Flags) : width f (d.width.spell ++ (d.precSpell ++ (c :: r))) ap = (match d.width with
      | .digits ds => if value ds 0 < 2 ^ 31 then some (f, value ds 0, ap) else none
      | .star => starWidth f ap).map fun (f, w, ap) => (f, w, d.precSpell ++ (c :: r), ap) := by
    unfold width
    match d.width with
    | .star => rfl
    | .digits ds =>
      have hstar := digits_ne_star ds fun b hb => (hdot' b hb).1
      have hnum := number_spell (fun b hb => (hdot' b hb).2.1) ds 0 (by decide)
      simp only [Amount.spell, if_neg hstar, hnum]
      split <;> rfl
  have hdigit : ∀ (b : Fin 10) (fl : Flag), b ≠ 0 → digit .d b ≠ fl.char := by
    intro b fl
    cases fl <;> revert b <;> decide
  have hflags := flags_spell (q := d.width.spell ++ (d.precSpell ++ (c :: r))) (by
    have hstart := d.width_start
    match hw : d.width with
    | .star =>
      rintro b ⟨⟩ fl
      cases fl <;> decide
    | .digits ds =>
      refine digits_head ds (fun b hb fl => ?_) fun b hb => (hdot' b hb).2.2
      exact hdigit b fl fun h => hstart ds hw (h ▸ hb)) d.flags {}
  have hspell : d.spell ++ q = d.flags.map Flag.char ++ (d.width.spell ++ (d.precSpell ++ (c :: r))) := by
    rw [← hletter]
    simp [Directive.spell]
  unfold directive Directive.request
  rw [hspell, hflags]
  dsimp only
  rw [hwidth, Option.bind_map, Option.map_bind]
  congr 1
  funext ⟨f, w, aq⟩
  simp only [Function.comp_apply, hprec, Option.map_map]
  generalize (match d.prec with | none => _ | some (.digits ds) => _ | some .star => _ : Option (Int × List Arg)) = r
  cases r with
  | none => rfl
  | some r => simp [hlength]

/-! ## What the standard prescribes -/

/-- Where the alternative form has a prefix: the digits of `o` do not begin with a zero, and what `x` and `X` print is not
0. -/
def alternative (k : Conv) (prec : Option Nat) (v : Int) : Bool :=
  if k = .o then (body k prec v).head? ≠ some '0'.toUInt8 else v ≠ 0

/-- An integer, as the standard has it: with a precision the flag for zeros does not count. -/
def prescribed (k : Conv) (f : Flags) (width : Nat) (prec : Option Nat) (v : Int) : List UInt8 :=
  field f.minus (f.zero && prec.isNone) width (lead k f v (alternative k prec v)) (body k prec v)

def Conv.read (k : Conv) {w : Nat} (v : BitVec w) : Int := if k = .d ∨ k = .i then v.toInt else v.toNat

/-- An integer argument and what is printed of it: `hh` and `h` make a `char` or a `short` of it. -/
def integer (k : Conv) (m : Length) : List Arg → Option (Int × Int × List Arg)
  | .int v :: ap =>
    if k ∈ [Conv.p, .s, .c] then none
    else match m with
      | .none => some (k.read v, k.read v, ap)
      | .hh => some (k.read v, k.read (v.setWidth 8), ap)
      | .h => some (k.read v, k.read (v.setWidth 16), ap)
      | _ => none
  | .long v :: ap => if k ∉ [Conv.p, .s, .c] ∧ m.long then some (k.read v, k.read v, ap) else none
  | .ptr v :: ap => if k = .p then some (v.toNat, v.toNat, ap) else none
  | _ => none

namespace Directive
variable (d : Directive)

def Defined : Prop :=
  (.hash ∈ d.flags → d.conv ∈ [Conv.o, .x, .X]) ∧ (d.conv ∈ [Conv.p, .s, .c] → .zero ∉ d.flags ∧ d.length = .none) ∧
    (d.conv ∈ [Conv.p, .c] → d.prec.isNone)

instance : Decidable d.Defined := inferInstanceAs (Decidable (_ ∧ _ ∧ _))

/-- The text of a directive, and the arguments behind its own; a string's length is an `int`. -/
def text (ap : List Arg) : Option (List UInt8 × List Arg) :=
  if d.Defined then
    (d.request ap).bind fun (f, w, n, ap) =>
      match d.conv, ap with
      | .s, .str (some str) :: ap =>
        if str.length < 2 ^ 31 then some (field f.minus false w [] (str.take ((given n).getD str.length)), ap) else none
      | .c, .int v :: ap => some (field f.minus false w [] [UInt8.ofNat v.toNat], ap)
      | k, ap => (integer k d.length ap).map fun (_, v, ap) => (prescribed k f w (given n) v, ap)
  else none

end Directive

/-- A length modifier that changes nothing, no zeros where the standard has spaces, and a prefix only where the zeros of the
field stand for it. -/
structure Right (k : Conv) (f : Flags) (width : Nat) (prec : Option Nat) (raw v : Int) : Prop where
  whole : raw = v
  padded : f.zero → f.minus = false → prec ≠ none → width ≤ (lead k f v (alternative k prec v) ++ body k prec v).length
  prefixed : f.hash → k ∈ [Conv.o, .x, .X] → alternative k prec v →
    k = .o ∧ f.zero ∧ f.minus = false ∧ (body k prec v).length < width

def Directive.Right (d : Directive) (ap : List Arg) : Prop := ∀ f w n aq raw v ar, d.request ap = some (f, w, n, aq) →
  integer d.conv d.length aq = some (raw, v, ar) → Printf.Right d.conv f w (given n) raw v

/-! ## A text and its number -/

def undigit (c : UInt8) : Option Nat := (List.range 16).find? fun d => digit .x d = c ∨ digit .X d = c

def reads (k : Conv) (n : Nat) (text : List UInt8) : Nat := text.foldl (fun n c => (undigit c).elim n (n * k.base + ·)) n

theorem undigit_digit (k : Conv) {d : Nat} (hd : d < 16) : undigit (digit k d) = some d := by
  have hall : ∀ d : Fin 16, undigit (digit k d) = some (d : Nat) := by cases k <;> decide +kernel
  exact hall ⟨d, hd⟩

theorem digits_lt (k : Conv) (n : Nat) : ∀ d ∈ Nat.digits k.base n, d < 16 := fun d hd =>
  Nat.lt_of_lt_of_le (Nat.digits_lt_base k.one_lt_base hd) (by cases k <;> decide)

theorem reads_append (k : Conv) (n : Nat) (a b : List UInt8) : reads k n (a ++ b) = reads k (reads k n a) b := foldl_append

theorem reads_spaces (k : Conv) (n m : Nat) : reads k n (List.replicate m ' '.toUInt8) = n := by
  induction m with
  | zero => rfl
  | succ m ih => exact ih

theorem reads_zeros (k : Conv) (m : Nat) : reads k 0 (List.replicate m '0'.toUInt8) = 0 := by
  induction m with
  | zero => rfl
  | succ m ih =>
    have hzero : reads k 0 ['0'.toUInt8] = 0 := by cases k <;> rfl
    rw [replicate_succ, ← singleton_append, reads_append, hzero, ih]

theorem reads_numeral (k : Conv) (n : Nat) : reads k 0 (numeral k n) = n := by
  have hfold : ∀ ds : List Nat, (∀ d ∈ ds, d < 16) → reads k 0 (ds.map (digit k)).reverse = Nat.ofDigits k.base ds := by
    intro ds
    induction ds with
    | nil => intro; rfl
    | cons d ds ih =>
      intro hlt
      have hd := undigit_digit k (hlt d mem_cons_self)
      rw [map_cons, reverse_cons, reads_append, ih fun e he => hlt e (mem_cons_of_mem d he), Nat.ofDigits_cons]
      simp only [reads, foldl_cons, foldl_nil, hd, Option.elim]
      rw [Nat.mul_comm, Nat.add_comm]
  unfold numeral
  split
  · rename_i hn
    rw [hn]
    exact reads_zeros k 1
  · rw [hfold _ (digits_lt k n), Nat.ofDigits_digits]

theorem reads_body (k : Conv) (prec : Option Nat) (v : Int) : reads k 0 (body k prec v) = v.natAbs := by
  rw [body, reads_append, reads_zeros]
  split
  · rename_i hv
    rw [hv.1]
    rfl
  · exact reads_numeral k _

theorem reads_lead (k : Conv) (f : Flags) (v : Int) (alt : Bool) : reads k 0 (lead k f v alt) = 0 := by
  cases k <;> unfold lead <;> dsimp only <;> (repeat' split) <;> rfl

theorem reads_field (k : Conv) (minus zero : Bool) (w : Nat) (f : Flags) (prec : Option Nat) (v : Int) (alt : Bool) :
    reads k 0 (field minus zero w (lead k f v alt) (body k prec v)) = v.natAbs := by
  unfold field
  cases minus <;> cases zero <;> simp [reads_append, reads_spaces, reads_zeros, reads_lead, reads_body]

theorem countP_field (p : UInt8 → Bool) (minus zero : Bool) (w : Nat) (pre body : List UInt8) :
    (field minus zero w pre body).countP p = pre.countP p + body.countP p +
      (w - (pre ++ body).length) * (if p (if zero && !minus then '0'.toUInt8 else ' '.toUInt8) then 1 else 0) := by
  unfold field
  cases minus <;> cases zero <;> simp [countP_replicate] <;> split <;> omega

theorem body_digits (k : Conv) (prec : Option Nat) (v : Int) : ∀ c ∈ body k prec v, ∃ d < 16, c = digit k d := by
  intro c hc
  have hzero : '0'.toUInt8 = digit k 0 := by cases k <;> rfl
  rcases mem_append.1 hc with hc | hc
  · exact ⟨0, by decide, (eq_of_mem_replicate hc).trans hzero⟩
  · split at hc
    · cases hc
    · unfold numeral at hc
      split at hc
      · exact ⟨0, by decide, (mem_singleton.1 hc).trans hzero⟩
      · obtain ⟨d, hd, rfl⟩ := mem_map.1 (mem_reverse.1 hc)
        exact ⟨d, digits_lt k _ d hd, rfl⟩

variable {k : Conv}

theorem lead_of_plain {f : Flags} {alt : Bool} (v : Int) (h : ¬ (f.hash ∧ k ∈ [Conv.o, .x, .X] ∧ alt)) :
    lead k f v false = lead k f v alt := by
  cases k <;> simp_all [lead]

theorem countP_minus (hk : k = .d ∨ k = .i) (minus zero : Bool) (w : Nat) (f : Flags) (prec : Option Nat) (v : Int)
    (alt : Bool) :
    (field minus zero w (lead k f v alt) (body k prec v)).countP (· = '-'.toUInt8) = if v < 0 then 1 else 0 := by
  have hpad : ∀ b : Bool, decide ((if b then '0'.toUInt8 else ' '.toUInt8) = '-'.toUInt8) = false := by decide
  have hbody : (body k prec v).countP (· = '-'.toUInt8) = 0 := by
    refine countP_eq_zero.2 fun c hc h => ?_
    obtain ⟨d, hd, rfl⟩ := body_digits k prec v c hc
    have hnone : undigit '-'.toUInt8 = none := by decide
    have hsome := undigit_digit k hd
    rw [of_decide_eq_true h, hnone] at hsome
    cases hsome
  rw [countP_field, hpad, hbody]
  rcases hk with rfl | rfl <;> unfold lead <;> dsimp only <;> split <;> (repeat' split) <;> simp_all <;> decide

/-- The letter of a prefix is no digit, and stands nowhere else. -/
theorem letter_not_mem (hk : k = .x ∨ k = .X) (minus zero : Bool) (w : Nat) (f : Flags) (prec : Option Nat) (v : Int) :
    k.char ∉ field minus zero w (lead k f v false) (body k prec v) := by
  have hbody : k.char ∉ body k prec v := fun hmem => by
    obtain ⟨d, hd, heq⟩ := body_digits k prec v _ hmem
    have hnone : undigit k.char = none := by rcases hk with rfl | rfl <;> decide
    rw [heq, undigit_digit k hd] at hnone
    cases hnone
  have hlead : lead k f v false = [] := by rcases hk with rfl | rfl <;> simp [lead]
  have hpad : k.char ≠ ' '.toUInt8 ∧ k.char ≠ '0'.toUInt8 := by rcases hk with rfl | rfl <;> decide
  unfold field
  cases minus <;> cases zero <;> simp [hlead, hbody, hpad]

variable {raw v : Int}

/-- **The code's integers are the standard's, where they are right, and nowhere else.** -/
theorem number_iff (hsign : ¬ (k = .d ∨ k = .i) → 0 ≤ raw ∧ 0 ≤ v) (f : Flags) (w : Nat) (n : Int) :
    number' k f w n raw = prescribed k f w (given n) v ↔ Right k f w (given n) raw v := by
  unfold number' prescribed
  generalize given n = prec
  have hne : '0'.toUInt8 ≠ ' '.toUInt8 := by decide
  constructor
  · intro h
    have habs : raw.natAbs = v.natAbs := by
      rw [← reads_field k f.minus f.zero w f prec raw false, h, reads_field]
    have hraw : raw = v := by
      by_cases hk : k = .d ∨ k = .i
      · have hminus := congrArg (List.countP (· = '-'.toUInt8)) h
        rw [countP_minus hk, countP_minus hk] at hminus
        by_cases hr : raw < 0 <;> by_cases hv : v < 0 <;> simp [hr, hv] at hminus <;> omega
      · have := hsign hk
        omega
    subst hraw
    -- the characters that are no spaces
    have hink := congrArg (List.countP (· ≠ ' '.toUInt8)) h
    have hpad : ∀ b : Bool, decide ((if b then '0'.toUInt8 else ' '.toUInt8) ≠ ' '.toUInt8) = b := by decide
    rw [countP_field, countP_field, hpad, hpad] at hink
    by_cases hpre : f.hash ∧ k ∈ [Conv.o, .x, .X] ∧ alternative k prec raw
    · obtain ⟨hhash, hk, halt⟩ := hpre
      rw [halt] at h hink
      have hoctal : k = .o := by
        by_contra hno
        have hx : k = .x ∨ k = .X := by simpa [hno] using hk
        refine letter_not_mem hx f.minus f.zero w f prec raw (h ▸ ?_)
        have hmem : k.char ∈ lead k f raw true := by rcases hx with rfl | rfl <;> simp [lead, hhash]
        unfold field
        cases f.minus <;> cases f.zero && prec.isNone <;> simp [hmem]
      subst hoctal
      have hlead : lead .o f raw true = ['0'.toUInt8] := by simp [lead, hhash]
      have hnone : lead .o f raw false = [] := by simp [lead]
      rw [hlead, hnone] at hink
      simp [hne] at hink
      have hflags : f.zero = true ∧ f.minus = false := by
        by_contra hno
        cases hz : f.zero <;> cases hm : f.minus <;> simp_all
      simp [hflags] at hink
      refine ⟨rfl, fun _ _ hp => ?_, fun _ _ _ => ⟨rfl, hflags.1, hflags.2, ?_⟩⟩
      · rw [halt, hlead]
        cases prec with
        | none => exact absurd rfl hp
        | some _ =>
          simp at hink ⊢
          omega
      · split at hink <;> omega
    · rw [lead_of_plain raw hpre] at hink
      refine ⟨rfl, fun hz hm hp => ?_, fun hhash hk halt => absurd ⟨hhash, hk, halt⟩ hpre⟩
      have hp' : prec.isNone = false := Option.isNone_eq_false_iff.2 (Option.isSome_iff_ne_none.2 hp)
      rw [hz, hm, hp'] at hink
      simp at hink
      simp only [length_append]
      omega
  · rintro ⟨rfl, hpad, hprefix⟩
    by_cases hpre : f.hash ∧ k ∈ [Conv.o, .x, .X] ∧ alternative k prec raw
    · obtain ⟨hhash, hk, halt⟩ := hpre
      obtain ⟨rfl, hz, hm, hlt⟩ := hprefix hhash hk halt
      have hlead : lead .o f raw true = ['0'.toUInt8] := by simp [lead, hhash]
      have hnone : lead .o f raw false = [] := by simp [lead]
      rw [halt, hlead] at hpad ⊢
      rw [hnone, hz, hm]
      -- the zeros of the field begin with the one of the prefix
      have hcode : field false true w [] (body .o prec raw) =
          '0'.toUInt8 :: (List.replicate (w - ((body .o prec raw).length + 1)) '0'.toUInt8 ++ body .o prec raw) := by
        have hsub : w - (body .o prec raw).length = w - ((body .o prec raw).length + 1) + 1 := by omega
        simp only [field, nil_append, Bool.false_eq_true, if_false, if_true, hsub, replicate_succ, cons_append]
      rw [hcode]
      cases hp : prec with
      | none => simp [field]
      | some n =>
        have hw : w = (body .o (some n) raw).length + 1 := by
          have := hpad hz hm (by simp [hp])
          simp [hp] at this hlt
          omega
        simp [field, hw]
    · rw [lead_of_plain raw hpre]
      generalize lead k f raw (alternative k prec raw) = pre at hpad ⊢
      by_cases hflag : f.zero = true ∧ f.minus = false ∧ prec ≠ none
      · have hfits := hpad hflag.1 hflag.2.1 hflag.2.2
        unfold field
        rw [Nat.sub_eq_zero_of_le hfits, hflag.2.1]
        simp
      · unfold field
        cases hm : f.minus <;> cases hz : f.zero <;> cases prec <;> simp_all

/-! ## Directive by directive -/

theorem integer_raw {m : Length} {ar : List Arg} (h : integer k m ap = some (raw, v, ar)) :
    (k = .p ∧ ∃ val, ap = .ptr val :: ar ∧ raw = val.toNat ∧ v = val.toNat) ∨ k ∉ [Conv.p, .s, .c] ∧ ∃ val : BitVec 64,
      vaInteger m.long (if k = .d ∨ k = .i then (·.signExtend 64) else (·.setWidth 64)) ap = some (val, ar) ∧
      raw = k.read val := by
  have hread (k : Conv) (val : BitVec 32) :
      k.read val = k.read ((if k = .d ∨ k = .i then (·.signExtend 64) else (·.setWidth 64) : BitVec 32 →
        BitVec 64) val) := by
    unfold Conv.read
    by_cases hk : k = .d ∨ k = .i
    · rw [if_pos hk, if_pos hk, if_pos hk, BitVec.toInt_signExtend_of_le (by decide)]
    · rw [if_neg hk, if_neg hk, if_neg hk, BitVec.toNat_setWidth, Nat.mod_eq_of_lt (val.isLt.trans (by decide))]
  match ap with
  | .int val :: ap =>
    have hk : k ∉ [Conv.p, .s, .c] := fun hk => by
      simp only [integer, if_pos hk] at h
      cases h
    have hraw := hread k val
    cases m <;> simp only [integer, if_neg hk] at h <;> cases h <;> exact .inr ⟨hk, _, rfl, hraw⟩
  | .long val :: ap =>
    by_cases hk : k ∉ [Conv.p, .s, .c] ∧ m.long
    · rw [integer, if_pos hk] at h
      cases h
      exact .inr ⟨hk.1, val, by rw [vaInteger, if_pos hk.2], rfl⟩
    · rw [integer, if_neg hk] at h
      cases h
  | .ptr val :: ap =>
    by_cases hk : k = .p
    · rw [integer, if_pos hk] at h
      cases h
      exact .inl ⟨hk, val, rfl, rfl, rfl⟩
    · rw [integer, if_neg hk] at h
      cases h
  | .str _ :: _ => cases h
  | [] => cases h

theorem integer_nonneg (hk : ¬ (k = .d ∨ k = .i)) {m : Length} {ar : List Arg}
    (h : integer k m ap = some (raw, v, ar)) : 0 ≤ raw ∧ 0 ≤ v := by
  have hread {w : Nat} (val : BitVec w) : 0 ≤ k.read val := by
    rw [Conv.read, if_neg hk]
    exact Int.natCast_nonneg _
  match ap with
  | .int val :: ap =>
    by_cases hmem : k ∈ [Conv.p, .s, .c]
    · simp only [integer, if_pos hmem] at h
      cases h
    · cases m <;> simp only [integer, if_neg hmem] at h <;> cases h <;> exact ⟨hread _, hread _⟩
  | .long val :: ap =>
    rw [integer] at h
    split at h <;> cases h
    exact ⟨hread _, hread _⟩
  | .ptr val :: ap =>
    rw [integer] at h
    split at h <;> cases h
    exact ⟨Int.natCast_nonneg _, Int.natCast_nonneg _⟩
  | .str _ :: _ => cases h
  | [] => cases h

section
variable {σ : Type*} (out : UInt8 → σ → σ) (f : Flags) (w : Nat) (n : Int) (long : Bool) (ap : List Arg) (s : σ × Nat)

theorem conv?_char (k : Conv) : conv? k.char = some k := by cases k <;> decide

theorem conversion_integer {k : Conv} {m : Length} {ap ar : List Arg} {raw v : Int}
    (h : integer k m ap = some (raw, v, ar)) :
    conversion out ⟨f, w, n, m.long⟩ k.char ap s = some (puts out (number' k f w n raw) s, ar) := by
  unfold conversion
  rw [conv?_char]
  rcases integer_raw h with ⟨rfl, val, rfl, rfl, -⟩ | ⟨hk, val, hval, rfl⟩
  · exact congrArg (fun r => some (r, ar)) (putUnsigned_eq out (by decide) f w n val s)
  · have hsigned (hk : k = .d ∨ k = .i) : putSigned out f w n val s = puts out (number' k f w n (k.read val)) s := by
      rw [putSigned_eq out hk, Conv.read, if_pos hk]
    have hunsigned (hk : ¬ (k = .d ∨ k = .i ∨ k = .s ∨ k = .c)) :
        putUnsigned out k f w n val s = puts out (number' k f w n (k.read val)) s := by
      rw [putUnsigned_eq out hk, Conv.read, if_neg fun h => hk (by tauto)]
    cases k with
    | p | s | c => exact absurd hk (by decide)
    | d | i =>
      simp only [reduceCtorEq, or_false, or_true, if_true] at hval ⊢
      rw [hval, Option.map_some, hsigned (by decide)]
    | u | x | X | o =>
      simp only [reduceCtorEq, or_false, if_false] at hval ⊢
      rw [hval, Option.map_some, hunsigned (by decide)]

theorem conversion_str {str : List UInt8} (hstr : str.length < 2 ^ 31) :
    conversion out ⟨f, w, n, long⟩ Conv.s.char (.str (some str) :: ap) s =
      some (puts out (field f.minus false w [] (str.take ((given n).getD str.length))) s, ap) := by
  have hlen : (BitVec.ofNat 32 str.length).toInt = str.length := by
    rw [BitVec.toInt_ofNat', Int.bmod_eq_of_le (by omega) (by omega)]
  have htake : (if 0 ≤ n ∧ n < str.length then n else (str.length : Int)).toNat =
      min ((given n).getD str.length) str.length := by
    unfold given
    by_cases hn : n < 0
    · rw [if_pos hn, if_neg (by omega), Option.getD_none]
      omega
    · rw [if_neg hn, Option.getD_some]
      split <;> omega
  have hpad : ((w : Int) - if 0 ≤ n ∧ n < str.length then n else (str.length : Int)).toNat =
      w - (str.take ((given n).getD str.length)).length := by
    rw [length_take, ← htake]
    split <;> omega
  unfold conversion
  rw [conv?_char]
  simp only [Option.getD_some, hlen, hpad, htake]
  rw [← take_eq_take_min, putText_eq]

/-- **A directive**: the text that the code has for it is the standard's exactly where the code is right. -/
theorem directive_text {d : Directive} {ap ar : List Arg} {t : List UInt8} (h : d.text ap = some (t, ar)) :
    ∃ f w n aq t', d.request ap = some (f, w, n, aq) ∧ (t' = t ↔ d.Right ap) ∧
      ∀ {σ : Type} (out : UInt8 → σ → σ) (s : σ × Nat), conversion out ⟨f, w, n, d.length.long⟩ d.conv.char aq s =
      some (puts out t' s, ar) := by
  unfold Directive.text at h
  split at h
  swap
  · cases h
  obtain ⟨⟨f, w, n, aq⟩, hreq, h⟩ := Option.bind_eq_some_iff.1 h
  -- a string or a character is always right
  have hnone (hint : integer d.conv d.length aq = none) : d.Right ap := by
    intro f' w' n' aq' raw v ar' hreq' hint'
    rw [hreq] at hreq'
    cases hreq'
    rw [hint] at hint'
    cases hint'
  dsimp only at h
  split at h
  · rename_i str ap' hk
    split at h
    · rename_i hstr
      cases h
      have hright := hnone (by rw [hk]; rfl)
      exact ⟨f, w, n, _, _, hreq, ⟨fun _ => hright, fun _ => rfl⟩, fun out s => hk ▸ conversion_str out f w n _ _ s hstr⟩
    · cases h
  · rename_i val ap' hk
    cases h
    have hright := hnone (by rw [hk]; rfl)
    refine ⟨f, w, n, _, _, hreq, ⟨fun _ => hright, fun _ => rfl⟩, fun out s => ?_⟩
    unfold conversion
    rw [conv?_char, hk]
    exact congrArg (fun r => some (r, _)) (putText_eq out f w [UInt8.ofNat val.toNat] s)
  · obtain ⟨⟨raw, v, ar⟩, hint, heq⟩ := Option.map_eq_some_iff.1 h
    cases heq
    refine ⟨f, w, n, _, number' d.conv f w n raw, hreq, ?_, fun out s => conversion_integer out f w n s hint⟩
    rw [number_iff fun hk => integer_nonneg hk hint]
    refine ⟨fun hright f' w' n' aq' raw' v' ar' hreq' hint' => ?_, fun hright => hright f w n _ raw v ar hreq hint⟩
    rw [hreq] at hreq'
    cases hreq'
    rw [hint] at hint'
    cases hint'
    exact hright

end

/-! ## Whole formats -/

inductive Item
  | lit (c : UInt8) (hc : c ≠ '%'.toUInt8)
  | percent
  | directive (d : Directive)

def spell : List Item → List UInt8
  | [] => []
  | .lit c _ :: is => c :: spell is
  | .percent :: is => '%'.toUInt8 :: '%'.toUInt8 :: spell is
  | .directive d :: is => '%'.toUInt8 :: (d.spell ++ spell is)

def text : List Item → List Arg → Option (List UInt8)
  | [], _ => some []
  | .lit c _ :: is, ap => (text is ap).map (c :: ·)
  | .percent :: is, ap => (text is ap).map ('%'.toUInt8 :: ·)
  | .directive d :: is, ap => (d.text ap).bind fun (t, ap) => (text is ap).map (t ++ ·)

def Agrees : List Item → List Arg → Prop
  | [], _ => True
  | .lit _ _ :: is, ap => Agrees is ap
  | .percent :: is, ap => Agrees is ap
  | .directive d :: is, ap => d.Right ap ∧ ∀ t aq, d.text ap = some (t, aq) → Agrees is aq

/-- Whatever `out` is: it is called for the characters in order, and their number is returned. -/
def Emits (fmt : List UInt8) (ap : List Arg) (t : List UInt8) : Prop := ∀ (σ : Type) (out : UInt8 → σ → σ) (arg : σ),
  vcbprintf out fmt ap arg = some (t.foldl (fun a c => out c a) arg, (BitVec.ofNat 32 t.length).toInt)

theorem conversion_any (d : Spec) (spec : UInt8) (ap : List Arg) : ∃ r : Option (List UInt8 × List Arg),
    ∀ (σ : Type) (out : UInt8 → σ → σ) (s : σ × Nat), conversion out d spec ap s = r.map fun (t, ap) =>
      (puts out t s, ap) := by
  have hinteger (k : Conv) (hk : k ≠ .s ∧ k ≠ .c) (r : Option (BitVec 64 × List Arg)) : ∃ r' :
      Option (List UInt8 × List Arg), ∀ (σ : Type) (out : UInt8 → σ → σ) (s : σ × Nat),
      (r.map fun (v, ap) => (if k = .d ∨ k = .i then
        putSigned out d.flags d.width d.prec v s else putUnsigned out k d.flags d.width d.prec v s, ap)) =
        r'.map fun (t, ap) => (puts out t s, ap) := by
    refine ⟨r.map fun (v, ap) => (number' k d.flags d.width d.prec (k.read v), ap), fun σ out s => ?_⟩
    cases r with
    | none => rfl
    | some r =>
      by_cases hd : k = .d ∨ k = .i
      · simp [Conv.read, if_pos hd, putSigned_eq out hd]
      · simp [Conv.read, if_neg hd, putUnsigned_eq out (show ¬ (k = .d ∨ k = .i ∨ k = .s ∨ k = .c) by tauto)]
  unfold conversion
  cases conv? spec with
  | none =>
    refine ⟨some (if spec = '%'.toUInt8 then ['%'.toUInt8] else [], ap), fun σ out s => ?_⟩
    by_cases hspec : spec = '%'.toUInt8
    · simp only [if_pos hspec]
      rfl
    · simp only [if_neg hspec]
      rfl
  | some k =>
    cases k with
    | s =>
      match ap with
      | .str str :: ap => exact ⟨some (_, ap), fun σ out s => congrArg (fun r => some (r, ap)) (putText_puts out _ _ _ s)⟩
      | [] | .int _ :: _ | .long _ :: _ | .ptr _ :: _ => exact ⟨none, fun _ _ _ => rfl⟩
    | c =>
      match ap with
      | .int v :: ap => exact ⟨some (_, ap), fun σ out s => congrArg (fun r => some (r, ap)) (putText_puts out _ _ _ s)⟩
      | [] | .str _ :: _ | .long _ :: _ | .ptr _ :: _ => exact ⟨none, fun _ _ _ => rfl⟩
    | p =>
      match ap with
      | .ptr v :: ap => exact hinteger .p (by decide) (some (v, ap))
      | [] | .str _ :: _ | .long _ :: _ | .int _ :: _ => exact ⟨none, fun _ _ _ => rfl⟩
    | d => exact hinteger .d (by decide) _
    | i => exact hinteger .i (by decide) _
    | u => exact hinteger .u (by decide) _
    | x => exact hinteger .x (by decide) _
    | X => exact hinteger .X (by decide) _
    | o => exact hinteger .o (by decide) _

section
variable {σ : Type} (out : UInt8 → σ → σ)

theorem loop_directive {p q : List UInt8} {ap aq ar : List Arg} {d : Spec} {spec : UInt8} {s s' : σ × Nat}
    (hd : directive p ap = some (d, spec :: q, aq)) (hc : conversion out d spec aq s = some (s', ar)) :
    loop out ('%'.toUInt8 :: p) ap s = loop out q ar s' := by
  rw [loop, if_neg (by simp)]
  split
  · rename_i h
    rw [hd] at h
    cases h
  · rename_i h
    rw [hd] at h
    cases h
  · rename_i h
    rw [hd] at h
    cases h
    rw [hc]

theorem loop_text {d : Directive} {ap ar : List Arg} {t : List UInt8} (h : d.text ap = some (t, ar)) :
    ∃ t', (t' = t ↔ d.Right ap) ∧ ∀ {σ : Type} (out : UInt8 → σ → σ) (q : List UInt8) (s : σ × Nat),
      loop out ('%'.toUInt8 :: (d.spell ++ q)) ap s = loop out q ar (puts out t' s) := by
  obtain ⟨f, w, n, aq, t', hreq, hiff, hconv⟩ := directive_text h
  refine ⟨t', hiff, fun out q s => loop_directive out ?_ (hconv out s)⟩
  rw [directive_spell, hreq]
  rfl

theorem loop_items : ∀ (is : List Item) (ap : List Arg) (t : List UInt8) (s : σ × Nat), text is ap = some t → Agrees is ap →
    loop out (spell is) ap s = some (puts out t s)
  | [], _, _, s, h, _ => by
    cases h
    rw [spell, loop]
    rfl
  | .lit c hc :: is, ap, _, s, h, hagree => by
    obtain ⟨t, ht, rfl⟩ := Option.map_eq_some_iff.1 h
    rw [spell, loop, if_pos hc]
    exact loop_items is ap t _ ht hagree
  | .percent :: is, ap, _, s, h, hagree => by
    obtain ⟨t, ht, rfl⟩ := Option.map_eq_some_iff.1 h
    have hd : directive ('%'.toUInt8 :: spell is) ap = some (⟨{}, 0, -1, false⟩, '%'.toUInt8 :: spell is, ap) := rfl
    rw [spell, loop_directive out hd rfl]
    exact loop_items is ap t _ ht hagree
  | .directive d :: is, ap, _, s, h, hagree => by
    obtain ⟨⟨u, aq⟩, hu, h⟩ := Option.bind_eq_some_iff.1 h
    obtain ⟨t, ht, rfl⟩ := Option.map_eq_some_iff.1 h
    obtain ⟨u', hiff, hloop⟩ := loop_text hu
    rw [spell, hloop out, hiff.2 hagree.1, loop_items is aq t _ ht (hagree.2 u aq hu), puts_append]

end

theorem loop_any (p : List UInt8) (ap : List Arg) : ∃ r :
    Option (List UInt8), ∀ (σ : Type) (out : UInt8 → σ → σ) (s : σ × Nat), loop out p ap s = r.map (puts out · s) := by
  induction hn : p.length using Nat.strongRecOn generalizing p ap with
  | ind n ih =>
    subst hn
    match p with
    | [] => exact ⟨some [], fun σ out s => by rw [loop]; rfl⟩
    | c :: p =>
      by_cases hlit : c ≠ '%'.toUInt8
      · obtain ⟨r, hr⟩ := ih p.length (Nat.lt_succ_self _) p ap rfl
        refine ⟨r.map (c :: ·), fun σ out s => ?_⟩
        rw [loop, if_pos hlit, hr, Option.map_map]
        rfl
      · obtain rfl := not_not.1 hlit
        match hd : directive p ap with
        | none =>
          refine ⟨none, fun σ out s => ?_⟩
          rw [loop, if_neg hlit]
          split <;> rename_i h <;> rw [hd] at h <;> cases h
          rfl
        | some (_, [], _) =>
          refine ⟨some [], fun σ out s => ?_⟩
          rw [loop, if_neg hlit]
          split <;> rename_i h <;> rw [hd] at h <;> cases h
          rfl
        | some (d, spec :: q, aq) =>
          obtain ⟨r, hr⟩ := conversion_any d spec aq
          cases r with
          | none =>
            refine ⟨none, fun σ out s => ?_⟩
            rw [loop, if_neg hlit]
            split <;> rename_i h <;> rw [hd] at h <;> cases h
            rw [hr]
            rfl
          | some r =>
            have hlt := length_directive hd
            obtain ⟨r', hr'⟩ := ih q.length (by rw [length_cons] at hlt ⊢; omega) q r.2 rfl
            refine ⟨r'.map (r.1 ++ ·), fun σ out s => ?_⟩
            rw [loop_directive out hd (hr σ out s), hr', Option.map_map]
            simp [Function.comp_def, puts_append]

/-- **`vcbprintf` hands over a text**, whatever `out` is, or there is no meaning to the call. -/
theorem vcbprintf_hands (fmt : List UInt8) (ap : List Arg) :
    (∀ (σ : Type) (out : UInt8 → σ → σ) (arg : σ), vcbprintf out fmt ap arg = none) ∨ ∃ t, Emits fmt ap t := by
  obtain ⟨r, hr⟩ := loop_any fmt ap
  cases r with
  | none => exact .inl fun σ out arg => by rw [vcbprintf, hr]; rfl
  | some t => exact .inr ⟨t, fun σ out arg => by rw [vcbprintf, hr, Option.map_some, Option.map_some, puts_eq, Nat.zero_add]⟩

theorem emits_iff {d : Directive} {t : List UInt8} (h : text [.directive d] ap = some t) :
    Emits (spell [.directive d]) ap t ↔ d.Right ap := by
  obtain ⟨⟨u, ar⟩, hu, h⟩ := Option.bind_eq_some_iff.1 h
  obtain rfl : u = t := (append_nil u).symm.trans (Option.some.inj h)
  obtain ⟨t', hiff, hloop⟩ := loop_text hu
  have hrun {σ : Type} (out : UInt8 → σ → σ) (arg : σ) : vcbprintf out (spell [.directive d]) ap arg =
      some (t'.foldl (fun a c => out c a) arg, (BitVec.ofNat 32 t'.length).toInt) := by
    rw [vcbprintf, spell, hloop out, spell, loop, puts_eq, Option.map_some, Nat.zero_add]
  refine ⟨fun hemits => hiff.1 ?_, fun hright σ out arg => hiff.2 hright ▸ hrun out arg⟩
  have hrev : ∀ l acc : List UInt8, l.foldl (fun a c => c :: a) acc = l.reverse ++ acc := by
    intro l
    induction l with
    | nil => exact fun _ => rfl
    | cons c l ih => exact fun acc => by rw [foldl_cons, ih, reverse_cons, append_assoc, singleton_append]
  have heq := (hrun List.cons []).symm.trans (hemits _ List.cons [])
  rw [hrev, hrev] at heq
  simpa using congrArg (fun r => r.map Prod.fst) heq

/-- **`vcbprintf` and the standard**: a format is printed as the standard says if all its directives are right; and a
directive is printed as the standard says only if it is right. -/
theorem vcbprintf_conforms (is : List Item) (ap : List Arg) (t : List UInt8) (h : text is ap = some t) :
    (Agrees is ap → Emits (spell is) ap t) ∧ ∀ d, is = [.directive d] → (Emits (spell is) ap t ↔ d.Right ap) := by
  constructor
  · intro hagree σ out arg
    rw [vcbprintf, loop_items out is ap t (arg, 0) h hagree, puts_eq, Option.map_some, Nat.zero_add]
  · rintro d rfl
    exact emits_iff h

/-- `%#06lo`: the 0 of the alternative form is one of those that fill the field. -/
def octalField : Directive := ⟨[.hash, .zero], .digits [6], none, .l, .o, by simp⟩

/-- `%+-5.3i`. -/
def signedField : Directive := ⟨[.plus, .minus], .digits [5], some (.digits [3]), .none, .i, by simp⟩

theorem vcbprintf_conforms_fields :
    Emits (spell [.directive octalField, .lit '|'.toUInt8 (by decide), .directive signedField])
    [.long 8, .int 42] ("000010|+042 ".toList.map Char.toUInt8) := by
  refine (vcbprintf_conforms _ _ _ (by decide +kernel)).1 ⟨?_, fun _ _ htext => ?_⟩
  · rintro f w n aq raw v ar ⟨⟩ ⟨⟩
    exact ⟨rfl, by decide +kernel, by decide +kernel⟩
  · obtain rfl : [Arg.int 42] = _ := (Prod.ext_iff.1 (Option.some.inj htext)).2
    refine ⟨?_, fun _ _ _ => trivial⟩
    rintro f w n aq raw v ar ⟨⟩ ⟨⟩
    exact ⟨rfl, by decide +kernel, by decide +kernel⟩

/-- `%#x`. -/
def hexPrefix : Directive := ⟨[.hash], .digits [], none, .none, .x, by simp⟩

/-- `%05.3d`. -/
def zeroFlag : Directive := ⟨[.zero], .digits [5], some (.digits [3]), .none, .d, by simp⟩

/-- Of 255 the standard wants `0xff` and gets `ff`, of 7 it wants `  007` and gets `00007`. -/
theorem hash_and_zero_flags : text [.directive hexPrefix] [.int 255] = some ("0xff".toList.map Char.toUInt8) ∧
    vcbprintf (fun c l => l ++ [c]) (spell [.directive hexPrefix]) [.int 255] [] = some ("ff".toList.map Char.toUInt8, 2) ∧
    ¬ Emits (spell [.directive hexPrefix]) [.int 255] ("0xff".toList.map Char.toUInt8) ∧
    text [.directive zeroFlag] [.int 7] = some ("  007".toList.map Char.toUInt8) ∧
    vcbprintf (fun c l => l ++ [c]) (spell [.directive zeroFlag]) [.int 7] [] = some ("00007".toList.map Char.toUInt8, 5) ∧
    ¬ Emits (spell [.directive zeroFlag]) [.int 7] ("  007".toList.map Char.toUInt8) := by
  refine ⟨by decide +kernel, by decide +kernel, fun h => ?_, by decide +kernel, by decide +kernel, fun h => ?_⟩
  · exact absurd (h _ (fun c l => l ++ [c]) []) (by decide +kernel)
  · exact absurd (h _ (fun c l => l ++ [c]) []) (by decide +kernel)

end EterOS.Printf
