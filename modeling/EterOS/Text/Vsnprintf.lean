import EterOS.Lib.Stores
/-!
# Vsnprintf — `kernel/stdio.c`

The formatter has a position that goes on behind the end of the buffer.  Padding and digits are put there at once where all
of them fit, and character by character otherwise; either way the buffer ends up with the same characters, cut off at its
end.
-/
namespace EterOS.Kprintf

open List

/-- What `va_arg` takes from the argument list; a string is the bytes before its NUL, or NULL. -/
inductive Arg
  | int (v : BitVec 32)
  | long (v : BitVec 64)
  | str (s : Option (List UInt8))
  | ptr (p : BitVec 64)

structure Out where
  str : Buffer
  pos : Nat

def bufferAppend (size : Nat) (o : Out) (c : UInt8) : Out :=
  ⟨if 0 < size ∧ o.pos < size - 1 then o.str.set o.pos c else o.str, o.pos + 1⟩

/-- `while (padding-- > 0) buffer_append(str, size, pos, c)`. -/
def appendN (size : Nat) (c : UInt8) : Nat → Out → Out
  | 0, o => o
  | n + 1, o => appendN size c n (bufferAppend size o c)

/-- A run of one character: with `memset`, or the loop, which leaves -1 in `padding`. -/
def pad (size : Nat) (c : UInt8) (o : Out) (padding : Int) : Out × Int :=
  if 0 < size ∧ o.pos + padding.toNat < size then
    (⟨o.str.blit o.pos (fun _ => c) padding.toNat, o.pos + padding.toNat⟩, padding)
  else (appendN size c padding.toNat o, -1)

/-- The loop for base 10: `temp`, filled from its end. -/
def decimal (val : Nat) (temp : List UInt8) : List UInt8 :=
  if val = 0 then temp else decimal (val / 10) (UInt8.ofNat ('0'.toNat + val % 10) :: temp)

def hexChars (uppercase : Bool) : List UInt8 :=
  (if uppercase then "0123456789ABCDEF" else "0123456789abcdef").toList.map Char.toUInt8

def hexadecimal (uppercase : Bool) (val : Nat) (temp : List UInt8) : List UInt8 :=
  if val = 0 then temp else hexadecimal uppercase (val >>> 4) ((hexChars uppercase).getD (val &&& 0xF) 0 :: temp)
termination_by val
decreasing_by exact Nat.shiftRight_eq_div_pow val 4 ▸ Nat.div_lt_self (by omega) (by decide)

inductive Base
  | ten
  | sixteen
  deriving DecidableEq

def formatInt (size : Nat) (o : Out) (val : BitVec 64) (base : Base) (width : Nat)
    (zeropad leftJustify uppercase isSigned : Bool) :
    Out :=
  let isNeg := isSigned && base = .ten && val.toInt < 0
  let val := if isNeg then -val else val
  let temp := if val = 0 then ['0'.toUInt8] else
    match base with
    | .ten => decimal val.toNat []
    | .sixteen => hexadecimal uppercase val.toNat []
  let len := temp.length + if isNeg then 1 else 0
  let padding : Int := (width : Int) - len
  let (o, padding) := if !leftJustify && !zeropad && 0 < padding then pad size ' '.toUInt8 o padding else (o, padding)
  let o := if isNeg then bufferAppend size o '-'.toUInt8 else o
  let (o, padding) := if zeropad && 0 < padding then pad size '0'.toUInt8 o padding else (o, padding)
  let o := if 0 < size ∧ o.pos + temp.length < size then
      ⟨o.str.blit o.pos (fun i => temp.getD i 0) temp.length, o.pos + temp.length⟩
    else temp.foldl (bufferAppend size) o
  if leftJustify && 0 < padding then (pad size ' '.toUInt8 o padding).1 else o

/-! ## Conversions -/

structure Spec where
  zeropad : Bool
  leftJustify : Bool
  width : Nat
  precision : Option Nat
  isLong : Bool

def flags : List UInt8 → Bool → Bool → Bool × Bool × List UInt8
  | [], zeropad, leftJustify => (zeropad, leftJustify, [])
  | c :: p, zeropad, leftJustify =>
    if c = '0'.toUInt8 then flags p true leftJustify
    else if c = '-'.toUInt8 then flags p zeropad true
    else (zeropad, leftJustify, c :: p)

/-- A loop over digits; beyond an `int` it has no meaning. -/
def number : List UInt8 → Nat → Option (Nat × List UInt8)
  | [], n => some (n, [])
  | c :: p, n =>
    if '0'.toUInt8 ≤ c ∧ c ≤ '9'.toUInt8 then
      if n * 10 + (c.toNat - '0'.toNat) < 2 ^ 31 then number p (n * 10 + (c.toNat - '0'.toNat)) else none
    else some (n, c :: p)

def precision : List UInt8 → Option (Option Nat × List UInt8)
  | [] => some (none, [])
  | c :: p => if c = '.'.toUInt8 then (number p 0).map fun (n, p) => (some n, p) else some (none, c :: p)

/-- `l` and `ll`, which are both 64 bits wide. -/
def lengthModifier : List UInt8 → Bool × List UInt8
  | [] => (false, [])
  | c :: p =>
    if c = 'l'.toUInt8 then (true, if p.head? = some 'l'.toUInt8 then p.tail else p)
    else (false, c :: p)

def directive (p : List UInt8) : Option (Spec × List UInt8) :=
  let (zeropad, leftJustify, p) := flags p false false
  (number p 0).bind fun (width, p) =>
    (precision p).map fun (precision, p) =>
      let (isLong, p) := lengthModifier p
      (⟨zeropad && !leftJustify, leftJustify, width, precision, isLong⟩, p)

def vaInteger (isLong : Bool) (extend : BitVec 32 → BitVec 64) : List Arg → Option (BitVec 64 × List Arg)
  | .int v :: ap => if isLong then none else some (extend v, ap)
  | .long v :: ap => if isLong then some (v, ap) else none
  | _ => none

/-- The `switch` on the specifier, which is 0 at the end of the format. -/
def conversion (size : Nat) (d : Spec) (c : UInt8) (ap : List Arg) (o : Out) : Option (Out × List Arg) :=
  if c = 'd'.toUInt8 ∨ c = 'i'.toUInt8 then
    (vaInteger d.isLong (·.signExtend 64) ap).map fun (val, ap) =>
      (formatInt size o val .ten d.width d.zeropad d.leftJustify false true, ap)
  else if c = 'u'.toUInt8 then
    (vaInteger d.isLong (·.setWidth 64) ap).map fun (val, ap) =>
      (formatInt size o val .ten d.width d.zeropad d.leftJustify false false, ap)
  else if c = 'x'.toUInt8 ∨ c = 'X'.toUInt8 then
    (vaInteger d.isLong (·.setWidth 64) ap).map fun (val, ap) =>
      (formatInt size o val .sixteen d.width d.zeropad d.leftJustify (c = 'X'.toUInt8) false, ap)
  else if c = 's'.toUInt8 then
    match ap with
    | .str s :: ap =>
      let s := s.getD ("(null)".toList.map Char.toUInt8)
      let len := min s.length (d.precision.getD s.length)
      let padding : Int := (d.width : Int) - (BitVec.ofNat 32 len).toInt
      let o := if !d.leftJustify then appendN size ' '.toUInt8 padding.toNat o else o
      let o := (s.take len).foldl (bufferAppend size) o
      some (if d.leftJustify then appendN size ' '.toUInt8 padding.toNat o else o, ap)
    | _ => none
  else if c = 'c'.toUInt8 then
    match ap with
    | .int v :: ap => some (bufferAppend size o (UInt8.ofNat v.toNat), ap)
    | _ => none
  else if c = 'p'.toUInt8 then
    match ap with
    | .ptr p :: ap =>
      let o := bufferAppend size (bufferAppend size o '0'.toUInt8) 'x'.toUInt8
      some (formatInt size o p .sixteen 0 false false false false, ap)
    | _ => none
  else if c = '%'.toUInt8 then some (bufferAppend size o '%'.toUInt8, ap)
  else
    let o := bufferAppend size o '%'.toUInt8
    some (if c ≠ 0 then bufferAppend size o c else o, ap)

/-! ## The loop over the format -/

theorem length_flags : ∀ (p : List UInt8) (z l : Bool), (flags p z l).2.2.length ≤ p.length
  | [], _, _ => Nat.le_refl _
  | c :: p, z, l => by
    have ih := length_flags p
    unfold flags
    split
    · exact Nat.le_succ_of_le (ih true l)
    · split
      · exact Nat.le_succ_of_le (ih z true)
      · exact Nat.le_refl _

theorem length_number : ∀ {p q : List UInt8} {n w : Nat}, number p n = some (w, q) → q.length ≤ p.length
  | [], q, n, w, h => by
    cases h
    exact Nat.le_refl _
  | c :: p, q, n, w, h => by
    unfold number at h
    split at h
    · split at h
      · exact Nat.le_succ_of_le (length_number h)
      · cases h
    · cases h
      exact Nat.le_refl _

theorem length_precision {p q : List UInt8} {w : Option Nat} (h : precision p = some (w, q)) : q.length ≤ p.length := by
  cases p with
  | nil =>
    cases h
    exact Nat.le_refl _
  | cons c p =>
    rw [precision] at h
    by_cases hc : c = '.'.toUInt8
    · rw [if_pos hc] at h
      obtain ⟨⟨n, q'⟩, hn, hq⟩ := Option.map_eq_some_iff.1 h
      cases hq
      exact Nat.le_succ_of_le (length_number hn)
    · rw [if_neg hc] at h
      cases h
      exact Nat.le_refl _

theorem length_lengthModifier (p : List UInt8) : (lengthModifier p).2.length ≤ p.length := by
  cases p with
  | nil => exact Nat.le_refl _
  | cons c p =>
    rw [lengthModifier, length_cons]
    by_cases hc : c = 'l'.toUInt8
    · rw [if_pos hc]
      dsimp only
      split
      · rw [length_tail]
        omega
      · exact Nat.le_succ _
    · rw [if_neg hc]
      exact Nat.le_refl _

theorem length_directive {p q : List UInt8} {d : Spec} (h : directive p = some (d, q)) : q.length ≤ p.length := by
  unfold directive at h
  obtain ⟨⟨w, p1⟩, hw, h⟩ := Option.bind_eq_some_iff.1 h
  obtain ⟨⟨prec, p2⟩, hprec, h⟩ := Option.map_eq_some_iff.1 h
  cases h
  exact Nat.le_trans (length_lengthModifier p2)
    (Nat.le_trans (length_precision hprec) (Nat.le_trans (length_number hw) (length_flags p false false)))

/-- `while (*p)`, on the bytes before the NUL; `none` where an argument has another type or a number is beyond an `int`. -/
def loop (size : Nat) (p : List UInt8) (ap : List Arg) (o : Out) : Option Out :=
  match p with
  | [] => some o
  | c :: p =>
    if c ≠ '%'.toUInt8 then loop size p ap (bufferAppend size o c)
    else
      match _hd : directive p with
      | none => none
      | some (d, q) =>
        match conversion size d (q.headD 0) ap o with
        | none => none
        | some (o, ap) => loop size q.tail ap o
termination_by p.length
decreasing_by
  · exact Nat.lt_succ_self _
  · have := length_directive _hd
    rw [length_tail, length_cons]
    omega

def vsnprintf (str : Buffer) (size : Nat) (format : List UInt8) (ap : List Arg) : Option (Buffer × Int) :=
  let str := if 0 < size then str.set 0 0 else str
  (loop size format ap ⟨str, 0⟩).map fun o =>
    (if 0 < size then o.str.set (if o.pos < size then o.pos else size - 1) 0 else o.str, (BitVec.ofNat 32 o.pos).toInt)

/-! ## Characters handed over -/

variable {size : Nat} {o : Out} {text : List UInt8} {α : Type*}

def append (size : Nat) (o : Out) (text : List UInt8) : Out := text.foldl (bufferAppend size) o

theorem append_append (size : Nat) (o : Out) (s t : List UInt8) :
    append size (append size o s) t = append size o (s ++ t) := by
  simp [append]

theorem appendN_eq (size : Nat) (c : UInt8) : ∀ (n : Nat) (o : Out), appendN size c n o = append size o (List.replicate n c)
  | 0, _ => rfl
  | n + 1, o => appendN_eq size c n (bufferAppend size o c)

theorem append_pos : ∀ (text : List UInt8) (o : Out), (append size o text).pos = o.pos + text.length
  | [], _ => rfl
  | c :: text, o => by
    have ih := append_pos text (bufferAppend size o c)
    rw [append, foldl_cons, ← append, ih, length_cons]
    show o.pos + 1 + text.length = o.pos + (text.length + 1)
    omega

theorem append_str : ∀ (text : List UInt8) (o : Out) (i : Nat), (append size o text).str i =
    if o.pos ≤ i ∧ i < o.pos + text.length ∧ i + 1 < size then text.getD (i - o.pos) 0 else o.str i
  | [], o, i => by
    rw [if_neg]
    · rfl
    · rintro ⟨hlo, hhi, -⟩
      rw [length_nil] at hhi
      omega
  | c :: text, o, i => by
    have hpos : (bufferAppend size o c).pos = o.pos + 1 := rfl
    have hstr : (bufferAppend size o c).str i = if o.pos = i ∧ i + 1 < size then c else o.str i := by
      unfold bufferAppend
      dsimp only
      by_cases hroom : 0 < size ∧ o.pos < size - 1
      · rw [if_pos hroom, Buffer.set]
        by_cases hi : i = o.pos
        · rw [if_pos hi, if_pos (by omega)]
        · rw [if_neg hi, if_neg (by omega)]
      · rw [if_neg hroom, if_neg (by omega)]
    rw [append, foldl_cons, ← append, append_str text, hstr, hpos, length_cons]
    by_cases hi : i = o.pos
    · rw [if_neg (by omega)]
      by_cases hroom : i + 1 < size
      · rw [if_pos ⟨hi.symm, hroom⟩, if_pos (by omega), hi, Nat.sub_self]
        rfl
      · rw [if_neg (by omega), if_neg (by omega)]
    · rw [if_neg (show ¬ (o.pos = i ∧ i + 1 < size) by omega)]
      by_cases hin : o.pos ≤ i ∧ i < o.pos + (text.length + 1) ∧ i + 1 < size
      · have hsub : i - o.pos = i - (o.pos + 1) + 1 := by omega
        rw [if_pos hin, if_pos (by omega), hsub, getD_cons_succ]
      · rw [if_neg hin, if_neg (by omega)]

/-- **All at once, where they fit, or one after the other.** -/
theorem blit_eq_append (hfits : o.pos + text.length < size) :
    (⟨o.str.blit o.pos (fun i => text.getD i 0) text.length, o.pos + text.length⟩ : Out) = append size o text := by
  have hstr : o.str.blit o.pos (fun i => text.getD i 0) text.length = (append size o text).str := by
    funext i
    rw [append_str, Buffer.blit]
    have hiff : (o.pos ≤ i ∧ i < o.pos + text.length) ↔ (o.pos ≤ i ∧ i < o.pos + text.length ∧ i + 1 < size) := by omega
    simp [hiff]
  rw [hstr, ← append_pos]

theorem pad_fst (size : Nat) (c : UInt8) (o : Out) (padding : Int) :
    (pad size c o padding).1 = append size o (List.replicate padding.toNat c) := by
  unfold pad
  by_cases hfits : 0 < size ∧ o.pos + padding.toNat < size
  · have hfits' : o.pos + (List.replicate padding.toNat c).length < size := by
      rw [length_replicate]
      exact hfits.2
    rw [if_pos hfits, ← blit_eq_append hfits', length_replicate]
    have hblit : o.str.blit o.pos (fun _ => c) padding.toNat =
        o.str.blit o.pos (fun i => (List.replicate padding.toNat c).getD i 0) padding.toNat := by
      funext i
      unfold Buffer.blit
      by_cases hin : o.pos ≤ i ∧ i < o.pos + padding.toNat
      · rw [if_pos hin, if_pos hin]
        dsimp only
        rw [getD_eq_getElem?_getD, List.getElem?_replicate, if_pos (by omega), Option.getD_some]
      · rw [if_neg hin, if_neg hin]
    rw [hblit]
  · rw [if_neg hfits]
    exact appendN_eq size c padding.toNat o

/-! ## What does not depend on the size -/

theorem formatInt_append (val : BitVec 64) (base : Base) (width : Nat) (zeropad leftJustify uppercase isSigned : Bool)
    (hone : zeropad = false ∨ leftJustify = false) :
    ∃ text, ∀ size o, formatInt size o val base width zeropad leftJustify uppercase isSigned = append size o text := by
  have hdigits (size : Nat) (o : Out) (temp : List UInt8) : (if 0 < size ∧ o.pos + temp.length < size then
      ⟨o.str.blit o.pos (fun i => temp.getD i 0) temp.length, o.pos + temp.length⟩
      else temp.foldl (bufferAppend size) o : Out) = append size o temp := by
    split
    · rename_i hfits
      exact blit_eq_append hfits.2
    · rfl
  have hsign (size : Nat) (o : Out) (isNeg : Bool) : (if isNeg then bufferAppend size o '-'.toUInt8 else o) =
      append size o (if isNeg then ['-'.toUInt8] else []) := by
    cases isNeg <;> rfl
  unfold formatInt
  dsimp only
  generalize (isSigned && base = .ten && decide (val.toInt < 0)) = isNeg
  generalize (if (if isNeg then -val else val) = 0 then ['0'.toUInt8] else _) = temp
  generalize (width : Int) - _ = padding
  by_cases hpad : 0 < padding
  · have hpad' : decide (0 < padding) = true := decide_eq_true hpad
    cases leftJustify with
    | false =>
      cases zeropad with
      | false =>
        refine ⟨List.replicate padding.toNat ' '.toUInt8 ++ (if isNeg then ['-'.toUInt8] else []) ++ temp, fun size o => ?_⟩
        simp only [hpad', Bool.not_false, Bool.and_true, Bool.false_and, if_true, Bool.false_eq_true, if_false]
        rw [hdigits, hsign, pad_fst, append_append, append_append, append_assoc]
      | true =>
        refine ⟨(if isNeg then ['-'.toUInt8] else []) ++ List.replicate padding.toNat '0'.toUInt8 ++ temp, fun size o => ?_⟩
        simp only [hpad', Bool.not_true, Bool.and_true, Bool.and_false, Bool.false_and, if_true,
          Bool.false_eq_true, if_false]
        rw [hdigits, pad_fst, hsign, append_append, append_append, append_assoc]
    | true =>
      obtain rfl : zeropad = false := hone.resolve_right (by decide)
      refine ⟨(if isNeg then ['-'.toUInt8] else []) ++ temp ++ List.replicate padding.toNat ' '.toUInt8, fun size o => ?_⟩
      simp only [hpad', Bool.not_true, Bool.false_and, Bool.true_and, if_true, Bool.false_eq_true, if_false]
      rw [pad_fst, hdigits, hsign, append_append, append_append, append_assoc]
  · have hpad' : decide (0 < padding) = false := decide_eq_false hpad
    refine ⟨(if isNeg then ['-'.toUInt8] else []) ++ temp, fun size o => ?_⟩
    simp only [hpad', Bool.and_false, Bool.false_eq_true, if_false]
    rw [hdigits, hsign, append_append]

/-- The conversions of an integer. -/
def integers : List UInt8 := ['d'.toUInt8, 'i'.toUInt8, 'u'.toUInt8, 'x'.toUInt8, 'X'.toUInt8]

theorem spec_one {p q : List UInt8} {d : Spec} (h : directive p = some (d, q)) :
    d.zeropad = false ∨ d.leftJustify = false := by
  unfold directive at h
  obtain ⟨⟨w, p1⟩, -, h⟩ := Option.bind_eq_some_iff.1 h
  obtain ⟨⟨prec, p2⟩, -, h⟩ := Option.map_eq_some_iff.1 h
  cases h
  cases (flags p false false).2.1 <;> simp

/-- What a conversion takes off the argument list: an argument of its type, or none. -/
inductive Takes (d : Spec) (c : UInt8) : List Arg → List Arg → Prop
  | int {v ap} : c ∈ integers → d.isLong = false → Takes d c (.int v :: ap) ap
  | long {v ap} : c ∈ integers → d.isLong = true → Takes d c (.long v :: ap) ap
  | char {v ap} : c = 'c'.toUInt8 → Takes d c (.int v :: ap) ap
  | str {s ap} : c = 's'.toUInt8 → Takes d c (.str s :: ap) ap
  | ptr {p ap} : c = 'p'.toUInt8 → Takes d c (.ptr p :: ap) ap
  | none {ap} : c ∉ integers ++ ['c'.toUInt8, 's'.toUInt8, 'p'.toUInt8] → Takes d c ap ap

/-- The argument list matches the format: the numbers of its directives are of an `int`, and each finds an argument of its
type. -/
inductive Matches : List UInt8 → List Arg → Prop
  | done {ap} : Matches [] ap
  | char {c p ap} : c ≠ '%'.toUInt8 → Matches p ap → Matches (c :: p) ap
  | directive {p q d ap aq} : directive p = some (d, q) → Takes d (q.headD 0) ap aq → Matches q.tail aq →
    Matches ('%'.toUInt8 :: p) ap

variable {ap aq : List Arg}

theorem conversion_integer {d : Spec} (hd : d.zeropad = false ∨ d.leftJustify = false) {c : UInt8} (hc : c ∈ integers)
    (h : ∀ extend, ∃ v, vaInteger d.isLong extend ap = some (v, aq)) :
    ∃ text, ∀ size o, conversion size d c ap o = some (append size o text, aq) := by
  have hsome (extend : BitVec 32 → BitVec 64) (base : Base) (uppercase isSigned : Bool) : ∃ text, ∀ size o,
      ((vaInteger d.isLong extend ap).map fun (val, ap) =>
        (formatInt size o val base d.width d.zeropad d.leftJustify uppercase isSigned, ap)) =
          some (append size o text, aq) := by
    obtain ⟨v, hv⟩ := h extend
    obtain ⟨text, htext⟩ := formatInt_append v base d.width d.zeropad d.leftJustify uppercase isSigned hd
    exact ⟨text, fun size o => by rw [hv, Option.map_some, ← htext]⟩
  simp only [integers, mem_cons, not_mem_nil, or_false] at hc
  rcases hc with rfl | rfl | rfl | rfl | rfl
  · exact hsome _ .ten false true
  · exact hsome _ .ten false true
  · exact hsome _ .ten false false
  · exact hsome _ .sixteen false false
  · exact hsome _ .sixteen true false

/-- Whatever the size and the buffer, a conversion that has its argument hands over the same characters. -/
theorem conversion_append {d : Spec} (hd : d.zeropad = false ∨ d.leftJustify = false) {c : UInt8} (h : Takes d c ap aq) :
    ∃ text, ∀ size o, conversion size d c ap o = some (append size o text, aq) := by
  have hcons (size : Nat) (o : Out) (c : UInt8) : bufferAppend size o c = append size o [c] := rfl
  cases h with
  | int hc hlong => exact conversion_integer hd hc fun extend => ⟨_, by rw [vaInteger, hlong]; rfl⟩
  | long hc hlong => exact conversion_integer hd hc fun extend => ⟨_, by rw [vaInteger, hlong]; rfl⟩
  | @char v ap hc =>
    subst hc
    exact ⟨[UInt8.ofNat v.toNat], fun _ _ => rfl⟩
  | @str s ap hc =>
    subst hc
    generalize hs : s.getD ("(null)".toList.map Char.toUInt8) = s'
    generalize hn : ((d.width : Int) - (BitVec.ofNat 32 (min s'.length (d.precision.getD s'.length))).toInt).toNat = n
    refine ⟨if d.leftJustify then s'.take (min s'.length (d.precision.getD s'.length)) ++ List.replicate n ' '.toUInt8
      else List.replicate n ' '.toUInt8 ++ s'.take (min s'.length (d.precision.getD s'.length)), fun size o => ?_⟩
    rw [conversion, if_neg (by decide), if_neg (by decide), if_neg (by decide), if_pos rfl]
    dsimp only
    rw [hs, hn]
    simp only [appendN_eq]
    cases d.leftJustify with
    | false => exact congrArg (fun o => some (o, aq)) (append_append size o _ _)
    | true => exact congrArg (fun o => some (o, aq)) (append_append size o _ _)
  | @ptr p ap hc =>
    subst hc
    obtain ⟨text, htext⟩ := formatInt_append p .sixteen 0 false false false false (.inl rfl)
    refine ⟨['0'.toUInt8, 'x'.toUInt8] ++ text, fun size o => ?_⟩
    rw [conversion, if_neg (by decide), if_neg (by decide), if_neg (by decide), if_neg (by decide), if_neg (by decide),
      if_pos rfl]
    dsimp only
    rw [htext, hcons, hcons, append_append, append_append]
    rfl
  | none hc =>
    simp only [integers, cons_append, nil_append, mem_cons, not_mem_nil, or_false, not_or] at hc
    obtain ⟨hd', hi, hu, hx, hX, hchar, hs, hp⟩ := hc
    by_cases hpercent : c = '%'.toUInt8
    · exact ⟨['%'.toUInt8], fun size o => by simp [conversion, *]; rfl⟩
    · refine ⟨'%'.toUInt8 :: (if c ≠ 0 then [c] else []), fun size o => ?_⟩
      simp only [conversion, hd', hi, hu, hx, hX, hchar, hs, hp, hpercent, or_self, if_false]
      split <;> rfl

/-- **A list that matches has a result**: the same characters for every size and buffer. -/
theorem loop_append {format : List UInt8} (h : Matches format ap) :
    ∃ text, ∀ size o, loop size format ap o = some (append size o text) := by
  induction h with
  | done =>
    refine ⟨[], fun size o => ?_⟩
    rw [loop]
    rfl
  | @char c p ap hc _ ih =>
    obtain ⟨text, htext⟩ := ih
    refine ⟨c :: text, fun size o => ?_⟩
    rw [loop, if_pos hc, htext]
    rfl
  | @directive p q d ap aq hd htakes _ ih =>
    obtain ⟨text, htext⟩ := conversion_append (spec_one hd) htakes
    obtain ⟨rest, hrest⟩ := ih
    refine ⟨text ++ rest, fun size o => ?_⟩
    rw [loop, if_neg (not_not.2 rfl)]
    split <;> rename_i heq <;> rw [hd] at heq <;> cases heq
    rw [htext]
    dsimp only
    rw [hrest, append_append]

/-! ## The buffer -/

/-- A text in a buffer of `size` bytes: as much of it as there is room for, a NUL, and nothing else changed. -/
structure Cut (text : List UInt8) (str : Buffer) (size : Nat) (b : Buffer) : Prop where
  beyond : ∀ i, size ≤ i → b i = str i
  shown : 0 < size → b.list 0 (min (size - 1) text.length) = text.take (size - 1)
  ends : 0 < size → b (min (size - 1) text.length) = 0

theorem cut_append (text : List UInt8) (str : Buffer) (size : Nat) :
    Cut text str size (if 0 < size then (append size ⟨str.set 0 0, 0⟩ text).str.set (min (size - 1) text.length) 0
      else (append size ⟨str, 0⟩ text).str) := by
  by_cases hsize : 0 < size
  · rw [if_pos hsize]
    refine ⟨fun i hi => ?_, fun _ => ?_, fun _ => Buffer.set_self⟩
    · rw [Buffer.set_of_ne (by omega), append_str, if_neg (by omega)]
      exact Buffer.set_of_ne (by omega)
    · apply ext_getElem
      · rw [Buffer.length_list, length_take]
      · intro i hi _
        rw [Buffer.length_list] at hi
        have hlt : i < text.length := by omega
        simp only [Buffer.list, getElem_map, getElem_range, getElem_take, Nat.zero_add]
        rw [Buffer.set_of_ne (by omega), append_str, if_pos (by dsimp only; omega)]
        simp [hlt]
  · rw [if_neg hsize]
    refine ⟨fun i _ => ?_, fun h => absurd h hsize, fun h => absurd h hsize⟩
    rw [append_str, if_neg (by omega)]

/-- **One text for every size**: whatever the buffer and its size, the same number is returned and as much of the same text
is left in the buffer as there is room for; in a buffer with room for all of it, the whole text. -/
theorem vsnprintf_any_size {format : List UInt8} (h : Matches format ap) :
    ∃ text, (text.length < 2 ^ 31 → (BitVec.ofNat 32 text.length).toInt = text.length) ∧ ∀ str size, ∃ b,
      vsnprintf str size format ap = some (b, (BitVec.ofNat 32 text.length).toInt) ∧ Cut text str size b := by
  obtain ⟨text, htext⟩ := loop_append h
  refine ⟨text, fun hlt => ?_, fun str size => ⟨_, ?_, cut_append text str size⟩⟩
  · rw [BitVec.toInt_ofNat', Int.bmod_eq_of_le (by omega) (by omega)]
  · have hpos : ∀ b : Buffer, (append size ⟨b, 0⟩ text).pos = text.length := fun b => by rw [append_pos, Nat.zero_add]
    have hlast : (if text.length < size then text.length else size - 1) = min (size - 1) text.length := by
      split <;> omega
    rw [vsnprintf, htext, Option.map_some, hpos, hlast]
    by_cases hsize : 0 < size
    · simp [if_pos hsize]
    · simp [if_neg hsize]

/-- `%-4d|%s` of 7 and `ok`: seven characters, in a buffer of sixteen bytes, one of four and none. -/
theorem vsnprintf_any_size_padded :
    let format : List UInt8 := "%-4d|%s".toList.map Char.toUInt8
    let ap : List Arg := [.int 7, .str (some ("ok".toList.map Char.toUInt8))]
    let text : List UInt8 := "7   |ok".toList.map Char.toUInt8
    ∃ b b4 b0, vsnprintf (fun _ => 9) 16 format ap = some (b, 7) ∧ Cut text (fun _ => 9) 16 b ∧
      vsnprintf (fun _ => 9) 4 format ap = some (b4, 7) ∧ Cut text (fun _ => 9) 4 b4 ∧
      vsnprintf (fun _ => 9) 0 format ap = some (b0, 7) ∧ Cut text (fun _ => 9) 0 b0 := by
  intro format ap text'
  have hmatches : Matches format ap :=
    .directive (q := "d|%s".toList.map Char.toUInt8) rfl (.int (by decide) rfl)
      (.char (by decide) (.directive (q := "s".toList.map Char.toUInt8) rfl (.str rfl) .done))
  obtain ⟨text, -, hall⟩ := vsnprintf_any_size hmatches
  -- a buffer with room for more shows all of the text
  obtain ⟨b, hb, hcut⟩ := hall (fun _ => 9) 16
  have hrun : (vsnprintf (fun _ => 9) 16 format ap).map (fun r => (r.1.list 0 7, r.1.list 7 9, r.2)) =
      some (text', 0 :: List.replicate 8 9, 7) := by decide +kernel
  rw [hb, Option.map_some, Option.some_inj, Prod.mk.injEq, Prod.mk.injEq] at hrun
  obtain ⟨hshown, hbehind, hcount⟩ := hrun
  have hlen : text.length = 7 := by
    have hbyte (i : Nat) (hi : i < 16) : b i = (b.list 0 7 ++ b.list 7 9).getD i 0 := by
      rw [← Buffer.list_add, Buffer.list]
      simp [hi]
    have hends := hcut.ends (by decide)
    rw [hbyte _ (by omega), hshown, hbehind] at hends
    have hnul : ∀ m < 16, ("7   |ok".toList.map Char.toUInt8 ++ 0 :: List.replicate 8 9).getD m 0 = 0 → m = 7 := by decide
    have := hnul _ (by omega) hends
    omega
  have htext : text = text' := by
    have := hcut.shown (by decide)
    rw [hlen, show min (16 - 1) 7 = 7 from rfl, hshown, take_of_length_le (by omega)] at this
    exact this.symm
  have hseven : (BitVec.ofNat 32 text.length).toInt = 7 := hcount
  rw [hseven, htext] at hall
  obtain ⟨b16, h16, hcut16⟩ := hall (fun _ => 9) 16
  obtain ⟨b4, h4, hcut4⟩ := hall (fun _ => 9) 4
  obtain ⟨b0, h0, hcut0⟩ := hall (fun _ => 9) 0
  exact ⟨b16, b4, b0, h16, hcut16, h4, hcut4, h0, hcut0⟩

end EterOS.Kprintf
