import EterOS.Lib.Swar
import EterOS.Libc.ByteStrings
/-!
# WordStrings — the string functions, a word at a time

The x86-64 paths of `kernel/string.c` and `userspace/libc/src/string.c`.  They go byte by byte to an address that eight
divides, then word by word, over the end of the string where it ends inside a word.  Each comes back with what the function
does byte by byte (`WordWise`).
-/
namespace EterOS.Strings

open Swar (word zeroMask pattern)
open Loop (Returns Gives After Leaps)

section Functions

variable (m : Buffer)

/-! ## Comparisons -/

/-- The first loop of `memcmp`: where it stops. -/
def memcmpWords (a b n : Nat) : Nat × Nat × Nat :=
  if 8 ≤ n then if word m a ≠ word m b then (a, b, n) else memcmpWords (a + 8) (b + 8) (n - 8) else (a, b, n)
termination_by n
decreasing_by omega

def memcmpBy (a b n : Nat) : Int :=
  let (a, b, n) := memcmpWords m a b n
  Bytewise.memcmp m a b n

/-- The first loop of `strcmp`, to an address of the first string that eight divides; `inr` where it returns. -/
def strcmpAlign (s1 s2 : Nat) : (Nat × Nat) ⊕ Int :=
  if s1 % 8 ≠ 0 then
    if m s1 ≠ m s2 then .inr (diff (m s1) (m s2))
    else if m s1 = 0 then .inr 0
    else strcmpAlign (s1 + 1) (s2 + 1)
  else .inl (s1, s2)
termination_by (8 - s1 % 8) % 8
decreasing_by omega

def strcmpWord (s : Nat × Nat) : (Nat × Nat) ⊕ (Nat × Nat) :=
  if zeroMask (word m s.1) ≠ 0 ∨ word m s.1 ≠ word m s.2 then .inr s else .inl (s.1 + 8, s.2 + 8)

def strcmpBy (s1 s2 turns : Nat) : Option Int :=
  match strcmpAlign m s1 s2 with
  | .inr r => some r
  | .inl s =>
    if s.2 % 8 = 0 then (Loop.run (strcmpWord m) turns s).bind fun s => Loop.run (Bytewise.strcmpTurn m) turns s
    else Loop.run (Bytewise.strcmpTurn m) turns s

def strncmpAlign (s1 s2 n : Nat) : (Nat × Nat × Nat) ⊕ Int :=
  if 0 < n ∧ s1 % 8 ≠ 0 then
    if m s1 ≠ m s2 then .inr (diff (m s1) (m s2))
    else if m s1 = 0 then .inr 0
    else strncmpAlign (s1 + 1) (s2 + 1) (n - 1)
  else .inl (s1, s2, n)
termination_by n
decreasing_by omega

def strncmpWords (s1 s2 n : Nat) : Nat × Nat × Nat :=
  if 8 ≤ n then
    if zeroMask (word m s1) ≠ 0 ∨ word m s1 ≠ word m s2 then (s1, s2, n) else strncmpWords (s1 + 8) (s2 + 8) (n - 8)
  else (s1, s2, n)
termination_by n
decreasing_by omega

def strncmpBy (s1 s2 n : Nat) : Int :=
  if n = 0 then 0
  else
    match strncmpAlign m s1 s2 n with
    | .inr r => r
    | .inl (s1, s2, n) =>
      let (s1, s2, n) := if 8 ≤ n ∧ s2 % 8 = 0 then strncmpWords m s1 s2 n else (s1, s2, n)
      Bytewise.strncmp m s1 s2 n

/-! ## Lengths -/

/-- The tests `if (cp[i] == 0)` for the `i` below `n` in turn: the first that holds. -/
def tests (cp n : Nat) : Option Nat := (List.range n).find? fun i => m (cp + i) = 0

def strlenAlign (s p : Nat) : Nat ⊕ Nat :=
  if p % 8 ≠ 0 then if m p = 0 then .inr (p - s) else strlenAlign s (p + 1) else .inl p
termination_by (8 - p % 8) % 8
decreasing_by omega

def strlenBy (turn : Nat → Nat → Nat ⊕ Nat) (s turns : Nat) : Option Nat :=
  match strlenAlign m s s with
  | .inr r => some r
  | .inl p => Loop.run (turn s) turns p

def strnlenAlign (s p n : Nat) : (Nat × Nat) ⊕ Nat :=
  if 0 < n ∧ p % 8 ≠ 0 then if m p = 0 then .inr (p - s) else strnlenAlign s (p + 1) (n - 1) else .inl (p, n)
termination_by n
decreasing_by omega

def strnlenWords (s p n : Nat) : (Nat × Nat) ⊕ Nat :=
  if 8 ≤ n then
    if zeroMask (word m p) ≠ 0 then
      match tests m p 8 with
      | some i => .inr (p + i - s)
      | none => strnlenWords s (p + 8) (n - 8)
    else strnlenWords s (p + 8) (n - 8)
  else .inl (p, n)
termination_by n
decreasing_by all_goals omega

def strnlenBy (s maxlen : Nat) : Nat :=
  match strnlenAlign m s s maxlen with
  | .inr r => r
  | .inl (p, n) =>
    match strnlenWords m s p n with
    | .inr r => r
    | .inl (p, n) => Bytewise.strnlenFrom m s p n

/-! ## Searches -/

def strchrAlign (ch : UInt8) (s : Nat) : Nat ⊕ Option Nat :=
  if s % 8 ≠ 0 then if m s = ch then .inr (some s) else if m s = 0 then .inr none else strchrAlign ch (s + 1) else .inl s
termination_by (8 - s % 8) % 8
decreasing_by omega

def foundMask (ch : UInt8) (s : Nat) : BitVec 64 := zeroMask (word m s) ||| zeroMask (word m s ^^^ pattern ch)

def memchrAlign (c : UInt8) (p n : Nat) : (Nat × Nat) ⊕ Nat :=
  if n ≠ 0 ∧ p % 8 ≠ 0 then if m p = c then .inr p else memchrAlign c (p + 1) (n - 1) else .inl (p, n)
termination_by n
decreasing_by omega

def memchrWords (c : UInt8) (p n : Nat) : Nat × Nat :=
  if 8 ≤ n then if zeroMask (word m p ^^^ pattern c) ≠ 0 then (p, n) else memchrWords c (p + 8) (n - 8) else (p, n)
termination_by n
decreasing_by omega

end Functions

/-! ## `kernel/string.c` -/

namespace Kernel

def memcmp (m : Buffer) (s1 s2 n : Nat) : Int := memcmpBy m s1 s2 n

def strlenWord (m : Buffer) (s p : Nat) : Nat ⊕ Nat :=
  if zeroMask (word m p) ≠ 0 then
    match tests m p 8 with
    | some i => .inr (p + i - s)
    | none => .inl (p + 8)
  else .inl (p + 8)

def strlen (m : Buffer) (s turns : Nat) : Option Nat := strlenBy m (strlenWord m) s turns

def strnlen (m : Buffer) (s maxlen : Nat) : Nat := strnlenBy m s maxlen

def strcmp (m : Buffer) (s1 s2 turns : Nat) : Option Int := strcmpBy m s1 s2 turns

def strncmp (m : Buffer) (s1 s2 n : Nat) : Int := strncmpBy m s1 s2 n

def strchrWord (m : Buffer) (ch : UInt8) (s : Nat) : Nat ⊕ Option Nat :=
  if foundMask m ch s ≠ 0 then
    match (List.range 8).find? fun i => m (s + i) = ch ∨ m (s + i) = 0 with
    | some i => .inr (if m (s + i) = ch then some (s + i) else none)
    | none => .inr none
  else .inl (s + 8)

def strchr (m : Buffer) (s : Nat) (c : Int) (turns : Nat) : Option (Option Nat) :=
  let ch := UInt8.ofInt c
  if ch = 0 then (strlen m s turns).map fun n => some (s + n)
  else
    match strchrAlign m ch s with
    | .inr r => some r
    | .inl s => Loop.run (strchrWord m ch) turns s

def movsbUp (m : Buffer) (d s : Nat) : Nat → Buffer
  | 0 => m
  | n + 1 => movsbUp (m.set d (m s)) (d + 1) (s + 1) n

/-- `cld; rep movsq`: the memory and the registers after it. -/
def movsqUp (m : Buffer) (d s : Nat) : Nat → Buffer × Nat × Nat
  | 0 => (m, d, s)
  | n + 1 => movsqUp (m.moveWord d s) (d + 8) (s + 8) n

def movsbDown (m : Buffer) (d s : Nat) : Nat → Buffer × Nat × Nat
  | 0 => (m, d, s)
  | n + 1 => movsbDown (m.set d (m s)) (d - 1) (s - 1) n

def movsqDown (m : Buffer) (d s : Nat) : Nat → Buffer
  | 0 => m
  | n + 1 => movsqDown (m.moveWord d s) (d - 8) (s - 8) n

def memmove (m : Buffer) (dest src n : Nat) : Buffer :=
  if dest = src ∨ n = 0 then m
  else if dest < src then
    let (m, d, s) := movsqUp m dest src (n / 8)
    movsbUp m d s (n % 8)
  else
    let (m, d, s) := movsbDown m (dest + n - 1) (src + n - 1) (n % 8)
    movsqDown m (d - 7) (s - 7) (n / 8)

end Kernel

/-! ## `userspace/libc/src/string.c` -/

namespace Libc

/-- `while (n >= 8) { *(uint64_t *)d = *(const uint64_t *)s; … }`: the memory, and what is left. -/
def wordsUp (m : Buffer) (d s n : Nat) : Buffer × Nat × Nat × Nat :=
  if 8 ≤ n then wordsUp (m.moveWord d s) (d + 8) (s + 8) (n - 8) else (m, d, s, n)
termination_by n
decreasing_by omega

/-- `while (n >= 8) { d -= 8; s -= 8; n -= 8; … }`, from `n` bytes behind `d` and `s`. -/
def wordsDown (m : Buffer) (d s n : Nat) : Buffer × Nat :=
  if 8 ≤ n then wordsDown (m.moveWord (d + (n - 8)) (s + (n - 8))) d s (n - 8) else (m, n)
termination_by n
decreasing_by omega

def memmove (m : Buffer) (dest src n : Nat) : Buffer :=
  if dest < src then
    let (m, d, s, n) := wordsUp m dest src n
    Bytewise.copyUp m d s n
  else if src < dest then
    let (m, n) := wordsDown m dest src n
    Bytewise.copyDown m dest src n
  else m

def memcmp (m : Buffer) (s1 s2 n : Nat) : Int := memcmpBy m s1 s2 n

def strlenWord (m : Buffer) (s p : Nat) : Nat ⊕ Nat :=
  if zeroMask (word m p) ≠ 0 then
    match tests m p 7 with
    | some i => .inr (p + i - s)
    | none => .inr (p + 7 - s)
  else .inl (p + 8)

def strlen (m : Buffer) (s turns : Nat) : Option Nat := strlenBy m (strlenWord m) s turns

def strnlen (m : Buffer) (s maxlen : Nat) : Nat := strnlenBy m s maxlen

def strcmp (m : Buffer) (s1 s2 turns : Nat) : Option Int := strcmpBy m s1 s2 turns

def strncmp (m : Buffer) (s1 s2 n : Nat) : Int := strncmpBy m s1 s2 n

def strchrWord (m : Buffer) (ch : UInt8) (s : Nat) : Nat ⊕ Nat :=
  if foundMask m ch s ≠ 0 then .inr s else .inl (s + 8)

def strchr (m : Buffer) (s : Nat) (c : Int) (turns : Nat) : Option (Option Nat) :=
  let ch := UInt8.ofInt c
  match strchrAlign m ch s with
  | .inr r => some r
  | .inl s => (Loop.run (strchrWord m ch) turns s).bind fun s => Loop.run (Bytewise.strchrTurn m ch) turns s

def memchr (m : Buffer) (s : Nat) (c : Int) (n : Nat) : Option Nat :=
  let c := UInt8.ofInt c
  match memchrAlign m c s n with
  | .inr p => some p
  | .inl (p, n) =>
    let (p, n) := memchrWords m c p n
    Bytewise.memchrFrom m c p n

end Libc

/-! ## Words of bytes -/

variable {m : Buffer} {a b c d s s1 s2 p k n cp : Nat} {ch : UInt8}

theorem zeroMask_eq_zero : ¬ zeroMask (word m p) ≠ 0 ↔ ∀ i < 8, m (p + i) ≠ 0 := by
  rw [Swar.zeroMask_word]
  simp

theorem not_found : ¬ zeroMask (word m p ^^^ pattern ch) ≠ 0 ↔ ∀ i < 8, m (p + i) ≠ ch := by
  rw [Swar.zeroMask_xor_word]
  simp

theorem foundMask_ne_zero : foundMask m ch s ≠ 0 ↔ ∃ i < 8, m (s + i) = ch ∨ m (s + i) = 0 := by
  have hor : foundMask m ch s ≠ 0 ↔ zeroMask (word m s) ≠ 0 ∨ zeroMask (word m s ^^^ pattern ch) ≠ 0 := by
    unfold foundMask
    exact (not_congr BitVec.or_eq_zero_iff).trans not_and_or
  rw [hor, Swar.zeroMask_word, Swar.zeroMask_xor_word]
  constructor
  · rintro (⟨i, hi, h⟩ | ⟨i, hi, h⟩)
    · exact ⟨i, hi, .inr h⟩
    · exact ⟨i, hi, .inl h⟩
  · rintro ⟨i, hi, h | h⟩
    · exact .inr ⟨i, hi, h⟩
    · exact .inl ⟨i, hi, h⟩

theorem alike_of_words (h : ¬ (zeroMask (word m s1) ≠ 0 ∨ word m s1 ≠ word m s2)) : Alike m s1 s2 8 := by
  obtain ⟨hzero, hsame⟩ := not_or.1 h
  intro i hi
  exact ⟨zeroMask_eq_zero.1 hzero i hi, Swar.word_inj.1 (not_not.1 hsame) i hi⟩

theorem tests_eq_some {i : Nat} (h : tests m cp n = some i) : i < n ∧ m (cp + i) = 0 ∧ ∀ j < i, m (cp + j) ≠ 0 := by
  obtain ⟨hhit, hmem, hbefore⟩ := List.find?_range_eq_some.1 h
  refine ⟨List.mem_range.1 hmem, of_decide_eq_true hhit, fun j hj => ?_⟩
  simpa using hbefore j hj

theorem tests_eq_none (h : tests m cp n = none) : ∀ i < n, m (cp + i) ≠ 0 := by
  intro i hi
  simpa using List.find?_range_eq_none.1 h i hi

/-! ## Comparisons -/

theorem memcmpWords_spec (m : Buffer) (a b n : Nat) :
    Bytewise.memcmp m (memcmpWords m a b n).1 (memcmpWords m a b n).2.1 (memcmpWords m a b n).2.2 =
    Bytewise.memcmp m a b n := by
  fun_induction memcmpWords m a b n with
  | case1 a b n hle hne => rfl
  | case2 a b n hle heq ih =>
    have hsplit : n = 8 + (n - 8) := by omega
    rw [ih]
    conv_rhs => rw [hsplit]
    exact (memcmp_add 8 a b (n - 8) (Swar.word_inj.1 (not_not.1 heq))).symm
  | case3 a b n hlt => rfl

theorem memcmpBy_eq (m : Buffer) (a b n : Nat) : memcmpBy m a b n = Bytewise.memcmp m a b n := memcmpWords_spec m a b n

theorem strcmpAlign_comes (m : Buffer) (s1 s2 : Nat) :
    Loop.Comes (Bytewise.strcmpTurn m) (s1, s2) (strcmpAlign m s1 s2) := by
  fun_induction strcmpAlign m s1 s2 with
  | case1 s1 s2 _ hne => exact .done (strcmpTurn_end fun hgo => hne hgo.2)
  | case2 s1 s2 _ heq hz =>
    have hend := strcmpTurn_end (m := m) (s := (s1, s2)) fun hgo => hgo.1 hz
    rw [not_not.1 heq, diff_self] at hend
    exact .done hend
  | case3 s1 s2 _ heq hnz ih => exact .next (if_pos ⟨hnz, not_not.1 heq⟩) ih
  | case4 s1 s2 _ => exact .refl _

theorem strcmpWord_handover (m : Buffer) (s : Nat × Nat) :
    (∃ k s', 0 < k ∧ After (Bytewise.strcmpTurn m) k s s' ∧ strcmpWord m s = .inl s') ∨ strcmpWord m s = .inr s := by
  unfold strcmpWord
  by_cases hstop : zeroMask (word m s.1) ≠ 0 ∨ word m s.1 ≠ word m s.2
  · exact .inr (if_pos hstop)
  · exact .inl ⟨8, (s.1 + 8, s.2 + 8), by decide, strcmp_after (alike_of_words hstop), if_neg hstop⟩

theorem strcmpBy_returns (m : Buffer) (s1 s2 : Nat) (r : Int) :
    Returns (strcmpBy m s1 s2) r ↔ Returns (Bytewise.strcmp m s1 s2) r := by
  have hrest (s : Nat × Nat) : (∃ turns, (if s.2 % 8 = 0 then
      (Loop.run (strcmpWord m) turns s).bind fun s => Loop.run (Bytewise.strcmpTurn m) turns s
      else Loop.run (Bytewise.strcmpTurn m) turns s) = some r) ↔ Gives (Bytewise.strcmpTurn m) s r := by
    by_cases hodd : s.2 % 8 = 0
    · simp only [if_pos hodd]
      rw [Loop.Steady.bind_gives (Loop.steady_run _ _) fun _ => Loop.steady_run _ _]
      exact Loop.gives_handover (strcmpWord_handover m) s
    · simp only [if_neg hodd]
      rfl
  have hcomes := (strcmpAlign_comes m s1 s2).returns _ hrest
  unfold Returns strcmpBy
  refine Iff.trans ?_ hcomes
  cases strcmpAlign m s1 s2 with
  | inl s => rfl
  | inr r => rfl

theorem strncmpAlign_spec (m : Buffer) (s1 s2 n : Nat) :
    (strncmpAlign m s1 s2 n).elim (fun t => Bytewise.strncmp m t.1 t.2.1 t.2.2) id = Bytewise.strncmp m s1 s2 n := by
  fun_induction strncmpAlign m s1 s2 n with
  | case1 s1 s2 n h hne =>
    obtain ⟨n, rfl⟩ := Nat.exists_eq_succ_of_ne_zero (Nat.ne_of_gt h.1)
    exact (if_neg fun hgo => hne hgo.2).symm
  | case2 s1 s2 n h heq hz =>
    obtain ⟨n, rfl⟩ := Nat.exists_eq_succ_of_ne_zero (Nat.ne_of_gt h.1)
    have hend : Bytewise.strncmp m s1 s2 (n + 1) = diff (m s1) (m s2) := if_neg fun hgo => hgo.1 hz
    rw [Nat.succ_eq_add_one, hend, not_not.1 heq, diff_self]
    rfl
  | case3 s1 s2 n h heq hnz ih =>
    obtain ⟨n, rfl⟩ := Nat.exists_eq_succ_of_ne_zero (Nat.ne_of_gt h.1)
    rw [ih]
    exact (if_pos ⟨hnz, not_not.1 heq⟩).symm
  | case4 s1 s2 n h => rfl

theorem strncmpWords_spec (m : Buffer) (s1 s2 n : Nat) :
    Bytewise.strncmp m (strncmpWords m s1 s2 n).1 (strncmpWords m s1 s2 n).2.1 (strncmpWords m s1 s2 n).2.2 =
      Bytewise.strncmp m s1 s2 n := by
  fun_induction strncmpWords m s1 s2 n with
  | case1 s1 s2 n hle hstop => rfl
  | case2 s1 s2 n hle hgo ih =>
    have hsplit : n = 8 + (n - 8) := by omega
    rw [ih]
    conv_rhs => rw [hsplit]
    exact (strncmp_add 8 s1 s2 (n - 8) (alike_of_words hgo)).symm
  | case3 s1 s2 n hlt => rfl

theorem strncmpBy_eq (m : Buffer) (s1 s2 n : Nat) : strncmpBy m s1 s2 n = Bytewise.strncmp m s1 s2 n := by
  have halign := strncmpAlign_spec m s1 s2 n
  unfold strncmpBy
  by_cases h0 : n = 0
  · rw [if_pos h0, h0]
    rfl
  · rw [if_neg h0, ← halign]
    cases strncmpAlign m s1 s2 n with
    | inr r => rfl
    | inl t =>
      obtain ⟨s1, s2, n⟩ := t
      by_cases hwords : 8 ≤ n ∧ s2 % 8 = 0
      · simp only [if_pos hwords]
        exact strncmpWords_spec m s1 s2 n
      · simp only [if_neg hwords]
        rfl

/-! ## Lengths -/

theorem strlenAlign_comes (m : Buffer) (s p : Nat) : Loop.Comes (Bytewise.strlenTurn m s) p (strlenAlign m s p) := by
  fun_induction strlenAlign m s p with
  | case1 p _ hz => exact .done (strlenTurn_end s hz)
  | case2 p _ hnz ih => exact .next (strlenTurn_next s hnz) ih
  | case3 p _ => exact .refl _

theorem strlenBy_returns (m : Buffer) (turn : Nat → Nat → Nat ⊕ Nat) (s l : Nat)
    (hleap : ∀ p, Leaps (Bytewise.strlenTurn m s) (turn s) p) :
    Returns (strlenBy m turn s) l ↔ Returns (Bytewise.strlen m s) l := by
  have hrest (p : Nat) : (∃ turns, Loop.run (turn s) turns p = some l) ↔ Gives (Bytewise.strlenTurn m s) p l :=
    Loop.gives_leap hleap p
  have hcomes := (strlenAlign_comes m s s).returns _ hrest
  unfold Returns strlenBy
  refine Iff.trans ?_ hcomes
  cases strlenAlign m s s with
  | inl p => rfl
  | inr r => rfl

theorem strlen_word (s : Nat) (h : ¬ zeroMask (word m p) ≠ 0) : After (Bytewise.strlenTurn m s) 8 p (p + 8) :=
  strlen_after s p 8 (zeroMask_eq_zero.1 h)

theorem Kernel.strlenWord_leaps (m : Buffer) (s p : Nat) : Leaps (Bytewise.strlenTurn m s) (Kernel.strlenWord m s) p := by
  unfold Leaps Kernel.strlenWord
  by_cases hmask : zeroMask (word m p) ≠ 0
  · rw [if_pos hmask]
    cases htests : tests m p 8 with
    | some i =>
      obtain ⟨-, hz, hbefore⟩ := tests_eq_some htests
      exact .inr ⟨p + i - s, strlen_gives s p i hbefore hz, rfl⟩
    | none =>
      obtain ⟨i, hi, hz⟩ := (Swar.zeroMask_word m p).1 hmask
      exact absurd hz (tests_eq_none htests i hi)
  · rw [if_neg hmask]
    exact .inl ⟨8, p + 8, by decide, strlen_word s hmask, rfl⟩

theorem Libc.strlenWord_leaps (m : Buffer) (s p : Nat) : Leaps (Bytewise.strlenTurn m s) (Libc.strlenWord m s) p := by
  unfold Leaps Libc.strlenWord
  by_cases hmask : zeroMask (word m p) ≠ 0
  · rw [if_pos hmask]
    cases htests : tests m p 7 with
    | some i =>
      obtain ⟨-, hz, hbefore⟩ := tests_eq_some htests
      exact .inr ⟨p + i - s, strlen_gives s p i hbefore hz, rfl⟩
    | none =>
      -- The seven tests have failed, so that the zero byte is the last.
      have hbefore := tests_eq_none htests
      obtain ⟨i, hi, hz⟩ := (Swar.zeroMask_word m p).1 hmask
      obtain rfl : i = 7 := by
        by_contra hne
        exact hbefore i (by omega) hz
      exact .inr ⟨p + 7 - s, strlen_gives s p 7 hbefore hz, rfl⟩
  · rw [if_neg hmask]
    exact .inl ⟨8, p + 8, by decide, strlen_word s hmask, rfl⟩

theorem strnlenAlign_spec (m : Buffer) (s p n : Nat) :
    (strnlenAlign m s p n).elim (fun t => Bytewise.strnlenFrom m s t.1 t.2) id = Bytewise.strnlenFrom m s p n := by
  fun_induction strnlenAlign m s p n with
  | case1 p n h hz =>
    obtain ⟨n, rfl⟩ := Nat.exists_eq_succ_of_ne_zero (Nat.ne_of_gt h.1)
    exact (if_pos hz).symm
  | case2 p n h hnz ih =>
    obtain ⟨n, rfl⟩ := Nat.exists_eq_succ_of_ne_zero (Nat.ne_of_gt h.1)
    rw [ih]
    exact (if_neg hnz).symm
  | case3 p n h => rfl

theorem strnlenFrom_word (s : Nat) (hle : 8 ≤ n) (h : ∀ i < 8, m (p + i) ≠ 0) :
    Bytewise.strnlenFrom m s (p + 8) (n - 8) = Bytewise.strnlenFrom m s p n := by
  have hsplit : n = 8 + (n - 8) := by omega
  conv_rhs => rw [hsplit]
  exact (strnlenFrom_add s 8 p (n - 8) h).symm

theorem strnlenWords_spec (m : Buffer) (s p n : Nat) :
    (strnlenWords m s p n).elim (fun t => Bytewise.strnlenFrom m s t.1 t.2) id = Bytewise.strnlenFrom m s p n := by
  fun_induction strnlenWords m s p n with
  | case1 p n hle hmask i htests =>
    obtain ⟨hi, hz, hbefore⟩ := tests_eq_some htests
    obtain ⟨r, rfl⟩ : ∃ r, n = i + (r + 1) := ⟨n - i - 1, by omega⟩
    rw [strnlenFrom_add s i p (r + 1) hbefore]
    exact (if_pos hz).symm
  | case2 p n hle hmask htests ih => exact ih.trans (strnlenFrom_word s hle (tests_eq_none htests))
  | case3 p n hle hmask ih => exact ih.trans (strnlenFrom_word s hle (zeroMask_eq_zero.1 hmask))
  | case4 p n hlt => rfl

theorem strnlenBy_eq (m : Buffer) (s maxlen : Nat) : strnlenBy m s maxlen = Bytewise.strnlen m s maxlen := by
  unfold strnlenBy Bytewise.strnlen
  rw [← strnlenAlign_spec m s s maxlen]
  cases strnlenAlign m s s maxlen with
  | inr r => rfl
  | inl t =>
    obtain ⟨p, n⟩ := t
    dsimp only [Sum.elim_inl]
    rw [← strnlenWords_spec m s p n]
    cases strnlenWords m s p n with
    | inr r => rfl
    | inl t => rfl

/-! ## Searches -/

theorem strchrAlign_comes (m : Buffer) (ch : UInt8) (s : Nat) :
    Loop.Comes (Bytewise.strchrTurn m ch) s (strchrAlign m ch s) := by
  fun_induction strchrAlign m ch s with
  | case1 s _ hch => exact .done (strchrTurn_found hch)
  | case2 s _ hne hz => exact .done (strchrTurn_end hne hz)
  | case3 s _ hne hnz ih => exact .next (strchrTurn_next hne hnz) ih
  | case4 s _ => exact .refl _

theorem strchr_word (h : ¬ foundMask m ch s ≠ 0) : After (Bytewise.strchrTurn m ch) 8 s (s + 8) := by
  apply strchr_after
  intro i hi
  rw [← not_or]
  intro hhit
  exact h (foundMask_ne_zero.2 ⟨i, hi, hhit⟩)

theorem Kernel.strchrWord_leaps (m : Buffer) (ch : UInt8) (s : Nat) :
    Leaps (Bytewise.strchrTurn m ch) (Kernel.strchrWord m ch) s := by
  unfold Leaps Kernel.strchrWord
  by_cases hmask : foundMask m ch s ≠ 0
  · rw [if_pos hmask]
    cases htests : (List.range 8).find? fun i => m (s + i) = ch ∨ m (s + i) = 0 with
    | some i =>
      obtain ⟨hhit, -, hbefore⟩ := List.find?_range_eq_some.1 htests
      have hafter : After (Bytewise.strchrTurn m ch) i s (s + i) := by
        apply strchr_after
        intro j hj
        simpa using hbefore j hj
      refine .inr ⟨_, hafter.gives.2 ((Loop.gives_done ?_).2 rfl), rfl⟩
      by_cases hch : m (s + i) = ch
      · rw [if_pos hch, strchrTurn_found hch]
      · rw [if_neg hch, strchrTurn_end hch ((of_decide_eq_true hhit).resolve_left hch)]
    | none =>
      obtain ⟨i, hi, hhit⟩ := foundMask_ne_zero.1 hmask
      have := List.find?_range_eq_none.1 htests i hi
      simp [hhit] at this
  · rw [if_neg hmask]
    exact .inl ⟨8, s + 8, by decide, strchr_word hmask, rfl⟩

theorem run_strchr_zero (m : Buffer) (s turns p : Nat) (h : s ≤ p) : Loop.run (Bytewise.strchrTurn m 0) turns p =
    (Loop.run (Bytewise.strlenTurn m s) turns p).map fun l => some (s + l) := by
  induction turns generalizing p with
  | zero => rfl
  | succ turns ih =>
    by_cases hz : m p = 0
    · rw [Loop.run_done (strchrTurn_found hz), Loop.run_done (strlenTurn_end s hz), Option.map_some, Nat.add_sub_cancel' h]
    · rw [Loop.run_next (strchrTurn_next hz hz), Loop.run_next (strlenTurn_next s hz), ih (p + 1) (by omega)]

theorem Kernel.strlen_returns (m : Buffer) (s l : Nat) : Returns (Kernel.strlen m s) l ↔ Returns (Bytewise.strlen m s) l :=
  strlenBy_returns m (Kernel.strlenWord m) s l (Kernel.strlenWord_leaps m s)

theorem Libc.strlen_returns (m : Buffer) (s l : Nat) : Returns (Libc.strlen m s) l ↔ Returns (Bytewise.strlen m s) l :=
  strlenBy_returns m (Libc.strlenWord m) s l (Libc.strlenWord_leaps m s)

theorem Kernel.strchr_returns (m : Buffer) (s : Nat) (c : Int) (r : Option Nat) :
    Returns (Kernel.strchr m s c) r ↔ Returns (Bytewise.strchr m s c) r := by
  unfold Returns Kernel.strchr Bytewise.strchr
  dsimp only
  generalize UInt8.ofInt c = ch
  by_cases h0 : ch = 0
  · simp only [if_pos h0]
    subst h0
    simp only [run_strchr_zero m s _ s (Nat.le_refl s), Option.map_eq_some_iff]
    constructor
    · rintro ⟨turns, l, hl, hr⟩
      obtain ⟨turns', hl'⟩ := (Kernel.strlen_returns m s l).1 ⟨turns, hl⟩
      exact ⟨turns', l, hl', hr⟩
    · rintro ⟨turns, l, hl, hr⟩
      obtain ⟨turns', hl'⟩ := (Kernel.strlen_returns m s l).2 ⟨turns, hl⟩
      exact ⟨turns', l, hl', hr⟩
  · simp only [if_neg h0]
    have hrest (s : Nat) : (∃ turns, Loop.run (Kernel.strchrWord m ch) turns s = some r) ↔
        Gives (Bytewise.strchrTurn m ch) s r := Loop.gives_leap (Kernel.strchrWord_leaps m ch) s
    refine Iff.trans ?_ ((strchrAlign_comes m ch s).returns _ hrest)
    cases strchrAlign m ch s with
    | inl s => rfl
    | inr r => rfl

theorem Libc.strchrWord_handover (m : Buffer) (ch : UInt8) (s : Nat) :
    (∃ k s', 0 < k ∧ After (Bytewise.strchrTurn m ch) k s s' ∧ Libc.strchrWord m ch s = .inl s') ∨
    Libc.strchrWord m ch s = .inr s := by
  unfold Libc.strchrWord
  by_cases hmask : foundMask m ch s ≠ 0
  · exact .inr (if_pos hmask)
  · exact .inl ⟨8, s + 8, by decide, strchr_word hmask, if_neg hmask⟩

theorem Libc.strchr_returns (m : Buffer) (s : Nat) (c : Int) (r : Option Nat) :
    Returns (Libc.strchr m s c) r ↔ Returns (Bytewise.strchr m s c) r := by
  unfold Returns Libc.strchr Bytewise.strchr
  dsimp only
  generalize UInt8.ofInt c = ch
  have hrest (s : Nat) : (∃ turns, ((Loop.run (Libc.strchrWord m ch) turns s).bind
      fun s => Loop.run (Bytewise.strchrTurn m ch) turns s) = some r) ↔ Gives (Bytewise.strchrTurn m ch) s r := by
    rw [Loop.Steady.bind_gives (Loop.steady_run _ _) fun _ => Loop.steady_run _ _]
    exact Loop.gives_handover (Libc.strchrWord_handover m ch) s
  refine Iff.trans ?_ ((strchrAlign_comes m ch s).returns _ hrest)
  cases strchrAlign m ch s with
  | inl s => rfl
  | inr r => rfl

theorem memchrAlign_spec (m : Buffer) (c : UInt8) (p n : Nat) :
    (memchrAlign m c p n).elim (fun t => Bytewise.memchrFrom m c t.1 t.2) some = Bytewise.memchrFrom m c p n := by
  fun_induction memchrAlign m c p n with
  | case1 p n h hc =>
    obtain ⟨n, rfl⟩ := Nat.exists_eq_succ_of_ne_zero h.1
    exact (if_pos hc).symm
  | case2 p n h hne ih =>
    obtain ⟨n, rfl⟩ := Nat.exists_eq_succ_of_ne_zero h.1
    rw [ih]
    exact (if_neg hne).symm
  | case3 p n h => rfl

theorem memchrWords_spec (m : Buffer) (c : UInt8) (p n : Nat) :
    Bytewise.memchrFrom m c (memchrWords m c p n).1 (memchrWords m c p n).2 = Bytewise.memchrFrom m c p n := by
  fun_induction memchrWords m c p n with
  | case1 p n hle hmask => rfl
  | case2 p n hle hmask ih =>
    have hsplit : n = 8 + (n - 8) := by omega
    rw [ih]
    conv_rhs => rw [hsplit]
    exact (memchrFrom_add c 8 p (n - 8) (not_found.1 hmask)).symm
  | case3 p n hlt => rfl

theorem Libc.memchr_eq (m : Buffer) (s : Nat) (c : Int) (n : Nat) : Libc.memchr m s c n = Bytewise.memchr m s c n := by
  unfold Libc.memchr Bytewise.memchr
  dsimp only
  rw [← memchrAlign_spec m (UInt8.ofInt c) s n]
  cases memchrAlign m (UInt8.ofInt c) s n with
  | inr p => rfl
  | inl t => exact memchrWords_spec m (UInt8.ofInt c) t.1 t.2

/-! ## Moves -/

theorem movsqUp_move (h : d ≤ s) : ∀ (q k : Nat),
    Kernel.movsqUp (m.move d s k) (d + k) (s + k) q = (m.move d s (k + 8 * q), d + (k + 8 * q), s + (k + 8 * q))
  | 0, k => rfl
  | q + 1, k => by
    have hsum : k + 8 + 8 * q = k + 8 * (q + 1) := by omega
    rw [Kernel.movsqUp, Buffer.moveWord_eq, Buffer.move_forward m h, Nat.add_assoc d, Nat.add_assoc s,
      movsqUp_move h q (k + 8), hsum]

theorem movsbUp_eq (m : Buffer) (d s n : Nat) : Kernel.movsbUp m d s n = Bytewise.copyUp m d s n := by
  induction n generalizing m d s with
  | zero => rfl
  | succ n ih => exact ih _ _ _

theorem movsbDown_move (h : s ≤ d) (j : Nat) : ∀ (r k : Nat),
    Kernel.movsbDown (m.move (d + (j + r)) (s + (j + r)) k) (d + (j + r) - 1) (s + (j + r) - 1) r =
      (m.move (d + j) (s + j) (r + k), d + j - 1, s + j - 1)
  | 0, k => by rw [Kernel.movsbDown, Nat.add_zero, Nat.zero_add]
  | r + 1, k => by
    have hsum : r + (1 + k) = r + 1 + k := by omega
    have hd : d + (j + (r + 1)) - 1 = d + (j + r) := by omega
    have hs : s + (j + (r + 1)) - 1 = s + (j + r) := by omega
    rw [Kernel.movsbDown, hd, hs, Buffer.set_eq_move, ← Nat.add_assoc j r 1, Buffer.move_backward m h,
      movsbDown_move h j r (1 + k), hsum]

theorem movsqDown_move (h : s ≤ d) : ∀ (q k : Nat),
    Kernel.movsqDown (m.move (d + 8 * q) (s + 8 * q) k) (d + 8 * q - 8) (s + 8 * q - 8) q = m.move d s (8 * q + k)
  | 0, k => by rw [Kernel.movsqDown, Nat.mul_zero, Nat.add_zero, Nat.add_zero, Nat.zero_add]
  | q + 1, k => by
    have hsum : 8 * q + (8 + k) = 8 * (q + 1) + k := by omega
    have hd : d + 8 * (q + 1) - 8 = d + 8 * q := by omega
    have hs : s + 8 * (q + 1) - 8 = s + 8 * q := by omega
    rw [Kernel.movsqDown, hd, hs, Buffer.moveWord_eq, Nat.mul_succ, Buffer.move_backward m h,
      movsqDown_move h q (8 + k), hsum, Nat.mul_succ]

/-- **The kernel's `memmove`**, through its four string instructions. -/
theorem Kernel.memmove_eq (m : Buffer) (dest src n : Nat) : Kernel.memmove m dest src n = m.move dest src n := by
  have hn : 8 * (n / 8) + n % 8 = n := by omega
  unfold Kernel.memmove
  by_cases hsame : dest = src ∨ n = 0
  · rw [if_pos hsame]
    rcases hsame with rfl | rfl
    · exact (Buffer.move_self m dest n).symm
    · exact (Buffer.move_zero m dest src).symm
  · rw [if_neg hsame]
    by_cases hlt : dest < src
    · rw [if_pos hlt]
      have hwords := movsqUp_move (m := m) (Nat.le_of_lt hlt) (n / 8) 0
      rw [Buffer.move_zero, Nat.add_zero, Nat.add_zero, Nat.zero_add] at hwords
      rw [hwords]
      dsimp only
      rw [movsbUp_eq, copyUp_move (Nat.le_of_lt hlt), hn]
    · rw [if_neg hlt]
      have hle : src ≤ dest := Nat.le_of_not_lt hlt
      have hbytes := movsbDown_move (m := m) hle (8 * (n / 8)) (n % 8) 0
      rw [hn, Buffer.move_zero] at hbytes
      rw [hbytes]
      dsimp only
      rw [Nat.sub_sub, Nat.sub_sub, movsqDown_move hle, Nat.add_zero, hn]

theorem wordsUp_move (h : d ≤ s) (n k : Nat) :
    ∃ j r, j + r = k + n ∧ Libc.wordsUp (m.move d s k) (d + k) (s + k) n = (m.move d s j, d + j, s + j, r) := by
  induction n using Nat.strongRecOn generalizing k with
  | ind n ih =>
    by_cases hle : 8 ≤ n
    · obtain ⟨j, r, hsum, hrun⟩ := ih (n - 8) (by omega) (k + 8)
      refine ⟨j, r, by omega, ?_⟩
      rw [Libc.wordsUp, if_pos hle, Buffer.moveWord_eq, Buffer.move_forward m h, Nat.add_assoc d, Nat.add_assoc s, hrun]
    · refine ⟨k, n, rfl, ?_⟩
      rw [Libc.wordsUp, if_neg hle]

theorem wordsDown_move (h : s ≤ d) (n k : Nat) :
    ∃ j r, j + r = n + k ∧ Libc.wordsDown (m.move (d + n) (s + n) k) d s n = (m.move (d + r) (s + r) j, r) := by
  induction n using Nat.strongRecOn generalizing k with
  | ind n ih =>
    by_cases hle : 8 ≤ n
    · obtain ⟨r, rfl⟩ : ∃ r, n = r + 8 := ⟨n - 8, by omega⟩
      obtain ⟨j, r', hsum, hrun⟩ := ih r (by omega) (8 + k)
      refine ⟨j, r', by omega, ?_⟩
      rw [Libc.wordsDown, if_pos hle, Nat.add_sub_cancel, Buffer.moveWord_eq, Buffer.move_backward m h, hrun]
    · refine ⟨k, n, Nat.add_comm k n, ?_⟩
      rw [Libc.wordsDown, if_neg hle]

theorem Libc.memmove_eq (m : Buffer) (dest src n : Nat) : Libc.memmove m dest src n = m.move dest src n := by
  unfold Libc.memmove
  by_cases hlt : dest < src
  · obtain ⟨j, r, hsum, hrun⟩ := wordsUp_move (m := m) (Nat.le_of_lt hlt) n 0
    rw [Buffer.move_zero, Nat.add_zero, Nat.add_zero] at hrun
    rw [if_pos hlt, hrun]
    dsimp only
    rw [copyUp_move (Nat.le_of_lt hlt), hsum, Nat.zero_add]
  · rw [if_neg hlt]
    by_cases hgt : src < dest
    · obtain ⟨j, r, hsum, hrun⟩ := wordsDown_move (m := m) (Nat.le_of_lt hgt) n 0
      rw [Buffer.move_zero] at hrun
      rw [if_pos hgt, hrun]
      dsimp only
      rw [copyDown_move (Nat.le_of_lt hgt), Nat.add_comm r j, hsum, Nat.add_zero]
    · rw [if_neg hgt, show dest = src by omega, Buffer.move_self]

/-! ## The functions -/

/-- In the memory `m`, every function with words comes back with what it does byte by byte: for all addresses, lengths and
limits. What that is where two strings differ is said of their first different byte. -/
structure WordWise (m : Buffer) : Prop where
  memcmp : ∀ a b n, Kernel.memcmp m a b n = Bytewise.memcmp m a b n ∧ Libc.memcmp m a b n = Bytewise.memcmp m a b n
  strlen : ∀ s l, (Returns (Kernel.strlen m s) l ↔ Returns (Bytewise.strlen m s) l) ∧
    (Returns (Libc.strlen m s) l ↔ Returns (Bytewise.strlen m s) l)
  strnlen : ∀ s n, Kernel.strnlen m s n = Bytewise.strnlen m s n ∧ Libc.strnlen m s n = Bytewise.strnlen m s n
  strcmp : ∀ s1 s2 r, (Returns (Kernel.strcmp m s1 s2) r ↔ Returns (Bytewise.strcmp m s1 s2) r) ∧
    (Returns (Libc.strcmp m s1 s2) r ↔ Returns (Bytewise.strcmp m s1 s2) r)
  strncmp : ∀ s1 s2 n, Kernel.strncmp m s1 s2 n = Bytewise.strncmp m s1 s2 n ∧
    Libc.strncmp m s1 s2 n = Bytewise.strncmp m s1 s2 n
  strchr : ∀ s c r, (Returns (Kernel.strchr m s c) r ↔ Returns (Bytewise.strchr m s c) r) ∧
    (Returns (Libc.strchr m s c) r ↔ Returns (Bytewise.strchr m s c) r)
  memchr : ∀ s c n, Libc.memchr m s c n = Bytewise.memchr m s c n
  memmove : ∀ d s n, Kernel.memmove m d s n = Bytewise.memmove m d s n ∧ Libc.memmove m d s n = Bytewise.memmove m d s n
  /-- On strings that end, all of them come back. -/
  ends : ∀ s, (∃ k, m (s + k) = 0) → (∃ l, Returns (Bytewise.strlen m s) l) ∧ (∀ c, ∃ r, Returns (Bytewise.strchr m s c) r) ∧
    ∀ s2, ∃ r, Returns (Bytewise.strcmp m s s2) r
  /-- The sign is that of the first different bytes, which are unsigned. -/
  sign : ∀ a b k, DifferAt m a b k → (∀ n, k < n → Bytewise.memcmp m a b n = diff (m (a + k)) (m (b + k))) ∧
    ((∀ i < k, m (a + i) ≠ 0) → (∀ n, k < n → Bytewise.strncmp m a b n = diff (m (a + k)) (m (b + k))) ∧
      Returns (Bytewise.strcmp m a b) (diff (m (a + k)) (m (b + k))))

/-- **A word at a time or byte by byte**, the string functions compute the same. -/
theorem word_at_a_time (m : Buffer) : WordWise m where
  memcmp a b n := ⟨memcmpBy_eq m a b n, memcmpBy_eq m a b n⟩
  strlen s l := ⟨Kernel.strlen_returns m s l, Libc.strlen_returns m s l⟩
  strnlen s n := ⟨strnlenBy_eq m s n, strnlenBy_eq m s n⟩
  strcmp s1 s2 r := ⟨strcmpBy_returns m s1 s2 r, strcmpBy_returns m s1 s2 r⟩
  strncmp s1 s2 n := ⟨strncmpBy_eq m s1 s2 n, strncmpBy_eq m s1 s2 n⟩
  strchr s c r := ⟨Kernel.strchr_returns m s c r, Libc.strchr_returns m s c r⟩
  memchr s c n := Libc.memchr_eq m s c n
  memmove d s n := by
    rw [Kernel.memmove_eq, Libc.memmove_eq, memmove_eq]
    exact ⟨rfl, rfl⟩
  ends s hend := by
    obtain ⟨l, -, -, hl⟩ := strlen_returns hend
    exact ⟨⟨l, hl⟩, fun c => strchr_returns c hend, fun s2 => strcmp_returns s2 hend⟩
  sign a b k hdiff := by
    refine ⟨fun n hk => memcmp_of_differ hdiff hk, fun hnz => ?_⟩
    have halike : Alike m a b k := fun i hi => ⟨hnz i hi, hdiff.1 i hi⟩
    exact ⟨fun n hk => strncmp_of_differ halike hdiff.2 hk, strcmp_gives halike fun hgo => hdiff.2 hgo.2⟩

end EterOS.Strings
