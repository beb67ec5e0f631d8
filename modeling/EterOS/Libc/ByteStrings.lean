import EterOS.Lib.Leap
import EterOS.Lib.Moves
/-!
# ByteStrings — the string functions, byte by byte

What the functions of `kernel/string.c` and `userspace/libc/src/string.c` compile to where there is no 64-bit path: one
memory, in which the arguments are addresses, and loops that look at a byte at a time.  The loops with no limit may have no
end, so that they are given turns.
-/
namespace EterOS.Strings

def diff (a b : UInt8) : Int := (a.toNat : Int) - b.toNat

namespace Bytewise

variable (m : Buffer)

/-- `while (n--) if (*a != *b) return *a - *b; …`. -/
def memcmp (a b : Nat) : Nat → Int
  | 0 => 0
  | n + 1 => if m a ≠ m b then diff (m a) (m b) else memcmp (a + 1) (b + 1) n

def strlenTurn (s p : Nat) : Nat ⊕ Nat := if m p = 0 then .inr (p - s) else .inl (p + 1)

def strlen (s turns : Nat) : Option Nat := Loop.run (strlenTurn m s) turns s

/-- The bytes from `p` on, of which `n` are looked at. -/
def strnlenFrom (s p : Nat) : Nat → Nat
  | 0 => p - s
  | n + 1 => if m p = 0 then p - s else strnlenFrom s (p + 1) n

def strnlen (s maxlen : Nat) : Nat := strnlenFrom m s s maxlen

/-- `while (*s1 && *s1 == *s2) { s1++; s2++; }`. -/
def strcmpTurn (s : Nat × Nat) : (Nat × Nat) ⊕ Int :=
  if m s.1 ≠ 0 ∧ m s.1 = m s.2 then .inl (s.1 + 1, s.2 + 1) else .inr (diff (m s.1) (m s.2))

def strcmp (s1 s2 turns : Nat) : Option Int := Loop.run (strcmpTurn m) turns (s1, s2)

/-- `while (n > 0 && *s1 && *s1 == *s2) …`. -/
def strncmp (s1 s2 : Nat) : Nat → Int
  | 0 => 0
  | n + 1 => if m s1 ≠ 0 ∧ m s1 = m s2 then strncmp (s1 + 1) (s2 + 1) n else diff (m s1) (m s2)

/-- `while (*s != ch) if (!*s++) return 0`. -/
def strchrTurn (ch : UInt8) (s : Nat) : Nat ⊕ Option Nat :=
  if m s = ch then .inr (some s) else if m s = 0 then .inr none else .inl (s + 1)

def strchr (s : Nat) (c : Int) (turns : Nat) : Option (Option Nat) := Loop.run (strchrTurn m (UInt8.ofInt c)) turns s

/-- `while (n--) { if (*p == c) return p; p++; }`. -/
def memchrFrom (c : UInt8) (p : Nat) : Nat → Option Nat
  | 0 => none
  | n + 1 => if m p = c then some p else memchrFrom c (p + 1) n

def memchr (s : Nat) (c : Int) (n : Nat) : Option Nat := memchrFrom m (UInt8.ofInt c) s n

def copyUp (m : Buffer) (d s : Nat) : Nat → Buffer
  | 0 => m
  | n + 1 => copyUp (m.set d (m s)) (d + 1) (s + 1) n

/-- `while (n--) *--d = *--s`, from `n` bytes behind `d` and `s`. -/
def copyDown (m : Buffer) (d s : Nat) : Nat → Buffer
  | 0 => m
  | n + 1 => copyDown (m.set (d + n) (m (s + n))) d s n

def memmove (dest src n : Nat) : Buffer := if dest < src then copyUp m dest src n else copyDown m dest src n

end Bytewise

/-! ## What they compute -/

open Bytewise Loop

variable {m : Buffer} {a b d s s1 s2 p i k n : Nat} {ch : UInt8}

/-- The first byte in which two strings differ is number `k`. -/
def DifferAt (m : Buffer) (a b k : Nat) : Prop := (∀ i < k, m (a + i) = m (b + i)) ∧ m (a + k) ≠ m (b + k)

theorem diff_self (x : UInt8) : diff x x = 0 := Int.sub_self _

theorem memcmp_add : ∀ (k a b n : Nat), (∀ i < k, m (a + i) = m (b + i)) →
    Bytewise.memcmp m a b (k + n) = Bytewise.memcmp m (a + k) (b + k) n
  | 0, a, b, n, _ => by rw [Nat.zero_add, Nat.add_zero, Nat.add_zero]
  | k + 1, a, b, n, h => by
    have h0 : m a = m b := h 0 (Nat.succ_pos k)
    have hrest : ∀ i < k, m (a + 1 + i) = m (b + 1 + i) := by
      intro i hi
      rw [Nat.add_right_comm, Nat.add_right_comm b]
      exact h (i + 1) (Nat.succ_lt_succ hi)
    rw [Nat.add_right_comm, Bytewise.memcmp, if_neg (not_not_intro h0), memcmp_add k (a + 1) (b + 1) n hrest,
      Nat.add_assoc a, Nat.add_assoc b, Nat.add_comm 1 k]

theorem memcmp_of_differ (h : DifferAt m a b k) (hk : k < n) : Bytewise.memcmp m a b n = diff (m (a + k)) (m (b + k)) := by
  obtain ⟨r, rfl⟩ : ∃ r, n = k + (r + 1) := ⟨n - k - 1, by omega⟩
  rw [memcmp_add k a b (r + 1) h.1, Bytewise.memcmp, if_pos h.2]

theorem strnlenFrom_add (s : Nat) : ∀ (k p n : Nat), (∀ i < k, m (p + i) ≠ 0) →
    strnlenFrom m s p (k + n) = strnlenFrom m s (p + k) n
  | 0, p, n, _ => by rw [Nat.zero_add, Nat.add_zero]
  | k + 1, p, n, h => by
    have hrest : ∀ i < k, m (p + 1 + i) ≠ 0 := by
      intro i hi
      rw [Nat.add_right_comm]
      exact h (i + 1) (Nat.succ_lt_succ hi)
    have h0 : m p ≠ 0 := h 0 (Nat.succ_pos k)
    rw [Nat.add_right_comm, strnlenFrom, if_neg h0, strnlenFrom_add s k (p + 1) n hrest, Nat.add_assoc, Nat.add_comm 1 k]

/-- The bytes of both strings go on for `k` bytes. -/
def Alike (m : Buffer) (s1 s2 k : Nat) : Prop := ∀ i < k, m (s1 + i) ≠ 0 ∧ m (s1 + i) = m (s2 + i)

theorem Alike.tail (h : Alike m s1 s2 (k + 1)) : Alike m (s1 + 1) (s2 + 1) k := by
  intro i hi
  rw [Nat.add_right_comm, Nat.add_right_comm s2]
  exact h (i + 1) (Nat.succ_lt_succ hi)

theorem strncmp_add : ∀ (k s1 s2 n : Nat), Alike m s1 s2 k →
    Bytewise.strncmp m s1 s2 (k + n) = Bytewise.strncmp m (s1 + k) (s2 + k) n
  | 0, s1, s2, n, _ => by rw [Nat.zero_add, Nat.add_zero, Nat.add_zero]
  | k + 1, s1, s2, n, h => by
    have h0 : m s1 ≠ 0 ∧ m s1 = m s2 := h 0 (Nat.succ_pos k)
    rw [Nat.add_right_comm, Bytewise.strncmp, if_pos h0, strncmp_add k (s1 + 1) (s2 + 1) n h.tail,
      Nat.add_assoc s1, Nat.add_assoc s2, Nat.add_comm 1 k]

theorem strncmp_of_differ (h : Alike m s1 s2 k) (hdiff : m (s1 + k) ≠ m (s2 + k)) (hk : k < n) :
    Bytewise.strncmp m s1 s2 n = diff (m (s1 + k)) (m (s2 + k)) := by
  obtain ⟨r, rfl⟩ : ∃ r, n = k + (r + 1) := ⟨n - k - 1, by omega⟩
  rw [strncmp_add k s1 s2 (r + 1) h, Bytewise.strncmp, if_neg fun hgo => hdiff hgo.2]

theorem memchrFrom_add (ch : UInt8) : ∀ (k p n : Nat), (∀ i < k, m (p + i) ≠ ch) →
    memchrFrom m ch p (k + n) = memchrFrom m ch (p + k) n
  | 0, p, n, _ => by rw [Nat.zero_add, Nat.add_zero]
  | k + 1, p, n, h => by
    have hrest : ∀ i < k, m (p + 1 + i) ≠ ch := by
      intro i hi
      rw [Nat.add_right_comm]
      exact h (i + 1) (Nat.succ_lt_succ hi)
    have h0 : m p ≠ ch := h 0 (Nat.succ_pos k)
    rw [Nat.add_right_comm, memchrFrom, if_neg h0, memchrFrom_add ch k (p + 1) n hrest, Nat.add_assoc, Nat.add_comm 1 k]

/-! ## The loops with no limit -/

theorem strlenTurn_end (s : Nat) (h : m p = 0) : strlenTurn m s p = .inr (p - s) := if_pos h

theorem strlenTurn_next (s : Nat) (h : m p ≠ 0) : strlenTurn m s p = .inl (p + 1) := if_neg h

theorem strcmpTurn_end {s : Nat × Nat} (h : ¬ (m s.1 ≠ 0 ∧ m s.1 = m s.2)) :
    strcmpTurn m s = .inr (diff (m s.1) (m s.2)) := if_neg h

theorem strchrTurn_found (h : m s = ch) : strchrTurn m ch s = .inr (some s) := if_pos h

theorem strchrTurn_end (hne : m s ≠ ch) (h : m s = 0) : strchrTurn m ch s = .inr none := by
  rw [strchrTurn, if_neg hne, if_pos h]

theorem strchrTurn_next (hne : m s ≠ ch) (h : m s ≠ 0) : strchrTurn m ch s = .inl (s + 1) := by
  rw [strchrTurn, if_neg hne, if_neg h]

theorem strlen_after (s p k : Nat) (h : ∀ i < k, m (p + i) ≠ 0) : After (strlenTurn m s) k p (p + k) :=
  after_of_forall (fun i => p + i) k fun i hi => if_neg (h i hi)

theorem strlen_gives (s p k : Nat) (h : ∀ i < k, m (p + i) ≠ 0) (hz : m (p + k) = 0) :
    Gives (strlenTurn m s) p (p + k - s) :=
  (strlen_after s p k h).gives.2 ((gives_done (strlenTurn_end s hz)).2 rfl)

theorem strcmp_after (h : Alike m s1 s2 k) : After (strcmpTurn m) k (s1, s2) (s1 + k, s2 + k) :=
  after_of_forall (fun i => (s1 + i, s2 + i)) k fun i hi => if_pos (h i hi)

theorem strcmp_gives (h : Alike m s1 s2 k) (hend : ¬ (m (s1 + k) ≠ 0 ∧ m (s1 + k) = m (s2 + k))) :
    Gives (strcmpTurn m) (s1, s2) (diff (m (s1 + k)) (m (s2 + k))) :=
  (strcmp_after h).gives.2 ((gives_done (strcmpTurn_end hend)).2 rfl)

theorem strchr_after (ch : UInt8) (s k : Nat) (h : ∀ i < k, m (s + i) ≠ ch ∧ m (s + i) ≠ 0) :
    After (strchrTurn m ch) k s (s + k) :=
  after_of_forall (fun i => s + i) k fun i hi => strchrTurn_next (h i hi).1 (h i hi).2

theorem first_zero (h : ∃ k, m (s + k) = 0) : ∃ k, m (s + k) = 0 ∧ ∀ i < k, m (s + i) ≠ 0 :=
  ⟨Nat.find h, Nat.find_spec h, fun _ hi => Nat.find_min h hi⟩

theorem strlen_returns (h : ∃ k, m (s + k) = 0) : ∃ k, m (s + k) = 0 ∧ (∀ i < k, m (s + i) ≠ 0) ∧
    Returns (Bytewise.strlen m s) k := by
  obtain ⟨k, hz, hbefore⟩ := first_zero h
  have hgives := strlen_gives s s k hbefore hz
  rw [Nat.add_sub_cancel_left] at hgives
  exact ⟨k, hz, hbefore, hgives⟩

theorem strcmp_returns (s2 : Nat) (h : ∃ k, m (s1 + k) = 0) : ∃ r, Returns (Bytewise.strcmp m s1 s2) r := by
  obtain ⟨k, hz, -⟩ := first_zero h
  have hend : ∃ k, ¬ (m (s1 + k) ≠ 0 ∧ m (s1 + k) = m (s2 + k)) := ⟨k, fun hgo => hgo.1 hz⟩
  have hbefore : Alike m s1 s2 (Nat.find hend) := fun i hi => not_not.1 (Nat.find_min hend hi)
  exact ⟨_, strcmp_gives hbefore (Nat.find_spec hend)⟩

theorem strchr_returns (c : Int) (h : ∃ k, m (s + k) = 0) : ∃ r, Returns (Bytewise.strchr m s c) r := by
  obtain ⟨k, hz, -⟩ := first_zero h
  have hend : ∃ k, m (s + k) = UInt8.ofInt c ∨ m (s + k) = 0 := ⟨k, .inr hz⟩
  have hbefore : ∀ i < Nat.find hend, m (s + i) ≠ UInt8.ofInt c ∧ m (s + i) ≠ 0 :=
    fun i hi => not_or.1 (Nat.find_min hend hi)
  have hafter := strchr_after (UInt8.ofInt c) s (Nat.find hend) hbefore
  by_cases hch : m (s + Nat.find hend) = UInt8.ofInt c
  · exact ⟨some (s + Nat.find hend), hafter.gives.2 ((gives_done (strchrTurn_found hch)).2 rfl)⟩
  · have hz : m (s + Nat.find hend) = 0 := (Nat.find_spec hend).resolve_left hch
    exact ⟨none, hafter.gives.2 ((gives_done (strchrTurn_end hch hz)).2 rfl)⟩

/-! ## Copies -/

theorem copyUp_move (h : d ≤ s) : ∀ (n k : Nat), copyUp (m.move d s k) (d + k) (s + k) n = m.move d s (k + n)
  | 0, k => rfl
  | n + 1, k => by
    rw [copyUp, Buffer.set_eq_move, Buffer.move_forward m h, Nat.add_assoc d, Nat.add_assoc s, copyUp_move h n (k + 1)]
    congr 1
    omega

theorem copyDown_move (h : s ≤ d) : ∀ (n k : Nat), copyDown (m.move (d + n) (s + n) k) d s n = m.move d s (n + k)
  | 0, k => by rw [copyDown, Nat.add_zero, Nat.add_zero, Nat.zero_add]
  | n + 1, k => by
    rw [copyDown, Buffer.set_eq_move, Buffer.move_backward m h, copyDown_move h n (1 + k)]
    congr 1
    omega

/-- **`memmove` is a copy by way of a place outside.** -/
theorem memmove_eq (m : Buffer) (dest src n : Nat) : Bytewise.memmove m dest src n = m.move dest src n := by
  unfold Bytewise.memmove
  by_cases h : dest < src
  · rw [if_pos h]
    have := copyUp_move (m := m) (Nat.le_of_lt h) n 0
    rwa [Buffer.move_zero, Nat.zero_add] at this
  · rw [if_neg h]
    have := copyDown_move (m := m) (Nat.le_of_not_lt h) n 0
    rwa [Buffer.move_zero] at this

end EterOS.Strings
