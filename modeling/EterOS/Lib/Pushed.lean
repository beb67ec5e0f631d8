import EterOS.Lib.Bytes
/-!
# Pushed — strings and words laid out in memory, and read back

`Holds` and `HasWords` say what stands from an address on, `putWords` stores words one after the other; `readString`,
`readWords` and `readPairs` read up to the terminator, within a bound.  `Stacked` is a row of areas in increasing order.
-/
namespace EterOS.Buffer

open List

variable {m m' : Buffer} {a i n fuel : Nat} {l : List UInt8} {ws : List Nat} {ps : List (Nat × Nat)}

def ofList (l : List UInt8) : Buffer := fun i => l.getD i 0

def Holds (m : Buffer) : Nat → List UInt8 → Prop
  | _, [] => True
  | a, c :: l => m a = c ∧ Holds m (a + 1) l

/-- The 64-bit words `ws` stand at an address. -/
def HasWords (m : Buffer) : Nat → List Nat → Prop
  | _, [] => True
  | a, w :: ws => m.le a 8 = w ∧ HasWords m (a + 8) ws

def putWords (m : Buffer) : Nat → List Nat → Buffer
  | _, [] => m
  | a, w :: ws => putWords (m.blit a (digits w) 8) (a + 8) ws

/-- The string at `a`, where it ends within `fuel` bytes. -/
def readString (m : Buffer) : Nat → Nat → Option (List UInt8)
  | 0, _ => none
  | fuel + 1, a => if m a = 0 then some [] else (readString m fuel (a + 1)).map (m a :: ·)

/-- The words from `a` up to a null one, at most `fuel` of them read. -/
def readWords (m : Buffer) : Nat → Nat → Option (List Nat)
  | 0, _ => none
  | fuel + 1, a => if m.le a 8 = 0 then some [] else (readWords m fuel (a + 8)).map (m.le a 8 :: ·)

/-- The pairs of words from `a` up to one whose first is null, at most `fuel` of them read. -/
def readPairs (m : Buffer) : Nat → Nat → Option (List (Nat × Nat))
  | 0, _ => none
  | fuel + 1, a =>
    if m.le a 8 = 0 then some [] else (readPairs m fuel (a + 16)).map ((m.le a 8, m.le (a + 8) 8) :: ·)

/-! ## Strings -/

theorem Holds.congr : ∀ {l : List UInt8} {a : Nat}, Holds m a l → (∀ i, a ≤ i → i < a + l.length → m' i = m i) → Holds m' a l
  | [], _, _, _ => trivial
  | c :: l, a, ⟨hc, hl⟩, h => by
    have hfirst : m' a = m a := h a (Nat.le_refl _) (by simp)
    refine ⟨hfirst.trans hc, hl.congr fun i hi hi' => h i (by omega) ?_⟩
    rw [length_cons]
    omega

theorem holds_of_getD : ∀ {l : List UInt8} {a : Nat}, (∀ i < l.length, m (a + i) = l.getD i 0) → Holds m a l
  | [], _, _ => trivial
  | c :: l, a, h => by
    refine ⟨by simpa using h 0 (by simp), holds_of_getD fun i hi => ?_⟩
    have hnext := h (i + 1) (by simpa using hi)
    rw [Nat.add_assoc, Nat.add_comm 1 i, hnext, getD_cons_succ]

theorem holds_blit (m : Buffer) (a : Nat) (l : List UInt8) : Holds (m.blit a (ofList l) l.length) a l := by
  apply holds_of_getD
  intro i hi
  rw [blit_of_mem (Nat.le_add_right a i) (by omega), Nat.add_sub_cancel_left, ofList]

/-- **A string reads back**, whatever follows its terminator. -/
theorem readString_of_holds :
    ∀ {l : List UInt8} {a fuel : Nat}, Holds m a (l ++ [0]) → 0 ∉ l → l.length < fuel → readString m fuel a = some l
  | _, _, 0, _, _, hfuel => absurd hfuel (Nat.not_lt_zero _)
  | [], a, fuel + 1, h, _, _ => by
    rw [readString, if_pos h.1]
  | c :: l, a, fuel + 1, ⟨hc, hl⟩, h0, hfuel => by
    rw [mem_cons, not_or] at h0
    rw [length_cons] at hfuel
    rw [readString, hc, if_neg fun hzero => h0.1 hzero.symm, readString_of_holds hl h0.2 (by omega), Option.map_some]

/-! ## Words -/

theorem HasWords.congr :
    ∀ {ws : List Nat} {a : Nat}, HasWords m a ws → (∀ i, a ≤ i → i < a + 8 * ws.length → m' i = m i) → HasWords m' a ws
  | [], _, _, _ => trivial
  | w :: ws, a, ⟨hw, hws⟩, h => by
    rw [length_cons] at h
    refine ⟨?_, hws.congr fun i hi hi' => h i (by omega) (by omega)⟩
    rw [← hw]
    exact le_congr fun i hi hi' => h i hi (by omega)

theorem putWords_of_outside : ∀ {ws : List Nat} {a : Nat} {m : Buffer}, i < a ∨ a + 8 * ws.length ≤ i →
    putWords m a ws i = m i
  | [], _, _, _ => rfl
  | w :: ws, a, m, h => by
    rw [length_cons] at h
    rw [putWords, putWords_of_outside (by omega)]
    rcases h with h | h
    · exact blit_of_lt h
    · exact blit_of_ge (by omega)

theorem hasWords_putWords : ∀ {ws : List Nat} (a : Nat) (m : Buffer), (∀ w ∈ ws, w < 2 ^ 64) →
    HasWords (putWords m a ws) a ws
  | [], _, _, _ => trivial
  | w :: ws, a, m, h => by
    obtain ⟨hw, hws⟩ := forall_mem_cons.1 h
    refine ⟨?_, hasWords_putWords (a + 8) _ hws⟩
    have hsame : (putWords m a (w :: ws)).le a 8 = (m.blit a (digits w) 8).le a 8 :=
      le_congr fun i _ hi => putWords_of_outside (Or.inl hi)
    rw [hsame, le_blit_digits]
    exact Nat.mod_eq_of_lt hw

theorem hasWords_getD : ∀ {ws : List Nat} {a : Nat}, HasWords m a ws → ∀ i < ws.length, m.le (a + 8 * i) 8 = ws.getD i 0
  | [], _, _, _, hi => absurd hi (Nat.not_lt_zero _)
  | _ :: _, _, h, 0, _ => h.1
  | _ :: ws, a, h, i + 1, hi => by
    have hnext := hasWords_getD h.2 i (Nat.lt_of_succ_lt_succ hi)
    rw [getD_cons_succ, ← hnext, Nat.mul_add, Nat.add_comm (8 * i), Nat.add_assoc]

theorem HasWords.drop : ∀ {n : Nat} {ws : List Nat} {a : Nat}, HasWords m a ws → HasWords m (a + 8 * n) (ws.drop n)
  | 0, _, _, h => h
  | _ + 1, [], _, _ => trivial
  | n + 1, _ :: ws, a, h => by
    rw [drop_succ_cons, Nat.mul_add, Nat.add_comm (8 * n), ← Nat.add_assoc]
    exact HasWords.drop h.2

theorem HasWords.take : ∀ {n : Nat} {ws : List Nat} {a : Nat}, HasWords m a ws → HasWords m a (ws.take n)
  | 0, _, _, _ => trivial
  | _ + 1, [], _, _ => trivial
  | _ + 1, _ :: _, _, h => ⟨h.1, HasWords.take h.2⟩

/-- **A null-terminated row of words reads back.** -/
theorem readWords_of_hasWords :
    ∀ {ws : List Nat} {a fuel : Nat}, HasWords m a (ws ++ [0]) → 0 ∉ ws → ws.length < fuel → readWords m fuel a = some ws
  | _, _, 0, _, _, hfuel => absurd hfuel (Nat.not_lt_zero _)
  | [], a, fuel + 1, h, _, _ => by
    rw [readWords, if_pos h.1]
  | w :: ws, a, fuel + 1, ⟨hw, hws⟩, h0, hfuel => by
    rw [mem_cons, not_or] at h0
    rw [length_cons] at hfuel
    rw [readWords, hw, if_neg fun hzero => h0.1 hzero.symm, readWords_of_hasWords hws h0.2 (by omega), Option.map_some]

def flatten (ps : List (Nat × Nat)) : List Nat := ps.flatMap fun p => [p.1, p.2]

theorem length_flatten : ∀ ps : List (Nat × Nat), (flatten ps).length = 2 * ps.length
  | [] => rfl
  | p :: ps => by
    have htail := length_flatten ps
    rw [flatten] at htail ⊢
    rw [flatMap_cons, length_append, htail, length_cons, length_cons, length_cons, length_nil]
    omega

theorem readPairs_of_hasWords :
    ∀ {ps : List (Nat × Nat)} {a fuel : Nat} (v : Nat), HasWords m a (flatten (ps ++ [(0, v)])) → (∀ p ∈ ps, p.1 ≠ 0) →
      ps.length < fuel → readPairs m fuel a = some ps
  | _, _, 0, _, _, _, hfuel => absurd hfuel (Nat.not_lt_zero _)
  | [], a, fuel + 1, v, h, _, _ => by
    rw [readPairs, if_pos h.1]
  | p :: ps, a, fuel + 1, v, ⟨hkind, hvalue, hps⟩, h0, hfuel => by
    obtain ⟨hp, h0⟩ := forall_mem_cons.1 h0
    rw [length_cons] at hfuel
    rw [readPairs, hkind, hvalue, if_neg hp, readPairs_of_hasWords v hps h0 (by omega), Option.map_some]

/-! ## Areas -/

/-- Areas, as their starts and lengths, in increasing order between `lo` and `hi`. -/
def Stacked : Nat → List (Nat × Nat) → Nat → Prop
  | lo, [], hi => lo ≤ hi
  | lo, (a, n) :: l, hi => lo ≤ a ∧ Stacked (a + n) l hi

theorem Stacked.le : ∀ {l : List (Nat × Nat)} {lo hi : Nat}, Stacked lo l hi → lo ≤ hi
  | [], _, _, h => h
  | (_, _) :: _, _, _, ⟨ha, hl⟩ => ha.trans ((Nat.le_add_right _ _).trans hl.le)

theorem Stacked.mono : ∀ {l : List (Nat × Nat)} {lo lo' hi hi' : Nat}, Stacked lo l hi → lo' ≤ lo → hi ≤ hi' →
    Stacked lo' l hi'
  | [], _, _, _, _, h, hlo, hhi => hlo.trans (h.trans hhi)
  | (_, _) :: _, _, _, _, _, ⟨ha, hl⟩, hlo, hhi => ⟨hlo.trans ha, hl.mono (Nat.le_refl _) hhi⟩

theorem Stacked.append : ∀ {l l' : List (Nat × Nat)} {lo mid hi : Nat}, Stacked lo l mid → Stacked mid l' hi →
    Stacked lo (l ++ l') hi
  | [], _, _, _, _, h, h' => h'.mono h (Nat.le_refl _)
  | (_, _) :: _, _, _, _, _, ⟨ha, hl⟩, h' => ⟨ha, hl.append h'⟩

theorem Stacked.inside : ∀ {l : List (Nat × Nat)} {lo hi : Nat}, Stacked lo l hi → ∀ r ∈ l, lo ≤ r.1 ∧ r.1 + r.2 ≤ hi
  | (a, n) :: l, lo, hi, ⟨ha, hl⟩, r, hr => by
    rcases mem_cons.1 hr with rfl | hr
    · exact ⟨ha, hl.le⟩
    · have := hl.inside r hr
      exact ⟨by omega, this.2⟩

theorem Stacked.apart : ∀ {l : List (Nat × Nat)} {lo hi : Nat}, Stacked lo l hi → l.Pairwise fun r r' => r.1 + r.2 ≤ r'.1
  | [], _, _, _ => List.Pairwise.nil
  | (_, _) :: _, _, _, ⟨_, hl⟩ => List.Pairwise.cons (fun r hr => (hl.inside r hr).1) hl.apart

end EterOS.Buffer
