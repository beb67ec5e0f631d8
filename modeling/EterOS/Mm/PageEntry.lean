import EterOS.Mm.Pmm
/-!
# PageEntry — the bits of a page table entry

The constants of `include/vmm.h` and what the tests and updates of `kernel/mm/vmm.c` mean for the single fields of a
64-bit entry: the frame in bits 12 to 51, the flags around it.
-/
namespace EterOS.Mm

def PAGE_PRESENT : BitVec 64 := 0x1#64
def PAGE_WRITE : BitVec 64 := 0x2#64
def PAGE_USER : BitVec 64 := 0x4#64
def PAGE_HUGE : BitVec 64 := 0x80#64
def PAGE_COW : BitVec 64 := 0x200#64
def PAGE_ADDR_MASK : BitVec 64 := 0x000FFFFFFFFFF000#64

def has (e flag : BitVec 64) : Bool := e &&& flag != 0#64

def present (e : BitVec 64) : Bool := has e PAGE_PRESENT
def writable (e : BitVec 64) : Bool := has e PAGE_WRITE
def user (e : BitVec 64) : Bool := has e PAGE_USER
def huge (e : BitVec 64) : Bool := has e PAGE_HUGE
def cow (e : BitVec 64) : Bool := has e PAGE_COW

def frameOf (e : BitVec 64) : Nat := (e &&& PAGE_ADDR_MASK).toNat / PAGE_SIZE

def addrOf (frame : Nat) : BitVec 64 := BitVec.ofNat 64 (frame * PAGE_SIZE)

def flagsOf (e : BitVec 64) : BitVec 64 := e &&& ~~~PAGE_ADDR_MASK

/-- `src[i] |= PAGE_COW; src[i] &= ~PAGE_WRITE`. -/
def cowEntry (e : BitVec 64) : BitVec 64 := (e ||| PAGE_COW) &&& ~~~PAGE_WRITE

/-- `pt[i] &= ~PAGE_COW; pt[i] |= PAGE_WRITE`. -/
def uncowEntry (e : BitVec 64) : BitVec 64 := (e &&& ~~~PAGE_COW) ||| PAGE_WRITE

/-! ## Bits -/

theorem has_twoPow (e : BitVec 64) (k : Nat) (hk : k < 64) : has e (BitVec.twoPow 64 k) = e.getLsbD k := by
  unfold has
  rw [BitVec.and_twoPow]
  cases e.getLsbD k with
  | true =>
    have hne : BitVec.twoPow 64 k ≠ 0#64 := by
      intro h
      have hbit := congrArg (fun v => v.getLsbD k) h
      simp [hk] at hbit
    simpa using hne
  | false => simp

theorem present_eq (e : BitVec 64) : present e = e.getLsbD 0 := has_twoPow e 0 (by decide)
theorem writable_eq (e : BitVec 64) : writable e = e.getLsbD 1 := has_twoPow e 1 (by decide)
theorem user_eq (e : BitVec 64) : user e = e.getLsbD 2 := has_twoPow e 2 (by decide)
theorem huge_eq (e : BitVec 64) : huge e = e.getLsbD 7 := has_twoPow e 7 (by decide)

theorem write_bit : ∀ i < 64, PAGE_WRITE.getLsbD i = decide (i = 1) := by decide

theorem cow_bit : ∀ i < 64, PAGE_COW.getLsbD i = decide (i = 9) := by decide

theorem mask_bit : ∀ i < 64, PAGE_ADDR_MASK.getLsbD i = decide (12 ≤ i ∧ i < 52) := by decide

/-! ## The frame of an entry -/

theorem frameOf_or {x f : BitVec 64} (hf : f &&& PAGE_ADDR_MASK = 0#64) : frameOf (x ||| f) = frameOf x := by
  unfold frameOf
  rw [BitVec.and_or_distrib_right, hf, BitVec.or_zero]

theorem frameOf_and {x f : BitVec 64} (hf : ~~~f &&& PAGE_ADDR_MASK = 0#64) : frameOf (x &&& f) = frameOf x := by
  have hfm : f &&& PAGE_ADDR_MASK = PAGE_ADDR_MASK := by
    apply BitVec.eq_of_getLsbD_eq
    intro i hi
    have hbit := congrArg (fun v => v.getLsbD i) hf
    simp only [BitVec.getLsbD_and, BitVec.getLsbD_not, BitVec.getLsbD_zero, hi, decide_true, Bool.true_and] at hbit ⊢
    cases hfi : f.getLsbD i <;> simp_all
  unfold frameOf
  rw [BitVec.and_assoc, hfm]

theorem frameOf_addrOf {p : Nat} (hp : p < 2 ^ 40) : frameOf (addrOf p) = p := by
  have hmask : addrOf p &&& PAGE_ADDR_MASK = addrOf p := by
    apply BitVec.eq_of_getLsbD_eq
    intro i hi
    rw [BitVec.getLsbD_and, mask_bit i hi, addrOf, BitVec.getLsbD_ofNat, show PAGE_SIZE = 2 ^ 12 from rfl,
      Nat.testBit_mul_two_pow]
    by_cases h12 : 12 ≤ i
    · by_cases h52 : i < 52
      · simp [h12, h52]
      · have hzero : p.testBit (i - 12) = false :=
          Nat.testBit_lt_two_pow (hp.trans_le (Nat.pow_le_pow_right (by decide) (by omega)))
        simp [hzero]
    · simp [h12]
  have hlt : p * PAGE_SIZE < 2 ^ 64 := by
    simp only [PAGE_SIZE]
    omega
  unfold frameOf
  rw [hmask, addrOf, BitVec.toNat_ofNat, Nat.mod_eq_of_lt hlt, Nat.mul_div_cancel p (by decide)]

theorem frameOf_addrOf_or {p : Nat} (hp : p < 2 ^ 40) {f : BitVec 64} (hf : f &&& PAGE_ADDR_MASK = 0#64) :
    frameOf (addrOf p ||| f) = p := by
  rw [frameOf_or hf, frameOf_addrOf hp]

theorem addrOf_bit (p : Nat) {k : Nat} (hk : k < 12) : (addrOf p).getLsbD k = false := by
  rw [addrOf, BitVec.getLsbD_ofNat, show PAGE_SIZE = 2 ^ 12 from rfl, Nat.testBit_mul_two_pow]
  simp [show ¬ 12 ≤ k by omega]

theorem flagsOf_mask (e : BitVec 64) : flagsOf e &&& PAGE_ADDR_MASK = 0#64 := by
  unfold flagsOf
  rw [BitVec.and_assoc, BitVec.not_and_self]
  exact BitVec.and_zero

theorem flagsOf_bit (e : BitVec 64) {k : Nat} (hk : k < 12) : (flagsOf e).getLsbD k = e.getLsbD k := by
  unfold flagsOf
  rw [BitVec.getLsbD_and, BitVec.getLsbD_not, mask_bit k (by omega)]
  simp [show ¬ 12 ≤ k by omega, show k < 64 by omega]

theorem low12_mask (e : BitVec 64) : (e &&& 0xFFF#64) &&& PAGE_ADDR_MASK = 0#64 := by
  rw [BitVec.and_assoc, show 0xFFF#64 &&& PAGE_ADDR_MASK = 0#64 from by decide, BitVec.and_zero]

theorem low12_bit (e : BitVec 64) {k : Nat} (hk : k < 12) : (e &&& 0xFFF#64).getLsbD k = e.getLsbD k := by
  have hone : (0xFFF#64).getLsbD k = true := by
    revert hk
    revert k
    decide
  rw [BitVec.getLsbD_and, hone, Bool.and_true]

/-! ## Copy-on-write entries -/

structure SameWalk (e e' : BitVec 64) : Prop where
  present : present e' = present e
  user : user e' = user e
  huge : huge e' = huge e
  frame : frameOf e' = frameOf e

theorem SameWalk.refl (e : BitVec 64) : SameWalk e e := ⟨rfl, rfl, rfl, rfl⟩

theorem SameWalk.trans {a b c : BitVec 64} (h : SameWalk a b) (h' : SameWalk b c) : SameWalk a c :=
  ⟨h'.present.trans h.present, h'.user.trans h.user, h'.huge.trans h.huge, h'.frame.trans h.frame⟩

theorem cowEntry_bit (e : BitVec 64) {k : Nat} (hk : k < 64) :
    (cowEntry e).getLsbD k = ((e.getLsbD k || decide (k = 9)) && !decide (k = 1)) := by
  rw [cowEntry, BitVec.getLsbD_and, BitVec.getLsbD_or, BitVec.getLsbD_not, cow_bit k hk, write_bit k hk]
  simp [hk]

theorem uncowEntry_bit (e : BitVec 64) {k : Nat} (hk : k < 64) :
    (uncowEntry e).getLsbD k = ((e.getLsbD k && !decide (k = 9)) || decide (k = 1)) := by
  rw [uncowEntry, BitVec.getLsbD_or, BitVec.getLsbD_and, BitVec.getLsbD_not, cow_bit k hk, write_bit k hk]
  simp [hk]

theorem cowEntry_sameWalk (e : BitVec 64) : SameWalk e (cowEntry e) := by
  refine ⟨?_, ?_, ?_, ?_⟩
  · rw [present_eq, present_eq, cowEntry_bit e (by decide)]
    simp
  · rw [user_eq, user_eq, cowEntry_bit e (by decide)]
    simp
  · rw [huge_eq, huge_eq, cowEntry_bit e (by decide)]
    simp
  · rw [cowEntry, frameOf_and (by decide), frameOf_or (by decide)]

theorem uncowEntry_sameWalk (e : BitVec 64) : SameWalk e (uncowEntry e) := by
  refine ⟨?_, ?_, ?_, ?_⟩
  · rw [present_eq, present_eq, uncowEntry_bit e (by decide)]
    simp
  · rw [user_eq, user_eq, uncowEntry_bit e (by decide)]
    simp
  · rw [huge_eq, huge_eq, uncowEntry_bit e (by decide)]
    simp
  · rw [uncowEntry, frameOf_or (by decide), frameOf_and (by decide)]

theorem cowEntry_writable (e : BitVec 64) : writable (cowEntry e) = false := by
  rw [writable_eq, cowEntry_bit e (by decide)]
  simp

theorem reframe_sameFlags (e : BitVec 64) {p : Nat} {f : BitVec 64} (hf : ∀ k < 12, f.getLsbD k = e.getLsbD k) :
    present (addrOf p ||| f) = present e ∧ user (addrOf p ||| f) = user e ∧ huge (addrOf p ||| f) = huge e := by
  simp only [present_eq, user_eq, huge_eq, BitVec.getLsbD_or, addrOf_bit p (show 0 < 12 by decide),
    addrOf_bit p (show 2 < 12 by decide), addrOf_bit p (show 7 < 12 by decide), Bool.false_or]
  exact ⟨hf 0 (by decide), hf 2 (by decide), hf 7 (by decide)⟩

end EterOS.Mm
