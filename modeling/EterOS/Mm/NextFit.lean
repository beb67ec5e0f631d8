import EterOS.Mm.Pmm
/-!
# NextFit — the word scan against the plain search

`nextFit` looks at one page after the other, from the rover round to the rover.  `pmm_alloc_page_impl` scans words in two
passes and leaves each of them early; it finds the same page.
-/
namespace EterOS.Mm
namespace Pmm

open List

variable {s : Pmm}

/-- The pages in the order of the search: from `start` to the last one, then from 0 to before `start`. -/
def cyclic (start total : Nat) : List Nat := List.range' start (total - start) ++ List.range start

def nextFit (s : Pmm) : Option Nat := (cyclic s.lastFreeIdx s.totalPages).find? fun p => !s.bits p

/-- **The word scan is the plain search.** -/
theorem findPage_eq_nextFit (hrover : s.lastFreeIdx ≤ s.totalPages) : s.findPage = s.nextFit := by
  rw [findPage_eq, nextFit, cyclic, List.find?_append, range_eq_range', Nat.min_eq_left hrover]

theorem wrapRover_le : s.wrapRover.lastFreeIdx ≤ s.wrapRover.totalPages := by
  unfold wrapRover
  dsimp only
  split <;> omega

theorem nextFit_none (hrover : s.lastFreeIdx ≤ s.totalPages) : s.nextFit = none ↔ ∀ p < s.totalPages, s.bits p = true := by
  unfold nextFit cyclic
  rw [List.find?_eq_none]
  constructor
  · intro h p hp
    by_cases hr : p < s.lastFreeIdx
    · simpa using h p (mem_append_right _ (mem_range.2 hr))
    · simpa using h p (mem_append_left _ (mem_range'_1.2 (by omega)))
  · intro h p hp
    rw [mem_append, mem_range'_1, mem_range] at hp
    rw [h p (by omega)]
    decide

/-- **`pmm_alloc_page_impl` is next fit**, for every bitmap, number of pages and rover (one past the end stands for 0). -/
theorem pmm_next_fit (s : Pmm) :
    (∀ p, s.wrapRover.nextFit = some p → s.pmmAllocPageImpl = (s.wrapRover.takePage p, p * PAGE_SIZE)) ∧
    (s.wrapRover.nextFit = none → s.pmmAllocPageImpl = (s.wrapRover, 0)) ∧
    ((s.pmmAllocPageImpl.2 = 0 ∧ s.pmmAllocPageImpl.1.bits = s.bits ∧ s.pmmAllocPageImpl.1.refCounts = s.refCounts ∧
      s.pmmAllocPageImpl.1.usedRam = s.usedRam) ↔ ∀ p < s.totalPages, s.bits p = true) ∧
    (0 < s.totalPages → s.pmmAllocPageImpl.1.lastFreeIdx < s.totalPages) := by
  have hfind := findPage_eq_nextFit (wrapRover_le (s := s))
  have hsome : ∀ p, s.wrapRover.nextFit = some p → s.pmmAllocPageImpl = (s.wrapRover.takePage p, p * PAGE_SIZE) := by
    intro p hp
    unfold pmmAllocPageImpl
    dsimp only
    rw [hfind, hp]
  have hnone : s.wrapRover.nextFit = none → s.pmmAllocPageImpl = (s.wrapRover, 0) := by
    intro hp
    unfold pmmAllocPageImpl
    dsimp only
    rw [hfind, hp]
  refine ⟨hsome, hnone, ?_, fun hpos => ?_⟩
  · have hfull : s.wrapRover.nextFit = none ↔ ∀ p < s.totalPages, s.bits p = true := nextFit_none wrapRover_le
    rw [← hfull]
    constructor
    · rintro ⟨-, hbits, -, -⟩
      cases hp : s.wrapRover.nextFit with
      | none => rfl
      | some p =>
        -- the page was clear, and is marked
        have hclear := (findPage_some (hfind.trans hp)).2
        have htaken : (s.wrapRover.takePage p).bits p = true := Function.update_self ..
        rw [hsome p hp] at hbits
        have hsame : (s.wrapRover.takePage p).bits p = s.bits p := congrFun hbits p
        rw [htaken] at hsame
        exact absurd (hsame.trans hclear) (by decide)
    · intro hp
      rw [hnone hp]
      exact ⟨rfl, rfl, rfl, rfl⟩
  · cases hp : s.wrapRover.nextFit with
    | none =>
      rw [hnone hp]
      unfold wrapRover
      dsimp only
      split <;> omega
    | some p =>
      rw [hsome p hp]
      unfold takePage
      dsimp only
      have htotal : s.wrapRover.totalPages = s.totalPages := rfl
      split <;> omega

def pageZeroClear : Pmm where
  bits p := p ≠ 0
  refCounts _ := 1
  totalRam := 2 * PAGE_SIZE
  usedRam := PAGE_SIZE
  totalPages := 2
  lastFreeIdx := 1

/-- With no other page clear, page 0 is marked and its address is the one that says there is none. -/
theorem page_zero_taken : (∀ p < pageZeroClear.totalPages, p ≠ 0 → pageZeroClear.bits p = true) ∧
    pageZeroClear.pmmAllocPageImpl.2 = 0 ∧ pageZeroClear.pmmAllocPageImpl.1.bits 0 ≠ pageZeroClear.bits 0 := by
  refine ⟨fun p _ hp => by simp [pageZeroClear, hp], by decide, by decide⟩

/-! ## One allocation after the other -/

/-- What `n` calls of `pmm_alloc_page` return. -/
def allocPages (s : Pmm) : Nat → Pmm × List Nat
  | 0 => (s, [])
  | n + 1 => ((s.pmmAllocPage.1.allocPages n).1, s.pmmAllocPage.2 :: (s.pmmAllocPage.1.allocPages n).2)

/-- Every clear page is handed out once, and then there is none. -/
theorem allocPages_spec (n : Nat) : ∀ {s : Pmm}, s.totalPages = 0 ∨ s.bits 0 = true → ∃ pages : List Nat, pages.Nodup ∧
    (∀ p ∈ pages, p < s.totalPages ∧ s.bits p = false) ∧ pages.length = min n s.clearPages ∧
    (s.allocPages n).2 = pages.map (· * PAGE_SIZE) ++ replicate (n - s.clearPages) 0 := by
  induction n with
  | zero => exact fun _ => ⟨[], by simp [allocPages]⟩
  | succ n ih =>
    intro s h0
    unfold allocPages
    rcases pmmAllocPage_spec h0 with ⟨p, rover, -, hp, hclear, heq⟩ | ⟨rover, hall, heq⟩
    · rw [heq]
      have hset : Pmm.clearPages { s.takePage p with lastFreeIdx := rover } + 1 = s.clearPages := clearPages_of_set hp hclear
      have hbits : ∀ q, (s.takePage p).bits q = if q = p then true else s.bits q := fun q => Function.update_apply ..
      obtain ⟨pages, hnodup, hin, hlen, haddr⟩ :=
        ih (s := { s.takePage p with lastFreeIdx := rover }) (h0.imp_right fun h0 => by simp [hbits, h0])
      have hfree : ∀ q ∈ pages, q ≠ p ∧ s.bits q = false := fun q hq => by simpa [hbits] using (hin q hq).2
      have hleft : n + 1 - s.clearPages = n - Pmm.clearPages { s.takePage p with lastFreeIdx := rover } := by omega
      refine ⟨p :: pages, nodup_cons.2 ⟨fun hm => (hfree p hm).1 rfl, hnodup⟩, ?_, ?_, ?_⟩
      · rintro q (_ | ⟨_, hq⟩)
        · exact ⟨hp, hclear⟩
        · exact ⟨(hin q hq).1, (hfree q hq).2⟩
      · rw [length_cons, hlen]
        omega
      · rw [hleft, haddr]
        rfl
    · rw [heq]
      have hnone : s.clearPages = 0 := by
        rw [clearPages, Finset.card_eq_zero, Finset.filter_eq_empty_iff]
        intro p hp
        simp [hall p (Finset.mem_range.1 hp)]
      obtain ⟨pages, -, -, hlen, haddr⟩ := ih (s := { s with lastFreeIdx := rover }) h0
      have hsame : Pmm.clearPages { s with lastFreeIdx := rover } = 0 := hnone
      rw [hsame] at hlen haddr
      obtain rfl : pages = [] := length_eq_zero_iff.1 (by omega)
      exact ⟨[], nodup_nil, by simp, by simp [hnone], by rw [haddr, hnone]; rfl⟩

end Pmm
end EterOS.Mm
