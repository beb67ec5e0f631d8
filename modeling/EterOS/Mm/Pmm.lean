import Mathlib.Data.Finset.Card
import Mathlib.Data.Finset.Range
import Mathlib.Algebra.Group.Int.Defs
import Mathlib.Algebra.Group.Nat.Defs
/-!
# Pmm — the physical page allocator of `kernel/mm/pmm.c`

A bitmap of used pages, a reference count for each page and a byte counter.  A bit of the bitmap is a `Bool`, indexed as
`bitmap_test` numbers it; the words the allocator scans are read 64 bits at a time, also past the end of the bitmap,
where memory holds whatever it holds.  A failed `ASSERT` halts the machine: it is an error here.
-/
namespace EterOS.Mm

def PAGE_SIZE : Nat := 4096

structure Pmm where
  bits : Nat → Bool
  refCounts : Nat → Nat
  totalRam : Nat
  usedRam : Nat
  totalPages : Nat
  lastFreeIdx : Nat

inductive PmmPanic where
  | kernelNotAtOneMegabyte
  | invalidUnref
  | doubleFree
  | refcountOverflow

namespace Pmm

def bitmapSet (s : Pmm) (bit : Nat) : Pmm := { s with bits := Function.update s.bits bit true }

def bitmapUnset (s : Pmm) (bit : Nat) : Pmm := { s with bits := Function.update s.bits bit false }

def setRefCount (s : Pmm) (page n : Nat) : Pmm := { s with refCounts := Function.update s.refCounts page n }

/-! ## Regions -/

def markUsed (s : Pmm) (page : Nat) : Pmm :=
  if s.bits page then s else { s.bitmapSet page with usedRam := s.usedRam + PAGE_SIZE }

def markFree (s : Pmm) (page : Nat) : Pmm :=
  if s.bits page then { s.bitmapUnset page with usedRam := s.usedRam - PAGE_SIZE } else s

/-- The loop both share: `n` pages from `page` on, leaving at the first beyond the last page. -/
def markLoop (mark : Pmm → Nat → Pmm) (page : Nat) : Nat → Pmm → Pmm
  | 0, s => s
  | n + 1, s => if page < s.totalPages then markLoop mark (page + 1) n (mark s page) else s

/-- The pages `pmm_mark_region_used` counts: rounded up, in 64-bit arithmetic. -/
def pagesUp (size : Nat) : Nat := (size + PAGE_SIZE - 1) % 2 ^ 64 / PAGE_SIZE

def pmmMarkRegionUsed (s : Pmm) (base size : Nat) : Pmm :=
  if size = 0 then s
  else if base / PAGE_SIZE ≥ s.totalPages then s
  else markLoop markUsed (base / PAGE_SIZE) (pagesUp size) s

def pmmMarkRegionFree (s : Pmm) (base size : Nat) : Pmm :=
  if size = 0 then s
  else if base / PAGE_SIZE ≥ s.totalPages then s
  else markLoop markFree (base / PAGE_SIZE) (size / PAGE_SIZE) s

/-! ## Allocation -/

/-- `__builtin_ctzll` of the inverted word `i`, the bits below `start` masked out; `none` when nothing is left. -/
def firstClear (s : Pmm) (i start stop : Nat) : Option Nat :=
  (List.range' start (stop - start)).find? fun b => !s.bits (i * 64 + b)

/-- Pass 1: from the rover to the end; a page beyond the last one is the `goto check_wrap`. -/
def passOne (s : Pmm) (wordIdx bitIdx : Nat) : List Nat → Option Nat
  | [] => none
  | i :: is =>
    match s.firstClear i (if i = wordIdx then bitIdx else 0) 64 with
    | some bit => if i * 64 + bit ≥ s.totalPages then none else some (i * 64 + bit)
    | none => passOne s wordIdx bitIdx is

/-- Pass 2: from 0 to the rover; a page beyond the last one is the `return NULL`. -/
def passTwo (s : Pmm) (wordIdx bitIdx : Nat) : List Nat → Option Nat
  | [] => none
  | i :: is =>
    match s.firstClear i 0 (if i = wordIdx then bitIdx else 64) with
    | some bit => if i * 64 + bit ≥ s.totalPages then none else some (i * 64 + bit)
    | none => passTwo s wordIdx bitIdx is

/-- The page `pmm_alloc_page_impl` settles on. -/
def findPage (s : Pmm) : Option Nat :=
  let wordIdx := s.lastFreeIdx / 64
  let bitIdx := s.lastFreeIdx % 64
  let totalWords := (s.totalPages + 63) / 64
  (passOne s wordIdx bitIdx (List.range' wordIdx (totalWords - wordIdx))).or
    (passTwo s wordIdx bitIdx (List.range (wordIdx + 1)))

def wrapRover (s : Pmm) : Pmm := { s with lastFreeIdx := if s.lastFreeIdx ≥ s.totalPages then 0 else s.lastFreeIdx }

def takePage (s : Pmm) (page : Nat) : Pmm :=
  { (s.bitmapSet page).setRefCount page 1 with
    usedRam := s.usedRam + PAGE_SIZE
    lastFreeIdx := if page + 1 ≥ s.totalPages then 0 else page + 1 }

def pmmAllocPageImpl (s : Pmm) : Pmm × Nat :=
  let s := s.wrapRover
  match s.findPage with
  | some page => (s.takePage page, page * PAGE_SIZE)
  | none => (s, 0)

/-- `pmm_alloc_page`: one retry after `bcache_invalidate_all`, which gives no page back. -/
def pmmAllocPage (s : Pmm) : Pmm × Nat :=
  let r := s.pmmAllocPageImpl
  if r.2 ≠ 0 then r else r.1.pmmAllocPageImpl

/-! ## References -/

def pmmFreePage (s : Pmm) (addr : Nat) : Except PmmPanic Pmm :=
  let page := addr / PAGE_SIZE
  if page ≥ s.totalPages then .ok s
  else if s.refCounts page = 0 then .error .invalidUnref
  else
    let s := s.setRefCount page (s.refCounts page - 1)
    if s.refCounts page > 0 then .ok s
    else if !s.bits page then .error .doubleFree
    else .ok { s.bitmapUnset page with usedRam := s.usedRam - PAGE_SIZE }

def pmmRefPage (s : Pmm) (addr : Nat) : Except PmmPanic Pmm :=
  let page := addr / PAGE_SIZE
  if page ≥ s.totalPages then .ok s
  else if s.refCounts page < 65535 then .ok (s.setRefCount page (s.refCounts page + 1))
  else .error .refcountOverflow

def pmmUnrefPage (s : Pmm) (addr : Nat) : Except PmmPanic Pmm := s.pmmFreePage addr

def pmmGetRefCount (s : Pmm) (addr : Nat) : Nat :=
  if addr / PAGE_SIZE ≥ s.totalPages then 0 else s.refCounts (addr / PAGE_SIZE)

def pmmGetFreeRam (s : Pmm) : Nat := s.totalRam - s.usedRam

/-! ## The byte counter -/

def clearPages (s : Pmm) : Nat := ((Finset.range s.totalPages).filter fun p => s.bits p = false).card

structure Balanced (s : Pmm) : Prop where
  used : s.usedRam + PAGE_SIZE * s.clearPages = s.totalRam
  fits : PAGE_SIZE * s.totalPages ≤ s.totalRam

variable {s : Pmm}

theorem Balanced.getFreeRam (h : s.Balanced) : s.pmmGetFreeRam = PAGE_SIZE * s.clearPages := by
  unfold pmmGetFreeRam
  have := h.used
  omega

theorem clearPages_congr {s' : Pmm} (hb : s'.bits = s.bits) (ht : s'.totalPages = s.totalPages) :
    s'.clearPages = s.clearPages := by
  unfold clearPages
  rw [hb, ht]

variable {p : Nat}

theorem clearPages_of_set (hp : p < s.totalPages) (hc : s.bits p = false) :
    (s.bitmapSet p).clearPages + 1 = s.clearPages := by
  have hmem : p ∈ (Finset.range s.totalPages).filter fun q => s.bits q = false := by simp [hp, hc]
  have herase : ((Finset.range s.totalPages).filter fun q => (s.bitmapSet p).bits q = false) =
      ((Finset.range s.totalPages).filter fun q => s.bits q = false).erase p := by
    ext q
    rw [Finset.mem_filter, Finset.mem_erase, Finset.mem_filter]
    by_cases hq : q = p
    · simp [bitmapSet, hq]
    · simp [bitmapSet, hq]
  unfold clearPages
  rw [show (s.bitmapSet p).totalPages = s.totalPages from rfl, herase]
  exact Finset.card_erase_add_one hmem

theorem clearPages_of_unset (hp : p < s.totalPages) (hc : s.bits p = true) :
    (s.bitmapUnset p).clearPages = s.clearPages + 1 := by
  have hback : ((s.bitmapUnset p).bitmapSet p).clearPages = s.clearPages := by
    have : (s.bitmapUnset p).bitmapSet p = s := by
      simp only [bitmapSet, bitmapUnset, Function.update_idem]
      rw [← hc, Function.update_eq_self]
    rw [this]
  have := clearPages_of_set (s := s.bitmapUnset p) (p := p) hp (by simp [bitmapUnset])
  omega

theorem clearPages_lt (hp : p < s.totalPages) (hc : s.bits p = true) : s.clearPages < s.totalPages := by
  have hsub : ((Finset.range s.totalPages).filter fun q => s.bits q = false) ⊆ (Finset.range s.totalPages).erase p := by
    intro q hq
    simp only [Finset.mem_filter, Finset.mem_range] at hq
    have hne : q ≠ p := by
      rintro rfl
      rw [hc] at hq
      exact absurd hq.2 (by decide)
    simp [hne, hq.1]
  have hcard := Finset.card_le_card hsub
  rw [Finset.card_erase_of_mem (Finset.mem_range.2 hp), Finset.card_range] at hcard
  unfold clearPages
  omega

theorem Balanced.set (h : s.Balanced) (hp : p < s.totalPages) (hc : s.bits p = false) :
    ({ s.bitmapSet p with usedRam := s.usedRam + PAGE_SIZE } : Pmm).Balanced := by
  refine ⟨?_, h.fits⟩
  have hu := h.used
  rw [← clearPages_of_set hp hc] at hu
  have hclear : ({ s.bitmapSet p with usedRam := s.usedRam + PAGE_SIZE } : Pmm).clearPages =
      (s.bitmapSet p).clearPages := clearPages_congr rfl rfl
  rw [hclear]
  rw [Nat.mul_add] at hu
  dsimp only [bitmapSet] at hu ⊢
  omega

theorem Balanced.unset (h : s.Balanced) (hp : p < s.totalPages) (hc : s.bits p = true) :
    ({ s.bitmapUnset p with usedRam := s.usedRam - PAGE_SIZE } : Pmm).Balanced := by
  refine ⟨?_, h.fits⟩
  have hu := h.used
  -- a set bit is a whole page of used memory, so the counter does not wrap
  have hroom : PAGE_SIZE * (s.clearPages + 1) ≤ s.totalRam := (Nat.mul_le_mul_left _ (clearPages_lt hp hc)).trans h.fits
  rw [Nat.mul_add] at hroom
  have hclear : ({ s.bitmapUnset p with usedRam := s.usedRam - PAGE_SIZE } : Pmm).clearPages = s.clearPages + 1 := by
    rw [← clearPages_of_unset hp hc]
    unfold clearPages
    rfl
  rw [hclear, Nat.mul_add]
  dsimp only [bitmapUnset]
  omega

/-! ## What marking a region does -/

def inRun (page n p : Nat) : Bool := decide (page ≤ p) && decide (p < page + n)

theorem inRun_succ (page n p : Nat) : inRun page (n + 1) p = (decide (p = page) || inRun (page + 1) n p) := by
  unfold inRun
  rw [Bool.eq_iff_iff]
  simp only [Bool.and_eq_true, Bool.or_eq_true, decide_eq_true_eq]
  omega

structure SameFrame (s s' : Pmm) : Prop where
  refCounts : s'.refCounts = s.refCounts
  totalRam : s'.totalRam = s.totalRam
  totalPages : s'.totalPages = s.totalPages

theorem SameFrame.trans {t u : Pmm} (h : SameFrame s t) (h' : SameFrame t u) : SameFrame s u :=
  ⟨h'.refCounts.trans h.refCounts, h'.totalRam.trans h.totalRam, h'.totalPages.trans h.totalPages⟩

theorem markUsed_frame (s : Pmm) (p : Nat) : SameFrame s (s.markUsed p) := by
  unfold markUsed
  split <;> exact ⟨rfl, rfl, rfl⟩

theorem markFree_frame (s : Pmm) (p : Nat) : SameFrame s (s.markFree p) := by
  unfold markFree
  split <;> exact ⟨rfl, rfl, rfl⟩

theorem markUsed_bits (s : Pmm) (page p : Nat) : (s.markUsed page).bits p = (s.bits p || decide (p = page)) := by
  unfold markUsed
  by_cases hp : p = page
  · subst hp
    split
    · rename_i h
      simp [h]
    · simp [bitmapSet]
  · split <;> simp [bitmapSet, hp]

theorem markFree_bits (s : Pmm) (page p : Nat) : (s.markFree page).bits p = (s.bits p && !decide (p = page)) := by
  unfold markFree
  by_cases hp : p = page
  · subst hp
    split
    · simp [bitmapUnset]
    · rename_i h
      simp [h]
  · split <;> simp [bitmapUnset, hp]

theorem markUsed_balanced (h : s.Balanced) (hp : p < s.totalPages) : (s.markUsed p).Balanced := by
  unfold markUsed
  split
  · exact h
  · rename_i hc
    exact h.set hp (by simpa using hc)

theorem markFree_balanced (h : s.Balanced) (hp : p < s.totalPages) : (s.markFree p).Balanced := by
  unfold markFree
  split
  · rename_i hc
    exact h.unset hp hc
  · exact h

theorem markLoop_keeps {mark : Pmm → Nat → Pmm} {P : Pmm → Prop} (hmark : ∀ s p, P s → p < s.totalPages → P (mark s p)) :
    ∀ (n page : Nat) (s : Pmm), P s → P (markLoop mark page n s)
  | 0, _, _, h => h
  | n + 1, page, s, h => by
    rw [markLoop]
    split
    · rename_i hp
      exact markLoop_keeps hmark n (page + 1) (mark s page) (hmark s page h hp)
    · exact h

theorem markLoop_frame {mark : Pmm → Nat → Pmm} (hmark : ∀ s p, SameFrame s (mark s p)) (n page : Nat) (s : Pmm) :
    SameFrame s (markLoop mark page n s) :=
  markLoop_keeps (P := SameFrame s) (fun t p h _ => h.trans (hmark t p)) n page s ⟨rfl, rfl, rfl⟩

/-- The loop over pages that are marked one by one. -/
theorem markLoop_bits {mark : Pmm → Nat → Pmm} (used : Bool) (hframe : ∀ s p, SameFrame s (mark s p))
    (hbits : ∀ s page p, (mark s page).bits p = if p = page then used else s.bits p) : ∀ (n page : Nat) (s : Pmm) (p : Nat),
      (markLoop mark page n s).bits p = if inRun page n p && decide (p < s.totalPages) then used else s.bits p
  | 0, page, s, p => by
    have hout : inRun page 0 p = false := by simp [inRun]
    simp [markLoop, hout]
  | n + 1, page, s, p => by
    rw [markLoop]
    split
    · rename_i hp
      rw [markLoop_bits used hframe hbits n (page + 1) (mark s page) p, hbits, (hframe s page).totalPages, inRun_succ]
      by_cases hpp : p = page
      · subst hpp
        simp [hp]
      · simp [hpp]
    · rename_i hp
      have hout : (inRun page (n + 1) p && decide (p < s.totalPages)) = false := by
        simp only [inRun, Bool.and_eq_false_iff, decide_eq_false_iff_not]
        omega
      simp [hout]

theorem markLoop_used_bits (n page : Nat) (s : Pmm) (p : Nat) :
    (markLoop markUsed page n s).bits p = (s.bits p || (inRun page n p && decide (p < s.totalPages))) := by
  rw [markLoop_bits true markUsed_frame fun s page p => by rw [markUsed_bits]; split <;> simp [*]]
  split <;> simp [*]

theorem markLoop_free_bits (n page : Nat) (s : Pmm) (p : Nat) :
    (markLoop markFree page n s).bits p = (s.bits p && !(inRun page n p && decide (p < s.totalPages))) := by
  rw [markLoop_bits false markFree_frame fun s page p => by rw [markFree_bits]; split <;> simp [*]]
  split <;> simp [*]

/-! ## What an allocation does -/

variable {b w i j k : Nat}

/-- The first clear page of a list, unless it is beyond the last one. -/
def scanned (s : Pmm) (l : List Nat) : Option Nat := (l.find? fun p => !s.bits p).filter (· < s.totalPages)

theorem firstClear_eq : (s.firstClear i j k).map (i * 64 + ·) = (List.range' (i * 64 + j) (k - j)).find? fun p =>
    !s.bits p := by
  rw [firstClear, ← List.map_add_range', List.find?_map]
  rfl

/-- A word of a scan, before what the words behind it give. -/
theorem scanned_word {l : List Nat} : s.scanned (List.range' (i * 64 + j) (k - j) ++ l) =
      (s.firstClear i j k).elim (s.scanned l) fun bit => if i * 64 + bit ≥ s.totalPages then none
      else some (i * 64 + bit) := by
  rw [scanned, List.find?_append, ← firstClear_eq]
  cases s.firstClear i j k with
  | none => simp [scanned]
  | some bit => by_cases hlt : i * 64 + bit < s.totalPages <;> simp [Option.filter, hlt]

theorem passOne_eq (hb : b ≤ 64) : ∀ {n i : Nat}, w ≤ i → passOne s w b (List.range' i n) =
    s.scanned (List.range' (i * 64 + if i = w then b else 0) (n * 64 - if i = w then b else 0))
  | 0, i, _ => by simp [passOne, scanned]
  | n + 1, i, hi => by
    have hlo : (if i = w then b else 0) ≤ 64 := by split <;> omega
    have hrest := passOne_eq hb (show w ≤ i + 1 by omega) (n := n)
    rw [if_neg (by omega), Nat.sub_zero] at hrest
    have hcut : (n + 1) * 64 - (if i = w then b else 0) = (64 - if i = w then b else 0) + n * 64 := by omega
    have hnext : i * 64 + (if i = w then b else 0) + (64 - if i = w then b else 0) = (i + 1) * 64 + 0 := by omega
    rw [List.range'_succ, passOne, hrest, hcut, ← List.range'_append_1, scanned_word, hnext]
    cases s.firstClear i (if i = w then b else 0) 64 <;> rfl

theorem passTwo_eq : ∀ {n i : Nat}, i + n = w →
    passTwo s w b (List.range' i (n + 1)) = s.scanned (List.range' (i * 64 + 0) (n * 64 + b))
  | 0, i, hi => by
    have hword := scanned_word (s := s) (i := i) (j := 0) (k := b) (l := [])
    rw [List.append_nil, Nat.sub_zero] at hword
    rw [List.range'_one, passTwo, if_pos (show i = w from hi), Nat.zero_mul, Nat.zero_add, hword]
    cases s.firstClear i 0 b <;> rfl
  | n + 1, i, hi => by
    have hcut : (n + 1) * 64 + b = (64 - 0) + (n * 64 + b) := by omega
    have hnext : i * 64 + 0 + (64 - 0) = (i + 1) * 64 + 0 := by omega
    rw [List.range'_succ, passTwo, passTwo_eq (show i + 1 + n = w by omega), if_neg (by omega), hcut,
      ← List.range'_append_1 (m := 64 - 0), scanned_word, hnext]
    cases s.firstClear i 0 64 <;> rfl

theorem scanned_range' (a n : Nat) :
    s.scanned (List.range' a n) = (List.range' a (min n (s.totalPages - a))).find? fun p => !s.bits p := by
  ext p
  simp only [scanned, Option.filter_eq_some_iff, List.find?_range'_eq_some, List.mem_range'_1, decide_eq_true_eq]
  constructor
  · rintro ⟨⟨hc, hp, hall⟩, hlt⟩
    exact ⟨hc, by omega, hall⟩
  · rintro ⟨hc, hp, hall⟩
    exact ⟨⟨hc, by omega, hall⟩, by omega⟩

/-- **The two passes** are a search from the rover to the last page, and one from the first to the rover. -/
theorem findPage_eq (s : Pmm) : s.findPage =
    ((List.range' s.lastFreeIdx (s.totalPages - s.lastFreeIdx)).find? fun p => !s.bits p).or
      ((List.range' 0 (min s.lastFreeIdx s.totalPages)).find? fun p => !s.bits p) := by
  unfold findPage
  dsimp only
  rw [List.range_eq_range', passOne_eq (Nat.mod_lt _ (by decide)).le (Nat.le_refl _), passTwo_eq (Nat.zero_add _),
    if_pos rfl, scanned_range', scanned_range']
  congr 3 <;> omega

theorem findPage_some (h : s.findPage = some p) : p < s.totalPages ∧ s.bits p = false := by
  rw [findPage_eq, Option.or_eq_some_iff] at h
  obtain h | ⟨-, h⟩ := h <;> simp [List.find?_range'_eq_some] at h <;> exact ⟨by omega, h.1⟩

theorem findPage_none (h : s.findPage = none) : ∀ p < s.totalPages, s.bits p = true := by
  intro p hp
  simp only [findPage_eq, Option.or_eq_none_iff, List.find?_range'_eq_none, Bool.not_not] at h
  by_cases hr : s.lastFreeIdx ≤ p
  · exact h.1 p hr (by omega)
  · exact h.2 p (Nat.zero_le p) (by omega)

theorem pmmAllocPageImpl_spec (s : Pmm) : (∃ p rover, p < s.totalPages ∧ s.bits p = false ∧
      s.pmmAllocPageImpl = ({ s.takePage p with lastFreeIdx := rover }, p * PAGE_SIZE)) ∨
    (∃ rover, (∀ p < s.totalPages, s.bits p = true) ∧ s.pmmAllocPageImpl = ({ s with lastFreeIdx := rover }, 0)) := by
  unfold pmmAllocPageImpl
  dsimp only
  split
  · rename_i p hp
    have hspec := findPage_some hp
    exact .inl ⟨p, _, hspec.1, hspec.2, rfl⟩
  · rename_i hnone
    exact .inr ⟨_, fun p hp => findPage_none hnone p hp, rfl⟩

/-- **What `pmm_alloc_page` does**: with page 0 in use, it takes a clear page, or there is none and only the rover
moves. -/
theorem pmmAllocPage_spec (h0 : s.totalPages = 0 ∨ s.bits 0 = true) :
    (∃ p rover, 0 < p ∧ p < s.totalPages ∧ s.bits p = false ∧
      s.pmmAllocPage = ({ s.takePage p with lastFreeIdx := rover }, p * PAGE_SIZE)) ∨
    (∃ rover, (∀ p < s.totalPages, s.bits p = true) ∧ s.pmmAllocPage = ({ s with lastFreeIdx := rover }, 0)) := by
  unfold pmmAllocPage
  dsimp only
  obtain ⟨p, rover, hp, hc, heq⟩ | ⟨rover, hall, heq⟩ := pmmAllocPageImpl_spec s
  · have hpos : 0 < p := by
      rcases Nat.eq_zero_or_pos p with rfl | hpos
      · rcases h0 with h0 | h0
        · omega
        · rw [hc] at h0
          cases h0
      · exact hpos
    have hne : p * PAGE_SIZE ≠ 0 := Nat.mul_ne_zero (by omega) (by decide)
    rw [heq, if_pos hne]
    exact .inl ⟨p, rover, hpos, hp, hc, rfl⟩
  · rw [heq, if_neg (by simp)]
    -- the retry looks at the same bitmap
    obtain ⟨p, r', hp, hc, -⟩ | ⟨r', -, heq'⟩ := pmmAllocPageImpl_spec { s with lastFreeIdx := rover }
    · rw [hall p hp] at hc
      cases hc
    · exact .inr ⟨r', hall, heq'⟩

end Pmm

/-! ## Initialisation -/

def E820_USABLE : Nat := 1

structure E820Entry where
  baseAddr : Nat
  length : Nat
  type : Nat

/-- What `pmm_init` finds: the memory map of the boot loader and the linker's bounds of the kernel. -/
structure BootMap where
  entries : List E820Entry
  kernelStart : Nat
  kernelEnd : Nat

namespace BootMap

def usableEntries (m : BootMap) : List E820Entry := m.entries.filter (·.type == E820_USABLE)

/-- The end of the highest usable region, in 64-bit arithmetic, with the two fallbacks. -/
def totalRam (m : BootMap) : Nat :=
  let ram :=
    if m.entries.length = 0 ∨ m.entries.length > 128 then 128 * 1024 * 1024
    else m.usableEntries.foldl (fun ram e => max ram ((e.baseAddr + e.length) % 2 ^ 64)) 0
  if ram = 0 then 32 * 1024 * 1024 else ram

def totalPages (m : BootMap) : Nat := m.totalRam / PAGE_SIZE

def bitmapAddr : Nat := 0x1A000

def bitmapSize (m : BootMap) : Nat := (m.totalPages + 7) / 8

def refCountsAddr (m : BootMap) : Nat := (bitmapAddr + m.bitmapSize + PAGE_SIZE - 1) / PAGE_SIZE * PAGE_SIZE

/-- The regions `pmm_init` takes back, in its order. -/
def reserved (m : BootMap) : List (Nat × Nat) :=
  [(0, 0x100000), (0xB8000, 32000), (m.kernelStart, (m.kernelEnd + 2 ^ 64 - m.kernelStart) % 2 ^ 64),
    (bitmapAddr, m.bitmapSize), (m.refCountsAddr, m.totalPages * 2)]

/-- Everything used and counted once; what follows the bitmap in memory is left as it was. -/
def allUsed (m : BootMap) (garbage : Nat → Bool) : Pmm where
  bits := fun p => decide (p < m.bitmapSize * 8) || garbage p
  refCounts := fun _ => 1
  totalRam := m.totalRam
  usedRam := m.totalRam
  totalPages := m.totalPages
  lastFreeIdx := 0

def firstRover (m : BootMap) : Nat :=
  let idx := (m.refCountsAddr + m.totalPages * 2 + PAGE_SIZE - 1) / PAGE_SIZE
  if idx ≥ m.totalPages then 0 else idx

def pmmInit (m : BootMap) (garbage : Nat → Bool) : Except PmmPanic Pmm :=
  if m.kernelStart < 0x100000 then .error .kernelNotAtOneMegabyte
  else
    let freed := m.usableEntries.foldl (fun s e => s.pmmMarkRegionFree e.baseAddr e.length) (m.allUsed garbage)
    let marked := m.reserved.foldl (fun s r => s.pmmMarkRegionUsed r.1 r.2) freed
    .ok { marked with lastFreeIdx := m.firstRover }

end BootMap

end EterOS.Mm
