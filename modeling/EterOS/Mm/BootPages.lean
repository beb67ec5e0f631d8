import EterOS.Mm.NextFit
import EterOS.Mm.PmmAccount
/-!
# BootPages — the memory `pmm_init` gives away

`MayFree` says of a page what the memory map has to say for it to be given away; `Clean` is a map for which the rounding of
the entries, their order and the test of their number give away no other page.
-/
namespace EterOS.Mm

def E820Entry.Covers (e : E820Entry) (a : Nat) : Prop := e.baseAddr ≤ a ∧ a < e.baseAddr + e.length

/-- A byte of the pages counted for the entry: whole pages, from the one the region starts in. -/
def E820Entry.Given (e : E820Entry) (a : Nat) : Prop :=
  e.baseAddr / PAGE_SIZE * PAGE_SIZE ≤ a ∧ a < (e.baseAddr / PAGE_SIZE + e.length / PAGE_SIZE) * PAGE_SIZE

def InPage (p a : Nat) : Prop := p * PAGE_SIZE ≤ a ∧ a < (p + 1) * PAGE_SIZE

namespace BootMap

variable (m : BootMap)

def Rejected : Prop := m.entries.length = 0 ∨ m.entries.length > 128

/-- Page `p` is usable memory: every byte is in a usable region and in no other, and none is kept for something else. -/
structure MayFree (p : Nat) : Prop where
  usable : ∀ a, InPage p a → ∃ e ∈ m.usableEntries, e.Covers a
  other : ∀ a, InPage p a → ∀ e ∈ m.entries, e.type ≠ E820_USABLE → ¬ e.Covers a
  low : 0x100000 ≤ p * PAGE_SIZE
  kernel : ∀ a, InPage p a → ¬ (m.kernelStart ≤ a ∧ a < m.kernelEnd)
  bitmap : ∀ a, InPage p a → ¬ (bitmapAddr ≤ a ∧ a < bitmapAddr + m.bitmapSize)
  refCounts : ∀ a, InPage p a → ¬ (m.refCountsAddr ≤ a ∧ a < m.refCountsAddr + m.totalPages * 2)

/-- **Only usable memory is free**, and none where the map is rejected. -/
structure FreesUsable (s : Pmm) : Prop where
  page : ∀ p < s.totalPages, s.bits p = false → m.MayFree p
  rejected : m.Rejected → ∀ p < s.totalPages, s.bits p = true

def Left (a : Nat) : Prop := a / PAGE_SIZE < m.totalPages ∧ ∀ r ∈ m.reserved, ¬ inReserved r (a / PAGE_SIZE)

/-- The maps that give away usable memory only: the start of the page a usable region starts in is usable, no other region
and nothing of the kernel reaches the pages counted for a usable one, and a rejected map counts none. -/
structure Clean : Prop where
  head : ∀ e ∈ m.usableEntries, ∀ a, e.Given a → a < e.baseAddr → m.Left a → ∃ e' ∈ m.usableEntries, e'.Covers a
  apart : ∀ e ∈ m.usableEntries, ∀ f ∈ m.entries, f.type ≠ E820_USABLE → ∀ a, e.Given a → f.Covers a → ¬ m.Left a
  kernel : ∀ e ∈ m.usableEntries, ∀ a, e.Given a → m.kernelStart ≤ a ∧ a < m.kernelEnd → ¬ m.Left a
  accepted : m.Rejected → ∀ e ∈ m.usableEntries, ∀ a, e.Given a → ¬ m.Left a

end BootMap

/-! ## Bytes and pages -/

theorem InPage.div {p a : Nat} (h : InPage p a) : a / PAGE_SIZE = p := by
  obtain ⟨h1, h2⟩ := h
  unfold PAGE_SIZE at *
  omega

theorem inPage_div (a : Nat) : InPage (a / PAGE_SIZE) a := by
  unfold InPage PAGE_SIZE
  omega

theorem inEntry_iff {e : E820Entry} {p a : Nat} (h : InPage p a) : inEntry e p ↔ e.Given a := by
  obtain ⟨h1, h2⟩ := h
  unfold inEntry Pmm.inRun E820Entry.Given PAGE_SIZE at *
  simp only [Bool.and_eq_true, decide_eq_true_eq]
  omega

theorem E820Entry.Given.covers {e : E820Entry} {a : Nat} (h : e.Given a) (hle : e.baseAddr ≤ a) : e.Covers a := by
  obtain ⟨-, h2⟩ := h
  refine ⟨hle, ?_⟩
  unfold PAGE_SIZE at h2
  omega

theorem inReserved_of_byte {base size a : Nat} (hbase : base % PAGE_SIZE = 0) (hsize : size + PAGE_SIZE ≤ 2 ^ 64)
    (h : base ≤ a ∧ a < base + size) : inReserved (base, size) (a / PAGE_SIZE) := by
  unfold inReserved Pmm.inRun Pmm.pagesUp PAGE_SIZE at *
  simp only [Bool.and_eq_true, decide_eq_true_eq]
  omega

namespace BootMap

variable (m : BootMap)

theorem totalRam_lt : m.totalRam < 2 ^ 64 := by
  have hfold : ∀ (es : List E820Entry) (ram : Nat), ram < 2 ^ 64 →
      es.foldl (fun ram e => max ram ((e.baseAddr + e.length) % 2 ^ 64)) ram < 2 ^ 64 := by
    intro es
    induction es with
    | nil => exact fun ram h => h
    | cons e es ih =>
      intro ram h
      refine ih _ (Nat.max_lt.2 ⟨h, Nat.mod_lt _ (by decide)⟩)
  unfold totalRam
  dsimp only
  split
  · decide
  · split
    · decide
    · exact hfold _ 0 (by decide)

theorem usable_of_left {e : E820Entry} (he : e ∈ m.usableEntries) {a : Nat} (hgiven : e.Given a) (hleft : m.Left a) :
    m.Usable (a / PAGE_SIZE) :=
  ⟨hleft.1, ⟨e, he, (inEntry_iff (inPage_div a)).2 hgiven⟩, hleft.2⟩

variable {m}

theorem Usable.outside {p : Nat} (h : m.Usable p) :
    0x100000 ≤ p * PAGE_SIZE ∧ (∀ a, InPage p a → ¬ (bitmapAddr ≤ a ∧ a < bitmapAddr + m.bitmapSize)) ∧
      ∀ a, InPage p a → ¬ (m.refCountsAddr ≤ a ∧ a < m.refCountsAddr + m.totalPages * 2) := by
  obtain ⟨-, -, hreserved⟩ := h
  have hram := m.totalRam_lt
  have hpages : m.totalPages < 2 ^ 52 := by
    unfold totalPages PAGE_SIZE
    omega
  refine ⟨?_, fun a ha hin => ?_, fun a ha hin => ?_⟩
  · by_contra hlow
    refine hreserved (0, 0x100000) (by simp [reserved]) ?_
    have hbyte : inReserved (0, 0x100000) (p * PAGE_SIZE / PAGE_SIZE) :=
      inReserved_of_byte (by decide) (by decide) (by omega)
    rwa [Nat.mul_div_cancel _ (by decide)] at hbyte
  · refine hreserved (bitmapAddr, m.bitmapSize) (by simp [reserved]) ?_
    rw [← ha.div]
    refine inReserved_of_byte (by decide) ?_ hin
    unfold bitmapSize PAGE_SIZE
    omega
  · refine hreserved (m.refCountsAddr, m.totalPages * 2) (by simp [reserved]) ?_
    rw [← ha.div]
    refine inReserved_of_byte ?_ ?_ hin
    · unfold refCountsAddr
      exact Nat.mul_mod_left ..
    · unfold PAGE_SIZE
      omega

/-- **`pmm_init` gives away usable memory only** just for the clean maps. -/
theorem pmmInit_frees_usable (m : BootMap) (garbage : Nat → Bool) (s : Pmm) (hinit : m.pmmInit garbage = .ok s) :
    m.FreesUsable s ↔ m.Clean := by
  have haccounts := pmmInit_accounts hinit
  have hfree : ∀ p < s.totalPages, (s.bits p = false ↔ m.Usable p) := by
    intro p hp
    rw [(haccounts.page p hp).clear_iff]
    exact and_iff_left rfl
  have htotal := pmmInit_totalPages hinit
  constructor
  · rintro ⟨hpage, hrejected⟩
    have hmay : ∀ e ∈ m.usableEntries, ∀ a, e.Given a → m.Left a → m.MayFree (a / PAGE_SIZE) := by
      intro e he a hgiven hleft
      have hlt : a / PAGE_SIZE < s.totalPages := htotal ▸ hleft.1
      exact hpage _ hlt ((hfree _ hlt).2 (m.usable_of_left he hgiven hleft))
    refine ⟨fun e he a hgiven _ hleft => ?_, fun e he f hf htype a hgiven hcovers hleft => ?_,
      fun e he a hgiven hk hleft => ?_, fun hrej e he a hgiven hleft => ?_⟩
    · exact (hmay e he a hgiven hleft).usable a (inPage_div a)
    · exact (hmay e he a hgiven hleft).other a (inPage_div a) f hf htype hcovers
    · exact (hmay e he a hgiven hleft).kernel a (inPage_div a) hk
    · have hlt : a / PAGE_SIZE < s.totalPages := htotal ▸ hleft.1
      have hbit := (hfree _ hlt).2 (m.usable_of_left he hgiven hleft)
      rw [hrejected hrej _ hlt] at hbit
      exact absurd hbit (by decide)
  · intro hclean
    -- every byte of a page given away is one counted for a usable region
    have hbytes : ∀ p, m.Usable p → ∃ e ∈ m.usableEntries, ∀ a, InPage p a → e.Given a ∧ m.Left a := by
      rintro p ⟨hp, ⟨e, he, hin⟩, hreserved⟩
      refine ⟨e, he, fun a ha => ⟨(inEntry_iff ha).1 hin, ?_⟩⟩
      unfold Left
      rw [ha.div]
      exact ⟨hp, hreserved⟩
    refine ⟨fun p hp hbit => ?_, fun hrej p hp => ?_⟩
    · have husable := (hfree p hp).1 hbit
      obtain ⟨e, he, hall⟩ := hbytes p husable
      obtain ⟨hlow, hbitmap, hcounts⟩ := husable.outside
      refine ⟨fun a ha => ?_, fun a ha f hf htype hcovers => ?_, hlow, fun a ha hk => ?_, hbitmap, hcounts⟩
      · obtain ⟨hgiven, hleft⟩ := hall a ha
        by_cases hle : e.baseAddr ≤ a
        · exact ⟨e, he, hgiven.covers hle⟩
        · exact hclean.head e he a hgiven (Nat.lt_of_not_le hle) hleft
      · obtain ⟨hgiven, hleft⟩ := hall a ha
        exact hclean.apart e he f hf htype a hgiven hcovers hleft
      · obtain ⟨hgiven, hleft⟩ := hall a ha
        exact hclean.kernel e he a hgiven hk hleft
    · cases hbit : s.bits p with
      | true => rfl
      | false =>
        obtain ⟨e, he, hall⟩ := hbytes p ((hfree p hp).1 hbit)
        obtain ⟨hgiven, hleft⟩ := hall (p * PAGE_SIZE) ⟨Nat.le_refl _, by rw [Nat.add_mul]; unfold PAGE_SIZE; omega⟩
        exact absurd hleft (hclean.accepted hrej e he _ hgiven)

theorem pmmInit_frees_usable_tiny : ∃ s, tinyMap.pmmInit (fun _ => true) = .ok s ∧ (tinyMap.FreesUsable s ↔ tinyMap.Clean) :=
  ⟨_, rfl, pmmInit_frees_usable tinyMap _ _ rfl⟩

def midPageMap : BootMap := ⟨[⟨0x100800, 0x2000, E820_USABLE⟩], 0x101000, 0x102000⟩

/-- The page it starts in is given away, with the bytes before it that no region calls usable. -/
theorem pmmInit_frees_unmapped :
    ¬ ∀ (m : BootMap) (garbage : Nat → Bool) (s : Pmm), m.pmmInit garbage = .ok s → m.FreesUsable s := by
  intro h
  obtain ⟨s, hinit⟩ : ∃ s, midPageMap.pmmInit (fun _ => true) = .ok s := ⟨_, rfl⟩
  have husable : midPageMap.Usable 0x100 := by decide
  have hlt : 0x100 < s.totalPages := pmmInit_totalPages hinit ▸ husable.1
  have hbit := ((pmmInit_accounts hinit).page 0x100 hlt).clear_iff.2 ⟨husable, rfl⟩
  obtain ⟨e, he, hcovers⟩ := ((h midPageMap _ s hinit).page 0x100 hlt hbit).usable 0x100000 (by unfold InPage; decide)
  obtain rfl : e = ⟨0x100800, 0x2000, E820_USABLE⟩ := by
    simpa [usableEntries, midPageMap] using he
  exact absurd hcovers.1 (by decide)

def usablePages (m : BootMap) : Nat := ((Finset.range m.totalPages).filter m.Usable).card

/-- **From the boot on**, `pmm_alloc_page` hands out the usable pages, each one once, and then none: for every map. -/
theorem pmm_alloc_all (garbage : Nat → Bool) (s : Pmm) (hinit : m.pmmInit garbage = .ok s) (n : Nat) : ∃ pages : List Nat,
    pages.Nodup ∧ (∀ p ∈ pages, m.Usable p) ∧ pages.length = min n m.usablePages ∧
      (s.allocPages n).2 = pages.map (· * PAGE_SIZE) ++ List.replicate (n - m.usablePages) 0 := by
  have haccounts := pmmInit_accounts hinit
  have hfree : ∀ p < s.totalPages, (s.bits p = false ↔ m.Usable p) := by
    intro p hp
    rw [(haccounts.page p hp).clear_iff]
    exact and_iff_left rfl
  have hcard : s.clearPages = m.usablePages := by
    rw [usablePages, ← pmmInit_totalPages hinit]
    exact congrArg Finset.card (Finset.filter_congr fun p hp => hfree p (Finset.mem_range.1 hp))
  obtain ⟨pages, hnodup, hin, hlen, haddr⟩ := Pmm.allocPages_spec n haccounts.pageZero
  rw [hcard] at hlen haddr
  exact ⟨pages, hnodup, fun p hp => (hfree p (hin p hp).1).1 (hin p hp).2, hlen, haddr⟩

theorem pmm_alloc_all_tiny : ∃ s pages, tinyMap.pmmInit (fun _ => true) = .ok s ∧
    (s.allocPages 3).2 = List.map (· * PAGE_SIZE) pages ++ List.replicate (3 - tinyMap.usablePages) 0 :=
  have ⟨pages, _, _, _, haddr⟩ := pmm_alloc_all (m := tinyMap) _ _ rfl 3
  ⟨_, pages, rfl, haddr⟩

end BootMap

end EterOS.Mm
