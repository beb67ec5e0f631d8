import EterOS.Lib.Run
import EterOS.Mm.Pmm
/-!
# PmmAccount — the bitmap, the counts and the byte counter agree with the references held

A run of `pmm_alloc_page`, `pmm_ref_page`, `pmm_unref_page` and `pmm_free_page` is followed together with the number of
references each page has outstanding.  `Accounts` ties the three pieces of state to that number; it holds after
`pmm_init` (`pmmInit_accounts`) and every legitimate call keeps it, none of the assertions failing on the way.

`pmm_ref_page` does not look at the bitmap: a reference taken on a free page is counted but leaves the page free.
-/
namespace EterOS.Mm

/-! ## Usable pages -/

/-- Page `p` lies in a region `pmm_mark_region_used` is given. -/
def inReserved (r : Nat × Nat) (p : Nat) : Prop := r.2 ≠ 0 ∧ Pmm.inRun (r.1 / PAGE_SIZE) (Pmm.pagesUp r.2) p = true

/-- Page `p` is one of the whole pages counted from the first page of a memory map entry. -/
def inEntry (e : E820Entry) (p : Nat) : Prop := Pmm.inRun (e.baseAddr / PAGE_SIZE) (e.length / PAGE_SIZE) p = true

/-- A page of memory the map calls usable and `pmm_init` does not keep for itself. -/
def BootMap.Usable (m : BootMap) (p : Nat) : Prop :=
  p < m.totalPages ∧ (∃ e ∈ m.usableEntries, inEntry e p) ∧ ∀ r ∈ m.reserved, ¬ inReserved r p

instance (r : Nat × Nat) (p : Nat) : Decidable (inReserved r p) := inferInstanceAs (Decidable (_ ∧ _))

instance (e : E820Entry) (p : Nat) : Decidable (inEntry e p) := inferInstanceAs (Decidable (_ = _))

instance (m : BootMap) (p : Nat) : Decidable (m.Usable p) := inferInstanceAs (Decidable (_ ∧ _))

namespace Pmm

theorem markRegionUsed_frame (s : Pmm) (base size : Nat) : SameFrame s (s.pmmMarkRegionUsed base size) := by
  unfold pmmMarkRegionUsed
  split
  · exact ⟨rfl, rfl, rfl⟩
  split
  · exact ⟨rfl, rfl, rfl⟩
  · exact markLoop_frame markUsed_frame _ _ s

theorem markRegionFree_frame (s : Pmm) (base size : Nat) : SameFrame s (s.pmmMarkRegionFree base size) := by
  unfold pmmMarkRegionFree
  split
  · exact ⟨rfl, rfl, rfl⟩
  split
  · exact ⟨rfl, rfl, rfl⟩
  · exact markLoop_frame markFree_frame _ _ s

variable {s : Pmm}

theorem markRegionUsed_balanced (h : s.Balanced) (base size : Nat) : (s.pmmMarkRegionUsed base size).Balanced := by
  unfold pmmMarkRegionUsed
  split
  · exact h
  split
  · exact h
  · exact markLoop_keeps (P := Balanced) (fun s p hs hp => markUsed_balanced hs hp) _ _ s h

theorem markRegionFree_balanced (h : s.Balanced) (base size : Nat) : (s.pmmMarkRegionFree base size).Balanced := by
  unfold pmmMarkRegionFree
  split
  · exact h
  split
  · exact h
  · exact markLoop_keeps (P := Balanced) (fun s p hs hp => markFree_balanced hs hp) _ _ s h

theorem markRegionUsed_clear (base size : Nat) {p : Nat} (hp : p < s.totalPages) :
    (s.pmmMarkRegionUsed base size).bits p = false ↔ s.bits p = false ∧ ¬ inReserved (base, size) p := by
  unfold pmmMarkRegionUsed inReserved
  split
  · rename_i h
    simp [h]
  split
  · rename_i h0 h
    have hout : inRun (base / PAGE_SIZE) (pagesUp size) p = false := by
      simp only [inRun, Bool.and_eq_false_iff, decide_eq_false_iff_not]
      omega
    simp [hout]
  · rename_i h0 h
    rw [markLoop_used_bits]
    simp [hp, h0]

theorem markRegionFree_clear (e : E820Entry) {p : Nat} (hp : p < s.totalPages) :
    (s.pmmMarkRegionFree e.baseAddr e.length).bits p = false ↔ s.bits p = false ∨ inEntry e p := by
  unfold pmmMarkRegionFree inEntry
  split
  · rename_i h
    have hout : inRun (e.baseAddr / PAGE_SIZE) (e.length / PAGE_SIZE) p = false := by
      simp only [inRun, h, Nat.zero_div, Bool.and_eq_false_iff, decide_eq_false_iff_not]
      omega
    simp [hout]
  split
  · rename_i h0 h
    have hout : inRun (e.baseAddr / PAGE_SIZE) (e.length / PAGE_SIZE) p = false := by
      simp only [inRun, Bool.and_eq_false_iff, decide_eq_false_iff_not]
      omega
    simp [hout]
  · rw [markLoop_free_bits]
    cases s.bits p <;> simp [hp]

theorem foldl_free : ∀ (es : List E820Entry) (s : Pmm), s.Balanced →
    SameFrame s (es.foldl (fun s e => s.pmmMarkRegionFree e.baseAddr e.length) s) ∧
    (es.foldl (fun s e => s.pmmMarkRegionFree e.baseAddr e.length) s).Balanced ∧
    ∀ p < s.totalPages, ((es.foldl (fun s e => s.pmmMarkRegionFree e.baseAddr e.length) s).bits p = false ↔
      s.bits p = false ∨ ∃ e ∈ es, inEntry e p)
  | [], s, hb => ⟨⟨rfl, rfl, rfl⟩, hb, fun p _ => by simp⟩
  | e :: es, s, hb => by
    have hf := markRegionFree_frame s e.baseAddr e.length
    obtain ⟨hf', hb', hc'⟩ := foldl_free es _ (markRegionFree_balanced hb e.baseAddr e.length)
    refine ⟨hf.trans hf', hb', fun p hp => ?_⟩
    rw [List.foldl_cons, hc' p (hf.totalPages ▸ hp), markRegionFree_clear e hp, or_assoc]
    simp

theorem foldl_used : ∀ (rs : List (Nat × Nat)) (s : Pmm), s.Balanced →
    SameFrame s (rs.foldl (fun s r => s.pmmMarkRegionUsed r.1 r.2) s) ∧
    (rs.foldl (fun s r => s.pmmMarkRegionUsed r.1 r.2) s).Balanced ∧
    ∀ p < s.totalPages, ((rs.foldl (fun s r => s.pmmMarkRegionUsed r.1 r.2) s).bits p = false ↔
      s.bits p = false ∧ ∀ r ∈ rs, ¬ inReserved r p)
  | [], s, hb => ⟨⟨rfl, rfl, rfl⟩, hb, fun p _ => by simp⟩
  | r :: rs, s, hb => by
    have hf := markRegionUsed_frame s r.1 r.2
    obtain ⟨hf', hb', hc'⟩ := foldl_used rs _ (markRegionUsed_balanced hb r.1 r.2)
    refine ⟨hf.trans hf', hb', fun p hp => ?_⟩
    rw [List.foldl_cons, hc' p (hf.totalPages ▸ hp), markRegionUsed_clear r.1 r.2 hp, and_assoc]
    simp

end Pmm

/-! ## The accounts -/

/-- One page: its bit and its count, against the `n` references outstanding on it.  A page that is not usable keeps
the one reference `pmm_init` counts for it. -/
structure PageOk (usable : Prop) (bit : Bool) (count n : Nat) : Prop where
  clear_iff : bit = false ↔ usable ∧ n = 0
  count_usable : usable → 0 < n → count = n
  count_reserved : ¬ usable → count = n + 1

structure Accounts (usable : Nat → Prop) (s : Pmm) (out : Nat → Nat) : Prop where
  page : ∀ p < s.totalPages, PageOk (usable p) (s.bits p) (s.refCounts p) (out p)
  zero : ¬ usable 0
  balanced : s.Balanced

variable {usable : Nat → Prop} {s : Pmm}

theorem Accounts.pageZero {out : Nat → Nat} (h : Accounts usable s out) : s.totalPages = 0 ∨ s.bits 0 = true := by
  rcases Nat.eq_zero_or_pos s.totalPages with h0 | h0
  · exact .inl h0
  · right
    cases hb : s.bits 0 with
    | true => rfl
    | false => exact absurd ((h.page 0 h0).clear_iff.1 hb).1 h.zero

theorem Accounts.change {s' : Pmm} {out out' : Nat → Nat} (h : Accounts usable s out) (p : Nat)
    (ht : s'.totalPages = s.totalPages)
    (hsame : ∀ q, q ≠ p → s'.bits q = s.bits q ∧ s'.refCounts q = s.refCounts q ∧ out' q = out q)
    (hp : p < s.totalPages → PageOk (usable p) (s'.bits p) (s'.refCounts p) (out' p)) (hb : s'.Balanced) :
    Accounts usable s' out' := by
  refine ⟨fun q hq => ?_, h.zero, hb⟩
  rw [ht] at hq
  by_cases hqp : q = p
  · subst hqp
    exact hp hq
  · obtain ⟨h1, h2, h3⟩ := hsame q hqp
    rw [h1, h2, h3]
    exact h.page q hq

theorem allUsed_balanced (m : BootMap) (garbage : Nat → Bool) : (m.allUsed garbage).Balanced := by
  refine ⟨?_, Nat.mul_div_le _ _⟩
  have hnone : (m.allUsed garbage).clearPages = 0 := by
    refine Finset.card_eq_zero.2 (Finset.filter_eq_empty_iff.2 fun p hp hc => ?_)
    have hp' : p < m.totalPages := Finset.mem_range.1 hp
    have : p < m.bitmapSize * 8 := by
      unfold BootMap.bitmapSize
      omega
    simp [BootMap.allUsed, this] at hc
  rw [hnone, Nat.mul_zero]
  rfl

/-- **`pmm_init` establishes the accounts**: no reference is outstanding, and the clear pages are the usable ones. -/
theorem pmmInit_accounts {m : BootMap} {garbage : Nat → Bool} (h : m.pmmInit garbage = .ok s) :
    Accounts m.Usable s fun _ => 0 := by
  unfold BootMap.pmmInit at h
  split at h
  · cases h
  dsimp only at h
  obtain ⟨hf, hb, hc⟩ := Pmm.foldl_free m.usableEntries (m.allUsed garbage) (allUsed_balanced m garbage)
  generalize m.usableEntries.foldl (fun s e => s.pmmMarkRegionFree e.baseAddr e.length) (m.allUsed garbage) = freed
    at h hf hb hc
  obtain ⟨hf', hb', hc'⟩ := Pmm.foldl_used m.reserved freed hb
  generalize m.reserved.foldl (fun s r => s.pmmMarkRegionUsed r.1 r.2) freed = marked at h hf' hb' hc'
  obtain rfl := Except.ok.inj h
  have htotal : freed.totalPages = m.totalPages := hf.totalPages
  have hmarked : marked.totalPages = m.totalPages := hf'.totalPages.trans htotal
  have hcounts : ∀ p, marked.refCounts p = 1 := fun p => by
    rw [hf'.refCounts, hf.refCounts]
    rfl
  refine ⟨fun p hp => ⟨?_, fun _ h0 => absurd h0 (Nat.lt_irrefl 0), fun _ => hcounts p⟩, fun h0 => ?_, ⟨hb'.used, hb'.fits⟩⟩
  · have hp' : p < m.totalPages := hmarked ▸ hp
    have hbit : (m.allUsed garbage).bits p = true := by
      have : p < m.bitmapSize * 8 := by
        unfold BootMap.bitmapSize
        omega
      simp [BootMap.allUsed, this]
    rw [hc' p (htotal ▸ hp'), hc p hp', hbit]
    simp [BootMap.Usable, hp']
  · -- page 0 is in the first megabyte
    exact h0.2.2 (0, 0x100000) (by simp [BootMap.reserved]) (by decide)

theorem pmmInit_totalPages {m : BootMap} {garbage : Nat → Bool} (h : m.pmmInit garbage = .ok s) :
    s.totalPages = m.totalPages := by
  unfold BootMap.pmmInit at h
  split at h
  · cases h
  obtain ⟨hf, hb, -⟩ := Pmm.foldl_free m.usableEntries (m.allUsed garbage) (allUsed_balanced m garbage)
  obtain ⟨hf', -, -⟩ := Pmm.foldl_used m.reserved _ hb
  obtain rfl := Except.ok.inj h
  exact hf'.totalPages.trans hf.totalPages

/-! ## One call -/

structure Ledger where
  pmm : Pmm
  out : Nat → Nat

inductive PmmOp where
  | alloc
  | ref (addr : Nat)
  | unref (addr : Nat)
  | free (addr : Nat)

def Ledger.gain (out : Nat → Nat) (p : Nat) : Nat → Nat := Function.update out p (out p + 1)

def Ledger.drop (out : Nat → Nat) (p : Nat) : Nat → Nat := Function.update out p (out p - 1)

def ledgerStep (g : Ledger) : PmmOp → Except PmmPanic Ledger
  | .alloc =>
    .ok ⟨g.pmm.pmmAllocPage.1, if g.pmm.pmmAllocPage.2 = 0 then g.out
      else Ledger.gain g.out (g.pmm.pmmAllocPage.2 / PAGE_SIZE)⟩
  | .ref addr => (g.pmm.pmmRefPage addr).map fun s => ⟨s, Ledger.gain g.out (addr / PAGE_SIZE)⟩
  | .unref addr => (g.pmm.pmmUnrefPage addr).map fun s => ⟨s, Ledger.drop g.out (addr / PAGE_SIZE)⟩
  | .free addr => (g.pmm.pmmFreePage addr).map fun s => ⟨s, Ledger.drop g.out (addr / PAGE_SIZE)⟩

def pmmStep (e : Except PmmPanic Ledger) (op : PmmOp) : Except PmmPanic Ledger := e.bind fun g => ledgerStep g op

/-- A reference is dropped only by one who holds it, and no page collects 65535 of them. -/
def Drops (g : Ledger) : PmmOp → Prop
  | .alloc => True
  | .ref addr => g.out (addr / PAGE_SIZE) + 1 < 65535
  | .unref addr | .free addr => 0 < g.out (addr / PAGE_SIZE)

def Shares (usable : Nat → Prop) (g : Ledger) : PmmOp → Prop
  | .ref addr => usable (addr / PAGE_SIZE) → 0 < g.out (addr / PAGE_SIZE)
  | _ => True

section
variable {usable : Nat → Prop} {s : Pmm} {out : Nat → Nat}

theorem Accounts.ofRover (h : Accounts usable s out) (rover : Nat) : Accounts usable { s with lastFreeIdx := rover } out :=
  ⟨h.page, h.zero, ⟨h.balanced.used, h.balanced.fits⟩⟩

theorem Accounts.take (h : Accounts usable s out) {p : Nat} (hp : p < s.totalPages) (hc : s.bits p = false) :
    Accounts usable (s.takePage p) (Ledger.gain out p) := by
  obtain ⟨hu, h0⟩ := (h.page p hp).clear_iff.1 hc
  have hb := h.balanced.set hp hc
  refine h.change p rfl (fun q hq => ?_) (fun _ => ?_) ⟨hb.used, hb.fits⟩
  · simp [Pmm.takePage, Pmm.bitmapSet, Pmm.setRefCount, Ledger.gain, hq]
  · have hpage : PageOk (usable p) true 1 1 := ⟨by simp, fun _ _ => rfl, fun hn => absurd hu hn⟩
    simpa [Pmm.takePage, Pmm.bitmapSet, Pmm.setRefCount, Ledger.gain, h0] using hpage

theorem Accounts.alloc (h : Accounts usable s out) : (s.pmmAllocPage.2 = 0 ∧ Accounts usable s.pmmAllocPage.1 out) ∨
    ∃ p, s.pmmAllocPage.2 = p * PAGE_SIZE ∧ 0 < p ∧ out p = 0 ∧ Accounts usable s.pmmAllocPage.1 (Ledger.gain out p) := by
  obtain ⟨p, rover, hpos, hp, hc, heq⟩ | ⟨rover, _, heq⟩ := Pmm.pmmAllocPage_spec h.pageZero
  · right
    rw [heq]
    exact ⟨p, rfl, hpos, ((h.page p hp).clear_iff.1 hc).2, (h.take hp hc).ofRover rover⟩
  · left
    rw [heq]
    exact ⟨rfl, h.ofRover rover⟩

theorem Accounts.outside (h : Accounts usable s out) {p n : Nat} (hp : s.totalPages ≤ p) :
    Accounts usable s (Function.update out p n) := by
  refine h.change p rfl (fun q hq => ?_) (fun hlt => absurd hp (by omega)) h.balanced
  simp [hq]

theorem Accounts.ref (h : Accounts usable s out) {addr : Nat} (hlt : out (addr / PAGE_SIZE) + 1 < 65535)
    (hshare : usable (addr / PAGE_SIZE) → 0 < out (addr / PAGE_SIZE)) :
    ∃ s', s.pmmRefPage addr = .ok s' ∧ Accounts usable s' (Ledger.gain out (addr / PAGE_SIZE)) := by
  generalize hp : addr / PAGE_SIZE = p at hlt hshare ⊢
  unfold Pmm.pmmRefPage
  rw [hp]
  dsimp only
  split
  · rename_i hge
    exact ⟨s, rfl, h.outside hge⟩
  rename_i hnot
  have hpt : p < s.totalPages := by omega
  have hpage := h.page p hpt
  have hcount : s.refCounts p < 65535 := by
    by_cases hu : usable p
    · rw [hpage.count_usable hu (hshare hu)]
      omega
    · rw [hpage.count_reserved hu]
      omega
  rw [if_pos hcount]
  refine ⟨_, rfl, h.change p rfl (fun q hq => ?_) (fun _ => ?_) ⟨h.balanced.used, h.balanced.fits⟩⟩
  · simp [Pmm.setRefCount, Ledger.gain, hq]
  · have hnew : PageOk (usable p) (s.bits p) (s.refCounts p + 1) (out p + 1) := by
      refine ⟨⟨fun hc => ?_, fun hu => absurd hu.2 (by omega)⟩, fun hu _ => ?_, fun hu => ?_⟩
      · obtain ⟨hu, h0⟩ := hpage.clear_iff.1 hc
        exact absurd (hshare hu) (by omega)
      · rw [hpage.count_usable hu (hshare hu)]
      · rw [hpage.count_reserved hu]
    simpa [Pmm.setRefCount, Ledger.gain] using hnew

theorem Accounts.free (h : Accounts usable s out) {addr : Nat} (hpos : 0 < out (addr / PAGE_SIZE)) :
    ∃ s', s.pmmFreePage addr = .ok s' ∧ Accounts usable s' (Ledger.drop out (addr / PAGE_SIZE)) := by
  generalize hp : addr / PAGE_SIZE = p at hpos ⊢
  unfold Pmm.pmmFreePage
  rw [hp]
  dsimp only
  split
  · rename_i hge
    exact ⟨s, rfl, h.outside hge⟩
  rename_i hnot
  have hpt : p < s.totalPages := by omega
  have hpage := h.page p hpt
  have hset : s.bits p = true := by
    cases hb : s.bits p with
    | true => rfl
    | false => exact absurd (hpage.clear_iff.1 hb).2 (by omega)
  have hcount : s.refCounts p = out p ∧ usable p ∨ s.refCounts p = out p + 1 ∧ ¬ usable p := by
    by_cases hu : usable p
    · exact .inl ⟨hpage.count_usable hu hpos, hu⟩
    · exact .inr ⟨hpage.count_reserved hu, hu⟩
  rw [if_neg (by omega)]
  have hget : (s.setRefCount p (s.refCounts p - 1)).refCounts p = s.refCounts p - 1 := by simp [Pmm.setRefCount]
  rw [hget, show (s.setRefCount p (s.refCounts p - 1)).bits p = true from hset]
  split
  · -- others still hold the page, or `pmm_init` does
    refine ⟨_, rfl, h.change p rfl (fun q hq => ?_) (fun _ => ?_) ⟨h.balanced.used, h.balanced.fits⟩⟩
    · simp [Pmm.setRefCount, Ledger.drop, hq]
    · have hnew : PageOk (usable p) true (s.refCounts p - 1) (out p - 1) := by
        refine ⟨⟨fun hc => absurd hc (by decide), fun hu => ?_⟩, fun hu _ => ?_, fun hu => ?_⟩
        · rcases hcount with hc | hc
          · omega
          · exact absurd hu.1 hc.2
        · rcases hcount with hc | hc
          · omega
          · exact absurd hu hc.2
        · rcases hcount with hc | hc
          · exact absurd hc.2 hu
          · omega
      simpa [Pmm.setRefCount, Ledger.drop, hset] using hnew
  · rename_i hzero
    rw [if_neg (by decide)]
    have hlast : out p = 1 ∧ usable p := by
      rcases hcount with hc | hc
      · exact ⟨by omega, hc.2⟩
      · omega
    have hb := Pmm.Balanced.unset (s := s.setRefCount p (s.refCounts p - 1))
      ⟨h.balanced.used, h.balanced.fits⟩ hpt hset
    refine ⟨_, rfl, h.change p rfl (fun q hq => ?_) (fun _ => ?_) hb⟩
    · simp [Pmm.setRefCount, Pmm.bitmapUnset, Ledger.drop, hq]
    · have hnew : ∀ c, PageOk (usable p) false c 0 := fun c =>
        ⟨by simp [hlast.2], fun _ h0 => absurd h0 (Nat.lt_irrefl 0), fun hu => absurd hlast.2 hu⟩
      simpa [Pmm.setRefCount, Pmm.bitmapUnset, Ledger.drop, hlast.1] using hnew _

end

/-! ## Runs -/

/-- What the accounts promise of one state: the next page handed out is nobody's, a bit is clear exactly for a usable
page nobody holds, an allocated page is counted as often as it is held, and the free memory is that of the clear
bits. -/
structure Accounted (usable : Nat → Prop) (g : Ledger) : Prop where
  fresh : g.pmm.pmmAllocPage.2 ≠ 0 → g.out (g.pmm.pmmAllocPage.2 / PAGE_SIZE) = 0
  clear_iff : ∀ p < g.pmm.totalPages, (g.pmm.bits p = false ↔ usable p ∧ g.out p = 0)
  count : ∀ p < g.pmm.totalPages, usable p → 0 < g.out p → g.pmm.refCounts p = g.out p
  freeRam : g.pmm.pmmGetFreeRam = PAGE_SIZE * g.pmm.clearPages

theorem Accounts.accounted {g : Ledger} (h : Accounts usable g.pmm g.out) : Accounted usable g := by
  refine ⟨fun hne => ?_, fun p hp => (h.page p hp).clear_iff, fun p hp => (h.page p hp).count_usable, h.balanced.getFreeRam⟩
  obtain ⟨h0, _⟩ | ⟨p, heq, _, hout, _⟩ := h.alloc
  · exact absurd h0 hne
  · rw [heq, Nat.mul_div_cancel p (by decide)]
    exact hout

theorem ledgerStep_accounts {g : Ledger} (h : Accounts usable g.pmm g.out) {op : PmmOp} (hd : Drops g op)
    (hs : Shares usable g op) :
    ∃ g', ledgerStep g op = .ok g' ∧ Accounts usable g'.pmm g'.out := by
  cases op with
  | alloc =>
    refine ⟨_, rfl, ?_⟩
    obtain ⟨h0, hacc⟩ | ⟨p, heq, hpos, _, hacc⟩ := h.alloc
    · dsimp only
      rw [if_pos h0]
      exact hacc
    · have hne : g.pmm.pmmAllocPage.2 ≠ 0 := by
        rw [heq]
        exact Nat.mul_ne_zero (by omega) (by decide)
      dsimp only
      rw [if_neg hne, heq, Nat.mul_div_cancel p (by decide)]
      exact hacc
  | ref addr =>
    obtain ⟨s', heq, hacc⟩ := h.ref hd hs
    exact ⟨⟨s', _⟩, by rw [ledgerStep, heq]; rfl, hacc⟩
  | unref addr =>
    obtain ⟨s', heq, hacc⟩ := h.free hd
    exact ⟨⟨s', _⟩, by rw [ledgerStep, Pmm.pmmUnrefPage, heq]; rfl, hacc⟩
  | free addr =>
    obtain ⟨s', heq, hacc⟩ := h.free hd
    exact ⟨⟨s', _⟩, by rw [ledgerStep, heq]; rfl, hacc⟩

def atLedger (C : Ledger → PmmOp → Prop) (e : Except PmmPanic Ledger) (op : PmmOp) : Prop := ∀ g, e = .ok g → C g op

/-- **Physical page accounting.**  After `pmm_init`, in a run whose calls drop only references that are held, add
references only to pages that have one or are not usable, and let no page collect 65535 of them, no assertion fails
and every state is accounted for. -/
theorem pmm_run_accounted (m : BootMap) (garbage : Nat → Bool) (s : Pmm) (hinit : m.pmmInit garbage = .ok s)
    (ops : List PmmOp)
    (hrun : Run.Guarded pmmStep (atLedger fun g op => Drops g op ∧ Shares m.Usable g op) (.ok ⟨s, fun _ => 0⟩) ops) :
    ∀ e ∈ Run.states pmmStep (.ok ⟨s, fun _ => 0⟩) ops, ∃ g, e = .ok g ∧ Accounted m.Usable g := by
  intro e he
  have hinv := Run.states_forall (P := fun e => ∃ g, e = .ok g ∧ Accounts m.Usable g.pmm g.out)
    (fun e op hP hC => ?_) ops _ ⟨⟨s, fun _ => 0⟩, rfl, pmmInit_accounts hinit⟩ hrun e he
  · obtain ⟨g, rfl, hacc⟩ := hinv
    exact ⟨g, rfl, hacc.accounted⟩
  · obtain ⟨g, rfl, hacc⟩ := hP
    obtain ⟨hd, hs⟩ := hC g rfl
    exact ledgerStep_accounts hacc hd hs

def tinyMap : BootMap := ⟨[⟨0x100000, 0x2000, E820_USABLE⟩], 0x100000, 0x101000⟩

theorem Pmm.pmmRefPage_bits {s' : Pmm} {addr : Nat} (h : s.pmmRefPage addr = .ok s') :
    s'.bits = s.bits ∧ s'.totalPages = s.totalPages := by
  unfold Pmm.pmmRefPage at h
  dsimp only at h
  split at h
  · cases h
    exact ⟨rfl, rfl⟩
  split at h
  · cases h
    exact ⟨rfl, rfl⟩
  · cases h

/-- The small machine's only page is given out, shared, and given back twice. -/
def tinyOps : List PmmOp := [.alloc, .ref 0x101000, .unref 0x101000, .free 0x101000]

theorem pmm_run_accounted_tiny :
    ∃ s, tinyMap.pmmInit (fun _ => true) = .ok s ∧
      ∀ e ∈ Run.states pmmStep (.ok ⟨s, fun _ => 0⟩) tinyOps, ∃ g, e = .ok g ∧ Accounted tinyMap.Usable g := by
  obtain ⟨s, hinit⟩ : ∃ s, tinyMap.pmmInit (fun _ => true) = .ok s := ⟨_, rfl⟩
  have hout (n v : Nat) (hv : ((tinyMap.pmmInit fun _ => true).toOption.bind fun s =>
      ((tinyOps.take n).foldl pmmStep (.ok ⟨s, fun _ => 0⟩)).toOption.map fun g => g.out 257) = some v) (g : Ledger)
      (hg : (tinyOps.take n).foldl pmmStep (.ok ⟨s, fun _ => 0⟩) = .ok g) : g.out 257 = v := by
    rw [hinit, Except.toOption, Option.bind_some, hg] at hv
    exact Option.some.inj hv
  refine ⟨s, hinit, pmm_run_accounted tinyMap (fun _ => true) s hinit tinyOps
    ⟨fun _ _ => ⟨trivial, trivial⟩, fun g hg => ?_, fun g hg => ?_, fun g hg => ?_, trivial⟩⟩
  · have hone : g.out (0x101000 / PAGE_SIZE) = 1 := hout 1 1 (by decide +kernel) g hg
    exact ⟨by rw [Drops, hone]; decide, fun _ => by rw [hone]; decide⟩
  · have htwo : g.out (0x101000 / PAGE_SIZE) = 2 := hout 2 2 (by decide +kernel) g hg
    exact ⟨by rw [Drops, htwo]; decide, trivial⟩
  · have hone : g.out (0x101000 / PAGE_SIZE) = 1 := hout 3 1 (by decide +kernel) g hg
    exact ⟨by rw [Drops, hone]; decide, trivial⟩

/-- A reference taken on the free page 257 leaves its bit clear: the next allocation may hand it out. -/
theorem ref_of_free_page_not_accounted :
    ¬ ∀ (m : BootMap) (garbage : Nat → Bool) (s : Pmm), m.pmmInit garbage = .ok s → ∀ ops : List PmmOp,
      Run.Guarded pmmStep (atLedger Drops) (.ok ⟨s, fun _ => 0⟩) ops →
      ∀ e ∈ Run.states pmmStep (.ok ⟨s, fun _ => 0⟩) ops, ∃ g, e = .ok g ∧ Accounted m.Usable g := by
  intro h
  obtain ⟨s, hinit⟩ : ∃ s, tinyMap.pmmInit (fun _ => true) = .ok s := ⟨_, rfl⟩
  have hacc := pmmInit_accounts hinit
  have hguard : Run.Guarded pmmStep (atLedger Drops) (.ok ⟨s, fun _ => 0⟩) [.ref 0x101000] := by
    refine ⟨fun g hg => ?_, trivial⟩
    obtain rfl := Except.ok.inj hg
    exact (by decide : (0 : Nat) + 1 < 65535)
  obtain ⟨g, hg, hok⟩ := h tinyMap _ s hinit [.ref 0x101000] hguard _ (Run.foldl_mem_states [PmmOp.ref 0x101000] _)
  have htotal : s.totalPages = tinyMap.totalPages := pmmInit_totalPages hinit
  cases hr : s.pmmRefPage 0x101000 with
  | error e =>
    simp [pmmStep, ledgerStep, Except.bind, hr, Except.map] at hg
  | ok s' =>
    simp only [List.foldl_cons, List.foldl_nil, pmmStep, ledgerStep, Except.bind, hr, Except.map, Except.ok.injEq] at hg
    subst hg
    obtain ⟨hb, ht⟩ := Pmm.pmmRefPage_bits hr
    have hp : 257 < s.totalPages := by
      rw [htotal]
      decide
    have hclear : s.bits 257 = false := (hacc.page 257 hp).clear_iff.2 ⟨by decide, rfl⟩
    have hout := ((hok.clear_iff 257 (ht ▸ hp)).1 (hb ▸ hclear)).2
    have hone : Ledger.gain (fun _ => 0) (0x101000 / PAGE_SIZE) 257 = 1 := by decide
    exact absurd (hone.symm.trans hout) (by decide)

end EterOS.Mm
