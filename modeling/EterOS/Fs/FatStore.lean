import EterOS.Fs.Fat
import Mathlib.Data.Set.Insert
import Mathlib.Data.Finset.Card
import Mathlib.Order.Interval.Finset.Nat
/-!
# FatStore — the FAT and the data area as stores

On a volume with 512-byte sectors (`Geometry`) the FAT is a function from clusters to what they link to and the data
area a function from sectors to bytes, and each call of the driver changes a few places of the two (`Frame`).
-/
namespace EterOS.Fs

open Finset
open Function (update_self update_of_ne)

/-- The geometry of a volume whose clusters are the numbers from 2 to below `limit`: sectors of 512 bytes, a power of two
of them in a cluster, 28-bit cluster numbers, and the FAT before the data area. -/
structure Geometry (v : FatVolume) (limit : Nat) : Prop where
  bps : v.bytesPerSector = 512
  spc : v.sectorsPerCluster.toNat ∣ 128
  entries : v.fatSize.toNat * 128 ≤ 2 ^ 28
  fat : v.fatStartLba.toNat + v.fatSize.toNat ≤ v.dataStartLba.toNat
  inFat : limit ≤ v.fatSize.toNat * 128
  marks : limit ≤ 0x0FFFFFF7
  data : v.dataStartLba.toNat + (limit - 2) * v.sectorsPerCluster.toNat ≤ 2 ^ 32

def InVol (limit : Nat) (c : UInt32) : Prop := 2 ≤ c.toNat ∧ c.toNat < limit

def dataSector (s : Fat) (c : UInt32) (i : Nat) : UInt32 := fat32ClusterToLba s c + UInt32.ofNat i

def sectorsOf (s : Fat) (c : UInt32) : Set UInt32 := { x | ∃ i < s.spc.toNat, x = dataSector s c i }

variable {s s' s'' : Fat} {limit k n i j : Nat} {c d x v : UInt32} {b : Buffer}

namespace Geometry

theorem spc_pos (h : Geometry s.vol limit) : 0 < s.spc.toNat := Nat.pos_of_dvd_of_pos h.spc (by decide)

theorem spc_le (h : Geometry s.vol limit) : s.spc.toNat ≤ 128 := Nat.le_of_dvd (by decide) h.spc

theorem bps_eq (h : Geometry s.vol limit) : s.bps = 512 := by
  rw [Fat.bps, h.bps]
  rfl

theorem fatEntries_eq (h : Geometry s.vol limit) : s.fatEntries = s.vol.fatSize.toNat * 128 := by
  rw [Fat.fatEntries, h.bps_eq]
  rfl

theorem limit_le (h : Geometry s.vol limit) : limit ≤ s.fatEntries := h.fatEntries_eq ▸ h.inFat

theorem fatSector_toNat (h : Geometry s.vol limit) (hc : c.toNat < s.fatEntries) :
    (fatSector s c).toNat = s.vol.fatStartLba.toNat + c.toNat / 128 := by
  have he := h.entries
  have hf := h.fat
  have hd := s.vol.dataStartLba.toNat_lt
  rw [h.fatEntries_eq] at hc
  rw [fatSector, h.bps_eq, UInt32.toNat_add, UInt32.toNat_div, UInt32.toNat_mul]
  simp only [UInt32.reduceToNat]
  omega

theorem fatOffset_eq (h : Geometry s.vol limit) : fatOffset s c = 4 * (c.toNat % 128) := by
  rw [fatOffset, h.bps_eq, UInt32.toNat_mod, UInt32.toNat_mul]
  simp only [UInt32.reduceToNat]
  omega

theorem ofNat_toNat (h : Geometry s.vol limit) (hk : k < s.fatEntries) : (UInt32.ofNat k).toNat = k := by
  have he := h.entries
  rw [h.fatEntries_eq] at hk
  exact UInt32.toNat_ofNat_of_lt' (Nat.lt_of_lt_of_le hk (he.trans (by decide)))

theorem scan_eq (h : Geometry s.vol limit) (hk : k < s.fatEntries) :
    scanSector s k = fatSector s (UInt32.ofNat k) ∧ scanOffset s k = fatOffset s (UInt32.ofNat k) := by
  have hn := h.ofNat_toNat hk
  have hlt : (UInt32.ofNat k).toNat < s.fatEntries := hn.symm ▸ hk
  have he := h.entries
  have hf := h.fat
  have hd := s.vol.dataStartLba.toNat_lt
  refine ⟨?_, ?_⟩
  · rw [← UInt32.toNat_inj, h.fatSector_toNat hlt, hn, scanSector, h.bps_eq, UInt32.toNat_add, UInt32.toNat_ofNat']
    rw [h.fatEntries_eq] at hk
    have hfour : ((512 : UInt32) / 4).toNat = 128 := rfl
    rw [hfour]
    omega
  · rw [h.fatOffset_eq, hn, scanOffset, h.bps_eq]
    rfl

theorem fatSector_lt (h : Geometry s.vol limit) (hc : c.toNat < s.fatEntries) :
    (fatSector s c).toNat < s.vol.dataStartLba.toNat := by
  have hf := h.fat
  rw [h.fatSector_toNat hc]
  rw [h.fatEntries_eq] at hc
  omega

theorem dataSector_toNat (h : Geometry s.vol limit) (hc : InVol limit c) (hi : i < s.spc.toNat) :
    (dataSector s c i).toNat = s.vol.dataStartLba.toNat + ((c.toNat - 2) * s.spc.toNat + i) := by
  have hd : s.vol.dataStartLba.toNat + (limit - 2) * s.spc.toNat ≤ 2 ^ 32 := h.data
  have hle := h.spc_le
  have hprod : (c.toNat - 2 + 1) * s.spc.toNat ≤ (limit - 2) * s.spc.toNat :=
    Nat.mul_le_mul_right _ (by have := hc.1; have := hc.2; omega)
  rw [Nat.succ_mul] at hprod
  have hsub : (c - 2).toNat = c.toNat - 2 := UInt32.toNat_sub_of_le c 2 (UInt32.le_iff_toNat_le.2 hc.1)
  rw [dataSector, fat32ClusterToLba, UInt32.toNat_add, UInt32.toNat_add, UInt32.toNat_mul, hsub, UInt32.toNat_ofNat']
  generalize (c.toNat - 2) * s.spc.toNat = m at hprod ⊢
  generalize (limit - 2) * s.spc.toNat = m' at hprod hd
  omega

theorem dataSector_ge (h : Geometry s.vol limit) (hc : InVol limit c) (hi : i < s.spc.toNat) :
    s.vol.dataStartLba.toNat ≤ (dataSector s c i).toNat := by
  rw [h.dataSector_toNat hc hi]
  omega

theorem dataSector_inj (h : Geometry s.vol limit) (hc : InVol limit c) (hd : InVol limit d) (hi : i < s.spc.toNat)
    (hj : j < s.spc.toNat) (heq : dataSector s c i = dataSector s d j) : c = d ∧ i = j := by
  have heq := congrArg UInt32.toNat heq
  rw [h.dataSector_toNat hc hi, h.dataSector_toNat hd hj] at heq
  have heq : (c.toNat - 2) * s.spc.toNat + i = (d.toNat - 2) * s.spc.toNat + j := by omega
  have hij : i = j := by
    have hm := congrArg (· % s.spc.toNat) heq
    simpa [Nat.mul_add_mod_self_right, Nat.mod_eq_of_lt hi, Nat.mod_eq_of_lt hj] using hm
  have hcd : c.toNat - 2 = d.toNat - 2 := Nat.eq_of_mul_eq_mul_right h.spc_pos (by omega)
  refine ⟨UInt32.toNat_inj.1 ?_, hij⟩
  have := hc.1
  have := hd.1
  omega

theorem notMem_sectorsOf (h : Geometry s.vol limit) (hc : InVol limit c) (hd : InVol limit d) (hne : c ≠ d)
    (hi : i < s.spc.toNat) : dataSector s c i ∉ sectorsOf s d := by
  rintro ⟨j, hj, heq⟩
  exact hne (h.dataSector_inj hc hd hi hj heq).1

theorem ge_of_mem_sectorsOf (h : Geometry s.vol limit) (hc : InVol limit c) (hx : x ∈ sectorsOf s c) :
    s.vol.dataStartLba.toNat ≤ x.toNat := by
  obtain ⟨i, hi, rfl⟩ := hx
  exact h.dataSector_ge hc hi

end Geometry

theorem InVol.lt_entries (h : InVol limit c) (hg : Geometry s.vol limit) : c.toNat < s.fatEntries :=
  Nat.lt_of_lt_of_le h.2 hg.limit_le

theorem InVol.lt_eoc (h : InVol limit c) (hg : Geometry s.vol limit) : ¬ fat32Eoc ≤ c := by
  have := hg.marks
  have := h.2
  rw [UInt32.le_iff_toNat_le]
  simp only [fat32Eoc, UInt32.reduceToNat]
  omega

/-! ## What a change leaves -/

/-- The FAT is as before but for the entries of `K`, the data area but for the sectors of `D`. -/
structure Frame (s s' : Fat) (K D : Set UInt32) : Prop where
  vol : s'.vol = s.vol
  fat : ∀ c, c.toNat < s.fatEntries → c ∉ K → fat32GetNextCluster s' c = fat32GetNextCluster s c
  data : ∀ x : UInt32, s.vol.dataStartLba.toNat ≤ x.toNat → x ∉ D → s'.disk x = s.disk x

namespace Frame

variable {K K' D D' : Set UInt32}

theorem refl (s : Fat) : Frame s s ∅ ∅ := ⟨rfl, fun _ _ _ => rfl, fun _ _ _ => rfl⟩

theorem fatEntries (h : Frame s s' K D) : s'.fatEntries = s.fatEntries := by
  rw [Fat.fatEntries, Fat.fatEntries, Fat.bps, Fat.bps, h.vol]

theorem spc (h : Frame s s' K D) : s'.spc = s.spc := by
  rw [Fat.spc, Fat.spc, h.vol]

theorem lba (h : Frame s s' K D) (c : UInt32) : fat32ClusterToLba s' c = fat32ClusterToLba s c := by
  rw [fat32ClusterToLba, fat32ClusterToLba, Fat.spc, Fat.spc, h.vol]

theorem dataSector (h : Frame s s' K D) (c : UInt32) (i : Nat) : dataSector s' c i = dataSector s c i := by
  rw [Fs.dataSector, Fs.dataSector, h.lba]

theorem sectorsOf (h : Frame s s' K D) (c : UInt32) : sectorsOf s' c = sectorsOf s c := by
  rw [Fs.sectorsOf, Fs.sectorsOf, h.spc]
  simp [h.dataSector]

theorem geometry (h : Frame s s' K D) (hg : Geometry s.vol limit) : Geometry s'.vol limit := h.vol ▸ hg

theorem mono (h : Frame s s' K D) (hK : K ⊆ K') (hD : D ⊆ D') : Frame s s' K' D' :=
  ⟨h.vol, fun c hc hn => h.fat c hc fun hk => hn (hK hk), fun x hx hn => h.data x hx fun hd => hn (hD hd)⟩

theorem trans (h : Frame s s' K D) (h' : Frame s' s'' K' D') : Frame s s'' (K ∪ K') (D ∪ D') where
  vol := h'.vol.trans h.vol
  fat := fun c hc hn => by
    rw [h'.fat c (h.fatEntries.symm ▸ hc) fun hk => hn (Or.inr hk), h.fat c hc fun hk => hn (Or.inl hk)]
  data := fun x hx hn => by
    rw [h'.data x (by rw [h.vol]; exact hx) fun hd => hn (Or.inr hd), h.data x hx fun hd => hn (Or.inl hd)]

end Frame

theorem frame_writeSector (h : Geometry s.vol limit) (hx : s.vol.dataStartLba.toNat ≤ x.toNat) :
    Frame s (s.writeSector x b) ∅ {x} where
  vol := rfl
  fat := fun c hc _ => by
    have hne : fatSector s c ≠ x := by
      rintro rfl
      have := h.fatSector_lt hc
      omega
    have hsec : fatSector (s.writeSector x b) c = fatSector s c := rfl
    rw [fat32GetNextCluster, fat32GetNextCluster, hsec]
    have hd : (s.writeSector x b).disk (fatSector s c) = s.disk (fatSector s c) := update_of_ne hne ..
    rw [hd]
    rfl
  data := fun y _ hn => update_of_ne hn ..

theorem fatSet_spec (h : Geometry s.vol limit) (hc : c.toNat < s.fatEntries) (v : UInt32) :
    Frame s (fat32FatSet s c v) {c} ∅ ∧ fat32GetNextCluster (fat32FatSet s c v) c = v &&& 0x0FFFFFFF := by
  refine ⟨⟨rfl, fun d hd hn => ?_, fun x hx _ => update_of_ne ?_ ..⟩, ?_⟩
  · have hne : d.toNat ≠ c.toNat := fun heq => hn (UInt32.toNat_inj.1 heq)
    have hsec : fatSector (fat32FatSet s c v) d = fatSector s d := rfl
    have hoff : fatOffset (fat32FatSet s c v) d = fatOffset s d := rfl
    rw [fat32GetNextCluster, fat32GetNextCluster, hsec, hoff]
    by_cases heq : fatSector s d = fatSector s c
    · -- another entry of the same sector
      have hdisk : (fat32FatSet s c v).disk (fatSector s d) = (s.disk (fatSector s c)).put32 (fatOffset s c) v := by
        rw [heq]
        exact update_self ..
      have hs := congrArg UInt32.toNat heq
      rw [h.fatSector_toNat hc, h.fatSector_toNat hd] at hs
      rw [hdisk, Buffer.get32_put32_of_disjoint, heq]
      rw [h.fatOffset_eq, h.fatOffset_eq]
      omega
    · have hdisk : (fat32FatSet s c v).disk (fatSector s d) = s.disk (fatSector s d) := update_of_ne heq ..
      rw [hdisk]
  · rintro rfl
    have := h.fatSector_lt hc
    omega
  · have hdisk : (fat32FatSet s c v).disk (fatSector s c) = (s.disk (fatSector s c)).put32 (fatOffset s c) v :=
      update_self ..
    have hsec : fatSector (fat32FatSet s c v) c = fatSector s c := rfl
    have hoff : fatOffset (fat32FatSet s c v) c = fatOffset s c := rfl
    rw [fat32GetNextCluster, hsec, hoff, hdisk, Buffer.get32_put32]

/-! ## The allocator -/

theorem zeroSectors_spec (h : Geometry s.vol limit) (hc : InVol limit c) (hn : n ≤ s.spc.toNat) :
    Frame s (zeroSectors s (fat32ClusterToLba s c) n) ∅ (sectorsOf s c) ∧
      ∀ i < n, (zeroSectors s (fat32ClusterToLba s c) n).disk (dataSector s c i) = fun _ => 0 := by
  induction n with
  | zero => exact ⟨(Frame.refl s).mono (Set.empty_subset _) (Set.empty_subset _), fun i hi => absurd hi (by omega)⟩
  | succ n ih =>
    obtain ⟨hf, hz⟩ := ih (by omega)
    have hge : s.vol.dataStartLba.toNat ≤ (dataSector s c n).toNat := h.dataSector_ge hc (by omega)
    have hw : Frame (zeroSectors s (fat32ClusterToLba s c) n) _ ∅ {dataSector s c n} :=
      frame_writeSector (hf.geometry h) (b := fun _ => 0) (by rw [hf.vol]; exact hge)
    refine ⟨(hf.trans hw).mono (by simp) ?_, fun i hi => ?_⟩
    · rintro x (hx | rfl)
      · exact hx
      · exact ⟨n, by omega, rfl⟩
    · rcases Nat.lt_succ_iff_lt_or_eq.1 hi with hi | rfl
      · have hne : dataSector s c i ≠ dataSector s c n := fun heq => by
          have := (h.dataSector_inj hc hc (by omega) (by omega) heq).2
          omega
        exact (update_of_ne hne ..).trans (hz i hi)
      · exact update_self ..

theorem scanFree_iff (h : Geometry s.vol limit) (hk : k < s.fatEntries) :
    scanFree s k = true ↔ 2 ≤ k ∧ fat32GetNextCluster s (UInt32.ofNat k) = 0 := by
  have hn := h.ofNat_toNat hk
  obtain ⟨hsec, hoff⟩ := h.scan_eq hk
  have hle : 2 ≤ UInt32.ofNat k ↔ 2 ≤ k := by
    rw [UInt32.le_iff_toNat_le, hn]
    rfl
  rw [scanFree, hsec, hoff, Bool.and_eq_true, decide_eq_true_iff, decide_eq_true_iff, hle]
  rfl

def freeClusters (s : Fat) (limit : Nat) : Finset Nat :=
  (Finset.range limit).filter fun k => 2 ≤ k ∧ fat32GetNextCluster s (UInt32.ofNat k) = 0

structure Allocated (s s' : Fat) (limit : Nat) (c : UInt32) : Prop where
  two_le : 2 ≤ c.toNat
  lt : c.toNat < s.fatEntries
  free : fat32GetNextCluster s c = 0
  first : ∀ d : UInt32, 2 ≤ d.toNat → d.toNat < c.toNat → fat32GetNextCluster s d ≠ 0
  frame : InVol limit c → Frame s s' {c} (sectorsOf s c)
  marked : InVol limit c → fat32GetNextCluster s' c = fat32Eoc
  zero : InVol limit c → ∀ i < s.spc.toNat, s'.disk (dataSector s c i) = fun _ => 0

theorem alloc_some (h : Geometry s.vol limit) (ha : fat32AllocCluster s = some (s', c)) : Allocated s s' limit c := by
  rw [fat32AllocCluster] at ha
  split at ha
  · cases ha
  rename_i k hk
  obtain ⟨hfree, hmem, hfirst⟩ := List.find?_range_eq_some.1 hk
  have hlt : k < s.fatEntries := List.mem_range.1 hmem
  have hn := h.ofNat_toNat hlt
  obtain ⟨hsec, hoff⟩ := h.scan_eq hlt
  obtain ⟨htwo, hzero⟩ := (scanFree_iff h hlt).1 hfree
  rw [hsec, hoff] at ha
  obtain ⟨rfl, rfl⟩ := Prod.mk.inj (Option.some.inj ha)
  obtain ⟨hset, hmark⟩ := fatSet_spec h (c := UInt32.ofNat k) (by omega) fat32Eoc
  have hzeros := fun hin => zeroSectors_spec (s := fat32FatSet s (UInt32.ofNat k) fat32Eoc) (n := s.spc.toNat) h
    (c := UInt32.ofNat k) hin (Nat.le_refl _)
  refine ⟨by omega, by omega, hzero, fun d hd hdk => ?_, fun hin => ?_, fun hin => ?_, fun hin i hi => ?_⟩
  · have hnot : ¬ scanFree s d.toNat = true := by simpa using hfirst d.toNat (by omega)
    rw [scanFree_iff h (by omega), UInt32.ofNat_toNat] at hnot
    exact fun hz => hnot ⟨hd, hz⟩
  · refine (hset.trans (hzeros hin).1).mono (by simp) ?_
    rw [hset.sectorsOf]
    simp
  · refine ((hzeros hin).1.fat _ ?_ (by simp)).trans hmark
    rw [hset.fatEntries]
    omega
  · exact (hzeros hin).2 i hi

theorem alloc_none (h : Geometry s.vol limit) (ha : fat32AllocCluster s = none) (hc : 2 ≤ c.toNat)
    (hlt : c.toNat < s.fatEntries) : fat32GetNextCluster s c ≠ 0 := by
  rw [fat32AllocCluster] at ha
  split at ha
  · rename_i hnone
    have hnot := List.find?_eq_none.1 hnone c.toNat (List.mem_range.2 hlt)
    rw [scanFree_iff h hlt, UInt32.ofNat_toNat] at hnot
    exact fun hz => hnot ⟨hc, hz⟩
  · cases ha

/-- The allocator finds `n` clusters inside the volume before any outside. -/
def Room (s : Fat) (limit n : Nat) : Prop :=
  n ≤ (freeClusters s limit).card ∨ ∀ c : UInt32, limit ≤ c.toNat → c.toNat < s.fatEntries → fat32GetNextCluster s c ≠ 0

theorem mem_freeClusters (hin : InVol limit c) : c.toNat ∈ freeClusters s limit ↔ fat32GetNextCluster s c = 0 := by
  rw [freeClusters, mem_filter, mem_range, UInt32.ofNat_toNat]
  exact ⟨fun hm => hm.2.2, fun hz => ⟨hin.2, hin.1, hz⟩⟩

/-- Where the entries that change are used before and after, but for one that gets used, that one is no longer free. -/
theorem freeClusters_eq {K D : Set UInt32} (h : Geometry s.vol limit) (hf : Frame s s' K D)
    (hfree : ∀ d ∈ K, InVol limit d → (fat32GetNextCluster s d = 0 ↔ d = c))
    (hused : ∀ d ∈ K, InVol limit d → fat32GetNextCluster s' d ≠ 0) (hc : c ∈ K) :
    freeClusters s' limit = (freeClusters s limit).erase c.toNat := by
  ext k
  simp only [freeClusters, mem_erase, mem_filter, mem_range]
  by_cases hk : k < limit ∧ 2 ≤ k
  · obtain ⟨hlt, htwo⟩ := hk
    have hn := h.ofNat_toNat (Nat.lt_of_lt_of_le hlt h.limit_le)
    have hin : InVol limit (UInt32.ofNat k) := by
      rw [InVol, hn]
      exact ⟨htwo, hlt⟩
    have hkc : k = c.toNat ↔ UInt32.ofNat k = c := by
      rw [← UInt32.toNat_inj, hn]
    by_cases hmem : UInt32.ofNat k ∈ K
    · have := hfree _ hmem hin
      have := hused _ hmem hin
      tauto
    · have hne : ¬ UInt32.ofNat k = c := fun heq => hmem (heq ▸ hc)
      rw [hf.fat _ (hin.lt_entries h) hmem]
      tauto
  · tauto

theorem freeClusters_of_frame {D : Set UInt32} (h : Geometry s.vol limit) (hf : Frame s s' ∅ D) :
    freeClusters s' limit = freeClusters s limit := by
  apply filter_congr
  intro k hk
  have hlt : k < s.fatEntries := Nat.lt_of_lt_of_le (mem_range.1 hk) h.limit_le
  rw [hf.fat (UInt32.ofNat k) (by rw [h.ofNat_toNat hlt]; exact hlt) (by simp)]

theorem Allocated.inVol (h : Geometry s.vol limit) (ha : Allocated s s' limit c) (hr : Room s limit (n + 1)) :
    InVol limit c := by
  refine ⟨ha.two_le, ?_⟩
  by_contra hge
  rcases hr with hcard | hnone
  · obtain ⟨k, hk⟩ := card_pos.1 (Nat.lt_of_lt_of_le (Nat.succ_pos n) hcard)
    rw [freeClusters, mem_filter, mem_range] at hk
    have hn := h.ofNat_toNat (Nat.lt_of_lt_of_le hk.1 h.limit_le)
    exact ha.first (UInt32.ofNat k) (by omega) (by omega) hk.2.2
  · exact hnone c (by omega) ha.lt ha.free

structure Spent (s s' : Fat) (limit : Nat) (c : UInt32) : Prop where
  free : freeClusters s' limit = (freeClusters s limit).erase c.toNat
  outside : ∀ d : UInt32, limit ≤ d.toNat → d.toNat < s.fatEntries →
    fat32GetNextCluster s' d = fat32GetNextCluster s d

theorem Spent.card (hs : Spent s s' limit c) (hin : InVol limit c)
    (hfree : fat32GetNextCluster s c = 0) : (freeClusters s limit).card = (freeClusters s' limit).card + 1 := by
  rw [hs.free, card_erase_add_one ((mem_freeClusters hin).2 hfree)]

theorem eoc_ne_zero {v : UInt32} (h : fat32Eoc ≤ v) : v ≠ 0 := by
  rintro rfl
  exact absurd h (by decide)

theorem InVol.ne_zero (h : InVol limit c) : c ≠ 0 := by
  rintro rfl
  exact absurd h.1 (by decide)

theorem Allocated.spent (h : Geometry s.vol limit) (ha : Allocated s s' limit c) (hin : InVol limit c) :
    Spent s s' limit c where
  free := by
    refine freeClusters_eq h (ha.frame hin) ?_ ?_ rfl
    · rintro d rfl _
      exact ⟨fun _ => rfl, fun _ => ha.free⟩
    · rintro d rfl _
      rw [ha.marked hin]
      decide
  outside := fun d hd hlt => (ha.frame hin).fat d hlt fun hdc => by
    have := hin.2
    rw [Set.mem_singleton_iff.1 hdc] at hd
    omega

/-! ## Chains -/

def FatLinked (s : Fat) (limit : Nat) (c : UInt32) (l : List UInt32) : Prop :=
  IsChain (fat32GetNextCluster s) (fat32Eoc ≤ ·) c l ∧ ∀ d ∈ l, InVol limit d

variable {l : List UInt32}

theorem FatLinked.congr {K D : Set UInt32} (h : FatLinked s limit c l) (hg : Geometry s.vol limit) (hf : Frame s s' K D)
    (hK : ∀ d ∈ l, d ∉ K) : FatLinked s' limit c l :=
  ⟨h.1.congr fun d hd => hf.fat d ((h.2 d hd).lt_entries hg) (hK d hd), h.2⟩

theorem FatLinked.length_le (h : FatLinked s limit c l) : l.length ≤ limit := by
  have hnodup : (l.map UInt32.toNat).Nodup := h.1.nodup.map fun _ _ heq => UInt32.toNat_inj.1 heq
  have hsub : (l.map UInt32.toNat).toFinset ⊆ Finset.range limit := by
    intro k hk
    obtain ⟨d, hd, rfl⟩ := List.mem_map.1 (List.mem_toFinset.1 hk)
    exact mem_range.2 (h.2 d hd).2
  have hcard := card_le_card hsub
  rwa [List.toFinset_card_of_nodup hnodup, List.length_map, card_range] at hcard

theorem FatLinked.dirClusters_eq (h : FatLinked s limit c l) (hg : Geometry s.vol limit) : s.dirClusters c = l :=
  h.1.walk_eq (h.length_le.trans hg.limit_le)

theorem FatLinked.next_ne_zero (h : FatLinked s limit c l) (hd : d ∈ l) : fat32GetNextCluster s d ≠ 0 := by
  obtain ⟨l', hl', hs⟩ := h.1.suffix hd
  cases l' with
  | nil => exact absurd hl' (h.1.not_stop hd)
  | cons e l' =>
    obtain ⟨rfl, -, htail⟩ := hl'
    cases l' with
    | nil => exact eoc_ne_zero htail
    | cons e l' =>
      rw [htail.1]
      exact (h.2 e (hs.mem (by simp))).ne_zero

theorem seekLoop_of_lt {skip : Nat} (h : IsChain (fat32GetNextCluster s) (fat32Eoc ≤ ·) c l) (hk : skip < l.length) :
    seekLoop s skip c = l[skip] := by
  induction skip generalizing c l with
  | zero =>
    cases l with
    | nil => simp at hk
    | cons d l => exact h.1
  | succ skip ih =>
    cases l with
    | nil => simp at hk
    | cons d l =>
      rw [seekLoop, if_neg h.2.1, ih h.2.2 (by simpa using hk)]
      rfl

theorem seekLoop_of_ge {skip : Nat} (h : IsChain (fat32GetNextCluster s) (fat32Eoc ≤ ·) c l) (hk : l.length ≤ skip) :
    fat32Eoc ≤ seekLoop s skip c := by
  induction skip generalizing c l with
  | zero =>
    cases l with
    | nil => exact h
    | cons d l => simp at hk
  | succ skip ih =>
    rw [seekLoop]
    split
    · exact UInt32.le_refl _
    · rename_i hc
      cases l with
      | nil => exact absurd h hc
      | cons d l => exact ih h.2.2 (by simpa using hk)

theorem lastCluster_eq {turns : Nat} (h : IsChain (fat32GetNextCluster s) (fat32Eoc ≤ ·) c (l ++ [d]))
    (hk : l.length ≤ turns) : lastCluster s turns c = d := by
  induction l generalizing c turns with
  | nil =>
    obtain ⟨rfl, -, hend⟩ := h
    cases turns with
    | zero => rfl
    | succ turns => exact if_pos hend
  | cons e l ih =>
    obtain ⟨rfl, -, htail⟩ := h
    cases turns with
    | zero => simp at hk
    | succ turns =>
      have hne : ¬ fat32Eoc ≤ fat32GetNextCluster s c := by
        cases l with
        | nil => exact htail.2.1
        | cons e l => exact htail.2.1
      rw [lastCluster]
      exact (if_neg hne).trans (ih htail (by simpa using hk))

structure Extended (s s' : Fat) (limit : Nat) (b c : UInt32) : Prop where
  inVol : InVol limit c
  fresh : fat32GetNextCluster s c = 0
  frame : Frame s s' {b, c} (sectorsOf s c)
  link : fat32GetNextCluster s' b = c
  marked : fat32GetNextCluster s' c = fat32Eoc
  zero : ∀ i < s.spc.toNat, s'.disk (dataSector s c i) = fun _ => 0
  spent : Spent s s' limit c

theorem InVol.mask (h : InVol limit c) (hg : Geometry s.vol limit) : c &&& 0x0FFFFFFF = c := by
  have := hg.marks
  have := h.2
  rw [← UInt32.toNat_inj, UInt32.toNat_and]
  have hmask : (0x0FFFFFFF : UInt32).toNat = 2 ^ 28 - 1 := rfl
  rw [hmask, Nat.and_two_pow_sub_one_eq_mod, Nat.mod_eq_of_lt (by omega)]

theorem extend_spec (hg : Geometry s.vol limit) (ha : Allocated s s' limit c) (hin : InVol limit c)
    (hb : InVol limit d) (hused : fat32GetNextCluster s d ≠ 0) : Extended s (fat32FatSet s' d c) limit d c := by
  have hf := ha.frame hin
  obtain ⟨hset, hlink⟩ := fatSet_spec (hf.geometry hg) (hb.lt_entries (hf.geometry hg)) c
  have hne : c ≠ d := fun heq => hused (heq ▸ ha.free)
  have hframe : Frame s (fat32FatSet s' d c) {d, c} (sectorsOf s c) := by
    refine (hf.trans hset).mono ?_ (by simp)
    rintro e (rfl | rfl)
    · exact Or.inr rfl
    · exact Or.inl rfl
  have hlink : fat32GetNextCluster (fat32FatSet s' d c) d = c := hlink.trans (hin.mask hg)
  have hmark : fat32GetNextCluster (fat32FatSet s' d c) c = fat32Eoc :=
    (hset.fat c (hin.lt_entries (hf.geometry hg)) fun hc => hne (Set.mem_singleton_iff.1 hc)).trans (ha.marked hin)
  refine ⟨hin, ha.free, hframe, hlink, hmark, fun i hi => ?_, ⟨?_, fun e he hlt => ?_⟩⟩
  · rw [hset.data _ _ (by simp)]
    · exact ha.zero hin i hi
    · rw [hf.vol]
      exact hg.dataSector_ge hin hi
  · refine freeClusters_eq hg hframe ?_ ?_ (Or.inr rfl)
    · rintro e (rfl | rfl) _
      · exact ⟨fun hz => absurd hz hused, fun heq => absurd heq.symm hne⟩
      · exact ⟨fun _ => rfl, fun _ => ha.free⟩
    · rintro e (rfl | rfl) _
      · rw [hlink]
        exact hin.ne_zero
      · rw [hmark]
        decide
  · refine hframe.fat e hlt ?_
    rintro (rfl | rfl)
    · have := hb.2
      omega
    · have := hin.2
      omega

theorem FatLinked.extend {e : UInt32} (h : FatLinked s limit e (l ++ [d])) (hg : Geometry s.vol limit)
    (hx : Extended s s' limit d c) : FatLinked s' limit e (l ++ [d] ++ [c]) := by
  have hnotMem : d ∉ l := by
    have := h.1.nodup
    rw [List.nodup_append] at this
    exact fun hd => this.2.2 d hd d (by simp) rfl
  refine ⟨h.1.append hx.link (hx.inVol.lt_eoc hg) ?_ fun f hf => ?_, fun f hf => ?_⟩
  · rw [hx.marked]
    exact UInt32.le_refl _
  · refine hx.frame.fat f ((h.2 f (by simp [hf])).lt_entries hg) ?_
    rintro (rfl | rfl)
    · exact hnotMem hf
    · exact h.next_ne_zero (by simp [hf]) hx.fresh
  · rcases List.mem_append.1 hf with hf | hf
    · exact h.2 f hf
    · rw [List.mem_singleton.1 hf]
      exact hx.inVol

end EterOS.Fs
