import EterOS.Fs.FatWrite
import EterOS.Lib.Scan
/-!
# FatDir — a directory as a list of entries

The entries of a directory have their places in the sectors of its clusters, and no two places overlap: an entry is written
without a change to any other (`entry_updateDirent`).  A search is a `Scan` of the places, and a free place is found or made
(`Opened`) without a change to an entry of any directory.
-/
namespace EterOS.Fs

open List
open Function (update_self update_of_ne)

variable {s s' s'' : Fat} {limit j k n : Nat} {c d new : UInt32} {l l' : List UInt32} {p q : DirPos} {e : Buffer}
    {name : CStr}

/-! ## Places -/

def IsSlot (s : Fat) (limit : Nat) (p : DirPos) : Prop := ∃ d, InVol limit d ∧ p ∈ s.clusterSlots d

def SameAt (s s' : Fat) (p : DirPos) : Prop := ∀ i < 32, s'.entry p i = s.entry p i

theorem SameAt.refl (s : Fat) (p : DirPos) : SameAt s s p := fun _ _ => rfl

theorem SameAt.trans (h : SameAt s s' p) (h' : SameAt s' s'' p) : SameAt s s'' p := fun i hi => (h' i hi).trans (h i hi)

theorem SameAt.freeAt (h : SameAt s s' p) : s'.freeAt p = s.freeAt p := by
  rw [Fat.freeAt, Fat.freeAt, h 0 (by decide)]

theorem SameAt.matchesAt (h : SameAt s s' p) (name : Buffer) : s'.matchesAt name p = s.matchesAt name p := by
  have hattr : Dirent.attr (s'.entry p) = Dirent.attr (s.entry p) := h 11 (by decide)
  have hname : ((List.range 11).all fun i => s'.entry p i = name i) = (List.range 11).all fun i => s.entry p i = name i := by
    rw [Bool.eq_iff_iff, all_eq_true, all_eq_true]
    refine forall_congr' fun i => forall_congr' fun hi => ?_
    rw [h i (Nat.lt_trans (mem_range.1 hi) (by decide))]
  unfold Fat.matchesAt
  dsimp only
  rw [h 0 (by decide), hattr, hname]

section Places

variable (hg : Geometry s.vol limit)
include hg

theorem mem_clusterSlots : p ∈ s.clusterSlots d ↔
    ∃ i < s.spc.toNat, ∃ j < 16, p = ⟨dataSector s d i, UInt32.ofNat (32 * j)⟩ := by
  have h16 : (s.bps / 32).toNat = 16 := by
    rw [hg.bps_eq]
    rfl
  simp only [Fat.clusterSlots, Fat.sectorSlots, mem_flatMap, mem_range, mem_map, h16]
  constructor
  · rintro ⟨i, hi, j, hj, rfl⟩
    exact ⟨i, hi, j, hj, rfl⟩
  · rintro ⟨i, hi, j, hj, rfl⟩
    exact ⟨i, hi, j, hj, rfl⟩

theorem IsSlot.at_cluster (h : IsSlot s limit p) : ∃ d, AtCluster s limit p d := by
  obtain ⟨d, hin, hmem⟩ := h
  obtain ⟨i, hi, j, hj, rfl⟩ := (mem_clusterSlots hg).1 hmem
  refine ⟨d, hin, ⟨i, hi, rfl⟩, ?_⟩
  rw [UInt32.toNat_ofNat', Nat.mod_eq_of_lt (by omega)]
  omega

theorem IsSlot.apart (h : IsSlot s limit p) (h' : IsSlot s limit q) (hne : q ≠ p) (hsec : q.sector = p.sector) :
    q.offset.toNat + 32 ≤ p.offset.toNat ∨ p.offset.toNat + 32 ≤ q.offset.toNat := by
  obtain ⟨d, -, hmem⟩ := h
  obtain ⟨d', -, hmem'⟩ := h'
  obtain ⟨i, -, j, hj, rfl⟩ := (mem_clusterSlots hg).1 hmem
  obtain ⟨i', -, j', hj', rfl⟩ := (mem_clusterSlots hg).1 hmem'
  dsimp only at hsec ⊢
  have hjne : j' ≠ j := by
    rintro rfl
    exact hne (by rw [hsec])
  rw [UInt32.toNat_ofNat', UInt32.toNat_ofNat', Nat.mod_eq_of_lt (by omega), Nat.mod_eq_of_lt (by omega)]
  omega

theorem nodup_clusterSlots (hin : InVol limit d) : (s.clusterSlots d).Nodup := by
  have h16 : (s.bps / 32).toNat = 16 := by
    rw [hg.bps_eq]
    rfl
  unfold Fat.clusterSlots
  refine nodup_flatMap.2 ⟨fun i _ => ?_, ?_⟩
  · unfold Fat.sectorSlots
    rw [h16]
    refine nodup_range.map_on ?_
    intro j hj j' hj' heq
    have hoff := congrArg (fun p => p.offset.toNat) heq
    rw [mem_range] at hj hj'
    dsimp only at hoff
    rw [UInt32.toNat_ofNat', UInt32.toNat_ofNat', Nat.mod_eq_of_lt (by omega), Nat.mod_eq_of_lt (by omega)] at hoff
    omega
  · refine nodup_range.pairwise_of_forall_ne fun i hi i' hi' hne => ?_
    rw [mem_range] at hi hi'
    rw [Function.onFun, disjoint_left]
    intro p hp hp'
    obtain ⟨j, -, rfl⟩ := mem_map.1 hp
    obtain ⟨j', -, heq⟩ := mem_map.1 hp'
    have hsec : dataSector s d i' = dataSector s d i := congrArg DirPos.sector heq
    exact hne (hg.dataSector_inj hin hin hi hi' hsec.symm).2

theorem nodup_flatMap_slots (hl : l.Nodup) (hin : ∀ d ∈ l, InVol limit d) : (l.flatMap s.clusterSlots).Nodup := by
  refine nodup_flatMap.2 ⟨fun d hd => nodup_clusterSlots hg (hin d hd), ?_⟩
  refine hl.pairwise_of_forall_ne fun d hd d' hd' hne => ?_
  rw [Function.onFun, disjoint_left]
  intro p hp hp'
  obtain ⟨i, hi, j, -, rfl⟩ := (mem_clusterSlots hg).1 hp
  obtain ⟨i', hi', j', -, heq⟩ := (mem_clusterSlots hg).1 hp'
  have hsec : dataSector s d i = dataSector s d' i' := congrArg DirPos.sector heq
  exact hne (hg.dataSector_inj (hin d hd) (hin d' hd') hi hi' hsec).1

end Places

theorem clusterSlots_congr (h : s'.vol = s.vol) (d : UInt32) : s'.clusterSlots d = s.clusterSlots d := by
  unfold Fat.clusterSlots Fat.sectorSlots fat32ClusterToLba Fat.spc Fat.bps
  rw [h]

theorem IsSlot.congr (h : IsSlot s limit p) (hvol : s'.vol = s.vol) : IsSlot s' limit p := by
  obtain ⟨d, hin, hmem⟩ := h
  exact ⟨d, hin, by rw [clusterSlots_congr hvol]; exact hmem⟩

theorem FatLinked.dirSlots_eq (h : FatLinked s limit c l) (hg : Geometry s.vol limit) :
    s.dirSlots c = l.flatMap s.clusterSlots := by
  rw [Fat.dirSlots, h.dirClusters_eq hg]

theorem FatLinked.nodup_slots (h : FatLinked s limit c l) (hg : Geometry s.vol limit) : (s.dirSlots c).Nodup := by
  rw [h.dirSlots_eq hg]
  exact nodup_flatMap_slots hg h.1.nodup h.2

theorem FatLinked.isSlot (h : FatLinked s limit c l) (hg : Geometry s.vol limit) (hp : p ∈ s.dirSlots c) :
    IsSlot s limit p := by
  rw [h.dirSlots_eq hg, mem_flatMap] at hp
  obtain ⟨d, hd, hmem⟩ := hp
  exact ⟨d, h.2 d hd, hmem⟩

theorem FatLinked.place_inj (h : FatLinked s limit c l) (hg : Geometry s.vol limit) (hj : (s.dirSlots c)[j]? = some p)
    (hk : (s.dirSlots c)[k]? = some p) : j = k := by
  obtain ⟨hjlt, hj⟩ := List.getElem?_eq_some_iff.1 hj
  obtain ⟨hklt, hk⟩ := List.getElem?_eq_some_iff.1 hk
  exact (h.nodup_slots hg).getElem_inj_iff.1 (hj.trans hk.symm)

/-! ## Writing an entry -/

theorem entry_updateDirent_self (s : Fat) (p : DirPos) (e : Buffer) {i : Nat} (hi : i < 32) :
    (s.updateDirent p e).entry p i = e i := by
  have hd : (s.updateDirent p e).disk p.sector = (s.disk p.sector).blit p.offset.toNat e 32 := update_self ..
  rw [Fat.entry, hd, Buffer.drop, Buffer.blit_of_mem (by omega) (by omega), Nat.add_sub_cancel_left]

theorem updateDirent_spec (hg : Geometry s.vol limit) (hp : IsSlot s limit p) (e : Buffer) :
    Frame s (s.updateDirent p e) ∅ {p.sector} ∧ ∀ q, IsSlot s limit q → q ≠ p → SameAt s (s.updateDirent p e) q := by
  obtain ⟨d, hat⟩ := hp.at_cluster hg
  have hframe : Frame s (s.updateDirent p e) ∅ {p.sector} :=
    frame_writeSector hg (hg.ge_of_mem_sectorsOf hat.inVol hat.sector)
  refine ⟨hframe, fun q hq hne i hi => ?_⟩
  by_cases hsec : q.sector = p.sector
  · have hdisk : (s.updateDirent p e).disk q.sector = (s.disk p.sector).blit p.offset.toNat e 32 := by
      rw [hsec]
      exact update_self ..
    rw [Fat.entry, Fat.entry, hdisk, hsec, Buffer.drop, Buffer.drop]
    rcases hp.apart hg hq hne hsec with hlt | hge
    · exact Buffer.blit_of_lt (by omega)
    · exact Buffer.blit_of_ge (by omega)
  · have hdisk : (s.updateDirent p e).disk q.sector = s.disk q.sector := update_of_ne hsec ..
    rw [Fat.entry, Fat.entry, hdisk]

theorem FatLinked.updateDirent (h : FatLinked s limit c l) (hg : Geometry s.vol limit) (hp : IsSlot s limit p) (e : Buffer) :
    FatLinked (s.updateDirent p e) limit c l :=
  h.congr hg (updateDirent_spec hg hp e).1 fun _ _ => Set.notMem_empty _

theorem FatLinked.dirSlots_updateDirent (h : FatLinked s limit c l) (hg : Geometry s.vol limit) (hp : IsSlot s limit p)
    (e : Buffer) :
    (s.updateDirent p e).dirSlots c = s.dirSlots c := by
  rw [(h.updateDirent hg hp e).dirSlots_eq hg, h.dirSlots_eq hg]
  rfl

/-! ## A free place -/

/-- What a place found or made for an entry leaves: the directory has its places in their order, with those of a new cluster
behind them, and no entry changed. -/
structure Opened (s s' : Fat) (limit : Nat) (c : UInt32) (l' : List UInt32) (p : DirPos) (k : Nat) : Prop where
  vol : s'.vol = s.vol
  linked : FatLinked s' limit c l'
  place : (s'.dirSlots c)[k]? = some p
  free : s'.freeAt p = true
  before : ∀ j < k, ∀ q, (s'.dirSlots c)[j]? = some q → (s.dirSlots c)[j]? = some q ∧ s.freeAt q = false
  old : ∀ (j : Nat) (q : DirPos), (s.dirSlots c)[j]? = some q → (s'.dirSlots c)[j]? = some q
  behind : ∀ (j : Nat) (q : DirPos), (s'.dirSlots c)[j]? = some q → (s.dirSlots c)[j]? = some q ∨ s'.entry q 0 = direntEnd
  same : ∀ d, InVol limit d → fat32GetNextCluster s d ≠ 0 → ∀ q ∈ s.clusterSlots d, SameAt s s' q
  fat : ∀ d, InVol limit d → fat32GetNextCluster s d ≠ 0 → d ∉ s.dirClusters c →
    fat32GetNextCluster s' d = fat32GetNextCluster s d
  clusters : ∀ d ∈ l', d ∈ s.dirClusters c ∨ fat32GetNextCluster s d = 0

theorem Opened.found (hg : Geometry s.vol limit) (hl : FatLinked s limit c l)
    (h : Scan.HitAt (fun _ => true) s.freeAt (s.dirSlots c) k p) : Opened s s limit c l p k where
  vol := rfl
  linked := hl
  place := h.place
  free := h.hit
  before := fun j hj q hq => ⟨hq, (h.before j hj q hq).2⟩
  old := fun _ _ hq => hq
  behind := fun _ _ hq => .inl hq
  same := fun _ _ _ q _ => .refl s q
  fat := fun _ _ _ _ => rfl
  clusters := fun d hd => .inl (by rw [hl.dirClusters_eq hg]; exact hd)

theorem head_clusterSlots (hg : Geometry s.vol limit) (d : UInt32) :
    (s.clusterSlots d)[0]? = some ⟨fat32ClusterToLba s d, 0⟩ := by
  obtain ⟨n, hn⟩ : ∃ n, s.spc.toNat = n + 1 := ⟨s.spc.toNat - 1, by have := hg.spc_pos; omega⟩
  have h16 : (s.bps / 32).toNat = 15 + 1 := by
    rw [hg.bps_eq]
    rfl
  unfold Fat.clusterSlots Fat.sectorSlots
  rw [hn, h16, @range_succ_eq_map n, flatMap_cons, @range_succ_eq_map 15, map_cons, cons_append, List.getElem?_cons_zero]
  exact congrArg some (congrArg (DirPos.mk · 0) (UInt32.add_zero _))

theorem Opened.made (hg : Geometry s.vol limit) (hl : FatLinked s limit c (l ++ [d]))
    (hfull : ∀ q ∈ s.dirSlots c, s.freeAt q = false)
    (hx : Extended s s' limit d new) :
    Opened s s' limit c (l ++ [d] ++ [new]) ⟨fat32ClusterToLba s new, 0⟩ (s.dirSlots c).length := by
  have hvol := hx.frame.vol
  have hg' : Geometry s'.vol limit := hx.frame.geometry hg
  have hl' := hl.extend hg hx
  have hslots : s'.dirSlots c = s.dirSlots c ++ s.clusterSlots new := by
    have hsame : s'.clusterSlots = s.clusterSlots := funext (clusterSlots_congr hvol)
    rw [hl'.dirSlots_eq hg', hl.dirSlots_eq hg, hsame, flatMap_append, flatMap_singleton]
  have hzero : ∀ q ∈ s.clusterSlots new, s'.entry q 0 = direntEnd := by
    intro q hq
    obtain ⟨i, hi, j, -, rfl⟩ := (mem_clusterSlots hg).1 hq
    rw [Fat.entry, hx.zero i hi]
    rfl
  have hold : ∀ (j : Nat) (q : DirPos), (s.dirSlots c)[j]? = some q → (s'.dirSlots c)[j]? = some q := by
    intro j q hq
    have hlt := (List.getElem?_eq_some_iff.1 hq).1
    rw [hslots, List.getElem?_append_left hlt]
    exact hq
  have hmem : ∀ (j : Nat) (q : DirPos), (s'.dirSlots c)[j]? = some q → (s.dirSlots c)[j]? = some q ∨
      q ∈ s.clusterSlots new := by
    intro j q hq
    rw [hslots, List.getElem?_append] at hq
    split at hq
    · exact .inl hq
    · exact .inr (mem_of_getElem? hq)
  refine ⟨hvol, hl', ?_, ?_, fun j hj q hq => ?_, hold, fun j q hq => (hmem j q hq).imp_right (hzero q), ?_, ?_,
    fun e he => ?_⟩
  · rw [hslots, List.getElem?_append_right (Nat.le_refl _), Nat.sub_self]
    exact head_clusterSlots hg new
  · have hend : s'.entry ⟨fat32ClusterToLba s new, 0⟩ 0 = direntEnd := hzero _ (mem_of_getElem? (head_clusterSlots hg new))
    unfold Fat.freeAt
    rw [hend]
    rfl
  · rw [hslots, List.getElem?_append_left hj] at hq
    exact ⟨hq, hfull q (mem_of_getElem? hq)⟩
  · intro e hin hused q hq i _
    have hne : e ≠ new := fun heq => hused (heq ▸ hx.fresh)
    obtain ⟨i', hi', j, -, rfl⟩ := (mem_clusterSlots hg).1 hq
    have hdisk := hx.frame.data (dataSector s e i') (hg.dataSector_ge hin hi') (hg.notMem_sectorsOf hin hx.inVol hne hi')
    rw [Fat.entry, Fat.entry, hdisk]
  · intro e hin hused hout
    rw [hl.dirClusters_eq hg] at hout
    refine hx.frame.fat e (hin.lt_entries hg) ?_
    rintro (heq | heq)
    · exact hout (by rw [heq]; simp)
    · exact hused (heq ▸ hx.fresh)
  · rw [hl.dirClusters_eq hg]
    rcases mem_append.1 he with he | he
    · exact .inl he
    · rw [mem_singleton.1 he]
      exact .inr hx.fresh

/-- **A free place is found or made**, or there is none and the volume is full. -/
theorem findFree_spec (hg : Geometry s.vol limit) (hl : FatLinked s limit c l) (hin : InVol limit c) (hr : Room s limit 1) :
    match fat32FindFreeDirentInChain s c with
    | some (s', p) => ∃ l' k, Opened s s' limit c l' p k
    | none => ∀ q ∈ s.dirSlots c, s.freeAt q = false := by
  unfold fat32FindFreeDirentInChain
  cases hfind : (s.dirSlots c).find? s.freeAt with
  | some p =>
    obtain ⟨k, hk⟩ := Scan.find_eq_some.1 hfind
    exact ⟨l, k, .found hg hl hk⟩
  | none =>
    have hfull : ∀ q ∈ s.dirSlots c, s.freeAt q = false := fun q hq => Bool.eq_false_iff.2 (List.find?_eq_none.1 hfind q hq)
    obtain ⟨l0, d, rfl, -⟩ := hl.exists_last hg hin
    have hlast : (s.dirClusters c).getLastD 0 = d := by
      rw [hl.dirClusters_eq hg, getLastD_concat]
    dsimp only
    rw [hlast]
    cases halloc : fat32AllocCluster s with
    | none => exact hfull
    | some r =>
      obtain ⟨s1, new⟩ := r
      have hx := hl.alloc_extend hg hr halloc
      have hlba : fat32ClusterToLba (fat32FatSet s1 d new) new = fat32ClusterToLba s new := hx.frame.lba new
      dsimp only
      rw [hlba]
      exact ⟨_, _, .made hg hl hfull hx⟩

/-! ## Finding a name -/

/-- A name is found at place `k` of a directory. -/
def FoundAt (s : Fat) (c : UInt32) (name : CStr) (k : Nat) (p : DirPos) : Prop :=
  Scan.HitAt (fun q => decide (s.entry q 0 ≠ direntEnd)) (s.matchesAt (fat32ToDosName name)) (s.dirSlots c) k p

theorem findDirent_eq_some : fat32FindDirentInChain s c name = some p ↔ ∃ k, FoundAt s c name k p :=
  Scan.find_takeWhile_eq_some

theorem findDirent_eq_none : fat32FindDirentInChain s c name = none ↔
    ∀ (k : Nat) (q : DirPos), (s.dirSlots c)[k]? = some q → s.matchesAt (fat32ToDosName name) q = true →
      ∃ j ≤ k, ∃ b, (s.dirSlots c)[j]? = some b ∧ s.entry b 0 = direntEnd := by
  refine Scan.find_takeWhile_eq_none.trans ?_
  simp

structure Carries (e name : Buffer) : Prop where
  name : ∀ i < 11, e i = name i
  onTable : e 0 ≠ direntEnd
  live : e 0 ≠ direntDeleted
  noLabel : Dirent.attr e &&& attrVolumeId = 0
  noLong : Dirent.attr e &&& attrLongName = 0

theorem Carries.matchesAt {b : Buffer} (h : Carries (s.entry p) b) : s.matchesAt b p = true := by
  unfold Fat.matchesAt
  dsimp only
  rw [decide_eq_true h.live, decide_eq_true h.noLabel, decide_eq_true h.noLong, Bool.true_and, Bool.true_and, Bool.true_and,
    all_eq_true]
  exact fun i hi => decide_eq_true (h.name i (mem_range.1 hi))

theorem matchesAt_iff {b : Buffer} : s.matchesAt b p = true ↔ s.entry p 0 ≠ direntDeleted ∧
    Dirent.attr (s.entry p) &&& attrVolumeId = 0 ∧ Dirent.attr (s.entry p) &&& attrLongName = 0 ∧
    ∀ i < 11, s.entry p i = b i := by
  unfold Fat.matchesAt
  simp [and_assoc]

/-- **An entry written into an opened place is found there**, where the name was not found before it. -/
theorem Opened.written (ho : Opened s s' limit c l' p k) (hg : Geometry s.vol limit) (hl : FatLinked s limit c l)
    (hmiss : ∀ j < k, ∀ q, (s.dirSlots c)[j]? = some q → s.matchesAt (fat32ToDosName name) q = false)
    (he : Carries e (fat32ToDosName name)) : FoundAt (s'.updateDirent p e) c name k p := by
  have hg' : Geometry s'.vol limit := ho.vol.symm ▸ hg
  have hp : IsSlot s' limit p := ho.linked.isSlot hg' (mem_of_getElem? ho.place)
  have hslots := ho.linked.dirSlots_updateDirent hg' hp e
  have hself : ∀ i < 32, (s'.updateDirent p e).entry p i = e i := fun i hi => entry_updateDirent_self s' p e hi
  have hcarry : Carries ((s'.updateDirent p e).entry p) (fat32ToDosName name) := by
    have hattr : Dirent.attr ((s'.updateDirent p e).entry p) = Dirent.attr e := hself 11 (by decide)
    refine ⟨fun i hi => (hself i (by omega)).trans (he.name i hi), ?_, ?_, ?_, ?_⟩
    · rw [hself 0 (by decide)]
      exact he.onTable
    · rw [hself 0 (by decide)]
      exact he.live
    · rw [hattr]
      exact he.noLabel
    · rw [hattr]
      exact he.noLong
  refine ⟨by rw [hslots]; exact ho.place, hcarry.matchesAt, decide_eq_true hcarry.onTable, fun j hj q hq => ?_⟩
  rw [hslots] at hq
  obtain ⟨hold, hfree⟩ := ho.before j hj q hq
  have hne : q ≠ p := by
    rintro rfl
    exact absurd (ho.linked.place_inj hg' hq ho.place) (by omega)
  have hmem := mem_of_getElem? hold
  rw [hl.dirSlots_eq hg, mem_flatMap] at hmem
  obtain ⟨d, hd, hqd⟩ := hmem
  have hsame : SameAt s (s'.updateDirent p e) q := (ho.same d (hl.2 d hd) (hl.next_ne_zero hd) q hqd).trans
      ((updateDirent_spec hg' hp e).2 q (ho.linked.isSlot hg' (mem_of_getElem? hq)) hne)
  constructor
  · rw [decide_eq_true_iff, hsame 0 (by decide)]
    intro hend
    unfold Fat.freeAt at hfree
    rw [hend] at hfree
    cases hfree
  · rw [hsame.matchesAt]
    exact hmiss j hj q hold

end EterOS.Fs
