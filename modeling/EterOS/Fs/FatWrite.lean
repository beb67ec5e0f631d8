import EterOS.Fs.FatChain
/-!
# FatWrite — `fat32_write_fs` as a whole

A call may allocate the first cluster of its file, then goes to the cluster of the offset, or puts one behind the chain,
writes, and at the end stores the new length; the first cluster and the length also go to the directory entry the node
remembers.  `Written` is what every call does to the volume, `fat32Write_wrote` which bytes of the file it changes.
-/
namespace EterOS.Fs

open List
open Function (update_self update_of_ne)

variable {s s' s1 s2 : Fat} {limit n k : Nat} {c d first offset size : UInt32} {l l' l1 l2 : List UInt32}
  {buffer : Buffer} {node node' node1 : FatNode} {f : Nat → UInt8}

/-! ## The entry of a node -/

/-- The first cluster of a file and its chain; a file without clusters has 0. -/
def Chained (s : Fat) (limit : Nat) (first : UInt32) (l : List UInt32) : Prop :=
  first = 0 ∧ l = [] ∨ InVol limit first ∧ FatLinked s limit first l

structure AtCluster (s : Fat) (limit : Nat) (p : DirPos) (c : UInt32) : Prop where
  inVol : InVol limit c
  sector : p.sector ∈ sectorsOf s c
  fits : p.offset.toNat + 32 ≤ 512

/-- What happened to the entry at a position: its first cluster is now `first`, its name and attribute and everything
around it are as before. -/
structure Patched (s s' : Fat) (p : DirPos) (first : UInt32) : Prop where
  around : ∀ j, j < p.offset.toNat ∨ p.offset.toNat + 32 ≤ j → s'.disk p.sector j = s.disk p.sector j
  name : ∀ j < 20, s'.entry p j = s.entry p j
  cluster : Dirent.cluster (s'.entry p) = first

theorem Patched.trans {p : DirPos} (h : Patched s s1 p c) (h' : Patched s1 s2 p d) : Patched s s2 p d :=
  ⟨fun j hj => (h'.around j hj).trans (h.around j hj), fun j hj => (h'.name j hj).trans (h.name j hj), h'.cluster⟩

theorem Patched.of_eq {p : DirPos} (h : s'.disk p.sector = s.disk p.sector) (hc : Dirent.cluster (s.entry p) = c) :
    Patched s s' p c := by
  have he : s'.entry p = s.entry p := by rw [Fat.entry, Fat.entry, h]
  exact ⟨fun j _ => by rw [h], fun j _ => by rw [he], by rw [he, hc]⟩

theorem Dirent.cluster_congr {e e' : Buffer} (h : ∀ j, 20 ≤ j → j < 28 → e' j = e j) :
    Dirent.cluster e' = Dirent.cluster e := by
  rw [Dirent.cluster, Dirent.cluster, Buffer.le_congr fun i hi hi' => h i (by omega) (by omega),
    Buffer.le_congr fun i hi hi' => h i (by omega) (by omega)]

theorem Dirent.cluster_withCluster (e : Buffer) (c : UInt32) : Dirent.cluster (Dirent.withCluster e c) = c := by
  have hlt := c.toNat_lt
  rw [Dirent.cluster, Dirent.withCluster, Buffer.le_blit_of_disjoint (by omega), Buffer.le_blit_digits,
    Buffer.le_blit_digits]
  rw [← UInt32.toNat_inj, UInt32.toNat_ofNat']
  omega

theorem entry_patchDirent (s : Fat) (p : DirPos) (f : Buffer → Buffer) {j : Nat} (hj : j < 32) :
    (s.patchDirent p f).entry p j = f (s.entry p) j := by
  have hd : (s.patchDirent p f).disk p.sector = (s.disk p.sector).blit p.offset.toNat (f (s.entry p)) 32 := update_self ..
  rw [Fat.entry, hd, Buffer.drop, Buffer.blit_of_mem (by omega) (by omega), Nat.add_sub_cancel_left]

theorem patchDirent_spec {p : DirPos} (hg : Geometry s.vol limit) (hp : AtCluster s limit p d) (f : Buffer → Buffer)
    (hname : ∀ j < 20, f (s.entry p) j = s.entry p j) (hc : Dirent.cluster (f (s.entry p)) = c) :
    Frame s (s.patchDirent p f) ∅ {p.sector} ∧ Patched s (s.patchDirent p f) p c := by
  refine ⟨frame_writeSector hg (hg.ge_of_mem_sectorsOf hp.inVol hp.sector), ?_, fun j hj => ?_, ?_⟩
  · intro j hj
    have hd : (s.patchDirent p f).disk p.sector = (s.disk p.sector).blit p.offset.toNat (f (s.entry p)) 32 := update_self ..
    rw [hd]
    rcases hj with hj | hj
    · exact Buffer.blit_of_lt hj
    · exact Buffer.blit_of_ge hj
  · rw [entry_patchDirent s p f (by omega), hname j hj]
  · rw [Dirent.cluster_congr fun j _ hj => entry_patchDirent s p f (by omega), hc]

theorem withCluster_name (e : Buffer) (c : UInt32) : ∀ j < 20, Dirent.withCluster e c j = e j := fun j hj => by
  rw [Dirent.withCluster, Buffer.blit_of_lt (by omega), Buffer.blit_of_lt (by omega)]

theorem withSize_below (e : Buffer) (n : UInt32) : ∀ j < 28, Dirent.withSize e n j = e j := fun j hj => by
  rw [Dirent.withSize, Buffer.put32, Buffer.blit_of_lt (by omega)]

/-! ## The parts -/

theorem FatLinked.ne_nil (h : FatLinked s limit first l) (hg : Geometry s.vol limit) (hin : InVol limit first) : l ≠ [] := by
  rintro rfl
  exact hin.lt_eoc hg h.1

theorem Allocated.linked (ha : Allocated s s' limit c) (hg : Geometry s.vol limit) (hin : InVol limit c) :
    FatLinked s' limit c [c] := by
  refine ⟨⟨rfl, hin.lt_eoc hg, ?_⟩, fun d hd => mem_singleton.1 hd ▸ hin⟩
  rw [IsChain, ha.marked hin]
  exact UInt32.le_refl _

/-- The file has a cluster: its own first one, or one that was free, zeroed and put into its entry. -/
theorem firstCluster_spec (hg : Geometry s.vol limit) (hl : Chained s limit node.inode l)
    (hp : AtCluster s limit (Fat.nodePos node) d) (hd : d ∉ l) (hused : fat32GetNextCluster s d ≠ 0)
    (hent : Dirent.cluster (s.entry (Fat.nodePos node)) = node.inode)
    (hr : node.inode = 0 → Room s limit (n + 1)) (hf : firstCluster s node = some (s1, node1)) :
    ∃ l1, l <+: l1 ∧ InVol limit node1.inode ∧ FatLinked s1 limit node1.inode l1 ∧
    node1 = { node with inode := node1.inode } ∧
      Frame s s1 { d | d ∈ l1 } (sectorsOfAll s l1 ∪ {node.impl}) ∧
      (∀ e ∈ l1, e ∈ l ∨ fat32GetNextCluster s e = 0) ∧
      (freeClusters s limit).card + l.length = (freeClusters s1 limit).card + l1.length ∧
      Patched s s1 (Fat.nodePos node) node1.inode ∧ l1.length = max l.length 1 ∧
      ∀ pos, byteAt s1 l1 pos = byteAt s l pos := by
  rw [firstCluster] at hf
  split at hf
  · rename_i h0
    split at hf
    · cases hf
    rename_i sa new ha
    obtain ⟨rfl, rfl⟩ := Prod.mk.inj (Option.some.inj hf)
    have hal := alloc_some hg ha
    have hin := hal.inVol hg (hr h0)
    have hfr := hal.frame hin
    have hga := hfr.geometry hg
    have hne : new ≠ d := fun heq => hused (heq ▸ hal.free)
    have hnil : l = [] := by
      rcases hl with ⟨-, rfl⟩ | ⟨hin0, -⟩
      · rfl
      · exact absurd h0 hin0.ne_zero
    subst hnil
    have hpa : AtCluster sa limit (Fat.nodePos node) d := ⟨hp.inVol, by rw [hfr.sectorsOf]; exact hp.sector, hp.fits⟩
    have hsec : (Fat.nodePos node).sector ∉ sectorsOf s new := by
      obtain ⟨i, hi, hx⟩ := hp.sector
      rw [hx]
      exact hg.notMem_sectorsOf hp.inVol hin hne.symm hi
    have hkeep : sa.disk (Fat.nodePos node).sector = s.disk (Fat.nodePos node).sector :=
      hfr.data _ (hg.ge_of_mem_sectorsOf hp.inVol hp.sector) hsec
    obtain ⟨hpf, hpp⟩ := patchDirent_spec hga hpa (Dirent.withCluster · new) (withCluster_name _ _)
      (Dirent.cluster_withCluster _ _)
    have hframe := hfr.trans hpf
    have hlinked : FatLinked (sa.patchDirent (Fat.nodePos node) (Dirent.withCluster · new)) limit new [new] :=
      (hal.linked hg hin).congr hga hpf fun _ _ => by simp
    refine ⟨[new], nil_prefix, hin, hlinked, rfl, ?_, fun e he => ?_, ?_, ?_, rfl, fun pos => ?_⟩
    · refine hframe.mono ?_ ?_
      · rintro e (he | he)
        · rw [Set.mem_singleton_iff.1 he]
          simp
        · cases he
      · rintro x (hx | hx)
        · exact Or.inl ⟨new, by simp, hx⟩
        · exact Or.inr hx
    · rw [mem_singleton.1 he]
      exact Or.inr hal.free
    · have hcard := (hal.spent hg hin).card hin hal.free
      rw [freeClusters_of_frame hga hpf, length_singleton, length_nil]
      omega
    · exact (Patched.of_eq hkeep rfl).trans hpp
    · -- the new cluster is zeros
      have hnil : byteAt s [] pos = 0 := rfl
      rw [hnil, byteAt]
      split
      · rename_i e he
        obtain rfl : e = new := mem_singleton.1 (mem_of_getElem? he)
        rw [hframe.csz, hframe.dataSector]
        have hlt := sector_lt hg pos
        rw [hpf.data _ (by rw [hfr.vol]; exact hg.dataSector_ge hin hlt) ?_]
        · rw [hal.zero hin _ hlt]
        · intro hx
          exact hsec (Set.mem_singleton_iff.1 hx ▸ ⟨_, hlt, rfl⟩)
      · rfl
  · rename_i h0
    obtain ⟨rfl, rfl⟩ := Prod.mk.inj (Option.some.inj hf)
    rcases hl with ⟨hz, -⟩ | ⟨hin, hl⟩
    · exact absurd hz h0
    refine ⟨l, prefix_refl l, hin, hl, rfl, (Frame.refl s).mono (Set.empty_subset _) (Set.empty_subset _),
      fun e he => Or.inl he, rfl, Patched.of_eq rfl hent, ?_, fun _ => rfl⟩
    have := length_pos_of_ne_nil (hl.ne_nil hg hin)
    omega

/-- Where the first byte goes: to the offset, or behind a chain that ends before it. -/
def startPos (s : Fat) (clusters : Nat) (offset : UInt32) : Nat :=
  if offset.toNat / csz s < clusters then offset.toNat else csz s * clusters

theorem seek_eq (hg : Geometry s.vol limit) (first offset : UInt32) :
    fat32SeekCluster s first offset = seekLoop s (offset.toNat / csz s) first := by
  rw [fat32SeekCluster, UInt32.toNat_div, hg.clusterSize_toNat]

theorem inCluster_toNat (hg : Geometry s.vol limit) (offset : UInt32) :
    (offset % s.clusterSize).toNat = offset.toNat % csz s := by
  rw [UInt32.toNat_mod, hg.clusterSize_toNat]

theorem FatLinked.exists_last (h : FatLinked s limit first l) (hg : Geometry s.vol limit) (hin : InVol limit first) :
    ∃ l0 b, l = l0 ++ [b] ∧ lastCluster s s.fatEntries first = b := by
  obtain ⟨l0, b, rfl⟩ := eq_nil_or_concat' l |>.resolve_left (h.ne_nil hg hin)
  have hlen := h.length_le.trans hg.limit_le
  rw [length_append, length_singleton] at hlen
  exact ⟨l0, b, rfl, lastCluster_eq h.1 (by omega)⟩

theorem startCluster_spec (hg : Geometry s.vol limit) (hin : InVol limit node.inode)
    (hl : FatLinked s limit node.inode l) (hr : l.length ≤ offset.toNat / csz s → Room s limit (n + 1))
      {current inCluster : UInt32}
    (hs : startCluster s node offset = some (s1, current, inCluster)) :
    ∃ l1 k, ∃ hk : k < l1.length, current = l1[k] ∧ inCluster.toNat < csz s ∧
    csz s * k + inCluster.toNat = startPos s l.length offset ∧
      l1.length = (if offset.toNat / csz s < l.length then l.length else l.length + 1) ∧
      ∀ f lo, FatWrote limit node.inode s l s1 l1 f lo lo := by
  rw [startCluster, seek_eq hg] at hs
  by_cases hlt : offset.toNat / csz s < l.length
  · rw [seekLoop_of_lt hl.1 hlt] at hs
    simp only at hs
    rw [if_neg ((hl.2 _ (getElem_mem hlt)).lt_eoc hg)] at hs
    simp only [Option.some.injEq, Prod.mk.injEq] at hs
    obtain ⟨rfl, rfl, rfl⟩ := hs
    refine ⟨l, _, hlt, rfl, ?_, ?_, (if_pos hlt).symm, fun f lo => FatWrote.refl hl f lo⟩
    · rw [inCluster_toNat hg]
      exact Nat.mod_lt _ hg.csz_pos
    · rw [inCluster_toNat hg, startPos, if_pos hlt, Nat.div_add_mod]
  · simp only at hs
    rw [if_pos (seekLoop_of_ge hl.1 (Nat.not_lt.1 hlt))] at hs
    split at hs
    · cases hs
    rename_i sa new ha
    simp only [Option.some.injEq, Prod.mk.injEq] at hs
    obtain ⟨rfl, rfl, rfl⟩ := hs
    obtain ⟨l0, b, rfl, hlast⟩ := hl.exists_last hg hin
    have hx := hl.alloc_extend hg (hr (Nat.not_lt.1 hlt)) ha
    rw [hlast]
    refine ⟨l0 ++ [b] ++ [new], (l0 ++ [b]).length, by simp, ?_, hg.csz_pos, ?_, ?_,
      fun f lo => FatWrote.extend hl hg hx f lo⟩
    · exact (getElem_concat_length rfl _).symm
    · rw [startPos, if_neg hlt]
      rfl
    · rw [if_neg hlt, length_append, length_singleton]

theorem growLength_spec (hg : Geometry s.vol limit) (hp : AtCluster s limit (Fat.nodePos node) d) (reached : UInt32)
    (hent : Dirent.cluster (s.entry (Fat.nodePos node)) = node.inode) :
    Frame s (growLength s node reached).1 ∅ {node.impl} ∧
    Patched s (growLength s node reached).1 (Fat.nodePos node) node.inode ∧
      (growLength s node reached).2 = { node with length := if node.length < reached then reached else node.length } := by
  rw [growLength]
  split
  · obtain ⟨hf, hpa⟩ := patchDirent_spec hg hp (Dirent.withSize · reached)
      (fun j hj => withSize_below _ _ j (by omega))
      ((Dirent.cluster_congr fun j _ hj => withSize_below _ _ j hj).trans hent)
    exact ⟨hf, hpa, rfl⟩
  · exact ⟨(Frame.refl s).mono (Set.empty_subset _) (Set.empty_subset _), Patched.of_eq rfl hent, rfl⟩

/-! ## The whole call -/

/-- What `fat32_write_fs` does to the volume and to the node, whatever it was asked to write. -/
structure Written (limit : Nat) (s : Fat) (node : FatNode) (l : List UInt32) (s' : Fat) (node' : FatNode)
    (l' : List UInt32) : Prop where
  pre : l <+: l'
  chain : Chained s' limit node'.inode l'
  frame : Frame s s' { d | d ∈ l' } (sectorsOfAll s l' ∪ {node.impl})
  fresh : ∀ d ∈ l', d ∈ l ∨ fat32GetNextCluster s d = 0
  entry : Patched s s' (Fat.nodePos node) node'.inode
  pos : Fat.nodePos node' = Fat.nodePos node
  kept : node.inode ≠ 0 → node'.inode = node.inode
  spare : (freeClusters s limit).card + l.length = (freeClusters s' limit).card + l'.length

/-- The file a node is open on: its chain, and its entry in another cluster, which is used. -/
structure OpenFile (s : Fat) (limit : Nat) (node : FatNode) (l : List UInt32) (d : UInt32) : Prop where
  chain : Chained s limit node.inode l
  entry : AtCluster s limit (Fat.nodePos node) d
  apart : d ∉ l
  used : fat32GetNextCluster s d ≠ 0
  first : Dirent.cluster (s.entry (Fat.nodePos node)) = node.inode

theorem OpenFile.sector_notMem (h : OpenFile s limit node l d) (hg : Geometry s.vol limit)
    (hin : ∀ e ∈ l', InVol limit e) (hfresh : ∀ e ∈ l', e ∈ l ∨ fat32GetNextCluster s e = 0) :
    node.impl ∉ sectorsOfAll s l' := by
  rintro ⟨e, he, hx⟩
  obtain ⟨i, hi, hsec⟩ := h.entry.sector
  have hde : d ≠ e := by
    rintro rfl
    rcases hfresh d he with hl | hz
    · exact h.apart hl
    · exact h.used hz
  have hx : (Fat.nodePos node).sector ∈ sectorsOf s e := hx
  rw [hsec] at hx
  exact hg.notMem_sectorsOf h.entry.inVol (hin e he) hde hi hx

theorem Written.of_parts (h : OpenFile s limit node l d) (hg : Geometry s.vol limit)
    (hr : node.inode = 0 → Room s limit (n + 1)) (hf : firstCluster s node = some (s1, node1)) (reached : UInt32) :
    ∃ l1, FatLinked s1 limit node1.inode l1 ∧ InVol limit node1.inode ∧ Geometry s1.vol limit ∧
      l1.length = max l.length 1 ∧ node1 = { node with inode := node1.inode } ∧
      Written limit s node l s1 node1 l1 ∧ (∀ pos, byteAt s1 l1 pos = byteAt s l pos) ∧
      ∀ s2 l2, Grown limit node1.inode s1 l1 s2 l2 →
        Written limit s node l (growLength s2 node1 reached).1 (growLength s2 node1 reached).2 l2 ∧
          (growLength s2 node1 reached).2.length = (if node.length < reached then reached else node.length) ∧
          ∀ pos, byteAt (growLength s2 node1 reached).1 l2 pos = byteAt s2 l2 pos := by
  obtain ⟨l1, hpre, hin, hl, hnode, hframe, hfresh, hspare, hpatch, hlen, hbytes⟩ :=
    firstCluster_spec hg h.chain h.entry h.apart h.used h.first hr hf
  have hg1 := hframe.geometry hg
  have hpos : Fat.nodePos node1 = Fat.nodePos node := by rw [hnode]; rfl
  have himpl : node1.impl = node.impl := by rw [hnode]
  have hkept : node.inode ≠ 0 → node1.inode = node.inode := by
    intro h0
    rw [firstCluster, if_neg h0] at hf
    exact congrArg FatNode.inode (Prod.mk.inj (Option.some.inj hf)).2.symm
  have hw1 : Written limit s node l s1 node1 l1 := ⟨hpre, Or.inr ⟨hin, hl⟩, hframe, hfresh, hpatch, hpos, hkept, hspare⟩
  refine ⟨l1, hl, hin, hg1, hlen, hnode, hw1, hbytes, fun s2 l2 hgrown => ?_⟩
  have hg2 := hgrown.frame.geometry hg1
  have hfresh2 : ∀ e ∈ l2, e ∈ l ∨ fat32GetNextCluster s e = 0 := by
    intro e he
    by_cases hmem : e ∈ l1
    · exact hfresh e hmem
    · right
      rw [← hframe.fat e ((hgrown.linked.2 e he).lt_entries hg) hmem]
      exact (hgrown.fresh e he).resolve_left hmem
  have hsec := h.sector_notMem hg hgrown.linked.2 hfresh2
  have hge := hg.ge_of_mem_sectorsOf h.entry.inVol h.entry.sector
  have hdisk : s2.disk (Fat.nodePos node).sector = s1.disk (Fat.nodePos node).sector :=
    hgrown.frame.data _ (by rw [hframe.vol]; exact hge) (by rw [hframe.sectorsOfAll]; exact hsec)
  have hent2 : Dirent.cluster (s2.entry (Fat.nodePos node1)) = node1.inode := by
    rw [hpos, Fat.entry, hdisk]
    exact hpatch.cluster
  have hat : AtCluster s2 limit (Fat.nodePos node1) d := by
    rw [hpos]
    refine ⟨h.entry.inVol, ?_, h.entry.fits⟩
    rw [hgrown.frame.sectorsOf, hframe.sectorsOf]
    exact h.entry.sector
  obtain ⟨hf3, hp3, hn3⟩ := growLength_spec hg2 hat reached hent2
  rw [hpos] at hp3
  rw [himpl] at hf3
  have hl3 : FatLinked (growLength s2 node1 reached).1 limit node1.inode l2 := hgrown.linked.congr hg2 hf3 fun _ _ => by simp
  have hinode : (growLength s2 node1 reached).2.inode = node1.inode := by rw [hn3]
  refine ⟨⟨hpre.trans hgrown.pre, Or.inr ⟨hinode ▸ hin, hinode ▸ hl3⟩, ?_, hfresh2, ?_, ?_, ?_, ?_⟩, ?_, fun pos => ?_⟩
  · refine ((hframe.trans hgrown.frame).trans hf3).mono ?_ ?_
    · rintro e ((he | he) | he)
      · exact hgrown.pre.subset he
      · exact he
      · cases he
    · rw [hframe.sectorsOfAll]
      rintro x (((⟨e, he, hx⟩ | hx) | hx) | hx)
      · exact Or.inl ⟨e, hgrown.pre.subset he, hx⟩
      · exact Or.inr hx
      · exact Or.inl hx
      · exact Or.inr hx
  · rw [hinode]
    exact (hpatch.trans (Patched.of_eq hdisk hpatch.cluster)).trans hp3
  · rw [hn3]
    exact hpos
  · rw [hinode]
    exact hkept
  · rw [freeClusters_of_frame hg2 hf3]
    have := hgrown.spare
    omega
  · rw [hn3, hnode]
  · refine byteAt_of_frame hg2 hf3 hgrown.linked.2 fun e he i hi hx => hsec ⟨e, he, ?_⟩
    rw [← Set.mem_singleton_iff.1 hx, hgrown.frame.dataSector, hframe.dataSector]
    exact ⟨i, by rwa [hgrown.frame.spc, hframe.spc] at hi, rfl⟩

/-- Clusters of a file of `clusters` after a write. -/
def clustersAfter (s : Fat) (clusters : Nat) (offset size : UInt32) : Nat :=
  let n := max clusters 1
  max (if offset.toNat / csz s < n then n else n + 1) (clustersFor s (startPos s n offset + size.toNat))

theorem fat32Write_wrote (buffer : Buffer) (h : OpenFile s limit node l d) (hg : Geometry s.vol limit)
    (hw : NoWrap (startPos s (max l.length 1) offset) size)
    (hfree : clustersAfter s l.length offset size - l.length ≤ (freeClusters s limit).card) :
    let r := fat32Write s node offset size buffer
    let start := startPos s (max l.length 1) offset
    r.2.2 = size ∧ r.2.1.length = (if node.length < offset + size then offset + size else node.length) ∧
      ∃ l', Written limit s node l r.1 r.2.1 l' ∧ l'.length = clustersAfter s l.length offset size ∧
      ∀ pos, byteAt r.1 l' pos =
          if start ≤ pos ∧ pos < start + size.toNat then buffer (pos - start) else byteAt s l pos := by
  have hlong : 1 ≤ clustersAfter s l.length offset size := by
    rw [clustersAfter]
    split <;> omega
  have hnil : node.inode = 0 → l = [] := by
    intro h0
    rcases h.chain with ⟨-, hl⟩ | ⟨hin, -⟩
    · exact hl
    · exact absurd h0 hin.ne_zero
  have hone : node.inode = 0 → 1 ≤ (freeClusters s limit).card := by
    intro h0
    rw [hnil h0, length_nil] at hfree hlong
    omega
  obtain ⟨s1, node1, hf⟩ : ∃ s1 node1, firstCluster s node = some (s1, node1) := by
    rw [firstCluster]
    split
    · rename_i h0
      obtain ⟨sa, new, ha⟩ := exists_alloc hg (hone h0)
      rw [ha]
      exact ⟨_, _, rfl⟩
    · exact ⟨_, _, rfl⟩
  obtain ⟨l1, hl, hin, hg1, hlen, -, hw1, hbytes1, hparts⟩ :=
    Written.of_parts h hg (fun h0 => Or.inl (hone h0)) hf (offset + size)
  have hcsz1 : csz s1 = csz s := hw1.frame.csz
  have hspare1 := hw1.spare
  have hafter : clustersAfter s l.length offset size =
    max (if offset.toNat / csz s1 < l1.length then l1.length else l1.length + 1)
        (clustersFor s (startPos s l1.length offset + size.toNat)) := by
    rw [clustersAfter, hlen, hcsz1]
  have hstartEq : startPos s1 l1.length offset = startPos s l1.length offset := by rw [startPos, startPos, hcsz1]
  rw [← hlen] at hw ⊢
  have hone1 : l1.length ≤ offset.toNat / csz s1 → 1 ≤ (freeClusters s1 limit).card := by
    intro hle
    rw [if_neg (Nat.not_lt.2 hle)] at hafter
    omega
  obtain ⟨⟨s2, current, inCluster⟩, hs⟩ : ∃ r, startCluster s1 node1 offset = some r := by
    rw [startCluster, seek_eq hg1]
    simp only
    split
    · rename_i hend
      have hge : l1.length ≤ offset.toNat / csz s1 := by
        by_contra hlt
        rw [seekLoop_of_lt hl.1 (Nat.not_le.1 hlt)] at hend
        exact (hl.2 _ (getElem_mem _)).lt_eoc hg1 hend
      obtain ⟨sa, new, ha⟩ := exists_alloc hg1 (hone1 hge)
      rw [ha]
      exact ⟨_, rfl⟩
    · exact ⟨_, rfl⟩
  obtain ⟨l2, k, hk, rfl, hinC, hpos, hlen2, hstart⟩ := startCluster_spec hg1 hin hl (fun hle => Or.inl (hone1 hle)) hs
  have hw2 := hstart (fun pos => buffer (pos - startPos s l1.length offset)) (startPos s l1.length offset)
  have hcsz2 : csz s2 = csz s := hw2.frame.csz.trans hcsz1
  have hspare2 := hw2.spare
  rw [← hlen2] at hafter
  have hfor2 : ∀ m, clustersFor s2 m = clustersFor s m := fun m => by rw [clustersFor, clustersFor, hcsz2]
  obtain ⟨hdone, l3, hlen3, hw3⟩ := writeLoop_wrote size buffer
    (startPos s l1.length offset) size.toNat s2 l2 k hk inCluster 0
    (hw2.frame.geometry hg1) hw2.linked hw (by rw [hw2.frame.csz]; exact hinC)
    (by rw [hw2.frame.csz, hpos, hstartEq]; rfl) (Nat.zero_le _) (Nat.sub_le _ _) (by rw [hfor2]; omega)
  have hz : (0 : UInt32).toNat = 0 := rfl
  rw [hz, Nat.add_zero] at hw3
  have hall := hw2.trans hw3 hg1 (Nat.le_refl _) (Nat.le_add_right _ _)
  rw [fat32Write, hf]
  simp only [hs]
  generalize writeLoop size buffer size.toNat s2 l2[k] inCluster 0 = r at hdone hw3 hall ⊢
  obtain ⟨s3, done⟩ := r
  obtain rfl : done = size := hdone
  obtain ⟨hwritten, hlength, hsame⟩ := hparts s3 l3 hall.toGrown
  refine ⟨rfl, hlength, l3, hwritten, ?_, fun pos => ?_⟩
  · rw [hlen3, hafter, hfor2]
  · rw [hsame pos, hall.bytes pos, hbytes1 pos]

end EterOS.Fs
