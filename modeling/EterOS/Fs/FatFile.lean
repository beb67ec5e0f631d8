import EterOS.Fs.FatWrite
import EterOS.Fs.JfsOps
/-!
# FatFile — FAT32 files as byte arrays

`fat32_read_fs` walks the chain of its file and `fat32_write_fs` is `FatWrite`'s.  A write that starts behind the chain
puts its first byte at the start of the one cluster it adds, wherever the offset is, and the sums of 32 bits wrap at the
end of the largest files.  `WriteMet` and `ReadMet` rule these out and what a long gap leaves in the last cluster;
`fat_files_are_byte_arrays` is the run where they hold.
-/
namespace EterOS.Fs

open Function (update_self update_of_ne)

variable {s s' : Fat} {limit n k base : Nat} {d first offset size : UInt32} {l : List UInt32} {buffer : Buffer}
    {node : FatNode}

/-! ## Reading -/

/-- No sum of the loop of a read wraps, which ends with the chain if not before. -/
def ReadNoWrap (base : Nat) (size : UInt32) (bytes : Nat) : Prop :=
  size.toNat + 512 ≤ 2 ^ 32 ∨ 0 < base ∧ bytes ≤ 2 ^ 32

theorem ReadNoWrap.sum_lt {bytes a i o done : Nat} (hw : ReadNoWrap base size bytes) (hdone : done < size.toNat)
    (hpos : a + (512 * i + o) = base + done) (hin : o < 512) (hend : a + (512 * i + 512) ≤ bytes) :
    done + (512 - o) < 2 ^ 32 := by
  rcases hw with h | ⟨hbase, hle⟩ <;> omega

theorem readSectors_spec (hg : Geometry s.vol limit) (hk : k < l.length)
    (hw : ReadNoWrap base size (csz s * l.length)) : ∀ (n : Nat) (i inSector done : UInt32) (buffer : Buffer),
    i.toNat + n = s.spc.toNat → inSector.toNat < 512 → done.toNat ≤ size.toNat →
    csz s * k + (512 * i.toNat + inSector.toNat) = base + done.toNat →
    let r := readSectors s size (fat32ClusterToLba s l[k]) n i inSector done buffer
    r.1.toNat = min size.toNat (done.toNat + (512 * n - inSector.toNat)) ∧
      (∀ j < r.1.toNat, r.2 j = if j < done.toNat then buffer j else byteAt s l (base + j)) ∧
      ∀ j, size.toNat ≤ j → r.2 j = buffer j
  | 0, i, inSector, done, buffer, hi, hin, hdone, hpos => by
    refine ⟨by simp only [readSectors]; omega, fun j hj => ?_, fun _ _ => rfl⟩
    exact (if_pos (show j < done.toNat from hj)).symm
  | n + 1, i, inSector, done, buffer, hi, hin, hdone, hpos => by
    rw [readSectors]
    split
    · rename_i hge
      rw [UInt32.le_iff_toNat_le] at hge
      exact ⟨by simp only; omega, fun j hj => by rw [if_pos hj], fun _ _ => rfl⟩
    rename_i hlt
    rw [UInt32.le_iff_toNat_le, Nat.not_le] at hlt
    have hi1 := succ_toNat hi s.spc.toNat_lt
    have hilt : i.toNat < s.spc.toNat := hi ▸ Nat.lt_add_of_pos_right (Nat.succ_pos n)
    have hend : csz s * k + (512 * i.toNat + 512) ≤ csz s * l.length := by
      calc csz s * k + (512 * i.toNat + 512) ≤ csz s * k + csz s :=
            Nat.add_le_add_left (Nat.mul_le_mul_left 512 (Nat.succ_le_of_lt hilt)) _
        _ = csz s * (k + 1) := (Nat.mul_succ _ _).symm
        _ ≤ csz s * l.length := Nat.mul_le_mul_left _ hk
    have hsum := hw.sum_lt hlt hpos hin hend
    have hchunk := chunkOf_toNat hg hin hlt hsum
    obtain ⟨hin', hle'⟩ := turn_bounds hin hlt hchunk
    have hnext' : (done + chunkOf s size done inSector).toNat = done.toNat + (chunkOf s size done inSector).toNat := by
      rw [UInt32.toNat_add, Nat.mod_eq_of_lt (hle'.trans_lt size.toNat_lt)]
    have hnext := hnext'
    rw [hchunk] at hnext
    have hz : (0 : UInt32).toNat = 0 := rfl
    rw [dataSector_toUInt32]
    simp only
    -- what is copied: the bytes of the file from where the sector is entered
    have hcopy : ∀ j, done.toNat ≤ j → j < done.toNat + (chunkOf s size done inSector).toNat →
        s.disk (dataSector s l[k] i.toNat) (inSector.toNat + (j - done.toNat)) = byteAt s l (base + j) := by
      intro j hj hj'
      obtain ⟨h1, h2, h3⟩ := pos_div_eq (k := k) hg hilt (o := inSector.toNat + (j - done.toNat))
        ((Nat.add_lt_add_left (Nat.sub_lt_left_of_lt_add hj hj') _).trans_le hin')
      rw [← Nat.add_assoc (512 * _), ← Nat.add_assoc, hpos, Nat.add_assoc, Nat.add_sub_cancel' hj] at h1 h2 h3
      rw [byteAt, h1, h2, h3, List.getElem?_eq_getElem hk]
    generalize hblit : buffer.blit done.toNat ((s.disk (dataSector s l[k] i.toNat)).drop inSector.toNat)
      (chunkOf s size done inSector).toNat = buffer'
    have hbuf : ∀ j < (done + chunkOf s size done inSector).toNat,
        buffer' j = if j < done.toNat then buffer j else byteAt s l (base + j) := by
      intro j hj
      rw [← hblit]
      split
      · rename_i hjd
        exact Buffer.blit_of_lt hjd
      · rename_i hjd
        have hge := Nat.not_lt.1 hjd
        rw [hnext'] at hj
        rw [Buffer.blit_of_mem hge hj, Buffer.drop, hcopy j hge hj]
    have habove : ∀ j, size.toNat ≤ j → buffer' j = buffer j := by
      intro j hj
      rw [← hblit, Buffer.blit_of_ge (hle'.trans hj)]
    by_cases hfull : size.toNat ≤ (done + chunkOf s size done inSector).toNat
    · have hstop : readSectors s size (fat32ClusterToLba s l[k]) n (i + 1) 0 (done + chunkOf s size done inSector) buffer' =
          (done + chunkOf s size done inSector, buffer') := by
        cases n with
        | zero => rfl
        | succ n => rw [readSectors, if_pos (UInt32.le_iff_toNat_le.2 hfull)]
      rw [hstop]
      refine ⟨?_, hbuf, habove⟩
      rw [hnext] at hfull ⊢
      exact count_last hin hdone hfull
    · obtain ⟨hcount, hbytes, hrest⟩ := readSectors_spec hg hk hw n (i + 1) 0 (done + chunkOf s size done inSector) buffer'
        (by rw [hi1, Nat.add_assoc, Nat.add_comm 1]; exact hi) (by decide) (hnext'.trans_le hle') (by
          rw [hnext'] at hfull
          rw [hi1, hnext', turn_whole hchunk hfull]
          exact turn_next hpos hin)
      refine ⟨?_, fun j hj => ?_, fun j hj => (hrest j hj).trans (habove j hj)⟩
      · rw [hcount, hnext, hz, Nat.sub_zero, count_turn hin hdone]
      rw [hbytes j hj]
      by_cases hjd : j < (done + chunkOf s size done inSector).toNat
      · rw [if_pos hjd, hbuf j hjd]
      · rw [if_neg hjd, if_neg fun hc => hjd (hc.trans_le (hnext' ▸ Nat.le_add_right _ _))]

theorem readLoop_done (turns : Nat) (current inCluster done : UInt32) (buffer : Buffer)
    (h : ¬ (done < size ∧ current < fat32Eoc)) :
    readLoop s size turns current inCluster done buffer = (done, buffer) := by
  cases turns with
  | zero => rfl
  | succ turns => rw [readLoop, if_neg h]

theorem readLoop_stops (turns : Nat) (hg : Geometry s.vol limit) (hl : FatLinked s limit first l)
    {current inCluster done : UInt32}
    (hcur : (∃ hk : k < l.length, current = l[k]) ∨ k = l.length ∧ fat32Eoc ≤ current ∧ inCluster = 0)
    (hin : inCluster.toNat < csz s) (hpos : csz s * k + inCluster.toNat = base + done.toNat)
    (hdone : done.toNat ≤ size.toNat) (hstop : ¬ (done < size ∧ current < fat32Eoc)) :
    let r := readLoop s size turns current inCluster done buffer
    r.1.toNat = min size.toNat (csz s * l.length - base) ∧
      (∀ j < r.1.toNat, r.2 j = if j < done.toNat then buffer j else byteAt s l (base + j)) ∧
      ∀ j, size.toNat ≤ j → r.2 j = buffer j := by
  rw [readLoop_done turns current inCluster done buffer hstop]
  refine ⟨?_, fun j hj => by rw [if_pos hj], fun _ _ => rfl⟩
  simp only
  rw [UInt32.lt_iff_toNat_lt] at hstop
  rcases hcur with ⟨hk, rfl⟩ | ⟨rfl, -, rfl⟩
  · -- all is read
    have hnot : ¬ fat32Eoc ≤ l[k] := (hl.2 _ (List.getElem_mem hk)).lt_eoc hg
    have hfull : ¬ done.toNat < size.toNat := fun hd => hstop ⟨hd, UInt32.not_le.1 hnot⟩
    have hle : csz s * (k + 1) ≤ csz s * l.length := Nat.mul_le_mul_left _ hk
    rw [Nat.mul_succ] at hle
    omega
  · have hz : (0 : UInt32).toNat = 0 := rfl
    omega

theorem readLoop_spec (hg : Geometry s.vol limit) (hl : FatLinked s limit first l)
    (hw : ReadNoWrap base size (csz s * l.length)) : ∀ (turns k : Nat) (current inCluster done : UInt32) (buffer : Buffer),
    (∃ hk : k < l.length, current = l[k]) ∨ k = l.length ∧ fat32Eoc ≤ current ∧ inCluster = 0 →
    inCluster.toNat < csz s → csz s * k + inCluster.toNat = base + done.toNat → done.toNat ≤ size.toNat →
    size.toNat - done.toNat ≤ turns →
    let r := readLoop s size turns current inCluster done buffer
    r.1.toNat = min size.toNat (csz s * l.length - base) ∧
      (∀ j < r.1.toNat, r.2 j = if j < done.toNat then buffer j else byteAt s l (base + j)) ∧
      ∀ j, size.toNat ≤ j → r.2 j = buffer j
  | 0, k, current, inCluster, done, buffer, hcur, hin, hpos, hdone, hturns => by
    have hfull : ¬ done < size := by
      rw [UInt32.lt_iff_toNat_lt, Nat.not_lt]
      exact Nat.le_of_sub_eq_zero (Nat.le_zero.1 hturns)
    exact readLoop_stops 0 hg hl hcur hin hpos hdone fun h => hfull h.1
  | turns + 1, k, current, inCluster, done, buffer, hcur, hin, hpos, hdone, hturns => by
    by_cases hstop : ¬ (done < size ∧ current < fat32Eoc)
    · exact readLoop_stops (turns + 1) hg hl hcur hin hpos hdone hstop
    rw [Classical.not_not] at hstop
    obtain ⟨hk, rfl⟩ := hcur.resolve_right fun h => UInt32.not_le.2 hstop.2 h.2.1
    obtain ⟨hsec, hoff, hnum⟩ := sector_toNat hg hin
    have hpos' : csz s * k + (512 * (inCluster / s.bps).toNat + (inCluster % s.bps).toNat) = base + done.toNat := by
      rw [hsec, hoff, Nat.div_add_mod, hpos]
    rw [readLoop, if_pos hstop]
    simp only
    obtain ⟨hcount, hbytes, hrest⟩ := readSectors_spec hg hk hw (s.spc - inCluster / s.bps).toNat (inCluster / s.bps)
      (inCluster % s.bps) done buffer hnum (hoff ▸ Nat.mod_lt _ (by decide)) hdone hpos'
    generalize readSectors s size (fat32ClusterToLba s l[k]) (s.spc - inCluster / s.bps).toNat (inCluster / s.bps)
      (inCluster % s.bps) done buffer = r at hcount hbytes hrest ⊢
    obtain ⟨done1, buffer1⟩ := r
    simp only at hcount hbytes hrest ⊢
    rw [sectors_left hg hin] at hcount
    have hends : csz s * (k + 1) = base + (done.toNat + (csz s - inCluster.toNat)) := by
      rw [Nat.mul_succ, ← Nat.add_assoc base, ← hpos, Nat.add_assoc, Nat.add_sub_cancel' hin.le]
    by_cases hfull : size.toNat ≤ done1.toNat
    · rw [readLoop_done turns _ 0 done1 buffer1 fun h => Nat.not_lt.2 hfull (UInt32.lt_iff_toNat_lt.1 h.1)]
      have heq : done1.toNat = size.toNat := Nat.le_antisymm (hcount ▸ Nat.min_le_left _ _) hfull
      have hlen : base + size.toNat ≤ csz s * l.length := by
        refine le_trans ?_ (Nat.mul_le_mul_left (csz s) hk)
        rw [hends, ← heq, hcount]
        exact Nat.add_le_add_left (Nat.min_le_right _ _) _
      exact ⟨heq.trans (Nat.min_eq_left (Nat.le_sub_of_add_le' hlen)).symm, hbytes, hrest⟩
    · have hd1 := eq_of_min hcount hfull
      have hnext : csz s * (k + 1) = base + done1.toNat := hends.trans (congrArg (base + ·) hd1.symm)
      have hturns1 : size.toNat - done1.toNat ≤ turns := by
        rw [hd1]
        exact chunk_turns hturns (Nat.sub_pos_of_lt hin)
      have hcur' : (∃ hk' : k + 1 < l.length, fat32GetNextCluster s l[k] = l[k + 1]) ∨
          k + 1 = l.length ∧ fat32Eoc ≤ fat32GetNextCluster s l[k] ∧ (0 : UInt32) = 0 := by
        by_cases hlast : k + 1 < l.length
        · exact Or.inl ⟨hlast, hl.1.next_getElem hlast⟩
        · have hlenk : k + 1 = l.length := Nat.le_antisymm hk (Nat.not_lt.1 hlast)
          have hcat : l = l.take k ++ [l[k]] := by
            rw [List.take_append_getElem, List.take_of_length_le hlenk.ge]
          have hend := hl.1
          rw [hcat] at hend
          exact Or.inr ⟨hlenk, hend.stop_next_last, rfl⟩
      obtain ⟨hres, hall, habove⟩ := readLoop_spec hg hl hw turns (k + 1) (fat32GetNextCluster s l[k]) 0 done1 buffer1 hcur'
        hg.csz_pos hnext (Nat.not_le.1 hfull).le hturns1
      refine ⟨hres, fun j hj => ?_, fun j hj => (habove j hj).trans (hrest j hj)⟩
      rw [hall j hj]
      by_cases hjd : j < done1.toNat
      · rw [if_pos hjd, hbytes j hjd]
      · rw [if_neg hjd, if_neg fun hc => hjd (hc.trans_le (hd1 ▸ Nat.le_add_right _ _))]

theorem fat32Read_spec (buffer : Buffer) (hg : Geometry s.vol limit) (hl : Chained s limit node.inode l)
    (hlen : node.length.toNat ≤ csz s * l.length) (hcap : csz s * l.length ≤ 2 ^ 32)
    (hw : offset = 0 → min size.toNat node.length.toNat + 512 ≤ 2 ^ 32) :
    let r := fat32Read s node offset size buffer
    min size.toNat (node.length.toNat - offset.toNat) ≤ r.1.toNat ∧
      ∀ j < size.toNat, offset.toNat + j < node.length.toNat → r.2 j = byteAt s l (offset.toNat + j) := by
  rw [fat32Read]
  split
  · rename_i hge
    rw [UInt32.le_iff_toNat_le] at hge
    exact ⟨by simp only; omega, fun j hj hj' => by omega⟩
  rename_i hlt
  rw [UInt32.le_iff_toNat_le, Nat.not_le] at hlt
  have hl : FatLinked s limit node.inode l := by
    rcases hl with ⟨-, rfl⟩ | ⟨-, hl⟩
    · simp at hlen
      omega
    · exact hl
  have hk : offset.toNat / csz s < l.length := by
    rw [Nat.div_lt_iff_lt_mul hg.csz_pos, Nat.mul_comm]
    omega
  simp only
  rw [seek_eq hg, seekLoop_of_lt hl.1 hk, if_neg ((hl.2 _ (List.getElem_mem hk)).lt_eoc hg)]
  -- where the sum of offset and size wraps, the request may not be cut
  generalize hcut : (if node.length < offset + size then node.length - offset else size) = cut
  have hsub : (node.length - offset).toNat = node.length.toNat - offset.toNat :=
    UInt32.toNat_sub_of_le _ _ (UInt32.le_iff_toNat_le.2 (Nat.le_of_lt hlt))
  have hwrap : (offset + size).toNat = (offset.toNat + size.toNat) % 2 ^ 32 := UInt32.toNat_add ..
  have hsizelt := size.toNat_lt
  have hlenlt := node.length.toNat_lt
  have hge : min size.toNat (node.length.toNat - offset.toNat) ≤ cut.toNat := by
    rw [← hcut]
    split
    · rw [hsub]
      omega
    · exact Nat.min_le_left _ _
  have hread : ReadNoWrap offset.toNat cut (csz s * l.length) := by
    rcases Nat.eq_zero_or_pos offset.toNat with h0 | hpos
    · left
      have h1 := hw (UInt32.toNat_inj.1 h0)
      rw [← hcut]
      split
      · rename_i hlt'
        rw [UInt32.lt_iff_toNat_lt, hwrap] at hlt'
        rw [hsub]
        omega
      · rename_i hge'
        rw [UInt32.lt_iff_toNat_lt, hwrap] at hge'
        omega
    · exact Or.inr ⟨hpos, hcap⟩
  have hz : (0 : UInt32).toNat = 0 := rfl
  obtain ⟨hcount, hbytes, -⟩ := readLoop_spec hg hl hread cut.toNat (offset.toNat / csz s) _
    (offset % s.clusterSize) 0 buffer (Or.inl ⟨hk, rfl⟩)
    (by rw [inCluster_toNat hg]; exact Nat.mod_lt _ hg.csz_pos)
    (by rw [inCluster_toNat hg, Nat.div_add_mod]; rfl) (Nat.zero_le _) (Nat.sub_le _ _)
  refine ⟨by omega, fun j hj hj' => ?_⟩
  rw [hbytes j (by omega), if_neg (by omega)]

/-! ## Runs -/

/-- A volume, a node open on one of its files, and the last byte written at each position: 0 where none was. -/
structure FatFile where
  fat : Fat
  node : FatNode
  last : Buffer

inductive FatIo where
  | read (offset size : UInt32) (buffer : Buffer)
  | write (offset size : UInt32) (buffer : Buffer)

def FatFile.step (t : FatFile) : FatIo → FatFile
  | .read _ _ _ => t
  | .write offset size buffer =>
    let r := fat32Write t.fat t.node offset size buffer
    ⟨r.1, r.2.1, t.last.blit offset.toNat buffer size.toNat⟩

def FatAsBytes (t : FatFile) : FatIo → Prop
  | .read offset size buffer =>
    let r := fat32Read t.fat t.node offset size buffer
    min size.toNat (t.node.length.toNat - offset.toNat) ≤ r.1.toNat ∧
      ∀ j < size.toNat, offset.toNat + j < t.node.length.toNat → r.2 j = t.last (offset.toNat + j)
  | .write offset size buffer =>
    let r := fat32Write t.fat t.node offset size buffer
    r.2.2 = size ∧ r.2.1.length.toNat = max t.node.length.toNat (offset.toNat + size.toNat)

def FatFile.chain (t : FatFile) : List UInt32 := if t.node.inode = 0 then [] else t.fat.dirClusters t.node.inode

/-- A regular file of a well-formed volume: its clusters hold what was last written, and are not more than 32-bit
positions can reach. -/
structure FatFileOk (limit : Nat) (t : FatFile) : Prop where
  geometry : Geometry t.fat.vol limit
  file : ∃ d, OpenFile t.fat limit t.node t.chain d
  length : t.node.length.toNat ≤ csz t.fat * t.chain.length
  capacity : csz t.fat * t.chain.length ≤ 2 ^ 32
  bytes : ∀ pos < t.node.length.toNat, byteAt t.fat t.chain pos = t.last pos
  beyond : ∀ pos, t.node.length.toNat ≤ pos → t.last pos = 0

/-- What keeps a write from going wrong: enough free clusters; an offset inside the chain or at its end, or inside the
one cluster that is added where nothing is written; no sum that wraps; and where nothing is written, zeros from the old
length to the offset. -/
structure FatWriteMet (limit : Nat) (t : FatFile) (offset size : UInt32) : Prop where
  room : clustersAfter t.fat t.chain.length offset size - t.chain.length ≤ (freeClusters t.fat limit).card
  inside : offset.toNat ≤ csz t.fat * max t.chain.length 1 ∨
    size = 0 ∧ offset.toNat ≤ csz t.fat * (max t.chain.length 1 + 1)
  fits : offset.toNat + size.toNat < 2 ^ 32
  start : offset = 0 → size.toNat + 512 ≤ 2 ^ 32
  clean : ∀ pos, t.node.length.toNat ≤ pos → pos < offset.toNat → byteAt t.fat t.chain pos = 0

/-- A read from the start of the file is not of its last 512 bytes below 4 GiB. -/
def FatIoMet (limit : Nat) (t : FatFile) : FatIo → Prop
  | .read offset size _ => offset = 0 → min size.toNat t.node.length.toNat + 512 ≤ 2 ^ 32
  | .write offset size _ => FatWriteMet limit t offset size

theorem Chained.chain_eq {t : FatFile} (h : Chained t.fat limit t.node.inode l) (hg : Geometry t.fat.vol limit) :
    t.chain = l := by
  rw [FatFile.chain]
  rcases h with ⟨h0, rfl⟩ | ⟨hin, hl⟩
  · exact if_pos h0
  · rw [if_neg hin.ne_zero, hl.dirClusters_eq hg]

theorem Written.openFile {node' : FatNode} {l' : List UInt32} (hw : Written limit s node l s' node' l')
    (h : OpenFile s limit node l d) (hg : Geometry s.vol limit) : OpenFile s' limit node' l' d := by
  have hapart : d ∉ l' := fun hd => (hw.fresh d hd).elim h.apart h.used
  refine ⟨hw.chain, ?_, hapart, ?_, ?_⟩
  · rw [hw.pos]
    exact ⟨h.entry.inVol, by rw [hw.frame.sectorsOf]; exact h.entry.sector, h.entry.fits⟩
  · rw [hw.frame.fat d (h.entry.inVol.lt_entries hg) hapart]
    exact h.used
  · rw [hw.pos]
    exact hw.entry.cluster

theorem csz_dvd (hg : Geometry s.vol limit) : csz s ∣ 2 ^ 32 := by
  have h : 512 * s.spc.toNat ∣ 512 * 128 := Nat.mul_dvd_mul_left 512 hg.spc
  exact h.trans ⟨2 ^ 16, rfl⟩

theorem capacity_after (hg : Geometry s.vol limit) (hcap : csz s * n ≤ 2 ^ 32) (hoff : offset.toNat < 2 ^ 32)
    (hstart : startPos s (max n 1) offset + size.toNat ≤ 2 ^ 32) :
    csz s * clustersAfter s n offset size ≤ 2 ^ 32 := by
  obtain ⟨m, hm⟩ := csz_dvd hg
  have hle := hg.csz_le
  have hlt : ∀ a, csz s * a < 2 ^ 32 → csz s * (a + 1) ≤ 2 ^ 32 := by
    intro a ha
    rw [hm] at ha ⊢
    exact Nat.mul_le_mul_left _ (Nat.lt_of_mul_lt_mul_left ha)
  have hone : csz s * max n 1 ≤ 2 ^ 32 := by
    rcases Nat.le_total n 1 with h1 | h1
    · rw [Nat.max_eq_right h1]
      omega
    · rw [Nat.max_eq_left h1]
      exact hcap
  have hfor : csz s * clustersFor s (startPos s (max n 1) offset + size.toNat) ≤ 2 ^ 32 := by
    rw [hm]
    exact Nat.mul_le_mul_left _ ((clustersFor_le_iff hg).2 (hm ▸ hstart))
  rw [clustersAfter, ← Nat.mul_max_mul_left]
  refine Nat.max_le.2 ⟨?_, hfor⟩
  split
  · exact hone
  · rename_i hge
    refine hlt _ ?_
    calc csz s * max n 1 ≤ csz s * (offset.toNat / csz s) := Nat.mul_le_mul_left _ (Nat.not_lt.1 hge)
      _ ≤ offset.toNat := Nat.mul_div_le _ _
      _ < 2 ^ 32 := hoff

variable {t : FatFile}

theorem startPos_eq (h : offset.toNat ≤ csz s * n) : startPos s n offset = offset.toNat := by
  rw [startPos]
  split
  · rfl
  · rename_i hge
    have hle : csz s * n ≤ csz s * (offset.toNat / csz s) := Nat.mul_le_mul_left _ (Nat.not_lt.1 hge)
    have := Nat.mul_div_le offset.toNat (csz s)
    omega

theorem startPos_le (s : Fat) (n : Nat) (offset : UInt32) : startPos s n offset ≤ offset.toNat := by
  rw [startPos]
  split
  · exact Nat.le_refl _
  · rename_i hge
    calc csz s * n ≤ csz s * (offset.toNat / csz s) := Nat.mul_le_mul_left _ (Nat.not_lt.1 hge)
      _ ≤ offset.toNat := Nat.mul_div_le _ _

theorem FatFileOk.step_write (h : FatFileOk limit t) (hm : FatWriteMet limit t offset size) :
    FatFileOk limit (t.step (.write offset size buffer)) ∧ FatAsBytes t (.write offset size buffer) := by
  obtain ⟨d, hopen⟩ := h.file
  have hg := h.geometry
  have hfits := hm.fits
  -- data goes to the offset, or there is none
  have hstart : startPos t.fat (max t.chain.length 1) offset = offset.toNat ∨ size.toNat = 0 := by
    rcases hm.inside with hin | ⟨rfl, -⟩
    · exact Or.inl (startPos_eq hin)
    · exact Or.inr rfl
  have hle := startPos_le t.fat (max t.chain.length 1) offset
  have hnowrap : NoWrap (startPos t.fat (max t.chain.length 1) offset) size := by
    rcases hstart with heq | hzero
    · rw [heq]
      rcases Nat.eq_zero_or_pos offset.toNat with h0 | hpos
      · exact Or.inl (hm.start (UInt32.toNat_inj.1 h0))
      · exact Or.inr ⟨hpos, hfits⟩
    · left
      omega
  obtain ⟨hcount, hlength, l', hw, hlen', hbytes⟩ := fat32Write_wrote buffer hopen hg hnowrap hm.room
  have hsum : (offset + size).toNat = offset.toNat + size.toNat := by
    rw [UInt32.toNat_add, Nat.mod_eq_of_lt hfits]
  have hlength : (fat32Write t.fat t.node offset size buffer).2.1.length.toNat =
      max t.node.length.toNat (offset.toNat + size.toNat) := by
    rw [hlength, ← hsum]
    split
    · rename_i hlt
      rw [UInt32.lt_iff_toNat_lt] at hlt
      omega
    · rename_i hge
      rw [UInt32.lt_iff_toNat_lt] at hge
      omega
  refine ⟨?_, hcount, hlength⟩
  have hg' := hw.frame.geometry hg
  have hcsz : csz (fat32Write t.fat t.node offset size buffer).1 = csz t.fat := hw.frame.csz
  have hchain : (t.step (.write offset size buffer)).chain = l' := Chained.chain_eq hw.chain hg'
  have hold := h.length
  have hpre := Nat.mul_le_mul_left (csz t.fat) hw.pre.length_le
  have hreach : offset.toNat + size.toNat ≤ csz t.fat * l'.length := by
    rcases hm.inside with hin | ⟨rfl, hin⟩
    · have hfor : clustersFor t.fat (offset.toNat + size.toNat) ≤ l'.length := by
        rw [hlen', clustersAfter, startPos_eq hin]
        exact Nat.le_max_right _ _
      exact (clustersFor_le_iff hg).1 hfor
    · have hz : (0 : UInt32).toNat = 0 := rfl
      rw [hz, Nat.add_zero]
      by_cases hlt : offset.toNat / csz t.fat < max t.chain.length 1
      · have h1 : offset.toNat < csz t.fat * max t.chain.length 1 := by
          rwa [Nat.div_lt_iff_lt_mul hg.csz_pos, Nat.mul_comm] at hlt
        have h2 : max t.chain.length 1 ≤ l'.length := by
          rw [hlen', clustersAfter, if_pos hlt]
          exact Nat.le_max_left _ _
        have := Nat.mul_le_mul_left (csz t.fat) h2
        omega
      · have h2 : max t.chain.length 1 + 1 ≤ l'.length := by
          rw [hlen', clustersAfter, if_neg hlt]
          exact Nat.le_max_left _ _
        exact hin.trans (Nat.mul_le_mul_left _ h2)
  refine ⟨hg', ⟨d, ?_⟩, ?_, ?_, fun pos hpos => ?_, fun pos hpos => ?_⟩
  · rw [hchain]
    exact hw.openFile hopen hg
  · rw [hchain]
    show (fat32Write t.fat t.node offset size buffer).2.1.length.toNat ≤
      csz (fat32Write t.fat t.node offset size buffer).1 * l'.length
    rw [hlength, hcsz]
    omega
  · rw [hchain]
    show csz (fat32Write t.fat t.node offset size buffer).1 * l'.length ≤ 2 ^ 32
    rw [hcsz, hlen']
    exact capacity_after hg h.capacity offset.toNat_lt (by omega)
  · rw [hchain]
    have hpos : pos < max t.node.length.toNat (offset.toNat + size.toNat) := hlength ▸ hpos
    show byteAt (fat32Write t.fat t.node offset size buffer).1 l' pos = t.last.blit offset.toNat buffer size.toNat pos
    rw [hbytes pos]
    by_cases hin : offset.toNat ≤ pos ∧ pos < offset.toNat + size.toNat
    · have heq := hstart.resolve_right (by omega)
      rw [heq, if_pos hin, Buffer.blit_of_mem hin.1 hin.2]
    · rw [Buffer.blit, if_neg hin, if_neg (by omega)]
      by_cases hlt : pos < t.node.length.toNat
      · exact h.bytes pos hlt
      · rw [hm.clean pos (by omega) (by omega), h.beyond pos (by omega)]
  · have hpos : max t.node.length.toNat (offset.toNat + size.toNat) ≤ pos := hlength ▸ hpos
    show t.last.blit offset.toNat buffer size.toNat pos = 0
    rw [Buffer.blit_of_ge (by omega), h.beyond pos (by omega)]

theorem FatFileOk.step (h : FatFileOk limit t) (io : FatIo) (hm : FatIoMet limit t io) :
    FatFileOk limit (t.step io) ∧ FatAsBytes t io := by
  cases io with
  | read offset size buffer =>
    obtain ⟨d, hopen⟩ := h.file
    obtain ⟨hcount, hbytes⟩ := fat32Read_spec buffer h.geometry hopen.chain h.length h.capacity hm
    refine ⟨h, hcount, fun j hj hpos => ?_⟩
    rw [hbytes j hj hpos, h.bytes _ hpos]
  | write offset size buffer => exact h.step_write hm

/-- **FAT32 files are byte arrays** in every run of reads and writes that meet the condition. -/
theorem fat_files_are_byte_arrays (limit : Nat) (t : FatFile) (h : FatFileOk limit t) (ios : List FatIo)
    (hm : Run.Guarded FatFile.step (FatIoMet limit) t ios) : Run.Guarded FatFile.step FatAsBytes t ios :=
  Run.guarded_imp (P := FatFileOk limit) (fun _ io h hm => h.step io hm) ios t h hm

def blankVolume : FatVolume where
  device := 0
  partitionLba := 0
  fatStartLba := 1
  dataStartLba := 2
  rootCluster := 2
  sectorsPerCluster := 1
  bytesPerSector := 512
  fatSize := 1
  volumeId := 1

theorem blank_geometry : Geometry blankVolume 8 := by
  constructor <;> decide

def sampleFat : Fat where
  vol := blankVolume
  disk := fun x =>
    if x = 1 then Buffer.put32 (fun _ => 0) 8 fat32Eoc
    else if x = 2 then newDirent (fat32ToDosName nameA) attrArchive 0
    else fun _ => 0

def sampleFatFile : FatFile where
  fat := sampleFat
  node := { inode := 0, length := 0, impl := 2, uid := 0, gid := 0, mask := 0o666, flags := fsFile }
  last := fun _ => 0

example : fat32Finddir sampleFat 2 nameA = some sampleFatFile.node := by decide +kernel

theorem sample_open : OpenFile sampleFat 8 sampleFatFile.node [] 2 where
  chain := Or.inl ⟨rfl, rfl⟩
  entry := ⟨⟨by decide, by decide⟩, ⟨0, by decide, rfl⟩, by decide⟩
  apart := by simp
  used := by decide +kernel
  first := by decide +kernel

theorem sampleFatFile_ok : FatFileOk 8 sampleFatFile where
  geometry := blank_geometry
  file := ⟨2, sample_open⟩
  length := by decide
  capacity := by decide
  bytes := fun pos hpos => absurd hpos (Nat.not_lt_zero pos)
  beyond := fun _ _ => rfl

def sampleIos : List FatIo := [.write 510 4 fun _ => 7, .write 514 1 fun _ => 9, .read 508 7 fun _ => 0]

theorem sample_bytes_of_file : FatFileOk 8 sampleFatFile ∧ Run.Guarded FatFile.step (FatIoMet 8) sampleFatFile sampleIos ∧
    Run.Guarded FatFile.step FatAsBytes sampleFatFile sampleIos := by
  have hm : Run.Guarded FatFile.step (FatIoMet 8) sampleFatFile sampleIos := by
    refine ⟨⟨by decide +kernel, Or.inl (by decide +kernel), by decide, fun _ => by decide, fun _ _ _ => rfl⟩,
      ⟨by decide +kernel, Or.inl (by decide +kernel), by decide, fun _ => by decide, fun pos hpos hlt => ?_⟩,
      fun h0 => absurd h0 (by decide), trivial⟩
    have hlen : (sampleFatFile.step (.write 510 4 fun _ => 7)).node.length.toNat = 514 := by decide +kernel
    rw [hlen] at hpos
    exact absurd hlt (Nat.not_lt.2 hpos)
  exact ⟨sampleFatFile_ok, hm, fat_files_are_byte_arrays 8 sampleFatFile sampleFatFile_ok sampleIos hm⟩

/-- A byte at 513 of an empty file: it goes to the start of the second cluster, position 512. -/
theorem gap_shifts_data : FatFileOk 8 sampleFatFile ∧
    ¬ Run.Guarded FatFile.step FatAsBytes sampleFatFile [.write 513 1 fun _ => 9, .read 513 1 fun _ => 0] := by
  refine ⟨sampleFatFile_ok, fun h => ?_⟩
  have hread := h.2.1.2 0 (by decide) (by decide +kernel)
  revert hread
  decide +kernel

end EterOS.Fs
