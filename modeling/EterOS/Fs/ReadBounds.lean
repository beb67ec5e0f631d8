import EterOS.Fs.FatFile
import EterOS.Fs.Initrd
import EterOS.Fs.JfsFile
import EterOS.Fs.Shm
/-!
# ReadBounds — a read does not pass the end of its object

Every filesystem cuts a request that would pass the end with a sum of 32 bits.  Where offset and size add up to more
than 2 ^ 32 by no more than the length, the request is not cut, and then only what lies behind the object decides: more
of the last cluster, the rest of the twelve blocks, the next file of the image, zeros.  At the end of the largest objects
the sums of the loops wrap as well.
-/
namespace EterOS.Fs

section

variable {length offset size : UInt32} {content : Nat → UInt8} {s : Fat} {limit k n : Nat} {l : List UInt32}
  {node : FatNode}

/-- A read returns, and with it bytes of the object below its length; the buffer behind `size` stays. -/
def ReadWithin (length : Nat) (content : Nat → UInt8) (offset size : UInt32) (read : Nat → Buffer → Option (Nat × Buffer)) :
    Prop :=
  ∀ buffer, ∃ fuel n buffer', read fuel buffer = some (n, buffer') ∧ n ≤ length - offset.toNat ∧
    (∀ j < n, buffer' j = content (offset.toNat + j)) ∧ ∀ j, size.toNat ≤ j → buffer' j = buffer j

def Overlong (length offset size : UInt32) : Prop :=
  2 ^ 32 ≤ offset.toNat + size.toNat ∧ offset.toNat + size.toNat - 2 ^ 32 ≤ length.toNat

instance : Decidable (Overlong length offset size) := by
  unfold Overlong
  infer_instance

theorem cut_of_overlong (h : Overlong length offset size) :
    (if length < offset + size then length - offset else size) = size := by
  obtain ⟨h1, h2⟩ := h
  have hoff := offset.toNat_lt
  have hsize := size.toNat_lt
  rw [if_neg]
  rw [UInt32.lt_iff_toNat_lt, UInt32.toNat_add]
  omega

theorem cut_of_not_overlong (hle : offset ≤ length) (h : ¬ Overlong length offset size) :
    (if length < offset + size then length - offset else size).toNat = min size.toNat (length.toNat - offset.toNat) := by
  have hoff := offset.toNat_lt
  have hsize := size.toNat_lt
  have hlen := length.toNat_lt
  rw [Overlong] at h
  have hsub := UInt32.toNat_sub_of_le _ _ hle
  rw [UInt32.le_iff_toNat_le] at hle
  split
  · rename_i hlt
    rw [UInt32.lt_iff_toNat_lt, UInt32.toNat_add] at hlt
    rw [hsub]
    omega
  · rename_i hge
    rw [UInt32.lt_iff_toNat_lt, UInt32.toNat_add] at hge
    omega

theorem Overlong.lt (h : Overlong length offset size) : length.toNat - offset.toNat < size.toNat := by
  obtain ⟨h1, h2⟩ := h
  have hlen := length.toNat_lt
  have hoff := offset.toNat_lt
  have hsize := size.toNat_lt
  omega

theorem readWithin_none {read : Nat → Buffer → Option (Nat × Buffer)} {length : Nat}
    (h : ∀ buffer, read 0 buffer = some (0, buffer)) : ReadWithin length content offset size read :=
  fun buffer => ⟨0, 0, buffer, h buffer, Nat.zero_le _, fun j hj => absurd hj (Nat.not_lt_zero j), fun _ _ => rfl⟩

theorem readWithin_blit_iff {m length : Nat} {src : Buffer} (hm : m ≤ size.toNat)
    (hsrc : ∀ j < m, src j = content (offset.toNat + j)) :
    ReadWithin length content offset size (fun _ buffer => some (m, buffer.blit 0 src m)) ↔ m ≤ length - offset.toNat := by
  constructor
  · intro h
    obtain ⟨_, n, buffer', heq, hn, -⟩ := h fun _ => 0
    obtain ⟨rfl, -⟩ := Prod.mk.inj (Option.some.inj heq)
    exact hn
  · refine fun hle buffer => ⟨0, m, _, rfl, hle, fun j hj => ?_, fun j hj => ?_⟩
    · rw [Buffer.blit_of_mem (Nat.zero_le _) (by omega), Nat.sub_zero, hsrc j hj]
    · exact Buffer.blit_of_ge (by omega)

/-! ## The initrd -/

/-- The image ends no later than the file, where a request for the file is not cut. -/
def InitrdMet (x : Initrd) (header : InitrdHeader) (offset size : UInt32) : Prop :=
  offset ≤ header.size → Overlong header.size offset size → x.imageSize.toNat ≤ header.offset.toNat + header.size.toNat

theorem initrdRead_eq (x : Initrd) (header : InitrdHeader) (size : UInt32) (hle : offset ≤ header.size) :
    ∃ m : UInt32, m.toNat = min (if header.size < offset + size then header.size - offset else size).toNat
        (x.imageSize.toNat - (header.offset.toNat + offset.toNat)) ∧
      ∀ buffer, initrdRead x header offset size buffer =
        (m, buffer.blit 0 (x.image.drop (header.offset.toNat + offset.toNat)) m.toNat) := by
  have hnone : ∀ src buffer : Buffer, (0, buffer) = ((0 : UInt32), buffer.blit 0 src (0 : UInt32).toNat) :=
    fun src buffer => Prod.ext rfl (Buffer.blit_nothing buffer 0 src).symm
  simp only [initrdRead, if_neg (UInt32.not_lt.2 hle)]
  generalize (if header.size < offset + size then header.size - offset else size) = cut
  by_cases himg : x.imageSize ≤ header.offset
  · refine ⟨0, ?_, fun buffer => by rw [if_pos himg]; exact hnone _ _⟩
    rw [UInt32.le_iff_toNat_le] at himg
    rw [UInt32.toNat_zero]
    omega
  simp only [if_neg himg]
  rw [UInt32.le_iff_toNat_le] at himg
  by_cases hend : x.imageSize.toNat < header.offset.toNat + offset.toNat + cut.toNat
  · simp only [if_pos hend]
    by_cases hstart : x.imageSize.toNat ≤ header.offset.toNat + offset.toNat
    · refine ⟨0, ?_, fun buffer => by rw [if_pos hstart]; exact hnone _ _⟩
      rw [UInt32.toNat_zero]
      omega
    · refine ⟨x.imageSize - (header.offset + offset), ?_, fun buffer => by rw [if_neg hstart]⟩
      have himgLt := x.imageSize.toNat_lt
      have hsum : (header.offset + offset).toNat = header.offset.toNat + offset.toNat := by
        rw [UInt32.toNat_add, Nat.mod_eq_of_lt (by omega)]
      rw [UInt32.toNat_sub_of_le _ _ (UInt32.le_iff_toNat_le.2 (by rw [hsum]; omega)), hsum]
      omega
  · exact ⟨cut, by omega, fun buffer => by rw [if_neg hend]⟩

theorem initrd_readWithin_iff (x : Initrd) (header : InitrdHeader) (offset size : UInt32) :
    ReadWithin header.size.toNat (fun pos => x.image (header.offset.toNat + pos)) offset size
      (fun _ buffer => some ((initrdRead x header offset size buffer).1.toNat, (initrdRead x header offset size buffer).2)) ↔
    InitrdMet x header offset size := by
  by_cases hle : offset ≤ header.size
  · obtain ⟨m, hm, heq⟩ := initrdRead_eq x header size hle
    have hcopy : (fun _ buffer => some ((initrdRead x header offset size buffer).1.toNat,
        (initrdRead x header offset size buffer).2) : Nat → Buffer → Option (Nat × Buffer)) =
        fun _ buffer => some (m.toNat, buffer.blit 0 (x.image.drop (header.offset.toNat + offset.toNat)) m.toNat) := by
      funext _ buffer
      rw [heq]
    have hle' := UInt32.le_iff_toNat_le.1 hle
    rw [InitrdMet, forall_prop_of_true hle, hcopy, readWithin_blit_iff]
    · -- what an uncut request copies reaches the end of the image
      by_cases hover : Overlong header.size offset size
      · have hlt := hover.lt
        rw [cut_of_overlong hover] at hm
        rw [forall_prop_of_true hover]
        omega
      · rw [cut_of_not_overlong hle hover] at hm
        rw [forall_prop_of_false hover, iff_true]
        omega
    · by_cases hover : Overlong header.size offset size
      · rw [cut_of_overlong hover] at hm
        omega
      · rw [cut_of_not_overlong hle hover] at hm
        omega
    · intro j _
      rw [Buffer.drop, Nat.add_assoc]
  · rw [InitrdMet, forall_prop_of_false hle, iff_true]
    refine readWithin_none fun buffer => ?_
    rw [initrdRead, if_pos (UInt32.not_le.1 hle)]
    rfl

/-! ## JFS -/

/-- Twelve blocks end no later than the file, where a request for it is not cut. -/
def JfsMet (s : Jfs) (ino offset size : UInt32) : Prop :=
  (getInode s ino).isDirectory = false → offset < (getInode s ino).size →
    Overlong (getInode s ino).size offset size → maxBytes ≤ (getInode s ino).size.toNat

/-- What the buffer holds after `jfs_read`. -/
def jfsReadInto (s : Jfs) (ino offset size : UInt32) (_ : Nat) (buffer : Buffer) : Option (Nat × Buffer) :=
  some ((jfsRead s ino offset size).length,
    buffer.blit 0 (fun i => (jfsRead s ino offset size).getD i 0) (jfsRead s ino offset size).length)

theorem readBlocks_behind (s : Jfs) (x : Inode) {offset : Nat} (hlt : offset < 2 ^ 32) (h : maxBytes ≤ offset)
    (size turns : Nat) : readBlocks s x offset size turns 0 = [] := by
  cases turns with
  | zero => rfl
  | succ turns =>
    rw [readBlocks]
    split
    · simp only [Nat.add_zero, Nat.mod_eq_of_lt hlt]
      exact dif_neg (by rw [maxBytes] at h; omega)
    · rfl

theorem jfsRead_eq (s : Jfs) (ino size : UInt32) (hfile : (getInode s ino).isDirectory = false)
    (hlt : offset < (getInode s ino).size) :
    jfsRead s ino offset size =
      (List.range (min (if (getInode s ino).size < offset + size then (getInode s ino).size - offset else size).toNat
        (maxBytes - offset.toNat))).map fun k => byteOf s (getInode s ino) (offset.toNat + k) := by
  rw [jfsRead]
  simp only [hfile, if_neg Bool.false_ne_true, if_neg (UInt32.not_le.2 hlt)]
  generalize (if (getInode s ino).size < offset + size then (getInode s ino).size - offset else size) = cut
  by_cases hmax : offset.toNat ≤ maxBytes
  · exact readBlocks_spec s _ offset.toNat cut.toNat cut.toNat 0 hmax (Nat.zero_le _) (Nat.sub_le _ _)
  · rw [readBlocks_behind s _ offset.toNat_lt (Nat.le_of_not_le hmax), Nat.sub_eq_zero_of_le (Nat.le_of_not_le hmax),
      Nat.min_zero]
    rfl

theorem jfs_readWithin_iff (s : Jfs) (ino offset size : UInt32) :
    ReadWithin (getInode s ino).size.toNat (byteOf s (getInode s ino)) offset size (jfsReadInto s ino offset size) ↔
      JfsMet s ino offset size := by
  have hempty : jfsRead s ino offset size = [] → ReadWithin (getInode s ino).size.toNat (byteOf s (getInode s ino))
      offset size (jfsReadInto s ino offset size) := by
    intro hnil
    refine readWithin_none fun buffer => ?_
    rw [jfsReadInto, hnil]
    exact congrArg some (Prod.ext rfl (Buffer.blit_nothing buffer 0 fun i => ([] : List UInt8).getD i 0))
  rw [JfsMet]
  cases hfile : (getInode s ino).isDirectory with
  | true =>
    rw [forall_prop_of_false Bool.true_eq_false.mp, iff_true]
    refine hempty ?_
    rw [jfsRead]
    simp [hfile]
  | false =>
    rw [forall_prop_of_true rfl]
    by_cases hlt : offset < (getInode s ino).size
    · have heq := jfsRead_eq s ino size hfile hlt
      have hlen := congrArg List.length heq
      rw [List.length_map, List.length_range] at hlen
      have hlt' := UInt32.lt_iff_toNat_lt.1 hlt
      rw [forall_prop_of_true hlt]
      refine (readWithin_blit_iff ?_ fun j hj => ?_).trans ?_
      · rw [hlen]
        by_cases hover : Overlong (getInode s ino).size offset size
        · rw [cut_of_overlong hover]
          omega
        · rw [cut_of_not_overlong (UInt32.le_of_lt hlt) hover]
          omega
      · rw [hlen] at hj
        rw [heq, List.getD_eq_getElem?_getD, List.getElem?_map, List.getElem?_range hj]
        rfl
      · rw [hlen]
        by_cases hover : Overlong (getInode s ino).size offset size
        · have hmore := hover.lt
          rw [cut_of_overlong hover, forall_prop_of_true hover]
          omega
        · rw [cut_of_not_overlong (UInt32.le_of_lt hlt) hover, forall_prop_of_false hover, iff_true]
          omega
    · rw [forall_prop_of_false hlt, iff_true]
      refine hempty ?_
      rw [jfsRead]
      simp [hfile, if_pos (UInt32.not_lt.1 hlt)]

/-! ## Shared memory -/

/-- No request for the object is left uncut, nor is one from its start for its last page below 4 GiB. -/
def ShmMet (x : ShmObject) (offset size : UInt32) : Prop :=
  offset < x.size → ¬ Overlong x.size offset size ∧ (offset = 0 → min size.toNat x.size.toNat + 4096 ≤ 2 ^ 32)

theorem shm_readWithin_iff (x : ShmObject) (offset size : UInt32) : ReadWithin x.size.toNat x.byteAt offset size
      (fun fuel buffer => (shmfsRead x offset size fuel buffer).map fun r => (r.1.toNat, r.2)) ↔
    ShmMet x offset size := by
  rw [ShmMet]
  by_cases hlt : offset < x.size
  · rw [forall_prop_of_true hlt]
    have hlt' := UInt32.lt_iff_toNat_lt.1 hlt
    have hlen := x.size.toNat_lt
    simp only [shmfsRead, if_neg (UInt32.not_le.2 hlt)]
    constructor
    · intro h
      obtain ⟨fuel, n, buffer', heq, hn, -⟩ := h fun _ => 0
      obtain ⟨r, hr, hrn⟩ := Option.map_eq_some_iff.1 heq
      obtain ⟨rfl, -⟩ := Prod.mk.inj hrn
      have hge := UInt32.le_iff_toNat_le.1 (shmLoop_ge hr)
      have hnot : ¬ Overlong x.size offset size := by
        intro hover
        have hmore := hover.lt
        rw [cut_of_overlong hover] at hge
        omega
      refine ⟨hnot, fun h0 => Nat.not_lt.1 fun hwrap => ?_⟩
      have hcut := cut_of_not_overlong (UInt32.le_of_lt hlt) hnot
      subst h0
      rw [UInt32.toNat_zero, Nat.sub_zero] at hcut
      rw [shmLoop_none (by rw [hcut]; exact hwrap) fuel 0 _ rfl] at hr
      cases hr
    · rintro ⟨hnot, hwrap⟩ buffer
      have hcut := cut_of_not_overlong (UInt32.le_of_lt hlt) hnot
      generalize (if x.size < offset + size then x.size - offset else size) = cut at hcut ⊢
      have hend : offset.toNat + cut.toNat ≤ 2 ^ 32 := by omega
      have hlast : offset = 0 → cut.toNat + 4096 ≤ 2 ^ 32 := by
        intro h0
        have := hwrap h0
        omega
      obtain ⟨buffer', heq, hin, hout⟩ := shmLoop_some (x := x) hend hlast cut.toNat 0 buffer (Nat.zero_le _)
        (Nat.sub_le _ _)
      refine ⟨cut.toNat, cut.toNat, buffer', ?_, by omega, fun j hj => ?_, fun j hj => hout j (by omega)⟩
      · simp [heq]
      · rw [hin j hj]
        exact if_neg (Nat.not_lt_zero j)
  · rw [forall_prop_of_false hlt, iff_true]
    refine readWithin_none fun buffer => ?_
    rw [shmfsRead, if_pos (UInt32.not_lt.1 hlt)]
    rfl

/-! ## FAT32 -/

/-- A node of a file of a well-formed volume: its clusters hold its length, and 32-bit positions reach them. -/
structure FatHandle where
  fat : Fat
  node : FatNode
  limit : Nat
  chain : List UInt32
  geometry : Geometry fat.vol limit
  chained : Chained fat limit node.inode chain
  length : node.length.toNat ≤ csz fat * chain.length
  capacity : csz fat * chain.length ≤ 2 ^ 32

namespace FatHandle

/-- The file ends with its last cluster where a request for it is not cut, and none from its start is for its last
sector below 4 GiB. -/
def Met (x : FatHandle) (offset size : UInt32) : Prop :=
  offset < x.node.length → (Overlong x.node.length offset size → x.node.length.toNat = csz x.fat * x.chain.length) ∧
    (offset = 0 → min size.toNat x.node.length.toNat + 512 ≤ 2 ^ 32)

def read (x : FatHandle) (offset size : UInt32) (_ : Nat) (buffer : Buffer) : Option (Nat × Buffer) :=
  some ((fat32Read x.fat x.node offset size buffer).1.toNat, (fat32Read x.fat x.node offset size buffer).2)

end FatHandle

theorem readSectors_top (hg : Geometry s.vol limit) (hsize : 2 ^ 32 < size.toNat + 512) (lba : UInt32) :
    ∀ (n : Nat) (i done : UInt32) (buffer : Buffer), done.toNat % 512 = 0 → done.toNat + 512 * n ≤ 2 ^ 32 →
    (readSectors s size lba n i 0 done buffer).1.toNat = (done.toNat + 512 * n) % 2 ^ 32 ∧
      (done.toNat + 512 * n = 2 ^ 32 → 0 < n → (readSectors s size lba n i 0 done buffer).2 (2 ^ 32 - 1) =
        s.disk (lba + (i + UInt32.ofNat (n - 1))) 511)
  | 0, i, done, buffer, hdone, hend => by
    have hlt := done.toNat_lt
    rw [readSectors]
    exact ⟨by simp only; omega, fun _ h => absurd h (Nat.lt_irrefl 0)⟩
  | n + 1, i, done, buffer, hdone, hend => by
    have hlt := done.toNat_lt
    have hnot : ¬ size ≤ done := by
      rw [UInt32.le_iff_toNat_le]
      omega
    have h512 : s.bps - 0 = 512 := by
      rw [hg.bps_eq]
      rfl
    have hadd : (done + 512).toNat = (done.toNat + 512) % 2 ^ 32 := UInt32.toNat_add ..
    have hchunk : chunkOf s size done 0 = 512 := by
      rw [chunkOf, h512, if_neg]
      rw [UInt32.lt_iff_toNat_lt, hadd]
      omega
    rw [readSectors, if_neg hnot, hchunk]
    simp only
    by_cases hlast : n = 0
    · subst hlast
      rw [readSectors]
      refine ⟨by simp only; rw [hadd], fun htop _ => ?_⟩
      have hz : (0 : UInt32).toNat = 0 := rfl
      have hc : (512 : UInt32).toNat = 512 := rfl
      simp only
      rw [Buffer.blit_of_mem (by omega) (by omega), Buffer.drop, hz]
      have h1 : 0 + (2 ^ 32 - 1 - done.toNat) = 511 := by omega
      rw [h1, show i + UInt32.ofNat (0 + 1 - 1) = i from UInt32.add_zero i]
    · have hsmall : (done + 512).toNat = done.toNat + 512 := by omega
      obtain ⟨hcount, htop⟩ := readSectors_top hg hsize lba n (i + 1) (done + 512)
        (buffer.blit done.toNat ((s.disk (lba + i)).drop (0 : UInt32).toNat) (512 : UInt32).toNat) (by omega) (by omega)
      refine ⟨by omega, fun h _ => ?_⟩
      have h1 : i + 1 + UInt32.ofNat (n - 1) = i + UInt32.ofNat (n + 1 - 1) := by
        rw [show n + 1 - 1 = n - 1 + 1 by omega, UInt32.ofNat_add, UInt32.add_assoc,
          UInt32.add_comm 1 (UInt32.ofNat (n - 1))]
        rfl
      rw [htop (by omega) (by omega), h1]

/-- A read from the start of a file of 4 GiB leaves the same byte behind the last it was asked for, whatever was there. -/
theorem readLoop_top {first : UInt32} (hg : Geometry s.vol limit) (hl : FatLinked s limit first l)
    (hsize : 2 ^ 32 < size.toNat + 512) (hfull : csz s * l.length = 2 ^ 32) : ∀ (turns k : Nat) (done : UInt32)
    (hk : k < l.length), done.toNat = csz s * k → l.length - k ≤ turns →
    ∃ v, ∀ buffer, (readLoop s size turns l[k] 0 done buffer).2 (2 ^ 32 - 1) = v
  | 0, k, done, hk, hdone, hturns => by omega
  | turns + 1, k, done, hk, hdone, hturns => by
    have hcsz : csz s = 512 * s.spc.toNat := rfl
    have hspc := hg.spc_pos
    have hsucc : csz s * (k + 1) = csz s * k + csz s := Nat.mul_succ _ _
    have hle : csz s * (k + 1) ≤ csz s * l.length := Nat.mul_le_mul_left _ hk
    have hdone512 : done.toNat % 512 = 0 := by
      rw [hdone, hcsz, Nat.mul_assoc]
      exact Nat.mul_mod_right _ _
    have hgo : done < size ∧ l[k] < fat32Eoc := by
      refine ⟨?_, UInt32.not_le.1 ((hl.2 _ (List.getElem_mem hk)).lt_eoc hg)⟩
      rw [UInt32.lt_iff_toNat_lt]
      omega
    have hzero : (0 : UInt32) / s.bps = 0 ∧ (0 : UInt32) % s.bps = 0 ∧ s.spc - 0 = s.spc := by
      rw [hg.bps_eq]
      exact ⟨rfl, rfl, UInt32.sub_zero _⟩
    obtain ⟨h1, h2, h3⟩ := hzero
    have hsectors := readSectors_top hg hsize (fat32ClusterToLba s l[k]) s.spc.toNat 0 done
    by_cases hlast : k + 1 < l.length
    · have hlt : csz s * (k + 1) < 2 ^ 32 := by
        rw [← hfull]
        exact Nat.mul_lt_mul_of_pos_left hlast hg.csz_pos
      obtain ⟨v, hv⟩ := readLoop_top hg hl hsize hfull turns (k + 1) (UInt32.ofNat (csz s * (k + 1))) hlast
        (UInt32.toNat_ofNat_of_lt' hlt) (by omega)
      refine ⟨v, fun buffer => ?_⟩
      have hcount : (readSectors s size (fat32ClusterToLba s l[k]) s.spc.toNat 0 0 done buffer).1 =
          UInt32.ofNat (csz s * (k + 1)) := by
        apply UInt32.toNat_inj.1
        rw [(hsectors buffer hdone512 (by omega)).1, UInt32.toNat_ofNat_of_lt' hlt, Nat.mod_eq_of_lt (by omega)]
        omega
      rw [readLoop, if_pos hgo]
      simp only [h1, h2, h3, hcount, hl.1.next_getElem hlast]
      exact hv _
    · refine ⟨s.disk (fat32ClusterToLba s l[k] + (0 + UInt32.ofNat (s.spc.toNat - 1))) 511, fun buffer => ?_⟩
      have hlen : k + 1 = l.length := by omega
      have htop := (hsectors buffer hdone512 (by omega)).2 (by rw [← hlen] at hfull; omega) hspc
      have hcat : l = l.take k ++ [l[k]] := by
        rw [List.take_append_getElem, List.take_of_length_le (by omega)]
      have hend := hl.1
      rw [hcat] at hend
      rw [readLoop, if_pos hgo]
      simp only [h1, h2, h3]
      rw [readLoop_done turns _ 0 _ _ fun h => UInt32.not_le.2 h.2 hend.stop_next_last]
      exact htop

theorem FatHandle.read_eq (x : FatHandle) (size : UInt32) (hlt : offset < x.node.length) (buffer : Buffer)
    (hw : ReadNoWrap offset.toNat (if x.node.length < offset + size then x.node.length - offset else size)
      (csz x.fat * x.chain.length)) :
    let cut := if x.node.length < offset + size then x.node.length - offset else size
    ∃ buffer', x.read offset size 0 buffer = some (min cut.toNat (csz x.fat * x.chain.length - offset.toNat), buffer') ∧
      (∀ j < min cut.toNat (csz x.fat * x.chain.length - offset.toNat),
        buffer' j = byteAt x.fat x.chain (offset.toNat + j)) ∧
      ∀ j, cut.toNat ≤ j → buffer' j = buffer j := by
  have hg := x.geometry
  have hlt' := UInt32.lt_iff_toNat_lt.1 hlt
  have hlen := x.length
  have hl : FatLinked x.fat x.limit x.node.inode x.chain := by
    rcases x.chained with ⟨-, hnil⟩ | ⟨-, hl⟩
    · rw [hnil, List.length_nil, Nat.mul_zero] at hlen
      omega
    · exact hl
  have hk : offset.toNat / csz x.fat < x.chain.length := by
    rw [Nat.div_lt_iff_lt_mul hg.csz_pos, Nat.mul_comm]
    omega
  have hz : (0 : UInt32).toNat = 0 := rfl
  simp only [read, fat32Read, if_neg (UInt32.not_le.2 hlt)]
  rw [seek_eq hg, seekLoop_of_lt hl.1 hk, if_neg ((hl.2 _ (List.getElem_mem hk)).lt_eoc hg)]
  generalize (if x.node.length < offset + size then x.node.length - offset else size) = cut at hw ⊢
  obtain ⟨hcount, hbytes, hrest⟩ := readLoop_spec hg hl hw cut.toNat
    (offset.toNat / csz x.fat) _ (offset % x.fat.clusterSize) 0 buffer (Or.inl ⟨hk, rfl⟩)
    (by rw [inCluster_toNat hg]; exact Nat.mod_lt _ hg.csz_pos)
    (by rw [inCluster_toNat hg, Nat.div_add_mod]; rfl) (Nat.zero_le _) (Nat.sub_le _ _)
  refine ⟨_, congrArg some (Prod.ext hcount rfl), fun j hj => ?_, hrest⟩
  rw [hbytes j (by rw [hcount]; exact hj), if_neg (by omega)]

theorem FatHandle.not_readWithin (x : FatHandle) (h : 2 ^ 32 < min size.toNat x.node.length.toNat + 512) :
    ¬ ReadWithin x.node.length.toNat (byteAt x.fat x.chain) 0 size (x.read 0 size) := by
  have hg := x.geometry
  have hlen := x.length
  have hcap := x.capacity
  have hsizeLt := size.toNat_lt
  have hcsz : csz x.fat = 512 * x.fat.spc.toNat := rfl
  have hlt : (0 : UInt32) < x.node.length := by
    rw [UInt32.lt_iff_toNat_lt, UInt32.toNat_zero]
    omega
  have hl : FatLinked x.fat x.limit x.node.inode x.chain := by
    rcases x.chained with ⟨-, hnil⟩ | ⟨-, hl⟩
    · rw [hnil, List.length_nil, Nat.mul_zero] at hlen
      omega
    · exact hl
  -- the clusters reach 4 GiB
  have hfull : csz x.fat * x.chain.length = 2 ^ 32 := by
    rw [hcsz, Nat.mul_assoc] at hlen hcap ⊢
    omega
  have hk : 0 < x.chain.length := Nat.pos_of_ne_zero fun h0 => by
    rw [h0, Nat.mul_zero] at hfull
    omega
  have hcount : x.chain.length ≤ 2 ^ 32 - 512 := by
    have hspc := hg.spc_pos
    have hmul : x.chain.length ≤ x.fat.spc.toNat * x.chain.length := Nat.le_mul_of_pos_left _ hspc
    rw [hcsz, Nat.mul_assoc] at hfull
    omega
  have hnot : ¬ Overlong x.node.length 0 size := by
    rintro ⟨hover, -⟩
    rw [UInt32.toNat_zero] at hover
    omega
  have hcut := cut_of_not_overlong (UInt32.le_of_lt hlt) hnot
  rw [UInt32.toNat_zero, Nat.sub_zero] at hcut
  have hread : ∀ buffer, x.read 0 size 0 buffer =
    some ((readLoop x.fat (if x.node.length < 0 + size then x.node.length - 0 else size)
          (if x.node.length < 0 + size then x.node.length - 0 else size).toNat x.chain[0] 0 0 buffer).1.toNat,
        (readLoop x.fat (if x.node.length < 0 + size then x.node.length - 0 else size)
          (if x.node.length < 0 + size then x.node.length - 0 else size).toNat x.chain[0] 0 0 buffer).2) := by
    intro buffer
    have hseek : fat32SeekCluster x.fat x.node.inode 0 = x.chain[0] := by
      rw [seek_eq hg, UInt32.toNat_zero, Nat.zero_div]
      exact seekLoop_of_lt hl.1 hk
    have hmod : (0 : UInt32) % x.fat.clusterSize = 0 := by
      apply UInt32.toNat_inj.1
      rw [UInt32.toNat_mod, UInt32.toNat_zero, Nat.zero_mod]
    simp only [read, fat32Read, if_neg (UInt32.not_le.2 hlt), hseek, hmod, if_neg ((hl.2 _ (List.getElem_mem hk)).lt_eoc hg)]
  generalize (if x.node.length < 0 + size then x.node.length - 0 else size) = cut at hcut hread
  have hlast : 2 ^ 32 < cut.toNat + 512 := by omega
  obtain ⟨v, hv⟩ := readLoop_top hg hl hlast hfull cut.toNat 0 0 hk rfl (by omega)
  intro hwithin
  obtain ⟨fuel, n, buffer', heq, -, -, hbehind⟩ := hwithin fun _ => v + 1
  have heq : x.read 0 size 0 (fun _ => v + 1) = some (n, buffer') := heq
  rw [hread] at heq
  obtain ⟨-, rfl⟩ := Prod.mk.inj (Option.some.inj heq)
  have hbyte := hbehind (2 ^ 32 - 1) (by omega)
  rw [hv] at hbyte
  have hnat := congrArg UInt8.toNat hbyte
  rw [UInt8.toNat_add, UInt8.toNat_one] at hnat
  have := v.toNat_lt
  omega

theorem FatHandle.readWithin_iff (x : FatHandle) (offset size : UInt32) :
    ReadWithin x.node.length.toNat (byteAt x.fat x.chain) offset size (x.read offset size) ↔ x.Met offset size := by
  have hlen := x.length
  have hcap := x.capacity
  have hsizeLt := size.toNat_lt
  rw [Met]
  by_cases hlt : offset < x.node.length
  · have hlt' := UInt32.lt_iff_toNat_lt.1 hlt
    rw [forall_prop_of_true hlt]
    by_cases hover : Overlong x.node.length offset size
    · have hpos : 0 < offset.toNat := by
        obtain ⟨h1, -⟩ := hover
        omega
      have hmore := hover.lt
      have hread := fun buffer => x.read_eq size hlt buffer (Or.inr ⟨hpos, hcap⟩)
      simp only [cut_of_overlong hover] at hread
      rw [forall_prop_of_true hover]
      constructor
      · intro h
        obtain ⟨fuel, n, buffer', heq, hn, -⟩ := h fun _ => 0
        obtain ⟨buffer1, heq', -⟩ := hread fun _ => 0
        obtain ⟨rfl, -⟩ := Prod.mk.inj (Option.some.inj (heq.symm.trans heq'))
        refine ⟨by omega, fun h0 => ?_⟩
        rw [h0, UInt32.toNat_zero] at hpos
        omega
      · rintro ⟨heq, -⟩ buffer
        obtain ⟨buffer', hb, hin, hout⟩ := hread buffer
        exact ⟨0, _, buffer', hb, by omega, hin, hout⟩
    · rw [forall_prop_of_false hover, true_and]
      have hcut := cut_of_not_overlong (UInt32.le_of_lt hlt) hover
      constructor
      · rintro h rfl
        exact Nat.not_lt.1 fun htop => x.not_readWithin htop h
      · intro hmet buffer
        obtain ⟨buffer', hb, hin, hout⟩ := x.read_eq size hlt buffer (by
          rcases Nat.eq_zero_or_pos offset.toNat with h0 | hpos
          · have := hmet (UInt32.toNat_inj.1 h0)
            left
            omega
          · exact Or.inr ⟨hpos, hcap⟩)
        exact ⟨0, _, buffer', hb, by omega, hin, fun j hj => hout j (by omega)⟩
  · rw [forall_prop_of_false hlt, iff_true]
    refine readWithin_none fun buffer => ?_
    rw [read, fat32Read, if_pos (UInt32.not_lt.1 hlt)]
    rfl

end

/-! ## Every node -/

inductive ReadNode where
  | initrd (x : Initrd) (header : InitrdHeader)
  | fat (x : FatHandle)
  | jfs (s : Jfs) (ino : UInt32)
  | shm (x : ShmObject)

namespace ReadNode

def length : ReadNode → UInt32
  | initrd _ header => header.size
  | fat x => x.node.length
  | jfs s ino => (getInode s ino).size
  | shm x => x.size

def content : ReadNode → Nat → UInt8
  | initrd x header => fun pos => x.image (header.offset.toNat + pos)
  | fat x => byteAt x.fat x.chain
  | jfs s ino => byteOf s (getInode s ino)
  | shm x => x.byteAt

def read (offset size : UInt32) : ReadNode → Nat → Buffer → Option (Nat × Buffer)
  | initrd x header => fun _ buffer =>
    some ((initrdRead x header offset size buffer).1.toNat, (initrdRead x header offset size buffer).2)
  | fat x => x.read offset size
  | jfs s ino => jfsReadInto s ino offset size
  | shm x => fun fuel buffer => (shmfsRead x offset size fuel buffer).map fun r => (r.1.toNat, r.2)

def Met (offset size : UInt32) : ReadNode → Prop
  | initrd x header => InitrdMet x header offset size
  | fat x => x.Met offset size
  | jfs s ino => JfsMet s ino offset size
  | shm x => ShmMet x offset size

/-- **No read passes the end of its object**, just when the request meets the condition of its filesystem. -/
theorem reads_stay_inside (x : ReadNode) (offset size : UInt32) :
    ReadWithin x.length.toNat x.content offset size (x.read offset size) ↔ x.Met offset size := by
  cases x with
  | initrd x header => exact initrd_readWithin_iff x header offset size
  | fat x => exact x.readWithin_iff offset size
  | jfs s ino => exact jfs_readWithin_iff s ino offset size
  | shm x => exact shm_readWithin_iff x offset size

def oneByte : InitrdHeader where
  name := ⟨[97], by decide⟩
  size := 1
  offset := 140

def twoFiles : Initrd where
  image := fun i => if i = 140 then 1 else 2
  imageSize := 142
  headers := [oneByte, { name := ⟨[98], by decide⟩, size := 1, offset := 141 }]

/-- A request for 2 ^ 32 - 1 bytes at position 1 of it returns the next file. -/
theorem leaks_next_file : ¬ ReadWithin (initrd twoFiles oneByte).length.toNat (initrd twoFiles oneByte).content 1
    0xFFFFFFFF ((initrd twoFiles oneByte).read 1 0xFFFFFFFF) := by
  intro h
  obtain ⟨_, n, buffer', heq, hn, -⟩ := h fun _ => 0
  have hret : (initrdRead twoFiles oneByte 1 0xFFFFFFFF fun _ => 0).1 = 1 := by decide +kernel
  obtain ⟨rfl, -⟩ := Prod.mk.inj (Option.some.inj heq)
  rw [hret] at hn
  exact absurd hn (by decide)

end ReadNode
end EterOS.Fs
