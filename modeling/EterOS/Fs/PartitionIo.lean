import EterOS.Fs.Partition
/-!
# PartitionIo — when partition I/O keeps to its bounds

What `partition_read` and `partition_write` have done after some turns, and exactly when what they did in the end is within
the request, the partition and the caller's buffer.  A read then gives what a write before it stored.
-/
namespace EterOS.Fs

open List
open Function (update update_self update_of_ne)

variable (p : Partition)

def Partition.content (disk : Sectors) (offset : UInt32) : Buffer := fun x =>
  disk (p.startLba + UInt32.ofNat ((offset.toNat + x) / p.sectorSize.toNat)) ((offset.toNat + x) % p.sectorSize.toNat)

def Partition.position (lba : UInt32) (x : Nat) : Nat := (lba - p.startLba).toNat * p.sectorSize.toNat + x

def Partition.loaded (disk : Sectors) (offset : UInt32) (buffer : Buffer) (n : Nat) : Buffer :=
  fun x => if x < n then p.content disk offset x else buffer x

def Partition.stored (disk : Sectors) (offset : UInt32) (buffer : Buffer) (n : Nat) : Sectors := fun lba x =>
  if x < p.sectorSize.toNat ∧ offset.toNat ≤ p.position lba x ∧ p.position lba x < offset.toNat + n then
    buffer (p.position lba x - offset.toNat)
  else disk lba x

/-- No more bytes than asked for, no sector that is not in the partition, and no byte of the caller's buffer beyond the
size. -/
structure Transfer.Within (p : Partition) (size : UInt32) (t : Transfer) : Prop where
  bytes : t.bytes ≤ size
  lbas : ∀ lba ∈ t.lbas, p.startLba.toNat ≤ lba.toNat ∧ lba.toNat < p.startLba.toNat + p.sectorCount.toNat
  copies : ∀ c ∈ t.copies, c.1.toNat + c.2.toNat ≤ size.toNat

/-- A read keeps to its bounds and gives the bytes it says, whatever is on the disk and in memory. -/
def ReadsWithin (mem : Bool) (fails : Nat → Bool) (offset size : UInt32) : Prop :=
  ∀ disk sectBuf buffer, (partitionRead p mem disk fails sectBuf buffer offset size).toTransfer.Within p size ∧
    (partitionRead p mem disk fails sectBuf buffer offset size).buffer =
      p.loaded disk offset buffer (partitionRead p mem disk fails sectBuf buffer offset size).bytes.toNat

/-- A write keeps to its bounds and changes the bytes it says, whatever is on the disk and in memory. -/
def WritesWithin (mem : Bool) (readFails writeFails : Nat → Bool) (offset size : UInt32) : Prop :=
  ∀ disk sectBuf buffer, (partitionWrite p mem disk readFails writeFails sectBuf buffer offset size).toTransfer.Within p
    size ∧
    (partitionWrite p mem disk readFails writeFails sectBuf buffer offset size).disk =
      p.stored disk offset buffer (partitionWrite p mem disk readFails writeFails sectBuf buffer offset size).bytes.toNat

/-- The turns, up to the first that breaks, come to sectors of the partition only, and these have numbers of 32 bits. -/
def Request.Inside (r : Request) (stops : Nat → Bool) : Prop :=
  ∀ i < r.totalSectors.toNat, (∀ j < i, stops j = false) →
    r.startSector.toNat + i < p.sectorCount.toNat ∧ p.startLba.toNat + r.startSector.toNat + i < 2 ^ 32

/-- The request does not wrap: it has bytes and ends within 32 bits, or has none and is not at the start of a sector. -/
def Straight (offset size : UInt32) : Prop :=
  (0 < size.toNat ∧ offset.toNat + size.toNat ≤ 2 ^ 32) ∨ (size.toNat = 0 ∧ offset.toNat % p.sectorSize.toNat ≠ 0)

/-- Sector `i` of a request lies in the partition, and its number has 32 bits. -/
def Partition.Holds (offset : UInt32) (i : Nat) : Prop :=
  offset.toNat / p.sectorSize.toNat + i < p.sectorCount.toNat ∧
    p.startLba.toNat + offset.toNat / p.sectorSize.toNat + i < 2 ^ 32

/-- The sectors from the first byte to the last or the partition's end, up to a turn that breaks, have numbers of 32 bits.
Where the 2^32 bytes are sectors and the last of them is asked for, a turn breaks before the partition's end. -/
structure Partition.Numbered (offset size : UInt32) (stops : Nat → Bool) : Prop where
  lba : ∀ i, offset.toNat / p.sectorSize.toNat + i ≤ (offset.toNat + size.toNat - 1) / p.sectorSize.toNat →
    offset.toNat / p.sectorSize.toNat + i < p.sectorCount.toNat → (∀ j < i, stops j = false) →
    p.startLba.toNat + offset.toNat / p.sectorSize.toNat + i < 2 ^ 32
  last : p.sectorSize.toNat = 1 → offset.toNat + size.toNat = 2 ^ 32 →
    ∃ k, offset.toNat / p.sectorSize.toNat + k < p.sectorCount.toNat ∧ stops k = true

/-- A straight request whose sectors are numbered, or one that breaks in a sector it may come to, with no more copied than
asked for. -/
def StaysIn (offset size : UInt32) (stops : Nat → Bool) (turns : Nat) (copied : Nat → Nat) : Prop :=
  Straight p offset size ∧ p.Numbered offset size stops ∨
    ∃ k < turns, (∀ j < k, stops j = false) ∧ stops k = true ∧ p.Holds offset k ∧
      copied k * p.sectorSize.toNat ≤ offset.toNat % p.sectorSize.toNat + size.toNat

def ReadFits (mem : Bool) (fails : Nat → Bool) (offset size : UInt32) : Prop :=
  mem = false ∨ ∀ r, p.request offset size = some r → r.totalSectors.toNat = 0 ∨
    StaysIn p offset size fails r.totalSectors.toNat id

/-- What turn `i` gives to `memcpy`: the bytes before it and those of its chunk. -/
def Request.copy (r : Request) (i : Nat) : UInt32 × UInt32 :=
  (UInt32.ofNat (r.before p i), r.chunkSize p i (UInt32.ofNat (r.before p i)))

/-- Turn `i` of a write breaks before the bytes are copied. -/
def Request.readBreaks (r : Request) (readFails : Nat → Bool) (i : Nat) : Bool :=
  (r.copy p i).2 < p.sectorSize && readFails i

def Request.writeBreaks (r : Request) (readFails writeFails : Nat → Bool) (i : Nat) : Bool :=
  r.readBreaks p readFails i || writeFails i

def WriteFits (mem : Bool) (readFails writeFails : Nat → Bool) (offset size : UInt32) : Prop :=
  mem = false ∨ ∀ r, p.request offset size = some r → r.totalSectors.toNat = 0 ∨
    StaysIn p offset size (r.writeBreaks p readFails writeFails) r.totalSectors.toNat
      fun k => if r.readBreaks p readFails k then k else k + 1

/-! ## After some turns -/

structure Request.Went (r : Request) (accessed copied : Nat) (t : Transfer) : Prop where
  lbas : t.lbas = (List.range accessed).map (r.currentLba p)
  copies : t.copies = (List.range copied).map (r.copy p)

structure ReadDone (r : Request) (disk : Sectors) (offset : UInt32) (buffer : Buffer) (i : Nat) (s : Reading) : Prop where
  went : r.Went p i i s.toTransfer
  bytes : i < r.totalSectors.toNat → s.bytes = UInt32.ofNat (r.before p i)
  content : i < r.totalSectors.toNat → r.before p i < 2 ^ 32 → s.buffer = p.loaded disk offset buffer (r.before p i)
  whole : i = r.totalSectors.toNat → ∀ N, r.Regular p N → s.bytes.toNat = N ∧ s.buffer = p.loaded disk offset buffer N

structure WriteDone (r : Request) (disk : Sectors) (offset : UInt32) (buffer : Buffer) (i : Nat) (s : Writing) : Prop where
  went : r.Went p i i s.toTransfer
  bytes : i < r.totalSectors.toNat → s.bytes = UInt32.ofNat (r.before p i)
  content : i < r.totalSectors.toNat → r.before p i < 2 ^ 32 → r.startSector.toNat + i ≤ 2 ^ 32 →
    s.disk = p.stored disk offset buffer (r.before p i)
  whole : i = r.totalSectors.toNat → r.startSector.toNat + i ≤ 2 ^ 32 → ∀ N, r.Regular p N →
    s.bytes.toNat = N ∧ s.disk = p.stored disk offset buffer N

structure ReadBroke (r : Request) (disk : Sectors) (offset : UInt32) (buffer : Buffer) (i : Nat) (s : Reading) : Prop where
  went : r.Went p (i + 1) i s.toTransfer
  bytes : s.bytes = UInt32.ofNat (r.before p i)
  content : r.before p i < 2 ^ 32 → s.buffer = p.loaded disk offset buffer (r.before p i)

structure WriteBroke (r : Request) (disk : Sectors) (offset : UInt32) (buffer : Buffer) (readFails : Nat → Bool) (i : Nat)
    (s : Writing) : Prop where
  went : r.Went p (i + 1) (if r.readBreaks p readFails i then i else i + 1) s.toTransfer
  bytes : s.bytes = UInt32.ofNat (r.before p i)
  content : r.before p i < 2 ^ 32 → r.startSector.toNat + i ≤ 2 ^ 32 → s.disk = p.stored disk offset buffer (r.before p i)

variable {p} {r : Request} {offset size : UInt32} {disk : Sectors} {buffer sectBuf : Buffer} {i n N : Nat}

theorem map_range_succ {α : Type} {f : Nat → α} {l : List α} (h : l = (List.range i).map f) :
    l ++ [f i] = (List.range (i + 1)).map f := by
  rw [h, range_succ, map_append]
  rfl

theorem request_position (h : p.request offset size = some r) (i : Nat) :
    offset.toNat + r.before p i = (r.startSector.toNat + i) * p.sectorSize.toNat + (r.chunkStart i).toNat := by
  obtain ⟨hss, hS, hso, -⟩ := request_start h
  have ho := Nat.div_add_mod offset.toNat p.sectorSize.toNat
  rw [← hS, ← hso, Nat.mul_comm] at ho
  rw [Request.chunkStart_toNat, Nat.add_mul]
  unfold Request.before
  split
  · rename_i hzero
    rw [hzero]
    omega
  · have hlt := Nat.mod_lt offset.toNat hss
    have hle : p.sectorSize.toNat ≤ i * p.sectorSize.toNat := Nat.le_mul_of_pos_left _ (by omega)
    omega

theorem request_sectorOffset_lt (h : p.request offset size = some r) : r.sectorOffset.toNat < p.sectorSize.toNat := by
  obtain ⟨hss, -, hso, -⟩ := request_start h
  rw [hso]
  exact Nat.mod_lt _ hss

/-- A turn does not read over the end of its sector, where it is not the last or the request is regular. -/
theorem chunk_le (h : p.request offset size = some r) (hi : i < r.totalSectors.toNat)
    (hlast : i + 1 = r.totalSectors.toNat → ∃ N, r.Regular p N) :
    (r.chunkStart i).toNat + (r.copy p i).2.toNat ≤ p.sectorSize.toNat := by
  have hlt := request_sectorOffset_lt h
  have hstart := Request.chunkStart_lt hlt i
  by_cases hmore : i + 1 < r.totalSectors.toNat
  · unfold Request.copy
    rw [Request.chunkSize_of_lt hlt hmore]
    omega
  · have heq : i + 1 = r.totalSectors.toNat := by omega
    obtain ⟨N, hr⟩ := hlast heq
    exact (Request.chunkSize_last hr hlt heq).2

theorem copyBytes_loaded (h : p.request offset size = some r) (i : Nat)
    (hn : (r.chunkStart i).toNat + n ≤ p.sectorSize.toNat) :
    copyBytes (p.loaded disk offset buffer (r.before p i)) (r.before p i) (fillSector p (disk (r.currentLba p i)) sectBuf)
      (r.chunkStart i).toNat n = p.loaded disk offset buffer (r.before p i + n) := by
  have hpos := request_position h i
  have hss := (request_start h).1
  funext x
  unfold copyBytes Partition.loaded fillSector Partition.content Request.currentLba
  by_cases hx : r.before p i ≤ x ∧ x < r.before p i + n
  · have hlin : offset.toNat + x =
        (r.startSector.toNat + i) * p.sectorSize.toNat + ((r.chunkStart i).toNat + (x - r.before p i)) := by omega
    have hdiv : (offset.toNat + x) / p.sectorSize.toNat = r.startSector.toNat + i := by
      rw [hlin, Nat.mul_comm, Nat.mul_add_div hss, Nat.div_eq_of_lt (by omega), Nat.add_zero]
    have hmod : (offset.toNat + x) % p.sectorSize.toNat = (r.chunkStart i).toNat + (x - r.before p i) := by
      rw [hlin, Nat.mul_comm, Nat.mul_add_mod, Nat.mod_eq_of_lt (by omega)]
    rw [if_pos hx, if_pos (by omega), if_pos hx.2, hdiv, hmod, UInt32.ofNat_add, UInt32.ofNat_toNat, UInt32.add_assoc]
  · rw [if_neg hx]
    by_cases hlt : x < r.before p i
    · rw [if_pos hlt, if_pos (by omega)]
    · rw [if_neg hlt, if_neg (by omega)]

theorem bytes_succ (h : p.request offset size = some r) (hi : i + 1 < r.totalSectors.toNat) :
    UInt32.ofNat (r.before p i) + (r.copy p i).2 = UInt32.ofNat (r.before p (i + 1)) := by
  rw [Request.before_succ (request_sectorOffset_lt h) hi (UInt32.ofNat (r.before p i)), UInt32.ofNat_add, UInt32.ofNat_toNat]
  rfl

theorem ofNat_before (h : r.before p i < 2 ^ 32) : (UInt32.ofNat (r.before p i)).toNat = r.before p i := by
  rw [UInt32.toNat_ofNat', Nat.mod_eq_of_lt h]

theorem bytes_last (h : p.request offset size = some r) (hi : i + 1 = r.totalSectors.toNat) (hr : r.Regular p N) :
    r.before p i < 2 ^ 32 ∧ r.before p i + (r.copy p i).2.toNat = N ∧
    (UInt32.ofNat (r.before p i) + (r.copy p i).2).toNat = N := by
  have hsum := (Request.chunkSize_last hr (request_sectorOffset_lt h) hi).1
  have hN : N < 2 ^ 32 := hr.size ▸ r.size.toNat_lt
  have hb : r.before p i < 2 ^ 32 := by omega
  refine ⟨hb, hsum, ?_⟩
  rw [UInt32.toNat_add, ofNat_before hb]
  change (r.before p i + (r.chunkSize p i (UInt32.ofNat (r.before p i))).toNat) % 2 ^ 32 = N
  rw [hsum, Nat.mod_eq_of_lt hN]

variable {fails : Nat → Bool}

theorem readTurn_done (h : p.request offset size = some r) {s : Reading} (hi : i < r.totalSectors.toNat)
    (hs : ReadDone p r disk offset buffer i s) (hok : fails i = false) :
    (readTurn p r disk fails i s).2 = true ∧ ReadDone p r disk offset buffer (i + 1) (readTurn p r disk fails i s).1 := by
  unfold readTurn
  dsimp only
  rw [hok, if_neg Bool.false_ne_true, hs.bytes hi]
  have hcontent : (i + 1 = r.totalSectors.toNat → ∃ N, r.Regular p N) → r.before p i < 2 ^ 32 →
      copyBytes s.buffer (UInt32.ofNat (r.before p i)).toNat (fillSector p (disk (r.currentLba p i)) s.sectBuf)
        (r.chunkStart i).toNat (r.chunkSize p i (UInt32.ofNat (r.before p i))).toNat =
      p.loaded disk offset buffer (r.before p i + (r.copy p i).2.toNat) := by
    intro hlast hb
    rw [ofNat_before hb, hs.content hi hb]
    exact copyBytes_loaded h i (chunk_le h hi hlast)
  refine ⟨rfl, ⟨?_, ?_⟩, fun hmore => ?_, fun hmore hb => ?_, fun hlast N hr => ?_⟩
  · exact map_range_succ hs.went.lbas
  · exact map_range_succ hs.went.copies
  · exact bytes_succ h hmore
  · have hsucc := Request.before_succ (request_sectorOffset_lt h) hmore (UInt32.ofNat (r.before p i))
    dsimp only
    rw [hcontent (fun hc => by omega) (by omega), hsucc]
    rfl
  · obtain ⟨hb, hsum, hbytes⟩ := bytes_last h hlast hr
    refine ⟨hbytes, ?_⟩
    dsimp only
    rw [hcontent (fun _ => ⟨N, hr⟩) hb, hsum]

theorem readTurn_broke {s : Reading} (hi : i < r.totalSectors.toNat)
    (hs : ReadDone p r disk offset buffer i s) (hfail : fails i = true) :
    (readTurn p r disk fails i s).2 = false ∧ ReadBroke p r disk offset buffer i (readTurn p r disk fails i s).1 := by
  unfold readTurn
  dsimp only
  rw [hfail, if_pos rfl]
  exact ⟨rfl, ⟨map_range_succ hs.went.lbas, hs.went.copies⟩, hs.bytes hi, hs.content hi⟩

theorem update_stored (h : p.request offset size = some r) (i : Nat) (hn : (r.chunkStart i).toNat + n ≤ p.sectorSize.toNat)
    (hi : r.startSector.toNat + i < 2 ^ 32) {left : Buffer}
    (hleft : n < p.sectorSize.toNat → ∀ x < p.sectorSize.toNat,
      left x = p.stored disk offset buffer (r.before p i) (r.currentLba p i) x) :
    update (p.stored disk offset buffer (r.before p i)) (r.currentLba p i)
        (fillSector p (copyBytes left (r.chunkStart i).toNat buffer (r.before p i) n)
          (p.stored disk offset buffer (r.before p i) (r.currentLba p i))) =
      p.stored disk offset buffer (r.before p i + n) := by
  have hpos := request_position h i
  have hidx : (r.currentLba p i - p.startLba).toNat = r.startSector.toNat + i := by
    unfold Request.currentLba
    rw [UInt32.add_assoc, UInt32.add_comm p.startLba, UInt32.add_sub_cancel, UInt32.toNat_add, UInt32.toNat_ofNat']
    omega
  funext lba x
  by_cases hlba : lba = r.currentLba p i
  · rw [hlba, update_self]
    unfold fillSector copyBytes
    by_cases hx : x < p.sectorSize.toNat
    · rw [if_pos hx]
      have hposx : p.position (r.currentLba p i) x = (r.startSector.toNat + i) * p.sectorSize.toNat + x := by
        unfold Partition.position
        rw [hidx]
      by_cases hin : (r.chunkStart i).toNat ≤ x ∧ x < (r.chunkStart i).toNat + n
      · rw [if_pos hin]
        unfold Partition.stored
        rw [hposx, if_pos ⟨hx, by omega, by omega⟩]
        congr 1
        omega
      · rw [if_neg hin, hleft (by omega) x hx]
        unfold Partition.stored
        rw [hposx]
        by_cases hold : offset.toNat ≤ (r.startSector.toNat + i) * p.sectorSize.toNat + x ∧
            (r.startSector.toNat + i) * p.sectorSize.toNat + x < offset.toNat + r.before p i
        · rw [if_pos ⟨hx, hold⟩, if_pos ⟨hx, hold.1, by omega⟩]
        · rw [if_neg fun hc => hold hc.2, if_neg fun hc => hold ⟨hc.2.1, by omega⟩]
    · rw [if_neg hx]
      unfold Partition.stored
      rw [if_neg fun hc => hx hc.1, if_neg fun hc => hx hc.1]
  · rw [update_of_ne hlba]
    unfold Partition.stored
    by_cases hx : x < p.sectorSize.toNat
    · have hother : (lba - p.startLba).toNat ≠ r.startSector.toNat + i := by
        rw [← hidx]
        intro hc
        exact hlba (UInt32.sub_left_inj _ |>.1 (UInt32.toNat_inj.1 hc))
      have hne : ¬ (offset.toNat + r.before p i ≤ p.position lba x ∧
          p.position lba x < offset.toNat + (r.before p i + n)) := by
        unfold Partition.position
        rintro ⟨hlo, hhi⟩
        rcases Nat.lt_or_gt_of_ne hother with hlt | hgt
        · have := Nat.mul_le_mul_right p.sectorSize.toNat (Nat.succ_le_of_lt hlt)
          rw [Nat.succ_mul] at this
          omega
        · have := Nat.mul_le_mul_right p.sectorSize.toNat (Nat.succ_le_of_lt hgt)
          rw [Nat.succ_mul] at this
          omega
      by_cases hold : offset.toNat ≤ p.position lba x ∧ p.position lba x < offset.toNat + r.before p i
      · rw [if_pos ⟨hx, hold⟩, if_pos ⟨hx, hold.1, by omega⟩]
      · rw [if_neg fun hc => hold hc.2, if_neg fun hc => hold ⟨hc.2.1, by omega⟩]
    · rw [if_neg fun hc => hx hc.1, if_neg fun hc => hx hc.1]

variable {readFails writeFails : Nat → Bool}

theorem writeTurn_done (h : p.request offset size = some r) {s : Writing}
    (hi : i < r.totalSectors.toNat) (hs : WriteDone p r disk offset buffer i s)
    (hok : r.writeBreaks p readFails writeFails i = false) :
    (writeTurn p r buffer readFails writeFails i s).2 = true ∧
      WriteDone p r disk offset buffer (i + 1) (writeTurn p r buffer readFails writeFails i s).1 := by
  obtain ⟨hread, hwrite⟩ := Bool.or_eq_false_iff.1 hok
  unfold Request.readBreaks Request.copy at hread
  unfold writeTurn
  dsimp only
  rw [hs.bytes hi, hread, hwrite, if_neg Bool.false_ne_true, if_neg Bool.false_ne_true]
  have hcontent : (i + 1 = r.totalSectors.toNat → ∃ N, r.Regular p N) → r.before p i < 2 ^ 32 →
    r.startSector.toNat + i < 2 ^ 32 →
      update s.disk (r.currentLba p i)
        (fillSector p
          (copyBytes
            (if r.chunkSize p i (UInt32.ofNat (r.before p i)) < p.sectorSize then
              fillSector p (s.disk (r.currentLba p i)) s.sectBuf
            else s.sectBuf)
            (r.chunkStart i).toNat buffer (UInt32.ofNat (r.before p i)).toNat
            (r.chunkSize p i (UInt32.ofNat (r.before p i))).toNat)
          (s.disk (r.currentLba p i))) =
      p.stored disk offset buffer (r.before p i + (r.copy p i).2.toNat) := by
    intro hlast hb hidx
    rw [ofNat_before hb, hs.content hi hb (by omega)]
    refine update_stored h i (chunk_le h hi hlast) hidx fun hshort x hx => ?_
    have hshort' : r.chunkSize p i (UInt32.ofNat (r.before p i)) < p.sectorSize := UInt32.lt_iff_toNat_lt.2 hshort
    rw [if_pos hshort']
    unfold fillSector
    rw [if_pos hx]
  refine ⟨rfl, ⟨?_, ?_⟩, fun hmore => ?_, fun hmore hb hidx => ?_, fun hlast hidx N hr => ?_⟩
  · exact map_range_succ hs.went.lbas
  · exact map_range_succ hs.went.copies
  · exact bytes_succ h hmore
  · have hsucc := Request.before_succ (request_sectorOffset_lt h) hmore (UInt32.ofNat (r.before p i))
    dsimp only
    rw [hcontent (fun hc => by omega) (by omega) (by omega), hsucc]
    rfl
  · obtain ⟨hb, hsum, hbytes⟩ := bytes_last h hlast hr
    refine ⟨hbytes, ?_⟩
    dsimp only
    rw [hcontent (fun _ => ⟨N, hr⟩) hb (by omega), hsum]

theorem writeTurn_broke {s : Writing} (hi : i < r.totalSectors.toNat)
    (hs : WriteDone p r disk offset buffer i s) (hfail : r.writeBreaks p readFails writeFails i = true) :
    (writeTurn p r buffer readFails writeFails i s).2 = false ∧
      WriteBroke p r disk offset buffer readFails i (writeTurn p r buffer readFails writeFails i s).1 := by
  have hlbas := map_range_succ hs.went.lbas
  have hbytes := hs.bytes hi
  unfold writeTurn
  dsimp only
  cases hread : r.readBreaks p readFails i with
  | true =>
    have hread' := hread
    unfold Request.readBreaks Request.copy at hread'
    rw [hbytes, hread', if_pos rfl]
    refine ⟨rfl, ⟨hlbas, ?_⟩, rfl, hs.content hi⟩
    rw [hread, if_pos rfl]
    exact hs.went.copies
  | false =>
    have hread' := hread
    unfold Request.readBreaks Request.copy at hread'
    unfold Request.writeBreaks at hfail
    rw [hread, Bool.false_or] at hfail
    rw [hbytes, hread', if_neg Bool.false_ne_true, hfail, if_pos rfl]
    refine ⟨rfl, ⟨hlbas, ?_⟩, rfl, hs.content hi⟩
    rw [hread, if_neg Bool.false_ne_true]
    exact map_range_succ hs.went.copies

/-! ## The whole loop -/

theorem partitionRead_spec (h : p.request offset size = some r) (hT : 0 < r.totalSectors.toNat) (disk : Sectors)
    (fails : Nat → Bool) (sectBuf buffer : Buffer) :
    ((∀ j < r.totalSectors.toNat, fails j = false) ∧
        ReadDone p r disk offset buffer r.totalSectors.toNat (partitionRead p true disk fails sectBuf buffer offset size)) ∨
      ∃ k < r.totalSectors.toNat, (∀ j < k, fails j = false) ∧ fails k = true ∧
        ReadBroke p r disk offset buffer k (partitionRead p true disk fails sectBuf buffer offset size) := by
  unfold partitionRead
  rw [h]
  refine turns_spec (fun i s hi hs hok => readTurn_done h hi hs hok) (fun i s hi hs hfail => readTurn_broke hi hs hfail)
    _ 0 _ (Nat.zero_add _) (fun j hj => absurd hj (Nat.not_lt_zero _)) ⟨⟨rfl, rfl⟩, fun _ => ?_, fun _ _ => ?_, fun hc => ?_⟩
  · rw [Request.before_zero]
    rfl
  · rw [Request.before_zero]
    funext x
    exact (if_neg (Nat.not_lt_zero x)).symm
  · omega

theorem partitionWrite_spec (h : p.request offset size = some r) (hT : 0 < r.totalSectors.toNat) (disk : Sectors)
    (readFails writeFails : Nat → Bool) (sectBuf buffer : Buffer) :
    ((∀ j < r.totalSectors.toNat, r.writeBreaks p readFails writeFails j = false) ∧
        WriteDone p r disk offset buffer r.totalSectors.toNat
          (partitionWrite p true disk readFails writeFails sectBuf buffer offset size)) ∨
      ∃ k < r.totalSectors.toNat, (∀ j < k, r.writeBreaks p readFails writeFails j = false) ∧
        r.writeBreaks p readFails writeFails k = true ∧
        WriteBroke p r disk offset buffer readFails k
          (partitionWrite p true disk readFails writeFails sectBuf buffer offset size) := by
  unfold partitionWrite
  rw [h]
  refine turns_spec (fun i s hi hs hok => writeTurn_done h hi hs hok) (fun i s hi hs hfail => writeTurn_broke hi hs hfail)
    _ 0 _ (Nat.zero_add _) (fun j hj => absurd hj (Nat.not_lt_zero _))
      ⟨⟨rfl, rfl⟩, fun _ => ?_, fun _ _ _ => ?_, fun hc => ?_⟩
  · rw [Request.before_zero]
    rfl
  · rw [Request.before_zero]
    funext lba x
    exact (if_neg fun hc => by omega).symm
  · omega

/-! ## Sectors and copies -/

theorem lbas_inside_iff (h : p.request offset size = some r) (n : Nat) : (∀ lba ∈ (List.range n).map (r.currentLba p),
        p.startLba.toNat ≤ lba.toNat ∧ lba.toNat < p.startLba.toNat + p.sectorCount.toNat) ↔
      ∀ i < n, r.startSector.toNat + i < p.sectorCount.toNat ∧ p.startLba.toNat + r.startSector.toNat + i < 2 ^ 32 := by
  have hcount := (request_start h).2.2.2
  have hcount32 := p.sectorCount.toNat_lt
  have hstart := p.startLba.toNat_lt
  have hlba : ∀ i, r.startSector.toNat + i < 2 ^ 32 →
      (r.currentLba p i).toNat = (p.startLba.toNat + (r.startSector.toNat + i)) % 2 ^ 32 := by
    intro i hi
    unfold Request.currentLba
    rw [UInt32.toNat_add, UInt32.toNat_add, UInt32.toNat_ofNat']
    omega
  constructor
  · intro hall i
    induction i with
    | zero =>
      intro hi
      have hmem := hall _ (mem_map_of_mem (mem_range.2 hi))
      rw [hlba 0 (by omega)] at hmem
      omega
    | succ i ih =>
      intro hi
      have hbefore := ih (by omega)
      have hmem := hall _ (mem_map_of_mem (mem_range.2 hi))
      rw [hlba (i + 1) (by omega)] at hmem
      omega
  · intro hall lba hmem
    obtain ⟨i, hi, rfl⟩ := mem_map.1 hmem
    have hin := hall i (mem_range.1 hi)
    rw [hlba i (by omega)]
    omega

theorem Request.before_mono (p : Partition) (r : Request) {j : Nat} (h : i ≤ j) : r.before p i ≤ r.before p j :=
  Nat.sub_le_sub_right (Nat.mul_le_mul_right _ h) _

theorem copies_within_iff (h : p.request offset size = some r) (hn : n < r.totalSectors.toNat) :
    (∀ c ∈ (List.range n).map (r.copy p), c.1.toNat + c.2.toNat ≤ size.toNat) ↔
      n * p.sectorSize.toNat ≤ r.sectorOffset.toNat + size.toNat := by
  have hlt := request_sectorOffset_lt h
  have hsize := size.toNat_lt
  constructor
  · intro hall
    induction n with
    | zero =>
      rw [Nat.zero_mul]
      exact Nat.zero_le _
    | succ n ih =>
      have hbefore := ih (by omega) fun c hc => by
        obtain ⟨i, hi, rfl⟩ := mem_map.1 hc
        exact hall _ (mem_map_of_mem (mem_range.2 (by have := mem_range.1 hi; omega)))
      have hmem := hall _ (mem_map_of_mem (mem_range.2 (Nat.lt_succ_self n)))
      have hb : r.before p n < 2 ^ 32 := by
        unfold Request.before
        omega
      have hsucc := Request.before_succ hlt hn (UInt32.ofNat (r.before p n))
      unfold Request.copy at hmem
      rw [ofNat_before hb, ← hsucc] at hmem
      unfold Request.before at hmem
      omega
  · intro hle c hc
    obtain ⟨i, hi, rfl⟩ := mem_map.1 hc
    have hi := mem_range.1 hi
    have hmono := Request.before_mono p r (show i + 1 ≤ n by omega)
    have hsucc := Request.before_succ (p := p) hlt (show i + 1 < r.totalSectors.toNat by omega) (UInt32.ofNat (r.before p i))
    have hn : r.before p n ≤ size.toNat := by
      unfold Request.before
      omega
    unfold Request.copy
    rw [ofNat_before (by omega)]
    dsimp only
    omega

theorem copies_regular (h : p.request offset size = some r) (hr : r.Regular p N) :
    ∀ c ∈ (List.range r.totalSectors.toNat).map (r.copy p), c.1.toNat + c.2.toNat ≤ N := by
  have hlt := request_sectorOffset_lt h
  have hlast := bytes_last h (Nat.sub_add_cancel hr.some) hr
  intro c hc
  obtain ⟨i, hi, rfl⟩ := mem_map.1 hc
  have hi := mem_range.1 hi
  by_cases hmore : i + 1 < r.totalSectors.toNat
  · have hmono := Request.before_mono p r (show i + 1 ≤ r.totalSectors.toNat - 1 by omega)
    have hsucc := Request.before_succ (p := p) hlt hmore (UInt32.ofNat (r.before p i))
    unfold Request.copy
    rw [ofNat_before (by omega)]
    dsimp only
    omega
  · obtain rfl : i = r.totalSectors.toNat - 1 := by omega
    have hfst : (r.copy p (r.totalSectors.toNat - 1)).1.toNat = r.before p (r.totalSectors.toNat - 1) := ofNat_before hlast.1
    omega

/-! ## Requests that are not straight -/

/-- What becomes of a request that is not straight and stays in the partition to its last turn: there is nothing of it, and
bytes are copied, or one sector has all of its bytes. -/
theorem not_straight_cases (h : p.request offset size = some r) (hT : 0 < r.totalSectors.toNat)
    (hnot : ¬ Straight p offset size)
    (hin : r.startSector.toNat + (r.totalSectors.toNat - 1) < p.sectorCount.toNat) :
    (size.toNat = 0 ∧ r.sectorOffset.toNat = 0 ∧ 0 < (r.copy p 0).2.toNat) ∨
      r.totalSectors.toNat = 1 ∧ r.copy p 0 = (0, size) ∧ p.sectorSize.toNat < r.sectorOffset.toNat + size.toNat := by
  obtain ⟨hss, hS, hso, hcount⟩ := request_start h
  have hcount32 := p.sectorCount.toNat_lt
  have hzero : r.copy p 0 = (0, r.chunkSize p 0 0) := by
    unfold Request.copy
    rw [Request.before_zero]
    rfl
  by_cases hsize : size.toNat = 0
  · have hstart : offset.toNat % p.sectorSize.toNat = 0 := by
      by_contra hc
      exact hnot (Or.inr ⟨hsize, hc⟩)
    rcases request_empty_start h hsize hstart with hnone | hchunk
    · omega
    · refine Or.inl ⟨hsize, by rw [hso, hstart], ?_⟩
      rw [hzero]
      exact hchunk
  · have hwrap : 2 ^ 32 < offset.toNat + size.toNat := by
      by_contra hc
      exact hnot (Or.inl ⟨by omega, by omega⟩)
    rcases request_wraps h hwrap with hnone | ⟨hone, hrsize, hlong, hmod⟩ | hall
    · omega
    · refine Or.inr ⟨hone, ?_, hlong⟩
      have hT1 : r.totalSectors = 1 := UInt32.toNat_inj.1 hone
      have hsum : r.sectorOffset + size < p.sectorSize := by
        rw [UInt32.lt_iff_toNat_lt, UInt32.toNat_add]
        exact hmod
      rw [hzero]
      unfold Request.chunkSize Request.chunkEnd Request.chunkStart
      rw [if_pos rfl, hT1, if_pos (by decide : UInt32.ofNat 0 = 1 - 1), hrsize]
      dsimp only
      rw [UInt32.sub_zero, if_pos hsum, UInt32.add_comm, UInt32.add_sub_cancel]
    · omega

theorem straight_of_within (h : p.request offset size = some r) (hT : 0 < r.totalSectors.toNat)
      (hlbas : ∀ i < r.totalSectors.toNat, r.startSector.toNat + i < p.sectorCount.toNat ∧
      p.startLba.toNat + r.startSector.toNat + i < 2 ^ 32)
    (hcopies : ∀ c ∈ (List.range r.totalSectors.toNat).map (r.copy p), c.1.toNat + c.2.toNat ≤ size.toNat)
    (hover : r.totalSectors.toNat = 1 → r.copy p 0 = (0, size) → ¬ p.sectorSize.toNat < r.sectorOffset.toNat + size.toNat) :
    Straight p offset size := by
  by_contra hnot
  rcases not_straight_cases h hT hnot (hlbas (r.totalSectors.toNat - 1) (by omega)).1 with ⟨hzero, -, hpos⟩ |
    ⟨hone, hcopy, hlong⟩
  · have := hcopies _ (mem_map_of_mem (mem_range.2 hT))
    omega
  · exact hover hone hcopy hlong

theorem read_overruns (h : p.request offset size = some r) (hone : r.totalSectors.toNat = 1) (hcopy : r.copy p 0 = (0, size))
    (hlong : p.sectorSize.toNat < r.sectorOffset.toNat + size.toNat) (hok : fails 0 = false) :
    ¬ ReadsWithin p true fails offset size := by
  intro hall
  have hlt := request_sectorOffset_lt h
  have hchunk : r.chunkSize p 0 0 = size := by
    have := congrArg Prod.snd hcopy
    unfold Request.copy at this
    rwa [Request.before_zero] at this
  have hrun : partitionRead p true (fun _ _ => 0) fails (fun _ => 1) (fun _ => 0) offset size =
      (readTurn p r (fun _ _ => 0) fails 0 ⟨⟨0, fun _ => 1, [], []⟩, fun _ => 0⟩).1 := by
    unfold partitionRead
    rw [h]
    dsimp only
    rw [if_pos rfl, hone, turns]
    split <;> rfl
  have hbuf := congrFun (hall (fun _ _ => 0) (fun _ => 1) (fun _ => 0)).2 (p.sectorSize.toNat - r.sectorOffset.toNat)
  rw [hrun] at hbuf
  unfold readTurn at hbuf
  dsimp only at hbuf
  rw [hok, if_neg Bool.false_ne_true, hchunk] at hbuf
  have hstart : (r.chunkStart 0).toNat = r.sectorOffset.toNat := by rw [Request.chunkStart_toNat, if_pos rfl]
  have hzero : (0 : UInt32).toNat = 0 := rfl
  unfold copyBytes Partition.loaded fillSector Partition.content at hbuf
  dsimp only at hbuf
  rw [hstart, hzero, UInt32.zero_add, if_pos (by omega), if_neg (by omega), if_pos (by omega)] at hbuf
  cases hbuf

theorem write_overruns (h : p.request offset size = some r) (hone : r.totalSectors.toNat = 1)
    (hcopy : r.copy p 0 = (0, size))
    (hlong : p.sectorSize.toNat < r.sectorOffset.toNat + size.toNat)
    (hok : r.writeBreaks p readFails writeFails 0 = false) : ¬ WritesWithin p true readFails writeFails offset size := by
  intro hall
  have hlt := request_sectorOffset_lt h
  have hcount := (request_start h).2.2.2
  have hcount32 := p.sectorCount.toNat_lt
  obtain ⟨hread, hwrite⟩ := Bool.or_eq_false_iff.1 hok
  have hchunk : r.chunkSize p 0 0 = size := by
    have := congrArg Prod.snd hcopy
    unfold Request.copy at this
    rwa [Request.before_zero] at this
  unfold Request.readBreaks at hread
  rw [hcopy] at hread
  dsimp only at hread
  have hrun : partitionWrite p true (fun _ _ => 0) readFails writeFails (fun _ => 0) (fun _ => 1) offset size =
      (writeTurn p r (fun _ => 1) readFails writeFails 0 ⟨⟨0, fun _ => 0, [], []⟩, fun _ _ => 0⟩).1 := by
    unfold partitionWrite
    rw [h]
    dsimp only
    rw [if_pos rfl, hone, turns]
    split <;> rfl
  have hdisk := congrFun (congrFun (hall (fun _ _ => 0) (fun _ => 0) (fun _ => 1)).2 (r.currentLba p 0 + 1)) 0
  rw [hrun] at hdisk
  unfold writeTurn at hdisk
  dsimp only at hdisk
  rw [hchunk, hread, hwrite, if_neg Bool.false_ne_true, if_neg Bool.false_ne_true] at hdisk
  dsimp only at hdisk
  have hne : r.currentLba p 0 + 1 ≠ r.currentLba p 0 := by
    intro hc
    have := congrArg UInt32.toNat hc
    have honeNat : (1 : UInt32).toNat = 1 := rfl
    rw [UInt32.toNat_add, honeNat] at this
    have := (r.currentLba p 0).toNat_lt
    omega
  have hidx : (r.currentLba p 0 + 1 - p.startLba).toNat = r.startSector.toNat + 1 := by
    have honeNat : (1 : UInt32).toNat = 1 := rfl
    have hcancel : r.currentLba p 0 + 1 - p.startLba = r.startSector + 1 := by
      unfold Request.currentLba
      rw [show UInt32.ofNat 0 = 0 from rfl, UInt32.add_zero, UInt32.add_assoc, UInt32.add_comm p.startLba,
        UInt32.add_sub_cancel]
    rw [hcancel, UInt32.toNat_add, honeNat]
    omega
  have hpos := request_position h 0
  rw [Request.before_zero, Request.chunkStart_toNat, if_pos rfl, Nat.add_zero, Nat.add_zero] at hpos
  have hposition : p.position (r.currentLba p 0 + 1) 0 = (r.startSector.toNat + 1) * p.sectorSize.toNat := by
    unfold Partition.position
    rw [hidx, Nat.add_zero]
  rw [update_of_ne hne] at hdisk
  unfold Partition.stored at hdisk
  rw [hposition, UInt32.zero_add, Nat.succ_mul, if_pos ⟨by omega, by omega, by omega⟩] at hdisk
  cases hdisk

/-! ## Bounds -/

theorem loaded_zero : p.loaded disk offset buffer 0 = buffer := by
  funext x
  exact if_neg (Nat.not_lt_zero x)

theorem stored_zero : p.stored disk offset buffer 0 = disk := by
  funext lba x
  exact if_neg fun hc => by omega

theorem readsWithin_idle {mem : Bool}
    (h : mem = false ∨ ∀ r, p.request offset size = some r → r.totalSectors.toNat = 0) :
    ReadsWithin p mem fails offset size := by
  intro disk sectBuf buffer
  have hrun : partitionRead p mem disk fails sectBuf buffer offset size = ⟨⟨0, sectBuf, [], []⟩, buffer⟩ := by
    unfold partitionRead
    cases hr : p.request offset size with
    | none => rfl
    | some r =>
      rcases h with rfl | h
      · rfl
      · dsimp only
        rw [h r hr, turns]
        split <;> rfl
  rw [hrun]
  refine ⟨⟨UInt32.zero_le, fun lba hlba => (by cases hlba), fun c hc => (by cases hc)⟩, ?_⟩
  exact loaded_zero.symm

theorem writesWithin_idle {mem : Bool} (h : mem = false ∨ ∀ r, p.request offset size = some r → r.totalSectors.toNat = 0) :
    WritesWithin p mem readFails writeFails offset size := by
  intro disk sectBuf buffer
  have hrun : partitionWrite p mem disk readFails writeFails sectBuf buffer offset size = ⟨⟨0, sectBuf, [], []⟩, disk⟩ := by
    unfold partitionWrite
    cases hr : p.request offset size with
    | none => rfl
    | some r =>
      rcases h with rfl | h
      · rfl
      · dsimp only
        rw [h r hr, turns]
        split <;> rfl
  rw [hrun]
  refine ⟨⟨UInt32.zero_le, fun lba hlba => (by cases hlba), fun c hc => (by cases hc)⟩, ?_⟩
  exact stored_zero.symm

variable {k : Nat}

theorem inside_of_broke {stops : Nat → Bool} (hk : k < r.totalSectors.toNat) (hbefore : ∀ j < k, stops j = false)
    (hstop : stops k = true) : r.Inside p stops ↔ ∀ i < k + 1,
      r.startSector.toNat + i < p.sectorCount.toNat ∧ p.startLba.toNat + r.startSector.toNat + i < 2 ^ 32 := by
  constructor
  · exact fun h i hi => h i (by omega) fun j hj => hbefore j (by omega)
  · intro h i hi hreached
    refine h i ?_
    by_contra hc
    rw [hreached k (by omega)] at hstop
    cases hstop

theorem broke_unique {stops : Nat → Bool} {j : Nat} (hj : ∀ i < j, stops i = false) (hk : ∀ i < k, stops i = false)
    (hstopj : stops j = true) (hstopk : stops k = true) : j = k := by
  rcases Nat.lt_trichotomy j k with hlt | rfl | hgt
  · rw [hk j hlt] at hstopj
    cases hstopj
  · rfl
  · rw [hj k hgt] at hstopk
    cases hstopk

theorem regular_of_straight (h : p.request offset size = some r) (hs : Straight p offset size) :
    ∃ N ≤ size.toNat, r.Regular p N := by
  rcases hs with ⟨hpos, hfit⟩ | ⟨hzero, hinside⟩
  · exact request_regular h hpos hfit
  · exact ⟨0, Nat.zero_le _, request_empty_inside h hzero hinside⟩

theorem before_le_regular (hr : r.Regular p N) (hk : k < r.totalSectors.toNat) : r.before p k ≤ N := by
  have hmono := Request.before_mono p r (show k ≤ r.totalSectors.toNat - 1 by omega)
  have hlower := hr.lower
  have hbefore : r.before p (r.totalSectors.toNat - 1) =
    (r.totalSectors.toNat - 1) * p.sectorSize.toNat - r.sectorOffset.toNat := rfl
  omega

theorem copies_regular_of_le (h : p.request offset size = some r) (hr : r.Regular p N) (hN : N ≤ size.toNat)
    (hn : n ≤ r.totalSectors.toNat) : ∀ c ∈ (List.range n).map (r.copy p), c.1.toNat + c.2.toNat ≤ size.toNat := by
  intro c hc
  obtain ⟨i, hi, rfl⟩ := mem_map.1 hc
  have hmem := mem_map_of_mem (f := r.copy p) (mem_range.2 (Nat.lt_of_lt_of_le (mem_range.1 hi) hn))
  exact Nat.le_trans (copies_regular h hr _ hmem) hN

theorem readsWithin_of_fits (h : p.request offset size = some r) (hT : 0 < r.totalSectors.toNat) (hin : r.Inside p fails)
    (hfit : Straight p offset size ∨ ∃ k < r.totalSectors.toNat, (∀ j < k, fails j = false) ∧ fails k = true ∧
      k * p.sectorSize.toNat ≤ r.sectorOffset.toNat + size.toNat) : ReadsWithin p true fails offset size := by
  intro disk sectBuf buffer
  have hsize := size.toNat_lt
  rcases partitionRead_spec h hT disk fails sectBuf buffer with ⟨hgo, hdone⟩ | ⟨k, hk, hbefore, hstop, hbroke⟩
  · have hs : Straight p offset size := by
      rcases hfit with hs | ⟨k, hk, -, hstop, -⟩
      · exact hs
      · rw [hgo k hk] at hstop
        cases hstop
    obtain ⟨N, hN, hr⟩ := regular_of_straight h hs
    obtain ⟨hbytes, hbuffer⟩ := hdone.whole rfl N hr
    refine ⟨⟨?_, ?_, ?_⟩, ?_⟩
    · rw [UInt32.le_iff_toNat_le, hbytes]
      exact hN
    · rw [hdone.went.lbas]
      exact (lbas_inside_iff h _).2 fun i hi => hin i hi fun j hj => hgo j (by omega)
    · rw [hdone.went.copies]
      exact copies_regular_of_le h hr hN (Nat.le_refl _)
    · rw [hbytes]
      exact hbuffer
  · have hsofar : r.before p k ≤ size.toNat ∧ ∀ c ∈ (List.range k).map (r.copy p), c.1.toNat + c.2.toNat ≤ size.toNat := by
      rcases hfit with hs | ⟨k', hk', hbefore', hstop', hle⟩
      · obtain ⟨N, hN, hr⟩ := regular_of_straight h hs
        exact ⟨Nat.le_trans (before_le_regular hr hk) hN, copies_regular_of_le h hr hN (Nat.le_of_lt hk)⟩
      · obtain rfl := broke_unique hbefore' hbefore hstop' hstop
        refine ⟨?_, (copies_within_iff h hk).2 hle⟩
        unfold Request.before
        omega
    have hb : r.before p k < 2 ^ 32 := by omega
    have hbytes : (partitionRead p true disk fails sectBuf buffer offset size).bytes.toNat = r.before p k := by
      rw [hbroke.bytes, ofNat_before hb]
    refine ⟨⟨?_, ?_, ?_⟩, ?_⟩
    · rw [UInt32.le_iff_toNat_le, hbytes]
      exact hsofar.1
    · rw [hbroke.went.lbas]
      exact (lbas_inside_iff h _).2 ((inside_of_broke hk hbefore hstop).1 hin)
    · rw [hbroke.went.copies]
      exact hsofar.2
    · rw [hbytes]
      exact hbroke.content hb

theorem fits_of_readsWithin (h : p.request offset size = some r) (hT : 0 < r.totalSectors.toNat)
    (hall : ReadsWithin p true fails offset size) :
    r.Inside p fails ∧ (Straight p offset size ∨ ∃ k < r.totalSectors.toNat, (∀ j < k, fails j = false) ∧ fails k = true ∧
      k * p.sectorSize.toNat ≤ r.sectorOffset.toNat + size.toNat) := by
  obtain ⟨hwithin, -⟩ := hall (fun _ _ => 0) (fun _ => 0) (fun _ => 0)
  rcases partitionRead_spec h hT (fun _ _ => 0) fails (fun _ => 0) (fun _ => 0)
    with ⟨hgo, hdone⟩ | ⟨k, hk, hbefore, hstop, hbroke⟩
  · have hlbas := hwithin.lbas
    have hcopies := hwithin.copies
    rw [hdone.went.lbas, lbas_inside_iff h] at hlbas
    rw [hdone.went.copies] at hcopies
    exact ⟨fun i hi _ => hlbas i hi, Or.inl (straight_of_within h hT hlbas hcopies fun hone hcopy hlong =>
      read_overruns h hone hcopy hlong (hgo 0 hT) hall)⟩
  · have hlbas := hwithin.lbas
    have hcopies := hwithin.copies
    rw [hbroke.went.lbas, lbas_inside_iff h] at hlbas
    rw [hbroke.went.copies, copies_within_iff h hk] at hcopies
    exact ⟨(inside_of_broke hk hbefore hstop).2 hlbas, Or.inr ⟨k, hk, hbefore, hstop, hcopies⟩⟩

theorem writesWithin_of_fits (h : p.request offset size = some r)
    (hT : 0 < r.totalSectors.toNat) (hin : r.Inside p (r.writeBreaks p readFails writeFails))
    (hfit : Straight p offset size ∨ ∃ k < r.totalSectors.toNat, (∀ j < k, r.writeBreaks p readFails writeFails j = false) ∧
      r.writeBreaks p readFails writeFails k = true ∧
      (if r.readBreaks p readFails k then k else k + 1) * p.sectorSize.toNat ≤ r.sectorOffset.toNat + size.toNat) :
    WritesWithin p true readFails writeFails offset size := by
  intro disk sectBuf buffer
  have hsize := size.toNat_lt
  have hcount32 := p.sectorCount.toNat_lt
  have hss := (request_start h).1
  rcases partitionWrite_spec h hT disk readFails writeFails sectBuf buffer
    with ⟨hgo, hdone⟩ | ⟨k, hk, hbefore, hstop, hbroke⟩
  · have hs : Straight p offset size := by
      rcases hfit with hs | ⟨k, hk, -, hstop, -⟩
      · exact hs
      · rw [hgo k hk] at hstop
        cases hstop
    have hlast := hin (r.totalSectors.toNat - 1) (by omega) fun j hj => hgo j (by omega)
    obtain ⟨N, hN, hr⟩ := regular_of_straight h hs
    obtain ⟨hbytes, hdisk⟩ := hdone.whole rfl (by omega) N hr
    refine ⟨⟨?_, ?_, ?_⟩, ?_⟩
    · rw [UInt32.le_iff_toNat_le, hbytes]
      exact hN
    · rw [hdone.went.lbas]
      exact (lbas_inside_iff h _).2 fun i hi => hin i hi fun j hj => hgo j (by omega)
    · rw [hdone.went.copies]
      exact copies_regular_of_le h hr hN (Nat.le_refl _)
    · rw [hbytes]
      exact hdisk
  · have hreached := (inside_of_broke hk hbefore hstop).1 hin
    have hk1 : (if r.readBreaks p readFails k then k else k + 1) ≤ r.totalSectors.toNat := by split <;> omega
    have hkle : k ≤ (if r.readBreaks p readFails k then k else k + 1) := by split <;> omega
    have hsofar : r.before p k ≤ size.toNat ∧
        ∀ c ∈ (List.range (if r.readBreaks p readFails k then k else k + 1)).map (r.copy p),
        c.1.toNat + c.2.toNat ≤ size.toNat := by
      by_cases hs : Straight p offset size
      · obtain ⟨N, hN, hr⟩ := regular_of_straight h hs
        exact ⟨Nat.le_trans (before_le_regular hr hk) hN, copies_regular_of_le h hr hN hk1⟩
      · obtain ⟨k', hk', hbefore', hstop', hle⟩ := hfit.resolve_left hs
        obtain rfl := broke_unique hbefore' hbefore hstop' hstop
        have hle' := Nat.mul_le_mul_right p.sectorSize.toNat hkle
        refine ⟨?_, ?_⟩
        · unfold Request.before
          omega
        by_cases hmore : (if r.readBreaks p readFails k' then k' else k' + 1) < r.totalSectors.toNat
        · exact (copies_within_iff h hmore).2 hle
        · have hkT : r.totalSectors.toNat - 1 < k' + 1 := by
            revert hmore
            split <;> omega
          have hcopied : (if r.readBreaks p readFails k' then k' else k' + 1) = r.totalSectors.toNat := by omega
          rcases not_straight_cases h hT hs (hreached _ hkT).1 with ⟨hzero, hso, -⟩ | ⟨hone, hcopy, -⟩
          · rw [hcopied, hzero, hso, Nat.add_zero] at hle
            have := Nat.mul_pos hT hss
            omega
          · rw [hcopied, hone]
            intro c hc
            obtain ⟨i, hi, rfl⟩ := mem_map.1 hc
            obtain rfl := Nat.lt_one_iff.1 (mem_range.1 hi)
            rw [hcopy]
            exact Nat.le_of_eq (Nat.zero_add _)
    have hb : r.before p k < 2 ^ 32 := by omega
    have hbytes : (partitionWrite p true disk readFails writeFails sectBuf buffer offset size).bytes.toNat =
        r.before p k := by
      rw [hbroke.bytes, ofNat_before hb]
    refine ⟨⟨?_, ?_, ?_⟩, ?_⟩
    · rw [UInt32.le_iff_toNat_le, hbytes]
      exact hsofar.1
    · rw [hbroke.went.lbas]
      exact (lbas_inside_iff h _).2 hreached
    · rw [hbroke.went.copies]
      exact hsofar.2
    · rw [hbytes]
      have := hreached k (Nat.lt_succ_self k)
      exact hbroke.content hb (by omega)

theorem fits_of_writesWithin (h : p.request offset size = some r)
    (hT : 0 < r.totalSectors.toNat) (hall : WritesWithin p true readFails writeFails offset size) :
    r.Inside p (r.writeBreaks p readFails writeFails) ∧ (Straight p offset size ∨
      ∃ k < r.totalSectors.toNat, (∀ j < k, r.writeBreaks p readFails writeFails j = false) ∧
        r.writeBreaks p readFails writeFails k = true ∧
        (if r.readBreaks p readFails k then k else k + 1) * p.sectorSize.toNat ≤ r.sectorOffset.toNat + size.toNat) := by
  obtain ⟨hwithin, -⟩ := hall (fun _ _ => 0) (fun _ => 0) (fun _ => 0)
  have hlbas := hwithin.lbas
  have hcopies := hwithin.copies
  rcases partitionWrite_spec h hT (fun _ _ => 0) readFails writeFails (fun _ => 0) (fun _ => 0) with
    ⟨hgo, hdone⟩ | ⟨k, hk, hbefore, hstop, hbroke⟩
  · rw [hdone.went.lbas, lbas_inside_iff h] at hlbas
    rw [hdone.went.copies] at hcopies
    exact ⟨fun i hi _ => hlbas i hi, Or.inl (straight_of_within h hT hlbas hcopies fun hone hcopy hlong =>
      write_overruns h hone hcopy hlong (hgo 0 hT) hall)⟩
  · rw [hbroke.went.lbas, lbas_inside_iff h] at hlbas
    rw [hbroke.went.copies] at hcopies
    refine ⟨(inside_of_broke hk hbefore hstop).2 hlbas, ?_⟩
    by_cases hs : Straight p offset size
    · exact Or.inl hs
    refine Or.inr ⟨k, hk, hbefore, hstop, ?_⟩
    by_cases hmore : (if r.readBreaks p readFails k then k else k + 1) < r.totalSectors.toNat
    · exact (copies_within_iff h hmore).1 hcopies
    · have hkT : r.totalSectors.toNat - 1 < k + 1 := by
        revert hmore
        split <;> omega
      have hcopied : (if r.readBreaks p readFails k then k else k + 1) = r.totalSectors.toNat := by
        revert hmore
        split <;> omega
      rw [hcopied] at hcopies ⊢
      rcases not_straight_cases h hT hs (hlbas _ hkT).1 with ⟨hzero, -, hpos⟩ | ⟨hone, -, hlong⟩
      · have := hcopies _ (mem_map_of_mem (mem_range.2 hT))
        omega
      · rw [hone, Nat.one_mul]
        exact Nat.le_of_lt hlong

theorem fits_iff {mem : Bool} {W : Prop} {Q : Request → Prop}
    (hidle : (mem = false ∨ ∀ r, p.request offset size = some r → r.totalSectors.toNat = 0) → W)
    (hbusy : ∀ r, mem = true → p.request offset size = some r → 0 < r.totalSectors.toNat → (W ↔ Q r)) :
    W ↔ mem = false ∨ ∀ r, p.request offset size = some r → r.totalSectors.toNat = 0 ∨ Q r := by
  constructor
  · intro hW
    rcases Bool.eq_false_or_eq_true mem with hmem | hmem
    · refine Or.inr fun r hr => ?_
      rcases Nat.eq_zero_or_pos r.totalSectors.toNat with hT | hT
      · exact Or.inl hT
      · exact Or.inr ((hbusy r hmem hr hT).1 hW)
    · exact Or.inl hmem
  · rintro (hmem | hfits)
    · exact hidle (Or.inl hmem)
    · by_cases hnot : mem = false ∨ ∀ r, p.request offset size = some r → r.totalSectors.toNat = 0
      · exact hidle hnot
      · obtain ⟨hmem, hsome⟩ := not_or.1 hnot
        simp only [not_forall] at hsome
        obtain ⟨r, hr, hT⟩ := hsome
        exact (hbusy r (by simpa using hmem) hr (Nat.pos_of_ne_zero hT)).2 ((hfits r hr).resolve_left hT)

theorem last_lt {ss E e m : Nat} (hss : 0 < ss) (hE : ss * E + e = m - 1) (hpos : 0 < m) (hm : m ≤ 2 ^ 32)
    (h : ¬ (ss = 1 ∧ m = 2 ^ 32)) : E + 1 < 2 ^ 32 := by
  by_cases hone : ss = 1
  · rw [hone] at hE
    omega
  · have htwo : 2 * E ≤ ss * E := Nat.mul_le_mul_right _ (by omega)
    omega

/-- The turns of a straight request: as far as the partition goes, unless the end of its sectors wraps. -/
theorem straight_turns (h : p.request offset size = some r) (hs : Straight p offset size) :
    r.startSector.toNat ≤ (offset.toNat + size.toNat - 1) / p.sectorSize.toNat ∧
      if p.sectorSize.toNat = 1 ∧ offset.toNat + size.toNat = 2 ^ 32 then
        (offset.toNat + size.toNat - 1) / p.sectorSize.toNat = 2 ^ 32 - 1 ∧
        r.startSector.toNat + r.totalSectors.toNat = 2 ^ 32
      else r.startSector.toNat + r.totalSectors.toNat =
        min ((offset.toNat + size.toNat - 1) / p.sectorSize.toNat + 1) p.sectorCount.toNat := by
  obtain ⟨hss, hS, hso, hcount⟩ := request_start h
  have htotal := request_total h
  have hcount32 := p.sectorCount.toNat_lt
  have hsize32 := size.toNat_lt
  have hpos : 0 < offset.toNat + size.toNat ∧ offset.toNat + size.toNat ≤ 2 ^ 32 := by
    rcases hs with hs | ⟨hzero, hinside⟩
    · omega
    · have hlt := offset.toNat_lt
      have hne : offset.toNat ≠ 0 := fun hc => hinside (by rw [hc, Nat.zero_mod])
      omega
  have hlast : lastSector p offset size = (offset.toNat + size.toNat - 1) / p.sectorSize.toNat := by
    rcases hs with ⟨hs, hfit⟩ | ⟨hzero, -⟩
    · exact lastSector_of_pos hs hfit
    · rw [lastSector_of_zero hzero, if_neg (by omega), hzero, Nat.add_zero]
  have hSE : r.startSector.toNat ≤ (offset.toNat + size.toNat - 1) / p.sectorSize.toNat := by
    rcases hs with ⟨hs, -⟩ | ⟨hzero, hinside⟩
    · rw [hS]
      exact Nat.div_le_div_right (by omega)
    · rw [hS, Nat.le_div_iff_mul_le hss, Nat.mul_comm]
      have := Nat.div_add_mod offset.toNat p.sectorSize.toNat
      omega
  have hE := Nat.div_add_mod (offset.toNat + size.toNat - 1) p.sectorSize.toNat
  have hEmod := Nat.mod_lt (offset.toNat + size.toNat - 1) hss
  rw [hlast] at htotal
  refine ⟨hSE, ?_⟩
  generalize (offset.toNat + size.toNat - 1) / p.sectorSize.toNat = E at *
  generalize (offset.toNat + size.toNat - 1) % p.sectorSize.toNat = e at *
  split
  · rename_i hwrap
    rw [hwrap.1] at hE hEmod hS
    rw [Nat.div_one] at hS
    have hlastE : E = 2 ^ 32 - 1 := by
      rw [Nat.one_mul, Nat.lt_one_iff.1 hEmod, Nat.add_zero, hwrap.2] at hE
      exact hE
    have hSpos : 0 < r.startSector.toNat := by
      rw [hS]
      exact Nat.pos_of_ne_zero fun hc => hsize32.ne (by rw [← hwrap.2, hc, Nat.zero_add])
    subst hlastE
    refine ⟨rfl, ?_⟩
    rcases htotal with ⟨hclamp, -⟩ | ⟨-, hT, -⟩
    · exact absurd hclamp (Nat.not_lt_zero _)
    · have hS32 := r.startSector.toNat_lt
      rw [hT, wrapped_sub (n := 2 ^ 32 - 1 + 1) hS32.le hS32 (Nat.sub_lt (by decide) hSpos)]
      exact Nat.add_sub_cancel' hS32.le
  · rename_i hfits
    have hlt := last_lt hss hE hpos.1 hpos.2 hfits
    rw [Nat.mod_eq_of_lt hlt] at htotal
    rcases htotal with ⟨hclamp, hT, -⟩ | ⟨hfit, hT, -⟩
    · rw [hT, Nat.min_eq_right hclamp.le]
      exact Nat.add_sub_cancel' hcount.le
    · have hle := Nat.le_succ_of_le hSE
      rw [hT, Nat.min_eq_left hfit,
        wrapped_sub hle r.startSector.toNat_lt ((Nat.sub_le _ _).trans_lt hlt)]
      exact Nat.add_sub_cancel' hle

theorem inside_iff_numbered (h : p.request offset size = some r) (hs : Straight p offset size) (stops : Nat → Bool) :
    r.Inside p stops ↔ p.Numbered offset size stops := by
  obtain ⟨-, hS, -, hcount⟩ := request_start h
  obtain ⟨hSE, hT⟩ := straight_turns h hs
  have hcount32 := p.sectorCount.toNat_lt
  constructor
  · intro hin
    refine ⟨fun i hlast hi hreached => ?_, fun hone hend => ?_⟩
    · rw [← hS] at hlast hi ⊢
      refine (hin i ?_ hreached).2
      split at hT <;> omega
    · rw [if_pos ⟨hone, hend⟩] at hT
      rw [← hS]
      by_contra hnone
      have hbefore : ∀ j < p.sectorCount.toNat - r.startSector.toNat, stops j = false := fun j hj => by
        by_contra hstop
        exact hnone ⟨j, by omega, by simpa using hstop⟩
      have := (hin (p.sectorCount.toNat - r.startSector.toNat) (by omega) hbefore).1
      omega
  · rintro ⟨hlba, hlast⟩ i hi hreached
    rw [← hS] at hlba hlast
    have hin : r.startSector.toNat + i < p.sectorCount.toNat := by
      split at hT
      · rename_i hwrap
        obtain ⟨k, hk, hstop⟩ := hlast hwrap.1 hwrap.2
        by_contra hout
        rw [hreached k (by omega)] at hstop
        cases hstop
      · omega
    exact ⟨hin, hlba i (by split at hT <;> omega) hin hreached⟩

theorem fits_iff_inside (h : p.request offset size = some r) (stops : Nat → Bool) (copied : Nat → Nat) :
    r.Inside p stops ∧ (Straight p offset size ∨ ∃ k < r.totalSectors.toNat, (∀ j < k, stops j = false) ∧ stops k = true ∧
      copied k * p.sectorSize.toNat ≤ r.sectorOffset.toNat + size.toNat) ↔
    StaysIn p offset size stops r.totalSectors.toNat copied := by
  obtain ⟨-, hS, hso, -⟩ := request_start h
  unfold StaysIn Partition.Holds
  rw [← hS, ← hso]
  constructor
  · rintro ⟨hin, hs | ⟨k, hk, hbefore, hstop, hcopied⟩⟩
    · exact Or.inl ⟨hs, (inside_iff_numbered h hs stops).1 hin⟩
    · exact Or.inr ⟨k, hk, hbefore, hstop, hin k hk hbefore, hcopied⟩
  · rintro (⟨hs, hin⟩ | ⟨k, hk, hbefore, hstop, hholds, hcopied⟩)
    · exact ⟨(inside_iff_numbered h hs stops).2 hin, Or.inl hs⟩
    · refine ⟨(inside_of_broke hk hbefore hstop).2 fun i hi => ?_, Or.inr ⟨k, hk, hbefore, hstop, hcopied⟩⟩
      omega

/-- **Partition I/O keeps to its bounds just when the request fits**, whichever accesses fail. -/
theorem partition_io_within_iff (p : Partition) (mem : Bool) (readFails writeFails : Nat → Bool) (offset size : UInt32) :
    (ReadsWithin p mem readFails offset size ↔ ReadFits p mem readFails offset size) ∧
      (WritesWithin p mem readFails writeFails offset size ↔ WriteFits p mem readFails writeFails offset size) := by
  refine ⟨fits_iff readsWithin_idle fun r hmem hr hT => ?_, fits_iff writesWithin_idle fun r hmem hr hT => ?_⟩
  · rw [hmem, ← fits_iff_inside hr]
    exact ⟨fits_of_readsWithin hr hT, fun hfits => readsWithin_of_fits hr hT hfits.1 hfits.2⟩
  · rw [hmem, ← fits_iff_inside hr]
    exact ⟨fits_of_writesWithin hr hT, fun hfits => writesWithin_of_fits hr hT hfits.1 hfits.2⟩

/-- Two sectors, and a write of no bytes at their start: all of them are written. -/
theorem empty_write_fills_partition :
    let p : Partition := ⟨2048, 2, 512⟩
    let w := partitionWrite p true (fun _ _ => 0) (fun _ => false) (fun _ => false) (fun _ => 0) (fun _ => 1) 0 0
    w.bytes = 1024 ∧ w.disk 2049 511 = 1 ∧ ¬ WritesWithin p true (fun _ => false) (fun _ => false) 0 0 := by
  refine ⟨by decide +kernel, by decide +kernel, fun hwithin => ?_⟩
  have hbytes := (hwithin (fun _ _ => 0) (fun _ => 0) (fun _ => 1)).1.bytes
  revert hbytes
  decide +kernel

/-! ## Round trip -/

theorem inside_of_lt (hp : p.startLba.toNat + p.sectorCount.toNat ≤ 2 ^ 32) (hpos : 0 < size.toNat)
    (hfit : offset.toNat + size.toNat < 2 ^ 32) (h : p.request offset size = some r) (stops : Nat → Bool) :
    r.Inside p stops := by
  intro i hi _
  have hS := (request_start h).2.1
  have htotal := request_total h
  rw [lastSector_of_pos hpos hfit.le] at htotal
  have hle := Nat.div_le_div_right (c := p.sectorSize.toNat) (show offset.toNat ≤ offset.toNat + size.toNat - 1 by omega)
  have hlast := Nat.div_le_self (offset.toNat + size.toNat - 1) p.sectorSize.toNat
  omega

theorem content_stored (hss : 0 < p.sectorSize.toNat) {offset' : UInt32} {x : Nat} (hx : offset'.toNat + x < 2 ^ 32) :
    p.content (p.stored disk offset buffer n) offset' x =
      if offset.toNat ≤ offset'.toNat + x ∧ offset'.toNat + x < offset.toNat + n then
        buffer (offset'.toNat + x - offset.toNat)
      else p.content disk offset' x := by
  have hpos : p.position (p.startLba + UInt32.ofNat ((offset'.toNat + x) / p.sectorSize.toNat))
      ((offset'.toNat + x) % p.sectorSize.toNat) = offset'.toNat + x := by
    unfold Partition.position
    rw [UInt32.add_comm, UInt32.add_sub_cancel, UInt32.toNat_ofNat',
      Nat.mod_eq_of_lt (Nat.lt_of_le_of_lt (Nat.div_le_self _ _) hx), Nat.mul_comm, Nat.div_add_mod]
  unfold Partition.content Partition.stored
  rw [hpos]
  simp only [Nat.mod_lt _ hss, true_and]

/-- **A read gives what the write before it stored**, and elsewhere what was there: any two requests that end within 32
bits, in a partition that does, whichever accesses fail. -/
theorem partition_round_trip (hss : 0 < p.sectorSize.toNat) (hp : p.startLba.toNat + p.sectorCount.toNat ≤ 2 ^ 32)
    {offset' size' : UInt32} (hsize : 0 < size.toNat) (hfit : offset.toNat + size.toNat < 2 ^ 32) (hsize' : 0 < size'.toNat)
    (hfit' : offset'.toNat + size'.toNat < 2 ^ 32) (mem mem' : Bool) (sectBuf' buffer' : Buffer) (x : Nat) :
    let w := partitionWrite p mem disk readFails writeFails sectBuf buffer offset size
    let s := partitionRead p mem' w.disk fails sectBuf' buffer' offset' size'
    s.buffer x = if x < s.bytes.toNat then
        if offset.toNat ≤ offset'.toNat + x ∧ offset'.toNat + x < offset.toNat + w.bytes.toNat then
          buffer (offset'.toNat + x - offset.toNat)
        else p.content disk offset' x
      else buffer' x := by
  intro w s
  have hw : WritesWithin p mem readFails writeFails offset size :=
    (fits_iff (Q := fun _ => True) writesWithin_idle fun r hmem hr hT => ⟨fun _ => trivial, fun _ => hmem ▸
      writesWithin_of_fits hr hT (inside_of_lt hp hsize hfit hr _) (.inl (.inl ⟨hsize, hfit.le⟩))⟩).2
        (.inr fun _ _ => .inr trivial)
  have hr : ReadsWithin p mem' fails offset' size' :=
    (fits_iff (Q := fun _ => True) readsWithin_idle fun r hmem hr hT => ⟨fun _ => trivial, fun _ => hmem ▸
      readsWithin_of_fits hr hT (inside_of_lt hp hsize' hfit' hr _) (.inl (.inl ⟨hsize', hfit'.le⟩))⟩).2
        (.inr fun _ _ => .inr trivial)
  obtain ⟨hwithin, hbuffer⟩ := hr w.disk sectBuf' buffer'
  have hbytes : s.bytes.toNat ≤ size'.toNat := UInt32.le_iff_toNat_le.1 hwithin.bytes
  have hx : s.buffer x = if x < s.bytes.toNat then p.content w.disk offset' x else buffer' x := congrFun hbuffer x
  rw [hx, show w.disk = _ from (hw disk sectBuf buffer).2]
  split
  · exact content_stored hss (by omega)
  · rfl

theorem partition_round_trip_across :
    (partitionRead ⟨2048, 2, 512⟩ true
      (partitionWrite ⟨2048, 2, 512⟩ true (fun _ _ => 0) (fun _ => false) (fun _ => false) (fun _ => 0)
        (fun _ => 7) 510 4).disk
      (fun _ => false) (fun _ => 0) (fun _ => 0) 508 8).buffer 5 = 7 := by
  rw [partition_round_trip (by decide) (by decide) (by decide) (by decide) (by decide) (by decide)]
  decide +kernel

end EterOS.Fs
