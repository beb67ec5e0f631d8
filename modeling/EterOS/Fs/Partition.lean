import EterOS.Lib.Bytes
import EterOS.Lib.Turns
/-!
# Partition — reading and writing a partition

`partition_read` and `partition_write` (`kernel/drivers/disk/partition.c`).  Both cut a request into a turn for each sector,
in 32-bit arithmetic, and go through a buffer of one sector; a turn whose access to the disk fails ends the loop.  The memory
behind the sector buffer is there too: `memcpy` does not stop at its end.  A write the disk refuses changes nothing.
-/
namespace EterOS.Fs

open Function (update update_self update_of_ne)

structure Partition where
  startLba : UInt32
  sectorCount : UInt32
  sectorSize : UInt32

abbrev Sectors := UInt32 → Buffer

structure Request where
  startSector : UInt32
  sectorOffset : UInt32
  totalSectors : UInt32
  size : UInt32

variable (p : Partition)

/-- What both do before the loop; `none` is their return of 0. -/
def Partition.request (offset size : UInt32) : Option Request :=
  if p.sectorSize = 0 then none
  else
    let startSector := offset / p.sectorSize
    let endSector := (offset + size - 1) / p.sectorSize
    let sectorOffset := offset % p.sectorSize
    let totalSectors := endSector - startSector + 1
    if p.sectorCount ≤ startSector then none
    else if p.sectorCount < startSector + totalSectors then
      let totalSectors := p.sectorCount - startSector
      some ⟨startSector, sectorOffset, totalSectors, totalSectors * p.sectorSize - sectorOffset⟩
    else some ⟨startSector, sectorOffset, totalSectors, size⟩

def Request.chunkStart (r : Request) (i : Nat) : UInt32 := if i = 0 then r.sectorOffset else 0

def Request.chunkEnd (r : Request) (i : Nat) (bytes : UInt32) : UInt32 :=
  if UInt32.ofNat i = r.totalSectors - 1 then
    let remaining := r.size - bytes
    if r.chunkStart i + remaining < p.sectorSize then r.chunkStart i + remaining else p.sectorSize
  else p.sectorSize

def Request.chunkSize (r : Request) (i : Nat) (bytes : UInt32) : UInt32 := r.chunkEnd p i bytes - r.chunkStart i

def Request.currentLba (r : Request) (i : Nat) : UInt32 := p.startLba + r.startSector + UInt32.ofNat i

/-- `memcpy` of `n` bytes, from byte `j` of one buffer to byte `i` of another. -/
def copyBytes (dst : Buffer) (i : Nat) (src : Buffer) (j n : Nat) : Buffer :=
  fun x => if i ≤ x ∧ x < i + n then src (j + (x - i)) else dst x

def fillSector (sector buffer : Buffer) : Buffer := fun x => if x < p.sectorSize.toNat then sector x else buffer x

/-- The locals of a request: the bytes done, the sector buffer with the memory behind it, the sectors accessed so far, and
which bytes of the caller's buffer `memcpy` was given (where they start and how many they are). -/
structure Transfer where
  bytes : UInt32
  sectBuf : Buffer
  lbas : List UInt32
  copies : List (UInt32 × UInt32)

structure Reading extends Transfer where
  buffer : Buffer

structure Writing extends Transfer where
  disk : Sectors

def readTurn (r : Request) (disk : Sectors) (fails : Nat → Bool) (i : Nat) (s : Reading) : Reading × Bool :=
  let currentLba := r.currentLba p i
  let s := { s with lbas := s.lbas ++ [currentLba] }
  if fails i then (s, false)
  else
    let sectBuf := fillSector p (disk currentLba) s.sectBuf
    let chunkSize := r.chunkSize p i s.bytes
    ({ s with
        sectBuf
        buffer := copyBytes s.buffer s.bytes.toNat sectBuf (r.chunkStart i).toNat chunkSize.toNat
        copies := s.copies ++ [(s.bytes, chunkSize)]
        bytes := s.bytes + chunkSize }, true)

/-- `partition_read`; without memory for the sector buffer it returns 0. -/
def partitionRead (mem : Bool) (disk : Sectors) (fails : Nat → Bool) (sectBuf buffer : Buffer) (offset size : UInt32) :
    Reading :=
  let s := ⟨⟨0, sectBuf, [], []⟩, buffer⟩
  match p.request offset size with
  | none => s
  | some r => if mem then turns (readTurn p r disk fails) r.totalSectors.toNat 0 s else s

def writeTurn (r : Request) (buffer : Buffer) (readFails writeFails : Nat → Bool) (i : Nat) (s : Writing) : Writing × Bool :=
  let currentLba := r.currentLba p i
  let chunkSize := r.chunkSize p i s.bytes
  let s := { s with lbas := s.lbas ++ [currentLba] }
  -- read-modify-write, unless the whole sector is written
  if chunkSize < p.sectorSize && readFails i then (s, false)
  else
    let sectBuf := if chunkSize < p.sectorSize then fillSector p (s.disk currentLba) s.sectBuf else s.sectBuf
    let sectBuf := copyBytes sectBuf (r.chunkStart i).toNat buffer s.bytes.toNat chunkSize.toNat
    let s := { s with sectBuf, copies := s.copies ++ [(s.bytes, chunkSize)] }
    if writeFails i then (s, false)
    else
      ({ s with
          disk := update s.disk currentLba (fillSector p sectBuf (s.disk currentLba))
          bytes := s.bytes + chunkSize }, true)

def partitionWrite (mem : Bool) (disk : Sectors) (readFails writeFails : Nat → Bool) (sectBuf buffer : Buffer)
    (offset size : UInt32) : Writing :=
  let s := ⟨⟨0, sectBuf, [], []⟩, disk⟩
  match p.request offset size with
  | none => s
  | some r => if mem then turns (writeTurn p r buffer readFails writeFails) r.totalSectors.toNat 0 s else s

/-! ## Chunks -/

variable {p} {r : Request} {i N : Nat} {b : UInt32} {offset size : UInt32}

/-- The bytes of the turns before turn `i`, where all of them go to the end of their sectors. -/
def Request.before (p : Partition) (r : Request) (i : Nat) : Nat := i * p.sectorSize.toNat - r.sectorOffset.toNat

structure Request.Regular (p : Partition) (r : Request) (N : Nat) : Prop where
  some : 0 < r.totalSectors.toNat
  lower : (r.totalSectors.toNat - 1) * p.sectorSize.toNat ≤ r.sectorOffset.toNat + N
  upper : r.sectorOffset.toNat + N ≤ r.totalSectors.toNat * p.sectorSize.toNat
  size : r.size.toNat = N

theorem Request.chunkStart_toNat (r : Request) (i : Nat) : (r.chunkStart i).toNat = if i = 0 then r.sectorOffset.toNat
    else 0 := by
  unfold Request.chunkStart
  split <;> rfl

theorem Request.chunkStart_lt (h : r.sectorOffset.toNat < p.sectorSize.toNat) (i : Nat) :
    (r.chunkStart i).toNat < p.sectorSize.toNat := by
  rw [Request.chunkStart_toNat]
  split <;> omega

theorem Request.before_zero : r.before p 0 = 0 := by
  unfold Request.before
  rw [Nat.zero_mul, Nat.zero_sub]

theorem Request.chunkSize_of_lt (h : r.sectorOffset.toNat < p.sectorSize.toNat) (hi : i + 1 < r.totalSectors.toNat)
    (b : UInt32) :
    (r.chunkSize p i b).toNat = p.sectorSize.toNat - (r.chunkStart i).toNat := by
  have hstart := Request.chunkStart_lt h i
  have hlast : UInt32.ofNat i ≠ r.totalSectors - 1 := by
    intro heq
    have hnat := congrArg UInt32.toNat heq
    rw [UInt32.toNat_ofNat', UInt32.toNat_sub] at hnat
    have := r.totalSectors.toNat_lt
    have hone : (1 : UInt32).toNat = 1 := rfl
    omega
  unfold Request.chunkSize Request.chunkEnd
  rw [if_neg hlast, UInt32.toNat_sub]
  have := p.sectorSize.toNat_lt
  omega

theorem Request.before_succ (h : r.sectorOffset.toNat < p.sectorSize.toNat) (hi : i + 1 < r.totalSectors.toNat)
    (b : UInt32) :
    r.before p (i + 1) = r.before p i + (r.chunkSize p i b).toNat := by
  rw [Request.chunkSize_of_lt h hi, Request.chunkStart_toNat]
  unfold Request.before
  rw [Nat.succ_mul]
  split
  · rename_i hzero
    rw [hzero]
    omega
  · have hle : p.sectorSize.toNat ≤ i * p.sectorSize.toNat := Nat.le_mul_of_pos_left _ (by omega)
    omega

theorem Request.before_add (h : r.sectorOffset.toNat < p.sectorSize.toNat) (i : Nat) :
    r.before p i + r.sectorOffset.toNat = i * p.sectorSize.toNat + (r.chunkStart i).toNat := by
  rw [Request.chunkStart_toNat, Request.before]
  split
  · rename_i hzero
    rw [hzero, Nat.zero_mul, Nat.zero_sub]
  · rename_i hi
    exact Nat.sub_add_cancel (h.le.trans (Nat.le_mul_of_pos_left _ (Nat.pos_of_ne_zero hi)))

theorem chunk_fits {before at' start skip ss N : Nat} (hcs : before + skip = at' + start) (hleft : before ≤ N)
    (hupper : skip + N ≤ at' + ss) : start + (N - before) ≤ ss := by
  omega

theorem Request.chunkSize_last (hr : r.Regular p N) (h : r.sectorOffset.toNat < p.sectorSize.toNat)
    (hi : i + 1 = r.totalSectors.toNat) :
    r.before p i + (r.chunkSize p i (UInt32.ofNat (r.before p i))).toNat = N ∧
      (r.chunkStart i).toNat + (r.chunkSize p i (UInt32.ofNat (r.before p i))).toNat ≤ p.sectorSize.toNat := by
  have hone : (1 : UInt32) ≤ r.totalSectors := UInt32.le_iff_toNat_le.2 hr.some
  have hlast : UInt32.ofNat i = r.totalSectors - 1 := by
    apply UInt32.toNat_inj.1
    rw [UInt32.toNat_ofNat_of_lt' ((Nat.lt_of_succ_le hi.le).trans r.totalSectors.toNat_lt),
      UInt32.toNat_sub_of_le _ _ hone, ← hi]
    rfl
  have hlower := hr.lower
  have hupper := hr.upper
  rw [← hi, Nat.add_sub_cancel] at hlower
  rw [← hi, Nat.succ_mul] at hupper
  have hcs := Request.before_add h i
  -- what is left fits behind where the sector is entered
  have hleft : r.before p i ≤ N := Nat.sub_le_iff_le_add'.2 hlower
  have hfit : (r.chunkStart i).toNat + (N - r.before p i) ≤ p.sectorSize.toNat := chunk_fits hcs hleft hupper
  have hb : (UInt32.ofNat (r.before p i)).toNat = r.before p i :=
    UInt32.toNat_ofNat_of_lt' (hleft.trans_lt (hr.size ▸ r.size.toNat_lt))
  have hremaining : (r.size - UInt32.ofNat (r.before p i)).toNat = N - r.before p i := by
    rw [UInt32.toNat_sub_of_le _ _ (UInt32.le_iff_toNat_le.2 (by rwa [hb, hr.size])), hb, hr.size]
  have hsum : (r.chunkStart i + (r.size - UInt32.ofNat (r.before p i))).toNat =
      (r.chunkStart i).toNat + (N - r.before p i) := by
    rw [UInt32.toNat_add, hremaining, Nat.mod_eq_of_lt (hfit.trans_lt p.sectorSize.toNat_lt)]
  unfold Request.chunkSize Request.chunkEnd
  rw [if_pos hlast]
  dsimp only
  split
  · rw [UInt32.toNat_sub_of_le _ _ (UInt32.le_iff_toNat_le.2 (by rw [hsum]; exact Nat.le_add_right _ _)), hsum,
      Nat.add_sub_cancel_left]
    exact ⟨Nat.add_sub_cancel' hleft, hfit⟩
  · rename_i hlong
    rw [UInt32.lt_iff_toNat_lt, hsum, Nat.not_lt] at hlong
    have hlt := Request.chunkStart_lt h i
    rw [UInt32.toNat_sub_of_le _ _ (UInt32.le_iff_toNat_le.2 hlt.le), ← Nat.le_antisymm hfit hlong,
      Nat.add_sub_cancel_left]
    exact ⟨Nat.add_sub_cancel' hleft, Nat.le_refl _⟩

/-! ## Requests -/

theorem request_start (h : p.request offset size = some r) : 0 < p.sectorSize.toNat ∧
    r.startSector.toNat = offset.toNat / p.sectorSize.toNat ∧ r.sectorOffset.toNat = offset.toNat % p.sectorSize.toNat ∧
    r.startSector.toNat < p.sectorCount.toNat := by
  unfold Partition.request at h
  split at h
  · cases h
  rename_i hzero
  have hpos : 0 < p.sectorSize.toNat := Nat.pos_of_ne_zero fun hc => hzero (UInt32.toNat_inj.1 hc)
  dsimp only at h
  split at h
  · cases h
  rename_i hstart
  rw [UInt32.not_le, UInt32.lt_iff_toNat_lt] at hstart
  split at h <;> cases h <;> exact ⟨hpos, UInt32.toNat_div _ _, UInt32.toNat_mod _ _, hstart⟩

def lastSector (p : Partition) (offset size : UInt32) : Nat := (offset + size - 1).toNat / p.sectorSize.toNat

theorem request_total (h : p.request offset size = some r) : (p.sectorCount.toNat < (lastSector p offset size + 1) % 2 ^ 32 ∧
        r.totalSectors.toNat = p.sectorCount.toNat - r.startSector.toNat ∧
        r.size = r.totalSectors * p.sectorSize - r.sectorOffset) ∨
      (lastSector p offset size + 1) % 2 ^ 32 ≤ p.sectorCount.toNat ∧
        r.totalSectors.toNat = (lastSector p offset size + 1 + (2 ^ 32 - r.startSector.toNat)) % 2 ^ 32 ∧ r.size = size := by
  have hlast : (((offset + size - 1) / p.sectorSize)).toNat = lastSector p offset size := UInt32.toNat_div _ _
  unfold Partition.request at h
  split at h
  · cases h
  dsimp only at h
  split at h
  · cases h
  rename_i hstart
  rw [UInt32.not_le, UInt32.lt_iff_toNat_lt] at hstart
  have hsum : (offset / p.sectorSize + ((offset + size - 1) / p.sectorSize - offset / p.sectorSize + 1)).toNat =
      (lastSector p offset size + 1) % 2 ^ 32 := by
    have hone : (1 : UInt32).toNat = 1 := rfl
    have := (offset / p.sectorSize).toNat_lt
    rw [UInt32.toNat_add, UInt32.toNat_add, UInt32.toNat_sub, hlast, hone]
    omega
  split at h
  · rename_i hclamp
    rw [UInt32.lt_iff_toNat_lt, hsum] at hclamp
    cases h
    refine Or.inl ⟨hclamp, ?_, rfl⟩
    have := p.sectorCount.toNat_lt
    dsimp only
    rw [UInt32.toNat_sub]
    omega
  · rename_i hfits
    rw [UInt32.lt_iff_toNat_lt, hsum, Nat.not_lt] at hfits
    cases h
    refine Or.inr ⟨hfits, ?_, rfl⟩
    have hone : (1 : UInt32).toNat = 1 := rfl
    dsimp only
    rw [UInt32.toNat_add, UInt32.toNat_sub, hlast, hone]
    omega

theorem lastSector_of_pos (h : 0 < size.toNat) (hfit : offset.toNat + size.toNat ≤ 2 ^ 32) :
    lastSector p offset size = (offset.toNat + size.toNat - 1) / p.sectorSize.toNat := by
  have hone : (1 : UInt32).toNat = 1 := rfl
  unfold lastSector
  rw [UInt32.toNat_sub, UInt32.toNat_add, hone]
  have := offset.toNat_lt
  exact congrArg (· / p.sectorSize.toNat) (by omega)

theorem lastSector_of_wrap (hwrap : 2 ^ 32 < offset.toNat + size.toNat) :
    lastSector p offset size = (offset.toNat + size.toNat - 1 - 2 ^ 32) / p.sectorSize.toNat := by
  have hone : (1 : UInt32).toNat = 1 := rfl
  unfold lastSector
  rw [UInt32.toNat_sub, UInt32.toNat_add, hone]
  have := offset.toNat_lt
  have := size.toNat_lt
  exact congrArg (· / p.sectorSize.toNat) (by omega)

theorem lastSector_of_zero (h : size.toNat = 0) :
    lastSector p offset size = (if offset.toNat = 0 then 2 ^ 32 - 1 else offset.toNat - 1) / p.sectorSize.toNat := by
  have hone : (1 : UInt32).toNat = 1 := rfl
  unfold lastSector
  rw [UInt32.toNat_sub, UInt32.toNat_add, hone]
  have := offset.toNat_lt
  refine congrArg (· / p.sectorSize.toNat) ?_
  split <;> omega

/-- The sectors `S` to `E` of `n` bytes from offset `o`, which are `so` bytes into the first. -/
theorem span_bounds {o n S so E e ss : Nat} (ho : ss * S + so = o) (hE : ss * E + e = o + n - 1) (he : e < ss) (hn : 0 < n)
    (hSE : S ≤ E) : (E - S) * ss < so + n ∧ so + n ≤ (E - S + 1) * ss := by
  obtain ⟨d, rfl⟩ := Nat.exists_eq_add_of_le hSE
  rw [Nat.mul_add] at hE
  rw [Nat.add_sub_cancel_left, Nat.succ_mul, Nat.mul_comm d]
  constructor <;> omega

theorem span_le {d n so ss : Nat} (hso : so < ss) (hn : 0 < n) (h : d * ss < so + n) : d + 1 ≤ n := by
  cases d with
  | zero => exact hn
  | succ d =>
    have hle : d ≤ d * ss := Nat.le_mul_of_pos_right _ (Nat.zero_lt_of_lt hso)
    rw [Nat.succ_mul] at h
    omega

theorem wrapped_sub {S n : Nat} (hle : S ≤ n) (hS : S < 2 ^ 32) (hd : n - S < 2 ^ 32) :
    (n + (2 ^ 32 - S)) % 2 ^ 32 = n - S := by
  have hsum : n + (2 ^ 32 - S) = n - S + 2 ^ 32 := by omega
  rw [hsum, Nat.add_mod_right, Nat.mod_eq_of_lt hd]

/-- **A request that does not wrap** takes the sectors of its bytes, or of as many as the partition has. -/
theorem request_regular (h : p.request offset size = some r) (hpos : 0 < size.toNat)
    (hfit : offset.toNat + size.toNat ≤ 2 ^ 32) :
    ∃ N ≤ size.toNat, r.Regular p N := by
  obtain ⟨hss, hS, hso, hcount⟩ := request_start h
  have htotal := request_total h
  rw [lastSector_of_pos hpos hfit] at htotal
  have hE := Nat.div_add_mod (offset.toNat + size.toNat - 1) p.sectorSize.toNat
  have hEmod := Nat.mod_lt (offset.toNat + size.toNat - 1) hss
  have ho := Nat.div_add_mod offset.toNat p.sectorSize.toNat
  have homod := Nat.mod_lt offset.toNat hss
  have hSE : offset.toNat / p.sectorSize.toNat ≤ (offset.toNat + size.toNat - 1) / p.sectorSize.toNat :=
    Nat.div_le_div_right (Nat.le_sub_one_of_lt (Nat.lt_add_of_pos_right hpos))
  rw [← hS, ← hso] at ho
  rw [← hS] at hSE
  rw [← hso] at homod
  generalize (offset.toNat + size.toNat - 1) / p.sectorSize.toNat = E at hE hSE htotal
  generalize (offset.toNat + size.toNat - 1) % p.sectorSize.toNat = e at hE hEmod
  obtain ⟨hlower, hupper⟩ := span_bounds ho hE hEmod hpos hSE
  rcases htotal with ⟨hclamp, hT, hrsize⟩ | ⟨-, hT, hrsize⟩
  · -- to the end of the partition
    have hcE : p.sectorCount.toNat ≤ E := Nat.le_of_lt_succ (hclamp.trans_le (Nat.mod_le _ _))
    have hsome : 0 < r.totalSectors.toNat := hT ▸ Nat.sub_pos_of_lt hcount
    have hle : r.totalSectors.toNat * p.sectorSize.toNat ≤ (E - r.startSector.toNat) * p.sectorSize.toNat :=
      Nat.mul_le_mul_right _ (hT ▸ Nat.sub_le_sub_right hcE _)
    have hsmall : r.totalSectors.toNat * p.sectorSize.toNat < 2 ^ 32 := by
      have hEle : (E - r.startSector.toNat) * p.sectorSize.toNat ≤ p.sectorSize.toNat * E := by
        rw [Nat.mul_comm p.sectorSize.toNat]
        exact Nat.mul_le_mul_right _ (Nat.sub_le _ _)
      exact (hle.trans hEle).trans_lt (by omega)
    have hskip : r.sectorOffset.toNat ≤ r.totalSectors.toNat * p.sectorSize.toNat :=
      homod.le.trans (Nat.le_mul_of_pos_left _ hsome)
    have hsub : r.sectorOffset.toNat + (r.totalSectors.toNat * p.sectorSize.toNat - r.sectorOffset.toNat) =
        r.totalSectors.toNat * p.sectorSize.toNat := Nat.add_sub_cancel' hskip
    have hmul : (r.totalSectors * p.sectorSize).toNat = r.totalSectors.toNat * p.sectorSize.toNat := by
      rw [UInt32.toNat_mul, Nat.mod_eq_of_lt hsmall]
    refine ⟨r.totalSectors.toNat * p.sectorSize.toNat - r.sectorOffset.toNat,
      Nat.sub_le_iff_le_add'.2 (hle.trans hlower.le), hsome, ?_, hsub.le, ?_⟩
    · rw [hsub]
      exact Nat.mul_le_mul_right _ (Nat.sub_le _ _)
    · rw [hrsize, UInt32.toNat_sub_of_le _ _ (UInt32.le_iff_toNat_le.2 (hmul ▸ hskip)), hmul]
  · have hsucc : E + 1 - r.startSector.toNat = E - r.startSector.toNat + 1 := Nat.succ_sub hSE
    have hT' : r.totalSectors.toNat = E - r.startSector.toNat + 1 := by
      rw [hT, ← hsucc]
      refine wrapped_sub (Nat.le_succ_of_le hSE) r.startSector.toNat_lt ?_
      rw [hsucc]
      exact (span_le homod hpos hlower).trans_lt size.toNat_lt
    refine ⟨size.toNat, Nat.le_refl _, ?_, ?_, ?_, by rw [hrsize]⟩
    · rw [hT']
      exact Nat.succ_pos _
    · rw [hT', Nat.add_sub_cancel]
      exact hlower.le
    · rw [hT']
      exact hupper

/-- **An empty request inside a sector** takes that sector, and nothing of it. -/
theorem request_empty_inside (h : p.request offset size = some r) (hzero : size.toNat = 0)
    (hinside : offset.toNat % p.sectorSize.toNat ≠ 0) : r.Regular p 0 := by
  obtain ⟨hss, hS, hso, hcount⟩ := request_start h
  have htotal := request_total h
  have ho := Nat.div_add_mod offset.toNat p.sectorSize.toNat
  have homod := Nat.mod_lt offset.toNat hss
  have hone : offset.toNat ≠ 0 := by
    intro hc
    rw [hc, Nat.zero_mod] at hinside
    exact hinside rfl
  have hlast : (offset.toNat - 1) / p.sectorSize.toNat = r.startSector.toNat := by
    rw [hS]
    refine Nat.div_eq_of_lt_le ?_ ?_
    · rw [Nat.mul_comm]
      omega
    · rw [Nat.succ_mul, Nat.mul_comm]
      omega
  rw [lastSector_of_zero hzero, if_neg hone, hlast] at htotal
  have hcount32 := p.sectorCount.toNat_lt
  rcases htotal with ⟨hclamp, -, -⟩ | ⟨-, hT, hrsize⟩
  · omega
  · have hT' : r.totalSectors.toNat = 1 := by omega
    refine ⟨by omega, ?_, ?_, by rw [hrsize, hzero]⟩
    · rw [hT', Nat.sub_self, Nat.zero_mul]
      exact Nat.zero_le _
    · rw [hT', Nat.one_mul]
      omega

/-- **An empty request at a sector's start** takes nothing, or at the start of the partition the first sector as a whole. -/
theorem request_empty_start (h : p.request offset size = some r) (hzero : size.toNat = 0)
    (hstart : offset.toNat % p.sectorSize.toNat = 0) :
    r.totalSectors.toNat = 0 ∨ 0 < (r.chunkSize p 0 0).toNat := by
  obtain ⟨hss, hS, hso, hcount⟩ := request_start h
  have htotal := request_total h
  have hcount32 := p.sectorCount.toNat_lt
  have hss32 := p.sectorSize.toNat_lt
  rw [lastSector_of_zero hzero] at htotal
  by_cases ho : offset.toNat = 0
  · rw [if_pos ho] at htotal
    have hS0 : r.startSector.toNat = 0 := by rw [hS, ho, Nat.zero_div]
    have hso0 : r.sectorOffset.toNat = 0 := by rw [hso, hstart]
    have hso0' : r.sectorOffset = 0 := UInt32.toNat_inj.1 hso0
    have hEpos : 1 ≤ (2 ^ 32 - 1) / p.sectorSize.toNat := (Nat.one_le_div_iff hss).2 (by omega)
    have hEle : (2 ^ 32 - 1) / p.sectorSize.toNat ≤ 2 ^ 32 - 1 := Nat.div_le_self _ _
    by_cases hmany : 1 < r.totalSectors.toNat
    · right
      rw [Request.chunkSize_of_lt (by omega) hmany, Request.chunkStart_toNat, if_pos rfl]
      omega
    · rcases htotal with ⟨hclamp, hT, hrsize⟩ | ⟨-, hT, -⟩
      · right
        have hT1 : r.totalSectors = 1 := UInt32.toNat_inj.1 (by
          have hone : (1 : UInt32).toNat = 1 := rfl
          omega)
        have hsame : r.size = p.sectorSize := by
          rw [hrsize, hT1, hso0', UInt32.one_mul, UInt32.sub_zero]
        unfold Request.chunkSize Request.chunkEnd Request.chunkStart
        rw [if_pos rfl, hso0', hT1, if_pos (by decide : UInt32.ofNat 0 = 1 - 1), hsame]
        dsimp only
        rw [UInt32.sub_zero, UInt32.zero_add, UInt32.sub_zero, if_neg (UInt32.lt_irrefl _)]
        exact hss
      · omega
  · rw [if_neg ho] at htotal
    left
    have hmul := Nat.div_add_mod offset.toNat p.sectorSize.toNat
    have hSpos : 0 < offset.toNat / p.sectorSize.toNat :=
      Nat.div_pos (Nat.le_of_dvd (by omega) (Nat.dvd_of_mod_eq_zero hstart)) hss
    have hlast : (offset.toNat - 1) / p.sectorSize.toNat = r.startSector.toNat - 1 := by
      rw [hS]
      refine Nat.div_eq_of_lt_le ?_ ?_
      · rw [Nat.sub_mul, Nat.one_mul, Nat.mul_comm]
        omega
      · rw [Nat.sub_add_cancel hSpos, Nat.mul_comm]
        omega
    rw [hlast] at htotal
    rw [← hS] at hSpos
    rcases htotal with ⟨hclamp, -, -⟩ | ⟨-, hT, -⟩ <;> omega

theorem wrapped_add {S E : Nat} (hlt : E < S) (hS : S < 2 ^ 32) :
    (E + 1 + (2 ^ 32 - S)) % 2 ^ 32 = if E + 1 = S then 0 else E + 1 + 2 ^ 32 - S := by
  split <;> omega

theorem wrapped_chunk {so n e ss : Nat} (h : so + n = e + 1 + 2 ^ 32) (hso : so < ss) (hn : n < 2 ^ 32)
    (hss : ss < 2 ^ 32) : ss < so + n ∧ (so + n) % 2 ^ 32 < ss := by
  omega

/-- **A request that wraps** takes nothing; or one sector, with more bytes than that has; or goes through all sectors to the
last there is. -/
theorem request_wraps (h : p.request offset size = some r) (hwrap : 2 ^ 32 < offset.toNat + size.toNat) :
    r.totalSectors.toNat = 0 ∨
      (r.totalSectors.toNat = 1 ∧ r.size = size ∧ p.sectorSize.toNat < r.sectorOffset.toNat + size.toNat ∧
        (r.sectorOffset.toNat + size.toNat) % 2 ^ 32 < p.sectorSize.toNat) ∨
      2 ^ 32 ≤ r.startSector.toNat + r.totalSectors.toNat := by
  obtain ⟨hss, hS, hso, hcount⟩ := request_start h
  have htotal := request_total h
  have hcount32 := p.sectorCount.toNat_lt
  have hss32 := p.sectorSize.toNat_lt
  have ho32 := offset.toNat_lt
  have hn32 := size.toNat_lt
  rw [lastSector_of_wrap hwrap] at htotal
  have hE := Nat.div_add_mod (offset.toNat + size.toNat - 1 - 2 ^ 32) p.sectorSize.toNat
  have hEmod := Nat.mod_lt (offset.toNat + size.toNat - 1 - 2 ^ 32) hss
  have ho := Nat.div_add_mod offset.toNat p.sectorSize.toNat
  have homod := Nat.mod_lt offset.toNat hss
  have hES : (offset.toNat + size.toNat - 1 - 2 ^ 32) / p.sectorSize.toNat ≤ offset.toNat / p.sectorSize.toNat :=
    Nat.div_le_div_right (by omega)
  rw [← hS, ← hso] at ho
  rw [← hS] at hES
  rw [← hso] at homod
  generalize (offset.toNat + size.toNat - 1 - 2 ^ 32) / p.sectorSize.toNat = E at hE hES htotal
  generalize (offset.toNat + size.toNat - 1 - 2 ^ 32) % p.sectorSize.toNat = e at hE hEmod
  rcases htotal with ⟨hclamp, -, -⟩ | ⟨-, hT, hrsize⟩
  · exact absurd (hclamp.trans_le (Nat.mod_le _ _)) (Nat.not_lt.2 (Nat.succ_le_of_lt (hES.trans_lt hcount)))
  have hS32 := r.startSector.toNat_lt
  rcases Nat.lt_or_eq_of_le hES with hlt | rfl
  · rw [wrapped_add hlt hS32] at hT
    split at hT
    · exact Or.inl hT
    · right
      right
      rw [hT, Nat.add_sub_cancel' ((Nat.le_of_lt hS32).trans (Nat.le_add_left _ _))]
      exact Nat.le_add_left _ _
  · right
    left
    have hsum : r.sectorOffset.toNat + size.toNat = e + 1 + 2 ^ 32 := by
      clear hT hcount32 hcount
      omega
    obtain ⟨hlong, hmod⟩ := wrapped_chunk hsum homod hn32 hss32
    refine ⟨?_, hrsize, hlong, hmod⟩
    rw [hT, wrapped_sub (n := r.startSector.toNat + 1) (Nat.le_add_right _ 1) hS32
      (by rw [Nat.add_sub_cancel_left]; decide), Nat.add_sub_cancel_left]

end EterOS.Fs
