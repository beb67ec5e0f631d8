import EterOS.Fs.Bcache
import EterOS.Lib.Bytes
/-!
# SectorIo — the two filesystems over the one cache

`fat32_read_sector_cached` and `fat32_write_sector_cached` (`kernel/fs/fat32.c`) and JFS's `disk_read` and `disk_write`
(`kernel/fs/jfs.c`) go through the sector cache and then to their own device.  FAT32 numbers its volumes from a counter
that starts at 1; JFS uses the index of its partition, 0 or 1.  A line of the cache is 512 bytes, a FAT sector what the
boot sector says.  JFS caches what it has in hand whether or not the device did its part.  `Met` rules those three out,
and `reads_agree` says that every read then returns what is on the device.
-/
namespace EterOS.Fs

open Function (update update_self update_of_ne)

/-- `fat32_volume_t`, with the device its callbacks reach in the place of the callbacks. -/
structure FatVolume where
  device : Nat
  partitionLba : UInt32
  fatStartLba : UInt32
  dataStartLba : UInt32
  rootCluster : UInt32
  sectorsPerCluster : UInt32
  bytesPerSector : UInt16
  fatSize : UInt32
  volumeId : UInt32

/-- The cache, the volumes mounted so far and the devices.  Every call of `fat32_init` is about a device of its own,
numbered by the calls. -/
structure Sys where
  cache : Bcache
  nextVolumeId : UInt32
  calls : Nat
  fats : List FatVolume
  /-- Sector contents by device and sector. -/
  fatDisk : Nat → UInt32 → Buffer
  /-- `jfs_part_node->impl`: `partition_get_active_root` knows the partitions 0 and 1. -/
  jfsPart : Fin 2
  /-- The bytes of the JFS partition. -/
  jfsDisk : Buffer

inductive DevRead where
  | done
  | failed (left : Buffer)

/-! ## The cache and buffers -/

def lineOf (b : Buffer) : Sector := Vector.ofFn fun i => b i

/-- `memcpy` of a line out of it: what follows the 512 bytes stays. -/
def fillLine (d : Sector) (b : Buffer) : Buffer := fun i => if h : i < 512 then d[i] else b i

/-! ## FAT32 -/

/-- `fat32_read_sector_cached`: the buffer, if the call reports success. -/
def fat32ReadSectorCached (s : Sys) (volumeId : UInt32) (device : Nat) (sector : UInt32) (buffer : Buffer)
    (dev : DevRead) : Sys × Option Buffer :=
  match bcacheRead s.cache ⟨volumeId, sector⟩ with
  | (cache, some d) => ({ s with cache }, some (fillLine d buffer))
  | (cache, none) =>
    match dev with
    | .failed _ => ({ s with cache }, none)
    | .done =>
      let buffer := s.fatDisk device sector
      ({ s with cache := bcacheWrite cache ⟨volumeId, sector⟩ (lineOf buffer) }, some buffer)

/-- `fat32_write_sector_cached`; a write the device refuses changes nothing. -/
def fat32WriteSectorCached (s : Sys) (vol : FatVolume) (sector : UInt32) (buffer : Buffer) (dev : Bool) : Sys :=
  if dev then
    { s with
      fatDisk := update s.fatDisk vol.device (update (s.fatDisk vol.device) sector buffer)
      cache := bcacheWrite s.cache ⟨vol.volumeId, sector⟩ (lineOf buffer) }
  else s

/-- The geometry `fat32_init` takes from the boot sector. -/
def fat32Geometry (bpb : Buffer) (volumeId : UInt32) (device : Nat) (lba : UInt32) : FatVolume :=
  let fatSize32 := UInt32.ofNat (bpb.le 36 4)
  let fatSize := if fatSize32 = 0 then UInt32.ofNat (bpb.le 22 2) else fatSize32
  let fatStartLba := lba + UInt32.ofNat (bpb.le 14 2)
  { device
    partitionLba := lba
    fatStartLba
    dataStartLba := fatStartLba + UInt32.ofNat (bpb.le 16 1) * fatSize
    rootCluster := UInt32.ofNat (bpb.le 44 4)
    sectorsPerCluster := UInt32.ofNat (bpb.le 13 1)
    bytesPerSector := UInt16.ofNat (bpb.le 11 2)
    fatSize
    volumeId }

def Sys.called (s : Sys) : Sys := { s with nextVolumeId := s.nextVolumeId + 1, calls := s.calls + 1 }

/-- `fat32_init`: the volume is mounted if the boot sector is there and says so; its number is taken in any case. -/
def fat32Init (s : Sys) (lba : UInt32) (kmalloc : Option Buffer) (dev : DevRead) : Sys :=
  match kmalloc with
  | none => s.called
  | some buffer =>
    match fat32ReadSectorCached s.called s.nextVolumeId s.calls lba buffer dev with
    | (s', none) => s'
    | (s', some bpb) =>
      if bpb.le 510 2 ≠ 0xAA55 then s'
      else
        let vol := fat32Geometry bpb s.nextVolumeId s.calls lba
        if vol.bytesPerSector = 0 then s' else { s' with fats := s'.fats ++ [vol] }

/-! ## JFS -/

def Sys.jfsId (s : Sys) : UInt32 := UInt32.ofNat s.jfsPart

def jfsOffset (block : UInt32) : Nat := (block * 512).toNat

def jfsDiskRead (s : Sys) (block : UInt32) (buffer : Buffer) (dev : DevRead) : Sys × Buffer :=
  match bcacheRead s.cache ⟨s.jfsId, block⟩ with
  | (cache, some d) => ({ s with cache }, fillLine d buffer)
  | (cache, none) =>
    let buffer := match dev with
      | .done => buffer.blit 0 (s.jfsDisk.drop (jfsOffset block)) 512
      | .failed left => left
    ({ s with cache := bcacheWrite cache ⟨s.jfsId, block⟩ (lineOf buffer) }, buffer)

def jfsDiskWrite (s : Sys) (block : UInt32) (buffer : Buffer) (dev : Bool) : Sys :=
  { s with
    jfsDisk := if dev then s.jfsDisk.blit (jfsOffset block) buffer 512 else s.jfsDisk
    cache := bcacheWrite s.cache ⟨s.jfsId, block⟩ (lineOf buffer) }

/-! ## Runs -/

inductive Io where
  | fatInit (lba : UInt32) (kmalloc : Option Buffer) (dev : DevRead)
  | fatRead (vol : Nat) (sector : UInt32) (buffer : Buffer) (dev : DevRead)
  | fatWrite (vol : Nat) (sector : UInt32) (buffer : Buffer) (dev : Bool)
  | jfsRead (block : UInt32) (buffer : Buffer) (dev : DevRead)
  | jfsWrite (block : UInt32) (buffer : Buffer) (dev : Bool)

def ioStep (s : Sys) : Io → Sys
  | .fatInit lba kmalloc dev => fat32Init s lba kmalloc dev
  | .fatRead v sector buffer dev =>
    match s.fats[v]? with
    | some vol => (fat32ReadSectorCached s vol.volumeId vol.device sector buffer dev).1
    | none => s
  | .fatWrite v sector buffer dev =>
    match s.fats[v]? with
    | some vol => fat32WriteSectorCached s vol sector buffer dev
    | none => s
  | .jfsRead block buffer dev => (jfsDiskRead s block buffer dev).1
  | .jfsWrite block buffer dev => jfsDiskWrite s block buffer dev

structure Boot (s : Sys) : Prop where
  cache : ∃ kmalloc, s.cache = bcacheInit kmalloc
  nextVolumeId : s.nextVolumeId = 1
  calls : s.calls = 0
  fats : s.fats = []

/-- A read that reports success has filled its whole buffer with what is on the device. -/
def Agrees (s : Sys) : Io → Prop
  | .fatInit lba (some buffer) dev => ∀ b, (fat32ReadSectorCached s s.nextVolumeId s.calls lba buffer dev).2 = some b →
      ∀ i < 512, b i = s.fatDisk s.calls lba i
  | .fatRead v sector buffer dev => ∀ vol b, s.fats[v]? = some vol →
    (fat32ReadSectorCached s vol.volumeId vol.device sector buffer dev).2 = some b →
      ∀ i < vol.bytesPerSector.toNat, b i = s.fatDisk vol.device sector i
  | .jfsRead block buffer dev => ∀ i < 512, (jfsDiskRead s block buffer dev).2 i = s.jfsDisk (block.toNat * 512 + i)
  | _ => True

/-- What rules the defects out: a new volume gets a number that neither JFS nor another volume has; a FAT sector that
is read from the cache fits a line; JFS's device does its part, and no offset wraps. -/
def Met (s : Sys) : Io → Prop
  | .fatInit _ _ _ => s.calls < 2 ^ 32 ∧ s.nextVolumeId ≠ s.jfsId
  | .fatRead v sector _ _ => ∀ vol, s.fats[v]? = some vol → vol.bytesPerSector ≤ 512 ∨
      cached s.cache ⟨vol.volumeId, sector⟩ = none
  | .jfsRead block _ dev => block.toNat < 2 ^ 23 ∧ (dev = .done ∨ cached s.cache ⟨s.jfsId, block⟩ ≠ none)
  | .jfsWrite block _ dev => block.toNat < 2 ^ 23 ∧ dev = true
  | .fatWrite _ _ _ _ => True

/-! ## Lines and buffers -/

variable {s : Sys} {b : Buffer} {d : Sector} {i : Nat} {lba : UInt32} {kmalloc : Option Buffer} {dev : DevRead}

theorem lineOf_get (h : i < 512) : (lineOf b)[i] = b i := by
  simp [lineOf]

theorem fillLine_of_lt (h : i < 512) : fillLine d b i = d[i] := dif_pos h

/-! ## What is in the cache -/

def Bcache.Unique (c : Bcache) : Prop := ∀ a, c = some a → UniqueKeys a

theorem Bcache.Unique.step {c : Bcache} (h : Bcache.Unique c) (op : Op) : Bcache.Unique (bcacheStep c op) := by
  intro a ha
  cases c with
  | none => rw [step_none] at ha; cases ha
  | some c => exact (h c rfl).step ha

theorem Bcache.Unique.cached_step {c : Bcache} (h : Bcache.Unique c) {op : Op} {k : Key}
    (hc : cached (bcacheStep c op) k = some d) : cached c k = some d ∧ op.overwrites k = false ∨ op = .write k d := by
  cases c with
  | none => rw [step_none] at hc; cases hc
  | some c => exact (h c rfl).cached_step hc

def fatId (m : Nat) : UInt32 := UInt32.ofNat (m + 1)

theorem fatId_inj {m n : Nat} (hm : m < 2 ^ 32) (hn : n < 2 ^ 32) (h : fatId m = fatId n) : m = n := by
  have := congrArg UInt32.toNat h
  simp only [fatId, UInt32.toNat_ofNat'] at this
  omega

structure Line (s : Sys) (k : Key) (d : Sector) : Prop where
  owner : k.volumeId = s.jfsId ∨ ∃ m < s.calls, k.volumeId = fatId m
  fat : ∀ m < s.calls, k.volumeId = fatId m → ∀ i (h : i < 512), d[i] = s.fatDisk m k.sector i
  jfs : k.volumeId = s.jfsId →
    k.sector.toNat < 2 ^ 23 ∧ ∀ i (h : i < 512), d[i] = s.jfsDisk (k.sector.toNat * 512 + i)

structure Inv (s : Sys) : Prop where
  unique : Bcache.Unique s.cache
  calls : s.calls ≤ 2 ^ 32
  nextVolumeId : s.nextVolumeId = fatId s.calls
  fats : ∀ vol ∈ s.fats, vol.device < s.calls ∧ vol.volumeId = fatId vol.device
  ids : ∀ m < s.calls, fatId m ≠ s.jfsId
  lines : ∀ k d, cached s.cache k = some d → Line s k d

theorem Boot.inv (h : Boot s) : Inv s := by
  obtain ⟨⟨kmalloc, hc⟩, hn, hcalls, hf⟩ := h
  refine ⟨?_, by omega, by rw [hn, hcalls]; rfl, by simp [hf], by simp [hcalls], ?_⟩
  · intro a ha i j hi
    rw [hc, bcacheInit] at ha
    cases kmalloc <;> cases ha
    cases hi
  · intro k d hd
    rw [hc, bcacheInit] at hd
    cases kmalloc with
    | false => cases hd
    | true =>
      obtain ⟨i, hi, -⟩ := entry_of_cached hd
      cases hi

theorem Inv.change (h : Inv s) (op : Op) {fatDisk : Nat → UInt32 → Buffer} {jfsDisk : Buffer}
    (hold : ∀ k d, Line s k d → op.overwrites k = false → Line { s with fatDisk, jfsDisk } k d)
    (hnew : ∀ k d, op = .write k d → Line { s with fatDisk, jfsDisk } k d) :
    Inv { s with cache := bcacheStep s.cache op, fatDisk, jfsDisk } where
  unique := h.unique.step op
  calls := h.calls
  nextVolumeId := h.nextVolumeId
  fats := h.fats
  ids := h.ids
  lines := fun k d hd => by
    have hl : Line { s with fatDisk, jfsDisk } k d := by
      rcases h.unique.cached_step hd with ⟨hc, ho⟩ | hw
      · exact hold k d (h.lines k d hc) ho
      · exact hnew k d hw
    exact ⟨hl.owner, hl.fat, hl.jfs⟩

theorem Inv.withCache (h : Inv s) (op : Op) (hop : ∀ k d, op = .write k d → Line s k d) :
    Inv { s with cache := bcacheStep s.cache op } :=
  h.change op (fun _ _ hl _ => hl) hop

/-! ## FAT32 -/

theorem fat32ReadSectorCached_eq (volumeId : UInt32) (device : Nat) (sector : UInt32) (dev : DevRead) :
    fat32ReadSectorCached s volumeId device sector b dev =
      match cached s.cache ⟨volumeId, sector⟩, dev with
      | some d, _ => ({ s with cache := bcacheStep s.cache (.read ⟨volumeId, sector⟩) }, some (fillLine d b))
      | none, .failed _ => ({ s with cache := bcacheStep s.cache (.read ⟨volumeId, sector⟩) }, none)
      | none, .done =>
        ({ s with cache := bcacheStep (bcacheStep s.cache (.read ⟨volumeId, sector⟩))
                    (.write ⟨volumeId, sector⟩ (lineOf (s.fatDisk device sector))) },
          some (s.fatDisk device sector)) := by
  rw [fat32ReadSectorCached, cached, bcacheStep]
  cases hr : bcacheRead s.cache ⟨volumeId, sector⟩ with
  | mk cache d => cases d <;> cases dev <;> rfl

theorem line_fat (h : Inv s) {m : Nat} (hm : m < s.calls) (sector : UInt32) :
    Line s ⟨fatId m, sector⟩ (lineOf (s.fatDisk m sector)) where
  owner := .inr ⟨m, hm, rfl⟩
  fat := by
    intro n hn he i hi
    have hmn : m = n := fatId_inj (by have := h.calls; omega) (by have := h.calls; omega) he
    rw [lineOf_get hi, hmn]
  jfs := fun he => absurd he (h.ids m hm)

theorem Inv.fatRead (h : Inv s) {m : Nat} (hm : m < s.calls) (sector : UInt32) (dev : DevRead) :
    Inv (fat32ReadSectorCached s (fatId m) m sector b dev).1 ∧
    ∀ b', (fat32ReadSectorCached s (fatId m) m sector b dev).2 = some b' →
      ∀ i, i < 512 ∨ cached s.cache ⟨fatId m, sector⟩ = none → b' i = s.fatDisk m sector i := by
  rw [fat32ReadSectorCached_eq]
  have hread : Inv { s with cache := bcacheStep s.cache (.read ⟨fatId m, sector⟩) } :=
    h.withCache (.read _) fun k d hw => by cases hw
  cases hc : cached s.cache ⟨fatId m, sector⟩ with
  | some d =>
    refine ⟨hread, fun b' hb' i hi => ?_⟩
    obtain rfl := Option.some.inj hb'
    rcases hi with hi | hi
    · rw [fillLine_of_lt hi]
      exact (h.lines _ _ hc).fat m hm rfl i hi
    · cases hi
  | none =>
    cases dev with
    | failed left => exact ⟨hread, fun b' hb' => by cases hb'⟩
    | done =>
      refine ⟨hread.withCache (.write _ _) fun k d hw => ?_, fun b' hb' i _ => ?_⟩
      · cases hw
        exact line_fat hread hm sector
      · rw [← Option.some.inj hb']

theorem Inv.fatWrite (h : Inv s) {vol : FatVolume} (hvol : vol ∈ s.fats) (sector : UInt32) (dev : Bool) :
    Inv (fat32WriteSectorCached s vol sector b dev) := by
  obtain ⟨hdev, hid⟩ := h.fats vol hvol
  have hcalls := h.calls
  rw [fat32WriteSectorCached]
  split
  · refine h.change (.write ⟨vol.volumeId, sector⟩ (lineOf b)) (fun k d hl ho => ?_) fun k d hw => ?_
    · refine ⟨hl.owner, fun m hm he i hi => ?_, hl.jfs⟩
      rw [hl.fat m hm he i hi]
      by_cases hmd : m = vol.device
      · subst hmd
        have hne : k.sector ≠ sector := by
          intro hk
          simp only [Op.overwrites, Op.names, hid, ← he, ← hk, decide_eq_false_iff_not, not_true_eq_false] at ho
        simp [update_of_ne hne]
      · simp [update_of_ne hmd]
    · obtain ⟨rfl, rfl⟩ := Op.write.inj hw
      refine ⟨.inr ⟨vol.device, hdev, hid⟩, fun m hm he i hi => ?_, fun he => ?_⟩
      · have hmd : vol.device = m := fatId_inj (by omega) (by simp only at hm; omega) (hid.symm.trans he)
        rw [lineOf_get hi, ← hmd]
        simp
      · exact absurd (hid.symm.trans he) (h.ids vol.device hdev)
  · exact h

theorem Inv.fatCall (h : Inv s) (hm : Met s (.fatInit lba kmalloc dev)) : Inv s.called := by
  obtain ⟨hcalls, hne⟩ := hm
  have hnext := h.nextVolumeId
  have hc : s.called.calls = s.calls + 1 := rfl
  refine ⟨h.unique, by omega, ?_, fun vol hvol => ?_, fun m hm => ?_, fun k d hd => ?_⟩
  · simp only [Sys.called, hnext, fatId, UInt32.ofNat_add (s.calls + 1) 1]
    rfl
  · obtain ⟨hd, hid⟩ := h.fats vol hvol
    exact ⟨by omega, hid⟩
  · by_cases hmc : m = s.calls
    · rw [hmc, ← hnext]
      exact hne
    · exact h.ids m (by omega)
  · have hl := h.lines k d hd
    refine ⟨hl.owner.imp_right fun ⟨m, hm, he⟩ => ⟨m, by omega, he⟩, fun m hm he => ?_, hl.jfs⟩
    by_cases hmc : m = s.calls
    · exfalso
      rcases hl.owner with ho | ⟨n, hn, ho⟩
      · rw [he, hmc, ← hnext] at ho
        exact hne ho
      · have : m = n := fatId_inj (by omega) (by omega) (he.symm.trans ho)
        omega
    · exact hl.fat m (by omega) he

theorem Inv.mounted (h : Inv s) {vol : FatVolume} (hd : vol.device < s.calls) (hid : vol.volumeId = fatId vol.device) :
    Inv { s with fats := s.fats ++ [vol] } := by
  refine ⟨h.unique, h.calls, h.nextVolumeId, fun v hv => ?_, h.ids, fun k d hc => ?_⟩
  · rcases List.mem_append.1 hv with hv | hv
    · exact h.fats v hv
    · rw [List.mem_singleton.1 hv]
      exact ⟨hd, hid⟩
  · have hl := h.lines k d hc
    exact ⟨hl.owner, hl.fat, hl.jfs⟩

theorem fat32ReadSectorCached_calls (volumeId : UInt32) (device : Nat) (sector : UInt32) :
    (fat32ReadSectorCached s volumeId device sector b dev).1.calls = s.calls := by
  rw [fat32ReadSectorCached_eq]
  split <;> rfl

theorem Inv.fatInit (h : Inv s) (hm : Met s (.fatInit lba kmalloc dev)) : Inv (fat32Init s lba kmalloc dev) := by
  have hcall := h.fatCall hm
  cases kmalloc with
  | none => exact hcall
  | some buffer =>
    have hread := (hcall.fatRead (b := buffer) (Nat.lt_succ_self s.calls) lba dev).1
    have hcalls : (fat32ReadSectorCached s.called (fatId s.calls) s.calls lba buffer dev).1.calls = s.calls + 1 :=
      fat32ReadSectorCached_calls _ _ _
    rw [← h.nextVolumeId] at hread hcalls
    simp only [fat32Init]
    split
    · rename_i hr
      rwa [hr] at hread
    · rename_i hr
      rw [hr] at hread hcalls
      split
      · exact hread
      · split
        · exact hread
        · exact hread.mounted (hcalls ▸ Nat.lt_succ_self s.calls) h.nextVolumeId

/-! ## JFS -/

theorem jfsOffset_eq {block : UInt32} (h : block.toNat < 2 ^ 23) : jfsOffset block = block.toNat * 512 := by
  rw [jfsOffset, UInt32.toNat_mul]
  exact Nat.mod_eq_of_lt (by simp only [UInt32.reduceToNat]; omega)

theorem jfsDiskRead_eq (block : UInt32) : jfsDiskRead s block b dev =
    match cached s.cache ⟨s.jfsId, block⟩, dev with
    | some d, _ => ({ s with cache := bcacheStep s.cache (.read ⟨s.jfsId, block⟩) }, fillLine d b)
    | none, .done =>
      let b := b.blit 0 (s.jfsDisk.drop (jfsOffset block)) 512
      ({ s with cache := bcacheStep (bcacheStep s.cache (.read ⟨s.jfsId, block⟩))
                  (.write ⟨s.jfsId, block⟩ (lineOf b)) }, b)
    | none, .failed left =>
      ({ s with cache := bcacheStep (bcacheStep s.cache (.read ⟨s.jfsId, block⟩))
                  (.write ⟨s.jfsId, block⟩ (lineOf left)) }, left) := by
  simp only [jfsDiskRead, cached, bcacheStep]
  cases hr : bcacheRead s.cache ⟨s.jfsId, block⟩ with
  | mk cache d => cases d <;> cases dev <;> rfl

theorem line_jfs (h : Inv s) {block : UInt32} (hb : block.toNat < 2 ^ 23)
    (hd : ∀ i < 512, b i = s.jfsDisk (block.toNat * 512 + i)) : Line s ⟨s.jfsId, block⟩ (lineOf b) where
  owner := .inl rfl
  fat := fun m hm he => absurd he.symm (h.ids m hm)
  jfs := fun _ => ⟨hb, fun i hi => by rw [lineOf_get hi]; exact hd i hi⟩

theorem Inv.jfsRead (h : Inv s) {block : UInt32} (hm : Met s (.jfsRead block b dev)) : Inv (jfsDiskRead s block b dev).1 ∧
      ∀ i < 512, (jfsDiskRead s block b dev).2 i = s.jfsDisk (block.toNat * 512 + i) := by
  obtain ⟨hb, hdev⟩ := hm
  have hread : Inv { s with cache := bcacheStep s.cache (.read ⟨s.jfsId, block⟩) } :=
    h.withCache (.read _) fun k d hw => by cases hw
  rw [jfsDiskRead_eq]
  cases hc : cached s.cache ⟨s.jfsId, block⟩ with
  | some d =>
    refine ⟨hread, fun i hi => ?_⟩
    simp only
    rw [fillLine_of_lt hi]
    exact ((h.lines _ _ hc).jfs rfl).2 i hi
  | none =>
    rcases hdev with rfl | hdev
    · have hfill : ∀ i < 512, b.blit 0 (s.jfsDisk.drop (jfsOffset block)) 512 i = s.jfsDisk (block.toNat * 512 + i) := by
        intro i hi
        rw [Buffer.blit_of_mem (Nat.zero_le i) (by omega), Buffer.drop, jfsOffset_eq hb, Nat.sub_zero]
      refine ⟨hread.withCache (.write _ _) fun k d hw => ?_, hfill⟩
      cases hw
      exact line_jfs hread hb hfill
    · exact absurd hc hdev

theorem Inv.jfsWrite (h : Inv s) {block : UInt32} {ok : Bool} (hm : Met s (.jfsWrite block b ok)) :
    Inv (jfsDiskWrite s block b ok) := by
  obtain ⟨hb, rfl⟩ := hm
  rw [jfsDiskWrite, if_pos rfl, jfsOffset_eq hb]
  refine h.change (.write ⟨s.jfsId, block⟩ (lineOf b)) (fun k d hl ho => ?_) fun k d hw => ?_
  · refine ⟨hl.owner, hl.fat, fun he : k.volumeId = s.jfsId => ?_⟩
    obtain ⟨hk, hd⟩ := hl.jfs he
    have hne : k.sector.toNat ≠ block.toNat := by
      intro hk'
      have hkb : k.sector = block := UInt32.toNat_inj.1 hk'
      have hkey : (⟨s.jfsId, block⟩ : Key) = k := by rw [← hkb, ← he]
      simp [Op.overwrites, Op.names, hkey] at ho
    refine ⟨hk, fun i hi => ?_⟩
    rw [hd i hi]
    rcases Nat.lt_or_gt_of_ne hne with hlt | hlt
    · exact (Buffer.blit_of_lt (by omega)).symm
    · exact (Buffer.blit_of_ge (by omega)).symm
  · obtain ⟨rfl, rfl⟩ := Op.write.inj hw
    refine ⟨.inl rfl, fun m hm he => absurd he.symm (h.ids m hm), fun _ => ⟨hb, fun i hi => ?_⟩⟩
    have hblit : s.jfsDisk.blit (block.toNat * 512) b 512 (block.toNat * 512 + i) = b i := by
      rw [Buffer.blit_of_mem (by omega) (by omega), Nat.add_sub_cancel_left]
    rw [lineOf_get hi]
    exact hblit.symm

/-! ## Runs -/

theorem Inv.step (h : Inv s) (io : Io) (hm : Met s io) : Inv (ioStep s io) ∧ Agrees s io := by
  cases io with
  | fatInit lba kmalloc dev =>
    refine ⟨h.fatInit hm, ?_⟩
    cases kmalloc with
    | none => trivial
    | some buffer =>
      intro b hb i hi
      have hread := (h.fatCall hm).fatRead (b := buffer) (Nat.lt_succ_self s.calls) lba dev
      refine hread.2 b ?_ i (.inl hi)
      rw [h.nextVolumeId, fat32ReadSectorCached_eq] at hb
      rw [← hb, fat32ReadSectorCached_eq]
      cases hc : cached s.cache ⟨fatId s.calls, lba⟩ <;> cases dev <;> simp only [Sys.called, hc]
  | fatRead v sector buffer dev =>
    simp only [ioStep, Agrees]
    cases hv : s.fats[v]? with
    | none => exact ⟨h, fun vol b hvol => by cases hvol⟩
    | some vol =>
      obtain ⟨hd, hid⟩ := h.fats vol (List.mem_of_getElem? hv)
      have hread := h.fatRead (b := buffer) hd sector dev
      rw [← hid] at hread
      refine ⟨hread.1, fun vol' b hvol hb i hi => ?_⟩
      obtain rfl := Option.some.inj hvol
      refine hread.2 b hb i ((hm vol hv).imp_left fun hle => ?_)
      have := UInt16.le_iff_toNat_le.1 hle
      simp only [UInt16.reduceToNat] at this
      omega
  | fatWrite v sector buffer dev =>
    simp only [ioStep, Agrees, and_true]
    split
    · rename_i vol hv
      exact h.fatWrite (List.mem_of_getElem? hv) sector dev
    · exact h
  | jfsRead block buffer dev => exact h.jfsRead hm
  | jfsWrite block buffer dev => exact ⟨h.jfsWrite hm, trivial⟩

/-- **Cached I/O agrees with the devices**: in every run whose calls meet the condition, every read that reports success
returns what is on its device. -/
theorem reads_agree (s : Sys) (ios : List Io) (h0 : Boot s) (hm : Run.Guarded ioStep Met s ios) :
    Run.Guarded ioStep Agrees s ios :=
  Run.guarded_imp (fun _ io h hm => h.step io hm) ios s h0.inv hm

/-! ## Where they do not -/

def plainBoot : Buffer := fun i => if i = 12 then 2 else if i = 510 then 0x55 else if i = 511 then 0xAA else 0

def blankSys (part : Fin 2) : Sys where
  cache := bcacheInit true
  nextVolumeId := 1
  calls := 0
  fats := []
  fatDisk := fun _ _ => plainBoot
  jfsPart := part
  jfsDisk := fun _ => 0

theorem blankSys_boot (part : Fin 2) : Boot (blankSys part) := ⟨⟨true, rfl⟩, rfl, rfl, rfl⟩

def mountThenRead : List Io := [.fatInit 0 (some fun _ => 0) .done, .jfsRead 0 (fun _ => 0) .done]

/-- **JFS on partition 1 reads the boot sector of the first FAT volume.** -/
theorem jfs_reads_fat : Boot (blankSys 1) ∧ ¬ Run.Guarded ioStep Agrees (blankSys 1) mountThenRead := by
  refine ⟨blankSys_boot 1, fun h => ?_⟩
  have hread := h.2.1 511 (by decide)
  -- the mount has left the boot sector under the number of the partition
  have hcache : (ioStep (blankSys 1) (.fatInit 0 (some fun _ => 0) .done)).cache =
      bcacheWrite (bcacheInit true) ⟨1, 0⟩ (lineOf plainBoot) := by rfl
  have hline : ∀ d, cached (bcacheWrite (bcacheInit true) ⟨1, 0⟩ d) ⟨1, 0⟩ = some d := fun _ => rfl
  have hid : (ioStep (blankSys 1) (.fatInit 0 (some fun _ => 0) .done)).jfsId = 1 := by rfl
  rw [jfsDiskRead_eq, hid, hcache, hline] at hread
  have hbyte : (lineOf plainBoot)[511] = 0 := (fillLine_of_lt (b := fun _ => 0) (by decide)).symm.trans hread
  rw [lineOf_get (by decide)] at hbyte
  exact absurd hbyte (by decide)

/-- A volume is mounted, it and JFS write their sectors 5, and both read them. -/
def writeThenRead : List Io :=
  [.fatInit 0 (some fun _ => 0) .done, .fatWrite 0 5 (fun _ => 7) true, .jfsWrite 5 (fun _ => 9) true,
    .fatRead 0 5 (fun _ => 0) .done, .jfsRead 5 (fun _ => 0) .done]

theorem reads_agree_blank : Run.Guarded ioStep Agrees (blankSys 0) writeThenRead ∧
    ((writeThenRead.take 3).foldl ioStep (blankSys 0)).fatDisk 0 5 511 = 7 ∧
    ((writeThenRead.take 4).foldl ioStep (blankSys 0)).jfsDisk (5 * 512 + 511) = 9 := by
  have hm : Run.Guarded ioStep Met (blankSys 0) writeThenRead := by
    refine ⟨⟨by decide, by decide⟩, trivial, ⟨by decide, rfl⟩, fun vol hvol => ?_, ⟨by decide, .inl rfl⟩, trivial⟩
    have hsize : (((writeThenRead.take 3).foldl ioStep (blankSys 0)).fats[0]?).map (·.bytesPerSector) = some 512 := by
      decide +kernel
    have hvol' : ((writeThenRead.take 3).foldl ioStep (blankSys 0)).fats[0]? = some vol := hvol
    rw [hvol', Option.map_some, Option.some_inj] at hsize
    exact .inl (by rw [hsize]; decide)
  exact ⟨reads_agree _ _ (blankSys_boot 0) hm, by decide +kernel, by decide +kernel⟩

end EterOS.Fs
