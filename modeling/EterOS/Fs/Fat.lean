import EterOS.Fs.Jfs
import EterOS.Fs.SectorIo
import EterOS.Lib.Chain
/-!
# Fat — the FAT32 driver

`kernel/fs/fat32.c` over a device that does what it is asked: a sector reads as it was last written (`SectorIo` says when
that is so) and `kmalloc` has memory.  A cluster is a number the FAT links to the next one; a directory is a chain of
clusters full of 32-byte entries, and an open file is a node that remembers the sector and the offset of its entry in
`impl` and `uid`.  `while` loops along a chain take as many turns as the FAT has entries.
-/
namespace EterOS.Fs

open Function (update)

structure Fat where
  vol : FatVolume
  disk : UInt32 → Buffer

/-- The fields of `fs_node_t` the driver and the system calls on a descriptor use. -/
structure FatNode where
  inode : UInt32
  length : UInt32
  /-- The sector of the entry. -/
  impl : UInt32
  /-- The offset of the entry in it. -/
  uid : UInt32
  gid : UInt32
  mask : UInt32
  flags : UInt32
deriving DecidableEq

structure DirPos where
  sector : UInt32
  offset : UInt32
deriving DecidableEq

def fat32Eoc : UInt32 := 0x0FFFFFF8

def direntEnd : UInt8 := 0x00

def direntDeleted : UInt8 := 0xE5

def attrVolumeId : UInt8 := 0x08

def attrDirectory : UInt8 := 0x10

def attrArchive : UInt8 := 0x20

def attrLongName : UInt8 := 0x0F

namespace Fat

def bps (s : Fat) : UInt32 := s.vol.bytesPerSector.toUInt32

def spc (s : Fat) : UInt32 := s.vol.sectorsPerCluster

def fatEntries (s : Fat) : Nat := s.vol.fatSize.toNat * (s.bps / 4).toNat

def writeSector (s : Fat) (sector : UInt32) (b : Buffer) : Fat := { s with disk := update s.disk sector b }

end Fat

/-! ## The FAT -/

def fatSector (s : Fat) (cluster : UInt32) : UInt32 := s.vol.fatStartLba + cluster * 4 / s.bps

def fatOffset (s : Fat) (cluster : UInt32) : Nat := (cluster * 4 % s.bps).toNat

def fat32GetNextCluster (s : Fat) (cluster : UInt32) : UInt32 :=
  (s.disk (fatSector s cluster)).get32 (fatOffset s cluster) &&& 0x0FFFFFFF

def fat32ClusterToLba (s : Fat) (cluster : UInt32) : UInt32 := s.vol.dataStartLba + (cluster - 2) * s.spc

def fat32FatSet (s : Fat) (cluster value : UInt32) : Fat :=
  s.writeSector (fatSector s cluster) ((s.disk (fatSector s cluster)).put32 (fatOffset s cluster) value)

/-- The sector of the `k`-th entry of the FAT, as the scan of the allocator meets it. -/
def scanSector (s : Fat) (k : Nat) : UInt32 := s.vol.fatStartLba + UInt32.ofNat (k / (s.bps / 4).toNat)

def scanOffset (s : Fat) (k : Nat) : Nat := 4 * (k % (s.bps / 4).toNat)

/-- The scan takes the `k`-th entry: not one of the reserved two, and free. -/
def scanFree (s : Fat) (k : Nat) : Bool :=
  2 ≤ UInt32.ofNat k && ((s.disk (scanSector s k)).get32 (scanOffset s k) &&& 0x0FFFFFFF) = 0

def zeroSectors (s : Fat) (lba : UInt32) : Nat → Fat
  | 0 => s
  | n + 1 => (zeroSectors s lba n).writeSector (lba + UInt32.ofNat n) fun _ => 0

/-- `fat32_alloc_cluster`: the first free cluster, marked as an end and zeroed. -/
def fat32AllocCluster (s : Fat) : Option (Fat × UInt32) :=
  match (List.range s.fatEntries).find? (scanFree s) with
  | none => none
  | some k =>
    let cluster := UInt32.ofNat k
    let s := s.writeSector (scanSector s k) ((s.disk (scanSector s k)).put32 (scanOffset s k) fat32Eoc)
    some (zeroSectors s (fat32ClusterToLba s cluster) s.spc.toNat, cluster)

/-! ## Directory entries -/

namespace Dirent

variable (e : Buffer)

def cluster : UInt32 := UInt32.ofNat (e.le 20 2 * 65536 + e.le 26 2)

def attr : UInt8 := e 11

def fileSize : UInt32 := e.get32 28

def isDir : Bool := attr e &&& attrDirectory ≠ 0

def withCluster (c : UInt32) : Buffer :=
  (e.blit 20 (Buffer.digits (c.toNat / 65536)) 2).blit 26 (Buffer.digits c.toNat) 2

def withSize (n : UInt32) : Buffer := e.put32 28 n

def withName (name : Buffer) : Buffer := e.blit 0 name 11

def deleted : Buffer := e.blit 0 (fun _ => direntDeleted) 1

end Dirent

def dosUpper (c : UInt8) : UInt8 := if 97 ≤ c ∧ c ≤ 122 then c - 32 else c

/-- `fat32_to_dos_name`: eight characters up to the first dot and three after it, padded with blanks. -/
def fat32ToDosName (name : CStr) : Buffer :=
  let base := ((name.bytes.takeWhile (· ≠ 46)).take 8).map dosUpper
  let ext := (((name.bytes.dropWhile (· ≠ 46)).drop 1).take 3).map dosUpper
  fun i => if i < 8 then base.getD i 32 else ext.getD (i - 8) 32

def newDirent (name : Buffer) (attr : UInt8) (cluster : UInt32) : Buffer :=
  Dirent.withCluster ((Buffer.blit (fun _ => 0) 0 name 11).blit 11 (fun _ => attr) 1) cluster

namespace Fat

def entry (s : Fat) (p : DirPos) : Buffer := (s.disk p.sector).drop p.offset.toNat

def updateDirent (s : Fat) (p : DirPos) (e : Buffer) : Fat :=
  s.writeSector p.sector ((s.disk p.sector).blit p.offset.toNat e 32)

def dirClusters (s : Fat) (cluster : UInt32) : List UInt32 :=
  walk (fat32GetNextCluster s) (fat32Eoc ≤ ·) s.fatEntries cluster

def sectorSlots (s : Fat) (sector : UInt32) : List DirPos :=
  (List.range (s.bps / 32).toNat).map fun j => ⟨sector, UInt32.ofNat (32 * j)⟩

def clusterSlots (s : Fat) (cluster : UInt32) : List DirPos :=
  (List.range s.spc.toNat).flatMap fun i => s.sectorSlots (fat32ClusterToLba s cluster + UInt32.ofNat i)

/-- The entries in the order `fat32_iterate_dir` shows them to its callback. -/
def dirSlots (s : Fat) (cluster : UInt32) : List DirPos := (s.dirClusters cluster).flatMap s.clusterSlots

def freeAt (s : Fat) (p : DirPos) : Bool := s.entry p 0 = direntEnd || s.entry p 0 = direntDeleted

/-- `fat32_find_entry_cb`, before the end of the directory. -/
def matchesAt (s : Fat) (name : Buffer) (p : DirPos) : Bool :=
  let e := s.entry p
  e 0 ≠ direntDeleted && Dirent.attr e &&& attrVolumeId = 0 && Dirent.attr e &&& attrLongName = 0 &&
    (List.range 11).all fun i => e i = name i

end Fat

/-- `fat32_find_free_dirent_in_chain`: a full directory gets one more cluster. -/
def fat32FindFreeDirentInChain (s : Fat) (cluster : UInt32) : Option (Fat × DirPos) :=
  match (s.dirSlots cluster).find? s.freeAt with
  | some p => some (s, p)
  | none =>
    let last := (s.dirClusters cluster).getLastD 0
    match fat32AllocCluster s with
    | none => none
    | some (s, new) =>
      let s := fat32FatSet s last new
      some (s, ⟨fat32ClusterToLba s new, 0⟩)

def fat32FindDirentInChain (s : Fat) (cluster : UInt32) (name : CStr) : Option DirPos :=
  ((s.dirSlots cluster).takeWhile fun p => s.entry p 0 ≠ direntEnd).find? (s.matchesAt (fat32ToDosName name))

/-! ## Files -/

def Fat.clusterSize (s : Fat) : UInt32 := s.bps * s.spc

def seekLoop (s : Fat) : Nat → UInt32 → UInt32
  | 0, current => current
  | skip + 1, current => if fat32Eoc ≤ current then fat32Eoc else seekLoop s skip (fat32GetNextCluster s current)

/-- `fat32_seek_cluster`; the offset within the cluster is `offset % cluster_size`. -/
def fat32SeekCluster (s : Fat) (first offset : UInt32) : UInt32 := seekLoop s (offset / s.clusterSize).toNat first

/-- `bytes_per_sector - offset_in_sector`, cut to what is still to do. -/
def chunkOf (s : Fat) (size done inSector : UInt32) : UInt32 :=
  if size < done + (s.bps - inSector) then size - done else s.bps - inSector

/-- The `for` loop of `fat32_read_fs` over the sectors of a cluster; a whole sector is read in place. -/
def readSectors (s : Fat) (size lba : UInt32) : Nat → UInt32 → UInt32 → UInt32 → Buffer → UInt32 × Buffer
  | 0, _, _, done, buffer => (done, buffer)
  | n + 1, i, inSector, done, buffer =>
    if size ≤ done then (done, buffer)
    else
      let chunk := chunkOf s size done inSector
      let buffer := buffer.blit done.toNat ((s.disk (lba + i)).drop inSector.toNat) chunk.toNat
      readSectors s size lba n (i + 1) 0 (done + chunk) buffer

/-- The `while` loop of `fat32_read_fs`.  Every turn moves a byte at least. -/
def readLoop (s : Fat) (size : UInt32) : Nat → UInt32 → UInt32 → UInt32 → Buffer → UInt32 × Buffer
  | 0, _, _, done, buffer => (done, buffer)
  | turns + 1, current, inCluster, done, buffer =>
    if done < size ∧ current < fat32Eoc then
      let sector := inCluster / s.bps
      let (done, buffer) := readSectors s size (fat32ClusterToLba s current) (s.spc - sector).toNat sector
        (inCluster % s.bps) done buffer
      readLoop s size turns (fat32GetNextCluster s current) 0 done buffer
    else (done, buffer)

/-- `fat32_read_fs`: what it returns, and the buffer. -/
def fat32Read (s : Fat) (node : FatNode) (offset size : UInt32) (buffer : Buffer) : UInt32 × Buffer :=
  if node.length ≤ offset then (0, buffer)
  else
    let size := if node.length < offset + size then node.length - offset else size
    let current := fat32SeekCluster s node.inode offset
    if fat32Eoc ≤ current then (0, buffer)
    else readLoop s size size.toNat current (offset % s.clusterSize) 0 buffer

/-- The `for` loop of `fat32_write_fs` over the sectors of a cluster: a whole sector is written as it is, a part of one
into what was there. -/
def writeSectors (size : UInt32) (buffer : Buffer) (lba : UInt32) : Nat → Fat → UInt32 → UInt32 → UInt32 → Fat × UInt32
  | 0, s, _, _, done => (s, done)
  | n + 1, s, i, inSector, done =>
    if size ≤ done then (s, done)
    else
      let chunk := chunkOf s size done inSector
      let s :=
        if inSector = 0 ∧ chunk = s.bps then s.writeSector (lba + i) (buffer.drop done.toNat)
        else s.writeSector (lba + i) ((s.disk (lba + i)).blit inSector.toNat (buffer.drop done.toNat) chunk.toNat)
      writeSectors size buffer lba n s (i + 1) 0 (done + chunk)

/-- The `while` loop of `fat32_write_fs`.  A cluster allocated where there is none to link it to stays allocated. -/
def writeLoop (size : UInt32) (buffer : Buffer) : Nat → Fat → UInt32 → UInt32 → UInt32 → Fat × UInt32
  | 0, s, _, _, done => (s, done)
  | turns + 1, s, current, inCluster, done =>
    if size ≤ done then (s, done)
    else if current = 0 ∨ fat32Eoc ≤ current then
      match fat32AllocCluster s with
      | none => (s, done)
      | some (s, _) => (s, done)
    else
      let sector := inCluster / s.bps
      let (s, done) := writeSectors size buffer (fat32ClusterToLba s current) (s.spc - sector).toNat s sector
        (inCluster % s.bps) done
      let next := fat32GetNextCluster s current
      if fat32Eoc ≤ next ∧ done < size then
        match fat32AllocCluster s with
        | none => (s, done)
        | some (s, new) => writeLoop size buffer turns (fat32FatSet s current new) new 0 done
      else writeLoop size buffer turns s next 0 done

def lastCluster (s : Fat) : Nat → UInt32 → UInt32
  | 0, current => current
  | turns + 1, current =>
    let next := fat32GetNextCluster s current
    if fat32Eoc ≤ next then current else lastCluster s turns next

namespace Fat

def nodePos (node : FatNode) : DirPos := ⟨node.impl, node.uid⟩

/-- A change of one field of the entry at a position, in the copy of its sector. -/
def patchDirent (s : Fat) (p : DirPos) (f : Buffer → Buffer) : Fat :=
  s.writeSector p.sector ((s.disk p.sector).blit p.offset.toNat (f (s.entry p)) 32)

end Fat

/-- `fat32_write_fs`, the part for a file without a cluster; `none` where the volume is full. -/
def firstCluster (s : Fat) (node : FatNode) : Option (Fat × FatNode) :=
  if node.inode = 0 then
    match fat32AllocCluster s with
    | none => none
    | some (s, new) =>
      some (s.patchDirent (Fat.nodePos node) (Dirent.withCluster · new), { node with inode := new })
  else some (s, node)

/-- `fat32_write_fs`, the part that finds the cluster to start at: where the chain ends before the offset, one more
cluster, from its start. -/
def startCluster (s : Fat) (node : FatNode) (offset : UInt32) : Option (Fat × UInt32 × UInt32) :=
  let current := fat32SeekCluster s node.inode offset
  if fat32Eoc ≤ current then
    let last := lastCluster s s.fatEntries node.inode
    match fat32AllocCluster s with
    | none => none
    | some (s, new) => some (fat32FatSet s last new, new, 0)
  else some (s, current, offset % s.clusterSize)

/-- `fat32_write_fs`, the end: the length in the node and in the entry. -/
def growLength (s : Fat) (node : FatNode) (reached : UInt32) : Fat × FatNode :=
  if node.length < reached then
    (s.patchDirent (Fat.nodePos node) (Dirent.withSize · reached), { node with length := reached })
  else (s, node)

/-- `fat32_write_fs`: what it returns, with the node it leaves. -/
def fat32Write (s : Fat) (node : FatNode) (offset size : UInt32) (buffer : Buffer) : Fat × FatNode × UInt32 :=
  match firstCluster s node with
  | none => (s, node, 0)
  | some (s, node) =>
    match startCluster s node offset with
    | none => (s, node, 0)
    | some (s, current, inCluster) =>
      let (s, done) := writeLoop size buffer size.toNat s current inCluster 0
      let (s, node) := growLength s node (offset + done)
      (s, node, done)

/-! ## Directories -/

def fat32Finddir (s : Fat) (dir : UInt32) (name : CStr) : Option FatNode :=
  match fat32FindDirentInChain s dir name with
  | none => none
  | some p =>
    let e := s.entry p
    some
      { inode := Dirent.cluster e
        length := Dirent.fileSize e
        impl := p.sector
        uid := p.offset
        gid := 0
        mask := if Dirent.isDir e then 0o777 else 0o666
        flags := if Dirent.isDir e then fsDirectory else fsFile }

def fat32Create (s : Fat) (parent : UInt32) (name : CStr) : Fat × Except Errno Unit :=
  match fat32FindDirentInChain s parent name with
  | some _ => (s, .error .eexist)
  | none =>
    match fat32FindFreeDirentInChain s parent with
    | none => (s, .error .enospc)
    | some (s, p) => (s.updateDirent p (newDirent (fat32ToDosName name) attrArchive 0), .ok ())

def dotName (dots : Nat) : Buffer := fun i => if i < dots then 46 else 32

def fat32Mkdir (s : Fat) (parent : UInt32) (name : CStr) : Fat × Except Errno Unit :=
  match fat32FindDirentInChain s parent name with
  | some _ => (s, .error .eexist)
  | none =>
    match fat32FindFreeDirentInChain s parent with
    | none => (s, .error .enospc)
    | some (s, p) =>
      match fat32AllocCluster s with
      | none => (s, .error .enospc)
      | some (s, cluster) =>
        let s := s.updateDirent p (newDirent (fat32ToDosName name) attrDirectory cluster)
        let parentClus := if parent = s.vol.rootCluster then 0 else parent
        let b := (Buffer.blit (fun _ => 0) 0 (newDirent (dotName 1) attrDirectory cluster) 32).blit 32
          (newDirent (dotName 2) attrDirectory parentClus) 32
        (s.writeSector (fat32ClusterToLba s cluster) b, .ok ())

/-- What `fat32_rename_fs` does with an entry that has the new name. -/
def dropTarget (s : Fat) (newParent : UInt32) (newName : CStr) : Fat :=
  match fat32FindDirentInChain s newParent newName with
  | none => s
  | some p => s.updateDirent p (Dirent.deleted (s.entry p))

def fat32Rename (s : Fat) (oldParent : UInt32) (oldName : CStr) (newParent : UInt32) (newName : CStr) :
    Fat × Except Errno Unit :=
  match fat32FindDirentInChain s oldParent oldName with
  | none => (s, .error .enoent)
  | some old =>
    let e := s.entry old
    let s := dropTarget s newParent newName
    match fat32FindFreeDirentInChain s newParent with
    | none => (s, .error .enospc)
    | some (s, new) =>
      let e := Dirent.withName e (fat32ToDosName newName)
      let s := s.updateDirent new e
      (s.updateDirent old (Dirent.deleted e), .ok ())

end EterOS.Fs
