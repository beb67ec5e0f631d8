import Mathlib.Data.List.FinRange
import Mathlib.Logic.Function.Basic
import EterOS.Lib.Bytes
/-!
# Jfs — the journaling filesystem (`kernel/fs/jfs.c`, `include/fs/jfs.h`)

The disk is a map from block numbers to blocks: the sector cache in front of the partition is transparent where
`Fs.reads_agree` says so.  Inodes are 64 bytes, eight to a block; directory entries are 64 bytes, eight to a block, in
the direct blocks of the directory.  Two counters in memory, not on the disk, say which block and which inode comes
next.  Every write of a block is noted with what it was meant to be.  Memory allocations succeed.
-/
namespace EterOS.Fs

open Function (update update_self update_of_ne)

/-! ## Data -/

structure Superblock where
  magic : UInt32
  blockSize : UInt32
  journalStart : UInt32
  journalBlocks : UInt32
  inodeStart : UInt32
  inodeBlocks : UInt32
  dataStart : UInt32
  totalBlocks : UInt32

structure Inode where
  inode : UInt32
  size : UInt32
  flags : UInt32
  nlink : UInt32
  blocks : Fin 12 → UInt32

instance blocks_neZero : @NeZero Nat Zero.ofOfNat0 12 := ⟨by decide⟩

structure CStr where
  bytes : List UInt8
  nonzero : 0 ∉ bytes
deriving DecidableEq

inductive Role where
  | super
  | journal
  | inode
  | data

structure Jfs where
  disk : UInt32 → Buffer
  sb : Superblock
  /-- `jfs_next_free_block`. -/
  nextFreeBlock : UInt32
  /-- `next_inode` of `jfs_alloc_inode`. -/
  nextInode : UInt32
  currentTxId : UInt32
  written : List (Role × UInt32)

inductive Errno where
  | einval
  | enotdir
  | enoent
  | eexist
  | enospc
deriving DecidableEq

def jfsMagic : UInt32 := 0x4A465321

def fsFile : UInt32 := 1

def fsDirectory : UInt32 := 2

/-! ## Records on the disk -/

def Superblock.word (sb : Superblock) : Nat → UInt32
  | 0 => sb.magic
  | 1 => sb.blockSize
  | 2 => sb.journalStart
  | 3 => sb.journalBlocks
  | 4 => sb.inodeStart
  | 5 => sb.inodeBlocks
  | 6 => sb.dataStart
  | 7 => sb.totalBlocks
  | _ => 0

def Superblock.read (b : Buffer) : Superblock where
  magic := b.get32 0
  blockSize := b.get32 4
  journalStart := b.get32 8
  journalBlocks := b.get32 12
  inodeStart := b.get32 16
  inodeBlocks := b.get32 20
  dataStart := b.get32 24
  totalBlocks := b.get32 28

def Inode.word (x : Inode) : Nat → UInt32
  | 0 => x.inode
  | 1 => x.size
  | 2 => x.flags
  | 3 => x.nlink
  | k + 4 => if h : k < 12 then x.blocks ⟨k, h⟩ else 0

def Inode.read (b : Buffer) : Inode where
  inode := b.get32 0
  size := b.get32 4
  flags := b.get32 8
  nlink := b.get32 12
  blocks := fun i => b.get32 (4 * (i + 4))

def Inode.isDirectory (x : Inode) : Bool := x.flags &&& fsDirectory = fsDirectory

/-! ## Blocks -/

def diskWrite (s : Jfs) (role : Role) (block : UInt32) (data : Buffer) : Jfs :=
  { s with disk := update s.disk block data, written := s.written ++ [(role, block)] }

/-- `jfs_journal_header_t` at the start of a zeroed sector. -/
def journalHeader (txId type target : UInt32) : Buffer :=
  Buffer.words fun
    | 0 => txId
    | 1 => type
    | 2 => target
    | _ => 0

def jfsJournalWrite (s : Jfs) (target : UInt32) (data : Buffer) : Jfs :=
  let start := s.sb.journalStart
  let s := diskWrite s .journal start (journalHeader s.currentTxId 1 0)
  let s := diskWrite s .journal (start + 1) (journalHeader s.currentTxId 2 target)
  let s := diskWrite s .journal (start + 2) data
  let s := diskWrite s .journal (start + 3) (journalHeader s.currentTxId 3 0)
  let s := diskWrite s .data target data
  { s with currentTxId := s.currentTxId + 1 }

def Superblock.inodeBlock (sb : Superblock) (idx : UInt32) : UInt32 := sb.inodeStart + idx / 8

def inodeOffset (idx : UInt32) : Nat := (idx % 8 * 64).toNat

def getInode (s : Jfs) (idx : UInt32) : Inode :=
  .read ((s.disk (s.sb.inodeBlock idx)).drop (inodeOffset idx))

def putInode (s : Jfs) (x : Inode) (idx : UInt32) : Jfs :=
  let block := s.sb.inodeBlock idx
  diskWrite s .inode block ((s.disk block).blit (inodeOffset idx) (Buffer.words x.word) 64)

def jfsAllocBlock (s : Jfs) : Jfs × Except Errno UInt32 :=
  if s.sb.totalBlocks ≤ s.nextFreeBlock then (s, .error .enospc)
  else ({ s with nextFreeBlock := s.nextFreeBlock + 1 }, .ok s.nextFreeBlock)

/-- `jfs_alloc_inode`; the mode and the owner kept in memory are left out. -/
def jfsAllocInode (s : Jfs) (flags : UInt32) : Jfs × UInt32 :=
  let freeInode := s.nextInode
  let s := { s with nextInode := s.nextInode + 1 }
  (putInode s ⟨freeInode, 0, flags, 1, fun _ => 0⟩ freeInode, freeInode)

def jfsEnsureDirBlock (s : Jfs) (dir : Inode) (i : Fin 12) : Jfs × Except Errno Inode :=
  if dir.blocks i ≠ 0 then (s, .ok dir)
  else
    match jfsAllocBlock s with
    | (s, .error _) => (s, .error .enospc)
    | (s, .ok block) =>
      (diskWrite s .data block fun _ => 0, .ok { dir with blocks := update dir.blocks i block })

/-! ## Directory entries -/

structure Slot where
  block : UInt32
  index : Nat

def Inode.slots (dir : Inode) : List Slot :=
  (((List.finRange 12).map dir.blocks).filter (· ≠ 0)).flatMap fun block => (List.range 8).map (⟨block, ·⟩)

def Slot.inode (s : Jfs) (e : Slot) : UInt32 := (s.disk e.block).get32 (64 * e.index)

def strcmpEq (b : Buffer) (off : Nat) (name : CStr) : Bool :=
  (List.range name.bytes.length).all (fun i => some (b (off + i)) == name.bytes[i]?) &&
    b (off + name.bytes.length) == 0

def Slot.named (s : Jfs) (name : CStr) (e : Slot) : Bool :=
  e.inode s ≠ 0 && strcmpEq (s.disk e.block) (64 * e.index + 4) name

def strlcpy60 (b : Buffer) (off : Nat) (name : CStr) : Buffer :=
  b.blit off (fun i => (name.bytes.take 59).getD i 0) (min name.bytes.length 59 + 1)

def fillEntry (b : Buffer) (j : Nat) (child : UInt32) (name : CStr) : Buffer :=
  strlcpy60 (b.blit (64 * j) (Buffer.words fun _ => child) 4) (64 * j + 4) name

/-- The sector with entry `j` taken out: its inode is 0 and its name empty. -/
def clearEntry (b : Buffer) (j : Nat) : Buffer := b.blit (64 * j) (fun _ => 0) 5

def jfsFindEntry (s : Jfs) (dirInode : UInt32) (name : CStr) : Except Errno Slot :=
  let dir := getInode s dirInode
  if dir.isDirectory then
    match dir.slots.find? (Slot.named s name) with
    | some e => .ok e
    | none => .error .enoent
  else .error .enotdir

/-- The loop of `jfs_add_entry`, from the block it has reached. -/
def addLoop (dirInode : UInt32) (name : CStr) (child : UInt32) : List (Fin 12) → Jfs → Inode → Jfs × Except Errno Unit
  | [], s, _ => (s, .error .enoent)
  | i :: is, s, dir =>
    match jfsEnsureDirBlock s dir i with
    | (s, .error _) => (s, .error .enospc)
    | (s, .ok dir) =>
      let s := putInode s dir dirInode
      let block := dir.blocks i
      match (List.range 8).find? fun j => (s.disk block).get32 (64 * j) = 0 with
      | some j =>
        let s := jfsJournalWrite s block (fillEntry (s.disk block) j child name)
        (putInode s { dir with size := dir.size + 64 } dirInode, .ok ())
      | none => addLoop dirInode name child is s dir

def jfsAddEntry (s : Jfs) (dirInode : UInt32) (name : CStr) (child : UInt32) : Jfs × Except Errno Unit :=
  let dir := getInode s dirInode
  if dir.isDirectory then
    match jfsFindEntry s dirInode name with
    | .ok _ => (s, .error .eexist)
    | .error _ => addLoop dirInode name child (List.finRange 12) s dir
  else (s, .error .enotdir)

def jfsRemoveEntry (s : Jfs) (dirInode : UInt32) (name : CStr) : Jfs × Except Errno UInt32 :=
  let dir := getInode s dirInode
  if dir.isDirectory then
    match dir.slots.find? (Slot.named s name) with
    | some e => (jfsJournalWrite s e.block (clearEntry (s.disk e.block) e.index), .ok (e.inode s))
    | none => (s, .error .enoent)
  else (s, .error .enotdir)

/-! ## Files -/

/-- The loop of `jfs_read`, from the byte it has reached: what it puts in the buffer.  Every turn moves a byte at
least, so `size` turns are enough. -/
def readBlocks (s : Jfs) (x : Inode) (offset size : Nat) : Nat → Nat → List UInt8
  | 0, _ => []
  | turns + 1, done =>
    if done < size then
      let pos := (offset + done) % 2 ^ 32
      if h : pos / 512 < 12 then
        let block := x.blocks ⟨pos / 512, h⟩
        if block = 0 then 0 :: readBlocks s x offset size turns (done + 1)
        else
          let chunk := min (512 - pos % 512) (size - done)
          (List.range chunk).map (fun k => s.disk block (pos % 512 + k)) ++
            readBlocks s x offset size turns (done + chunk)
      else []
    else []

def jfsRead (s : Jfs) (ino offset size : UInt32) : List UInt8 :=
  let x := getInode s ino
  if x.isDirectory then []
  else if x.size ≤ offset then []
  else
    let size := if x.size < offset + size then x.size - offset else size
    readBlocks s x offset.toNat size.toNat size.toNat 0

/-- The loop of `jfs_write`: the inode in memory and how far it came. -/
def writeBlocks (offset size : Nat) (buffer : Buffer) : Nat → Jfs → Inode → Nat → Jfs × Inode × Nat
  | 0, s, x, done => (s, x, done)
  | turns + 1, s, x, done =>
    if done < size then
      let pos := (offset + done) % 2 ^ 32
      if h : pos / 512 < 12 then
        let i : Fin 12 := ⟨pos / 512, h⟩
        let (s, x) :=
          if x.blocks i = 0 then
            ({ s with nextFreeBlock := s.nextFreeBlock + 1 }, { x with blocks := update x.blocks i s.nextFreeBlock })
          else (s, x)
        let block := x.blocks i
        let chunk := min (512 - pos % 512) (size - done)
        let s := jfsJournalWrite s block ((s.disk block).blit (pos % 512) (buffer.drop done) chunk)
        writeBlocks offset size buffer turns s x (done + chunk)
      else (s, x, done)
    else (s, x, done)

/-- `jfs_write`: the inode goes back to the disk only if the file has grown. -/
def jfsWrite (s : Jfs) (ino offset size : UInt32) (buffer : Buffer) : Jfs × Nat :=
  let x := getInode s ino
  if x.isDirectory then (s, 0)
  else
    let (s, x, done) := writeBlocks offset.toNat size.toNat buffer size.toNat s x 0
    if x.size < offset + UInt32.ofNat done then
      (putInode s { x with size := offset + UInt32.ofNat done } ino, done)
    else (s, done)

/-! ## Directories -/

/-- `jfs_readdir`: an entry's name and inode, or `none` where it returns 1. -/
def jfsReaddir (s : Jfs) (node : UInt32) (index : Nat) : Except Errno (Option Slot) :=
  let dir := getInode s node
  if dir.isDirectory then .ok (dir.slots.filter fun e => e.inode s ≠ 0)[index]?
  else .error .enotdir

def jfsFinddir (s : Jfs) (node : UInt32) (name : CStr) : Option UInt32 :=
  match jfsFindEntry s node name with
  | .ok e => some (e.inode s)
  | .error _ => none

def jfsCreate (s : Jfs) (parent : UInt32) (name : CStr) : Jfs × Except Errno Unit :=
  if name.bytes = [] then (s, .error .einval)
  else if !(getInode s parent).isDirectory then (s, .error .enotdir)
  else
    let (s, freeInode) := jfsAllocInode s fsFile
    jfsAddEntry s parent name freeInode

def jfsMkdir (s : Jfs) (parent : UInt32) (name : CStr) : Jfs × Except Errno Unit :=
  if name.bytes = [] then (s, .error .einval)
  else if !(getInode s parent).isDirectory then (s, .error .enotdir)
  else
    let (s, freeInode) := jfsAllocInode s fsDirectory
    match jfsEnsureDirBlock s (getInode s freeInode) 0 with
    | (s, .error _) => (s, .error .enospc)
    | (s, .ok dir) => jfsAddEntry (putInode s dir freeInode) parent name freeInode

def jfsLink (s : Jfs) (parent target : UInt32) (name : CStr) : Jfs × Except Errno Unit :=
  if name.bytes = [] then (s, .error .einval)
  else if !(getInode s parent).isDirectory then (s, .error .enotdir)
  else
    let x := getInode s target
    let s := putInode s { x with nlink := x.nlink + 1 } target
    match jfsAddEntry s parent name target with
    | (s, .ok ()) => (s, .ok ())
    | (s, .error e) =>
      let x := getInode s target
      (putInode s { x with nlink := x.nlink - 1 } target, .error e)

/-- An entry of inode `idx` is gone: one link less, and the inode is cleared with the last. -/
def dropLink (s : Jfs) (idx : UInt32) : Jfs :=
  let x := getInode s idx
  let x := if 0 < x.nlink then { x with nlink := x.nlink - 1 } else x
  let x := if x.nlink = 0 then { x with blocks := fun _ => 0, flags := 0, size := 0 } else x
  putInode s x idx

def jfsUnlink (s : Jfs) (parent : UInt32) (name : CStr) : Jfs × Except Errno Unit :=
  if name.bytes = [] then (s, .error .einval)
  else if !(getInode s parent).isDirectory then (s, .error .enotdir)
  else
    match jfsRemoveEntry s parent name with
    | (s, .error _) => (s, .error .enoent)
    | (s, .ok idx) => (dropLink s idx, .ok ())

def jfsRename (s : Jfs) (oldParent : UInt32) (oldName : CStr) (newParent : UInt32) (newName : CStr) :
    Jfs × Except Errno Unit :=
  if oldName.bytes = [] ∨ newName.bytes = [] then (s, .error .einval)
  else if !(getInode s oldParent).isDirectory || !(getInode s newParent).isDirectory then (s, .error .enotdir)
  else
    match jfsFindEntry s oldParent oldName with
    | .error _ => (s, .error .enoent)
    | .ok found =>
      let target := found.inode s
      let s := match jfsRemoveEntry s newParent newName with
        | (s, .ok existing) => dropLink s existing
        | (s, .error _) => s
      match jfsAddEntry s newParent newName target with
      | (s, .error e) => (s, .error e)
      | (s, .ok ()) => ((jfsRemoveEntry s oldParent oldName).1, .ok ())

/-! ## Mounting -/

/-- `jfs_init` on a partition of `length` bytes: a disk without the magic number is formatted. -/
def jfsInit (s : Jfs) (length : UInt32) : Jfs :=
  let sb := Superblock.read (s.disk 0)
  if sb.magic ≠ jfsMagic then
    let sb : Superblock := ⟨jfsMagic, 512, 1, 64, 65, 32, 100, length / 512⟩
    let s := diskWrite { s with sb } .super 0 (Buffer.words sb.word)
    let root := getInode s 0
    let s := putInode s
      { root with inode := 0, size := 0, flags := fsDirectory, blocks := update root.blocks 0 sb.dataStart } 0
    { s with nextFreeBlock := sb.dataStart + 1 }
  else { s with sb, nextFreeBlock := sb.dataStart + 1 }

end EterOS.Fs
