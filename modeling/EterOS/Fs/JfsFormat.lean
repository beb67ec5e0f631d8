import EterOS.Fs.JfsFile
import EterOS.Fs.JfsOps
/-!
# JfsFormat — a partition just formatted

`jfs_init` (`kernel/fs/jfs.c`) writes the superblock and some fields of the root's inode; what else was on the disk stays.
`EmptyFs` is what a new filesystem should be: its root is like a directory that `jfs_mkdir` makes, it has no entries, and the
files made in it hold zeroes where nothing was written.  `CleanDisk` says for which disks it is.
-/
namespace EterOS.Fs

open List
open Function (update update_self update_of_ne)

def mountNew (disk : UInt32 → Buffer) (length : UInt32) : Jfs := jfsInit { blankJfs with disk } length

/-- A directory as `jfs_mkdir` makes it, with the first data block. -/
def freshRoot : Inode := (newInode 0 fsDirectory).withBlock 0 100

structure Tracked where
  jfs : Jfs
  wrote : UInt32 → Nat → Prop

inductive FsOp where
  | names (op : NameOp)
  | write (ino offset size : UInt32) (buffer : Buffer)

def Tracked.step (t : Tracked) : FsOp → Tracked
  | .names op => { t with jfs := (t.jfs.perform op).1 }
  | .write ino offset size buffer =>
    ⟨(jfsWrite t.jfs ino offset size buffer).1,
      update t.wrote ino fun pos => t.wrote ino pos ∨ offset.toNat ≤ pos ∧ pos < offset.toNat + stored offset size⟩

/-- Nodes are of inodes that were handed out, the inode table has room for the inodes made, and the partition for the blocks
written. -/
def RoomFor (t : Tracked) : FsOp → Prop
  | .names op => op.Ready t.jfs
  | .write ino offset size _ => Known t.jfs ino ∧ ((getInode t.jfs ino).isDirectory = false →
      t.jfs.nextFreeBlock.toNat + needed t.jfs ino offset size ≤ t.jfs.sb.totalBlocks.toNat)

def ReadsZeroes (t : Tracked) : Prop :=
  ∀ ino, Regular t.jfs ino → ∀ (offset size : UInt32) (k : Nat) (b : UInt8),
    (jfsRead t.jfs ino offset size)[k]? = some b → ¬ t.wrote ino (offset.toNat + k) → b = 0

/-- An empty filesystem: the root is fresh, it has no entries, nothing is found in it, and files read as zeroes where they
were not written, in every run. -/
structure EmptyFs (s : Jfs) : Prop where
  root : getInode s 0 = freshRoot
  entries : ∀ index, jfsReaddir s 0 index = .ok none
  names : ∀ name, jfsFinddir s 0 name = none
  zeroes : ∀ ops, Run.Guarded Tracked.step RoomFor ⟨s, fun _ _ => False⟩ ops →
    ∀ t ∈ Run.states Tracked.step ⟨s, fun _ _ => False⟩ ops, ReadsZeroes t

structure CleanDisk (disk : UInt32 → Buffer) (total : UInt32) : Prop where
  /-- The root's inode has one link, and no block behind the first. -/
  nlink : (Inode.read (disk 65)).nlink = 1
  blocks : ∀ i, i ≠ 0 → (Inode.read (disk 65)).blocks i = 0
  /-- The first data block has no entries. -/
  entries : ∀ j < 8, (disk 100).get32 (64 * j) = 0
  /-- The other data blocks hold zeroes. -/
  data : ∀ b : UInt32, 101 ≤ b.toNat → b.toNat < total.toNat → ∀ k < 512, disk b k = 0

variable {disk : UInt32 → Buffer} {length : UInt32} {s s' s'' : Jfs} {x : Inode} {idx d b c ino : UInt32} {name : CStr}

/-! ## What formatting leaves -/

def formatRoot (disk : UInt32 → Buffer) : Inode :=
  { Inode.read (disk 65) with
    inode := 0, size := 0, flags := fsDirectory, blocks := update (Inode.read (disk 65)).blocks 0 100 }

def relabelled (disk : UInt32 → Buffer) (total : UInt32) : Jfs :=
  diskWrite { blankJfs with disk, sb := formatted total } .super 0 (Buffer.words (formatted total).word)

theorem getInode_relabelled (disk : UInt32 → Buffer) (total : UInt32) :
    getInode (relabelled disk total) 0 = Inode.read (disk 65) := by
  have hdisk : (relabelled disk total).disk ((relabelled disk total).sb.inodeBlock 0) = disk 65 :=
    disk_diskWrite_ne (show (65 : UInt32) ≠ 0 by decide)
  have hdrop : (disk 65).drop (inodeOffset 0) = disk 65 := by
    funext i
    exact congrArg (disk 65) (Nat.zero_add i)
  rw [getInode, hdisk, hdrop]

theorem mountNew_eq (h : (Superblock.read (disk 0)).magic ≠ jfsMagic) (length : UInt32) : mountNew disk length =
    { putInode (relabelled disk (length / 512)) (formatRoot disk) 0 with nextFreeBlock := 101 } := by
  rw [mountNew, jfsInit, if_pos (show (Superblock.read (({ blankJfs with disk } : Jfs).disk 0)).magic ≠ jfsMagic from h)]
  change ({ putInode (relabelled disk (length / 512))
    { getInode (relabelled disk (length / 512)) 0 with
      inode := 0, size := 0, flags := fsDirectory,
      blocks := update (getInode (relabelled disk (length / 512)) 0).blocks 0 100 } 0 with nextFreeBlock := 101 } : Jfs) = _
  rw [getInode_relabelled]
  rfl

theorem getInode_mountNew (h : (Superblock.read (disk 0)).magic ≠ jfsMagic) :
    getInode (mountNew disk length) 0 = formatRoot disk := by
  rw [mountNew_eq h]
  exact getInode_putInode_self (s := relabelled disk (length / 512))

theorem disk_mountNew (h : (Superblock.read (disk 0)).magic ≠ jfsMagic) (h101 : 101 ≤ (length / 512).toNat)
    (hb : 100 ≤ b.toNat) :
    (mountNew disk length).disk b = disk b := by
  have hne : b ≠ 0 := by
    rintro rfl
    exact absurd hb (by decide)
  rw [mountNew_eq h]
  refine (disk_putInode (s := relabelled disk (length / 512)) (layout_formatted h101) inTable_formatted hb).trans ?_
  exact disk_diskWrite_ne hne

theorem known_mountNew (h : (Superblock.read (disk 0)).magic ≠ jfsMagic) : Known (mountNew disk length) idx ↔ idx = 0 := by
  rw [mountNew_eq h, ← UInt32.toNat_inj, UInt32.toNat_zero]
  change idx.toNat < 1 ↔ _
  omega

theorem formatRoot_eq_iff : formatRoot disk = freshRoot ↔
    (Inode.read (disk 65)).nlink = 1 ∧ ∀ i, i ≠ 0 → (Inode.read (disk 65)).blocks i = 0 := by
  constructor
  · intro h
    refine ⟨congrArg Inode.nlink h, fun i hi => ?_⟩
    have hblocks := congrFun (congrArg Inode.blocks h) i
    have hleft : (formatRoot disk).blocks i = (Inode.read (disk 65)).blocks i := update_of_ne hi _ _
    rw [← hleft, hblocks]
    exact withBlock_of_ne hi
  · rintro ⟨hnlink, hblocks⟩
    have hsame : update (Inode.read (disk 65)).blocks 0 100 = update (fun _ => 0) 0 100 := by
      funext i
      by_cases hi : i = 0
      · rw [hi, update_self, update_self]
      · rw [update_of_ne hi, update_of_ne hi, hblocks i hi]
    unfold formatRoot freshRoot newInode Inode.withBlock
    dsimp only
    rw [hnlink, hsame]

theorem freshRoot_blocks : ∀ i, freshRoot.blocks i ≠ 0 → i = 0 ∧ freshRoot.blocks i = 100 := by decide

theorem freshRoot_slots : freshRoot.slots = (List.range 8).map (⟨100, ·⟩) := rfl

theorem freshRoot_isDirectory : freshRoot.isDirectory = true := by decide

theorem readdir_none_iff (hroot : getInode s 0 = freshRoot) :
    (∀ index, jfsReaddir s 0 index = .ok none) ↔ ∀ j < 8, (s.disk 100).get32 (64 * j) = 0 := by
  have hread : ∀ index, jfsReaddir s 0 index =
      .ok (((List.range 8).map fun j => (⟨100, j⟩ : Slot)).filter fun e => e.inode s ≠ 0)[index]? := by
    intro index
    unfold jfsReaddir
    dsimp only
    rw [hroot, freshRoot_slots, if_pos freshRoot_isDirectory]
  simp only [hread]
  constructor
  · intro h j hj
    by_contra hne
    have hmem : (⟨100, j⟩ : Slot) ∈ ((List.range 8).map (⟨100, ·⟩)).filter fun e => e.inode s ≠ 0 :=
      mem_filter.2 ⟨mem_map_of_mem (mem_range.2 hj), decide_eq_true hne⟩
    obtain ⟨index, hindex⟩ := mem_iff_getElem?.1 hmem
    have hnone := Except.ok.inj (h index)
    rw [hindex] at hnone
    cases hnone
  · intro h index
    have hnil : (((List.range 8).map fun j => (⟨100, j⟩ : Slot)).filter fun e => e.inode s ≠ 0) = [] := by
      refine filter_eq_nil_iff.2 fun e he => ?_
      obtain ⟨j, hj, rfl⟩ := mem_map.1 he
      rw [decide_eq_true_iff, not_not]
      exact h j (mem_range.1 hj)
    rw [hnil, List.getElem?_nil]

theorem finddir_none (hroot : getInode s 0 = freshRoot) (h : ∀ j < 8, (s.disk 100).get32 (64 * j) = 0) (name : CStr) :
    jfsFinddir s 0 name = none := by
  unfold jfsFinddir jfsFindEntry
  dsimp only
  rw [hroot, freshRoot_slots, if_pos freshRoot_isDirectory]
  have hnone : ((List.range 8).map fun j => (⟨100, j⟩ : Slot)).find? (Slot.named s name) = none := by
    refine List.find?_eq_none.2 fun e he => ?_
    obtain ⟨j, hj, rfl⟩ := mem_map.1 he
    have hdead : Slot.inode s ⟨100, j⟩ = 0 := h j (mem_range.1 hj)
    rw [Slot.named, hdead]
    simp
  rw [hnone]

/-- **A clean disk makes a well-formed filesystem.** -/
theorem mountNew_wf (h : (Superblock.read (disk 0)).magic ≠ jfsMagic) (h101 : 101 ≤ (length / 512).toNat)
    (hroot : getInode (mountNew disk length) 0 = freshRoot) (hentries : ∀ j < 8, (disk 100).get32 (64 * j) = 0) :
    Wf (mountNew disk length) := by
  have heq := mountNew_eq h length
  have hsb : (mountNew disk length).sb = formatted (length / 512) := by rw [heq]; rfl
  have hnext : (mountNew disk length).nextFreeBlock = 101 := by rw [heq]
  have hinodes : (mountNew disk length).nextInode = 1 := by rw [heq]; rfl
  have hdisk0 : Superblock.read ((mountNew disk length).disk 0) = formatted (length / 512) := by
    rw [heq]
    change Superblock.read ((putInode (relabelled disk (length / 512)) (formatRoot disk) 0).disk 0) = _
    rw [superblock_putInode (layout_formatted h101) inTable_formatted, relabelled, disk_diskWrite_self,
      superblock_read_words]
  have hk : ∀ {idx}, Known (mountNew disk length) idx → idx = 0 := (known_mountNew h).1
  refine ⟨?_, ?_, ?_, ?_, ?_, ?_, ?_, fun idx hidx i hne => ?_, fun a a' ha ha' i i' hne heq => ?_, fun d hd _ e he => ?_,
    fun p hp => ?_⟩
  · rw [hsb]
    exact layout_formatted h101
  · rw [hdisk0, hsb]
  · rw [hsb]
    rfl
  · rw [hsb, hnext]
    exact (by decide : 100 < 101)
  · rw [hsb, hnext]
    exact h101
  · rw [hinodes]
    decide
  · rw [hinodes, hsb]
    exact (by decide : 1 ≤ 8 * 32)
  · rw [hk hidx, hroot] at hne ⊢
    rw [(freshRoot_blocks i hne).2, Taken, hsb, hnext]
    exact ⟨(by decide : 100 ≤ 100), (by decide : 100 < 101)⟩
  · rw [hk ha, hroot] at hne heq
    rw [hk ha', hroot] at heq
    exact ⟨(hk ha).trans (hk ha').symm, (freshRoot_blocks i hne).1.trans (freshRoot_blocks i' (heq ▸ hne)).1.symm⟩
  · rw [hk hd, hroot, freshRoot_slots] at he
    obtain ⟨j, hj, rfl⟩ := mem_map.1 he
    have hdead : Slot.inode (mountNew disk length) ⟨100, j⟩ = 0 := by
      rw [Slot.inode]
      dsimp only
      rw [disk_mountNew h h101 (by decide)]
      exact hentries j (mem_range.1 hj)
    refine ⟨?_, fun hlive => absurd hdead hlive⟩
    rw [hdead, hinodes]
    decide
  · rw [heq] at hp
    have hp' : p ∈ [(Role.super, (0 : UInt32)), (Role.inode, (formatted (length / 512)).inodeBlock 0)] := hp
    rw [hsb]
    simp only [mem_cons, not_mem_nil, or_false] at hp'
    rcases hp' with rfl | rfl
    · trivial
    · exact ⟨(by decide : 65 ≤ 65), (by decide : 65 < 65 + 32)⟩

/-! ## What the operations on names spare -/

/-- No block that is still free was written, and every file is a file of before with its bytes, or holds zeroes. -/
structure Spared (s s' : Jfs) : Prop where
  sb : s'.sb = s.sb
  free : s.nextFreeBlock.toNat ≤ s'.nextFreeBlock.toNat
  beyond : ∀ b : UInt32, IsData s.sb b → s'.nextFreeBlock.toNat ≤ b.toNat → s'.disk b = s.disk b
  bytes : ∀ a, Regular s' a → (∀ pos, byteOf s' (getInode s' a) pos = 0) ∨
    Regular s a ∧ ∀ pos, byteOf s' (getInode s' a) pos = byteOf s (getInode s a) pos

theorem Spared.refl (s : Jfs) : Spared s s := ⟨rfl, Nat.le_refl _, fun _ _ _ => rfl, fun _ ha => .inr ⟨ha, fun _ => rfl⟩⟩

theorem Spared.trans (h : Spared s s') (h' : Spared s' s'') : Spared s s'' where
  sb := h'.sb.trans h.sb
  free := Nat.le_trans h.free h'.free
  beyond := fun b hb hle =>
    (h'.beyond b (by rw [h.sb]; exact hb) hle).trans (h.beyond b hb (Nat.le_trans h'.free hle))
  bytes := fun a ha => by
    rcases h'.bytes a ha with hzero | ⟨ha', hsame'⟩
    · exact .inl hzero
    · rcases h.bytes a ha' with hzero | ⟨ha'', hsame⟩
      · exact .inl fun pos => (hsame' pos).trans (hzero pos)
      · exact .inr ⟨ha'', fun pos => (hsame' pos).trans (hsame pos)⟩

theorem DirStep.spared (h : Wf s) (hd : Known s d) (hdir : (getInode s d).isDirectory = true) (hs : DirStep s s' d)
    (hbeyond : ∀ b : UInt32, IsData s.sb b → s'.nextFreeBlock.toNat ≤ b.toNat → s'.disk b = s.disk b) : Spared s s' where
  sb := hs.sb
  free := hs.free
  beyond := hbeyond
  bytes := fun a ha => by
    have hk : Known s a := hs.known.1 ha.known
    by_cases hne : a = d
    · have hfile := ha.file
      rw [hne, isDirectory_congr hs.flags, hdir] at hfile
      cases hfile
    · have hsame := hs.inode a hk hne
      refine .inr ⟨⟨hk, hsame ▸ ha.file⟩, fun pos => ?_⟩
      rw [hsame]
      exact byteOf_congr rfl (fun i hi => hs.toInodeStep.disk_eq h hd hk hne hi) pos

theorem ensureDirBlock_beyond (h : Wf s) (hd : Known s d) (i : Fin 12) (x : Inode) :
    match jfsEnsureDirBlock s (getInode s d) i with
    | (_, .error _) => True
    | (s', .ok _) => s.nextFreeBlock.toNat ≤ (putInode s' x d).nextFreeBlock.toNat ∧
        ∀ b : UInt32, IsData s.sb b → (putInode s' x d).nextFreeBlock.toNat ≤ b.toNat →
        (putInode s' x d).disk b = s.disk b := by
  rw [jfsEnsureDirBlock_eq]
  by_cases hi : (getInode s d).blocks i = 0
  · rw [if_neg (not_not.2 hi)]
    by_cases hfull : s.sb.totalBlocks ≤ s.nextFreeBlock
    · rw [if_pos hfull]
      trivial
    · rw [if_neg hfull]
      have hlt : s.nextFreeBlock.toNat < s.sb.totalBlocks.toNat := by
        rw [UInt32.le_iff_toNat_le] at hfull
        omega
      have hbump : (putInode s.grow x d).nextFreeBlock.toNat = s.nextFreeBlock.toNat + 1 := bump_toNat hlt
      refine ⟨by omega, fun b hb hle => ?_⟩
      rw [disk_putInode (s := s.grow) h.layout (h.inTable hd) hb]
      refine disk_diskWrite_ne ?_
      rintro rfl
      omega
  · rw [if_pos hi]
    exact ⟨Nat.le_refl _, fun b hb _ => disk_putInode h.layout (h.inTable hd) hb⟩

theorem addLoop_beyond (name : CStr) (hc : c.toNat < s.nextInode.toNat) (h : Wf s) (hd : Known s d) :
    ∀ is, s.nextFreeBlock.toNat ≤ (addLoop d name c is s (getInode s d)).1.nextFreeBlock.toNat ∧
      ∀ b : UInt32, IsData s.sb b → (addLoop d name c is s (getInode s d)).1.nextFreeBlock.toNat ≤ b.toNat →
        (addLoop d name c is s (getInode s d)).1.disk b = s.disk b := by
  intro is
  induction is generalizing s with
  | nil => exact ⟨Nat.le_refl _, fun _ _ _ => rfl⟩
  | cons i is ih =>
    rw [addLoop]
    have hspec := ensureDirBlock_spec h hd i
    rcases hr : jfsEnsureDirBlock s (getInode s d) i with ⟨s1, err | dir⟩
    · rw [hr] at hspec
      obtain rfl : s1 = s := hspec
      exact ⟨Nat.le_refl _, fun _ _ _ => rfl⟩
    · have hbeyond := ensureDirBlock_beyond h hd i dir
      rw [hr] at hspec hbeyond
      obtain ⟨hi, -, hget, hstep, -⟩ := hspec
      obtain ⟨hfree, hbeyond⟩ := hbeyond
      dsimp only
      generalize putInode s1 dir d = s2 at hget hstep hfree hbeyond ⊢
      have hd2 : Known s2 d := hstep.known.2 hd
      have hc2 : c.toNat < s2.nextInode.toNat := by rw [hstep.next]; exact hc
      have hdata : ∀ {b : UInt32}, IsData s.sb b → IsData s2.sb b := fun hb => by rw [hstep.sb]; exact hb
      subst hget
      cases (List.range 8).find? fun j => (s2.disk ((getInode s2 d).blocks i)).get32 (64 * j) = 0 with
      | none =>
        obtain ⟨hfree', hbeyond'⟩ := ih hc2 hstep.wf hd2
        refine ⟨Nat.le_trans hfree hfree', fun b hb hle => ?_⟩
        exact (hbeyond' b (hdata hb) hle).trans (hbeyond b hb (Nat.le_trans hfree' hle))
      | some j =>
        refine ⟨hfree, fun b hb hle => ?_⟩
        dsimp only at hle ⊢
        have hle : s2.nextFreeBlock.toNat ≤ b.toNat := hle
        have htaken := hstep.wf.taken d hd2 i hi
        refine (disk_putInode (s := jfsJournalWrite s2 _ _) hstep.wf.layout (hstep.wf.inTable hd2) (hdata hb)).trans ?_
        rw [disk_jfsJournalWrite_ne hstep.wf.layout (hdata hb), hbeyond b hb hle]
        rintro rfl
        have := htaken.2
        omega

theorem addEntry_spared (name : CStr) (h : Wf s) (hd : Known s d) (hc : c.toNat < s.nextInode.toNat) :
    Spared s (jfsAddEntry s d name c).1 := by
  have hadd := addEntry_spec name h hd hc
  by_cases hdir : (getInode s d).isDirectory = true
  · refine hadd.step.spared h hd hdir ?_
    unfold jfsAddEntry
    dsimp only
    rw [if_pos hdir]
    split
    · exact fun _ _ _ => rfl
    · exact (addLoop_beyond name hc h hd (List.finRange 12)).2
  · rw [(hadd.refused (Bool.not_eq_true _ ▸ hdir)).1]
    exact .refl s

theorem removeEntry_spared (name : CStr) (h : Wf s) (hd : Known s d) : Spared s (jfsRemoveEntry s d name).1 := by
  have hrem := removeEntry_spec name h hd
  by_cases hdir : (getInode s d).isDirectory = true
  · refine hrem.step.spared h hd hdir ?_
    unfold jfsRemoveEntry
    dsimp only
    rw [if_pos hdir]
    split
    · rename_i e he
      intro b hb hle
      have htaken := h.slot_taken hd (mem_of_find?_eq_some he)
      refine disk_jfsJournalWrite_ne h.layout hb ?_
      rintro rfl
      have hle : s.nextFreeBlock.toNat ≤ e.block.toNat := hle
      have := htaken.2
      omega
    · exact fun _ _ _ => rfl
  · unfold jfsRemoveEntry
    dsimp only
    rw [if_neg hdir]
    exact .refl s

theorem putInode_spared (h : Wf s) (hk : Known s c) (hx : ∀ a, Regular (putInode s x c) a → a = c →
      (∀ i, x.blocks i = 0) ∨ x.blocks = (getInode s c).blocks ∧ (getInode s c).isDirectory = false) :
    Spared s (putInode s x c) where
  sb := rfl
  free := Nat.le_refl _
  beyond := fun b hb _ => disk_putInode h.layout (h.inTable hk) hb
  bytes := fun a ha => by
    have hka : Known s a := ha.known
    have hdisk : ∀ i, (getInode s a).blocks i ≠ 0 →
        (putInode s x c).disk ((getInode s a).blocks i) = s.disk ((getInode s a).blocks i) :=
      fun i hi => disk_putInode h.layout (h.inTable hk) (h.taken a hka i hi).1
    by_cases hne : a = c
    · subst hne
      rw [getInode_putInode_self]
      rcases hx a ha rfl with hzero | ⟨hblocks, hfile⟩
      · refine .inl fun pos => ?_
        unfold byteOf
        split
        · rw [if_pos (hzero _)]
        · rfl
      · exact .inr ⟨⟨hka, hfile⟩, fun pos => byteOf_congr hblocks hdisk pos⟩
    · have hsame : getInode (putInode s x c) a = getInode s a :=
        getInode_putInode_ne h.layout (h.inTable hk) (h.inTable hka) hne
      rw [hsame]
      exact .inr ⟨⟨hka, hsame ▸ ha.file⟩, fun pos => byteOf_congr rfl hdisk pos⟩

theorem relink_spared (h : Wf s) (hk : Known s c) (n : UInt32) :
    Spared s (putInode s { getInode s c with nlink := n } c) := by
  refine putInode_spared h hk fun a ha hac => .inr ⟨rfl, ?_⟩
  have hfile := ha.file
  rw [hac, getInode_putInode_self] at hfile
  exact hfile

theorem dropLink_spared (h : Wf s) (hk : Known s c) : Spared s (dropLink s c) := by
  unfold dropLink
  dsimp only
  refine putInode_spared h hk fun a ha hac => ?_
  have hfile := ha.file
  rw [hac, getInode_putInode_self] at hfile
  by_cases hlast : (if 0 < (getInode s c).nlink then { getInode s c with nlink := (getInode s c).nlink - 1 }
      else getInode s c).nlink = 0
  · rw [if_pos hlast]
    exact .inl fun _ => rfl
  · rw [if_neg hlast] at hfile ⊢
    have hblocks : (if 0 < (getInode s c).nlink then { getInode s c with nlink := (getInode s c).nlink - 1 }
        else getInode s c).blocks = (getInode s c).blocks := by
      split <;> rfl
    have hflags : (if 0 < (getInode s c).nlink then { getInode s c with nlink := (getInode s c).nlink - 1 }
        else getInode s c).flags = (getInode s c).flags := by
      split <;> rfl
    exact .inr ⟨hblocks, isDirectory_congr hflags ▸ hfile⟩

theorem allocInode_spared (h : Wf s) (hlt : s.nextInode.toNat < 8 * s.sb.inodeBlocks.toNat) (flags : UInt32) :
    Spared s (jfsAllocInode s flags).1 where
  sb := rfl
  free := Nat.le_refl _
  beyond := fun b hb _ => disk_allocInode h hlt flags hb
  bytes := fun a ha => by
    rcases (allocInode_known h hlt flags).1 ha.known with hk | rfl
    · have hsame := getInode_allocInode_ne h hlt flags hk
      rw [hsame]
      exact .inr ⟨⟨hk, hsame ▸ ha.file⟩, fun pos =>
        byteOf_congr rfl (fun i hi => disk_allocInode h hlt flags (h.taken a hk i hi).1) pos⟩
    · rw [getInode_allocInode_self]
      refine .inl fun pos => ?_
      unfold byteOf
      split
      · exact if_pos rfl
      · rfl

/-! ## Each operation -/

section Ops

variable {parent target : UInt32} (h : Wf s) (hp : Known s parent)
include h hp

theorem create_spared (hroom : TableRoom s parent name) : Spared s (jfsCreate s parent name).1 := by
  unfold jfsCreate
  by_cases hname : name.bytes = []
  · rw [if_pos hname]
    exact .refl s
  rw [if_neg hname]
  by_cases hdir : (getInode s parent).isDirectory = true
  · have hlt := hroom hname hdir
    rw [hdir]
    exact (allocInode_spared h hlt fsFile).trans (addEntry_spared name (h.allocInode hlt fsFile)
      ((allocInode_known h hlt fsFile).2 (.inl hp)) (by rw [allocInode_nextInode h hlt]; exact Nat.lt_succ_self _))
  · rw [Bool.not_eq_true] at hdir
    rw [hdir]
    exact .refl s

theorem mkdir_spared (hroom : TableRoom s parent name) : Spared s (jfsMkdir s parent name).1 := by
  unfold jfsMkdir
  by_cases hname : name.bytes = []
  · rw [if_pos hname]
    exact .refl s
  rw [if_neg hname]
  by_cases hdir : (getInode s parent).isDirectory = true
  · have hlt := hroom hname hdir
    have hmade := allocInode_spared h hlt fsDirectory
    have hwf := h.allocInode hlt fsDirectory
    have hnext := allocInode_nextInode h hlt fsDirectory
    have hp' : Known (jfsAllocInode s fsDirectory).1 parent := (allocInode_known h hlt fsDirectory).2 (.inl hp)
    have hk : Known (jfsAllocInode s fsDirectory).1 s.nextInode := (allocInode_known h hlt fsDirectory).2 (.inr rfl)
    have hisdir : (getInode (jfsAllocInode s fsDirectory).1 s.nextInode).isDirectory = true := by
      rw [getInode_allocInode_self]
      exact (by decide : (newInode 0 fsDirectory).isDirectory = true)
    have hspec := ensureDirBlock_spec hwf hk 0
    rw [hdir]
    change Spared s (match jfsEnsureDirBlock (jfsAllocInode s fsDirectory).1
        (getInode (jfsAllocInode s fsDirectory).1 s.nextInode) 0 with
      | (s, .error _) => ((s, .error .enospc) : Jfs × Except Errno Unit)
      | (s', .ok dir) => jfsAddEntry (putInode s' dir s.nextInode) parent name s.nextInode).1
    rcases hr : jfsEnsureDirBlock (jfsAllocInode s fsDirectory).1
        (getInode (jfsAllocInode s fsDirectory).1 s.nextInode) 0 with
      ⟨s1, err | dir⟩
    · rw [hr] at hspec
      obtain rfl : s1 = _ := hspec
      exact hmade
    · have hbeyond := ensureDirBlock_beyond hwf hk 0 dir
      rw [hr] at hspec hbeyond
      obtain ⟨-, -, -, hstep, -⟩ := hspec
      refine hmade.trans ((hstep.spared hwf hk hisdir hbeyond.2).trans ?_)
      refine addEntry_spared name hstep.wf (hstep.known.2 hp') ?_
      rw [hstep.next, hnext]
      exact Nat.lt_succ_self _
  · rw [Bool.not_eq_true] at hdir
    rw [hdir]
    exact .refl s

theorem link_spared (ht : Known s target) : Spared s (jfsLink s parent target name).1 := by
  unfold jfsLink
  by_cases hname : name.bytes = []
  · rw [if_pos hname]
    exact .refl s
  rw [if_neg hname]
  by_cases hdir : (getInode s parent).isDirectory = true
  · have hl := Relinked.put h ht ((getInode s target).nlink + 1)
    have hput := relink_spared h ht ((getInode s target).nlink + 1)
    have htlt : target.toNat < (putInode s { getInode s target with nlink := (getInode s target).nlink + 1 }
      target).nextInode.toNat := ht
    have hadded := addEntry_spec name hl.step.wf (hl.step.known.2 hp) htlt
    have hadd := addEntry_spared name hl.step.wf (hl.step.known.2 hp) htlt
    rw [hdir]
    simp only [Bool.not_true, Bool.false_eq_true, if_false]
    generalize putInode s _ target = s1 at hl hput hadd hadded ⊢
    generalize jfsAddEntry s1 parent name target = r1 at hadd hadded ⊢
    obtain ⟨s2, e | u⟩ := r1
    · exact hput.trans (hadd.trans (relink_spared hadded.step.wf (hadded.step.known.2 (hl.step.known.2 ht)) _))
    · exact hput.trans hadd
  · rw [Bool.not_eq_true] at hdir
    rw [hdir]
    exact .refl s

theorem unlink_spared : Spared s (jfsUnlink s parent name).1 := by
  unfold jfsUnlink
  by_cases hname : name.bytes = []
  · rw [if_pos hname]
    exact .refl s
  rw [if_neg hname]
  by_cases hdir : (getInode s parent).isDirectory = true
  · have hrem := removeEntry_spec name h hp
    have hspared := removeEntry_spared name h hp
    rw [hdir]
    simp only [Bool.not_true, Bool.false_eq_true, if_false]
    generalize jfsRemoveEntry s parent name = r at hrem hspared ⊢
    obtain ⟨s1, e | c⟩ := r
    · exact hspared
    · exact hspared.trans (dropLink_spared hrem.step.wf (hrem.step.known.2 (hrem.ok c rfl).2.1))
  · rw [Bool.not_eq_true] at hdir
    rw [hdir]
    exact .refl s

omit hp in
theorem freeName_spared (name : CStr) (hd : Known s d) : Spared s (freeName s d name) := by
  have hrem := removeEntry_spec name h hd
  have hspared := removeEntry_spared name h hd
  unfold freeName
  generalize jfsRemoveEntry s d name = r at hrem hspared ⊢
  obtain ⟨s1, e | c⟩ := r
  · exact hspared
  · exact hspared.trans (dropLink_spared hrem.step.wf (hrem.step.known.2 (hrem.ok c rfl).2.1))

theorem rename_spared (hd : Known s d) (oldName newName : CStr) : Spared s (jfsRename s parent oldName d newName).1 := by
  have hfind := findEntry_eq oldName h hp
  rw [jfsRename_eq]
  by_cases hname : oldName.bytes = [] ∨ newName.bytes = []
  · rw [if_pos hname]
    exact .refl s
  rw [if_neg hname]
  by_cases hdir : (!(getInode s parent).isDirectory || !(getInode s d).isDirectory) = true
  · rw [if_pos hdir]
    exact .refl s
  rw [if_neg hdir]
  cases hf : jfsFindEntry s parent oldName with
  | error e => exact .refl s
  | ok found =>
    have hlookup : lookup (entries s parent) oldName = some (found.inode s) := by rw [← hfind, hf]
    have ht : Known s (found.inode s) := h.entry_known hp (mem_of_lookup hlookup)
    obtain ⟨-, hnext, hwf⟩ := freeName_spec newName h hd
    have hfree := freeName_spared h newName hd
    dsimp only
    generalize found.inode s = t at ht ⊢
    generalize freeName s d newName = s1 at hnext hwf hfree ⊢
    have hd1 : Known s1 d := by rw [Known, hnext]; exact hd
    have ht1 : t.toNat < s1.nextInode.toNat := by rw [hnext]; exact ht
    have hadded := addEntry_spec newName hwf hd1 ht1
    have hadd := addEntry_spared newName hwf hd1 ht1
    generalize jfsAddEntry s1 d newName t = r at hadd hadded ⊢
    obtain ⟨s2, e | u⟩ := r
    · exact hfree.trans hadd
    · have hp2 : Known s2 parent := by
        rw [Known, hadded.step.next, hnext]
        exact hp
      exact hfree.trans (hadd.trans (removeEntry_spared oldName hadded.step.wf hp2))

end Ops

theorem perform_spared (h : Wf s) {op : NameOp} (hr : op.Ready s) : Spared s (s.perform op).1 := by
  cases op with
  | create parent name => exact create_spared h hr.1 hr.2
  | mkdir parent name => exact mkdir_spared h hr.1 hr.2
  | link parent target name => exact link_spared h hr.1 hr.2
  | unlink parent name => exact unlink_spared h hr
  | rename oldParent oldName newParent newName => exact rename_spared h hr.1 hr.2 oldName newName

/-! ## Zeroes -/

/-- Where a file was not written it holds zeroes, and so do the blocks that are still free. -/
structure Zeroed (t : Tracked) : Prop where
  wf : Wf t.jfs
  files : ∀ ino, Regular t.jfs ino → ∀ pos, ¬ t.wrote ino pos → byteOf t.jfs (getInode t.jfs ino) pos = 0
  free : ∀ b : UInt32, t.jfs.nextFreeBlock.toNat ≤ b.toNat → b.toNat < t.jfs.sb.totalBlocks.toNat →
    ∀ k < 512, t.jfs.disk b k = 0

variable {t : Tracked} {offset size : UInt32} {buffer : Buffer}

theorem Zeroed.names (h : Zeroed t) {op : NameOp} (hr : op.Ready t.jfs) : Zeroed (t.step (.names op)) := by
  have hspared := perform_spared h.wf hr
  have hdata := h.wf.start
  refine ⟨h.wf.perform hr, fun ino hino pos hpos => ?_, fun b hb htotal k hk => ?_⟩
  · rcases hspared.bytes ino hino with hzero | ⟨hold, hsame⟩
    · exact hzero pos
    · exact (hsame pos).trans (h.files ino hold pos hpos)
  · have hb : (t.jfs.perform op).1.nextFreeBlock.toNat ≤ b.toNat := hb
    have hfree := hspared.free
    have htotal' : b.toNat < t.jfs.sb.totalBlocks.toNat := by
      rw [← hspared.sb]
      exact htotal
    have hisdata : IsData t.jfs.sb b := by
      rw [IsData]
      omega
    change (t.jfs.perform op).1.disk b k = 0
    rw [hspared.beyond b hisdata hb]
    exact h.free b (by omega) htotal' k hk

theorem Zeroed.unwritten (h : Zeroed t) (hreg : Regular t.jfs ino) {f : Nat → UInt8} {hi : Nat} {x' : Inode}
    (hw : Wrote ino t.jfs (getInode t.jfs ino) s' x' f offset.toNat hi) {pos : Nat}
    (hpos : ¬ (offset.toNat ≤ pos ∧ pos < hi)) (hnot : ¬ t.wrote ino pos) : byteOf s' x' pos = 0 := by
  by_cases hmax : pos < maxBytes
  · have hp : pos / 512 < 12 := by
      rw [maxBytes] at hmax
      omega
    rw [hw.bytes pos hmax, if_neg hpos]
    rcases hw.grown ⟨pos / 512, hp⟩ with hsame | ⟨-, hfresh⟩
    · rw [byteOf_of_block hsame]
      exact h.files ino hreg pos hnot
    · unfold byteOf
      rw [dif_pos hp]
      by_cases hzero : x'.blocks ⟨pos / 512, hp⟩ = 0
      · rw [if_pos hzero]
      · rw [if_neg hzero]
        have htaken := (hw.held.taken hzero).2
        have htotal := hw.held.wf.free
        rw [hw.sb] at htotal
        exact h.free _ hfresh (by omega) _ (Nat.mod_lt _ (by decide))
  · unfold byteOf
    rw [dif_neg]
    rw [maxBytes] at hmax
    omega

theorem Zeroed.write (h : Zeroed t) (hk : Known t.jfs ino) (hroom : (getInode t.jfs ino).isDirectory = false →
    t.jfs.nextFreeBlock.toNat + needed t.jfs ino offset size ≤ t.jfs.sb.totalBlocks.toNat) :
    Zeroed (t.step (.write ino offset size buffer)) := by
  by_cases hfile : (getInode t.jfs ino).isDirectory = false
  · have hspec : FileWrite _ _ _ _ buffer _ := jfsWrite_spec h.wf hk hfile (hroom hfile)
    obtain ⟨s', hr, hw⟩ := writeBlocks_start buffer h.wf hk hfile (hroom hfile)
    have hnot : ¬ (getInode t.jfs ino).isDirectory = true := by
      rw [hfile]
      decide
    have hL := hw.held.wf.layout
    have hin := hw.held.wf.inTable hw.held.known
    -- the inode in memory goes back, or it does not
    have hcases : ((jfsWrite t.jfs ino offset size buffer).1.nextFreeBlock = s'.nextFreeBlock ∧
        ∀ b, IsData s'.sb b → (jfsWrite t.jfs ino offset size buffer).1.disk b = s'.disk b) ∧
        ((getInode (jfsWrite t.jfs ino offset size buffer).1 ino).blocks = (afterWrite t.jfs ino offset size).blocks ∨
          (getInode (jfsWrite t.jfs ino offset size buffer).1 ino).blocks = (getInode t.jfs ino).blocks) := by
      simp only [jfsWrite, if_neg hnot, hr]
      split
      · refine ⟨⟨rfl, fun b hb => disk_putInode hL hin hb⟩, .inl ?_⟩
        rw [getInode_putInode_self]
      · refine ⟨⟨rfl, fun b _ => rfl⟩, .inr ?_⟩
        rw [hw.inode ino hk]
    obtain ⟨⟨hnext, hdisk⟩, hblocks⟩ := hcases
    unfold Tracked.step
    dsimp only
    generalize jfsWrite t.jfs ino offset size buffer = r at hspec hnext hdisk hblocks ⊢
    refine ⟨hspec.wf, fun a ha pos hpos => ?_, fun b hb htotal k hk512 => ?_⟩
    · have hka : Known t.jfs a := by
        rw [Known, ← hspec.next]
        exact ha.known
      by_cases hne : a = ino
      · subst hne
        dsimp only at hpos ⊢
        rw [update_self, not_or] at hpos
        have hzero := h.unwritten ⟨hk, hfile⟩ hw hpos.2 hpos.1
        have hsame : ∀ y : Inode, y.blocks = (afterWrite t.jfs a offset size).blocks → byteOf r.1 y pos = 0 := by
          intro y hy
          rw [← hzero]
          exact byteOf_congr hy (fun i hi => hdisk _ (hw.held.taken hi).1) pos
        rcases hblocks with hback | hkept
        · exact hsame _ hback
        · -- the blocks taken are forgotten
          by_cases hp : pos / 512 < 12
          · by_cases hhole : (getInode t.jfs a).blocks ⟨pos / 512, hp⟩ = 0
            · unfold byteOf
              rw [dif_pos hp, hkept, if_pos hhole]
            · have hold : (afterWrite t.jfs a offset size).blocks ⟨pos / 512, hp⟩ =
                  (getInode t.jfs a).blocks ⟨pos / 512, hp⟩ :=
                (hw.grown ⟨pos / 512, hp⟩).resolve_right fun hc => hhole hc.1
              rw [← hsame (afterWrite t.jfs a offset size) rfl]
              exact byteOf_of_block ((congrFun hkept _).trans hold.symm)
          · unfold byteOf
            rw [dif_neg hp]
      · dsimp only at hpos ⊢
        rw [update_of_ne hne] at hpos
        rw [hspec.other h.wf hk hka hne pos]
        have hfile' := ha.file
        dsimp only at hfile'
        rw [hspec.inode a hka hne] at hfile'
        exact h.files a ⟨hka, hfile'⟩ pos hpos
    · dsimp only at hb htotal ⊢
      rw [hnext] at hb
      rw [hspec.sb] at htotal
      have hstart := h.wf.start
      have hfree := hw.free
      have hisdata : IsData s'.sb b := by
        rw [hw.sb, IsData]
        omega
      rw [hdisk b hisdata, hw.beyond b hb]
      exact h.free b (by omega) htotal k hk512
  · rw [Bool.not_eq_false] at hfile
    have hnothing : (jfsWrite t.jfs ino offset size buffer).1 = t.jfs := by
      unfold jfsWrite
      dsimp only
      rw [if_pos hfile]
    unfold Tracked.step
    dsimp only
    rw [hnothing]
    refine ⟨h.wf, fun a ha pos hpos => h.files a ha pos fun hc => hpos ?_, h.free⟩
    dsimp only
    by_cases hne : a = ino
    · rw [hne, update_self]
      exact .inl (hne ▸ hc)
    · rw [update_of_ne hne]
      exact hc

theorem Zeroed.step (h : Zeroed t) (op : FsOp) (hm : RoomFor t op) : Zeroed (t.step op) := by
  cases op with
  | names op => exact h.names hm
  | write ino offset size buffer => exact h.write hm.1 hm.2

theorem jfsRead_byteOf (hfile : (getInode s ino).isDirectory = false) {k : Nat} {b : UInt8}
    (h : (jfsRead s ino offset size)[k]? = some b) : b = byteOf s (getInode s ino) (offset.toNat + k) := by
  unfold jfsRead at h
  dsimp only at h
  rw [hfile, if_neg Bool.false_ne_true] at h
  split at h
  · cases h
  generalize (if (getInode s ino).size < offset + size then (getInode s ino).size - offset else size) = n at h
  by_cases hmax : offset.toNat ≤ maxBytes
  · rw [readBlocks_spec s _ _ _ _ 0 (by omega) (Nat.zero_le _) (by omega), List.getElem?_map, Option.map_eq_some_iff] at h
    obtain ⟨m, hm, rfl⟩ := h
    rw [List.getElem?_range] at hm
    · rw [← Option.some.inj hm, Nat.add_zero]
    · by_contra hc
      rw [List.getElem?_eq_none (by rw [length_range]; omega)] at hm
      cases hm
  · -- behind the last block nothing is read
    have hnil : readBlocks s (getInode s ino) offset.toNat n.toNat n.toNat 0 = [] := by
      cases n.toNat with
      | zero => rfl
      | succ m =>
        have := offset.toNat_lt
        rw [maxBytes] at hmax
        rw [readBlocks, if_pos (Nat.succ_pos m)]
        dsimp only
        rw [dif_neg (by omega)]
    rw [hnil] at h
    cases h

theorem Zeroed.reads (h : Zeroed t) : ReadsZeroes t := by
  intro ino hreg offset size k b hb hnot
  rw [jfsRead_byteOf hreg.file hb]
  exact h.files ino hreg _ hnot

/-! ## A file with what was on the disk -/

theorem jfsWrite_nothing (hfile : (getInode s ino).isDirectory = false) (buffer : Buffer) :
    (jfsWrite s ino offset 0 buffer).1 =
      if (getInode s ino).size < offset then putInode s { getInode s ino with size := offset } ino else s := by
  unfold jfsWrite
  dsimp only
  rw [hfile, if_neg Bool.false_ne_true]
  have hturns : writeBlocks offset.toNat (0 : UInt32).toNat buffer (0 : UInt32).toNat s (getInode s ino) 0 =
    (s, getInode s ino, 0) := rfl
  rw [hturns]
  dsimp only
  rw [show offset + UInt32.ofNat 0 = offset from UInt32.add_zero offset]
  split <;> rfl

def oneByte (s : Jfs) (offset : UInt32) (buffer : Buffer) : Jfs :=
  jfsJournalWrite s.bump s.nextFreeBlock ((s.disk s.nextFreeBlock).blit (offset.toNat % 512) (buffer.drop 0) 1)

theorem jfsWrite_oneByte (hfile : (getInode s ino).isDirectory = false) (hhole : (getInode s ino).blocks 0 = 0)
    (hoffset : offset.toNat < 512) (buffer : Buffer) :
    (jfsWrite s ino offset 1 buffer).1 = if (getInode s ino).size < offset + 1 then
        putInode (oneByte s offset buffer) { (getInode s ino).withBlock 0 s.nextFreeBlock with size := offset + 1 } ino
      else oneByte s offset buffer := by
  have hpos : (offset.toNat + 0) % 2 ^ 32 = offset.toNat := by omega
  have hp : offset.toNat / 512 < 12 := by omega
  have hzero : (⟨offset.toNat / 512, hp⟩ : Fin 12) = 0 := Fin.ext (by simp only [Fin.val_zero]; omega)
  have hchunk : min (512 - offset.toNat % 512) (1 - 0) = 1 := by omega
  have hturns : writeBlocks offset.toNat (1 : UInt32).toNat buffer (1 : UInt32).toNat s (getInode s ino) 0 =
      (oneByte s offset buffer, (getInode s ino).withBlock 0 s.nextFreeBlock, 1) := by
    change writeBlocks offset.toNat 1 buffer 1 s (getInode s ino) 0 = _
    rw [writeBlocks, if_pos (by decide)]
    simp only [hpos]
    rw [dif_pos hp]
    simp only [hzero, hhole, if_true, hchunk, update_self]
    rfl
  unfold jfsWrite
  dsimp only
  rw [hfile, if_neg Bool.false_ne_true, hturns]
  dsimp only
  rw [show UInt32.ofNat 1 = 1 from rfl]
  have hsize : ((getInode s ino).withBlock 0 s.nextFreeBlock).size = (getInode s ino).size := rfl
  rw [hsize]
  split <;> rfl

theorem needed_one_le (s : Jfs) (ino : UInt32) (hoffset : offset.toNat < 512) : needed s ino offset 1 ≤ 1 := by
  have hsub : holeSet (getInode s ino) offset.toNat (offset.toNat + (1 : UInt32).toNat) ⊆ {0} := by
    intro i hi
    obtain ⟨-, -, -, hlt⟩ := mem_holeSet.1 hi
    have hone : (1 : UInt32).toNat = 1 := rfl
    rw [Finset.mem_singleton]
    exact Fin.ext (by simp only [Fin.val_zero]; omega)
  exact Finset.card_le_card hsub

theorem needed_nothing (s : Jfs) (ino offset : UInt32) : needed s ino offset 0 = 0 :=
  Finset.card_eq_zero.2 (holeSet_empty (.inl (Nat.le_refl _)))

def Reaches (t : Tracked) (P : Tracked → Prop) : Prop :=
  ∃ ops, Run.Guarded Tracked.step RoomFor t ops ∧ P (ops.foldl Tracked.step t)

theorem Reaches.step {P Q : Tracked → Prop} (h : Reaches t P) (hstep : ∀ t, P t → ∃ op, RoomFor t op ∧ Q (t.step op)) :
    Reaches t Q := by
  obtain ⟨ops, hm, hP⟩ := h
  obtain ⟨op, hop, hQ⟩ := hstep _ hP
  refine ⟨ops ++ [op], Run.guarded_append.2 ⟨hm, hop, trivial⟩, ?_⟩
  rw [foldl_append]
  exact hQ

/-- File 1 as it was made, but for its size and its first block; the free blocks hold what they held. -/
structure Primed (disk : UInt32 → Buffer) (total : UInt32) (k next : Nat) (x : Inode) (t : Tracked) : Prop where
  wf : Wf t.jfs
  known : Known t.jfs 1
  inode : getInode t.jfs 1 = x
  nextFree : t.jfs.nextFreeBlock.toNat = next
  blocks : t.jfs.sb.totalBlocks = total
  free : ∀ b : UInt32, next ≤ b.toNat → t.jfs.disk b = disk b
  wrote : ¬ t.wrote 1 k

section Primed

variable {total : UInt32} {k next : Nat}

def sized (size : UInt32) : Inode := { newInode 1 fsFile with size }

theorem Primed.grow {n : UInt32} (h : Primed disk total k next x t) (hfile : x.isDirectory = false) (hlt : x.size < n) :
    RoomFor t (.write 1 n 0 fun _ => 0) ∧ Primed disk total k next { x with size := n }
      (t.step (.write 1 n 0 fun _ => 0)) := by
  have hfile' : (getInode t.jfs 1).isDirectory = false := h.inode ▸ hfile
  have hneeded : t.jfs.nextFreeBlock.toNat + needed t.jfs 1 n 0 ≤ t.jfs.sb.totalBlocks.toNat := by
    rw [needed_nothing]
    exact h.wf.free
  have hspec : FileWrite _ _ _ _ (fun _ => 0) _ := jfsWrite_spec h.wf h.known hfile' hneeded
  have hwrite : (jfsWrite _ _ n 0 fun _ => 0).1 = _ := jfsWrite_nothing hfile' fun _ => 0
  rw [h.inode, if_pos hlt] at hwrite
  refine ⟨⟨h.known, fun _ => hneeded⟩, hspec.wf, ?_, ?_, ?_, ?_, fun b hb => ?_, ?_⟩
  · exact (congrArg (fun m => (1 : UInt32).toNat < UInt32.toNat m) hspec.next).mpr h.known
  · change getInode (jfsWrite t.jfs 1 n 0 fun _ => 0).1 1 = _
    rw [hwrite, getInode_putInode_self]
  · change (jfsWrite t.jfs 1 n 0 fun _ => 0).1.nextFreeBlock.toNat = _
    rw [hwrite]
    exact h.nextFree
  · change (jfsWrite t.jfs 1 n 0 fun _ => 0).1.sb.totalBlocks = _
    rw [hspec.sb]
    exact h.blocks
  · change (jfsWrite t.jfs 1 n 0 fun _ => 0).1.disk b = _
    have hstart := h.wf.start
    have hnext := h.nextFree
    rw [hwrite, disk_putInode h.wf.layout (h.wf.inTable h.known) (by rw [IsData]; omega)]
    exact h.free b hb
  · change ¬ update t.wrote 1 _ 1 k
    rw [update_self]
    rintro (hc | hc)
    · exact h.wrote hc
    · have hstored : stored n 0 = 0 := Nat.zero_min _
      omega

theorem Primed.vain {v : UInt32} (h : Primed disk total k next (sized 2) t) (hv : v.toNat < 2) (hk : v.toNat ≠ k)
    (hroom : next < total.toNat) :
    RoomFor t (.write 1 v 1 fun _ => 0) ∧ Primed disk total k (next + 1) (sized 2) (t.step (.write 1 v 1 fun _ => 0)) := by
  have hfile' : (getInode t.jfs 1).isDirectory = false := h.inode ▸ (by decide : (sized 2).isDirectory = false)
  have hnext := h.nextFree
  have htotal := h.blocks
  have hone := needed_one_le t.jfs 1 (show v.toNat < 512 by omega)
  have hneeded : t.jfs.nextFreeBlock.toNat + needed t.jfs 1 v 1 ≤ t.jfs.sb.totalBlocks.toNat := by
    rw [htotal]
    omega
  have hspec : FileWrite _ _ _ _ (fun _ => 0) _ := jfsWrite_spec h.wf h.known hfile' hneeded
  have hhole : (getInode t.jfs 1).blocks 0 = 0 := by
    rw [h.inode]
    rfl
  have hnot : ¬ (getInode t.jfs 1).size < v + 1 := by
    have honeNat : (1 : UInt32).toNat = 1 := rfl
    have htwo : (2 : UInt32).toNat = 2 := rfl
    rw [h.inode, UInt32.lt_iff_toNat_lt, UInt32.toNat_add, honeNat]
    change ¬ (2 : UInt32).toNat < _
    omega
  have hwrite := jfsWrite_oneByte hfile' hhole (show v.toNat < 512 by omega) fun _ => 0
  rw [if_neg hnot] at hwrite
  have hlt : t.jfs.nextFreeBlock.toNat < t.jfs.sb.totalBlocks.toNat := by
    rw [htotal]
    omega
  obtain ⟨hbump, hunowned⟩ := h.wf.bump hlt
  refine ⟨⟨h.known, fun _ => hneeded⟩, hspec.wf, ?_, ?_, ?_, ?_, fun b hb => ?_, ?_⟩
  · exact (congrArg (fun m => (1 : UInt32).toNat < UInt32.toNat m) hspec.next).mpr h.known
  · change getInode (jfsWrite t.jfs 1 v 1 fun _ => 0).1 1 = _
    rw [hwrite, ← h.inode]
    exact getInode_jfsJournalWrite (s := t.jfs.bump) h.wf.layout (h.wf.inTable h.known) hunowned.taken.1
  · change (jfsWrite t.jfs 1 v 1 fun _ => 0).1.nextFreeBlock.toNat = _
    rw [hwrite]
    exact (bump_toNat hlt).trans (by rw [hnext])
  · change (jfsWrite t.jfs 1 v 1 fun _ => 0).1.sb.totalBlocks = _
    rw [hspec.sb]
    exact htotal
  · change (jfsWrite t.jfs 1 v 1 fun _ => 0).1.disk b = _
    have hstart := h.wf.start
    rw [hwrite]
    refine (disk_jfsJournalWrite_ne (s := t.jfs.bump) h.wf.layout
      (show t.jfs.sb.dataStart.toNat ≤ b.toNat by omega) ?_).trans
      (h.free b (by omega))
    rintro rfl
    omega
  · change ¬ update t.wrote 1 _ 1 k
    rw [update_self]
    rintro (hc | hc)
    · exact h.wrote hc
    · have hstored : stored v 1 ≤ 1 := Nat.min_le_left _ _
      omega

theorem Primed.grow_disk {n : UInt32} (h : Primed disk total k next x t) (hfile : x.isDirectory = false) (hlt : x.size < n)
    (hb : IsData t.jfs.sb b) : (t.step (.write 1 n 0 fun _ => 0)).jfs.disk b = t.jfs.disk b := by
  have hwrite : (jfsWrite _ _ n 0 fun _ => 0).1 = _ :=
    jfsWrite_nothing (h.inode ▸ hfile : (getInode t.jfs 1).isDirectory = false) fun _ => 0
  rw [h.inode, if_pos hlt] at hwrite
  change (jfsWrite t.jfs 1 n 0 fun _ => 0).1.disk b = _
  rw [hwrite, disk_putInode h.wf.layout (h.wf.inTable h.known) hb]

def holding (b size : UInt32) : Inode := { (sized 2).withBlock 0 b with size }

theorem Primed.keep {q : UInt32} (h : Primed disk total k b.toNat (sized 2) t) (hq : 2 ≤ q.toNat) (hq512 : q.toNat < 512)
    (hk : q.toNat ≠ k) (hk512 : k < 512) (hroom : b.toNat < total.toNat) :
    RoomFor t (.write 1 q 1 fun _ => 0) ∧ Primed disk total k (b.toNat + 1) (holding b (q + 1))
      (t.step (.write 1 q 1 fun _ => 0)) ∧
      (t.step (.write 1 q 1 fun _ => 0)).jfs.disk b k = disk b k := by
  have hfile' : (getInode t.jfs 1).isDirectory = false := h.inode ▸ (by decide : (sized 2).isDirectory = false)
  have hnext : t.jfs.nextFreeBlock = b := UInt32.toNat_inj.1 h.nextFree
  have htotal := h.blocks
  have hone := needed_one_le t.jfs 1 hq512
  have hneeded : t.jfs.nextFreeBlock.toNat + needed t.jfs 1 q 1 ≤ t.jfs.sb.totalBlocks.toNat := by
    rw [htotal, hnext]
    omega
  have hspec : FileWrite _ _ _ _ (fun _ => 0) _ := jfsWrite_spec h.wf h.known hfile' hneeded
  have hhole : (getInode t.jfs 1).blocks 0 = 0 := by
    rw [h.inode]
    rfl
  have hgrows : (getInode t.jfs 1).size < q + 1 := by
    have honeNat : (1 : UInt32).toNat = 1 := rfl
    have htwo : (2 : UInt32).toNat = 2 := rfl
    rw [h.inode, UInt32.lt_iff_toNat_lt, UInt32.toNat_add, honeNat]
    change (2 : UInt32).toNat < _
    omega
  have hwrite := jfsWrite_oneByte hfile' hhole hq512 fun _ => 0
  rw [if_pos hgrows] at hwrite
  have hlt : t.jfs.nextFreeBlock.toNat < t.jfs.sb.totalBlocks.toNat := by
    rw [htotal, hnext]
    exact hroom
  obtain ⟨hbump, hunowned⟩ := h.wf.bump hlt
  have hstart := h.wf.start
  rw [hnext] at hstart
  have hdata : ∀ c : UInt32, b.toNat ≤ c.toNat →
      (jfsWrite t.jfs 1 q 1 fun _ => 0).1.disk c = (oneByte t.jfs q fun _ => 0).disk c := by
    intro c hc
    rw [hwrite]
    exact disk_putInode (s := oneByte t.jfs q fun _ => 0) h.wf.layout (h.wf.inTable h.known)
      (show t.jfs.sb.dataStart.toNat ≤ c.toNat by omega)
  refine ⟨⟨h.known, fun _ => hneeded⟩, ⟨hspec.wf, ?_, ?_, ?_, ?_, fun c hc => ?_, ?_⟩, ?_⟩
  · exact (congrArg (fun m => (1 : UInt32).toNat < UInt32.toNat m) hspec.next).mpr h.known
  · change getInode (jfsWrite t.jfs 1 q 1 fun _ => 0).1 1 = _
    rw [hwrite, getInode_putInode_self, h.inode, hnext]
    rfl
  · change (jfsWrite t.jfs 1 q 1 fun _ => 0).1.nextFreeBlock.toNat = _
    rw [hwrite]
    exact (bump_toNat hlt).trans (by rw [hnext])
  · change (jfsWrite t.jfs 1 q 1 fun _ => 0).1.sb.totalBlocks = _
    rw [hspec.sb]
    exact htotal
  · change (jfsWrite t.jfs 1 q 1 fun _ => 0).1.disk c = _
    rw [hdata c (by omega)]
    refine (disk_jfsJournalWrite_ne (s := t.jfs.bump) h.wf.layout
      (show t.jfs.sb.dataStart.toNat ≤ c.toNat by omega) ?_).trans
      (h.free c (by omega))
    rw [hnext]
    rintro rfl
    omega
  · change ¬ update t.wrote 1 _ 1 k
    rw [update_self]
    rintro (hc | hc)
    · exact h.wrote hc
    · have hstored : stored q 1 ≤ 1 := Nat.min_le_left _ _
      omega
  · change (jfsWrite t.jfs 1 q 1 fun _ => 0).1.disk b k = _
    rw [hdata b (Nat.le_refl _)]
    unfold oneByte
    rw [hnext, disk_jfsJournalWrite_self, h.free b (Nat.le_refl _)]
    by_cases hbefore : k < q.toNat % 512
    · exact Buffer.blit_of_lt hbefore
    · exact Buffer.blit_of_ge (by omega)

/-- **What was in a block shows in a file.** -/
theorem Primed.shows (h : Primed disk total k b.toNat (sized 2) t) (hk512 : k < 512) (hroom : b.toNat < total.toNat)
    (hdirty : disk b k ≠ 0) : Reaches t fun t => ¬ ReadsZeroes t := by
  obtain ⟨q, hq, hq4, hqk⟩ : ∃ q : UInt32, 2 ≤ q.toNat ∧ q.toNat < 4 ∧ q.toNat ≠ k := by
    by_cases hk : k = 2
    · exact ⟨3, by decide, by decide, by rw [hk]; decide⟩
    · exact ⟨2, by decide, by decide, fun hc => hk hc.symm⟩
  obtain ⟨hm, hkept, hdisk⟩ := h.keep hq (by omega) hqk hk512 hroom
  have hsmall : (holding b (q + 1)).size < 512 := by
    have honeNat : (1 : UInt32).toNat = 1 := rfl
    change q + 1 < 512
    rw [UInt32.lt_iff_toNat_lt, UInt32.toNat_add, honeNat]
    change _ < 512
    omega
  have hfile : (holding b (q + 1)).isDirectory = false := (by decide : (sized 2).isDirectory = false)
  obtain ⟨hm', hgrown⟩ := hkept.grow hfile hsmall
  have hdata : IsData (t.step (.write 1 q 1 fun _ => 0)).jfs.sb b := by
    have hstart := h.wf.start
    have hnext := h.nextFree
    have hsb : (t.step (.write 1 q 1 fun _ => 0)).jfs.sb = t.jfs.sb :=
      (jfsWrite_spec h.wf h.known (h.inode ▸ (by decide : (sized 2).isDirectory = false))
        (hm.2 (h.inode ▸ (by decide : (sized 2).isDirectory = false)))).sb
    rw [IsData, hsb]
    omega
  have hdisk' := hkept.grow_disk hfile hsmall hdata
  refine ⟨[.write 1 q 1 fun _ => 0, .write 1 512 0 fun _ => 0], ⟨hm, hm', trivial⟩, fun hzero => ?_⟩
  simp only [foldl_cons, foldl_nil] at hzero
  generalize (t.step (.write 1 q 1 fun _ => 0)).step (.write 1 512 0 fun _ => 0) = t' at hgrown hdisk' hzero
  have hkNat : (UInt32.ofNat k).toNat = k := by
    rw [UInt32.toNat_ofNat', Nat.mod_eq_of_lt (by omega)]
  have hsize : (getInode t'.jfs 1).size.toNat = 512 := by
    rw [hgrown.inode]
    rfl
  have hfile' : (getInode t'.jfs 1).isDirectory = false := by
    rw [hgrown.inode]
    exact hfile
  have hread : (jfsRead t'.jfs 1 (UInt32.ofNat k) 1)[0]? = _ :=
    jfsRead_spec hfile' (by rw [hsize, maxBytes]; decide) (by decide) (by rw [hkNat, hsize]; exact hk512)
  have hb := hzero 1 ⟨hgrown.known, hfile'⟩ _ _ _ _ hread (by rw [hkNat]; exact hgrown.wrote)
  have hp : k / 512 < 12 := by omega
  have hblock : (getInode t'.jfs 1).blocks ⟨k / 512, hp⟩ = b := by
    have hz : (⟨k / 512, hp⟩ : Fin 12) = 0 := Fin.ext (by simp only [Fin.val_zero]; omega)
    rw [hgrown.inode, hz]
    change ((sized 2).withBlock 0 b).blocks 0 = b
    exact withBlock_self
  have hbne : b ≠ 0 := by
    rintro rfl
    have hstart := h.wf.start
    have hnext := h.nextFree
    rw [UInt32.toNat_zero] at hnext
    omega
  rw [hkNat, Nat.add_zero, byteOf, dif_pos hp, hblock, if_neg hbne, hdisk', Nat.mod_eq_of_lt hk512, hdisk] at hb
  exact hdirty hb

end Primed

/-! ## The first file -/

section First

variable {t : Tracked} {total : UInt32} {k : Nat}

def withFirst (s : Jfs) : Jfs :=
  let s := putInode (jfsAllocInode s fsFile).1 freshRoot 0
  putInode (jfsJournalWrite s 100 (fillEntry (s.disk 100) 0 1 nameA)) { freshRoot with size := 64 } 0

variable (h : Wf s) (hroot : getInode s 0 = freshRoot) (hentries : ∀ j < 8, (s.disk 100).get32 (64 * j) = 0)
  (hnext : s.nextInode = 1) (hlt : s.nextInode.toNat < 8 * s.sb.inodeBlocks.toNat)
include h hroot hnext hlt

include hentries in
theorem jfsCreate_first : (jfsCreate s 0 nameA).1 = withFirst s := by
  have hk : Known s 0 := by
    rw [Known, hnext]
    decide
  have hroot1 : getInode (jfsAllocInode s fsFile).1 0 = freshRoot := (getInode_allocInode_ne h hlt fsFile hk).trans hroot
  have hstart : IsData s.sb 100 := by
    have htaken := h.taken 0 hk 0 (by rw [hroot]; decide)
    rw [hroot] at htaken
    exact htaken.1
  have hdisk1 : (jfsAllocInode s fsFile).1.disk 100 = s.disk 100 := disk_allocInode h hlt fsFile hstart
  have hfree : jfsFinddir (jfsAllocInode s fsFile).1 0 nameA = none :=
    finddir_none hroot1 (by rw [hdisk1]; exact hentries) nameA
  have hnum : (jfsAllocInode s fsFile).2 = 1 := hnext
  have hdir : (getInode s 0).isDirectory = true := hroot ▸ freshRoot_isDirectory
  unfold jfsCreate withFirst
  rw [if_neg (by decide : ¬ nameA.bytes = []), hdir]
  change (jfsAddEntry (jfsAllocInode s fsFile).1 0 nameA (jfsAllocInode s fsFile).2).1 = _
  rw [hnum]
  have h100 : (putInode (jfsAllocInode s fsFile).1 freshRoot 0).disk 100 = s.disk 100 :=
    (disk_putInode (s := (jfsAllocInode s fsFile).1) h.layout (h.inTable hk) hstart).trans hdisk1
  generalize (jfsAllocInode s fsFile).1 = s1 at hroot1 hfree h100 ⊢
  unfold jfsFinddir at hfree
  unfold jfsAddEntry
  dsimp only
  rw [hroot1, if_pos freshRoot_isDirectory]
  generalize jfsFindEntry s1 0 nameA = found at hfree ⊢
  cases found with
  | ok e => cases hfree
  | error e =>
    have hslot : (List.range 8).find? (fun j => decide (((putInode s1 freshRoot 0).disk 100).get32 (64 * j) = 0)) =
        some 0 := by
      have hzero := hentries 0 (by decide)
      rw [h100, show List.range 8 = 0 :: [1, 2, 3, 4, 5, 6, 7] from rfl, List.find?_cons_of_pos (by rw [hzero]; rfl)]
    have hensure : jfsEnsureDirBlock s1 freshRoot 0 = (s1, .ok freshRoot) := if_pos (by decide)
    have hblock : freshRoot.blocks 0 = 100 := by decide
    have hloop : List.finRange 12 = 0 :: (List.finRange 12).tail := by decide
    dsimp only
    rw [hloop, addLoop, hensure]
    dsimp only
    rw [hblock, hslot]
    rfl

theorem getInode_withFirst : getInode (withFirst s) 1 = sized 0 := by
  have hk : Known s 0 := by
    rw [Known, hnext]
    decide
  have hwf := h.allocInode hlt fsFile
  have hk1 : Known (jfsAllocInode s fsFile).1 1 := (allocInode_known h hlt fsFile).2 (.inr hnext.symm)
  have hk0 : Known (jfsAllocInode s fsFile).1 0 := (allocInode_known h hlt fsFile).2 (.inl hk)
  have htaken := h.taken 0 hk 0 (by rw [hroot]; decide)
  rw [hroot] at htaken
  have hself : getInode (jfsAllocInode s fsFile).1 1 = sized 0 := by
    have hmade := getInode_allocInode_self (s := s) fsFile
    rw [hnext] at hmade
    exact hmade
  unfold withFirst
  refine (getInode_putInode_ne (s := jfsJournalWrite (putInode (jfsAllocInode s fsFile).1 freshRoot 0) _ _)
    hwf.layout (hwf.inTable hk0) (hwf.inTable hk1) (by decide)).trans ?_
  refine (getInode_jfsJournalWrite (s := putInode (jfsAllocInode s fsFile).1 freshRoot 0) hwf.layout (hwf.inTable hk1)
    htaken.1).trans ?_
  exact (getInode_putInode_ne hwf.layout (hwf.inTable hk0) (hwf.inTable hk1) (by decide)).trans hself

omit hroot in
theorem disk_withFirst (hb : 101 ≤ b.toNat) (hstart : s.sb.dataStart.toNat ≤ 100) : (withFirst s).disk b = s.disk b := by
  have hk : Known s 0 := by
    rw [Known, hnext]
    decide
  have hin := h.inTable hk
  have hdata : IsData s.sb b := by
    rw [IsData]
    omega
  have hne : b ≠ 100 := by
    rintro rfl
    exact absurd hb (by decide)
  unfold withFirst
  refine (disk_putInode (s := jfsJournalWrite (putInode (jfsAllocInode s fsFile).1 freshRoot 0) _ _) h.layout hin
    hdata).trans ?_
  refine (disk_jfsJournalWrite_ne (s := putInode (jfsAllocInode s fsFile).1 freshRoot 0) h.layout hdata hne).trans ?_
  exact (disk_putInode (s := (jfsAllocInode s fsFile).1) h.layout hin hdata).trans (disk_allocInode h hlt fsFile hdata)

end First

/-! ## What a disk has to hold -/

section Exact

variable {t : Tracked} {total : UInt32} {k next : Nat}

theorem Reaches.refl {P : Tracked → Prop} (h : P t) : Reaches t P := ⟨[], trivial, h⟩

theorem Primed.upTo {v : UInt32} (hv : v.toNat < 2) (hk : v.toNat ≠ k) :
    ∀ (n next : Nat), Reaches t (Primed disk total k next (sized 2)) → next + n ≤ total.toNat →
      Reaches t (Primed disk total k (next + n) (sized 2))
  | 0, _, h, _ => h
  | n + 1, next, h, hroom => by
    rw [← Nat.add_assoc]
    refine (Primed.upTo hv hk n next h (by omega)).step fun t ht => ?_
    exact ⟨.write 1 v 1 fun _ => 0, ht.vain hv hk (by omega)⟩

variable (h : (Superblock.read (disk 0)).magic ≠ jfsMagic) (h101 : 101 ≤ (length / 512).toNat)
include h h101

theorem primed_start (hroot : getInode (mountNew disk length) 0 = freshRoot)
    (hentries : ∀ j < 8, (disk 100).get32 (64 * j) = 0)
    (k : Nat) : Reaches ⟨mountNew disk length, fun _ _ => False⟩ (Primed disk (length / 512) k 101 (sized 2)) := by
  have hwf := mountNew_wf h h101 hroot hentries
  have heq := mountNew_eq h length
  have hsb : (mountNew disk length).sb = formatted (length / 512) := by rw [heq]; rfl
  have hnext : (mountNew disk length).nextInode = 1 := by rw [heq]; rfl
  have hfree : (mountNew disk length).nextFreeBlock = 101 := by rw [heq]
  have hdisk : ∀ b : UInt32, 101 ≤ b.toNat → (mountNew disk length).disk b = disk b :=
    fun b hb => disk_mountNew h h101 (by omega)
  have hentries' : ∀ j < 8, ((mountNew disk length).disk 100).get32 (64 * j) = 0 := by
    rw [disk_mountNew h h101 (by decide)]
    exact hentries
  have hlt : (mountNew disk length).nextInode.toNat < 8 * (mountNew disk length).sb.inodeBlocks.toNat := by
    rw [hnext, hsb]
    exact (by decide : 1 < 8 * 32)
  have hstart : (mountNew disk length).sb.dataStart.toNat ≤ 100 := by
    rw [hsb]
    exact (by decide : 100 ≤ 100)
  have hknown : Known (mountNew disk length) 0 := (known_mountNew h).2 rfl
  generalize mountNew disk length = s at hwf hsb hnext hfree hdisk hroot hentries' hlt hstart hknown ⊢
  have hready : NameOp.Ready s (.create 0 nameA) := ⟨hknown, fun _ _ => hlt⟩
  have hmade : Reaches ⟨s, fun _ _ => False⟩ (Primed disk (length / 512) k 101 (sized 0)) := by
    refine (Reaches.refl (P := fun t => t = ⟨s, fun _ _ => False⟩) rfl).step ?_
    rintro t rfl
    have hcreate : (s.perform (.create 0 nameA)).1 = withFirst s := jfsCreate_first hwf hroot hentries' hnext hlt
    refine ⟨.names (.create 0 nameA), hready, ?_⟩
    unfold Tracked.step
    dsimp only
    rw [hcreate]
    refine ⟨hcreate ▸ hwf.perform hready, ?_, getInode_withFirst hwf hroot hnext hlt, ?_, ?_, fun b hb => ?_, id⟩
    · change (1 : UInt32).toNat < (s.nextInode + 1).toNat
      rw [hnext]
      decide
    · exact congrArg UInt32.toNat hfree
    · exact congrArg Superblock.totalBlocks hsb
    · exact (disk_withFirst hwf hnext hlt hb hstart).trans (hdisk b hb)
  exact hmade.step fun t ht => ⟨.write 1 2 0 fun _ => 0, ht.grow (by decide) (by decide)⟩

theorem shows_dirty (hroot : getInode (mountNew disk length) 0 = freshRoot)
    (hentries : ∀ j < 8, (disk 100).get32 (64 * j) = 0)
    (hb : 101 ≤ b.toNat) (hroom : b.toNat < (length / 512).toNat) {k : Nat} (hk : k < 512) (hdirty : disk b k ≠ 0) :
    Reaches ⟨mountNew disk length, fun _ _ => False⟩ fun t => ¬ ReadsZeroes t := by
  obtain ⟨v, hv, hvk⟩ : ∃ v : UInt32, v.toNat < 2 ∧ v.toNat ≠ k := by
    by_cases hk0 : k = 0
    · exact ⟨1, by decide, by rw [hk0]; decide⟩
    · exact ⟨0, by decide, fun hc => hk0 hc.symm⟩
  have hto := Primed.upTo hv hvk (b.toNat - 101) 101 (primed_start h h101 hroot hentries k) (by omega)
  rw [Nat.add_sub_cancel' hb] at hto
  obtain ⟨ops, hm, hprimed⟩ := hto
  obtain ⟨ops', hm', hshown⟩ := hprimed.shows hk hroom hdirty
  exact ⟨ops ++ ops', Run.guarded_append.2 ⟨hm, hm'⟩, by rw [foldl_append]; exact hshown⟩

theorem zeroed_start (hroot : getInode (mountNew disk length) 0 = freshRoot) (hclean : CleanDisk disk (length / 512)) :
    Zeroed ⟨mountNew disk length, fun _ _ => False⟩ := by
  refine ⟨mountNew_wf h h101 hroot hclean.entries, fun ino hino => ?_, fun b hb htotal k hk => ?_⟩
  · -- the root is the only inode, and no file
    have hfile := hino.file
    obtain rfl : ino = 0 := (known_mountNew h).1 hino.known
    rw [hroot, freshRoot_isDirectory] at hfile
    cases hfile
  · dsimp only at hb htotal ⊢
    have hfree : (mountNew disk length).nextFreeBlock = 101 := by rw [mountNew_eq h]
    have hsb : (mountNew disk length).sb = formatted (length / 512) := by rw [mountNew_eq h]; rfl
    rw [hfree] at hb
    rw [hsb] at htotal
    have hb : 101 ≤ b.toNat := hb
    rw [disk_mountNew h h101 (by omega)]
    exact hclean.data b hb htotal k hk

/-- **Formatting leaves an empty filesystem** just on a disk that was clean. -/
theorem format_empty_iff : EmptyFs (mountNew disk length) ↔ CleanDisk disk (length / 512) := by
  have h100 : (mountNew disk length).disk 100 = disk 100 := disk_mountNew h h101 (by decide)
  constructor
  · intro he
    have hroot := he.root
    have hfields := formatRoot_eq_iff.1 ((getInode_mountNew h).symm.trans hroot)
    have hentries := (readdir_none_iff hroot).1 he.entries
    rw [h100] at hentries
    refine ⟨hfields.1, hfields.2, hentries, fun b hb hroom k hk => ?_⟩
    by_contra hdirty
    obtain ⟨ops, hm, hshown⟩ := shows_dirty h h101 hroot hentries hb hroom hk hdirty
    exact hshown (he.zeroes ops hm _ (Run.foldl_mem_states ops _))
  · intro hclean
    have hroot : getInode (mountNew disk length) 0 = freshRoot :=
      (getInode_mountNew h).trans (formatRoot_eq_iff.2 ⟨hclean.nlink, hclean.blocks⟩)
    have hentries : ∀ j < 8, ((mountNew disk length).disk 100).get32 (64 * j) = 0 := by
      rw [h100]
      exact hclean.entries
    refine ⟨hroot, (readdir_none_iff hroot).2 hentries, finddir_none hroot hentries, fun ops hm t ht => ?_⟩
    exact (Run.states_forall (P := Zeroed) (fun _ op hz hop => hz.step op hop) ops _
      (zeroed_start h h101 hroot hclean) hm t ht).reads

end Exact

def cleanDisk : UInt32 → Buffer := fun b => if b = 65 then fun i => if i = 12 then 1 else 0 else fun _ => 0

theorem cleanDisk_empty : (Superblock.read (cleanDisk 0)).magic ≠ jfsMagic ∧ 101 ≤ ((65536 : UInt32) / 512).toNat ∧
    EmptyFs (mountNew cleanDisk 65536) := by
  have hmagic : (Superblock.read (cleanDisk 0)).magic ≠ jfsMagic := by decide
  have hblank : ∀ b : UInt32, b ≠ 65 → cleanDisk b = fun _ => 0 := fun b hb => if_neg hb
  refine ⟨hmagic, by decide, (format_empty_iff hmagic (by decide)).2 ⟨by decide, by decide, by decide, fun b hb _ k _ => ?_⟩⟩
  have hne : b ≠ 65 := by
    rintro rfl
    exact absurd hb (by decide)
  rw [hblank b hne]

def staleDisk : UInt32 → Buffer := fun b => if b = 100 then fillEntry (fun _ => 0) 0 7 nameA else cleanDisk b

/-- The root lists what was there. -/
theorem stale_name_listed : (Superblock.read (staleDisk 0)).magic ≠ jfsMagic ∧ 101 ≤ ((65536 : UInt32) / 512).toNat ∧
    jfsFinddir (mountNew staleDisk 65536) 0 nameA = some 7 ∧ ¬ EmptyFs (mountNew staleDisk 65536) := by
  have hfound : jfsFinddir (mountNew staleDisk 65536) 0 nameA = some 7 := by decide +kernel
  refine ⟨by decide, by decide, hfound, fun he => ?_⟩
  rw [he.names] at hfound
  cases hfound

end EterOS.Fs
