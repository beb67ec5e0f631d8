import EterOS.Fs.Jfs
/-!
# JfsStore — the laws of the inode table, the journal and the data blocks

Where the superblock keeps its regions apart, an inode that is put is the inode that is got, and no other inode and no
data block changes; a journaled write changes its target and no inode.  Everything above works with these laws and not
with bytes.
-/
namespace EterOS.Fs

open Function (update update_self update_of_ne)

variable {s : Jfs} {x : Inode} {i j b target : UInt32} {role : Role} {data : Buffer} {sb : Superblock}

structure Layout (sb : Superblock) : Prop where
  journal : 0 < sb.journalStart.toNat
  inodes : sb.journalStart.toNat + 4 ≤ sb.inodeStart.toNat
  table : 8 * sb.inodeBlocks.toNat < 2 ^ 32
  data : sb.inodeStart.toNat + sb.inodeBlocks.toNat ≤ sb.dataStart.toNat
  total : sb.dataStart.toNat < sb.totalBlocks.toNat

def InTable (sb : Superblock) (idx : UInt32) : Prop := idx.toNat < 8 * sb.inodeBlocks.toNat

def IsData (sb : Superblock) (b : UInt32) : Prop := sb.dataStart.toNat ≤ b.toNat

/-! ## What the operations leave alone -/

@[simp] theorem putInode_sb : (putInode s x i).sb = s.sb := rfl
@[simp] theorem putInode_nextInode : (putInode s x i).nextInode = s.nextInode := rfl
@[simp] theorem jfsJournalWrite_nextFreeBlock : (jfsJournalWrite s target data).nextFreeBlock = s.nextFreeBlock := rfl

@[simp] theorem disk_diskWrite_self : (diskWrite s role b data).disk b = data := update_self _ _ _

theorem disk_diskWrite_ne (h : j ≠ b) : (diskWrite s role b data).disk j = s.disk j := update_of_ne h _ _

@[simp] theorem disk_jfsJournalWrite_self : (jfsJournalWrite s target data).disk target = data := update_self _ _ _

theorem disk_jfsJournalWrite (hb : b ≠ target) (hj : ∀ k : Nat, k < 4 → b ≠ s.sb.journalStart + UInt32.ofNat k) :
    (jfsJournalWrite s target data).disk b = s.disk b := by
  have h0 : b ≠ s.sb.journalStart := by simpa using hj 0 (by decide)
  have h1 : b ≠ s.sb.journalStart + 1 := hj 1 (by decide)
  have h2 : b ≠ s.sb.journalStart + 2 := hj 2 (by decide)
  have h3 : b ≠ s.sb.journalStart + 3 := hj 3 (by decide)
  simp only [jfsJournalWrite]
  rw [disk_diskWrite_ne hb, disk_diskWrite_ne h3, disk_diskWrite_ne h2, disk_diskWrite_ne h1, disk_diskWrite_ne h0]

theorem disk_putInode_ne (h : b ≠ s.sb.inodeBlock i) : (putInode s x i).disk b = s.disk b := disk_diskWrite_ne h

/-! ## Inodes -/

theorem Inode.ext' {x y : Inode} (h : ∀ k < 16, x.word k = y.word k) : x = y := by
  obtain ⟨xi, xs, xf, xn, xb⟩ := x
  obtain ⟨yi, ys, yf, yn, yb⟩ := y
  have hblocks : xb = yb := by
    funext k
    have := h (k + 4) (by omega)
    simpa [Inode.word] using this
  have h0 := h 0 (by decide)
  have h1 := h 1 (by decide)
  have h2 := h 2 (by decide)
  have h3 := h 3 (by decide)
  simp only [Inode.word] at h0 h1 h2 h3
  rw [h0, h1, h2, h3, hblocks]

theorem Inode.word_read (c : Buffer) {k : Nat} (hk : k < 16) : (Inode.read c).word k = c.get32 (4 * k) := by
  match k with
  | 0 => rfl
  | 1 => rfl
  | 2 => rfl
  | 3 => rfl
  | k + 4 =>
    have h : k < 12 := by omega
    simp [Inode.word, Inode.read, h]

theorem inodeOffset_eq : inodeOffset i = i.toNat % 8 * 64 := by
  have := Nat.mod_lt i.toNat (show 8 > 0 by decide)
  rw [inodeOffset, UInt32.toNat_mul, UInt32.toNat_mod]
  simp only [UInt32.reduceToNat]
  omega

@[simp] theorem getInode_putInode_self : getInode (putInode s x i) i = x := by
  apply Inode.ext'
  intro k hk
  rw [getInode, Inode.word_read _ hk, putInode_sb, Buffer.get32_drop, putInode, disk_diskWrite_self,
    Buffer.get32_blit_of_mem (by omega) (by omega), Nat.add_sub_cancel_left, Buffer.get32_words]

namespace Layout

variable (L : Layout sb)
include L

theorem inodeBlock_toNat (h : InTable sb i) : (sb.inodeBlock i).toNat = sb.inodeStart.toNat + i.toNat / 8 := by
  have hd := L.data
  have ht := sb.dataStart.toNat_lt
  rw [InTable] at h
  rw [Superblock.inodeBlock, UInt32.toNat_add, UInt32.toNat_div]
  simp only [UInt32.reduceToNat]
  omega

theorem slot_ne (hi : InTable sb i) (hj : InTable sb j) (hne : i ≠ j) (hb : sb.inodeBlock i = sb.inodeBlock j) :
    i.toNat % 8 ≠ j.toNat % 8 := by
  have hblock := congrArg UInt32.toNat hb
  rw [L.inodeBlock_toNat hi, L.inodeBlock_toNat hj] at hblock
  have hne' : i.toNat ≠ j.toNat := fun h => hne (UInt32.toNat_inj.1 h)
  omega

theorem inodeBlock_ne_data (h : InTable sb i) (hb : IsData sb b) : b ≠ sb.inodeBlock i := by
  rintro rfl
  have hd := L.data
  rw [IsData, L.inodeBlock_toNat h] at hb
  rw [InTable] at h
  omega

theorem journal_toNat {k : Nat} (hk : k < 4) : (sb.journalStart + UInt32.ofNat k).toNat = sb.journalStart.toNat + k := by
  have h1 := L.inodes
  have h2 := sb.inodeStart.toNat_lt
  rw [UInt32.toNat_add, UInt32.toNat_ofNat']
  omega

theorem journal_ne {k : Nat} (hk : k < 4) (hb : sb.inodeStart.toNat ≤ b.toNat ∨ b = 0) :
    b ≠ sb.journalStart + UInt32.ofNat k := by
  intro h
  have h1 := L.inodes
  have h2 := L.journal
  have h3 := congrArg UInt32.toNat h
  rw [L.journal_toNat hk] at h3
  rcases hb with hb | rfl
  · omega
  · simp only [UInt32.toNat_zero] at h3
    omega

theorem inodeStart_le_of_data (hb : IsData sb b) : sb.inodeStart.toNat ≤ b.toNat := by
  have h1 := L.data
  rw [IsData] at hb
  omega

end Layout

theorem getInode_putInode_ne (L : Layout s.sb) (hi : InTable s.sb i) (hj : InTable s.sb j) (hne : j ≠ i) :
    getInode (putInode s x i) j = getInode s j := by
  apply Inode.ext'
  intro k hk
  rw [getInode, getInode, Inode.word_read _ hk, Inode.word_read _ hk, putInode_sb]
  by_cases hb : s.sb.inodeBlock j = s.sb.inodeBlock i
  · have hslot := L.slot_ne hj hi hne hb
    rw [Buffer.get32_drop, Buffer.get32_drop, putInode, hb, disk_diskWrite_self,
      Buffer.get32_blit_of_disjoint (by rw [inodeOffset_eq, inodeOffset_eq]; omega)]
  · rw [disk_putInode_ne hb]

theorem disk_putInode (L : Layout s.sb) (hi : InTable s.sb i) (hb : IsData s.sb b) : (putInode s x i).disk b = s.disk b :=
  disk_putInode_ne (L.inodeBlock_ne_data hi hb)

theorem getInode_congr {s' : Jfs} (hsb : s'.sb = s.sb) (h : s'.disk (s.sb.inodeBlock i) = s.disk (s.sb.inodeBlock i)) :
    getInode s' i = getInode s i := by
  rw [getInode, getInode, hsb, h]

theorem getInode_diskWrite (L : Layout s.sb) (hi : InTable s.sb i) (hb : IsData s.sb b) :
    getInode (diskWrite s role b data) i = getInode s i :=
  getInode_congr rfl (disk_diskWrite_ne (L.inodeBlock_ne_data hi hb).symm)

theorem getInode_jfsJournalWrite (L : Layout s.sb) (hi : InTable s.sb i) (hb : IsData s.sb target) :
    getInode (jfsJournalWrite s target data) i = getInode s i := by
  refine getInode_congr rfl (disk_jfsJournalWrite (L.inodeBlock_ne_data hi hb).symm fun k hk => ?_)
  refine L.journal_ne hk (.inl ?_)
  rw [L.inodeBlock_toNat hi]
  omega

theorem disk_jfsJournalWrite_ne (L : Layout s.sb) (hb : IsData s.sb b) (hne : b ≠ target) :
    (jfsJournalWrite s target data).disk b = s.disk b :=
  disk_jfsJournalWrite hne fun _ hk => L.journal_ne hk (.inl (L.inodeStart_le_of_data hb))

end EterOS.Fs
