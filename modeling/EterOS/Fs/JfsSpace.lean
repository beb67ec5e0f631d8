import EterOS.Fs.JfsStore
/-!
# JfsSpace — who owns which block

`Wf` is what a mounted JFS keeps: every block an inode refers to lies between the start of the data and the next free
block and belongs to that inode alone; every entry of a directory names an inode that was handed out, by a name that
ends within its field; and every block written so far was in the region for it.
-/
namespace EterOS.Fs

open List
open Function (update update_self update_of_ne)

/-! ## Entries -/

/-- The name in the field at `off`: what stands before the first zero. -/
def nameAt (b : Buffer) (off : Nat) : CStr where
  bytes := ((List.range 60).map fun k => b (off + k)).takeWhile (· ≠ 0)
  nonzero := fun h => by simpa using all_eq_true.1 all_takeWhile _ h

def Slot.name (s : Jfs) (e : Slot) : CStr := nameAt (s.disk e.block) (64 * e.index + 4)

/-- An entry names no inode, or one that was handed out, by a name that ends within its field. -/
structure EntryOk (s : Jfs) (e : Slot) : Prop where
  child : (e.inode s).toNat < s.nextInode.toNat
  ends : e.inode s ≠ 0 → ∃ k < 60, s.disk e.block (64 * e.index + 4 + k) = 0

variable {s s' : Jfs} {x dir : Inode} {idx b : UInt32} {i j : Fin 12} {e : Slot}

theorem mem_slots : e ∈ dir.slots ↔ (∃ i, dir.blocks i = e.block) ∧ e.block ≠ 0 ∧ e.index < 8 := by
  obtain ⟨block, index⟩ := e
  simp only [Inode.slots, mem_flatMap, mem_filter, mem_map, mem_finRange, true_and, mem_range, Slot.mk.injEq,
    decide_eq_true_eq]
  constructor
  · rintro ⟨b, ⟨⟨i, rfl⟩, hb⟩, k, hk, rfl, rfl⟩
    exact ⟨⟨i, rfl⟩, hb, hk⟩
  · rintro ⟨⟨i, hi⟩, hb, hk⟩
    exact ⟨block, ⟨⟨i, hi⟩, hb⟩, index, hk, rfl, rfl⟩

/-! ## The invariant -/

def Known (s : Jfs) (idx : UInt32) : Prop := idx.toNat < s.nextInode.toNat

instance (s : Jfs) (idx : UInt32) : Decidable (Known s idx) := inferInstanceAs (Decidable (_ < _))

def InRegion (sb : Superblock) : Role × UInt32 → Prop
  | (.inode, b) => sb.inodeStart.toNat ≤ b.toNat ∧ b.toNat < sb.inodeStart.toNat + sb.inodeBlocks.toNat
  | (.data, b) => sb.dataStart.toNat ≤ b.toNat ∧ b.toNat < sb.totalBlocks.toNat
  | _ => True

def Taken (s : Jfs) (b : UInt32) : Prop := s.sb.dataStart.toNat ≤ b.toNat ∧ b.toNat < s.nextFreeBlock.toNat

structure Wf (s : Jfs) : Prop where
  layout : Layout s.sb
  super : Superblock.read (s.disk 0) = s.sb
  magic : s.sb.magic = jfsMagic
  start : s.sb.dataStart.toNat < s.nextFreeBlock.toNat
  free : s.nextFreeBlock.toNat ≤ s.sb.totalBlocks.toNat
  root : 0 < s.nextInode.toNat
  table : s.nextInode.toNat ≤ 8 * s.sb.inodeBlocks.toNat
  taken : ∀ idx, Known s idx → ∀ i, (getInode s idx).blocks i ≠ 0 → Taken s ((getInode s idx).blocks i)
  apart : ∀ idx idx', Known s idx → Known s idx' → ∀ i i', (getInode s idx).blocks i ≠ 0 →
    (getInode s idx).blocks i = (getInode s idx').blocks i' → idx = idx' ∧ i = i'
  entries : ∀ d, Known s d → (getInode s d).isDirectory = true → ∀ e ∈ (getInode s d).slots, EntryOk s e
  written : ∀ p ∈ s.written, InRegion s.sb p

structure Unowned (s : Jfs) (b : UInt32) : Prop where
  taken : Taken s b
  none : ∀ idx, Known s idx → ∀ i, (getInode s idx).blocks i ≠ b

theorem Wf.inTable (h : Wf s) (hk : Known s idx) : InTable s.sb idx := by
  have := h.table
  rw [Known] at hk
  rw [InTable]
  omega

theorem Taken.ne_zero (h : Taken s b) (L : Layout s.sb) : b ≠ 0 := by
  rintro rfl
  have h1 := L.inodes
  have h2 := L.data
  have h3 := h.1
  simp only [UInt32.toNat_zero] at h3
  omega

theorem Wf.slot_taken (h : Wf s) (hk : Known s idx) (he : e ∈ (getInode s idx).slots) : Taken s e.block := by
  obtain ⟨⟨i, hi⟩, hne, -⟩ := mem_slots.1 he
  rw [← hi] at hne ⊢
  exact h.taken idx hk i hne

theorem Wf.block_ne (h : Wf s) {idx' : UInt32} (hk : Known s idx) (hk' : Known s idx') (hne : idx' ≠ idx)
    (hb : b ≠ 0) (hi : (getInode s idx).blocks i = b) (j : Fin 12) : (getInode s idx').blocks j ≠ b := by
  intro hj
  have := (h.apart idx idx' hk hk' i j (by rw [hi]; exact hb) (by rw [hi, hj])).1
  exact hne this.symm

/-! ## What a write to one place keeps -/

theorem EntryOk.congr (h : EntryOk s e) (hn : s.nextInode.toNat ≤ s'.nextInode.toNat)
    (hd : s'.disk e.block = s.disk e.block) : EntryOk s' e := by
  refine ⟨?_, fun hne => ?_⟩
  · have := h.child
    rw [Slot.inode] at this
    rw [Slot.inode, hd]
    omega
  · rw [Slot.inode, hd] at hne
    rw [hd]
    exact h.ends hne

theorem superblock_putInode (L : Layout s.sb) (hi : InTable s.sb idx) : (putInode s x idx).disk 0 = s.disk 0 := by
  apply disk_putInode_ne
  intro h0
  have h1 := congrArg UInt32.toNat h0
  have h2 := L.inodes
  rw [L.inodeBlock_toNat hi, UInt32.toNat_zero] at h1
  omega

/-- An inode goes back to the table: its blocks are its own or nobody's, and what a directory holds is in order. -/
theorem Wf.putInode (h : Wf s) (hk : Known s idx) (hblocks : ∀ i, x.blocks i ≠ 0 → x.blocks i = (getInode s idx).blocks i ∨
      Unowned s (x.blocks i) ∧ ∀ j, x.blocks j = x.blocks i → j = i)
    (hdir : x.isDirectory = true → ∀ e ∈ x.slots, EntryOk s e) : Wf (putInode s x idx) := by
  have L := h.layout
  have hin := h.inTable hk
  have hother : ∀ idx', Known s idx' → idx' ≠ idx → getInode (Fs.putInode s x idx) idx' = getInode s idx' :=
    fun idx' hk' hne => getInode_putInode_ne L hin (h.inTable hk') hne
  have hdata : ∀ b, Taken s b → (Fs.putInode s x idx).disk b = s.disk b := fun b hb => disk_putInode L hin hb.1
  have htaken : ∀ i, x.blocks i ≠ 0 → Taken s (x.blocks i) := by
    intro i hne
    rcases hblocks i hne with he | ⟨hu, -⟩
    · rw [he] at hne ⊢
      exact h.taken idx hk i hne
    · exact hu.taken
  -- the new inode shares no block with another
  have hcross : ∀ idx', Known s idx' → idx' ≠ idx → ∀ i j, x.blocks i ≠ 0 → x.blocks i ≠ (getInode s idx').blocks j := by
    intro idx' hk' hne i j hi heq
    rcases hblocks i hi with he | ⟨hu, -⟩
    · exact h.block_ne hk hk' hne hi he.symm j heq.symm
    · exact hu.none idx' hk' j heq.symm
  refine ⟨L, ?_, h.magic, h.start, h.free, h.root, h.table, fun idx' hk' i hne => ?_, fun a a' ha ha' i i' hne heq => ?_,
    fun d hd hisdir e he => ?_, fun p hp => ?_⟩
  · rw [superblock_putInode L hin]
    exact h.super
  · by_cases hidx : idx' = idx
    · rw [hidx, getInode_putInode_self] at hne ⊢
      exact htaken i hne
    · rw [hother idx' hk' hidx] at hne ⊢
      exact h.taken idx' hk' i hne
  · by_cases h1 : a = idx <;> by_cases h2 : a' = idx
    · rw [h1, getInode_putInode_self] at hne heq
      rw [h2, getInode_putInode_self] at heq
      refine ⟨h1.trans h2.symm, ?_⟩
      rcases hblocks i hne with he | ⟨-, hu⟩
      · rcases hblocks i' (heq ▸ hne) with he' | ⟨-, hu'⟩
        · exact (h.apart idx idx hk hk i i' (he ▸ hne) (by rw [← he, ← he', heq])).2
        · exact hu' i heq
      · exact (hu i' heq.symm).symm
    · rw [h1, getInode_putInode_self] at hne heq
      rw [hother a' ha' h2] at heq
      exact absurd heq (hcross a' ha' h2 i i' hne)
    · rw [h2, getInode_putInode_self] at heq
      rw [hother a ha h1] at hne heq
      exact absurd heq.symm (hcross a ha h1 i' i (heq ▸ hne))
    · rw [hother a ha h1] at hne heq
      rw [hother a' ha' h2] at heq
      exact h.apart a a' ha ha' i i' hne heq
  · by_cases hidx : d = idx
    · rw [hidx, getInode_putInode_self] at hisdir he
      obtain ⟨⟨i, hi⟩, hne, -⟩ := mem_slots.1 he
      exact (hdir hisdir e he).congr (Nat.le_refl _) (hdata _ (hi ▸ htaken i (hi ▸ hne)))
    · rw [hother d hd hidx] at hisdir he
      exact (h.entries d hd hisdir e he).congr (Nat.le_refl _) (hdata _ (h.slot_taken hd he))
  · rcases mem_append.1 hp with hp | hp
    · exact h.written p hp
    · rw [mem_singleton.1 hp]
      have h1 := L.inodeBlock_toNat hin
      rw [InTable] at hin
      exact ⟨by rw [putInode_sb, h1]; omega, by rw [putInode_sb, h1]; omega⟩

theorem Wf.ofData (h : Wf s) (hsb : s'.sb = s.sb) (hfree : s'.nextFreeBlock = s.nextFreeBlock)
    (hnext : s'.nextInode = s.nextInode) (h0 : s'.disk 0 = s.disk 0)
    (hinode : ∀ idx, Known s idx → getInode s' idx = getInode s idx) (hwritten : ∀ p ∈ s'.written, InRegion s.sb p)
    (hent : ∀ d, Known s d → (getInode s d).isDirectory = true → ∀ e ∈ (getInode s d).slots, EntryOk s' e) : Wf s' := by
  have hknown : ∀ idx, Known s' idx → Known s idx := fun idx hk => by rwa [Known, hnext] at hk
  refine ⟨hsb ▸ h.layout, by rw [h0, hsb, h.super], hsb ▸ h.magic, by rw [hfree, hsb]; exact h.start,
    by rw [hfree, hsb]; exact h.free, hnext ▸ h.root, by
    rw [hnext, hsb]; exact h.table, fun idx hk i hne => ?_, fun a a' ha ha' i i' hne heq => ?_, fun d hd hisdir e he => ?_,
    fun p hp => hsb ▸ hwritten p hp⟩
  · rw [hinode idx (hknown idx hk)] at hne ⊢
    rw [Taken, hsb, hfree]
    exact h.taken idx (hknown idx hk) i hne
  · rw [hinode a (hknown a ha)] at hne heq
    rw [hinode a' (hknown a' ha')] at heq
    exact h.apart a a' (hknown a ha) (hknown a' ha') i i' hne heq
  · rw [hinode d (hknown d hd)] at hisdir he
    exact hent d (hknown d hd) hisdir e he

theorem superblock_ne_data (L : Layout s.sb) (hb : IsData s.sb b) : (0 : UInt32) ≠ b := by
  rintro rfl
  have h1 := L.inodes
  have h2 := L.data
  rw [IsData, UInt32.toNat_zero] at hb
  omega

theorem jfsJournalWrite_written {data : Buffer} (p : Role × UInt32) (hp : p ∈ (jfsJournalWrite s b data).written) :
    p ∈ s.written ∨ p.1 = .journal ∨ p = (.data, b) := by
  simp only [jfsJournalWrite, diskWrite, append_assoc, mem_append, mem_cons, not_mem_nil, or_false] at hp
  rcases hp with hp | rfl | rfl | rfl | rfl | rfl
  · exact .inl hp
  all_goals first
    | exact .inr (.inl rfl)
    | exact .inr (.inr rfl)

theorem Wf.journalWrite (h : Wf s) (hb : Taken s b) {data : Buffer}
    (hent : ∀ d, Known s d → (getInode s d).isDirectory = true → ∀ e ∈ (getInode s d).slots, e.block = b →
      EntryOk (jfsJournalWrite s b data) e) : Wf (jfsJournalWrite s b data) := by
  have L := h.layout
  refine h.ofData rfl rfl rfl (disk_jfsJournalWrite (superblock_ne_data L hb.1) fun k hk => L.journal_ne hk (.inr rfl))
    (fun idx hk => getInode_jfsJournalWrite L (h.inTable hk) hb.1) (fun p hp => ?_) fun d hd hisdir e he => ?_
  · rcases jfsJournalWrite_written p hp with hp | hp | rfl
    · exact h.written p hp
    · obtain ⟨role, c⟩ := p
      obtain rfl := hp
      trivial
    · exact ⟨hb.1, lt_of_lt_of_le hb.2 h.free⟩
  · by_cases heb : e.block = b
    · exact hent d hd hisdir e he heb
    · exact (h.entries d hd hisdir e he).congr (Nat.le_refl _)
        (disk_jfsJournalWrite_ne L (h.slot_taken hd he).1 heb)

theorem Wf.writeUnowned (h : Wf s) (hb : Unowned s b) (data : Buffer) : Wf (diskWrite s .data b data) := by
  have L := h.layout
  refine h.ofData rfl rfl rfl (disk_diskWrite_ne (superblock_ne_data L hb.taken.1))
    (fun idx hk => getInode_diskWrite L (h.inTable hk) hb.taken.1) (fun p hp => ?_) fun d hd hisdir e he => ?_
  · rcases mem_append.1 hp with hp | hp
    · exact h.written p hp
    · rw [mem_singleton.1 hp]
      exact ⟨hb.taken.1, lt_of_lt_of_le hb.taken.2 h.free⟩
  · obtain ⟨⟨i, hi⟩, -, -⟩ := mem_slots.1 he
    exact (h.entries d hd hisdir e he).congr (Nat.le_refl _)
      (disk_diskWrite_ne fun heb => hb.none d hd i (hi.trans heb))

theorem Unowned.diskWrite (h : Wf s) (hb : Unowned s b) (data : Buffer) : Unowned (diskWrite s .data b data) b := by
  refine ⟨hb.taken, fun idx hk i => ?_⟩
  rw [getInode_diskWrite h.layout (h.inTable hk) hb.taken.1]
  exact hb.none idx hk i

/-! ## Allocation -/

def Jfs.bump (s : Jfs) : Jfs := { s with nextFreeBlock := s.nextFreeBlock + 1 }

theorem bump_toNat (hlt : s.nextFreeBlock.toNat < s.sb.totalBlocks.toNat) :
    s.bump.nextFreeBlock.toNat = s.nextFreeBlock.toNat + 1 := by
  have := s.sb.totalBlocks.toNat_lt
  rw [Jfs.bump, UInt32.toNat_add, UInt32.toNat_one]
  omega

theorem Wf.bump (h : Wf s) (hlt : s.nextFreeBlock.toNat < s.sb.totalBlocks.toNat) :
    Wf s.bump ∧ Unowned s.bump s.nextFreeBlock := by
  have hn := bump_toNat hlt
  have hstart := h.start
  constructor
  · refine ⟨h.layout, h.super, h.magic, by rw [hn]; exact Nat.lt_succ_of_lt hstart, by rw [hn]; exact hlt, h.root, h.table,
      fun idx hk i hne => ?_, h.apart, fun d hd hisdir e he => (h.entries d hd hisdir e he).congr (Nat.le_refl _) rfl,
      h.written⟩
    have := h.taken idx hk i hne
    exact ⟨this.1, by rw [hn]; exact Nat.lt_succ_of_lt this.2⟩
  · refine ⟨⟨Nat.le_of_lt hstart, by rw [hn]; omega⟩, fun idx hk i heq => ?_⟩
    have hne : (getInode s idx).blocks i ≠ 0 := by
      rw [show (getInode s idx).blocks i = s.nextFreeBlock from heq]
      intro h0
      rw [h0, UInt32.toNat_zero] at hstart
      omega
    have := (h.taken idx hk i hne).2
    rw [show (getInode s idx).blocks i = s.nextFreeBlock from heq] at this
    omega

def Inode.withBlock (dir : Inode) (i : Fin 12) (b : UInt32) : Inode := { dir with blocks := update dir.blocks i b }

@[simp] theorem withBlock_self : (dir.withBlock i b).blocks i = b := update_self _ _ _

theorem withBlock_of_ne (h : j ≠ i) : (dir.withBlock i b).blocks j = dir.blocks j := update_of_ne h _ _

def newInode (idx flags : UInt32) : Inode := ⟨idx, 0, flags, 1, fun _ => 0⟩

theorem newInode_slots (idx flags : UInt32) : (newInode idx flags).slots = [] := by
  simp [newInode, Inode.slots]

section AllocInode

variable (h : Wf s) (hlt : s.nextInode.toNat < 8 * s.sb.inodeBlocks.toNat) (flags : UInt32)
include h hlt

theorem allocInode_nextInode : (jfsAllocInode s flags).1.nextInode.toNat = s.nextInode.toNat + 1 := by
  have := h.layout.table
  rw [jfsAllocInode, putInode_nextInode, UInt32.toNat_add, UInt32.toNat_one]
  omega

theorem allocInode_known : Known (jfsAllocInode s flags).1 idx ↔ Known s idx ∨ idx = s.nextInode := by
  rw [Known, Known, allocInode_nextInode h hlt, ← UInt32.toNat_inj]
  omega

omit h hlt in
theorem getInode_allocInode_self : getInode (jfsAllocInode s flags).1 s.nextInode = newInode s.nextInode flags :=
  getInode_putInode_self

theorem getInode_allocInode_ne (hk : Known s idx) : getInode (jfsAllocInode s flags).1 idx = getInode s idx := by
  have hne : idx ≠ s.nextInode := by
    rintro rfl
    exact Nat.lt_irrefl _ hk
  exact getInode_putInode_ne (s := { s with nextInode := s.nextInode + 1 }) h.layout hlt (h.inTable hk) hne

theorem disk_allocInode (hb : IsData s.sb b) : (jfsAllocInode s flags).1.disk b = s.disk b :=
  disk_putInode (s := { s with nextInode := s.nextInode + 1 }) h.layout hlt hb

theorem Wf.allocInode : Wf (jfsAllocInode s flags).1 := by
  have L := h.layout
  have hn := allocInode_nextInode h hlt flags
  have hself := getInode_allocInode_self (s := s) flags
  have hother := fun idx (hk : Known s idx) => getInode_allocInode_ne h hlt flags hk
  have hcases : ∀ idx, Known (jfsAllocInode s flags).1 idx → Known s idx ∨ idx = s.nextInode :=
    fun _ => (allocInode_known h hlt flags).1
  refine ⟨L, ?_, h.magic, h.start, h.free, by rw [hn]; omega, by rw [hn]; exact hlt, fun idx hk i hne => ?_,
    fun a a' ha ha' i i' hne heq => ?_, fun d hd hisdir e he => ?_, fun p hp => ?_⟩
  · rw [jfsAllocInode, superblock_putInode (s := { s with nextInode := s.nextInode + 1 }) L hlt]
    exact h.super
  · rcases hcases idx hk with hk | rfl
    · rw [hother idx hk] at hne ⊢
      exact h.taken idx hk i hne
    · rw [hself] at hne
      exact absurd rfl hne
  · rcases hcases a ha with ha | rfl
    · rcases hcases a' ha' with ha' | rfl
      · rw [hother a ha] at hne heq
        rw [hother a' ha'] at heq
        exact h.apart a a' ha ha' i i' hne heq
      · rw [hself] at heq
        exact absurd heq hne
    · rw [hself] at hne
      exact absurd rfl hne
  · rcases hcases d hd with hd | rfl
    · rw [hother d hd] at hisdir he
      exact (h.entries d hd hisdir e he).congr (by omega) (disk_allocInode h hlt flags (h.slot_taken hd he).1)
    · rw [hself, newInode_slots] at he
      cases he
  · rcases mem_append.1 hp with hp | hp
    · exact h.written p hp
    · rw [mem_singleton.1 hp]
      have h1 := L.inodeBlock_toNat (i := s.nextInode) hlt
      have h2 : (s.sb.inodeBlock s.nextInode).toNat < s.sb.inodeStart.toNat + s.sb.inodeBlocks.toNat := by omega
      exact ⟨show s.sb.inodeStart.toNat ≤ (s.sb.inodeBlock s.nextInode).toNat by omega, h2⟩

end AllocInode

/-! ## A new filesystem -/

def blankJfs : Jfs := ⟨fun _ _ => 0, ⟨0, 0, 0, 0, 0, 0, 0, 0⟩, 0, 1, 1, []⟩

def formatted (total : UInt32) : Superblock := ⟨jfsMagic, 512, 1, 64, 65, 32, 100, total⟩

theorem superblock_read_words (sb : Superblock) : Superblock.read (Buffer.words sb.word) = sb := by
  obtain ⟨m, bs, js, jb, is, ib, ds, tb⟩ := sb
  have h := fun k => Buffer.get32_words (Superblock.word ⟨m, bs, js, jb, is, ib, ds, tb⟩) k
  have h0 := h 0
  have h1 := h 1
  have h2 := h 2
  have h3 := h 3
  have h4 := h 4
  have h5 := h 5
  have h6 := h 6
  have h7 := h 7
  simp only [Nat.mul_zero, Nat.reduceMul] at h0 h1 h2 h3 h4 h5 h6 h7
  simp [Superblock.read, h0, h1, h2, h3, h4, h5, h6, h7, Superblock.word]

def newRoot : Inode := ⟨0, 0, fsDirectory, 0, update (fun _ => 0) 0 100⟩

def labelled (total : UInt32) : Jfs :=
  diskWrite { blankJfs with sb := formatted total } .super 0 (Buffer.words (formatted total).word)

def freshJfs (total : UInt32) : Jfs := { putInode (labelled total) newRoot 0 with nextFreeBlock := 101 }

section Fresh

variable {total : UInt32}

theorem getInode_fresh : getInode (freshJfs total) 0 = newRoot := getInode_putInode_self (s := labelled total)

theorem known_fresh : Known (freshJfs total) idx ↔ idx = 0 := by
  rw [← UInt32.toNat_inj, UInt32.toNat_zero]
  change idx.toNat < 1 ↔ _
  omega

theorem newRoot_blocks : ∀ i, newRoot.blocks i ≠ 0 → i = 0 ∧ newRoot.blocks i = 100 := by
  decide

theorem layout_formatted (h : 101 ≤ total.toNat) : Layout (formatted total) :=
  ⟨show 0 < 1 by decide, show 1 + 4 ≤ 65 by decide, show 8 * 32 < 2 ^ 32 by decide, show 65 + 32 ≤ 100 by decide, h⟩

theorem inTable_formatted : InTable (formatted total) 0 := show 0 < 8 * 32 by decide

theorem disk_fresh (h : 101 ≤ total.toNat) (hb : 100 ≤ b.toNat) : (freshJfs total).disk b = fun _ => 0 := by
  have hne : b ≠ 0 := by
    rintro rfl
    exact absurd hb (by decide)
  refine (disk_putInode (s := labelled total) (layout_formatted h) inTable_formatted hb).trans ?_
  exact disk_diskWrite_ne hne

/-- **A new filesystem** on a blank partition of more than 100 blocks. -/
theorem fresh_wf (h : 101 ≤ total.toNat) : Wf (freshJfs total) := by
  have L : Layout (labelled total).sb := layout_formatted h
  refine ⟨L, ?_, rfl, show 100 < 101 by decide, h, show 0 < 1 by decide, show 1 ≤ 8 * 32 by decide,
    fun idx hk i hne => ?_, fun a a' ha ha' i i' hne heq => ?_, fun d hd _ e he => ?_, fun p hp => ?_⟩
  · change Superblock.read ((putInode (labelled total) newRoot 0).disk 0) = _
    rw [superblock_putInode L inTable_formatted, labelled, disk_diskWrite_self, superblock_read_words]
    rfl
  · rw [known_fresh.1 hk, getInode_fresh] at hne ⊢
    rw [(newRoot_blocks i hne).2]
    exact ⟨show 100 ≤ 100 by decide, show 100 < 101 by decide⟩
  · rw [known_fresh.1 ha, getInode_fresh] at hne heq
    rw [known_fresh.1 ha', getInode_fresh] at heq
    exact ⟨(known_fresh.1 ha).trans (known_fresh.1 ha').symm,
      (newRoot_blocks i hne).1.trans (newRoot_blocks i' (heq ▸ hne)).1.symm⟩
  · rw [known_fresh.1 hd, getInode_fresh] at he
    obtain ⟨⟨i, hi⟩, hne, -⟩ := mem_slots.1 he
    have hzero : e.inode (freshJfs total) = 0 := by
      rw [Slot.inode, ← hi, (newRoot_blocks i (hi ▸ hne)).2, disk_fresh h (by decide)]
      rfl
    exact ⟨by rw [hzero]; exact show 0 < 1 by decide, fun hlive => absurd hzero hlive⟩
  · change p ∈ [(Role.super, (0 : UInt32)), (.inode, 65)] at hp
    simp only [mem_cons, not_mem_nil, or_false] at hp
    rcases hp with rfl | rfl
    · trivial
    · exact ⟨show 65 ≤ 65 by decide, show 65 < 65 + 32 by decide⟩

end Fresh

end EterOS.Fs
