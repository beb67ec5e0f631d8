import EterOS.Fs.JfsFile
import EterOS.Fs.JfsOps
/-!
# JfsMount — storage across mounts

What is in use is on the disk; what comes next is in two counters in memory.  `jfs_init` sets the block counter behind
the first data block whatever the disk holds, and a kernel that starts anew begins with inode 1.  `StorageOk` is what
should hold of every mounted state; `Wf` gives it and every operation keeps `Wf`, as long as a mount finds nothing in
use that its counters would hand out again, and the inode table and the disk are not full.
-/
namespace EterOS.Fs

variable {s : Jfs} {idx : UInt32}

inductive JfsOp where
  | names (op : NameOp)
  | write (ino offset size : UInt32) (buffer : Buffer)
  /-- The partition is mounted again by the same kernel: `next_inode` is a static variable and stays. -/
  | mount (length : UInt32)
  /-- The kernel starts anew and mounts the partition. -/
  | reboot (length : UInt32)

def Jfs.step (s : Jfs) : JfsOp → Jfs
  | .names op => (s.perform op).1
  | .write ino offset size buffer => (jfsWrite s ino offset size buffer).1
  | .mount length => jfsInit s length
  | .reboot length => jfsInit { s with nextInode := 1, currentTxId := 1 } length

/-! ## What should hold -/

/-- An inode in use: the root, one that was handed out, or one that an entry of a directory in use names. -/
inductive InUse (s : Jfs) : UInt32 → Prop
  | known {idx : UInt32} : Known s idx → InUse s idx
  | named {d c : UInt32} {name : CStr} : InUse s d → (name, c) ∈ entries s d → InUse s c

structure StorageOk (s : Jfs) : Prop where
  /-- No block is in two inodes, or in one twice. -/
  apart : ∀ a a', InUse s a → InUse s a' → ∀ i i', (getInode s a).blocks i ≠ 0 →
    (getInode s a).blocks i = (getInode s a').blocks i' → a = a' ∧ i = i'
  /-- No entry names the inode that is handed out next. -/
  fresh : ∀ d, InUse s d → ∀ name, (name, s.nextInode) ∉ entries s d
  /-- Every block written so far was in the region for it. -/
  written : ∀ p ∈ s.written, InRegion s.sb p

theorem InUse.known_of_wf (h : Wf s) (hu : InUse s idx) : Known s idx := by
  induction hu with
  | known hk => exact hk
  | named _ hmem ih => exact h.entry_known ih hmem

theorem Wf.storageOk (h : Wf s) : StorageOk s where
  apart := fun a a' ha ha' => h.apart a a' (ha.known_of_wf h) (ha'.known_of_wf h)
  fresh := fun _ hd _ hmem => Nat.lt_irrefl _ (h.entry_known (hd.known_of_wf h) hmem)
  written := h.written

/-! ## What keeps it -/

/-- No inode below `next` has a block behind the first. -/
def OneBlock (s : Jfs) (next : UInt32) : Prop := ∀ idx : UInt32, idx.toNat < next.toNat → ∀ i,
  (getInode s idx).blocks i ≠ 0 → (getInode s idx).blocks i = s.sb.dataStart

/-- Nodes are of inodes that were handed out.  An inode is created only while the table has room, a file is given
blocks only while the disk has; the partition is mounted again only while the root has one block and no other inode has
any, and by a new kernel only while the root has one block and no entry. -/
def StorageMet (s : Jfs) : JfsOp → Prop
  | .names op => op.Ready s
  | .write ino offset size _ => Known s ino ∧ ((getInode s ino).isDirectory = false →
      s.nextFreeBlock.toNat + needed s ino offset size ≤ s.sb.totalBlocks.toNat)
  | .mount _ => OneBlock s s.nextInode
  | .reboot _ => OneBlock s 1 ∧ entries s 0 = []

theorem jfsInit_of_magic (h : Wf s) (length : UInt32) (next tx : UInt32) :
    jfsInit { s with nextInode := next, currentTxId := tx } length =
      { s with nextInode := next, currentTxId := tx, nextFreeBlock := s.sb.dataStart + 1 } := by
  rw [jfsInit]
  simp [h.super, h.magic]

theorem dataStart_succ (h : Wf s) : (s.sb.dataStart + 1).toNat = s.sb.dataStart.toNat + 1 := by
  have h1 := h.layout.total
  have h2 := s.sb.totalBlocks.toNat_lt
  rw [UInt32.toNat_add, UInt32.toNat_one]
  omega

theorem Wf.mount (h : Wf s) {next : UInt32} (hone : OneBlock s next) (length tx : UInt32) (h0 : 0 < next.toNat)
    (hle : next.toNat ≤ s.nextInode.toNat)
    (hent : ∀ d : UInt32, d.toNat < next.toNat → (getInode s d).isDirectory = true → ∀ e ∈ (getInode s d).slots,
      (e.inode s).toNat < next.toNat) : Wf (jfsInit { s with nextInode := next, currentTxId := tx } length) := by
  rw [jfsInit_of_magic h]
  have hknown : ∀ a : UInt32, a.toNat < next.toNat → Known s a := fun a ha => Nat.lt_of_lt_of_le ha hle
  have hstart := dataStart_succ h
  have htotal := h.layout.total
  refine ⟨h.layout, h.super, h.magic, by rw [hstart]; exact Nat.lt_succ_self _, by rw [hstart]; exact htotal, h0,
    Nat.le_trans hle h.table, fun a ha i hne => ?_, fun a a' ha ha' => h.apart a a' (hknown a ha) (hknown a' ha'),
    fun d hd hdir e he => ⟨hent d hd hdir e he, (h.entries d (hknown d hd) hdir e he).ends⟩, h.written⟩
  change Taken _ ((getInode s a).blocks i)
  rw [hone a ha i hne]
  exact ⟨Nat.le_refl _, by rw [hstart]; exact Nat.lt_succ_self _⟩

theorem Wf.step (h : Wf s) (op : JfsOp) (hm : StorageMet s op) : Wf (s.step op) := by
  cases op with
  | names op => exact h.perform hm
  | write ino offset size buffer =>
    by_cases hfile : (getInode s ino).isDirectory = false
    · exact (jfsWrite_spec h hm.1 hfile (hm.2 hfile)).wf
    · rw [Bool.not_eq_false] at hfile
      rw [Jfs.step, jfsWrite]
      simp only [if_pos hfile]
      exact h
  | mount length =>
    exact h.mount hm length s.currentTxId h.root (Nat.le_refl _) fun d hd hdir e he =>
      (h.entries d hd hdir e he).child
  | reboot length =>
    refine h.mount hm.1 length 1 (by decide) h.root fun d hd hdir e he => ?_
    -- an empty root has no live entry
    obtain rfl : d = 0 := UInt32.toNat_inj.1 (by rw [UInt32.toNat_zero]; rw [UInt32.toNat_one] at hd; omega)
    have hempty := hm.2
    rw [Fs.entries, if_pos hdir, entriesOf, List.map_eq_nil_iff, List.filter_eq_nil_iff] at hempty
    have h0 : e.inode s = 0 := by simpa using hempty e he
    rw [h0]
    decide

/-- **Storage stays apart** in every run whose steps meet the condition. -/
theorem storage_disjoint (s : Jfs) (h : Wf s) (ops : List JfsOp) (hm : Run.Guarded Jfs.step StorageMet s ops) :
    ∀ s' ∈ Run.states Jfs.step s ops, StorageOk s' := by
  intro s' hs'
  exact (Run.states_forall (P := Wf) (fun _ op h hm => h.step op hm) ops s h hm s' hs').storageOk

theorem fresh_oneBlock {total : UInt32} : OneBlock (freshJfs total) (freshJfs total).nextInode := by
  intro idx hk i hne
  rw [known_fresh.1 hk, getInode_fresh] at hne ⊢
  exact (newRoot_blocks i hne).2

def sampleOps : List JfsOp :=
  [.mount 524288, .names (.create 0 nameA), .write 1 0 1 fun _ => 7, .names (.rename 0 nameA 0 nameB)]

theorem sample_storage : Wf (freshJfs 1024) ∧ Run.Guarded Jfs.step StorageMet (freshJfs 1024) sampleOps ∧
    ∀ s' ∈ Run.states Jfs.step (freshJfs 1024) sampleOps, StorageOk s' := by
  have hwf : Wf (freshJfs 1024) := fresh_wf (by decide)
  have hm : Run.Guarded Jfs.step StorageMet (freshJfs 1024) sampleOps := by
    refine ⟨fresh_oneBlock, ⟨?_, fun _ _ => ?_⟩, ⟨?_, fun _ => ?_⟩, ⟨?_, ?_⟩, trivial⟩ <;> decide +kernel
  exact ⟨hwf, hm, storage_disjoint _ hwf _ hm⟩

def remountOps : List JfsOp :=
  [.names (.create 0 nameA), .write 1 0 1 fun _ => 7, .mount 524288, .names (.create 0 nameB), .write 2 0 1 fun _ => 8]

theorem remount_hands_out_again : Wf (freshJfs 1024) ∧
    ¬ ∀ s' ∈ Run.states Jfs.step (freshJfs 1024) remountOps, StorageOk s' := by
  refine ⟨fresh_wf (by decide), fun h => ?_⟩
  have hlast := h _ (Run.foldl_mem_states remountOps (freshJfs 1024))
  have hsame := (hlast.apart 1 2 (.known (by decide +kernel)) (.known (by decide +kernel)) 0 0
    (by decide +kernel) (by decide +kernel)).1
  exact absurd hsame (by decide)

end EterOS.Fs
