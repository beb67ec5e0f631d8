import EterOS.Lib.Inserted
import EterOS.Fs.JfsSpace
/-!
# JfsDir — what the directory loops do to the entries

`entries` reads a directory as the list of its live entries, in the order in which every loop visits them.  Adding an
entry puts one in, possibly after giving the directory new, empty blocks; removing one takes one out; neither touches
another inode, another directory or a block of a file.
-/
namespace EterOS.Fs

open List
open Function (update update_self update_of_ne)

variable {s s' s'' : Jfs} {x dir : Inode} {idx d b child : UInt32} {i : Fin 12} {name : CStr} {e : Slot} {j k : Nat}
  {B B' : Buffer}

/-! ## The bytes of an entry -/

def SameEntry (B B' : Buffer) (j : Nat) : Prop := ∀ k, 64 * j ≤ k → k < 64 * j + 64 → B k = B' k

theorem SameEntry.get32 (h : SameEntry B B' j) : B.get32 (64 * j) = B'.get32 (64 * j) :=
  Buffer.get32_congr fun k hk hk' => h k hk (by omega)

theorem SameEntry.nameAt (h : SameEntry B B' j) : nameAt B (64 * j + 4) = nameAt B' (64 * j + 4) := by
  have hmap : ((List.range 60).map fun k => B (64 * j + 4 + k)) = (List.range 60).map fun k => B' (64 * j + 4 + k) :=
    map_congr_left fun k hk => h _ (by omega) (by have := mem_range.1 hk; omega)
  simp [Fs.nameAt, hmap]

theorem fillEntry_other (h : k ≠ j) : SameEntry (fillEntry B j child name) B k := by
  intro p hp hp'
  rw [fillEntry, strlcpy60]
  rcases Nat.lt_or_gt_of_ne h with hlt | hlt
  · rw [Buffer.blit_of_lt (by omega), Buffer.blit_of_lt (by omega)]
  · rw [Buffer.blit_of_ge (by omega), Buffer.blit_of_ge (by omega)]

theorem clearEntry_other (h : k ≠ j) : SameEntry (clearEntry B j) B k := by
  intro p hp hp'
  rw [clearEntry]
  rcases Nat.lt_or_gt_of_ne h with hlt | hlt
  · rw [Buffer.blit_of_lt (by omega)]
  · rw [Buffer.blit_of_ge (by omega)]

theorem clearEntry_get32 : (clearEntry B j).get32 (64 * j) = 0 := by
  rw [clearEntry, Buffer.get32_blit_of_mem (Nat.le_refl _) (by omega)]
  rfl

theorem fillEntry_get32 : (fillEntry B j child name).get32 (64 * j) = child := by
  rw [fillEntry, strlcpy60, Buffer.get32_blit_of_disjoint (by omega), Buffer.get32_blit_of_mem (Nat.le_refl _) (by omega),
    Nat.sub_self]
  exact Buffer.get32_words (fun _ => child) 0

/-- The name as `strlcpy` stores it: cut after 59 bytes. -/
def CStr.cut (name : CStr) : CStr := ⟨name.bytes.take 59, fun h => name.nonzero (mem_of_mem_take h)⟩

theorem CStr.cut_of_le (h : name.bytes.length ≤ 59) : name.cut = name := by
  obtain ⟨bytes, nonzero⟩ := name
  simp only [CStr.cut, CStr.mk.injEq]
  exact take_of_length_le h

theorem fillEntry_name_byte (h : k ≤ (name.cut).bytes.length) :
    fillEntry B j child name (64 * j + 4 + k) = name.cut.bytes.getD k 0 := by
  have hlen : name.cut.bytes.length = min 59 name.bytes.length := length_take
  rw [fillEntry, strlcpy60, Buffer.blit_of_mem (by omega) (by omega), Nat.add_sub_cancel_left]
  rfl

theorem fillEntry_ends : ∃ k < 60, fillEntry B j child name (64 * j + 4 + k) = 0 := by
  have hlen : name.cut.bytes.length = min 59 name.bytes.length := length_take
  refine ⟨name.cut.bytes.length, by omega, ?_⟩
  rw [fillEntry_name_byte (Nat.le_refl _)]
  simp

theorem strcmpEq_iff {off : Nat} : strcmpEq B off name = true ↔
    (∀ k (h : k < name.bytes.length), B (off + k) = name.bytes.get ⟨k, h⟩) ∧ B (off + name.bytes.length) = 0 := by
  simp only [strcmpEq, Bool.and_eq_true, all_eq_true, mem_range, beq_iff_eq]
  refine and_congr_left fun _ => forall_congr' fun k => forall_congr' fun hk => ?_
  rw [List.getElem?_eq_getElem hk, Option.some.injEq, get_eq_getElem]

theorem nameAt_of_strcmpEq {off : Nat} (hlen : name.bytes.length < 60) (h : strcmpEq B off name = true) :
    nameAt B off = name := by
  obtain ⟨hbytes, hend⟩ := strcmpEq_iff.1 h
  have hfirst : (List.range name.bytes.length).map (fun k => B (off + k)) = name.bytes := by
    apply ext_getElem
    · simp
    · intro k h1 h2
      simpa using hbytes k h2
  have hsplit : (60 : Nat) = name.bytes.length + ((59 - name.bytes.length) + 1) := by omega
  have hfield : (List.range 60).map (fun k => B (off + k)) = name.bytes ++
      0 :: (List.range (59 - name.bytes.length)).map fun k => B (off + (name.bytes.length + (k + 1))) := by
    rw [hsplit, range_add, map_append, hfirst, range_succ_eq_map]
    simp [Function.comp_def, hend]
  obtain ⟨bytes, nonzero⟩ := name
  simp only [nameAt, CStr.mk.injEq]
  rw [hfield, takeWhile_append_of_pos, takeWhile_cons_of_neg (by simp), append_nil]
  intro a ha
  simp only [decide_eq_true_eq]
  rintro rfl
  exact nonzero ha

theorem strcmpEq_iff_nameAt {off : Nat} (hends : ∃ k < 60, B (off + k) = 0) :
    strcmpEq B off name = true ↔ nameAt B off = name := by
  classical
  constructor
  · intro h
    refine nameAt_of_strcmpEq ?_ h
    obtain ⟨k, hk, h0⟩ := hends
    by_contra hlen
    have hkb := (strcmpEq_iff.1 h).1 k (by omega)
    rw [h0] at hkb
    exact name.nonzero (hkb ▸ get_mem _ _)
  · -- the field holds the bytes before its first zero
    have hk0 := Nat.find_spec hends
    have hmin : ∀ k, k < Nat.find hends → B (off + k) ≠ 0 := fun k hk h0 =>
      Nat.find_min hends hk ⟨Nat.lt_trans hk hk0.1, h0⟩
    have hn : strcmpEq B off ⟨(List.range (Nat.find hends)).map fun k => B (off + k), fun h => by
        obtain ⟨k, hk, h0⟩ := mem_map.1 h
        exact hmin k (mem_range.1 hk) h0⟩ = true := by
      refine strcmpEq_iff.2 ⟨fun k hk => by simp, ?_⟩
      simpa using hk0.2
    intro h
    rw [nameAt_of_strcmpEq (by simpa using hk0.1) hn] at h
    exact h ▸ hn

theorem fillEntry_name : nameAt (fillEntry B j child name) (64 * j + 4) = name.cut := by
  have hlen : name.cut.bytes.length = min 59 name.bytes.length := length_take
  refine nameAt_of_strcmpEq (by omega) (strcmpEq_iff.2 ⟨fun k hk => ?_, ?_⟩)
  · rw [fillEntry_name_byte (Nat.le_of_lt hk)]
    simp [List.getD, hk]
  · rw [fillEntry_name_byte (Nat.le_refl _)]
    simp

/-! ## The entries of a directory -/

def entriesOf (s : Jfs) (dir : Inode) : List (CStr × UInt32) :=
  (dir.slots.filter fun e => e.inode s ≠ 0).map fun e => (e.name s, e.inode s)

/-- The live entries of directory `d`; what is not a directory has none. -/
def entries (s : Jfs) (d : UInt32) : List (CStr × UInt32) :=
  if (getInode s d).isDirectory then entriesOf s (getInode s d) else []

def entryAt (B : Buffer) (j : Nat) : List (CStr × UInt32) :=
  if B.get32 (64 * j) = 0 then [] else [(nameAt B (64 * j + 4), B.get32 (64 * j))]

def blockEntries (B : Buffer) : List (CStr × UInt32) := (List.range 8).flatMap (entryAt B)

theorem entriesOf_eq : entriesOf s dir = (List.finRange 12).flatMap fun i =>
    if dir.blocks i = 0 then [] else blockEntries (s.disk (dir.blocks i)) := by
  have hblock : ∀ b, (((List.range 8).map (Slot.mk b)).filter fun e => e.inode s ≠ 0).map
      (fun e => (e.name s, e.inode s)) = blockEntries (s.disk b) := by
    intro b
    rw [filter_map, map_map, map_eq_flatMap, flatMap_filter, blockEntries]
    refine flatMap_congr fun j _ => ?_
    by_cases h0 : (s.disk b).get32 (64 * j) = 0 <;> simp [entryAt, Slot.inode, Slot.name, h0]
  rw [entriesOf, Inode.slots, filter_flatMap, map_flatMap, filter_map, flatMap_map, flatMap_filter]
  refine flatMap_congr fun i _ => ?_
  rw [hblock]
  by_cases h0 : dir.blocks i = 0 <;> simp [h0]

theorem SameEntry.entryAt (h : SameEntry B B' j) : entryAt B j = entryAt B' j := by
  rw [Fs.entryAt, Fs.entryAt, h.get32, h.nameAt]

theorem blockEntries_fill (hj : j < 8) (hfree : B.get32 (64 * j) = 0) (hc : child ≠ 0) :
    Inserted (name.cut, child) (blockEntries B) (blockEntries (fillEntry B j child name)) := by
  refine .flatMap nodup_range (mem_range.2 hj) ?_ fun k _ hk => (fillEntry_other hk).entryAt
  rw [entryAt, entryAt, fillEntry_get32, fillEntry_name, if_neg hc, if_pos hfree]
  exact .nil

theorem blockEntries_fill_zero (hfree : B.get32 (64 * j) = 0) : blockEntries (fillEntry B j 0 name) = blockEntries B := by
  refine flatMap_congr fun k _ => ?_
  by_cases hk : k = j
  · subst hk
    rw [entryAt, entryAt, fillEntry_get32, if_pos rfl, if_pos hfree]
  · exact (fillEntry_other hk).entryAt

theorem blockEntries_clear (hj : j < 8) (hlive : B.get32 (64 * j) ≠ 0) :
    Inserted (nameAt B (64 * j + 4), B.get32 (64 * j)) (blockEntries (clearEntry B j)) (blockEntries B) := by
  refine .flatMap nodup_range (mem_range.2 hj) ?_ fun k _ hk => (clearEntry_other hk).entryAt.symm
  rw [entryAt, entryAt, clearEntry_get32, if_neg hlive, if_pos rfl]
  exact .nil

theorem blockEntries_zero : blockEntries (fun _ => 0) = [] := by
  decide

theorem entriesOf_congr {dir' : Inode} (hblocks : dir'.blocks = dir.blocks)
    (hdisk : ∀ i, dir.blocks i ≠ 0 → s'.disk (dir.blocks i) = s.disk (dir.blocks i)) :
    entriesOf s' dir' = entriesOf s dir := by
  rw [entriesOf_eq, entriesOf_eq, hblocks]
  refine flatMap_congr fun i _ => ?_
  by_cases h0 : dir.blocks i = 0
  · rw [if_pos h0, if_pos h0]
  · rw [if_neg h0, if_neg h0, hdisk i h0]

/-! ## Steps within one directory -/

/-- Only inode `d`, its blocks and blocks that were not handed out yet have changed. -/
structure InodeStep (s s' : Jfs) (d : UInt32) : Prop where
  wf : Wf s'
  sb : s'.sb = s.sb
  next : s'.nextInode = s.nextInode
  free : s.nextFreeBlock.toNat ≤ s'.nextFreeBlock.toNat
  inode : ∀ a, Known s a → a ≠ d → getInode s' a = getInode s a
  data : ∀ b, Taken s b → (∀ i, (getInode s d).blocks i ≠ b) → s'.disk b = s.disk b

theorem InodeStep.known (h : InodeStep s s' d) : Known s' idx ↔ Known s idx := by
  rw [Known, Known, h.next]

theorem InodeStep.disk_eq (h : Wf s) (hd : Known s d) (hs : InodeStep s s' d) (hk : Known s idx) (hne : idx ≠ d)
    (hi : (getInode s idx).blocks i ≠ 0) :
    s'.disk ((getInode s idx).blocks i) = s.disk ((getInode s idx).blocks i) := by
  refine hs.data _ (h.taken idx hk i hi) fun j heq => ?_
  exact h.block_ne hd hk hne hi heq i rfl

theorem InodeStep.entries_ne (h : Wf s) (hd : Known s d) (hs : InodeStep s s' d) (hk : Known s idx) (hne : idx ≠ d) :
    entries s' idx = entries s idx := by
  rw [entries, entries, hs.inode idx hk hne]
  split
  · exact entriesOf_congr rfl fun i h0 => hs.disk_eq h hd hk hne h0
  · rfl

/-- Directory `d` has changed, but for its flags and its links: it may have got more blocks. -/
structure DirStep (s s' : Jfs) (d : UInt32) : Prop where
  wf : Wf s'
  sb : s'.sb = s.sb
  next : s'.nextInode = s.nextInode
  free : s.nextFreeBlock.toNat ≤ s'.nextFreeBlock.toNat
  inode : ∀ a, Known s a → a ≠ d → getInode s' a = getInode s a
  flags : (getInode s' d).flags = (getInode s d).flags
  nlink : (getInode s' d).nlink = (getInode s d).nlink
  grown : ∀ i, (getInode s' d).blocks i = (getInode s d).blocks i ∨
    (getInode s d).blocks i = 0 ∧ s.nextFreeBlock.toNat ≤ ((getInode s' d).blocks i).toNat
  data : ∀ b, Taken s b → (∀ i, (getInode s d).blocks i ≠ b) → s'.disk b = s.disk b

theorem DirStep.refl (h : Wf s) : DirStep s s d where
  wf := h
  sb := rfl
  next := rfl
  free := Nat.le_refl _
  inode := fun _ _ _ => rfl
  flags := rfl
  nlink := rfl
  grown := fun _ => .inl rfl
  data := fun _ _ _ => rfl

theorem DirStep.toInodeStep (h : DirStep s s' d) : InodeStep s s' d := ⟨h.wf, h.sb, h.next, h.free, h.inode, h.data⟩

theorem DirStep.known (h : DirStep s s' d) : Known s' idx ↔ Known s idx := h.toInodeStep.known

theorem DirStep.taken (h : DirStep s s' d) (hb : Taken s b) : Taken s' b := by
  have := h.free
  exact ⟨h.sb ▸ hb.1, lt_of_lt_of_le hb.2 this⟩

theorem DirStep.trans (h : DirStep s s' d) (h' : DirStep s' s'' d) : DirStep s s'' d where
  wf := h'.wf
  sb := h'.sb.trans h.sb
  next := h'.next.trans h.next
  free := Nat.le_trans h.free h'.free
  inode := fun a ha hne => (h'.inode a (h.known.2 ha) hne).trans (h.inode a ha hne)
  flags := h'.flags.trans h.flags
  nlink := h'.nlink.trans h.nlink
  grown := fun i => by
    rcases h.grown i with he | ⟨h0, hle⟩
    · rcases h'.grown i with he' | ⟨h0, hle⟩
      · exact .inl (he'.trans he)
      · exact .inr ⟨he ▸ h0, Nat.le_trans h.free hle⟩
    · rcases h'.grown i with he' | ⟨h0', -⟩
      · exact .inr ⟨h0, he' ▸ hle⟩
      · -- the block it had got is not 0
        rw [h0'] at hle
        exact .inr ⟨h0, by simp only [UInt32.toNat_zero] at hle; omega⟩
  data := fun b hb hne => by
    refine (h'.data b (h.taken hb) fun i heq => ?_).trans (h.data b hb hne)
    rcases h.grown i with he | ⟨-, hle⟩
    · exact hne i (he ▸ heq)
    · rw [heq] at hle
      have := hb.2
      omega

theorem isDirectory_congr {y : Inode} (h : x.flags = y.flags) : x.isDirectory = y.isDirectory := by
  rw [Inode.isDirectory, Inode.isDirectory, h]

theorem DirStep.putInode (h : Wf s) (hd : Known s d) (hflags : x.flags = (getInode s d).flags)
    (hnlink : x.nlink = (getInode s d).nlink) (hblocks : x.blocks = (getInode s d).blocks) :
    DirStep s (putInode s x d) d ∧ entries (Fs.putInode s x d) d = entries s d := by
  have L := h.layout
  have hin := h.inTable hd
  have hdata : ∀ b, Taken s b → (Fs.putInode s x d).disk b = s.disk b := fun b hb => disk_putInode L hin hb.1
  have hslots : x.slots = (getInode s d).slots := by rw [Inode.slots, Inode.slots, hblocks]
  constructor
  · refine ⟨h.putInode hd (fun i _ => .inl (by rw [hblocks])) fun hisdir e he => ?_, rfl, rfl, Nat.le_refl _,
      fun a ha hne => getInode_putInode_ne L hin (h.inTable ha) hne, ?_, ?_, fun i => .inl ?_, fun b hb _ => hdata b hb⟩
    · exact h.entries d hd (isDirectory_congr hflags ▸ hisdir) e (hslots ▸ he)
    · rw [getInode_putInode_self, hflags]
    · rw [getInode_putInode_self, hnlink]
    · rw [getInode_putInode_self, hblocks]
  · rw [entries, entries, getInode_putInode_self, isDirectory_congr hflags]
    split
    · exact entriesOf_congr hblocks fun i h0 => hdata _ (h.taken d hd i h0)
    · rfl

def Jfs.grow (s : Jfs) : Jfs := diskWrite s.bump .data s.nextFreeBlock fun _ => 0

theorem jfsEnsureDirBlock_eq : jfsEnsureDirBlock s dir i = if dir.blocks i ≠ 0 then (s, .ok dir)
    else if s.sb.totalBlocks ≤ s.nextFreeBlock then (s, .error .enospc)
    else (s.grow, .ok (dir.withBlock i s.nextFreeBlock)) := by
  rw [jfsEnsureDirBlock, jfsAllocBlock]
  by_cases hi : dir.blocks i = 0
  · rw [if_neg (not_not.2 hi), if_neg (not_not.2 hi)]
    by_cases hfull : s.sb.totalBlocks ≤ s.nextFreeBlock
    · rw [if_pos hfull, if_pos hfull]
    · rw [if_neg hfull, if_neg hfull]
      rfl
  · rw [if_pos hi, if_pos hi]

section Grow

variable (h : Wf s) (hlt : s.nextFreeBlock.toNat < s.sb.totalBlocks.toNat)
include h hlt

theorem Wf.grow : Wf s.grow ∧ Unowned s.grow s.nextFreeBlock := by
  obtain ⟨h1, hu1⟩ := h.bump hlt
  exact ⟨h1.writeUnowned hu1 _, Unowned.diskWrite h1 hu1 _⟩

theorem getInode_grow (hk : Known s idx) : getInode s.grow idx = getInode s idx :=
  getInode_diskWrite (s := s.bump) h.layout (h.inTable hk) (h.bump hlt).2.taken.1

omit h hlt in
theorem disk_grow (hb : Taken s b) : s.grow.disk b = s.disk b := by
  refine disk_diskWrite_ne ?_
  rintro rfl
  exact Nat.lt_irrefl _ hb.2

theorem Wf.putGrown (hd : Known s d) (i : Fin 12) :
    Wf (Fs.putInode s.grow ((getInode s d).withBlock i s.nextFreeBlock) d) := by
  obtain ⟨h2, hu2⟩ := h.grow hlt
  have hget := getInode_grow h hlt hd
  refine h2.putInode hd (fun k hk => ?_) fun hisdir e he => ?_
  · by_cases hki : k = i
    · subst hki
      rw [withBlock_self]
      refine .inr ⟨hu2, fun m hm => ?_⟩
      by_contra hmk
      rw [withBlock_of_ne hmk, ← hget] at hm
      exact hu2.none d hd m hm
    · rw [withBlock_of_ne hki, hget]
      exact .inl rfl
  · obtain ⟨⟨k, hk⟩, hne, hidx⟩ := mem_slots.1 he
    by_cases hki : k = i
    · have hzero : e.inode s.grow = 0 := by
        rw [Slot.inode, ← hk, hki, withBlock_self, Jfs.grow, disk_diskWrite_self]
        rfl
      refine ⟨?_, fun hlive => absurd hzero hlive⟩
      rw [hzero]
      exact h.root
    · rw [withBlock_of_ne hki, ← hget] at hk
      exact h2.entries d hd (by rw [hget]; exact hisdir) e (mem_slots.2 ⟨⟨k, hk⟩, hne, hidx⟩)

theorem DirStep.grow (hd : Known s d) (hi : (getInode s d).blocks i = 0) :
    DirStep s (Fs.putInode s.grow ((getInode s d).withBlock i s.nextFreeBlock) d) d ∧
    entries (Fs.putInode s.grow ((getInode s d).withBlock i s.nextFreeBlock) d) d = entries s d := by
  have L := h.layout
  have hin := h.inTable hd
  have hu := (h.grow hlt).2
  have hdisk : ∀ x b, Taken s b → (Fs.putInode s.grow x d).disk b = s.disk b := by
    intro x b hb
    rw [disk_putInode (s := s.grow) L hin hb.1, disk_grow hb]
  refine ⟨⟨h.putGrown hlt hd i, rfl, rfl, ?_, fun a ha hne => ?_, ?_, ?_, fun k => ?_, fun b hb _ => hdisk _ b hb⟩, ?_⟩
  · exact Nat.le_of_lt (bump_toNat hlt ▸ Nat.lt_succ_self _)
  · rw [getInode_putInode_ne (s := s.grow) L hin (h.inTable ha) hne, getInode_grow h hlt ha]
  · rw [getInode_putInode_self]
    rfl
  · rw [getInode_putInode_self]
    rfl
  · rw [getInode_putInode_self]
    by_cases hki : k = i
    · subst hki
      rw [withBlock_self]
      exact .inr ⟨hi, Nat.le_refl _⟩
    · exact .inl (withBlock_of_ne hki)
  · rw [entries, entries, getInode_putInode_self, entriesOf_eq, entriesOf_eq]
    split
    · rename_i hisdir
      rw [if_pos (show (getInode s d).isDirectory = true from hisdir)]
      refine flatMap_congr fun k _ => ?_
      by_cases hki : k = i
      · subst hki
        rw [withBlock_self, if_neg (hu.taken.ne_zero L), if_pos hi, disk_putInode (s := s.grow) L hin hu.taken.1, Jfs.grow,
          disk_diskWrite_self, blockEntries_zero]
      · rw [withBlock_of_ne hki]
        by_cases h0 : (getInode s d).blocks k = 0
        · rw [if_pos h0, if_pos h0]
        · rw [if_neg h0, if_neg h0, hdisk _ _ (h.taken d hd k h0)]
    · rename_i hisdir
      rw [if_neg (show ¬ (getInode s d).isDirectory = true from hisdir)]

end Grow

theorem ensureDirBlock_spec (h : Wf s) (hd : Known s d) (i : Fin 12) :
    match jfsEnsureDirBlock s (getInode s d) i with
    | (s', .error _) => s' = s
    | (s', .ok dir) => dir.blocks i ≠ 0 ∧ (∀ k, k ≠ i → dir.blocks k = (getInode s d).blocks k) ∧
        getInode (putInode s' dir d) d = dir ∧ DirStep s (putInode s' dir d) d ∧
        entries (putInode s' dir d) d = entries s d := by
  rw [jfsEnsureDirBlock_eq]
  by_cases hi : (getInode s d).blocks i = 0
  · rw [if_neg (not_not.2 hi)]
    by_cases hfull : s.sb.totalBlocks ≤ s.nextFreeBlock
    · rw [if_pos hfull]
    · rw [if_neg hfull]
      have hlt : s.nextFreeBlock.toNat < s.sb.totalBlocks.toNat := by
        rw [UInt32.le_iff_toNat_le] at hfull
        omega
      obtain ⟨hstep, hent⟩ := DirStep.grow h hlt hd hi
      refine ⟨?_, fun k hk => withBlock_of_ne hk, getInode_putInode_self, hstep, hent⟩
      rw [withBlock_self]
      exact (h.grow hlt).2.taken.ne_zero h.layout
  · rw [if_pos hi]
    obtain ⟨hstep, hent⟩ := DirStep.putInode h hd rfl rfl (x := getInode s d) rfl
    exact ⟨hi, fun _ _ => rfl, getInode_putInode_self, hstep, hent⟩

/-! ## Searching -/

theorem named_iff (name : CStr) (h : Wf s) (hd : Known s d) (hdir : (getInode s d).isDirectory = true)
    (he : e ∈ (getInode s d).slots) : Slot.named s name e = true ↔ e.inode s ≠ 0 ∧ e.name s = name := by
  rw [Slot.named, Bool.and_eq_true, decide_eq_true_eq]
  refine and_congr_right fun hlive => strcmpEq_iff_nameAt ?_
  exact (h.entries d hd hdir e he).ends hlive

def lookup (l : List (CStr × UInt32)) (name : CStr) : Option UInt32 := (l.find? fun p => p.1 = name).map Prod.snd

/-- **The search of every operation on a name** is a search in the list of the entries. -/
theorem find_lookup (name : CStr) (h : Wf s) (hd : Known s d) (hdir : (getInode s d).isDirectory = true) :
    ((getInode s d).slots.find? (Slot.named s name)).map (Slot.inode s) = lookup (entries s d) name := by
  have hfind : ∀ l : List Slot, (∀ e ∈ l, e ∈ (getInode s d).slots) → (l.find? (Slot.named s name)).map (Slot.inode s) =
      lookup ((l.filter fun e => e.inode s ≠ 0).map fun e => (e.name s, e.inode s)) name := by
    intro l
    induction l with
    | nil => exact fun _ => rfl
    | cons e l ih =>
      intro hl
      have he := named_iff name h hd hdir (hl e mem_cons_self)
      have ih := ih fun e' he' => hl e' (mem_cons_of_mem _ he')
      by_cases hlive : e.inode s = 0
      · rw [List.find?_cons_of_neg fun hn => (he.1 hn).1 hlive, ih, filter_cons_of_neg (by simp [hlive])]
      · rw [filter_cons_of_pos (by simp [hlive]), map_cons, lookup]
        by_cases hname : e.name s = name
        · rw [List.find?_cons_of_pos (he.2 ⟨hlive, hname⟩), List.find?_cons_of_pos (by simp [hname])]
          rfl
        · rw [List.find?_cons_of_neg fun hn => hname (he.1 hn).2, List.find?_cons_of_neg (by simp [hname]), ih, lookup]
  rw [hfind _ fun _ he => he, entries, if_pos hdir, entriesOf]

theorem findEntry_eq (name : CStr) (h : Wf s) (hd : Known s d) : (match jfsFindEntry s d name with
    | .ok e => some (e.inode s)
    | .error _ => none) = lookup (entries s d) name := by
  rw [jfsFindEntry]
  by_cases hdir : (getInode s d).isDirectory = true
  · have hf := find_lookup name h hd hdir
    simp only [if_pos hdir]
    rw [← hf]
    cases (getInode s d).slots.find? (Slot.named s name) <;> rfl
  · simp only [if_neg hdir]
    rw [entries, if_neg hdir]
    rfl

theorem jfsFinddir_eq (h : Wf s) (hd : Known s d) : jfsFinddir s d name = lookup (entries s d) name := findEntry_eq name h hd

theorem lookup_none {l : List (CStr × UInt32)} : lookup l name = none ↔ ∀ c, (name, c) ∉ l := by
  simp only [lookup, Option.map_eq_none_iff, List.find?_eq_none, decide_eq_true_eq]
  exact ⟨fun h c hc => h _ hc rfl, fun h p hp hn => h p.2 (hn ▸ hp)⟩

theorem mem_of_lookup {l : List (CStr × UInt32)} {c : UInt32} (h : lookup l name = some c) : (name, c) ∈ l := by
  obtain ⟨p, hp, rfl⟩ := Option.map_eq_some_iff.1 h
  have hname : p.1 = name := by simpa using List.find?_some hp
  exact hname ▸ mem_of_find?_eq_some hp

theorem lookup_countP_of_inserted {l l' : List (CStr × UInt32)} {n : CStr} {c : UInt32} (hi : Inserted (name, c) l l')
    (hn : n ≠ name) :
    lookup l' n = lookup l n ∧ l'.countP (fun p => p.1 = n) = l.countP fun p => p.1 = n := by
  have hfalse : decide ((name, c).1 = n) = false := decide_eq_false fun h => hn h.symm
  rw [lookup, lookup, hi.find?_eq hfalse, hi.countP, hfalse]
  exact ⟨rfl, rfl⟩

theorem lookup_inserted {l l' : List (CStr × UInt32)} {c : UInt32} (hi : Inserted (name, c) l l')
    (hnone : lookup l name = none) :
    lookup l' name = some c := by
  obtain ⟨l1, l2, rfl, rfl⟩ := hi
  rw [lookup, Option.map_eq_none_iff, List.find?_append, Option.or_eq_none_iff] at hnone
  rw [lookup, List.find?_append, hnone.1, List.find?_cons_of_pos (by simp)]
  rfl

/-! ## Adding and removing -/

theorem DirStep.journalWrite (h : Wf s) (hd : Known s d) (hb : (getInode s d).blocks i = b) (hne : b ≠ 0)
    (hother : ∀ k, k ≠ j → SameEntry B (s.disk b) k) (hchild : (B.get32 (64 * j)).toNat < s.nextInode.toNat)
    (hends : B.get32 (64 * j) ≠ 0 → ∃ k < 60, B (64 * j + 4 + k) = 0) : DirStep s (jfsJournalWrite s b B) d := by
  have L := h.layout
  have hbt : Taken s b := hb ▸ h.taken d hd i (hb ▸ hne)
  have hget : ∀ a, Known s a → getInode (jfsJournalWrite s b B) a = getInode s a :=
    fun a ha => getInode_jfsJournalWrite L (h.inTable ha) hbt.1
  refine ⟨h.journalWrite hbt fun d' hd' hisdir e he heb => ?_, rfl, rfl, Nat.le_refl _, fun a ha _ => hget a ha,
    by rw [hget d hd], by rw [hget d hd], fun k => .inl (by rw [hget d hd]), fun c hc hnc =>
      disk_jfsJournalWrite_ne L hc.1 fun hcb => hnc i (hb.trans hcb.symm)⟩
  have hok := h.entries d' hd' hisdir e he
  by_cases hej : e.index = j
  · refine ⟨?_, fun hlive => ?_⟩
    · rw [Slot.inode, heb, disk_jfsJournalWrite_self, hej]
      exact hchild
    · rw [Slot.inode, heb, disk_jfsJournalWrite_self, hej] at hlive
      rw [heb, disk_jfsJournalWrite_self, hej]
      exact hends hlive
  · have hsame := hother e.index hej
    refine ⟨?_, fun hlive => ?_⟩
    · have := hok.child
      rw [Slot.inode, heb] at this
      rw [Slot.inode, heb, disk_jfsJournalWrite_self, hsame.get32]
      exact this
    · rw [Slot.inode, heb, disk_jfsJournalWrite_self, hsame.get32] at hlive
      obtain ⟨k, hk, h0⟩ := hok.ends (by rw [Slot.inode, heb]; exact hlive)
      refine ⟨k, hk, ?_⟩
      rw [heb, disk_jfsJournalWrite_self, hsame _ (by omega) (by omega), ← heb]
      exact h0

theorem entries_journalWrite (h : Wf s) (hd : Known s d) (hdir : (getInode s d).isDirectory = true)
    (hb : (getInode s d).blocks i = b) (hne : b ≠ 0) {a : CStr × UInt32} :
    (Inserted a (blockEntries (s.disk b)) (blockEntries B) → Inserted a (entries s d) (entries (jfsJournalWrite s b B) d)) ∧
    (Inserted a (blockEntries B) (blockEntries (s.disk b)) → Inserted a (entries (jfsJournalWrite s b B) d) (entries s d)) ∧
    (blockEntries B = blockEntries (s.disk b) → entries (jfsJournalWrite s b B) d = entries s d) := by
  have L := h.layout
  have hbt : Taken s b := hb ▸ h.taken d hd i (hb ▸ hne)
  have hget : getInode (jfsJournalWrite s b B) d = getInode s d := getInode_jfsJournalWrite L (h.inTable hd) hbt.1
  have hrest : ∀ k, k ≠ i → (if (getInode s d).blocks k = 0 then []
      else blockEntries ((jfsJournalWrite s b B).disk ((getInode s d).blocks k))) =
      if (getInode s d).blocks k = 0 then [] else blockEntries (s.disk ((getInode s d).blocks k)) := by
    intro k hk
    by_cases h0 : (getInode s d).blocks k = 0
    · rw [if_pos h0, if_pos h0]
    · rw [if_neg h0, if_neg h0, disk_jfsJournalWrite_ne L (h.taken d hd k h0).1 fun hkb => hk ?_]
      exact (h.apart d d hd hd k i h0 (hkb.trans hb.symm)).2
  rw [entries, entries, hget, if_pos hdir, if_pos hdir, entriesOf_eq, entriesOf_eq]
  have hself : (if (getInode s d).blocks i = 0 then []
      else blockEntries ((jfsJournalWrite s b B).disk ((getInode s d).blocks i))) = blockEntries B := by
    rw [hb, if_neg hne, disk_jfsJournalWrite_self]
  have hself' : (if (getInode s d).blocks i = 0 then [] else blockEntries (s.disk ((getInode s d).blocks i))) =
      blockEntries (s.disk b) := by
    rw [hb, if_neg hne]
  refine ⟨fun hp => ?_, fun hp => ?_, fun hp => ?_⟩
  · refine .flatMap (nodup_finRange 12) (mem_finRange i) ?_ fun k _ hk => hrest k hk
    rw [hself, hself']
    exact hp
  · refine .flatMap (nodup_finRange 12) (mem_finRange i) ?_ fun k _ hk => (hrest k hk).symm
    rw [hself, hself']
    exact hp
  · refine flatMap_congr fun k _ => ?_
    by_cases hk : k = i
    · rw [hk, hself, hself', hp]
    · exact hrest k hk

def Inode.Dense (x : Inode) : Prop := ∀ i j, j ≤ i → x.blocks i ≠ 0 → x.blocks j ≠ 0

structure Ahead (is : List (Fin 12)) (x : Inode) : Prop where
  sorted : is.Pairwise (· < ·)
  rest : ∀ j, j ∈ is ∨ x.blocks j ≠ 0

theorem Ahead.before {is : List (Fin 12)} (h : Ahead (i :: is) x) {j : Fin 12} (hj : j < i) : x.blocks j ≠ 0 := by
  refine (h.rest j).resolve_left fun hmem => ?_
  rcases mem_cons.1 hmem with rfl | hmem
  · exact lt_irrefl _ hj
  · exact lt_asymm hj ((pairwise_cons.1 h.sorted).1 j hmem)

theorem Ahead.next {is : List (Fin 12)} {x' : Inode} (h : Ahead (i :: is) x) (hi : x'.blocks i ≠ 0)
    (hne : ∀ k, k ≠ i → x'.blocks k = x.blocks k) : Ahead is x' ∧ (x.Dense → x'.Dense) := by
  have hrest : ∀ j, j ∈ is ∨ x'.blocks j ≠ 0 := by
    intro j
    by_cases hji : j = i
    · exact .inr (hji ▸ hi)
    · rw [hne j hji]
      exact (h.rest j).imp_left fun hmem => (mem_cons.1 hmem).resolve_left hji
  refine ⟨⟨(pairwise_cons.1 h.sorted).2, hrest⟩, fun hd k j hjk hk => ?_⟩
  by_cases hji : j = i
  · exact hji ▸ hi
  · rw [hne j hji]
    by_cases hki : k = i
    · exact h.before (lt_of_le_of_ne (hki ▸ hjk) hji)
    · exact hd k j hjk (hne k hki ▸ hk)

theorem ahead_finRange : Ahead (List.finRange 12) x := ⟨pairwise_lt_finRange 12, fun j => .inl (mem_finRange j)⟩

structure Added (s : Jfs) (d : UInt32) (name : CStr) (child : UInt32) (r : Jfs × Except Errno Unit) : Prop where
  step : DirStep s r.1 d
  refused : (getInode s d).isDirectory = false → r.1 = s ∧ ∃ e, r.2 = .error e
  ok : r.2 = .ok () → child ≠ 0 → Inserted (name.cut, child) (entries s d) (entries r.1 d)
  zero : child = 0 → entries r.1 d = entries s d
  fresh : r.2 = .ok () → lookup (entries s d) name = none
  dense : (getInode s d).Dense → (getInode r.1 d).Dense
  error : ∀ e, r.2 = .error e → entries r.1 d = entries s d

theorem Added.none (h : Wf s) (err : Errno) : Added s d name child (s, .error err) :=
  ⟨.refl h, fun _ => ⟨rfl, err, rfl⟩, nofun, fun _ => rfl, nofun, id, fun _ _ => rfl⟩

theorem Added.after {r : Jfs × Except Errno Unit} (hdir : (getInode s d).isDirectory = true) (h : DirStep s s' d)
    (he : entries s' d = entries s d) (hdense : (getInode s d).Dense → (getInode s' d).Dense)
    (ha : Added s' d name child r) : Added s d name child r where
  step := h.trans ha.step
  refused := fun hf => by rw [hdir] at hf; cases hf
  ok := fun hr hc => he ▸ ha.ok hr hc
  zero := fun hc => (ha.zero hc).trans he
  fresh := fun hr => he ▸ ha.fresh hr
  dense := fun hx => ha.dense (hdense hx)
  error := fun e hr => (ha.error e hr).trans he

theorem addLoop_spec (hc : (child).toNat < s.nextInode.toNat) (hdir : (getInode s d).isDirectory = true)
    (hfresh : lookup (entries s d) name = none) (h : Wf s) (hd : Known s d) :
    ∀ is, Ahead is (getInode s d) → Added s d name child (addLoop d name child is s (getInode s d)) := by
  intro is
  induction is generalizing s with
  | nil => exact fun _ => .none h _
  | cons i is ih =>
    intro hahead
    rw [addLoop]
    have hspec := ensureDirBlock_spec h hd i
    rcases hr : jfsEnsureDirBlock s (getInode s d) i with ⟨s1, err | dir⟩
    · rw [hr] at hspec
      obtain rfl : s1 = s := hspec
      exact .none h _
    · rw [hr] at hspec
      obtain ⟨hi, hne, hget, hstep, hent⟩ := hspec
      obtain ⟨hahead', hdense⟩ := hahead.next hi hne
      simp only
      generalize putInode s1 dir d = s2 at hget hstep hent ⊢
      have hd2 : Known s2 d := hstep.known.2 hd
      have hc2 : child.toNat < s2.nextInode.toNat := by rw [hstep.next]; exact hc
      have hdir2 : (getInode s2 d).isDirectory = true := isDirectory_congr hstep.flags ▸ hdir
      subst hget
      refine .after hdir hstep hent hdense ?_
      cases hfind : (List.range 8).find? fun j => (s2.disk ((getInode s2 d).blocks i)).get32 (64 * j) = 0 with
      | none => exact ih hc2 hdir2 (hent ▸ hfresh) hstep.wf hd2 hahead'
      | some j =>
        have hj : j < 8 := mem_range.1 (mem_of_find?_eq_some hfind)
        have hfree : (s2.disk ((getInode s2 d).blocks i)).get32 (64 * j) = 0 := by
          simpa using List.find?_some hfind
        have hw : DirStep s2 (jfsJournalWrite s2 ((getInode s2 d).blocks i)
            (fillEntry (s2.disk ((getInode s2 d).blocks i)) j child name)) d :=
          .journalWrite hstep.wf hd2 rfl hi (fun k hk => fillEntry_other hk) (by rw [fillEntry_get32]; exact hc2)
            fun _ => fillEntry_ends
        have hperm : child ≠ 0 → Inserted (name.cut, child) (entries s2 d)
            (entries (jfsJournalWrite s2 ((getInode s2 d).blocks i)
              (fillEntry (s2.disk ((getInode s2 d).blocks i)) j child name)) d) := fun hc0 =>
          (entries_journalWrite hstep.wf hd2 hdir2 rfl hi).1 (blockEntries_fill hj hfree hc0)
        have hzero : child = 0 → entries (jfsJournalWrite s2 ((getInode s2 d).blocks i)
            (fillEntry (s2.disk ((getInode s2 d).blocks i)) j child name)) d = entries s2 d := by
          rintro rfl
          exact (entries_journalWrite hstep.wf hd2 hdir2 rfl hi (a := (name, 0))).2.2 (blockEntries_fill_zero hfree)
        have hgetw : getInode (jfsJournalWrite s2 ((getInode s2 d).blocks i)
            (fillEntry (s2.disk ((getInode s2 d).blocks i)) j child name)) d = getInode s2 d :=
          getInode_jfsJournalWrite hstep.wf.layout (hstep.wf.inTable hd2) (hstep.wf.taken d hd2 i hi).1
        simp only
        generalize jfsJournalWrite s2 _ _ = s3 at hw hperm hzero hgetw ⊢
        obtain ⟨hput, hentput⟩ := DirStep.putInode hw.wf (hw.known.2 hd2)
          (x := { getInode s2 d with size := (getInode s2 d).size + 64 }) (by rw [hgetw]) (by rw [hgetw]) (by rw [hgetw])
        refine ⟨hw.trans hput, fun hf => ?_, fun _ hc0 => ?_, fun hc0 => hentput.trans (hzero hc0), fun _ => hent ▸ hfresh,
          fun hx => ?_, nofun⟩
        · rw [hdir2] at hf
          cases hf
        · rw [hentput]
          exact hperm hc0
        · rw [getInode_putInode_self]
          exact hx

theorem addEntry_spec (name : CStr) (h : Wf s) (hd : Known s d) (hc : child.toNat < s.nextInode.toNat) :
    Added s d name child (jfsAddEntry s d name child) := by
  have hf := findEntry_eq name h hd
  rw [jfsAddEntry]
  split
  · rename_i hdir
    split
    · exact .none h _
    · rename_i err he
      rw [he] at hf
      exact addLoop_spec hc hdir hf.symm h hd _ ahead_finRange
  · exact .none h _

theorem find_named (name : CStr) (h : Wf s) (hd : Known s d) (hdir : (getInode s d).isDirectory = true) :
    match (getInode s d).slots.find? (Slot.named s name) with
    | some e => e ∈ (getInode s d).slots ∧ e.inode s ≠ 0 ∧ e.name s = name ∧ (name, e.inode s) ∈ entries s d
    | none => ∀ c, (name, c) ∉ entries s d := by
  have hnamed := fun e (he : e ∈ (getInode s d).slots) => named_iff name h hd hdir he
  have hmem : ∀ p, p ∈ entries s d ↔ ∃ e ∈ (getInode s d).slots, e.inode s ≠ 0 ∧ (e.name s, e.inode s) = p := by
    intro p
    simp [entries, hdir, entriesOf, and_assoc]
  cases hf : (getInode s d).slots.find? (Slot.named s name) with
  | some e =>
    have he := mem_of_find?_eq_some hf
    obtain ⟨hlive, hname⟩ := (hnamed e he).1 (List.find?_some hf)
    exact ⟨he, hlive, hname, (hmem _).2 ⟨e, he, hlive, by rw [hname]⟩⟩
  | none =>
    intro c hin
    obtain ⟨e, he, hlive, hp⟩ := (hmem _).1 hin
    have := List.find?_eq_none.1 hf e he
    exact this ((hnamed e he).2 ⟨hlive, congrArg Prod.fst hp⟩)

theorem addLoop_ok (h : Wf s) (hd : Known s d) (hdense : (getInode s d).Dense) (he : e ∈ (getInode s d).slots)
    (hfree : e.inode s = 0) {i0 : Fin 12} (hi0 : (getInode s d).blocks i0 = e.block) :
    ∀ is, i0 ∈ is → is.Pairwise (· < ·) → (addLoop d name child is s (getInode s d)).2 = .ok () := by
  obtain ⟨-, hne0, hidx⟩ := mem_slots.1 he
  intro is
  induction is generalizing s with
  | nil => exact fun hmem => absurd hmem not_mem_nil
  | cons i is ih =>
    intro hmem hsorted
    have hle : i ≤ i0 := by
      rcases mem_cons.1 hmem with rfl | hmem
      · exact le_refl _
      · exact le_of_lt ((pairwise_cons.1 hsorted).1 i0 hmem)
    have hi : (getInode s d).blocks i ≠ 0 := hdense i0 i hle (hi0 ▸ hne0)
    have hdisk : ∀ b, Taken s b → (putInode s (getInode s d) d).disk b = s.disk b :=
      fun b hb => disk_putInode h.layout (h.inTable hd) hb.1
    obtain ⟨hstep, -⟩ := DirStep.putInode h hd rfl rfl (x := getInode s d) rfl
    have hget : getInode (putInode s (getInode s d) d) d = getInode s d := getInode_putInode_self
    have hfree' : e.inode (putInode s (getInode s d) d) = 0 := by
      rw [Slot.inode, hdisk _ (h.slot_taken hd he)]
      exact hfree
    rw [addLoop, jfsEnsureDirBlock_eq, if_pos hi]
    simp only
    cases hfind : (List.range 8).find? fun j =>
        ((putInode s (getInode s d) d).disk ((getInode s d).blocks i)).get32 (64 * j) = 0 with
    | some j => rfl
    | none =>
      -- this block is full, so it is not the one with the free entry
      have hne : i0 ≠ i := by
        rintro rfl
        have := List.find?_eq_none.1 hfind e.index (mem_range.2 hidx)
        rw [hi0] at this
        exact this (decide_eq_true hfree')
      have hmem' : i0 ∈ is := (mem_cons.1 hmem).resolve_left hne
      have := ih hstep.wf (hstep.known.2 hd) (by rw [hget]; exact hdense) (by rw [hget]; exact he) hfree'
        (by rw [hget]; exact hi0) hmem' (pairwise_cons.1 hsorted).2
      rw [hget] at this
      exact this

theorem addEntry_ok (child : UInt32) (h : Wf s) (hd : Known s d) (hdir : (getInode s d).isDirectory = true)
    (hdense : (getInode s d).Dense) (hnone : lookup (entries s d) name = none) (he : e ∈ (getInode s d).slots)
    (hfree : e.inode s = 0) : (jfsAddEntry s d name child).2 = .ok () := by
  obtain ⟨⟨i, hi⟩, -, -⟩ := mem_slots.1 he
  have hf := findEntry_eq name h hd
  rw [hnone] at hf
  rw [jfsAddEntry]
  simp only [if_pos hdir]
  split
  · rename_i found heq
    rw [heq] at hf
    cases hf
  · exact addLoop_ok h hd hdense he hfree hi _ (mem_finRange i) (pairwise_lt_finRange 12)

/-- What removing an entry does: one entry less in `d`, or none of that name was there. -/
structure Removed (s : Jfs) (d : UInt32) (name : CStr) (r : Jfs × Except Errno UInt32) : Prop where
  step : DirStep s r.1 d
  same : getInode r.1 d = getInode s d
  found : ∀ c, r.2 = .ok c → lookup (entries s d) name = some c
  slot : ∀ c, r.2 = .ok c → ∃ e ∈ (getInode s d).slots, e.inode r.1 = 0
  ok : ∀ c, r.2 = .ok c → c ≠ 0 ∧ c.toNat < s.nextInode.toNat ∧ Inserted (name, c) (entries r.1 d) (entries s d)
  error : ∀ e, r.2 = .error e → r.1 = s ∧ ∀ c, (name, c) ∉ entries s d

theorem removeEntry_spec (name : CStr) (h : Wf s) (hd : Known s d) : Removed s d name (jfsRemoveEntry s d name) := by
  rw [jfsRemoveEntry]
  split
  · rename_i hdir
    have hfind := find_named name h hd hdir
    have hlookup := find_lookup name h hd hdir
    split
    · rename_i e hf
      rw [hf] at hfind hlookup
      obtain ⟨he, hlive, hname, -⟩ := hfind
      obtain ⟨⟨i, hi⟩, hne, hidx⟩ := mem_slots.1 he
      have hok := h.entries d hd hdir e he
      have hstep : DirStep s (jfsJournalWrite s e.block (clearEntry (s.disk e.block) e.index)) d := by
        refine .journalWrite h hd hi hne (fun k hk => clearEntry_other hk) ?_ fun hl => absurd clearEntry_get32 hl
        rw [clearEntry_get32]
        exact h.root
      refine ⟨hstep, getInode_jfsJournalWrite h.layout (h.inTable hd) (h.slot_taken hd he).1, fun c hc => ?_,
        fun c hc => ⟨e, he, ?_⟩, fun c hc => ?_, fun _ he => by cases he⟩
      · obtain rfl : e.inode s = c := Except.ok.inj hc
        exact hlookup.symm
      · rw [Slot.inode, disk_jfsJournalWrite_self, clearEntry_get32]
      · obtain rfl : e.inode s = c := Except.ok.inj hc
        refine ⟨hlive, hok.child, ?_⟩
        rw [← hname]
        exact (entries_journalWrite h hd hdir hi hne).2.1 (blockEntries_clear hidx hlive)
    · rename_i hf
      rw [hf] at hfind
      exact ⟨.refl h, rfl, (by simp), (by simp), (by simp), fun _ _ => ⟨rfl, hfind⟩⟩
  · rename_i hdir
    refine ⟨.refl h, rfl, (by simp), (by simp), (by simp), fun _ _ => ⟨rfl, fun c hin => ?_⟩⟩
    rw [entries, if_neg hdir] at hin
    cases hin

end EterOS.Fs
