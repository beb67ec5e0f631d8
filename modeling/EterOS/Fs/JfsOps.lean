import EterOS.Fs.JfsDir
/-!
# JfsOps — what each operation on names can do

`jfs_create`, `jfs_mkdir`, `jfs_link`, `jfs_unlink` and `jfs_rename` are made of five steps: an inode is handed out, its
link count goes up or down, an entry is added, an entry is removed, an inode loses a link and is cleared with its last.
One lemma for each operation says which steps it takes; what the steps do to blocks, links and names is read from there.
-/
namespace EterOS.Fs

open Function (update update_self update_of_ne)

variable {s s' : Jfs} {x : Inode} {idx c parent target b : UInt32} {name : CStr} {r : Jfs × Except Errno Unit}

theorem Wf.entry_known {d : UInt32} (h : Wf s) (hd : Known s d) (hmem : (name, c) ∈ Fs.entries s d) : Known s c := by
  rw [Fs.entries] at hmem
  split at hmem
  · rename_i hdir
    obtain ⟨e, he, hp⟩ := List.mem_map.1 hmem
    obtain ⟨he, -⟩ := List.mem_filter.1 he
    obtain rfl : e.inode s = c := congrArg Prod.snd hp
    exact (h.entries d hd hdir e he).child
  · cases hmem

theorem entry_ne_zero {d : UInt32} (hmem : (name, c) ∈ entries s d) : c ≠ 0 := by
  rw [entries] at hmem
  split at hmem
  · obtain ⟨e, he, hp⟩ := List.mem_map.1 hmem
    obtain ⟨-, hlive⟩ := List.mem_filter.1 he
    obtain rfl : e.inode s = c := congrArg Prod.snd hp
    simpa using hlive
  · cases hmem

/-! ## An inode goes back -/

section Put

variable (h : Wf s) (hk : Known s idx)
include h hk

theorem InodeStep.put (hblocks : ∀ i, x.blocks i ≠ 0 → x.blocks i = (getInode s idx).blocks i)
    (hdir : x.isDirectory = true → (getInode s idx).isDirectory = true) : InodeStep s (putInode s x idx) idx := by
  have L := h.layout
  have hin := h.inTable hk
  refine ⟨h.putInode hk (fun i hi => .inl (hblocks i hi)) fun hd e he => ?_, rfl, rfl, Nat.le_refl _,
    fun a ha hne => getInode_putInode_ne L hin (h.inTable ha) hne, fun b hb _ => disk_putInode L hin hb.1⟩
  obtain ⟨⟨i, hi⟩, hne, hidx⟩ := mem_slots.1 he
  have hblock := hblocks i (hi ▸ hne)
  exact h.entries idx hk (hdir hd) e (mem_slots.2 ⟨⟨i, hblock ▸ hi⟩, hne, hidx⟩)

theorem disk_putKnown (hb : Taken s b) : (putInode s x idx).disk b = s.disk b := disk_putInode h.layout (h.inTable hk) hb.1

end Put

/-- Inode `c` got `n` as its link count; nothing else has changed. -/
structure Relinked (s s' : Jfs) (c n : UInt32) : Prop where
  step : InodeStep s s' c
  inode : getInode s' c = { getInode s c with nlink := n }
  disk : ∀ b, Taken s b → s'.disk b = s.disk b
  entries : entries s' c = entries s c

theorem Relinked.put (h : Wf s) (hk : Known s c) (n : UInt32) :
    Relinked s (putInode s { getInode s c with nlink := n } c) c n := by
  refine ⟨.put h hk (fun _ _ => rfl) id, getInode_putInode_self, fun b hb => disk_putKnown h hk hb, ?_⟩
  rw [Fs.entries, Fs.entries, getInode_putInode_self]
  refine ite_congr rfl (fun _ => ?_) fun _ => rfl
  exact entriesOf_congr rfl fun i h0 => disk_putKnown h hk (h.taken c hk i h0)

def Inode.cleared (x : Inode) : Inode := ⟨x.inode, 0, 0, 0, fun _ => 0⟩

/-- Inode `c` has lost a link: the last one, and it is cleared, or one of several. -/
structure Dropped (s s' : Jfs) (c : UInt32) : Prop where
  last : (getInode s c).nlink.toNat ≤ 1 →
    InodeStep s s' c ∧ getInode s' c = (getInode s c).cleared ∧ (∀ b, Taken s b → s'.disk b = s.disk b) ∧ entries s' c = []
  more : 1 < (getInode s c).nlink.toNat → Relinked s s' c ((getInode s c).nlink - 1)

theorem cleared_isDirectory : (x.cleared).isDirectory = false := show decide (0 &&& fsDirectory = fsDirectory) = false by
  decide

theorem dropLink_spec (h : Wf s) (hk : Known s c) : Dropped s (dropLink s c) c := by
  constructor
  · intro hle
    have hput : dropLink s c = putInode s (getInode s c).cleared c := by
      have h0 : (if 0 < (getInode s c).nlink then { getInode s c with nlink := (getInode s c).nlink - 1 }
          else getInode s c).nlink = 0 := by
        split
        · rename_i hpos
          rw [UInt32.lt_iff_toNat_lt, UInt32.toNat_zero] at hpos
          have h1 : (getInode s c).nlink = 1 := UInt32.toNat_inj.1 (by rw [UInt32.toNat_one]; omega)
          simp [h1]
        · rename_i hpos
          rw [UInt32.lt_iff_toNat_lt, UInt32.toNat_zero] at hpos
          exact UInt32.toNat_inj.1 (by rw [UInt32.toNat_zero]; omega)
      have hino : (if 0 < (getInode s c).nlink then { getInode s c with nlink := (getInode s c).nlink - 1 }
          else getInode s c).inode = (getInode s c).inode := by
        split <;> rfl
      rw [dropLink]
      simp only [if_pos h0]
      rw [Inode.cleared, h0, hino]
    rw [hput]
    refine ⟨.put h hk (fun i hi => absurd rfl hi) fun hd => ?_, getInode_putInode_self,
      fun b hb => disk_putKnown h hk hb, ?_⟩
    · rw [cleared_isDirectory] at hd
      cases hd
    · rw [entries, getInode_putInode_self, cleared_isDirectory]
      rfl
  · intro hlt
    have hpos : 0 < (getInode s c).nlink := by
      rw [UInt32.lt_iff_toNat_lt, UInt32.toNat_zero]
      omega
    have hne : ¬ (getInode s c).nlink - 1 = 0 := by
      intro h0
      have h1 := congrArg UInt32.toNat h0
      rw [UInt32.toNat_sub_of_le _ _ (UInt32.le_iff_toNat_le.2 (by rw [UInt32.toNat_one]; omega)), UInt32.toNat_one,
        UInt32.toNat_zero] at h1
      omega
    have hput : dropLink s c = putInode s { getInode s c with nlink := (getInode s c).nlink - 1 } c := by
      rw [dropLink]
      simp [if_pos hpos, if_neg hne]
    rw [hput]
    exact .put h hk _

theorem Dropped.step (h : Dropped s s' c) : InodeStep s s' c := by
  by_cases hle : (getInode s c).nlink.toNat ≤ 1
  · exact (h.last hle).1
  · exact (h.more (by omega)).step

theorem Dropped.disk (h : Dropped s s' c) (hb : Taken s b) : s'.disk b = s.disk b := by
  by_cases hle : (getInode s c).nlink.toNat ≤ 1
  · exact (h.last hle).2.2.1 b hb
  · exact (h.more (by omega)).disk b hb

/-! ## An inode is handed out -/

structure Alloc (s s' : Jfs) : Prop where
  wf : Wf s'
  sb : s'.sb = s.sb
  next : s'.nextInode.toNat = s.nextInode.toNat + 1
  free : s.nextFreeBlock.toNat ≤ s'.nextFreeBlock.toNat
  inode : ∀ a, Known s a → getInode s' a = getInode s a
  nlink : (getInode s' s.nextInode).nlink = 1
  data : ∀ b, Taken s b → s'.disk b = s.disk b
  dense : (getInode s' s.nextInode).Dense
  empty : entries s' s.nextInode = []

theorem Alloc.known (h : Alloc s s') : Known s' idx ↔ Known s idx ∨ idx = s.nextInode := by
  rw [Known, Known, h.next, ← UInt32.toNat_inj]
  omega

theorem Alloc.entries_eq (h : Wf s) (ha : Alloc s s') (hk : Known s idx) : entries s' idx = entries s idx := by
  rw [entries, entries, ha.inode idx hk]
  refine ite_congr rfl (fun _ => ?_) fun _ => rfl
  exact entriesOf_congr rfl fun i h0 => ha.data _ (h.taken idx hk i h0)

section Alloc

variable (h : Wf s) (hlt : s.nextInode.toNat < 8 * s.sb.inodeBlocks.toNat) (flags : UInt32)
include h hlt

theorem allocInode_spec : Alloc s (jfsAllocInode s flags).1 where
  wf := h.allocInode hlt flags
  sb := rfl
  next := allocInode_nextInode h hlt flags
  free := Nat.le_refl _
  inode := fun _ ha => getInode_allocInode_ne h hlt flags ha
  nlink := by rw [getInode_allocInode_self]; rfl
  data := fun _ hb => disk_allocInode h hlt flags hb.1
  dense := by
    rw [getInode_allocInode_self]
    exact fun i _ _ hi => absurd rfl hi
  empty := by
    rw [entries, getInode_allocInode_self, entriesOf, newInode_slots]
    exact ite_self _

omit hlt h in
theorem Alloc.grow {s'' : Jfs} (h : Wf s) (ha : Alloc s s') (hd : DirStep s' s'' s.nextInode)
    (he : entries s'' s.nextInode = entries s' s.nextInode) (hbare : ∀ i, (getInode s' s.nextInode).blocks i = 0)
    (hone : ∀ k, k ≠ 0 → (getInode s'' s.nextInode).blocks k = 0) : Alloc s s'' where
  wf := hd.wf
  sb := hd.sb.trans ha.sb
  next := by rw [hd.next, ha.next]
  free := Nat.le_trans ha.free hd.free
  inode := fun a hk => by
    have hne : a ≠ s.nextInode := by
      rintro rfl
      exact Nat.lt_irrefl _ hk
    rw [hd.inode a (ha.known.2 (.inl hk)) hne, ha.inode a hk]
  nlink := by rw [hd.nlink, ha.nlink]
  data := fun b hb => by
    refine (hd.data b ⟨by rw [ha.sb]; exact hb.1, lt_of_lt_of_le hb.2 ha.free⟩ fun i heq => ?_).trans (ha.data b hb)
    exact hb.ne_zero h.layout (heq.symm.trans (hbare i))
  dense := fun i j hj hi => by
    obtain rfl : i = 0 := by_contra fun hne => hi (hone i hne)
    obtain rfl : j = 0 := Fin.le_zero_iff.1 hj
    exact hi
  empty := by rw [he, ha.empty]

end Alloc

/-! ## The operations -/

def Refused (s : Jfs) (r : Jfs × Except Errno Unit) : Prop := r.1 = s ∧ ∃ e, r.2 = .error e

/-- The table has room for an inode, if the operation gets as far as taking one. -/
def TableRoom (s : Jfs) (parent : UInt32) (name : CStr) : Prop :=
  name.bytes ≠ [] → (getInode s parent).isDirectory = true → s.nextInode.toNat < 8 * s.sb.inodeBlocks.toNat

/-- What `jfs_create` and `jfs_mkdir` do: an inode is handed out, and an entry for it is added or not. -/
def Made (s : Jfs) (parent : UInt32) (name : CStr) (r : Jfs × Except Errno Unit) : Prop :=
  Refused s r ∨ (getInode s parent).isDirectory = true ∧ ∃ s', Alloc s s' ∧ Added s' parent name s.nextInode r

section Ops

variable (h : Wf s) (hp : Known s parent)
include h hp

omit h in
theorem Alloc.added (ha : Alloc s s') : Added s' parent name s.nextInode (jfsAddEntry s' parent name s.nextInode) :=
  addEntry_spec name ha.wf (ha.known.2 (.inl hp)) (by rw [ha.next]; exact Nat.lt_succ_self _)

theorem create_spec (hroom : TableRoom s parent name) : Made s parent name (jfsCreate s parent name) := by
  rw [jfsCreate]
  by_cases hname : name.bytes = []
  · rw [if_pos hname]
    exact .inl ⟨rfl, _, rfl⟩
  · rw [if_neg hname]
    by_cases hdir : (getInode s parent).isDirectory = true
    · rw [hdir]
      have ha := allocInode_spec h (hroom hname hdir) fsFile
      exact .inr ⟨hdir, _, ha, ha.added hp⟩
    · rw [Bool.not_eq_true] at hdir
      rw [hdir]
      exact .inl ⟨rfl, _, rfl⟩

theorem mkdir_spec (hroom : TableRoom s parent name) : Made s parent name (jfsMkdir s parent name) := by
  rw [jfsMkdir]
  by_cases hname : name.bytes = []
  · rw [if_pos hname]
    exact .inl ⟨rfl, _, rfl⟩
  · rw [if_neg hname]
    by_cases hdir : (getInode s parent).isDirectory = true
    · rw [hdir]
      have ha := allocInode_spec h (hroom hname hdir) fsDirectory
      have hk : Known (jfsAllocInode s fsDirectory).1 s.nextInode := ha.known.2 (.inr rfl)
      have hspec := ensureDirBlock_spec ha.wf hk 0
      refine .inr ⟨hdir, ?_⟩
      rw [if_neg (by decide)]
      dsimp only
      rw [show (jfsAllocInode s fsDirectory).2 = s.nextInode from rfl]
      split
      · rename_i s' err heq
        rw [heq] at hspec
        obtain rfl : s' = _ := hspec
        exact ⟨_, ha, .none ha.wf _⟩
      · rename_i s' dir heq
        rw [heq] at hspec
        obtain ⟨-, hne, hget, hstep, hent⟩ := hspec
        have hbare : ∀ i, (getInode (jfsAllocInode s fsDirectory).1 s.nextInode).blocks i = 0 := fun i => by
          rw [getInode_allocInode_self]
          rfl
        have ha' := ha.grow h hstep hent hbare fun k hk => by rw [hget, hne k hk, hbare]
        exact ⟨_, ha', ha'.added hp⟩
    · rw [Bool.not_eq_true] at hdir
      rw [hdir]
      exact .inl ⟨rfl, _, rfl⟩

/-- What `jfs_link` does: the count goes up, an entry is added, or it is not and the count goes down again. -/
theorem link_spec (name : CStr) (ht : Known s target) : Refused s (jfsLink s parent target name) ∨
    (getInode s parent).isDirectory = true ∧ ∃ s' r', Relinked s s' target ((getInode s target).nlink + 1) ∧
    Added s' parent name target r' ∧
      ((r'.2 = .ok () ∧ jfsLink s parent target name = r') ∨ ∃ e, r'.2 = .error e ∧
        (jfsLink s parent target name).2 = .error e ∧
          Relinked r'.1 (jfsLink s parent target name).1 target ((getInode r'.1 target).nlink - 1)) := by
  rw [jfsLink]
  by_cases hname : name.bytes = []
  · rw [if_pos hname]
    exact .inl ⟨rfl, _, rfl⟩
  · rw [if_neg hname]
    by_cases hdir : (getInode s parent).isDirectory = true
    · have hl := Relinked.put h ht ((getInode s target).nlink + 1)
      have hadd := addEntry_spec name hl.step.wf (hl.step.known.2 hp)
        (show target.toNat < _ by rw [hl.step.next]; exact ht)
      rw [hdir]
      simp only [Bool.not_true, Bool.false_eq_true, if_false]
      generalize putInode s _ target = s1 at hl hadd ⊢
      generalize hr : jfsAddEntry s1 parent name target = r1 at hadd ⊢
      refine .inr ⟨trivial, s1, r1, hl, hadd, ?_⟩
      obtain ⟨s2, e | u⟩ := r1
      · refine .inr ⟨e, rfl, rfl, ?_⟩
        exact .put hadd.step.wf (hadd.step.known.2 (hl.step.known.2 ht)) _
      · exact .inl ⟨rfl, rfl⟩
    · rw [Bool.not_eq_true] at hdir
      rw [hdir]
      exact .inl ⟨rfl, _, rfl⟩

/-- An entry of `d` was removed, and the inode it named has lost a link. -/
structure Unlinked (s s' : Jfs) (d : UInt32) (name : CStr) (c : UInt32) (s'' : Jfs) : Prop where
  removed : Removed s d name (s', .ok c)
  dropped : Dropped s' s'' c

omit h hp in
theorem Unlinked.ofRemoved {d : UInt32} (hr : Removed s d name (s', .ok c)) : Unlinked s s' d name c (dropLink s' c) :=
  ⟨hr, dropLink_spec hr.step.wf (hr.step.known.2 (hr.ok c rfl).2.1)⟩

theorem unlink_spec (name : CStr) : Refused s (jfsUnlink s parent name) ∨
    ∃ s' c, (jfsUnlink s parent name).2 = .ok () ∧ Unlinked s s' parent name c (jfsUnlink s parent name).1 := by
  rw [jfsUnlink]
  by_cases hname : name.bytes = []
  · rw [if_pos hname]
    exact .inl ⟨rfl, _, rfl⟩
  · rw [if_neg hname]
    by_cases hdir : (getInode s parent).isDirectory = true
    · rw [hdir]
      have hrem := removeEntry_spec name h hp
      simp only [Bool.not_true, Bool.false_eq_true, if_false]
      rcases hr : jfsRemoveEntry s parent name with ⟨s1, e | c⟩
      · rw [hr] at hrem
        exact .inl ⟨(hrem.error e rfl).1, _, rfl⟩
      · rw [hr] at hrem
        exact .inr ⟨s1, c, rfl, .ofRemoved hrem⟩
    · rw [Bool.not_eq_true] at hdir
      rw [hdir]
      exact .inl ⟨rfl, _, rfl⟩

end Ops

/-- What stood under the new name is gone: nothing, or an entry and a link of the inode it named. -/
def Replaced (s : Jfs) (d : UInt32) (name : CStr) (s'' : Jfs) : Prop :=
  (s'' = s ∧ lookup (entries s d) name = none) ∨ ∃ s' c, Unlinked s s' d name c s''

def freeName (s : Jfs) (d : UInt32) (name : CStr) : Jfs :=
  match jfsRemoveEntry s d name with
  | (s, .ok existing) => dropLink s existing
  | (s, .error _) => s

theorem freeName_spec {d : UInt32} (name : CStr) (h : Wf s) (hd : Known s d) :
    Replaced s d name (freeName s d name) ∧ (freeName s d name).nextInode = s.nextInode ∧ Wf (freeName s d name) := by
  have hrem := removeEntry_spec name h hd
  rw [freeName]
  rcases hr : jfsRemoveEntry s d name with ⟨s', e | c⟩
  · rw [hr] at hrem
    obtain ⟨rfl, hno⟩ := hrem.error e rfl
    exact ⟨.inl ⟨rfl, lookup_none.2 hno⟩, rfl, h⟩
  · rw [hr] at hrem
    have hu := Unlinked.ofRemoved hrem
    exact ⟨.inr ⟨s', c, hu⟩, hu.dropped.step.next.trans hrem.step.next, hu.dropped.step.wf⟩

theorem jfsRename_eq (s : Jfs) (oldParent : UInt32) (oldName : CStr) (newParent : UInt32) (newName : CStr) :
    jfsRename s oldParent oldName newParent newName = if oldName.bytes = [] ∨ newName.bytes = [] then (s, .error .einval)
      else if !(getInode s oldParent).isDirectory || !(getInode s newParent).isDirectory then (s, .error .enotdir)
      else
        match jfsFindEntry s oldParent oldName with
        | .error _ => (s, .error .enoent)
        | .ok found =>
          match jfsAddEntry (freeName s newParent newName) newParent newName (found.inode s) with
          | (s, .error e) => (s, .error e)
          | (s, .ok ()) => ((jfsRemoveEntry s oldParent oldName).1, .ok ()) := rfl

/-- What `jfs_rename` does: what stands under the new name is replaced by an entry for the inode of the old one; if
that worked, the old entry is removed. -/
theorem rename_spec {oldParent newParent : UInt32} (oldName newName : CStr) (h : Wf s) (ho : Known s oldParent)
    (hn : Known s newParent) : Refused s (jfsRename s oldParent oldName newParent newName) ∨
    ∃ t s1 r1, (getInode s oldParent).isDirectory = true ∧ (getInode s newParent).isDirectory = true ∧
      lookup (entries s oldParent) oldName = some t ∧ Known s t ∧ Replaced s newParent newName s1 ∧
      r1 = jfsAddEntry s1 newParent newName t ∧ Added s1 newParent newName t r1 ∧
      ((∃ e, r1.2 = .error e ∧ jfsRename s oldParent oldName newParent newName = r1) ∨
        r1.2 = .ok () ∧ (jfsRename s oldParent oldName newParent newName).2 = .ok () ∧
          ∃ r2, Removed r1.1 oldParent oldName r2 ∧ (jfsRename s oldParent oldName newParent newName).1 = r2.1) := by
  have hfind := findEntry_eq oldName h ho
  rw [jfsRename_eq]
  by_cases hname : oldName.bytes = [] ∨ newName.bytes = []
  · rw [if_pos hname]
    exact .inl ⟨rfl, _, rfl⟩
  · rw [if_neg hname]
    by_cases hdir : (!(getInode s oldParent).isDirectory || !(getInode s newParent).isDirectory) = true
    · rw [if_pos hdir]
      exact .inl ⟨rfl, _, rfl⟩
    · rw [if_neg hdir]
      simp only [Bool.or_eq_true, Bool.not_eq_true', not_or, Bool.not_eq_false] at hdir
      cases hf : jfsFindEntry s oldParent oldName with
      | error e => exact .inl ⟨rfl, _, rfl⟩
      | ok found =>
        have hlookup : lookup (entries s oldParent) oldName = some (found.inode s) := by rw [← hfind, hf]
        have ht : Known s (found.inode s) := h.entry_known ho (mem_of_lookup hlookup)
        dsimp only
        generalize found.inode s = t at hlookup ht ⊢
        obtain ⟨hrepl, hnext, hwf⟩ := freeName_spec newName h hn
        generalize freeName s newParent newName = s1 at hrepl hnext hwf ⊢
        have hn1 : Known s1 newParent := by rw [Known, hnext]; exact hn
        have hadd := addEntry_spec newName hwf hn1 (show t.toNat < _ by rw [hnext]; exact ht)
        rcases hr : jfsAddEntry s1 newParent newName t with ⟨s2, e | u⟩
        · rw [hr] at hadd
          exact .inr ⟨t, s1, _, hdir.1, hdir.2, hlookup, ht, hrepl, hr.symm, hadd, .inl ⟨e, rfl, rfl⟩⟩
        · rw [hr] at hadd
          have ho2 : Known s2 oldParent := by
            rw [Known, hadd.step.next, hnext]
            exact ho
          exact .inr ⟨t, s1, _, hdir.1, hdir.2, hlookup, ht, hrepl, hr.symm, hadd,
            .inr ⟨rfl, rfl, _, removeEntry_spec _ hadd.step.wf ho2, rfl⟩⟩

/-! ## All of them -/

inductive NameOp where
  | create (parent : UInt32) (name : CStr)
  | mkdir (parent : UInt32) (name : CStr)
  | link (parent target : UInt32) (name : CStr)
  | unlink (parent : UInt32) (name : CStr)
  | rename (oldParent : UInt32) (oldName : CStr) (newParent : UInt32) (newName : CStr)

def Jfs.perform (s : Jfs) : NameOp → Jfs × Except Errno Unit
  | .create parent name => jfsCreate s parent name
  | .mkdir parent name => jfsMkdir s parent name
  | .link parent target name => jfsLink s parent target name
  | .unlink parent name => jfsUnlink s parent name
  | .rename oldParent oldName newParent newName => jfsRename s oldParent oldName newParent newName

/-- The nodes are of inodes that were handed out, and the table has room for another where one is taken. -/
def NameOp.Ready (s : Jfs) : NameOp → Prop
  | .create parent name => Known s parent ∧ TableRoom s parent name
  | .mkdir parent name => Known s parent ∧ TableRoom s parent name
  | .link parent target _ => Known s parent ∧ Known s target
  | .unlink parent _ => Known s parent
  | .rename oldParent _ newParent _ => Known s oldParent ∧ Known s newParent

theorem Made.wf (h : Wf s) (hm : Made s parent name r) : Wf r.1 := by
  rcases hm with ⟨hs, -⟩ | ⟨-, s', -, hadd⟩
  · rw [hs]
    exact h
  · exact hadd.step.wf

theorem Wf.perform (h : Wf s) {op : NameOp} (hr : op.Ready s) : Wf (s.perform op).1 := by
  cases op with
  | create parent name => exact (create_spec h hr.1 hr.2).wf h
  | mkdir parent name => exact (mkdir_spec h hr.1 hr.2).wf h
  | link parent target name =>
    rcases link_spec h hr.1 name hr.2 with ⟨hs, -⟩ | ⟨-, s', r', -, hadd, ⟨-, hr⟩ | ⟨e, -, -, hback⟩⟩
    · rw [Jfs.perform, hs]
      exact h
    · rw [Jfs.perform, hr]
      exact hadd.step.wf
    · exact hback.step.wf
  | unlink parent name =>
    rcases unlink_spec h hr name with ⟨hs, -⟩ | ⟨s', c, -, hu⟩
    · rw [Jfs.perform, hs]
      exact h
    · exact hu.dropped.step.wf
  | rename oldParent oldName newParent newName =>
    rcases rename_spec oldName newName h hr.1 hr.2 with
      ⟨hs, -⟩ | ⟨t, s1, r1, -, -, -, -, -, -, hadd, ⟨e, -, hr⟩ | ⟨-, -, r2, hrem, hr⟩⟩
    · rw [Jfs.perform, hs]
      exact h
    · rw [Jfs.perform, hr]
      exact hadd.step.wf
    · rw [Jfs.perform, hr]
      exact hrem.step.wf

def letter (c : UInt8) (h : c ≠ 0) : CStr := ⟨[c], fun hmem => h (List.mem_singleton.1 hmem).symm⟩

def nameA : CStr := letter 97 (by decide)
def nameB : CStr := letter 98 (by decide)

def smallTable (nlink : UInt32) : Buffer :=
  Buffer.blit (Buffer.blit (fun _ => 0) 0 (Buffer.words newRoot.word) 64) 64
    (Buffer.words (Inode.word ⟨1, 0, fsFile, nlink, fun _ => 0⟩)) 64

def smallFs (nlink : UInt32) (dir : Buffer) : Jfs where
  disk := fun b =>
    if b = 0 then Buffer.words (formatted 1024).word
    else if b = 65 then smallTable nlink
    else if b = 100 then dir
    else fun _ => 0
  sb := formatted 1024
  nextFreeBlock := 101
  nextInode := 2
  currentTxId := 1
  written := []

def oneName : Jfs := smallFs 1 (fillEntry (fun _ => 0) 0 1 nameA)

def twoNames : Jfs := smallFs 2 (fillEntry (fillEntry (fun _ => 0) 0 1 nameA) 1 1 nameB)

section Small

variable {n : UInt32} {dir : Buffer}

theorem known_small : Known (smallFs n dir) idx ↔ idx = 0 ∨ idx = 1 := by
  rw [← UInt32.toNat_inj, ← UInt32.toNat_inj, UInt32.toNat_zero, UInt32.toNat_one]
  change idx.toNat < 2 ↔ _
  omega

theorem getInode_small_root : getInode (smallFs n dir) 0 = newRoot := by
  apply Inode.ext'
  intro k hk
  have hd : (smallFs n dir).disk ((smallFs n dir).sb.inodeBlock 0) = smallTable n := rfl
  rw [getInode, hd, smallTable, Inode.word_read _ hk, show inodeOffset 0 = 0 from rfl, Buffer.get32_drop,
    Buffer.get32_blit_of_disjoint (by omega), Buffer.get32_blit_of_mem (by omega) (by omega), Nat.zero_add, Nat.sub_zero,
    Buffer.get32_words]

theorem getInode_small_file : getInode (smallFs n dir) 1 = ⟨1, 0, fsFile, n, fun _ => 0⟩ := by
  apply Inode.ext'
  intro k hk
  have hd : (smallFs n dir).disk ((smallFs n dir).sb.inodeBlock 1) = smallTable n := rfl
  rw [getInode, hd, smallTable, Inode.word_read _ hk, show inodeOffset 1 = 64 from rfl, Buffer.get32_drop,
    Buffer.get32_blit_of_mem (by omega) (by omega), Nat.add_sub_cancel_left, Buffer.get32_words]

theorem small_wf (hdir : ∀ j < 8, (dir.get32 (64 * j)).toNat < 2 ∧
    (dir.get32 (64 * j) ≠ 0 → ∃ k < 60, dir (64 * j + 4 + k) = 0)) : Wf (smallFs n dir) := by
  have hfile : ∀ i, (getInode (smallFs n dir) 1).blocks i = 0 := fun i => by rw [getInode_small_file]
  refine ⟨layout_formatted (by decide), superblock_read_words _, rfl, show 100 < 101 by decide,
    show 101 ≤ 1024 by decide, show 0 < 2 by decide, show 2 ≤ 8 * 32 by decide, fun a ha i hne => ?_,
    fun a a' ha ha' i i' hne heq => ?_, fun d hd hisdir e he => ?_, fun p hp => by cases hp⟩
  · rcases known_small.1 ha with rfl | rfl
    · rw [getInode_small_root] at hne ⊢
      rw [(newRoot_blocks i hne).2]
      exact ⟨show 100 ≤ 100 by decide, show 100 < 101 by decide⟩
    · exact absurd (hfile i) hne
  · rcases known_small.1 ha with rfl | rfl
    · rcases known_small.1 ha' with rfl | rfl
      · rw [getInode_small_root] at hne heq
        exact ⟨rfl, (newRoot_blocks i hne).1.trans (newRoot_blocks i' (heq ▸ hne)).1.symm⟩
      · rw [hfile] at heq
        exact absurd heq hne
    · exact absurd (hfile i) hne
  · obtain ⟨⟨i, hi⟩, hne, hidx⟩ := mem_slots.1 he
    rcases known_small.1 hd with rfl | rfl
    · rw [getInode_small_root] at hi
      have hblock : e.block = 100 := hi ▸ (newRoot_blocks i (hi ▸ hne)).2
      have hdisk : (smallFs n dir).disk e.block = dir := by rw [hblock]; rfl
      obtain ⟨hlt, hends⟩ := hdir e.index hidx
      exact ⟨by rw [Slot.inode, hdisk]; exact hlt, by rw [Slot.inode, hdisk]; exact hends⟩
    · exact absurd ((hfile i).symm.trans hi).symm hne

end Small

theorem oneName_wf : Wf oneName := small_wf (by decide +kernel)

theorem twoNames_wf : Wf twoNames := small_wf (by decide +kernel)

end EterOS.Fs
