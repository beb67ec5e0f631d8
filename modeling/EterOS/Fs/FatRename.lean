import EterOS.Fs.FatNames
/-!
# FatRename — moving an entry

`fat32_rename_fs` (`kernel/fs/fat32.c`) deletes the entry that has the new name, writes the moved entry to the first free
place and deletes the old one.  `RenameKeeps` is what a rename owes its caller, `RenameMet` when it is so: the old entry and
the deleted one may be the same, a new name may begin with the mark of deleted entries, and the place that is free may be
the end of the directory.
-/
namespace EterOS.Fs

open List

/-! ## What a rename owes -/

def SameFile (e e' : Buffer) : Prop :=
  Dirent.cluster e' = Dirent.cluster e ∧ Dirent.fileSize e' = Dirent.fileSize e ∧ Dirent.attr e' = Dirent.attr e

/-- Where it succeeds the new name leads to the old file, and the old name nowhere unless it folds to the same; where it
fails both names lead to what they led to. -/
def RenameKeeps (s : Fat) (oldParent : UInt32) (oldName : CStr) (newParent : UInt32) (newName : CStr) : Prop :=
  let r := fat32Rename s oldParent oldName newParent newName
  match r.2 with
  | .ok () =>
    (∃ old p, fat32FindDirentInChain s oldParent oldName = some old ∧ fat32FindDirentInChain r.1 newParent newName = some p ∧
      SameFile (s.entry old) (r.1.entry p)) ∧
    (SameName (fat32ToDosName oldName) (fat32ToDosName newName) ∨ fat32FindDirentInChain r.1 oldParent oldName = none)
  | .error _ => fat32Finddir r.1 oldParent oldName = fat32Finddir s oldParent oldName ∧
      fat32Finddir r.1 newParent newName = fat32Finddir s newParent newName

/-- The new entry takes the end mark at place `m` of the old directory: there is no entry to replace, and no free place
before. -/
def TakesMark (s : Fat) (oldParent newParent : UInt32) (newName : CStr) (m : Nat) : Prop :=
  newParent = oldParent ∧ fat32FindDirentInChain s newParent newName = none ∧
    ∀ i < m, ∀ q, (s.dirSlots newParent)[i]? = some q → s.freeAt q = false

def TwinBehind (s : Fat) (dir : UInt32) (name : CStr) (k : Nat) (old : DirPos) : Prop :=
  ∃ i q, i ≠ k ∧ (s.dirSlots dir)[i]? = some q ∧ s.matchesAt (fat32ToDosName name) q = true ∧
    (∀ m < i, ∀ b, (s.dirSlots dir)[m]? = some b → s.entry b 0 ≠ direntEnd ∧
      (m ≠ k → s.matchesAt (fat32ToDosName name) b = false)) ∧
    SameFile (s.entry old) (s.entry q)

structure RenameMet (s : Fat) (oldParent : UInt32) (oldName : CStr) (newParent : UInt32) (newName : CStr) (k : Nat)
    (old : DirPos) :
    Prop where
  /-- The new name does not begin with the mark of deleted entries. -/
  live : fat32ToDosName newName 0 ≠ direntDeleted
  /-- An entry that is moved to its own name has a free place before it. -/
  kept : newParent = oldParent → SameName (fat32ToDosName oldName) (fat32ToDosName newName) →
    (∃ m < k, ∃ q, (s.dirSlots oldParent)[m]? = some q ∧ s.freeAt q = true) ∨ TwinBehind s oldParent oldName k old
  /-- Every other entry of the old name is behind an end mark that stays. -/
  gone : ¬ SameName (fat32ToDosName oldName) (fat32ToDosName newName) → ∀ (i : Nat) (q : DirPos), i ≠ k →
    (s.dirSlots oldParent)[i]? = some q → s.matchesAt (fat32ToDosName oldName) q = true →
      ∃ m ≤ i, ∃ b, (s.dirSlots oldParent)[m]? = some b ∧ s.entry b 0 = direntEnd ∧
      ¬ TakesMark s oldParent newParent newName m

variable {s s' s1 s2 : Fat} {limit i j k : Nat} {c d dir oldParent newParent : UInt32} {l l' lA lB : List UInt32}
  {p q t old : DirPos} {e : Buffer} {name oldName newName : CStr}

/-! ## Entries that go -/

theorem FatLinked.frame {D : Set UInt32} (h : FatLinked s limit c l) (hg : Geometry s.vol limit) (hf : Frame s s' ∅ D) :
    FatLinked s' limit c l := h.congr hg hf fun _ _ => Set.notMem_empty _

theorem FatLinked.dirSlots_frame {D : Set UInt32} (h : FatLinked s limit c l) (hg : Geometry s.vol limit)
    (hf : Frame s s' ∅ D) :
    s'.dirSlots c = s.dirSlots c := by
  have hsame : s'.clusterSlots = s.clusterSlots := funext (clusterSlots_congr hf.vol)
  rw [(h.frame hg hf).dirSlots_eq (hf.geometry hg), h.dirSlots_eq hg, hsame]

theorem matchesAt_of_deleted (h : s.entry q 0 = direntDeleted) (n : Buffer) : s.matchesAt n q = false := by
  by_contra hmatch
  rw [Bool.not_eq_false] at hmatch
  exact (matchesAt_iff.1 hmatch).1 h

theorem ne_end_of_matches (h : s.matchesAt (fat32ToDosName name) q = true) : s.entry q 0 ≠ direntEnd := by
  rw [(matchesAt_iff.1 h).2.2.2 0 (by decide)]
  exact toDosName_ne_zero name 0

theorem FoundAt.not_free (h : FoundAt s c name k p) : s.freeAt p = false := by
  have hon := of_decide_eq_true h.on
  have hlive := (matchesAt_iff.1 h.hit).1
  unfold Fat.freeAt
  rw [decide_eq_false hon, decide_eq_false hlive]
  rfl

theorem FoundAt.mem (h : FoundAt s c name k p) : p ∈ s.dirSlots c := mem_of_getElem? h.place

/-- **An entry that is found stays found when another is deleted.** -/
theorem FoundAt.keep (h : FoundAt s c name k p) (hg : Geometry s.vol limit) (hl : FatLinked s limit c l)
    (hq : IsSlot s limit q)
    (hne : p ≠ q) (he : e 0 = direntDeleted) : FoundAt (s.updateDirent q e) c name k p := by
  obtain ⟨hplace, hhit, hon, hbefore⟩ := h
  have hslots := hl.dirSlots_updateDirent hg hq e
  have hsame := (updateDirent_spec hg hq e).2
  have hself : (s.updateDirent q e).entry q 0 = direntDeleted := (entry_updateDirent_self s q e (by decide)).trans he
  have hp := hsame p (hl.isSlot hg (mem_of_getElem? hplace)) hne
  refine ⟨by rw [hslots]; exact hplace, by rw [hp.matchesAt]; exact hhit, by rw [hp 0 (by decide)]; exact hon,
    fun m hm b hb => ?_⟩
  rw [hslots] at hb
  by_cases hbq : b = q
  · rw [hbq]
    exact ⟨by rw [hself]; decide, matchesAt_of_deleted hself _⟩
  · have hbsame := hsame b (hl.isSlot hg (mem_of_getElem? hb)) hbq
    rw [hbsame.matchesAt, hbsame 0 (by decide)]
    exact hbefore m hm b hb

structure Cleared (s s1 : Fat) (limit : Nat) (newParent : UInt32) (newName : CStr) : Prop where
  frame : ∃ D, Frame s s1 ∅ D
  same : ∀ q, IsSlot s limit q → fat32FindDirentInChain s newParent newName ≠ some q → SameAt s s1 q
  dropped : ∀ t, fat32FindDirentInChain s newParent newName = some t → s1.entry t 0 = direntDeleted
  none : fat32FindDirentInChain s newParent newName = none → s1 = s

theorem dropTarget_spec (hg : Geometry s.vol limit) (hB : FatLinked s limit newParent lB) (newName : CStr) :
    Cleared s (dropTarget s newParent newName) limit newParent newName := by
  unfold dropTarget
  cases hfind : fat32FindDirentInChain s newParent newName with
  | none =>
    refine ⟨⟨∅, .refl s⟩, fun q _ _ => .refl s q, fun t ht => ?_, fun _ => rfl⟩
    rw [hfind] at ht
    cases ht
  | some t =>
    obtain ⟨i, hi⟩ := findDirent_eq_some.1 hfind
    have hslot := hB.isSlot hg (mem_of_getElem? hi.place)
    obtain ⟨hframe, hsame⟩ := updateDirent_spec hg hslot (Dirent.deleted (s.entry t))
    refine ⟨⟨_, hframe⟩, fun q hq hne => hsame q hq fun heq => hne ?_, fun t' ht' => ?_, fun hnone => ?_⟩
    · rw [hfind, heq]
    · rw [hfind, Option.some.injEq] at ht'
      rw [← ht', entry_updateDirent_self s t _ (by decide)]
      exact Buffer.blit_of_mem (Nat.le_refl 0) (by decide)
    · rw [hfind] at hnone
      cases hnone

/-! ## The moved entry -/

section Moved

variable (hg : Geometry s.vol limit) (hB : FatLinked s limit newParent lB) (hc : Cleared s s1 limit newParent newName)
include hg hB hc

theorem Cleared.missed (ho : Opened s1 s2 limit newParent l' p j) :
    ∀ m < j, ∀ q, (s1.dirSlots newParent)[m]? = some q → s1.matchesAt (fat32ToDosName newName) q = false := by
  obtain ⟨D, hframe⟩ := hc.frame
  cases hfind : fat32FindDirentInChain s newParent newName with
  | none => exact ho.missed (by rw [hc.none hfind]; exact hfind)
  | some t =>
    obtain ⟨i, hi⟩ := findDirent_eq_some.1 hfind
    have hslots := hB.dirSlots_frame hg hframe
    -- the deleted entry is a free place
    have hji : j ≤ i := by
      by_contra hlt
      have hplace : (s1.dirSlots newParent)[i]? = some t := by rw [hslots]; exact hi.place
      obtain ⟨-, hfree⟩ := ho.before i (by omega) t (ho.old i t hplace)
      unfold Fat.freeAt at hfree
      rw [hc.dropped t hfind] at hfree
      revert hfree
      decide
    intro m hm q hq
    rw [hslots] at hq
    have hne : fat32FindDirentInChain s newParent newName ≠ some q := by
      intro heq
      rw [hfind, Option.some.injEq] at heq
      subst heq
      exact absurd (hB.place_inj hg hq hi.place) (by omega)
    rw [(hc.same q (hB.isSlot hg (mem_of_getElem? hq)) hne).matchesAt]
    exact (hi.before m (by omega) q hq).2

variable (hA : FatLinked s limit oldParent lA) (hsep : newParent ≠ oldParent → ∀ d ∈ lA, d ∉ lB)
  (ho : Opened s1 s2 limit newParent l' p j)
include hA ho

omit hB in
theorem Cleared.same_opened (hq : q ∈ s.dirSlots oldParent) : SameAt s1 s2 q := by
  obtain ⟨D, hframe⟩ := hc.frame
  rw [hA.dirSlots_eq hg, mem_flatMap] at hq
  obtain ⟨d, hd, hqd⟩ := hq
  have hin := hA.2 d hd
  have hused : fat32GetNextCluster s1 d ≠ 0 := by
    rw [hframe.fat d (hin.lt_entries hg) (Set.notMem_empty d)]
    exact hA.next_ne_zero hd
  exact ho.same d hin hused q (by rw [clusterSlots_congr hframe.vol]; exact hqd)

omit hB in
theorem Cleared.same_old (hq : q ∈ s.dirSlots oldParent) (hne : fat32FindDirentInChain s newParent newName ≠ some q) :
    SameAt s s2 q := (hc.same q (hA.isSlot hg hq) hne).trans (hc.same_opened hg hA ho hq)

include hsep in
/-- The old directory keeps its places; only the one directory there is can get more, all of them at the end. -/
theorem Cleared.opened_old : (∃ lA', FatLinked s2 limit oldParent lA') ∧
    (∀ (i : Nat) (q : DirPos), (s.dirSlots oldParent)[i]? = some q → (s2.dirSlots oldParent)[i]? = some q) ∧
    ∀ (i : Nat) (q : DirPos), (s2.dirSlots oldParent)[i]? = some q →
      (s.dirSlots oldParent)[i]? = some q ∨ newParent = oldParent ∧ s2.entry q 0 = direntEnd := by
  obtain ⟨D, hframe⟩ := hc.frame
  by_cases hdir : newParent = oldParent
  · subst hdir
    have hslots := hA.dirSlots_frame hg hframe
    rw [← hslots]
    exact ⟨⟨l', ho.linked⟩, ho.old, fun i q hq => (ho.behind i q hq).imp_right fun h => ⟨rfl, h⟩⟩
  · have hg1 := hframe.geometry hg
    have hlink : FatLinked s2 limit oldParent lA := by
      refine ⟨hA.1.congr fun d hd => ?_, hA.2⟩
      have hin := hA.2 d hd
      have hsame := hframe.fat d (hin.lt_entries hg) (Set.notMem_empty d)
      rw [← hsame]
      refine ho.fat d hin (by rw [hsame]; exact hA.next_ne_zero hd) ?_
      rw [(hB.frame hg hframe).dirClusters_eq hg1]
      exact hsep hdir d hd
    have hslots : s2.dirSlots oldParent = s.dirSlots oldParent := by
      have hcl : s2.clusterSlots = s.clusterSlots := funext (clusterSlots_congr (ho.vol.trans hframe.vol))
      rw [hlink.dirSlots_eq (ho.vol ▸ hg1), hA.dirSlots_eq hg, hcl]
    rw [hslots]
    exact ⟨⟨lA, hlink⟩, fun _ _ h => h, fun _ _ h => .inl h⟩

include hsep in
/-- The place for the new entry is in the old directory only where the directories are one. -/
theorem Cleared.same_dir (hp : p ∈ s.dirSlots oldParent) : newParent = oldParent := by
  by_contra hdir
  obtain ⟨D, hframe⟩ := hc.frame
  have hg1 := hframe.geometry hg
  have hg2 : Geometry s2.vol limit := ho.vol ▸ hg1
  have hmem := mem_of_getElem? ho.place
  rw [hA.dirSlots_eq hg, mem_flatMap] at hp
  rw [ho.linked.dirSlots_eq hg2, mem_flatMap] at hmem
  obtain ⟨d, hd, hpd⟩ := hp
  obtain ⟨d', hd', hpd'⟩ := hmem
  rw [clusterSlots_congr (ho.vol.trans hframe.vol)] at hpd'
  obtain ⟨i, hi, a, -, rfl⟩ := (mem_clusterSlots hg).1 hpd
  obtain ⟨i', hi', a', -, heq⟩ := (mem_clusterSlots hg).1 hpd'
  have hsec : dataSector s d i = dataSector s d' i' := congrArg DirPos.sector heq
  obtain rfl := (hg.dataSector_inj (hA.2 d hd) (ho.linked.2 d' hd') hi hi' hsec).1
  rcases ho.clusters d hd' with hold | hfree
  · rw [(hB.frame hg hframe).dirClusters_eq hg1] at hold
    exact hsep hdir d hd hold
  · rw [hframe.fat d ((hA.2 d hd).lt_entries hg) (Set.notMem_empty d)] at hfree
    exact hA.next_ne_zero hd hfree

end Moved

def movedDirent (s : Fat) (old : DirPos) (newName : CStr) : Buffer := Dirent.withName (s.entry old) (fat32ToDosName newName)

def afterMove (s s2 : Fat) (old p : DirPos) (newName : CStr) : Fat :=
  (s2.updateDirent p (movedDirent s old newName)).updateDirent old (Dirent.deleted (movedDirent s old newName))

theorem movedDirent_name (s : Fat) (old : DirPos) (newName : CStr) :
    SameName (movedDirent s old newName) (fat32ToDosName newName) := fun i hi =>
  (Buffer.blit_of_mem (Nat.zero_le i) (by omega)).trans (by rw [Nat.sub_zero])

theorem movedDirent_rest (s : Fat) (old : DirPos) (newName : CStr) (hi : 11 ≤ i) :
    movedDirent s old newName i = s.entry old i :=
  Buffer.blit_of_ge (by omega)

theorem movedDirent_file (s : Fat) (old : DirPos) (newName : CStr) : SameFile (s.entry old) (movedDirent s old newName) :=
  ⟨Dirent.cluster_congr fun _ hj _ => movedDirent_rest s old newName (by omega),
    Buffer.get32_congr fun _ hj _ => movedDirent_rest s old newName (by omega),
    movedDirent_rest s old newName (Nat.le_refl 11)⟩

theorem SameFile.congr {e e' e'' : Buffer} (h : SameFile e e') (hsame : ∀ i < 32, e'' i = e' i) : SameFile e e'' :=
  ⟨(Dirent.cluster_congr fun _ _ hj => hsame _ (by omega)).trans h.1,
    (Buffer.get32_congr fun _ _ hj => hsame _ (by omega)).trans h.2.1, (hsame 11 (by decide)).trans h.2.2⟩

theorem FoundAt.moved_carries (h : FoundAt s oldParent oldName k old) (hlive : fat32ToDosName newName 0 ≠ direntDeleted) :
    Carries (movedDirent s old newName) (fat32ToDosName newName) := by
  obtain ⟨-, hlabel, hlong, -⟩ := matchesAt_iff.1 h.hit
  have hattr : Dirent.attr (movedDirent s old newName) = Dirent.attr (s.entry old) := (movedDirent_file s old newName).2.2
  have h0 : movedDirent s old newName 0 = fat32ToDosName newName 0 := movedDirent_name s old newName 0 (by decide)
  exact ⟨movedDirent_name s old newName, by rw [h0]; exact toDosName_ne_zero newName 0, by rw [h0]; exact hlive,
    by rw [hattr]; exact hlabel, by rw [hattr]; exact hlong⟩

/-! ## The state it leaves -/

section After

variable (hg2 : Geometry s2.vol limit) (hp : IsSlot s2 limit p) (hslot : IsSlot s2 limit old) (newName : CStr)
include hg2

omit hg2 in
theorem afterMove_old : (afterMove s s2 old p newName).entry old 0 = direntDeleted :=
  (entry_updateDirent_self _ old _ (by decide)).trans (Buffer.blit_of_mem (Nat.le_refl 0) (by decide))

include hp hslot in
theorem afterMove_new (hne : p ≠ old) : ∀ i < 32, (afterMove s s2 old p newName).entry p i = movedDirent s old newName i :=
  fun i hi => ((updateDirent_spec (s := s2.updateDirent p (movedDirent s old newName)) hg2 hslot _).2 p hp hne i hi).trans
    (entry_updateDirent_self s2 p _ hi)

include hp hslot in
theorem afterMove_other (hq : IsSlot s2 limit q) (hne : q ≠ old) (hne' : q ≠ p) :
    SameAt s2 (afterMove s s2 old p newName) q :=
  ((updateDirent_spec hg2 hp _).2 q hq hne').trans
    ((updateDirent_spec (s := s2.updateDirent p (movedDirent s old newName)) hg2 hslot _).2 q hq hne)

include hp hslot in
theorem afterMove_dirSlots (hl : FatLinked s2 limit dir l) :
    (afterMove s s2 old p newName).dirSlots dir = s2.dirSlots dir := by
  have hl3 := hl.updateDirent hg2 hp (movedDirent s old newName)
  exact (hl3.dirSlots_updateDirent (s := s2.updateDirent p (movedDirent s old newName)) hg2 hslot _).trans
    (hl.dirSlots_updateDirent hg2 hp _)

end After

structure Renaming (s s1 s2 : Fat) (limit : Nat) (lA lB l' : List UInt32) (oldParent : UInt32) (oldName : CStr)
    (newParent : UInt32)
    (newName : CStr) (k : Nat) (old : DirPos) (j : Nat) (p : DirPos) : Prop where
  geometry : Geometry s.vol limit
  oldDir : FatLinked s limit oldParent lA
  newDir : FatLinked s limit newParent lB
  apart : newParent ≠ oldParent → ∀ d ∈ lA, d ∉ lB
  found : FoundAt s oldParent oldName k old
  cleared : Cleared s s1 limit newParent newName
  opened : Opened s1 s2 limit newParent l' p j

namespace Renaming

variable (h : Renaming s s1 s2 limit lA lB l' oldParent oldName newParent newName k old j p)
include h

theorem vol₁ : s1.vol = s.vol := by
  obtain ⟨D, hframe⟩ := h.cleared.frame
  exact hframe.vol

theorem vol₂ : s2.vol = s.vol := h.opened.vol.trans h.vol₁

theorem geometry₂ : Geometry s2.vol limit := h.vol₂ ▸ h.geometry

theorem slotOld : IsSlot s2 limit old := (h.oldDir.isSlot h.geometry h.found.mem).congr h.vol₂

theorem slotNew : IsSlot s2 limit p := h.opened.linked.isSlot h.geometry₂ (mem_of_getElem? h.opened.place)

theorem place₁ : s1.dirSlots newParent = s.dirSlots newParent := by
  obtain ⟨D, hframe⟩ := h.cleared.frame
  exact h.newDir.dirSlots_frame h.geometry hframe

/-! ## The new name -/

theorem new_found (hne : p ≠ old) (hlive : fat32ToDosName newName 0 ≠ direntDeleted) :
    FoundAt (afterMove s s2 old p newName) newParent newName j p ∧
    SameFile (s.entry old) ((afterMove s s2 old p newName).entry p) := by
  obtain ⟨D, hframe⟩ := h.cleared.frame
  have hg1 := hframe.geometry h.geometry
  have hl1 := h.newDir.frame h.geometry hframe
  have hwritten := h.opened.written hg1 hl1 (h.cleared.missed h.geometry h.newDir h.opened) (h.found.moved_carries hlive)
  have hl3 := h.opened.linked.updateDirent h.geometry₂ h.slotNew (movedDirent s old newName)
  refine ⟨hwritten.keep h.geometry₂ hl3 h.slotOld hne (Buffer.blit_of_mem (Nat.le_refl 0) (by decide)), ?_⟩
  exact (movedDirent_file s old newName).congr (afterMove_new h.geometry₂ h.slotNew h.slotOld newName hne)

omit h in
theorem new_lost (hmark : fat32ToDosName newName 0 = direntDeleted) (s : Fat) (dir : UInt32) :
    fat32FindDirentInChain s dir newName = none := by
  refine findDirent_eq_none.2 fun i q _ hmatch => ?_
  obtain ⟨hlive, -, -, hname⟩ := matchesAt_iff.1 hmatch
  exact absurd ((hname 0 (by decide)).trans hmark) hlive

/-- The old place is taken again only where the entry was deleted for its own name, with no free place before it. -/
theorem same_entry (heq : p = old) : newParent = oldParent ∧ SameName (fat32ToDosName oldName) (fat32ToDosName newName) ∧
    fat32FindDirentInChain s newParent newName = some old ∧ j = k ∧
    ∀ m < k, ∀ q, (s.dirSlots oldParent)[m]? = some q → s.freeAt q = false := by
  have hdir : newParent = oldParent := h.cleared.same_dir h.geometry h.newDir h.oldDir h.apart h.opened (heq ▸ h.found.mem)
  have htarget : fat32FindDirentInChain s newParent newName = some old := by
    by_contra hne
    have hsame := h.cleared.same_old h.geometry h.oldDir h.opened h.found.mem hne
    have hfree := h.opened.free
    rw [heq, hsame.freeAt, h.found.not_free] at hfree
    cases hfree
  obtain ⟨i, hi⟩ := findDirent_eq_some.1 htarget
  have hold := (matchesAt_iff.1 h.found.hit).2.2.2
  have hnew := (matchesAt_iff.1 hi.hit).2.2.2
  have hplace : (s1.dirSlots newParent)[k]? = some old := by
    rw [h.place₁, hdir]
    exact h.found.place
  have hjk : j = k := h.opened.linked.place_inj h.geometry₂ (heq ▸ h.opened.place) (h.opened.old k old hplace)
  refine ⟨hdir, fun i hi => (hold i hi).symm.trans (hnew i hi), htarget, hjk, fun m hm q hq => ?_⟩
  have hq1 : (s1.dirSlots newParent)[m]? = some q := by
    rw [h.place₁, hdir]
    exact hq
  have hfree := (h.opened.before m (by omega) q (h.opened.old m q hq1)).2
  have hne : fat32FindDirentInChain s newParent newName ≠ some q := by
    rw [htarget]
    intro hc
    obtain rfl := Option.some.inj hc
    exact absurd (h.oldDir.place_inj h.geometry hq h.found.place) (by omega)
  rw [← (h.cleared.same q (h.oldDir.isSlot h.geometry (mem_of_getElem? hq)) hne).freeAt]
  exact hfree

omit h in
theorem matchesAt_congr (hsame : SameName (fat32ToDosName oldName) (fat32ToDosName newName)) (s : Fat) :
    s.matchesAt (fat32ToDosName newName) = s.matchesAt (fat32ToDosName oldName) := by
  funext q
  rw [Bool.eq_iff_iff, matchesAt_iff, matchesAt_iff]
  exact and_congr_right fun _ => and_congr_right fun _ => and_congr_right fun _ =>
    forall_congr' fun i => forall_congr' fun hi => by rw [hsame i hi]

/-! ## The old directory -/

theorem old_places : ∀ (i : Nat) (q : DirPos), (s.dirSlots oldParent)[i]? = some q → (s2.dirSlots oldParent)[i]? = some q :=
  (h.cleared.opened_old h.geometry h.newDir h.oldDir h.apart h.opened).2.1

theorem places_old (hi : i < (s.dirSlots oldParent).length) (hq : (s2.dirSlots oldParent)[i]? = some q) :
    (s.dirSlots oldParent)[i]? = some q := by
  have hq' := List.getElem?_eq_getElem hi
  rw [hq', ← h.old_places i _ hq']
  exact hq

theorem after_places : (afterMove s s2 old p newName).dirSlots oldParent = s2.dirSlots oldParent := by
  obtain ⟨l, hl⟩ := (h.cleared.opened_old h.geometry h.newDir h.oldDir h.apart h.opened).1
  exact afterMove_dirSlots h.geometry₂ h.slotNew h.slotOld newName hl

theorem after_same (hq : q ∈ s.dirSlots oldParent) (hold : q ≠ old) (hnew : q ≠ p)
    (htarget : fat32FindDirentInChain s newParent newName ≠ some q) : SameAt s (afterMove s s2 old p newName) q :=
  (h.cleared.same_old h.geometry h.oldDir h.opened hq htarget).trans
    (afterMove_other h.geometry₂ h.slotNew h.slotOld newName ((h.oldDir.isSlot h.geometry hq).congr h.vol₂) hold hnew)

theorem after_dropped (hq : q ∈ s.dirSlots oldParent) (hold : q ≠ old) (hnew : q ≠ p)
    (htarget : fat32FindDirentInChain s newParent newName = some q) :
    (afterMove s s2 old p newName).entry q 0 = direntDeleted := by
  have hslot := (h.oldDir.isSlot h.geometry hq).congr h.vol₂
  rw [afterMove_other h.geometry₂ h.slotNew h.slotOld newName hslot hold hnew 0 (by decide),
    h.cleared.same_opened h.geometry h.oldDir h.opened hq 0 (by decide)]
  exact h.cleared.dropped q htarget

theorem free_or_target (hq : p ∈ s.dirSlots oldParent) :
    s.freeAt p = true ∨ fat32FindDirentInChain s newParent newName = some p := by
  by_cases htarget : fat32FindDirentInChain s newParent newName = some p
  · exact .inr htarget
  · have hfree := h.opened.free
    rw [(h.cleared.same_old h.geometry h.oldDir h.opened hq htarget).freeAt] at hfree
    exact .inl hfree

theorem place_le_target (hi : FoundAt s newParent newName i t) : j ≤ i := by
  by_contra hlt
  have hplace : (s1.dirSlots newParent)[i]? = some t := by
    rw [h.place₁]
    exact hi.place
  have hfree := (h.opened.before i (by omega) t (h.opened.old i t hplace)).2
  unfold Fat.freeAt at hfree
  rw [h.cleared.dropped t (findDirent_eq_some.2 ⟨i, hi⟩)] at hfree
  exact absurd hfree (by decide)

theorem free_before (hdir : newParent = oldParent) (hsame : SameName (fat32ToDosName oldName) (fat32ToDosName newName))
    (hne : p ≠ old) : ∃ m < k, ∃ q, (s.dirSlots oldParent)[m]? = some q ∧ s.freeAt q = true := by
  subst hdir
  have hfound : FoundAt s newParent newName k old := by
    unfold FoundAt
    rw [matchesAt_congr hsame]
    exact h.found
  have htarget : fat32FindDirentInChain s newParent newName = some old := findDirent_eq_some.2 ⟨k, hfound⟩
  have hjk : j ≠ k := by
    rintro rfl
    exact hne (Option.some.inj (h.opened.place.symm.trans (h.old_places j old h.found.place)))
  have hlt : j < k := Nat.lt_of_le_of_ne (h.place_le_target hfound) hjk
  have hp := h.places_old (hlt.trans (List.getElem?_eq_some_iff.1 h.found.place).1) h.opened.place
  refine ⟨j, hlt, p, hp, ?_⟩
  rcases h.free_or_target (mem_of_getElem? hp) with hfree | hsome
  · exact hfree
  · exact absurd (Option.some.inj (htarget.symm.trans hsome)).symm hne

theorem takes_iff {m : Nat} {b : DirPos} (hb : (s.dirSlots oldParent)[m]? = some b) (hend : s.entry b 0 = direntEnd) :
    b = p ↔ TakesMark s oldParent newParent newName m := by
  constructor
  · rintro rfl
    obtain rfl : newParent = oldParent :=
      h.cleared.same_dir h.geometry h.newDir h.oldDir h.apart h.opened (mem_of_getElem? hb)
    obtain rfl : j = m := h.opened.linked.place_inj h.geometry₂ h.opened.place (h.old_places m b hb)
    have hnone : fat32FindDirentInChain s newParent newName = none := by
      rw [Option.eq_none_iff_forall_ne_some]
      intro t ht
      obtain ⟨i, hi⟩ := findDirent_eq_some.1 ht
      -- an entry that is found has no mark before it
      rcases Nat.lt_or_eq_of_le (h.place_le_target hi) with hlt | rfl
      · exact of_decide_eq_true (hi.before j hlt b hb).1 hend
      · obtain rfl := Option.some.inj (hb.symm.trans hi.place)
        exact of_decide_eq_true hi.on hend
    refine ⟨rfl, hnone, fun i hi q hq => ?_⟩
    have hfree := (h.opened.before i hi q (h.old_places i q hq)).2
    rw [h.cleared.none hnone] at hfree
    exact hfree
  · rintro ⟨rfl, hnone, hbefore⟩
    have hs := h.cleared.none hnone
    have hfree : s.freeAt b = true := by
      unfold Fat.freeAt
      rw [hend]
      rfl
    rcases Nat.lt_trichotomy j m with hlt | rfl | hgt
    · have hp := h.places_old (hlt.trans (List.getElem?_eq_some_iff.1 hb).1) h.opened.place
      rcases h.free_or_target (mem_of_getElem? hp) with hpfree | hsome
      · rw [hbefore j hlt p hp] at hpfree
        cases hpfree
      · rw [hnone] at hsome
        cases hsome
    · exact Option.some.inj ((h.old_places j b hb).symm.trans h.opened.place)
    · have hused := (h.opened.before m hgt b (h.old_places m b hb)).2
      rw [hs, hfree] at hused
      cases hused

/-! ## The old name -/

section Gone

variable (hname : ¬ SameName (fat32ToDosName oldName) (fat32ToDosName newName))
include hname

theorem place_ne : p ≠ old := fun heq => hname (h.same_entry heq).2.1

omit h in
theorem one_name {s : Fat} (hnew : SameName (s.entry q) (fat32ToDosName newName)) :
    s.matchesAt (fat32ToDosName oldName) q = false := by
  by_contra hmatch
  rw [Bool.not_eq_false] at hmatch
  exact hname fun i hi => ((matchesAt_iff.1 hmatch).2.2.2 i hi).symm.trans (hnew i hi)

theorem new_not_old : (afterMove s s2 old p newName).matchesAt (fat32ToDosName oldName) p = false := by
  refine one_name hname fun i hi => ?_
  rw [afterMove_new h.geometry₂ h.slotNew h.slotOld newName (h.place_ne hname) i (by omega)]
  exact movedDirent_name s old newName i hi

omit h hname in
theorem free_no_match {s : Fat} (hfree : s.freeAt q = true) (name : CStr) : s.matchesAt (fat32ToDosName name) q = false := by
  by_contra hmatch
  rw [Bool.not_eq_false] at hmatch
  obtain ⟨hlive, -, -, hsame⟩ := matchesAt_iff.1 hmatch
  unfold Fat.freeAt at hfree
  rw [Bool.or_eq_true, decide_eq_true_eq, decide_eq_true_eq] at hfree
  rcases hfree with hend | hdel
  · exact toDosName_ne_zero name 0 ((hsame 0 (by decide)).symm.trans hend)
  · exact hlive hdel

theorem matches_old (hq : q ∈ s.dirSlots oldParent) (hold : q ≠ old) :
    (afterMove s s2 old p newName).matchesAt (fat32ToDosName oldName) q = s.matchesAt (fat32ToDosName oldName) q := by
  have hdrop : fat32FindDirentInChain s newParent newName = some q → s.matchesAt (fat32ToDosName oldName) q = false := by
    intro htarget
    obtain ⟨i, hi⟩ := findDirent_eq_some.1 htarget
    exact one_name hname (matchesAt_iff.1 hi.hit).2.2.2
  by_cases hqp : q = p
  · subst hqp
    rw [h.new_not_old hname]
    rcases h.free_or_target hq with hfree | htarget
    · exact (free_no_match hfree oldName).symm
    · exact (hdrop htarget).symm
  · by_cases htarget : fat32FindDirentInChain s newParent newName = some q
    · rw [hdrop htarget]
      exact matchesAt_of_deleted (h.after_dropped hq hold hqp htarget) _
    · exact (h.after_same hq hold hqp htarget).matchesAt _

theorem end_old (hq : q ∈ s.dirSlots oldParent) :
    (afterMove s s2 old p newName).entry q 0 = direntEnd ↔ s.entry q 0 = direntEnd ∧ q ≠ p := by
  by_cases hqp : q = p
  · subst hqp
    have hnew : (afterMove s s2 old q newName).entry q 0 = fat32ToDosName newName 0 := by
      rw [afterMove_new h.geometry₂ h.slotNew h.slotOld newName (h.place_ne hname) 0 (by decide)]
      exact movedDirent_name s old newName 0 (by decide)
    rw [hnew]
    exact iff_of_false (toDosName_ne_zero newName 0) fun hc => hc.2 rfl
  · rw [and_iff_left hqp]
    by_cases hold : q = old
    · subst hold
      rw [afterMove_old]
      exact iff_of_false (by decide) (of_decide_eq_true h.found.on)
    · by_cases htarget : fat32FindDirentInChain s newParent newName = some q
      · obtain ⟨i, hi⟩ := findDirent_eq_some.1 htarget
        rw [h.after_dropped hq hold hqp htarget]
        exact iff_of_false (by decide) (of_decide_eq_true hi.on)
      · rw [h.after_same hq hold hqp htarget 0 (by decide)]

theorem matches_places {i : Nat} (hq : (s2.dirSlots oldParent)[i]? = some q)
    (hmatch : (afterMove s s2 old p newName).matchesAt (fat32ToDosName oldName) q = true) :
    (s.dirSlots oldParent)[i]? = some q := by
  obtain ⟨⟨l, hl⟩, -, hmore⟩ := h.cleared.opened_old h.geometry h.newDir h.oldDir h.apart h.opened
  rcases hmore i q hq with hin | ⟨-, hend⟩
  · exact hin
  · have hold : q ≠ old := by
      rintro rfl
      rw [matchesAt_of_deleted (afterMove_old newName)] at hmatch
      cases hmatch
    have hnew : q ≠ p := by
      rintro rfl
      rw [h.new_not_old hname] at hmatch
      cases hmatch
    have hslot := hl.isSlot h.geometry₂ (mem_of_getElem? hq)
    have hsame := afterMove_other (s := s) h.geometry₂ h.slotNew h.slotOld newName hslot hold hnew
    rw [hsame.matchesAt] at hmatch
    have hfree : s2.freeAt q = true := by
      unfold Fat.freeAt
      rw [hend]
      rfl
    rw [free_no_match hfree] at hmatch
    cases hmatch

theorem gone_iff : fat32FindDirentInChain (afterMove s s2 old p newName) oldParent oldName = none ↔
    ∀ (i : Nat) (q : DirPos), i ≠ k → (s.dirSlots oldParent)[i]? = some q → s.matchesAt (fat32ToDosName oldName) q = true →
      ∃ m ≤ i, ∃ b, (s.dirSlots oldParent)[m]? = some b ∧ s.entry b 0 = direntEnd ∧
      ¬ TakesMark s oldParent newParent newName m := by
  rw [findDirent_eq_none, h.after_places]
  constructor
  · intro hnone i q hik hq hmatch
    have hold : q ≠ old := by
      rintro rfl
      exact hik (h.oldDir.place_inj h.geometry hq h.found.place)
    have hmem := mem_of_getElem? hq
    obtain ⟨m, hm, b, hb, hend⟩ := hnone i q (h.old_places i q hq) ((h.matches_old hname hmem hold).trans hmatch)
    have hb' := h.places_old (Nat.lt_of_le_of_lt hm (List.getElem?_eq_some_iff.1 hq).1) hb
    obtain ⟨hbend, hbp⟩ := (h.end_old hname (mem_of_getElem? hb')).1 hend
    exact ⟨m, hm, b, hb', hbend, fun htakes => hbp ((h.takes_iff hb' hbend).2 htakes)⟩
  · intro hgone i q hq hmatch
    have hq' := h.matches_places hname hq hmatch
    have hold : q ≠ old := by
      rintro rfl
      rw [matchesAt_of_deleted (afterMove_old newName)] at hmatch
      cases hmatch
    have hik : i ≠ k := by
      rintro rfl
      exact hold (Option.some.inj (hq'.symm.trans h.found.place))
    rw [h.matches_old hname (mem_of_getElem? hq') hold] at hmatch
    obtain ⟨m, hm, b, hb, hend, hkeeps⟩ := hgone i q hik hq' hmatch
    exact ⟨m, hm, b, h.old_places m b hb, (h.end_old hname (mem_of_getElem? hb)).2
      ⟨hend, fun hbp => hkeeps ((h.takes_iff hb hend).1 hbp)⟩⟩

end Gone

/-- **When an entry that was written where it was, and deleted there, is found again.** -/
theorem twin_iff (heq : p = old) : (∃ q, fat32FindDirentInChain (afterMove s s2 old p newName) newParent newName = some q ∧
      SameFile (s.entry old) ((afterMove s s2 old p newName).entry q)) ↔ TwinBehind s oldParent oldName k old := by
  obtain ⟨hdir, hname, htarget, -, -⟩ := h.same_entry heq
  obtain ⟨⟨l, hl⟩, -, hmore⟩ := h.cleared.opened_old h.geometry h.newDir h.oldDir h.apart h.opened
  have hsame : ∀ q ∈ s.dirSlots oldParent, q ≠ old → SameAt s (afterMove s s2 old p newName) q := fun q hq hne =>
    h.after_same hq hne (heq ▸ hne) fun hc => hne (Option.some.inj (htarget.symm.trans hc)).symm
  have hne : ∀ (i : Nat) (q : DirPos), (s.dirSlots oldParent)[i]? = some q → i ≠ k → q ≠ old := by
    rintro i q hq hik rfl
    exact hik (h.oldDir.place_inj h.geometry hq h.found.place)
  rw [hdir]
  constructor
  · rintro ⟨q, hfind, hfile⟩
    obtain ⟨i, hi⟩ := findDirent_eq_some.1 hfind
    have hplace := hi.place
    rw [h.after_places] at hplace
    have hold : q ≠ old := by
      rintro rfl
      have hmatch := hi.hit
      rw [matchesAt_of_deleted (afterMove_old newName)] at hmatch
      cases hmatch
    have hon := of_decide_eq_true hi.on
    have hin : (s.dirSlots oldParent)[i]? = some q := by
      rcases hmore i q hplace with hin | ⟨-, hend⟩
      · exact hin
      · have hslot := hl.isSlot h.geometry₂ (mem_of_getElem? hplace)
        rw [afterMove_other h.geometry₂ h.slotNew h.slotOld newName hslot hold (heq ▸ hold) 0 (by decide)] at hon
        exact absurd hend hon
    have hik : i ≠ k := by
      rintro rfl
      exact hold (Option.some.inj (hin.symm.trans h.found.place))
    have hqsame := hsame q (mem_of_getElem? hin) hold
    refine ⟨i, q, hik, hin, ?_, fun m hm b hb => ?_, hfile.congr fun a ha => (hqsame a ha).symm⟩
    · rw [← hqsame.matchesAt, ← matchesAt_congr hname]
      exact hi.hit
    · obtain ⟨hbon, hbmatch⟩ := hi.before m hm b (by rw [h.after_places]; exact h.old_places m b hb)
      by_cases hmk : m = k
      · subst hmk
        obtain rfl := Option.some.inj (hb.symm.trans h.found.place)
        exact ⟨of_decide_eq_true h.found.on, fun hc => absurd rfl hc⟩
      · have hbsame := hsame b (mem_of_getElem? hb) (hne m b hb hmk)
        rw [hbsame 0 (by decide)] at hbon
        rw [hbsame.matchesAt, matchesAt_congr hname] at hbmatch
        exact ⟨of_decide_eq_true hbon, fun _ => hbmatch⟩
  · rintro ⟨i, q, hik, hq, hmatch, hbefore, hfile⟩
    have hold := hne i q hq hik
    have hmem := mem_of_getElem? hq
    have hqsame := hsame q hmem hold
    have hnew : (afterMove s s2 old p newName).matchesAt (fat32ToDosName newName) q = true := by
      rw [hqsame.matchesAt, matchesAt_congr hname]
      exact hmatch
    refine ⟨q, findDirent_eq_some.2 ⟨i, ?_, hnew, decide_eq_true (ne_end_of_matches hnew), fun m hm b hb => ?_⟩,
      hfile.congr hqsame⟩
    · rw [h.after_places]
      exact h.old_places i q hq
    · rw [h.after_places] at hb
      have hb' := h.places_old (hm.trans (List.getElem?_eq_some_iff.1 hq).1) hb
      obtain ⟨hbon, hbmatch⟩ := hbefore m hm b hb'
      by_cases hmk : m = k
      · subst hmk
        obtain rfl := Option.some.inj (hb'.symm.trans h.found.place)
        rw [afterMove_old]
        exact ⟨by decide, matchesAt_of_deleted (afterMove_old newName) _⟩
      · have hbsame := hsame b (mem_of_getElem? hb') (hne m b hb' hmk)
        rw [hbsame 0 (by decide), hbsame.matchesAt, matchesAt_congr hname]
        exact ⟨decide_eq_true hbon, hbmatch hmk⟩

theorem ok_iff : (∃ old' p', fat32FindDirentInChain s oldParent oldName = some old' ∧
      fat32FindDirentInChain (afterMove s s2 old p newName) newParent newName = some p' ∧
        SameFile (s.entry old') ((afterMove s s2 old p newName).entry p')) ∧
      (SameName (fat32ToDosName oldName) (fat32ToDosName newName) ∨
        fat32FindDirentInChain (afterMove s s2 old p newName) oldParent oldName = none) ↔
    RenameMet s oldParent oldName newParent newName k old := by
  have hfind : fat32FindDirentInChain s oldParent oldName = some old := findDirent_eq_some.2 ⟨k, h.found⟩
  have hfirst : (∃ old' p', fat32FindDirentInChain s oldParent oldName = some old' ∧
      fat32FindDirentInChain (afterMove s s2 old p newName) newParent newName = some p' ∧
        SameFile (s.entry old') ((afterMove s s2 old p newName).entry p')) ↔
      ∃ q, fat32FindDirentInChain (afterMove s s2 old p newName) newParent newName = some q ∧
        SameFile (s.entry old) ((afterMove s s2 old p newName).entry q) := by
    rw [hfind]
    constructor
    · rintro ⟨old', p', hold, hp, hfile⟩
      obtain rfl := Option.some.inj hold
      exact ⟨p', hp, hfile⟩
    · rintro ⟨q, hq, hfile⟩
      exact ⟨old, q, rfl, hq, hfile⟩
  rw [hfirst]
  by_cases hpo : p = old
  · obtain ⟨hdir, hname, -, -, hfull⟩ := h.same_entry hpo
    rw [h.twin_iff hpo, and_iff_left (.inl hname)]
    constructor
    · intro htwin
      have hold := matchesAt_iff.1 h.found.hit
      refine ⟨?_, fun _ _ => .inr htwin, fun hc => absurd hname hc⟩
      rw [← hname 0 (by decide), ← hold.2.2.2 0 (by decide)]
      exact hold.1
    · intro hmet
      rcases hmet.kept hdir hname with ⟨m, hm, q, hq, hfree⟩ | htwin
      · rw [hfull m hm q hq] at hfree
        cases hfree
      · exact htwin
  · by_cases hlive : fat32ToDosName newName 0 = direntDeleted
    · refine iff_of_false ?_ fun hmet => hmet.live hlive
      rintro ⟨⟨q, hq, -⟩, -⟩
      rw [new_lost hlive] at hq
      cases hq
    · obtain ⟨hnew, hfile⟩ := h.new_found hpo hlive
      have hexists : ∃ q, fat32FindDirentInChain (afterMove s s2 old p newName) newParent newName = some q ∧
          SameFile (s.entry old) ((afterMove s s2 old p newName).entry q) := ⟨p, findDirent_eq_some.2 ⟨j, hnew⟩, hfile⟩
      rw [and_iff_right hexists]
      constructor
      · intro hgone
        refine ⟨hlive, fun hdir hname => .inl (h.free_before hdir hname hpo), fun hname => ?_⟩
        exact (h.gone_iff hname).1 (hgone.resolve_left hname)
      · intro hmet
        by_cases hname : SameName (fat32ToDosName oldName) (fat32ToDosName newName)
        · exact .inl hname
        · exact .inr ((h.gone_iff hname).2 (hmet.gone hname))

end Renaming

/-! ## The whole of a rename -/

theorem Cleared.room {n : Nat} (hc : Cleared s s1 limit newParent newName) (hg : Geometry s.vol limit)
    (hr : Room s limit n) :
    Room s1 limit n := by
  obtain ⟨D, hframe⟩ := hc.frame
  rcases hr with hcard | hnone
  · exact .inl (by rw [freeClusters_of_frame hg hframe]; exact hcard)
  · refine .inr fun c hc hlt => ?_
    rw [hframe.fatEntries] at hlt
    rw [hframe.fat c hlt (Set.notMem_empty c)]
    exact hnone c hc hlt

theorem Cleared.full (hc : Cleared s s1 limit newParent newName) (hg : Geometry s.vol limit)
    (hB : FatLinked s limit newParent lB)
    (hfull : ∀ q ∈ s1.dirSlots newParent, s1.freeAt q = false) : s1 = s := by
  obtain ⟨D, hframe⟩ := hc.frame
  refine hc.none (Option.eq_none_iff_forall_ne_some.2 fun t ht => ?_)
  obtain ⟨i, hi⟩ := findDirent_eq_some.1 ht
  have hfree := hfull t (by rw [hB.dirSlots_frame hg hframe]; exact hi.mem)
  unfold Fat.freeAt at hfree
  rw [hc.dropped t ht] at hfree
  exact absurd hfree (by decide)

theorem fat32Rename_eq (hfind : fat32FindDirentInChain s oldParent oldName = some old) :
    fat32Rename s oldParent oldName newParent newName =
      match fat32FindFreeDirentInChain (dropTarget s newParent newName) newParent with
      | none => (dropTarget s newParent newName, .error .enospc)
      | some (s2, p) => (afterMove s s2 old p newName, .ok ()) := by
  unfold fat32Rename
  rw [hfind]
  rfl

/-- **When a rename is what it should be**, in directories of a volume. -/
theorem fat32_rename_iff (limit : Nat) (s : Fat) (oldParent newParent : UInt32) (oldName newName : CStr)
    (lA lB : List UInt32)
    (hg : Geometry s.vol limit) (hA : FatLinked s limit oldParent lA) (hB : FatLinked s limit newParent lB)
    (hin : InVol limit newParent) (hsep : newParent ≠ oldParent → ∀ d ∈ lA, d ∉ lB) (hr : Room s limit 1) :
    RenameKeeps s oldParent oldName newParent newName ↔
      fat32FindDirentInChain s oldParent oldName = none ∨
      (fat32FindDirentInChain s newParent newName = none ∧ fat32FindFreeDirentInChain s newParent = none) ∨
      ∃ k old, FoundAt s oldParent oldName k old ∧ RenameMet s oldParent oldName newParent newName k old := by
  cases hfind : fat32FindDirentInChain s oldParent oldName with
  | none =>
    have hsame : fat32Rename s oldParent oldName newParent newName = (s, .error .enoent) := by
      unfold fat32Rename
      rw [hfind]
    refine iff_of_true ?_ (.inl rfl)
    unfold RenameKeeps
    rw [hsame]
    exact ⟨rfl, rfl⟩
  | some old =>
    obtain ⟨k, hk⟩ := findDirent_eq_some.1 hfind
    have hc := dropTarget_spec hg hB newName
    obtain ⟨D, hframe⟩ := hc.frame
    have hspec := findFree_spec (hframe.geometry hg) (hB.frame hg hframe) hin (hc.room hg hr)
    have hrename : fat32Rename s oldParent oldName newParent newName = _ := fat32Rename_eq hfind
    cases hfree : fat32FindFreeDirentInChain (dropTarget s newParent newName) newParent with
    | none =>
      rw [hfree] at hspec hrename
      have hs := hc.full hg hB hspec
      rw [hs] at hfree hrename
      have hnone : fat32FindDirentInChain s newParent newName = none := by
        rw [Option.eq_none_iff_forall_ne_some]
        intro t ht
        obtain ⟨i, hi⟩ := findDirent_eq_some.1 ht
        have hdel := hc.dropped t ht
        rw [hs] at hdel
        exact (matchesAt_iff.1 hi.hit).1 hdel
      refine iff_of_true ?_ (.inr (.inl ⟨hnone, hfree⟩))
      unfold RenameKeeps
      rw [hrename]
      exact ⟨rfl, rfl⟩
    | some r =>
      obtain ⟨s2, p⟩ := r
      rw [hfree] at hspec hrename
      obtain ⟨l', j, hopened⟩ := hspec
      have hmove : Renaming s (dropTarget s newParent newName) s2 limit lA lB l' oldParent oldName newParent newName k
          old j p :=
        ⟨hg, hA, hB, hsep, hk, hc, hopened⟩
      have hok : RenameKeeps s oldParent oldName newParent newName ↔
          RenameMet s oldParent oldName newParent newName k old := by
        rw [← hmove.ok_iff]
        unfold RenameKeeps
        rw [hrename]
      rw [hok]
      constructor
      · exact fun hmet => .inr (.inr ⟨k, old, hk, hmet⟩)
      · rintro (hnone | ⟨hnone, hnofree⟩ | ⟨k', old', hk', hmet⟩)
        · cases hnone
        · rw [hc.none hnone, hnofree] at hfree
          cases hfree
        · obtain rfl : old = old' := Option.some.inj (hfind.symm.trans (findDirent_eq_some.2 ⟨k', hk'⟩))
          obtain rfl := hA.place_inj hg hk.place hk'.place
          exact hmet

theorem sampleFat_found : FoundAt sampleFat 2 nameA 0 ⟨2, 0⟩ :=
  ⟨by decide +kernel, by decide +kernel, by decide +kernel, fun j hj => absurd hj (Nat.not_lt_zero j)⟩

/-- A file that is renamed. -/
theorem sampleFat_renamed : RenameKeeps sampleFat 2 nameA 2 nameB := by
  refine (fat32_rename_iff 8 sampleFat 2 2 nameA nameB [2] [2] blank_geometry sampleFat_linked sampleFat_linked
    ⟨by decide, by decide⟩
    (fun hc => absurd rfl hc) sampleFat_room).2
      (.inr (.inr ⟨0, ⟨2, 0⟩, sampleFat_found, ?_, fun _ hsame => ?_, fun _ i q hi hq hmatch => ?_⟩))
  · decide +kernel
  · exact absurd (hsame 0 (by decide)) (by decide +kernel)
  · have hsecond : (sampleFat.dirSlots 2)[1]? = some ⟨2, 32⟩ := by decide +kernel
    have hthird : (sampleFat.dirSlots 2)[2]? = some ⟨2, 64⟩ := by decide +kernel
    have hfree : sampleFat.freeAt ⟨2, 32⟩ = true := by decide +kernel
    have hle : 2 ≤ i := by
      by_contra hlt
      obtain rfl : i = 1 := by omega
      obtain rfl := Option.some.inj (hsecond.symm.trans hq)
      exact absurd hmatch (by decide +kernel)
    refine ⟨2, hle, ⟨2, 64⟩, hthird, by decide +kernel, fun htakes => ?_⟩
    have hused := htakes.2.2 1 (by decide) ⟨2, 32⟩ hsecond
    rw [hfree] at hused
    cases hused

/-- A file renamed to its own name, or to the byte of deleted entries, is lost. -/
theorem renamed_file_lost :
    (fat32Finddir sampleFat 2 nameA).isSome ∧ (fat32Rename sampleFat 2 nameA 2 nameA).2.isOk ∧
    fat32Finddir (fat32Rename sampleFat 2 nameA 2 nameA).1 2 nameA = none ∧ ¬ RenameKeeps sampleFat 2 nameA 2 nameA ∧
    (fat32Rename sampleFat 2 nameA 2 markString).2.isOk ∧ ¬ RenameKeeps sampleFat 2 nameA 2 markString := by
  have hlost : ∀ newName : CStr, (fat32Rename sampleFat 2 nameA 2 newName).2 = .ok () →
      fat32FindDirentInChain (fat32Rename sampleFat 2 nameA 2 newName).1 2 newName = none →
      ¬ RenameKeeps sampleFat 2 nameA 2 newName := by
    intro newName hok hnone h
    unfold RenameKeeps at h
    dsimp only at h
    rw [hok] at h
    obtain ⟨⟨-, p, -, hp, -⟩, -⟩ := h
    rw [hnone] at hp
    cases hp
  exact ⟨by decide +kernel, by decide +kernel, by decide +kernel, hlost nameA (by decide +kernel) (by decide +kernel),
    by decide +kernel, hlost markString (by decide +kernel) (by decide +kernel)⟩

end EterOS.Fs
