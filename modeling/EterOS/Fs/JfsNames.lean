import EterOS.Lib.Run
import EterOS.Fs.JfsOps
/-!
# JfsNames — directories as finite maps

A directory is a map from names to inodes: `jfs_finddir` looks a name up, `jfs_readdir` lists the names.  `Mapped` ties
the entries on the disk to the map that the operations describe.  It holds as long as no name is cut when it is stored:
a name is looked up whole and stored with at most 59 bytes.
-/
namespace EterOS.Fs

open Function (update update_self update_of_ne)

variable {s s' s'' : Jfs} {d c t parent target : UInt32} {name : CStr} {r : Jfs × Except Errno Unit}
  {l l' : List (CStr × UInt32)}

/-- For each directory, the names added and not removed since, with their inodes. -/
abbrev NameMap : Type := UInt32 → CStr → Option UInt32

namespace NameMap

def put (m : NameMap) (d : UInt32) (name : CStr) (v : Option UInt32) : NameMap := update m d (update (m d) name v)

variable {m : NameMap} {v : Option UInt32} {d' : UInt32} {n : CStr}

@[simp] theorem put_self : m.put d name v d name = v := by
  rw [put, update_self, update_self]

theorem put_of_ne (h : d' ≠ d ∨ n ≠ name) : m.put d name v d' n = m d' n := by
  rw [put]
  by_cases hd : d' = d
  · subst hd
    rw [update_self, update_of_ne (h.resolve_left (not_not.2 rfl))]
  · rw [update_of_ne hd]

theorem put_eq_self (h : m d name = v) : m.put d name v = m := by
  rw [put, ← h, Function.update_eq_self, Function.update_eq_self]

theorem ext {m m' : NameMap} (h : ∀ d n, m d n = m' d n) : m = m' := funext fun d => funext (h d)

theorem put_put (w : Option UInt32) : (m.put d name v).put d name w = m.put d name w := by
  refine ext fun d' n => ?_
  by_cases h : d' = d ∧ n = name
  · obtain ⟨rfl, rfl⟩ := h
    rw [put_self, put_self]
  · have hne : d' ≠ d ∨ n ≠ name := not_and_or.1 h
    rw [put_of_ne hne, put_of_ne hne, put_of_ne hne]

theorem put_comm (h : d ≠ d' ∨ name ≠ n) (w : Option UInt32) :
    (m.put d name v).put d' n w = (m.put d' n w).put d name v := by
  refine ext fun a k => ?_
  by_cases h1 : a = d ∧ k = name
  · obtain ⟨rfl, rfl⟩ := h1
    rw [put_of_ne h, put_self, put_self]
  · have hne : a ≠ d ∨ k ≠ name := not_and_or.1 h1
    by_cases h2 : a = d' ∧ k = n
    · obtain ⟨rfl, rfl⟩ := h2
      rw [put_self, put_of_ne hne, put_self]
    · have hne' : a ≠ d' ∨ k ≠ n := not_and_or.1 h2
      rw [put_of_ne hne', put_of_ne hne, put_of_ne hne, put_of_ne hne']

end NameMap

/-! ## Lists of entries -/

def Distinct (l : List (CStr × UInt32)) : Prop := (l.map Prod.fst).Nodup

theorem lookup_eq_none : lookup l name = none ↔ name ∉ l.map Prod.fst := by
  rw [lookup_none]
  refine ⟨fun h hmem => ?_, fun h c hc => h (List.mem_map.2 ⟨_, hc, rfl⟩)⟩
  obtain ⟨p, hp, rfl⟩ := List.mem_map.1 hmem
  exact h p.2 hp

theorem lookup_isSome : (lookup l name).isSome ↔ name ∈ l.map Prod.fst := by
  rw [← not_iff_not, ← lookup_eq_none, Bool.not_eq_true, Option.isSome_eq_false_iff, Option.isNone_iff_eq_none]

theorem Distinct.inserted (hi : Inserted (name, t) l l') : Distinct l' ↔ lookup l name = none ∧ Distinct l := by
  have hp := (hi.perm.map Prod.fst).nodup_iff
  rw [List.map_cons, List.nodup_cons] at hp
  rw [Distinct, Distinct, hp, lookup_eq_none]

/-! ## The invariant -/

structure DirOk (s : Jfs) (d : UInt32) (m : CStr → Option UInt32) : Prop where
  distinct : Distinct (entries s d)
  dense : (getInode s d).Dense
  lookup : ∀ n, lookup (entries s d) n = m n

structure Mapped (s : Jfs) (m : NameMap) : Prop where
  wf : Wf s
  dir : ∀ d, Known s d → (getInode s d).isDirectory = true → DirOk s d (m d)
  new : ∀ d, ¬ Known s d → ∀ n, m d n = none

variable {m : NameMap}

theorem Mapped.step (h : Mapped s m) (hd : Known s d) (hs : InodeStep s s' d) {v : CStr → Option UInt32}
    (hself : (getInode s' d).isDirectory = true → DirOk s' d v) : Mapped s' (update m d v) := by
  refine ⟨hs.wf, fun d' hd' hdir => ?_, fun d' hd' n => ?_⟩
  · by_cases hne : d' = d
    · subst hne
      rw [update_self]
      exact hself hdir
    · have hk := hs.known.1 hd'
      have hget := hs.inode d' hk hne
      rw [hget] at hdir
      have hok := h.dir d' hk hdir
      rw [update_of_ne hne]
      have hent := hs.entries_ne h.wf hd hk hne
      exact ⟨by rw [hent]; exact hok.distinct, by rw [hget]; exact hok.dense, by rw [hent]; exact hok.lookup⟩
  · have hne : d' ≠ d := by
      rintro rfl
      exact hd' (hs.known.2 hd)
    rw [update_of_ne hne]
    exact h.new d' (fun hk => hd' (hs.known.2 hk)) n

theorem Mapped.stepSame (h : Mapped s m) (hd : Known s d) (hs : InodeStep s s' d)
    (hself : (getInode s' d).isDirectory = true → DirOk s' d (m d)) : Mapped s' m := by
  have := h.step hd hs hself
  rwa [Function.update_eq_self] at this

theorem DirStep.isDirectory_eq (h : DirStep s s' d) : (getInode s' d).isDirectory = (getInode s d).isDirectory :=
  isDirectory_congr h.flags

theorem Mapped.added (h : Mapped s m) (hd : Known s d) (ha : Added s d name t r) (hr : r.2 = .ok ()) (ht : t ≠ 0)
    (hcut : name.cut = name) : Mapped r.1 (m.put d name (some t)) := by
  refine h.step hd ha.step.toInodeStep fun hdir => ?_
  rw [ha.step.isDirectory_eq] at hdir
  have hok := h.dir d hd hdir
  have hins := ha.ok hr ht
  rw [hcut] at hins
  have hfresh := ha.fresh hr
  refine ⟨(Distinct.inserted hins).2 ⟨hfresh, hok.distinct⟩, ha.dense hok.dense, fun n => ?_⟩
  by_cases hn : n = name
  · subst hn
    rw [update_self]
    exact lookup_inserted hins hfresh
  · rw [update_of_ne hn, (lookup_countP_of_inserted hins hn).1]
    exact hok.lookup n

theorem Mapped.notAdded (h : Mapped s m) (hd : Known s d) (ha : Added s d name t r) {e : Errno} (hr : r.2 = .error e) :
    Mapped r.1 m := by
  refine h.stepSame hd ha.step.toInodeStep fun hdir => ?_
  rw [ha.step.isDirectory_eq] at hdir
  have hok := h.dir d hd hdir
  have hent := ha.error e hr
  exact ⟨by rw [hent]; exact hok.distinct, ha.dense hok.dense, by rw [hent]; exact hok.lookup⟩

theorem Mapped.removed (h : Mapped s m) (hd : Known s d) (hr : Removed s d name (s', .ok c)) :
    Mapped s' (m.put d name none) := by
  refine h.step hd hr.step.toInodeStep fun hdir => ?_
  rw [hr.step.isDirectory_eq] at hdir
  have hok := h.dir d hd hdir
  have hins := (hr.ok c rfl).2.2
  obtain ⟨hnone, hdist⟩ := (Distinct.inserted hins).1 hok.distinct
  have hdense : (getInode s' d).Dense := (show getInode s' d = _ from hr.same) ▸ hok.dense
  refine ⟨hdist, hdense, fun n => ?_⟩
  by_cases hn : n = name
  · subst hn
    rw [update_self, hnone]
  · rw [update_of_ne hn, ← (lookup_countP_of_inserted hins hn).1]
    exact hok.lookup n

theorem Mapped.relinked (h : Mapped s m) (hc : Known s c) {n : UInt32} (hr : Relinked s s' c n) : Mapped s' m := by
  refine h.stepSame hc hr.step fun hdir => ?_
  rw [hr.inode] at hdir
  have hok := h.dir c hc hdir
  exact ⟨by rw [hr.entries]; exact hok.distinct, by rw [hr.inode]; exact hok.dense, by rw [hr.entries]; exact hok.lookup⟩

theorem Mapped.dropped (h : Mapped s m) (hc : Known s c) (hr : Dropped s s' c) : Mapped s' m := by
  by_cases hle : (getInode s c).nlink.toNat ≤ 1
  · obtain ⟨hs, hclear, -, -⟩ := hr.last hle
    refine h.stepSame hc hs fun hdir => ?_
    rw [hclear, cleared_isDirectory] at hdir
    cases hdir
  · exact h.relinked hc (hr.more (Nat.lt_of_not_le hle))

theorem Mapped.alloc (h : Mapped s m) (ha : Alloc s s') : Mapped s' m := by
  refine ⟨ha.wf, fun d hd hdir => ?_, fun d hd n => h.new d (fun hk => hd (ha.known.2 (.inl hk))) n⟩
  rcases ha.known.1 hd with hk | rfl
  · rw [ha.inode d hk] at hdir
    have hok := h.dir d hk hdir
    have hent := ha.entries_eq h.wf hk
    exact ⟨by rw [hent]; exact hok.distinct, by rw [ha.inode d hk]; exact hok.dense, by rw [hent]; exact hok.lookup⟩
  · refine ⟨by rw [ha.empty]; exact List.nodup_nil, ha.dense, fun n => ?_⟩
    rw [ha.empty, h.new s.nextInode (Nat.lt_irrefl _) n]
    rfl

theorem Mapped.unlinked (h : Mapped s m) (hd : Known s d) (hu : Unlinked s s' d name c s'') :
    Mapped s'' (m.put d name none) :=
  (h.removed hd hu.removed).dropped (hu.removed.step.known.2 (hu.removed.ok c rfl).2.1) hu.dropped

/-! ## Renaming -/

section Rename

variable {oldParent newParent : UInt32} {oldName newName : CStr}

theorem Mapped.congr {m' : NameMap} (h : Mapped s m') (hdir : ∀ d, (getInode s d).isDirectory = true → m d = m' d)
    (hnew : ∀ d, ¬ Known s d → m d = m' d) : Mapped s m where
  wf := h.wf
  dir := fun d hd hisdir => hdir d hisdir ▸ h.dir d hd hisdir
  new := fun d hd n => by rw [hnew d hd]; exact h.new d hd n

theorem Mapped.put_iff (hd : Known s d) (hfile : (getInode s d).isDirectory = false) {v : Option UInt32} :
    Mapped s (m.put d name v) ↔ Mapped s m := by
  have hdir : ∀ d', (getInode s d').isDirectory = true → m d' = m.put d name v d' := by
    intro d' hisdir
    rw [NameMap.put, update_of_ne]
    rintro rfl
    rw [hfile] at hisdir
    cases hisdir
  have hnew : ∀ d', ¬ Known s d' → m d' = m.put d name v d' := by
    intro d' hk
    rw [NameMap.put, update_of_ne]
    rintro rfl
    exact hk hd
  exact ⟨fun h => h.congr hdir hnew, fun h => h.congr (fun d' hd' => (hdir d' hd').symm) fun d' hk => (hnew d' hk).symm⟩

/-- Once the new name is free it is in no entry, and if an entry was taken away its place is free. -/
theorem Mapped.replaced (h : Mapped s m) (hd : Known s d) (hdir : (getInode s d).isDirectory = true)
    (hr : Replaced s d name s') : Mapped s' (m.put d name none) ∧ s'.nextInode = s.nextInode ∧
      ((getInode s' d).isDirectory = true → m d name = none ∨ ∃ e ∈ (getInode s' d).slots, e.inode s' = 0) := by
  rcases hr with ⟨rfl, hnone⟩ | ⟨s1, c, hu⟩
  · have hm : m d name = none := by rw [← (h.dir d hd hdir).lookup name, hnone]
    rw [NameMap.put_eq_self hm]
    exact ⟨h, rfl, fun _ => .inl hm⟩
  · refine ⟨h.unlinked hd hu, hu.dropped.step.next.trans hu.removed.step.next, fun hdir' => .inr ?_⟩
    obtain ⟨e, he, hfree⟩ := hu.removed.slot c rfl
    have hsame : getInode s1 d = getInode s d := hu.removed.same
    have hslots : (getInode s' d).slots = (getInode s d).slots := by
      by_cases hdc : d = c
      · subst hdc
        have hmore : 1 < (getInode s1 d).nlink.toNat := by
          by_contra hle
          rw [(hu.dropped.last (Nat.le_of_not_lt hle)).2.1, cleared_isDirectory] at hdir'
          cases hdir'
        rw [(hu.dropped.more hmore).inode, Inode.slots, hsame, Inode.slots]
      · rw [hu.dropped.step.inode d (hu.removed.step.known.2 hd) hdc, hsame]
    refine ⟨e, hslots ▸ he, ?_⟩
    rw [Slot.inode, hu.dropped.disk (hu.removed.step.taken (h.wf.slot_taken hd he))]
    exact hfree

/-- **Renaming** moves a name, or changes nothing. -/
theorem Mapped.renamed (h : Mapped s m) (ho : Known s oldParent) (hn : Known s newParent)
    (hmet : ∀ t, lookup (entries s oldParent) oldName = some t →
      ¬ (oldParent = newParent ∧ oldName = newName) ∧ newName.bytes.length ≤ 59) :
    Mapped (jfsRename s oldParent oldName newParent newName).1
      (match (jfsRename s oldParent oldName newParent newName).2 with
      | .ok () => (m.put oldParent oldName none).put newParent newName (m oldParent oldName)
      | .error _ => m) := by
  rcases rename_spec oldName newName h.wf ho hn with
    ⟨hs, e, he⟩ | ⟨t, s1, r1, hodir, hndir, hlookup, ht, hrep, hr1, hadd, ⟨e, herr, hr⟩ | ⟨hok, hres, r2, hrem, hr⟩⟩
  · rw [hs, he]
    exact h
  · -- the new name was free: had an entry been taken away, the new one would have found its place
    obtain ⟨hm1, hnext, hfree⟩ := h.replaced hn hndir hrep
    have hn1 : Known s1 newParent := by rw [Known, hnext]; exact hn
    have hm2 := hm1.notAdded hn1 hadd herr
    rw [hr, herr]
    by_cases hdir1 : (getInode s1 newParent).isDirectory = true
    · rcases hfree hdir1 with hnone | ⟨slot, hslot, hzero⟩
      · rwa [NameMap.put_eq_self hnone] at hm2
      · have hok1 := hm1.dir newParent hn1 hdir1
        have hnone : lookup (entries s1 newParent) newName = none := by rw [hok1.lookup, NameMap.put_self]
        have := addEntry_ok t hm1.wf hn1 hdir1 hok1.dense hnone hslot hzero
        rw [← hr1, herr] at this
        cases this
    · rw [Bool.not_eq_true] at hdir1
      rw [← hadd.step.isDirectory_eq] at hdir1
      exact (Mapped.put_iff (hadd.step.known.2 hn1) hdir1).1 hm2
  · obtain ⟨hsame, hlen⟩ := hmet t hlookup
    have hne : oldParent ≠ newParent ∨ oldName ≠ newName := not_and_or.1 hsame
    obtain ⟨hm1, hnext, -⟩ := h.replaced hn hndir hrep
    have hn1 : Known s1 newParent := by rw [Known, hnext]; exact hn
    have ho1 : Known r1.1 oldParent := hadd.step.known.2 (by rw [Known, hnext]; exact ho)
    have hmt : m oldParent oldName = some t := by rw [← (h.dir oldParent ho hodir).lookup, hlookup]
    have hm2 := hm1.added hn1 hadd hok (entry_ne_zero (mem_of_lookup hlookup)) (CStr.cut_of_le hlen)
    rw [NameMap.put_put] at hm2
    rw [hr, hres, hmt]
    simp only
    rw [NameMap.put_comm hne]
    rcases hres2 : r2.2 with e | c
    · -- the directory of the old name was replaced and is no directory any more
      obtain ⟨hsame2, hnone⟩ := hrem.error e hres2
      rw [hsame2]
      have hfile : (getInode r1.1 oldParent).isDirectory = false := by
        by_contra hdir
        rw [Bool.not_eq_false] at hdir
        have hl := (hm2.dir oldParent ho1 hdir).lookup oldName
        rw [lookup_none.2 hnone, NameMap.put_of_ne hne, hmt] at hl
        cases hl
      exact (Mapped.put_iff ho1 hfile).2 hm2
    · obtain ⟨s2, res⟩ := r2
      obtain rfl : res = .ok c := hres2
      exact hm2.removed ho1 hrem

end Rename

/-! ## Runs -/

structure Names where
  jfs : Jfs
  map : NameMap

def Names.record (t : Names) : NameOp → NameMap
  | .create parent name => t.map.put parent name (some t.jfs.nextInode)
  | .mkdir parent name => t.map.put parent name (some t.jfs.nextInode)
  | .link parent target name => t.map.put parent name (some target)
  | .unlink parent name => t.map.put parent name none
  | .rename oldParent oldName newParent newName =>
    (t.map.put oldParent oldName none).put newParent newName (t.map oldParent oldName)

def Names.step (t : Names) (op : NameOp) : Names where
  jfs := (t.jfs.perform op).1
  map :=
    match (t.jfs.perform op).2 with
    | .ok () => t.record op
    | .error _ => t.map

def NameOp.newName : NameOp → Option CStr
  | .create _ name => some name
  | .mkdir _ name => some name
  | .link _ _ name => some name
  | .unlink _ _ => none
  | .rename _ _ _ newName => some newName

/-- What `jfs_readdir` puts in the caller's entry: the name, or nothing where it returns 1. -/
def readName (s : Jfs) (d : UInt32) (k : Nat) : Except Errno (Option CStr) :=
  (jfsReaddir s d k).map (Option.map (Slot.name s))

/-- A directory is the map `m`: its names are listed one by one and then no more, they are those that are looked up
with success, and no two are the same. -/
structure IsMap (s : Jfs) (d : UInt32) (m : CStr → Option UInt32) : Prop where
  readdir : ∃ names : List CStr, names.Nodup ∧ (∀ n, n ∈ names ↔ (m n).isSome) ∧ ∀ k, readName s d k = .ok names[k]?
  finddir : ∀ n, jfsFinddir s d n = m n

def NamesOk (t : Names) : Prop :=
  ∀ d, Known t.jfs d → (getInode t.jfs d).isDirectory = true → IsMap t.jfs d (t.map d)

def Faithful (t : Names) (op : NameOp) : Prop :=
  ∀ n, op.newName = some n → 59 < n.bytes.length → Refused t.jfs (t.jfs.perform op)

/-- What keeps the maps right: in a directory, names that are added have at most 59 bytes, the root is not linked, and
no file is renamed onto itself. -/
def NamesMet (t : Names) (op : NameOp) : Prop :=
  op.Ready t.jfs ∧
    match op with
    | .create parent name => (getInode t.jfs parent).isDirectory = true → name.bytes.length ≤ 59
    | .mkdir parent name => (getInode t.jfs parent).isDirectory = true → name.bytes.length ≤ 59
    | .link parent target name => (getInode t.jfs parent).isDirectory = true → name.bytes.length ≤ 59 ∧ target ≠ 0
    | .unlink _ _ => True
    | .rename oldParent oldName newParent newName => ∀ c, lookup (entries t.jfs oldParent) oldName = some c →
        ¬ (oldParent = newParent ∧ oldName = newName) ∧ newName.bytes.length ≤ 59

theorem Mapped.isMap (h : Mapped s m) (hd : Known s d) (hdir : (getInode s d).isDirectory = true) : IsMap s d (m d) := by
  have hok := h.dir d hd hdir
  refine ⟨⟨(entries s d).map Prod.fst, hok.distinct, fun n => ?_, fun k => ?_⟩, fun n => ?_⟩
  · rw [← hok.lookup n, lookup_isSome]
  · rw [readName, jfsReaddir]
    simp only [if_pos hdir, entries, entriesOf, List.map_map, List.getElem?_map]
    rfl
  · rw [jfsFinddir_eq h.wf hd, hok.lookup n]

theorem Mapped.made (h : Mapped s m) (hp : Known s parent) (hm : Made s parent name r)
    (hlen : (getInode s parent).isDirectory = true → name.bytes.length ≤ 59) :
    Mapped r.1 (match r.2 with
      | .ok () => m.put parent name (some s.nextInode)
      | .error _ => m) := by
  rcases hm with ⟨hs, e, he⟩ | ⟨hdir, s', ha, hadd⟩
  · rw [hs, he]
    exact h
  · have h' := h.alloc ha
    have hp' : Known s' parent := ha.known.2 (.inl hp)
    have h0 : s.nextInode ≠ 0 := by
      intro h0
      have := h.wf.root
      rw [h0] at this
      exact Nat.lt_irrefl _ this
    rcases hres : r.2 with e | u
    · exact h'.notAdded hp' hadd hres
    · exact h'.added hp' hadd hres h0 (CStr.cut_of_le (hlen hdir))

theorem Mapped.linked (h : Mapped s m) (hp : Known s parent) (ht : Known s target)
    (hmet : (getInode s parent).isDirectory = true → name.bytes.length ≤ 59 ∧ target ≠ 0) :
    Mapped (jfsLink s parent target name).1 (match (jfsLink s parent target name).2 with
      | .ok () => m.put parent name (some target)
      | .error _ => m) := by
  rcases link_spec h.wf hp name ht with ⟨hs, e, he⟩ | ⟨hdir, s', r', hup, hadd, ⟨hok, hr⟩ | ⟨e, herr, hres, hdown⟩⟩
  · rw [hs, he]
    exact h
  · obtain ⟨hlen, h0⟩ := hmet hdir
    rw [hr, hok]
    exact (h.relinked ht hup).added (hup.step.known.2 hp) hadd hok h0 (CStr.cut_of_le hlen)
  · rw [hres]
    have h1 := (h.relinked ht hup).notAdded (hup.step.known.2 hp) hadd herr
    exact h1.relinked (hadd.step.known.2 (hup.step.known.2 ht)) hdown

theorem Mapped.perform {t : Names} (h : Mapped t.jfs t.map) (op : NameOp) (hm : NamesMet t op) :
    Mapped (t.step op).jfs (t.step op).map := by
  obtain ⟨hready, hm⟩ := hm
  cases op with
  | create parent name => exact h.made hready.1 (create_spec h.wf hready.1 hready.2) hm
  | mkdir parent name => exact h.made hready.1 (mkdir_spec h.wf hready.1 hready.2) hm
  | link parent target name => exact h.linked hready.1 hready.2 hm
  | unlink parent name =>
    rw [Names.step, Jfs.perform]
    rcases unlink_spec h.wf hready name with ⟨hs, e, he⟩ | ⟨s', c, hok, hu⟩
    · rw [he, hs]
      exact h
    · rw [hok]
      exact h.unlinked hready hu
  | rename oldParent oldName newParent newName => exact h.renamed hready.1 hready.2 hm

theorem faithful {t : Names} (h : Mapped t.jfs t.map) (op : NameOp) (hm : NamesMet t op) : Faithful t op := by
  obtain ⟨hready, hm⟩ := hm
  intro n hn hlen
  cases op with
  | create parent name =>
    obtain rfl : name = n := Option.some.inj hn
    rcases create_spec h.wf hready.1 hready.2 with href | ⟨hdir, -⟩
    · exact href
    · exact absurd (hm hdir) (Nat.not_le_of_lt hlen)
  | mkdir parent name =>
    obtain rfl : name = n := Option.some.inj hn
    rcases mkdir_spec h.wf hready.1 hready.2 with href | ⟨hdir, -⟩
    · exact href
    · exact absurd (hm hdir) (Nat.not_le_of_lt hlen)
  | link parent target name =>
    obtain rfl : name = n := Option.some.inj hn
    rcases link_spec h.wf hready.1 name hready.2 with href | ⟨hdir, -⟩
    · exact href
    · exact absurd (hm hdir).1 (Nat.not_le_of_lt hlen)
  | unlink parent name => cases hn
  | rename oldParent oldName newParent newName =>
    obtain rfl : newName = n := Option.some.inj hn
    rcases rename_spec oldName newName h.wf hready.1 hready.2 with href | ⟨t, -, -, -, -, hlookup, -⟩
    · exact href
    · exact absurd (hm t hlookup).2 (Nat.not_le_of_lt hlen)

/-- **Directories are finite maps** in every run that meets the condition. -/
theorem directories_are_maps (t : Names) (h : Mapped t.jfs t.map) (ops : List NameOp)
    (hm : Run.Guarded Names.step NamesMet t ops) :
    (∀ t' ∈ Run.states Names.step t ops, NamesOk t') ∧ Run.Guarded Names.step Faithful t ops := by
  have hstep : ∀ (t : Names) (op : NameOp), Mapped t.jfs t.map → NamesMet t op →
      Mapped (t.step op).jfs (t.step op).map ∧ Faithful t op := fun t op h hm => ⟨h.perform op hm, faithful h op hm⟩
  constructor
  · intro t' ht' d hd hdir
    exact (Run.states_forall (fun t op h hm => (hstep t op h hm).1) ops t h hm t' ht').isMap hd hdir
  · exact Run.guarded_imp hstep ops t h hm

def namesOf (s : Jfs) : NameMap := fun d n => if Known s d then lookup (entries s d) n else none

theorem mapped_namesOf (h : Wf s) (hdir : ∀ d, Known s d → (getInode s d).isDirectory = true →
    Distinct (entries s d) ∧ (getInode s d).Dense) : Mapped s (namesOf s) where
  wf := h
  dir := fun d hd hisdir => ⟨(hdir d hd hisdir).1, (hdir d hd hisdir).2, fun _ => (if_pos hd).symm⟩
  new := fun _ hd _ => if_neg hd

theorem newRoot_dense : newRoot.Dense := by
  intro i j hji hi
  obtain ⟨rfl, -⟩ := newRoot_blocks i hi
  rwa [Fin.le_zero_iff.1 hji]

def sampleDir : Names := ⟨oneName, namesOf oneName⟩

theorem sampleDir_mapped : Mapped sampleDir.jfs sampleDir.map := by
  have hall : entries oneName 0 = [(nameA, 1)] := by decide +kernel
  have hroot : getInode oneName 0 = newRoot := getInode_small_root
  refine mapped_namesOf (s := oneName) oneName_wf fun d hd hisdir => ?_
  rcases known_small.1 hd with rfl | rfl
  · rw [hall, hroot]
    exact ⟨List.nodup_singleton _, newRoot_dense⟩
  · exact absurd hisdir (by decide +kernel)

def sampleRenames : List NameOp := [.rename 0 nameA 0 nameB, .create 0 nameA]

theorem sample_directories : Mapped sampleDir.jfs sampleDir.map ∧
    Run.Guarded Names.step NamesMet sampleDir sampleRenames ∧
    (∀ t' ∈ Run.states Names.step sampleDir sampleRenames, NamesOk t') ∧
      Run.Guarded Names.step Faithful sampleDir sampleRenames := by
  have hm : Run.Guarded Names.step NamesMet sampleDir sampleRenames := by
    refine ⟨⟨⟨?_, ?_⟩, fun _ _ => ⟨?_, ?_⟩⟩, ⟨⟨?_, fun _ _ => ?_⟩, fun _ => ?_⟩, trivial⟩ <;> decide +kernel
  exact ⟨sampleDir_mapped, hm, directories_are_maps _ sampleDir_mapped _ hm⟩

def longName : CStr := ⟨List.replicate 60 97, by decide⟩

/-- A name of sixty bytes is stored cut, and the operation succeeds. -/
theorem long_name_is_cut : Mapped sampleDir.jfs sampleDir.map ∧
    ¬ Run.Guarded Names.step Faithful sampleDir [.create 0 longName] := by
  refine ⟨sampleDir_mapped, fun h => ?_⟩
  obtain ⟨-, e, he⟩ := h.1 longName rfl (by decide)
  have hok : (sampleDir.jfs.perform (.create 0 longName)).2 = .ok () := by decide +kernel
  rw [hok] at he
  cases he

end EterOS.Fs
