import EterOS.Fs.Initrd
import EterOS.Fs.JfsSpace
import EterOS.Lib.Mounts
import Mathlib.Data.List.TakeWhile
/-!
# Vfs — paths and mounts

`vfs_lookup` and `vfs_mount` (`kernel/fs/vfs.c`) over the initrd at the root, JFS and any other filesystems.
`finddir_fs` knows a mount point by the inode and the impl of its node, and these are not told apart across filesystems;
the inode of a directory of the initrd is a hash.
-/
namespace EterOS.Fs

open List

structure Foreign (β : Type*) where
  /-- `inode` and `impl`. -/
  key : β → UInt32 × UInt32
  isDir : β → Bool
  finddir : β → CStr → Option β

structure Volumes (β : Type*) where
  initrd : Initrd
  jfs : Jfs
  other : Foreign β

inductive VfsNode (β : Type*) where
  | initrd (n : InitrdNode)
  | jfs (inode flags : UInt32)
  | tty
  | other (b : β)
deriving DecidableEq

variable {β : Type*}

namespace Volumes

variable (w : Volumes β)

/-- `inode` and `impl`: `jfs_make_node` leaves `impl` 0. -/
def key : VfsNode β → UInt32 × UInt32
  | .initrd n => n.key w.initrd
  | .jfs inode _ => (inode, 0)
  | .tty => (0, 0)
  | .other b => w.other.key b

def isDir : VfsNode β → Bool
  | .initrd n => n.isDir
  | .jfs _ flags => flags &&& 7 = fsDirectory
  | .tty => false
  | .other b => w.other.isDir b

def finddir : VfsNode β → CStr → Option (VfsNode β)
  | .initrd n, name => (initrdFinddir w.initrd n name).map .initrd
  | .jfs inode _, name => (jfsFinddir w.jfs inode name).map fun child => .jfs child (getInode w.jfs child).flags
  | .tty, _ => none
  | .other b, name => (w.other.finddir b name).map .other

def space : MountSpace (VfsNode β) (UInt32 × UInt32) CStr where
  root := .initrd .root
  key := w.key
  dir := w.isDir
  child := w.finddir

end Volumes

abbrev MountTable (β : Type*) := List (Mount (VfsNode β) (UInt32 × UInt32) CStr)

def finddirFs (w : Volumes β) (E : MountTable β) (node : VfsNode β) (name : CStr) : Option (VfsNode β) :=
  if w.isDir node then
    match w.finddir node name with
    | some ret =>
      match E.find? fun m => m.key = w.key ret with
      | some m => some m.fs
      | none => some ret
    | none => none
  else none

def lookupLoop (w : Volumes β) (E : MountTable β) : Nat → List UInt8 → VfsNode β → Option (VfsNode β)
  | 0, _, current => some current
  | fuel + 1, p, current =>
    if p = [] then some current
    else
      let segment := p.takeWhile fun c => c ≠ 47
      let p := (p.drop segment.length).drop 1
      if 1023 < segment.length then none
      else if segment = [] then lookupLoop w E fuel p current
      else
        match finddirFs w E current (CStr.ofBytes segment) with
        | none => none
        | some next => if !w.isDir next && p ≠ [] then none else lookupLoop w E fuel p next

def devTty : List UInt8 := [47, 100, 101, 118, 47, 116, 116, 121]

def vfsLookup (w : Volumes β) (E : MountTable β) (path : CStr) : Option (VfsNode β) :=
  if path.bytes = devTty then some .tty
  else
    let p := if path.bytes.head? = some 47 then path.bytes.drop 1 else path.bytes
    lookupLoop w E p.length p (.initrd .root)

def segmentsOf : Nat → List UInt8 → List CStr
  | 0, _ => []
  | fuel + 1, p =>
    if p = [] then []
    else
      let segment := p.takeWhile fun c => c ≠ 47
      let p := (p.drop segment.length).drop 1
      if segment = [] then segmentsOf fuel p else CStr.ofBytes segment :: segmentsOf fuel p

def segments (path : CStr) : List CStr := segmentsOf path.bytes.length path.bytes

def vfsMount (w : Volumes β) (E : MountTable β) (path : CStr) (fs : VfsNode β) : MountTable β :=
  match vfsLookup w E path with
  | none => E
  | some node => ⟨segments path, w.key node, fs⟩ :: E

def vfsMounts (w : Volumes β) (calls : List (CStr × VfsNode β)) : MountTable β :=
  calls.foldl (fun E call => vfsMount w E call.1 call.2) []

/-! ## Lookups are walks -/

structure Name (c : CStr) : Prop where
  nonempty : c.bytes ≠ []
  noSlash : 47 ∉ c.bytes
  short : c.bytes.length ≤ 1023

def spelled (names : List CStr) : List UInt8 := names.flatMap fun c => c.bytes ++ [47]

def pathOf (names : List CStr) : CStr where
  bytes := 47 :: 47 :: spelled names
  nonzero := by
    simp only [spelled, mem_cons, mem_flatMap, mem_append, not_mem_nil, or_false]
    rintro (h | h | ⟨c, -, h | h⟩)
    · cases h
    · cases h
    · exact c.nonzero h
    · cases h

variable {w : Volumes β} {E : MountTable β} {p : List UInt8} {q : List CStr} {cs : List CStr} {d n : VfsNode β}
  {c : CStr} {fuel : Nat}

theorem ofBytes_bytes {l : List UInt8} (h : 0 ∉ l) : (CStr.ofBytes l).bytes = l := takeWhile_eq_self_iff.2 fun c hc => by
    rw [decide_eq_true_iff]
    rintro rfl
    exact h hc

theorem ofBytes_self (c : CStr) : CStr.ofBytes c.bytes = c := by
  obtain ⟨bytes, h0⟩ := c
  rw [CStr.mk.injEq]
  exact ofBytes_bytes h0

theorem finddirFs_eq (w : Volumes β) (E : MountTable β) (q : List CStr) (d : VfsNode β) (c : CStr) :
    finddirFs w E d c = w.space.enter (fun _ n => w.space.byKey E n) q d c := by
  unfold finddirFs MountSpace.enter
  change _ = if w.isDir d = true then ((w.finddir d c).map fun n => ((w.space.byKey E n).map (·.fs)).getD n) else none
  split
  · cases w.finddir d c with
    | none => rfl
    | some n =>
      change (match w.space.byKey E n with
        | some m => some m.fs
        | none => some n) = some (((w.space.byKey E n).map (·.fs)).getD n)
      cases w.space.byKey E n <;> rfl
  · rfl

theorem walk_of_lookupLoop : ∀ (fuel : Nat) (p : List UInt8) (q : List CStr) (d : VfsNode β), 0 ∉ p →
    lookupLoop w E fuel p d = some n → p.length ≤ fuel →
    w.space.walk (fun _ n => w.space.byKey E n) q d (segmentsOf fuel p) = some n ∧ ∀ x ∈ segmentsOf fuel p, Name x
  | 0, p, q, d, _, h, _ => ⟨h, by simp [segmentsOf]⟩
  | fuel + 1, p, q, d, h0, h, hlen => by
    rw [lookupLoop] at h
    rw [segmentsOf]
    by_cases hp : p = []
    · rw [if_pos hp] at h ⊢
      exact ⟨h, by simp⟩
    rw [if_neg hp] at h ⊢
    simp only at h ⊢
    have hpos : 0 < p.length := length_pos_of_ne_nil hp
    have htake : (p.takeWhile fun c => c ≠ 47).length ≤ p.length := (takeWhile_sublist _).length_le
    generalize hseg : (p.takeWhile fun c => c ≠ 47) = segment at h htake ⊢
    have hsub : 0 ∉ (p.drop segment.length).drop 1 := fun hmem => h0 (mem_of_mem_drop (mem_of_mem_drop hmem))
    have hrest : ((p.drop segment.length).drop 1).length ≤ fuel := by
      rw [length_drop, length_drop]
      omega
    split at h
    · cases h
    rename_i hshort
    by_cases hnil : segment = []
    · rw [if_pos hnil] at h ⊢
      exact walk_of_lookupLoop fuel _ q d hsub h hrest
    rw [if_neg hnil] at h ⊢
    have hzero : 0 ∉ segment := fun hmem => h0 ((takeWhile_sublist _).subset (hseg ▸ hmem))
    cases hnext : finddirFs w E d (CStr.ofBytes segment) with
    | none =>
      rw [hnext] at h
      cases h
    | some next =>
      rw [hnext] at h
      simp only at h
      split at h
      · cases h
      obtain ⟨hwalk, hnames⟩ := walk_of_lookupLoop fuel _ (q ++ [CStr.ofBytes segment]) next hsub h hrest
      refine ⟨?_, fun x hx => ?_⟩
      · rw [MountSpace.walk, ← finddirFs_eq, hnext]
        exact hwalk
      · rcases mem_cons.1 hx with rfl | hx
        · refine ⟨by rwa [ofBytes_bytes hzero], fun hmem => ?_, by rw [ofBytes_bytes hzero]; omega⟩
          rw [ofBytes_bytes hzero, ← hseg] at hmem
          simpa using all_eq_true.1 all_takeWhile _ hmem
        · exact hnames x hx

theorem isDir_of_walk {pick : List CStr → VfsNode β → Option (Mount (VfsNode β) (UInt32 × UInt32) CStr)}
    (h : w.space.walk pick q d cs = some n) (hn : w.isDir n = true) : w.isDir d = true := by
  cases cs with
  | nil =>
    obtain rfl := Option.some.inj h
    exact hn
  | cons c cs =>
    rw [MountSpace.walk, MountSpace.enter] at h
    split at h
    · assumption
    · cases h

theorem lookupLoop_of_walk (hn : w.isDir n = true) : ∀ (fuel : Nat) (p : List UInt8) (q : List CStr) (d : VfsNode β),
    0 ∉ p → p.length ≤ fuel → (∀ x ∈ segmentsOf fuel p, Name x) →
    w.space.walk (fun _ n => w.space.byKey E n) q d (segmentsOf fuel p) = some n → lookupLoop w E fuel p d = some n
  | 0, p, q, d, _, _, _, h => h
  | fuel + 1, p, q, d, h0, hlen, hnames, h => by
    rw [segmentsOf] at h hnames
    rw [lookupLoop]
    by_cases hp : p = []
    · rw [if_pos hp] at h ⊢
      exact h
    rw [if_neg hp] at h hnames ⊢
    simp only at h hnames ⊢
    have hpos : 0 < p.length := length_pos_of_ne_nil hp
    generalize hseg : (p.takeWhile fun c => c ≠ 47) = segment at h hnames ⊢
    have hsub : 0 ∉ (p.drop segment.length).drop 1 := fun hmem => h0 (mem_of_mem_drop (mem_of_mem_drop hmem))
    have hrest : ((p.drop segment.length).drop 1).length ≤ fuel := by
      rw [length_drop, length_drop]
      omega
    have hzero : 0 ∉ segment := fun hmem => h0 ((takeWhile_sublist _).subset (hseg ▸ hmem))
    by_cases hnil : segment = []
    · rw [if_pos hnil] at h hnames ⊢
      rw [hnil, if_neg (by simp)]
      rw [hnil] at h hnames hsub hrest
      exact lookupLoop_of_walk hn fuel _ q d hsub hrest hnames h
    rw [if_neg hnil] at h hnames ⊢
    have hshort := (hnames _ mem_cons_self).short
    rw [ofBytes_bytes hzero] at hshort
    rw [if_neg (by omega)]
    rw [MountSpace.walk, ← finddirFs_eq] at h
    cases hnext : finddirFs w E d (CStr.ofBytes segment) with
    | none =>
      rw [hnext] at h
      cases h
    | some next =>
      rw [hnext, Option.bind_some] at h
      simp only
      rw [isDir_of_walk h hn, if_neg (by simp)]
      exact lookupLoop_of_walk hn fuel _ _ next hsub hrest (fun x hx => hnames x (mem_cons_of_mem _ hx)) h

theorem spelled_cons (c : CStr) (names : List CStr) : spelled (c :: names) = c.bytes ++ 47 :: spelled names := by
  rw [spelled, flatMap_cons, append_assoc]
  rfl

theorem segmentsOf_spelled : ∀ (names : List CStr) (fuel : Nat), (∀ x ∈ names, Name x) →
    (spelled names).length ≤ fuel → segmentsOf fuel (spelled names) = names
  | [], fuel, _, _ => by cases fuel <;> simp [spelled, segmentsOf]
  | c :: names, fuel, hnames, hlen => by
    have hc := hnames c mem_cons_self
    have hpos : 0 < c.bytes.length := length_pos_of_ne_nil hc.nonempty
    rw [spelled_cons] at hlen ⊢
    rw [length_append, length_cons] at hlen
    cases fuel with
    | zero => omega
    | succ fuel =>
    have htake : ((c.bytes ++ 47 :: spelled names).takeWhile fun x => x ≠ 47) = c.bytes := by
      rw [takeWhile_append_of_pos, takeWhile_cons_of_neg (by simp), append_nil]
      intro x hx
      rw [decide_eq_true_iff]
      rintro rfl
      exact hc.noSlash hx
    have hname : CStr.ofBytes c.bytes = c := by
      have hbytes := ofBytes_bytes c.nonzero
      cases c
      simpa [CStr.ofBytes] using hbytes
    rw [segmentsOf, if_neg (by simp)]
    simp only [htake]
    rw [if_neg hc.nonempty, drop_left, drop_one, tail_cons, hname,
      segmentsOf_spelled names fuel (fun x hx => hnames x (mem_cons_of_mem _ hx)) (by omega)]

theorem segmentsOf_slash (p : List UInt8) (fuel : Nat) : segmentsOf (fuel + 1) (47 :: p) = segmentsOf fuel p := by
  rw [segmentsOf, if_neg (by simp)]
  simp

theorem segments_pathOf {names : List CStr} (h : ∀ x ∈ names, Name x) : segments (pathOf names) = names := by
  rw [segments, pathOf]
  simp only [length_cons]
  rw [segmentsOf_slash, segmentsOf_slash, segmentsOf_spelled names _ h (Nat.le_refl _)]

theorem vfsLookup_eq {P : CStr} (habs : P.bytes.head? = some 47) (htty : P.bytes ≠ devTty) :
    ∃ p, P.bytes = 47 :: p ∧ vfsLookup w E P = lookupLoop w E p.length p (.initrd .root) ∧
    segments P = segmentsOf p.length p := by
  obtain ⟨bytes, h0⟩ := P
  cases bytes with
  | nil => cases habs
  | cons b p =>
    obtain rfl := Option.some.inj habs
    refine ⟨p, rfl, ?_, ?_⟩
    · rw [vfsLookup, if_neg htty]
      rfl
    · rw [segments, length_cons, segmentsOf_slash]

/-! ## Transparency -/

/-- Wherever a lookup of a path has come to a directory, what it has of a name there is replaced by the root of a mount
just where that path and the name are the path of the mount. -/
def Transparent (w : Volumes β) (E : MountTable β) : Prop :=
  ∀ (path : CStr) (name : CStr) (dir node : VfsNode β), path.bytes.head? = some 47 → Name name →
    vfsLookup w E path = some dir → w.isDir dir = true → w.finddir dir name = some node →
    (∀ m, (E.find? fun m => m.key = w.key node) = some m → m.path = segments path ++ [name]) ∧
    (segments path ++ [name] ∈ E.map (·.path) → (E.find? fun m => m.key = w.key node).isSome)

/-- In the namespace the mounts give by their paths, the inode and the impl of what is at a path are those of the last
mount with them only if that was made at the path, and of some mount if one was. -/
def KeysTell (w : Volumes β) (E : MountTable β) : Prop :=
  w.space.Meets Name (w.space.byPath E) fun path node =>
    (∀ m, (E.find? fun m => m.key = w.key node) = some m → m.path = path) ∧
    (path ∈ E.map (·.path) → (E.find? fun m => m.key = w.key node).isSome)

theorem transparent_iff (w : Volumes β) (E : MountTable β) : Transparent w E ↔ KeysTell w E := by
  refine Iff.trans ?_ MountSpace.told_iff
  constructor
  · intro h p c d n hp hc hw hd hn
    have hne : (pathOf p).bytes ≠ devTty := by
      intro heq
      have := congrArg (fun l => l[1]?) heq
      simp [pathOf, devTty] at this
    obtain ⟨p', hbytes, hlookup, hsegs⟩ := vfsLookup_eq (w := w) (E := E) (P := pathOf p) rfl hne
    have hseg := segments_pathOf hp
    have hfound : vfsLookup w E (pathOf p) = some d := by
      rw [hlookup]
      refine lookupLoop_of_walk hd p'.length p' [] _ (fun h0 => (pathOf p).nonzero ?_) (Nat.le_refl _) ?_ ?_
      · rw [hbytes]
        exact mem_cons_of_mem _ h0
      · rw [← hsegs, hseg]
        exact hp
      · rw [← hsegs, hseg]
        exact hw
    have htold := h (pathOf p) c d n rfl hc hfound hd hn
    rw [hseg] at htold
    exact htold
  · intro h P c d n habs hc hw hd hn
    have hne : P.bytes ≠ devTty := by
      intro heq
      rw [vfsLookup, if_pos heq] at hw
      obtain rfl := Option.some.inj hw
      cases hd
    obtain ⟨p, hbytes, hlookup, hsegs⟩ := vfsLookup_eq (w := w) (E := E) habs hne
    have h0 : 0 ∉ p := fun hmem => P.nonzero (by rw [hbytes]; exact mem_cons_of_mem _ hmem)
    obtain ⟨hwalk, hnames⟩ := walk_of_lookupLoop p.length p [] _ h0 (hlookup ▸ hw) (Nat.le_refl _)
    rw [← hsegs] at hwalk hnames
    exact h (segments P) c d n hnames hc hwalk hd hn

/-- **Mount transparency**: after any calls of `vfs_mount`, every lookup keeps to the paths of the mounts just when the
inodes and impls tell the mount points apart. -/
theorem mounts_are_transparent (w : Volumes β) (calls : List (CStr × VfsNode β)) :
    Transparent w (vfsMounts w calls) ↔ KeysTell w (vfsMounts w calls) := transparent_iff w _

def nameAb : CStr := ⟨[97, 98], by decide⟩
def nameBA : CStr := ⟨[98, 65], by decide⟩

def twoDirs : Volumes Empty where
  initrd :=
    { image := fun _ => 0, imageSize := 152
      headers := [⟨⟨[97, 98, 47, 120], by decide⟩, 0, 0⟩, ⟨⟨[98, 65, 47, 121], by decide⟩, 0, 0⟩] }
  jfs := blankJfs
  other := { key := Empty.elim, isDir := Empty.elim, finddir := Empty.elim }

def jfsAtAb : MountTable Empty := vfsMounts twoDirs [(⟨[47, 97, 98], by decide⟩, .jfs 0 fsDirectory)]

/-- The other directory is replaced by its root as well. -/
theorem hash_collides : vfsLookup twoDirs jfsAtAb ⟨[47, 98, 65], by decide⟩ = some (.jfs 0 fsDirectory) ∧
    ¬ Transparent twoDirs jfsAtAb := by
  refine ⟨by decide +kernel, fun h => ?_⟩
  have htold := h ⟨[47], by decide⟩ nameBA (.initrd .root) (.initrd (.dir nameBA)) rfl
    ⟨by decide, by decide, by decide⟩ rfl rfl (by decide +kernel)
  obtain ⟨m, hm⟩ : ∃ m, (jfsAtAb.find? fun m => m.key = twoDirs.key (.initrd (.dir nameBA))) = some m :=
    Option.isSome_iff_exists.1 (by decide +kernel)
  have hpath : m.path = [nameAb] := by
    have hall : (jfsAtAb.all fun m => m.path = [nameAb]) = true := by decide +kernel
    exact of_decide_eq_true (all_eq_true.1 hall m (mem_of_find?_eq_some hm))
  have heq := htold.1 m hm
  rw [hpath] at heq
  revert heq
  decide +kernel

end EterOS.Fs
