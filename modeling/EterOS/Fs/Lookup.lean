import EterOS.Fs.Vfs
import EterOS.Lib.Paths
/-!
# Lookup — what a path leads to

`vfs_lookup_ext` (`kernel/fs/vfs.c`) from any root.  A lookup goes by the components of its path, but for three things:
`/dev/tty` is not looked up, a component of 1024 bytes or more is refused, and a slash behind the slash that ends a
component refuses what is no directory.
-/
namespace EterOS.Fs

open List
open Paths (components)

variable {β : Type*}

def vfsLookupExt (w : Volumes β) (E : MountTable β) (root : VfsNode β) (path : CStr) : Option (VfsNode β) :=
  if path.bytes = devTty then some .tty
  else if path.bytes = [47] then some root
  else
    let p := if path.bytes.head? = some 47 then path.bytes.drop 1 else path.bytes
    if p = [] then some root else lookupLoop w E p.length p root

/-- Component by component: every one but the last has to be a directory. -/
def lookupComponents (w : Volumes β) (E : MountTable β) : VfsNode β → List (List UInt8) → Option (VfsNode β)
  | d, [] => some d
  | d, c :: cs =>
    match finddirFs w E d (CStr.ofBytes c) with
    | none => none
    | some n => if cs = [] then some n else if w.isDir n then lookupComponents w E n cs else none

variable {w : Volumes β} {E : MountTable β} {root d n : VfsNode β} {p : List UInt8} {c : List UInt8}

theorem segmentsOf_eq : ∀ (fuel : Nat) (p : List UInt8), 0 ∉ p → p.length ≤ fuel →
    (segmentsOf fuel p).map CStr.bytes = components 47 p
  | 0, p, _, hlen => by
    obtain rfl := length_eq_zero_iff.1 (Nat.le_zero.1 hlen)
    rfl
  | fuel + 1, p, h0, hlen => by
    rw [segmentsOf]
    by_cases hp : p = []
    · rw [if_pos hp, hp]
      rfl
    have hpos := length_pos_of_ne_nil hp
    have hsub : 0 ∉ (p.drop (p.takeWhile (· ≠ 47)).length).drop 1 := fun hmem => h0 (mem_of_mem_drop (mem_of_mem_drop hmem))
    have hrest : ((p.drop (p.takeWhile (· ≠ 47)).length).drop 1).length ≤ fuel := by
      rw [length_drop, length_drop]
      omega
    have hzero : 0 ∉ p.takeWhile (· ≠ 47) := fun hmem => h0 ((takeWhile_sublist _).subset hmem)
    rw [if_neg hp, Paths.components_first, ← segmentsOf_eq fuel _ hsub hrest]
    dsimp only
    split
    · rfl
    · rw [map_cons, ofBytes_bytes hzero]
      rfl

/-- Behind the first component a path has none, so there is a slash more at its end than the one that ends it. -/
theorem two_slashes {seg : List UInt8} {x : UInt8} {q : List UInt8} (h : components 47 (x :: q) = []) :
    [47, 47] <:+ seg ++ 47 :: x :: q := by
  have hall := Paths.eq_sep_of_components_nil h
  have hrep : 47 :: x :: q = List.replicate (q.length + 2) (47 : UInt8) := by
    refine eq_replicate_iff.2 ⟨by simp, fun y hy => ?_⟩
    rcases mem_cons.1 hy with rfl | hy
    · rfl
    · exact hall y hy
  rw [hrep, replicate_add]
  exact ⟨seg ++ List.replicate q.length 47, by simp⟩

/-- **The loop goes by the components**, where none is too long and a path with a slash too many at its end does not lead to
a file. -/
theorem lookupLoop_eq : ∀ (fuel : Nat) (p : List UInt8) (d : VfsNode β), 0 ∉ p → p.length ≤ fuel →
    (∀ c ∈ components 47 p, c.length ≤ 1023) →
    ([47, 47] <:+ p → ∀ n, components 47 p ≠ [] → lookupComponents w E d (components 47 p) = some n → w.isDir n = true) →
    lookupLoop w E fuel p d = lookupComponents w E d (components 47 p)
  | 0, p, d, _, hlen, _, _ => by
    obtain rfl := length_eq_zero_iff.1 (Nat.le_zero.1 hlen)
    rfl
  | fuel + 1, p, d, h0, hlen, hshort, hend => by
    rw [lookupLoop]
    by_cases hp : p = []
    · rw [if_pos hp, hp]
      rfl
    have hpos := length_pos_of_ne_nil hp
    have hfirst := Paths.components_first 47 p
    have hsplit : p = p.takeWhile (· ≠ 47) ++ p.drop (p.takeWhile (· ≠ 47)).length := by
      conv_lhs => rw [← take_append_drop (p.takeWhile (· ≠ 47)).length p]
      congr 1
      exact (prefix_iff_eq_take.1 (List.takeWhile_prefix _)).symm
    have hslash : ∀ y q, p.drop (p.takeWhile (· ≠ 47)).length = y :: q → y = 47 := by
      intro y q hy
      have hd := List.head?_dropWhile_not (fun y => decide (y ≠ 47)) p
      have hsame := hsplit.symm.trans (takeWhile_append_dropWhile (p := fun y => decide (y ≠ 47)) (l := p)).symm
      rw [← append_cancel_left hsame, hy] at hd
      simpa using hd
    rw [if_neg hp]
    dsimp only
    generalize hseg : p.takeWhile (· ≠ 47) = seg at hfirst hsplit hslash ⊢
    generalize hdrop : p.drop seg.length = d' at hfirst hsplit hslash ⊢
    have hsub : 0 ∉ d'.drop 1 := fun hmem => h0 (mem_of_mem_drop (hdrop ▸ mem_of_mem_drop hmem))
    have hrest : (d'.drop 1).length ≤ fuel := by
      rw [length_drop, ← hdrop, length_drop]
      omega
    have hsuffix : d'.drop 1 <:+ p := by
      rw [hsplit]
      exact (drop_suffix 1 d').trans (suffix_append seg d')
    by_cases hnil : seg = []
    · rw [hnil, if_neg (by decide), if_pos rfl]
      rw [if_pos hnil, nil_append] at hfirst
      rw [hfirst] at hshort hend ⊢
      exact lookupLoop_eq fuel _ d hsub hrest hshort fun hs n => hend (hs.trans hsuffix) n
    rw [if_neg hnil, singleton_append] at hfirst
    rw [hfirst] at hshort hend ⊢
    have hlong := hshort seg mem_cons_self
    rw [if_neg (by omega), if_neg hnil, lookupComponents]
    rw [lookupComponents] at hend
    cases hnext : finddirFs w E d (CStr.ofBytes seg) with
    | none => rfl
    | some next =>
      rw [hnext] at hend
      dsimp only at hend ⊢
      have hshort' : ∀ c ∈ components 47 (d'.drop 1), c.length ≤ 1023 := fun c hc => hshort c (mem_cons_of_mem _ hc)
      by_cases hlast : components 47 (d'.drop 1) = []
      · rw [if_pos hlast] at hend ⊢
        cases hr : d'.drop 1 with
        | nil =>
          rw [if_neg (by simp)]
          cases fuel with
          | zero => rfl
          | succ fuel => rw [lookupLoop, if_pos rfl]
        | cons x q =>
          -- more slashes: what is found has to be a directory
          obtain ⟨y, hy⟩ : ∃ y, d' = y :: x :: q := by
            cases d' with
            | nil => cases hr
            | cons y d => exact ⟨y, by rw [drop_one, tail_cons] at hr; rw [hr]⟩
          have hend' : [47, 47] <:+ p := by
            rw [hsplit, hy, hslash y _ hy]
            rw [hr] at hlast
            exact two_slashes hlast
          have hdir := hend hend' next (cons_ne_nil _ _) rfl
          rw [hdir, if_neg (by simp), ← hr, lookupLoop_eq fuel _ next hsub hrest hshort' fun _ n hne =>
            absurd hlast hne, hlast]
          rfl
      · rw [if_neg hlast] at hend ⊢
        have hne : d'.drop 1 ≠ [] := fun hc => hlast (by rw [hc]; rfl)
        cases hdir : w.isDir next with
        | false =>
          have hrefused : (!false && decide (d'.drop 1 ≠ [])) = true := decide_eq_true hne
          rw [if_pos hrefused, if_neg Bool.false_ne_true]
        | true =>
          rw [hdir, if_pos rfl] at hend
          rw [if_neg (by simp), if_pos rfl]
          exact lookupLoop_eq fuel _ next hsub hrest hshort' fun hs n _ => hend (hs.trans hsuffix) n (cons_ne_nil _ _)

def ByComponents (w : Volumes β) (E : MountTable β) (root : VfsNode β) (path : CStr) : Prop :=
  vfsLookupExt w E root path = lookupComponents w E root (components 47 path.bytes)

/-- What a path is looked up by its components for: it is not the one of the terminal, no component is refused for its
length, and if two slashes end it, it does not lead to a file. -/
structure Plain (w : Volumes β) (E : MountTable β) (root : VfsNode β) (path : CStr) : Prop where
  notTty : path.bytes ≠ devTty
  short : ∀ c ∈ components 47 path.bytes, c.length ≤ 1023
  ending : [47, 47] <:+ path.bytes → ∀ n, components 47 path.bytes ≠ [] →
    lookupComponents w E root (components 47 path.bytes) = some n → w.isDir n = true

theorem Plain.byComponents {path : CStr} (h : Plain w E root path) : ByComponents w E root path := by
  unfold ByComponents vfsLookupExt
  rw [if_neg h.notTty]
  by_cases hroot : path.bytes = [47]
  · rw [if_pos hroot, hroot]
    rfl
  rw [if_neg hroot]
  dsimp only
  obtain ⟨bytes, h0⟩ := path
  obtain ⟨-, hshort, hend⟩ := h
  dsimp only at hroot hshort hend ⊢
  have hloop : ∀ p, 0 ∉ p → components 47 p = components 47 bytes → p <:+ bytes →
      (if p = [] then some root else lookupLoop w E p.length p root) = lookupComponents w E root (components 47 bytes) := by
    intro p hp hsame hsuffix
    rw [← hsame] at hshort hend ⊢
    split
    · rename_i hnil
      rw [hnil]
      rfl
    · exact lookupLoop_eq p.length p root hp (Nat.le_refl _) hshort fun hs n => hend (hs.trans hsuffix) n
  split
  · rename_i habs
    obtain ⟨q, rfl⟩ : ∃ q, bytes = 47 :: q := by
      cases bytes with
      | nil => cases habs
      | cons x q => exact ⟨q, by rw [Option.some.inj habs]⟩
    exact hloop q (fun hmem => h0 (mem_cons_of_mem _ hmem)) (Paths.components_cons_sep q).symm (suffix_cons _ _)
  · exact hloop bytes h0 rfl (suffix_refl _)

/-- **A lookup depends only on the components** of such a path: two of the same components lead to the same. -/
theorem vfsLookupExt_components (w : Volumes β) (E : MountTable β) (root : VfsNode β) (path : CStr)
    (h : Plain w E root path) :
    ByComponents w E root path ∧
      ∀ other : CStr, Plain w E root other → components 47 other.bytes = components 47 path.bytes →
        vfsLookupExt w E root other = vfsLookupExt w E root path := by
  refine ⟨h.byComponents, fun other ho hsame => ?_⟩
  have hpath : vfsLookupExt w E root path = lookupComponents w E root (components 47 path.bytes) := h.byComponents
  have hother : vfsLookupExt w E root other = lookupComponents w E root (components 47 other.bytes) := ho.byComponents
  rw [hother, hsame, hpath]

def oneFileTree : Volumes Empty where
  initrd := { image := fun _ => 0, imageSize := 80, headers := [⟨⟨[102], by decide⟩, 0, 0⟩] }
  jfs := blankJfs
  other := { key := Empty.elim, isDir := Empty.elim, finddir := Empty.elim }

/-- `/f/` and `//f`. -/
theorem vfsLookupExt_slashes : vfsLookupExt oneFileTree [] (.initrd .root) ⟨[47, 47, 102], by decide⟩ =
    vfsLookupExt oneFileTree [] (.initrd .root) ⟨[47, 102, 47], by decide⟩ := by
  have hplain : Plain oneFileTree [] (.initrd .root) ⟨[47, 102, 47], by decide⟩ :=
    ⟨by decide, by decide, fun hs => absurd hs (by decide)⟩
  have hother : Plain oneFileTree [] (.initrd .root) ⟨[47, 47, 102], by decide⟩ :=
    ⟨by decide, by decide, fun hs => absurd hs (by decide)⟩
  exact (vfsLookupExt_components oneFileTree [] (.initrd .root) ⟨[47, 102, 47], by decide⟩ hplain).2 _ hother (by decide)

/-- `/dev/tty` is the terminal wherever it is asked for, and `/dev//tty` is looked up. -/
theorem tty_not_by_components :
    let tty : CStr := ⟨devTty, by decide⟩
    let other : CStr := ⟨[47, 100, 101, 118, 47, 47, 116, 116, 121], by decide⟩
    components 47 other.bytes = components 47 tty.bytes ∧
      (vfsLookupExt oneFileTree [] (.initrd .root) tty).isSome = true ∧
        (lookupComponents oneFileTree [] (.initrd .root) (components 47 tty.bytes)).isSome = false ∧
          (vfsLookupExt oneFileTree [] (.initrd .root) other).isSome = false := by
  decide +kernel

end EterOS.Fs
