import EterOS.Fs.Vfs
import EterOS.Lib.Paths
/-!
# InitrdTree — the directories of the initrd

`initialise_initrd`, `initrd_readdir` and `initrd_finddir` (`kernel/fs/initrd.c`).  A directory is only what names begin
with: listing one goes over all names and leaves out what was listed, and looking in it puts the path together again.  What
is listed is what is found, whatever the names; a file is found by the components of its name where the names are proper.
-/
namespace EterOS.Fs

open List
open Paths (components joined Proper)

/-! ## The functions -/

def headerAt (image : Buffer) (i : Nat) : InitrdHeader where
  name := CStr.ofBytes ((List.range 64).map fun k => image (8 + 72 * i + k))
  size := image.get32 (8 + 72 * i + 64)
  offset := image.get32 (8 + 72 * i + 68)

/-- `initialise_initrd` of an image that starts with `INIT` and has room for its headers; memory for the root's node is
taken to be there. -/
def initialiseInitrd (startAddr : UInt64) (size : UInt32) (image : Buffer) : Option Initrd :=
  if startAddr = 0 ∨ size = 0 then none
  else if size.toNat < 8 then none
  else if [image 0, image 1, image 2, image 3] ≠ [73, 78, 73, 84] then none
  else
    let fileCount := (image.get32 4).toNat
    if size.toNat < 8 + fileCount * 72 then none
    else some ⟨image, size, (List.range fileCount).map (headerAt image)⟩

def initrdDirPrefix : InitrdNode → Option CStr
  | .root => some ⟨[], not_mem_nil⟩
  | .dir path => some path
  | .file _ => none

def initrdExtractChild (full pre : CStr) (outSz : Nat) : Option CStr :=
  if pre.bytes = [] ∨ (pre.bytes ++ [47]).isPrefixOf full.bytes then
    let rem := if pre.bytes = [] then full.bytes else full.bytes.drop (pre.bytes.length + 1)
    let child := rem.takeWhile (· ≠ 47)
    if child = [] ∨ outSz ≤ child.length then none else some (CStr.ofBytes child)
  else none

/-- The child of a directory that the name of header `i` goes through. -/
def childOf (x : Initrd) (pre : CStr) (i : Nat) : Option CStr :=
  x.headers[i]?.bind fun h => initrdExtractChild h.name pre 128

/-- The entry of header `i`: its child, unless a header before it has the same, and the header's number for an inode. -/
def headerEntry (x : Initrd) (pre : CStr) (i : Nat) : Option (CStr × UInt32) :=
  match childOf x pre i with
  | none => none
  | some child => if (List.range i).any fun j => childOf x pre j = some child then none else some (child, UInt32.ofNat i)

/-- The entries that `initrd_readdir` counts. -/
def initrdEntries (x : Initrd) (pre : CStr) : List (CStr × UInt32) :=
  (List.range x.headers.length).filterMap (headerEntry x pre)

def initrdReaddir (x : Initrd) (node : InitrdNode) (index : Nat) : Option (CStr × UInt32) :=
  match initrdDirPrefix node with
  | none => none
  | some pre => (initrdEntries x pre)[index]?

def InitrdNode.length (x : Initrd) : InitrdNode → UInt32
  | .file i => (x.headers[i]?.map InitrdHeader.size).getD 0
  | _ => 0

/-! ## What they are about -/

inductive Reached (x : Initrd) : InitrdNode → Prop
  | root : Reached x .root
  | step {node next : InitrdNode} {name : CStr} : Reached x node → initrdFinddir x node name = some next → Reached x next

def Listed (x : Initrd) (node : InitrdNode) (name : CStr) : Prop := ∃ i e, initrdReaddir x node i = some e ∧ e.1 = name

structure ProperNames (x : Initrd) : Prop where
  proper : ∀ h ∈ x.headers, Proper 47 h.name.bytes
  apart : ∀ h ∈ x.headers, ∀ h' ∈ x.headers, ¬ h.name.bytes ++ [47] <+: h'.name.bytes

/-- Every name that a directory lists is listed once and found in it, nothing else that is a name is found, and the first
file of every name is found by its components and has its size. -/
structure TreeOk (x : Initrd) : Prop where
  once : ∀ node, Reached x node → ∀ i j e e', initrdReaddir x node i = some e → initrdReaddir x node j = some e' →
    e.1 = e'.1 → i = j
  found : ∀ node, Reached x node → ∀ name, Listed x node name → (initrdFinddir x node name).isSome
  only : ∀ node, Reached x node → ∀ name : CStr, 47 ∉ name.bytes → (initrdFinddir x node name).isSome → Listed x node name
  files : ∀ k (hk : k < x.headers.length), (∀ j (hj : j < k), x.headers[j].name ≠ x.headers[k].name) →
    ((components 47 x.headers[k].name.bytes).map CStr.ofBytes).foldlM (initrdFinddir x) .root = some (.file k) ∧
      (InitrdNode.file k).length x = x.headers[k].size

variable {x : Initrd} {node next : InitrdNode} {pre name full c : CStr} {i j k : Nat}

/-! ## Paths -/

def within (pre name : CStr) : CStr where
  bytes := if pre.bytes = [] then name.bytes else pre.bytes ++ 47 :: name.bytes
  nonzero := by
    split
    · exact name.nonzero
    · rw [mem_append, mem_cons]
      rintro (h | h | h)
      · exact pre.nonzero h
      · cases h
      · exact name.nonzero h

theorem within_root (hpre : pre.bytes = []) : (within pre name).bytes = name.bytes := if_pos hpre

theorem within_dir (hpre : pre.bytes ≠ []) : (within pre name).bytes = pre.bytes ++ 47 :: name.bytes := if_neg hpre

theorem cstr_inj : full = name ↔ full.bytes = name.bytes := by
  obtain ⟨bytes, h0⟩ := full
  obtain ⟨bytes', h0'⟩ := name
  rw [CStr.mk.injEq]

def atPath (x : Initrd) (path : CStr) : Option InitrdNode :=
  match x.headers.findIdx? fun h => h.name = path with
  | some i => some (.file i)
  | none => if x.headers.any fun h => (path.bytes ++ [47]).isPrefixOf h.name.bytes then some (.dir path) else none

def NamesFit (x : Initrd) : Prop := ∀ h ∈ x.headers, h.name.bytes.length ≤ 64

theorem initialise_fit {startAddr : UInt64} {size : UInt32} {image : Buffer}
    (h : initialiseInitrd startAddr size image = some x) :
    NamesFit x := by
  unfold initialiseInitrd at h
  split at h
  · cases h
  split at h
  · cases h
  split at h
  · cases h
  dsimp only at h
  split at h
  · cases h
  obtain rfl := Option.some.inj h
  intro header hmem
  obtain ⟨i, -, rfl⟩ := mem_map.1 hmem
  unfold headerAt CStr.ofBytes
  refine Nat.le_trans (takeWhile_sublist _).length_le ?_
  rw [length_map, length_range]

theorem atPath_isSome : (atPath x name).isSome ↔ ∃ h ∈ x.headers, h.name = name ∨ name.bytes ++ [47] <+: h.name.bytes := by
  unfold atPath
  cases hidx : x.headers.findIdx? fun h => h.name = name with
  | some i =>
    obtain ⟨hi, hname, -⟩ := List.findIdx?_eq_some_iff_getElem.1 hidx
    exact ⟨fun _ => ⟨x.headers[i], getElem_mem hi, .inl (of_decide_eq_true hname)⟩, fun _ => rfl⟩
  | none =>
    rw [List.findIdx?_eq_none_iff] at hidx
    have hdir : (∃ h ∈ x.headers, h.name = name ∨ name.bytes ++ [47] <+: h.name.bytes) ↔
        (x.headers.any fun h => (name.bytes ++ [47]).isPrefixOf h.name.bytes) = true := by
      rw [any_eq_true]
      constructor
      · rintro ⟨h, hmem, heq | hpre⟩
        · exact absurd heq (of_decide_eq_false (hidx h hmem))
        · exact ⟨h, hmem, List.isPrefixOf_iff_prefix.2 hpre⟩
      · rintro ⟨h, hmem, hpre⟩
        exact ⟨h, hmem, .inr (List.isPrefixOf_iff_prefix.1 hpre)⟩
    rw [hdir]
    dsimp only
    split
    · rename_i hany
      exact ⟨fun _ => hany, fun _ => rfl⟩
    · rename_i hany
      exact ⟨fun h => absurd h (by simp), fun h => absurd h hany⟩

theorem atPath_long (hfit : NamesFit x) (hlong : 64 < name.bytes.length) : atPath x name = none := by
  rw [← Option.not_isSome_iff_eq_none, atPath_isSome]
  rintro ⟨h, hmem, rfl | hpre⟩
  · exact absurd (hfit h hmem) (by omega)
  · have hlen := hpre.length_le
    have hmax := hfit h hmem
    rw [length_append] at hlen
    omega

def Pathed (node : InitrdNode) : Prop := ∀ path, node = .dir path → path.bytes ≠ []

/-- **Looking in a directory** is looking at the path: that it is cut at 255 bytes makes no difference. -/
theorem finddir_eq (hfit : NamesFit x) (hpath : Pathed node) (hpre : initrdDirPrefix node = some pre) :
    initrdFinddir x node name = if name.bytes = [] then none else atPath x (within pre name) := by
  have htarget : initrdTarget node name = some (CStr.ofBytes ((within pre name).bytes.take 255)) := by
    cases node with
    | root =>
      obtain rfl := Option.some.inj hpre
      rfl
    | dir path =>
      obtain rfl := Option.some.inj hpre
      unfold initrdTarget within
      dsimp only
      rw [if_neg (hpath _ rfl), append_assoc, singleton_append]
    | file i => cases hpre
  have hbytes : (CStr.ofBytes ((within pre name).bytes.take 255)).bytes = (within pre name).bytes.take 255 :=
    ofBytes_bytes fun hmem => (within pre name).nonzero (mem_of_mem_take hmem)
  have hsame : atPath x (CStr.ofBytes ((within pre name).bytes.take 255)) = atPath x (within pre name) := by
    by_cases hlong : (within pre name).bytes.length ≤ 255
    · rw [take_of_length_le hlong, ofBytes_self]
    · have hnone : atPath x (within pre name) = none := atPath_long hfit (by omega)
      rw [hnone, atPath_long hfit]
      rw [hbytes, length_take]
      omega
  unfold initrdFinddir
  rw [htarget]
  dsimp only
  split
  · rfl
  · exact hsame

/-! ## Listing -/

/-- **The child of a name**: the name is at the child's path, or below it. -/
theorem extractChild_iff (hlen : full.bytes.length ≤ 64) : initrdExtractChild full pre 128 = some c ↔
    c.bytes ≠ [] ∧ 47 ∉ c.bytes ∧ (full = within pre c ∨ (within pre c).bytes ++ [47] <+: full.bytes) := by
  have hrem : ∀ rem : List UInt8, rem.length ≤ 64 → 0 ∉ rem →
      ((if rem.takeWhile (· ≠ 47) = [] ∨ 128 ≤ (rem.takeWhile (· ≠ 47)).length then none
        else some (CStr.ofBytes (rem.takeWhile (· ≠ 47)))) = some c ↔
        c.bytes ≠ [] ∧ 47 ∉ c.bytes ∧ (rem = c.bytes ∨ c.bytes ++ [47] <+: rem)) := by
    intro rem hrem h0
    rw [← Paths.takeWhile_eq_iff]
    have hshort := (takeWhile_sublist (fun x : UInt8 => decide (x ≠ 47)) (l := rem)).length_le
    have hzero : 0 ∉ rem.takeWhile (· ≠ 47) := fun hmem => h0 ((takeWhile_sublist _).subset hmem)
    generalize rem.takeWhile (· ≠ 47) = child at hshort hzero ⊢
    have hchild : CStr.ofBytes child = c ↔ child = c.bytes := by
      constructor
      · rintro rfl
        exact (ofBytes_bytes hzero).symm
      · rintro rfl
        exact ofBytes_self c
    by_cases hnil : child = []
    · rw [if_pos (.inl hnil)]
      constructor
      · intro h
        cases h
      · rintro ⟨hne, heq⟩
        exact absurd (heq ▸ hnil) hne
    · rw [if_neg (not_or.2 ⟨hnil, by omega⟩), Option.some.injEq, hchild]
      exact ⟨fun h => ⟨h ▸ hnil, h⟩, fun h => h.2⟩
  unfold initrdExtractChild
  by_cases hpre : pre.bytes = []
  · rw [if_pos (.inl hpre), if_pos hpre, cstr_inj, within_root hpre]
    exact hrem full.bytes hlen full.nonzero
  · rw [cstr_inj, within_dir hpre]
    by_cases hin : pre.bytes ++ [47] <+: full.bytes
    · obtain ⟨rem, hfull⟩ := hin
      have hdrop : full.bytes.drop (pre.bytes.length + 1) = rem := by
        rw [← hfull, ← length_singleton (a := (47 : UInt8)), ← length_append, drop_left]
      have hlist : pre.bytes ++ 47 :: c.bytes = pre.bytes ++ [47] ++ c.bytes := by simp
      rw [if_pos (.inr (List.isPrefixOf_iff_prefix.2 ⟨rem, hfull⟩)), if_neg hpre, hdrop, ← hfull, hlist,
        append_cancel_left_eq, append_assoc _ c.bytes, prefix_append_right_inj]
      refine hrem rem ?_ fun hmem => full.nonzero ?_
      · rw [← hfull, length_append] at hlen
        omega
      · rw [← hfull]
        exact mem_append_right _ hmem
    · rw [if_neg (not_or.2 ⟨hpre, fun h => hin (List.isPrefixOf_iff_prefix.1 h)⟩)]
      constructor
      · intro h
        cases h
      · rintro ⟨-, -, heq | ⟨q, hq⟩⟩
        · exact absurd ⟨c.bytes, by rw [heq]; simp⟩ hin
        · exact absurd ⟨c.bytes ++ [47] ++ q, by rw [← hq]; simp⟩ hin

theorem childOf_eq (hi : i < x.headers.length) : childOf x pre i = initrdExtractChild x.headers[i].name pre 128 := by
  unfold childOf
  rw [List.getElem?_eq_getElem hi]
  rfl

theorem childOf_lt (h : childOf x pre i = some c) : i < x.headers.length := by
  by_contra hc
  unfold childOf at h
  rw [List.getElem?_eq_none (Nat.le_of_not_lt hc)] at h
  cases h

theorem child_iff (hfit : NamesFit x) :
    (∃ i, childOf x pre i = some c) ↔ c.bytes ≠ [] ∧ 47 ∉ c.bytes ∧ (atPath x (within pre c)).isSome := by
  rw [atPath_isSome]
  constructor
  · rintro ⟨i, hi⟩
    have hlt := childOf_lt hi
    rw [childOf_eq hlt, extractChild_iff (hfit _ (getElem_mem hlt))] at hi
    exact ⟨hi.1, hi.2.1, x.headers[i], getElem_mem hlt, hi.2.2⟩
  · rintro ⟨hne, hslash, h, hmem, hat⟩
    obtain ⟨i, hi, rfl⟩ := getElem_of_mem hmem
    exact ⟨i, by rw [childOf_eq hi, extractChild_iff (hfit _ hmem)]; exact ⟨hne, hslash, hat⟩⟩

theorem headerEntry_eq_some {e : CStr × UInt32} : headerEntry x pre i = some e ↔
    childOf x pre i = some e.1 ∧ (∀ j < i, childOf x pre j ≠ some e.1) ∧ e.2 = UInt32.ofNat i := by
  unfold headerEntry
  cases hc : childOf x pre i with
  | none => simp
  | some child =>
    have hany : ((List.range i).any fun j => childOf x pre j = some child) = true ↔ ∃ j < i,
        childOf x pre j = some child := by
      simp
    dsimp only
    split
    · rename_i h
      obtain ⟨j, hj, heq⟩ := hany.1 h
      refine ⟨nofun, fun ⟨hchild, hfirst, _⟩ => absurd heq ?_⟩
      rw [Option.some.inj hchild]
      exact hfirst j hj
    · rename_i h
      have hfirst : ∀ j < i, childOf x pre j ≠ some child := fun j hj heq => h (hany.2 ⟨j, hj, heq⟩)
      constructor
      · intro he
        obtain rfl := Option.some.inj he
        exact ⟨rfl, hfirst, rfl⟩
      · rintro ⟨hchild, -, hino⟩
        rw [Option.some.inj hchild, ← hino]

theorem name_mem_entries : (∃ e ∈ initrdEntries x pre, e.1 = c) ↔ ∃ i, childOf x pre i = some c := by
  constructor
  · rintro ⟨e, he, rfl⟩
    obtain ⟨i, -, hi⟩ := mem_filterMap.1 he
    exact ⟨i, (headerEntry_eq_some.1 hi).1⟩
  · intro h
    -- the first of them is listed
    have hspec := Nat.find_spec h
    refine ⟨(c, UInt32.ofNat (Nat.find h)), mem_filterMap.2 ⟨Nat.find h, mem_range.2 (childOf_lt hspec), ?_⟩, rfl⟩
    exact headerEntry_eq_some.2 ⟨hspec, fun j hj => Nat.find_min h hj, rfl⟩

theorem entries_nodup (x : Initrd) (pre : CStr) : ((initrdEntries x pre).map Prod.fst).Nodup := by
  unfold initrdEntries
  rw [map_filterMap, List.Nodup, pairwise_filterMap]
  refine pairwise_lt_range.imp fun {i j} hij c hc c' hc' heq => ?_
  obtain ⟨e, he, rfl⟩ := Option.map_eq_some_iff.1 hc
  obtain ⟨e', he', rfl⟩ := Option.map_eq_some_iff.1 hc'
  exact (headerEntry_eq_some.1 he').2.1 i hij (heq ▸ (headerEntry_eq_some.1 he).1)

theorem Reached.pathed (hfit : NamesFit x) (h : Reached x node) : Pathed node := by
  induction h with
  | root => exact fun _ hdir => nomatch hdir
  | @step node next name hat hfind ih =>
    rintro path rfl
    cases hpre : initrdDirPrefix node with
    | none =>
      cases node with
      | file i => cases hfind
      | _ => cases hpre
    | some pre =>
      rw [finddir_eq hfit ih hpre] at hfind
      split at hfind
      · cases hfind
      · rename_i hname
        unfold atPath at hfind
        split at hfind
        · cases hfind
        · split at hfind
          · obtain rfl := InitrdNode.dir.inj (Option.some.inj hfind)
            unfold within
            dsimp only
            split
            · exact hname
            · simp
          · cases hfind

/-- **What is listed is what is found**, of the names without a slash. -/
theorem listed_iff (hfit : NamesFit x) (hpath : Pathed node) :
    Listed x node name ↔ 47 ∉ name.bytes ∧ (initrdFinddir x node name).isSome := by
  cases hpre : initrdDirPrefix node with
  | none =>
    have hnone : initrdFinddir x node name = none := by
      cases node with
      | file i => rfl
      | _ => cases hpre
    rw [hnone]
    constructor
    · rintro ⟨i, e, hread, -⟩
      unfold initrdReaddir at hread
      rw [hpre] at hread
      cases hread
    · rintro ⟨-, h⟩
      cases h
  | some pre =>
    have hlisted : Listed x node name ↔ ∃ e ∈ initrdEntries x pre, e.1 = name := by
      unfold Listed initrdReaddir
      rw [hpre]
      constructor
      · rintro ⟨i, e, hread, hname⟩
        exact ⟨e, mem_of_getElem? hread, hname⟩
      · rintro ⟨e, he, hname⟩
        obtain ⟨i, hi⟩ := mem_iff_getElem?.1 he
        exact ⟨i, e, hi, hname⟩
    rw [hlisted, name_mem_entries, child_iff hfit, finddir_eq hfit hpath hpre]
    by_cases hname : name.bytes = []
    · simp [hname]
    · simp [hname]

/-! ## Files -/

def nodeAt (ds : List (List UInt8)) : InitrdNode := if ds = [] then .root else .dir (CStr.ofBytes (joined 47 ds))

section Files

variable (hfit : NamesFit x) (hk : k < x.headers.length)
include hfit hk

theorem finddir_nodeAt {ds cs : List (List UInt8)} {c : List UInt8} (hname : Proper 47 x.headers[k].name.bytes)
    (hsplit : components 47 x.headers[k].name.bytes = ds ++ c :: cs) :
    joined 47 (ds ++ [c]) ++ Paths.spelled 47 cs = x.headers[k].name.bytes ∧
      initrdFinddir x (nodeAt ds) (CStr.ofBytes c) = atPath x (CStr.ofBytes (joined 47 (ds ++ [c]))) := by
  have hwhole : joined 47 (ds ++ [c]) ++ Paths.spelled 47 cs = x.headers[k].name.bytes := by
    rw [← Paths.joined_append (by simp), append_assoc, singleton_append, ← hsplit, hname.joined]
  have hzero : 0 ∉ joined 47 (ds ++ [c]) := fun hmem =>
    x.headers[k].name.nonzero (by rw [← hwhole]; exact mem_append_left _ hmem)
  have hc : c ∈ components 47 x.headers[k].name.bytes := by
    rw [hsplit]
    exact mem_append_right _ mem_cons_self
  have hczero : 0 ∉ c := fun hmem => x.headers[k].name.nonzero (Paths.mem_of_components hc 0 hmem)
  have hcne : (CStr.ofBytes c).bytes ≠ [] := by
    rw [ofBytes_bytes hczero]
    exact (Paths.component_of_mem hc).nonempty
  refine ⟨hwhole, ?_⟩
  by_cases hds : ds = []
  · subst hds
    have hroot : Pathed .root := fun _ hdir => nomatch hdir
    rw [nodeAt, if_pos rfl, finddir_eq hfit hroot rfl, if_neg hcne, nil_append, Paths.joined_singleton]
    exact congrArg (atPath x) (cstr_inj.2 (within_root rfl))
  · have hjoin : joined 47 (ds ++ [c]) = joined 47 ds ++ 47 :: c := by
      rw [Paths.joined_append hds, Paths.spelled_cons, Paths.spelled_nil, append_nil]
    have hdzero : 0 ∉ joined 47 ds := fun hmem => hzero (by rw [hjoin]; exact mem_append_left _ hmem)
    have hdne : (CStr.ofBytes (joined 47 ds)).bytes ≠ [] := by
      rw [ofBytes_bytes hdzero]
      obtain ⟨d, ds', rfl⟩ := exists_cons_of_ne_nil hds
      have hd : d ∈ components 47 x.headers[k].name.bytes := by
        rw [hsplit]
        exact mem_append_left _ mem_cons_self
      rw [joined, Paths.spelled_cons, drop_one, tail_cons]
      exact append_ne_nil_of_left_ne_nil (Paths.component_of_mem hd).nonempty _
    have hdir : Pathed (.dir (CStr.ofBytes (joined 47 ds))) := fun path hpath => InitrdNode.dir.inj hpath ▸ hdne
    have hat : within (CStr.ofBytes (joined 47 ds)) (CStr.ofBytes c) = CStr.ofBytes (joined 47 (ds ++ [c])) := by
      rw [cstr_inj, within_dir hdne, ofBytes_bytes hdzero, ofBytes_bytes hczero, ofBytes_bytes hzero, hjoin]
    rw [nodeAt, if_neg hds, finddir_eq hfit hdir rfl, if_neg hcne, hat]

/-- **The first file of a name is found by its components.** -/
theorem lookup_file (hnames : ProperNames x) (hfirst : ∀ j (hj : j < k), x.headers[j].name ≠ x.headers[k].name) :
    ∀ cs ds : List (List UInt8), cs ≠ [] → components 47 x.headers[k].name.bytes = ds ++ cs →
      (cs.map CStr.ofBytes).foldlM (initrdFinddir x) (nodeAt ds) = some (.file k)
  | [], _, hne, _ => absurd rfl hne
  | c :: cs, ds, _, hsplit => by
    have hmem := getElem_mem hk
    obtain ⟨hwhole, hfind⟩ := finddir_nodeAt hfit hk (hnames.proper _ hmem) hsplit
    have hzero : 0 ∉ joined 47 (ds ++ [c]) := fun h =>
      x.headers[k].name.nonzero (by rw [← hwhole]; exact mem_append_left _ h)
    have hpath := ofBytes_bytes hzero
    rw [map_cons, foldlM_cons, hfind]
    cases cs with
    | nil =>
      rw [Paths.spelled_nil, append_nil] at hwhole
      have hidx : x.headers.findIdx? (fun h => h.name = CStr.ofBytes (joined 47 (ds ++ [c]))) = some k := by
        have hsame : CStr.ofBytes (joined 47 (ds ++ [c])) = x.headers[k].name := by rw [cstr_inj, hpath, hwhole]
        rw [List.findIdx?_eq_some_iff_getElem, hsame]
        exact ⟨hk, by simp, fun j hj => by simpa using hfirst j hj⟩
      rw [atPath, hidx]
      rfl
    | cons c' cs =>
      have hbelow : joined 47 (ds ++ [c]) ++ [47] <+: x.headers[k].name.bytes := by
        rw [← hwhole, Paths.spelled_cons]
        exact ⟨c' ++ Paths.spelled 47 cs, by simp⟩
      have hidx : x.headers.findIdx? (fun h => h.name = CStr.ofBytes (joined 47 (ds ++ [c]))) = none := by
        refine List.findIdx?_eq_none_iff.2 fun h hh => decide_eq_false fun heq => ?_
        refine hnames.apart h hh _ hmem ?_
        rw [heq, hpath]
        exact hbelow
      have hany : (x.headers.any fun h => ((CStr.ofBytes (joined 47 (ds ++ [c]))).bytes ++ [47]).isPrefixOf h.name.bytes) =
          true := by
        rw [hpath]
        exact any_eq_true.2 ⟨_, hmem, isPrefixOf_iff_prefix.2 hbelow⟩
      have hnext : atPath x (CStr.ofBytes (joined 47 (ds ++ [c]))) = some (nodeAt (ds ++ [c])) := by
        unfold atPath nodeAt
        rw [hidx, if_neg (append_ne_nil_of_right_ne_nil ds (cons_ne_nil c []))]
        exact if_pos hany
      rw [hnext]
      exact lookup_file hnames hfirst (c' :: cs) (ds ++ [c]) (cons_ne_nil _ _) (by rw [hsplit]; simp)

end Files

/-- **The tree of an image.** -/
theorem initrd_tree (startAddr : UInt64) (size : UInt32) (image : Buffer) (x : Initrd)
    (hinit : initialiseInitrd startAddr size image = some x) (hnames : ProperNames x) : TreeOk x := by
  have hfit := initialise_fit hinit
  constructor
  · intro node hnode i j e e' hi hj hsame
    unfold initrdReaddir at hi hj
    cases hpre : initrdDirPrefix node with
    | none =>
      rw [hpre] at hi
      cases hi
    | some pre =>
      rw [hpre] at hi hj
      dsimp only at hi hj
      have hnodup := entries_nodup x pre
      have hilt := (List.getElem?_eq_some_iff.1 hi).1
      refine (List.getElem?_inj (by rw [length_map]; exact hilt) hnodup).1 ?_
      rw [List.getElem?_map, List.getElem?_map, hi, hj]
      exact congrArg some hsame
  · exact fun node hnode name hlisted => ((listed_iff hfit (hnode.pathed hfit)).1 hlisted).2
  · exact fun node hnode name hslash hfound => (listed_iff hfit (hnode.pathed hfit)).2 ⟨hslash, hfound⟩
  · intro k hk hfirst
    refine ⟨lookup_file hfit hk hnames hfirst _ [] ?_ (nil_append _).symm, ?_⟩
    · intro hnil
      have hproper := hnames.proper _ (getElem_mem hk)
      have hjoin := hproper.joined
      rw [hnil] at hjoin
      exact hproper.nonempty hjoin.symm
    · unfold InitrdNode.length
      dsimp only
      rw [List.getElem?_eq_getElem hk]
      rfl

/-! ## Two images -/

def headerBytes (file : List UInt8 × UInt8) : List UInt8 :=
  file.1 ++ List.replicate (64 - file.1.length) 0 ++ [file.2, 0, 0, 0, 0, 0, 0, 0]

def imageOf (files : List (List UInt8 × UInt8)) : Buffer :=
  fun i => ([73, 78, 73, 84, UInt8.ofNat files.length, 0, 0, 0] ++ files.flatMap headerBytes).getD i 0

def nameAB : CStr := ⟨[97, 47, 98], by decide⟩

def treeOf (files : List (List UInt8 × UInt8)) (headers : List InitrdHeader) : Initrd := ⟨imageOf files, 152, headers⟩

theorem initialise_two {files : List (List UInt8 × UInt8)} {headers : List InitrdHeader}
    (hmagic : [imageOf files 0, imageOf files 1, imageOf files 2, imageOf files 3] = [73, 78, 73, 84])
    (hcount : (imageOf files).get32 4 = 2) (hheaders : (List.range 2).map (headerAt (imageOf files)) = headers) :
    initialiseInitrd 4096 152 (imageOf files) = some (treeOf files headers) := by
  have htwo : (2 : UInt32).toNat = 2 := rfl
  unfold initialiseInitrd
  rw [if_neg (by decide), if_neg (by decide), if_neg (not_not.2 hmagic), hcount, htwo]
  dsimp only
  rw [if_neg (by decide), hheaders]
  rfl

def siblings : List (List UInt8 × UInt8) := [([97, 47, 98], 1), ([97, 47, 99], 2)]

theorem siblings_tree : TreeOk (treeOf siblings [⟨nameAB, 1, 0⟩, ⟨⟨[97, 47, 99], by decide⟩, 2, 0⟩]) := by
  refine initrd_tree 4096 152 (imageOf siblings) _
    (initialise_two (by decide +kernel) (by decide +kernel) (by decide +kernel)) ⟨fun h hmem => ?_, by decide⟩
  have hmem : h = _ ∨ h = _ := mem_pair.1 hmem
  rcases hmem with rfl | rfl
  · exact ⟨by decide, by decide, by decide, by decide⟩
  · exact ⟨by decide, by decide, by decide, by decide⟩

def twins : List (List UInt8 × UInt8) := [([97, 47, 98], 1), ([97, 47, 98], 2)]

/-- Two files of one name: the second is not found, and a name with a slash that is in no directory is. -/
theorem second_twin_lost : ∃ x, initialiseInitrd 4096 152 (imageOf twins) = some x ∧ ProperNames x ∧
    x.headers[1]? = some ⟨nameAB, 2, 0⟩ ∧
    ((components 47 nameAB.bytes).map CStr.ofBytes).foldlM (initrdFinddir x) .root = some (.file 0) ∧
    (InitrdNode.file 0).length x = 1 ∧ (initrdFinddir x .root nameAB).isSome ∧ ¬ Listed x .root nameAB := by
  have hinit : initialiseInitrd 4096 152 (imageOf twins) = some (treeOf twins [⟨nameAB, 1, 0⟩, ⟨nameAB, 2, 0⟩]) :=
    initialise_two (by decide +kernel) (by decide +kernel) (by decide +kernel)
  refine ⟨_, hinit, ⟨fun h hmem => ?_, by decide⟩, rfl, by decide +kernel, rfl, by decide +kernel, fun hlisted => ?_⟩
  · have hmem : h = _ ∨ h = _ := mem_pair.1 hmem
    rcases hmem with rfl | rfl <;> exact ⟨by decide, by decide, by decide, by decide⟩
  · exact absurd ((listed_iff (initialise_fit hinit) (Reached.root.pathed (initialise_fit hinit))).1 hlisted).1 (by decide)

end EterOS.Fs
