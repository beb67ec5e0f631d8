import EterOS.Syscall.Openers
/-!
# OpenersRun — when users are open nodes

A close takes away the user its node was, so what breaks the count is a node that is closed and was not opened: one that
`stat`, `access`, `chmod`, `getdents64` or a refused `openat` has looked up.  Shared memory breaks it too where an object
is opened a second time, as `shmfs_open` does not count, or made and not opened.
-/
namespace EterOS.Syscall

open Fs (CStr)
open Function (update update_self update_of_ne)
open Objects (driver Idle Moves Still Sane Steady)

variable {ρ κ : Type*} {D : Driver ρ κ} {route : CStr → Place}

namespace Objects

variable {o o' o1 : Objects ρ} {kinds : Nat → Option (NodeKind κ)} {kind : NodeKind κ} {n : Nat} {d : Int}

/-! ## Moves together -/

theorem Moves.still (h : Moves o o1 kind d) (hs : Still κ o1 o') : Moves o o' kind d := by
  refine ⟨hs.sane, fun hkind => ?_, fun kind' hne => ?_⟩
  · rw [hs.users, h.self hkind]
  · rw [hs.users, h.other kind' hne]

theorem Still.moves (h : Still κ o o1) (hm : Moves o1 o' kind d) : Moves o o' kind d := by
  refine ⟨hm.sane, fun hkind => ?_, fun kind' hne => ?_⟩
  · rw [hm.self hkind, h.users]
  · rw [hm.other kind' hne, h.users]

theorem Still.refl (h : Sane o) : Still κ o o := ⟨h, fun _ => rfl⟩

theorem Moves.back (h : Moves o o1 kind 1) (hkind : kind.counts = true) (hm : Moves o1 o' kind (-1)) : Still κ o o' := by
  refine ⟨hm.sane, fun kind' => ?_⟩
  by_cases he : kind' = kind
  · subst he
    rw [hm.self hkind, h.self hkind]
    omega
  · rw [hm.other kind' he, h.other kind' he]

/-! ## What a path leads to -/

/-- A node whose `open` counts it, where it has one. -/
def Openable (o : Objects ρ) : NodeKind κ → Prop
  | .pty id _ => o.hasPty id = true
  | .shm _ | .pipe _ _ => False
  | _ => True

theorem openFs_moves (D : Driver ρ κ) (h : Sane o) (hopen : o.Openable kind) :
    Moves o (o.openFs D kind).1 (o.openFs D kind).2 1 := by
  cases kind with
  | other kind => exact ⟨⟨h.unused, h.shm, h.pipes⟩, nofun, fun kind' _ => by cases kind' <;> rfl⟩
  | ptmx => exact devPtmxOpen_moves h
  | ptsDir | shmRoot => exact ⟨h, nofun, fun _ _ => rfl⟩
  | pty id slave => exact devPtyOpen_moves h hopen slave
  | shm | pipe => exact hopen.elim

theorem truncate_openable (D : Driver ρ κ) (hopen : o.Openable kind) : (o.truncate D kind).Openable kind := by
  cases kind with
  | pty id slave => exact hopen
  | shm | pipe => exact hopen.elim
  | _ => trivial

variable {name : CStr}

theorem devfsPtsFinddir_spec (h : o.devfsPtsFinddir name = some kind) :
    kind = .pty (ptsId name).toNat true ∧ o.hasPty (ptsId name).toNat = true := by
  unfold devfsPtsFinddir at h
  dsimp only at h
  split at h
  · cases h
  split at h
  · cases h
  split at h
  · cases h
  next hlt =>
  split at h
  · cases h
  next hused =>
  rw [Bool.or_eq_true, not_or, Bool.not_eq_true', Bool.not_eq_false] at hused
  cases h
  refine ⟨rfl, ?_⟩
  rw [hasPty_iff]
  exact ⟨Nat.lt_of_not_le hlt, hused.1⟩

variable {path : CStr}

theorem lookup_spec (h : o.lookup D route path = some kind) : o.Openable kind ∨ ∃ i, kind = .shm i := by
  unfold lookup at h
  split at h
  · obtain ⟨kind, -, rfl⟩ := Option.map_eq_some_iff.mp h
    exact .inl trivial
  · cases h
    exact .inl trivial
  · cases h
    exact .inl trivial
  · obtain ⟨rfl, hid⟩ := devfsPtsFinddir_spec h
    exact .inl hid
  · cases h
    exact .inl trivial
  · obtain ⟨i, -, rfl⟩ := Option.map_eq_some_iff.mp h
    exact .inr ⟨i, rfl⟩

theorem lookup_rest {rest : ρ} (hnone : o.lookup D route path = none)
    (h : lookup { o with rest } D route path = some kind) : ∃ k, kind = .other k := by
  unfold lookup at h hnone
  cases hroute : route path with
  | other =>
    rw [hroute] at h
    obtain ⟨k, -, rfl⟩ := Option.map_eq_some_iff.mp h
    exact ⟨k, rfl⟩
  | _ =>
    rw [hroute] at h hnone
    exact nomatch hnone.symm.trans h

theorem lookup_shmfsCreate (hroute : route path = .shm name) (hlen : name.bytes.length < 128)
    (hname : name.bytes ≠ []) (hnone : o.lookup D route path = none) :
    o.shmfsCreate name = o.shmCreateObject name ∧ (o.shmCreateObject name).lookup D route path = some (.shm o.nextShm) := by
  have hfind : o.shmFindObject name = none := by
    unfold lookup at hnone
    rw [hroute] at hnone
    exact Option.map_eq_none_iff.mp hnone
  refine ⟨?_, ?_⟩
  · unfold shmfsCreate
    rw [hfind]
  · have htake : CStr.ofBytes (name.bytes.take 127) = name := by
      rw [List.take_of_length_le (by omega), Fs.CStr.mk.injEq]
      exact Fs.ofBytes_bytes name.nonzero
    have hnew : (o.shmCreateObject name).shmFindObject name = some o.nextShm := by
      unfold shmFindObject shmCreateObject
      rw [htake, if_pos hname]
      apply List.find?_cons_of_pos
      show Option.any _ (update o.shm o.nextShm _ o.nextShm) = true
      rw [update_self]
      simp
    unfold lookup
    rw [hroute]
    show ((o.shmCreateObject name).shmFindObject name).map NodeKind.shm = _
    rw [hnew]
    rfl

/-! ## The entries of a directory -/

theorem devPtyClose_idle {id : Nat} {slave : Bool} (hidle : o.hasPty id = true → (o.ptys id).refs slave = 0) (j : Nat) :
    (o.devPtyClose id slave).ptys j = o.ptys j ∨ ((o.devPtyClose id slave).ptys j).used = false := by
  unfold devPtyClose
  split
  case isTrue hid =>
    have hnot : ¬ 0 < (o.ptys id).refs slave := by
      rw [hidle hid]
      exact Int.lt_irrefl 0
    simp only [if_neg hnot]
    by_cases hj : j = id
    · subst hj
      rw [update_self]
      split
      · exact .inr rfl
      · exact .inl rfl
    · rw [update_of_ne hj]
      exact .inl rfl
  case isFalse => exact .inl rfl

theorem finddir_closeFs {dir kind' : NodeKind κ} {name' : CStr} (h : o.finddir D dir name = some kind)
    (hidle : o.Idle kind) (h' : (o.closeFs D kind).finddir D dir name' = some kind')
    (hrest : o.finddir D dir name' = some kind' → o.Idle kind') : (o.closeFs D kind).Idle kind' := by
  cases dir with
  | other dir =>
    obtain ⟨k, -, rfl⟩ := Option.map_eq_some_iff.mp h'
    trivial
  | shmRoot =>
    obtain ⟨i, -, rfl⟩ := Option.map_eq_some_iff.mp h
    exact hidle.elim
  | ptmx | pty | shm | pipe => cases h
  | ptsDir =>
    obtain ⟨rfl, -⟩ := devfsPtsFinddir_spec h
    obtain ⟨rfl, hused⟩ := devfsPtsFinddir_spec h'
    have hsame : (o.closeFs D (.pty (ptsId name).toNat true)).ptys (ptsId name').toNat = o.ptys (ptsId name').toNat := by
      rcases devPtyClose_idle hidle (ptsId name').toNat with hj | hj
      · exact hj
      · rw [hasPty_iff] at hused
        exact nomatch hj.symm.trans hused.2
    have hfind : o.finddir D .ptsDir name' = some (.pty (ptsId name').toNat true) := by
      show o.devfsPtsFinddir name' = _
      unfold devfsPtsFinddir
      dsimp only
      rw [← hsame]
      exact h'
    intro _
    rw [hsame]
    apply hrest hfind
    unfold hasPty at hused ⊢
    rw [← hsame]
    exact hused

end Objects

/-! ## What the calls must meet -/

/-- `sys_openat` refuses a node it has found, and puts it. -/
def Turned (c : Cred) (a : NodeAttrs) (flags : UInt32) : Prop :=
  flags &&& oNofollow ≠ 0 ∧ a.isSymlink = true ∨ (flags &&& oCreat ≠ 0 ∧ flags &&& oExcl ≠ 0) ∨
    checkNodePermission c a (reqMask flags) = false

def Refused (a : NodeAttrs) (flags : UInt32) : Prop :=
  (flags &&& oDirectory ≠ 0 ∧ a.isDir = false) ∨
    (flags &&& oTrunc ≠ 0 ∧ ¬ (flags &&& oAccmode = 1 ∨ flags &&& oAccmode = 2)) ∨
    (a.isDir = true ∧ (flags &&& oAccmode = 1 ∨ flags &&& oAccmode = 2))

namespace Files

variable {s s' : Files (Objects ρ) (NodeKind κ)} {n cur : Nat}

def IdleAt (D : Driver ρ κ) (route : CStr → Place) (s : Files (Objects ρ) (NodeKind κ)) (path : CStr) : Prop :=
  ∀ kind, s.fs.lookup D route path = some kind → s.fs.Idle kind

/-- `stat`, `access` and `chmod` of a path. -/
def LooksMet (D : Driver ρ κ) (route : CStr → Place) (s : Files (Objects ρ) (NodeKind κ)) (cur : Nat) (dirfd : Int)
    (path : UserStr) : Prop :=
  ∀ kpath, resolvePath (driver D route).tree (s.dirTask cur) dirfd path = .ok kpath → IdleAt D route s kpath

/-- `fstat` of an open node is a close of it. -/
def StatMet (D : Driver ρ κ) (route : CStr → Place) (s : Files (Objects ρ) (NodeKind κ)) (cur : Nat) (dirfd : Int)
    (path : UserStr) (mapped : Bool) (flags : UInt32) : Prop :=
  flags &&& ~~~0x1100 = 0 → mapped = true → ∀ t, path = .text t → (t.bytes ≠ [] → LooksMet D route s cur dirfd path) ∧
    (t.bytes = [] → flags &&& 0x1000 ≠ 0 → (dirfd = atFdcwd → IdleAt D route s (s.tasks cur).cwd) ∧
      (dirfd ≠ atFdcwd → validFd dirfd → ∀ n node, (s.fd cur dirfd.toNat).node = some n → s.nodes n = some node →
        s.fs.Idle node.kind))

/-- Every entry `getdents64` gives is looked up. -/
def EntriesMet (D : Driver ρ κ) (s : Files (Objects ρ) (NodeKind κ)) (cur : Nat) (fd : Int) (mapped : Bool)
    (count : Nat) (entries : List CStr) : Prop :=
  validFd fd → mapped = true → ∀ n node, (s.fd cur fd.toNat).node = some n → s.nodes n = some node →
    (Objects.attrs D node.kind).isDir = true → ∀ name ∈ entriesThatFit entries count, ∀ kind,
      s.fs.finddir D node.kind name = some kind → s.fs.Idle kind

/-- Anonymous memory is opened or closed at once; a node at the path is not counted, or opened where `open` counts it;
and a named object that is made is the one the path leads to, and opened. -/
def OpenMet (D : Driver ρ κ) (route : CStr → Place) (s : Files (Objects ρ) (NodeKind κ)) (cur : Nat) (dirfd : Int)
    (path : UserStr) (flags : UInt32) : Prop :=
  checkUserString path 256 = true → ¬ 2 < flags &&& oAccmode → s.freeFd cur 3 ≠ none → ∀ kpath,
    resolvePath (driver D route).tree (s.dirTask cur) dirfd path = .ok kpath →
    let cred := (s.tasks cur).cred
    let attrs := Objects.attrs D
    (kpath.bytes = devAshmem → ¬ Turned cred (attrs (.shm 0)) flags → ¬ Refused (attrs (.shm 0)) flags) ∧
    (kpath.bytes ≠ devAshmem → ∀ kind, s.fs.lookup D route kpath = some kind →
      (Turned cred (attrs kind) flags → s.fs.Idle kind) ∧
      (¬ Turned cred (attrs kind) flags → ∀ i, kind = .shm i → Refused (attrs kind) flags)) ∧
    (kpath.bytes ≠ devAshmem → s.fs.lookup D route kpath = none → flags &&& oCreat ≠ 0 → ∀ parentPath name,
      splitPath kpath = some (parentPath, name) → s.fs.lookup D route parentPath = some .shmRoot →
      checkNodePermission cred (attrs .shmRoot) (2 ||| 1) = true →
      route kpath = .shm name ∧ name.bytes ≠ [] ∧ name.bytes.length < 128 ∧ ¬ Refused (attrs (.shm 0)) flags)

def LookupsMet (D : Driver ρ κ) (route : CStr → Place) (s : Files (Objects ρ) (NodeKind κ)) (cur : Nat) : FileCall → Prop
  | .openat dirfd path flags _ => OpenMet D route s cur dirfd path flags
  | .newfstatat dirfd path mapped flags => StatMet D route s cur dirfd path mapped flags
  | .faccessat dirfd path _ => LooksMet D route s cur dirfd path
  | .chmod path => LooksMet D route s cur atFdcwd path
  | .getdents64 fd mapped count entries => EntriesMet D s cur fd mapped count entries
  | _ => True

/-! ## Calls -/

variable {o : Objects ρ}

theorem Keeps.still (h : Keeps Steady s) (hs : Still κ s.fs o) : Keeps Steady { s with fs := o } :=
  ⟨h.fresh, h.rest.still hs⟩

variable {kind : NodeKind κ}

theorem putTemp_keeps (h : Keeps Steady s) (hidle : s.fs.Idle kind) : Keeps Steady (s.putTemp (driver D route) kind) := by
  unfold putTemp
  split
  · exact h.still (Objects.closeFs_still D h.rest.sane hidle)
  · exact h

theorem addNode_keeps (h : Keeps Steady s) (hm : Moves s.fs o kind 1)
    (refs : UInt32) : Keeps Steady (addNode { s with fs := o } refs kind).1 := by
  have hfree : s.kinds s.nextNode = none := by
    unfold kinds
    rw [h.fresh s.nextNode (Nat.le_refl _)]
    rfl
  refine ⟨fun n hn => ?_, ?_⟩
  · have hlt : s.nextNode < n := hn
    show update s.nodes s.nextNode _ n = none
    rw [update_of_ne (Nat.ne_of_gt hlt)]
    exact h.fresh n (Nat.le_of_lt hlt)
  · have hkinds : (addNode { s with fs := o } refs kind).1.kinds = update s.kinds s.nextNode (some kind) := by
      funext n
      unfold kinds
      show (update s.nodes s.nextNode _ n).map _ = _
      by_cases hn : n = s.nextNode
      · subst hn
        rw [update_self, update_self]
        rfl
      · rw [update_of_ne hn, update_of_ne hn]
    rw [hkinds]
    exact h.rest.fill hfree hm

variable {flags : UInt32}

theorem openNode_keeps (h : Keeps Steady s) (hrefused : Refused (Objects.attrs D kind) flags → Still κ s.fs o)
    (hopen : ¬ Refused (Objects.attrs D kind) flags → ∀ o', o' = o ∨ o' = o.truncate D kind →
      Moves s.fs (o'.openFs D kind).1 (o'.openFs D kind).2 1) (fd : Nat) (kpath : CStr) :
    Keeps Steady (openNode (driver D route) { s with fs := o } cur fd kind kpath flags).1 := by
  unfold openNode
  dsimp only
  split
  next hdir =>
    have hfile : (!(Objects.attrs D kind).isDir) = true := hdir.2
    refine h.still (hrefused (.inl ⟨hdir.1, ?_⟩))
    simpa using hfile
  next hdir =>
  split
  next htrunc => exact h.still (hrefused (.inr (.inl htrunc)))
  next htrunc =>
  split
  next hwrite => exact h.still (hrefused (.inr (.inr hwrite)))
  next hwrite =>
  have hnot : ¬ Refused (Objects.attrs D kind) flags := by
    rintro (⟨hf, hd⟩ | hf | hf)
    · refine hdir ⟨hf, ?_⟩
      show (!(Objects.attrs D kind).isDir) = true
      rw [hd]
      rfl
    · exact htrunc hf
    · exact hwrite hf
  split
  · exact (addNode_keeps h (hopen hnot _ (.inr rfl)) _).setSlot _ _ _
  · exact (addNode_keeps h (hopen hnot _ (.inl rfl)) _).setSlot _ _ _

theorem openNode_shm_keeps (h : Keeps Steady s) {i : Nat}
    (hm : Moves s.fs o (.shm i : NodeKind κ) 1) (hnot : ¬ Refused (Objects.attrs D (.shm i)) flags) (fd : Nat)
      (kpath : CStr) :
    Keeps Steady (openNode (driver D route) { s with fs := o } cur fd (.shm i) kpath flags).1 := by
  refine openNode_keeps h (fun hrefused => absurd hrefused hnot) (fun _ o' ho' => ?_) fd kpath
  rcases ho' with rfl | rfl
  · exact hm
  · exact hm.still (Objects.truncate_still D hm.sane (.shm i))

theorem openNode_found_keeps (h : Keeps Steady s) (hs : Still κ s.fs o)
    (hopen : o.Openable kind) (flags : UInt32) (fd : Nat) (kpath : CStr) :
    Keeps Steady (openNode (driver D route) { s with fs := o } cur fd kind kpath flags).1 := by
  refine openNode_keeps h (fun _ => hs) (fun _ o' ho' => ?_) fd kpath
  rcases ho' with rfl | rfl
  · exact hs.moves (Objects.openFs_moves D hs.sane hopen)
  · have ht := Objects.truncate_still D hs.sane kind
    exact hs.moves (ht.moves (Objects.openFs_moves D ht.sane (Objects.truncate_openable D hopen)))

theorem sysMemfdCreate_keeps (h : Keeps Steady s) (name : UserStr) :
    Keeps Steady (s.sysMemfdCreate (driver D route) cur name).1 := by
  unfold sysMemfdCreate
  split
  · exact h
  split
  · exact h
  · exact (addNode_keeps h (Objects.shmCreateObject_moves h.rest.sane _) 1).setSlot _ _ _

theorem sysPipe2_keeps (h : Keeps Steady s) (mapped : Bool) (flags : UInt32) :
    Keeps Steady (s.sysPipe2 (driver D route) cur mapped flags).1 := by
  unfold sysPipe2
  split
  · exact h
  split
  · next fd fd' rest hfree =>
    refine Keeps.setSlot (Keeps.setSlot ?_ _ _ _) _ _ _
    let reader : OpenNode (NodeKind κ) := ⟨1, .pipe s.fs.nextPipe true⟩
    let writer : OpenNode (NodeKind κ) := ⟨1, .pipe s.fs.nextPipe false⟩
    refine ⟨fun n hn => ?_, ?_⟩
    · have hlt : s.nextNode + 2 ≤ n := hn
      show update (update s.nodes s.nextNode (some reader)) (s.nextNode + 1) (some writer) n = none
      rw [update_of_ne (by omega), update_of_ne (by omega)]
      exact h.fresh n (by omega)
    · have hfree : ∀ n, s.nextNode ≤ n → s.kinds n = none := by
        intro n hn
        unfold kinds
        rw [h.fresh n hn]
        rfl
      have hmake := h.rest.makePipe (hfree s.nextNode (Nat.le_refl _)) (hfree (s.nextNode + 1) (by omega)) (by omega)
      have hkinds : (fun n => (update (update s.nodes s.nextNode (some reader)) (s.nextNode + 1) (some writer) n).map
          OpenNode.kind) = update (update s.kinds s.nextNode (some reader.kind)) (s.nextNode + 1) (some writer.kind) := by
        funext n
        by_cases hw : n = s.nextNode + 1
        · subst hw
          rw [update_self, update_self]
          rfl
        · rw [update_of_ne hw, update_of_ne hw]
          by_cases hr : n = s.nextNode
          · subst hr
            rw [update_self, update_self]
            rfl
          · rw [update_of_ne hr, update_of_ne hr]
            rfl
      rw [← hkinds] at hmake
      exact hmake
  · exact h

variable {dirfd : Int} {path : UserStr}

theorem sysFaccessat_keeps (h : Keeps Steady s) (hm : LooksMet D route s cur dirfd path)
    (mode : UInt32) : Keeps Steady (s.sysFaccessat (driver D route) cur dirfd path mode).1 := by
  unfold sysFaccessat
  split
  · exact h
  next kpath hpath =>
  split
  · exact h
  next kind hkind => exact putTemp_keeps h (hm kpath hpath kind hkind)

theorem sysChmod_keeps (h : Keeps Steady s) (hm : LooksMet D route s cur atFdcwd path) :
    Keeps Steady (s.sysChmod (driver D route) cur path).1 := by
  unfold sysChmod
  split
  · exact h
  next kpath hpath =>
  split
  · exact h
  next kind hkind => exact putTemp_keeps h (hm kpath hpath kind hkind)

theorem sysNewfstatat_kept (h : Keeps Steady s) {mapped : Bool} (hm : StatMet D route s cur dirfd path mapped flags) :
    Kept Steady ((s.sysNewfstatat (driver D route) cur dirfd path mapped flags).map Prod.fst) := by
  unfold sysNewfstatat
  split
  · exact h.kept
  next hflags =>
  split
  · exact h.kept
  next hmapped =>
  split
  · exact h.kept
  · exact h.kept
  next t =>
  obtain ⟨hpathMet, hfdMet⟩ := hm (not_not.mp hflags) (by simpa using hmapped) t rfl
  split
  next hempty =>
    split
    · exact h.kept
    next hflag =>
    obtain ⟨hcwd, hnode⟩ := hfdMet hempty hflag
    split
    next hdir =>
      split
      · exact h.kept
      next kind hkind => exact (putTemp_keeps h (hcwd hdir kind hkind)).kept
    next hdir =>
    split
    · exact h.kept
    next hv =>
    split
    · exact h.kept
    next n hn =>
    intro s' hs'
    rw [Option.map_map] at hs'
    obtain ⟨node, hget, rfl⟩ := Option.map_eq_some_iff.mp hs'
    exact h.still (Objects.closeFs_still D h.rest.sane (hnode hdir (not_not.mp hv) n node hn hget))
  next hpath =>
    split
    · exact h.kept
    next kpath hk =>
    split
    · exact h.kept
    next kind hkind => exact (putTemp_keeps h (hpathMet hpath kpath hk kind hkind)).kept

theorem statChildren_keeps (h : Keeps Steady s) (dir : NodeKind κ) {names : List CStr}
    (hm : ∀ name ∈ names, ∀ kind, s.fs.finddir D dir name = some kind → s.fs.Idle kind) :
    Keeps Steady (names.foldl (statChild (driver D route) dir) s) := by
  induction names generalizing s with
  | nil => exact h
  | cons name names ih =>
    rw [List.foldl_cons]
    obtain ⟨hname, hnames⟩ := List.forall_mem_cons.mp hm
    unfold statChild
    split
    next => exact ih h hnames
    next kind hkind =>
      have hidle := hname kind hkind
      refine ih (putTemp_keeps h hidle) fun name' hname' kind' hkind' => ?_
      unfold putTemp at hkind' ⊢
      split at hkind'
      next hput =>
        rw [if_pos hput]
        exact Objects.finddir_closeFs hkind hidle hkind' (hnames name' hname' kind')
      next hput =>
        rw [if_neg hput]
        exact hnames name' hname' kind' hkind'

theorem sysGetdents64_kept (h : Keeps Steady s) {fd : Int} {mapped : Bool} {count : Nat} {entries : List CStr}
    (hm : EntriesMet D s cur fd mapped count entries) :
    Kept Steady ((s.sysGetdents64 (driver D route) cur fd mapped count entries).map Prod.fst) := by
  unfold sysGetdents64
  split
  · exact h.kept
  next hv =>
  split
  · exact h.kept
  next n hn =>
  intro s' hs'
  rw [Option.map_map] at hs'
  obtain ⟨node, hget, rfl⟩ := Option.map_eq_some_iff.mp hs'
  dsimp only [Function.comp_apply]
  split
  · exact h
  next hdir =>
  split
  · exact h
  next hmapped =>
  split
  · exact h
  · refine (statChildren_keeps h node.kind fun name hname kind hkind => ?_).setSlot _ _ _
    have hisDir : ¬ (!(Objects.attrs D node.kind).isDir) = true := hdir
    exact hm (not_not.mp hv) (by simpa using hmapped) n node hn hget (by simpa using hisDir) name hname kind hkind

theorem openFound_keeps {o : Objects ρ} {c : Cred} (fd : Nat) (kpath : CStr)
    (hturned : Turned c (Objects.attrs D kind) flags →
      Keeps Steady (putTemp (driver D route) { s with fs := o } kind))
    (hopen : ¬ Turned c (Objects.attrs D kind) flags →
      Keeps Steady (openNode (driver D route) { s with fs := o } cur fd kind kpath flags).1) :
    Keeps Steady
      (if flags &&& oNofollow ≠ 0 ∧ (Objects.attrs D kind).isSymlink then
        (putTemp (driver D route) { s with fs := o } kind, -ELOOP)
      else if flags &&& oCreat ≠ 0 ∧ flags &&& oExcl ≠ 0 then (putTemp (driver D route) { s with fs := o } kind, -EEXIST)
      else if !checkNodePermission c (Objects.attrs D kind) (reqMask flags) then
        (putTemp (driver D route) { s with fs := o } kind, -EACCES)
      else openNode (driver D route) { s with fs := o } cur fd kind kpath flags).1 := by
  split
  next hlink => exact hturned (.inl hlink)
  next hlink =>
  split
  next hexcl => exact hturned (.inr (.inl hexcl))
  next hexcl =>
  split
  next hperm => exact hturned (.inr (.inr (by simpa using hperm)))
  next hperm =>
    refine hopen ?_
    rintro (ht | ht | ht)
    · exact hlink ht
    · exact hexcl ht
    · rw [ht] at hperm
      exact hperm rfl

theorem createFs_other (D : Driver ρ κ) (route : CStr → Place) (o : Objects ρ) (k : κ) (name : CStr) (mode : UInt16) :
    ∃ rest ret invoked, createFs (driver D route).tree o (.other k) name mode = ⟨{ o with rest }, ret, invoked⟩ := by
  unfold createFs
  cases hop : D.tree.create k with
  | none =>
    have hnone : (driver D route).tree.create (.other k) = none := congrArg (Option.map _) hop
    rw [hnone]
    exact ⟨o.rest, _, _, rfl⟩
  | some op =>
    have hsome : (driver D route).tree.create (.other k) = some _ := congrArg (Option.map _) hop
    rw [hsome]
    dsimp only
    split
    · exact ⟨_, _, _, rfl⟩
    · exact ⟨o.rest, _, _, rfl⟩

theorem createFs_shmRoot (D : Driver ρ κ) (route : CStr → Place) (o : Objects ρ) (name : CStr) (mode : UInt16) :
    createFs (driver D route).tree o .shmRoot name mode = ⟨o.shmfsCreate name, 0, some [.shmRoot]⟩ := by
  have hdir : ((driver D route).tree.attrs .shmRoot).isDir = true := by
    show decide ((2 : UInt32) &&& 7 = 2) = true
    decide
  show (if ((driver D route).tree.attrs .shmRoot).isDir then _ else _) = _
  rw [if_pos hdir]
  rfl

theorem sysOpenat_keeps (h : Keeps Steady s) (hm : OpenMet D route s cur dirfd path flags) (mode : UInt16) :
    Keeps Steady (s.sysOpenat (driver D route) cur dirfd path flags mode).1 := by
  unfold sysOpenat
  split
  · exact h
  next hstring =>
  split
  · exact h
  next kpath hpath =>
  split
  · exact h
  next hmode =>
  split
  · exact h
  next fd hfree =>
  obtain ⟨hash, hfound, hcreate⟩ := hm (by simpa using hstring) hmode (by rw [hfree]; nofun) kpath hpath
  have hstill : Still κ s.fs s.fs := Objects.Still.refl h.rest.sane
  split
  next fs found hdev =>
  by_cases hanon : kpath.bytes = devAshmem
  case pos =>
    rw [if_pos hanon, Prod.mk.injEq] at hdev
    obtain ⟨rfl, rfl⟩ := hdev
    have hmake : Moves s.fs (s.fs.shmCreateObject (CStr.ofBytes [])) (.shm s.fs.nextShm : NodeKind κ) 1 :=
      Objects.shmCreateObject_moves h.rest.sane _
    refine openFound_keeps fd kpath (fun _ => ?_) fun hnot => ?_
    · -- made and closed at once
      have hnode : 0 < (s.fs.shmCreateObject (CStr.ofBytes [])).users (.shm s.fs.nextShm : NodeKind κ) := by
        rw [hmake.self rfl, Objects.users_shm, h.rest.sane.shm _ (Nat.le_refl _)]
        exact Int.one_pos
      have hback := hmake.back rfl (Objects.shmfsClose_moves hmake.sane hnode)
      have hone : (1 : UInt32) - 1 = 0 := by decide
      show Keeps Steady (if (1 : UInt32) - 1 = 0 then _ else _)
      rw [if_pos hone]
      exact h.still hback
    · exact openNode_shm_keeps h hmake (hash hanon hnot) fd kpath
  case neg =>
  rw [if_neg hanon, Prod.mk.injEq] at hdev
  obtain ⟨rfl, hlook⟩ := hdev
  cases found with
  | some kind =>
    obtain ⟨hturned, hshm⟩ := hfound hanon kind hlook
    refine openFound_keeps fd kpath (fun ht => putTemp_keeps h (hturned ht)) fun hnot => ?_
    rcases Objects.lookup_spec hlook with hopen | ⟨i, rfl⟩
    · exact openNode_found_keeps h hstill hopen flags fd kpath
    · refine openNode_keeps h (fun _ => hstill) (fun hno => ?_) fd kpath
      exact absurd (hshm hnot i rfl) hno
  | none =>
    dsimp only
    split
    · exact h
    next hcreat =>
    split
    · exact h
    next parentPath name hsplit =>
    split
    · exact h
    next parent hparent =>
    split
    · exact h
    next hperm =>
    have hallowed : checkNodePermission (s.tasks cur).cred (Objects.attrs D parent) (2 ||| 1) = true := by
      rw [Bool.not_eq_true, Bool.not_eq_false'] at hperm
      exact hperm
    cases parent with
    | shmRoot =>
      obtain ⟨hroute, hname, hlen, hnot⟩ := hcreate hanon hlook hcreat parentPath name hsplit hparent hallowed
      obtain ⟨hmade, hnew⟩ := Objects.lookup_shmfsCreate (D := D) hroute hlen hname hlook
      have hcall : createFs (driver D route).tree s.fs .shmRoot name mode =
          ⟨s.fs.shmCreateObject name, 0, some [.shmRoot]⟩ := by
        rw [← hmade]
        exact createFs_shmRoot D route s.fs name mode
      rw [hcall, if_neg (not_not.mpr rfl)]
      split
      next hno => exact nomatch hno.symm.trans hnew
      next kind hkind =>
        obtain rfl : .shm s.fs.nextShm = kind := Option.some.inj (hnew.symm.trans hkind)
        exact openNode_shm_keeps h (Objects.shmCreateObject_moves h.rest.sane name) hnot fd kpath
    | other k =>
      obtain ⟨rest, ret, invoked, hcall⟩ := createFs_other D route s.fs k name mode
      have hrest : Still κ s.fs { s.fs with rest } :=
        ⟨⟨h.rest.sane.unused, h.rest.sane.shm, h.rest.sane.pipes⟩, fun kind' => by cases kind' <;> rfl⟩
      rw [hcall]
      split
      · exact h.still hrest
      split
      · exact h.still hrest
      next kind hkind =>
        obtain ⟨k', rfl⟩ := Objects.lookup_rest (D := D) hlook hkind
        have hopen : Objects.Openable { s.fs with rest } (.other k' : NodeKind κ) := trivial
        exact openNode_found_keeps h hrest hopen flags fd kpath
    | _ => exact h

/-! ## Runs -/

theorem run_keeps_users (h : Keeps Steady s) {call : FileCall} (hm : LookupsMet D route s cur call) :
    Kept Steady (s.run (driver D route) cur call) := by
  have hQ : ClosesKeep (driver D route) Steady := by
    intro o kinds n kind hsteady hn
    exact hsteady.clear hn (Objects.closeFs_moves D hsteady hn)
  cases call with
  | openat dirfd path flags mode => exact (sysOpenat_keeps h hm mode).kept
  | memfdCreate name => exact (sysMemfdCreate_keeps h name).kept
  | pipe2 mapped flags => exact (sysPipe2_keeps h mapped flags).kept
  | newfstatat dirfd path mapped flags => exact sysNewfstatat_kept h hm
  | faccessat dirfd path mode => exact (sysFaccessat_keeps h hm mode).kept
  | chmod path => exact (sysChmod_keeps h hm).kept
  | getdents64 fd mapped count entries => exact sysGetdents64_kept h hm
  | _ => exact run_kept hQ h rfl

def LookupStep (D : Driver ρ κ) (route : CStr → Place) (s : Option (Files (Objects ρ) (NodeKind κ)))
    (call : Nat × FileCall) : Prop :=
  ∀ t, s = some t → t.runs call.1 → LookupsMet D route t call.1 call.2

theorem boot_keeps (rest : ρ) (rootRefs : UInt32) :
    Keeps Steady (boot (Objects.boot rest) rootRefs : Files (Objects ρ) (NodeKind κ)) := by
  refine ⟨fun _ _ => rfl, ⟨fun _ _ slave => ?_, fun _ _ => rfl, fun _ _ => rfl⟩, fun kind _ => ⟨0, ?_, ?_⟩⟩
  · cases slave <;> rfl
  · cases kind with
    | pty id slave =>
      show (if id < maxPtys then PtyPair.zero.refs slave else 0) = 0
      cases slave <;> exact ite_self 0
    | _ => rfl
  · exact holders_zero.mpr fun _ => nofun

/-- **Opens and closes are balanced**: in every run whose lookups meet the condition, `master_refs`, `slave_refs`,
`ref_count`, `readers` and `writers` are the numbers of open nodes. -/
theorem opens_are_balanced (D : Driver ρ κ) (route : CStr → Place) (rest : ρ) (rootRefs : UInt32)
    (calls : List (Nat × FileCall))
    (hmet : Run.Guarded (step (driver D route)) (LookupStep D route) (some (boot (Objects.boot rest) rootRefs)) calls) :
    ∀ s' ∈ Run.states (step (driver D route)) (some (boot (Objects.boot rest) rootRefs)) calls, ∀ s, s' = some s →
      s.fs.Counted s.kinds := by
  have hkept : ∀ s' ∈ Run.states (step (driver D route)) (some (boot (Objects.boot rest) rootRefs)) calls,
      Kept Steady s' := by
    refine Run.states_forall (fun s call hs hm => ?_) calls _ (boot_keeps rest rootRefs).kept hmet
    cases s with
    | none => exact nofun
    | some t =>
      show Kept _ (if t.runs call.1 then t.run (driver D route) call.1 call.2 else some t)
      split
      · next hc => exact run_keeps_users (hs t rfl) (hm t rfl hc)
      · exact hs
  intro s' hs' s he
  exact (hkept s' hs' s he).rest.counted

/-! ## A pseudo-terminal -/

def ptmxPath : CStr := CStr.ofBytes [47, 100, 101, 118, 47, 112, 116, 109, 120]

def slavePath : CStr := CStr.ofBytes [47, 100, 101, 118, 47, 112, 116, 115, 47, 48]

def terminals (path : CStr) : Place := if path = ptmxPath then .ptmx else .pts (CStr.ofBytes (path.bytes.drop 9))

def openMaster : List (Nat × FileCall) :=
  [(0, .openat atFdcwd (.text ptmxPath) 2 0), (0, .fork (fun _ => false) true), (0, .close 3)]

theorem open_master_is_balanced :
    ∃ s, openMaster.foldl (step (driver (oneFile 1) terminals)) (some (boot (Objects.boot ()) 1)) = some s ∧
      s.fs.Counted s.kinds := by
  have hsome : (openMaster.foldl (step (driver (oneFile 1) terminals)) (some (boot (Objects.boot ()) 1))).isSome := by
    decide +kernel
  obtain ⟨s, hs⟩ := Option.isSome_iff_exists.mp hsome
  refine ⟨s, hs, opens_are_balanced (oneFile 1) terminals () 1 openMaster ⟨?_, ?_, ?_, trivial⟩ _
    (Run.foldl_mem_states openMaster _) s hs⟩
  · rintro t ⟨⟩ - - - - kpath -
    have hrefused : ¬ Refused (Objects.attrs (oneFile 1) (.shm 0)) 2 := by
      unfold Refused
      decide
    refine ⟨fun _ _ => hrefused, fun _ kind hkind => ?_, fun _ _ hcreat => absurd rfl hcreat⟩
    -- no slave can be opened yet
    have hptmx : kind = .ptmx := by
      unfold Objects.lookup terminals at hkind
      by_cases hpath : kpath = ptmxPath
      · rw [if_pos hpath] at hkind
        exact (Option.some.inj hkind).symm
      · rw [if_neg hpath] at hkind
        have hused := (Objects.devfsPtsFinddir_spec hkind).2
        rw [Objects.hasPty_iff] at hused
        exact nomatch hused.2
    rw [hptmx]
    exact ⟨fun _ => trivial, fun _ _ => nofun⟩
  · exact fun _ _ _ => trivial
  · exact fun _ _ _ => trivial

def statSlave : List (Nat × FileCall) :=
  [(0, .openat atFdcwd (.text ptmxPath) 2 0), (0, .openat atFdcwd (.text slavePath) 2 0),
    (0, .newfstatat atFdcwd (.text slavePath) true 0)]

/-- The `stat` closes the slave that is open: `slave_refs` is 0, and its reader is told of a hang-up. -/
theorem stat_closes_slave :
    ∃ s, statSlave.foldl (step (driver (oneFile 1) terminals)) (some (boot (Objects.boot ()) 1)) = some s ∧
      s.fs.users (.pty 0 true : NodeKind Unit) = 0 ∧ s.kinds 1 = some (.pty 0 true) ∧ ¬ s.fs.Counted s.kinds := by
  have hrun : (statSlave.foldl (step (driver (oneFile 1) terminals)) (some (boot (Objects.boot ()) 1))).map
      (fun s => (s.fs.users (.pty 0 true : NodeKind Unit), s.kinds 1)) = some (0, some (.pty 0 true)) := by
    decide +kernel
  obtain ⟨s, hs, hcounts⟩ := Option.map_eq_some_iff.mp hrun
  obtain ⟨hzero, hopen⟩ := Prod.mk.inj hcounts
  refine ⟨s, hs, hzero, hopen, fun hall => ?_⟩
  obtain ⟨c, hc, hlive⟩ := hall (.pty 0 true) rfl
  have hpos := hlive.pos hopen
  omega

end Files

end EterOS.Syscall
