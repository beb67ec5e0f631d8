import EterOS.Lib.Partial
import EterOS.Syscall.DescriptorRefs
import EterOS.Syscall.Normalize
/-!
# DirFds — relative paths and open directories

A descriptor keeps the path it was opened with, in 128 bytes beside its node, and `resolve_path` takes it as the base of
relative paths.  `opened` is the whole path each node was opened with, which the kernel does not keep: a descriptor of a
directory is as good as that path (`Resolves`) unless the path was cut, or `dup2` or `dup3` left another one in the entry.
-/
namespace EterOS.Syscall

open Fs (CStr)
open Function (update update_self update_of_ne)
open Partial (After after_some after_bind after_foldlM)

variable {σ κ ν : Type*}

/-! ## What a path resolves to -/

/-- `sys_fchdir`: the working directory, and the result.  `cwd_node` is not followed. -/
def sysFchdir (T : Tree σ ν) (t : DirTask ν) (fd : Int) : CStr × Int :=
  if fd < 0 ∨ maxFd ≤ fd then (t.cwd, -EBADF)
  else
    match t.fdTable fd.toNat with
    | none => (t.cwd, -EBADF)
    | some (node, path) =>
      if !(T.attrs node).isDir then (t.cwd, -ENOTDIR)
      else if !checkNodePermission t.cred (T.attrs node) 1 then (t.cwd, -EACCES)
      else (if path.bytes.head? = some 47 then CStr.ofBytes (path.bytes.take 255) else CStr.ofBytes [47], 0)

structure Resolves (T : Tree σ ν) (s : σ) (t t' : DirTask ν) : Prop where
  path : ∀ dirfd path, resolvePath T t dirfd path = resolvePath T t' dirfd path
  call : ∀ call : DirCall, call.run T t s = call.run T t' s
  fchdir : ∀ fd, sysFchdir T t fd = sysFchdir T t' fd

def SamePath (p q : CStr) : Prop := (if p.bytes = [] then [47] else p.bytes) = if q.bytes = [] then [47] else q.bytes

instance (p q : CStr) : Decidable (SamePath p q) := inferInstanceAs (Decidable (_ = _))

/-- The tasks differ in the paths of their descriptors only, and for directories these are the same. -/
structure SameDirs (T : Tree σ ν) (t t' : DirTask ν) : Prop where
  cred : t.cred = t'.cred
  cwd : t.cwd = t'.cwd
  table : ∀ i, (t.fdTable i = none ∧ t'.fdTable i = none) ∨ ∃ node p p', t.fdTable i = some (node, p) ∧
    t'.fdTable i = some (node, p') ∧ ((T.attrs node).isDir = true → SamePath p p')

variable {T : Tree σ ν} {t t' : DirTask ν} {p q r : CStr}

theorem SamePath.refl (p : CStr) : SamePath p p := rfl

theorem SamePath.trans (h : SamePath p q) (h' : SamePath q r) : SamePath p r := Eq.trans h h'

theorem SamePath.joined (h : SamePath p q) (path : CStr) : joined path p = joined path q := by
  have hbase : ∀ b : List UInt8, (if b.getLast? = some 47 then b else b ++ [47]) =
      if (if b = [] then [47] else b).getLast? = some 47 then (if b = [] then [47] else b)
        else (if b = [] then [47] else b) ++ [47] := by
    intro b
    by_cases hb : b = []
    · subst hb
      rfl
    · rw [if_neg hb]
  unfold Syscall.joined
  rw [hbase p.bytes, hbase q.bytes, h]

theorem SamePath.normalize (h : SamePath p q) (path : CStr) : vfsNormalizePath path p = vfsNormalizePath path q := by
  rw [vfsNormalizePath_eq_into, vfsNormalizePath_eq_into, vfsNormalizePathInto, vfsNormalizePathInto, h.joined path]

theorem SamePath.chdir (h : SamePath p q) :
    (if p.bytes.head? = some 47 then CStr.ofBytes (p.bytes.take 255) else CStr.ofBytes [47]) =
      if q.bytes.head? = some 47 then CStr.ofBytes (q.bytes.take 255) else CStr.ofBytes [47] := by
  have hbase : ∀ b : List UInt8, (if b.head? = some 47 then CStr.ofBytes (b.take 255) else CStr.ofBytes [47]) =
      if (if b = [] then [47] else b).head? = some 47 then CStr.ofBytes ((if b = [] then [47] else b).take 255)
      else CStr.ofBytes [47] := by
    intro b
    by_cases hb : b = []
    · subst hb
      rfl
    · rw [if_neg hb]
  rw [hbase p.bytes, hbase q.bytes, h]

namespace SameDirs

variable (h : SameDirs T t t')
include h

theorem resolvePath_eq (dirfd : Int) (path : UserStr) : resolvePath T t dirfd path = resolvePath T t' dirfd path := by
  unfold resolvePath
  rw [h.cwd]
  cases path with
  | unmapped => rfl
  | broken => rfl
  | text s =>
    dsimp only
    split
    · rfl
    split
    · rfl
    split
    · rfl
    rcases h.table dirfd.toNat with ⟨hnone, hnone'⟩ | ⟨node, p, p', hp, hp', hsame⟩
    · rw [hnone, hnone']
    · rw [hp, hp']
      dsimp only
      split
      · rename_i hdir
        exact (hsame hdir).normalize _
      · rfl

theorem isNone (i : Nat) : (t.fdTable i).isNone = (t'.fdTable i).isNone := by
  rcases h.table i with ⟨hnone, hnone'⟩ | ⟨node, p, p', hp, hp', -⟩
  · rw [hnone, hnone']
  · rw [hp, hp']
    rfl

theorem sysFchdir_eq (fd : Int) : sysFchdir T t fd = sysFchdir T t' fd := by
  unfold sysFchdir
  rw [h.cwd, h.cred]
  split
  · rfl
  rcases h.table fd.toNat with ⟨hnone, hnone'⟩ | ⟨node, p, p', hp, hp', hsame⟩
  · rw [hnone, hnone']
  · rw [hp, hp']
    dsimp only
    cases hdir : (T.attrs node).isDir with
    | false => rfl
    | true => rw [(hsame hdir).chdir]

/-- **The tasks are alike for every call on paths.** -/
theorem resolves (s : σ) : Resolves T s t t' := by
  have hpath : resolvePath T t = resolvePath T t' := funext fun dirfd => funext fun path => h.resolvePath_eq dirfd path
  have hnone : (fun i => (t.fdTable i).isNone) = fun i => (t'.fdTable i).isNone := funext h.isNone
  have hopen : sysOpenat T t s = sysOpenat T t' s := by
    funext dirfd path flags mode
    unfold sysOpenat
    rw [hpath, hnone, h.cred]
  have hparent : parentOf T t s = parentOf T t' s := by
    unfold parentOf
    rw [hpath]
  refine ⟨fun dirfd path => by rw [hpath], fun call => ?_, h.sysFchdir_eq⟩
  cases call with
  | openat dirfd path flags mode => exact congrFun (congrFun (congrFun (congrFun hopen _) _) _) _
  | mknodat dirfd path mode => exact congrFun (congrFun (congrFun (congrFun hopen _) _) _) _
  | mkdirat dirfd path mode =>
    unfold DirCall.run sysMkdirat
    rw [hparent, h.cred]
  | unlinkat dirfd path flags =>
    unfold DirCall.run sysUnlinkat
    rw [hparent, h.cred]
  | rmdir path =>
    unfold DirCall.run sysRmdir
    rw [hparent, h.cred]
  | renameat olddirfd oldpath newdirfd newpath =>
    unfold DirCall.run sysRenameat
    rw [hpath, h.cred]
  | linkat olddirfd oldpath newdirfd newpath =>
    unfold DirCall.run sysLinkat
    rw [hpath]
  | symlinkat target newdirfd linkpath =>
    unfold DirCall.run sysSymlinkat
    rw [hparent]

end SameDirs

/-! ## Runs -/

/-- The calls on descriptors, and what every other call may do: set the working directory and change the filesystems. -/
inductive PathCall (σ : Type*) where
  | file (call : FileCall)
  | other (cwd : CStr) (fs : σ)

structure PathTrace (σ κ : Type*) where
  files : Option (Files σ κ)
  opened : Nat → Option CStr

namespace Files

variable (D : Driver σ κ) (s : Files σ κ)

/-- What `dirTask` would be if the descriptors had the whole paths. -/
def wholeTask (opened : Nat → Option CStr) (cur : Nat) : DirTask κ where
  cred := (s.tasks cur).cred
  cwd := (s.tasks cur).cwd
  fdTable i := (s.fd cur i).node.bind fun n => (s.nodes n).map fun node => (node.kind, (opened n).getD (s.fd cur i).path)

/-- The path `openat` opens; other calls open none. -/
def openPath (cur : Nat) : PathCall σ → Option CStr
  | .file (.openat dirfd path _ _) => (resolvePath D.tree (s.dirTask cur) dirfd path).toOption
  | _ => none

def runPath (cur : Nat) : PathCall σ → Option (Files σ κ)
  | .file call => s.run D cur call
  | .other cwd fs => some { s.setTask cur { s.tasks cur with cwd } with fs }

def DirNode (n : Nat) (P : Prop) : Prop := ∀ node, s.nodes n = some node → (D.tree.attrs node.kind).isDir = true → P

def OpensShort (cur : Nat) (dirfd : Int) (path : UserStr) (flags : UInt32) (mode : UInt16) : Prop :=
  ∀ kpath, resolvePath D.tree (s.dirTask cur) dirfd path = .ok kpath →
    DirNode D (s.sysOpenat D cur dirfd path flags mode).1 s.nextNode (kpath.bytes.length < 128)

/-- The path left in the entry `new` is the one in `old`, if that is a directory. -/
def PathKept (k old new : Nat) : Prop :=
  ∀ n, (s.slot k old).node = some n → DirNode D s n (SamePath (s.slot k new).path (s.slot k old).path)

def PathMet (cur : Nat) : PathCall σ → Prop
  | .file (.openat dirfd path flags mode) => s.OpensShort D cur dirfd path flags mode
  | .file (.dup old) => validFd old → ∀ new, s.freeFd cur 0 = some new → s.PathKept D (s.tasks cur).fdTable old.toNat new
  | .file (.dup2 old new) | .file (.dup3 old new _) =>
    validFd old → validFd new → s.PathKept D (s.tasks cur).fdTable old.toNat new.toNat
  | _ => True

end Files

namespace PathTrace

variable (D : Driver σ κ)

def boot (fs : σ) (rootRefs : UInt32) : PathTrace σ κ := ⟨some (Files.boot fs rootRefs), fun _ => none⟩

def step (t : PathTrace σ κ) (call : Nat × PathCall σ) : PathTrace σ κ :=
  match t.files with
  | none => t
  | some s =>
    if s.runs call.1 then ⟨s.runPath D call.1 call.2, update t.opened s.nextNode (s.openPath D call.1 call.2)⟩ else t

def StepMet (t : PathTrace σ κ) (call : Nat × PathCall σ) : Prop :=
  ∀ s, t.files = some s → s.runs call.1 → s.PathMet D call.1 call.2

end PathTrace

namespace Files

variable {D : Driver σ κ} {opened : Nat → Option CStr} {s s' : Files σ κ} {k i n cur : Nat} {d : FileDescriptor}

/-! ## Descriptors with the path of their node -/

/-- The node is there or was, and if it is a directory the path is as good as the one it was opened with. -/
def HasPath (D : Driver σ κ) (opened : Nat → Option CStr) (s : Files σ κ) (d : FileDescriptor) : Prop :=
  ∀ n, d.node = some n → n < s.nextNode ∧ DirNode D s n (∀ p, opened n = some p → SamePath d.path p)

structure HavePaths (D : Driver σ κ) (opened : Nat → Option CStr) (s : Files σ κ) : Prop where
  fresh : ∀ n, s.nextNode ≤ n → s.nodes n = none
  later : ∀ n, s.nextNode < n → opened n = none
  slots : ∀ k i, HasPath D opened s (s.slot k i)

theorem hasPath_empty (h : d.node = none) : HasPath D opened s d := by
  intro n hn
  rw [h] at hn
  cases hn

theorem HasPath.congr {d' : FileDescriptor} (h : HasPath D opened s d) (hnext : s.nextNode ≤ s'.nextNode)
    (hnodes : ∀ n < s.nextNode, ∀ node', s'.nodes n = some node' → ∃ node, s.nodes n = some node ∧ node.kind = node'.kind)
    (hnode : d'.node = d.node) (hpath : d'.path = d.path) : HasPath D opened s' d' := by
  intro n hn
  rw [hnode] at hn
  obtain ⟨hlt, hdir⟩ := h n hn
  refine ⟨Nat.lt_of_lt_of_le hlt hnext, fun node' hnode' hisdir => ?_⟩
  obtain ⟨node, hold, hkind⟩ := hnodes n hlt node' hnode'
  rw [hpath]
  exact hdir node hold (hkind ▸ hisdir)

theorem HasPath.of_same {d' : FileDescriptor} (h : HasPath D opened s d) (hnode : d'.node = d.node)
    (hpath : d'.path = d.path) :
    HasPath D opened s d' := h.congr (Nat.le_refl _) (fun _ _ node' hn => ⟨node', hn, rfl⟩) hnode hpath

structure SubNodes (s s' : Files σ κ) : Prop where
  next : s'.nextNode = s.nextNode
  nodes : ∀ n node', s'.nodes n = some node' → ∃ node, s.nodes n = some node ∧ node.kind = node'.kind

theorem SubNodes.of_eq (hnext : s'.nextNode = s.nextNode) (hnodes : s'.nodes = s.nodes) : SubNodes s s' :=
  ⟨hnext, fun n node hn => ⟨node, by rw [← hnodes]; exact hn, rfl⟩⟩

theorem SubNodes.of_update {node : OpenNode κ} {x : Option (OpenNode κ)} (hn : s.nodes n = some node)
    (hx : ∀ node', x = some node' → node.kind = node'.kind) (hnext : s'.nextNode = s.nextNode)
    (hnodes : s'.nodes = update s.nodes n x) : SubNodes s s' := by
  refine ⟨hnext, fun m node' hm => ?_⟩
  rw [hnodes] at hm
  by_cases he : m = n
  · subst he
    rw [update_self] at hm
    exact ⟨node, hn, hx node' hm⟩
  · rw [update_of_ne he] at hm
    exact ⟨node', hm, rfl⟩

namespace HavePaths

theorem update_opened (h : HavePaths D opened s) (p : Option CStr) : HavePaths D (update opened s.nextNode p) s := by
  refine ⟨h.fresh, fun n hn => ?_, fun k i n hn => ?_⟩
  · rw [update_of_ne (by omega)]
    exact h.later n hn
  · obtain ⟨hlt, hdir⟩ := h.slots k i n hn
    rw [update_of_ne (by omega)]
    exact ⟨hlt, hdir⟩

theorem of_nodes (h : HavePaths D opened s) (htasks : s'.tasks = s.tasks) (hsub : SubNodes s s') :
    HavePaths D opened s' := by
  obtain ⟨hnext, hnodes⟩ := hsub
  refine ⟨fun n hn => ?_, fun n hn => h.later n (hnext ▸ hn), fun k i => ?_⟩
  · rw [Option.eq_none_iff_forall_ne_some]
    intro node' hnode'
    obtain ⟨node, hold, -⟩ := hnodes n node' hnode'
    rw [h.fresh n (hnext ▸ hn)] at hold
    cases hold
  · have hslot : s'.slot k i = s.slot k i := by
      unfold slot
      rw [htasks]
    rw [hslot]
    exact (h.slots k i).congr (Nat.le_of_eq hnext.symm) (fun n _ => hnodes n) rfl rfl

theorem fs (h : HavePaths D opened s) (fs : σ) : HavePaths D opened { s with fs } := h.of_nodes rfl (.of_eq rfl rfl)

theorem setTask (h : HavePaths D opened s) (k : Nat) {t : FdTask} (ht : ∀ i, HasPath D opened s (t.fdTableInternal i)) :
    HavePaths D opened (s.setTask k t) := by
  refine ⟨h.fresh, h.later, fun j i => ?_⟩
  have hslot : (s.setTask k t).slot j i = if j = k then t.fdTableInternal i else s.slot j i := by
    unfold slot
    by_cases hj : j = k
    · subst hj
      rw [setTask_self, if_pos rfl]
    · rw [setTask_other s hj, if_neg hj]
  rw [hslot]
  split
  · exact ht i
  · exact h.slots j i

theorem setSlot (h : HavePaths D opened s) (k i : Nat) (hd : HasPath D opened s d) :
    HavePaths D opened (s.setSlot k i d) := by
  refine h.setTask k fun j => ?_
  by_cases hj : j = i
  · subst hj
    dsimp only
    rw [update_self]
    exact hd
  · dsimp only
    rw [update_of_ne hj]
    exact h.slots k j

theorem start (h : HavePaths D opened s) (k : Nat) {t : FdTask} (ht : ∀ i, HasPath D opened s (t.fdTableInternal i)) :
    HavePaths D opened (s.start k t) :=
  (h.setTask k (t := { t with used := true, dead := false, id := s.nextId }) ht).of_nodes rfl (.of_eq rfl rfl)

theorem after (h : HavePaths D opened s) : After (HavePaths D opened) (some s) := after_some h

end HavePaths

/-! ## Nodes and slots -/

theorem refNode_spec (hs : s.refNode n = some s') : s'.tasks = s.tasks ∧ SubNodes s s' := by
  obtain ⟨node, hn, rfl⟩ := Option.map_eq_some_iff.1 hs
  exact ⟨rfl, .of_update hn (fun _ he => by rw [← Option.some.inj he]) rfl rfl⟩

theorem putNode_spec (hs : s.putNode D n = some s') : s'.tasks = s.tasks ∧ SubNodes s s' := by
  obtain ⟨node, hn, rfl⟩ := Option.map_eq_some_iff.1 hs
  split
  · exact ⟨rfl, .of_update hn (fun _ he => by cases he) rfl rfl⟩
  · exact ⟨rfl, .of_update hn (fun _ he => by rw [← Option.some.inj he]) rfl rfl⟩

theorem refNode_paths (h : HavePaths D opened s) (n : Nat) : After (HavePaths D opened) (s.refNode n) := fun _ hs =>
  h.of_nodes (refNode_spec hs).1 (refNode_spec hs).2

theorem putNode_paths (h : HavePaths D opened s) (n : Nat) : After (HavePaths D opened) (s.putNode D n) := fun _ hs =>
  h.of_nodes (putNode_spec hs).1 (putNode_spec hs).2

theorem clearSlot_paths (h : HavePaths D opened s) (k i : Nat) : HavePaths D opened (s.clearSlot k i) :=
  h.setSlot k i (hasPath_empty rfl)

theorem dropSlot_paths (h : HavePaths D opened s) (k i : Nat) : After (HavePaths D opened) (s.dropSlot D k i) := by
  unfold dropSlot
  split
  · exact h.after
  · exact (putNode_paths h _).map fun _ h => clearSlot_paths h k i

theorem putTemp_paths (h : HavePaths D opened s) (kind : κ) : HavePaths D opened (s.putTemp D kind) := by
  unfold putTemp
  split
  · exact h.fs _
  · exact h

theorem eachFd_paths {body : Nat → Files σ κ → Option (Files σ κ)}
    (hbody : ∀ i s, HavePaths D opened s → After (HavePaths D opened) (body i s)) (h : HavePaths D opened s) :
    After (HavePaths D opened) (eachFd body s) := after_foldlM (fun s i h => hbody i s h) _ s h

theorem copyFd_paths (h : HavePaths D opened s) {table old new : Nat} (flags : UInt32 → UInt32) {path : CStr}
    (hpath : HasPath D opened s { s.slot table old with path }) :
    After (HavePaths D opened) (s.copyFd table old new flags path) := by
  have hset : HavePaths D opened (s.setSlot table new ⟨(s.slot table old).node, (s.slot table old).offset,
      flags (s.slot table old).flags, path⟩) := h.setSlot table new (hpath.of_same rfl rfl)
  unfold copyFd
  dsimp only
  split
  · exact hset.after
  · exact refNode_paths hset _

theorem addNode_paths (h : HavePaths D opened s) (refCount : UInt32) (kind : κ) :
    HavePaths D opened (s.addNode refCount kind).1 := by
  refine ⟨fun n hn => ?_, fun n hn => h.later n (Nat.lt_of_succ_lt hn), fun k i => ?_⟩
  · change s.nextNode + 1 ≤ n at hn
    show update s.nodes s.nextNode _ n = none
    rw [update_of_ne (by omega)]
    exact h.fresh n (by omega)
  · refine (h.slots k i).congr (Nat.le_succ _) (fun n hn node' hnode' => ?_) rfl rfl
    change update s.nodes s.nextNode _ n = some node' at hnode'
    rw [update_of_ne (by omega)] at hnode'
    exact ⟨node', hnode', rfl⟩

theorem open_paths (h : HavePaths D opened s) (refCount : UInt32) (kind : κ) (k i : Nat) (hnode : d.node = some s.nextNode)
    (hpath : (D.tree.attrs kind).isDir = true → ∀ p, opened s.nextNode = some p → SamePath d.path p) :
    HavePaths D opened ((s.addNode refCount kind).1.setSlot k i d) := by
  refine (addNode_paths h refCount kind).setSlot k i fun n hn => ?_
  rw [hnode, Option.some.injEq] at hn
  subst hn
  refine ⟨Nat.lt_succ_self _, fun node hn hdir => ?_⟩
  change update s.nodes s.nextNode (some ⟨refCount, kind⟩) s.nextNode = some node at hn
  rw [update_self, Option.some.injEq] at hn
  subst hn
  exact hpath hdir

theorem hasPath_pathless (hn : d.node = some n) (hlt : n < s.nextNode) (hnone : opened n = none) : HasPath D opened s d := by
  intro m hm
  rw [hn, Option.some.injEq] at hm
  subst hm
  refine ⟨hlt, fun _ _ _ p hp => ?_⟩
  rw [hnone] at hp
  cases hp

/-! ## Calls on descriptors -/

theorem sysClose_paths (h : HavePaths D opened s) (fd : Int) :
    After (HavePaths D opened) ((s.sysClose D cur fd).map Prod.fst) := by
  unfold sysClose
  split
  · exact h.after
  split
  · exact h.after
  · exact (dropSlot_paths h _ _).ret fun _ h => h

theorem dropSlot_spec (hs : s.dropSlot D k i = some s') :
    SubNodes s s' ∧ (∀ j, j ≠ i → s'.slot k j = s.slot k j) ∧ (s'.slot k i).path = (s.slot k i).path := by
  unfold dropSlot at hs
  split at hs
  · obtain rfl := Option.some.inj hs
    exact ⟨.of_eq rfl rfl, fun _ _ => rfl, rfl⟩
  · obtain ⟨s1, hs1, rfl⟩ := Option.map_eq_some_iff.1 hs
    obtain ⟨htasks, hsub⟩ := putNode_spec hs1
    have hslot : ∀ j, s1.slot k j = s.slot k j := fun j => by rw [slot, slot, htasks]
    have hclear : ∀ j, (s1.clearSlot k i).slot k j = update (s1.slot k) i { s1.slot k i with node := none } j := fun j => by
      unfold clearSlot setSlot slot
      rw [setTask_self]
    refine ⟨⟨hsub.next, hsub.nodes⟩, fun j hj => ?_, ?_⟩
    · rw [hclear, update_of_ne hj, hslot]
    · rw [hclear, update_self, hslot]

/-- The descriptor `new` gets the node of `old` and keeps its own path, which is the same if it has to be. -/
theorem dupTo_paths (h : HavePaths D opened s) {old new : Int} (flags : UInt32 → UInt32) (hne : old.toNat ≠ new.toNat)
    (hkept : s.PathKept D (s.tasks cur).fdTable old.toNat new.toNat) :
    After (HavePaths D opened) ((s.dupTo D cur old new flags).map Prod.fst) := by
  have hhas : HasPath D opened s { s.slot (s.tasks cur).fdTable old.toNat with
      path := (s.slot (s.tasks cur).fdTable new.toNat).path } := by
    intro n hn
    obtain ⟨hlt, hdir⟩ := h.slots (s.tasks cur).fdTable old.toNat n hn
    exact ⟨hlt, fun node hnode hisdir p hp => (hkept n hn node hnode hisdir).trans (hdir node hnode hisdir p hp)⟩
  unfold dupTo
  dsimp only
  rw [Option.map_bind]
  intro s' hs'
  obtain ⟨s1, hs1, hcopy⟩ := Option.bind_eq_some_iff.1 hs'
  obtain ⟨hsub, hslots, hpath⟩ := dropSlot_spec hs1
  refine (copyFd_paths (dropSlot_paths h _ _ s1 hs1) flags ?_).ret (fun _ h => h) s' hcopy
  rw [hpath]
  refine hhas.congr (Nat.le_of_eq hsub.next.symm) (fun n _ => hsub.nodes n) ?_ rfl
  dsimp only
  rw [hslots _ hne]

theorem validFd_inj {a b : Int} (ha : validFd a) (hb : validFd b) (hne : a ≠ b) : a.toNat ≠ b.toNat := by
  obtain ⟨ha, -⟩ := ha
  obtain ⟨hb, -⟩ := hb
  omega

theorem sysDup2_paths (h : HavePaths D opened s) {old new : Int}
    (hkept : validFd old → validFd new → s.PathKept D (s.tasks cur).fdTable old.toNat new.toNat) :
    After (HavePaths D opened) ((s.sysDup2 D cur old new).map Prod.fst) := by
  unfold sysDup2
  split
  · exact h.after
  rename_i hvalid
  rw [not_or, not_not, not_not] at hvalid
  split
  · exact h.after
  split
  · exact h.after
  · rename_i hne
    exact dupTo_paths h _ (validFd_inj hvalid.1 hvalid.2 hne) (hkept hvalid.1 hvalid.2)

theorem sysDup3_paths (h : HavePaths D opened s) {old new : Int} (flags : UInt32)
    (hkept : validFd old → validFd new → s.PathKept D (s.tasks cur).fdTable old.toNat new.toNat) :
    After (HavePaths D opened) ((s.sysDup3 D cur old new flags).map Prod.fst) := by
  unfold sysDup3
  split
  · exact h.after
  rename_i hne
  split
  · exact h.after
  rename_i hvalid
  rw [not_or, not_not, not_not] at hvalid
  split
  · exact h.after
  · exact dupTo_paths h _ (validFd_inj hvalid.1 hvalid.2 hne) (hkept hvalid.1 hvalid.2)

theorem sysDup_paths (h : HavePaths D opened s) {old : Int}
    (hkept : validFd old → ∀ new, s.freeFd cur 0 = some new → s.PathKept D (s.tasks cur).fdTable old.toNat new) :
    After (HavePaths D opened) ((s.sysDup D cur old).map Prod.fst) := by
  unfold sysDup
  split
  · exact h.after
  split
  · exact h.after
  split
  · exact h.after
  · rename_i new hnew
    exact sysDup2_paths h fun hold _ => hkept hold new hnew

theorem sysFcntl_paths (h : HavePaths D opened s) (fd cmd arg : Int) :
    After (HavePaths D opened) ((s.sysFcntl cur fd cmd arg).map Prod.fst) := by
  have hslot := h.slots (s.tasks cur).fdTable fd.toNat
  unfold sysFcntl
  dsimp only
  split
  · exact h.after
  split
  · exact h.after
  split
  · split
    · exact h.after
    split
    · exact h.after
    · exact (copyFd_paths h _ hslot).ret fun _ h => h
  split
  · exact h.after
  split
  · exact after_some (h.setSlot _ _ (hslot.of_same rfl rfl))
  split
  · exact h.after
  split
  · exact after_some (h.setSlot _ _ (hslot.of_same rfl rfl))
  · exact h.after

theorem sysMmap_paths (h : HavePaths D opened s) (early : Option Int) (fd ret : Int) :
    After (HavePaths D opened) ((s.sysMmap cur early fd ret).map Prod.fst) := by
  unfold sysMmap
  split
  · exact h.after
  split
  · exact h.after
  split
  · exact h.after
  split
  · exact h.after
  · exact (refNode_paths h _).ret fun _ h => h

/-! ## Calls that look -/

theorem sysNewfstatat_paths (h : HavePaths D opened s) (dirfd : Int) (path : UserStr) (mapped : Bool) (flags : UInt32) :
    After (HavePaths D opened) ((s.sysNewfstatat D cur dirfd path mapped flags).map Prod.fst) := by
  unfold sysNewfstatat
  split
  · exact h.after
  split
  · exact h.after
  split
  · exact h.after
  · exact h.after
  split
  · split
    · exact h.after
    split
    · split
      · exact h.after
      · exact (putTemp_paths h _).after
    split
    · exact h.after
    split
    · exact h.after
    · intro s' hs'
      rw [Option.map_map] at hs'
      obtain ⟨node, -, rfl⟩ := Option.map_eq_some_iff.1 hs'
      exact h.fs _
  · split
    · exact h.after
    split
    · exact h.after
    · exact (putTemp_paths h _).after

theorem sysFaccessat_paths (h : HavePaths D opened s) (dirfd : Int) (path : UserStr) (mode : UInt32) :
    HavePaths D opened (s.sysFaccessat D cur dirfd path mode).1 := by
  unfold sysFaccessat
  split
  · exact h
  split
  · exact h
  · exact putTemp_paths h _

theorem sysChmod_paths (h : HavePaths D opened s) (path : UserStr) : HavePaths D opened (s.sysChmod D cur path).1 := by
  unfold sysChmod
  split
  · exact h
  split
  · exact h
  · exact putTemp_paths h _

theorem statChildren_paths (h : HavePaths D opened s) (dir : κ) (names : List CStr) :
    HavePaths D opened (names.foldl (statChild D dir) s) := by
  induction names generalizing s with
  | nil => exact h
  | cons name names ih =>
    rw [List.foldl_cons]
    refine ih ?_
    unfold statChild
    split
    · exact h
    · exact putTemp_paths h _

theorem sysGetdents64_paths (h : HavePaths D opened s) (fd : Int) (mapped : Bool) (count : Nat) (entries : List CStr) :
    After (HavePaths D opened) ((s.sysGetdents64 D cur fd mapped count entries).map Prod.fst) := by
  unfold sysGetdents64
  split
  · exact h.after
  split
  · exact h.after
  · intro s' hs'
    rw [Option.map_map] at hs'
    obtain ⟨node, -, rfl⟩ := Option.map_eq_some_iff.1 hs'
    dsimp only [Function.comp]
    split
    · exact h
    split
    · exact h
    split
    · exact h
    · have hall := statChildren_paths h node.kind (entriesThatFit entries count)
      exact hall.setSlot _ _ ((hall.slots _ _).of_same rfl rfl)

/-! ## Calls that open -/

theorem samePath_take {kpath : CStr} (h : kpath.bytes.length < 128) :
    SamePath (CStr.ofBytes (kpath.bytes.take 127)) kpath := by
  rw [List.take_of_length_le (by omega), Fs.ofBytes_self]
  exact .refl kpath

theorem openNode_paths (h : HavePaths D opened s) (fd : Nat) (kind : κ) (kpath : CStr) (flags : UInt32)
    (hpath : opened s.nextNode = some kpath)
    (hshort : DirNode D (s.openNode D cur fd kind kpath flags).1 s.nextNode (kpath.bytes.length < 128)) :
    HavePaths D opened (s.openNode D cur fd kind kpath flags).1 := by
  unfold openNode at hshort ⊢
  dsimp only at hshort ⊢
  split
  · exact h
  split
  · exact h
  split
  · exact h
  rename_i hdir htrunc hwrite
  rw [if_neg hdir, if_neg htrunc, if_neg hwrite] at hshort
  have hs1 : HavePaths D opened (if flags &&& oTrunc ≠ 0 ∧ (D.tree.attrs kind).flags &&& 7 = 1 then
      { s with fs := D.truncate s.fs kind } else s) := by
    split
    · exact h.fs _
    · exact h
  have hnext : (if flags &&& oTrunc ≠ 0 ∧ (D.tree.attrs kind).flags &&& 7 = 1 then
      { s with fs := D.truncate s.fs kind } else s).nextNode = s.nextNode := by
    split <;> rfl
  generalize (if flags &&& oTrunc ≠ 0 ∧ (D.tree.attrs kind).flags &&& 7 = 1 then
      { s with fs := D.truncate s.fs kind } else s) = s1 at hs1 hnext hshort ⊢
  refine open_paths (hs1.fs (D.openFs s1.fs kind).1) _ _ _ _ rfl fun hisdir p hp => ?_
  have hpk : p = kpath := by
    rw [show ({ s1 with fs := (D.openFs s1.fs kind).1 } : Files σ κ).nextNode = s.nextNode from hnext, hpath] at hp
    exact (Option.some.inj hp).symm
  rw [hpk]
  refine samePath_take (hshort ⟨D.refs kind, (D.openFs s1.fs kind).2⟩ ?_ hisdir)
  rw [← hnext]
  exact update_self ..

theorem putTemp_fs (s : Files σ κ) (kind : κ) : ∃ fs, s.putTemp D kind = { s with fs } := by
  unfold putTemp
  split
  · exact ⟨_, rfl⟩
  · exact ⟨s.fs, rfl⟩

theorem sysOpenat_cases (D : Driver σ κ) (s : Files σ κ) (cur : Nat) (dirfd : Int) (path : UserStr) (flags : UInt32)
    (mode : UInt16) :
    (∃ fs, (s.sysOpenat D cur dirfd path flags mode).1 = { s with fs }) ∨
      ∃ kpath fd kind fs, resolvePath D.tree (s.dirTask cur) dirfd path = .ok kpath ∧
        s.sysOpenat D cur dirfd path flags mode = openNode D { s with fs } cur fd kind kpath flags := by
  unfold sysOpenat
  split
  · exact .inl ⟨s.fs, rfl⟩
  split
  · exact .inl ⟨s.fs, rfl⟩
  rename_i kpath hpath
  split
  · exact .inl ⟨s.fs, rfl⟩
  split
  · exact .inl ⟨s.fs, rfl⟩
  rename_i fd hfd
  dsimp only
  generalize (if kpath.bytes = devAshmem then ((D.shmfsCreateMemfd s.fs).1, some (D.shmfsCreateMemfd s.fs).2)
    else (s.fs, D.tree.lookup s.fs kpath)) = r
  obtain ⟨fs, found⟩ := r
  dsimp only
  split
  · rename_i kind
    split
    · exact .inl (putTemp_fs { s with fs } kind)
    split
    · exact .inl (putTemp_fs { s with fs } kind)
    split
    · exact .inl (putTemp_fs { s with fs } kind)
    · exact .inr ⟨kpath, fd, kind, fs, hpath, rfl⟩
  split
  · exact .inl ⟨fs, rfl⟩
  split
  · exact .inl ⟨fs, rfl⟩
  split
  · exact .inl ⟨fs, rfl⟩
  split
  · exact .inl ⟨fs, rfl⟩
  split
  · exact .inl ⟨_, rfl⟩
  split
  · exact .inl ⟨_, rfl⟩
  · exact .inr ⟨kpath, fd, _, _, hpath, rfl⟩

theorem sysOpenat_paths (h : HavePaths D opened s) {dirfd : Int} {path : UserStr} {flags : UInt32} {mode : UInt16}
    (hopened : opened s.nextNode = (resolvePath D.tree (s.dirTask cur) dirfd path).toOption)
    (hshort : s.OpensShort D cur dirfd path flags mode) :
    HavePaths D opened (s.sysOpenat D cur dirfd path flags mode).1 := by
  rcases sysOpenat_cases D s cur dirfd path flags mode with ⟨fs, hs⟩ | ⟨kpath, fd, kind, fs, hpath, hs⟩
  · rw [hs]
    exact h.fs fs
  · have hdir := hshort kpath hpath
    rw [hpath] at hopened
    rw [hs] at hdir ⊢
    exact openNode_paths (h.fs fs) fd kind kpath flags hopened hdir

theorem sysMemfdCreate_paths (h : HavePaths D opened s) (hnone : opened s.nextNode = none) (name : UserStr) :
    HavePaths D opened (s.sysMemfdCreate D cur name).1 := by
  unfold sysMemfdCreate
  split
  · exact h
  split
  · exact h
  · refine open_paths (h.fs _) 1 _ _ _ rfl fun _ p hp => ?_
    change opened s.nextNode = some p at hp
    rw [hnone] at hp
    cases hp

theorem sysPipe2_paths (h : HavePaths D opened s) (hnone : opened s.nextNode = none) (mapped : Bool) (flags : UInt32) :
    HavePaths D opened (s.sysPipe2 D cur mapped flags).1 := by
  unfold sysPipe2
  split
  · exact h
  split
  · have hnodes := addNode_paths (addNode_paths (h.fs (D.pipe s.fs).1) 1 (D.pipe s.fs).2.1) 1 (D.pipe s.fs).2.2
    refine HavePaths.setSlot (HavePaths.setSlot hnodes _ _ ?_) _ _ ?_
    · exact hasPath_pathless rfl (Nat.lt_succ_of_lt (Nat.lt_succ_self _)) hnone
    · exact hasPath_pathless rfl (Nat.lt_succ_self _) (h.later _ (Nat.lt_succ_self _))
  · exact h

/-! ## Tasks -/

theorem setTask_same (h : HavePaths D opened s) (k : Nat) {t : FdTask}
    (ht : t.fdTableInternal = (s.tasks k).fdTableInternal) :
    HavePaths D opened (s.setTask k t) := h.setTask k fun i => by
  rw [ht]
  exact h.slots k i

theorem reap_paths (h : HavePaths D opened s) (k : Nat) : After (HavePaths D opened) (s.reap D k) := by
  unfold reap
  refine After.map ?_ fun _ h => setTask_same h k rfl
  split
  · exact eachFd_paths (fun i _ h => dropSlot_paths h k i) h
  · exact h.after

theorem findFreeSlot_paths (h : HavePaths D opened s) (active : Nat → Bool) :
    After (HavePaths D opened) ((s.findFreeSlot D active).map Prod.fst) := by
  unfold findFreeSlot
  split
  · exact after_some (setTask_same h _ rfl)
  split
  · exact h.after
  · exact (reap_paths h _).ret fun _ h => setTask_same h _ rfl

theorem newSlot_paths (h : HavePaths D opened s) (active : Nat → Bool) (stack : Bool) :
    After (HavePaths D opened) ((s.newSlot D active stack).map Prod.fst) := by
  unfold newSlot
  split
  · exact h.after
  rw [Option.map_map, Option.map_eq_bind]
  refine after_bind (findFreeSlot_paths h active) fun s o h => ?_
  cases o with
  | none => exact h.after
  | some k =>
    cases stack with
    | true => exact h.after
    | false => exact after_some (setTask_same h k rfl)

theorem refAll_paths (h : HavePaths D opened s) (k : Nat) : After (HavePaths D opened) (s.refAll k) := by
  refine eachFd_paths (fun i s h => ?_) h
  split
  · exact h.after
  · exact refNode_paths h _

theorem copyTable_paths (h : HavePaths D opened s) (cur k : Nat) : After (HavePaths D opened) (s.copyTable cur k) := by
  unfold copyTable
  refine refAll_paths (h.start k ?_) k
  exact fun i => h.slots (s.tasks cur).fdTable i

theorem taskCreate_paths (h : HavePaths D opened s) (active : Nat → Bool) (stack : Bool) :
    After (HavePaths D opened) ((s.taskCreate D active stack).map Prod.fst) := by
  unfold taskCreate
  rw [Option.map_map, Option.map_eq_bind]
  refine after_bind (newSlot_paths h active stack) fun s o h => ?_
  cases o with
  | none => exact h.after
  | some k => exact after_some (h.start k fun i => hasPath_empty rfl)

theorem taskFork_paths (h : HavePaths D opened s) (active : Nat → Bool) (stack : Bool) :
    After (HavePaths D opened) ((s.taskFork D cur active stack).map Prod.fst) := by
  unfold taskFork
  rw [Option.map_bind]
  refine after_bind (newSlot_paths h active stack) fun s o h => ?_
  cases o with
  | none => exact h.after
  | some k => exact (copyTable_paths h cur k).ret fun _ h => h

theorem taskClone_paths (h : HavePaths D opened s) (flags : UInt64) (active : Nat → Bool) (stack : Bool) :
    After (HavePaths D opened) ((s.taskClone D cur flags active stack).map Prod.fst) := by
  unfold taskClone
  rw [Option.map_bind]
  refine after_bind (newSlot_paths h active stack) fun s o h => ?_
  cases o with
  | none => exact h.after
  | some k =>
    show After (HavePaths D opened) (Option.map Prod.fst (if _ then _ else _))
    split
    · exact after_some (h.start k fun i => h.slots k i)
    · exact (copyTable_paths h cur k).ret fun _ h => h

theorem unshareFd_paths (h : HavePaths D opened s) (cur i : Nat) : After (HavePaths D opened) (unshareFd cur i s) := by
  unfold unshareFd
  dsimp only
  split
  · exact after_some (clearSlot_paths h cur i)
  split
  · exact after_some (clearSlot_paths h cur i)
  · exact refNode_paths (h.setSlot cur i (h.slots _ i)) _

theorem taskExec_paths (h : HavePaths D opened s) (loaded : Bool) (ret : Int) :
    After (HavePaths D opened) ((s.taskExec D cur loaded ret).map Prod.fst) := by
  unfold taskExec
  split
  · exact h.after
  split
  · exact (eachFd_paths (fun i _ h => unshareFd_paths h cur i) h).ret fun _ h => setTask_same h cur rfl
  · refine (eachFd_paths (fun i s h => ?_) h).ret fun _ h => h
    unfold closeOnExec
    split
    · exact dropSlot_paths h cur i
    · exact h.after

theorem taskExit_paths (h : HavePaths D opened s) : HavePaths D opened (s.taskExit cur) := by
  have hdead : ∀ k, ((s.setTask cur { s.tasks cur with dead := true }).tasks k).fdTableInternal =
      (s.tasks k).fdTableInternal := by
    intro k
    by_cases hk : k = cur
    · rw [hk, setTask_self]
    · rw [setTask_other s hk]
  refine ⟨h.fresh, h.later, fun k i => ?_⟩
  have hslot : (s.taskExit cur).slot k i = s.slot k i := by
    unfold taskExit slot
    dsimp only
    split
    · exact congrFun (hdead k) i
    · exact congrFun (hdead k) i
  rw [hslot]
  exact h.slots k i

/-! ## Runs -/

theorem runPath_paths (h : HavePaths D opened s) {call : PathCall σ} (hmet : s.PathMet D cur call) :
    After (HavePaths D (update opened s.nextNode (s.openPath D cur call))) (s.runPath D cur call) := by
  have h' := h.update_opened (s.openPath D cur call)
  cases call with
  | other cwd fs =>
    have hcwd := setTask_same h' cur (t := { s.tasks cur with cwd }) rfl
    exact after_some (hcwd.fs fs)
  | file call =>
    cases call with
    | openat dirfd path flags mode => exact after_some (sysOpenat_paths h' (update_self ..) hmet)
    | memfdCreate name => exact after_some (sysMemfdCreate_paths h' (update_self ..) name)
    | pipe2 mapped flags => exact after_some (sysPipe2_paths h' (update_self ..) mapped flags)
    | close fd => exact sysClose_paths h' fd
    | dup old => exact sysDup_paths h' hmet
    | dup2 old new => exact sysDup2_paths h' hmet
    | dup3 old new flags => exact sysDup3_paths h' flags hmet
    | fcntl fd cmd arg => exact sysFcntl_paths h' fd cmd arg
    | mmap early fd ret => exact sysMmap_paths h' early fd ret
    | newfstatat dirfd path mapped flags => exact sysNewfstatat_paths h' dirfd path mapped flags
    | faccessat dirfd path mode => exact after_some (sysFaccessat_paths h' dirfd path mode)
    | chmod path => exact after_some (sysChmod_paths h' path)
    | getdents64 fd mapped count entries => exact sysGetdents64_paths h' fd mapped count entries
    | create active stack => exact taskCreate_paths h' active stack
    | fork active stack => exact taskFork_paths h' active stack
    | clone flags active stack => exact taskClone_paths h' flags active stack
    | exec loaded ret => exact taskExec_paths h' loaded ret
    | exit => exact after_some (taskExit_paths h')
    | wait zombie =>
      show After _ (if _ then _ else _)
      split
      · exact reap_paths h' zombie
      · exact h'.after

theorem HavePaths.sameDirs (h : HavePaths D opened s) (cur : Nat) :
    SameDirs D.tree (s.dirTask cur) (s.wholeTask opened cur) where
  cred := rfl
  cwd := rfl
  table i := by
    have hslot := h.slots (s.tasks cur).fdTable i
    unfold dirTask wholeTask fd
    dsimp only
    cases hn : (s.slot (s.tasks cur).fdTable i).node with
    | none => exact .inl ⟨rfl, rfl⟩
    | some n =>
      cases hnode : s.nodes n with
      | none => exact .inl ⟨by rw [Option.bind_some, hnode]; rfl, by rw [Option.bind_some, hnode]; rfl⟩
      | some node =>
        refine .inr ⟨node.kind, _, _, by rw [Option.bind_some, hnode]; rfl, by rw [Option.bind_some, hnode]; rfl,
          fun hdir => ?_⟩
        cases hp : opened n with
        | none => exact .refl _
        | some p => exact (hslot n hn).2 node hnode hdir p hp

theorem boot_paths (fs : σ) (rootRefs : UInt32) : HavePaths D (fun _ => none) (boot fs rootRefs : Files σ κ) :=
  ⟨fun _ _ => rfl, fun _ _ => rfl, fun _ _ => hasPath_empty rfl⟩

end Files

theorem PathTrace.step_paths {D : Driver σ κ} {t : PathTrace σ κ} (h : After (Files.HavePaths D t.opened) t.files)
    {call : Nat × PathCall σ} (hmet : t.StepMet D call) :
    After (Files.HavePaths D (t.step D call).opened) (t.step D call).files := by
  obtain ⟨files, opened⟩ := t
  cases files with
  | none => exact h
  | some s =>
    have hs := h s rfl
    unfold PathTrace.step
    dsimp only
    split
    · rename_i hruns
      exact Files.runPath_paths hs (hmet s rfl hruns)
    · exact h

/-- **Directories resolve by their whole path**, in every run that opens directories of less than 128 bytes of path and does
not copy them by `dup`, `dup2` or `dup3` onto an entry with another path. -/
theorem directories_resolve (D : Driver σ κ) (fs : σ) (rootRefs : UInt32) (calls : List (Nat × PathCall σ))
    (hmet : Run.Guarded (PathTrace.step D) (PathTrace.StepMet D) (PathTrace.boot fs rootRefs) calls) :
    ∀ t ∈ Run.states (PathTrace.step D) (PathTrace.boot fs rootRefs) calls, ∀ s, t.files = some s →
      ∀ cur, Resolves D.tree s.fs (s.dirTask cur) (s.wholeTask t.opened cur) := by
  have hpaths := Run.states_forall (P := fun t : PathTrace σ κ => After (Files.HavePaths D t.opened) t.files)
    (fun t call ht hc => PathTrace.step_paths ht hc) calls (PathTrace.boot fs rootRefs)
    (after_some (Files.boot_paths fs rootRefs)) hmet
  exact fun t ht s hs cur => ((hpaths t ht s hs).sameDirs cur).resolves s.fs

/-! ## A filesystem of directories -/

def allDirs : Driver Unit Unit where
  tree :=
    { attrs := fun _ => ⟨2, 0o755, 0, 0⟩
      lookup := fun _ _ => some ()
      create := fun _ => none
      mkdir := fun _ => none
      unlink := fun _ => none
      rename := fun _ => none
      link := fun _ => none
      memfd := none }
  refs _ := 1
  length _ _ := 0
  truncate _ _ := ()
  openFs _ _ := ((), ())
  closeFs _ _ := ()
  finddir _ _ _ := none
  shmfsCreateMemfd _ := ((), ())
  pipe _ := ((), (), ())

def openDir (bytes : List UInt8) : Nat × PathCall Unit := (0, .file (.openat atFdcwd (.text (CStr.ofBytes bytes)) 0 0))

def openCopyFork : List (Nat × PathCall Unit) :=
  [openDir [47, 97], (0, .file (.fcntl 3 0 0)), (0, .file (.fork (fun _ => false) true))]

def openDup : List (Nat × PathCall Unit) := [openDir [47, 97], (0, .file (.dup 3))]

def longDir : List UInt8 := 47 :: List.replicate 129 97

theorem copied_dirs_resolve : ∃ s, (openCopyFork.foldl (PathTrace.step allDirs) (PathTrace.boot () 1)).files = some s ∧
    s.runs 1 ∧ ∀ cur, Resolves allDirs.tree () (s.dirTask cur)
      (s.wholeTask (openCopyFork.foldl (PathTrace.step allDirs) (PathTrace.boot () 1)).opened cur) := by
  have hall := directories_resolve allDirs () 1 openCopyFork
    ⟨fun s hs _ kpath hk _ _ _ => ?_, fun _ _ _ => trivial, fun _ _ _ => trivial, trivial⟩ _
      (Run.foldl_mem_states openCopyFork _)
  · have hruns : ((openCopyFork.foldl (PathTrace.step allDirs) (PathTrace.boot () 1)).files.any fun s => decide (s.runs 1)) =
        true := by
      decide +kernel
    obtain ⟨s, hs, hs1⟩ := (Option.any_eq_true _ _).1 hruns
    exact ⟨s, hs, of_decide_eq_true hs1, hall s hs⟩
  · obtain rfl := Option.some.inj hs
    have hshort : ((resolvePath allDirs.tree ((Files.boot () 1 : Files Unit Unit).dirTask 0) atFdcwd
        (.text (CStr.ofBytes [47, 97]))).toOption.all fun k => decide (k.bytes.length < 128)) = true := by decide +kernel
    have hsame : resolvePath allDirs.tree ((Files.boot () 1 : Files Unit Unit).dirTask 0) atFdcwd
        (.text (CStr.ofBytes [47, 97])) = .ok kpath := hk
    rw [hsame] at hshort
    exact of_decide_eq_true hshort

/-- What `x` resolves to from a descriptor, and from the path it was opened with. -/
def fromFd (t : PathTrace Unit Unit) (fd : Int) : Option (Option CStr × Option CStr) :=
  t.files.map fun s => ((resolvePath allDirs.tree (s.dirTask 0) fd (.text (CStr.ofBytes [120]))).toOption,
    (resolvePath allDirs.tree (s.wholeTask t.opened 0) fd (.text (CStr.ofBytes [120]))).toOption)

theorem not_resolves {t : PathTrace Unit Unit} {fd : Int} {a b : Option CStr} (h : fromFd t fd = some (a, b)) (hne : a ≠ b) :
    ∃ s, t.files = some s ∧ ¬ Resolves allDirs.tree () (s.dirTask 0) (s.wholeTask t.opened 0) := by
  obtain ⟨s, hs, hpair⟩ := Option.map_eq_some_iff.1 h
  obtain ⟨ha, hb⟩ := Prod.mk.inj hpair
  refine ⟨s, hs, fun hres => hne ?_⟩
  rw [← ha, ← hb, hres.path]

/-- A copy by `dup` resolves `x` to `/x`, and a path of 130 bytes is cut. -/
theorem stale_path_resolves :
    (∃ s, (openDup.foldl (PathTrace.step allDirs) (PathTrace.boot () 1)).files = some s ∧
      ¬ Resolves allDirs.tree () (s.dirTask 0)
        (s.wholeTask (openDup.foldl (PathTrace.step allDirs) (PathTrace.boot () 1)).opened 0)) ∧
    ∃ s, ([openDir longDir].foldl (PathTrace.step allDirs) (PathTrace.boot () 1)).files = some s ∧
      ¬ Resolves allDirs.tree () (s.dirTask 0)
        (s.wholeTask ([openDir longDir].foldl (PathTrace.step allDirs) (PathTrace.boot () 1)).opened 0) := by
  have hdup : fromFd (openDup.foldl (PathTrace.step allDirs) (PathTrace.boot () 1)) 0 =
      some (some (CStr.ofBytes [47, 120]), some (CStr.ofBytes [47, 97, 47, 120])) := by decide +kernel
  have hlong : fromFd ([openDir longDir].foldl (PathTrace.step allDirs) (PathTrace.boot () 1)) 3 =
      some (some (CStr.ofBytes (longDir.take 127 ++ [47, 120])), some (CStr.ofBytes (longDir ++ [47, 120]))) := by
    decide +kernel
  exact ⟨not_resolves hdup (by decide), not_resolves hlong (by decide +kernel)⟩

end EterOS.Syscall
