import EterOS.Fs.Vfs
import EterOS.Syscall.Cred
/-!
# Dirs — the calls that change directories

`kernel/arch/x86_64/syscall.c`: `openat`, `mkdirat`, `unlinkat`, `rmdir`, `renameat`, `linkat`, `symlinkat` and `mknodat`,
with `check_node_permission`, over any filesystems.  What a filesystem does to its names is its own; a call is followed
to the operation it invokes and on which directories.  `kmalloc` has memory: where it has not, these calls return before
they reach a filesystem.
-/
namespace EterOS.Syscall

open Fs (CStr segmentsOf)

structure NodeAttrs where
  flags : UInt32
  mask : UInt32
  uid : UInt32
  gid : UInt32

def NodeAttrs.isDir (a : NodeAttrs) : Bool := a.flags &&& 7 = 2

def NodeAttrs.isSymlink (a : NodeAttrs) : Bool := a.flags &&& 7 = 6

/-- The filesystems: `σ` is the state of their names, `ν` a node; an operation a node does not have is `none`. -/
structure Tree (σ ν : Type*) where
  attrs : ν → NodeAttrs
  /-- `vfs_lookup` from the root; following a link at the end makes no difference. -/
  lookup : σ → CStr → Option ν
  create : ν → Option (σ → CStr → UInt16 → σ × Int)
  mkdir : ν → Option (σ → CStr → UInt16 → σ × Int)
  unlink : ν → Option (σ → CStr → σ × Int)
  rename : ν → Option (σ → CStr → ν → CStr → σ × Int)
  link : ν → Option (σ → ν → CStr → σ × Int)
  /-- `shmfs_create_memfd`. -/
  memfd : Option ν

/-- The fields of `task_t` the calls read; a descriptor has its node and the path it was opened with. -/
structure DirTask (ν : Type*) where
  cred : Cred
  cwd : CStr
  fdTable : Nat → Option (ν × CStr)

/-- A string of the user: its first byte is not there, a later one is not, or all of it is. -/
inductive UserStr where
  | unmapped
  | broken
  | text (s : CStr)

/-- What a call has done: the names after it, its result, and the directories of the operation it has invoked. -/
structure Outcome (σ ν : Type*) where
  fs : σ
  ret : Int
  invoked : Option (List ν)

variable {σ ν : Type*}

def Outcome.refuse (s : σ) (e : Int) : Outcome σ ν := ⟨s, -e, none⟩

def Outcome.invoke (dirs : List ν) (r : σ × Int) : Outcome σ ν := ⟨r.1, r.2, some dirs⟩

/-! ## Permissions -/

def checkNodePermission (c : Cred) (node : NodeAttrs) (req : UInt32) : Bool :=
  if c.euid = 0 then !(req &&& 1 ≠ 0 && node.mask &&& 0o111 = 0 && !node.isDir)
  else
    let granted :=
      if c.euid = node.uid then (node.mask >>> 6) &&& 7
      else if c.egid = node.gid then (node.mask >>> 3) &&& 7
      else node.mask &&& 7
    granted &&& req = req

/-! ## Paths -/

/-- A segment of `vfs_normalize_path` on those so far; `none` is `ENAMETOOLONG`. -/
def normalizeStep (segments : Option (List CStr)) (segment : CStr) : Option (List CStr) :=
  match segments with
  | none => none
  | some l =>
    if segment.bytes = [46] then some l
    else if segment.bytes = [46, 46] then some l.dropLast
    else if l.length < 64 then some (l ++ [segment])
    else none

def vfsNormalizePath (path base : CStr) : Except Int CStr :=
  let temp :=
    if path.bytes.head? = some 47 then path.bytes
    else (if base.bytes.getLast? = some 47 then base.bytes else base.bytes ++ [47]) ++ path.bytes
  let temp := temp.take 1023
  match (segmentsOf temp.length temp).foldl normalizeStep (some []) with
  | none => .error ENAMETOOLONG
  | some [] => .ok (CStr.ofBytes [47])
  | some l => .ok (CStr.ofBytes ((l.flatMap fun c => 47 :: c.bytes).take 1023))

def atFdcwd : Int := -100

def resolvePath (T : Tree σ ν) (t : DirTask ν) (dirfd : Int) (path : UserStr) : Except Int CStr :=
  match path with
  | .unmapped | .broken => .error EFAULT
  | .text s =>
    let s := CStr.ofBytes (s.bytes.take 1023)
    if s.bytes.head? = some 47 then vfsNormalizePath s s
    else if dirfd = atFdcwd then vfsNormalizePath s t.cwd
    else if dirfd < 0 ∨ maxFd ≤ dirfd then .error EBADF
    else
      match t.fdTable dirfd.toNat with
      | none => .error EBADF
      | some (node, base) => if (T.attrs node).isDir then vfsNormalizePath s base else .error ENOTDIR

def lastSlash (l : List UInt8) : Option Nat := (l.reverse.findIdx? fun c => c = 47).map fun i => l.length - 1 - i

def splitPath (path : CStr) : Option (CStr × CStr) :=
  match lastSlash path.bytes with
  | none => if 1024 ≤ path.bytes.length then none else some (CStr.ofBytes [47], path)
  | some i =>
    if 1024 ≤ i then none
    else if 1024 ≤ path.bytes.length - i - 1 then none
    else some (CStr.ofBytes (if i = 0 then [47] else path.bytes.take i), CStr.ofBytes (path.bytes.drop (i + 1)))

/-! ## The operations of a node -/

variable (T : Tree σ ν) (t : DirTask ν) (s : σ)

def createFs (parent : ν) (name : CStr) (permission : UInt16) : Outcome σ ν :=
  match T.create parent with
  | some op => if (T.attrs parent).isDir then .invoke [parent] (op s name permission) else .refuse s ENOTDIR
  | none => .refuse s ENOTDIR

def mkdirFs (parent : ν) (name : CStr) (permission : UInt16) : Outcome σ ν :=
  match T.mkdir parent with
  | some op => if (T.attrs parent).isDir then .invoke [parent] (op s name permission) else .refuse s ENOTDIR
  | none => .refuse s ENOTDIR

def unlinkFs (parent : ν) (name : CStr) : Outcome σ ν :=
  if (T.attrs parent).isDir then
    match T.unlink parent with
    | some op => .invoke [parent] (op s name)
    | none => .refuse s EPERM
  else .refuse s ENOTDIR

def renameFs (oldParent : ν) (oldName : CStr) (newParent : ν) (newName : CStr) : Outcome σ ν :=
  if (T.attrs oldParent).isDir ∧ (T.attrs newParent).isDir then
    match T.rename oldParent with
    | some op => .invoke [oldParent, newParent] (op s oldName newParent newName)
    | none => .refuse s EPERM
  else .refuse s ENOTDIR

def linkFs (parent target : ν) (name : CStr) : Outcome σ ν :=
  match T.link parent with
  | some op => if (T.attrs parent).isDir then .invoke [parent] (op s target name) else .refuse s ENOTDIR
  | none => .refuse s ENOTDIR

/-! ## The calls -/

def checkUserString (path : UserStr) (max : Nat) : Bool :=
  match path with
  | .text s => s.bytes.length < max
  | _ => false

def oAccmode : UInt32 := 3

def oCreat : UInt32 := 0o100

def oExcl : UInt32 := 0o200

def oTrunc : UInt32 := 0o1000

def oDirectory : UInt32 := 0o200000

def oNofollow : UInt32 := 0o400000

def devAshmem : List UInt8 := [47, 100, 101, 118, 47, 97, 115, 104, 109, 101, 109]

def reqMask (flags : UInt32) : UInt32 :=
  if flags &&& oAccmode = 0 then 4 else if flags &&& oAccmode = 1 then 2 else if flags &&& oAccmode = 2 then 6 else 0

/-- The end of `sys_openat`, once it has a node: its result.  What is in the file is not followed. -/
def openNode (node : NodeAttrs) (flags : UInt32) (fd : Nat) : Int :=
  let write := flags &&& oAccmode = 1 ∨ flags &&& oAccmode = 2
  if flags &&& oDirectory ≠ 0 ∧ !node.isDir then -ENOTDIR
  else if flags &&& oTrunc ≠ 0 ∧ ¬ write then -EINVAL
  else if node.isDir ∧ write then -EISDIR
  else fd

def sysOpenat (dirfd : Int) (path : UserStr) (flags : UInt32) (mode : UInt16) : Outcome σ ν :=
  if !checkUserString path 256 then .refuse s EFAULT
  else
    match resolvePath T t dirfd path with
    | .error e => .refuse s e
    | .ok kpath =>
      if 2 < flags &&& oAccmode then .refuse s EINVAL
      else
        match ((List.range maxFd).drop 3).find? fun i => (t.fdTable i).isNone with
        | none => .refuse s EMFILE
        | some fd =>
          match if kpath.bytes = devAshmem then T.memfd else T.lookup s kpath with
          | some node =>
            if flags &&& oNofollow ≠ 0 ∧ (T.attrs node).isSymlink then .refuse s ELOOP
            else if flags &&& oCreat ≠ 0 ∧ flags &&& oExcl ≠ 0 then .refuse s EEXIST
            else if !checkNodePermission t.cred (T.attrs node) (reqMask flags) then .refuse s EACCES
            else ⟨s, openNode (T.attrs node) flags fd, none⟩
          | none =>
            if flags &&& oCreat = 0 then .refuse s ENOENT
            else
              match splitPath kpath with
              | none => .refuse s ENAMETOOLONG
              | some (parentPath, filename) =>
                match T.lookup s parentPath with
                | none => .refuse s ENOENT
                | some parent =>
                  if !checkNodePermission t.cred (T.attrs parent) (2 ||| 1) then .refuse s EACCES
                  else
                    let r := createFs T s parent filename mode
                    if r.ret ≠ 0 then { r with ret := - EIO }
                    else
                      match T.lookup r.fs kpath with
                      | none => { r with ret := -ENOENT }
                      | some node => { r with ret := openNode (T.attrs node) flags fd }

def sysMknodat (dirfd : Int) (pathname : UserStr) (mode : UInt16) : Outcome σ ν := sysOpenat T t s dirfd pathname oCreat mode

/-- The start of the calls on one path: the parent and the name, or an error. -/
def parentOf (dirfd : Int) (path : UserStr) : Except Int (CStr × ν × CStr) :=
  match resolvePath T t dirfd path with
  | .error e => .error e
  | .ok kpath =>
    match splitPath kpath with
    | none => .error ENAMETOOLONG
    | some (parentPath, filename) =>
      match T.lookup s parentPath with
      | none => .error ENOENT
      | some parent => .ok (kpath, parent, filename)

def sysMkdirat (dirfd : Int) (path : UserStr) (mode : UInt16) : Outcome σ ν :=
  match parentOf T t s dirfd path with
  | .error e => .refuse s e
  | .ok (_, parent, filename) =>
    if !checkNodePermission t.cred (T.attrs parent) (2 ||| 1) then .refuse s EACCES
    else mkdirFs T s parent filename mode

def atRemovedir : UInt32 := 0x200

def sysUnlinkat (dirfd : Int) (path : UserStr) (flags : UInt32) : Outcome σ ν :=
  match parentOf T t s dirfd path with
  | .error e => .refuse s e
  | .ok (kpath, parent, filename) =>
    match T.lookup s kpath with
    | none => .refuse s ENOENT
    | some target =>
      if flags &&& atRemovedir ≠ 0 ∧ !(T.attrs target).isDir then .refuse s ENOTDIR
      else if flags &&& atRemovedir = 0 ∧ (T.attrs target).isDir then .refuse s EISDIR
      else if !checkNodePermission t.cred (T.attrs parent) (2 ||| 1) then .refuse s EACCES
      else unlinkFs T s parent filename

def sysRmdir (path : UserStr) : Outcome σ ν :=
  match parentOf T t s atFdcwd path with
  | .error e => .refuse s e
  | .ok (kpath, parent, filename) =>
    match T.lookup s kpath with
    | none => .refuse s ENOENT
    | some target =>
      if !(T.attrs target).isDir then .refuse s ENOTDIR
      else if !checkNodePermission t.cred (T.attrs parent) (2 ||| 1) then .refuse s EACCES
      else unlinkFs T s parent filename

/-- Both paths are resolved and split before either parent is looked up. -/
def sysRenameat (olddirfd : Int) (oldpath : UserStr) (newdirfd : Int) (newpath : UserStr) : Outcome σ ν :=
  match resolvePath T t olddirfd oldpath with
  | .error e => .refuse s e
  | .ok koldpath =>
    match resolvePath T t newdirfd newpath with
    | .error e => .refuse s e
    | .ok knewpath =>
      match splitPath koldpath, splitPath knewpath with
      | some (oldParentPath, oldFilename), some (newParentPath, newFilename) =>
        match T.lookup s oldParentPath, T.lookup s newParentPath with
        | some oldParent, some newParent =>
          if !checkNodePermission t.cred (T.attrs oldParent) (2 ||| 1) ||
              !checkNodePermission t.cred (T.attrs newParent) (2 ||| 1) then .refuse s EACCES
          else renameFs T s oldParent oldFilename newParent newFilename
        | _, _ => .refuse s ENOENT
      | _, _ => .refuse s ENAMETOOLONG

/-- The split of `vfs_link`, with a shorter limit. -/
def linkSplit (newpath : CStr) : Option (CStr × CStr) :=
  match lastSlash newpath.bytes with
  | none => none
  | some i =>
    if 127 ≤ i then none
    else some (CStr.ofBytes (if i = 0 then [47] else newpath.bytes.take i),
      CStr.ofBytes ((newpath.bytes.drop (i + 1)).take 1023))

def vfsLink (oldpath newpath : CStr) : Outcome σ ν :=
  match T.lookup s oldpath with
  | none => .refuse s ENOENT
  | some target =>
    match linkSplit newpath with
    | none => .refuse s ENOENT
    | some (parentPath, name) =>
      match T.lookup s parentPath with
      | none => .refuse s ENOENT
      | some parent => linkFs T s parent target name

def UserStr.starts : UserStr → Bool
  | .unmapped => false
  | _ => true

def sysLinkat (olddirfd : Int) (oldpath : UserStr) (newdirfd : Int) (newpath : UserStr) : Outcome σ ν :=
  if !oldpath.starts || !newpath.starts then .refuse s EFAULT
  else
    match resolvePath T t olddirfd oldpath, resolvePath T t newdirfd newpath with
    | .ok kold, .ok knew => vfsLink T s kold knew
    | _, _ => .refuse s EINVAL

def sysSymlinkat (target : UserStr) (newdirfd : Int) (linkpath : UserStr) : Outcome σ ν :=
  if !checkUserString target 1024 then .refuse s EFAULT
  else
    match parentOf T t s newdirfd linkpath with
    | .error e => .refuse s e
    | .ok (_, parent, filename) =>
      let r := createFs T s parent filename 0o777
      { r with ret := if r.ret < 0 then r.ret else 0 }

inductive DirCall where
  | openat (dirfd : Int) (path : UserStr) (flags : UInt32) (mode : UInt16)
  | mknodat (dirfd : Int) (path : UserStr) (mode : UInt16)
  | mkdirat (dirfd : Int) (path : UserStr) (mode : UInt16)
  | unlinkat (dirfd : Int) (path : UserStr) (flags : UInt32)
  | rmdir (path : UserStr)
  | renameat (olddirfd : Int) (oldpath : UserStr) (newdirfd : Int) (newpath : UserStr)
  | linkat (olddirfd : Int) (oldpath : UserStr) (newdirfd : Int) (newpath : UserStr)
  | symlinkat (target : UserStr) (newdirfd : Int) (linkpath : UserStr)

def DirCall.run : DirCall → Outcome σ ν
  | .openat dirfd path flags mode => sysOpenat T t s dirfd path flags mode
  | .mknodat dirfd path mode => sysMknodat T t s dirfd path mode
  | .mkdirat dirfd path mode => sysMkdirat T t s dirfd path mode
  | .unlinkat dirfd path flags => sysUnlinkat T t s dirfd path flags
  | .rmdir path => sysRmdir T t s path
  | .renameat olddirfd oldpath newdirfd newpath => sysRenameat T t s olddirfd oldpath newdirfd newpath
  | .linkat olddirfd oldpath newdirfd newpath => sysLinkat T t s olddirfd oldpath newdirfd newpath
  | .symlinkat target newdirfd linkpath => sysSymlinkat T t s target newdirfd linkpath

/-! ## What is permitted -/

def Grants (p : ν) : Prop := checkNodePermission t.cred (T.attrs p) (2 ||| 1) = true

/-- An operation is invoked on directories the task may change only, and without one the names are what they were. -/
structure Permitted (r : Outcome σ ν) : Prop where
  granted : ∀ dirs, r.invoked = some dirs → ∀ p ∈ dirs, Grants T t p
  kept : r.invoked = none → r.fs = s

variable {T t s}

theorem Permitted.refuse (e : Int) : Permitted T t s (.refuse s e) := ⟨fun _ h => (nomatch h), fun _ => rfl⟩

theorem Permitted.ret {r : Outcome σ ν} (h : Permitted T t s r) (e : Int) : Permitted T t s { r with ret := e } :=
  ⟨h.granted, h.kept⟩

theorem Permitted.of_ret {r : Outcome σ ν} {e : Int} (h : Permitted T t s { r with ret := e }) : Permitted T t s r :=
  ⟨h.granted, h.kept⟩

theorem permitted_invoke {dirs : List ν} {r : σ × Int} : Permitted T t s (.invoke dirs r) ↔ ∀ p ∈ dirs, Grants T t p := by
  constructor
  · intro h
    apply h.granted
    rfl
  · intro h
    refine ⟨fun dirs' e => ?_, fun e => nomatch e⟩
    obtain rfl : dirs = dirs' := Option.some.inj e
    exact h

theorem permitted_create {parent : ν} {name : CStr} {permission : UInt16} :
    Permitted T t s (createFs T s parent name permission) ↔
      ((T.attrs parent).isDir → (T.create parent).isSome → Grants T t parent) := by
  unfold createFs
  split
  case h_1 op e =>
    split
    case isTrue hd => simp [permitted_invoke, e, hd]
    case isFalse hd => simp [hd, Permitted.refuse]
  case h_2 e => simp [e, Permitted.refuse]

theorem permitted_link {parent target : ν} {name : CStr} : Permitted T t s (linkFs T s parent target name) ↔
      ((T.attrs parent).isDir → (T.link parent).isSome → Grants T t parent) := by
  unfold linkFs
  split
  case h_1 op e =>
    split
    case isTrue hd => simp [permitted_invoke, e, hd]
    case isFalse hd => simp [hd, Permitted.refuse]
  case h_2 e => simp [e, Permitted.refuse]

theorem permitted_mkdir {parent : ν} (h : Grants T t parent) (name : CStr) (permission : UInt16) :
    Permitted T t s (mkdirFs T s parent name permission) := by
  unfold mkdirFs
  split
  · split
    · apply permitted_invoke.mpr
      simpa using h
    · exact .refuse _
  · exact .refuse _

theorem permitted_unlink {parent : ν} (h : Grants T t parent) (name : CStr) :
    Permitted T t s (unlinkFs T s parent name) := by
  unfold unlinkFs
  split
  · split
    · apply permitted_invoke.mpr
      simpa using h
    · exact .refuse _
  · exact .refuse _

theorem permitted_rename {oldParent newParent : ν} (ho : Grants T t oldParent) (hn : Grants T t newParent)
    (oldName newName : CStr) : Permitted T t s (renameFs T s oldParent oldName newParent newName) := by
  unfold renameFs
  split
  · split
    · apply permitted_invoke.mpr
      intro p hp
      rcases List.mem_pair.mp hp with rfl | rfl
      · exact ho
      · exact hn
    · exact .refuse _
  · exact .refuse _

/-! ## The calls that check -/

theorem permitted_openat (dirfd : Int) (path : UserStr) (flags : UInt32) (mode : UInt16) :
    Permitted T t s (sysOpenat T t s dirfd path flags mode) := by
  unfold sysOpenat
  split
  · exact .refuse _
  split
  · exact .refuse _
  split
  · exact .refuse _
  split
  · exact .refuse _
  split
  · -- the node is there
    split
    · exact .refuse _
    split
    · exact .refuse _
    split
    · exact .refuse _
    · exact ⟨fun _ h => (nomatch h), fun _ => rfl⟩
  · split
    · exact .refuse _
    split
    · exact .refuse _
    split
    · exact .refuse _
    next parent _ =>
    split
    · exact .refuse _
    next hg =>
    have hc : ∀ name, Permitted T t s (createFs T s parent name mode) := by
      intro name
      apply permitted_create.mpr
      intro _ _
      simpa [Grants] using hg
    dsimp only
    split
    · exact (hc _).ret _
    · split
      · exact (hc _).ret _
      · exact (hc _).ret _

theorem permitted_mkdirat (dirfd : Int) (path : UserStr) (mode : UInt16) :
    Permitted T t s (sysMkdirat T t s dirfd path mode) := by
  unfold sysMkdirat
  split
  · exact .refuse _
  split
  · exact .refuse _
  next hg => exact permitted_mkdir (by simpa [Grants] using hg) _ _

theorem permitted_unlinkat (dirfd : Int) (path : UserStr) (flags : UInt32) :
    Permitted T t s (sysUnlinkat T t s dirfd path flags) := by
  unfold sysUnlinkat
  split
  · exact .refuse _
  split
  · exact .refuse _
  split
  · exact .refuse _
  split
  · exact .refuse _
  split
  · exact .refuse _
  next hg => exact permitted_unlink (by simpa [Grants] using hg) _

theorem permitted_rmdir (path : UserStr) : Permitted T t s (sysRmdir T t s path) := by
  unfold sysRmdir
  split
  · exact .refuse _
  split
  · exact .refuse _
  split
  · exact .refuse _
  split
  · exact .refuse _
  next hg => exact permitted_unlink (by simpa [Grants] using hg) _

theorem permitted_renameat (olddirfd : Int) (oldpath : UserStr) (newdirfd : Int) (newpath : UserStr) :
    Permitted T t s (sysRenameat T t s olddirfd oldpath newdirfd newpath) := by
  unfold sysRenameat
  split
  · exact .refuse _
  split
  · exact .refuse _
  split
  · split
    · split
      · exact .refuse _
      next hg =>
      rw [Bool.or_eq_true, not_or] at hg
      exact permitted_rename (by simpa [Grants] using hg.1) (by simpa [Grants] using hg.2) _ _
    · exact .refuse _
  · exact .refuse _

/-! ## The calls that do not -/

variable (T t s)

/-- Where a link arrives at a directory that can hold it, the task may change this directory. -/
def LinkMet (olddirfd : Int) (oldpath : UserStr) (newdirfd : Int) (newpath : UserStr) : Prop :=
  ∀ kold knew target parentPath name parent, resolvePath T t olddirfd oldpath = .ok kold →
    resolvePath T t newdirfd newpath = .ok knew →
    T.lookup s kold = some target → linkSplit knew = some (parentPath, name) → T.lookup s parentPath = some parent →
    (T.attrs parent).isDir → (T.link parent).isSome → Grants T t parent

def SymlinkMet (target : UserStr) (newdirfd : Int) (linkpath : UserStr) : Prop :=
  ∀ kpath parent name, checkUserString target 1024 → parentOf T t s newdirfd linkpath = .ok (kpath, parent, name) →
    (T.attrs parent).isDir → (T.create parent).isSome → Grants T t parent

variable {T t s}

theorem resolvePath_starts {dirfd : Int} {path : UserStr} {kpath : CStr} (h : resolvePath T t dirfd path = .ok kpath) :
    path.starts = true := by
  cases path with
  | unmapped => exact nomatch h
  | broken => rfl
  | text _ => rfl

theorem permitted_linkat {olddirfd : Int} {oldpath : UserStr} {newdirfd : Int} {newpath : UserStr} :
    Permitted T t s (sysLinkat T t s olddirfd oldpath newdirfd newpath) ↔
    LinkMet T t s olddirfd oldpath newdirfd newpath := by
  constructor
  · intro h kold knew target parentPath name parent ho hn hl hs hp hd hi
    have hr : Permitted T t s (linkFs T s parent target name) := by
      simpa [sysLinkat, resolvePath_starts ho, resolvePath_starts hn, ho, hn, vfsLink, hl, hs, hp] using h
    exact permitted_link.mp hr hd hi
  · intro h
    unfold sysLinkat
    split
    · exact .refuse _
    split
    · next kold knew ho hn =>
      unfold vfsLink
      split
      · exact .refuse _
      next target hl =>
      split
      · exact .refuse _
      next parentPath name hs =>
      split
      · exact .refuse _
      next parent hp =>
      apply permitted_link.mpr
      exact h kold knew target parentPath name parent ho hn hl hs hp
    · exact .refuse _

theorem permitted_symlinkat {target : UserStr} {newdirfd : Int} {linkpath : UserStr} :
    Permitted T t s (sysSymlinkat T t s target newdirfd linkpath) ↔ SymlinkMet T t s target newdirfd linkpath := by
  constructor
  · intro h kpath parent name hc hp
    apply permitted_create.mp
    · apply Permitted.of_ret
      simpa [sysSymlinkat, hc, hp] using h
  · intro h
    unfold sysSymlinkat
    split
    · exact .refuse _
    next hc =>
    split
    · exact .refuse _
    next kpath parent name hp =>
    apply Permitted.ret
    apply permitted_create.mpr
    exact h kpath parent name (by simpa using hc) hp

def DirCall.Met (T : Tree σ ν) (t : DirTask ν) (s : σ) : DirCall → Prop
  | .linkat olddirfd oldpath newdirfd newpath => LinkMet T t s olddirfd oldpath newdirfd newpath
  | .symlinkat target newdirfd linkpath => SymlinkMet T t s target newdirfd linkpath
  | _ => True

/-- Of the eight calls six change directories with permission; the other two, when they have it anyway. -/
theorem changes_are_permitted (T : Tree σ ν) (t : DirTask ν) (s : σ) (call : DirCall) :
    Permitted T t s (call.run T t s) ↔ call.Met T t s := by
  cases call with
  | openat dirfd path flags mode => exact iff_true_intro (permitted_openat dirfd path flags mode)
  | mknodat dirfd path mode => exact iff_true_intro (permitted_openat dirfd path oCreat mode)
  | mkdirat dirfd path mode => exact iff_true_intro (permitted_mkdirat dirfd path mode)
  | unlinkat dirfd path flags => exact iff_true_intro (permitted_unlinkat dirfd path flags)
  | rmdir path => exact iff_true_intro (permitted_rmdir path)
  | renameat olddirfd oldpath newdirfd newpath =>
    exact iff_true_intro (permitted_renameat olddirfd oldpath newdirfd newpath)
  | linkat olddirfd oldpath newdirfd newpath => exact permitted_linkat
  | symlinkat target newdirfd linkpath => exact permitted_symlinkat

/-! ## A link in the root -/

def rootTree : Tree Nat Bool where
  attrs root := if root then ⟨2, 0o755, 0, 0⟩ else ⟨1, 0o644, 0, 0⟩
  lookup _ path := if path.bytes = [47] then some true else if path.bytes = [47, 102] then some false else none
  create _ := none
  mkdir _ := none
  unlink _ := none
  rename _ := none
  link root := if root then some fun links _ _ => (links + 1, 0) else none
  memfd := none

def plainTask : DirTask Bool where
  cred := { uid := 1000, gid := 1000, euid := 1000, egid := 1000 }
  cwd := CStr.ofBytes [47]
  fdTable _ := none

/-- `linkat(AT_FDCWD, "/f", AT_FDCWD, "/g", 0)` of this user changes the root. -/
theorem link_is_not_checked :
    ¬ ∀ (T : Tree Nat Bool) (t : DirTask Bool) (s : Nat) (call : DirCall), t.cred.euid ≠ 0 →
      Permitted T t s (call.run T t s) := by
  intro h
  have hp := h rootTree plainTask 0
    (.linkat atFdcwd (.text (CStr.ofBytes [47, 102])) atFdcwd (.text (CStr.ofBytes [47, 103]))) (by decide)
  have hg : Grants rootTree plainTask true := hp.granted [true] rfl true (List.mem_singleton.mpr rfl)
  unfold Grants at hg
  exact absurd hg (by decide)

end EterOS.Syscall
