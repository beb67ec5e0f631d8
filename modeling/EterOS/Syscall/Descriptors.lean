import EterOS.Syscall.Dirs
/-!
# Descriptors — the tables of open files

The calls of `kernel/arch/x86_64/syscall.c` and the functions of `kernel/task.c` that put a node into a descriptor table,
take one out, or share a table.  A node is named by the allocation that made it; touching one that is freed is `none`.
What lies behind a node is its driver's: `open` and `close` are its callbacks, and the rest of a filesystem is as in
`Dirs`.  `kmalloc` has memory; `cwd_node` is the root or nothing, as no call here sets another.
-/
namespace EterOS.Syscall

open Fs (CStr)
open Function (update)

/-- Filesystems and devices: `κ` is what a node is, but for its references. -/
structure Driver (σ κ : Type*) where
  /-- The names; `memfd` of it is not used here. -/
  tree : Tree σ κ
  /-- `ref_count` as the filesystem leaves it in a node it makes. -/
  refs : κ → UInt32
  length : σ → κ → UInt32
  truncate : σ → κ → σ
  /-- `node->open`: `/dev/ptmx` makes its node another. -/
  openFs : σ → κ → σ × κ
  closeFs : σ → κ → σ
  finddir : σ → κ → CStr → Option κ
  shmfsCreateMemfd : σ → σ × κ
  /-- The pipe of `sys_pipe2`, its read end and its write end. -/
  pipe : σ → σ × κ × κ

structure OpenNode (κ : Type*) where
  refCount : UInt32
  kind : κ

structure FileDescriptor where
  node : Option Nat
  offset : UInt32
  flags : UInt32
  path : CStr

/-- What is read and written of a `task_t`; `fdTable` is the slot whose `fdTableInternal` it points to. -/
structure FdTask where
  /-- Its bit in `task_bitmap`. -/
  used : Bool
  /-- `state == TASK_DEAD`. -/
  dead : Bool
  id : UInt32
  parentId : UInt32
  fdTable : Nat
  fdTableInternal : Nat → FileDescriptor
  cwd : CStr
  cwdNode : Bool
  cred : Cred

structure Files (σ κ : Type*) where
  fs : σ
  nodes : Nat → Option (OpenNode κ)
  /-- The next allocation. -/
  nextNode : Nat
  /-- The nodes closed and freed so far, the last first. -/
  freed : List Nat
  /-- `fs_root->ref_count`. -/
  rootRefs : UInt32
  tasks : Nat → FdTask
  taskCount : Nat
  nextId : UInt32

def maxTasks : Nat := 64

def oCloexec : UInt32 := 0o2000000
def oAppend : UInt32 := 0o2000
def oNonblock : UInt32 := 0o4000

namespace Files

variable {σ κ : Type*} (D : Driver σ κ) (s : Files σ κ)

/-! ## Nodes and slots -/

def slot (k i : Nat) : FileDescriptor := (s.tasks k).fdTableInternal i

def fd (cur i : Nat) : FileDescriptor := s.slot (s.tasks cur).fdTable i

def setTask (k : Nat) (t : FdTask) : Files σ κ := { s with tasks := update s.tasks k t }

def setSlot (k i : Nat) (d : FileDescriptor) : Files σ κ :=
  s.setTask k { s.tasks k with fdTableInternal := update (s.tasks k).fdTableInternal i d }

def clearSlot (k i : Nat) : Files σ κ := s.setSlot k i { s.slot k i with node := none }

def addNode (refCount : UInt32) (kind : κ) : Files σ κ × Nat :=
  ({ s with nodes := update s.nodes s.nextNode (some ⟨refCount, kind⟩), nextNode := s.nextNode + 1 }, s.nextNode)

def refNode (n : Nat) : Option (Files σ κ) :=
  (s.nodes n).map fun node => { s with nodes := update s.nodes n (some { node with refCount := node.refCount + 1 }) }

/-- `if (--ref_count == 0) { close_fs(node); kfree(node); }`. -/
def putNode (n : Nat) : Option (Files σ κ) :=
  (s.nodes n).map fun node =>
    if node.refCount - 1 = 0 then
      { s with fs := D.closeFs s.fs node.kind, nodes := update s.nodes n none, freed := n :: s.freed }
    else { s with nodes := update s.nodes n (some { node with refCount := node.refCount - 1 }) }

def dropSlot (k i : Nat) : Option (Files σ κ) :=
  match (s.slot k i).node with
  | none => some s
  | some n => (s.putNode D n).map fun s => s.clearSlot k i

/-- A node that a call has looked up for itself is put: one reference fewer, and closed if that was the last. -/
def putTemp (kind : κ) : Files σ κ := if D.refs kind - 1 = 0 then { s with fs := D.closeFs s.fs kind } else s

def eachFd (body : Nat → Files σ κ → Option (Files σ κ)) (s : Files σ κ) : Option (Files σ κ) :=
  (List.range maxFd).foldlM (fun s i => body i s) s

def freeFd (cur least : Nat) : Option Nat := ((List.range maxFd).drop least).find? fun i => (s.fd cur i).node.isNone

/-- What `resolve_path` and `check_node_permission` see of a task. -/
def dirTask (cur : Nat) : DirTask κ where
  cred := (s.tasks cur).cred
  cwd := (s.tasks cur).cwd
  fdTable i := (s.fd cur i).node.bind fun n => (s.nodes n).map fun node => (node.kind, (s.fd cur i).path)

/-! ## Opening and closing -/

def openNode (cur fd : Nat) (kind : κ) (kpath : CStr) (flags : UInt32) : Files σ κ × Int :=
  let write := flags &&& oAccmode = 1 ∨ flags &&& oAccmode = 2
  let attrs := D.tree.attrs kind
  if flags &&& oDirectory ≠ 0 ∧ !attrs.isDir then (s, -ENOTDIR)
  else if flags &&& oTrunc ≠ 0 ∧ ¬ write then (s, -EINVAL)
  else if attrs.isDir ∧ write then (s, -EISDIR)
  else
    let s := if flags &&& oTrunc ≠ 0 ∧ attrs.flags &&& 7 = 1 then { s with fs := D.truncate s.fs kind } else s
    let (fs, opened) := D.openFs s.fs kind
    let (s, n) := addNode { s with fs } (D.refs kind) opened
    (s.setSlot (s.tasks cur).fdTable fd
      { node := some n, offset := if flags &&& oAppend ≠ 0 then D.length s.fs opened else 0, flags,
        path := CStr.ofBytes (kpath.bytes.take 127) }, fd)

def sysOpenat (cur : Nat) (dirfd : Int) (path : UserStr) (flags : UInt32) (mode : UInt16) : Files σ κ × Int :=
  if !checkUserString path 256 then (s, -EFAULT)
  else
    match resolvePath D.tree (s.dirTask cur) dirfd path with
    | .error e => (s, -e)
    | .ok kpath =>
      if 2 < flags &&& oAccmode then (s, -EINVAL)
      else
        match s.freeFd cur 3 with
        | none => (s, -EMFILE)
        | some fd =>
          let (fs, found) :=
            if kpath.bytes = devAshmem then
              let (fs, kind) := D.shmfsCreateMemfd s.fs
              (fs, some kind)
            else (s.fs, D.tree.lookup s.fs kpath)
          let s := { s with fs }
          match found with
          | some kind =>
            if flags &&& oNofollow ≠ 0 ∧ (D.tree.attrs kind).isSymlink then (s.putTemp D kind, -ELOOP)
            else if flags &&& oCreat ≠ 0 ∧ flags &&& oExcl ≠ 0 then (s.putTemp D kind, -EEXIST)
            else if !checkNodePermission (s.tasks cur).cred (D.tree.attrs kind) (reqMask flags) then
              (s.putTemp D kind, -EACCES)
            else s.openNode D cur fd kind kpath flags
          | none =>
            if flags &&& oCreat = 0 then (s, -ENOENT)
            else
              match splitPath kpath with
              | none => (s, -ENAMETOOLONG)
              | some (parentPath, filename) =>
                match D.tree.lookup s.fs parentPath with
                | none => (s, -ENOENT)
                | some parent =>
                  if !checkNodePermission (s.tasks cur).cred (D.tree.attrs parent) (2 ||| 1) then (s, -EACCES)
                  else
                    let r := createFs D.tree s.fs parent filename mode
                    let s := { s with fs := r.fs }
                    if r.ret ≠ 0 then (s, - EIO)
                    else
                      match D.tree.lookup s.fs kpath with
                      | none => (s, -ENOENT)
                      | some kind => s.openNode D cur fd kind kpath flags

def sysMemfdCreate (cur : Nat) (name : UserStr) : Files σ κ × Int :=
  if !name.starts then (s, -EFAULT)
  else
    match s.freeFd cur 3 with
    | none => (s, -EMFILE)
    | some fd =>
      let (fs, kind) := D.shmfsCreateMemfd s.fs
      let (s, n) := addNode { s with fs } 1 kind
      let table := (s.tasks cur).fdTable
      (s.setSlot table fd { s.slot table fd with node := some n, offset := 0, flags := 2 }, fd)

/-- `sys_pipe2`; the user's array is there or not. -/
def sysPipe2 (cur : Nat) (mapped : Bool) (flags : UInt32) : Files σ κ × Int :=
  if !mapped then (s, -EFAULT)
  else
    match ((List.range maxFd).drop 3).filter fun i => (s.fd cur i).node.isNone with
    | fd :: fd' :: _ =>
      let (fs, reader, writer) := D.pipe s.fs
      let extra := (flags &&& oCloexec) ||| (flags &&& oNonblock)
      let (s, r) := addNode { s with fs } 1 reader
      let (s, w) := s.addNode 1 writer
      let table := (s.tasks cur).fdTable
      let s := s.setSlot table fd { s.slot table fd with node := some r, offset := 0, flags := extra }
      (s.setSlot table fd' { s.slot table fd' with node := some w, offset := 0, flags := 1 ||| extra }, 0)
    | _ => (s, -EMFILE)

def validFd (fd : Int) : Prop := 0 ≤ fd ∧ fd < maxFd

instance (fd : Int) : Decidable (validFd fd) := inferInstanceAs (Decidable (_ ∧ _))

def sysClose (cur : Nat) (fd : Int) : Option (Files σ κ × Int) :=
  if ¬ validFd fd then some (s, -EBADF)
  else if (s.fd cur fd.toNat).node.isNone then some (s, -EBADF)
  else (s.dropSlot D (s.tasks cur).fdTable fd.toNat).map fun s => (s, 0)

/-- `fd_table[new]` gets what is in `fd_table[old]`, and the node one more reference. -/
def copyFd (table old new : Nat) (flags : UInt32 → UInt32) (path : CStr) : Option (Files σ κ) :=
  let d := s.slot table old
  let s := s.setSlot table new { node := d.node, offset := d.offset, flags := flags d.flags, path }
  match d.node with
  | none => some s
  | some n => s.refNode n

def setCloexec (flags : UInt32) (on : Bool) : UInt32 := if on then flags ||| oCloexec else flags &&& ~~~oCloexec

/-- What `sys_dup2` and `sys_dup3` share: the old node of `new` is closed and that of `old` put there. -/
def dupTo (cur : Nat) (old new : Int) (flags : UInt32 → UInt32) : Option (Files σ κ × Int) :=
  let table := (s.tasks cur).fdTable
  (s.dropSlot D table new.toNat).bind fun s =>
    (s.copyFd table old.toNat new.toNat flags (s.slot table new.toNat).path).map fun s => (s, new)

def sysDup2 (cur : Nat) (old new : Int) : Option (Files σ κ × Int) :=
  if ¬ validFd old ∨ ¬ validFd new then some (s, -EBADF)
  else if (s.fd cur old.toNat).node.isNone then some (s, -EBADF)
  else if old = new then some (s, new)
  else s.dupTo D cur old new id

def sysDup3 (cur : Nat) (old new : Int) (flags : UInt32) : Option (Files σ κ × Int) :=
  if old = new then some (s, -EINVAL)
  else if ¬ validFd old ∨ ¬ validFd new then some (s, -EBADF)
  else if (s.fd cur old.toNat).node.isNone then some (s, -EBADF)
  else s.dupTo D cur old new fun f => setCloexec f (flags &&& oCloexec ≠ 0)

def sysDup (cur : Nat) (old : Int) : Option (Files σ κ × Int) :=
  if ¬ validFd old then some (s, -EBADF)
  else if (s.fd cur old.toNat).node.isNone then some (s, -EBADF)
  else
    match s.freeFd cur 0 with
    | none => some (s, -EMFILE)
    | some new => s.sysDup2 D cur old new

/-- `sys_fcntl`, with the low half of `arg`; the flags of the node are not followed. -/
def sysFcntl (cur : Nat) (fd cmd arg : Int) : Option (Files σ κ × Int) :=
  let table := (s.tasks cur).fdTable
  let d := s.slot table fd.toNat
  if ¬ validFd fd then some (s, -EBADF)
  else if d.node.isNone then some (s, -EBADF)
  else if cmd = 0 ∨ cmd = 1030 then
    -- F_DUPFD, F_DUPFD_CLOEXEC
    if ¬ validFd arg then some (s, -EINVAL)
    else
      match s.freeFd cur arg.toNat with
      | none => some (s, -EMFILE)
      | some new => (s.copyFd table fd.toNat new (setCloexec · (cmd = 1030)) d.path).map fun s => (s, (new : Int))
  else if cmd = 1 then some (s, if d.flags &&& oCloexec ≠ 0 then 1 else 0)
  else if cmd = 2 then some (s.setSlot table fd.toNat { d with flags := setCloexec d.flags (arg % 2 = 1) }, 0)
  else if cmd = 3 then some (s, d.flags.toNat)
  else if cmd = 4 then
    let mask := oAppend ||| oNonblock
    some (s.setSlot table fd.toNat { d with flags := (d.flags &&& ~~~mask) ||| (UInt32.ofInt arg &&& mask) }, 0)
  else some (s, -EINVAL)

/-- What `sys_mmap` does to a descriptor: unless it has returned before (`early`), or has no file, it takes a reference;
`ret` is what it returns in the end. -/
def sysMmap (cur : Nat) (early : Option Int) (fd ret : Int) : Option (Files σ κ × Int) :=
  match early with
  | some e => some (s, e)
  | none =>
    if fd = -1 then some (s, ret)
    else if ¬ validFd fd then some (s, -EBADF)
    else
      match (s.fd cur fd.toNat).node with
      | none => some (s, -EBADF)
      | some n => (s.refNode n).map fun s => (s, ret)

/-! ## Looking without opening -/

def sysNewfstatat (cur : Nat) (dirfd : Int) (path : UserStr) (mapped : Bool) (flags : UInt32) : Option (Files σ κ × Int) :=
  if flags &&& ~~~0x1100 ≠ 0 then some (s, -EINVAL)
  else if !mapped then some (s, -EFAULT)
  else
    match path with
    | .unmapped | .broken => some (s, -EFAULT)
    | .text t =>
      if t.bytes = [] then
        if flags &&& 0x1000 = 0 then some (s, -ENOENT)
        else if dirfd = atFdcwd then
          match D.tree.lookup s.fs (s.tasks cur).cwd with
          | none => some (s, -ENOENT)
          | some kind => some (s.putTemp D kind, 0)
        else if ¬ validFd dirfd then some (s, -EBADF)
        else
          match (s.fd cur dirfd.toNat).node with
          | none => some (s, -EBADF)
          -- the node is copied, with one reference
          | some n => (s.nodes n).map fun node => ({ s with fs := D.closeFs s.fs node.kind }, 0)
      else
        match resolvePath D.tree (s.dirTask cur) dirfd path with
        | .error e => some (s, -e)
        | .ok kpath =>
          match D.tree.lookup s.fs kpath with
          | none => some (s, -ENOENT)
          | some kind => some (s.putTemp D kind, 0)

def sysFaccessat (cur : Nat) (dirfd : Int) (path : UserStr) (mode : UInt32) : Files σ κ × Int :=
  match resolvePath D.tree (s.dirTask cur) dirfd path with
  | .error e => (s, -e)
  | .ok kpath =>
    match D.tree.lookup s.fs kpath with
    | none => (s, -ENOENT)
    | some kind =>
      (s.putTemp D kind, if mode = 0 ∨ checkNodePermission (s.tasks cur).cred (D.tree.attrs kind) (mode &&& 7) then 0
        else -EACCES)

def sysChmod (cur : Nat) (path : UserStr) : Files σ κ × Int :=
  match resolvePath D.tree (s.dirTask cur) atFdcwd path with
  | .error e => (s, -e)
  | .ok kpath =>
    match D.tree.lookup s.fs kpath with
    | none => (s, -ENOENT)
    | some kind =>
      (s.putTemp D kind, if (s.tasks cur).cred.uid ≠ 0 ∧ (s.tasks cur).cred.uid ≠ (D.tree.attrs kind).uid then -EPERM else 0)

/-- One round of the loop of `sys_getdents64`: the child is looked up for its type, and put. -/
def statChild (dir : κ) (s : Files σ κ) (name : CStr) : Files σ κ :=
  match D.finddir s.fs dir name with
  | none => s
  | some kind => s.putTemp D kind

def reclen (name : CStr) : Nat := (19 + name.bytes.length + 1 + 7) / 8 * 8

/-- The entries that fit into `count` bytes, of those `readdir_fs` gives. -/
def entriesThatFit : List CStr → Nat → List CStr
  | [], _ => []
  | name :: names, count => if reclen name ≤ count then name :: entriesThatFit names (count - reclen name) else []

def sysGetdents64 (cur : Nat) (fd : Int) (mapped : Bool) (count : Nat) (entries : List CStr) : Option (Files σ κ × Int) :=
  if ¬ validFd fd then some (s, -EBADF)
  else
    match (s.fd cur fd.toNat).node with
    | none => some (s, -EBADF)
    | some n =>
      (s.nodes n).map fun node =>
        if !(D.tree.attrs node.kind).isDir then (s, -ENOTDIR)
        else if !mapped then (s, -EFAULT)
        else
          let names := entriesThatFit entries count
          if names = [] ∧ entries ≠ [] ∧ 0 < count then (s, -EINVAL)
          else
            let table := (s.tasks cur).fdTable
            let s := names.foldl (statChild D node.kind) s
            let d := s.slot table fd.toNat
            (s.setSlot table fd.toNat { d with offset := d.offset + UInt32.ofNat names.length },
              ((names.map reclen).sum : Nat))

/-! ## Tasks -/

def reap (k : Nat) : Option (Files σ κ) :=
  (if (s.tasks k).fdTable = k then eachFd (fun i s => s.dropSlot D k i) s else some s).map fun s =>
    s.setTask k { s.tasks k with used := false, dead := false, id := 0 }

/-- The orphan `find_free_slot` reaps when all slots are taken; `active` tasks are current on some CPU. -/
def orphan (active : Nat → Bool) : Option Nat :=
  ((List.range maxTasks).drop 1).find? fun i =>
    (s.tasks i).dead && (s.tasks i).parentId == (s.tasks 0).id && !active i

def findFreeSlot (active : Nat → Bool) : Option (Files σ κ × Option Nat) :=
  match (List.range maxTasks).find? fun i => !(s.tasks i).used with
  | some k => some (s.setTask k { s.tasks k with used := true }, some k)
  | none =>
    match s.orphan active with
    | none => some (s, none)
    | some k => (s.reap D k).map fun s => (s.setTask k { s.tasks k with used := true }, some k)

/-- The start of `task_create`, `task_fork` and `task_clone`: a slot, and a stack for it if there is memory. -/
def newSlot (active : Nat → Bool) (stack : Bool) : Option (Files σ κ × Option Nat) :=
  if maxTasks ≤ s.taskCount then some (s, none)
  else
    (s.findFreeSlot D active).map fun
      | (s, none) => (s, none)
      | (s, some k) => if stack then (s, some k) else (s.setTask k { s.tasks k with used := false }, none)

def start (k : Nat) (t : FdTask) : Files σ κ :=
  { s.setTask k { t with used := true, dead := false, id := s.nextId } with
    nextId := s.nextId + 1, taskCount := if s.taskCount ≤ k then k + 1 else s.taskCount
    rootRefs := if t.cwdNode then s.rootRefs + 1 else s.rootRefs }

/-- `for (i = 0; i < MAX_FD; i++) if (fd_table[i].node) ref_count++`. -/
def refAll (k : Nat) : Option (Files σ κ) :=
  eachFd (fun i s =>
    match (s.slot k i).node with
    | none => some s
    | some n => s.refNode n) s

def emptyTable : Nat → FileDescriptor := fun _ => ⟨none, 0, 0, CStr.ofBytes []⟩

def taskCreate (active : Nat → Bool) (stack : Bool) : Option (Files σ κ × Int) :=
  (s.newSlot D active stack).map fun
    | (s, none) => (s, -1)
    | (s, some k) =>
      (s.start k { s.tasks k with
        parentId := 0, fdTable := k, fdTableInternal := emptyTable, cwd := CStr.ofBytes [47], cwdNode := true
        cred := ⟨0, 0, 0, 0⟩ }, s.nextId.toNat)

/-- The table of the parent is copied, and every node in it gets a reference. -/
def copyTable (cur k : Nat) : Option (Files σ κ) :=
  let t := s.tasks cur
  refAll (s.start k { t with parentId := t.id, fdTable := k, fdTableInternal := (s.tasks t.fdTable).fdTableInternal }) k

def taskFork (cur : Nat) (active : Nat → Bool) (stack : Bool) : Option (Files σ κ × Int) :=
  (s.newSlot D active stack).bind fun
    | (s, none) => some (s, -1)
    | (s, some k) => (s.copyTable cur k).map fun s' => (s', s.nextId.toNat)

def cloneFiles : UInt64 := 0x400

def taskClone (cur : Nat) (flags : UInt64) (active : Nat → Bool) (stack : Bool) : Option (Files σ κ × Int) :=
  (s.newSlot D active stack).bind fun
    | (s, none) => some (s, -1)
    | (s, some k) =>
      if flags &&& cloneFiles ≠ 0 then
        let t := s.tasks cur
        some (s.start k { t with parentId := t.id, fdTableInternal := (s.tasks k).fdTableInternal }, s.nextId.toNat)
      else (s.copyTable cur k).map fun s' => (s', s.nextId.toNat)

/-- A round of `task_exec` for a task with a shared table: the descriptor moves to its own table, or does not. -/
def unshareFd (cur i : Nat) (s : Files σ κ) : Option (Files σ κ) :=
  let d := s.fd cur i
  match d.node with
  | none => some (s.clearSlot cur i)
  | some n => if d.flags &&& oCloexec ≠ 0 then some (s.clearSlot cur i) else (s.setSlot cur i d).refNode n

def closeOnExec (cur i : Nat) (s : Files σ κ) : Option (Files σ κ) :=
  if (s.fd cur i).flags &&& oCloexec ≠ 0 then s.dropSlot D cur i else some s

/-- What `task_exec` does to the descriptors, once the program is loaded; `ret` is what it returns. -/
def taskExec (cur : Nat) (loaded : Bool) (ret : Int) : Option (Files σ κ × Int) :=
  if !loaded then some (s, ret)
  else if (s.tasks cur).fdTable ≠ cur then
    (eachFd (unshareFd cur) s).map fun s => (s.setTask cur { s.tasks cur with fdTable := cur }, ret)
  else (eachFd (closeOnExec D cur) s).map fun s => (s, ret)

def taskExit (cur : Nat) : Files σ κ :=
  let s' := s.setTask cur { s.tasks cur with dead := true }
  { s' with
    tasks := fun i =>
      if i < maxTasks ∧ (s'.tasks i).id ≠ 0 ∧ (s'.tasks i).parentId = (s.tasks cur).id then
        { s'.tasks i with parentId := (s.tasks 0).id }
      else s'.tasks i }

end Files

/-! ## Runs -/

inductive FileCall where
  | openat (dirfd : Int) (path : UserStr) (flags : UInt32) (mode : UInt16)
  | memfdCreate (name : UserStr)
  | pipe2 (mapped : Bool) (flags : UInt32)
  | close (fd : Int)
  | dup (old : Int)
  | dup2 (old new : Int)
  | dup3 (old new : Int) (flags : UInt32)
  | fcntl (fd cmd arg : Int)
  | mmap (early : Option Int) (fd ret : Int)
  | newfstatat (dirfd : Int) (path : UserStr) (mapped : Bool) (flags : UInt32)
  | faccessat (dirfd : Int) (path : UserStr) (mode : UInt32)
  | chmod (path : UserStr)
  | getdents64 (fd : Int) (mapped : Bool) (count : Nat) (entries : List CStr)
  | create (active : Nat → Bool) (stack : Bool)
  | fork (active : Nat → Bool) (stack : Bool)
  | clone (flags : UInt64) (active : Nat → Bool) (stack : Bool)
  | exec (loaded : Bool) (ret : Int)
  | exit
  /-- `task_waitpid` finds a dead task that no CPU runs. -/
  | wait (zombie : Nat)

namespace Files

variable {σ κ : Type*} (D : Driver σ κ)

def run (s : Files σ κ) (cur : Nat) : FileCall → Option (Files σ κ)
  | .openat dirfd path flags mode => some (s.sysOpenat D cur dirfd path flags mode).1
  | .memfdCreate name => some (s.sysMemfdCreate D cur name).1
  | .pipe2 mapped flags => some (s.sysPipe2 D cur mapped flags).1
  | .close fd => (s.sysClose D cur fd).map Prod.fst
  | .dup old => (s.sysDup D cur old).map Prod.fst
  | .dup2 old new => (s.sysDup2 D cur old new).map Prod.fst
  | .dup3 old new flags => (s.sysDup3 D cur old new flags).map Prod.fst
  | .fcntl fd cmd arg => (s.sysFcntl cur fd cmd arg).map Prod.fst
  | .mmap early fd ret => (s.sysMmap cur early fd ret).map Prod.fst
  | .newfstatat dirfd path mapped flags => (s.sysNewfstatat D cur dirfd path mapped flags).map Prod.fst
  | .faccessat dirfd path mode => some (s.sysFaccessat D cur dirfd path mode).1
  | .chmod path => some (s.sysChmod D cur path).1
  | .getdents64 fd mapped count entries => (s.sysGetdents64 D cur fd mapped count entries).map Prod.fst
  | .create active stack => (s.taskCreate D active stack).map Prod.fst
  | .fork active stack => (s.taskFork D cur active stack).map Prod.fst
  | .clone flags active stack => (s.taskClone D cur flags active stack).map Prod.fst
  | .exec loaded ret => (s.taskExec D cur loaded ret).map Prod.fst
  | .exit => some (s.taskExit cur)
  | .wait zombie =>
    if zombie < maxTasks ∧ (s.tasks zombie).used = true ∧ (s.tasks zombie).dead = true then s.reap D zombie else some s

def runs (s : Files σ κ) (cur : Nat) : Prop := cur < maxTasks ∧ (s.tasks cur).used = true ∧ (s.tasks cur).dead = false

instance (s : Files σ κ) (cur : Nat) : Decidable (s.runs cur) := inferInstanceAs (Decidable (_ ∧ _ ∧ _))

/-- A task makes a call; `none` is a machine that has touched a freed node. -/
def step (s : Option (Files σ κ)) (call : Nat × FileCall) : Option (Files σ κ) :=
  s.bind fun s => if s.runs call.1 then s.run D call.1 call.2 else some s

def boot (fs : σ) (rootRefs : UInt32) : Files σ κ where
  fs
  rootRefs
  nodes _ := none
  nextNode := 0
  freed := []
  tasks k :=
    { used := k = 0, dead := false, id := 0, parentId := 0, fdTable := 0, fdTableInternal := emptyTable
      cwd := CStr.ofBytes [47], cwdNode := k = 0, cred := ⟨0, 0, 0, 0⟩ }
  taskCount := 1
  nextId := 1

end Files

end EterOS.Syscall
