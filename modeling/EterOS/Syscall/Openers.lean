import EterOS.Syscall.DescriptorCloses
import EterOS.Syscall.Pipe
/-!
# Openers — devices that count their users

The ends of a pseudo-terminal (`kernel/fs/devfs.c`), shared memory (`kernel/fs/shmfs.c`) and the ends of a pipe
(`kernel/arch/x86_64/syscall.c`) have an `open` or a `close`, and count.  They are laid over any other filesystems and
devices, whose `open` and `close` touch nothing of theirs; which path leads to what is a parameter.  Neither contents nor
the settings of a terminal are followed, and `kmalloc` has memory.
-/
namespace EterOS.Syscall

open Fs (CStr)
open Function (update update_self update_of_ne)

def maxPtys : Nat := 16

structure PtyPair where
  used : Bool
  locked : Bool
  masterRefs : Int
  slaveRefs : Int

def PtyPair.zero : PtyPair := ⟨false, false, 0, 0⟩

def PtyPair.refs (p : PtyPair) (slave : Bool) : Int := if slave then p.slaveRefs else p.masterRefs

def PtyPair.setRefs (p : PtyPair) (slave : Bool) (n : Int) : PtyPair :=
  if slave then { p with slaveRefs := n } else { p with masterRefs := n }

structure SharedObject where
  name : CStr
  size : UInt32
  refCount : UInt32

structure Objects (ρ : Type*) where
  rest : ρ
  ptys : Nat → PtyPair
  /-- The list of those with a name. -/
  shmObjects : List Nat
  shm : Nat → Option SharedObject
  nextShm : Nat
  pipes : Nat → Option Pipe
  nextPipe : Nat

inductive NodeKind (κ : Type*) where
  | other (kind : κ)
  | ptmx
  | ptsDir
  | pty (id : Nat) (slave : Bool)
  | shmRoot
  | shm (obj : Nat)
  | pipe (pipe : Nat) (readEnd : Bool)
deriving DecidableEq

inductive Place where
  | other
  | ptmx
  | ptsDir
  | pts (name : CStr)
  | shmRoot
  | shm (name : CStr)

namespace Objects

variable {ρ κ : Type*} (o : Objects ρ)

/-! ## Pseudo-terminals -/

def hasPty (id : Nat) : Bool := id < maxPtys && (o.ptys id).used

def devPtyOpen (id : Nat) (slave : Bool) : Objects ρ :=
  if o.hasPty id then
    { o with ptys := update o.ptys id ((o.ptys id).setRefs slave ((o.ptys id).refs slave + 1)) }
  else o

def devPtyClose (id : Nat) (slave : Bool) : Objects ρ :=
  if o.hasPty id then
    let p := o.ptys id
    let p := if 0 < p.refs slave then p.setRefs slave (p.refs slave - 1) else p
    { o with ptys := update o.ptys id (if p.masterRefs = 0 ∧ p.slaveRefs = 0 then PtyPair.zero else p) }
  else o

/-- The node of `/dev/ptmx` is made a master's; without a pair that is free it stays as it was, and reads nothing. -/
def devPtmxOpen : Objects ρ × NodeKind κ :=
  match (List.range maxPtys).find? fun i => !(o.ptys i).used with
  | none => (o, .ptmx)
  | some id => ({ o with ptys := update o.ptys id ⟨true, false, 1, 0⟩ }, .pty id false)

def ptsId (name : CStr) : UInt32 := name.bytes.foldl (fun id c => id * 10 + (c.toUInt32 - 48)) 0

def devfsPtsFinddir (name : CStr) : Option (NodeKind κ) :=
  let id := (ptsId name).toNat
  if name.bytes = [] then none
  else if name.bytes.any fun c => c < 48 || 57 < c then none
  else if maxPtys ≤ id then none
  else if !(o.ptys id).used || (o.ptys id).locked then none
  else some (.pty id true)

/-! ## Shared memory -/

def shmFindObject (name : CStr) : Option Nat :=
  o.shmObjects.find? fun i => (o.shm i).any fun obj => obj.name = name

def shmCreateObject (name : CStr) : Objects ρ :=
  { o with
    shm := update o.shm o.nextShm (some ⟨CStr.ofBytes (name.bytes.take 127), 0, 1⟩)
    nextShm := o.nextShm + 1
    shmObjects := if name.bytes ≠ [] then o.nextShm :: o.shmObjects else o.shmObjects }

def shmFreeObject (obj : Nat) : Objects ρ :=
  { o with shm := update o.shm obj none, shmObjects := o.shmObjects.erase obj }

def shmfsClose (obj : Nat) : Objects ρ :=
  match o.shm obj with
  | none => o
  | some object =>
    let refCount := object.refCount - 1
    let o := { o with shm := update o.shm obj (some { object with refCount }) }
    if refCount = 0 ∧ object.name.bytes = [] then o.shmFreeObject obj else o

def shmfsCreateMemfd : Objects ρ × NodeKind κ := (o.shmCreateObject (CStr.ofBytes []), .shm o.nextShm)

def shmfsTruncate (obj : Nat) (length : UInt32) : Objects ρ :=
  { o with shm := update o.shm obj ((o.shm obj).map fun object => { object with size := length }) }

def shmfsFinddir (name : CStr) : Option (NodeKind κ) := (o.shmFindObject name).map .shm

def shmfsCreate (name : CStr) : Objects ρ :=
  match o.shmFindObject name with
  | some _ => o
  | none => o.shmCreateObject name

/-! ## Pipes -/

def makePipe : Objects ρ × NodeKind κ × NodeKind κ :=
  ({ o with pipes := update o.pipes o.nextPipe (some (.new fun _ => 0)), nextPipe := o.nextPipe + 1 },
    .pipe o.nextPipe true, .pipe o.nextPipe false)

def closePipe (p : Nat) (readEnd : Bool) : Objects ρ :=
  { o with pipes := update o.pipes p ((o.pipes p).bind fun pipe => pipeClose pipe readEnd) }

/-! ## The driver -/

variable (D : Driver ρ κ) (route : CStr → Place)

def lookup (path : CStr) : Option (NodeKind κ) :=
  match route path with
  | .other => (D.tree.lookup o.rest path).map .other
  | .ptmx => some .ptmx
  | .ptsDir => some .ptsDir
  | .pts name => o.devfsPtsFinddir name
  | .shmRoot => some .shmRoot
  | .shm name => o.shmfsFinddir name

def attrs : NodeKind κ → NodeAttrs
  | .other kind => D.tree.attrs kind
  | .ptmx | .pty _ _ => ⟨3, 0o666, 0, 0⟩
  | .ptsDir => ⟨2, 0o555, 0, 0⟩
  | .shmRoot => ⟨2, 0o777, 0, 0⟩
  | .shm _ => ⟨1, 0o666, 0, 0⟩
  | .pipe _ _ => ⟨5, 0, 0, 0⟩

/-- `create` of the other filesystems and of shared memory; the devices have none. -/
def create : NodeKind κ → Option (Objects ρ → CStr → UInt16 → Objects ρ × Int)
  | .other kind => (D.tree.create kind).map fun op o name permission =>
      let (rest, ret) := op o.rest name permission
      ({ o with rest }, ret)
  | .shmRoot => some fun o name _ => (o.shmfsCreate name, 0)
  | _ => none

def truncate : NodeKind κ → Objects ρ
  | .other kind => { o with rest := D.truncate o.rest kind }
  | .shm obj => o.shmfsTruncate obj 0
  | _ => o

/-- `shmfs_open` and `pipe_open` do nothing. -/
def openFs : NodeKind κ → Objects ρ × NodeKind κ
  | .other kind =>
    let (rest, kind) := D.openFs o.rest kind
    ({ o with rest }, .other kind)
  | .ptmx => o.devPtmxOpen
  | .pty id slave => (o.devPtyOpen id slave, .pty id slave)
  | kind => (o, kind)

def closeFs : NodeKind κ → Objects ρ
  | .other kind => { o with rest := D.closeFs o.rest kind }
  | .pty id slave => o.devPtyClose id slave
  | .shm obj => o.shmfsClose obj
  | .pipe p readEnd => o.closePipe p readEnd
  | _ => o

def finddir (dir : NodeKind κ) (name : CStr) : Option (NodeKind κ) :=
  match dir with
  | .other kind => (D.finddir o.rest kind name).map .other
  | .ptsDir => o.devfsPtsFinddir name
  | .shmRoot => o.shmfsFinddir name
  | _ => none

/-- The devices over `D`; of the operations on names only `create` is reached by the calls of `Descriptors`. -/
def driver : Driver (Objects ρ) (NodeKind κ) where
  tree :=
    { attrs := attrs D
      lookup := fun o path => o.lookup D route path
      create := create D
      mkdir := fun _ => none
      unlink := fun _ => none
      rename := fun _ => none
      link := fun _ => none
      memfd := none }
  refs
    | .other kind => D.refs kind
    | _ => 1
  length o
    | .other kind => D.length o.rest kind
    | .shm obj => (o.shm obj).elim 0 SharedObject.size
    | _ => 0
  truncate o := o.truncate D
  openFs o := o.openFs D
  closeFs o := o.closeFs D
  finddir o := o.finddir D
  shmfsCreateMemfd o := o.shmfsCreateMemfd
  pipe o := o.makePipe

def boot (rest : ρ) : Objects ρ where
  rest
  ptys _ := PtyPair.zero
  shmObjects := []
  shm _ := none
  nextShm := 0
  pipes _ := none
  nextPipe := 0

end Objects

/-! ## Users -/

/-- A kind with `open` or `close` that counts. -/
def NodeKind.counts {κ : Type*} : NodeKind κ → Bool
  | .pty _ _ | .shm _ | .pipe _ _ => true
  | _ => false

namespace Objects

variable {ρ κ : Type*}

/-- How many users an object counts: `master_refs` or `slave_refs`, `ref_count`, `readers` or `writers`; one that is
freed has none. -/
def users (o : Objects ρ) : NodeKind κ → Int
  | .pty id slave => if id < maxPtys then (o.ptys id).refs slave else 0
  | .shm obj => (o.shm obj).elim 0 fun object => object.refCount.toNat
  | .pipe p readEnd => (o.pipes p).elim 0 fun pipe => if readEnd then pipe.readers else pipe.writers
  | _ => 0

def Counted (o : Objects ρ) (kinds : Nat → Option (NodeKind κ)) : Prop :=
  ∀ kind : NodeKind κ, kind.counts = true → ∃ c : Nat, o.users kind = c ∧ Holders kinds kind c

structure Sane (o : Objects ρ) : Prop where
  unused : ∀ id, (o.ptys id).used = false → ∀ slave, (o.ptys id).refs slave = 0
  shm : ∀ i, o.nextShm ≤ i → o.shm i = none
  pipes : ∀ p, o.nextPipe ≤ p → o.pipes p = none

structure Steady (o : Objects ρ) (kinds : Nat → Option (NodeKind κ)) : Prop where
  sane : Sane o
  counted : Counted o kinds

variable {o o' : Objects ρ} {kinds : Nat → Option (NodeKind κ)} {kind : NodeKind κ} {n : Nat}

/-- From `o` to `o'` the users of one object change by `d`, and no others. -/
structure Moves (o o' : Objects ρ) (kind : NodeKind κ) (d : Int) : Prop where
  sane : Sane o'
  self : kind.counts = true → o'.users kind = o.users kind + d
  other : ∀ kind' : NodeKind κ, kind' ≠ kind → o'.users kind' = o.users kind'

structure Still (κ : Type*) (o o' : Objects ρ) : Prop where
  sane : Sane o'
  users : ∀ kind : NodeKind κ, o'.users kind = o.users kind

theorem Steady.still (h : Steady o kinds) (hs : Still κ o o') : Steady o' kinds := by
  refine ⟨hs.sane, fun kind hkind => ?_⟩
  rw [hs.users kind]
  exact h.counted kind hkind

theorem Steady.fill (h : Steady o kinds) (hn : kinds n = none) (hm : Moves o o' kind 1) :
    Steady o' (update kinds n (some kind)) := by
  refine ⟨hm.sane, fun kind' hkind => ?_⟩
  obtain ⟨c, hc, hlive⟩ := h.counted kind' hkind
  by_cases he : kind' = kind
  · subst he
    refine ⟨c + 1, ?_, hlive.fill hn⟩
    rw [hm.self hkind, hc]
    rfl
  · refine ⟨c, ?_, hlive.fill_other hn (Ne.symm he)⟩
    rw [hm.other kind' he, hc]

theorem Steady.clear (h : Steady o kinds) (hn : kinds n = some kind) (hm : Moves o o' kind (-1)) :
    Steady o' (update kinds n none) := by
  refine ⟨hm.sane, fun kind' hkind => ?_⟩
  obtain ⟨c, hc, hlive⟩ := h.counted kind' hkind
  by_cases he : kind' = kind
  · subst he
    have hpos := hlive.pos hn
    obtain ⟨c, rfl⟩ := Nat.exists_eq_succ_of_ne_zero (Nat.ne_of_gt hpos)
    refine ⟨c, ?_, hlive.clear hn⟩
    rw [hm.self hkind, hc]
    push_cast
    omega
  · refine ⟨c, ?_, hlive.clear_other hn (Ne.symm he)⟩
    rw [hm.other kind' he, hc]

theorem Steady.users_pos (h : Steady o kinds) (hn : kinds n = some kind) (hkind : kind.counts = true) :
    0 < o.users kind := by
  obtain ⟨c, hc, hlive⟩ := h.counted kind hkind
  have := hlive.pos hn
  omega

theorem Counted.nonneg (h : Counted o kinds) (hkind : kind.counts = true) : 0 ≤ o.users kind := by
  obtain ⟨c, hc, -⟩ := h kind hkind
  omega

/-! ## Callbacks -/

@[simp] theorem users_pty (o : Objects ρ) (id : Nat) (slave : Bool) :
    o.users (.pty id slave : NodeKind κ) = if id < maxPtys then (o.ptys id).refs slave else 0 := rfl

@[simp] theorem users_shm (o : Objects ρ) (i : Nat) :
    o.users (.shm i : NodeKind κ) = (o.shm i).elim 0 fun object => (object.refCount.toNat : Int) := rfl

@[simp] theorem users_pipe (o : Objects ρ) (p : Nat) (readEnd : Bool) : o.users (.pipe p readEnd : NodeKind κ) =
      (o.pipes p).elim 0 fun pipe => if readEnd then pipe.readers else pipe.writers := rfl

theorem PtyPair.refs_setRefs (p : PtyPair) (slave : Bool) (n : Int) : (p.setRefs slave n).refs slave = n := by
  cases slave <;> rfl

variable {slave : Bool}

theorem PtyPair.refs_setRefs_other (p : PtyPair) {slave' : Bool} (h : slave' ≠ slave) (n : Int) :
    (p.setRefs slave n).refs slave' = p.refs slave' := by
  cases slave <;> cases slave' <;> first | rfl | exact absurd rfl h

theorem PtyPair.used_setRefs (p : PtyPair) (slave : Bool) (n : Int) : (p.setRefs slave n).used = p.used := by
  cases slave <;> rfl

theorem hasPty_iff (o : Objects ρ) (id : Nat) : o.hasPty id = true ↔ id < maxPtys ∧ (o.ptys id).used = true := by
  unfold hasPty
  rw [Bool.and_eq_true, decide_eq_true_eq]

variable {p : PtyPair}

theorem Sane.setPty (h : Sane o) (id : Nat) (hp : p.used = false → ∀ slave, p.refs slave = 0) :
    Sane { o with ptys := update o.ptys id p } := by
  refine ⟨fun id' => ?_, h.shm, h.pipes⟩
  show (update o.ptys id p id').used = false → ∀ slave, (update o.ptys id p id').refs slave = 0
  by_cases he : id' = id
  · subst he
    rw [update_self]
    exact hp
  · rw [update_of_ne he]
    exact h.unused id'

variable {id : Nat}

theorem users_setPty (o : Objects ρ) (p : PtyPair) (kind : NodeKind κ)
    (hsame : ∀ slave, kind = .pty id slave → p.refs slave = (o.ptys id).refs slave) :
    users { o with ptys := update o.ptys id p } kind = o.users kind := by
  cases kind with
  | pty id' slave =>
    by_cases he : id' = id
    · subst he
      simp [users_pty, hsame slave rfl]
    · simp [users_pty, update_of_ne he]
  | _ => rfl

theorem Moves.setPty (h : Sane o) {d : Int} (hid : id < maxPtys) (hself : p.refs slave = (o.ptys id).refs slave + d)
    (hother : ∀ slave', slave' ≠ slave → p.refs slave' = (o.ptys id).refs slave')
    (hp : p.used = false → ∀ slave, p.refs slave = 0) :
    Moves o { o with ptys := update o.ptys id p } (.pty id slave : NodeKind κ) d := by
  refine ⟨h.setPty id hp, fun _ => ?_, fun kind hne => users_setPty o p kind ?_⟩
  · simp only [users_pty, if_pos hid, update_self]
    exact hself
  · rintro slave' rfl
    apply hother
    rintro rfl
    exact hne rfl

theorem devPtyOpen_moves (h : Sane o) (hid : o.hasPty id = true) (slave : Bool) :
    Moves o (o.devPtyOpen id slave) (.pty id slave : NodeKind κ) 1 := by
  obtain ⟨hlt, hused⟩ := (hasPty_iff o id).mp hid
  unfold devPtyOpen
  rw [if_pos hid]
  refine Moves.setPty h hlt ?_ (fun slave' hne => ?_) fun hno => ?_
  · rw [PtyPair.refs_setRefs]
  · rw [PtyPair.refs_setRefs_other _ hne]
  · rw [PtyPair.used_setRefs, hused] at hno
    cases hno

theorem cleared_refs (p : PtyPair) (slave : Bool) :
    (if p.masterRefs = 0 ∧ p.slaveRefs = 0 then PtyPair.zero else p).refs slave = p.refs slave := by
  split
  next h =>
    cases slave with
    | true => exact h.2.symm
    | false => exact h.1.symm
  · rfl

theorem cleared_used (hp : p.used = true)
    (hno : (if p.masterRefs = 0 ∧ p.slaveRefs = 0 then PtyPair.zero else p).used = false) (slave : Bool) :
    (if p.masterRefs = 0 ∧ p.slaveRefs = 0 then PtyPair.zero else p).refs slave = 0 := by
  by_cases hzero : p.masterRefs = 0 ∧ p.slaveRefs = 0
  · rw [if_pos hzero]
    cases slave <;> rfl
  · rw [if_neg hzero, hp] at hno
    cases hno

theorem devPtyClose_moves (h : Sane o) (hu : 0 < o.users (.pty id slave : NodeKind κ)) :
    Moves o (o.devPtyClose id slave) (.pty id slave : NodeKind κ) (-1) := by
  have hlt : id < maxPtys := by
    by_contra hno
    rw [users_pty, if_neg hno] at hu
    exact Int.lt_irrefl 0 hu
  rw [users_pty, if_pos hlt] at hu
  have hused : (o.ptys id).used = true := by
    by_contra hno
    rw [h.unused id (Bool.eq_false_iff.mpr hno) slave] at hu
    exact Int.lt_irrefl 0 hu
  unfold devPtyClose
  rw [if_pos ((hasPty_iff o id).mpr ⟨hlt, hused⟩)]
  dsimp only
  rw [if_pos hu]
  refine Moves.setPty h hlt ?_ (fun slave' hne => ?_) fun hno => ?_
  · rw [cleared_refs, PtyPair.refs_setRefs]
    rfl
  · rw [cleared_refs, PtyPair.refs_setRefs_other _ hne]
  · refine cleared_used ?_ hno
    rw [PtyPair.used_setRefs, hused]

theorem devPtyClose_still (h : Sane o)
    (hidle : o.hasPty id = true → (o.ptys id).refs slave = 0) : Still κ o (o.devPtyClose id slave) := by
  unfold devPtyClose
  split
  case isTrue hid =>
    have hused := ((hasPty_iff o id).mp hid).2
    have hzero := hidle hid
    have hnot : ¬ 0 < (o.ptys id).refs slave := by omega
    dsimp only
    simp only [if_neg hnot]
    refine ⟨h.setPty id fun hno => cleared_used hused hno, fun kind => users_setPty o _ kind ?_⟩
    rintro slave' -
    exact cleared_refs _ slave'
  case isFalse => exact ⟨h, fun _ => rfl⟩

theorem devPtmxOpen_moves (h : Sane o) :
    Moves o (o.devPtmxOpen : Objects ρ × NodeKind κ).1 (o.devPtmxOpen : Objects ρ × NodeKind κ).2 1 := by
  unfold devPtmxOpen
  split
  case h_1 =>
    refine ⟨h, fun hcounts => ?_, fun _ _ => rfl⟩
    cases hcounts
  case h_2 id hfind =>
    have hlt : id < maxPtys := List.mem_range.mp (List.mem_of_find?_eq_some hfind)
    have hfree : (o.ptys id).used = false := by
      simpa using List.find?_some (p := fun i => !(o.ptys i).used) hfind
    refine Moves.setPty h hlt ?_ (fun slave' hne => ?_) fun hno => ?_
    · rw [h.unused id hfree]
      rfl
    · rw [h.unused id hfree]
      cases slave' with
      | true => rfl
      | false => exact absurd rfl hne
    · cases hno

theorem users_setShm (o : Objects ρ) (i : Nat) (object : Option SharedObject) (hne : kind ≠ .shm i) :
    users { o with shm := update o.shm i object } kind = o.users kind := by
  cases kind with
  | shm j =>
    have hj : j ≠ i := by
      rintro rfl
      exact hne rfl
    simp [users_shm, update_of_ne hj]
  | _ => rfl

theorem users_setShm_self (κ : Type*) (o : Objects ρ) (i : Nat) (object : Option SharedObject) :
    users { o with shm := update o.shm i object } (.shm i : NodeKind κ) =
      object.elim 0 fun object => (object.refCount.toNat : Int) := by
  show (update o.shm i object i).elim (0 : Int) _ = _
  rw [update_self]

theorem shmCreateObject_moves (h : Sane o) (name : CStr) :
    Moves o (o.shmCreateObject name) (.shm o.nextShm : NodeKind κ) 1 := by
  refine ⟨⟨h.unused, fun i hi => ?_, h.pipes⟩, fun _ => ?_, fun kind hne => ?_⟩
  · show update o.shm o.nextShm _ i = none
    have hlt : o.nextShm < i := hi
    rw [update_of_ne (Nat.ne_of_gt hlt)]
    exact h.shm i (Nat.le_of_lt hlt)
  · rw [users_shm o, h.shm o.nextShm (Nat.le_refl _)]
    exact users_setShm_self κ o o.nextShm _
  · exact users_setShm o o.nextShm _ hne

theorem shmfsClose_moves (h : Sane o) {i : Nat} (hu : 0 < o.users (.shm i : NodeKind κ)) :
    Moves o (o.shmfsClose i) (.shm i : NodeKind κ) (-1) := by
  unfold shmfsClose
  rw [users_shm] at hu
  split
  next hnone =>
    rw [hnone] at hu
    exact absurd hu (Int.lt_irrefl 0)
  next object hsome =>
  rw [hsome, Option.elim_some] at hu
  have hlt : i < o.nextShm := by
    by_contra hno
    rw [h.shm i (Nat.le_of_not_lt hno)] at hsome
    cases hsome
  have hpred : ((object.refCount - 1).toNat : Int) = object.refCount.toNat - 1 := by
    have := Files.pred_toNat (r := object.refCount) (by omega)
    omega
  have hsane : ∀ x : Option SharedObject, ∀ j, o.nextShm ≤ j → update o.shm i x j = none := by
    intro x j hj
    rw [update_of_ne (by omega)]
    exact h.shm j hj
  dsimp only
  split
  next hfree =>
    unfold shmFreeObject
    dsimp only
    rw [Function.update_idem]
    refine ⟨⟨h.unused, hsane none, h.pipes⟩, fun _ => ?_, fun kind hne => users_setShm o i none hne⟩
    refine (users_setShm_self κ o i none).trans ?_
    rw [hfree.1] at hpred
    rw [users_shm, hsome, Option.elim_none, Option.elim_some]
    exact hpred
  next =>
    refine ⟨⟨h.unused, hsane _, h.pipes⟩, fun _ => ?_, fun kind hne => users_setShm o i _ hne⟩
    refine (users_setShm_self κ o i _).trans ?_
    rw [users_shm, hsome, Option.elim_some, Option.elim_some]
    exact hpred

theorem shmfsTruncate_still (h : Sane o) (i : Nat) (length : UInt32) : Still κ o (o.shmfsTruncate i length) := by
  unfold shmfsTruncate
  refine ⟨⟨h.unused, fun j hj => ?_, h.pipes⟩, fun kind => ?_⟩
  · show update o.shm i _ j = none
    by_cases he : j = i
    · subst he
      rw [update_self, h.shm j hj, Option.map_none]
    · rw [update_of_ne he]
      exact h.shm j hj
  · by_cases he : kind = .shm i
    · subst he
      rw [users_setShm_self, users_shm]
      cases o.shm i <;> rfl
    · exact users_setShm o i _ he

theorem users_setPipe (o : Objects ρ) (p : Nat) (pipe : Option Pipe) (hne : ∀ readEnd, kind ≠ .pipe p readEnd) :
    users { o with pipes := update o.pipes p pipe } kind = o.users kind := by
  cases kind with
  | pipe q readEnd =>
    have hq : q ≠ p := by
      rintro rfl
      exact hne readEnd rfl
    simp [users_pipe, update_of_ne hq]
  | _ => rfl

theorem users_setPipe_self (κ : Type*) (o : Objects ρ) (p : Nat) (pipe : Option Pipe) (readEnd : Bool) :
    users { o with pipes := update o.pipes p pipe } (.pipe p readEnd : NodeKind κ) =
      pipe.elim 0 fun pipe => if readEnd then pipe.readers else pipe.writers := by
  show (update o.pipes p pipe p).elim (0 : Int) _ = _
  rw [update_self]

/-- A new pipe has one reader and one writer, so it has its users when both its nodes are there. -/
theorem Steady.makePipe (h : Steady o kinds) {m : Nat} (hn : kinds n = none) (hm : kinds m = none) (hne : m ≠ n) :
    Steady (o.makePipe : Objects ρ × NodeKind κ × NodeKind κ).1
      (update (update kinds n (some (.pipe o.nextPipe true))) m (some (.pipe o.nextPipe false))) := by
  -- one end at a time: first the reader, on a pipe nobody writes to
  let reader : Pipe := { Pipe.new fun _ => 0 with writers := 0 }
  let o1 : Objects ρ := { o with pipes := update o.pipes o.nextPipe (some reader), nextPipe := o.nextPipe + 1 }
  have hnone := h.sane.pipes o.nextPipe (Nat.le_refl _)
  have hlater : ∀ x : Option Pipe, ∀ p, o.nextPipe + 1 ≤ p → update o.pipes o.nextPipe x p = none := by
    intro x p hp
    rw [update_of_ne (by omega)]
    exact h.sane.pipes p (by omega)
  have hzero : ∀ e, o.users (.pipe o.nextPipe e : NodeKind κ) = 0 := by
    intro e
    rw [users_pipe, hnone, Option.elim_none]
  have hends : ∀ {kind : NodeKind κ} {e : Bool}, kind ≠ .pipe o.nextPipe e → kind ≠ .pipe o.nextPipe (!e) →
      ∀ readEnd, kind ≠ .pipe o.nextPipe readEnd := by
    intro kind e hne hne' readEnd
    by_cases he : readEnd = e
    · rw [he]
      exact hne
    · rw [Bool.eq_not.mpr he]
      exact hne'
  have hfirst : Moves o o1 (.pipe o.nextPipe true : NodeKind κ) 1 := by
    refine ⟨⟨h.sane.unused, h.sane.shm, hlater _⟩, fun _ => ?_, fun kind hne => ?_⟩
    · rw [hzero]
      exact users_setPipe_self κ o o.nextPipe (some reader) true
    · by_cases he : kind = .pipe o.nextPipe false
      · subst he
        rw [hzero]
        exact users_setPipe_self κ o o.nextPipe (some reader) false
      · exact users_setPipe o o.nextPipe (some reader) (hends hne he)
  have hsecond : Moves o1 (o.makePipe : Objects ρ × NodeKind κ × NodeKind κ).1 (.pipe o.nextPipe false : NodeKind κ) 1 := by
    have hreader : ∀ e, o1.users (.pipe o.nextPipe e : NodeKind κ) = if e then 1 else 0 :=
      users_setPipe_self κ o o.nextPipe (some reader)
    have hboth : ∀ e, (o.makePipe : Objects ρ × NodeKind κ × NodeKind κ).1.users (.pipe o.nextPipe e : NodeKind κ) = 1 := by
      intro e
      refine (users_setPipe_self κ o o.nextPipe (some (.new fun _ => 0)) e).trans ?_
      cases e <;> rfl
    refine ⟨⟨h.sane.unused, h.sane.shm, hlater _⟩, fun _ => ?_, fun kind hne => ?_⟩
    · rw [hreader, hboth]
      rfl
    · by_cases he : kind = .pipe o.nextPipe true
      · subst he
        rw [hreader, hboth]
        rfl
      · have hkind := hends hne he
        exact (users_setPipe o o.nextPipe _ hkind).trans (users_setPipe o o.nextPipe _ hkind).symm
  refine (h.fill hn hfirst).fill ?_ hsecond
  rw [update_of_ne hne]
  exact hm

theorem closePipe_moves (h : Steady o kinds) {p : Nat} {readEnd : Bool} (hu : 0 < o.users (.pipe p readEnd : NodeKind κ)) :
    Moves o (o.closePipe p readEnd) (.pipe p readEnd : NodeKind κ) (-1) := by
  unfold closePipe
  rw [users_pipe] at hu
  cases hpipe : o.pipes p with
  | none =>
    rw [hpipe] at hu
    exact absurd hu (Int.lt_irrefl 0)
  | some pipe =>
    rw [hpipe, Option.elim_some] at hu
    have hends : ∀ e, 0 ≤ if e = true then pipe.readers else pipe.writers := by
      intro e
      have hnn : 0 ≤ o.users (.pipe p e : NodeKind κ) := h.counted.nonneg rfl
      rw [users_pipe, hpipe, Option.elim_some] at hnn
      exact hnn
    have hlt : p < o.nextPipe := by
      by_contra hno
      rw [h.sane.pipes p (Nat.le_of_not_lt hno)] at hpipe
      cases hpipe
    have hsane : ∀ x : Option Pipe, ∀ q, o.nextPipe ≤ q → update o.pipes p x q = none := by
      intro x q hq
      rw [update_of_ne (by omega)]
      exact h.sane.pipes q hq
    -- what either end counts afterwards, and no less than none
    let after : Pipe := if readEnd then { pipe with readers := pipe.readers - 1 }
      else { pipe with writers := pipe.writers - 1 }
    have hcount : ∀ e, (if e = true then after.readers else after.writers) =
        (if e = true then pipe.readers else pipe.writers) + if e = readEnd then (-1 : Int) else 0 := by
      intro e
      cases readEnd <;> cases e <;> simp [after] <;> rfl
    have hnonneg : ∀ e, 0 ≤ if e = true then after.readers else after.writers := by
      intro e
      rw [hcount]
      by_cases he : e = readEnd
      · rw [if_pos he, he]
        omega
      · rw [if_neg he, Int.add_zero]
        exact hends e
    have hafter : ∀ e, ((pipeClose pipe readEnd).elim 0 fun pipe => if e = true then pipe.readers else pipe.writers) =
        if e = true then after.readers else after.writers := by
      intro e
      show (if after.readers ≤ 0 ∧ after.writers ≤ 0 then none else some after).elim 0 _ = _
      by_cases hgone : after.readers ≤ 0 ∧ after.writers ≤ 0
      · rw [if_pos hgone, Option.elim_none]
        apply Int.le_antisymm (hnonneg e)
        cases e with
        | true => exact hgone.1
        | false => exact hgone.2
      · rw [if_neg hgone]
        rfl
    refine ⟨⟨h.sane.unused, h.sane.shm, hsane _⟩, fun _ => ?_, fun kind hne => ?_⟩
    · rw [users_setPipe_self, Option.bind_some, hafter, hcount, if_pos rfl, users_pipe, hpipe]
      rfl
    · by_cases he : kind = .pipe p !readEnd
      · subst he
        have hoff : (!readEnd) ≠ readEnd := by simp
        rw [users_setPipe_self, Option.bind_some, hafter, hcount, if_neg hoff, users_pipe, hpipe]
        exact Int.add_zero _
      · refine users_setPipe o p _ fun e => ?_
        by_cases hend : e = readEnd
        · rw [hend]
          exact hne
        · rw [Bool.eq_not.mpr hend]
          exact he

/-- **A close of an open node** takes one user away. -/
theorem closeFs_moves (D : Driver ρ κ) (h : Steady o kinds) (hn : kinds n = some kind) :
    Moves o (o.closeFs D kind) kind (-1) := by
  cases kind with
  | other kind => exact ⟨⟨h.sane.unused, h.sane.shm, h.sane.pipes⟩, nofun, fun kind' _ => by cases kind' <;> rfl⟩
  | ptmx | ptsDir | shmRoot => exact ⟨h.sane, nofun, fun _ _ => rfl⟩
  | pty id slave => exact devPtyClose_moves h.sane (h.users_pos hn rfl)
  | shm i => exact shmfsClose_moves h.sane (h.users_pos hn rfl)
  | pipe p readEnd => exact closePipe_moves h (h.users_pos hn rfl)

/-- Nobody has the object open, or there is none: a close of it changes no users. -/
def Idle (o : Objects ρ) : NodeKind κ → Prop
  | .pty id slave => o.hasPty id = true → (o.ptys id).refs slave = 0
  | .shm _ | .pipe _ _ => False
  | _ => True

theorem closeFs_still (D : Driver ρ κ) (h : Sane o) (hidle : o.Idle kind) : Still κ o (o.closeFs D kind) := by
  cases kind with
  | other kind => exact ⟨⟨h.unused, h.shm, h.pipes⟩, fun kind' => by cases kind' <;> rfl⟩
  | ptmx | ptsDir | shmRoot => exact ⟨h, fun _ => rfl⟩
  | pty id slave => exact devPtyClose_still h hidle
  | shm | pipe => exact hidle.elim

theorem truncate_still (D : Driver ρ κ) (h : Sane o) (kind : NodeKind κ) : Still κ o (o.truncate D kind) := by
  cases kind with
  | other kind => exact ⟨⟨h.unused, h.shm, h.pipes⟩, fun kind' => by cases kind' <;> rfl⟩
  | shm i => exact shmfsTruncate_still h i 0
  | _ => exact ⟨h, fun _ => rfl⟩

end Objects

end EterOS.Syscall
