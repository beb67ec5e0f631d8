import EterOS.Fs.Initrd
import EterOS.Sched.Task
/-!
# Procfs — the directory of the tasks

`procfs_readdir` and `procfs_finddir` of `kernel/fs/procfs.c`, over any table of tasks.  The listing has five names of its
own, then a name for each task; a lookup knows the five names and takes any other for the number of a task.
-/
namespace EterOS.Fs

open List
open Sched (TaskState)

structure ProcTask where
  id : UInt32
  name : CStr
  state : TaskState

structure ProcTable where
  tasks : List ProcTask
  size : tasks.length = Sched.MAX_TASKS
  schedulerActive : Bool

def ProcTask.live (t : ProcTask) : Bool := t.state ≠ .dead ∧ ¬ (t.id = 0 ∧ t.name.bytes = [])

def ProcTable.getById (T : ProcTable) (id : UInt32) : Option ProcTask :=
  if T.schedulerActive then T.tasks.find? fun t => t.id = id ∧ t.name.bytes ≠ [] ∧ t.state ≠ .dead else none

/-- The digits of a number before those there are already, as `itoa_s` fills them in from the back. -/
def itoaLoop (uvalue : Nat) (digits : List UInt8) : List UInt8 :=
  if uvalue = 0 then digits else itoaLoop (uvalue / 10) (UInt8.ofNat (48 + uvalue % 10) :: digits)

/-- `itoa_s` in base 10, for a number that is not negative. -/
def itoa (value : Nat) : CStr := CStr.ofBytes (if value = 0 then [48] else itoaLoop value [])

def spell (l : List Char) : CStr := CStr.ofBytes (l.map fun c => UInt8.ofNat c.toNat)

structure Dirent where
  name : CStr
  inode : UInt32

def procFixed : List Dirent :=
  [⟨spell ['v', 'e', 'r', 's', 'i', 'o', 'n'], 0⟩, ⟨spell ['u', 'p', 't', 'i', 'm', 'e'], 1⟩,
    ⟨spell ['m', 'e', 'm', 'i', 'n', 'f', 'o'], 2⟩, ⟨spell ['s', 'e', 'l', 'f'], 3⟩,
    ⟨spell ['c', 'p', 'u', 'i', 'n', 'f', 'o'], 4⟩]

/-- The loop of `procfs_readdir` over the slots that are left. -/
def procfsReaddirLoop (index : UInt32) : List ProcTask → UInt32 → Option Dirent
  | [], _ => none
  | t :: ts, seen =>
    if t.state = .dead then procfsReaddirLoop index ts seen
    else if t.id = 0 ∧ t.name.bytes = [] then procfsReaddirLoop index ts seen
    else if seen = index then some ⟨itoa t.id.toNat, 100 + t.id⟩
    else procfsReaddirLoop index ts (seen + 1)

def procfsReaddir (T : ProcTable) (index : UInt32) : Option Dirent :=
  match procFixed[index.toNat]? with
  | some e => some e
  | none => procfsReaddirLoop (index - 6) T.tasks 0

/-- What a node of the directory is: one of the five, with its place, or the directory of a task. -/
inductive ProcKind where
  | fixed (i : Nat)
  | task
  deriving DecidableEq

structure ProcNode where
  kind : ProcKind
  inode : UInt32
  impl : UInt32
  mask : UInt32
  deriving DecidableEq

/-- The number a name spells, as an `int` holds it; `none` for a name with anything but digits in it. -/
def procPid : List UInt8 → UInt32 → Option UInt32
  | [], pid => some pid
  | c :: cs, pid => if 48 ≤ c ∧ c ≤ 57 then procPid cs (pid * 10 + (c - 48).toUInt32) else none

/-- `procfs_finddir`; `mem` says that `kmalloc` had memory for the node. -/
def procfsFinddir (T : ProcTable) (mem : Bool) (name : CStr) : Option ProcNode :=
  if mem then
    match procFixed.findIdx? (fun e => e.name = name) with
    | some i => some { kind := .fixed i, inode := UInt32.ofNat i, impl := 0, mask := if i = 3 then 0o777 else 0o444 }
    | none =>
      match procPid name.bytes 0 with
      | none => none
      | some pid =>
        match T.getById pid with
        | none => none
        | some target =>
          if target.state = .dead then none else some { kind := .task, inode := 100 + pid, impl := pid, mask := 0o555 }
  else none

def procNodeTask (T : ProcTable) (current : Option ProcTask) (node : ProcNode) : Option ProcTask :=
  if node.impl = 0 then current else T.getById node.impl

/-! ## The listing -/

def decimal (n : Nat) : CStr := spell (Nat.toDigits 10 n)

/-- What `procfs_readdir` yields for 0, 1, 2, … until it returns non-zero. -/
def ProcTable.Yields (T : ProcTable) (l : List Dirent) : Prop :=
  (∀ i (h : i < l.length), procfsReaddir T (UInt32.ofNat i) = some l[i]) ∧ procfsReaddir T (UInt32.ofNat l.length) = none

/-- **The directory lists the live tasks**: after the five names of its own the number of each, every name it yields is
found and is that task's, and no other is found. -/
structure ProcTable.Exact (T : ProcTable) (current : Option ProcTask) (l : List Dirent) : Prop where
  names : (l.map Dirent.name).Perm (procFixed.map Dirent.name ++ (T.tasks.filter ProcTask.live).map fun t =>
    decimal t.id.toNat)
  found : ∀ e ∈ l, ∃ node, procfsFinddir T true e.name = some node ∧ node.inode = e.inode ∧
    (e ∈ procFixed ∨ ∃ t ∈ T.tasks, t.live = true ∧ e.name = decimal t.id.toNat ∧ procNodeTask T current node = some t)
  only : ∀ mem name node, procfsFinddir T mem name = some node →
    name ∈ procFixed.map Dirent.name ∨ ∃ t ∈ T.tasks, t.live = true ∧ name = decimal t.id.toNat

variable {T : ProcTable} {current : Option ProcTask} {ts : List ProcTask} {index seen : UInt32}

theorem live_eq_true {t : ProcTask} : t.live = true ↔ t.state ≠ .dead ∧ ¬ (t.id = 0 ∧ t.name.bytes = []) := by
  unfold ProcTask.live
  exact decide_eq_true_iff

theorem procfsReaddirLoop_eq : ∀ (ts : List ProcTask) (seen : UInt32), seen ≤ index → seen.toNat + ts.length < 2 ^ 32 →
      procfsReaddirLoop index ts seen = (ts.filter ProcTask.live)[index.toNat - seen.toNat]?.map fun t =>
        ⟨itoa t.id.toNat, 100 + t.id⟩
  | [], seen, _, _ => by
    rw [filter_nil, List.getElem?_nil]
    rfl
  | t :: ts, seen, hle, hlen => by
    rw [length_cons] at hlen
    unfold procfsReaddirLoop
    by_cases hlive : t.live = true
    · rw [filter_cons_of_pos hlive]
      obtain ⟨hdead, hempty⟩ := live_eq_true.1 hlive
      rw [if_neg hdead, if_neg hempty]
      by_cases hseen : seen = index
      · subst hseen
        rw [if_pos rfl, Nat.sub_self]
        rfl
      · have hlt : seen.toNat < index.toNat := Nat.lt_of_le_of_ne hle fun h => hseen (UInt32.toNat_inj.1 h)
        have hnext : (seen + 1).toNat = seen.toNat + 1 := by
          rw [UInt32.toNat_add, UInt32.toNat_one]
          omega
        rw [if_neg hseen, procfsReaddirLoop_eq ts (seen + 1) (by rw [UInt32.le_iff_toNat_le]; omega) (by omega), hnext,
          show index.toNat - seen.toNat = index.toNat - (seen.toNat + 1) + 1 by omega, List.getElem?_cons_succ]
    · rw [filter_cons_of_neg hlive]
      have hrec := procfsReaddirLoop_eq ts seen hle (by omega)
      rw [live_eq_true, not_and_or, not_not, not_not] at hlive
      rcases hlive with hdead | hempty
      · rw [if_pos hdead, hrec]
      · rw [if_pos hempty, hrec]
        split <;> rfl

/-- Past the five names the listing is a place behind itself: at 5 it is at its end, at 6 it has the first task. -/
theorem procfsReaddir_task (h : 5 ≤ index.toNat) :
    procfsReaddir T index = (T.tasks.filter ProcTask.live)[(index - 6).toNat]?.map fun t =>
      ⟨itoa t.id.toNat, 100 + t.id⟩ := by
  have hnone : procFixed[index.toNat]? = none := List.getElem?_eq_none h
  unfold procfsReaddir
  rw [hnone]
  exact procfsReaddirLoop_eq T.tasks 0 (Nat.zero_le _) (by rw [T.size]; decide)

theorem procfsReaddir_five : procfsReaddir T 5 = none := by
  have hlen : (T.tasks.filter ProcTask.live).length ≤ Sched.MAX_TASKS := T.size ▸ length_filter_le _ _
  rw [procfsReaddir_task (show 5 ≤ (5 : UInt32).toNat from Nat.le_refl 5), List.getElem?_eq_none]
  · rfl
  · exact hlen.trans (by decide)

theorem yields_iff {l : List Dirent} : T.Yields l ↔ l = procFixed := by
  have hfixed : ∀ i (h : i < 5), procfsReaddir T (UInt32.ofNat i) = some (procFixed.get ⟨i, h⟩) := by
    intro i h
    match i, h with
    | 0, _ => rfl
    | 1, _ => rfl
    | 2, _ => rfl
    | 3, _ => rfl
    | 4, _ => rfl
  constructor
  · rintro ⟨hsome, hend⟩
    have hlen : l.length = 5 := by
      apply Nat.le_antisymm
      · by_contra hlong
        have hfive := hsome 5 (Nat.lt_of_not_le hlong)
        cases procfsReaddir_five.symm.trans hfive
      · by_contra hshort
        have hlt := Nat.lt_of_not_le hshort
        rw [hfixed _ hlt] at hend
        cases hend
    apply ext_getElem hlen
    intro i hi hi'
    exact Option.some.inj ((hsome i hi).symm.trans (hfixed i hi'))
  · rintro rfl
    exact ⟨hfixed, procfsReaddir_five⟩

/-! ## The lookup -/

theorem getById_live {id : UInt32} {t : ProcTask} (h : T.getById id = some t) : t ∈ T.tasks ∧ t.live = true := by
  unfold ProcTable.getById at h
  split at h
  · have hp := List.find?_some h
    rw [decide_eq_true_iff] at hp
    exact ⟨mem_of_find?_eq_some h, live_eq_true.2 ⟨hp.2.2, fun he => hp.2.1 he.2⟩⟩
  · cases h

theorem procfsFinddir_some {mem : Bool} {name : CStr} {node : ProcNode} (h : procfsFinddir T mem name = some node) :
    name ∈ procFixed.map Dirent.name ∨ ∃ pid t, procPid name.bytes 0 = some pid ∧ T.getById pid = some t := by
  unfold procfsFinddir at h
  split at h
  · cases hidx : procFixed.findIdx? (fun e => e.name = name) with
    | some i =>
      left
      obtain ⟨hlt, hp, -⟩ := List.findIdx?_eq_some_iff_getElem.1 hidx
      rw [decide_eq_true_iff] at hp
      exact mem_map.2 ⟨_, getElem_mem hlt, hp⟩
    | none =>
      right
      simp only [hidx] at h
      cases hpid : procPid name.bytes 0 with
      | none =>
        rw [hpid] at h
        cases h
      | some pid =>
        simp only [hpid] at h
        cases ht : T.getById pid with
        | none =>
          rw [ht] at h
          cases h
        | some t => exact ⟨pid, t, rfl, ht⟩
  · cases h

theorem procfsFinddir_fixed : ∀ e ∈ procFixed, ∃ node, procfsFinddir T true e.name = some node ∧ node.inode = e.inode := by
  intro e he
  simp only [procFixed, mem_cons, not_mem_nil, or_false] at he
  rcases he with rfl | rfl | rfl | rfl | rfl
  all_goals exact ⟨_, rfl, rfl⟩

theorem ProcTable.Exact.no_live (h : T.Exact current procFixed) : ∀ t ∈ T.tasks, t.live = false := by
  have hlen := h.names.length_eq
  simp only [length_append, length_map] at hlen
  have hnil : T.tasks.filter ProcTask.live = [] := eq_nil_of_length_eq_zero (by omega)
  intro t ht
  exact Bool.eq_false_iff.2 (filter_eq_nil_iff.1 hnil t ht)

/-- **The directory lists exactly the live tasks just when there is none**: the listing ends before the first. -/
theorem procfs_exact_iff (T : ProcTable) (current : Option ProcTask) :
    (∃ l, T.Yields l ∧ T.Exact current l) ↔ ∀ t ∈ T.tasks, t.live = false := by
  constructor
  · rintro ⟨l, hl, hexact⟩
    obtain rfl := yields_iff.1 hl
    exact hexact.no_live
  · intro hnone
    have hnil : T.tasks.filter ProcTask.live = [] :=
      filter_eq_nil_iff.2 fun t ht => Bool.eq_false_iff.1 (hnone t ht)
    refine ⟨procFixed, yields_iff.2 rfl, ?_, fun e he => ?_, fun mem name node h => ?_⟩
    · rw [hnil, map_nil, append_nil]
    · obtain ⟨node, hfound, hinode⟩ := procfsFinddir_fixed (T := T) e he
      exact ⟨node, hfound, hinode, .inl he⟩
    · rcases procfsFinddir_some h with hfixed | ⟨pid, t, -, ht⟩
      · exact .inl hfixed
      · obtain ⟨hmem, hlive⟩ := getById_live ht
        rw [hnone t hmem] at hlive
        cases hlive

def procBoot : ProcTable where
  tasks := ⟨0, spell ['i', 'd', 'l', 'e'], .running⟩ :: List.replicate 63 ⟨0, CStr.ofBytes [], .ready⟩
  size := rfl
  schedulerActive := true

/-- The listing ends without the running task, which the names `0`, `00` and the empty one all find. -/
theorem procfs_lists_no_task :
    ¬ (∃ l, procBoot.Yields l ∧ procBoot.Exact none l) ∧ procfsReaddir procBoot 5 = none ∧
      procfsFinddir procBoot true (spell ['0', '0']) = some ⟨.task, 100, 0, 0o555⟩ ∧
      procfsFinddir procBoot true (spell []) = some ⟨.task, 100, 0, 0o555⟩ := by
  refine ⟨?_, procfsReaddir_five, by decide, by decide⟩
  rintro ⟨l, hl, hexact⟩
  obtain rfl := yields_iff.1 hl
  exact absurd (hexact.no_live _ mem_cons_self) (by decide)

end EterOS.Fs
