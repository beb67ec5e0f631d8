import EterOS.Sched.ExecStack
import EterOS.Syscall.Basic
/-!
# ExecArgs — the arguments of an exec, from the caller's memory to the new program's

`task_exec` copies `argv` and `envp` into kernel buffers, thirty-two strings of at most 127 bytes each; a script or a
`PT_INTERP` entry puts its own words in front of the arguments.  What is longer is cut off without an error.
-/
namespace EterOS.Exec

open Buffer List
open Syscall (EFAULT ENOMEM EINVAL)

def ENOEXEC : Int := 8

/-- The caller's memory: its bytes, and what `vmm_verify_user_access(a, n, 0)` says of `n` of them at `a`. -/
structure User where
  bytes : Buffer
  verify : Nat → Nat → Bool

/-! ## The kernel's copies -/

/-- The loop of `vmm_strncpy_from_user`, with `left` turns to go: the page is checked at the first byte and at page
starts. -/
def copyLoop (u : User) (src : Nat) : Nat → Nat → Except Int Str
  | 0, _ => .ok []
  | left + 1, copied =>
    if (copied = 0 ∨ (src + copied) % 4096 = 0) ∧ u.verify (src + copied) 1 = false then .error EFAULT
    else if u.bytes (src + copied) = 0 then .ok []
    else (copyLoop u src left (copied + 1)).map (u.bytes (src + copied) :: ·)

/-- `vmm_strncpy_from_user`: the string its buffer holds afterwards; the last byte of a full one is made the terminator. -/
def strncpyFromUser (u : User) (src max : Nat) : Except Int Str :=
  if src = 0 ∨ max = 0 then .error EINVAL else (copyLoop u src max 0).map (·.take (max - 1))

/-- The loop over the slots of `argv` or `envp`; `room i` says whether `kmalloc` has a buffer for the `i`-th string. -/
def copySlots (u : User) (room : Nat → Bool) (argv : Nat) : Nat → Nat → Except Int (List Str)
  | 0, _ => .ok []
  | left + 1, i =>
    if u.verify (argv + 8 * i) 8 = false then .error EFAULT
    else if u.bytes.le (argv + 8 * i) 8 = 0 then .ok []
    else if room i = false then .error ENOMEM
    else do
      let s ← strncpyFromUser u (u.bytes.le (argv + 8 * i) 8) 128
      let rest ← copySlots u room argv left (i + 1)
      return s :: rest

/-- The copy of `argv`, and that of `envp`. -/
def copyStrings (u : User) (room : Nat → Bool) (argv : Nat) : Except Int (List Str) :=
  if argv = 0 then .ok []
  else if u.verify argv 8 = false then .error EFAULT
  else copySlots u room argv 32 0

/-! ## The whole call -/

/-- Whether `kmalloc` has the two buffers of the path, one for each string, and those of the words put in front. -/
structure Rooms where
  path : Bool
  arg : Nat → Bool
  env : Nat → Bool
  script : Bool
  interp : Bool

structure Answers where
  room : Rooms
  /-- `read_shebang_line`: an error, nothing, or the interpreter, its argument and the script's path. -/
  shebang : Str → Except Int (Option (Str × Str × Str))
  /-- `elf_get_interp`. -/
  interp : Str → Except Int (Option Str)
  /-- `vfs_normalize_path` from the caller's directory, or the path as it is. -/
  execAbs : Str → Str
  auxInfo : Str → Except Int AuxInfo
  /-- The pages of the new page map. -/
  tables : Bool
  /-- `elf_load_file`: the entry point, 0 on failure, and the memory afterwards. -/
  load : Str → UInt64 × Buffer
  /-- The pages of the stack. -/
  stackPages : Bool
  ticks : Nat → Nat
  uid : UInt32
  euid : UInt32
  gid : UInt32
  egid : UInt32

def skipPtInterp : Str :=
  [69, 84, 69, 82, 95, 83, 75, 73, 80, 95, 80, 84, 95, 73, 78, 84, 69, 82, 80, 61, 49]

/-- The words a script puts in front of the arguments, which lose their first. -/
def shebangArgs (interp arg script : Str) (kargv : List Str) : List Str :=
  [interp.take 255] ++ (if arg = [] then [] else [arg.take 127]) ++ [script.take 1023] ++ kargv.tail

def scriptStep (w : Answers) (kpath : Str) (kargv : List Str) : Except Int (Str × List Str) :=
  match w.shebang kpath with
  | .error e => if e = ENOEXEC then .ok (kpath, kargv) else .error e
  | .ok none => .ok (kpath, kargv)
  | .ok (some (interp, arg, script)) =>
    if 32 < 2 + (if arg = [] then 0 else 1) + kargv.tail.length then .error E2BIG
    else if w.room.script = false then .error ENOMEM
    else .ok (interp.take 255, shebangArgs interp arg script kargv)

/-- The part of an executable with a `PT_INTERP` entry. -/
def interpStep (w : Answers) (kpath : Str) (kargv kenvp : List Str) : Except Int (Str × List Str) :=
  if skipPtInterp ∈ kenvp then .ok (kpath, kargv)
  else match w.interp kpath with
    | .error e => if e = ENOEXEC then .ok (kpath, kargv) else .error e
    | .ok none => .ok (kpath, kargv)
    | .ok (some interp) =>
      if 32 < 2 + kargv.tail.length then .error E2BIG
      else if w.room.interp = false then .error ENOMEM
      else .ok (interp.take 255, [interp.take 255, (w.execAbs kpath).take 255] ++ kargv.tail)

def enterImage (w : Answers) (kpath : Str) (kargv kenvp : List Str) : Except Int Built := do
  let aux ← w.auxInfo kpath
  if w.tables = false then .error ENOMEM
  else if (w.load kpath).1 = 0 then .error ENOEXEC
  else if w.stackPages = false then .error ENOMEM
  else buildStack ⟨(w.load kpath).2, (w.load kpath).1, aux, w.uid, w.euid, w.gid, w.egid, w.ticks⟩ kargv kenvp

def taskExec (u : User) (w : Answers) (path argv envp : Nat) : Except Int Built :=
  if w.room.path = false then .error ENOMEM
  else do
    let kpath ← strncpyFromUser u path 1024
    let kargv ← copyStrings u w.room.arg argv
    let (kpath, kargv) ← scriptStep w kpath kargv
    let kenvp ← copyStrings u w.room.env envp
    let (kpath, kargv) ← interpStep w kpath kargv kenvp
    enterImage w kpath kargv kenvp

/-! ## What the copies hand on -/

/-- A null-terminated array of strings in the caller's memory; no array is an empty one. -/
def ArgList (u : User) (argv : Nat) (l : List Str) : Prop :=
  if argv = 0 then l = []
  else ∃ ptrs, HasWords u.bytes argv (ptrs ++ [0]) ∧
    List.Forall₂ (fun a s => a ≠ 0 ∧ 0 ∉ s ∧ Holds u.bytes a (s ++ [0])) ptrs l

/-- What is left of a list after the copy: thirty-two strings of 127 bytes. -/
def copied (l : List Str) : List Str := (l.take 32).map (·.take 127)

theorem copied_eq_iff (l : List Str) : copied l = l ↔ Fits l := by
  constructor
  · intro h
    have hlen := congrArg List.length h
    rw [copied, length_map, length_take] at hlen
    refine ⟨by omega, fun s hs => ?_⟩
    rw [← h, copied] at hs
    obtain ⟨s', _, rfl⟩ := mem_map.1 hs
    rw [length_take]
    omega
  · rintro ⟨hlen, hall⟩
    rw [copied, take_of_length_le hlen]
    calc l.map (·.take 127) = l.map id := map_congr_left fun s hs => take_of_length_le (hall s hs)
      _ = l := map_id l

theorem copied_fits (l : List Str) : Fits (copied l) := by
  refine ⟨by rw [copied, length_map, length_take]; omega, fun s hs => ?_⟩
  obtain ⟨s', _, rfl⟩ := mem_map.1 hs
  rw [length_take]
  omega

theorem map_ok {α β : Type} {x : Except Int α} {f : α → β} {b : β} (h : x.map f = .ok b) : ∃ a, x = .ok a ∧ f a = b := by
  cases x with
  | error e => cases h
  | ok a => exact ⟨a, rfl, Except.ok.inj h⟩

variable {u : User}

theorem copyLoop_ok {src : Nat} :
    ∀ {left copied : Nat} {s r : Str}, Holds u.bytes (src + copied) (s ++ [0]) → 0 ∉ s → copyLoop u src left copied = .ok r →
      r = s.take left
  | 0, _, s, r, _, _, h => by
    cases h
    rw [take_zero]
  | left + 1, n, s, r, hs, h0, h => by
    rw [copyLoop] at h
    split at h
    · cases h
    · cases s with
      | nil =>
        rw [if_pos hs.1] at h
        cases h
        rfl
      | cons c s =>
        rw [mem_cons, not_or] at h0
        rw [hs.1, if_neg fun hc => h0.1 hc.symm] at h
        obtain ⟨r', hr', rfl⟩ := map_ok h
        rw [copyLoop_ok (by rw [← Nat.add_assoc]; exact hs.2) h0.2 hr', take_succ_cons]

variable {s : Str}

theorem strncpyFromUser_ok {src max : Nat} {r : Str} (hs : Holds u.bytes src (s ++ [0])) (h0 : 0 ∉ s)
    (h : strncpyFromUser u src max = .ok r) : r = s.take (max - 1) := by
  unfold strncpyFromUser at h
  split at h
  · cases h
  · obtain ⟨r', hr', rfl⟩ := map_ok h
    rw [copyLoop_ok (s := s) (by rwa [Nat.add_zero]) h0 hr', take_take]
    congr 1
    omega

variable {room : Nat → Bool} {argv : Nat}

theorem copySlots_ok : ∀ {left i : Nat} {ptrs : List Nat} {l r : List Str}, HasWords u.bytes (argv + 8 * i) (ptrs ++ [0]) →
      List.Forall₂ (fun a s => a ≠ 0 ∧ 0 ∉ s ∧ Holds u.bytes a (s ++ [0])) ptrs l → copySlots u room argv left i = .ok r →
      r = (l.take left).map (·.take 127)
  | 0, _, _, l, r, _, _, h => by
    cases h
    rw [take_zero, map_nil]
  | left + 1, i, ptrs, l, r, hw, hl, h => by
    rw [copySlots] at h
    split at h
    · cases h
    · cases hl with
      | nil =>
        rw [if_pos hw.1] at h
        cases h
        rfl
      | cons hs hl =>
        rw [hw.1, if_neg hs.1] at h
        split at h
        · cases h
        · obtain ⟨s', hs', h⟩ := bind_ok h
          obtain ⟨rest, hrest, h⟩ := bind_ok h
          cases h
          have htail := copySlots_ok (by rw [Nat.mul_add, ← Nat.add_assoc]; exact hw.2) hl hrest
          rw [strncpyFromUser_ok hs.2.2 hs.2.1 hs', htail, take_succ_cons, map_cons]

theorem copyStrings_ok {l r : List Str} (hl : ArgList u argv l) (h : copyStrings u room argv = .ok r) : r = copied l := by
  unfold copyStrings at h
  unfold ArgList at hl
  split at h
  · rename_i h0
    rw [if_pos h0] at hl
    cases h
    rw [hl]
    rfl
  · rename_i h0
    rw [if_neg h0] at hl
    obtain ⟨ptrs, hw, hl⟩ := hl
    split at h
    · cases h
    · exact copySlots_ok (by rwa [Nat.mul_zero, Nat.add_zero]) hl h

theorem ArgList.nonzero {l : List Str} (hl : ArgList u argv l) : ∀ s ∈ copied l, 0 ∉ s := by
  have hall : ∀ s ∈ l, 0 ∉ s := by
    unfold ArgList at hl
    split at hl
    · rw [hl]
      exact fun s hs => absurd hs not_mem_nil
    · obtain ⟨ptrs, hw, hl⟩ := hl
      clear hw
      intro s hs
      induction hl with
      | nil => exact absurd hs not_mem_nil
      | cons hk _ ih =>
        rcases mem_cons.1 hs with rfl | hs
        · exact hk.2.1
        · exact ih hs
  intro s hs h0
  obtain ⟨s', hs', rfl⟩ := mem_map.1 hs
  exact hall s' (mem_of_mem_take hs') (mem_of_mem_take h0)

/-! ## Faithful delivery -/

/-- The file is not refused: its kind is known, and there is memory for it. -/
def Answers.Takes (w : Answers) (kpath : Str) (kenvp : List Str) : Prop :=
  (w.shebang kpath = .ok none ∨ w.shebang kpath = .error ENOEXEC) ∧
    (skipPtInterp ∈ kenvp ∨ w.interp kpath = .ok none ∨ w.interp kpath = .error ENOEXEC) ∧
    (∃ aux, w.auxInfo kpath = .ok aux) ∧ w.tables = true ∧ (w.load kpath).1 ≠ 0 ∧ w.stackPages = true

/-- Nothing stands in the way: the caller's memory can be read, the buffers are there, and the file is taken. -/
def Accepted (u : User) (w : Answers) (path argv envp : Nat) : Prop :=
  w.room.path = true ∧ ∃ kpath kargv kenvp, strncpyFromUser u path 1024 = .ok kpath ∧
    copyStrings u w.room.arg argv = .ok kargv ∧
    copyStrings u w.room.env envp = .ok kenvp ∧ w.Takes kpath kenvp

variable {u : User} {w : Answers} {path argv envp : Nat}

theorem scriptStep_plain (kpath : Str) (kargv : List Str) {r : Str × List Str}
    (hscript : ∀ p x, w.shebang p ≠ .ok (some x)) :
    scriptStep w kpath kargv = .ok r ↔ (w.shebang kpath = .ok none ∨ w.shebang kpath = .error ENOEXEC) ∧
    r = (kpath, kargv) := by
  unfold scriptStep
  cases hs : w.shebang kpath with
  | error e =>
    by_cases he : e = ENOEXEC
    · simp [he, eq_comm]
    · simp [he]
  | ok x =>
    cases x with
    | none => simp [eq_comm]
    | some x => exact absurd hs (hscript kpath x)

theorem interpStep_plain (kpath : Str) (kargv kenvp : List Str) {r : Str × List Str}
    (hinterp : ∀ p x, w.interp p ≠ .ok (some x)) :
    interpStep w kpath kargv kenvp = .ok r ↔
      (skipPtInterp ∈ kenvp ∨ w.interp kpath = .ok none ∨ w.interp kpath = .error ENOEXEC) ∧ r = (kpath, kargv) := by
  unfold interpStep
  by_cases hskip : skipPtInterp ∈ kenvp
  · simp [hskip, eq_comm]
  rw [if_neg hskip]
  cases hi : w.interp kpath with
  | error e =>
    by_cases he : e = ENOEXEC
    · simp [he, eq_comm]
    · simp [he, hskip]
  | ok x =>
    cases x with
    | none => simp [eq_comm]
    | some x => exact absurd hi (hinterp kpath x)

theorem enterImage_ok {kpath : Str} {kargv kenvp : List Str} {b : Built} (h : enterImage w kpath kargv kenvp = .ok b) :
    (∃ aux, w.auxInfo kpath = .ok aux) ∧ w.tables = true ∧ (w.load kpath).1 ≠ 0 ∧ w.stackPages = true ∧
      ∃ p, buildStack p kargv kenvp = .ok b := by
  obtain ⟨aux, haux, h⟩ := bind_ok h
  split at h
  · cases h
  rename_i htables
  split at h
  · cases h
  rename_i hload
  split at h
  · cases h
  rename_i hpages
  exact ⟨⟨aux, haux⟩, by simpa using htables, hload, by simpa using hpages, _, h⟩

theorem taskExec_ok (hscript : ∀ p x, w.shebang p ≠ .ok (some x)) (hinterp : ∀ p x, w.interp p ≠ .ok (some x)) {b : Built}
    (h : taskExec u w path argv envp = .ok b) :
    Accepted u w path argv envp ∧ ∃ kargv kenvp p, copyStrings u w.room.arg argv = .ok kargv ∧
      copyStrings u w.room.env envp = .ok kenvp ∧ buildStack p kargv kenvp = .ok b := by
  unfold taskExec at h
  split at h
  · cases h
  rename_i hroom
  obtain ⟨kpath, hpath, h⟩ := bind_ok h
  obtain ⟨kargv, hargv, h⟩ := bind_ok h
  obtain ⟨r, hr, h⟩ := bind_ok h
  obtain ⟨hplain, rfl⟩ := (scriptStep_plain _ _ hscript).1 hr
  obtain ⟨kenvp, henvp, h⟩ := bind_ok h
  obtain ⟨r, hr, h⟩ := bind_ok h
  obtain ⟨hno, rfl⟩ := (interpStep_plain _ _ _ hinterp).1 hr
  obtain ⟨haux, htables, hload, hpages, p, hbuild⟩ := enterImage_ok h
  exact ⟨⟨by simpa using hroom, kpath, kargv, kenvp, hpath, hargv, henvp, hplain, hno, haux, htables, hload, hpages⟩,
    kargv, kenvp, p, hargv, henvp, hbuild⟩

/-- A call nothing stands in the way of succeeds: the copies are short enough for the stack. -/
theorem taskExec_of_accepted {args envs : List Str} (hargs : ArgList u argv args) (henvs : ArgList u envp envs)
    (hscript : ∀ p x, w.shebang p ≠ .ok (some x)) (hinterp : ∀ p x, w.interp p ≠ .ok (some x))
      (h : Accepted u w path argv envp) :
    ∃ b, taskExec u w path argv envp = .ok b := by
  obtain ⟨hroom, kpath, kargv, kenvp, hpath, hargv, henvp, hplain, hno, ⟨aux, haux⟩, htables, hload, hpages⟩ := h
  have hscriptStep := (scriptStep_plain _ kargv hscript).2 ⟨hplain, rfl⟩
  have hinterpStep := (interpStep_plain _ kargv _ hinterp).2 ⟨hno, rfl⟩
  have ha : Fits kargv := copyStrings_ok hargs hargv ▸ copied_fits args
  have he : Fits kenvp := copyStrings_ok henvs henvp ▸ copied_fits envs
  obtain ⟨b, hb⟩ := buildStack_room ⟨(w.load kpath).2, (w.load kpath).1, aux, w.uid, w.euid, w.gid, w.egid, w.ticks⟩ ha he
  refine ⟨b, ?_⟩
  rw [taskExec, if_neg (by simp [hroom])]
  simp only [hpath, hargv, hscriptStep, henvp, hinterpStep, bind, Except.bind, enterImage, haux]
  rw [if_neg (by simp [htables]), if_neg hload, if_neg (by simp [hpages]), hb]

/-- **The strings arrive or the call fails, exactly when** something stands in the way, or there are at most thirty-two
arguments and thirty-two environment strings, each of at most 127 bytes: what is longer is cut off and the call succeeds. -/
theorem taskExec_delivers_iff {args envs : List Str} (hargs : ArgList u argv args) (henvs : ArgList u envp envs)
    (hscript : ∀ p x, w.shebang p ≠ .ok (some x)) (hinterp : ∀ p x, w.interp p ≠ .ok (some x)) :
    (∀ b, taskExec u w path argv envp = .ok b → decodeStack b.mem b.rsp = some (args, envs)) ↔
      ¬ Accepted u w path argv envp ∨ Fits args ∧ Fits envs := by
  have hdecode : ∀ b, taskExec u w path argv envp = .ok b → decodeStack b.mem b.rsp = some (copied args, copied envs) := by
    intro b hb
    obtain ⟨_, kargv, kenvp, p, hargv, henvp, hbuild⟩ := taskExec_ok hscript hinterp hb
    obtain rfl := copyStrings_ok hargs hargv
    obtain rfl := copyStrings_ok henvs henvp
    exact (buildStack_spec hbuild).decode hargs.nonzero henvs.nonzero
  constructor
  · intro h
    by_cases hacc : Accepted u w path argv envp
    · obtain ⟨b, hb⟩ := taskExec_of_accepted hargs henvs hscript hinterp hacc
      have hsame := (hdecode b hb).symm.trans (h b hb)
      rw [Option.some.injEq, Prod.mk.injEq] at hsame
      exact Or.inr ⟨(copied_eq_iff args).1 hsame.1, (copied_eq_iff envs).1 hsame.2⟩
    · exact Or.inl hacc
  · intro h b hb
    rcases h with hacc | ⟨ha, he⟩
    · exact absurd (taskExec_ok hscript hinterp hb).1 hacc
    · rw [hdecode b hb, (copied_eq_iff args).2 ha, (copied_eq_iff envs).2 he]

def callerWith (s : Str) : User :=
  ⟨(blit (fun _ => 0) 4096 (ofList (s ++ [0])) (s.length + 1)).putWords 8192 [4096, 0], fun _ _ => true⟩

theorem callerWith_holds (hlen : s.length < 4096) : Holds (callerWith s).bytes 4096 (s ++ [0]) := by
  have hblit := holds_blit (fun _ => 0) 4096 (s ++ [0])
  rw [length_append, length_singleton] at hblit
  refine hblit.congr fun i _ hi => putWords_of_outside (Or.inl ?_)
  rw [length_append, length_singleton] at hi
  omega

theorem callerWith_argList (h0 : 0 ∉ s) (hlen : s.length < 4096) : ArgList (callerWith s) 8192 [s] := by
  unfold ArgList
  rw [if_neg (by decide)]
  exact ⟨[4096], hasWords_putWords 8192 _ (by simp),
    List.Forall₂.cons ⟨by decide, h0, callerWith_holds hlen⟩ List.Forall₂.nil⟩

def plainFile : Answers where
  room := ⟨true, fun _ => true, fun _ => true, true, true⟩
  shebang := fun _ => .ok none
  interp := fun _ => .ok none
  execAbs := id
  auxInfo := fun _ => .ok {}
  tables := true
  load := fun _ => (1, fun _ => 0)
  stackPages := true
  ticks := fun _ => 0
  uid := 0
  euid := 0
  gid := 0
  egid := 0

theorem argList_null (u : User) : ArgList u 0 [] := by
  unfold ArgList
  rw [if_pos rfl]

theorem copyLoop_of_readable (hu : ∀ a n, u.verify a n = true) (src : Nat) : ∀ left n, ∃ r, copyLoop u src left n = .ok r
  | 0, _ => ⟨[], rfl⟩
  | left + 1, n => by
    obtain ⟨r, hr⟩ := copyLoop_of_readable hu src left (n + 1)
    rw [copyLoop, if_neg (by simp [hu])]
    split
    · exact ⟨[], rfl⟩
    · rw [hr]
      exact ⟨_, rfl⟩

theorem strncpyFromUser_of_readable (hu : ∀ a n, u.verify a n = true) (src max : Nat) (hsrc : src ≠ 0) (hmax : max ≠ 0) :
    ∃ r, strncpyFromUser u src max = .ok r := by
  obtain ⟨r, hr⟩ := copyLoop_of_readable hu src max 0
  rw [strncpyFromUser, if_neg (by simp [hsrc, hmax]), hr]
  exact ⟨_, rfl⟩

theorem copySlots_of_readable (hu : ∀ a n, u.verify a n = true) (hroom : ∀ i, room i = true) (argv : Nat) :
    ∀ left i, ∃ r, copySlots u room argv left i = .ok r
  | 0, _ => ⟨[], rfl⟩
  | left + 1, i => by
    obtain ⟨rest, hrest⟩ := copySlots_of_readable hu hroom argv left (i + 1)
    rw [copySlots, if_neg (by simp [hu])]
    split
    · exact ⟨[], rfl⟩
    · rename_i hptr
      obtain ⟨s, hs⟩ := strncpyFromUser_of_readable hu _ 128 hptr (by decide)
      rw [if_neg (by simp [hroom]), hs, hrest]
      exact ⟨_, rfl⟩

theorem copyStrings_of_readable (hu : ∀ a n, u.verify a n = true) (room : Nat → Bool) (hroom : ∀ i, room i = true)
    (argv : Nat) :
    ∃ r, copyStrings u room argv = .ok r := by
  unfold copyStrings
  split
  · exact ⟨[], rfl⟩
  · rw [if_neg (by simp [hu])]
    exact copySlots_of_readable hu hroom argv 32 0

theorem taskExec_of_readable (hu : ∀ a n, u.verify a n = true) {args envs : List Str} (hargs : ArgList u argv args)
    (henvs : ArgList u envp envs) (hpath : path ≠ 0) : ∃ b, taskExec u plainFile path argv envp = .ok b := by
  obtain ⟨kpath, hkpath⟩ := strncpyFromUser_of_readable hu path 1024 hpath (by decide)
  obtain ⟨kargv, hargv⟩ := copyStrings_of_readable hu plainFile.room.arg (fun _ => rfl) argv
  obtain ⟨kenvp, henvp⟩ := copyStrings_of_readable hu plainFile.room.env (fun _ => rfl) envp
  exact taskExec_of_accepted hargs henvs (fun _ _ h => by cases h) (fun _ _ h => by cases h)
    ⟨rfl, kpath, kargv, kenvp, hkpath, hargv, henvp, Or.inl rfl, Or.inr (Or.inl rfl), ⟨{}, rfl⟩, rfl,
      (by decide : (1 : UInt64) ≠ 0), rfl⟩

/-- `ls -a` with `P=/`: the strings at 4096, `argv` at 8192 and `envp` at 8216. -/
def listCall : User where
  bytes a :=
    if a < 8192 then [108, 115, 0, 45, 97, 0, 80, 61, 47, 0].getD (a - 4096) 0
    else match a with
      | 8193 | 8201 | 8217 => 16
      | 8200 => 3
      | 8216 => 6
      | _ => 0
  verify _ _ := true

theorem taskExec_delivers_list : ∃ b, taskExec listCall plainFile 4096 8192 8216 = .ok b ∧
    decodeStack b.mem b.rsp = some ([[108, 115], [45, 97]], [[80, 61, 47]]) := by
  have hargs : ArgList listCall 8192 [[108, 115], [45, 97]] := by
    rw [ArgList, if_neg (by decide)]
    exact ⟨[4096, 4099], ⟨by decide, by decide, by decide, trivial⟩,
      .cons ⟨by decide, by decide, by decide, by decide, by decide, trivial⟩
      (.cons ⟨by decide, by decide, by decide, by decide, by decide, trivial⟩ .nil)⟩
  have henvs : ArgList listCall 8216 [[80, 61, 47]] := by
    rw [ArgList, if_neg (by decide)]
    exact ⟨[4102], ⟨by decide, by decide, trivial⟩,
      .cons ⟨by decide, by decide, by decide, by decide, by decide, by decide, trivial⟩ .nil⟩
  obtain ⟨b, hb⟩ := taskExec_of_readable (fun _ _ => rfl) hargs henvs (by decide : 4096 ≠ 0)
  exact ⟨b, hb, (taskExec_delivers_iff hargs henvs (fun _ _ h => by cases h) (fun _ _ h => by cases h)).2
    (Or.inr ⟨⟨by decide, by decide⟩, ⟨by decide, by decide⟩⟩) b hb⟩

/-- An argument of 128 bytes: the call succeeds, and its last byte is gone. -/
theorem long_argument_cut :
    ArgList (callerWith (List.replicate 128 97)) 8192 [List.replicate 128 97] ∧
    ∃ b, taskExec (callerWith (List.replicate 128 97)) plainFile 4096 8192 0 = .ok b ∧
      decodeStack b.mem b.rsp = some ([List.replicate 127 97], []) := by
  have hlist := callerWith_argList (s := List.replicate 128 97) (by simp) (by simp)
  have hnull := argList_null (callerWith (List.replicate 128 97))
  obtain ⟨b, hb⟩ := taskExec_of_readable (fun _ _ => rfl) hlist hnull (by decide : 4096 ≠ 0)
  obtain ⟨_, kargv', kenvp', p, hargv', henvp', hbuild⟩ := taskExec_ok (fun _ _ h => by cases h) (fun _ _ h => by cases h) hb
  obtain rfl := copyStrings_ok hlist hargv'
  obtain rfl := copyStrings_ok hnull henvp'
  refine ⟨hlist, b, hb, ?_⟩
  rw [(buildStack_spec hbuild).decode hlist.nonzero hnull.nonzero]
  simp [copied]

end EterOS.Exec
