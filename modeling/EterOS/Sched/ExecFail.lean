import EterOS.Fs.ElfFrames
import EterOS.Sched.ExecArgs
import EterOS.Syscall.Descriptors
/-!
# ExecFail — what a failing exec leaves of the caller

`task_exec` once more, with its kernel buffers, its frames and the caller's fields.  Up to the new page map a failure gives
everything back.  From there on `brk` and `mmap_base` are overwritten before the file is looked at, the loader writes the
ABI, and an image that is loaded has closed descriptors and moved the thread's block before the stack is built; none of it
is undone.
-/
namespace EterOS.Exec

open List
open Function (update update_self update_of_ne)
open Syscall (EFAULT ENOMEM Files Driver)
open Elf (Space Machine ElfTask)

/-! ## Kernel buffers -/

/-- The buffers that are not freed, and how many calls of `kmalloc` there were. -/
structure Buffers where
  live : List Nat
  calls : Nat

def Buffers.kmalloc (room : Nat → Bool) (h : Buffers) : Buffers × Option Nat :=
  if room h.calls then (⟨h.calls :: h.live, h.calls + 1⟩, some h.calls) else (⟨h.live, h.calls + 1⟩, none)

def Buffers.kfree (h : Buffers) (b : Nat) : Buffers := { h with live := h.live.erase b }

abbrev KStr := Nat × Str

/-! ## The caller -/

structure Caller (σ κ : Type*) where
  cr3 : Nat
  space : Space
  files : Files σ κ
  buffers : Buffers

/-- What the call meets: the caller's memory, the drivers, the files and frames, room for buffers, and what the readers of
the file answer. -/
structure World (σ κ : Type*) where
  user : User
  driver : Driver σ κ
  cur : Nat
  machine : Machine
  room : Nat → Bool
  shebang : Str → Except Int (Option (Str × Str × Str))
  interp : Str → Except Int (Option Str)
  execAbs : Str → Str
  auxInfo : Str → Except Int AuxInfo
  ticks : Nat → Nat
  uid : UInt32
  gid : UInt32

/-- What a call leaves: the caller, the frames it gave to `pmm_free_page`, and the page maps it gave to
`vmm_destroy_pml4`. -/
structure After (σ κ : Type*) where
  caller : Caller σ κ
  freed : List Nat
  destroyed : List (Nat × Space)

inductive Outcome (σ κ : Type*) where
  | done (built : Built) (a : After σ κ)
  | failed (e : Int) (a : After σ κ)
  | stopped

def Outcome.failure {σ κ : Type*} : Outcome σ κ → Option (Int × Nat)
  | .failed e a => some (e, a.caller.space.task.brk)
  | _ => none

structure Locals where
  buffers : Buffers
  path : Str
  pathBuf : Nat
  scriptBuf : Nat
  kargv : List KStr
  kenvp : List KStr

/-- The buffers at `cleanup_error`, in the order they are freed. -/
def Locals.held (l : Locals) : List Nat := l.scriptBuf :: l.pathBuf :: (l.kargv.map Prod.fst ++ l.kenvp.map Prod.fst)

def Locals.cleanup (l : Locals) : Buffers := l.held.foldl Buffers.kfree l.buffers

variable {σ κ : Type*}

namespace World

/-! ## The kernel's copies -/

/-- The loop over the slots of `argv` or `envp`: the strings so far, the buffers, and the error that ended it. -/
def copySlots (w : World σ κ) (argv : Nat) : Nat → Nat → Buffers → List KStr × Buffers × Option Int
  | 0, _, h => ([], h, none)
  | left + 1, i, h =>
    if w.user.verify (argv + 8 * i) 8 = false then ([], h, some EFAULT)
    else if w.user.bytes.le (argv + 8 * i) 8 = 0 then ([], h, none)
    else
      match h.kmalloc w.room with
      | (h, none) => ([], h, some ENOMEM)
      | (h, some b) =>
        match strncpyFromUser w.user (w.user.bytes.le (argv + 8 * i) 8) 128 with
        | .error e => ([], h.kfree b, some e)
        | .ok s =>
          let r := w.copySlots argv left (i + 1) h
          ((b, s) :: r.1, r.2)

/-- The copy of `argv`, and that of `envp`. -/
def copyStrings (w : World σ κ) (argv : Nat) (h : Buffers) : List KStr × Buffers × Option Int :=
  if argv = 0 then ([], h, none)
  else if w.user.verify argv 8 = false then ([], h, some EFAULT)
  else w.copySlots argv 32 0 h

/-- How a step goes on: an error takes the local variables to `cleanup_error`. -/
abbrev Step := Except (Int × Locals) Locals

def copyArgv (w : World σ κ) (argv : Nat) (l : Locals) : Step :=
  let r := w.copyStrings argv l.buffers
  let l := { l with kargv := r.1, buffers := r.2.1 }
  match r.2.2 with
  | some e => .error (e, l)
  | none => .ok l

def copyEnvp (w : World σ κ) (envp : Nat) (l : Locals) : Step :=
  let r := w.copyStrings envp l.buffers
  let l := { l with kenvp := r.1, buffers := r.2.1 }
  match r.2.2 with
  | some e => .error (e, l)
  | none => .ok l

/-! ## Words in front of the arguments -/

/-- Buffers for words; where there is no room for one, those before it are freed. -/
def mallocWords (w : World σ κ) : List Str → Buffers → Buffers × Option (List KStr)
  | [], h => (h, some [])
  | s :: ss, h =>
    match h.kmalloc w.room with
    | (h, none) => (h, none)
    | (h, some b) =>
      match w.mallocWords ss h with
      | (h, none) => (h.kfree b, none)
      | (h, some r) => (h, some ((b, s) :: r))

/-- The words take the place of the first argument, and the first of them is what is loaded. -/
def putWords (w : World σ κ) (words : List Str) (path : Str) (l : Locals) : Step :=
  if 32 < words.length + l.kargv.tail.length then .error (E2BIG, l)
  else
    match w.mallocWords words l.buffers with
    | (h, none) => .error (ENOMEM, { l with buffers := h })
    | (h, some r) =>
      .ok { l with buffers := (l.kargv.head?.map Prod.fst).elim h h.kfree, kargv := r ++ l.kargv.tail, path := path }

def scriptStep (w : World σ κ) (l : Locals) : Step :=
  match w.shebang l.path with
  | .error e => if e = ENOEXEC then .ok l else .error (e, l)
  | .ok none => .ok l
  | .ok (some (interp, arg, script)) =>
    w.putWords ([interp.take 255] ++ (if arg = [] then [] else [arg.take 127]) ++ [script.take 1023]) (interp.take 255) l

/-- The part of an executable with a `PT_INTERP` entry. -/
def interpStep (w : World σ κ) (l : Locals) : Step :=
  if skipPtInterp ∈ l.kenvp.map Prod.snd then .ok l
  else
    match w.interp l.path with
    | .error e => if e = ENOEXEC then .ok l else .error (e, l)
    | .ok none => .ok l
    | .ok (some interp) => w.putWords [interp.take 255, (w.execAbs l.path).take 255] (interp.take 255) l

/-- Everything before "2. New Address Space", the errors with the buffers as they are after `cleanup_error`. -/
def prepare (w : World σ κ) (path argv envp : Nat) (h : Buffers) : Except (Int × Buffers) Locals :=
  match h.kmalloc w.room with
  | (h, pathBuf) =>
    match h.kmalloc w.room with
    | (h, none) => .error (ENOMEM, pathBuf.elim h h.kfree)
    | (h, some scriptBuf) =>
      match pathBuf with
      | none => .error (ENOMEM, h.kfree scriptBuf)
      | some pathBuf =>
        match strncpyFromUser w.user path 1024 with
        | .error e => .error (e, (h.kfree pathBuf).kfree scriptBuf)
        | .ok kpath =>
          let steps : Step := do
            let l ← w.copyArgv argv ⟨h, kpath, pathBuf, scriptBuf, [], []⟩
            let l ← w.scriptStep l
            let l ← w.copyEnvp envp l
            w.interpStep l
          match steps with
          | .error (e, l) => .error (e, l.cleanup)
          | .ok l => .ok l

/-! ## The new address space -/

/-- The page map before anything is loaded: a PML4, and a table under its first entry, which has the identity map. -/
def newSpace (s : Space) (pml4 pdpt : Nat) : Space where
  pages := fun _ => none
  tables := fun level k => if level = 3 ∧ k = 0 then some pdpt else none
  frames := update (update s.frames pml4 fun _ => 0) pdpt fun _ => 0
  calls := s.calls + 2
  task := { s.task with brk := 0, mmapBase := 0x700000000000 }

structure Entered where
  locals : Locals
  aux : AuxInfo
  pml4 : Nat
  space : Space

/-- `task_exec` up to its call of `elf_load_file`, or what a failure leaves. -/
def attempt (w : World σ κ) (path argv envp : Nat) (st : Caller σ κ) : Except (Int × After σ κ) Entered :=
  match w.prepare path argv envp st.buffers with
  | .error (e, h) => .error (e, ⟨{ st with buffers := h }, [], []⟩)
  | .ok l =>
    match w.auxInfo l.path with
    | .error e => .error (e, ⟨{ st with buffers := l.cleanup }, [], []⟩)
    | .ok aux =>
      match w.machine.alloc st.space.calls with
      | none =>
        .error (ENOMEM, ⟨{ st with buffers := l.cleanup, space := { st.space with calls := st.space.calls + 1 } }, [], []⟩)
      | some pml4 =>
        match w.machine.alloc (st.space.calls + 1) with
        | none =>
          .error
            (ENOMEM, ⟨{ st with buffers := l.cleanup, space := { st.space with calls := st.space.calls + 2 } }, [pml4], []⟩)
        | some pdpt => .ok ⟨l, aux, pml4, newSpace st.space pml4 pdpt⟩

/-- The way back: the old page map is the current one, and the new one is torn down. -/
def restore (st : Caller σ κ) (r : Entered) (files : Files σ κ) (freed : List Nat) (s : Space) : After σ κ :=
  ⟨⟨st.cr3, { s with pages := st.space.pages, tables := st.space.tables }, files, r.locals.cleanup⟩, freed, [(r.pml4, s)]⟩

/-- The pages of the stack; where one cannot be mapped, its frame is freed. -/
def stackPages (m : Machine) : Nat → Nat → Space → Except (List Nat × Space) Space
  | 0, _, s => .ok s
  | n + 1, p, s =>
    match m.alloc s.calls with
    | none => .error ([], { s with calls := s.calls + 1 })
    | some f =>
      match { s with calls := s.calls + 1 }.mapPage m f p true with
      | (s, false) => .error ([f], s)
      | (s, true) => stackPages m n (p + 1) { s with frames := update s.frames f fun _ => 0 }

def enter (w : World σ κ) (st : Caller σ κ) (r : Entered) (entry : Nat) (s : Space) : Outcome σ κ :=
  match st.files.taskExec w.driver w.cur true 0 with
  | none => .stopped
  | some (files, _) =>
    match stackPages w.machine 32 (stackBase / 4096) s with
    | .error (freed, s) => .failed ENOMEM (restore st r files freed s)
    | .ok s =>
      let image : Image :=
        ⟨fun a => (s.byte a).getD 0, UInt64.ofNat entry, r.aux, w.uid, s.task.euid, w.gid, s.task.egid, w.ticks⟩
      match buildStack image (r.locals.kargv.map Prod.snd) (r.locals.kenvp.map Prod.snd) with
      | .error e => .failed e (restore st r files [] s)
      | .ok built => .done built ⟨⟨r.pml4, s, files, r.locals.cleanup⟩, [], [(st.cr3, st.space)]⟩

def taskExec (w : World σ κ) (fuel path argv envp : Nat) (st : Caller σ κ) : Outcome σ κ :=
  match w.attempt path argv envp st with
  | .error (e, a) => .failed e a
  | .ok r =>
    match Elf.elfLoadFile w.machine fuel r.locals.path 0 r.space with
    | .error (.rejected s) => .failed ENOEXEC (restore st r st.files [] s)
    | .error _ => .stopped
    | .ok (entry, s) => if entry = 0 then .failed ENOEXEC (restore st r st.files [] s) else w.enter st r entry s

end World

/-! ## Buffers -/

variable {w : World σ κ} {h h' : Buffers} {before : List Nat} {l : Locals}

theorem count_head (b : Nat) (ids : List Nat) (a : Nat) : (b :: ids).count a = [b].count a + ids.count a := by
  rw [← singleton_append, count_append]

theorem count_kmalloc_some {room : Nat → Bool} {b : Nat} (hk : h.kmalloc room = (h', some b)) (a : Nat) :
    h'.live.count a = [b].count a + h.live.count a := by
  unfold Buffers.kmalloc at hk
  split at hk
  · cases hk
    exact count_head ..
  · cases hk

theorem live_kmalloc_none {room : Nat → Bool} (hk : h.kmalloc room = (h', none)) : h'.live = h.live := by
  unfold Buffers.kmalloc at hk
  split at hk
  · cases hk
  · cases hk
    rfl

theorem count_kfree (h : Buffers) (b a : Nat) : (h.kfree b).live.count a = h.live.count a - [b].count a := by
  rw [Buffers.kfree, count_erase, count_singleton]

theorem count_cleanup : ∀ {ids : List Nat} {h : Buffers} {rest : List Nat},
    (∀ a, h.live.count a = ids.count a + rest.count a) →
    ∀ a, (ids.foldl Buffers.kfree h).live.count a = rest.count a
  | [], _, _, hc, a => by
    rw [foldl_nil, hc, count_nil, Nat.zero_add]
  | b :: ids, h, rest, hc, a => by
    rw [foldl_cons]
    refine count_cleanup (fun a => ?_) a
    have := hc a
    rw [count_head] at this
    rw [count_kfree]
    omega

def Locals.Holds (l : Locals) (before : List Nat) : Prop := ∀ a, l.buffers.live.count a = l.held.count a + before.count a

theorem Locals.Holds.cleanup (hl : l.Holds before) (a : Nat) : l.cleanup.live.count a = before.count a := count_cleanup hl a

theorem count_held (l : Locals) (a : Nat) : l.held.count a =
    [l.scriptBuf].count a + [l.pathBuf].count a + (l.kargv.map Prod.fst).count a + (l.kenvp.map Prod.fst).count a := by
  rw [Locals.held, count_head l.scriptBuf, count_head l.pathBuf, count_append]
  omega

structure Keeps (before : List Nat) (P : Locals → Prop) (r : World.Step) : Prop where
  ok : ∀ l, r = .ok l → l.Holds before ∧ P l
  error : ∀ e l, r = .error (e, l) → l.Holds before

variable {P : Locals → Prop}

theorem Keeps.bind {P' : Locals → Prop} {r : World.Step} {k : Locals → World.Step} (hr : Keeps before P r)
    (hk : ∀ l, l.Holds before → P l → Keeps before P' (k l)) : Keeps before P' (r >>= k) := by
  cases r with
  | error e =>
    refine ⟨fun l h => (by cases h), fun e' l h => ?_⟩
    cases h
    exact hr.error _ _ rfl
  | ok l => exact hk l (hr.ok l rfl).1 (hr.ok l rfl).2

theorem keeps_ok (hl : l.Holds before) (hp : P l) : Keeps before P (.ok l) :=
  ⟨fun l' h => (by cases h; exact ⟨hl, hp⟩), fun e l' h => (by cases h)⟩

theorem keeps_error {e : Int} (hl : l.Holds before) : Keeps before P (.error (e, l)) :=
  ⟨fun l' h => (by cases h), fun e' l' h => (by cases h; exact hl)⟩

theorem bind_step {r : World.Step} {k : Locals → World.Step} {l' : Locals} (h : (r >>= k) = .ok l') :
    ∃ l, r = .ok l ∧ k l = .ok l' := by
  cases r with
  | error e => cases h
  | ok l => exact ⟨l, rfl, h⟩

namespace World

theorem copySlots_count (w : World σ κ) (argv : Nat) : ∀ (left i : Nat) (h : Buffers) (a : Nat),
    (w.copySlots argv left i h).2.1.live.count a = ((w.copySlots argv left i h).1.map Prod.fst).count a + h.live.count a
  | 0, _, _, _ => (Nat.zero_add _).symm
  | left + 1, i, h, a => by
    rw [copySlots]
    split
    · exact (Nat.zero_add _).symm
    split
    · exact (Nat.zero_add _).symm
    split
    · rename_i h1 hk
      rw [live_kmalloc_none hk]
      exact (Nat.zero_add _).symm
    · rename_i h1 b hk
      have hb := count_kmalloc_some hk a
      split
      · dsimp only
        rw [count_kfree, map_nil, count_nil]
        omega
      · have ih := copySlots_count w argv left (i + 1) h1 a
        dsimp only
        rw [map_cons, count_head, ih]
        dsimp only
        omega

theorem copyStrings_count (w : World σ κ) (argv : Nat) (h : Buffers) (a : Nat) :
    (w.copyStrings argv h).2.1.live.count a = ((w.copyStrings argv h).1.map Prod.fst).count a + h.live.count a := by
  unfold copyStrings
  split
  · exact (Nat.zero_add _).symm
  split
  · exact (Nat.zero_add _).symm
  · exact copySlots_count w argv _ _ h a

theorem copyArgv_keeps (w : World σ κ) (argv : Nat) (hl : l.Holds before) (hargv : l.kargv = []) (henvp : l.kenvp = []) :
    Keeps before (fun l => l.kenvp = []) (w.copyArgv argv l) := by
  have hnew : Locals.Holds
      { l with kargv := (w.copyStrings argv l.buffers).1, buffers := (w.copyStrings argv l.buffers).2.1 } before := by
    intro a
    have := hl a
    have hcount := copyStrings_count w argv l.buffers a
    rw [count_held, hargv, henvp, map_nil, count_nil] at this
    rw [count_held, henvp, map_nil, count_nil]
    dsimp only
    omega
  unfold copyArgv
  dsimp only
  split
  · exact keeps_error hnew
  · exact keeps_ok hnew henvp

theorem copyEnvp_keeps (w : World σ κ) (envp : Nat) (hl : l.Holds before) (henvp : l.kenvp = []) :
    Keeps before (fun _ => True) (w.copyEnvp envp l) := by
  have hnew : Locals.Holds
      { l with kenvp := (w.copyStrings envp l.buffers).1, buffers := (w.copyStrings envp l.buffers).2.1 } before := by
    intro a
    have := hl a
    have hcount := copyStrings_count w envp l.buffers a
    rw [count_held, henvp, map_nil, count_nil] at this
    rw [count_held]
    dsimp only
    omega
  unfold copyEnvp
  dsimp only
  split
  · exact keeps_error hnew
  · exact keeps_ok hnew trivial

theorem mallocWords_count : ∀ {words : List Str} {h h' : Buffers} {r : Option (List KStr)}, w.mallocWords words h = (h', r) →
    ∀ a, h'.live.count a = ((r.getD []).map Prod.fst).count a + h.live.count a
  | [], h, h', r, hr, a => by
    cases hr
    exact (Nat.zero_add _).symm
  | s :: ss, h, h', r, hr, a => by
    rw [mallocWords] at hr
    split at hr
    · rename_i h1 hk
      cases hr
      rw [live_kmalloc_none hk]
      exact (Nat.zero_add _).symm
    · rename_i h1 b hk
      have hb := count_kmalloc_some hk a
      split at hr
      · rename_i h2 hw
        have ih := mallocWords_count hw a
        cases hr
        rw [count_kfree, ih, Option.getD_none, map_nil, count_nil]
        omega
      · rename_i h2 rest hw
        have ih := mallocWords_count hw a
        cases hr
        rw [Option.getD_some] at ih
        rw [ih, Option.getD_some, map_cons, count_head]
        dsimp only
        omega

theorem putWords_keeps {words : List Str} {path : Str} {P : Locals → Prop} (hl : l.Holds before)
    (hP : ∀ b r p, P { l with buffers := b, kargv := r, path := p }) : Keeps before P (w.putWords words path l) := by
  unfold putWords
  split
  · exact keeps_error hl
  split
  · rename_i h1 hw
    refine keeps_error fun a => ?_
    have := hl a
    have hcount := mallocWords_count hw a
    rw [Option.getD_none, map_nil, count_nil] at hcount
    rw [count_held] at this ⊢
    dsimp only
    omega
  · rename_i h1 r hw
    refine keeps_ok (fun a => ?_) (hP _ _ _)
    have := hl a
    have hcount := mallocWords_count hw a
    rw [Option.getD_some] at hcount
    rw [count_held] at this ⊢
    dsimp only
    rw [map_append, count_append]
    cases hargv : l.kargv with
    | nil =>
      rw [hargv] at this
      simp only [List.head?_nil, Option.map_none, Option.elim_none, tail_nil, map_nil, count_nil] at this ⊢
      omega
    | cons k ks =>
      rw [hargv, map_cons, count_head k.1] at this
      simp only [List.head?_cons, Option.map_some, Option.elim_some, tail_cons, count_kfree]
      omega

theorem scriptStep_keeps (hl : l.Holds before) (henvp : l.kenvp = []) :
    Keeps before (fun l => l.kenvp = []) (w.scriptStep l) := by
  unfold scriptStep
  split
  · split
    · exact keeps_ok hl henvp
    · exact keeps_error hl
  · exact keeps_ok hl henvp
  · exact putWords_keeps hl fun _ _ _ => henvp

theorem interpStep_keeps (w : World σ κ) (hl : l.Holds before) : Keeps before (fun _ => True) (w.interpStep l) := by
  unfold interpStep
  split
  · exact keeps_ok hl trivial
  split
  · split
    · exact keeps_ok hl trivial
    · exact keeps_error hl
  · exact keeps_ok hl trivial
  · exact putWords_keeps hl fun _ _ _ => trivial

/-- **Every error before the new page map frees the buffers of the call**, and without one they are those held. -/
theorem prepare_keeps {path argv envp : Nat} :
    (∀ e h', w.prepare path argv envp h = .error (e, h') → ∀ a, h'.live.count a = h.live.count a) ∧
      ∀ l, w.prepare path argv envp h = .ok l → l.Holds h.live := by
  unfold prepare
  split
  rename_i h1 pathBuf hk1
  split
  · rename_i h2 hk2
    refine ⟨fun e h' he a => ?_, fun l hl => (by cases hl)⟩
    cases he
    cases pathBuf with
    | none =>
      show h2.live.count a = _
      rw [live_kmalloc_none hk2, live_kmalloc_none hk1]
    | some b =>
      have := count_kmalloc_some hk1 a
      show (h2.kfree b).live.count a = _
      rw [count_kfree, live_kmalloc_none hk2]
      omega
  rename_i h2 scriptBuf hk2
  have hscript := count_kmalloc_some hk2
  split
  · refine ⟨fun e h' he a => ?_, fun l hl => (by cases hl)⟩
    cases he
    have := hscript a
    rw [live_kmalloc_none hk1] at this
    rw [count_kfree]
    omega
  · rename_i b
    have hpath := count_kmalloc_some hk1
    split
    · refine ⟨fun e h' he a => ?_, fun l hl => (by cases hl)⟩
      cases he
      have := hscript a
      have := hpath a
      rw [count_kfree, count_kfree]
      omega
    · rename_i kpath _
      have hl : Locals.Holds ⟨h2, kpath, b, scriptBuf, [], []⟩ h.live := by
        intro a
        have := hscript a
        have := hpath a
        rw [count_held, map_nil, count_nil]
        dsimp only
        omega
      have hkeeps := (copyArgv_keeps w argv hl rfl rfl).bind fun l hl henvp =>
        (scriptStep_keeps (w := w) hl henvp).bind fun l hl henvp =>
          (copyEnvp_keeps w envp hl henvp).bind fun l hl _ => interpStep_keeps w hl
      dsimp only
      split
      · rename_i e l hsteps
        refine ⟨fun e' h' he a => ?_, fun l hl => (by cases hl)⟩
        cases he
        exact (hkeeps.error e l hsteps).cleanup a
      · rename_i l hsteps
        refine ⟨fun e' h' he => (by cases he), fun l' hl' => ?_⟩
        cases hl'
        exact (hkeeps.ok l hsteps).1

end World

/-! ## What is left of the caller -/

def After.GivesBack (a : After σ κ) (f : Nat) : Prop := f ∈ a.freed ∨ ∃ d ∈ a.destroyed, f = d.1 ∨ d.2.Owns f

structure Intact (m : Machine) (st : Caller σ κ) (a : After σ κ) : Prop where
  cr3 : a.caller.cr3 = st.cr3
  pages : a.caller.space.pages = st.space.pages
  tables : a.caller.space.tables = st.space.tables
  memory : ∀ f, st.space.Owns f → a.caller.space.frames f = st.space.frames f
  task : a.caller.space.task = st.space.task
  files : a.caller.files = st.files
  buffers : a.caller.buffers.live.Perm st.buffers.live
  frames : ∀ i f, st.space.calls ≤ i → i < a.caller.space.calls → m.alloc i = some f → a.GivesBack f

variable {st : Caller σ κ} {a : After σ κ} {e : Int} {fuel path argv envp : Nat} {r : World.Entered}

namespace World

theorem perm_cleanup (hl : l.Holds st.buffers.live) : l.cleanup.live.Perm st.buffers.live := perm_iff_count.2 hl.cleanup

theorem attempt_error (h : w.attempt path argv envp st = .error (e, a)) : Intact w.machine st a := by
  unfold attempt at h
  split at h
  · rename_i e1 h1 hprep
    cases h
    refine ⟨rfl, rfl, rfl, fun _ _ => rfl, rfl, rfl, perm_iff_count.2 (prepare_keeps.1 _ _ hprep), fun i f hi hi' _ => ?_⟩
    exact absurd hi' (Nat.not_lt.2 hi)
  rename_i l hprep
  have hheap := perm_cleanup (prepare_keeps.2 l hprep)
  split at h
  · cases h
    exact ⟨rfl, rfl, rfl, fun _ _ => rfl, rfl, rfl, hheap, fun i f hi hi' _ => absurd hi' (Nat.not_lt.2 hi)⟩
  split at h
  · rename_i hnone
    cases h
    refine ⟨rfl, rfl, rfl, fun _ _ => rfl, rfl, rfl, hheap, fun i f hi hi' hf => ?_⟩
    have hi' : i < st.space.calls + 1 := hi'
    have hii : i = st.space.calls := by omega
    rw [hii, hnone] at hf
    cases hf
  rename_i pml4 hpml4
  split at h
  · rename_i hnone
    cases h
    refine ⟨rfl, rfl, rfl, fun _ _ => rfl, rfl, rfl, hheap, fun i f hi hi' hf => ?_⟩
    have hi' : i < st.space.calls + 2 := hi'
    by_cases hii : i = st.space.calls
    · rw [hii, hpml4] at hf
      cases hf
      exact Or.inl (mem_singleton_self _)
    · have hii : i = st.space.calls + 1 := by omega
      rw [hii, hnone] at hf
      cases hf
  · cases h

theorem attempt_ok (h : w.attempt path argv envp st = .ok r) : r.locals.Holds st.buffers.live ∧
    ∃ pdpt, w.machine.alloc st.space.calls = some r.pml4 ∧ w.machine.alloc (st.space.calls + 1) = some pdpt ∧
      r.space = newSpace st.space r.pml4 pdpt := by
  unfold attempt at h
  split at h
  · cases h
  rename_i l hprep
  split at h
  · cases h
  split at h
  · cases h
  rename_i pml4 hpml4
  split at h
  · cases h
  rename_i pdpt hpdpt
  cases h
  exact ⟨prepare_keeps.2 l hprep, pdpt, hpml4, hpdpt, rfl⟩

variable {s : Space}

theorem newSpace_owns {pml4 pdpt f : Nat} : (newSpace s pml4 pdpt).Owns f ↔ f = pdpt := by
  constructor
  · rintro (⟨p, c, hp, _⟩ | ⟨level, k, hk⟩)
    · cases hp
    · unfold newSpace at hk
      dsimp only at hk
      split at hk
      · cases hk
        rfl
      · cases hk
  · rintro rfl
    exact Or.inr ⟨3, 0, rfl⟩

/-- The ABI of the file at hand is the one the task has, if its header is looked at. -/
def AbiKept (m : Machine) (path : Str) (t : ElfTask) : Prop := Elf.abiSet m path t = t

theorem abiSet_moved (m : Machine) (path : Str) (t : ElfTask) (brk mmapBase : Nat) :
    Elf.abiSet m path { t with brk := brk, mmapBase := mmapBase } =
    { Elf.abiSet m path t with brk := brk, mmapBase := mmapBase } := by
  unfold Elf.abiSet
  cases m.lookup path with
  | none => rfl
  | some nd =>
    dsimp only
    have hgrant : Elf.granted { t with brk := brk, mmapBase := mmapBase } nd = Elf.granted t nd := rfl
    rw [hgrant]
    split
    · rfl
    · unfold ElfTask.setAbi
      split <;> rfl

theorem abiSet_brk (m : Machine) (path : Str) (t : ElfTask) :
    (Elf.abiSet m path t).brk = t.brk ∧ (Elf.abiSet m path t).mmapBase = t.mmapBase := by
  unfold Elf.abiSet
  cases m.lookup path with
  | none => exact ⟨rfl, rfl⟩
  | some nd =>
    dsimp only
    split
    · exact ⟨rfl, rfl⟩
    · unfold ElfTask.setAbi
      split <;> exact ⟨rfl, rfl⟩

theorem reset_eq_iff (m : Machine) (path : Str) (t : ElfTask) :
    Elf.abiSet m path { t with brk := 0, mmapBase := 0x700000000000 } = t ↔
      t.brk = 0 ∧ t.mmapBase = 0x700000000000 ∧ AbiKept m path t := by
  rw [abiSet_moved]
  unfold AbiKept
  constructor
  · intro h
    have hbrk : 0 = t.brk := congrArg ElfTask.brk h
    have hbase : 0x700000000000 = t.mmapBase := congrArg ElfTask.mmapBase h
    refine ⟨hbrk.symm, hbase.symm, ?_⟩
    obtain ⟨hb, hm⟩ := abiSet_brk m path t
    calc Elf.abiSet m path t =
          { Elf.abiSet m path t with brk := (Elf.abiSet m path t).brk, mmapBase := (Elf.abiSet m path t).mmapBase } := rfl
      _ = { Elf.abiSet m path t with brk := 0, mmapBase := 0x700000000000 } := by rw [hb, hm, ← hbrk, ← hbase]
      _ = t := h
  · rintro ⟨hbrk, hbase, habi⟩
    rw [habi, ← hbrk, ← hbase]

/-- A file that the loader turns down costs the caller its `brk`, its `mmap_base` and its ABI, and nothing else. -/
theorem rejected_spec (hm : w.machine.Honest)
    (huse : ∀ f, st.space.Owns f → ∀ i, st.space.calls ≤ i → w.machine.alloc i ≠ some f)
    (hr : w.attempt path argv envp st = .ok r)
    (hs : Elf.elfLoadFile w.machine fuel r.locals.path 0 r.space = .error (.rejected s)) :
    Intact w.machine st (restore st r st.files [] s) ↔
      st.space.task.brk = 0 ∧ st.space.task.mmapBase = 0x700000000000 ∧ AbiKept w.machine r.locals.path st.space.task := by
  obtain ⟨hheld, pdpt, hpml4, hpdpt, hspace⟩ := attempt_ok hr
  have h0 : ¬ r.space.Owns 0 := by
    rw [hspace, newSpace_owns]
    exact (hm.pos _ _ hpdpt).symm
  have htook := Elf.elfLoadFile_rejected hm h0 hs
  have htask : s.task = Elf.abiSet w.machine r.locals.path { st.space.task with brk := 0, mmapBase := 0x700000000000 } := by
    rw [htook.task, hspace]
    rfl
  rw [← reset_eq_iff, ← htask]
  refine ⟨Intact.task, fun h => ⟨rfl, rfl, rfl, fun f hf => ?_, h, rfl, perm_cleanup hheld, fun i f hi hi' hf => ?_⟩⟩
  · have hfree := huse f hf
    have hpml4' : f ≠ r.pml4 := fun hfp => hfree _ (Nat.le_refl _) (hfp ▸ hpml4)
    have hpdpt' : f ≠ pdpt := fun hfp => hfree _ (Nat.le_succ _) (hfp ▸ hpdpt)
    have hcalls : r.space.calls = st.space.calls + 2 := by rw [hspace]; rfl
    have hno : ¬ r.space.Owns f := by
      rw [hspace, newSpace_owns]
      exact hpdpt'
    have hlater : ∀ i, r.space.calls ≤ i → w.machine.alloc i ≠ some f := fun i hi => hfree i (by omega)
    have hkept : s.frames f = r.space.frames f := htook.frames f hlater hno
    show s.frames f = st.space.frames f
    rw [hkept, hspace]
    exact (update_of_ne hpdpt' ..).trans (update_of_ne hpml4' ..)
  · refine Or.inr ⟨_, mem_singleton_self _, ?_⟩
    dsimp only
    by_cases hi0 : i = st.space.calls
    · rw [hi0, hpml4] at hf
      exact Or.inl (Option.some.inj hf).symm
    · right
      by_cases hi1 : i = st.space.calls + 1
      · rw [hi1, hpdpt] at hf
        have hfp : f = pdpt := (Option.some.inj hf).symm
        have howns : r.space.Owns f := by
          rw [hspace, newSpace_owns]
          exact hfp
        exact htook.owns f (hfp ▸ hm.pos _ _ hpdpt) howns
      · refine htook.given i f ?_ hi' hf
        show r.space.calls ≤ i
        rw [hspace]
        show st.space.calls + 2 ≤ i
        omega

theorem mapPage_task (m : Machine) (s : Space) (f p : Nat) (b : Bool) : (s.mapPage m f p b).1.task = s.task :=
  Elf.task_halMemMap m s f p b

theorem stackPages_task {m : Machine} : ∀ {n p : Nat} {s : Space},
    (∀ s', stackPages m n p s = .ok s' → s'.task = s.task) ∧ ∀ freed s', stackPages m n p s = .error (freed, s') →
    s'.task = s.task
  | 0, _, s => ⟨fun s' h => (by cases h; rfl), fun _ _ h => (by cases h)⟩
  | n + 1, p, s => by
    rw [stackPages]
    split
    · exact ⟨fun s' h => (by cases h), fun _ _ h => (by cases h; rfl)⟩
    · rename_i f hf
      have hmap := mapPage_task m { s with calls := s.calls + 1 } f p true
      split
      · rename_i s1 h1
        rw [h1] at hmap
        exact ⟨fun s' h => (by cases h), fun _ _ h => (by cases h; exact hmap)⟩
      · rename_i s1 h1
        rw [h1] at hmap
        obtain ⟨hok, herr⟩ := stackPages_task (m := m) (n := n) (p := p + 1)
          (s := { s1 with frames := update s1.frames f fun _ => 0 })
        exact ⟨fun s' h => (hok s' h).trans hmap, fun fr s' h => (herr fr s' h).trans hmap⟩

variable {entry : Nat}

theorem enter_failed (h : w.enter st r entry s = .failed e a) : a.caller.space.task = s.task := by
  unfold enter at h
  split at h
  · cases h
  split at h
  · rename_i freed s1 hpages
    cases h
    have htask := stackPages_task.2 freed s1 hpages
    exact htask
  · rename_i s1 hpages
    dsimp only at h
    split at h
    · cases h
      have htask := stackPages_task.1 s1 hpages
      exact htask
    · cases h

/-- The call ends before it gets to the loader; or the loader turns the file down, for a task that has the values anyway
which it is left with. -/
def Spared (w : World σ κ) (fuel path argv envp : Nat) (st : Caller σ κ) : Prop :=
  ∀ r, w.attempt path argv envp st = .ok r →
    (∃ s, Elf.elfLoadFile w.machine fuel r.locals.path 0 r.space = .error (.rejected s)) ∧
      st.space.task.brk = 0 ∧ st.space.task.mmapBase = 0x700000000000 ∧ AbiKept w.machine r.locals.path st.space.task

/-- The image was loaded, and its load happened to leave the fields as they were. -/
def LoadedAlike (w : World σ κ) (fuel path argv envp : Nat) (st : Caller σ κ) : Prop :=
  ∃ r entry s, w.attempt path argv envp st = .ok r ∧
    Elf.elfLoadFile w.machine fuel r.locals.path 0 r.space = .ok (entry, s) ∧
    s.task = st.space.task

/-- The answers of the world, with room for every buffer, to a call that loads this image. -/
def answers (w : World σ κ) (entry : Nat) (s : Space) : Answers where
  room := ⟨true, fun _ => true, fun _ => true, true, true⟩
  shebang := w.shebang
  interp := w.interp
  execAbs := w.execAbs
  auxInfo := w.auxInfo
  tables := true
  load := fun _ => (UInt64.ofNat entry, fun a => (s.byte a).getD 0)
  stackPages := true
  ticks := w.ticks
  uid := w.uid
  euid := s.task.euid
  gid := w.gid
  egid := s.task.egid

theorem copySlots_ok : ∀ {left i : Nat} {h : Buffers}, (w.copySlots argv left i h).2.2 = none →
    Exec.copySlots w.user (fun _ => true) argv left i = .ok ((w.copySlots argv left i h).1.map Prod.snd)
  | 0, _, _, _ => rfl
  | left + 1, i, h, hok => by
    rw [copySlots] at hok ⊢
    rw [Exec.copySlots]
    split at hok
    · cases hok
    rename_i hverify
    rw [if_neg hverify, if_neg hverify]
    split at hok
    · rename_i hnull
      rw [if_pos hnull, if_pos hnull]
      rfl
    rename_i hnull
    rw [if_neg hnull, if_neg hnull, if_neg (by decide)]
    split at hok
    · cases hok
    rename_i h1 b hk
    split at hok
    · cases hok
    rename_i s hs
    dsimp only at hok
    rw [hs]
    dsimp only
    have hrest := copySlots_ok hok
    show (do
      let rest ← Exec.copySlots w.user (fun _ => true) argv left (i + 1)
      pure (s :: rest) : Except Int (List Str)) = _
    rw [hrest]
    rfl

theorem copyStrings_ok (hok : (w.copyStrings argv h).2.2 = none) :
    Exec.copyStrings w.user (fun _ => true) argv = .ok ((w.copyStrings argv h).1.map Prod.snd) := by
  unfold copyStrings at hok ⊢
  unfold Exec.copyStrings
  split at hok
  · rename_i hnull
    rw [if_pos hnull, if_pos hnull]
    rfl
  rename_i hnull
  rw [if_neg hnull, if_neg hnull]
  split at hok
  · cases hok
  rename_i hverify
  rw [if_neg hverify, if_neg hverify]
  exact copySlots_ok hok

theorem mallocWords_words : ∀ {words : List Str} {h h' : Buffers} {r : List KStr}, w.mallocWords words h = (h', some r) →
    r.map Prod.snd = words
  | [], _, _, _, hr => by
    cases hr
    rfl
  | s :: ss, h, h', r, hr => by
    rw [mallocWords] at hr
    split at hr
    · cases hr
    split at hr
    · cases hr
    · rename_i h2 rest hw
      cases hr
      rw [map_cons, mallocWords_words hw]

variable {l' : Locals}

theorem putWords_ok {words : List Str} {path : Str} (h : w.putWords words path l = .ok l') :
    ¬ 32 < words.length + (l.kargv.map Prod.snd).tail.length ∧ l'.path = path ∧ l'.kenvp = l.kenvp ∧
      l'.kargv.map Prod.snd = words ++ (l.kargv.map Prod.snd).tail := by
  unfold putWords at h
  split at h
  · cases h
  rename_i hlen
  split at h
  · cases h
  rename_i h1 r hr
  cases h
  refine ⟨by rwa [← map_tail, length_map], rfl, rfl, ?_⟩
  dsimp only
  rw [map_append, mallocWords_words hr, map_tail]

theorem scriptStep_ok (entry : Nat) (s : Space) (h : w.scriptStep l = .ok l') :
    Exec.scriptStep (w.answers entry s) l.path (l.kargv.map Prod.snd) = .ok (l'.path, l'.kargv.map Prod.snd) := by
  unfold scriptStep at h
  unfold Exec.scriptStep
  split at h
  · rename_i e he
    split at h
    · rename_i hexec
      cases h
      simp [answers, he, if_pos hexec]
    · cases h
  · rename_i he
    cases h
    simp [answers, he]
  · rename_i interp arg script he
    obtain ⟨hlen, hpath, _, hargv⟩ := putWords_ok h
    have hlen' : ¬ 32 < 2 + (if arg = [] then 0 else 1) + (l.kargv.map Prod.snd).tail.length := by
      rw [length_append, length_append, length_singleton, length_singleton] at hlen
      by_cases harg : arg = []
      · rw [if_pos harg, length_nil] at hlen
        rwa [if_pos harg]
      · rw [if_neg harg, length_singleton] at hlen
        rwa [if_neg harg]
    simp only [answers, he, if_neg hlen', Bool.true_eq_false, if_false]
    rw [hpath, hargv, shebangArgs]

theorem interpStep_ok (entry : Nat) (s : Space) (h : w.interpStep l = .ok l') :
    Exec.interpStep (w.answers entry s) l.path (l.kargv.map Prod.snd) (l.kenvp.map Prod.snd) =
    .ok (l'.path, l'.kargv.map Prod.snd) ∧
      l'.kenvp = l.kenvp := by
  unfold interpStep at h
  unfold Exec.interpStep
  split at h
  · rename_i hskip
    cases h
    exact ⟨if_pos hskip, rfl⟩
  rename_i hskip
  rw [if_neg hskip]
  split at h
  · rename_i e he
    split at h
    · rename_i hexec
      cases h
      exact ⟨by simp [answers, he, if_pos hexec], rfl⟩
    · cases h
  · rename_i he
    cases h
    exact ⟨by simp [answers, he], rfl⟩
  · rename_i interp he
    obtain ⟨hlen, hpath, henvp, hargv⟩ := putWords_ok h
    have hlen' : ¬ 32 < 2 + (l.kargv.map Prod.snd).tail.length := hlen
    refine ⟨?_, henvp⟩
    simp only [answers, he, if_neg hlen', Bool.true_eq_false, if_false]
    rw [hpath, hargv]

theorem prepare_ok (hp : w.prepare path argv envp h = .ok l) : Exec.taskExec w.user (w.answers entry s) path argv envp =
      enterImage (w.answers entry s) l.path (l.kargv.map Prod.snd) (l.kenvp.map Prod.snd) := by
  unfold prepare at hp
  split at hp
  split at hp
  · cases hp
  split at hp
  · cases hp
  split at hp
  · cases hp
  rename_i kpath hpath
  dsimp only at hp
  split at hp
  · cases hp
  rename_i l' hsteps
  cases hp
  obtain ⟨l1, hargv, hsteps⟩ := bind_step hsteps
  obtain ⟨l2, hscript, hsteps⟩ := bind_step hsteps
  obtain ⟨l3, henvp, hinterp⟩ := bind_step hsteps
  unfold copyArgv at hargv
  dsimp only at hargv
  split at hargv
  · cases hargv
  rename_i hargv1
  cases hargv
  unfold copyEnvp at henvp
  dsimp only at henvp
  split at henvp
  · cases henvp
  rename_i henvp1
  cases henvp
  have hscript' := scriptStep_ok entry s hscript
  obtain ⟨hinterp', hkept⟩ := interpStep_ok entry s hinterp
  dsimp only at hscript' hinterp' hkept
  unfold Exec.taskExec
  have hargv' : Exec.copyStrings w.user (w.answers entry s).room.arg argv = _ := copyStrings_ok hargv1
  have henvp' : Exec.copyStrings w.user (w.answers entry s).room.env envp = _ := copyStrings_ok henvp1
  rw [if_neg (fun h => Bool.noConfusion h)]
  simp [bind, Except.bind, hpath, hargv', hscript', henvp', hinterp', hkept]

theorem elfLoadFile_entry {m : Machine} {path : Str} {base : Nat} {s' : Space}
    (h : Elf.elfLoadFile m fuel path base s = .ok (entry, s')) : entry < 2 ^ 64 := by
  cases fuel with
  | zero => cases h
  | succ fuel =>
    unfold Elf.elfLoadFile at h
    split at h
    · cases h
    split at h
    · cases h
    split at h
    · cases h
    obtain ⟨r1, _, h⟩ := Elf.ok_of_bind h
    obtain ⟨s2, _, h⟩ := Elf.ok_of_bind h
    obtain ⟨s3, _, h⟩ := Elf.ok_of_bind h
    cases h
    exact Nat.mod_lt _ (by decide)

/-- **An exec that succeeds builds the stack that `ExecArgs` says**, for an image that the loader put there. -/
theorem taskExec_done {w : World σ κ} {fuel path argv envp : Nat} {st : Caller σ κ} {built : Built} {a : After σ κ}
    (h : w.taskExec fuel path argv envp st = .done built a) : ∃ r entry s s', w.attempt path argv envp st = .ok r ∧
      Elf.elfLoadFile w.machine fuel r.locals.path 0 r.space = .ok (entry, s) ∧
      stackPages w.machine 32 (stackBase / 4096) s = .ok s' ∧
      Exec.taskExec w.user (w.answers entry s') path argv envp = .ok built := by
  unfold taskExec at h
  split at h
  · cases h
  rename_i r hatt
  split at h
  · cases h
  · cases h
  rename_i entry s hload
  split at h
  · cases h
  rename_i hentry
  unfold enter at h
  split at h
  · cases h
  split at h
  · cases h
  rename_i s1 hpages
  dsimp only at h
  split at h
  · cases h
  rename_i built' hbuilt
  cases h
  refine ⟨r, entry, s, s1, hatt, hload, hpages, ?_⟩
  unfold attempt at hatt
  split at hatt
  · cases hatt
  rename_i l hprep
  split at hatt
  · cases hatt
  rename_i aux haux
  split at hatt
  · cases hatt
  split at hatt
  · cases hatt
  cases hatt
  have hne : UInt64.ofNat entry ≠ 0 := by
    intro h0
    have hzero := congrArg UInt64.toNat h0
    rw [UInt64.toNat_ofNat', Nat.mod_eq_of_lt (elfLoadFile_entry hload)] at hzero
    exact hentry hzero
  rw [prepare_ok hprep, enterImage]
  show (w.auxInfo l.path >>= _) = _
  rw [haux]
  show (if ((w.answers entry s1).load l.path).1 = 0 then _ else _) = _
  have hloaded : ¬ ((w.answers entry s1).load l.path).1 = 0 := hne
  have hstack : ¬ (w.answers entry s1).stackPages = false := fun h => Bool.noConfusion h
  rw [if_neg hloaded, if_neg hstack]
  exact hbuilt

/-! ## A file that is no program -/

def objectFile : Elf.Node where
  length := 64
  content := fun i => match i with
    | 0 => 0x7F | 1 => 69 | 2 => 76 | 3 => 70 | 16 => 1 | 18 => 62 | _ => 0
  uid := 0
  gid := 0
  mask := 0
  ioOk := fun _ _ => true

def noDrivers : Driver Unit Unit where
  tree :=
    { attrs := fun _ => ⟨1, 0o644, 0, 0⟩
      lookup := fun _ _ => none
      create := fun _ => none
      mkdir := fun _ => none
      unlink := fun _ => none
      rename := fun _ => none
      link := fun _ => none
      memfd := none }
  refs _ := 1
  length _ _ := 0
  truncate _ _ := ()
  openFs _ _ := ((), ())
  closeFs _ _ := ()
  finddir _ _ _ := none
  shmfsCreateMemfd _ := ((), ())
  pipe _ := ((), (), ())

/-- `"/a"` at 4096, which is that file: neither a script nor with an interpreter. -/
def objectWorld : World Unit Unit where
  user := ⟨fun a => if a = 4096 then 47 else if a = 4097 then 97 else 0, fun _ _ => true⟩
  driver := noDrivers
  cur := 0
  machine := Elf.machineOf objectFile
  room _ := true
  shebang _ := .ok none
  interp _ := .ok none
  execAbs path := path
  auxInfo _ := .ok {}
  ticks _ := 0
  uid := 0
  gid := 0

def callerWith (brk : Nat) : Caller Unit Unit :=
  ⟨9, Elf.emptySpace.setTask fun t => { t with brk := brk }, Files.boot () 1, ⟨[], 0⟩⟩

theorem objectWorld_spared : objectWorld.Spared 1 4096 0 0 (callerWith 0) := by
  intro r hr
  have hpath : (objectWorld.attempt 4096 0 0 (callerWith 0)).toOption.map (fun r => r.locals.path) = some [47, 97] := by
    decide +kernel
  rw [hr] at hpath
  have hpath : r.locals.path = [47, 97] := Option.some.inj hpath
  have hlookup : objectWorld.machine.lookup [47, 97] = some objectFile := rfl
  have hheader : Elf.headerOk objectFile = false := by decide
  refine ⟨⟨r.space, ?_⟩, rfl, rfl, ?_⟩
  · rw [hpath, Elf.elfLoadFile]
    simp [hlookup, hheader]
  · unfold AbiKept Elf.abiSet
    rw [hpath, hlookup]
    dsimp only
    rw [if_pos (Or.inr hheader)]

theorem stackPages_supplied {m : Elf.Machine} (hm : ∀ i, (m.alloc i).isSome) : ∀ (n p : Nat) (s : Elf.Space),
    ∃ s', stackPages m n p s = .ok s'
  | 0, _, s => ⟨s, rfl⟩
  | n + 1, p, s => by
    obtain ⟨f, hf⟩ := Option.isSome_iff_exists.1 (hm s.calls)
    obtain ⟨htrue, -, -⟩ := Elf.mapPage_supplied hm { s with calls := s.calls + 1 } f p true
    rw [stackPages, hf]
    dsimp only
    split
    · rename_i hmap
      rw [hmap] at htrue
      cases htrue
    · exact stackPages_supplied hm n (p + 1) _

theorem ok_of_toOption {ε α : Type*} {r : Except ε α} {a : α} (h : r.toOption = some a) : r = .ok a := by
  cases r with
  | error e => cases h
  | ok b =>
    cases h
    rfl

/-- A program of one page at the first user address, with its entry there. -/
def programFile : Elf.Node := { objectFile with
  length := 176
  content := fun i => match i with
    | 0 => 0x7F | 1 => 69 | 2 => 76 | 3 => 70 | 16 => 2 | 18 => 62 | 28 => 2 | 32 => 64 | 54 => 56 | 56 => 1
    | 64 => 1 | 68 => 5 | 84 => 2 | 96 => 16 | 104 => 16 | _ => 0 }

def programWorld : World Unit Unit := { objectWorld with machine := Elf.machineOf programFile }

theorem elfLoadFile_program : ∃ s, Elf.elfLoadFile (Elf.machineOf programFile) 1 [47, 97] 0
    (newSpace (callerWith 0).space 1 2) =
    .ok (0x200000000, s) := by
  have hheader : Elf.headerOk programFile = true := by decide
  have hgranted : Elf.granted (newSpace (callerWith 0).space 1 2).task programFile = true := by decide
  have hsegments : ((Elf.loadSegments (Elf.machineOf programFile) programFile (Elf.ehdrOf programFile)
      (Elf.loadOffset (Elf.ehdrOf programFile) 0) (List.range (Elf.ehdrOf programFile).phnum)
      ((newSpace (callerWith 0).space 1 2).setTask fun t => t.setAbi ((Elf.ehdrOf programFile).ident 7)) 0).toOption.map
      fun r => (r.1.task.tlsMemsz, r.1.task.mmapBase)) = some (0, 0x700000000000) := by decide +kernel
  have hplain : ∀ i ∈ List.range (Elf.ehdrOf programFile).phnum,
      (Elf.phdrOf programFile (Elf.ehdrOf programFile) i).type ≠ Elf.PT_TLS ∧
        (Elf.phdrOf programFile (Elf.ehdrOf programFile) i).type ≠ Elf.PT_DYNAMIC := by decide
  have hentry : ((Elf.ehdrOf programFile).entry + Elf.loadOffset (Elf.ehdrOf programFile) 0) % 2 ^ 64 = 0x200000000 := by
    decide
  have hlookup : (Elf.machineOf programFile).lookup [47, 97] = some programFile := rfl
  have hsupplied : ∀ i, ((Elf.machineOf programFile).alloc i).isSome := fun _ => rfl
  obtain ⟨⟨s, top⟩, hload, hfacts⟩ := Option.map_eq_some_iff.1 hsegments
  obtain ⟨htls, hbase⟩ := Prod.mk.inj hfacts
  obtain ⟨s', htlsOk⟩ := Elf.setupTls_supplied (s := s.setTask fun t => { t with brk := top }) hsupplied htls
    (by change s.task.mmapBase % 4096 = 0; rw [hbase]) (by change s.task.mmapBase + 8192 ≤ _; rw [hbase]; decide)
  have hr := ok_of_toOption hload
  refine ⟨s', ?_⟩
  rw [Elf.elfLoadFile]
  simp only [hlookup, hheader, hgranted, if_neg (show ¬ (true = false) by decide)]
  rw [hr]
  dsimp only [bind, Except.bind]
  rw [Elf.pass3_plain hplain]
  dsimp only
  rw [Elf.finish, if_pos (.inl rfl), htlsOk]
  dsimp only
  rw [hentry]
  rfl

theorem taskExec_program : ∃ built a, programWorld.taskExec 1 4096 0 0 (callerWith 0) = .done built a := by
  obtain ⟨s, hload⟩ := elfLoadFile_program
  have hprepare : (programWorld.prepare 4096 0 0 (callerWith 0).buffers).toOption.map
      (fun l => (l.path, l.kargv.map Prod.snd, l.kenvp.map Prod.snd)) = some ([47, 97], [], []) := by
    decide +kernel
  obtain ⟨l, hl, hfacts⟩ := Option.map_eq_some_iff.1 hprepare
  have hl' := ok_of_toOption hl
  obtain ⟨hpath, hstrings⟩ := Prod.mk.inj hfacts
  obtain ⟨hargs, henvs⟩ := Prod.mk.inj hstrings
  have hattempt : programWorld.attempt 4096 0 0 (callerWith 0) = .ok ⟨l, {}, 1, newSpace (callerWith 0).space 1 2⟩ := by
    rw [attempt, hl']
    rfl
  obtain ⟨s', hstack⟩ := stackPages_supplied (m := programWorld.machine) (fun _ => rfl) 32 (stackBase / 4096) s
  rw [taskExec, hattempt]
  dsimp only
  rw [hpath, show programWorld.machine = Elf.machineOf programFile from rfl, hload]
  dsimp only
  rw [if_neg (by decide), enter]
  have hfiles : ((callerWith 0).files.taskExec programWorld.driver programWorld.cur true 0).isSome = true := by
    decide +kernel
  obtain ⟨files, hfiles⟩ := Option.isSome_iff_exists.1 hfiles
  rw [hfiles]
  dsimp only
  rw [hstack]
  dsimp only
  rw [hargs, henvs]
  have hnone : Fits [] := ⟨by decide, by decide⟩
  obtain ⟨b, hb⟩ := buildStack_room ⟨fun a => (s'.byte a).getD 0, UInt64.ofNat 0x200000000, {}, programWorld.uid,
    s'.task.euid, programWorld.gid, s'.task.egid, programWorld.ticks⟩ hnone hnone
  rw [hb]
  exact ⟨_, _, rfl⟩

theorem taskExec_done_program : ∃ built a, programWorld.taskExec 1 4096 0 0 (callerWith 0) = .done built a ∧
    ∃ r entry s s', programWorld.attempt 4096 0 0 (callerWith 0) = .ok r ∧
      Elf.elfLoadFile programWorld.machine 1 r.locals.path 0 r.space = .ok (entry, s) ∧
      stackPages programWorld.machine 32 (stackBase / 4096) s = .ok s' ∧
      Exec.taskExec programWorld.user (programWorld.answers entry s') 4096 0 0 = .ok built := by
  obtain ⟨built, a, h⟩ := taskExec_program
  exact ⟨built, a, h, taskExec_done h⟩

end World

end EterOS.Exec
