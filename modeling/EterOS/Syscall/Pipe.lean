import EterOS.Lib.Bytes
import EterOS.Lib.Ring
import EterOS.Lib.Run
/-!
# Pipe — `pipe_read`, `pipe_write` and `pipe_close` (`kernel/arch/x86_64/syscall.c`)

A call goes round its loop until it has moved all its bytes; each turn of the loop takes the lock once, and gives up the
CPU where it can do nothing.  A turn is one step here, so any number of calls can be halfway through when the next one
moves the indices.  The bytes are logged as they enter and as they leave, with the call that moved them.
-/
namespace EterOS.Syscall

open Function (update update_self update_of_ne)

structure Pipe where
  buffer : Buffer
  size : Nat
  readPtr : Nat
  writePtr : Nat
  bytesAvailable : Nat
  readers : Int
  writers : Int

def pipeSize : Nat := 65536

/-- The pipe `sys_pipe2` makes; the buffer is as `kmalloc` left it. -/
def Pipe.new (buffer : Buffer) : Pipe where
  buffer
  size := pipeSize
  readPtr := 0
  writePtr := 0
  bytesAvailable := 0
  readers := 1
  writers := 1

inductive PipeRet where
  | count (n : Nat)
  | eagain
  | epipe

/-! ## The code -/

/-- `buffer[read++] = pipe->buffer[pipe->read_ptr]; ...`. -/
def Pipe.take (p : Pipe) : Pipe :=
  { p with readPtr := (p.readPtr + 1) % p.size, bytesAvailable := p.bytesAvailable - 1 }

/-- `pipe->buffer[pipe->write_ptr] = buffer[written++]; ...`. -/
def Pipe.put (p : Pipe) (byte : UInt8) : Pipe :=
  { p with
    buffer := update p.buffer p.writePtr byte
    writePtr := (p.writePtr + 1) % p.size
    bytesAvailable := p.bytesAvailable + 1 }

/-- The inner loop of `pipe_read`, for at most `n` bytes: the pipe and the bytes it handed over. -/
def readLoop : Nat → Pipe → Pipe × List UInt8
  | 0, p => (p, [])
  | n + 1, p =>
    if 0 < p.bytesAvailable then
      let (p', bytes) := readLoop n p.take
      (p', p.buffer p.readPtr :: bytes)
    else (p, [])

/-- The inner loop of `pipe_write`, for at most `n` bytes from `buffer[written]` on: the pipe and the new `written`. -/
def writeLoop (buffer : Buffer) : Nat → Nat → Pipe → Pipe × Nat
  | 0, written, p => (p, written)
  | n + 1, written, p =>
    if p.bytesAvailable < p.size then writeLoop buffer n (written + 1) (p.put (buffer written))
    else (p, written)

/-- One turn of the loop of `pipe_read`, or its end: what it hands over, and what it returns if it does. -/
def pipeReadTurn (p : Pipe) (nonblock : Bool) (size read : Nat) : Pipe × List UInt8 × Option PipeRet :=
  if read < size then
    if p.bytesAvailable = 0 then
      if p.writers = 0 then (p, [], some (.count read))
      else if nonblock then
        if 0 < read then (p, [], some (.count read)) else (p, [], some .eagain)
      else (p, [], none)
    else
      let (p', bytes) := readLoop (size - read) p
      (p', bytes, none)
  else (p, [], some (.count read))

/-- One turn of the loop of `pipe_write`, or its end: the new `written`, and what it returns if it does. -/
def pipeWriteTurn (p : Pipe) (nonblock : Bool) (size : Nat) (buffer : Buffer) (written : Nat) :
    Pipe × Nat × Option PipeRet :=
  if written < size then
    if p.bytesAvailable = p.size then
      if p.readers = 0 then (p, written, some .epipe)
      else if nonblock then
        if 0 < written then (p, written, some (.count written)) else (p, written, some .eagain)
      else (p, written, none)
    else
      let (p', written') := writeLoop buffer (size - written) written p
      (p', written', none)
  else (p, written, some (.count written))

/-- `pipe_close` of the read end or the write end; the pipe is freed when nothing is left of it. -/
def pipeClose (p : Pipe) (readEnd : Bool) : Option Pipe :=
  let p' := if readEnd then { p with readers := p.readers - 1 } else { p with writers := p.writers - 1 }
  if p'.readers ≤ 0 ∧ p'.writers ≤ 0 then none else some p'

/-! ## Runs -/

inductive Call where
  | read (size : Nat) (buffer : List UInt8)
  | write (size : Nat) (buffer : Buffer) (written : Nat)

inductive CallState where
  | idle
  | running (call : Call)
  | returned (call : Call) (ret : PipeRet)

/-- The pipe, if it is still there, every call ever made, and the bytes each put in and took out, in order. -/
structure World where
  pipe : Option Pipe
  calls : Nat → CallState
  accepted : List (Nat × UInt8)
  removed : List (Nat × UInt8)

inductive Event where
  | callRead (id size : Nat)
  | callWrite (id size : Nat) (buffer : Buffer)
  | turn (id : Nat) (nonblock : Bool)
  | close (readEnd : Bool)

def callAfter (call : Call) : Option PipeRet → CallState
  | none => .running call
  | some ret => .returned call ret

def bytesFrom (buffer : Buffer) (i j : Nat) : List UInt8 := (List.range' i (j - i)).map buffer

def World.turn (w : World) (p : Pipe) (id : Nat) (nonblock : Bool) : Call → World
  | .read size buffer =>
    let (p', bytes, ret) := pipeReadTurn p nonblock size buffer.length
    { w with
      pipe := some p'
      calls := update w.calls id (callAfter (.read size (buffer ++ bytes)) ret)
      removed := w.removed ++ bytes.map (id, ·) }
  | .write size buffer written =>
    let (p', written', ret) := pipeWriteTurn p nonblock size buffer written
    { w with
      pipe := some p'
      calls := update w.calls id (callAfter (.write size buffer written') ret)
      accepted := w.accepted ++ (bytesFrom buffer written written').map (id, ·) }

def pipeStep (w : World) : Event → World
  | .callRead id size =>
    match w.calls id with
    | .idle => { w with calls := update w.calls id (.running (.read size [])) }
    | _ => w
  | .callWrite id size buffer =>
    match w.calls id with
    | .idle => { w with calls := update w.calls id (.running (.write size buffer 0)) }
    | _ => w
  | .turn id nonblock =>
    match w.pipe, w.calls id with
    | some p, .running call => w.turn p id nonblock call
    | _, _ => w
  | .close readEnd => { w with pipe := w.pipe.bind (pipeClose · readEnd) }

def World.new (buffer : Buffer) : World := ⟨some (.new buffer), fun _ => .idle, [], []⟩

def bytesOf (log : List (Nat × UInt8)) (id : Nat) : List UInt8 := (log.filter (·.1 = id)).map Prod.snd

def Pipe.contents (p : Pipe) : List UInt8 := Ring.contents p.buffer p.size p.readPtr p.bytesAvailable

/-! ## The ring -/

variable {p p' : Pipe} {buffer : Buffer} {nonblock : Bool} {size n : Nat} {w : World}

structure PipeOk (p : Pipe) : Prop where
  readPtr : p.readPtr < p.size
  writePtr : p.writePtr = (p.readPtr + p.bytesAvailable) % p.size
  bytesAvailable : p.bytesAvailable ≤ p.size

theorem PipeOk.new (buffer : Buffer) : PipeOk (.new buffer) := ⟨by simp [Pipe.new, pipeSize], rfl, Nat.zero_le _⟩

theorem PipeOk.take (h : PipeOk p) (ha : 0 < p.bytesAvailable) :
    PipeOk p.take ∧ p.contents = p.buffer p.readPtr :: p.take.contents := by
  have hr := h.readPtr
  have hb := h.bytesAvailable
  refine ⟨⟨Nat.mod_lt _ (by omega), ?_, by simp only [Pipe.take]; omega⟩, ?_⟩
  · simp only [Pipe.take, h.writePtr, Nat.mod_add_mod]
    congr 1
    omega
  · rw [Pipe.contents, Ring.contents_pop ha, Nat.mod_eq_of_lt hr]
    rfl

theorem PipeOk.put (h : PipeOk p) (ha : p.bytesAvailable < p.size) (byte : UInt8) :
    PipeOk (p.put byte) ∧ (p.put byte).contents = p.contents ++ [byte] := by
  refine ⟨⟨h.readPtr, ?_, ha⟩, ?_⟩
  · simp [Pipe.put, h.writePtr, Nat.add_assoc]
  · simp only [Pipe.contents, Pipe.put, h.writePtr]
    exact Ring.contents_push byte ha

theorem PipeOk.distance (h : PipeOk p) :
    (p.bytesAvailable : Int) = ((p.writePtr : Int) - p.readPtr) % p.size ∨ p.bytesAvailable = p.size := by
  by_cases hfull : p.bytesAvailable = p.size
  · exact .inr hfull
  · have hb := h.bytesAvailable
    refine .inl ?_
    rw [h.writePtr, Int.natCast_mod, Int.emod_sub_emod, Int.natCast_add, add_sub_cancel_left,
      Int.emod_eq_of_lt (by omega) (by omega)]

/-! ## One turn -/

theorem readLoop_spec : ∀ (n : Nat) (p : Pipe), PipeOk p →
    PipeOk (readLoop n p).1 ∧ p.contents = (readLoop n p).2 ++ (readLoop n p).1.contents ∧ (readLoop n p).2.length ≤ n
  | 0, p, h => ⟨h, rfl, Nat.le_refl 0⟩
  | n + 1, p, h => by
    rw [readLoop]
    split
    · rename_i ha
      obtain ⟨htake, hcontents⟩ := h.take ha
      obtain ⟨hok, heq, hlen⟩ := readLoop_spec n p.take htake
      exact ⟨hok, by rw [hcontents, heq]; rfl, Nat.succ_le_succ hlen⟩
    · exact ⟨h, rfl, Nat.zero_le _⟩

theorem bytesFrom_self (i : Nat) : bytesFrom buffer i i = [] := by
  simp [bytesFrom]

theorem bytesFrom_cons {i j : Nat} (h : i < j) : bytesFrom buffer i j = buffer i :: bytesFrom buffer (i + 1) j := by
  obtain ⟨k, rfl⟩ : ∃ k, j = i + (k + 1) := ⟨j - i - 1, by omega⟩
  rw [bytesFrom, bytesFrom, Nat.add_sub_cancel_left, List.range'_succ, List.map_cons,
    show i + (k + 1) - (i + 1) = k by omega]

theorem bytesFrom_append {i j k : Nat} (hij : i ≤ j) (hjk : j ≤ k) :
    bytesFrom buffer i j ++ bytesFrom buffer j k = bytesFrom buffer i k := by
  rw [bytesFrom, bytesFrom, bytesFrom, ← List.map_append, show k - i = (j - i) + (k - j) by omega,
    ← List.range'_append_1, show i + (j - i) = j by omega]

theorem writeLoop_spec (buffer : Buffer) : ∀ (n written : Nat) (p : Pipe), PipeOk p →
    PipeOk (writeLoop buffer n written p).1 ∧
    (writeLoop buffer n written p).1.contents = p.contents ++ bytesFrom buffer written (writeLoop buffer n written p).2 ∧
    written ≤ (writeLoop buffer n written p).2 ∧ (writeLoop buffer n written p).2 ≤ written + n
  | 0, written, p, h => ⟨h, by simp [writeLoop, bytesFrom_self], Nat.le_refl _, Nat.le_refl _⟩
  | n + 1, written, p, h => by
    rw [writeLoop]
    split
    · rename_i ha
      obtain ⟨hput, hcontents⟩ := h.put ha (buffer written)
      obtain ⟨hok, heq, hle, hle'⟩ := writeLoop_spec buffer n (written + 1) _ hput
      refine ⟨hok, ?_, by omega, by omega⟩
      rw [heq, hcontents, List.append_assoc, List.singleton_append, ← bytesFrom_cons (by omega)]
    · exact ⟨h, by simp [bytesFrom_self], Nat.le_refl _, by omega⟩

/-- What a turn of `pipe_read` does: it hands over the oldest bytes, and returns only what it has.  It returns 0 for a
positive size only where the ring is empty and no writer is left. -/
structure ReadTurn (p : Pipe) (size read : Nat) (r : Pipe × List UInt8 × Option PipeRet) : Prop where
  ok : PipeOk r.1
  contents : p.contents = r.2.1 ++ r.1.contents
  bound : read ≤ size → read + r.2.1.length ≤ size
  count : ∀ n, r.2.2 = some (.count n) → n = read ∧ r.2.1 = []
  zero : r.2.2 = some (.count 0) → 0 < size → p.bytesAvailable = 0 ∧ p.writers = 0

theorem PipeOk.readTurn (h : PipeOk p) (nonblock : Bool) (size read : Nat) :
    ReadTurn p size read (pipeReadTurn p nonblock size read) := by
  unfold pipeReadTurn
  split
  · rename_i hlt
    split
    · rename_i hempty
      split
      · rename_i hw
        exact ⟨h, rfl, fun hle => hle, fun n hn => (by cases hn; exact ⟨rfl, rfl⟩), fun _ _ => ⟨hempty, hw⟩⟩
      · split
        · split
          · rename_i hpos
            exact ⟨h, rfl, fun hle => hle, fun n hn => (by cases hn; exact ⟨rfl, rfl⟩),
              fun hn => by cases hn; exact absurd hpos (Nat.lt_irrefl 0)⟩
          · exact ⟨h, rfl, fun hle => hle, nofun, nofun⟩
        · exact ⟨h, rfl, fun hle => hle, nofun, nofun⟩
    · obtain ⟨hok, heq, hlen⟩ := readLoop_spec (size - read) p h
      exact ⟨hok, heq, fun _ => by simp only; omega, nofun, nofun⟩
  · rename_i hge
    refine ⟨h, rfl, fun hle => hle, fun n hn => (by cases hn; exact ⟨rfl, rfl⟩), fun hn hpos => ?_⟩
    simp only [Option.some.injEq, PipeRet.count.injEq] at hn
    omega

/-- What a turn of `pipe_write` does: it puts in the next bytes of the buffer, and returns only how many it has put. -/
structure WriteTurn (p : Pipe) (size : Nat) (buffer : Buffer) (written : Nat) (r : Pipe × Nat × Option PipeRet) :
    Prop where
  ok : PipeOk r.1
  contents : r.1.contents = p.contents ++ bytesFrom buffer written r.2.1
  le : written ≤ r.2.1
  bound : written ≤ size → r.2.1 ≤ size
  count : ∀ n, r.2.2 = some (.count n) → n = r.2.1

theorem PipeOk.writeTurn (h : PipeOk p) (nonblock : Bool) (size : Nat) (buffer : Buffer) (written : Nat) :
    WriteTurn p size buffer written (pipeWriteTurn p nonblock size buffer written) := by
  have hstay : p.contents = p.contents ++ bytesFrom buffer written written := by
    rw [bytesFrom_self, List.append_nil]
  unfold pipeWriteTurn
  split
  · split
    · split
      · exact ⟨h, hstay, Nat.le_refl _, fun hle => hle, nofun⟩
      · split
        · split
          · exact ⟨h, hstay, Nat.le_refl _, fun hle => hle, fun n hn => by cases hn; rfl⟩
          · exact ⟨h, hstay, Nat.le_refl _, fun hle => hle, nofun⟩
        · exact ⟨h, hstay, Nat.le_refl _, fun hle => hle, nofun⟩
    · obtain ⟨hok, heq, hle, hle'⟩ := writeLoop_spec buffer (size - written) written p h
      exact ⟨hok, heq, hle, fun _ => by simp only; omega, nofun⟩
  · exact ⟨h, hstay, Nat.le_refl _, fun hle => hle, fun n hn => by cases hn; rfl⟩

/-! ## Logs -/

theorem bytesOf_append (log log' : List (Nat × UInt8)) (id : Nat) :
    bytesOf (log ++ log') id = bytesOf log id ++ bytesOf log' id := by
  simp [bytesOf]

theorem bytesOf_self (bytes : List UInt8) (id : Nat) : bytesOf (bytes.map (id, ·)) id = bytes := by
  simp [bytesOf, List.filter_map, Function.comp_def]

theorem bytesOf_other (bytes : List UInt8) {id id' : Nat} (h : id ≠ id') : bytesOf (bytes.map (id, ·)) id' = [] := by
  simp [bytesOf, List.filter_map, Function.comp_def, h]

theorem map_snd_log (bytes : List UInt8) (id : Nat) : (bytes.map (id, ·)).map Prod.snd = bytes := by
  simp [Function.comp_def]

/-! ## The invariant -/

def Call.accepted : Call → List UInt8
  | .read _ _ => []
  | .write _ buffer written => bytesFrom buffer 0 written

def Call.removed : Call → List UInt8
  | .read _ buffer => buffer
  | .write _ _ _ => []

def Call.moved : Call → Nat
  | .read _ buffer => buffer.length
  | .write _ _ written => written

def Call.asked : Call → Nat
  | .read size _ => size
  | .write size _ _ => size

def CallOk (w : World) (id : Nat) : CallState → Prop
  | .idle => bytesOf w.accepted id = [] ∧ bytesOf w.removed id = []
  | .running call => bytesOf w.accepted id = call.accepted ∧ bytesOf w.removed id = call.removed ∧ call.moved ≤ call.asked
  | .returned call ret => bytesOf w.accepted id = call.accepted ∧ bytesOf w.removed id = call.removed ∧
      call.moved ≤ call.asked ∧ ∀ n, ret = .count n → n = call.moved

structure WorldOk (w : World) : Prop where
  ring : ∀ p, w.pipe = some p → PipeOk p ∧ w.removed.map Prod.snd ++ p.contents = w.accepted.map Prod.snd
  calls : ∀ id, CallOk w id (w.calls id)

theorem WorldOk.new (buffer : Buffer) : WorldOk (.new buffer) where
  ring := fun p hp => by
    obtain rfl := Option.some.inj hp
    exact ⟨.new buffer, rfl⟩
  calls := fun _ => ⟨rfl, rfl⟩

theorem CallOk.congr {w' : World} {id : Nat} {st : CallState} (h : CallOk w id st)
    (ha : bytesOf w'.accepted id = bytesOf w.accepted id) (hr : bytesOf w'.removed id = bytesOf w.removed id) :
    CallOk w' id st := by
  cases st with
  | idle => exact ⟨ha.trans h.1, hr.trans h.2⟩
  | running call => exact ⟨ha.trans h.1, hr.trans h.2.1, h.2.2⟩
  | returned call ret => exact ⟨ha.trans h.1, hr.trans h.2.1, h.2.2⟩

theorem WorldOk.begin (h : WorldOk w) {id : Nat} (hidle : w.calls id = .idle) {call : Call}
    (hcall : call.accepted = [] ∧ call.removed = [] ∧ call.moved ≤ call.asked) :
    WorldOk { w with calls := update w.calls id (.running call) } where
  ring := h.ring
  calls := fun id' => by
    by_cases he : id' = id
    · subst he
      have hid := h.calls id'
      rw [hidle] at hid
      simp only [update_self]
      exact ⟨hid.1.trans hcall.1.symm, hid.2.trans hcall.2.1.symm, hcall.2.2⟩
    · simp only [update_of_ne he]
      exact (h.calls id').congr rfl rfl

theorem callOk_after {id : Nat} {call : Call} {ret : Option PipeRet} (ha : bytesOf w.accepted id = call.accepted)
    (hr : bytesOf w.removed id = call.removed) (hle : call.moved ≤ call.asked)
    (hret : ∀ n, ret = some (.count n) → n = call.moved) : CallOk w id (callAfter call ret) := by
  cases ret with
  | none => exact ⟨ha, hr, hle⟩
  | some ret => exact ⟨ha, hr, hle, fun n hn => hret n (congrArg some hn)⟩

theorem WorldOk.turn (h : WorldOk w) {id : Nat} (hp : w.pipe = some p) {call : Call}
    (hc : w.calls id = .running call) (nonblock : Bool) : WorldOk (w.turn p id nonblock call) := by
  obtain ⟨hok, hfifo⟩ := h.ring p hp
  have hcall := h.calls id
  rw [hc] at hcall
  obtain ⟨hacc, hrem, hle⟩ := hcall
  cases call with
  | read size buffer =>
    have ht := hok.readTurn nonblock size buffer.length
    simp only [World.turn]
    generalize pipeReadTurn p nonblock size buffer.length = r at ht ⊢
    obtain ⟨p', bytes, ret⟩ := r
    refine ⟨fun q hq => ?_, fun id' => ?_⟩
    · obtain rfl := Option.some.inj hq
      refine ⟨ht.ok, ?_⟩
      rw [List.map_append, map_snd_log, List.append_assoc, ← ht.contents, hfifo]
    · by_cases he : id' = id
      · subst he
        simp only [update_self]
        refine callOk_after hacc ?_ ?_ fun n hn => ?_
        · rw [bytesOf_append, bytesOf_self, hrem]
          rfl
        · simpa [Call.moved, Call.asked] using ht.bound hle
        · obtain ⟨rfl, hnil⟩ := ht.count n hn
          simp only at hnil
          simp [Call.moved, hnil]
      · simp only [update_of_ne he]
        refine (h.calls id').congr rfl ?_
        rw [bytesOf_append, bytesOf_other _ (Ne.symm he), List.append_nil]
  | write size buffer written =>
    have ht := hok.writeTurn nonblock size buffer written
    simp only [World.turn]
    generalize pipeWriteTurn p nonblock size buffer written = r at ht ⊢
    obtain ⟨p', written', ret⟩ := r
    refine ⟨fun q hq => ?_, fun id' => ?_⟩
    · obtain rfl := Option.some.inj hq
      refine ⟨ht.ok, ?_⟩
      rw [List.map_append, map_snd_log, ht.contents, ← List.append_assoc, hfifo]
    · by_cases he : id' = id
      · subst he
        simp only [update_self]
        refine callOk_after ?_ hrem (ht.bound hle) ht.count
        rw [bytesOf_append, bytesOf_self, hacc]
        exact bytesFrom_append (Nat.zero_le _) ht.le
      · simp only [update_of_ne he]
        refine (h.calls id').congr ?_ rfl
        rw [bytesOf_append, bytesOf_other _ (Ne.symm he), List.append_nil]

theorem pipeClose_eq {readEnd : Bool} (h : pipeClose p readEnd = some p') :
    ∃ readers writers, p' = { p with readers, writers } := by
  cases readEnd with
  | false =>
    obtain ⟨-, he⟩ := (Option.ite_none_left_eq_some (p := p.readers ≤ 0 ∧ p.writers - 1 ≤ 0)).1 h
    exact ⟨p.readers, p.writers - 1, (Option.some.inj he).symm⟩
  | true =>
    obtain ⟨-, he⟩ := (Option.ite_none_left_eq_some (p := p.readers - 1 ≤ 0 ∧ p.writers ≤ 0)).1 h
    exact ⟨p.readers - 1, p.writers, (Option.some.inj he).symm⟩

theorem WorldOk.close (h : WorldOk w) (readEnd : Bool) : WorldOk { w with pipe := w.pipe.bind (pipeClose · readEnd) } where
  ring := fun q hq => by
    obtain ⟨p, hp, hclose⟩ := Option.bind_eq_some_iff.1 hq
    obtain ⟨hok, hfifo⟩ := h.ring p hp
    obtain ⟨readers, writers, rfl⟩ := pipeClose_eq hclose
    exact ⟨⟨hok.readPtr, hok.writePtr, hok.bytesAvailable⟩, hfifo⟩
  calls := fun id => (h.calls id).congr rfl rfl

theorem WorldOk.step (h : WorldOk w) (e : Event) : WorldOk (pipeStep w e) := by
  cases e with
  | callRead id size =>
    rw [pipeStep]
    split
    · rename_i hidle
      exact h.begin hidle ⟨rfl, rfl, Nat.zero_le _⟩
    · exact h
  | callWrite id size buffer =>
    rw [pipeStep]
    split
    · rename_i hidle
      exact h.begin hidle ⟨bytesFrom_self 0, rfl, Nat.zero_le _⟩
    · exact h
  | turn id nonblock =>
    rw [pipeStep]
    split
    · rename_i p call hp hc
      exact h.turn hp hc nonblock
    · exact h
  | close readEnd => exact h.close readEnd

/-- **The invariant rule**, for every interleaving. -/
theorem run_worldOk (buffer : Buffer) (es : List Event) : WorldOk (es.foldl pipeStep (.new buffer)) := by
  refine Run.states_forall (C := fun _ _ => True) (fun w e h _ => h.step e) es _ (.new buffer) ?_ _
    (Run.foldl_mem_states es _)
  exact Run.guarded_of_forall (fun _ _ => trivial) es _

/-- A read of a positive size returns 0 only at a turn that finds the ring empty and no writer left. -/
theorem WorldOk.eof (h : WorldOk w) {e : Event} {id size : Nat} {buffer : List UInt8}
    (hbefore : w.calls id ≠ .returned (.read size buffer) (.count 0))
    (hafter : (pipeStep w e).calls id = .returned (.read size buffer) (.count 0)) (hsize : 0 < size) :
    ∃ p, w.pipe = some p ∧ p.contents = [] ∧ p.writers = 0 := by
  cases e with
  | callRead id' size' =>
    rw [pipeStep] at hafter
    split at hafter
    · by_cases he : id = id'
      · simp [he] at hafter
      · simp only [update_of_ne he] at hafter
        exact absurd hafter hbefore
    · exact absurd hafter hbefore
  | callWrite id' size' buffer' =>
    rw [pipeStep] at hafter
    split at hafter
    · by_cases he : id = id'
      · simp [he] at hafter
      · simp only [update_of_ne he] at hafter
        exact absurd hafter hbefore
    · exact absurd hafter hbefore
  | turn id' nonblock =>
    rw [pipeStep] at hafter
    split at hafter
    · rename_i p call hp hc
      refine ⟨p, hp, ?_⟩
      obtain ⟨hok, -⟩ := h.ring p hp
      cases call with
      | read size' buffer' =>
        have ht := hok.readTurn nonblock size' buffer'.length
        simp only [World.turn] at hafter
        generalize pipeReadTurn p nonblock size' buffer'.length = r at ht hafter
        obtain ⟨p', bytes, ret⟩ := r
        by_cases he : id = id'
        · subst he
          simp only [update_self] at hafter
          cases ret with
          | none => cases hafter
          | some ret =>
            cases hafter
            obtain ⟨hempty, hw⟩ := ht.zero rfl hsize
            exact ⟨by rw [Pipe.contents, hempty, Ring.contents_zero], hw⟩
        · simp only [update_of_ne he] at hafter
          exact absurd hafter hbefore
      | write size' buffer' written =>
        simp only [World.turn] at hafter
        by_cases he : id = id'
        · subst he
          simp only [update_self] at hafter
          generalize pipeWriteTurn p nonblock size' buffer' written = r at hafter
          obtain ⟨p', written', ret⟩ := r
          cases ret <;> cases hafter
        · simp only [update_of_ne he] at hafter
          exact absurd hafter hbefore
    · exact absurd hafter hbefore
  | close readEnd => exact absurd hafter hbefore

structure Fifo (w : World) : Prop where
  /-- Nothing is lost, doubled or reordered; the indices tell how much is in the ring, which is never too much. -/
  ring : ∀ p, w.pipe = some p →
    w.removed.map Prod.snd ++ p.contents = w.accepted.map Prod.snd ∧
    ((p.bytesAvailable : Int) = ((p.writePtr : Int) - p.readPtr) % p.size ∨ p.bytesAvailable = p.size) ∧
    p.bytesAvailable ≤ p.size
  /-- A write that returned a count put in exactly that many bytes of its buffer, from the first on. -/
  write : ∀ id size buffer written n, w.calls id = .returned (.write size buffer written) (.count n) →
    n ≤ size ∧ bytesOf w.accepted id = bytesFrom buffer 0 n
  /-- A read that returned a count has that many bytes in its buffer, those it took out. -/
  read : ∀ id size buffer n, w.calls id = .returned (.read size buffer) (.count n) →
    n ≤ size ∧ buffer.length = n ∧ bytesOf w.removed id = buffer
  /-- A read of a positive size returns 0 only where the ring is empty and there is no writer. -/
  eof : ∀ e id size buffer, w.calls id ≠ .returned (.read size buffer) (.count 0) →
    (pipeStep w e).calls id = .returned (.read size buffer) (.count 0) → 0 < size →
    ∃ p, w.pipe = some p ∧ p.contents = [] ∧ p.writers = 0

theorem WorldOk.fifo (h : WorldOk w) : Fifo w := by
  constructor
  case ring =>
    intro p hp
    obtain ⟨hok, hfifo⟩ := h.ring p hp
    exact ⟨hfifo, hok.distance, hok.bytesAvailable⟩
  case write =>
    intro id size buffer written n hc
    have hcall := h.calls id
    rw [hc] at hcall
    obtain ⟨hacc, -, hle, hn⟩ := hcall
    obtain rfl := hn n rfl
    exact ⟨hle, hacc⟩
  case read =>
    intro id size buffer n hc
    have hcall := h.calls id
    rw [hc] at hcall
    obtain ⟨-, hrem, hle, hn⟩ := hcall
    obtain rfl := hn n rfl
    exact ⟨hle, rfl, hrem⟩
  case eof =>
    intro e id size buffer hbefore hafter hsize
    exact h.eof hbefore hafter hsize

/-- **Pipes are FIFO**, after every interleaving of any calls. -/
theorem pipe_fifo (buffer : Buffer) (es : List Event) : Fifo (es.foldl pipeStep (.new buffer)) :=
  (run_worldOk buffer es).fifo

end EterOS.Syscall
