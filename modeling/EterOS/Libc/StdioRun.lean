import EterOS.Libc.Stdio
/-!
# StdioRun — a stream and the plain file behind it, call by call

Between two calls a stream is idle, read or written; `Agree` says for each what its buffer and its file are to the plain
file.
-/
namespace EterOS.Libc

open List

/-- What the stream was last used for, since an `fflush`, `fseek` or `rewind`. -/
inductive Dir where
  | idle
  | reading
  | writing
  deriving DecidableEq

inductive StdioOp where
  | fread (size nmemb : Nat)
  | fwrite (xs : List UInt8)
  | fgetc
  | fputc (c : UInt8)
  | ungetc (c : Option UInt8)
  | fgets (size : Int)
  | fputs (xs : List UInt8)
  | fseek (off : Int) (whence : Nat)
  | ftell
  | rewind
  | fflush

inductive StdioOut where
  | unit
  | bytes (xs : List UInt8)
  | byte (c : Option UInt8)
  | line (l : Option (List UInt8))
  | count (n : Nat)
  | done (ok : Bool)
  | pos (n : Nat)
  deriving DecidableEq

namespace StdioOp

def needs : StdioOp → Option Dir
  | .fread .. | .fgetc | .ungetc _ | .fgets _ => some .reading
  | .fwrite _ | .fputc _ | .fputs _ => some .writing
  | .fseek .. | .rewind | .fflush => some .idle
  | .ftell => none

end StdioOp

def Stream.exec (T : Transfers) (s : Stream) : StdioOp → Stream × StdioOut
  | .fread size nmemb => ((s.fread T size nmemb).1, .bytes (s.fread T size nmemb).2)
  | .fwrite xs => ((s.fwrite T xs).1, .count (s.fwrite T xs).2)
  | .fgetc => ((s.fgetc T).1, .byte (s.fgetc T).2)
  | .fputc c => ((s.fputc T c).1, .byte (s.fputc T c).2)
  | .ungetc c => ((s.ungetc c).1, .byte (s.ungetc c).2)
  | .fgets size => ((s.fgets T size).1, .line (s.fgets T size).2)
  | .fputs xs => ((s.fputs T xs).1, .done (s.fputs T xs).2)
  | .fseek off whence => ((s.fseek T off whence).1, .done (s.fseek T off whence).2)
  | .ftell => (s, .pos s.ftell)
  | .rewind => (s.rewind T, .unit)
  | .fflush => (s.fflush T, .unit)

def Plain.exec (r : Plain) : StdioOp → Plain × StdioOut
  | .fread size nmemb => ((r.read (size * nmemb)).1, .bytes (r.read (size * nmemb)).2)
  | .fwrite xs => (r.write xs, .count xs.length)
  | .fgetc => ((r.read 1).1, .byte (r.read 1).2.head?)
  | .fputc c => (r.write [c], .byte (some c))
  | .ungetc c => ((r.unget c).1, .byte (r.unget c).2)
  | .fgets size => ((r.gets size).1, .line (r.gets size).2)
  | .fputs xs => (r.write xs, .done true)
  | .fseek off whence => ((r.seek off whence).1, .done (r.seek off whence).2)
  | .ftell => (r, .pos r.pos)
  | .rewind => ((r.seek 0 0).1, .unit)
  | .fflush => (r.settle, .unit)

structure Session where
  stream : Stream
  plain : Plain
  dir : Dir

namespace Session

/-- `fopen` for reading and writing, without truncation and without append; `buf` is what `malloc` gave. -/
def fopen (content buf : List UInt8) : Session where
  stream := {
    content := content
    offset := 0
    tick := 0
    error := false
    eof := false
    buf := buf
    bufSize := BUFSIZ
    bufPos := 0
    mode := .full
    bufReadLen := 0 }
  plain := ⟨content, 0, []⟩
  dir := .idle

def step (T : Transfers) (c : Session) (op : StdioOp) : Session where
  stream := (c.stream.exec T op).1
  plain := (c.plain.exec op).1
  dir := op.needs.getD c.dir

/-- Between a read and a write the stream is flushed or positioned. -/
def Ordered (c : Session) (op : StdioOp) : Prop :=
  (op.needs = some .reading → c.dir ≠ .writing) ∧ (op.needs = some .writing → c.dir ≠ .reading)

def Same (T : Transfers) (c : Session) (op : StdioOp) : Prop := (c.stream.exec T op).2 = (c.plain.exec op).2

def Closes (T : Transfers) (c : Session) : Prop := (c.stream.fflush T).content = c.plain.content

/-- The calls that do what they should: the position is told with an empty buffer only, a character goes back to where it was
taken from in the buffer (or is the one of the file), the file stays within 32 bits, and no `fputc` finds the error flag
set. -/
def Sound (c : Session) : StdioOp → Prop
  | .fread size nmemb => size * nmemb < 2 ^ 64
  | .fwrite xs | .fputs xs => c.plain.pos + xs.length < 2 ^ 32
  | .fputc _ => c.plain.pos + 1 < 2 ^ 32 ∧ c.stream.error = false
  | .ungetc (some b) => 0 < c.stream.bufReadLen ∧ 0 < c.stream.bufPos ∨
      c.stream.bufReadLen = 0 ∧ 0 < c.stream.offset ∧ c.stream.content[c.stream.offset - 1]? = some b
  | .fseek off whence => ∀ target, Stream.seekTo c.plain.pos c.plain.content.length off whence = some target →
      0 ≤ target ∧ target < 2 ^ 32
  | .ftell => c.stream.bufPos = c.stream.bufReadLen
  | _ => True

end Session

/-! ## The stream against the plain file -/

namespace Plain

variable {r : Plain} {n : Nat}

theorem ahead_read : (r.read n).1.ahead = r.ahead.drop n := by
  unfold read ahead
  dsimp only
  by_cases hn : n ≤ r.push.length
  · rw [drop_append_of_le_length hn, take_append_of_le_length hn, length_take, length_drop]
    congr 2
    omega
  · have hpush : r.push.drop n = [] := drop_eq_nil_of_le (by omega)
    rw [drop_append, hpush, drop_drop, nil_append, nil_append, length_take, length_append, length_drop, length_nil]
    by_cases hend : n ≤ r.push.length + (r.content.length - (r.pos + r.push.length))
    · rw [Nat.min_eq_left hend]
      congr 1
      omega
    · rw [drop_eq_nil_of_le (by omega), drop_eq_nil_of_le (by omega)]

theorem mk_congr {c c' : List UInt8} {p p' : Nat} (hc : c = c') (hp : p = p') : (⟨c, p, []⟩ : Plain) = ⟨c', p', []⟩ := by
  rw [hc, hp]

theorem ahead_unget (b : UInt8) (h : r.pos ≠ 0) : (r.unget (some b)).1.ahead = b :: r.ahead := by
  unfold unget ahead
  dsimp only
  rw [if_neg h]
  dsimp only
  rw [length_cons, cons_append]
  congr 3
  omega

end Plain

namespace Stream

variable {T : Transfers} {s s' : Stream} {r : Plain} {n : Nat} {out xs : List UInt8}

structure Idle (s : Stream) (r : Plain) : Prop extends Good s where
  bufPos : s.bufPos = 0
  bufReadLen : s.bufReadLen = 0
  plain : r = ⟨s.content, s.offset, []⟩

structure AgreeReading (s : Stream) (r : Plain) : Prop where
  reading : Reading s
  content : r.content = s.content
  pos : r.pos = s.position
  ahead : r.ahead = s.ahead

structure AgreeWriting (s : Stream) (r : Plain) : Prop where
  writing : Writing s
  content : r.content = s.settled
  pos : r.pos = s.offset + s.bufPos
  push : r.push = []

theorem Idle.agreeReading (h : Idle s r) : AgreeReading s r := by
  have hpos := h.bufPos
  have hlen := h.bufReadLen
  refine ⟨⟨h.toGood, ?_, ?_, ?_⟩, ?_, ?_, ?_⟩
  · omega
  · omega
  · omega
  · rw [h.plain]
  · rw [h.plain]
    unfold position
    dsimp only
    omega
  · rw [h.plain, ahead_empty (by omega)]
    simp [Plain.ahead]

theorem Idle.agreeWriting (h : Idle s r) : AgreeWriting s r := by
  have hpos := h.bufPos
  have hlt := h.offset_lt
  refine ⟨⟨h.toGood, h.bufReadLen, ?_, ?_⟩, ?_, ?_, ?_⟩
  · omega
  · omega
  · rw [h.plain, settled_of_zero hpos]
  · rw [h.plain, hpos, Nat.add_zero]
  · rw [h.plain]

/-! ### Reads -/

theorem fread_spec (hT : T.Whole) (h : Reading s) (size nmemb : Nat) (hsize : size * nmemb < 2 ^ 64) :
    Reads s (s.fread T size nmemb).1 (size * nmemb) (s.fread T size nmemb).2 := by
  unfold fread
  by_cases hzero : size = 0 ∨ nmemb = 0
  · have hprod : size * nmemb = 0 := Nat.mul_eq_zero.2 hzero
    rw [if_pos hzero, hprod]
    exact h.refl
  · have hflush : ¬ (0 < s.bufPos ∧ s.bufReadLen = 0) := by
      have hle := h.pos_le
      omega
    rw [if_neg hzero, if_neg hflush, Nat.mod_eq_of_lt hsize]
    dsimp only
    rw [if_neg (by rw [h.full]; decide)]
    obtain ⟨s', out, he, hout⟩ := freadLoop_spec hT (size * nmemb + 1) s (size * nmemb) [] h (Nat.lt_succ_self _)
    rw [he]
    exact hout

theorem AgreeReading.read (h : AgreeReading s r) (hr : Reads s s' n out) :
    AgreeReading s' (r.read n).1 ∧ (r.read n).2 = out := by
  have hout : (r.read n).2 = out := by
    rw [hr.given, ← h.ahead]
    rfl
  refine ⟨⟨hr.reading, ?_, ?_, ?_⟩, hout⟩
  · rw [hr.content, ← h.content]
    rfl
  · rw [hr.moved, ← h.pos, ← hout]
    rfl
  · rw [Plain.ahead_read, hr.rest, h.ahead]

theorem AgreeReading.fgetc (hT : T.Whole) (h : AgreeReading s r) :
    AgreeReading (s.fgetc T).1 (r.read 1).1 ∧ (s.fgetc T).2 = (r.read 1).2.head? := by
  obtain ⟨hagree, hout⟩ := h.read (fread_spec hT h.reading 1 1 (by decide))
  refine ⟨hagree, ?_⟩
  rw [hout]
  rfl

theorem AgreeReading.fgetsLoop (hT : T.Whole) : ∀ (n : Nat) (s : Stream) (r : Plain) (acc : List UInt8), AgreeReading s r →
    AgreeReading (s.fgetsLoop T n acc).1 (r.getsLoop n acc).1 ∧ (s.fgetsLoop T n acc).2 = (r.getsLoop n acc).2
  | 0, s, r, acc, h => ⟨h, rfl⟩
  | n + 1, s, r, acc, h => by
    obtain ⟨hagree, hout⟩ := h.fgetc hT
    unfold Stream.fgetsLoop Plain.getsLoop
    rcases hs : s.fgetc T with ⟨s', c⟩
    rcases hr : r.read 1 with ⟨r', out⟩
    rw [hs, hr] at hagree hout
    dsimp only at hagree hout ⊢
    cases out with
    | nil =>
      rw [List.head?_nil] at hout
      rw [hout]
      exact ⟨hagree, rfl⟩
    | cons b rest =>
      rw [List.head?_cons] at hout
      rw [hout]
      dsimp only
      by_cases hb : b = 10
      · rw [if_pos hb, if_pos hb]
        exact ⟨hagree, rfl⟩
      · rw [if_neg hb, if_neg hb]
        exact AgreeReading.fgetsLoop hT n s' r' (acc ++ [b]) hagree

theorem AgreeReading.fgets (hT : T.Whole) (h : AgreeReading s r) (size : Int) :
    AgreeReading (s.fgets T size).1 (r.gets size).1 ∧ (s.fgets T size).2 = (r.gets size).2 := by
  unfold Stream.fgets Plain.gets
  by_cases hsize : size ≤ 0
  · rw [if_pos hsize, if_pos hsize]
    exact ⟨h, rfl⟩
  · rw [if_neg hsize, if_neg hsize]
    exact AgreeReading.fgetsLoop hT _ s r [] h

theorem AgreeReading.ungetc (h : AgreeReading s r) {b : UInt8} (hb : 0 < s.bufReadLen ∧ 0 < s.bufPos ∨
    s.bufReadLen = 0 ∧ 0 < s.offset ∧ s.content[s.offset - 1]? = some b) :
    AgreeReading (s.ungetc (some b)).1 (r.unget (some b)).1 ∧ (s.ungetc (some b)).2 = (r.unget (some b)).2 := by
  obtain ⟨hreading, hcontent, hpos, hahead⟩ := h
  have hle := hreading.pos_le
  have hsize := hreading.len_le
  have hoff := hreading.offset_le
  have hlt := hreading.offset_lt
  have hbuf := hreading.buf
  have hne : r.pos ≠ 0 := by
    rw [hpos]
    unfold position
    omega
  have hunget : (r.unget (some b)).1.content = r.content ∧ (r.unget (some b)).1.pos = r.pos - 1 ∧
      (r.unget (some b)).2 = some b := by
    unfold Plain.unget
    dsimp only
    rw [if_neg hne]
    exact ⟨rfl, rfl, rfl⟩
  rw [hunget.2.2]
  unfold Stream.ungetc
  dsimp only
  by_cases hin : 0 < s.bufReadLen ∧ 0 < s.bufPos
  · rw [if_pos hin]
    have hlen : s.bufPos - 1 + [b].length ≤ s.buf.length := by
      rw [length_singleton]
      omega
    refine ⟨⟨⟨⟨hreading.full, hreading.size, ?_, hreading.content_lt, hlt⟩, ?_, hsize, hoff⟩, ?_, ?_, ?_⟩, rfl⟩
    · dsimp only
      rw [length_overwrite hlen]
      exact hbuf
    · dsimp only
      omega
    · rw [hunget.1]
      exact hcontent
    · rw [hunget.2.1, hpos]
      unfold position
      dsimp only
      omega
    · rw [Plain.ahead_unget b hne, hahead]
      unfold Stream.ahead
      dsimp only
      have hdrop : (overwrite s.buf (s.bufPos - 1) [b]).drop (s.bufPos - 1) = b :: s.buf.drop s.bufPos := by
        rw [overwrite_of_le (by omega), drop_left' (by rw [length_take]; omega), length_singleton, Nat.sub_add_cancel hin.2]
        rfl
      have hcount : s.bufReadLen - (s.bufPos - 1) = s.bufReadLen - s.bufPos + 1 := by omega
      rw [hdrop, hcount, take_succ_cons, cons_append]
  · rw [if_neg hin]
    obtain ⟨hlen, hpos', hget⟩ := hb.resolve_left hin
    have hmod : (((s.offset : Int) - 1) % 2 ^ 32).toNat = s.offset - 1 := by omega
    refine ⟨⟨⟨⟨hreading.full, hreading.size, hbuf, hreading.content_lt, ?_⟩, hle, hsize, ?_⟩, ?_, ?_, ?_⟩, rfl⟩
    · dsimp only
      omega
    · dsimp only
      omega
    · rw [hunget.1]
      exact hcontent
    · rw [hunget.2.1, hpos]
      unfold position
      dsimp only
      omega
    · rw [Plain.ahead_unget b hne, hahead, ahead_empty (by omega), ahead_empty (by dsimp only; omega)]
      dsimp only
      obtain ⟨hbound, hat⟩ := List.getElem?_eq_some_iff.1 hget
      rw [hmod, drop_eq_getElem_cons hbound, hat, Nat.sub_add_cancel hpos']

/-! ### Flushing and positioning -/

theorem AgreeReading.fflush (h : AgreeReading s r) : Idle (s.fflush T) r.settle := by
  obtain ⟨hreading, hcontent, hpos, -⟩ := h
  have hle := hreading.pos_le
  have hoff := hreading.offset_le
  have hlt := hreading.offset_lt
  have hgood := hreading.toGood
  unfold position at hpos
  unfold Stream.fflush Plain.settle
  by_cases hlen : 0 < s.bufReadLen
  · rw [if_pos hlen]
    dsimp only
    by_cases hleft : 0 < s.bufReadLen - s.bufPos
    · rw [if_pos hleft]
      refine ⟨⟨hgood.full, hgood.size, hgood.buf, hgood.content_lt, ?_⟩, rfl, rfl, Plain.mk_congr hcontent ?_⟩
      · dsimp only
        omega
      · dsimp only
        omega
    · rw [if_neg hleft]
      refine ⟨⟨hgood.full, hgood.size, hgood.buf, hgood.content_lt, hlt⟩, rfl, rfl, Plain.mk_congr hcontent ?_⟩
      dsimp only
      omega
  · rw [if_neg hlen, if_neg (by omega)]
    exact ⟨hgood, by omega, by omega, Plain.mk_congr hcontent (by omega)⟩

theorem AgreeWriting.fflush (hT : T.Whole) (h : AgreeWriting s r) : Idle (s.fflush T) r.settle := by
  obtain ⟨hflush, hzero⟩ := h.writing.flush hT
  refine ⟨hflush.writing.toGood, hzero, hflush.writing.len_zero, Plain.mk_congr ?_ ?_⟩
  · rw [h.content, ← settled_of_zero hzero, hflush.settled, overwrite_nil]
  · have hmoved := hflush.moved
    rw [hzero, length_nil, Nat.add_zero, Nat.add_zero] at hmoved
    rw [h.pos, hmoved]

theorem Idle.fseek (h : Idle (s.fflush T) r.settle) {off : Int} {whence : Nat}
    (hin : ∀ target, seekTo r.pos r.content.length off whence = some target → 0 ≤ target ∧ target < 2 ^ 32) :
    Idle (s.fseek T off whence).1 (r.seek off whence).1 ∧ (s.fseek T off whence).2 = (r.seek off whence).2 := by
  have hplain := h.plain
  unfold Plain.settle at hplain
  injection hplain with hcontent hpos
  unfold Stream.fseek lseek Plain.seek
  rw [← hpos, ← hcontent]
  rcases hto : seekTo r.pos r.content.length off whence with _ | target
  · exact ⟨⟨⟨h.full, h.size, h.buf, h.content_lt, h.offset_lt⟩, h.bufPos, h.bufReadLen, h.plain⟩, rfl⟩
  · obtain ⟨hge, hlt⟩ := hin target hto
    rw [Option.map_some]
    dsimp only
    rw [if_neg (by omega)]
    refine ⟨⟨⟨h.full, h.size, h.buf, ?_, ?_⟩, h.bufPos, h.bufReadLen, Plain.mk_congr rfl ?_⟩, rfl⟩
    · rw [hcontent]
      exact h.content_lt
    · dsimp only
      omega
    · dsimp only
      omega

/-! ### Writes -/

theorem AgreeWriting.write (h : AgreeWriting s r) (hw : Writes s s' xs) : AgreeWriting s' (r.write xs) := by
  refine ⟨hw.writing, ?_, ?_, h.push⟩
  · rw [hw.settled, ← h.content, ← h.pos]
    rfl
  · rw [hw.moved, ← h.pos]
    rfl

end Stream

/-! ## Sessions -/

namespace Session

variable {T : Transfers} {c : Session} {op : StdioOp}

def Agree (c : Session) : Prop :=
  match c.dir with
  | .idle => c.stream.Idle c.plain
  | .reading => c.stream.AgreeReading c.plain
  | .writing => c.stream.AgreeWriting c.plain

theorem Agree.agreeReading (h : c.Agree) (hdir : c.dir ≠ .writing) : c.stream.AgreeReading c.plain := by
  unfold Agree at h
  cases hd : c.dir with
  | idle =>
    rw [hd] at h
    exact h.agreeReading
  | reading =>
    rw [hd] at h
    exact h
  | writing => exact absurd hd hdir

theorem Agree.agreeWriting (h : c.Agree) (hdir : c.dir ≠ .reading) : c.stream.AgreeWriting c.plain := by
  unfold Agree at h
  cases hd : c.dir with
  | idle =>
    rw [hd] at h
    exact h.agreeWriting
  | reading => exact absurd hd hdir
  | writing =>
    rw [hd] at h
    exact h

theorem Agree.fflush (hT : T.Whole) (h : c.Agree) : (c.stream.fflush T).Idle c.plain.settle := by
  by_cases hdir : c.dir = .writing
  · exact (h.agreeWriting (by rw [hdir]; decide)).fflush hT
  · exact (h.agreeReading hdir).fflush

theorem Agree.closes (hT : T.Whole) (h : c.Agree) : c.Closes T := by
  have hplain := (h.fflush hT).plain
  unfold Plain.settle at hplain
  injection hplain with hcontent
  exact hcontent.symm

theorem Agree.ftell (h : c.Agree) (hempty : c.stream.bufPos = c.stream.bufReadLen) : c.stream.ftell = c.plain.pos := by
  unfold Stream.ftell
  by_cases hdir : c.dir = .writing
  · have hw := h.agreeWriting (by rw [hdir]; decide)
    rw [hw.pos, hempty, hw.writing.len_zero, Nat.add_zero]
  · rw [(h.agreeReading hdir).pos, Stream.position, hempty, Nat.sub_self, Nat.sub_zero]

theorem Agree.step (hT : T.Whole) (h : c.Agree) (hord : c.Ordered op) (hsound : c.Sound op) :
    (c.step T op).Agree ∧ c.Same T op := by
  obtain ⟨hread, hwrite⟩ := hord
  cases op with
  | fread size nmemb =>
    have hr := h.agreeReading (hread rfl)
    obtain ⟨hagree, hout⟩ := hr.read (Stream.fread_spec hT hr.reading size nmemb hsound)
    exact ⟨hagree, congrArg StdioOut.bytes hout.symm⟩
  | fwrite xs =>
    have hw := h.agreeWriting (hwrite rfl)
    obtain ⟨hwrites, hcount⟩ := Stream.fwrite_spec hT hw.writing (by rw [← hw.pos]; exact hsound)
    exact ⟨hw.write hwrites, congrArg StdioOut.count hcount⟩
  | fgetc =>
    obtain ⟨hagree, hout⟩ := (h.agreeReading (hread rfl)).fgetc hT
    exact ⟨hagree, congrArg StdioOut.byte hout⟩
  | fputc b =>
    have hw := h.agreeWriting (hwrite rfl)
    obtain ⟨hend, herr⟩ := hsound
    refine ⟨hw.write (Stream.putc_spec hT hw.writing b (by rw [← hw.pos]; exact hend)), ?_⟩
    exact congrArg StdioOut.byte (Stream.fputc_byte hw.writing.toGood b herr)
  | ungetc b =>
    have hr := h.agreeReading (hread rfl)
    cases b with
    | none => exact ⟨hr, rfl⟩
    | some b =>
      obtain ⟨hagree, hout⟩ := hr.ungetc hsound
      exact ⟨hagree, congrArg StdioOut.byte hout⟩
  | fgets size =>
    obtain ⟨hagree, hout⟩ := (h.agreeReading (hread rfl)).fgets hT size
    exact ⟨hagree, congrArg StdioOut.line hout⟩
  | fputs xs =>
    have hw := h.agreeWriting (hwrite rfl)
    obtain ⟨hwrites, hcount⟩ := Stream.fwrite_spec hT hw.writing (by rw [← hw.pos]; exact hsound)
    exact ⟨hw.write hwrites, congrArg StdioOut.done (beq_iff_eq.2 hcount)⟩
  | fseek off whence =>
    obtain ⟨hidle, hout⟩ := (h.fflush hT).fseek hsound
    exact ⟨hidle, congrArg StdioOut.done hout⟩
  | ftell => exact ⟨h, congrArg StdioOut.pos (h.ftell hsound)⟩
  | rewind =>
    have hzero : ∀ target, Stream.seekTo c.plain.pos c.plain.content.length 0 0 = some target → 0 ≤ target ∧
        target < 2 ^ 32 := by
      intro target htarget
      injection htarget with htarget
      omega
    exact ⟨((h.fflush hT).fseek hzero).1, rfl⟩
  | fflush => exact ⟨h.fflush hT, rfl⟩

theorem fopen_agree {content buf : List UInt8} (hcontent : content.length < 2 ^ 32) (hbuf : buf.length = BUFSIZ) :
    (fopen content buf).Agree :=
  ⟨⟨rfl, (by decide : 0 < BUFSIZ), hbuf, hcontent, (by decide : 0 < 2 ^ 32)⟩, rfl, rfl, rfl⟩

/-- **Buffered streams refine the plain file.**  Where no write and no read past the buffer is short, every run of sound
calls returns what the plain file returns, and whenever the stream is closed the file holds what the plain one does. -/
theorem stdio_refines (T : Transfers) (content buf : List UInt8) (ops : List StdioOp) (hT : T.Whole)
    (hcontent : content.length < 2 ^ 32) (hbuf : buf.length = BUFSIZ)
    (hord : Run.Guarded (step T) Ordered (fopen content buf) ops)
    (hsound : Run.Guarded (step T) Sound (fopen content buf) ops) :
    Run.Guarded (step T) (Same T) (fopen content buf) ops ∧ ∀ c ∈ Run.states (step T) (fopen content buf) ops,
    c.Closes T := by
  have hguard := Run.guarded_and hord hsound
  have hstart := fopen_agree hcontent hbuf
  constructor
  · exact Run.guarded_imp (P := Agree) (fun c op h hc => h.step hT hc.1 hc.2) ops _ hstart hguard
  · intro c hc
    exact Agree.closes hT (Run.states_forall (fun c op h hc => (h.step hT hc.1 hc.2).1) ops _ hstart hguard c hc)

/-- Four bytes are written, read back from the start after a short read, and one is put back. -/
theorem stdio_refines_reread :
    let T : Transfers := ⟨fun _ => some 3, fun _ => none, fun _ => none⟩
    let ops : List StdioOp := [.fputs [97, 98, 10], .fputc 99, .rewind, .fgetc, .ungetc (some 120), .fgets 10,
      .fgetc, .ftell]
    let start := fopen [] (List.replicate BUFSIZ 0)
    Run.Guarded (step T) (Same T) start ops ∧ ∀ c ∈ Run.states (step T) start ops, c.Closes T :=
  stdio_refines _ [] (List.replicate BUFSIZ 0) _ (fun _ => ⟨rfl, rfl⟩) (by decide) length_replicate
    (by simp [Run.Guarded, Ordered, StdioOp.needs, step, fopen])
    ⟨(by decide : 0 + 3 < 2 ^ 32), ⟨(by decide : 3 + 1 < 2 ^ 32), rfl⟩, trivial, trivial,
      .inl ⟨(by decide : 0 < 3), (by decide : 0 < 1)⟩, trivial, trivial, (rfl : 1 = 1), trivial⟩

/-- The position is told without a buffered byte, and a short write loses what it left. -/
theorem stdio_differs :
    let start := fopen [] (List.replicate BUFSIZ 0)
    let whole : Transfers := ⟨fun _ => none, fun _ => none, fun _ => none⟩
    let short : Transfers := ⟨fun _ => none, fun _ => none, fun _ => some 1⟩
    let tell : List StdioOp := [.fputc 65, .ftell]
    (Run.Guarded (step whole) Ordered start tell ∧ ¬ Run.Guarded (step whole) (Same whole) start tell) ∧
      Run.Guarded (step short) Ordered start [.fputs [1, 2]] ∧
        ¬ Closes short ([StdioOp.fputs [1, 2]].foldl (step short) start) := by
  intro start whole short tell
  refine ⟨⟨?_, ?_⟩, ?_, ?_⟩
  · simp [Run.Guarded, Ordered, StdioOp.needs, step, start, fopen, tell]
  · intro h
    have hpos : StdioOut.pos 0 = StdioOut.pos 1 := h.2.1
    exact absurd hpos (by decide)
  · simp [Run.Guarded, Ordered, StdioOp.needs, start, fopen]
  · intro h
    have hcontent : ([1] : List UInt8) = [1, 2] := h
    exact absurd hcontent (by decide)

end Session

end EterOS.Libc
