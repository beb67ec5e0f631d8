import EterOS.Lib.Overwrite
import EterOS.Lib.Run
import Mathlib.Algebra.Group.Int.Defs
import Mathlib.Algebra.Group.Nat.Defs
/-!
# Stdio — buffered streams over a plain file

`src/userspace/libc/src/stdio.c`, on a stream that `fopen` gave.  The file is its bytes and the offset of its descriptor,
which the kernel keeps in 32 bits; how much of a transfer a system call makes is `Transfers`.  `Plain` is the same file
without a buffer: its bytes, one position, and what was pushed back before it.
-/
namespace EterOS.Libc

open List

def BUFSIZ : Nat := 65536

inductive BufMode where
  | none
  | line
  | full
  deriving DecidableEq

/-- How much the `n`-th system call transfers: all it can, or so many bytes at most but one at least.  Reads into the buffer,
reads past it, and writes. -/
structure Transfers where
  fill : Nat → Option Nat
  direct : Nat → Option Nat
  write : Nat → Option Nat

def Transfers.Whole (T : Transfers) : Prop := ∀ t, T.direct t = none ∧ T.write t = none

/-- `FILE`, with the file behind its descriptor and the number of transfers made. -/
structure Stream where
  content : List UInt8
  offset : Nat
  tick : Nat
  error : Bool
  eof : Bool
  buf : List UInt8
  bufSize : Nat
  bufPos : Nat
  mode : BufMode
  bufReadLen : Nat

namespace Stream

def transfer (k : Option Nat) (xs : List UInt8) : List UInt8 :=
  match k with
  | none => xs
  | some k => xs.take (max 1 k)

def read (k : Option Nat) (s : Stream) (n : Nat) : Stream × List UInt8 :=
  let data := transfer k ((s.content.drop s.offset).take n)
  ({ s with offset := (s.offset + data.length) % 2 ^ 32, tick := s.tick + 1 }, data)

def write (k : Option Nat) (s : Stream) (xs : List UInt8) : Stream × Nat :=
  let data := transfer k xs
  ({ s with content := overwrite s.content s.offset data, offset := (s.offset + data.length) % 2 ^ 32, tick := s.tick + 1 },
    data.length)

/-- Where a seek leads; `none` for a bad `whence`. -/
def seekTo (offset length : Nat) (off : Int) (whence : Nat) : Option Int :=
  if whence = 0 then some off
  else if whence = 1 then some (offset + off)
  else if whence = 2 then some (length + off)
  else none

/-- `lseek`: the kernel keeps the low 32 bits and never fails but for a bad `whence`. -/
def lseek (s : Stream) (off : Int) (whence : Nat) : Option Stream :=
  (seekTo s.offset s.content.length off whence).map fun target => { s with offset := (target % 2 ^ 32).toNat }

def fflush (T : Transfers) (s : Stream) : Stream :=
  if 0 < s.bufReadLen then
    let left := s.bufReadLen - s.bufPos
    let s := if 0 < left then { s with offset := (((s.offset : Int) - left) % 2 ^ 32).toNat } else s
    { s with bufPos := 0, bufReadLen := 0 }
  else if 0 < s.bufPos then { (s.write (T.write s.tick) (s.buf.take s.bufPos)).1 with bufPos := 0 }
  else s

def putc (T : Transfers) (s : Stream) (c : UInt8) : Stream :=
  if s.mode = .none then
    let (s', n) := s.write (T.write s.tick) [c]
    if n ≠ 1 then { s' with error := true } else s'
  else
    let s := if s.bufSize ≤ s.bufPos then s.fflush T else s
    let s := { s with buf := overwrite s.buf s.bufPos [c], bufPos := s.bufPos + 1 }
    if s.bufSize ≤ s.bufPos ∨ s.mode = .line ∧ c = 10 then s.fflush T else s

/-- The end of a turn of the loop of `fread`: what is copied out of the buffer. -/
def copyOut (s : Stream) (total : Nat) : Stream × List UInt8 :=
  let chunk := min (s.bufReadLen - s.bufPos) total
  ({ s with bufPos := s.bufPos + chunk }, (s.buf.drop s.bufPos).take chunk)

/-- The loop of `fread`: `total` bytes are still wanted, `acc` are there; `fuel` bounds the turns. -/
def freadLoop (T : Transfers) : Nat → Stream → Nat → List UInt8 → Stream × List UInt8
  | 0, s, _, acc => (s, acc)
  | fuel + 1, s, total, acc =>
    if total = 0 then (s, acc)
    else if s.bufReadLen ≤ s.bufPos then
      let s := { s with bufPos := 0, bufReadLen := 0 }
      if s.bufSize ≤ total then
        let (s, data) := s.read (T.direct s.tick) total
        ({ s with eof := s.eof || data.isEmpty }, acc ++ data)
      else
        let (s, data) := s.read (T.fill s.tick) s.bufSize
        if data = [] then ({ s with eof := true }, acc)
        else
          let (s, out) := copyOut { s with buf := overwrite s.buf 0 data, bufReadLen := data.length } total
          freadLoop T fuel s (total - out.length) (acc ++ out)
    else
      let (s, out) := copyOut s total
      freadLoop T fuel s (total - out.length) (acc ++ out)

/-- `fread`: the bytes; their number divided by `size` is what it returns. -/
def fread (T : Transfers) (s : Stream) (size nmemb : Nat) : Stream × List UInt8 :=
  if size = 0 ∨ nmemb = 0 then (s, [])
  else
    let total := size * nmemb % 2 ^ 64
    let s := if 0 < s.bufPos ∧ s.bufReadLen = 0 then s.fflush T else s
    if s.mode = .none then
      let (s, data) := s.read (T.direct s.tick) total
      ({ s with eof := s.eof || data.isEmpty }, data)
    else freadLoop T (total + 1) s total []

/-- The loop of `fwrite`, with the bytes written so far; `fuel` bounds the turns. -/
def fwriteLoop (T : Transfers) : Nat → Stream → List UInt8 → Nat → Stream × Nat
  | 0, s, _, written => (s, written)
  | fuel + 1, s, xs, written =>
    if xs = [] then (s, written)
    else
      let s := if s.bufSize ≤ s.bufPos then s.fflush T else s
      let chunk := min (s.bufSize - s.bufPos) xs.length
      if s.bufPos = 0 ∧ chunk = s.bufSize then
        let (s, n) := s.write (T.write s.tick) xs
        (s, written + n)
      else
        let s := { s with buf := overwrite s.buf s.bufPos (xs.take chunk), bufPos := s.bufPos + chunk }
        let s := if s.mode = .line ∧ 10 ∈ xs.take chunk then s.fflush T else s
        fwriteLoop T fuel s (xs.drop chunk) (written + chunk)

/-- `fwrite`, and the bytes it wrote; their number divided by `size` is what it returns. -/
def fwrite (T : Transfers) (s : Stream) (xs : List UInt8) : Stream × Nat :=
  if xs = [] then (s, 0)
  else
    let s := if 0 < s.bufReadLen then s.fflush T else s
    if s.mode = .none then s.write (T.write s.tick) xs
    else fwriteLoop T (xs.length + 1) s xs 0

def fputc (T : Transfers) (s : Stream) (c : UInt8) : Stream × Option UInt8 :=
  let s := s.putc T c
  (s, if s.error then none else some c)

def fputs (T : Transfers) (s : Stream) (xs : List UInt8) : Stream × Bool :=
  let (s, n) := s.fwrite T xs
  (s, n == xs.length)

def fseek (T : Transfers) (s : Stream) (off : Int) (whence : Nat) : Stream × Bool :=
  match (s.fflush T).lseek off whence with
  | none => ({ s.fflush T with error := true }, false)
  | some s => ({ s with eof := false }, true)

def ftell (s : Stream) : Nat := s.offset

def rewind (T : Transfers) (s : Stream) : Stream := (s.fseek T 0 0).1

def fgetc (T : Transfers) (s : Stream) : Stream × Option UInt8 :=
  let (s, data) := s.fread T 1 1
  (s, data.head?)

/-- `ungetc`: the seek back does not fail, wherever it leads. -/
def ungetc (s : Stream) (c : Option UInt8) : Stream × Option UInt8 :=
  match c with
  | none => (s, none)
  | some c =>
    if 0 < s.bufReadLen ∧ 0 < s.bufPos then
      ({ s with bufPos := s.bufPos - 1, buf := overwrite s.buf (s.bufPos - 1) [c], eof := false }, some c)
    else ({ s with offset := (((s.offset : Int) - 1) % 2 ^ 32).toNat, eof := false }, some c)

/-- The loop of `fgets`, for so many more characters. -/
def fgetsLoop (T : Transfers) : Nat → Stream → List UInt8 → Stream × Option (List UInt8)
  | 0, s, acc => (s, some acc)
  | n + 1, s, acc =>
    match s.fgetc T with
    | (s, none) => (s, if acc = [] then none else some acc)
    | (s, some c) => if c = 10 then (s, some (acc ++ [c])) else fgetsLoop T n s (acc ++ [c])

def fgets (T : Transfers) (s : Stream) (size : Int) : Stream × Option (List UInt8) :=
  if size ≤ 0 then (s, none) else fgetsLoop T (size - 1).toNat s []

end Stream

/-! ## The plain file -/

structure Plain where
  content : List UInt8
  pos : Nat
  push : List UInt8

namespace Plain

def ahead (r : Plain) : List UInt8 := r.push ++ r.content.drop (r.pos + r.push.length)

def read (r : Plain) (n : Nat) : Plain × List UInt8 :=
  ({ r with pos := r.pos + (r.ahead.take n).length, push := r.push.drop n }, r.ahead.take n)

def write (r : Plain) (xs : List UInt8) : Plain :=
  { r with content := overwrite r.content r.pos xs, pos := r.pos + xs.length }

def settle (r : Plain) : Plain := { r with push := [] }

def seek (r : Plain) (off : Int) (whence : Nat) : Plain × Bool :=
  match Stream.seekTo r.pos r.content.length off whence with
  | none => (r.settle, false)
  | some target => if target < 0 then (r.settle, false) else ({ r.settle with pos := target.toNat }, true)

def unget (r : Plain) (c : Option UInt8) : Plain × Option UInt8 :=
  match c with
  | none => (r, none)
  | some c => if r.pos = 0 then (r, none) else ({ r with pos := r.pos - 1, push := c :: r.push }, some c)

def getsLoop : Nat → Plain → List UInt8 → Plain × Option (List UInt8)
  | 0, r, acc => (r, some acc)
  | n + 1, r, acc =>
    match r.read 1 with
    | (r, []) => (r, if acc = [] then none else some acc)
    | (r, c :: _) => if c = 10 then (r, some (acc ++ [c])) else getsLoop n r (acc ++ [c])

def gets (r : Plain) (size : Int) : Plain × Option (List UInt8) :=
  if size ≤ 0 then (r, none) else getsLoop (size - 1).toNat r []

end Plain

/-! ## Reading -/

namespace Stream

variable {T : Transfers} {s s' s'' : Stream} {n : Nat} {out : List UInt8}

structure Good (s : Stream) : Prop where
  full : s.mode = .full
  size : 0 < s.bufSize
  buf : s.buf.length = s.bufSize
  content_lt : s.content.length < 2 ^ 32
  offset_lt : s.offset < 2 ^ 32

structure Reading (s : Stream) : Prop extends Good s where
  pos_le : s.bufPos ≤ s.bufReadLen
  len_le : s.bufReadLen ≤ s.bufSize
  offset_le : s.bufReadLen ≤ s.offset

def ahead (s : Stream) : List UInt8 := (s.buf.drop s.bufPos).take (s.bufReadLen - s.bufPos) ++ s.content.drop s.offset

def position (s : Stream) : Nat := s.offset - (s.bufReadLen - s.bufPos)

structure Reads (s s' : Stream) (n : Nat) (out : List UInt8) : Prop where
  reading : Reading s'
  content : s'.content = s.content
  given : out = s.ahead.take n
  rest : s'.ahead = s.ahead.drop n
  moved : s'.position = s.position + out.length

theorem Reads.trans {m : Nat} {out' : List UInt8} (h : Reads s s' n out) (h' : Reads s' s'' m out') :
    Reads s s'' (n + m) (out ++ out') := by
  refine ⟨h'.reading, h'.content.trans h.content, ?_, ?_, ?_⟩
  · rw [take_add, h'.given, h.rest, ← h.given]
  · rw [h'.rest, h.rest, drop_drop]
  · rw [h'.moved, h.moved, length_append, Nat.add_assoc]

theorem transfer_prefix (k : Option Nat) (xs : List UInt8) : ∃ n, transfer k xs = xs.take n := by
  cases k with
  | none => exact ⟨xs.length, (take_length).symm⟩
  | some k => exact ⟨max 1 k, rfl⟩

theorem transfer_eq_nil {k : Option Nat} {xs : List UInt8} (h : transfer k xs = []) : xs = [] := by
  cases k with
  | none => exact h
  | some k =>
    rcases take_eq_nil_iff.1 h with h0 | hnil
    · omega
    · exact hnil

theorem Reading.copyOut (h : Reading s) : Reads s (s.copyOut n).1 (s.copyOut n).2.length (s.copyOut n).2 ∧
    (s.copyOut n).2.length = min (s.bufReadLen - s.bufPos) n := by
  obtain ⟨hgood, hpos, hlen, hoff⟩ := h
  have hbuf := hgood.buf
  have hcount : ((s.buf.drop s.bufPos).take (min (s.bufReadLen - s.bufPos) n)).length = min (s.bufReadLen - s.bufPos) n := by
    rw [length_take, length_drop]
    omega
  unfold Stream.copyOut
  dsimp only
  refine ⟨⟨⟨⟨hgood.full, hgood.size, hgood.buf, hgood.content_lt, hgood.offset_lt⟩, ?_, hlen, hoff⟩, rfl, ?_, ?_, ?_⟩,
    hcount⟩
  · dsimp only
    omega
  · rw [hcount]
    unfold Stream.ahead
    rw [take_append_of_le_length, take_take]
    · congr 1
      omega
    · rw [length_take, length_drop]
      omega
  · rw [hcount]
    unfold Stream.ahead
    rw [drop_append_of_le_length, drop_take, drop_drop]
    · dsimp only
      rw [Nat.sub_sub]
    · rw [length_take, length_drop]
      omega
  · rw [hcount]
    unfold Stream.position
    dsimp only
    omega

theorem ahead_empty (h : s.bufReadLen ≤ s.bufPos) : s.ahead = s.content.drop s.offset := by
  unfold Stream.ahead
  rw [Nat.sub_eq_zero_of_le h, take_zero, nil_append]

theorem Good.offset_read (h : Good s) {m : Nat} :
    (s.offset + ((s.content.drop s.offset).take m).length) % 2 ^ 32 =
    s.offset + ((s.content.drop s.offset).take m).length := by
  have hoff := h.offset_lt
  have hlen := h.content_lt
  apply Nat.mod_eq_of_lt
  rw [length_take, length_drop]
  omega

theorem Reading.direct (h : Reading s) (hempty : s.bufReadLen ≤ s.bufPos) (n t : Nat) (e : Bool) : Reads s { s with
      bufPos := 0
      bufReadLen := 0
      offset := (s.offset + ((s.content.drop s.offset).take n).length) % 2 ^ 32
      tick := t
      eof := e } n ((s.content.drop s.offset).take n) := by
  have hoff := h.toGood.offset_read (m := n)
  have hlt : s.offset + ((s.content.drop s.offset).take n).length < 2 ^ 32 := by
    rw [← hoff]
    exact Nat.mod_lt _ (by decide)
  refine ⟨⟨⟨h.full, h.size, h.buf, h.content_lt, ?_⟩, Nat.le_refl _, Nat.zero_le _, Nat.zero_le _⟩, rfl, ?_, ?_, ?_⟩
  · dsimp only
    rw [hoff]
    exact hlt
  · rw [ahead_empty hempty]
  · rw [ahead_empty (Nat.le_refl _), ahead_empty hempty]
    dsimp only
    rw [hoff, ← drop_drop]
    by_cases hn : n ≤ (s.content.drop s.offset).length
    · rw [length_take, Nat.min_eq_left hn]
    · rw [length_take, Nat.min_eq_right (by omega), drop_length, drop_eq_nil_of_le (by omega)]
  · unfold Stream.position
    dsimp only
    rw [hoff]
    omega

theorem Reading.refill (h : Reading s) (hempty : s.bufReadLen ≤ s.bufPos) (k : Option Nat) {data : List UInt8}
    (hdata : data = transfer k ((s.content.drop s.offset).take s.bufSize)) (t : Nat) :
    Reads s { s with
      bufPos := 0
      buf := overwrite s.buf 0 data
      bufReadLen := data.length
      offset := (s.offset + data.length) % 2 ^ 32
      tick := t } 0 [] := by
  obtain ⟨m, hm⟩ := transfer_prefix k ((s.content.drop s.offset).take s.bufSize)
  rw [take_take] at hm
  rw [hm] at hdata
  have hoff := h.toGood.offset_read (m := min m s.bufSize)
  rw [← hdata] at hoff
  have hfits : data.length ≤ s.bufSize := by
    rw [hdata, length_take]
    omega
  have hpad : 0 ≤ s.buf.length := Nat.zero_le _
  have hbuf := h.buf
  have hlt : s.offset + data.length < 2 ^ 32 := by
    rw [← hoff]
    exact Nat.mod_lt _ (by decide)
  refine ⟨⟨⟨h.full, h.size, ?_, h.content_lt, ?_⟩, Nat.zero_le _, hfits, ?_⟩, rfl, rfl, ?_, ?_⟩
  · dsimp only
    rw [length_overwrite (by omega)]
    exact hbuf
  · dsimp only
    rw [hoff]
    exact hlt
  · dsimp only
    rw [hoff]
    omega
  · rw [drop_zero, ahead_empty hempty]
    unfold Stream.ahead
    dsimp only
    have htake : (overwrite s.buf 0 data).take (0 + data.length) = s.buf.take 0 ++ data := take_overwrite hpad
    rw [Nat.zero_add, take_zero, nil_append] at htake
    rw [hoff, drop_zero, Nat.sub_zero, htake, ← drop_drop]
    have hprefix : data = (s.content.drop s.offset).take data.length := by
      rw [hdata, length_take, take_eq_take_iff]
      omega
    calc data ++ (s.content.drop s.offset).drop data.length
        = (s.content.drop s.offset).take data.length ++ (s.content.drop s.offset).drop data.length := by rw [← hprefix]
      _ = s.content.drop s.offset := take_append_drop ..
  · unfold Stream.position
    dsimp only
    rw [hoff]
    rw [length_nil]
    omega

theorem Reading.refl (h : Reading s) : Reads s s 0 [] := ⟨h, rfl, rfl, rfl, rfl⟩

/-- **The loop of `fread`** gives what is ahead, however short the reads into the buffer are. -/
theorem freadLoop_spec (hT : T.Whole) : ∀ (fuel : Nat) (s : Stream) (total : Nat) (acc : List UInt8), Reading s →
    total < fuel →
    ∃ s' out, freadLoop T fuel s total acc = (s', acc ++ out) ∧ Reads s s' total out
  | 0, _, _, _, _, hfuel => absurd hfuel (Nat.not_lt_zero _)
  | fuel + 1, s, total, acc, h, hfuel => by
    unfold freadLoop
    by_cases hzero : total = 0
    · rw [if_pos hzero, hzero]
      exact ⟨s, [], by rw [append_nil], h.refl⟩
    rw [if_neg hzero]
    -- a turn that copies out, from a stream with the same bytes ahead
    have hturn : ∀ s1 : Stream, Reads s s1 0 [] → s1.bufPos < s1.bufReadLen →
        ∃ s' out, freadLoop T fuel (s1.copyOut total).1 (total - (s1.copyOut total).2.length) (acc ++ (s1.copyOut total).2) =
          (s', acc ++ out) ∧ Reads s s' total out := by
      intro s1 h1 hsome
      obtain ⟨hcopy, hlen⟩ := h1.reading.copyOut (n := total)
      obtain ⟨s', out, he, hout⟩ := freadLoop_spec hT fuel (s1.copyOut total).1 (total - (s1.copyOut total).2.length)
        (acc ++ (s1.copyOut total).2) hcopy.reading (by omega)
      refine ⟨s', (s1.copyOut total).2 ++ out, by rw [he, append_assoc], ?_⟩
      have hall := h1.trans (hcopy.trans hout)
      rw [Nat.zero_add, nil_append, Nat.add_sub_cancel' (by omega)] at hall
      exact hall
    by_cases hempty : s.bufReadLen ≤ s.bufPos
    · rw [if_pos hempty]
      dsimp only
      by_cases hlarge : s.bufSize ≤ total
      · rw [if_pos hlarge]
        unfold Stream.read transfer
        rw [(hT _).1]
        exact ⟨_, _, rfl, h.direct hempty total _ _⟩
      rw [if_neg hlarge]
      unfold Stream.read
      dsimp only
      generalize hdata : transfer (T.fill s.tick) ((s.content.drop s.offset).take s.bufSize) = data
      by_cases hnone : data = []
      · rw [if_pos hnone]
        rw [hnone] at hdata ⊢
        have hend : s.content.drop s.offset = [] := by
          have hsize := h.size
          rcases take_eq_nil_iff.1 (transfer_eq_nil hdata) with h0 | hnil
          · omega
          · exact hnil
        have hdirect := h.direct hempty total (s.tick + 1) true
        rw [hend, take_nil] at hdirect
        exact ⟨_, [], by rw [append_nil], hdirect⟩
      · rw [if_neg hnone]
        exact hturn _ (h.refill hempty (T.fill s.tick) hdata.symm (s.tick + 1)) (length_pos_iff.2 hnone)
    · rw [if_neg hempty]
      exact hturn s h.refl (Nat.lt_of_not_le hempty)

/-! ## Writing -/

structure Writing (s : Stream) : Prop extends Good s where
  len_zero : s.bufReadLen = 0
  pos_le : s.bufPos ≤ s.bufSize
  end_lt : s.offset + s.bufPos < 2 ^ 32

def settled (s : Stream) : List UInt8 := overwrite s.content s.offset (s.buf.take s.bufPos)

/-- A write of `xs`, as far as the file and the buffer together go. -/
structure Writes (s s' : Stream) (xs : List UInt8) : Prop where
  writing : Writing s'
  settled : s'.settled = overwrite s.settled (s.offset + s.bufPos) xs
  moved : s'.offset + s'.bufPos = s.offset + s.bufPos + xs.length

variable {xs ys : List UInt8}

theorem Writing.refl (h : Writing s) : Writes s s [] := ⟨h, overwrite_nil.symm, rfl⟩

theorem Writes.trans (h : Writes s s' xs) (h' : Writes s' s'' ys) : Writes s s'' (xs ++ ys) := by
  refine ⟨h'.writing, ?_, ?_⟩
  · rw [h'.settled, h.settled, h.moved, overwrite_append]
  · rw [h'.moved, h.moved, length_append, Nat.add_assoc]

theorem Writing.pending_length (h : Writing s) : (s.buf.take s.bufPos).length = s.bufPos := by
  rw [length_take, h.buf]
  exact Nat.min_eq_left h.pos_le

theorem settled_of_zero (h : s.bufPos = 0) : s.settled = s.content := by
  unfold settled
  rw [h, take_zero, overwrite_nil]

theorem Writing.written (h : Writing s) (xs : List UInt8) (hend : s.offset + s.bufPos + xs.length < 2 ^ 32) (t : Nat) :
    Writes s { s with
      content := overwrite s.content s.offset (s.buf.take s.bufPos ++ xs)
      offset := (s.offset + (s.buf.take s.bufPos ++ xs).length) % 2 ^ 32
      tick := t
      bufPos := 0 } xs := by
  have hlen : (s.buf.take s.bufPos ++ xs).length = s.bufPos + xs.length := by
    rw [length_append, h.pending_length]
  have hmod : (s.offset + (s.buf.take s.bufPos ++ xs).length) % 2 ^ 32 = s.offset + s.bufPos + xs.length := by
    rw [hlen, ← Nat.add_assoc]
    exact Nat.mod_eq_of_lt hend
  have hcontent : (overwrite s.content s.offset (s.buf.take s.bufPos ++ xs)).length < 2 ^ 32 := by
    have hle := @length_overwrite_le _ _ s.content (s.buf.take s.bufPos ++ xs) s.offset
    have hlt := h.content_lt
    rw [hlen] at hle
    omega
  refine ⟨⟨⟨h.full, h.size, h.buf, hcontent, Nat.mod_lt _ (by decide)⟩, h.len_zero, Nat.zero_le _, Nat.mod_lt _ (by decide)⟩,
    ?_, hmod⟩
  rw [settled_of_zero rfl]
  dsimp only
  rw [settled, ← overwrite_append, h.pending_length]

theorem Writing.flush (hT : T.Whole) (h : Writing s) : Writes s (s.fflush T) [] ∧ (s.fflush T).bufPos = 0 := by
  unfold fflush
  rw [if_neg (by rw [h.len_zero]; exact Nat.lt_irrefl 0)]
  by_cases hpos : 0 < s.bufPos
  · rw [if_pos hpos]
    unfold Stream.write transfer
    rw [(hT _).2]
    have hout := h.written [] h.end_lt (s.tick + 1)
    rw [append_nil] at hout
    exact ⟨hout, rfl⟩
  · rw [if_neg hpos]
    exact ⟨h.refl, Nat.eq_zero_of_not_pos hpos⟩

theorem Writing.push (h : Writing s) (xs : List UInt8) (hfits : s.bufPos + xs.length ≤ s.bufSize)
    (hend : s.offset + s.bufPos + xs.length < 2 ^ 32) :
    Writes s { s with buf := overwrite s.buf s.bufPos xs, bufPos := s.bufPos + xs.length } xs := by
  have hbuf := h.buf
  refine ⟨⟨⟨h.full, h.size, ?_, h.content_lt, h.offset_lt⟩, h.len_zero, hfits, ?_⟩, ?_, ?_⟩
  · dsimp only
    rw [length_overwrite (by omega)]
    exact hbuf
  · dsimp only
    omega
  · unfold settled
    dsimp only
    rw [take_overwrite (by omega), ← overwrite_append, h.pending_length]
  · dsimp only
    omega

theorem Writing.room (hT : T.Whole) (h : Writing s) : Writes s (if s.bufSize ≤ s.bufPos then s.fflush T else s) [] ∧
      (if s.bufSize ≤ s.bufPos then s.fflush T else s).bufPos <
      (if s.bufSize ≤ s.bufPos then s.fflush T else s).bufSize := by
  by_cases hfull : s.bufSize ≤ s.bufPos
  · rw [if_pos hfull]
    obtain ⟨hw, hzero⟩ := h.flush hT
    refine ⟨hw, ?_⟩
    rw [hzero]
    exact hw.writing.size
  · rw [if_neg hfull]
    exact ⟨h.refl, Nat.lt_of_not_le hfull⟩

/-- **The loop of `fwrite`** writes all of `xs`. -/
theorem fwriteLoop_spec (hT : T.Whole) : ∀ (fuel : Nat) (s : Stream) (xs : List UInt8) (written : Nat), Writing s →
    s.offset + s.bufPos + xs.length < 2 ^ 32 → xs.length < fuel →
    ∃ s', fwriteLoop T fuel s xs written = (s', written + xs.length) ∧ Writes s s' xs
  | 0, _, _, _, _, _, hfuel => absurd hfuel (Nat.not_lt_zero _)
  | fuel + 1, s, xs, written, h, hend, hfuel => by
    unfold fwriteLoop
    by_cases hnil : xs = []
    · rw [if_pos hnil, hnil]
      exact ⟨s, rfl, h.refl⟩
    rw [if_neg hnil]
    dsimp only
    have hpos : 0 < xs.length := length_pos_iff.2 hnil
    obtain ⟨hroom, hlt⟩ := h.room hT
    generalize (if s.bufSize ≤ s.bufPos then s.fflush T else s) = s1 at hroom hlt ⊢
    have hmoved := hroom.moved
    rw [length_nil, Nat.add_zero] at hmoved
    by_cases hdirect : s1.bufPos = 0 ∧ min (s1.bufSize - s1.bufPos) xs.length = s1.bufSize
    · rw [if_pos hdirect]
      unfold Stream.write transfer
      rw [(hT _).2]
      have hout := hroom.writing.written xs (by omega) (s1.tick + 1)
      rw [hdirect.1, take_zero, nil_append, ← hdirect.1] at hout
      exact ⟨_, rfl, hroom.trans hout⟩
    · rw [if_neg hdirect]
      generalize hchunk : min (s1.bufSize - s1.bufPos) xs.length = chunk
      have hlen : (xs.take chunk).length = chunk := by
        rw [length_take]
        omega
      have hpush := hroom.writing.push (xs.take chunk) (by omega) (by omega)
      have hline : ¬ (s1.mode = .line ∧ 10 ∈ xs.take chunk) := by
        rw [hroom.writing.full]
        simp
      rw [if_neg hline]
      rw [hlen] at hpush
      obtain ⟨s', he, hrest⟩ := fwriteLoop_spec hT fuel _ (xs.drop chunk) (written + chunk) hpush.writing
        (by rw [length_drop]; dsimp only; omega) (by rw [length_drop]; omega)
      refine ⟨s', ?_, ?_⟩
      · rw [he, length_drop]
        congr 1
        omega
      · have hall := hroom.trans (hpush.trans hrest)
        rw [nil_append, take_append_drop] at hall
        exact hall

theorem fwrite_spec (hT : T.Whole) (h : Writing s) (hend : s.offset + s.bufPos + xs.length < 2 ^ 32) :
    Writes s (s.fwrite T xs).1 xs ∧ (s.fwrite T xs).2 = xs.length := by
  unfold fwrite
  by_cases hnil : xs = []
  · rw [if_pos hnil, hnil]
    exact ⟨h.refl, rfl⟩
  have hread : ¬ 0 < s.bufReadLen := by
    rw [h.len_zero]
    exact Nat.lt_irrefl 0
  rw [if_neg hnil, if_neg hread]
  dsimp only
  rw [if_neg (by rw [h.full]; decide)]
  obtain ⟨s', he, hw⟩ := fwriteLoop_spec hT (xs.length + 1) s xs 0 h hend (Nat.lt_succ_self _)
  rw [he, Nat.zero_add]
  exact ⟨hw, rfl⟩

theorem putc_spec (hT : T.Whole) (h : Writing s) (c : UInt8) (hend : s.offset + s.bufPos + 1 < 2 ^ 32) :
    Writes s (s.putc T c) [c] := by
  unfold putc
  rw [if_neg (by rw [h.full]; decide)]
  dsimp only
  obtain ⟨hroom, hlt⟩ := h.room hT
  generalize (if s.bufSize ≤ s.bufPos then s.fflush T else s) = s1 at hroom hlt ⊢
  have hmoved := hroom.moved
  rw [length_nil, Nat.add_zero] at hmoved
  have hpush := hroom.trans (hroom.writing.push [c] hlt (by rw [length_singleton]; omega))
  rw [nil_append, length_singleton] at hpush
  by_cases hfull : s1.bufSize ≤ s1.bufPos + 1 ∨ s1.mode = .line ∧ c = 10
  · rw [if_pos hfull]
    have hall := hpush.trans (hpush.writing.flush hT).1
    rw [append_nil] at hall
    exact hall
  · rw [if_neg hfull]
    exact hpush

theorem fflush_error : (s.fflush T).error = s.error := by
  unfold fflush
  by_cases hlen : 0 < s.bufReadLen
  · rw [if_pos hlen]
    dsimp only
    split <;> rfl
  · rw [if_neg hlen]
    split <;> rfl

/-- Into a buffer, `fputc` sets no error; it gives the byte back where there was none before. -/
theorem fputc_byte (h : Good s) (c : UInt8) (herr : s.error = false) : (s.fputc T c).2 = some c := by
  have hputc : (s.putc T c).error = s.error := by
    unfold putc
    rw [if_neg (by rw [h.full]; decide)]
    by_cases hfull : s.bufSize ≤ s.bufPos
    · rw [if_pos hfull]
      dsimp only
      split
      · rw [fflush_error]
        exact fflush_error
      · exact fflush_error
    · rw [if_neg hfull]
      dsimp only
      split
      · exact fflush_error
      · rfl
  unfold fputc
  dsimp only
  rw [hputc, herr]
  rfl

end Stream

end EterOS.Libc
