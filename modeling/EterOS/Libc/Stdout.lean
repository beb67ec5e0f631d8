import EterOS.Text.Vcbprintf
/-!
# Stdout — `userspace/libc/src/stdio.c`

Standard output from the start of a process: what descriptor 1 has received, and what waits in the buffer, which only a full
buffer and `fflush` hand over (`_IOFBF`).  Every `write` transfers everything, and the stream is never read.
-/
namespace EterOS

open List
open Kprintf (Arg)
open Printf (vcbprintf)

structure Stdout where
  received : List UInt8 := []
  buf : List UInt8 := []
  deriving DecidableEq

namespace Stdout

def BUFSIZ : Nat := 65536

def fflush (s : Stdout) : Stdout := if 0 < s.buf.length then ⟨s.received ++ s.buf, []⟩ else s

def stdioPutc (c : UInt8) (s : Stdout) : Stdout :=
  let s := if BUFSIZ ≤ s.buf.length then s.fflush else s
  let s := { s with buf := s.buf ++ [c] }
  if BUFSIZ ≤ s.buf.length then s.fflush else s

def fdPutc (c : UInt8) (s : Stdout) : Stdout := { s with received := s.received ++ [c] }

/-- The loop of `fwrite`; `fuel` bounds its turns. -/
def fwriteLoop : Nat → List UInt8 → Stdout → Stdout
  | 0, _, s => s
  | fuel + 1, p, s =>
    if p = [] then s
    else
      let s := if BUFSIZ ≤ s.buf.length then s.fflush else s
      let chunk := min (BUFSIZ - s.buf.length) p.length
      if s.buf = [] ∧ chunk = BUFSIZ then { s with received := s.received ++ p }
      else fwriteLoop fuel (p.drop chunk) { s with buf := s.buf ++ p.take chunk }

def fwrite (p : List UInt8) (s : Stdout) : Stdout := fwriteLoop p.length p s

inductive Call
  | printf (fmt : List UInt8) (ap : List Arg)
  | vprintf (fmt : List UInt8) (ap : List Arg)
  | fprintf (fmt : List UInt8) (ap : List Arg)
  | puts (str : List UInt8)
  | fputs (str : List UInt8)
  | fputc (c : UInt8)
  | fwrite (p : List UInt8)

/-- `printf` writes each character to descriptor 1; `vprintf` is `vfprintf(stdout)`. -/
def step (s : Stdout) : Call → Option Stdout
  | .printf fmt ap => (vcbprintf fdPutc fmt ap s).map (·.1)
  | .vprintf fmt ap | .fprintf fmt ap => (vcbprintf stdioPutc fmt ap s).map (·.1)
  | .puts str => some (stdioPutc 10 (s.fwrite str))
  | .fputs str => some (s.fwrite str)
  | .fputc c => some (stdioPutc c s)
  | .fwrite p => some (s.fwrite p)

def run : List Call → Stdout → Option Stdout
  | [], s => some s
  | c :: calls, s => (s.step c).bind (run calls)

def Call.text : Call → Option (List UInt8)
  | .printf fmt ap | .vprintf fmt ap | .fprintf fmt ap => (vcbprintf (fun c t => t ++ [c]) fmt ap []).map (·.1)
  | .puts str => some (str ++ [10])
  | .fputs str => some str
  | .fputc c => some [c]
  | .fwrite p => some p

def texts : List Call → Option (List UInt8)
  | [] => some []
  | c :: calls => c.text.bind fun t => (texts calls).map (t ++ ·)

def Call.InTurn (s : Stdout) : Call → Prop
  | .printf fmt ap => (Call.printf fmt ap).text ≠ some [] → s.buf = []
  | _ => True

def InTurn : List Call → Stdout → Prop
  | [], _ => True
  | c :: calls, s => c.InTurn s ∧ ∀ s', s.step c = some s' → InTurn calls s'

/-! ## One call -/

/-- What the stream was given: what has been received and what waits. -/
def given (s : Stdout) : List UInt8 := s.received ++ s.buf

variable {s s' : Stdout}

theorem given_fflush (s : Stdout) : s.fflush.given = s.given := by
  unfold fflush
  split
  · exact append_nil _
  · rfl

theorem received_fflush (s : Stdout) : s.fflush.received = s.given := by
  unfold fflush
  split
  · rfl
  · rename_i h
    rw [given, length_eq_zero_iff.1 (Nat.eq_zero_of_not_pos h), append_nil]

theorem given_room (s : Stdout) : (if BUFSIZ ≤ s.buf.length then s.fflush else s).given = s.given := by
  split
  · exact given_fflush s
  · rfl

theorem length_room (s : Stdout) : (if BUFSIZ ≤ s.buf.length then s.fflush else s).buf.length < BUFSIZ := by
  split
  · rename_i h
    rw [fflush, if_pos (Nat.lt_of_lt_of_le (by decide) h)]
    exact Nat.zero_lt_of_ne_zero (by decide)
  · omega

theorem given_stdioPutc (c : UInt8) (s : Stdout) : (stdioPutc c s).given = s.given ++ [c] := by
  unfold stdioPutc
  dsimp only
  have hroom := given_room s
  generalize (if BUFSIZ ≤ s.buf.length then s.fflush else s) = r at hroom ⊢
  have hput : ({ r with buf := r.buf ++ [c] } : Stdout).given = s.given ++ [c] := by
    rw [← hroom, given, given, append_assoc]
  rw [← hput]
  exact given_room { r with buf := r.buf ++ [c] }

theorem given_fwriteLoop : ∀ (fuel : Nat) (p : List UInt8) (s : Stdout), p.length ≤ fuel →
    (fwriteLoop fuel p s).given = s.given ++ p
  | 0, p, s, h => by
    rw [length_eq_zero_iff.1 (Nat.le_zero.1 h), append_nil]
    rfl
  | fuel + 1, p, s, h => by
    rw [fwriteLoop]
    by_cases hp : p = []
    · rw [if_pos hp, hp, append_nil]
    · rw [if_neg hp]
      dsimp only
      have hroom := given_room s
      have hlt := length_room s
      generalize (if BUFSIZ ≤ s.buf.length then s.fflush else s) = r at hroom hlt ⊢
      rw [← hroom]
      by_cases hdirect : r.buf = [] ∧ min (BUFSIZ - r.buf.length) p.length = BUFSIZ
      · rw [if_pos hdirect, given, given, hdirect.1, append_nil, append_nil]
      · have hpos := length_pos_iff.2 hp
        rw [if_neg hdirect, given_fwriteLoop fuel _ _ (by rw [length_drop]; omega), given, given, append_assoc,
          append_assoc, append_assoc, take_append_drop]

theorem given_fwrite (p : List UInt8) (s : Stdout) : (s.fwrite p).given = s.given ++ p :=
  given_fwriteLoop p.length p s (Nat.le_refl _)

theorem given_foldl : ∀ (t : List UInt8) (s : Stdout), (t.foldl (fun s c => stdioPutc c s) s).given = s.given ++ t
  | [], s => (append_nil _).symm
  | c :: t, s => by rw [foldl_cons, given_foldl t, given_stdioPutc, append_assoc, singleton_append]

theorem foldl_fdPutc : ∀ (t : List UInt8) (s : Stdout),
    t.foldl (fun s c => fdPutc c s) s = { s with received := s.received ++ t }
  | [], s => by rw [append_nil]; rfl
  | c :: t, s => by rw [foldl_cons, foldl_fdPutc t, fdPutc, append_assoc, singleton_append]

theorem foldl_snoc : ∀ (t r : List UInt8), t.foldl (fun r c => r ++ [c]) r = r ++ t
  | [], r => (append_nil r).symm
  | c :: t, r => by rw [foldl_cons, foldl_snoc t, append_assoc, singleton_append]

theorem vcbprintf_text {σ : Type} {out : UInt8 → σ → σ} {fmt : List UInt8} {ap : List Arg} {arg arg' : σ}
    (h : (vcbprintf out fmt ap arg).map (·.1) = some arg') :
    ∃ t, (vcbprintf (fun c t => t ++ [c]) fmt ap []).map (·.1) = some t ∧
      arg' = t.foldl (fun a c => out c a) arg := by
  rcases Printf.vcbprintf_hands fmt ap with hnone | ⟨t, ht⟩
  · rw [hnone] at h
    cases h
  · rw [ht, Option.map_some] at h
    refine ⟨t, ?_, (Option.some.inj h).symm⟩
    rw [ht, Option.map_some, foldl_snoc, nil_append]

/-- **One call**: its text comes behind everything before it, if a `printf` comes in turn. -/
theorem given_step {c : Call} (hturn : c.InTurn s) (h : s.step c = some s') :
    ∃ t, c.text = some t ∧ s'.given = s.given ++ t := by
  cases c with
  | printf fmt ap =>
    obtain ⟨t, ht, rfl⟩ := vcbprintf_text h
    refine ⟨t, ht, ?_⟩
    rw [foldl_fdPutc, given, given]
    by_cases hnil : t = []
    · rw [hnil, append_nil, append_nil]
    · have hbuf : s.buf = [] := hturn fun h => hnil (Option.some.inj (ht.symm.trans h))
      rw [hbuf, append_nil, append_nil]
  | vprintf fmt ap =>
    obtain ⟨t, ht, rfl⟩ := vcbprintf_text h
    exact ⟨t, ht, given_foldl t s⟩
  | fprintf fmt ap =>
    obtain ⟨t, ht, rfl⟩ := vcbprintf_text h
    exact ⟨t, ht, given_foldl t s⟩
  | puts str =>
    cases h
    exact ⟨_, rfl, by rw [given_stdioPutc, given_fwrite, append_assoc]⟩
  | fputs str =>
    cases h
    exact ⟨_, rfl, given_fwrite str s⟩
  | fputc c =>
    cases h
    exact ⟨_, rfl, given_stdioPutc c s⟩
  | fwrite p =>
    cases h
    exact ⟨_, rfl, given_fwrite p s⟩

/-! ## Runs -/

theorem given_run : ∀ (calls : List Call) (s s' : Stdout), InTurn calls s → run calls s = some s' →
    ∃ t, texts calls = some t ∧ s'.given = s.given ++ t
  | [], s, _, _, h => by
    cases h
    exact ⟨[], rfl, (append_nil _).symm⟩
  | c :: calls, s, s', hturn, h => by
    obtain ⟨s1, hstep, hrun⟩ := Option.bind_eq_some_iff.1 h
    obtain ⟨t, ht, hgiven⟩ := given_step hturn.1 hstep
    obtain ⟨ts, hts, hgiven'⟩ := given_run calls s1 s' (hturn.2 s1 hstep) hrun
    exact ⟨t ++ ts, by rw [texts, ht, Option.bind_some, hts, Option.map_some], by rw [hgiven', hgiven, append_assoc]⟩

/-- **Standard output keeps the order of the calls** in every run whose `printf`s come in turn. -/
theorem stdout_order {calls : List Call} {s : Stdout} (hturn : InTurn calls {}) (hrun : run calls {} = some s) :
    texts calls = some s.fflush.received := by
  obtain ⟨t, ht, hgiven⟩ := given_run calls {} s hturn hrun
  rw [ht, received_fflush, hgiven]
  rfl

/-- `printf("%d", 7)`, `puts("a")` and `vprintf("b")`, with nothing waiting when `printf` is called. -/
theorem stdout_order_printf : texts [.printf [37, 100] [.int 7], .puts [97], .vprintf [98] []] = some [55, 97, 10, 98] :=
  stdout_order (s := ⟨[55], [97, 10, 98]⟩) ⟨fun _ => rfl, fun _ _ => ⟨trivial, fun _ _ => ⟨trivial, fun _ _ => trivial⟩⟩⟩
    (by decide +kernel)

/-- `puts("a"); printf("b")`: what `puts` has left in the buffer comes behind. -/
theorem printf_overtakes : texts [.puts [97], .printf [98] []] = some [97, 10, 98] ∧
    (run [.puts [97], .printf [98] []] {}).map (·.fflush.received) = some [98, 97, 10] := by decide +kernel

end Stdout
end EterOS
