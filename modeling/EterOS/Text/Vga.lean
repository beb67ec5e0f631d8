import Mathlib.Logic.Function.Basic
/-!
# Vga — the terminal in text mode

`src/kernel/drivers/video/vga.c`, before the switch to the framebuffer.  The 25 lines shown are a window on 32 KB of text
memory that slides down a line at a scroll, and is copied back to the front at the end.  A cell is named by its index from
0xB8000, and an access outside the text memory has no result.
-/
namespace EterOS.Vga

open Function (update)

structure Terminal where
  vram : Nat → UInt16
  terminalBuffer : Nat
  vgaBufferOffset : Nat
  /-- What the start address registers hold. -/
  start : Nat
  row : Nat
  col : Nat
  color : UInt8
  silent : Bool

def vgaEntryColor (fg bg : UInt8) : UInt8 := fg ||| bg <<< 4

def vgaEntry (c color : UInt8) : UInt16 := c.toUInt16 ||| color.toUInt16 <<< 8

namespace Terminal

variable (s : Terminal)

def store (i : Nat) (v : UInt16) : Option Terminal := if i < 0x4000 then some { s with vram := update s.vram i v } else none

def memset16 (base : Nat) (v : UInt16) (n : Nat) : Option Terminal :=
  if base + n ≤ 0x4000 then some { s with vram := fun i => if base ≤ i ∧ i < base + n then v else s.vram i } else none

def memmove (dst src n : Nat) : Option Terminal :=
  if dst + n ≤ 0x4000 ∧ src + n ≤ 0x4000 then
    some { s with vram := fun i => if dst ≤ i ∧ i < dst + n then s.vram (src + (i - dst)) else s.vram i }
  else none

/-- The two registers take a byte each. -/
def vgaSetStartAddress (offset : Nat) : Terminal := { s with start := offset / 256 % 256 * 256 + offset % 256 }

def vgaScroll : Option Terminal := do
  let s ←
    if 0x4000 < s.vgaBufferOffset + 2000 + 80 then
      (s.memmove 0 (s.terminalBuffer + 80) (2000 - 80)).map fun s => { s with vgaBufferOffset := 0, terminalBuffer := 0 }
    else
      some { s with vgaBufferOffset := (s.vgaBufferOffset + 80) % 0x10000, terminalBuffer := s.terminalBuffer + 80 }
  let s := s.vgaSetStartAddress s.vgaBufferOffset
  s.memset16 (s.terminalBuffer + (25 - 1) * 80) (vgaEntry 32 s.color) 80

def terminalInitialize : Option Terminal :=
  let s := { s with
    row := 0, col := 0, color := vgaEntryColor 7 0, vgaBufferOffset := 0, terminalBuffer := 0 }.vgaSetStartAddress 0
  s.memset16 s.terminalBuffer (vgaEntry 32 s.color) 2000

def terminalScroll : Option Terminal := s.vgaScroll.map fun s => { s with row := 25 - 1 }

def putEntry (c : UInt8) : Option Terminal := s.store (s.terminalBuffer + (s.row * 80 + s.col)) (vgaEntry c s.color)

/-- The switch of `_terminal_putchar`. -/
def typed (c : UInt8) : Option Terminal :=
  if c = 10 then some { s with col := 0, row := s.row + 1 }
  else if c = 13 then some { s with col := 0 }
  else if c = 9 then
    -- `(terminal_col + 4) & ~3`
    let s := { s with col := (s.col + 4) / 4 * 4 }
    some (if 80 ≤ s.col then { s with col := 0, row := s.row + 1 } else s)
  else if c = 8 then
    if 0 < s.col then { s with col := s.col - 1 }.putEntry 32
    else if 0 < s.row then { s with row := s.row - 1, col := 80 - 1 }.putEntry 32
    else some s
  else do
    let s ← s.putEntry c
    let s := { s with col := s.col + 1 }
    return if 80 ≤ s.col then { s with col := 0, row := s.row + 1 } else s

/-- Its last lines. -/
def inView : Option Terminal := if 25 ≤ s.row then s.terminalScroll else some s

def terminalPutchar (c : UInt8) : Option Terminal := if s.silent then some s else s.typed c >>= inView

def terminalClear : Option Terminal :=
  let s := { s with vgaBufferOffset := 0, terminalBuffer := 0 }.vgaSetStartAddress 0
  (s.memset16 s.terminalBuffer (vgaEntry 32 s.color) 2000).map fun s => { s with row := 0, col := 0 }

end Terminal

inductive Op
  | putchar (c : UInt8)
  | setColor (color : UInt8)
  | setSilent (silent : Bool)
  | clear

def Terminal.step (s : Terminal) : Op → Option Terminal
  | .putchar c => s.terminalPutchar c
  | .setColor color => some { s with color }
  | .setSilent silent => some { s with silent }
  | .clear => s.terminalClear

/-! ## A terminal that shifts its lines -/

structure Screen where
  cell : Nat → Nat → UInt16
  row : Nat
  col : Nat
  color : UInt8
  silent : Bool

namespace Screen

variable (t : Screen)

def blank : UInt16 := vgaEntry 32 t.color

def cleared : Screen := { t with cell := fun _ _ => t.blank, row := 0, col := 0 }

/-- The next line: below the last there is none, and all move up. -/
def newline : Screen :=
  if t.row = 24 then { t with cell := fun r => if r = 24 then fun _ => t.blank else t.cell (r + 1), col := 0 }
  else { t with row := t.row + 1, col := 0 }

/-- To a column of this line, or to the next. -/
def goto (col : Nat) : Screen := if col < 80 then { t with col } else t.newline

def write (v : UInt16) : Screen := { t with cell := update t.cell t.row (update (t.cell t.row) t.col v) }

/-- One place back, to the end of the line above from the start of one. -/
def back : Screen :=
  if t.col = 0 then { t with row := t.row - 1, col := 79 }.write t.blank else { t with col := t.col - 1 }.write t.blank

def putchar (c : UInt8) : Screen :=
  if t.silent then t
  else if c = 10 then t.newline
  else if c = 13 then { t with col := 0 }
  else if c = 9 then t.goto ((t.col / 4 + 1) * 4)
  else if c = 8 then if t.row = 0 ∧ t.col = 0 then t else t.back
  else (t.write (vgaEntry c t.color)).goto (t.col + 1)

def step : Op → Screen
  | .putchar c => t.putchar c
  | .setColor color => { t with color }
  | .setSilent silent => { t with silent }
  | .clear => t.cleared

end Screen

/-- What the window shows is the screen, and the three names of its first cell agree. -/
structure Shows (s : Terminal) (t : Screen) : Prop where
  cell : ∀ r < 25, ∀ c < 80, s.vram (s.start + r * 80 + c) = t.cell r c
  row : s.row = t.row
  col : s.col = t.col
  color : s.color = t.color
  silent : s.silent = t.silent
  buffer : s.terminalBuffer = s.start
  offset : s.vgaBufferOffset = s.start
  room : s.start + 2000 ≤ 0x4000
  row_lt : t.row < 25
  col_lt : t.col < 80

variable {s : Terminal} {t : Screen}

theorem vgaSetStartAddress_eq {offset : Nat} (h : offset < 0x10000) :
    s.vgaSetStartAddress offset = { s with start := offset } := by
  rw [Terminal.vgaSetStartAddress, show offset / 256 % 256 * 256 + offset % 256 = offset by omega]

theorem Shows.move (h : Shows s t) {row col : Nat} (hr : row < 25) (hc : col < 80) :
    Shows { s with row, col } { t with row, col } :=
  { h with row := rfl, col := rfl, row_lt := hr, col_lt := hc }

theorem Shows.putEntry (h : Shows s t) (c : UInt8) :
    ∃ s', s.putEntry c = some s' ∧ Shows s' (t.write (vgaEntry c t.color)) := by
  have hr := h.row_lt
  have hc := h.col_lt
  have hroom := h.room
  refine ⟨_, if_pos (by rw [h.buffer, h.row, h.col]; omega), { h with cell := fun r hr' c' hc' => ?_ }⟩
  rw [h.buffer, h.row, h.col, h.color]
  simp only [Screen.write]
  by_cases hrow : r = t.row
  · subst hrow
    by_cases hcol : c' = t.col
    · subst hcol
      simp [Nat.add_assoc]
    · rw [Function.update_of_ne (by omega), Function.update_self, Function.update_of_ne hcol]
      exact h.cell _ hr _ hc'
  · rw [Function.update_of_ne (by omega), Function.update_of_ne hrow]
    exact h.cell r hr' c' hc'

theorem shows_newline {s : Terminal} (hrow : t.row = 24) (hbuffer : s.terminalBuffer = s.start)
    (hoffset : s.vgaBufferOffset = s.start)
    (hroom : s.start + 2000 ≤ 0x4000) (hcol : s.col = 0) (hcolor : s.color = t.color) (hsilent : s.silent = t.silent)
    (hcell : ∀ r < 24, ∀ c < 80, s.vram (s.start + r * 80 + c) = t.cell (r + 1) c) :
    ∃ s', (s.memset16 (s.terminalBuffer + (25 - 1) * 80) (vgaEntry 32 s.color) 80).map
      (fun s => { s with row := 25 - 1 }) = some s' ∧
      Shows s' t.newline := by
  rw [Terminal.memset16, if_pos (by omega), Screen.newline, if_pos hrow]
  refine ⟨_, rfl, {
    row := hrow.symm, col := hcol, color := hcolor, silent := hsilent, buffer := hbuffer, offset := hoffset, room := hroom
    row_lt := by simp [hrow], col_lt := by simp, cell := fun r hr c hc => ?_ }⟩
  simp only
  rw [hbuffer]
  by_cases hlast : r = 24
  · subst hlast
    rw [if_pos (by omega), if_pos rfl, Screen.blank, hcolor]
  · rw [if_neg (by omega), if_neg hlast, hcell r (by omega) c hc]

theorem Shows.terminalScroll (h : Shows s t) (hrow : t.row = 24) {row : Nat} :
    ∃ s', { s with col := 0, row }.terminalScroll = some s' ∧ Shows s' t.newline := by
  have hroom := h.room
  unfold Terminal.terminalScroll Terminal.vgaScroll
  simp only [h.offset, h.buffer]
  by_cases hend : 0x4000 < s.start + 2000 + 80
  · rw [if_pos hend, Terminal.memmove, if_pos (by omega)]
    simp only [Option.map_some, Option.bind_eq_bind, Option.bind_some, vgaSetStartAddress_eq (show 0 < 0x10000 by decide)]
    refine shows_newline hrow rfl rfl (by simp) rfl h.color h.silent fun r hr c hc => ?_
    rw [← h.cell (r + 1) (by omega) c hc]
    simp only
    rw [if_pos (by omega)]
    congr 1
    omega
  · rw [if_neg hend]
    have hoffset : (s.start + 80) % 0x10000 = s.start + 80 := by omega
    simp only [Option.bind_eq_bind, Option.bind_some, hoffset, vgaSetStartAddress_eq (show s.start + 80 < 0x10000 by omega)]
    refine shows_newline hrow rfl rfl (by simp only; omega) rfl h.color h.silent fun r hr c hc => ?_
    rw [← h.cell (r + 1) (by omega) c hc]
    simp only
    congr 1
    omega

theorem Shows.newline (h : Shows s t) : ∃ s', { s with col := 0, row := s.row + 1 }.inView = some s' ∧
    Shows s' t.newline := by
  have hr := h.row_lt
  have hrow := h.row
  unfold Terminal.inView
  by_cases hlast : t.row = 24
  · rw [if_pos (by dsimp only; omega)]
    exact h.terminalScroll hlast
  · rw [if_neg (by dsimp only; omega), Screen.newline, if_neg hlast, hrow]
    exact ⟨_, rfl, h.move (by omega) (by decide)⟩

theorem Shows.inView (h : Shows s t) : s.inView = some s := if_neg (Nat.not_le.2 (h.row ▸ h.row_lt))

theorem Shows.goto (h : Shows s t) (col : Nat) :
    ∃ s', (if 80 ≤ col then { s with col := 0, row := s.row + 1 } else { s with col }).inView = some s' ∧
    Shows s' (t.goto col) := by
  unfold Screen.goto
  by_cases hcol : 80 ≤ col
  · rw [if_pos hcol, if_neg (Nat.not_lt.2 hcol)]
    exact h.newline
  · rw [if_neg hcol, if_pos (Nat.lt_of_not_le hcol)]
    have hgo : Shows { s with col } { t with col } := { h with col := rfl, col_lt := Nat.lt_of_not_le hcol }
    exact ⟨_, hgo.inView, hgo⟩

theorem Shows.back (h : Shows s t) {row col : Nat} (hr : row < 25) (hc : col < 80) :
    ∃ s', ({ s with row, col }.putEntry 32 >>= Terminal.inView) = some s' ∧
    Shows s' ({ t with row, col }.write t.blank) := by
  obtain ⟨s', hs', hshow⟩ := (h.move hr hc).putEntry 32
  rw [hs']
  exact ⟨s', hshow.inView, hshow⟩

theorem Shows.terminalPutchar (h : Shows s t) (c : UInt8) :
    ∃ s', s.terminalPutchar c = some s' ∧ Shows s' (t.putchar c) := by
  have hr := h.row_lt
  have hc := h.col_lt
  have hrow := h.row
  have hcol := h.col
  unfold Terminal.terminalPutchar Screen.putchar Terminal.typed
  by_cases hs : t.silent = true
  · rw [if_pos hs, if_pos (h.silent.trans hs)]
    exact ⟨s, rfl, h⟩
  rw [if_neg hs, if_neg (h.silent ▸ hs)]
  by_cases h10 : c = 10
  · rw [if_pos h10, if_pos h10]
    exact h.newline
  rw [if_neg h10, if_neg h10]
  by_cases h13 : c = 13
  · rw [if_pos h13, if_pos h13]
    have hgo : Shows { s with col := 0 } { t with col := 0 } := { h with col := rfl, col_lt := by simp }
    exact ⟨_, hgo.inView, hgo⟩
  rw [if_neg h13, if_neg h13]
  by_cases h9 : c = 9
  · rw [if_pos h9, if_pos h9, ← hcol, show (s.col / 4 + 1) * 4 = (s.col + 4) / 4 * 4 by omega]
    exact h.goto _
  rw [if_neg h9, if_neg h9]
  by_cases h8 : c = 8
  · rw [if_pos h8, if_pos h8]
    unfold Screen.back
    by_cases hcol0 : t.col = 0
    · rw [if_neg (by omega), if_pos hcol0]
      by_cases hrow0 : t.row = 0
      · rw [if_neg (by omega), if_pos ⟨hrow0, hcol0⟩]
        exact ⟨s, h.inView, h⟩
      · rw [if_pos (by omega), if_neg fun h => hrow0 h.1, hrow]
        exact h.back (by omega) (by decide)
    · rw [if_pos (by omega), if_neg fun h => hcol0 h.2, if_neg hcol0, hcol, hrow]
      exact h.back hr (by omega)
  rw [if_neg h8, if_neg h8]
  obtain ⟨s', hs', hshow⟩ := h.putEntry c
  rw [hs', ← show s'.col = t.col from hshow.col]
  exact hshow.goto _

theorem shows_blank {s : Terminal} (hbuffer : s.terminalBuffer = 0) (hoffset : s.vgaBufferOffset = 0) (t : Screen)
    (hcolor : s.color = t.color) (hsilent : s.silent = t.silent) :
    ∃ s', (let s := s.vgaSetStartAddress 0
      s.memset16 s.terminalBuffer (vgaEntry 32 s.color) 2000) = some s' ∧
      s'.row = s.row ∧ s'.col = s.col ∧ Shows { s' with row := 0, col := 0 } t.cleared := by
  rw [vgaSetStartAddress_eq (by decide)]
  simp only [hbuffer]
  rw [Terminal.memset16, if_pos (by omega)]
  refine ⟨_, rfl, rfl, rfl, {
    row := rfl, col := rfl, color := hcolor, silent := hsilent, buffer := rfl, offset := hoffset
    room := by simp, row_lt := by simp [Screen.cleared], col_lt := by simp [Screen.cleared]
    cell := fun r hr c hc => ?_ }⟩
  simp only
  rw [if_pos (by omega), hcolor]
  rfl

theorem Shows.clear (h : Shows s t) : ∃ s', s.terminalClear = some s' ∧ Shows s' t.cleared := by
  obtain ⟨s', hs', -, -, hshow⟩ := shows_blank
    (s := { s with vgaBufferOffset := 0, terminalBuffer := 0 }) rfl rfl t h.color h.silent
  refine ⟨_, ?_, hshow⟩
  simp only [Terminal.terminalClear]
  rw [hs']
  rfl

theorem shows_initialize (s : Terminal) :
    ∃ s', s.terminalInitialize = some s' ∧ Shows s' (Screen.cleared ⟨fun _ _ => 0, 0, 0, vgaEntryColor 7 0, s.silent⟩) := by
  obtain ⟨s', hs', hrow, hcol, hshow⟩ :=
    shows_blank (s := { s with row := 0, col := 0, color := vgaEntryColor 7 0, vgaBufferOffset := 0, terminalBuffer := 0 })
      rfl rfl ⟨fun _ _ => 0, 0, 0, vgaEntryColor 7 0, s.silent⟩ rfl rfl
  exact ⟨s', hs', { hshow with row := hrow, col := hcol }⟩

theorem Shows.step (h : Shows s t) : ∀ op, ∃ s', s.step op = some s' ∧ Shows s' (t.step op)
  | .putchar c => h.terminalPutchar c
  | .setColor _ => ⟨_, rfl, { h with color := rfl }⟩
  | .setSilent _ => ⟨_, rfl, { h with silent := rfl }⟩
  | .clear => h.clear

theorem Shows.run (h : Shows s t) (ops : List Op) :
    ∃ s', ops.foldlM Terminal.step s = some s' ∧ Shows s' (ops.foldl Screen.step t) := by
  induction ops generalizing s t with
  | nil => exact ⟨s, rfl, h⟩
  | cons op ops ih =>
    obtain ⟨s', hs', h'⟩ := h.step op
    rw [List.foldlM_cons, hs']
    exact ih h'

/-- **Hardware scrolling is invisible**: no access leaves the text memory, and the window shows the screen of a terminal
that shifts its lines. -/
theorem scroll_invisible (s0 : Terminal) (ops : List Op) :
    ∃ s, (s0.terminalInitialize >>= fun s => ops.foldlM Terminal.step s) = some s ∧
      Shows s (ops.foldl Screen.step (Screen.cleared ⟨fun _ _ => 0, 0, 0, vgaEntryColor 7 0, s0.silent⟩)) := by
  obtain ⟨s, hs, h⟩ := shows_initialize s0
  rw [hs]
  exact h.run ops

end EterOS.Vga
