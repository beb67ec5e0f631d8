import EterOS.Gfx.Framebuffer
import Mathlib.Tactic.Linarith
/-!
# Draw — the primitives and the dirty rectangle

`src/kernel/gfx/gfx.c`, with double buffering on.  Every primitive draws in the back buffer and adds a rectangle to the dirty
one; `Ok` says that the front buffer lacks nothing outside the dirty rectangle, and each primitive keeps it.
-/
namespace EterOS.Gfx

open Buffer (blit digits drop put32 words)

def i32 (x : Int) : Int := (x + 2 ^ 31) % 2 ^ 32 - 2 ^ 31

def u32 (x : Int) : Nat := (x % 2 ^ 32).toNat

structure Rect where
  x : Int
  y : Int
  w : Int
  h : Int

/-- The buffers, `dirty_rect` with `dirty_rect_valid`, and `display_sleep_mode`. -/
structure Display where
  front : Buffer
  back : Buffer
  dirty : Rect
  valid : Bool
  asleep : Bool

def gfxAddDirtyRect (v : Mode) (s : Display) (x y w h : Int) : Display :=
  if w ≤ 0 ∨ h ≤ 0 then s
  else if v.width ≤ x ∨ v.height ≤ y then s
  else if i32 (x + w) < 0 ∨ i32 (y + h) < 0 then s
  else
    let x2 := if v.width < i32 (x + w) then (v.width : Int) else i32 (x + w)
    let y2 := if v.height < i32 (y + h) then (v.height : Int) else i32 (y + h)
    let x := if x < 0 then 0 else x
    let y := if y < 0 then 0 else y
    if s.valid = false then { s with dirty := ⟨x, y, x2 - x, y2 - y⟩, valid := true }
    else
      let oldX2 := s.dirty.x + s.dirty.w
      let oldY2 := s.dirty.y + s.dirty.h
      let newX := min s.dirty.x x
      let newY := min s.dirty.y y
      { s with dirty := ⟨newX, newY, max oldX2 x2 - newX, max oldY2 y2 - newY⟩ }

def gfxPresent (v : Mode) (s : Display) : Display :=
  if s.valid = false then s
  else
    { s with
      front := framebufferFlushRect v s.front s.back (u32 s.dirty.x) (u32 s.dirty.y) (u32 s.dirty.w) (u32 s.dirty.h)
      valid := false
      dirty := ⟨0, 0, 0, 0⟩ }

def gfxPutPixel (v : Mode) (s : Display) (x y : Int) (color : UInt32) : Display :=
  gfxAddDirtyRect v { s with back := framebufferPutpixel v s.back (u32 x) (u32 y) color } x y 1 1

def gfxFillRect (v : Mode) (s : Display) (x y w h : Int) (color : UInt32) : Display :=
  gfxAddDirtyRect v { s with back := framebufferRect v s.back (u32 x) (u32 y) (u32 w) (u32 h) color } x y w h

def gfxDrawRect (v : Mode) (s : Display) (x y w h : Int) (color : UInt32) : Display :=
  if w ≤ 0 ∨ h ≤ 0 then s
  else if w = 1 ∨ h = 1 then gfxFillRect v s x y w h color
  else
    let s := gfxFillRect v s x y w 1 color
    let s := gfxFillRect v s x (y + h - 1) w 1 color
    if 2 < h then
      let s := gfxFillRect v s x (y + 1) 1 (h - 2) color
      if 1 < w then gfxFillRect v s (x + w - 1) (y + 1) 1 (h - 2) color else s
    else s

/-- The two loops of the fast path, along the longer axis `a`: the pointer goes by `stepA` and `stepB`.  The buffer and the
pointer at the end; `fuel` bounds the turns. -/
def axisLoop (color : UInt32) (a1 sa sb stepA stepB da db : Int) : Nat → Buffer → Int → Int → Int → Int → Buffer × Int
  | 0, m, p, _, _, _ => (m, p)
  | fuel + 1, m, p, a, b, err =>
    if a = a1 then (m, p)
    else
      let m := m.put32 p.toNat color
      let err := err - db
      if err < 0 then axisLoop color a1 sa sb stepA stepB da db fuel m (p + stepB + stepA) (a + sa) (b + sb) (err + da)
      else axisLoop color a1 sa sb stepA stepB da db fuel m (p + stepA) (a + sa) b err

/-- The loop that clips every pixel; `fuel` bounds the turns. -/
def clipLoop (v : Mode) (color : UInt32) (x1 y1 sx sy dx dy : Int) : Nat → Buffer → Int → Int → Int → Buffer
  | 0, m, _, _, _ => m
  | fuel + 1, m, x0, y0, err =>
    let m := framebufferPutpixel v m (u32 x0) (u32 y0) color
    if x0 = x1 ∧ y0 = y1 then m
    else
      let e2 := i32 (2 * err)
      let (err, x0) := if dy ≤ e2 then (i32 (err + dy), x0 + sx) else (err, x0)
      let (err, y0) := if e2 ≤ dx then (i32 (err + dx), y0 + sy) else (err, y0)
      clipLoop v color x1 y1 sx sy dx dy fuel m x0 y0 err

def slantedLine (v : Mode) (m : Buffer) (x0 y0 x1 y1 : Int) (color : UInt32) : Buffer :=
  let dx := |x1 - x0|
  let sx : Int := if x0 < x1 then 1 else -1
  let dy := -|y1 - y0|
  let sy : Int := if y0 < y1 then 1 else -1
  if v.bpp = 32 ∧ 0 ≤ min x0 x1 ∧ max x0 x1 < v.width ∧ 0 ≤ min y0 y1 ∧ max y0 y1 < v.height then
    let p := y0 * v.pitch + x0 * 4
    let (m, p) :=
      if -dy < dx then axisLoop color x1 sx sy (sx * 4) (sy * v.pitch) dx (-dy) dx.toNat m p x0 y0 (dx / 2)
      else axisLoop color y1 sy sx (sy * v.pitch) (sx * 4) (-dy) dx (-dy).toNat m p y0 x0 (-dy / 2)
    m.put32 p.toNat color
  else clipLoop v color x1 y1 sx sy dx dy ((dx - dy).toNat + 1) m x0 y0 (dx + dy)

/-- `gfx_draw_line`: that the line is level or upright is tested twice again further down, where it is neither. -/
def gfxDrawLine (v : Mode) (s : Display) (x0 y0 x1 y1 : Int) (color : UInt32) : Display :=
  if y0 = y1 then gfxFillRect v s (if x0 < x1 then x0 else x1) y0 ((if x0 < x1 then x1 - x0 else x0 - x1) + 1) 1 color
  else if x0 = x1 then gfxFillRect v s x0 (if y0 < y1 then y0 else y1) 1 ((if y0 < y1 then y1 - y0 else y0 - y1) + 1) color
  else
    let s := gfxAddDirtyRect v s (min x0 x1) (min y0 y1) (max x0 x1 - min x0 x1 + 1) (max y0 y1 - min y0 y1 + 1)
    { s with back := slantedLine v s.back x0 y0 x1 y1 color }

structure Point where
  x : Int
  y : Int
  color : UInt32

structure Batch where
  back : Buffer
  minX : Int
  minY : Int
  maxX : Int
  maxY : Int

def Batch.point (v : Mode) (b : Batch) (p : Point) : Batch :=
  if p.x < 0 ∨ v.width ≤ p.x ∨ p.y < 0 ∨ v.height ≤ p.y then b
  else
    { back := if v.bpp = 32 then b.back.put32 (p.y.toNat * v.pitch + p.x.toNat * 4) p.color
        else framebufferPutpixel v b.back (u32 p.x) (u32 p.y) p.color
      minX := if p.x < b.minX then p.x else b.minX
      maxX := if b.maxX < p.x then p.x else b.maxX
      minY := if p.y < b.minY then p.y else b.minY
      maxY := if b.maxY < p.y then p.y else b.maxY }

def gfxDrawPixels (v : Mode) (s : Display) (pixels : List Point) : Display :=
  if pixels = [] then s
  else
    let b := pixels.foldl (Batch.point v) ⟨s.back, 0x7FFFFFFF, 0x7FFFFFFF, -0x80000000, -0x80000000⟩
    let s := { s with back := b.back }
    if b.minX ≤ b.maxX ∧ b.minY ≤ b.maxY then gfxAddDirtyRect v s b.minX b.minY (b.maxX - b.minX + 1) (b.maxY - b.minY + 1)
    else s

/-! ## The dirty rectangle -/

namespace Display

variable {v : Mode} {s s' : Display} {x y w h : Int}

def Covers (s : Display) (x y : Nat) : Prop :=
  s.valid = true ∧ (s.dirty.x ≤ x ∧ x < s.dirty.x + s.dirty.w) ∧ s.dirty.y ≤ y ∧ y < s.dirty.y + s.dirty.h

def Within (v : Mode) (s : Display) : Prop :=
  (0 ≤ s.dirty.x ∧ 0 ≤ s.dirty.w ∧ s.dirty.x + s.dirty.w ≤ v.width) ∧ 0 ≤ s.dirty.y ∧ 0 ≤ s.dirty.h ∧
    s.dirty.y + s.dirty.h ≤ v.height

/-- **The invariant**: where a byte of the front buffer differs, it is of a pixel in the dirty rectangle, which lies within
the screen. -/
structure Ok (v : Mode) (s : Display) : Prop where
  shown : ∀ i, s.front i ≠ s.back i → ∃ x y, x < v.width ∧ y < v.height ∧ v.OnPixel x y i ∧ s.Covers x y
  within : s.Within v

end Display

theorem i32_of_range {x : Int} (hlo : -2 ^ 31 ≤ x) (hhi : x < 2 ^ 31) : i32 x = x := by
  unfold i32
  omega

theorem u32_of_nonneg {x : Int} (h : 0 ≤ x) (hlt : x < 2 ^ 32) : (u32 x : Int) = x := by
  unfold u32
  omega

theorem u32_on_screen {x : Int} (hx : -2 ^ 30 ≤ x ∧ x ≤ 2 ^ 30) (h : u32 x < 2 ^ 31) : (u32 x : Int) = x := by
  unfold u32 at h ⊢
  omega

theorem gfxAddDirtyRect_same (v : Mode) (s : Display) (x y w h : Int) :
    (gfxAddDirtyRect v s x y w h).front = s.front ∧ (gfxAddDirtyRect v s x y w h).back = s.back ∧
      (gfxAddDirtyRect v s x y w h).asleep = s.asleep := by
  unfold gfxAddDirtyRect
  dsimp only
  split_ifs <;> exact ⟨rfl, rfl, rfl⟩

theorem side_fresh {W x w : Int} (hW : 0 ≤ W) (hw : 0 < w) (hx : x < W) (hend : 0 ≤ x + w) :
    (0 ≤ max x 0 ∧ 0 ≤ min W (x + w) - max x 0 ∧ max x 0 + (min W (x + w) - max x 0) ≤ W) ∧
      ∀ a, 0 ≤ a ∧ a < W → x ≤ a ∧ a < x + w → max x 0 ≤ a ∧ a < max x 0 + (min W (x + w) - max x 0) := by
  refine ⟨by omega, fun a ha hax => ?_⟩
  rw [add_sub_cancel]
  exact ⟨max_le hax.1 ha.1, lt_min ha.2 hax.2⟩

theorem side_merged {d e x y W : Int} (hd : 0 ≤ d ∧ 0 ≤ e ∧ d + e ≤ W) (hx : 0 ≤ x ∧ 0 ≤ y ∧ x + y ≤ W) :
    (0 ≤ min d x ∧ 0 ≤ max (d + e) (x + y) - min d x ∧ min d x + (max (d + e) (x + y) - min d x) ≤ W) ∧
      ∀ a, (d ≤ a ∧ a < d + e) ∨ (x ≤ a ∧ a < x + y) → min d x ≤ a ∧ a < min d x + (max (d + e) (x + y) - min d x) := by
  refine ⟨by omega, fun a ha => ?_⟩
  rw [add_sub_cancel]
  rcases ha with ha | ha
  · exact ⟨(min_le_left _ _).trans ha.1, ha.2.trans_le (le_max_left _ _)⟩
  · exact ⟨(min_le_right _ _).trans ha.1, ha.2.trans_le (le_max_right _ _)⟩

theorem gfxAddDirtyRect_spec {v : Mode} {s : Display} {x y w h : Int} (hx : -2 ^ 31 ≤ x + w ∧ x + w < 2 ^ 31)
    (hy : -2 ^ 31 ≤ y + h ∧ y + h < 2 ^ 31) (hs : s.Within v) :
    (gfxAddDirtyRect v s x y w h).Within v ∧ (∀ a b, s.Covers a b → (gfxAddDirtyRect v s x y w h).Covers a b) ∧
      ∀ a b : Nat, a < v.width → b < v.height → x ≤ a ∧ a < x + w → y ≤ b ∧ b < y + h →
      (gfxAddDirtyRect v s x y w h).Covers a b := by
  have hlow : ∀ n : Int, (if n < 0 then 0 else n) = max n 0 := fun n => by split <;> omega
  have hhigh : ∀ n m : Int, (if n < m then n else m) = min n m := fun n m => by split <;> omega
  unfold gfxAddDirtyRect
  rw [i32_of_range hx.1 hx.2, i32_of_range hy.1 hy.2]
  clear hx hy
  by_cases hempty : w ≤ 0 ∨ h ≤ 0
  · rw [if_pos hempty]
    exact ⟨hs, fun _ _ hc => hc, fun a b _ _ ha hb => by omega⟩
  rw [if_neg hempty]
  by_cases hfar : (v.width : Int) ≤ x ∨ (v.height : Int) ≤ y
  · rw [if_pos hfar]
    exact ⟨hs, fun _ _ hc => hc, fun a b _ _ ha hb => by omega⟩
  rw [if_neg hfar]
  by_cases hneg : x + w < 0 ∨ y + h < 0
  · rw [if_pos hneg]
    exact ⟨hs, fun _ _ hc => hc, fun a b _ _ ha hb => by omega⟩
  rw [if_neg hneg, hlow, hlow, hhigh, hhigh]
  obtain ⟨hxin, hxa⟩ := side_fresh (W := v.width) (x := x) (w := w) (by omega) (by omega) (by omega) (by omega)
  obtain ⟨hyin, hyb⟩ := side_fresh (W := v.height) (x := y) (w := h) (by omega) (by omega) (by omega) (by omega)
  have hon : ∀ {a n : Nat}, a < n → 0 ≤ (a : Int) ∧ (a : Int) < n := fun ha => ⟨Int.natCast_nonneg _, Int.ofNat_lt.2 ha⟩
  by_cases hvalid : s.valid = false
  · rw [if_pos hvalid]
    refine ⟨⟨hxin, hyin⟩, fun a b hc => ?_, fun a b ha hb hax hby => ⟨rfl, hxa a (hon ha) hax, hyb b (hon hb) hby⟩⟩
    rw [Display.Covers, hvalid] at hc
    cases hc.1
  · rw [if_neg hvalid]
    obtain ⟨hxin', hxa'⟩ := side_merged hs.1 hxin
    obtain ⟨hyin', hyb'⟩ := side_merged hs.2 hyin
    rw [add_sub_cancel] at hxin' hyin' hxa' hyb'
    exact ⟨⟨hxin', hyin'⟩, fun a b hc => ⟨hc.1, hxa' a (.inl hc.2.1), hyb' b (.inl hc.2.2)⟩, fun a b ha hb hax hby =>
      ⟨Bool.eq_true_of_not_eq_false hvalid, hxa' a (.inr (by simpa using hxa a (hon ha) hax)),
        hyb' b (.inr (by simpa using hyb b (hon hb) hby))⟩⟩

namespace Display

variable {v : Mode} {s s' : Display} {x y w h : Int} {color : UInt32}

/-- **The drawing rule**: what is drawn is in the new dirty rectangle, and so is the old one. -/
theorem Ok.draw {S : Nat → Nat → Prop} (hs : s.Ok v) (hd : v.Draws s.back s'.back S) (hfront : s'.front = s.front)
    (hin : s'.Within v) (hold : ∀ x y, s.Covers x y → s'.Covers x y)
    (hnew : ∀ x y, x < v.width → y < v.height → S x y → s'.Covers x y) : s'.Ok v := by
  refine ⟨fun i hi => ?_, hin⟩
  rw [hfront] at hi
  by_cases hsame : s'.back i = s.back i
  · rw [hsame] at hi
    obtain ⟨x, y, hx, hy, hon, hc⟩ := hs.shown i hi
    exact ⟨x, y, hx, hy, hon, hold x y hc⟩
  · obtain ⟨x, y, hS, hx, hy, hon⟩ := hd i hsame
    exact ⟨x, y, hx, hy, hon, hnew x y hx hy hS⟩

theorem Ok.drawAdd {S : Nat → Nat → Prop} {b : Buffer} (hs : s.Ok v) (hd : v.Draws s.back b S)
    (hx : -2 ^ 31 ≤ x + w ∧ x + w < 2 ^ 31) (hy : -2 ^ 31 ≤ y + h ∧ y + h < 2 ^ 31)
    (hS : ∀ a b : Nat, a < v.width → b < v.height → S a b → (x ≤ a ∧ a < x + w) ∧ y ≤ b ∧ b < y + h) :
    (gfxAddDirtyRect v { s with back := b } x y w h).Ok v := by
  obtain ⟨hfront, hback, -⟩ := gfxAddDirtyRect_same v { s with back := b } x y w h
  obtain ⟨hin, hold, hnew⟩ := gfxAddDirtyRect_spec (s := { s with back := b }) hx hy hs.within
  refine hs.draw (by rw [hback]; exact hd) hfront hin hold fun a b ha hb hab => ?_
  obtain ⟨hxa, hyb⟩ := hS a b ha hb hab
  exact hnew a b ha hb hxa hyb

theorem Ok.gfxPutPixel (hs : s.Ok v) (hx : -2 ^ 28 ≤ x ∧ x ≤ 2 ^ 28) (hy : -2 ^ 28 ≤ y ∧ y ≤ 2 ^ 28) :
    (gfxPutPixel v s x y color).Ok v := by
  have hwlt := v.width_lt
  have hhlt := v.height_lt
  refine hs.drawAdd framebufferPutpixel_draws (by omega) (by omega) fun a b ha hb hab => ?_
  unfold u32 at hab
  omega

def LosesRow (v : Mode) (x y w h : Int) : Prop :=
  v.bpp = 24 ∧ h = 0 ∧ w ≠ 0 ∧ (0 ≤ x ∧ x < v.width) ∧ 0 ≤ y ∧ y < v.height

theorem Ok.gfxFillRect (hs : s.Ok v) (hx : -2 ^ 30 ≤ x ∧ x < 2 ^ 30) (hy : -2 ^ 30 ≤ y ∧ y < 2 ^ 30)
    (hw : 0 ≤ w ∧ w < 2 ^ 30)
    (hh : 0 ≤ h ∧ h < 2 ^ 30) (hrow : ¬ LosesRow v x y w h) : (gfxFillRect v s x y w h color).Ok v := by
  have hwlt := v.width_lt
  have hhlt := v.height_lt
  by_cases hout : v.width ≤ u32 x ∨ v.height ≤ u32 y
  · have hsame : framebufferRect v s.back (u32 x) (u32 y) (u32 w) (u32 h) color = s.back := if_pos hout
    refine hs.drawAdd (S := fun _ _ => False) ?_ (by omega) (by omega) fun _ _ _ _ hf => hf.elim
    rw [hsame]
    exact Mode.draws_refl
  · obtain ⟨hxw, hyh⟩ := not_or.1 hout
    have hux := u32_on_screen ⟨hx.1, hx.2.le⟩ ((Nat.not_le.1 hxw).trans hwlt)
    have huy := u32_on_screen ⟨hy.1, hy.2.le⟩ ((Nat.not_le.1 hyh).trans hhlt)
    have huw := u32_of_nonneg hw.1 (by omega)
    have huh := u32_of_nonneg hh.1 (by omega)
    unfold Gfx.gfxFillRect
    generalize u32 x = a₀ at *
    generalize u32 y = b₀ at *
    generalize u32 w = w0 at *
    generalize u32 h = h0 at *
    subst hux huy huw huh
    refine hs.drawAdd (framebufferRect_draws (by omega) (by omega) color) (by omega) (by omega) fun a b ha hb hab => ?_
    unfold LosesRow at hrow
    omega

theorem Ok.gfxDrawRect (hs : s.Ok v) (hx : -2 ^ 28 ≤ x ∧ x ≤ 2 ^ 28) (hy : -2 ^ 28 ≤ y ∧ y ≤ 2 ^ 28)
    (hw : 0 ≤ w ∧ w < 2 ^ 28)
    (hh : 0 ≤ h ∧ h < 2 ^ 28) : (gfxDrawRect v s x y w h color).Ok v := by
  have hrow : ∀ {x y w h : Int}, h ≠ 0 → ¬ LosesRow v x y w h := fun hne hl => hne hl.2.1
  unfold Gfx.gfxDrawRect
  by_cases hempty : w ≤ 0 ∨ h ≤ 0
  · rw [if_pos hempty]
    exact hs
  rw [if_neg hempty]
  by_cases hthin : w = 1 ∨ h = 1
  · rw [if_pos hthin]
    exact hs.gfxFillRect (by omega) (by omega) (by omega) (by omega) (hrow (by omega))
  rw [if_neg hthin]
  dsimp only
  have h1 : (Gfx.gfxFillRect v s x y w 1 color).Ok v :=
    hs.gfxFillRect (by omega) (by omega) (by omega) (by omega) (hrow (by omega))
  have h2 : (Gfx.gfxFillRect v (Gfx.gfxFillRect v s x y w 1 color) x (y + h - 1) w 1 color).Ok v :=
    h1.gfxFillRect (by omega) (by omega) (by omega) (by omega) (hrow (by omega))
  by_cases htall : 2 < h
  · rw [if_pos htall, if_pos (show 1 < w by omega)]
    have h3 : (Gfx.gfxFillRect v (Gfx.gfxFillRect v (Gfx.gfxFillRect v s x y w 1 color) x (y + h - 1) w 1 color) x
      (y + 1) 1 (h - 2)
        color).Ok v := h2.gfxFillRect (by omega) (by omega) (by omega) (by omega) (hrow (by omega))
    exact h3.gfxFillRect (by omega) (by omega) (by omega) (by omega) (hrow (by omega))
  · rw [if_neg htall]
    exact h2

end Display

/-! ## Lines

Both loops go one step along the longer side in each turn, and one aside where the error says so: the one that clips rounds a
half up, the fast one down. -/

/-- The steps aside after `j` steps along: `j * db / da`, rounded. -/
def aside (up : Bool) (da db j : Int) : Int := (2 * (j * db) + da - if up then 0 else 1) / (2 * da)

/-- The place after `j` steps along and `k` aside. -/
def spot (x0 y0 sx sy : Int) (steep : Bool) (j k : Int) : Int × Int :=
  if steep then (x0 + sx * k, y0 + sy * j) else (x0 + sx * j, y0 + sy * k)

def places (x0 y0 x1 y1 : Int) (up : Bool) : List (Int × Int) :=
  let dx := |x1 - x0|
  let dy := |y1 - y0|
  let steep := ¬ dy < dx
  let da := if steep then dy else dx
  let db := if steep then dx else dy
  (List.range (da.toNat + 1)).map fun (j : Nat) =>
    spot x0 y0 (if x0 < x1 then 1 else -1) (if y0 < y1 then 1 else -1) steep j (aside up da db j)

def plot (v : Mode) (color : UInt32) (m : Buffer) (p : Int × Int) : Buffer :=
  framebufferPutpixel v m (u32 p.1) (u32 p.2) color

variable {up : Bool} {da db j k : Int}

theorem aside_eq_iff (hda : 0 < da) : aside up da db j = k ↔
    2 * (k * da) ≤ 2 * (j * db) + da - (if up then 0 else 1) ∧
    2 * (j * db) + da - (if up then 0 else 1) < 2 * (k * da) + 2 * da := by
  rw [aside, Int.ediv_eq_iff_of_pos (by omega), Int.mul_left_comm k]

theorem aside_bounds (hda : 0 < da) (hdb : 0 ≤ db) (hj : 0 ≤ j ∧ j ≤ da) : 0 ≤ aside up da db j ∧ aside up da db j ≤ db := by
  have hpos : 0 ≤ j * db := Int.mul_nonneg hj.1 hdb
  have hjdb : j * db ≤ da * db := Int.mul_le_mul_of_nonneg_right hj.2 hdb
  obtain ⟨hlo, hhi⟩ := (aside_eq_iff hda).1 (rfl : aside up da db j = aside up da db j)
  generalize aside up da db j = k at *
  constructor
  · by_contra hk
    have := Int.mul_le_mul_of_nonneg_right (show k ≤ -1 by omega) hda.le
    split at hhi <;> omega
  · by_contra hk
    have := Int.mul_le_mul_of_nonneg_right (show db + 1 ≤ k by omega) hda.le
    rw [Int.add_mul, Int.mul_comm db] at this
    split at hlo <;> omega

theorem aside_zero (hda : 0 < da) : aside up da db 0 = 0 := (aside_eq_iff hda).2 (by cases up <;> simp <;> omega)

theorem aside_last (hda : 0 < da) : aside up da db da = db := (aside_eq_iff hda).2 (by
  rw [Int.mul_comm db]
  cases up <;> simp <;> omega)

/-- **The fast loop**, whose error after `j` turns is `da / 2 - j * db + k * da`. -/
theorem axisLoop_eq {color : UInt32} {a0 b0 sa sb : Int} (ca cb : Int) {put : Int → Int → Buffer → Buffer} (hsa : sa ≠ 0)
    (hda : 0 < da)
    (hdb : 0 ≤ db ∧ db ≤ da) (hput : ∀ j k m, 0 ≤ j ∧ j ≤ da → 0 ≤ k ∧ k ≤ db →
      Buffer.put32 m ((a0 + sa * j) * ca + (b0 + sb * k) * cb).toNat color = put j k m) :
    ∀ (n j : Nat) (k : Int) (m : Buffer), (j + n : Int) = da → aside false da db j = k →
      ∀ r, axisLoop color (a0 + sa * da) sa sb (sa * ca) (sb * cb) da db n m ((a0 + sa * j) * ca + (b0 + sb * k) * cb)
        (a0 + sa * j)
        (b0 + sb * k) (da / 2 - j * db + k * da) = r →
        r.1.put32 r.2.toNat color = (List.range' j (n + 1)).foldl (fun m (i : Nat) => put i (aside false da db i) m) m
  | 0, j, k, m, hj, hk, r, hr => by
    subst hr hk
    exact hput _ _ _ (by omega) (aside_bounds hda hdb.1 (by omega))
  | n + 1, j, k, m, hj, hk, r, hr => by
    have hstep := (aside_eq_iff hda).1 hk
    have hne : ¬ a0 + sa * j = a0 + sa * da := fun h => by
      have := Int.eq_of_mul_eq_mul_left hsa (Int.add_left_cancel h)
      omega
    rw [axisLoop, if_neg hne, hput _ _ _ (by omega) (hk ▸ aside_bounds hda hdb.1 (by omega))] at hr
    rw [List.range'_succ, List.foldl_cons, hk]
    have hjdb : ((j + 1 : Nat) : Int) * db = j * db + db := by push_cast; ring
    obtain ⟨k', hk', hnext⟩ : ∃ k', (k' = if da / 2 - j * db + k * da - db < 0 then k + 1 else k) ∧
        aside false da db (j + 1 : Nat) = k' := by
      refine ⟨_, rfl, (aside_eq_iff hda).2 ?_⟩
      have hkda : (k + 1) * da = k * da + da := by ring
      simp only [Bool.false_eq_true, if_false] at hstep ⊢
      split <;> omega
    refine axisLoop_eq ca cb hsa hda hdb hput n (j + 1) k' (put j k m) (by omega) hnext r (Eq.trans ?_ hr)
    dsimp only
    rw [hk']
    split <;> congr 1 <;> push_cast <;> ring

/-- A turn of the loop that clips, where nothing wraps. -/
theorem clipLoop_turn {v : Mode} {m : Buffer} {c : UInt32} {x y x1 y1 sx sy dx d err : Int} {fuel : Nat}
    (hgo : ¬ (x = x1 ∧ y = y1))
    (hlo : -2 ^ 30 ≤ err ∧ d ≤ 2 ^ 29 ∧ 0 ≤ d) (hhi : err < 2 ^ 30 ∧ dx ≤ 2 ^ 29 ∧ 0 ≤ dx) :
    clipLoop v c x1 y1 sx sy dx (-d) (fuel + 1) m x y err = clipLoop v c x1 y1 sx sy dx (-d) fuel (plot v c m (x, y))
      (if -d ≤ 2 * err then x + sx else x) (if 2 * err ≤ dx then y + sy else y)
      (err - (if -d ≤ 2 * err then d else 0) + if 2 * err ≤ dx then dx else 0) := by
  have hwrap {z : Int} (h : -2 ^ 31 ≤ z ∧ z < 2 ^ 31) : i32 z = z := i32_of_range h.1 h.2
  rw [clipLoop, if_neg hgo, hwrap (by omega)]
  by_cases hx : -d ≤ 2 * err <;> by_cases hy : 2 * err ≤ dx
  · simp only [if_pos hx, if_pos hy, ← Int.sub_eq_add_neg, hwrap (show -2 ^ 31 ≤ err - d ∧ err - d < 2 ^ 31 by omega),
      hwrap (show -2 ^ 31 ≤ err - d + dx ∧ err - d + dx < 2 ^ 31 by omega)]
    rfl
  · simp only [if_pos hx, if_neg hy, ← Int.sub_eq_add_neg, hwrap (show -2 ^ 31 ≤ err - d ∧ err - d < 2 ^ 31 by omega),
      Int.add_zero]
    rfl
  · simp only [if_neg hx, if_pos hy, hwrap (show -2 ^ 31 ≤ err + dx ∧ err + dx < 2 ^ 31 by omega), Int.sub_zero]
    rfl
  · omega

/-- A turn whose error takes it one aside, `A` and `B` being `k * da` and `j * db`. -/
theorem clipLoop_aside {v : Mode} {m : Buffer} {c : UInt32} {x y x1 y1 sx sy err A B : Int} {fuel : Nat} (steep : Bool)
    (hda : 0 < da ∧ da ≤ 2 ^ 29) (hdb : 0 ≤ db ∧ db ≤ da) (hlo : 2 * A ≤ 2 * B + da) (hhi : 2 * B + da < 2 * A + 2 * da)
    (hside : 2 * A + da ≤ 2 * B + 2 * db) (hgo : ¬ (x = x1 ∧ y = y1))
    (herr : (if steep then B + db - (A + da) else A + da - (B + db)) = err) :
    clipLoop v c x1 y1 sx sy (if steep then db else da) (-if steep then da else db) (fuel + 1) m x y err =
      clipLoop v c x1 y1 sx sy (if steep then db else da) (-if steep then da else db) fuel (plot v c m (x, y)) (x + sx)
        (y + sy) (err - (if steep then da else db) + if steep then db else da) := by
  subst herr
  cases steep <;> simp only [Bool.false_eq_true, if_false, if_true] <;>
    rw [clipLoop_turn hgo (by omega) (by omega), if_pos (by omega), if_pos (by omega), if_pos (by omega), if_pos (by omega)]

/-- A turn along the longer side only. -/
theorem clipLoop_along {v : Mode} {m : Buffer} {c : UInt32} {x y x1 y1 sx sy err A B : Int} {fuel : Nat} (steep : Bool)
    (hda : 0 < da ∧ da ≤ 2 ^ 29) (hdb : 0 ≤ db ∧ db ≤ da) (hlo : 2 * A ≤ 2 * B + da) (hhi : 2 * B + da < 2 * A + 2 * da)
    (hside : ¬ 2 * A + da ≤ 2 * B + 2 * db) (hgo : ¬ (x = x1 ∧ y = y1))
    (herr : (if steep then B + db - (A + da) else A + da - (B + db)) = err) :
    clipLoop v c x1 y1 sx sy (if steep then db else da) (-if steep then da else db) (fuel + 1) m x y err =
      clipLoop v c x1 y1 sx sy (if steep then db else da) (-if steep then da else db) fuel (plot v c m (x, y))
        (if steep then x else x + sx) (if steep then y + sy else y) (if steep then err + db else err - db) := by
  subst herr
  cases steep <;> simp only [Bool.false_eq_true, if_false, if_true]
  · rw [clipLoop_turn hgo (by omega) (by omega), if_pos (by omega), if_neg (by omega), if_pos (by omega), if_neg (by omega),
      Int.add_zero]
  · rw [clipLoop_turn hgo (by omega) (by omega), if_neg (by omega), if_pos (by omega), if_neg (by omega), if_pos (by omega),
      Int.sub_zero]

/-- **The loop that clips**, whose error is `(k + 1) * da - (j + 1) * db`, and its negative on a steep line. -/
theorem clipLoop_eq {v : Mode} {c : UInt32} {x0 y0 sx sy : Int} (steep : Bool) (hsx : sx ≠ 0) (hsy : sy ≠ 0)
    (hda : 0 < da ∧ da ≤ 2 ^ 29) (hdb : 0 ≤ db ∧ db ≤ da) : ∀ (n j : Nat) (k : Int) (m : Buffer) (f : Nat),
    (j + n : Int) = da →
      aside true da db j = k → ∀ x1 y1, spot x0 y0 sx sy steep da db = (x1, y1) →
        ∀ x y, spot x0 y0 sx sy steep j k = (x, y) →
        ∀ err, (if steep then j * db + db - (k * da + da) else k * da + da - (j * db + db)) = err →
        clipLoop v c x1 y1 sx sy (if steep then db else da) (-if steep then da else db) (n + 1 + f) m x y err =
          (List.range' j (n + 1)).foldl (fun m (i : Nat) => plot v c m (spot x0 y0 sx sy steep i (aside true da db i))) m
  | 0, j, k, m, f, hj, hk, x1, y1, hend, x, y, hxy, err, herr => by
    obtain rfl : (j : Int) = da := by omega
    rw [aside_last hda.1] at hk
    subst hk
    rw [hend] at hxy
    cases hxy
    rw [Nat.zero_add, Nat.add_comm, clipLoop, if_pos ⟨rfl, rfl⟩]
    simp [plot, aside_last hda.1, hend]
  | n + 1, j, k, m, f, hj, hk, x1, y1, hend, x, y, hxy, err, herr => by
    obtain ⟨hlo, hhi⟩ := (aside_eq_iff hda.1).1 hk
    rw [if_pos rfl, Int.sub_zero] at hlo hhi
    have hgo : ¬ (x = x1 ∧ y = y1) := by
      rintro ⟨rfl, rfl⟩
      have hsame := hxy.trans hend.symm
      have hlt : ¬ (j : Int) = da := by omega
      cases steep <;> simp [spot, hsx, hsy, hlt] at hsame
    rw [List.range'_succ, List.foldl_cons, hk, hxy, Nat.add_right_comm (n + 1)]
    have hj' : ((j + 1 : Nat) : Int) * db = j * db + db := by push_cast; ring
    -- one step along; `k'` is one aside if the error says so
    obtain ⟨k', hk', hnext⟩ : ∃ k', (k' = k + if 2 * (k * da) + da ≤ 2 * (j * db) + 2 * db then 1 else 0) ∧
        aside true da db (j + 1 : Nat) = k' := by
      refine ⟨_, rfl, (aside_eq_iff hda.1).2 ?_⟩
      rw [if_pos rfl, hj', Int.add_mul]
      split <;> omega
    have ih := clipLoop_eq (v := v) (c := c) steep hsx hsy hda hdb n (j + 1) k' (plot v c m (x, y)) f
      (by omega) hnext x1 y1 hend
      (spot x0 y0 sx sy steep (j + 1 : Nat) k').1 (spot x0 y0 sx sy steep (j + 1 : Nat) k').2 rfl _ rfl
    refine Eq.trans ?_ ih
    have hturn : ∀ z s : Int, z + s * ((j + 1 : Nat) : Int) = z + s * j + s := fun z s => by push_cast; ring
    have haside : ∀ z s : Int, z + s * (k + 1) = z + s * k + s := fun z s => by ring
    have hkda : (k + 1) * da = k * da + da := by ring
    by_cases hside : 2 * (k * da) + da ≤ 2 * (j * db) + 2 * db
    · rw [if_pos hside] at hk'
      subst hk'
      rw [clipLoop_aside steep hda hdb hlo hhi hside hgo herr]
      cases steep <;> simp only [Bool.false_eq_true, if_false, if_true, spot, Prod.mk.injEq] at herr hxy ⊢ <;>
        rw [hj', hkda, hturn, haside, hxy.1, hxy.2, ← herr] <;> congr 1 <;> ring
    · rw [if_neg hside, Int.add_zero] at hk'
      subst hk'
      rw [clipLoop_along steep hda hdb hlo hhi hside hgo herr]
      cases steep <;> simp only [Bool.false_eq_true, if_false, if_true, spot, Prod.mk.injEq] at herr hxy ⊢ <;>
        rw [hj', hturn, hxy.1, hxy.2, ← herr] <;> congr 1 <;> ring

theorem side_ne_zero (a0 a1 : Int) : (if a0 < a1 then (1 : Int) else -1) ≠ 0 := by split <;> decide

theorem side_spec (a0 a1 : Int) : a1 = a0 + (if a0 < a1 then 1 else -1) * |a1 - a0| ∧ ∀ j, 0 ≤ j ∧ j ≤ |a1 - a0| →
        min a0 a1 ≤ a0 + (if a0 < a1 then 1 else -1) * j ∧ a0 + (if a0 < a1 then 1 else -1) * j ≤ max a0 a1 := by
  by_cases h : a0 < a1
  · rw [if_pos h, abs_of_pos (by omega)]
    exact ⟨by omega, fun j hj => by omega⟩
  · rw [if_neg h, abs_of_nonpos (by omega)]
    exact ⟨by omega, fun j hj => by omega⟩

/-- When the fast loop runs. -/
def Unclipped (v : Mode) (x0 y0 x1 y1 : Int) : Prop :=
  v.bpp = 32 ∧ 0 ≤ min x0 x1 ∧ max x0 x1 < v.width ∧ 0 ≤ min y0 y1 ∧ max y0 y1 < v.height

instance (v : Mode) (x0 y0 x1 y1 : Int) : Decidable (Unclipped v x0 y0 x1 y1) := inferInstanceAs (Decidable (_ ∧ _))

theorem put32_eq_plot {v : Mode} {c : UInt32} {x y p : Int} (h32 : v.bpp = 32) (hx : 0 ≤ x ∧ x < v.width)
    (hy : 0 ≤ y ∧ y < v.height)
    (hp : p = y * v.pitch + x * 4) (m : Buffer) : m.put32 p.toNat c = plot v c m (x, y) := by
  have hwlt := v.width_lt
  have hhlt := v.height_lt
  have hux := u32_of_nonneg hx.1 (by omega)
  have huy := u32_of_nonneg hy.1 (by omega)
  have hplace : p = ((u32 y * v.pitch + u32 x * 4 : Nat) : Int) := by
    push_cast
    rw [hux, huy, hp]
  have hon : ¬ (v.width ≤ u32 x ∨ v.height ≤ u32 y) := by omega
  rw [plot, framebufferPutpixel, if_neg hon, if_pos h32, hplace, Int.toNat_natCast]
  rfl

theorem plots_draws {v : Mode} {c : UInt32} {S : Nat → Nat → Prop} : ∀ (l : List (Int × Int)) (m : Buffer),
    (∀ p ∈ l, ∀ a b, a < v.width → b < v.height → a = u32 p.1 ∧ b = u32 p.2 → S a b) → v.Draws m (l.foldl (plot v c) m) S
  | [], _, _ => Mode.draws_refl
  | p :: l, _, h => (framebufferPutpixel_draws.mono (h p List.mem_cons_self)).trans
      (plots_draws l _ fun q hq => h q (List.mem_cons_of_mem _ hq))

theorem inside {a b x : Int} (ha : -2 ^ 28 ≤ a ∧ a ≤ 2 ^ 28) (hb : -2 ^ 28 ≤ b ∧ b ≤ 2 ^ 28)
    (h : min a b ≤ x ∧ x ≤ max a b) :
    -2 ^ 30 ≤ x ∧ x ≤ 2 ^ 30 :=
  ⟨(le_min (by omega) (by omega)).trans h.1, h.2.trans (max_le (by omega) (by omega))⟩

theorem places_inside {up : Bool} {x0 y0 x1 y1 : Int} (hx : x0 ≠ x1) (hy : y0 ≠ y1) : ∀ p ∈ places x0 y0 x1 y1 up,
    (min x0 x1 ≤ p.1 ∧ p.1 ≤ max x0 x1) ∧ min y0 y1 ≤ p.2 ∧ p.2 ≤ max y0 y1 := by
  obtain ⟨-, hxin⟩ := side_spec x0 x1
  obtain ⟨-, hyin⟩ := side_spec y0 y1
  have hdx : 0 < |x1 - x0| := abs_pos.2 (by omega)
  have hdy : 0 < |y1 - y0| := abs_pos.2 (by omega)
  unfold places
  intro p hp
  obtain ⟨j, hj, rfl⟩ := List.mem_map.1 hp
  rw [List.mem_range] at hj
  by_cases hlong : |y1 - y0| < |x1 - x0|
  · rw [if_neg (not_not.2 hlong)] at hj
    have hj' : 0 ≤ (j : Int) ∧ j ≤ |x1 - x0| := by omega
    simpa only [hlong, spot, not_true, decide_false, if_false, Bool.false_eq_true] using
      ⟨hxin j hj', hyin _ (aside_bounds hdx hdy.le hj')⟩
  · rw [if_pos hlong] at hj
    have hj' : 0 ≤ (j : Int) ∧ j ≤ |y1 - y0| := by omega
    simpa only [hlong, spot, not_false_eq_true, decide_true, if_true] using
      ⟨hxin _ (aside_bounds hdy hdx.le hj'), hyin j hj'⟩

/-! ## Where they agree -/

theorem aside_tie (hda : 0 < da) : aside true da db j = aside false da db j ↔ ¬ 2 * da ∣ 2 * (j * db) + da := by
  obtain ⟨hlo, hhi⟩ := (aside_eq_iff hda).1 (rfl : aside true da db j = aside true da db j)
  have hdvd : 2 * da ∣ 2 * (j * db) + da ↔ 2 * (j * db) + da = 2 * (aside true da db j * da) := by
    refine ⟨fun h => ?_, fun h => ⟨aside true da db j, by rw [h]; ring⟩⟩
    have hquot := Int.ediv_mul_cancel h
    rw [Int.mul_left_comm _ 2 da] at hquot
    rw [aside, if_pos rfl, Int.sub_zero, hquot]
  rw [hdvd, eq_comm, aside_eq_iff hda]
  simp only [if_true, Bool.false_eq_true, if_false, Int.sub_zero] at hlo hhi ⊢
  omega

theorem ties_iff {a b : Nat} (ha : 0 < a) : (∀ j ≤ a, ¬ 2 * a ∣ 2 * (j * b) + a) ↔ a / a.gcd b % 2 = 1 := by
  obtain ⟨a', b', hco, ha', hb'⟩ := Nat.exists_coprime a b
  have hg : 0 < a.gcd b := Nat.gcd_pos_of_pos_left b ha
  generalize a.gcd b = g at *
  subst ha' hb'
  rw [Nat.mul_div_cancel _ hg]
  constructor
  · intro h
    by_contra heven
    obtain ⟨c, rfl⟩ : 2 ∣ a' := by omega
    have hodd : ¬ 2 ∣ b' := fun hb => absurd (Nat.dvd_gcd ⟨c, rfl⟩ hb) (by rw [hco]; decide)
    obtain ⟨e, he⟩ : ∃ e, b' + 1 = 2 * e := ⟨(b' + 1) / 2, by omega⟩
    refine h c ?_ ⟨e, ?_⟩
    · exact Nat.le_trans (by omega) (Nat.le_mul_of_pos_right (2 * c) hg)
    · calc 2 * (c * (b' * g)) + 2 * c * g = 2 * c * g * (b' + 1) := by ring
        _ = 2 * (2 * c * g) * e := by rw [he]; ring
  · rintro hodd j - ⟨e, he⟩
    have h2 : (2 * (j * b') + a') * g = (2 * a' * e) * g := by linarith
    have := Nat.eq_of_mul_eq_mul_right hg h2
    rw [Nat.mul_assoc] at this
    omega

variable {x0 y0 x1 y1 : Int}

theorem places_eq_iff (hx : x0 ≠ x1) (hy : y0 ≠ y1) : places x0 y0 x1 y1 true = places x0 y0 x1 y1 false ↔
    max (x1 - x0).natAbs (y1 - y0).natAbs / Int.gcd (x1 - x0) (y1 - y0) % 2 = 1 := by
  have hties : ∀ {a b : Nat}, 0 < a → ((∀ j ∈ List.range (a + 1), aside true a b (j : Nat) = aside false a b (j : Nat)) ↔
      a / a.gcd b % 2 = 1) := by
    intro a b ha
    rw [← ties_iff ha]
    refine forall_congr' fun j => ?_
    rw [List.mem_range, Nat.lt_succ_iff, aside_tie (by omega)]
    norm_cast
  have hsx := side_ne_zero x0 x1
  have hsy := side_ne_zero y0 y1
  have ha : 0 < (x1 - x0).natAbs := by omega
  have hb : 0 < (y1 - y0).natAbs := by omega
  unfold places Int.gcd
  rw [Int.abs_eq_natAbs, Int.abs_eq_natAbs]
  dsimp only
  generalize (if x0 < x1 then (1 : Int) else -1) = sx at *
  generalize (if y0 < y1 then (1 : Int) else -1) = sy at *
  generalize (x1 - x0).natAbs = a at *
  generalize (y1 - y0).natAbs = b at *
  by_cases hlong : b < a
  · simpa [hlong, spot, hsy, max_eq_left hlong.le] using hties (b := b) ha
  · simpa [hlong, spot, hsx, max_eq_right (not_lt.1 hlong), Nat.gcd_comm a] using hties (b := a) hb

section slanted

variable {v : Mode} {m : Buffer} {c : UInt32} {x0 y0 x1 y1 : Int} (hx0 : -2 ^ 28 ≤ x0 ∧ x0 ≤ 2 ^ 28)
    (hy0 : -2 ^ 28 ≤ y0 ∧ y0 ≤ 2 ^ 28)
  (hx1 : -2 ^ 28 ≤ x1 ∧ x1 ≤ 2 ^ 28) (hy1 : -2 ^ 28 ≤ y1 ∧ y1 ≤ 2 ^ 28) (hx : x0 ≠ x1) (hy : y0 ≠ y1)
include hx0 hy0 hx1 hy1 hx hy

theorem slantedLine_eq : slantedLine v m x0 y0 x1 y1 c =
    (places x0 y0 x1 y1 (¬ Unclipped v x0 y0 x1 y1)).foldl (plot v c) m := by
  obtain ⟨hxend, hxin⟩ := side_spec x0 x1
  obtain ⟨hyend, hyin⟩ := side_spec y0 y1
  have hdx : 0 < |x1 - x0| ∧ |x1 - x0| ≤ 2 ^ 29 := ⟨abs_pos.2 (by omega), abs_le.2 (by omega)⟩
  have hdy : 0 < |y1 - y0| ∧ |y1 - y0| ≤ 2 ^ 29 := ⟨abs_pos.2 (by omega), abs_le.2 (by omega)⟩
  have hsx := side_ne_zero x0 x1
  have hsy := side_ne_zero y0 y1
  unfold slantedLine places
  dsimp only
  rw [neg_neg, List.foldl_map, List.range_eq_range']
  generalize (if x0 < x1 then (1 : Int) else -1) = sx at *
  generalize (if y0 < y1 then (1 : Int) else -1) = sy at *
  generalize |x1 - x0| = dx at *
  generalize |y1 - y0| = d at *
  by_cases hfast : v.bpp = 32 ∧ 0 ≤ min x0 x1 ∧ max x0 x1 < v.width ∧ 0 ≤ min y0 y1 ∧ max y0 y1 < v.height
  · rw [if_pos hfast]
    replace hfast : Unclipped v x0 y0 x1 y1 := hfast
    obtain ⟨h32, hx0', hxw, hy0', hyh⟩ := id hfast
    have hput : ∀ j k, 0 ≤ j ∧ j ≤ dx → 0 ≤ k ∧ k ≤ d → ∀ p, p = (y0 + sy * k) * v.pitch + (x0 + sx * j) * 4 →
        ∀ m, m.put32 p.toNat c = plot v c m (x0 + sx * j, y0 + sy * k) := fun j k hj hk p hp =>
      put32_eq_plot h32 ⟨hx0'.trans (hxin j hj).1, (hxin j hj).2.trans_lt hxw⟩
        ⟨hy0'.trans (hyin k hk).1, (hyin k hk).2.trans_lt hyh⟩ hp
    by_cases hlong : d < dx
    · have h := axisLoop_eq 4 v.pitch hsx hdx.1
        ⟨hdy.1.le, hlong.le⟩ (fun j k m hj hk => hput j k hj hk _ (Int.add_comm ..) m) dx.toNat 0 0 m (by omega)
          (aside_zero hdx.1) _ rfl
      simp only [Nat.cast_zero, Int.mul_zero, Int.zero_mul, Int.add_zero, Int.sub_zero, ← hxend] at h
      simpa [hlong, hfast, spot, Int.add_comm (x0 * 4)] using h
    · have h := axisLoop_eq v.pitch 4 hsy hdy.1
        ⟨hdx.1.le, not_lt.1 hlong⟩ (fun j k m hj hk => hput k j hk hj _ rfl m) d.toNat 0 0 m (by omega)
          (aside_zero hdy.1) _ rfl
      simp only [Nat.cast_zero, Int.mul_zero, Int.zero_mul, Int.add_zero, Int.sub_zero, ← hyend] at h
      simpa [hlong, hfast, spot] using h
  · rw [if_neg hfast]
    replace hfast : ¬ Unclipped v x0 y0 x1 y1 := hfast
    by_cases hlong : d < dx
    · have h := clipLoop_eq (v := v) (c := c) false hsx hsy hdx ⟨hdy.1.le, hlong.le⟩ dx.toNat 0 0 m d.toNat (by omega)
        (aside_zero hdx.1) x1 y1
        (by rw [hxend, hyend]; rfl) x0 y0 (by simp [spot]) _ rfl
      have hfuel : (dx - -d).toNat + 1 = dx.toNat + 1 + d.toNat := by omega
      rw [hfuel, ← Int.sub_eq_add_neg]
      simpa [hlong, hfast] using h
    · have h := clipLoop_eq (v := v) (c := c) true hsx hsy hdy ⟨hdx.1.le, not_lt.1 hlong⟩ d.toNat 0 0 m dx.toNat (by omega)
        (aside_zero hdy.1)
        x1 y1 (by rw [hxend, hyend]; rfl) x0 y0 (by simp [spot]) _ rfl
      have hfuel : (dx - -d).toNat + 1 = d.toNat + 1 + dx.toNat := by omega
      rw [hfuel, ← Int.sub_eq_add_neg]
      simpa [hlong, hfast] using h

theorem slantedLine_draws : v.Draws m (slantedLine v m x0 y0 x1 y1 c)
      (fun a b => (min x0 x1 ≤ a ∧ a ≤ max x0 x1) ∧ min y0 y1 ≤ b ∧ b ≤ max y0 y1) := by
  rw [slantedLine_eq hx0 hy0 hx1 hy1 hx hy]
  refine plots_draws _ _ fun p hp a b ha hb hab => ?_
  obtain ⟨hxj, hyk⟩ := places_inside hx hy p hp
  rw [hab.1] at ha ⊢
  rw [hab.2] at hb ⊢
  rw [u32_on_screen (inside hx0 hx1 hxj) (ha.trans v.width_lt), u32_on_screen (inside hy0 hy1 hyk) (hb.trans v.height_lt)]
  exact ⟨hxj, hyk⟩

/-- **`gfx_draw_line` on a slanted line** draws its places, the ones that are rounded down only where the fast loop runs;
they are the same unless the longer side has an even number of the smallest steps. -/
theorem gfx_draw_line : (∀ v s color, (gfxDrawLine v s x0 y0 x1 y1 color).back =
      (places x0 y0 x1 y1 (¬ Unclipped v x0 y0 x1 y1)).foldl (plot v color) s.back) ∧
    (places x0 y0 x1 y1 true = places x0 y0 x1 y1 false ↔
      max (x1 - x0).natAbs (y1 - y0).natAbs / Int.gcd (x1 - x0) (y1 - y0) % 2 = 1) := by
  refine ⟨fun v s color => ?_, places_eq_iff hx hy⟩
  rw [gfxDrawLine, if_neg hy, if_neg hx, ← slantedLine_eq hx0 hy0 hx1 hy1 hx hy]
  dsimp only
  rw [(gfxAddDirtyRect_same v s _ _ _ _).2.1]

end slanted

def Display.blank : Display := ⟨fun _ => 0, fun _ => 0, ⟨0, 0, 0, 0⟩, false, false⟩

def wide : Mode := ⟨3, 2, 12, 32, by decide, by decide, by decide, by decide⟩

def narrow : Mode := ⟨2, 2, 8, 32, by decide, by decide, by decide, by decide⟩

/-- Two steps to the right and one down tie in the middle: on a screen that shows the whole line that pixel stays up, on one
that clips it it goes down. Three steps to the right and one down are the same on both. -/
theorem gfx_draw_line_tie :
    (gfxDrawLine wide .blank 0 0 2 1 0xFFFFFF).back =
    [(0, 0), (1, 0), (2, 1)].foldl (plot wide 0xFFFFFF) Display.blank.back ∧
    (gfxDrawLine narrow .blank 0 0 2 1 0xFFFFFF).back =
    [(0, 0), (1, 1), (2, 1)].foldl (plot narrow 0xFFFFFF) Display.blank.back ∧
    places 0 0 3 1 true = places 0 0 3 1 false :=
  have hline := @gfx_draw_line 0 0 2 1 (by decide) (by decide) (by decide) (by decide) (by decide) (by decide)
  have hlong := @gfx_draw_line 0 0 3 1 (by decide) (by decide) (by decide) (by decide) (by decide) (by decide)
  ⟨hline.1 wide .blank _, hline.1 narrow .blank _, hlong.2.2 (by decide)⟩

/-! ## Lines and batches -/

namespace Display

variable {v : Mode} {s : Display} {x0 y0 x1 y1 : Int} {color : UInt32}

theorem Ok.gfxDrawLine (hs : s.Ok v) (hx0 : -2 ^ 28 ≤ x0 ∧ x0 ≤ 2 ^ 28) (hy0 : -2 ^ 28 ≤ y0 ∧ y0 ≤ 2 ^ 28)
    (hx1 : -2 ^ 28 ≤ x1 ∧ x1 ≤ 2 ^ 28) (hy1 : -2 ^ 28 ≤ y1 ∧ y1 ≤ 2 ^ 28) : (gfxDrawLine v s x0 y0 x1 y1 color).Ok v := by
  have hrow : ∀ {x y w h : Int}, h ≠ 0 → ¬ LosesRow v x y w h := fun hne hl => hne hl.2.1
  have hfirst : ∀ a b : Int, (if a < b then a else b) = min a b := fun a b => by split <;> omega
  have hlength : ∀ a b : Int, (if a < b then b - a else a - b) = max a b - min a b := fun a b => by split <;> omega
  unfold Gfx.gfxDrawLine
  rw [hfirst, hfirst, hlength, hlength]
  by_cases hlevel : y0 = y1
  · rw [if_pos hlevel]
    exact hs.gfxFillRect (by omega) (by omega) (by omega) (by omega) (hrow (by omega))
  rw [if_neg hlevel]
  by_cases hupright : x0 = x1
  · rw [if_pos hupright]
    exact hs.gfxFillRect (by omega) (by omega) (by omega) (by omega) (hrow (by omega))
  rw [if_neg hupright]
  dsimp only
  obtain ⟨hfront, hback, -⟩ := gfxAddDirtyRect_same v s (min x0 x1) (min y0 y1) (max x0 x1 - min x0 x1 + 1)
    (max y0 y1 - min y0 y1 + 1)
  obtain ⟨hin, hold, hnew⟩ := gfxAddDirtyRect_spec (x := min x0 x1) (y := min y0 y1) (w := max x0 x1 - min x0 x1 + 1)
    (h := max y0 y1 - min y0 y1 + 1) (by omega) (by omega) hs.within
  refine hs.draw (S := fun a b => (min x0 x1 ≤ a ∧ a ≤ max x0 x1) ∧ min y0 y1 ≤ b ∧ b ≤ max y0 y1) ?_ hfront hin hold
    fun a b ha hb hab => hnew a b ha hb (by omega) (by omega)
  dsimp only
  rw [hback]
  exact slantedLine_draws hx0 hy0 hx1 hy1 hupright hlevel

/-- What the loop of `gfx_draw_pixels` keeps: the pixels drawn lie within the bounds, and these within the screen. -/
structure BatchOk (v : Mode) (m : Buffer) (b : Batch) : Prop where
  draws : v.Draws m b.back (fun x y => (b.minX ≤ x ∧ x ≤ b.maxX) ∧ b.minY ≤ y ∧ y ≤ b.maxY)
  least : 0 ≤ b.minX ∧ 0 ≤ b.minY
  greatest : b.maxX < v.width ∧ b.maxY < v.height

theorem BatchOk.point {m : Buffer} {b : Batch} (hb : BatchOk v m b) (p : Point) : BatchOk v m (b.point v p) := by
  have hmin : ∀ c d : Int, (if c < d then c else d) = min c d := fun c d => by split <;> omega
  have hmax : ∀ c d : Int, (if d < c then c else d) = max c d := fun c d => by split <;> omega
  unfold Batch.point
  by_cases hout : p.x < 0 ∨ v.width ≤ p.x ∨ p.y < 0 ∨ v.height ≤ p.y
  · rw [if_pos hout]
    exact hb
  rw [if_neg hout, hmin, hmin, hmax, hmax]
  obtain ⟨hx, hy⟩ : (0 ≤ p.x ∧ p.x < v.width) ∧ 0 ≤ p.y ∧ p.y < v.height := by omega
  refine ⟨?_, ⟨le_min hx.1 hb.least.1, le_min hy.1 hb.least.2⟩, ⟨max_lt hx.2 hb.greatest.1, max_lt hy.2 hb.greatest.2⟩⟩
  dsimp only
  have hold : ∀ {c n k x : Int}, n ≤ x ∧ x ≤ k → min c n ≤ x ∧ x ≤ max c k := fun h =>
    ⟨(min_le_right _ _).trans h.1, h.2.trans (le_max_right _ _)⟩
  have hnew : ∀ {c n k : Int} {x : Nat}, (x : Int) = c → min c n ≤ x ∧ x ≤ max c k := fun h =>
    h ▸ ⟨min_le_left _ _, le_max_left _ _⟩
  refine (hb.draws.mono fun x y _ _ hxy => ⟨hold hxy.1, hold hxy.2⟩).trans ?_
  have hwlt := v.width_lt
  have hhlt := v.height_lt
  by_cases h32 : v.bpp = 32
  · have hbytes : v.bytes = 4 := by rw [Mode.bytes, h32]
    rw [if_pos h32]
    refine (Mode.draws_blit (x := p.x.toNat) (w := 1) (by rw [hbytes]) (by rw [hbytes]) (by omega) (by omega)).mono
      fun x y _ _ hxy => ?_
    exact ⟨hnew (by omega), hnew (by omega)⟩
  · rw [if_neg h32]
    refine framebufferPutpixel_draws.mono fun x y _ _ hxy => ?_
    unfold u32 at hxy
    exact ⟨hnew (by omega), hnew (by omega)⟩

theorem BatchOk.points {m : Buffer} : ∀ {pixels : List Point} {b : Batch}, BatchOk v m b →
    BatchOk v m (pixels.foldl (Batch.point v) b)
  | [], _, hb => hb
  | p :: _, _, hb => (hb.point p).points

theorem Ok.gfxDrawPixels (hs : s.Ok v) (pixels : List Point) : (gfxDrawPixels v s pixels).Ok v := by
  have hwlt := v.width_lt
  have hhlt := v.height_lt
  unfold Gfx.gfxDrawPixels
  by_cases hnone : pixels = []
  · rw [if_pos hnone]
    exact hs
  rw [if_neg hnone]
  have hb : BatchOk v s.back (pixels.foldl (Batch.point v) ⟨s.back, 0x7FFFFFFF, 0x7FFFFFFF, -0x80000000, -0x80000000⟩) :=
    BatchOk.points ⟨Mode.draws_refl, by dsimp only; omega, by dsimp only; omega⟩
  generalize pixels.foldl (Batch.point v) ⟨s.back, 0x7FFFFFFF, 0x7FFFFFFF, -0x80000000, -0x80000000⟩ = b at *
  obtain ⟨hleastX, hleastY⟩ := hb.least
  obtain ⟨hgreatestX, hgreatestY⟩ := hb.greatest
  dsimp only
  by_cases hany : b.minX ≤ b.maxX ∧ b.minY ≤ b.maxY
  · rw [if_pos hany]
    exact hs.drawAdd hb.draws (by omega) (by omega) fun x y _ _ hxy => by omega
  · rw [if_neg hany]
    exact hs.draw hb.draws rfl hs.within (fun _ _ hc => hc) fun x y _ _ hxy => by omega

end Display

end EterOS.Gfx
