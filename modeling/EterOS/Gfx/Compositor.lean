import EterOS.Gfx.Draw
import EterOS.Lib.Run
/-!
# Compositor — windows, and what the screen shows after any calls

`src/kernel/gfx/window.c`.  The windows are an argument of every rendering, as their owners move and fill them in between;
so are the ticks and the theme.
-/
namespace EterOS.Gfx

open Buffer (blit digits drop put32 get32 words)

def WIN_VISIBLE : UInt32 := 1
def WIN_OPAQUE : UInt32 := 4
def WIN_GLASS : UInt32 := 8

/-- `window_t`: the order of the list is the order on the screen. -/
structure Window where
  x : Int
  y : Int
  width : Int
  height : Int
  buffer : Nat → UInt32
  flags : UInt32

/-- The colour of `blend_pixel` over `dc`, where the alpha is neither 0 nor 255. -/
def blend (sc dc : UInt32) : UInt32 :=
  let a := sc >>> 24
  let invA := 255 - a
  let rb := (((sc &&& 0xFF00FF) * a + (dc &&& 0xFF00FF) * invA) >>> 8) &&& 0xFF00FF
  let g := (((sc &&& 0x00FF00) * a + (dc &&& 0x00FF00) * invA) >>> 8) &&& 0x00FF00
  0xFF000000 ||| rb ||| g

def blendPixel (m : Buffer) (dest : Nat) (sc : UInt32) : Buffer :=
  if sc >>> 24 = 255 then m.put32 dest sc
  else if (0 : UInt32) < sc >>> 24 then m.put32 dest (blend sc (m.get32 dest))
  else m

def drawWindow (v : Mode) (clip : Rect) (win : Window) (m : Buffer) : Buffer :=
  if win.flags &&& WIN_VISIBLE = 0 then m
  else
    let xEnd := i32 (win.x + win.width)
    let yEnd := i32 (win.y + win.height)
    if clip.x + clip.w ≤ win.x ∨ clip.y + clip.h ≤ win.y ∨ xEnd ≤ clip.x ∨ yEnd ≤ clip.y then m
    else
      let drawXStart := if win.x < clip.x then clip.x else win.x
      let drawYStart := if win.y < clip.y then clip.y else win.y
      let drawXEnd := if clip.x + clip.w < xEnd then clip.x + clip.w else xEnd
      let drawYEnd := if clip.y + clip.h < yEnd then clip.y + clip.h else yEnd
      let width := (drawXEnd - drawXStart).toNat
      let height := (drawYEnd - drawYStart).toNat
      let src := fun i j : Nat => win.buffer ((drawYStart - win.y + i) * win.width + (drawXStart - win.x) + j).toNat
      if v.bpp = 32 then
        let dest := drawYStart.toNat * v.pitch + drawXStart.toNat * 4
        if win.flags &&& WIN_OPAQUE ≠ 0 then
          if width * 4 = v.pitch ∧ (width : Int) = win.width then m.blit dest (words (src 0)) (width * height * 4)
          else rows height (fun i m => m.blit (dest + i * v.pitch) (words (src i)) (width * 4)) m
        else if win.flags &&& WIN_GLASS ≠ 0 then
          rows height (fun i m => rows width (fun j m =>
            if src i j ≠ 0 then blendPixel m (dest + i * v.pitch + j * 4) (src i j) else m) m) m
        else
          rows height (fun i m => rows width (fun j m =>
            if src i j ≠ 0 then m.put32 (dest + i * v.pitch + j * 4) (src i j) else m) m) m
      else if win.flags &&& WIN_GLASS ≠ 0 then
        -- the screen cannot be read back here: what is below counts as black
        rows height (fun i m => rows width (fun j m =>
          if src i j = 0 then m
          else if (src i j >>> 24) &&& 0xFF = (255 : UInt32) then
            framebufferPutpixel v m (u32 (drawXStart + j)) (u32 (drawYStart + i)) (src i j)
          else if (0 : UInt32) < (src i j >>> 24) &&& 0xFF then
            framebufferPutpixel v m (u32 (drawXStart + j)) (u32 (drawYStart + i)) (blend (src i j) 0)
          else m) m) m
      else
        rows height (fun i m => rows width (fun j m =>
          if src i j ≠ 0 then framebufferPutpixel v m (u32 (drawXStart + j)) (u32 (drawYStart + i)) (src i j) else m) m) m

def TIMER_HZ : UInt64 := 1000

def compositorRender (v : Mode) (s : Display) (ticks lastInput : UInt64) (dark : Bool) (windows : List Window) : Display :=
  if s.asleep = false ∧ 30 * TIMER_HZ < ticks - lastInput then
    gfxPresent v (gfxAddDirtyRect v
      { s with asleep := true, back := framebufferRect v s.back 0 0 v.width v.height 0xFF000000 }
      0 0 v.width v.height)
  else if s.asleep = true then s
  else if s.valid = false then s
  else
    let back := framebufferRect v s.back (u32 s.dirty.x) (u32 s.dirty.y) (u32 s.dirty.w) (u32 s.dirty.h)
      (if dark then 0xFF202020 else 0xFFE0E0E0)
    gfxPresent v { s with back := windows.foldr (drawWindow v s.dirty) back }

/-! ## What a window draws -/

variable {v : Mode} {m : Buffer} {clip : Rect}

theorem put32_draws {x y off : Nat} {c : UInt32} (hbytes : v.bytes = 4) (hoff : off = y * v.pitch + x * 4) (hx : x < v.width)
    (hy : y < v.height) : v.Draws m (m.put32 off c) (fun x' y' => x' = x ∧ y' = y) :=
  (Mode.draws_blit (w := 1) (by rw [hoff, hbytes]) (by rw [hbytes]) (by omega) hy).mono fun _ _ _ _ h => by omega

theorem blendPixel_draws {x y off : Nat} {c : UInt32} (hbytes : v.bytes = 4) (hoff : off = y * v.pitch + x * 4)
    (hx : x < v.width)
    (hy : y < v.height) : v.Draws m (blendPixel m off c) (fun x' y' => x' = x ∧ y' = y) := by
  unfold blendPixel
  split_ifs
  · exact put32_draws hbytes hoff hx hy
  · exact put32_draws hbytes hoff hx hy
  · exact Mode.draws_refl

theorem draws_pixels {x y w h : Nat} {f : Nat → Nat → Buffer → Buffer}
    (hf : ∀ i < h, ∀ j < w, ∀ m, v.Draws m (f i j m) (fun x' y' => x' = x + j ∧ y' = y + i)) :
    v.Draws m (rows h (fun i m => rows w (fun j m => f i j m) m) m)
      (fun x' y' => x ≤ x' ∧ x' < x + w ∧ y ≤ y' ∧ y' < y + h) := by
  apply Mode.draws_rows
  intro i hi m
  apply Mode.draws_rows
  intro j hj m
  exact (hf i hi j hj m).mono fun x' y' _ _ h => by omega

/-- Clipping one direction of a window, from `a` up to `z`, to the pixels from `c` on: what is left stays within the clip. -/
theorem clip_within {c w a z lo : Int} {n : Nat} (hw : 0 ≤ w) (hlo : lo = max a c) (hn : n = (min z (c + w) - lo).toNat)
    (ha : a < c + w) : c ≤ lo ∧ lo + n ≤ c + w := by
  rw [hn, hlo]
  refine ⟨le_max_right a c, ?_⟩
  have hle : max a c ≤ c + w := max_le ha.le (Int.le_add_of_nonneg_right hw)
  rcases le_total (min z (c + w) - max a c) 0 with hneg | hpos
  · rw [Int.toNat_of_nonpos hneg, Nat.cast_zero, add_zero]
    exact hle
  · rw [Int.toNat_of_nonneg hpos, add_sub_cancel]
    exact min_le_right z (c + w)

theorem drawWindow_draws (win : Window) (hx : 0 ≤ clip.x ∧ 0 ≤ clip.w ∧ clip.x + clip.w ≤ v.width)
    (hy : 0 ≤ clip.y ∧ 0 ≤ clip.h ∧ clip.y + clip.h ≤ v.height) :
    v.Draws m (drawWindow v clip win m)
      (fun x y => (clip.x ≤ x ∧ x < clip.x + clip.w) ∧ clip.y ≤ y ∧ y < clip.y + clip.h) := by
  have hwlt := v.width_lt
  have hhlt := v.height_lt
  have hmax : ∀ a b : Int, (if a < b then b else a) = max a b := fun a b => by split <;> omega
  have hmin : ∀ a b : Int, (if b < a then b else a) = min a b := fun a b => by split <;> omega
  unfold drawWindow
  by_cases hhidden : win.flags &&& WIN_VISIBLE = 0
  · rw [if_pos hhidden]
    exact Mode.draws_refl
  rw [if_neg hhidden]
  dsimp only
  generalize i32 (win.x + win.width) = xEnd
  generalize i32 (win.y + win.height) = yEnd
  by_cases hout : clip.x + clip.w ≤ win.x ∨ clip.y + clip.h ≤ win.y ∨ xEnd ≤ clip.x ∨ yEnd ≤ clip.y
  · rw [if_pos hout]
    exact Mode.draws_refl
  rw [if_neg hout, hmax, hmax, hmin, hmin]
  simp only [not_or, not_le] at hout
  obtain ⟨hleft, htop, -, -⟩ := hout
  generalize hxs : max win.x clip.x = xs
  generalize hys : max win.y clip.y = ys
  generalize hwidth : (min xEnd (clip.x + clip.w) - xs).toNat = width
  generalize hheight : (min yEnd (clip.y + clip.h) - ys).toNat = height
  obtain ⟨hxs, hw⟩ := clip_within hx.2.1 hxs.symm hwidth.symm hleft
  obtain ⟨hys, hh⟩ := clip_within hy.2.1 hys.symm hheight.symm htop
  obtain ⟨a, rfl⟩ := Int.eq_ofNat_of_zero_le (hx.1.trans hxs)
  obtain ⟨b, rfl⟩ := Int.eq_ofNat_of_zero_le (hy.1.trans hys)
  rw [Int.toNat_natCast, Int.toNat_natCast]
  have haw : a + width ≤ v.width := by exact_mod_cast hw.trans hx.2.2
  have hbh : b + height ≤ v.height := by exact_mod_cast hh.trans hy.2.2
  have hin : ∀ {m' : Buffer}, v.Draws m m' (fun x y => a ≤ x ∧ x < a + width ∧ b ≤ y ∧ y < b + height) →
      v.Draws m m' (fun x y => (clip.x ≤ x ∧ x < clip.x + clip.w) ∧ clip.y ≤ y ∧ y < clip.y + clip.h) :=
    fun hd => hd.mono fun x y _ _ hxy => by omega
  apply hin
  clear hin hx hy hxs hys hw hh hleft htop
  have hput : ∀ {i j : Nat} {m : Buffer} {color : UInt32}, i < height → j < width →
      v.Draws m (framebufferPutpixel v m (u32 ((a : Int) + j)) (u32 ((b : Int) + i)) color)
        (fun x y => x = a + j ∧ y = b + i) :=
    fun hi hj => framebufferPutpixel_draws.mono fun x y _ _ hxy => by
      unfold u32 at hxy
      omega
  by_cases h32 : v.bpp = 32
  · have hbytes : v.bytes = 4 := by rw [Mode.bytes, h32]
    have hplace : ∀ i j : Nat, b * v.pitch + a * 4 + i * v.pitch + j * 4 = (b + i) * v.pitch + (a + j) * 4 := by
      intro i j
      rw [Nat.add_mul, Nat.add_mul]
      omega
    rw [if_pos h32]
    by_cases hopaque : win.flags &&& WIN_OPAQUE ≠ 0
    · rw [if_pos hopaque]
      by_cases hwide : width * 4 = v.pitch ∧ (width : Int) = win.width
      · rw [if_pos hwide]
        exact Mode.draws_block (by rw [hbytes]) (by rw [hbytes, hwide.1]) (by rw [hbytes]) (by omega) (by omega)
      · rw [if_neg hwide]
        refine draws_rect_rows (by omega) (by omega) fun i m => ⟨_, _, ?_, by rw [hbytes]⟩
        have := hplace i 0
        rw [hbytes]
        omega
    · rw [if_neg hopaque]
      by_cases hglass : win.flags &&& WIN_GLASS ≠ 0
      · rw [if_pos hglass]
        refine draws_pixels fun i hi j hj m => ?_
        split
        · exact blendPixel_draws hbytes (hplace i j) (by omega) (by omega)
        · exact Mode.draws_refl
      · rw [if_neg hglass]
        refine draws_pixels fun i hi j hj m => ?_
        split
        · exact put32_draws hbytes (hplace i j) (by omega) (by omega)
        · exact Mode.draws_refl
  · rw [if_neg h32]
    by_cases hglass : win.flags &&& WIN_GLASS ≠ 0
    · rw [if_pos hglass]
      refine draws_pixels fun i hi j hj m => ?_
      split_ifs
      · exact Mode.draws_refl
      · exact hput hi hj
      · exact hput hi hj
      · exact Mode.draws_refl
    · rw [if_neg hglass]
      refine draws_pixels fun i hi j hj m => ?_
      split
      · exact hput hi hj
      · exact Mode.draws_refl

theorem drawWindows_draws (hx : 0 ≤ clip.x ∧ 0 ≤ clip.w ∧ clip.x + clip.w ≤ v.width)
    (hy : 0 ≤ clip.y ∧ 0 ≤ clip.h ∧ clip.y + clip.h ≤ v.height) :
    ∀ windows : List Window, v.Draws m (windows.foldr (drawWindow v clip) m)
      (fun x y => (clip.x ≤ x ∧ x < clip.x + clip.w) ∧ clip.y ≤ y ∧ y < clip.y + clip.h)
  | [] => Mode.draws_refl
  | win :: windows => (drawWindows_draws hx hy windows).trans (drawWindow_draws win hx hy)

/-! ## Presenting -/

namespace Display

variable {s : Display}

def Agree (v : Mode) (s : Display) : Prop := ∀ x y, x < v.width → y < v.height → v.pixel s.front x y = v.pixel s.back x y

theorem Within.dirty (hs : s.Within v) : ∃ x y w h : Nat, s.dirty = ⟨x, y, w, h⟩ ∧
    (u32 s.dirty.x = x ∧ u32 s.dirty.y = y ∧ u32 s.dirty.w = w ∧ u32 s.dirty.h = h) ∧ x + w ≤ v.width ∧
    y + h ≤ v.height := by
  have hwlt := v.width_lt
  have hhlt := v.height_lt
  unfold Within at hs
  generalize s.dirty = r at hs ⊢
  obtain ⟨x, y, w, h⟩ := r
  obtain ⟨⟨hx, hw, hxw⟩, hy, hh, hyh⟩ := hs
  dsimp only at hx hw hxw hy hh hyh
  obtain ⟨x, rfl⟩ := Int.eq_ofNat_of_zero_le hx
  obtain ⟨y, rfl⟩ := Int.eq_ofNat_of_zero_le hy
  obtain ⟨w, rfl⟩ := Int.eq_ofNat_of_zero_le hw
  obtain ⟨h, rfl⟩ := Int.eq_ofNat_of_zero_le hh
  have hsmall {n : Nat} (hn : n < 2 ^ 32) : u32 n = n :=
    Int.ofNat_inj.1 (u32_of_nonneg (Int.natCast_nonneg n) (by exact_mod_cast hn))
  exact ⟨x, y, w, h, rfl, ⟨hsmall (by omega), hsmall (by omega), hsmall (by omega), hsmall (by omega)⟩, by omega, by omega⟩

theorem Ok.gfxPresent (hs : s.Ok v) :
    (gfxPresent v s).front = (gfxPresent v s).back ∧ (gfxPresent v s).valid = false ∧ (gfxPresent v s).Ok v := by
  unfold Gfx.gfxPresent
  by_cases hvalid : s.valid = false
  · rw [if_pos hvalid]
    refine ⟨funext fun i => ?_, hvalid, hs⟩
    by_contra hne
    obtain ⟨x, y, -, -, -, hc⟩ := hs.shown i hne
    have hin := hc.1
    rw [hvalid] at hin
    cases hin
  rw [if_neg hvalid]
  have hsame : framebufferFlushRect v s.front s.back (u32 s.dirty.x) (u32 s.dirty.y) (u32 s.dirty.w) (u32 s.dirty.h) =
      s.back := by
    obtain ⟨x, y, w, h, hdirty, ⟨hx, hy, hw, hh⟩, hxw, hyh⟩ := hs.within.dirty
    rw [hx, hy, hw, hh]
    funext i
    obtain ⟨heither, hrect⟩ := framebufferFlushRect_spec s.front s.back hxw hyh i
    by_cases he : s.front i = s.back i
    · rcases heither with h | h
      · rw [h, he]
      · exact h
    · obtain ⟨x', y', -, -, hon, -, hx', hy'⟩ := hs.shown i he
      rw [hdirty] at hx' hy'
      dsimp only at hx' hy'
      exact hrect ⟨x', y', by omega, by omega, hon⟩
  refine ⟨hsame, rfl, fun i hi => absurd (congrFun hsame i) hi, ?_⟩
  exact ⟨⟨le_rfl, le_rfl, Int.natCast_nonneg _⟩, le_rfl, le_rfl, Int.natCast_nonneg _⟩

/-- **What the screen shows**: it lacks nothing outside the dirty rectangle, which lies within the screen. -/
structure Shows (v : Mode) (s : Display) : Prop where
  outside : ∀ x y, x < v.width → y < v.height → ¬ s.Covers x y → v.pixel s.front x y = v.pixel s.back x y
  within : s.Within v

theorem Ok.shows (hs : s.Ok v) : s.Shows v := by
  refine ⟨fun x y hx hy hc => Buffer.le_congr fun i hlo hhi => ?_, hs.within⟩
  by_contra hne
  obtain ⟨x', y', hx', hy', hon, hc'⟩ := hs.shown i hne
  have hpix : v.OnPixel x y i := ⟨i - (y * v.pitch + x * v.bytes), by omega, by omega⟩
  obtain ⟨rfl, rfl⟩ := hpix.unique hon hx hx'
  exact hc hc'

theorem Ok.add {x y w h : Int} (hs : s.Ok v) (hx : -2 ^ 31 ≤ x + w ∧ x + w < 2 ^ 31)
    (hy : -2 ^ 31 ≤ y + h ∧ y + h < 2 ^ 31) :
    (gfxAddDirtyRect v s x y w h).Ok v :=
  hs.drawAdd (S := fun _ _ => False) Mode.draws_refl hx hy fun _ _ _ _ hf => hf.elim

/-- **`compositor_render`**: what it draws is in the dirty rectangle, where this has a height. -/
theorem Ok.compositorRender (hs : s.Ok v) (ticks lastInput : UInt64) (dark : Bool) (windows : List Window)
    (hrow : s.asleep = false → ¬ 30 * TIMER_HZ < ticks - lastInput → s.valid = true →
      ¬ LosesRow v s.dirty.x s.dirty.y s.dirty.w s.dirty.h) : (compositorRender v s ticks lastInput dark windows).Ok v := by
  unfold Gfx.compositorRender
  by_cases hidle : s.asleep = false ∧ 30 * TIMER_HZ < ticks - lastInput
  · rw [if_pos hidle]
    have hwlt := v.width_lt
    have hhlt := v.height_lt
    have hsleep : ({ s with asleep := true } : Display).Ok v := ⟨hs.shown, hs.within⟩
    refine Ok.gfxPresent (hsleep.drawAdd (framebufferRect_draws (by omega) (by omega) _) (by omega) (by omega)
      fun a b ha hb hab => ?_) |>.2.2
    omega
  rw [if_neg hidle]
  by_cases hasleep : s.asleep = true
  · rw [if_pos hasleep]
    exact hs
  rw [if_neg hasleep]
  by_cases hvalid : s.valid = false
  · rw [if_pos hvalid]
    exact hs
  rw [if_neg hvalid]
  have hawake : s.asleep = false := Bool.eq_false_of_not_eq_true hasleep
  have hkeeps := hrow hawake (fun hlt => hidle ⟨hawake, hlt⟩) (Bool.eq_true_of_not_eq_false hvalid)
  obtain ⟨x, y, w, h, hdirty, ⟨hx, hy, hw, hh⟩, hxw, hyh⟩ := hs.within.dirty
  have hall : v.Draws s.back (windows.foldr (drawWindow v s.dirty) (framebufferRect v s.back (u32 s.dirty.x) (u32 s.dirty.y)
      (u32 s.dirty.w) (u32 s.dirty.h) (if dark then 0xFF202020 else 0xFFE0E0E0)))
      (fun a b => (s.dirty.x ≤ a ∧ a < s.dirty.x + s.dirty.w) ∧ s.dirty.y ≤ b ∧ b < s.dirty.y + s.dirty.h) := by
    have hwlt := v.width_lt
    have hhlt := v.height_lt
    rw [hx, hy, hw, hh]
    refine ((framebufferRect_draws (by omega) (by omega) _).mono fun a b ha hb hab => ?_).trans
      (drawWindows_draws hs.within.1 hs.within.2 windows)
    rw [hdirty] at hkeeps ⊢
    unfold LosesRow at hkeeps
    dsimp only at hkeeps ⊢
    omega
  have hdrawn : Ok v { s with
      back := windows.foldr (drawWindow v s.dirty) (framebufferRect v s.back (u32 s.dirty.x) (u32 s.dirty.y)
        (u32 s.dirty.w) (u32 s.dirty.h) (if dark then 0xFF202020 else 0xFFE0E0E0)) } :=
    hs.draw hall rfl hs.within (fun _ _ hc => hc) fun a b _ _ hab => ⟨Bool.eq_true_of_not_eq_false hvalid, hab⟩
  exact hdrawn.gfxPresent.2.2

end Display

/-! ## Runs -/

inductive GfxCall where
  | putPixel (x y : Int) (color : UInt32)
  | fillRect (x y w h : Int) (color : UInt32)
  | drawRect (x y w h : Int) (color : UInt32)
  | drawLine (x0 y0 x1 y1 : Int) (color : UInt32)
  | drawPixels (pixels : List Point)
  | invalidate (win : Option Window)
  | render (ticks lastInput : UInt64) (dark : Bool) (windows : List Window)
  | present

def Coordinate (x : Int) : Prop := -2 ^ 28 ≤ x ∧ x ≤ 2 ^ 28

def Size (w : Int) : Prop := 0 ≤ w ∧ w < 2 ^ 28

def Window.InRange (win : Window) : Prop := Coordinate win.x ∧ Coordinate win.y ∧ Size win.width ∧ Size win.height

def GfxCall.InRange : GfxCall → Prop
  | .putPixel x y _ => Coordinate x ∧ Coordinate y
  | .fillRect x y w h _ | .drawRect x y w h _ => Coordinate x ∧ Coordinate y ∧ Size w ∧ Size h
  | .drawLine x0 y0 x1 y1 _ => Coordinate x0 ∧ Coordinate y0 ∧ Coordinate x1 ∧ Coordinate y1
  | .drawPixels pixels => ∀ p ∈ pixels, Coordinate p.x ∧ Coordinate p.y
  | .invalidate win => ∀ w, win = some w → w.InRange
  | .render _ _ _ windows => ∀ w ∈ windows, w.InRange
  | .present => True

namespace Display

variable {s : Display}

def step (v : Mode) (s : Display) : GfxCall → Display
  | .putPixel x y color => gfxPutPixel v s x y color
  | .fillRect x y w h color => gfxFillRect v s x y w h color
  | .drawRect x y w h color => gfxDrawRect v s x y w h color
  | .drawLine x0 y0 x1 y1 color => gfxDrawLine v s x0 y0 x1 y1 color
  | .drawPixels pixels => gfxDrawPixels v s pixels
  | .invalidate none => s
  | .invalidate (some win) => gfxAddDirtyRect v s win.x win.y win.width win.height
  | .render ticks lastInput dark windows => compositorRender v s ticks lastInput dark windows
  | .present => gfxPresent v s

/-- The call fills no rectangle that has a width but no height, at 24 bits: neither its own, nor the dirty one. -/
def Tall (v : Mode) (s : Display) : GfxCall → Prop
  | .fillRect x y w h _ => ¬ LosesRow v x y w h
  | .render ticks lastInput _ _ => s.asleep = false → ¬ 30 * TIMER_HZ < ticks - lastInput → s.valid = true →
      ¬ LosesRow v s.dirty.x s.dirty.y s.dirty.w s.dirty.h
  | _ => True

theorem Ok.step (hs : s.Ok v) {call : GfxCall} (hc : call.InRange) (ht : s.Tall v call) : (s.step v call).Ok v := by
  unfold GfxCall.InRange Window.InRange Coordinate Size at hc
  cases call with
  | putPixel x y color => exact hs.gfxPutPixel hc.1 hc.2
  | fillRect x y w h color => exact hs.gfxFillRect (by omega) (by omega) (by omega) (by omega) ht
  | drawRect x y w h color => exact hs.gfxDrawRect hc.1 hc.2.1 hc.2.2.1 hc.2.2.2
  | drawLine x0 y0 x1 y1 color => exact hs.gfxDrawLine hc.1 hc.2.1 hc.2.2.1 hc.2.2.2
  | drawPixels pixels => exact hs.gfxDrawPixels pixels
  | invalidate win =>
    cases win with
    | none => exact hs
    | some win =>
      have hw := hc win rfl
      exact hs.add (by omega) (by omega)
  | render ticks lastInput dark windows => exact hs.compositorRender ticks lastInput dark windows ht
  | present => exact hs.gfxPresent.2.2

/-- **Presenting shows what was drawn**, after any calls of which none fills a rectangle that has no height at 24 bits. -/
theorem gfx_shows (v : Mode) (s : Display) (hsame : s.front = s.back) (hin : s.Within v) (calls : List GfxCall)
    (hrange : ∀ call ∈ calls, call.InRange) (ht : Run.Guarded (step v) (Tall v) s calls) :
    ∀ s' ∈ Run.states (step v) s calls, s'.Shows v ∧ (gfxPresent v s').Agree v := by
  have hstart : s.Ok v := ⟨fun i hi => absurd (congrFun hsame i) hi, hin⟩
  have hboth : Run.Guarded (step v) (fun s call => call.InRange ∧ s.Tall v call) s calls := by
    clear hstart hin hsame
    induction calls generalizing s with
    | nil => trivial
    | cons call calls ih =>
      exact ⟨⟨hrange call List.mem_cons_self, ht.1⟩, ih _ (fun c hc => hrange c (List.mem_cons_of_mem _ hc)) ht.2⟩
  intro s' hs'
  have hok := Run.states_forall (P := Ok v) (fun s call hs hc => Ok.step hs hc.1 hc.2) calls s hstart hboth s' hs'
  refine ⟨hok.shows, fun x y _ _ => ?_⟩
  rw [hok.gfxPresent.1]

def small (bpp : Nat) (hfits : 4 * (bpp / 8) ≤ 16) : Mode := ⟨4, 4, 16, bpp, hfits, by decide, by decide, by decide⟩

theorem blank_within (v : Mode) : blank.Within v :=
  ⟨⟨Int.le_refl _, Int.le_refl _, Int.natCast_nonneg _⟩, Int.le_refl _, Int.le_refl _, Int.natCast_nonneg _⟩

/-- A slanted line half off the screen, a rectangle without a height, and the screen. -/
theorem gfx_shows_line :
    let calls : List GfxCall := [.drawLine (-1) 0 3 2 0xFFFFFF, .fillRect 0 0 1 0 1, .render 0 0 true [], .present]
    let s := calls.foldl (step (small 32 (by decide))) blank
    s.Shows (small 32 (by decide)) ∧ (gfxPresent (small 32 (by decide)) s).Agree (small 32 (by decide)) := by
  intro calls s
  refine gfx_shows _ blank rfl (blank_within _) calls ?_ ?_ s (Run.foldl_mem_states calls blank)
  · intro call hc
    simp only [calls, List.mem_cons, List.not_mem_nil, or_false] at hc
    rcases hc with rfl | rfl | rfl | rfl
    · exact ⟨⟨by decide, by decide⟩, ⟨by decide, by decide⟩, ⟨by decide, by decide⟩, by decide, by decide⟩
    · exact ⟨⟨by decide, by decide⟩, ⟨by decide, by decide⟩, ⟨by decide, by decide⟩, by decide, by decide⟩
    · intro w hw
      cases hw
    · trivial
  · have h32 : ∀ {x y w h : Int}, ¬ LosesRow (small 32 (by decide)) x y w h := fun hl => absurd hl.1 (by decide)
    exact ⟨trivial, h32, fun _ _ _ => h32, trivial, trivial⟩

/-- At 24 bits a rectangle of one pixel by none is drawn, is in no dirty rectangle and is never presented. -/
theorem row_lost : (GfxCall.fillRect 0 0 1 0 1).InRange ∧
    ¬ (blank.step (small 24 (by decide)) (.fillRect 0 0 1 0 1)).Shows (small 24 (by decide)) ∧
    ¬ (gfxPresent (small 24 (by decide)) (blank.step (small 24 (by decide)) (.fillRect 0 0 1 0 1))).Agree
      (small 24 (by decide)) := by
  have hpixels : (small 24 (by decide)).pixel (blank.step (small 24 (by decide)) (.fillRect 0 0 1 0 1)).front 0 0 ≠
      (small 24 (by decide)).pixel (blank.step (small 24 (by decide)) (.fillRect 0 0 1 0 1)).back 0 0 := by decide +kernel
  refine ⟨⟨⟨by decide, by decide⟩, ⟨by decide, by decide⟩, ⟨by decide, by decide⟩, by decide, by decide⟩, fun h => ?_,
    fun h => ?_⟩
  · refine hpixels (h.outside 0 0 (by decide) (by decide) fun hc => ?_)
    exact absurd hc.1 (by decide)
  · exact hpixels (h 0 0 (by decide) (by decide))

end Display

end EterOS.Gfx
