import EterOS.Lib.Bytes
import Mathlib.Algebra.Order.Ring.Nat
/-!
# Framebuffer — what the drawing functions write

`src/kernel/drivers/video/framebuffer.c`, over the bytes of the front and of the back buffer.  What a function writes is
said in pixels: `Draws` lists the pixels whose bytes it may have changed, at any depth and with any padding behind the rows.
-/
namespace EterOS.Gfx

open Buffer (blit digits drop put32 words)

/-- The mode `framebuffer_init` was given: rows fit the pitch, and `fb_size_bytes` its 32 bits. -/
structure Mode where
  width : Nat
  height : Nat
  pitch : Nat
  bpp : Nat
  fits : width * (bpp / 8) ≤ pitch
  size : height * pitch < 2 ^ 32
  width_lt : width < 2 ^ 31
  height_lt : height < 2 ^ 31

namespace Mode

def bytes (v : Mode) : Nat := v.bpp / 8

def OnPixel (v : Mode) (x y i : Nat) : Prop := ∃ k, k < v.bytes ∧ i = y * v.pitch + x * v.bytes + k

def pixel (v : Mode) (m : Buffer) (x y : Nat) : Nat := m.le (y * v.pitch + x * v.bytes) v.bytes

def Draws (v : Mode) (m m' : Buffer) (S : Nat → Nat → Prop) : Prop :=
  ∀ i, m' i ≠ m i → ∃ x y, S x y ∧ x < v.width ∧ y < v.height ∧ v.OnPixel x y i

end Mode

def rgb565 (color : UInt32) : UInt32 :=
  let r := (color >>> 16) &&& 0xFF
  let g := (color >>> 8) &&& 0xFF
  let b := color &&& 0xFF
  ((r >>> 3) <<< 11) ||| ((g >>> 2) <<< 5) ||| (b >>> 3)

def rows : Nat → (Nat → Buffer → Buffer) → Buffer → Buffer
  | 0, _, m => m
  | n + 1, f, m => f n (rows n f m)

def memset32 (m : Buffer) (off : Nat) (c : UInt32) (n : Nat) : Buffer := m.blit off (fun i => digits c.toNat (i % 4)) (n * 4)

def memset16 (m : Buffer) (off : Nat) (c : UInt32) (n : Nat) : Buffer := m.blit off (fun i => digits c.toNat (i % 2)) (n * 2)

def framebufferPutpixel (v : Mode) (m : Buffer) (x y : Nat) (color : UInt32) : Buffer :=
  if v.width ≤ x ∨ v.height ≤ y then m
  else if v.bpp = 32 then m.blit (y * v.pitch + x * 4) (digits color.toNat) 4
  else if v.bpp = 24 then m.blit (y * v.pitch + x * (v.bpp / 8)) (digits color.toNat) 3
  else if v.bpp = 16 then m.blit (y * v.pitch + x * (v.bpp / 8)) (digits (rgb565 color).toNat) 2
  else m

/-- `framebuffer_rect`: at 24 bits the first row is drawn before the rows are counted. -/
def framebufferRect (v : Mode) (m : Buffer) (x y w h : Nat) (color : UInt32) : Buffer :=
  if v.width ≤ x ∨ v.height ≤ y then m
  else
    let w := if v.width < (x + w) % 2 ^ 32 then v.width - x else w
    let h := if v.height < (y + h) % 2 ^ 32 then v.height - y else h
    if v.bpp = 32 then
      let base := y * v.pitch + x * 4
      if w * 4 = v.pitch then memset32 m base color (w * h)
      -- narrow rows are stored pixel by pixel, which `memset32` does as well
      else rows h (fun i m => memset32 m (base + i * v.pitch) color w) m
    else if v.bpp = 24 then
      let first := y * v.pitch + x * 3
      let m := rows w (fun j m => m.blit (first + j * 3) (digits color.toNat) 3) m
      rows (h - 1) (fun i m => m.blit (first + (i + 1) * v.pitch) (m.drop first) (w * 3)) m
    else if v.bpp = 16 then
      let base := y * v.pitch + x * 2
      if w * 2 = v.pitch then memset16 m base (rgb565 color) (w * h)
      else rows h (fun i m => memset16 m (base + i * v.pitch) (rgb565 color) w) m
    else rows h (fun i m => rows w (fun j m => framebufferPutpixel v m (x + j) (y + i) color) m) m

def framebufferFlushRect (v : Mode) (front back : Buffer) (x y w h : Nat) : Buffer :=
  if v.width ≤ x then front
  else if v.height ≤ y then front
  else
    let w := if v.width < (x + w) % 2 ^ 32 then v.width - x else w
    let h := if v.height < (y + h) % 2 ^ 32 then v.height - y else h
    if w = 0 ∨ h = 0 then front
    else
      let base := y * v.pitch + x * v.bytes
      if w * v.bytes = v.pitch then front.blit base (back.drop base) (w * v.bytes * h)
      else rows h (fun i m => m.blit (base + i * v.pitch) (back.drop (base + i * v.pitch)) (w * v.bytes)) front

/-! ## Pixels -/

namespace Mode

variable {v : Mode} {m m' m'' : Buffer} {S T : Nat → Nat → Prop} {x y w h i : Nat}

theorem draws_refl : v.Draws m m S := fun _ h => absurd rfl h

theorem Draws.trans (h : v.Draws m m' S) (h' : v.Draws m' m'' S) : v.Draws m m'' S := by
  intro i hi
  by_cases he : m' i = m i
  · exact h' i fun hs => hi (hs.trans he)
  · exact h i he

theorem Draws.mono (h : v.Draws m m' S) (hST : ∀ x y, x < v.width → y < v.height → S x y → T x y) : v.Draws m m' T := by
  intro i hi
  obtain ⟨x, y, hS, hx, hy, hon⟩ := h i hi
  exact ⟨x, y, hST x y hx hy hS, hx, hy, hon⟩

/-- **The loop rule**: what every turn of a loop draws in, the loop does. -/
theorem draws_rows {f : Nat → Buffer → Buffer} : ∀ {n : Nat}, (∀ i < n, ∀ m, v.Draws m (f i m) S) → v.Draws m (rows n f m) S
  | 0, _ => draws_refl
  | n + 1, hf => (draws_rows fun i hi => hf i (Nat.lt_succ_of_lt hi)).trans (hf n (Nat.lt_succ_self n) _)

theorem draws_blit {src : Buffer} {off n : Nat} (hoff : off = y * v.pitch + x * v.bytes) (hn : n = w * v.bytes)
    (hx : x + w ≤ v.width) (hy : y < v.height) :
    v.Draws m (m.blit off src n) (fun x' y' => x ≤ x' ∧ x' < x + w ∧ y' = y) := by
  intro i hi
  have hlo : off ≤ i := by
    by_contra hlt
    exact hi (Buffer.blit_of_lt (Nat.lt_of_not_le hlt))
  have hhi : i < off + n := by
    by_contra hge
    exact hi (Buffer.blit_of_ge (Nat.le_of_not_lt hge))
  have hpos : 0 < v.bytes := by
    apply Nat.pos_of_ne_zero
    intro h0
    rw [h0, Nat.mul_zero] at hn
    omega
  have hcol : (i - off) / v.bytes < w := by
    rw [Nat.div_lt_iff_lt_mul hpos, ← hn]
    omega
  refine ⟨x + (i - off) / v.bytes, y, ⟨Nat.le_add_right .., by omega, rfl⟩, by omega, hy, (i - off) % v.bytes,
    Nat.mod_lt _ hpos, ?_⟩
  have hdiv := Nat.div_add_mod (i - off) v.bytes
  rw [Nat.mul_comm] at hdiv
  rw [Nat.add_mul]
  omega

theorem draws_block {src : Buffer} {off n : Nat} (hoff : off = y * v.pitch + x * v.bytes) (hw : w * v.bytes = v.pitch)
    (hn : n = w * h * v.bytes) (hx : x + w ≤ v.width) (hy : y + h ≤ v.height) :
    v.Draws m (m.blit off src n) (fun x' y' => x ≤ x' ∧ x' < x + w ∧ y ≤ y' ∧ y' < y + h) := by
  intro i hi
  have hlo : off ≤ i := by
    by_contra hlt
    exact hi (Buffer.blit_of_lt (Nat.lt_of_not_le hlt))
  have hhi : i < off + n := by
    by_contra hge
    exact hi (Buffer.blit_of_ge (Nat.le_of_not_lt hge))
  have hn' : n = h * v.pitch := by rw [hn, ← hw, Nat.mul_right_comm, Nat.mul_comm]
  have hpitch : 0 < v.pitch := by
    apply Nat.pos_of_ne_zero
    intro h0
    rw [h0, Nat.mul_zero] at hn'
    omega
  have hrow : (i - off) / v.pitch < h := by
    rw [Nat.div_lt_iff_lt_mul hpitch, ← hn']
    omega
  have hpos : 0 < v.bytes := by
    apply Nat.pos_of_ne_zero
    intro h0
    rw [h0, Nat.mul_zero] at hw
    omega
  have hcol : (i - off) % v.pitch / v.bytes < w := by
    rw [Nat.div_lt_iff_lt_mul hpos, hw]
    exact Nat.mod_lt _ hpitch
  refine ⟨x + (i - off) % v.pitch / v.bytes, y + (i - off) / v.pitch,
    ⟨Nat.le_add_right .., by omega, Nat.le_add_right .., by omega⟩,
    by omega, by omega, (i - off) % v.pitch % v.bytes, Nat.mod_lt _ hpos, ?_⟩
  have hdiv := Nat.div_add_mod (i - off) v.pitch
  have hdiv' := Nat.div_add_mod ((i - off) % v.pitch) v.bytes
  rw [Nat.mul_comm] at hdiv hdiv'
  rw [Nat.add_mul, Nat.add_mul]
  omega

theorem OnPixel.unique {x y x' y' i : Nat} (h : v.OnPixel x y i) (h' : v.OnPixel x' y' i) (hx : x < v.width)
    (hx' : x' < v.width) :
    x' = x ∧ y' = y := by
  obtain ⟨k, hk, hi⟩ := h
  obtain ⟨k', hk', hi'⟩ := h'
  have hcol : ∀ {x k : Nat}, x < v.width → k < v.bytes → x * v.bytes + k < v.pitch := by
    intro x k hx hk
    have hfits := v.fits
    have hle : (x + 1) * v.bytes ≤ v.width * v.bytes := Nat.mul_le_mul_right _ hx
    rw [Nat.add_mul, Nat.one_mul] at hle
    exact Nat.lt_of_lt_of_le (by omega) (hle.trans hfits)
  have hsplit : ∀ {x y k : Nat}, i = y * v.pitch + x * v.bytes + k → i = v.pitch * y + (x * v.bytes + k) := by
    intro x y k h
    rw [h, Nat.mul_comm v.pitch, Nat.add_assoc]
  have hlt := hcol hx hk
  have hlt' := hcol hx' hk'
  have hy : y = i / v.pitch := by
    rw [hsplit hi, Nat.mul_add_div (by omega), Nat.div_eq_of_lt hlt, Nat.add_zero]
  have hy' : y' = i / v.pitch := by
    rw [hsplit hi', Nat.mul_add_div (by omega), Nat.div_eq_of_lt hlt', Nat.add_zero]
  have hmod : x * v.bytes + k = x' * v.bytes + k' := by
    have h1 := hsplit hi
    have h2 := hsplit hi'
    rw [hy] at h1
    rw [hy'] at h2
    omega
  have hdiv : ∀ {x k : Nat}, k < v.bytes → (x * v.bytes + k) / v.bytes = x := by
    intro x k hk
    rw [Nat.mul_comm, Nat.mul_add_div (by omega), Nat.div_eq_of_lt hk, Nat.add_zero]
  refine ⟨?_, hy'.trans hy.symm⟩
  rw [← hdiv (x := x) hk, ← hdiv (x := x') hk', hmod]

end Mode

variable {v : Mode} {m front back : Buffer} {x y w h i : Nat} {color : UInt32}

theorem framebufferPutpixel_draws : v.Draws m (framebufferPutpixel v m x y color) (fun x' y' => x' = x ∧ y' = y) := by
  unfold framebufferPutpixel
  by_cases hout : v.width ≤ x ∨ v.height ≤ y
  · rw [if_pos hout]
    exact Mode.draws_refl
  rw [if_neg hout]
  have hone : ∀ {src : Buffer} {off n : Nat}, off = y * v.pitch + x * v.bytes → n = 1 * v.bytes →
      v.Draws m (m.blit off src n) (fun x' y' => x' = x ∧ y' = y) := fun hoff hn =>
    (Mode.draws_blit hoff hn (by omega) (by omega)).mono fun x' y' _ _ h => by omega
  by_cases h32 : v.bpp = 32
  · rw [if_pos h32]
    exact hone (by rw [Mode.bytes, h32]) (by rw [Mode.bytes, h32])
  rw [if_neg h32]
  by_cases h24 : v.bpp = 24
  · rw [if_pos h24]
    exact hone rfl (by rw [Mode.bytes, h24])
  rw [if_neg h24]
  by_cases h16 : v.bpp = 16
  · rw [if_pos h16]
    exact hone rfl (by rw [Mode.bytes, h16])
  · rw [if_neg h16]
    exact Mode.draws_refl

theorem clip_spec {x w width : Nat} (hx : x < width) (hw : x + w < 2 ^ 32) :
    (if width < (x + w) % 2 ^ 32 then width - x else w) ≤ w ∧
    x + (if width < (x + w) % 2 ^ 32 then width - x else w) ≤ width := by
  rw [Nat.mod_eq_of_lt hw]
  split <;> omega

theorem draws_rect_rows {f : Nat → Buffer → Buffer} (hx : x + w ≤ v.width) (hy : y + h ≤ v.height)
    (hf : ∀ i m, ∃ src off, off = (y + i) * v.pitch + x * v.bytes ∧ f i m = m.blit off src (w * v.bytes)) :
    v.Draws m (rows h f m) (fun x' y' => x ≤ x' ∧ x' < x + w ∧ y ≤ y' ∧ y' < y + h) := by
  apply Mode.draws_rows
  intro i hi m
  obtain ⟨src, off, hoff, he⟩ := hf i m
  rw [he]
  exact (Mode.draws_blit hoff rfl hx (by omega)).mono fun x' y' _ _ hxy => by omega

/-- **`framebuffer_rect`** draws in its rectangle, and at 24 bits in its first row where it has no height. -/
theorem framebufferRect_draws (hw : x + w < 2 ^ 32) (hh : y + h < 2 ^ 32) (color : UInt32) :
    v.Draws m (framebufferRect v m x y w h color)
      (fun x' y' => x ≤ x' ∧ x' < x + w ∧ y ≤ y' ∧ (y' < y + h ∨ v.bpp = 24 ∧ y' = y)) := by
  unfold framebufferRect
  by_cases hout : v.width ≤ x ∨ v.height ≤ y
  · rw [if_pos hout]
    exact Mode.draws_refl
  rw [if_neg hout]
  obtain ⟨hwle, hwfit⟩ := clip_spec (show x < v.width by omega) hw
  obtain ⟨hhle, hhfit⟩ := clip_spec (show y < v.height by omega) hh
  dsimp only
  generalize (if v.width < (x + w) % 2 ^ 32 then v.width - x else w) = w' at *
  generalize (if v.height < (y + h) % 2 ^ 32 then v.height - y else h) = h' at *
  have hin : ∀ {m' : Buffer}, v.Draws m m' (fun x' y' => x ≤ x' ∧ x' < x + w' ∧ y ≤ y' ∧ y' < y + h') →
      v.Draws m m' (fun x' y' => x ≤ x' ∧ x' < x + w ∧ y ≤ y' ∧ (y' < y + h ∨ v.bpp = 24 ∧ y' = y)) :=
    fun hd => hd.mono fun x' y' _ _ hxy => ⟨hxy.1, by omega, hxy.2.2.1, .inl (by omega)⟩
  have hrow : ∀ i, y * v.pitch + x * v.bytes + i * v.pitch = (y + i) * v.pitch + x * v.bytes := by
    intro i
    rw [Nat.add_mul]
    omega
  by_cases h32 : v.bpp = 32
  · have hbytes : v.bytes = 4 := by rw [Mode.bytes, h32]
    rw [if_pos h32, ← hbytes]
    by_cases hwide : w' * v.bytes = v.pitch
    · rw [if_pos hwide]
      exact hin (Mode.draws_block rfl hwide (by rw [hbytes]) hwfit hhfit)
    · rw [if_neg hwide]
      exact hin (draws_rect_rows hwfit hhfit fun i m => ⟨_, _, hrow i, by rw [memset32, hbytes]⟩)
  rw [if_neg h32]
  by_cases h24 : v.bpp = 24
  · have hbytes : v.bytes = 3 := by rw [Mode.bytes, h24]
    rw [if_pos h24, ← hbytes]
    have hfirst : v.Draws m (rows w' (fun j m =>
      m.blit (y * v.pitch + x * v.bytes + j * v.bytes) (digits color.toNat) v.bytes) m)
        (fun x' y' => x ≤ x' ∧ x' < x + w' ∧ y' = y) := by
      apply Mode.draws_rows
      intro j hj m
      have hcol : y * v.pitch + x * v.bytes + j * v.bytes = y * v.pitch + (x + j) * v.bytes := by
        rw [Nat.add_mul]
        omega
      exact (Mode.draws_blit hcol (Nat.one_mul _).symm (by omega) (by omega)).mono fun x' y' _ _ hxy => by omega
    refine (hfirst.mono fun x' y' _ _ hxy => ⟨hxy.1, by omega, by omega, .inr ⟨h24, hxy.2.2⟩⟩).trans ?_
    apply Mode.draws_rows
    intro i hi m
    exact (Mode.draws_blit (hrow (i + 1)) rfl hwfit (by omega)).mono fun x' y' _ _ hxy =>
      ⟨hxy.1, by omega, by omega, .inl (by omega)⟩
  rw [if_neg h24]
  by_cases h16 : v.bpp = 16
  · have hbytes : v.bytes = 2 := by rw [Mode.bytes, h16]
    rw [if_pos h16, ← hbytes]
    by_cases hwide : w' * v.bytes = v.pitch
    · rw [if_pos hwide]
      exact hin (Mode.draws_block rfl hwide (by rw [hbytes]) hwfit hhfit)
    · rw [if_neg hwide]
      exact hin (draws_rect_rows hwfit hhfit fun i m => ⟨_, _, hrow i, by rw [memset16, hbytes]⟩)
  · rw [if_neg h16]
    apply hin
    apply Mode.draws_rows
    intro i hi m
    apply Mode.draws_rows
    intro j hj m
    exact framebufferPutpixel_draws.mono fun x' y' _ _ hxy => by omega

/-! ## The flush -/

theorem blit_drop {off n : Nat} : front.blit off (back.drop off) n i = if off ≤ i ∧ i < off + n then back i
    else front i := by
  unfold blit drop
  split
  · exact congrArg back (by omega)
  · rfl

theorem rows_copied {base len : Nat} :
    ∀ n i, (rows n (fun j m => m.blit (base + j * v.pitch) (back.drop (base + j * v.pitch)) len) front) i = front i ∨
      (rows n (fun j m => m.blit (base + j * v.pitch) (back.drop (base + j * v.pitch)) len) front) i = back i
  | 0, _ => .inl rfl
  | n + 1, i => by
    rw [rows, blit_drop]
    split
    · exact .inr rfl
    · exact rows_copied n i

theorem rows_copied_row {base len j : Nat} (hlo : base + j * v.pitch ≤ i) (hhi : i < base + j * v.pitch + len) :
    ∀ n, j < n → (rows n (fun j m => m.blit (base + j * v.pitch) (back.drop (base + j * v.pitch)) len) front) i = back i
  | n + 1, hn => by
    rw [rows, blit_drop]
    split
    · rfl
    · rename_i hout
      refine rows_copied_row hlo hhi n (Nat.lt_of_le_of_ne (Nat.le_of_lt_succ hn) ?_)
      rintro rfl
      exact hout ⟨hlo, hhi⟩

/-- **`framebuffer_flush_rect`** copies bytes of the back buffer, and those of the pixels in its rectangle. -/
theorem framebufferFlushRect_spec (front back : Buffer) (hw : x + w ≤ v.width) (hh : y + h ≤ v.height) (i : Nat) :
    (framebufferFlushRect v front back x y w h i = front i ∨ framebufferFlushRect v front back x y w h i = back i) ∧
    ((∃ x' y', (x ≤ x' ∧ x' < x + w) ∧ (y ≤ y' ∧ y' < y + h) ∧ v.OnPixel x' y' i) →
      framebufferFlushRect v front back x y w h i = back i) := by
  have hwlt := v.width_lt
  have hhlt := v.height_lt
  unfold framebufferFlushRect
  by_cases hx : v.width ≤ x
  · rw [if_pos hx]
    exact ⟨.inl rfl, fun ⟨x', y', hxx, _⟩ => absurd hxx (by omega)⟩
  rw [if_neg hx]
  by_cases hy : v.height ≤ y
  · rw [if_pos hy]
    exact ⟨.inl rfl, fun ⟨x', y', _, hyy, _⟩ => absurd hyy (by omega)⟩
  have hnw : ¬ v.width < (x + w) % 2 ^ 32 := by omega
  have hnh : ¬ v.height < (y + h) % 2 ^ 32 := by omega
  rw [if_neg hy, if_neg hnw, if_neg hnh]
  dsimp only
  by_cases hzero : w = 0 ∨ h = 0
  · rw [if_pos hzero]
    exact ⟨.inl rfl, fun ⟨x', y', hxx, hyy, _⟩ => absurd hzero (by omega)⟩
  rw [if_neg hzero]
  -- the byte is in the row of its pixel
  have hrow : ∀ x' y', (x ≤ x' ∧ x' < x + w) → (y ≤ y' ∧ y' < y + h) → v.OnPixel x' y' i →
      ∃ j < h, y * v.pitch + x * v.bytes + j * v.pitch ≤ i ∧ i < y * v.pitch + x * v.bytes + j * v.pitch + w * v.bytes := by
    rintro x' y' ⟨hxlo, hxhi⟩ ⟨hylo, hyhi⟩ ⟨k, hk, rfl⟩
    obtain ⟨a, rfl⟩ := Nat.exists_eq_add_of_le hxlo
    obtain ⟨j, rfl⟩ := Nat.exists_eq_add_of_le hylo
    have ha : (a + 1) * v.bytes ≤ w * v.bytes := Nat.mul_le_mul_right _ (by omega)
    rw [Nat.add_mul, Nat.one_mul] at ha
    refine ⟨j, by omega, ?_, ?_⟩ <;> rw [Nat.add_mul, Nat.add_mul] <;> omega
  by_cases hwide : w * v.bytes = v.pitch
  · rw [if_pos hwide]
    constructor
    · rw [blit_drop]
      split
      · exact .inr rfl
      · exact .inl rfl
    · rintro ⟨x', y', hxx, hyy, hon⟩
      obtain ⟨j, hj, hlo, hhi⟩ := hrow x' y' hxx hyy hon
      have hjh : (j + 1) * v.pitch ≤ h * v.pitch := Nat.mul_le_mul_right _ hj
      rw [Nat.add_mul, Nat.one_mul] at hjh
      have hlen : w * v.bytes * h = h * v.pitch := by rw [hwide, Nat.mul_comm]
      rw [blit_drop, if_pos (by omega)]
  · rw [if_neg hwide]
    refine ⟨rows_copied h i, ?_⟩
    rintro ⟨x', y', hxx, hyy, hon⟩
    obtain ⟨j, hj, hlo, hhi⟩ := hrow x' y' hxx hyy hon
    exact rows_copied_row hlo hhi h hj

end EterOS.Gfx
