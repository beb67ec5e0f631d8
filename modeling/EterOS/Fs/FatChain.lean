import EterOS.Fs.FatStore
import Mathlib.Data.List.Infix
/-!
# FatChain — what a write does to the chain of its file

`fat32_write_fs` stores into the clusters of one chain and puts clusters that were free behind it.  `Grown` says so of
the FAT and of the data area, whatever the call was asked to write and however far it came; `FatWrote` adds which bytes of
the file have changed, and needs the sums of the loop not to wrap.
-/
namespace EterOS.Fs

open List
open Function (update_self update_of_ne)

def csz (s : Fat) : Nat := 512 * s.spc.toNat

/-- The byte at a position of the file with these clusters: 0 behind them. -/
def byteAt (s : Fat) (l : List UInt32) (pos : Nat) : UInt8 :=
  match l[pos / csz s]? with
  | some c => s.disk (dataSector s c (pos % csz s / 512)) (pos % 512)
  | none => 0

def sectorsOfAll (s : Fat) (l : List UInt32) : Set UInt32 := { x | ∃ d ∈ l, x ∈ sectorsOf s d }

variable {s s' s'' : Fat} {limit n i k lo mid hi pos : Nat} {c d first x : UInt32} {l l' l'' : List UInt32}
  {b buffer : Buffer} {f : Nat → UInt8} {K D : Set UInt32}

theorem Geometry.csz_pos (hg : Geometry s.vol limit) : 0 < csz s := Nat.mul_pos (by decide) hg.spc_pos

theorem Geometry.csz_le (hg : Geometry s.vol limit) : csz s ≤ 65536 := by
  have := hg.spc_le
  rw [csz]
  omega

theorem Geometry.clusterSize_toNat (hg : Geometry s.vol limit) : s.clusterSize.toNat = csz s := by
  have := hg.spc_le
  rw [Fat.clusterSize, hg.bps_eq, UInt32.toNat_mul, csz]
  simp only [UInt32.reduceToNat]
  omega

theorem Frame.csz (h : Frame s s' K D) : csz s' = csz s := by
  rw [Fs.csz, Fs.csz, h.spc]

theorem Frame.sectorsOfAll (h : Frame s s' K D) (l : List UInt32) : sectorsOfAll s' l = sectorsOfAll s l := by
  simp [Fs.sectorsOfAll, h.sectorsOf]

theorem sector_lt (hg : Geometry s.vol limit) (pos : Nat) : pos % csz s / 512 < s.spc.toNat :=
  Nat.div_lt_of_lt_mul (Nat.mod_lt pos hg.csz_pos)

theorem pos_eq (s : Fat) (pos : Nat) : pos = csz s * (pos / csz s) + (512 * (pos % csz s / 512) + pos % 512) := by
  have h1 := Nat.div_add_mod pos (csz s)
  have h3 : pos % csz s % 512 = pos % 512 := Nat.mod_mul_right_mod pos 512 s.spc.toNat
  omega

theorem pos_div_eq (hg : Geometry s.vol limit) (hi : i < s.spc.toNat) {o : Nat} (ho : o < 512) :
    (csz s * k + (512 * i + o)) / csz s = k ∧ (csz s * k + (512 * i + o)) % csz s / 512 = i ∧
      (csz s * k + (512 * i + o)) % 512 = o := by
  have hlt : 512 * i + o < csz s := by
    rw [csz]
    omega
  have hmod : (csz s * k + (512 * i + o)) % csz s = 512 * i + o := by
    rw [Nat.mul_add_mod, Nat.mod_eq_of_lt hlt]
  refine ⟨?_, by rw [hmod]; omega, ?_⟩
  · rw [Nat.mul_add_div hg.csz_pos, Nat.div_eq_of_lt hlt, Nat.add_zero]
  · have h3 : (csz s * k + (512 * i + o)) % csz s % 512 = (csz s * k + (512 * i + o)) % 512 :=
      Nat.mod_mul_right_mod _ 512 s.spc.toNat
    rw [← h3, hmod]
    omega

theorem byteAt_congr (hg : Geometry s.vol limit) (hvol : s'.vol = s.vol)
    (h : ∀ c ∈ l, ∀ i < s.spc.toNat, s'.disk (dataSector s c i) = s.disk (dataSector s c i)) :
    byteAt s' l pos = byteAt s l pos := by
  have hcsz : csz s' = csz s := by
    rw [csz, csz, Fat.spc, Fat.spc, hvol]
  have hsec : ∀ c i, dataSector s' c i = dataSector s c i := fun c i => by
    rw [dataSector, dataSector, fat32ClusterToLba, fat32ClusterToLba, Fat.spc, Fat.spc, hvol]
  simp only [byteAt, hcsz, hsec]
  split
  · rename_i c hc
    rw [h c (mem_of_getElem? hc) _ (sector_lt hg pos)]
  · rfl

theorem byteAt_of_frame (hg : Geometry s.vol limit) (hf : Frame s s' K D) (hin : ∀ c ∈ l, InVol limit c)
    (hD : ∀ c ∈ l, ∀ i < s.spc.toNat, dataSector s c i ∉ D) : byteAt s' l pos = byteAt s l pos :=
  byteAt_congr hg hf.vol fun c hc i hi => hf.data _ (hg.dataSector_ge (hin c hc) hi) (hD c hc i hi)

/-! ## Growing -/

/-- The chain of a file has grown by clusters that were free, and only it has been written to. -/
structure Grown (limit : Nat) (first : UInt32) (s : Fat) (l : List UInt32) (s' : Fat) (l' : List UInt32) : Prop where
  pre : l <+: l'
  linked : FatLinked s' limit first l'
  frame : Frame s s' { d | d ∈ l' } (sectorsOfAll s l')
  fresh : ∀ d ∈ l', d ∈ l ∨ fat32GetNextCluster s d = 0
  spare : (freeClusters s limit).card + l.length = (freeClusters s' limit).card + l'.length

/-- The bytes from `lo` to `hi` of the file are those of `f`, the others as before. -/
structure FatWrote (limit : Nat) (first : UInt32) (s : Fat) (l : List UInt32) (s' : Fat) (l' : List UInt32)
    (f : Nat → UInt8) (lo hi : Nat) : Prop extends Grown limit first s l s' l' where
  bytes : ∀ pos, byteAt s' l' pos = if lo ≤ pos ∧ pos < hi then f pos else byteAt s l pos

theorem Grown.refl (h : FatLinked s limit first l) : Grown limit first s l s l where
  pre := prefix_refl l
  linked := h
  frame := (Frame.refl s).mono (Set.empty_subset _) (Set.empty_subset _)
  fresh := fun _ hd => Or.inl hd
  spare := rfl

theorem FatWrote.refl (h : FatLinked s limit first l) (f : Nat → UInt8) (lo : Nat) :
    FatWrote limit first s l s l f lo lo where
  toGrown := Grown.refl h
  bytes := fun _ => by rw [if_neg (by omega)]

theorem Grown.trans (h : Grown limit first s l s' l') (h' : Grown limit first s' l' s'' l'')
    (hg : Geometry s.vol limit) : Grown limit first s l s'' l'' where
  pre := h.pre.trans h'.pre
  linked := h'.linked
  frame := by
    refine (h.frame.trans h'.frame).mono ?_ ?_
    · rintro d (hd | hd)
      · exact h'.pre.subset hd
      · exact hd
    · rw [h.frame.sectorsOfAll]
      rintro x (⟨d, hd, hx⟩ | hx)
      · exact ⟨d, h'.pre.subset hd, hx⟩
      · exact hx
  fresh := fun d hd => by
    by_cases hdl : d ∈ l'
    · exact h.fresh d hdl
    · right
      rw [← h.frame.fat d ((h'.linked.2 d hd).lt_entries hg) hdl]
      exact (h'.fresh d hd).resolve_left hdl
  spare := by
    have := h.spare
    have := h'.spare
    omega

theorem FatWrote.trans (h : FatWrote limit first s l s' l' f lo mid) (h' : FatWrote limit first s' l' s'' l'' f mid hi)
    (hg : Geometry s.vol limit) (hlo : lo ≤ mid) (hhi : mid ≤ hi) : FatWrote limit first s l s'' l'' f lo hi where
  toGrown := h.toGrown.trans h'.toGrown hg
  bytes := fun pos => by
    rw [h'.bytes pos, h.bytes pos]
    split_ifs <;> first | rfl | omega

theorem Grown.store (h : FatLinked s limit first l) (hg : Geometry s.vol limit) (hc : c ∈ l) (hi : i < s.spc.toNat)
    (b : Buffer) : Grown limit first s l (s.writeSector (dataSector s c i) b) l := by
  have hf := frame_writeSector (b := b) hg (hg.dataSector_ge (h.2 c hc) hi)
  refine ⟨prefix_refl l, h.congr hg hf fun _ _ => by simp, hf.mono (Set.empty_subset _) ?_, fun _ hd => Or.inl hd, ?_⟩
  · rintro x rfl
    exact ⟨c, hc, i, hi, rfl⟩
  · rw [freeClusters_of_frame hg hf]

theorem FatWrote.store (h : FatLinked s limit first l) (hg : Geometry s.vol limit) (hk : k < l.length) (hi : i < s.spc.toNat)
    {o len : Nat} (ho : o + len ≤ 512)
    (hb : ∀ j < 512, b j = if o ≤ j ∧ j < o + len then f (csz s * k + (512 * i + j)) else s.disk (dataSector s l[k] i) j) :
    FatWrote limit first s l (s.writeSector (dataSector s l[k] i) b) l f (csz s * k + (512 * i + o))
      (csz s * k + (512 * i + o) + len) where
  toGrown := Grown.store h hg (getElem_mem hk) hi b
  bytes := fun pos => by
    have hpos := pos_eq s pos
    have hcszeq : csz (s.writeSector (dataSector s l[k] i) b) = csz s := rfl
    have hseceq : ∀ c i', dataSector (s.writeSector (dataSector s l[k] i) b) c i' = dataSector s c i' := fun _ _ => rfl
    by_cases hsame : pos / csz s = k ∧ pos % csz s / 512 = i
    · -- a byte of the sector that is stored
      have hget : l[pos / csz s]? = some l[k] := by
        rw [hsame.1, List.getElem?_eq_getElem hk]
      have hj : pos % 512 < 512 := Nat.mod_lt pos (by decide)
      rw [hsame.1, hsame.2] at hpos
      simp only [byteAt, hcszeq, hseceq, hget, hsame.2]
      have hdisk : (s.writeSector (dataSector s l[k] i) b).disk (dataSector s l[k] i) = b := update_self ..
      rw [hdisk, hb _ hj, ← hpos]
      have hiff : (o ≤ pos % 512 ∧ pos % 512 < o + len) ↔
          (csz s * k + (512 * i + o) ≤ pos ∧ pos < csz s * k + (512 * i + o) + len) := by omega
      simp [hiff]
    · have hout : ¬ (csz s * k + (512 * i + o) ≤ pos ∧ pos < csz s * k + (512 * i + o) + len) := by
        rintro ⟨hlo, hhi⟩
        obtain ⟨h1, h2, -⟩ := pos_div_eq (k := k) hg hi (o := pos - (csz s * k + 512 * i)) (by omega)
        rw [show csz s * k + (512 * i + (pos - (csz s * k + 512 * i))) = pos by omega] at h1 h2
        exact hsame ⟨h1, h2⟩
      rw [if_neg hout]
      simp only [byteAt, hcszeq, hseceq]
      split
      · rename_i c hc
        obtain ⟨hlt, hcl⟩ := List.getElem?_eq_some_iff.1 hc
        have hne : dataSector s c (pos % csz s / 512) ≠ dataSector s l[k] i := by
          intro heq
          obtain ⟨hck, hik⟩ := hg.dataSector_inj (h.2 c (mem_of_getElem? hc)) (h.2 _ (getElem_mem hk))
            (sector_lt hg pos) hi heq
          exact hsame ⟨(h.1.nodup.getElem_inj_iff).1 (hcl.trans hck), hik⟩
        exact congrFun (update_of_ne hne ..) _
      · rfl

theorem FatWrote.extend (h : FatLinked s limit first (l ++ [d])) (hg : Geometry s.vol limit) (hx : Extended s s' limit d c)
    (f : Nat → UInt8) (lo : Nat) : FatWrote limit first s (l ++ [d]) s' (l ++ [d] ++ [c]) f lo lo where
  pre := prefix_append _ _
  linked := h.extend hg hx
  frame := by
    refine hx.frame.mono ?_ ?_
    · rintro e (rfl | rfl) <;> simp
    · intro x hxc
      exact ⟨c, by simp, hxc⟩
  fresh := fun e he => by
    rcases mem_append.1 he with he | he
    · exact Or.inl he
    · rw [mem_singleton.1 he]
      exact Or.inr hx.fresh
  spare := by
    have := hx.spent.card hx.inVol hx.fresh
    simp only [length_append, length_singleton]
    omega
  bytes := fun pos => by
    have hcd : c ∉ l ++ [d] := fun hc => h.next_ne_zero hc hx.fresh
    rw [if_neg (by omega)]
    have hold : ∀ e ∈ l ++ [d], ∀ i < s.spc.toNat, dataSector s e i ∉ sectorsOf s c := fun e he i hi =>
      hg.notMem_sectorsOf (h.2 e he) hx.inVol (fun heq => hcd (heq ▸ he)) hi
    rcases Nat.lt_trichotomy (pos / csz s) (l ++ [d]).length with hlt | heq | hgt
    · have hb : byteAt s' (l ++ [d]) pos = byteAt s (l ++ [d]) pos := byteAt_of_frame hg hx.frame h.2 hold
      rw [← hb, byteAt, byteAt, hx.frame.csz, List.getElem?_append_left hlt]
    · rw [byteAt, byteAt, hx.frame.csz, heq, List.getElem?_concat_length, List.getElem?_eq_none (Nat.le_refl _)]
      simp [hx.frame.dataSector, hx.zero _ (sector_lt hg pos)]
    · have hnone : (l ++ [d] ++ [c])[pos / csz s]? = none := by
        rw [List.getElem?_eq_none_iff, length_append, length_singleton]
        omega
      rw [byteAt, byteAt, hx.frame.csz, hnone, List.getElem?_eq_none (by omega)]

theorem exists_alloc (hg : Geometry s.vol limit) (hfree : 0 < (freeClusters s limit).card) :
    ∃ s' c, fat32AllocCluster s = some (s', c) := by
  obtain ⟨k, hk⟩ := Finset.card_pos.1 hfree
  rw [freeClusters, Finset.mem_filter, Finset.mem_range] at hk
  have hlt : k < s.fatEntries := Nat.lt_of_lt_of_le hk.1 hg.limit_le
  have hn := hg.ofNat_toNat hlt
  cases ha : fat32AllocCluster s with
  | none => exact absurd hk.2.2 (alloc_none hg ha (by omega) (by omega))
  | some r => exact ⟨r.1, r.2, rfl⟩

theorem FatLinked.alloc_extend (h : FatLinked s limit first (l ++ [d])) (hg : Geometry s.vol limit)
    (hr : Room s limit (n + 1)) (ha : fat32AllocCluster s = some (s', c)) :
    Extended s (fat32FatSet s' d c) limit d c :=
  have hal := alloc_some hg ha
  extend_spec hg hal (hal.inVol hg hr) (h.2 d (by simp)) (h.next_ne_zero (by simp))

/-! ## The loops -/

variable {size : UInt32} {base : Nat}

theorem dataSector_toUInt32 (s : Fat) (c i : UInt32) : fat32ClusterToLba s c + i = dataSector s c i.toNat := by
  rw [dataSector, UInt32.ofNat_toNat]

/-- No sum of the loop wraps: of what is done and what is left of a sector. -/
def NoWrap (base : Nat) (size : UInt32) : Prop := size.toNat + 512 ≤ 2 ^ 32 ∨ 0 < base ∧ base + size.toNat < 2 ^ 32

theorem chunkOf_toNat (hg : Geometry s.vol limit) {done inSector : UInt32} (hin : inSector.toNat < 512)
    (hdone : done.toNat < size.toNat) (hsum : done.toNat + (512 - inSector.toNat) < 2 ^ 32) :
    (chunkOf s size done inSector).toNat = min (512 - inSector.toNat) (size.toNat - done.toNat) := by
  have hrest : ((512 : UInt32) - inSector).toNat = 512 - inSector.toNat :=
    UInt32.toNat_sub_of_le _ _ (UInt32.le_iff_toNat_le.2 (Nat.le_of_lt hin))
  rw [chunkOf, hg.bps_eq]
  split
  · rename_i hlt
    rw [UInt32.lt_iff_toNat_lt, UInt32.toNat_add, hrest, Nat.mod_eq_of_lt hsum] at hlt
    rw [UInt32.toNat_sub_of_le _ _ (UInt32.le_iff_toNat_le.2 (Nat.le_of_lt hdone))]
    omega
  · rename_i hge
    rw [UInt32.lt_iff_toNat_lt, UInt32.toNat_add, hrest, Nat.mod_eq_of_lt hsum] at hge
    rw [hrest]
    omega

theorem NoWrap.sum_lt (hw : NoWrap base size) {m done inSector : Nat} (hdone : done < size.toNat)
    (hpos : 512 * m + inSector = base + done) (hin : inSector < 512) : done + (512 - inSector) < 2 ^ 32 := by
  rcases hw with h | ⟨hbase, hlt⟩ <;> omega

/-- The count after a turn that enters its sector at `o`. -/
theorem count_turn {size done o n : Nat} (ho : o < 512) (hd : done ≤ size) :
    min size (done + min (512 - o) (size - done) + 512 * n) = min size (done + (512 * (n + 1) - o)) := by
  omega

theorem count_last {size done o n : Nat} (ho : o < 512) (hd : done ≤ size)
    (h : size ≤ done + min (512 - o) (size - done)) :
    done + min (512 - o) (size - done) = min size (done + (512 * (n + 1) - o)) := by
  rw [← count_turn ho hd, Nat.min_eq_left (Nat.le_add_right_of_le h)]
  omega

/-- A turn in a sector entered at `o` takes the rest of it, or of the request. -/
theorem turn_bounds {size done o chunk : Nat} (ho : o < 512) (hd : done < size) (hc : chunk = min (512 - o) (size - done)) :
    o + chunk ≤ 512 ∧ done + chunk ≤ size := by
  omega

theorem turn_whole {size done o chunk : Nat} (hc : chunk = min (512 - o) (size - done)) (hd : ¬ size ≤ done + chunk) :
    chunk = 512 - o := by
  omega

theorem turn_next {a i o base done : Nat} (h : a + (512 * i + o) = base + done) (ho : o < 512) :
    a + 512 * (i + 1) = base + (done + (512 - o)) := by
  omega

theorem turn_place {a i o base done j : Nat} (h : a + (512 * i + o) = base + done) (hj : o ≤ j) :
    a + (512 * i + j) - base = done + (j - o) := by
  omega

theorem succ_toNat {i : UInt32} {n m : Nat} (h : i.toNat + (n + 1) = m) (hm : m < 2 ^ 32) : (i + 1).toNat = i.toNat + 1 := by
  have hle : i.toNat + 1 ≤ m := h ▸ Nat.add_le_add_left (Nat.le_add_left 1 n) _
  rw [UInt32.toNat_add]
  exact Nat.mod_eq_of_lt (hle.trans_lt hm)

theorem writeSectors_wrote (size : UInt32) (buffer : Buffer) (base : Nat) (hk : k < l.length) :
    ∀ (n : Nat) (s : Fat) (i inSector done : UInt32), Geometry s.vol limit → FatLinked s limit first l → NoWrap base size →
    i.toNat + n = s.spc.toNat →
    inSector.toNat < 512 → done.toNat ≤ size.toNat →
    csz s * k + (512 * i.toNat + inSector.toNat) = base + done.toNat →
    let r := writeSectors size buffer (fat32ClusterToLba s l[k]) n s i inSector done
    r.2.toNat = min size.toNat (done.toNat + (512 * n - inSector.toNat)) ∧
      FatWrote limit first s l r.1 l (fun pos => buffer (pos - base)) (base + done.toNat) (base + r.2.toNat)
  | 0, s, i, inSector, done, hg, h, hw, hi, hin, hdone, hpos => by
    refine ⟨?_, FatWrote.refl h _ _⟩
    simp only [writeSectors]
    omega
  | n + 1, s, i, inSector, done, hg, h, hw, hi, hin, hdone, hpos => by
    rw [writeSectors]
    split
    · rename_i hge
      rw [UInt32.le_iff_toNat_le] at hge
      exact ⟨by simp only; omega, FatWrote.refl h _ _⟩
    rename_i hlt
    rw [UInt32.le_iff_toNat_le, Nat.not_le] at hlt
    have hi1 := succ_toNat hi s.spc.toNat_lt
    have hilt : i.toNat < s.spc.toNat := hi ▸ Nat.lt_add_of_pos_right (Nat.succ_pos n)
    have hsum : done.toNat + (512 - inSector.toNat) < 2 ^ 32 := by
      refine hw.sum_lt (m := s.spc.toNat * k + i.toNat) hlt ?_ hin
      rw [← hpos, csz, Nat.mul_add, Nat.mul_assoc]
      exact Nat.add_assoc _ _ _
    have hchunk := chunkOf_toNat hg hin hlt hsum
    obtain ⟨hin', hle'⟩ := turn_bounds hin hlt hchunk
    have hnext' : (done + chunkOf s size done inSector).toNat = done.toNat + (chunkOf s size done inSector).toNat := by
      rw [UInt32.toNat_add, Nat.mod_eq_of_lt (hle'.trans_lt size.toNat_lt)]
    have hnext := hnext'
    rw [hchunk] at hnext
    simp only
    -- what is stored: the bytes of the request in their place, the others as they were
    have key : ∀ b : Buffer, (∀ j < 512,
      b j = if inSector.toNat ≤ j ∧ j < inSector.toNat + (chunkOf s size done inSector).toNat
          then buffer (csz s * k + (512 * i.toNat + j) - base) else s.disk (dataSector s l[k] i.toNat) j) →
        let r := writeSectors size buffer (fat32ClusterToLba s l[k]) n
          (s.writeSector (fat32ClusterToLba s l[k] + i) b) (i + 1) 0 (done + chunkOf s size done inSector)
        r.2.toNat = min size.toNat (done.toNat + (512 * (n + 1) - inSector.toNat)) ∧
          FatWrote limit first s l r.1 l (fun pos => buffer (pos - base)) (base + done.toNat) (base + r.2.toNat) := by
      intro b hb
      rw [dataSector_toUInt32]
      have hs := FatWrote.store (f := fun pos => buffer (pos - base)) h hg hk (i := i.toNat) hilt
        (o := inSector.toNat) hin' hb
      rw [hpos, Nat.add_assoc, ← hnext'] at hs
      by_cases hfull : size.toNat ≤ (done + chunkOf s size done inSector).toNat
      · -- the request ends in this sector
        have hstop : writeSectors size buffer (fat32ClusterToLba s l[k]) n
            (s.writeSector (dataSector s l[k] i.toNat) b) (i + 1) 0 (done + chunkOf s size done inSector) =
            (s.writeSector (dataSector s l[k] i.toNat) b, done + chunkOf s size done inSector) := by
          cases n with
          | zero => rfl
          | succ n => rw [writeSectors, if_pos (UInt32.le_iff_toNat_le.2 hfull)]
        rw [hstop]
        refine ⟨?_, hs⟩
        rw [hnext] at hfull ⊢
        exact count_last hin hdone hfull
      · have hz : (0 : UInt32).toNat = 0 := rfl
        have hrest := writeSectors_wrote size buffer base hk n (s.writeSector (dataSector s l[k] i.toNat) b) (i + 1) 0
          (done + chunkOf s size done inSector) hg hs.linked hw
          (by rw [hi1, Nat.add_assoc, Nat.add_comm 1]; exact hi)
          (by decide) (hnext'.trans_le hle') (by
            rw [hnext'] at hfull
            rw [hi1, hnext', turn_whole hchunk hfull]
            exact turn_next hpos hin)
        have hlba : fat32ClusterToLba (s.writeSector (dataSector s l[k] i.toNat) b) l[k] = fat32ClusterToLba s l[k] := rfl
        rw [hlba] at hrest
        simp only at hrest ⊢
        have hback := Nat.le_min.2 ⟨hnext'.trans_le hle', Nat.le_add_right _ (512 * n - (0 : UInt32).toNat)⟩
        rw [← hrest.1] at hback
        refine ⟨?_, hs.trans hrest.2 hg (Nat.add_le_add_left (hnext' ▸ Nat.le_add_right _ _) _)
          (Nat.add_le_add_left hback _)⟩
        rw [hrest.1, hnext, hz, Nat.sub_zero, count_turn hin hdone]
    split
    · rename_i hwhole
      refine key _ fun j hj => ?_
      have h0 : inSector.toNat = 0 := by rw [hwhole.1]; rfl
      have hc512 : (chunkOf s size done inSector).toNat = 512 := by rw [hwhole.2, hg.bps_eq]; rfl
      have hplace := turn_place (j := j) hpos (h0.trans_le (Nat.zero_le j))
      rw [hplace, h0, hc512, if_pos ⟨Nat.zero_le _, hj.trans_eq (Nat.zero_add 512).symm⟩, Nat.sub_zero]
      rfl
    · refine key _ fun j hj => ?_
      rw [Buffer.blit, dataSector_toUInt32]
      split
      · rename_i hmem
        rw [turn_place hpos hmem.1]
        rfl
      · rfl

theorem sector_toNat (hg : Geometry s.vol limit) {inCluster : UInt32} (hin : inCluster.toNat < csz s) :
    (inCluster / s.bps).toNat = inCluster.toNat / 512 ∧ (inCluster % s.bps).toNat = inCluster.toNat % 512 ∧
      (inCluster / s.bps).toNat + (s.spc - inCluster / s.bps).toNat = s.spc.toNat := by
  have hdiv : (inCluster / s.bps).toNat = inCluster.toNat / 512 := by
    rw [hg.bps_eq, UInt32.toNat_div]
    rfl
  have hlt : inCluster.toNat / 512 < s.spc.toNat := Nat.div_lt_of_lt_mul hin
  refine ⟨hdiv, ?_, ?_⟩
  · rw [hg.bps_eq, UInt32.toNat_mod]
    rfl
  · rw [UInt32.toNat_sub_of_le _ _ (UInt32.le_iff_toNat_le.2 (by omega))]
    omega

theorem sectors_left (hg : Geometry s.vol limit) {inCluster : UInt32} (hin : inCluster.toNat < csz s) :
    512 * (s.spc - inCluster / s.bps).toNat - (inCluster % s.bps).toNat = csz s - inCluster.toNat := by
  obtain ⟨hdiv, hmod, hnum⟩ := sector_toNat hg hin
  rw [csz, ← hnum, Nat.mul_add, hdiv, hmod]
  omega

def clustersFor (s : Fat) (bytes : Nat) : Nat := (bytes + csz s - 1) / csz s

theorem clustersFor_le_iff (hg : Geometry s.vol limit) {bytes m : Nat} : clustersFor s bytes ≤ m ↔ bytes ≤ csz s * m := by
  have hpos := hg.csz_pos
  rw [clustersFor, ← Nat.lt_succ_iff, Nat.div_lt_iff_lt_mul hpos, Nat.mul_comm, Nat.mul_succ]
  omega

theorem writeLoop_done (turns : Nat) (s : Fat) (current inCluster done : UInt32) (h : size ≤ done) :
    writeLoop size buffer turns s current inCluster done = (s, done) := by
  cases turns with
  | zero => rfl
  | succ turns => rw [writeLoop, if_pos h]

theorem clusters_enough (hg : Geometry s.vol limit) (hk : k < l.length) {bytes : Nat} (h : bytes ≤ csz s * (k + 1)) :
    clustersFor s bytes ≤ l.length :=
  (clustersFor_le_iff hg).2 (h.trans (Nat.mul_le_mul_left _ hk))

/-- Nothing is left to write. -/
theorem writeLoop_full (turns : Nat) (hg : Geometry s.vol limit) (h : FatLinked s limit first l) (hk : k < l.length)
    {inCluster done : UInt32} (hin : inCluster.toNat < csz s) (hpos : csz s * k + inCluster.toNat = base + done.toNat)
    (hfull : done.toNat = size.toNat) :
    let r := writeLoop size buffer turns s l[k] inCluster done
    r.2 = size ∧ ∃ l', l'.length = max l.length (clustersFor s (base + size.toNat)) ∧
      FatWrote limit first s l r.1 l' (fun pos => buffer (pos - base)) (base + done.toNat) (base + size.toNat) := by
  have hle : clustersFor s (base + size.toNat) ≤ l.length := by
    refine clusters_enough hg hk ?_
    rw [← hfull, ← hpos, Nat.mul_succ]
    exact Nat.add_le_add_left hin.le _
  rw [writeLoop_done turns s l[k] inCluster done (UInt32.le_iff_toNat_le.2 hfull.ge)]
  refine ⟨UInt32.toNat_inj.1 hfull, l, (Nat.max_eq_left hle).symm, ?_⟩
  rw [hfull]
  exact FatWrote.refl h _ _

theorem eq_of_min {a b c : Nat} (h : c = min a b) (hlt : ¬ a ≤ c) : c = b := by
  omega

theorem spare_next {c n f g : Nat} (h : c - n ≤ f) (hs : f + n = g + (n + 1)) : c - (n + 1) ≤ g := by
  omega

theorem writeLoop_wrote (size : UInt32) (buffer : Buffer) (base : Nat) :
    ∀ (turns : Nat) (s : Fat) (l : List UInt32) (k : Nat) (hk : k < l.length)
    (inCluster done : UInt32), Geometry s.vol limit → FatLinked s limit first l → NoWrap base size →
    inCluster.toNat < csz s → csz s * k + inCluster.toNat = base + done.toNat → done.toNat ≤ size.toNat →
    size.toNat - done.toNat ≤ turns →
    clustersFor s (base + size.toNat) - l.length ≤ (freeClusters s limit).card →
    let r := writeLoop size buffer turns s l[k] inCluster done
    r.2 = size ∧ ∃ l', l'.length = max l.length (clustersFor s (base + size.toNat)) ∧
      FatWrote limit first s l r.1 l' (fun pos => buffer (pos - base)) (base + done.toNat) (base + size.toNat)
  | 0, s, l, k, hk, inCluster, done, hg, h, hw, hin, hpos, hdone, hturns, hfree =>
    writeLoop_full 0 hg h hk hin hpos (Nat.le_antisymm hdone (Nat.le_of_sub_eq_zero (Nat.le_zero.1 hturns)))
  | turns + 1, s, l, k, hk, inCluster, done, hg, h, hw, hin, hpos, hdone, hturns, hfree => by
    by_cases hfull : size.toNat ≤ done.toNat
    · exact writeLoop_full (turns + 1) hg h hk hin hpos (Nat.le_antisymm hdone hfull)
    have hvol := h.2 _ (getElem_mem hk)
    rw [writeLoop, if_neg (fun hle => hfull (UInt32.le_iff_toNat_le.1 hle)), if_neg (by
      rintro (h0 | hend)
      · exact hvol.ne_zero h0
      · exact hvol.lt_eoc hg hend)]
    obtain ⟨hsec, hoff, hnum⟩ := sector_toNat hg hin
    have hpos' : csz s * k + (512 * (inCluster / s.bps).toNat + (inCluster % s.bps).toNat) = base + done.toNat := by
      rw [hsec, hoff, Nat.div_add_mod, hpos]
    obtain ⟨hcount, hs⟩ := writeSectors_wrote size buffer base hk (s.spc - inCluster / s.bps).toNat s
      (inCluster / s.bps) (inCluster % s.bps) done hg h hw hnum (hoff ▸ Nat.mod_lt _ (by decide)) hdone hpos'
    simp only
    generalize writeSectors size buffer (fat32ClusterToLba s l[k]) (s.spc - inCluster / s.bps).toNat s
      (inCluster / s.bps) (inCluster % s.bps) done = r at hcount hs ⊢
    obtain ⟨s1, done1⟩ := r
    simp only at hcount hs ⊢
    rw [sectors_left hg hin] at hcount
    have hg1 := hs.frame.geometry hg
    have hcsz1 : csz s1 = csz s := hs.frame.csz
    have hfor : ∀ m, clustersFor s1 m = clustersFor s m := fun m => by rw [clustersFor, clustersFor, hcsz1]
    have hends : csz s * (k + 1) = base + (done.toNat + (csz s - inCluster.toNat)) := by
      rw [Nat.mul_succ, ← Nat.add_assoc base, ← hpos, Nat.add_assoc, Nat.add_sub_cancel' hin.le]
    by_cases hend : size.toNat ≤ done1.toNat
    · -- the request ends in this cluster
      have heq : done1.toNat = size.toNat := Nat.le_antisymm (hcount ▸ Nat.min_le_left _ _) hend
      rw [if_neg fun hc => Nat.not_lt.2 hend (UInt32.lt_iff_toNat_lt.1 hc.2),
        writeLoop_done turns s1 _ 0 done1 (UInt32.le_iff_toNat_le.2 hend)]
      refine ⟨UInt32.toNat_inj.1 heq, l, (Nat.max_eq_left (clusters_enough hg hk ?_)).symm, heq ▸ hs⟩
      rw [hends, ← heq, hcount]
      exact Nat.add_le_add_left (Nat.min_le_right _ _) _
    · have hd1 := eq_of_min hcount hend
      have hle1 : done1.toNat ≤ size.toNat := (Nat.not_le.1 hend).le
      have hnext : csz s * (k + 1) = base + done1.toNat := hends.trans (congrArg (base + ·) hd1.symm)
      have hturns1 : size.toNat - done1.toNat ≤ turns := by
        rw [hd1]
        exact chunk_turns hturns (Nat.sub_pos_of_lt hin)
      have hfrom : base + done.toNat ≤ base + done1.toNat := Nat.add_le_add_left (hd1 ▸ Nat.le_add_right _ _) _
      have hto : base + done1.toNat ≤ base + size.toNat := Nat.add_le_add_left hle1 _
      have hfree1 : clustersFor s (base + size.toNat) - l.length ≤ (freeClusters s1 limit).card :=
        hfree.trans (Nat.add_right_cancel hs.spare).le
      by_cases hlast : k + 1 < l.length
      · -- on to the next cluster of the chain
        have hlink := hs.linked.1.next_getElem hlast
        rw [hlink, if_neg fun hc => (hs.linked.2 _ (getElem_mem hlast)).lt_eoc hg1 hc.1]
        obtain ⟨hres, l', hlen, hl'⟩ := writeLoop_wrote size buffer base turns s1 l (k + 1) hlast 0 done1 hg1 hs.linked hw
          (by rw [hcsz1]; exact hg.csz_pos) (by rw [hcsz1]; exact hnext) hle1 hturns1 (by rwa [hfor])
        refine ⟨hres, l', ?_, hs.trans hl' hg hfrom hto⟩
        rw [hlen, hfor]
      · -- behind the last cluster, a new one
        have hlenk : l.length = k + 1 := Nat.le_antisymm (Nat.not_lt.1 hlast) hk
        have hcat : l = l.take k ++ [l[k]] := by
          rw [take_append_getElem, take_of_length_le hlenk.le]
        have hlong : l.length < clustersFor s (base + size.toNat) := by
          rw [← Nat.not_le, clustersFor_le_iff hg, hlenk, hnext, Nat.not_le]
          exact Nat.add_lt_add_left (Nat.not_le.1 hend) _
        have hspace : 0 < (freeClusters s1 limit).card := (Nat.sub_pos_of_lt hlong).trans_le hfree1
        have hstop : fat32Eoc ≤ fat32GetNextCluster s1 l[k] := by
          have := hs.linked.1
          rw [hcat] at this
          exact this.stop_next_last
        obtain ⟨s2, new, ha⟩ := exists_alloc hg1 hspace
        rw [if_pos ⟨hstop, UInt32.lt_iff_toNat_lt.2 (Nat.not_le.1 hend)⟩, ha]
        simp only
        have hlinked : FatLinked s1 limit first (l.take k ++ [l[k]]) := hcat ▸ hs.linked
        have hx := hlinked.alloc_extend (n := 0) hg1 (Or.inl hspace) ha
        have hstep := FatWrote.extend hlinked hg1 hx (fun pos => buffer (pos - base)) (base + done1.toNat)
        rw [← hcat] at hstep
        have hcsz2 : csz (fat32FatSet s2 l[k] new) = csz s := hstep.frame.csz.trans hcsz1
        have hfor2 : ∀ m, clustersFor (fat32FatSet s2 l[k] new) m = clustersFor s m := fun m => by
          rw [clustersFor, clustersFor, hcsz2]
        have hspare2 := hstep.spare
        rw [length_append, length_singleton] at hspare2
        have hget : (l ++ [new])[l.length] = new := getElem_concat_length rfl _
        obtain ⟨hres, l', hlen, hl'⟩ := writeLoop_wrote size buffer base turns (fat32FatSet s2 l[k] new)
          (l ++ [new]) l.length
          (by simp) 0 done1 (hstep.frame.geometry hg1) hstep.linked hw (by rw [hcsz2]; exact hg.csz_pos)
          (by rw [hcsz2, hlenk]; exact hnext) hle1 hturns1
          (by rw [hfor2, length_append, length_singleton]; exact spare_next hfree1 hspare2)
        rw [hget] at hres hl'
        refine ⟨hres, l', ?_, (hs.trans hstep hg hfrom (Nat.le_refl _)).trans hl' hg hfrom hto⟩
        rw [hlen, hfor2, length_append, length_singleton, Nat.max_eq_right hlong, Nat.max_eq_right hlong.le]

end EterOS.Fs
