import Mathlib.Data.Fintype.Card
import EterOS.Lib.Run
import EterOS.Fs.JfsSpace
/-!
# JfsFile — files as byte arrays

`jfs_write` works on an inode in memory: it gives it blocks as it goes, and puts it back only if the file has grown.  A
block it has just taken is read before it is written, so what lay there stays.  `Wrote` is what a stretch of the loop
does to the bytes of the file; `Met` is what keeps the write path from losing a block or showing an old one, and
`files_are_byte_arrays` the claim about every run that meets it.
-/
namespace EterOS.Fs

open Function (update update_self update_of_ne)

variable {s s' s'' : Jfs} {x x' x'' : Inode} {ino idx b : UInt32} {i : Fin 12} {buffer : Buffer} {lo mid hi : Nat}

def maxBytes : Nat := 6144

/-- Byte `pos` of a file: a hole reads as zeroes. -/
def byteOf (s : Jfs) (x : Inode) (pos : Nat) : UInt8 :=
  if h : pos / 512 < 12 then
    if x.blocks ⟨pos / 512, h⟩ = 0 then 0 else s.disk (x.blocks ⟨pos / 512, h⟩) (pos % 512)
  else 0

theorem byteOf_of_block {pos : Nat} {hp : pos / 512 < 12} (h : x'.blocks ⟨pos / 512, hp⟩ = x.blocks ⟨pos / 512, hp⟩) :
    byteOf s x' pos = byteOf s x pos := by
  rw [byteOf, byteOf, dif_pos hp, dif_pos hp, h]

/-! ## The inode in memory -/

structure Held (s : Jfs) (ino : UInt32) (x : Inode) : Prop where
  wf : Wf s
  known : Known s ino
  file : (getInode s ino).isDirectory = false
  blocks : ∀ i, x.blocks i ≠ 0 → x.blocks i = (getInode s ino).blocks i ∨
    Unowned s (x.blocks i) ∧ ∀ j, x.blocks j = x.blocks i → j = i

theorem Held.taken (h : Held s ino x) (hi : x.blocks i ≠ 0) : Taken s (x.blocks i) := by
  rcases h.blocks i hi with he | ⟨hu, -⟩
  · rw [he] at hi ⊢
    exact h.wf.taken ino h.known i hi
  · exact hu.taken

theorem Held.apart (h : Held s ino x) {j : Fin 12} (hi : x.blocks i ≠ 0) (heq : x.blocks j = x.blocks i) : j = i := by
  rcases h.blocks i hi with he | ⟨-, hu⟩
  · rcases h.blocks j (heq ▸ hi) with he' | ⟨-, hu'⟩
    · exact (h.wf.apart ino ino h.known h.known j i (he' ▸ heq ▸ hi) (by rw [← he, ← he', heq])).2
    · exact (hu' i heq.symm).symm
  · exact hu j heq

theorem Held.not_dir (h : Held s ino x) (hi : x.blocks i ≠ 0) {d : UInt32} (hd : Known s d)
    (hdir : (getInode s d).isDirectory = true) {j : Fin 12} : (getInode s d).blocks j ≠ x.blocks i := by
  intro heq
  rcases h.blocks i hi with he | ⟨hu, -⟩
  · have := (h.wf.apart d ino hd h.known j i (heq ▸ hi) (heq.trans he)).1
    rw [this, h.file] at hdir
    cases hdir
  · exact hu.none d hd j heq

/-- What a stretch of the write loop does: the bytes from `lo` up to `hi` are those of `f`, every other byte is what the
disk has where the inode now says. -/
structure Wrote (ino : UInt32) (s : Jfs) (x : Inode) (s' : Jfs) (x' : Inode) (f : Nat → UInt8) (lo hi : Nat) :
    Prop where
  held : Held s' ino x'
  sb : s'.sb = s.sb
  next : s'.nextInode = s.nextInode
  free : s.nextFreeBlock.toNat ≤ s'.nextFreeBlock.toNat
  inode : ∀ a, Known s a → getInode s' a = getInode s a
  size : x'.size = x.size
  flags : x'.flags = x.flags
  grown : ∀ i, x'.blocks i = x.blocks i ∨ x.blocks i = 0 ∧ s.nextFreeBlock.toNat ≤ (x'.blocks i).toNat
  data : ∀ b, Taken s b → (∀ i, x.blocks i ≠ b) → s'.disk b = s.disk b
  beyond : ∀ b : UInt32, s'.nextFreeBlock.toNat ≤ b.toNat → s'.disk b = s.disk b
  present : ∀ i : Fin 12, lo < hi → lo < 512 * ((i : Nat) + 1) → 512 * (i : Nat) < hi → x'.blocks i ≠ 0
  bytes : ∀ pos < maxBytes, byteOf s' x' pos = if lo ≤ pos ∧ pos < hi then f pos else byteOf s x' pos

theorem Wrote.refl (h : Held s ino x) (f : Nat → UInt8) (lo : Nat) : Wrote ino s x s x f lo lo where
  held := h
  sb := rfl
  next := rfl
  free := Nat.le_refl _
  inode := fun _ _ => rfl
  size := rfl
  flags := rfl
  grown := fun _ => .inl rfl
  data := fun _ _ _ => rfl
  beyond := fun _ _ => rfl
  present := fun _ h => absurd h (Nat.lt_irrefl _)
  bytes := fun pos _ => by rw [if_neg (by omega)]

theorem Wrote.trans {f : Nat → UInt8} (h : Wrote ino s x s' x' f lo mid) (h' : Wrote ino s' x' s'' x'' f mid hi)
    (hle : lo ≤ mid) (hle' : mid ≤ hi) : Wrote ino s x s'' x'' f lo hi where
  held := h'.held
  sb := h'.sb.trans h.sb
  next := h'.next.trans h.next
  free := Nat.le_trans h.free h'.free
  inode := fun a ha => (h'.inode a (by rw [Known, h.next]; exact ha)).trans (h.inode a ha)
  size := h'.size.trans h.size
  flags := h'.flags.trans h.flags
  grown := fun i => by
    rcases h.grown i with he | ⟨h0, hle⟩
    · rcases h'.grown i with he' | ⟨h0, hle⟩
      · exact .inl (he'.trans he)
      · exact .inr ⟨he ▸ h0, Nat.le_trans h.free hle⟩
    · rcases h'.grown i with he' | ⟨h0', hle'⟩
      · exact .inr ⟨h0, he' ▸ hle⟩
      · exact .inr ⟨h0, Nat.le_trans h.free hle'⟩
  data := fun b hb hne => by
    have hb' : Taken s' b := ⟨h.sb ▸ hb.1, lt_of_lt_of_le hb.2 h.free⟩
    refine (h'.data b hb' fun i heq => ?_).trans (h.data b hb hne)
    rcases h.grown i with he | ⟨-, hle⟩
    · exact hne i (he ▸ heq)
    · rw [heq] at hle
      have := hb.2
      omega
  beyond := fun b hb => (h'.beyond b hb).trans (h.beyond b (Nat.le_trans h'.free hb))
  present := fun i hlt hlo hhi => by
    by_cases hmid : mid < hi ∧ mid < 512 * ((i : Nat) + 1)
    · exact h'.present i hmid.1 hmid.2 hhi
    · rcases h'.grown i with he | ⟨h0, -⟩
      · rw [he]
        exact h.present i (by omega) hlo (by omega)
      · exact absurd h0 (h.present i (by omega) hlo (by omega))
  bytes := fun pos hpos => by
    have hp : pos / 512 < 12 := by
      rw [maxBytes] at hpos
      omega
    rw [h'.bytes pos hpos]
    by_cases hin : mid ≤ pos ∧ pos < hi
    · rw [if_pos hin, if_pos (by omega)]
    · rw [if_neg hin]
      rcases h'.grown ⟨pos / 512, hp⟩ with he | ⟨h0, hle⟩
      · have hb := h.bytes pos hpos
        rw [byteOf_of_block he, byteOf_of_block he, hb]
        by_cases hin' : lo ≤ pos ∧ pos < mid
        · rw [if_pos hin', if_pos (by omega)]
        · rw [if_neg hin', if_neg (by omega)]
      · -- the block came later, so nothing was stored in it before
        have hout : ¬ (lo ≤ pos ∧ pos < mid) := by
          intro hin'
          exact h.present ⟨pos / 512, hp⟩ (by omega) (by simp only; omega) (by simp only; omega) h0
        rw [if_neg (by omega), byteOf, byteOf, dif_pos hp, dif_pos hp, h.beyond _ hle]

theorem Wrote.bump (h : Held s ino x) (h0 : x.blocks i = 0) (hlt : s.nextFreeBlock.toNat < s.sb.totalBlocks.toNat)
    (f : Nat → UInt8) (lo : Nat) : Wrote ino s x s.bump (x.withBlock i s.nextFreeBlock) f lo lo := by
  obtain ⟨hwf, hu⟩ := h.wf.bump hlt
  have hn := bump_toNat hlt
  have hne : ∀ k, x.blocks k ≠ s.nextFreeBlock := by
    intro k heq
    have hk : x.blocks k ≠ 0 := heq ▸ hu.taken.ne_zero h.wf.layout
    have := (h.taken hk).2
    rw [heq] at this
    exact Nat.lt_irrefl _ this
  refine ⟨⟨hwf, h.known, h.file, fun k hk => ?_⟩, rfl, rfl, by rw [hn]; omega, fun _ _ => rfl, rfl, rfl, fun k => ?_,
    fun _ _ _ => rfl, fun _ _ => rfl, fun _ hlt => absurd hlt (Nat.lt_irrefl _), fun pos _ => ?_⟩
  · by_cases hki : k = i
    · subst hki
      rw [withBlock_self]
      refine .inr ⟨hu, fun j hj => ?_⟩
      by_contra hjk
      rw [withBlock_of_ne hjk] at hj
      exact hne j hj
    · rw [withBlock_of_ne hki] at hk ⊢
      refine (h.blocks k hk).imp_right fun ⟨huk, hone⟩ => ⟨⟨⟨huk.taken.1, ?_⟩, huk.none⟩, fun j hj => ?_⟩
      · rw [hn]
        exact Nat.lt_succ_of_lt huk.taken.2
      · by_cases hji : j = i
        · subst hji
          rw [withBlock_self] at hj
          exact absurd hj.symm (hne k)
        · rw [withBlock_of_ne hji] at hj
          exact hone j hj
  · by_cases hki : k = i
    · subst hki
      rw [withBlock_self]
      exact .inr ⟨h0, Nat.le_refl _⟩
    · exact .inl (withBlock_of_ne hki)
  · rw [if_neg (by omega)]
    rfl

theorem Wrote.store (h : Held s ino x) (hi : x.blocks i ≠ 0) (src : Buffer) (f : Nat → UInt8) (o len : Nat)
    (hlen : o + len ≤ 512) (hf : ∀ k < len, src k = f (512 * i + o + k)) :
    Wrote ino s x (jfsJournalWrite s (x.blocks i) ((s.disk (x.blocks i)).blit o src len)) x f (512 * i + o)
      (512 * i + o + len) := by
  have L := h.wf.layout
  have ht := h.taken hi
  have hget : ∀ a B, Known s a → getInode (jfsJournalWrite s (x.blocks i) B) a = getInode s a :=
    fun a B ha => getInode_jfsJournalWrite L (h.wf.inTable ha) ht.1
  have hne : ∀ k, x.blocks k ≠ 0 → k ≠ i → x.blocks k ≠ x.blocks i := fun k _ hki heq => hki (h.apart hi heq)
  refine ⟨⟨h.wf.journalWrite ht fun d hd hdir e he heb => ?_, h.known, by rw [hget _ _ h.known]; exact h.file,
    fun k hk => ?_⟩, rfl, rfl, Nat.le_refl _, fun a ha => hget a _ ha, rfl, rfl, fun _ => .inl rfl, fun c hc hnc =>
    disk_jfsJournalWrite_ne L hc.1 (hnc i).symm, fun c hc => ?_, fun k _ hlo hhi => ?_, fun pos hpos => ?_⟩
  · obtain ⟨⟨k, hk⟩, -, -⟩ := mem_slots.1 he
    exact absurd (hk.trans heb) (h.not_dir hi hd hdir)
  · rw [hget _ _ h.known]
    refine (h.blocks k hk).imp_right fun ⟨huk, hone⟩ => ⟨⟨huk.taken, fun a ha j => ?_⟩, hone⟩
    rw [hget a _ ha]
    exact huk.none a ha j
  · have h1 := h.wf.start
    have h2 := ht.2
    refine disk_jfsJournalWrite_ne L (by rw [IsData]; simp only [jfsJournalWrite_nextFreeBlock] at hc; omega) ?_
    rintro rfl
    simp only [jfsJournalWrite_nextFreeBlock] at hc
    omega
  · obtain rfl : k = i := Fin.ext (by omega)
    exact hi
  · have hp : pos / 512 < 12 := by
      rw [maxBytes] at hpos
      omega
    rw [byteOf, byteOf, dif_pos hp, dif_pos hp]
    by_cases hki : (⟨pos / 512, hp⟩ : Fin 12) = i
    · have hdiv : pos / 512 = i := congrArg Fin.val hki
      rw [hki, if_neg hi, if_neg hi, disk_jfsJournalWrite_self]
      by_cases hin : 512 * (i : Nat) + o ≤ pos ∧ pos < 512 * (i : Nat) + o + len
      · rw [if_pos hin, Buffer.blit_of_mem (by omega) (by omega), hf _ (by omega)]
        congr 1
        omega
      · rw [if_neg hin]
        by_cases hlt : pos % 512 < o
        · exact Buffer.blit_of_lt hlt
        · exact Buffer.blit_of_ge (by omega)
    · have hdiv : pos / 512 ≠ i := fun h => hki (Fin.ext h)
      rw [if_neg (show ¬ (512 * (i : Nat) + o ≤ pos ∧ pos < 512 * (i : Nat) + o + len) by omega)]
      by_cases hk0 : x.blocks ⟨pos / 512, hp⟩ = 0
      · rw [if_pos hk0, if_pos hk0]
      · rw [if_neg hk0, if_neg hk0, disk_jfsJournalWrite_ne L (h.taken hk0).1 (hne _ hk0 hki)]

/-! ## The write loop -/

/-- The blocks a write from `lo` up to `hi` needs and the file does not have. -/
def holeSet (x : Inode) (lo hi : Nat) : Finset (Fin 12) :=
  Finset.univ.filter fun i => x.blocks i = 0 ∧ lo < hi ∧ lo < 512 * ((i : Nat) + 1) ∧ 512 * (i : Nat) < hi

def holes (x : Inode) (lo hi : Nat) : Nat := (holeSet x lo hi).card

theorem mem_holeSet : i ∈ holeSet x lo hi ↔ x.blocks i = 0 ∧ lo < hi ∧ lo < 512 * ((i : Nat) + 1) ∧
    512 * (i : Nat) < hi := by
  simp [holeSet]

theorem holeSet_empty (h : hi ≤ lo ∨ maxBytes ≤ lo) : holeSet x lo hi = ∅ := by
  refine Finset.eq_empty_of_forall_notMem fun i hmem => ?_
  have := mem_holeSet.1 hmem
  rw [maxBytes] at h
  omega

section Next

/- `i` is the block `lo` is in, and `mid` the end of what is written there. -/
variable (hlt : lo < hi) (hi' : (i : Nat) = lo / 512) (hmid : mid = min (512 * (lo / 512 + 1)) hi)
include hlt hi' hmid

theorem holeSet_next : holeSet x lo hi = if x.blocks i = 0 then insert i (holeSet x mid hi) else holeSet x mid hi := by
  ext k
  have hk : k = i ↔ (k : Nat) = i := Fin.ext_iff
  by_cases h0 : x.blocks i = 0
  · rw [if_pos h0, Finset.mem_insert, mem_holeSet, mem_holeSet]
    constructor
    · rintro ⟨hk0, -, h1, h2⟩
      by_cases hki : k = i
      · exact .inl hki
      · exact .inr ⟨hk0, by omega, by omega, h2⟩
    · rintro (rfl | ⟨hk0, h1, h2, h3⟩)
      · exact ⟨h0, hlt, by omega, by omega⟩
      · exact ⟨hk0, hlt, by omega, h3⟩
  · rw [if_neg h0, mem_holeSet, mem_holeSet]
    constructor
    · rintro ⟨hk0, -, h1, h2⟩
      have hki : k ≠ i := fun h => h0 (h ▸ hk0)
      exact ⟨hk0, by omega, by omega, h2⟩
    · rintro ⟨hk0, h1, h2, h3⟩
      exact ⟨hk0, hlt, by omega, h3⟩

omit hlt in
theorem notMem_holeSet_next : i ∉ holeSet x mid hi := by
  intro h
  have := mem_holeSet.1 h
  omega

theorem holes_next_hole (h0 : x.blocks i = 0) : holes x lo hi = holes x mid hi + 1 := by
  rw [holes, holeSet_next hlt hi' hmid, if_pos h0, Finset.card_insert_of_notMem (notMem_holeSet_next hi' hmid)]
  rfl

omit hlt in
theorem holeSet_withBlock {b : UInt32} : holeSet (x.withBlock i b) mid hi = holeSet x mid hi := by
  ext k
  rw [mem_holeSet, mem_holeSet]
  by_cases hki : k = i
  · subst hki
    constructor <;>
    · rintro ⟨-, h1, h2, h3⟩
      omega
  · rw [withBlock_of_ne hki]

end Next

/-- The block that fills hole `i` of a write from `lo` on, when blocks are taken from `next` on. -/
def granted (next : UInt32) (x : Inode) (lo : Nat) (i : Fin 12) : UInt32 :=
  next + UInt32.ofNat (holes x lo (512 * (i : Nat)))

def filled (next : UInt32) (x : Inode) (lo hi : Nat) : Inode :=
  { x with blocks := fun i => if i ∈ holeSet x lo hi then granted next x lo i else x.blocks i }

theorem filled_of_empty (h : holeSet x lo hi = ∅) (next : UInt32) : filled next x lo hi = x := by
  simp [filled, h]

section FilledNext

variable {next : UInt32} (hlt : lo < hi) (hi' : (i : Nat) = lo / 512) (hmid : mid = min (512 * (lo / 512 + 1)) hi)
include hlt hi' hmid

omit hlt hi' in
theorem mid_of_mem {k : Fin 12} (hk : k ∈ holeSet x mid hi) :
    lo < 512 * (k : Nat) ∧ mid = min (512 * (lo / 512 + 1)) (512 * (k : Nat)) := by
  have := mem_holeSet.1 hk
  omega

theorem filled_next_hole (h0 : x.blocks i = 0) : filled next x lo hi = filled (next + 1) (x.withBlock i next) mid hi := by
  have hblocks : ∀ k, (filled next x lo hi).blocks k = (filled (next + 1) (x.withBlock i next) mid hi).blocks k := by
    intro k
    simp only [filled, holeSet_withBlock hi' hmid, holeSet_next hlt hi' hmid, if_pos h0, Finset.mem_insert]
    by_cases hki : k = i
    · subst hki
      rw [if_pos (.inl rfl), if_neg (notMem_holeSet_next hi' hmid), withBlock_self, granted, holes,
        holeSet_empty (.inl (by omega)), Finset.card_empty]
      exact UInt32.add_zero _
    · rw [withBlock_of_ne hki]
      by_cases hk : k ∈ holeSet x mid hi
      · obtain ⟨hlt', hmid'⟩ := mid_of_mem hmid hk
        rw [if_pos (.inr hk), if_pos hk, granted, granted, holes_next_hole hlt' hi' hmid' h0]
        simp only [holes, holeSet_withBlock hi' hmid']
        rw [UInt32.ofNat_add, UInt32.add_comm (UInt32.ofNat _), ← UInt32.add_assoc]
        rfl
      · rw [if_neg (by simp [hki, hk]), if_neg hk]
  exact congrArg (fun bs => ({ x with blocks := bs } : Inode)) (funext hblocks)

theorem filled_next_block (h0 : x.blocks i ≠ 0) : filled next x lo hi = filled next x mid hi := by
  have hblocks : ∀ k, (filled next x lo hi).blocks k = (filled next x mid hi).blocks k := by
    intro k
    simp only [filled, holeSet_next hlt hi' hmid, if_neg h0]
    by_cases hk : k ∈ holeSet x mid hi
    · obtain ⟨hlt', hmid'⟩ := mid_of_mem hmid hk
      rw [if_pos hk, if_pos hk, granted, granted, holes, holeSet_next hlt' hi' hmid', if_neg h0]
      rfl
    · rw [if_neg hk, if_neg hk]
  exact congrArg (fun bs => ({ x with blocks := bs } : Inode)) (funext hblocks)

end FilledNext

/-- **The write loop** stores bytes up to the end of the request or of the twelfth block, and takes a block for every
hole on its way. -/
theorem writeBlocks_spec (offset size : Nat) (buffer : Buffer) : ∀ (turns : Nat) (s : Jfs) (x : Inode) (done : Nat),
    Held s ino x → offset + done ≤ maxBytes → done ≤ size → size - done ≤ turns →
    s.nextFreeBlock.toNat + holes x (offset + done) (offset + size) ≤ s.sb.totalBlocks.toNat →
    ∃ s' x' done', writeBlocks offset size buffer turns s x done = (s', x', done') ∧
      done' = min size (maxBytes - offset) ∧ x' = filled s.nextFreeBlock x (offset + done) (offset + size) ∧
      Wrote ino s x s' x' (fun pos => buffer (pos - offset)) (offset + done) (offset + done')
  | 0, s, x, done, h, hmax, hle, hturns, _ => by
    refine ⟨s, x, done, rfl, by omega, ?_, .refl h _ _⟩
    rw [filled_of_empty (holeSet_empty (.inl (by omega)))]
  | turns + 1, s, x, done, h, hmax, hle, hturns, hroom => by
    rw [writeBlocks]
    by_cases hlt : done < size
    · rw [if_pos hlt]
      have hpos : (offset + done) % 2 ^ 32 = offset + done := Nat.mod_eq_of_lt (hmax.trans_lt (by decide))
      simp only [hpos]
      by_cases hp : (offset + done) / 512 < 12
      · rw [dif_pos hp]
        generalize hc : min (512 - (offset + done) % 512) (size - done) = chunk
        obtain ⟨hchunk, hle', hfit⟩ := chunk_bounds (by decide) hlt hc
        generalize hi : (⟨(offset + done) / 512, hp⟩ : Fin 12) = i
        have hival : (i : Nat) = (offset + done) / 512 := by rw [← hi]
        have hstart : 512 * (i : Nat) + (offset + done) % 512 = offset + done := by
          rw [hival]
          exact Nat.div_add_mod _ _
        have hmid : offset + (done + chunk) = min (512 * ((offset + done) / 512 + 1)) (offset + size) := by
          rw [← Nat.add_assoc, ← hc, chunk_next (by decide), Nat.add_assoc, Nat.add_sub_cancel' hle]
        have hlt' : offset + done < offset + size := Nat.add_lt_add_left hlt offset
        have hmax' : offset + (done + chunk) ≤ maxBytes := by
          rw [hmid]
          exact (Nat.min_le_left _ _).trans (Nat.mul_le_mul_left 512 hp)
        have hon : offset + done ≤ offset + (done + chunk) := Nat.add_le_add_left (Nat.le_add_right done chunk) offset
        have hturns' := chunk_turns hturns hchunk
        have hto : offset + (done + chunk) ≤ offset + min size (maxBytes - offset) :=
          Nat.add_le_add_left (Nat.le_min.2 ⟨hle', Nat.le_sub_of_add_le' hmax'⟩) offset
        have hsrc : ∀ k < chunk, buffer.drop done k =
            (fun pos => buffer (pos - offset)) (512 * (i : Nat) + (offset + done) % 512 + k) := by
          intro k _
          simp only [Buffer.drop]
          rw [hstart, Nat.add_assoc, Nat.add_sub_cancel_left]
        by_cases h0 : x.blocks i = 0
        · -- the next free block fills the hole
          rw [if_pos h0]
          have hholes := holes_next_hole hlt' hival hmid h0
          rw [hholes, ← Nat.add_assoc] at hroom
          have hfree : s.nextFreeBlock.toNat < s.sb.totalBlocks.toNat :=
            (Nat.lt_succ_of_le (Nat.le_add_right _ _)).trans_le hroom
          have hb := Wrote.bump h h0 hfree (fun pos => buffer (pos - offset)) (offset + done)
          have hne0 := (h.wf.bump hfree).2.taken.ne_zero h.wf.layout
          have hst := Wrote.store hb.held (i := i) (by rw [withBlock_self]; exact hne0) (buffer.drop done)
            (fun pos => buffer (pos - offset)) ((offset + done) % 512) chunk hfit hsrc
          rw [hstart, Nat.add_assoc offset done chunk] at hst
          have hroom' : s.bump.nextFreeBlock.toNat + holes (x.withBlock i s.nextFreeBlock) (offset + (done + chunk))
              (offset + size) ≤ s.sb.totalBlocks.toNat := by
            rwa [bump_toNat hfree, holes, holeSet_withBlock hival hmid, ← holes, Nat.add_right_comm]
          have hboth := hb.trans hst (Nat.le_refl _) hon
          rw [withBlock_self] at hst hboth
          obtain ⟨s', x', done', hr, hdone, hx, hw⟩ := writeBlocks_spec offset size buffer turns _ _ (done + chunk)
            hst.held hmax' hle' hturns' hroom'
          refine ⟨s', x', done', ?_, hdone, ?_, ?_⟩
          · simp only [show ({ x with blocks := update x.blocks i s.nextFreeBlock } : Inode) =
              x.withBlock i s.nextFreeBlock from rfl, update_self]
            exact hr
          · rw [hx, filled_next_hole hlt' hival hmid h0]
            rfl
          · exact hboth.trans hw hon (hdone ▸ hto)
        · rw [if_neg h0]
          have hst := Wrote.store h h0 (buffer.drop done) (fun pos => buffer (pos - offset)) ((offset + done) % 512) chunk
            hfit hsrc
          rw [hstart, Nat.add_assoc offset done chunk] at hst
          have hholes : holes x (offset + done) (offset + size) = holes x (offset + (done + chunk)) (offset + size) := by
            rw [holes, holeSet_next hlt' hival hmid, if_neg h0, holes]
          rw [hholes] at hroom
          obtain ⟨s', x', done', hr, hdone, hx, hw⟩ := writeBlocks_spec offset size buffer turns _ _ (done + chunk)
            hst.held hmax' hle' hturns' hroom
          refine ⟨s', x', done', hr, hdone, ?_, hst.trans hw hon (hdone ▸ hto)⟩
          rw [hx, filled_next_block hlt' hival hmid h0]
          rfl
      · rw [dif_neg hp]
        refine ⟨s, x, done, rfl, ?_, ?_, .refl h _ _⟩
        · rw [maxBytes] at hmax ⊢
          omega
        · rw [filled_of_empty (holeSet_empty (.inr (by rw [maxBytes]; omega)))]
    · rw [if_neg hlt]
      refine ⟨s, x, done, rfl, by omega, ?_, .refl h _ _⟩
      rw [filled_of_empty (holeSet_empty (.inl (by omega)))]

theorem Held.ofDisk (h : Wf s) (hk : Known s ino) (hfile : (getInode s ino).isDirectory = false) :
    Held s ino (getInode s ino) :=
  ⟨h, hk, hfile, fun _ _ => .inl rfl⟩

def stored (offset size : UInt32) : Nat := min size.toNat (maxBytes - offset.toNat)

def needed (s : Jfs) (ino offset size : UInt32) : Nat :=
  holes (getInode s ino) offset.toNat (offset.toNat + size.toNat)

def afterWrite (s : Jfs) (ino offset size : UInt32) : Inode :=
  filled s.nextFreeBlock (getInode s ino) offset.toNat (offset.toNat + size.toNat)

theorem writeBlocks_start (buffer : Buffer) (h : Wf s) (hk : Known s ino) (hfile : (getInode s ino).isDirectory = false)
    {offset size : UInt32} (hroom : s.nextFreeBlock.toNat + needed s ino offset size ≤ s.sb.totalBlocks.toNat) :
    ∃ s', writeBlocks offset.toNat size.toNat buffer size.toNat s (getInode s ino) 0 =
        (s', afterWrite s ino offset size, stored offset size) ∧
      Wrote ino s (getInode s ino) s' (afterWrite s ino offset size) (fun pos => buffer (pos - offset.toNat))
        offset.toNat (offset.toNat + stored offset size) := by
  have hh := Held.ofDisk h hk hfile
  by_cases hlt : offset.toNat ≤ maxBytes
  · obtain ⟨s', x', done, hr, hdone, hx, hw⟩ := writeBlocks_spec offset.toNat size.toNat buffer
      size.toNat s (getInode s ino) 0 hh hlt (Nat.zero_le _) (Nat.le_refl _) hroom
    rw [← stored] at hdone
    subst hdone hx
    exact ⟨s', hr, hw⟩
  · have hst : stored offset size = 0 := by
      rw [stored]
      omega
    have hx : afterWrite s ino offset size = getInode s ino := filled_of_empty (holeSet_empty (.inr (by omega))) _
    refine ⟨s, ?_, by rw [hst, hx]; exact .refl hh _ _⟩
    rw [hst, hx]
    cases hsize : size.toNat with
    | zero => rfl
    | succ n =>
      have := offset.toNat_lt
      have hp : ¬ (offset.toNat + 0) % 2 ^ 32 / 512 < 12 := by
        rw [maxBytes] at hlt
        omega
      rw [writeBlocks, if_pos (Nat.succ_pos n)]
      simp only
      rw [dif_neg hp]

/-! ## jfs_write -/

theorem stored_toNat (offset size : UInt32) :
    (offset + UInt32.ofNat (stored offset size)).toNat = offset.toNat + stored offset size := by
  have h1 := offset.toNat_lt
  have h2 := size.toNat_lt
  rw [UInt32.toNat_add, UInt32.toNat_ofNat', stored, maxBytes]
  omega

structure FileWrite (s : Jfs) (ino offset size : UInt32) (buffer : Buffer) (r : Jfs × Nat) : Prop where
  count : r.2 = stored offset size
  wf : Wf r.1
  sb : r.1.sb = s.sb
  next : r.1.nextInode = s.nextInode
  free : s.nextFreeBlock.toNat ≤ r.1.nextFreeBlock.toNat
  inode : ∀ a, Known s a → a ≠ ino → getInode r.1 a = getInode s a
  flags : (getInode r.1 ino).flags = (getInode s ino).flags
  length : (getInode r.1 ino).size.toNat = max (getInode s ino).size.toNat (offset.toNat + stored offset size)
  data : ∀ b, Taken s b → (∀ i, (getInode s ino).blocks i ≠ b) → r.1.disk b = s.disk b
  /-- The bytes are stored and no other changes, if the inode goes back or took no block; what a block held when it was
  taken stays where nothing is stored. -/
  bytes : (getInode s ino).size.toNat < offset.toNat + stored offset size ∨ needed s ino offset size = 0 →
    ∀ pos < maxBytes, byteOf r.1 (getInode r.1 ino) pos =
      if offset.toNat ≤ pos ∧ pos < offset.toNat + stored offset size then buffer (pos - offset.toNat)
      else byteOf s (afterWrite s ino offset size) pos

theorem byteOf_congr (hblocks : x'.blocks = x.blocks)
    (hdisk : ∀ i, x.blocks i ≠ 0 → s'.disk (x.blocks i) = s.disk (x.blocks i)) (pos : Nat) :
    byteOf s' x' pos = byteOf s x pos := by
  rw [byteOf, byteOf, hblocks]
  split
  · rename_i hp
    by_cases h0 : x.blocks ⟨pos / 512, hp⟩ = 0
    · rw [if_pos h0, if_pos h0]
    · rw [if_neg h0, if_neg h0, hdisk _ h0]
  · rfl

theorem jfsWrite_spec (h : Wf s) (hk : Known s ino) (hfile : (getInode s ino).isDirectory = false)
    {offset size : UInt32} (hroom : s.nextFreeBlock.toNat + needed s ino offset size ≤ s.sb.totalBlocks.toNat) :
    FileWrite s ino offset size buffer (jfsWrite s ino offset size buffer) := by
  obtain ⟨s', hr, hw⟩ := writeBlocks_start buffer h hk hfile hroom
  have hk' : Known s' ino := hw.held.known
  have hnot : ¬ (getInode s ino).isDirectory = true := by
    rw [hfile]
    decide
  have hlt : (afterWrite s ino offset size).size < offset + UInt32.ofNat (stored offset size) ↔
      (getInode s ino).size.toNat < offset.toNat + stored offset size := by
    rw [UInt32.lt_iff_toNat_lt, stored_toNat, hw.size]
  simp only [jfsWrite, if_neg hnot, hr]
  by_cases hgrow : (getInode s ino).size.toNat < offset.toNat + stored offset size
  · rw [if_pos (hlt.2 hgrow)]
    have L := hw.held.wf.layout
    have hin := hw.held.wf.inTable hk'
    have hdisk : ∀ x b, IsData s'.sb b → (putInode s' x ino).disk b = s'.disk b := fun x b hb => disk_putInode L hin hb
    refine ⟨rfl, hw.held.wf.putInode hk' hw.held.blocks fun hd => ?_, hw.sb, hw.next, hw.free, fun a ha hne => ?_, ?_, ?_,
      fun b hb hne => ?_, fun _ pos hpos => ?_⟩
    · exact absurd hd hnot
    · have ha' : Known s' a := by rw [Known, hw.next]; exact ha
      rw [getInode_putInode_ne L hin (hw.held.wf.inTable ha') hne, hw.inode a ha]
    · rw [getInode_putInode_self]
      exact hw.flags
    · rw [getInode_putInode_self]
      simp only [stored_toNat]
      omega
    · rw [hdisk _ b (hw.sb ▸ hb.1), hw.data b hb hne]
    · rw [getInode_putInode_self]
      refine (byteOf_congr (x := afterWrite s ino offset size) (s := s') rfl
        (fun i h0 => hdisk _ _ (hw.held.taken h0).1) pos).trans ?_
      exact hw.bytes pos hpos
  · rw [if_neg fun h => hgrow (hlt.1 h)]
    refine ⟨rfl, hw.held.wf, hw.sb, hw.next, hw.free, fun a ha _ => hw.inode a ha, ?_, ?_, hw.data, fun hcond pos hpos => ?_⟩
    · rw [hw.inode ino hk]
    · rw [hw.inode ino hk]
      omega
    · have hsame : afterWrite s ino offset size = getInode s ino :=
        filled_of_empty (Finset.card_eq_zero.1 (hcond.resolve_left hgrow)) _
      rw [hsame] at hw ⊢
      rw [hw.inode ino hk]
      exact hw.bytes pos hpos

theorem FileWrite.other (h : Wf s) (hk : Known s ino) {offset size : UInt32} {r : Jfs × Nat}
    (hw : FileWrite s ino offset size buffer r) (hidx : Known s idx) (hne : idx ≠ ino) (pos : Nat) :
    byteOf r.1 (getInode r.1 idx) pos = byteOf s (getInode s idx) pos := by
  rw [hw.inode idx hidx hne]
  refine byteOf_congr rfl (fun i h0 => hw.data _ (h.taken idx hidx i h0) fun j heq => ?_) pos
  exact h.block_ne hk hidx hne h0 heq i rfl

/-! ## jfs_read -/

/-- **The read loop** gives the bytes of the file up to the end of the request or of the twelfth block. -/
theorem readBlocks_spec (s : Jfs) (x : Inode) (offset size : Nat) : ∀ (turns done : Nat), offset + done ≤ maxBytes →
    done ≤ size → size - done ≤ turns → readBlocks s x offset size turns done =
      (List.range (min size (maxBytes - offset) - done)).map fun k => byteOf s x (offset + done + k)
  | 0, done, hmax, hle, hturns => by
    rw [readBlocks, show min size (maxBytes - offset) - done = 0 by omega]
    rfl
  | turns + 1, done, hmax, hle, hturns => by
    rw [readBlocks]
    by_cases hlt : done < size
    · rw [if_pos hlt]
      have hpos : (offset + done) % 2 ^ 32 = offset + done := Nat.mod_eq_of_lt (hmax.trans_lt (by decide))
      simp only [hpos]
      by_cases hp : (offset + done) / 512 < 12
      · rw [dif_pos hp]
        have hless : offset + done < maxBytes := by
          rw [maxBytes]
          omega
        by_cases h0 : x.blocks ⟨(offset + done) / 512, hp⟩ = 0
        · -- a hole is read byte by byte
          have hbyte : byteOf s x (offset + done + 0) = 0 := by rw [Nat.add_zero, byteOf, dif_pos hp, if_pos h0]
          rw [if_pos h0, readBlocks_spec s x offset size turns (done + 1) hless hlt (by omega),
            show min size (maxBytes - offset) - done = min size (maxBytes - offset) - (done + 1) + 1 by omega,
            List.range_succ_eq_map, List.map_cons, List.map_map, hbyte]
          refine congrArg (0 :: ·) (List.map_congr_left fun k _ => ?_)
          exact congrArg (byteOf s x) (by omega)
        · rw [if_neg h0]
          generalize hc : min (512 - (offset + done) % 512) (size - done) = chunk
          obtain ⟨hpos', hle', hfit⟩ := chunk_bounds (by decide) hlt hc
          have hmax' : offset + (done + chunk) ≤ maxBytes := by
            rw [← Nat.add_assoc, ← hc, chunk_next (by decide)]
            exact (Nat.min_le_left _ _).trans (Nat.mul_le_mul_left 512 hp)
          have hchunk : (List.range chunk).map (fun k => s.disk (x.blocks ⟨(offset + done) / 512, hp⟩)
              ((offset + done) % 512 + k)) = (List.range chunk).map fun k => byteOf s x (offset + done + k) := by
            refine List.map_congr_left fun k hk => ?_
            obtain ⟨hdiv, hmod⟩ := chunk_within ((Nat.add_lt_add_left (List.mem_range.1 hk) _).trans_le hfit)
            simp only [byteOf, hdiv, hmod]
            rw [dif_pos hp, if_neg h0]
          have hsplit : min size (maxBytes - offset) - done = chunk + (min size (maxBytes - offset) - (done + chunk)) := by
            rw [Nat.sub_add_eq, Nat.add_sub_cancel']
            exact Nat.le_sub_of_add_le' (Nat.le_min.2 ⟨hle', Nat.le_sub_of_add_le' hmax'⟩)
          rw [readBlocks_spec s x offset size turns (done + chunk) hmax' hle' (chunk_turns hturns hpos'), hchunk, hsplit,
            List.range_add, List.map_append, List.map_map]
          refine congrArg (_ ++ ·) (List.map_congr_left fun k _ => ?_)
          exact congrArg (byteOf s x) (by rw [← Nat.add_assoc offset, Nat.add_assoc (offset + done)])
      · rw [dif_neg hp, show min size (maxBytes - offset) - done = 0 by rw [maxBytes]; omega]
        rfl
    · rw [if_neg hlt, show min size (maxBytes - offset) - done = 0 by omega]
      rfl

theorem jfsRead_spec (hfile : (getInode s ino).isDirectory = false) (hsize : (getInode s ino).size.toNat ≤ maxBytes)
    {offset size : UInt32} {k : Nat} (hk : k < size.toNat) (hpos : offset.toNat + k < (getInode s ino).size.toNat) :
    (jfsRead s ino offset size)[k]? = some (byteOf s (getInode s ino) (offset.toNat + k)) := by
  have hnot : ¬ (getInode s ino).isDirectory = true := by
    rw [hfile]
    decide
  have hin : ¬ (getInode s ino).size ≤ offset := by
    rw [UInt32.le_iff_toNat_le]
    omega
  rw [jfsRead]
  simp only [if_neg hnot, if_neg hin]
  -- where the sum of offset and size wraps, the request is not cut
  generalize hcut : (if (getInode s ino).size < offset + size then (getInode s ino).size - offset else size) = n
  have hn : k < n.toNat := by
    subst hcut
    split
    · rw [UInt32.toNat_sub_of_le _ _ (UInt32.le_iff_toNat_le.2 (by omega))]
      omega
    · exact hk
  rw [readBlocks_spec s _ _ _ _ 0 (by omega) (Nat.zero_le _) (by omega), List.getElem?_map, List.getElem?_range (by omega)]
  rfl

/-! ## Runs -/

structure Regular (s : Jfs) (ino : UInt32) : Prop where
  known : Known s ino
  file : (getInode s ino).isDirectory = false

/-- A mounted filesystem, and the last byte written at each position of each file: 0 where none was. -/
structure Files where
  jfs : Jfs
  last : UInt32 → Buffer

inductive FileOp where
  | read (ino offset size : UInt32)
  | write (ino offset size : UInt32) (buffer : Buffer)

def Files.step (t : Files) : FileOp → Files
  | .read _ _ _ => t
  | .write ino offset size buffer =>
    let r := jfsWrite t.jfs ino offset size buffer
    ⟨r.1, update t.last ino ((t.last ino).blit offset.toNat buffer r.2)⟩

def AsBytes (t : Files) : FileOp → Prop
  | .read ino offset size => ∀ k < size.toNat, offset.toNat + k < (getInode t.jfs ino).size.toNat →
      (jfsRead t.jfs ino offset size)[k]? = some (t.last ino (offset.toNat + k))
  | .write ino offset size buffer =>
    let r := jfsWrite t.jfs ino offset size buffer
    r.2 = stored offset size ∧ (getInode r.1 ino).size.toNat =
      if 0 < r.2 then max (getInode t.jfs ino).size.toNat (offset.toNat + r.2) else (getInode t.jfs ino).size.toNat

structure FilesOk (t : Files) : Prop where
  wf : Wf t.jfs
  size : ∀ ino, Regular t.jfs ino → (getInode t.jfs ino).size.toNat ≤ maxBytes
  bytes : ∀ ino, Regular t.jfs ino → ∀ pos < (getInode t.jfs ino).size.toNat,
    byteOf t.jfs (getInode t.jfs ino) pos = t.last ino pos
  beyond : ∀ ino, Regular t.jfs ino → ∀ pos, (getInode t.jfs ino).size.toNat ≤ pos → t.last ino pos = 0

/-- What keeps a write from going wrong: there is room for it; it makes the file longer if it takes a block; it does not
make it longer if it stores nothing; and where nothing is stored below the new size the blocks it leaves the file with
hold what was there, and zeroes behind the old size. -/
structure WriteMet (s : Jfs) (ino offset size : UInt32) : Prop where
  room : s.nextFreeBlock.toNat + needed s ino offset size ≤ s.sb.totalBlocks.toNat
  grows : needed s ino offset size ≠ 0 → (getInode s ino).size.toNat < offset.toNat + stored offset size
  nothing : stored offset size = 0 → offset.toNat ≤ (getInode s ino).size.toNat
  clean : ∀ pos < max (getInode s ino).size.toNat (offset.toNat + stored offset size),
    ¬ (offset.toNat ≤ pos ∧ pos < offset.toNat + stored offset size) → byteOf s (afterWrite s ino offset size) pos =
      if pos < (getInode s ino).size.toNat then byteOf s (getInode s ino) pos else 0

def FileMet (t : Files) : FileOp → Prop
  | .read ino _ _ => Regular t.jfs ino
  | .write ino offset size _ => Regular t.jfs ino ∧ WriteMet t.jfs ino offset size

variable {t : Files} {offset size : UInt32}

theorem FilesOk.step_write (h : FilesOk t) (hr : Regular t.jfs ino) (hm : WriteMet t.jfs ino offset size) :
    FilesOk (t.step (.write ino offset size buffer)) ∧ AsBytes t (.write ino offset size buffer) := by
  have hw : FileWrite t.jfs ino offset size buffer (jfsWrite t.jfs ino offset size buffer) :=
    jfsWrite_spec h.wf hr.known hr.file hm.room
  have hsize := h.size ino hr
  have hst : stored offset size = min size.toNat (maxBytes - offset.toNat) := rfl
  have hlen : (getInode (jfsWrite t.jfs ino offset size buffer).1 ino).size.toNat ≤ maxBytes := by
    have hn := hm.nothing
    rw [hw.length]
    omega
  simp only [Files.step, AsBytes]
  generalize hres : jfsWrite t.jfs ino offset size buffer = r at hw hlen
  obtain ⟨s', n⟩ := r
  obtain rfl : n = stored offset size := hw.count
  have hreg : ∀ idx, Regular s' idx → Regular t.jfs idx := by
    intro idx hidx
    have hknown : Known t.jfs idx := by
      rw [Known, ← hw.next]
      exact hidx.known
    by_cases hne : idx = ino
    · exact hne ▸ hr
    · exact ⟨hknown, hw.inode idx hknown hne ▸ hidx.file⟩
  have hbytes := hw.bytes (by
    by_cases h0 : needed t.jfs ino offset size = 0
    · exact .inr h0
    · exact .inl (hm.grows h0))
  refine ⟨⟨hw.wf, fun idx hidx => ?_, fun idx hidx pos hpos => ?_, fun idx hidx pos hpos => ?_⟩, rfl, ?_⟩
  · by_cases hne : idx = ino
    · rw [hne]
      exact hlen
    · rw [hw.inode idx (hreg idx hidx).known hne]
      exact h.size idx (hreg idx hidx)
  · by_cases hne : idx = ino
    · subst hne
      simp only [update_self]
      rw [hbytes pos (Nat.lt_of_lt_of_le hpos hlen)]
      by_cases hin : offset.toNat ≤ pos ∧ pos < offset.toNat + stored offset size
      · rw [if_pos hin, Buffer.blit_of_mem hin.1 hin.2]
      · rw [if_neg hin, hm.clean pos (hw.length ▸ hpos) hin, Buffer.blit, if_neg hin]
        split
        · rename_i hlt
          exact h.bytes idx hr pos hlt
        · rename_i hge
          exact (h.beyond idx hr pos (by omega)).symm
    · simp only [update_of_ne hne]
      have hk := (hreg idx hidx).known
      rw [hw.inode idx hk hne] at hpos
      exact (hw.other h.wf hr.known hk hne pos).trans (h.bytes idx (hreg idx hidx) pos hpos)
  · by_cases hne : idx = ino
    · subst hne
      simp only [update_self]
      rw [hw.length] at hpos
      rw [Buffer.blit_of_ge (by omega)]
      exact h.beyond idx hr pos (by omega)
    · simp only [update_of_ne hne]
      rw [hw.inode idx (hreg idx hidx).known hne] at hpos
      exact h.beyond idx (hreg idx hidx) pos hpos
  · have hn := hm.nothing
    have hlength := hw.length
    simp only at hlength ⊢
    rw [hlength]
    split <;> omega

theorem FilesOk.step (h : FilesOk t) (op : FileOp) (hm : FileMet t op) : FilesOk (t.step op) ∧ AsBytes t op := by
  cases op with
  | read ino offset size =>
    refine ⟨h, fun k hk hpos => ?_⟩
    rw [jfsRead_spec hm.file (h.size ino hm) hk hpos, h.bytes ino hm _ hpos]
  | write ino offset size buffer => exact h.step_write hm.1 hm.2

/-- **Files are byte arrays** in every run of reads and writes that meet the condition. -/
theorem files_are_byte_arrays (t : Files) (h : FilesOk t) (ops : List FileOp) (hm : Run.Guarded Files.step FileMet t ops) :
    Run.Guarded Files.step AsBytes t ops :=
  Run.guarded_imp (P := FilesOk) (fun _ op h hm => h.step op hm) ops t h hm

def sampleFiles : Files := ⟨(jfsAllocInode (freshJfs 1024) fsFile).1, fun _ _ => 0⟩

theorem sample_regular : Regular sampleFiles.jfs idx ↔ idx = 1 := by
  have hwf : Wf (freshJfs 1024) := fresh_wf (by decide)
  have hk : Known sampleFiles.jfs idx ↔ _ := allocInode_known hwf (by decide) fsFile
  rw [known_fresh] at hk
  constructor
  · intro hr
    rcases hk.1 hr.known with rfl | h1
    · exact absurd hr.file (by decide +kernel)
    · exact h1
  · rintro rfl
    exact ⟨show 1 < 2 by decide, by decide +kernel⟩

theorem sample_ok : FilesOk sampleFiles := by
  have hsize : (getInode sampleFiles.jfs 1).size.toNat = 0 := by decide +kernel
  refine ⟨(fresh_wf (by decide)).allocInode (by decide) fsFile, fun ino hr => ?_, fun ino hr pos hpos => ?_,
    fun _ _ _ _ => rfl⟩
  · rw [sample_regular.1 hr, hsize]
    exact Nat.zero_le _
  · rw [sample_regular.1 hr, hsize] at hpos
    exact absurd hpos (Nat.not_lt_zero _)

def sampleRun : List FileOp := [.write 1 3 2 fun _ => 7, .write 1 20 1 fun _ => 8, .read 1 0 21]

theorem sample_byte_array : FilesOk sampleFiles ∧ Run.Guarded Files.step FileMet sampleFiles sampleRun ∧
    Run.Guarded Files.step AsBytes sampleFiles sampleRun := by
  have hm : Run.Guarded Files.step FileMet sampleFiles sampleRun := by
    refine ⟨⟨sample_regular.2 rfl, ⟨?_, ?_, ?_, ?_⟩⟩, ⟨⟨?_, ?_⟩, ⟨?_, ?_, ?_, ?_⟩⟩, ⟨?_, ?_⟩, trivial⟩
    all_goals decide +kernel
  exact ⟨sample_ok, hm, files_are_byte_arrays sampleFiles sample_ok sampleRun hm⟩

/-- A byte behind a hole, then one in the hole: the file does not grow, so the block that took it is forgotten. -/
theorem hole_filled_in_vain : FilesOk sampleFiles ∧ Regular sampleFiles.jfs 1 ∧
    ¬ Run.Guarded Files.step AsBytes sampleFiles
      [.write 1 512 1 fun _ => 7, .write 1 0 1 fun _ => 9, .read 1 0 1] := by
  refine ⟨sample_ok, sample_regular.2 rfl, fun h => ?_⟩
  have hread := h.2.2.1 0 (by decide) (by decide +kernel)
  revert hread
  decide +kernel

end EterOS.Fs
