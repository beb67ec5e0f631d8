import EterOS.Libc.MallocBlocks
import EterOS.Lib.Run
/-!
# MallocRun — the heap over any sequence of calls

What `malloc`, `free`, `calloc` and `realloc` do to the row of blocks, and from it what holds after any calls of a program
that frees what it has and writes inside its payloads.
-/
namespace EterOS.Libc

open List

variable {m m' : Buffer} {h h' : LibcHeap} {start stop size ptr : Nat} {A B L L' : List Blk} {b c x : Blk} {granted : Bool}

/-! ## `find_free_block` and `request_space` -/

theorem findFreeBlock_spec (m : Buffer) (size : Nat) :
    ∀ (L : List Blk) (fuel prev last : Nat), L.length ≤ fuel → Heads m prev L 0 → (∀ b ∈ L, b.addr ≠ 0) →
      findFreeBlock m size fuel last (nextAddr L 0) = (0, lastAddr last L) ∨
      ∃ A b B last', L = A ++ b :: B ∧ b.free = true ∧ size ≤ b.size ∧
      findFreeBlock m size fuel last (nextAddr L 0) = (b.addr, last')
  | [], fuel, _, last, _, _, _ => by
    left
    cases fuel <;> rfl
  | b :: L, fuel, _, last, hfuel, hh, hpos => by
    obtain ⟨fuel, rfl⟩ := Nat.exists_eq_succ_of_ne_zero (Nat.ne_of_gt (Nat.lt_of_lt_of_le (Nat.succ_pos _) hfuel))
    obtain ⟨hb, hL⟩ := hh
    have hne : b.addr ≠ 0 := hpos b mem_cons_self
    rw [nextAddr_cons]
    unfold findFreeBlock
    rw [if_neg hne, hb]
    dsimp only
    by_cases hfit : b.free = true ∧ size ≤ b.size
    · rw [if_pos hfit]
      exact .inr ⟨[], b, L, last, rfl, hfit.1, hfit.2, rfl⟩
    · rw [if_neg hfit]
      rcases findFreeBlock_spec m size L fuel b.addr b.addr (Nat.le_of_succ_le_succ hfuel) hL
        (fun c hc => hpos c (mem_cons_of_mem _ hc)) with hend | ⟨A, c, B, last', rfl, hfree, hle, hfound⟩
      · exact .inl hend
      · exact .inr ⟨b :: A, c, B, last', rfl, hfree, hle, hfound⟩

theorem newBlock_upd (m : Buffer) (block size last : Nat) (hsize : size < 2 ^ 64) (hlast : last < 2 ^ 64) :
    Upd m (setFree (setPrev (setNext (setSize m block size) block 0) block last) block false) block
      ⟨size, 0, last, false⟩ := by
  have h1 : Upd m (setSize m block size) block _ := upd_setSize hsize
  have h2 := h1.trans (upd_setNext (v := 0) (by decide))
  have h3 := h2.trans (upd_setPrev (v := last) hlast)
  have h4 := h3.trans (upd_setFree false)
  refine ⟨?_, h4.out⟩
  rw [h4.self, h3.self, h2.self, h1.self]

theorem blocks_first (hpos : 0 < stop) (hsix : 16 ∣ size) (hlimit : stop + BLOCK_SIZE + size ≤ USER_LIMIT) :
    Blocks (setFree (setPrev (setNext (setSize m stop size) stop 0) stop 0) stop false) stop [⟨stop, size, false⟩]
      (stop + BLOCK_SIZE + size) := by
  unfold USER_LIMIT BLOCK_SIZE at hlimit
  have hupd := newBlock_upd m stop size 0 (by omega) (by decide)
  refine ⟨hpos, ?_, ⟨rfl, rfl⟩, ⟨hupd.self, trivial⟩, fun b hb => ?_⟩
  · unfold USER_LIMIT BLOCK_SIZE
    omega
  · rw [mem_singleton.1 hb]
    exact hsix

theorem Blocks.append (hb : Blocks m start (A ++ [b]) stop) (hsix : 16 ∣ size)
    (hlimit : stop + BLOCK_SIZE + size ≤ USER_LIMIT) :
    Blocks (Libc.setFree (setPrev (setNext (setSize (setNext m b.addr stop) stop size) stop 0) stop b.addr) stop false) start
      (A ++ [b, ⟨stop, size, false⟩]) (stop + BLOCK_SIZE + size) ∧
    ∀ i, InPayload (A ++ [b, ⟨stop, size, false⟩]) i →
      Libc.setFree (setPrev (setNext (setSize (setNext m b.addr stop) stop size) stop 0) stop b.addr) stop false i =
      m i := by
  have hheader := hb.header
  have hbounds := hb.tiles.bounds b (by simp)
  have hlast : stop = b.addr + BLOCK_SIZE + b.size := by
    obtain ⟨mid, -, rfl, hend⟩ := tiles_append.1 hb.tiles
    exact hend.symm
  have hlimit' := hlimit
  unfold USER_LIMIT BLOCK_SIZE at hlimit'
  unfold BLOCK_SIZE at hbounds
  have h1 : Upd m (setNext m b.addr stop) b.addr _ := upd_setNext (by omega)
  generalize setNext m b.addr stop = m1 at *
  have h2 := newBlock_upd m1 stop size b.addr (by omega) (by omega)
  refine Blocks.exchange (M := [b]) (N := [b, ⟨stop, size, false⟩]) (B := []) hb hlimit ?_ ⟨?_, h2.self, trivial⟩ rfl
    (fun hne => absurd rfl hne) ?_ ?_
  · obtain ⟨mid, hA, rfl, -⟩ := tiles_append.1 hb.tiles
    exact tiles_append.2 ⟨_, hA, rfl, hlast, by rw [← hlast]; rfl⟩
  · rw [h2.other (by unfold BLOCK_SIZE; omega), h1.self, hheader]
    rfl
  · exact (h1.changes (.inl ⟨b, mem_cons_self, rfl⟩)).trans
      (h2.changes (.inl ⟨_, mem_cons_of_mem _ mem_cons_self, rfl⟩))
  · intro y hy
    simp only [mem_cons, not_mem_nil, or_false] at hy
    rcases hy with rfl | rfl
    · exact hb.sixteens y (by simp)
    · exact hsix

/-! ## The row of a heap -/

def Used (L : List Blk) (x : Blk) : Prop := x ∈ L ∧ x.free = false

/-- The bytes of the payloads in use in `L'` are as they were. -/
def Kept (m m' : Buffer) (L' : List Blk) : Prop :=
  ∀ x, Used L' x → ∀ i, x.addr + BLOCK_SIZE ≤ i → i < x.addr + BLOCK_SIZE + x.size → m' i = m i

/-- **The invariant of the heap**: no block before the first request, and a row up to the break after it. -/
structure HeapOk (h : LibcHeap) (L : List Blk) : Prop where
  pos : 0 < h.brk
  none : h.heapStart = 0 → L = []
  some : h.heapStart ≠ 0 → L ≠ [] ∧ Blocks h.mem h.heapStart L h.brk

theorem HeapOk.blocks (hh : HeapOk h L) (hx : x ∈ L) : h.heapStart ≠ 0 ∧ Blocks h.mem h.heapStart L h.brk := by
  have hne : h.heapStart ≠ 0 := by
    intro h0
    rw [hh.none h0] at hx
    cases hx
  exact ⟨hne, (hh.some hne).2⟩

theorem align_spec {n : Nat} (hn : n ≤ SIZE_MAX - BLOCK_SIZE - ALIGNMENT) :
    n ≤ align n ∧ 16 ∣ align n ∧ align n < 2 ^ 64 - 32 := by
  unfold SIZE_MAX BLOCK_SIZE ALIGNMENT at hn
  unfold align ALIGNMENT
  omega

theorem Blocks.trySplit (hb : Blocks m start (A ++ b :: B) stop) (hsix : 16 ∣ size) (hle : size ≤ b.size) :
    ∃ b' R, Blocks (splitBlock m b.addr size) start (A ++ b' :: (R ++ B)) stop ∧ b'.addr = b.addr ∧ b'.free = b.free ∧
      size ≤ b'.size ∧ b'.size ≤ b.size ∧ (∀ y ∈ R, y.free = true) ∧
      ∀ i, InPayload (A ++ b' :: (R ++ B)) i → splitBlock m b.addr size i = m i := by
  by_cases hroom : size + BLOCK_SIZE + ALIGNMENT ≤ b.size
  · obtain ⟨hsplit, hbytes⟩ := hb.split hsix hroom
    refine ⟨{ b with size }, [⟨b.addr + BLOCK_SIZE + size, b.size - size - BLOCK_SIZE, true⟩], hsplit, rfl, rfl,
      Nat.le_refl _, hle, ?_, hbytes⟩
    intro y hy
    rw [mem_singleton.1 hy]
  · have hsame : splitBlock m b.addr size = m := by
      have hbounds := hb.tiles.bounds b (by simp)
      have hlimit := hb.limit
      unfold USER_LIMIT at hlimit
      unfold BLOCK_SIZE ALIGNMENT at hroom
      unfold BLOCK_SIZE at hbounds
      unfold splitBlock BLOCK_SIZE ALIGNMENT
      rw [hb.header, if_neg]
      dsimp only
      omega
    rw [hsame]
    exact ⟨b, [], hb, rfl, rfl, hle, Nat.le_refl _, fun y hy => (by cases hy), fun _ _ => rfl⟩

/-- What `malloc` gives: a block in use that was none, of the size at least, and the others as they were. -/
structure Gives (h h' : LibcHeap) (L : List Blk) (size ptr : Nat) (L' : List Blk) (b : Blk) : Prop where
  ok : HeapOk h' L'
  used : ∀ x, Used L' x ↔ Used L x ∨ x = b
  new : ∀ x, Used L x → x.addr ≠ b.addr
  ptr : ptr = b.addr + BLOCK_SIZE
  size : size ≤ b.size
  kept : Kept h.mem h'.mem L

theorem Gives.mono {size' : Nat} (hg : Gives h h' L size ptr L' b) (hle : size' ≤ size) : Gives h h' L size' ptr L' b :=
  { hg with size := hle.trans hg.size }

theorem used_iff_of_append (hfree : b.free = true) (y : Blk) : Used (A ++ b :: B) y ↔ y.free = false ∧ (y ∈ A ∨ y ∈ B) := by
  unfold Used
  simp only [mem_append, mem_cons]
  constructor
  · rintro ⟨hy | rfl | hy, hf⟩
    · exact ⟨hf, .inl hy⟩
    · rw [hfree] at hf
      cases hf
    · exact ⟨hf, .inr hy⟩
  · rintro ⟨hf, hy | hy⟩
    · exact ⟨.inl hy, hf⟩
    · exact ⟨.inr (.inr hy), hf⟩

theorem gives_of_found (hh : HeapOk h (A ++ b :: B)) (hfree : b.free = true) (hsix : 16 ∣ size) (hle : size ≤ b.size) :
    ∃ L' b', Gives h { h with mem := splitBlock (setFree h.mem b.addr false) b.addr size } (A ++ b :: B) size
      (b.addr + BLOCK_SIZE) L' b' := by
  obtain ⟨hne, hb⟩ := hh.blocks (x := b) (by simp)
  obtain ⟨h1, hbytes1⟩ := hb.setFree false
  obtain ⟨b', R, h2, haddr, hf, hlo, -, hR, hbytes2⟩ := h1.trySplit hsix hle
  have hnew : ∀ y, Used (A ++ b :: B) y → y.addr ≠ b.addr := by
    intro y hy he
    rcases hb.tiles.apart hy.1 (show b ∈ A ++ b :: B by simp) with rfl | hyb | hby
    · exact absurd hfree (by rw [hy.2]; decide)
    · unfold BLOCK_SIZE at hyb
      omega
    · unfold BLOCK_SIZE at hby
      omega
  refine ⟨_, b', ⟨hh.pos, fun h0 => absurd h0 hne, fun _ => ⟨by simp, h2⟩⟩, fun y => ?_, ?_, by rw [haddr], hlo, ?_⟩
  · rw [used_iff_of_append hfree]
    unfold Used
    simp only [mem_append, mem_cons]
    constructor
    · rintro ⟨hy | rfl | hy | hy, hyf⟩
      · exact .inl ⟨hyf, .inl hy⟩
      · exact .inr rfl
      · rw [hR y hy] at hyf
        cases hyf
      · exact .inl ⟨hyf, .inr hy⟩
    · rintro (⟨hyf, hy | hy⟩ | rfl)
      · exact ⟨.inl hy, hyf⟩
      · exact ⟨.inr (.inr (.inr hy)), hyf⟩
      · exact ⟨.inr (.inl rfl), hf⟩
  · rw [haddr]
    exact hnew
  · intro y hy i hilo hihi
    rw [used_iff_of_append hfree] at hy
    obtain ⟨-, hy⟩ := hy
    exact (hbytes2 i ⟨y, by rcases hy with hy | hy <;> simp [hy], hilo, hihi⟩).trans
      (hbytes1 i ⟨y, by rcases hy with hy | hy <;> simp [hy], hilo, hihi⟩)

theorem sbrk_some {brk brk' : Nat} (hs : sbrk granted brk ((size + BLOCK_SIZE) % 2 ^ 64) = some brk')
    (hlt : size < 2 ^ 64 - 32) :
    brk' = brk + BLOCK_SIZE + size ∧ brk + BLOCK_SIZE + size ≤ USER_LIMIT := by
  unfold BLOCK_SIZE at *
  rw [Nat.mod_eq_of_lt (by omega)] at hs
  unfold sbrk at hs
  split at hs
  · rename_i hok
    cases hs
    omega
  · cases hs

theorem gives_of_request (granted : Bool) (hh : HeapOk h (A ++ [c])) (hsix : 16 ∣ size) (hlt : size < 2 ^ 64 - 32) :
    requestSpace granted h c.addr size = (h, 0) ∨
    (requestSpace granted h c.addr size).2 ≠ 0 ∧ ∃ L' b, Gives h (requestSpace granted h c.addr size).1 (A ++ [c]) size
      ((requestSpace granted h c.addr size).2 + BLOCK_SIZE) L' b := by
  obtain ⟨hne, hb⟩ := hh.blocks (x := c) (by simp)
  have hc : c.addr ≠ 0 := (hb.addr_pos (by simp)).ne'
  unfold requestSpace
  cases hs : sbrk granted h.brk ((size + BLOCK_SIZE) % 2 ^ 64) with
  | none => exact .inl rfl
  | some brk =>
    right
    obtain ⟨rfl, hlimit⟩ := sbrk_some hs hlt
    obtain ⟨happ, hbytes⟩ := hb.append hsix hlimit
    have hstores : (if c.addr ≠ 0 then setNext h.mem c.addr h.brk else h.mem) = setNext h.mem c.addr h.brk := if_pos hc
    dsimp only
    rw [hstores]
    refine ⟨hh.pos.ne', A ++ [c, ⟨h.brk, size, false⟩], ⟨h.brk, size, false⟩,
      ⟨Nat.lt_of_lt_of_le hh.pos (by dsimp only; omega), fun h0 => absurd h0 hne, fun _ => ⟨by simp, happ⟩⟩,
      fun y => ?_, fun y hy => ?_, rfl, Nat.le_refl _, fun y hy i hilo hihi => ?_⟩
    · unfold Used
      simp only [mem_append, mem_cons, not_mem_nil, or_false]
      constructor
      · rintro ⟨hy | rfl | rfl, hf⟩
        · exact .inl ⟨.inl hy, hf⟩
        · exact .inl ⟨.inr rfl, hf⟩
        · exact .inr rfl
      · rintro (⟨hy | rfl, hf⟩ | rfl)
        · exact ⟨.inl hy, hf⟩
        · exact ⟨.inr (.inl rfl), hf⟩
        · exact ⟨.inr (.inr rfl), rfl⟩
    · have := (hb.tiles.bounds y hy.1).2
      unfold BLOCK_SIZE at this
      dsimp only
      omega
    · refine hbytes i ⟨y, ?_, hilo, hihi⟩
      have hyL := hy.1
      simp only [mem_append, mem_cons, not_mem_nil, or_false] at hyL ⊢
      tauto

theorem gives_of_first (granted : Bool) (hh : HeapOk h []) (hsix : 16 ∣ size) (hlt : size < 2 ^ 64 - 32) :
    requestSpace granted h 0 size = (h, 0) ∨
    (requestSpace granted h 0 size).2 ≠ 0 ∧ ∃ L' b,
      Gives h { (requestSpace granted h 0 size).1 with heapStart := (requestSpace granted h 0 size).2 } [] size
        ((requestSpace granted h 0 size).2 + BLOCK_SIZE) L' b := by
  unfold requestSpace
  cases hs : sbrk granted h.brk ((size + BLOCK_SIZE) % 2 ^ 64) with
  | none => exact .inl rfl
  | some brk =>
    right
    obtain ⟨rfl, hlimit⟩ := sbrk_some hs hlt
    have hfirst := blocks_first (m := h.mem) hh.pos hsix hlimit
    refine ⟨hh.pos.ne', [⟨h.brk, size, false⟩], ⟨h.brk, size, false⟩,
      ⟨Nat.lt_of_lt_of_le hh.pos (by dsimp only; omega), fun h0 => absurd h0 hh.pos.ne', fun _ => ⟨by simp, hfirst⟩⟩,
      fun y => ?_, fun y hy => (by cases hy.1), rfl, Nat.le_refl _, fun y hy => by cases hy.1⟩
    unfold Used
    simp only [mem_cons, not_mem_nil, or_false, false_and, false_or]
    constructor
    · exact fun hy => hy.1
    · rintro rfl
      exact ⟨rfl, rfl⟩

theorem malloc_spec (hh : HeapOk h L) (granted : Bool) (size : Nat) : malloc granted h size = (h, 0) ∨
    size ≠ 0 ∧ (malloc granted h size).2 ≠ 0 ∧
    ∃ L' b, Gives h (malloc granted h size).1 L size (malloc granted h size).2 L' b := by
  unfold malloc
  by_cases hzero : size = 0
  · rw [if_pos hzero]
    exact .inl rfl
  rw [if_neg hzero]
  by_cases hbig : SIZE_MAX - BLOCK_SIZE - ALIGNMENT < size
  · rw [if_pos hbig]
    exact .inl rfl
  rw [if_neg hbig]
  obtain ⟨hle, hsix, hlt⟩ := align_spec (Nat.le_of_not_lt hbig)
  have hback : ∀ n : Nat, n + BLOCK_SIZE ≠ 0 := fun n => Nat.succ_ne_zero _
  dsimp only
  by_cases hstart : h.heapStart = 0
  · rw [if_pos hstart]
    obtain rfl := hh.none hstart
    rcases gives_of_first granted hh hsix hlt with hnone | ⟨hptr, L', b, hg⟩
    · left
      rw [hnone]
      rfl
    · right
      rw [if_neg hptr]
      exact ⟨hzero, hback _, L', b, hg.mono hle⟩
  · rw [if_neg hstart]
    obtain ⟨hL, hb⟩ := hh.some hstart
    have hlen : L.length ≤ h.brk := by
      have := hb.tiles.length_le
      omega
    have hfirst : nextAddr L 0 = h.heapStart := by
      cases L with
      | nil => exact absurd rfl hL
      | cons a L => exact hb.tiles.1
    have hpos : ∀ b ∈ L, b.addr ≠ 0 := fun b hb' => (hb.addr_pos hb').ne'
    rcases findFreeBlock_spec h.mem (align size) L h.brk 0 h.heapStart hlen hb.heads hpos with
      hend | ⟨A, b, B, last, rfl, hfree, hfit, hfound⟩
    · rw [hfirst] at hend
      rw [hend]
      dsimp only
      rw [if_pos rfl]
      obtain ⟨A, c, rfl⟩ := (eq_nil_or_concat L).resolve_left hL
      rw [concat_eq_append] at *
      have hlast : lastAddr h.heapStart (A ++ [c]) = c.addr := by
        rw [lastAddr_append]
        rfl
      rw [hlast]
      rcases gives_of_request granted hh hsix hlt with hnone | ⟨hptr, L', b, hg⟩
      · left
        rw [hnone]
        rfl
      · right
        rw [if_neg hptr]
        exact ⟨hzero, hback _, L', b, hg.mono hle⟩
    · rw [hfirst] at hfound
      rw [hfound]
      dsimp only
      rw [if_neg (hpos b (by simp))]
      right
      obtain ⟨L', b', hg⟩ := gives_of_found hh hfree hsix hfit
      exact ⟨hzero, hback _, L', b', hg.mono hle⟩

/-! ## `free` -/

def joinNext (m : Buffer) (block : Nat) : Buffer :=
  if (hdr m block).next ≠ 0 ∧ (hdr m (hdr m block).next).free = true then absorb m block (hdr m block).next else m

def joinPrev (m : Buffer) (block : Nat) : Buffer :=
  if (hdr m block).prev ≠ 0 ∧ (hdr m (hdr m block).prev).free = true then absorb m (hdr m block).prev block else m

theorem coalesceBlock_eq (m : Buffer) (block : Nat) : coalesceBlock m block = joinPrev (joinNext m block) block := rfl

theorem Blocks.coalesceNext (hb : Blocks m start (A ++ b :: B) stop) (hfree : b.free = true) :
    ∃ b' B', Blocks (joinNext m b.addr) start (A ++ b' :: B') stop ∧ b'.addr = b.addr ∧ b'.free = true ∧
      (∀ y, y.free = false → (y ∈ B' ↔ y ∈ B)) ∧ ∀ i, InPayload (A ++ b' :: B') i → joinNext m b.addr i = m i := by
  unfold joinNext
  rw [hb.header]
  dsimp only
  cases B with
  | nil =>
    rw [if_neg (fun hn => hn.1 rfl)]
    exact ⟨b, [], hb, rfl, hfree, fun _ _ => Iff.rfl, fun _ _ => rfl⟩
  | cons c C =>
    rw [nextAddr_cons]
    have hc : (hdr m c.addr).free = c.free := by
      have hsplit : Blocks m start ((A ++ [b]) ++ c :: C) stop := by simpa using hb
      rw [hsplit.header]
    rw [hc]
    by_cases hcf : c.free = true
    · rw [if_pos ⟨(hb.addr_pos (b := c) (by simp)).ne', hcf⟩]
      obtain ⟨habs, hbytes⟩ := hb.absorb
      refine ⟨_, C, habs, rfl, hfree, fun y hy => ?_, hbytes⟩
      rw [mem_cons]
      constructor
      · exact .inr
      · rintro (rfl | hmem)
        · rw [hcf] at hy
          cases hy
        · exact hmem
    · rw [if_neg fun hn => hcf hn.2]
      exact ⟨b, c :: C, hb, rfl, hfree, fun _ _ => Iff.rfl, fun _ _ => rfl⟩

theorem Blocks.coalescePrev (hb : Blocks m start (A ++ b :: B) stop) (hfree : b.free = true) :
    ∃ L', Blocks (joinPrev m b.addr) start L' stop ∧ L' ≠ [] ∧ (∀ y, y.free = false → (y ∈ L' ↔ y ∈ A ∨ y ∈ B)) ∧
      ∀ i, InPayload L' i → joinPrev m b.addr i = m i := by
  unfold joinPrev
  rw [hb.header]
  dsimp only
  have hself : ∀ y, y.free = false → (y ∈ A ++ b :: B ↔ y ∈ A ∨ y ∈ B) := by
    intro y hy
    have hne : y ≠ b := by
      rintro rfl
      rw [hfree] at hy
      cases hy
    simp [hne]
  rcases eq_nil_or_concat A with rfl | ⟨A, p, rfl⟩
  · rw [if_neg (fun hn => hn.1 rfl)]
    exact ⟨_, hb, by simp, hself, fun _ _ => rfl⟩
  · rw [concat_eq_append] at *
    have hlast : lastAddr 0 (A ++ [p]) = p.addr := by
      rw [lastAddr_append]
      rfl
    have hb' : Blocks m start (A ++ p :: b :: B) stop := by simpa using hb
    have hp : (hdr m p.addr).free = p.free := by rw [hb'.header]
    rw [hlast, hp]
    by_cases hpf : p.free = true
    · rw [if_pos ⟨(hb'.addr_pos (b := p) (by simp)).ne', hpf⟩]
      obtain ⟨habs, hbytes⟩ := hb'.absorb
      refine ⟨_, habs, by simp, fun y hy => ?_, hbytes⟩
      have hne : y ≠ p := by
        rintro rfl
        rw [hpf] at hy
        cases hy
      have hne' : y ≠ { p with size := p.size + BLOCK_SIZE + b.size } := by
        rintro rfl
        rw [hpf] at hy
        cases hy
      simp [hne, hne']
    · rw [if_neg fun hn => hpf hn.2]
      exact ⟨_, hb, by simp, hself, fun _ _ => rfl⟩

/-- **`free`** takes the block out of use, and leaves the others in it as they are. -/
theorem free_spec (hh : HeapOk h L) (hb : Used L b) :
    ∃ L', HeapOk (free h (b.addr + BLOCK_SIZE)) L' ∧ (∀ x, Used L' x ↔ Used L x ∧ x ≠ b) ∧
      Kept h.mem (free h (b.addr + BLOCK_SIZE)).mem L' := by
  obtain ⟨hne, hblocks⟩ := hh.blocks hb.1
  obtain ⟨A, B, rfl⟩ := append_of_mem hb.1
  have hback : b.addr + BLOCK_SIZE - BLOCK_SIZE = b.addr := Nat.add_sub_cancel ..
  have hptr : b.addr + BLOCK_SIZE ≠ 0 := Nat.succ_ne_zero _
  have hfreed : free h (b.addr + BLOCK_SIZE) =
      { h with mem := joinPrev (joinNext (setFree h.mem b.addr true) b.addr) b.addr } := by
    unfold free
    rw [if_neg hptr, hback, coalesceBlock_eq]
  rw [hfreed]
  obtain ⟨h1, hbytes1⟩ := hblocks.setFree true
  generalize setFree h.mem b.addr true = m1 at *
  obtain ⟨b', B', h2, haddr, hfree, hB', hbytes2⟩ := h1.coalesceNext rfl
  dsimp only at h2 haddr hbytes2
  generalize joinNext m1 b.addr = m2 at *
  obtain ⟨L', h3, hL', hused, hbytes3⟩ := h2.coalescePrev hfree
  rw [haddr] at h3 hbytes3
  generalize joinPrev m2 b.addr = m3 at *
  -- The block is alone at its place.
  have hnot : ∀ y, y ∈ A ∨ y ∈ B → y ≠ b := by
    rintro y hy rfl
    obtain ⟨hA, hB, -⟩ := hblocks.tiles.around
    unfold BLOCK_SIZE at hA hB
    rcases hy with hy | hy
    · have := hA y hy
      omega
    · have := hB y hy
      omega
  have hiff : ∀ x, Used L' x ↔ Used (A ++ b :: B) x ∧ x ≠ b := by
    intro x
    unfold Used
    constructor
    · rintro ⟨hx, hf⟩
      have hx' := (hused x hf).1 hx
      rw [hB' x hf] at hx'
      refine ⟨⟨?_, hf⟩, hnot x hx'⟩
      rcases hx' with hx' | hx' <;> simp [hx']
    · rintro ⟨⟨hx, hf⟩, hxb⟩
      refine ⟨(hused x hf).2 ?_, hf⟩
      rw [hB' x hf]
      simp only [mem_append, mem_cons] at hx
      tauto
  refine ⟨L', ⟨hh.pos, fun h0 => absurd h0 hne, fun _ => ⟨hL', h3⟩⟩, hiff, fun x hx i hlo hhi => ?_⟩
  have hx' := (hused x hx.2).1 hx.1
  refine (hbytes3 i ⟨x, hx.1, hlo, hhi⟩).trans ((hbytes2 i ⟨x, ?_, hlo, hhi⟩).trans (hbytes1 i ⟨x, ?_, hlo, hhi⟩))
  · rcases hx' with hx' | hx' <;> simp [hx']
  · rw [hB' x hx.2] at hx'
    rcases hx' with hx' | hx' <;> simp [hx']

/-! ## `calloc` and `realloc` -/

theorem HeapOk.write (hh : HeapOk h L) (hx : x ∈ L)
    (hm : ∀ i, i < x.addr + BLOCK_SIZE ∨ x.addr + BLOCK_SIZE + x.size ≤ i → m' i = h.mem i) :
    HeapOk { h with mem := m' } L := by
  obtain ⟨hne, hb⟩ := hh.blocks hx
  refine ⟨hh.pos, fun h0 => absurd h0 hne, fun _ => ⟨(hh.some hne).1, ?_⟩⟩
  refine ⟨hb.pos, hb.limit, hb.tiles, hb.heads.congr fun y hy => ?_, hb.sixteens⟩
  apply hdr_congr
  intro i hi hi'
  apply hm
  rcases hb.tiles.apart hx hy with rfl | hxy | hyx
  · exact .inl hi'
  · exact .inr (hxy.trans hi)
  · unfold BLOCK_SIZE at *
    omega

theorem HeapOk.apart (hh : HeapOk h L) {y : Blk} (hx : x ∈ L) (hy : y ∈ L) (hne : x ≠ y) :
    x.addr + BLOCK_SIZE + x.size ≤ y.addr ∨ y.addr + BLOCK_SIZE + y.size ≤ x.addr :=
  ((hh.blocks hx).2.tiles.apart hx hy).resolve_left hne

theorem Gives.fill (hg : Gives h h' L size ptr L' b) (src : Buffer) {n : Nat} (hn : n ≤ b.size) :
    Gives h { h' with mem := h'.mem.blit ptr src n } L size ptr L' b := by
  have hb : Used L' b := (hg.used b).2 (.inr rfl)
  have hin : ∀ i, i < b.addr + BLOCK_SIZE ∨ b.addr + BLOCK_SIZE + b.size ≤ i → h'.mem.blit ptr src n i = h'.mem i := by
    intro i hi
    rw [hg.ptr]
    rcases hi with hi | hi
    · exact Buffer.blit_of_lt hi
    · exact Buffer.blit_of_ge (by omega)
  refine { hg with ok := hg.ok.write hb.1 hin, kept := fun x hx i hlo hhi => ?_ }
  have hx' : Used L' x := (hg.used x).2 (.inl hx)
  have hne : x ≠ b := fun he => hg.new x hx (congrArg Blk.addr he)
  have hapart := hg.ok.apart hx'.1 hb.1 hne
  refine (hin i ?_).trans (hg.kept x hx i hlo hhi)
  unfold BLOCK_SIZE at *
  omega

theorem calloc_spec (hh : HeapOk h L) (granted : Bool) (nelem elsize : Nat) : calloc granted h nelem elsize = (h, 0) ∨
    (calloc granted h nelem elsize).2 ≠ 0 ∧ ∃ L' b,
      Gives h (calloc granted h nelem elsize).1 L (nelem * elsize) (calloc granted h nelem elsize).2 L' b := by
  unfold calloc
  by_cases hover : nelem ≠ 0 ∧ SIZE_MAX / nelem < elsize
  · rw [if_pos hover]
    exact .inl rfl
  rw [if_neg hover]
  have hfits : nelem * elsize < 2 ^ 64 := by
    by_cases h0 : nelem = 0
    · rw [h0, Nat.zero_mul]
      decide
    · have hle : elsize ≤ SIZE_MAX / nelem := Nat.le_of_not_lt fun hgt => hover ⟨h0, hgt⟩
      have hmul := (Nat.le_div_iff_mul_le (Nat.pos_of_ne_zero h0)).1 hle
      rw [Nat.mul_comm]
      exact Nat.lt_of_le_of_lt hmul (by decide)
  rw [Nat.mod_eq_of_lt hfits]
  rcases malloc_spec hh granted (nelem * elsize) with hnone | ⟨-, hptr, L', b, hg⟩
  · left
    rw [hnone]
    rfl
  · right
    generalize malloc granted h (nelem * elsize) = r at *
    obtain ⟨h1, ptr⟩ := r
    dsimp only at hptr hg ⊢
    rw [if_pos hptr]
    exact ⟨hptr, L', b, hg.fill _ hg.size⟩

/-- What `realloc` gives: a block instead of `b` with its bytes as far as both have them, and the others as they were. -/
structure Resizes (h h' : LibcHeap) (L : List Blk) (b : Blk) (size ptr : Nat) (L' : List Blk) (b' : Blk) : Prop where
  ok : HeapOk h' L'
  used : ∀ x, Used L' x ↔ (Used L x ∧ x ≠ b) ∨ x = b'
  new : ∀ x, Used L x → x ≠ b → x.addr ≠ b'.addr
  ptr : ptr = b'.addr + BLOCK_SIZE
  size : size ≤ b'.size
  kept : ∀ x, Used L x → x ≠ b → ∀ i, x.addr + BLOCK_SIZE ≤ i → i < x.addr + BLOCK_SIZE + x.size → h'.mem i = h.mem i
  data : ∀ i, i < b.size → i < b'.size → h'.mem (b'.addr + BLOCK_SIZE + i) = h.mem (b.addr + BLOCK_SIZE + i)

theorem used_replace {b' : Blk} {R C : List Blk} (hb : b.free = false) (hb' : b'.free = false) (hR : ∀ y ∈ R, y.free = true)
    (hC : ∀ y ∈ C, y.free = true) (hnot : ∀ y, y ∈ A ∨ y ∈ B → y ≠ b) (y : Blk) :
    Used (A ++ b' :: (R ++ B)) y ↔ (Used (A ++ b :: (C ++ B)) y ∧ y ≠ b) ∨ y = b' := by
  unfold Used
  simp only [mem_append, mem_cons]
  constructor
  · rintro ⟨hy | rfl | hy | hy, hf⟩
    · exact .inl ⟨⟨.inl hy, hf⟩, hnot y (.inl hy)⟩
    · exact .inr rfl
    · rw [hR y hy] at hf
      cases hf
    · exact .inl ⟨⟨.inr (.inr (.inr hy)), hf⟩, hnot y (.inr hy)⟩
  · rintro (⟨⟨hy | rfl | hy | hy, hf⟩, hne⟩ | rfl)
    · exact ⟨.inl hy, hf⟩
    · exact absurd rfl hne
    · rw [hC y hy] at hf
      cases hf
    · exact ⟨.inr (.inr (.inr hy)), hf⟩
    · exact ⟨.inr (.inl rfl), hb'⟩

theorem resizes_inPlace {C : List Blk} (hh : HeapOk h (A ++ b :: (C ++ B))) (hb : b.free = false)
    (hC : ∀ y ∈ C, y.free = true)
    {b1 : Blk} (h1 : Blocks m h.heapStart (A ++ b1 :: B) h.brk) (haddr : b1.addr = b.addr) (hfree : b1.free = false)
    (hbytes : ∀ i, InPayload (A ++ b1 :: B) i → m i = h.mem i) (hsix : 16 ∣ size) (hle : size ≤ b1.size) :
    ∃ L' b', Resizes h { h with mem := splitBlock m b.addr size } (A ++ b :: (C ++ B)) b size
      (b.addr + BLOCK_SIZE) L' b' := by
  obtain ⟨hne, hblocks⟩ := hh.blocks (x := b) (by simp)
  obtain ⟨b', R, h2, haddr', hfree', hlo, hhi, hR, hbytes'⟩ := h1.trySplit hsix hle
  rw [haddr] at h2 haddr' hbytes'
  have hnot : ∀ y, y ∈ A ∨ y ∈ B → y ≠ b := by
    rintro y hy rfl
    obtain ⟨hA, hB, -⟩ := hblocks.tiles.around
    unfold BLOCK_SIZE at hA hB
    rcases hy with hy | hy
    · have := hA y hy
      omega
    · have := hB y (by simp [hy])
      omega
  have hothers : ∀ x, Used (A ++ b :: (C ++ B)) x → x ≠ b → x ∈ A ∨ x ∈ B := by
    rintro x ⟨hx, hf⟩ hxb
    simp only [mem_append, mem_cons] at hx
    rcases hx with hx | rfl | hx | hx
    · exact .inl hx
    · exact absurd rfl hxb
    · rw [hC x hx] at hf
      cases hf
    · exact .inr hx
  refine ⟨_, b', ⟨hh.pos, fun h0 => absurd h0 hne, fun _ => ⟨by simp, h2⟩⟩,
    used_replace hb (hfree'.trans hfree) hR hC hnot, fun x hx hxb => ?_, by rw [haddr'], hlo, fun x hx hxb i hilo hihi => ?_,
    fun i hi hi' => ?_⟩
  · rw [haddr']
    have hapart := hh.apart hx.1 (show b ∈ A ++ b :: (C ++ B) by simp) hxb
    unfold BLOCK_SIZE at hapart
    omega
  · have hx' := hothers x hx hxb
    exact (hbytes' i ⟨x, by rcases hx' with hx' | hx' <;> simp [hx'], hilo, hihi⟩).trans
      (hbytes i ⟨x, by rcases hx' with hx' | hx' <;> simp [hx'], hilo, hihi⟩)
  · have hb' : InPayload (A ++ b' :: (R ++ B)) (b.addr + BLOCK_SIZE + i) :=
      ⟨b', by simp, by rw [haddr']; omega, by rw [haddr']; omega⟩
    have hb1 : InPayload (A ++ b1 :: B) (b.addr + BLOCK_SIZE + i) :=
      ⟨b1, by simp, by rw [haddr]; omega, by rw [haddr]; omega⟩
    rw [haddr']
    exact (hbytes' _ hb').trans (hbytes _ hb1)

theorem resizes_move (hb : Used L b) {b1 : Blk} {L1 : List Blk} (hg : Gives h h' L size ptr L1 b1) (hle : b.size ≤ size) :
    ∃ L', Resizes h (free { h' with mem := h'.mem.blit ptr (h'.mem.drop (b.addr + BLOCK_SIZE)) (hdr h'.mem b.addr).size }
      (b.addr + BLOCK_SIZE)) L b size ptr L' b1 := by
  have hused : Used L1 b := (hg.used b).2 (.inl hb)
  have hsize : (hdr h'.mem b.addr).size = b.size := by
    obtain ⟨A, B, rfl⟩ := append_of_mem hused.1
    rw [(hg.ok.blocks hused.1).2.header]
  rw [hsize]
  have hfill := hg.fill (h'.mem.drop (b.addr + BLOCK_SIZE)) (hle.trans hg.size)
  obtain ⟨L', hok, hiff, hkept⟩ := free_spec hfill.ok hused
  have hb1 : b1 ≠ b := fun he => hg.new b hb (congrArg Blk.addr he).symm
  refine ⟨L', hok, fun x => ?_, fun x hx _ => hg.new x hx, hg.ptr, hg.size, fun x hx hxb i hlo hhi => ?_, fun i hi hi' => ?_⟩
  · rw [hiff, hg.used]
    constructor
    · rintro ⟨hx | rfl, hxb⟩
      · exact .inl ⟨hx, hxb⟩
      · exact .inr rfl
    · rintro (⟨hx, hxb⟩ | rfl)
      · exact ⟨.inl hx, hxb⟩
      · exact ⟨.inr rfl, hb1⟩
  · have hx' : Used L' x := (hiff x).2 ⟨(hg.used x).2 (.inl hx), hxb⟩
    exact (hkept x hx' i hlo hhi).trans (hfill.kept x hx i hlo hhi)
  · have hb1' : Used L' b1 := (hiff b1).2 ⟨(hg.used b1).2 (.inr rfl), hb1⟩
    refine (hkept b1 hb1' _ (Nat.le_add_right ..) (by omega)).trans ?_
    dsimp only
    rw [hg.ptr, Buffer.blit_of_mem (Nat.le_add_right ..) (by omega), Nat.add_sub_cancel_left]
    exact hg.kept b hb _ (Nat.le_add_right ..) (by omega)

/-- **`realloc`** of a block in use gives one of the size, or leaves the heap as it is. -/
theorem realloc_spec (hh : HeapOk h L) (hb : Used L b) (granted : Bool) (hzero : size ≠ 0) :
    realloc granted h (b.addr + BLOCK_SIZE) size = (h, 0) ∨
    (realloc granted h (b.addr + BLOCK_SIZE) size).2 ≠ 0 ∧ ∃ L' b',
      Resizes h (realloc granted h (b.addr + BLOCK_SIZE) size).1 L b size
        (realloc granted h (b.addr + BLOCK_SIZE) size).2 L' b' := by
  have hptr : b.addr + BLOCK_SIZE ≠ 0 := Nat.succ_ne_zero _
  have hback : b.addr + BLOCK_SIZE - BLOCK_SIZE = b.addr := Nat.add_sub_cancel ..
  obtain ⟨hne, hblocks⟩ := hh.blocks hb.1
  unfold realloc
  rw [if_neg hptr, if_neg hzero]
  by_cases hbig : SIZE_MAX - BLOCK_SIZE - ALIGNMENT < size
  · rw [if_pos hbig]
    exact .inl rfl
  rw [if_neg hbig]
  obtain ⟨hle, hsix, hlt⟩ := align_spec (Nat.le_of_not_lt hbig)
  dsimp only
  rw [hback]
  have hmono : ∀ {h' : LibcHeap} {ptr : Nat} {L' : List Blk} {b' : Blk}, Resizes h h' L b (align size) ptr L' b' →
      Resizes h h' L b size ptr L' b' := fun hr => { hr with size := hle.trans hr.size }
  obtain ⟨A, B, rfl⟩ := append_of_mem hb.1
  have hheader := hblocks.header
  by_cases hfit : align size ≤ (hdr h.mem b.addr).size
  · rw [if_pos hfit]
    right
    rw [hheader] at hfit
    obtain ⟨L', b', hr⟩ := resizes_inPlace (C := []) hh hb.2 (fun y hy => by cases hy) hblocks rfl hb.2
      (fun _ _ => rfl) hsix hfit
    exact ⟨hptr, L', b', hmono hr⟩
  rw [if_neg hfit]
  by_cases hmerge : (hdr h.mem b.addr).next ≠ 0 ∧ (hdr h.mem (hdr h.mem b.addr).next).free = true ∧
      align size ≤ ((hdr h.mem b.addr).size + BLOCK_SIZE + (hdr h.mem (hdr h.mem b.addr).next).size) % 2 ^ 64
  · rw [if_pos hmerge]
    right
    rw [hheader] at hmerge ⊢
    dsimp only at hmerge ⊢
    cases B with
    | nil => exact absurd rfl hmerge.1
    | cons c B =>
      have hc : hdr h.mem c.addr = ⟨c.size, nextAddr B 0, b.addr, c.free⟩ := by
        have hsplit : Blocks h.mem h.heapStart ((A ++ [b]) ++ c :: B) h.brk := by simpa using hblocks
        rw [hsplit.header, lastAddr_append]
        rfl
      rw [nextAddr_cons] at hmerge ⊢
      rw [hc] at hmerge
      obtain ⟨-, hcf, hroom⟩ := hmerge
      obtain ⟨h1, hbytes⟩ := hblocks.absorb
      have hroom' : align size ≤ b.size + BLOCK_SIZE + c.size := hroom.trans (Nat.mod_le _ _)
      obtain ⟨L', b', hr⟩ := resizes_inPlace (C := [c]) hh hb.2
        (fun y hy => by rw [mem_singleton.1 hy]; exact hcf) h1 rfl hb.2
        hbytes hsix hroom'
      exact ⟨hptr, L', b', hmono hr⟩
  rw [if_neg hmerge]
  rcases malloc_spec hh granted (align size) with hnone | ⟨-, hnew, L1, b1, hg⟩
  · left
    rw [hnone]
    rfl
  · right
    generalize malloc granted h (align size) = r at *
    obtain ⟨h1, new⟩ := r
    dsimp only at hnew hg ⊢
    rw [if_neg hnew]
    have hsmall : b.size ≤ align size := by
      rw [hheader] at hfit
      exact Nat.le_of_lt (Nat.lt_of_not_le hfit)
    obtain ⟨L', hr⟩ := resizes_move hb hg hsmall
    exact ⟨hnew, L', b1, hmono hr⟩

/-! ## Runs -/

/-- The calls of a program, and its stores; `granted` says whether `sbrk` gives the memory it is asked for. -/
inductive HeapCall where
  | malloc (granted : Bool) (size : UInt64)
  | calloc (granted : Bool) (nelem elsize : UInt64)
  | realloc (granted : Bool) (ptr : Nat) (size : UInt64)
  | free (ptr : Nat)
  | store (i : Nat) (v : UInt8)

structure Program where
  heap : LibcHeap
  live : Nat → Option Nat

open Function (update update_self update_of_ne)

namespace Program

def ret (s : Program) : HeapCall → Nat
  | .malloc granted size => (Libc.malloc granted s.heap size.toNat).2
  | .calloc granted nelem elsize => (Libc.calloc granted s.heap nelem.toNat elsize.toNat).2
  | .realloc granted ptr size => (Libc.realloc granted s.heap ptr size.toNat).2
  | .free _ | .store .. => 0

def after (s : Program) : HeapCall → LibcHeap
  | .malloc granted size => (Libc.malloc granted s.heap size.toNat).1
  | .calloc granted nelem elsize => (Libc.calloc granted s.heap nelem.toNat elsize.toNat).1
  | .realloc granted ptr size => (Libc.realloc granted s.heap ptr size.toNat).1
  | .free ptr => Libc.free s.heap ptr
  | .store i v => { s.heap with mem := update s.heap.mem i v }

/-- The pointer a call takes away from the program, if it does what it is asked; null for none. -/
def given (s : Program) : HeapCall → Nat
  | .free ptr => ptr
  | .realloc granted ptr size => if size = 0 ∨ s.ret (.realloc granted ptr size) ≠ 0 then ptr else 0
  | _ => 0

def asked : HeapCall → Nat
  | .malloc _ size | .realloc _ _ size => size.toNat
  | .calloc _ nelem elsize => nelem.toNat * elsize.toNat
  | .free _ | .store .. => 0

theorem after_realloc (s : Program) (granted : Bool) (ptr : Nat) (size : UInt64) :
    s.after (.realloc granted ptr size) = (Libc.realloc granted s.heap ptr size.toNat).1 := rfl

theorem ret_realloc (s : Program) (granted : Bool) (ptr : Nat) (size : UInt64) :
    s.ret (.realloc granted ptr size) = (Libc.realloc granted s.heap ptr size.toNat).2 := rfl

theorem given_realloc (s : Program) (granted : Bool) (ptr : Nat) (size : UInt64) :
    s.given (.realloc granted ptr size) = if size = 0 ∨ s.ret (.realloc granted ptr size) ≠ 0 then ptr else 0 := rfl

def step (s : Program) (c : HeapCall) : Program where
  heap := s.after c
  live := fun p =>
    if p = 0 then none
    else if p = s.ret c then some (asked c)
    else if p = s.given c then none
    else s.live p

def Allowed (s : Program) : HeapCall → Prop
  | .free ptr | .realloc _ ptr _ => ptr = 0 ∨ ∃ r, s.live ptr = some r
  | .store i _ => ∃ p r, s.live p = some r ∧ p ≤ i ∧ i < p + (hdr s.heap.mem (p - BLOCK_SIZE)).size
  | _ => True

/-- **The invariant**: a row of blocks, of which those in use are the program's. -/
structure Ok (s : Program) (L : List Blk) : Prop where
  heap : HeapOk s.heap L
  live : ∀ p r, s.live p = some r → ∃ x, Used L x ∧ p = x.addr + BLOCK_SIZE ∧ r ≤ x.size
  used : ∀ x, Used L x → ∃ r, s.live (x.addr + BLOCK_SIZE) = some r

variable {s : Program} {call : HeapCall}

theorem Ok.unique (hs : s.Ok L) {y : Blk} (hx : Used L x) (hy : Used L y) (he : x.addr = y.addr) : x = y := by
  by_contra hne
  have hapart := hs.heap.apart hx.1 hy.1 hne
  unfold BLOCK_SIZE at hapart
  omega

theorem step_same (h1 : s.after call = s.heap) (h2 : s.ret call = 0) (h3 : s.given call = 0) (h₀ : s.live 0 = none) :
    s.step call = s := by
  unfold step
  rw [h1, h2, h3]
  congr 1
  funext p
  by_cases hp : p = 0
  · rw [if_pos hp, hp, h₀]
  · rw [if_neg hp, if_neg hp, if_neg hp]

theorem Ok.live_null (hs : s.Ok L) : s.live 0 = none := by
  by_contra hsome
  obtain ⟨r, hr⟩ := Option.ne_none_iff_exists'.1 hsome
  obtain ⟨x, -, hx, -⟩ := hs.live 0 r hr
  exact absurd hx (Nat.succ_ne_zero _).symm

theorem Ok.gives (hs : s.Ok L) (hg : Gives s.heap (s.after call) L (asked call) (s.ret call) L' b)
    (hgiven : s.given call = 0) : (s.step call).Ok L' := by
  have hptr : s.ret call ≠ 0 := by
    rw [hg.ptr]
    exact Nat.succ_ne_zero _
  refine ⟨hg.ok, fun p r hp => ?_, fun x hx => ?_⟩
  · unfold step at hp
    dsimp only at hp
    split at hp
    · cases hp
    · split at hp
      · rename_i hret
        cases hp
        exact ⟨b, (hg.used b).2 (.inr rfl), hret.trans hg.ptr, hg.size⟩
      · split at hp
        · cases hp
        · obtain ⟨x, hx, hpx, hr⟩ := hs.live p r hp
          exact ⟨x, (hg.used x).2 (.inl hx), hpx, hr⟩
  · unfold step
    dsimp only
    rw [if_neg (show x.addr + BLOCK_SIZE ≠ 0 from Nat.succ_ne_zero _), hgiven]
    rcases (hg.used x).1 hx with hx | rfl
    · have hne : x.addr + BLOCK_SIZE ≠ s.ret call := by
        rw [hg.ptr]
        exact fun he => hg.new x hx (Nat.add_right_cancel he)
      rw [if_neg hne, if_neg (show x.addr + BLOCK_SIZE ≠ 0 from Nat.succ_ne_zero _)]
      exact hs.used x hx
    · rw [if_pos hg.ptr.symm]
      exact ⟨_, rfl⟩

theorem Ok.frees (hs : s.Ok L) (hb : Used L b) (hok : HeapOk (s.after call) L') (hused : ∀ x, Used L' x ↔ Used L x ∧ x ≠ b)
    (hret : s.ret call = 0) (hgiven : s.given call = b.addr + BLOCK_SIZE) : (s.step call).Ok L' := by
  refine ⟨hok, fun p r hp => ?_, fun x hx => ?_⟩
  · unfold step at hp
    dsimp only at hp
    rw [hret, hgiven] at hp
    split at hp
    · cases hp
    · split at hp
      · cases hp
      · rename_i hpb
        obtain ⟨x, hx, hpx, hr⟩ := hs.live p r hp
        refine ⟨x, (hused x).2 ⟨hx, ?_⟩, hpx, hr⟩
        rintro rfl
        exact hpb hpx
  · obtain ⟨hx, hxb⟩ := (hused x).1 hx
    have hne : x.addr + BLOCK_SIZE ≠ b.addr + BLOCK_SIZE := fun he => hxb (hs.unique hx hb (Nat.add_right_cancel he))
    unfold step
    dsimp only
    rw [hret, hgiven, if_neg (show x.addr + BLOCK_SIZE ≠ 0 from Nat.succ_ne_zero _),
      if_neg (show x.addr + BLOCK_SIZE ≠ 0 from Nat.succ_ne_zero _), if_neg hne]
    exact hs.used x hx

theorem Ok.resizes (hs : s.Ok L) (hb : Used L b) {b' : Blk}
    (hr : Resizes s.heap (s.after call) L b (asked call) (s.ret call) L' b') (hgiven : s.given call = b.addr + BLOCK_SIZE) :
    (s.step call).Ok L' := by
  refine ⟨hr.ok, fun p r hp => ?_, fun x hx => ?_⟩
  · unfold step at hp
    dsimp only at hp
    split at hp
    · cases hp
    · split at hp
      · rename_i hret
        cases hp
        exact ⟨b', (hr.used b').2 (.inr rfl), hret.trans hr.ptr, hr.size⟩
      · split at hp
        · cases hp
        · rename_i hpb
          obtain ⟨x, hx, hpx, hle⟩ := hs.live p r hp
          refine ⟨x, (hr.used x).2 (.inl ⟨hx, ?_⟩), hpx, hle⟩
          rintro rfl
          exact hpb (hpx.trans hgiven.symm)
  · unfold step
    dsimp only
    rw [if_neg (show x.addr + BLOCK_SIZE ≠ 0 from Nat.succ_ne_zero _)]
    rcases (hr.used x).1 hx with ⟨hx, hxb⟩ | rfl
    · have hne : x.addr + BLOCK_SIZE ≠ s.ret call := by
        rw [hr.ptr]
        exact fun he => hr.new x hx hxb (Nat.add_right_cancel he)
      have hne' : x.addr + BLOCK_SIZE ≠ s.given call := by
        rw [hgiven]
        exact fun he => hxb (hs.unique hx hb (Nat.add_right_cancel he))
      rw [if_neg hne, if_neg hne']
      exact hs.used x hx
    · rw [if_pos hr.ptr.symm]
      exact ⟨_, rfl⟩

/-- **The heap is sound**: its blocks tile the memory up to the break, whole sixteens from the start on; `next` and `prev`
are inverse; and what the program has is in a block in use, as large as it asked for and apart from all else it has. -/
structure Sound (s : Program) : Prop where
  row : ∃ L, (s.heap.heapStart = 0 → L = []) ∧
    (s.heap.heapStart ≠ 0 → Tiles s.heap.heapStart L s.heap.brk ∧ Heads s.heap.mem 0 L 0) ∧
    (∀ b ∈ L, 16 ∣ b.addr - s.heap.heapStart) ∧
    (∀ b ∈ L, (hdr s.heap.mem b.addr).next ≠ 0 → (hdr s.heap.mem (hdr s.heap.mem b.addr).next).prev = b.addr) ∧
    (∀ b ∈ L, (hdr s.heap.mem b.addr).prev ≠ 0 → (hdr s.heap.mem (hdr s.heap.mem b.addr).prev).next = b.addr) ∧
    ∀ p r, s.live p = some r → ∃ b ∈ L, b.free = false ∧ p = b.addr + BLOCK_SIZE ∧ r ≤ b.size
  apart : ∀ p q r r', s.live p = some r → s.live q = some r' → p ≠ q → p + r ≤ q ∨ q + r' ≤ p

/-- **What a call leaves**: one that returns null has changed nothing; `realloc` has kept the bytes both sizes have; and
whatever else the program had is as it was, but for its own stores. -/
structure Faithful (s : Program) (call : HeapCall) : Prop where
  null : s.ret call = 0 → (∀ ptr, call ≠ .free ptr) → (∀ i v, call ≠ .store i v) →
    (∀ granted ptr size, call = .realloc granted ptr size → size ≠ 0) → s.step call = s
  data : ∀ granted ptr size r, call = .realloc granted ptr size → s.live ptr = some r → s.ret call ≠ 0 →
    ∀ i < min r size.toNat, (s.step call).heap.mem (s.ret call + i) = s.heap.mem (ptr + i)
  kept : (∀ i v, call ≠ .store i v) → ∀ p r, s.live p = some r → p ≠ s.given call → (s.step call).live p = some r ∧
    ∀ i < r, (s.step call).heap.mem (p + i) = s.heap.mem (p + i)

theorem sixteen_dvd : ∀ {L : List Blk} {start : Nat}, Tiles start L stop → (∀ b ∈ L, 16 ∣ b.size) →
    ∀ b ∈ L, 16 ∣ b.addr - start
  | [], _, _, _, _, hb => by cases hb
  | a :: L, start, ⟨ha, h⟩, hsix, b, hb => by
    rcases mem_cons.1 hb with rfl | hb
    · rw [ha, Nat.sub_self]
      exact Nat.dvd_zero _
    · have hrec := sixteen_dvd h (fun c hc => hsix c (mem_cons_of_mem _ hc)) b hb
      have ha16 := hsix a mem_cons_self
      have hlo := (h.bounds b hb).1
      unfold BLOCK_SIZE at hrec hlo
      omega

theorem Ok.sound (hs : s.Ok L) : s.Sound := by
  refine ⟨⟨L, hs.heap.none, fun hne => ⟨(hs.heap.some hne).2.tiles, (hs.heap.some hne).2.heads⟩, fun b hb => ?_,
    fun b hb hne => ?_, fun b hb hne => ?_, fun p r hp => ?_⟩, fun p q r r' hp hq hpq => ?_⟩
  · obtain ⟨-, h⟩ := hs.heap.blocks hb
    exact sixteen_dvd h.tiles h.sixteens b hb
  · obtain ⟨-, h⟩ := hs.heap.blocks hb
    obtain ⟨A, B, rfl⟩ := append_of_mem hb
    rw [h.header] at hne ⊢
    cases B with
    | nil => exact absurd rfl hne
    | cons c C =>
      have hsplit : Blocks s.heap.mem s.heap.heapStart ((A ++ [b]) ++ c :: C) s.heap.brk := by simpa using h
      dsimp only
      rw [nextAddr_cons, hsplit.header, lastAddr_append]
      rfl
  · obtain ⟨-, h⟩ := hs.heap.blocks hb
    obtain ⟨A, B, rfl⟩ := append_of_mem hb
    rw [h.header] at hne ⊢
    rcases eq_nil_or_concat A with rfl | ⟨A, c, rfl⟩
    · exact absurd rfl hne
    · rw [concat_eq_append] at *
      have hsplit : Blocks s.heap.mem s.heap.heapStart (A ++ c :: b :: B) s.heap.brk := by simpa using h
      have hlast : lastAddr 0 (A ++ [c]) = c.addr := by
        rw [lastAddr_append]
        rfl
      dsimp only
      rw [hlast, hsplit.header]
      rfl
  · obtain ⟨x, hx, hpx, hr⟩ := hs.live p r hp
    exact ⟨x, hx.1, hx.2, hpx, hr⟩
  · obtain ⟨x, hx, rfl, hr⟩ := hs.live p r hp
    obtain ⟨y, hy, rfl, hr'⟩ := hs.live q r' hq
    have hxy : x ≠ y := fun he => hpq (congrArg (fun z : Blk => z.addr + BLOCK_SIZE) he)
    have hapart := hs.heap.apart hx.1 hy.1 hxy
    omega

theorem faithful_same (h1 : s.step call = s) (h2 : s.ret call = 0) : s.Faithful call := by
  refine ⟨fun _ _ _ _ => h1, fun granted ptr size r _ _ hret => absurd h2 hret, fun _ p r hp _ => ?_⟩
  rw [h1]
  exact ⟨hp, fun _ _ => rfl⟩

theorem step_live {p r : Nat} (hp : s.live p = some r) (h0 : p ≠ 0) (hret : p ≠ s.ret call) (hgiven : p ≠ s.given call) :
    (s.step call).live p = some r := by
  unfold step
  dsimp only
  rw [if_neg h0, if_neg hret, if_neg hgiven, hp]

theorem Ok.malloc (hs : s.Ok L) (hg : Gives s.heap (s.after call) L (asked call) (s.ret call) L' b)
    (hgiven : s.given call = 0) (hcall : ∀ granted ptr size, ptr ≠ 0 → call ≠ .realloc granted ptr size) :
    s.Faithful call := by
  have hptr : s.ret call ≠ 0 := by
    rw [hg.ptr]
    exact Nat.succ_ne_zero _
  refine ⟨fun h0 => absurd h0 hptr, fun granted ptr size r hc hp _ => ?_, fun _ p r hp _ => ?_⟩
  · refine absurd hc (hcall granted ptr size ?_)
    rintro rfl
    rw [hs.live_null] at hp
    cases hp
  · obtain ⟨x, hx, rfl, hr⟩ := hs.live p r hp
    have h0 : x.addr + BLOCK_SIZE ≠ 0 := Nat.succ_ne_zero _
    refine ⟨step_live hp h0 ?_ ?_, fun i hi => hg.kept x hx _ (Nat.le_add_right ..) (by omega)⟩
    · rw [hg.ptr]
      exact fun he => hg.new x hx (Nat.add_right_cancel he)
    · rw [hgiven]
      exact h0

theorem Ok.faithful_frees (hs : s.Ok L) (hb : Used L b) (hused : ∀ x, Used L' x ↔ Used L x ∧ x ≠ b)
    (hkept : Kept s.heap.mem (s.after call).mem L') (hret : s.ret call = 0) (hgiven : s.given call = b.addr + BLOCK_SIZE)
    (hcall : (∃ ptr, call = .free ptr) ∨ ∃ granted ptr, call = .realloc granted ptr 0) : s.Faithful call := by
  refine ⟨fun _ hfree _ hre => ?_, fun granted ptr size r _ _ h => absurd hret h, fun _ p r hp hne => ?_⟩
  · rcases hcall with ⟨ptr, rfl⟩ | ⟨granted, ptr, rfl⟩
    · exact absurd rfl (hfree ptr)
    · exact absurd rfl (hre granted ptr 0 rfl)
  · obtain ⟨x, hx, rfl, hr⟩ := hs.live p r hp
    have h0 : x.addr + BLOCK_SIZE ≠ 0 := Nat.succ_ne_zero _
    refine ⟨step_live hp h0 (by rw [hret]; exact h0) hne, fun i hi => ?_⟩
    have hxb : x ≠ b := by
      rintro rfl
      exact hne hgiven.symm
    exact hkept x ((hused x).2 ⟨hx, hxb⟩) _ (Nat.le_add_right ..) (by omega)

theorem Ok.faithful_resizes {ptr : Nat} {size : UInt64} (hs : s.Ok L) (hb : Used L b) {b' : Blk}
    (hr : Resizes s.heap (s.after (.realloc granted ptr size)) L b size.toNat (s.ret (.realloc granted ptr size)) L' b')
    (hptr : ptr = b.addr + BLOCK_SIZE) (hgiven : s.given (.realloc granted ptr size) = b.addr + BLOCK_SIZE) :
    s.Faithful (.realloc granted ptr size) := by
  have hret : s.ret (.realloc granted ptr size) ≠ 0 := by
    rw [hr.ptr]
    exact Nat.succ_ne_zero _
  refine ⟨fun h0 => absurd h0 hret, fun granted' ptr' size' r hc hp _ i hi => ?_, fun _ p r hp hne => ?_⟩
  · cases hc
    obtain ⟨x, hx, hpx, hle⟩ := hs.live ptr r hp
    obtain rfl : x = b := hs.unique hx hb (Nat.add_right_cancel (hpx.symm.trans hptr))
    rw [Nat.lt_min] at hi
    have hdata := hr.data i (hi.1.trans_le hle) (hi.2.trans_le hr.size)
    rw [← hr.ptr, ← hptr] at hdata
    exact hdata
  · obtain ⟨x, hx, rfl, hle⟩ := hs.live p r hp
    have hxb : x ≠ b := by
      rintro rfl
      exact hne hgiven.symm
    refine ⟨step_live hp (Nat.succ_ne_zero _) ?_ hne, fun i hi => hr.kept x hx hxb _ (Nat.le_add_right ..) (by omega)⟩
    rw [hr.ptr]
    exact fun he => hr.new x hx hxb (Nat.add_right_cancel he)

theorem Ok.store {i : Nat} {v : UInt8} (hs : s.Ok L) (ha : s.Allowed (.store i v)) : (s.step (.store i v)).Ok L := by
  obtain ⟨p, r, hp, hlo, hhi⟩ := ha
  obtain ⟨x, hx, rfl, -⟩ := hs.live p r hp
  obtain ⟨-, hblocks⟩ := hs.heap.blocks hx.1
  obtain ⟨A, B, rfl⟩ := append_of_mem hx.1
  rw [Nat.add_sub_cancel, hblocks.header] at hhi
  dsimp only at hhi
  have hlive : (s.step (.store i v)).live = s.live := by
    funext p
    unfold Program.step
    dsimp only
    by_cases hp0 : p = 0
    · rw [if_pos hp0, hp0, hs.live_null]
    · rw [if_neg hp0, if_neg (show p ≠ s.ret (.store i v) from hp0), if_neg (show p ≠ s.given (.store i v) from hp0)]
  refine ⟨hs.heap.write hx.1 fun j hj => update_of_ne (fun he => ?_) _ _, ?_, ?_⟩
  · subst he
    omega
  · rw [hlive]
    exact hs.live
  · rw [hlive]
    exact hs.used

theorem Ok.step_realloc_null {size : UInt64} (hs : s.Ok L) :
    (∃ L', (s.step (.realloc granted 0 size)).Ok L') ∧ s.Faithful (.realloc granted 0 size) := by
  have hgiven : s.given (.realloc granted 0 size) = 0 := by rw [given_realloc, ite_self]
  have hre : Libc.realloc granted s.heap 0 size.toNat = Libc.malloc granted s.heap size.toNat := if_pos rfl
  rcases malloc_spec hs.heap granted size.toNat with hnone | ⟨-, -, L', b, hg⟩
  · rw [← hre] at hnone
    have hsame : s.step (.realloc granted 0 size) = s :=
      step_same (congrArg Prod.fst hnone) (congrArg Prod.snd hnone) hgiven hs.live_null
    exact ⟨⟨L, by rw [hsame]; exact hs⟩, faithful_same hsame (congrArg Prod.snd hnone)⟩
  · rw [← hre] at hg
    refine ⟨⟨L', hs.gives hg hgiven⟩, hs.malloc hg hgiven fun _ _ _ hne hc => ?_⟩
    cases hc
    exact hne rfl

theorem Ok.step_realloc_zero (hs : s.Ok L) (hb : Used L b) :
    (∃ L', (s.step (.realloc granted (b.addr + BLOCK_SIZE) 0)).Ok L') ∧
    s.Faithful (.realloc granted (b.addr + BLOCK_SIZE) 0) := by
  have hre : Libc.realloc granted s.heap (b.addr + BLOCK_SIZE) (0 : UInt64).toNat =
      (Libc.free s.heap (b.addr + BLOCK_SIZE), 0) := by
    unfold Libc.realloc
    rw [if_neg (show b.addr + BLOCK_SIZE ≠ 0 from Nat.succ_ne_zero _), if_pos UInt64.toNat_zero]
  have hafter : s.after (.realloc granted (b.addr + BLOCK_SIZE) 0) = Libc.free s.heap (b.addr + BLOCK_SIZE) := by
    rw [after_realloc, hre]
  have hret : s.ret (.realloc granted (b.addr + BLOCK_SIZE) 0) = 0 := by rw [ret_realloc, hre]
  have hgiven : s.given (.realloc granted (b.addr + BLOCK_SIZE) 0) = b.addr + BLOCK_SIZE := by
    rw [given_realloc, if_pos (.inl rfl)]
  obtain ⟨L', hok, hused, hkept⟩ := free_spec hs.heap hb
  rw [← hafter] at hok hkept
  exact ⟨⟨L', hs.frees hb hok hused hret hgiven⟩, hs.faithful_frees hb hused hkept hret hgiven (.inr ⟨granted, _, rfl⟩)⟩

theorem Ok.step_realloc {size : UInt64} (hs : s.Ok L) (ha : s.Allowed (.realloc granted ptr size)) :
    (∃ L', (s.step (.realloc granted ptr size)).Ok L') ∧ s.Faithful (.realloc granted ptr size) := by
  by_cases hnull : ptr = 0
  · subst hnull
    exact hs.step_realloc_null
  obtain ⟨r, hr⟩ := ha.resolve_left hnull
  obtain ⟨b, hb, rfl, -⟩ := hs.live ptr r hr
  by_cases hzero : size = 0
  · subst hzero
    exact hs.step_realloc_zero hb
  have hzero' : size.toNat ≠ 0 := fun h0 => hzero (UInt64.toNat_inj.1 h0)
  rcases realloc_spec hs.heap hb granted hzero' with hnone | ⟨hret, L', b', hr⟩
  · have hafter : s.after (.realloc granted (b.addr + BLOCK_SIZE) size) = s.heap := by rw [after_realloc, hnone]
    have hret : s.ret (.realloc granted (b.addr + BLOCK_SIZE) size) = 0 := by rw [ret_realloc, hnone]
    have hgiven : s.given (.realloc granted (b.addr + BLOCK_SIZE) size) = 0 := by
      rw [given_realloc, if_neg fun h => h.elim hzero fun h => h hret]
    have hsame := step_same hafter hret hgiven hs.live_null
    exact ⟨⟨L, by rw [hsame]; exact hs⟩, faithful_same hsame hret⟩
  · have hgiven : s.given (.realloc granted (b.addr + BLOCK_SIZE) size) = b.addr + BLOCK_SIZE := by
      rw [given_realloc, if_pos (.inr hret)]
    exact ⟨⟨L', hs.resizes hb hr hgiven⟩, hs.faithful_resizes hb hr rfl hgiven⟩

theorem Ok.step (hs : s.Ok L) (ha : s.Allowed call) : (∃ L', (s.step call).Ok L') ∧ s.Faithful call := by
  cases call with
  | malloc granted size =>
    rcases malloc_spec hs.heap granted size.toNat with hnone | ⟨-, -, L', b, hg⟩
    · have hsame : s.step (.malloc granted size) = s :=
        step_same (congrArg Prod.fst hnone) (congrArg Prod.snd hnone) rfl hs.live_null
      exact ⟨⟨L, by rw [hsame]; exact hs⟩, faithful_same hsame (congrArg Prod.snd hnone)⟩
    · exact ⟨⟨L', hs.gives hg rfl⟩, hs.malloc hg rfl fun _ _ _ _ hc => by cases hc⟩
  | calloc granted nelem elsize =>
    rcases calloc_spec hs.heap granted nelem.toNat elsize.toNat with hnone | ⟨-, L', b, hg⟩
    · have hsame : s.step (.calloc granted nelem elsize) = s :=
        step_same (congrArg Prod.fst hnone) (congrArg Prod.snd hnone) rfl hs.live_null
      exact ⟨⟨L, by rw [hsame]; exact hs⟩, faithful_same hsame (congrArg Prod.snd hnone)⟩
    · exact ⟨⟨L', hs.gives hg rfl⟩, hs.malloc hg rfl fun _ _ _ _ hc => by cases hc⟩
  | realloc granted ptr size => exact hs.step_realloc ha
  | free ptr =>
    by_cases hnull : ptr = 0
    · subst hnull
      have hsame : s.step (.free 0) = s := step_same (show Libc.free s.heap 0 = s.heap from if_pos rfl) rfl rfl hs.live_null
      exact ⟨⟨L, by rw [hsame]; exact hs⟩, faithful_same hsame rfl⟩
    · obtain ⟨r, hr⟩ := ha.resolve_left hnull
      obtain ⟨b, hb, rfl, -⟩ := hs.live ptr r hr
      obtain ⟨L', hok, hused, hkept⟩ := free_spec hs.heap hb
      exact ⟨⟨L', hs.frees hb hok hused rfl rfl⟩, hs.faithful_frees hb hused hkept rfl rfl (.inl ⟨_, rfl⟩)⟩
  | store i v =>
    refine ⟨⟨L, hs.store ha⟩, ⟨fun _ _ hstore _ => absurd rfl (hstore i v), fun _ _ _ _ hc => ?_, fun hstore => ?_⟩⟩
    · cases hc
    · exact absurd rfl (hstore i v)

def fresh (mem : Buffer) (brk : Nat) : Program := ⟨⟨mem, 0, brk⟩, fun _ => none⟩

theorem fresh_ok {brk : Nat} (mem : Buffer) (hpos : 0 < brk) : (fresh mem brk).Ok [] :=
  ⟨⟨hpos, fun _ => rfl, fun h => absurd rfl h⟩, fun _ _ hp => (by cases hp), fun _ hx => by cases hx.1⟩

/-- **The heap of the C library**: after any calls it is sound, and every call leaves what it should. -/
theorem libc_heap {brk : Nat} (mem : Buffer) (hpos : 0 < brk) (calls : List HeapCall)
    (hg : Run.Guarded step Allowed (fresh mem brk) calls) :
    (∀ s ∈ Run.states step (fresh mem brk) calls, s.Sound) ∧ Run.Guarded step Faithful (fresh mem brk) calls := by
  have hstep : ∀ s call, (∃ L, Ok s L) → Allowed s call → (∃ L, Ok (s.step call) L) ∧ Faithful s call := by
    rintro s call ⟨L, hs⟩ ha
    exact hs.step ha
  have hstart : ∃ L, (fresh mem brk).Ok L := ⟨[], fresh_ok mem hpos⟩
  constructor
  · intro s hs
    obtain ⟨L, hL⟩ := Run.states_forall (fun s call h ha => (hstep s call h ha).1) calls _ hstart hg s hs
    exact hL.sound
  · exact Run.guarded_imp hstep calls _ hstart hg

/-- The payload of 100 bytes moves up to grow to 200, and is freed there. -/
theorem libc_heap_moved : Run.Guarded step Faithful (fresh (fun _ => 0) 4096)
    [.malloc true 100, .store 4130 7, .realloc true 4128 200, .free 4272] := by
  have hguarded : Run.Guarded step Allowed (fresh (fun _ => 0) 4096)
      [.malloc true 100, .store 4130 7, .realloc true 4128 200, .free 4272] := by
    refine ⟨trivial, ⟨4128, 100, ?_, ?_, ?_⟩, .inr ⟨100, ?_⟩, .inr ⟨200, ?_⟩, trivial⟩ <;> decide +kernel
  exact (libc_heap _ (by decide) _ hguarded).2

end Program
end EterOS.Libc
