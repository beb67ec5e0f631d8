import EterOS.Libc.Malloc
/-!
# MallocBlocks — the heap as a row of blocks

The blocks tile the memory between `heap_start` and the break, and their headers link them in that order (`Blocks`).
Each thing the functions do to the headers exchanges a stretch of the row for another (`Heads.splice`): a block changes
its `free`, is split in two, takes in the one behind it, or is added at the end.
-/
namespace EterOS.Libc

open List

structure Blk where
  addr : Nat
  size : Nat
  free : Bool
  deriving DecidableEq

def nextAddr : List Blk → Nat → Nat
  | [], after => after
  | b :: _, _ => b.addr

def lastAddr : Nat → List Blk → Nat
  | prev, [] => prev
  | _, b :: bs => lastAddr b.addr bs

/-- The blocks lie one behind the other from `start` to `stop`. -/
def Tiles : Nat → List Blk → Nat → Prop
  | start, [], stop => start = stop
  | start, b :: bs, stop => b.addr = start ∧ Tiles (start + BLOCK_SIZE + b.size) bs stop

/-- The headers of the blocks, with what `next` and `prev` are in a row after `prev` and before `after`. -/
def Heads (m : Buffer) : Nat → List Blk → Nat → Prop
  | _, [], _ => True
  | prev, b :: bs, after => hdr m b.addr = ⟨b.size, nextAddr bs after, prev, b.free⟩ ∧ Heads m b.addr bs after

variable {m m' : Buffer} {start stop prev after : Nat} {A B L M N : List Blk} {b c : Blk}

@[simp] theorem nextAddr_cons : nextAddr (b :: B) after = b.addr := rfl
@[simp] theorem lastAddr_nil : lastAddr prev [] = prev := rfl
@[simp] theorem lastAddr_cons : lastAddr prev (b :: B) = lastAddr b.addr B := rfl

theorem nextAddr_append (A B : List Blk) (after : Nat) : nextAddr (A ++ B) after = nextAddr A (nextAddr B after) := by
  cases A <;> rfl

theorem lastAddr_append : ∀ (A B : List Blk) (prev : Nat), lastAddr prev (A ++ B) = lastAddr (lastAddr prev A) B
  | [], _, _ => rfl
  | a :: A, B, _ => lastAddr_append A B a.addr

theorem tiles_append : ∀ {A : List Blk} {start : Nat}, Tiles start (A ++ B) stop ↔ ∃ mid, Tiles start A mid ∧
    Tiles mid B stop
  | [], start => by simp [Tiles]
  | a :: A, start => by
    simp only [cons_append, Tiles, tiles_append (A := A)]
    constructor
    · rintro ⟨ha, mid, hA, hB⟩
      exact ⟨mid, ⟨ha, hA⟩, hB⟩
    · rintro ⟨mid, ⟨ha, hA⟩, hB⟩
      exact ⟨ha, mid, hA, hB⟩

theorem heads_append : ∀ {A : List Blk} {prev : Nat},
    Heads m prev (A ++ B) after ↔ Heads m prev A (nextAddr B after) ∧ Heads m (lastAddr prev A) B after
  | [], prev => by simp [Heads]
  | a :: A, prev => by
    simp [Heads, heads_append (A := A), nextAddr_append, lastAddr_cons, and_assoc]

theorem Heads.congr : ∀ {L : List Blk} {prev : Nat}, Heads m prev L after → (∀ b ∈ L, hdr m' b.addr = hdr m b.addr) →
    Heads m' prev L after
  | [], _, _, _ => trivial
  | b :: _, _, h, hm =>
    ⟨(hm b mem_cons_self).trans h.1, h.2.congr fun c hc => hm c (mem_cons_of_mem _ hc)⟩

/-- **The update rule**: the stretch `M` exchanged for `N`, and the next block's `prev` re-pointed. -/
theorem Heads.splice (h : Heads m prev (A ++ (M ++ B)) after) (hA : ∀ a ∈ A, hdr m' a.addr = hdr m a.addr)
    (hnext : nextAddr N (nextAddr B after) = nextAddr M (nextAddr B after))
    (hM : Heads m' (lastAddr prev A) N (nextAddr B after))
    (hB : ∀ c C, B = c :: C →
      hdr m' c.addr = { hdr m c.addr with prev := lastAddr (lastAddr prev A) N } ∧ ∀ d ∈ C, hdr m' d.addr = hdr m d.addr) :
    Heads m' prev (A ++ (N ++ B)) after := by
  obtain ⟨h1, h2⟩ := heads_append.1 h
  obtain ⟨-, h3⟩ := heads_append.1 h2
  rw [heads_append, heads_append]
  refine ⟨?_, hM, ?_⟩
  · rw [nextAddr_append, hnext, ← nextAddr_append]
    exact h1.congr hA
  · cases B with
    | nil => trivial
    | cons c C =>
      obtain ⟨hc, hC⟩ := hB c C rfl
      refine ⟨?_, h3.2.congr hC⟩
      rw [hc, h3.1]

theorem Tiles.le : ∀ {L : List Blk} {start : Nat}, Tiles start L stop → start ≤ stop
  | [], _, h => Nat.le_of_eq h
  | b :: L, start, h => by
    have := h.2.le
    omega

theorem Tiles.bounds : ∀ {L : List Blk} {start : Nat}, Tiles start L stop → ∀ b ∈ L,
    start ≤ b.addr ∧ b.addr + BLOCK_SIZE + b.size ≤ stop
  | [], _, _, _, hb => by cases hb
  | a :: L, start, h, b, hb => by
    obtain ⟨rfl, h⟩ := h
    rcases mem_cons.1 hb with rfl | hb
    · exact ⟨Nat.le_refl _, h.le⟩
    · have hb := h.bounds b hb
      omega

theorem Tiles.length_le : ∀ {L : List Blk} {start : Nat}, Tiles start L stop → start + L.length ≤ stop
  | [], _, h => Nat.le_of_eq h
  | b :: L, start, h => by
    have := h.2.length_le
    unfold BLOCK_SIZE at this
    rw [length_cons]
    omega

theorem Tiles.around (h : Tiles start (A ++ b :: B) stop) :
    (∀ a ∈ A, a.addr + BLOCK_SIZE + a.size ≤ b.addr) ∧ (∀ c ∈ B, b.addr + BLOCK_SIZE + b.size ≤ c.addr) ∧
    start ≤ b.addr := by
  obtain ⟨mid, hA, rfl, hB⟩ := tiles_append.1 h
  exact ⟨fun a ha => (hA.bounds a ha).2, fun c hc => (hB.bounds c hc).1, hA.le⟩

theorem Tiles.apart (h : Tiles start L stop) {x y : Blk} (hx : x ∈ L) (hy : y ∈ L) :
    x = y ∨ x.addr + BLOCK_SIZE + x.size ≤ y.addr ∨ y.addr + BLOCK_SIZE + y.size ≤ x.addr := by
  obtain ⟨A, B, rfl⟩ := append_of_mem hx
  obtain ⟨hA, hB, -⟩ := h.around
  rcases mem_append.1 hy with hy | hy
  · exact .inr (.inr (hA y hy))
  · rcases mem_cons.1 hy with rfl | hy
    · exact .inl rfl
    · exact .inr (.inl (hB y hy))

/-- **The heap**: from `start` to `stop` blocks of whole sixteens, linked by their headers. -/
structure Blocks (m : Buffer) (start : Nat) (L : List Blk) (stop : Nat) : Prop where
  pos : 0 < start
  limit : stop ≤ USER_LIMIT
  tiles : Tiles start L stop
  heads : Heads m 0 L 0
  sixteens : ∀ b ∈ L, 16 ∣ b.size

def InPayload (L : List Blk) (i : Nat) : Prop := ∃ b ∈ L, b.addr + BLOCK_SIZE ≤ i ∧ i < b.addr + BLOCK_SIZE + b.size

theorem Tiles.outside (h : Tiles start L stop) {i : Nat} (hi : InPayload L i) {b : Blk} (hb : b ∈ L) :
    i < b.addr ∨ b.addr + BLOCK_SIZE ≤ i := by
  obtain ⟨c, hc, hlo, hhi⟩ := hi
  rcases h.apart hb hc with rfl | hbc | hcb
  · exact .inr hlo
  · omega
  · omega

theorem Blocks.header (h : Blocks m start (A ++ b :: B) stop) :
    hdr m b.addr = ⟨b.size, nextAddr B 0, lastAddr 0 A, b.free⟩ := ((heads_append.1 h.heads).2).1

/-! ## What the stores do -/

/-- The memory changes in the headers at the addresses in `S`, and nowhere else. -/
def Changes (m m' : Buffer) (S : Nat → Prop) : Prop := ∀ i, (∀ a, S a → i < a ∨ a + BLOCK_SIZE ≤ i) → m' i = m i

theorem Changes.hdr {S : Nat → Prop} (h : Changes m m' S) {a : Nat}
    (ha : ∀ x, S x → a + BLOCK_SIZE ≤ x ∨ x + BLOCK_SIZE ≤ a) : hdr m' a = hdr m a := by
  apply hdr_congr
  intro i hi hi'
  apply h
  intro x hx
  have := ha x hx
  omega

theorem Upd.changes {a : Nat} {x : Hdr} {S : Nat → Prop} (h : Upd m m' a x) (ha : S a) : Changes m m' S :=
  fun i hi => h.out i (hi a ha)

theorem Changes.trans {m'' : Buffer} {S : Nat → Prop} (h : Changes m m' S) (h' : Changes m' m'' S) : Changes m m'' S :=
  fun i hi => (h' i hi).trans (h i hi)

theorem Changes.mono {S S' : Nat → Prop} (h : Changes m m' S) (hS : ∀ a, S a → S' a) : Changes m m' S' :=
  fun i hi => h i fun a ha => hi a (hS a ha)

theorem setPrev_spec (m : Buffer) (next : Nat) {p : Nat} (hp : p < 2 ^ 64) :
    Changes m (if next ≠ 0 then setPrev m next p else m) (fun a => next ≠ 0 ∧ a = next) ∧
      (next ≠ 0 → hdr (if next ≠ 0 then setPrev m next p else m) next = { hdr m next with prev := p }) := by
  by_cases hn : next ≠ 0
  · rw [if_pos hn]
    exact ⟨(upd_setPrev hp).changes ⟨hn, rfl⟩, fun _ => (upd_setPrev hp).self⟩
  · rw [if_neg hn]
    exact ⟨fun _ _ => rfl, fun h => absurd h hn⟩

/-- **`split_block`**, of a block with room for another: the two halves, and the block behind them. -/
theorem splitBlock_spec {block size n : Nat} {x : Hdr} (hx : hdr m block = x) (hn : block + BLOCK_SIZE + size = n)
    (hroom : size + BLOCK_SIZE + ALIGNMENT ≤ x.size) (hlt : block + BLOCK_SIZE + x.size < 2 ^ 63)
    (hnext : x.next = 0 ∨ block + BLOCK_SIZE + x.size ≤ x.next) (hnext' : x.next < 2 ^ 64) :
    hdr (splitBlock m block size) block = { x with size, next := n } ∧
    hdr (splitBlock m block size) n = ⟨x.size - size - BLOCK_SIZE, x.next, block, true⟩ ∧
    (x.next ≠ 0 → hdr (splitBlock m block size) x.next = { hdr m x.next with prev := n }) ∧
    Changes m (splitBlock m block size) (fun a => a = block ∨ a = n ∨ x.next ≠ 0 ∧ a = x.next) := by
  unfold BLOCK_SIZE ALIGNMENT at *
  have hfits : (size + 32 + 16) % 2 ^ 64 ≤ (hdr m block).size := by
    rw [hx, Nat.mod_eq_of_lt (by omega)]
    exact hroom
  unfold splitBlock BLOCK_SIZE ALIGNMENT
  rw [if_pos hfits, hx]
  dsimp only
  rw [hn]
  -- The new block's header, field by field.
  have h1 : Upd m (setSize m n (x.size - size - 32)) n _ := upd_setSize (by omega)
  have hb1 := h1.other (d := block) (by unfold BLOCK_SIZE; omega)
  generalize setSize m n (x.size - size - 32) = m1 at *
  rw [hb1, hx]
  have h2 := h1.trans (upd_setNext (v := x.next) hnext')
  generalize setNext m1 n x.next = m2 at *
  have h3 := h2.trans (upd_setPrev (v := block) (by omega))
  generalize setPrev m2 n block = m3 at *
  have h4 := h3.trans (upd_setFree true)
  generalize setFree m3 n true = m4 at *
  have hself : hdr m4 n = ⟨x.size - size - 32, x.next, block, true⟩ := by
    rw [h4.self, h3.self, h2.self, h1.self]
  rw [hself]
  dsimp only
  -- The block behind, and the block itself.
  obtain ⟨hch, hpr⟩ := setPrev_spec m4 x.next (p := n) (by omega)
  generalize (if x.next ≠ 0 then setPrev m4 x.next n else m4) = m5 at *
  have hb5 : hdr m5 block = x := by
    rw [hch.hdr (by unfold BLOCK_SIZE; rintro y ⟨hy, rfl⟩; omega), h4.other (by unfold BLOCK_SIZE; omega), hx]
  have h6 : Upd m5 (setSize m5 block size) block _ := upd_setSize (by omega)
  generalize setSize m5 block size = m6 at *
  have h7 := h6.trans (upd_setNext (v := n) (by omega))
  generalize setNext m6 block n = m7 at *
  refine ⟨?_, ?_, fun hne => ?_, ?_⟩
  · rw [h7.self, h6.self, hb5]
  · rw [h7.other (by unfold BLOCK_SIZE; omega), hch.hdr (by unfold BLOCK_SIZE; rintro y ⟨hy, rfl⟩; omega), hself]
  · rw [h7.other (by unfold BLOCK_SIZE; omega), hpr hne, h4.other (by unfold BLOCK_SIZE; omega)]
  · exact ((h4.changes (.inr (.inl rfl))).trans (hch.mono fun a ha => .inr (.inr ha))).trans (h7.changes (.inl rfl))

/-- **A block takes in the one behind it**, and the block behind that. -/
theorem absorb_spec {block behind : Nat} {x y : Hdr} (hx : hdr m block = x) (hy : hdr m behind = y)
    (hbehind : block + BLOCK_SIZE ≤ behind) (hlt : x.size + BLOCK_SIZE + y.size < 2 ^ 64) (hblock : block < 2 ^ 63)
    (hnext : y.next = 0 ∨ behind + BLOCK_SIZE ≤ y.next) (hnext' : y.next < 2 ^ 64) :
    hdr (absorb m block behind) block = { x with size := x.size + BLOCK_SIZE + y.size, next := y.next } ∧
    (y.next ≠ 0 → hdr (absorb m block behind) y.next = { hdr m y.next with prev := block }) ∧
    Changes m (absorb m block behind) (fun a => a = block ∨ y.next ≠ 0 ∧ a = y.next) := by
  unfold absorb
  dsimp only
  rw [hx, hy, Nat.mod_eq_of_lt hlt]
  have h1 : Upd m (setSize m block (x.size + BLOCK_SIZE + y.size)) block _ := upd_setSize hlt
  have hb1 := h1.other (d := behind) (.inl hbehind)
  generalize setSize m block (x.size + BLOCK_SIZE + y.size) = m1 at *
  rw [hb1, hy]
  have h2 := h1.trans (upd_setNext (v := y.next) hnext')
  generalize setNext m1 block y.next = m2 at *
  have hself : hdr m2 block = { x with size := x.size + BLOCK_SIZE + y.size, next := y.next } := by
    rw [h2.self, h1.self, hx]
  rw [hself]
  dsimp only
  obtain ⟨hch, hpr⟩ := setPrev_spec m2 y.next (p := block) (by omega)
  generalize (if y.next ≠ 0 then setPrev m2 y.next block else m2) = m3 at *
  unfold BLOCK_SIZE at *
  refine ⟨?_, fun hne => ?_, ?_⟩
  · rw [hch.hdr (by unfold BLOCK_SIZE; rintro z ⟨hz, rfl⟩; omega), hself]
  · rw [hpr hne, h2.other (by unfold BLOCK_SIZE; omega)]
  · exact (h2.changes (.inl rfl)).trans (hch.mono fun a ha => .inr ha)

/-! ## What they do to the row -/

theorem Blocks.addr_pos (h : Blocks m start L stop) (hb : b ∈ L) : 0 < b.addr :=
  Nat.lt_of_lt_of_le h.pos (h.tiles.bounds b hb).1

theorem nextAddr_cases (h : Blocks m start (A ++ (M ++ B)) stop) :
    B = [] ∧ nextAddr B 0 = 0 ∨ ∃ c C, B = c :: C ∧ nextAddr B 0 = c.addr ∧ c.addr ≠ 0 := by
  cases B with
  | nil => exact .inl ⟨rfl, rfl⟩
  | cons c C =>
    have hc : c ∈ A ++ (M ++ c :: C) := by simp
    exact .inr ⟨c, C, rfl, rfl, (h.addr_pos hc).ne'⟩

/-- **A stretch of the row exchanged**: only headers of the new stretch change, and the `prev` of the block behind it. -/
theorem Blocks.exchange {stop' : Nat} (h : Blocks m start (A ++ (M ++ B)) stop) (hlimit : stop' ≤ USER_LIMIT)
    (htiles : Tiles start (A ++ (N ++ B)) stop') (hM : Heads m' (lastAddr 0 A) N (nextAddr B 0))
    (hnext : nextAddr N (nextAddr B 0) = nextAddr M (nextAddr B 0))
    (hbehind : nextAddr B 0 ≠ 0 → hdr m' (nextAddr B 0) = { hdr m (nextAddr B 0) with prev := lastAddr (lastAddr 0 A) N })
    (hch : Changes m m' (fun a => (∃ x ∈ N, a = x.addr) ∨ nextAddr B 0 ≠ 0 ∧ a = nextAddr B 0))
    (hsix : ∀ b ∈ N, 16 ∣ b.size) :
    Blocks m' start (A ++ (N ++ B)) stop' ∧ ∀ i, InPayload (A ++ (N ++ B)) i → m' i = m i := by
  have hnew : ∀ a, ((∃ x ∈ N, a = x.addr) ∨ nextAddr B 0 ≠ 0 ∧ a = nextAddr B 0) → ∃ x ∈ A ++ (N ++ B), x.addr = a := by
    rintro a (⟨x, hx, rfl⟩ | ⟨hne, rfl⟩)
    · exact ⟨x, by simp [hx], rfl⟩
    · cases B with
      | nil => exact absurd rfl hne
      | cons c C => exact ⟨c, by simp, rfl⟩
  refine ⟨⟨h.pos, hlimit, htiles, ?_, fun b hb => ?_⟩, fun i hi => ?_⟩
  · apply h.heads.splice _ hnext hM
    · rintro c C rfl
      obtain ⟨-, hafter, -⟩ := (show Tiles start ((A ++ N) ++ c :: C) stop' by simpa using htiles).around
      refine ⟨hbehind (h.addr_pos (b := c) (by simp)).ne', fun d hd => hch.hdr fun x hx => ?_⟩
      have hd' := hafter d hd
      rcases hx with ⟨y, hy, rfl⟩ | ⟨-, rfl⟩
      · have hy' := (show Tiles start ((A ++ N) ++ c :: C) stop' by simpa using htiles).around.1 y (by simp [hy])
        omega
      · right
        rw [nextAddr_cons]
        omega
    · intro a ha
      apply hch.hdr
      intro x hx
      left
      obtain ⟨A1, A2, rfl⟩ := append_of_mem ha
      have haround := (show Tiles start (A1 ++ a :: (A2 ++ (N ++ B))) stop' by simpa using htiles).around.2.1
      rcases hx with ⟨y, hy, rfl⟩ | ⟨hne, rfl⟩
      · have := haround y (by simp [hy])
        omega
      · cases B with
        | nil => exact absurd rfl hne
        | cons c C =>
          have := haround c (by simp)
          rw [nextAddr_cons]
          omega
  · rcases mem_append.1 hb with hb | hb
    · exact h.sixteens b (by simp [hb])
    · rcases mem_append.1 hb with hb | hb
      · exact hsix b hb
      · exact h.sixteens b (by simp [hb])
  · apply hch
    intro a ha
    obtain ⟨x, hx, rfl⟩ := hnew a ha
    exact htiles.outside hi hx

theorem tiles_exchange (h : Tiles start (A ++ (M ++ B)) stop) (hM : ∀ lo hi, Tiles lo M hi → Tiles lo N hi) :
    Tiles start (A ++ (N ++ B)) stop := by
  obtain ⟨lo, hA, h⟩ := tiles_append.1 h
  obtain ⟨hi, hmid, hB⟩ := tiles_append.1 h
  exact tiles_append.2 ⟨lo, hA, tiles_append.2 ⟨hi, hM lo hi hmid, hB⟩⟩

theorem Blocks.setFree (h : Blocks m start (A ++ b :: B) stop) (free : Bool) :
    Blocks (setFree m b.addr free) start (A ++ { b with free } :: B) stop ∧
      ∀ i, InPayload (A ++ { b with free } :: B) i → Libc.setFree m b.addr free i = m i := by
  have hupd : Upd m (Libc.setFree m b.addr free) b.addr _ := upd_setFree free
  have hheader := h.header
  have h' : Blocks m start (A ++ ([b] ++ B)) stop := h
  have htiles : Tiles start (A ++ ([{ b with free }] ++ B)) stop := tiles_exchange h'.tiles fun _ _ h => h
  refine h'.exchange (N := [{ b with free }]) h.limit htiles ⟨?_, trivial⟩ rfl (fun hne => ?_) ?_ ?_
  · rw [hupd.self, hheader]
    rfl
  · rcases nextAddr_cases h' with ⟨-, h0⟩ | ⟨c, C, rfl, hc, -⟩
    · exact absurd h0 hne
    · have hcb := h.tiles.around.2.1 c mem_cons_self
      have hhead := (heads_append.1 h.heads).2.2.1
      rw [hc, hupd.other (.inl (by omega)), hhead]
      rfl
  · exact hupd.changes (.inl ⟨_, mem_cons_self, rfl⟩)
  · intro x hx
    rw [mem_singleton.1 hx]
    exact h.sixteens b (by simp)

theorem Blocks.split (h : Blocks m start (A ++ b :: B) stop) {size : Nat} (hsix : 16 ∣ size)
    (hroom : size + BLOCK_SIZE + ALIGNMENT ≤ b.size) :
    Blocks (splitBlock m b.addr size) start
      (A ++ { b with size } :: ⟨b.addr + BLOCK_SIZE + size, b.size - size - BLOCK_SIZE, true⟩ :: B) stop ∧
    ∀ i, InPayload (A ++ { b with size } :: ⟨b.addr + BLOCK_SIZE + size, b.size - size - BLOCK_SIZE, true⟩ :: B) i →
      splitBlock m b.addr size i = m i := by
  have h' : Blocks m start (A ++ ([b] ++ B)) stop := h
  have hheader := h.header
  have hbounds := h.tiles.bounds b (by simp)
  have hlimit := h.limit
  have hb16 := h.sixteens b (by simp)
  unfold USER_LIMIT at hlimit
  have hnext : nextAddr B 0 = 0 ∨ b.addr + BLOCK_SIZE + b.size ≤ nextAddr B 0 := by
    rcases nextAddr_cases h' with ⟨-, h0⟩ | ⟨c, C, rfl, hc, -⟩
    · exact .inl h0
    · right
      rw [hc]
      exact h.tiles.around.2.1 c mem_cons_self
  have hnext' : nextAddr B 0 < 2 ^ 64 := by
    rcases nextAddr_cases h' with ⟨-, h0⟩ | ⟨c, C, rfl, hc, -⟩
    · omega
    · have := h.tiles.bounds c (by simp)
      omega
  obtain ⟨hself, hnew, hpr, hch⟩ := splitBlock_spec hheader rfl hroom (by dsimp only; omega) hnext hnext'
  have hroom' := hroom
  unfold BLOCK_SIZE ALIGNMENT at hroom'
  refine h'.exchange (N := [{ b with size }, ⟨b.addr + BLOCK_SIZE + size, b.size - size - BLOCK_SIZE, true⟩]) h.limit
    (tiles_exchange h'.tiles ?_) ⟨hself, hnew, trivial⟩ rfl hpr ?_ ?_
  · rintro lo hi ⟨rfl, rfl⟩
    refine ⟨rfl, rfl, ?_⟩
    unfold Tiles BLOCK_SIZE
    dsimp only
    omega
  · apply hch.mono
    rintro a (rfl | rfl | ha)
    · exact .inl ⟨_, mem_cons_self, rfl⟩
    · exact .inl ⟨_, mem_cons_of_mem _ mem_cons_self, rfl⟩
    · exact .inr ha
  · intro x hx
    simp only [mem_cons, not_mem_nil, or_false] at hx
    rcases hx with rfl | rfl
    · exact hsix
    · unfold BLOCK_SIZE
      dsimp only
      omega

theorem Blocks.absorb (h : Blocks m start (A ++ b :: c :: B) stop) :
    Blocks (absorb m b.addr c.addr) start (A ++ { b with size := b.size + BLOCK_SIZE + c.size } :: B) stop ∧
    ∀ i, InPayload (A ++ { b with size := b.size + BLOCK_SIZE + c.size } :: B) i → Libc.absorb m b.addr c.addr i = m i := by
  have h' : Blocks m start (A ++ ([b, c] ++ B)) stop := h
  have hb := h.header
  have hc : hdr m c.addr = ⟨c.size, nextAddr B 0, b.addr, c.free⟩ := by
    have hsplit : Blocks m start ((A ++ [b]) ++ c :: B) stop := by simpa using h
    rw [hsplit.header, lastAddr_append]
    rfl
  have hlimit := h.limit
  unfold USER_LIMIT at hlimit
  have hbc := h.tiles.around.2.1 c mem_cons_self
  have hbb := h.tiles.bounds b (by simp)
  have hcb := h.tiles.bounds c (by simp)
  have hnext : nextAddr B 0 = 0 ∨ c.addr + BLOCK_SIZE ≤ nextAddr B 0 ∧ nextAddr B 0 < 2 ^ 64 := by
    rcases nextAddr_cases h' with ⟨-, h0⟩ | ⟨d, C, rfl, hd, -⟩
    · exact .inl h0
    · right
      have hsplit : Tiles start ((A ++ [b]) ++ c :: d :: C) stop := by simpa using h.tiles
      have hcd := hsplit.around.2.1 d mem_cons_self
      have hdb := h.tiles.bounds d (by simp)
      rw [hd]
      omega
  unfold BLOCK_SIZE at *
  obtain ⟨hself, hpr, hch⟩ := absorb_spec hb hc (by unfold BLOCK_SIZE; omega) (by unfold BLOCK_SIZE; dsimp only; omega)
    (by omega)
    (by unfold BLOCK_SIZE; dsimp only; omega) (by dsimp only; omega)
  refine h'.exchange (N := [{ b with size := b.size + 32 + c.size }]) h.limit (tiles_exchange h'.tiles ?_) ⟨hself,
    trivial⟩ rfl hpr
    ?_ ?_
  · rintro lo hi ⟨rfl, hca, rfl⟩
    refine ⟨rfl, ?_⟩
    unfold Tiles BLOCK_SIZE
    dsimp only
    omega
  · apply hch.mono
    rintro a (rfl | ha)
    · exact .inl ⟨_, mem_cons_self, rfl⟩
    · exact .inr ha
  · intro x hx
    rw [mem_singleton.1 hx]
    have hb16 := h.sixteens b (by simp)
    have hc16 := h.sixteens c (by simp)
    dsimp only
    omega

end EterOS.Libc
