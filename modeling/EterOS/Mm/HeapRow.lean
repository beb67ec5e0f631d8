import EterOS.Mm.HeapLists
/-!
# HeapRow — the blocks in the order of their addresses

The blocks tile the heap, and `next` and `prev` link them in that order (`Row`): the second `Dll` of the heap.  Its
operations are a block that changes its `is_free`, one that is cut in two, and one that takes in the one behind it.
-/
namespace EterOS.Heap

open List
open Buffer (blit le digits)
open Libc (Blk Tiles)

variable {m m' : Buffer} {start stop : Nat} {A B L : List Blk} {b c : Blk} {x n size : Nat} {f : Fld} {P : Nat → Prop}

def At (L : List Blk) (x : Nat) : Prop := ∃ b ∈ L, b.addr = x

/-- **The row**: from `start` to `stop` blocks with their headers, at whole eights, with room for a node in each. -/
structure Row (m : Buffer) (start : Nat) (L : List Blk) (stop : Nat) : Prop where
  pos : 0 < start
  proper : start < stop
  limit : stop ≤ 2 ^ 34
  tiles : Tiles start L stop
  eights : ∀ b ∈ L, 8 ∣ b.addr
  room : ∀ b ∈ L, NODE_SIZE ≤ b.size
  size : ∀ b ∈ L, get m b.addr .size = b.size
  magic : ∀ b ∈ L, get m b.addr .magic = HEAP_MAGIC
  isFree : ∀ b ∈ L, get m b.addr .isFree = if b.free then 1 else 0
  linked : Dll.Linked (link m .next) (link m .prev) (L.map Blk.addr)

theorem spread_of_tiles (h : Tiles start L stop) (hroom : ∀ b ∈ L, NODE_SIZE ≤ b.size) : Spread (At L) := by
  rintro _ _ ⟨b, hb, rfl⟩ ⟨c, hc, rfl⟩ hne
  have hbs := hroom b hb
  have hcs := hroom c hc
  have hapart := h.apart hb hc
  unfold Libc.BLOCK_SIZE at hapart
  unfold HEADER_SIZE NODE_SIZE at *
  rcases hapart with rfl | h | h
  · exact absurd rfl hne
  · omega
  · omega

theorem pointers_of_tiles (h : Tiles start L stop) (hpos : 0 < start) (hlimit : stop ≤ 2 ^ 34) : Pointers (At L) := by
  rintro _ ⟨b, hb, rfl⟩
  have hbounds := h.bounds b hb
  omega

theorem Row.spread (h : Row m start L stop) : Spread (At L) := spread_of_tiles h.tiles h.room

theorem Row.pointers (h : Row m start L stop) : Pointers (At L) := pointers_of_tiles h.tiles h.pos h.limit

theorem Row.distinct (h : Row m start L stop) (hb : b ∈ L) (hc : c ∈ L) (he : b.addr = c.addr) : b = c := by
  have hapart := h.tiles.apart hb hc
  unfold Libc.BLOCK_SIZE at hapart
  rcases hapart with hbc | h | h
  · exact hbc
  · omega
  · omega

theorem mem_map_addr : x ∈ L.map Blk.addr ↔ At L x := mem_map

theorem Row.congr (h : Row m start L stop)
    (hf : ∀ x f, At L x → f ≠ .nextFree → f ≠ .prevFree → get m' x f = get m x f) : Row m' start L stop := by
  have hat : ∀ b ∈ L, At L b.addr := fun b hb => ⟨b, hb, rfl⟩
  refine ⟨h.pos, h.proper, h.limit, h.tiles, h.eights, h.room, fun b hb => ?_, fun b hb => ?_, fun b hb => ?_, ?_⟩
  · rw [hf _ _ (hat b hb) (by decide) (by decide), h.size b hb]
  · rw [hf _ _ (hat b hb) (by decide) (by decide), h.magic b hb]
  · rw [hf _ _ (hat b hb) (by decide) (by decide), h.isFree b hb]
  · refine h.linked.congr fun x hx => ?_
    have hx := mem_map_addr.1 hx
    unfold link
    exact ⟨by rw [hf x _ hx (by decide) (by decide)], by rw [hf x _ hx (by decide) (by decide)]⟩

theorem Row.around (h : Row m start (A ++ b :: B) stop) :
    link m .prev b.addr = (A.map Blk.addr).getLast? ∧ link m .next b.addr = (B.map Blk.addr).head? := by
  have hl := h.linked
  rw [map_append, map_cons] at hl
  exact hl.at_mid

/-! ## Stores into headers -/

section Stores

variable {curr block behind nx : Nat}

def restHeader (m : Buffer) (curr n nx size : Nat) : Buffer :=
  put (put (put (put (put m n .size (get m curr .size - size - HEADER_SIZE)) n .isFree 1) n .magic HEAP_MAGIC) n .next nx)
    n .prev curr

theorem pointer_lt (hptr : Pointers P) (hnx : nx ≠ 0 → P nx) : nx < 256 ^ 8 := by
  by_cases h0 : nx = 0
  · rw [h0]
    decide
  · exact (hptr nx (hnx h0)).2

theorem get_restHeader (hP : Spread P) (hn : P n) (hc64 : curr < 256 ^ 8) (hnx64 : nx < 256 ^ 8)
    (hsize : get m curr .size < 256 ^ 8) (hx : P x) :
    get (restHeader m curr n nx size) x f = if x = n then
        (match f with
          | .size => get m curr .size - size - HEADER_SIZE | .magic => HEAP_MAGIC | .isFree => 1 | .next =>
              nx | .prev => curr
          | f => get m n f)
      else get m x f := by
  have hrest : get m curr .size - size - HEADER_SIZE < 256 ^ 8 := by omega
  unfold restHeader
  rw [get_put_of_lt hP hn hx hc64, get_put_of_lt hP hn hx hnx64, get_put_of_lt hP hn hx (by decide),
    get_put_of_lt hP hn hx (by decide), get_put_of_lt hP hn hx hrest]
  by_cases hxn : x = n
  · subst hxn
    cases f <;> simp
  · simp [hxn]

theorem cutBlock_eq (hP : Spread P) (hptr : Pointers P) (hc : P curr) (hn : P n) (hnew : curr + HEADER_SIZE + size = n)
    (hnx : get m curr .next = nx) (hnxP : nx ≠ 0 → P nx) (hsize : get m curr .size < 256 ^ 8) :
    cutBlock m curr size = put (put (if nx ≠ 0 then put (restHeader m curr n nx size) nx .prev n
      else restHeader m curr n nx size)
        curr .size size) curr .next n := by
  have hcn : curr ≠ n := by
    unfold HEADER_SIZE at hnew
    omega
  have hrest : get m curr .size - size - HEADER_SIZE < 256 ^ 8 := by omega
  have hread : get (put (put (put m n .size (get m curr .size - size - HEADER_SIZE)) n .isFree 1) n .magic HEAP_MAGIC)
      curr .next = nx := by
    rw [get_put_of_lt hP hn hc (by decide), if_neg (fun h => hcn h.1), get_put_of_lt hP hn hc (by decide),
      if_neg (fun h => hcn h.1), get_put_of_lt hP hn hc hrest, if_neg (fun h => hcn h.1), hnx]
  have hback : get (restHeader m curr n nx size) n .next = nx := by
    rw [get_restHeader hP hn (hptr curr hc).2 (pointer_lt hptr hnxP) hsize hn, if_pos rfl]
  unfold cutBlock
  dsimp only
  rw [hnew, hread]
  unfold restHeader at hback ⊢
  rw [hback]

theorem get_cutBlock (hP : Spread P) (hptr : Pointers P) (hc : P curr) (hn : P n) (hnew : curr + HEADER_SIZE + size = n)
    (hnx : get m curr .next = nx) (hnxP : nx ≠ 0 → P nx) (hnxn : nx ≠ n) (hnxc : nx ≠ curr)
    (hsize : get m curr .size < 256 ^ 8) (hle : size ≤ get m curr .size) (hx : P x) :
    get (cutBlock m curr size) x f = if x = curr then (match f with | .size => size | .next => n | f => get m curr f)
      else if x = n then
        (match f with
          | .size => get m curr .size - size - HEADER_SIZE | .magic => HEAP_MAGIC | .isFree => 1 | .next =>
              nx | .prev => curr
          | f => get m n f)
      else if x = nx ∧ f = .prev then n else get m x f := by
  have hcn : curr ≠ n := by
    unfold HEADER_SIZE at hnew
    omega
  have hn64 := (hptr n hn).2
  have hsize' : size < 256 ^ 8 := Nat.lt_of_le_of_lt hle hsize
  rw [cutBlock_eq hP hptr hc hn hnew hnx hnxP hsize, get_put_of_lt hP hc hx hn64, get_put_of_lt hP hc hx hsize',
    get_put_ptr hP hnxP hx (hptr x hx).1 hn64, get_restHeader hP hn (hptr curr hc).2 (pointer_lt hptr hnxP) hsize hx]
  by_cases hxc : x = curr
  · subst hxc
    cases f <;> simp [hcn, Ne.symm hnxc]
  · by_cases hxn : x = n
    · subst hxn
      simp [hxc, Ne.symm hnxn]
    · simp [hxc, hxn]

theorem writes_cutBlock {H N : Nat → Prop} (hP : Spread P) (hptr : Pointers P) (hc : P curr) (hn : P n)
    (hnew : curr + HEADER_SIZE + size = n) (hnx : get m curr .next = nx) (hnxP : nx ≠ 0 → P nx)
    (hsize : get m curr .size < 256 ^ 8) (hHc : H curr) (hHn : H n) (hHnx : nx ≠ 0 → H nx) :
    Writes m (cutBlock m curr size) H N := by
  rw [cutBlock_eq hP hptr hc hn hnew hnx hnxP hsize]
  have hw : Writes m (restHeader m curr n nx size) H N :=
    ((((writes_put_header hHn (by decide)).trans (writes_put_header hHn (by decide))).trans
      (writes_put_header hHn (by decide))).trans (writes_put_header hHn (by decide))).trans
      (writes_put_header hHn (by decide))
  exact ((hw.trans (writes_put_ptr_header hHnx (by decide))).trans (writes_put_header hHc (by decide))).trans
    (writes_put_header hHc (by decide))

theorem absorb_eq (hP : Spread P) (hb : P block) (hc : P behind) (hnx : get m behind .next = nx)
    (hnx64 : nx < 256 ^ 8) (hlt : get m block .size + (HEADER_SIZE + get m behind .size) < 256 ^ 8) :
    absorb m block behind =
      let m1 := put (put m block .size (get m block .size + (HEADER_SIZE + get m behind .size))) block .next nx
      if nx ≠ 0 then put m1 nx .prev block else m1 := by
  have hread : get (put m block .size (get m block .size + (HEADER_SIZE + get m behind .size))) behind .next = nx := by
    rw [get_put_of_lt hP hb hc hlt, if_neg (show ¬(behind = block ∧ Fld.next = .size) by simp), hnx]
  have hback : get (put (put m block .size (get m block .size + (HEADER_SIZE + get m behind .size))) block .next nx)
      block .next = nx := by
    rw [get_put_of_lt hP hb hb hnx64, if_pos ⟨rfl, rfl⟩]
  have hmod : (get m block .size + (HEADER_SIZE + get m behind .size)) % 2 ^ 64 = _ := Nat.mod_eq_of_lt hlt
  unfold absorb
  dsimp only
  rw [hmod, hread, hback]

theorem get_absorb (hP : Spread P) (hptr : Pointers P) (hb : P block) (hc : P behind)
    (hnx : get m behind .next = nx) (hnxP : nx ≠ 0 → P nx) (hnxb : nx ≠ block)
    (hlt : get m block .size + (HEADER_SIZE + get m behind .size) < 256 ^ 8) (hx : P x) :
    get (absorb m block behind) x f = if x = block then
        (match f with
          | .size => get m block .size + (HEADER_SIZE + get m behind .size) | .next => nx | f => get m block f)
      else if x = nx ∧ f = .prev then block else get m x f := by
  have hnx64 := pointer_lt hptr hnxP
  rw [absorb_eq hP hb hc hnx hnx64 hlt]
  dsimp only
  rw [get_put_ptr hP hnxP hx (hptr x hx).1 (hptr block hb).2, get_put_of_lt hP hb hx hnx64, get_put_of_lt hP hb hx hlt]
  by_cases hxb : x = block
  · subst hxb
    cases f <;> simp [Ne.symm hnxb]
  · simp [hxb]

theorem writes_absorb {H N : Nat → Prop} (hP : Spread P) (hptr : Pointers P) (hb : P block) (hc : P behind)
    (hnx : get m behind .next = nx) (hnxP : nx ≠ 0 → P nx)
    (hlt : get m block .size + (HEADER_SIZE + get m behind .size) < 256 ^ 8) (hHb : H block) (hHnx : nx ≠ 0 → H nx) :
    Writes m (absorb m block behind) H N := by
  rw [absorb_eq hP hb hc hnx (pointer_lt hptr hnxP) hlt]
  exact ((writes_put_header hHb (by decide)).trans (writes_put_header hHb (by decide))).trans
    (writes_put_ptr_header hHnx (by decide))

end Stores

/-! ## What they do to the row -/

theorem Row.next_eq (h : Row m start (A ++ b :: B) stop) : get m b.addr .next = addr (B.map Blk.addr).head? := by
  rw [get_eq_addr_link, h.around.2]

theorem Row.prev_eq (h : Row m start (A ++ b :: B) stop) : get m b.addr .prev = addr (A.map Blk.addr).getLast? := by
  rw [get_eq_addr_link, h.around.1]

theorem Row.behind (h : Row m start (A ++ b :: B) stop) {nx : Nat} (hnx : nx = addr (B.map Blk.addr).head?) :
    (nx ≠ 0 → At B nx ∧ b.addr + HEADER_SIZE + b.size ≤ nx) ∧ ∀ x, At (A ++ b :: B) x →
    (x = nx ↔ (B.map Blk.addr).head? = some x) := by
  have hptr := h.pointers
  cases B with
  | nil => exact ⟨fun h0 => absurd hnx h0, fun x hx => by simpa [hnx] using (hptr x hx).1⟩
  | cons c C =>
    have hc : nx = c.addr := hnx
    have hbc := h.tiles.around.2.1 c mem_cons_self
    unfold Libc.BLOCK_SIZE at hbc
    exact ⟨fun _ => ⟨⟨c, mem_cons_self, hc.symm⟩, by rw [hc]; exact hbc⟩, fun x _ => by simp [hc, eq_comm]⟩

theorem at_append {x : Nat} : At (A ++ B) x ↔ At A x ∨ At B x := by
  unfold At
  simp [or_and_right, exists_or]

theorem at_cons {x : Nat} : At (b :: B) x ↔ b.addr = x ∨ At B x := by
  unfold At
  simp

def cutRow (b : Blk) (size : Nat) : List Blk :=
  [{ b with size }, ⟨b.addr + HEADER_SIZE + size, b.size - size - HEADER_SIZE, true⟩]

theorem tiles_cut (h : Tiles start (A ++ b :: B) stop) (hroom : size + HEADER_SIZE ≤ b.size) :
    Tiles start (A ++ (cutRow b size ++ B)) stop := by
  refine Libc.tiles_exchange (M := [b]) h ?_
  rintro lo hi ⟨rfl, rfl⟩
  unfold HEADER_SIZE at hroom
  refine ⟨rfl, rfl, ?_⟩
  unfold Tiles Libc.BLOCK_SIZE HEADER_SIZE
  dsimp only
  omega

theorem at_cut : At (A ++ (cutRow b size ++ B)) x ↔ At (A ++ b :: B) x ∨ x = b.addr + HEADER_SIZE + size := by
  rw [at_append, at_append, at_append, at_cons, cutRow, at_cons, at_cons]
  simp only [At, not_mem_nil, false_and, exists_false, or_false]
  constructor
  · rintro (hA | (hb | hn) | hB)
    · exact .inl (.inl hA)
    · exact .inl (.inr (.inl hb))
    · exact .inr hn.symm
    · exact .inl (.inr (.inr hB))
  · rintro ((hA | hb | hB) | hn)
    · exact .inl hA
    · exact .inr (.inl (.inl hb))
    · exact .inr (.inr hB)
    · exact .inr (.inl (.inr hn.symm))

theorem Row.exchange {M N : List Blk} (h : Row m start (A ++ (M ++ B)) stop) (htiles : Tiles start (A ++ (N ++ B)) stop)
    (hN : ∀ x ∈ N, 8 ∣ x.addr ∧ NODE_SIZE ≤ x.size ∧ get m' x.addr .size = x.size ∧ get m' x.addr .magic = HEAP_MAGIC ∧
      get m' x.addr .isFree = if x.free then 1 else 0)
    (hothers : ∀ x ∈ A ++ B, ∀ f, f = .size ∨ f = .magic ∨ f = .isFree → get m' x.addr f = get m x.addr f)
    (hlinked : Dll.Linked (link m' .next) (link m' .prev) ((A ++ (N ++ B)).map Blk.addr)) :
    Row m' start (A ++ (N ++ B)) stop := by
  have hold : ∀ x ∈ A ++ B, x ∈ A ++ (M ++ B) := fun x hx => by
    simp only [mem_append] at hx ⊢
    tauto
  have hcases : ∀ x ∈ A ++ (N ++ B), x ∈ N ∨ x ∈ A ++ B := fun x hx => by
    simp only [mem_append] at hx ⊢
    tauto
  refine ⟨h.pos, h.proper, h.limit, htiles, fun x hx => ?_, fun x hx => ?_, fun x hx => ?_, fun x hx => ?_,
    fun x hx => ?_, hlinked⟩
  · exact (hcases x hx).elim (fun hx => (hN x hx).1) fun hx => h.eights x (hold x hx)
  · exact (hcases x hx).elim (fun hx => (hN x hx).2.1) fun hx => h.room x (hold x hx)
  · refine (hcases x hx).elim (fun hx => (hN x hx).2.2.1) fun hx => ?_
    rw [hothers x hx _ (.inl rfl), h.size x (hold x hx)]
  · refine (hcases x hx).elim (fun hx => (hN x hx).2.2.2.1) fun hx => ?_
    rw [hothers x hx _ (.inr (.inl rfl)), h.magic x (hold x hx)]
  · refine (hcases x hx).elim (fun hx => (hN x hx).2.2.2.2) fun hx => ?_
    rw [hothers x hx _ (.inr (.inr rfl)), h.isFree x (hold x hx)]

theorem Row.elsewhere (h : Row m start (A ++ b :: B) stop) {x : Blk} (hx : x ∈ A ++ B) :
    x ∈ A ++ b :: B ∧ (x.addr + HEADER_SIZE + x.size ≤ b.addr ∨ b.addr + HEADER_SIZE + b.size ≤ x.addr) := by
  rcases mem_append.1 hx with hx | hx
  · exact ⟨by simp [hx], .inl (h.tiles.around.1 x hx)⟩
  · exact ⟨by simp [hx], .inr (h.tiles.around.2.1 x hx)⟩

theorem Row.ne_of_elsewhere (h : Row m start (A ++ b :: B) stop) {x : Blk} (hx : x ∈ A ++ B) : x.addr ≠ b.addr := by
  have hroom := h.room b (by simp)
  have := (h.elsewhere hx).2
  unfold HEADER_SIZE at this
  omega

theorem Row.mark (h : Row m start (A ++ b :: B) stop) (free : Bool) :
    Row (put m b.addr .isFree (if free then 1 else 0)) start (A ++ { b with free } :: B) stop := by
  have h' : Row m start (A ++ ([b] ++ B)) stop := h
  have hb : At (A ++ b :: B) b.addr := ⟨b, by simp, rfl⟩
  have hv : (if free then 1 else 0) < 256 ^ Fld.isFree.width := by cases free <;> decide
  have hget : ∀ x f, At (A ++ b :: B) x → f ≠ .isFree → get (put m b.addr .isFree (if free then 1 else 0)) x f = get m x f :=
    fun x f hx hf => by rw [get_put_of_lt h.spread hb hx hv, if_neg (fun hc => hf hc.2)]
  refine h'.exchange (N := [{ b with free }]) (Libc.tiles_exchange (M := [b]) h.tiles fun _ _ ht => ht) (fun x hx => ?_)
    (fun x hx f _ => ?_) ?_
  · rw [mem_singleton.1 hx]
    refine ⟨h.eights b (by simp), h.room b (by simp), ?_, ?_, ?_⟩
    · rw [hget _ _ hb (by decide), h.size b (by simp)]
    · rw [hget _ _ hb (by decide), h.magic b (by simp)]
    · rw [get_put_of_lt h.spread hb hb hv, if_pos ⟨rfl, rfl⟩]
  · rw [get_put_of_lt h.spread hb ⟨x, (h.elsewhere hx).1, rfl⟩ hv, if_neg (fun hc => h.ne_of_elsewhere hx hc.1)]
  · have haddr : (A ++ ([{ b with free }] ++ B)).map Blk.addr = (A ++ b :: B).map Blk.addr := by simp
    rw [haddr]
    refine h.linked.congr fun x hx => ?_
    have hx := mem_map_addr.1 hx
    unfold link
    exact ⟨by rw [hget x _ hx (by decide)], by rw [hget x _ hx (by decide)]⟩

structure Cutting (m : Buffer) (start : Nat) (A : List Blk) (b : Blk) (B : List Blk) (stop size n nx : Nat) : Prop where
  row : Row m start (A ++ b :: B) stop
  eight : 8 ∣ size
  node : NODE_SIZE ≤ size
  room : size + HEADER_SIZE + NODE_SIZE ≤ b.size
  rest : b.addr + HEADER_SIZE + size = n
  next : get m b.addr .next = nx

namespace Cutting

variable {nx : Nat} (h : Cutting m start A b B stop size n nx)

include h

theorem tiles : Tiles start (A ++ (cutRow b size ++ B)) stop := by
  have hroom := h.room
  exact tiles_cut h.row.tiles (by omega)

theorem rooms : ∀ x ∈ A ++ (cutRow b size ++ B), NODE_SIZE ≤ x.size := by
  intro x hx
  have hroom := h.room
  simp only [cutRow, mem_append, mem_cons, not_mem_nil, or_false] at hx
  rcases hx with hx | (rfl | rfl) | hx
  · exact h.row.room x (by simp [hx])
  · exact h.node
  · dsimp only
    omega
  · exact h.row.room x (by simp [hx])

theorem spread : Spread (At (A ++ (cutRow b size ++ B))) := spread_of_tiles h.tiles h.rooms

theorem pointers : Pointers (At (A ++ (cutRow b size ++ B))) := pointers_of_tiles h.tiles h.row.pos h.row.limit

theorem at_iff : At (A ++ (cutRow b size ++ B)) x ↔ At (A ++ b :: B) x ∨ x = n := by rw [at_cut, h.rest]

omit h in
theorem block_at : At (A ++ b :: B) b.addr := ⟨b, by simp, rfl⟩

theorem behind : (nx ≠ 0 → At (A ++ b :: B) nx ∧ b.addr + HEADER_SIZE + b.size ≤ nx) ∧ ptr nx = (B.map Blk.addr).head? := by
  obtain ⟨hB, -⟩ := h.row.behind (h.next.symm.trans h.row.next_eq)
  refine ⟨fun h0 => ⟨at_append.2 (.inr (at_cons.2 (.inr (hB h0).1))), (hB h0).2⟩, ?_⟩
  rw [← h.next]
  exact h.row.around.2

theorem fresh : ¬ At (A ++ b :: B) n := by
  rintro ⟨x, hx, hxn⟩
  have hroom := h.room
  have hrest := h.rest
  have hxs := h.row.room x hx
  have hcase := h.row.tiles.apart (x := b) (y := x) (by simp) hx
  unfold Libc.BLOCK_SIZE at hcase
  unfold HEADER_SIZE NODE_SIZE at *
  rcases hcase with rfl | hcase | hcase
  · omega
  · omega
  · omega

theorem ne : nx ≠ n ∧ nx ≠ b.addr ∧ n ≠ b.addr := by
  have hroom := h.room
  have hrest := h.rest
  have hbounds := h.row.tiles.bounds b (by simp)
  have hpos := h.row.pos
  have hnx := h.behind.1
  unfold HEADER_SIZE NODE_SIZE at *
  by_cases h0 : nx = 0
  · omega
  · have := (hnx h0).2
    omega

theorem get {f : Fld} (hx : At (A ++ (cutRow b size ++ B)) x) : get (cutBlock m b.addr size) x f =
      if x = b.addr then (match f with | .size => size | .next => n | f => Heap.get m b.addr f)
      else if x = n then
        (match f with
          | .size => b.size - size - HEADER_SIZE | .magic => HEAP_MAGIC | .isFree => 1 | .next => nx | .prev => b.addr
          | f => Heap.get m n f)
      else if x = nx ∧ f = .prev then n else Heap.get m x f := by
  have hsize := h.row.size b (by simp)
  have hbounds := h.row.tiles.bounds b (by simp)
  have hlimit := h.row.limit
  have hroom := h.room
  have := get_cutBlock (f := f) h.spread h.pointers (h.at_iff.2 (.inl block_at)) (h.at_iff.2 (.inr rfl)) h.rest h.next
    (fun h0 => h.at_iff.2 (.inl (h.behind.1 h0).1)) h.ne.1 h.ne.2.1 (by omega) (by omega) hx
  rw [this, hsize]

theorem linked : Dll.Linked (link (cutBlock m b.addr size) .next) (link (cutBlock m b.addr size) .prev)
    ((A ++ (cutRow b size ++ B)).map Blk.addr) := by
  have hl : Dll.Linked (link m .next) (link m .prev) ((A.map Blk.addr ++ [b.addr]) ++ B.map Blk.addr) := by
    simpa using h.row.linked
  have hnot : n ∉ (A.map Blk.addr ++ [b.addr]) ++ B.map Blk.addr := by
    intro hn
    refine h.fresh (mem_map_addr.1 ?_)
    simpa using hn
  have haddr : (A ++ (cutRow b size ++ B)).map Blk.addr = (A.map Blk.addr ++ [b.addr]) ++ n :: B.map Blk.addr := by
    simp [cutRow, h.rest]
  rw [haddr]
  refine (hl.attach hnot).congr fun x hx => ?_
  rw [← haddr, mem_map_addr] at hx
  have hlast : (A.map Blk.addr ++ [b.addr]).getLast? = some b.addr := by simp
  have hn0 : ptr n = some n := ptr_of_ne (h.pointers n (h.at_iff.2 (.inr rfl))).1
  have hb0 : ptr b.addr = some b.addr := ptr_of_ne (h.pointers _ (h.at_iff.2 (.inl block_at))).1
  have hiff : (B.map Blk.addr).head? = some x ↔ x = nx := by
    rw [← h.behind.2, ptr_eq_some]
    exact ⟨fun hc => hc.1.symm, fun hc => ⟨hc.symm, (h.pointers x hx).1⟩⟩
  have hnext := h.get (f := .next) hx
  have hprev := h.get (f := .prev) hx
  simp only [Dll.attach_apply, hlast, hiff]
  unfold link
  rw [hnext, hprev, ← h.behind.2]
  obtain ⟨hne1, hne2, hne3⟩ := h.ne
  by_cases hxb : x = b.addr
  · subst hxb
    simp [hn0, Ne.symm hne2, Ne.symm hne3]
  · by_cases hxn : x = n
    · subst hxn
      simp [hne3, Ne.symm hne3, hb0, Ne.symm hne1]
    · by_cases hxnx : x = nx
      · simp [hxnx, hn0, hne1, hne2, Ne.symm hne2]
      · simp [hxb, hxn, hxnx, Ne.symm hxb]

end Cutting

theorem Row.cut (h : Row m start (A ++ b :: B) stop) (h8 : 8 ∣ size) (h16 : NODE_SIZE ≤ size)
    (hroom : size + HEADER_SIZE + NODE_SIZE ≤ b.size) :
    Row (cutBlock m b.addr size) start (A ++ (cutRow b size ++ B)) stop ∧
    (∀ x f, At (A ++ b :: B) x → f = .nextFree ∨ f = .prevFree → get (cutBlock m b.addr size) x f = get m x f) ∧
    Writes m (cutBlock m b.addr size) (At (A ++ (cutRow b size ++ B))) (fun _ => False) := by
  have hc : Cutting m start A b B stop size _ _ := ⟨h, h8, h16, hroom, rfl, rfl⟩
  have hbAt : At (A ++ (cutRow b size ++ B)) b.addr := hc.at_iff.2 (.inl Cutting.block_at)
  have hnAt := hc.at_iff.2 (.inr rfl)
  have h' : Row m start (A ++ ([b] ++ B)) stop := h
  refine ⟨h'.exchange hc.tiles (fun x hx => ?_) (fun x hx f hf => ?_) hc.linked, fun x f hx hf => ?_, ?_⟩
  · have hb8 := h.eights b (by simp)
    simp only [cutRow, mem_cons, not_mem_nil, or_false] at hx
    rcases hx with rfl | rfl
    · refine ⟨hb8, h16, ?_, ?_, ?_⟩
      · rw [hc.get hbAt, if_pos rfl]
      · rw [hc.get hbAt, if_pos rfl]
        exact h.magic b (by simp)
      · rw [hc.get hbAt, if_pos rfl]
        exact h.isFree b (by simp)
    · have hrest := hc.rooms ⟨b.addr + HEADER_SIZE + size, b.size - size - HEADER_SIZE, true⟩ (by simp [cutRow])
      refine ⟨?_, hrest, ?_, ?_, ?_⟩
      · unfold HEADER_SIZE
        dsimp only
        omega
      · rw [hc.get hnAt, if_neg hc.ne.2.2, if_pos rfl]
      · rw [hc.get hnAt, if_neg hc.ne.2.2, if_pos rfl]
      · rw [hc.get hnAt, if_neg hc.ne.2.2, if_pos rfl]
        rfl
  · obtain ⟨hxL, -⟩ := h.elsewhere hx
    have hxb := h.ne_of_elsewhere hx
    have hxn : x.addr ≠ b.addr + HEADER_SIZE + size := fun he => hc.fresh ⟨x, hxL, he⟩
    rw [hc.get (hc.at_iff.2 (.inl ⟨x, hxL, rfl⟩)), if_neg hxb, if_neg hxn, if_neg]
    rintro ⟨-, rfl⟩
    simp at hf
  · rw [hc.get (hc.at_iff.2 (.inl hx))]
    split
    · rename_i hxb
      rcases hf with rfl | rfl
      · rw [hxb]
      · rw [hxb]
    · have hxn : x ≠ b.addr + HEADER_SIZE + size := fun hxn => hc.fresh (hxn ▸ hx)
      rw [if_neg hxn, if_neg]
      rintro ⟨-, rfl⟩
      simp at hf
  · have hsize := h.size b (by simp)
    have hbounds := h.tiles.bounds b (by simp)
    have hlimit := h.limit
    exact writes_cutBlock hc.spread hc.pointers hbAt hnAt rfl rfl (fun h0 => hc.at_iff.2 (.inl (hc.behind.1 h0).1))
      (by omega) hbAt hnAt fun h0 => hc.at_iff.2 (.inl (hc.behind.1 h0).1)

structure Absorbing (m : Buffer) (start : Nat) (A : List Blk) (b c : Blk) (B : List Blk) (stop nx : Nat) : Prop where
  row : Row m start (A ++ b :: c :: B) stop
  next : get m c.addr .next = nx

namespace Absorbing

variable {nx : Nat} (h : Absorbing m start A b c B stop nx)

omit h in
theorem block_at : At (A ++ b :: c :: B) b.addr := ⟨b, by simp, rfl⟩

omit h in
theorem behind_at : At (A ++ b :: c :: B) c.addr := ⟨c, by simp, rfl⟩

include h

theorem behind_row : Row m start ((A ++ [b]) ++ c :: B) stop := by simpa using h.row

theorem ptr_next : ptr nx = (B.map Blk.addr).head? := by
  rw [← h.next]
  exact h.behind_row.around.2

theorem next_at : nx ≠ 0 → At B nx ∧ c.addr + HEADER_SIZE + c.size ≤ nx :=
  (h.behind_row.behind (h.next.symm.trans h.behind_row.next_eq)).1

theorem next_at' (h0 : nx ≠ 0) : At (A ++ b :: c :: B) nx :=
  at_append.2 (.inr (at_cons.2 (.inr (at_cons.2 (.inr (h.next_at h0).1)))))

theorem next_ne : nx ≠ b.addr := by
  have hpos := h.row.pointers _ block_at
  have hbc := h.row.tiles.around.2.1 c mem_cons_self
  have hnx := h.next_at
  have hroom := h.row.room c (by simp)
  unfold Libc.BLOCK_SIZE at hbc
  by_cases h0 : nx = 0
  · omega
  · have := (hnx h0).2
    omega

theorem get {f : Fld} (hx : At (A ++ b :: c :: B) x) : get (absorb m b.addr c.addr) x f = if x = b.addr then
        (match f with | .size => b.size + (HEADER_SIZE + c.size) | .next => nx | f => Heap.get m b.addr f)
      else if x = nx ∧ f = .prev then b.addr else Heap.get m x f := by
  have hsb := h.row.size b (by simp)
  have hsc := h.row.size c (by simp)
  have hbounds := h.row.tiles.bounds b (by simp)
  have hbounds' := h.row.tiles.bounds c (by simp)
  have hlimit := h.row.limit
  have hlt : Heap.get m b.addr .size + (HEADER_SIZE + Heap.get m c.addr .size) < 256 ^ 8 := by
    unfold HEADER_SIZE
    omega
  have := get_absorb (f := f) h.row.spread h.row.pointers block_at behind_at h.next h.next_at' h.next_ne hlt hx
  rw [this, hsb, hsc]

theorem writes : Writes m (absorb m b.addr c.addr) (At (A ++ b :: B)) (fun _ => False) := by
  have hsb := h.row.size b (by simp)
  have hsc := h.row.size c (by simp)
  have hbounds := h.row.tiles.bounds b (by simp)
  have hbounds' := h.row.tiles.bounds c (by simp)
  have hlimit := h.row.limit
  have hlt : Heap.get m b.addr .size + (HEADER_SIZE + Heap.get m c.addr .size) < 256 ^ 8 := by
    unfold HEADER_SIZE
    omega
  refine writes_absorb h.row.spread h.row.pointers block_at behind_at h.next h.next_at' hlt ⟨b, by simp, rfl⟩ fun h0 => ?_
  exact at_append.2 (.inr (at_cons.2 (.inr (h.next_at h0).1)))

theorem linked : Dll.Linked (link (absorb m b.addr c.addr) .next) (link (absorb m b.addr c.addr) .prev)
    ((A ++ b :: B).map Blk.addr) := by
  have hl : Dll.Linked (link m .next) (link m .prev) ((A.map Blk.addr ++ [b.addr]) ++ c.addr :: B.map Blk.addr) := by
    simpa using h.row.linked
  have haddr : (A ++ b :: B).map Blk.addr = (A.map Blk.addr ++ [b.addr]) ++ B.map Blk.addr := by simp
  rw [haddr]
  refine hl.detach.congr fun x hx => ?_
  have hxc : x ≠ c.addr := fun he => by
    have := Dll.not_mem_around hl.1
    rw [he] at hx
    exact (mem_append.1 hx).elim this.1 this.2
  have hxAt : At (A ++ b :: c :: B) x := by
    rw [← haddr, mem_map_addr, at_append, at_cons] at hx
    rw [at_append, at_cons, at_cons]
    tauto
  have hiff : (B.map Blk.addr).head? = some x ↔ x = nx := by
    rw [← h.ptr_next, ptr_eq_some]
    exact ⟨fun hc => hc.1.symm, fun hc => ⟨hc.symm, (h.row.pointers x hxAt).1⟩⟩
  have hlast : (A.map Blk.addr ++ [b.addr]).getLast? = some b.addr := by simp
  have hb0 : ptr b.addr = some b.addr := ptr_of_ne (h.row.pointers _ block_at).1
  have hnext := h.get (f := .next) hxAt
  have hprev := h.get (f := .prev) hxAt
  have hne := h.next_ne
  simp only [Dll.detach_apply, hlast, hiff]
  unfold link
  rw [hnext, hprev, ← h.ptr_next]
  by_cases hxb : x = b.addr
  · subst hxb
    simp [hxc, Ne.symm hne]
  · by_cases hxnx : x = nx
    · subst hxnx
      simp [hxb, hxc, Ne.symm hxb, hb0]
    · simp [hxb, hxc, hxnx, Ne.symm hxb]

end Absorbing

theorem Row.absorb (h : Row m start (A ++ b :: c :: B) stop) :
    Row (absorb m b.addr c.addr) start (A ++ { b with size := b.size + (HEADER_SIZE + c.size) } :: B) stop ∧
    (∀ x f, At (A ++ b :: c :: B) x → f = .nextFree ∨ f = .prevFree → get (Heap.absorb m b.addr c.addr) x f = get m x f) ∧
    Writes m (Heap.absorb m b.addr c.addr) (At (A ++ b :: B)) (fun _ => False) := by
  have ha : Absorbing m start A b c B stop _ := ⟨h, rfl⟩
  have h' : Row m start (A ++ ([b, c] ++ B)) stop := h
  have hbAt : At (A ++ b :: c :: B) b.addr := Absorbing.block_at
  have hold : ∀ x ∈ A ++ B, At (A ++ b :: c :: B) x.addr ∧ x.addr ≠ b.addr := fun x hx => by
    have hx' : x ∈ A ++ c :: B := by
      simp only [mem_append, mem_cons] at hx ⊢
      tauto
    exact ⟨⟨x, (h.elsewhere hx').1, rfl⟩, h.ne_of_elsewhere hx'⟩
  have haddr : (A ++ ([{ b with size := b.size + (HEADER_SIZE + c.size) }] ++ B)).map Blk.addr =
      (A ++ b :: B).map Blk.addr := by
    simp
  refine ⟨h'.exchange (N := [{ b with size := b.size + (HEADER_SIZE + c.size) }]) ?_ (fun x hx => ?_)
    (fun x hx f hf => ?_) ?_, fun x f hx hf => ?_, ha.writes⟩
  · refine Libc.tiles_exchange (M := [b, c]) h.tiles ?_
    rintro lo hi ⟨rfl, hca, rfl⟩
    refine ⟨rfl, ?_⟩
    unfold Tiles Libc.BLOCK_SIZE HEADER_SIZE
    dsimp only
    unfold Libc.BLOCK_SIZE at hca
    omega
  · rw [mem_singleton.1 hx]
    refine ⟨h.eights b (by simp), ?_, ?_, ?_, ?_⟩
    · exact Nat.le_trans (h.room b (by simp)) (Nat.le_add_right _ _)
    · rw [ha.get hbAt, if_pos rfl]
    · rw [ha.get hbAt, if_pos rfl]
      exact h.magic b (by simp)
    · rw [ha.get hbAt, if_pos rfl]
      exact h.isFree b (by simp)
  · rw [ha.get (hold x hx).1, if_neg (hold x hx).2, if_neg]
    rintro ⟨-, rfl⟩
    simp at hf
  · rw [haddr]
    exact ha.linked
  · rw [ha.get hx]
    split
    · rename_i hxb
      rcases hf with rfl | rfl
      · rw [hxb]
      · rw [hxb]
    · rw [if_neg]
      rintro ⟨-, rfl⟩
      simp at hf

end EterOS.Heap
