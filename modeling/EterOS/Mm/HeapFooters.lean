import EterOS.Mm.HeapSound
/-!
# HeapFooters — which free blocks end in a footer

`mm_verify_heap` wants the magic number at the end of every block, and only `_kmalloc_impl` writes it.  A free block still
has the one that was there, unless its payload is so small that the links of the free list lie over it.
-/
namespace EterOS.Heap

open List
open Buffer (blit le digits)
open Libc (Blk Tiles)
open Function (update update_self update_of_ne)

variable {m m' : Buffer} {h h' h'' : KHeap} {start size need q r : Nat} {A B L L' P N : List Blk} {b c x y : Blk}

/-- The least payload with room for the links of the free list and a footer. -/
def FOOTED_SIZE : Nat := NODE_SIZE + 4

def Roomy (L : List Blk) : Prop := ∀ y ∈ L, y.free = true → FOOTED_SIZE ≤ y.size

/-- Every block ends in a footer, but for free blocks that are too small for one. -/
def Footed (m : Buffer) (L : List Blk) : Prop :=
  ∀ y ∈ L, (y.free = true → FOOTED_SIZE ≤ y.size) → lastWord m y = HEAP_FOOTER_MAGIC

/-- `kmalloc` would cut a block so that what is left of it is too small. -/
def Slivers (h : KHeap) (size : Nat) : Prop :=
  size ≠ 0 ∧ size ≤ h.memoryTotal ∧ ∃ a, findBlock h (align (size + 4)) = some a ∧ a ≠ 0 ∧
    align (size + 4) + HEADER_SIZE + NODE_SIZE ≤ get h.mem a .size ∧
    get h.mem a .size < align (size + 4) + HEADER_SIZE + FOOTED_SIZE

/-- `kfree` would put a block that is too small on a free list, with no free block next to it. -/
def LeavesSmall (h : KHeap) (ptr : Nat) : Prop :=
  get h.mem (headerOf ptr) .size < FOOTED_SIZE ∧
    ¬ (get h.mem (headerOf ptr) .next ≠ 0 ∧ get h.mem (get h.mem (headerOf ptr) .next) .isFree ≠ 0) ∧
    ¬ (get h.mem (headerOf ptr) .prev ≠ 0 ∧ get h.mem (get h.mem (headerOf ptr) .prev) .isFree ≠ 0)

/-! ## The verifier -/

theorem le_byte (m : Buffer) (off n : Nat) : m.le off (n + 1) % 256 = (m off).toNat := by
  have := (m off).toNat_lt
  rw [le]
  omega

theorem HeapOk.small_footer (hok : HeapOk h L) (hy : Free L y) (hlt : y.size < FOOTED_SIZE) :
    lastWord h.mem y ≠ HEAP_FOOTER_MAGIC := by
  have hroom := hok.row.room y hy.1
  have hlimit := hok.row.limit
  obtain ⟨F, hF⟩ := hok.mid.binned
  have hin : y.addr ∈ F (getBucketIndex y.size) := (hF.mem _ _).2 ⟨y, hy, rfl, rfl⟩
  obtain ⟨l1, l2, hl⟩ := append_of_mem hin
  have hlinked := (hF.list (getBucketIndex y.size)).linked
  rw [hl] at hlinked
  have hprev : get h.mem y.addr .prevFree < 2 ^ 34 := by
    rw [get_eq_addr_link, hlinked.at_mid.1]
    rcases eq_nil_or_concat l1 with rfl | ⟨l, z, rfl⟩
    · exact Nat.two_pow_pos 34
    · rw [concat_eq_append, List.getLast?_append, List.getLast?_singleton, Option.some_or, addr_some]
      obtain ⟨d, hd, rfl, -⟩ := (hF.mem (getBucketIndex y.size) z).1 (by rw [hl]; simp)
      have := hok.row.tiles.bounds d hd.1
      unfold Libc.BLOCK_SIZE at this
      omega
  intro hfoot
  have hlow : (h.mem (footerAddr y.addr y.size)).toNat = 0x54 := by
    rw [← le_byte h.mem _ 3]
    unfold lastWord at hfoot
    rw [hfoot]
    rfl
  -- the word begins within the high half of the link
  obtain ⟨k, hk, hk4⟩ : ∃ k, footerAddr y.addr y.size = y.addr + Fld.prevFree.offset + 4 + k ∧ k < 4 := by
    unfold footerAddr HEADER_SIZE Fld.offset
    unfold FOOTED_SIZE NODE_SIZE at *
    dsimp only
    exact ⟨y.size - 16, by omega, by omega⟩
  have hbyte : (h.mem (y.addr + Fld.prevFree.offset + 4 + k)).toNat * 2 ^ 32 ≤ get h.mem y.addr .prevFree := by
    have hw : Fld.prevFree.width = 8 := rfl
    unfold get
    rw [hw]
    simp only [le]
    generalize y.addr + Fld.prevFree.offset = o
    rcases (by omega : k = 0 ∨ k = 1 ∨ k = 2 ∨ k = 3) with rfl | rfl | rfl | rfl
    · simp only [Nat.add_assoc, Nat.reduceAdd]
      omega
    · simp only [Nat.add_assoc, Nat.reduceAdd]
      omega
    · simp only [Nat.add_assoc, Nat.reduceAdd]
      omega
    · simp only [Nat.add_assoc, Nat.reduceAdd]
      omega
  rw [← hk, hlow] at hbyte
  omega

/-- **The verifier** passes over footed blocks just where none is too small. -/
theorem HeapOk.verify_iff (hok : HeapOk h L) (hf : Footed h.mem L) : mmVerifyHeap h = some h.blocks ↔ Roomy L := by
  constructor
  · intro hpass y hy hfree
    by_contra hlt
    have hnone := hok.verify.2 fun hall => hok.small_footer ⟨hy, hfree⟩ (Nat.lt_of_not_le hlt) (hall y hy)
    rw [hnone] at hpass
    cases hpass
  · intro hroomy
    exact hok.verify.1 fun y hy => hf y hy (hroomy y hy)

/-! ## A block is taken -/

theorem lastWord_keeps {D : Blk → Prop} (hk : Keeps m m' L D) (hy : y ∈ L) (hroom : NODE_SIZE ≤ y.size)
    (hD : D y → FOOTED_SIZE ≤ y.size) :
    lastWord m' y = lastWord m y := by
  apply Buffer.le_congr
  intro i hlo hhi
  unfold footerAddr at hlo hhi
  unfold FOOTED_SIZE at hD
  unfold NODE_SIZE at hroom
  exact hk y hy i (by omega) (by omega) fun hd => by
    have := hD hd
    omega

theorem Takes.footed (ht : Takes h h' A b B need)
    (hf : Footed h.mem (A ++ b :: B)) : Footed h'.mem (A ++ taken b need :: (leftover b need ++ B)) := by
  intro y hy hroom
  have hrow := ht.ok.row
  by_cases hyt : y = taken b need
  · rw [hyt]
    exact ht.footer
  have hyin : y ∈ A ++ (leftover b need ++ B) := by
    simp only [mem_append, mem_cons] at hy ⊢
    tauto
  have hkept := lastWord_keeps ht.keeps hyin (hrow.room y hy) hroom
  rw [hkept]
  by_cases hyl : y ∈ leftover b need
  · -- what is left ends where the block ended
    unfold leftover at hyl
    split at hyl
    next hle =>
      obtain rfl := mem_singleton.1 hyl
      have hsize : FOOTED_SIZE ≤ b.size - need - HEADER_SIZE := hroom rfl
      have hend : lastWord h.mem (restOf b need) = lastWord h.mem b := by
        unfold lastWord footerAddr restOf
        dsimp only
        congr 1
        unfold NODE_SIZE HEADER_SIZE at *
        omega
      rw [hend]
      exact hf b (by simp) fun _ => by omega
    next => cases hyl
  · refine hf y ?_ hroom
    simp only [mem_append, mem_cons] at hyin ⊢
    tauto

theorem roomy_taken (hr : Roomy (A ++ b :: B)) : Roomy (A ++ taken b need :: (leftover b need ++ B)) ↔
      ¬ (need + HEADER_SIZE + NODE_SIZE ≤ b.size ∧ b.size < need + HEADER_SIZE + FOOTED_SIZE) := by
  constructor
  · rintro hr' ⟨hle, hlt⟩
    have hrest := hr' (restOf b need) (by simp [leftover, hle]) rfl
    unfold restOf at hrest
    dsimp only at hrest
    omega
  · intro hnot y hy hfree
    simp only [mem_append, mem_cons] at hy
    rcases hy with hy | rfl | hy | hy
    · exact hr y (by simp [hy]) hfree
    · cases hfree
    · unfold leftover at hy
      split at hy
      next hle =>
        obtain rfl := mem_singleton.1 hy
        unfold restOf
        dsimp only
        omega
      next => cases hy
    · exact hr y (by simp [hy]) hfree

/-! ## A block is given back -/

theorem HeapOk.leavesSmall_iff (hok : HeapOk h (A ++ x :: B)) : LeavesSmall h (x.addr + HEADER_SIZE) ↔
    x.size < FOOTED_SIZE ∧ (∀ y ∈ B.head?, y.free = false) ∧ ∀ y ∈ A.getLast?, y.free = false := by
  have hrow := hok.row
  have hx : x ∈ A ++ x :: B := by simp
  have hbounds := hrow.tiles.bounds x hx
  have hlimit := hrow.limit
  have hside : ∀ {p : Option Blk}, (∀ y ∈ p, y ∈ A ++ x :: B) →
      (¬ (addr (p.map Blk.addr) ≠ 0 ∧ get h.mem (addr (p.map Blk.addr)) .isFree ≠ 0) ↔ ∀ y ∈ p, y.free = false) := by
    intro p hp
    cases p with
    | none => simp
    | some y =>
      have hy := hp y rfl
      have h0 := (hrow.pointers _ ⟨y, hy, rfl⟩).1
      rw [Option.map_some, addr_some, hrow.isFree y hy]
      cases hyf : y.free with
      | true => simp [h0, hyf]
      | false => simp [hyf]
  unfold LeavesSmall
  rw [headerOf_eq (by omega), hrow.size x hx, hrow.next_eq, hrow.prev_eq, List.head?_map, List.getLast?_map, hside, hside]
  · intro y hy
    simp [mem_of_getLast? hy]
  · intro y hy
    simp [mem_of_head? hy]

theorem merged_end (ht : Tiles start (A ++ P ++ x :: (N ++ B)) q) (hP : P = [] ∨ ∃ p, P = [p] ∧ p.free = true)
    (hN : N = [] ∨ ∃ n, N = [n] ∧ n.free = true) :
    (merged P x N).addr + (merged P x N).size = (N.getLast?.getD x).addr + (N.getLast?.getD x).size ∧
      (merged P x N).size = (P.map fun p => p.size + HEADER_SIZE).sum + x.size +
      (N.map fun n => HEADER_SIZE + n.size).sum := by
  have hnext : ∀ n, N = [n] → n.addr = x.addr + HEADER_SIZE + x.size := by
    rintro n rfl
    obtain ⟨mid, -, hx, hn, -⟩ := Libc.tiles_append.1 ht
    rw [hn, hx]
    rfl
  have hprev : ∀ p, P = [p] → x.addr = p.addr + HEADER_SIZE + p.size := by
    rintro p rfl
    rw [append_assoc, singleton_append] at ht
    obtain ⟨mid, -, hp, hx, -⟩ := Libc.tiles_append.1 ht
    rw [hx, hp]
    rfl
  unfold merged
  rcases hP with rfl | ⟨p, rfl, -⟩
  · rcases hN with rfl | ⟨n, rfl, -⟩
    · simp
    · have hn := hnext n rfl
      simp only [foldr_nil, foldl_cons, foldl_nil, joined, List.getLast?_singleton, Option.getD_some, map_nil,
        sum_nil, map_cons, sum_cons]
      omega
  · have hp := hprev p rfl
    rcases hN with rfl | ⟨n, rfl, -⟩
    · simp only [foldr_cons, foldr_nil, foldl_nil, joined, List.getLast?_nil, Option.getD_none, map_nil, sum_nil,
        map_cons, sum_cons]
      omega
    · have hn := hnext n rfl
      simp only [foldr_cons, foldr_nil, foldl_cons, foldl_nil, joined, List.getLast?_singleton, Option.getD_some,
        map_nil, sum_nil, map_cons, sum_cons]
      omega

theorem Frees.footed (hrow : Row m start (A ++ P ++ x :: (N ++ B)) q) (hf : Frees h h' A P x N B)
    (hP : P = [] ∨ ∃ p, P = [p] ∧ p.free = true) (hN : N = [] ∨ ∃ n, N = [n] ∧ n.free = true) (hx : x.free = false)
    (hroomy : ∀ n ∈ N, FOOTED_SIZE ≤ n.size) (hfoot : Footed h.mem (A ++ P ++ x :: (N ++ B))) :
    Footed h'.mem (A ++ merged P x N :: B) := by
  intro y hy hroom
  have hrow' := hf.ok.row
  by_cases hyM : y = merged P x N
  · subst hyM
    obtain ⟨hend, hsize⟩ := merged_end hrow.tiles hP hN
    have hMsize := hroom hf.free
    obtain ⟨z, hz⟩ : ∃ z, N.getLast?.getD x = z := ⟨_, rfl⟩
    rw [hz] at hend
    have hzin : z ∈ A ++ P ++ x :: (N ++ B) ∧ (z.free = true → FOOTED_SIZE ≤ z.size) ∧ NODE_SIZE ≤ z.size ∧
        (N ≠ [] → FOOTED_SIZE ≤ z.size) ∧ (P = [] → x.addr + FOOTED_SIZE ≤ z.addr + z.size) := by
      have hxroom := hrow.room x (by simp)
      rcases hN with rfl | ⟨n, rfl, hn⟩
      · obtain rfl : x = z := hz
        refine ⟨by simp, fun hc => Bool.noConfusion (hx.symm.trans hc), hxroom, fun hc => absurd rfl hc, fun hp => ?_⟩
        subst hp
        simp only [map_nil, sum_nil] at hsize
        omega
      · obtain rfl : n = z := hz
        have hn20 := hroomy n (by simp)
        obtain ⟨mid, -, hxa, hna, -⟩ := Libc.tiles_append.1 hrow.tiles
        refine ⟨by simp, fun _ => hn20, ?_, fun _ => hn20, fun _ => by omega⟩
        exact hrow.room n (by simp)
    obtain ⟨hzin, hzroom, hznode, hzN, hzP⟩ := hzin
    have hlast : lastWord h'.mem (merged P x N) = lastWord h.mem z := by
      unfold lastWord footerAddr
      have he : (merged P x N).addr + HEADER_SIZE + (merged P x N).size - 4 = z.addr + HEADER_SIZE + z.size - 4 := by omega
      rw [he]
      apply Buffer.le_congr
      intro i hlo hhi
      unfold NODE_SIZE FOOTED_SIZE at *
      refine hf.tail z hz i (by omega) (by omega) (fun hne => ?_) fun hp => ?_
      · have := hzN hne
        unfold NODE_SIZE at this
        unfold NODE_SIZE
        omega
      · have := hzP hp
        unfold NODE_SIZE at this
        unfold NODE_SIZE
        omega
    rw [hlast]
    exact hfoot z hzin hzroom
  · have hyAB : y ∈ A ++ B := by
      simp only [mem_append, mem_cons] at hy ⊢
      tauto
    rw [lastWord_keeps hf.keeps hyAB (hrow'.room y hy) hroom]
    refine hfoot y ?_ hroom
    simp only [mem_append, mem_cons] at hyAB ⊢
    tauto

theorem Frees.roomy_iff (hok : HeapOk h (A ++ P ++ x :: (N ++ B))) (hf : Frees h h' A P x N B)
    (hP : P = [] ∨ ∃ p, P = [p] ∧ p.free = true) (hN : N = [] ∨ ∃ n, N = [n] ∧ n.free = true) :
    Roomy (A ++ merged P x N :: B) ↔ Roomy (A ++ B) ∧ ¬ LeavesSmall h (x.addr + HEADER_SIZE) := by
  rw [hok.leavesSmall_iff]
  obtain ⟨-, hsize⟩ := merged_end hok.row.tiles hP hN
  have hxroom := hok.row.room x (by simp)
  have hsides := notBoth_around hf.ok.apart hf.free
  have hMin : merged P x N ∈ A ++ merged P x N :: B := by simp
  have hall : Roomy (A ++ merged P x N :: B) ↔ Roomy (A ++ B) ∧ FOOTED_SIZE ≤ (merged P x N).size := by
    constructor
    · intro hr
      exact ⟨fun y hy => hr y (mem_around hy), hr _ hMin hf.free⟩
    · rintro ⟨hr, hM⟩ y hy hfree
      simp only [mem_append, mem_cons] at hy
      rcases hy with hy | rfl | hy
      · exact hr y (by simp [hy]) hfree
      · exact hM
      · exact hr y (by simp [hy]) hfree
  rw [hall]
  refine and_congr_right fun _ => ?_
  unfold FOOTED_SIZE NODE_SIZE HEADER_SIZE at *
  rcases hP with rfl | ⟨p, rfl, hpfree⟩
  · rcases hN with rfl | ⟨n, rfl, hnfree⟩
    · simp only [map_nil, sum_nil, nil_append, append_nil] at hsize ⊢
      constructor
      · rintro hle ⟨hlt, -⟩
        omega
      · intro hnot
        by_contra hlt
        exact hnot ⟨by omega, fun y hy => hsides.2 y hy, fun y hy => hsides.1 y hy⟩
    · simp only [map_cons, map_nil, sum_cons, sum_nil] at hsize
      refine iff_of_true (by omega) fun hc => ?_
      have := hc.2.1 n rfl
      rw [hnfree] at this
      cases this
  · simp only [map_cons, map_nil, sum_cons, sum_nil] at hsize
    refine iff_of_true (by omega) fun hc => ?_
    have := hc.2.2 p (by simp)
    rw [hpfree] at this
    cases this

/-! ## The calls -/

theorem HeapOk.not_slivers (hok : HeapOk h L) (hk : Heap.kmalloc h size = some (h', 0)) : ¬ Slivers h size := by
  rintro ⟨hsize, hle, a, hfind, ha, -⟩
  rcases hok.kmalloc hsize with ⟨-, hnone⟩ | ⟨-, A, b, B, rfl, -, -, hfind', he, -⟩
  · rw [(hnone hle).1] at hfind
    exact ha (Option.some.inj hfind).symm
  · rw [he] at hk
    have hptr : b.addr + HEADER_SIZE = 0 := (Prod.mk.inj (Option.some.inj hk)).2
    unfold HEADER_SIZE at hptr
    omega

theorem HeapOk.slivers_iff (hok : HeapOk h (A ++ b :: B)) (hk : Heap.kmalloc h size = some (h', b.addr + HEADER_SIZE)) :
    Slivers h size ↔ align (size + 4) + HEADER_SIZE + NODE_SIZE ≤ b.size ∧
    b.size < align (size + 4) + HEADER_SIZE + FOOTED_SIZE := by
  have hb : b ∈ A ++ b :: B := by simp
  have h0 := (hok.row.pointers _ ⟨b, hb, rfl⟩).1
  have hsize : size ≠ 0 := by
    rintro rfl
    unfold Heap.kmalloc HEADER_SIZE at hk
    rw [if_pos rfl] at hk
    have hptr : 0 = b.addr + 32 := (Prod.mk.inj (Option.some.inj hk)).2
    omega
  rcases hok.kmalloc hsize with ⟨he, -⟩ | ⟨hle, C, c, D, hL, -, -, hfind, he, -⟩
  · rw [he] at hk
    have hptr : 0 = b.addr + HEADER_SIZE := (Prod.mk.inj (Option.some.inj hk)).2
    unfold HEADER_SIZE at hptr
    omega
  · rw [he] at hk
    have hptr : c.addr + HEADER_SIZE = b.addr + HEADER_SIZE := (Prod.mk.inj (Option.some.inj hk)).2
    have hcb : c.addr = b.addr := by omega
    unfold Slivers
    rw [hfind, hcb]
    constructor
    · rintro ⟨-, -, a, ha, -, hcut⟩
      obtain rfl := Option.some.inj ha
      rw [hok.row.size b hb] at hcut
      exact hcut
    · intro hcut
      refine ⟨hsize, hle, b.addr, rfl, h0, ?_⟩
      rw [hok.row.size b hb]
      exact hcut

/-- A heap whose free blocks all end in a footer, but for those that are too small, after a call; and when none is. -/
def Leaves (h : KHeap) (P : Prop) : Prop := ∃ L, HeapOk h L ∧ Footed h.mem L ∧ (Roomy L ↔ P)

theorem HeapOk.takes_leaves (hok : HeapOk h (A ++ b :: B)) (hf : Footed h.mem (A ++ b :: B)) (hr : Roomy (A ++ b :: B))
    (hk : Heap.kmalloc h size = some (h'', b.addr + HEADER_SIZE)) (ht : Takes h h' A b B (align (size + 4))) :
    Leaves h' (¬ Slivers h size) :=
  ⟨_, ht.ok, ht.footed hf, (roomy_taken hr).trans (not_congr (hok.slivers_iff hk).symm)⟩

theorem HeapOk.kmalloc_leaves (hok : HeapOk h L) (hf : Footed h.mem L) (hr : Roomy L)
    (he : Heap.kmalloc h size = some (h', r)) :
    Leaves h' (¬ Slivers h size) := by
  by_cases hsize : size = 0
  · subst hsize
    unfold Heap.kmalloc at he
    rw [if_pos rfl] at he
    cases he
    exact ⟨L, hok, hf, iff_of_true hr fun hc => hc.1 rfl⟩
  rcases hok.kmalloc hsize with ⟨hk, -⟩ | ⟨-, A, b, B, rfl, -, -, -, hk, ht⟩
  · rw [hk] at he
    cases he
    exact ⟨L, hok, hf, iff_of_true hr (hok.not_slivers hk)⟩
  · obtain ⟨rfl, rfl⟩ := Prod.mk.inj (Option.some.inj (hk.symm.trans he))
    exact hok.takes_leaves hf hr hk ht

theorem HeapOk.kcalloc_kmalloc (hok : HeapOk h L) {num : Nat} (he : Heap.kcalloc h num size = some (h', r)) :
    ∃ h1, Heap.kmalloc h (num * size) = some (h1, r) := by
  have hlimit := hok.row.limit
  unfold Heap.kcalloc at he
  by_cases hover : num > 0 ∧ SIZE_MAX / num < size
  · rw [if_pos hover] at he
    cases he
    have hbig : SIZE_MAX < num * size := by
      rw [Nat.mul_comm]
      exact (Nat.div_lt_iff_lt_mul hover.1).1 hover.2
    unfold SIZE_MAX at hbig
    have hne : num * size ≠ 0 := by omega
    rcases hok.kmalloc hne with ⟨hk, -⟩ | ⟨hle, -⟩
    · exact ⟨_, hk⟩
    · omega
  · rw [if_neg hover] at he
    dsimp only at he
    rw [calloc_fits hover] at he
    rcases hk : Heap.kmalloc h (num * size) with _ | ⟨h1, r1⟩
    · rw [hk] at he
      cases he
    · rw [hk] at he
      dsimp only at he
      split at he
      · cases he
        exact ⟨_, rfl⟩
      · cases he
        exact ⟨_, rfl⟩

theorem HeapOk.kcalloc_leaves (hok : HeapOk h L) (hf : Footed h.mem L) (hr : Roomy L) {num : Nat}
    (he : Heap.kcalloc h num size = some (h', r)) : Leaves h' (¬ Slivers h (num * size)) := by
  obtain ⟨h1, hk⟩ := hok.kcalloc_kmalloc he
  rcases hok.kcalloc num size with hc | ⟨A, b, B, h2, rfl, -, -, -, -, hc, ht⟩
  · rw [hc] at he
    cases he
    exact ⟨L, hok, hf, iff_of_true hr (hok.not_slivers hk)⟩
  · rw [hc] at he
    cases he
    exact hok.takes_leaves hf hr hk ht

/-- What is left of a block that was cut is behind a block in use, never behind one that is given back after it. -/
theorem Takes.behind (ht : Takes h h' A b B need) (hx : x.addr ≠ b.addr) {C D : List Blk}
    (hL : A ++ taken b need :: (leftover b need ++ B) = C ++ x :: c :: D) : c ∉ leftover b need := by
  intro hc
  have hrow := ht.ok.row
  unfold leftover at hc hL hrow
  split at hc
  next hle =>
    obtain rfl := mem_singleton.1 hc
    rw [if_pos hle, singleton_append] at hL hrow
    have hprev : get h'.mem (restOf b need).addr .prev = b.addr := by
      have hsplit : Row h'.mem h'.heapStart ((A ++ [taken b need]) ++ restOf b need :: B)
          (h'.heapStart + h'.memoryTotal) := by
        simpa using hrow
      rw [hsplit.prev_eq]
      simp [taken]
    have hprev' : get h'.mem (restOf b need).addr .prev = x.addr := by
      rw [hL] at hrow
      have hsplit : Row h'.mem h'.heapStart ((C ++ [x]) ++ restOf b need :: D) (h'.heapStart + h'.memoryTotal) := by
        simpa using hrow
      rw [hsplit.prev_eq]
      simp
    exact hx (hprev'.symm.trans hprev)
  next => cases hc

theorem HeapOk.kfree_leaves (hok : HeapOk h L) (hf : Footed h.mem L) (hr : Roomy L) (hx : Used L x)
    (he : kfreeImpl h (x.addr + HEADER_SIZE) = some h') : Leaves h' (¬ LeavesSmall h (x.addr + HEADER_SIZE)) := by
  have hfoot := hf x hx.1 fun hc => (hx.not_free hc).elim
  obtain ⟨C, D, rfl⟩ := append_of_mem hx.1
  obtain ⟨A, P, N, B, h1, rfl, rfl, hP, hN, he', hfr⟩ := hok.kfree hx.2 hfoot
  rw [he'] at he
  cases he
  refine ⟨_, hfr.ok, hfr.footed hok.row hP hN hx.2 (fun n hn => ?_) hf, ?_⟩
  · rcases hN with rfl | ⟨c, rfl, hc⟩
    · cases hn
    · rw [mem_singleton.1 hn]
      exact hr c (by simp) hc
  · rw [hfr.roomy_iff hok hP hN]
    refine and_iff_right fun y hy => hr y ?_
    simp only [mem_append, mem_cons] at hy ⊢
    tauto

/-- Of the blocks that stay after a block was cut and another given back, none is too small unless what was left over is, and
has not been taken in. -/
theorem roomy_moved {A' B' : List Blk} (hrow : Row m start (A' ++ P ++ x :: (N ++ B')) q)
    (hCD : A ++ taken b need :: (leftover b need ++ B) = A' ++ P ++ x :: (N ++ B'))
    (hP : P = [] ∨ ∃ p, P = [p] ∧ p.free = true) (hN : N = [] ∨ ∃ n, N = [n] ∧ n.free = true) (hx : x.free = false)
    (hbefore : ∀ z, A'.getLast? = some z → z.free = false)
    (hsmall : ∀ y ∈ A' ++ P ++ x :: (N ++ B'), y.free = true → y.size < FOOTED_SIZE → y ∈ leftover b need)
    (hbehind : ∀ c D', N ++ B' = c :: D' → c ∉ leftover b need) :
    Roomy (A' ++ B') ↔ (need + HEADER_SIZE + NODE_SIZE ≤ b.size ∧ b.size < need + HEADER_SIZE + FOOTED_SIZE →
      addr ((A' ++ P).map Blk.addr).getLast? = b.addr + HEADER_SIZE + need) := by
  have hin : ∀ y, y ∈ A' ++ B' → y ∈ A' ++ P ++ x :: (N ++ B') := fun y hy => by
    simp only [mem_append, mem_cons] at hy ⊢
    tauto
  constructor
  · rintro hroomy ⟨hle, hlt⟩
    have hrest : restOf b need ∈ A' ++ P ++ x :: (N ++ B') := by
      rw [← hCD]
      simp [leftover, hle]
    have hsize : (restOf b need).size < FOOTED_SIZE := by
      unfold restOf
      dsimp only
      omega
    have hnot : restOf b need ∉ A' ++ B' := fun hc => absurd (hroomy _ hc rfl) (by omega)
    simp only [mem_append, mem_cons] at hrest hnot
    rcases hrest with (hA | hP') | hx' | hN' | hB
    · exact absurd (Or.inl hA) hnot
    · rcases hP with rfl | ⟨p, rfl, -⟩
      · cases hP'
      · rw [← mem_singleton.1 hP', map_append, map_singleton, List.getLast?_append, List.getLast?_singleton]
        rfl
    · rw [← hx'] at hx
      cases hx
    · rcases hN with rfl | ⟨n, rfl, -⟩
      · cases hN'
      · have hn := mem_singleton.1 hN'
        exact absurd (by simp [leftover, hle, ← hn]) (hbehind n B' rfl)
    · exact absurd (Or.inr hB) hnot
  · intro hprev y hy hfree
    by_contra hlt
    have hlt := Nat.lt_of_not_le hlt
    have hyl := hsmall y (hin y hy) hfree hlt
    unfold leftover at hyl
    split at hyl
    next hle =>
      obtain rfl := mem_singleton.1 hyl
      have hlast := hprev ⟨hle, by
        unfold restOf at hlt
        dsimp only at hlt
        omega⟩
      rcases hP with rfl | ⟨p, rfl, -⟩
      · -- it would be next to the block that was given back
        rcases eq_nil_or_concat A' with rfl | ⟨A1, z, rfl⟩
        · simp at hlast
          unfold HEADER_SIZE at hlast
          omega
        · rw [concat_eq_append] at *
          have hz : z = restOf b need := by
            refine hrow.distinct (by simp) (hin _ hy) ?_
            have haddr : z.addr = b.addr + HEADER_SIZE + need := by simpa using hlast
            exact haddr
          have hapart := hbefore z (by simp)
          rw [hz] at hapart
          cases hapart
      · have hp : p = restOf b need := by
          refine hrow.distinct (by simp) (hin _ hy) ?_
          have haddr : p.addr = b.addr + HEADER_SIZE + need := by simpa using hlast
          exact haddr
        have hsplit : Row m start (A' ++ p :: (x :: (N ++ B'))) q := by simpa using hrow
        refine hsplit.ne_of_elsewhere (x := restOf b need) ?_ (by rw [hp])
        simp only [mem_append, mem_cons] at hy ⊢
        tauto
    next => cases hyl

/-- A block that `krealloc` moves: it is given back after the new one was taken, so it may be what takes in the rest of
that. -/
theorem HeapOk.krealloc_leaves (hok : HeapOk h L) (hf : Footed h.mem L) (hr : Roomy L) (hx : Used L x) (hlt : x.size < size)
    (he : Heap.krealloc h (x.addr + HEADER_SIZE) size = some (h', r)) :
    Leaves h' (∀ h1 q, kmallocImpl h size = some (h1, q) → q ≠ 0 → ¬ LeavesSmall h1 (x.addr + HEADER_SIZE) ∧
      (Slivers h size → get h1.mem x.addr .prev = q + align (size + 4))) := by
  have hlimit := hok.row.limit
  have hsize : size ≠ 0 := Nat.ne_zero_of_lt hlt
  have himpl : kmallocImpl h size = Heap.kmalloc h size := by
    unfold Heap.kmalloc
    rw [if_neg hsize]
  rw [himpl]
  rcases hok.krealloc hx hsize with ⟨hle, -⟩ | ⟨-,
    ⟨hk, hnull⟩ | ⟨A, b, B, rfl, hfree, hfit, htotal, hk, h2, hmem, ht, hmove⟩⟩
  · omega
  · rw [hnull] at he
    cases he
    refine ⟨L, hok, hf, iff_of_true hr fun h1 q hq hq0 => absurd ?_ hq0⟩
    rw [hk] at hq
    exact (Prod.mk.inj (Option.some.inj hq)).2.symm
  obtain ⟨hge, -, h8, h16⟩ := align_spec (n := size + 4) (by omega)
  have hxb : x.addr ≠ b.addr := fun hc => by
    have := hok.row.distinct hx.1 (by simp) hc
    exact hx.not_free (this ▸ hfree)
  have hb0 : b.addr + HEADER_SIZE ≠ 0 := by
    unfold HEADER_SIZE
    omega
  have hok1 := (hok.take hfree h8 h16 hfit).ok
  have hok2 := ht.ok
  have hf2 := ht.footed hf
  have hslivers := hok.slivers_iff hk
  rw [hk]
  generalize takeBlock h b.addr (align (size + 4)) = h1 at hok1
  generalize align (size + 4) = need at *
  have hx2 : x ∈ A ++ taken b need :: (leftover b need ++ B) := by
    have := mem_of_used hx hfree
    simp only [mem_append, mem_cons] at this ⊢
    tauto
  obtain ⟨C, D, hCD⟩ := append_of_mem hx2
  have hbehind : ∀ c D', D = c :: D' → c ∉ leftover b need := fun c D' hD => ht.behind hxb (hCD.trans (by rw [hD]))
  -- the only block that may be too small
  have hsmall : ∀ y ∈ C ++ x :: D, y.free = true → y.size < FOOTED_SIZE → y ∈ leftover b need := by
    intro y hy hyf hlt
    rw [← hCD] at hy
    simp only [mem_append, mem_cons] at hy
    rcases hy with hy | rfl | hy | hy
    · exact absurd (hr y (by simp [hy]) hyf) (by omega)
    · cases hyf
    · exact hy
    · exact absurd (hr y (by simp [hy]) hyf) (by omega)
  rw [hCD] at hok1 hok2 hf2 hx2
  have hfoot := hf2 x hx2 fun hc => (hx.not_free hc).elim
  obtain ⟨A', P, N, B', h3, rfl, rfl, hP, hN, he', hfr⟩ := hok2.kfree hx.2 hfoot
  rw [hmove, he'] at he
  obtain ⟨rfl, rfl⟩ := Prod.mk.inj (Option.some.inj he)
  refine ⟨_, hfr.ok, hfr.footed hok2.row hP hN hx.2 (fun n hn => ?_) hf2, ?_⟩
  · rcases hN with rfl | ⟨c, rfl, hc⟩
    · cases hn
    · rw [mem_singleton.1 hn]
      by_contra hlt
      exact hbehind c B' rfl (hsmall c (by simp) hc (by omega))
  have hcond : (∀ g q, some (h1, b.addr + HEADER_SIZE) = some (g, q) → q ≠ 0 → ¬ LeavesSmall g (x.addr + HEADER_SIZE) ∧
      (Slivers h size → get g.mem x.addr .prev = q + need)) ↔
      (Slivers h size → get h1.mem x.addr .prev = b.addr + HEADER_SIZE + need) ∧
      ¬ LeavesSmall h2 (x.addr + HEADER_SIZE) := by
    rw [hok2.leavesSmall_iff, ← hok1.leavesSmall_iff]
    constructor
    · intro hall
      exact (hall _ _ rfl hb0).symm
    · rintro ⟨hprev, hleaves⟩ g q hg -
      obtain ⟨rfl, rfl⟩ := Prod.mk.inj (Option.some.inj hg)
      exact ⟨hleaves, hprev⟩
  rw [hcond, hfr.roomy_iff hok2 hP hN]
  refine and_congr_left fun _ => ?_
  rw [hslivers, hok1.row.prev_eq]
  exact roomy_moved hok2.row hCD hP hN hx.2 (notBoth_around hfr.ok.apart hfr.free).1 hsmall hbehind

/-! ## Runs -/

namespace Kernel

variable {s : Kernel} {call : HeapCall}

/-- The call puts no block on a free list that is too small for a footer: `kmalloc` leaves no such rest of a block it cuts,
`kfree` gives no such block back alone, and `krealloc`, where it moves a block, takes the rest into the block it gives
back. -/
def NoSliver (s : Kernel) : HeapCall → Prop
  | .kmalloc size => ¬ Slivers s.heap size.toNat
  | .kcalloc num size => ¬ Slivers s.heap (num.toNat * size.toNat)
  | .krealloc ptr size =>
    if ptr = 0 then ¬ Slivers s.heap size.toNat
    else if size = 0 then ¬ LeavesSmall s.heap ptr
    else get s.heap.mem (headerOf ptr) .size < size.toNat → ∀ h q, kmallocImpl s.heap size.toNat = some (h, q) → q ≠ 0 →
      ¬ LeavesSmall h ptr ∧ (Slivers s.heap size.toNat → get h.mem (headerOf ptr) .prev = q + align (size.toNat + 4))
  | .kfree ptr => ptr ≠ 0 → ¬ LeavesSmall s.heap ptr
  | .store .. => True

theorem noSliver_krealloc (s : Kernel) (ptr : Nat) (size : UInt64) : s.NoSliver (.krealloc ptr size) =
    if ptr = 0 then ¬ Slivers s.heap size.toNat
    else if size = 0 then ¬ LeavesSmall s.heap ptr
    else get s.heap.mem (headerOf ptr) .size < size.toNat → ∀ h q, kmallocImpl s.heap size.toNat = some (h, q) → q ≠ 0 →
      ¬ LeavesSmall h ptr ∧ (Slivers s.heap size.toNat → get h.mem (headerOf ptr) .prev = q + align (size.toNat + 4)) := rfl

theorem step_exec (hh : s.halted = false) (he : s.exec call = some (h', r)) : (s.step call).heap = h' := by
  unfold step
  rw [hh, he]
  rfl

theorem leaves_same (hok : HeapOk h L) (hf : Footed h.mem L) (hr : Roomy L) {P : Prop} (hP : P) : Leaves h P :=
  ⟨L, hok, hf, iff_of_true hr hP⟩

/-- **One call** where every block ends in a footer: all that are large enough still do. -/
theorem Ok.step_leaves (hs : s.Ok L) (hh : s.halted = false) (hf : Footed s.heap.mem L) (hr : Roomy L)
    (hcorrect : s.Correct call) :
    Leaves (s.step call).heap (s.NoSliver call) := by
  have hi : s.Intact L := fun x hx => hf x hx.1 fun hc => (hx.not_free hc).elim
  by_cases hc : ∃ i v, call = .store i v
  · obtain ⟨i, v, rfl⟩ := hc
    obtain ⟨hok, hheap⟩ := hs.store hh hcorrect.1
    refine leaves_same hok.heap (fun y hy hroom => ?_) hr trivial
    rw [hheap, ← hf y hy hroom]
    exact hs.store_lastWord hcorrect hy
  obtain ⟨h', r, he⟩ : ∃ h' r, s.exec call = some (h', r) := by
    rcases hs.exec hcorrect.1 (fun i v he => hc ⟨i, v, he⟩) with ⟨-, hnot⟩ | ⟨h', r, L', G, he, -⟩
    · exact absurd hi hnot
    · exact ⟨h', r, he⟩
  rw [step_exec hh he]
  cases call with
  | kmalloc size => exact hs.heap.kmalloc_leaves hf hr he
  | kcalloc num size => exact hs.heap.kcalloc_leaves hf hr he
  | kfree ptr =>
    rw [exec_kfree] at he
    obtain ⟨g, hg, hgr⟩ := Option.map_eq_some_iff.1 he
    cases hgr
    by_cases h0 : ptr = 0
    · subst h0
      cases hg
      exact leaves_same hs.heap hf hr fun hc => absurd rfl hc
    · obtain ⟨x, hx, rfl⟩ := hs.block hcorrect.1 h0
      unfold Heap.kfree at hg
      rw [if_neg h0] at hg
      obtain ⟨L', hok', hf', hiff⟩ := hs.heap.kfree_leaves hf hr hx hg
      exact ⟨L', hok', hf', ⟨fun hr _ => hiff.1 hr, fun hc => hiff.2 (hc h0)⟩⟩
  | krealloc ptr size =>
    rw [exec_krealloc] at he
    rw [noSliver_krealloc]
    by_cases h0 : ptr = 0
    · subst h0
      unfold Heap.krealloc at he
      rw [if_pos rfl] at he ⊢
      exact hs.heap.kmalloc_leaves hf hr he
    · obtain ⟨x, hx, rfl⟩ := hs.block hcorrect.1 h0
      have hbounds := hs.heap.row.tiles.bounds x hx.1
      have hlimit := hs.heap.row.limit
      have hhead := headerOf_eq (a := x.addr) (by omega)
      rw [if_neg h0]
      by_cases hzero : size = 0
      · subst hzero
        rw [if_pos rfl]
        have hz : UInt64.toNat 0 = 0 := rfl
        unfold Heap.krealloc at he
        rw [if_neg h0, hz, if_pos rfl] at he
        rcases hg : kfreeImpl s.heap (x.addr + HEADER_SIZE) with _ | g
        · rw [hg] at he
          cases he
        · rw [hg] at he
          cases he
          exact hs.heap.kfree_leaves hf hr hx hg
      · have hsize : size.toNat ≠ 0 := fun he => hzero (UInt64.toNat_inj.1 he)
        rw [if_neg hzero, hhead, hs.heap.row.size x hx.1]
        by_cases hlt : x.size < size.toNat
        · obtain ⟨L', hok', hf', hiff⟩ := hs.heap.krealloc_leaves hf hr hx hlt he
          exact ⟨L', hok', hf', ⟨fun hr _ => hiff.1 hr, fun hc => hiff.2 (hc hlt)⟩⟩
        · rcases hs.heap.krealloc hx hsize with ⟨-, hsame⟩ | ⟨hlt', -⟩
          · rw [hsame] at he
            cases he
            exact leaves_same hs.heap hf hr fun hc => absurd hc hlt
          · exact absurd hlt' hlt
  | store i v => exact absurd ⟨i, v, rfl⟩ hc

/-- **False alarms** of `mm_verify_heap`: over correct calls it passes in every state just where the first block happens to
end in a footer and no call leaves a free block that is too small for one. -/
theorem mmVerifyHeap_iff (b : Boot) (calls : List HeapCall) (hcorrect : Run.Guarded step Correct b.kernel calls) :
    (∀ s ∈ Run.states step b.kernel calls, mmVerifyHeap s.heap = some s.heap.blocks) ↔
      lastWord b.mem b.whole = HEAP_FOOTER_MAGIC ∧ Run.Guarded step NoSliver b.kernel calls := by
  have hkernel := kernel_ok b
  obtain ⟨hheap, hstart, htotal, hmem⟩ := b.heap_ok
  have hroom := b.place_spec.room
  have hlast : lastWord b.heap.mem b.whole = lastWord b.mem b.whole := by
    apply Buffer.le_congr
    intro i hlo hhi
    unfold footerAddr Boot.whole at hlo hhi
    dsimp only at hlo hhi
    unfold HEADER_SIZE at *
    refine hmem i ?_ (by omega)
    unfold NODE_SIZE
    omega
  have hroomy : Roomy [b.whole] := by
    intro y hy _
    rw [mem_singleton.1 hy]
    unfold Boot.whole FOOTED_SIZE NODE_SIZE HEADER_SIZE
    dsimp only
    omega
  by_cases hfoot : lastWord b.mem b.whole = HEAP_FOOTER_MAGIC
  · rw [and_iff_right hfoot]
    have hf : Footed b.heap.mem [b.whole] := fun y hy _ => by
      rw [mem_singleton.1 hy, hlast]
      exact hfoot
    refine Run.states_forall_iff_of_guarded (D := Correct)
      (Q := fun s => ∃ L, s.Ok L ∧ s.Intact L ∧ s.halted = false ∧ Footed s.heap.mem L)
        (fun s c hQ hP hC => ?_) calls b.kernel
      ⟨_, hkernel.1, hkernel.2, rfl, hf⟩ ((hheap.verify_iff hf).2 hroomy) hcorrect
    obtain ⟨L, hs, hi, hh, hf⟩ := hQ
    have hr := (hs.heap.verify_iff hf).1 hP
    obtain ⟨L', hs', hi', hh'⟩ := hs.step_correct hi hh hC
    obtain ⟨L1, hok1, hf1, hiff⟩ := hs.step_leaves hh hf hr hC
    obtain rfl := hs'.heap.unique hok1
    exact ⟨⟨L', hs', hi', hh', hf1⟩, (hok1.verify_iff hf1).trans hiff⟩
  · refine iff_of_false (fun hall => ?_) fun hc => hfoot hc.1
    have hpass := hall b.kernel (Run.head_mem_states b.kernel calls)
    have hnone := hheap.verify.2 fun hc => hfoot (hlast ▸ hc b.whole (by simp))
    exact absurd (hpass.symm.trans hnone) fun hc => (by cases hc)

def noMapFooted : Boot := { noMap with mem := blit (fun _ => 0) 12582908 (digits HEAP_FOOTER_MAGIC) 4 }

theorem mmVerifyHeap_footed : lastWord noMapFooted.mem noMapFooted.whole = HEAP_FOOTER_MAGIC ∧
    ∀ s ∈ Run.states step noMapFooted.kernel [.kmalloc 100], mmVerifyHeap s.heap = some s.heap.blocks := by
  have hfoot : lastWord noMapFooted.mem noMapFooted.whole = HEAP_FOOTER_MAGIC := by decide +kernel
  refine ⟨hfoot, (mmVerifyHeap_iff noMapFooted [.kmalloc 100] ⟨⟨trivial, fun i v hc => HeapCall.noConfusion hc⟩, trivial⟩).2
    ⟨hfoot, ?_, trivial⟩⟩
  rintro ⟨-, -, a, hfind, -, -, hlt⟩
  have hwhole : findBlock noMapFooted.kernel.heap (align ((100 : UInt64).toNat + 4)) = some 4194304 := by decide +kernel
  have hsize : align ((100 : UInt64).toNat + 4) + HEADER_SIZE + FOOTED_SIZE ≤
      get noMapFooted.kernel.heap.mem 4194304 .size := by
    decide +kernel
  obtain rfl : 4194304 = a := Option.some.inj (hwhole.symm.trans hfind)
  omega

/-- The heap that `mm_init` leaves, over memory that is zero: the free block has no footer. -/
theorem mmVerifyHeap_fails_at_boot : ¬ ∀ (b : Boot) (calls : List HeapCall), Run.Guarded step Correct b.kernel calls →
    ∀ s ∈ Run.states step b.kernel calls, mmVerifyHeap s.heap = some s.heap.blocks := by
  intro hall
  have hpass := hall noMap [] trivial noMap.kernel (Run.head_mem_states _ _)
  have hnone : (mmVerifyHeap noMap.kernel.heap).isNone = true := by decide +kernel
  rw [hpass] at hnone
  cases hnone

end Kernel
end EterOS.Heap
