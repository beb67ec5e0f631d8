import EterOS.Mm.HeapComplete
/-!
# HeapSound — what the headers say after any sequence of calls

The invariant of the heap read off memory: `blocks` is the walk along `next`, `bucket` the walk along a free list, and
everything else is the fields of the headers these walks come by.
-/
namespace EterOS.Heap

open Libc (Blk Tiles)

variable {h : KHeap} {L A B : List Blk} {a : Nat} {x y : Blk}

def KHeap.payload (h : KHeap) (p : Nat) : Nat := get h.mem (headerOf p) .size

def KHeap.usedSum (h : KHeap) : Nat :=
  (h.blocks.map fun a => if get h.mem a .isFree = 0 then get h.mem a .size + HEADER_SIZE else 0).sum

theorem HeapOk.isFree_iff (hok : HeapOk h L) (hx : x ∈ L) : get h.mem x.addr .isFree ≠ 0 ↔ x.free = true := by
  rw [hok.row.isFree x hx]
  cases x.free <;> simp

theorem HeapOk.isFree_zero_iff (hok : HeapOk h L) (hx : x ∈ L) : get h.mem x.addr .isFree = 0 ↔ x.free = false := by
  rw [hok.row.isFree x hx]
  cases x.free <;> simp

theorem HeapOk.next_prev (hok : HeapOk h L) (hx : x ∈ L) (h0 : get h.mem x.addr .next ≠ 0) :
    ∃ y ∈ L, get h.mem x.addr .next = y.addr ∧ get h.mem y.addr .prev = x.addr ∧ NotBoth x y := by
  obtain ⟨A, B, rfl⟩ := List.append_of_mem hx
  cases B with
  | nil => exact absurd hok.row.next_eq h0
  | cons y B =>
    have hprev : get h.mem y.addr .prev = x.addr := by
      have hrow : Row h.mem h.heapStart ((A ++ [x]) ++ y :: B) (h.heapStart + h.memoryTotal) := by simpa using hok.row
      rw [hrow.prev_eq]
      simp
    have hapart : NotBoth x y := by
      have hchain := hok.apart
      rw [List.isChain_append] at hchain
      exact (List.isChain_cons_cons.1 hchain.2.1).1
    exact ⟨y, by simp, hok.row.next_eq, hprev, hapart⟩

theorem HeapOk.prev_next (hok : HeapOk h L) (hx : x ∈ L) (h0 : get h.mem x.addr .prev ≠ 0) :
    ∃ y ∈ L, get h.mem x.addr .prev = y.addr ∧ get h.mem y.addr .next = x.addr := by
  obtain ⟨A, B, rfl⟩ := List.append_of_mem hx
  rcases List.eq_nil_or_concat A with rfl | ⟨A, y, rfl⟩
  · exact absurd hok.row.prev_eq h0
  · rw [List.concat_eq_append] at hok ⊢
    have hrow : Row h.mem h.heapStart (A ++ y :: x :: B) (h.heapStart + h.memoryTotal) := by simpa using hok.row
    refine ⟨y, by simp, ?_, hrow.next_eq⟩
    rw [hok.row.prev_eq]
    simp

theorem HeapOk.usedSum_eq (hok : HeapOk h L) : h.memoryUsed = h.usedSum := by
  rw [hok.used, usedBytes, KHeap.usedSum, hok.blocks, List.map_map]
  congr 1
  refine List.map_congr_left fun x hx => ?_
  have hiff := hok.isFree_zero_iff hx
  show (if x.free then 0 else x.size + HEADER_SIZE) =
    if get h.mem x.addr .isFree = 0 then get h.mem x.addr .size + HEADER_SIZE else 0
  rw [hok.row.size x hx]
  cases hfree : x.free with
  | true =>
    have hne : ¬ get h.mem x.addr .isFree = 0 := fun h0 => Bool.noConfusion (hfree.symm.trans (hiff.1 h0))
    rw [if_neg hne, if_pos rfl]
  | false => rw [if_pos (hiff.2 hfree), if_neg Bool.false_ne_true]

namespace Kernel

variable {s : Kernel} {p n : Nat}

/-- **The representation of the heap**, in the headers and the lists. -/
structure Sound (s : Kernel) : Prop where
  tiles : Tiles s.heap.heapStart (s.heap.blocks.map (blockAt s.heap.mem)) (s.heap.heapStart + s.heap.memoryTotal)
  next : ∀ a ∈ s.heap.blocks, get s.heap.mem a .next ≠ 0 →
    get s.heap.mem a .next ∈ s.heap.blocks ∧ get s.heap.mem (get s.heap.mem a .next) .prev = a
  prev : ∀ a ∈ s.heap.blocks, get s.heap.mem a .prev ≠ 0 →
    get s.heap.mem a .prev ∈ s.heap.blocks ∧ get s.heap.mem (get s.heap.mem a .prev) .next = a
  apart : ∀ a ∈ s.heap.blocks, get s.heap.mem a .isFree ≠ 0 → get s.heap.mem a .next ≠ 0 →
    get s.heap.mem (get s.heap.mem a .next) .isFree = 0
  free : ∀ a ∈ s.heap.blocks, get s.heap.mem a .isFree ≠ 0 → ∀ k,
    (s.heap.bucket k).count a = if k = getBucketIndex (get s.heap.mem a .size) then 1 else 0
  listed : ∀ k, ∀ a ∈ s.heap.bucket k, a ∈ s.heap.blocks ∧ get s.heap.mem a .isFree ≠ 0
  payloads : ∀ p n, s.live p = some n → 8 ∣ p ∧ headerOf p ∈ s.heap.blocks ∧ get s.heap.mem (headerOf p) .isFree = 0
  disjoint : ∀ p q, s.live p ≠ none → s.live q ≠ none → p ≠ q → p + s.heap.payload p ≤ q ∨ q + s.heap.payload q ≤ p
  used : s.heap.memoryUsed = s.heap.usedSum

theorem Ok.headerOf_live (hs : s.Ok L) (hp : s.live p = some n) : ∃ x, Used L x ∧ p = x.addr + HEADER_SIZE ∧
    headerOf p = x.addr := by
  obtain ⟨x, hx, rfl, -⟩ := hs.live p n hp
  have hbounds := hs.heap.row.tiles.bounds x hx.1
  have hlimit := hs.heap.row.limit
  exact ⟨x, hx, rfl, headerOf_eq (by omega)⟩

theorem Ok.disjoint (hs : s.Ok L) {q : Nat} (hp : s.live p ≠ none) (hq : s.live q ≠ none) (hne : p ≠ q) :
    p + s.heap.payload p ≤ q ∨ q + s.heap.payload q ≤ p := by
  obtain ⟨n, hn⟩ := Option.ne_none_iff_exists'.1 hp
  obtain ⟨k, hk⟩ := Option.ne_none_iff_exists'.1 hq
  obtain ⟨x, hx, hpx, hhx⟩ := hs.headerOf_live hn
  obtain ⟨y, hy, hqy, hhy⟩ := hs.headerOf_live hk
  unfold KHeap.payload
  rw [hhx, hhy, hs.heap.row.size x hx.1, hs.heap.row.size y hy.1]
  have hapart := hs.heap.row.tiles.apart hx.1 hy.1
  unfold Libc.BLOCK_SIZE at hapart
  unfold HEADER_SIZE at hpx hqy
  rcases hapart with rfl | hxy | hyx
  · exact absurd (hpx.trans hqy.symm) hne
  · exact Or.inl (by omega)
  · exact Or.inr (by omega)

theorem Ok.sound (hs : s.Ok L) : s.Sound := by
  have hok := hs.heap
  refine ⟨?_, fun a ha h0 => ?_, fun a ha h0 => ?_, fun a ha hfree h0 => ?_, fun a ha hfree k => ?_, fun k a ha => ?_,
    fun p n hp => ?_, fun p q hp hq hne => hs.disjoint hp hq hne, hok.usedSum_eq⟩
  · rw [← hok.row_eq]
    exact hok.row.tiles
  · obtain ⟨x, hx, rfl⟩ := hok.mem_blocks.1 ha
    obtain ⟨y, hy, hnext, hprev, -⟩ := hok.next_prev hx h0
    rw [hnext]
    exact ⟨hok.mem_blocks.2 ⟨y, hy, rfl⟩, hprev⟩
  · obtain ⟨x, hx, rfl⟩ := hok.mem_blocks.1 ha
    obtain ⟨y, hy, hprev, hnext⟩ := hok.prev_next hx h0
    rw [hprev]
    exact ⟨hok.mem_blocks.2 ⟨y, hy, rfl⟩, hnext⟩
  · obtain ⟨x, hx, rfl⟩ := hok.mem_blocks.1 ha
    obtain ⟨y, hy, hnext, -, hapart⟩ := hok.next_prev hx h0
    rw [hnext, hok.isFree_zero_iff hy]
    cases hyfree : y.free with
    | false => rfl
    | true => exact absurd ⟨(hok.isFree_iff hx).1 hfree, hyfree⟩ hapart
  · obtain ⟨x, hx, rfl⟩ := hok.mem_blocks.1 ha
    obtain ⟨hnodup, hmem⟩ := hok.bucket k
    rw [hok.row.size x hx, hnodup.count]
    refine if_congr ?_ rfl rfl
    rw [hmem]
    constructor
    · rintro ⟨y, hy, hyx, hk⟩
      rw [← hok.row.distinct hy.1 hx hyx]
      exact hk.symm
    · rintro rfl
      exact ⟨x, ⟨hx, (hok.isFree_iff hx).1 hfree⟩, rfl, rfl⟩
  · obtain ⟨x, hx, rfl, -⟩ := ((hok.bucket k).2 a).1 ha
    exact ⟨hok.mem_blocks.2 ⟨x, hx.1, rfl⟩, (hok.isFree_iff hx.1).2 hx.2⟩
  · obtain ⟨x, hx, rfl, hhead⟩ := hs.headerOf_live hp
    rw [hhead]
    refine ⟨Nat.dvd_add (hok.row.eights x hx.1) (by decide), hok.mem_blocks.2 ⟨x, hx.1, rfl⟩,
      (hok.isFree_zero_iff hx.1).2 hx.2⟩

/-- **The heap is well represented** in every state of every run of clients that free and resize what they have and leave the
footers alone. -/
theorem heap_sound (b : Boot) (calls : List HeapCall) (hcorrect : Run.Guarded step Correct b.kernel calls) :
    ∀ s ∈ Run.states step b.kernel calls, s.Sound := by
  intro s hs
  obtain ⟨L, hok, -⟩ := run_correct b hcorrect s hs
  exact hok.sound

def twoBlocks : List HeapCall := [.kmalloc 100, .kmalloc 100, .kfree 4194472]

theorem heap_sound_two : (twoBlocks.foldl step noMap.kernel).Sound := by
  have hlive : (step (step noMap.kernel (.kmalloc 100)) (.kmalloc 100)).live 4194472 = some 100 := by decide +kernel
  refine heap_sound noMap twoBlocks ⟨⟨trivial, ?_⟩, ⟨trivial, ?_⟩, ⟨.inr ⟨100, hlive⟩, ?_⟩, trivial⟩ _
    (Run.foldl_mem_states twoBlocks noMap.kernel)
  · exact fun i v hc => HeapCall.noConfusion hc
  · exact fun i v hc => HeapCall.noConfusion hc
  · exact fun i v hc => HeapCall.noConfusion hc

/-- **Nothing stays split**: in every run of such clients, a heap of which nothing is in use is one free block again. -/
theorem heap_whole (b : Boot) (calls : List HeapCall) (hallowed : Run.Guarded step Allowed b.kernel calls) :
    ∀ s ∈ Run.states step b.kernel calls, (∀ p, s.live p = none) → s.heap.blocks = [s.heap.heapStart] ∧
      get s.heap.mem s.heap.heapStart .isFree = 1 ∧
      get s.heap.mem s.heap.heapStart .size + HEADER_SIZE = s.heap.memoryTotal ∧
      s.heap.memoryUsed = 0 := by
  intro s hs hnone
  obtain ⟨L, hok⟩ := run_ok b hallowed s hs
  have hfree : ∀ x ∈ L, x.free = true := fun x hx => by
    by_contra hf
    obtain ⟨n, hn⟩ := hok.used x ⟨hx, Bool.eq_false_iff.2 hf⟩
    rw [hnone] at hn
    cases hn
  have hrow := hok.heap.row
  have htiles := hrow.tiles
  match L with
  | [] => exact absurd htiles (Nat.ne_of_lt hrow.proper)
  | x :: y :: L => exact absurd ⟨hfree x (by simp), hfree y (by simp)⟩ (List.isChain_cons_cons.1 hok.heap.apart).1
  | [x] =>
    have hx := hfree x (by simp)
    obtain ⟨haddr, hend⟩ := htiles
    have hend : s.heap.heapStart + Libc.BLOCK_SIZE + x.size = s.heap.heapStart + s.heap.memoryTotal := hend
    rw [hok.heap.blocks, hok.heap.used, List.map_singleton, ← haddr, hrow.isFree x (by simp), hrow.size x (by simp), hx]
    refine ⟨rfl, rfl, ?_, ?_⟩
    · unfold Libc.BLOCK_SIZE at hend
      unfold HEADER_SIZE
      omega
    · simp [usedBytes, hx]

theorem live_step {s : Kernel} {c : HeapCall} {r : Nat} (hrun : s.halted = false) (hexec : (s.exec c).map (·.2) = some r)
    (p : Nat) :
    (s.step c).live p = if p = 0 then none else if p = r then some (asked c) else if p = given r c then none
    else s.live p := by
  obtain ⟨⟨h, r'⟩, hc, rfl⟩ := Option.map_eq_some_iff.1 hexec
  rw [step, if_neg (by simp [hrun]), hc]

/-- Two blocks are cut off, and given back in the order in which they came. -/
def thereAndBack : List HeapCall := [.kmalloc 100, .kmalloc 100, .kfree 4194336, .kfree 4194472]

theorem heap_whole_split :
    ((thereAndBack.take 2).foldl step noMap.kernel).heap.blocks = [4194304, 4194440, 4194576] ∧
      (thereAndBack.foldl step noMap.kernel).heap.blocks = [4194304] ∧
      (thereAndBack.foldl step noMap.kernel).heap.memoryUsed = 0 := by
  have hfirst (p : Nat) := live_step (s := noMap.kernel) (c := .kmalloc 100) (r := 4194336) rfl (by decide +kernel) p
  have hsecond (p : Nat) := live_step (s := noMap.kernel.step (.kmalloc 100)) (c := .kmalloc 100) (r := 4194472)
    (by decide +kernel) (by decide +kernel) p
  have hthird (p : Nat) := live_step (s := (noMap.kernel.step (.kmalloc 100)).step (.kmalloc 100))
    (c := .kfree 4194336) (r := 0)
    (by decide +kernel) (by decide +kernel) p
  have hfourth (p : Nat) := live_step (s := ((noMap.kernel.step (.kmalloc 100)).step (.kmalloc 100)).step (.kfree 4194336))
    (c := .kfree 4194472) (r := 0) (by decide +kernel) (by decide +kernel) p
  have hlive (p : Nat) : (thereAndBack.foldl step noMap.kernel).live p = none := by
    have hnone : noMap.kernel.live p = none := rfl
    simp only [thereAndBack, List.foldl_cons, List.foldl_nil, hfourth, hthird, hsecond, hfirst, given, hnone]
    split_ifs <;> rfl
  have hwhole := heap_whole noMap thereAndBack ⟨trivial, trivial, .inr ⟨100, ?_⟩, .inr ⟨100, ?_⟩, trivial⟩ _
    (Run.foldl_mem_states thereAndBack noMap.kernel) hlive
  · have hstart : (thereAndBack.foldl step noMap.kernel).heap.heapStart = 4194304 := by decide +kernel
    rw [hstart] at hwhole
    exact ⟨by decide +kernel, hwhole.1, hwhole.2.2.2⟩
  · rw [hsecond, hfirst]
    rfl
  · rw [hthird, hsecond]
    rfl

end Kernel
end EterOS.Heap
