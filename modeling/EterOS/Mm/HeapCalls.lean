import EterOS.Mm.HeapSpec
/-!
# HeapCalls — the calls of the heap

What `kmalloc`, `kfree`, `kcalloc` and `krealloc` return and leave under the invariant.
-/
namespace EterOS.Heap

open List
open Buffer (blit le digits)
open Libc (Blk Tiles)
open Mm (PAGE_SIZE)
open Function (update)

variable {m : Buffer} {h h' g : KHeap} {size need : Nat} {A B C L P N : List Blk} {b c x : Blk}

/-! ## `kmalloc` -/

theorem align_spec {n : Nat} (hn : n < 2 ^ 63) : n ≤ align n ∧ align n < n + 24 ∧ 8 ∣ align n ∧ NODE_SIZE ≤ align n := by
  unfold align HEAP_ALIGNMENT NODE_SIZE
  dsimp only
  split
  · omega
  · omega

/-- **`kmalloc`** gives null and changes nothing, where no free block has the size, or takes one. -/
theorem HeapOk.kmalloc (hok : HeapOk h L) (hsize : size ≠ 0) : kmalloc h size = some (h, 0) ∧
      (size ≤ h.memoryTotal → findBlock h (align (size + 4)) = some 0 ∧ ∀ b, Free L b → b.size < align (size + 4)) ∨
    size ≤ h.memoryTotal ∧ ∃ A b B, L = A ++ b :: B ∧ b.free = true ∧ align (size + 4) ≤ b.size ∧
      findBlock h (align (size + 4)) = some b.addr ∧
      Heap.kmalloc h size = some (takeBlock h b.addr (align (size + 4)), b.addr + HEADER_SIZE) ∧
      Takes h (takeBlock h b.addr (align (size + 4))) A b B (align (size + 4)) := by
  have hstart : h.heapStart ≠ 0 := hok.row.pos.ne'
  have hlimit := hok.row.limit
  unfold Heap.kmalloc kmallocImpl
  rw [if_neg hsize, if_neg hsize, if_neg (by rw [hok.init]; exact Bool.noConfusion), if_neg hstart]
  by_cases hbig : h.memoryTotal < size
  · refine .inl ⟨?_, fun hle => absurd hle (by omega)⟩
    split
    · rfl
    · rfl
  · rw [if_neg (by unfold SIZE_MAX HEAP_ALIGNMENT HEADER_SIZE; omega), if_neg hbig]
    obtain ⟨hge, -, h8, h16⟩ := align_spec (n := size + 4) (by omega)
    obtain ⟨r, hr, hcase⟩ := hok.search (align (size + 4))
    dsimp only
    rw [hr]
    rcases hcase with ⟨rfl, hnone⟩ | ⟨b, ⟨hbL, hfree⟩, rfl, h0, hle⟩
    · exact .inl ⟨rfl, fun _ => ⟨rfl, hnone⟩⟩
    · obtain ⟨A, B, rfl⟩ := append_of_mem hbL
      refine .inr ⟨by omega, A, b, B, rfl, hfree, hle, rfl, ?_, hok.take hfree h8 h16 hle⟩
      dsimp only
      rw [if_neg h0]

/-! ## `kfree` -/

/-- A block that is given back, with the free block before and the one behind, where there are. -/
def merged (P : List Blk) (b : Blk) (N : List Blk) : Blk := P.foldr joined (N.foldl joined { b with free := true })

structure Frees (h h' : KHeap) (A P : List Blk) (b : Blk) (N B : List Blk) : Prop where
  ok : HeapOk h' (A ++ merged P b N :: B)
  place : h'.heapStart = h.heapStart ∧ h'.memoryTotal = h.memoryTotal
  free : (merged P b N).free = true
  keeps : Keeps h.mem h'.mem (A ++ B) (fun x => x.free = true)
  tail : ∀ z, N.getLast?.getD b = z → ∀ i, z.addr + HEADER_SIZE ≤ i → i < z.addr + HEADER_SIZE + z.size →
    (N ≠ [] → z.addr + HEADER_SIZE + NODE_SIZE ≤ i) → (P = [] → b.addr + HEADER_SIZE + NODE_SIZE ≤ i) → h'.mem i = h.mem i

theorem notBoth_free (hfree : b.free = true) (hnb : NotBoth b c ∨ NotBoth c b) : c.free = false := by
  rcases hnb with hnb | hnb
  · unfold NotBoth at hnb
    simpa [hfree] using hnb
  · unfold NotBoth at hnb
    simpa [hfree] using hnb

theorem heapOk_of_freed {M : Blk} (hg : Mid g (A ++ M :: B) (Free (A ++ M :: B))) (hM : M.free = true)
    (hv : g.vars = (h.heapStart, usedBytes A + usedBytes B, h.memoryTotal, true)) (hA : A.IsChain NotBoth)
    (hB : B.IsChain NotBoth) (hlast : ∀ x ∈ A.getLast?, x.free = false) (hhead : ∀ x ∈ B.head?, x.free = false) :
    HeapOk g (A ++ M :: B) ∧ g.heapStart = h.heapStart ∧ g.memoryTotal = h.memoryTotal := by
  simp only [KHeap.vars, Prod.mk.injEq] at hv
  refine ⟨⟨hg, ?_, ?_, hv.2.2.2⟩, hv.1, hv.2.2.1⟩
  · refine isChain_append.2 ⟨hA, isChain_cons.2 ⟨fun y hy => notBoth_right (hhead y hy), hB⟩, fun x hx y _ => ?_⟩
    exact notBoth_left (hlast x hx)
  · rw [hv.2.1, usedBytes_append, usedBytes_cons, hM]
    simp

theorem headerOf_eq {a : Nat} (ha : a < 2 ^ 63) : headerOf (a + HEADER_SIZE) = a := by
  unfold headerOf HEADER_SIZE
  omega

/-- The block marked free and counted out, and merged with the next one where that is free. -/
structure Halfway (h g : KHeap) (A : List Blk) (b : Blk) (N B : List Blk) : Prop where
  mid : Mid g (A ++ N.foldl joined { b with free := true } :: B) (fun d => d ∈ A ++ B ∧ d.free = true)
  sides : N = [] ∨ ∃ n, N = [n] ∧ n.free = true
  vars : g.vars = (h.heapStart, usedBytes A + usedBytes B, h.memoryTotal, true)
  keeps : Keeps h.mem g.mem (A ++ B) (fun x => x.free = true)
  tail : ∀ z, N.getLast?.getD b = z → ∀ i, z.addr + HEADER_SIZE ≤ i → i < z.addr + HEADER_SIZE + z.size →
    (N ≠ [] → z.addr + HEADER_SIZE + NODE_SIZE ≤ i) → g.mem i = h.mem i
  head : ∀ x ∈ B.head?, x.free = false
  chain : B.IsChain NotBoth

theorem HeapOk.kfree_next (hok : HeapOk h (A ++ b :: B)) (hb : b.free = false)
    (hfoot : h.mem.le (footerAddr b.addr b.size) 4 = HEAP_FOOTER_MAGIC) :
    ∃ N B' g, B = N ++ B' ∧ kfreeImpl h (b.addr + HEADER_SIZE) = mergePrev g b.addr ∧ Halfway h g A b N B' := by
  have hbL : b ∈ A ++ b :: B := by simp
  have hbounds := hok.row.tiles.bounds b hbL
  have hlimit := hok.row.limit
  have hused := hok.used
  have hle := usedBytes_le hok.row.tiles
  rw [usedBytes_append, usedBytes_cons, hb] at hused hle
  simp only [Bool.false_eq_true, if_false] at hused hle
  have hblock : ¬ (b.addr < h.heapStart ∨ h.heapStart + h.memoryTotal ≤ b.addr) := by
    unfold Libc.BLOCK_SIZE at hbounds
    omega
  have hchB : B.IsChain NotBoth := (isChain_append.1 hok.apart).2.1.tail
  -- The block with its `is_free` set, and the count without it.
  obtain ⟨hmark, hkeep0⟩ := hok.mid.mark (b := b) (fun hd => by simpa [hb] using hd.2) true
  have hD : ∀ d, Free (A ++ b :: B) d ↔ d ∈ A ++ B ∧ d.free = true := by
    intro d
    unfold Free
    simp only [mem_append, mem_cons]
    constructor
    · rintro ⟨hd | rfl | hd, hfd⟩
      · exact ⟨.inl hd, hfd⟩
      · rw [hb] at hfd
        exact Bool.noConfusion hfd
      · exact ⟨.inr hd, hfd⟩
    · rintro ⟨hd | hd, hfd⟩
      · exact ⟨.inl hd, hfd⟩
      · exact ⟨.inr (.inr hd), hfd⟩
  have hcount : (h.memoryUsed + 2 ^ 64 - (b.size + HEADER_SIZE)) % 2 ^ 64 = usedBytes A + usedBytes B := by
    rw [hused]
    unfold Libc.BLOCK_SIZE at hbounds
    unfold HEADER_SIZE at *
    omega
  obtain ⟨g, hg⟩ : ∃ g : KHeap, g = { h with mem := put h.mem b.addr .isFree 1, memoryUsed := usedBytes A + usedBytes B } :=
    ⟨_, rfl⟩
  have hmid : Mid g (A ++ { b with free := true } :: B) (fun d => d ∈ A ++ B ∧ d.free = true) := by
    rw [hg]
    exact (hmark.mono hD).of_memory rfl rfl rfl rfl
  have hvars : g.vars = (h.heapStart, usedBytes A + usedBytes B, h.memoryTotal, true) := by
    rw [hg, ← hok.init]
    rfl
  have hkeep : Keeps h.mem g.mem (A ++ { b with free := true } :: B) Nowhere := by
    rw [hg]
    exact hkeep0
  have hfree : kfreeImpl h (b.addr + HEADER_SIZE) = (mergeNext g b.addr).bind fun h => mergePrev h b.addr := by
    have hmagic := hok.row.magic b hbL
    have hisFree : get h.mem b.addr .isFree = 0 := by rw [hok.row.isFree b hbL, hb]; rfl
    unfold kfreeImpl
    rw [headerOf_eq (by omega)]
    dsimp only
    rw [if_neg (by unfold HEADER_SIZE; omega), if_neg hok.row.pos.ne', if_neg hblock, if_neg (not_not.2 hmagic),
      if_neg (not_not.2 hisFree), hok.row.size b hbL, if_neg (not_not.2 hfoot), hcount, ← hg]
    cases mergeNext g b.addr
    · rfl
    · rw [Option.bind_some]
  have hkeepb : ∀ i, b.addr + HEADER_SIZE ≤ i → i < b.addr + HEADER_SIZE + b.size → g.mem i = h.mem i := fun i hlo hhi =>
    hkeep { b with free := true } (by simp) i hlo hhi fun hd => hd.elim
  rcases hmid.mergeNext (fun _ => Iff.rfl) with ⟨he, hhead⟩ | ⟨n, B', g', rfl, hn, he, hm', hv', hk', ht'⟩
  · refine ⟨[], B, g, rfl, ?_, hmid, .inl rfl, hvars, ?_, ?_, hhead, hchB⟩
    · rw [hfree, show mergeNext g b.addr = some g from he, Option.bind_some]
    · exact hkeep.mono (fun x hx => mem_around hx) fun x _ hd => hd.elim
    · rintro z rfl i hlo hhi -
      exact hkeepb i hlo hhi
  · have hn0 : usedBytes (n :: B') = usedBytes B' := by
      rw [usedBytes_cons, hn]
      simp
    refine ⟨[n], B', g', rfl, ?_, hm', .inr ⟨n, rfl, hn⟩, ?_, ?_, ?_, ?_, hchB.tail⟩
    · rw [hfree, show mergeNext g b.addr = some g' from he, Option.bind_some]
    · rw [hv', hvars, hn0]
    · have hk : Keeps h.mem g.mem (A ++ B') (fun x => x.free = true) :=
        hkeep.mono (fun x hx => mem_around_two hx) fun x _ hd => hd.elim
      exact hk.trans hk'
    · rintro z rfl i hlo hhi hnode
      rw [ht' i (hnode (by simp)) hhi]
      exact hkeep n (by simp) i hlo hhi fun hd => hd.elim
    · intro x hx
      cases B' with
      | nil => cases hx
      | cons y B' =>
        obtain rfl : y = x := by simpa using hx
        exact notBoth_free hn (.inl (isChain_cons_cons.1 hchB).1)

theorem joined_all (N : List Blk) (b : Blk) : (N.foldl joined b).addr = b.addr ∧ (N.foldl joined b).free = b.free := by
  induction N generalizing b with
  | nil => exact ⟨rfl, rfl⟩
  | cons n N ih => exact ih (joined b n)

theorem Halfway.last_in (hh : Halfway h g A b N B)
    (hrow : Row h.mem h.heapStart (A ++ b :: (N ++ B)) (h.heapStart + h.memoryTotal)) :
    b.addr ≤ (N.getLast?.getD b).addr ∧
    (N.getLast?.getD b).addr + (N.getLast?.getD b).size = b.addr + (N.foldl joined { b with free := true }).size := by
  rcases hh.sides with rfl | ⟨n, rfl, -⟩
  · exact ⟨Nat.le_refl _, rfl⟩
  · obtain ⟨mid, -, rfl, hn, -⟩ := Libc.tiles_append.1 hrow.tiles
    unfold Libc.BLOCK_SIZE at hn
    simp only [List.getLast?_singleton, Option.getD_some, foldl_cons, foldl_nil, joined, HEADER_SIZE]
    omega

/-- **`kfree`** of a block in use with its footer gives it back, with the free blocks next to it. -/
theorem HeapOk.kfree (hok : HeapOk h (A ++ b :: B)) (hb : b.free = false)
    (hfoot : h.mem.le (footerAddr b.addr b.size) 4 = HEAP_FOOTER_MAGIC) :
    ∃ A' P N B' h', A = A' ++ P ∧ B = N ++ B' ∧ (P = [] ∨ ∃ p, P = [p] ∧ p.free = true) ∧
      (N = [] ∨ ∃ n, N = [n] ∧ n.free = true) ∧ kfreeImpl h (b.addr + HEADER_SIZE) = some h' ∧ Frees h h' A' P b N B' := by
  obtain ⟨N, B', g, rfl, he, hh⟩ := hok.kfree_next hb hfoot
  obtain ⟨hchA, -, -⟩ := isChain_append.1 hok.apart
  obtain ⟨hcaddr, hcfree⟩ := joined_all N { b with free := true }
  obtain ⟨hlast1, hlast2⟩ := hh.last_in hok.row
  have he' : kfreeImpl h (b.addr + HEADER_SIZE) = mergePrev g (N.foldl joined { b with free := true }).addr := by
    rw [he, hcaddr]
  rcases hh.mid.mergePrev (fun _ => Iff.rfl) hcfree with
    ⟨h', hp, hA, hm', hv', hk'⟩ | ⟨p, A', h', rfl, hpfree, hp, hm', hv', hk', ht'⟩
  · obtain ⟨hok', hplace⟩ := heapOk_of_freed hm' hcfree (hv'.trans hh.vars) hchA hh.chain hA hh.head
    refine ⟨A, [], N, B', h', (append_nil A).symm, rfl, .inl rfl, hh.sides, he'.trans hp, hok', hplace, hcfree, ?_, ?_⟩
    · exact hh.keeps.trans (hk'.mono (fun x hx => mem_around hx) fun _ _ hd => hd)
    · rintro z rfl i hlo hhi hnode hown
      rw [← hh.tail _ rfl i hlo hhi hnode]
      have hown := hown rfl
      refine hk' (N.foldl joined { b with free := true }) (by simp) i ?_ ?_ fun _ => ?_
      · rw [hcaddr]
        dsimp only
        omega
      · rw [hcaddr]
        dsimp only
        omega
      · rw [hcaddr]
        exact hown
  · obtain ⟨hchA', -, hA'p⟩ := isChain_append.1 hchA
    have hu : usedBytes (A' ++ [p]) = usedBytes A' := by
      rw [usedBytes_append, usedBytes_cons, hpfree]
      simp [usedBytes]
    have hvars := hv'.trans hh.vars
    rw [hu] at hvars
    have hlast : ∀ x ∈ A'.getLast?, x.free = false := fun x hx => notBoth_free hpfree (.inr (hA'p x hx p rfl))
    obtain ⟨hok', hplace⟩ := heapOk_of_freed hm' hpfree hvars hchA' hh.chain hlast hh.head
    refine ⟨A', [p], N, B', h', rfl, rfl, .inr ⟨p, rfl, hpfree⟩, hh.sides, he'.trans hp, hok', hplace, hpfree, ?_, ?_⟩
    · have hk : Keeps h.mem g.mem (A' ++ B') (fun x => x.free = true) := hh.keeps.mono (fun x hx => by
        rcases mem_append.1 hx with hx | hx
        · simp [hx]
        · simp [hx]) fun _ _ hd => hd
      exact hk.trans hk'
    · rintro z rfl i hlo hhi hnode -
      rw [← hh.tail _ rfl i hlo hhi hnode]
      refine ht' i ?_ ?_
      · rw [hcaddr]
        dsimp only
        omega
      · rw [hcaddr]
        dsimp only
        omega

theorem HeapOk.kfree_halts (hok : HeapOk h L) (hb : Used L b)
    (hfoot : h.mem.le (footerAddr b.addr b.size) 4 ≠ HEAP_FOOTER_MAGIC) :
    kfreeImpl h (b.addr + HEADER_SIZE) = none := by
  obtain ⟨hbL, hused⟩ := hb
  have hbounds := hok.row.tiles.bounds b hbL
  have hlimit := hok.row.limit
  have hblock : ¬ (b.addr < h.heapStart ∨ h.heapStart + h.memoryTotal ≤ b.addr) := by
    unfold Libc.BLOCK_SIZE at hbounds
    omega
  have hmagic := hok.row.magic b hbL
  have hisFree : get h.mem b.addr .isFree = 0 := by rw [hok.row.isFree b hbL, hused]; rfl
  unfold kfreeImpl
  rw [headerOf_eq (by omega)]
  dsimp only
  rw [if_neg (by unfold HEADER_SIZE; omega), if_neg hok.row.pos.ne', if_neg hblock, if_neg (not_not.2 hmagic),
    if_neg (not_not.2 hisFree), hok.row.size b hbL, if_pos hfoot]

/-! ## Stores of the kernel, `kcalloc` and `krealloc` -/

theorem HeapOk.write (hok : HeapOk h L) (hx : Used L x)
    (hw : ∀ i, i < x.addr + HEADER_SIZE ∨ x.addr + HEADER_SIZE + x.size ≤ i → m i = h.mem i) :
    HeapOk { h with mem := m } L := by
  exact ⟨hok.mid.write hx.1 (fun hd => hx.not_free hd.2) hw, hok.apart, hok.used, hok.init⟩

theorem taken_used : Used (A ++ taken b need :: C) (taken b need) := ⟨by simp, rfl⟩

theorem need_le_taken (hle : need ≤ b.size) : need ≤ (taken b need).size := by
  unfold taken
  split
  · exact Nat.le_refl _
  · exact hle

theorem Takes.fill (ht : Takes h h' A b B need) (src : Buffer) {n : Nat} (hn : n + 4 ≤ (taken b need).size) :
    Takes h { h' with mem := h'.mem.blit (b.addr + HEADER_SIZE) src n } A b B need := by
  have hout : ∀ i, i < b.addr + HEADER_SIZE ∨ b.addr + HEADER_SIZE + (taken b need).size ≤ i →
      h'.mem.blit (b.addr + HEADER_SIZE) src n i = h'.mem i := by
    intro i hi
    rcases hi with hi | hi
    · exact Buffer.blit_of_lt hi
    · exact Buffer.blit_of_ge (by omega)
  refine ⟨ht.ok.write taken_used hout, ht.place, ?_, fun x hx i hlo hhi hd => ?_⟩
  · rw [← ht.footer]
    apply Buffer.le_blit_of_disjoint
    unfold footerAddr HEADER_SIZE
    omega
  · refine (hout i ?_).trans (ht.keeps x hx i hlo hhi hd)
    have hapart := (ht.ok.row.elsewhere hx).2
    unfold taken at hapart ⊢
    dsimp only at hapart ⊢
    omega

theorem calloc_fits {num size : Nat} (hover : ¬ (num > 0 ∧ SIZE_MAX / num < size)) : num * size % 2 ^ 64 = num * size := by
  apply Nat.mod_eq_of_lt
  rcases Nat.eq_zero_or_pos num with rfl | hpos
  · simp
  · have hle : size ≤ SIZE_MAX / num := Nat.le_of_not_lt fun hlt => hover ⟨hpos, hlt⟩
    have := Nat.mul_le_of_le_div _ _ _ hle
    unfold SIZE_MAX at this
    rw [Nat.mul_comm]
    omega

/-- **`kcalloc`** gives null and changes nothing, or takes a block. -/
theorem HeapOk.kcalloc (hok : HeapOk h L) (num size : Nat) : kcalloc h num size = some (h, 0) ∨
    ∃ A b B h', L = A ++ b :: B ∧ b.free = true ∧ align (num * size + 4) ≤ b.size ∧ num * size ≠ 0 ∧
    num * size ≤ h.memoryTotal ∧
      Heap.kcalloc h num size = some (h', b.addr + HEADER_SIZE) ∧ Takes h h' A b B (align (num * size + 4)) := by
  unfold Heap.kcalloc
  by_cases hover : num > 0 ∧ SIZE_MAX / num < size
  · rw [if_pos hover]
    exact .inl rfl
  rw [if_neg hover]
  dsimp only
  rw [calloc_fits hover]
  by_cases hzero : num * size = 0
  · left
    rw [hzero]
    rfl
  rcases hok.kmalloc hzero with ⟨he, -⟩ | ⟨hle, A, b, B, rfl, hfree, hfit, -, he, ht⟩
  · left
    rw [he]
    rfl
  · have h0 : b.addr + HEADER_SIZE ≠ 0 := by
      unfold HEADER_SIZE
      omega
    have hlimit := hok.row.limit
    have halign := align_spec (n := num * size + 4) (by omega)
    refine .inr ⟨A, b, B, _, rfl, hfree, hfit, hzero, hle, ?_, ht.fill (fun _ => 0) (n := num * size) ?_⟩
    · rw [he]
      dsimp only
      rw [if_pos h0]
    · have := need_le_taken hfit
      omega

/-- **`krealloc`** of a block in use, to a size that is not 0: where it has the size it stays as it is; where no free block
has it, null is returned and nothing changes; and else a block is taken, filled and the old one given back. -/
theorem HeapOk.krealloc (hok : HeapOk h L) (hx : Used L x) (hsize : size ≠ 0) :
    size ≤ x.size ∧ krealloc h (x.addr + HEADER_SIZE) size = some (h, x.addr + HEADER_SIZE) ∨
    x.size < size ∧ (Heap.kmalloc h size = some (h, 0) ∧ krealloc h (x.addr + HEADER_SIZE) size = some (h, 0) ∨
      ∃ A b B, L = A ++ b :: B ∧ b.free = true ∧ align (size + 4) ≤ b.size ∧ size ≤ h.memoryTotal ∧
        Heap.kmalloc h size = some (takeBlock h b.addr (align (size + 4)), b.addr + HEADER_SIZE) ∧
        ∃ h', h'.mem = (takeBlock h b.addr (align (size + 4))).mem.blit (b.addr + HEADER_SIZE)
            ((takeBlock h b.addr (align (size + 4))).mem.drop (x.addr + HEADER_SIZE)) x.size ∧
          Takes h h' A b B (align (size + 4)) ∧
          Heap.krealloc h (x.addr + HEADER_SIZE) size =
          (kfreeImpl h' (x.addr + HEADER_SIZE)).map (·, b.addr + HEADER_SIZE)) := by
  have hbounds := hok.row.tiles.bounds x hx.1
  have hlimit := hok.row.limit
  have hp0 : x.addr + HEADER_SIZE ≠ 0 := by
    unfold HEADER_SIZE
    omega
  unfold Heap.krealloc
  rw [if_neg hp0, if_neg hsize, headerOf_eq (by omega)]
  dsimp only
  rw [hok.row.magic x hx.1, hok.row.size x hx.1, if_neg (fun hc => hc rfl)]
  by_cases hle : size ≤ x.size
  · rw [if_pos hle]
    exact .inl ⟨hle, rfl⟩
  · rw [if_neg hle]
    refine .inr ⟨Nat.lt_of_not_le hle, ?_⟩
    have himpl : kmallocImpl h size = Heap.kmalloc h size := by
      unfold Heap.kmalloc
      rw [if_neg hsize]
    rw [himpl]
    rcases hok.kmalloc hsize with ⟨he, -⟩ | ⟨htotal, A, b, B, rfl, hfree, hfit, -, he, ht⟩
    · left
      refine ⟨he, ?_⟩
      rw [he]
      rfl
    · right
      have hb0 : b.addr + HEADER_SIZE ≠ 0 := by
        unfold HEADER_SIZE
        omega
      have hxb : x.addr ≠ b.addr := fun hc => by
        have hxb := hok.row.distinct hx.1 (by simp) hc
        exact hx.not_free (hxb ▸ hfree)
      have hxin : x ∈ A ++ taken b (align (size + 4)) :: (leftover b (align (size + 4)) ++ B) := by
        have := hx.1
        simp only [mem_append, mem_cons] at this ⊢
        rcases this with h1 | rfl | h1
        · exact .inl h1
        · exact absurd rfl hxb
        · exact .inr (.inr (.inr h1))
      have hread : get (takeBlock h b.addr (align (size + 4))).mem x.addr .size = x.size := ht.ok.row.size x hxin
      have halign := align_spec (n := size + 4) (by omega)
      have hneed := need_le_taken hfit
      refine ⟨A, b, B, rfl, hfree, hfit, htotal, he, _, rfl, ht.fill _ (n := x.size) (by omega), ?_⟩
      rw [he]
      dsimp only
      rw [if_neg hb0, hread]
      cases kfreeImpl _ _ <;> rfl

/-! ## The start -/

theorem pageAlignUp_le (n : Nat) : pageAlignUp n ≤ n + 4095 ∧ PAGE_SIZE ∣ pageAlignUp n := by
  refine ⟨?_, Nat.dvd_mul_left _ _⟩
  unfold pageAlignUp PAGE_SIZE
  omega

theorem Boot.candidateAddr_spec (b : Boot) :
    PAGE_SIZE ∣ b.candidateAddr ∧ ARCH_RESERVED_MEM_END ≤ b.candidateAddr ∧ b.candidateAddr ≤ 2 ^ 32 + 4095 := by
  have hlinked := b.linked
  obtain ⟨hle, hdvd⟩ := pageAlignUp_le b.kernelEnd
  unfold Boot.candidateAddr ARCH_RESERVED_MEM_END
  refine ⟨?_, by omega, by omega⟩
  rcases Nat.le_total (pageAlignUp b.kernelEnd) 0x100000 with h | h
  · rw [Nat.max_eq_right h]
    exact ⟨256, rfl⟩
  · rw [Nat.max_eq_left h]
    exact hdvd

/-- What `mm_init` chooses: whole pages from the first megabyte on, and room for blocks. -/
structure Placed (start total : Nat) : Prop where
  page : PAGE_SIZE ∣ start
  low : ARCH_RESERVED_MEM_END ≤ start
  high : start + total ≤ 2 ^ 34
  room : 786432 ≤ total

theorem Boot.best_spec (b : Boot) : ∀ es, b.best es = (0, 0) ∨ Placed (b.best es).1 (b.best es).2
  | [] => .inl rfl
  | e :: es => by
    unfold Boot.best
    obtain ⟨hdvd, hlow, -⟩ := b.candidateAddr_spec
    generalize hregion : b.region e = r
    obtain ⟨regionStart, regionEnd⟩ := r
    dsimp only
    split
    · rename_i hfit
      simp only [Boot.region, Prod.mk.injEq] at hregion
      obtain ⟨hstart, hend⟩ := hregion
      right
      refine ⟨?_, by omega, ?_, ?_⟩
      · rw [← hstart]
        rcases Nat.le_total (pageAlignUp e.baseAddr) b.candidateAddr with h | h
        · rw [Nat.max_eq_right h]
          exact hdvd
        · rw [Nat.max_eq_left h]
          exact (pageAlignUp_le _).2
      · dsimp only
        omega
      · unfold MAX_HEAP_SIZE
        dsimp only
        omega
    · exact b.best_spec es

theorem Boot.place_spec (b : Boot) : Placed b.place.1 b.place.2 := by
  unfold Boot.place
  have hbest := b.best_spec (b.memMap.getD [])
  obtain ⟨-, hlow, hhigh⟩ := b.candidateAddr_spec
  generalize b.best (b.memMap.getD []) = r at hbest
  obtain ⟨bestStart, bestSize⟩ := r
  dsimp only
  split
  · obtain ⟨hle, hdvd⟩ := pageAlignUp_le (max 0x00400000 b.candidateAddr)
    have hge : 0x00400000 ≤ pageAlignUp (max 0x00400000 b.candidateAddr) := by
      unfold pageAlignUp PAGE_SIZE
      omega
    refine ⟨hdvd, ?_, ?_, show 786432 ≤ 8 * 1024 * 1024 by omega⟩
    · unfold ARCH_RESERVED_MEM_END
      dsimp only
      omega
    · dsimp only
      omega
  · rename_i h0
    rcases hbest with hz | hp
    · simp only [Prod.mk.injEq] at hz
      exact absurd hz.1 h0
    · exact hp

def Boot.whole (b : Boot) : Blk := ⟨b.place.1, b.place.2 - HEADER_SIZE, true⟩

theorem row_init (m : Buffer) {start total : Nat} (hp : Placed start total) :
    Row (put (put (put (put (put m start .size (total - HEADER_SIZE)) start .isFree 1) start .magic HEAP_MAGIC)
      start .next 0)
      start .prev 0) start [⟨start, total - HEADER_SIZE, true⟩] (start + total) := by
  obtain ⟨hpage, hlow, hhigh, hroom⟩ := hp
  have hP : Spread (fun x => x = start) := fun a b ha hb hne => absurd (ha.trans hb.symm) hne
  have hv : total - HEADER_SIZE < 256 ^ Fld.size.width := by
    unfold Fld.width
    dsimp only
    omega
  have hget : ∀ f,
    get (put (put (put (put (put m start .size (total - HEADER_SIZE)) start .isFree 1) start .magic HEAP_MAGIC)
      start .next 0) start .prev 0) start f =
      match f with
      | .size => total - HEADER_SIZE | .isFree => 1 | .magic => HEAP_MAGIC | .next => 0 | .prev => 0
      | f => get m start f := by
    intro f
    rw [get_put_of_lt hP rfl rfl (by decide), get_put_of_lt hP rfl rfl (by decide), get_put_of_lt hP rfl rfl (by decide),
      get_put_of_lt hP rfl rfl (by decide), get_put_of_lt hP rfl rfl hv]
    cases f <;> simp
  unfold ARCH_RESERVED_MEM_END at hlow
  unfold PAGE_SIZE at hpage
  refine ⟨by omega, by omega, hhigh, ⟨rfl, ?_⟩, fun b hb => ?_, fun b hb => ?_, fun b hb => ?_, fun b hb => ?_,
    fun b hb => ?_, ?_⟩
  · unfold Tiles Libc.BLOCK_SIZE HEADER_SIZE
    dsimp only
    omega
  · rw [mem_singleton.1 hb]
    dsimp only
    omega
  · rw [mem_singleton.1 hb]
    unfold NODE_SIZE HEADER_SIZE
    dsimp only
    omega
  · rw [mem_singleton.1 hb]
    exact hget .size
  · rw [mem_singleton.1 hb]
    exact hget .magic
  · rw [mem_singleton.1 hb]
    exact hget .isFree
  · refine ⟨nodup_singleton _, ?_, ?_, trivial⟩
    · unfold link
      rw [hget]
      rfl
    · unfold link
      rw [hget]
      rfl

/-- **The heap that `kmain` starts with**: one free block. -/
theorem Boot.heap_ok (b : Boot) : HeapOk b.heap [b.whole] ∧ b.heap.heapStart = b.place.1 ∧ b.heap.memoryTotal = b.place.2 ∧
      ∀ i, b.place.1 + HEADER_SIZE + NODE_SIZE ≤ i → i < b.place.1 + b.place.2 → b.heap.mem i = b.mem i := by
  have hp := b.place_spec
  unfold Boot.heap mmInit Boot.whole
  generalize b.place = r at hp ⊢
  obtain ⟨start, total⟩ := r
  dsimp only at hp ⊢
  have hrow := row_init b.mem hp
  obtain ⟨m, hm⟩ : ∃ m,
    put (put (put (put (put b.mem start .size (total - HEADER_SIZE)) start .isFree 1) start .magic HEAP_MAGIC)
    start .next 0) start .prev 0 = m := ⟨_, rfl⟩
  rw [hm] at hrow ⊢
  have hmem : ∀ i, start + HEADER_SIZE ≤ i → m i = b.mem i := by
    have hh : (fun x : Nat => x = start) start := rfl
    have hw : Writes b.mem m (fun x => x = start) (fun _ => False) := by
      rw [← hm]
      have hw1 := writes_put_header (m := b.mem) (f := .size) (v := total - HEADER_SIZE) (H := fun x => x = start)
        (N := fun _ => False) hh (by decide)
      have hw2 := hw1.trans (writes_put_header (f := .isFree) (v := 1) hh (by decide))
      have hw3 := hw2.trans (writes_put_header (f := .magic) (v := HEAP_MAGIC) hh (by decide))
      have hw4 := hw3.trans (writes_put_header (f := .next) (v := 0) hh (by decide))
      exact hw4.trans (writes_put_header (f := .prev) (v := 0) hh (by decide))
    intro i hi
    exact hw i (fun a ha => .inr (ha ▸ hi)) fun a ha => ha.elim
  have hmid : Mid ⟨m, start, fun _ => 0, 0, total, false⟩ [⟨start, total - HEADER_SIZE, true⟩] Nowhere :=
    ⟨hrow, fun d hd => hd.elim, fun _ => [], fun k => ⟨rfl, Dll.linked_nil⟩, fun k a => by simp [Nowhere]⟩
  obtain ⟨hadd, hvars, hkeep, -⟩ := hmid.add (b := ⟨start, total - HEADER_SIZE, true⟩) (by simp) rfl (fun hd => hd)
  obtain ⟨hv1, hv2, hv3, -⟩ := KHeap.vars_eq hvars
  have hfree : ∀ d, Nowhere d ∨ d = ⟨start, total - HEADER_SIZE, true⟩ ↔ Free [⟨start, total - HEADER_SIZE, true⟩] d := by
    intro d
    unfold Free Nowhere
    simp only [false_or, mem_singleton]
    exact ⟨fun hd => ⟨hd, by rw [hd]⟩, fun hd => hd.1⟩
  refine ⟨⟨(hadd.mono hfree).of_memory rfl rfl rfl rfl, .singleton _, hv2, rfl⟩, hv1, hv3, fun i hlo hhi => ?_⟩
  have hroom := hp.room
  refine (hkeep ⟨start, total - HEADER_SIZE, true⟩ (by simp) i ?_ ?_ fun _ => hlo).trans (hmem i ?_)
  · dsimp only
    omega
  · unfold HEADER_SIZE
    dsimp only
    omega
  · omega

end EterOS.Heap
