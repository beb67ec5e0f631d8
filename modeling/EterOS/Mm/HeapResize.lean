import EterOS.Mm.HeapSound
/-!
# HeapResize — what `krealloc` promises, and for which sizes it keeps it

A block keeps its footer in the last four bytes of its payload.  `kmalloc` asks for four bytes more than its caller; the
in-place path of `krealloc` compares with the payload alone, and so hands out bytes of the footer where the size comes
within four of it.
-/
namespace EterOS.Heap

open Buffer (blit)
open Libc (Blk Tiles)

variable {h h' : KHeap} {L L' A B : List Blk} {b x y : Blk} {p q n size : Nat}

/-- A block was given back: what is in use is less by it, and a free block in the list of its size has its payload. -/
structure Returned (h h' : KHeap) (q : Nat) : Prop where
  used : h'.memoryUsed + (h.payload q + HEADER_SIZE) = h.memoryUsed
  free : ∃ a ∈ h'.blocks, get h'.mem a .isFree ≠ 0 ∧ a ∈ h'.bucket (getBucketIndex (get h'.mem a .size)) ∧ a ≤ headerOf q ∧
    q + h.payload q ≤ a + HEADER_SIZE + get h'.mem a .size

/-! ## Giving back -/

theorem size_le_foldl : ∀ (N : List Blk) (b : Blk), b.size ≤ (N.foldl joined b).size
  | [], _ => Nat.le_refl _
  | c :: N, b => (Nat.le_add_right b.size _).trans (size_le_foldl N (joined b c))

theorem merged_over {P N : List Blk} {start stop : Nat} (hP : P = [] ∨ ∃ c, P = [c] ∧ c.free = true)
    (htiles : Tiles start (A ++ P ++ b :: B) stop) :
    (merged P b N).addr ≤ b.addr ∧ b.addr + b.size ≤ (merged P b N).addr + (merged P b N).size := by
  obtain ⟨haddr, -⟩ := joined_all N { b with free := true }
  have hsize := size_le_foldl N { b with free := true }
  dsimp only at haddr hsize
  unfold merged
  rcases hP with rfl | ⟨c, rfl, -⟩
  · rw [List.foldr_nil, haddr]
    omega
  · obtain ⟨mid, htiles, hb⟩ := Libc.tiles_append.1 htiles
    obtain ⟨mid', -, hc⟩ := Libc.tiles_append.1 htiles
    obtain ⟨hcaddr, hcend⟩ := hc
    have hbaddr : b.addr = mid := hb.1
    have hcend : mid' + Libc.BLOCK_SIZE + c.size = mid := hcend
    unfold Libc.BLOCK_SIZE at hcend
    rw [List.foldr_cons, List.foldr_nil, joined]
    dsimp only
    unfold HEADER_SIZE
    omega

theorem payload_eq (hok : HeapOk h L) (hx : x ∈ L) : h.payload (x.addr + HEADER_SIZE) = x.size ∧
    headerOf (x.addr + HEADER_SIZE) = x.addr := by
  have hbounds := hok.row.tiles.bounds x hx
  have hlimit := hok.row.limit
  have hhead : headerOf (x.addr + HEADER_SIZE) = x.addr := headerOf_eq (by omega)
  exact ⟨by rw [KHeap.payload, hhead, hok.row.size x hx], hhead⟩

theorem HeapOk.kfree_returns (hok : HeapOk h L) (hx : Used L x) (hfoot : lastWord h.mem x = HEAP_FOOTER_MAGIC) :
    ∃ h', Heap.kfree h (x.addr + HEADER_SIZE) = some h' ∧ Returned h h' (x.addr + HEADER_SIZE) := by
  have hp0 : x.addr + HEADER_SIZE ≠ 0 := by
    unfold HEADER_SIZE
    omega
  obtain ⟨hpayload, hhead⟩ := payload_eq hok hx.1
  obtain ⟨A, B, rfl⟩ := List.append_of_mem hx.1
  obtain ⟨A', P, N, B', h', rfl, rfl, hP, hN, he, hf⟩ := hok.kfree hx.2 hfoot
  refine ⟨h', by rw [Heap.kfree, if_neg hp0, he], ?_, ?_⟩
  · have hPu : usedBytes P = 0 := by
      rcases hP with rfl | ⟨c, rfl, hc⟩
      · rfl
      · simp [usedBytes, hc]
    have hNu : usedBytes N = 0 := by
      rcases hN with rfl | ⟨c, rfl, hc⟩
      · rfl
      · simp [usedBytes, hc]
    rw [hok.used, hf.ok.used, hpayload]
    simp only [usedBytes_append, usedBytes_cons, hf.free, hx.2, hPu, hNu, if_true, Bool.false_eq_true, if_false]
    omega
  · have hM : merged P x N ∈ A' ++ merged P x N :: B' := by simp
    obtain ⟨hlo, hhi⟩ := merged_over (A := A') (N := N) hP hok.row.tiles
    refine ⟨(merged P x N).addr, hf.ok.mem_blocks.2 ⟨_, hM, rfl⟩, (hf.ok.isFree_iff hM).2 hf.free, ?_, ?_, ?_⟩
    · rw [hf.ok.row.size _ hM]
      exact ((hf.ok.bucket _).2 _).2 ⟨_, ⟨hM, hf.free⟩, rfl, rfl⟩
    · rw [hhead]
      exact hlo
    · rw [hpayload, hf.ok.row.size _ hM]
      omega

/-! ## Moving -/

/-- A block that does not have the size is moved: the new one has room for it and a footer, and the old bytes. -/
theorem HeapOk.krealloc_moves (hok : HeapOk h L) (hx : Used L x) (hlt : x.size < size)
    (he : Heap.krealloc h (x.addr + HEADER_SIZE) size = some (h', q)) (hq : q ≠ 0) :
    ∃ L' y, HeapOk h' L' ∧ Used L' y ∧ q = y.addr + HEADER_SIZE ∧ size + 4 ≤ y.size ∧
      ∀ i < x.size, h'.mem (q + i) = h.mem (x.addr + HEADER_SIZE + i) := by
  have hlimit := hok.row.limit
  have hp0 : x.addr + HEADER_SIZE ≠ 0 := by
    unfold HEADER_SIZE
    omega
  have hsize : size ≠ 0 := Nat.ne_zero_of_lt hlt
  rcases hok.krealloc hx hsize with ⟨hle, -⟩ | ⟨-, ⟨-, hnull⟩ | ⟨A, b, B, rfl, hfree, hfit, htotal, -, h1, hmem, ht, hmove⟩⟩
  · omega
  · rw [hnull] at he
    cases he
    exact absurd rfl hq
  have halign := align_spec (n := size + 4) (by omega)
  have hneed := need_le_taken hfit
  have hout := ht.outcome (n := size) hfree (by omega) hfit
  have hx1 := (hout.used x).2 (.inl ⟨hx, hp0⟩)
  have hxAB := mem_of_used hx hfree
  have hxb : x.addr ≠ b.addr := hok.row.ne_of_elsewhere hxAB
  rcases kfree_outcome ht.ok hx1 with ⟨hnone, -⟩ | ⟨h2, L2, hsome, hout2⟩
  · rw [hmove, hnone] at he
    cases he
  rw [hmove, hsome] at he
  cases he
  have hy1 : Used (A ++ taken b (align (size + 4)) :: (leftover b (align (size + 4)) ++ B)) (taken b (align (size + 4))) :=
    taken_used
  have hne : (taken b (align (size + 4))).addr + HEADER_SIZE ≠ x.addr + HEADER_SIZE :=
    fun hc => hxb (Nat.add_right_cancel hc).symm
  refine ⟨L2, taken b (align (size + 4)), hout2.ok, (hout2.used _).2 (.inl ⟨hy1, hne⟩), rfl, by omega, fun i hi => ?_⟩
  have hkept := hout2.kept _ hy1 hne (b.addr + HEADER_SIZE + i) (by show b.addr + HEADER_SIZE ≤ _; omega)
    (by show _ < b.addr + HEADER_SIZE + _; omega)
  have hxin : x ∈ A ++ (leftover b (align (size + 4)) ++ B) := by
    rcases List.mem_append.1 hxAB with hxA | hxB
    · exact List.mem_append_left _ hxA
    · exact List.mem_append_right _ (List.mem_append_right _ hxB)
  rw [hkept, hmem, Buffer.blit_of_mem (by omega) (by omega), Buffer.drop]
  have hsub : x.addr + HEADER_SIZE + (b.addr + HEADER_SIZE + i - (b.addr + HEADER_SIZE)) = x.addr + HEADER_SIZE + i := by
    omega
  rw [hsub]
  exact (hok.take hfree halign.2.2.1 halign.2.2.2 hfit).keeps x hxin _ (by omega) (by omega) fun hf => (hx.not_free hf).elim

namespace Kernel

variable {s : Kernel} {m : UInt64}

theorem Ok.run (hs : s.Ok L) (hi : s.Intact L) (hh : s.halted = false) {calls : List HeapCall}
    (ha : Run.Guarded Kernel.step Correct s calls) :
    ∀ t ∈ Run.states Kernel.step s calls, ∃ L, t.Ok L ∧ t.Intact L ∧ t.halted = false := by
  refine Run.states_forall (P := fun s => ∃ L, s.Ok L ∧ s.Intact L ∧ s.halted = false) (fun s c hs hc => ?_) calls s ⟨L, hs,
    hi, hh⟩ ha
  obtain ⟨L, hs, hi, hh⟩ := hs
  exact hs.step_correct hi hh hc

/-- The kernel after the call, and after the client wrote all of the bytes it asked for. -/
def resized (s : Kernel) (p : Nat) (m : UInt64) (q : Nat) (src : Buffer) : Kernel :=
  let t := s.step (.krealloc p m)
  { t with heap := { t.heap with mem := t.heap.mem.blit q src m.toNat } }

/-- **What `krealloc` promises** of `m` bytes at `q`, where there were `n` at `p`: the old bytes are there; all of the new
ones lie short of the footer and outside every other block; and with all of them written, and after any correct calls, the
block can be given back. -/
structure Honours (s : Kernel) (p n : Nat) (m : UInt64) (q : Nat) : Prop where
  kept : ∀ i < min n m.toNat, (s.step (.krealloc p m)).heap.mem (q + i) = s.heap.mem (p + i)
  room : m.toNat + 4 ≤ (s.step (.krealloc p m)).heap.payload q
  apart : ∀ a ∈ (s.step (.krealloc p m)).heap.blocks, a ≠ headerOf q →
    q + m.toNat ≤ a ∨ a + HEADER_SIZE + get (s.step (.krealloc p m)).heap.mem a .size ≤ q
  freed : ∀ src calls, Run.Guarded step Correct (s.resized p m q src) calls →
    (calls.foldl step (s.resized p m q src)).live q ≠ none →
    ∃ h', kfree (calls.foldl step (s.resized p m q src)).heap q = some h' ∧
    Returned (calls.foldl step (s.resized p m q src)).heap h' q

theorem Ok.written (hs : s.Ok L) (hi : s.Intact L) (hy : Used L y) {k : Nat} (hk : k + 4 ≤ y.size) (src : Buffer) :
    Ok { s with heap := { s.heap with mem := s.heap.mem.blit (y.addr + HEADER_SIZE) src k } } L ∧
      Intact { s with heap := { s.heap with mem := s.heap.mem.blit (y.addr + HEADER_SIZE) src k } } L := by
  have hout : ∀ i, i < y.addr + HEADER_SIZE ∨ y.addr + HEADER_SIZE + (y.size - 4) ≤ i →
      s.heap.mem.blit (y.addr + HEADER_SIZE) src k i = s.heap.mem i := by
    intro i hi
    rcases hi with hi | hi
    · exact Buffer.blit_of_lt hi
    · exact Buffer.blit_of_ge (by omega)
  refine ⟨⟨hs.heap.write hy fun i hi => hout i (by omega), hs.live, hs.used⟩, fun x hx => ?_⟩
  rw [← hi x hx]
  have hroom := hs.heap.row.room x hx.1
  have hapart := hs.heap.row.tiles.apart hx.1 hy.1
  unfold NODE_SIZE at hroom
  unfold Libc.BLOCK_SIZE at hapart
  apply Buffer.le_congr
  intro j hlo hhi
  unfold footerAddr at hlo hhi
  refine hout j ?_
  unfold HEADER_SIZE at *
  rcases hapart with rfl | hapart | hapart
  · omega
  · omega
  · omega

theorem honours_of_room (ht : (s.step (.krealloc p m)).Ok L') (hi : (s.step (.krealloc p m)).Intact L')
    (hh : (s.step (.krealloc p m)).halted = false) (hy : Used L' y) (hroom : m.toNat + 4 ≤ y.size)
    (hkept : ∀ i < min n m.toNat, (s.step (.krealloc p m)).heap.mem (y.addr + HEADER_SIZE + i) = s.heap.mem (p + i)) :
    s.Honours p n m (y.addr + HEADER_SIZE) := by
  obtain ⟨hpayload, hhead⟩ := payload_eq ht.heap hy.1
  refine ⟨hkept, by rw [hpayload]; exact hroom, fun a ha hne => ?_, fun src calls hc hlive => ?_⟩
  · obtain ⟨z, hz, rfl⟩ := ht.heap.mem_blocks.1 ha
    rw [hhead] at hne
    rw [ht.heap.row.size z hz]
    have hapart := ht.heap.row.tiles.apart hz hy.1
    unfold Libc.BLOCK_SIZE at hapart
    unfold HEADER_SIZE
    rcases hapart with rfl | hapart | hapart
    · exact absurd rfl hne
    · exact Or.inr (by omega)
    · exact Or.inl (by omega)
  · obtain ⟨hok, hin⟩ := ht.written hi hy hroom src
    obtain ⟨L1, hok1, hin1, -⟩ := hok.run hin hh hc _ (Run.foldl_mem_states calls _)
    obtain ⟨k, hk⟩ := Option.ne_none_iff_exists'.1 hlive
    obtain ⟨z, hz, hqz, -⟩ := hok1.live _ k hk
    have hreturned := hok1.heap.kfree_returns hz (hin1 z hz)
    rw [← hqz] at hreturned
    exact hreturned

theorem step_krealloc {h' : KHeap} (hh : s.halted = false) (he : krealloc s.heap p m.toNat = some (h', q)) :
    (s.step (.krealloc p m)).heap = h' := by
  have hexec : s.exec (.krealloc p m) = some (h', q) := by rw [exec_krealloc, he]
  unfold step
  rw [hh, hexec]
  rfl

/-- **`krealloc` honours the size it is asked for** just where it is at least four less than the payload of the old block,
or more than that. -/
theorem krealloc_honours_iff (b : Boot) (calls : List HeapCall) (hcorrect : Run.Guarded step Correct b.kernel calls) :
    ∀ s ∈ Run.states step b.kernel calls, ∀ (p n : Nat) (m : UInt64) (h' : KHeap) (q : Nat), s.live p = some n → m ≠ 0 →
      krealloc s.heap p m.toNat = some (h', q) → q ≠ 0 →
      (s.Honours p n m q ↔ m.toNat + 4 ≤ s.heap.payload p ∨ s.heap.payload p < m.toNat) := by
  intro s hs p n m h' q hlive hm he hq
  obtain ⟨L, hok, hi, hh⟩ := run_correct b hcorrect s hs
  obtain ⟨x, hx, rfl, hn⟩ := hok.live p n hlive
  obtain ⟨hpayload, -⟩ := payload_eq hok.heap hx.1
  have hm0 : m.toNat ≠ 0 := fun h0 => hm (UInt64.toNat_inj.1 h0)
  have hstep := step_krealloc hh he
  have hcall : s.Correct (.krealloc (x.addr + HEADER_SIZE) m) := ⟨.inr ⟨n, hlive⟩, fun i v hc => HeapCall.noConfusion hc⟩
  obtain ⟨L', ht, hi', hh'⟩ := hok.step_correct hi hh hcall
  rw [hpayload]
  by_cases hle : m.toNat ≤ x.size
  · -- the block stays where it is
    rcases hok.heap.krealloc hx hm0 with ⟨-, hsame⟩ | ⟨hlt, -⟩
    · rw [hsame] at he
      obtain ⟨rfl, rfl⟩ : s.heap = h' ∧ x.addr + HEADER_SIZE = q := by simpa using he
      constructor
      · intro hhon
        have := hhon.room
        rw [hstep, hpayload] at this
        exact Or.inl this
      · intro hcond
        have hL : L' = L := by
          have hheap := ht.heap
          rw [hstep] at hheap
          exact hheap.unique hok.heap
        refine honours_of_room (hL ▸ ht) (hL ▸ hi') hh' hx (by omega) fun i _ => by rw [hstep]
    · omega
  · refine ⟨fun _ => Or.inr (by omega), fun _ => ?_⟩
    obtain ⟨L2, y, hok2, hy, rfl, hroom, hbytes⟩ := hok.heap.krealloc_moves hx (by omega) he hq
    have hL : L' = L2 := by
      have hheap := ht.heap
      rw [hstep] at hheap
      exact hheap.unique hok2
    refine honours_of_room ht hi' hh' (hL ▸ hy) (by omega) fun i hi => ?_
    rw [hstep]
    exact hbytes i (by omega)

/-- A hundred bytes cut down to fifty. -/
theorem krealloc_honours_shrink : (step noMap.kernel (.kmalloc 100)).Honours 4194336 100 50 4194336 := by
  have hlive : (step noMap.kernel (.kmalloc 100)).live 4194336 = some 100 := by decide +kernel
  have hret : (krealloc (step noMap.kernel (.kmalloc 100)).heap 4194336 50).map (·.2) = some 4194336 := by decide +kernel
  have hpayload : (step noMap.kernel (.kmalloc 100)).heap.payload 4194336 = 104 := by decide +kernel
  have hmem : step noMap.kernel (.kmalloc 100) ∈ Run.states step noMap.kernel [.kmalloc 100] := by
    simp [Run.states]
  have hcorrect : Run.Guarded step Correct noMap.kernel [.kmalloc 100] :=
    ⟨⟨trivial, fun i v hc => HeapCall.noConfusion hc⟩, trivial⟩
  have hiff := krealloc_honours_iff noMap [.kmalloc 100] hcorrect
  generalize step noMap.kernel (.kmalloc 100) = s at *
  obtain ⟨⟨h', q⟩, he, hq⟩ := Option.map_eq_some_iff.1 hret
  dsimp only at hq
  subst hq
  refine (hiff s hmem 4194336 100 50 h' 4194336 hlive (by decide) he (by decide)).2 (Or.inl ?_)
  rw [hpayload]
  decide

/-- Ten bytes, resized to fourteen where they are: with all of them written the block cannot be given back. -/
theorem krealloc_overruns_footer :
    (krealloc (step noMap.kernel (.kmalloc 10)).heap 4194336 14).map (·.2) = some 4194336 ∧
      (kfree ((step noMap.kernel (.kmalloc 10)).resized 4194336 14 4194336 fun _ => 0).heap 4194336).isNone = true ∧
      ¬ (step noMap.kernel (.kmalloc 10)).Honours 4194336 10 14 4194336 := by
  refine ⟨by decide +kernel, by decide +kernel, fun hhon => ?_⟩
  have hroom := hhon.room
  have hpayload : ((step noMap.kernel (.kmalloc 10)).step (.krealloc 4194336 14)).heap.payload 4194336 = 16 := by
    decide +kernel
  rw [hpayload] at hroom
  exact absurd hroom (by decide)

end Kernel
end EterOS.Heap
