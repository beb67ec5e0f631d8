import EterOS.Mm.HeapVerify
/-!
# HeapComplete — `kmalloc` finds what there is

Over any run of calls `kmalloc` gives null just where no free block is large enough, and where it gives a block it leaves
the others in use as they are, but for the `prev` of the one behind a block that is cut.
-/
namespace EterOS.Heap

open List
open Libc (Blk Tiles)

variable {m m' : Buffer} {h h' : KHeap} {start stop start' stop' size need r : Nat} {A B L L' : List Blk} {b c x : Blk}

/-! ## Headers -/

theorem next_taken (hrow : Row m start (A ++ b :: B) stop)
    (hrow' : Row m' start' (A ++ taken b need :: (leftover b need ++ B)) stop')
    (hx : x ∈ A ++ B) : get m' x.addr .next = get m x.addr .next := by
  rcases mem_append.1 hx with hx | hx
  · obtain ⟨A1, A2, rfl⟩ := append_of_mem hx
    simp only [append_assoc, cons_append] at hrow hrow'
    rw [hrow.next_eq, hrow'.next_eq]
    cases A2 with
    | nil => rfl
    | cons c C => rfl
  · obtain ⟨B1, B2, rfl⟩ := append_of_mem hx
    have h₁ : Row m start ((A ++ b :: B1) ++ x :: B2) stop := by simpa using hrow
    have h2 : Row m' start' ((A ++ taken b need :: (leftover b need ++ B1)) ++ x :: B2) stop' := by simpa using hrow'
    rw [h₁.next_eq, h2.next_eq]

theorem prev_taken (hrow : Row m start (A ++ b :: B) stop)
    (hrow' : Row m' start' (A ++ taken b need :: (leftover b need ++ B)) stop')
    (hx : x ∈ A ++ B) : get m' x.addr .prev = get m x.addr .prev ∨
      get m x.addr .prev = b.addr ∧ get m' x.addr .prev = b.addr + HEADER_SIZE + need := by
  rcases mem_append.1 hx with hx | hx
  · obtain ⟨A1, A2, rfl⟩ := append_of_mem hx
    simp only [append_assoc, cons_append] at hrow hrow'
    rw [hrow.prev_eq, hrow'.prev_eq]
    exact .inl rfl
  · obtain ⟨B1, B2, rfl⟩ := append_of_mem hx
    have h₁ : Row m start ((A ++ b :: B1) ++ x :: B2) stop := by simpa using hrow
    have h2 : Row m' start' ((A ++ taken b need :: (leftover b need ++ B1)) ++ x :: B2) stop' := by simpa using hrow'
    rw [h₁.prev_eq, h2.prev_eq]
    rcases eq_nil_or_concat B1 with rfl | ⟨B1, y, rfl⟩
    · unfold leftover
      split
      · right
        simp [restOf]
      · left
        simp [taken]
    · left
      have e1 : A ++ b :: B1.concat y = (A ++ b :: B1) ++ [y] := by simp
      have e2 : A ++ taken b need :: (leftover b need ++ B1.concat y) =
          (A ++ taken b need :: (leftover b need ++ B1)) ++ [y] := by
        simp
      have hlast : ∀ C : List Blk, ((C ++ [y]).map Blk.addr).getLast? = some y.addr := fun C => by simp
      rw [e1, e2, hlast, hlast]

theorem mem_of_used (hx : Used (A ++ b :: B) x) (hfree : b.free = true) : x ∈ A ++ B := by
  rw [used_around_one, hfree] at hx
  exact (hx.resolve_right fun hc => Bool.noConfusion hc.2).1

/-! ## Runs -/

namespace Kernel

variable {s : Kernel}

/-- **What `kmalloc` promises**: null just where no free block is large enough; a block, where it leaves those in use as they
are but for the `prev` of the one behind a block that is cut; and where `krealloc` and `kcalloc` give null, nothing
changed. -/
structure Complete (s : Kernel) : Prop where
  null : ∀ size, 1 ≤ size → size ≤ s.heap.memoryTotal → ∃ h r, kmalloc s.heap size = some (h, r) ∧
    (r = 0 ↔ ¬ ∃ a ∈ s.heap.blocks, get s.heap.mem a .isFree ≠ 0 ∧ align (size + 4) ≤ get s.heap.mem a .size)
  kept : ∀ size h r, kmalloc s.heap size = some (h, r) → r ≠ 0 → ∀ a ∈ s.heap.blocks, get s.heap.mem a .isFree = 0 →
    (∀ f, f = .size ∨ f = .magic ∨ f = .isFree ∨ f = .next → get h.mem a f = get s.heap.mem a f) ∧
    (get h.mem a .prev = get s.heap.mem a .prev ∨
      get s.heap.mem a .prev + HEADER_SIZE = r ∧ get h.mem a .prev = r + align (size + 4)) ∧
    ∀ i, a + HEADER_SIZE ≤ i → i < a + HEADER_SIZE + get s.heap.mem a .size → h.mem i = s.heap.mem i
  krealloc : ∀ (ptr : Nat) (size : UInt64) (h : KHeap), ptr = 0 ∨ (∃ n, s.live ptr = some n) → size ≠ 0 →
    krealloc s.heap ptr size.toNat = some (h, 0) → h = s.heap
  kcalloc : ∀ (num size : UInt64) (h : KHeap), kcalloc s.heap num.toNat size.toNat = some (h, 0) → h = s.heap

theorem Ok.complete (hs : s.Ok L) : s.Complete := by
  have hrow := hs.heap.row
  refine ⟨fun size h1 hle => ?_, fun size h r he hr a ha hfree => ?_, fun ptr size h hp hz he => ?_, fun num size h he => ?_⟩
  · have hne : size ≠ 0 := by omega
    rcases hs.heap.kmalloc hne with ⟨he, hnone⟩ | ⟨-, A, b, B, rfl, hfree, hfit, -, he, -⟩
    · refine ⟨_, _, he, fun _ => ?_, fun _ => rfl⟩
      rintro ⟨a, ha, hfree, hfit⟩
      obtain ⟨x, hx, rfl⟩ := hs.heap.mem_blocks.1 ha
      rw [hrow.size x hx] at hfit
      rw [hrow.isFree x hx] at hfree
      have := (hnone hle).2 x ⟨hx, by cases hxf : x.free <;> simp_all⟩
      omega
    · have h0 : b.addr + HEADER_SIZE ≠ 0 := by
        unfold HEADER_SIZE
        omega
      refine ⟨_, _, he, fun hc => absurd hc h0, fun hnot => absurd ?_ hnot⟩
      refine ⟨b.addr, hs.heap.mem_blocks.2 ⟨b, by simp, rfl⟩, hrow.get_isFree (by simp) hfree, ?_⟩
      rw [hrow.size b (by simp)]
      exact hfit
  · obtain ⟨x, hx, rfl⟩ := hs.heap.mem_blocks.1 ha
    have hxu : Used L x := by
      refine ⟨hx, ?_⟩
      by_contra hxf
      exact hrow.get_isFree hx (by simpa using hxf) hfree
    by_cases hzero : size = 0
    · subst hzero
      unfold kmalloc at he
      rw [if_pos rfl] at he
      cases he
      exact absurd rfl hr
    rcases hs.heap.kmalloc hzero with ⟨he', -⟩ | ⟨-, A, b, B, rfl, hbfree, hfit, -, he', ht⟩
    · rw [he'] at he
      cases he
      exact absurd rfl hr
    · rw [he'] at he
      simp only [Option.some.injEq, Prod.mk.injEq] at he
      obtain ⟨rfl, rfl⟩ := he
      have hxAB := mem_of_used hxu hbfree
      have hrow' := ht.ok.row
      have hx' : x ∈ A ++ taken b (align (size + 4)) :: (leftover b (align (size + 4)) ++ B) := by
        rcases mem_append.1 hxAB with hx | hx
        · simp [hx]
        · simp [hx]
      refine ⟨?_, ?_, fun i hlo hhi => ?_⟩
      · rintro f (rfl | rfl | rfl | rfl)
        · rw [hrow'.size x hx', hrow.size x hx]
        · rw [hrow'.magic x hx', hrow.magic x hx]
        · rw [hrow'.isFree x hx', hrow.isFree x hx]
        · exact next_taken hrow hrow' hxAB
      · rcases prev_taken hrow hrow' hxAB with hsame | ⟨hbefore, hafter⟩
        · exact .inl hsame
        · exact .inr ⟨by rw [hbefore], hafter⟩
      · rw [hrow.size x hx] at hhi
        refine ht.keeps x ?_ i hlo hhi fun hf => (hxu.not_free hf).elim
        rcases mem_append.1 hxAB with hx | hx
        · exact mem_append_left _ hx
        · exact mem_append_right _ (mem_append_right _ hx)
  · by_cases h0 : ptr = 0
    · subst h0
      unfold Heap.krealloc at he
      rw [if_pos rfl] at he
      obtain ⟨h', r, L', G, he', -, hnull⟩ := kmalloc_outcome hs.heap size.toNat
      rw [he'] at he
      cases he
      exact (hnull rfl).1
    · obtain ⟨x, hx, rfl⟩ := hs.block hp h0
      have hz : size.toNat ≠ 0 := fun he => hz (UInt64.toNat_inj.1 he)
      rcases krealloc_outcome hs.heap hx hz with ⟨hnone, -⟩ | ⟨h', r, L', G, he', -, hnull⟩
      · rw [hnone] at he
        cases he
      · rw [he'] at he
        cases he
        exact (hnull rfl).1
  · obtain ⟨h', r, L', G, he', -, hnull⟩ := kcalloc_outcome hs.heap num.toNat size.toNat
    rw [he'] at he
    cases he
    exact (hnull rfl).1

/-- **`kmalloc` is complete**: after any calls of clients that free what they have and write inside their payloads. -/
theorem kmalloc_complete (b : Boot) (calls : List HeapCall) (ha : Run.Guarded step Allowed b.kernel calls) :
    ∀ s ∈ Run.states step b.kernel calls, s.Complete := by
  intro s hs
  obtain ⟨L, hok⟩ := run_ok b ha s hs
  exact hok.complete

def noMap : Boot := ⟨fun _ => 0, 0x100000, by decide, none⟩

def cutBefore : List HeapCall := [.kmalloc 100, .kmalloc 8388436, .kfree 4194336]

/-- The `prev` of the second block, in use all the time, is not what it was after the third `kmalloc`. -/
theorem prev_moves : ¬ ∀ (b : Boot) (calls : List HeapCall), Run.Guarded step Allowed b.kernel calls →
    ∀ s ∈ Run.states step b.kernel calls, ∀ size h r, 1 ≤ size → size ≤ s.heap.memoryTotal →
      kmalloc s.heap size = some (h, r) → r ≠ 0 → ∀ a ∈ s.heap.blocks, get s.heap.mem a .isFree = 0 →
      ∀ f, f ≠ .nextFree → f ≠ .prevFree → get h.mem a f = get s.heap.mem a f := by
  intro hall
  have hlive : (step (step noMap.kernel (.kmalloc 100)) (.kmalloc 8388436)).live 4194336 = some 100 := by decide +kernel
  have hguard : Run.Guarded step Allowed noMap.kernel cutBefore := ⟨trivial, trivial, .inr ⟨100, hlive⟩, trivial⟩
  have hall := hall noMap cutBefore hguard _ (Run.foldl_mem_states cutBefore noMap.kernel) 10
  have htotal : (cutBefore.foldl step noMap.kernel).heap.memoryTotal = 8388608 := by decide +kernel
  have hret : (kmalloc (cutBefore.foldl step noMap.kernel).heap 10).map (·.2) = some 4194336 := by decide +kernel
  have hprev : (kmalloc (cutBefore.foldl step noMap.kernel).heap 10).map (fun k => get k.1.mem 4194440 .prev) =
      some 4194352 := by decide +kernel
  have hbefore : get (cutBefore.foldl step noMap.kernel).heap.mem 4194440 .prev = 4194304 := by decide +kernel
  have hused : get (cutBefore.foldl step noMap.kernel).heap.mem 4194440 .isFree = 0 := by decide +kernel
  have hblock : 4194440 ∈ (cutBefore.foldl step noMap.kernel).heap.blocks := by decide +kernel
  rcases hk : kmalloc (cutBefore.foldl step noMap.kernel).heap 10 with _ | ⟨h, r⟩
  · rw [hk] at hret
    cases hret
  · rw [hk] at hret hprev
    have hr : r = 4194336 := by simpa using hret
    have hp : get h.mem 4194440 .prev = 4194352 := by simpa using hprev
    have := hall h r (by decide) (by rw [htotal]; decide) hk (by rw [hr]; decide) 4194440 hblock hused .prev (by decide)
      (by decide)
    rw [hp, hbefore] at this
    cases this

/-- The promises hold there, too. -/
theorem kmalloc_complete_cut : (cutBefore.foldl step noMap.kernel).Complete := by
  have hlive : (step (step noMap.kernel (.kmalloc 100)) (.kmalloc 8388436)).live 4194336 = some 100 := by decide +kernel
  exact kmalloc_complete noMap cutBefore ⟨trivial, trivial, .inr ⟨100, hlive⟩, trivial⟩ _
    (Run.foldl_mem_states cutBefore noMap.kernel)

end Kernel
end EterOS.Heap
