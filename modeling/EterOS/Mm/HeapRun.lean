import EterOS.Lib.Run
import EterOS.Mm.HeapCalls
/-!
# HeapRun — the heap over any sequence of calls

What a call does to the blocks in use, seen from its caller (`Outcome`), and from it what holds after any calls of clients
that free what they have and write inside their payloads.
-/
namespace EterOS.Heap

open Buffer (blit le digits)
open Libc (Blk Tiles)
open Function (update update_self update_of_ne)

variable {m : Buffer} {h h' h'' : KHeap} {size need ptr p q r n : Nat} {A B C L L' L'' P N : List Blk} {b c x : Blk}
    {G : Blk → Prop}

/-! ## What a call does -/

def lastWord (m : Buffer) (x : Blk) : Nat := m.le (footerAddr x.addr x.size) 4

/-- **What a call leaves**: the block at `q` is given back and the one that is `G` is got, at `r` and of `n` bytes at least;
the other blocks in use stay with their payloads. -/
structure Outcome (h h' : KHeap) (L L' : List Blk) (q r n : Nat) (G : Blk → Prop) : Prop where
  ok : HeapOk h' L'
  place : h'.heapStart = h.heapStart ∧ h'.memoryTotal = h.memoryTotal
  used : ∀ y, Used L' y ↔ Used L y ∧ y.addr + HEADER_SIZE ≠ q ∨ G y
  given : ∀ y, G y → y.addr + HEADER_SIZE = r ∧ n ≤ y.size
  got : r ≠ 0 → ∃ y, G y
  kept : ∀ y, Used L y → y.addr + HEADER_SIZE ≠ q → ∀ i, y.addr + HEADER_SIZE ≤ i → i < y.addr + HEADER_SIZE + y.size →
    h'.mem i = h.mem i
  foot : ∀ y, G y → (Used L y → lastWord h.mem y = HEAP_FOOTER_MAGIC) → lastWord h'.mem y = HEAP_FOOTER_MAGIC

theorem outcome_same (hok : HeapOk h L) (n : Nat) : Outcome h h L L 0 0 n Nowhere where
  ok := hok
  place := ⟨rfl, rfl⟩
  used := fun y => by
    unfold Nowhere HEADER_SIZE
    simp
  given := fun y hy => hy.elim
  got := fun h0 => absurd rfl h0
  kept := fun _ _ _ _ _ _ => rfl
  foot := fun y hy => hy.elim

theorem outcome_inPlace (hok : HeapOk h L) (hx : Used L x) (hn : n ≤ x.size) :
    Outcome h h L L (x.addr + HEADER_SIZE) (x.addr + HEADER_SIZE) n (fun y => y = x) where
  ok := hok
  place := ⟨rfl, rfl⟩
  used := fun y => by
    constructor
    · intro hy
      by_cases hyx : y = x
      · exact .inr hyx
      · exact .inl ⟨hy, fun he => hyx (hok.row.distinct hy.1 hx.1 (by omega))⟩
    · rintro (hy | rfl)
      · exact hy.1
      · exact hx
  given := fun y hy => by rw [hy]; exact ⟨rfl, hn⟩
  got := fun _ => ⟨x, rfl⟩
  kept := fun _ _ _ _ _ _ => rfl
  foot := fun y hy hfoot => hfoot (hy ▸ hx)

theorem used_around (hC : ∀ y ∈ C, y.free = true) : Used (A ++ b :: (C ++ B)) x ↔ Used (A ++ B) x ∨ x = b ∧
    b.free = false := by
  unfold Used
  simp only [List.mem_append, List.mem_cons]
  constructor
  · rintro ⟨hx | rfl | hx | hx, hf⟩
    · exact .inl ⟨.inl hx, hf⟩
    · exact .inr ⟨rfl, hf⟩
    · rw [hC x hx] at hf
      exact Bool.noConfusion hf
    · exact .inl ⟨.inr hx, hf⟩
  · rintro (⟨hx | hx, hf⟩ | ⟨rfl, hf⟩)
    · exact ⟨.inl hx, hf⟩
    · exact ⟨.inr (.inr (.inr hx)), hf⟩
    · exact ⟨.inr (.inl rfl), hf⟩

theorem used_around_one : Used (A ++ b :: B) x ↔ Used (A ++ B) x ∨ x = b ∧ b.free = false :=
  used_around (C := []) fun _ hy => by cases hy

theorem leftover_free : ∀ y ∈ leftover b need, y.free = true := by
  intro y hy
  unfold leftover at hy
  split at hy
  · rw [List.mem_singleton.1 hy]
    rfl
  · cases hy

theorem Takes.outcome (ht : Takes h h' A b B need) (hfree : b.free = true) (hn : n ≤ need) (hle : need ≤ b.size) :
    Outcome h h' (A ++ b :: B) (A ++ taken b need :: (leftover b need ++ B)) 0 (b.addr + HEADER_SIZE) n
      (fun y => y = taken b need) where
  ok := ht.ok
  place := ht.place
  used := fun y => by
    have h0 : y.addr + HEADER_SIZE ≠ 0 := by
      unfold HEADER_SIZE
      omega
    have htf : (taken b need).free = false := rfl
    rw [used_around leftover_free, used_around_one, hfree, htf]
    simp only [Bool.true_eq_false, and_false, or_false, and_true, ne_eq, h0, not_false_eq_true]
  given := fun y hy => by
    rw [hy]
    exact ⟨rfl, Nat.le_trans hn (need_le_taken hle)⟩
  got := fun _ => ⟨_, rfl⟩
  kept := fun y hy _ i hlo hhi => by
    rw [used_around_one, hfree] at hy
    have hy := hy.resolve_right fun hc => Bool.noConfusion hc.2
    refine ht.keeps y ?_ i hlo hhi fun hf => ?_
    · have := hy.1
      simp only [List.mem_append] at this ⊢
      tauto
    · exact (hy.not_free hf).elim
  foot := fun y hy _ => by
    rw [hy]
    exact ht.footer

theorem Frees.outcome (hf : Frees h h' A P b N B) (hrow : Row m p (A ++ P ++ b :: (N ++ B)) q) (hb : b.free = false)
    (hP : P = [] ∨ ∃ p, P = [p] ∧ p.free = true) (hN : N = [] ∨ ∃ n, N = [n] ∧ n.free = true) :
    Outcome h h' (A ++ P ++ b :: (N ++ B)) (A ++ merged P b N :: B) (b.addr + HEADER_SIZE) 0 0 Nowhere := by
  have hNfree : ∀ y ∈ N, y.free = true := by
    rcases hN with rfl | ⟨n, rfl, hn⟩
    · exact fun y hy => by cases hy
    · exact fun y hy => by rw [List.mem_singleton.1 hy]; exact hn
  have hused : ∀ y, Used (A ++ P ++ b :: (N ++ B)) y ↔ Used (A ++ B) y ∨ y = b := by
    intro y
    rw [used_around hNfree, hb]
    have hAP : Used (A ++ P ++ B) y ↔ Used (A ++ B) y := by
      rcases hP with rfl | ⟨p, rfl, hp⟩
      · rw [List.append_nil]
      · rw [List.append_assoc, List.singleton_append, used_around_one, hp]
        simp
    rw [hAP]
    simp
  have hne : ∀ y, Used (A ++ B) y → y.addr ≠ b.addr := fun y hy => by
    refine hrow.ne_of_elsewhere ?_
    have := hy.1
    simp only [List.mem_append] at this ⊢
    tauto
  refine ⟨hf.ok, hf.place, fun y => ?_, fun y hy => hy.elim, fun h0 => absurd rfl h0, fun y hy hyb i hlo hhi => ?_,
    fun y hy => hy.elim⟩
  · rw [used_around_one, hf.free, hused]
    unfold Nowhere
    constructor
    · rintro (hy | ⟨-, hc⟩)
      · exact .inl ⟨.inl hy, fun he => hne y hy (by omega)⟩
      · exact Bool.noConfusion hc
    · rintro (⟨hy | rfl, hyb⟩ | hc)
      · exact .inl hy
      · exact absurd rfl hyb
      · exact hc.elim
  · rw [hused] at hy
    rcases hy with hy | rfl
    · exact hf.keeps y hy.1 i hlo hhi fun hfree => (hy.not_free hfree).elim
    · exact absurd rfl hyb

theorem Outcome.trans {G' : Blk → Prop} (h1 : Outcome h h' L L' 0 r n G) (h2 : Outcome h' h'' L' L'' q 0 0 G')
    (hG' : ∀ y, ¬ G' y)
    (hne : r ≠ q) : Outcome h h'' L L'' q r n G where
  ok := h2.ok
  place := ⟨h2.place.1.trans h1.place.1, h2.place.2.trans h1.place.2⟩
  used := fun y => by
    have hy0 : y.addr + HEADER_SIZE ≠ 0 := by
      unfold HEADER_SIZE
      omega
    rw [h2.used, h1.used]
    constructor
    · rintro (⟨⟨hy, -⟩ | hy, hyq⟩ | hy)
      · exact .inl ⟨hy, hyq⟩
      · exact .inr hy
      · exact absurd hy (hG' y)
    · rintro (⟨hy, hyq⟩ | hy)
      · exact .inl ⟨.inl ⟨hy, hy0⟩, hyq⟩
      · exact .inl ⟨.inr hy, fun he => hne ((h1.given y hy).1.symm.trans he)⟩
  given := h1.given
  got := h1.got
  kept := fun y hy hyq i hlo hhi => by
    have hy0 : y.addr + HEADER_SIZE ≠ 0 := by
      unfold HEADER_SIZE
      omega
    exact (h2.kept y ((h1.used y).2 (.inl ⟨hy, hy0⟩)) hyq i hlo hhi).trans (h1.kept y hy hy0 i hlo hhi)
  foot := fun y hy hfoot => by
    have hused := (h1.used y).2 (.inr hy)
    have hyq : y.addr + HEADER_SIZE ≠ q := fun he => hne ((h1.given y hy).1.symm.trans he)
    rw [← h1.foot y hy hfoot]
    apply Buffer.le_congr
    intro i hlo hhi
    have hroom := h1.ok.row.room y hused.1
    unfold footerAddr at hlo hhi
    unfold NODE_SIZE at hroom
    exact h2.kept y hused hyq i (by omega) (by omega)

theorem lastWord_congr (hrow : Row m p L q) (hx : x ∈ L)
    (hm : ∀ i, x.addr + HEADER_SIZE ≤ i → i < x.addr + HEADER_SIZE + x.size → h'.mem i = h.mem i) :
    lastWord h'.mem x = lastWord h.mem x := by
  have hroom := hrow.room x hx
  unfold NODE_SIZE at hroom
  apply Buffer.le_congr
  intro i hlo hhi
  unfold footerAddr at hlo hhi
  exact hm i (by omega) (by omega)

theorem kmalloc_outcome (hok : HeapOk h L) (size : Nat) :
    ∃ h' r L' G, kmalloc h size = some (h', r) ∧ Outcome h h' L L' 0 r size G ∧ (r = 0 → h' = h ∧ L' = L) := by
  by_cases hsize : size = 0
  · subst hsize
    exact ⟨h, 0, L, Nowhere, rfl, outcome_same hok 0, fun _ => ⟨rfl, rfl⟩⟩
  · have hlimit := hok.row.limit
    rcases hok.kmalloc hsize with ⟨he, -⟩ | ⟨hle, A, b, B, rfl, hfree, hfit, -, he, ht⟩
    · exact ⟨h, 0, L, Nowhere, he, outcome_same hok size, fun _ => ⟨rfl, rfl⟩⟩
    · have halign := align_spec (n := size + 4) (by omega)
      refine ⟨_, _, _, _, he, ht.outcome hfree (by omega) hfit, fun h0 => absurd h0 ?_⟩
      unfold HEADER_SIZE
      omega

theorem kcalloc_outcome (hok : HeapOk h L) (num size : Nat) :
    ∃ h' r L' G, kcalloc h num size = some (h', r) ∧ Outcome h h' L L' 0 r (num * size) G ∧ (r = 0 → h' = h ∧ L' = L) := by
  have hlimit := hok.row.limit
  rcases hok.kcalloc num size with he | ⟨A, b, B, h', rfl, hfree, hfit, hzero, hle, he, ht⟩
  · exact ⟨h, 0, L, Nowhere, he, outcome_same hok _, fun _ => ⟨rfl, rfl⟩⟩
  · have halign := align_spec (n := num * size + 4) (by omega)
    refine ⟨_, _, _, _, he, ht.outcome hfree (by omega) hfit, fun h0 => absurd h0 ?_⟩
    unfold HEADER_SIZE
    omega

theorem kfree_outcome (hok : HeapOk h L) (hx : Used L x) :
    kfreeImpl h (x.addr + HEADER_SIZE) = none ∧ lastWord h.mem x ≠ HEAP_FOOTER_MAGIC ∨
    ∃ h' L', kfreeImpl h (x.addr + HEADER_SIZE) = some h' ∧ Outcome h h' L L' (x.addr + HEADER_SIZE) 0 0 Nowhere := by
  by_cases hfoot : lastWord h.mem x = HEAP_FOOTER_MAGIC
  · obtain ⟨A, B, rfl⟩ := List.append_of_mem hx.1
    obtain ⟨A', P, N, B', h', rfl, rfl, hP, hN, he, hf⟩ := hok.kfree hx.2 hfoot
    exact .inr ⟨h', _, he, hf.outcome hok.row hx.2 hP hN⟩
  · exact .inl ⟨hok.kfree_halts hx hfoot, hfoot⟩

theorem krealloc_outcome (hok : HeapOk h L) (hx : Used L x) (hsize : size ≠ 0) :
    krealloc h (x.addr + HEADER_SIZE) size = none ∧ lastWord h.mem x ≠ HEAP_FOOTER_MAGIC ∨
    ∃ h' r L' G, krealloc h (x.addr + HEADER_SIZE) size = some (h', r) ∧
      Outcome h h' L L' (if r = 0 then 0 else x.addr + HEADER_SIZE) r size G ∧ (r = 0 → h' = h ∧ L' = L) := by
  have hlimit := hok.row.limit
  have hp0 : x.addr + HEADER_SIZE ≠ 0 := by
    unfold HEADER_SIZE
    omega
  rcases hok.krealloc hx hsize with ⟨hle, he⟩ | ⟨hlt, ⟨-, he⟩ | ⟨A, b, B, rfl, hfree, hfit, htotal, -, h1, -, ht, he⟩⟩
  · refine .inr ⟨h, _, L, fun y => y = x, he, ?_, fun h0 => absurd h0 hp0⟩
    rw [if_neg hp0]
    exact outcome_inPlace hok hx hle
  · exact .inr ⟨h, 0, L, Nowhere, he, outcome_same hok size, fun _ => ⟨rfl, rfl⟩⟩
  · have halign := align_spec (n := size + 4) (by omega)
    have hb0 : b.addr + HEADER_SIZE ≠ 0 := by
      unfold HEADER_SIZE
      omega
    have h1out := ht.outcome (n := size) hfree (by omega) hfit
    have hx1 := (h1out.used x).2 (.inl ⟨hx, hp0⟩)
    have hkept : lastWord h1.mem x = lastWord h.mem x := lastWord_congr hok.row hx.1 (h1out.kept x hx hp0)
    have hne : b.addr + HEADER_SIZE ≠ x.addr + HEADER_SIZE := fun hc => by
      have hbx := hok.row.distinct (b := b) (by simp) hx.1 (by omega)
      exact hx.not_free (hbx ▸ hfree)
    rcases kfree_outcome ht.ok hx1 with ⟨hnone, hfoot⟩ | ⟨h2, L2, hsome, h2out⟩
    · left
      rw [he, hnone]
      exact ⟨rfl, hkept ▸ hfoot⟩
    · right
      rw [hsome] at he
      refine ⟨h2, _, L2, fun y => y = taken b (align (size + 4)), he, ?_, fun h0 => absurd h0 hb0⟩
      rw [if_neg hb0]
      exact h1out.trans h2out (fun _ hy => hy) hne

/-! ## Runs -/

inductive HeapCall where
  | kmalloc (size : UInt64)
  | kcalloc (num size : UInt64)
  | krealloc (ptr : Nat) (size : UInt64)
  | kfree (ptr : Nat)
  | store (i : Nat) (v : UInt8)

/-- The heap, the pointers clients have with the sizes they asked for, and whether an assertion has stopped the kernel. -/
structure Kernel where
  heap : KHeap
  live : Nat → Option Nat
  halted : Bool

def Boot.kernel (b : Boot) : Kernel := ⟨b.heap, fun _ => none, false⟩

namespace Kernel

def exec (s : Kernel) : HeapCall → Option (KHeap × Nat)
  | .kmalloc size => kmalloc s.heap size.toNat
  | .kcalloc num size => kcalloc s.heap num.toNat size.toNat
  | .krealloc ptr size => krealloc s.heap ptr size.toNat
  | .kfree ptr => (kfree s.heap ptr).map (·, 0)
  | .store i v => some ({ s.heap with mem := update s.heap.mem i v }, 0)

/-- The pointer a call that returned `r` took away from its client; null for none. -/
def given (r : Nat) : HeapCall → Nat
  | .kfree ptr => ptr
  | .krealloc ptr size => if size = 0 ∨ r ≠ 0 then ptr else 0
  | _ => 0

def asked : HeapCall → Nat
  | .kmalloc size | .krealloc _ size => size.toNat
  | .kcalloc num size => num.toNat * size.toNat
  | .kfree _ | .store .. => 0

theorem exec_krealloc (s : Kernel) (ptr : Nat) (size : UInt64) :
    s.exec (.krealloc ptr size) = krealloc s.heap ptr size.toNat := rfl

theorem exec_kfree (s : Kernel) (ptr : Nat) : s.exec (.kfree ptr) = (kfree s.heap ptr).map (·, 0) := rfl

theorem given_krealloc (r ptr : Nat) (size : UInt64) : given r (.krealloc ptr size) = if size = 0 ∨ r ≠ 0 then ptr
    else 0 := rfl

def step (s : Kernel) (c : HeapCall) : Kernel :=
  if s.halted then s
  else
    match s.exec c with
    | none => { s with halted := true }
    | some (h, r) =>
      { s with
        heap := h
        live := fun p => if p = 0 then none else if p = r then some (asked c) else if p = given r c then none else s.live p }

/-- Clients free and resize what they have, and write inside their payloads. -/
def Allowed (s : Kernel) : HeapCall → Prop
  | .kfree ptr | .krealloc ptr _ => ptr = 0 ∨ ∃ n, s.live ptr = some n
  | .store i _ => ∃ p n, s.live p = some n ∧ p ≤ i ∧ i < p + get s.heap.mem (headerOf p) .size
  | _ => True

def Correct (s : Kernel) (c : HeapCall) : Prop :=
  s.Allowed c ∧ ∀ i v, c = .store i v → ∃ p n, s.live p = some n ∧ p ≤ i ∧ i + 4 < p + get s.heap.mem (headerOf p) .size

/-- **The invariant**: a row of blocks, of which those in use are the clients'. -/
structure Ok (s : Kernel) (L : List Blk) : Prop where
  heap : HeapOk s.heap L
  live : ∀ p n, s.live p = some n → ∃ x, Used L x ∧ p = x.addr + HEADER_SIZE ∧ n ≤ x.size
  used : ∀ x, Used L x → ∃ n, s.live (x.addr + HEADER_SIZE) = some n

def Intact (s : Kernel) (L : List Blk) : Prop := ∀ x, Used L x → lastWord s.heap.mem x = HEAP_FOOTER_MAGIC

variable {s : Kernel} {call : HeapCall}

theorem Ok.step_some (hs : s.Ok L) (hh : s.halted = false) (he : s.exec call = some (h', r))
    (ho : Outcome s.heap h' L L' (given r call) r (asked call) G) : (s.step call).Ok L' ∧ (s.step call).heap = h' := by
  have hstep : s.step call = { s with
      heap := h'
      live := fun p => if p = 0 then none else if p = r then some (asked call) else if p = given r call then none
        else s.live p } := by
    unfold Kernel.step
    rw [hh, he]
    rfl
  rw [hstep]
  refine ⟨⟨ho.ok, fun p n hp => ?_, fun x hx => ?_⟩, rfl⟩
  · dsimp only at hp
    by_cases hp0 : p = 0
    · rw [if_pos hp0] at hp
      cases hp
    rw [if_neg hp0] at hp
    by_cases hpr : p = r
    · rw [if_pos hpr] at hp
      obtain ⟨y, hy⟩ := ho.got (hpr ▸ hp0)
      obtain ⟨hyr, hle⟩ := ho.given y hy
      refine ⟨y, (ho.used y).2 (.inr hy), hpr.trans hyr.symm, ?_⟩
      cases hp
      exact hle
    · rw [if_neg hpr] at hp
      by_cases hpq : p = given r call
      · rw [if_pos hpq] at hp
        cases hp
      · rw [if_neg hpq] at hp
        obtain ⟨x, hx, rfl, hle⟩ := hs.live p n hp
        exact ⟨x, (ho.used x).2 (.inl ⟨hx, hpq⟩), rfl, hle⟩
  · have hx0 : x.addr + HEADER_SIZE ≠ 0 := by
      unfold HEADER_SIZE
      omega
    dsimp only
    rw [if_neg hx0]
    by_cases hxr : x.addr + HEADER_SIZE = r
    · exact ⟨_, if_pos hxr⟩
    · rw [if_neg hxr]
      rcases (ho.used x).1 hx with ⟨hxL, hxq⟩ | hG
      · rw [if_neg hxq]
        exact hs.used x hxL
      · exact absurd (ho.given x hG).1 hxr

theorem Ok.block (hs : s.Ok L) (hp : ptr = 0 ∨ ∃ n, s.live ptr = some n) (h0 : ptr ≠ 0) :
    ∃ x, Used L x ∧ ptr = x.addr + HEADER_SIZE := by
  obtain ⟨n, hn⟩ := hp.resolve_left h0
  obtain ⟨x, hx, he, -⟩ := hs.live ptr n hn
  exact ⟨x, hx, he⟩

/-- **The calls**: each does what an `Outcome` says, unless a footer is missing and the kernel stops; where it gives null
for a block that was asked for, nothing has changed. -/
theorem Ok.exec (hs : s.Ok L) (ha : s.Allowed call) (hc : ∀ i v, call ≠ .store i v) : s.exec call = none ∧ ¬ s.Intact L ∨
    ∃ h' r L' G, s.exec call = some (h', r) ∧ Outcome s.heap h' L L' (given r call) r (asked call) G ∧
      (r = 0 → given r call = 0 → h' = s.heap ∧ L' = L) := by
  cases call with
  | kmalloc size =>
    obtain ⟨h', r, L', G, he, ho, hnull⟩ := kmalloc_outcome hs.heap size.toNat
    exact .inr ⟨h', r, L', G, he, ho, fun hr _ => hnull hr⟩
  | kcalloc num size =>
    obtain ⟨h', r, L', G, he, ho, hnull⟩ := kcalloc_outcome hs.heap num.toNat size.toNat
    exact .inr ⟨h', r, L', G, he, ho, fun hr _ => hnull hr⟩
  | krealloc ptr size =>
    by_cases h0 : ptr = 0
    · subst h0
      obtain ⟨h', r, L', G, he, ho, hnull⟩ := kmalloc_outcome hs.heap size.toNat
      have hg : given r (.krealloc 0 size) = 0 := by
        rw [given_krealloc, ite_self]
      refine .inr ⟨h', r, L', G, ?_, ?_, fun hr _ => hnull hr⟩
      · rw [exec_krealloc, Heap.krealloc, if_pos rfl]
        exact he
      · rw [hg]
        exact ho
    · obtain ⟨x, hx, rfl⟩ := hs.block ha h0
      by_cases hzero : size = 0
      · subst hzero
        have hexec : s.exec (.krealloc (x.addr + HEADER_SIZE) 0) = (kfreeImpl s.heap (x.addr + HEADER_SIZE)).map (·, 0) := by
          have hz : UInt64.toNat 0 = 0 := rfl
          rw [exec_krealloc, Heap.krealloc, if_neg h0, hz, if_pos rfl]
          cases kfreeImpl _ _ <;> rfl
        rcases kfree_outcome hs.heap hx with ⟨hnone, hfoot⟩ | ⟨h', L', hsome, ho⟩
        · rw [hnone] at hexec
          exact .inl ⟨hexec, fun hi => hfoot (hi x hx)⟩
        · rw [hsome] at hexec
          refine .inr ⟨h', 0, L', Nowhere, hexec, ho, fun _ hg => absurd hg ?_⟩
          exact h0
      · have hz : size.toNat ≠ 0 := fun he => hzero (UInt64.toNat_inj.1 he)
        rcases krealloc_outcome hs.heap hx hz with ⟨hnone, hfoot⟩ | ⟨h', r, L', G, hsome, ho, hnull⟩
        · exact .inl ⟨hnone, fun hi => hfoot (hi x hx)⟩
        · refine .inr ⟨h', r, L', G, hsome, ?_, fun hr _ => hnull hr⟩
          have hg : given r (.krealloc (x.addr + HEADER_SIZE) size) = if r = 0 then 0 else x.addr + HEADER_SIZE := by
            rw [given_krealloc]
            by_cases hr : r = 0
            · rw [if_pos hr, if_neg (by simp [hzero, hr])]
            · rw [if_neg hr, if_pos (.inr hr)]
          rw [hg]
          exact ho
  | kfree ptr =>
    by_cases h0 : ptr = 0
    · subst h0
      refine .inr ⟨s.heap, 0, L, Nowhere, ?_, outcome_same hs.heap 0, fun _ _ => ⟨rfl, rfl⟩⟩
      rfl
    · obtain ⟨x, hx, rfl⟩ := hs.block ha h0
      have hexec : s.exec (.kfree (x.addr + HEADER_SIZE)) = (kfreeImpl s.heap (x.addr + HEADER_SIZE)).map (·, 0) := by
        rw [exec_kfree, Heap.kfree, if_neg h0]
      rcases kfree_outcome hs.heap hx with ⟨hnone, hfoot⟩ | ⟨h', L', hsome, ho⟩
      · rw [hnone] at hexec
        exact .inl ⟨hexec, fun hi => hfoot (hi x hx)⟩
      · rw [hsome] at hexec
        exact .inr ⟨h', 0, L', Nowhere, hexec, ho, fun _ hg => absurd hg h0⟩
  | store i v => exact absurd rfl (hc i v)

theorem Ok.store {i : Nat} {v : UInt8} (hs : s.Ok L) (hh : s.halted = false) (ha : s.Allowed (.store i v)) :
    (s.step (.store i v)).Ok L ∧ (s.step (.store i v)).heap = { s.heap with mem := update s.heap.mem i v } := by
  obtain ⟨p, n, hp, hlo, hhi⟩ := ha
  obtain ⟨x, hx, rfl, -⟩ := hs.live p n hp
  have hbounds := hs.heap.row.tiles.bounds x hx.1
  have hlimit := hs.heap.row.limit
  rw [headerOf_eq (by omega), hs.heap.row.size x hx.1] at hhi
  have hok : HeapOk { s.heap with mem := update s.heap.mem i v } L := by
    refine hs.heap.write hx fun j hj => ?_
    rw [update_of_ne (by omega)]
  have hstep : s.step (.store i v) = { s with
      heap := { s.heap with mem := update s.heap.mem i v }
      live := fun p => if p = 0 then none else if p = 0 then some 0 else if p = 0 then none else s.live p } := by
    unfold Kernel.step
    rw [hh]
    rfl
  rw [hstep]
  refine ⟨⟨hok, fun q k hq => ?_, fun y hy => ?_⟩, rfl⟩
  · dsimp only at hq
    by_cases hq0 : q = 0
    · rw [if_pos hq0] at hq
      cases hq
    · rw [if_neg hq0, if_neg hq0, if_neg hq0] at hq
      exact hs.live q k hq
  · have hy0 : y.addr + HEADER_SIZE ≠ 0 := by
      unfold HEADER_SIZE
      omega
    dsimp only
    rw [if_neg hy0, if_neg hy0, if_neg hy0]
    exact hs.used y hy

theorem Ok.step (hs : s.Ok L) (ha : s.Allowed call) : ∃ L', (s.step call).Ok L' := by
  by_cases hh : s.halted = true
  · have : s.step call = s := by
      unfold Kernel.step
      rw [if_pos hh]
    rw [this]
    exact ⟨L, hs⟩
  have hh : s.halted = false := by simpa using hh
  by_cases hc : ∃ i v, call = .store i v
  · obtain ⟨i, v, rfl⟩ := hc
    exact ⟨L, (hs.store hh ha).1⟩
  · rcases hs.exec ha (fun i v he => hc ⟨i, v, he⟩) with ⟨hnone, -⟩ | ⟨h', r, L', G, he, ho, -⟩
    · refine ⟨L, ?_⟩
      unfold Kernel.step
      rw [hh, hnone]
      exact ⟨hs.heap, hs.live, hs.used⟩
    · exact ⟨L', (hs.step_some hh he ho).1⟩

theorem Ok.store_lastWord {i : Nat} {v : UInt8} (hs : s.Ok L) (hcorrect : s.Correct (.store i v)) (hx : x ∈ L) :
    lastWord (update s.heap.mem i v) x = lastWord s.heap.mem x := by
  obtain ⟨p, n, hp, hlo, hhi⟩ := hcorrect.2 i v rfl
  obtain ⟨y, hy, rfl, -⟩ := hs.live p n hp
  have hbounds := hs.heap.row.tiles.bounds y hy.1
  have hlimit := hs.heap.row.limit
  rw [headerOf_eq (by omega), hs.heap.row.size y hy.1] at hhi
  have hroom := hs.heap.row.room x hx
  have hapart := hs.heap.row.tiles.apart hx hy.1
  apply Buffer.le_congr
  intro j hlo' hhi'
  unfold footerAddr at hlo' hhi'
  refine update_of_ne ?_ _ _
  unfold Libc.BLOCK_SIZE at hapart
  unfold NODE_SIZE at hroom
  unfold HEADER_SIZE at *
  rcases hapart with rfl | hapart | hapart
  · omega
  · omega
  · omega

/-- **One step** of correct calls keeps the footers, too, and no assertion fails. -/
theorem Ok.step_correct (hs : s.Ok L) (hi : s.Intact L) (hh : s.halted = false) (hcorrect : s.Correct call) :
    ∃ L', (s.step call).Ok L' ∧ (s.step call).Intact L' ∧ (s.step call).halted = false := by
  by_cases hc : ∃ i v, call = .store i v
  · obtain ⟨i, v, rfl⟩ := hc
    obtain ⟨hok, hheap⟩ := hs.store hh hcorrect.1
    refine ⟨L, hok, fun x hx => ?_, ?_⟩
    · rw [hheap, ← hi x hx]
      exact hs.store_lastWord hcorrect hx.1
    · unfold Kernel.step
      rw [hh]
      rfl
  · rcases hs.exec hcorrect.1 (fun i v he => hc ⟨i, v, he⟩) with ⟨-, hnot⟩ | ⟨h', r, L', G, he, ho, -⟩
    · exact absurd hi hnot
    · obtain ⟨hok, hheap⟩ := hs.step_some hh he ho
      refine ⟨L', hok, fun x hx => ?_, ?_⟩
      · rw [hheap]
        rcases (ho.used x).1 hx with ⟨hxL, hxq⟩ | hG
        · rw [← hi x hxL]
          exact lastWord_congr hs.heap.row hxL.1 (ho.kept x hxL hxq)
        · exact ho.foot x hG fun hxL => hi x hxL
      · unfold Kernel.step
        rw [hh, he]
        rfl

theorem kernel_ok (b : Boot) : b.kernel.Ok [b.whole] ∧ b.kernel.Intact [b.whole] := by
  have hnone : ∀ x, ¬ Used [b.whole] x := fun x hx => hx.not_free (by rw [List.mem_singleton.1 hx.1]; rfl)
  exact ⟨⟨b.heap_ok.1, fun p n hp => (by cases hp), fun x hx => (hnone x hx).elim⟩, fun x hx => (hnone x hx).elim⟩

theorem run_ok (b : Boot) {calls : List HeapCall} (ha : Run.Guarded step Allowed b.kernel calls) :
    ∀ s ∈ Run.states step b.kernel calls, ∃ L, s.Ok L := by
  refine Run.states_forall (P := fun s => ∃ L, s.Ok L) (fun s c hs hc => ?_) calls b.kernel ⟨_, (kernel_ok b).1⟩ ha
  obtain ⟨L, hs⟩ := hs
  exact hs.step hc

/-- **Runs of correct calls** keep the footers, and are never stopped. -/
theorem run_correct (b : Boot) {calls : List HeapCall} (ha : Run.Guarded step Correct b.kernel calls) :
    ∀ s ∈ Run.states step b.kernel calls, ∃ L, s.Ok L ∧ s.Intact L ∧ s.halted = false := by
  refine Run.states_forall (P := fun s => ∃ L, s.Ok L ∧ s.Intact L ∧ s.halted = false) (fun s c hs hc => ?_) calls b.kernel
    ⟨_, (kernel_ok b).1, (kernel_ok b).2, rfl⟩ ha
  obtain ⟨L, hs, hi, hh⟩ := hs
  exact hs.step_correct hi hh hc

end Kernel
end EterOS.Heap
