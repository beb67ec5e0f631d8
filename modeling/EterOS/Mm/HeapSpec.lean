import EterOS.Mm.HeapSteps
import Mathlib.Data.List.Chain
/-!
# HeapSpec — what the functions of the heap do

The invariant of the heap (`HeapOk`), and what the search, `kmalloc` and `kfree` do to the row of blocks under it.
-/
namespace EterOS.Heap

open List
open Buffer (blit le digits)
open Libc (Blk Tiles)
open Function (update)

variable {m m' : Buffer} {h h' g : KHeap} {size need : Nat} {A B C L L' : List Blk} {b c x : Blk} {D : Blk → Prop}

/-! ## The invariant -/

def Free (L : List Blk) (b : Blk) : Prop := b ∈ L ∧ b.free = true

def Used (L : List Blk) (b : Blk) : Prop := b ∈ L ∧ b.free = false

theorem Used.not_free (hx : Used L x) (hf : x.free = true) : False := by
  have := hx.2
  rw [hf] at this
  exact Bool.noConfusion this

def usedBytes (L : List Blk) : Nat := (L.map fun b => if b.free then 0 else b.size + HEADER_SIZE).sum

def NotBoth (b c : Blk) : Prop := ¬ (b.free = true ∧ c.free = true)

/-- **The invariant of the heap**: the row, all free blocks and nothing else in the lists, no two of them side by side, and
the count of what is in use. -/
structure HeapOk (h : KHeap) (L : List Blk) : Prop where
  mid : Mid h L (Free L)
  apart : L.IsChain NotBoth
  used : h.memoryUsed = usedBytes L
  init : h.initialized = true

theorem usedBytes_append (A B : List Blk) : usedBytes (A ++ B) = usedBytes A + usedBytes B := by
  simp [usedBytes]

theorem usedBytes_cons (b : Blk) (B : List Blk) :
    usedBytes (b :: B) = (if b.free then 0 else b.size + HEADER_SIZE) + usedBytes B := by
  simp [usedBytes]

theorem usedBytes_le : ∀ {L : List Blk} {start stop : Nat}, Tiles start L stop → start + usedBytes L ≤ stop
  | [], _, _, ht => Nat.le_of_eq ht
  | b :: L, start, stop, ht => by
    have := usedBytes_le ht.2
    rw [usedBytes_cons]
    unfold Libc.BLOCK_SIZE at this
    unfold HEADER_SIZE
    split
    · omega
    · omega

theorem HeapOk.row (hok : HeapOk h L) : Row h.mem h.heapStart L (h.heapStart + h.memoryTotal) := hok.mid.row

theorem Mid.of_memory (hm : Mid h L D) (h1 : g.mem = h.mem) (h2 : g.freeBuckets = h.freeBuckets)
    (h3 : g.heapStart = h.heapStart) (h4 : g.memoryTotal = h.memoryTotal) : Mid g L D := by
  obtain ⟨F, hF⟩ := hm.binned
  refine ⟨?_, hm.listed, F, fun k => ?_, hF.mem⟩
  · rw [h1, h3, h4]
    exact hm.row
  · rw [h1, h2]
    exact hF.list k

/-! ## The search -/

/-- A staircase: it never goes down, and starts at `k`. -/
def Stairs (k : Nat) (f : Nat → Nat) : Prop := (∀ n n', n ≤ n' → f n ≤ f n') ∧ ∀ n, k ≤ f n

theorem Stairs.below {k : Nat} {f : Nat → Nat} (hf : Stairs (k + 1) f) (bound : Nat) :
    Stairs k (fun n => if n ≤ bound then k else f n) := by
  refine ⟨fun n n' hle => ?_, fun n => ?_⟩
  · have h1 := hf.1 n n' hle
    have h2 := hf.2 n'
    dsimp only
    split
    · split
      · exact Nat.le_refl k
      · omega
    · rw [if_neg (by omega)]
      exact h1
  · have := hf.2 n
    dsimp only
    split
    · exact Nat.le_refl k
    · omega

theorem getBucketIndex_mono {n n' : Nat} (hle : n ≤ n') : getBucketIndex n ≤ getBucketIndex n' := by
  have h9 : Stairs 9 (fun _ => 9) := ⟨fun _ _ _ => Nat.le_refl 9, fun _ => Nat.le_refl 9⟩
  have h6 := ((h9.below 8192).below 4096).below 2048
  have h3 := ((h6.below 1024).below 512).below 256
  exact (((h3.below 128).below 64).below 32).1 n n' hle

theorem getBucketIndex_lt (n : Nat) : getBucketIndex n < NUM_BUCKETS := by
  unfold getBucketIndex NUM_BUCKETS
  repeat' split
  all_goals omega

theorem findFit_eq : ∀ {l : List Nat} {p : Option Nat} {fuel : Nat},
    Dll.Seg (link m .nextFree) (link m .prevFree) p l none → l.length ≤ fuel →
    (∀ x ∈ l, x ≠ 0 ∧ get m x .isFree ≠ 0 ∧ get m x .magic = HEAP_MAGIC) →
    findFit m need fuel (addr l.head?) = some (addr (l.find? fun x => need ≤ get m x .size))
  | [], _, fuel, _, _, _ => by cases fuel <;> rfl
  | a :: l, p, 0, _, hlen, _ => by simp at hlen
  | a :: l, p, fuel + 1, hs, hlen, hl => by
    obtain ⟨h0, hfree, hmagic⟩ := hl a mem_cons_self
    have hnext : get m a .nextFree = addr l.head? := by
      rw [get_eq_addr_link, hs.2.1]
      cases l <;> rfl
    have hlen' : l.length ≤ fuel := by simpa using hlen
    have ih := findFit_eq hs.2.2 hlen' fun x hx => hl x (mem_cons_of_mem _ hx)
    rw [List.head?_cons, addr_some, findFit, if_neg h0, if_neg hfree, if_neg (not_not.2 hmagic), hnext, ih, List.find?_cons]
    by_cases hle : need ≤ get m a .size
    · simp [hle]
    · simp [hle]

theorem FreeList.find {head : Nat} {l : List Nat} (hl : FreeList m head l) {fuel : Nat} (hlen : l.length ≤ fuel)
    (hmem : ∀ x ∈ l, x ≠ 0 ∧ get m x .isFree ≠ 0 ∧ get m x .magic = HEAP_MAGIC) :
    findFit m need fuel head = some (addr (l.find? fun x => need ≤ get m x .size)) := by
  have hhead : head = addr l.head? := by rw [← hl.head, addr_ptr]
  rw [hhead]
  exact findFit_eq hl.linked.2 hlen hmem

theorem Binned.length_le {F : Nat → List Nat} {start stop : Nat} (hF : Binned h D F) (ht : Tiles start L stop)
    (hD : ∀ d, D d → d ∈ L) (k : Nat) : start + (F k).length ≤ stop := by
  have hsub : (F k).length ≤ (L.map Blk.addr).length := by
    refine (List.Nodup.subperm (hF.list k).linked.1 fun x hx => ?_).length_le
    obtain ⟨d, hd, rfl, -⟩ := (hF.mem k x).1 hx
    exact mem_map.2 ⟨d, hD d hd, rfl⟩
  have := ht.length_le
  rw [length_map] at hsub
  omega

/-- **The search is complete**: it finds a free block of the size, or there is none. -/
theorem HeapOk.search (hok : HeapOk h L) (need : Nat) : ∃ r, findBlock h need = some r ∧
      (r = 0 ∧ (∀ b, Free L b → b.size < need) ∨ ∃ b, Free L b ∧ b.addr = r ∧ r ≠ 0 ∧ need ≤ b.size) := by
  obtain ⟨F, hF⟩ := hok.mid.binned
  have hrow := hok.row
  have hmem : ∀ k, ∀ x ∈ F k, ∃ b, Free L b ∧ b.addr = x ∧ x ≠ 0 := fun k x hx => by
    obtain ⟨b, hb, rfl, -⟩ := (hF.mem k x).1 hx
    exact ⟨b, hb, rfl, (hrow.pointers _ ⟨b, hb.1, rfl⟩).1⟩
  have hfind : ∀ k, findFit h.mem need h.memoryTotal (h.freeBuckets k) =
      some (addr ((F k).find? fun x => need ≤ get h.mem x .size)) := fun k => by
    refine (hF.list k).find ?_ fun x hx => ?_
    · have := hF.length_le hrow.tiles (fun d hd => hd.1) k
      omega
    · obtain ⟨b, hb, rfl, h0⟩ := hmem k x hx
      exact ⟨h0, hrow.get_isFree hb.1 hb.2, hrow.magic b hb.1⟩
  have hsearch : ∀ ks, searchBuckets h need ks = some (addr ((ks.flatMap F).find? fun x => need ≤ get h.mem x .size)) := by
    intro ks
    induction ks with
    | nil => rfl
    | cons k ks ih =>
      rw [searchBuckets, hfind, flatMap_cons, List.find?_append]
      dsimp only
      rcases hk : (F k).find? fun x => need ≤ get h.mem x .size with _ | x
      · rw [addr_none, if_pos rfl, ih]
        rfl
      · obtain ⟨-, -, -, h0⟩ := hmem k x (mem_of_find?_eq_some hk)
        rw [addr_some, if_neg h0]
        rfl
  unfold findBlock
  dsimp only
  rw [hsearch]
  refine ⟨_, rfl, ?_⟩
  rcases hr : (List.flatMap F _).find? fun x => need ≤ get h.mem x .size with _ | x
  · refine .inl ⟨rfl, fun b hb => ?_⟩
    by_contra hle
    have hin : b.addr ∈ List.flatMap F (List.range' (getBucketIndex need) (NUM_BUCKETS - getBucketIndex need)) := by
      refine mem_flatMap.2 ⟨getBucketIndex b.size, ?_, (hF.mem _ _).2 ⟨b, hb, rfl, rfl⟩⟩
      have h1 : getBucketIndex need ≤ getBucketIndex b.size := getBucketIndex_mono (Nat.le_of_not_lt hle)
      have h2 := getBucketIndex_lt b.size
      rw [mem_range'_1]
      omega
    have := List.find?_eq_none.1 hr _ hin
    rw [hrow.size b hb.1] at this
    simp at this
    omega
  · obtain ⟨k, -, hx⟩ := mem_flatMap.1 (mem_of_find?_eq_some hr)
    obtain ⟨b, hb, rfl, h0⟩ := hmem k x hx
    have hle := List.find?_some hr
    rw [hrow.size b hb.1] at hle
    exact .inr ⟨b, hb, rfl, h0, by simpa using hle⟩

/-! ## A block is taken -/

theorem Keeps.trans {m'' : Buffer} (hk : Keeps m m' L D) (hk' : Keeps m' m'' L D) : Keeps m m'' L D :=
  fun x hx i hlo hhi hD => (hk' x hx i hlo hhi hD).trans (hk x hx i hlo hhi hD)

theorem Keeps.mono {D' : Blk → Prop} (hk : Keeps m m' L D) (hL : ∀ x ∈ L', x ∈ L) (hD : ∀ x ∈ L', D x → D' x) :
    Keeps m m' L' D' :=
  fun x hx i hlo hhi hD' => hk x (hL x hx) i hlo hhi fun hx' => hD' (hD x hx hx')

def restOf (b : Blk) (need : Nat) : Blk := ⟨b.addr + HEADER_SIZE + need, b.size - need - HEADER_SIZE, true⟩

theorem cutRow_eq : cutRow b need = [{ b with size := need }, restOf b need] := rfl

theorem Mid.split (hm : Mid g (A ++ b :: B) D) (hb : ¬ D b) (h8 : 8 ∣ need) (h16 : NODE_SIZE ≤ need)
    (hroom : need + HEADER_SIZE + NODE_SIZE ≤ b.size) :
    Mid (splitBlock g b.addr need) (A ++ (cutRow b need ++ B)) (fun d => D d ∨ d = restOf b need) ∧
    (splitBlock g b.addr need).vars = g.vars ∧
    Keeps g.mem (splitBlock g b.addr need).mem (A ++ (cutRow b need ++ B)) (fun d => D d ∨ d = restOf b need) := by
  have hfresh : ¬ D (restOf b need) := fun hd =>
    Cutting.fresh ⟨hm.row, h8, h16, hroom, rfl, rfl⟩ ⟨_, (hm.listed _ hd).1, rfl⟩
  obtain ⟨hcut, hkeep⟩ := hm.cut hb h8 h16 hroom
  obtain ⟨hadd, hvars, hkeep', -⟩ := hcut.add (b := restOf b need) (by simp [cutRow, restOf]) rfl hfresh
  unfold splitBlock
  rw [hm.row.size b (by simp), if_pos hroom]
  exact ⟨hadd, hvars, (hkeep.mono (fun _ hx => hx) fun _ _ hx => hx.elim).trans hkeep'⟩

theorem Mid.markUsed (hm : Mid g (A ++ c :: C) D) (hc : ¬ D c) (hlt : g.memoryUsed + (c.size + HEADER_SIZE) < 2 ^ 64) :
    Mid (markUsed g c.addr) (A ++ { c with free := false } :: C) D ∧
    (markUsed g c.addr).vars = (g.heapStart, g.memoryUsed + (c.size + HEADER_SIZE), g.memoryTotal, g.initialized) ∧
    (Heap.markUsed g c.addr).mem.le (footerAddr c.addr c.size) 4 = HEAP_FOOTER_MAGIC ∧
    Keeps g.mem (Heap.markUsed g c.addr).mem (A ++ C) Nowhere := by
  obtain ⟨hmark, hkeep⟩ := hm.mark hc false
  have hc' : { c with free := false } ∈ A ++ { c with free := false } :: C := by simp
  have hsize : get (put g.mem c.addr .isFree 0) c.addr .size = c.size := hmark.row.size { c with free := false } hc'
  have hroom := hm.row.room c (by simp)
  have hnot : ¬ D { c with free := false } := fun hd => by
    have := (hm.listed _ hd).2
    exact Bool.noConfusion this
  have hout : ∀ i, i < c.addr + HEADER_SIZE ∨ c.addr + HEADER_SIZE + c.size ≤ i →
      (put g.mem c.addr .isFree 0).blit (footerAddr c.addr c.size) (digits HEAP_FOOTER_MAGIC) 4 i =
      put g.mem c.addr .isFree 0 i := by
    intro i hi
    unfold footerAddr
    unfold NODE_SIZE at hroom
    rcases hi with hi | hi
    · exact Buffer.blit_of_lt (by omega)
    · exact Buffer.blit_of_ge (by omega)
  have hwrite := hmark.write (b := { c with free := false }) hc' hnot hout
  unfold Heap.markUsed KHeap.vars
  dsimp only
  rw [hsize, Nat.mod_eq_of_lt hlt]
  refine ⟨hwrite.of_memory rfl rfl rfl rfl, rfl, ?_, fun x hx i hlo hhi hD => ?_⟩
  · exact Buffer.le_blit_digits _
  · have hxL : x ∈ A ++ { c with free := false } :: C := by
      rcases mem_append.1 hx with hx | hx
      · exact mem_append_left _ hx
      · exact mem_append_right _ (mem_cons_of_mem _ hx)
    have hapart := (hm.row.elsewhere hx).2
    refine (hout i ?_).trans (hkeep x hxL i hlo hhi hD)
    omega

def taken (b : Blk) (need : Nat) : Blk :=
  ⟨b.addr, if need + HEADER_SIZE + NODE_SIZE ≤ b.size then need else b.size, false⟩

def leftover (b : Blk) (need : Nat) : List Blk :=
  if need + HEADER_SIZE + NODE_SIZE ≤ b.size then [restOf b need] else []

/-- What taking a block does: the row it leaves, the footer of the block, and the payloads of the others. -/
structure Takes (h h' : KHeap) (A : List Blk) (b : Blk) (B : List Blk) (need : Nat) : Prop where
  ok : HeapOk h' (A ++ taken b need :: (leftover b need ++ B))
  place : h'.heapStart = h.heapStart ∧ h'.memoryTotal = h.memoryTotal
  footer : h'.mem.le (footerAddr b.addr (taken b need).size) 4 = HEAP_FOOTER_MAGIC
  keeps : Keeps h.mem h'.mem (A ++ (leftover b need ++ B)) (fun x => x.free = true)

theorem notBoth_around (hL : (A ++ b :: B).IsChain NotBoth) (hfree : b.free = true) :
    (∀ x, A.getLast? = some x → x.free = false) ∧ ∀ x, B.head? = some x → x.free = false := by
  rw [isChain_append] at hL
  obtain ⟨-, hB, hAb⟩ := hL
  refine ⟨fun x hx => ?_, fun x hx => ?_⟩
  · have := hAb x hx b rfl
    unfold NotBoth at this
    simpa [hfree] using this
  · cases B with
    | nil => cases hx
    | cons c C =>
      obtain rfl : c = x := by simpa using hx
      have := (isChain_cons_cons.1 hB).1
      unfold NotBoth at this
      simpa [hfree] using this

theorem notBoth_left (hb : b.free = false) : NotBoth b c := fun h => by
  rw [hb] at h
  exact Bool.noConfusion h.1

theorem notBoth_right (hc : c.free = false) : NotBoth b c := fun h => by
  rw [hc] at h
  exact Bool.noConfusion h.2

theorem KHeap.vars_eq (hv : g.vars = h.vars) : g.heapStart = h.heapStart ∧ g.memoryUsed = h.memoryUsed ∧
    g.memoryTotal = h.memoryTotal ∧ g.initialized = h.initialized := by
  simpa [KHeap.vars] using hv

theorem HeapOk.used_lt (hok : HeapOk h L) (hx : x ∈ L) : h.memoryUsed + (x.size + HEADER_SIZE) < 2 ^ 64 := by
  have hused := usedBytes_le hok.row.tiles
  have hbounds := hok.row.tiles.bounds x hx
  have hlimit := hok.row.limit
  rw [hok.used]
  unfold HEADER_SIZE
  omega

theorem HeapOk.takes (hok : HeapOk h (A ++ b :: B)) (hfree : b.free = true) {R : List Blk}
    (hg : Mid g (A ++ c :: (R ++ B)) D)
    (hc : ¬ D c) (hD : ∀ d, D d ↔ d ∈ A ++ (R ++ B) ∧ d.free = true) (hv : g.vars = h.vars) (hle : c.size ≤ b.size)
    (hkeep : Keeps h.mem g.mem (A ++ (R ++ B)) (fun x => x.free = true)) (hR : R = [] ∨ ∃ r, R = [r] ∧ r.free = true) :
    HeapOk (markUsed g c.addr) (A ++ { c with free := false } :: (R ++ B)) ∧
    ((markUsed g c.addr).heapStart = h.heapStart ∧ (markUsed g c.addr).memoryTotal = h.memoryTotal) ∧
    (markUsed g c.addr).mem.le (footerAddr c.addr c.size) 4 = HEAP_FOOTER_MAGIC ∧
    Keeps h.mem (markUsed g c.addr).mem (A ++ (R ++ B)) (fun x => x.free = true) := by
  obtain ⟨hv1, hv2, hv3, hv4⟩ := KHeap.vars_eq hv
  have hlt := hok.used_lt (x := b) (by simp)
  obtain ⟨hm, hvars, hfooter, hkeep'⟩ := hg.markUsed hc (by rw [hv2]; omega)
  simp only [KHeap.vars, Prod.mk.injEq, hv1, hv2, hv3, hv4] at hvars
  obtain ⟨hA, hB⟩ := notBoth_around hok.apart hfree
  obtain ⟨hchA, hchB, -⟩ := isChain_append.1 hok.apart
  have hRB : (R ++ B).IsChain NotBoth := by
    have hchB' : B.IsChain NotBoth := hchB.tail
    rcases hR with rfl | ⟨r, rfl, -⟩
    · exact hchB'
    · exact isChain_append.2 ⟨.singleton r, hchB', fun x _ y hy => notBoth_right (hB y hy)⟩
  have hused : usedBytes (R ++ B) = usedBytes B := by
    rcases hR with rfl | ⟨r, rfl, hr⟩
    · rfl
    · rw [usedBytes_append, usedBytes_cons, hr]
      simp [usedBytes]
  refine ⟨⟨hm.mono fun d => ?_, ?_, ?_, ?_⟩, ⟨hvars.1, hvars.2.2.1⟩, hfooter,
    hkeep.trans (hkeep'.mono (fun _ hx => hx) fun _ _ hx => hx.elim)⟩
  · rw [hD]
    unfold Free
    simp only [mem_append, mem_cons]
    constructor
    · rintro ⟨hd | hd, hfd⟩
      · exact ⟨.inl hd, hfd⟩
      · exact ⟨.inr (.inr hd), hfd⟩
    · rintro ⟨hd | rfl | hd, hfd⟩
      · exact ⟨.inl hd, hfd⟩
      · exact Bool.noConfusion hfd
      · exact ⟨.inr hd, hfd⟩
  · refine isChain_append.2 ⟨hchA, isChain_cons.2 ⟨fun y _ => notBoth_left rfl, hRB⟩, fun x hx y hy => ?_⟩
    exact notBoth_left (hA x hx)
  · rw [hvars.2.1, hok.used, usedBytes_append, usedBytes_append, usedBytes_cons, usedBytes_cons, hused, hfree]
    simp only [if_true]
    simp
    omega
  · rw [hvars.2.2.2, hok.init]

theorem HeapOk.take (hok : HeapOk h (A ++ b :: B)) (hfree : b.free = true) (h8 : 8 ∣ need) (h16 : NODE_SIZE ≤ need)
    (hle : need ≤ b.size) : Takes h (takeBlock h b.addr need) A b B need := by
  have hbL : b ∈ A ++ b :: B := by simp
  obtain ⟨hrem, hvars, hkeep, -⟩ := hok.mid.remove (b := b) ⟨hbL, hfree⟩
  have hbnot : ¬ (Free (A ++ b :: B) b ∧ b ≠ b) := fun hd => hd.2 rfl
  -- The blocks of the row other than `b`, and those listed after it went.
  have hne : ∀ x ∈ A ++ B, x ∈ A ++ b :: B ∧ x ≠ b := fun x hx =>
    ⟨(hok.row.elsewhere hx).1, fun he => hok.row.ne_of_elsewhere hx (by rw [he])⟩
  have hmem : ∀ d, Free (A ++ b :: B) d ∧ d ≠ b ↔ d ∈ A ++ B ∧ d.free = true := by
    intro d
    constructor
    · rintro ⟨⟨hd, hfd⟩, hdb⟩
      simp only [mem_append, mem_cons, hdb, false_or] at hd
      exact ⟨mem_append.2 hd, hfd⟩
    · rintro ⟨hd, hfd⟩
      exact ⟨⟨(hne d hd).1, hfd⟩, (hne d hd).2⟩
  have hkeepAB : Keeps h.mem (removeFromFreeList h b.addr).mem (A ++ B) (fun x => x.free = true) :=
    hkeep.mono (fun x hx => (hne x hx).1) fun x _ hx => hx.2
  unfold takeBlock
  by_cases hroom : need + HEADER_SIZE + NODE_SIZE ≤ b.size
  · obtain ⟨hs, hsv, hsk⟩ := hrem.split hbnot h8 h16 hroom
    have hnot : ¬ ((Free (A ++ b :: B) { b with size := need } ∧ { b with size := need } ≠ b) ∨
        { b with size := need } = restOf b need) := by
      rintro (⟨⟨hd, -⟩, hdb⟩ | he)
      · exact hdb (hok.row.distinct hd hbL rfl)
      · have := congrArg Blk.addr he
        unfold restOf HEADER_SIZE at this
        dsimp only at this
        omega
    have hD : ∀ d, (Free (A ++ b :: B) d ∧ d ≠ b) ∨ d = restOf b need ↔ d ∈ A ++ ([restOf b need] ++ B) ∧ d.free = true := by
      intro d
      rw [hmem]
      simp only [mem_append, mem_singleton]
      constructor
      · rintro (⟨hd | hd, hfd⟩ | rfl)
        · exact ⟨.inl hd, hfd⟩
        · exact ⟨.inr (.inr hd), hfd⟩
        · exact ⟨.inr (.inl rfl), rfl⟩
      · rintro ⟨hd | rfl | hd, hfd⟩
        · exact .inl ⟨.inl hd, hfd⟩
        · exact .inr rfl
        · exact .inl ⟨.inr hd, hfd⟩
    have hcut : ∀ x ∈ A ++ ([restOf b need] ++ B), x ∈ A ++ (cutRow b need ++ B) := fun x hx => by
      simp only [cutRow_eq, mem_append, mem_cons, not_mem_nil, or_false] at hx ⊢
      tauto
    have hkeep1 : Keeps h.mem (removeFromFreeList h b.addr).mem (A ++ ([restOf b need] ++ B)) (fun x => x.free = true) := by
      intro x hx i hlo hhi hD
      by_cases hxr : x = restOf b need
      · subst hxr
        -- The rest lies in the payload of the block, behind its node.
        unfold restOf at hlo hhi
        dsimp only at hlo hhi
        refine hkeep b hbL i ?_ ?_ fun _ => ?_
        · unfold HEADER_SIZE at *
          omega
        · unfold HEADER_SIZE NODE_SIZE at *
          omega
        · unfold HEADER_SIZE NODE_SIZE at *
          omega
      · refine hkeepAB x ?_ i hlo hhi hD
        simp only [mem_append, mem_singleton, hxr, false_or] at hx
        exact mem_append.2 hx
    have hkeep2 := hkeep1.trans (hsk.mono hcut fun x hx hd => ((hD x).1 hd).2)
    obtain ⟨hok', hplace, hfooter, hkeep'⟩ :=
      hok.takes (c := { b with size := need }) (R := [restOf b need]) hfree hs hnot hD
      (hsv.trans hvars) hle hkeep2 (.inr ⟨_, rfl, rfl⟩)
    have htaken : taken b need = ⟨b.addr, need, false⟩ := by rw [taken, if_pos hroom]
    have hleft : leftover b need = [restOf b need] := by rw [leftover, if_pos hroom]
    refine ⟨?_, hplace, ?_, ?_⟩
    · rw [htaken, hleft]
      exact hok'
    · rw [htaken]
      exact hfooter
    · rw [hleft]
      exact hkeep'
  · have hsplit : splitBlock (removeFromFreeList h b.addr) b.addr need = removeFromFreeList h b.addr := by
      unfold splitBlock
      rw [hrem.row.size b hbL, if_neg hroom]
    obtain ⟨hok', hplace, hfooter, hkeep'⟩ :=
      hok.takes (c := b) (R := []) hfree hrem hbnot hmem hvars (Nat.le_refl _) hkeepAB
      (.inl rfl)
    have htaken : taken b need = ⟨b.addr, b.size, false⟩ := by rw [taken, if_neg hroom]
    have hleft : leftover b need = [] := by rw [leftover, if_neg hroom]
    rw [hsplit]
    refine ⟨?_, hplace, ?_, ?_⟩
    · rw [htaken, hleft]
      exact hok'
    · rw [htaken]
      exact hfooter
    · rw [hleft]
      exact hkeep'

/-! ## A block is given back -/

def joined (b c : Blk) : Blk := { b with size := b.size + (HEADER_SIZE + c.size) }

theorem Mid.not_listed (hm : Mid g (A ++ c :: B) D) (hD : ∀ d, D d ↔ d ∈ A ++ B ∧ d.free = true) : ¬ D c :=
  fun hd => hm.row.ne_of_elsewhere ((hD c).1 hd).1 rfl

theorem Mid.join (hm : Mid g (A ++ b :: c :: B) D) (hb : ¬ D b) (hc : ¬ D c) :
    ∃ m', Heap.absorb g.mem b.addr c.addr = m' ∧ Mid { g with mem := m' } (A ++ joined b c :: B) D ∧
      Keeps g.mem m' (A ++ joined b c :: B) Nowhere :=
  ⟨_, rfl, hm.absorb hb hc⟩

theorem mem_around (hx : x ∈ A ++ B) : x ∈ A ++ b :: B := by
  rcases mem_append.1 hx with hx | hx
  · exact mem_append_left _ hx
  · exact mem_append_right _ (mem_cons_of_mem _ hx)

theorem mem_around_two (hx : x ∈ A ++ B) : x ∈ A ++ b :: c :: B := by
  rcases mem_append.1 hx with hx | hx
  · exact mem_append_left _ hx
  · exact mem_append_right _ (mem_cons_of_mem _ (mem_cons_of_mem _ hx))

theorem free_without {L1 L2 : List Blk} (hD : ∀ d, D d ↔ d ∈ L1 ∧ d.free = true) (hL : ∀ d, d ∈ L1 ∧ d ≠ c ↔ d ∈ L2)
    (d : Blk) :
    D d ∧ d ≠ c ↔ d ∈ L2 ∧ d.free = true := by
  rw [hD, ← hL]
  tauto

/-- **The first merge**: the next block, where it is free. -/
theorem Mid.mergeNext (hm : Mid g (A ++ c :: B) D) (hD : ∀ d, D d ↔ d ∈ A ++ B ∧ d.free = true) :
    (mergeNext g c.addr = some g ∧ ∀ x ∈ B.head?, x.free = false) ∨
    ∃ n B' g', B = n :: B' ∧ n.free = true ∧ Heap.mergeNext g c.addr = some g' ∧
      Mid g' (A ++ joined c n :: B') (fun d => d ∈ A ++ B' ∧ d.free = true) ∧ g'.vars = g.vars ∧
      Keeps g.mem g'.mem (A ++ B') (fun x => x.free = true) ∧
      ∀ i, n.addr + HEADER_SIZE + NODE_SIZE ≤ i → i < n.addr + HEADER_SIZE + n.size → g'.mem i = g.mem i := by
  have hnext := hm.row.next_eq
  have hnot := hm.not_listed hD
  unfold Heap.mergeNext
  dsimp only
  rw [hnext]
  cases B with
  | nil => exact .inl ⟨by simp, fun x hx => by cases hx⟩
  | cons n B' =>
    have hnL : n ∈ A ++ c :: n :: B' := by simp
    have hn0 : n.addr ≠ 0 := (hm.row.pointers _ ⟨n, hnL, rfl⟩).1
    simp only [map_cons, List.head?_cons, addr_some, hn0, ne_eq, not_false_eq_true, true_and, hm.row.isFree n hnL,
      hm.row.magic n hnL, not_true_eq_false, if_false]
    by_cases hfree : n.free = true
    · rw [if_pos (by simp [hfree])]
      have hDn : D n := (hD n).2 ⟨by simp, hfree⟩
      obtain ⟨hrem, hvars, hkeep, -⟩ := hm.remove hDn
      obtain ⟨m', hm', habs, hkeep'⟩ := hrem.join (fun hd => hnot hd.1) (fun hd => hd.2 rfl)
      have hrow' : Row g.mem g.heapStart ((A ++ [c]) ++ n :: B') (g.heapStart + g.memoryTotal) := by simpa using hm.row
      have hmem : ∀ d, D d ∧ d ≠ n ↔ d ∈ A ++ B' ∧ d.free = true := by
        refine free_without hD fun d => ?_
        simp only [mem_append, mem_cons]
        constructor
        · rintro ⟨hd | rfl | hd, hdn⟩
          · exact .inl hd
          · exact absurd rfl hdn
          · exact .inr hd
        · rintro (hd | hd)
          · exact ⟨.inl hd, fun he => hrow'.ne_of_elsewhere (x := d) (by simp [hd]) (by rw [he])⟩
          · exact ⟨.inr (.inr hd), fun he => hrow'.ne_of_elsewhere (x := d) (by simp [hd]) (by rw [he])⟩
      rw [hm']
      refine .inr ⟨n, B', _, rfl, hfree, rfl, habs.mono hmem, (vars_mem _ _).trans hvars, ?_, fun i hlo hhi => ?_⟩
      · exact (hkeep.mono (fun x hx => mem_around_two hx) fun x _ hd => ((hD x).1 hd).2).trans
          (hkeep'.mono (fun x hx => mem_around hx) fun x _ hd => hd.elim)
      · have htiles := hm.row.tiles.around.2.1 n (by simp)
        have htiles' : n.addr = c.addr + HEADER_SIZE + c.size := by
          obtain ⟨mid, -, rfl, hn, -⟩ := Libc.tiles_append.1 hm.row.tiles
          exact hn
        have h2 := hkeep' (joined c n) (by simp [joined]) i (by unfold joined; dsimp only; omega)
          (by unfold joined; dsimp only; omega) (fun hd => hd.elim)
        have h1 := hkeep n hnL i (by omega) hhi fun _ => hlo
        exact h2.trans h1
    · rw [if_neg (by simp [hfree])]
      exact .inl ⟨rfl, fun x hx => by
        obtain rfl : n = x := by simpa using hx
        simpa using hfree⟩

/-- **The second merge**: the block before, where it is free; and what there is then is listed. -/
theorem Mid.mergePrev (hm : Mid g (A ++ c :: B) D) (hD : ∀ d, D d ↔ d ∈ A ++ B ∧ d.free = true) (hc : c.free = true) :
    (∃ g', mergePrev g c.addr = some g' ∧ (∀ x ∈ A.getLast?, x.free = false) ∧ Mid g' (A ++ c :: B) (Free (A ++ c :: B)) ∧
      g'.vars = g.vars ∧ Keeps g.mem g'.mem (A ++ c :: B) (fun x => x.free = true)) ∨
    ∃ p A' g', A = A' ++ [p] ∧ p.free = true ∧ Heap.mergePrev g c.addr = some g' ∧
      Mid g' (A' ++ joined p c :: B) (Free (A' ++ joined p c :: B)) ∧ g'.vars = g.vars ∧
      Keeps g.mem g'.mem (A' ++ B) (fun x => x.free = true) ∧
      ∀ i, c.addr + HEADER_SIZE ≤ i → i < c.addr + HEADER_SIZE + c.size → g'.mem i = g.mem i := by
  have hprev := hm.row.prev_eq
  have hnot := hm.not_listed hD
  have hlisted : ∀ {A1 : List Blk} {z : Blk}, z.free = true → ∀ d,
      (d ∈ A1 ++ B ∧ d.free = true) ∨ d = z ↔ Free (A1 ++ z :: B) d := by
    intro A1 z hz d
    unfold Free
    simp only [mem_append, mem_cons]
    constructor
    · rintro (⟨hd | hd, hfd⟩ | rfl)
      · exact ⟨.inl hd, hfd⟩
      · exact ⟨.inr (.inr hd), hfd⟩
      · exact ⟨.inr (.inl rfl), hz⟩
    · rintro ⟨hd | rfl | hd, hfd⟩
      · exact .inl ⟨.inl hd, hfd⟩
      · exact .inr rfl
      · exact .inl ⟨.inr hd, hfd⟩
  -- Where nothing is merged the block itself is listed.
  have halone : (∀ x ∈ A.getLast?, x.free = false) → Heap.mergePrev g c.addr = some (addToFreeList g c.addr) →
      ∃ g', Heap.mergePrev g c.addr = some g' ∧ (∀ x ∈ A.getLast?, x.free = false) ∧
      Mid g' (A ++ c :: B) (Free (A ++ c :: B)) ∧
      g'.vars = g.vars ∧ Keeps g.mem g'.mem (A ++ c :: B) (fun x => x.free = true) := by
    intro hlast he
    obtain ⟨hadd, hvars, hkeep, -⟩ := hm.add (b := c) (by simp) hc hnot
    have hmem : ∀ d, D d ∨ d = c ↔ Free (A ++ c :: B) d := fun d => by rw [hD, hlisted hc]
    exact ⟨_, he, hlast, hadd.mono hmem, hvars, hkeep.mono (fun _ hx => hx) fun x _ hd => ((hmem x).1 hd).2⟩
  rcases eq_nil_or_concat A with rfl | ⟨A', p, rfl⟩
  · refine .inl (halone (fun x hx => by cases hx) ?_)
    unfold Heap.mergePrev
    dsimp only
    rw [hprev]
    simp
  · simp only [concat_eq_append] at *
    have hrow' : Row g.mem g.heapStart (A' ++ p :: c :: B) (g.heapStart + g.memoryTotal) := by simpa using hm.row
    have hpL : p ∈ A' ++ [p] ++ c :: B := by simp
    have hp0 : p.addr ≠ 0 := (hm.row.pointers _ ⟨p, hpL, rfl⟩).1
    by_cases hfree : p.free = true
    · have hm' : Mid g (A' ++ p :: c :: B) D := by simpa using hm
      have hDp : D p := (hD p).2 ⟨by simp, hfree⟩
      obtain ⟨hrem, hvars, hkeep, -⟩ := hm'.remove hDp
      obtain ⟨m', hjoin, habs, hkeep'⟩ := hrem.join (fun hd => hd.2 rfl) (fun hd => hnot hd.1)
      have hnew : ¬ (D (joined p c) ∧ joined p c ≠ p) := fun hd => by
        have hin := (hm'.listed _ hd.1).1
        exact hd.2 (hrow'.distinct hin (by simp) rfl)
      obtain ⟨hadd, hvars', hkeep'', -⟩ := habs.add (b := joined p c) (by simp [joined]) hfree hnew
      have hmem : ∀ d, (D d ∧ d ≠ p) ∨ d = joined p c ↔ Free (A' ++ joined p c :: B) d := by
        intro d
        rw [← @hlisted A' (joined p c) hfree]
        refine or_congr_left (free_without hD (fun d => ?_) d)
        simp only [mem_append, mem_singleton]
        constructor
        · rintro ⟨(hd | rfl) | hd, hdp⟩
          · exact .inl hd
          · exact absurd rfl hdp
          · exact .inr hd
        · rintro (hd | hd)
          · exact ⟨.inl (.inl hd), fun he => hrow'.ne_of_elsewhere (x := d) (by simp [hd]) (by rw [he])⟩
          · exact ⟨.inr hd, fun he => hrow'.ne_of_elsewhere (x := d) (by simp [hd]) (by rw [he])⟩
      have heq : Heap.mergePrev g c.addr = some (addToFreeList
          { removeFromFreeList g p.addr with mem := m' } p.addr) := by
        unfold Heap.mergePrev
        dsimp only
        rw [hprev, ← hjoin]
        simp [hp0, hm.row.isFree p hpL, hm.row.magic p hpL, hfree]
      refine .inr ⟨p, A', _, rfl, hfree, heq, hadd.mono hmem, hvars'.trans ((vars_mem _ _).trans hvars), ?_,
        fun i hlo hhi => ?_⟩
      · have hk1 : Keeps g.mem _ (A' ++ B) (fun x => x.free = true) :=
          hkeep.mono (fun x hx => mem_around_two hx) fun x _ hd => ((hD x).1 hd).2
        have hk2 : Keeps _ m' (A' ++ B) (fun x => x.free = true) :=
          hkeep'.mono (fun x hx => mem_around hx) fun x _ hd => hd.elim
        have hk3 : Keeps m' _ (A' ++ B) (fun x => x.free = true) := hkeep''.mono
          (fun x hx => mem_around hx) fun x _ hd => ((hmem x).1 hd).2
        exact (hk1.trans hk2).trans hk3
      · have hcp : c.addr = p.addr + HEADER_SIZE + p.size := by
          obtain ⟨mid, -, rfl, hc, -⟩ := Libc.tiles_append.1 hrow'.tiles
          exact hc
        have hps := hrow'.room p (by simp)
        have hin : joined p c ∈ A' ++ joined p c :: B := by simp
        have h1 := hkeep c (by simp) i hlo hhi fun hd => (hnot hd).elim
        have h2 := hkeep' (joined p c) hin i (by unfold joined; dsimp only; omega) (by unfold joined; dsimp only; omega)
          (fun hd => hd.elim)
        have h3 := hkeep'' (joined p c) hin i (by unfold joined; dsimp only; omega) (by unfold joined; dsimp only; omega)
          (fun _ => by unfold joined; dsimp only; omega)
        exact h3.trans (h2.trans h1)
    · refine .inl (halone (fun x hx => ?_) ?_)
      · obtain rfl : p = x := by simpa using hx
        simpa using hfree
      · unfold Heap.mergePrev
        dsimp only
        rw [hprev]
        simp [hp0, hm.row.isFree p hpL, hfree]

end EterOS.Heap
