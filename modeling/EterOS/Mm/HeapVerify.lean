import EterOS.Mm.HeapRun
/-!
# HeapVerify — what the walks over the heap see

The blocks along `next` are those of the row and a bucket's list holds what it should; `mm_verify_heap` comes to the end of
the row where the last word of every block, free ones included, is the magic number of a footer.
-/
namespace EterOS.Heap

open Libc (Blk Tiles)

variable {m : Buffer} {h : KHeap} {start stop size fuel : Nat} {B L L' : List Blk} {b c x : Blk} {f : Fld}

/-! ## Walks -/

/-- The blocks that a link leads to, from one on; `fuel` bounds the walk. -/
def walk (m : Buffer) (f : Fld) : Nat → Nat → List Nat
  | 0, _ => []
  | fuel + 1, a => if a = 0 then [] else a :: walk m f fuel (get m a f)

def KHeap.blocks (h : KHeap) : List Nat := walk h.mem .next (h.memoryTotal + 1) h.heapStart

def KHeap.bucket (h : KHeap) (k : Nat) : List Nat := walk h.mem .nextFree (h.memoryTotal + 1) (h.freeBuckets k)

theorem walk_eq {prev : Nat → Option Nat} : ∀ {l : List Nat} {p : Option Nat} {fuel : Nat},
    Dll.Seg (link m f) prev p l none → l.length < fuel → (∀ x ∈ l, x ≠ 0) → walk m f fuel (addr l.head?) = l
  | _, _, 0, _, hlen, _ => absurd hlen (Nat.not_lt_zero _)
  | [], _, _ + 1, _, _, _ => rfl
  | a :: l, _, fuel + 1, hs, hlen, hl => by
    have hnext : get m a f = addr l.head? := by
      rw [get_eq_addr_link, hs.2.1]
      cases l <;> rfl
    have hlen' : l.length < fuel := by simpa using hlen
    have ih := walk_eq hs.2.2 hlen' fun x hx => hl x (List.mem_cons_of_mem _ hx)
    rw [List.head?_cons, addr_some, walk, if_neg (hl a List.mem_cons_self), hnext, ih]

theorem Row.head (h : Row m start L stop) : addr (L.map Blk.addr).head? = start := by
  have hsome := h.proper
  have htiles := h.tiles
  cases L with
  | nil => exact absurd htiles hsome.ne
  | cons b B => exact htiles.1

theorem HeapOk.blocks (hok : HeapOk h L) : h.blocks = L.map Blk.addr := by
  have hrow := hok.row
  have hlen := hrow.tiles.length_le
  unfold KHeap.blocks
  rw [← hrow.head]
  refine walk_eq hrow.linked.2 (by rw [List.length_map]; omega) fun x hx => ?_
  exact (hrow.pointers x (mem_map_addr.1 hx)).1

theorem HeapOk.mem_blocks (hok : HeapOk h L) {a : Nat} : a ∈ h.blocks ↔ ∃ x ∈ L, x.addr = a := by
  rw [hok.blocks, List.mem_map]

def blockAt (m : Buffer) (a : Nat) : Blk := ⟨a, get m a .size, get m a .isFree ≠ 0⟩

theorem HeapOk.row_eq (hok : HeapOk h L) : L = h.blocks.map (blockAt h.mem) := by
  have hid : ∀ x ∈ L, blockAt h.mem x.addr = x := fun x hx => by
    have hfree := hok.row.isFree x hx
    unfold blockAt
    rw [hok.row.size x hx, hfree]
    obtain ⟨a, n, f⟩ := x
    cases f <;> rfl
  rw [hok.blocks, List.map_map]
  conv_lhs => rw [← List.map_id L]
  exact List.map_congr_left fun x hx => (hid x hx).symm

theorem HeapOk.unique (hok : HeapOk h L) (hok' : HeapOk h L') : L = L' := by rw [hok.row_eq, hok'.row_eq]

/-- **Every free block is in the list of its size**, and nothing else is. -/
theorem HeapOk.bucket (hok : HeapOk h L) (k : Nat) :
    (h.bucket k).Nodup ∧ ∀ a, a ∈ h.bucket k ↔ ∃ x, Free L x ∧ x.addr = a ∧ getBucketIndex x.size = k := by
  obtain ⟨F, hF⟩ := hok.mid.binned
  have hrow := hok.row
  have hlen := hF.length_le hrow.tiles (fun d hd => hd.1) k
  have he : h.bucket k = F k := by
    unfold KHeap.bucket
    rw [show h.freeBuckets k = addr (F k).head? by rw [← (hF.list k).head, addr_ptr]]
    refine walk_eq (hF.list k).linked.2 (by omega) fun x hx => ?_
    obtain ⟨d, hd, rfl, -⟩ := (hF.mem k x).1 hx
    exact (hrow.pointers _ ⟨d, hd.1, rfl⟩).1
  rw [he]
  exact ⟨(hF.list k).linked.1, hF.mem k⟩

theorem verifyFrom_spec : ∀ {L : List Blk} {p : Option Nat} {fuel : Nat},
    Dll.Seg (link m .next) (link m .prev) p (L.map Blk.addr) none → L.length < fuel →
    (∀ x ∈ L, x.addr ≠ 0 ∧ get m x.addr .size = x.size ∧ get m x.addr .magic = HEAP_MAGIC) →
    ((∀ x ∈ L, lastWord m x = HEAP_FOOTER_MAGIC) → verifyFrom m fuel (addr (L.map Blk.addr).head?) = some (L.map Blk.addr)) ∧
    (¬ (∀ x ∈ L, lastWord m x = HEAP_FOOTER_MAGIC) → verifyFrom m fuel (addr (L.map Blk.addr).head?) = none)
  | _, _, 0, _, hlen, _ => absurd hlen (Nat.not_lt_zero _)
  | [], _, _ + 1, _, _, _ => ⟨fun _ => rfl, fun h => absurd (fun x hx => by cases hx) h⟩
  | b :: L, p, fuel + 1, hs, hlen, hL => by
    obtain ⟨h0, hsize, hmagic⟩ := hL b List.mem_cons_self
    have hnext : get m b.addr .next = addr (L.map Blk.addr).head? := by
      rw [get_eq_addr_link, hs.2.1]
      cases L <;> rfl
    have hback : ¬ (get m b.addr .next ≠ 0 ∧ get m (get m b.addr .next) .prev ≠ b.addr) := by
      rw [hnext]
      cases L with
      | nil => simp
      | cons c L =>
        have hprev : link m .prev c.addr = some b.addr := hs.2.2.1
        have : get m c.addr .prev = b.addr := by rw [get_eq_addr_link, hprev, addr_some]
        simp [this]
    have hlen' : L.length < fuel := by simpa using hlen
    obtain ⟨hgood, hbad⟩ := verifyFrom_spec hs.2.2 hlen' fun x hx => hL x (List.mem_cons_of_mem _ hx)
    rw [List.map_cons, List.head?_cons, addr_some, verifyFrom, if_neg h0, if_neg (not_not.2 hmagic), hsize, if_neg hback]
    constructor
    · intro hall
      have hb : m.le (footerAddr b.addr b.size) 4 = HEAP_FOOTER_MAGIC := hall b List.mem_cons_self
      rw [if_neg (not_not.2 hb), hnext, hgood fun x hx => hall x (List.mem_cons_of_mem _ hx)]
      rfl
    · intro hnot
      by_cases hb : m.le (footerAddr b.addr b.size) 4 = HEAP_FOOTER_MAGIC
      · rw [if_neg (not_not.2 hb), hnext, hbad fun hall => hnot fun x hx => ?_]
        · rfl
        · rcases List.mem_cons.1 hx with rfl | hx
          · exact hb
          · exact hall x hx
      · rw [if_pos hb]

/-- **`mm_verify_heap`** walks over all blocks where each has a footer, and fails an assertion where one has none. -/
theorem HeapOk.verify (hok : HeapOk h L) :
    ((∀ x ∈ L, lastWord h.mem x = HEAP_FOOTER_MAGIC) → mmVerifyHeap h = some h.blocks) ∧
    (¬ (∀ x ∈ L, lastWord h.mem x = HEAP_FOOTER_MAGIC) → mmVerifyHeap h = none) := by
  have hrow := hok.row
  have hlen : L.length < h.memoryTotal + 1 := by
    have := hrow.tiles.length_le
    omega
  have hinit : ¬ (h.heapStart = 0 ∨ h.initialized = false) := by
    rw [hok.init]
    simp [hrow.pos.ne']
  have hspec := verifyFrom_spec hrow.linked.2 hlen
    fun x hx => ⟨(hrow.pointers _ ⟨x, hx, rfl⟩).1, hrow.size x hx, hrow.magic x hx⟩
  unfold mmVerifyHeap
  rw [if_neg hinit, hok.blocks, ← hrow.head]
  exact hspec

end EterOS.Heap
