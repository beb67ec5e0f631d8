import EterOS.Mm.HeapRow
/-!
# HeapSteps — the row and the free lists together

In the middle of an operation a free block may be in no list: `Mid` has the row, and the blocks that are listed.  Each step
of `kmalloc` and `kfree` takes it to another, and leaves the payloads alone but for the nodes of listed blocks (`Keeps`).
-/
namespace EterOS.Heap

open Buffer (blit le digits)
open Libc (Blk Tiles)
open Function (update)

variable {m m' : Buffer} {h h' : KHeap} {start stop size : Nat} {A B L L' : List Blk} {b c : Blk} {D D' : Blk → Prop}
    {N : Nat → Prop} {F : Nat → List Nat}

/-! ## What stays of the payloads -/

/-- The payloads of the blocks of `L` stay, but for the nodes of those that are `D`. -/
def Keeps (m m' : Buffer) (L : List Blk) (D : Blk → Prop) : Prop :=
  ∀ x ∈ L, ∀ i, x.addr + HEADER_SIZE ≤ i → i < x.addr + HEADER_SIZE + x.size → (D x → x.addr + HEADER_SIZE + NODE_SIZE ≤ i) →
    m' i = m i

def Nowhere (_ : Blk) : Prop := False

theorem keeps_of_header (ht : Tiles start L stop) (hw : Writes m m' (At L) (fun _ => False)) : Keeps m m' L Nowhere := by
  intro x hx i hlo hhi _
  refine hw i (fun a ha => ?_) fun a ha => ha.elim
  obtain ⟨y, hy, rfl⟩ := ha
  have hout := ht.outside (i := i) ⟨x, hx, hlo, hhi⟩ hy
  unfold Libc.BLOCK_SIZE at hout
  exact hout

theorem keeps_of_node (ht : Tiles start L stop) (hroom : ∀ b ∈ L, NODE_SIZE ≤ b.size) (hD : ∀ d, D d → d ∈ L)
    (hw : Writes m m' (fun _ => False) (fun x => ∃ d, D d ∧ d.addr = x)) : Keeps m m' L D := by
  intro x hx i hlo hhi hi
  refine hw i (fun a ha => ha.elim) fun a ha => ?_
  obtain ⟨d, hd, rfl⟩ := ha
  have hds := hroom d (hD d hd)
  have hapart := ht.apart hx (hD d hd)
  unfold Libc.BLOCK_SIZE at hapart
  unfold HEADER_SIZE NODE_SIZE at *
  rcases hapart with rfl | hapart | hapart
  · have := hi hd
    omega
  · omega
  · omega

/-! ## The middle of an operation -/

structure Mid (h : KHeap) (L : List Blk) (D : Blk → Prop) : Prop where
  row : Row h.mem h.heapStart L (h.heapStart + h.memoryTotal)
  listed : ∀ d, D d → d ∈ L ∧ d.free = true
  binned : ∃ F, Binned h D F

def KHeap.vars (h : KHeap) : Nat × Nat × Nat × Bool := (h.heapStart, h.memoryUsed, h.memoryTotal, h.initialized)

theorem vars_mem (h : KHeap) (m : Buffer) : KHeap.vars { h with mem := m } = h.vars := rfl

theorem Relinks.vars {P : Nat → Prop} (hr : Relinks P N h h') : h'.vars = h.vars := by
  rw [hr.same]
  rfl

theorem Mid.mono (hm : Mid h L D) (hD : ∀ d, D d ↔ D' d) : Mid h L D' := by
  have he : D = D' := funext fun d => propext (hD d)
  rw [← he]
  exact hm

theorem Mid.distinct (hm : Mid h L D) : Distinct D := fun d e hd he => hm.row.distinct (hm.listed d hd).1 (hm.listed e he).1

theorem Row.get_isFree (hr : Row m start L stop) (hb : b ∈ L) (hfree : b.free = true) : get m b.addr .isFree ≠ 0 := by
  rw [hr.isFree b hb, hfree]
  decide

theorem Mid.relinks (hm : Mid h L D) {P : Nat → Prop} (hP : ∀ x, At L x → P x) (hr : Relinks P N h h') :
    Row h'.mem h'.heapStart L (h'.heapStart + h'.memoryTotal) := by
  have hrow := hm.row.congr fun x f hx => hr.fields x f (hP x hx)
  rw [hr.same]
  exact hrow

theorem Mid.remove (hm : Mid h L D) (hb : D b) :
    Mid (removeFromFreeList h b.addr) L (fun d => D d ∧ d ≠ b) ∧ (removeFromFreeList h b.addr).vars = h.vars ∧
    Keeps h.mem (removeFromFreeList h b.addr).mem L D ∧
    ∀ x f, At L x → f ≠ .nextFree → f ≠ .prevFree → get (removeFromFreeList h b.addr).mem x f = get h.mem x f := by
  obtain ⟨F, hF⟩ := hm.binned
  obtain ⟨hbL, hfree⟩ := hm.listed b hb
  obtain ⟨hr, hF'⟩ := hF.remove hm.row.spread hm.row.pointers hm.distinct (fun d hd => ⟨d, (hm.listed d hd).1, rfl⟩) hb
    (hm.row.get_isFree hbL hfree) (hm.row.size b hbL)
  exact ⟨⟨hm.relinks (fun _ hx => hx) hr, fun d hd => hm.listed d hd.1, hF'⟩, hr.vars,
    keeps_of_node hm.row.tiles hm.row.room (fun d hd => (hm.listed d hd).1) hr.writes, hr.fields⟩

theorem Mid.add (hm : Mid h L D) (hb : b ∈ L) (hfree : b.free = true) (hnew : ¬ D b) :
    Mid (addToFreeList h b.addr) L (fun d => D d ∨ d = b) ∧ (addToFreeList h b.addr).vars = h.vars ∧
    Keeps h.mem (addToFreeList h b.addr).mem L (fun d => D d ∨ d = b) ∧
    ∀ x f, At L x → f ≠ .nextFree → f ≠ .prevFree → get (addToFreeList h b.addr).mem x f = get h.mem x f := by
  obtain ⟨F, hF⟩ := hm.binned
  have hne : ∀ d, D d → d.addr ≠ b.addr := fun d hd he => hnew (hm.row.distinct (hm.listed d hd).1 hb he ▸ hd)
  obtain ⟨hr, hF'⟩ := hF.add hm.row.spread hm.row.pointers hm.distinct (fun d hd => ⟨d, (hm.listed d hd).1, rfl⟩)
    ⟨b, hb, rfl⟩ hne (hm.row.get_isFree hb hfree) (hm.row.size b hb)
  have hlisted : ∀ d, D d ∨ d = b → d ∈ L ∧ d.free = true := by
    rintro d (hd | rfl)
    · exact hm.listed d hd
    · exact ⟨hb, hfree⟩
  refine ⟨⟨hm.relinks (fun _ hx => hx) hr, hlisted, _, hF'⟩, hr.vars,
    keeps_of_node hm.row.tiles hm.row.room (fun d hd => (hlisted d hd).1) (hr.writes.mono (fun _ hx => hx) ?_), hr.fields⟩
  rintro x (rfl | ⟨d, hd, rfl⟩)
  · exact ⟨b, .inr rfl, rfl⟩
  · exact ⟨d, .inl hd, rfl⟩

theorem Binned.congr (hF : Binned h D F) (hD : ∀ d, D d → ∀ f, f = .nextFree ∨ f = .prevFree →
    get m d.addr f = get h.mem d.addr f) :
    Binned { h with mem := m } D F := by
  refine ⟨fun k => (hF.list k).congr fun x hx => ?_, hF.mem⟩
  obtain ⟨d, hd, rfl, -⟩ := (hF.mem k x).1 hx
  unfold link
  exact ⟨by rw [hD d hd _ (.inl rfl)], by rw [hD d hd _ (.inr rfl)]⟩

theorem mem_exchanged {M N : List Blk} {d : Blk} (hd : d ∈ A ++ (M ++ B)) (hM : d ∉ M) : d ∈ A ++ (N ++ B) := by
  rcases List.mem_append.1 hd with hd | hd
  · exact List.mem_append_left _ hd
  · exact List.mem_append_right _ (List.mem_append_right _ ((List.mem_append.1 hd).resolve_left hM))

/-- The memory of a heap exchanged: the row of the new one, and the lists of the old one where the nodes stay. -/
theorem Mid.exchange (hm : Mid h L D) (hrow : Row m h.heapStart L' (h.heapStart + h.memoryTotal))
    (hlisted : ∀ d, D d → d ∈ L')
    (hnodes : ∀ d, D d → ∀ f, f = .nextFree ∨ f = .prevFree → get m d.addr f = get h.mem d.addr f) :
    Mid { h with mem := m } L' D := by
  obtain ⟨F, hF⟩ := hm.binned
  exact ⟨hrow, fun d hd => ⟨hlisted d hd, (hm.listed d hd).2⟩, F, hF.congr hnodes⟩

theorem Mid.mark (hm : Mid h (A ++ b :: B) D) (hb : ¬ D b) (free : Bool) :
    Mid { h with mem := put h.mem b.addr .isFree (if free then 1 else 0) } (A ++ { b with free } :: B) D ∧
    Keeps h.mem (put h.mem b.addr .isFree (if free then 1 else 0)) (A ++ { b with free } :: B) Nowhere := by
  have hrow := hm.row.mark free
  have hbAt : At (A ++ b :: B) b.addr := ⟨b, by simp, rfl⟩
  refine ⟨hm.exchange hrow (fun d hd => ?_) fun d hd f hf => ?_, keeps_of_header hrow.tiles ?_⟩
  · exact mem_exchanged (N := [{ b with free }]) (M := [b]) (hm.listed d hd).1
      (List.mem_singleton.not.2 fun he => hb (he ▸ hd))
  · rw [get_put hm.row.spread hbAt ⟨d, (hm.listed d hd).1, rfl⟩, if_neg]
    rintro ⟨-, rfl⟩
    simp at hf
  · exact writes_put_header ⟨{ b with free }, by simp, rfl⟩ (by decide)

theorem Mid.cut (hm : Mid h (A ++ b :: B) D) (hb : ¬ D b) (h8 : 8 ∣ size) (h16 : NODE_SIZE ≤ size)
    (hroom : size + HEADER_SIZE + NODE_SIZE ≤ b.size) :
    Mid { h with mem := cutBlock h.mem b.addr size } (A ++ (cutRow b size ++ B)) D ∧
    Keeps h.mem (cutBlock h.mem b.addr size) (A ++ (cutRow b size ++ B)) Nowhere := by
  obtain ⟨hrow, hnodes, hw⟩ := hm.row.cut h8 h16 hroom
  refine ⟨hm.exchange hrow (fun d hd => ?_) fun d hd f hf => ?_, keeps_of_header hrow.tiles hw⟩
  · exact mem_exchanged (M := [b]) (hm.listed d hd).1 (List.mem_singleton.not.2 fun he => hb (he ▸ hd))
  · exact hnodes d.addr f ⟨d, (hm.listed d hd).1, rfl⟩ hf

theorem Mid.absorb (hm : Mid h (A ++ b :: c :: B) D) (hb : ¬ D b) (hc : ¬ D c) :
    Mid { h with mem := absorb h.mem b.addr c.addr } (A ++ { b with size := b.size + (HEADER_SIZE + c.size) } :: B) D ∧
    Keeps h.mem (Heap.absorb h.mem b.addr c.addr)
      (A ++ { b with size := b.size + (HEADER_SIZE + c.size) } :: B) Nowhere := by
  obtain ⟨hrow, hnodes, hw⟩ := hm.row.absorb
  have hat : ∀ x, At (A ++ b :: B) x → At (A ++ { b with size := b.size + (HEADER_SIZE + c.size) } :: B) x := fun x hx => by
    rw [at_append, at_cons] at hx ⊢
    exact hx
  refine ⟨hm.exchange hrow (fun d hd => ?_) fun d hd f hf => ?_, keeps_of_header hrow.tiles (hw.mono hat fun _ hx => hx)⟩
  · have hne : d ∉ [b, c] := by
      simp only [List.mem_cons, List.not_mem_nil, or_false, not_or]
      exact ⟨fun he => hb (he ▸ hd), fun he => hc (he ▸ hd)⟩
    exact mem_exchanged (M := [b, c]) (N := [{ b with size := b.size + (HEADER_SIZE + c.size) }]) (hm.listed d hd).1 hne
  · exact hnodes d.addr f ⟨d, (hm.listed d hd).1, rfl⟩ hf

theorem Mid.write (hm : Mid h L D) (hb : b ∈ L) (hD : ¬ D b)
    (hw : ∀ i, i < b.addr + HEADER_SIZE ∨ b.addr + HEADER_SIZE + b.size ≤ i → m i = h.mem i) :
    Mid { h with mem := m } L D := by
  have hfield : ∀ x ∈ L, ∀ f : Fld, (x ≠ b ∨ f.offset + f.width ≤ HEADER_SIZE) → get m x.addr f = get h.mem x.addr f := by
    intro x hx f hf
    have hxs := hm.row.room x hx
    have hbs := hm.row.room b hb
    have hfits := f.fits
    apply get_congr
    intro i hlo hhi
    apply hw
    have hapart := hm.row.tiles.apart hx hb
    unfold Libc.BLOCK_SIZE at hapart
    unfold HEADER_SIZE NODE_SIZE at *
    rcases hapart with rfl | hapart | hapart
    · have := hf.resolve_left (fun hne => hne rfl)
      omega
    · omega
    · omega
  refine ⟨hm.row.congr ?_, hm.listed, ?_⟩
  · rintro _ f ⟨x, hx, rfl⟩ hn hp
    refine hfield x hx f (.inr ?_)
    cases f <;> first | decide | exact absurd rfl hn | exact absurd rfl hp
  · obtain ⟨F, hF⟩ := hm.binned
    exact ⟨F, hF.congr fun d hd f _ => hfield d (hm.listed d hd).1 f (.inl fun he => hD (he ▸ hd))⟩

end EterOS.Heap
