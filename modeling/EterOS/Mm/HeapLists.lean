import EterOS.Lib.Dll
import EterOS.Libc.MallocBlocks
import EterOS.Mm.Heap
/-!
# HeapLists — the free lists

A store of a field is seen by that field alone, as long as the headers it is about lie far enough apart (`Spread`): so
the fields of the blocks change like those of records, and the two links of a free list are the `next` and `prev` of a
`Dll`.  `Binned` says which blocks are in the lists: each of them once, in the list of its size.
-/
namespace EterOS.Heap

open Buffer (blit le digits)
open Function (update update_self update_of_ne)

/-! ## One field changes -/

theorem Fld.apart {f g : Fld} (h : f ≠ g) : f.offset + f.width ≤ g.offset ∨ g.offset + g.width ≤ f.offset := by
  cases f <;> cases g <;> first | exact absurd rfl h | decide

theorem Fld.fits (f : Fld) : f.offset + f.width ≤ HEADER_SIZE + NODE_SIZE := by
  cases f <;> decide

variable {m m' m'' : Buffer} {a b v : Nat} {f g : Fld}

theorem get_put_self : get (put m a f v) a f = v % 256 ^ f.width := Buffer.le_blit_digits v

theorem get_put_of_ne (h : f ≠ g) : get (put m a f v) a g = get m a g := by
  apply Buffer.le_blit_of_disjoint
  rcases Fld.apart h with h | h
  · right
    omega
  · left
    omega

theorem get_put_of_far (h : a + (HEADER_SIZE + NODE_SIZE) ≤ b ∨ b + (HEADER_SIZE + NODE_SIZE) ≤ a) :
    get (put m a f v) b g = get m b g := by
  have hf := f.fits
  have hg := g.fits
  apply Buffer.le_blit_of_disjoint
  omega

theorem get_congr (h : ∀ i, a + f.offset ≤ i → i < a + f.offset + f.width → m' i = m i) : get m' a f = get m a f :=
  Buffer.le_congr h

def Spread (P : Nat → Prop) : Prop :=
  ∀ a b, P a → P b → a ≠ b → a + (HEADER_SIZE + NODE_SIZE) ≤ b ∨ b + (HEADER_SIZE + NODE_SIZE) ≤ a

theorem get_put {P : Nat → Prop} (hP : Spread P) (ha : P a) (hb : P b) :
    get (put m a f v) b g = if b = a ∧ g = f then v % 256 ^ f.width else get m b g := by
  by_cases hba : b = a
  · subst hba
    by_cases hg : g = f
    · rw [if_pos ⟨rfl, hg⟩, hg, get_put_self]
    · rw [if_neg (fun h => hg h.2), get_put_of_ne (Ne.symm hg)]
  · rw [if_neg (fun h => hba h.1), get_put_of_far (hP a b ha hb (Ne.symm hba))]

theorem get_put_of_lt {P : Nat → Prop} (hP : Spread P) (ha : P a) (hb : P b) (hv : v < 256 ^ f.width) :
    get (put m a f v) b g = if b = a ∧ g = f then v else get m b g := by
  rw [get_put hP ha hb, Nat.mod_eq_of_lt hv]

/-! ## Which bytes change -/

/-- The memory changes in the headers at the addresses in `H` and in the nodes of those in `N`, and nowhere else. -/
def Writes (m m' : Buffer) (H N : Nat → Prop) : Prop :=
  ∀ i, (∀ a, H a → i < a ∨ a + HEADER_SIZE ≤ i) → (∀ a, N a → i < a + HEADER_SIZE ∨ a + (HEADER_SIZE + NODE_SIZE) ≤ i) →
    m' i = m i

variable {H N H' N' : Nat → Prop}

theorem Writes.refl (m : Buffer) (H N : Nat → Prop) : Writes m m H N := fun _ _ _ => rfl

theorem Writes.trans (h : Writes m m' H N) (h' : Writes m' m'' H N) : Writes m m'' H N :=
  fun i hH hN => (h' i hH hN).trans (h i hH hN)

theorem Writes.mono (h : Writes m m' H N) (hH : ∀ a, H a → H' a) (hN : ∀ a, N a → N' a) : Writes m m' H' N' :=
  fun i hi hi' => h i (fun a ha => hi a (hH a ha)) fun a ha => hi' a (hN a ha)

theorem writes_put_header (ha : H a) (hf : f.offset + f.width ≤ HEADER_SIZE) : Writes m (put m a f v) H N := by
  intro i hi _
  rcases hi a ha with h | h
  · exact Buffer.blit_of_lt (by omega)
  · exact Buffer.blit_of_ge (by omega)

theorem writes_put_node (ha : N a) (hf : HEADER_SIZE ≤ f.offset) : Writes m (put m a f v) H N := by
  have hfits := f.fits
  intro i _ hi
  rcases hi a ha with h | h
  · exact Buffer.blit_of_lt (by omega)
  · exact Buffer.blit_of_ge (by omega)

/-! ## Pointers -/

def ptr (v : Nat) : Option Nat := if v = 0 then none else some v

@[simp] theorem ptr_zero : ptr 0 = none := rfl

theorem ptr_of_ne (h : v ≠ 0) : ptr v = some v := if_neg h

theorem ptr_eq_some {a : Nat} : ptr v = some a ↔ v = a ∧ a ≠ 0 := by
  unfold ptr
  split <;> simp_all
  rintro rfl
  assumption

def addr (p : Option Nat) : Nat := p.getD 0

@[simp] theorem addr_none : addr none = 0 := rfl
@[simp] theorem addr_some : addr (some a) = a := rfl
@[simp] theorem addr_ptr : addr (ptr v) = v := by
  unfold ptr
  split <;> simp_all

def link (m : Buffer) (f : Fld) (a : Nat) : Option Nat := ptr (get m a f)

theorem get_eq_addr_link : get m a f = addr (link m f a) := addr_ptr.symm

section Lists

variable {P : Nat → Prop} {h : KHeap} {l l1 l2 : List Nat} {k : Nat}

theorem link_put (hP : Spread P) (ha : P a) (hb : P b) (hv : v < 256 ^ f.width) :
    link (put m a f v) g b = if b = a ∧ g = f then ptr v else link m g b := by
  unfold link
  rw [get_put hP ha hb, Nat.mod_eq_of_lt hv]
  split
  · rfl
  · rfl

theorem link_put_ptr (hP : Spread P) (ha : a ≠ 0 → P a) (hb : P b) (hb0 : b ≠ 0) (hv : v < 256 ^ f.width) :
    link (if a ≠ 0 then put m a f v else m) g b = if b = a ∧ g = f then ptr v else link m g b := by
  by_cases h0 : a ≠ 0
  · rw [if_pos h0, link_put hP (ha h0) hb hv]
  · rw [if_neg h0, if_neg (show ¬(b = a ∧ g = f) from fun hc => h0 (hc.1 ▸ hb0))]

theorem get_put_ptr (hP : Spread P) (ha : a ≠ 0 → P a) (hb : P b) (hb0 : b ≠ 0) (hv : v < 256 ^ f.width) :
    get (if a ≠ 0 then put m a f v else m) b g = if b = a ∧ g = f then v else get m b g := by
  rw [get_eq_addr_link, link_put_ptr hP ha hb hb0 hv]
  split
  · exact addr_ptr
  · exact addr_ptr

theorem writes_put_ptr (ha : a ≠ 0 → N a) (hf : HEADER_SIZE ≤ f.offset) :
    Writes m (if a ≠ 0 then put m a f v else m) H N := by
  split
  · exact writes_put_node (ha ‹_›) hf
  · exact Writes.refl m H N

theorem writes_put_ptr_header (ha : a ≠ 0 → H a) (hf : f.offset + f.width ≤ HEADER_SIZE) :
    Writes m (if a ≠ 0 then put m a f v else m) H N := by
  split
  · exact writes_put_header (ha ‹_›) hf
  · exact Writes.refl m H N

structure FreeList (m : Buffer) (head : Nat) (l : List Nat) : Prop where
  head : ptr head = l.head?
  linked : Dll.Linked (link m .nextFree) (link m .prevFree) l

structure Relinks (P N : Nat → Prop) (h h' : KHeap) : Prop where
  same : h' = { h with mem := h'.mem, freeBuckets := h'.freeBuckets }
  fields : ∀ x f, P x → f ≠ .nextFree → f ≠ .prevFree → get h'.mem x f = get h.mem x f
  writes : Writes h.mem h'.mem (fun _ => False) N

def Pointers (P : Nat → Prop) : Prop := ∀ a, P a → a ≠ 0 ∧ a < 256 ^ 8

theorem Pointers.head {l : List Nat} (hptr : Pointers P) (hmem : ∀ x ∈ l, P x) :
    addr l.head? < 256 ^ 8 ∧ (addr l.head? ≠ 0 → addr l.head? ∈ l) ∧ ∀ x, P x → (x = addr l.head? ↔ l.head? = some x) := by
  cases l with
  | nil => exact ⟨by decide, fun h => absurd rfl h, fun x hx => by simp [(hptr x hx).1]⟩
  | cons a l => exact ⟨(hptr a (hmem a (by simp))).2, fun _ => by simp, fun x _ => by simp [eq_comm]⟩

theorem Pointers.getLast {l : List Nat} (hptr : Pointers P) (hmem : ∀ x ∈ l, P x) :
    addr l.getLast? < 256 ^ 8 ∧ (addr l.getLast? ≠ 0 → addr l.getLast? ∈ l) ∧
      ∀ x, P x → (x = addr l.getLast? ↔ l.getLast? = some x) := by
  rcases List.eq_nil_or_concat l with rfl | ⟨l, a, rfl⟩
  · exact ⟨by decide, fun h => absurd rfl h, fun x hx => by simp [(hptr x hx).1]⟩
  · simp only [List.concat_eq_append] at *
    exact ⟨by simpa using (hptr a (hmem a (by simp))).2, fun _ => by simp, fun x _ => by simp [eq_comm]⟩

theorem addToFreeList_spec (hP : Spread P) (hptr : Pointers P) (ha : P a) (hfree : get h.mem a .isFree ≠ 0)
    (hk : getBucketIndex (get h.mem a .size) = k) (hl : FreeList h.mem (h.freeBuckets k) l) (hmem : ∀ x ∈ l, P x) :
    Relinks P (fun x => x = a ∨ x ∈ l) h (addToFreeList h a) ∧
    (addToFreeList h a).freeBuckets = update h.freeBuckets k a ∧
    (∀ x, P x → link (addToFreeList h a).mem .nextFree x = Dll.attach (link h.mem .nextFree) none a l.head? x) ∧
    ∀ x, P x → link (addToFreeList h a).mem .prevFree x = Dll.attach (link h.mem .prevFree) l.head? a none x := by
  have ha' := hptr a ha
  have hhead : h.freeBuckets k = addr l.head? := by rw [← hl.head, addr_ptr]
  obtain ⟨hlt, hin, hiff⟩ := hptr.head hmem
  have hP' : addr l.head? ≠ 0 → P (addr l.head?) := fun h => hmem _ (hin h)
  unfold addToFreeList
  rw [if_neg (not_or.2 ⟨ha'.1, hfree⟩), hk]
  dsimp only
  rw [hhead]
  refine ⟨⟨rfl, fun y f hy hn hp => ?_, ?_⟩, rfl, fun y hy => ?_, fun y hy => ?_⟩
  · dsimp only
    rw [get_put_ptr hP hP' hy (hptr y hy).1 ha'.2, if_neg (fun hc => hp hc.2), get_put hP ha hy, if_neg (fun hc => hp hc.2),
      get_put hP ha hy, if_neg (fun hc => hn hc.2)]
  · have hw1 := writes_put_node (m := h.mem) (a := a) (v := addr l.head?) (f := .nextFree) (H := fun _ => False)
      (N := fun x => x = a ∨ x ∈ l) (.inl rfl) (by decide)
    refine (hw1.trans (writes_put_node (f := .prevFree) (v := 0) (.inl rfl) (by decide))).trans ?_
    exact writes_put_ptr (fun h => .inr (hin h)) (by decide)
  · rw [link_put_ptr hP hP' hy (hptr y hy).1 ha'.2, link_put hP ha hy (by decide), link_put hP ha hy hlt, Dll.attach_apply]
    have : ptr (addr l.head?) = l.head? := by rw [← hhead, hl.head]
    simp [this]
  · rw [link_put_ptr hP hP' hy (hptr y hy).1 ha'.2, link_put hP ha hy (by decide), link_put hP ha hy hlt, Dll.attach_apply]
    simp [hiff y hy, ptr_of_ne ha'.1]

theorem removeFromFreeList_spec (hP : Spread P) (hptr : Pointers P) (hfree : get h.mem a .isFree ≠ 0)
    (hk : getBucketIndex (get h.mem a .size) = k) (hl : FreeList h.mem (h.freeBuckets k) (l1 ++ a :: l2))
    (hmem : ∀ x ∈ l1 ++ a :: l2, P x) :
    Relinks P (fun x => x ∈ l1 ++ a :: l2) h (removeFromFreeList h a) ∧
    (removeFromFreeList h a).freeBuckets = update h.freeBuckets k (addr (l1 ++ l2).head?) ∧
    (∀ x, P x → link (removeFromFreeList h a).mem .nextFree x = Dll.detach (link h.mem .nextFree) l1.getLast? a l2.head? x) ∧
    ∀ x, P x → link (removeFromFreeList h a).mem .prevFree x =
    Dll.detach (link h.mem .prevFree) l2.head? a l1.getLast? x := by
  have ha : P a := hmem a (by simp)
  have ha' := hptr a ha
  obtain ⟨hprev, hnext⟩ := hl.linked.at_mid
  have hgp : get h.mem a .prevFree = addr l1.getLast? := by rw [get_eq_addr_link, hprev]
  have hgn : get h.mem a .nextFree = addr l2.head? := by rw [get_eq_addr_link, hnext]
  obtain ⟨hplt, hpin, hpiff⟩ := hptr.getLast (l := l1) fun x hx => hmem x (by simp [hx])
  obtain ⟨hnlt, hnin, hniff⟩ := hptr.head (l := l2) fun x hx => hmem x (by simp [hx])
  have hpP : addr l1.getLast? ≠ 0 → P (addr l1.getLast?) := fun h => hmem _ (by simp [hpin h])
  have hnP : addr l2.head? ≠ 0 → P (addr l2.head?) := fun h => hmem _ (by simp [hnin h])
  obtain ⟨ha1, ha2⟩ := Dll.not_mem_around hl.linked.1
  have hpa : a ≠ addr l1.getLast? := fun he => ha1 (he ▸ hpin (he ▸ ha'.1))
  unfold removeFromFreeList
  rw [if_neg (not_or.2 ⟨ha'.1, hfree⟩), hk]
  dsimp only
  rw [hgp, hgn]
  -- The first store, or the bucket head.
  have hfirst : (if addr l1.getLast? ≠ 0 then
        { h with mem := put h.mem (addr l1.getLast?) .nextFree (addr l2.head?) }
      else { h with freeBuckets := update h.freeBuckets k (addr l2.head?) }) =
      { h with
        mem := if addr l1.getLast? ≠ 0 then put h.mem (addr l1.getLast?) .nextFree (addr l2.head?) else h.mem
        freeBuckets := update h.freeBuckets k (addr (l1 ++ l2).head?) } := by
    cases l1 with
    | nil => simp
    | cons b l1 =>
      have hb : b = h.freeBuckets k := by
        have := hl.head
        rw [List.cons_append, List.head?_cons, ptr_eq_some] at this
        exact this.1.symm
      have hne : addr (b :: l1).getLast? ≠ 0 := by
        have := List.getLast?_eq_some_getLast (l := b :: l1) (by simp)
        rw [this]
        exact (hptr _ (hmem _ (List.mem_append_left _ (List.getLast_mem (by simp))))).1
      rw [if_pos hne, if_pos hne]
      simp [hb]
  rw [hfirst]
  dsimp only
  generalize hm1 : (if addr l1.getLast? ≠ 0 then put h.mem (addr l1.getLast?) .nextFree (addr l2.head?) else h.mem) = m1
  have h1 : ∀ x f, P x → get m1 x f = if x = addr l1.getLast? ∧ f = .nextFree then addr l2.head? else get h.mem x f := by
    intro x f hx
    rw [← hm1, get_put_ptr hP hpP hx (hptr x hx).1 hnlt]
  have h1a : ∀ f, get m1 a f = get h.mem a f := fun f => by rw [h1 a f ha, if_neg (fun hc => hpa hc.1)]
  rw [h1a, h1a, hgp, hgn]
  have hptr1 : ptr (addr l1.getLast?) = l1.getLast? := by rw [← hgp]; exact hprev
  have hptr2 : ptr (addr l2.head?) = l2.head? := by rw [← hgn]; exact hnext
  refine ⟨⟨rfl, fun y f hy hn hp => ?_, ?_⟩, rfl, fun y hy => ?_, fun y hy => ?_⟩
  · dsimp only
    rw [get_put hP ha hy, if_neg (fun hc => hp hc.2), get_put hP ha hy, if_neg (fun hc => hn hc.2),
      get_put_ptr hP hnP hy (hptr y hy).1 hplt, if_neg (fun hc => hp hc.2), h1 y f hy, if_neg (fun hc => hn hc.2)]
  · have hw1 : Writes h.mem m1 (fun _ => False) (fun x => x ∈ l1 ++ a :: l2) := by
      rw [← hm1]
      exact writes_put_ptr (fun h => by simp [hpin h]) (by decide)
    have hw2 := hw1.trans (writes_put_ptr (a := addr l2.head?) (f := .prevFree) (v := addr l1.getLast?)
      (fun h => by simp [hnin h]) (by decide))
    have hw3 := hw2.trans (writes_put_node (a := a) (f := .nextFree) (v := 0) (by simp) (by decide))
    exact hw3.trans (writes_put_node (by simp) (by decide))
  · rw [link_put hP ha hy (by decide), link_put hP ha hy (by decide), link_put_ptr hP hnP hy (hptr y hy).1 hplt, link,
      h1 y _ hy, Dll.detach_apply]
    simp [apply_ite ptr, hptr2, hpiff y hy, link]
  · rw [link_put hP ha hy (by decide), link_put hP ha hy (by decide), link_put_ptr hP hnP hy (hptr y hy).1 hplt, link,
      h1 y _ hy, Dll.detach_apply]
    simp [hptr1, hniff y hy, link]

/-! ## The blocks in the lists -/

open Libc (Blk)

/-- The blocks that are `D` are in the lists `F`, each once and in the list of its size, and nothing else is. -/
structure Binned (h : KHeap) (D : Blk → Prop) (F : Nat → List Nat) : Prop where
  list : ∀ k, FreeList h.mem (h.freeBuckets k) (F k)
  mem : ∀ k a, a ∈ F k ↔ ∃ d, D d ∧ d.addr = a ∧ getBucketIndex d.size = k

def Distinct (D : Blk → Prop) : Prop := ∀ d e, D d → D e → d.addr = e.addr → d = e

variable {D : Blk → Prop} {F : Nat → List Nat} {b : Blk}

theorem Binned.unique {x j : Nat} (hh : Binned h D F) (hD : Distinct D) (hj : x ∈ F j) (hk : x ∈ F k) : j = k := by
  obtain ⟨d, hd, rfl, rfl⟩ := (hh.mem j x).1 hj
  obtain ⟨e, he, hde, rfl⟩ := (hh.mem k _).1 hk
  rw [hD e d he hd hde]

theorem FreeList.congr {head : Nat} (hl : FreeList m head l)
    (hc : ∀ x ∈ l, link m' .nextFree x = link m .nextFree x ∧ link m' .prevFree x = link m .prevFree x) :
    FreeList m' head l := ⟨hl.head, hl.linked.congr hc⟩

theorem Binned.add (hh : Binned h D F) (hP : Spread P) (hptr : Pointers P) (hD : Distinct D) (hDP : ∀ d, D d → P d.addr)
    (hb : P b.addr) (hnew : ∀ d, D d → d.addr ≠ b.addr) (hfree : get h.mem b.addr .isFree ≠ 0)
    (hsize : get h.mem b.addr .size = b.size) :
    Relinks P (fun x => x = b.addr ∨ ∃ d, D d ∧ d.addr = x) h (addToFreeList h b.addr) ∧
    Binned (addToFreeList h b.addr) (fun d => D d ∨ d = b)
      (update F (getBucketIndex b.size) (b.addr :: F (getBucketIndex b.size))) := by
  generalize hk : getBucketIndex b.size = k
  have hmem : ∀ {j}, ∀ x ∈ F j, ∃ d, D d ∧ d.addr = x := fun {j} x hx => by
    obtain ⟨d, hd, rfl, -⟩ := (hh.mem j x).1 hx
    exact ⟨d, hd, rfl⟩
  have hmemP : ∀ {j}, ∀ x ∈ F j, P x := fun {j} x hx => by
    obtain ⟨d, hd, rfl⟩ := hmem x hx
    exact hDP d hd
  have hnot : ∀ j, b.addr ∉ F j := fun j hj => by
    obtain ⟨d, hd, he⟩ := hmem _ hj
    exact hnew d hd he
  obtain ⟨hre, hfb, hnext, hprev⟩ := addToFreeList_spec hP hptr hb hfree (by rw [hsize, hk]) (hh.list k) hmemP
  refine ⟨⟨hre.same, hre.fields, hre.writes.mono (fun _ hx => hx) fun x hx => hx.imp_right (hmem x)⟩, fun j => ?_,
    fun j x => ?_⟩
  · rw [hfb]
    by_cases hj : j = k
    · subst hj
      rw [update_self, update_self]
      refine ⟨by simp [ptr_of_ne (hptr _ hb).1], ?_⟩
      have hatt := Dll.Linked.attach (show Dll.Linked _ _ ([] ++ F j) from (hh.list j).linked) (hnot j)
      refine hatt.congr fun x hx => ?_
      have hx : P x := by
        rcases List.mem_cons.1 (show x ∈ b.addr :: F j from hx) with rfl | hx
        · exact hb
        · exact hmemP x hx
      exact ⟨hnext x hx, hprev x hx⟩
    · rw [update_of_ne hj, update_of_ne hj]
      refine (hh.list j).congr fun x hx => ?_
      have hxP := hmemP x hx
      rw [hnext x hxP, hprev x hxP]
      refine Dll.attach_of_not_mem _ _ (show x ∉ [] ++ b.addr :: F k from fun hc => ?_)
      rcases List.mem_cons.1 (show x ∈ b.addr :: F k from hc) with rfl | hc
      · exact hnot j hx
      · exact hj (hh.unique hD hx hc)
  · by_cases hj : j = k
    · subst hj
      rw [update_self, List.mem_cons, hh.mem]
      constructor
      · rintro (rfl | ⟨d, hd, rfl, hdk⟩)
        · exact ⟨b, .inr rfl, rfl, hk⟩
        · exact ⟨d, .inl hd, rfl, hdk⟩
      · rintro ⟨d, hd | rfl, rfl, hdk⟩
        · exact .inr ⟨d, hd, rfl, hdk⟩
        · exact .inl rfl
    · rw [update_of_ne hj, hh.mem]
      constructor
      · rintro ⟨d, hd, rfl, hdk⟩
        exact ⟨d, .inl hd, rfl, hdk⟩
      · rintro ⟨d, hd | rfl, rfl, hdk⟩
        · exact ⟨d, hd, rfl, hdk⟩
        · exact absurd (hdk.symm.trans hk) hj

theorem Binned.remove (hh : Binned h D F) (hP : Spread P) (hptr : Pointers P) (hD : Distinct D) (hDP : ∀ d, D d → P d.addr)
    (hb : D b) (hfree : get h.mem b.addr .isFree ≠ 0) (hsize : get h.mem b.addr .size = b.size) :
    Relinks P (fun x => ∃ d, D d ∧ d.addr = x) h (removeFromFreeList h b.addr) ∧
    ∃ F', Binned (removeFromFreeList h b.addr) (fun d => D d ∧ d ≠ b) F' := by
  generalize hk : getBucketIndex b.size = k
  have hmem : ∀ {j}, ∀ x ∈ F j, ∃ d, D d ∧ d.addr = x := fun {j} x hx => by
    obtain ⟨d, hd, rfl, -⟩ := (hh.mem j x).1 hx
    exact ⟨d, hd, rfl⟩
  have hmemP : ∀ {j}, ∀ x ∈ F j, P x := fun {j} x hx => by
    obtain ⟨d, hd, rfl⟩ := hmem x hx
    exact hDP d hd
  obtain ⟨l1, l2, hF⟩ := List.append_of_mem ((hh.mem k b.addr).2 ⟨b, hb, rfl, hk⟩)
  have hl := hh.list k
  rw [hF] at hl
  obtain ⟨hre, hfb, hnext, hprev⟩ := removeFromFreeList_spec hP hptr hfree (by rw [hsize, hk]) hl
    fun x hx => hmemP (j := k) x (by rw [hF]; exact hx)
  refine ⟨⟨hre.same, hre.fields, hre.writes.mono (fun _ hx => hx) fun x hx => hmem (j := k) x (by rw [hF]; exact hx)⟩,
    update F k (l1 ++ l2), fun j => ?_, fun j x => ?_⟩
  · rw [hfb]
    by_cases hj : j = k
    · subst hj
      rw [update_self, update_self]
      have hsub : ∀ x ∈ l1 ++ l2, x ∈ F j := fun x hx => by
        rw [hF]
        rcases List.mem_append.1 hx with hx | hx
        · simp [hx]
        · simp [hx]
      refine ⟨?_, hl.linked.detach.congr fun x hx => ?_⟩
      · cases he : (l1 ++ l2).head? with
        | none => rfl
        | some y => exact ptr_of_ne (hptr y (hmemP (j := j) y (hsub y (List.mem_of_mem_head? he)))).1
      · have hx := hmemP (j := j) x (hsub x hx)
        exact ⟨hnext x hx, hprev x hx⟩
    · rw [update_of_ne hj, update_of_ne hj]
      refine (hh.list j).congr fun x hx => ?_
      have hxP := hmemP x hx
      rw [hnext x hxP, hprev x hxP]
      exact Dll.detach_of_not_mem _ _ fun hc => hj (hh.unique hD hx (by rw [hF]; exact hc))
  · obtain ⟨ha1, ha2⟩ := Dll.not_mem_around hl.linked.1
    by_cases hj : j = k
    · subst hj
      rw [update_self]
      have hiff : x ∈ l1 ++ l2 ↔ x ∈ F j ∧ x ≠ b.addr := by
        rw [hF]
        simp only [List.mem_append, List.mem_cons]
        constructor
        · rintro (hx | hx)
          · exact ⟨.inl hx, fun he => ha1 (he ▸ hx)⟩
          · exact ⟨.inr (.inr hx), fun he => ha2 (he ▸ hx)⟩
        · rintro ⟨hx | rfl | hx, hne⟩
          · exact .inl hx
          · exact absurd rfl hne
          · exact .inr hx
      rw [hiff, hh.mem]
      constructor
      · rintro ⟨⟨d, hd, rfl, hdk⟩, hne⟩
        exact ⟨d, ⟨hd, fun he => hne (by rw [he])⟩, rfl, hdk⟩
      · rintro ⟨d, ⟨hd, hne⟩, rfl, hdk⟩
        exact ⟨⟨d, hd, rfl, hdk⟩, fun he => hne (hD d b hd hb he)⟩
    · rw [update_of_ne hj, hh.mem]
      constructor
      · rintro ⟨d, hd, rfl, hdk⟩
        exact ⟨d, ⟨hd, fun he => hj (by rw [← hdk, he, hk])⟩, rfl, hdk⟩
      · rintro ⟨d, ⟨hd, -⟩, rfl, hdk⟩
        exact ⟨d, hd, rfl, hdk⟩

end Lists

end EterOS.Heap
