import Mathlib.Data.List.Basic
import Mathlib.Data.List.Nodup
import Mathlib.Logic.Function.Basic
/-!
# Dll — lists threaded through `next` and `prev` pointers

A doubly linked list in a memory of nodes is two pointer fields, read here as functions of the node.  `Seg` says that
the nodes of a list are linked in order between two outer neighbours; `seg_append` cuts a list anywhere, and `splice`
is the one update rule: exchange a stretch of the list for another and re-point the two nodes next to it.  Linking a
node in (at the head, at the tail, in the middle) and unlinking one are its cases: `attach` and `detach` say what such
an operation does to one of the two pointer fields, and `Linked.attach`, `Linked.detach` what it does to the list.
-/
namespace EterOS.Dll

open List

variable {α : Type*} {next prev next' prev' : α → Option α}

/-- The nodes of `l` are linked in order, after `before` and before `after`. -/
def Seg (next prev : α → Option α) : Option α → List α → Option α → Prop
  | _, [], _ => True
  | before, a :: l, after => prev a = before ∧ next a = l.head?.or after ∧ Seg next prev (some a) l after

/-- The whole list: nothing before its first node, nothing after its last. -/
def Linked (next prev : α → Option α) (l : List α) : Prop :=
  l.Nodup ∧ Seg next prev none l none

theorem seg_append : ∀ (l1 l2 : List α) (p n : Option α), Seg next prev p (l1 ++ l2) n ↔
      Seg next prev p l1 (l2.head?.or n) ∧ Seg next prev (l1.getLast?.or p) l2 n
  | [], l2, p, n => by simp [Seg]
  | a :: l1, l2, p, n => by
    have hlast : (a :: l1).getLast?.or p = l1.getLast?.or (some a) := by
      cases hl : l1.getLast? <;> simp [List.getLast?_cons, hl]
    rw [cons_append, Seg, Seg, seg_append l1 l2 (some a) n, hlast, List.head?_append]
    cases l1.head? <;> simp [and_assoc]

theorem seg_congr : ∀ {l : List α} {p n : Option α}, (∀ a ∈ l, next' a = next a ∧ prev' a = prev a) →
    Seg next prev p l n → Seg next' prev' p l n
  | [], _, _, _, _ => trivial
  | a :: l, p, n, h, hs => by
    obtain ⟨hn, hp⟩ := h a mem_cons_self
    refine ⟨hp.trans hs.1, hn.trans hs.2.1, seg_congr (fun b hb => h b (mem_cons_of_mem _ hb)) hs.2.2⟩

theorem seg_relast {l : List α} {p n n' : Option α} (hd : l.Nodup) (hs : Seg next prev p l n)
    (hprev : ∀ a ∈ l, prev' a = prev a) (hlast : ∀ a, l.getLast? = some a → next' a = n')
    (hnext : ∀ a ∈ l, l.getLast? ≠ some a → next' a = next a) : Seg next' prev' p l n' := by
  rcases eq_nil_or_concat l with rfl | ⟨l, a, rfl⟩
  · trivial
  · simp only [concat_eq_append] at *
    have hne : ∀ b ∈ l, (l ++ [a]).getLast? ≠ some b := by
      intro b hb hc
      have : a = b := by simpa using hc
      simp [nodup_append] at hd
      exact hd.2 b hb this.symm
    rw [seg_append] at hs ⊢
    refine ⟨seg_congr (fun b hb => ⟨hnext b (by simp [hb]) (hne b hb), hprev b (by simp [hb])⟩) hs.1, ?_⟩
    refine ⟨(hprev a (by simp)).trans hs.2.1, ?_, trivial⟩
    simpa using hlast a (by simp)

theorem seg_rehead {l : List α} {p p' n : Option α} (hd : l.Nodup) (hs : Seg next prev p l n)
    (hnext : ∀ a ∈ l, next' a = next a) (hhead : ∀ a, l.head? = some a → prev' a = p')
    (hprev : ∀ a ∈ l, l.head? ≠ some a → prev' a = prev a) : Seg next' prev' p' l n := by
  cases l with
  | nil => trivial
  | cons a l =>
    have hne : ∀ b ∈ l, (a :: l).head? ≠ some b := by
      intro b hb hc
      have : a = b := by simpa using hc
      exact (nodup_cons.1 hd).1 (this ▸ hb)
    refine ⟨hhead a rfl, (hnext a mem_cons_self).trans hs.2.1, seg_congr (fun b hb => ?_) hs.2.2⟩
    exact ⟨hnext b (mem_cons_of_mem _ hb), hprev b (mem_cons_of_mem _ hb) (hne b hb)⟩

/-- **The update rule**: the stretch `m` exchanged for `m'`, and the two neighbours re-pointed. -/
theorem splice (l1 m m' l2 : List α) (h : Linked next prev (l1 ++ (m ++ l2)))
    (hd : (l1 ++ (m' ++ l2)).Nodup) (hmid : Seg next' prev' l1.getLast? m' l2.head?)
    (hp1 : ∀ a ∈ l1, prev' a = prev a) (hn2 : ∀ a ∈ l2, next' a = next a)
    (hlast : ∀ a, l1.getLast? = some a → next' a = m'.head?.or l2.head?)
    (hhead : ∀ a, l2.head? = some a → prev' a = m'.getLast?.or l1.getLast?)
    (hn1 : ∀ a ∈ l1, l1.getLast? ≠ some a → next' a = next a)
    (hp2 : ∀ a ∈ l2, l2.head? ≠ some a → prev' a = prev a) : Linked next' prev' (l1 ++ (m' ++ l2)) := by
  obtain ⟨-, hs⟩ := h
  have hd1 : l1.Nodup := hd.of_append_left
  have hd2 : l2.Nodup := hd.of_append_right.of_append_right
  refine ⟨hd, ?_⟩
  rw [seg_append, seg_append] at hs ⊢
  refine ⟨seg_relast hd1 hs.1 hp1 (fun a ha => ?_) hn1, ?_, ?_⟩
  · simpa [List.head?_append] using hlast a ha
  · simpa using hmid
  · refine seg_rehead hd2 hs.2.2 hn2 (fun a ha => ?_) hp2
    simpa using hhead a ha

theorem Linked.at_mid {l1 l2 : List α} {a : α} (h : Linked next prev (l1 ++ a :: l2)) :
    prev a = l1.getLast? ∧ next a = l2.head? := by
  have hs := ((seg_append l1 (a :: l2) none none).1 h.2).2
  exact ⟨by simpa using hs.1, by simpa using hs.2.1⟩

theorem Linked.congr {l : List α} (h : Linked next prev l) (hc : ∀ a ∈ l, next' a = next a ∧ prev' a = prev a) :
    Linked next' prev' l :=
  ⟨h.1, seg_congr hc h.2⟩

theorem linked_nil : Linked next prev [] := ⟨nodup_nil, trivial⟩

theorem not_mem_around {l1 l2 : List α} {a : α} (h : (l1 ++ a :: l2).Nodup) : a ∉ l1 ∧ a ∉ l2 := by
  simp only [nodup_append, nodup_cons, mem_cons] at h
  exact ⟨fun ha => h.2.2 a ha a (.inl rfl) rfl, h.2.1.1⟩

/-! ## Linking a node in and out -/

section Update

open Function (update update_self update_of_ne)

variable [DecidableEq α] {f : α → Option α} {x y : Option α} {a u : α}

/-- One pointer field after `a` is linked in: `a` points to `y`, and `x`, if there is one, to `a`. -/
def attach (f : α → Option α) (x : Option α) (a : α) (y : Option α) : α → Option α :=
  match x with
  | some x => update (update f a y) x (some a)
  | none => update f a y

/-- One pointer field after `a` is linked out: `x`, if there is one, points to `y`, and `a` nowhere. -/
def detach (f : α → Option α) (x : Option α) (a : α) (y : Option α) : α → Option α :=
  match x with
  | some x => update (update f x y) a none
  | none => update f a none

theorem attach_apply : attach f x a y u = if x = some u then some a else if u = a then y else f u := by
  cases x with
  | none => simp [attach, Function.update_apply]
  | some x => simp [attach, Function.update_apply, eq_comm]

theorem detach_apply : detach f x a y u = if u = a then none else if x = some u then y else f u := by
  cases x with
  | none => simp [detach, Function.update_apply]
  | some x => simp [detach, Function.update_apply, eq_comm]

theorem attach_self (h : x ≠ some a) : attach f x a y a = y := by
  cases x with
  | none => simp [attach]
  | some x =>
    have : a ≠ x := fun he => h (by rw [he])
    simp [attach, update_of_ne this]

theorem attach_at : attach f (some u) a y u = some a := by
  simp [attach]

theorem attach_of_ne (ha : u ≠ a) (hx : x ≠ some u) : attach f x a y u = f u := by
  cases x with
  | none => simp [attach, update_of_ne ha]
  | some x =>
    have : u ≠ x := fun he => hx (by rw [he])
    simp [attach, update_of_ne ha, update_of_ne this]

@[simp] theorem detach_self : detach f x a y a = none := by
  cases x <;> simp [detach]

theorem detach_at (h : u ≠ a) : detach f (some u) a y u = y := by
  simp [detach, update_of_ne h]

theorem detach_of_ne (ha : u ≠ a) (hx : x ≠ some u) : detach f x a y u = f u := by
  cases x with
  | none => simp [detach, update_of_ne ha]
  | some x =>
    have : u ≠ x := fun he => hx (by rw [he])
    simp [detach, update_of_ne ha, update_of_ne this]

theorem Linked.attach {l1 l2 : List α} (h : Linked next prev (l1 ++ l2)) (ha : a ∉ l1 ++ l2) :
    Linked (attach next l1.getLast? a l2.head?) (attach prev l2.head? a l1.getLast?) (l1 ++ a :: l2) := by
  have hd := nodup_append.1 h.1
  have hlast : ∀ u, l1.getLast? = some u → u ∈ l1 := fun u hu => mem_of_mem_getLast? hu
  have hhead : ∀ u, l2.head? = some u → u ∈ l2 := fun u hu => mem_of_mem_head? hu
  have hne1 : ∀ u ∈ l1, u ≠ a := fun u hu he => ha (by simp [← he, hu])
  have hne2 : ∀ u ∈ l2, u ≠ a := fun u hu he => ha (by simp [← he, hu])
  have hd' : (l1 ++ ([a] ++ l2)).Nodup := by
    simp only [cons_append, nil_append, nodup_append, nodup_cons, mem_cons]
    refine ⟨hd.1, ⟨fun hu => hne2 a hu rfl, hd.2.1⟩, fun u hu v hv => ?_⟩
    rcases hv with rfl | hv
    · exact hne1 u hu
    · exact hd.2.2 u hu v hv
  refine splice l1 [] [a] l2 h hd' ⟨?_, ?_, trivial⟩ (fun u hu => ?_) (fun u hu => ?_) (fun u hu => ?_)
    (fun u hu => ?_) (fun u hu hne => ?_) (fun u hu hne => ?_)
  · exact attach_self fun he => hne2 a (hhead a he) rfl
  · exact attach_self fun he => hne1 a (hlast a he) rfl
  · exact attach_of_ne (hne1 u hu) fun he => hd.2.2 u hu u (hhead u he) rfl
  · exact attach_of_ne (hne2 u hu) fun he => hd.2.2 u (hlast u he) u hu rfl
  · simp [hu, attach_at]
  · simp [hu, attach_at]
  · exact attach_of_ne (hne1 u hu) hne
  · exact attach_of_ne (hne2 u hu) hne

theorem Linked.detach {l1 l2 : List α} (h : Linked next prev (l1 ++ a :: l2)) :
    Linked (detach next l1.getLast? a l2.head?) (detach prev l2.head? a l1.getLast?) (l1 ++ l2) := by
  obtain ⟨ha1, ha2⟩ := not_mem_around h.1
  have hd : (l1 ++ ([] ++ l2)).Nodup := by
    have := h.1.erase a
    rwa [erase_append_right _ ha1, erase_cons_head] at this
  have hlast : ∀ u, l1.getLast? = some u → u ∈ l1 := fun u hu => mem_of_mem_getLast? hu
  have hhead : ∀ u, l2.head? = some u → u ∈ l2 := fun u hu => mem_of_mem_head? hu
  have hne1 : ∀ u ∈ l1, u ≠ a := fun u hu he => ha1 (he ▸ hu)
  have hne2 : ∀ u ∈ l2, u ≠ a := fun u hu he => ha2 (he ▸ hu)
  have hdisj := (nodup_append.1 hd).2.2
  refine splice l1 [a] [] l2 h hd trivial (fun u hu => ?_) (fun u hu => ?_) (fun u hu => ?_) (fun u hu => ?_)
    (fun u hu hne => ?_) (fun u hu hne => ?_)
  · exact detach_of_ne (hne1 u hu) fun he => hdisj u hu u (hhead u he) rfl
  · exact detach_of_ne (hne2 u hu) fun he => hdisj u (hlast u he) u hu rfl
  · simp [hu, detach_at (hne1 u (hlast u hu))]
  · simp [hu, detach_at (hne2 u (hhead u hu))]
  · exact detach_of_ne (hne1 u hu) hne
  · exact detach_of_ne (hne2 u hu) hne

theorem attach_of_not_mem (next prev : α → Option α) {l1 l2 : List α} (hu : u ∉ l1 ++ a :: l2) :
    attach next l1.getLast? a l2.head? u = next u ∧ attach prev l2.head? a l1.getLast? u = prev u := by
  simp only [mem_append, mem_cons, not_or] at hu
  exact ⟨attach_of_ne hu.2.1 fun he => hu.1 (mem_of_mem_getLast? he),
    attach_of_ne hu.2.1 fun he => hu.2.2 (mem_of_mem_head? he)⟩

theorem detach_of_not_mem (next prev : α → Option α) {l1 l2 : List α} (hu : u ∉ l1 ++ a :: l2) :
    detach next l1.getLast? a l2.head? u = next u ∧ detach prev l2.head? a l1.getLast? u = prev u := by
  simp only [mem_append, mem_cons, not_or] at hu
  exact ⟨detach_of_ne hu.2.1 fun he => hu.1 (mem_of_mem_getLast? he),
    detach_of_ne hu.2.1 fun he => hu.2.2 (mem_of_mem_head? he)⟩

end Update

end EterOS.Dll
