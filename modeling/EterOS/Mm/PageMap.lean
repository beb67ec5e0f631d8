import EterOS.Mm.Pmm
import Mathlib.Data.Fintype.Card
/-!
# PageMap — which page leads to which frame, and the references that answer for it

The user part of an address space, without its tables: a partial map from page numbers to frames.  `Backed` says that
the allocator answers for it: no page leads to a table or to a free frame, and a frame has at least as many references
as pages that lead to it, next to the ones others hold (`held`).  Frames the allocator never handed out (device memory,
what boot reserved) are counted by nobody: the allocator cannot give them away.
-/
namespace EterOS.Mm

open Function

structure Leaf where
  frame : Nat
  user : Bool
  deriving DecidableEq

def USER_PAGES : Nat := 2 ^ 35

abbrev PageMap := Nat → Option Leaf

namespace PageMap

def uses (L : PageMap) (f : Nat) : Nat :=
  ((Finset.range USER_PAGES).filter fun n => (L n).map Leaf.frame = some f).card

variable {L : PageMap} {n f : Nat}

theorem uses_eq_zero (h : ∀ n l, L n = some l → l.frame ≠ f) : L.uses f = 0 := by
  unfold uses
  rw [Finset.card_eq_zero, Finset.filter_eq_empty_iff]
  intro n _ hn
  obtain ⟨l, hl, hlf⟩ := Option.map_eq_some_iff.1 hn
  exact h n l hl hlf

theorem uses_clear (hn : n < USER_PAGES) :
    uses (Function.update L n none) f + (if (L n).map Leaf.frame = some f then 1 else 0) = L.uses f := by
  have herase : ((Finset.range USER_PAGES).filter fun m => (Function.update L n none m).map Leaf.frame = some f) =
      ((Finset.range USER_PAGES).filter fun m => (L m).map Leaf.frame = some f).erase n := by
    ext m
    rw [Finset.mem_filter, Finset.mem_erase, Finset.mem_filter]
    by_cases hm : m = n
    · subst hm
      simp
    · simp [hm]
  unfold uses
  rw [herase]
  by_cases hf : (L n).map Leaf.frame = some f
  · rw [if_pos hf]
    exact Finset.card_erase_add_one (Finset.mem_filter.2 ⟨Finset.mem_range.2 hn, hf⟩)
  · rw [if_neg hf, Nat.add_zero]
    exact congrArg Finset.card (Finset.erase_eq_of_notMem fun hmem => hf (Finset.mem_filter.1 hmem).2)

theorem uses_set {l : Leaf} (hn : n < USER_PAGES) : uses (Function.update L n (some l)) f =
      uses (Function.update L n none) f + if l.frame = f then 1 else 0 := by
  have h := uses_clear (L := Function.update L n (some l)) (f := f) hn
  rw [update_idem, update_self] at h
  simp only [Option.map_some, Option.some.injEq] at h
  exact h.symm

theorem uses_pos {l : Leaf} (hn : n < USER_PAGES) (hl : L n = some l) : 0 < L.uses l.frame := by
  have h := uses_clear (L := L) (f := l.frame) hn
  rw [hl, Option.map_some, if_pos rfl] at h
  omega

end PageMap

/-! ## What the allocator answers for -/

structure Reserved (p : Pmm) (held : Nat → Nat) (f : Nat) : Prop where
  count : p.refCounts f = 0
  held : held f = 0
  bit : p.bits f = true

/-- The pages lead to frames in use that are no tables, and each frame has the references for it. -/
structure Backed (table : Nat → Prop) (held : Nat → Nat) (p : Pmm) (L : PageMap) : Prop where
  inside : ∀ n l, L n = some l → n < USER_PAGES
  data : ∀ n l, L n = some l → ¬ table l.frame
  used : ∀ n l, L n = some l → l.frame < p.totalPages → p.bits l.frame = true
  heldUsed : ∀ f < p.totalPages, 0 < held f → p.bits f = true
  counted : ∀ f < p.totalPages, L.uses f + held f ≤ p.refCounts f ∨ Reserved p held f

structure Took (p p' : Pmm) (new : Nat → Prop) : Prop where
  total : p'.totalPages = p.totalPages
  fresh : ∀ f, new f → f < p.totalPages ∧ p.bits f = false ∧ p'.bits f = true ∧ p'.refCounts f = 1
  same : ∀ f, ¬ new f → p'.bits f = p.bits f ∧ p'.refCounts f = p.refCounts f

section
variable {table table' : Nat → Prop} {held : Nat → Nat} {p p' : Pmm} {L : PageMap} {new : Nat → Prop}

theorem Backed.unused (h : Backed table held p L) {f : Nat} (hf : f < p.totalPages) (hb : p.bits f = false) :
    L.uses f = 0 ∧ held f = 0 := by
  refine ⟨PageMap.uses_eq_zero fun n l hl hlf => ?_, ?_⟩
  · have hbit := h.used n l hl (hlf ▸ hf)
    rw [hlf, hb] at hbit
    cases hbit
  · rcases Nat.eq_zero_or_pos (held f) with h0 | h0
    · exact h0
    · have hbit := h.heldUsed f hf h0
      rw [hb] at hbit
      cases hbit

theorem Backed.took (h : Backed table held p L) (ht : Took p p' new) (htab : ∀ f, table' f → table f ∨ new f) :
    Backed table' held p' L := by
  have hbits : ∀ f, p.bits f = true → p'.bits f = true := fun f hf => by
    by_cases hn : new f
    · exact (ht.fresh f hn).2.2.1
    · rw [(ht.same f hn).1, hf]
  refine ⟨h.inside, fun n l hl htl => ?_, fun n l hl hf => ?_, fun f hf h0 => ?_, fun f hf => ?_⟩
  · rcases htab _ htl with h' | h'
    · exact h.data n l hl h'
    · obtain ⟨hlt, hb, -, -⟩ := ht.fresh _ h'
      rw [h.used n l hl hlt] at hb
      cases hb
  · exact hbits _ (h.used n l hl (ht.total ▸ hf))
  · exact hbits f (h.heldUsed f (ht.total ▸ hf) h0)
  · rw [ht.total] at hf
    by_cases hn : new f
    · obtain ⟨-, hb, -, hc⟩ := ht.fresh f hn
      obtain ⟨hu, hh⟩ := h.unused hf hb
      left
      rw [hu, hh, hc]
      decide
    · obtain ⟨hb, hc⟩ := ht.same f hn
      rcases h.counted f hf with h' | h'
      · left
        rwa [hc]
      · right
        exact ⟨hc.trans h'.count, h'.held, hb.trans h'.bit⟩

theorem Backed.clear (h : Backed table held p L) (n : Nat) : Backed table held p (Function.update L n none) := by
  have hsub : ∀ m l, Function.update L n none m = some l → L m = some l := fun m l hl => by
    by_cases hm : m = n
    · subst hm
      simp at hl
    · rwa [update_of_ne hm] at hl
  refine ⟨fun m l hl => h.inside m l (hsub m l hl), fun m l hl => h.data m l (hsub m l hl),
    fun m l hl => h.used m l (hsub m l hl), h.heldUsed, fun f hf => ?_⟩
  rcases h.counted f hf with h' | h'
  · left
    by_cases hn : n < USER_PAGES
    · have := PageMap.uses_clear (L := L) (f := f) hn
      omega
    · have hLn : L n = none := by
        cases hLn : L n with
        | none => rfl
        | some l => exact absurd (h.inside n l hLn) hn
      rwa [← hLn, update_eq_self]
  · exact .inr h'

theorem Backed.set (h : Backed table held p L) {n : Nat} {l : Leaf} (hn : n < USER_PAGES) (hd : ¬ table l.frame)
    (hu : l.frame < p.totalPages → p.bits l.frame = true)
    (hc : l.frame < p.totalPages →
      PageMap.uses (Function.update L n none) l.frame + 1 + held l.frame ≤ p.refCounts l.frame ∨ Reserved p held l.frame) :
    Backed table held p (Function.update L n (some l)) := by
  have hcases : ∀ m l', Function.update L n (some l) m = some l' → m = n ∧ l' = l ∨ L m = some l' := fun m l' hl' => by
    by_cases hm : m = n
    · subst hm
      rw [update_self, Option.some.injEq] at hl'
      exact .inl ⟨rfl, hl'.symm⟩
    · rw [update_of_ne hm] at hl'
      exact .inr hl'
  refine ⟨fun m l' hl' => ?_, fun m l' hl' => ?_, fun m l' hl' hf => ?_, h.heldUsed, fun f hf => ?_⟩
  · rcases hcases m l' hl' with ⟨rfl, -⟩ | hl'
    · exact hn
    · exact h.inside m l' hl'
  · rcases hcases m l' hl' with ⟨-, rfl⟩ | hl'
    · exact hd
    · exact h.data m l' hl'
  · rcases hcases m l' hl' with ⟨-, rfl⟩ | hl'
    · exact hu hf
    · exact h.used m l' hl' hf
  · rw [PageMap.uses_set hn]
    by_cases hlf : l.frame = f
    · subst hlf
      rw [if_pos rfl]
      exact hc hf
    · rw [if_neg hlf, Nat.add_zero]
      exact (h.clear n).counted f hf

theorem Backed.move (h : Backed table held p L) {n n' : Nat} {l l' : Leaf} (hl : L n = some l) (hl' : l'.frame = l.frame)
    (hn' : n' < USER_PAGES) : Backed table held p (Function.update (Function.update L n' (some l')) n none) := by
  have hn := h.inside n l hl
  by_cases hnn : n' = n
  · subst hnn
    rw [update_idem]
    exact h.clear n'
  rw [update_comm hnn]
  refine (h.clear n).set hn' (hl' ▸ h.data n l hl) (hl' ▸ h.used n l hl) fun hf => ?_
  rw [hl'] at hf ⊢
  rcases h.counted _ hf with h' | h'
  · left
    have hclear := PageMap.uses_clear (L := L) (f := l.frame) hn
    rw [hl, Option.map_some, if_pos rfl] at hclear
    have hclear' := PageMap.uses_clear (L := Function.update L n none) (f := l.frame) hn'
    omega
  · exact .inr h'

/-! ## References given back and taken -/

theorem pmmFreePage_ok {f : Nat} (h : p.pmmFreePage (f * PAGE_SIZE) = .ok p') : p.totalPages ≤ f ∧ p' = p ∨
    f < p.totalPages ∧ 0 < p.refCounts f ∧ p'.totalPages = p.totalPages ∧
      p'.refCounts = Function.update p.refCounts f (p.refCounts f - 1) ∧
      (1 < p.refCounts f ∧ p'.bits = p.bits ∨ p.refCounts f = 1 ∧ p'.bits = Function.update p.bits f false) := by
  have hdiv : f * PAGE_SIZE / PAGE_SIZE = f := Nat.mul_div_cancel f (by decide)
  unfold Pmm.pmmFreePage at h
  rw [hdiv] at h
  dsimp only at h
  split at h
  · rename_i hge
    cases h
    exact .inl ⟨hge, rfl⟩
  rename_i hlt
  split at h
  · cases h
  rename_i hne
  have hself : (p.setRefCount f (p.refCounts f - 1)).refCounts f = p.refCounts f - 1 := by simp [Pmm.setRefCount]
  rw [hself] at h
  split at h
  · cases h
    exact .inr ⟨by omega, by omega, rfl, rfl, .inl ⟨by omega, rfl⟩⟩
  split at h
  · cases h
  · cases h
    exact .inr ⟨by omega, by omega, rfl, rfl, .inr ⟨by omega, rfl⟩⟩

theorem Backed.release (h : Backed table held p L) {n : Nat} {l : Leaf} (hl : L n = some l)
    (hok : p.pmmFreePage (l.frame * PAGE_SIZE) = .ok p') : Backed table held p' (Function.update L n none) := by
  have hclear := h.clear n
  have hn := h.inside n l hl
  obtain ⟨-, rfl⟩ | ⟨hf, hpos, ht, hcnt, hbits⟩ := pmmFreePage_ok hok
  · exact hclear
  have huse : PageMap.uses (Function.update L n none) l.frame + 1 = L.uses l.frame := by
    have huc := PageMap.uses_clear (L := L) (f := l.frame) hn
    rwa [hl, Option.map_some, if_pos rfl] at huc
  -- a reserved frame has no reference to give back
  have hle : L.uses l.frame + held l.frame ≤ p.refCounts l.frame := by
    rcases h.counted l.frame hf with h' | h'
    · exact h'
    · have := h'.count
      omega
  have hbit : ∀ f, (f = l.frame → 0 < PageMap.uses (Function.update L n none) f + held f) → p.bits f = true →
      p'.bits f = true := fun f hf' hb => by
    rcases hbits with ⟨-, hb'⟩ | ⟨h1, hb'⟩
    · rw [hb', hb]
    · by_cases hfl : f = l.frame
      · have := hf' hfl
        rw [hfl] at this
        omega
      · rw [hb', update_of_ne hfl, hb]
  refine ⟨hclear.inside, hclear.data, fun m l' hl' hf' => ?_, fun f hf' h0 => ?_, fun f hf' => ?_⟩
  · rw [ht] at hf'
    refine hbit _ (fun _ => ?_) (hclear.used m l' hl' hf')
    have := PageMap.uses_pos (hclear.inside m l' hl') hl'
    omega
  · rw [ht] at hf'
    exact hbit f (fun _ => by omega) (hclear.heldUsed f hf' h0)
  · rw [ht] at hf'
    rw [hcnt]
    by_cases hfl : f = l.frame
    · left
      subst hfl
      rw [update_self]
      omega
    · rw [update_of_ne hfl]
      rcases hclear.counted f hf' with h' | h'
      · exact .inl h'
      · refine .inr ⟨?_, h'.held, hbit f (fun hc => absurd hc hfl) h'.bit⟩
        rw [hcnt, update_of_ne hfl]
        exact h'.count

theorem pmmRefPage_ok {f : Nat} (h : p.pmmRefPage (f * PAGE_SIZE) = .ok p') : p.totalPages ≤ f ∧ p' = p ∨
    f < p.totalPages ∧ p'.totalPages = p.totalPages ∧ p'.bits = p.bits ∧
      p'.refCounts = Function.update p.refCounts f (p.refCounts f + 1) := by
  have hdiv : f * PAGE_SIZE / PAGE_SIZE = f := Nat.mul_div_cancel f (by decide)
  unfold Pmm.pmmRefPage at h
  rw [hdiv] at h
  dsimp only at h
  split at h
  · rename_i hge
    cases h
    exact .inl ⟨hge, rfl⟩
  split at h
  · cases h
    exact .inr ⟨by omega, rfl, rfl, rfl⟩
  · cases h

theorem Backed.ref (h : Backed table held p L) {f : Nat} (hheld : f < p.totalPages → 0 < held f)
    (hok : p.pmmRefPage (f * PAGE_SIZE) = .ok p') :
    Backed table held p' L ∧ p'.totalPages = p.totalPages ∧ p'.bits = p.bits ∧
      (f < p'.totalPages → L.uses f + 1 + held f ≤ p'.refCounts f) := by
  obtain ⟨hge, rfl⟩ | ⟨hf, ht, hb, hcnt⟩ := pmmRefPage_ok hok
  · exact ⟨h, rfl, rfl, fun hlt => by omega⟩
  have hle : L.uses f + held f ≤ p.refCounts f := by
    rcases h.counted f hf with h' | h'
    · exact h'
    · have := h'.held
      have := hheld hf
      omega
  have hself : p'.refCounts f = p.refCounts f + 1 := by rw [hcnt, update_self]
  refine ⟨⟨h.inside, h.data, ?_, ?_, fun g hg => ?_⟩, ht, hb, fun _ => by omega⟩
  · rw [ht, hb]
    exact h.used
  · rw [ht, hb]
    exact h.heldUsed
  · rw [ht] at hg
    by_cases hgf : g = f
    · subst hgf
      exact .inl (by omega)
    · have hsame : p'.refCounts g = p.refCounts g := by rw [hcnt, update_of_ne hgf]
      rcases h.counted g hg with h' | h'
      · exact .inl (by omega)
      · exact .inr ⟨hsame.trans h'.count, h'.held, by rw [hb]; exact h'.bit⟩

/-! ## Frames that stay what they are -/

/-- A frame that is no table and that the allocator will not give away: somebody else holds it, or it is reserved. -/
structure Pinned (table : Nat → Prop) (held : Nat → Nat) (p : Pmm) (f : Nat) : Prop where
  data : ¬ table f
  kept : f < p.totalPages → 0 < held f ∨ Reserved p held f

theorem Pinned.took {f : Nat} (h : Pinned table held p f) (hb : Backed table held p L) (ht : Took p p' new)
    (htab : ∀ f, table' f → table f ∨ new f) : Pinned table' held p' f := by
  have hnew : ¬ new f := fun hn => by
    obtain ⟨hlt, hfree, -, -⟩ := ht.fresh f hn
    rcases h.kept hlt with h0 | hr
    · rw [hb.heldUsed f hlt h0] at hfree
      cases hfree
    · rw [hr.bit] at hfree
      cases hfree
  refine ⟨fun htf => ?_, fun hlt => ?_⟩
  · rcases htab f htf with h' | h'
    · exact h.data h'
    · exact hnew h'
  · obtain ⟨hbit, hcnt⟩ := ht.same f hnew
    rcases h.kept (ht.total ▸ hlt) with h0 | hr
    · exact .inl h0
    · exact .inr ⟨hcnt.trans hr.count, hr.held, hbit.trans hr.bit⟩

theorem Pinned.free {f g : Nat} (h : Pinned table held p f) (hok : p.pmmFreePage (g * PAGE_SIZE) = .ok p') :
    Pinned table held p' f := by
  obtain ⟨-, rfl⟩ | ⟨hg, hpos, ht, hcnt, hbits⟩ := pmmFreePage_ok hok
  · exact h
  refine ⟨h.data, fun hlt => ?_⟩
  rcases h.kept (ht ▸ hlt) with h0 | hr
  · exact .inl h0
  · have hfg : f ≠ g := by
      rintro rfl
      have := hr.count
      omega
    refine .inr ⟨by rw [hcnt, update_of_ne hfg]; exact hr.count, hr.held, ?_⟩
    rcases hbits with ⟨-, hb⟩ | ⟨-, hb⟩
    · rw [hb]
      exact hr.bit
    · rw [hb, update_of_ne hfg]
      exact hr.bit

theorem Pinned.ref {f g : Nat} (h : Pinned table held p f) (hheld : g < p.totalPages → 0 < held g)
    (hok : p.pmmRefPage (g * PAGE_SIZE) = .ok p') : Pinned table held p' f := by
  obtain ⟨-, rfl⟩ | ⟨hg, ht, hb, hcnt⟩ := pmmRefPage_ok hok
  · exact h
  refine ⟨h.data, fun hlt => ?_⟩
  rcases h.kept (ht ▸ hlt) with h0 | hr
  · exact .inl h0
  · have hfg : f ≠ g := by
      rintro rfl
      have := hr.held
      have := hheld hg
      omega
    exact .inr ⟨by rw [hcnt, update_of_ne hfg]; exact hr.count, hr.held, by rw [hb]; exact hr.bit⟩

end

end EterOS.Mm
