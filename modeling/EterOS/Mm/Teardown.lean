import EterOS.Mm.PmmAccount
import EterOS.Mm.Vmm
/-!
# Teardown — what destroying an address space gives back

Freeing writes no memory, so the frames `free_pt_recursive` releases are a function of the tables it finds: `freed`.
Destroying is then a list of calls of `pmm_free_page` (`freePt_eq`), and where the references of the list are held the
accounts lose exactly these (`freeAll_accounts`).
-/
namespace EterOS.Mm
namespace Vm

/-- What one entry of a table of `level` releases, given what its subtable does. -/
def freedEntry (below : Nat → List Nat) (level : Nat) (e : BitVec 64) : List Nat :=
  if !present e then []
  else if !user e then []
  else if (level = 3 ∨ level = 2) ∧ huge e then [frameOf e]
  else if level > 1 then below (frameOf e) ++ [frameOf e]
  else [frameOf e]

/-- The frames `free_pt_recursive` releases, in order. -/
def freed (m : Nat → Nat → BitVec 64) : Nat → Nat → List Nat
  | 0, _ => []
  | level + 1, table => (List.range 512).flatMap fun i => freedEntry (freed m level) (level + 1) (m table i)

def freeAll (s : Vm) (frames : List Nat) : Except PmmPanic Vm := frames.foldlM freeFrame s

theorem freeAll_cons (s : Vm) (f : Nat) (fs : List Nat) :
    s.freeAll (f :: fs) = (s.freeFrame f).bind fun s => s.freeAll fs := rfl

theorem freeAll_append : ∀ (fs gs : List Nat) (s : Vm), s.freeAll (fs ++ gs) = (s.freeAll fs).bind fun s => s.freeAll gs
  | [], gs, s => rfl
  | f :: fs, gs, s => by
    rw [List.cons_append, freeAll_cons, freeAll_cons]
    cases h : s.freeFrame f with
    | error e => rfl
    | ok s' => exact freeAll_append fs gs s'

theorem freeAll_singleton (s : Vm) (f : Nat) : s.freeAll [f] = s.freeFrame f := by
  rw [freeAll_cons]
  cases s.freeFrame f <;> rfl

theorem freeFrame_mem {s s' : Vm} {f : Nat} (h : s.freeFrame f = .ok s') : s'.mem = s.mem := by
  unfold freeFrame at h
  cases hf : s.pmm.pmmFreePage (f * PAGE_SIZE) with
  | error e =>
    rw [hf] at h
    cases h
  | ok pmm =>
    rw [hf] at h
    cases h
    rfl

theorem freeAll_mem : ∀ (fs : List Nat) (s s' : Vm), s.freeAll fs = .ok s' → s'.mem = s.mem
  | [], s, s', h => by
    cases h
    rfl
  | f :: fs, s, s', h => by
    rw [freeAll_cons] at h
    cases hf : s.freeFrame f with
    | error e =>
      rw [hf] at h
      cases h
    | ok t =>
      rw [hf] at h
      exact (freeAll_mem fs t s' h).trans (freeFrame_mem hf)

theorem foldlM_freeAll {body : Vm → Nat → Except PmmPanic Vm} {g : (Nat → Nat → BitVec 64) → Nat → List Nat}
    (hbody : ∀ s i, body s i = s.freeAll (g s.mem i)) :
    ∀ (is : List Nat) (s : Vm), is.foldlM body s = s.freeAll (is.flatMap (g s.mem))
  | [], s => rfl
  | i :: is, s => by
    rw [List.foldlM_cons, List.flatMap_cons, freeAll_append, hbody]
    cases h : s.freeAll (g s.mem i) with
    | error e => rfl
    | ok t =>
      show is.foldlM body t = t.freeAll (is.flatMap (g s.mem))
      rw [foldlM_freeAll hbody is t, freeAll_mem _ _ _ h]

theorem freePt_eq : ∀ (level table : Nat) (s : Vm), freePt level table s = s.freeAll (freed s.mem level table)
  | 0, _, _ => rfl
  | level + 1, table, s => by
    rw [freePt, freed]
    refine foldlM_freeAll (g := fun m i => freedEntry (freed m level) (level + 1) (m table i)) (fun s i => ?_) _ s
    dsimp only
    unfold freedEntry
    split
    · rfl
    split
    · rfl
    split
    · rw [freeAll_singleton]
    split
    · rw [freeAll_append, freePt_eq level]
      cases s.freeAll (freed s.mem level (frameOf (s.mem table i))) with
      | error e => rfl
      | ok t =>
        show t.freeFrame _ = t.freeAll _
        rw [freeAll_singleton]
    · rw [freeAll_singleton]

theorem vmmDestroyPml4_eq (s : Vm) (p : Nat) : s.vmmDestroyPml4 (some p) = s.freeAll (freed s.mem 4 p ++ [p]) := by
  rw [vmmDestroyPml4, freeAll_append, freePt_eq]
  cases s.freeAll (freed s.mem 4 p) with
  | error e => rfl
  | ok t =>
    show t.freeFrame p = t.freeAll [p]
    rw [freeAll_singleton]

/-! ## The tables a teardown visits -/

/-- Every table the teardown of `table` visits satisfies `N`. -/
def Owned (m : Nat → Nat → BitVec 64) (N : Nat → Prop) : Nat → Nat → Prop
  | 0, _ => True
  | level + 1, table => N table ∧ ∀ i < 512, present (m table i) = true → user (m table i) = true →
      ¬ ((level + 1 = 3 ∨ level + 1 = 2) ∧ huge (m table i) = true) → Owned m N level (frameOf (m table i))

theorem freed_congr {m m' : Nat → Nat → BitVec 64} {N : Nat → Prop} (hm : ∀ f, N f → m' f = m f) :
    ∀ (level table : Nat), Owned m N level table → freed m' level table = freed m level table
  | 0, _, _ => rfl
  | level + 1, table, ho => by
    rw [freed, freed, hm table ho.1]
    rw [List.flatMap_def, List.flatMap_def]
    refine congrArg List.flatten (List.map_congr_left fun i hi => ?_)
    have hi' : i < 512 := List.mem_range.1 hi
    unfold freedEntry
    split
    · rfl
    rename_i hp
    split
    · rfl
    rename_i hu
    split
    · rfl
    rename_i hh
    split
    · rw [freed_congr hm level _ (ho.2 i hi' (by simpa using hp) (by simpa using hu) hh)]
    · rfl

theorem Owned.congr {m m' : Nat → Nat → BitVec 64} {N N' : Nat → Prop} (hm : ∀ f, N f → m' f = m f)
    (hN : ∀ f, N f → N' f) : ∀ {level table : Nat}, Owned m N level table → Owned m' N' level table
  | 0, _, _ => trivial
  | level + 1, table, ho => by
    refine ⟨hN table ho.1, fun i hi hp hu hh => ?_⟩
    rw [hm table ho.1] at hp hu hh ⊢
    exact (ho.2 i hi hp hu hh).congr hm hN

/-! ## The accounts of a teardown -/

theorem freeFrame_accounts {usable : Nat → Prop} {s : Vm} {out : Nat → Nat} (h : Accounts usable s.pmm out) {f : Nat}
    (hpos : 0 < out f) :
    ∃ s', s.freeFrame f = .ok s' ∧ Accounts usable s'.pmm (Ledger.drop out f) := by
  have hdiv : f * PAGE_SIZE / PAGE_SIZE = f := Nat.mul_div_cancel f (by decide)
  have hpos' : 0 < out (f * PAGE_SIZE / PAGE_SIZE) := by
    rw [hdiv]
    exact hpos
  obtain ⟨pmm, hok, hacc⟩ := h.free hpos'
  rw [hdiv] at hacc
  refine ⟨{ s with pmm := pmm }, ?_, hacc⟩
  unfold freeFrame
  rw [hok]
  rfl

theorem freeAll_accounts {usable : Nat → Prop} : ∀ (fs : List Nat) (s : Vm) (out : Nat → Nat),
    Accounts usable s.pmm out → (∀ p, fs.count p ≤ out p) →
    ∃ s', s.freeAll fs = .ok s' ∧ Accounts usable s'.pmm fun p => out p - fs.count p
  | [], s, out, h, _ => ⟨s, rfl, h⟩
  | f :: fs, s, out, h, hle => by
    have hf := hle f
    rw [List.count_cons_self] at hf
    obtain ⟨t, ht, hacc⟩ := freeFrame_accounts h (f := f) (by omega)
    have hle' : ∀ p, fs.count p ≤ Ledger.drop out f p := by
      intro p
      have hp := hle p
      rw [List.count_cons] at hp
      unfold Ledger.drop
      by_cases hpf : p = f
      · subst hpf
        rw [Function.update_self]
        omega
      · rw [Function.update_of_ne hpf]
        omega
    obtain ⟨s', hs', hacc'⟩ := freeAll_accounts fs t _ hacc hle'
    refine ⟨s', ?_, ?_⟩
    · rw [freeAll_cons, ht]
      exact hs'
    · have heq : (fun p => out p - (f :: fs).count p) = fun p => Ledger.drop out f p - fs.count p := by
        funext p
        unfold Ledger.drop
        by_cases hpf : p = f
        · subst hpf
          rw [Function.update_self, List.count_cons_self]
          omega
        · rw [Function.update_of_ne hpf, List.count_cons_of_ne (Ne.symm hpf)]
      rw [heq]
      exact hacc'

theorem freeFrame_counts {s s' : Vm} {f : Nat} (h : s.freeFrame f = .ok s') :
    s'.pmm.totalPages = s.pmm.totalPages ∧ (∀ p, s'.pmm.refCounts p ≤ s.pmm.refCounts p) ∧
      (f < s.pmm.totalPages → s'.pmm.refCounts f < s.pmm.refCounts f) := by
  have hdiv : f * PAGE_SIZE / PAGE_SIZE = f := Nat.mul_div_cancel f (by decide)
  have hdec : ∀ p, (s.pmm.setRefCount f (s.pmm.refCounts f - 1)).refCounts p ≤ s.pmm.refCounts p := by
    intro p
    by_cases hp : p = f
    · subst hp
      simp [Pmm.setRefCount]
    · simp [Pmm.setRefCount, hp]
  unfold freeFrame Pmm.pmmFreePage at h
  rw [hdiv] at h
  dsimp only at h
  split at h
  · rename_i hge
    cases h
    exact ⟨rfl, fun _ => Nat.le_refl _, fun hlt => by omega⟩
  split at h
  · cases h
  rename_i hne
  have hlt : (s.pmm.setRefCount f (s.pmm.refCounts f - 1)).refCounts f < s.pmm.refCounts f := by
    simp [Pmm.setRefCount]
    omega
  split at h
  · cases h
    exact ⟨rfl, hdec, fun _ => hlt⟩
  split at h
  · cases h
  · cases h
    exact ⟨rfl, hdec, fun _ => hlt⟩

theorem freeAll_counts : ∀ (fs : List Nat) (s s' : Vm), s.freeAll fs = .ok s' →
    s'.pmm.totalPages = s.pmm.totalPages ∧ (∀ p, s'.pmm.refCounts p ≤ s.pmm.refCounts p) ∧
      ∀ f ∈ fs, f < s.pmm.totalPages → s'.pmm.refCounts f < s.pmm.refCounts f
  | [], s, s', h => by
    cases h
    exact ⟨rfl, fun _ => Nat.le_refl _, fun f hf => by cases hf⟩
  | g :: fs, s, s', h => by
    rw [freeAll_cons] at h
    cases hg : s.freeFrame g with
    | error e =>
      rw [hg] at h
      cases h
    | ok t =>
      rw [hg] at h
      obtain ⟨ht, hle, hlt⟩ := freeFrame_counts hg
      obtain ⟨ht', hle', hlt'⟩ := freeAll_counts fs t s' h
      refine ⟨ht'.trans ht, fun p => (hle' p).trans (hle p), fun f hf hft => ?_⟩
      rcases List.mem_cons.1 hf with rfl | hf
      · exact (hle' f).trans_lt (hlt hft)
      · exact (hlt' f hf (ht ▸ hft)).trans_le (hle f)

end Vm
end EterOS.Mm
