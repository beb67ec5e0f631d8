import EterOS.Lib.Loop
/-!
# Leap — a loop that goes several turns of another at once

A program goes over its data in big steps where it may and in small ones elsewhere.  `After turn k s s'` says that `k` turns
from `s` all go on, and end in `s'`; a loop whose every turn is one or more turns of `turn`, or has its result, gives what
`turn` gives (`gives_leap`).
-/
namespace EterOS.Loop

variable {σ ρ : Type*} {turn leap : σ → σ ⊕ ρ} {s s' s'' : σ} {r : ρ} {k n : Nat}

inductive After (turn : σ → σ ⊕ ρ) : Nat → σ → σ → Prop
  | refl (s : σ) : After turn 0 s s
  | next {k : Nat} {s s' s'' : σ} : turn s = .inl s' → After turn k s' s'' → After turn (k + 1) s s''

theorem After.gives (h : After turn k s s') : Gives turn s r ↔ Gives turn s' r := by
  induction h with
  | refl s => exact Iff.rfl
  | next hturn _ ih => exact (gives_next hturn).trans ih

theorem After.run (h : After turn k s s') (hr : run turn n s = some r) : k < n ∧ Loop.run turn (n - k) s' = some r := by
  induction h generalizing n with
  | refl s =>
    cases n with
    | zero => cases hr
    | succ n => exact ⟨Nat.succ_pos n, hr⟩
  | next hturn _ ih =>
    cases n with
    | zero => cases hr
    | succ n =>
      rw [run_next hturn] at hr
      obtain ⟨hlt, hrest⟩ := ih hr
      refine ⟨Nat.succ_lt_succ hlt, ?_⟩
      rwa [Nat.succ_sub_succ]

theorem after_of_forall (f : Nat → σ) (k : Nat) (h : ∀ i < k, turn (f i) = .inl (f (i + 1))) : After turn k (f 0) (f k) := by
  induction k generalizing f with
  | zero => exact .refl _
  | succ k ih =>
    refine .next (h 0 (Nat.succ_pos k)) ?_
    exact ih (fun i => f (i + 1)) fun i hi => h (i + 1) (Nat.succ_lt_succ hi)

theorem Gives.unique {r' : ρ} (h : Gives turn s r) (h' : Gives turn s r') : r = r' := by
  obtain ⟨n, hn⟩ := h
  obtain ⟨m, hm⟩ := h'
  have hn' := run_mono hn (Nat.le_max_left n m)
  have hm' := run_mono hm (Nat.le_max_right n m)
  rw [hn'] at hm'
  exact Option.some.inj hm'

inductive Comes (turn : σ → σ ⊕ ρ) : σ → σ ⊕ ρ → Prop
  | refl (s : σ) : Comes turn s (.inl s)
  | done {s : σ} {r : ρ} : turn s = .inr r → Comes turn s (.inr r)
  | next {s s' : σ} {x : σ ⊕ ρ} : turn s = .inl s' → Comes turn s' x → Comes turn s x

theorem Comes.returns {x : σ ⊕ ρ} (h : Comes turn s x) (f : σ → Nat → Option ρ)
    (hf : ∀ s, (∃ turns, f s turns = some r) ↔ Gives turn s r) :
    (∃ turns, (match x with | .inl s' => f s' turns | .inr r' => some r') = some r) ↔ Gives turn s r := by
  induction h with
  | refl s => exact hf s
  | done hdone =>
    rw [gives_done hdone]
    simp
  | next hnext _ ih => exact ih.trans (gives_next hnext).symm

/-- One turn of `leap` is some turns of `turn`, or has its result. -/
def Leaps (turn leap : σ → σ ⊕ ρ) (s : σ) : Prop :=
  (∃ k s', 0 < k ∧ After turn k s s' ∧ leap s = .inl s') ∨ ∃ r, Gives turn s r ∧ leap s = .inr r

/-- **A loop in big steps gives what the loop in small steps gives.** -/
theorem gives_leap (h : ∀ s, Leaps turn leap s) (s : σ) : Gives leap s r ↔ Gives turn s r := by
  constructor
  · rintro ⟨n, hn⟩
    induction n generalizing s with
    | zero => cases hn
    | succ n ih =>
      rcases h s with ⟨k, s', hk, hafter, hleap⟩ | ⟨r', hgives, hleap⟩
      · rw [run_next hleap] at hn
        exact hafter.gives.2 (ih s' hn)
      · rw [run_done hleap] at hn
        exact Option.some.inj hn ▸ hgives
  · rintro ⟨n, hn⟩
    induction n using Nat.strongRecOn generalizing s with
    | ind n ih =>
      rcases h s with ⟨k, s', hk, hafter, hleap⟩ | ⟨r', hgives, hleap⟩
      · obtain ⟨hlt, hrest⟩ := hafter.run hn
        exact (gives_next hleap).2 (ih (n - k) (by omega) s' hrest)
      · exact (gives_done hleap).2 (hgives.unique ⟨n, hn⟩)

/-- **A loop in big steps that hands over to the loop in small steps**, and does not pass the place where that one ends. -/
theorem gives_handover {leap : σ → σ ⊕ σ} (h : ∀ s, (∃ k s', 0 < k ∧ After turn k s s' ∧ leap s = .inl s') ∨
    leap s = .inr s) (s : σ) :
    (∃ s', Gives leap s s' ∧ Gives turn s' r) ↔ Gives turn s r := by
  constructor
  · rintro ⟨s', ⟨n, hn⟩, hgives⟩
    induction n generalizing s with
    | zero => cases hn
    | succ n ih =>
      rcases h s with ⟨k, s1, hk, hafter, hleap⟩ | hleap
      · rw [run_next hleap] at hn
        exact hafter.gives.2 (ih s1 hn)
      · rw [run_done hleap] at hn
        exact Option.some.inj hn ▸ hgives
  · rintro ⟨n, hn⟩
    induction n using Nat.strongRecOn generalizing s with
    | ind n ih =>
      rcases h s with ⟨k, s1, hk, hafter, hleap⟩ | hleap
      · obtain ⟨hlt, hrest⟩ := hafter.run hn
        obtain ⟨s', hgives, hlast⟩ := ih (n - k) (by omega) s1 hrest
        exact ⟨s', (gives_next hleap).2 hgives, hlast⟩
      · exact ⟨s, (gives_done hleap).2 rfl, n, hn⟩

def Returns {α : Type*} (f : Nat → Option α) (a : α) : Prop := ∃ turns, f turns = some a

end EterOS.Loop
