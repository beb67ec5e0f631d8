import Mathlib.Data.List.Basic
/-!
# Run — the states a run passes through, and what every step of it met

A deterministic machine is a step function; what is left open (the choices of a caller, the contents of user memory)
is part of the step's label.  `states` lists every state of a run, the first included, and `Guarded` says that a
condition held at every step, read at the state before it.  `states_forall` is the invariant rule;
`states_forall_iff` is the same rule when the condition is exact.
-/
namespace EterOS.Run

variable {σ ι : Type*}

def states (step : σ → ι → σ) : σ → List ι → List σ
  | s, [] => [s]
  | s, i :: is => s :: states step (step s i) is

/-- Every step of the run met `C`, read at the state before it. -/
def Guarded (step : σ → ι → σ) (C : σ → ι → Prop) : σ → List ι → Prop
  | _, [] => True
  | s, i :: is => C s i ∧ Guarded step C (step s i) is

variable {step : σ → ι → σ} {C : σ → ι → Prop} {P : σ → Prop}

theorem head_mem_states (s : σ) (is : List ι) : s ∈ states step s is := by
  cases is <;> simp [states]

theorem foldl_mem_states : ∀ (is : List ι) (s : σ), is.foldl step s ∈ states step s is
  | [], s => by simp [states]
  | i :: is, s => by
    rw [List.foldl_cons, states]
    exact List.mem_cons_of_mem _ (foldl_mem_states is (step s i))

/-- **The invariant rule**: what one guarded step preserves, a guarded run preserves. -/
theorem states_forall (hstep : ∀ s i, P s → C s i → P (step s i)) :
    ∀ (is : List ι) (s : σ), P s → Guarded step C s is → ∀ s' ∈ states step s is, P s'
  | [], s, h0, _, s', hs' => by
    simp only [states, List.mem_singleton] at hs'
    exact hs' ▸ h0
  | i :: is, s, h0, hg, s', hs' => by
    rcases List.mem_cons.1 hs' with rfl | hs'
    · exact h0
    · exact states_forall hstep is (step s i) (hstep s i h0 hg.1) hg.2 s' hs'

/-- What a step does, where the invariant holds before it and the condition is met, every step of a guarded run does. -/
theorem guarded_imp {D : σ → ι → Prop} (hstep : ∀ s i, P s → C s i → P (step s i) ∧ D s i) :
    ∀ (is : List ι) (s : σ), P s → Guarded step C s is → Guarded step D s is
  | [], _, _, _ => trivial
  | i :: is, s, h0, hg =>
    ⟨(hstep s i h0 hg.1).2, guarded_imp hstep is (step s i) (hstep s i h0 hg.1).1 hg.2⟩

/-- **The exact rule**: where a step keeps the invariant just when it meets the condition, a run keeps it in every
state just when every step meets the condition. -/
theorem states_forall_iff (hstep : ∀ s i, P s → (P (step s i) ↔ C s i)) :
    ∀ (is : List ι) (s : σ), P s → ((∀ s' ∈ states step s is, P s') ↔ Guarded step C s is)
  | [], s, h0 => by simpa [states, Guarded] using h0
  | i :: is, s, h0 => by
    constructor
    · intro h
      have h1 : P (step s i) := h _ (List.mem_cons_of_mem _ (head_mem_states (step s i) is))
      refine ⟨(hstep s i h0).1 h1, (states_forall_iff hstep is (step s i) h1).1 fun s' hs' => ?_⟩
      exact h s' (List.mem_cons_of_mem _ hs')
    · intro hg
      exact states_forall (fun s i hs hc => (hstep s i hs).2 hc) (i :: is) s h0 hg

/-- The exact rule for runs that keep to `D`, where `Q` holds as long as `P` has held so far. -/
theorem states_forall_iff_of_guarded {Q : σ → Prop} {D : σ → ι → Prop}
    (hstep : ∀ s i, Q s → P s → D s i → Q (step s i) ∧ (P (step s i) ↔ C s i)) :
    ∀ (is : List ι) (s : σ), Q s → P s → Guarded step D s is → ((∀ s' ∈ states step s is, P s') ↔ Guarded step C s is)
  | [], s, _, h0, _ => by simpa [states, Guarded] using h0
  | i :: is, s, hq, h0, hD => by
    obtain ⟨hq', hiff⟩ := hstep s i hq h0 hD.1
    constructor
    · intro h
      have h1 : P (step s i) := h _ (List.mem_cons_of_mem _ (head_mem_states (step s i) is))
      refine ⟨hiff.1 h1, (states_forall_iff_of_guarded hstep is (step s i) hq' h1 hD.2).1 fun s' hs' => ?_⟩
      exact h s' (List.mem_cons_of_mem _ hs')
    · intro hC s' hs'
      rcases List.mem_cons.1 hs' with rfl | hs'
      · exact h0
      · have h1 := hiff.2 hC.1
        exact (states_forall_iff_of_guarded hstep is (step s i) hq' h1 hD.2).2 hC.2 s' hs'

/-- What a step that reaches the property must have met, a run that keeps it met at every step. -/
theorem guarded_of_states_forall (hstep : ∀ s i, P (step s i) → C s i) :
    ∀ (is : List ι) (s : σ), (∀ s' ∈ states step s is, P s') → Guarded step C s is
  | [], _, _ => trivial
  | i :: is, s, h => by
    have htail : ∀ s' ∈ states step (step s i) is, P s' := fun s' hs' => h s' (List.mem_cons_of_mem _ hs')
    exact ⟨hstep s i (htail _ (head_mem_states _ is)), guarded_of_states_forall hstep is (step s i) htail⟩

theorem guarded_of_forall (hC : ∀ i s, C s i) : ∀ (is : List ι) (s : σ), Guarded step C s is
  | [], _ => trivial
  | i :: is, s => ⟨hC i s, guarded_of_forall hC is (step s i)⟩

theorem guarded_and {D : σ → ι → Prop} : ∀ {is : List ι} {s : σ}, Guarded step C s is → Guarded step D s is →
    Guarded step (fun s i => C s i ∧ D s i) s is
  | [], _, _, _ => trivial
  | _ :: _, _, hC, hD => ⟨⟨hC.1, hD.1⟩, guarded_and hC.2 hD.2⟩

theorem guarded_append : ∀ {is js : List ι} {s : σ},
    Guarded step C s (is ++ js) ↔ Guarded step C s is ∧ Guarded step C (is.foldl step s) js
  | [], js, s => by simp [Guarded]
  | i :: is, js, s => by
    rw [List.cons_append, Guarded, Guarded, List.foldl_cons, guarded_append, and_assoc]

theorem guarded_iff_forall_mem {D : ι → Prop} : ∀ (is : List ι) (s : σ), Guarded step (fun _ i => D i) s is ↔ ∀ i ∈ is, D i
  | [], s => by simp [Guarded]
  | i :: is, s => by
    rw [Guarded, guarded_iff_forall_mem is (step s i), List.forall_mem_cons]

end EterOS.Run
