import Mathlib.Logic.Function.Iterate
/-!
# Loop — loops that may not end

A turn of a `while` loop goes on with a state or ends with a result.  `run` gives a loop so many turns, and `Gives` says
that some number of them is enough.  A computation made of loops is given as many turns for each of them (`Steady`).
-/
namespace EterOS.Loop

variable {σ ρ α β : Type*} {turn : σ → σ ⊕ ρ} {s s' : σ} {r r' : ρ} {n m : Nat}

/-- So many turns of a loop; `none` where they are not enough. -/
def run (turn : σ → σ ⊕ ρ) : Nat → σ → Option ρ
  | 0, _ => none
  | turns + 1, s =>
    match turn s with
    | .inl s' => run turn turns s'
    | .inr r => some r

def Gives (turn : σ → σ ⊕ ρ) (s : σ) (r : ρ) : Prop := ∃ turns, run turn turns s = some r

theorem run_next (h : turn s = .inl s') (n : Nat) : run turn (n + 1) s = run turn n s' := by
  rw [run, h]

theorem run_done (h : turn s = .inr r) (n : Nat) : run turn (n + 1) s = some r := by
  rw [run, h]

theorem run_mono (h : run turn n s = some r) (hle : n ≤ m) : run turn m s = some r := by
  induction n generalizing s m with
  | zero => cases h
  | succ n ih =>
    obtain ⟨m, rfl⟩ := Nat.exists_eq_succ_of_ne_zero (Nat.ne_of_gt (Nat.lt_of_lt_of_le (Nat.succ_pos n) hle))
    cases ht : turn s with
    | inl s' =>
      rw [Nat.succ_eq_add_one, run_next ht]
      rw [run_next ht] at h
      exact ih h (Nat.le_of_succ_le_succ hle)
    | inr r' =>
      rw [Nat.succ_eq_add_one, run_done ht]
      rw [run_done ht] at h
      exact h

theorem gives_next (h : turn s = .inl s') : Gives turn s r ↔ Gives turn s' r := by
  constructor
  · rintro ⟨n, hn⟩
    cases n with
    | zero => cases hn
    | succ n => exact ⟨n, by rw [run_next h] at hn; exact hn⟩
  · rintro ⟨n, hn⟩
    exact ⟨n + 1, by rw [run_next h]; exact hn⟩

theorem gives_done (h : turn s = .inr r') : Gives turn s r ↔ r' = r := by
  constructor
  · rintro ⟨n, hn⟩
    cases n with
    | zero => cases hn
    | succ n =>
      rw [run_done h] at hn
      exact Option.some.inj hn
  · rintro rfl
    exact ⟨1, run_done h 0⟩

/-! ## More than one loop -/

def Steady (f : Nat → Option α) : Prop := ∀ n m a, f n = some a → n ≤ m → f m = some a

theorem steady_run (turn : σ → σ ⊕ ρ) (s : σ) : Steady fun n => run turn n s := fun _ _ _ h hle => run_mono h hle

/-- **One loop behind another**: both end, the second from what the first has given. -/
theorem Steady.bind_gives {f : Nat → Option α} {g : α → Nat → Option β} (hf : Steady f) (hg : ∀ a, Steady (g a)) {b : β} :
    (∃ n, ((f n).bind fun a => g a n) = some b) ↔ ∃ a, (∃ n, f n = some a) ∧ ∃ n, g a n = some b := by
  constructor
  · rintro ⟨n, h⟩
    obtain ⟨a, ha, hb⟩ := Option.bind_eq_some_iff.1 h
    exact ⟨a, ⟨n, ha⟩, n, hb⟩
  · rintro ⟨a, ⟨n, hn⟩, m, hm⟩
    refine ⟨max n m, Option.bind_eq_some_iff.2 ⟨a, ?_, ?_⟩⟩
    · exact hf n _ a hn (Nat.le_max_left n m)
    · exact hg a m _ b hm (Nat.le_max_right n m)

end EterOS.Loop
