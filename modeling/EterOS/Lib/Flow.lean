import Mathlib.Data.List.Basic
/-!
# Flow — statements that may return early

A statement of an imperative function falls through, returns, leaves its caller for good, or stops the machine.  The
state is kept in the first three, so that what a function did before it returned is not lost.  `Post` is the pair of
postconditions, for falling through and for every way out; each connective has one rule for it.
-/
namespace EterOS

inductive Flow (σ ρ : Type) where
  | next (s : σ)
  | ret (s : σ) (r : ρ)
  | stop (s : σ)
  | halt

namespace Flow

variable {σ ρ α : Type}

def andThen : Flow σ ρ → (σ → Flow σ ρ) → Flow σ ρ
  | next s, k => k s
  | ret s r, _ => ret s r
  | stop s, _ => stop s
  | halt, _ => halt

def each (body : α → σ → Flow σ ρ) : List α → σ → Flow σ ρ
  | [], s => next s
  | a :: as, s => (body a s).andThen (each body as)

def call (d : ρ) : Flow σ ρ → (σ → ρ → Flow σ ρ) → Flow σ ρ
  | next s, k => k s d
  | ret s r, k => k s r
  | stop s, _ => stop s
  | halt, _ => halt

/-- The state a call leaves behind; a machine that stopped keeps the one it had. -/
def state (before : σ) : Flow σ ρ → σ
  | next s | ret s _ | stop s => s
  | halt => before

/-- `P` where the statement falls through; `Q` where it leaves, with what it returns if it does return. -/
def Post (P : σ → Prop) (Q : σ → Option ρ → Prop) : Flow σ ρ → Prop
  | next s => P s
  | ret s r => Q s (some r)
  | stop s => Q s none
  | halt => True

variable {P R : σ → Prop} {Q : σ → Option ρ → Prop}

variable {f : Flow σ ρ}

theorem Post.andThen {k : σ → Flow σ ρ} (hf : f.Post P Q) (hk : ∀ s, P s → (k s).Post R Q) : (f.andThen k).Post R Q := by
  cases f with
  | next s => exact hk s hf
  | ret s r => exact hf
  | stop s => exact hf
  | halt => trivial

theorem Post.ite {c : Prop} [Decidable c] {g : Flow σ ρ} (hf : c → f.Post P Q) (hg : ¬ c → g.Post P Q) :
    (if c then f else g).Post P Q := by
  split
  · exact hf (by assumption)
  · exact hg (by assumption)

variable {body : α → σ → Flow σ ρ}

/-- **The loop rule**: what every turn keeps holds after the loop, and on the way out of it. -/
theorem Post.each : ∀ (as : List α) (s : σ), P s → (∀ a ∈ as, ∀ s, P s → (body a s).Post P Q) →
    (Flow.each body as s).Post P Q
  | [], _, h, _ => h
  | a :: as, s, h, hbody =>
    Post.andThen (hbody a List.mem_cons_self s h) fun s hs =>
      Post.each as s hs fun b hb => hbody b (List.mem_cons_of_mem a hb)

/-- `C` holds at every turn a loop comes to. -/
def Along (C : α → σ → Prop) (body : α → σ → Flow σ ρ) : List α → σ → Prop
  | [], _ => True
  | a :: as, s => C a s ∧ ∀ s', body a s = next s' → Along C body as s'

theorem along_true : ∀ (as : List α) (s : σ), Along (fun _ _ => True) body as s
  | [], _ => trivial
  | _ :: as, _ => ⟨trivial, fun s' _ => along_true as s'⟩

/-- **The loop rule** for what is left to do, where the turns meet a condition. -/
theorem Post.along {C : α → σ → Prop} {P : List α → σ → Prop} : ∀ (as : List α) (s : σ), P as s → Along C body as s →
      (∀ a ∈ as, ∀ rest s, P (a :: rest) s → C a s → (body a s).Post (P rest) Q) → (Flow.each body as s).Post (P []) Q
  | [], _, h, _, _ => h
  | a :: as, s, h, hC, hbody => by
    have hturn := hbody a List.mem_cons_self as s h hC.1
    unfold Flow.each
    cases hb : body a s with
    | next s' =>
      rw [hb] at hturn
      exact Post.along as s' hturn (hC.2 s' hb) fun b hb => hbody b (List.mem_cons_of_mem a hb)
    | ret s' r =>
      rw [hb] at hturn
      exact hturn
    | stop s' =>
      rw [hb] at hturn
      exact hturn
    | halt => trivial

/-- **The call rule**: the caller goes on with what the callee promises of its state and its result. -/
theorem Post.call {d : ρ} {k : σ → ρ → Flow σ ρ} {Q' : σ → Option ρ → Prop}
    (hf : f.Post (fun s => Q s (some d)) Q) (hstop : ∀ s, Q s none → Q' s none)
    (hk : ∀ s r, Q s (some r) → (k s r).Post R Q') : (Flow.call d f k).Post R Q' := by
  cases f with
  | next s => exact hk s d hf
  | ret s r => exact hk s r hf
  | stop s => exact hstop s hf
  | halt => trivial

theorem Post.mono {P' : σ → Prop} {Q' : σ → Option ρ → Prop} (h : f.Post P Q) (hP : ∀ s, P s → P' s)
    (hQ : ∀ s r, Q s r → Q' s r) : f.Post P' Q' := by
  cases f with
  | next s => exact hP s h
  | ret s r => exact hQ s _ h
  | stop s => exact hQ s _ h
  | halt => trivial

theorem Post.state {s : σ} (h : f.Post P fun s _ => P s) (hs : P s) : P (f.state s) := by
  cases f with
  | next s => exact h
  | ret s r => exact h
  | stop s => exact h
  | halt => exact hs

end Flow
end EterOS
