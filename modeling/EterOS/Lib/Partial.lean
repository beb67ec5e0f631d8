import Mathlib.Data.Option.Basic
/-!
# Partial — what holds after a computation that may stop

`After P r`: the value of the computation has the property, if there is one.  Sequencing keeps it, and so does a loop over a
list.
-/
namespace EterOS.Partial

variable {α β γ ι : Type*} {P : α → Prop} {Q : β → Prop} {r : Option α} {a : α}

def After (P : α → Prop) (r : Option α) : Prop := ∀ a, r = some a → P a

theorem after_some (h : P a) : After P (some a) := by
  rintro _ ⟨⟩
  exact h

theorem After.bind {f : α → Option β} (hr : After P r) (hf : ∀ a, P a → After Q (f a)) : After Q (r.bind f) := by
  intro b hb
  obtain ⟨a, ha, hfa⟩ := Option.bind_eq_some_iff.1 hb
  exact hf a (hr a ha) b hfa

theorem After.map {f : α → β} (hr : After P r) (hf : ∀ a, P a → Q (f a)) : After Q (r.map f) := by
  intro b hb
  obtain ⟨a, ha, rfl⟩ := Option.map_eq_some_iff.1 hb
  exact hf a (hr a ha)

theorem After.ret {f : α → α × γ} (hr : After P r) (hf : ∀ a, P a → P (f a).1) : After P ((r.map f).map Prod.fst) := by
  rw [Option.map_map]
  exact hr.map hf

theorem after_bind {r : Option (α × γ)} {f : α × γ → Option β} (hr : After P (r.map Prod.fst))
    (hf : ∀ a c, P a → After Q (f (a, c))) : After Q (r.bind f) := by
  intro b hb
  obtain ⟨⟨a, c⟩, ha, hfa⟩ := Option.bind_eq_some_iff.1 hb
  refine hf a c (hr a ?_) b hfa
  rw [ha]
  rfl

theorem after_foldlM {body : α → ι → Option α} (hbody : ∀ a i, P a → After P (body a i)) (l : List ι) :
    ∀ a, P a → After P (l.foldlM body a) := by
  induction l with
  | nil => exact fun a h => after_some h
  | cons i l ih =>
    intro a h
    rw [List.foldlM_cons]
    exact (hbody a i h).bind ih

end EterOS.Partial
