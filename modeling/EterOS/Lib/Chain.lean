import Mathlib.Data.List.Basic
import Mathlib.Logic.Function.Basic
/-!
# Chain — cells linked one to the next up to a stop

`next` is where a cell links to and `stop` says that a value is no cell but an end.  `IsChain` is the list of the cells
met from a value on, `walk` computes it for so many turns.
-/
namespace EterOS

variable {α : Type*}

def IsChain (next : α → α) (stop : α → Prop) : α → List α → Prop
  | a, [] => stop a
  | a, b :: l => a = b ∧ ¬ stop a ∧ IsChain next stop (next a) l

/-- The cells a walk meets in `turns` turns. -/
def walk (next : α → α) (stop : α → Prop) [DecidablePred stop] : Nat → α → List α
  | 0, _ => []
  | turns + 1, a => if stop a then [] else a :: walk next stop turns (next a)

namespace IsChain

variable {next next' : α → α} {stop : α → Prop} {a b c : α} {l l' : List α}

theorem walk_eq [DecidablePred stop] {turns : Nat} (h : IsChain next stop a l) (hlen : l.length ≤ turns) :
    walk next stop turns a = l := by
  induction l generalizing a turns with
  | nil =>
    cases turns with
    | zero => rfl
    | succ turns => exact if_pos h
  | cons b l ih =>
    obtain ⟨rfl, hstop, hl⟩ := h
    cases turns with
    | zero => simp at hlen
    | succ turns =>
      rw [walk, if_neg hstop, ih hl (by simpa using hlen)]

theorem unique (h : IsChain next stop a l) (h' : IsChain next stop a l') : l = l' := by
  induction l generalizing a l' with
  | nil =>
    cases l' with
    | nil => rfl
    | cons b l' => exact absurd h h'.2.1
  | cons b l ih =>
    cases l' with
    | nil => exact absurd h' h.2.1
    | cons b' l' => rw [← h.1, ← h'.1, ih h.2.2 h'.2.2]

theorem not_stop (h : IsChain next stop a l) (hb : b ∈ l) : ¬ stop b := by
  induction l generalizing a with
  | nil => simp at hb
  | cons c l ih =>
    rcases List.mem_cons.1 hb with rfl | hb
    · exact h.1 ▸ h.2.1
    · exact ih h.2.2 hb

theorem suffix (h : IsChain next stop a l) (hb : b ∈ l) : ∃ l', IsChain next stop b l' ∧ l' <:+ l := by
  induction l generalizing a with
  | nil => simp at hb
  | cons c l ih =>
    rcases List.mem_cons.1 hb with rfl | hb
    · exact ⟨b :: l, h.1 ▸ h, List.suffix_refl _⟩
    · obtain ⟨l', hl', hs⟩ := ih h.2.2 hb
      exact ⟨l', hl', hs.trans (List.suffix_cons c l)⟩

theorem nodup (h : IsChain next stop a l) : l.Nodup := by
  induction l generalizing a with
  | nil => exact List.nodup_nil
  | cons b l ih =>
    refine List.nodup_cons.2 ⟨fun hb => ?_, ih h.2.2⟩
    -- a cell met again has the same chain, which would be shorter than itself
    obtain ⟨l', hl', hs⟩ := h.2.2.suffix hb
    have heq : l' = b :: l := hl'.unique (h.1 ▸ h)
    have hle := hs.length_le
    rw [heq, List.length_cons] at hle
    omega

theorem congr (h : IsChain next stop a l) (heq : ∀ b ∈ l, next' b = next b) : IsChain next' stop a l := by
  induction l generalizing a with
  | nil => exact h
  | cons b l ih =>
    obtain ⟨rfl, hstop, hl⟩ := h
    refine ⟨rfl, hstop, ?_⟩
    rw [heq a List.mem_cons_self]
    exact ih hl fun b hb => heq b (List.mem_cons_of_mem a hb)

theorem append (h : IsChain next stop a (l ++ [b])) (hlink : next' b = c) (hc : ¬ stop c) (hend : stop (next' c))
    (heq : ∀ d ∈ l, next' d = next d) : IsChain next' stop a (l ++ [b] ++ [c]) := by
  induction l generalizing a with
  | nil =>
    obtain ⟨rfl, hstop, _⟩ := h
    exact ⟨rfl, hstop, hlink, hlink ▸ hc, hlink ▸ hend⟩
  | cons d l ih =>
    obtain ⟨rfl, hstop, hl⟩ := h
    refine ⟨rfl, hstop, ?_⟩
    rw [heq a List.mem_cons_self]
    exact ih hl fun d hd => heq d (List.mem_cons_of_mem a hd)

theorem drop (h : IsChain next stop a l) {k : Nat} (hk : k < l.length) : IsChain next stop l[k] (l.drop k) := by
  induction k generalizing a l with
  | zero =>
    cases l with
    | nil => simp at hk
    | cons b l => exact h.1 ▸ h
  | succ k ih =>
    cases l with
    | nil => simp at hk
    | cons b l => exact ih h.2.2 (by simpa using hk)

theorem next_getElem (h : IsChain next stop a l) {k : Nat} (hk : k + 1 < l.length) : next l[k] = l[k + 1] := by
  have hd := h.drop (Nat.lt_of_succ_lt hk)
  rw [List.drop_eq_getElem_cons (Nat.lt_of_succ_lt hk), List.drop_eq_getElem_cons hk] at hd
  exact hd.2.2.1

theorem stop_next_last (h : IsChain next stop a (l ++ [b])) : stop (next b) := by
  induction l generalizing a with
  | nil =>
    obtain ⟨rfl, _, hl⟩ := h
    exact hl
  | cons d l ih => exact ih h.2.2

end IsChain
end EterOS
