import Mathlib.Data.List.Induction
/-!
# Mounts — trees put into a tree

A walk goes down a tree of nodes name by name, and `pick` may put the root of another tree in the place of the node it
has found.  A mount is made at a path, on a node with a key.  `byKey` picks by the key alone and `byPath` by the path as
well: the one is what a table of keys can do, the other what the mounts are for.  `told_iff` says when they do the same.
-/
namespace EterOS

variable {α κ ν : Type*}

structure MountSpace (α κ ν : Type*) where
  root : α
  key : α → κ
  dir : α → Bool
  child : α → ν → Option α

structure Mount (α κ ν : Type*) where
  path : List ν
  key : κ
  fs : α

namespace MountSpace

variable (S : MountSpace α κ ν)

def enter (pick : List ν → α → Option (Mount α κ ν)) (p : List ν) (d : α) (c : ν) : Option α :=
  if S.dir d then (S.child d c).map fun n => ((pick (p ++ [c]) n).map (·.fs)).getD n else none

def walk (pick : List ν → α → Option (Mount α κ ν)) : List ν → α → List ν → Option α
  | _, d, [] => some d
  | p, d, c :: cs => (S.enter pick p d c).bind fun n => walk pick (p ++ [c]) n cs

variable [DecidableEq κ] [DecidableEq ν]

def byKey (E : List (Mount α κ ν)) (n : α) : Option (Mount α κ ν) := E.find? fun e => e.key = S.key n

def byPath (E : List (Mount α κ ν)) (p : List ν) (n : α) : Option (Mount α κ ν) :=
  E.find? fun e => e.key = S.key n ∧ e.path = p

/-- What is found at a path has the key of a mount only where that mount is at the path, and has one where one is. -/
def Told (E : List (Mount α κ ν)) (p : List ν) (n : α) : Prop :=
  (∀ e, S.byKey E n = some e → e.path = p) ∧ (p ∈ E.map (·.path) → (S.byKey E n).isSome)

/-- Everything a walk meets on the way along names of `V`. -/
def Meets (V : ν → Prop) (pick : List ν → α → Option (Mount α κ ν)) (P : List ν → α → Prop) : Prop :=
  ∀ p c d n, (∀ x ∈ p, V x) → V c → S.walk pick [] S.root p = some d → S.dir d = true → S.child d c = some n → P (p ++ [c]) n

variable {S} {V : ν → Prop} {E : List (Mount α κ ν)} {p q cs : List ν} {c : ν} {d n : α}
  {f g : List ν → α → Option (Mount α κ ν)}

omit [DecidableEq κ] [DecidableEq ν] in
theorem walk_append (pick : List ν → α → Option (Mount α κ ν)) : ∀ (cs : List ν) (p : List ν) (d : α) (cs' : List ν),
    S.walk pick p d (cs ++ cs') = (S.walk pick p d cs).bind fun n => S.walk pick (p ++ cs) n cs'
  | [], p, d, cs' => by
    rw [List.nil_append, List.append_nil]
    rfl
  | c :: cs, p, d, cs' => by
    rw [List.cons_append, walk, walk]
    cases S.enter pick p d c with
    | none => rfl
    | some n =>
      rw [Option.bind_some, Option.bind_some, walk_append pick cs (p ++ [c]) n cs', List.append_assoc]
      rfl

omit [DecidableEq κ] [DecidableEq ν] in
theorem walk_concat (pick : List ν → α → Option (Mount α κ ν)) (cs : List ν) (c : ν) :
    S.walk pick [] S.root (cs ++ [c]) = (S.walk pick [] S.root cs).bind fun n => S.enter pick cs n c := by
  rw [walk_append, List.nil_append]
  refine congrArg _ (funext fun n => ?_)
  rw [walk]
  cases S.enter pick cs n c <;> rfl

omit [DecidableEq κ] [DecidableEq ν] in
theorem walk_congr (h : S.Meets V f fun p n => f p n = g p n) (hp : ∀ x ∈ p, V x) :
    S.walk f [] S.root p = S.walk g [] S.root p := by
  induction p using List.reverseRecOn with
  | nil => rfl
  | append_singleton p c ih =>
    have hpre : ∀ x ∈ p, V x := fun x hx => hp x (List.mem_append_left _ hx)
    have hc : V c := hp c (by simp)
    rw [walk_concat, walk_concat, ← ih hpre]
    cases hw : S.walk f [] S.root p with
    | none => rfl
    | some d =>
      rw [Option.bind_some, Option.bind_some, enter, enter]
      split
      · rename_i hd
        cases hn : S.child d c with
        | none => rfl
        | some n => rw [Option.map_some, Option.map_some, h p c d n hpre hc hw hd hn]
      · rfl

theorem Told.pick_eq (h : S.Told E p n) : S.byKey E n = S.byPath E p n := by
  cases hk : S.byKey E n with
  | none =>
    refine (List.find?_eq_none.2 fun e he hp => ?_).symm
    have hkey := List.find?_eq_none.1 hk e he
    rw [decide_eq_true_iff] at hp hkey
    exact hkey hp.1
  | some e =>
    have hpath := h.1 e hk
    obtain ⟨hkey, as, bs, hE, hnot⟩ := List.find?_eq_some_iff_append.1 hk
    rw [decide_eq_true_iff] at hkey
    have hfind : S.byPath E p n = some e := by
      refine List.find?_eq_some_iff_append.2 ⟨decide_eq_true ⟨hkey, hpath⟩, as, bs, hE, fun x hx => ?_⟩
      have hno := hnot x hx
      simp only [Bool.not_eq_eq_eq_not, Bool.not_true, decide_eq_false_iff_not] at hno ⊢
      exact fun hboth => hno hboth.1
    exact hfind.symm

/-- **Keys tell the mounts apart in every lookup** just when they do in the namespace the paths give. -/
theorem told_iff : S.Meets V (fun _ n => S.byKey E n) (S.Told E) ↔ S.Meets V (S.byPath E) (S.Told E) := by
  constructor
  · intro h p c d n hp hc hw
    have heq : S.walk (fun _ n => S.byKey E n) [] S.root p = S.walk (S.byPath E) [] S.root p :=
      walk_congr (fun q c d n hq hc hw hd hn => (h q c d n hq hc hw hd hn).pick_eq) hp
    exact h p c d n hp hc (heq.trans hw)
  · intro h p c d n hp hc hw
    have heq : S.walk (S.byPath E) [] S.root p = S.walk (fun _ n => S.byKey E n) [] S.root p :=
      walk_congr (fun q c d n hq hc hw hd hn => (h q c d n hq hc hw hd hn).pick_eq.symm) hp
    exact h p c d n hp hc (heq.trans hw)

end MountSpace
end EterOS
