import Mathlib.Data.List.Basic
import Mathlib.Data.List.TakeWhile
/-!
# Paths — the names in a path, and what dots do to them

A path is a list of symbols, its components what stands between the separators, empty ones left out.  `resolve` takes
components one by one onto a stack: a dot is dropped and a dot-dot takes the last one off, where there is one.  A path is
canonical where it is its components with a separator before each.
-/
namespace EterOS.Paths

open List

variable {α : Type*} [DecidableEq α]

def components (sep : α) (p : List α) : List (List α) := (p.splitOn sep).filter (· ≠ [])

structure Component (sep : α) (c : List α) : Prop where
  nonempty : c ≠ []
  noSep : sep ∉ c

def spelled (sep : α) (cs : List (List α)) : List α := cs.flatMap (sep :: ·)

def canonical (sep : α) (cs : List (List α)) : List α := if cs = [] then [sep] else spelled sep cs

def resolveStep (dot dotdot : List α) (stack : List (List α)) (c : List α) : List (List α) :=
  if c = dot then stack else if c = dotdot then stack.dropLast else stack ++ [c]

def resolve (dot dotdot : List α) (cs : List (List α)) : List (List α) := cs.foldl (resolveStep dot dotdot) []

structure Plain (sep : α) (dot dotdot c : List α) : Prop extends Component sep c where
  notDot : c ≠ dot
  notDotdot : c ≠ dotdot

variable {sep : α} {p q c dot dotdot : List α} {cs stack : List (List α)}

/-! ## Components -/

@[simp] theorem components_nil : components sep [] = [] := rfl

theorem components_append_sep (p q : List α) : components sep (p ++ sep :: q) = components sep p ++ components sep q := by
  unfold components
  rw [splitOn_append_cons_self, filter_append]

@[simp] theorem components_cons_sep (p : List α) : components sep (sep :: p) = components sep p := by
  have h : components sep ([] ++ sep :: p) = components sep [] ++ components sep p := components_append_sep [] p
  rwa [nil_append, components_nil, nil_append] at h

theorem components_of_component (h : Component sep c) : components sep c = [c] := by
  unfold components
  rw [splitOn_eq_singleton h.noSep, filter_cons_of_pos (by simpa using h.nonempty), filter_nil]

theorem splitOn_noSep : ∀ {p c : List α}, c ∈ p.splitOn sep → sep ∉ c
  | [], c, h => by
    rw [splitOn_nil, mem_singleton] at h
    rw [h]
    exact not_mem_nil
  | x :: p, c, h => by
    rw [splitOn_cons_eq_if_modifyHead] at h
    split at h
    · rcases mem_cons.1 h with rfl | h
      · exact not_mem_nil
      · exact splitOn_noSep h
    · rename_i hx
      obtain ⟨d, ds, hd⟩ := exists_cons_of_ne_nil (splitOn_ne_nil sep p)
      rw [hd, modifyHead_cons] at h
      rcases mem_cons.1 h with rfl | h
      · rw [mem_cons]
        rintro (rfl | hmem)
        · simp at hx
        · exact splitOn_noSep (p := p) (by rw [hd]; exact mem_cons_self) hmem
      · exact splitOn_noSep (p := p) (by rw [hd]; exact mem_cons_of_mem _ h)

theorem component_of_mem (h : c ∈ components sep p) : Component sep c := by
  obtain ⟨hmem, hne⟩ := mem_filter.1 h
  exact ⟨by simpa using hne, splitOn_noSep hmem⟩

theorem mem_of_splitOn : ∀ {p c : List α}, c ∈ p.splitOn sep → ∀ x ∈ c, x ∈ p
  | [], c, h => by
    rw [splitOn_nil, mem_singleton] at h
    rw [h]
    exact fun x hx => hx
  | y :: p, c, h => by
    rw [splitOn_cons_eq_if_modifyHead] at h
    split at h
    · rcases mem_cons.1 h with rfl | h
      · exact fun x hx => absurd hx not_mem_nil
      · exact fun x hx => mem_cons_of_mem _ (mem_of_splitOn h x hx)
    · obtain ⟨d, ds, hd⟩ := exists_cons_of_ne_nil (splitOn_ne_nil sep p)
      rw [hd, modifyHead_cons] at h
      rcases mem_cons.1 h with rfl | h
      · intro x hx
        rcases mem_cons.1 hx with rfl | hx
        · exact mem_cons_self
        · exact mem_cons_of_mem _ (mem_of_splitOn (p := p) (by rw [hd]; exact mem_cons_self) x hx)
      · exact fun x hx => mem_cons_of_mem _ (mem_of_splitOn (p := p) (by rw [hd]; exact mem_cons_of_mem _ h) x hx)

theorem mem_of_components (h : c ∈ components sep p) : ∀ x ∈ c, x ∈ p := mem_of_splitOn (mem_of_mem_filter h)

theorem components_first (sep : α) (p : List α) : components sep p =
    (if (p.takeWhile (· ≠ sep)) = [] then [] else [p.takeWhile (· ≠ sep)]) ++
      components sep ((p.drop (p.takeWhile (· ≠ sep)).length).drop 1) := by
  obtain ⟨c, hc⟩ : ∃ c, p.takeWhile (· ≠ sep) = c := ⟨_, rfl⟩
  have hnot : sep ∉ c := by
    rw [← hc]
    intro hmem
    simpa using all_eq_true.1 all_takeWhile _ hmem
  have hrest : p = c ++ p.dropWhile (· ≠ sep) := by rw [← hc, takeWhile_append_dropWhile]
  have hhead : ∀ x q, p.dropWhile (· ≠ sep) = x :: q → x = sep := by
    intro x q hx
    have := List.head?_dropWhile_not (fun y => decide (y ≠ sep)) p
    rw [hx] at this
    simpa using this
  rw [hc]
  generalize p.dropWhile (· ≠ sep) = d at hrest hhead
  rw [hrest, drop_left]
  cases d with
  | nil =>
    rw [append_nil, drop_nil, components_nil, append_nil]
    split
    · rename_i hnil
      rw [hnil, components_nil]
    · rename_i hne
      exact components_of_component ⟨hne, hnot⟩
  | cons x q =>
    obtain rfl := hhead x q rfl
    rw [components_append_sep, drop_one, tail_cons]
    split
    · rename_i hnil
      rw [hnil, components_nil]
    · rename_i hne
      rw [components_of_component ⟨hne, hnot⟩]

theorem takeWhile_eq_iff : p.takeWhile (· ≠ sep) = c ↔ sep ∉ c ∧ (p = c ∨ c ++ [sep] <+: p) := by
  constructor
  · intro hc
    have hsplit := takeWhile_append_dropWhile (p := fun x => decide (x ≠ sep)) (l := p)
    have hhead := List.head?_dropWhile_not (fun x => decide (x ≠ sep)) p
    rw [hc] at hsplit
    refine ⟨fun hmem => ?_, ?_⟩
    · rw [← hc] at hmem
      simpa using all_eq_true.1 all_takeWhile _ hmem
    · cases hd : p.dropWhile fun x => decide (x ≠ sep) with
      | nil =>
        rw [hd, append_nil] at hsplit
        exact .inl hsplit.symm
      | cons x q =>
        rw [hd] at hsplit hhead
        obtain rfl : x = sep := by simpa using hhead
        exact .inr ⟨q, by rw [append_assoc, singleton_append, hsplit]⟩
  · rintro ⟨hnot, hp⟩
    have hall : ∀ x ∈ c, decide (x ≠ sep) = true := fun x hx => decide_eq_true fun heq => hnot (heq ▸ hx)
    rcases hp with rfl | ⟨q, rfl⟩
    · exact takeWhile_eq_self_iff.2 hall
    · rw [append_assoc, takeWhile_append_of_pos hall, singleton_append, takeWhile_cons_of_neg (by simp), append_nil]

theorem eq_sep_of_components_nil : ∀ {p : List α}, components sep p = [] → ∀ x ∈ p, x = sep
  | [], _, x, hx => absurd hx not_mem_nil
  | y :: p, h, x, hx => by
    by_cases hy : y = sep
    · rw [hy, components_cons_sep] at h
      rcases mem_cons.1 hx with rfl | hx
      · exact hy
      · exact eq_sep_of_components_nil h x hx
    · rw [components_first, takeWhile_cons_of_pos (by simpa using hy), if_neg (cons_ne_nil _ _)] at h
      cases h

/-! ## Spelling -/

omit [DecidableEq α] in
@[simp] theorem spelled_nil : spelled sep [] = [] := rfl

omit [DecidableEq α] in
@[simp] theorem spelled_cons (c : List α) (cs : List (List α)) : spelled sep (c :: cs) = sep :: (c ++ spelled sep cs) := rfl

omit [DecidableEq α] in
theorem spelled_append (cs ds : List (List α)) : spelled sep (cs ++ ds) = spelled sep cs ++ spelled sep ds := flatMap_append

theorem components_append_spelled (h : ∀ c ∈ cs, Component sep c) : ∀ {p : List α},
    components sep (p ++ spelled sep cs) = components sep p ++ cs := by
  induction cs with
  | nil => intro p; simp
  | cons c cs ih =>
    intro p
    have hc := h c mem_cons_self
    rw [spelled_cons, components_append_sep, ih (fun d hd => h d (mem_cons_of_mem _ hd)), components_of_component hc]
    rfl

theorem components_spelled (h : ∀ c ∈ cs, Component sep c) : components sep (spelled sep cs) = cs :=
  components_append_spelled h (p := [])

theorem components_canonical (h : ∀ c ∈ cs, Component sep c) : components sep (canonical sep cs) = cs := by
  unfold canonical
  split
  · rename_i hnil
    rw [components_cons_sep, components_nil, hnil]
  · exact components_spelled h

theorem length_spelled_components (sep : α) (p : List α) : (spelled sep (components sep p)).length ≤ p.length + 1 := by
  have hfilter : ∀ l : List (List α), (spelled sep (l.filter (· ≠ []))).length ≤ (l.map fun c => c.length + 1).sum := by
    intro l
    induction l with
    | nil => simp
    | cons c l ih =>
      rw [filter_cons, map_cons, sum_cons]
      split
      · rw [spelled_cons, length_cons, length_append]
        omega
      · omega
  have hsum : ∀ p : List α, ((p.splitOn sep).map fun c => c.length + 1).sum = p.length + 1 := by
    intro p
    induction p with
    | nil => rfl
    | cons x p ih =>
      rw [splitOn_cons_eq_if_modifyHead]
      split
      · rw [map_cons, sum_cons, ih, length_cons, length_nil]
        omega
      · obtain ⟨d, ds, hd⟩ := exists_cons_of_ne_nil (splitOn_ne_nil sep p)
        rw [hd, map_cons, sum_cons] at ih
        rw [hd, modifyHead_cons, map_cons, sum_cons, length_cons, length_cons]
        omega
  rw [← hsum p]
  exact hfilter _

/-! ## Paths without a separator to spare -/

def joined (sep : α) (cs : List (List α)) : List α := (spelled sep cs).drop 1

structure Proper (sep : α) (p : List α) : Prop where
  nonempty : p ≠ []
  first : p.head? ≠ some sep
  last : p.getLast? ≠ some sep
  single : ¬ [sep, sep] <:+: p

omit [DecidableEq α] in
theorem joined_append (hcs : cs ≠ []) (ds : List (List α)) : joined sep (cs ++ ds) = joined sep cs ++ spelled sep ds := by
  obtain ⟨c, cs, rfl⟩ := exists_cons_of_ne_nil hcs
  unfold joined
  rw [cons_append, spelled_cons, spelled_cons, spelled_append, drop_one, drop_one, tail_cons, tail_cons, append_assoc]

omit [DecidableEq α] in
@[simp] theorem joined_singleton (c : List α) : joined sep [c] = c := by simp [joined]

theorem spelled_splitOn (sep : α) : ∀ p : List α, spelled sep (p.splitOn sep) = sep :: p
  | [] => rfl
  | x :: p => by
    rw [splitOn_cons_eq_if_modifyHead]
    split
    · rename_i hx
      rw [spelled_cons, spelled_splitOn sep p, nil_append]
      simp only [beq_iff_eq] at hx
      rw [hx]
    · have ih := spelled_splitOn sep p
      obtain ⟨d, ds, hd⟩ := exists_cons_of_ne_nil (splitOn_ne_nil sep p)
      rw [hd, spelled_cons, List.cons.injEq] at ih
      rw [hd, modifyHead_cons, spelled_cons, cons_append, ih.2]

theorem Proper.splitOn (h : Proper sep p) : [] ∉ p.splitOn sep := by
  intro hmem
  obtain ⟨as, bs, hsplit⟩ := append_of_mem hmem
  have hp : sep :: p = spelled sep as ++ sep :: spelled sep bs := by
    rw [← spelled_splitOn sep p, hsplit, spelled_append, spelled_cons, nil_append]
  cases as with
  | nil =>
    rw [spelled_nil, nil_append, List.cons.injEq] at hp
    cases bs with
    | nil => exact h.nonempty hp.2
    | cons b bs => exact h.first (by rw [hp.2]; rfl)
  | cons a as =>
    rw [spelled_cons, cons_append, List.cons.injEq] at hp
    cases bs with
    | nil => exact h.last (by rw [hp.2, spelled_nil, List.getLast?_append]; rfl)
    | cons b bs => exact h.single ⟨a ++ spelled sep as, b ++ spelled sep bs, by rw [hp.2, spelled_cons]; simp⟩

theorem Proper.components (h : Proper sep p) : components sep p = p.splitOn sep := filter_eq_self.2 fun c hc => by
    simp only [ne_eq, decide_not, Bool.not_eq_eq_eq_not, Bool.not_true, decide_eq_false_iff_not]
    rintro rfl
    exact h.splitOn hc

theorem Proper.joined (h : Proper sep p) : joined sep (Paths.components sep p) = p := by
  rw [h.components, Paths.joined, spelled_splitOn, drop_one, tail_cons]

/-! ## Dots -/

theorem mem_resolveStep {d : List α} (h : d ∈ resolveStep dot dotdot stack c) :
    d ∈ stack ∨ d = c ∧ c ≠ dot ∧ c ≠ dotdot := by
  unfold resolveStep at h
  split at h
  · exact Or.inl h
  · split at h
    · exact Or.inl (dropLast_subset _ h)
    · rename_i hdot hdotdot
      rcases mem_append.1 h with h | h
      · exact Or.inl h
      · exact Or.inr ⟨mem_singleton.1 h, hdot, hdotdot⟩

theorem mem_foldl_resolveStep {d : List α} (h : d ∈ cs.foldl (resolveStep dot dotdot) stack) :
    d ∈ stack ∨ d ∈ cs ∧ d ≠ dot ∧ d ≠ dotdot := by
  induction cs generalizing stack with
  | nil => exact Or.inl h
  | cons c cs ih =>
    rw [foldl_cons] at h
    rcases ih h with h | ⟨hmem, hplain⟩
    · rcases mem_resolveStep h with h | ⟨rfl, hplain⟩
      · exact Or.inl h
      · exact Or.inr ⟨mem_cons_self, hplain⟩
    · exact Or.inr ⟨mem_cons_of_mem _ hmem, hplain⟩

theorem plain_of_mem_resolve (hcs : ∀ c ∈ cs, Component sep c) (h : c ∈ resolve dot dotdot cs) : Plain sep dot dotdot c := by
  rcases mem_foldl_resolveStep h with h | ⟨hmem, hdot, hdotdot⟩
  · cases h
  · exact ⟨hcs c hmem, hdot, hdotdot⟩

theorem foldl_resolveStep_plain (h : ∀ c ∈ cs, Plain sep dot dotdot c) (stack : List (List α)) :
    cs.foldl (resolveStep dot dotdot) stack = stack ++ cs := by
  induction cs generalizing stack with
  | nil => rw [foldl_nil, append_nil]
  | cons c cs ih =>
    have hc := h c mem_cons_self
    have hstep : resolveStep dot dotdot stack c = stack ++ [c] := by
      unfold resolveStep
      rw [if_neg hc.notDot, if_neg hc.notDotdot]
    rw [foldl_cons, hstep, ih (fun d hd => h d (mem_cons_of_mem _ hd)), append_assoc, singleton_append]

theorem resolve_plain (h : ∀ c ∈ cs, Plain sep dot dotdot c) : resolve dot dotdot cs = cs := foldl_resolveStep_plain h []

theorem length_resolveStep (stack : List (List α)) (c : List α) :
    (spelled sep (resolveStep dot dotdot stack c)).length ≤ (spelled sep stack).length + (spelled sep [c]).length := by
  unfold resolveStep
  split
  · exact Nat.le_add_right _ _
  · split
    · have hdrop : (spelled sep stack.dropLast).length ≤ (spelled sep stack).length := by
        rcases eq_nil_or_concat stack with rfl | ⟨l, d, rfl⟩
        · exact Nat.le_refl _
        · rw [concat_eq_append, dropLast_concat, spelled_append, length_append]
          exact Nat.le_add_right _ _
      omega
    · exact Nat.le_of_eq (by rw [spelled_append, length_append])

theorem length_resolve (cs : List (List α)) : (spelled sep (resolve dot dotdot cs)).length ≤ (spelled sep cs).length := by
  have hfold : ∀ (cs stack : List (List α)),
      (spelled sep (cs.foldl (resolveStep dot dotdot) stack)).length ≤
      (spelled sep stack).length + (spelled sep cs).length := by
    intro cs
    induction cs with
    | nil => exact fun stack => Nat.le_add_right _ _
    | cons c cs ih =>
      intro stack
      have hstep : (spelled sep (resolveStep dot dotdot stack c)).length ≤
          (spelled sep stack).length + (spelled sep [c]).length :=
        length_resolveStep stack c
      have hcons : (spelled sep (c :: cs)).length = (spelled sep [c]).length + (spelled sep cs).length := by
        rw [← singleton_append, spelled_append, length_append]
      have := ih (resolveStep dot dotdot stack c)
      rw [foldl_cons]
      omega
  have := hfold cs []
  rwa [spelled_nil, length_nil, Nat.zero_add] at this

end EterOS.Paths
