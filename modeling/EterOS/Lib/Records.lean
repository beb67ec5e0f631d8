import Mathlib.Data.List.Basic
/-!
# Records — lines of fields

A text is cut into pieces by a rule that takes a piece off its front; where every piece is taken whole, whatever follows it,
the pieces of a concatenation are its parts (`pieces_flatten`).  `scan` is the usual loop over a line for one of its fields,
with a bound on what it keeps.
-/
namespace EterOS.Records

open List

variable {α : Type*} [DecidableEq α] {stop sep : α} {n k cap : Nat} {cut : List α → List α}

/-- At most `n` elements, up to the first `stop` and with it. -/
def cutLine (stop : α) : Nat → List α → List α
  | 0, _ => []
  | _, [] => []
  | n + 1, c :: cs => if c = stop then [c] else c :: cutLine stop n cs

/-- At most `n` elements before the first `stop`, and then that one. -/
def cutLineStop (stop : α) : Nat → List α → List α
  | _, [] => []
  | 0, c :: _ => if c = stop then [c] else []
  | n + 1, c :: cs => if c = stop then [c] else c :: cutLineStop stop n cs

/-- What `cut` takes off one after the other; `fuel` bounds their number. -/
def pieces (cut : List α → List α) : Nat → List α → List (List α)
  | 0, _ => []
  | fuel + 1, l => if cut l = [] then [] else cut l :: pieces cut fuel (l.drop (cut l).length)

/-- At most `cap` elements of the field `k` of a line; `field` is the number of the current one. -/
def scan (sep : α) (k cap : Nat) : List α → Nat → List α → List α
  | [], _, acc => acc
  | c :: cs, field, acc =>
    if c = sep then scan sep k cap cs (field + 1) acc
    else if field = k ∧ acc.length < cap then scan sep k cap cs field (acc ++ [c])
    else scan sep k cap cs field acc

theorem cutLine_append : ∀ {n : Nat} {l : List α} (rest : List α), stop ∉ l → l.length < n →
    cutLine stop n (l ++ stop :: rest) = l ++ [stop]
  | 0, _, _, _, hn => absurd hn (Nat.not_lt_zero _)
  | n + 1, [], rest, _, _ => by simp [cutLine]
  | n + 1, c :: l, rest, hl, hn => by
    have hc : c ≠ stop := fun h => hl (h ▸ mem_cons_self)
    rw [cons_append, cutLine, if_neg hc,
      cutLine_append rest (fun h => hl (mem_cons_of_mem _ h)) (Nat.lt_of_succ_lt_succ hn), cons_append]

theorem cutLineStop_append : ∀ {n : Nat} {l : List α} (rest : List α), stop ∉ l → l.length ≤ n →
    cutLineStop stop n (l ++ stop :: rest) = l ++ [stop]
  | 0, [], rest, _, _ => by simp [cutLineStop]
  | n + 1, [], rest, _, _ => by simp [cutLineStop]
  | 0, c :: l, rest, _, hn => absurd hn (Nat.not_succ_le_zero _)
  | n + 1, c :: l, rest, hl, hn => by
    have hc : c ≠ stop := fun h => hl (h ▸ mem_cons_self)
    rw [cons_append, cutLineStop, if_neg hc,
      cutLineStop_append rest (fun h => hl (mem_cons_of_mem _ h)) (Nat.le_of_succ_le_succ hn), cons_append]

theorem cutLine_full : ∀ {n : Nat} {l : List α} (rest : List α), stop ∉ l → l.length = n → cutLine stop n (l ++ rest) = l
  | 0, [], _, _, _ => by rw [cutLine]
  | 0, _ :: _, _, _, hn => absurd hn (Nat.succ_ne_zero _)
  | n + 1, [], _, _, hn => absurd hn.symm (Nat.succ_ne_zero _)
  | n + 1, c :: l, rest, hl, hn => by
    have hc : c ≠ stop := fun h => hl (h ▸ mem_cons_self)
    rw [cons_append, cutLine, if_neg hc, cutLine_full rest (fun h => hl (mem_cons_of_mem _ h)) (Nat.succ.inj hn)]

omit [DecidableEq α] in
/-- **The pieces of a concatenation** of pieces that are each taken whole. -/
theorem pieces_flatten (hnil : cut [] = []) :
    ∀ {ls : List (List α)} {fuel : Nat}, (∀ l ∈ ls, l ≠ [] ∧ ∀ rest, cut (l ++ rest) = l) →
    ls.length < fuel → pieces cut fuel ls.flatten = ls
  | _, 0, _, hfuel => absurd hfuel (Nat.not_lt_zero _)
  | [], fuel + 1, _, _ => by simp [pieces, hnil]
  | l :: ls, fuel + 1, hls, hfuel => by
    obtain ⟨hne, hcut⟩ := hls l mem_cons_self
    rw [flatten_cons, pieces, hcut, if_neg hne, drop_left,
      pieces_flatten hnil (fun l hl => hls l (mem_cons_of_mem _ hl)) (Nat.lt_of_succ_lt_succ hfuel)]

omit [DecidableEq α] in
theorem length_le_flatten : ∀ {ls : List (List α)}, (∀ l ∈ ls, l ≠ []) → ls.length ≤ ls.flatten.length
  | [], _ => Nat.le_refl _
  | l :: ls, hls => by
    have hl := length_pos_iff.2 (hls l mem_cons_self)
    have hrest := length_le_flatten fun l hl => hls l (mem_cons_of_mem _ hl)
    rw [flatten_cons, length_append, length_cons]
    omega

theorem scan_past : ∀ {l : List α} {field : Nat} {acc : List α}, k < field → scan sep k cap l field acc = acc
  | [], _, _, _ => rfl
  | c :: cs, field, acc, h => by
    have hk : ¬ (field = k ∧ acc.length < cap) := fun hk => Nat.ne_of_gt h hk.1
    rw [scan, scan_past (Nat.lt_succ_of_lt h), if_neg hk, scan_past h, ite_self]

theorem scan_skip : ∀ {f rest : List α} {field : Nat} {acc : List α}, sep ∉ f → field ≠ k →
    scan sep k cap (f ++ sep :: rest) field acc = scan sep k cap rest (field + 1) acc
  | [], rest, field, acc, _, _ => by rw [nil_append, scan, if_pos rfl]
  | c :: f, rest, field, acc, hf, hk => by
    have hc : c ≠ sep := fun h => hf (h ▸ mem_cons_self)
    rw [cons_append, scan, if_neg hc, if_neg (fun h => hk h.1), scan_skip (fun h => hf (mem_cons_of_mem _ h)) hk]

theorem scan_take : ∀ {f rest : List α} {acc : List α}, sep ∉ f →
    scan sep k cap (f ++ sep :: rest) k acc = acc ++ f.take (cap - acc.length)
  | [], rest, acc, _ => by
    rw [nil_append, scan, if_pos rfl, scan_past (Nat.lt_succ_self _), take_nil, append_nil]
  | c :: f, rest, acc, hf => by
    have hc : c ≠ sep := fun h => hf (h ▸ mem_cons_self)
    have hf' : sep ∉ f := fun h => hf (mem_cons_of_mem _ h)
    rw [cons_append, scan, if_neg hc]
    by_cases hlt : acc.length < cap
    · rw [if_pos ⟨rfl, hlt⟩, scan_take hf', length_append, length_singleton, append_assoc]
      have hsub : cap - acc.length = cap - (acc.length + 1) + 1 := by omega
      rw [hsub, take_succ_cons, singleton_append]
    · rw [if_neg fun h => hlt h.2, scan_take hf', Nat.sub_eq_zero_of_le (Nat.le_of_not_lt hlt), take_zero, take_zero]

theorem scan_field {f rest : List α} (hf : sep ∉ f) : scan sep k cap (f ++ sep :: rest) k [] = f.take cap := by
  rw [scan_take hf, nil_append, length_nil, Nat.sub_zero]

end EterOS.Records
