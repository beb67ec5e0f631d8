import Mathlib.Data.List.TakeWhile
import Mathlib.Logic.Function.Basic
/-!
# Environ — `userspace/libc/src/stdlib.c`

The environment: an array of `name=value` strings up to a null pointer, the kernel's until the first new name needs room.
Memory is what `malloc` and `realloc` give, if they do; strings do not change, and the counters are no machine integers.
-/
namespace EterOS.Environ

open List Function

abbrev Str := List UInt8

abbrev Cell := Option Str

/-- `environ`, the block it points to, and `__environ_allocated`. -/
structure Env where
  environ : Option (List Cell)
  allocated : Bool

structure Mem where
  string : Bool
  array : Option (Nat → Cell)

def equals : UInt8 := '='.toUInt8

/-- `strncmp(e, name, len) == 0 && e[len] == '='`. -/
def names (name e : Str) : Bool := name.isPrefixOf e && e[name.length]? == some equals

def find (name : Str) : List Cell → Option (Nat × Str)
  | some e :: cells => if names name e then some (0, e) else (find name cells).map fun (i, e) => (i + 1, e)
  | _ => none

def Env.find (s : Env) (name : Str) : Option (Nat × Str) := s.environ.bind (Environ.find name)

def Env.getenv (s : Env) (name : Str) : Option Str := (s.find name).map fun (_, e) => e.drop (name.length + 1)

def count : List Cell → Nat
  | some _ :: cells => count cells + 1
  | _ => 0

/-- The array with a string more: from `realloc`, or from `malloc` with the pointers copied. -/
def Env.append (s : Env) (array : Option (Nat → Cell)) (str : Str) : Option Env :=
  let cells := s.environ.getD []
  let n := count cells
  array.map fun fresh =>
    let block := (List.range (n + 2)).map fun i => if s.allocated ∨ i < n then cells[i]?.getD (fresh i) else fresh i
    ⟨some ((block.set n (some str)).set (n + 1) none), true⟩

def Env.setenv (s : Env) (mem : Mem) (name : Str) (value : Option Str) (overwrite : Bool) : Env × Bool :=
  if name = [] ∨ equals ∈ name then (s, false)
  else
    let str := name ++ equals :: value.getD []
    match s.find name with
    | some (i, _) =>
      if !overwrite then (s, true)
      else if !mem.string then (s, false)
      else ({ s with environ := s.environ.map (·.set i (some str)) }, true)
    | none =>
      if !mem.string then (s, false)
      else
        match s.append mem.array str with
        | none => (s, false)
        | some s => (s, true)

/-- The loop of `unsetenv`, which moves the other strings to the front. -/
def compact (name : Str) (cells : List Cell) (i writeIdx : Nat) : List Cell :=
  match h : cells[i]? with
  | some (some e) =>
    if names name e then compact name cells (i + 1) writeIdx
    else compact name (cells.set writeIdx (some e)) (i + 1) (writeIdx + 1)
  | _ => cells.set writeIdx none
termination_by cells.length - i
decreasing_by
  · have := (List.getElem?_eq_some_iff.1 h).1
    omega
  · have := (List.getElem?_eq_some_iff.1 h).1
    rw [length_set]
    omega

def Env.unsetenv (s : Env) (name : Str) : Env × Bool :=
  if name = [] ∨ equals ∈ name then (s, false)
  else ({ s with environ := s.environ.map fun cells => compact name cells 0 0 }, true)

def Env.putenv (s : Env) (mem : Mem) (string : Str) : Env × Bool :=
  if equals ∉ string then s.unsetenv string
  else
    match s.find (string.takeWhile (· ≠ equals)) with
    | some (i, _) => ({ s with environ := s.environ.map (·.set i (some string)) }, true)
    | none =>
      match s.append mem.array string with
      | none => (s, false)
      | some s => (s, true)

inductive Call
  | getenv (name : Str)
  | setenv (name : Str) (value : Option Str) (overwrite : Bool)
  | unsetenv (name : Str)
  | putenv (string : Str)

def Env.step (s : Env) (mem : Mem) : Call → Env × Bool
  | .getenv _ => (s, true)
  | .setenv name value overwrite => s.setenv mem name value overwrite
  | .unsetenv name => s.unsetenv name
  | .putenv string => s.putenv mem string

def Env.run (s : Env) : List (Call × Mem) → Env × List (Call × Bool)
  | [] => (s, [])
  | (c, mem) :: calls =>
    let (s, ok) := s.step mem c
    let (s, done) := s.run calls
    (s, (c, ok) :: done)

/-! ## The map -/

/-- When a call succeeds: its name is legal, and memory is given for what it needs, a string or an array with room for a name
that is new. -/
def succeeds (m : Str → Option Str) (mem : Mem) : Call → Bool
  | .getenv _ => true
  | .setenv name _ overwrite =>
    (name ≠ [] ∧ equals ∉ name) &&
      (((m name).isSome && !overwrite) || (mem.string && ((m name).isSome || mem.array.isSome)))
  | .unsetenv name => name ≠ [] ∧ equals ∉ name
  | .putenv string =>
    if equals ∉ string then string ≠ []
    else (m (string.takeWhile (· ≠ equals))).isSome || mem.array.isSome

def mapStep (m : Str → Option Str) : Call × Bool → Str → Option Str
  | (.setenv name value overwrite, true) =>
      if overwrite ∨ m name = none then Function.update m name (some (value.getD [])) else m
  | (.unsetenv name, true) => Function.update m name none
  | (.putenv string, true) =>
    if equals ∉ string then Function.update m string none
    else Function.update m (string.takeWhile (· ≠ equals)) (some ((string.dropWhile (· ≠ equals)).drop 1))
  | _ => m

/-- The map after the calls, and which of them have succeeded. -/
def mapRun (m : Str → Option Str) : List (Call × Mem) → (Str → Option Str) × List (Call × Bool)
  | [] => (m, [])
  | (c, mem) :: calls =>
    let ok := succeeds m mem c
    let (m, done) := mapRun (mapStep m (c, ok)) calls
    (m, (c, ok) :: done)

def Env.Ended (s : Env) : Prop := ∀ cells, s.environ = some cells → none ∈ cells

/-! ## Names -/

variable {name name' e : Str} {cells : List Cell} {s : Env}

theorem names_iff : names name e = true ↔ ∃ value, e = name ++ equals :: value := by
  simp only [names, Bool.and_eq_true, isPrefixOf_iff_prefix, beq_iff_eq]
  constructor
  · rintro ⟨⟨rest, rfl⟩, h⟩
    rw [List.getElem?_append_right (Nat.le_refl _), Nat.sub_self] at h
    cases rest with
    | nil => cases h
    | cons c rest =>
      cases h
      exact ⟨rest, rfl⟩
  · rintro ⟨value, rfl⟩
    exact ⟨prefix_append _ _, by rw [List.getElem?_append_right (Nat.le_refl _), Nat.sub_self]; rfl⟩

theorem takeWhile_name (hname : equals ∉ name) (value : Str) : (name ++ equals :: value).takeWhile (· ≠ equals) = name := by
  have hne : ∀ c ∈ name, decide (c ≠ equals) = true := fun c hc => decide_eq_true fun h => hname (h ▸ hc)
  rw [takeWhile_append_of_pos hne, takeWhile_cons, if_neg (by simp), append_nil]

theorem drop_name (name value : Str) : (name ++ equals :: value).drop (name.length + 1) = value := by simp

theorem split_equals : ∀ {string : Str}, equals ∈ string →
    string = string.takeWhile (· ≠ equals) ++ equals :: (string.dropWhile (· ≠ equals)).drop 1
  | c :: string, h => by
    by_cases hc : c = equals
    · simp [hc]
    · have ih := split_equals ((mem_cons.1 h).resolve_left (Ne.symm hc))
      rw [takeWhile_cons, dropWhile_cons, if_pos (by simpa using hc), if_pos (by simpa using hc), cons_append, ← ih]

theorem names_unique (hname : equals ∉ name) (hname' : equals ∉ name') (h : names name e = true)
    (h' : names name' e = true) :
    name = name' := by
  obtain ⟨v, rfl⟩ := names_iff.1 h
  obtain ⟨v', heq⟩ := names_iff.1 h'
  rw [← takeWhile_name hname v, heq, takeWhile_name hname']

/-! ## The strings before the null pointer -/

def value (name : Str) (es : List Str) : Option Str := (es.find? (names name)).map (·.drop (name.length + 1))

variable {es pre post : List Str} {rest : List Cell} {i : Nat} {m : Str → Option Str} {str : Str}

def Holds (cells : List Cell) (es : List Str) : Prop := ∃ rest, cells = es.map some ++ none :: rest

theorem holds_of_ended : ∀ {cells : List Cell}, none ∈ cells → ∃ es, Holds cells es
  | none :: rest, _ => ⟨[], rest, rfl⟩
  | some e :: cells, h => by
    obtain ⟨es, rest, rfl⟩ := holds_of_ended ((mem_cons.1 h).resolve_left (by simp))
    exact ⟨e :: es, rest, rfl⟩

theorem count_eq : ∀ es : List Str, count (es.map some ++ none :: rest) = es.length
  | [] => rfl
  | _ :: es => congrArg (· + 1) (count_eq es)

theorem find_some : ∀ {es : List Str} {i : Nat}, find name (es.map some ++ none :: rest) = some (i, e) →
    ∃ pre post, es = pre ++ e :: post ∧ pre.length = i ∧ names name e = true ∧ ∀ x ∈ pre, names name x = false
  | [], i, h => by cases h
  | x :: es, i, h => by
    rw [map_cons, cons_append, find] at h
    split at h
    · rename_i hx
      cases h
      exact ⟨[], es, rfl, rfl, hx, fun _ hy => by cases hy⟩
    · rename_i hx
      obtain ⟨⟨j, e'⟩, hfind, heq⟩ := Option.map_eq_some_iff.1 h
      cases heq
      obtain ⟨pre, post, rfl, rfl, he, hpre⟩ := find_some hfind
      exact ⟨x :: pre, post, rfl, rfl, he, fun y hy => (mem_cons.1 hy).elim (fun h => h ▸ Bool.eq_false_iff.2 hx) (hpre y)⟩

theorem find_none : ∀ {es : List Str}, find name (es.map some ++ none :: rest) = none → ∀ x ∈ es, names name x = false
  | [], _, x, hx => by cases hx
  | y :: es, h, x, hx => by
    rw [map_cons, cons_append, find] at h
    split at h
    · cases h
    · rename_i hy
      rcases mem_cons.1 hx with rfl | hx
      · exact Bool.eq_false_iff.2 hy
      · exact find_none (Option.map_eq_none_iff.1 h) x hx

theorem value_some (he : names name e = true) (hpre : ∀ x ∈ pre, names name x = false) :
    value name (pre ++ e :: post) = some (e.drop (name.length + 1)) := by
  rw [value, List.find?_append, List.find?_eq_none.2 fun x hx => by simp [hpre x hx], Option.none_or, List.find?_cons, he]
  rfl

theorem value_none (h : ∀ x ∈ es, names name x = false) : value name es = none := by
  rw [value, List.find?_eq_none.2 fun x hx => by simp [h x hx]]
  rfl

theorem value_skip (he : names name e = false) : value name (pre ++ e :: post) = value name (pre ++ post) := by
  rw [value, value, List.find?_append, List.find?_append, List.find?_cons, he]

theorem names_other (hname : equals ∉ name) (hname' : equals ∉ name') (hne : name ≠ name') (he : names name' e = true) :
    names name e = false := Bool.eq_false_iff.2 fun h => hne (names_unique hname hname' h he)

theorem value_replace {e' : Str} (hname' : equals ∉ name') (he : names name' e = true) (he' : names name' e' = true)
    (hpre : ∀ x ∈ pre, names name' x = false) (hname : equals ∉ name) : value name (pre ++ e' :: post) =
      Function.update (fun n => value n (pre ++ e :: post)) name' (some (e'.drop (name'.length + 1))) name := by
  by_cases heq : name = name'
  · rw [heq, update_self, value_some he' hpre]
  · rw [update_of_ne heq, value_skip (names_other hname hname' heq he'), value_skip (names_other hname hname' heq he)]

theorem value_append (hname' : equals ∉ name') (he : names name' e = true) (hes : ∀ x ∈ es, names name' x = false)
    (hname : equals ∉ name) : value name (es ++ [e]) =
      Function.update (fun n => value n es) name' (some (e.drop (name'.length + 1))) name := by
  by_cases heq : name = name'
  · rw [heq, update_self, value_some he hes]
  · rw [update_of_ne heq, value_skip (names_other hname hname' heq he), append_nil]

theorem value_filter (hname' : equals ∉ name') (hname : equals ∉ name) : value name (es.filter fun e => !names name' e) =
    Function.update (fun n => value n es) name' none name := by
  by_cases heq : name = name'
  · rw [heq, update_self]
    exact value_none fun x hx => by simpa using (mem_filter.1 hx).2
  · rw [update_of_ne heq]
    induction es with
    | nil => rfl
    | cons e es ih =>
      by_cases he : names name' e = true
      · rw [filter_cons_of_neg (by simp [he]), ih]
        have hskip : value name ([] ++ e :: es) = value name ([] ++ es) := value_skip (names_other hname hname' heq he)
        exact hskip.symm
      · rw [filter_cons_of_pos (by simp [he]), value, value, List.find?_cons, List.find?_cons]
        split
        · rfl
        · exact ih

/-- **The compaction in place**: `kept` is what has been moved, `gap` what lies between it and the next string to look at. -/
theorem compact_eq : ∀ (es kept : List Str) (gap : List Cell),
    Holds (compact name (kept.map some ++ (gap ++ (es.map some ++ none :: rest)))
    (kept.length + gap.length) kept.length) (kept ++ es.filter fun e => !names name e)
  | [], kept, gap => by
    have hat : (kept.map some ++ (gap ++ none :: rest))[kept.length + gap.length]? = some (none : Cell) := by
      rw [List.getElem?_append_right (by simp), List.getElem?_append_right (by simp)]
      simp
    rw [map_nil, nil_append, filter_nil, append_nil, compact]
    split
    · rename_i h
      rw [hat] at h
      cases h
    · rw [set_append_right _ _ (by simp), length_map, Nat.sub_self]
      cases gap with
      | nil => exact ⟨rest, rfl⟩
      | cons g gap => exact ⟨gap ++ none :: rest, rfl⟩
  | e :: es, kept, gap => by
    have hat : (kept.map some ++ (gap ++ (some e :: (es.map some ++ none :: rest))))[kept.length + gap.length]? =
        some (some e) := by
      rw [List.getElem?_append_right (by simp), List.getElem?_append_right (by simp)]
      simp
    rw [map_cons, cons_append, compact]
    split
    · rename_i e' h
      rw [hat] at h
      cases h
      by_cases he : names name e = true
      · have ih := compact_eq es kept (gap ++ [some e])
        rw [append_assoc, length_append, singleton_append, ← Nat.add_assoc] at ih
        rw [if_pos he, filter_cons_of_neg (by simp [he])]
        exact ih
      · rw [if_neg he, filter_cons_of_pos (by simp [he]), set_append_right _ _ (by simp), length_map, Nat.sub_self]
        cases gap with
        | nil =>
          have ih := compact_eq es (kept ++ [e]) []
          simp only [map_append, append_assoc, length_append] at ih
          exact ih
        | cons g gap =>
          have ih := compact_eq es (kept ++ [e]) (gap ++ [some e])
          simp only [map_append, append_assoc, length_append] at ih
          have hpos : kept.length + (g :: gap).length + 1 = kept.length + 1 + (gap.length + 1) := by
            rw [length_cons]
            omega
          rw [hpos]
          exact ih
    · rename_i h
      exact absurd hat (h e)

/-! ## Calls -/

/-- The environment gives every name the value that `m` has for it. -/
structure Is (s : Env) (m : Str → Option Str) : Prop where
  ended : s.Ended
  getenv : ∀ name, equals ∉ name → s.getenv name = m name

def Env.Has (s : Env) (es : List Str) : Prop := s.environ = none ∧ es = [] ∨ ∃ cells, s.environ = some cells ∧ Holds cells es

theorem Env.Ended.has (h : s.Ended) : ∃ es, s.Has es := by
  cases hc : s.environ with
  | none => exact ⟨[], .inl ⟨hc, rfl⟩⟩
  | some cells =>
    obtain ⟨es, hes⟩ := holds_of_ended (h cells hc)
    exact ⟨es, .inr ⟨cells, hc, hes⟩⟩

theorem Env.Has.ended (h : s.Has es) : s.Ended := by
  intro cells hc
  rcases h with ⟨hnone, -⟩ | ⟨cells', hsome, rest, rfl⟩
  · rw [hnone] at hc
    cases hc
  · rw [hsome] at hc
    cases hc
    exact mem_append_right _ mem_cons_self

theorem Env.Has.find_some (h : s.Has es) (hf : s.find name = some (i, e)) :
    ∃ pre post, es = pre ++ e :: post ∧ pre.length = i ∧ names name e = true ∧ ∀ x ∈ pre, names name x = false := by
  rcases h with ⟨hnone, -⟩ | ⟨cells, hsome, rest, rfl⟩
  · rw [Env.find, hnone] at hf
    cases hf
  · rw [Env.find, hsome] at hf
    exact Environ.find_some hf

theorem Env.Has.find_none (h : s.Has es) (hf : s.find name = none) : ∀ x ∈ es, names name x = false := by
  rcases h with ⟨-, rfl⟩ | ⟨cells, hsome, rest, rfl⟩
  · exact fun x hx => by cases hx
  · rw [Env.find, hsome] at hf
    exact Environ.find_none hf

theorem Env.Has.getenv (h : s.Has es) (name : Str) : s.getenv name = value name es := by
  unfold Env.getenv
  cases hf : s.find name with
  | none => exact (value_none (h.find_none hf)).symm
  | some r =>
    obtain ⟨pre, post, rfl, -, he, hpre⟩ := h.find_some hf
    exact (value_some he hpre).symm

theorem Env.Has.is (h : s.Has es) (hm : ∀ name, equals ∉ name → value name es = m name) : Is s m :=
  ⟨h.ended, fun name hname => (h.getenv name).trans (hm name hname)⟩

theorem Env.Has.append (h : s.Has es) {array : Option (Nat → Cell)} {s' : Env} (ha : s.append array str = some s') :
    s'.Has (es ++ [str]) := by
  obtain ⟨fresh, -, rfl⟩ := Option.map_eq_some_iff.1 ha
  have hcells : count (s.environ.getD []) = es.length ∧ ∀ i < es.length, (s.environ.getD [])[i]? = some (es[i]?) := by
    rcases h with ⟨hnone, rfl⟩ | ⟨cells, hsome, rest, rfl⟩
    · rw [hnone]
      exact ⟨rfl, fun i hi => absurd hi (Nat.not_lt_zero i)⟩
    · rw [hsome]
      refine ⟨count_eq es, fun i hi => ?_⟩
      rw [Option.getD_some, List.getElem?_append_left (by simpa using hi), List.getElem?_map, List.getElem?_eq_getElem hi]
      rfl
  refine .inr ⟨_, rfl, [], ?_⟩
  rw [hcells.1]
  have hmap : (List.range es.length).map (fun i => if s.allocated ∨ i < es.length then (s.environ.getD [])[i]?.getD (fresh i)
      else fresh i) = es.map some := by
    apply ext_getElem
    · simp
    · intro i _ hi
      rw [length_map] at hi
      simp [hi, hcells.2 i hi]
  rw [range_succ, range_succ, map_append, map_append, hmap]
  simp

theorem Env.Has.replace (h : s.Has (pre ++ e :: post)) (str : Str) :
    ({ s with environ := s.environ.map (·.set pre.length (some str)) } : Env).Has (pre ++ str :: post) := by
  rcases h with ⟨-, hnil⟩ | ⟨cells, hsome, rest, rfl⟩
  · simp at hnil
  · refine .inr ⟨_, by rw [hsome, Option.map_some], rest, ?_⟩
    simp

theorem Env.step_failed {mem : Mem} {c : Call} (h : (s.step mem c).2 = false) : (s.step mem c).1 = s := by
  cases c with
  | getenv name => rfl
  | setenv name value overwrite =>
    unfold Env.step Env.setenv at h ⊢
    grind
  | unsetenv name =>
    unfold Env.step Env.unsetenv at h ⊢
    grind
  | putenv string =>
    unfold Env.step Env.putenv Env.unsetenv at h ⊢
    grind

theorem Env.Has.unsetenv (h : s.Has es) (hname : equals ∉ name) (hm : ∀ n, equals ∉ n → value n es = m n)
    (hok : (s.unsetenv name).2 = true) :
    Is (s.unsetenv name).1 (Function.update m name none) := by
  unfold Env.unsetenv at hok ⊢
  split at hok
  · cases hok
  rename_i hbad
  rw [if_neg hbad]
  have hhas : ({ s with environ := s.environ.map fun cells => compact name cells 0 0 } : Env).Has
      (es.filter fun e => !names name e) := by
    rcases h with ⟨hnone, rfl⟩ | ⟨cells, hsome, rest, rfl⟩
    · exact .inl ⟨by rw [hnone, Option.map_none], rfl⟩
    · exact .inr ⟨compact name (es.map some ++ none :: rest) 0 0, by rw [hsome, Option.map_some], compact_eq es [] []⟩
  refine hhas.is fun n hn => ?_
  rw [value_filter hname hn]
  by_cases heq : n = name
  · rw [heq, update_self, update_self]
  · rw [update_of_ne heq, update_of_ne heq, hm n hn]

theorem Env.Has.put (h : s.Has es) (hm : ∀ n, equals ∉ n → value n es = m n) (hname : equals ∉ name)
    (hstr : names name str = true)
    {s' : Env} (hs' : (∃ i e, s.find name = some (i, e) ∧ s' = { s with environ := s.environ.map (·.set i (some str)) }) ∨
      s.find name = none ∧ ∃ array, s.append array str = some s') :
    Is s' (Function.update m name (some (str.drop (name.length + 1)))) := by
  have hupdate (f : Str → Option Str) (hf : ∀ n, equals ∉ n → f n = m n) (v : Option Str) (n : Str) (hn : equals ∉ n) :
      Function.update f name v n = Function.update m name v n := by
    by_cases heq : n = name
    · rw [heq, update_self, update_self]
    · rw [update_of_ne heq, update_of_ne heq, hf n hn]
  rcases hs' with ⟨i, e, hfind, rfl⟩ | ⟨hfind, array, happend⟩
  · obtain ⟨pre, post, rfl, rfl, he, hpre⟩ := h.find_some hfind
    exact (h.replace str).is fun n hn => (value_replace hname he hstr hpre hn).trans (hupdate _ hm _ n hn)
  · exact (h.append happend).is fun n hn => (value_append hname hstr (h.find_none hfind) hn).trans (hupdate _ hm _ n hn)

theorem Is.step (h : Is s m) (mem : Mem) (c : Call) : Is (s.step mem c).1 (mapStep m (c, (s.step mem c).2)) := by
  obtain ⟨es, hes⟩ := h.ended.has
  have hm : ∀ n, equals ∉ n → value n es = m n := fun n hn => (hes.getenv n).symm.trans (h.getenv n hn)
  cases hok : (s.step mem c).2 with
  | false =>
    rw [Env.step_failed hok]
    cases c <;> exact h
  | true =>
    cases c with
    | getenv name => exact h
    | setenv name val overwrite =>
      change (s.setenv mem name val overwrite).2 = true at hok
      change Is (s.setenv mem name val overwrite).1 _
      unfold Env.setenv at hok ⊢
      split at hok
      · cases hok
      rename_i hbad
      have hname : equals ∉ name := fun h => hbad (.inr h)
      rw [if_neg hbad]
      have hstr : names name (name ++ equals :: val.getD []) = true := names_iff.2 ⟨_, rfl⟩
      have hput := @Env.Has.put name s es m _ hes hm hname hstr
      rw [drop_name] at hput
      have hval := hm name hname
      cases hfind : s.find name with
      | some r =>
        obtain ⟨i, e⟩ := r
        rw [hfind] at hok
        obtain ⟨pre, post, rfl, -, he, hpre⟩ := hes.find_some hfind
        rw [value_some he hpre] at hval
        cases overwrite with
        | false =>
          rw [mapStep, if_neg (by simp [← hval])]
          exact h
        | true =>
          cases hmem : mem.string with
          | false => simp [hmem] at hok
          | true =>
            rw [mapStep, if_pos (.inl rfl)]
            exact hput (.inl ⟨i, e, hfind, rfl⟩)
      | none =>
        rw [hfind] at hok
        rw [value_none (hes.find_none hfind)] at hval
        cases hmem : mem.string with
        | false => simp [hmem] at hok
        | true =>
          cases happend : s.append mem.array (name ++ equals :: val.getD []) with
          | none => simp [hmem, happend] at hok
          | some s' =>
            rw [mapStep, if_pos (.inr hval.symm)]
            simp only [happend, Bool.not_true, Bool.false_eq_true, if_false]
            exact hput (.inr ⟨hfind, mem.array, happend⟩)
    | unsetenv name =>
      have hname : equals ∉ name := fun hmem => by
        have : (s.unsetenv name).2 = false := by rw [Env.unsetenv, if_pos (.inr hmem)]
        cases this.symm.trans hok
      exact hes.unsetenv hname hm hok
    | putenv string =>
      change (s.putenv mem string).2 = true at hok
      change Is (s.putenv mem string).1 _
      unfold Env.putenv at hok ⊢
      by_cases hmem : equals ∉ string
      · rw [if_pos hmem] at hok ⊢
        rw [mapStep, if_pos hmem]
        exact hes.unsetenv hmem hm hok
      · rw [if_neg hmem] at hok ⊢
        rw [mapStep, if_neg hmem]
        have hsplit := split_equals (not_not.1 hmem)
        have hname : equals ∉ string.takeWhile (· ≠ equals) := fun h => by simpa using mem_takeWhile_imp h
        have hstr : names (string.takeWhile (· ≠ equals)) string = true := names_iff.2 ⟨_, hsplit⟩
        have hdrop : string.drop ((string.takeWhile (· ≠ equals)).length + 1) = (string.dropWhile (· ≠ equals)).drop 1 :=
          (congrArg (List.drop _) hsplit).trans (drop_name _ _)
        have hput := @Env.Has.put _ s es m string hes hm hname hstr
        rw [hdrop] at hput
        cases hfind : s.find (string.takeWhile (· ≠ equals)) with
        | some r => exact hput (.inl ⟨r.1, r.2, hfind, rfl⟩)
        | none =>
          rw [hfind] at hok
          cases happend : s.append mem.array string with
          | none => simp [happend] at hok
          | some s' => exact hput (.inr ⟨hfind, mem.array, happend⟩)

theorem isSome_append (s : Env) (array : Option (Nat → Cell)) (str : Str) : (s.append array str).isSome = array.isSome := by
  rw [Env.append, Option.isSome_map]

theorem Is.isSome (h : Is s m) (hname : equals ∉ name) : (m name).isSome = (s.find name).isSome := by
  rw [← h.getenv name hname, Env.getenv, Option.isSome_map]

/-- **A call succeeds where the map says so.** -/
theorem Is.succeeds (h : Is s m) (mem : Mem) (c : Call) : (s.step mem c).2 = succeeds m mem c := by
  have hunset (name : Str) : (s.unsetenv name).2 = decide (name ≠ [] ∧ equals ∉ name) := by
    unfold Env.unsetenv
    split
    · rename_i hbad
      exact (decide_eq_false (not_and_or.2 (hbad.imp not_not.2 not_not.2))).symm
    · rename_i hbad
      exact (decide_eq_true (not_or.1 hbad)).symm
  cases c with
  | getenv name => rfl
  | setenv name val overwrite =>
    change (s.setenv mem name val overwrite).2 = (decide (name ≠ [] ∧ equals ∉ name) &&
      (((m name).isSome && !overwrite) || (mem.string && ((m name).isSome || mem.array.isSome))))
    unfold Env.setenv
    by_cases hbad : name = [] ∨ equals ∈ name
    · rw [if_pos hbad, decide_eq_false (not_and_or.2 (hbad.imp not_not.2 not_not.2)), Bool.false_and]
    · rw [if_neg hbad, decide_eq_true (not_or.1 hbad), Bool.true_and, h.isSome (not_or.1 hbad).2]
      dsimp only
      rw [← isSome_append s mem.array (name ++ equals :: val.getD [])]
      cases s.find name with
      | some r => cases overwrite <;> cases mem.string <;> rfl
      | none => cases s.append mem.array (name ++ equals :: val.getD []) <;> cases mem.string <;> rfl
  | unsetenv name => exact hunset name
  | putenv string =>
    change (s.putenv mem string).2 = if equals ∉ string then decide (string ≠ [])
      else (m (string.takeWhile (· ≠ equals))).isSome || mem.array.isSome
    unfold Env.putenv
    by_cases hmem : equals ∉ string
    · rw [if_pos hmem, if_pos hmem, hunset]
      simp [hmem]
    · have hname : equals ∉ string.takeWhile (· ≠ equals) := fun h => by simpa using mem_takeWhile_imp h
      rw [if_neg hmem, if_neg hmem, h.isSome hname, ← isSome_append s mem.array string]
      cases s.find (string.takeWhile (· ≠ equals)) with
      | some r => rfl
      | none => cases s.append mem.array string <;> rfl

/-! ## Runs -/

theorem Is.run : ∀ (calls : List (Call × Mem)) {s : Env} {m : Str → Option Str}, Is s m →
    Is (s.run calls).1 (mapRun m calls).1 ∧ (s.run calls).2 = (mapRun m calls).2
  | [], _, _, h => ⟨h, rfl⟩
  | (c, mem) :: calls, s, m, h => by
    have hstep := h.step mem c
    have hok := h.succeeds mem c
    rw [hok] at hstep
    obtain ⟨his, hdone⟩ := Is.run calls hstep
    exact ⟨his, congrArg₂ (fun ok done => (c, ok) :: done) hok hdone⟩

/-- **The environment is a map**: after any calls, every name has the value that the calls before give it, the calls that
succeed are those with a legal name and the memory they need, and a call that fails leaves everything as it is. -/
theorem environment_is_map {s : Env} (h : s.Ended) (calls : List (Call × Mem)) :
    (∀ name, equals ∉ name → (s.run calls).1.getenv name = (mapRun s.getenv calls).1 name) ∧
      (s.run calls).2 = (mapRun s.getenv calls).2 ∧
      ∀ mem c, ((s.run calls).1.step mem c).2 = false → ((s.run calls).1.step mem c).1 = (s.run calls).1 := by
  obtain ⟨his, hdone⟩ := Is.run calls (s := s) ⟨h, fun _ _ => rfl⟩
  exact ⟨his.getenv, hdone, fun _ _ => Env.step_failed⟩

/-- `AB=2` is set beside `A=1`, `A=5` is not, for `C=3` there is no room, and `B=7` is handed over. -/
def someCalls : List (Call × Mem) :=
  [(.setenv [65, 66] (some [50]) true, ⟨true, some fun _ => none⟩), (.setenv [65] (some [53]) false, ⟨true, none⟩),
    (.setenv [67] (some [51]) true, ⟨true, none⟩), (.putenv [66, 61, 55], ⟨false, some fun _ => none⟩)]

theorem environment_is_map_prefix :
    let r := Env.run ⟨some [some [65, 61, 49], none], false⟩ someCalls
    r.2.map (·.2) = [true, true, false, true] ∧
      [[65, 66], [65], [67], [66]].map r.1.getenv = [some [50], some [49], none, some [55]] := by
  intro r
  obtain ⟨hget, hdone, -⟩ :=
    environment_is_map (s := ⟨some [some [65, 61, 49], none], false⟩) (fun _ h => by cases h; decide) someCalls
  refine ⟨by rw [hdone]; decide, ?_⟩
  simp only [map_cons, map_nil]
  rw [hget _ (by decide), hget _ (by decide), hget _ (by decide), hget _ (by decide)]
  decide

end EterOS.Environ
