import Mathlib.Data.List.FinRange
import Mathlib.Data.List.Induction
import Mathlib.Data.Fintype.EquivFin
import Mathlib.Logic.Function.Basic
import EterOS.Lib.Run
import Mathlib.Algebra.Group.Nat.Defs
/-!
# Bcache — the sector cache of the filesystems (`kernel/fs/bcache.c`)

A flat array of 128 entries, searched from the front, each stamped with a global 64-bit counter when it is read or
written.  What the cache promises is a map that remembers the last data written for a key, gives up one entry when all
128 are taken, and then the one longest unused.  The counter is what the last part rests on: it wraps after `2^64` uses,
and the entry used last is then the one with the smallest stamp.
-/
namespace EterOS.Fs

open Function (update update_self update_of_ne)

abbrev bcacheSize : Nat := 128

abbrev Sector : Type := Vector UInt8 512

structure Key where
  volumeId : UInt32
  sector : UInt32
deriving DecidableEq

structure Entry extends Key where
  data : Sector
  valid : Bool
  lastAccess : UInt64

structure Cache where
  entry : Fin bcacheSize → Entry
  accessCounter : UInt64

abbrev Bcache : Type := Option Cache

/-! ## The code -/

def Entry.holds (e : Entry) (k : Key) : Bool :=
  e.valid && e.volumeId == k.volumeId && e.sector == k.sector

def Cache.find (c : Cache) (k : Key) : Option (Fin bcacheSize) :=
  (List.finRange bcacheSize).find? fun i => (c.entry i).holds k

/-- The victim loop, from the index it has reached: `victim_idx` and `min_access` so far. -/
def victimLoop (entry : Fin bcacheSize → Entry) : List (Fin bcacheSize) → Option (Fin bcacheSize) → UInt64 →
    Option (Fin bcacheSize)
  | [], victim, _ => victim
  | i :: is, victim, minAccess =>
    if (entry i).valid = false then some i
    else if (entry i).lastAccess < minAccess then victimLoop entry is (some i) (entry i).lastAccess
    else victimLoop entry is victim minAccess

def Cache.victim (c : Cache) : Option (Fin bcacheSize) :=
  victimLoop c.entry (List.finRange bcacheSize) none 0xFFFFFFFFFFFFFFFF

def Cache.stamp (c : Cache) (i : Fin bcacheSize) (e : Entry) : Cache where
  entry := update c.entry i { e with lastAccess := c.accessCounter + 1 }
  accessCounter := c.accessCounter + 1

def bcacheInit (kmalloc : Bool) : Bcache :=
  if kmalloc then
    some ⟨fun _ => ⟨⟨0, 0⟩, Vector.replicate 512 0, false, 0⟩, 0⟩
  else none

def bcacheRead (b : Bcache) (k : Key) : Bcache × Option Sector :=
  match b with
  | none => (none, none)
  | some c =>
    match c.find k with
    | some i => (some (c.stamp i (c.entry i)), some (c.entry i).data)
    | none => (some c, none)

def bcacheWrite (b : Bcache) (k : Key) (buffer : Sector) : Bcache :=
  match b with
  | none => none
  | some c =>
    match c.find k with
    | some i => some (c.stamp i { c.entry i with data := buffer })
    | none =>
      match c.victim with
      | some i => some (c.stamp i { c.entry i with toKey := k, data := buffer, valid := true })
      | none => some c

def bcacheInvalidate (b : Bcache) (k : Key) : Bcache :=
  match b with
  | none => none
  | some c =>
    match c.find k with
    | some i => some { c with entry := update c.entry i { c.entry i with valid := false } }
    | none => some c

/-- `bcache_invalidate_all`; between two calls the lock it tries is free. -/
def bcacheInvalidateAll (b : Bcache) : Bcache :=
  b.map fun c => { c with entry := fun i => { c.entry i with valid := false } }

/-! ## Histories -/

inductive Op where
  | read (k : Key)
  | write (k : Key) (buffer : Sector)
  | invalidate (k : Key)
  | invalidateAll

def bcacheStep (b : Bcache) : Op → Bcache
  | .read k => (bcacheRead b k).1
  | .write k d => bcacheWrite b k d
  | .invalidate k => bcacheInvalidate b k
  | .invalidateAll => bcacheInvalidateAll b

def bcacheRun (kmalloc : Bool) (ops : List Op) : Bcache := ops.foldl bcacheStep (bcacheInit kmalloc)

/-- The data cached for a key: what `bcache_read` would return. -/
def cached (b : Bcache) (k : Key) : Option Sector := (bcacheRead b k).2

def Op.names (k : Key) : Op → Bool
  | .read k' => k' = k
  | .write k' _ => k' = k
  | .invalidate k' => k' = k
  | .invalidateAll => true

/-- The operation gives `k` new data or none. -/
def Op.overwrites (k : Key) : Op → Bool
  | .read _ => false
  | op => op.names k

def Op.uses (k : Key) : Op → Bool
  | .read k' => k' = k
  | .write k' _ => k' = k
  | _ => false

def Op.accesses : Op → Bool
  | .read _ => true
  | .write _ _ => true
  | _ => false

/-- `d` is what the last `bcache_write` of `k` wrote, and nothing has overwritten or invalidated it since. -/
def LastWritten (ops : List Op) (k : Key) (d : Sector) : Prop :=
  ∃ before after, ops = before ++ .write k d :: after ∧ ∀ op ∈ after, op.overwrites k = false

/-- The number of operations since `k` was last read or written. -/
def sinceUse (k : Key) (ops : List Op) : Nat := ops.reverse.findIdx (Op.uses k)

/-- `k` is cached, and every other cached key was read or written after it. -/
def LeastRecent (b : Bcache) (ops : List Op) (k : Key) : Prop :=
  cached b k ≠ none ∧ ∀ k', k' ≠ k → cached b k' ≠ none → sinceUse k' ops < sinceUse k ops

def AllValid (b : Bcache) : Prop := ∃ c, b = some c ∧ ∀ i, (c.entry i).valid = true

/-- A write of `k` takes the entry of `k'` away. -/
def Evicts (b : Bcache) (k : Key) (d : Sector) (k' : Key) : Prop :=
  cached b k' ≠ none ∧ cached (bcacheWrite b k d) k' = none

/-! ## Searching -/

variable {c c' : Cache} {b : Bcache} {k k' : Key} {d : Sector} {op : Op} {ops : List Op} {i j : Fin bcacheSize}

@[simp] theorem holds_iff {e : Entry} : e.holds k = true ↔ e.valid = true ∧ e.toKey = k := by
  obtain ⟨⟨v, s⟩, d, valid, la⟩ := e
  obtain ⟨v', s'⟩ := k
  simp [Entry.holds, and_assoc]

theorem valid_of_find (h : c.find k = some i) : (c.entry i).valid = true ∧ (c.entry i).toKey = k := by
  rw [Cache.find] at h
  exact holds_iff.1 (by simpa using List.find?_some h)

theorem find_eq_none : c.find k = none ↔ ∀ i, (c.entry i).valid = true → (c.entry i).toKey ≠ k := by
  simp [Cache.find, holds_iff]

def UniqueKeys (c : Cache) : Prop :=
  ∀ i j, (c.entry i).valid = true → (c.entry j).valid = true → (c.entry i).toKey = (c.entry j).toKey → i = j

theorem UniqueKeys.find (h : UniqueKeys c) (hv : (c.entry i).valid = true) : c.find (c.entry i).toKey = some i := by
  cases hf : c.find (c.entry i).toKey with
  | none => exact absurd rfl (find_eq_none.1 hf i hv)
  | some j =>
    have hj := valid_of_find hf
    rw [h j i hj.1 hv hj.2]

theorem UniqueKeys.toKey_ne (h : UniqueKeys c) (hf : c.find k = some i) (hj : j ≠ i) (hv : (c.entry j).valid = true) :
    (c.entry j).toKey ≠ k := by
  obtain ⟨hvi, hki⟩ := valid_of_find hf
  exact fun hk => hj (h j i hv hvi (hk.trans hki.symm))

theorem cached_some : cached (some c) k = (c.find k).map fun i => (c.entry i).data := by
  rw [cached, bcacheRead]
  cases c.find k <;> rfl

theorem cached_eq_none : cached (some c) k = none ↔ c.find k = none := by
  rw [cached_some, Option.map_eq_none_iff]

theorem cached_ne_none : cached (some c) k ≠ none ↔ ∃ i, (c.entry i).valid = true ∧ (c.entry i).toKey = k := by
  rw [Ne, cached_eq_none, find_eq_none]
  push Not
  rfl

theorem entry_of_cached (h : cached (some c) k = some d) :
    ∃ i, (c.entry i).valid = true ∧ (c.entry i).toKey = k ∧ (c.entry i).data = d := by
  rw [cached_some, Option.map_eq_some_iff] at h
  obtain ⟨i, hi, hd⟩ := h
  exact ⟨i, (valid_of_find hi).1, (valid_of_find hi).2, hd⟩

theorem UniqueKeys.cached_entry (h : UniqueKeys c) (hv : (c.entry i).valid = true) :
    cached (some c) (c.entry i).toKey = some (c.entry i).data := by
  rw [cached_some, h.find hv]
  rfl

/-- **The victim loop**: the first entry that is not valid, else the first of the smallest stamp. -/
theorem victimLoop_spec (entry : Fin bcacheSize → Entry) :
      ∀ (is : List (Fin bcacheSize)) (v : Option (Fin bcacheSize)) (m : UInt64), match victimLoop entry is v m with
      | some i => (i ∈ is ∧ (entry i).valid = false) ∨ (∀ j ∈ is, (entry j).valid = true) ∧
          ((v = some i ∧ ∀ j ∈ is, m ≤ (entry j).lastAccess) ∨
            (entry i).lastAccess < m ∧ i ∈ is ∧ ∀ j ∈ is, (entry i).lastAccess ≤ (entry j).lastAccess)
      | none => v = none ∧ ∀ j ∈ is, (entry j).valid = true ∧ m ≤ (entry j).lastAccess
  | [], v, m => by
    cases v <;> simp [victimLoop]
  | a :: is, v, m => by
    by_cases hv : (entry a).valid = false
    · simp [victimLoop, hv]
    · rw [Bool.not_eq_false] at hv
      by_cases hlt : (entry a).lastAccess < m
      · have ih := victimLoop_spec entry is (some a) (entry a).lastAccess
        simp only [victimLoop, hv, hlt, Bool.true_eq_false, if_false, if_true]
        grind
      · have ih := victimLoop_spec entry is v m
        simp only [victimLoop, hv, hlt, Bool.true_eq_false, if_false]
        grind

theorem victim_some (h : c.victim = some i) : (c.entry i).valid = false ∨
    (∀ j, (c.entry j).valid = true) ∧ ∀ j, (c.entry i).lastAccess ≤ (c.entry j).lastAccess := by
  have hs := victimLoop_spec c.entry (List.finRange bcacheSize) none 0xFFFFFFFFFFFFFFFF
  rw [← Cache.victim, h] at hs
  simp only [List.mem_finRange, true_and, true_implies, reduceCtorEq, false_and, false_or] at hs
  exact hs.imp_right fun ⟨hall, _, hmin⟩ => ⟨hall, hmin⟩

theorem victim_none (h : c.victim = none) : ∀ j, (c.entry j).valid = true ∧ (c.entry j).lastAccess = 0xFFFFFFFFFFFFFFFF := by
  have hs := victimLoop_spec c.entry (List.finRange bcacheSize) none 0xFFFFFFFFFFFFFFFF
  rw [← Cache.victim, h] at hs
  intro j
  obtain ⟨hv, hle⟩ := hs.2 j (List.mem_finRange j)
  refine ⟨hv, UInt64.le_antisymm ?_ hle⟩
  rw [UInt64.le_iff_toNat_le]
  have := (c.entry j).lastAccess.toNat_lt
  simp
  omega

/-! ## One operation -/

def Cache.slot (c : Cache) (k : Key) : Option (Fin bcacheSize) := (c.find k).or c.victim

theorem bcacheWrite_eq : bcacheWrite (some c) k d = some (match c.slot k with
    | some i => c.stamp i ⟨k, d, true, 0⟩
    | none => c) := by
  rw [bcacheWrite, Cache.slot]
  cases hf : c.find k with
  | some i =>
    obtain ⟨hv, hk⟩ := valid_of_find hf
    simp [Cache.stamp, ← hk, hv]
  | none => cases hv : c.victim <;> simp [Cache.stamp]

@[simp] theorem stamp_self {e : Entry} : (c.stamp i e).entry i = { e with lastAccess := c.accessCounter + 1 } := by
  simp [Cache.stamp]

theorem stamp_of_ne {e : Entry} (h : j ≠ i) : (c.stamp i e).entry j = c.entry j := by
  simp [Cache.stamp, h]

@[simp] theorem stamp_accessCounter {e : Entry} : (c.stamp i e).accessCounter = c.accessCounter + 1 := rfl

/-- Where a valid entry comes from: it was there and the operation is not about it, it was read, or it was written. -/
inductive Origin (c c' : Cache) (j : Fin bcacheSize) : Op → Prop
  | kept {op : Op} (valid : (c.entry j).valid = true) (other : op.names (c.entry j).toKey = false)
      (same : c'.entry j = c.entry j) : Origin c c' j op
  | read (valid : (c.entry j).valid = true)
      (stamped : c'.entry j = { c.entry j with lastAccess := c.accessCounter + 1 })
      (counter : c'.accessCounter = c.accessCounter + 1) : Origin c c' j (.read (c.entry j).toKey)
  | written {k : Key} {d : Sector} (slot : c.slot k = some j)
      (stamped : c'.entry j = ⟨k, d, true, c.accessCounter + 1⟩)
      (counter : c'.accessCounter = c.accessCounter + 1) : Origin c c' j (.write k d)

/-- **What one operation leaves**: every valid entry has one of the three origins. -/
theorem origin_of_step (hu : UniqueKeys c) (h : bcacheStep (some c) op = some c') (hv : (c'.entry j).valid = true) :
    Origin c c' j op := by
  cases op with
  | read k =>
    simp only [bcacheStep, bcacheRead] at h
    split at h
    · rename_i i hf
      obtain ⟨hvi, hki⟩ := valid_of_find hf
      obtain rfl := Option.some.inj h
      by_cases hj : j = i
      · subst hj
        exact hki ▸ .read hvi stamp_self rfl
      · rw [stamp_of_ne hj] at hv
        refine .kept hv ?_ (stamp_of_ne hj)
        simpa [Op.names] using (hu.toKey_ne hf hj hv).symm
    · rename_i hf
      obtain rfl := Option.some.inj h
      exact .kept hv (by simpa [Op.names] using (find_eq_none.1 hf j hv).symm) rfl
  | write k d =>
    rw [bcacheStep, bcacheWrite_eq, Option.some.injEq] at h
    split at h
    · rename_i i hs
      subst h
      by_cases hj : j = i
      · subst hj
        exact .written hs stamp_self rfl
      · rw [stamp_of_ne hj] at hv
        refine .kept hv ?_ (stamp_of_ne hj)
        rw [Cache.slot] at hs
        cases hf : c.find k with
        | none => simpa [Op.names] using (find_eq_none.1 hf j hv).symm
        | some i' =>
          rw [hf, Option.some_or, Option.some.injEq] at hs
          simpa [Op.names] using (hu.toKey_ne (hs ▸ hf) hj hv).symm
    · rename_i hs
      subst h
      have hf := (Option.or_eq_none_iff.1 hs).1
      exact .kept hv (by simpa [Op.names] using (find_eq_none.1 hf j hv).symm) rfl
  | invalidate k =>
    simp only [bcacheStep, bcacheInvalidate] at h
    split at h
    · rename_i i hf
      obtain rfl := Option.some.inj h
      by_cases hj : j = i
      · subst hj
        simp at hv
      · simp only [update_of_ne hj] at hv
        refine .kept hv ?_ (update_of_ne hj _ _)
        simpa [Op.names] using (hu.toKey_ne hf hj hv).symm
    · rename_i hf
      obtain rfl := Option.some.inj h
      exact .kept hv (by simpa [Op.names] using (find_eq_none.1 hf j hv).symm) rfl
  | invalidateAll =>
    simp only [bcacheStep, bcacheInvalidateAll, Option.map_some, Option.some.injEq] at h
    subst h
    simp at hv

/-- **What one operation takes away**: an entry it is not about stays as it is, but for the victim of a write. -/
theorem entry_of_step (h : bcacheStep (some c) op = some c') (hn : op.names (c.entry j).toKey = false) :
    c'.entry j = c.entry j ∨ ∃ k d, op = .write k d ∧ c.find k = none ∧ c.victim = some j := by
  cases op with
  | read k =>
    simp only [bcacheStep, bcacheRead] at h
    split at h
    · rename_i i hf
      obtain rfl := Option.some.inj h
      refine .inl (stamp_of_ne ?_)
      rintro rfl
      simp [Op.names, (valid_of_find hf).2] at hn
    · exact .inl (by rw [← Option.some.inj h])
  | write k d =>
    rw [bcacheStep, bcacheWrite_eq, Option.some.injEq] at h
    split at h
    · rename_i i hs
      subst h
      by_cases hj : j = i
      · subst hj
        cases hf : c.find k with
        | none => exact .inr ⟨k, d, rfl, hf, by simpa [Cache.slot, hf] using hs⟩
        | some i =>
          rw [Cache.slot, hf, Option.some_or, Option.some.injEq] at hs
          simp [Op.names, ← (valid_of_find (hs ▸ hf)).2] at hn
      · exact .inl (stamp_of_ne hj)
    · exact .inl (by rw [← h])
  | invalidate k =>
    simp only [bcacheStep, bcacheInvalidate] at h
    split at h
    · rename_i i hf
      obtain rfl := Option.some.inj h
      refine .inl (update_of_ne ?_ _ _)
      rintro rfl
      simp [Op.names, (valid_of_find hf).2] at hn
    · exact .inl (by rw [← Option.some.inj h])
  | invalidateAll => simp [Op.names] at hn

theorem accessCounter_of_step (h : bcacheStep (some c) op = some c') :
    c'.accessCounter = c.accessCounter ∨ c'.accessCounter = c.accessCounter + 1 ∧ op.accesses = true := by
  cases op with
  | read k =>
    simp only [bcacheStep, bcacheRead] at h
    split at h <;> obtain rfl := Option.some.inj h
    · exact .inr ⟨rfl, rfl⟩
    · exact .inl rfl
  | write k d =>
    rw [bcacheStep, bcacheWrite_eq, Option.some.injEq] at h
    split at h <;> subst h
    · exact .inr ⟨rfl, rfl⟩
    · exact .inl rfl
  | invalidate k =>
    simp only [bcacheStep, bcacheInvalidate] at h
    split at h <;> obtain rfl := Option.some.inj h <;> exact .inl rfl
  | invalidateAll =>
    simp only [bcacheStep, bcacheInvalidateAll, Option.map_some, Option.some.injEq] at h
    exact .inl (by rw [← h])

theorem step_some (c : Cache) (op : Op) : ∃ c', bcacheStep (some c) op = some c' := by
  cases op with
  | read k =>
    simp only [bcacheStep, bcacheRead]
    split <;> exact ⟨_, rfl⟩
  | write k d => exact ⟨_, bcacheWrite_eq⟩
  | invalidate k =>
    simp only [bcacheStep, bcacheInvalidate]
    split <;> exact ⟨_, rfl⟩
  | invalidateAll => exact ⟨_, rfl⟩

theorem step_none (op : Op) : bcacheStep none op = none := by
  cases op <;> rfl

/-! ## What a history leaves in the cache -/

theorem Op.overwrites_of_names (h : op.names k = false) : op.overwrites k = false := by
  cases op <;> simp_all [Op.names, Op.overwrites]

theorem Op.uses_of_names (h : op.names k = false) : op.uses k = false := by
  cases op <;> simp_all [Op.names, Op.uses]

theorem Op.key_eq_of_uses (h : op.uses k = true) (h' : op.uses k' = true) : k = k' := by
  cases op <;> simp_all [Op.uses]

theorem LastWritten.append (h : LastWritten ops k d) (hop : op.overwrites k = false) : LastWritten (ops ++ [op]) k d := by
  obtain ⟨before, after, rfl, hafter⟩ := h
  refine ⟨before, after ++ [op], by simp, fun o ho => ?_⟩
  rcases List.mem_append.1 ho with ho | ho
  · exact hafter o ho
  · exact List.mem_singleton.1 ho ▸ hop

theorem LastWritten.write : LastWritten (ops ++ [.write k d]) k d := ⟨ops, [], rfl, fun _ h => absurd h List.not_mem_nil⟩

@[simp] theorem sinceUse_append : sinceUse k (ops ++ [op]) = if op.uses k then 0 else sinceUse k ops + 1 := by
  rw [sinceUse, List.reverse_append, List.reverse_singleton, List.singleton_append, List.findIdx_cons]
  cases op.uses k <;> rfl

/-- The entries after `ops`: one for each key, with the data last written for it. -/
structure Traced (c : Cache) (ops : List Op) : Prop where
  unique : UniqueKeys c
  written : ∀ i, (c.entry i).valid = true → LastWritten ops (c.entry i).toKey (c.entry i).data

/-- The stamps after `ops`, while the counter has not wrapped: they order the entries as their last uses do. -/
structure Stamped (c : Cache) (ops : List Op) : Prop where
  counter : c.accessCounter.toNat ≤ ops.countP Op.accesses
  pos : ∀ i, (c.entry i).valid = true → 0 < (c.entry i).lastAccess
  bound : ∀ i, (c.entry i).valid = true → (c.entry i).lastAccess ≤ c.accessCounter
  order : ∀ i j, (c.entry i).valid = true → (c.entry j).valid = true → i ≠ j →
    ((c.entry i).lastAccess < (c.entry j).lastAccess ∧
      sinceUse (c.entry j).toKey ops < sinceUse (c.entry i).toKey ops) ∨
    ((c.entry j).lastAccess < (c.entry i).lastAccess ∧
      sinceUse (c.entry i).toKey ops < sinceUse (c.entry j).toKey ops)

theorem UniqueKeys.step (h : UniqueKeys c) (hs : bcacheStep (some c) op = some c') : UniqueKeys c' := by
  intro i j hi hj hk
  have oi := origin_of_step h hs hi
  have oj := origin_of_step h hs hj
  cases oi with
  | kept vi ni ei =>
    cases oj with
    | kept vj nj ej => exact h i j vi vj (by rw [← ei, ← ej, hk])
    | read vj ej _ => exact h i j vi vj (by rw [← ei, hk, ej])
    | written sj ej _ => simp [Op.names, ← ei, hk, ej] at ni
  | read vi ei _ =>
    generalize hop : Op.read (c.entry i).toKey = op at *
    cases oj with
    | kept vj nj ej => exact h i j vi vj (by rw [← ej, ← hk, ei])
    | read vj ej _ => exact h i j vi vj (Op.read.inj hop)
    | written sj ej _ => cases hop
  | written si ei _ =>
    cases oj with
    | kept vj nj ej => simp [Op.names, ← ej, ← hk, ei] at nj
    | written sj ej _ => exact Option.some.inj (si.symm.trans sj)

theorem Traced.step (h : Traced c ops) (hs : bcacheStep (some c) op = some c') : Traced c' (ops ++ [op]) := by
  refine ⟨h.unique.step hs, fun i hi => ?_⟩
  cases origin_of_step h.unique hs hi with
  | kept vi ni ei => exact ei ▸ (h.written i vi).append (Op.overwrites_of_names ni)
  | read vi ei _ => exact ei ▸ (h.written i vi).append rfl
  | written si ei _ => exact ei ▸ .write

theorem Stamped.step (ht : Traced c ops) (h : Stamped c ops) (hs : bcacheStep (some c) op = some c')
    (hlt : (ops ++ [op]).countP Op.accesses < 2 ^ 64) : Stamped c' (ops ++ [op]) := by
  have hcount : (ops ++ [op]).countP Op.accesses = ops.countP Op.accesses + if op.accesses then 1 else 0 := by
    simp
  have hc := h.counter
  -- a use does not wrap the counter, so its stamp is later than every other
  have huse : op.accesses = true → (c.accessCounter + 1).toNat = c.accessCounter.toNat + 1 := by
    intro ha
    rw [hcount, ha, if_pos rfl] at hlt
    rw [UInt64.toNat_add, UInt64.toNat_one, Nat.mod_eq_of_lt (by omega)]
  have haged : ∀ i, (c'.entry i).valid = true → ((c.entry i).valid = true ∧ (c'.entry i).toKey = (c.entry i).toKey ∧
        (c'.entry i).lastAccess = (c.entry i).lastAccess ∧ op.uses (c'.entry i).toKey = false) ∨
      (op.uses (c'.entry i).toKey = true ∧ (c'.entry i).lastAccess = c.accessCounter + 1 ∧ op.accesses = true ∧
        c'.accessCounter = c.accessCounter + 1) := by
    intro i hi
    cases origin_of_step ht.unique hs hi with
    | kept vi ni ei => exact .inl ⟨vi, by rw [ei], by rw [ei], by rw [ei]; exact Op.uses_of_names ni⟩
    | read vi ei ci => exact .inr ⟨by simp [ei, Op.uses], by rw [ei], rfl, ci⟩
    | written si ei ci => exact .inr ⟨by simp [ei, Op.uses], by rw [ei], rfl, ci⟩
  constructor
  · rcases accessCounter_of_step hs with he | ⟨he, ha⟩
    · rw [he, hcount]
      omega
    · rw [he, huse ha, hcount, ha, if_pos rfl]
      omega
  · intro i hi
    rcases haged i hi with ⟨vi, -, ei, -⟩ | ⟨-, ei, ha, -⟩
    · exact ei ▸ h.pos i vi
    · rw [ei, UInt64.lt_iff_toNat_lt, huse ha, UInt64.toNat_zero]
      omega
  · intro i hi
    rcases haged i hi with ⟨vi, -, ei, -⟩ | ⟨-, ei, ha, ec⟩
    · have hb := UInt64.le_iff_toNat_le.1 (h.bound i vi)
      rcases accessCounter_of_step hs with he | ⟨he, ha⟩
      · rw [ei, he]
        exact h.bound i vi
      · rw [ei, he, UInt64.le_iff_toNat_le, huse ha]
        omega
    · rw [ei, ec]
      exact UInt64.le_refl _
  · intro i j hi hj hij
    -- only the entry of the key that is used gets a new stamp
    rcases haged i hi with ⟨vi, ki, ei, ui⟩ | ⟨ui, ei, ha, -⟩ <;>
      rcases haged j hj with ⟨vj, kj, ej, uj⟩ | ⟨uj, ej, ha', -⟩
    · simp only [sinceUse_append, ui, uj, Bool.false_eq_true, if_false, Nat.add_lt_add_iff_right]
      rw [ei, ej, ki, kj]
      exact h.order i j vi vj hij
    · have hb := UInt64.le_iff_toNat_le.1 (h.bound i vi)
      refine .inl ⟨?_, by simp [ui, uj]⟩
      rw [ei, ej, UInt64.lt_iff_toNat_lt, huse ha']
      omega
    · have hb := UInt64.le_iff_toNat_le.1 (h.bound j vj)
      refine .inr ⟨?_, by simp [ui, uj]⟩
      rw [ei, ej, UInt64.lt_iff_toNat_lt, huse ha]
      omega
    · exact absurd ((ht.step hs).unique i j hi hj (Op.key_eq_of_uses ui uj)) hij

/-- **The invariant rule**: after any history the array is traced, and stamped while the counter has not wrapped. -/
theorem run_traced (ops : List Op) : ∃ c, bcacheRun true ops = some c ∧ Traced c ops ∧
    (ops.countP Op.accesses < 2 ^ 64 → Stamped c ops) := by
  induction ops using List.reverseRecOn with
  | nil =>
    refine ⟨_, rfl, ⟨?_, ?_⟩, fun _ => ⟨Nat.le_refl _, ?_, ?_, ?_⟩⟩
    · intro i j hi
      cases hi
    · intro i hi
      cases hi
    · intro i hi
      cases hi
    · intro i hi
      cases hi
    · intro i j hi
      cases hi
  | append_singleton ops op ih =>
    obtain ⟨c, hc, ht, hst⟩ := ih
    obtain ⟨c', hc'⟩ := step_some c op
    refine ⟨c', ?_, ht.step hc', fun hlt => ?_⟩
    · rw [bcacheRun, List.foldl_append, ← bcacheRun, hc]
      exact hc'
    · refine Stamped.step ht (hst (lt_of_le_of_lt ?_ hlt)) hc' hlt
      rw [List.countP_append]
      omega

theorem run_null (ops : List Op) : bcacheRun false ops = none := by
  induction ops using List.reverseRecOn with
  | nil => rfl
  | append_singleton ops op ih =>
    rw [bcacheRun, List.foldl_append, ← bcacheRun, ih]
    exact step_none op

/-! ## Eviction -/

theorem cached_write (h : c.slot k = some i) : cached (bcacheWrite (some c) k d) k ≠ none := by
  rw [bcacheWrite_eq, h, cached_ne_none]
  exact ⟨i, by rw [stamp_self], by rw [stamp_self]⟩

/-- **Eviction**: a key goes when its entry is the victim of a write that missed. -/
theorem UniqueKeys.evicts_iff (hu : UniqueKeys c) : Evicts (some c) k d k' ↔
    c.find k = none ∧ ∃ i, c.victim = some i ∧ (c.entry i).valid = true ∧ (c.entry i).toKey = k' := by
  obtain ⟨c', hc'⟩ := step_some c (.write k d)
  constructor
  · rintro ⟨hin, hout⟩
    obtain ⟨i, vi, rfl⟩ := cached_ne_none.1 hin
    have hne : k ≠ (c.entry i).toKey := by
      rintro rfl
      exact cached_write (by rw [Cache.slot, hu.find vi, Option.some_or]) hout
    rcases entry_of_step hc' (by simpa [Op.names] using hne) with he | ⟨k1, d1, hop, hf, hvic⟩
    · rw [← bcacheStep, hc', cached_eq_none, find_eq_none] at hout
      exact absurd (by rw [he]) (hout i (by rw [he, vi]))
    · cases hop
      exact ⟨hf, i, hvic, vi, rfl⟩
  · rintro ⟨hf, i, hvic, vi, rfl⟩
    refine ⟨cached_ne_none.2 ⟨i, vi, rfl⟩, ?_⟩
    have hslot : c.slot k = some i := by rw [Cache.slot, hf, Option.none_or, hvic]
    rw [bcacheWrite_eq, hslot, cached_eq_none, find_eq_none]
    intro j vj
    by_cases hj : j = i
    · rw [hj, stamp_self]
      exact (find_eq_none.1 hf i vi).symm
    · rw [stamp_of_ne hj] at vj ⊢
      exact fun hk => hj (hu j i vj vi hk)

theorem Stamped.victim_iff (h : Stamped c ops) (hall : ∀ i, (c.entry i).valid = true) :
    (∃ i, c.victim = some i ∧ (c.entry i).toKey = k) ↔ LeastRecent (some c) ops k := by
  constructor
  · rintro ⟨i, hvic, rfl⟩
    refine ⟨cached_ne_none.2 ⟨i, hall i, rfl⟩, fun k' hk' hin => ?_⟩
    obtain ⟨j, vj, rfl⟩ := cached_ne_none.1 hin
    have hmin : ∀ j, (c.entry i).lastAccess ≤ (c.entry j).lastAccess := by
      rcases victim_some hvic with hv | ⟨-, hmin⟩
      · simp [hall i] at hv
      · exact hmin
    rcases h.order i j (hall i) vj (by rintro rfl; exact hk' rfl) with ⟨-, hs⟩ | ⟨hlt, -⟩
    · exact hs
    · exact absurd hlt (UInt64.not_lt.2 (hmin j))
  · rintro ⟨hin, hleast⟩
    obtain ⟨j, vj, rfl⟩ := cached_ne_none.1 hin
    cases hvic : c.victim with
    | none =>
      -- two entries cannot both carry the last stamp there is
      have h0 := (victim_none hvic 0).2
      have h1 := (victim_none hvic 1).2
      rcases h.order 0 1 (hall 0) (hall 1) (by decide) with ⟨hlt, -⟩ | ⟨hlt, -⟩ <;> simp [h0, h1] at hlt
    | some i =>
      refine ⟨i, rfl, ?_⟩
      by_contra hne
      have hij : i ≠ j := by
        rintro rfl
        exact hne rfl
      have hs := hleast _ hne (cached_ne_none.2 ⟨i, hall i, rfl⟩)
      rcases victim_some hvic with hv | ⟨-, hmin⟩
      · simp [hall i] at hv
      · rcases h.order i j (hall i) vj hij with ⟨-, hs'⟩ | ⟨hlt, -⟩
        · omega
        · exact absurd hlt (UInt64.not_lt.2 (hmin j))

theorem UniqueKeys.allValid_of_evicts (hu : UniqueKeys c) (h : Evicts (some c) k d k') : AllValid (some c) := by
  obtain ⟨-, i, hvic, vi, -⟩ := hu.evicts_iff.1 h
  rcases victim_some hvic with hv | ⟨hall, -⟩
  · simp [vi] at hv
  · exact ⟨c, rfl, hall⟩

theorem UniqueKeys.frame (hu : UniqueKeys c) (hu' : UniqueKeys c') (hs : bcacheStep (some c) op = some c')
    (hn : op.names k = false) : cached (some c') k = cached (some c) k ∨ ∃ k' d, op = .write k' d ∧
    Evicts (some c) k' d k := by
  cases hin : cached (some c) k with
  | none =>
    refine .inl ?_
    rw [cached_eq_none, find_eq_none] at hin ⊢
    rintro i vi rfl
    cases origin_of_step hu hs vi with
    | kept vi' ni ei => exact hin i vi' (by rw [ei])
    | read vi' ei _ => exact hin i vi' (by rw [ei])
    | written si ei _ => simp [Op.names, ei] at hn
  | some d =>
    obtain ⟨i, vi, rfl, rfl⟩ := entry_of_cached hin
    rcases entry_of_step hs hn with he | ⟨k', d', rfl, hf, hvic⟩
    · refine .inl ?_
      have := hu'.cached_entry (by rw [he, vi] : (c'.entry i).valid = true)
      rwa [he] at this
    · exact .inr ⟨k', d', rfl, hu.evicts_iff.2 ⟨hf, i, hvic, vi, rfl⟩⟩

theorem UniqueKeys.cached_step (hu : UniqueKeys c) (h : cached (bcacheStep (some c) op) k = some d) :
    cached (some c) k = some d ∧ op.overwrites k = false ∨ op = .write k d := by
  obtain ⟨c', hs⟩ := step_some c op
  rw [hs] at h
  obtain ⟨i, vi, rfl, rfl⟩ := entry_of_cached h
  cases origin_of_step hu hs vi with
  | kept vi' ni ei =>
    rw [ei]
    exact .inl ⟨hu.cached_entry vi', Op.overwrites_of_names ni⟩
  | read vi' ei _ =>
    rw [ei]
    exact .inl ⟨hu.cached_entry vi', rfl⟩
  | written si ei _ =>
    rw [ei]
    exact .inr rfl

structure Coherent (b : Bcache) (ops : List Op) : Prop where
  unique : ∀ c, b = some c → UniqueKeys c
  read : ∀ k d, (bcacheRead b k).2 = some d → LastWritten ops k d
  /-- A write evicts one key at most, and only where all entries are taken and its own key is not among them. -/
  evict : ∀ k d k', Evicts b k d k' → AllValid b ∧ cached b k = none ∧ ∀ k'', Evicts b k d k'' → k'' = k'
  /-- Before the counter wraps, a write to a full cache that misses evicts exactly the least recently used key. -/
  least : ops.countP Op.accesses < 2 ^ 64 → ∀ k d k',
    (Evicts b k d k' ↔ AllValid b ∧ cached b k = none ∧ LeastRecent b ops k')
  /-- The data of a key the operation does not name stays, but for that eviction. -/
  frame : ∀ op k, op.names k = false →
    cached (bcacheStep b op) k = cached b k ∨ ∃ k' d, op = .write k' d ∧ Evicts b k' d k

theorem Coherent.null (ops : List Op) : Coherent none ops where
  unique := fun c h => by cases h
  read := fun k d h => by cases h
  evict := fun k d k' h => absurd rfl h.1
  least := fun _ k d k' => ⟨fun h => absurd rfl h.1, fun ⟨⟨c, hc, _⟩, _⟩ => by cases hc⟩
  frame := fun op k _ => .inl (by rw [step_none])

theorem Traced.coherent (ht : Traced c ops) (hst : ops.countP Op.accesses < 2 ^ 64 → Stamped c ops) :
    Coherent (some c) ops := by
  constructor
  case unique => exact fun c' h => Option.some.inj h ▸ ht.unique
  case read =>
    intro k d h
    obtain ⟨i, vi, rfl, rfl⟩ := entry_of_cached h
    exact ht.written i vi
  case evict =>
    intro k d k' h
    obtain ⟨hf, i, hvic, -, rfl⟩ := ht.unique.evicts_iff.1 h
    refine ⟨ht.unique.allValid_of_evicts h, cached_eq_none.2 hf, fun k'' h'' => ?_⟩
    obtain ⟨-, j, hvic', -, rfl⟩ := ht.unique.evicts_iff.1 h''
    rw [Option.some.inj (hvic'.symm.trans hvic)]
  case least =>
    intro hlt k d k'
    constructor
    · intro h
      obtain ⟨c', hc', hall⟩ := ht.unique.allValid_of_evicts h
      obtain rfl := Option.some.inj hc'
      obtain ⟨hf, i, hvic, -, hk⟩ := ht.unique.evicts_iff.1 h
      exact ⟨⟨c, rfl, hall⟩, cached_eq_none.2 hf, ((hst hlt).victim_iff hall).1 ⟨i, hvic, hk⟩⟩
    · rintro ⟨⟨c', hc', hall⟩, hf, hleast⟩
      obtain rfl := Option.some.inj hc'
      obtain ⟨i, hvic, hk⟩ := ((hst hlt).victim_iff hall).2 hleast
      exact ht.unique.evicts_iff.2 ⟨cached_eq_none.1 hf, i, hvic, hall i, hk⟩
  case frame =>
    intro op k hn
    obtain ⟨c', hc'⟩ := step_some c op
    rw [hc']
    exact ht.unique.frame (ht.step hc').unique hc' hn

/-- **Block cache coherence**, after every history. -/
theorem bcache_coherent (kmalloc : Bool) (ops : List Op) : Coherent (bcacheRun kmalloc ops) ops := by
  cases kmalloc with
  | false => exact (run_null ops).symm ▸ .null ops
  | true =>
    obtain ⟨c, hc, ht, hst⟩ := run_traced ops
    exact hc.symm ▸ ht.coherent hst

/-! ## When the counter wraps -/

def sectorKey (n : Nat) : Key := ⟨0, UInt32.ofNat n⟩

def fills (n : Nat) : List Op := (List.range n).map fun m => .write (sectorKey m) (Vector.replicate 512 0)

theorem sectorKey_inj {m n : Nat} (hm : m ≤ bcacheSize) (hn : n ≤ bcacheSize) (h : sectorKey m = sectorKey n) : m = n := by
  have hm' : m < 2 ^ 32 := lt_of_le_of_lt hm (by decide)
  have hn' : n < 2 ^ 32 := lt_of_le_of_lt hn (by decide)
  have hsector : (sectorKey m).sector.toNat = (sectorKey n).sector.toNat := by rw [h]
  simp only [sectorKey, UInt32.toNat_ofNat'] at hsector
  omega

theorem fills_succ (n : Nat) : fills (n + 1) = fills n ++ [.write (sectorKey n) (Vector.replicate 512 0)] := by
  simp [fills, List.range_succ]

theorem key_of_fills {n : Nat} (h : LastWritten (fills n) k d) : ∃ m, m < n ∧ k = sectorKey m := by
  obtain ⟨before, after, he, -⟩ := h
  have hmem : Op.write k d ∈ fills n := by simp [he]
  obtain ⟨m, hm, hk⟩ := List.mem_map.1 hmem
  exact ⟨m, List.mem_range.1 hm, (Op.write.inj hk).1.symm⟩

theorem fills_not_full {n : Nat} (hn : n < bcacheSize) (ht : Traced c (fills n)) : ¬ ∀ i, (c.entry i).valid = true := by
  intro hall
  choose m hm hkey using fun i => key_of_fills (ht.written i (hall i))
  have hinj : Function.Injective fun i => (⟨m i, hm i⟩ : Fin n) := by
    intro i j h
    have hmm : m i = m j := congrArg Fin.val h
    exact ht.unique i j (hall i) (hall j) (by rw [hkey i, hkey j, hmm])
  have := Fintype.card_le_of_injective _ hinj
  simp only [Fintype.card_fin] at this
  omega

theorem fills_run : ∀ n, n ≤ bcacheSize → ∃ c, bcacheRun true (fills n) = some c ∧ Traced c (fills n) ∧
    c.accessCounter = UInt64.ofNat n ∧ ∀ m, m < n → cached (some c) (sectorKey m) ≠ none := by
  intro n
  induction n with
  | zero =>
    intro _
    obtain ⟨c, hc, ht, -⟩ := run_traced (fills 0)
    exact ⟨c, hc, ht, by rw [← Option.some.inj hc]; rfl, fun m hm => absurd hm (Nat.not_lt_zero m)⟩
  | succ n ih =>
    intro hn
    obtain ⟨c, hc, ht, hcount, hin⟩ := ih (by omega)
    have hfull := fills_not_full (by omega) ht
    obtain ⟨i, hi⟩ : ∃ i, c.slot (sectorKey n) = some i := by
      rw [← Option.ne_none_iff_exists']
      intro hs
      exact hfull fun i => (victim_none (Option.or_eq_none_iff.1 hs).2 i).1
    have hrun : bcacheRun true (fills (n + 1)) = bcacheStep (some c) (.write (sectorKey n) (Vector.replicate 512 0)) := by
      rw [fills_succ, bcacheRun, List.foldl_append, ← bcacheRun, hc]
      rfl
    have hstep : bcacheStep (some c) (.write (sectorKey n) (Vector.replicate 512 0)) =
        some (c.stamp i ⟨sectorKey n, Vector.replicate 512 0, true, 0⟩) := by
      rw [bcacheStep, bcacheWrite_eq, hi]
    have ht' := fills_succ n ▸ ht.step hstep
    refine ⟨_, hrun.trans hstep, ht', ?_, fun m hm => ?_⟩
    · rw [stamp_accessCounter, hcount, UInt64.ofNat_add]
      rfl
    · by_cases hmn : m = n
      · rw [← hstep, hmn]
        exact cached_write hi
      · have hne : sectorKey n ≠ sectorKey m := fun h => hmn (sectorKey_inj (by omega) (by omega) h).symm
        rcases ht.unique.frame ht'.unique hstep (by simpa [Op.names] using hne) with he | ⟨k', d, -, hev⟩
        · rw [he]
          exact hin m (by omega)
        · obtain ⟨c', hc', hall⟩ := ht.unique.allValid_of_evicts hev
          exact absurd (Option.some.inj hc' ▸ hall) hfull

theorem fills_full (hin : ∀ m, m < bcacheSize → cached (some c) (sectorKey m) ≠ none) : ∀ i, (c.entry i).valid = true := by
  choose f hv hk using fun m : Fin bcacheSize => cached_ne_none.1 (hin m m.isLt)
  have hinj : Function.Injective f := by
    intro m n h
    have h1 : sectorKey m = sectorKey n := by rw [← hk m, ← hk n, h]
    exact Fin.ext (sectorKey_inj (by omega) (by omega) h1)
  intro i
  obtain ⟨m, rfl⟩ := Finite.surjective_of_injective hinj i
  exact hv m

theorem step_read_hit (hu : UniqueKeys c) (hv : (c.entry i).valid = true) :
    bcacheStep (some c) (.read (c.entry i).toKey) = some (c.stamp i (c.entry i)) := by
  rw [bcacheStep, bcacheRead, hu.find hv]

theorem stamp_entry (j : Fin bcacheSize) : ∃ la, (c.stamp i (c.entry i)).entry j = { c.entry j with lastAccess := la } := by
  by_cases hj : j = i
  · exact ⟨c.accessCounter + 1, by rw [hj, stamp_self]⟩
  · exact ⟨(c.entry j).lastAccess, by rw [stamp_of_ne hj]⟩

theorem UniqueKeys.stamp (hu : UniqueKeys c) : UniqueKeys (c.stamp i (c.entry i)) := by
  intro j k hj hk he
  obtain ⟨_, ej⟩ := stamp_entry (c := c) (i := i) j
  obtain ⟨_, ek⟩ := stamp_entry (c := c) (i := i) k
  rw [ej] at hj he
  rw [ek] at hk he
  exact hu j k hj hk he

theorem foldl_reads : ∀ (n : Nat) (c : Cache), UniqueKeys c → (c.entry i).valid = true →
    (List.replicate (n + 1) (Op.read (c.entry i).toKey)).foldl bcacheStep (some c) =
      some ⟨update c.entry i { c.entry i with lastAccess := c.accessCounter + UInt64.ofNat (n + 1) },
        c.accessCounter + UInt64.ofNat (n + 1)⟩
  | 0, c, hu, hv => by
    rw [List.replicate_one, List.foldl_cons, List.foldl_nil, step_read_hit hu hv]
    rfl
  | n + 1, c, hu, hv => by
    have hcounter : c.accessCounter + 1 + UInt64.ofNat (n + 1) = c.accessCounter + UInt64.ofNat (n + 1 + 1) := by
      rw [UInt64.ofNat_add (n + 1) 1, UInt64.add_assoc, UInt64.add_comm 1]
      rfl
    have hkey : (c.entry i).toKey = ((c.stamp i (c.entry i)).entry i).toKey := by rw [stamp_self]
    rw [List.replicate_succ, List.foldl_cons, step_read_hit hu hv, hkey,
      foldl_reads n _ hu.stamp (by rw [stamp_self]; exact hv)]
    rw [stamp_accessCounter, hcounter]
    simp [Cache.stamp]

def fillsAndReads (n : Nat) : List Op := fills bcacheSize ++ List.replicate (n + 1) (.read (sectorKey 127))

theorem sinceUse_fillsAndReads (n : Nat) : sinceUse (sectorKey 127) (fillsAndReads n) = 0 := by
  rw [fillsAndReads, List.replicate_succ', ← List.append_assoc, sinceUse_append]
  simp [Op.uses]

theorem evicts_of_wrap {n : Nat} (hn : UInt64.ofNat bcacheSize + UInt64.ofNat (n + 1) = 0) (d : Sector) :
    Evicts (bcacheRun true (fillsAndReads n)) (sectorKey 128) d (sectorKey 127) ∧
      ∀ m, m < bcacheSize → cached (bcacheRun true (fillsAndReads n)) (sectorKey m) ≠ none := by
  obtain ⟨c, hc, ht, hcount, hin⟩ := fills_run bcacheSize (Nat.le_refl _)
  have hall := fills_full hin
  obtain ⟨i, -, hi⟩ := cached_ne_none.1 (hin 127 (by decide))
  have hst : Stamped c (fills bcacheSize) := by
    obtain ⟨c', hc', -, hst⟩ := run_traced (fills bcacheSize)
    rw [← Option.some.inj (hc.symm.trans hc')] at hst
    exact hst (lt_of_le_of_lt List.countP_le_length (by simp [fills, bcacheSize]))
  have hrun : bcacheRun true (fillsAndReads n) = some ⟨update c.entry i { c.entry i with lastAccess := 0 }, 0⟩ := by
    rw [fillsAndReads, bcacheRun, List.foldl_append, ← bcacheRun, hc, ← hi, foldl_reads n c ht.unique (hall i), hcount, hn]
  rw [hrun]
  set c' : Cache := ⟨update c.entry i { c.entry i with lastAccess := 0 }, 0⟩ with hc'
  have hself : c'.entry i = { c.entry i with lastAccess := 0 } := update_self _ _ _
  have hother : ∀ j, j ≠ i → c'.entry j = c.entry j := fun j hj => update_of_ne hj _ _
  have hsame : ∀ j, (c'.entry j).valid = true ∧ (c'.entry j).toKey = (c.entry j).toKey := by
    intro j
    by_cases hj : j = i
    · rw [hj, hself]
      exact ⟨hall i, rfl⟩
    · rw [hother j hj]
      exact ⟨hall j, rfl⟩
  have hu : UniqueKeys c' := by
    intro j k _ _ he
    rw [(hsame j).2, (hsame k).2] at he
    exact ht.unique j k (hall j) (hall k) he
  rw [hu.evicts_iff]
  refine ⟨⟨?_, ?_⟩, fun m hm => ?_⟩
  · rw [find_eq_none]
    intro j _ hj
    obtain ⟨m, hm, hk⟩ := key_of_fills (ht.written j (hall j))
    rw [(hsame j).2, hk] at hj
    exact absurd (sectorKey_inj (by omega) (Nat.le_refl _) hj) (by omega)
  · -- every other stamp is positive, and the smallest is found
    cases hvic : c'.victim with
    | none =>
      have := (victim_none hvic i).2
      rw [hself] at this
      cases this
    | some j =>
      have hji : j = i := by
        by_contra hj
        rcases victim_some hvic with hv | ⟨-, hmin⟩
        · simp [(hsame j).1] at hv
        · have hle := hmin i
          rw [hself, hother j hj] at hle
          exact absurd (hst.pos j (hall j)) (UInt64.not_lt.2 hle)
      subst hji
      exact ⟨j, rfl, (hsame j).1, (hsame j).2.trans hi⟩
  · obtain ⟨j, -, hj⟩ := cached_ne_none.1 (hin m hm)
    exact cached_ne_none.2 ⟨j, (hsame j).1, (hsame j).2.trans hj⟩

/-- **The key read last is evicted** when the counter has just wrapped, not the one least recently used. -/
theorem bcache_evicts_last_read :
    ¬ ∀ kmalloc ops k d k', Evicts (bcacheRun kmalloc ops) k d k' → LeastRecent (bcacheRun kmalloc ops) ops k' := by
  intro hclaim
  obtain ⟨hevicts, hin⟩ := evicts_of_wrap (n := 2 ^ 64 - 129) (by decide) (Vector.replicate 512 0)
  have hleast := (hclaim true (fillsAndReads (2 ^ 64 - 129)) _ _ _ hevicts).2 (sectorKey 0) (by decide)
    (hin 0 (by decide))
  rw [sinceUse_fillsAndReads] at hleast
  exact Nat.not_lt_zero _ hleast

end EterOS.Fs
