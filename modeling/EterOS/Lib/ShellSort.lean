import Mathlib.Data.List.Perm.Basic
import Mathlib.Data.List.Nodup
/-!
# ShellSort — insertion by gaps, and the search of what it has sorted

An array is a function of positions.  `sift` moves an item down by a gap until the one before it is no greater, `pass` does
so for every position and `passes` halves the gap down to 1.  Whatever the gaps before it, the pass with gap 1 sorts; all of
them only exchange items.
-/
namespace EterOS.ShellSort

open List

variable {α : Type*} {cmp : α → α → Int} {a : Nat → α} {gap i j n x y : Nat}

structure TotalPreorder (cmp : α → α → Int) : Prop where
  swap : ∀ x y, 0 < cmp x y ↔ cmp y x < 0
  trans : ∀ x y z, cmp x y ≤ 0 → cmp y z ≤ 0 → cmp x z ≤ 0

theorem TotalPreorder.refl (h : TotalPreorder cmp) (x : α) : cmp x x ≤ 0 := by
  have := h.swap x x
  omega

def items (n : Nat) (a : Nat → α) : List α := (List.range n).map a

def Sorted (cmp : α → α → Int) (n : Nat) (a : Nat → α) : Prop := (items n a).Pairwise fun x y => cmp x y ≤ 0

theorem sorted_iff : Sorted cmp n a ↔ ∀ i j, i < j → j < n → cmp (a i) (a j) ≤ 0 := by
  unfold Sorted items
  rw [pairwise_map, pairwise_iff_getElem]
  constructor
  · intro h i j hij hj
    have hle := h i j (by rw [length_range]; omega) (by rwa [length_range]) hij
    rwa [getElem_range, getElem_range] at hle
  · intro h i j hi hj hij
    rw [getElem_range, getElem_range]
    exact h i j hij (by simpa using hj)

def exchange (a : Nat → α) (x y : Nat) : Nat → α := fun i => if i = x then a y else if i = y then a x else a i

theorem exchange_left : exchange a x y x = a y := if_pos rfl

theorem exchange_right (h : x ≠ y) : exchange a x y y = a x := by
  rw [exchange, if_neg (Ne.symm h), if_pos rfl]

theorem exchange_of_ne (hx : i ≠ x) (hy : i ≠ y) : exchange a x y i = a i := by
  rw [exchange, if_neg hx, if_neg hy]

theorem exchange_eq_comp (h : x ≠ y) : exchange a x y = a ∘ exchange id x y := by
  funext i
  by_cases hx : i = x
  · rw [hx, exchange_left, Function.comp_apply, exchange_left, id]
  · by_cases hy : i = y
    · rw [hy, exchange_right h, Function.comp_apply, exchange_right h, id]
    · rw [exchange_of_ne hx hy, Function.comp_apply, exchange_of_ne hx hy, id]

theorem exchange_exchange (h : x ≠ y) (i : Nat) : exchange id x y (exchange id x y i) = i := by
  by_cases hx : i = x
  · rw [hx, exchange_left, id, exchange_right h, id]
  · by_cases hy : i = y
    · rw [hy, exchange_right h, id, exchange_left, id]
    · rw [exchange_of_ne hx hy, id, exchange_of_ne hx hy, id]

theorem exchange_lt (hx : x < n) (hy : y < n) (hi : i < n) : exchange id x y i < n := by
  unfold exchange
  split
  · exact hy
  · split
    · exact hx
    · exact hi

theorem items_exchange (h : x ≠ y) (hx : x < n) (hy : y < n) : (items n (exchange a x y)).Perm (items n a) := by
  unfold items
  rw [exchange_eq_comp h, ← map_map]
  apply List.Perm.map
  apply (perm_ext_iff_of_nodup ?_ nodup_range).2
  · intro i
    rw [mem_map, mem_range]
    constructor
    · rintro ⟨k, hk, rfl⟩
      exact exchange_lt hx hy (mem_range.1 hk)
    · intro hi
      exact ⟨exchange id x y i, mem_range.2 (exchange_lt hx hy hi), exchange_exchange h i⟩
  · apply List.Nodup.map _ nodup_range
    intro i k hik
    rw [← exchange_exchange h i, hik, exchange_exchange h k]

/-! ## Sorting -/

/-- Item `j` goes down by gaps as long as the one before it is greater. -/
def sift (cmp : α → α → Int) (gap : Nat) (a : Nat → α) (j : Nat) : Nat → α :=
  if 0 < gap ∧ gap ≤ j ∧ 0 < cmp (a (j - gap)) (a j) then sift cmp gap (exchange a (j - gap) j) (j - gap) else a
termination_by j
decreasing_by omega

/-- Every item from position `gap` on goes down. -/
def pass (cmp : α → α → Int) (gap n : Nat) (a : Nat → α) : Nat → α :=
  (List.range' gap (n - gap)).foldl (sift cmp gap) a

def passes (cmp : α → α → Int) (n gap : Nat) (a : Nat → α) : Nat → α :=
  if 0 < gap then passes cmp n (gap / 2) (pass cmp gap n a) else a
termination_by gap
decreasing_by omega

theorem sift_next (h : 0 < gap ∧ gap ≤ j ∧ 0 < cmp (a (j - gap)) (a j)) :
    sift cmp gap a j = sift cmp gap (exchange a (j - gap) j) (j - gap) := by
  rw [sift, if_pos h]

theorem sift_done (h : ¬ (0 < gap ∧ gap ≤ j ∧ 0 < cmp (a (j - gap)) (a j))) : sift cmp gap a j = a := by
  rw [sift, if_neg h]

theorem items_sift (hj : j < n) : (items n (sift cmp gap a j)).Perm (items n a) := by
  induction j using Nat.strongRecOn generalizing a with
  | ind j ih =>
    by_cases hgo : 0 < gap ∧ gap ≤ j ∧ 0 < cmp (a (j - gap)) (a j)
    · rw [sift_next hgo]
      exact (ih (j - gap) (by omega) (by omega)).trans (items_exchange (by omega) (by omega) hj)
    · rw [sift_done hgo]

theorem items_foldl_sift : ∀ (is : List Nat) (a : Nat → α), (∀ i ∈ is, i < n) →
    (items n (is.foldl (sift cmp gap) a)).Perm (items n a)
  | [], _, _ => .refl _
  | i :: is, a, h => by
    rw [foldl_cons]
    exact (items_foldl_sift is _ fun k hk => h k (mem_cons_of_mem _ hk)).trans (items_sift (h i (mem_cons_self ..)))

theorem items_pass : (items n (pass cmp gap n a)).Perm (items n a) := by
  apply items_foldl_sift
  intro i hi
  rw [mem_range'_1] at hi
  omega

/-- In order up to position `i`, but for the item at `j`, which is no greater than those after it. -/
structure Sifting (cmp : α → α → Int) (i j : Nat) (a : Nat → α) : Prop where
  others : ∀ p q, p < q → q ≤ i → p ≠ j → q ≠ j → cmp (a p) (a q) ≤ 0
  after : ∀ q, j < q → q ≤ i → cmp (a j) (a q) ≤ 0

theorem Sifting.next (h : Sifting cmp i (j + 1) a) (hc : TotalPreorder cmp) (hle : j + 1 ≤ i)
    (hgt : 0 < cmp (a j) (a (j + 1))) : Sifting cmp i j (exchange a j (j + 1)) := by
  have hne : j ≠ j + 1 := by omega
  refine ⟨fun p q hpq hqi hp hq => ?_, fun q hjq hqi => ?_⟩
  · by_cases hq' : q = j + 1
    · rw [hq', exchange_right hne, exchange_of_ne hp (by omega)]
      exact h.others p j (by omega) (by omega) (by omega) (by omega)
    · by_cases hp' : p = j + 1
      · rw [hp', exchange_right hne, exchange_of_ne hq hq']
        exact h.others j q (by omega) hqi (by omega) hq'
      · rw [exchange_of_ne hp hp', exchange_of_ne hq hq']
        exact h.others p q hpq hqi hp' hq'
  · rw [exchange_left]
    by_cases hq' : q = j + 1
    · rw [hq', exchange_right hne]
      exact Int.le_of_lt ((hc.swap _ _).1 hgt)
    · rw [exchange_of_ne (by omega) hq']
      exact h.after q (by omega) hqi

theorem Sifting.sorted (h : Sifting cmp i j a) (hc : TotalPreorder cmp) (hle : j ≤ i)
    (hbefore : j = 0 ∨ cmp (a (j - 1)) (a j) ≤ 0) : Sorted cmp (i + 1) a := by
  rw [sorted_iff]
  intro p q hpq hq
  by_cases hp : p = j
  · exact hp ▸ h.after q (by omega) (by omega)
  · by_cases hqj : q = j
    · subst hqj
      have hlast := hbefore.resolve_left (by omega)
      by_cases hpred : p = q - 1
      · exact hpred ▸ hlast
      · exact hc.trans _ _ _ (h.others p (q - 1) (by omega) (by omega) hp (by omega)) hlast
    · exact h.others p q hpq (by omega) hp hqj

theorem Sifting.sift (hc : TotalPreorder cmp) : ∀ (j : Nat) {a : Nat → α}, j ≤ i → Sifting cmp i j a →
    Sorted cmp (i + 1) (sift cmp 1 a j)
  | 0, a, hle, h => by
    rw [sift_done (by omega)]
    exact h.sorted hc hle (.inl rfl)
  | j + 1, a, hle, h => by
    by_cases hgt : 0 < cmp (a j) (a (j + 1))
    · rw [sift_next ⟨Nat.one_pos, by omega, by simpa using hgt⟩]
      exact Sifting.sift hc j (by omega) (h.next hc hle hgt)
    · rw [sift_done (by simpa using hgt)]
      exact h.sorted hc hle (.inr (by simpa using hgt))

theorem sorted_sift (hc : TotalPreorder cmp) (h : Sorted cmp i a) : Sorted cmp (i + 1) (sift cmp 1 a i) := by
  rw [sorted_iff] at h
  refine Sifting.sift hc i (Nat.le_refl i) ⟨fun p q hpq hqi _ hq => h p q hpq (by omega), fun q hiq hqi => by omega⟩

theorem sorted_foldl_sift (hc : TotalPreorder cmp) : ∀ (k i : Nat) (a : Nat → α), Sorted cmp i a →
    Sorted cmp (i + k) ((List.range' i k).foldl (sift cmp 1) a)
  | 0, _, _, h => h
  | k + 1, i, a, h => by
    rw [List.range'_succ, foldl_cons, ← Nat.add_assoc, Nat.add_right_comm]
    exact sorted_foldl_sift hc k (i + 1) _ (sorted_sift hc h)

theorem sorted_pass (hc : TotalPreorder cmp) (hn : 0 < n) : Sorted cmp n (pass cmp 1 n a) := by
  have hone : Sorted cmp 1 a := by
    rw [sorted_iff]
    omega
  have h := sorted_foldl_sift hc (n - 1) 1 a hone
  rwa [Nat.add_sub_cancel' hn] at h

/-- **All passes together sort**, whatever the first gap is. -/
theorem passes_spec (hc : TotalPreorder cmp) (hn : 0 < n) (gap : Nat) (a : Nat → α) (hgap : 0 < gap) :
    Sorted cmp n (passes cmp n gap a) ∧ (items n (passes cmp n gap a)).Perm (items n a) := by
  induction gap using Nat.strongRecOn generalizing a with
  | ind gap ih =>
    rw [passes, if_pos hgap]
    by_cases hlast : gap = 1
    · subst hlast
      rw [passes, if_neg (by omega)]
      exact ⟨sorted_pass hc hn, items_pass⟩
    · obtain ⟨hsorted, hperm⟩ := ih (gap / 2) (by omega) (pass cmp gap n a) (by omega)
      exact ⟨hsorted, hperm.trans items_pass⟩

/-! ## Searching -/

/-- The items less than a key, those equal to it and those greater stand in this order; `look` compares the key with an
item. -/
def Partitioned (look : α → Int) (n : Nat) (a : Nat → α) : Prop :=
  ∀ i j, i < j → j < n → (look (a i) ≤ 0 → look (a j) ≤ 0) ∧ (look (a i) < 0 → look (a j) < 0)

/-- A binary search between `left` and `right`. -/
def search (look : α → Int) (a : Nat → α) (left right : Nat) : Option Nat :=
  if left < right then
    let mid := left + (right - left) / 2
    if look (a mid) < 0 then search look a left mid
    else if 0 < look (a mid) then search look a (mid + 1) right
    else some mid
  else none
termination_by right - left
decreasing_by all_goals omega

variable {look : α → Int} {left right : Nat}

theorem search_left (h : left < right) (hlow : look (a (left + (right - left) / 2)) < 0) :
    search look a left right = search look a left (left + (right - left) / 2) := by
  rw [search, if_pos h]
  dsimp only
  rw [if_pos hlow]

theorem search_right (h : left < right) (hhigh : 0 < look (a (left + (right - left) / 2))) :
    search look a left right = search look a (left + (right - left) / 2 + 1) right := by
  rw [search, if_pos h]
  dsimp only
  rw [if_neg (by omega), if_pos hhigh]

theorem search_mid (h : left < right) (hmid : look (a (left + (right - left) / 2)) = 0) :
    search look a left right = some (left + (right - left) / 2) := by
  rw [search, if_pos h]
  dsimp only
  rw [if_neg (by omega), if_neg (by omega)]

theorem search_eq_some (h : search look a left right = some i) : left ≤ i ∧ i < right ∧ look (a i) = 0 := by
  fun_induction search look a left right with
  | case1 left right hlt mid hneg ih =>
    obtain ⟨hle, hlt', hz⟩ := ih h
    exact ⟨hle, by omega, hz⟩
  | case2 left right hlt mid hneg hpos ih =>
    obtain ⟨hle, hlt', hz⟩ := ih h
    exact ⟨by omega, hlt', hz⟩
  | case3 left right hlt mid hneg hpos =>
    rw [Option.some.injEq] at h
    subst h
    exact ⟨by omega, by omega, by omega⟩
  | case4 => cases h

/-- **A search without a result**: no item between the bounds is equal to the key. -/
theorem search_eq_none (hp : Partitioned look n a) (hr : right ≤ n)
    (h : search look a left right = none) (hl : left ≤ i) (hi : i < right) : look (a i) ≠ 0 := by
  fun_induction search look a left right with
  | case1 left right hlt mid hneg ih =>
    by_cases hmid : i < mid
    · exact ih (by omega) h hl hmid
    · by_cases heq : i = mid
      · rw [heq]
        omega
      · have := (hp mid i (by omega) (by omega)).2 hneg
        omega
  | case2 left right hlt mid hneg hpos ih =>
    by_cases hmid : mid + 1 ≤ i
    · exact ih hr h hmid hi
    · by_cases heq : i = mid
      · rw [heq]
        omega
      · intro hz
        have := (hp i mid (by omega) (by omega)).1 (by omega)
        omega
  | case3 => cases h
  | case4 => omega

end EterOS.ShellSort
