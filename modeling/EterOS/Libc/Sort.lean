import EterOS.Lib.ShellSort
import EterOS.Lib.Stores
/-!
# Sort — `qsort` and `bsearch` over an array in memory

`src/userspace/libc/src/stdlib.c`.  The array lies from `base` on, `nmemb` elements of `size` bytes each; a comparison
function is given the bytes of two elements (or of the key and an element).  `qsort` exchanges elements byte by byte.
-/
namespace EterOS.Libc

open ShellSort (Sorted TotalPreorder Partitioned items)

def element (base size : Nat) (m : Buffer) (i : Nat) : List UInt8 := m.list (base + i * size) size

/-- The loop of `qsort` that exchanges the elements at `a` and `b`. -/
def swapBytes (a b size : Nat) (m : Buffer) : Buffer :=
  (List.range size).foldl (fun m k =>
    let temp := m (a + k)
    (m.set (a + k) (m (b + k))).set (b + k) temp) m

/-- The inner loop of `qsort`, from `j` on. -/
def qsortSift (compar : List UInt8 → List UInt8 → Int) (base size gap : Nat) (m : Buffer) (j : Nat) : Buffer :=
  if 0 < gap ∧ gap ≤ j ∧ 0 < compar (element base size m (j - gap)) (element base size m j) then
    qsortSift compar base size gap (swapBytes (base + (j - gap) * size) (base + j * size) size m) (j - gap)
  else m
termination_by j
decreasing_by omega

def qsortGaps (compar : List UInt8 → List UInt8 → Int) (base nmemb size gap : Nat) (m : Buffer) : Buffer :=
  if 0 < gap then
    qsortGaps compar base nmemb size (gap / 2) ((List.range' gap (nmemb - gap)).foldl (qsortSift compar base size gap) m)
  else m
termination_by gap
decreasing_by omega

def qsort (base nmemb size : Nat) (compar : List UInt8 → List UInt8 → Int) (m : Buffer) : Buffer :=
  if base = 0 ∨ nmemb ≤ 1 ∨ size = 0 then m else qsortGaps compar base nmemb size (nmemb / 2) m

/-- The loop of `bsearch`; the key is any object. -/
def bsearchLoop {κ : Type*} (key : κ) (base size : Nat) (compar : κ → List UInt8 → Int) (m : Buffer) (left right : Nat) :
    Option Nat :=
  if left < right then
    let mid := left + (right - left) / 2
    let cmp := compar key (element base size m mid)
    if cmp < 0 then bsearchLoop key base size compar m left mid
    else if 0 < cmp then bsearchLoop key base size compar m (mid + 1) right
    else some (base + mid * size)
  else none
termination_by right - left
decreasing_by all_goals omega

def bsearch {κ : Type*} (key : κ) (base nmemb size : Nat) (compar : κ → List UInt8 → Int) (m : Buffer) : Option Nat :=
  bsearchLoop key base size compar m 0 nmemb

/-! ## An exchange of elements -/

variable {compar : List UInt8 → List UInt8 → Int} {base nmemb size gap : Nat} {m m' : Buffer} {a b i j p x y : Nat}

theorem swapBytes_apply (hapart : a + size ≤ b) : ∀ n ≤ size, ∀ p, swapBytes a b n m p =
    if a ≤ p ∧ p < a + n then m (b + (p - a)) else if b ≤ p ∧ p < b + n then m (a + (p - b)) else m p
  | 0, _, p => by
    rw [if_neg (by omega), if_neg (by omega)]
    rfl
  | n + 1, hn, p => by
    have ih := swapBytes_apply hapart n (by omega)
    have hstep : swapBytes a b (n + 1) m p = 
        (((swapBytes a b n m).set (a + n) (swapBytes a b n m (b + n))).set (b + n) (swapBytes a b n m (a + n))) p := by
      unfold swapBytes
      rw [List.range_succ, List.foldl_append]
      rfl
    -- The bytes of this turn have not been touched before.
    have ha : swapBytes a b n m (a + n) = m (a + n) := by
      rw [ih, if_neg (by omega), if_neg (by omega)]
    have hb : swapBytes a b n m (b + n) = m (b + n) := by
      rw [ih, if_neg (by omega), if_neg (by omega)]
    rw [hstep, ha, hb]
    unfold Buffer.set
    by_cases hpb : p = b + n
    · rw [if_pos hpb, if_neg (by omega), if_pos (by omega)]
      congr 1
      omega
    · rw [if_neg hpb]
      by_cases hpa : p = a + n
      · rw [if_pos hpa, if_pos (by omega)]
        congr 1
        omega
      · rw [if_neg hpa, ih]
        have hina : (a ≤ p ∧ p < a + n) ↔ (a ≤ p ∧ p < a + (n + 1)) := by omega
        have hinb : (b ≤ p ∧ p < b + n) ↔ (b ≤ p ∧ p < b + (n + 1)) := by omega
        simp [hina, hinb]

theorem mul_add_le (size : Nat) (h : x < y) : x * size + size ≤ y * size := by
  have := Nat.mul_le_mul_right size (Nat.succ_le_of_lt h)
  rwa [Nat.succ_mul] at this

theorem not_inside {k : Nat} (h : i ≠ x) (hk : k < size) :
    ¬ (base + x * size ≤ base + i * size + k ∧ base + i * size + k < base + x * size + size) := by
  rcases Nat.lt_or_gt_of_ne h with hlt | hlt
  · have := mul_add_le size hlt
    omega
  · have := mul_add_le size hlt
    omega

theorem element_swapBytes (h : x < y) : element base size (swapBytes (base + x * size) (base + y * size) size m) =
    ShellSort.exchange (element base size m) x y := by
  have hapart := mul_add_le size h
  funext i
  unfold ShellSort.exchange element
  have hbyte : ∀ k < size, swapBytes (base + x * size) (base + y * size) size m (base + i * size + k) =
      if i = x then m (base + y * size + k) else if i = y then m (base + x * size + k) else m (base + i * size + k) := by
    intro k hk
    rw [swapBytes_apply (by omega) size (Nat.le_refl size)]
    by_cases hx : i = x
    · subst hx
      rw [if_pos (by omega), if_pos rfl]
      congr 1
      omega
    · rw [if_neg hx]
      rw [if_neg (not_inside hx hk)]
      by_cases hy : i = y
      · subst hy
        rw [if_pos (by omega), if_pos rfl]
        congr 1
        omega
      · rw [if_neg hy]
        rw [if_neg (not_inside hy hk)]
  split
  · rename_i hx
    apply Buffer.list_congr
    intro k hk
    rw [hbyte k hk, if_pos hx]
  · rename_i hx
    split
    · rename_i hy
      apply Buffer.list_congr
      intro k hk
      rw [hbyte k hk, if_neg hx, if_pos hy]
    · rename_i hy
      apply Buffer.list_congr
      intro k hk
      rw [hbyte k hk, if_neg hx, if_neg hy]

/-! ## `qsort` as a sort of elements -/

def SameOutside (base nmemb size : Nat) (m m' : Buffer) : Prop := ∀ p, p < base ∨ base + nmemb * size ≤ p → m' p = m p

theorem SameOutside.trans {m'' : Buffer} (h : SameOutside base nmemb size m m') (h' : SameOutside base nmemb size m' m'') :
    SameOutside base nmemb size m m'' := fun p hp => (h' p hp).trans (h p hp)

theorem sameOutside_swapBytes (h : x < y) (hy : y < nmemb) :
    SameOutside base nmemb size m (swapBytes (base + x * size) (base + y * size) size m) := by
  intro p hp
  have hapart := mul_add_le size h
  have hend := mul_add_le size hy
  rw [swapBytes_apply (by omega) size (Nat.le_refl size), if_neg (by omega), if_neg (by omega)]

theorem qsortSift_spec (compar : List UInt8 → List UInt8 → Int) (base size gap : Nat) (m : Buffer) (hj : j < nmemb) :
    element base size (qsortSift compar base size gap m j) = ShellSort.sift compar gap (element base size m) j ∧
      SameOutside base nmemb size m (qsortSift compar base size gap m j) := by
  induction j using Nat.strongRecOn generalizing m with
  | ind j ih =>
    by_cases hgo : 0 < gap ∧ gap ≤ j ∧ 0 < compar (element base size m (j - gap)) (element base size m j)
    · rw [qsortSift, if_pos hgo, ShellSort.sift_next hgo]
      generalize hswap : swapBytes (base + (j - gap) * size) (base + j * size) size m = m'
      obtain ⟨helem, hsame⟩ : element base size (qsortSift compar base size gap m' (j - gap)) =
          ShellSort.sift compar gap (element base size m') (j - gap) ∧
          SameOutside base nmemb size m' (qsortSift compar base size gap m' (j - gap)) :=
        ih (j - gap) (by omega) m' (by omega)
      subst hswap
      rw [element_swapBytes (by omega)] at helem
      exact ⟨helem, (sameOutside_swapBytes (by omega) hj).trans hsame⟩
    · rw [qsortSift, if_neg hgo, ShellSort.sift_done hgo]
      exact ⟨rfl, fun _ _ => rfl⟩

theorem foldl_qsortSift_spec (compar : List UInt8 → List UInt8 → Int) (base size gap : Nat) :
    ∀ (is : List Nat) (m : Buffer), (∀ i ∈ is, i < nmemb) →
    element base size (is.foldl (qsortSift compar base size gap) m) =
    is.foldl (ShellSort.sift compar gap) (element base size m) ∧
      SameOutside base nmemb size m (is.foldl (qsortSift compar base size gap) m)
  | [], _, _ => ⟨rfl, fun _ _ => rfl⟩
  | i :: is, m, h => by
    obtain ⟨helem, hsame⟩ := qsortSift_spec compar base size gap m (h i (List.mem_cons_self ..))
    obtain ⟨helem', hsame'⟩ := foldl_qsortSift_spec compar base size gap is (qsortSift compar base size gap m i)
      fun k hk => h k (List.mem_cons_of_mem _ hk)
    rw [List.foldl_cons, List.foldl_cons, ← helem]
    exact ⟨helem', hsame.trans hsame'⟩

theorem qsortGaps_spec (compar : List UInt8 → List UInt8 → Int) (base nmemb size gap : Nat) (m : Buffer) :
    element base size (qsortGaps compar base nmemb size gap m) = ShellSort.passes compar nmemb gap (element base size m) ∧
      SameOutside base nmemb size m (qsortGaps compar base nmemb size gap m) := by
  induction gap using Nat.strongRecOn generalizing m with
  | ind gap ih =>
    by_cases hgap : 0 < gap
    · have hin : ∀ i ∈ List.range' gap (nmemb - gap), i < nmemb := by
        intro i hi
        rw [List.mem_range'_1] at hi
        omega
      rw [qsortGaps, if_pos hgap, ShellSort.passes, if_pos hgap]
      obtain ⟨helem, hsame⟩ := foldl_qsortSift_spec compar base size gap (List.range' gap (nmemb - gap)) m hin
      obtain ⟨helem', hsame'⟩ := ih (gap / 2) (by omega)
        ((List.range' gap (nmemb - gap)).foldl (qsortSift compar base size gap) m)
      rw [helem] at helem'
      exact ⟨helem', hsame.trans hsame'⟩
    · rw [qsortGaps, if_neg hgap, ShellSort.passes, if_neg hgap]
      exact ⟨rfl, fun _ _ => rfl⟩

theorem qsort_spec (hc : TotalPreorder compar) (hb : base ≠ 0) (nmemb size : Nat) (m : Buffer) :
    Sorted compar nmemb (element base size (qsort base nmemb size compar m)) ∧
      (items nmemb (element base size (qsort base nmemb size compar m))).Perm (items nmemb (element base size m)) ∧
      SameOutside base nmemb size m (qsort base nmemb size compar m) := by
  unfold qsort
  by_cases hskip : base = 0 ∨ nmemb ≤ 1 ∨ size = 0
  · rw [if_pos hskip]
    refine ⟨?_, .refl _, fun _ _ => rfl⟩
    rw [ShellSort.sorted_iff]
    intro i j hij hj
    have hsize : size = 0 := by omega
    subst hsize
    exact hc.refl []
  · rw [if_neg hskip]
    obtain ⟨helem, hsame⟩ := qsortGaps_spec compar base nmemb size (nmemb / 2) m
    obtain ⟨hsorted, hperm⟩ := ShellSort.passes_spec hc (n := nmemb) (by omega) (nmemb / 2) (element base size m) (by omega)
    rw [helem]
    exact ⟨hsorted, hperm, hsame⟩

/-! ## `bsearch` -/

theorem bsearchLoop_eq {κ : Type*} (key : κ) (compar : κ → List UInt8 → Int) (left right : Nat) :
    bsearchLoop key base size compar m left right =
      (ShellSort.search (compar key) (element base size m) left right).map fun i => base + i * size := by
  fun_induction bsearchLoop key base size compar m left right with
  | case1 left right hlt mid cmp hneg ih =>
    rw [ih, ShellSort.search_left hlt hneg]
  | case2 left right hlt mid cmp hneg hpos ih =>
    rw [ih, ShellSort.search_right hlt hpos]
  | case3 left right hlt mid cmp hneg hpos =>
    rw [ShellSort.search_mid hlt (Int.le_antisymm (Int.not_lt.1 hpos) (Int.not_lt.1 hneg))]
    rfl
  | case4 left right hlt =>
    rw [ShellSort.search, if_neg hlt]
    rfl

/-- What a search is to return: the address of an element that is equal to the key, or nothing where there is none. -/
def Found (look : List UInt8 → Int) (base nmemb size : Nat) (m : Buffer) : Option Nat → Prop
  | some p => ∃ i < nmemb, p = base + i * size ∧ look (element base size m i) = 0
  | none => ∀ i < nmemb, look (element base size m i) ≠ 0

theorem bsearch_spec {κ : Type*} (key : κ) (compar : κ → List UInt8 → Int) (nmemb : Nat)
    (hp : Partitioned (compar key) nmemb (element base size m)) :
    Found (compar key) base nmemb size m (bsearch key base nmemb size compar m) := by
  unfold bsearch
  rw [bsearchLoop_eq]
  cases hs : ShellSort.search (compar key) (element base size m) 0 nmemb with
  | some i =>
    obtain ⟨-, hlt, hz⟩ := ShellSort.search_eq_some hs
    exact ⟨i, hlt, rfl, hz⟩
  | none => exact fun i hi => ShellSort.search_eq_none hp (Nat.le_refl nmemb) hs (Nat.zero_le i) hi

/-- **`qsort` sorts and `bsearch` finds**: the elements are in order, the ones that were there, and nothing else is touched;
a search in what is ordered as its comparison of the key wants gives an element equal to the key if there is one. -/
theorem qsort_bsearch (base nmemb size : Nat) (m : Buffer) :
    (∀ compar, TotalPreorder compar → base ≠ 0 →
      Sorted compar nmemb (element base size (qsort base nmemb size compar m)) ∧
        (items nmemb (element base size (qsort base nmemb size compar m))).Perm (items nmemb (element base size m)) ∧
        SameOutside base nmemb size m (qsort base nmemb size compar m)) ∧
      ∀ {κ : Type} (key : κ) (compar : κ → List UInt8 → Int), Partitioned (compar key) nmemb (element base size m) →
        Found (compar key) base nmemb size m (bsearch key base nmemb size compar m) :=
  ⟨fun _ hc hb => qsort_spec hc hb nmemb size m, fun key compar hp => bsearch_spec key compar nmemb hp⟩

def byteOrder (x y : List UInt8) : Int := (x.headD 0).toNat - (y.headD 0).toNat

theorem byteOrder_preorder : TotalPreorder byteOrder :=
  ⟨fun x y => by unfold byteOrder; omega, fun x y z => by unfold byteOrder; omega⟩

/-- What is in order is split by every key. -/
theorem partitioned_of_sorted {n : Nat} {e : Nat → List UInt8} (h : Sorted byteOrder n e) (key : List UInt8) :
    Partitioned (byteOrder key) n e := by
  intro i j hij hj
  have := ShellSort.sorted_iff.1 h i j hij hj
  unfold byteOrder at this ⊢
  omega

def fourBytes : Buffer := fun p => [7, 9, 1, 3].getD (p - 8) 0

/-- Four bytes at address 8 are put in order, and a 7 is found in its new place. -/
theorem qsort_bsearch_bytes :
    let m := qsort 8 4 1 byteOrder fourBytes
    Sorted byteOrder 4 (element 8 1 m) ∧ (items 4 (element 8 1 m)).Perm (items 4 (element 8 1 fourBytes)) ∧
      items 4 (element 8 1 m) = [[1], [3], [7], [9]] ∧ bsearch [7] 8 4 1 byteOrder m = some 10 ∧
      Found (byteOrder [7]) 8 4 1 m (bsearch [7] 8 4 1 byteOrder m) := by
  intro m
  obtain ⟨hsorted, hperm, -⟩ := (qsort_bsearch 8 4 1 fourBytes).1 byteOrder byteOrder_preorder (by decide)
  exact ⟨hsorted, hperm, by decide +kernel, by decide +kernel,
    (qsort_bsearch 8 4 1 m).2 [7] byteOrder (partitioned_of_sorted hsorted [7])⟩

end EterOS.Libc
