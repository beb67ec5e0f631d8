import EterOS.Mm.FrameRole
import EterOS.Mm.PageMap
/-!
# UserSpace — the tables of one address space, and what mapping and unmapping a user page do

Every table of an address space has a role: a table on the way to user pages, at its path of indices, or a table of the
kernel's part, which no user mapping touches.  Under `Tables` mapping a user page sets one entry of the page map and
takes free frames for the tables it lacks; unmapping clears one entry; and what the kernel's part leads to stays.
-/
namespace EterOS.Mm

open Function

def PAGE_PWT : BitVec 64 := 0x8#64
def PAGE_PCD : BitVec 64 := 0x10#64

def HAL_MEM_READ : BitVec 32 := 0x1#32
def HAL_MEM_WRITE : BitVec 32 := 0x2#32
def HAL_MEM_EXEC : BitVec 32 := 0x4#32
def HAL_MEM_USER : BitVec 32 := 0x8#32
def HAL_MEM_CACHE_DISABLE : BitVec 32 := 0x10#32
def HAL_MEM_WRITE_COMBINING : BitVec 32 := 0x80#32

def halHas (flags f : BitVec 32) : Bool := flags &&& f != 0#32

/-- The page flags `hal_mem_map` makes of the portable ones; `PAGE_NO_EXEC` is never set. -/
def archFlags (flags : BitVec 32) : BitVec 64 :=
  let a := PAGE_PRESENT
  let a := if halHas flags HAL_MEM_WRITE then a ||| PAGE_WRITE else a
  let a := if halHas flags HAL_MEM_USER then a ||| PAGE_USER else a
  let a := if halHas flags HAL_MEM_CACHE_DISABLE then a ||| PAGE_PCD else a
  if halHas flags HAL_MEM_WRITE_COMBINING then (a ||| PAGE_PWT) &&& ~~~PAGE_PCD else a

namespace Vm

def halMemMap (s : Vm) (cr3 : Nat) (phys : BitVec 64) (virt : Nat) (flags : BitVec 32) : Vm × Bool :=
  s.vmmMapPage cr3 phys virt (archFlags flags)

def halMemGetPhys (s : Vm) (cr3 virt : Nat) : Nat := s.vmmVirtToPhys cr3 virt

end Vm

def vmmValidateUserPtr (start size : Nat) : Bool :=
  let stop := (start + size) % 2 ^ 64
  if stop < start ∨ size > (USER_LIMIT + 2 ^ 64 - start + 1) % 2 ^ 64 then false
  else if start < USER_BASE then false
  else if stop > USER_LIMIT + 1 then false
  else true

theorem vmmValidateUserPtr_range {start size : Nat}
    (h : vmmValidateUserPtr start size = true) : USER_BASE ≤ start ∧ (start + size) % 2 ^ 64 ≤ USER_LIMIT + 1 ∧
      start ≤ (start + size) % 2 ^ 64 := by
  unfold vmmValidateUserPtr at h
  dsimp only at h
  split at h
  · cases h
  split at h
  · cases h
  split at h
  · cases h
  omega

theorem archFlags_bits (flags : BitVec 32) : present (archFlags flags) = true ∧ archFlags flags &&& PAGE_ADDR_MASK = 0#64 ∧
      user (archFlags flags) = halHas flags HAL_MEM_USER := by
  unfold archFlags
  generalize halHas flags HAL_MEM_WRITE = w
  generalize halHas flags HAL_MEM_USER = u
  generalize halHas flags HAL_MEM_CACHE_DISABLE = c
  generalize halHas flags HAL_MEM_WRITE_COMBINING = wc
  revert w u c wc
  decide

/-! ## The leaf of an address -/

def indexAt : Nat → Nat → Nat
  | 4 => pml4Index
  | 3 => pdptIndex
  | 2 => pdIndex
  | _ => ptIndex

/-- What a walk that is at a table of `level` finds: a page of 4 KB, 2 MB or 1 GB, with the `PAGE_USER` of its entry. -/
def leafFrom (m : Nat → Nat → BitVec 64) : Nat → Nat → Nat → Option Leaf
  | 0, _, _ => none
  | level + 1, table, virt =>
    let e := m table (indexAt (level + 1) virt)
    if !present e then none
    else if level = 0 ∨ level < 3 ∧ huge e then
      some ⟨frameOf e / 2 ^ (9 * level) * 2 ^ (9 * level) + virt / PAGE_SIZE % 2 ^ (9 * level), user e⟩
    else leafFrom m level (frameOf e) virt

def leafAt (m : Nat → Nat → BitVec 64) (cr3 virt : Nat) : Option Leaf := leafFrom m 4 cr3 virt

section
variable (m : Nat → Nat → BitVec 64) (t virt : Nat)

theorem leafFrom_four : leafFrom m 4 t virt =
    if !present (m t (pml4Index virt)) then none else leafFrom m 3 (frameOf (m t (pml4Index virt))) virt := by
  rw [leafFrom]
  simp [indexAt]

theorem leafFrom_three : leafFrom m 3 t virt = if !present (m t (pdptIndex virt)) then none
    else if huge (m t (pdptIndex virt)) then
      some ⟨frameOf (m t (pdptIndex virt)) / 2 ^ 18 * 2 ^ 18 + virt / PAGE_SIZE % 2 ^ 18, user (m t (pdptIndex virt))⟩
    else leafFrom m 2 (frameOf (m t (pdptIndex virt))) virt := by
  rw [leafFrom]
  simp [indexAt]

theorem leafFrom_two : leafFrom m 2 t virt = if !present (m t (pdIndex virt)) then none
    else if huge (m t (pdIndex virt)) then
      some ⟨frameOf (m t (pdIndex virt)) / 2 ^ 9 * 2 ^ 9 + virt / PAGE_SIZE % 2 ^ 9, user (m t (pdIndex virt))⟩
    else leafFrom m 1 (frameOf (m t (pdIndex virt))) virt := by
  rw [leafFrom]
  simp [indexAt]

theorem leafFrom_one : leafFrom m 1 t virt = if !present (m t (ptIndex virt)) then none
    else some ⟨frameOf (m t (ptIndex virt)), user (m t (ptIndex virt))⟩ := by
  rw [leafFrom]
  simp [indexAt, Nat.mod_one]

end

theorem translate_leaf {m : Nat → Nat → BitVec 64} {cr3 virt : Nat} {a : Access} (h : translate m cr3 virt = some a) :
    ∃ l, leafAt m cr3 virt = some l ∧ l.frame = a.frame ∧ (a.user = true → l.user = true) := by
  unfold translate at h
  dsimp only at h
  unfold leafAt
  split at h
  · cases h
  rename_i p4
  rw [leafFrom_four, if_neg p4, leafFrom_three]
  split at h
  · cases h
  rename_i p3
  rw [if_neg p3]
  split at h
  · rename_i h3
    cases h
    rw [if_pos h3]
    exact ⟨_, rfl, rfl, fun hu => by simp only [Bool.and_eq_true] at hu; exact hu.2⟩
  rename_i h3
  rw [if_neg h3, leafFrom_two]
  split at h
  · cases h
  rename_i p2
  rw [if_neg p2]
  split at h
  · rename_i h2
    cases h
    rw [if_pos h2]
    exact ⟨_, rfl, rfl, fun hu => by simp only [Bool.and_eq_true] at hu; exact hu.2⟩
  rename_i h2
  rw [if_neg h2, leafFrom_one]
  split at h
  · cases h
  rename_i p1
  cases h
  rw [if_neg p1]
  exact ⟨_, rfl, rfl, fun hu => by simp only [Bool.and_eq_true] at hu; exact hu.2⟩

/-! ## Tables and their roles -/

/-- A table on the way to user pages, at its path of indices, or one of the kernel's, `n` levels above a page table. -/
inductive TableRole where
  | user (path : List Nat)
  | kernel (n : Nat)
  deriving DecidableEq

namespace TableRole

/-- The role of the table an entry leads to; `none` for the entries of page tables. -/
def child : TableRole → Nat → Option TableRole
  | user [], i => if i < 256 then some (user [i]) else some (kernel 2)
  | user [a], i => if a = 0 ∧ i < 8 then some (kernel 1) else some (user [a, i])
  | user [a, b], i => some (user [a, b, i])
  | user _, _ => none
  | kernel 0, _ => none
  | kernel (n + 1), _ => some (kernel n)

def mayHuge : TableRole → Bool
  | kernel n => n != 2
  | user _ => false

inductive On (virt : Nat) : Nat → TableRole → Prop where
  | top : On virt 4 (user [])
  | down {level : Nat} {r c : TableRole} (h : On virt (level + 1) r) (hc : r.child (indexAt (level + 1) virt) = some c) :
    On virt level c

variable {virt level : Nat} {r c : TableRole}

theorem On.shape (h : On virt level r) : level = 4 ∧ r = user [] ∨
    level = 3 ∧ (r = user [pml4Index virt] ∧ pml4Index virt < 256 ∨ r = kernel 2 ∧ 256 ≤ pml4Index virt) ∨
    level = 2 ∧ (r = user [pml4Index virt, pdptIndex virt] ∧ pml4Index virt < 256 ∧
      ¬ (pml4Index virt = 0 ∧ pdptIndex virt < 8) ∨
      r = kernel 1 ∧ (256 ≤ pml4Index virt ∨ pml4Index virt = 0 ∧ pdptIndex virt < 8)) ∨
    level = 1 ∧ (r = user [pml4Index virt, pdptIndex virt, pdIndex virt] ∧ pml4Index virt < 256 ∧
        ¬ (pml4Index virt = 0 ∧ pdptIndex virt < 8) ∨
      r = kernel 0 ∧ (256 ≤ pml4Index virt ∨ pml4Index virt = 0 ∧ pdptIndex virt < 8)) ∨ level = 0 := by
  induction h with
  | top => exact .inl ⟨rfl, rfl⟩
  | @down level r c h hc ih =>
    right
    rcases ih with ⟨hl, rfl⟩ | ⟨hl, ih⟩ | ⟨hl, ih⟩ | ⟨hl, ih⟩ | hl
    · obtain rfl : level = 3 := by omega
      simp only [indexAt, child] at hc
      split at hc
      · cases hc
        exact .inl ⟨rfl, .inl ⟨rfl, by assumption⟩⟩
      · cases hc
        exact .inl ⟨rfl, .inr ⟨rfl, by omega⟩⟩
    · obtain rfl : level = 2 := by omega
      rcases ih with ⟨rfl, hlt⟩ | ⟨rfl, hge⟩
      · simp only [indexAt, child] at hc
        split at hc
        · rename_i hlow
          cases hc
          exact .inr (.inl ⟨rfl, .inr ⟨rfl, .inr hlow⟩⟩)
        · rename_i hlow
          cases hc
          exact .inr (.inl ⟨rfl, .inl ⟨rfl, hlt, hlow⟩⟩)
      · simp only [child] at hc
        cases hc
        exact .inr (.inl ⟨rfl, .inr ⟨rfl, .inl hge⟩⟩)
    · obtain rfl : level = 1 := by omega
      rcases ih with ⟨rfl, h'⟩ | ⟨rfl, h'⟩
      · simp only [indexAt, child] at hc
        cases hc
        exact .inr (.inr (.inl ⟨rfl, .inl ⟨rfl, h'⟩⟩))
      · simp only [child] at hc
        cases hc
        exact .inr (.inr (.inl ⟨rfl, .inr ⟨rfl, h'⟩⟩))
    · exact .inr (.inr (.inr (by omega)))
    · omega

/-- Above the page tables every entry of the walk leads to a role, and to a huge page only where one is read as such. -/
theorem On.child (h : On virt (level + 1) r) (hl : 0 < level) :
    ∃ c, r.child (indexAt (level + 1) virt) = some c ∧ (c.mayHuge = true → level < 3) := by
  rcases h.shape with ⟨hl', rfl⟩ | ⟨hl', ih⟩ | ⟨hl', ih⟩ | ⟨hl', ih⟩ | hl'
  · obtain rfl : level = 3 := by omega
    simp only [indexAt, TableRole.child]
    split
    · exact ⟨_, rfl, fun h => by cases h⟩
    · exact ⟨_, rfl, fun h => by cases h⟩
  · obtain rfl : level = 2 := by omega
    rcases ih with ⟨rfl, -⟩ | ⟨rfl, -⟩
    · simp only [indexAt, TableRole.child]
      split
      · exact ⟨_, rfl, fun _ => by decide⟩
      · exact ⟨_, rfl, fun _ => by decide⟩
    · exact ⟨_, rfl, fun _ => by decide⟩
  · obtain rfl : level = 1 := by omega
    rcases ih with ⟨rfl, -⟩ | ⟨rfl, -⟩
    · exact ⟨_, rfl, fun _ => by decide⟩
    · exact ⟨_, rfl, fun _ => by decide⟩
  · omega
  · omega

theorem indexAt_lt (level virt : Nat) : indexAt level virt < 512 := by
  obtain ⟨h4, h3, h2, h1⟩ := index_lt virt
  unfold indexAt
  split <;> assumption

end TableRole

open TableRole (On indexAt_lt)

/-- The tables of the address space with the top-level table `cr3` have the roles `ρ`; none of them is free, and below
the user part there are no huge pages. -/
structure Tables (ρ : Nat → Option TableRole) (s : Vm) (cr3 : Nat) : Prop where
  zero : s.pmm.totalPages = 0 ∨ s.pmm.bits 0 = true
  frames : s.pmm.totalPages ≤ 2 ^ 40
  root : ρ cr3 = some (.user [])
  used : ∀ f, ρ f ≠ none → f < s.pmm.totalPages → s.pmm.bits f = true
  entry : ∀ t r i c, ρ t = some r → i < 512 → present (s.mem t i) = true → r.child i = some c →
    c.mayHuge = true ∧ huge (s.mem t i) = true ∨ huge (s.mem t i) = false ∧ ρ (frameOf (s.mem t i)) = some c

section
variable {ρ : Nat → Option TableRole} {s s' : Vm} {cr3 virt : Nat} {m' : Nat → Nat → BitVec 64}

/-- **A walk reads only the tables on its way**: where those have the same entries, it finds the same. -/
theorem Tables.leafFrom_congr (h : Tables ρ s cr3)
    (hm : ∀ level t r, ρ t = some r → On virt level r → m' t (indexAt level virt) = s.mem t (indexAt level virt)) :
    ∀ (level t : Nat) (r : TableRole), ρ t = some r → On virt level r →
    leafFrom m' level t virt = leafFrom s.mem level t virt
  | 0, _, _, _, _ => rfl
  | level + 1, t, r, ht, hon => by
    unfold leafFrom
    dsimp only
    rw [hm (level + 1) t r ht hon]
    split
    · rfl
    rename_i hp
    split
    · rfl
    rename_i hleaf
    obtain ⟨h0, hhuge⟩ := not_or.1 hleaf
    obtain ⟨c, hc, hmay⟩ := hon.child (by omega)
    have hpres : present (s.mem t (indexAt (level + 1) virt)) = true := by simpa using hp
    obtain ⟨hmh, hh⟩ | ⟨-, hρ⟩ := h.entry t r _ c ht (indexAt_lt _ _) hpres hc
    · exact absurd ⟨hmay hmh, hh⟩ hhuge
    · exact Tables.leafFrom_congr h hm level _ c hρ (.down hon hc)

theorem Tables.leafAt_congr (h : Tables ρ s cr3)
    (hm : ∀ level t r, ρ t = some r → On virt level r → m' t (indexAt level virt) = s.mem t (indexAt level virt)) :
    leafAt m' cr3 virt = leafAt s.mem cr3 virt :=
  h.leafFrom_congr hm 4 cr3 _ h.root .top

theorem Tables.ofMem (h : Tables ρ s cr3) (hp : s'.pmm = s.pmm) (hm : ∀ t, ρ t ≠ none → s'.mem t = s.mem t) :
    Tables ρ s' cr3 ∧ ∀ v, leafAt s'.mem cr3 v = leafAt s.mem cr3 v := by
  have hm' : ∀ t r, ρ t = some r → s'.mem t = s.mem t := fun t r ht => hm t (by rw [ht]; exact Option.some_ne_none r)
  refine ⟨⟨hp ▸ h.zero, hp ▸ h.frames, h.root, hp ▸ h.used, fun t r i c ht hi hpr hc => ?_⟩, fun v => ?_⟩
  · rw [hm' t r ht] at hpr ⊢
    exact h.entry t r i c ht hi hpr hc
  · exact h.leafAt_congr fun level t r ht _ => by rw [hm' t r ht]

theorem Tables.ofPmm (h : Tables ρ s cr3) (hm : s'.mem = s.mem) (ht : s'.pmm.totalPages = s.pmm.totalPages)
    (hb : ∀ f, ρ f ≠ none ∨ f = 0 → f < s.pmm.totalPages → s.pmm.bits f = true → s'.pmm.bits f = true) :
    Tables ρ s' cr3 := by
  refine ⟨?_, ht ▸ h.frames, h.root, fun f hf hlt => ?_, by rw [hm]; exact h.entry⟩
  · rw [ht]
    rcases h.zero with h0 | h0
    · exact .inl h0
    · by_cases hz : s.pmm.totalPages = 0
      · exact .inl hz
      · exact .inr (hb 0 (.inr rfl) (by omega) h0)
  · rw [ht] at hlt
    exact hb f (.inl hf) hlt (h.used f hf hlt)

/-! ## Finding and making tables -/

theorem allocPage_took (h0 : s.pmm.totalPages = 0 ∨ s.pmm.bits 0 = true) :
    (∃ s', s.allocPage = (s', none) ∧ s'.mem = s.mem ∧ Took s.pmm s'.pmm fun _ => False) ∨
    ∃ s' p, s.allocPage = (s', some p) ∧ s'.mem = s.mem ∧ p ≠ 0 ∧ Took s.pmm s'.pmm fun f => f = p := by
  unfold Vm.allocPage
  obtain ⟨p, rover, hpos, hp, hc, heq⟩ | ⟨rover, -, heq⟩ := Pmm.pmmAllocPage_spec h0
  · right
    have hne : p * PAGE_SIZE ≠ 0 := Nat.mul_ne_zero (by omega) (by decide)
    simp only [heq, if_neg hne, Nat.mul_div_cancel p (show 0 < PAGE_SIZE by decide)]
    refine ⟨_, p, rfl, rfl, by omega, rfl, fun f hf => ?_, fun f hf => ?_⟩
    · subst hf
      exact ⟨hp, hc, by simp [Pmm.takePage, Pmm.bitmapSet, Pmm.setRefCount],
        by simp [Pmm.takePage, Pmm.bitmapSet, Pmm.setRefCount]⟩
    · exact ⟨by simp [Pmm.takePage, Pmm.bitmapSet, Pmm.setRefCount, hf],
        by simp [Pmm.takePage, Pmm.bitmapSet, Pmm.setRefCount, hf]⟩
  · left
    simp only [heq, if_pos]
    exact ⟨_, rfl, rfl, rfl, fun f hf => hf.elim, fun f _ => ⟨rfl, rfl⟩⟩

theorem Took.zero {p p' : Pmm} {new : Nat → Prop} (h : Took p p' new) (h0 : p.totalPages = 0 ∨ p.bits 0 = true) :
    p'.totalPages = 0 ∨ p'.bits 0 = true := by
  rw [h.total]
  rcases h0 with h0 | h0
  · exact .inl h0
  · right
    by_cases hn : new 0
    · exact (h.fresh 0 hn).2.2.1
    · rw [(h.same 0 hn).1, h0]

theorem Took.clearPages {p p' : Pmm} {f : Nat} (h : Took p p' fun g => g = f) : p'.clearPages + 1 = p.clearPages := by
  obtain ⟨hlt, hfree, hbit, -⟩ := h.fresh f rfl
  have hset : p'.clearPages = (p.bitmapSet f).clearPages := by
    refine Pmm.clearPages_congr ?_ h.total
    funext g
    by_cases hg : g = f
    · subst hg
      simp [Pmm.bitmapSet, hbit]
    · simp [Pmm.bitmapSet, hg, (h.same g hg).1]
  rw [hset]
  exact Pmm.clearPages_of_set hlt hfree

theorem allocPage_none (h0 : s.pmm.totalPages = 0 ∨ s.pmm.bits 0 = true) (h : s.allocPage = (s', none)) :
    s.pmm.clearPages = 0 := by
  unfold Vm.allocPage at h
  obtain ⟨p, rover, hpos, hp, hc, heq⟩ | ⟨rover, hall, -⟩ := Pmm.pmmAllocPage_spec h0
  · have hne : p * PAGE_SIZE ≠ 0 := Nat.mul_ne_zero (by omega) (by decide)
    simp only [heq, if_neg hne] at h
    cases h
  · unfold Pmm.clearPages
    rw [Finset.card_eq_zero, Finset.filter_eq_empty_iff]
    intro f hf
    rw [hall f (Finset.mem_range.mp hf)]
    decide

def SameHalf (ρ : Nat → Option TableRole) (m m' : Nat → Nat → BitVec 64) : Prop :=
  ∀ t r i, ρ t = some r → (r = .user [] ∧ 256 ≤ i ∨ ∃ n, r = .kernel n) → m' t i = m t i

/-- The frame behind each entry of the page tables on the way to user pages. -/
def entriesOf (ρ : Nat → Option TableRole) (m : Nat → Nat → BitVec 64) (e : Nat × Nat) : Option Nat :=
  match ρ e.1 with
  | some (.user [_, _, _]) => if e.2 < 512 ∧ present (m e.1 e.2) = true then some (frameOf (m e.1 e.2)) else none
  | _ => none

/-- A table on the way to user pages leads to the table `t` at the path `q`. -/
def Linked (ρ : Nat → Option TableRole) (m : Nat → Nat → BitVec 64) (t : Nat) (q : List Nat) : Prop :=
  ∃ u q' i, ρ u = some (.user q') ∧ i < 512 ∧ (TableRole.user q').child i = some (.user q) ∧
    present (m u i) = true ∧ frameOf (m u i) = t

variable {m : Nat → Nat → BitVec 64} {i t : Nat} {r : TableRole}

theorem entriesOf_child {c : TableRole} (ht : ρ t = some r) (hc : r.child i = some c) (j : Nat) :
    entriesOf ρ m (t, j) = none := by
  unfold entriesOf
  dsimp only
  rw [ht]
  split
  · rename_i hr
    cases hr
    cases hc
  · rfl

variable {ρ' : Nat → Option TableRole}

theorem entriesOf_congr {e : Nat × Nat} (hρ : ρ' e.1 = ρ e.1) (hm : m' e.1 e.2 = m e.1 e.2) :
    entriesOf ρ' m' e = entriesOf ρ m e := by
  unfold entriesOf
  rw [hρ, hm]

variable {q : List Nat}

theorem Linked.extend
    (h : Linked ρ m t q) (hold : ∀ f r, ρ f = some r → ρ' f = some r)
    (hkept : ∀ u r i c, ρ u = some r → r.child i = some c → present (m u i) = true → m' u i = m u i) :
    Linked ρ' m' t q := by
  obtain ⟨u, q', i, hu, hi, hc, hp, hf⟩ := h
  have hsame := hkept u _ i _ hu hc hp
  exact ⟨u, q', i, hold u _ hu, hi, hc, by rw [hsame, hp], by rw [hsame, hf]⟩

theorem Linked.ne_nil (h : Linked ρ m t q) : q ≠ [] := by
  rintro rfl
  obtain ⟨u, q', i, -, -, hc, -⟩ := h
  unfold TableRole.child at hc
  split at hc <;> first | cases hc | (split at hc <;> cases hc)

def AllLinked (ρ : Nat → Option TableRole) (m : Nat → Nat → BitVec 64) : Prop :=
  ∀ t q, ρ t = some (.user q) → q ≠ [] → Linked ρ m t q

structure EntryChange (ρ ρ' : Nat → Option TableRole) (m m' : Nat → Nat → BitVec 64) (before after : Option Nat) :
    Prop where
  entry : ∃ e, entriesOf ρ m e = before ∧ entriesOf ρ' m' = Function.update (entriesOf ρ m) e after
  linked : AllLinked ρ m → AllLinked ρ' m'
  fresh : ∀ t r, ρ' t = some r → ρ t = none → ∃ q, r = .user q ∧ q ≠ []

structure Extends (ρ ρ' : Nat → Option TableRole) (s s' : Vm) (cr3 : Nat) : Prop where
  tables : Tables ρ' s' cr3
  took : Took s.pmm s'.pmm fun f => ρ f = none ∧ ρ' f ≠ none
  old : ∀ f r, ρ f = some r → ρ' f = some r
  leaf : ∀ v, leafAt s'.mem cr3 v = leafAt s.mem cr3 v
  kept : ∀ t r i, ρ t = some r → present (s.mem t i) = true → s'.mem t i = s.mem t i
  half : SameHalf ρ s.mem s'.mem
  entries : entriesOf ρ' s'.mem = entriesOf ρ s.mem
  linked : ∀ t r, ρ' t = some r → ρ t = none → ∃ q, r = .user q ∧ Linked ρ' s'.mem t q

theorem Took.trans {p₁ p₂ p₃ : Pmm} {n1 n2 new : Nat → Prop} (h : Took p₁ p₂ n1) (h' : Took p₂ p₃ n2)
    (hnew : ∀ f, new f ↔ n1 f ∨ n2 f) : Took p₁ p₃ new := by
  refine ⟨h'.total.trans h.total, fun f hf => ?_, fun f hf => ?_⟩
  · by_cases h1 : n1 f
    · obtain ⟨hlt, hb, hb', hc⟩ := h.fresh f h1
      have h2 : ¬ n2 f := fun h2 => by
        rw [(h'.fresh f h2).2.1] at hb'
        cases hb'
      exact ⟨hlt, hb, (h'.same f h2).1.trans hb', (h'.same f h2).2.trans hc⟩
    · have h2 : n2 f := ((hnew f).1 hf).resolve_left h1
      obtain ⟨hlt, hb, hb', hc⟩ := h'.fresh f h2
      exact ⟨h.total ▸ hlt, (h.same f h1).1.symm.trans hb, hb', hc⟩
  · have h1 : ¬ n1 f := fun h1 => hf ((hnew f).2 (.inl h1))
    have h2 : ¬ n2 f := fun h2 => hf ((hnew f).2 (.inr h2))
    exact ⟨(h'.same f h2).1.trans (h.same f h1).1, (h'.same f h2).2.trans (h.same f h1).2⟩

theorem Extends.refl (h : Tables ρ s cr3) : Extends ρ ρ s s cr3 :=
  ⟨h, ⟨rfl, fun _ hf => absurd hf.1 hf.2, fun _ _ => ⟨rfl, rfl⟩⟩, fun _ _ hf => hf, fun _ => rfl, fun _ _ _ _ _ => rfl,
    fun _ _ _ _ _ => rfl, rfl, fun t r h1 h0 => by rw [h0] at h1; cases h1⟩

theorem Extends.trans {ρ1 ρ2 : Nat → Option TableRole} {s1 s2 : Vm} (h : Extends ρ ρ1 s s1 cr3)
    (h' : Extends ρ1 ρ2 s1 s2 cr3) : Extends ρ ρ2 s s2 cr3 := by
  refine ⟨h'.tables, h.took.trans h'.took fun f => ?_, fun f r hf => h'.old f r (h.old f r hf),
    fun v => (h'.leaf v).trans (h.leaf v), fun t r i ht hp => ?_,
    fun t r i ht hi => (h'.half t r i (h.old t r ht) hi).trans (h.half t r i ht hi), h'.entries.trans h.entries,
    fun t r h2 h0 => ?_⟩
  · constructor
    · rintro ⟨h0, h2⟩
      by_cases h1 : ρ1 f = none
      · exact .inr ⟨h1, h2⟩
      · exact .inl ⟨h0, h1⟩
    · rintro (⟨h0, h1⟩ | ⟨h1, h2⟩)
      · obtain ⟨r, hr⟩ := Option.ne_none_iff_exists'.1 h1
        exact ⟨h0, by rw [h'.old f r hr]; exact Option.some_ne_none r⟩
      · refine ⟨?_, h2⟩
        cases h0 : ρ f with
        | none => rfl
        | some r => rw [h.old f r h0] at h1; cases h1
  · have h1 := h.kept t r i ht hp
    rw [← h1] at hp
    rw [h'.kept t r i (h.old t r ht) hp, h1]
  · cases h1 : ρ1 t with
    | none => exact h'.linked t r h2 h1
    | some r₁ =>
      obtain ⟨q, rfl, hlink⟩ := h.linked t r₁ h1 h0
      rw [h'.old t _ h1] at h2
      cases h2
      exact ⟨q, rfl, hlink.extend h'.old fun u r i _ hu _ hp => h'.kept u r i hu hp⟩

theorem Extends.allLinked (h : Extends ρ ρ' s s' cr3) (hl : AllLinked ρ s.mem) : AllLinked ρ' s'.mem := by
  intro t q ht hq
  cases h0 : ρ t with
  | none =>
    obtain ⟨q', hr, hlink⟩ := h.linked t _ ht h0
    cases hr
    exact hlink
  | some r =>
    rw [h.old t r h0] at ht
    cases ht
    exact (hl t q h0 hq).extend h.old fun u r i _ hu _ hp => h.kept u r i hu hp

theorem entriesOf_outside : entriesOf ρ m (0, 512) = none := by
  unfold entriesOf
  split <;> rfl

theorem EntryChange.refl {e : Nat × Nat} {x : Option Nat} (he : entriesOf ρ m e = x) : EntryChange ρ ρ m m x x :=
  ⟨⟨e, he, by rw [← he, update_eq_self]⟩, fun hl => hl, fun t r ht h0 => by rw [h0] at ht; cases ht⟩

theorem Extends.thenEntry (h : Extends ρ ρ' s s' cr3) {before after : Option Nat}
    (hc : EntryChange ρ' ρ' s'.mem m before after) :
    EntryChange ρ ρ' s.mem m before after := by
  obtain ⟨⟨e, he, hupd⟩, hlinked, -⟩ := hc
  rw [h.entries] at he hupd
  refine ⟨⟨e, he, hupd⟩, fun hl => hlinked (h.allLinked hl), fun t r ht h0 => ?_⟩
  obtain ⟨q, rfl, hlink⟩ := h.linked t r ht h0
  exact ⟨q, rfl, hlink.ne_nil⟩

theorem Extends.ofAlloc (h : Tables ρ s cr3) (hm : s'.mem = s.mem) (ht : Took s.pmm s'.pmm fun _ => False) :
    Extends ρ ρ s s' cr3 := by
  refine ⟨h.ofPmm hm ht.total fun f _ _ hb => ?_, ⟨ht.total, fun _ hf => absurd hf.1 hf.2, fun f _ => ht.same f id⟩,
    fun _ _ hf => hf, fun v => by rw [hm], fun _ _ _ _ _ => by rw [hm], fun _ _ _ _ _ => by rw [hm], by rw [hm],
    fun t r h1 h0 => by rw [h0] at h1; cases h1⟩
  rw [(ht.same f id).1, hb]

variable {p : Nat}

theorem tableEntry_bits (hp : p < 2 ^ 40) : present (addrOf p ||| Vm.tableFlags) = true ∧
    huge (addrOf p ||| Vm.tableFlags) = false ∧
      frameOf (addrOf p ||| Vm.tableFlags) = p := by
  refine ⟨?_, ?_, frameOf_addrOf_or hp (by decide)⟩
  · rw [present_eq, BitVec.getLsbD_or, addrOf_bit p (by decide)]
    decide
  · rw [huge_eq, BitVec.getLsbD_or, addrOf_bit p (by decide)]
    decide

variable {v : Nat}

theorem leafFrom_zero (hz : ∀ i, m t i = 0#64) : ∀ level, leafFrom m level t v = none
  | 0 => rfl
  | level + 1 => by
    unfold leafFrom
    dsimp only
    rw [hz]
    rfl

theorem Tables.leafFrom_addTable (h : Tables ρ s cr3) {c : TableRole} (ht : ρ t = some r)
    (hc : r.child i = some c) (habs : present (s.mem t i) = false) (hp : p < 2 ^ 40)
    (hm : ∀ u j, ρ u ≠ none → ¬ (u = t ∧ j = i) → m' u j = s.mem u j) (hat : m' t i = addrOf p ||| Vm.tableFlags)
    (hz : ∀ j, m' p j = 0#64) : ∀ (level u : Nat) (r' : TableRole), ρ u = some r' → On virt level r' →
      leafFrom m' level u virt = leafFrom s.mem level u virt
  | 0, _, _, _, _ => rfl
  | level + 1, u, r', hu, hon => by
    unfold leafFrom
    dsimp only
    by_cases hhit : u = t ∧ indexAt (level + 1) virt = i
    · obtain ⟨rfl, hi⟩ := hhit
      rw [ht] at hu
      cases hu
      obtain ⟨hpres, hnh, hfr⟩ := tableEntry_bits hp
      rw [hi, habs, hat, hpres, hnh, hfr, leafFrom_zero hz]
      -- a page table has no tables below it
      have hlevel : level ≠ 0 := by
        rintro rfl
        rcases hon.shape with ⟨hl, -⟩ | ⟨hl, -⟩ | ⟨hl, -⟩ | ⟨-, ⟨rfl, -⟩ | ⟨rfl, -⟩⟩ | hl
        · omega
        · omega
        · omega
        · cases hc
        · cases hc
        · omega
      simp [hlevel]
    · rw [hm u _ (by rw [hu]; exact Option.some_ne_none r') hhit]
      split
      · rfl
      rename_i hp'
      split
      · rfl
      rename_i hleaf
      obtain ⟨h0, hhuge⟩ := not_or.1 hleaf
      obtain ⟨c', hc', hmay⟩ := hon.child (by omega)
      obtain ⟨hmh, hh⟩ | ⟨-, hρ⟩ := h.entry u r' _ c' hu (indexAt_lt _ _) (by simpa using hp') hc'
      · exact absurd ⟨hmay hmh, hh⟩ hhuge
      · exact Tables.leafFrom_addTable h ht hc habs hp hm hat hz level _ c' hρ (.down hon hc')

theorem Tables.addTable (h : Tables ρ s cr3) {s1 : Vm}
    (ht : ρ t = some r) (hi : i < 512) (hc : r.child i = some (.user q)) (habs : present (s.mem t i) = false)
    (hm : s1.mem = s.mem) (htook : Took s.pmm s1.pmm fun f => f = p) :
    Extends ρ (Function.update ρ p (some (.user q))) s ((s1.zeroPage p).write t i (addrOf p ||| Vm.tableFlags)) cr3 := by
  obtain ⟨hlt, hfree, hbit, -⟩ := htook.fresh p rfl
  have hρp : ρ p = none := by
    by_contra hcon
    rw [h.used p hcon hlt] at hfree
    cases hfree
  have hne : ∀ u r', ρ u = some r' → u ≠ p := by
    rintro u r' hu rfl
    rw [hρp] at hu
    cases hu
  have hp40 : p < 2 ^ 40 := Nat.lt_of_lt_of_le hlt h.frames
  obtain ⟨hpres, hnh, hfr⟩ := tableEntry_bits hp40
  generalize hs2 : (s1.zeroPage p).write t i (addrOf p ||| Vm.tableFlags) = s2
  have hpmm : s2.pmm = s1.pmm := by
    rw [← hs2]
    rfl
  have hat : s2.mem t i = addrOf p ||| Vm.tableFlags := by
    rw [← hs2, Vm.write_mem, if_pos ⟨rfl, rfl⟩]
  have hother : ∀ u j, u ≠ p → ¬ (u = t ∧ j = i) → s2.mem u j = s.mem u j := fun u j hu hij => by
    rw [← hs2, Vm.write_mem, if_neg hij, Vm.zeroPage_mem_ne hu, hm]
  have hzero : ∀ j, s2.mem p j = 0#64 := fun j => by
    rw [← hs2, Vm.write_mem, if_neg (fun hpt => hne t r ht hpt.1.symm)]
    simp [Vm.zeroPage]
  have hupd : ∀ u r', ρ u = some r' → Function.update ρ p (some (TableRole.user q)) u = some r' := fun u r' hu => by
    rw [update_of_ne (hne u r' hu), hu]
  refine ⟨⟨?_, ?_, hupd _ _ h.root, fun f hf hf' => ?_, fun u r' j c' hu hj hpj hcj => ?_⟩, ?_, hupd, fun v => ?_,
    fun u r' j hu hpj => ?_, fun u r' j hu hj => hother u j (hne u r' hu) fun hij => ?_, ?_, fun u r' hu h0 => ?_⟩
  · rw [hpmm]
    exact htook.zero h.zero
  · rw [hpmm, htook.total]
    exact h.frames
  · rw [hpmm] at hf' ⊢
    by_cases hfp : f = p
    · rw [hfp, hbit]
    · rw [update_of_ne hfp] at hf
      rw [(htook.same f hfp).1]
      exact h.used f hf (htook.total ▸ hf')
  · by_cases hup : u = p
    · rw [hup, hzero j] at hpj
      cases hpj
    rw [update_of_ne hup] at hu
    by_cases hij : u = t ∧ j = i
    · obtain ⟨rfl, rfl⟩ := hij
      rw [ht] at hu
      cases hu
      rw [hc] at hcj
      cases hcj
      right
      rw [hat, hfr, update_self]
      exact ⟨hnh, rfl⟩
    · rw [hother u j hup hij] at hpj ⊢
      rcases h.entry u r' j c' hu hj hpj hcj with h' | ⟨h1, h2⟩
      · exact .inl h'
      · exact .inr ⟨h1, hupd _ _ h2⟩
  · rw [hpmm]
    refine ⟨htook.total, fun f hf => ?_, fun f hf => ?_⟩
    · by_cases hfp : f = p
      · exact htook.fresh f hfp
      · rw [update_of_ne hfp] at hf
        exact absurd hf.1 hf.2
    · refine htook.same f fun hfp => hf ?_
      rw [hfp, update_self]
      exact ⟨hρp, Option.some_ne_none _⟩
  · refine h.leafFrom_addTable ht hc habs hp40 (fun u j hu hij => ?_) hat hzero 4 cr3 _ h.root .top
    obtain ⟨r', hr'⟩ := Option.ne_none_iff_exists'.1 hu
    exact hother u j (hne u r' hr') hij
  · by_cases hij : u = t ∧ j = i
    · rw [hij.1, hij.2, habs] at hpj
      cases hpj
    · exact hother u j (hne u r' hu) hij
  · obtain ⟨rfl, rfl⟩ := hij
    rw [ht] at hu
    cases hu
    rcases hj with ⟨rfl, hj⟩ | ⟨n, rfl⟩
    · simp [TableRole.child, show ¬ j < 256 by omega] at hc
    · cases n <;> cases hc
  · funext x
    obtain ⟨u, j⟩ := x
    by_cases hup : u = p
    · subst hup
      have hnew : present (s2.mem u j) = false := by
        rw [hzero]
        decide
      simp [entriesOf, hρp, hnew]
      split <;> rfl
    by_cases hij : u = t ∧ j = i
    · obtain ⟨rfl, rfl⟩ := hij
      rw [entriesOf_child (hupd u r ht) hc, entriesOf_child ht hc]
    · exact entriesOf_congr (update_of_ne hup ..) (hother u j hup hij)
  · have hup : u = p := by
      by_contra hup
      rw [update_of_ne hup, h0] at hu
      cases hu
    subst hup
    rw [update_self, Option.some.injEq] at hu
    obtain ⟨q', rfl⟩ : ∃ q', r = .user q' := by
      cases r with
      | user q' => exact ⟨q', rfl⟩
      | kernel n => cases n <;> cases hc
    exact ⟨q, hu.symm, t, q', i, hupd t _ ht, hi, hc, by rw [hat, hpres], by rw [hat, hfr]⟩

theorem Tables.next (h : Tables ρ s cr3) (alloc : Bool) (ht : ρ t = some r) (hi : i < 512)
    (hc : r.child i = some (.user q)) :
    ∃ ρ' s' res, s.getNextTable t i alloc = (s', res) ∧ Extends ρ ρ' s s' cr3 ∧ (alloc = false → s' = s) ∧
      (∀ p, res = some p → ρ' p = some (.user q) ∧ present (s'.mem t i) = true ∧ huge (s'.mem t i) = false ∧
        frameOf (s'.mem t i) = p) ∧ (res = none → s'.mem = s.mem ∧ present (s.mem t i) = false) ∧
      (present (s.mem t i) = true → s' = s ∧ res ≠ none) ∧
      (alloc = true → res = none → s.pmm.clearPages = 0) ∧ s.pmm.clearPages ≤ s'.pmm.clearPages + 1 := by
  unfold Vm.getNextTable
  dsimp only
  by_cases hp : present (s.mem t i) = true
  · obtain ⟨hmay, -⟩ | ⟨hnh, hρ⟩ := h.entry t r i _ ht hi hp hc
    · cases hmay
    · rw [if_pos hp, if_neg (by simp [hnh])]
      exact ⟨ρ, s, _, rfl, Extends.refl h, fun _ => rfl, fun p hp' => by cases hp'; exact ⟨hρ, hp, hnh, rfl⟩,
        fun h' => (by cases h'), fun _ => ⟨rfl, Option.some_ne_none _⟩, fun _ h' => (by cases h'), by omega⟩
  have habs : present (s.mem t i) = false := by simpa using hp
  rw [if_neg hp]
  cases alloc with
  | false =>
    exact ⟨ρ, s, none, rfl, Extends.refl h, fun _ => rfl, fun p hp' => (by cases hp'), fun _ => ⟨rfl, habs⟩,
      fun h' => absurd h' hp, fun h' => (by cases h'), by omega⟩
  | true =>
    simp only [Bool.not_true, Bool.false_eq_true, if_false]
    obtain ⟨s1, heq, hm, htook⟩ | ⟨s1, p, heq, hm, -, htook⟩ := allocPage_took h.zero
    · have hzero := allocPage_none h.zero heq
      rw [heq]
      exact ⟨ρ, s1, none, rfl, Extends.ofAlloc h hm htook, fun h' => (by cases h'), fun p hp' => (by cases hp'),
        fun _ => ⟨hm, habs⟩, fun h' => absurd h' hp, fun _ _ => hzero, by omega⟩
    · have hclear := htook.clearPages
      rw [heq]
      refine ⟨_, _, some p, rfl, h.addTable ht hi hc habs hm htook, fun h' => (by cases h'), fun p' hp' => ?_,
        fun h' => (by cases h'), fun h' => absurd h' hp, fun _ h' => (by cases h'), ?_⟩
      · cases hp'
        have hp40 : p < 2 ^ 40 := Nat.lt_of_lt_of_le (htook.fresh p rfl).1 h.frames
        obtain ⟨hpres, hnh, hfr⟩ := tableEntry_bits hp40
        rw [Vm.write_mem, if_pos ⟨rfl, rfl⟩]
        exact ⟨update_self .., hpres, hnh, hfr⟩
      · exact Nat.le_of_eq hclear.symm

def tablesMissing (m : Nat → Nat → BitVec 64) (cr3 virt : Nat) : Nat :=
  let e4 := m cr3 (pml4Index virt)
  let e3 := m (frameOf e4) (pdptIndex virt)
  if !present e4 then 3 else if !present e3 then 2 else if !present (m (frameOf e3) (pdIndex virt)) then 1 else 0

structure Reach (ρ : Nat → Option TableRole) (m : Nat → Nat → BitVec 64) (cr3 virt pdpt pd pt : Nat) : Prop where
  r3 : ρ pdpt = some (.user [pml4Index virt])
  r2 : ρ pd = some (.user [pml4Index virt, pdptIndex virt])
  r1 : ρ pt = some (.user [pml4Index virt, pdptIndex virt, pdIndex virt])
  p4 : present (m cr3 (pml4Index virt)) = true
  p3 : present (m pdpt (pdptIndex virt)) = true
  p2 : present (m pd (pdIndex virt)) = true
  h3 : huge (m pdpt (pdptIndex virt)) = false
  h2 : huge (m pd (pdIndex virt)) = false
  f4 : frameOf (m cr3 (pml4Index virt)) = pdpt
  f3 : frameOf (m pdpt (pdptIndex virt)) = pd
  f2 : frameOf (m pd (pdIndex virt)) = pt

variable {pd pdpt pt : Nat}

theorem Reach.tablesMissing (h : Reach ρ m cr3 virt pdpt pd pt) : tablesMissing m cr3 virt = 0 := by
  unfold Mm.tablesMissing
  simp [h.p4, h.f4, h.p3, h.f3, h.p2]

theorem Reach.leafAt_eq (h : Reach ρ m cr3 virt pdpt pd pt) : leafAt m cr3 virt = leafFrom m 1 pt virt := by
  unfold leafAt
  rw [leafFrom_four, h.p4, h.f4, leafFrom_three, h.p3, h.h3, h.f3, leafFrom_two, h.p2, h.h2, h.f2]
  rfl

theorem Tables.walkTo (h : Tables ρ s cr3) (hv : userAddr virt) (alloc : Bool) :
    ∃ ρ' s' res, s.walkTables cr3 virt alloc = (s', res) ∧ Extends ρ ρ' s s' cr3 ∧ (alloc = false → s' = s) ∧
      (∀ pt, res = some pt → ∃ pdpt pd, Reach ρ' s'.mem cr3 virt pdpt pd pt) ∧
      (res = none → leafAt s.mem cr3 virt = none) ∧
      (alloc = true → tablesMissing s.mem cr3 virt ≤ s.pmm.clearPages → res ≠ none) := by
  obtain ⟨i4, i3, i2, -⟩ := index_lt virt
  have hlow : ¬ (pml4Index virt = 0 ∧ pdptIndex virt < 8) := fun h' => by
    have := hv.pdpt h'.1
    omega
  have hc4 : (TableRole.user []).child (pml4Index virt) = some (.user [pml4Index virt]) := by
    simp [TableRole.child, hv.pml4]
  have hc3 : (TableRole.user [pml4Index virt]).child (pdptIndex virt) = some (.user [pml4Index virt, pdptIndex virt]) := by
    simp [TableRole.child, if_neg hlow]
  unfold Vm.walkTables
  obtain ⟨ρ1, s1, r₁, e1, x₁, a1, f1, n1, p₁, z1, k1⟩ := h.next alloc h.root i4 hc4
  rw [e1]
  cases r₁ with
  | none =>
    refine ⟨ρ1, s1, none, rfl, x₁, a1, fun _ h' => (by cases h'), fun _ => ?_, fun halloc hroom => ?_⟩
    · rw [leafAt, leafFrom_four, (n1 rfl).2]
      rfl
    · have hzero := z1 halloc rfl
      unfold tablesMissing at hroom
      simp only [(n1 rfl).2, Bool.not_false, if_true] at hroom
      omega
  | some pdpt =>
  obtain ⟨hρ1, p4, -, f4⟩ := f1 pdpt rfl
  obtain ⟨ρ2, s2, r₂, e₂, x₂, a2, f₂, n2, p₂, z2, k2⟩ := x₁.tables.next alloc hρ1 i3 hc3
  -- what is left after the first table, if it had to be made
  have hleft : tablesMissing s.mem cr3 virt ≤ s.pmm.clearPages → present (s1.mem pdpt (pdptIndex virt)) = false →
      2 ≤ s1.pmm.clearPages := fun hroom habs => by
    unfold tablesMissing at hroom
    by_cases hp : present (s.mem cr3 (pml4Index virt)) = true
    · obtain ⟨rfl, -⟩ := p₁ hp
      simpa [hp, f4, habs] using hroom
    · simp only [hp, Bool.not_false, if_true] at hroom
      omega
  dsimp only
  rw [e₂]
  cases r₂ with
  | none =>
    refine ⟨ρ2, s2, none, rfl, x₁.trans x₂, fun ha => (a2 ha).trans (a1 ha), fun _ h' => (by cases h'), fun _ => ?_,
      fun halloc hroom => ?_⟩
    · rw [← x₁.leaf virt, leafAt, leafFrom_four, p4, f4, leafFrom_three, (n2 rfl).2]
      rfl
    · have hzero := z2 halloc rfl
      have := hleft hroom (n2 rfl).2
      omega
  | some pd =>
  obtain ⟨hρ2, p3, h3, f3⟩ := f₂ pd rfl
  obtain ⟨ρ3, s3, r₃, e₃, x3, a3, f₃, n3, p₃, z3, k3⟩ := x₂.tables.next alloc hρ2 i2 rfl
  have p42 := x₂.kept cr3 _ (pml4Index virt) x₁.tables.root p4
  dsimp only
  rw [e₃]
  refine ⟨ρ3, s3, r₃, rfl, (x₁.trans x₂).trans x3, fun ha => ((a3 ha).trans (a2 ha)).trans (a1 ha), fun pt hpt => ?_,
    fun hnone => ?_, fun halloc hroom hnone => ?_⟩
  · obtain ⟨hρ3, p2, h2, f2⟩ := f₃ pt hpt
    have p43 : s3.mem cr3 (pml4Index virt) = s1.mem cr3 (pml4Index virt) := (x₂.trans x3).kept cr3 _ _ x₁.tables.root p4
    have p33 : s3.mem pdpt (pdptIndex virt) = s2.mem pdpt (pdptIndex virt) := x3.kept pdpt _ _ (x₂.old pdpt _ hρ1) p3
    refine ⟨pdpt, pd, x3.old _ _ (x₂.old _ _ hρ1), x3.old _ _ hρ2, hρ3, ?_, ?_, p2, ?_, h2, ?_, ?_, f2⟩
    · rw [p43, p4]
    · rw [p33, p3]
    · rw [p33, h3]
    · rw [p43, f4]
    · rw [p33, f3]
  · rw [← (x₁.trans x₂).leaf virt, leafAt, leafFrom_four, p42, p4, f4, leafFrom_three, p3, h3, f3, leafFrom_two,
      (n3 hnone).2]
    rfl
  · have hzero := z3 halloc hnone
    have habs := (n3 hnone).2
    by_cases hp : present (s1.mem pdpt (pdptIndex virt)) = true
    · obtain ⟨rfl, -⟩ := p₂ hp
      unfold tablesMissing at hroom
      by_cases hp4 : present (s.mem cr3 (pml4Index virt)) = true
      · obtain ⟨rfl, -⟩ := p₁ hp4
        simp [hp4, f4, hp, f3, habs] at hroom
        omega
      · simp only [hp4, Bool.not_false, if_true] at hroom
        omega
    · have := hleft hroom (by simpa using hp)
      omega

/-! ## Setting and clearing one page -/

variable {v' : Nat}

/-- The indices are the digits of the number of the page, to the base of 512. -/
theorem index_eq_digits (v : Nat) :
    pml4Index v = v / PAGE_SIZE / 512 / 512 / 512 % 512 ∧ pdptIndex v = v / PAGE_SIZE / 512 / 512 % 512 ∧
      pdIndex v = v / PAGE_SIZE / 512 % 512 ∧ ptIndex v = v / PAGE_SIZE % 512 := by
  simp only [Nat.div_div_eq_div_mul]
  exact ⟨rfl, rfl, rfl, rfl⟩

theorem digit_iff (x y m : Nat) : x % (512 * m) = y % (512 * m) ↔ x % 512 = y % 512 ∧ x / 512 % m = y / 512 % m := by
  constructor
  · intro h
    constructor
    · rw [← Nat.mod_mul_right_mod x 512 m, h, Nat.mod_mul_right_mod]
    · rw [← Nat.mod_mul_right_div_self x 512 m, h, Nat.mod_mul_right_div_self]
  · rintro ⟨h, h'⟩
    rw [Nat.mod_mul, Nat.mod_mul, h, h']

theorem indices_iff : v / PAGE_SIZE % 2 ^ 36 = v' / PAGE_SIZE % 2 ^ 36 ↔
    pml4Index v = pml4Index v' ∧ pdptIndex v = pdptIndex v' ∧ pdIndex v = pdIndex v' ∧ ptIndex v = ptIndex v' := by
  obtain ⟨h4, h3, h2, h1⟩ := index_eq_digits v
  obtain ⟨h4', h3', h2', h1'⟩ := index_eq_digits v'
  rw [h4, h3, h2, h1, h4', h3', h2', h1', show (2 : Nat) ^ 36 = 512 * (512 * (512 * 512)) from rfl, digit_iff, digit_iff,
    digit_iff]
  constructor
  · rintro ⟨d1, d2, d3, d4⟩
    exact ⟨d4, d3, d2, d1⟩
  · rintro ⟨d4, d3, d2, d1⟩
    exact ⟨d1, d2, d3, d4⟩

theorem page_eq_of_index (hv : v < 2 ^ 48) (hv' : v' < 2 ^ 48) (h4 : pml4Index v = pml4Index v')
    (h3 : pdptIndex v = pdptIndex v') (h2 : pdIndex v = pdIndex v') (h1 : ptIndex v = ptIndex v') :
    v / PAGE_SIZE = v' / PAGE_SIZE := by
  have hlt : ∀ {a : Nat}, a < 2 ^ 48 → a / PAGE_SIZE < 2 ^ 36 := fun ha => Nat.div_lt_of_lt_mul ha
  have h := indices_iff.2 ⟨h4, h3, h2, h1⟩
  rwa [Nat.mod_eq_of_lt (hlt hv), Nat.mod_eq_of_lt (hlt hv')] at h

theorem index_eq_of_page (h : v / PAGE_SIZE = v' / PAGE_SIZE) :
    pml4Index v = pml4Index v' ∧ pdptIndex v = pdptIndex v' ∧ pdIndex v = pdIndex v' ∧ ptIndex v = ptIndex v' :=
  indices_iff.1 (congrArg (· % 2 ^ 36) h)

theorem leafAt_page (h : v / PAGE_SIZE = v' / PAGE_SIZE) : leafAt m cr3 v = leafAt m cr3 v' := by
  obtain ⟨h4, h3, h2, h1⟩ := index_eq_of_page h
  unfold leafAt
  simp [leafFrom_four, leafFrom_three, leafFrom_two, leafFrom_one, h4, h3, h2, h1, h]

theorem Tables.setLeaf (h : Tables ρ s cr3) (hr : Reach ρ s.mem cr3 virt pdpt pd pt) (hv : userAddr virt) (e : BitVec 64) :
    Tables ρ (s.write pt (ptIndex virt) e) cr3 ∧ SameHalf ρ s.mem (s.write pt (ptIndex virt) e).mem ∧
    (∀ v < 2 ^ 48, leafAt (s.write pt (ptIndex virt) e).mem cr3 v = if v / PAGE_SIZE = virt / PAGE_SIZE then
        if present e then some ⟨frameOf e, user e⟩ else none
      else leafAt s.mem cr3 v) ∧
    EntryChange ρ ρ s.mem (s.write pt (ptIndex virt) e).mem ((leafAt s.mem cr3 virt).map Leaf.frame)
      (if present e then some (frameOf e) else none) ∧
    Reach ρ (s.write pt (ptIndex virt) e).mem cr3 virt pdpt pd pt := by
  have hother : ∀ u j, ¬ (u = pt ∧ j = ptIndex virt) → (s.write pt (ptIndex virt) e).mem u j = s.mem u j :=
    fun u j huj => by rw [Vm.write_mem, if_neg huj]
  have hrow : ∀ u r, ρ u = some r → r ≠ .user [pml4Index virt, pdptIndex virt, pdIndex virt] →
      ∀ j, (s.write pt (ptIndex virt) e).mem u j = s.mem u j := fun u r hu hne j => hother u j fun huj => by
    rw [huj.1, hr.r1] at hu
    cases hu
    exact hne rfl
  have hvirt : virt < 2 ^ 48 := by
    have := hv.2
    unfold USER_LIMIT at this
    omega
  have hreach : Reach ρ (s.write pt (ptIndex virt) e).mem cr3 virt pdpt pd pt := by
    have e4 := hrow cr3 _ h.root (by simp) (pml4Index virt)
    have e3 := hrow pdpt _ hr.r3 (by simp) (pdptIndex virt)
    have e2 := hrow pd _ hr.r2 (by simp) (pdIndex virt)
    exact ⟨hr.r3, hr.r2, hr.r1, e4 ▸ hr.p4, e3 ▸ hr.p3, e2 ▸ hr.p2, e3 ▸ hr.h3, e2 ▸ hr.h2, e4 ▸ hr.f4, e3 ▸ hr.f3,
      e2 ▸ hr.f2⟩
  refine ⟨⟨h.zero, h.frames, h.root, h.used, fun t r i c ht hi hp hc => ?_⟩, fun t r i ht hi => hrow t r ht ?_ i,
    fun v hv' => ?_, ⟨⟨(pt, ptIndex virt), ?_, ?_⟩, fun hl t q ht hq => ?_, fun t r ht h0 => ?_⟩, hreach⟩
  · have hne : r ≠ .user [pml4Index virt, pdptIndex virt, pdIndex virt] := by
      rintro rfl
      cases hc
    rw [hrow t r ht hne i] at hp ⊢
    exact h.entry t r i c ht hi hp hc
  · rcases hi with ⟨rfl, -⟩ | ⟨n, rfl⟩ <;> simp
  · split
    · rename_i hpage
      have hat : (s.write pt (ptIndex virt) e).mem pt (ptIndex virt) = e := by rw [Vm.write_mem, if_pos ⟨rfl, rfl⟩]
      rw [leafAt_page hpage, hreach.leafAt_eq, leafFrom_one, hat]
      cases present e <;> rfl
    · rename_i hpage
      refine h.leafAt_congr fun level t r ht hon => hother t _ fun hhit => hpage ?_
      -- the entry is read at the page table, so the indices agree
      rw [hhit.1, hr.r1] at ht
      cases ht
      rcases hon.shape with ⟨hl, hs⟩ | ⟨hl, hs⟩ | ⟨hl, hs⟩ | ⟨rfl, ⟨hs, -⟩ | ⟨hs, -⟩⟩ | rfl
      · cases hs
      · rcases hs with ⟨hs, -⟩ | ⟨hs, -⟩ <;> simp at hs
      · rcases hs with ⟨hs, -⟩ | ⟨hs, -⟩ <;> simp at hs
      · simp only [TableRole.user.injEq, List.cons.injEq, and_true] at hs
        exact page_eq_of_index hv' hvirt hs.1.symm hs.2.1.symm hs.2.2.symm hhit.2
      · cases hs
      · cases hon with
        | down hon hc =>
          rcases hon.shape with ⟨hl, -⟩ | ⟨hl, -⟩ | ⟨hl, -⟩ | ⟨-, ⟨rfl, -⟩ | ⟨rfl, -⟩⟩ | hl
          · omega
          · omega
          · omega
          · cases hc
          · cases hc
          · omega
  · rw [hr.leafAt_eq, leafFrom_one]
    unfold entriesOf
    dsimp only
    rw [hr.r1]
    dsimp only
    cases hp : present (s.mem pt (ptIndex virt)) with
    | true => simp [(index_lt virt).2.2.2]
    | false => simp
  · funext x
    obtain ⟨u, j⟩ := x
    by_cases huj : (u, j) = (pt, ptIndex virt)
    · rw [huj, update_self]
      unfold entriesOf
      dsimp only
      rw [hr.r1, Vm.write_mem, if_pos (show pt = pt ∧ ptIndex virt = ptIndex virt from ⟨rfl, rfl⟩)]
      simp [(index_lt virt).2.2.2]
    · rw [update_of_ne huj]
      exact entriesOf_congr rfl (hother u j fun hh => huj (Prod.ext hh.1 hh.2))
  · refine (hl t q ht hq).extend (fun _ _ hf => hf) fun u r i c hu hc _ => hrow u r hu ?_ i
    rintro rfl
    cases hc
  · rw [h0] at ht
    cases ht

/-- **Mapping a user page**: its addresses lead to the frame, all others where they did, and only free frames were taken,
for tables; where the memory ran out on the way every address leads where it did. -/
theorem Tables.map (h : Tables ρ s cr3) (hv : userAddr virt) (phys : BitVec 64) (flags : BitVec 32) :
    ∃ ρ' s' ok, s.halMemMap cr3 phys virt flags = (s', ok) ∧ Tables ρ' s' cr3 ∧
      Took s.pmm s'.pmm (fun f => ρ f = none ∧ ρ' f ≠ none) ∧ (∀ f r, ρ f = some r → ρ' f = some r) ∧
      SameHalf ρ s.mem s'.mem ∧ (∀ v < 2 ^ 48, leafAt s'.mem cr3 v =
        if ok = true ∧ v / PAGE_SIZE = virt / PAGE_SIZE then some ⟨frameOf phys, halHas flags HAL_MEM_USER⟩
        else leafAt s.mem cr3 v) ∧ (tablesMissing s.mem cr3 virt ≤ s.pmm.clearPages → ok = true) ∧
      EntryChange ρ ρ' s.mem s'.mem ((leafAt s.mem cr3 virt).map Leaf.frame)
        (if ok = true then some (frameOf phys) else (leafAt s.mem cr3 virt).map Leaf.frame) := by
  obtain ⟨hpres, hmask, huser⟩ := archFlags_bits flags
  have hlow : ∀ k < 12, (phys &&& PAGE_ADDR_MASK).getLsbD k = false := fun k hk => by
    rw [BitVec.getLsbD_and, mask_bit k (by omega)]
    simp [show ¬ 12 ≤ k by omega]
  have hfr : frameOf ((phys &&& PAGE_ADDR_MASK) ||| archFlags flags) = frameOf phys := by
    rw [frameOf_or hmask]
    exact frameOf_and (by decide)
  have hp' : present ((phys &&& PAGE_ADDR_MASK) ||| archFlags flags) = true := by
    rw [present_eq, BitVec.getLsbD_or, hlow 0 (by decide), Bool.false_or, ← present_eq, hpres]
  have hu' : user ((phys &&& PAGE_ADDR_MASK) ||| archFlags flags) = halHas flags HAL_MEM_USER := by
    rw [user_eq, BitVec.getLsbD_or, hlow 2 (by decide), Bool.false_or, ← user_eq, huser]
  obtain ⟨ρ', s', res, heq, hx, -, hreach, hnone, hroom⟩ := h.walkTo hv true
  unfold Vm.halMemMap Vm.vmmMapPage
  rw [heq]
  cases res with
  | none =>
    exact ⟨ρ', s', false, rfl, hx.tables, hx.took, hx.old, hx.half, fun v _ => by simp [hx.leaf v],
      fun hle => absurd rfl (hroom rfl hle), by
        simpa [hnone rfl] using hx.thenEntry (EntryChange.refl entriesOf_outside)⟩
  | some pt =>
    obtain ⟨pdpt, pd, hr⟩ := hreach pt rfl
    obtain ⟨htab, hhalf, hleaf, hentry, -⟩ := hx.tables.setLeaf hr hv ((phys &&& PAGE_ADDR_MASK) ||| archFlags flags)
    refine ⟨ρ', _, true, rfl, htab, hx.took, hx.old,
      fun t r i ht hi => (hhalf t r i (hx.old t r ht) hi).trans (hx.half t r i ht hi), fun v hv' => ?_,
      fun _ => rfl, ?_⟩
    · rw [hleaf v hv', hp', hfr, hu', hx.leaf v]
      simp
    · rw [hx.leaf virt, hp', hfr] at hentry
      exact hx.thenEntry hentry

/-- **Unmapping a user page** takes away what its addresses lead to, and nothing else. -/
theorem Tables.unmap (h : Tables ρ s cr3) (hv : userAddr virt) :
    Tables ρ (s.vmmUnmapPage cr3 virt) cr3 ∧ (s.vmmUnmapPage cr3 virt).pmm = s.pmm ∧
      SameHalf ρ s.mem (s.vmmUnmapPage cr3 virt).mem ∧ (∀ v < 2 ^ 48, leafAt (s.vmmUnmapPage cr3 virt).mem cr3 v =
        if v / PAGE_SIZE = virt / PAGE_SIZE then none else leafAt s.mem cr3 v) ∧
      EntryChange ρ ρ s.mem (s.vmmUnmapPage cr3 virt).mem ((leafAt s.mem cr3 virt).map Leaf.frame) none ∧
      (leafAt s.mem cr3 virt ≠ none → tablesMissing (s.vmmUnmapPage cr3 virt).mem cr3 virt = 0) := by
  obtain ⟨ρ', s', res, heq, hx, hsame, hreach, hnone, -⟩ := h.walkTo hv false
  obtain rfl := hsame rfl
  unfold Vm.vmmUnmapPage
  rw [heq]
  -- the page led nowhere
  have hgone : leafAt s'.mem cr3 virt = none → ∀ v, leafAt s'.mem cr3 v =
      if v / PAGE_SIZE = virt / PAGE_SIZE then none else leafAt s'.mem cr3 v := fun hl v => by
    split
    · rename_i hpage
      rw [leafAt_page hpage, hl]
    · rfl
  have hstill : leafAt s'.mem cr3 virt = none →
      EntryChange ρ ρ s'.mem s'.mem ((leafAt s'.mem cr3 virt).map Leaf.frame) none := fun hl => by
    simpa [hl] using EntryChange.refl entriesOf_outside
  cases res with
  | none => exact ⟨h, rfl, fun _ _ _ _ _ => rfl, fun v _ => hgone (hnone rfl) v, hstill (hnone rfl),
      fun hne => absurd (hnone rfl) hne⟩
  | some pt =>
    obtain ⟨pdpt, pd, hr⟩ := hreach pt rfl
    -- nothing was made on the way, so the tables had these roles already
    have hr' : Reach ρ s'.mem cr3 virt pdpt pd pt := by
      have hρ : ∀ f r, ρ' f = some r → ρ f = some r := fun f r hf => by
        cases hf' : ρ f with
        | none =>
          obtain ⟨-, hb, hb', -⟩ := hx.took.fresh f ⟨hf', by rw [hf]; exact Option.some_ne_none r⟩
          rw [hb] at hb'
          cases hb'
        | some r' =>
          rw [hx.old f r' hf'] at hf
          exact hf
      exact { hr with r3 := hρ _ _ hr.r3, r2 := hρ _ _ hr.r2, r1 := hρ _ _ hr.r1 }
    dsimp only
    split
    · obtain ⟨htab, hhalf, hleaf, hentry, hreach⟩ := h.setLeaf hr' hv 0#64
      exact ⟨htab, rfl, hhalf, fun v hv' => hleaf v hv', hentry, fun _ => hreach.tablesMissing⟩
    · rename_i hp
      have hnone : leafAt s'.mem cr3 virt = none := by
        rw [hr'.leafAt_eq, leafFrom_one]
        simp [hp]
      exact ⟨h, rfl, fun _ _ _ _ _ => rfl, fun v _ => hgone hnone v, hstill hnone, fun hne => absurd hnone hne⟩

theorem frameOf_lt (e : BitVec 64) : frameOf e < 2 ^ 40 := by
  have hle : (e &&& PAGE_ADDR_MASK).toNat ≤ PAGE_ADDR_MASK.toNat := by
    rw [BitVec.toNat_and]
    exact Nat.and_le_right
  have hmask : PAGE_ADDR_MASK.toNat = 0x000FFFFFFFFFF000 := by decide
  unfold frameOf PAGE_SIZE
  omega

theorem Tables.getPhys (h : Tables ρ s cr3) (hv : userAddr virt) :
    leafAt s.mem cr3 virt = none ∧ s.halMemGetPhys cr3 virt = 0 ∨
    ∃ l, leafAt s.mem cr3 virt = some l ∧ l.frame < 2 ^ 40 ∧
    s.halMemGetPhys cr3 virt = l.frame * PAGE_SIZE + virt % PAGE_SIZE := by
  obtain ⟨i4, i3, i2, i1⟩ := index_lt virt
  have hne : virt ≠ 0 := by
    have := hv.1
    unfold USER_BASE at this
    omega
  have hlow : ¬ (pml4Index virt = 0 ∧ pdptIndex virt < 8) := fun h' => by
    have := hv.pdpt h'.1
    omega
  unfold Vm.halMemGetPhys Vm.vmmVirtToPhys leafAt
  rw [if_neg hne, leafFrom_four]
  dsimp only
  by_cases p4 : present (s.mem cr3 (pml4Index virt)) = true
  swap
  · simp [p4]
  obtain ⟨hm, -⟩ | ⟨-, r3⟩ := h.entry _ _ _ (.user [pml4Index virt]) h.root i4 p4 (by simp [TableRole.child, hv.pml4])
  · cases hm
  rw [p4, leafFrom_three]
  generalize frameOf (s.mem cr3 (pml4Index virt)) = pdpt at r3 ⊢
  by_cases p3 : present (s.mem pdpt (pdptIndex virt)) = true
  swap
  · simp [p3]
  obtain ⟨hm, -⟩ | ⟨h3, r2⟩ := h.entry _ _ _ (.user [pml4Index virt, pdptIndex virt]) r3 i3 p3
    (by simp [TableRole.child, if_neg hlow])
  · cases hm
  rw [p3, h3, leafFrom_two]
  generalize frameOf (s.mem pdpt (pdptIndex virt)) = pd at r2 ⊢
  by_cases p2 : present (s.mem pd (pdIndex virt)) = true
  swap
  · simp [p2]
  obtain ⟨hm, -⟩ | ⟨h2, r1⟩ := h.entry _ _ _ _ r2 i2 p2 rfl
  · cases hm
  rw [p2, h2, leafFrom_one]
  generalize frameOf (s.mem pd (pdIndex virt)) = pt at r1 ⊢
  by_cases p1 : present (s.mem pt (ptIndex virt)) = true
  · right
    simpa [p1] using frameOf_lt (s.mem pt (ptIndex virt))
  · simp [p1]

theorem Tables.getPhys_half (h : Tables ρ s cr3) (hm : SameHalf ρ s.mem s'.mem) (ha : 256 ≤ pml4Index virt) :
    s'.halMemGetPhys cr3 virt = s.halMemGetPhys cr3 virt := by
  obtain ⟨i4, i3, i2, i1⟩ := index_lt virt
  have hk : ∀ t n i, ρ t = some (.kernel n) → s'.mem t i = s.mem t i := fun t n i ht => hm t _ i ht (.inr ⟨n, rfl⟩)
  unfold Vm.halMemGetPhys Vm.vmmVirtToPhys
  dsimp only
  rw [hm cr3 _ _ h.root (.inl ⟨rfl, ha⟩)]
  by_cases p4 : present (s.mem cr3 (pml4Index virt)) = true
  swap
  · simp [p4]
  obtain ⟨hmay, -⟩ | ⟨-, r3⟩ := h.entry _ _ _ (.kernel 2) h.root i4 p4
    (by simp [TableRole.child, show ¬ pml4Index virt < 256 by omega])
  · cases hmay
  rw [hk _ 2 _ r3]
  generalize frameOf (s.mem cr3 (pml4Index virt)) = pdpt at r3 ⊢
  by_cases p3 : present (s.mem pdpt (pdptIndex virt)) = true
  swap
  · simp [p3]
  obtain ⟨-, h3⟩ | ⟨h3, r2⟩ := h.entry _ _ _ (.kernel 1) r3 i3 p3 rfl
  · simp [h3]
  rw [hk _ 1 _ r2]
  generalize frameOf (s.mem pdpt (pdptIndex virt)) = pd at r2 ⊢
  by_cases p2 : present (s.mem pd (pdIndex virt)) = true
  swap
  · simp [p2]
  obtain ⟨-, h2⟩ | ⟨h2, r1⟩ := h.entry _ _ _ (.kernel 0) r2 i2 p2 rfl
  · simp [h2]
  rw [hk _ 0 _ r1]

end

end EterOS.Mm
