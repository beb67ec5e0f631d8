import EterOS.Mm.PageTree
/-!
# VerifyAccess — the gate of the system calls

`vmm_verify_user_access` walks the page tables for every page of a range, and resolves copy-on-write where it is asked about
writing; `vmm_is_user_page` walks them for one page.  The first does not stop at a huge page: it goes on in the page's bytes
as in a table.
-/
namespace EterOS.Mm

def e4Of (m : Nat → Nat → BitVec 64) (cr3 virt : Nat) : BitVec 64 := m cr3 (pml4Index virt)
def e3Of (m : Nat → Nat → BitVec 64) (cr3 virt : Nat) : BitVec 64 := m (frameOf (e4Of m cr3 virt)) (pdptIndex virt)
def e2Of (m : Nat → Nat → BitVec 64) (cr3 virt : Nat) : BitVec 64 := m (frameOf (e3Of m cr3 virt)) (pdIndex virt)
def e1Of (m : Nat → Nat → BitVec 64) (cr3 virt : Nat) : BitVec 64 := m (frameOf (e2Of m cr3 virt)) (ptIndex virt)

/-- `(e & PAGE_PRESENT) && (e & PAGE_USER)`. -/
def granted (e : BitVec 64) : Bool := present e && user e

def vmmIsUserPage (m : Nat → Nat → BitVec 64) (cr3 virt : Nat) : Bool :=
  if !granted (e4Of m cr3 virt) then false
  else if !granted (e3Of m cr3 virt) then false
  else if huge (e3Of m cr3 virt) then true
  else if !granted (e2Of m cr3 virt) then false
  else if huge (e2Of m cr3 virt) then true
  else granted (e1Of m cr3 virt)

def firstPage (addr : Nat) : Nat := addr / PAGE_SIZE * PAGE_SIZE

def pagesOf (addr size : Nat) : Nat :=
  let stop := ((addr + size) % 2 ^ 64 + (PAGE_SIZE - 1)) % 2 ^ 64 / PAGE_SIZE * PAGE_SIZE
  (stop - firstPage addr + (PAGE_SIZE - 1)) / PAGE_SIZE

namespace Vm

/-- The body of the loop of `vmm_verify_user_access`, for one page: whether it goes on. -/
def verifyPage (s : Vm) (cr3 v : Nat) (write : Bool) : Except PmmPanic (Vm × Bool) :=
  if !granted (e4Of s.mem cr3 v) then .ok (s, false)
  else if !granted (e3Of s.mem cr3 v) then .ok (s, false)
  else if !granted (e2Of s.mem cr3 v) then .ok (s, false)
  else if !granted (e1Of s.mem cr3 v) then .ok (s, false)
  else if !write then .ok (s, true)
  else if writable (e1Of s.mem cr3 v) then .ok (s, true)
  else if cow (e1Of s.mem cr3 v) then s.vmmResolveCow (frameOf (e2Of s.mem cr3 v)) (ptIndex v)
  else .ok (s, false)

def verifyPages (cr3 : Nat) (write : Bool) : Nat → Nat → Vm → Except PmmPanic (Vm × Bool)
  | 0, _, s => .ok (s, true)
  | n + 1, v, s =>
    match s.verifyPage cr3 v write with
    | .error e => .error e
    | .ok (s, false) => .ok (s, false)
    | .ok (s, true) => verifyPages cr3 write n (v + PAGE_SIZE) s

def vmmVerifyUserAccess (s : Vm) (cr3 addr size : Nat) (write : Bool) : Except PmmPanic (Vm × Bool) :=
  if !vmmValidateUserPtr addr size then .ok (s, false) else verifyPages cr3 write (pagesOf addr size) (firstPage addr) s

def visits (cr3 : Nat) (write : Bool) : Nat → Nat → Vm → List (Vm × Nat)
  | 0, _, _ => []
  | n + 1, v, s =>
    (s, v) :: match s.verifyPage cr3 v write with
      | .ok (s, true) => visits cr3 write n (v + PAGE_SIZE) s
      | _ => []

end Vm

/-! ## What is promised -/

/-- The entries below the top level whose frame the walk of `verifyPage` reads as a table. -/
def followed (m : Nat → Nat → BitVec 64) (cr3 v : Nat) : List (BitVec 64) :=
  if granted (e4Of m cr3 v) && granted (e3Of m cr3 v) then
    e3Of m cr3 v :: if granted (e2Of m cr3 v) then [e2Of m cr3 v] else []
  else []

/-- **The check is sound, agrees with `vmm_is_user_page`, and reads no huge page as a table.** -/
structure VerifyOk (s : Vm) (cr3 addr size : Nat) (write : Bool) : Prop where
  sound : ∀ s', s.vmmVerifyUserAccess cr3 addr size write = .ok (s', true) →
    USER_BASE ≤ addr ∧ addr + size ≤ USER_LIMIT + 1 ∧
      ∀ a, addr ≤ a → a < addr + size → ∃ x, translate s'.mem cr3 a = some x ∧ x.user = true ∧
      (write = true → x.write = true)
  agrees : write = false → USER_BASE ≤ addr → addr + size ≤ USER_LIMIT + 1 →
    (∀ a, addr ≤ a → a < addr + size → vmmIsUserPage s.mem cr3 a = true) →
    s.vmmVerifyUserAccess cr3 addr size write = .ok (s, true)
  apart : vmmValidateUserPtr addr size = true → ∀ r ∈ Vm.visits cr3 write (pagesOf addr size) (firstPage addr) s,
    ∀ e ∈ followed r.1.mem cr3 r.2, huge e = false

/-! ## When it keeps the promise -/

def HugeWalk (m : Nat → Nat → BitVec 64) (cr3 v : Nat) : Prop := ∃ e ∈ followed m cr3 v, huge e = true

/-- The page is not one of user mode, or is asked to be written and is neither writable nor copy-on-write. -/
def Refused (m : Nat → Nat → BitVec 64) (cr3 : Nat) (write : Bool) (v : Nat) : Prop :=
  vmmIsUserPage m cr3 v = false ∨ write = true ∧ ¬ HugeWalk m cr3 v ∧ writable (e1Of m cr3 v) = false ∧
    cow (e1Of m cr3 v) = false

def upperWritable (m : Nat → Nat → BitVec 64) (cr3 v : Nat) : Bool :=
  writable (e4Of m cr3 v) && writable (e3Of m cr3 v) && writable (e2Of m cr3 v)

def rangePage (addr k : Nat) : Nat := firstPage addr + k * PAGE_SIZE

namespace Vm

/-- A copy-on-write page made writable; `none` where there is no frame for its copy. -/
def resolvePage (s : Vm) (cr3 v : Nat) : Option Vm :=
  if !writable (e1Of s.mem cr3 v) && cow (e1Of s.mem cr3 v) then
    match s.vmmResolveCow (frameOf (e2Of s.mem cr3 v)) (ptIndex v) with
    | .ok (s, true) => some s
    | _ => none
  else some s

def resolvePages (cr3 : Nat) : Nat → Nat → Vm → Option Vm
  | 0, _, s => some s
  | n + 1, v, s => (s.resolvePage cr3 v).bind (resolvePages cr3 n (v + PAGE_SIZE))

end Vm

/-- One of `n` pages is refused, or is to be copied for a write and finds no frame, the pages before it copied in turn. -/
def Barred (s : Vm) (cr3 : Nat) (write : Bool) (v n : Nat) : Prop :=
  (∃ j < n, Refused s.mem cr3 write (v + j * PAGE_SIZE)) ∨ write = true ∧ Vm.resolvePages cr3 n v s = none

/-- A range on which the check is right: a huge page is barred by a page before it, a page to be written is writable at the
upper levels too unless some page is barred, and where no byte is asked for the page of the address is a user page. -/
structure WellMapped (s : Vm) (cr3 addr size : Nat) (write : Bool) : Prop where
  huge : ∀ k < pagesOf addr size, HugeWalk s.mem cr3 (rangePage addr k) → Barred s cr3 write (firstPage addr) k
  upper : write = true → 0 < size → (∃ k < pagesOf addr size, upperWritable s.mem cr3 (rangePage addr k) = false) →
    Barred s cr3 write (firstPage addr) (pagesOf addr size)
  empty : write = false → size = 0 → ∀ k < pagesOf addr size, vmmIsUserPage s.mem cr3 (rangePage addr k) = true

/-! ## One walk -/

def allGranted (m : Nat → Nat → BitVec 64) (cr3 v : Nat) : Bool :=
  granted (e4Of m cr3 v) && granted (e3Of m cr3 v) && granted (e2Of m cr3 v) && granted (e1Of m cr3 v)

section
variable {m : Nat → Nat → BitVec 64} {cr3 v : Nat}

theorem hugeWalk_iff : HugeWalk m cr3 v ↔ granted (e4Of m cr3 v) = true ∧ granted (e3Of m cr3 v) = true ∧
    (huge (e3Of m cr3 v) = true ∨ granted (e2Of m cr3 v) = true ∧ huge (e2Of m cr3 v) = true) := by
  unfold HugeWalk followed
  cases granted (e4Of m cr3 v) with
  | false => simp
  | true =>
    cases granted (e3Of m cr3 v) with
    | false => simp
    | true => cases granted (e2Of m cr3 v) <;> simp

theorem granted_iff {e : BitVec 64} : granted e = true ↔ present e = true ∧ user e = true := by
  unfold granted
  exact Bool.and_eq_true_iff

theorem allGranted_iff : allGranted m cr3 v = true ↔ granted (e4Of m cr3 v) = true ∧ granted (e3Of m cr3 v) = true ∧
    granted (e2Of m cr3 v) = true ∧ granted (e1Of m cr3 v) = true := by
  unfold allGranted
  simp [and_assoc]

theorem isUserPage_eq (h : ¬ HugeWalk m cr3 v) : vmmIsUserPage m cr3 v = allGranted m cr3 v := by
  rw [hugeWalk_iff] at h
  unfold vmmIsUserPage allGranted
  cases h4 : granted (e4Of m cr3 v) with
  | false => rfl
  | true =>
    cases h3 : granted (e3Of m cr3 v) with
    | false => rfl
    | true =>
      have hh3 : huge (e3Of m cr3 v) = false := by
        simpa using fun hc => h ⟨h4, h3, .inl hc⟩
      cases h2 : granted (e2Of m cr3 v) with
      | false => simp [hh3]
      | true =>
        have hh2 : huge (e2Of m cr3 v) = false := by
          simpa using fun hc => h ⟨h4, h3, .inr ⟨h2, hc⟩⟩
        simp [hh3, hh2]

theorem granted_small (h : ¬ HugeWalk m cr3 v) (hg : allGranted m cr3 v = true) :
    huge (e3Of m cr3 v) = false ∧ huge (e2Of m cr3 v) = false := by
  obtain ⟨h4, h3, h2, -⟩ := allGranted_iff.1 hg
  rw [hugeWalk_iff] at h
  exact ⟨by simpa using fun hc => h ⟨h4, h3, .inl hc⟩, by simpa using fun hc => h ⟨h4, h3, .inr ⟨h2, hc⟩⟩⟩

theorem translate_granted (h : ¬ HugeWalk m cr3 v) (hg : allGranted m cr3 v = true) :
    translate m cr3 v = some ⟨frameOf (e1Of m cr3 v), true, upperWritable m cr3 v && writable (e1Of m cr3 v)⟩ := by
  obtain ⟨hh3, hh2⟩ := granted_small h hg
  obtain ⟨h4, h3, h2, h1⟩ := allGranted_iff.1 hg
  obtain ⟨p4, u4⟩ := granted_iff.1 h4
  obtain ⟨p3, u3⟩ := granted_iff.1 h3
  obtain ⟨p2, u2⟩ := granted_iff.1 h2
  obtain ⟨p1, u1⟩ := granted_iff.1 h1
  have hwalk : translate m cr3 v = if !present (e4Of m cr3 v) then none
      else if !present (e3Of m cr3 v) then none
      else if huge (e3Of m cr3 v) then
        some ⟨frameOf (e3Of m cr3 v) / 2 ^ 18 * 2 ^ 18 + v / PAGE_SIZE % 2 ^ 18, user (e4Of m cr3 v) && user (e3Of m cr3 v),
          writable (e4Of m cr3 v) && writable (e3Of m cr3 v)⟩
      else if !present (e2Of m cr3 v) then none
      else if huge (e2Of m cr3 v) then
        some ⟨frameOf (e2Of m cr3 v) / 2 ^ 9 * 2 ^ 9 + v / PAGE_SIZE % 2 ^ 9,
          user (e4Of m cr3 v) && user (e3Of m cr3 v) && user (e2Of m cr3 v),
          writable (e4Of m cr3 v) && writable (e3Of m cr3 v) && writable (e2Of m cr3 v)⟩
      else if !present (e1Of m cr3 v) then none
      else
        some ⟨frameOf (e1Of m cr3 v), user (e4Of m cr3 v) && user (e3Of m cr3 v) && user (e2Of m cr3 v) &&
          user (e1Of m cr3 v), writable (e4Of m cr3 v) && writable (e3Of m cr3 v) && writable (e2Of m cr3 v) &&
          writable (e1Of m cr3 v)⟩ := rfl
  rw [hwalk]
  simp [p4, p3, p2, p1, hh3, hh2, u4, u3, u2, u1, upperWritable]

theorem reaches_granted (h : ¬ HugeWalk m cr3 v) (hg : allGranted m cr3 v = true) :
    Reaches m cr3 v 1 (frameOf (e2Of m cr3 v)) := by
  obtain ⟨hh3, hh2⟩ := granted_small h hg
  obtain ⟨h4, h3, h2, -⟩ := allGranted_iff.1 hg
  have r3 : Reaches m cr3 v 3 (frameOf (e4Of m cr3 v)) := .down .top (by decide) (granted_iff.1 h4).1 (by simp)
  have r2 : Reaches m cr3 v 2 (frameOf (e3Of m cr3 v)) := .down r3 (by decide) (granted_iff.1 h3).1 fun hc => by
    have hc' : huge (e3Of m cr3 v) = true := hc.2
    rw [hh3] at hc'
    cases hc'
  exact .down r2 (by decide) (granted_iff.1 h2).1 fun hc => by
    have hc' : huge (e2Of m cr3 v) = true := hc.2
    rw [hh2] at hc'
    cases hc'

end

/-! ## What resolving copy-on-write changes -/

def Loose (e e' : BitVec 64) : Prop := e' = e ∨ cow e = true ∧ present e' = present e ∧ user e' = user e ∧ writable e' = true

theorem Loose.granted {e e' : BitVec 64} (h : Loose e e') : granted e' = granted e := by
  rcases h with rfl | ⟨-, hp, hu, -⟩
  · rfl
  · unfold Mm.granted
    rw [hp, hu]

theorem Loose.writable {e e' : BitVec 64} (h : Loose e e') (hw : writable e = true) : Mm.writable e' = true := by
  rcases h with rfl | ⟨-, -, -, hw'⟩
  · exact hw
  · exact hw'

structure Loosened (ρ : Nat → Option (List Nat)) (s s' : Vm) : Prop where
  upper : ∀ t q, ρ t = some q → q.length < 3 → s'.mem t = s.mem t
  leaf : ∀ t q i, ρ t = some q → q.length = 3 → Loose (s.mem t i) (s'.mem t i)

section
variable {ρ : Nat → Option (List Nat)} {s s' s'' : Vm} {cr3 v pt : Nat}

theorem Loosened.refl (ρ : Nat → Option (List Nat)) (s : Vm) : Loosened ρ s s :=
  ⟨fun _ _ _ _ => rfl, fun _ _ _ _ _ => .inl rfl⟩

structure WalkLoose (m m' : Nat → Nat → BitVec 64) (cr3 v : Nat) : Prop where
  e4 : e4Of m' cr3 v = e4Of m cr3 v
  e3 : present (e4Of m cr3 v) = true → e3Of m' cr3 v = e3Of m cr3 v
  e2 : present (e4Of m cr3 v) = true → present (e3Of m cr3 v) = true → huge (e3Of m cr3 v) = false →
    e2Of m' cr3 v = e2Of m cr3 v
  e1 : present (e4Of m cr3 v) = true → present (e3Of m cr3 v) = true → huge (e3Of m cr3 v) = false →
    present (e2Of m cr3 v) = true → huge (e2Of m cr3 v) = false → Loose (e1Of m cr3 v) (e1Of m' cr3 v)

theorem Tree.walkLoose (h : Tree ρ s cr3) (hl : Loosened ρ s s') (v : Nat) : WalkLoose s.mem s'.mem cr3 v := by
  obtain ⟨i4, i3, i2, -⟩ := index_lt v
  have h4 : e4Of s'.mem cr3 v = e4Of s.mem cr3 v := by
    unfold e4Of
    rw [hl.upper cr3 [] h.root (by decide)]
  have r3 : present (e4Of s.mem cr3 v) = true → ρ (frameOf (e4Of s.mem cr3 v)) = some [pml4Index v] := fun hp =>
    h.entry cr3 [] _ h.root (by decide) i4 hp (h.top cr3 _ h.root i4 hp)
  have h3 : present (e4Of s.mem cr3 v) = true → e3Of s'.mem cr3 v = e3Of s.mem cr3 v := fun hp => by
    unfold e3Of
    rw [h4, hl.upper _ _ (r3 hp) (show 1 < 3 by decide)]
  have r2 : present (e4Of s.mem cr3 v) = true → present (e3Of s.mem cr3 v) = true → huge (e3Of s.mem cr3 v) = false →
      ρ (frameOf (e3Of s.mem cr3 v)) = some [pml4Index v, pdptIndex v] := fun hp hp' hh =>
    h.entry _ _ _ (r3 hp) (show 1 < 3 by decide) i3 hp' hh
  have h2 : present (e4Of s.mem cr3 v) = true → present (e3Of s.mem cr3 v) = true → huge (e3Of s.mem cr3 v) = false →
      e2Of s'.mem cr3 v = e2Of s.mem cr3 v := fun hp hp' hh => by
    unfold e2Of
    rw [h3 hp, hl.upper _ _ (r2 hp hp' hh) (show 2 < 3 by decide)]
  refine ⟨h4, h3, h2, fun hp hp' hh hp'' hh' => ?_⟩
  have r1 := h.entry _ _ _ (r2 hp hp' hh) (show 2 < 3 by decide) i2 hp'' hh'
  unfold e1Of
  rw [h2 hp hp' hh]
  exact hl.leaf _ _ _ r1 rfl

variable {m m' : Nat → Nat → BitVec 64}

theorem WalkLoose.hugeWalk (h : WalkLoose m m' cr3 v) : HugeWalk m' cr3 v ↔ HugeWalk m cr3 v := by
  rw [hugeWalk_iff, hugeWalk_iff, h.e4]
  refine and_congr_right fun g4 => ?_
  have p4 := (granted_iff.1 g4).1
  rw [h.e3 p4]
  refine and_congr_right fun g3 => ?_
  cases hh : huge (e3Of m cr3 v) with
  | true => simp
  | false => rw [h.e2 p4 (granted_iff.1 g3).1 hh]

theorem WalkLoose.isUserPage (h : WalkLoose m m' cr3 v) : vmmIsUserPage m' cr3 v = vmmIsUserPage m cr3 v := by
  unfold vmmIsUserPage
  rw [h.e4]
  cases g4 : granted (e4Of m cr3 v) with
  | false => rfl
  | true =>
    have p4 := (granted_iff.1 g4).1
    rw [h.e3 p4]
    cases g3 : granted (e3Of m cr3 v) with
    | false => rfl
    | true =>
      have p3 := (granted_iff.1 g3).1
      cases hh3 : huge (e3Of m cr3 v) with
      | true => rfl
      | false =>
        rw [h.e2 p4 p3 hh3]
        cases g2 : granted (e2Of m cr3 v) with
        | false => rfl
        | true =>
          cases hh2 : huge (e2Of m cr3 v) with
          | true => rfl
          | false => rw [(h.e1 p4 p3 hh3 (granted_iff.1 g2).1 hh2).granted]

theorem WalkLoose.granted (h : WalkLoose m m' cr3 v) (hplain : ¬ HugeWalk m cr3 v)
    (hg : allGranted m cr3 v = true) : allGranted m' cr3 v = true ∧ Loose (e1Of m cr3 v) (e1Of m' cr3 v) ∧
      e2Of m' cr3 v = e2Of m cr3 v ∧ upperWritable m' cr3 v = upperWritable m cr3 v := by
  obtain ⟨hh3, hh2⟩ := granted_small hplain hg
  obtain ⟨g4, g3, g2, -⟩ := allGranted_iff.1 hg
  have p4 := (granted_iff.1 g4).1
  have p3 := (granted_iff.1 g3).1
  have hleaf := h.e1 p4 p3 hh3 (granted_iff.1 g2).1 hh2
  refine ⟨?_, hleaf, h.e2 p4 p3 hh3, ?_⟩
  · rw [← isUserPage_eq (mt h.hugeWalk.1 hplain), h.isUserPage, isUserPage_eq hplain, hg]
  · unfold upperWritable
    rw [h.e4, h.e3 p4, h.e2 p4 p3 hh3]

theorem WalkLoose.refused {write : Bool} (h : WalkLoose m m' cr3 v) (hr : Refused m cr3 write v) :
    Refused m' cr3 write v := by
  cases hu : vmmIsUserPage m cr3 v with
  | false => exact .inl (by rw [h.isUserPage, hu])
  | true =>
    rcases hr with hr | ⟨hw, hplain, hro, hnc⟩
    · rw [hu] at hr
      cases hr
    have hg : allGranted m cr3 v = true := by rw [← isUserPage_eq hplain, hu]
    obtain ⟨-, hleaf, -, -⟩ := h.granted hplain hg
    rcases hleaf with heq | ⟨hc, -⟩
    · refine .inr ⟨hw, mt h.hugeWalk.1 hplain, ?_, ?_⟩
      · rw [heq, hro]
      · rw [heq, hnc]
    · rw [hnc] at hc
      cases hc

theorem WalkLoose.notRefused {write : Bool} (h : WalkLoose m m' cr3 v) (hr : ¬ Refused m cr3 write v) :
    ¬ Refused m' cr3 write v := by
  rintro (hu | ⟨hw, hplain, hro, hnc⟩)
  · exact hr (.inl (by rw [← h.isUserPage, hu]))
  · have hplain' : ¬ HugeWalk m cr3 v := mt h.hugeWalk.2 hplain
    cases hu : vmmIsUserPage m cr3 v with
    | false => exact hr (.inl hu)
    | true =>
      have hg : allGranted m cr3 v = true := by rw [← isUserPage_eq hplain', hu]
      obtain ⟨-, hleaf, -, -⟩ := h.granted hplain' hg
      rcases hleaf with heq | ⟨-, -, -, hw'⟩
      · exact hr (.inr ⟨hw, hplain', by rw [← heq, hro], by rw [← heq, hnc]⟩)
      · rw [hro] at hw'
        cases hw'

theorem Tree.ofUpper (h : Tree ρ s cr3) (hm : ∀ t q, ρ t = some q → q.length < 3 → s'.mem t = s.mem t)
    (ht : s'.pmm.totalPages = s.pmm.totalPages)
    (hb : ∀ f, ρ f ≠ none ∨ f = 0 → f < s.pmm.totalPages → s.pmm.bits f = true → s'.pmm.bits f = true) : Tree ρ s' cr3 := by
  refine ⟨?_, ht ▸ h.frames, h.root, fun f hf hlt => ?_, fun t i hρ hi hp => ?_, fun t q i hρ hq hi hp hh => ?_⟩
  · rw [ht]
    by_cases h0 : s.pmm.totalPages = 0
    · exact .inl h0
    · exact .inr (hb 0 (.inr rfl) (by omega) (h.zero.resolve_left h0))
  · rw [ht] at hlt
    exact hb f (.inl hf) hlt (h.used f hf hlt)
  · rw [hm t [] hρ (by decide)] at hp ⊢
    exact h.top t i hρ hi hp
  · rw [hm t q hρ hq] at hp hh ⊢
    exact h.entry t q i hρ hq hi hp hh

theorem recowEntry_bits (e : BitVec 64) {p : Nat} :
    present (addrOf p ||| (flagsOf e &&& ~~~PAGE_COW) ||| PAGE_WRITE) = present e ∧
      user (addrOf p ||| (flagsOf e &&& ~~~PAGE_COW) ||| PAGE_WRITE) = user e ∧
      writable (addrOf p ||| (flagsOf e &&& ~~~PAGE_COW) ||| PAGE_WRITE) = true := by
  have hbit : ∀ k < 12, k ≠ 9 → (addrOf p ||| (flagsOf e &&& ~~~PAGE_COW) ||| PAGE_WRITE).getLsbD k =
      (e.getLsbD k || decide (k = 1)) := by
    intro k hk h9
    rw [BitVec.getLsbD_or, BitVec.getLsbD_or, addrOf_bit p hk, BitVec.getLsbD_and, flagsOf_bit e hk, BitVec.getLsbD_not,
      cow_bit k (by omega), write_bit k (by omega)]
    simp [h9, show k < 64 by omega]
  refine ⟨?_, ?_, ?_⟩
  · rw [present_eq, present_eq, hbit 0 (by decide) (by decide)]
    simp
  · rw [user_eq, user_eq, hbit 2 (by decide) (by decide)]
    simp
  · rw [writable_eq, hbit 1 (by decide) (by decide)]
    simp

theorem Loosened.ofEntry {i : Nat} {e : BitVec 64} (hρ : ρ pt = some (way 1 v))
    (hat : s'.mem pt i = e) (hother : ∀ t j, ρ t ≠ none → ¬ (t = pt ∧ j = i) → s'.mem t j = s.mem t j)
    (he : Loose (s.mem pt i) e) : Loosened ρ s s' := by
  refine ⟨fun t q ht hq => ?_, fun t q j ht hq => ?_⟩
  · funext j
    refine hother t j (by rw [ht]; exact Option.some_ne_none q) fun hc => ?_
    rw [hc.1, hρ] at ht
    obtain rfl := Option.some.inj ht
    rw [way_length] at hq
    omega
  · by_cases hc : t = pt ∧ j = i
    · rw [hc.1, hc.2, hat]
      exact he
    · exact .inl (hother t j (by rw [ht]; exact Option.some_ne_none q) hc)

theorem Tree.resolveCow (h : Tree ρ s cr3) {b : Bool} (hr : Reaches s.mem cr3 v 1 pt)
    (hok : s.vmmResolveCow pt (ptIndex v) = .ok (s', b)) :
    Tree ρ s' cr3 ∧ Loosened ρ s s' ∧ (b = true → writable (s'.mem pt (ptIndex v)) = true) := by
  have hρ := h.role hr
  unfold Vm.vmmResolveCow at hok
  dsimp only at hok
  split at hok
  · cases hok
    exact ⟨h, .refl ρ s, fun hc => (by cases hc)⟩
  rename_i hcow
  have hcow' : cow (s.mem pt (ptIndex v)) = true := by simpa using hcow
  split at hok
  · -- the last owner keeps the frame
    cases hok
    have hat : (s.write pt (ptIndex v) (uncowEntry (s.mem pt (ptIndex v)))).mem pt (ptIndex v) =
        uncowEntry (s.mem pt (ptIndex v)) := by rw [Vm.write_mem, if_pos ⟨rfl, rfl⟩]
    have hw := uncowEntry_sameWalk (s.mem pt (ptIndex v))
    have hwrite : writable (uncowEntry (s.mem pt (ptIndex v))) = true := by
      rw [writable_eq, uncowEntry_bit _ (by decide)]
      simp
    have hl := Loosened.ofEntry hρ hat (fun t j _ hc => by rw [Vm.write_mem, if_neg hc])
      (.inr ⟨hcow', hw.present, hw.user, hwrite⟩)
    exact ⟨h.ofUpper hl.upper rfl fun f _ _ hb => hb, hl, fun _ => by rw [hat, hwrite]⟩
  rename_i hcount
  obtain ⟨s1, heq, hm, htook⟩ | ⟨s1, p, heq, hm, hp0, htook⟩ := allocPage_took h.zero
  · rw [heq] at hok
    cases hok
    exact ⟨h.ofTook hm htook, ⟨fun t q _ _ => by rw [hm], fun t q i _ _ => .inl (by rw [hm])⟩, fun hc => (by cases hc)⟩
  rw [heq] at hok
  dsimp only at hok
  obtain ⟨hlt, hfree, hbit, hone⟩ := htook.fresh p rfl
  have hnew : ρ p = none := by
    by_contra hcon
    rw [h.used p hcon hlt] at hfree
    cases hfree
  -- what is written, and the frame given back
  generalize hs2 : (s1.copyPage p (frameOf (s.mem pt (ptIndex v)))).write pt (ptIndex v)
    (addrOf p ||| (flagsOf (s.mem pt (ptIndex v)) &&& ~~~PAGE_COW) ||| PAGE_WRITE) = s2 at hok
  unfold Vm.freeFrame at hok
  obtain ⟨pmm, hpmm, hs'⟩ : ∃ pmm, s2.pmm.pmmFreePage (frameOf (s.mem pt (ptIndex v)) * PAGE_SIZE) = .ok pmm ∧
      s' = { s2 with pmm := pmm } ∧ b = true := by
    cases hfp : s2.pmm.pmmFreePage (frameOf (s.mem pt (ptIndex v)) * PAGE_SIZE) with
    | error e =>
      rw [hfp] at hok
      cases hok
    | ok pmm =>
      rw [hfp] at hok
      cases hok
      exact ⟨pmm, rfl, rfl, rfl⟩
  obtain ⟨rfl, rfl⟩ := hs'
  have hpm : s2.pmm = s1.pmm := by
    rw [← hs2]
    rfl
  have hat : s2.mem pt (ptIndex v) = addrOf p ||| (flagsOf (s.mem pt (ptIndex v)) &&& ~~~PAGE_COW) ||| PAGE_WRITE := by
    rw [← hs2, Vm.write_mem, if_pos ⟨rfl, rfl⟩]
  obtain ⟨hpres, huser, hwrite⟩ := recowEntry_bits (s.mem pt (ptIndex v)) (p := p)
  have hl : Loosened ρ s { s2 with pmm := pmm } := by
    refine Loosened.ofEntry hρ hat (fun t j ht hc => ?_) (.inr ⟨hcow', hpres, huser, hwrite⟩)
    have htp : t ≠ p := by
      rintro rfl
      exact ht hnew
    show s2.mem t j = s.mem t j
    rw [← hs2, Vm.write_mem, if_neg hc, Vm.copyPage_mem_ne htp, hm]
  rw [hpm] at hpmm
  have hfreed := pmmFreePage_ok hpmm
  -- only the new frame can have been given back
  have hbits : pmm.totalPages = s1.pmm.totalPages ∧
      (pmm.bits = s1.pmm.bits ∨ pmm.bits = Function.update s1.pmm.bits p false) := by
    obtain ⟨-, rfl⟩ | ⟨hlt', -, htot, -, ⟨-, hsame⟩ | ⟨hlast, hupd⟩⟩ := hfreed
    · exact ⟨rfl, .inl rfl⟩
    · exact ⟨htot, .inl hsame⟩
    · refine ⟨htot, .inr ?_⟩
      by_cases hfp : frameOf (s.mem pt (ptIndex v)) = p
      · rw [hupd, hfp]
      · rw [(htook.same _ hfp).2] at hlast
        refine absurd ?_ hcount
        unfold Pmm.pmmGetRefCount
        rw [Nat.mul_div_cancel _ (by decide), if_neg (by rw [← htook.total]; omega), hlast]
  refine ⟨h.ofUpper hl.upper (hbits.1.trans htook.total) fun f hf hlt' hb => ?_, hl, fun _ => by rw [hat, hwrite]⟩
  · have hfp : f ≠ p := by
      rintro rfl
      rcases hf with hf | hf
      · exact hf hnew
      · exact hp0 hf
    have hb' : s1.pmm.bits f = true := by rw [(htook.same f hfp).1, hb]
    rcases hbits.2 with hsame | hupd
    · rw [hsame, hb']
    · rw [hupd, Function.update_of_ne hfp, hb']

/-! ## One page of the loop -/

theorem Loosened.trans (h : Loosened ρ s s') (h' : Loosened ρ s' s'') : Loosened ρ s s'' := by
  refine ⟨fun t q ht hq => (h'.upper t q ht hq).trans (h.upper t q ht hq), fun t q i ht hq => ?_⟩
  rcases h'.leaf t q i ht hq with heq | ⟨hc', hp', hu', hw'⟩
  · rw [heq]
    exact h.leaf t q i ht hq
  · rcases h.leaf t q i ht hq with heq | ⟨hc, hp, hu, hw⟩
    · rw [heq] at hc' hp' hu'
      exact .inr ⟨hc', hp', hu', hw'⟩
    · exact .inr ⟨hc, hp'.trans hp, hu'.trans hu, hw'⟩

variable {write b : Bool}

theorem verifyPage_eq (s : Vm) (cr3 v : Nat) (write : Bool) :
    s.verifyPage cr3 v write = if !allGranted s.mem cr3 v then .ok (s, false)
    else if !write || writable (e1Of s.mem cr3 v) then .ok (s, true)
    else if cow (e1Of s.mem cr3 v) then s.vmmResolveCow (frameOf (e2Of s.mem cr3 v)) (ptIndex v)
    else .ok (s, false) := by
  unfold Vm.verifyPage allGranted
  cases granted (e4Of s.mem cr3 v) with
  | false => rfl
  | true =>
    cases granted (e3Of s.mem cr3 v) with
    | false => rfl
    | true =>
      cases granted (e2Of s.mem cr3 v) with
      | false => rfl
      | true =>
        cases granted (e1Of s.mem cr3 v) with
        | false => rfl
        | true => cases write <;> simp

def Allowed (m : Nat → Nat → BitVec 64) (cr3 : Nat) (write : Bool) (v : Nat) : Prop :=
  ¬ HugeWalk m cr3 v ∧ allGranted m cr3 v = true ∧ (write = true → writable (e1Of m cr3 v) = true)

theorem WalkLoose.allowed (h : WalkLoose m m' cr3 v) (ha : Allowed m cr3 write v) : Allowed m' cr3 write v := by
  obtain ⟨hplain, hg, hw⟩ := ha
  obtain ⟨hg', hleaf, -, -⟩ := h.granted hplain hg
  exact ⟨mt h.hugeWalk.1 hplain, hg', fun hwrite => hleaf.writable (hw hwrite)⟩

/-- **One page that lies in no huge page**: a result of 1 allows it, and only page tables are written. -/
theorem Tree.verifyPage (h : Tree ρ s cr3) (hplain : ¬ HugeWalk s.mem cr3 v) (hok : s.verifyPage cr3 v write = .ok (s', b)) :
    Tree ρ s' cr3 ∧ Loosened ρ s s' ∧ (b = true → Allowed s'.mem cr3 write v ∧ ¬ Refused s.mem cr3 write v) ∧
      (write = false → s' = s ∧ b = vmmIsUserPage s.mem cr3 v) := by
  rw [verifyPage_eq] at hok
  have huser := isUserPage_eq hplain
  split at hok
  · rename_i hg
    have hg' : allGranted s.mem cr3 v = false := by simpa using hg
    cases hok
    exact ⟨h, .refl ρ s, fun hc => (by cases hc), fun _ => ⟨rfl, by rw [huser, hg']⟩⟩
  rename_i hg
  have hg' : allGranted s.mem cr3 v = true := by simpa using hg
  split at hok
  · rename_i hw
    cases hok
    have hwrite : write = true → writable (e1Of s.mem cr3 v) = true := fun hwt => by
      rw [hwt] at hw
      simpa using hw
    refine ⟨h, .refl ρ s, fun _ => ⟨⟨hplain, hg', hwrite⟩, ?_⟩, fun _ => ⟨rfl, by rw [huser, hg']⟩⟩
    rintro (hu | ⟨hwt, -, hro, -⟩)
    · rw [huser, hg'] at hu
      cases hu
    · rw [hwrite hwt] at hro
      cases hro
  rename_i hw
  obtain ⟨hwt, hro⟩ : write = true ∧ writable (e1Of s.mem cr3 v) = false := by simpa using hw
  split at hok
  · rename_i hc
    have hr := reaches_granted hplain hg'
    obtain ⟨htree, hl, hwritten⟩ := h.resolveCow hr hok
    have hloose := h.walkLoose hl v
    obtain ⟨hgr, -, he2, -⟩ := hloose.granted hplain hg'
    refine ⟨htree, hl, fun hb => ⟨⟨mt hloose.hugeWalk.1 hplain, hgr, fun _ => ?_⟩, ?_⟩,
      fun hwf => by rw [hwt] at hwf; cases hwf⟩
    · unfold e1Of
      rw [he2]
      exact hwritten hb
    · rintro (hu | ⟨-, -, -, hnc⟩)
      · rw [huser, hg'] at hu
        cases hu
      · rw [hc] at hnc
        cases hnc
  · cases hok
    exact ⟨h, .refl ρ s, fun hc => (by cases hc), fun hwf => by rw [hwt] at hwf; cases hwf⟩

theorem resolvePage_of_verifyPage (hok : s.verifyPage cr3 v true = .ok (s', true)) : s.resolvePage cr3 v = some s' := by
  rw [verifyPage_eq] at hok
  unfold Vm.resolvePage
  split at hok
  · cases hok
  split at hok
  · rename_i hw
    cases hok
    rw [Bool.not_true, Bool.false_or] at hw
    rw [hw, if_neg (by simp)]
  rename_i hw
  rw [Bool.not_true, Bool.false_or] at hw
  split at hok
  · rename_i hc
    rw [hc, if_pos (by simpa using hw), hok]
  · cases hok

/-! ## The loop -/

variable {n : Nat}

theorem not_barred_zero : ¬ Barred s cr3 write v 0 := by
  rintro (⟨j, hj, -⟩ | ⟨-, hnone⟩)
  · exact absurd hj (Nat.not_lt_zero j)
  · cases hnone

theorem resolvePages_none : ∀ (j k v : Nat) (s : Vm), j ≤ k → Vm.resolvePages cr3 j v s = none →
    Vm.resolvePages cr3 k v s = none
  | 0, _, _, _, _, hnone => by cases hnone
  | j + 1, 0, _, _, hle, _ => absurd hle (Nat.not_succ_le_zero j)
  | j + 1, k + 1, v, s, hle, hnone => by
    unfold Vm.resolvePages at hnone ⊢
    cases hs : s.resolvePage cr3 v with
    | none => rfl
    | some s1 =>
      rw [hs] at hnone
      exact resolvePages_none j k (v + PAGE_SIZE) s1 (Nat.le_of_succ_le_succ hle) hnone

theorem Barred.mono {j k : Nat} (h : Barred s cr3 write v j) (hle : j ≤ k) : Barred s cr3 write v k := by
  rcases h with ⟨i, hi, href⟩ | ⟨hwt, hnone⟩
  · exact .inl ⟨i, Nat.lt_of_lt_of_le hi hle, href⟩
  · exact .inr ⟨hwt, resolvePages_none j k v s hle hnone⟩

theorem page_shift (v i : Nat) : v + PAGE_SIZE + i * PAGE_SIZE = v + (i + 1) * PAGE_SIZE := by
  rw [Nat.add_mul]
  omega

/-- Behind a page that was granted, what bars the others is what barred them before. -/
theorem Tree.barred_iff (h : Tree ρ s cr3) (hplain : ¬ HugeWalk s.mem cr3 v)
    (hok : s.verifyPage cr3 v write = .ok (s', true)) :
    Barred s cr3 write v (n + 1) ↔ Barred s' cr3 write (v + PAGE_SIZE) n := by
  obtain ⟨-, hl, hgo, -⟩ := h.verifyPage hplain hok
  refine or_congr ⟨?_, ?_⟩ (and_congr_right fun hwt => ?_)
  · rintro ⟨j, hj, href⟩
    cases j with
    | zero =>
      rw [Nat.zero_mul, Nat.add_zero] at href
      exact absurd href (hgo rfl).2
    | succ i => exact ⟨i, Nat.lt_of_succ_lt_succ hj, by rw [page_shift]; exact (h.walkLoose hl _).refused href⟩
  · rintro ⟨i, hi, href⟩
    rw [page_shift] at href
    refine ⟨i + 1, Nat.succ_lt_succ hi, ?_⟩
    by_contra hnot
    exact (h.walkLoose hl _).notRefused hnot href
  · rw [hwt] at hok
    rw [Vm.resolvePages, resolvePage_of_verifyPage hok]
    rfl

/-- No page the loop comes to lies in a huge page, where each that does is barred by a page before it. -/
theorem Tree.visits_plain : ∀ (n v : Nat) (s : Vm), Tree ρ s cr3 →
    (∀ k < n, HugeWalk s.mem cr3 (v + k * PAGE_SIZE) → Barred s cr3 write v k) →
    ∀ r ∈ Vm.visits cr3 write n v s, ¬ HugeWalk r.1.mem cr3 r.2
  | 0, _, _, _, _, r, hr => by cases hr
  | n + 1, v, s, h, hhuge, r, hr => by
    have hplain : ¬ HugeWalk s.mem cr3 v := fun hc => not_barred_zero (hhuge 0 (by omega) (by simpa using hc))
    unfold Vm.visits at hr
    rcases List.mem_cons.1 hr with rfl | hr
    · exact hplain
    split at hr
    swap
    · cases hr
    rename_i s' hok
    obtain ⟨htree, hl, -, -⟩ := h.verifyPage hplain hok
    refine Tree.visits_plain n (v + PAGE_SIZE) s' htree (fun k hk hh => ?_) r hr
    rw [page_shift] at hh
    exact (h.barred_iff hplain hok).1 (hhuge (k + 1) (by omega) ((h.walkLoose hl _).hugeWalk.1 hh))

/-- **A loop that grants every page has allowed every page**, and none was barred. -/
theorem Tree.verifyPages : ∀ (n v : Nat) (s : Vm), Tree ρ s cr3 →
    (∀ r ∈ Vm.visits cr3 write n v s, ¬ HugeWalk r.1.mem cr3 r.2) →
    Vm.verifyPages cr3 write n v s = .ok (s', true) → Loosened ρ s s' ∧ (write = false → s' = s) ∧
      (∀ k < n, Allowed s'.mem cr3 write (v + k * PAGE_SIZE)) ∧ ¬ Barred s cr3 write v n
  | 0, v, s, _, _, hok => by
    cases hok
    exact ⟨.refl ρ _, fun _ => rfl, fun k hk => absurd hk (Nat.not_lt_zero k), not_barred_zero⟩
  | n + 1, v, s, h, hvis, hok => by
    have hplain := hvis (s, v) (by simp [Vm.visits])
    unfold Vm.verifyPages at hok
    split at hok
    · cases hok
    · cases hok
    rename_i s1 hpage
    obtain ⟨htree, hl, hgo, hread⟩ := h.verifyPage hplain hpage
    obtain ⟨hl', hread', hall, hnot⟩ := Tree.verifyPages n (v + PAGE_SIZE) s1 htree (fun r hr => hvis r (by
      unfold Vm.visits
      rw [hpage]
      exact List.mem_cons_of_mem _ hr)) hok
    refine ⟨hl.trans hl', fun hw => (hread' hw).trans (hread hw).1, fun k hk => ?_, mt (h.barred_iff hplain hpage).1 hnot⟩
    cases k with
    | zero =>
      rw [Nat.zero_mul, Nat.add_zero]
      exact (htree.walkLoose hl' v).allowed (hgo rfl).1
    | succ k =>
      rw [← page_shift]
      exact hall k (by omega)

theorem not_refused_of_not_barred (h : ¬ Barred s cr3 write v n) {k : Nat} (hk : k < n) :
    ¬ Refused s.mem cr3 write (v + k * PAGE_SIZE) := fun href => h (.inl ⟨k, hk, href⟩)

theorem verifyPage_grants (hplain : ¬ HugeWalk s.mem cr3 v) (hnot : ¬ Barred s cr3 write v (n + 1)) :
    ∃ s', s.verifyPage cr3 v write = .ok (s', true) := by
  have hfirst := not_refused_of_not_barred hnot (Nat.succ_pos n)
  rw [Nat.zero_mul, Nat.add_zero] at hfirst
  obtain ⟨huser, hrest⟩ := not_or.1 hfirst
  have hg : allGranted s.mem cr3 v = true := by
    rw [← isUserPage_eq hplain]
    simpa using huser
  rw [verifyPage_eq, hg, if_neg (by decide)]
  by_cases hw : (!write || writable (e1Of s.mem cr3 v)) = true
  · rw [if_pos hw]
    exact ⟨s, rfl⟩
  · rw [if_neg hw]
    obtain ⟨hwt, hro⟩ : write = true ∧ writable (e1Of s.mem cr3 v) = false := by simpa using hw
    have hc : cow (e1Of s.mem cr3 v) = true := by
      by_contra hcon
      exact hrest ⟨hwt, hplain, hro, by simpa using hcon⟩
    rw [if_pos hc]
    have hsome : s.resolvePage cr3 v ≠ none := fun hnone => hnot (.inr ⟨hwt, by rw [Vm.resolvePages, hnone]; rfl⟩)
    unfold Vm.resolvePage at hsome
    rw [hro, hc, if_pos (by decide)] at hsome
    split at hsome
    · exact ⟨_, ‹_›⟩
    · exact absurd rfl hsome

theorem Tree.visits_reach : ∀ (n k v : Nat) (s : Vm), Tree ρ s cr3 → k < n → ¬ Barred s cr3 write v k →
    (∀ j < k, ¬ HugeWalk s.mem cr3 (v + j * PAGE_SIZE)) →
    ∃ s', (s', v + k * PAGE_SIZE) ∈ Vm.visits cr3 write n v s ∧ Loosened ρ s s'
  | 0, _, _, _, _, hk, _, _ => absurd hk (Nat.not_lt_zero _)
  | n + 1, 0, v, s, _, _, _, _ => ⟨s, by simp [Vm.visits], .refl ρ s⟩
  | n + 1, k + 1, v, s, h, hk, hnot, hall => by
    have hplain := hall 0 (by omega)
    rw [Nat.zero_mul, Nat.add_zero] at hplain
    obtain ⟨s1, hok⟩ := verifyPage_grants hplain hnot
    obtain ⟨htree, hl, -⟩ := h.verifyPage hplain hok
    obtain ⟨s', hin, hl'⟩ := Tree.visits_reach n k (v + PAGE_SIZE) s1 htree (by omega) (mt (h.barred_iff hplain hok).2 hnot)
      fun j hj => by
        rw [page_shift]
        exact mt (h.walkLoose hl _).hugeWalk.1 (hall (j + 1) (by omega))
    rw [page_shift] at hin
    refine ⟨s', ?_, hl.trans hl'⟩
    unfold Vm.visits
    rw [hok]
    exact List.mem_cons_of_mem _ hin

theorem Tree.verifyPages_grants : ∀ (n v : Nat) (s : Vm), Tree ρ s cr3 → ¬ Barred s cr3 write v n →
    (∀ j < n, ¬ HugeWalk s.mem cr3 (v + j * PAGE_SIZE)) → ∃ s', Vm.verifyPages cr3 write n v s = .ok (s', true)
  | 0, _, s, _, _, _ => ⟨s, rfl⟩
  | n + 1, v, s, h, hnot, hall => by
    have hplain := hall 0 (by omega)
    rw [Nat.zero_mul, Nat.add_zero] at hplain
    obtain ⟨s1, hok⟩ := verifyPage_grants hplain hnot
    obtain ⟨htree, hl, -⟩ := h.verifyPage hplain hok
    obtain ⟨s', hgo⟩ := Tree.verifyPages_grants n (v + PAGE_SIZE) s1 htree (mt (h.barred_iff hplain hok).2 hnot)
        fun j hj => by
      rw [page_shift]
      exact mt (h.walkLoose hl _).hugeWalk.1 (hall (j + 1) (by omega))
    refine ⟨s', ?_⟩
    unfold Vm.verifyPages
    rw [hok]
    exact hgo

/-! ## Ranges -/

variable {addr size : Nat}

theorem validate_iff (ha : addr < 2 ^ 64) (hsz : size < 2 ^ 64) :
    vmmValidateUserPtr addr size = true ↔ USER_BASE ≤ addr ∧ addr + size ≤ USER_LIMIT + 1 := by
  unfold vmmValidateUserPtr USER_BASE USER_LIMIT
  dsimp only
  split
  · simp only [Bool.false_eq_true, false_iff]
    omega
  · split
    · simp only [Bool.false_eq_true, false_iff]
      omega
    · split
      · simp only [Bool.false_eq_true, false_iff]
        omega
      · simp only [true_iff]
        omega

theorem page_congr {a c : Nat} (h : a / PAGE_SIZE = c / PAGE_SIZE) :
    translate m cr3 a = translate m cr3 c ∧ vmmIsUserPage m cr3 a = vmmIsUserPage m cr3 c := by
  obtain ⟨h4, h3, h2, h1⟩ := index_eq_of_page h
  constructor
  · unfold translate
    rw [h4, h3, h2, h1, h]
  · unfold vmmIsUserPage e1Of e2Of e3Of e4Of
    rw [h4, h3, h2, h1]

theorem rangePage_div (addr k : Nat) : rangePage addr k / PAGE_SIZE = addr / PAGE_SIZE + k := by
  unfold rangePage firstPage
  rw [← Nat.add_mul, Nat.mul_div_cancel _ (by decide)]

theorem page_of_byte (hv : addr + size ≤ USER_LIMIT + 1) {a : Nat} (h : addr ≤ a) (h' : a < addr + size) :
    ∃ k < pagesOf addr size, a / PAGE_SIZE = rangePage addr k / PAGE_SIZE := by
  refine ⟨a / PAGE_SIZE - addr / PAGE_SIZE, ?_, ?_⟩
  · unfold pagesOf firstPage PAGE_SIZE
    unfold USER_LIMIT at hv
    dsimp only
    omega
  · rw [rangePage_div]
    have := Nat.div_le_div_right (c := PAGE_SIZE) h
    omega

theorem byte_of_page (h0 : 0 < size) {k : Nat} (hk : k < pagesOf addr size) :
    ∃ a, addr ≤ a ∧ a < addr + size ∧ a / PAGE_SIZE = rangePage addr k / PAGE_SIZE := by
  refine ⟨max addr (rangePage addr k), Nat.le_max_left .., ?_, ?_⟩
  · unfold pagesOf firstPage PAGE_SIZE at hk
    unfold rangePage firstPage PAGE_SIZE
    dsimp only at hk
    omega
  · unfold rangePage firstPage PAGE_SIZE
    omega

theorem not_huge_of_walk (h : ¬ HugeWalk m cr3 v) : ∀ e ∈ followed m cr3 v, huge e = false := by
  intro e he
  cases hh : huge e with
  | false => rfl
  | true => exact absurd ⟨e, he, hh⟩ h

theorem granted_of_notRefused (hplain : ¬ HugeWalk m cr3 v) (hnot : ¬ Refused m cr3 write v) :
    allGranted m cr3 v = true := by
  rw [← isUserPage_eq hplain]
  cases hu : vmmIsUserPage m cr3 v with
  | true => rfl
  | false => exact absurd (.inl hu) hnot

theorem access_of_valid (hv : vmmValidateUserPtr addr size = true) :
    s.vmmVerifyUserAccess cr3 addr size write = Vm.verifyPages cr3 write (pagesOf addr size) (firstPage addr) s := by
  unfold Vm.vmmVerifyUserAccess
  rw [hv]
  rfl

theorem Tree.verifyOk (h : Tree ρ s cr3) (ha : addr < 2 ^ 64) (hsz : size < 2 ^ 64)
    (hmap : vmmValidateUserPtr addr size = true → WellMapped s cr3 addr size write) : VerifyOk s cr3 addr size write := by
  have hvisits : vmmValidateUserPtr addr size = true →
      ∀ r ∈ Vm.visits cr3 write (pagesOf addr size) (firstPage addr) s, ¬ HugeWalk r.1.mem cr3 r.2 := fun hv =>
    h.visits_plain _ _ s (hmap hv).huge
  refine ⟨fun s' hok => ?_, fun hwrite hlow hhigh huser => ?_, fun hv r hr => not_huge_of_walk (hvisits hv r hr)⟩
  · have hv : vmmValidateUserPtr addr size = true := by
      by_contra hcon
      unfold Vm.vmmVerifyUserAccess at hok
      rw [if_pos (by simpa using hcon)] at hok
      cases hok
    obtain ⟨hlow, hhigh⟩ := (validate_iff ha hsz).1 hv
    rw [access_of_valid hv] at hok
    obtain ⟨hl, -, hall, hnot⟩ := h.verifyPages _ _ s (hvisits hv) hok
    refine ⟨hlow, hhigh, fun a hle hlt => ?_⟩
    obtain ⟨k, hk, hpage⟩ := page_of_byte hhigh hle hlt
    obtain ⟨hplain, hg, hw⟩ := hall k hk
    rw [(page_congr hpage).1]
    refine ⟨_, translate_granted hplain hg, rfl, fun hwt => ?_⟩
    have hloose := h.walkLoose hl (rangePage addr k)
    have hplain0 := mt hloose.hugeWalk.2 hplain
    obtain ⟨-, -, -, hupper⟩ := hloose.granted hplain0
      (granted_of_notRefused hplain0 (not_refused_of_not_barred hnot hk))
    have hup : upperWritable s.mem cr3 (rangePage addr k) = true := by
      by_contra hcon
      exact hnot ((hmap hv).upper hwt (by omega) ⟨k, hk, by simpa using hcon⟩)
    show (upperWritable s'.mem cr3 (rangePage addr k) && writable (e1Of s'.mem cr3 (rangePage addr k))) = true
    rw [hupper, hup, show writable (e1Of s'.mem cr3 (rangePage addr k)) = true from hw hwt]
    rfl
  · have hv := (validate_iff ha hsz).2 ⟨hlow, hhigh⟩
    -- every page is one of user mode, so none is refused
    have hpages : ∀ k < pagesOf addr size, vmmIsUserPage s.mem cr3 (rangePage addr k) = true := by
      intro k hk
      rcases Nat.eq_zero_or_pos size with h0 | h0
      · exact (hmap hv).empty hwrite h0 k hk
      · obtain ⟨a, hle, hlt, hpage⟩ := byte_of_page h0 hk
        rw [← (page_congr hpage).2]
        exact huser a hle hlt
    have hnot : ¬ Barred s cr3 write (firstPage addr) (pagesOf addr size) := by
      rintro (⟨k, hk, hu | ⟨hwt, -⟩⟩ | ⟨hwt, -⟩)
      · rw [show vmmIsUserPage s.mem cr3 (firstPage addr + k * PAGE_SIZE) = true from hpages k hk] at hu
        cases hu
      · rw [hwrite] at hwt
        cases hwt
      · rw [hwrite] at hwt
        cases hwt
    have hplain : ∀ k < pagesOf addr size, ¬ HugeWalk s.mem cr3 (rangePage addr k) := by
      exact fun k hk hh => hnot (((hmap hv).huge k hk hh).mono (Nat.le_of_lt hk))
    obtain ⟨s', hok⟩ := h.verifyPages_grants (pagesOf addr size) (firstPage addr) s hnot hplain
    obtain ⟨-, hsame, -⟩ := h.verifyPages _ _ s (hvisits hv) hok
    rw [access_of_valid hv, hok, hsame hwrite]

theorem Tree.wellMapped (h : Tree ρ s cr3) (ha : addr < 2 ^ 64) (hsz : size < 2 ^ 64)
    (hv : vmmValidateUserPtr addr size = true)
    (hok : VerifyOk s cr3 addr size write) : WellMapped s cr3 addr size write := by
  obtain ⟨hlow, hhigh⟩ := (validate_iff ha hsz).1 hv
  have hvisits : ∀ r ∈ Vm.visits cr3 write (pagesOf addr size) (firstPage addr) s, ¬ HugeWalk r.1.mem cr3 r.2 := by
    rintro r hr ⟨e, he, hhe⟩
    rw [hok.apart hv r hr e he] at hhe
    cases hhe
  have hhuge : ∀ k < pagesOf addr size, HugeWalk s.mem cr3 (rangePage addr k) → Barred s cr3 write (firstPage addr) k := by
    intro k
    induction k using Nat.strongRecOn with
    | _ k ih =>
      intro hk hh
      by_contra hnot
      have hplain : ∀ j < k, ¬ HugeWalk s.mem cr3 (rangePage addr j) := fun j hj hhj =>
        hnot ((ih j hj (by omega) hhj).mono (Nat.le_of_lt hj))
      obtain ⟨s', hin, hl⟩ := h.visits_reach _ k (firstPage addr) s hk hnot hplain
      exact hvisits _ hin ((h.walkLoose hl _).hugeWalk.2 hh)
  refine ⟨hhuge, fun hwt h0 => ?_, fun hwrite h0 k hk => ?_⟩
  · rintro ⟨k, hk, hro⟩
    by_contra hnot
    have hplain : ∀ j < pagesOf addr size, ¬ HugeWalk s.mem cr3 (rangePage addr j) := fun j hj hh =>
      hnot ((hhuge j hj hh).mono (Nat.le_of_lt hj))
    -- the whole range is granted, and not all of it can be written
    obtain ⟨s', hgo⟩ := h.verifyPages_grants (pagesOf addr size) (firstPage addr) s hnot hplain
    obtain ⟨hl, -, hall, -⟩ := h.verifyPages _ _ s hvisits hgo
    obtain ⟨a, hle, hlt, hpage⟩ := byte_of_page h0 hk
    obtain ⟨x, hx, -, hw⟩ := (hok.sound s' (by rw [access_of_valid hv, hgo])).2.2 a hle hlt
    obtain ⟨hplain', hg', -⟩ := hall k hk
    obtain ⟨-, -, -, hupper⟩ := (h.walkLoose hl (rangePage addr k)).granted (hplain k hk)
      (granted_of_notRefused (hplain k hk) (not_refused_of_not_barred hnot hk))
    rw [(page_congr hpage).1] at hx
    obtain rfl := Option.some.inj ((translate_granted hplain' hg').symm.trans hx)
    have hwrite : (upperWritable s'.mem cr3 (rangePage addr k) && writable (e1Of s'.mem cr3 (rangePage addr k))) = true :=
      hw hwt
    rw [hupper, hro] at hwrite
    cases hwrite
  · have hgo := hok.agrees hwrite hlow hhigh fun a hle hlt => by omega
    rw [access_of_valid hv] at hgo
    obtain ⟨-, -, hall, -⟩ := h.verifyPages _ _ s hvisits hgo
    obtain ⟨hplain, hg, -⟩ := hall k hk
    show vmmIsUserPage s.mem cr3 (firstPage addr + k * PAGE_SIZE) = true
    rw [isUserPage_eq hplain, hg]

/-- **`vmm_verify_user_access` keeps its promise for the well-mapped ranges**, and for no others. -/
theorem verify_user_access (s : Vm) (cr3 addr size : Nat) (write : Bool) (htree : ∃ ρ, Tree ρ s cr3) (ha : addr < 2 ^ 64)
    (hsz : size < 2 ^ 64) :
    VerifyOk s cr3 addr size write ↔ (vmmValidateUserPtr addr size = true → WellMapped s cr3 addr size write) := by
  obtain ⟨ρ, h⟩ := htree
  exact ⟨fun hok hv => h.wellMapped ha hsz hv hok, h.verifyOk ha hsz⟩

end

/-- A write to two pages is granted, the first of them copied. -/
theorem verify_user_access_copied :
    ((userTables.vmmVerifyUserAccess 1 (USER_BASE + 0x200000) 0x2000 true).toOption.map fun r => r.2) = some true ∧
      VerifyOk userTables 1 (USER_BASE + 0x200000) 0x2000 true := by
  have hplain : ∀ k < 2, followed userTables.mem 1 (rangePage (USER_BASE + 0x200000) k) = [0x3007#64, 0x4007#64] := by
    decide +kernel
  refine ⟨by decide +kernel,
    (verify_user_access userTables 1 (USER_BASE + 0x200000) 0x2000 true ⟨_, userTables_tree⟩ (by decide)
    (by decide)).2 fun _ => ⟨fun k hk hh => ?_, fun _ _ hro => ?_, nofun⟩⟩
  · obtain ⟨e, he, hhe⟩ := hh
    rw [hplain k hk] at he
    simp only [List.mem_cons, List.not_mem_nil, or_false] at he
    rcases he with rfl | rfl <;> exact absurd hhe (by decide)
  · have hall : ∀ k < 2, upperWritable userTables.mem 1 (rangePage (USER_BASE + 0x200000) k) = true := by decide +kernel
    obtain ⟨k, hk, hro⟩ := hro
    rw [hall k hk] at hro
    cases hro

/-- A 1 GB page of user mode is refused, after the walk has gone on in its bytes. -/
theorem huge_page_refused : vmmIsUserPage (oneEntry 8 0x40000087#64).mem 1 USER_BASE = true ∧
    (∃ r ∈ Vm.visits 1 false (pagesOf USER_BASE 1) (firstPage USER_BASE) (oneEntry 8 0x40000087#64),
      ∃ e ∈ followed r.1.mem 1 r.2, huge e = true) ∧
    ¬ ∀ (s : Vm) (cr3 addr size : Nat) (write : Bool), (∃ ρ, Tree ρ s cr3) → addr < 2 ^ 64 → size < 2 ^ 64 →
      VerifyOk s cr3 addr size write := by
  have h4 : granted (e4Of (oneEntry 8 0x40000087#64).mem 1 USER_BASE) = true := by decide +kernel
  have h3 : granted (e3Of (oneEntry 8 0x40000087#64).mem 1 USER_BASE) = true := by decide +kernel
  have hh : huge (e3Of (oneEntry 8 0x40000087#64).mem 1 USER_BASE) = true := by decide +kernel
  have hwalk : ∃ e ∈ followed (oneEntry 8 0x40000087#64).mem 1 USER_BASE, huge e = true := hugeWalk_iff.2 ⟨h4, h3, .inl hh⟩
  have hvisit : ∃ r ∈ Vm.visits 1 false (pagesOf USER_BASE 1) (firstPage USER_BASE) (oneEntry 8 0x40000087#64),
      ∃ e ∈ followed r.1.mem 1 r.2, huge e = true := by
    refine ⟨(oneEntry 8 0x40000087#64, USER_BASE), ?_, hwalk⟩
    rw [show pagesOf USER_BASE 1 = 1 by decide, show firstPage USER_BASE = USER_BASE by decide]
    exact List.mem_cons_self ..
  have huser : vmmIsUserPage (oneEntry 8 0x40000087#64).mem 1 USER_BASE = true := by decide +kernel
  refine ⟨huser, hvisit, fun h => ?_⟩
  have hok := h (oneEntry 8 0x40000087#64) 1 USER_BASE 1 false ⟨_, oneEntry_tree (.inr (by decide))⟩ (by decide) (by decide)
  obtain ⟨r, hr, e, he, hh⟩ := hvisit
  have hvalid : vmmValidateUserPtr USER_BASE 1 = true := by decide
  rw [hok.apart hvalid r hr e he] at hh
  cases hh

end EterOS.Mm
