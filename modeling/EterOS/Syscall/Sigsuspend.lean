import EterOS.Syscall.SignalKill
/-!
# Sigsuspend — what becomes of the signal that ends a wait

`sys_rt_sigsuspend` puts the old mask back before it returns, and the action is looked up after that, on the way to user
mode: by `syscall_handler`, and once more by `syscall_entry`.  Which of the signals let through by the temporary mask are
delivered there, and with which action.
-/
namespace EterOS.Syscall

open List

variable {t t' : SigTask} {regs : SyscallRegs} {stackOk : UInt64 → Bool} {sig : Nat} {a : SigAction} {d : Delivery}

/-! ## What a look for signals finds -/

def Due (t : SigTask) (sig : Nat) : Prop :=
  1 ≤ sig ∧ sig ≤ 31 ∧ t.signalPending &&& sigBit sig ≠ 0 ∧ t.signalMask &&& sigBit sig = 0

def Ignored (sig : Nat) (a : SigAction) : Prop := a.handler = SIG_IGN ∨ a.handler = SIG_DFL ∧ dflIgnored sig = true

/-- A signal whose action, the entry read for it, is carried out: it is due, and all due before it are ignored. -/
def Next (t : SigTask) (sig : Nat) (a : SigAction) : Prop :=
  Due t sig ∧ entry t sig = some a ∧ ∀ j b, j < sig → Due t j → entry t j = some b → Ignored j b

variable {seen : List (Nat × SigAction)}

theorem takeSignal_none : takeSignal regs stackOk sig a seen t = none ↔ Ignored sig a := by
  unfold takeSignal Ignored
  by_cases hign : a.handler = SIG_IGN
  · simp [hign]
  · rw [if_neg hign]
    by_cases hdfl : a.handler = SIG_DFL
    · rw [if_pos hdfl]
      by_cases h : dflIgnored sig = true
      · simp [h, hdfl]
      · rw [if_neg h]
        split
        · simp [h, hign]
        · simp [h, hign]
    · rw [if_neg hdfl]
      split
      · simp [hign, hdfl]
      · simp [hign, hdfl]

variable {j : Nat}

theorem clearPending_and (hj : 1 ≤ j) (hs : 1 ≤ sig) (hne : j ≠ sig) :
    (clearPending t sig).signalPending &&& sigBit j = t.signalPending &&& sigBit j := by
  apply BitVec.eq_of_getLsbD_eq
  intro i hi
  unfold clearPending sigBit
  by_cases hij : j - 1 = i
  · subst hij
    have hne : j - 1 ≠ sig - 1 := by omega
    simp [hi, hne]
  · simp [hij]

theorem due_clearPending (hs : 1 ≤ sig) (hne : j ≠ sig) : Due (clearPending t sig) j ↔ Due t j := by
  unfold Due
  refine and_congr_right fun hj => and_congr_right fun _ => ?_
  rw [clearPending_and hj hs hne]
  rfl

theorem consulted_from (regs : SyscallRegs) (stackOk : UInt64 → Bool) :
    ∀ (n k : Nat) (seen : List (Nat × SigAction)) (t : SigTask)
    (d : Delivery), 1 ≤ k → k + n = 32 → handleLoop regs stackOk (List.range' k n) seen t = .ok d → ∀ sig a,
      ((sig, a) ∈ d.consulted ↔ (sig, a) ∈ seen ∨ k ≤ sig ∧ Due t sig ∧ entry t sig = some a ∧
        ∀ j b, k ≤ j → j < sig → Due t j → entry t j = some b → Ignored j b)
  | 0, k, seen, t, d, hk, hn, h, sig, a => by
    cases h
    constructor
    · exact fun hs => .inl hs
    · rintro (hs | ⟨hle, hdue, -⟩)
      · exact hs
      · exact absurd hdue.2.1 (by omega)
  | n + 1, k, seen, t, d, hk, hn, h, sig, a => by
    rw [List.range'_succ, handleLoop] at h
    by_cases hdue : t.signalPending &&& sigBit k ≠ 0 ∧ t.signalMask &&& sigBit k = 0
    · have hk' : Due t k := ⟨hk, by omega, hdue.1, hdue.2⟩
      rw [if_pos hdue] at h
      obtain ⟨b, hb⟩ := readAction_ok (t := clearPending t k) (show k < 32 by omega)
      rw [hb] at h
      have hentry : entry t k = some b := readAction_eq_ok.1 hb
      dsimp only at h
      by_cases hign : Ignored k b
      · -- It is passed over, and the loop goes on without it.
        rw [takeSignal_none.2 hign] at h
        rw [consulted_from regs stackOk n (k + 1) _ _ d (by omega) (by omega) h sig a, mem_append, mem_singleton]
        constructor
        · rintro ((hs | hs) | ⟨hle, hd, he, hall⟩)
          · exact .inl hs
          · cases hs
            exact .inr ⟨Nat.le_refl _, hk', hentry, fun j b hj hlt => absurd hlt (by omega)⟩
          · refine .inr ⟨by omega, (due_clearPending hk (by omega)).1 hd, he, fun j c hj hlt hdj hej => ?_⟩
            by_cases hjk : j = k
            · subst hjk
              rw [hentry] at hej
              cases hej
              exact hign
            · exact hall j c (by omega) hlt ((due_clearPending hk hjk).2 hdj) hej
        · rintro (hs | ⟨hle, hd, he, hall⟩)
          · exact .inl (.inl hs)
          · by_cases hsk : sig = k
            · subst hsk
              rw [hentry] at he
              cases he
              exact .inl (.inr rfl)
            · refine .inr ⟨by omega, (due_clearPending hk hsk).2 hd, he, fun j c hj hlt hdj hej => ?_⟩
              exact hall j c (by omega) hlt ((due_clearPending hk (by omega)).1 hdj) hej
      · -- It is taken: the loop ends with it.
        cases htake : takeSignal regs stackOk k b (seen ++ [(k, b)]) (clearPending t k) with
        | none => exact absurd (takeSignal_none.1 htake) hign
        | some r =>
          rw [htake] at h
          dsimp only at h
          rw [h] at htake
          rw [takeSignal_consulted htake, mem_append, mem_singleton]
          refine or_congr_right ⟨fun hs => ?_, fun hs => ?_⟩
          · cases hs
            exact ⟨Nat.le_refl _, hk', hentry, fun j b hj hlt => absurd hlt (by omega)⟩
          · obtain ⟨hle, hd, he, hall⟩ := hs
            by_cases hsk : sig = k
            · subst hsk
              rw [hentry] at he
              cases he
              rfl
            · exact absurd (hall k b (Nat.le_refl _) (by omega) hk' hentry) hign
    · rw [if_neg hdue] at h
      rw [consulted_from regs stackOk n (k + 1) _ _ d (by omega) (by omega) h sig a]
      have hnot : ¬ Due t k := fun hd => hdue hd.2.2
      refine or_congr_right ⟨fun hs => ?_, fun hs => ?_⟩ <;> obtain ⟨hle, hd, he, hall⟩ := hs
      · refine ⟨by omega, hd, he, fun j c hj hlt hdj hej => ?_⟩
        by_cases hjk : j = k
        · exact absurd (hjk ▸ hdj) hnot
        · exact hall j c (by omega) hlt hdj hej
      · have hsk : sig ≠ k := fun he => hnot (he ▸ hd)
        exact ⟨by omega, hd, he, fun j c hj => hall j c (by omega)⟩

/-- **What a look for signals carries out**: the signals that are `Next`, with the entries read for them. -/
theorem mem_consulted (h : handleSignalIfNeeded t regs stackOk = .ok d) : (sig, a) ∈ d.consulted ↔ Next t sig a := by
  unfold handleSignalIfNeeded at h
  unfold Next
  by_cases h0 : t.signalPending = 0
  · rw [if_pos h0] at h
    cases h
    refine ⟨fun hs => (by cases hs), fun ⟨hd, _⟩ => absurd hd.2.2.1 ?_⟩
    rw [h0]
    simp
  · rw [if_neg h0] at h
    rw [consulted_from regs stackOk 31 1 [] t d (by omega) (by omega) h sig a]
    constructor
    · rintro (hs | ⟨-, hd, he, hall⟩)
      · cases hs
      · exact ⟨hd, he, fun j b hlt hdj => hall j b hdj.1 hlt hdj⟩
    · rintro ⟨hd, he, hall⟩
      exact .inr ⟨hd.1, hd, he, fun j b _ hlt hdj => hall j b hlt hdj⟩

def KeepsMask (t : SigTask) (d : Delivery) : Prop :=
  (d.frame = none → d.task.signalMask = t.signalMask) ∧ ∀ f, d.frame = some f → f.sigmask = t.signalMask

theorem setupSigcontext_keepsMask (ht : t'.signalMask = t.signalMask) :
    KeepsMask t (setupSigcontext t' regs sig a stackOk seen) := by
  unfold setupSigcontext
  dsimp only
  split
  · exact ⟨fun _ => ht, fun f hf => by cases hf⟩
  · exact ⟨fun hf => (by cases hf), fun f hf => (by cases hf; exact ht)⟩

theorem takeSignal_keepsMask (h : takeSignal regs stackOk sig a seen t = some (.ok d)) : KeepsMask t d := by
  unfold takeSignal at h
  split at h
  · cases h
  split at h
  · split at h
    · cases h
    split at h
    · cases h
      exact ⟨fun _ => rfl, fun f hf => by cases hf⟩
    · cases h
      exact ⟨fun _ => rfl, fun f hf => by cases hf⟩
  split at h
  · cases hw : writeAction t sig ⟨SIG_DFL, 0, 0, 0⟩ with
    | error e =>
      rw [hw] at h
      cases h
    | ok t' =>
      rw [hw] at h
      cases h
      exact setupSigcontext_keepsMask (writeAction_same hw).mask
  · cases h
    exact setupSigcontext_keepsMask rfl

theorem handleLoop_keepsMask (regs : SyscallRegs) (stackOk : UInt64 → Bool) :
    ∀ (sigs : List Nat) (seen : List (Nat × SigAction))
    (t : SigTask) (d : Delivery), handleLoop regs stackOk sigs seen t = .ok d → KeepsMask t d
  | [], seen, t, d, h => by
    cases h
    exact ⟨fun _ => rfl, fun f hf => by cases hf⟩
  | k :: sigs, seen, t, d, h => by
    rw [handleLoop] at h
    split at h
    swap
    · exact handleLoop_keepsMask regs stackOk sigs seen t d h
    split at h
    · cases h
    · split at h
      · rename_i r htake
        rw [h] at htake
        exact takeSignal_keepsMask (t := clearPending t k) htake
      · exact handleLoop_keepsMask regs stackOk sigs _ (clearPending t k) d h

/-- **A look for signals leaves the mask** as it is, or in the frame it builds. -/
theorem look_keepsMask (h : handleSignalIfNeeded t regs stackOk = .ok d) : KeepsMask t d := by
  unfold handleSignalIfNeeded at h
  split at h
  · cases h
    exact ⟨fun _ => rfl, fun f hf => by cases hf⟩
  · exact handleLoop_keepsMask regs stackOk _ [] t d h

theorem and_sigBit {m : BitVec 32} : m &&& sigBit j ≠ 0 ↔ m.getLsbD (j - 1) = true := by
  unfold sigBit
  rw [BitVec.and_twoPow]
  by_cases hm : m.getLsbD (j - 1) = true
  · have hlt : j - 1 < 32 := BitVec.lt_of_getLsbD hm
    have hbit : (BitVec.twoPow 32 (j - 1)).getLsbD (j - 1) = true := by simp [hlt]
    rw [if_pos hm]
    refine ⟨fun _ => hm, fun _ h0 => ?_⟩
    rw [h0] at hbit
    simp at hbit
  · simp [hm]

theorem handlerMask_blocks (hfree : t.signalMask &&& sigBit sig = 0) (hj : t.signalMask &&& sigBit j ≠ 0) :
    handlerMask t sig a &&& sigBit j ≠ 0 := by
  have hne : ¬ j - 1 = sig - 1 := fun he => by
    unfold sigBit at *
    rw [he] at hj
    exact hj hfree
  rw [and_sigBit] at hj ⊢
  have hlt : j - 1 < 32 := BitVec.lt_of_getLsbD hj
  unfold handlerMask sigBit
  split
  · simp [hj]
  · simp [hj, hlt, hne]

theorem handleLoop_blocks (regs : SyscallRegs) (stackOk : UInt64 → Bool) : ∀ (sigs : List Nat)
    (seen : List (Nat × SigAction)) (t : SigTask) (d : Delivery), handleLoop regs stackOk sigs seen t = .ok d →
    t.signalMask &&& sigBit j ≠ 0 → d.task.signalMask &&& sigBit j ≠ 0
  | [], seen, t, d, h, hj => by
    cases h
    exact hj
  | k :: sigs, seen, t, d, h, hj => by
    rw [handleLoop] at h
    split at h
    swap
    · exact handleLoop_blocks regs stackOk sigs seen t d h hj
    rename_i hdue
    split at h
    · cases h
    · split at h
      · rename_i r htake
        rw [h] at htake
        rcases takeSignal_cases htake with hd | hd | ⟨t', hsame, rfl⟩
        · rw [hd]
          exact hj
        · rw [hd]
          exact hj
        · have hmask : t'.signalMask = t.signalMask := hsame.mask
          unfold setupSigcontext
          dsimp only
          split
          · rw [← hmask] at hj
            exact hj
          · exact handlerMask_blocks (by rw [hmask]; exact hdue.2) (by rw [hmask]; exact hj)
      · exact handleLoop_blocks regs stackOk sigs _ (clearPending t k) d h hj

theorem look_blocks (h : handleSignalIfNeeded t regs stackOk = .ok d) (hj : t.signalMask &&& sigBit j ≠ 0) :
    d.task.signalMask &&& sigBit j ≠ 0 := by
  unfold handleSignalIfNeeded at h
  split at h
  · cases h
    exact hj
  · exact handleLoop_blocks regs stackOk _ [] t d h hj

/-! ## The wait and the way back -/

def arrive (t : SigTask) (bits : BitVec 32) : SigTask := { t with signalPending := t.signalPending ||| bits }

/-- The loop of `sys_rt_sigsuspend`: the signals that arrive at each `task_yield`, up to the turn that ends it. -/
def sigsuspendWait : List (BitVec 32) → SigTask → Option SigTask
  | [], t => if (sigsuspendPoll t).suspendMask = none then some (sigsuspendPoll t) else none
  | bits :: arrivals, t =>
    if (sigsuspendPoll t).suspendMask = none then some (sigsuspendPoll t) else sigsuspendWait arrivals (arrive t bits)

/-- The way back to user mode, with the state of the task at each look: `syscall_handler` looks once, `syscall_entry` once
more, unless the first one ended the task; `late` are the signals that arrive in between. -/
def wayBack (t : SigTask) (regs : SyscallRegs) (stackOk : UInt64 → Bool) (late : BitVec 32) :
    Except Fault (List (SigTask × Delivery)) := do
  let d ← handleSignalIfNeeded t regs stackOk
  if d.task.state = .dead then return [(t, d)]
  else
    let d' ← handleSignalIfNeeded (arrive d.task late) d.regs stackOk
    return [(t, d), (arrive d.task late, d')]

def Waited (mask : UInt64) (t : SigTask) (sig : Nat) : Prop :=
  t.signalPending &&& sigBit sig ≠ 0 ∧ (BitVec.ofNat 32 mask.toNat &&& ~~~unblockable) &&& sigBit sig = 0

/-- After the handlers the mask is the old one: the outermost frame has it, or there was no handler. -/
structure MaskBack (old : BitVec 32) (looks : List (SigTask × Delivery)) : Prop where
  handler : ∀ f, (looks.filterMap (·.2.frame)).head? = some f → ∀ u regs, (sysRtSigreturn u regs (some f)).1.signalMask = old
  plain : looks.filterMap (·.2.frame) = [] → ∀ look ∈ looks, look.2.task.signalMask = old

/-- **What `sigsuspend` promises**: when it returns, the action registered for a signal it waited for is carried out before
the task is back in user mode, and then the mask is what it was before the call. -/
def Honoured (t : SigTask) (mask : UInt64) (arrivals : List (BitVec 32)) (late late' : BitVec 32) (regs : SyscallRegs)
    (stackOk : UInt64 → Bool) : Prop :=
  ∀ t' looks, sigsuspendWait arrivals (sysRtSigsuspend t mask) = some t' →
    wayBack (arrive t' late) regs stackOk late' = .ok looks →
    (∃ look ∈ looks, ∃ sig a, Waited mask t' sig ∧ entry t (sig - 1) = some a ∧ (sig, a) ∈ look.2.consulted) ∧
    MaskBack t.signalMask looks

/-- A turn that ends the wait puts the old mask back, and a signal is pending that was waited for. -/
theorem poll_spec {old : BitVec 32} (hold : t.suspendMask = some old) :
    ((sigsuspendPoll t).suspendMask = none → (sigsuspendPoll t).signalMask = old ∧
      (sigsuspendPoll t).signalPending &&& ~~~t.signalMask ≠ 0) ∧ ∀ i, entry (sigsuspendPoll t) i = entry t i := by
  unfold sigsuspendPoll
  rw [hold]
  dsimp only
  split
  · rename_i hp
    exact ⟨fun _ => ⟨rfl, hp⟩, fun _ => rfl⟩
  · refine ⟨fun hn => ?_, fun _ => rfl⟩
    rw [hold] at hn
    cases hn

theorem wait_spec : ∀ (arrivals : List (BitVec 32)) {t t' : SigTask} {old : BitVec 32}, t.suspendMask = some old →
    sigsuspendWait arrivals t = some t' → t'.signalMask = old ∧ t'.signalPending &&& ~~~t.signalMask ≠ 0 ∧
    ∀ i, entry t' i = entry t i
  | [], t, t', old, hold, h => by
    obtain ⟨hend, hentry⟩ := poll_spec hold
    unfold sigsuspendWait at h
    split at h
    · rename_i hn
      cases h
      exact ⟨(hend hn).1, (hend hn).2, hentry⟩
    · cases h
  | bits :: arrivals, t, t', old, hold, h => by
    obtain ⟨hend, hentry⟩ := poll_spec hold
    unfold sigsuspendWait at h
    split at h
    · rename_i hn
      cases h
      exact ⟨(hend hn).1, (hend hn).2, hentry⟩
    · exact wait_spec arrivals (t := arrive t bits) hold h

variable {late : BitVec 32} {looks : List (SigTask × Delivery)}

theorem wayBack_eq (h : wayBack t regs stackOk late = .ok looks) :
    (∃ d, handleSignalIfNeeded t regs stackOk = .ok d ∧ looks = [(t, d)]) ∨
    ∃ d d', handleSignalIfNeeded t regs stackOk = .ok d ∧
      handleSignalIfNeeded (arrive d.task late) d.regs stackOk = .ok d' ∧ looks = [(t, d), (arrive d.task late, d')] := by
  unfold wayBack at h
  obtain ⟨d, hd⟩ := handleSignalIfNeeded_ok t regs stackOk
  rw [hd] at h
  by_cases hdead : d.task.state = .dead
  · simp only [bind, Except.bind, hdead, if_true, pure, Except.pure] at h
    cases h
    exact .inl ⟨d, hd, rfl⟩
  · obtain ⟨d', hd'⟩ := handleSignalIfNeeded_ok (arrive d.task late) d.regs stackOk
    simp only [bind, Except.bind, hdead, if_false, hd', pure, Except.pure] at h
    cases h
    exact .inr ⟨d, d', hd, hd', rfl⟩

theorem wayBack_look (h : wayBack t regs stackOk late = .ok looks) :
    ∀ look ∈ looks, ∃ r, handleSignalIfNeeded look.1 r stackOk = .ok look.2 := by
  rcases wayBack_eq h with ⟨d, hd, rfl⟩ | ⟨d, d', hd, hd', rfl⟩
  · intro look hl
    rw [mem_singleton.1 hl]
    exact ⟨regs, hd⟩
  · intro look hl
    rcases mem_cons.1 hl with rfl | hl
    · exact ⟨regs, hd⟩
    · rw [mem_singleton.1 hl]
      exact ⟨d.regs, hd'⟩

/-- **The old mask comes back** in any case. -/
theorem wayBack_maskBack (h : wayBack t regs stackOk late = .ok looks) : MaskBack t.signalMask looks := by
  rcases wayBack_eq h with ⟨d, hd, rfl⟩ | ⟨d, d', hd, hd', rfl⟩
  · have hk := look_keepsMask hd
    cases hf : d.frame with
    | none =>
      refine ⟨fun f hh => ?_, fun _ look hl => ?_⟩
      · simp [hf] at hh
      · rw [mem_singleton.1 hl]
        exact hk.1 hf
    | some f =>
      refine ⟨fun g hh u r => ?_, fun hn => ?_⟩
      · simp only [filterMap_cons, hf, List.head?_cons, Option.some.injEq] at hh
        subst hh
        exact hk.2 f hf
      · simp [hf] at hn
  · have hk := look_keepsMask hd
    have hk' := look_keepsMask hd'
    cases hf : d.frame with
    | none =>
      have hm : (arrive d.task late).signalMask = t.signalMask := hk.1 hf
      refine ⟨fun g hh u r => ?_, fun hn look hl => ?_⟩
      · simp only [filterMap_cons, hf, filterMap_nil] at hh
        cases hf' : d'.frame with
        | none => simp [hf'] at hh
        | some g' =>
          simp only [hf', List.head?_cons, Option.some.injEq] at hh
          subst hh
          exact (hk'.2 g' hf').trans hm
      · rcases mem_cons.1 hl with rfl | hl
        · exact hm
        · rw [mem_singleton.1 hl]
          refine (hk'.1 ?_).trans hm
          simpa [hf] using hn
    | some f =>
      refine ⟨fun g hh u r => ?_, fun hn => ?_⟩
      · simp only [filterMap_cons, hf, List.head?_cons, Option.some.injEq] at hh
        subst hh
        exact hk.2 f hf
      · simp [hf] at hn

/-- **When `sigsuspend` delivers a signal it waited for**: in the state of one of the looks that follow, such a signal is
due, everything due before it is ignored, and the entry read for it holds the action registered for it. -/
theorem sigsuspend_honoured_iff (t : SigTask) (mask : UInt64) (arrivals : List (BitVec 32)) (late late' : BitVec 32)
    (regs : SyscallRegs) (stackOk : UInt64 → Bool) :
    Honoured t mask arrivals late late' regs stackOk ↔
    ∀ t' looks, sigsuspendWait arrivals (sysRtSigsuspend t mask) = some t' →
      wayBack (arrive t' late) regs stackOk late' = .ok looks →
      ∃ look ∈ looks, ∃ sig a, Waited mask t' sig ∧ entry t (sig - 1) = some a ∧ Next look.1 sig a := by
  unfold Honoured
  refine forall_congr' fun t' => forall_congr' fun looks => forall_congr' fun hw => forall_congr' fun hb => ?_
  have hmask : t'.signalMask = t.signalMask := (wait_spec arrivals rfl hw).1
  have hback : MaskBack t.signalMask looks := by
    rw [← hmask]
    exact wayBack_maskBack (t := arrive t' late) hb
  rw [and_iff_left hback]
  refine exists_congr fun look => and_congr_right fun hl => ?_
  obtain ⟨r, hr⟩ := wayBack_look hb look hl
  refine exists_congr fun sig => exists_congr fun a => and_congr_right fun _ => and_congr_right fun _ => ?_
  exact mem_consulted hr

/-- **A signal that the old mask blocks is never delivered**: where all that was waited for is blocked by it, the wait ends
and nothing is carried out. -/
theorem not_honoured_of_blocked {mask : UInt64} {arrivals : List (BitVec 32)} {late' : BitVec 32}
    (hw : sigsuspendWait arrivals (sysRtSigsuspend t mask) = some t')
    (hblocked : ∀ sig, Waited mask t' sig → t.signalMask &&& sigBit sig ≠ 0) :
    ¬ Honoured t mask arrivals late late' regs stackOk := by
  intro h
  have hmask : (arrive t' late).signalMask = t.signalMask := (wait_spec arrivals rfl hw).1
  have hlook : ∀ looks, wayBack (arrive t' late) regs stackOk late' = .ok looks → ∀ look ∈ looks, ∀ j,
      t.signalMask &&& sigBit j ≠ 0 → look.1.signalMask &&& sigBit j ≠ 0 := by
    intro looks hb look hl j hj
    rw [← hmask] at hj
    rcases wayBack_eq hb with ⟨d, hd, rfl⟩ | ⟨d, d', hd, -, rfl⟩
    · rw [mem_singleton.1 hl]
      exact hj
    · rcases mem_cons.1 hl with rfl | hl
      · exact hj
      · rw [mem_singleton.1 hl]
        exact look_blocks hd hj
  obtain ⟨looks, hb⟩ : ∃ looks, wayBack (arrive t' late) regs stackOk late' = .ok looks := by
    unfold wayBack
    obtain ⟨d, hd⟩ := handleSignalIfNeeded_ok (arrive t' late) regs stackOk
    obtain ⟨d', hd'⟩ := handleSignalIfNeeded_ok (arrive d.task late') d.regs stackOk
    rw [hd]
    by_cases hdead : d.task.state = .dead
    · exact ⟨[(arrive t' late, d)], by simp only [bind, Except.bind, hdead, if_true]; rfl⟩
    · exact ⟨[(arrive t' late, d), (arrive d.task late', d')], by simp only [bind, Except.bind, hdead, if_false, hd']; rfl⟩
  obtain ⟨look, hl, sig, a, hwait, -, hs⟩ := (h t' looks hw hb).1
  obtain ⟨r, hr⟩ := wayBack_look hb look hl
  exact hlook looks hb look hl sig (hblocked sig hwait) ((mem_consulted hr).1 hs).1.2.2.2

/-- `SIGUSR1` is blocked and let through by the temporary mask: it arrives while the task waits. -/
theorem blocked_signal_lost :
    ¬ Honoured { freshSigTask with signalMask := sigBit SIGUSR1 } 0 [sigBit SIGUSR1] 0 0 {} (fun _ => true) := by
  intro h
  obtain ⟨look, hl, sig, a, -, -, hs⟩ := (h _ _ rfl rfl).1
  rcases mem_cons.1 hl with rfl | hl
  · cases hs
  · rw [mem_singleton.1 hl] at hs
    cases hs

end EterOS.Syscall
