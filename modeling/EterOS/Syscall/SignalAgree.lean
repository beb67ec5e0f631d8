import EterOS.Syscall.Signal
/-!
# SignalAgree — which registered action a delivery uses

After any sequence of registrations and sent signals, entry `i` of the action arrays holds the action last registered
for `i + 1` (`readAction_runSig`), and a delivery of `sig` reads entry `sig` (`consulted_handleLoop`).  So the delivery
agrees with the registration of `sig` just where that of `sig + 1` left the same action.
-/
namespace EterOS.Syscall

/-- What may happen to a task before its next delivery: a registration of its own, a signal sent to it. -/
inductive SigOp where
  | sigaction (sig : Int) (act : Option KernelSigaction) (wantOld : Bool) (sigsetsize : UInt64) (oldOk actOk : Bool)
  | kill (sig : Nat)

def sigOpStep (t : SigTask) : SigOp → Except Fault SigTask
  | .sigaction sig act wantOld size oldOk actOk => (sysRtSigaction t sig act wantOld size oldOk actOk).map (·.1)
  | .kill sig =>
    if sig = SIGKILL ∨ sig = SIGTERM then .ok (killMark t)
    else if 1 ≤ sig ∧ sig ≤ 31 then .ok (signalMark t sig)
    else .ok t

def runSig (t : SigTask) (ops : List SigOp) : Except Fault SigTask := ops.foldlM sigOpStep t

/-- The checks of `sys_rt_sigaction` before it touches an array. -/
def accepts (sig : Int) (wantOld : Bool) (size : UInt64) (oldOk : Bool) : Bool :=
  size == 8 && decide (1 ≤ sig) && decide (sig ≤ 64) && decide (sig ≠ SIGKILL) && decide (sig ≠ SIGSTOP) &&
    (!wantOld || oldOk)

/-- The action an accepted registration stores for `sig`. -/
def SigOp.storedFor (sig : Nat) : SigOp → Option SigAction
  | .sigaction s (some a) wantOld size oldOk actOk =>
    if accepts s wantOld size oldOk ∧ actOk ∧ s = sig then some (storedAction a) else none
  | _ => none

def SigOp.touches : SigOp → Bool
  | .sigaction s act wantOld size oldOk actOk => accepts s wantOld size oldOk && (wantOld || (act.isSome && actOk))
  | .kill _ => false

def SigOp.sig : SigOp → Nat
  | .sigaction s .. => s.toNat
  | .kill s => s

def registered (sig : Nat) : List SigOp → Option SigAction
  | [] => none
  | op :: ops => (registered sig ops).or (op.storedFor sig)

/-! ## Registration -/

variable {t : SigTask} {i : Nat}

theorem readAction_ok (h : i < 32) : ∃ a, readAction t i = .ok a := by
  unfold readAction
  rw [dif_pos h]
  exact ⟨_, rfl⟩

theorem readAction_error (h : ¬ i < 32) : readAction t i = .error (.outOfBounds i) := by
  unfold readAction
  rw [dif_neg h]

variable {a : SigAction}

theorem writeAction_error (h : ¬ i < 32) : writeAction t i a = .error (.outOfBounds i) := by
  unfold writeAction
  rw [dif_neg h]

variable {t' : SigTask}

theorem readAction_writeAction (h : writeAction t i a = .ok t') (j : Nat) :
    readAction t' j = if j = i then .ok a else readAction t j := by
  unfold writeAction at h
  split at h
  · rename_i hi
    simp only [Except.ok.injEq] at h
    subst h
    unfold readAction
    by_cases hj : j = i
    · subst hj
      simp [hi]
    · rw [if_neg hj]
      by_cases hj32 : j < 32
      · simp [hj32, Ne.symm hj]
      · simp [hj32]
  · cases h

theorem accepts_pos {sig : Int} {wantOld oldOk : Bool} {size : UInt64} (h : accepts sig wantOld size oldOk = true) :
    1 ≤ sig := by
  simp only [accepts, Bool.and_eq_true, decide_eq_true_eq] at h
  exact h.1.1.1.1.2

/-- **What `sys_rt_sigaction` does**, in one line for the calls its checks refuse and one for the others. -/
theorem sysRtSigaction_eq (t : SigTask) (sig : Int) (act : Option KernelSigaction) (wantOld : Bool) (size : UInt64)
    (oldOk actOk : Bool) :
    (sysRtSigaction t sig act wantOld size oldOk actOk).map (·.1) = if accepts sig wantOld size oldOk = true then
        match act, actOk with
        | some a, true =>
          if wantOld then readAction t (sig.toNat - 1) >>= fun _ => writeAction t (sig.toNat - 1) (storedAction a)
          else writeAction t (sig.toNat - 1) (storedAction a)
        | _, _ => if wantOld then (readAction t (sig.toNat - 1)).map (fun _ => t) else .ok t
      else .ok t := by
  unfold sysRtSigaction accepts
  by_cases hs : size = 8
  swap
  · simp [hs, Except.map, pure, Except.pure]
  by_cases h1 : sig < 1 ∨ sig > 64
  · have : ¬ (1 ≤ sig ∧ sig ≤ 64) := by omega
    simp only [not_and] at this
    by_cases h1' : 1 ≤ sig
    · simp [hs, h1, h1', this h1', Except.map, pure, Except.pure]
    · simp [hs, h1, h1', Except.map, pure, Except.pure]
  have h1a : 1 ≤ sig ∧ sig ≤ 64 := by omega
  by_cases h2 : sig = SIGKILL ∨ sig = SIGSTOP
  · rcases h2 with h2 | h2
    all_goals simp [hs, h2, SIGKILL, SIGSTOP, Except.map, pure, Except.pure]
  obtain ⟨h2a, h2b⟩ := not_or.1 h2
  cases wantOld <;> cases oldOk <;> cases act <;> cases actOk <;> cases readAction t (sig.toNat - 1) <;>
    simp [hs, h1, h1a, h2a, h2b, Except.map, pure, Except.pure, bind, Except.bind]
  all_goals cases writeAction t (sig.toNat - 1) (storedAction _) <;> rfl

/-- Entry `i` of the action arrays, where there is one. -/
def entry (t : SigTask) (i : Nat) : Option SigAction := (readAction t i).toOption

theorem readAction_eq_ok : readAction t i = .ok a ↔ entry t i = some a := by
  unfold entry
  cases readAction t i <;> simp [Except.toOption]

theorem entry_writeAction (h : writeAction t i a = .ok t') (j : Nat) : entry t' j = if j = i then some a else entry t j := by
  unfold entry
  rw [readAction_writeAction h j]
  split <;> rfl

theorem writeAction_ok_iff : (∃ t', writeAction t i a = .ok t') ↔ i < 32 := by
  constructor
  · rintro ⟨t', h⟩
    by_contra hi
    rw [writeAction_error hi] at h
    cases h
  · intro hi
    unfold writeAction
    rw [dif_pos hi]
    exact ⟨_, rfl⟩

theorem killMark_entry (t : SigTask) (i : Nat) : entry (killMark t) i = entry t i := rfl

theorem signalMark_entry (t : SigTask) (sig i : Nat) : entry (signalMark t sig) i = entry t i := rfl

theorem sigOpStep_kill (t : SigTask) (sig : Nat) : ∃ t', sigOpStep t (.kill sig) = .ok t' ∧ ∀ i, entry t' i = entry t i := by
  simp only [sigOpStep]
  split
  · exact ⟨_, rfl, killMark_entry t⟩
  · split
    · exact ⟨_, rfl, signalMark_entry t sig⟩
    · exact ⟨_, rfl, fun _ => rfl⟩

theorem sigOpStep_ok_iff (t : SigTask) (op : SigOp) :
    (∃ t', sigOpStep t op = .ok t') ↔ (op.touches = true → op.sig ≤ 32) := by
  cases op with
  | kill sig =>
    obtain ⟨t', h, -⟩ := sigOpStep_kill t sig
    exact ⟨fun _ ht => by simp [SigOp.touches] at ht, fun _ => ⟨t', h⟩⟩
  | sigaction sig act wantOld size oldOk actOk =>
    simp only [sigOpStep, sysRtSigaction_eq, SigOp.touches, SigOp.sig]
    by_cases hacc : accepts sig wantOld size oldOk = true
    swap
    · simp [hacc]
    have hpos := accepts_pos hacc
    have hidx : sig.toNat ≤ 32 ↔ sig.toNat - 1 < 32 := by omega
    rw [if_pos hacc, hidx]
    by_cases hi : sig.toNat - 1 < 32
    · obtain ⟨r, hr⟩ := readAction_ok (t := t) hi
      have hw := fun a => (writeAction_ok_iff (t := t) (a := a)).2 hi
      cases act <;> cases actOk <;> cases wantOld <;> simp [hi, hr, Except.map, bind, Except.bind, hw]
    · have hr := readAction_error (t := t) hi
      have hw := fun a => writeAction_error (t := t) (a := a) hi
      cases act <;> cases actOk <;> cases wantOld <;> simp [hi, hacc, hr, hw, Except.map, bind, Except.bind]

theorem entry_sigOpStep {op : SigOp} (h : sigOpStep t op = .ok t') (i : Nat) :
    entry t' i = (op.storedFor (i + 1)).or (entry t i) := by
  cases op with
  | kill sig =>
    obtain ⟨t1, h₁, he⟩ := sigOpStep_kill t sig
    rw [h₁, Except.ok.injEq] at h
    subst h
    simpa [SigOp.storedFor] using he i
  | sigaction sig act wantOld size oldOk actOk =>
    simp only [sigOpStep, sysRtSigaction_eq] at h
    by_cases hacc : accepts sig wantOld size oldOk = true
    swap
    · rw [if_neg hacc, Except.ok.injEq] at h
      subst h
      cases act <;> simp [SigOp.storedFor, hacc]
    have hpos := accepts_pos hacc
    rw [if_pos hacc] at h
    -- the two shapes of an accepted call: it stores, or it only reads
    have hstore : ∀ a, writeAction t (sig.toNat - 1) (storedAction a) = .ok t' →
        entry t' i = (SigOp.storedFor (i + 1) (.sigaction sig (some a) wantOld size oldOk true)).or (entry t i) := by
      intro a hw
      rw [entry_writeAction hw]
      by_cases hi : i = sig.toNat - 1
      · have : sig = ((i + 1 : Nat) : Int) := by omega
        rw [if_pos hi, SigOp.storedFor, if_pos ⟨hacc, rfl, this⟩, Option.some_or]
      · have : ¬ sig = ((i + 1 : Nat) : Int) := by omega
        simp only [SigOp.storedFor, hi, this, and_false, if_false, Option.none_or]
    have hread : t' = t → SigOp.storedFor (i + 1) (.sigaction sig act wantOld size oldOk actOk) = none →
        entry t' i = (SigOp.storedFor (i + 1) (.sigaction sig act wantOld size oldOk actOk)).or (entry t i) := by
      intro ht hn
      rw [ht, hn, Option.none_or]
    cases hr : readAction t (sig.toNat - 1) <;> cases act <;> cases actOk <;> cases wantOld <;>
      simp only [hr, Except.map, bind, Except.bind, if_true, if_false, Bool.false_eq_true, reduceCtorEq,
        Except.ok.injEq] at h
    all_goals first
      | exact hstore _ h
      | exact hread h.symm (by simp [SigOp.storedFor])

theorem runSig_cons (t : SigTask) (op : SigOp) (ops : List SigOp) :
    runSig t (op :: ops) = sigOpStep t op >>= fun t' => runSig t' ops := by
  simp [runSig]

theorem runSig_ok_iff : ∀ (ops : List SigOp) (t : SigTask), (∃ t', runSig t ops = .ok t') ↔ ∀ op ∈ ops, op.touches = true →
    op.sig ≤ 32
  | [], t => by simp [runSig, pure, Except.pure]
  | op :: ops, t => by
    rw [List.forall_mem_cons, ← sigOpStep_ok_iff t op, runSig_cons]
    cases h : sigOpStep t op with
    | error e => simp [bind, Except.bind]
    | ok t1 =>
      simp only [bind, Except.bind, Except.ok.injEq, exists_eq', true_and]
      exact runSig_ok_iff ops t1

/-- **Entry `i` holds the action last registered for `i + 1`.** -/
theorem entry_runSig : ∀ (ops : List SigOp) {t t' : SigTask}, runSig t ops = .ok t' → ∀ i,
    entry t' i = (registered (i + 1) ops).or (entry t i)
  | [], t, t', h, i => by
    simp only [runSig, List.foldlM_nil, pure, Except.pure, Except.ok.injEq] at h
    subst h
    simp [registered]
  | op :: ops, t, t', h, i => by
    rw [runSig_cons] at h
    cases h₁ : sigOpStep t op with
    | error e => rw [h₁] at h; cases h
    | ok t1 =>
      rw [h₁] at h
      rw [entry_runSig ops h i, entry_sigOpStep h₁ i, registered, Option.or_assoc]

/-! ## Delivery -/

theorem setupSigcontext_consulted (t : SigTask) (regs : SyscallRegs) (sig : Nat) (a : SigAction)
    (stackOk : UInt64 → Bool) (seen : List (Nat × SigAction)) :
    (setupSigcontext t regs sig a stackOk seen).consulted = seen := by
  unfold setupSigcontext
  dsimp only
  split <;> rfl

variable {regs : SyscallRegs} {stackOk : UInt64 → Bool}

theorem takeSignal_consulted {sig : Nat} {seen : List (Nat × SigAction)} {d : Delivery}
    (h : takeSignal regs stackOk sig a seen t = some (.ok d)) : d.consulted = seen := by
  unfold takeSignal at h
  split at h
  · cases h
  split at h
  · split at h
    · cases h
    split at h <;> cases h <;> rfl
  split at h
  · cases hw : writeAction t sig ⟨SIG_DFL, 0, 0, 0⟩ with
    | error e => rw [hw] at h; cases h
    | ok t' =>
      rw [hw] at h
      cases h
      exact setupSigcontext_consulted ..
  · cases h
    exact setupSigcontext_consulted ..

theorem takeSignal_ok {sig : Nat} {seen : List (Nat × SigAction)} {r : Except Fault Delivery} (hsig : sig < 32)
    (h : takeSignal regs stackOk sig a seen t = some r) : ∃ d, r = .ok d := by
  unfold takeSignal at h
  split at h
  · cases h
  split at h
  · split at h
    · cases h
    split at h <;> cases h <;> exact ⟨_, rfl⟩
  split at h
  · obtain ⟨t', ht'⟩ := (writeAction_ok_iff (t := t) (a := ⟨SIG_DFL, 0, 0, 0⟩)).2 hsig
    rw [ht'] at h
    cases h
    exact ⟨_, rfl⟩
  · cases h
    exact ⟨_, rfl⟩

theorem entry_clearPending (t : SigTask) (sig i : Nat) : entry (clearPending t sig) i = entry t i := rfl

theorem consulted_handleLoop (regs : SyscallRegs) (stackOk : UInt64 → Bool) :
    ∀ (sigs : List Nat) (seen : List (Nat × SigAction)) (t : SigTask) (d : Delivery),
    handleLoop regs stackOk sigs seen t = .ok d →
        ∀ p ∈ d.consulted, p ∈ seen ∨ entry t p.1 = some p.2
  | [], seen, t, d, h => by
    simp only [handleLoop, Except.ok.injEq] at h
    subst h
    exact fun p hp => .inl hp
  | sig :: sigs, seen, t, d, h => by
    rw [handleLoop] at h
    split at h
    swap
    · exact consulted_handleLoop regs stackOk sigs seen t d h
    split at h
    · cases h
    · rename_i a hr
      rw [readAction_eq_ok, entry_clearPending] at hr
      have hseen : ∀ p ∈ seen ++ [(sig, a)], p ∈ seen ∨ entry t p.1 = some p.2 := by
        intro p hp
        rcases List.mem_append.1 hp with hp | hp
        · exact .inl hp
        · rw [List.mem_singleton.1 hp]
          exact .inr hr
      intro p hp
      split at h
      · rename_i r hr'
        rw [h] at hr'
        rw [takeSignal_consulted hr'] at hp
        exact hseen p hp
      · rcases consulted_handleLoop regs stackOk sigs _ _ d h p hp with hp | hp
        · exact hseen p hp
        · exact .inr hp

theorem handleLoop_ok (regs : SyscallRegs) (stackOk : UInt64 → Bool) :
    ∀ (sigs : List Nat), (∀ s ∈ sigs, s < 32) → ∀ (seen : List (Nat × SigAction)) (t : SigTask),
      ∃ d, handleLoop regs stackOk sigs seen t = .ok d
  | [], _, seen, t => ⟨_, rfl⟩
  | sig :: sigs, hs, seen, t => by
    obtain ⟨hsig, hs⟩ := List.forall_mem_cons.1 hs
    rw [handleLoop]
    split
    swap
    · exact handleLoop_ok regs stackOk sigs hs seen t
    obtain ⟨a, ha⟩ := readAction_ok (t := clearPending t sig) hsig
    rw [ha]
    dsimp only
    split
    · exact takeSignal_ok hsig ‹_›
    · exact handleLoop_ok regs stackOk sigs hs _ _

theorem handleSignalIfNeeded_ok (t : SigTask) (regs : SyscallRegs) (stackOk : UInt64 → Bool) :
    ∃ d, handleSignalIfNeeded t regs stackOk = .ok d := by
  unfold handleSignalIfNeeded
  split
  · exact ⟨_, rfl⟩
  · exact handleLoop_ok regs stackOk _ (fun s hs => by simp at hs; omega) [] t

theorem consulted_handleSignalIfNeeded {d : Delivery}
    (h : handleSignalIfNeeded t regs stackOk = .ok d) : ∀ p ∈ d.consulted, entry t p.1 = some p.2 := by
  unfold handleSignalIfNeeded at h
  split at h
  · simp only [Except.ok.injEq] at h
    subst h
    simp
  · intro p hp
    rcases consulted_handleLoop regs stackOk _ [] t d h p hp with hp | hp
    · simp at hp
    · exact hp

/-- **Registration and delivery agree only by coincidence.**  A run of registrations and sent signals stays inside the
action arrays just when no accepted registration that reads or writes one is for a signal above 32; delivery always
stays inside; and a delivery of `sig` uses the action last registered for `sig` just when the action last registered
for `sig + 1`, or the entry `sig` the task started with if there was none, is the same. -/
theorem delivery_agrees_iff (t : SigTask) (ops : List SigOp) :
    ((∃ t', runSig t ops = .ok t') ↔ ∀ op ∈ ops, op.touches = true → op.sig ≤ 32) ∧
    ∀ t', runSig t ops = .ok t' → ∀ regs stackOk, ∃ d, handleSignalIfNeeded t' regs stackOk = .ok d ∧
      ∀ sig a b, registered sig ops = some a → (sig, b) ∈ d.consulted →
        (b = a ↔ (registered (sig + 1) ops).or (entry t sig) = some a) := by
  refine ⟨runSig_ok_iff ops t, fun t' ht' regs stackOk => ?_⟩
  obtain ⟨d, hd⟩ := handleSignalIfNeeded_ok t' regs stackOk
  refine ⟨d, hd, fun sig a b _ hb => ?_⟩
  have hent : entry t' sig = some b := consulted_handleSignalIfNeeded hd (sig, b) hb
  rw [← entry_runSig ops ht' sig, hent, Option.some.injEq]

def freshSigTask : SigTask where
  id := 5
  tgid := 5
  uid := 1000
  name := "sh"
  state := .running
  signalMask := 0
  signalPending := 0
  signalHandlers := Vector.replicate 32 0
  signalRestorers := Vector.replicate 32 0
  signalFlags := Vector.replicate 32 0
  signalActionMasks := Vector.replicate 32 0
  sigaltstackSp := 0
  sigaltstackSize := 0
  sigaltstackFlags := SS_DISABLE
  userRsp := 0x7FFFFFFFE000
  exitCode := 0
  waitStatus := 0
  waitCode := 0
  waitPending := false
  suspendMask := none

def register (sig : Int) (handler : UInt64) : SigOp := .sigaction sig (some ⟨handler, 0, 0, 0⟩) false 8 true true

/-- The same handler for 10 and 11, then signal 10: the delivery uses it. -/
theorem delivery_agrees_same_handler :
    ∃ t' d, runSig freshSigTask [register 10 0x1000, register 11 0x1000, .kill 10] = .ok t' ∧
      handleSignalIfNeeded t' {} (fun _ => true) = .ok d ∧
      ∀ b, (10, b) ∈ d.consulted → b = ⟨0x1000, 0, 0, 0⟩ := by
  have h := delivery_agrees_iff freshSigTask [register 10 0x1000, register 11 0x1000, .kill 10]
  obtain ⟨t', ht'⟩ := h.1.2 (by decide)
  obtain ⟨d, hd, hag⟩ := h.2 t' ht' {} (fun _ => true)
  exact ⟨t', d, ht', hd, fun b hb => (hag 10 ⟨0x1000, 0, 0, 0⟩ b (by decide) hb).2 (by decide)⟩

/-- A handler registered for `SIGUSR1` alone: the delivery of `SIGUSR1` uses the default of the next entry. -/
theorem registered_usr1_not_delivered :
    ¬ ∀ t' d, runSig freshSigTask [register 10 0x1000, .kill 10] = .ok t' →
      handleSignalIfNeeded t' {} (fun _ => true) = .ok d →
      ∀ a b, registered 10 [register 10 0x1000, .kill 10] = some a → (10, b) ∈ d.consulted → b = a := by
  intro h
  have := h _ _ rfl rfl ⟨0x1000, 0, 0, 0⟩ ⟨0, 0, 0, 0⟩ (by decide) (by decide)
  exact absurd this (by decide)

end EterOS.Syscall
