import EterOS.Lib.Pushed
import EterOS.Lib.Run
import EterOS.Syscall.Signal
/-!
# SigFrames — the frames of signal handlers as a stack in user memory

`setup_sigcontext` writes 440 bytes below the interrupted stack pointer, or at the top of the alternate stack, and
`sys_rt_sigreturn` reads them back.  The frames of handlers that have not returned lie apart from each other as long as
each of them stays inside the stack it was built for; the alternate stack has room for the first one, and nothing is checked
for those that follow.
-/
namespace EterOS.Syscall

open Buffer

/-! ## The frame's bytes -/

def regWords (r : SyscallRegs) : List Nat :=
  [r.r15.toNat, r.r14.toNat, r.r13.toNat, r.r12.toNat, r.r11.toNat, r.r10.toNat, r.r9.toNat, r.r8.toNat, r.rbp.toNat,
    r.rdi.toNat, r.rsi.toNat, r.rdx.toNat, r.rcx.toNat, r.rbx.toNat, r.rax.toNat]

/-- `struct sigframe` as words: the restorer, `siginfo_t`, the context and its mask, and what a return restores.  The
signal mask and the alternate stack's flags share the last one. -/
def frameWords (f : SigFrame) : List Nat :=
  [f.restorer.toNat, f.siSigno] ++ List.replicate 20 0 ++ regWords f.ucMcontext ++ [f.ucSigmask.toNat] ++ regWords f.regs ++
    [f.userRsp.toNat, f.sigmask.toNat + 2 ^ 32 * f.ssFlagsPrev.toNat]

/-- The 64-bit field `i` of what lies at `a`. -/
def word64 (m : Buffer) (a i : Nat) : UInt64 := UInt64.ofNat (m.le (a + 8 * i) 8)

def readRegs (m : Buffer) (a : Nat) : SyscallRegs :=
  ⟨word64 m a 0, word64 m a 1, word64 m a 2, word64 m a 3, word64 m a 4, word64 m a 5, word64 m a 6, word64 m a 7,
    word64 m a 8, word64 m a 9, word64 m a 10, word64 m a 11, word64 m a 12, word64 m a 13, word64 m a 14⟩

def readFrame (m : Buffer) (a : Nat) : SigFrame where
  restorer := word64 m a 0
  siSigno := m.le (a + 8) 8 % 2 ^ 32
  ucMcontext := readRegs m (a + 176)
  ucSigmask := BitVec.ofNat 32 (m.le (a + 296) 8)
  regs := readRegs m (a + 304)
  userRsp := word64 m a 53
  sigmask := BitVec.ofNat 32 (m.le (a + 432) 8)
  ssFlagsPrev := UInt32.ofNat (m.le (a + 432) 8 / 2 ^ 32)

variable {m : Buffer}

theorem readRegs_of_hasWords {a : Nat} {r : SyscallRegs} (h : HasWords m a (regWords r)) : readRegs m a = r := by
  have hw : ∀ i < 15, word64 m a i = UInt64.ofNat ((regWords r).getD i 0) := fun i hi => by
    rw [word64, hasWords_getD h i hi]
  unfold readRegs
  rw [hw 0 (by decide), hw 1 (by decide), hw 2 (by decide), hw 3 (by decide), hw 4 (by decide), hw 5 (by decide),
    hw 6 (by decide), hw 7 (by decide), hw 8 (by decide), hw 9 (by decide), hw 10 (by decide), hw 11 (by decide),
    hw 12 (by decide), hw 13 (by decide), hw 14 (by decide)]
  simp [regWords]

theorem readFrame_of_hasWords {a : Nat} {f : SigFrame} (hsig : f.siSigno < 2 ^ 32) (h : HasWords m a (frameWords f)) :
    readFrame m a = f := by
  have hw : ∀ i < 55, m.le (a + 8 * i) 8 = (frameWords f).getD i 0 := hasWords_getD h
  have hcontext : readRegs m (a + 8 * 22) = f.ucMcontext :=
    readRegs_of_hasWords (HasWords.take (n := 15) (HasWords.drop (n := 22) h))
  have hregs : readRegs m (a + 8 * 38) = f.regs := readRegs_of_hasWords (HasWords.take (n := 15) (HasWords.drop (n := 38) h))
  have hmask := f.sigmask.isLt
  have hlast : (f.sigmask.toNat + 2 ^ 32 * f.ssFlagsPrev.toNat) / 2 ^ 32 = f.ssFlagsPrev.toNat := by omega
  have hlow : BitVec.ofNat 32 (f.sigmask.toNat + 2 ^ 32 * f.ssFlagsPrev.toNat) = f.sigmask := by
    apply BitVec.eq_of_toNat_eq
    rw [BitVec.toNat_ofNat]
    omega
  unfold readFrame
  rw [hcontext, hregs, word64, word64, hw 0 (by decide), hw 1 (by decide), hw 37 (by decide), hw 53 (by decide),
    hw 54 (by decide)]
  simp only [frameWords, regWords, List.replicate, List.cons_append, List.nil_append, List.getD_cons_zero,
    List.getD_cons_succ]
  rw [hlast, hlow, Nat.mod_eq_of_lt hsig]
  simp

/-! ## A thread, its user memory, and the handlers it is in -/

/-- `vmm_verify_user_access`: a range of user addresses, each of them mapped as wanted. -/
def verifyUserAccess (mapped : Nat → Bool) (a size : Nat) : Bool :=
  decide (0x200000000 ≤ a ∧ a + size ≤ 2 ^ 47) && (List.range size).all fun i => mapped (a + i)

def sysSigaltstack (t : SigTask) (sp size : UInt64) (flags : UInt32) (writable : Nat → Bool) : SigTask × Int :=
  if flags &&& ~~~SS_DISABLE ≠ 0 then (t, -EINVAL)
  else if t.sigaltstackFlags &&& SS_ONSTACK ≠ 0 then (t, -EPERM)
  else if flags &&& SS_DISABLE ≠ 0 then
    ({ t with sigaltstackSp := 0, sigaltstackSize := 0, sigaltstackFlags := SS_DISABLE }, 0)
  else if sp = 0 ∨ size < MINSIGSTKSZ then (t, -ENOMEM)
  else if verifyUserAccess writable sp.toNat size.toNat = false then (t, -EFAULT)
  else ({ t with sigaltstackSp := sp, sigaltstackSize := size, sigaltstackFlags := 0 }, 0)

structure LiveFrame where
  sp : UInt64
  task : SigTask
  regs : SyscallRegs
  sig : Nat
  action : SigAction

def LiveFrame.frame (f : LiveFrame) : SigFrame := sigFrameOf f.task f.regs f.sig f.action

structure SigState where
  task : SigTask
  regs : SyscallRegs
  mem : Buffer
  live : List LiveFrame

inductive SigEvent where
  /-- The program runs, and makes other calls. -/
  | user (task : SigTask) (regs : SyscallRegs) (mem : Buffer)
  | sigaltstack (sp size : UInt64) (flags : UInt32) (writable : Nat → Bool)
  | deliver (sig : Nat) (action : SigAction) (writable : Nat → Bool)
  | sigreturn (readable : Nat → Bool)
  /-- The run goes on in the child. -/
  | fork (id : UInt32)

/-- The place of a frame passes `setup_sigcontext`'s check. -/
def frameFits (writable : Nat → Bool) (sp : UInt64) : Bool := verifyUserAccess writable sp.toNat 440

def SigState.deliver (s : SigState) (sig : Nat) (a : SigAction) (writable : Nat → Bool) : SigState :=
  let d := setupSigcontext s.task s.regs sig a (frameFits writable) []
  match d.frame with
  | none => { s with task := d.task, regs := d.regs }
  | some f =>
    ⟨d.task, d.regs, s.mem.putWords (frameSp s.task a).toNat (frameWords f),
      ⟨frameSp s.task a, s.task, s.regs, sig, a⟩ :: s.live⟩

/-- `sys_rt_sigreturn`: the restorer's `ret` took eight bytes off the stack. -/
def SigState.sigreturn (s : SigState) (readable : Nat → Bool) : SigState :=
  let frameAddr := s.task.userRsp - 8
  let frame := if verifyUserAccess readable frameAddr.toNat 440 then some (readFrame s.mem frameAddr.toNat) else none
  ⟨(sysRtSigreturn s.task s.regs frame).1, (sysRtSigreturn s.task s.regs frame).2, s.mem, s.live.tail⟩

def SigState.step (s : SigState) : SigEvent → SigState
  | .user t regs mem => { s with task := t, regs := regs, mem := mem }
  | .sigaltstack sp size flags writable => { s with task := (sysSigaltstack s.task sp size flags writable).1 }
  | .deliver sig a writable => s.deliver sig a writable
  | .sigreturn readable => s.sigreturn readable
  | .fork id => { s with task := forkSignals s.task id }

/-! ## The stacks -/

def OnStack (t : SigTask) : Prop := t.sigaltstackFlags &&& SS_ONSTACK ≠ 0

instance (t : SigTask) : Decidable (OnStack t) := inferInstanceAs (Decidable (_ ≠ _))

def altLo (t : SigTask) : Nat := t.sigaltstackSp.toNat
def altHi (t : SigTask) : Nat := t.sigaltstackSp.toNat + t.sigaltstackSize.toNat

def ClearOfAlt (t : SigTask) (a : Nat) : Prop := a + 440 ≤ altLo t ∨ altHi t ≤ a

instance (t : SigTask) (a : Nat) : Decidable (ClearOfAlt t a) := inferInstanceAs (Decidable (_ ∨ _))

/-- A thread keeps to its stack: on the alternate one the stack pointer points into it, and every frame of the stack it is on
lies above the pointer, but for the word a returning handler has taken off. -/
structure Disciplined (t : SigTask) (rsp : UInt64) (on : Prop) (live : List LiveFrame) : Prop where
  inAlt : on → altLo t ≤ rsp.toNat ∧ rsp.toNat ≤ altHi t
  frames : ∀ f ∈ live, (on ∧ ClearOfAlt t f.sp.toNat) ∨ (rsp.toNat ≤ f.sp.toNat + 8 ∧ (¬ on → ClearOfAlt t f.sp.toNat))

/-- The place of a frame below a stack pointer: the red zone, the frame and eight bytes below it, on a multiple of sixteen,
and eight bytes more. -/
def placeBelow (rsp : Nat) : Nat := (rsp - 576) / 16 * 16 - 8

/-- The stack the next frame is built for has room for it: the alternate one when it is newly entered always has; on it the
frame must not leave it at its low end, and off it the frame must not reach into it. -/
def RoomFor (t : SigTask) (a : SigAction) : Prop :=
  useAltstack t a = true ∨ if OnStack t then altLo t ≤ placeBelow t.userRsp.toNat
    else ClearOfAlt t (placeBelow t.userRsp.toNat)

instance (t : SigTask) (a : SigAction) : Decidable (RoomFor t a) := inferInstanceAs (Decidable (_ ∨ _))

/-! ## What the programs keep to, what the kernel would have to check, and what is to hold -/

/-- What a program that leaves the frames alone does.  A handler returns when the frame is what its stack pointer points
at. -/
def Allowed (s : SigState) : SigEvent → Prop
  | .user t _ mem =>
    t.sigaltstackSp = s.task.sigaltstackSp ∧ t.sigaltstackSize = s.task.sigaltstackSize ∧
      t.sigaltstackFlags = s.task.sigaltstackFlags ∧
      (∀ f ∈ s.live, ∀ i, f.sp.toNat ≤ i → i < f.sp.toNat + 440 → mem i = s.mem i) ∧
      Disciplined t t.userRsp (OnStack t) s.live
  | .sigaltstack sp size flags writable =>
    OnStack s.task ∨ ∀ f ∈ s.live, ClearOfAlt (sysSigaltstack s.task sp size flags writable).1 f.sp.toNat
  | .deliver sig _ _ => sig < 32
  | .sigreturn readable => ∃ f fs, s.live = f :: fs ∧ s.task.userRsp = f.sp + 8 ∧
      verifyUserAccess readable f.sp.toNat 440 = true
  | .fork _ => True

/-- A frame is built only where there is room, and no thread forks on its alternate stack. -/
def Roomy (s : SigState) : SigEvent → Prop
  | .deliver _ a writable => frameFits writable (frameSp s.task a) = true → RoomFor s.task a
  | .fork _ => ¬ OnStack s.task
  | _ => True

/-- A frame inside the stack it was built for, below the red zone and aligned, and apart from the frames there are. -/
structure Inside (s : SigState) (a : SigAction) : Prop where
  aligned : ((frameSp s.task a).toNat + 8) % 16 = 0
  redZone : (frameSp s.task a).toNat + 440 + 128 ≤ if useAltstack s.task a then altHi s.task else s.task.userRsp.toNat
  stack : if useAltstack s.task a ∨ OnStack s.task then altLo s.task ≤ (frameSp s.task a).toNat ∧
    (frameSp s.task a).toNat + 440 ≤ altHi s.task
    else ClearOfAlt s.task (frameSp s.task a).toNat
  free : ∀ f ∈ s.live, (frameSp s.task a).toNat + 440 ≤ f.sp.toNat ∨ f.sp.toNat + 440 ≤ (frameSp s.task a).toNat

variable {a : SigAction} {s : SigState}

theorem Inside.altLo_le (h : Inside s a) (hon : OnStack s.task) : altLo s.task ≤ (frameSp s.task a).toNat := by
  have hstack := h.stack
  rw [if_pos (Or.inr hon)] at hstack
  exact hstack.1

/-- The registers, the stack pointer, the mask and `SS_ONSTACK` are what they were when the handler's signal was
delivered. -/
structure Restored (f : LiveFrame) (s : SigState) : Prop where
  regs : s.regs = f.regs
  userRsp : s.task.userRsp = f.task.userRsp
  signalMask : s.task.signalMask = f.task.signalMask
  onStack : OnStack s.task ↔ OnStack f.task

def Correct (s : SigState) : SigEvent → Prop
  | .deliver _ a writable => frameFits writable (frameSp s.task a) = true → Inside s a
  | .sigreturn readable => ∀ f fs, s.live = f :: fs → Restored f (s.sigreturn readable) ∧ (s.sigreturn readable).live = fs
  | _ => True

/-! ## The place of a frame -/

theorem toNat_and_not_fifteen (x : UInt64) : (x &&& ~~~0xF).toNat = x.toNat / 16 * 16 := by
  have hmask : ∀ i < 64, (2 ^ 64 - 16 : Nat).testBit i = decide (4 ≤ i) := by decide
  have hlt := x.toNat_lt
  have hshift : x.toNat / 16 * 16 = x.toNat >>> 4 <<< 4 := by rw [Nat.shiftLeft_eq, Nat.shiftRight_eq_div_pow]
  have hnot : (~~~0xF : UInt64).toNat = 2 ^ 64 - 16 := rfl
  rw [UInt64.toNat_and, hnot, hshift]
  apply Nat.eq_of_testBit_eq
  intro i
  rw [Nat.testBit_and, Nat.testBit_shiftLeft, Nat.testBit_shiftRight]
  by_cases hi : i < 64
  · rw [hmask i hi]
    by_cases h4 : 4 ≤ i
    · simp [h4]
    · simp [h4]
  · have hhigh : x.toNat.testBit i = false :=
      Nat.testBit_lt_two_pow (hlt.trans_le (Nat.pow_le_pow_right (by decide) (by omega)))
    have hi4 : 4 + (i - 4) = i := by omega
    rw [hi4, hhigh]
    simp

variable {mapped : Nat → Bool}

theorem of_verifyUserAccess {a n : Nat} (h : verifyUserAccess mapped a n = true) : 0x200000000 ≤ a ∧ a + n ≤ 2 ^ 47 := by
  rw [verifyUserAccess, Bool.and_eq_true, decide_eq_true_eq] at h
  exact h.1

theorem frame_place {top : UInt64} (h : frameFits mapped (((top - 128 - sigframeSize - 8) &&& ~~~0xF) - 8) = true) :
    592 ≤ top.toNat ∧ (((top - 128 - sigframeSize - 8) &&& ~~~0xF) - 8).toNat = placeBelow top.toNat := by
  have hlt := top.toNat_lt
  have hplace := (of_verifyUserAccess h).2
  have h128 : (128 : UInt64).toNat = 128 := rfl
  have h440 : sigframeSize.toNat = 440 := rfl
  have h8 : (8 : UInt64).toNat = 8 := rfl
  rw [UInt64.toNat_sub, toNat_and_not_fifteen, UInt64.toNat_sub, UInt64.toNat_sub, UInt64.toNat_sub, h128, h440, h8]
    at hplace ⊢
  unfold placeBelow
  omega

def frameTop (t : SigTask) (a : SigAction) : Nat := if useAltstack t a then altHi t else t.userRsp.toNat

variable {t : SigTask}

theorem frameSp_place (halt : altHi t ≤ 2 ^ 47) (h : frameFits mapped (frameSp t a) = true) :
    592 ≤ frameTop t a ∧ (frameSp t a).toNat = placeBelow (frameTop t a) := by
  unfold frameSp at h ⊢
  unfold frameTop
  by_cases ha : useAltstack t a = true
  · rw [if_pos ha] at h ⊢
    rw [if_pos ha]
    have htop : (t.sigaltstackSp + t.sigaltstackSize).toNat = altHi t := by
      unfold altHi at halt ⊢
      rw [UInt64.toNat_add]
      omega
    rw [← htop]
    exact frame_place h
  · rw [if_neg ha] at h ⊢
    rw [if_neg ha]
    exact frame_place h

theorem placeBelow_aligned {top : Nat} (h : 592 ≤ top) : (placeBelow top + 8) % 16 = 0 := by
  unfold placeBelow
  omega

theorem placeBelow_le {top : Nat} (h : 592 ≤ top) : placeBelow top + 576 ≤ top := by
  unfold placeBelow
  omega

theorem of_useAltstack (h : useAltstack t a = true) : ¬ OnStack t ∧ altLo t + 2048 ≤ altHi t := by
  simp only [useAltstack, Bool.and_eq_true, decide_eq_true_eq] at h
  obtain ⟨⟨⟨_, hon⟩, _⟩, hsize⟩ := h
  refine ⟨by simpa [OnStack] using hon, ?_⟩
  have hmin : MINSIGSTKSZ.toNat = 2048 := rfl
  have := UInt64.le_iff_toNat_le.1 hsize
  unfold altLo altHi
  omega

/-! ## The live frames as a stack -/

/-- The stack pointer now, and those every live handler interrupted, each over the frames that lay there then; while a
handler runs that interrupted the alternate stack, `SS_ONSTACK` is set. -/
def Chain (t : SigTask) : UInt64 → Prop → List LiveFrame → Prop
  | rsp, on, [] => Disciplined t rsp on []
  | rsp, on, f :: fs => Disciplined t rsp on (f :: fs) ∧ (OnStack f.task → on) ∧ Chain t f.task.userRsp (OnStack f.task) fs

variable {rsp : UInt64} {on : Prop}

theorem Chain.head : ∀ {live : List LiveFrame}, Chain t rsp on live → Disciplined t rsp on live
  | [], h => h
  | _ :: _, h => h.1

theorem Chain.replace {rsp' : UInt64} :
    ∀ {live : List LiveFrame}, Chain t rsp on live → Disciplined t rsp' on live → Chain t rsp' on live
  | [], _, h => h
  | _ :: _, hc, h => ⟨h, hc.2⟩

variable {t' : SigTask}

theorem Disciplined.congr {live : List LiveFrame} (h : Disciplined t rsp on live)
    (hlo : altLo t' = altLo t) (hhi : altHi t' = altHi t) : Disciplined t' rsp on live := by
  refine ⟨by rw [hlo, hhi]; exact h.inAlt, ?_⟩
  unfold ClearOfAlt
  rw [hlo, hhi]
  exact h.frames

theorem Chain.congr (hlo : altLo t' = altLo t) (hhi : altHi t' = altHi t) :
    ∀ {live : List LiveFrame} {rsp : UInt64} {on : Prop}, Chain t rsp on live → Chain t' rsp on live
  | [], _, _, h => Disciplined.congr h hlo hhi
  | _ :: _, _, _, h => ⟨h.1.congr hlo hhi, h.2.1, h.2.2.congr hlo hhi⟩

/-- Off the alternate stack, another one can be registered, away from the frames there are. -/
theorem Chain.register :
    ∀ {live : List LiveFrame} {rsp : UInt64} {on : Prop}, Chain t rsp on live → ¬ on →
    (∀ f ∈ live, ClearOfAlt t' f.sp.toNat) →
      Chain t' rsp on live
  | [], _, _, _, hoff, _ => ⟨fun hon => absurd hon hoff, fun _ hf => absurd hf List.not_mem_nil⟩
  | f :: fs, rsp, on, h, hoff, hapart => by
    have hbelow : ∀ g ∈ f :: fs, rsp.toNat ≤ g.sp.toNat + 8 := fun g hg =>
      (h.1.frames g hg).elim (fun hg => absurd hg.1 hoff) fun hg => hg.1
    refine ⟨⟨fun hon => absurd hon hoff, fun g hg => Or.inr ⟨hbelow g hg, fun _ => hapart g hg⟩⟩, h.2.1, ?_⟩
    exact h.2.2.register (fun hon => hoff (h.2.1 hon)) fun g hg => hapart g (List.mem_cons_of_mem _ hg)

structure FramesOk (s : SigState) : Prop where
  alt : altHi s.task ≤ 2 ^ 47
  chain : Chain s.task s.task.userRsp (OnStack s.task) s.live
  words : ∀ f ∈ s.live, HasWords s.mem f.sp.toNat (frameWords f.frame)
  place : ∀ f ∈ s.live, f.sp.toNat + 440 ≤ 2 ^ 47
  sigs : ∀ f ∈ s.live, f.sig < 32

theorem length_frameWords (f : SigFrame) : (frameWords f).length = 55 := by
  simp [frameWords, regWords]

theorem frameWords_lt (f : SigFrame) (hsig : f.siSigno < 2 ^ 64) : ∀ w ∈ frameWords f, w < 2 ^ 64 := by
  have h64 : ∀ v : UInt64, v.toNat < 2 ^ 64 := fun v => v.toNat_lt
  have hregs : ∀ r : SyscallRegs, ∀ w ∈ regWords r, w < 2 ^ 64 := by
    intro r
    simp only [regWords, List.forall_mem_cons]
    exact ⟨h64 _, h64 _, h64 _, h64 _, h64 _, h64 _, h64 _, h64 _, h64 _, h64 _, h64 _, h64 _, h64 _, h64 _, h64 _, by simp⟩
  have hmask := f.ucSigmask.isLt
  have hlast := f.sigmask.isLt
  have hflags := f.ssFlagsPrev.toNat_lt
  simp only [frameWords, List.forall_mem_append, List.forall_mem_cons]
  refine ⟨⟨⟨⟨⟨⟨h64 _, hsig, by simp⟩, ?_⟩, hregs _⟩, by omega, by simp⟩, hregs _⟩, h64 _, by omega, by simp⟩
  intro w hw
  rw [List.eq_of_mem_replicate hw]
  decide

theorem LiveFrame.siSigno_lt (f : LiveFrame) (h : f.sig < 32) : f.frame.siSigno < 2 ^ 32 := by
  show (if f.action.flags &&& SA_SIGINFO ≠ 0 then f.sig else 0) < 2 ^ 32
  split <;> omega

/-! ## A delivery -/

variable {writable : Nat → Bool}

/-- **A frame lies inside its stack exactly when there is room for it.** -/
theorem FramesOk.inside_iff (h : FramesOk s)
    (hfits : frameFits writable (frameSp s.task a) = true) : Inside s a ↔ RoomFor s.task a := by
  obtain ⟨htop, hsp⟩ := frameSp_place h.alt hfits
  have hle := placeBelow_le htop
  have hd := h.chain.head
  unfold RoomFor
  by_cases hu : useAltstack s.task a = true
  · refine iff_of_true ?_ (Or.inl hu)
    obtain ⟨hoff, hsize⟩ := of_useAltstack hu
    have htopEq : frameTop s.task a = altHi s.task := if_pos hu
    rw [htopEq] at htop hsp hle
    have hlow : altHi s.task < placeBelow (altHi s.task) + 600 := by
      unfold placeBelow
      omega
    refine ⟨hsp ▸ placeBelow_aligned htop, ?_, ?_, fun f hf => ?_⟩
    · rw [if_pos hu]
      omega
    · rw [if_pos (Or.inl hu)]
      omega
    · have hapart : ClearOfAlt s.task f.sp.toNat := (hd.frames f hf).elim (fun hf => absurd hf.1 hoff) fun hf => hf.2 hoff
      rcases hapart with hf | hf <;> omega
  · have htopEq : frameTop s.task a = s.task.userRsp.toNat := if_neg hu
    rw [htopEq] at htop hsp hle
    rw [hsp.symm]
    constructor
    · intro hin
      right
      have hstack := hin.stack
      by_cases hon : OnStack s.task
      · rw [if_pos (Or.inr hon)] at hstack
        rw [if_pos hon]
        exact hstack.1
      · rw [if_neg (by simp [hu, hon])] at hstack
        rw [if_neg hon]
        exact hstack
    · intro hroom
      replace hroom := hroom.resolve_left hu
      refine ⟨hsp ▸ placeBelow_aligned htop, ?_, ?_, fun f hf => ?_⟩
      · rw [if_neg hu]
        omega
      · by_cases hon : OnStack s.task
        · rw [if_pos hon] at hroom
          rw [if_pos (Or.inr hon)]
          exact ⟨hroom, by have := hd.inAlt hon; omega⟩
        · rw [if_neg hon] at hroom
          rw [if_neg (by simp [hu, hon])]
          exact hroom
      · rcases hd.frames f hf with ⟨hon, hf⟩ | ⟨hf, _⟩
        · rw [if_pos hon] at hroom
          have := hd.inAlt hon
          rcases hf with hf | hf <;> omega
        · left
          omega

theorem onStack_or (flags : UInt32) : (flags ||| SS_ONSTACK) &&& SS_ONSTACK ≠ 0 := by
  intro h
  have hbit := congrArg (fun v : UInt32 => v.toBitVec.getLsbD 0) h
  simp [SS_ONSTACK] at hbit

theorem onStack_and_not (flags : UInt32) : (flags &&& ~~~SS_ONSTACK) &&& SS_ONSTACK = 0 := by
  rw [UInt32.and_assoc, UInt32.not_and_self, UInt32.and_zero]

variable {sig : Nat}

theorem deliver_of_refused
    (hfits : frameFits writable (frameSp s.task a) = false) :
    s.deliver sig a writable = { s with task := taskExit s.task SIGSEGV } := by
  unfold SigState.deliver setupSigcontext
  simp [hfits]

theorem deliver_of_fits (sig : Nat) (hfits : frameFits writable (frameSp s.task a) = true) :
    ∃ t regs, s.deliver sig a writable =
        ⟨t, regs, s.mem.putWords (frameSp s.task a).toNat (frameWords (sigFrameOf s.task s.regs sig a)),
          ⟨frameSp s.task a, s.task, s.regs, sig, a⟩ :: s.live⟩ ∧
      t.userRsp = frameSp s.task a ∧ t.sigaltstackSp = s.task.sigaltstackSp ∧ t.sigaltstackSize = s.task.sigaltstackSize ∧
      (OnStack t ↔ useAltstack s.task a = true ∨ OnStack s.task) := by
  unfold SigState.deliver setupSigcontext
  simp only [hfits, Bool.not_true, if_neg Bool.false_ne_true]
  refine ⟨_, _, rfl, rfl, rfl, rfl, ?_⟩
  unfold OnStack
  by_cases hu : useAltstack s.task a = true
  · simp [hu, onStack_or]
  · simp [hu]

theorem HasWords.apart {a b : Nat} {f g : SigFrame} (h : HasWords m a (frameWords f)) (hab : b + 440 ≤ a ∨ a + 440 ≤ b) :
    HasWords (m.putWords b (frameWords g)) a (frameWords f) := by
  refine h.congr fun i hi hi' => putWords_of_outside ?_
  rw [length_frameWords] at hi' ⊢
  omega

theorem FramesOk.deliver (h : FramesOk s) (hsig : sig < 32)
    (hroom : frameFits writable (frameSp s.task a) = true → RoomFor s.task a) : FramesOk (s.deliver sig a writable) := by
  by_cases hfits : frameFits writable (frameSp s.task a) = true
  · have hin := (h.inside_iff hfits).2 (hroom hfits)
    have hplace := of_verifyUserAccess hfits
    obtain ⟨t, regs, hs, hrsp, haltSp, haltSize, hon⟩ := deliver_of_fits sig hfits
    have hlo : altLo t = altLo s.task := by rw [altLo, haltSp, altLo]
    have hhi : altHi t = altHi s.task := by rw [altHi, haltSp, haltSize, altHi]
    have hd := h.chain.head
    have hred := hin.redZone
    have hstack := hin.stack
    have hbelow : Disciplined s.task (frameSp s.task a) (OnStack t)
        (⟨frameSp s.task a, s.task, s.regs, sig, a⟩ :: s.live) := by
      by_cases hont : useAltstack s.task a = true ∨ OnStack s.task
      · rw [if_pos hont] at hstack
        refine ⟨fun _ => ⟨hstack.1, by omega⟩, fun f hf => ?_⟩
        rcases List.mem_cons.1 hf with rfl | hf
        · exact Or.inr ⟨Nat.le_add_right _ _, fun hoff => absurd (hon.2 hont) hoff⟩
        · rcases hd.frames f hf with ⟨_, hf⟩ | ⟨hf, hoff⟩
          · exact Or.inl ⟨hon.2 hont, hf⟩
          · by_cases hu : useAltstack s.task a = true
            · exact Or.inl ⟨hon.2 hont, hoff (of_useAltstack hu).1⟩
            · rw [if_neg hu] at hred
              exact Or.inr ⟨by omega, fun hoff => absurd (hon.2 hont) hoff⟩
      · rw [if_neg hont] at hstack
        have hofft : ¬ OnStack t := fun h => hont (hon.1 h)
        rw [not_or] at hont
        rw [if_neg hont.1] at hred
        refine ⟨fun h => absurd h hofft, fun f hf => Or.inr ?_⟩
        rcases List.mem_cons.1 hf with rfl | hf
        · exact ⟨Nat.le_add_right _ _, fun _ => hstack⟩
        · rcases hd.frames f hf with ⟨h, _⟩ | ⟨hf, hoff⟩
          · exact absurd h hont.2
          · exact ⟨by omega, fun _ => hoff hont.2⟩
    rw [hs]
    refine ⟨by rw [hhi]; exact h.alt, ?_, ?_, ?_, ?_⟩
    · rw [hrsp]
      exact Chain.congr hlo hhi ⟨hbelow, fun h => hon.2 (Or.inr h), h.chain⟩
    · intro f hf
      rcases List.mem_cons.1 hf with rfl | hf
      · have hsigno := LiveFrame.siSigno_lt ⟨frameSp s.task a, s.task, s.regs, sig, a⟩ hsig
        exact hasWords_putWords _ _ (frameWords_lt _ (hsigno.trans (by decide)))
      · exact HasWords.apart (h.words f hf) ((hin.free f hf).imp id id)
    · intro f hf
      rcases List.mem_cons.1 hf with rfl | hf
      · exact hplace.2
      · exact h.place f hf
    · intro f hf
      rcases List.mem_cons.1 hf with rfl | hf
      · exact hsig
      · exact h.sigs f hf
  · rw [deliver_of_refused (by simpa using hfits)]
    exact ⟨h.alt, h.chain.congr (by rfl) (by rfl), h.words, h.place, h.sigs⟩

/-! ## A return -/

/-- **A handler's return** finds the frame, and puts back what the signal interrupted. -/
theorem FramesOk.sigreturn (h : FramesOk s) {readable : Nat → Bool} {f : LiveFrame} {fs : List LiveFrame}
    (hlive : s.live = f :: fs) (hrsp : s.task.userRsp = f.sp + 8) (hread : verifyUserAccess readable f.sp.toNat 440 = true) :
    Restored f (s.sigreturn readable) ∧ FramesOk (s.sigreturn readable) ∧ (s.sigreturn readable).live = fs := by
  have hf : f ∈ s.live := by
    rw [hlive]
    exact List.mem_cons_self
  have haddr : s.task.userRsp - 8 = f.sp := by rw [hrsp, UInt64.add_sub_cancel]
  have hframe : readFrame s.mem f.sp.toNat = f.frame := readFrame_of_hasWords (f.siSigno_lt (h.sigs f hf)) (h.words f hf)
  have hstep : s.sigreturn readable =
      ⟨(sysRtSigreturn s.task s.regs (some f.frame)).1, (sysRtSigreturn s.task s.regs (some f.frame)).2, s.mem, fs⟩ := by
    rw [SigState.sigreturn, haddr, if_pos hread, hframe, hlive, List.tail_cons]
  have hon : OnStack (sysRtSigreturn s.task s.regs (some f.frame)).1 ↔ OnStack f.task := by
    have hflags : (sysRtSigreturn s.task s.regs (some f.frame)).1.sigaltstackFlags =
        if f.task.sigaltstackFlags &&& SS_ONSTACK ≠ 0 then s.task.sigaltstackFlags ||| SS_ONSTACK
        else s.task.sigaltstackFlags &&& ~~~SS_ONSTACK := rfl
    unfold OnStack
    rw [hflags]
    by_cases hprev : f.task.sigaltstackFlags &&& SS_ONSTACK ≠ 0
    · rw [if_pos hprev]
      exact iff_of_true (onStack_or _) hprev
    · rw [if_neg hprev]
      exact iff_of_false (fun h => h (onStack_and_not _)) hprev
  rw [hstep]
  have hchain := h.chain
  rw [hlive] at hchain
  have hsub : ∀ g ∈ fs, g ∈ s.live := fun g hg => by
    rw [hlive]
    exact List.mem_cons_of_mem _ hg
  refine ⟨⟨rfl, rfl, rfl, hon⟩, ⟨h.alt, ?_, fun g hg => h.words g (hsub g hg), fun g hg => h.place g (hsub g hg),
    fun g hg => h.sigs g (hsub g hg)⟩, rfl⟩
  dsimp only
  rw [propext hon]
  exact hchain.2.2.congr (by rfl) (by rfl)

/-! ## The other events -/

theorem sysSigaltstack_spec (t : SigTask) (sp size : UInt64) (flags : UInt32) (writable : Nat → Bool) :
    (sysSigaltstack t sp size flags writable).1 = t ∨ ¬ OnStack t ∧ ¬ OnStack (sysSigaltstack t sp size flags writable).1 ∧
        (sysSigaltstack t sp size flags writable).1.userRsp = t.userRsp ∧
        altHi (sysSigaltstack t sp size flags writable).1 ≤ 2 ^ 47 := by
  unfold sysSigaltstack
  by_cases hflags : flags &&& ~~~SS_DISABLE ≠ 0
  · exact Or.inl (by rw [if_pos hflags])
  rw [if_neg hflags]
  by_cases hon : t.sigaltstackFlags &&& SS_ONSTACK ≠ 0
  · exact Or.inl (by rw [if_pos hon])
  rw [if_neg hon]
  by_cases hdis : flags &&& SS_DISABLE ≠ 0
  · rw [if_pos hdis]
    have hoff : ¬ (SS_DISABLE &&& SS_ONSTACK ≠ 0) := by decide
    have hnone : (0 : UInt64).toNat + (0 : UInt64).toNat ≤ 2 ^ 47 := by decide
    exact Or.inr ⟨hon, hoff, rfl, hnone⟩
  rw [if_neg hdis]
  by_cases hsmall : sp = 0 ∨ size < MINSIGSTKSZ
  · exact Or.inl (by rw [if_pos hsmall])
  rw [if_neg hsmall]
  by_cases hver : verifyUserAccess writable sp.toNat size.toNat = false
  · exact Or.inl (by rw [if_pos hver])
  rw [if_neg hver]
  have hoff : ¬ ((0 : UInt32) &&& SS_ONSTACK ≠ 0) := by decide
  exact Or.inr ⟨hon, hoff, rfl, (of_verifyUserAccess (by simpa using hver)).2⟩

theorem FramesOk.user (h : FramesOk s) {regs : SyscallRegs} {mem : Buffer}
    (ha : Allowed s (.user t regs mem)) : FramesOk (s.step (.user t regs mem)) := by
  obtain ⟨hsp, hsize, hflags, hmem, hd⟩ := ha
  have hlo : altLo t = altLo s.task := by rw [altLo, hsp, altLo]
  have hhi : altHi t = altHi s.task := by rw [altHi, hsp, hsize, altHi]
  have hon : OnStack t = OnStack s.task := by rw [OnStack, hflags, OnStack]
  refine ⟨hhi.trans_le h.alt, ?_, fun f hf => ?_, h.place, h.sigs⟩
  · have hchain : Chain t s.task.userRsp (OnStack t) s.live := by
      rw [hon]
      exact Chain.congr hlo hhi h.chain
    exact hchain.replace hd
  · refine (h.words f hf).congr fun i hi hi' => hmem f hf i hi ?_
    rw [length_frameWords] at hi'
    exact hi'

theorem FramesOk.sigaltstack (h : FramesOk s) {sp size : UInt64} {flags : UInt32}
    (ha : Allowed s (.sigaltstack sp size flags writable)) : FramesOk (s.step (.sigaltstack sp size flags writable)) := by
  rw [SigState.step]
  rcases sysSigaltstack_spec s.task sp size flags writable with hsame | ⟨hoff, hoff', hrsp, hhi⟩
  · rw [hsame]
    exact h
  · refine ⟨hhi, ?_, h.words, h.place, h.sigs⟩
    dsimp only
    rw [hrsp, eq_false hoff']
    have hchain := h.chain
    rw [eq_false hoff] at hchain
    exact hchain.register id (ha.resolve_left hoff)

theorem FramesOk.fork (h : FramesOk s) (hoff : ¬ OnStack s.task) (id : UInt32) : FramesOk (s.step (.fork id)) := by
  have hoff' : ¬ OnStack (forkSignals s.task id) := fun hon => hon (onStack_and_not _)
  refine ⟨h.alt, ?_, h.words, h.place, h.sigs⟩
  show Chain (forkSignals s.task id) s.task.userRsp (OnStack (forkSignals s.task id)) s.live
  rw [eq_false hoff', ← eq_false hoff]
  exact h.chain.congr (by rfl) (by rfl)

/-! ## Runs -/

structure Fresh (s : SigState) : Prop where
  live : s.live = []
  altSp : s.task.sigaltstackSp = 0
  altSize : s.task.sigaltstackSize = 0
  altFlags : s.task.sigaltstackFlags = SS_DISABLE

theorem Fresh.framesOk (h : Fresh s) : FramesOk s := by
  have hoff : ¬ OnStack s.task := by
    rw [OnStack, h.altFlags]
    decide
  refine ⟨?_, ?_, by simp [h.live], by simp [h.live], by simp [h.live]⟩
  · rw [altHi, h.altSp, h.altSize]
    decide
  · rw [h.live]
    exact ⟨fun hon => absurd hon hoff, fun _ hf => absurd hf List.not_mem_nil⟩

theorem FramesOk.step (h : FramesOk s) (e : SigEvent) (ha : Allowed s e) (hr : Roomy s e) :
    FramesOk (s.step e) ∧ Correct s e := by
  cases e with
  | user t regs mem => exact ⟨h.user ha, trivial⟩
  | sigaltstack sp size flags writable => exact ⟨h.sigaltstack ha, trivial⟩
  | deliver sig a writable => exact ⟨h.deliver ha hr, fun hfits => (h.inside_iff hfits).2 (hr hfits)⟩
  | sigreturn readable =>
    obtain ⟨f, fs, hlive, hrsp, hread⟩ := ha
    obtain ⟨hrestored, hok, htail⟩ := h.sigreturn hlive hrsp hread
    refine ⟨hok, fun g gs hg => ?_⟩
    obtain ⟨rfl, rfl⟩ := List.cons.inj (hlive.symm.trans hg)
    exact ⟨hrestored, htail⟩
  | fork id => exact ⟨h.fork hr id, trivial⟩

/-- **Signal frames round-trip, at any depth**: in a run of a program that leaves the frames alone, in which every frame
finds room on the stack it is built for and no thread forks on its alternate stack, every frame lies inside its stack, below
the red zone, aligned and apart from the others, and every return restores what its signal interrupted. -/
theorem frames_round_trip {s : SigState} (h : Fresh s) {es : List SigEvent}
    (hallowed : Run.Guarded SigState.step Allowed s es)
    (hroomy : Run.Guarded SigState.step Roomy s es) : Run.Guarded SigState.step Correct s es :=
  Run.guarded_imp (fun _ e hs ⟨ha, hr⟩ => FramesOk.step hs e ha hr) es s h.framesOk (Run.guarded_and hallowed hroomy)

def calm : SigState where
  task := ⟨1, 1, 0, "sh", .running, 0, 0, Vector.replicate 32 0, Vector.replicate 32 0, Vector.replicate 32 0,
    Vector.replicate 32 0, 0, 0, SS_DISABLE, 0x300010000, 0, 0, 0, false, none⟩
  regs := {}
  mem := fun _ => 0
  live := []

def onAltstack : SigAction := ⟨0x400000, SA_ONSTACK, 0, 0x401000⟩

theorem calm_fresh : Fresh calm := ⟨rfl, rfl, rfl, rfl⟩

/-- A frame is what the stack pointer of a returning handler points at. -/
theorem allowed_sigreturn {s : SigState} {readable : Nat → Bool}
    (h : (s.live.head?.map fun f => s.task.userRsp == f.sp + 8 && verifyUserAccess readable f.sp.toNat 440) = some true) :
    Allowed s (.sigreturn readable) := by
  obtain ⟨f, hf, htrue⟩ := Option.map_eq_some_iff.1 h
  obtain ⟨fs, hlive⟩ := List.head?_eq_some_iff.1 hf
  obtain ⟨hrsp, hread⟩ := Bool.and_eq_true_iff.1 htrue
  exact ⟨f, fs, hlive, eq_of_beq hrsp, hread⟩

/-- The innermost handler has come to its end: its `ret` takes the restorer off the frame. -/
def SigState.ends (s : SigState) : SigEvent := .user { s.task with userRsp := (s.live.head?.map (·.sp)).getD 0 + 8 } {} s.mem

def everywhere : Nat → Bool := fun _ => true

/-- A program with an alternate stack goes on, and two signals come, the second in the handler of the first. -/
def handlersEntered : List SigEvent :=
  [.sigaltstack 0x300000000 2048 0 everywhere,
    .user { calm.task with
        userRsp := 0x30000FF00, sigaltstackSp := 0x300000000, sigaltstackSize := 2048, sigaltstackFlags := 0 }
      { rax := 7, rbx := 9, rcx := 0x400123 } fun _ => 0,
    .deliver 10 onAltstack everywhere, .deliver 12 onAltstack everywhere]

def inBoth : SigState := handlersEntered.foldl SigState.step calm

/-- The handler of the second has returned. -/
def inFirst : SigState := (inBoth.step inBoth.ends).step (.sigreturn everywhere)

theorem allowed_ends {s : SigState} (h : Disciplined { s.task with userRsp := (s.live.head?.map (·.sp)).getD 0 + 8 }
    ((s.live.head?.map (·.sp)).getD 0 + 8) (OnStack s.task) s.live) : Allowed s s.ends :=
  ⟨rfl, rfl, rfl, fun _ _ _ _ _ => rfl, h⟩

/-- Both handlers' returns restore what their signals interrupted. -/
theorem frames_round_trip_nested :
    Run.Guarded SigState.step Correct calm
      (handlersEntered ++ [inBoth.ends, .sigreturn everywhere, inFirst.ends, .sigreturn everywhere]) := by
  have hentered : Run.Guarded SigState.step Allowed calm handlersEntered :=
    ⟨Or.inr fun _ hf => absurd hf List.not_mem_nil,
      ⟨by decide +kernel, by decide +kernel, by decide +kernel, fun _ hf => absurd hf List.not_mem_nil,
        fun h => absurd h (by decide), fun _ hf => absurd hf List.not_mem_nil⟩,
      (by decide : 10 < 32), (by decide : 12 < 32), trivial⟩
  have hleft : Run.Guarded SigState.step Allowed inBoth [inBoth.ends, .sigreturn everywhere, inFirst.ends,
      .sigreturn everywhere] :=
    ⟨allowed_ends ⟨by decide +kernel, by decide +kernel⟩, allowed_sigreturn (by decide +kernel),
      allowed_ends ⟨by decide +kernel, by decide +kernel⟩, allowed_sigreturn (by decide +kernel), trivial⟩
  have hroomy : Run.Guarded SigState.step Roomy calm handlersEntered :=
    ⟨trivial, trivial, fun _ => by decide +kernel, fun _ => by decide +kernel, trivial⟩
  exact frames_round_trip calm_fresh (Run.guarded_append.2 ⟨hentered, hleft⟩)
    (Run.guarded_append.2 ⟨hroomy, trivial, trivial, trivial, trivial, trivial⟩)

def threeSignals : List SigEvent :=
  [.sigaltstack 0x300000000 2048 0 fun _ => true, .deliver 10 onAltstack fun _ => true, .deliver 12 onAltstack fun _ => true,
    .deliver 14 onAltstack fun _ => true]

def crowded : SigState := threeSignals.foldl SigState.step calm

theorem crowded_task : frameFits (fun _ => true) (frameSp crowded.task onAltstack) = true ∧ OnStack crowded.task ∧
    (frameSp crowded.task onAltstack).toNat < altLo crowded.task := by
  decide +kernel

/-- A fourth frame starts below the alternate stack. -/
theorem altstack_overrun :
    Run.Guarded SigState.step Allowed calm (threeSignals ++ [.deliver 15 onAltstack fun _ => true]) ∧
    ¬ Run.Guarded SigState.step Correct calm (threeSignals ++ [.deliver 15 onAltstack fun _ => true]) := by
  obtain ⟨hfits, hon, hlow⟩ := crowded_task
  refine ⟨⟨Or.inr fun _ hf => absurd hf List.not_mem_nil, (by decide : 10 < 32), (by decide : 12 < 32),
    (by decide : 14 < 32), (by decide : 15 < 32), trivial⟩, fun h => ?_⟩
  have hlast : frameFits (fun _ => true) (frameSp crowded.task onAltstack) = true → Inside crowded onAltstack :=
    (Run.guarded_append.1 h).2.1
  exact absurd (Inside.altLo_le (hlast hfits) hon) (Nat.not_le.2 hlow)

end EterOS.Syscall
