import EterOS.Lib.Run
import EterOS.Syscall.Basic
/-!
# Cred — the credential system calls and the tables that reach them

`kernel/arch/x86_64/syscall.c`: the `sys_set*id` family, the three dispatch tables and the two entries (`syscall` and
`int 0x80`).  A call that is not of the family changes no credential; its result is not modelled here.

`sys_setfsuid` and `sys_setfsgid` are the only members without a privilege check, they write `euid` and `egid`, and
only the 32-bit table reaches them.  `unprivileged_iff_fsCallsOk` says that they are the only way up.
-/
namespace EterOS.Syscall

/-! ## The credentials of a task and the calls -/

/-- The credential fields of `task_t`.  There is no separate `fsuid` or `fsgid`. -/
structure Cred where
  uid : UInt32
  gid : UInt32
  euid : UInt32
  egid : UInt32

/-- `(uint32_t)-1`: leave the field as it is. -/
def keepId : UInt32 := 0xFFFFFFFF

def sysSetuid (c : Cred) (uid : UInt32) : Cred × Int :=
  if c.uid ≠ 0 ∧ c.uid ≠ uid then (c, -1) else ({ c with uid := uid, euid := uid }, 0)

def sysSetgid (c : Cred) (gid : UInt32) : Cred × Int :=
  if c.uid ≠ 0 ∧ c.gid ≠ gid then (c, -1) else ({ c with gid := gid, egid := gid }, 0)

/-- One argument's check in the `setre*id` and `setres*id` calls: kept, the real id or the effective id. -/
def mayTake (real eff x : UInt32) : Bool := x == keepId || x == real || x == eff

/-- The assignment of the same calls: `(uint32_t)-1` writes nothing. -/
def takeId (x old : UInt32) : UInt32 := if x = keepId then old else x

def sysSetreuid (c : Cred) (ruid euid : UInt32) : Cred × Int :=
  if c.uid ≠ 0 ∧ !(mayTake c.uid c.euid ruid && mayTake c.uid c.euid euid) then (c, -EPERM)
  else ({ c with uid := takeId ruid c.uid, euid := takeId euid c.euid }, 0)

def sysSetregid (c : Cred) (rgid egid : UInt32) : Cred × Int :=
  if c.uid ≠ 0 ∧ !(mayTake c.gid c.egid rgid && mayTake c.gid c.egid egid) then (c, -EPERM)
  else ({ c with gid := takeId rgid c.gid, egid := takeId egid c.egid }, 0)

def sysSetresuid (c : Cred) (ruid euid suid : UInt32) : Cred × Int :=
  if c.uid ≠ 0 ∧ !(mayTake c.uid c.euid ruid && mayTake c.uid c.euid euid && mayTake c.uid c.euid suid) then
    (c, -EPERM)
  else ({ c with uid := takeId ruid c.uid, euid := takeId euid c.euid }, 0)

def sysSetresgid (c : Cred) (rgid egid sgid : UInt32) : Cred × Int :=
  if c.uid ≠ 0 ∧ !(mayTake c.gid c.egid rgid && mayTake c.gid c.egid egid && mayTake c.gid c.egid sgid) then
    (c, -EPERM)
  else ({ c with gid := takeId rgid c.gid, egid := takeId egid c.egid }, 0)

def sysSetfsuid (c : Cred) (fsuid : UInt32) : Cred × Int := ({ c with euid := fsuid }, fsuid.toNat)

def sysSetfsgid (c : Cred) (fsgid : UInt32) : Cred × Int := ({ c with egid := fsgid }, fsgid.toNat)

/-! ## Dispatch -/

inductive CredHandler where
  | setuid | setgid | setreuid | setregid | setresuid | setresgid | setfsuid | setfsgid
  deriving DecidableEq

/-- A handler applied to the six argument registers, cut to its `uint32_t` parameters. -/
def CredHandler.call (h : CredHandler) (c : Cred) (r : SyscallRegs) : Cred × Int :=
  match h with
  | .setuid => sysSetuid c r.rdi.toUInt32
  | .setgid => sysSetgid c r.rdi.toUInt32
  | .setreuid => sysSetreuid c r.rdi.toUInt32 r.rsi.toUInt32
  | .setregid => sysSetregid c r.rdi.toUInt32 r.rsi.toUInt32
  | .setresuid => sysSetresuid c r.rdi.toUInt32 r.rsi.toUInt32 r.rdx.toUInt32
  | .setresgid => sysSetresgid c r.rdi.toUInt32 r.rsi.toUInt32 r.rdx.toUInt32
  | .setfsuid => sysSetfsuid c r.rdi.toUInt32
  | .setfsgid => sysSetfsgid c r.rdi.toUInt32

def syscallNativeTable : Nat → Option CredHandler
  | 105 => some .setuid
  | 106 => some .setgid
  | 113 => some .setreuid
  | 114 => some .setregid
  | 117 => some .setresuid
  | 119 => some .setresgid
  | _ => none

def syscallLinuxTable : Nat → Option CredHandler
  | 105 => some .setuid
  | 106 => some .setgid
  | 113 => some .setreuid
  | 114 => some .setregid
  | 117 => some .setresuid
  | 119 => some .setresgid
  | _ => none

/-- The family's entries of `syscall_linux32_table`: the only one with the two `setfs*id` calls. -/
def syscallLinux32Table : Nat → Option CredHandler
  | 122 => some .setfsuid
  | 123 => some .setfsgid
  | 203 => some .setreuid
  | 204 => some .setregid
  | 208 => some .setresuid
  | 210 => some .setresgid
  | 213 => some .setuid
  | 214 => some .setgid
  | _ => none

/-- A table dispatch: the credentials after the call and, for a call of the family, its result. -/
def dispatch (table : Nat → Option CredHandler) (c : Cred) (r : SyscallRegs) : Cred × Option Int :=
  match table r.rax.toNat with
  | some h => ((h.call c r).1, some (h.call c r).2)
  | none => (c, none)

structure CredTask where
  cred : Cred
  isLinux : Bool

def syscallHandler (t : CredTask) (r : SyscallRegs) : Cred × Option Int :=
  if t.isLinux then dispatch syscallLinuxTable t.cred r else dispatch syscallNativeTable t.cred r

/-- The register renaming of `syscall_int80_handler`: the low halves, in the i386 order. -/
def int80Regs (r : SyscallRegs) : SyscallRegs :=
  { r with
    rax := r.rax &&& 0xFFFFFFFF, rdi := r.rbx &&& 0xFFFFFFFF, rsi := r.rcx &&& 0xFFFFFFFF,
    rdx := r.rdx &&& 0xFFFFFFFF, r10 := r.rsi &&& 0xFFFFFFFF, r8 := r.rdi &&& 0xFFFFFFFF,
    r9 := r.rbp &&& 0xFFFFFFFF }

/-- `syscall_int80_handler`: the 32-bit table whatever the task's ABI. -/
def syscallInt80Handler (t : CredTask) (r : SyscallRegs) : Cred × Option Int :=
  dispatch syscallLinux32Table t.cred (int80Regs r)

inductive Entry where
  | syscall (r : SyscallRegs)
  | int80 (r : SyscallRegs)

def credStep (t : CredTask) : Entry → CredTask
  | .syscall r => { t with cred := (syscallHandler t r).1 }
  | .int80 r => { t with cred := (syscallInt80Handler t r).1 }

/-! ## What the calls keep -/

structure Unprivileged (c0 c : Cred) : Prop where
  uid : c.uid ≠ 0
  euid : c.euid ≠ 0
  gid : c.gid = c0.gid ∨ c.gid = c0.egid
  egid : c.egid = c0.gid ∨ c.egid = c0.egid

/-- The argument of a `setfs*id` call of the 32-bit table is not root, and a group id the task held at `c0`. -/
def FsCallOk (c0 : Cred) : Entry → Prop
  | .syscall _ => True
  | .int80 r =>
    ((int80Regs r).rax.toNat = 122 → (int80Regs r).rdi.toUInt32 ≠ 0) ∧
    ((int80Regs r).rax.toNat = 123 → (int80Regs r).rdi.toUInt32 = c0.gid ∨ (int80Regs r).rdi.toUInt32 = c0.egid)

instance (c0 : Cred) : (e : Entry) → Decidable (FsCallOk c0 e)
  | .syscall _ => inferInstanceAs (Decidable True)
  | .int80 _ => inferInstanceAs (Decidable (_ ∧ _))

theorem takeId_held {P : UInt32 → Prop} {real eff x old : UInt32} (h : mayTake real eff x = true)
    (hr : P real) (he : P eff) (ho : P old) : P (takeId x old) := by
  simp only [mayTake, Bool.or_eq_true, beq_iff_eq] at h
  unfold takeId
  split
  · exact ho
  · rename_i hx
    rcases h with (h | h) | h
    · exact absurd h hx
    · exact h ▸ hr
    · exact h ▸ he

theorem mayTake_of_not {real eff x y : UInt32} (h : ¬ (!(mayTake real eff x && mayTake real eff y)) = true) :
    mayTake real eff x = true ∧ mayTake real eff y = true := by
  simpa using h

/-- **Every call with a check keeps an unprivileged task unprivileged.** -/
theorem call_unprivileged {c0 c : Cred} (hc : Unprivileged c0 c) (r : SyscallRegs) :
    ∀ h : CredHandler, h ≠ .setfsuid → h ≠ .setfsgid → Unprivileged c0 (h.call c r).1
  | .setuid, _, _ => by
    simp only [CredHandler.call, sysSetuid]
    split
    · exact hc
    · rename_i hn
      have : c.uid = r.rdi.toUInt32 := by simpa [hc.uid] using hn
      exact { hc with uid := this ▸ hc.uid, euid := this ▸ hc.uid }
  | .setgid, _, _ => by
    simp only [CredHandler.call, sysSetgid]
    split
    · exact hc
    · rename_i hn
      have : c.gid = r.rdi.toUInt32 := by simpa [hc.uid] using hn
      exact { hc with gid := this ▸ hc.gid, egid := this ▸ hc.gid }
  | .setreuid, _, _ => by
    simp only [CredHandler.call, sysSetreuid]
    split
    · exact hc
    · rename_i hn
      obtain ⟨h1, h2⟩ := mayTake_of_not (by simpa [hc.uid] using hn)
      exact { hc with
        uid := takeId_held (P := (· ≠ 0)) h1 hc.uid hc.euid hc.uid
        euid := takeId_held (P := (· ≠ 0)) h2 hc.uid hc.euid hc.euid }
  | .setregid, _, _ => by
    simp only [CredHandler.call, sysSetregid]
    split
    · exact hc
    · rename_i hn
      obtain ⟨h1, h2⟩ := mayTake_of_not (by simpa [hc.uid] using hn)
      exact { hc with
        gid := takeId_held (P := fun g => g = c0.gid ∨ g = c0.egid) h1 hc.gid hc.egid hc.gid
        egid := takeId_held (P := fun g => g = c0.gid ∨ g = c0.egid) h2 hc.gid hc.egid hc.egid }
  | .setresuid, _, _ => by
    simp only [CredHandler.call, sysSetresuid]
    split
    · exact hc
    · rename_i hn
      obtain ⟨⟨h1, h2⟩, -⟩ : (mayTake c.uid c.euid r.rdi.toUInt32 = true ∧ mayTake c.uid c.euid r.rsi.toUInt32 = true) ∧
          mayTake c.uid c.euid r.rdx.toUInt32 = true := by simpa [hc.uid] using hn
      exact { hc with
        uid := takeId_held (P := (· ≠ 0)) h1 hc.uid hc.euid hc.uid
        euid := takeId_held (P := (· ≠ 0)) h2 hc.uid hc.euid hc.euid }
  | .setresgid, _, _ => by
    simp only [CredHandler.call, sysSetresgid]
    split
    · exact hc
    · rename_i hn
      obtain ⟨⟨h1, h2⟩, -⟩ : (mayTake c.gid c.egid r.rdi.toUInt32 = true ∧ mayTake c.gid c.egid r.rsi.toUInt32 = true) ∧
          mayTake c.gid c.egid r.rdx.toUInt32 = true := by simpa [hc.uid] using hn
      exact { hc with
        gid := takeId_held (P := fun g => g = c0.gid ∨ g = c0.egid) h1 hc.gid hc.egid hc.gid
        egid := takeId_held (P := fun g => g = c0.gid ∨ g = c0.egid) h2 hc.gid hc.egid hc.egid }
  | .setfsuid, h, _ => absurd rfl h
  | .setfsgid, _, h => absurd rfl h

theorem dispatch_unprivileged {table : Nat → Option CredHandler}
    (htab : ∀ n h, table n = some h → h ≠ .setfsuid ∧ h ≠ .setfsgid) {c0 c : Cred} (hc : Unprivileged c0 c)
    (r : SyscallRegs) : Unprivileged c0 (dispatch table c r).1 := by
  unfold dispatch
  split
  · rename_i h hh
    exact call_unprivileged hc r h (htab _ h hh).1 (htab _ h hh).2
  · exact hc

theorem syscallNativeTable_checked : ∀ n h, syscallNativeTable n = some h → h ≠ .setfsuid ∧ h ≠ .setfsgid := by
  intro n h hh
  unfold syscallNativeTable at hh
  split at hh <;> simp_all <;> subst hh <;> decide

theorem syscallLinuxTable_checked : ∀ n h, syscallLinuxTable n = some h → h ≠ .setfsuid ∧ h ≠ .setfsgid := by
  intro n h hh
  unfold syscallLinuxTable at hh
  split at hh <;> simp_all <;> subst hh <;> decide

theorem setfsuid_unprivileged_iff {c0 c : Cred} (hc : Unprivileged c0 c) (u : UInt32) :
    Unprivileged c0 (sysSetfsuid c u).1 ↔ u ≠ 0 :=
  ⟨fun h => h.euid, fun h => { hc with euid := h }⟩

theorem setfsgid_unprivileged_iff {c0 c : Cred} (hc : Unprivileged c0 c) (g : UInt32) :
    Unprivileged c0 (sysSetfsgid c g).1 ↔ g = c0.gid ∨ g = c0.egid :=
  ⟨fun h => h.egid, fun h => { hc with egid := h }⟩

theorem dispatch32_unprivileged_iff {c0 c : Cred} (hc : Unprivileged c0 c) (r : SyscallRegs) :
    Unprivileged c0 (dispatch syscallLinux32Table c r).1 ↔ (r.rax.toNat = 122 → r.rdi.toUInt32 ≠ 0) ∧
      (r.rax.toNat = 123 → r.rdi.toUInt32 = c0.gid ∨ r.rdi.toUInt32 = c0.egid) := by
  by_cases h122 : r.rax.toNat = 122
  · simp only [dispatch, h122, syscallLinux32Table, CredHandler.call]
    simpa using setfsuid_unprivileged_iff hc r.rdi.toUInt32
  by_cases h123 : r.rax.toNat = 123
  · simp only [dispatch, h123, syscallLinux32Table, CredHandler.call]
    simpa using setfsgid_unprivileged_iff hc r.rdi.toUInt32
  refine ⟨fun _ => ⟨fun h => absurd h h122, fun h => absurd h h123⟩, fun _ => ?_⟩
  unfold dispatch
  split
  · rename_i h hh
    refine call_unprivileged hc r h ?_ ?_ <;> rintro rfl <;> unfold syscallLinux32Table at hh <;>
      split at hh <;> simp_all
  · exact hc

/-- **One call is exact**: an unprivileged task stays so just when the call is not an unchecked one with a forbidden
argument. -/
theorem credStep_unprivileged_iff {c0 : Cred} {t : CredTask} (ht : Unprivileged c0 t.cred) (e : Entry) :
    Unprivileged c0 (credStep t e).cred ↔ FsCallOk c0 e := by
  cases e with
  | syscall r =>
    simp only [FsCallOk, iff_true, credStep, syscallHandler]
    split
    · exact dispatch_unprivileged syscallLinuxTable_checked ht r
    · exact dispatch_unprivileged syscallNativeTable_checked ht r
  | int80 r => exact dispatch32_unprivileged_iff ht (int80Regs r)

/-- **No escalation but through `setfsuid` and `setfsgid`**: from a task with no root id, every state of a run of calls
through either entry has no root id and only group ids held at the start, just when no `setfs*id` call of the 32-bit
table carries a forbidden argument. -/
theorem unprivileged_iff_fsCallsOk (t : CredTask) (hu : t.cred.uid ≠ 0) (he : t.cred.euid ≠ 0) (calls : List Entry) :
    (∀ t' ∈ Run.states credStep t calls, Unprivileged t.cred t'.cred) ↔ ∀ e ∈ calls, FsCallOk t.cred e := by
  have h0 : Unprivileged t.cred t.cred := ⟨hu, he, .inl rfl, .inr rfl⟩
  have hrun : _ ↔ Run.Guarded credStep (fun _ e => FsCallOk t.cred e) t calls :=
    Run.states_forall_iff (P := fun t' => Unprivileged t.cred t'.cred)
      (fun s e hs => credStep_unprivileged_iff hs e) calls t h0
  exact hrun.trans (Run.guarded_iff_forall_mem calls t)

/-- The statement at a native task that names its own group to `setfsgid` and then tries `setuid(0)`. -/
theorem unprivileged_setfsgid_own_group :
    (∀ e ∈ [Entry.int80 { rax := 123, rbx := 100 }, .syscall { rax := 105 }], FsCallOk ⟨1000, 100, 1000, 100⟩ e) ∧
    ∀ t' ∈ Run.states credStep ⟨⟨1000, 100, 1000, 100⟩, false⟩
      [.int80 { rax := 123, rbx := 100 }, .syscall { rax := 105 }],
      Unprivileged ⟨1000, 100, 1000, 100⟩ t'.cred :=
  ⟨by decide, (unprivileged_iff_fsCallsOk ⟨⟨1000, 100, 1000, 100⟩, false⟩ (by decide) (by decide) _).2 (by decide)⟩

/-- `int 0x80` with `eax = 122` and `ebx = 0` makes the effective user id of an ordinary task root. -/
theorem int80_setfsuid_escalates :
    ¬ ∀ t' ∈ Run.states credStep ⟨⟨1000, 100, 1000, 100⟩, false⟩ [.int80 { rax := 122, rbx := 0 }],
      Unprivileged ⟨1000, 100, 1000, 100⟩ t'.cred := by
  intro h
  have := (h _ (List.mem_cons_of_mem _ (Run.head_mem_states _ []))).euid
  exact this (by decide)

end EterOS.Syscall
