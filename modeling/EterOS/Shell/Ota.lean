import EterOS.Lib.Bytes
import EterOS.Lib.Run
/-!
# Ota — updates of the A/B slots

The commands of `src/kernel/shell/cmd_ota.c` over `src/kernel/drivers/disk/partition.c` and the two registers of
`src/kernel/arch/x86_64/boot/nvram.c`.  A command runs as a sequence of writes, each a step; the machine may be reset before
any of them, by a reboot or by a power failure, and boots the slot the registers name.  What was downloaded, how many sector
writes succeed and whether the read-back does are the event's.
-/
namespace EterOS.Ota

open Function
open Buffer (blit)

def UPDATE_STATE_NONE : Nat := 0
def UPDATE_STATE_PENDING : Nat := 1
def UPDATE_STATE_SUCCESS : Nat := 2
def UPDATE_STATE_FAILED : Nat := 3

def nvramGetBootPartition (reg : Nat) : Nat := if reg ≠ 0 ∧ reg ≠ 1 then 0xFF else reg

def nvramGetUpdateState (reg : Nat) : Nat := if UPDATE_STATE_FAILED < reg then UPDATE_STATE_NONE else reg

structure Machine where
  partitionCount : Nat
  activePartitionIndex : Int
  sectorSize : Nat
  sectorCount : Nat → Nat
  ed25519Verify : List UInt8 → List UInt8 → Bool

/-- A download: the image, what stands behind it in memory, how many sector writes succeed, and whether the slot reads
back. -/
structure Download where
  image : List UInt8
  beyond : Buffer
  good : Nat
  readOk : Bool

/-- What is written from the position `i` of the image on. -/
def Download.data (d : Download) : Buffer := fun i => d.image.getD i (d.beyond (i - d.image.length))

inductive Job where
  | idle
  | sector (part : Nat) (d : Download) (k : Nat)
  | commitBoot (part : Nat)
  | commitState
  | confirmState
  | rollbackBoot (part : Nat)
  | rollbackState

/-- The registers, the partitions, `cached_active_idx` and the command; and of the history: the slot that was booted, the
slots run from so far, those among them not written since, and of the update applied last its slot, the slot that was running
then and whether it has been booted. -/
structure State where
  bootReg : Nat
  stateReg : Nat
  parts : Nat → Buffer
  cached : Option Int
  job : Job
  running : Int
  ran : Int → Bool
  intact : Int → Bool
  target : Int
  origin : Int
  booted : Bool

inductive Event where
  | update (payload : Option (List UInt8)) (beyond : Buffer) (good : Nat) (readOk : Bool)
  | confirm
  | rollback
  | next
  | reset

namespace Machine

def named (M : Machine) (bootReg : Nat) : Int :=
  if nvramGetBootPartition bootReg ≠ 0xFF ∧ nvramGetBootPartition bootReg < M.partitionCount then
    nvramGetBootPartition bootReg
  else M.activePartitionIndex

def active (M : Machine) (s : State) : Int := s.cached.getD (M.named s.bootReg)

def cache (M : Machine) (s : State) : State :=
  { s with cached := if M.active s = 0 ∨ M.active s = 1 then some (M.active s) else s.cached }

def activeRoot (M : Machine) (s : State) : Option Nat :=
  if M.active s ≠ 0 ∧ M.active s ≠ 1 then none
  else if (M.partitionCount : Int) ≤ M.active s then none
  else some (M.active s).toNat

def passiveRoot (M : Machine) (s : State) : Option Nat :=
  if M.partitionCount < 2 then none
  else if M.active s ≠ 0 ∧ M.active s ≠ 1 then none
  else some (if M.active s = 0 then 1 else 0)

def length (M : Machine) (part : Nat) : Nat := M.sectorCount part * M.sectorSize % 2 ^ 32

/-- How many sectors `partition_write(node, 0, size, …)` goes through, and the size it then has. -/
def span (M : Machine) (part size : Nat) : Nat × Nat :=
  if M.sectorSize = 0 ∨ M.sectorCount part = 0 then (0, 0)
  else
    let total := (size + 2 ^ 32 - 1) % 2 ^ 32 / M.sectorSize + 1
    if M.sectorCount part < total then (M.sectorCount part, M.sectorCount part * M.sectorSize) else (total, size)

def chunk (M : Machine) (part size k : Nat) : Nat :=
  if k + 1 = (M.span part size).1 then min M.sectorSize (((M.span part size).2 + 2 ^ 32 - k * M.sectorSize) % 2 ^ 32)
  else M.sectorSize

/-- What `partition_write` returns after the sector writes that succeed. -/
def written (M : Machine) (part : Nat) (d : Download) : Nat :=
  if (M.span part d.image.length).1 ≤ d.good then (M.span part d.image.length).2 else d.good * M.sectorSize

/-- The next write of an update after `k` sectors: a sector, or the commit where the image reads back. -/
def afterSectors (M : Machine) (part : Nat) (d : Download) (k : Nat) : Job :=
  if k < (M.span part d.image.length).1 ∧ k < d.good then .sector part d k
  else if M.written part d = d.image.length ∧ d.readOk = true then .commitBoot part
  else .idle

def update (M : Machine) (s : State) (payload : Option (List UInt8)) (beyond : Buffer) (good : Nat) (readOk : Bool) :
    State :=
  if nvramGetUpdateState s.stateReg = UPDATE_STATE_PENDING then s
  else
    match M.passiveRoot s, payload with
    | some part, some payload =>
      if payload.length < 64 then M.cache s
      else if M.ed25519Verify (payload.take 64) (payload.drop 64) = false then M.cache s
      else if M.length part < (payload.drop 64).length then M.cache s
      else { M.cache s with job := M.afterSectors part ⟨payload.drop 64, beyond, good, readOk⟩ 0 }
    | _, _ => M.cache s

def confirm (s : State) : State :=
  if nvramGetUpdateState s.stateReg = UPDATE_STATE_PENDING then { s with job := .confirmState } else s

def rollback (M : Machine) (s : State) : State :=
  if nvramGetUpdateState s.stateReg = UPDATE_STATE_PENDING then
    match M.activeRoot s with
    | some current =>
      if current = nvramGetBootPartition s.bootReg then
        { M.cache s with job := .rollbackBoot (if current = 0 then 1 else 0) }
      else { M.cache s with job := .rollbackBoot current }
    | none => M.cache s
  else s

def next (M : Machine) (s : State) : State :=
  match s.job with
  | .idle => s
  | .sector part d k =>
    { s with
      parts := Function.update s.parts part
        ((s.parts part).blit (k * M.sectorSize) (d.data.drop (k * M.sectorSize)) (M.chunk part d.image.length k))
      intact := Function.update s.intact part false
      job := M.afterSectors part d (k + 1) }
  | .commitBoot part =>
    { s with bootReg := part, job := .commitState, target := part, origin := s.running, booted := false }
  | .commitState => { s with stateReg := UPDATE_STATE_PENDING, job := .idle }
  | .confirmState => { s with stateReg := UPDATE_STATE_SUCCESS, job := .idle }
  | .rollbackBoot part => { s with bootReg := part, job := .rollbackState }
  | .rollbackState => { s with stateReg := UPDATE_STATE_FAILED, job := .idle }

def reset (M : Machine) (s : State) : State :=
  { s with
    job := .idle
    cached := none
    running := M.named s.bootReg
    ran := Function.update s.ran (M.named s.bootReg) true
    intact := Function.update s.intact (M.named s.bootReg) true
    booted := s.booted || decide (M.named s.bootReg = s.target) }

def step (M : Machine) (s : State) : Event → State
  | .update payload beyond good readOk =>
    match s.job with
    | .idle => M.update s payload beyond good readOk
    | _ => s
  | .confirm =>
    match s.job with
    | .idle => confirm s
    | _ => s
  | .rollback =>
    match s.job with
    | .idle => M.rollback s
    | _ => s
  | .next => M.next s
  | .reset => M.reset s

end Machine

/-! ## What is to hold -/

section safety

variable (M : Machine) (Genuine : List UInt8 → Prop)

def State.Pending (s : State) : Prop := nvramGetUpdateState s.stateReg = UPDATE_STATE_PENDING

def State.Holds (s : State) (part : Nat) : Prop :=
  ∃ image, Genuine image ∧ ∀ i < image.length, s.parts part i = image.getD i 0

/-- The slot the boot register names is one of `run`, or holds the whole of a genuine image. -/
def State.Names (s : State) (run : Int → Bool) : Prop :=
  run (M.named s.bootReg) = true ∨ ∃ part : Nat, M.named s.bootReg = part ∧ s.Holds Genuine part

/-- **Safety**: the next write is not to the booted slot, the boot register names a slot the machine has run from or one with
a whole genuine image, what is being confirmed has been booted, and a rollback leads back to where the update came from. -/
structure State.Safe (s : State) : Prop where
  untouched : ∀ part d k, s.job = .sector part d k → (part : Int) ≠ s.running
  names : s.Names M Genuine s.ran
  confirms : s.job = .confirmState → s.booted = true
  rollsBack : s.job = .idle → s.Pending → (M.reset (M.next (M.next (M.rollback s)))).running = s.origin

/-- A pending update is confirmed from the slot that the register names, and no reset comes between the two writes of a
rollback. -/
def State.Orderly (s : State) : Event → Prop
  | .confirm => s.job = .idle → s.Pending → M.active s = nvramGetBootPartition s.bootReg
  | .reset => s.job ≠ .rollbackState
  | _ => True

def State.Settled (s : State) : Event → Prop
  | .update .. => s.job = .idle → ¬ s.Pending → M.active s = M.named s.bootReg
  | _ => True

structure State.Fresh (s : State) : Prop where
  idle : s.job = .idle
  clean : ¬ s.Pending
  named : M.named s.bootReg = s.running
  cached : s.cached = none ∨ s.cached = some s.running
  ran : s.ran s.running = true
  intact : s.intact s.running = true

end safety

/-! ## Registers and slots -/

variable {M : Machine} {Genuine : List UInt8 → Prop} {s : State} {part : Nat}

theorem pending_iff : s.Pending ↔ s.stateReg = 1 := by
  unfold State.Pending nvramGetUpdateState UPDATE_STATE_FAILED UPDATE_STATE_PENDING UPDATE_STATE_NONE
  split <;> omega

def Other (part : Nat) (slot : Int) : Prop := part = 0 ∧ slot = 1 ∨ part = 1 ∧ slot = 0

theorem named_slot (hcount : 2 ≤ M.partitionCount) (hpart : part = 0 ∨ part = 1) : M.named part = part := by
  have hboot : nvramGetBootPartition part = part := if_neg (by omega)
  unfold Machine.named
  rw [hboot, if_pos (by omega)]

theorem passiveRoot_some (h : M.passiveRoot s = some part) : 2 ≤ M.partitionCount ∧ Other part (M.active s) := by
  unfold Machine.passiveRoot at h
  unfold Other
  split at h
  · cases h
  · split at h
    · cases h
    · cases h
      refine ⟨by omega, ?_⟩
      split <;> omega

theorem activeRoot_slot (hcount : 2 ≤ M.partitionCount) (hactive : M.active s = 0 ∨ M.active s = 1) :
    M.activeRoot s = some (M.active s).toNat := by
  unfold Machine.activeRoot
  rw [if_neg (by omega), if_neg (by omega)]

/-! ## The sectors of an image -/

variable {d : Download} {k : Nat}

/-- The first `k` sectors of the image are in the partition. -/
def Copied (M : Machine) (s : State) (part : Nat) (d : Download) (k : Nat) : Prop :=
  ∀ i < d.image.length, i < k * M.sectorSize → s.parts part i = d.image.getD i 0

theorem span_spec (hfits : d.image.length ≤ M.length part) (hne : d.image ≠ []) :
    0 < M.sectorSize ∧ M.span part d.image.length = ((d.image.length - 1) / M.sectorSize + 1, d.image.length) := by
  have hpos : 0 < d.image.length := List.length_pos_iff.2 hne
  unfold Machine.length at hfits
  have hlt : d.image.length < 2 ^ 32 := Nat.lt_of_le_of_lt hfits (Nat.mod_lt _ (by decide))
  have hle : d.image.length ≤ M.sectorCount part * M.sectorSize := hfits.trans (Nat.mod_le _ _)
  have hss : M.sectorSize ≠ 0 := by
    intro h0
    rw [h0, Nat.mul_zero] at hle
    omega
  have hcount : M.sectorCount part ≠ 0 := by
    intro h0
    rw [h0, Nat.zero_mul] at hle
    omega
  have hlast : (d.image.length + 2 ^ 32 - 1) % 2 ^ 32 = d.image.length - 1 := by omega
  have htotal : (d.image.length - 1) / M.sectorSize < M.sectorCount part :=
    (Nat.div_lt_iff_lt_mul (Nat.pos_of_ne_zero hss)).2 (by omega)
  unfold Machine.span
  rw [if_neg (by omega), hlast, if_neg (by omega)]
  exact ⟨Nat.pos_of_ne_zero hss, rfl⟩

theorem committed (hfits : d.image.length ≤ M.length part) (hc : Copied M s part d k) (hG : Genuine d.image)
    (hafter : M.afterSectors part d k = .commitBoot part) : s.Holds Genuine part := by
  refine ⟨d.image, hG, fun i hi => ?_⟩
  have hne : d.image ≠ [] := List.length_pos_iff.1 (Nat.lt_of_le_of_lt (Nat.zero_le i) hi)
  obtain ⟨hss, hspan⟩ := span_spec hfits hne
  unfold Machine.afterSectors Machine.written at hafter
  rw [hspan] at hafter
  dsimp only at hafter
  by_cases hmore : k < (d.image.length - 1) / M.sectorSize + 1 ∧ k < d.good
  · rw [if_pos hmore] at hafter
    cases hafter
  rw [if_neg hmore] at hafter
  by_cases hdone : (if (d.image.length - 1) / M.sectorSize + 1 ≤ d.good then d.image.length else d.good * M.sectorSize) =
      d.image.length ∧ d.readOk = true
  · obtain ⟨hwritten, -⟩ := hdone
    -- the sectors written are all there are: a shorter count of them is short of the image
    have hall : (d.image.length - 1) / M.sectorSize + 1 ≤ d.good := by
      by_contra hshort
      rw [if_neg hshort] at hwritten
      have hle : d.good * M.sectorSize ≤ (d.image.length - 1) / M.sectorSize * M.sectorSize :=
        Nat.mul_le_mul_right _ (by omega)
      have := Nat.div_mul_le_self (d.image.length - 1) M.sectorSize
      omega
    refine hc i hi ?_
    have hk : (d.image.length - 1) / M.sectorSize + 1 ≤ k := by omega
    have hlt := Nat.lt_mul_of_div_lt (Nat.lt_of_lt_of_le (Nat.lt_succ_self _) hk) hss
    omega
  · rw [if_neg hdone] at hafter
    cases hafter

theorem Copied.next (hc : Copied M s part d k) (hfits : d.image.length ≤ M.length part) (hjob : s.job = .sector part d k) :
    Copied M (M.next s) part d (k + 1) := by
  intro i hi hik
  have hne : d.image ≠ [] := List.length_pos_iff.1 (Nat.lt_of_le_of_lt (Nat.zero_le i) hi)
  obtain ⟨hss, hspan⟩ := span_spec hfits hne
  unfold Machine.next Machine.chunk
  rw [hjob]
  dsimp only
  rw [hspan]
  rw [update_self]
  rw [Nat.add_mul, Nat.one_mul] at hik
  by_cases hold : i < k * M.sectorSize
  · rw [Buffer.blit_of_lt hold]
    exact hc i hi hold
  · have hlt : d.image.length < 2 ^ 32 := Nat.lt_of_le_of_lt hfits (Nat.mod_lt _ (by decide))
    have hchunk : i < k * M.sectorSize + (if k + 1 = (d.image.length - 1) / M.sectorSize + 1 then
        min M.sectorSize ((d.image.length + 2 ^ 32 - k * M.sectorSize) % 2 ^ 32) else M.sectorSize) := by
      have hle : k * M.sectorSize ≤ i := Nat.le_of_not_lt hold
      have hrest : (d.image.length + 2 ^ 32 - k * M.sectorSize) % 2 ^ 32 = d.image.length - k * M.sectorSize := by omega
      rw [hrest]
      split <;> omega
    rw [Buffer.blit_of_mem (Nat.le_of_not_lt hold) hchunk]
    unfold Buffer.drop Download.data
    rw [Nat.add_sub_cancel' (Nat.le_of_not_lt hold)]
    simp [List.getElem?_eq_getElem hi]

/-! ## The invariant -/

structure Pend (M : Machine) (Genuine : List UInt8 → Prop) (s : State) : Prop where
  pending : s.Pending
  two : 2 ≤ M.partitionCount
  other : Other s.bootReg s.origin
  target : s.target = s.bootReg
  ran : s.ran s.origin = true
  place : s.running = s.origin ∧ s.Holds Genuine s.bootReg ∨ s.running = s.bootReg ∧ s.booted = true

def Phase (M : Machine) (Genuine : List UInt8 → Prop) (s : State) : Job → Prop
  | .idle => (s.Pending → Pend M Genuine s) ∧ (¬ s.Pending → s.ran (M.named s.bootReg) = true)
  | .sector part d k => ¬ s.Pending ∧ s.ran (M.named s.bootReg) = true ∧ 2 ≤ M.partitionCount ∧ Other part s.running ∧
      s.cached = some s.running ∧ Genuine d.image ∧ d.image.length ≤ M.length part ∧ Copied M s part d k
  | .commitBoot part => ¬ s.Pending ∧ s.ran (M.named s.bootReg) = true ∧ 2 ≤ M.partitionCount ∧ Other part s.running ∧
      s.cached = some s.running ∧ s.Holds Genuine part
  | .commitState => 2 ≤ M.partitionCount ∧ Other s.bootReg s.running ∧ s.cached = some s.running ∧
      s.Holds Genuine s.bootReg ∧
      s.target = s.bootReg ∧ s.origin = s.running ∧ ¬ s.Pending
  | .confirmState => Pend M Genuine s ∧ s.running = s.bootReg ∧ s.booted = true
  | .rollbackBoot part => Pend M Genuine s ∧ s.cached = some s.running ∧ (part : Int) = s.origin
  | .rollbackState => s.cached = some s.running ∧ s.ran (M.named s.bootReg) = true

/-- **The invariant.** -/
structure Ok (M : Machine) (Genuine : List UInt8 → Prop) (s : State) : Prop where
  cached : s.cached = some s.running ∨ s.cached = none ∧ M.named s.bootReg = s.running
  ran : s.ran s.running = true
  phase : Phase M Genuine s s.job

theorem Ok.active (h : Ok M Genuine s) : M.active s = s.running := by
  unfold Machine.active
  rcases h.cached with hc | ⟨hc, hn⟩
  · rw [hc]
    rfl
  · rw [hc]
    exact hn

theorem Other.slot {part : Nat} {slot : Int} (h : Other part slot) : part = 0 ∨ part = 1 := by
  unfold Other at h
  omega

theorem Pend.named (h : Pend M Genuine s) : M.named s.bootReg = s.bootReg := named_slot h.two h.other.slot

/-- **A reset** outside a rollback: what is pending is then running. -/
theorem Ok.reset (h : Ok M Genuine s) (hjob : s.job ≠ .rollbackState) : Ok M Genuine (M.reset s) := by
  have hpend : Pend M Genuine s → Pend M Genuine (M.reset s) := by
    intro hp
    refine ⟨hp.pending, hp.two, hp.other, hp.target, ?_, .inr ⟨hp.named, ?_⟩⟩
    · by_cases he : s.origin = M.named s.bootReg
      · unfold Machine.reset
        rw [he]
        exact update_self ..
      · exact (update_of_ne he ..).trans hp.ran
    · unfold Machine.reset
      rw [hp.named, hp.target, decide_eq_true rfl, Bool.or_true]
  refine ⟨.inr ⟨rfl, rfl⟩, update_self .., fun hpending => hpend ?_, fun _ => update_self ..⟩
  have hphase := h.phase
  cases hj : s.job with
  | idle =>
    rw [hj] at hphase
    exact hphase.1 hpending
  | sector part d k =>
    rw [hj] at hphase
    exact absurd hpending hphase.1
  | commitBoot part =>
    rw [hj] at hphase
    exact absurd hpending hphase.1
  | commitState =>
    rw [hj] at hphase
    exact absurd hpending hphase.2.2.2.2.2.2
  | confirmState =>
    rw [hj] at hphase
    exact hphase.1
  | rollbackBoot part =>
    rw [hj] at hphase
    exact hphase.1
  | rollbackState => exact absurd hj hjob

theorem phase_afterSectors (hn : ¬ s.Pending) (hran : s.ran (M.named s.bootReg) = true) (htwo : 2 ≤ M.partitionCount)
    (hother : Other part s.running) (hcached : s.cached = some s.running) (hG : Genuine d.image)
    (hfits : d.image.length ≤ M.length part) (hc : Copied M s part d k) : Phase M Genuine s (M.afterSectors part d k) := by
  have hcommit : M.afterSectors part d k = .commitBoot part → s.Holds Genuine part := committed hfits hc hG
  unfold Machine.afterSectors at hcommit ⊢
  split at hcommit
  · rename_i hmore
    rw [if_pos hmore]
    exact ⟨hn, hran, htwo, hother, hcached, hG, hfits, hc⟩
  · rename_i hmore
    rw [if_neg hmore]
    split at hcommit
    · rename_i hdone
      rw [if_pos hdone]
      exact ⟨hn, hran, htwo, hother, hcached, hcommit rfl⟩
    · rename_i hdone
      rw [if_neg hdone]
      exact ⟨fun hp => absurd hp hn, fun _ => hran⟩

theorem Ok.next (h : Ok M Genuine s) : Ok M Genuine (M.next s) := by
  obtain ⟨hcached, hran, hphase⟩ := h
  unfold Machine.next
  cases hj : s.job with
  | idle => exact ⟨hcached, hran, hphase⟩
  | sector part d k =>
    rw [hj] at hphase
    obtain ⟨hn, hnamed, htwo, hother, hc, hG, hfits, hcopied⟩ := hphase
    have hnext := hcopied.next hfits hj
    unfold Machine.next at hnext
    rw [hj] at hnext
    exact ⟨hcached, hran, phase_afterSectors hn hnamed htwo hother hc hG hfits hnext⟩
  | commitBoot part =>
    rw [hj] at hphase
    obtain ⟨hn, -, htwo, hother, hc, hholds⟩ := hphase
    exact ⟨.inl hc, hran, htwo, hother, hc, hholds, rfl, rfl, hn⟩
  | commitState =>
    rw [hj] at hphase
    obtain ⟨htwo, hother, hc, hholds, htarget, horigin, -⟩ := hphase
    refine ⟨.inl hc, hran, fun _ => ⟨pending_iff.2 rfl, htwo, ?_, htarget, ?_, .inl ⟨horigin.symm, hholds⟩⟩, fun hn => ?_⟩
    · dsimp only
      rw [horigin]
      exact hother
    · dsimp only
      rw [horigin]
      exact hran
    · exact absurd (pending_iff.2 rfl) hn
  | confirmState =>
    rw [hj] at hphase
    obtain ⟨hp, hrunning, -⟩ := hphase
    refine ⟨hcached, hran, fun hpending => ?_, fun _ => ?_⟩
    · exact absurd (pending_iff.1 hpending) (by decide : UPDATE_STATE_SUCCESS ≠ 1)
    · dsimp only
      rw [hp.named, ← hrunning]
      exact hran
  | rollbackBoot part =>
    rw [hj] at hphase
    obtain ⟨hp, hc, hpart⟩ := hphase
    refine ⟨.inl hc, hran, hc, ?_⟩
    have hslot : part = 0 ∨ part = 1 := by
      have hother := hp.other
      unfold Other at hother
      omega
    dsimp only
    rw [named_slot hp.two hslot, hpart]
    exact hp.ran
  | rollbackState =>
    rw [hj] at hphase
    obtain ⟨hc, hnamed⟩ := hphase
    exact ⟨.inl hc, hran, fun hpending => absurd (pending_iff.1 hpending) (by decide : UPDATE_STATE_FAILED ≠ 1),
      fun _ => hnamed⟩

theorem Pend.cache (h : Pend M Genuine s) : Pend M Genuine (M.cache s) :=
  ⟨h.pending, h.two, h.other, h.target, h.ran, h.place⟩

theorem Ok.cached_slot (h : Ok M Genuine s) (hslot : s.running = 0 ∨ s.running = 1) :
    (M.cache s).cached = some s.running := by
  unfold Machine.cache
  rw [h.active, if_pos hslot]

theorem Ok.cache (h : Ok M Genuine s) (hj : s.job = .idle) : Ok M Genuine (M.cache s) := by
  have hphase := h.phase
  rw [hj] at hphase
  refine ⟨?_, h.ran, ?_⟩
  · by_cases hslot : s.running = 0 ∨ s.running = 1
    · exact .inl (h.cached_slot hslot)
    · unfold Machine.cache
      rw [h.active, if_neg hslot]
      exact h.cached
  · show Phase M Genuine (M.cache s) s.job
    rw [hj]
    exact ⟨fun hp => (hphase.1 hp).cache, hphase.2⟩

theorem Ok.update (h : Ok M Genuine s) (hj : s.job = .idle)
    (hverify : ∀ sig image, M.ed25519Verify sig image = true → Genuine image)
    (payload : Option (List UInt8)) (beyond : Buffer) (good : Nat) (readOk : Bool) :
    Ok M Genuine (M.update s payload beyond good readOk) := by
  unfold Machine.update
  by_cases hp : nvramGetUpdateState s.stateReg = UPDATE_STATE_PENDING
  · rw [if_pos hp]
    exact h
  rw [if_neg hp]
  have hcache := h.cache hj
  cases hroot : M.passiveRoot s with
  | none => exact hcache
  | some part =>
    cases payload with
    | none => exact hcache
    | some payload =>
      dsimp only
      split_ifs with hshort hsig hbig
      · exact hcache
      · exact hcache
      · exact hcache
      · obtain ⟨htwo, hother⟩ := passiveRoot_some hroot
        rw [h.active] at hother
        have hslot : s.running = 0 ∨ s.running = 1 := by
          unfold Other at hother
          omega
        have hphase := h.phase
        rw [hj] at hphase
        have hG : Genuine (payload.drop 64) := hverify _ _ (Bool.eq_true_of_not_eq_false hsig)
        refine ⟨hcache.cached, hcache.ran, phase_afterSectors hp (hphase.2 hp) htwo hother (h.cached_slot hslot) hG
          (Nat.le_of_not_lt hbig) fun i _ hi => ?_⟩
        rw [Nat.zero_mul] at hi
        exact absurd hi (Nat.not_lt_zero i)

/-- **`ota confirm`** from the slot the register names. -/
theorem Ok.confirm (h : Ok M Genuine s) (hj : s.job = .idle)
    (hnamed : s.Pending → M.active s = nvramGetBootPartition s.bootReg) :
    Ok M Genuine (Machine.confirm s) := by
  unfold Machine.confirm
  by_cases hp : nvramGetUpdateState s.stateReg = UPDATE_STATE_PENDING
  · rw [if_pos hp]
    have hphase := h.phase
    rw [hj] at hphase
    have hpend := hphase.1 hp
    have hother := hpend.other
    have hboot : nvramGetBootPartition s.bootReg = s.bootReg := if_neg (by unfold Other at hother; omega)
    have hrunning : s.running = s.bootReg := by
      rw [← h.active, hnamed hp, hboot]
    have hplace := hpend.place
    unfold Other at hother
    refine ⟨h.cached, h.ran, ⟨hpend.pending, hpend.two, hpend.other, hpend.target, hpend.ran, hplace⟩, hrunning, ?_⟩
    rcases hplace with ⟨ho, -⟩ | ⟨-, hb⟩
    · omega
    · exact hb
  · rw [if_neg hp]
    exact h

theorem Ok.rollback_eq (h : Ok M Genuine s) (hp : Pend M Genuine s) :
    ∃ part : Nat, (part : Int) = s.origin ∧ (s.running = 0 ∨ s.running = 1) ∧
      M.rollback s = { M.cache s with job := .rollbackBoot part } := by
  have hother := hp.other
  have hplace := hp.place
  have hboot : nvramGetBootPartition s.bootReg = s.bootReg := if_neg (by unfold Other at hother; omega)
  have hslot : s.running = 0 ∨ s.running = 1 := by
    unfold Other at hother
    rcases hplace with ⟨hr, -⟩ | ⟨hr, -⟩ <;> omega
  have hpending : nvramGetUpdateState s.stateReg = UPDATE_STATE_PENDING := hp.pending
  unfold Machine.rollback
  rw [if_pos hpending, activeRoot_slot hp.two (by rw [h.active]; exact hslot), h.active, hboot]
  dsimp only
  unfold Other at hother
  by_cases hsame : s.running.toNat = s.bootReg
  · rw [if_pos hsame]
    refine ⟨_, ?_, hslot, rfl⟩
    split <;> omega
  · rw [if_neg hsame]
    refine ⟨_, ?_, hslot, rfl⟩
    rcases hplace with ⟨hr, -⟩ | ⟨hr, -⟩ <;> omega

/-- **`ota rollback`**, up to its first write. -/
theorem Ok.rollback (h : Ok M Genuine s) (hj : s.job = .idle) : Ok M Genuine (M.rollback s) := by
  by_cases hp : s.Pending
  · have hphase := h.phase
    rw [hj] at hphase
    have hpend := hphase.1 hp
    obtain ⟨part, hpart, hslot, he⟩ := h.rollback_eq hpend
    rw [he]
    have hc := h.cached_slot hslot
    exact ⟨.inl hc, h.ran, ⟨hpend.pending, hpend.two, hpend.other, hpend.target, hpend.ran, hpend.place⟩, hc, hpart⟩
  · have hsame : M.rollback s = s := if_neg hp
    rw [hsame]
    exact h

theorem Ok.step (h : Ok M Genuine s) (hverify : ∀ sig image, M.ed25519Verify sig image = true → Genuine image) {e : Event}
    (he : s.Orderly M e) : Ok M Genuine (M.step s e) := by
  cases e with
  | update payload beyond good readOk =>
    unfold Machine.step
    dsimp only
    split
    · rename_i hj
      exact h.update hj hverify payload beyond good readOk
    · exact h
  | confirm =>
    unfold Machine.step
    dsimp only
    split
    · rename_i hj
      exact h.confirm hj (he hj)
    · exact h
  | rollback =>
    unfold Machine.step
    dsimp only
    split
    · rename_i hj
      exact h.rollback hj
    · exact h
  | next => exact h.next
  | reset => exact h.reset he

theorem Ok.safe (h : Ok M Genuine s) : s.Safe M Genuine := by
  have hphase := h.phase
  refine ⟨fun part d k hj => ?_, ?_, fun hj => ?_, fun hj hp => ?_⟩
  · rw [hj] at hphase
    obtain ⟨-, -, -, hother, -⟩ := hphase
    unfold Other at hother
    omega
  · have hpend : Pend M Genuine s → s.Names M Genuine s.ran := by
      intro hp
      unfold State.Names
      rw [hp.named]
      rcases hp.place with ⟨-, hholds⟩ | ⟨hr, -⟩
      · exact .inr ⟨s.bootReg, rfl, hholds⟩
      · rw [← hr]
        exact .inl h.ran
    cases hj : s.job with
    | idle =>
      rw [hj] at hphase
      by_cases hp : s.Pending
      · exact hpend (hphase.1 hp)
      · exact .inl (hphase.2 hp)
    | sector part d k =>
      rw [hj] at hphase
      exact .inl hphase.2.1
    | commitBoot part =>
      rw [hj] at hphase
      exact .inl hphase.2.1
    | commitState =>
      rw [hj] at hphase
      obtain ⟨htwo, hother, -, hholds, -⟩ := hphase
      exact .inr ⟨s.bootReg, named_slot htwo hother.slot, hholds⟩
    | confirmState =>
      rw [hj] at hphase
      exact hpend hphase.1
    | rollbackBoot part =>
      rw [hj] at hphase
      exact hpend hphase.1
    | rollbackState =>
      rw [hj] at hphase
      exact .inl hphase.2
  · rw [hj] at hphase
    exact hphase.2.2
  · rw [hj] at hphase
    have hpend := hphase.1 hp
    obtain ⟨part, hpart, -, he⟩ := h.rollback_eq hpend
    have hother := hpend.other
    rw [he]
    show M.named part = s.origin
    rw [named_slot hpend.two (by unfold Other at hother; omega), hpart]

/-! ## Slots not written since they were run -/

/-- Where a command may be under way, the slot that counts has not been written since it was run from. -/
def Whole (M : Machine) (s : State) : Job → Prop
  | .idle => (s.Pending → s.intact s.origin = true) ∧ (¬ s.Pending → s.intact (M.named s.bootReg) = true)
  | .sector .. | .commitBoot _ => M.named s.bootReg = s.running
  | .commitState => True
  | .confirmState => s.intact s.origin = true
  | .rollbackBoot _ => s.intact s.origin = true
  | .rollbackState => s.intact (M.named s.bootReg) = true

structure Kept (M : Machine) (Genuine : List UInt8 → Prop) (s : State) : Prop extends Ok M Genuine s where
  kept : s.intact s.running = true ∧ Whole M s s.job

theorem Kept.intact (h : Kept M Genuine s) : s.intact s.running = true := h.kept.1

theorem Kept.whole (h : Kept M Genuine s) : Whole M s s.job := h.kept.2

theorem Kept.reset (h : Kept M Genuine s) (hjob : s.job ≠ .rollbackState) : Kept M Genuine (M.reset s) := by
  refine ⟨h.toOk.reset hjob, update_self .., fun hp => ?_, fun _ => update_self ..⟩
  have horigin : s.intact s.origin = true := by
    have hphase := h.phase
    have hwhole := h.whole
    cases hj : s.job with
    | idle =>
      rw [hj] at hwhole
      exact hwhole.1 hp
    | sector part d k =>
      rw [hj] at hphase
      exact absurd hp hphase.1
    | commitBoot part =>
      rw [hj] at hphase
      exact absurd hp hphase.1
    | commitState =>
      rw [hj] at hphase
      exact absurd hp hphase.2.2.2.2.2.2
    | confirmState =>
      rw [hj] at hwhole
      exact hwhole
    | rollbackBoot part =>
      rw [hj] at hwhole
      exact hwhole
    | rollbackState => exact absurd hj hjob
  show Function.update s.intact (M.named s.bootReg) true s.origin = true
  by_cases he : s.origin = M.named s.bootReg
  · rw [he]
    exact update_self ..
  · rw [update_of_ne he]
    exact horigin

/-- The job that an update comes to after its sectors, where the register names the slot that is running. -/
theorem whole_afterSectors (hn : ¬ s.Pending) (hnamed : M.named s.bootReg = s.running)
    (hintact : s.intact s.running = true) :
    Whole M s (M.afterSectors part d k) := by
  unfold Machine.afterSectors
  split_ifs
  · exact hnamed
  · exact hnamed
  · refine ⟨fun hp => absurd hp hn, fun _ => ?_⟩
    rw [hnamed]
    exact hintact

theorem Kept.next (h : Kept M Genuine s) : Kept M Genuine (M.next s) := by
  have hok := h.toOk.next
  have hphase := h.phase
  have hwhole := h.whole
  have hintact := h.intact
  refine ⟨hok, ?_⟩
  clear hok
  unfold Machine.next
  cases hj : s.job with
  | idle => exact ⟨hintact, hwhole⟩
  | sector part d k =>
    rw [hj] at hphase hwhole
    obtain ⟨hn, -, -, hother, -⟩ := hphase
    have hne : s.running ≠ part := by
      unfold Other at hother
      omega
    have hstill : Function.update s.intact part false s.running = true := by
      rw [update_of_ne hne]
      exact hintact
    exact ⟨hstill, whole_afterSectors hn hwhole hstill⟩
  | commitBoot part => exact ⟨hintact, trivial⟩
  | commitState =>
    rw [hj] at hphase
    obtain ⟨-, -, -, -, -, horigin, -⟩ := hphase
    refine ⟨hintact, fun _ => ?_, fun hn => absurd (pending_iff.2 rfl) hn⟩
    dsimp only
    rw [horigin]
    exact hintact
  | confirmState =>
    rw [hj] at hphase
    obtain ⟨hp, hrunning, -⟩ := hphase
    refine ⟨hintact, fun hpending => absurd (pending_iff.1 hpending) (by decide : UPDATE_STATE_SUCCESS ≠ 1), fun _ => ?_⟩
    dsimp only
    rw [hp.named, ← hrunning]
    exact hintact
  | rollbackBoot part =>
    rw [hj] at hphase hwhole
    obtain ⟨hp, -, hpart⟩ := hphase
    have hother := hp.other
    refine ⟨hintact, ?_⟩
    show s.intact (M.named part) = true
    rw [named_slot hp.two (by unfold Other at hother; omega), hpart]
    exact hwhole
  | rollbackState =>
    rw [hj] at hwhole
    exact ⟨hintact, fun hpending => absurd (pending_iff.1 hpending) (by decide : UPDATE_STATE_FAILED ≠ 1), fun _ => hwhole⟩

theorem Kept.step (h : Kept M Genuine s) (hverify : ∀ sig image, M.ed25519Verify sig image = true → Genuine image)
    {e : Event}
    (he : s.Orderly M e) (hset : s.Settled M e) : Kept M Genuine (M.step s e) := by
  have hwhole := h.whole
  cases e with
  | update payload beyond good readOk =>
    unfold Machine.step
    dsimp only
    split
    · rename_i hj
      rw [hj] at hwhole
      have hok := h.toOk.update hj hverify payload beyond good readOk
      refine ⟨hok, ?_⟩
      clear hok
      have hcache : (M.cache s).intact (M.cache s).running = true ∧ Whole M (M.cache s) (M.cache s).job := by
        refine ⟨h.intact, ?_⟩
        show Whole M (M.cache s) s.job
        rw [hj]
        exact hwhole
      unfold Machine.update
      by_cases hp : nvramGetUpdateState s.stateReg = UPDATE_STATE_PENDING
      · rw [if_pos hp]
        exact ⟨h.intact, h.whole⟩
      rw [if_neg hp]
      have hnamed : M.named s.bootReg = s.running := by
        rw [← h.toOk.active]
        exact (hset hj hp).symm
      split
      · split_ifs
        · exact hcache
        · exact hcache
        · exact hcache
        · exact ⟨h.intact, whole_afterSectors hp hnamed h.intact⟩
      · exact hcache
    · exact h
  | confirm =>
    unfold Machine.step
    dsimp only
    split
    · rename_i hj
      rw [hj] at hwhole
      refine ⟨h.toOk.confirm hj (he hj), ?_⟩
      unfold Machine.confirm
      by_cases hp : nvramGetUpdateState s.stateReg = UPDATE_STATE_PENDING
      · rw [if_pos hp]
        exact ⟨h.intact, hwhole.1 hp⟩
      · rw [if_neg hp]
        exact ⟨h.intact, h.whole⟩
    · exact h
  | rollback =>
    unfold Machine.step
    dsimp only
    split
    · rename_i hj
      rw [hj] at hwhole
      refine ⟨h.toOk.rollback hj, ?_⟩
      by_cases hp : s.Pending
      · have hphase := h.phase
        rw [hj] at hphase
        obtain ⟨part, -, -, heq⟩ := h.toOk.rollback_eq (hphase.1 hp)
        rw [heq]
        exact ⟨h.intact, hwhole.1 hp⟩
      · have hsame : M.rollback s = s := if_neg hp
        rw [hsame]
        exact ⟨h.intact, h.whole⟩
    · exact h
  | next => exact h.next
  | reset => exact h.reset he

theorem Kept.names (h : Kept M Genuine s) : s.Names M Genuine s.intact := by
  have hphase := h.phase
  have hwhole := h.whole
  have hpend : Pend M Genuine s → s.Names M Genuine s.intact := by
    intro hp
    unfold State.Names
    rw [hp.named]
    rcases hp.place with ⟨-, hholds⟩ | ⟨hr, -⟩
    · exact .inr ⟨s.bootReg, rfl, hholds⟩
    · rw [← hr]
      exact .inl h.intact
  have hrunning : M.named s.bootReg = s.running → s.Names M Genuine s.intact := by
    intro hnamed
    left
    rw [hnamed]
    exact h.intact
  cases hj : s.job with
  | idle =>
    rw [hj] at hphase hwhole
    by_cases hp : s.Pending
    · exact hpend (hphase.1 hp)
    · exact .inl (hwhole.2 hp)
  | sector part d k =>
    rw [hj] at hwhole
    exact hrunning hwhole
  | commitBoot part =>
    rw [hj] at hwhole
    exact hrunning hwhole
  | commitState =>
    rw [hj] at hphase
    obtain ⟨htwo, hother, -, hholds, -⟩ := hphase
    exact .inr ⟨s.bootReg, named_slot htwo hother.slot, hholds⟩
  | confirmState =>
    rw [hj] at hphase
    exact hpend hphase.1
  | rollbackBoot part =>
    rw [hj] at hphase
    exact hpend hphase.1
  | rollbackState =>
    rw [hj] at hwhole
    exact .inl hwhole

/-! ## Runs -/

theorem State.Fresh.kept (h : s.Fresh M) : Kept M Genuine s := by
  have hnamed := h.named
  refine ⟨⟨?_, h.ran, ?_⟩, h.intact, ?_⟩
  · rcases h.cached with hc | hc
    · exact .inr ⟨hc, h.named⟩
    · exact .inl hc
  · rw [h.idle]
    refine ⟨fun hp => absurd hp h.clean, fun _ => ?_⟩
    rw [hnamed]
    exact h.ran
  · rw [h.idle]
    refine ⟨fun hp => absurd hp h.clean, fun _ => ?_⟩
    rw [hnamed]
    exact h.intact

/-- **The machine keeps a good slot** over any commands and resets, where a pending update is confirmed from its own slot and
no reset cuts a rollback; where updates too start from the slot the register names, what this names was not written since it
was run from. -/
theorem ota_safe (M : Machine) (Genuine : List UInt8 → Prop)
    (hverify : ∀ sig image, M.ed25519Verify sig image = true → Genuine image) (s : State) (hs : s.Fresh M)
      (events : List Event)
    (hg : Run.Guarded M.step (State.Orderly M) s events) :
    (∀ s' ∈ Run.states M.step s events, s'.Safe M Genuine) ∧
    (Run.Guarded M.step (State.Settled M) s events → ∀ s' ∈ Run.states M.step s events, s'.Names M Genuine s'.intact) := by
  have hkept : Kept M Genuine s := hs.kept
  constructor
  · intro s' hs'
    have hok := Run.states_forall (P := Ok M Genuine) (fun s e h he => h.step hverify he) events s hkept.toOk hg s' hs'
    exact hok.safe
  · intro hset s' hs'
    have hboth : Run.Guarded M.step (fun s e => s.Orderly M e ∧ s.Settled M e) s events := by
      clear hkept hs hs'
      induction events generalizing s with
      | nil => trivial
      | cons e events ih => exact ⟨⟨hg.1, hset.1⟩, ih _ hg.2 hset.2⟩
    have hall := Run.states_forall (P := Kept M Genuine)
      (fun s e h he => h.step hverify he.1 he.2) events s hkept hboth s' hs'
    exact hall.names

/-! ## A machine of two slots -/

def isGenuine (image : List UInt8) : Bool := image = [7, 8] ∨ image = [9, 9]

def twoSlots : Machine := ⟨2, 0, 1, fun _ => 4, fun _ image => isGenuine image⟩

def cameUp : State :=
  { bootReg := 0
    stateReg := 0
    parts := fun _ _ => 0
    cached := none
    job := .idle
    running := 0
    ran := fun slot => slot = 0
    intact := fun slot => slot = 0
    target := 0
    origin := 0
    booted := false }

def download (image : List UInt8) : Event := .update (some (List.replicate 64 0 ++ image)) (fun _ => 0) 4 true

def confirmedRun : List Event := [download [7, 8], .next, .next, .next, .next, .reset, .confirm, .next]

def confirmedEarly : List Event :=
  [download [7, 8], .next, .next, .next, .next, .confirm, .next, download [9, 9], .next]

def rollbackCut : List Event := [download [7, 8], .next, .next, .next, .next, .rollback, .next, .reset]

theorem cameUp_fresh : cameUp.Fresh twoSlots := by
  refine ⟨rfl, ?_, by decide, .inl rfl, by decide, by decide⟩
  rw [pending_iff]
  decide

/-- The update is applied, booted and confirmed. -/
theorem ota_safe_confirmed :
    (∀ s' ∈ Run.states twoSlots.step cameUp confirmedRun, s'.Safe twoSlots (fun image => isGenuine image)) ∧
    ∀ s' ∈ Run.states twoSlots.step cameUp confirmedRun, s'.Names twoSlots (fun image => isGenuine image) s'.intact := by
  have horderly : Run.Guarded twoSlots.step (State.Orderly twoSlots) cameUp confirmedRun := by
    refine ⟨trivial, trivial, trivial, trivial, trivial, fun h => ?_, fun _ _ => ?_, trivial, trivial⟩
    · cases h
    · decide +kernel
  have hsettled : Run.Guarded twoSlots.step (State.Settled twoSlots) cameUp confirmedRun :=
    ⟨fun _ _ => by decide +kernel, trivial, trivial, trivial, trivial, trivial, trivial, trivial, trivial⟩
  have hsafe := ota_safe twoSlots (fun image => isGenuine image) (fun _ _ h => h) cameUp cameUp_fresh confirmedRun horderly
  exact ⟨hsafe.1, hsafe.2 hsettled⟩

/-- Confirmed before it was booted, an update is overwritten in its slot: after the first sector of the next one the register
names a slot that was never run and holds half of each image.  And a rollback cut after its first write is followed by one
that boots the update. -/
theorem ota_unsafe :
    ¬ (confirmedEarly.foldl twoSlots.step cameUp).Safe twoSlots (fun image => isGenuine image) ∧
    ¬ (rollbackCut.foldl twoSlots.step cameUp).Safe twoSlots (fun image => isGenuine image) := by
  constructor
  · intro h
    rcases h.names with hran | ⟨part, hpart, image, hG, hbytes⟩
    · exact absurd hran (by decide +kernel)
    · have hone : twoSlots.named (confirmedEarly.foldl twoSlots.step cameUp).bootReg = 1 := by decide +kernel
      obtain rfl : part = 1 := by omega
      have hcases : image = [7, 8] ∨ image = [9, 9] := by simpa [isGenuine] using hG
      rcases hcases with rfl | rfl
      · exact absurd (hbytes 0 (by decide)) (by decide +kernel)
      · exact absurd (hbytes 1 (by decide)) (by decide +kernel)
  · intro h
    exact absurd (h.rollsBack rfl rfl) (by decide +kernel)

end EterOS.Ota
