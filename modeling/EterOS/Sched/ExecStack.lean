import Mathlib.Data.List.Forall2
import EterOS.Lib.Pushed
/-!
# ExecStack — the stack a new program starts with

`task_exec` lays the arguments and the environment out on a fresh stack: the strings downwards from the top, then sixteen
random bytes, the auxiliary vector, the two pointer arrays and `argc`.  A stack that was built decodes to the strings it was
built from; whether its pointer is aligned depends on how many there are.
-/
namespace EterOS.Exec

open Buffer

def E2BIG : Int := 7

/-- `USER_LIMIT + 1`, the exclusive top of the stack. -/
def stackTop : Nat := 2 ^ 47

def stackBase : Nat := stackTop - 128 * 1024

abbrev Str := List UInt8

instance : LawfulBEq Str := inferInstance

/-! ## The layout -/

def AT_NULL : Nat := 0
def AT_PHDR : Nat := 3
def AT_PHENT : Nat := 4
def AT_PHNUM : Nat := 5
def AT_PAGESZ : Nat := 6
def AT_BASE : Nat := 7
def AT_ENTRY : Nat := 9
def AT_UID : Nat := 11
def AT_EUID : Nat := 12
def AT_GID : Nat := 13
def AT_EGID : Nat := 14
def AT_SECURE : Nat := 23
def AT_RANDOM : Nat := 25
def AT_EXECFN : Nat := 31

structure AuxInfo where
  entry : UInt64 := 0
  phdr : UInt64 := 0
  phent : UInt64 := 0
  phnum : UInt64 := 0
  base : UInt64 := 0

/-- What the layout takes from the loaded image, the caller and the clock at each of its readings. -/
structure Image where
  mem : Buffer
  entryPoint : UInt64
  aux : AuxInfo
  uid : UInt32
  euid : UInt32
  gid : UInt32
  egid : UInt32
  ticks : Nat → Nat

/-- The entries before `AT_NULL`, in order. -/
def Image.auxv (p : Image) (atRandom execfn : Nat) : List (Nat × Nat) :=
  [(AT_RANDOM, atRandom), (AT_EXECFN, execfn), (AT_PAGESZ, 4096),
    (AT_ENTRY, if p.aux.entry ≠ 0 then p.aux.entry.toNat else p.entryPoint.toNat), (AT_UID, p.uid.toNat),
    (AT_EUID, p.euid.toNat), (AT_GID, p.gid.toNat), (AT_EGID, p.egid.toNat), (AT_SECURE, 0), (AT_PHDR, p.aux.phdr.toNat),
    (AT_PHENT, p.aux.phent.toNat), (AT_PHNUM, p.aux.phnum.toNat), (AT_BASE, p.aux.base.toNat)]

structure Stack where
  mem : Buffer
  rsp : Nat

def Stack.pushString (s : Stack) (k : Str) : Except Int Stack :=
  if s.rsp - (k.length + 1) < stackBase then .error E2BIG
  else .ok ⟨s.mem.blit (s.rsp - (k.length + 1)) (ofList (k ++ [0])) (k.length + 1), s.rsp - (k.length + 1)⟩

def Stack.pushStrings (s : Stack) : List Str → Except Int (Stack × List Nat)
  | [] => .ok (s, [])
  | k :: ks => do
    let (s, ptrs) ← s.pushStrings ks
    let s ← s.pushString k
    return (s, s.rsp :: ptrs)

structure Built where
  mem : Buffer
  rsp : Nat
  argvAt : Nat
  envpAt : Nat
  auxvAt : Nat
  atRandom : Nat
  uargv : List Nat
  uenvp : List Nat

def buildStack (p : Image) (kargv kenvp : List Str) : Except Int Built := do
  let (s, uenvp) ← Stack.pushStrings ⟨p.mem.blit stackBase (fun _ => 0) (128 * 1024), stackTop⟩ kenvp
  let (s, uargv) ← s.pushStrings kargv
  -- `rsp &= ~0xF`
  let atRandom := s.rsp / 16 * 16 - 16
  if atRandom < stackBase then .error E2BIG
  else
    let mem := s.mem.blit atRandom (fun i => UInt8.ofNat (p.ticks i + i * 17)) 16
    let auxv := flatten (p.auxv atRandom (uargv.headD 0) ++ [(AT_NULL, 0)])
    let auxvAt := atRandom - 14 * 16
    if auxvAt < stackBase then .error E2BIG
    else
      let envpAt := auxvAt - (kenvp.length + 1) * 8
      let argvAt := envpAt - (kargv.length + 1) * 8
      let rsp := argvAt - 8
      let mem := ((mem.putWords auxvAt auxv).putWords envpAt (uenvp ++ [0])).putWords argvAt (uargv ++ [0])
      if rsp < stackBase then .error E2BIG
      else .ok ⟨mem.putWords rsp [kargv.length], rsp, argvAt, envpAt, auxvAt, atRandom, uargv, uenvp⟩

/-! ## What the layout puts where -/

theorem bind_ok {α β : Type} {x : Except Int α} {f : α → Except Int β} {b : β} (h : (x >>= f) = .ok b) :
    ∃ a, x = .ok a ∧ f a = .ok b := by
  cases x with
  | error e => cases h
  | ok a => exact ⟨a, rfl, h⟩

def placed (ptrs : List Nat) (ks : List Str) : List (Nat × Nat) := List.zipWith (fun a k => (a, k.length + 1)) ptrs ks

def Built.areas (b : Built) (kargv kenvp : List Str) : List (Nat × Nat) :=
  [(b.rsp, 8), (b.argvAt, (kargv.length + 1) * 8), (b.envpAt, (kenvp.length + 1) * 8), (b.auxvAt, 14 * 16),
    (b.atRandom, 16)] ++
    (placed b.uargv kargv ++ placed b.uenvp kenvp)

def Delivered (m : Buffer) (a : Nat) (k : Str) : Prop :=
  stackBase ≤ a ∧ a + (k.length + 1) ≤ stackTop ∧ Holds m a (k ++ [0])

variable {m : Buffer}

theorem Delivered.congr {m' : Buffer} {lo a : Nat} {k : Str} (h : Delivered m a k) (hlo : lo ≤ a)
    (hm : ∀ i, lo ≤ i → m' i = m i) :
    Delivered m' a k :=
  ⟨h.1, h.2.1, h.2.2.congr fun i hi _ => hm i (hlo.trans hi)⟩

structure Pushed (s : Stack) (ks : List Str) (s' : Stack) (ptrs : List Nat) : Prop where
  base : stackBase ≤ s'.rsp
  stacked : Stacked s'.rsp (placed ptrs ks) s.rsp
  same : ∀ i, s.rsp ≤ i → s'.mem i = s.mem i
  strings : List.Forall₂ (fun a k => s'.rsp ≤ a ∧ Delivered s'.mem a k) ptrs ks

theorem Stack.pushString_spec {s s' : Stack} {k : Str} (h : s.pushString k = .ok s') :
    s.rsp = s'.rsp + (k.length + 1) ∧ stackBase ≤ s'.rsp ∧ (∀ i, s.rsp ≤ i → s'.mem i = s.mem i) ∧
    Holds s'.mem s'.rsp (k ++ [0]) := by
  unfold Stack.pushString at h
  split at h
  · cases h
  · rename_i hroom
    cases h
    have hbase : 0 < stackBase := by decide
    refine ⟨by dsimp only; omega, by dsimp only; omega, fun i hi => blit_of_ge (by omega), ?_⟩
    have hblit := holds_blit s.mem (s.rsp - (k.length + 1)) (k ++ [0])
    rwa [List.length_append, List.length_singleton] at hblit

theorem Stack.pushStrings_spec :
    ∀ {ks : List Str} {s s' : Stack} {ptrs : List Nat}, s.pushStrings ks = .ok (s', ptrs) → stackBase ≤ s.rsp →
    s.rsp ≤ stackTop →
      Pushed s ks s' ptrs
  | [], s, _, _, h, hbase, _ => by
    cases h
    exact ⟨hbase, Nat.le_refl _, fun _ _ => rfl, List.Forall₂.nil⟩
  | k :: ks, s, s', ptrs, h, hbase, htop => by
    obtain ⟨⟨s1, ptrs1⟩, hrest, h⟩ := bind_ok h
    obtain ⟨s2, hpush, h⟩ := bind_ok h
    cases h
    have hp := pushStrings_spec hrest hbase htop
    obtain ⟨hrsp, hbase', hsame, hholds⟩ := Stack.pushString_spec hpush
    have hle : s1.rsp ≤ s.rsp := hp.stacked.le
    refine ⟨hbase', ⟨Nat.le_refl _, ?_⟩, fun i hi => ?_, List.Forall₂.cons ⟨Nat.le_refl _, hbase', by omega, hholds⟩ ?_⟩
    · rw [← hrsp]
      exact hp.stacked
    · rw [hsame i (by omega), hp.same i hi]
    · exact hp.strings.imp fun a k' ⟨ha, hk⟩ => ⟨by omega, hk.congr ha hsame⟩

structure Layout (p : Image) (kargv kenvp : List Str) (b : Built) : Prop where
  base : stackBase ≤ b.rsp
  argvAt : b.argvAt = b.rsp + 8
  envpAt : b.envpAt = b.argvAt + (kargv.length + 1) * 8
  auxvAt : b.auxvAt = b.envpAt + (kenvp.length + 1) * 8
  aligned : b.auxvAt % 16 = 0
  stacked : Stacked b.rsp (b.areas kargv kenvp) stackTop
  argc : b.mem.le b.rsp 8 = kargv.length
  argv : HasWords b.mem b.argvAt (b.uargv ++ [0])
  envp : HasWords b.mem b.envpAt (b.uenvp ++ [0])
  auxv : HasWords b.mem b.auxvAt (flatten (p.auxv b.atRandom (b.uargv.headD 0) ++ [(AT_NULL, 0)]))
  args : List.Forall₂ (Delivered b.mem) b.uargv kargv
  envs : List.Forall₂ (Delivered b.mem) b.uenvp kenvp

variable {ptrs : List Nat} {ks : List Str}

theorem pointers_lt (h : List.Forall₂ (Delivered m) ptrs ks) : ∀ a ∈ ptrs ++ [0], a < 2 ^ 64 := by
  induction h with
  | nil => simp
  | cons hk _ ih =>
    rw [List.cons_append, List.forall_mem_cons]
    have htop : stackTop < 2 ^ 64 := by decide
    have := hk.2.1
    exact ⟨by omega, ih⟩

theorem Image.auxv_lt (p : Image) {at' fn : Nat} (hat : at' < 2 ^ 64) (hfn : fn < 2 ^ 64) :
    ∀ w ∈ flatten (p.auxv at' fn ++ [(AT_NULL, 0)]), w < 2 ^ 64 := by
  have h64 : ∀ v : UInt64, v.toNat < 2 ^ 64 := fun v => v.toNat_lt
  have h32 : ∀ v : UInt32, v.toNat < 2 ^ 64 := fun v => v.toNat_lt.trans (by decide)
  have hentry : (if p.aux.entry ≠ 0 then p.aux.entry.toNat else p.entryPoint.toNat) < 2 ^ 64 := by
    split <;> exact h64 _
  simp only [Image.auxv, flatten, List.cons_append, List.nil_append, List.flatMap_cons, List.flatMap_nil,
    List.forall_mem_cons]
  refine ⟨by decide, hat, by decide, hfn, by decide, by decide, by decide, hentry, by decide, h32 _, by decide, h32 _,
    by decide, h32 _, by decide, h32 _, by decide, by decide, by decide, h64 _, by decide, h64 _, by decide, h64 _, by
    decide, h64 _, by decide, by decide, by simp⟩

theorem Image.length_auxv (p : Image) (a fn : Nat) : (p.auxv a fn ++ [(AT_NULL, 0)]).length = 14 := rfl

theorem stores_read {rsp argvAt envpAt auxvAt argc : Nat} {ws es vs : List Nat} (hargv : argvAt = rsp + 8)
    (henvp : envpAt = argvAt + 8 * ws.length) (hauxv : auxvAt = envpAt + 8 * es.length) (hargc : argc < 2 ^ 64)
    (hws : ∀ w ∈ ws, w < 2 ^ 64) (hes : ∀ w ∈ es, w < 2 ^ 64) (hvs : ∀ w ∈ vs, w < 2 ^ 64) {m' : Buffer}
    (hm' : m' = (((m.putWords auxvAt vs).putWords envpAt es).putWords argvAt ws).putWords rsp [argc]) :
    m'.le rsp 8 = argc ∧ HasWords m' argvAt ws ∧ HasWords m' envpAt es ∧ HasWords m' auxvAt vs ∧
      ∀ i, auxvAt + 8 * vs.length ≤ i → m' i = m i := by
  generalize hm1 : m.putWords auxvAt vs = m1 at hm'
  generalize hm2 : m1.putWords envpAt es = m2 at hm'
  generalize hm3 : m2.putWords argvAt ws = m3 at hm'
  have hv := hm1 ▸ hasWords_putWords auxvAt m hvs
  have he := hm2 ▸ hasWords_putWords envpAt m1 hes
  have hw := hm3 ▸ hasWords_putWords argvAt m2 hws
  have hc : HasWords m' rsp [argc] := hm' ▸ hasWords_putWords rsp m3 (by simpa using hargc)
  have h1 : ∀ i, auxvAt + 8 * vs.length ≤ i → m1 i = m i := fun i hi => hm1 ▸ putWords_of_outside (Or.inr hi)
  have h2 : ∀ i, auxvAt ≤ i → m2 i = m1 i := fun i hi => hm2 ▸ putWords_of_outside (Or.inr (by omega))
  have h3 : ∀ i, envpAt ≤ i → m3 i = m2 i := fun i hi => hm3 ▸ putWords_of_outside (Or.inr (by omega))
  have h4 : ∀ i, argvAt ≤ i → m' i = m3 i := fun i hi => hm' ▸ putWords_of_outside (Or.inr (by simp; omega))
  refine ⟨hc.1, hw.congr fun i hi _ => h4 i hi, he.congr fun i hi _ => ?_, hv.congr fun i hi _ => ?_, fun i hi => ?_⟩
  · rw [h4 i (by omega), h3 i hi]
  · rw [h4 i (by omega), h3 i (by omega), h2 i hi]
  · rw [h4 i (by omega), h3 i (by omega), h2 i (by omega), h1 i hi]

/-- What `buildStack` takes off the top, in one sum. -/
theorem top_eq {top n k : Nat} (h : stackBase ≤ top - 16 - 14 * 16 - n * 8 - k * 8 - 8) :
    top = top - 16 - 14 * 16 - n * 8 - k * 8 - 8 + 8 + k * 8 + n * 8 + 14 * 16 + 16 := by
  have hbase : 0 < stackBase := by decide
  omega

variable {p : Image} {kargv kenvp : List Str} {b : Built}

/-- **The layout**: the words and strings of a stack that was built all stand where its pointers say. -/
theorem buildStack_spec (h : buildStack p kargv kenvp = .ok b) : Layout p kargv kenvp b := by
  obtain ⟨⟨s1, uenvp⟩, henv, h⟩ := bind_ok h
  obtain ⟨⟨s2, uargv⟩, harg, h⟩ := bind_ok h
  have hroom : stackBase ≤ stackTop := by decide
  have he := Stack.pushStrings_spec henv hroom (Nat.le_refl _)
  have hlo : s1.rsp ≤ stackTop := he.stacked.le
  have ha := Stack.pushStrings_spec harg he.base hlo
  have hlo' : s2.rsp ≤ s1.rsp := ha.stacked.le
  have haddr : s2.rsp / 16 * 16 ≤ s2.rsp := Nat.div_mul_le_self _ _
  have hmod : s2.rsp / 16 * 16 % 16 = 0 := Nat.mul_mod_left _ _
  dsimp only at h
  generalize s2.rsp / 16 * 16 = top at haddr hmod h
  split at h
  · cases h
  rename_i hrandom
  split at h
  · cases h
  rename_i haux
  split at h
  · cases h
  rename_i hrsp
  have hb := Except.ok.inj h
  rw [Nat.not_lt] at hrsp
  obtain ⟨rsp, rfl⟩ : ∃ rsp, top = rsp + 8 + (kargv.length + 1) * 8 + (kenvp.length + 1) * 8 + 14 * 16 + 16 :=
    ⟨_, top_eq hrsp⟩
  simp only [Nat.add_sub_cancel] at hrsp hb
  have hbelow : rsp + 8 + (kargv.length + 1) * 8 + (kenvp.length + 1) * 8 + 14 * 16 + 16 ≤ stackTop :=
    haddr.trans (hlo'.trans hlo)
  have hlenv : (uenvp ++ [0]).length = kenvp.length + 1 := by
    rw [List.length_append, he.strings.length_eq, List.length_singleton]
  have hlarg : (uargv ++ [0]).length = kargv.length + 1 := by
    rw [List.length_append, ha.strings.length_eq, List.length_singleton]
  have henvs : List.Forall₂ (Delivered s1.mem) uenvp kenvp := he.strings.imp fun a k hk => hk.2
  have hargs : List.Forall₂ (Delivered s2.mem) uargv kargv := ha.strings.imp fun a k hk => hk.2
  have h64 : stackTop < 2 ^ 64 := by decide
  have hhead : uargv.headD 0 < 2 ^ 64 := by
    cases uargv with
    | nil => decide
    | cons a _ => exact pointers_lt hargs a (by simp)
  have hcount : kargv.length < 2 ^ 64 := by
    clear hmod hrsp hhead hb haddr
    omega
  have hrand : rsp + 8 + (kargv.length + 1) * 8 + (kenvp.length + 1) * 8 + 14 * 16 < 2 ^ 64 :=
    (Nat.le_of_add_right_le hbelow).trans_lt h64
  obtain ⟨hargc, hargv, henvp, hauxv, habove⟩ := stores_read rfl (by rw [hlarg, Nat.mul_comm])
    (by rw [hlenv, Nat.mul_comm 8 (kenvp.length + 1)]) hcount
    (pointers_lt hargs) (pointers_lt henvs) (p.auxv_lt hrand hhead) (congrArg Built.mem hb.symm)
  rw [length_flatten, Image.length_auxv] at habove
  have hstrings : ∀ i, s2.rsp ≤ i → b.mem i = s2.mem i := by
    intro i hi
    have hi' := haddr.trans hi
    rw [habove i (Nat.le_of_add_right_le hi'), blit_of_ge hi']
  subst hb
  have hareas : Stacked s2.rsp (placed uargv kargv ++ placed uenvp kenvp) stackTop := ha.stacked.append he.stacked
  exact {
    base := hrsp
    argvAt := rfl
    envpAt := rfl
    auxvAt := rfl
    aligned := by rwa [Nat.add_mod_right, Nat.add_mul_mod_self_right] at hmod
    stacked := ⟨Nat.le_refl _, Nat.le_refl _, Nat.le_refl _, Nat.le_refl _, Nat.le_refl _,
      hareas.mono haddr (Nat.le_refl _)⟩
    argc := hargc
    argv := hargv
    envp := henvp
    auxv := hauxv
    args := ha.strings.imp fun a k hk => hk.2.congr hk.1 hstrings
    envs := he.strings.imp fun a k hk => (hk.2.congr hk.1 ha.same).congr (hlo'.trans hk.1) hstrings }

/-! ## The stack pointer a program starts with -/

/-- The stack pointer is a multiple of sixteen, and everything written lies in the stack, one area apart from the other. -/
structure Entry (b : Built) (kargv kenvp : List Str) : Prop where
  aligned : b.rsp % 16 = 0
  inside : stackBase ≤ b.rsp ∧ b.rsp < stackTop
  areas : ∀ r ∈ b.areas kargv kenvp, stackBase ≤ r.1 ∧ r.1 + r.2 ≤ stackTop
  apart : (b.areas kargv kenvp).Pairwise fun r r' => r.1 + r.2 ≤ r'.1 ∨ r'.1 + r'.2 ≤ r.1

theorem Layout.entry (h : Layout p kargv kenvp b) (h16 : b.rsp % 16 = 0) : Entry b kargv kenvp := by
  refine ⟨h16, ⟨h.base, ?_⟩, fun r hr => ?_, h.stacked.apart.imp Or.inl⟩
  · have := (h.stacked.inside (b.rsp, 8) (by simp [Built.areas])).2
    dsimp only at this
    omega
  · have := h.stacked.inside r hr
    have hbase := h.base
    exact ⟨by omega, this.2⟩

/-- The stack pointer is aligned above the auxiliary vector, and `argc`, the two arrays and their terminators are a word
each. -/
theorem Layout.aligned_iff (h : Layout p kargv kenvp b) : b.rsp % 16 = 0 ↔ (kargv.length + kenvp.length) % 2 = 1 := by
  have hbelow : b.auxvAt = b.rsp + 8 * (kargv.length + kenvp.length + 3) := by
    rw [h.auxvAt, h.envpAt, h.argvAt]
    omega
  have haligned := h.aligned
  omega

/-- **The two counts decide**: a program starts with an aligned stack pointer, and with its areas apart and in the stack,
exactly when it has an odd number of arguments and environment strings together. -/
theorem entry_iff (p : Image) (kargv kenvp : List Str) {b : Built} (h : buildStack p kargv kenvp = .ok b) :
    Entry b kargv kenvp ↔ (kargv.length + kenvp.length) % 2 = 1 := by
  have hl := buildStack_spec h
  constructor
  · intro he
    exact hl.aligned_iff.1 he.aligned
  · intro hodd
    exact hl.entry (hl.aligned_iff.2 hodd)

def blank : Image := ⟨fun _ => 0, 1, {}, 0, 0, 0, 0, fun _ => 0⟩

/-- One argument and no environment. -/
theorem entry_one : ∃ b, buildStack blank [[97]] [] = .ok b ∧ Entry b [[97]] [] :=
  ⟨_, rfl, (entry_iff blank [[97]] [] rfl).2 rfl⟩

/-- One argument and one environment string: the program starts at 8 modulo 16. -/
theorem entry_misaligned : ∃ b, buildStack blank [[97]] [[98]] = .ok b ∧ b.rsp % 16 = 8 ∧ ¬ Entry b [[97]] [[98]] :=
  ⟨_, rfl, rfl, fun h => absurd h.aligned (by decide)⟩

/-! ## What the program finds -/

def stringsAt (m : Buffer) : List Nat → Option (List Str)
  | [] => some []
  | a :: as =>
    if stackBase ≤ a ∧ a < stackTop then do
      let k ← m.readString (stackTop - a) a
      let ks ← stringsAt m as
      return k :: ks
    else none

/-- The stack read as a new program reads it: `argc`, as many pointers and a null one, the environment's pointers and a null
one, and the auxiliary vector up to `AT_NULL`, all of it inside the stack. -/
def decodeStack (m : Buffer) (rsp : Nat) : Option (List Str × List Str) := do
  let argv ← m.readWords (16 * 1024) (rsp + 8)
  let envpAt := rsp + 8 + (argv.length + 1) * 8
  let envp ← m.readWords (16 * 1024) envpAt
  let auxvAt := envpAt + (envp.length + 1) * 8
  let auxv ← m.readPairs (8 * 1024) auxvAt
  if argv.length = m.le rsp 8 ∧ stackBase ≤ rsp ∧ auxvAt + (auxv.length + 1) * 16 ≤ stackTop then
    let args ← stringsAt m argv
    let envs ← stringsAt m envp
    return (args, envs)
  else none

theorem stringsAt_of_delivered (h : List.Forall₂ (Delivered m) ptrs ks) (h0 : ∀ k ∈ ks, 0 ∉ k) :
    stringsAt m ptrs = some ks := by
  induction h with
  | nil => rfl
  | cons hk _ ih =>
    obtain ⟨hk0, hks0⟩ := List.forall_mem_cons.1 h0
    obtain ⟨hbase, htop, hholds⟩ := hk
    rw [stringsAt, if_pos ⟨hbase, by omega⟩, readString_of_holds hholds hk0 (by omega), ih hks0]
    rfl

theorem zero_notMem (h : List.Forall₂ (Delivered m) ptrs ks) : 0 ∉ ptrs := by
  induction h with
  | nil => exact List.not_mem_nil
  | cons hk _ ih =>
    have hpos : 0 < stackBase := by decide
    have := hk.1
    rw [List.mem_cons, not_or]
    exact ⟨by omega, ih⟩

/-- **A stack that was built decodes to the strings it was built from.** -/
theorem Layout.decode (h : Layout p kargv kenvp b) (hargv : ∀ k ∈ kargv, 0 ∉ k)
    (henvp : ∀ k ∈ kenvp, 0 ∉ k) : decodeStack b.mem b.rsp = some (kargv, kenvp) := by
  have htop : stackTop = stackBase + 128 * 1024 := by decide
  have hbase := h.base
  have hauxv := (h.stacked.inside (b.auxvAt, 14 * 16) (by simp [Built.areas])).2
  have hlargs := h.args.length_eq
  have hlenvs := h.envs.length_eq
  have hargvAt := h.argvAt
  have henvpAt := h.envpAt
  have hauxvAt := h.auxvAt
  dsimp only at hauxv
  have hreadArgv : b.mem.readWords (16 * 1024) (b.rsp + 8) = some b.uargv := by
    rw [← hargvAt]
    exact readWords_of_hasWords h.argv (zero_notMem h.args) (by omega)
  have hreadEnvp : b.mem.readWords (16 * 1024) (b.rsp + 8 + (b.uargv.length + 1) * 8) = some b.uenvp := by
    rw [hlargs, ← hargvAt, ← henvpAt]
    exact readWords_of_hasWords h.envp (zero_notMem h.envs) (by omega)
  have hreadAuxv : b.mem.readPairs (8 * 1024) (b.rsp + 8 + (b.uargv.length + 1) * 8 + (b.uenvp.length + 1) * 8) =
      some (p.auxv b.atRandom (b.uargv.headD 0)) := by
    rw [hlargs, hlenvs, ← hargvAt, ← henvpAt, ← hauxvAt]
    refine readPairs_of_hasWords 0 h.auxv ?_ (by simp [Image.auxv])
    simp [Image.auxv, AT_RANDOM, AT_EXECFN, AT_PAGESZ, AT_ENTRY, AT_UID, AT_EUID, AT_GID, AT_EGID, AT_SECURE,
      AT_PHDR, AT_PHENT, AT_PHNUM, AT_BASE]
  have hcount : (p.auxv b.atRandom (b.uargv.headD 0)).length = 13 := rfl
  unfold decodeStack
  simp only [hreadArgv, hreadEnvp, hreadAuxv, Option.bind_eq_bind, Option.bind_some, hcount]
  rw [if_pos ⟨hlargs.trans h.argc.symm, hbase, by omega⟩, stringsAt_of_delivered h.args hargv,
    stringsAt_of_delivered h.envs henvp]
  rfl

/-! ## Strings that fit are laid out -/

def Fits (l : List Str) : Prop := l.length ≤ 32 ∧ ∀ s ∈ l, s.length ≤ 127

theorem Stack.pushStrings_room : ∀ {ks : List Str} {s : Stack}, (∀ k ∈ ks, k.length ≤ 127) →
    stackBase + 128 * ks.length ≤ s.rsp →
      ∃ s' ptrs, s.pushStrings ks = .ok (s', ptrs) ∧ s.rsp ≤ s'.rsp + 128 * ks.length
  | [], s, _, _ => ⟨s, [], rfl, Nat.le_refl _⟩
  | k :: ks, s, hall, hroom => by
    obtain ⟨hk, hks⟩ := List.forall_mem_cons.1 hall
    rw [List.length_cons] at hroom ⊢
    obtain ⟨s1, ptrs, hrest, hle⟩ := pushStrings_room hks (s := s) (by omega)
    refine ⟨⟨s1.mem.blit (s1.rsp - (k.length + 1)) (ofList (k ++ [0])) (k.length + 1), s1.rsp - (k.length + 1)⟩,
      (s1.rsp - (k.length + 1)) :: ptrs, ?_, by dsimp only; omega⟩
    rw [Stack.pushStrings, hrest]
    show (s1.pushString k >>= fun s => .ok (s, s.rsp :: ptrs)) = _
    rw [Stack.pushString, if_neg (by omega)]
    rfl

theorem buildStack_room (p : Image) (ha : Fits kargv) (he : Fits kenvp) : ∃ b, buildStack p kargv kenvp = .ok b := by
  have htop : stackTop = stackBase + 128 * 1024 := by decide
  obtain ⟨ha, halen⟩ := ha
  obtain ⟨he, helen⟩ := he
  obtain ⟨s1, uenvp, henv, hle1⟩ := Stack.pushStrings_room
    (s := ⟨p.mem.blit stackBase (fun _ => 0) (128 * 1024), stackTop⟩) helen
    (by dsimp only; omega)
  dsimp only at hle1
  obtain ⟨s2, uargv, harg, hle2⟩ := Stack.pushStrings_room (s := s1) halen (by omega)
  have hdiv : s2.rsp < s2.rsp / 16 * 16 + 16 := Nat.lt_div_mul_add (by decide)
  simp only [buildStack, henv, harg, bind, Except.bind]
  rw [if_neg (by omega), if_neg (by omega), if_neg (by omega)]
  exact ⟨_, rfl⟩

end EterOS.Exec
