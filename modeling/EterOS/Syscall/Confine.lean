import EterOS.Mm.Confine
import EterOS.Syscall.Memory
/-!
# Confine — the memory system calls keep user mappings to user space

Each primitive of the calls keeps `Ok`, relative to the state the call started from: the address space stays one, and its
user part leads only to frames it led to, free ones, and ones that are lent.  The loops keep it by the loop rule, so the
calls do, as long as the addresses they work on are user addresses; and where the code does not check that, it is the
condition.
-/
namespace EterOS.Syscall

open Mm

namespace Mem

def shmPage (s : Mem) (p : Nat) : Prop :=
  ∃ fd node obj, s.current.fdTable fd = some node ∧ node.impl = some obj ∧ p ∈ obj.pages ∧ p ≠ 0

def lent (fb : Nat → Prop) (s : Mem) (f : Nat) : Prop := fb f ∨ ∃ p, s.shmPage p ∧ p / PAGE_SIZE = f

def Bases (s : Mem) : Prop :=
  ∀ i, (s.tasks i).cr3 = s.cr3 → USER_BASE ≤ (s.tasks i).mmapBase ∧ (s.tasks i).mmapBase % PAGE_SIZE = 0

end Mem

structure Ok (held : Nat → Nat) (fb : Nat → Prop) (s0 s : Mem) : Prop where
  keeps : Keeps held (s0.lent fb) s0.cr3 s0.vm s.vm
  cur : s.cur = s0.cur
  fbVirt : s.fbVirt = s0.fbVirt
  cr3s : ∀ i, (s.tasks i).cr3 = (s0.tasks i).cr3
  fds : ∀ i, (s.tasks i).fdTable = (s0.tasks i).fdTable
  bases : s.Bases

def Fails (held : Nat → Nat) (fb : Nat → Prop) (s0 s : Mem) (r : Option Int) : Prop :=
  Ok held fb s0 s ∧ ∀ n, r = some n → n < 0

structure Framebuffer (held : Nat → Nat) (fb : Nat → Prop) (fbSize : Nat) (s : Mem) : Prop where
  held : ∀ f, fb f → held f = 0
  map : ∀ a, s.fbVirt ≤ a → a < s.fbVirt + fbSize → a < 2 ^ 64 ∧ 256 ≤ pml4Index a ∧
    s.vm.halMemGetPhys s.cr3 a ≠ 0 ∧ s.vm.halMemGetPhys s.cr3 a < 2 ^ 52 ∧ fb (s.vm.halMemGetPhys s.cr3 a / PAGE_SIZE)

def ShmHeld (held : Nat → Nat) (s : Mem) : Prop :=
  ∀ p, s.shmPage p → p % PAGE_SIZE = 0 ∧ p < 2 ^ 52 ∧ (p / PAGE_SIZE < s.vm.pmm.totalPages → 0 < held (p / PAGE_SIZE))

section
variable {held : Nat → Nat} {fb : Nat → Prop} {s0 s : Mem} {virt : Nat} {flags : BitVec 32}

theorem Ok.cr3 (h : Ok held fb s0 s) : s.cr3 = s0.cr3 := by
  unfold Mem.cr3 Mem.current
  rw [h.cur, h.cr3s]

theorem Ok.vm (h : Ok held fb s0 s) {vm : Vm} (hk : Keeps held (s0.lent fb) s0.cr3 s.vm vm) :
    Ok held fb s0 { s with vm := vm } :=
  ⟨h.keeps.trans hk, h.cur, h.fbVirt, h.cr3s, h.fds, h.bases⟩

theorem Ok.modTask (h : Ok held fb s0 s) (i : Nat) {g : MemTask → MemTask} (hcr3 : ∀ t, (g t).cr3 = t.cr3)
    (hfds : ∀ t, (g t).fdTable = t.fdTable) (hbase : ∀ t, (g t).mmapBase = t.mmapBase) :
    Ok held fb s0 (s.modTask i g) := by
  have hsame : ∀ j, ((s.modTask i g).tasks j).cr3 = (s.tasks j).cr3 ∧
    ((s.modTask i g).tasks j).fdTable = (s.tasks j).fdTable ∧
      ((s.modTask i g).tasks j).mmapBase = (s.tasks j).mmapBase := fun j => by
    unfold Mem.modTask
    by_cases hj : j = i
    · subst hj
      simp [hcr3, hfds, hbase]
    · simp [hj]
  refine ⟨h.keeps, h.cur, h.fbVirt, fun j => (hsame j).1.trans (h.cr3s j), fun j => (hsame j).2.1.trans (h.fds j),
    fun j hj => ?_⟩
  rw [(hsame j).2.2]
  refine h.bases j ?_
  rw [← (hsame j).1, hj]
  exact (hsame _).1

/-! ## The primitives -/

theorem fillPage_post (h : Ok held fb s0 s) (hv : userAddr virt) (words : Nat → BitVec 64) :
    (s.fillPage virt words).Post (Ok held fb s0) (Fails held fb s0) := by
  obtain ⟨ρ, hspace⟩ := h.keeps.space
  have hlow : ¬ (2 ^ 47 ≤ virt ∧ virt < 2 ^ 64 - 2 ^ 47) := fun hc => by
    have := hv.2
    unfold USER_LIMIT at this
    omega
  unfold Mem.fillPage
  rw [if_neg hlow, h.cr3]
  split
  · rw [Mem.kernelFault, if_pos (show USER_BASE ≤ virt ∧ virt ≤ USER_LIMIT from hv)]
    exact ⟨h, fun n hn => by cases hn⟩
  · rename_i a ha
    exact h.vm (hspace.fill hv ha words)

theorem freshPage_post (h : Ok held fb s0 s) (hv : userAddr virt) (hflags : halHas flags HAL_MEM_USER = true)
    {onFail : Mem → Exec} (hfail : ∀ s, Ok held fb s0 s → (onFail s).Post (Ok held fb s0) (Fails held fb s0)) :
    (Mem.freshPage onFail virt flags s).Post (Ok held fb s0) (Fails held fb s0) := by
  obtain ⟨ρ, hspace⟩ := h.keeps.space
  unfold Mem.freshPage
  obtain ⟨vm, heq, hm, ht⟩ | ⟨vm, p, heq, hm, -, ht⟩ := allocPage_took hspace.tables.zero
  · rw [heq]
    exact hfail _ (h.vm (hspace.alloc hm ht).2)
  · rw [heq]
    refine fillPage_post ?_ hv _
    have hcr3 : Mem.cr3 { s with vm := vm } = s0.cr3 := h.cr3
    rw [Mem.mapAt, hcr3]
    exact h.vm (hspace.fresh hv hflags hm ht)

theorem enomem_post (h : Ok held fb s0 s) : (Flow.ret s (-ENOMEM) : Exec).Post (Ok held fb s0) (Fails held fb s0) :=
  ⟨h, fun n hn => by cases hn; decide⟩

theorem dropPage_post (h : Ok held fb s0 s) (hv : userAddr virt) (ha : virt % PAGE_SIZE = 0) :
    (Mem.dropPage virt s).Post (Ok held fb s0) (Fails held fb s0) := by
  obtain ⟨ρ, hspace⟩ := h.keeps.space
  unfold Mem.dropPage
  dsimp only
  rw [h.cr3]
  obtain h0 | ⟨l, hl, hne, hphys, -⟩ := hspace.phys hv ha
  · rw [if_pos h0]
    exact h
  · rw [hphys, if_neg (Nat.mul_ne_zero hne (by decide))]
    split
    · trivial
    · rename_i pmm hok
      exact h.vm (hspace.drop hv hl hne hok)

theorem frameOf_ofNat {phys : Nat} (hp : phys < 2 ^ 52) : frameOf (BitVec.ofNat 64 phys) = phys / PAGE_SIZE := by
  have hmask : (BitVec.ofNat 64 phys) &&& PAGE_ADDR_MASK = addrOf (phys / PAGE_SIZE) := by
    apply BitVec.eq_of_getLsbD_eq
    intro i hi
    rw [BitVec.getLsbD_and, mask_bit i hi, addrOf, BitVec.getLsbD_ofNat, BitVec.getLsbD_ofNat,
      show PAGE_SIZE = 2 ^ 12 from rfl, Nat.testBit_mul_two_pow, Nat.testBit_div_two_pow]
    by_cases h12 : 12 ≤ i
    · have hzero : 52 ≤ i → phys.testBit i = false := fun h52 =>
        Nat.testBit_lt_two_pow (hp.trans_le (Nat.pow_le_pow_right (by decide) h52))
      by_cases h52 : i < 52
      · simp [h12, h52, hi, show i - 12 + 12 = i by omega]
      · simp [h12, h52, hi, hzero (by omega), show i - 12 + 12 = i by omega]
    · simp [h12]
  have hlt : phys / PAGE_SIZE < 2 ^ 40 := by
    unfold PAGE_SIZE
    omega
  rw [← frameOf_addrOf hlt]
  unfold frameOf
  rw [hmask]
  congr 2
  have : addrOf (phys / PAGE_SIZE) &&& PAGE_ADDR_MASK = addrOf (phys / PAGE_SIZE) := by
    rw [← hmask, BitVec.and_assoc, BitVec.and_self]
  rw [this]

/-! ## The pages of a mapping -/

theorem userFlags_user (prot : BitVec 32) : halHas (Mem.userFlags prot) HAL_MEM_USER = true ∧
    halHas (Mem.userFlags prot ||| HAL_MEM_WRITE_COMBINING) HAL_MEM_USER = true := by
  unfold Mem.userFlags
  generalize halHas prot PROT_WRITE = w
  generalize halHas prot PROT_EXEC = x
  revert w x
  decide

variable {fbSize offset start : Nat} {prot : BitVec 32}

theorem mapFramebuffer_post (h : Ok held fb s0 s)
    (hfb : Framebuffer held fb fbSize s0) (hv : userAddr virt) (hin : offset + (virt - start) < fbSize) :
    (Mem.mapFramebuffer offset start virt (Mem.userFlags prot) s).Post (Ok held fb s0) (Fails held fb s0) := by
  obtain ⟨ρ, hspace⟩ := h.keeps.space
  obtain ⟨hlt, hhalf, hne, h52, hframe⟩ := hfb.map (s0.fbVirt + (offset + (virt - start))) (by omega) (by omega)
  have hoff : (offset + (virt - start)) % 2 ^ 64 = offset + (virt - start) := Nat.mod_eq_of_lt (by omega)
  have haddr : (s.fbVirt + (offset + (virt - start)) % 2 ^ 64) % 2 ^ 64 = s0.fbVirt + (offset + (virt - start)) := by
    rw [hoff, h.fbVirt, Nat.mod_eq_of_lt hlt]
  have hphys := h.keeps.half _ hhalf
  unfold Mem.mapFramebuffer
  dsimp only
  rw [haddr, h.cr3, hphys, if_pos hne]
  rw [← frameOf_ofNat h52] at hframe
  refine h.vm ?_
  rw [h.cr3]
  refine hspace.lend (Keeps.refl hspace) hv (userFlags_user prot).2 (.inl hframe) fun hlt => .inr ?_
  rcases (hspace.pinned _ (.inl hframe)).kept hlt with h0 | hr
  · rw [hfb.held _ hframe] at h0
    cases h0
  · exact hr

theorem mapShm_post {obj : ShmObject} (h : Ok held fb s0 s)
    (hshm : ShmHeld held s0) (hobj : ∀ p ∈ obj.pages, p ≠ 0 → s0.shmPage p) (hv : userAddr virt) :
    (Mem.mapShm obj prot offset start virt (Mem.userFlags prot) s).Post (Ok held fb s0) (Fails held fb s0) := by
  obtain ⟨ρ, hspace⟩ := h.keeps.space
  unfold Mem.mapShm
  split
  · exact ⟨h, fun n hn => by cases hn; decide⟩
  dsimp only
  generalize (offset + (virt - start)) % 2 ^ 64 / PAGE_SIZE % 2 ^ 32 = idx
  split
  · rename_i hne
    have hmem : obj.pages.getD idx 0 ∈ obj.pages := by
      rw [List.getD_eq_getElem?_getD] at hne ⊢
      cases hget : obj.pages[idx]? with
      | none => simp [hget] at hne
      | some p => simpa [hget] using List.mem_of_getElem? hget
    generalize obj.pages.getD idx 0 = p at hne hmem
    have hpage := hobj p hmem hne
    obtain ⟨hal, h52, hheld⟩ := hshm p hpage
    have hmul : p / PAGE_SIZE * PAGE_SIZE = p := Nat.div_mul_cancel (Nat.dvd_of_mod_eq_zero hal)
    split
    · trivial
    · rename_i pmm hok
      rw [← hmul] at hok
      obtain ⟨hspace', hk, hcount⟩ := hspace.ref (fun hlt => hheld (h.keeps.total ▸ hlt)) hok
      have hcr3 : Mem.cr3 { s with vm := { s.vm with pmm := pmm } } = s0.cr3 := h.cr3
      have hlent : s0.lent fb (frameOf (BitVec.ofNat 64 p)) := .inr ⟨p, hpage, (frameOf_ofNat h52).symm⟩
      unfold Mem.mapAt
      rw [hcr3]
      refine h.vm (?_ : Keeps _ _ _ _ ((Vm.mk s.vm.mem pmm).halMemMap _ (BitVec.ofNat 64 p) virt (Mem.userFlags prot)).1)
      refine hspace'.lend hk hv (userFlags_user prot).1 hlent fun hlt => .inl ?_
      rw [frameOf_ofNat h52] at hlt ⊢
      exact hcount hlt
  · exact freshPage_post h hv (userFlags_user prot).1 fun s hs => hs

theorem mapFile_post {node : Option FsNode} (h : Ok held fb s0 s) (hv : userAddr virt) :
    (Mem.mapFile node offset start virt (Mem.userFlags prot) s).Post (Ok held fb s0) (Fails held fb s0) := by
  unfold Mem.mapFile
  refine (freshPage_post h hv (userFlags_user prot).1 fun s hs => enomem_post hs).andThen fun s hs => ?_
  cases node with
  | none => exact hs
  | some node =>
    dsimp only
    split
    · exact fillPage_post hs hv _
    · exact hs

/-- What stands behind the pages is sound: the offsets stay inside the framebuffer, the object is one the task has. -/
def BackingOk (fbSize : Nat) (s0 : Mem) (offset start virt : Nat) : Mem.Backing → Prop
  | .framebuffer => offset + (virt - start) < fbSize
  | .shm obj => ∀ p ∈ obj.pages, p ≠ 0 → s0.shmPage p
  | _ => True

variable {len : Nat}

theorem mmapPage_post {backing : Mem.Backing} {base : Nat}
    (h : Ok held fb s0 s) (hfb : Framebuffer held fb fbSize s0) (hshm : ShmHeld held s0)
    (hb : BackingOk fbSize s0 offset start virt backing) (hv : userAddr virt) (ha : virt % PAGE_SIZE = 0) :
    (Mem.mmapPage backing prot len offset base start virt s).Post (Ok held fb s0) (Fails held fb s0) := by
  unfold Mem.mmapPage
  dsimp only
  refine (dropPage_post h hv ha).andThen fun s hs => ?_
  have hfresh := freshPage_post hs hv (userFlags_user prot).1 fun s hs => enomem_post hs
  cases backing with
  | framebuffer => exact mapFramebuffer_post hs hfb hv hb
  | shm obj => exact mapShm_post hs hshm hb hv
  | binder =>
    refine hfresh.andThen fun s hs => ?_
    split
    · exact hs.modTask _ (fun _ => rfl) (fun _ => rfl) fun _ => rfl
    · exact hs
  | properties =>
    refine hfresh.andThen fun s hs => ?_
    split
    · exact fillPage_post hs hv _
    · exact hs
  | file node => exact mapFile_post hs hv

/-! ## sys_mmap -/

theorem mem_pagesOf {stop : Nat} (ha : start % PAGE_SIZE = 0) (hv : virt ∈ Mem.pagesOf start stop) :
    virt % PAGE_SIZE = 0 ∧ start ≤ virt ∧ virt < stop := by
  obtain ⟨k, hk, rfl⟩ := List.mem_map.1 hv
  have hk := List.mem_range.1 hk
  unfold PAGE_SIZE at *
  omega

theorem userAddr_of_range {stop : Nat} (hs : USER_BASE ≤ start) (ht : stop ≤ USER_LIMIT + 1) (h1 : start ≤ virt)
    (h2 : virt < stop) : userAddr virt := ⟨by omega, by omega⟩

theorem maxBase_user (h : s.Bases) : USER_BASE ≤ s.maxBase ∧ s.maxBase % PAGE_SIZE = 0 := by
  have hfold : ∀ (is : List Nat) (base : Nat), (base = 0 ∨ USER_BASE ≤ base ∧ base % PAGE_SIZE = 0) →
      let b := is.foldl (fun base i =>
        if i < MAX_TASKS ∧ (s.tasks i).cr3 = s.current.cr3 ∧ (s.tasks i).mmapBase > base then (s.tasks i).mmapBase
        else base) base
      b = 0 ∨ USER_BASE ≤ b ∧ b % PAGE_SIZE = 0 := by
    intro is
    induction is with
    | nil => exact fun base hb => hb
    | cons i is ih =>
      intro base hb
      refine ih _ ?_
      dsimp only
      split
      · rename_i hi
        exact .inr (h i hi.2.1)
      · exact hb
  unfold Mem.maxBase
  dsimp only
  split
  · exact h s.cur rfl
  · rename_i hne
    exact (hfold (List.range s.taskGetCount) 0 (.inl rfl)).resolve_left hne

theorem Ok.setBase (h : Ok held fb s0 s) {base : Nat} (hb : USER_BASE ≤ base ∧ base % PAGE_SIZE = 0) :
    Ok held fb s0 (s.setBase base) := by
  have hsame : ∀ i, ((s.setBase base).tasks i).cr3 = (s.tasks i).cr3 ∧
      ((s.setBase base).tasks i).fdTable = (s.tasks i).fdTable := fun i => by
    unfold Mem.setBase
    dsimp only
    split <;> exact ⟨rfl, rfl⟩
  refine ⟨h.keeps, h.cur, h.fbVirt, fun i => (hsame i).1.trans (h.cr3s i), fun i => (hsame i).2.trans (h.fds i),
    fun i hi => ?_⟩
  have hi' : (s.tasks i).cr3 = s.cr3 := (hsame i).1.symm.trans (hi.trans (hsame s.cur).1)
  unfold Mem.setBase
  dsimp only
  split
  · exact hb
  · exact h.bases i hi'

structure Placed (virt len : Nat) : Prop where
  aligned : virt % PAGE_SIZE = 0
  base : USER_BASE ≤ virt
  limit : virt + Mem.pageAlignUp len ≤ USER_LIMIT + 1
  len : len ≤ Mem.pageAlignUp len

theorem Placed.stop (h : Placed virt len) : Mem.pageAlignUp ((virt + len) % 2 ^ 64) = virt + Mem.pageAlignUp len := by
  obtain ⟨h1, h2, h3, h4⟩ := h
  unfold Mem.pageAlignUp at *
  unfold PAGE_SIZE USER_LIMIT at *
  omega

variable {addr : Nat} {s' : Mem}

theorem pageAlignUp_mod (x : Nat) : Mem.pageAlignUp x % PAGE_SIZE = 0 := Nat.mul_mod_left _ _

theorem pageAlignUp_lt (x : Nat) : Mem.pageAlignUp x < 2 ^ 64 := by
  unfold Mem.pageAlignUp PAGE_SIZE
  omega

theorem mmapPlace_spec (hb : s.Bases) (haddr : addr < 2 ^ 64) (hlen : len < 2 ^ 64)
    (hok : s.mmapPlace addr len flags = .ok (s', virt)) :
    Placed virt len ∧ (s' = s ∨ ∃ base, s' = s.setBase base ∧ USER_BASE ≤ base ∧ base % PAGE_SIZE = 0) := by
  unfold Mem.mmapPlace at hok
  split at hok
  · split at hok
    · cases hok
    rename_i hal
    split at hok
    · cases hok
    rename_i hval
    cases hok
    obtain ⟨h1, h2, h3⟩ := vmmValidateUserPtr_range (by simpa using hval)
    have hal : virt % PAGE_SIZE = 0 := by simpa using hal
    refine ⟨⟨hal, h1, ?_, ?_⟩, .inl rfl⟩
    · unfold Mem.pageAlignUp PAGE_SIZE USER_LIMIT at *
      omega
    · unfold Mem.pageAlignUp PAGE_SIZE USER_LIMIT at *
      omega
  · obtain ⟨hbase, hal⟩ := maxBase_user hb
    dsimp only at hok
    split at hok
    · cases hok
    rename_i hlt
    split at hok
    · cases hok
    rename_i hnew
    cases hok
    obtain ⟨hge, hle⟩ := not_or.1 hnew
    have hle' := pageAlignUp_lt len
    have hsum : (s.maxBase + Mem.pageAlignUp len) % 2 ^ 64 = s.maxBase + Mem.pageAlignUp len := by
      unfold USER_LIMIT at hle
      omega
    have hmul := pageAlignUp_mod len
    rw [hsum] at hge hle ⊢
    refine ⟨⟨hal, hbase, by omega, by omega⟩, .inr ⟨_, rfl, by omega, ?_⟩⟩
    rw [Nat.add_mod, hal, hmul]
    rfl

theorem mmapPlace_ok (h : Ok held fb s0 s) (haddr : addr < 2 ^ 64) (hlen : len < 2 ^ 64)
    (hok : s.mmapPlace addr len flags = .ok (s', virt)) : Ok held fb s0 s' ∧ Placed virt len := by
  obtain ⟨hplaced, rfl | ⟨base, rfl, hbase⟩⟩ := mmapPlace_spec h.bases haddr hlen hok
  · exact ⟨h, hplaced⟩
  · exact ⟨h.setBase hbase, hplaced⟩

theorem mmapPlace_error {e : Int} (h : s.mmapPlace addr len flags = .error e) : e < 0 := by
  unfold Mem.mmapPlace at h
  dsimp only at h
  split at h
  · split at h
    · cases h
      decide
    split at h
    · cases h
      decide
    · cases h
  · split at h
    · cases h
      decide
    split at h
    · cases h
      decide
    · cases h

variable {fd : Int}

theorem mmapBacking_error {e : Int} (h : s.mmapBacking flags fd = .error e) : e < 0 := by
  unfold Mem.mmapBacking at h
  split at h
  · cases h
  split at h
  · cases h
    decide
  split at h
  · cases h
    decide
  · cases h

def Mem.mapsFramebuffer (s : Mem) (flags : BitVec 32) (fd : Int) : Prop :=
  halHas flags MAP_ANONYMOUS = false ∧ 0 ≤ fd ∧ ∃ node, s.current.fdTable fd.toNat = some node ∧ node.shmfs = false ∧
    (node.name = "fb0" ∨ node.name = "card0")

theorem mmapFlags_spec {flags' : BitVec 32} (h : s.mmapFlags flags fd = some flags') :
    halHas flags' MAP_ANONYMOUS = halHas flags MAP_ANONYMOUS ∧ (fd ≠ -1 → halHas flags' 0x3#32 = true) := by
  unfold Mem.mmapFlags at h
  split at h
  · rename_i h3
    cases h
    exact ⟨rfl, fun _ => h3⟩
  split at h
  · cases h
    constructor
    · unfold halHas
      rw [BitVec.and_or_distrib_right, show MAP_PRIVATE &&& MAP_ANONYMOUS = 0#32 by decide, BitVec.or_zero]
    · intro _
      unfold halHas
      rw [bne_iff_ne]
      intro hz
      have hbit := congrArg (fun v => v.getLsbD 1) hz
      simp [MAP_PRIVATE] at hbit
  split at h
  · cases h
  · rename_i hfd
    cases h
    exact ⟨rfl, fun hne => absurd hne hfd⟩

theorem mmapBacking_ok {flags' : BitVec 32} {backing : Mem.Backing}
    (h : Ok held fb s0 s) (h' : Ok held fb s0 s') (hfl : s.mmapFlags flags fd = some flags')
    (hcond : s.mapsFramebuffer flags fd → offset + Mem.pageAlignUp len < fbSize + PAGE_SIZE)
    (hok : s'.mmapBacking flags' (if halHas flags' MAP_ANONYMOUS then -1 else fd) = .ok backing)
    (hstart : virt < start + Mem.pageAlignUp len) (hal : start % PAGE_SIZE = 0)
      (hvirt : start ≤ virt ∧ virt % PAGE_SIZE = 0) :
    BackingOk fbSize s0 offset start virt backing := by
  obtain ⟨hanon, hthree⟩ := mmapFlags_spec hfl
  have hfds : ∀ t, Ok held fb s0 t → t.current.fdTable = s0.current.fdTable := fun t ht => by
    unfold Mem.current
    rw [ht.cur, ht.fds]
  generalize hfd : (if halHas flags' MAP_ANONYMOUS then -1 else fd) = fd' at hok
  unfold Mem.mmapBacking at hok
  split at hok
  · cases hok
    trivial
  rename_i hne
  split at hok
  · cases hok
  rename_i hrange
  split at hok
  · cases hok
  rename_i node hnode
  cases hok
  have hanon' : halHas flags' MAP_ANONYMOUS = false := by
    by_contra hc
    rw [if_pos (by simpa using hc)] at hfd
    exact hne hfd.symm
  rw [hanon', if_neg (by simp)] at hfd
  subst hfd
  rw [hfds s' h'] at hnode
  unfold Mem.backingOf
  rw [hthree hne]
  split
  · split
    · rename_i obj himpl
      exact fun p hp h0 => ⟨fd.toNat, node, obj, hnode, himpl, hp, h0⟩
    · trivial
  rename_i hshm
  split
  · rename_i hname
    have hlt := hcond ⟨hanon ▸ hanon', by omega, node, by rw [hfds s h]; exact hnode, by simpa using hshm, hname⟩
    have hmul := pageAlignUp_mod len
    show offset + (virt - start) < fbSize
    unfold PAGE_SIZE at *
    omega
  split
  · trivial
  split
  · trivial
  · trivial

/-- **`sys_mmap`** stays in user space; what it returns is where the mapping is. -/
theorem sysMmap_post {addr len : UInt64} {offset : UInt64}
    (h : Ok held fb s0 s) (hfb : Framebuffer held fb fbSize s0) (hshm : ShmHeld held s0)
    (hcond : s.mapsFramebuffer flags fd → offset.toNat + Mem.pageAlignUp len.toNat < fbSize + PAGE_SIZE) :
    (s.sysMmap addr len prot flags fd offset).Post (fun _ => False) fun s r =>
      Ok held fb s0 s ∧ ∀ n, r = some n → 0 ≤ n → Placed n.toNat len.toNat := by
  have hfail : ∀ s r, Fails held fb s0 s r → Ok held fb s0 s ∧ ∀ n,
      r = some n → 0 ≤ n → Placed n.toNat len.toNat := fun s r hs =>
    ⟨hs.1, fun n hn h0 => absurd (hs.2 n hn) (by omega)⟩
  have herr : ∀ (s : Mem) (e : Int), Ok held fb s0 s → e < 0 → Flow.Post (fun _ => False) (fun s r =>
      Ok held fb s0 s ∧ ∀ n, r = some n → 0 ≤ n → Placed n.toNat len.toNat) (Flow.ret s e : Exec) := fun s e hs he =>
    hfail s _ ⟨hs, fun n hn => by cases hn; exact he⟩
  unfold Mem.sysMmap
  dsimp only
  split
  · exact herr s _ h (by decide)
  split
  · exact herr s _ h (by decide)
  rename_i flags' hfl
  split
  · rename_i e hplace
    exact herr s _ h (mmapPlace_error hplace)
  rename_i s' virt hplace
  obtain ⟨hs', hp⟩ := mmapPlace_ok h addr.toNat_lt len.toNat_lt hplace
  rw [hp.stop]
  have hdown : Mem.pageAlignDown virt = virt := by
    have := hp.aligned
    unfold Mem.pageAlignDown PAGE_SIZE at *
    omega
  rw [hdown]
  split
  · exact herr s' _ hs' (by decide)
  split
  · rename_i e hback
    exact herr s' _ hs' (mmapBacking_error hback)
  rename_i backing hback
  refine Flow.Post.andThen (P := Ok held fb s0) (Flow.Post.mono ?_ (fun s hs => hs) hfail) fun s hs => ?_
  · refine Flow.Post.each _ _ hs' fun v hv s hs => ?_
    obtain ⟨hal, hge, hlt⟩ := mem_pagesOf hp.aligned hv
    exact mmapPage_post hs hfb hshm (mmapBacking_ok h hs' hfl hcond hback hlt hp.aligned ⟨hge, hal⟩)
      (userAddr_of_range hp.base hp.limit hge hlt) hal
  · refine ⟨hs, fun n hn _ => ?_⟩
    cases hn
    have hlt : virt < 2 ^ 63 := by
      have := hp.limit
      unfold USER_LIMIT at this
      omega
    rw [Mem.toInt64, if_pos hlt]
    exact hp

/-! ## sys_munmap, sys_mprotect, sys_brk -/

theorem userRange_spec {stop : Nat} (h : Mem.userRange addr len = some (start, stop)) :
    start = addr ∧ USER_BASE ≤ addr ∧ stop ≤ USER_LIMIT + 1 ∧ addr ≤ stop ∧
    stop = Mem.pageAlignUp ((addr + len) % 2 ^ 64) := by
  unfold Mem.userRange at h
  dsimp only at h
  split at h
  · cases h
  · cases h
    exact ⟨rfl, by omega, by omega, by omega, rfl⟩

theorem munmap_post (h : Ok held fb s0 s) : (s.munmap addr len).Post (fun _ => False) fun s r =>
      Ok held fb s0 s ∧ ∀ n, r = some n → 0 ≤ n → ∃ range, Mem.userRange addr len = some range := by
  have herr : ∀ s r, Fails held fb s0 s r →
      Ok held fb s0 s ∧ ∀ n, r = some n → 0 ≤ n → ∃ range, Mem.userRange addr len = some range := fun s r hs =>
    ⟨hs.1, fun n hn h0 => absurd (hs.2 n hn) (by omega)⟩
  unfold Mem.munmap
  split
  · exact herr s (some (-EINVAL)) ⟨h, fun n hn => by cases hn; decide⟩
  rename_i hal
  split
  · exact herr s (some (-EINVAL)) ⟨h, fun n hn => by cases hn; decide⟩
  split
  · exact herr s (some (-EINVAL)) ⟨h, fun n hn => by cases hn; decide⟩
  rename_i start stop hrange
  obtain ⟨rfl, hbase, hlimit, -, -⟩ := userRange_spec hrange
  have hal : start % PAGE_SIZE = 0 := by simpa using hal
  refine Flow.Post.andThen (P := Ok held fb s0) (Flow.Post.mono ?_ (fun s hs => hs) herr) fun s hs => ?_
  · refine Flow.Post.each _ _ h fun v hv s hs => ?_
    obtain ⟨hva, hge, hlt⟩ := mem_pagesOf hal hv
    exact dropPage_post hs (userAddr_of_range hbase hlimit hge hlt) hva
  · split
    · exact ⟨hs.modTask _ (fun _ => rfl) (fun _ => rfl) fun _ => rfl, fun _ _ _ => ⟨_, hrange⟩⟩
    · exact ⟨hs, fun _ _ _ => ⟨_, hrange⟩⟩

theorem sysMprotect_post {addr len : UInt64} (h : Ok held fb s0 s) :
    (s.sysMprotect addr len prot).Post (Ok held fb s0) fun s _ => Ok held fb s0 s := by
  unfold Mem.sysMprotect
  split
  · exact h
  rename_i hal
  split
  · exact h
  split
  · exact h
  split
  · exact h
  rename_i start stop hrange
  obtain ⟨rfl, hbase, hlimit, -, -⟩ := userRange_spec hrange
  have hal : addr.toNat % PAGE_SIZE = 0 := by simpa using hal
  refine Flow.Post.andThen (P := Ok held fb s0) (Flow.Post.each _ _ h fun v hv s hs => ?_) fun s hs => hs
  obtain ⟨hva, hge, hlt⟩ := mem_pagesOf hal hv
  have huser := userAddr_of_range hbase hlimit hge hlt
  obtain ⟨ρ, hspace⟩ := hs.keeps.space
  dsimp only
  rw [hs.cr3]
  obtain h0 | ⟨l, hl, hne, hphys, hfr⟩ := hspace.phys huser hva
  · rw [if_neg (by simp [h0])]
    exact hs
  · rw [hphys, if_pos (Nat.mul_ne_zero hne (by decide))]
    refine hs.vm ?_
    rw [hs.cr3]
    exact hspace.remap huser (userFlags_user prot).1 hl hfr

/-- **`sys_brk`** stays in user space, once the break it grows from does. -/
theorem sysBrk_post {brk : UInt64} (h : Ok held fb s0 s)
    (hcond : Mem.pageAlignUp s.current.brk < Mem.pageAlignUp brk.toNat → USER_BASE ≤ Mem.pageAlignUp s.current.brk) :
    (s.sysBrk brk).Post (Ok held fb s0) fun s _ => Ok held fb s0 s := by
  unfold Mem.sysBrk
  dsimp only
  split
  · exact h
  split
  · exact h
  rename_i hlim
  split
  · exact h.modTask _ (fun _ => rfl) (fun _ => rfl) fun _ => rfl
  split
  · exact h
  refine Flow.Post.andThen (P := Ok held fb s0) (Flow.Post.each _ _ h fun v hv s' hs' => ?_) fun s hs =>
    hs.modTask _ (fun _ => rfl) (fun _ => rfl) fun _ => rfl
  have hal : Mem.pageAlignUp s.current.brk % PAGE_SIZE = 0 := by
    unfold Mem.pageAlignUp
    exact Nat.mul_mod_left _ _
  obtain ⟨hva, hge, hlt⟩ := mem_pagesOf hal hv
  have hstop : Mem.pageAlignUp brk.toNat ≤ USER_LIMIT + 1 := by
    unfold USER_LIMIT at hlim ⊢
    unfold Mem.pageAlignUp PAGE_SIZE
    omega
  have huser := userAddr_of_range (hcond (by omega)) hstop hge hlt
  split
  · exact Flow.Post.mono (freshPage_post hs' huser (by decide) fun s hs => enomem_post hs) (fun _ hs => hs)
      fun _ _ hs => hs.1
  · exact hs'

/-! ## sys_mremap -/

variable {oldStart : Nat}

theorem movePage_post {newStart i : Nat} (h : Ok held fb s0 s) (hold : userAddr (oldStart + i))
    (hal : (oldStart + i) % PAGE_SIZE = 0) (hnew : userAddr (newStart + i)) :
    (Mem.movePage oldStart newStart i s).Post (Ok held fb s0) fun s _ => Ok held fb s0 s := by
  obtain ⟨ρ, hspace⟩ := h.keeps.space
  unfold Mem.movePage
  dsimp only
  rw [h.cr3]
  obtain h0 | ⟨l, hl, hne, hphys, hfr⟩ := hspace.phys hold hal
  · rw [if_neg (by simp [h0])]
    exact h
  · rw [hphys, if_pos (Nat.mul_ne_zero hne (by decide))]
    have hcr3 : ∀ vm, Mem.cr3 { s with vm := vm } = s0.cr3 := fun vm => h.cr3
    rw [Mem.mapAt, h.cr3, hcr3]
    exact h.vm (hspace.move hold hnew (by decide) hl hfr)

theorem movePages_post {newStart oldLen : Nat} (h : Ok held fb s0 s) (hal : oldStart % PAGE_SIZE = 0)
    (hold : USER_BASE ≤ oldStart ∧ oldStart + oldLen ≤ USER_LIMIT + 1)
    (hnew : USER_BASE ≤ newStart ∧ newStart + oldLen ≤ USER_LIMIT + 1) :
    ((Flow.each (Mem.movePage oldStart newStart) (Mem.pagesOf 0 oldLen) s).andThen fun s =>
      .ret s (Mem.toInt64 newStart)).Post (Ok held fb s0) fun s _ => Ok held fb s0 s := by
  refine Flow.Post.andThen (P := Ok held fb s0) (Flow.Post.each _ _ h fun i hi s hs => ?_) fun s hs => hs
  obtain ⟨hia, -, hlt⟩ := mem_pagesOf rfl hi
  have hsum : (oldStart + i) % PAGE_SIZE = 0 := by
    rw [Nat.add_mod, hal, hia]
    rfl
  exact movePage_post hs ⟨by omega, by omega⟩ hsum ⟨by omega, by omega⟩

theorem growInPlace_post {oldLen newLen : Nat} (h : Ok held fb s0 s) (hal : oldStart % PAGE_SIZE = 0)
    (hlen : oldLen % PAGE_SIZE = 0) (hrange : USER_BASE ≤ oldStart ∧ oldStart + newLen ≤ USER_LIMIT + 1) :
    (s.growInPlace oldStart oldLen newLen).Post (Ok held fb s0) fun s _ => Ok held fb s0 s := by
  have hmod : (oldStart + newLen) % 2 ^ 64 = oldStart + newLen := by
    have := hrange.2
    unfold USER_LIMIT at this
    exact Nat.mod_eq_of_lt (by omega)
  have hsum : (oldStart + oldLen) % PAGE_SIZE = 0 := by
    rw [Nat.add_mod, hal, hlen]
    rfl
  unfold Mem.growInPlace
  dsimp only
  rw [hmod]
  refine Flow.Post.andThen (P := Ok held fb s0) (Flow.Post.each _ _ h fun v _ s hs => ?_) fun s hs =>
    Flow.Post.andThen (P := Ok held fb s0) (Flow.Post.each _ _ hs fun v hv s hs => ?_) fun s hs => hs
  · split
    · exact hs
    · exact hs
  · obtain ⟨-, hge, hlt⟩ := mem_pagesOf hsum hv
    have huser := userAddr_of_range (by omega : USER_BASE ≤ oldStart + oldLen) hrange.2 hge hlt
    exact Flow.Post.mono (freshPage_post hs huser (by decide) fun s hs => enomem_post hs) (fun _ hs => hs) fun _ _ hs => hs.1

/-- **`sys_mremap`** stays in user space, once the old range does, with the pages it grows by. -/
theorem sysMremap_post {oldAddr oldSize newSize newAddr : UInt64} (h : Ok held fb s0 s)
    (hfb : Framebuffer held fb fbSize s0) (hshm : ShmHeld held s0)
    (hcond : Mem.pageAlignUp oldSize.toNat < Mem.pageAlignUp newSize.toNat → USER_BASE ≤ oldAddr.toNat ∧
      oldAddr.toNat + (if halHas flags MREMAP_MAYMOVE then Mem.pageAlignUp oldSize.toNat
        else Mem.pageAlignUp newSize.toNat) ≤ USER_LIMIT + 1) :
    (s.sysMremap oldAddr oldSize newSize flags newAddr).Post (Ok held fb s0) fun s _ => Ok held fb s0 s := by
  unfold Mem.sysMremap
  refine Flow.Post.ite (fun _ => h) fun hal => ?_
  have hal : oldAddr.toNat % PAGE_SIZE = 0 := by simpa using hal
  refine Flow.Post.ite (fun _ => h) fun _ => ?_
  refine Flow.Post.ite (fun _ => h) fun _ => ?_
  refine Flow.Post.ite (fun _ => h) fun _ => ?_
  refine Flow.Post.ite (fun _ => h) fun _ => ?_
  refine Flow.Post.ite (fun _ => h) fun hne => ?_
  refine Flow.Post.ite (fun _ => ?_) fun hge => ?_
  · exact Flow.Post.call (Flow.Post.mono (munmap_post h) (fun _ hs => hs.elim) fun _ _ hs => hs) (fun s hs => hs.1)
      fun s r hs => hs.1
  obtain ⟨hbase, hlimit⟩ := hcond (by omega)
  refine Flow.Post.ite (fun hmove => ?_) fun hmove => ?_
  · rw [if_neg hmove] at hlimit
    exact growInPlace_post h hal (pageAlignUp_mod _) ⟨hbase, hlimit⟩
  rw [if_pos (not_not.1 hmove)] at hlimit
  refine Flow.Post.ite (fun _ => ?_) fun _ => ?_
  · refine Flow.Post.ite (fun _ => h) fun hnal => ?_
    have hnal : newAddr.toNat % PAGE_SIZE = 0 := by simpa using hnal
    refine Flow.Post.ite (fun _ => h) fun _ => ?_
    refine Flow.Post.call (Flow.Post.mono (munmap_post h) (fun _ hs => hs.elim) fun _ _ hs => hs) (fun s hs => hs.1)
      fun s r hs => Flow.Post.ite (fun _ => hs.1) fun hr => ?_
    obtain ⟨⟨start, stop⟩, hrange⟩ := hs.2 r rfl (by omega)
    obtain ⟨rfl, hnbase, hnlimit, hle, rfl⟩ := userRange_spec hrange
    refine movePages_post hs.1 hal ⟨hbase, hlimit⟩ ⟨hnbase, ?_⟩
    -- a sum that wrapped would lie below the new address
    have hmul' := pageAlignUp_mod newSize.toNat
    have hlt := pageAlignUp_lt newSize.toNat
    generalize Mem.pageAlignUp newSize.toNat = newLen at hmul' hlt hne hge hnlimit hle
    generalize Mem.pageAlignUp oldSize.toNat = oldLen at hne hge
    unfold USER_LIMIT at hnlimit ⊢
    unfold Mem.pageAlignUp PAGE_SIZE at hnlimit hle
    unfold PAGE_SIZE at hnal hmul'
    omega
  · have hnew : (UInt64.ofNat (Mem.pageAlignUp newSize.toNat)).toNat = Mem.pageAlignUp newSize.toNat :=
      UInt64.toNat_ofNat_of_lt (pageAlignUp_lt _)
    have hmmap : (s.sysMmap 0 (UInt64.ofNat (Mem.pageAlignUp newSize.toNat)) 0x3#32 (MAP_PRIVATE ||| MAP_ANONYMOUS) (-1)
        0).Post _ _ := sysMmap_post h hfb hshm fun hmaps => absurd hmaps.2.1 (by decide)
    refine Flow.Post.call (Flow.Post.mono hmmap (fun _ hs => hs.elim) fun _ _ hs => hs) (fun s hs => hs.1)
      fun s r hs => Flow.Post.ite (fun _ => hs.1) fun hr => ?_
    have hp := hs.2 r rfl (by omega)
    rw [hnew] at hp
    have hle := hp.limit
    have hlen := hp.len
    exact movePages_post hs.1 hal ⟨hbase, hlimit⟩ ⟨hp.base, by omega⟩

end

/-! ## Runs -/

inductive MemCall where
  | mmap (addr len : UInt64) (prot flags : BitVec 32) (fd : Int) (offset : UInt64)
  | munmap (addr len : UInt64)
  | mprotect (addr len : UInt64) (prot : BitVec 32)
  | mremap (oldAddr oldSize newSize : UInt64) (flags : BitVec 32) (newAddr : UInt64)
  | brk (brk : UInt64)

namespace Mem

def exec (s : Mem) : MemCall → Exec
  | .mmap addr len prot flags fd offset => s.sysMmap addr len prot flags fd offset
  | .munmap addr len => s.sysMunmap addr len
  | .mprotect addr len prot => s.sysMprotect addr len prot
  | .mremap oldAddr oldSize newSize flags newAddr => s.sysMremap oldAddr oldSize newSize flags newAddr
  | .brk brk => s.sysBrk brk

def step (s : Mem) (c : MemCall) : Mem := (s.exec c).state s

/-- Every leaf with `PAGE_USER` is in user space; addresses are the 48 bits the tables tell apart. -/
def Confined (s : Mem) : Prop :=
  ∀ v < 2 ^ 48, ∀ l, leafAt s.vm.mem s.cr3 v = some l → l.user = true → USER_BASE ≤ v ∧ v ≤ USER_LIMIT

/-- The frame is mapped, but nowhere with `PAGE_USER`; and it is the kernel's: the allocator has not got it free, and it is
neither of the framebuffer nor of shared memory the task has open. -/
def KernelOnly (fb : Nat → Prop) (s : Mem) (f : Nat) : Prop :=
  (∃ v < 2 ^ 48, ∃ l, leafAt s.vm.mem s.cr3 v = some l ∧ l.frame = f) ∧
  (∀ v < 2 ^ 48, ∀ l, leafAt s.vm.mem s.cr3 v = some l → l.frame = f → l.user = false) ∧
  ¬ s.vm.pmm.free f ∧ ¬ s.lent fb f

def UserReaches (s : Mem) (f : Nat) : Prop :=
  ∃ v < 2 ^ 48, ∃ a, translate s.vm.mem s.cr3 v = some a ∧ a.frame = f ∧ a.user = true

/-- What the code does not check: that a framebuffer mapping stays inside the framebuffer, that the range `sys_mremap`
moves or grows is in user space, and that the break `sys_brk` grows from is. -/
def Met (fbSize : Nat) (s : Mem) : MemCall → Prop
  | .mmap _ len _ flags fd offset =>
    s.mapsFramebuffer flags fd → offset.toNat + pageAlignUp len.toNat < fbSize + PAGE_SIZE
  | .mremap oldAddr oldSize newSize flags _ =>
    pageAlignUp oldSize.toNat < pageAlignUp newSize.toNat → USER_BASE ≤ oldAddr.toNat ∧
      oldAddr.toNat + (if halHas flags MREMAP_MAYMOVE then pageAlignUp oldSize.toNat else pageAlignUp newSize.toNat) ≤
      USER_LIMIT + 1
  | .brk brk => pageAlignUp s.current.brk < pageAlignUp brk.toNat → USER_BASE ≤ pageAlignUp s.current.brk
  | .munmap _ _ | .mprotect _ _ _ => True

end Mem

/-- A user task with its address space: tables, pages and references agree, the pages in user space are all user pages, in
frames that are allocated, of the framebuffer or of shared memory, and mappings grow upwards from user space. -/
structure MemOk (held : Nat → Nat) (fb : Nat → Prop) (fbSize : Nat) (s : Mem) : Prop where
  space : ∃ ρ, Space ρ held (s.lent fb) s.vm s.cr3
  bases : s.Bases
  framebuffer : Framebuffer held fb fbSize s
  shm : ShmHeld held s

section
variable {held : Nat → Nat} {fb : Nat → Prop} {fbSize : Nat} {s0 s : Mem}

theorem MemOk.ok (h : MemOk held fb fbSize s) : Ok held fb s s := by
  obtain ⟨ρ, hspace⟩ := h.space
  exact ⟨Keeps.refl hspace, rfl, rfl, fun _ => rfl, fun _ => rfl, h.bases⟩

theorem Ok.memOk (h : Ok held fb s0 s) (h₀ : MemOk held fb fbSize s0) : MemOk held fb fbSize s := by
  have hfds : s.current.fdTable = s0.current.fdTable := by
    unfold Mem.current
    rw [h.cur, h.fds]
  have hpage : ∀ p, s.shmPage p ↔ s0.shmPage p := fun p => by
    unfold Mem.shmPage
    rw [hfds]
  have hlent : s.lent fb = s0.lent fb := by
    funext f
    unfold Mem.lent
    simp [hpage]
  refine ⟨?_, h.bases, ⟨h₀.framebuffer.held, fun a h1 h2 => ?_⟩, fun p hp => ?_⟩
  · rw [hlent, h.cr3]
    exact h.keeps.space
  · rw [h.fbVirt] at h1 h2
    have hmap := h₀.framebuffer.map a h1 h2
    rw [h.cr3, h.keeps.half a hmap.2.1]
    exact hmap
  · rw [h.keeps.total]
    exact h₀.shm p ((hpage p).1 hp)

/-- **One call** leads from a sound address space to a sound one, and gains nothing that is the kernel's. -/
theorem MemOk.step (h : MemOk held fb fbSize s) {c : MemCall} (hm : s.Met fbSize c) : Ok held fb s (s.step c) := by
  unfold Mem.step
  refine Flow.Post.state (P := Ok held fb s) ?_ h.ok
  cases c with
  | mmap addr len prot flags fd offset =>
    exact Flow.Post.mono (sysMmap_post h.ok h.framebuffer h.shm hm) (fun _ hs => hs.elim) fun _ _ hs => hs.1
  | munmap addr len => exact Flow.Post.mono (munmap_post h.ok) (fun _ hs => hs.elim) fun _ _ hs => hs.1
  | mprotect addr len prot => exact sysMprotect_post h.ok
  | mremap oldAddr oldSize newSize flags newAddr => exact sysMremap_post h.ok h.framebuffer h.shm hm
  | brk brk => exact sysBrk_post h.ok hm

theorem Ok.confined (h : Ok held fb s0 s) (hc : s0.Confined) : s.Confined := by
  intro v hv l hl hu
  by_contra hnot
  rw [h.cr3, h.keeps.outside v hv hnot] at hl
  exact hnot (hc v hv l hl hu)

theorem Ok.not_userReaches (h : Ok held fb s0 s) (h₀ : MemOk held fb fbSize s0) (hc : s0.Confined) {f : Nat}
    (hf : s0.KernelOnly fb f) : ¬ s.UserReaches f := by
  rintro ⟨v, hv, a, ha, rfl, hu⟩
  obtain ⟨l, hl, hfr, hlu⟩ := translate_leaf ha
  have huser : userAddr v := h.confined hc v hv l hl (hlu hu)
  rw [h.cr3, ← userMap_at huser] at hl
  obtain ⟨-, honly, hfree, hlent⟩ := hf
  rcases h.keeps.mapped _ l hl with ⟨n, l', hl', hfr'⟩ | hfree' | hlent'
  · -- the frame was a user page already
    obtain ⟨ρ, hspace⟩ := h₀.space
    have hclean := hspace.clean n l' hl'
    unfold userMap at hl'
    split at hl'
    · rename_i hn
      rw [honly _ hn.lt l' hl' (hfr'.trans hfr)] at hclean
      cases hclean
    · cases hl'
  · exact hfree (hfr ▸ hfree')
  · exact hlent (hfr ▸ hlent')

end

/-- **Confinement over a run**: from a sound address space, in every run whose calls meet the conditions, every user leaf
stays in user space, and no call lets user mode reach a frame that was the kernel's alone. -/
theorem run_confined (held : Nat → Nat) (fb : Nat → Prop) (fbSize : Nat) (s0 : Mem) (calls : List MemCall)
    (h₀ : MemOk held fb fbSize s0) (hc : s0.Confined) (hmet : Run.Guarded Mem.step (Mem.Met fbSize) s0 calls) :
    Run.Guarded Mem.step
      (fun s c => (s.step c).Confined ∧ ∀ f, s.KernelOnly fb f → ¬ (s.step c).UserReaches f) s0 calls := by
  refine Run.guarded_imp (P := fun s => MemOk held fb fbSize s ∧ s.Confined) (fun s c hs hm => ?_) calls s0 ⟨h₀, hc⟩ hmet
  have hok := hs.1.step hm
  exact ⟨⟨hok.memOk hs.1, hok.confined hs.2⟩, hok.confined hs.2, fun f hf => hok.not_userReaches hs.1 hs.2 hf⟩

/-! ## An empty address space -/

def bareMem : Mem where
  vm :=
    { mem := fun _ _ => 0#64
      pmm :=
        { bits := fun f => decide (f < 2), refCounts := fun f => if f < 2 then 1 else 0, totalRam := 16 * PAGE_SIZE,
          usedRam := 2 * PAGE_SIZE, totalPages := 16, lastFreeIdx := 0 } }
  tasks := fun _ =>
    { state := .running, cr3 := 1, brk := USER_BASE, mmapBase := 0x700000000000, osAbi := 0, fdTable := fun _ => none,
      binderMmapBase := 0, binderMmapSize := 0, binderMmapOffset := 0, binderMmapKptr := 0 }
  taskCount := 1
  cur := 0
  fbVirt := 0xFFFFFFFFE0000000

theorem bareMem_leaf (v : Nat) : leafAt bareMem.vm.mem bareMem.cr3 v = none := leafFrom_zero (fun _ => rfl) 4

theorem bareMem_memOk : MemOk (fun _ => 0) (fun _ => False) 0 bareMem := by
  have hmap : ∀ n, userMap bareMem.vm.mem bareMem.cr3 n = none := fun n => by
    unfold userMap
    split
    · exact bareMem_leaf _
    · rfl
  refine ⟨⟨fun f => if f = 1 then some (.user []) else none, ⟨.inr rfl, by decide, rfl, fun f hf _ => ?_,
    fun t r i c _ _ hp _ => ?_⟩, ⟨fun n l hl => ?_, fun n l hl => ?_, fun n l hl => ?_, fun f _ h0 => ?_, fun f hf => ?_⟩,
    fun n l hl => ?_, ?_⟩, fun _ _ =>
      ⟨(by decide : USER_BASE ≤ 0x700000000000), (by decide : 0x700000000000 % PAGE_SIZE = 0)⟩,
    ⟨fun _ hf => hf.elim, fun a h1 h2 => ?_⟩, ?_⟩
  · by_cases h1 : f = 1
    · subst h1
      rfl
    · exact absurd (if_neg h1) hf
  · exact absurd hp (by decide : ¬ present 0#64 = true)
  · rw [hmap] at hl
    cases hl
  · rw [hmap] at hl
    cases hl
  · rw [hmap] at hl
    cases hl
  · cases h0
  · left
    rw [PageMap.uses_eq_zero fun n l hl => by rw [hmap] at hl; cases hl]
    exact Nat.zero_le _
  · rw [hmap] at hl
    cases hl
  · rintro f (hf | ⟨p, ⟨fd, node, obj, hnode, -⟩, -⟩)
    · exact hf.elim
    · cases hnode
  · omega
  · rintro p ⟨fd, node, obj, hnode, -⟩
    cases hnode

theorem bareMem_confined : bareMem.Confined := fun v _ l hl _ => by
  rw [bareMem_leaf] at hl
  cases hl

/-- The break grows, a mapping is made, protected, moved by growing it, and unmapped. -/
theorem run_confined_calls :
    Run.Guarded Mem.step (fun s c => (s.step c).Confined ∧ ∀ f, s.KernelOnly (fun _ => False) f → ¬ (s.step c).UserReaches f)
      bareMem [.brk 0x200001000, .mmap 0 4096 3 0x22 (-1) 0, .mprotect 0x700000000000 4096 1,
        .mremap 0x700000000000 4096 8192 1 0, .munmap 0x700000001000 8192] := by
  refine run_confined (fun _ => 0) (fun _ => False) 0 bareMem _ bareMem_memOk bareMem_confined ⟨fun _ => ?_, ?_, ?_,
    ?_, ?_, ?_⟩
  · decide
  · rintro ⟨hanon, -⟩
    cases hanon
  · trivial
  · intro _
    decide
  · trivial
  · trivial

/-- `sys_mremap(0x140000000, 4096, 8192, 0, NULL)`: nothing is mapped there, the growth in place is not checked against
`USER_BASE`, and a user page appears at 0x140001000. -/
theorem mremap_grows_outside :
    ¬ ∀ (held : Nat → Nat) (fb : Nat → Prop) (fbSize : Nat) (s0 : Mem) (calls : List MemCall), MemOk held fb fbSize s0 →
      s0.Confined → Run.Guarded Mem.step
        (fun s c => (s.step c).Confined ∧ ∀ f, s.KernelOnly fb f → ¬ (s.step c).UserReaches f) s0 calls := by
  intro hall
  obtain ⟨⟨hconf, -⟩, -⟩ := hall _ _ 0 bareMem [.mremap 0x140000000 4096 8192 0 0] bareMem_memOk bareMem_confined
  have hleaf : leafAt (bareMem.step (.mremap 0x140000000 4096 8192 0 0)).vm.mem
      (bareMem.step (.mremap 0x140000000 4096 8192 0 0)).cr3 0x140001000 = some ⟨2, true⟩ := by decide +kernel
  have hbase := (hconf 0x140001000 (by decide) _ hleaf rfl).1
  unfold USER_BASE at hbase
  omega

end EterOS.Syscall
