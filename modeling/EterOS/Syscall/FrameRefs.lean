import EterOS.Mm.FrameRefs
import EterOS.Syscall.Confine
/-!
# FrameRefs — the memory system calls keep one reference for each user leaf entry

Each page a call drops, makes, shares or moves keeps the books of all address spaces; the loops keep them by the loop
rule, so the calls do, by whichever task.  The code goes on where `hal_mem_map` finds no memory for a table, moves pages
over others when `sys_mremap` has mapped new ones, and gives the frames of a framebuffer back that it has not referenced:
`Careful` is the condition that none of these happens.
-/
namespace EterOS.Syscall

open Mm List

def ObjectHeld (held : Nat → Nat) (total : Nat) (obj : ShmObject) : Prop :=
  ∀ p ∈ obj.pages, p ≠ 0 → p % PAGE_SIZE = 0 ∧ p < 2 ^ 52 ∧ (p / PAGE_SIZE < total → 0 < held (p / PAGE_SIZE))

/-- The books of the address spaces `C` are in order, mappings grow upwards from user space, and the pages of shared
memory objects are held. -/
structure Sound (C : Set Nat) (kernel : Nat → Option Nat) (held : Nat → Nat) (s : Mem) : Prop where
  settled : Settled C kernel held s.vm
  bases : ∀ i, (s.tasks i).cr3 ∈ C → USER_BASE ≤ (s.tasks i).mmapBase ∧ (s.tasks i).mmapBase % PAGE_SIZE = 0
  shm : ∀ i fd node obj, (s.tasks i).fdTable fd = some node → node.impl = some obj →
    ObjectHeld held s.vm.pmm.totalPages obj

structure Good (C : Set Nat) (kernel : Nat → Option Nat) (held : Nat → Nat) (c : Nat) (s : Mem) : Prop
    extends Sound C kernel held s where
  cr3 : s.cr3 = c

structure Did (C : Set Nat) (kernel : Nat → Option Nat) (held : Nat → Nat) (c virt : Nat) (s s' : Mem) : Prop where
  good : Good C kernel held c s'
  only : OnlyPage c virt s.vm s'.vm

namespace Mem

/-- Where a frame is left for a page, there are enough for the tables on the way to it as well. -/
def Room (s : Mem) (virt : Nat) : Prop :=
  s.vm.pmm.clearPages = 0 ∨ tablesMissing s.vm.mem s.cr3 virt < s.vm.pmm.clearPages

def RoomForTables (s : Mem) (virt : Nat) : Prop := tablesMissing s.vm.mem s.cr3 virt ≤ s.vm.pmm.clearPages

/-- A page of the framebuffer is in a frame that is not the allocator's, or is a copy. -/
def FramebufferMet (offset start virt : Nat) (s : Mem) : Prop :=
  let addr := (s.fbVirt + (offset + (virt - start)) % 2 ^ 64) % 2 ^ 64
  let phys := s.vm.halMemGetPhys s.cr3 addr
  if phys ≠ 0 then s.vm.pmm.totalPages ≤ frameOf (BitVec.ofNat 64 phys)
  else if addr < 0x100000000 then s.vm.pmm.totalPages ≤ frameOf (BitVec.ofNat 64 addr)
  else s.Room virt

def PageMet (backing : Backing) (prot : BitVec 32) (offset start virt : Nat) (s : Mem) : Prop :=
  match backing with
  | .framebuffer => ∀ s', dropPage virt s = .next s' → s'.FramebufferMet offset start virt
  | .shm obj =>
    prot &&& obj.protMask = prot →
      if obj.pages.getD ((offset + (virt - start)) % 2 ^ 64 / PAGE_SIZE % 2 ^ 32) 0 ≠ 0 then s.RoomForTables virt
      else s.Room virt
  | .binder | .properties | .file _ => s.Room virt

def MmapMet (s : Mem) (addr len : Nat) (prot flags : BitVec 32) (fd : Int) (offset : Nat) : Prop :=
  ∀ flags' s' virt backing, s.mmapFlags flags fd = some flags' → s.mmapPlace addr len flags' = .ok (s', virt) →
    s'.mmapBacking flags' (if halHas flags' MAP_ANONYMOUS then -1 else fd) = .ok backing →
    Flow.Along (PageMet backing prot offset (pageAlignDown virt))
      (mmapPage backing prot len offset virt (pageAlignDown virt))
      (pagesOf (pageAlignDown virt) (pageAlignUp ((virt + len) % 2 ^ 64))) s'

def brkPage (virt : Nat) (s : Mem) : Exec :=
  if s.vm.halMemGetPhys s.cr3 virt = 0 then
    freshPage (fun s => .ret s (-ENOMEM)) virt (HAL_MEM_READ ||| HAL_MEM_WRITE ||| HAL_MEM_USER) s
  else .next s

/-- The condition for `sys_brk`: it grows from a break in user space, and has room at each page that is new. -/
def BrkMet (s : Mem) (brk : Nat) : Prop :=
  s.current.brk ≤ brk → brk ≤ USER_LIMIT →
    (pageAlignUp s.current.brk < pageAlignUp brk → USER_BASE ≤ pageAlignUp s.current.brk) ∧
    Flow.Along (fun virt s => s.vm.halMemGetPhys s.cr3 virt = 0 → s.Room virt) brkPage
      (pagesOf (pageAlignUp s.current.brk) (pageAlignUp brk)) s

def MoveMet (s : Mem) (oldStart newStart oldLen : Nat) : Prop :=
  Flow.Along (fun i s => s.vm.halMemGetPhys s.cr3 (oldStart + i) ≠ 0 → s.RoomForTables (newStart + i))
    (movePage oldStart newStart) (pagesOf 0 oldLen) s

/-- The condition for a growth of `sys_mremap`: the range it reads or grows by is in user space, there is room at each
page, and after a mapping it has made itself there is nothing to move. -/
def MremapMet (s : Mem) (oldStart oldSize newSize : Nat) (flags : BitVec 32) (newStart : Nat) : Prop :=
  let oldLen := pageAlignUp oldSize
  let newLen := pageAlignUp newSize
  oldLen < newLen → (USER_BASE ≤ oldStart ∧ oldStart + (if halHas flags MREMAP_MAYMOVE then oldLen else newLen) ≤
    USER_LIMIT + 1) ∧
    if ¬ halHas flags MREMAP_MAYMOVE then
      Flow.Along (fun virt s => s.Room virt)
        (freshPage (fun s => .ret s (-ENOMEM)) · (HAL_MEM_USER ||| HAL_MEM_READ ||| HAL_MEM_WRITE))
        (pagesOf (oldStart + oldLen) ((oldStart + newLen) % 2 ^ 64)) s
    else if halHas flags MREMAP_FIXED then
      ∀ s' r, s.munmap newStart newLen = .ret s' r → 0 ≤ r → s'.MoveMet oldStart newStart oldLen
    else
      s.MmapMet 0 newLen 0x3#32 (MAP_PRIVATE ||| MAP_ANONYMOUS) (-1) 0 ∧
      ∀ s' r, s.sysMmap 0 (UInt64.ofNat newLen) 0x3#32 (MAP_PRIVATE ||| MAP_ANONYMOUS) (-1) 0 = .ret s' r → 0 ≤ r →
        ∀ i ∈ pagesOf 0 oldLen, s'.vm.halMemGetPhys s'.cr3 (oldStart + i) = 0

def Careful (s : Mem) : MemCall → Prop
  | .mmap addr len prot flags fd offset => s.MmapMet addr.toNat len.toNat prot flags fd offset.toNat
  | .brk brk => s.BrkMet brk.toNat
  | .mremap oldAddr oldSize newSize flags newAddr =>
    s.MremapMet oldAddr.toNat oldSize.toNat newSize.toNat flags newAddr.toNat
  | .munmap _ _ | .mprotect _ _ _ => True

end Mem

section
variable {C : Set Nat} {kernel : Nat → Option Nat} {held : Nat → Nat} {c virt : Nat} {s s' : Mem} {flags : BitVec 32}

theorem Good.vm (h : Good C kernel held c s) {vm : Vm} (hs : Settled C kernel held vm)
    (ht : vm.pmm.totalPages = s.vm.pmm.totalPages) : Good C kernel held c { s with vm := vm } := by
  refine ⟨⟨hs, h.bases, fun i fd node obj hfd himpl => ?_⟩, h.cr3⟩
  rw [show vm.pmm.totalPages = s.vm.pmm.totalPages from ht]
  exact h.shm i fd node obj hfd himpl

theorem Good.modTask (h : Good C kernel held c s) (i : Nat) {g : MemTask → MemTask} (hcr3 : ∀ t, (g t).cr3 = t.cr3)
    (hfds : ∀ t, (g t).fdTable = t.fdTable) (hbase : ∀ t, (g t).mmapBase = t.mmapBase) :
    Good C kernel held c (s.modTask i g) := by
  have hsame : ∀ j, ((s.modTask i g).tasks j).cr3 = (s.tasks j).cr3 ∧
    ((s.modTask i g).tasks j).fdTable = (s.tasks j).fdTable ∧
      ((s.modTask i g).tasks j).mmapBase = (s.tasks j).mmapBase := fun j => by
    unfold Mem.modTask
    by_cases hj : j = i
    · subst hj
      simp [hcr3, hfds, hbase]
    · simp [hj]
  refine ⟨⟨h.settled, fun j hj => ?_, fun j fd node obj h1 => ?_⟩, (hsame s.cur).1.trans h.cr3⟩
  · rw [(hsame j).2.2]
    exact h.bases j ((hsame j).1 ▸ hj)
  · exact h.shm j fd node obj ((hsame j).2.1 ▸ h1)

theorem Did.refl (h : Good C kernel held c s) : Did C kernel held c virt s s := ⟨h, rfl, fun _ _ _ => rfl⟩

variable {s1 : Mem}

theorem Did.trans (h : Did C kernel held c virt s s1) (h' : Did C kernel held c virt s1 s') :
    Did C kernel held c virt s s' := ⟨h'.good, h.only.trans h'.only⟩

def PagePost (C : Set Nat) (kernel : Nat → Option Nat) (held : Nat → Nat) (c virt : Nat) (s : Mem) (f : Exec) : Prop :=
  f.Post (Did C kernel held c virt s) fun s' _ => Good C kernel held c s'

theorem PagePost.from {f : Exec} (h : Did C kernel held c virt s s1) (h' : PagePost C kernel held c virt s1 f) :
    PagePost C kernel held c virt s f := Flow.Post.mono h' (fun _ hs => h.trans hs) fun _ _ hs => hs

/-! ## The pages -/

theorem fillPage_did (h : Good C kernel held c s) (hc : c ∈ C) (hv : userAddr virt) (words : Nat → BitVec 64) :
    PagePost C kernel held c virt s (s.fillPage virt words) := by
  have hlow : ¬ (2 ^ 47 ≤ virt ∧ virt < 2 ^ 64 - 2 ^ 47) := fun hcon => by
    have := hv.2
    unfold USER_LIMIT at this
    omega
  unfold Mem.fillPage
  rw [if_neg hlow, h.cr3]
  split
  · rw [Mem.kernelFault, if_pos (show USER_BASE ≤ virt ∧ virt ≤ USER_LIMIT from hv)]
    exact h
  · rename_i a ha
    obtain ⟨hs, hleaf⟩ := h.settled.fill hc hv ha words
    exact ⟨h.vm hs rfl, rfl, fun v _ _ => hleaf v⟩

theorem allocPage_did (h : Good C kernel held c s) (hc : c ∈ C) (hv : userAddr virt)
    (hl : leafAt s.vm.mem c virt = none) (hroom : s.Room virt) (flags : BitVec 32) :
    (∃ vm, s.vm.allocPage = (vm, none) ∧ Did C kernel held c virt s { s with vm := vm }) ∨
    ∃ vm p, s.vm.allocPage = (vm, some p) ∧
    Did C kernel held c virt s (Mem.mapAt { s with vm := vm } (addrOf p) virt flags) := by
  have hzero : s.vm.pmm.totalPages = 0 ∨ s.vm.pmm.bits 0 = true := by
    obtain ⟨ρ, hrefs⟩ := h.settled
    exact (hrefs.tables c hc).zero
  unfold Mem.Room at hroom
  rw [h.cr3] at hroom
  obtain ⟨vm, heq, hm, ht⟩ | ⟨vm, p, heq, hm, -, ht⟩ := allocPage_took hzero
  · left
    exact ⟨vm, heq, h.vm (h.settled.exhausted hc hm ht) ht.total, ht.total, fun v _ _ => by rw [hm]⟩
  · right
    have hclear := ht.clearPages
    obtain ⟨hs, honly⟩ := h.settled.fresh hc hv hl hm ht (by omega) flags
    have hcr3 : Mem.cr3 { s with vm := vm } = c := h.cr3
    refine ⟨vm, p, heq, ?_⟩
    unfold Mem.mapAt
    rw [hcr3]
    exact ⟨h.vm hs honly.total, honly⟩

theorem freshPage_did (h : Good C kernel held c s) (hc : c ∈ C) (hv : userAddr virt)
    (hl : leafAt s.vm.mem c virt = none) (hroom : s.Room virt) {onFail : Mem → Exec}
    (hfail : ∀ s1, Did C kernel held c virt s s1 → PagePost C kernel held c virt s (onFail s1)) :
    PagePost C kernel held c virt s (Mem.freshPage onFail virt flags s) := by
  unfold Mem.freshPage
  obtain ⟨vm, heq, hdid⟩ | ⟨vm, p, heq, hdid⟩ := allocPage_did h hc hv hl hroom flags
  · rw [heq]
    exact hfail _ hdid
  · rw [heq]
    exact (fillPage_did hdid.good hc hv _).from hdid

theorem enomem_did (h : Did C kernel held c virt s s1) : PagePost C kernel held c virt s (.ret s1 (-ENOMEM)) := h.good

theorem Good.phys (h : Good C kernel held c s) (hc : c ∈ C) (hv : userAddr virt) (ha : virt % PAGE_SIZE = 0) :
    leafAt s.vm.mem c virt = none ∧ s.vm.halMemGetPhys c virt = 0 ∨
    ∃ l, leafAt s.vm.mem c virt = some l ∧ s.vm.halMemGetPhys c virt = l.frame * PAGE_SIZE ∧
      s.vm.halMemGetPhys c virt ≠ 0 ∧ frameOf (BitVec.ofNat 64 (l.frame * PAGE_SIZE)) = l.frame := by
  obtain ⟨ρ, hrefs⟩ := h.settled
  obtain h0 | ⟨l, hl, hlt, hphys⟩ := (hrefs.tables c hc).getPhys hv
  · exact .inl h0
  · right
    rw [ha, Nat.add_zero] at hphys
    refine ⟨l, hl, hphys, ?_, frameOf_addrOf hlt⟩
    -- no page leads to frame 0, which is the kernel's
    have hne : l.frame ≠ 0 := fun h0 => by
      obtain ⟨e, he⟩ := hrefs.leaf hc hv hl
      rw [h0] at he
      exact hrefs.zero ((hrefs.data e 0 he).2 hrefs.pages)
    rw [hphys]
    exact Nat.mul_ne_zero hne (by decide)

/-- **A page dropped**: nothing is mapped there any more, and the room for its tables is as it was. -/
theorem dropPage_did (h : Good C kernel held c s) (hc : c ∈ C) (hv : userAddr virt) (ha : virt % PAGE_SIZE = 0) :
    (Mem.dropPage virt s).Post (fun s' => Did C kernel held c virt s s' ∧ leafAt s'.vm.mem c virt = none ∧
      (s.Room virt → s'.Room virt) ∧ (s.RoomForTables virt → s'.RoomForTables virt)) fun _ _ => False := by
  unfold Mem.dropPage
  dsimp only
  rw [h.cr3]
  obtain ⟨hl, h0⟩ | ⟨l, hl, hphys, hne, -⟩ := h.phys hc hv ha
  · rw [if_pos h0]
    exact ⟨.refl h, hl, id, id⟩
  · rw [if_neg hne, hphys]
    split
    · trivial
    · rename_i pmm hok
      obtain ⟨hs, honly, hnone, hmissing⟩ := h.settled.drop hc hv hl hok
      have hcr3 : Mem.cr3 { s with vm := Vm.vmmUnmapPage { s.vm with pmm := pmm } c virt } = c := h.cr3
      refine ⟨⟨h.vm hs honly.total, honly⟩, hnone, fun _ => ?_, fun _ => ?_⟩
      · unfold Mem.Room
        rw [hcr3]
        dsimp only
        rw [hmissing]
        omega
      · unfold Mem.RoomForTables
        rw [hcr3]
        dsimp only
        rw [hmissing]
        exact Nat.zero_le _

variable {offset start : Nat}

theorem mapFramebuffer_did (h : Good C kernel held c s) (hc : c ∈ C) (hv : userAddr virt)
    (hl : leafAt s.vm.mem c virt = none) (hmet : s.FramebufferMet offset start virt) :
    PagePost C kernel held c virt s (Mem.mapFramebuffer offset start virt flags s) := by
  unfold Mem.FramebufferMet at hmet
  unfold Mem.mapFramebuffer
  dsimp only at hmet ⊢
  generalize (s.fbVirt + (offset + (virt - start)) % 2 ^ 64) % 2 ^ 64 = addr at hmet ⊢
  have hmap : ∀ (phys : BitVec 64) (flags : BitVec 32), s.vm.pmm.totalPages ≤ frameOf phys →
      PagePost C kernel held c virt s (.next (s.mapAt phys virt flags)) := fun phys flags hout => by
    obtain ⟨hs, honly⟩ := h.settled.borrow hc hv hl hout flags
    unfold Mem.mapAt
    rw [h.cr3]
    exact ⟨h.vm hs honly.total, honly⟩
  split
  · rename_i hne
    rw [if_pos hne] at hmet
    exact hmap _ _ hmet
  rename_i hphys
  rw [if_neg hphys] at hmet
  split
  · rename_i hlow
    rw [if_pos hlow] at hmet
    exact hmap _ _ hmet
  rename_i hlow
  rw [if_neg hlow] at hmet
  -- a copy is a new page
  obtain ⟨vm, heq, hdid⟩ | ⟨vm, p, heq, hdid⟩ := allocPage_did h hc hv hl hmet flags
  · rw [heq]
    exact hdid
  · rw [heq]
    dsimp only
    split
    · unfold Mem.kernelFault
      split
      · exact hdid.good
      · trivial
    · exact (fillPage_did hdid.good hc hv _).from hdid

variable {prot : BitVec 32}

theorem mapShm_did {obj : ShmObject} (h : Good C kernel held c s) (hc : c ∈ C)
    (hv : userAddr virt) (hl : leafAt s.vm.mem c virt = none) (hmet : s.PageMet (.shm obj) prot offset start virt)
    (hobj : ObjectHeld held s.vm.pmm.totalPages obj) :
    PagePost C kernel held c virt s (Mem.mapShm obj prot offset start virt flags s) := by
  unfold Mem.mapShm
  split
  · exact h
  rename_i hprot
  have hmet := hmet (not_not.1 hprot)
  dsimp only
  generalize (offset + (virt - start)) % 2 ^ 64 / PAGE_SIZE % 2 ^ 32 = idx at hmet ⊢
  split
  · rename_i hne
    rw [if_pos hne] at hmet
    have hmem : obj.pages.getD idx 0 ∈ obj.pages := by
      rw [getD_eq_getElem?_getD] at hne ⊢
      cases hget : obj.pages[idx]? with
      | none => simp [hget] at hne
      | some p => simpa [hget] using mem_of_getElem? hget
    generalize obj.pages.getD idx 0 = p at hne hmem ⊢
    obtain ⟨hal, h52, hheld⟩ := hobj p hmem hne
    split
    · trivial
    · rename_i pmm hok
      rw [← Nat.div_mul_cancel (Nat.dvd_of_mod_eq_zero hal)] at hok
      unfold Mem.RoomForTables at hmet
      rw [h.cr3] at hmet
      obtain ⟨hs, honly⟩ := h.settled.share hc hv hl hok (frameOf_ofNat h52) hheld hmet flags
      have hcr3 : Mem.cr3 { s with vm := { s.vm with pmm := pmm } } = c := h.cr3
      unfold Mem.mapAt
      rw [hcr3]
      exact ⟨h.vm hs honly.total, honly⟩
  · rename_i hzero
    rw [if_neg hzero] at hmet
    exact freshPage_did h hc hv hl hmet fun s1 hs => hs

theorem mapFile_did {node : Option FsNode} (h : Good C kernel held c s) (hc : c ∈ C)
    (hv : userAddr virt) (hl : leafAt s.vm.mem c virt = none) (hroom : s.Room virt) :
    PagePost C kernel held c virt s (Mem.mapFile node offset start virt flags s) := by
  unfold Mem.mapFile
  refine Flow.Post.andThen (freshPage_did h hc hv hl hroom fun s1 hs => enomem_did hs) fun s1 hs => ?_
  cases node with
  | none => exact hs
  | some node =>
    dsimp only
    split
    · exact (fillPage_did hs.good hc hv _).from hs
    · exact hs

variable {len : Nat}

theorem mmapPage_did {backing : Mem.Backing} {base : Nat}
    (h : Good C kernel held c s) (hc : c ∈ C) (hv : userAddr virt) (ha : virt % PAGE_SIZE = 0)
    (hmet : s.PageMet backing prot offset start virt)
    (hobj : ∀ obj, backing = .shm obj → ObjectHeld held s.vm.pmm.totalPages obj) :
    PagePost C kernel held c virt s (Mem.mmapPage backing prot len offset base start virt s) := by
  unfold Mem.mmapPage
  dsimp only
  cases hdrop : Mem.dropPage virt s with
  | halt => trivial
  | ret s1 r =>
    have hpost := dropPage_did h hc hv ha
    rw [hdrop] at hpost
    exact hpost.elim
  | stop s1 =>
    have hpost := dropPage_did h hc hv ha
    rw [hdrop] at hpost
    exact hpost.elim
  | next s1 =>
    obtain ⟨hdid, hl, hroom, htables⟩ : Did C kernel held c virt s s1 ∧ leafAt s1.vm.mem c virt = none ∧
        (s.Room virt → s1.Room virt) ∧ (s.RoomForTables virt → s1.RoomForTables virt) := by
      have hpost := dropPage_did h hc hv ha
      rw [hdrop] at hpost
      exact hpost
    have hfresh : s.Room virt → PagePost C kernel held c virt s1
        (Mem.freshPage (fun s => .ret s (-ENOMEM)) virt (Mem.userFlags prot) s1) := fun hmet =>
      freshPage_did hdid.good hc hv hl (hroom hmet) fun s2 hs => enomem_did hs
    refine PagePost.from hdid ?_
    dsimp only [Flow.andThen]
    cases backing with
    | framebuffer => exact mapFramebuffer_did hdid.good hc hv hl (hmet s1 hdrop)
    | shm obj =>
      refine mapShm_did hdid.good hc hv hl (fun hprot => ?_) (by rw [hdid.only.total]; exact hobj obj rfl)
      have hmet := hmet hprot
      split
      · rename_i hne
        rw [if_pos hne] at hmet
        exact htables hmet
      · rename_i hne
        rw [if_neg hne] at hmet
        exact hroom hmet
    | binder =>
      refine Flow.Post.andThen (hfresh hmet) fun s2 hs => ?_
      split
      · exact ⟨hs.good.modTask _ (fun _ => rfl) (fun _ => rfl) fun _ => rfl, hs.only⟩
      · exact hs
    | properties =>
      refine Flow.Post.andThen (hfresh hmet) fun s2 hs => ?_
      split
      · exact (fillPage_did hs.good hc hv _).from hs
      · exact hs
    | file node => exact mapFile_did hdid.good hc hv hl (hroom hmet)

/-! ## The calls -/

def CallPost (C : Set Nat) (kernel : Nat → Option Nat) (held : Nat → Nat) (c : Nat) (f : Exec) : Prop :=
  f.Post (Good C kernel held c) fun s _ => Good C kernel held c s

theorem Good.setBase (h : Good C kernel held c s) {base : Nat} (hb : USER_BASE ≤ base ∧ base % PAGE_SIZE = 0) :
    Good C kernel held c (s.setBase base) := by
  have hsame : ∀ i, ((s.setBase base).tasks i).cr3 = (s.tasks i).cr3 ∧
      ((s.setBase base).tasks i).fdTable = (s.tasks i).fdTable := fun i => by
    unfold Mem.setBase
    dsimp only
    split <;> exact ⟨rfl, rfl⟩
  refine ⟨⟨h.settled, fun i hi => ?_, fun i fd node obj h1 => ?_⟩, (hsame s.cur).1.trans h.cr3⟩
  · have hi' : (s.tasks i).cr3 ∈ C := (hsame i).1 ▸ hi
    unfold Mem.setBase
    dsimp only
    split
    · exact hb
    · exact h.bases i hi'
  · exact h.shm i fd node obj ((hsame i).2 ▸ h1)

theorem mmapBacking_shm {fd : Int} {obj : ShmObject} (h : s.mmapBacking flags fd = .ok (.shm obj)) :
    ∃ i fd node, (s.tasks i).fdTable fd = some node ∧ node.impl = some obj := by
  unfold Mem.mmapBacking at h
  split at h
  · cases h
  split at h
  · cases h
  split at h
  · cases h
  rename_i node hnode
  refine ⟨s.cur, fd.toNat, node, hnode, ?_⟩
  unfold Mem.backingOf at h
  split at h
  · split at h
    · rename_i obj' himpl
      cases h
      exact himpl
    · cases h
  · split at h
    · cases h
    split at h
    · cases h
    split at h
    · cases h
    · cases h

/-- **`sys_mmap`**: the books are in order, and what it returns is where the mapping is. -/
theorem sysMmap_counted {addr len : UInt64} {fd : Int} {offset : UInt64}
    (h : Good C kernel held c s) (hc : c ∈ C) (hmet : s.MmapMet addr.toNat len.toNat prot flags fd offset.toNat) :
    (s.sysMmap addr len prot flags fd offset).Post (fun _ => False) fun s _ => Good C kernel held c s := by
  unfold Mem.sysMmap
  dsimp only
  split
  · exact h
  split
  · exact h
  rename_i flags' hfl
  split
  · exact h
  rename_i s1 virt hplace
  have hbases : s.Bases := fun i hi => h.bases i (by rw [hi, h.cr3]; exact hc)
  obtain ⟨hp, hs1⟩ := mmapPlace_spec hbases addr.toNat_lt len.toNat_lt hplace
  have h₁ : Good C kernel held c s1 := by
    rcases hs1 with rfl | ⟨base, rfl, hb⟩
    · exact h
    · exact h.setBase hb
  have hdown : Mem.pageAlignDown virt = virt := by
    have := hp.aligned
    unfold Mem.pageAlignDown PAGE_SIZE at *
    omega
  split
  · exact h₁
  split
  · exact h₁
  rename_i backing hback
  have halong := hmet flags' s1 virt backing hfl hplace hback
  rw [hp.stop, hdown] at halong ⊢
  have hobj : ∀ obj, backing = .shm obj → ObjectHeld held s1.vm.pmm.totalPages obj := fun obj hobj => by
    subst hobj
    obtain ⟨i, fd, node, hfd, himpl⟩ := mmapBacking_shm hback
    exact h₁.shm i fd node obj hfd himpl
  refine Flow.Post.andThen (P := fun s => Good C kernel held c s ∧ s.vm.pmm.totalPages = s1.vm.pmm.totalPages) ?_
    fun s hs => hs.1
  refine Flow.Post.along (P := fun _ s => Good C kernel held c s ∧ s.vm.pmm.totalPages = s1.vm.pmm.totalPages) _ _
    ⟨h₁, rfl⟩ halong fun v hv rest s hs hmet => ?_
  obtain ⟨hal, hge, hlt⟩ := mem_pagesOf hp.aligned hv
  refine Flow.Post.mono (mmapPage_did hs.1 hc (userAddr_of_range hp.base hp.limit hge hlt) hal hmet ?_)
    (fun s' hs' => ⟨hs'.good, hs'.only.total.trans hs.2⟩) fun _ _ hs' => hs'
  rw [hs.2]
  exact hobj

def Unmapped (c : Nat) (pages : List Nat) (s : Mem) : Prop := ∀ v ∈ pages, leafAt s.vm.mem c v = none

theorem page_ne {v v' : Nat} (h : v % PAGE_SIZE = 0) (h' : v' % PAGE_SIZE = 0) (hne : v ≠ v') :
    v / PAGE_SIZE ≠ v' / PAGE_SIZE := by
  unfold PAGE_SIZE at *
  omega

/-- **`sys_munmap`**: where it succeeds, nothing is left in the range. -/
theorem munmap_counted {addr : Nat} (h : Good C kernel held c s) (hc : c ∈ C) :
    (s.munmap addr len).Post (fun _ => False) fun s r => Good C kernel held c s ∧ ∀ n, r = some n → 0 ≤ n →
      ∃ start stop, Mem.userRange addr len = some (start, stop) ∧ Unmapped c (Mem.pagesOf start stop) s := by
  have herr : ∀ s (r : Option Int), Good C kernel held c s → (∀ n, r = some n → n < 0) → Good C kernel held c s ∧
      ∀ n, r = some n → 0 ≤ n → ∃ start stop, Mem.userRange addr len = some (start, stop) ∧
        Unmapped c (Mem.pagesOf start stop) s := fun s r hs hneg =>
    ⟨hs, fun n hn h0 => absurd (hneg n hn) (by omega)⟩
  unfold Mem.munmap
  split
  · exact herr s (some (-EINVAL)) h fun n hn => by cases hn; decide
  rename_i hal
  split
  · exact herr s (some (-EINVAL)) h fun n hn => by cases hn; decide
  split
  · exact herr s (some (-EINVAL)) h fun n hn => by cases hn; decide
  rename_i start stop hrange
  obtain ⟨rfl, hbase, hlimit, -, -⟩ := userRange_spec hrange
  have hal : start % PAGE_SIZE = 0 := by simpa using hal
  -- a page that was dropped stays so
  refine Flow.Post.andThen (P := fun s => Good C kernel held c s ∧ Unmapped c (Mem.pagesOf start stop) s) ?_
    fun s hs => ?_
  · refine Flow.Post.mono (P := fun s => Good C kernel held c s ∧ ∀ v ∈ Mem.pagesOf start stop, v ∉ ([] : List Nat) →
      leafAt s.vm.mem c v = none) ?_ (fun s hs => ⟨hs.1, fun v hv => hs.2 v hv not_mem_nil⟩)
        fun _ _ (hs : False) => hs.elim
    refine Flow.Post.along (P := fun rest s => Good C kernel held c s ∧ ∀ v ∈ Mem.pagesOf start stop, v ∉ rest →
      leafAt s.vm.mem c v = none) _ _ ⟨h, fun v hv hn => absurd hv hn⟩ (Flow.along_true _ _) fun v hv rest s hs _ => ?_
    obtain ⟨hva, hge, hlt⟩ := mem_pagesOf hal hv
    refine Flow.Post.mono (dropPage_did hs.1 hc (userAddr_of_range hbase hlimit hge hlt) hva) (fun s' hs' => ?_)
      fun _ _ hs' => hs'
    refine ⟨hs'.1.good, fun v' hv' hn => ?_⟩
    by_cases hvv : v' = v
    · rw [hvv]
      exact hs'.2.1
    · obtain ⟨hva', hge', hlt'⟩ := mem_pagesOf hal hv'
      rw [hs'.1.only.other v' (userAddr_of_range hbase hlimit hge' hlt').lt (page_ne hva' hva hvv)]
      exact hs.2 v' hv' (by simp [hvv, hn])
  · split
    · exact ⟨hs.1.modTask _ (fun _ => rfl) (fun _ => rfl) fun _ => rfl, fun _ _ _ => ⟨start, stop, hrange, hs.2⟩⟩
    · exact ⟨hs.1, fun _ _ _ => ⟨start, stop, hrange, hs.2⟩⟩

theorem sysMprotect_counted {addr len : UInt64} (h : Good C kernel held c s) (hc : c ∈ C) :
    CallPost C kernel held c (s.sysMprotect addr len prot) := by
  unfold Mem.sysMprotect
  refine Flow.Post.ite (fun _ => h) fun hal => ?_
  refine Flow.Post.ite (fun _ => h) fun _ => ?_
  refine Flow.Post.ite (fun _ => h) fun _ => ?_
  split
  · exact h
  rename_i start stop hrange
  obtain ⟨rfl, hbase, hlimit, -, -⟩ := userRange_spec hrange
  have hal : addr.toNat % PAGE_SIZE = 0 := by simpa using hal
  refine Flow.Post.andThen (P := Good C kernel held c) (Flow.Post.each _ _ h fun v hv s hs => ?_) fun s hs => hs
  obtain ⟨hva, hge, hlt⟩ := mem_pagesOf hal hv
  have huser := userAddr_of_range hbase hlimit hge hlt
  dsimp only
  rw [hs.cr3]
  obtain ⟨-, h0⟩ | ⟨l, hl, hphys, hne, hfr⟩ := hs.phys hc huser hva
  · rw [if_neg (by simp [h0])]
    exact hs
  · rw [if_pos hne, hphys]
    obtain ⟨hset, honly⟩ := hs.settled.remap hc huser hl hfr (Mem.userFlags prot)
    unfold Mem.mapAt
    rw [hs.cr3]
    exact hs.vm hset honly.total

theorem sysBrk_counted {brk : UInt64} (h : Good C kernel held c s) (hc : c ∈ C) (hmet : s.BrkMet brk.toNat) :
    CallPost C kernel held c (s.sysBrk brk) := by
  unfold Mem.sysBrk
  dsimp only
  refine Flow.Post.ite (fun _ => h) fun _ => ?_
  refine Flow.Post.ite (fun _ => h) fun hlim => ?_
  refine Flow.Post.ite (fun _ => h.modTask _ (fun _ => rfl) (fun _ => rfl) fun _ => rfl) fun hge => ?_
  refine Flow.Post.ite (fun _ => h) fun _ => ?_
  obtain ⟨hbase, halong⟩ := hmet (by omega) (by omega)
  refine Flow.Post.andThen (P := Good C kernel held c) ?_ fun s hs => hs.modTask _ (fun _ => rfl) (fun _ => rfl) fun _ => rfl
  refine Flow.Post.along (P := fun _ s => Good C kernel held c s) _ _ h halong fun v hv rest s' hs' hroom => ?_
  have hal : Mem.pageAlignUp s.current.brk % PAGE_SIZE = 0 := Nat.mul_mod_left _ _
  obtain ⟨hva, hvge, hvlt⟩ := mem_pagesOf hal hv
  have hstop : Mem.pageAlignUp brk.toNat ≤ USER_LIMIT + 1 := by
    unfold USER_LIMIT at hlim ⊢
    unfold Mem.pageAlignUp PAGE_SIZE
    omega
  have huser := userAddr_of_range (hbase (by omega)) hstop hvge hvlt
  refine Flow.Post.ite (fun h0 => ?_) fun _ => hs'
  have hroom := hroom h0
  rw [hs'.cr3] at h0
  obtain ⟨hl, -⟩ | ⟨l, -, -, hne, -⟩ := hs'.phys hc huser hva
  · exact Flow.Post.mono (freshPage_did hs' hc huser hl hroom fun s hs => enomem_did hs) (fun _ hs => hs.good)
      fun _ _ hs => hs
  · exact absurd h0 hne

/-! ## sys_mremap -/

theorem pagesOf_nodup (start stop : Nat) : (Mem.pagesOf start stop).Nodup := by
  unfold Mem.pagesOf
  refine List.Nodup.map (fun a b hab => ?_) nodup_range
  unfold PAGE_SIZE at hab
  omega

theorem pagesOf_zero {stop i : Nat} (hi : i ∈ Mem.pagesOf 0 len) (hle : start + len ≤ stop) :
    start + i ∈ Mem.pagesOf start stop := by
  obtain ⟨k, hk, rfl⟩ := mem_map.mp hi
  have hk := mem_range.mp hk
  refine mem_map.mpr ⟨k, mem_range.mpr ?_, by omega⟩
  unfold PAGE_SIZE at *
  omega

theorem freshPages_counted {stop : Nat} (h : Good C kernel held c s) (hc : c ∈ C) (hal : start % PAGE_SIZE = 0)
    (hbase : USER_BASE ≤ start) (hlimit : stop ≤ USER_LIMIT + 1) (hnone : Unmapped c (Mem.pagesOf start stop) s)
    (halong : Flow.Along (fun virt s => Mem.Room s virt) (Mem.freshPage (fun s => .ret s (-ENOMEM)) · flags)
      (Mem.pagesOf start stop) s) :
    CallPost C kernel held c (Flow.each (Mem.freshPage (fun s => .ret s (-ENOMEM)) · flags) (Mem.pagesOf start stop) s) := by
  have hrange : ∀ v ∈ Mem.pagesOf start stop, v % PAGE_SIZE = 0 ∧ userAddr v := fun v hv => by
    obtain ⟨hva, hge, hlt⟩ := mem_pagesOf hal hv
    exact ⟨hva, userAddr_of_range hbase hlimit hge hlt⟩
  refine Flow.Post.mono (P := fun s => Good C kernel held c s ∧ ([] : List Nat).Nodup ∧
    ∀ v ∈ ([] : List Nat), (v % PAGE_SIZE = 0 ∧ userAddr v) ∧ leafAt s.vm.mem c v = none) ?_ (fun s hs => hs.1)
    fun _ _ hs => hs
  refine Flow.Post.along (P := fun rest s => Good C kernel held c s ∧ rest.Nodup ∧
    ∀ v ∈ rest, (v % PAGE_SIZE = 0 ∧ userAddr v) ∧ leafAt s.vm.mem c v = none) _ _
    ⟨h, pagesOf_nodup _ _, fun v hv => ⟨hrange v hv, hnone v hv⟩⟩ halong fun v _ rest s' hs' hroom => ?_
  obtain ⟨hgood, hnodup, hrest⟩ := hs'
  obtain ⟨⟨hva, huser⟩, hl⟩ := hrest v mem_cons_self
  refine Flow.Post.mono (freshPage_did hgood hc huser hl hroom fun s hs => enomem_did hs) (fun s1 hs1 => ?_) fun _ _ hs => hs
  refine ⟨hs1.good, hnodup.of_cons, fun v' hv' => ?_⟩
  obtain ⟨hpage, hl'⟩ := hrest v' (mem_cons_of_mem v hv')
  refine ⟨hpage, ?_⟩
  have hne : v' ≠ v := by
    rintro rfl
    exact (nodup_cons.mp hnodup).1 hv'
  rw [hs1.only.other v' hpage.2.lt (page_ne hpage.1 hva hne), hl']

variable {oldLen oldStart : Nat}

theorem growInPlace_counted {newLen : Nat} (h : Good C kernel held c s) (hc : c ∈ C)
    (hal : oldStart % PAGE_SIZE = 0) (hlen : oldLen % PAGE_SIZE = 0)
    (hrange : USER_BASE ≤ oldStart ∧ oldStart + newLen ≤ USER_LIMIT + 1)
    (halong : Flow.Along (fun virt s => Mem.Room s virt)
      (Mem.freshPage (fun s => .ret s (-ENOMEM)) · (HAL_MEM_USER ||| HAL_MEM_READ ||| HAL_MEM_WRITE))
      (Mem.pagesOf (oldStart + oldLen) ((oldStart + newLen) % 2 ^ 64)) s) :
    CallPost C kernel held c (s.growInPlace oldStart oldLen newLen) := by
  have hmod : (oldStart + newLen) % 2 ^ 64 = oldStart + newLen := by
    have := hrange.2
    unfold USER_LIMIT at this
    exact Nat.mod_eq_of_lt (by omega)
  have hsum : (oldStart + oldLen) % PAGE_SIZE = 0 := by
    rw [Nat.add_mod, hal, hlen]
    rfl
  rw [hmod] at halong
  unfold Mem.growInPlace
  dsimp only
  rw [hmod]
  have hbase : USER_BASE ≤ oldStart + oldLen := by omega
  refine Flow.Post.andThen (P := fun s' => s' = s ∧ Unmapped c (Mem.pagesOf (oldStart + oldLen) (oldStart + newLen)) s)
    ?_ fun s' hs' => ?_
  · -- every page that was looked at is free
    refine Flow.Post.mono (P := fun s' => s' = s ∧ ∀ v ∈ Mem.pagesOf (oldStart + oldLen) (oldStart + newLen),
      v ∉ ([] : List Nat) → leafAt s.vm.mem c v = none) ?_ (fun s' hs' => ⟨hs'.1, fun v hv => hs'.2 v hv not_mem_nil⟩)
      fun _ _ hs => hs
    refine Flow.Post.along (P := fun rest s' => s' = s ∧ ∀ v ∈ Mem.pagesOf (oldStart + oldLen) (oldStart + newLen),
      v ∉ rest → leafAt s.vm.mem c v = none) _ _ ⟨rfl, fun v hv hn => absurd hv hn⟩ (Flow.along_true _ _)
      fun v hv rest s' hs' _ => ?_
    obtain ⟨rfl, hrest⟩ := hs'
    obtain ⟨hva, hge, hlt⟩ := mem_pagesOf hsum hv
    refine Flow.Post.ite (fun _ => h) fun h0 => ⟨rfl, fun v' hv' hn => ?_⟩
    by_cases hvv : v' = v
    · subst hvv
      rw [h.cr3, not_not] at h0
      obtain ⟨hl, -⟩ | ⟨l, -, -, hne, -⟩ := h.phys hc (userAddr_of_range hbase hrange.2 hge hlt) hva
      · exact hl
      · exact absurd h0 hne
    · exact hrest v' hv' (by simp [hvv, hn])
  · obtain ⟨rfl, hnone⟩ := hs'
    exact Flow.Post.andThen (freshPages_counted h hc hsum hbase hrange.2 hnone halong) fun s hs => hs

variable {newStart : Nat}

/-- **A page moved** where nothing is mapped. -/
theorem movePage_counted {i : Nat} (h : Good C kernel held c s) (hc : c ∈ C)
    (hold : userAddr (oldStart + i)) (hal : (oldStart + i) % PAGE_SIZE = 0) (hnew : userAddr (newStart + i))
    (hnone : leafAt s.vm.mem c (newStart + i) = none)
    (hroom : s.vm.halMemGetPhys s.cr3 (oldStart + i) ≠ 0 → s.RoomForTables (newStart + i)) :
    (Mem.movePage oldStart newStart i s).Post (fun s' => Good C kernel held c s' ∧
      ∀ v < 2 ^ 48, v / PAGE_SIZE ≠ (newStart + i) / PAGE_SIZE → leafAt s.vm.mem c v = none →
        leafAt s'.vm.mem c v = none) fun s _ => Good C kernel held c s := by
  unfold Mem.movePage
  unfold Mem.RoomForTables at hroom
  dsimp only
  rw [h.cr3] at hroom ⊢
  obtain ⟨-, h0⟩ | ⟨l, hl, hphys, hne, hfr⟩ := h.phys hc hold hal
  · rw [if_neg (by simp [h0])]
    exact ⟨h, fun v _ _ hv => hv⟩
  · obtain ⟨hs, htotal, hother⟩ := h.settled.move hc hold hnew hl hnone hfr (hroom hne)
      (HAL_MEM_USER ||| HAL_MEM_READ ||| HAL_MEM_WRITE)
    rw [if_pos hne, hphys]
    have hcr3 : ∀ vm, Mem.cr3 { s with vm := vm } = c := fun vm => h.cr3
    unfold Mem.mapAt
    rw [h.cr3, hcr3]
    exact ⟨h.vm hs htotal, hother⟩

theorem movePages_counted (h : Good C kernel held c s) (hc : c ∈ C) (hal : oldStart % PAGE_SIZE = 0)
    (hnal : newStart % PAGE_SIZE = 0)
    (hold : USER_BASE ≤ oldStart ∧ oldStart + oldLen ≤ USER_LIMIT + 1)
    (hnew : USER_BASE ≤ newStart ∧ newStart + oldLen ≤ USER_LIMIT + 1)
    (hnone : ∀ i ∈ Mem.pagesOf 0 oldLen, leafAt s.vm.mem c (newStart + i) = none)
    (halong : s.MoveMet oldStart newStart oldLen) :
    CallPost C kernel held c ((Flow.each (Mem.movePage oldStart newStart) (Mem.pagesOf 0 oldLen) s).andThen fun s =>
      .ret s (Mem.toInt64 newStart)) := by
  refine Flow.Post.andThen (P := Good C kernel held c) ?_ fun s hs => hs
  have hpage : ∀ i ∈ Mem.pagesOf 0 oldLen, (oldStart + i) % PAGE_SIZE = 0 ∧ (newStart + i) % PAGE_SIZE = 0 ∧ i < oldLen :=
    fun i hi => by
      obtain ⟨hia, -, hlt⟩ := mem_pagesOf rfl hi
      rw [Nat.add_mod, hal, hia, Nat.add_mod newStart, hnal, hia]
      exact ⟨rfl, rfl, hlt⟩
  refine Flow.Post.mono (P := fun s => Good C kernel held c s ∧ ([] : List Nat).Nodup ∧
    ∀ i ∈ ([] : List Nat), i ∈ Mem.pagesOf 0 oldLen ∧ leafAt s.vm.mem c (newStart + i) = none) ?_ (fun s hs => hs.1)
    fun _ _ hs => hs
  refine Flow.Post.along (P := fun rest s => Good C kernel held c s ∧ rest.Nodup ∧
    ∀ i ∈ rest, i ∈ Mem.pagesOf 0 oldLen ∧ leafAt s.vm.mem c (newStart + i) = none) _ _
    ⟨h, pagesOf_nodup _ _, fun i hi => ⟨hi, hnone i hi⟩⟩ halong fun i _ rest s' hs' hroom => ?_
  obtain ⟨hgood, hnodup, hrest⟩ := hs'
  obtain ⟨hi, hl⟩ := hrest i mem_cons_self
  obtain ⟨hoa, hna, hlt⟩ := hpage i hi
  refine Flow.Post.mono (movePage_counted hgood hc ⟨by omega, by omega⟩ hoa ⟨by omega, by omega⟩ hl hroom)
    (fun s1 hs1 => ⟨hs1.1, hnodup.of_cons, fun j hj => ?_⟩) fun _ _ hs => hs
  obtain ⟨hj', hlj⟩ := hrest j (mem_cons_of_mem i hj)
  obtain ⟨-, hnaj, hltj⟩ := hpage j hj'
  have hne : j ≠ i := by
    rintro rfl
    exact (nodup_cons.mp hnodup).1 hj
  refine ⟨hj', hs1.2 _ ?_ (page_ne hnaj hna (by omega)) hlj⟩
  have := hnew.2
  unfold USER_LIMIT at this
  omega

theorem movePages_none (h : Good C kernel held c s)
    (hnone : ∀ i ∈ Mem.pagesOf 0 oldLen, s.vm.halMemGetPhys s.cr3 (oldStart + i) = 0) :
    CallPost C kernel held c ((Flow.each (Mem.movePage oldStart newStart) (Mem.pagesOf 0 oldLen) s).andThen fun s =>
      .ret s (Mem.toInt64 newStart)) := by
  refine Flow.Post.andThen (P := fun s' => s' = s) (Flow.Post.each _ _ rfl fun i hi s' hs' => ?_) fun s' hs' => ?_
  · subst hs'
    unfold Mem.movePage
    dsimp only
    rw [if_neg (by simp [hnone i hi])]
    exact rfl
  · subst hs'
    exact h

theorem sysMremap_counted {oldAddr oldSize newSize newAddr : UInt64} (h : Good C kernel held c s) (hc : c ∈ C)
    (hmet : s.MremapMet oldAddr.toNat oldSize.toNat newSize.toNat flags newAddr.toNat) :
    CallPost C kernel held c (s.sysMremap oldAddr oldSize newSize flags newAddr) := by
  unfold Mem.sysMremap
  refine Flow.Post.ite (fun _ => h) fun hal => ?_
  have hal : oldAddr.toNat % PAGE_SIZE = 0 := by simpa using hal
  refine Flow.Post.ite (fun _ => h) fun _ => ?_
  refine Flow.Post.ite (fun _ => h) fun _ => ?_
  refine Flow.Post.ite (fun _ => h) fun _ => ?_
  refine Flow.Post.ite (fun _ => h) fun _ => ?_
  refine Flow.Post.ite (fun _ => h) fun hne => ?_
  refine Flow.Post.ite (fun _ => ?_) fun hge => ?_
  · exact Flow.Post.call (Flow.Post.mono (munmap_counted h hc) (fun _ hs => hs.elim) fun _ _ hs => hs) (fun s hs => hs.1)
      fun s r hs => hs.1
  obtain ⟨⟨hbase, hlimit⟩, hmet⟩ := hmet (by omega)
  refine Flow.Post.ite (fun hmove => ?_) fun hmove => ?_
  · rw [if_pos hmove] at hmet
    rw [if_neg hmove] at hlimit
    exact growInPlace_counted h hc hal (pageAlignUp_mod _) ⟨hbase, hlimit⟩ hmet
  rw [if_neg hmove] at hmet
  rw [if_pos (not_not.1 hmove)] at hlimit
  refine Flow.Post.ite (fun hfixed => ?_) fun hfixed => ?_
  · rw [if_pos hfixed] at hmet
    refine Flow.Post.ite (fun _ => h) fun hnal => ?_
    have hnal : newAddr.toNat % PAGE_SIZE = 0 := by simpa using hnal
    refine Flow.Post.ite (fun _ => h) fun _ => ?_
    have hpost : (s.munmap newAddr.toNat (Mem.pageAlignUp newSize.toNat)).Post _ _ := munmap_counted h hc
    cases hcall : s.munmap newAddr.toNat (Mem.pageAlignUp newSize.toNat) with
    | next s' =>
      rw [hcall] at hpost
      exact hpost.elim
    | halt => trivial
    | stop s' =>
      rw [hcall] at hpost
      exact hpost.1
    | ret s' r =>
      rw [hcall] at hpost
      refine Flow.Post.ite (fun _ => hpost.1) fun hr => ?_
      obtain ⟨start, stop, hrange, hnone⟩ := hpost.2 r rfl (by omega)
      obtain ⟨rfl, hnbase, hnlimit, hle, rfl⟩ := userRange_spec hrange
      -- a sum that wrapped would lie below the new address
      have hstop : newAddr.toNat + Mem.pageAlignUp oldSize.toNat ≤
          Mem.pageAlignUp ((newAddr.toNat + Mem.pageAlignUp newSize.toNat) % 2 ^ 64) := by
        have hmul' := pageAlignUp_mod newSize.toNat
        have hlt := pageAlignUp_lt newSize.toNat
        generalize Mem.pageAlignUp newSize.toNat = newLen at hmul' hlt hne hge hnlimit hle
        generalize Mem.pageAlignUp oldSize.toNat = oldLen at hne hge
        unfold USER_LIMIT at hnlimit
        unfold Mem.pageAlignUp PAGE_SIZE at hnlimit hle ⊢
        unfold PAGE_SIZE at hnal hmul'
        omega
      exact movePages_counted hpost.1 hc hal hnal ⟨hbase, hlimit⟩ ⟨hnbase, by omega⟩
        (fun i hi => hnone _ (pagesOf_zero hi hstop)) (hmet s' r hcall (by omega))
  · rw [if_neg hfixed] at hmet
    obtain ⟨hmap, hnothing⟩ := hmet
    have hnew : (UInt64.ofNat (Mem.pageAlignUp newSize.toNat)).toNat = Mem.pageAlignUp newSize.toNat :=
      UInt64.toNat_ofNat_of_lt (pageAlignUp_lt _)
    rw [← hnew] at hmap
    have hpost : (s.sysMmap 0 (UInt64.ofNat (Mem.pageAlignUp newSize.toNat)) 0x3#32 (MAP_PRIVATE ||| MAP_ANONYMOUS) (-1)
        0).Post _ _ := sysMmap_counted h hc hmap
    cases hcall : s.sysMmap 0 (UInt64.ofNat (Mem.pageAlignUp newSize.toNat)) 0x3#32 (MAP_PRIVATE ||| MAP_ANONYMOUS) (-1)
        0 with
    | next s' =>
      rw [hcall] at hpost
      exact hpost.elim
    | halt => trivial
    | stop s' =>
      rw [hcall] at hpost
      exact hpost
    | ret s' r =>
      rw [hcall] at hpost
      exact Flow.Post.ite (fun _ => hpost) fun hr => movePages_none hpost (hnothing s' r hcall (by omega))

end

/-! ## Runs -/

namespace Mem

def stepAs (s : Mem) (e : Nat × MemCall) : Mem := { s with cur := e.1 }.step e.2

end Mem

/-- Of the frames that are neither the kernel's nor tables of the user part, each has one reference for each user leaf
entry that leads to it and those held elsewhere; one without any is free; and the kernel's are in use, with their
references as they were. -/
structure FramesCounted (C : Set Nat) (kernel : Nat → Option Nat) (held : Nat → Nat) (s : Mem) : Prop where
  counted : ∀ f < s.vm.pmm.totalPages, kernel f = none → ¬ UserTable s.vm.mem C f →
    ∃ n, Holders (userLeaves s.vm.mem C) f n ∧ s.vm.pmm.refCounts f = n + held f
  mapped : ∀ e f, userLeaves s.vm.mem C e = some f → f < s.vm.pmm.totalPages →
    kernel f = none ∧ ¬ UserTable s.vm.mem C f ∧ 0 < s.vm.pmm.refCounts f
  kept : ∀ f r, kernel f = some r → f < s.vm.pmm.totalPages → s.vm.pmm.bits f = true ∧ s.vm.pmm.refCounts f = r
  freed : ∀ f < s.vm.pmm.totalPages, kernel f = none → ¬ UserTable s.vm.mem C f →
    (∀ e, userLeaves s.vm.mem C e ≠ some f) → held f = 0 → s.vm.pmm.free f

section
variable {C : Set Nat} {kernel : Nat → Option Nat} {held : Nat → Nat} {s : Mem}

theorem Sound.counted (h : Sound C kernel held s) : FramesCounted C kernel held s := by
  obtain ⟨ρ, hrefs⟩ := h.settled
  have hroot : ∀ c, ρ c = some (.user []) → c ∈ C := fun c hc => (hrefs.roots c).mpr hc
  have hleaves := userLeaves_eq hroot hrefs.tables hrefs.linked
  have htable : ∀ f, kernel f = none → ¬ UserTable s.vm.mem C f → ρ f = none := fun f hk hu => by
    cases hρ : ρ f with
    | none => rfl
    | some r =>
      cases r with
      | user q => exact absurd ((userTable_iff hroot hrefs.tables hrefs.linked).mpr ⟨q, hρ⟩) hu
      | kernel n => exact absurd hk (hrefs.kernelTables f n hρ)
  have hcounted : ∀ f < s.vm.pmm.totalPages, kernel f = none → ¬ UserTable s.vm.mem C f →
      ∃ n, Holders (userLeaves s.vm.mem C) f n ∧ s.vm.pmm.refCounts f = n + held f := fun f hf hk hu => by
    obtain ⟨n, hn, hcount⟩ := hrefs.counted f hf (htable f hk hu) hk
    refine ⟨n, by rwa [hleaves], by omega⟩
  refine ⟨hcounted, fun e f he hf => ?_, hrefs.kept, fun f hf hk hu hnone h0 => ⟨hf, ?_⟩⟩
  · rw [hleaves] at he
    obtain ⟨hρ, hk, hpos⟩ := hrefs.pos hf (Int.le_refl 0) (.inl ⟨e, he⟩)
    refine ⟨hk, fun hu => ?_, hpos⟩
    obtain ⟨q, hq⟩ := (userTable_iff hroot hrefs.tables hrefs.linked).mp hu
    rw [hρ] at hq
    cases hq
  · obtain ⟨n, hn, hcount⟩ := hcounted f hf hk hu
    have hzero : n = 0 := Holders.unique hn (holders_zero.mpr hnone)
    have hused := hrefs.used f hf hk
    rw [hcount, hzero, h0] at hused
    simpa using hused

/-- **One call** by a task of one of the address spaces. -/
theorem Sound.step (h : Sound C kernel held s) {e : Nat × MemCall} (hc : (s.tasks e.1).cr3 ∈ C)
    (hmet : Mem.Careful { s with cur := e.1 } e.2) : Sound C kernel held (s.stepAs e) := by
  obtain ⟨i, call⟩ := e
  have hgood : Good C kernel held (s.tasks i).cr3 { s with cur := i } := ⟨⟨h.settled, h.bases, h.shm⟩, rfl⟩
  unfold Mem.stepAs Mem.step
  refine (Flow.Post.state (P := Good C kernel held (s.tasks i).cr3) ?_ hgood).toSound
  cases call with
  | mmap addr len prot flags fd offset =>
    exact Flow.Post.mono (sysMmap_counted hgood hc hmet) (fun _ hs => hs.elim) fun _ _ hs => hs
  | munmap addr len => exact Flow.Post.mono (munmap_counted hgood hc) (fun _ hs => hs.elim) fun _ _ hs => hs.1
  | mprotect addr len prot => exact sysMprotect_counted hgood hc
  | mremap oldAddr oldSize newSize flags newAddr => exact sysMremap_counted hgood hc hmet
  | brk brk => exact sysBrk_counted hgood hc hmet

end

/-- **References over a run**: from an address space in order, in every run of calls by any of its tasks that meet the
conditions, the references of every frame are its user leaf entries and those held elsewhere, after every call. -/
theorem run_counted (C : Set Nat) (kernel : Nat → Option Nat) (held : Nat → Nat) (s0 : Mem) (calls : List (Nat × MemCall))
    (h₀ : Sound C kernel held s0)
    (hmet : Run.Guarded Mem.stepAs (fun s e => (s.tasks e.1).cr3 ∈ C ∧ Mem.Careful { s with cur := e.1 } e.2) s0 calls) :
    ∀ s ∈ Run.states Mem.stepAs s0 calls, FramesCounted C kernel held s := by
  intro s hs
  refine (Run.states_forall (P := Sound C kernel held) (fun s e h hm => h.step hm.1 hm.2) calls s0 h₀ hmet s hs).counted

/-! ## An empty address space -/

def bareWith (n : Nat) : Mem := { bareMem with vm := { bareMem.vm with pmm := { bareMem.vm.pmm with totalPages := n } } }

def bareKernel (f : Nat) : Option Nat := if f = 0 then some 1 else none

theorem bareWith_sound {n : Nat} (hn : 2 ≤ n) (hle : n ≤ 2 ^ 40) : Sound {1} bareKernel (fun _ => 0) (bareWith n) := by
  have hrole : ∀ f r, (if f = 1 then some (TableRole.user []) else none) = some r → f = 1 ∧ r = .user [] := fun f r h => by
    split at h
    · cases h
      exact ⟨by assumption, rfl⟩
    · cases h
  have hentries : ∀ e, entriesOf (fun f => if f = 1 then some (TableRole.user []) else none) (bareWith n).vm.mem e =
      none := fun e => by
      unfold entriesOf
      dsimp only
      split
      · rename_i h
        cases (hrole _ _ h).2
      · rfl
  refine ⟨⟨fun f => if f = 1 then some (.user []) else none, ?_⟩,
    fun _ _ => ⟨(by decide : USER_BASE ≤ 0x700000000000), (by decide : 0x700000000000 % PAGE_SIZE = 0)⟩,
    fun i fd node obj hfd => by cases hfd⟩
  refine ⟨fun c => ?_, fun c hc => ?_, fun t q ht hq => ?_, fun t ht => ?_, ?_, by decide, fun t k ht => ?_,
    fun t q ht => ?_, fun e f he => ?_, fun f h0 => (by cases h0), fun f r hr hf => ?_, fun f hf hρ hk => ?_,
    fun f hf hk => ?_⟩
  · simp
  · cases hc
    refine ⟨.inr rfl, hle, rfl, fun f hf _ => ?_, fun t r i c' _ _ hp _ => ?_⟩
    · by_cases h1 : f = 1
      · subst h1
        rfl
      · exact absurd (if_neg h1) hf
    · exact absurd hp (by decide : ¬ present 0#64 = true)
  · have := (hrole _ _ ht).2
    cases this
    exact absurd rfl hq
  · by_cases h1 : t = 1
    · subst h1
      exact hn
    · exact absurd (if_neg h1) ht
  · show 0 < n
    omega
  · cases (hrole _ _ ht).2
  · obtain ⟨rfl, -⟩ := hrole _ _ ht
    rfl
  · rw [hentries] at he
    cases he
  · unfold bareKernel at hr
    split at hr
    · rename_i h0
      subst h0
      cases hr
      exact ⟨rfl, rfl⟩
    · cases hr
  · refine ⟨0, holders_zero.mpr fun e he => (by rw [hentries] at he; cases he), ?_⟩
    have h2 : ¬ f < 2 := by
      intro h2
      unfold bareKernel at hk
      obtain rfl | rfl : f = 0 ∨ f = 1 := by omega
      · cases hk
      · cases hρ
    show ((if f < 2 then 1 else 0 : Nat) : Int) = _
    simp [h2]
  · show decide (f < 2) = true ↔ 0 < if f < 2 then 1 else 0
    by_cases h2 : f < 2 <;> simp [h2]

/-- `sys_mmap(NULL, 4096, PROT_READ | PROT_WRITE, MAP_PRIVATE | MAP_ANONYMOUS, -1, 0)` with one frame left: the page gets
it, there is none for the tables, and the frame keeps a reference no entry accounts for. -/
theorem mmap_loses_frame :
    ¬ ∀ (C : Set Nat) (kernel : Nat → Option Nat) (held : Nat → Nat) (s0 : Mem) (calls : List (Nat × MemCall)),
      Sound C kernel held s0 → Run.Guarded Mem.stepAs (fun s e => (s.tasks e.1).cr3 ∈ C) s0 calls →
        ∀ s ∈ Run.states Mem.stepAs s0 calls, FramesCounted C kernel held s := by
  intro hall
  have hrefs : ((bareWith 3).stepAs (0, .mmap 0 4096 3 0x22 (-1) 0)).vm.pmm.refCounts 2 = 1 ∧
      ((bareWith 3).stepAs (0, .mmap 0 4096 3 0x22 (-1) 0)).vm.pmm.totalPages = 3 := by decide +kernel
  have hmem : ((bareWith 3).stepAs (0, .mmap 0 4096 3 0x22 (-1) 0)).vm.mem = fun _ _ => 0#64 := by rfl
  have hrun := hall {1} bareKernel (fun _ => 0) (bareWith 3) [(0, .mmap 0 4096 3 0x22 (-1) 0)]
    (bareWith_sound (by decide) (by decide)) ⟨rfl, trivial⟩ _ (mem_cons_of_mem _ (mem_singleton.mpr rfl))
  generalize (bareWith 3).stepAs (0, .mmap 0 4096 3 0x22 (-1) 0) = s at hrefs hmem hrun
  have habs : ∀ t i, present (s.vm.mem t i) = false := fun t i => by
    rw [hmem]
    exact (by decide : present 0#64 = false)
  have hreads : ∀ v level t, Reads s.vm.mem {1} v level t → t = 1 := fun v level t h => by
    cases h with
    | top hc => exact hc
    | down _ _ hp _ =>
      rw [habs] at hp
      cases hp
  have htable : ¬ UserTable s.vm.mem {1} 2 := by
    rintro ⟨v, level, -, h⟩
    cases hreads v level 2 h
  obtain ⟨n, hn, hcount⟩ := hrun.counted 2 (by omega) rfl htable
  have hzero : Holders (userLeaves s.vm.mem {1}) 2 0 := holders_zero.mpr fun e he => by
    unfold userLeaves at he
    simp [habs] at he
  have := hn.unique hzero
  omega

/-- A page is mapped by one task, and dropped by another of the same address space. -/
theorem run_counted_calls :
    FramesCounted {1} bareKernel (fun _ => 0) ([(0, .mmap 0x700000000000 4096 3 0x32 (-1) 0),
      (7, .munmap 0x700000000000 4096)].foldl Mem.stepAs (bareWith 16)) := by
  refine run_counted {1} bareKernel (fun _ => 0) (bareWith 16) [(0, .mmap 0x700000000000 4096 3 0x32 (-1) 0),
    (7, .munmap 0x700000000000 4096)] (bareWith_sound (by decide) (by decide)) ?_ _ (Run.foldl_mem_states _ _)
  refine ⟨⟨rfl, fun flags' s' virt backing hfl hplace hback => ?_⟩, ⟨rfl, trivial⟩, trivial⟩
  obtain rfl : 0x32#32 = flags' := Option.some.inj hfl
  have hfixed : Mem.mmapPlace { bareWith 16 with cur := 0 } 0x700000000000 4096 0x32#32 =
      .ok ({ bareWith 16 with cur := 0 }, 0x700000000000) := by
    unfold Mem.mmapPlace
    rw [if_pos (by decide), if_neg (by decide), if_neg (by decide)]
  obtain ⟨rfl, rfl⟩ : { bareWith 16 with cur := 0 } = s' ∧ 0x700000000000 = virt := by
    have heq : Except.ok ({ bareWith 16 with cur := 0 }, 0x700000000000) = Except.ok (s', virt) := hfixed.symm.trans hplace
    simpa using heq
  cases hback
  rw [show Mem.pagesOf (Mem.pageAlignDown 0x700000000000)
      (Mem.pageAlignUp ((0x700000000000 + (4096 : UInt64).toNat) % 2 ^ 64)) = [0x700000000000] by decide]
  exact ⟨.inr (by decide +kernel), fun _ _ => trivial⟩

end EterOS.Syscall
