import EterOS.Mm.UserSpace
/-!
# Confine — what a user address space may come to map

`Space` joins the tables, the page map and the references behind it for one address space; `lent` are frames of others
that its pages may lead to: the framebuffer, and the pages of shared memory objects.  `Keeps` is what every primitive of
the memory system calls does to it: outside user space nothing changes, and a page leads to a frame that a page led to
before, that was free, or that is lent.  It composes, so a call keeps what its loops keep.
-/
namespace EterOS.Mm

open Function

instance : DecidablePred userAddr := fun v => inferInstanceAs (Decidable (USER_BASE ≤ v ∧ v ≤ USER_LIMIT))

def userMap (m : Nat → Nat → BitVec 64) (cr3 : Nat) : PageMap :=
  fun n => if userAddr (n * PAGE_SIZE) then leafAt m cr3 (n * PAGE_SIZE) else none

def Pmm.free (p : Pmm) (f : Nat) : Prop := f < p.totalPages ∧ p.bits f = false

section
variable {m m' : Nat → Nat → BitVec 64} {cr3 virt : Nat}

theorem userAddr.page (h : userAddr virt) : userAddr (virt / PAGE_SIZE * PAGE_SIZE) ∧ virt / PAGE_SIZE < USER_PAGES := by
  obtain ⟨h1, h2⟩ := h
  unfold userAddr
  unfold USER_BASE at h1 ⊢
  unfold USER_LIMIT at h2 ⊢
  unfold USER_PAGES PAGE_SIZE
  omega

theorem userAddr_congr {v : Nat} (h : v / PAGE_SIZE = virt / PAGE_SIZE) (hv : userAddr virt) : userAddr v := by
  obtain ⟨h1, h2⟩ := hv
  unfold PAGE_SIZE at h
  unfold userAddr
  unfold USER_BASE at h1 ⊢
  unfold USER_LIMIT at h2 ⊢
  omega

theorem userAddr.lt (h : userAddr virt) : virt < 2 ^ 48 := by
  have := h.2
  unfold USER_LIMIT at this
  omega

theorem page_mul_div (n : Nat) : n * PAGE_SIZE / PAGE_SIZE = n := Nat.mul_div_cancel n (by decide)

theorem userMap_at (hv : userAddr virt) : userMap m cr3 (virt / PAGE_SIZE) = leafAt m cr3 virt := by
  unfold userMap
  rw [if_pos hv.page.1]
  exact leafAt_page (page_mul_div _)

theorem userMap_update (b : Bool) {x : Option Leaf} (hv : userAddr virt)
    (h : ∀ v < 2 ^ 48, leafAt m' cr3 v = if b = true ∧ v / PAGE_SIZE = virt / PAGE_SIZE then x else leafAt m cr3 v) :
    userMap m' cr3 = if b = true then Function.update (userMap m cr3) (virt / PAGE_SIZE) x else userMap m cr3 := by
  funext n
  by_cases hn : n = virt / PAGE_SIZE
  · subst hn
    rw [userMap_at hv, h virt hv.lt]
    cases b with
    | true => simp
    | false => simp [userMap_at hv]
  · have hsame : userMap m' cr3 n = userMap m cr3 n := by
      unfold userMap
      split
      · rename_i hu
        rw [h _ hu.lt, if_neg]
        rw [page_mul_div]
        exact fun hc => hn hc.2
      · rfl
    rw [hsame]
    cases b with
    | true => simp [hn]
    | false => rfl

end

/-- Tables, pages and references of one address space agree, its user part is all user pages, and what is lent to it
stays what it is. -/
structure Space (ρ : Nat → Option TableRole) (held : Nat → Nat) (lent : Nat → Prop) (s : Vm) (cr3 : Nat) : Prop where
  tables : Tables ρ s cr3
  backed : Backed (fun f => ρ f ≠ none) held s.pmm (userMap s.mem cr3)
  clean : ∀ n l, userMap s.mem cr3 n = some l → l.user = true
  pinned : ∀ f, lent f → Pinned (fun f => ρ f ≠ none) held s.pmm f

/-- What the user part may lead to after `s`. -/
def Source (lent : Nat → Prop) (s : Vm) (cr3 f : Nat) : Prop :=
  (∃ n l, userMap s.mem cr3 n = some l ∧ l.frame = f) ∨ s.pmm.free f ∨ lent f

/-- From `s` to `s'` the address space stayed one, and gained nothing that was not its own, free or lent. -/
structure Keeps (held : Nat → Nat) (lent : Nat → Prop) (cr3 : Nat) (s s' : Vm) : Prop where
  space : ∃ ρ, Space ρ held lent s' cr3
  total : s'.pmm.totalPages = s.pmm.totalPages
  outside : ∀ v < 2 ^ 48, ¬ userAddr v → leafAt s'.mem cr3 v = leafAt s.mem cr3 v
  half : ∀ v, 256 ≤ pml4Index v → s'.halMemGetPhys cr3 v = s.halMemGetPhys cr3 v
  mapped : ∀ n l, userMap s'.mem cr3 n = some l → Source lent s cr3 l.frame
  free : ∀ f, s'.pmm.free f → Source lent s cr3 f

section
variable {ρ : Nat → Option TableRole} {held : Nat → Nat} {lent : Nat → Prop} {s s1 s2 s' : Vm} {cr3 virt : Nat}

theorem Keeps.refl (h : Space ρ held lent s cr3) : Keeps held lent cr3 s s :=
  ⟨⟨ρ, h⟩, rfl, fun _ _ _ => rfl, fun _ _ => rfl, fun n l hl => .inl ⟨n, l, hl, rfl⟩, fun _ hf => .inr (.inl hf)⟩

theorem Keeps.trans (h : Keeps held lent cr3 s s1) (h' : Keeps held lent cr3 s1 s2) : Keeps held lent cr3 s s2 := by
  have hsrc : ∀ f, Source lent s1 cr3 f → Source lent s cr3 f := by
    rintro f (⟨n, l, hl, rfl⟩ | hf | hf)
    · exact h.mapped n l hl
    · exact h.free f hf
    · exact .inr (.inr hf)
  exact ⟨h'.space, h'.total.trans h.total, fun v hv hu => (h'.outside v hv hu).trans (h.outside v hv hu),
    fun v hv => (h'.half v hv).trans (h.half v hv), fun n l hl => hsrc _ (h'.mapped n l hl),
    fun f hf => hsrc f (h'.free f hf)⟩

theorem Took.free {p p' : Pmm} {new : Nat → Prop} (h : Took p p' new) {f : Nat} (hf : p'.free f) : p.free f := by
  obtain ⟨hlt, hb⟩ := hf
  by_cases hn : new f
  · rw [(h.fresh f hn).2.2.1] at hb
    cases hb
  · exact ⟨h.total ▸ hlt, (h.same f hn).1 ▸ hb⟩

theorem Space.phys (h : Space ρ held lent s cr3) (hv : userAddr virt) (ha : virt % PAGE_SIZE = 0) :
    s.halMemGetPhys cr3 virt = 0 ∨ ∃ l, leafAt s.mem cr3 virt = some l ∧ l.frame ≠ 0 ∧
      s.halMemGetPhys cr3 virt = l.frame * PAGE_SIZE ∧ frameOf (BitVec.ofNat 64 (l.frame * PAGE_SIZE)) = l.frame := by
  obtain ⟨-, h0⟩ | ⟨l, hl, hlt, hphys⟩ := h.tables.getPhys hv
  · exact .inl h0
  · rw [ha, Nat.add_zero] at hphys
    by_cases h0 : l.frame = 0
    · left
      rw [hphys, h0, Nat.zero_mul]
    · exact .inr ⟨l, hl, h0, hphys, frameOf_addrOf hlt⟩

/-! ## The primitives -/

theorem Space.alloc (h : Space ρ held lent s cr3) {new : Nat → Prop} (hm : s'.mem = s.mem) (ht : Took s.pmm s'.pmm new) :
    Space ρ held lent s' cr3 ∧ Keeps held lent cr3 s s' := by
  have hspace : Space ρ held lent s' cr3 := by
    refine ⟨h.tables.ofPmm hm ht.total fun f _ _ hb => ?_, ?_, ?_, fun f hf => ?_⟩
    · by_cases hn : new f
      · exact (ht.fresh f hn).2.2.1
      · rw [(ht.same f hn).1, hb]
    · rw [hm]
      exact h.backed.took ht fun f hf => .inl hf
    · rw [hm]
      exact h.clean
    · exact (h.pinned f hf).took h.backed ht fun f hf => .inl hf
  refine ⟨hspace, ⟨ρ, hspace⟩, ht.total, fun v _ _ => by rw [hm], fun v hv => ?_, fun n l hl => ?_, fun f hf => ?_⟩
  · exact h.tables.getPhys_half (fun _ _ _ _ _ => by rw [hm]) hv
  · rw [hm] at hl
    exact .inl ⟨n, l, hl, rfl⟩
  · exact .inr (.inl (ht.free hf))

theorem Space.fill (h : Space ρ held lent s cr3) (hv : userAddr virt) {a : Access}
    (ha : translate s.mem cr3 virt = some a) (words : Nat → BitVec 64) :
    Keeps held lent cr3 s { s with mem := Function.update s.mem a.frame words } := by
  obtain ⟨l, hl, hfr, -⟩ := translate_leaf ha
  rw [← userMap_at hv] at hl
  have hnot : ¬ ρ a.frame ≠ none := hfr ▸ h.backed.data _ l hl
  have hm : ∀ t, ρ t ≠ none → (Function.update s.mem a.frame words) t = s.mem t := fun t ht =>
    update_of_ne (fun hta : t = a.frame => hnot (hta ▸ ht)) ..
  have htables : Tables ρ { s with mem := Function.update s.mem a.frame words } cr3 ∧
      ∀ v, leafAt (Function.update s.mem a.frame words) cr3 v = leafAt s.mem cr3 v := h.tables.ofMem rfl hm
  obtain ⟨htab, hleaf⟩ := htables
  have hmap : userMap (Function.update s.mem a.frame words) cr3 = userMap s.mem cr3 := by
    funext n
    unfold userMap
    split
    · exact hleaf _
    · rfl
  refine ⟨⟨ρ, htab, ?_, ?_, h.pinned⟩, rfl, fun v _ _ => hleaf v, fun v hv => ?_, fun n l hl => ?_,
    fun f hf => .inr (.inl hf)⟩
  · rw [hmap]
    exact h.backed
  · rw [hmap]
    exact h.clean
  · refine h.tables.getPhys_half (fun t r i ht _ => ?_) hv
    exact congrFun (hm t (by rw [ht]; exact Option.some_ne_none r)) i
  · rw [hmap] at hl
    exact .inl ⟨n, l, hl, rfl⟩

variable {l : Leaf}

/-- **A page given back**: its frame may become free, and it led there. -/
theorem Space.drop (h : Space ρ held lent s cr3) (hv : userAddr virt) {pmm : Pmm}
    (hl : leafAt s.mem cr3 virt = some l) (h0 : l.frame ≠ 0) (hok : s.pmm.pmmFreePage (l.frame * PAGE_SIZE) = .ok pmm) :
    Keeps held lent cr3 s (Vm.vmmUnmapPage { s with pmm := pmm } cr3 virt) := by
  rw [← userMap_at hv] at hl
  have hbits : ∀ f, f ≠ l.frame → pmm.bits f = s.pmm.bits f := fun f hf => by
    obtain ⟨-, rfl⟩ | ⟨-, -, -, -, ⟨-, hb'⟩ | ⟨-, hb'⟩⟩ := pmmFreePage_ok hok
    · rfl
    · rw [hb']
    · rw [hb', update_of_ne hf]
  have htotal : pmm.totalPages = s.pmm.totalPages := by
    obtain ⟨-, rfl⟩ | ⟨-, -, ht, -⟩ := pmmFreePage_ok hok
    · rfl
    · exact ht
  have htab : Tables ρ { s with pmm := pmm } cr3 := by
    refine h.tables.ofPmm rfl htotal fun f hf hlt hb => ?_
    have hne : f ≠ l.frame := by
      rintro rfl
      rcases hf with hf | hf
      · exact h.backed.data _ l hl hf
      · exact h0 hf
    exact (hbits f hne).trans hb
  obtain ⟨htab', hpmm, hhalf, hleaf, -⟩ := htab.unmap hv
  have hmap := userMap_update true (m := s.mem) hv fun v hv' => by simpa using hleaf v hv'
  rw [if_pos rfl] at hmap
  refine ⟨⟨ρ, htab', ?_, fun n l' hl' => ?_, fun f hf => ?_⟩, ?_, fun v hv' hu => ?_, fun v hv' => ?_, fun n l' hl' => ?_,
    fun f hf => ?_⟩
  · rw [hpmm, hmap]
    exact h.backed.release hl hok
  · rw [hmap] at hl'
    by_cases hn : n = virt / PAGE_SIZE
    · rw [hn, update_self] at hl'
      cases hl'
    · rw [update_of_ne hn] at hl'
      exact h.clean n l' hl'
  · rw [hpmm]
    exact (h.pinned f hf).free hok
  · rw [hpmm]
    exact htotal
  · rw [hleaf v hv', if_neg fun hpage => hu (userAddr_congr hpage hv)]
  · exact (htab.getPhys_half hhalf hv').trans rfl
  · rw [hmap] at hl'
    by_cases hn : n = virt / PAGE_SIZE
    · rw [hn, update_self] at hl'
      cases hl'
    · rw [update_of_ne hn] at hl'
      exact .inl ⟨n, l', hl', rfl⟩
  · rw [hpmm] at hf
    obtain ⟨hlt, hb⟩ := hf
    by_cases hfl : f = l.frame
    · exact .inl ⟨_, l, hl, hfl.symm⟩
    · exact .inr (.inl ⟨htotal ▸ hlt, (hbits f hfl) ▸ hb⟩)

variable {phys : BitVec 64} {flags : BitVec 32}

/-- **A page mapped** to a frame in use that is no table, has a reference to spare, and is one it may lead to. -/
theorem Space.map {s0 : Vm} (h : Space ρ held lent s cr3) (hk : Keeps held lent cr3 s0 s) (hv : userAddr virt)
    (hflags : halHas flags HAL_MEM_USER = true) (hd : ρ (frameOf phys) = none)
    (hu : frameOf phys < s.pmm.totalPages → s.pmm.bits (frameOf phys) = true)
    (hc : frameOf phys < s.pmm.totalPages →
      PageMap.uses (Function.update (userMap s.mem cr3) (virt / PAGE_SIZE) none) (frameOf phys) + 1 + held (frameOf phys) ≤
        s.pmm.refCounts (frameOf phys) ∨ Reserved s.pmm held (frameOf phys))
    (hsrc : Source lent s0 cr3 (frameOf phys)) :
    Keeps held lent cr3 s0 (s.halMemMap cr3 phys virt flags).1 := by
  obtain ⟨ρ', s', ok, heq, htab, htook, hold, hhalf, hleaf, -⟩ := h.tables.map hv phys flags
  rw [heq]
  have hmap := userMap_update ok hv hleaf
  have hnew : ¬ (ρ (frameOf phys) = none ∧ ρ' (frameOf phys) ≠ none) := fun hn => by
    obtain ⟨hlt, hb, -, -⟩ := htook.fresh _ hn
    rw [hu hlt] at hb
    cases hb
  have htable : ∀ f, ρ' f ≠ none → ρ f ≠ none ∨ ρ f = none ∧ ρ' f ≠ none := fun f hf => by
    by_cases h0 : ρ f = none
    · exact .inr ⟨h0, hf⟩
    · exact .inl h0
  have hbacked := h.backed.took htook htable
  have hcases : ∀ n l, userMap s'.mem cr3 n = some l → l = ⟨frameOf phys, true⟩ ∨
      userMap s.mem cr3 n = some l := fun n l hl => by
    rw [hmap] at hl
    split at hl
    · by_cases hn : n = virt / PAGE_SIZE
      · rw [hn, update_self, hflags, Option.some.injEq] at hl
        exact .inl hl.symm
      · rw [update_of_ne hn] at hl
        exact .inr hl
    · exact .inr hl
  refine ⟨⟨ρ', htab, ?_, fun n l hl => ?_, fun f hf => (h.pinned f hf).took h.backed htook htable⟩,
    htook.total.trans hk.total, fun v hv' huser => ?_,
    fun v hv' => (h.tables.getPhys_half hhalf hv').trans (hk.half v hv'), fun n l hl => ?_,
    fun f hf => hk.free f (htook.free hf)⟩
  · rw [hmap]
    split
    · obtain ⟨hb, hcnt⟩ := htook.same _ hnew
      have hres : Reserved s.pmm held (frameOf phys) → Reserved s'.pmm held (frameOf phys) := fun hr =>
        ⟨hcnt.trans hr.count, hr.held, hb.trans hr.bit⟩
      refine hbacked.set hv.page.2 (fun hcon => hnew ⟨hd, hcon⟩) (fun hlt => ?_) fun hlt => ?_
      · exact hb.trans (hu (htook.total ▸ hlt))
      · rcases hc (htook.total ▸ hlt) with h' | h'
        · exact .inl (hcnt.symm ▸ h')
        · exact .inr (hres h')
    · exact hbacked
  · rcases hcases n l hl with rfl | hl
    · rfl
    · exact h.clean n l hl
  · rw [hleaf v (by omega), if_neg fun hc' => huser (userAddr_congr hc'.2 hv), hk.outside v hv' huser]
  · rcases hcases n l hl with rfl | hl
    · exact hsrc
    · exact hk.mapped n l hl

theorem Space.fresh (h : Space ρ held lent s cr3) (hv : userAddr virt) {p : Nat}
    (hflags : halHas flags HAL_MEM_USER = true) (hm : s1.mem = s.mem) (ht : Took s.pmm s1.pmm fun f => f = p) :
    Keeps held lent cr3 s (s1.halMemMap cr3 (addrOf p) virt flags).1 := by
  obtain ⟨hlt, hfree, hbit, hcnt⟩ := ht.fresh p rfl
  obtain ⟨h₁, hk⟩ := h.alloc hm ht
  have hfr : frameOf (addrOf p) = p := frameOf_addrOf (Nat.lt_of_lt_of_le hlt h.tables.frames)
  have hρ : ρ p = none := by
    by_contra hcon
    rw [h.tables.used p hcon hlt] at hfree
    cases hfree
  obtain ⟨huse, hheld⟩ := h.backed.unused hlt hfree
  refine h₁.map hk hv hflags (by rw [hfr, hρ]) (fun _ => by rw [hfr, hbit]) (fun _ => ?_) (.inr (.inl ?_))
  · left
    have hclear := PageMap.uses_clear (L := userMap s.mem cr3) (f := p) hv.page.2
    rw [hfr, hm, hcnt, hheld]
    omega
  · rw [hfr]
    exact ⟨hlt, hfree⟩

theorem Space.lend {s0 : Vm} (h : Space ρ held lent s cr3) (hk : Keeps held lent cr3 s0 s) (hv : userAddr virt)
    (hflags : halHas flags HAL_MEM_USER = true) (hl : lent (frameOf phys))
    (hc : frameOf phys < s.pmm.totalPages →
      PageMap.uses (userMap s.mem cr3) (frameOf phys) + 1 + held (frameOf phys) ≤ s.pmm.refCounts (frameOf phys) ∨
        Reserved s.pmm held (frameOf phys)) :
    Keeps held lent cr3 s0 (s.halMemMap cr3 phys virt flags).1 := by
  have hp := h.pinned _ hl
  refine h.map hk hv hflags (by simpa using hp.data) (fun hlt => ?_) (fun hlt => ?_) (.inr (.inr hl))
  · rcases hp.kept hlt with h0 | hr
    · exact h.backed.heldUsed _ hlt h0
    · exact hr.bit
  · rcases hc hlt with h' | h'
    · left
      have hclear := PageMap.uses_clear (L := userMap s.mem cr3) (f := frameOf phys) hv.page.2
      omega
    · exact .inr h'

theorem Space.ref (h : Space ρ held lent s cr3) {f : Nat} {pmm : Pmm} (hheld : f < s.pmm.totalPages → 0 < held f)
    (hok : s.pmm.pmmRefPage (f * PAGE_SIZE) = .ok pmm) :
    Space ρ held lent { s with pmm := pmm } cr3 ∧ Keeps held lent cr3 s { s with pmm := pmm } ∧
      (f < pmm.totalPages → PageMap.uses (userMap s.mem cr3) f + 1 + held f ≤ pmm.refCounts f) := by
  obtain ⟨hbacked, htotal, hbits, hcount⟩ := h.backed.ref hheld hok
  have hspace : Space ρ held lent { s with pmm := pmm } cr3 :=
    ⟨h.tables.ofPmm rfl htotal fun f _ _ hb => by rw [hbits, hb], hbacked, h.clean,
      fun g hg => (h.pinned g hg).ref hheld hok⟩
  refine ⟨hspace, ⟨⟨ρ, hspace⟩, htotal, fun _ _ _ => rfl, fun _ _ => rfl, fun n l hl => .inl ⟨n, l, hl, rfl⟩,
    fun g hg => .inr (.inl ?_)⟩, hcount⟩
  obtain ⟨hlt, hb⟩ := hg
  exact ⟨htotal ▸ hlt, hbits ▸ hb⟩

theorem Space.remap (h : Space ρ held lent s cr3) (hv : userAddr virt)
    (hflags : halHas flags HAL_MEM_USER = true) (hl : leafAt s.mem cr3 virt = some l) (hf : frameOf phys = l.frame) :
    Keeps held lent cr3 s (s.halMemMap cr3 phys virt flags).1 := by
  rw [← userMap_at hv] at hl
  refine h.map (Keeps.refl h) hv hflags ?_ ?_ (fun hlt => ?_) (.inl ⟨_, l, hl, hf.symm⟩)
  · rw [hf]
    simpa using h.backed.data _ l hl
  · rw [hf]
    exact h.backed.used _ l hl
  · rw [hf] at hlt ⊢
    have hclear := PageMap.uses_clear (L := userMap s.mem cr3) (f := l.frame) hv.page.2
    rw [hl, Option.map_some, if_pos rfl] at hclear
    rcases h.backed.counted _ hlt with h' | h'
    · exact .inl (by omega)
    · exact .inr h'

/-- **A page moved**: the frame of one user page is mapped at another, and the first is unmapped. -/
theorem Space.move (h : Space ρ held lent s cr3) {old new : Nat} (hold : userAddr old) (hnew : userAddr new)
    (hflags : halHas flags HAL_MEM_USER = true)
    (hl : leafAt s.mem cr3 old = some l) (hf : frameOf phys = l.frame) :
    Keeps held lent cr3 s ((s.halMemMap cr3 phys new flags).1.vmmUnmapPage cr3 old) := by
  rw [← userMap_at hold] at hl
  obtain ⟨ρ', s', ok, heq, htab, htook, hρ, hhalf, hleaf, -⟩ := h.tables.map hnew phys flags
  rw [heq]
  have hmap := userMap_update ok hnew hleaf
  obtain ⟨htab', hpmm, hhalf', hleaf', -⟩ := htab.unmap hold
  have hmap' := userMap_update true (m := s'.mem) hold fun v hv' => by simpa using hleaf' v hv'
  rw [if_pos rfl, hmap, hflags, hf] at hmap'
  have htable : ∀ f, ρ' f ≠ none → ρ f ≠ none ∨ ρ f = none ∧ ρ' f ≠ none := fun f hf => by
    by_cases h0 : ρ f = none
    · exact .inr ⟨h0, hf⟩
    · exact .inl h0
  have hbacked := h.backed.took htook htable
  -- every page afterwards leads to a frame some page led to
  have hcases : ∀ n l', userMap (s'.vmmUnmapPage cr3 old).mem cr3 n = some l' →
      l' = ⟨l.frame, true⟩ ∨ userMap s.mem cr3 n = some l' := fun n l' hl' => by
    rw [hmap'] at hl'
    by_cases hn : n = old / PAGE_SIZE
    · rw [hn, update_self] at hl'
      cases hl'
    rw [update_of_ne hn] at hl'
    split at hl'
    · by_cases hn' : n = new / PAGE_SIZE
      · rw [hn', update_self, Option.some.injEq] at hl'
        exact .inl hl'.symm
      · rw [update_of_ne hn'] at hl'
        exact .inr hl'
    · exact .inr hl'
  refine ⟨⟨ρ', htab', ?_, fun n l' hl' => ?_, fun f hlent => ?_⟩, ?_, fun v hv' huser => ?_, fun v hv' => ?_,
    fun n l' hl' => ?_, fun f hfree => ?_⟩
  · rw [hpmm, hmap']
    split
    · exact hbacked.move hl rfl hnew.page.2
    · exact hbacked.clear _
  · rcases hcases n l' hl' with rfl | hl'
    · rfl
    · exact h.clean n l' hl'
  · rw [hpmm]
    exact (h.pinned f hlent).took h.backed htook htable
  · rw [hpmm, htook.total]
  · rw [hleaf' v hv', if_neg fun hc => huser (userAddr_congr hc hold), hleaf v hv',
      if_neg fun hc => huser (userAddr_congr hc.2 hnew)]
  · rw [htab.getPhys_half hhalf' hv', h.tables.getPhys_half hhalf hv']
  · rcases hcases n l' hl' with rfl | hl'
    · exact .inl ⟨_, l, hl, rfl⟩
    · exact .inl ⟨n, l', hl', rfl⟩
  · rw [hpmm] at hfree
    exact .inr (.inl (htook.free hfree))

end

end EterOS.Mm
