import EterOS.Mm.Teardown
/-!
# Clone — what `clone_pt_recursive` takes, and that a teardown would give exactly that back

`live` are the frames in use when the clone starts.  A call for a table `dest` takes references `h`: one for each table
and page it allocates and one for each page it shares.  It writes only `dest`, frames nobody used, and the
copy-on-write bits of the source (`Grown`); and a teardown of `dest` releases `h`, provided the entries copied as they
are do not carry `PAGE_USER` (`sharedFree`).
-/
namespace EterOS.Mm
namespace Vm

open List

/-! ## The pages a clone shares -/

def leavesEntry (below : Nat → List Nat) (level i : Nat) (e : BitVec 64) : List Nat :=
  if !present e then []
  else if sharedEntry level i then []
  else if level > 1 then below (frameOf e)
  else if user e then [frameOf e]
  else []

def leaves (m : Nat → Nat → BitVec 64) : Nat → Nat → List Nat
  | 0, _ => []
  | level + 1, table => (List.range 512).flatMap fun i => leavesEntry (leaves m level) (level + 1) i (m table i)

/-- The part of an address space that a clone copies is made of tables and pages in use, without huge pages, and its
intermediate entries carry `PAGE_USER`; `sharedFree` is whether the entries shared as they are must not. -/
def SrcOk (live : Nat → Prop) (sharedFree : Prop) (m : Nat → Nat → BitVec 64) : Nat → Nat → Prop
  | 0, _ => True
  | level + 1, table => live table ∧ ∀ i < 512, present (m table i) = true →
      if sharedEntry (level + 1) i = true then sharedFree → user (m table i) = false
      else if level + 1 > 1 then
        user (m table i) = true ∧ huge (m table i) = false ∧ SrcOk live sharedFree m level (frameOf (m table i))
      else user (m table i) = true → live (frameOf (m table i))

section
variable {live : Nat → Prop} {sharedFree : Prop} {m m' : Nat → Nat → BitVec 64}

theorem SrcOk.congr (hm : ∀ f, live f → ∀ i, SameWalk (m f i) (m' f i)) : ∀ {level table : Nat},
    SrcOk live sharedFree m level table → SrcOk live sharedFree m' level table
  | 0, _, _ => trivial
  | level + 1, table, h => by
    refine ⟨h.1, fun i hi hp => ?_⟩
    have hw := hm table h.1 i
    rw [hw.present] at hp
    have hi := h.2 i hi hp
    rw [hw.user, hw.huge, hw.frame]
    split
    · rename_i hs
      rwa [if_pos hs] at hi
    · rename_i hs
      rw [if_neg hs] at hi
      split
      · rename_i hl
        rw [if_pos hl] at hi
        exact ⟨hi.1, hi.2.1, hi.2.2.congr hm⟩
      · rename_i hl
        rwa [if_neg hl] at hi

theorem leavesEntry_congr {b b' : Nat → List Nat} {level i : Nat} {e e' : BitVec 64} (hw : SameWalk e e')
    (hb : present e = true → sharedEntry level i = false → level > 1 → b' (frameOf e) = b (frameOf e)) :
    leavesEntry b' level i e' = leavesEntry b level i e := by
  unfold leavesEntry
  rw [hw.present, hw.user, hw.frame]
  split
  · rfl
  rename_i hp
  split
  · rfl
  rename_i hs
  split
  · rename_i hl
    exact hb (by simpa using hp) (by simpa using hs) hl
  · rfl

theorem leaves_congr (hm : ∀ f, live f → ∀ i, SameWalk (m f i) (m' f i)) : ∀ {level table : Nat},
    SrcOk live sharedFree m level table → leaves m' level table = leaves m level table
  | 0, _, _ => rfl
  | level + 1, table, h => by
    rw [leaves, leaves, flatMap_def, flatMap_def]
    refine congrArg List.flatten (map_congr_left fun i hi => ?_)
    refine leavesEntry_congr (hm table h.1 i) fun hp hs hl => ?_
    have hi := h.2 i (mem_range.1 hi) hp
    rw [if_neg (by simp [hs]), if_pos hl] at hi
    exact leaves_congr hm hi.2.2

end

/-! ## What a part of a clone changes -/

/-- From `s` to `s'` the clone took the references `h`, on top of `out`. -/
structure Grown (usable live : Nat → Prop) (dest : Nat) (s s' : Vm) (out h : Nat → Nat) : Prop where
  accounts : Accounts usable s'.pmm fun p => out p + h p
  total : s'.pmm.totalPages = s.pmm.totalPages
  old : ∀ f, live f → ∀ i, SameWalk (s.mem f i) (s'.mem f i)
  kept : ∀ f, ¬ live f → f ≠ dest → 0 < out f → s'.mem f = s.mem f

section
variable {usable live : Nat → Prop} {dest : Nat} {s s1 s2 : Vm} {out h h' : Nat → Nat}

theorem Grown.refl (ha : Accounts usable s.pmm out) : Grown usable live dest s s out fun _ => 0 :=
  ⟨ha, rfl, fun _ _ _ => SameWalk.refl _, fun _ _ _ _ => rfl⟩

theorem Grown.trans (h1 : Grown usable live dest s s1 out h) (h2 : Grown usable live dest s1 s2 (fun p => out p + h p) h') :
    Grown usable live dest s s2 out fun p => h p + h' p := by
  refine ⟨?_, h2.total.trans h1.total, fun f hf i => (h1.old f hf i).trans (h2.old f hf i), fun f hl hd hf => ?_⟩
  · have heq : (fun p => out p + (h p + h' p)) = fun p => out p + h p + h' p := by
      funext p
      omega
    rw [heq]
    exact h2.accounts
  · rw [h2.kept f hl hd (by omega), h1.kept f hl hd hf]

end

theorem write_mem (s : Vm) (t i : Nat) (e : BitVec 64) (f j : Nat) :
    (s.write t i e).mem f j = if f = t ∧ j = i then e else s.mem f j := by
  unfold write
  by_cases hf : f = t
  · subst hf
    by_cases hj : j = i
    · subst hj
      simp
    · simp [hj]
  · simp [hf]

variable {s : Vm} {f t : Nat}

theorem write_mem_ne {i : Nat} {e : BitVec 64} (hf : f ≠ t) : (s.write t i e).mem f = s.mem f := by
  unfold write
  simp [hf]

theorem zeroPage_mem_ne (hf : f ≠ t) : (s.zeroPage t).mem f = s.mem f := by
  unfold zeroPage
  simp [hf]

theorem copyPage_mem_ne {src : Nat} (hf : f ≠ t) : (s.copyPage t src).mem f = s.mem f := by
  unfold copyPage
  simp [hf]

variable {usable : Nat → Prop} {out : Nat → Nat}

theorem allocPage_accounts (ha : Accounts usable s.pmm out) :
    (∃ s', s.allocPage = (s', none) ∧ s'.mem = s.mem ∧ s'.pmm.totalPages = s.pmm.totalPages ∧ Accounts usable s'.pmm out) ∨
    ∃ s' p, s.allocPage = (s', some p) ∧ s'.mem = s.mem ∧ s'.pmm.totalPages = s.pmm.totalPages ∧
      p < s.pmm.totalPages ∧ usable p ∧ out p = 0 ∧ Accounts usable s'.pmm (Ledger.gain out p) := by
  unfold allocPage
  obtain ⟨p, rover, hpos, hp, hc, heq⟩ | ⟨rover, _, heq⟩ := Pmm.pmmAllocPage_spec ha.pageZero
  · right
    have hne : p * PAGE_SIZE ≠ 0 := Nat.mul_ne_zero (by omega) (by decide)
    have huse := (ha.page p hp).clear_iff.1 hc
    simp only [heq, if_neg hne, Nat.mul_div_cancel p (show 0 < PAGE_SIZE by decide)]
    exact ⟨_, p, rfl, rfl, rfl, hp, huse.1, huse.2, (ha.take hp hc).ofRover rover⟩
  · left
    simp only [heq, if_pos]
    exact ⟨_, rfl, rfl, rfl, ha.ofRover rover⟩

/-! ## One entry -/

/-- The frames a part of the clone made: unused before, and counted since. -/
def made (live : Nat → Prop) (dest : Nat) (out h : Nat → Nat) (f : Nat) : Prop :=
  ¬ live f ∧ f ≠ dest ∧ out f = 0 ∧ 0 < h f

def OwnedEntry (m : Nat → Nat → BitVec 64) (N : Nat → Prop) (level : Nat) (e : BitVec 64) : Prop :=
  present e = true → user e = true → ¬ ((level + 1 = 3 ∨ level + 1 = 2) ∧ huge e = true) → Owned m N level (frameOf e)

structure Ready (usable live : Nat → Prop) (dest : Nat) (s : Vm) (out : Nat → Nat) : Prop where
  accounts : Accounts usable s.pmm out
  held : ∀ f, live f → usable f → 0 < out f
  frames : s.pmm.totalPages ≤ 2 ^ 40
  dest_new : ¬ live dest
  dest_held : 0 < out dest

theorem Ready.fresh {live : Nat → Prop} {dest : Nat} (h : Ready usable live dest s out)
    {p : Nat} (hu : usable p) (h0 : out p = 0) : ¬ live p ∧ p ≠ dest := by
  refine ⟨fun hl => ?_, fun hd => ?_⟩
  · have := h.held p hl hu
    omega
  · have := h.dest_held
    rw [hd] at h0
    omega

theorem Ready.grown {live : Nat → Prop} {dest : Nat} {s' : Vm} {h : Nat → Nat}
    (hr : Ready usable live dest s out) (hg : Grown usable live dest s s' out h) :
    Ready usable live dest s' fun p => out p + h p :=
  ⟨hg.accounts, fun f hl hu => Nat.lt_of_lt_of_le (hr.held f hl hu) (Nat.le_add_right _ _), hg.total ▸ hr.frames,
    hr.dest_new, Nat.lt_of_lt_of_le hr.dest_held (Nat.le_add_right _ _)⟩

structure EntryDone (usable live : Nat → Prop) (sharedFree : Prop) (level dest i : Nat) (s s' : Vm)
    (out h : Nat → Nat) (bound : List Nat) : Prop where
  grown : Grown usable live dest s s' out h
  other : ∀ j, j ≠ i → s'.mem dest j = s.mem dest j
  shares : ∀ p, live p → h p ≤ bound.count p
  gives : sharedFree → ∀ p, (freedEntry (freed s'.mem level) (level + 1) (s'.mem dest i)).count p = h p
  owned : sharedFree → OwnedEntry s'.mem (made live dest out h) level (s'.mem dest i)

section
variable {usable live : Nat → Prop} {sharedFree : Prop} {level dest src i : Nat} {s : Vm} {out : Nat → Nat}

theorem EntryDone.idle {s' : Vm} {bound : List Nat} (hg : Grown usable live dest s s' out fun _ => 0)
    (hother : ∀ j, j ≠ i → s'.mem dest j = s.mem dest j)
    (he : sharedFree → present (s'.mem dest i) = false ∨ user (s'.mem dest i) = false) :
    EntryDone usable live sharedFree level dest i s s' out (fun _ => 0) bound := by
  refine ⟨hg, hother, fun _ _ => Nat.zero_le _, fun hf p => ?_, fun hf hp hu _ => ?_⟩
  · unfold freedEntry
    rcases he hf with he | he <;> simp [he]
  · rcases he hf with he | he
    · rw [he] at hp
      cases hp
    · rw [he] at hu
      cases hu

theorem write_dest_grown (hr : Ready usable live dest s out) (e : BitVec 64) :
    Grown usable live dest s (s.write dest i e) out fun _ => 0 := by
  refine ⟨hr.accounts, rfl, fun f hf j => ?_, fun f _ hd _ => write_mem_ne hd⟩
  have hne : f ≠ dest := fun h => hr.dest_new (h ▸ hf)
  rw [write_mem_ne hne]
  exact SameWalk.refl _

variable {e : BitVec 64}

theorem write_dest_other : ∀ j, j ≠ i → (s.write dest i e).mem dest j = s.mem dest j := by
  intro j hj
  rw [write_mem, if_neg (by simp [hj])]

theorem zero_not_present : present 0#64 = false := by decide

def one (f p : Nat) : Nat := if p = f then 1 else 0

theorem count_single (f p : Nat) : [f].count p = one f p := by
  unfold one
  by_cases hp : p = f
  · simp [hp]
  · simp [hp, Ne.symm hp]

theorem gain_eq (out : Nat → Nat) (f : Nat) : Ledger.gain out f = fun p => out p + one f p := by
  funext p
  unfold Ledger.gain one
  by_cases hp : p = f
  · simp [hp]
  · simp [hp]

theorem EntryDone.page {s' : Vm} {f : Nat} {bound : List Nat}
    (hg : Grown usable live dest s s' out (one f)) (hother : ∀ j, j ≠ i → s'.mem dest j = s.mem dest j)
    (hshares : live f → f ∈ bound) (he : s'.mem dest i = e) (hp : present e = true) (hu : user e = true)
    (hf : frameOf e = f) : EntryDone usable live sharedFree 0 dest i s s' out (one f) bound := by
  refine ⟨hg, hother, fun p hl => ?_, fun _ p => ?_, fun _ _ _ _ => trivial⟩
  · unfold one
    split
    · rename_i hpf
      subst hpf
      exact count_pos_iff.2 (hshares hl)
    · exact Nat.zero_le _
  · rw [he, ← count_single]
    simp [freedEntry, hp, hu, hf]

theorem cloneLeaf_cow (sharedFree : Prop) (hr : Ready usable live dest s out) (hsrc : live src) (he : s.mem src i = e)
    (hlive : live (frameOf e)) (hp : present e = true) (hu : user e = true) (hbound : out (frameOf e) + 1 < 65535) :
    ∃ s', ((s.write src i (cowEntry e)).write dest i (cowEntry e)).refFrame (frameOf e) = .ok s' ∧
      EntryDone usable live sharedFree 0 dest i s s' out (one (frameOf e)) [frameOf e] := by
  have hne : src ≠ dest := fun h => hr.dest_new (h ▸ hsrc)
  have hwalk := cowEntry_sameWalk e
  have hframe := hwalk.frame
  generalize frameOf e = f at *
  have hdiv : f * PAGE_SIZE / PAGE_SIZE = f := Nat.mul_div_cancel f (by decide)
  have hlt : out (f * PAGE_SIZE / PAGE_SIZE) + 1 < 65535 := by
    rw [hdiv]
    exact hbound
  have hshare : usable (f * PAGE_SIZE / PAGE_SIZE) → 0 < out (f * PAGE_SIZE / PAGE_SIZE) := by
    rw [hdiv]
    exact hr.held f hlive
  obtain ⟨pmm, hok, hacc⟩ := hr.accounts.ref hlt hshare
  rw [hdiv, gain_eq] at hacc
  generalize ht : (s.write src i (cowEntry e)).write dest i (cowEntry e) = t
  have htp : t.pmm = s.pmm := by
    rw [← ht]
    rfl
  refine ⟨{ t with pmm := pmm }, ?_, EntryDone.page (e := cowEntry e) ⟨hacc, (Pmm.pmmRefPage_bits hok).2, fun g hg j => ?_,
    fun g hgl hgd _ => ?_⟩ (fun j hj => ?_) (fun _ => mem_singleton_self f) ?_ (hwalk.present.trans hp)
    (hwalk.user.trans hu) hframe⟩
  · unfold refFrame
    rw [htp, hok]
    rfl
  · have hgd : g ≠ dest := fun h => hr.dest_new (h ▸ hg)
    show SameWalk (s.mem g j) (t.mem g j)
    rw [← ht, write_mem_ne hgd, write_mem]
    split
    · rename_i hgj
      rw [hgj.1, hgj.2, he]
      exact hwalk
    · exact SameWalk.refl _
  · have hgs : g ≠ src := fun h => hgl (h ▸ hsrc)
    show t.mem g = s.mem g
    rw [← ht, write_mem_ne hgd, write_mem_ne hgs]
  · show t.mem dest j = s.mem dest j
    rw [← ht, write_dest_other j hj, write_mem_ne (Ne.symm hne)]
  · show t.mem dest i = cowEntry e
    rw [← ht, write_mem, if_pos ⟨rfl, rfl⟩]

theorem cloneLeaf_copy (hr : Ready usable live dest s out) {t : Vm} {p : Nat} (htm : t.mem = s.mem)
    (htt : t.pmm.totalPages = s.pmm.totalPages) (hp : p < s.pmm.totalPages) (hup : usable p) (hout : out p = 0)
    (hacc : Accounts usable t.pmm (Ledger.gain out p)) (hpe : present e = true) (hu : user e = true) (bound : List Nat) :
    EntryDone usable live sharedFree 0 dest i s ((t.copyPage p (frameOf e)).write dest i (addrOf p ||| flagsOf e)) out
      (one p) bound := by
  obtain ⟨hpl, hpd⟩ := hr.fresh hup hout
  obtain ⟨hp', hu', -⟩ := reframe_sameFlags e (p := p) (f := flagsOf e) fun k hk => flagsOf_bit e hk
  rw [gain_eq] at hacc
  refine EntryDone.page (e := addrOf p ||| flagsOf e) ⟨hacc, htt, fun g hg j => ?_, fun g _ hgd hpos => ?_⟩
    (fun j hj => ?_) (fun h => absurd h hpl) ?_ (hp'.trans hpe) (hu'.trans hu)
    (frameOf_addrOf_or (Nat.lt_of_lt_of_le hp hr.frames) (flagsOf_mask e))
  · have hgd : g ≠ dest := fun h => hr.dest_new (h ▸ hg)
    have hgp : g ≠ p := fun h => hpl (h ▸ hg)
    rw [write_mem_ne hgd, copyPage_mem_ne hgp, htm]
    exact SameWalk.refl _
  · have hgp : g ≠ p := fun h => by
      rw [h] at hpos
      omega
    rw [write_mem_ne hgd, copyPage_mem_ne hgp, htm]
  · rw [write_dest_other j hj, copyPage_mem_ne (Ne.symm hpd), htm]
  · rw [write_mem, if_pos ⟨rfl, rfl⟩]

theorem cloneLeaf_done (sharedFree : Prop) (asCow : Bool) (hr : Ready usable live dest s out) (hsrc : live src)
    (hleaf : user (s.mem src i) = true → live (frameOf (s.mem src i)))
    (hp : present (s.mem src i) = true) (hzero : s.mem dest i = 0#64)
    (hbound : user (s.mem src i) = true → out (frameOf (s.mem src i)) + 1 < 65535) :
    ∃ s' h, cloneLeaf asCow dest src i s = .ok s' ∧
      EntryDone usable live sharedFree 0 dest i s s' out h (if user (s.mem src i) then [frameOf (s.mem src i)] else []) := by
  unfold cloneLeaf
  dsimp only
  split
  · rename_i hu
    refine ⟨_, _, rfl, EntryDone.idle (write_dest_grown hr _) write_dest_other fun _ => .inr ?_⟩
    rw [write_mem, if_pos ⟨rfl, rfl⟩]
    simpa using hu
  rename_i hu
  have hu : user (s.mem src i) = true := by simpa using hu
  rw [if_pos hu]
  split
  · obtain ⟨s', hok, hdone⟩ := cloneLeaf_cow (i := i) sharedFree hr hsrc rfl (hleaf hu) hp hu (hbound hu)
    exact ⟨s', _, hok, hdone⟩
  · obtain ⟨t, heq, htm, htt, hta⟩ | ⟨t, p, heq, htm, htt, hpt, hup, hout, hta⟩ := allocPage_accounts hr.accounts
    · -- out of memory: the entry stays empty
      rw [heq]
      refine ⟨t, fun _ => 0, rfl, EntryDone.idle ⟨hta, htt, fun f _ j => ?_, fun f _ _ _ => ?_⟩ (fun j _ => ?_)
        fun _ => .inl ?_⟩
      · rw [htm]
        exact SameWalk.refl _
      · rw [htm]
      · rw [htm]
      · rw [htm, hzero]
        exact zero_not_present
    · rw [heq]
      exact ⟨_, _, rfl, cloneLeaf_copy hr htm htt hpt hup hout hta hp hu _⟩

end

/-! ## A whole table -/

structure Done (usable live : Nat → Prop) (sharedFree : Prop) (level dest : Nat) (s s' : Vm) (out h : Nat → Nat)
    (bound : List Nat) : Prop where
  grown : Grown usable live dest s s' out h
  shares : ∀ p, live p → h p ≤ bound.count p
  gives : sharedFree → ∀ p, (freed s'.mem level dest).count p = h p
  owned : sharedFree → Owned s'.mem (fun f => f = dest ∨ made live dest out h f) level dest

def CloneSpec (asCow : Bool) (usable live : Nat → Prop) (sharedFree : Prop) (level : Nat) : Prop :=
  ∀ dest src s out, Ready usable live dest s out → (∀ i < 512, s.mem dest i = 0#64) →
    SrcOk live sharedFree s.mem level src → (∀ p, live p → out p + (leaves s.mem level src).count p < 65535) →
    ∃ s' h, clonePt asCow level dest src s = .ok s' ∧
    Done usable live sharedFree level dest s s' out h (leaves s.mem level src)

section
variable {asCow : Bool} {usable live : Nat → Prop} {sharedFree : Prop} {level dest src i : Nat} {s : Vm}
  {out : Nat → Nat}

theorem cloneTable_done (hspec : CloneSpec asCow usable live sharedFree level) (hlevel : 0 < level)
    (hr : Ready usable live dest s out) (hsrc : live src) (hzero : s.mem dest i = 0#64)
    (hp : present (s.mem src i) = true) (hu : user (s.mem src i) = true) (hh : huge (s.mem src i) = false)
    (hchild : SrcOk live sharedFree s.mem level (frameOf (s.mem src i)))
    (hbound : ∀ p, live p → out p + (leaves s.mem level (frameOf (s.mem src i))).count p < 65535)
    (hshared : sharedEntry (level + 1) i = false) :
    ∃ s' h go, cloneBody asCow (clonePt asCow level) (level + 1) dest src i s = .ok (s', go) ∧
      EntryDone usable live sharedFree level dest i s s' out h (leaves s.mem level (frameOf (s.mem src i))) := by
  unfold cloneBody
  rw [if_neg (by simp [hp]), if_neg (by simp [hshared]), if_pos (by omega)]
  obtain ⟨t, heq, htm, htt, hta⟩ | ⟨t, p, heq, htm, htt, hpt, hup, hout, hta⟩ := allocPage_accounts hr.accounts
  · rw [heq]
    refine ⟨t, fun _ => 0, false, rfl, EntryDone.idle ⟨hta, htt, fun f _ j => ?_, fun f _ _ _ => ?_⟩ (fun j _ => ?_)
      fun _ => .inl ?_⟩
    · rw [htm]
      exact SameWalk.refl _
    · rw [htm]
    · rw [htm]
    · rw [htm, hzero]
      exact zero_not_present
  obtain ⟨hpl, hpd⟩ := hr.fresh hup hout
  rw [heq]
  dsimp only
  rw [htm]
  have hmem : ∀ f, f ≠ p → (t.zeroPage p).mem f = s.mem f := fun f hf => by rw [zeroPage_mem_ne hf, htm]
  have hwalk : ∀ f, live f → ∀ j, SameWalk (s.mem f j) ((t.zeroPage p).mem f j) := fun f hf j => by
    rw [hmem f fun h => hpl (h ▸ hf)]
    exact SameWalk.refl _
  have hgain : ∀ f, out f ≤ Ledger.gain out p f := fun f => by
    rw [gain_eq]
    exact Nat.le_add_right _ _
  have hready : Ready usable live p (t.zeroPage p) (Ledger.gain out p) := by
    refine ⟨hta, fun f hl hf => (hr.held f hl hf).trans_le (hgain f), htt ▸ hr.frames, hpl, ?_⟩
    rw [gain_eq]
    simp [one]
  have hleaves := leaves_congr hwalk hchild
  have hbound' : ∀ q, live q →
      Ledger.gain out p q + (leaves (t.zeroPage p).mem level (frameOf (s.mem src i))).count q < 65535 := fun q hq => by
    have hqp : q ≠ p := fun h => hpl (h ▸ hq)
    rw [hleaves, Ledger.gain, Function.update_of_ne hqp]
    exact hbound q hq
  have hz : ∀ j < 512, (t.zeroPage p).mem p j = 0#64 := fun j _ => by simp [zeroPage]
  obtain ⟨sb, hb, hok, hdone⟩ := hspec p _ (t.zeroPage p) (Ledger.gain out p) hready hz (hchild.congr hwalk) hbound'
  rw [hok]
  dsimp only
  -- the frames below the new table are not the table the entry goes into
  have hnd : ∀ f, f = p ∨ made live p (Ledger.gain out p) hb f → f ≠ dest := by
    rintro f (rfl | ⟨_, _, h0, _⟩)
    · exact hpd
    · intro hfd
      have := hgain f
      have := hr.dest_held
      rw [← hfd] at this
      omega
  have hdestmem : sb.mem dest = s.mem dest := by
    rw [hdone.grown.kept dest hr.dest_new (Ne.symm hpd) (hr.dest_held.trans_le (hgain dest)), hmem dest (Ne.symm hpd)]
  have hsrcwalk : SameWalk (s.mem src i) (sb.mem src i) := (hwalk src hsrc i).trans (hdone.grown.old src hsrc i)
  obtain ⟨hp', hu', hh'⟩ := reframe_sameFlags (sb.mem src i) (p := p) (f := sb.mem src i &&& 0xFFF#64)
    fun k hk => low12_bit _ hk
  have hframe : frameOf (addrOf p ||| (sb.mem src i &&& 0xFFF#64)) = p :=
    frameOf_addrOf_or (Nat.lt_of_lt_of_le hpt hr.frames) (low12_mask _)
  generalize hE : addrOf p ||| (sb.mem src i &&& 0xFFF#64) = E at *
  rw [hsrcwalk.present, hp] at hp'
  rw [hsrcwalk.user, hu] at hu'
  rw [hsrcwalk.huge, hh] at hh'
  have hsub : ∀ f, f = p ∨ made live p (Ledger.gain out p) hb f → (sb.write dest i E).mem f = sb.mem f :=
    fun f hf => write_mem_ne (hnd f hf)
  have hentry : (sb.write dest i E).mem dest i = E := by rw [write_mem, if_pos ⟨rfl, rfl⟩]
  refine ⟨sb.write dest i E, fun q => one p q + hb q, true, rfl, ⟨?_, hdone.grown.total.trans htt, fun f hf j => ?_,
    fun f hfl hfd hpos => ?_⟩, fun j hj => ?_, fun q hq => ?_, fun hF q => ?_, fun hF _ _ _ => ?_⟩
  · have hsum : (fun q => out q + (one p q + hb q)) = fun q => Ledger.gain out p q + hb q := by
      rw [gain_eq]
      funext q
      exact (Nat.add_assoc _ _ _).symm
    rw [hsum]
    exact hdone.grown.accounts
  · rw [write_mem_ne fun h : f = dest => hr.dest_new (h ▸ hf)]
    exact (hwalk f hf j).trans (hdone.grown.old f hf j)
  · have hfp : f ≠ p := fun h => by
      rw [h] at hpos
      omega
    rw [write_mem_ne hfd, hdone.grown.kept f hfl hfp (hpos.trans_le (hgain f)), hmem f hfp]
  · rw [write_dest_other j hj, hdestmem]
  · have hqp : q ≠ p := fun h => hpl (h ▸ hq)
    have := hdone.shares q hq
    rw [hleaves] at this
    simpa [one, hqp] using this
  · rw [hentry]
    unfold freedEntry
    rw [if_neg (by simp [hp']), if_neg (by simp [hu']), if_neg (by simp [hh']), if_pos (by omega), hframe,
      count_append, count_single, freed_congr hsub level p (hdone.owned hF), hdone.gives hF q]
    omega
  · rw [hentry, hframe]
    refine (hdone.owned hF).congr hsub ?_
    rintro f (rfl | ⟨hfl, hfp, h0, hpos⟩)
    · have hone : one f f = 1 := if_pos rfl
      exact ⟨hpl, hpd, hout, Nat.lt_of_lt_of_le (hone ▸ Nat.one_pos) (Nat.le_add_right _ _)⟩
    · refine ⟨hfl, hnd f (.inr ⟨hfl, hfp, h0, hpos⟩), ?_, Nat.lt_of_lt_of_le hpos (Nat.le_add_left _ _)⟩
      have := hgain f
      omega

theorem cloneBody_done (hspec : CloneSpec asCow usable live sharedFree level) (hr : Ready usable live dest s out)
    (hsrc : SrcOk live sharedFree s.mem (level + 1) src) (hi : i < 512) (hzero : s.mem dest i = 0#64)
    (hbound : ∀ p, live p → out p + (leavesEntry (leaves s.mem level) (level + 1) i (s.mem src i)).count p < 65535) :
    ∃ s' h go, cloneBody asCow (clonePt asCow level) (level + 1) dest src i s = .ok (s', go) ∧
      EntryDone usable live sharedFree level dest i s s' out h
        (leavesEntry (leaves s.mem level) (level + 1) i (s.mem src i)) := by
  by_cases hp : present (s.mem src i) = true
  · have hentry := hsrc.2 i hi hp
    by_cases hs : sharedEntry (level + 1) i = true
    · rw [if_pos hs] at hentry
      refine ⟨s.write dest i (s.mem src i), _, true, ?_, EntryDone.idle (write_dest_grown hr _) write_dest_other
        fun hF => .inr ?_⟩
      · simp [cloneBody, hp, hs]
      · rw [write_mem, if_pos ⟨rfl, rfl⟩]
        exact hentry hF
    · rw [if_neg hs] at hentry
      have hs' : sharedEntry (level + 1) i = false := by simpa using hs
      unfold leavesEntry at hbound ⊢
      rw [if_neg (by simp [hp]), if_neg (by simp [hs'])] at hbound ⊢
      by_cases hl : level + 1 > 1
      · rw [if_pos hl] at hentry hbound ⊢
        exact cloneTable_done hspec (by omega) hr hsrc.1 hzero hp hentry.1 hentry.2.1 hentry.2.2 hbound hs'
      · have hl0 : level = 0 := by omega
        subst hl0
        rw [if_neg hl] at hentry hbound ⊢
        have hb : user (s.mem src i) = true → out (frameOf (s.mem src i)) + 1 < 65535 := fun hu => by
          have := hbound _ (hentry hu)
          rw [if_pos hu, count_singleton_self] at this
          exact this
        obtain ⟨s', h, hok, hdone⟩ := cloneLeaf_done sharedFree asCow hr hsrc.1 hentry hp hzero hb
        refine ⟨s', h, true, ?_, hdone⟩
        simp [cloneBody, hp, hs', hok, Except.map]
  · have hp' : present (s.mem src i) = false := by simpa using hp
    refine ⟨s, _, true, ?_, EntryDone.idle (Grown.refl hr.accounts) (fun _ _ => rfl) fun _ => .inl ?_⟩
    · simp [cloneBody, hp']
    · rw [hzero]
      exact zero_not_present

structure LoopDone (usable live : Nat → Prop) (sharedFree : Prop) (level dest : Nat) (is : List Nat) (s s' : Vm)
    (out h : Nat → Nat) (bound : List Nat) : Prop where
  grown : Grown usable live dest s s' out h
  other : ∀ j, j ∉ is → s'.mem dest j = s.mem dest j
  shares : ∀ p, live p → h p ≤ bound.count p
  gives : sharedFree → ∀ p,
    (is.flatMap fun i => freedEntry (freed s'.mem level) (level + 1) (s'.mem dest i)).count p = h p
  owned : sharedFree → ∀ i ∈ is, OwnedEntry s'.mem (made live dest out h) level (s'.mem dest i)

theorem freedEntry_zero (below : Nat → List Nat) : freedEntry below level 0#64 = [] := by
  simp [freedEntry, zero_not_present]

theorem flatMap_zero {m : Nat → Nat → BitVec 64} {below : Nat → List Nat} : ∀ {is : List Nat},
    (∀ i ∈ is, m dest i = 0#64) → (is.flatMap fun i => freedEntry below level (m dest i)) = []
  | [], _ => rfl
  | i :: is, h => by
    rw [flatMap_cons, h i mem_cons_self, freedEntry_zero, flatMap_zero fun j hj => h j (mem_cons_of_mem _ hj)]
    rfl

theorem cloneLoop_done (hspec : CloneSpec asCow usable live sharedFree level) : ∀ (is : List Nat) (s : Vm)
    (out : Nat → Nat), is.Nodup → (∀ i ∈ is, i < 512) → Ready usable live dest s out →
    SrcOk live sharedFree s.mem (level + 1) src → (∀ i ∈ is, s.mem dest i = 0#64) →
    (∀ p, live p → out p + (is.flatMap fun i => leavesEntry (leaves s.mem level) (level + 1) i (s.mem src i)).count p <
      65535) →
    ∃ s' h, forEntries (cloneBody asCow (clonePt asCow level) (level + 1) dest src) is s = .ok s' ∧
      LoopDone usable live sharedFree level dest is s s' out h
        (is.flatMap fun i => leavesEntry (leaves s.mem level) (level + 1) i (s.mem src i))
  | [], s, out, _, _, hr, _, _, _ =>
    ⟨s, fun _ => 0, rfl, Grown.refl hr.accounts, fun _ _ => rfl, fun _ _ => Nat.zero_le _, fun _ _ => rfl,
      fun _ i hi => by cases hi⟩
  | i :: is, s, out, hnd, hlt, hr, hsrc, hzero, hbound => by
    obtain ⟨hni, hnd'⟩ := nodup_cons.1 hnd
    have hcount : ∀ p, ((i :: is).flatMap fun i => leavesEntry (leaves s.mem level) (level + 1) i (s.mem src i)).count p =
        (leavesEntry (leaves s.mem level) (level + 1) i (s.mem src i)).count p +
          (is.flatMap fun i => leavesEntry (leaves s.mem level) (level + 1) i (s.mem src i)).count p := fun p => by
      rw [flatMap_cons, count_append]
    obtain ⟨s1, h1, go, hok, hd⟩ := cloneBody_done hspec hr hsrc (hlt i mem_cons_self) (hzero i mem_cons_self)
      fun p hp => by
        have := hbound p hp
        rw [hcount] at this
        omega
    have hzero1 : ∀ j ∈ is, s1.mem dest j = 0#64 := fun j hj => by
      rw [hd.other j fun h => hni (h ▸ hj)]
      exact hzero j (mem_cons_of_mem _ hj)
    cases go with
    | false =>
      -- out of memory: the entries behind this one stay empty
      refine ⟨s1, h1, by rw [forEntries, hok], hd.grown, fun j hj => hd.other j fun h => hj (h ▸ mem_cons_self),
        fun p hp => ?_, fun hF p => ?_, fun hF j hj => ?_⟩
      · rw [hcount]
        exact (hd.shares p hp).trans (Nat.le_add_right _ _)
      · rw [flatMap_cons, flatMap_zero hzero1, append_nil]
        exact hd.gives hF p
      · rcases mem_cons.1 hj with rfl | hj
        · exact hd.owned hF
        · intro hp
          rw [hzero1 j hj, zero_not_present] at hp
          cases hp
    | true =>
      have hleaves : (is.flatMap fun i => leavesEntry (leaves s1.mem level) (level + 1) i (s1.mem src i)) =
          is.flatMap fun i => leavesEntry (leaves s.mem level) (level + 1) i (s.mem src i) := by
        rw [flatMap_def, flatMap_def]
        refine congrArg List.flatten (map_congr_left fun j hj => ?_)
        refine leavesEntry_congr (hd.grown.old src hsrc.1 j) fun hp hs hl => ?_
        have hj' := hsrc.2 j (hlt j (mem_cons_of_mem _ hj)) hp
        rw [if_neg (by simp [hs]), if_pos hl] at hj'
        exact leaves_congr hd.grown.old hj'.2.2
      obtain ⟨s2, h2, hok2, hd2⟩ := cloneLoop_done hspec is s1 (fun p => out p + h1 p) hnd'
        (fun j hj => hlt j (mem_cons_of_mem _ hj)) (hr.grown hd.grown) (hsrc.congr hd.grown.old) hzero1
        fun p hp => by
          have hb := hbound p hp
          have hs := hd.shares p hp
          rw [hcount] at hb
          rw [hleaves]
          omega
      rw [hleaves] at hd2
      have hkeep : ∀ f, made live dest out h1 f → s2.mem f = s1.mem f := fun f hf =>
        hd2.grown.kept f hf.1 hf.2.1 (Nat.lt_of_lt_of_le hf.2.2.2 (Nat.le_add_left _ _))
      have hent : s2.mem dest i = s1.mem dest i := hd2.other i hni
      refine ⟨s2, fun p => h1 p + h2 p, ?_, hd.grown.trans hd2.grown, fun j hj => ?_, fun p hp => ?_, fun hF p => ?_,
        fun hF j hj => ?_⟩
      · rw [forEntries, hok]
        exact hok2
      · rw [hd2.other j fun h => hj (mem_cons_of_mem _ h), hd.other j fun h => hj (h ▸ mem_cons_self)]
      · rw [hcount]
        exact Nat.add_le_add (hd.shares p hp) (hd2.shares p hp)
      · have hsame : freedEntry (freed s2.mem level) (level + 1) (s1.mem dest i) =
            freedEntry (freed s1.mem level) (level + 1) (s1.mem dest i) := by
          unfold freedEntry
          split
          · rfl
          rename_i hp
          split
          · rfl
          rename_i hu
          split
          · rfl
          rename_i hh
          split
          · rw [freed_congr hkeep level _ (hd.owned hF (by simpa using hp) (by simpa using hu) hh)]
          · rfl
        rw [flatMap_cons, count_append, hent, hsame, hd.gives hF p, hd2.gives hF p]
      · rcases mem_cons.1 hj with rfl | hj
        · rw [hent]
          intro hp hu hh
          exact (hd.owned hF hp hu hh).congr hkeep fun f hf =>
            ⟨hf.1, hf.2.1, hf.2.2.1, Nat.lt_of_lt_of_le hf.2.2.2 (Nat.le_add_right _ _)⟩
        · intro hp hu hh
          refine (hd2.owned hF j hj hp hu hh).congr (fun _ _ => rfl) fun f hf => ?_
          obtain ⟨hfl, hfd, h0, hpos⟩ := hf
          exact ⟨hfl, hfd, (Nat.add_eq_zero_iff.1 h0).1, Nat.lt_of_lt_of_le hpos (Nat.le_add_left _ _)⟩

theorem clonePt_done (asCow : Bool) : ∀ level, CloneSpec asCow usable live sharedFree level
  | 0 => fun dest src s out hr _ _ _ =>
    ⟨s, fun _ => 0, rfl, Grown.refl hr.accounts, fun _ _ => Nat.zero_le _, fun _ _ => rfl, fun _ => trivial⟩
  | level + 1 => fun dest src s out hr hzero hsrc hbound => by
    obtain ⟨s', h, hok, hd⟩ := cloneLoop_done (clonePt_done asCow level) (List.range 512) s out nodup_range
      (fun i hi => mem_range.1 hi) hr hsrc (fun i hi => hzero i (mem_range.1 hi)) hbound
    refine ⟨s', h, hok, hd.grown, hd.shares, hd.gives, fun hF => ⟨.inl rfl, fun i hi hp hu hh => ?_⟩⟩
    exact (hd.owned hF i (mem_range.2 hi) hp hu hh).congr (fun _ _ => rfl) fun f hf => .inr hf

end

end Vm
end EterOS.Mm
