import EterOS.Fs.ElfSegments
/-!
# ElfFrames — where the frames of a rejected load are

A load that is turned down has only gone through the passes over PT_LOAD.  Each part of them leaves every frame that it was
given in a page or a table of the address space, and writes no frame that was neither there before nor given (`Took`).
-/
namespace EterOS.Elf

open Function (update update_self update_of_ne)
open Space

def Space.Owns (s : Space) (f : Nat) : Prop :=
  (∃ p a, s.pages p = some a ∧ a.frame = f) ∨ ∃ level k, s.tables level k = some f

structure Took (m : Machine) (s s' : Space) : Prop where
  calls : s.calls ≤ s'.calls
  task : s'.task = s.task
  owns : ∀ f, f ≠ 0 → s.Owns f → s'.Owns f
  given : ∀ i f, s.calls ≤ i → i < s'.calls → m.alloc i = some f → s'.Owns f
  frames : ∀ f, (∀ i, s.calls ≤ i → m.alloc i ≠ some f) → ¬ s.Owns f → s'.frames f = s.frames f
  back : ∀ f, s'.Owns f → s.Owns f ∨ ∃ i, s.calls ≤ i ∧ m.alloc i = some f

variable {m : Machine} {s s1 s' : Space} {n p va f : Nat} {b : UInt8} {src : Buffer}

theorem Took.refl (m : Machine) (s : Space) : Took m s s :=
  ⟨Nat.le_refl _, rfl, fun _ _ h => h, fun i f hi hi' _ => absurd hi' (by omega), fun _ _ _ => rfl, fun _ h => Or.inl h⟩

theorem Took.trans (hm : m.Honest) (h : Took m s s1) (h' : Took m s1 s') : Took m s s' := by
  refine ⟨h.calls.trans h'.calls, h'.task.trans h.task, fun f hf ho => h'.owns f hf (h.owns f hf ho),
    fun i f hi hi' hf => ?_, fun f hfree ho => ?_, fun f ho => ?_⟩
  · by_cases hi1 : i < s1.calls
    · exact h'.owns f (hm.pos i f hf) (h.given i f hi hi1 hf)
    · exact h'.given i f (Nat.le_of_not_lt hi1) hi' hf
  · have ho1 : ¬ s1.Owns f := fun ho1 => by
      rcases h.back f ho1 with ho1 | ⟨i, hi, hf⟩
      · exact ho ho1
      · exact hfree i hi hf
    exact (h'.frames f (fun i hi => hfree i (h.calls.trans hi)) ho1).trans (h.frames f hfree ho)
  · rcases h'.back f ho with ho | ⟨i, hi, hf⟩
    · exact h.back f ho
    · exact Or.inr ⟨i, h.calls.trans hi, hf⟩

theorem Took.notZero (hm : m.Honest) (h : Took m s s') (h0 : ¬ s.Owns 0) : ¬ s'.Owns 0 := by
  intro ho
  rcases h.back 0 ho with ho | ⟨i, _, hf⟩
  · exact h0 ho
  · exact hm.pos i 0 hf rfl

/-! ## Stores -/

theorem storeByte_took (m : Machine) (h : s.storeByte va b = some s') : Took m s s' := by
  unfold Space.storeByte Space.pageAt at h
  obtain ⟨a, ha, rfl⟩ := Option.map_eq_some_iff.1 h
  split at ha
  · refine ⟨Nat.le_refl _, rfl, fun _ _ h => h, fun i f hi hi' _ => absurd hi' (Nat.not_lt.2 hi), fun f _ ho => ?_,
      fun _ h => Or.inl h⟩
    have hne : f ≠ a.frame := fun hfa => ho (Or.inl ⟨_, a, ha, hfa.symm⟩)
    exact update_of_ne hne ..
  · cases ha

theorem store_took (hm : m.Honest) : ∀ {n : Nat} {s s' : Space} {va : Nat} {src : Buffer}, Space.store n s va src = some s' →
    Took m s s'
  | 0, s, _, _, _, h => by
    cases h
    exact Took.refl m s
  | n + 1, s, s', va, src, h => by
    obtain ⟨s1, h1, h2⟩ := Option.bind_eq_some_iff.1 h
    exact (storeByte_took m h1).trans hm (store_took hm h2)

/-! ## Tables and pages -/

theorem newTable_took {level k : Nat} (hf : m.alloc s.calls = some f) (hk : s.tables level k = none) :
    Took m s (s.newTable f level k) := by
  have howns : (s.newTable f level k).Owns f := Or.inr ⟨level, k, by rw [s.newTable_tables, if_pos ⟨rfl, rfl⟩]⟩
  refine ⟨Nat.le_succ _, rfl, fun g _ ho => ?_, fun i g hi hi' hg => ?_, fun g hfree _ => ?_, fun g ho => ?_⟩
  · refine ho.imp id fun ⟨l, j, hj⟩ => ⟨l, j, ?_⟩
    have hne : ¬ (l = level ∧ j = k) := by
      rintro ⟨rfl, rfl⟩
      rw [hk] at hj
      cases hj
    rw [s.newTable_tables, if_neg hne, hj]
  · have hi' : i < s.calls + 1 := hi'
    have hii : i = s.calls := by omega
    subst hii
    rw [hf, Option.some.injEq] at hg
    exact hg ▸ howns
  · have hne : g ≠ f := fun hgf => hfree _ (Nat.le_refl _) (hgf ▸ hf)
    exact update_of_ne hne ..
  · rcases ho with ho | ⟨l, j, hj⟩
    · exact Or.inl (Or.inl ho)
    · rw [s.newTable_tables] at hj
      split at hj
      · cases hj
        exact Or.inr ⟨_, Nat.le_refl _, hf⟩
      · exact Or.inl (Or.inr ⟨l, j, hj⟩)

theorem call_took (hf : m.alloc s.calls = none) : Took m s { s with calls := s.calls + 1 } := by
  refine ⟨Nat.le_succ _, rfl, fun _ _ h => h, fun i f hi hi' hf' => ?_, fun _ _ _ => rfl, fun _ h => Or.inl h⟩
  have hi' : i < s.calls + 1 := hi'
  have hii : i = s.calls := by omega
  rw [hii, hf] at hf'
  cases hf'

theorem walkTables_took (hm : m.Honest) : ∀ {levels : List Nat} {s : Space}, Took m s (walkTables m p levels s).1
  | [], s => Took.refl m s
  | level :: levels, s => by
    rw [walkTables]
    split
    · exact walkTables_took hm
    · rename_i hnone
      split
      · rename_i hf
        exact call_took hf
      · rename_i f hf
        exact (newTable_took hf (Option.not_isSome_iff_eq_none.1 hnone)).trans hm (walkTables_took hm)

theorem owns_setPage {a : Page} (h : ∀ c, s.pages p = some c → c.frame = a.frame ∨ c.frame = 0) :
    (∀ f, f ≠ 0 → s.Owns f → Space.Owns { s with pages := update s.pages p (some a) } f) ∧
      Space.Owns { s with pages := update s.pages p (some a) } a.frame ∧
      ∀ f, Space.Owns { s with pages := update s.pages p (some a) } f → f = a.frame ∨ s.Owns f := by
  have hself : Space.Owns { s with pages := update s.pages p (some a) } a.frame := Or.inl ⟨p, a, update_self .., rfl⟩
  refine ⟨fun f hf ho => ?_, hself, fun f ho => ?_⟩
  · rcases ho with ⟨q, c, hq, rfl⟩ | ho
    · by_cases hqp : q = p
      · subst hqp
        rcases h c hq with hc | hc
        · rw [hc]
          exact hself
        · exact absurd hc hf
      · exact Or.inl ⟨q, c, (update_of_ne hqp ..).trans hq, rfl⟩
    · exact Or.inr ho
  · rcases ho with ⟨q, c, hq, rfl⟩ | ho
    · by_cases hqp : q = p
      · subst hqp
        dsimp only at hq
        rw [update_self] at hq
        cases hq
        exact Or.inl rfl
      · dsimp only at hq
        rw [update_of_ne hqp] at hq
        exact Or.inr (Or.inl ⟨q, c, hq, rfl⟩)
    · exact Or.inr (Or.inr ho)

theorem remap_took (hm : m.Honest) (s : Space) (p : Nat) (w : Bool) :
    Took m s (if s.getPhys p ≠ 0 then halMemMap m s (s.getPhys p) p w else s) := by
  split
  · rename_i hphys
    cases hp : s.pages p with
    | none => exact absurd (by rw [Space.getPhys, hp]; rfl) hphys
    | some a =>
      have hframe : s.getPhys p = a.frame := by rw [Space.getPhys, hp]; rfl
      have hwalk : Took m s (walkTables m p [3, 2, 1] s).1 := walkTables_took hm
      have hpages := (walkTables_spec m p [3, 2, 1] s).1.pages
      rw [hframe]
      unfold Space.halMemMap Space.mapPage
      cases hr : walkTables m p [3, 2, 1] s with
      | mk s1 there =>
        rw [hr] at hwalk hpages
        cases there with
        | false => exact hwalk
        | true =>
          refine hwalk.trans hm ?_
          have hset := owns_setPage (s := s1) (p := p) (a := ⟨a.frame, w⟩) fun c hc => by
            rw [hpages, hp] at hc
            cases hc
            exact Or.inl rfl
          refine ⟨Nat.le_refl _, rfl, hset.1, fun i f hi hi' _ => absurd hi' (Nat.not_lt.2 hi), fun _ _ _ => rfl,
            fun f ho => ?_⟩
          rcases hset.2.2 f ho with rfl | ho
          · exact Or.inl (Or.inl ⟨p, a, by rw [hpages, hp], rfl⟩)
          · exact Or.inl ho
  · exact Took.refl m s

theorem newPage_took (hm : m.Honest) (h0 : ¬ s.Owns 0) (hp : s.getPhys p = 0) (hf : m.alloc s.calls = some f)
    (h : (halMemMap m { s with calls := s.calls + 1 } f p true).zeroPage p = some s') : Took m s s' := by
  have hnone : s.pages p = none := by
    cases hpage : s.pages p with
    | none => rfl
    | some a =>
      rw [Space.getPhys, hpage] at hp
      exact absurd (Or.inl ⟨p, a, hpage, hp⟩) h0
  have hwalk : Took m { s with calls := s.calls + 1 } (walkTables m p [3, 2, 1] { s with calls := s.calls + 1 }).1 :=
    walkTables_took hm
  have hpages := (walkTables_spec m p [3, 2, 1] { s with calls := s.calls + 1 }).1.pages
  unfold Space.halMemMap Space.mapPage at h
  cases hr : walkTables m p [3, 2, 1] { s with calls := s.calls + 1 } with
  | mk s1 there =>
    rw [hr] at hwalk hpages h
    have hnone1 : s1.pages p = none := by rw [hpages]; exact hnone
    cases there with
    | false =>
      simp only [Space.zeroPage, hnone1, Option.map_none] at h
      cases h
    | true =>
      have hset := owns_setPage (s := s1) (p := p) (a := ⟨f, true⟩) fun c hc => by
        rw [hnone1] at hc
        cases hc
      simp only [Space.zeroPage, update_self, Option.map_some, Option.some.injEq] at h
      subst h
      refine ⟨(Nat.le_succ _).trans hwalk.calls, hwalk.task, fun g hg ho => hset.1 g hg (hwalk.owns g hg ho),
        fun i g hi hi' hg => ?_, fun g hfree ho => ?_, fun g ho => ?_⟩
      · by_cases hii : i = s.calls
        · subst hii
          rw [hf] at hg
          cases hg
          exact hset.2.1
        · have hnext : s.calls + 1 ≤ i := by omega
          exact hset.1 g (hm.pos i g hg) (hwalk.given i g hnext hi' hg)
      · have hne : g ≠ f := fun hgf => hfree _ (Nat.le_refl _) (hgf ▸ hf)
        exact (update_of_ne hne ..).trans (hwalk.frames g (fun i hi => hfree i ((Nat.le_succ _).trans hi)) ho)
      · rcases hset.2.2 g ho with rfl | ho
        · exact Or.inr ⟨_, Nat.le_refl _, hf⟩
        · rcases hwalk.back g ho with ho' | ⟨i, hi, hi'⟩
          · exact .inl ho'
          · exact .inr ⟨i, (Nat.le_succ _).trans hi, hi'⟩

/-! ## The passes -/

/-- The space a part of a load leaves, whether it goes on or turns the file down. -/
def Leaves (r : Except Stop Space) (s' : Space) : Prop := r = .ok s' ∨ r = .error (.rejected s')

theorem leaves_ok (s : Space) : Leaves (.ok s) s' ↔ s' = s := by
  unfold Leaves
  constructor
  · rintro (h | h)
    · cases h; rfl
    · cases h
  · rintro rfl
    exact Or.inl rfl

theorem leaves_rejected (s : Space) : Leaves (.error (.rejected s)) s' ↔ s' = s := by
  unfold Leaves
  constructor
  · rintro (h | h)
    · cases h
    · cases h; rfl
  · rintro rfl
    exact Or.inr rfl

theorem not_leaves_fault : ¬ Leaves (.error .fault) s' := by
  rintro (h | h) <;> cases h

theorem pass1_took (hm : m.Honest) : ∀ {n p : Nat} {s s' : Space}, ¬ s.Owns 0 → Leaves (pass1 m n p s) s' → Took m s s'
  | 0, _, s, _, _, h => by
    obtain rfl := (leaves_ok s).1 h
    exact Took.refl m _
  | n + 1, p, s, s', h0, h => by
    rw [pass1] at h
    split at h
    · rename_i hphys
      split at h
      · rename_i hf
        rw [(leaves_rejected _).1 h]
        exact call_took hf
      · rename_i f hf
        split at h
        · exact absurd h not_leaves_fault
        · rename_i s1 hzero
          have hnew := newPage_took hm h0 hphys hf hzero
          exact hnew.trans hm (pass1_took hm (hnew.notZero hm h0) h)
    · exact pass1_took hm h0 h

theorem pass2_took (hm : m.Honest) {g : Segment} : ∀ {n p : Nat} {s : Space}, Took m s (pass2 m g n p s)
  | 0, _, s => Took.refl m s
  | n + 1, p, s => by
    rw [pass2]
    exact (remap_took hm s p _).trans hm (pass2_took hm)

theorem copySegment_took (hm : m.Honest) {nd : Node} {g : Segment} (h : Leaves (copySegment nd g s) s') : Took m s s' := by
  unfold copySegment at h
  split at h
  · rw [(leaves_ok _).1 h]
    exact Took.refl m s
  · split at h
    · exact absurd h not_leaves_fault
    · rename_i s1 hstore
      split at h
      · rw [(leaves_rejected _).1 h]
        exact store_took hm hstore
      · rw [(leaves_ok _).1 h]
        exact store_took hm hstore

theorem leaves_bind {c : Except Stop Space} {k : Space → Except Stop Space} (h : Leaves (c >>= k) s') :
    c = .error (.rejected s') ∨ ∃ s1, c = .ok s1 ∧ Leaves (k s1) s' := by
  cases c with
  | ok a => exact Or.inr ⟨a, rfl, h⟩
  | error e =>
    rcases h with h | h
    · cases h
    · exact Or.inl h

theorem loadSegment_took (hm : m.Honest) {nd : Node} {g : Segment} (h0 : ¬ s.Owns 0) (h : Leaves (loadSegment m nd g s) s') :
    Took m s s' := by
  unfold loadSegment at h
  split at h
  · rw [(leaves_rejected _).1 h]
    exact Took.refl m s
  · rcases leaves_bind h with h1 | ⟨s1, h1, h⟩
    · exact pass1_took hm h0 (Or.inr h1)
    · have ht1 := pass1_took hm h0 (Or.inl h1)
      rcases leaves_bind h with h2 | ⟨s2, h2, h⟩
      · exact ht1.trans hm (copySegment_took hm (Or.inr h2))
      · have hs' : s' = _ := (leaves_ok _).1 h
        rw [hs']
        exact (ht1.trans hm (copySegment_took hm (Or.inl h2))).trans hm (pass2_took hm)

theorem loadSegments_rejected (hm : m.Honest) {nd : Node} {h : Ehdr} {off : Nat} :
    ∀ {is : List Nat} {s : Space} {top : Nat}, ¬ s.Owns 0 → loadSegments m nd h off is s top = .error (.rejected s') →
    Took m s s'
  | [], _, _, _, hr => by cases hr
  | i :: is, s, top, h0, hr => by
    rw [loadSegments] at hr
    split at hr
    · cases hr
      exact Took.refl m s'
    split at hr
    · dsimp only at hr
      cases h1 : loadSegment m nd ((phdrOf nd h i).segment off) s with
      | error e =>
        rw [h1] at hr
        cases hr
        exact loadSegment_took hm h0 (Or.inr h1)
      | ok s1 =>
        rw [h1] at hr
        have ht1 := loadSegment_took hm h0 (Or.inl h1)
        exact ht1.trans hm (loadSegments_rejected hm (ht1.notZero hm h0) hr)
    · exact loadSegments_rejected hm h0 hr

/-! ## The rest turns nothing down -/

def Accepts {α : Type} (r : Except Stop α) : Prop := ∀ s, r ≠ .error (.rejected s)

theorem accepts_ok {α : Type} (a : α) : Accepts (.ok a : Except Stop α) := fun _ h => by cases h
theorem accepts_fault {α : Type} : Accepts (.error .fault : Except Stop α) := fun _ h => by cases h

theorem Accepts.bind {α β : Type} {c : Except Stop α} {k : α → Except Stop β} (hc : Accepts c) (hk : ∀ a, Accepts (k a)) :
    Accepts (c >>= k) := by
  cases c with
  | ok a => exact hk a
  | error e =>
    intro s h
    cases h
    exact hc s rfl

section
variable {loadLib : List UInt8 → Nat → Space → Except Stop Space} (hlib : ∀ path base s, Accepts (loadLib path base s))
include hlib

theorem loadNeeded_accepts {dyn strtab : Nat} : ∀ {n d : Nat} {s : Space}, Accepts (loadNeeded loadLib dyn strtab n d s)
  | 0, _, s => accepts_ok s
  | n + 1, d, s => by
    rw [loadNeeded]
    split
    · exact accepts_fault
    split
    · exact accepts_ok s
    split
    · split
      · exact accepts_fault
      dsimp only
      split
      · exact loadNeeded_accepts
      split
      · exact accepts_fault
      · exact (hlib _ _ _).bind fun s => loadNeeded_accepts
    · exact loadNeeded_accepts

theorem parseDynamic_accepts {ph : Phdr} {off : Nat} : Accepts (parseDynamic loadLib ph off s) := by
  unfold parseDynamic
  dsimp only
  split
  · exact accepts_ok s
  split
  · exact accepts_fault
  split
  · exact loadNeeded_accepts hlib
  · exact accepts_ok s

theorem pass3_accepts {nd : Node} {h : Ehdr} {off : Nat} :
    ∀ {is : List Nat} {s : Space}, Accepts (pass3 loadLib nd h off is s)
  | [], s => accepts_ok s
  | i :: is, s => by
    unfold pass3
    dsimp only
    split
    · exact (parseDynamic_accepts hlib).bind fun s => pass3_accepts
    · exact (accepts_ok _).bind fun s => pass3_accepts

end

theorem tlsPages_accepts : ∀ {n va : Nat} {s : Space}, Accepts (tlsPages m n va s)
  | 0, _, s => accepts_ok s
  | n + 1, va, s => by
    rw [tlsPages]
    split
    · exact accepts_fault
    · exact tlsPages_accepts

theorem finish_accepts {base top : Nat} : Accepts (finish m base top s) := by
  unfold finish
  split
  · unfold setupTls
    refine tlsPages_accepts.bind fun s1 => ?_
    dsimp only
    split
    · exact accepts_fault
    · exact accepts_ok _
  · exact accepts_ok _

/-! ## A rejected load -/

def abiSet (m : Machine) (path : List UInt8) (t : ElfTask) : ElfTask :=
  match m.lookup path with
  | none => t
  | some n => if granted t n = false ∨ headerOk n = false then t else t.setAbi ((ehdrOf n).ident 7)

/-- **A load that is turned down** has its frames in the address space, and of the task it changed no more than the ABI. -/
theorem elfLoadFile_rejected (hm : m.Honest) {fuel base : Nat} {path : List UInt8} (h0 : ¬ s.Owns 0)
    (h : elfLoadFile m fuel path base s = .error (.rejected s')) :
    Took m (s.setTask (abiSet m path)) s' := by
  cases fuel with
  | zero => cases h
  | succ fuel =>
    unfold elfLoadFile at h
    unfold abiSet
    cases hn : m.lookup path with
    | none =>
      simp only [hn] at h
      cases h
      exact Took.refl m s
    | some nd =>
      simp only [hn] at h
      dsimp only [Space.setTask]
      split at h
      · rename_i hgrant
        cases h
        rw [if_pos (Or.inl hgrant)]
        exact Took.refl m s
      rename_i hgrant
      split at h
      · rename_i hheader
        cases h
        rw [if_pos (Or.inr hheader)]
        exact Took.refl m s
      rename_i hheader
      rw [if_neg fun hor => hor.elim hgrant hheader]
      cases h1 : loadSegments m nd (ehdrOf nd) (loadOffset (ehdrOf nd) base) (List.range (ehdrOf nd).phnum)
          (s.setTask fun t => t.setAbi ((ehdrOf nd).ident 7)) 0 with
      | error e =>
        rw [h1] at h
        cases h
        exact loadSegments_rejected hm h0 h1
      | ok r =>
        rw [h1] at h
        refine absurd h (((pass3_accepts fun path base s => ?_).bind fun s => finish_accepts.bind fun s => accepts_ok _) s')
        split
        · exact accepts_ok _
        · exact accepts_ok _
        · rename_i e he hno
          intro s' hs'
          cases hs'
          exact he s' rfl

/-! ## With frames for everything -/

theorem walkTables_supplied (hm : ∀ i, (m.alloc i).isSome) (p : Nat) : ∀ (levels : List Nat) (s : Space),
    (Space.walkTables m p levels s).2 = true
  | [], _ => rfl
  | level :: levels, s => by
    rw [Space.walkTables]
    split
    · exact walkTables_supplied hm p levels s
    · obtain ⟨f, hf⟩ := Option.isSome_iff_exists.1 (hm s.calls)
      rw [hf]
      exact walkTables_supplied hm p levels _

theorem walkTables_kept : ∀ (levels : List Nat) (s : Space),
    (Space.walkTables m p levels s).1.pages = s.pages ∧ (Space.walkTables m p levels s).1.task = s.task
  | [], _ => ⟨rfl, rfl⟩
  | level :: levels, s => by
    rw [Space.walkTables]
    split
    · exact walkTables_kept levels s
    · split
      · exact ⟨rfl, rfl⟩
      · exact walkTables_kept levels (s.newTable _ level (p / 512 ^ level))

theorem mapPage_supplied (hm : ∀ i, (m.alloc i).isSome) (s : Space) (f p : Nat) (w : Bool) : (s.mapPage m f p w).2 = true ∧
    (s.mapPage m f p w).1.pages = update s.pages p (some ⟨f, w⟩) ∧ (s.mapPage m f p w).1.task = s.task := by
  obtain ⟨hpages, htask⟩ := walkTables_kept (m := m) (p := p) [3, 2, 1] s
  have hfound := walkTables_supplied hm p [3, 2, 1] s
  unfold Space.mapPage
  split
  · rename_i hwalk
    rw [hwalk] at hfound
    cases hfound
  · rename_i hwalk
    rw [hwalk] at hpages htask
    dsimp only
    exact ⟨rfl, by rw [hpages], htask⟩

theorem store_mapped : ∀ (n : Nat) (src : Buffer) {s : Space} {va : Nat}, (∀ i < n, (s.pageAt (va + i)).isSome) →
    ∃ s', s.store n va src = some s' ∧ s'.pages = s.pages ∧ s'.task = s.task
  | 0, _, s, _, _ => ⟨s, rfl, rfl, rfl⟩
  | n + 1, src, s, va, h => by
    obtain ⟨a, ha⟩ := Option.isSome_iff_exists.1 (h 0 (Nat.succ_pos n))
    rw [Nat.add_zero] at ha
    rw [Space.store, Space.storeByte, ha, Option.map_some, Option.bind_some]
    refine store_mapped n _ fun i hi => ?_
    rw [Nat.add_assoc, Nat.add_comm 1]
    exact h (i + 1) (Nat.succ_lt_succ hi)

theorem tlsPages_supplied (hm : ∀ i, (m.alloc i).isSome) : ∀ (n va : Nat) (s : Space), va % 4096 = 0 →
    va + 4096 * n ≤ USER_TOP → ∃ s', tlsPages m n va s = .ok s' ∧ s'.task = s.task ∧
      (∀ p, (s.pages p).isSome → (s'.pages p).isSome) ∧ ∀ i < n, (s'.pages (va / 4096 + i)).isSome
  | 0, _, s, _, _ => ⟨s, rfl, rfl, fun _ h => h, fun _ hi => absurd hi (Nat.not_lt_zero _)⟩
  | n + 1, va, s, hva, htop => by
    obtain ⟨-, hpages, htask⟩ := mapPage_supplied hm { s with calls := s.calls + 1 } ((m.alloc s.calls).getD 0)
      (va / 4096) true
    have hmapped : ∀ i < 4096,
      ((Space.halMemMap m { s with calls := s.calls + 1 } ((m.alloc s.calls).getD 0) (va / 4096) true).pageAt
        (va + i)).isSome := by
      intro i hi
      have hpage : (va + i) / 4096 = va / 4096 := by omega
      rw [Space.pageAt, if_pos (by omega), Space.halMemMap, hpages, hpage, update_self]
      rfl
    obtain ⟨s1, hstore, hpages1, htask1⟩ := store_mapped 4096 (fun _ => 0) hmapped
    obtain ⟨s', hok, htask', hkept, hblock⟩ := tlsPages_supplied hm n (va + 4096) s1 (by omega) (by omega)
    rw [Space.halMemMap, hpages] at hpages1
    have hthere : ∀ p, (s.pages p).isSome ∨ p = va / 4096 → (s1.pages p).isSome := by
      intro p hp
      rw [hpages1]
      by_cases heq : p = va / 4096
      · rw [heq, update_self]
        rfl
      · rw [update_of_ne heq]
        exact hp.resolve_right heq
    refine ⟨s', ?_, ?_, fun p hp => hkept p (hthere p (.inl hp)), fun i hi => ?_⟩
    · rw [tlsPages, hstore]
      exact hok
    · rw [htask', htask1]
      exact htask
    · cases i with
      | zero => exact hkept _ (hthere _ (.inr rfl))
      | succ i =>
        have hnext := hblock i (by omega)
        rwa [show (va + 4096) / 4096 + i = va / 4096 + (i + 1) by omega] at hnext

theorem pass3_plain {loadLib : List UInt8 → Nat → Space → Except Stop Space} {nd : Node} {h : Ehdr} {off : Nat} :
    ∀ {is : List Nat} {s : Space}, (∀ i ∈ is, (phdrOf nd h i).type ≠ PT_TLS ∧ (phdrOf nd h i).type ≠ PT_DYNAMIC) →
      pass3 loadLib nd h off is s = .ok s
  | [], _, _ => rfl
  | i :: is, s, hplain => by
    obtain ⟨htls, hdynamic⟩ := hplain i List.mem_cons_self
    rw [pass3]
    dsimp only
    rw [if_neg htls, if_neg hdynamic]
    exact pass3_plain fun j hj => hplain j (List.mem_cons_of_mem i hj)

/-- The block of a main executable that has no thread data. -/
theorem setupTls_supplied (hm : ∀ i, (m.alloc i).isSome) (htls : s.task.tlsMemsz = 0) (hbase : s.task.mmapBase % 4096 = 0)
    (htop : s.task.mmapBase + 8192 ≤ USER_TOP) : ∃ s', setupTls m s = .ok s' := by
  have haligned : s.task.alignedTlsSize = 4096 := by rw [ElfTask.alignedTlsSize, htls, if_neg (by decide)]
  have htotal : s.task.tlsTotal = 8192 := by rw [ElfTask.tlsTotal, haligned]; rfl
  obtain ⟨s1, hok, htask, -, hblock⟩ := tlsPages_supplied hm 2 s.task.mmapBase s hbase htop
  have htcb : ∀ i < 8, (s1.pageAt ((s.task.mmapBase + 4096) % 2 ^ 64 + i)).isSome := by
    intro i hi
    unfold USER_TOP at htop
    have haddr : (s.task.mmapBase + 4096) % 2 ^ 64 = s.task.mmapBase + 4096 := by omega
    have hpage : (s.task.mmapBase + 4096 + i) / 4096 = s.task.mmapBase / 4096 + 1 := by omega
    rw [haddr, Space.pageAt, if_pos (by unfold USER_TOP; omega), hpage]
    exact hblock 1 (by decide)
  obtain ⟨s2, hstore, -⟩ := store_mapped 8 (Buffer.digits ((s.task.mmapBase + 4096) % 2 ^ 64)) htcb
  have hcopied : (if 0 < s1.task.tlsMemsz ∧ 0 < s1.task.tlsFilesz ∧ s1.task.tlsVaddr ≠ 0 then
      copyUser s1.task.tlsFilesz s1 s.task.mmapBase s1.task.tlsVaddr else some s1) = some s1 :=
    if_neg fun h => absurd h.1 (by rw [htask, htls]; exact Nat.lt_irrefl 0)
  unfold setupTls
  simp only [haligned, htotal]
  rw [show (8192 + 4095) / 4096 = 2 from rfl, hok]
  dsimp only [bind, Except.bind]
  rw [hcopied, Option.bind_some, hstore]
  exact ⟨_, rfl⟩

end EterOS.Elf
