import EterOS.Fs.Elf
/-!
# ElfSegments — what the passes over PT_LOAD leave in memory

The loader is followed byte by byte and page by page: `byte` is what an address holds, `writeAt` whether its page may be
written.  A page is made zero and writable by the first segment that touches it, each segment's bytes are read over it, and
its permission is that of the last one; a segment leaves the pages at its misaligned ends writable.
-/
namespace EterOS.Elf

open Function (update update_self update_of_ne)
open Space List

/-- `pmm_alloc_page` hands out every frame once, and never the first one. -/
structure Machine.Honest (m : Machine) : Prop where
  pos : ∀ i f, m.alloc i = some f → f ≠ 0
  inj : ∀ i j f, m.alloc i = some f → m.alloc j = some f → i = j

/-- Different pages have different frames, none of them free, and the tables on the way to them are there. -/
structure Distinct (m : Machine) (s : Space) : Prop where
  pos : ∀ p a, s.pages p = some a → a.frame ≠ 0
  inj : ∀ p q a b, s.pages p = some a → s.pages q = some b → a.frame = b.frame → p = q
  new : ∀ i f p a, s.calls ≤ i → m.alloc i = some f → s.pages p = some a → a.frame ≠ f
  tables : ∀ p a, s.pages p = some a → ∀ level ∈ [3, 2, 1], (s.tables level (p / 512 ^ level)).isSome = true

def Space.writeAt (s : Space) (p : Nat) : Option Bool := (s.pages p).map Page.write

variable {m : Machine} {s s' : Space} {n p q va x : Nat} {src : Buffer} {b : UInt8} {f : Nat}

variable {a : Page}

theorem byte_of_page (hx : x < USER_TOP) (hp : s.pages (x / 4096) = some a) :
    s.byte x = some (s.frames a.frame (x % 4096)) := by
  rw [Space.byte, Space.pageAt, if_pos hx, hp, Option.map_some]

theorem eq_of_page {y : Nat} (hp : x / 4096 = y / 4096) (ho : x % 4096 = y % 4096) : x = y := by
  omega

structure Stored (s s' : Space) (g : Nat → Option UInt8) : Prop where
  pages : s'.pages = s.pages
  tables : s'.tables = s.tables
  calls : s'.calls = s.calls
  task : s'.task = s.task
  byte : ∀ x, s'.byte x = ((g x).orElse fun _ => s.byte x)

theorem storeByte_spec (hs : Distinct m s) (h : s.storeByte va b = some s') :
    s.byte va ≠ none ∧ Stored s s' fun x => if x = va then some b else none := by
  unfold Space.storeByte at h
  obtain ⟨a, ha, rfl⟩ := Option.map_eq_some_iff.1 h
  unfold Space.pageAt at ha
  split at ha
  · rename_i hva
    refine ⟨by rw [byte_of_page hva ha]; exact Option.some_ne_none _, rfl, rfl, rfl, rfl, fun x => ?_⟩
    by_cases hx : x = va
    · subst hx
      rw [if_pos rfl]
      show Space.byte _ x = some b
      unfold Space.byte Space.pageAt
      simp [if_pos hva, ha]
    · rw [if_neg hx]
      show Space.byte _ x = s.byte x
      unfold Space.byte Space.pageAt
      split
      · cases hp : s.pages (x / 4096) with
        | none => rfl
        | some c =>
          simp only [Option.map_some]
          by_cases hc : c.frame = a.frame
          · have hpage := hs.inj _ _ _ _ hp ha hc
            rw [hc, update_self, update_of_ne fun ho => hx (eq_of_page hpage ho)]
          · rw [update_of_ne hc]
      · rfl
  · cases ha

theorem Distinct.of_pages (hs : Distinct m s) (hp : s'.pages = s.pages) (ht : s'.tables = s.tables)
    (hc : s.calls ≤ s'.calls) :
    Distinct m s' := by
  refine ⟨?_, ?_, ?_, ?_⟩
  · rw [hp]
    exact hs.pos
  · rw [hp]
    exact hs.inj
  · rw [hp]
    exact fun i f p a hi => hs.new i f p a (hc.trans hi)
  · rw [hp, ht]
    exact hs.tables

theorem Stored.distinct {g : Nat → Option UInt8} (h : Stored s s' g) (hs : Distinct m s) : Distinct m s' :=
  hs.of_pages h.pages h.tables h.calls.ge

theorem store_spec : ∀ {n : Nat} {s s' : Space} {va : Nat} {src : Buffer}, Distinct m s → store n s va src = some s' →
    (∀ x, va ≤ x → x < va + n → s.byte x ≠ none) ∧
    Stored s s' fun x => if va ≤ x ∧ x < va + n then some (src (x - va)) else none
  | 0, s, _, va, src, _, h => by
    cases h
    refine ⟨fun x hx hx' => absurd hx' (by omega), rfl, rfl, rfl, rfl, fun x => ?_⟩
    rw [if_neg (by omega)]
    rfl
  | n + 1, s, s', va, src, hs, h => by
    obtain ⟨s1, h1, h2⟩ := Option.bind_eq_some_iff.1 h
    obtain ⟨hva, hst⟩ := storeByte_spec hs h1
    obtain ⟨hmapped, hrest⟩ := store_spec (hst.distinct hs) h2
    refine ⟨fun x hx hx' => ?_, hrest.pages.trans hst.pages, hrest.tables.trans hst.tables, hrest.calls.trans hst.calls,
      hrest.task.trans hst.task, fun x => ?_⟩
    · by_cases hxv : x = va
      · exact hxv ▸ hva
      · have := hmapped x (by omega) (by omega)
        rw [hst.byte, if_neg hxv] at this
        exact this
    · rw [hrest.byte, hst.byte]
      by_cases hxv : x = va
      · subst hxv
        rw [if_neg (by omega), if_pos rfl, if_pos (by omega), Nat.sub_self]
        rfl
      · rw [if_neg hxv]
        by_cases hin : va + 1 ≤ x ∧ x < va + 1 + n
        · rw [if_pos hin, if_pos (by omega), Buffer.drop]
          have hsub : 1 + (x - (va + 1)) = x - va := by omega
          rw [hsub]
          rfl
        · rw [if_neg hin, if_neg (by omega)]
          rfl

/-! ## One page -/

structure Walked (m : Machine) (s s' : Space) : Prop where
  pages : s'.pages = s.pages
  task : s'.task = s.task
  calls : s.calls ≤ s'.calls
  frames : ∀ g, (∀ i, s.calls ≤ i → m.alloc i ≠ some g) → s'.frames g = s.frames g
  tables : ∀ level k, (s.tables level k).isSome = true → (s'.tables level k).isSome = true

theorem Space.newTable_tables (s : Space) (f level k level' k' : Nat) :
    (s.newTable f level k).tables level' k' = if level' = level ∧ k' = k then some f else s.tables level' k' := by
  unfold Space.newTable
  dsimp only
  by_cases hl : level' = level
  · subst hl
    rw [update_self]
    by_cases hk : k' = k
    · rw [hk, update_self, if_pos ⟨rfl, rfl⟩]
    · rw [update_of_ne hk, if_neg fun h => hk h.2]
  · rw [update_of_ne hl, if_neg fun h => hl h.1]

theorem Space.newTable_walked (hf : m.alloc s.calls = some f) (level k : Nat) : Walked m s (s.newTable f level k) := by
  refine ⟨rfl, rfl, Nat.le_succ _, fun g hg => ?_, fun level' k' h => ?_⟩
  · have hne : g ≠ f := fun hgf => hg _ (Nat.le_refl _) (hgf ▸ hf)
    exact update_of_ne hne ..
  · rw [s.newTable_tables]
    split
    · rfl
    · exact h

theorem Walked.trans {s1 : Space} (h : Walked m s s1) (h' : Walked m s1 s') : Walked m s s' :=
  ⟨h'.pages.trans h.pages, h'.task.trans h.task, h.calls.trans h'.calls,
    fun g hg => (h'.frames g fun i hi => hg i (h.calls.trans hi)).trans (h.frames g hg),
      fun l k hk => h'.tables l k (h.tables l k hk)⟩

theorem walkTables_spec (m : Machine) (p : Nat) : ∀ (levels : List Nat) (s : Space), Walked m s (walkTables m p levels s).1 ∧
      ((walkTables m p levels s).2 = true → ∀ level ∈ levels,
        ((walkTables m p levels s).1.tables level (p / 512 ^ level)).isSome = true)
  | [], s => ⟨⟨rfl, rfl, Nat.le_refl _, fun _ _ => rfl, fun _ _ h => h⟩, fun _ l hl => absurd hl not_mem_nil⟩
  | level :: levels, s => by
    rw [walkTables]
    split
    · rename_i hthere
      obtain ⟨hwalk, hall⟩ := walkTables_spec m p levels s
      exact ⟨hwalk, fun hb => forall_mem_cons.2 ⟨hwalk.tables _ _ hthere, hall hb⟩⟩
    · split
      · exact ⟨⟨rfl, rfl, Nat.le_succ _, fun _ _ => rfl, fun _ _ h => h⟩, fun hb => absurd hb Bool.false_ne_true⟩
      · rename_i f hf
        obtain ⟨hwalk, hall⟩ := walkTables_spec m p levels (s.newTable f level (p / 512 ^ level))
        refine ⟨(s.newTable_walked hf level _).trans hwalk, fun hb => forall_mem_cons.2 ⟨hwalk.tables _ _ ?_, hall hb⟩⟩
        rw [s.newTable_tables, if_pos ⟨rfl, rfl⟩]
        rfl

theorem walkTables_there : ∀ {levels : List Nat}, (∀ level ∈ levels, (s.tables level (p / 512 ^ level)).isSome = true) →
    walkTables m p levels s = (s, true)
  | [], _ => rfl
  | level :: levels, h => by
    obtain ⟨hl, hls⟩ := forall_mem_cons.1 h
    rw [walkTables, if_pos hl]
    exact walkTables_there hls

theorem halMemMap_cases (m : Machine) (s : Space) (f p : Nat) (w : Bool) : ∃ s1, Walked m s s1 ∧
    (halMemMap m s f p w = s1 ∨ (∀ level ∈ [3, 2, 1], (s1.tables level (p / 512 ^ level)).isSome = true) ∧
      halMemMap m s f p w = { s1 with pages := update s.pages p (some ⟨f, w⟩) }) := by
  obtain ⟨hwalk, hall⟩ := walkTables_spec m p [3, 2, 1] s
  unfold Space.halMemMap Space.mapPage
  cases hr : walkTables m p [3, 2, 1] s with
  | mk s1 b =>
    rw [hr] at hwalk hall
    cases b with
    | false => exact ⟨s1, hwalk, Or.inl rfl⟩
    | true => exact ⟨s1, hwalk, Or.inr ⟨hall rfl, by rw [← hwalk.pages]⟩⟩

structure NewPage (m : Machine) (s s' : Space) (f p : Nat) : Prop where
  page : s'.pages p = some ⟨f, true⟩
  pages : ∀ q, q ≠ p → s'.pages q = s.pages q
  zero : s'.frames f = fun _ => 0
  frames : ∀ g, g ≠ f → (∀ i, s.calls ≤ i → m.alloc i ≠ some g) → s'.frames g = s.frames g
  calls : s.calls < s'.calls
  task : s'.task = s.task
  way : ∀ level ∈ [3, 2, 1], (s'.tables level (p / 512 ^ level)).isSome = true
  tables : ∀ level k, (s.tables level k).isSome = true → (s'.tables level k).isSome = true

theorem newPage_of_zeroPage (hs : Distinct m s) (hp : s.getPhys p = 0)
    (h : (halMemMap m { s with calls := s.calls + 1 } f p true).zeroPage p = some s') :
    s.pages p = none ∧ NewPage m s s' f p := by
  have hnone : s.pages p = none := by
    cases hpage : s.pages p with
    | none => rfl
    | some a =>
      rw [Space.getPhys, hpage] at hp
      exact absurd hp (hs.pos p a hpage)
  obtain ⟨s1, hwalk, hmap | ⟨hway, hmap⟩⟩ := halMemMap_cases m { s with calls := s.calls + 1 } f p true
  · have hpages : s1.pages p = none := by rw [hwalk.pages]; exact hnone
    rw [hmap, Space.zeroPage, hpages] at h
    cases h
  · rw [hmap] at h
    simp only [Space.zeroPage, update_self, Option.map_some, Option.some.injEq] at h
    subst h
    refine ⟨hnone, update_self .., fun q hq => update_of_ne hq .., update_self .., fun g hg hfree => ?_, hwalk.calls,
      hwalk.task, hway, hwalk.tables⟩
    exact (update_of_ne hg ..).trans (hwalk.frames g fun i hi => hfree i ((Nat.le_succ _).trans hi))

theorem Distinct.newPage (hm : m.Honest) (hs : Distinct m s) (hf : m.alloc s.calls = some f) (hn : NewPage m s s' f p) :
    Distinct m s' := by
  have hother : ∀ q a, s.pages q = some a → a.frame ≠ f := fun q a hq => hs.new _ f q a (Nat.le_refl _) hf hq
  -- a page of the new space is the new one, or one from before
  have hcases : ∀ {q a}, s'.pages q = some a → q = p ∧ a.frame = f ∨ q ≠ p ∧ s.pages q = some a := by
    intro q a hq
    by_cases hqp : q = p
    · subst hqp
      rw [hn.page, Option.some.injEq] at hq
      exact Or.inl ⟨rfl, hq ▸ rfl⟩
    · rw [hn.pages q hqp] at hq
      exact Or.inr ⟨hqp, hq⟩
  refine ⟨fun q a hq => ?_, fun q r a c hq hr hac => ?_, fun i g q a hi hg hq => ?_, fun q a hq => ?_⟩
  · rcases hcases hq with ⟨_, ha⟩ | ⟨_, hq⟩
    · exact ha ▸ hm.pos _ _ hf
    · exact hs.pos q a hq
  · rcases hcases hq with ⟨hqp, ha⟩ | ⟨hqp, hq⟩
    · rcases hcases hr with ⟨hrp, _⟩ | ⟨_, hr⟩
      · exact hqp.trans hrp.symm
      · exact absurd (hac.symm.trans ha) (hother r c hr)
    · rcases hcases hr with ⟨_, hc⟩ | ⟨_, hr⟩
      · exact absurd (hac.trans hc) (hother q a hq)
      · exact hs.inj q r a c hq hr hac
  · have hi := hn.calls.trans_le hi
    rcases hcases hq with ⟨_, ha⟩ | ⟨_, hq⟩
    · intro hag
      have hsame := hm.inj _ _ _ hf (ha.symm.trans hag ▸ hg)
      omega
    · exact hs.new i g q a hi.le hg hq
  · rcases hcases hq with ⟨hqp, _⟩ | ⟨_, hq⟩
    · exact hqp ▸ hn.way
    · exact fun level hl => hn.tables _ _ (hs.tables q a hq level hl)

theorem Distinct.frames_newPage (hs : Distinct m s) (hf : m.alloc s.calls = some f) (hn : NewPage m s s' f p)
    (ha : s.pages q = some a) : s'.frames a.frame = s.frames a.frame :=
  hn.frames _ (hs.new _ f q a (Nat.le_refl _) hf ha) fun i hi hai => hs.new i _ q a hi hai ha rfl

theorem byte_newPage (hs : Distinct m s) (hf : m.alloc s.calls = some f) (hn : NewPage m s s' f p) (x : Nat) :
    s'.byte x = if x / 4096 = p ∧ x < USER_TOP then some 0 else s.byte x := by
  unfold Space.byte Space.pageAt
  by_cases hx : x < USER_TOP
  · rw [if_pos hx, if_pos hx]
    by_cases hxp : x / 4096 = p
    · rw [if_pos ⟨hxp, hx⟩, hxp, hn.page, Option.map_some, hn.zero]
    · rw [if_neg fun h => hxp h.1, hn.pages _ hxp]
      cases hq : s.pages (x / 4096) with
      | none => rfl
      | some a => rw [Option.map_some, Option.map_some, hs.frames_newPage hf hn hq]
  · rw [if_neg hx, if_neg hx, if_neg fun h => hx h.2]
    rfl

/-! ## The passes -/

theorem pass1_spec (hm : m.Honest) : ∀ {n p : Nat} {s s' : Space}, Distinct m s → pass1 m n p s = .ok s' →
    Distinct m s' ∧ s'.task = s.task ∧ (∀ q, s'.writeAt q = if p ≤ q ∧ q < p + n ∧ s.writeAt q = none then some true
      else s.writeAt q) ∧
      ∀ x, s'.byte x = if p ≤ x / 4096 ∧ x / 4096 < p + n ∧ s.writeAt (x / 4096) = none ∧ x < USER_TOP then some 0
      else s.byte x
  | 0, p, s, _, hs, h => by
    cases h
    refine ⟨hs, rfl, fun q => ?_, fun x => ?_⟩
    · rw [if_neg (by omega)]
    · rw [if_neg (by omega)]
  | n + 1, p, s, s', hs, h => by
    rw [pass1] at h
    split at h
    · rename_i hphys
      split at h
      · cases h
      · rename_i f hf
        split at h
        · cases h
        · rename_i s1 hzero
          obtain ⟨hnone, hn⟩ := newPage_of_zeroPage hs hphys hzero
          obtain ⟨hd, htask, hw, hb⟩ := pass1_spec hm (hs.newPage hm hf hn) h
          have hwp : s.writeAt p = none := by rw [Space.writeAt, hnone]; rfl
          have hw1 : ∀ q, s1.writeAt q = if q = p then some true else s.writeAt q := by
            intro q
            unfold Space.writeAt
            by_cases hq : q = p
            · rw [if_pos hq, hq, hn.page]
              rfl
            · rw [if_neg hq, hn.pages q hq]
          refine ⟨hd, htask.trans hn.task, fun q => ?_, fun x => ?_⟩
          · rw [hw, hw1]
            by_cases hq : q = p
            · subst hq
              rw [if_neg (by omega), if_pos rfl, if_pos ⟨by omega, by omega, hwp⟩]
            · rw [if_neg hq]
              by_cases hr : p ≤ q ∧ q < p + (n + 1) ∧ s.writeAt q = none
              · rw [if_pos hr, if_pos ⟨by omega, by omega, hr.2.2⟩]
              · rw [if_neg hr, if_neg fun h => hr ⟨by omega, by omega, h.2.2⟩]
          · rw [hb, hw1, byte_newPage hs hf hn]
            by_cases hq : x / 4096 = p
            · rw [if_neg (by omega), hq]
              by_cases hx : x < USER_TOP
              · rw [if_pos ⟨rfl, hx⟩, if_pos ⟨by omega, by omega, hwp, hx⟩]
              · rw [if_neg fun h => hx h.2, if_neg fun h => hx h.2.2.2]
            · rw [if_neg hq, if_neg fun h : _ ∧ _ => hq h.1]
              by_cases hr : p ≤ x / 4096 ∧ x / 4096 < p + (n + 1) ∧ s.writeAt (x / 4096) = none ∧ x < USER_TOP
              · rw [if_pos hr, if_pos ⟨by omega, by omega, hr.2.2⟩]
              · rw [if_neg hr, if_neg fun h => hr ⟨by omega, by omega, h.2.2⟩]
    · rename_i hphys
      obtain ⟨hd, htask, hw, hb⟩ := pass1_spec hm hs h
      have hwp : s.writeAt p ≠ none := by
        intro hnone
        unfold Space.writeAt at hnone
        rw [Option.map_eq_none_iff] at hnone
        rw [Space.getPhys, hnone] at hphys
        exact hphys rfl
      refine ⟨hd, htask, fun q => ?_, fun x => ?_⟩
      · rw [hw]
        by_cases hr : p ≤ q ∧ q < p + (n + 1) ∧ s.writeAt q = none
        · have hne : q ≠ p := fun h => hwp (h ▸ hr.2.2)
          rw [if_pos hr, if_pos ⟨by omega, by omega, hr.2.2⟩]
        · rw [if_neg hr, if_neg fun h => hr ⟨by omega, by omega, h.2.2⟩]
      · rw [hb]
        by_cases hr : p ≤ x / 4096 ∧ x / 4096 < p + (n + 1) ∧ s.writeAt (x / 4096) = none ∧ x < USER_TOP
        · have hne : x / 4096 ≠ p := fun h => hwp (h ▸ hr.2.2.1)
          rw [if_pos hr, if_pos ⟨by omega, by omega, hr.2.2⟩]
        · rw [if_neg hr, if_neg fun h => hr ⟨by omega, by omega, h.2.2⟩]

def Space.permit (s : Space) (p : Nat) (w : Bool) : Space :=
  { s with pages := update s.pages p ((s.pages p).map fun a => ⟨a.frame, w⟩) }

theorem Space.permit_self (s : Space) (p : Nat) (w : Bool) :
    (s.permit p w).pages p = (s.pages p).map fun a => ⟨a.frame, w⟩ :=
  update_self ..

theorem Space.permit_of_ne (s : Space) (w : Bool) (h : q ≠ p) : (s.permit p w).pages q = s.pages q := update_of_ne h ..

theorem Space.permit_frames (s : Space) (p : Nat) (w : Bool) : (s.permit p w).frames = s.frames := rfl

theorem permit_of_remap (hs : Distinct m s) (p : Nat) (w : Bool) :
    (if s.getPhys p ≠ 0 then halMemMap m s (s.getPhys p) p w else s) = s.permit p w := by
  unfold Space.permit
  cases hp : s.pages p with
  | none =>
    have hphys : s.getPhys p = 0 := by rw [Space.getPhys, hp]; rfl
    rw [if_neg (not_not.2 hphys), Option.map_none, ← hp, Function.update_eq_self]
  | some a =>
    have hphys : s.getPhys p = a.frame := by rw [Space.getPhys, hp]; rfl
    rw [hphys, if_pos (hs.pos p a hp), Space.halMemMap, Space.mapPage, walkTables_there (hs.tables p a hp), Option.map_some]

theorem Space.permit_page {w : Bool} (h : (s.permit p w).pages q = some a) :
    ∃ c, s.pages q = some c ∧ c.frame = a.frame := by
  by_cases hq : q = p
  · subst hq
    rw [s.permit_self] at h
    obtain ⟨c, hc, rfl⟩ := Option.map_eq_some_iff.1 h
    exact ⟨c, hc, rfl⟩
  · rw [s.permit_of_ne w hq] at h
    exact ⟨a, h, rfl⟩

theorem Distinct.permit (hs : Distinct m s) (p : Nat) (w : Bool) : Distinct m (s.permit p w) := by
  refine ⟨fun q a hq => ?_, fun q r a c hq hr hac => ?_, fun i g q a hi hg hq => ?_, fun q a hq => ?_⟩
  · obtain ⟨b, hb, hba⟩ := Space.permit_page hq
    exact hba ▸ hs.pos q b hb
  · obtain ⟨b, hb, hba⟩ := Space.permit_page hq
    obtain ⟨d, hd, hdc⟩ := Space.permit_page hr
    exact hs.inj q r b d hb hd (hba.trans (hac.trans hdc.symm))
  · obtain ⟨b, hb, hba⟩ := Space.permit_page hq
    exact hba ▸ hs.new i g q b hi hg hb
  · obtain ⟨b, hb, _⟩ := Space.permit_page hq
    exact hs.tables q b hb

theorem writeAt_permit (s : Space) (p : Nat) (w : Bool) (q : Nat) :
    (s.permit p w).writeAt q = if q = p ∧ s.writeAt q ≠ none then some w else s.writeAt q := by
  unfold Space.writeAt
  by_cases hq : q = p
  · subst hq
    rw [s.permit_self]
    cases s.pages q <;> simp
  · rw [s.permit_of_ne w hq, if_neg fun h => hq h.1]

theorem byte_permit (s : Space) (p : Nat) (w : Bool) (x : Nat) : (s.permit p w).byte x = s.byte x := by
  unfold Space.byte Space.pageAt
  rw [s.permit_frames]
  by_cases hq : x / 4096 = p
  · rw [hq, s.permit_self]
    split
    · cases s.pages p <;> rfl
    · rfl
  · rw [s.permit_of_ne w hq]

variable {g : Segment}

theorem pass2_spec : ∀ {n p : Nat} {s : Space}, Distinct m s → Distinct m (pass2 m g n p s) ∧
    (pass2 m g n p s).task = s.task ∧
      (∀ q, (pass2 m g n p s).writeAt q =
        if p ≤ q ∧ q < p + n ∧ s.writeAt q ≠ none then some (g.write || g.isShared q) else s.writeAt q) ∧
      ∀ x, (pass2 m g n p s).byte x = s.byte x
  | 0, p, s, hs => by
    refine ⟨hs, rfl, fun q => ?_, fun x => rfl⟩
    rw [if_neg (by omega)]
    rfl
  | n + 1, p, s, hs => by
    rw [pass2, permit_of_remap hs]
    obtain ⟨hd, htask, hw, hb⟩ := pass2_spec (n := n) (p := p + 1) (hs.permit p (g.write || g.isShared p))
    refine ⟨hd, htask, fun q => ?_, fun x => (hb x).trans (byte_permit s p _ x)⟩
    rw [hw, writeAt_permit]
    by_cases hq : q = p
    · subst hq
      rw [if_neg (by omega)]
      by_cases hnone : s.writeAt q = none
      · rw [if_neg fun h => h.2 hnone, if_neg fun h => h.2.2 hnone]
      · rw [if_pos ⟨rfl, hnone⟩, if_pos ⟨by omega, by omega, hnone⟩]
    · rw [if_neg fun h : _ ∧ _ => hq h.1]
      by_cases hr : p ≤ q ∧ q < p + (n + 1) ∧ s.writeAt q ≠ none
      · rw [if_pos hr, if_pos ⟨by omega, by omega, hr.2.2⟩]
      · rw [if_neg hr, if_neg fun h => hr ⟨by omega, by omega, h.2.2⟩]

/-! ## Segments -/

def Segment.Touches (g : Segment) (p : Nat) : Prop := g.first ≤ p ∧ p < g.last

instance (g : Segment) (p : Nat) : Decidable (g.Touches p) := inferInstanceAs (Decidable (_ ∧ _))

/-- The addresses of a segment, and those that are filled from the file. -/
def Segment.Has (g : Segment) (x : Nat) : Prop := g.vaddr ≤ x ∧ x < g.vaddr + g.memsz
def Segment.Filled (g : Segment) (x : Nat) : Prop := g.vaddr ≤ x ∧ x < g.vaddr + g.filesz

instance (g : Segment) (x : Nat) : Decidable (g.Filled x) := inferInstanceAs (Decidable (_ ∧ _))

def Segment.source (g : Segment) (n : Node) (x : Nat) : UInt8 := n.content (g.offset + (x - g.vaddr))

theorem Segment.Has.touches (h : g.Has x) : g.Touches (x / 4096) := by
  unfold Segment.Touches Segment.first Segment.last
  have := h.1
  have := h.2
  constructor <;> omega

theorem Segment.of_ok (h : g.ok = true) :
    g.filesz ≤ g.memsz ∧ g.offset < 2 ^ 32 ∧ USER_BASE ≤ g.vaddr ∧ g.vaddr + g.memsz < USER_TOP := by
  unfold Segment.ok at h
  simp only [Bool.and_eq_true, decide_eq_true_eq] at h
  obtain ⟨⟨⟨⟨hfile, _⟩, hoff, _⟩, _, htop⟩, hbase⟩ := h
  unfold UINT32_MAX at hoff
  exact ⟨hfile, by omega, hbase, htop⟩

theorem ok_of_bind {α β : Type} {c : Except Stop α} {k : α → Except Stop β} {r : β} (h : (c >>= k) = .ok r) :
    ∃ a, c = .ok a ∧ k a = .ok r := by
  cases c with
  | error e => cases h
  | ok a => exact ⟨a, rfl, h⟩

variable {nd : Node}

theorem copySegment_spec (hok : g.ok = true) (hs : Distinct m s) (h : copySegment nd g s = .ok s') :
    Stored s s' fun x => if g.Filled x then some (g.source nd x) else none := by
  have hoff := (Segment.of_ok hok).2.1
  unfold copySegment at h
  split at h
  · rename_i hzero
    cases h
    refine ⟨rfl, rfl, rfl, rfl, fun x => ?_⟩
    have hempty : ¬ g.Filled x := fun hx => by
      have := hx.1
      have := hx.2
      omega
    rw [if_neg hempty]
    rfl
  · split at h
    · cases h
    · rename_i s1 hstore
      split at h
      · cases h
      · rename_i hread
        cases h
        rw [not_not.1 hread, Int.toNat_natCast, Nat.mod_eq_of_lt hoff] at hstore
        exact (store_spec hs hstore).2

/-- **One segment**: its pages are there with its permission or writable, its bytes are the file's, and what was not there
before is zero. -/
theorem loadSegment_spec (hm : m.Honest) (hs : Distinct m s) (h : loadSegment m nd g s = .ok s') :
    Distinct m s' ∧ s'.task = s.task ∧ g.ok = true ∧
      (∀ q, s'.writeAt q = if g.Touches q then some (g.write || g.isShared q) else s.writeAt q) ∧
      ∀ x, s'.byte x = if g.Filled x then some (g.source nd x)
        else if g.Touches (x / 4096) ∧ s.writeAt (x / 4096) = none ∧ x < USER_TOP then some 0 else s.byte x := by
  unfold loadSegment at h
  split at h
  · cases h
  rename_i hok
  replace hok : g.ok = true := by simpa using hok
  obtain ⟨s1, h1, h⟩ := ok_of_bind h
  obtain ⟨s2, h2, h⟩ := ok_of_bind h
  cases h
  obtain ⟨hd1, ht1, hw1, hb1⟩ := pass1_spec hm hs h1
  have hst := copySegment_spec hok hd1 h2
  have hd2 := hst.distinct hd1
  obtain ⟨hd3, ht3, hw3, hb3⟩ := pass2_spec (g := g) (n := g.last - g.first) (p := g.first) hd2
  have hw2 : ∀ q, s2.writeAt q = s1.writeAt q := fun q => by rw [Space.writeAt, hst.pages, Space.writeAt]
  have hrange : ∀ q, (g.first ≤ q ∧ q < g.first + (g.last - g.first)) ↔ g.Touches q := by
    intro q
    unfold Segment.Touches
    omega
  refine ⟨hd3, ht3.trans (hst.task.trans ht1), hok, fun q => ?_, fun x => ?_⟩
  · by_cases hq : g.Touches q
    · have hr := (hrange q).2 hq
      have hthere : s1.writeAt q ≠ none := by
        rw [hw1]
        split
        · simp
        · rename_i hnone
          exact fun h => hnone ⟨hr.1, hr.2, h⟩
      rw [if_pos hq, hw3, hw2, if_pos ⟨hr.1, hr.2, hthere⟩]
    · have hout : ∀ {P : Prop}, ¬ (g.first ≤ q ∧ q < g.first + (g.last - g.first) ∧ P) :=
        fun h => hq ((hrange q).1 ⟨h.1, h.2.1⟩)
      rw [if_neg hq, hw3, hw2, if_neg hout, hw1, if_neg hout]
  · rw [hb3, hst.byte, hb1]
    by_cases hx : g.Filled x
    · rw [if_pos hx, if_pos hx]
      rfl
    · rw [if_neg hx, if_neg hx]
      show (if _ then _ else _) = _
      by_cases hz : g.Touches (x / 4096) ∧ s.writeAt (x / 4096) = none ∧ x < USER_TOP
      · have hr := (hrange _).2 hz.1
        rw [if_pos hz, if_pos ⟨hr.1, hr.2, hz.2⟩]
      · rw [if_neg hz, if_neg fun h => hz ⟨(hrange _).1 ⟨h.1, h.2.1⟩, h.2.2⟩]

def segmentsOf (nd : Node) (h : Ehdr) (off : Nat) (is : List Nat) : List Segment :=
  (is.filter fun i => (phdrOf nd h i).type = PT_LOAD).map fun i => (phdrOf nd h i).segment off

variable {h : Ehdr} {off : Nat}

theorem segmentsOf_load {i : Nat} (hi : (phdrOf nd h i).type = PT_LOAD) (is : List Nat) :
    segmentsOf nd h off (i :: is) = (phdrOf nd h i).segment off :: segmentsOf nd h off is := by
  rw [segmentsOf, filter_cons_of_pos (by simpa using hi), map_cons, segmentsOf]

theorem segmentsOf_other {i : Nat} (hi : (phdrOf nd h i).type ≠ PT_LOAD) (is : List Nat) :
    segmentsOf nd h off (i :: is) = segmentsOf nd h off is := by
  rw [segmentsOf, filter_cons_of_neg (by simpa using hi), segmentsOf]

/-- The permission of a page after segments, the last that touches it last. -/
def lastWrite (gs : List Segment) (q : Nat) (w : Option Bool) : Option Bool :=
  gs.foldl (fun w g => if g.Touches q then some (g.write || g.isShared q) else w) w

def lastByte (nd : Node) (gs : List Segment) (x : Nat) (b : Option UInt8) : Option UInt8 :=
  gs.foldl (fun b g => if g.Filled x then some (g.source nd x) else if g.Touches (x / 4096) ∧ b = none then some 0 else b) b

theorem byte_eq_none_iff (hx : x < USER_TOP) : s.byte x = none ↔ s.writeAt (x / 4096) = none := by
  unfold Space.byte Space.pageAt Space.writeAt
  rw [if_pos hx, Option.map_eq_none_iff, Option.map_eq_none_iff]

theorem loadSegments_spec (hm : m.Honest) :
    ∀ {is : List Nat} {s : Space} {top : Nat} {r : Space × Nat}, Distinct m s → loadSegments m nd h off is s top = .ok r →
      Distinct m r.1 ∧ r.1.task = s.task ∧ (∀ g ∈ segmentsOf nd h off is, g.ok = true) ∧
        (∀ q, r.1.writeAt q = lastWrite (segmentsOf nd h off is) q (s.writeAt q)) ∧
        ∀ x < USER_TOP, r.1.byte x = lastByte nd (segmentsOf nd h off is) x (s.byte x)
  | [], s, top, r, hs, hr => by
    cases hr
    exact ⟨hs, rfl, fun g hg => absurd hg not_mem_nil, fun q => rfl, fun x _ => rfl⟩
  | i :: is, s, top, r, hs, hr => by
    rw [loadSegments] at hr
    split at hr
    · cases hr
    split at hr
    · rename_i htype
      obtain ⟨s1, h1, hr⟩ := ok_of_bind hr
      obtain ⟨hd1, ht1, hok, hw1, hb1⟩ := loadSegment_spec hm hs h1
      obtain ⟨hd, ht, hoks, hw, hb⟩ := loadSegments_spec hm hd1 hr
      rw [segmentsOf_load htype]
      refine ⟨hd, ht.trans ht1, forall_mem_cons.2 ⟨hok, hoks⟩, fun q => ?_, fun x hx => ?_⟩
      · rw [hw, hw1]
        rfl
      · rw [hb x hx, hb1, lastByte, lastByte, foldl_cons]
        simp [hx, byte_eq_none_iff hx]
    · rename_i htype
      rw [segmentsOf_other htype]
      exact loadSegments_spec hm hs hr

/-! ## Disjoint segments -/

def Disjoint (gs : List Segment) : Prop := gs.Pairwise fun g g' => ∀ x, ¬ (g.Has x ∧ g'.Has x)

theorem Segment.Filled.has (hok : g.ok = true) (h : g.Filled x) : g.Has x := by
  have := (Segment.of_ok hok).1
  have := h.2
  exact ⟨h.1, by omega⟩

theorem lastByte_cons (nd : Node) (g : Segment) (gs : List Segment) (x : Nat) (b : Option UInt8) :
    lastByte nd (g :: gs) x b = lastByte nd gs x
      (if g.Filled x then some (g.source nd x) else if g.Touches (x / 4096) ∧ b = none then some 0 else b) := rfl

theorem lastByte_keep : ∀ {gs : List Segment}, (∀ g ∈ gs, ¬ g.Filled x) → lastByte nd gs x (some b) = some b
  | [], _ => rfl
  | g :: gs, h => by
    obtain ⟨hg, hgs⟩ := forall_mem_cons.1 h
    rw [lastByte_cons, if_neg hg, if_neg (by simp)]
    exact lastByte_keep hgs

theorem lastByte_filled : ∀ {gs : List Segment} {g : Segment} {o : Option UInt8}, Disjoint gs → (∀ g ∈ gs, g.ok = true) →
    g ∈ gs → g.Filled x → lastByte nd gs x o = some (g.source nd x)
  | c :: gs, g, o, hd, hok, hg, hx => by
    obtain ⟨hc, hd⟩ := pairwise_cons.1 hd
    obtain ⟨hokc, hoks⟩ := forall_mem_cons.1 hok
    rw [lastByte_cons]
    rcases mem_cons.1 hg with rfl | hg
    · rw [if_pos hx]
      exact lastByte_keep fun g' hg' hx' => hc g' hg' x ⟨hx.has hokc, hx'.has (hoks g' hg')⟩
    · exact lastByte_filled hd hoks hg hx

theorem lastByte_zero : ∀ {gs : List Segment} {g : Segment} {o : Option UInt8}, Disjoint gs → (∀ g ∈ gs, g.ok = true) →
    g ∈ gs → g.Has x → ¬ g.Filled x → (o = none ∨ o = some 0) → lastByte nd gs x o = some 0
  | c :: gs, g, o, hd, hok, hg, hx, hnot, ho => by
    obtain ⟨hc, hd⟩ := pairwise_cons.1 hd
    obtain ⟨hokc, hoks⟩ := forall_mem_cons.1 hok
    rw [lastByte_cons]
    rcases mem_cons.1 hg with rfl | hg
    · have hzero : (if g.Touches (x / 4096) ∧ o = none then some 0 else o) = some 0 := by
        rcases ho with rfl | rfl
        · rw [if_pos ⟨hx.touches, rfl⟩]
        · rw [if_neg (by simp)]
      rw [if_neg hnot, hzero]
      exact lastByte_keep fun g' hg' hx' => hc g' hg' x ⟨hx, hx'.has (hoks g' hg')⟩
    · have hnotc : ¬ c.Filled x := fun hxc => hc g hg x ⟨hxc.has hokc, hx⟩
      rw [if_neg hnotc]
      apply lastByte_zero hd hoks hg hx hnot
      split
      · exact Or.inr rfl
      · exact ho

def Segment.Covers (g : Segment) (p : Nat) : Prop := g.vaddr ≤ 4096 * p ∧ 4096 * (p + 1) ≤ g.vaddr + g.memsz

/-- **A page that a segment touches and does not have all of is one of its misaligned ends**, and the other way round. -/
theorem Segment.isShared_iff (h : g.Touches p) : g.isShared p = true ↔ ¬ g.Covers p := by
  obtain ⟨hlo, hhi⟩ := h
  unfold Segment.isShared Segment.Covers
  unfold Segment.first Segment.last at *
  rw [Bool.or_eq_true, decide_eq_true_eq, decide_eq_true_eq]
  omega

theorem lastWrite_cons (g : Segment) (gs : List Segment) (q : Nat) (w : Option Bool) :
    lastWrite (g :: gs) q w = lastWrite gs q (if g.Touches q then some (g.write || g.isShared q) else w) := rfl

theorem Segment.write_or_shared (h : g.Touches q) (hw : g.write = true ∨ ¬ g.Covers q) :
    (g.write || g.isShared q) = true := by
  rcases hw with hw | hc
  · rw [hw, Bool.true_or]
  · rw [(Segment.isShared_iff h).2 hc, Bool.or_true]

theorem lastWrite_true : ∀ {gs : List Segment}, (∀ g ∈ gs, g.Touches q → g.write = true ∨ ¬ g.Covers q) →
    lastWrite gs q (some true) = some true
  | [], _ => rfl
  | g :: gs, h => by
    obtain ⟨hg, hgs⟩ := forall_mem_cons.1 h
    rw [lastWrite_cons]
    by_cases ht : g.Touches q
    · rw [if_pos ht, Segment.write_or_shared ht (hg ht)]
      exact lastWrite_true hgs
    · rw [if_neg ht]
      exact lastWrite_true hgs

theorem lastWrite_writable : ∀ {gs : List Segment} {g : Segment} {w : Option Bool}, Disjoint gs → g ∈ gs →
    g.write = true ∨ ¬ g.Covers (x / 4096) → g.Has x → lastWrite gs (x / 4096) w = some true
  | c :: gs, g, w, hd, hg, hw, hx => by
    obtain ⟨hc, hd⟩ := pairwise_cons.1 hd
    rw [lastWrite_cons]
    rcases mem_cons.1 hg with rfl | hg
    · rw [if_pos hx.touches, Segment.write_or_shared hx.touches hw]
      refine lastWrite_true fun g' hg' _ => Or.inr fun hcov => hc g' hg' x ⟨hx, ?_⟩
      have := hcov.1
      have := hcov.2
      constructor <;> omega
    · exact lastWrite_writable hd hg hw hx

theorem lastWrite_false : ∀ {gs : List Segment} {w : Option Bool}, (∀ g ∈ gs, g.Touches q → g.write = false ∧ g.Covers q) →
    (w = some false ∨ ∃ g ∈ gs, g.Touches q) → lastWrite gs q w = some false
  | [], w, _, h => by
    rcases h with rfl | ⟨g, hg, _⟩
    · rfl
    · exact absurd hg not_mem_nil
  | c :: gs, w, h, hw => by
    obtain ⟨hc, hgs⟩ := forall_mem_cons.1 h
    rw [lastWrite_cons]
    by_cases ht : c.Touches q
    · obtain ⟨hwrite, hcov⟩ := hc ht
      have hshared : c.isShared q = false := by
        cases hsh : c.isShared q with
        | false => rfl
        | true => exact absurd hcov ((Segment.isShared_iff ht).1 hsh)
      rw [if_pos ht, hwrite, hshared]
      exact lastWrite_false hgs (Or.inl rfl)
    · rw [if_neg ht]
      refine lastWrite_false hgs (hw.imp id ?_)
      rintro ⟨g, hg, hgt⟩
      rcases mem_cons.1 hg with rfl | hg
      · exact absurd hgt ht
      · exact ⟨g, hg, hgt⟩

/-! ## The thread's block -/

theorem task_halMemMap (m : Machine) (s : Space) (f p : Nat) (w : Bool) : (halMemMap m s f p w).task = s.task := by
  obtain ⟨s1, hwalk, hmap | ⟨_, hmap⟩⟩ := halMemMap_cases m s f p w
  · rw [hmap, hwalk.task]
  · rw [hmap]
    exact hwalk.task

theorem task_storeByte (h : s.storeByte va b = some s') : s'.task = s.task := by
  unfold Space.storeByte at h
  obtain ⟨a, _, rfl⟩ := Option.map_eq_some_iff.1 h
  rfl

theorem task_store : ∀ {n : Nat} {s s' : Space} {va : Nat} {src : Buffer}, Space.store n s va src = some s' →
    s'.task = s.task
  | 0, _, _, _, _, h => by
    cases h
    rfl
  | n + 1, s, s', va, src, h => by
    obtain ⟨s1, h1, h2⟩ := Option.bind_eq_some_iff.1 h
    rw [task_store h2, task_storeByte h1]

/-- The pages of `Q` are as they were, and no other page leads to one of their frames. -/
structure Shielded (Q : Nat → Prop) (s0 s : Space) : Prop where
  pages : ∀ q, Q q → s.pages q = s0.pages q
  frames : ∀ q a, Q q → s0.pages q = some a → s.frames a.frame = s0.frames a.frame
  away : ∀ p a q c, ¬ Q p → Q q → s.pages p = some a → s0.pages q = some c → a.frame ≠ c.frame
  calls : s0.calls ≤ s.calls

variable {Q : Nat → Prop} {s0 : Space}

theorem Shielded.refl (hs : Distinct m s) : Shielded Q s s :=
  ⟨fun _ _ => rfl, fun _ _ _ _ => rfl, fun p a q c hp hq ha hc hac => hp (hs.inj p q a c ha hc hac ▸ hq), Nat.le_refl _⟩

theorem Shielded.storeByte (h : Shielded Q s0 s) (hva : ¬ Q (va / 4096)) (hst : s.storeByte va b = some s') :
    Shielded Q s0 s' := by
  unfold Space.storeByte at hst
  obtain ⟨a, ha, rfl⟩ := Option.map_eq_some_iff.1 hst
  unfold Space.pageAt at ha
  split at ha
  · refine ⟨h.pages, fun q c hq hc => ?_, h.away, h.calls⟩
    have hne : c.frame ≠ a.frame := fun hca => h.away _ a q c hva hq ha hc hca.symm
    exact (update_of_ne hne ..).trans (h.frames q c hq hc)
  · cases ha

theorem Shielded.store : ∀ {n : Nat} {s s' : Space} {va : Nat} {src : Buffer}, Shielded Q s0 s →
    (∀ x, va ≤ x → x < va + n → ¬ Q (x / 4096)) → Space.store n s va src = some s' → Shielded Q s0 s'
  | 0, _, _, _, _, h, _, hst => by
    cases hst
    exact h
  | n + 1, s, s', va, src, h, hva, hst => by
    obtain ⟨s1, h1, h2⟩ := Option.bind_eq_some_iff.1 hst
    exact (h.storeByte (hva va (Nat.le_refl _) (by omega)) h1).store (fun x hx hx' => hva x (by omega) (by omega)) h2

theorem Shielded.copyUser : ∀ {n : Nat} {s s' : Space} {dst src : Nat}, Shielded Q s0 s →
    (∀ x, dst ≤ x → x < dst + n → ¬ Q (x / 4096)) → copyUser n s dst src = some s' → Shielded Q s0 s'
  | 0, _, _, _, _, h, _, hst => by
    cases hst
    exact h
  | n + 1, s, s', dst, src, h, hdst, hst => by
    obtain ⟨c, _, hst⟩ := Option.bind_eq_some_iff.1 hst
    obtain ⟨s1, h1, h2⟩ := Option.bind_eq_some_iff.1 hst
    exact (h.storeByte (hdst dst (Nat.le_refl _) (by omega)) h1).copyUser (fun x hx hx' => hdst x (by omega) (by omega)) h2

theorem Shielded.walked (hs : Distinct m s0) (h : Shielded Q s0 s) (hw : Walked m { s with calls := s.calls + 1 } s') :
    Shielded Q s0 s' := by
  refine ⟨fun q hq => (congrFun hw.pages q).trans (h.pages q hq), fun q a hq ha => ?_, fun r a q c hr hq ha hc => ?_,
    h.calls.trans ((Nat.le_succ _).trans hw.calls)⟩
  · have hkept := hw.frames a.frame fun i hi hai => hs.new i _ q a (h.calls.trans ((Nat.le_succ _).trans hi)) hai ha rfl
    exact hkept.trans (h.frames q a hq ha)
  · exact h.away r a q c hr hq ((congrFun hw.pages r).symm.trans ha) hc

theorem Shielded.map (hs : Distinct m s0) (h : Shielded Q s0 s) (hp : ¬ Q p) :
    Shielded Q s0 (halMemMap m { s with calls := s.calls + 1 } ((m.alloc s.calls).getD 0) p true) := by
  obtain ⟨s1, hwalk, hmap | ⟨_, hmap⟩⟩ := halMemMap_cases m { s with calls := s.calls + 1 } ((m.alloc s.calls).getD 0) p true
  · rw [hmap]
    exact h.walked hs hwalk
  · have hsh := h.walked hs hwalk
    rw [hmap]
    refine ⟨fun q hq => ?_, hsh.frames, fun r a q c hr hq ha hc => ?_, hsh.calls⟩
    · have hqp : q ≠ p := fun hqp => hp (hqp ▸ hq)
      exact (update_of_ne hqp ..).trans (h.pages q hq)
    · by_cases hrp : r = p
      · subst hrp
        dsimp only at ha
        rw [update_self] at ha
        obtain rfl := Option.some.inj ha
        cases hf : m.alloc s.calls with
        | none => exact (hs.pos q c hc).symm
        | some f => exact (hs.new _ f q c h.calls hf hc).symm
      · exact h.away r a q c hr hq (by dsimp only at ha; rwa [update_of_ne hrp] at ha) hc

theorem Shielded.tlsPages (hs : Distinct m s0) : ∀ {n va : Nat} {s s' : Space}, Shielded Q s0 s →
    (∀ x, va ≤ x → x < va + n * 4096 → ¬ Q (x / 4096)) → tlsPages m n va s = .ok s' → Shielded Q s0 s' ∧ s'.task = s.task
  | 0, _, _, _, h, _, hst => by
    cases hst
    exact ⟨h, rfl⟩
  | n + 1, va, s, s', h, hva, hst => by
    have hpage : ∀ x, va ≤ x → x < va + 4096 → ¬ Q (x / 4096) := fun x hx hx' => hva x hx (by omega)
    have hnext : ∀ x, va + 4096 ≤ x → x < va + 4096 + n * 4096 → ¬ Q (x / 4096) :=
      fun x hx hx' => hva x (by omega) (by omega)
    have hmap := h.map hs (hpage va (Nat.le_refl _) (by omega))
    rw [Elf.tlsPages] at hst
    split at hst
    · cases hst
    · rename_i s1 h1
      have hstored := Shielded.store hmap hpage h1
      obtain ⟨hrest, htask⟩ := hstored.tlsPages hs hnext hst
      refine ⟨hrest, htask.trans ?_⟩
      rw [task_store h1, task_halMemMap]

theorem Shielded.writeAt (h : Shielded Q s0 s) (hq : Q q) : s.writeAt q = s0.writeAt q := by
  rw [Space.writeAt, h.pages q hq, Space.writeAt]

theorem Shielded.byte (h : Shielded Q s0 s) (hx : Q (x / 4096)) : s.byte x = s0.byte x := by
  unfold Space.byte Space.pageAt
  rw [h.pages _ hx]
  split
  · cases hp : s0.pages (x / 4096) with
    | none => rfl
    | some a => rw [Option.map_some, Option.map_some, h.frames _ a hx hp]
  · rfl

theorem Shielded.setTask (h : Shielded Q s0 s) (g : ElfTask → ElfTask) : Shielded Q s0 (s.setTask g) :=
  ⟨h.pages, h.frames, h.away, h.calls⟩

theorem Distinct.setTask (hs : Distinct m s) (g : ElfTask → ElfTask) : Distinct m (s.setTask g) :=
  hs.of_pages rfl rfl (Nat.le_refl _)

/-- The addresses the block of a main executable is written at: its pages, the image that is copied there and the pointer. -/
def ElfTask.Block (t : ElfTask) (x : Nat) : Prop :=
  t.mmapBase ≤ x ∧ x < t.mmapBase + (t.tlsTotal + 4095) / 4096 * 4096 ∨
    (0 < t.tlsMemsz ∧ 0 < t.tlsFilesz ∧ t.tlsVaddr ≠ 0) ∧ t.mmapBase ≤ x ∧ x < t.mmapBase + t.tlsFilesz ∨
    (t.mmapBase + t.alignedTlsSize) % 2 ^ 64 ≤ x ∧ x < (t.mmapBase + t.alignedTlsSize) % 2 ^ 64 + 8

theorem setupTls_shielded (hs : Distinct m s) (hQ : ∀ x, s.task.Block x → ¬ Q (x / 4096)) (h : setupTls m s = .ok s') :
    Shielded Q s s' := by
  unfold setupTls at h
  obtain ⟨s1, h1, h⟩ := ok_of_bind h
  obtain ⟨hsh1, ht1⟩ := (Shielded.refl hs).tlsPages hs (fun x hx hx' => hQ x (Or.inl ⟨hx, hx'⟩)) h1
  dsimp only at h
  split at h
  · cases h
  · rename_i s2 hc
    cases h
    obtain ⟨s3, h3, h2⟩ := Option.bind_eq_some_iff.1 hc
    refine Shielded.setTask ?_ _
    have hsh3 : Shielded Q s s3 := by
      rw [ht1] at h3
      split at h3
      · rename_i hcopied
        exact hsh1.copyUser (fun x hx hx' => hQ x (Or.inr (Or.inl ⟨hcopied, hx, hx'⟩))) h3
      · cases h3
        exact hsh1
    exact hsh3.store (fun x hx hx' => hQ x (Or.inr (Or.inr ⟨hx, hx'⟩))) h2

theorem finish_shielded {base top : Nat} (hs : Distinct m s)
    (hQ : base = 0 ∨ base = 0x200000000 → ∀ x, s.task.Block x → ¬ Q (x / 4096)) (h : finish m base top s = .ok s') :
    Shielded Q s s' := by
  unfold finish at h
  split at h
  · rename_i hmain
    have hsh := setupTls_shielded (hs.setTask fun t => { t with brk := top }) (hQ hmain) h
    exact ⟨hsh.pages, hsh.frames, hsh.away, hsh.calls⟩
  · cases h
    exact (Shielded.refl hs).setTask _

theorem pass3_none {loadLib : List UInt8 → Nat → Space → Except Stop Space} :
    ∀ {is : List Nat}, (∀ i ∈ is, (phdrOf nd h i).type ≠ PT_DYNAMIC ∧ (phdrOf nd h i).type ≠ PT_TLS) →
      pass3 loadLib nd h off is s = .ok s
  | [], _ => rfl
  | i :: is, hno => by
    obtain ⟨⟨hdyn, htls⟩, his⟩ := forall_mem_cons.1 hno
    unfold pass3
    simp only [if_neg hdyn, if_neg htls]
    exact pass3_none his

/-! ## The whole load -/

def Node.segments (nd : Node) (base : Nat) : List Segment :=
  segmentsOf nd (ehdrOf nd) (loadOffset (ehdrOf nd) base) (List.range (ehdrOf nd).phnum)

theorem block_setAbi (t : ElfTask) (abi : UInt8) : (t.setAbi abi).Block = t.Block := by
  unfold ElfTask.setAbi
  split <;> rfl

/-- **What a load leaves of segments that are disjoint**: the file's bytes, zeros behind them, pages that can be written for
the segments with that permission and at a misaligned end of any, and pages that cannot where a segment without it has all
of the page.  The block of the thread, which only a main executable gets, is not to lie in these pages. -/
theorem elfLoadFile_segments (hm : m.Honest) (hs : Distinct m s) {fuel base entry : Nat} {path : List UInt8} {nd : Node}
    (hnode : m.lookup path = some nd) (h : elfLoadFile m fuel path base s = .ok (entry, s'))
    (hno : ∀ i < (ehdrOf nd).phnum, (phdrOf nd (ehdrOf nd) i).type ≠ PT_DYNAMIC ∧ (phdrOf nd (ehdrOf nd) i).type ≠ PT_TLS)
    (hd : Disjoint (nd.segments base))
    (hblock : base = 0 ∨ base = 0x200000000 → ∀ x, s.task.Block x → ∀ g ∈ nd.segments base, ¬ g.Touches (x / 4096)) :
    ∀ g ∈ nd.segments base,
      (∀ x, g.Filled x → s'.byte x = some (g.source nd x)) ∧
      (∀ x, g.Has x → ¬ g.Filled x → s.byte x = none ∨ s.byte x = some 0 → s'.byte x = some 0) ∧
      (∀ x, g.Has x → g.write = true ∨ ¬ g.Covers (x / 4096) → s'.writeAt (x / 4096) = some true) ∧
      ∀ p, g.Touches p → (∀ g' ∈ nd.segments base, g'.Touches p → g'.write = false ∧ g'.Covers p) →
      s'.writeAt p = some false := by
  cases fuel with
  | zero => cases h
  | succ fuel =>
    unfold elfLoadFile at h
    simp only [hnode] at h
    split at h
    · cases h
    split at h
    · cases h
    obtain ⟨⟨s1, top⟩, h1, h⟩ := ok_of_bind h
    obtain ⟨s2, h2, h⟩ := ok_of_bind h
    obtain ⟨s3, h3, h⟩ := ok_of_bind h
    cases h
    dsimp only at h2 h3
    rw [pass3_none fun i hi => hno i (mem_range.1 hi)] at h2
    cases h2
    obtain ⟨hd1, htask, hok, hw, hb⟩ := loadSegments_spec hm (hs.setTask _) h1
    dsimp only at hd1 htask hw hb
    have hsh : Shielded (fun p => ∃ g ∈ nd.segments base, g.Touches p) s1 s' := by
      refine finish_shielded hd1 (fun hmain x hx => ?_) h3
      have hx' : s.task.Block x := by
        rw [htask] at hx
        rwa [Space.setTask, block_setAbi] at hx
      rintro ⟨g, hg, ht⟩
      exact hblock hmain x hx' g hg ht
    intro g hg
    have hbytes : ∀ x, g.Has x → s'.byte x = lastByte nd (nd.segments base) x (s.byte x) := by
      intro x hx
      have htop := (Segment.of_ok (hok g hg)).2.2.2
      rw [hsh.byte ⟨g, hg, hx.touches⟩]
      exact hb x (by have := hx.2; omega)
    refine ⟨fun x hx => ?_, fun x hx hnot hz => ?_, fun x hx hwrite => ?_, fun p hp hall => ?_⟩
    · rw [hbytes x (hx.has (hok g hg))]
      exact lastByte_filled hd hok hg hx
    · rw [hbytes x hx]
      exact lastByte_zero hd hok hg hx hnot hz
    · rw [hsh.writeAt ⟨g, hg, hx.touches⟩, hw]
      exact lastWrite_writable hd hg hwrite hx
    · rw [hsh.writeAt ⟨g, hg, hp⟩, hw]
      exact lastWrite_false hall (Or.inr ⟨g, hg, hp⟩)

def oneSegment (flags low high : UInt8) : Node where
  length := 176
  content := fun i => match i with
    | 0 => 0x7F | 1 => 69 | 2 => 76 | 3 => 70 | 16 => 3 | 18 => 62 | 32 => 64 | 54 => 56 | 56 => 1
    | 64 => 1 | 68 => flags | 96 => 16 | 104 => low | 105 => high | _ => 0
  uid := 0
  gid := 0
  mask := 0
  ioOk := fun _ _ => true

def machineOf (nd : Node) : Machine := ⟨fun path => if path = [47, 97] then some nd else none, fun i => some (i + 1)⟩
def emptySpace : Space := ⟨fun _ => none, fun _ _ => none, fun _ _ => 0, 0,
    ⟨0, 0, 0, false, 0, 0, 0, 0, 0, 0x700000000000, 0⟩⟩

theorem machineOf_honest (nd : Node) : (machineOf nd).Honest := by
  refine ⟨fun i f h => ?_, fun i j f hi hj => ?_⟩
  · cases h
    exact Nat.succ_ne_zero i
  · cases hi
    cases hj
    rfl

theorem emptySpace_distinct (m : Machine) : Distinct m emptySpace := by
  refine ⟨?_, ?_, ?_, ?_⟩
  · rintro p a ⟨⟩
  · rintro p q a b ⟨⟩
  · rintro i f p a hi hf ⟨⟩
  · rintro p a ⟨⟩

def loadOne (nd : Node) : Except Stop (Nat × Space) := elfLoadFile (machineOf nd) 1 [47, 97] 0x700000000000 emptySpace
def loadedOne (nd : Node) : Option (Nat × Space) := (loadOne nd).toOption

theorem loadOne_of_loaded (nd : Node) (h : (loadedOne nd).isSome = true) : ∃ r, loadOne nd = .ok r := by
  unfold loadedOne at h
  cases hr : loadOne nd with
  | error e => rw [hr] at h; cases h
  | ok r => exact ⟨r, rfl⟩

/-- A read-only segment of a page and 16 bytes, and one of 16 bytes behind it that can be written. -/
def twoSegments : Node := { oneSegment 4 16 16 with
  content := fun i => match i with
    | 56 => 2 | 120 => 1 | 124 => 6 | 136 => 16 | 137 => 16 | 152 => 8 | 160 => 16 | i => (oneSegment 4 16 16).content i }

/-- The first page cannot be written, and the page the two share can. -/
theorem elfLoadFile_segments_shared : ∃ r, loadOne twoSegments = .ok r ∧ r.2.byte 0x700000000003 = some 70 ∧
    r.2.byte 0x700000001011 = some 69 ∧ r.2.byte 0x700000001018 = some 0 ∧ r.2.writeAt 0x700000000 = some false ∧
      r.2.writeAt 0x700000001 = some true := by
  obtain ⟨r, hr⟩ := loadOne_of_loaded twoSegments (by decide +kernel)
  have hno : ∀ i < 2, (phdrOf twoSegments (ehdrOf twoSegments) i).type ≠ PT_DYNAMIC ∧
      (phdrOf twoSegments (ehdrOf twoSegments) i).type ≠ PT_TLS := by decide +kernel
  have hsegs : twoSegments.segments 0x700000000000 =
      [⟨0x700000000000, 0x1010, 16, 0, false⟩, ⟨0x700000001010, 16, 8, 0, true⟩] := by decide +kernel
  have hd : Disjoint (twoSegments.segments 0x700000000000) := by
    rw [hsegs]
    refine pairwise_pair.2 fun x h => ?_
    have hlt := h.1.2
    have hle := h.2.1
    dsimp only at hlt hle
    omega
  have hall := elfLoadFile_segments (machineOf_honest _) (emptySpace_distinct _) (if_pos rfl) hr hno hd
    (fun h => absurd h (by decide))
  rw [hsegs, forall_mem_cons, forall_mem_singleton] at hall
  obtain ⟨⟨hfilled, -, -, hpages⟩, hfilled', hzero, hwrite, -⟩ := hall
  refine ⟨r, hr, hfilled _ (by decide), hfilled' _ (by decide), hzero _ ⟨by decide, by decide⟩ (by decide) (Or.inl rfl),
    hpages _ (by decide) ?_, hwrite 0x700000001010 ⟨by decide, by decide⟩ (Or.inl rfl)⟩
  rw [forall_mem_cons, forall_mem_singleton]
  exact ⟨fun _ => ⟨rfl, by decide, by decide⟩, fun ht => absurd ht (by decide)⟩

/-- The page of a read-only segment of 32 bytes, which no other segment touches, can be written. -/
theorem part_of_page_writable :
    (∀ i < (ehdrOf (oneSegment 4 32 0)).phnum, (phdrOf (oneSegment 4 32 0) (ehdrOf (oneSegment 4 32 0)) i).type = PT_LOAD) ∧
      ((oneSegment 4 32 0).segments 0x700000000000).length = 1 ∧
      (∀ g ∈ (oneSegment 4 32 0).segments 0x700000000000, g.write = false ∧ g.Touches 0x700000000) ∧
      (loadedOne (oneSegment 4 32 0)).map (fun r => r.2.writeAt 0x700000000) = some (some true) := by
  decide +kernel

end EterOS.Elf
