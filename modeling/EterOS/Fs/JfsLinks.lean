import EterOS.Fs.JfsFile
import EterOS.Fs.JfsOps
/-!
# JfsLinks — link counts

`links` counts the entries of all directories that name an inode.  Each of the steps the operations are made of moves
the count of entries or the count in the inode by one; `Linked` says that the two agree for every inode an entry names.
It fails where an inode is cleared that is still named: a file renamed onto itself, or a directory that is cleared with
entries in it.
-/
namespace EterOS.Fs

open List

variable {s s' s'' : Jfs} {d c t idx parent target : UInt32} {name : CStr} {a : CStr × UInt32}
  {r : Jfs × Except Errno Unit}

/-! ## Counting entries -/

def allEntries (s : Jfs) : List (CStr × UInt32) :=
  (List.range s.nextInode.toNat).flatMap fun d => entries s (UInt32.ofNat d)

def links (s : Jfs) (c : UInt32) : Nat := (allEntries s).countP fun p => p.2 = c

theorem toNat_ofNat_of_lt_toNat {n : UInt32} {k : Nat} (hk : k < n.toNat) : (UInt32.ofNat k).toNat = k :=
  UInt32.toNat_ofNat_of_lt' (Nat.lt_trans hk n.toNat_lt)

theorem mem_allEntries : a ∈ allEntries s ↔ ∃ d, Known s d ∧ a ∈ entries s d := by
  simp only [allEntries, mem_flatMap, mem_range]
  constructor
  · rintro ⟨k, hk, hmem⟩
    refine ⟨UInt32.ofNat k, ?_, hmem⟩
    rw [Known, toNat_ofNat_of_lt_toNat hk]
    exact hk
  · rintro ⟨d, hd, hmem⟩
    exact ⟨d.toNat, hd, by rwa [UInt32.ofNat_toNat]⟩

theorem links_pos : 0 < links s c ↔ ∃ d name, Known s d ∧ (name, c) ∈ entries s d := by
  simp only [links, countP_pos_iff, mem_allEntries, decide_eq_true_eq]
  constructor
  · rintro ⟨⟨name, c'⟩, ⟨d, hd, hmem⟩, rfl⟩
    exact ⟨d, name, hd, hmem⟩
  · rintro ⟨d, name, hd, hmem⟩
    exact ⟨(name, c), ⟨d, hd, hmem⟩, rfl⟩

theorem Wf.known_of_links (h : Wf s) (hc : 0 < links s c) : Known s c := by
  obtain ⟨d, name, hd, hmem⟩ := links_pos.1 hc
  exact h.entry_known hd hmem

theorem links_congr (hn : s'.nextInode = s.nextInode) (he : ∀ d, Known s d → entries s' d = entries s d) :
    links s' c = links s c := by
  have hall : allEntries s' = allEntries s := by
    rw [allEntries, allEntries, hn]
    refine flatMap_congr fun k hk => he _ ?_
    have hk := mem_range.1 hk
    rw [Known, toNat_ofNat_of_lt_toNat hk]
    exact hk
  rw [links, links, hall]

theorem links_inserted (hn : s'.nextInode = s.nextInode) (hd : Known s d) (hi : Inserted a (entries s d) (entries s' d))
    (he : ∀ d', Known s d' → d' ≠ d → entries s' d' = entries s d') :
    links s' c = links s c + if a.2 = c then 1 else 0 := by
  have hall : Inserted a (allEntries s) (allEntries s') := by
    rw [allEntries, allEntries, hn]
    refine .flatMap (i := d.toNat) nodup_range (mem_range.2 hd) ?_ fun k hk hne => he _ ?_ ?_
    · rw [UInt32.ofNat_toNat]
      exact hi
    · rw [Known, toNat_ofNat_of_lt_toNat (mem_range.1 hk)]
      exact mem_range.1 hk
    · rintro rfl
      exact hne (toNat_ofNat_of_lt_toNat (mem_range.1 hk)).symm
  rw [links, links, hall.countP]
  simp

/-! ## What the steps do to the counts -/

def linkCount (s : Jfs) (c : UInt32) : Nat := (getInode s c).nlink.toNat

section Steps

variable (h : Wf s)
include h

theorem InodeStep.links_eq (hs : InodeStep s s' d) (hd : Known s d) (he : entries s' d = entries s d) :
    links s' c = links s c := by
  refine links_congr hs.next fun d' hd' => ?_
  by_cases hne : d' = d
  · rw [hne, he]
  · exact hs.entries_ne h hd hd' hne

theorem Relinked.links_eq {n : UInt32} (hr : Relinked s s' d n) (hd : Known s d) : links s' c = links s c :=
  hr.step.links_eq h hd hr.entries

theorem Alloc.links_eq (ha : Alloc s s') : links s' c = links s c := by
  have hall : allEntries s' = allEntries s := by
    rw [allEntries, allEntries, ha.next, range_succ, flatMap_append, flatMap_singleton, UInt32.ofNat_toNat, ha.empty,
      append_nil]
    refine flatMap_congr fun k hk => ha.entries_eq h ?_
    have hk := mem_range.1 hk
    rw [Known, toNat_ofNat_of_lt_toNat hk]
    exact hk
  rw [links, links, hall]

theorem Added.links_ok {child : UInt32} (ha : Added s d name child r) (hd : Known s d) (hr : r.2 = .ok ())
    (hc : child ≠ 0) : links r.1 c = links s c + if child = c then 1 else 0 :=
  links_inserted ha.step.next hd (ha.ok hr hc) fun _ hd' hne => ha.step.toInodeStep.entries_ne h hd hd' hne

theorem Added.links_same {child : UInt32} (ha : Added s d name child r) (hd : Known s d)
    (hr : child = 0 ∨ ∃ e, r.2 = .error e) : links r.1 c = links s c := by
  refine ha.step.toInodeStep.links_eq h hd ?_
  rcases hr with hc | ⟨e, he⟩
  · exact ha.zero hc
  · exact ha.error e he

theorem Removed.links_ok {child : UInt32} (hr : Removed s d name (s', .ok child)) (hd : Known s d) :
    links s c = links s' c + if child = c then 1 else 0 :=
  links_inserted hr.step.next.symm (hr.step.known.2 hd) (hr.ok child rfl).2.2 fun _ hd' hne =>
    (hr.step.toInodeStep.entries_ne h hd (hr.step.known.1 hd') hne).symm

omit h in
theorem DirStep.linkCount_eq (hs : DirStep s s' d) (hk : Known s idx) : linkCount s' idx = linkCount s idx := by
  rw [linkCount, linkCount]
  by_cases hne : idx = d
  · rw [hne, hs.nlink]
  · rw [hs.inode idx hk hne]

end Steps

/-! ## The invariant -/

structure Linked (s : Jfs) : Prop where
  wf : Wf s
  count : ∀ c, 0 < links s c → linkCount s c = links s c

def Inode.IsClear (x : Inode) : Prop := x.size = 0 ∧ x.flags = 0 ∧ x.nlink = 0 ∧ ∀ i, x.blocks i = 0

/-- If the inode loses its last link, it is no directory that names another. -/
def LastOk (s : Jfs) (c : UInt32) : Prop := linkCount s c ≤ 1 → ∀ p ∈ entries s c, p.2 = c

theorem Linked.not_clear (h : Linked s) (hpos : 0 < links s c) : ¬ (getInode s c).IsClear := by
  intro hcl
  have := h.count c hpos
  rw [linkCount, hcl.2.2.1, UInt32.toNat_zero] at this
  omega

theorem Removed.inode {r : Jfs × Except Errno UInt32} (hr : Removed s d name r) (hk : Known s idx) :
    getInode r.1 idx = getInode s idx := by
  by_cases hne : idx = d
  · rw [hne, hr.same]
  · exact hr.step.inode idx hk hne

theorem Removed.entries_subset (h : Wf s) (hd : Known s d) {child : UInt32} (hr : Removed s d name (s', .ok child))
    (hk : Known s idx) (hmem : a ∈ entries s' idx) : a ∈ entries s idx := by
  by_cases hne : idx = d
  · subst hne
    exact (hr.ok child rfl).2.2.mem_iff.2 (.inr hmem)
  · rwa [hr.step.toInodeStep.entries_ne h hd hk hne] at hmem

structure Freed (s s' : Jfs) (d : UInt32) (name : CStr) : Prop where
  linked : Linked s'
  next : s'.nextInode = s.nextInode
  links_le : ∀ x, links s' x ≤ links s x
  clear : ∀ x, 0 < links s x → links s' x = 0 → (getInode s' x).IsClear
  kept : ∀ x, Known s x → 0 < links s' x → getInode s' x = { getInode s x with nlink := (getInode s' x).nlink }
  disk : ∀ x, Known s x → x ≠ d → ∀ i, (getInode s x).blocks i ≠ 0 →
    s'.disk ((getInode s x).blocks i) = s.disk ((getInode s x).blocks i)
  lookup : ∀ d' n, Known s d' → d' ≠ d ∨ n ≠ name → lookup (entries s' d') n = lookup (entries s d') n ∧
    (entries s' d').countP (fun p => p.1 = n) = (entries s d').countP fun p => p.1 = n

theorem Freed.refl (h : Linked s) : Freed s s d name where
  linked := h
  next := rfl
  links_le := fun _ => Nat.le_refl _
  clear := fun _ hpos h0 => absurd h0 (Nat.pos_iff_ne_zero.1 hpos)
  kept := fun _ _ _ => rfl
  disk := fun _ _ _ _ _ => rfl
  lookup := fun _ _ _ _ => ⟨rfl, rfl⟩

/-- **An entry and a link go together**: the counts still agree, and an inode that lost its last entry is cleared. -/
theorem Unlinked.freed (h : Linked s) (hd : Known s d) (hu : Unlinked s s' d name c s'') (hlast : LastOk s c) :
    Freed s s'' d name ∧ ∀ x, links s x = links s'' x + if c = x then 1 else 0 := by
  have hrem := hu.removed
  have hwf' := hrem.step.wf
  obtain ⟨-, hck, hins⟩ := hrem.ok c rfl
  have hlinks := fun x => hrem.links_ok (c := x) h.wf hd
  have hck' : Known s' c := hrem.step.known.2 hck
  have hcpos : 0 < links s c := by
    have := hlinks c
    rw [if_pos rfl] at this
    omega
  have hcount := h.count c hcpos
  have hinode : ∀ x, Known s x → getInode s' x = getInode s x := fun x hx => hrem.inode hx
  have hcount' : linkCount s' c = linkCount s c := by rw [linkCount, hinode c hck, linkCount]
  -- no directory loses an entry with the link
  have hent : entries s'' c = entries s' c := by
    by_cases hle : linkCount s' c ≤ 1
    · rw [(hu.dropped.last hle).2.2.2]
      symm
      refine eq_nil_iff_forall_not_mem.2 fun p hp => ?_
      have hself := hlast (hcount' ▸ hle) p (hrem.entries_subset h.wf hd hck hp)
      have hpos : 0 < links s' c := links_pos.2 ⟨c, p.1, hck', hself ▸ hp⟩
      have := hlinks c
      rw [if_pos rfl] at this
      omega
    · exact (hu.dropped.more (Nat.lt_of_not_le hle)).entries
  have hent' : ∀ d', Known s d' → entries s'' d' = entries s' d' := by
    intro d' hd'
    by_cases hne : d' = c
    · rw [hne, hent]
    · exact hu.dropped.step.entries_ne hwf' hck' (hrem.step.known.2 hd') hne
  have hlinks' : ∀ x, links s x = links s'' x + if c = x then 1 else 0 := fun x => by
    rw [hu.dropped.step.links_eq hwf' hck' hent]
    exact hlinks x
  have hother : ∀ x, Known s x → x ≠ c → getInode s'' x = getInode s x := fun x hx hne => by
    rw [hu.dropped.step.inode x (hrem.step.known.2 hx) hne, hinode x hx]
  have hc := hlinks' c
  rw [if_pos rfl] at hc
  refine ⟨⟨⟨hu.dropped.step.wf, fun x hpos => ?_⟩, hu.dropped.step.next.trans hrem.step.next, fun x => ?_,
    fun x hpos h0 => ?_, fun x hx hpos => ?_, fun x hx hne i hi => ?_, fun d' n hd' hne => ?_⟩, hlinks'⟩
  · have hxk : Known s x := h.wf.known_of_links (by have := hlinks' x; omega)
    by_cases hxc : x = c
    · subst hxc
      have hlt : 1 < linkCount s' x := by omega
      have hone : (1 : UInt32) ≤ (getInode s' x).nlink := by
        rw [UInt32.le_iff_toNat_le, UInt32.toNat_one]
        exact Nat.le_of_lt hlt
      rw [linkCount, (hu.dropped.more hlt).inode, UInt32.toNat_sub_of_le _ _ hone, UInt32.toNat_one]
      rw [linkCount] at hcount'
      omega
    · have := hlinks' x
      rw [if_neg fun h => hxc h.symm] at this
      rw [linkCount, hother x hxk hxc, ← linkCount, h.count x (by omega)]
      omega
  · have := hlinks' x
    omega
  · have hxc : c = x := by
      by_contra hne
      have := hlinks' x
      rw [if_neg hne] at this
      omega
    subst hxc
    rw [(hu.dropped.last (show linkCount s' c ≤ 1 by omega)).2.1]
    exact ⟨rfl, rfl, rfl, fun _ => rfl⟩
  · by_cases hxc : x = c
    · subst hxc
      rw [(hu.dropped.more (show 1 < linkCount s' x by omega)).inode, hinode x hx]
    · rw [hother x hx hxc]
  · rw [hu.dropped.disk (hrem.step.taken (h.wf.taken x hx i hi))]
    exact hrem.step.toInodeStep.disk_eq h.wf hd hx hne hi
  · rw [hent' d' hd']
    by_cases hdd : d' = d
    · subst hdd
      obtain ⟨hl, hcnt⟩ := lookup_countP_of_inserted hins (hne.resolve_left (not_not.2 rfl))
      exact ⟨hl.symm, hcnt.symm⟩
    · rw [hrem.step.toInodeStep.entries_ne h.wf hd hd' hdd]
      exact ⟨rfl, rfl⟩

/-! ## The operations -/

/-- What a successful rename leaves: the file under the new name, the old entry gone, and the file as it was. -/
structure RenameOk (s s' : Jfs) (oldParent : UInt32) (oldName : CStr) (newParent : UInt32) (newName : CStr) (t : UInt32) :
    Prop where
  new : lookup (entries s' newParent) newName = some t
  old : (entries s' oldParent).countP (fun p => p.1 = oldName) + 1 =
    (entries s oldParent).countP fun p => p.1 = oldName
  inode : (getInode s t).isDirectory = false ∨ t ≠ oldParent ∧ t ≠ newParent →
    getInode s' t = { getInode s t with nlink := (getInode s' t).nlink } ∧
      ∀ pos, byteOf s' (getInode s' t) pos = byteOf s (getInode s t) pos

/-- What an operation should do to the inodes: one is cleared when its last entry disappears and not before, and a
rename moves a name and nothing else. -/
def LinksOk (s : Jfs) (op : NameOp) : Prop :=
  (∀ c, 0 < links s c → (links (s.perform op).1 c = 0 ↔ (getInode (s.perform op).1 c).IsClear)) ∧
    match op with
    | .rename oldParent oldName newParent newName =>
        (s.perform op).2 = .ok () → ∃ t, lookup (entries s oldParent) oldName = some t ∧
          RenameOk s (s.perform op).1 oldParent oldName newParent newName t
    | _ => True

/-- What keeps the counts right.  A file that is linked is in some directory or has lost all its links, and its count
does not wrap; a directory that is removed or replaced names nobody; a file is not renamed onto itself, and its new name
is not cut. -/
def LinksMet (s : Jfs) (op : NameOp) : Prop :=
  op.Ready s ∧
    match op with
    | .link _ target _ => (0 < links s target ∨ linkCount s target = 0) ∧ linkCount s target + 1 < 2 ^ 32 ∨ target = 0
    | .unlink parent name => ∀ c, lookup (entries s parent) name = some c → LastOk s c
    | .rename oldParent oldName newParent newName => ∀ t, lookup (entries s oldParent) oldName = some t →
        ¬ (oldParent = newParent ∧ oldName = newName) ∧ newName.bytes.length ≤ 59 ∧
          ∀ c, lookup (entries s newParent) newName = some c → LastOk s c
    | _ => True

theorem Linked.clear_iff (h : Linked s') (hc : 0 < links s c → links s' c = 0 → (getInode s' c).IsClear)
    (hpos : 0 < links s c) : links s' c = 0 ↔ (getInode s' c).IsClear := by
  refine ⟨hc hpos, fun hcl => ?_⟩
  by_contra hne
  exact h.not_clear (Nat.pos_of_ne_zero hne) hcl

theorem Refused.linksOk (h : Linked s) (hr : Refused s r) : Linked r.1 ∧
    ∀ c, 0 < links s c → (links r.1 c = 0 ↔ (getInode r.1 c).IsClear) := by
  rw [hr.1]
  exact ⟨h, fun c hpos => h.clear_iff (fun hp h0 => absurd h0 (Nat.pos_iff_ne_zero.1 hp)) hpos⟩

theorem Made.linked (h : Linked s) (hp : Known s parent) (hm : Made s parent name r) : Linked r.1 ∧
    ∀ c, 0 < links s c → (links r.1 c = 0 ↔ (getInode r.1 c).IsClear) := by
  rcases hm with href | ⟨-, s', ha, hadd⟩
  · exact href.linksOk h
  · have hp' : Known s' parent := ha.known.2 (.inl hp)
    have hnew : links s s.nextInode = 0 := by
      by_contra hne
      exact Nat.lt_irrefl _ (h.wf.known_of_links (Nat.pos_of_ne_zero hne))
    have h0 : s.nextInode ≠ 0 := by
      intro h0
      have := h.wf.root
      rw [h0] at this
      exact Nat.lt_irrefl _ this
    have hlinks : ∀ c, links r.1 c = links s c ∨ c = s.nextInode ∧ links r.1 c = 1 := by
      intro c
      rcases hres : r.2 with e | u
      · exact .inl (by rw [hadd.links_same ha.wf hp' (.inr ⟨e, hres⟩), ha.links_eq h.wf])
      · rw [hadd.links_ok ha.wf hp' hres h0, ha.links_eq h.wf]
        by_cases hc : s.nextInode = c
        · subst hc
          exact .inr ⟨rfl, by rw [hnew, if_pos rfl]⟩
        · exact .inl (by rw [if_neg hc]; rfl)
    have hlinked : Linked r.1 := by
      refine ⟨hadd.step.wf, fun c hpos => ?_⟩
      rcases hlinks c with heq | ⟨rfl, h1⟩
      · have hk := h.wf.known_of_links (heq ▸ hpos)
        rw [hadd.step.linkCount_eq (ha.known.2 (.inl hk)), heq, linkCount, ha.inode c hk, ← linkCount,
          h.count c (heq ▸ hpos)]
      · rw [hadd.step.linkCount_eq (ha.known.2 (.inr rfl)), h1, linkCount, ha.nlink, UInt32.toNat_one]
    refine ⟨hlinked, fun c hpos => hlinked.clear_iff (fun hp h0' => ?_) hpos⟩
    rcases hlinks c with heq | ⟨rfl, -⟩ <;> omega

theorem Relinked.linkCount_ne {n : UInt32} (hr : Relinked s s' c n) (hk : Known s idx) (hne : idx ≠ c) :
    linkCount s' idx = linkCount s idx := by
  rw [linkCount, hr.step.inode idx hk hne, linkCount]

theorem link_linked (name : CStr) (h : Linked s) (hp : Known s parent) (ht : Known s target)
    (hm : (0 < links s target ∨ linkCount s target = 0) ∧ linkCount s target + 1 < 2 ^ 32 ∨ target = 0) :
    Linked (jfsLink s parent target name).1 ∧ ∀ c, 0 < links s c →
      (links (jfsLink s parent target name).1 c = 0 ↔ (getInode (jfsLink s parent target name).1 c).IsClear) := by
  have hzero : links s 0 = 0 := by
    by_contra hne
    obtain ⟨d, n, -, hmem⟩ := links_pos.1 (Nat.pos_of_ne_zero hne)
    exact entry_ne_zero hmem rfl
  rcases link_spec h.wf hp name ht with href | ⟨-, s', r', hup, hadd, hcase⟩
  · exact href.linksOk h
  · have hp' : Known s' parent := hup.step.known.2 hp
    have ht' : Known s' target := hup.step.known.2 ht
    have hcount : linkCount s' target = ((getInode s target).nlink + 1).toNat := by rw [linkCount, hup.inode]
    have hlinks' : ∀ c, links s' c = links s c := fun c => hup.links_eq h.wf ht
    have hother : ∀ c, Known s c → c ≠ target → linkCount r'.1 c = linkCount s c := fun c hk hne => by
      rw [hadd.step.linkCount_eq (hup.step.known.2 hk), hup.linkCount_ne hk hne]
    rcases hcase with ⟨hok, hr⟩ | ⟨e, herr, -, hdown⟩
    · rw [hr]
      have hlinks : ∀ c, links r'.1 c = links s c + if target = c ∧ target ≠ 0 then 1 else 0 := by
        intro c
        by_cases h0 : target = 0
        · rw [hadd.links_same hup.step.wf hp' (.inl h0), hlinks', if_neg fun h => h.2 h0]
          rfl
        · rw [hadd.links_ok hup.step.wf hp' hok h0, hlinks']
          simp [h0]
      have hlinked : Linked r'.1 := by
        refine ⟨hadd.step.wf, fun c hpos => ?_⟩
        have hl := hlinks c
        by_cases hc : c = target
        · subst hc
          have h0 : c ≠ 0 := by
            rintro rfl
            rw [hl, hzero] at hpos
            exact absurd hpos (by simp)
          obtain ⟨hin, hwrap⟩ := hm.resolve_right h0
          rw [if_pos ⟨rfl, h0⟩] at hl
          rw [hadd.step.linkCount_eq ht', hcount, hl, UInt32.toNat_add, UInt32.toNat_one,
            Nat.mod_eq_of_lt (show (getInode s c).nlink.toNat + 1 < 2 ^ 32 from hwrap), ← linkCount]
          rcases Nat.eq_zero_or_pos (links s c) with hz | hz
          · omega
          · rw [h.count c hz]
        · rw [if_neg fun h => hc h.1.symm] at hl
          rw [hl] at hpos ⊢
          rw [hother c (h.wf.known_of_links hpos) hc, h.count c hpos]
          rfl
      refine ⟨hlinked, fun c hpos => hlinked.clear_iff (fun _ h0 => ?_) hpos⟩
      have := hlinks c
      omega
    · -- the entry was not added: the count is what it was
      have ht1 : Known r'.1 target := hadd.step.known.2 ht'
      have hlinks : ∀ c, links (jfsLink s parent target name).1 c = links s c := by
        intro c
        rw [hdown.links_eq hadd.step.wf ht1, hadd.links_same hup.step.wf hp' (.inr ⟨e, herr⟩), hlinks']
      have hback : (getInode r'.1 target).nlink - 1 = (getInode s target).nlink := by
        have := hadd.step.linkCount_eq ht'
        rw [linkCount, hcount, UInt32.toNat_inj] at this
        rw [this, UInt32.add_sub_cancel]
      have hsame : ∀ c, Known s c → linkCount (jfsLink s parent target name).1 c = linkCount s c := by
        intro c hk
        by_cases hc : c = target
        · rw [hc, linkCount, hdown.inode, hback, linkCount]
        · rw [hdown.linkCount_ne (hadd.step.known.2 (hup.step.known.2 hk)) hc, hother c hk hc]
      have hlinked : Linked (jfsLink s parent target name).1 := by
        refine ⟨hdown.step.wf, fun c hpos => ?_⟩
        rw [hlinks c] at hpos ⊢
        rw [hsame c (h.wf.known_of_links hpos), h.count c hpos]
      refine ⟨hlinked, fun c hpos => hlinked.clear_iff (fun _ h0 => ?_) hpos⟩
      rw [hlinks c] at h0
      omega

theorem unlink_linked (h : Linked s) (hp : Known s parent) (hm : ∀ c, lookup (entries s parent) name = some c → LastOk s c) :
    Linked (jfsUnlink s parent name).1 ∧ ∀ c, 0 < links s c →
      (links (jfsUnlink s parent name).1 c = 0 ↔ (getInode (jfsUnlink s parent name).1 c).IsClear) := by
  rcases unlink_spec h.wf hp name with href | ⟨s', c, -, hu⟩
  · exact href.linksOk h
  · have hf := (hu.freed h hp (hm c (hu.removed.found c rfl))).1
    exact ⟨hf.linked, fun x hpos => hf.linked.clear_iff (hf.clear x) hpos⟩

/-! ## Renaming -/

theorem Replaced.freed (h : Linked s) (hd : Known s d) (hr : Replaced s d name s')
    (hlast : ∀ c, lookup (entries s d) name = some c → LastOk s c) : Freed s s' d name := by
  rcases hr with ⟨rfl, -⟩ | ⟨s1, c, hu⟩
  · exact .refl h
  · exact (hu.freed h hd (hlast c (hu.removed.found c rfl))).1

theorem Added.inode_of_clear {child : UInt32} (ha : Added s d name child r) (hk : Known s idx)
    (hcl : (getInode s idx).IsClear) : getInode r.1 idx = getInode s idx := by
  by_cases hne : idx = d
  · subst hne
    have hfile : (getInode s idx).isDirectory = false := by
      rw [Inode.isDirectory, hcl.2.1]
      decide
    rw [(ha.refused hfile).1]
  · exact ha.step.inode idx hk hne

section Rename

variable {oldParent newParent : UInt32} {oldName newName : CStr}

theorem Added.lookup_ne (h : Wf s) (hd : Known s d) (ha : Added s d name t r) (hr : r.2 = .ok ()) (ht : t ≠ 0)
    (hcut : name.cut = name) {d' : UInt32} {n : CStr} (hd' : Known s d') (hne : d' ≠ d ∨ n ≠ name) :
    lookup (entries r.1 d') n = lookup (entries s d') n ∧
      (entries r.1 d').countP (fun p => p.1 = n) = (entries s d').countP fun p => p.1 = n := by
  by_cases hdd : d' = d
  · subst hdd
    exact lookup_countP_of_inserted (hcut ▸ ha.ok hr ht) (hne.resolve_left (not_not.2 rfl))
  · rw [ha.step.toInodeStep.entries_ne h hd hd' hdd]
    exact ⟨rfl, rfl⟩

theorem rename_failed (h : Linked s) (hf : Freed s s' newParent newName) (hn : Known s newParent)
    (ha : Added s' newParent newName t r) {e : Errno} (hr : r.2 = .error e) :
    Linked r.1 ∧ ∀ c, 0 < links s c → (links r.1 c = 0 ↔ (getInode r.1 c).IsClear) := by
  have hwf := hf.linked.wf
  have hknown : ∀ x, Known s' x ↔ Known s x := fun x => by rw [Known, Known, hf.next]
  have hlinks : ∀ c, links r.1 c = links s' c := fun c => ha.links_same hwf ((hknown _).2 hn) (.inr ⟨e, hr⟩)
  have hlinked : Linked r.1 := by
    refine ⟨ha.step.wf, fun c hpos => ?_⟩
    rw [hlinks c] at hpos ⊢
    rw [ha.step.linkCount_eq (hwf.known_of_links hpos), hf.linked.count c hpos]
  refine ⟨hlinked, fun c hpos => hlinked.clear_iff (fun hp h0 => ?_) hpos⟩
  rw [hlinks c] at h0
  have hcl := hf.clear c hp h0
  rw [ha.inode_of_clear ((hknown c).2 (h.wf.known_of_links hp)) hcl]
  exact hcl

section Succeeded

variable {r1 : Jfs × Except Errno Unit} {r2 : Jfs × Except Errno UInt32} (h : Linked s)
  (hf : Freed s s' newParent newName) (ho : Known s oldParent) (hn : Known s newParent) (htk : Known s t) (ht0 : t ≠ 0)
  (hlookup : lookup (entries s oldParent) oldName = some t) (hne : oldParent ≠ newParent ∨ oldName ≠ newName)
  (hcut : newName.cut = newName) (ha : Added s' newParent newName t r1) (hok : r1.2 = .ok ())
  (hr : Removed r1.1 oldParent oldName r2)
include h hf ho hn htk ht0 hlookup hne hcut ha hok hr

omit h htk in
theorem rename_removes : r2.2 = .ok t := by
  have hknown : ∀ x, Known s' x ↔ Known s x := fun x => by rw [Known, Known, hf.next]
  have hl : lookup (entries r1.1 oldParent) oldName = some t := by
    rw [(ha.lookup_ne hf.linked.wf ((hknown _).2 hn) hok ht0 hcut ((hknown _).2 ho) hne).1,
      (hf.lookup oldParent oldName ho hne).1, hlookup]
  rcases hres : r2.2 with e | c
  · rw [lookup_none.2 (hr.error e hres).2] at hl
    cases hl
  · rw [hr.found c hres] at hl
    rw [Option.some.inj hl]

omit htk in
theorem rename_succeeded_linked : Linked r2.1 ∧ ∀ c, 0 < links s c → (links r2.1 c = 0 ↔ (getInode r2.1 c).IsClear) := by
  have hknown : ∀ x, Known s' x ↔ Known s x := fun x => by rw [Known, Known, hf.next]
  have hres := rename_removes hf ho hn ht0 hlookup hne hcut ha hok hr
  have hwf := hf.linked.wf
  obtain ⟨s2, res⟩ := r2
  obtain rfl : res = .ok t := hres
  have ho1 : Known r1.1 oldParent := ha.step.known.2 ((hknown _).2 ho)
  have hlinks : ∀ c, links s2 c = links s' c := by
    intro c
    have h1 := ha.links_ok (c := c) hwf ((hknown _).2 hn) hok ht0
    have h2 := hr.links_ok (c := c) ha.step.wf ho1
    omega
  have hlinked : Linked s2 := by
    refine ⟨hr.step.wf, fun c hpos => ?_⟩
    rw [hlinks c] at hpos ⊢
    have hck := hwf.known_of_links hpos
    rw [hr.step.linkCount_eq (ha.step.known.2 hck), ha.step.linkCount_eq hck, hf.linked.count c hpos]
  refine ⟨hlinked, fun c hpos => hlinked.clear_iff (fun hp h0 => ?_) hpos⟩
  rw [hlinks c] at h0
  have hcl := hf.clear c hp h0
  have hck := (hknown c).2 (h.wf.known_of_links hp)
  rw [hr.inode (ha.step.known.2 hck), ha.inode_of_clear hck hcl]
  exact hcl

omit h in
theorem rename_succeeded (hodir : (getInode s oldParent).isDirectory = true)
    (hndir : (getInode s newParent).isDirectory = true) :
    RenameOk s r2.1 oldParent oldName newParent newName t := by
  have hknown : ∀ x, Known s' x ↔ Known s x := fun x => by rw [Known, Known, hf.next]
  have hres := rename_removes hf ho hn ht0 hlookup hne hcut ha hok hr
  have hwf := hf.linked.wf
  have hn' := (hknown newParent).2 hn
  have ht' := (hknown t).2 htk
  have ho1 : Known r1.1 oldParent := ha.step.known.2 ((hknown _).2 ho)
  obtain ⟨s2, res⟩ := r2
  obtain rfl : res = .ok t := hres
  have hins := (hr.ok t rfl).2.2
  have hl1 := hf.lookup oldParent oldName ho hne
  refine ⟨?_, ?_, fun htarget => ?_⟩
  · have hnew : lookup (entries r1.1 newParent) newName = some t := lookup_inserted (hcut ▸ ha.ok hok ht0) (ha.fresh hok)
    by_cases hpp : newParent = oldParent
    · subst hpp
      rw [← (lookup_countP_of_inserted hins (hne.resolve_left (not_not.2 rfl)).symm).1, hnew]
    · rw [hr.step.toInodeStep.entries_ne ha.step.wf ho1 (ha.step.known.2 hn') hpp, hnew]
  · have h1 := (ha.lookup_ne hwf hn' hok ht0 hcut ((hknown _).2 ho) hne).2
    have h2 := hins.countP fun p => p.1 = oldName
    rw [decide_eq_true rfl, if_pos rfl] at h2
    omega
  · have hparents : t ≠ oldParent ∧ t ≠ newParent := by
      rcases htarget with hfile | hnot
      · constructor
        · rintro rfl
          rw [hodir] at hfile
          cases hfile
        · rintro rfl
          rw [hndir] at hfile
          cases hfile
      · exact hnot
    have htpos : 0 < links s' t := links_pos.2 ⟨oldParent, oldName, (hknown _).2 ho, mem_of_lookup (hl1.1.trans hlookup)⟩
    have hget1 : getInode r1.1 t = getInode s' t := ha.step.inode t ht' hparents.2
    have hget : getInode s2 t = getInode s' t := (hr.inode (ha.step.known.2 ht')).trans hget1
    have hkept := hf.kept t htk htpos
    refine ⟨by rw [hget]; exact hkept, fun pos => byteOf_congr (by rw [hget, hkept]) (fun i hi => ?_) pos⟩
    have hb1 : (getInode s' t).blocks i = (getInode s t).blocks i := by rw [hkept]
    have hb2 : (getInode r1.1 t).blocks i = (getInode s t).blocks i := by rw [hget1, hb1]
    have hd2 := hr.step.toInodeStep.disk_eq ha.step.wf ho1 (ha.step.known.2 ht') hparents.1 (hb2 ▸ hi)
    have hd1 := ha.step.toInodeStep.disk_eq hwf hn' ht' hparents.2 (hb1 ▸ hi)
    rw [hb2] at hd2
    rw [hb1] at hd1
    rw [hd2, hd1, hf.disk t htk hparents.2 i hi]

end Succeeded

end Rename

/-! ## Runs -/

theorem Linked.perform (h : Linked s) (op : NameOp) (hm : LinksMet s op) : Linked (s.perform op).1 ∧ LinksOk s op := by
  obtain ⟨hready, hm⟩ := hm
  cases op with
  | create parent name =>
    obtain ⟨hl, hc⟩ := (create_spec h.wf hready.1 hready.2).linked h hready.1
    exact ⟨hl, hc, trivial⟩
  | mkdir parent name =>
    obtain ⟨hl, hc⟩ := (mkdir_spec h.wf hready.1 hready.2).linked h hready.1
    exact ⟨hl, hc, trivial⟩
  | link parent target name =>
    obtain ⟨hl, hc⟩ := link_linked name h hready.1 hready.2 hm
    exact ⟨hl, hc, trivial⟩
  | unlink parent name =>
    obtain ⟨hl, hc⟩ := unlink_linked h hready hm
    exact ⟨hl, hc, trivial⟩
  | rename oldParent oldName newParent newName =>
    obtain ⟨ho, hn⟩ := hready
    rcases rename_spec oldName newName h.wf ho hn with
      href | ⟨t, s1, r1, hodir, hndir, hlookup, ht, hrep, -, hadd, ⟨e, herr, hr⟩ | ⟨hok, -, r2, hrem, hr⟩⟩
    · obtain ⟨hl, hc⟩ := href.linksOk h
      refine ⟨hl, hc, fun hok => ?_⟩
      obtain ⟨e, he⟩ := href.2
      rw [Jfs.perform, he] at hok
      cases hok
    · obtain ⟨-, -, hlast⟩ := hm t hlookup
      obtain ⟨hl, hc⟩ := rename_failed h (hrep.freed h hn hlast) hn hadd herr
      rw [LinksOk, Jfs.perform, hr]
      refine ⟨hl, hc, fun hok => ?_⟩
      rw [herr] at hok
      cases hok
    · obtain ⟨hsame, hlen, hlast⟩ := hm t hlookup
      have hf := hrep.freed h hn hlast
      have hne : oldParent ≠ newParent ∨ oldName ≠ newName := by
        by_contra hboth
        exact hsame ⟨by_contra fun hp => hboth (.inl hp), by_contra fun hp => hboth (.inr hp)⟩
      have ht0 := entry_ne_zero (mem_of_lookup hlookup)
      have hcut := CStr.cut_of_le hlen
      obtain ⟨hl, hc⟩ := rename_succeeded_linked h hf ho hn ht0 hlookup hne hcut hadd hok hrem
      have hren := rename_succeeded hf ho hn ht ht0 hlookup hne hcut hadd hok hrem hodir hndir
      rw [LinksOk, Jfs.perform, hr]
      exact ⟨hl, hc, fun _ => ⟨t, hlookup, hren⟩⟩

def Jfs.after (s : Jfs) (op : NameOp) : Jfs := (s.perform op).1

/-- **Link counts are right** in every run that meets the condition: the count of every inode that an entry names is the
number of entries that name it, inodes are cleared with their last entry, and a rename leaves the file intact. -/
theorem links_are_counted (s : Jfs) (h : Linked s) (ops : List NameOp) (hm : Run.Guarded Jfs.after LinksMet s ops) :
    (∀ s' ∈ Run.states Jfs.after s ops, ∀ c, 0 < links s' c → linkCount s' c = links s' c) ∧
      Run.Guarded Jfs.after LinksOk s ops := by
  constructor
  · intro s' hs'
    exact (Run.states_forall (P := Linked) (fun _ op h hm => (h.perform op hm).1) ops s h hm s' hs').count
  · exact Run.guarded_imp (P := Linked) (fun _ op h hm => h.perform op hm) ops s h hm

theorem small_linked {n : UInt32} {dir : Buffer} (h : Wf (smallFs n dir))
    (hall : ∀ p ∈ allEntries (smallFs n dir), p.2 = 1) (hn : linkCount (smallFs n dir) 1 = links (smallFs n dir) 1) :
    Linked (smallFs n dir) := by
  refine ⟨h, fun c hpos => ?_⟩
  obtain ⟨d, name, hd, hmem⟩ := links_pos.1 hpos
  obtain rfl : c = 1 := hall _ (mem_allEntries.2 ⟨d, hd, hmem⟩)
  exact hn

theorem oneName_linked : Linked oneName := small_linked oneName_wf (by decide +kernel) (by decide +kernel)

theorem twoNames_linked : Linked twoNames := small_linked twoNames_wf (by decide +kernel) (by decide +kernel)

def sampleNames : List NameOp := [.rename 0 nameA 0 nameB, .create 0 nameA]

theorem sample_links : Linked twoNames ∧ Run.Guarded Jfs.after LinksMet twoNames sampleNames ∧
    (∀ s' ∈ Run.states Jfs.after twoNames sampleNames, ∀ c, 0 < links s' c → linkCount s' c = links s' c) ∧
      Run.Guarded Jfs.after LinksOk twoNames sampleNames := by
  have hm : Run.Guarded Jfs.after LinksMet twoNames sampleNames := by
    refine ⟨⟨⟨?_, ?_⟩, fun t _ => ⟨?_, ?_, fun c hc hle => ?_⟩⟩, ⟨⟨?_, fun _ _ => ?_⟩, trivial⟩, trivial⟩
    · decide
    · decide
    · decide
    · decide
    · obtain rfl : c = 1 := by
        have h1 : lookup (entries twoNames 0) nameB = some 1 := by decide +kernel
        exact Option.some.inj (hc.symm.trans h1)
      exact absurd hle (by decide +kernel)
    · decide +kernel
    · decide +kernel
  exact ⟨twoNames_linked, hm, links_are_counted _ twoNames_linked _ hm⟩

/-- A file renamed onto itself is lost. -/
theorem rename_onto_itself : Linked oneName ∧
    ¬ Run.Guarded Jfs.after LinksOk oneName [.rename 0 nameA 0 nameA] := by
  refine ⟨oneName_linked, fun h => ?_⟩
  obtain ⟨t, -, ht⟩ := h.1.2 (by decide +kernel)
  have hnone : lookup (entries (oneName.perform (.rename 0 nameA 0 nameA)).1 0) nameA = none := by decide +kernel
  rw [ht.new] at hnone
  cases hnone

end EterOS.Fs
