import EterOS.Syscall.DescriptorRefs
/-!
# DescriptorRuns — the calls keep the references right, and when

Every call keeps `Ok`: on the one task's table it works on, or on the new task's, which starts empty.  Three things break
it: a node of a filesystem that leaves `ref_count` 0, a mapped file, whose reference nobody gives back, and a table that
goes with its owner while other tasks use it.
-/
namespace EterOS.Syscall

open Fs (CStr)
open Function (update update_self update_of_ne)

namespace Files

variable {σ κ : Type*} {D : Driver σ κ} {Q : σ → (Nat → Option κ) → Prop} {s s' : Files σ κ} {k i n cur : Nat}

structure Ok (Q : σ → (Nat → Option κ) → Prop) (s : Files σ κ) : Prop where
  balanced : Settled s
  tables : Tables s
  rest : Q s.fs s.kinds

/-- No freed node is touched, and `Ok` holds afterwards. -/
def Safe (Q : σ → (Nat → Option κ) → Prop) (r : Option (Files σ κ)) : Prop := ∃ s', r = some s' ∧ Ok Q s'

theorem Ok.safe (h : Ok Q s) : Safe Q (some s) := ⟨s, rfl, h⟩

def Live (s : Files σ κ) (k : Nat) : Prop := k < maxTasks ∧ ∃ j < maxTasks, (s.tasks j).used = true ∧ (s.tasks j).fdTable = k

theorem Tables.live (h : Tables s) (hc : s.runs cur) : s.Live (s.tasks cur).fdTable :=
  ⟨(h.own cur hc.1 hc.2.1).1, cur, hc.1, hc.2.1, rfl⟩

theorem Live.within {k' : Nat} (hl : s.Live k) (hw : Within k' s s') : s'.Live k := by
  obtain ⟨hk, j, hj, hu, ht⟩ := hl
  exact ⟨hk, j, hj, (hw.used j).trans hu, (hw.fdTable j).trans ht⟩

variable {s1 : Files σ κ}

theorem within_of_tasks (hw : Within k s s1) (h : s'.tasks = s1.tasks) : Within k s s' :=
  ⟨fun j hj => by rw [h, hw.other j hj], by rw [h, hw.own]⟩

theorem Ok.of (h : Ok Q s) (hl : s.Live k) (hb : Settled s') (hw : Within k s s') (hq : Q s'.fs s'.kinds) : Ok Q s' :=
  ⟨hb, h.tables.within hw (.inl hl.2), hq⟩

variable {fd : Nat}

theorem mem_fds {least : Nat} (h : fd ∈ (List.range maxFd).drop least) : fd < maxFd :=
  List.mem_range.mp (List.mem_of_mem_drop h)

theorem freeFd_spec {least : Nat} (h : s.freeFd cur least = some fd) :
    fd < maxFd ∧ s.rows (s.tasks cur).fdTable fd = none := by
  refine ⟨mem_fds (List.mem_of_find?_eq_some h), ?_⟩
  exact Option.isNone_iff_eq_none.mp (List.find?_some (p := fun i => (s.fd cur i).node.isNone) h)

theorem validFd_toNat {fd : Int} (h : validFd fd) : fd.toNat < maxFd := by
  obtain ⟨h0, hlt⟩ := h
  omega

/-! ## Closing and copying -/

theorem dropSlot_ok (hQ : ClosesKeep D Q) (h : Ok Q s) (hl : s.Live k) (hi : i < maxFd) :
    ∃ s', s.dropSlot D k i = some s' ∧ Ok Q s' ∧ Within k s s' ∧ s'.rows k = update (s.rows k) i none := by
  obtain ⟨s', hs', hb, ht, hq⟩ := dropSlot_settled hQ h.balanced hl.1 hi
  have hw : Within k s s' := within_of_tasks (within_setSlot s k i _) ht
  refine ⟨s', hs', h.of hl hb hw (hq h.rest), hw, ?_⟩
  rw [rows_of_tasks ht]
  exact rows_setSlot_self s k i _

variable {d : FileDescriptor}

theorem setSlot_same_ok (h : Ok Q s) (hl : s.Live k) (hd : d.node = s.rows k i) : Ok Q (s.setSlot k i d) :=
  h.of hl (h.balanced.congr rfl rfl rfl (held_same hd)) (within_setSlot s k i d) h.rest

theorem share_settled (h : Settled s) (hk : k < maxTasks) (hi : i < maxFd) (hnone : s.rows k i = none)
    (hd : d.node = some n) (hn : 0 < s.held n) :
    ∃ s', (s.setSlot k i d).refNode n = some s' ∧ Settled s' ∧ s'.tasks = (s.setSlot k i d).tasks ∧ s'.fs = s.fs ∧
      s'.kinds = s.kinds := by
  have halive := h.alive n hn
  obtain ⟨s', hs', hb, ht, hf, hkinds⟩ :=
    refNode_balanced (h.fill hk hi hnone hd halive) halive (by rw [update_self]; exact Nat.succ_pos _)
  have hzero : update (update (fun _ => 0) n (0 + 1)) n (update (fun _ => 0) n (0 + 1) n - 1) = fun _ => 0 := by
    funext m
    by_cases he : m = n
    · simp [he]
    · simp [he]
  rw [hzero] at hb
  exact ⟨s', hs', hb, ht, hf, hkinds⟩

theorem copyFd_safe (h : Ok Q s) (hl : s.Live k) {old new : Nat} (ho : old < maxFd) (hn : new < maxFd)
    (hnone : s.rows k new = none) (flags : UInt32 → UInt32) (path : CStr) :
    Safe Q (s.copyFd k old new flags path) := by
  unfold copyFd
  dsimp only
  split
  case h_1 hnode =>
    refine (setSlot_same_ok h hl ?_).safe
    rw [hnone]
    exact hnode
  case h_2 m hnode =>
    obtain ⟨s', hs', hb, ht, hf, hkinds⟩ := share_settled h.balanced hl.1 hn hnone
      (d := ⟨(s.slot k old).node, (s.slot k old).offset, flags (s.slot k old).flags, path⟩) hnode
      (held_pos hl.1 ho hnode)
    refine ⟨s', hs', h.of hl hb (within_of_tasks (within_setSlot s k new _) ht) ?_⟩
    rw [hf, hkinds]
    exact h.rest

theorem sysClose_safe (hQ : ClosesKeep D Q) (h : Ok Q s) (hc : s.runs cur) (fd : Int) :
    Safe Q ((s.sysClose D cur fd).map Prod.fst) := by
  unfold sysClose
  split
  · exact h.safe
  next hv =>
  split
  · exact h.safe
  · obtain ⟨s', hs', hok, -, -⟩ := dropSlot_ok hQ h (h.tables.live hc) (validFd_toNat (not_not.mp hv))
    rw [hs']
    exact hok.safe

theorem dupTo_safe (hQ : ClosesKeep D Q) (h : Ok Q s) (hc : s.runs cur) {old new : Int} (ho : validFd old)
    (hn : validFd new) (flags : UInt32 → UInt32) : Safe Q ((s.dupTo D cur old new flags).map Prod.fst) := by
  have hl := h.tables.live hc
  obtain ⟨s1, hs1, hok, hw, hrow⟩ := dropSlot_ok hQ h hl (validFd_toNat hn)
  obtain ⟨s2, hs2, hok2⟩ := copyFd_safe hok (hl.within hw) (validFd_toNat ho) (validFd_toNat hn)
    (by rw [hrow, update_self]) flags (s1.slot (s.tasks cur).fdTable new.toNat).path
  unfold dupTo
  dsimp only
  rw [hs1, Option.bind_some, hs2]
  exact hok2.safe

theorem sysDup2_safe (hQ : ClosesKeep D Q) (h : Ok Q s) (hc : s.runs cur) (old new : Int) :
    Safe Q ((s.sysDup2 D cur old new).map Prod.fst) := by
  unfold sysDup2
  split
  · exact h.safe
  next hv =>
  rw [not_or, not_not, not_not] at hv
  split
  · exact h.safe
  split
  · exact h.safe
  · exact dupTo_safe hQ h hc hv.1 hv.2 _

theorem sysDup3_safe (hQ : ClosesKeep D Q) (h : Ok Q s) (hc : s.runs cur) (old new : Int) (flags : UInt32) :
    Safe Q ((s.sysDup3 D cur old new flags).map Prod.fst) := by
  unfold sysDup3
  split
  · exact h.safe
  split
  · exact h.safe
  next hv =>
  rw [not_or, not_not, not_not] at hv
  split
  · exact h.safe
  · exact dupTo_safe hQ h hc hv.1 hv.2 _

theorem sysDup_safe (hQ : ClosesKeep D Q) (h : Ok Q s) (hc : s.runs cur) (old : Int) :
    Safe Q ((s.sysDup D cur old).map Prod.fst) := by
  unfold sysDup
  split
  · exact h.safe
  split
  · exact h.safe
  split
  · exact h.safe
  · exact sysDup2_safe hQ h hc _ _

theorem sysFcntl_safe (h : Ok Q s) (hc : s.runs cur) (fd cmd arg : Int) :
    Safe Q ((s.sysFcntl cur fd cmd arg).map Prod.fst) := by
  have hl := h.tables.live hc
  unfold sysFcntl
  dsimp only
  split
  · exact h.safe
  next hv =>
  split
  · exact h.safe
  split
  · split
    · exact h.safe
    split
    · exact h.safe
    next new hfree =>
    obtain ⟨hlt, hnone⟩ := freeFd_spec hfree
    obtain ⟨s', hs', hok⟩ := copyFd_safe h hl (validFd_toNat (not_not.mp hv)) hlt hnone (setCloexec · (cmd = 1030))
      (s.slot (s.tasks cur).fdTable fd.toNat).path
    rw [hs']
    exact hok.safe
  split
  · exact h.safe
  split
  · apply Ok.safe
    apply setSlot_same_ok h hl
    rfl
  split
  · exact h.safe
  split
  · apply Ok.safe
    apply setSlot_same_ok h hl
    rfl
  · exact h.safe

/-! ## Opening and looking -/

structure Sound (s : Files σ κ) : Prop where
  balanced : Settled s
  tables : Tables s

theorem Ok.sound (h : Ok Q s) : Sound s := ⟨h.balanced, h.tables⟩

theorem Tables.of_tasks (h : Tables s) (ht : s'.tasks = s.tasks) : Tables s' := by
  refine ⟨fun j hj hu => ?_, fun k hk hno i hi => ?_⟩
  · rw [ht] at hu ⊢
    exact h.own j hj hu
  · rw [ht] at hno
    rw [rows_of_tasks ht]
    exact h.idle k hk hno i hi

theorem Sound.fs (h : Sound s) (fs : σ) : Sound { s with fs } :=
  ⟨h.balanced.congr rfl rfl rfl fun _ => rfl, h.tables.of_tasks rfl⟩

theorem Sound.putTemp (h : Sound s) (kind : κ) : Sound (s.putTemp D kind) := by
  unfold Files.putTemp
  split
  · exact h.fs _
  · exact h

theorem Sound.open (h : Sound s) (hl : s.Live k) (hi : i < maxFd) (hnone : s.rows k i = none) (kind : κ)
    (hd : d.node = some s.nextNode) : Sound ((s.addNode 1 kind).1.setSlot k i d) := by
  refine ⟨(h.balanced.open hl.1 hi hnone kind hd).1, ?_⟩
  have htables : Tables (s.addNode 1 kind).1 := h.tables.of_tasks rfl
  exact htables.within (within_setSlot _ k i d) (.inl hl.2)

theorem openNode_sound (h : Sound s) (hl : s.Live (s.tasks cur).fdTable) (hfd : fd < maxFd)
    (hnone : s.rows (s.tasks cur).fdTable fd = none) {kind : κ} (hrefs : D.refs kind = 1) (kpath : CStr)
    (flags : UInt32) : Sound (s.openNode D cur fd kind kpath flags).1 := by
  unfold openNode
  dsimp only
  split
  · exact h
  split
  · exact h
  split
  · exact h
  rw [hrefs]
  split
  · refine (h.fs (D.openFs (D.truncate s.fs kind) kind).1).open hl hfd hnone _ ?_
    rfl
  · refine (h.fs (D.openFs s.fs kind).1).open hl hfd hnone _ ?_
    rfl

/-- The node that `openat` would open starts with one reference: one at the path, a new anonymous object, or one it
creates. -/
def OpensCounted (D : Driver σ κ) (s : Files σ κ) (cur : Nat) (dirfd : Int) (path : UserStr) (mode : UInt16) : Prop :=
  ∀ kpath, resolvePath D.tree (s.dirTask cur) dirfd path = .ok kpath →
    (kpath.bytes = devAshmem → D.refs (D.shmfsCreateMemfd s.fs).2 = 1) ∧
    (∀ kind, D.tree.lookup s.fs kpath = some kind → D.refs kind = 1) ∧
    ∀ parentPath name parent kind, D.tree.lookup s.fs kpath = none → splitPath kpath = some (parentPath, name) →
      D.tree.lookup s.fs parentPath = some parent →
      D.tree.lookup (createFs D.tree s.fs parent name mode).fs kpath = some kind → D.refs kind = 1

theorem sysOpenat_sound (h : Sound s) (hc : s.runs cur) {dirfd : Int} {path : UserStr} {mode : UInt16}
    (hm : OpensCounted D s cur dirfd path mode) (flags : UInt32) :
    Sound (s.sysOpenat D cur dirfd path flags mode).1 := by
  have hl := h.tables.live hc
  unfold sysOpenat
  split
  · exact h
  split
  · exact h
  next kpath hpath =>
  obtain ⟨hash, hlook, hcreate⟩ := hm kpath hpath
  split
  · exact h
  split
  · exact h
  next fd hfree =>
  obtain ⟨hlt, hnone⟩ := freeFd_spec hfree
  split
  next fs found hfound =>
  dsimp only
  split
  · next kind =>
    have hrefs : D.refs kind = 1 := by
      split at hfound
      · next he =>
        have hkind : some (D.shmfsCreateMemfd s.fs).2 = some kind := congrArg Prod.snd hfound
        rw [← Option.some.inj hkind]
        exact hash he
      · exact hlook kind (congrArg Prod.snd hfound)
    split
    · exact (h.fs fs).putTemp kind
    split
    · exact (h.fs fs).putTemp kind
    split
    · exact (h.fs fs).putTemp kind
    · exact openNode_sound (h.fs fs) hl hlt hnone hrefs kpath flags
  · have hno : fs = s.fs ∧ D.tree.lookup s.fs kpath = none := by
      split at hfound
      · exact nomatch congrArg Prod.snd hfound
      · exact ⟨(congrArg Prod.fst hfound).symm, congrArg Prod.snd hfound⟩
    obtain ⟨rfl, hno⟩ := hno
    split
    · exact h
    split
    · exact h
    next parentPath name hsplit =>
    split
    · exact h
    next parent hparent =>
    split
    · exact h
    split
    · exact h.fs _
    split
    · exact h.fs _
    next kind hkind =>
    have hrefs := hcreate parentPath name parent kind hno hsplit hparent hkind
    exact openNode_sound (h.fs (createFs D.tree s.fs parent name mode).fs) hl hlt hnone hrefs kpath flags

theorem sysMemfdCreate_sound (h : Sound s) (hc : s.runs cur) (name : UserStr) : Sound (s.sysMemfdCreate D cur name).1 := by
  unfold sysMemfdCreate
  split
  · exact h
  split
  · exact h
  next fd hfree =>
  obtain ⟨hlt, hnone⟩ := freeFd_spec hfree
  refine (h.fs (D.shmfsCreateMemfd s.fs).1).open (h.tables.live hc) hlt hnone _ ?_
  rfl

theorem sysPipe2_sound (h : Sound s) (hc : s.runs cur) (mapped : Bool) (flags : UInt32) :
    Sound (s.sysPipe2 D cur mapped flags).1 := by
  unfold sysPipe2
  split
  · exact h
  split
  · next fd fd' rest hfree =>
    have hl := h.tables.live hc
    have hnodup : (fd :: fd' :: rest).Nodup := by
      rw [← hfree]
      exact (List.nodup_range.sublist (List.drop_sublist 3 _)).filter _
    have hne : fd ≠ fd' := by
      rintro rfl
      simp at hnodup
    have hmem : ∀ x ∈ fd :: fd' :: rest, x < maxFd ∧ s.rows (s.tasks cur).fdTable x = none := by
      intro x hx
      rw [← hfree, List.mem_filter] at hx
      exact ⟨mem_fds hx.1, Option.isNone_iff_eq_none.mp hx.2⟩
    obtain ⟨hlt, hnone⟩ := hmem fd (by simp)
    obtain ⟨hlt', hnone'⟩ := hmem fd' (by simp)
    let d : FileDescriptor := { s.slot (s.tasks cur).fdTable fd with
      node := some s.nextNode, offset := 0, flags := (flags &&& oCloexec) ||| (flags &&& oNonblock) }
    have hfirst := (h.fs (D.pipe s.fs).1).open hl hlt hnone (D.pipe s.fs).2.1 (d := d) rfl
    have hl1 : (addNode { s with fs := (D.pipe s.fs).1 } 1 (D.pipe s.fs).2.1).1.Live (s.tasks cur).fdTable := hl
    refine hfirst.open (hl1.within (within_setSlot _ _ fd d)) hlt' ?_ (D.pipe s.fs).2.2 ?_
    · rw [rows_setSlot_self, update_of_ne (Ne.symm hne)]
      exact hnone'
    · rfl
  · exact h

theorem sysNewfstatat_sound (h : Sound s) (hc : s.runs cur) (dirfd : Int) (path : UserStr) (mapped : Bool)
    (flags : UInt32) : ∃ r, s.sysNewfstatat D cur dirfd path mapped flags = some r ∧ Sound r.1 := by
  unfold sysNewfstatat
  split
  · exact ⟨_, rfl, h⟩
  split
  · exact ⟨_, rfl, h⟩
  split
  · exact ⟨_, rfl, h⟩
  · exact ⟨_, rfl, h⟩
  split
  · split
    · exact ⟨_, rfl, h⟩
    split
    · split
      · exact ⟨_, rfl, h⟩
      · exact ⟨_, rfl, h.putTemp _⟩
    split
    · exact ⟨_, rfl, h⟩
    next hv =>
    split
    · exact ⟨_, rfl, h⟩
    next n hn =>
    obtain ⟨node, hnode⟩ := Option.isSome_iff_exists.mp
      (h.balanced.alive n (held_pos (h.tables.live hc).1 (validFd_toNat (not_not.mp hv)) hn))
    rw [hnode]
    exact ⟨_, rfl, h.fs _⟩
  · split
    · exact ⟨_, rfl, h⟩
    split
    · exact ⟨_, rfl, h⟩
    · exact ⟨_, rfl, h.putTemp _⟩

theorem sysFaccessat_sound (h : Sound s) (dirfd : Int) (path : UserStr) (mode : UInt32) :
    Sound (s.sysFaccessat D cur dirfd path mode).1 := by
  unfold sysFaccessat
  split
  · exact h
  split
  · exact h
  · exact h.putTemp _

theorem sysChmod_sound (h : Sound s) (path : UserStr) : Sound (s.sysChmod D cur path).1 := by
  unfold sysChmod
  split
  · exact h
  split
  · exact h
  · exact h.putTemp _

theorem statChildren_sound (h : Sound s) (dir : κ) (names : List CStr) :
    Sound (names.foldl (statChild D dir) s) ∧ (names.foldl (statChild D dir) s).tasks = s.tasks := by
  induction names generalizing s with
  | nil => exact ⟨h, rfl⟩
  | cons name names ih =>
    have hone : Sound (statChild D dir s name) ∧ (statChild D dir s name).tasks = s.tasks := by
      unfold statChild
      split
      · exact ⟨h, rfl⟩
      · refine ⟨h.putTemp _, ?_⟩
        unfold Files.putTemp
        split
        · rfl
        · rfl
    obtain ⟨hs, ht⟩ := ih hone.1
    exact ⟨hs, ht.trans hone.2⟩

theorem sysGetdents64_sound (h : Sound s) (hc : s.runs cur) (fd : Int) (mapped : Bool) (count : Nat)
    (entries : List CStr) : ∃ r, s.sysGetdents64 D cur fd mapped count entries = some r ∧ Sound r.1 := by
  unfold sysGetdents64
  split
  · exact ⟨_, rfl, h⟩
  next hv =>
  split
  · exact ⟨_, rfl, h⟩
  next n hn =>
  have hl := h.tables.live hc
  obtain ⟨node, hnode⟩ := Option.isSome_iff_exists.mp
    (h.balanced.alive n (held_pos hl.1 (validFd_toNat (not_not.mp hv)) hn))
  rw [hnode]
  refine ⟨_, rfl, ?_⟩
  dsimp only
  split
  · exact h
  split
  · exact h
  split
  · exact h
  · obtain ⟨hs, ht⟩ := statChildren_sound (D := D) h node.kind (entriesThatFit entries count)
    refine ⟨hs.balanced.congr rfl rfl rfl (held_same ?_), hs.tables.within (within_setSlot _ _ _ _) (.inl ?_)⟩
    · rfl
    · rw [ht]
      exact hl.2

/-! ## Tasks -/

def Reapable (s : Files σ κ) (k : Nat) : Prop :=
  ∀ j < maxTasks, j ≠ k → (s.tasks j).used = true → (s.tasks j).fdTable ≠ k

variable {t : FdTask}

theorem Tables.retire (h : Tables s) (hr : s.Reapable k)
    (hrow : ∀ i < maxFd, (t.fdTableInternal i).node = none) (ht : t.used = false) : Tables (s.setTask k t) := by
  have hother : ∀ j, j ≠ k → (s.setTask k t).tasks j = s.tasks j := fun j hj => setTask_other s hj t
  have hne : ∀ j, ((s.setTask k t).tasks j).used = true → j ≠ k := by
    rintro j hj rfl
    rw [setTask_self, ht] at hj
    cases hj
  refine ⟨fun j hj hu' => ?_, fun k' hk' hno i hi => ?_⟩
  · have hjk := hne j hu'
    rw [hother j hjk] at hu' ⊢
    rw [hother _ (hr j hj hjk hu')]
    exact h.own j hj hu'
  · by_cases he : k' = k
    · subst he
      unfold rows slot
      rw [setTask_self]
      exact hrow i hi
    · have hrows : (s.setTask k t).rows k' = s.rows k' := by
        funext i
        unfold rows slot
        rw [hother k' he]
      rw [hrows]
      refine h.idle k' hk' (fun j hj hu' hjk' => ?_) i hi
      by_cases hjk : j = k
      · -- the table `k` uses is used by its owner
        have hown := h.own j hj hu'
        rw [hjk'] at hown
        have huse := hno k' hk'
        rw [hother k' he] at huse
        exact huse hown.2.1 hown.2.2
      · have huse := hno j hj
        rw [hother j hjk] at huse
        exact huse hu' hjk'

theorem held_setTask (ht : t.fdTableInternal = (s.tasks k).fdTableInternal) (n : Nat) :
    (s.setTask k t).held n = s.held n := by
  apply held_congr
  intro j _ i _
  unfold rows slot
  by_cases hj : j = k
  · rw [hj, setTask_self, ht]
  · rw [setTask_other s hj]

theorem reap_ok (hQ : ClosesKeep D Q) (h : Ok Q s) (hk : k < maxTasks) (hu : (s.tasks k).used = true) (hr : s.Reapable k) :
    ∃ s', s.reap D k = some s' ∧ Ok Q s' ∧ (s'.tasks k).used = false ∧ ∀ j, j ≠ k → s'.tasks j = s.tasks j := by
  have hloop : ∃ s1, (if (s.tasks k).fdTable = k then eachFd (fun i s => s.dropSlot D k i) s else some s) = some s1 ∧
      Ok Q s1 ∧ Within k s s1 ∧ ∀ i < maxFd, s1.rows k i = none := by
    split
    case isTrue ht =>
      have hl : s.Live k := ⟨hk, k, hk, hu, ht⟩
      let P : Nat → Files σ κ → Prop := fun i s1 => Ok Q s1 ∧ Within k s s1 ∧ ∀ j < i, s1.rows k j = none
      have hstep : ∀ i < maxFd, ∀ s1, P i s1 → ∃ s2, s1.dropSlot D k i = some s2 ∧ P (i + 1) s2 := by
        rintro i hi s1 ⟨hok, hw, hrow⟩
        obtain ⟨s2, hs2, hok2, hw2, hrow2⟩ := dropSlot_ok hQ hok (hl.within hw) hi
        refine ⟨s2, hs2, hok2, hw.trans hw2, fun j hj => ?_⟩
        rw [hrow2]
        by_cases he : j = i
        · rw [he, update_self]
        · rw [update_of_ne he]
          exact hrow j (by omega)
      obtain ⟨s1, hs1, hok, hw, hrow⟩ := eachFd_spec (P := P) hstep ⟨h, Within.refl k s, fun j hj => by omega⟩
      exact ⟨s1, hs1, hok, hw, hrow⟩
    case isFalse ht =>
      refine ⟨s, rfl, h, Within.refl k s, h.tables.idle k hk fun j hj hu' hjk => ?_⟩
      -- whoever used it would find it used by its owner
      have hown := h.tables.own j hj hu'
      rw [hjk] at hown
      exact ht hown.2.2
  obtain ⟨s1, hs1, hok, hw, hrow⟩ := hloop
  refine ⟨s1.setTask k { s1.tasks k with used := false, dead := false, id := 0 }, ?_, ⟨?_, ?_, hok.rest⟩, ?_, ?_⟩
  · rw [reap, hs1]
    rfl
  · exact hok.balanced.congr rfl rfl rfl (held_setTask rfl)
  · refine hok.tables.retire (fun j hj hjk hu' => ?_) hrow rfl
    rw [hw.fdTable j]
    exact hr j hj hjk ((hw.used j).symm.trans hu')
  · rw [setTask_self]
  · intro j hj
    rw [setTask_other _ hj, hw.other j hj]

/-- Where all slots are taken, the orphan that goes has its table for itself. -/
def SlotMet (s : Files σ κ) (active : Nat → Bool) : Prop :=
  s.taskCount < maxTasks → ((List.range maxTasks).find? fun i => !(s.tasks i).used) = none →
    ∀ k, s.orphan active = some k → s.Reapable k

structure Marked (Q : σ → (Nat → Option κ) → Prop) (cur k : Nat) (s1 s' : Files σ κ) : Prop where
  ok : Ok Q s1
  free : (s1.tasks k).used = false
  slot : k < maxTasks
  runs : s1.runs cur
  eq : s' = s1.setTask k { s1.tasks k with used := true }

theorem Marked.ne (h : Marked Q cur k s1 s) : cur ≠ k := by
  rintro rfl
  exact nomatch h.free.symm.trans h.runs.2.1

variable {active : Nat → Bool}

theorem findFreeSlot_spec (hQ : ClosesKeep D Q) (h : Ok Q s) (hc : s.runs cur)
    (hm : s.SlotMet active) (hcount : s.taskCount < maxTasks) :
    ∃ s' o, s.findFreeSlot D active = some (s', o) ∧ (o = none ∧ Ok Q s' ∨ ∃ k s1, o = some k ∧ Marked Q cur k s1 s') := by
  unfold findFreeSlot
  split
  · next k hfind =>
    refine ⟨_, _, rfl, .inr ⟨k, s, rfl, h, ?_, ?_, hc, rfl⟩⟩
    · simpa using List.find?_some (p := fun i => !(s.tasks i).used) hfind
    · exact List.mem_range.mp (List.mem_of_find?_eq_some hfind)
  · next hfull =>
    split
    · exact ⟨s, none, rfl, .inl ⟨rfl, h⟩⟩
    · next k hk =>
      have hlt : k < maxTasks := List.mem_range.mp (List.mem_of_mem_drop (List.mem_of_find?_eq_some hk))
      have hdead : (s.tasks k).dead = true := by
        have := List.find?_some (p := fun i => (s.tasks i).dead && (s.tasks i).parentId == (s.tasks 0).id && !active i) hk
        simp only [Bool.and_eq_true] at this
        exact this.1.1
      have hu : (s.tasks k).used = true := by
        have := List.find?_eq_none.mp hfull k (List.mem_range.mpr hlt)
        simpa using this
      have hne : cur ≠ k := by
        rintro rfl
        rw [hc.2.2] at hdead
        cases hdead
      obtain ⟨s1, hs1, hok, hfree, hother⟩ := reap_ok hQ h hlt hu (hm hcount hfull k hk)
      rw [hs1]
      refine ⟨_, _, rfl, .inr ⟨k, s1, rfl, hok, hfree, hlt, ?_, rfl⟩⟩
      unfold Files.runs
      rw [hother cur hne]
      exact hc

theorem newSlot_spec (hQ : ClosesKeep D Q) (h : Ok Q s) (hc : s.runs cur) (hm : s.SlotMet active) (stack : Bool) :
    ∃ s' o, s.newSlot D active stack = some (s', o) ∧ (o = none ∧ Ok Q s' ∨ ∃ k s1, o = some k ∧ Marked Q cur k s1 s') := by
  unfold newSlot
  split
  · exact ⟨s, none, rfl, .inl ⟨rfl, h⟩⟩
  next hcount =>
  obtain ⟨s', o, hs', hcase⟩ := findFreeSlot_spec hQ h hc hm (Nat.lt_of_not_le hcount)
  rw [hs', Option.map_some]
  rcases hcase with ⟨rfl, hok⟩ | ⟨k, s1, rfl, hmark⟩
  · exact ⟨s', none, rfl, .inl ⟨rfl, hok⟩⟩
  · cases stack with
    | true => exact ⟨s', some k, rfl, .inr ⟨k, s1, rfl, hmark⟩⟩
    | false =>
      refine ⟨_, none, rfl, .inl ⟨rfl, ?_⟩⟩
      -- the slot is as it was
      have hback : s'.setTask k { s'.tasks k with used := false } = s1 := by
        rw [hmark.eq, setTask_self]
        unfold setTask
        rw [Function.update_idem]
        have htask : { s1.tasks k with used := false } = s1.tasks k := by
          rw [← hmark.free]
        rw [htask, Function.update_eq_self]
      rw [hback]
      exact hmark.ok

theorem start_of_marked (hmark : Marked Q cur k s1 s) (t : FdTask) : s.start k t = s1.start k t := by
  rw [hmark.eq]
  unfold start setTask
  simp

theorem start_self (s : Files σ κ) (k : Nat) (t : FdTask) :
    (s.start k t).tasks k = { t with used := true, dead := false, id := s.nextId } := update_self ..

theorem start_other (s : Files σ κ) {j : Nat} (hj : j ≠ k) (t : FdTask) : (s.start k t).tasks j = s.tasks j :=
  update_of_ne hj ..

theorem Tables.start (h : Tables s) (hfree : (s.tasks k).used = false) (hk : k < maxTasks)
    (ht : t.fdTable = k ∨ s.Live t.fdTable ∧ t.fdTableInternal = (s.tasks k).fdTableInternal) :
    Tables (s.start k t) := by
  have hne : ∀ j < maxTasks, (s.tasks j).used = true → j ≠ k ∧ (s.tasks j).fdTable ≠ k := by
    intro j hj hu
    refine ⟨fun he => ?_, fun he => ?_⟩
    · rw [he, hfree] at hu
      cases hu
    · have hown := (h.own j hj hu).2.1
      rw [he, hfree] at hown
      cases hown
  refine ⟨fun j hj hu => ?_, fun k' hk' hno i hi => ?_⟩
  · by_cases he : j = k
    · subst he
      rw [start_self]
      rcases ht with ht | ⟨⟨hlt, p, hp, hpu, hpt⟩, -⟩
      · rw [show t.fdTable = j from ht, start_self]
        exact ⟨hj, rfl, ht⟩
      · have hown := h.own p hp hpu
        rw [hpt] at hown
        have htk : t.fdTable ≠ j := by
          intro he
          rw [he, hfree] at hown
          exact nomatch hown.2.1
        show t.fdTable < maxTasks ∧ ((s.start j t).tasks t.fdTable).used = true ∧
          ((s.start j t).tasks t.fdTable).fdTable = t.fdTable
        rw [start_other s htk]
        exact hown
    · rw [start_other s he] at hu ⊢
      rw [start_other s (hne j hj hu).2]
      exact h.own j hj hu
  · have hidle : ∀ j < maxTasks, (s.tasks j).used = true → (s.tasks j).fdTable ≠ k' := by
      intro j hj hu
      have huse := hno j hj
      rw [start_other s (hne j hj hu).1] at huse
      exact huse hu
    by_cases he : k' = k
    · subst he
      rcases ht with ht | ⟨-, ht⟩
      · have huse := hno k' hk'
        rw [start_self] at huse
        exact absurd ht (huse rfl)
      · have hrow : (s.start k' t).rows k' = s.rows k' := by
          funext i
          unfold rows slot
          rw [start_self, ht]
        rw [hrow]
        exact h.idle k' hk' hidle i hi
    · have hrow : (s.start k t).rows k' = s.rows k' := by
        funext i
        unfold rows slot
        rw [start_other s he]
      rw [hrow]
      exact h.idle k' hk' hidle i hi

theorem Tables.idle_of_free (h : Tables s) (hk : k < maxTasks) (hfree : (s.tasks k).used = false) :
    ∀ i < maxFd, s.rows k i = none := by
  refine h.idle k hk fun j hj hu he => ?_
  have hown := (h.own j hj hu).2.1
  rw [he, hfree] at hown
  cases hown

theorem start_balanced (h : Settled s) (hk : k < maxTasks) (hnone : ∀ i < maxFd, s.rows k i = none)
    {owed : Nat → Nat} (ht : ∀ n, rowUses (fun i => (t.fdTableInternal i).node) n = owed n)
    (hold : ∀ n, 0 < owed n → 0 < s.held n) : Balanced (s.start k t) owed := by
  have hrow : (s.start k t).rows k = fun i => (t.fdTableInternal i).node := by
    funext i
    unfold rows slot
    rw [start_self]
  have hzero : ∀ n, rowUses (s.rows k) n = 0 := by
    intro n
    unfold rowUses
    apply uses_of_none
    intro i hi
    exact hnone i (Finset.mem_range.mp hi)
  have hheld : ∀ n, (s.start k t).held n = s.held n + owed n := by
    intro n
    have hother : ∀ j, j ≠ k → (s.start k t).rows j = s.rows j := by
      intro j hj
      funext i
      unfold rows slot
      rw [start_other s hj]
    have hoff := held_off hk hother n
    rw [hrow, ht n, hzero n] at hoff
    exact hoff
  refine ⟨fun n node hn => ?_, fun n hn => ?_, h.needed, h.fresh, h.once, h.gone⟩
  · have hcount := h.counted n node hn
    rw [hheld n]
    omega
  · rw [hheld n] at hn
    apply h.alive n
    rcases Nat.eq_zero_or_pos (owed n) with h0 | h0
    · omega
    · exact hold n h0

theorem taskCreate_safe (hQ : ClosesKeep D Q) (h : Ok Q s) (hc : s.runs cur)
    (hm : s.SlotMet active) (stack : Bool) : Safe Q ((s.taskCreate D active stack).map Prod.fst) := by
  obtain ⟨s', o, hs', hcase⟩ := newSlot_spec hQ h hc hm stack
  unfold taskCreate
  rw [hs', Option.map_some, Option.map_some]
  rcases hcase with ⟨rfl, hok⟩ | ⟨k, s1, rfl, hmark⟩
  · exact hok.safe
  · refine ⟨_, rfl, ?_⟩
    dsimp only
    rw [start_of_marked hmark]
    have hidle := hmark.ok.tables.idle_of_free hmark.slot hmark.free
    refine ⟨start_balanced hmark.ok.balanced hmark.slot hidle (fun n => ?_) fun n hn => absurd hn (Nat.lt_irrefl 0),
      hmark.ok.tables.start hmark.free hmark.slot (.inl rfl), hmark.ok.rest⟩
    unfold rowUses
    exact uses_of_none (fun _ _ => rfl) n

theorem copyTable_safe (hmark : Marked Q cur k s1 s) : Safe Q (s.copyTable cur k) := by
  have hl := hmark.ok.tables.live hmark.runs
  have hidle := hmark.ok.tables.idle_of_free hmark.slot hmark.free
  have htable : (s1.tasks cur).fdTable ≠ k := by
    intro he
    obtain ⟨-, hu, -⟩ := hmark.ok.tables.own cur hmark.runs.1 hmark.runs.2.1
    rw [he, hmark.free] at hu
    cases hu
  have hsame : ∀ j, j ≠ k → s.tasks j = s1.tasks j := by
    intro j hj
    rw [hmark.eq, setTask_other _ hj]
  unfold copyTable
  dsimp only
  rw [hsame cur hmark.ne, hsame _ htable, start_of_marked hmark]
  generalize ht : ({ s1.tasks cur with
      parentId := (s1.tasks cur).id, fdTable := k
      fdTableInternal := (s1.tasks (s1.tasks cur).fdTable).fdTableInternal } : FdTask) = t
  have hrow : (fun i => (t.fdTableInternal i).node) = s1.rows (s1.tasks cur).fdTable := by
    rw [← ht]
    rfl
  have hstart : (s1.start k t).rows k = s1.rows (s1.tasks cur).fdTable := by
    rw [← hrow]
    funext i
    unfold rows slot
    rw [start_self]
  have hb : Balanced (s1.start k t) (rowUses ((s1.start k t).rows k)) := by
    rw [hstart]
    refine start_balanced hmark.ok.balanced hmark.slot hidle (fun n => by rw [hrow]) fun n hn => ?_
    unfold rowUses at hn
    obtain ⟨i, hi, hv⟩ := uses_pos.mp hn
    exact held_pos hl.1 (Finset.mem_range.mp hi) hv
  obtain ⟨s', hs', hset, htasks, hfs, hkinds⟩ := refAll_settled hmark.slot hb
  refine ⟨s', hs', hset, ?_, ?_⟩
  · have hstarted : Tables (s1.start k t) := hmark.ok.tables.start hmark.free hmark.slot (.inl (ht ▸ rfl))
    exact hstarted.of_tasks htasks
  · rw [hfs, hkinds]
    exact hmark.ok.rest

theorem taskFork_safe (hQ : ClosesKeep D Q) (h : Ok Q s) (hc : s.runs cur)
    (hm : s.SlotMet active) (stack : Bool) : Safe Q ((s.taskFork D cur active stack).map Prod.fst) := by
  obtain ⟨s', o, hs', hcase⟩ := newSlot_spec hQ h hc hm stack
  unfold taskFork
  rw [hs', Option.bind_some]
  rcases hcase with ⟨rfl, hok⟩ | ⟨k, s1, rfl, hmark⟩
  · exact hok.safe
  · obtain ⟨s2, hs2, hok⟩ := copyTable_safe hmark
    dsimp only
    rw [hs2]
    exact hok.safe

theorem taskClone_safe (hQ : ClosesKeep D Q) (h : Ok Q s) (hc : s.runs cur) (flags : UInt64)
    (hm : s.SlotMet active) (stack : Bool) : Safe Q ((s.taskClone D cur flags active stack).map Prod.fst) := by
  obtain ⟨s', o, hs', hcase⟩ := newSlot_spec hQ h hc hm stack
  unfold taskClone
  rw [hs', Option.bind_some]
  rcases hcase with ⟨rfl, hok⟩ | ⟨k, s1, rfl, hmark⟩
  · exact hok.safe
  · dsimp only
    split
    · -- the table is the parent's
      have hown : (s'.tasks k).fdTableInternal = (s1.tasks k).fdTableInternal := by
        rw [hmark.eq, setTask_self]
      have hpar : s'.tasks cur = s1.tasks cur := by
        rw [hmark.eq, setTask_other _ hmark.ne]
      refine ⟨_, rfl, ?_⟩
      rw [start_of_marked hmark, hown, hpar]
      have hl := hmark.ok.tables.live hmark.runs
      have hidle := hmark.ok.tables.idle_of_free hmark.slot hmark.free
      refine ⟨start_balanced hmark.ok.balanced hmark.slot hidle (fun n => ?_) fun n hn => absurd hn (Nat.lt_irrefl 0),
        hmark.ok.tables.start hmark.free hmark.slot (.inr ⟨hl, rfl⟩), hmark.ok.rest⟩
      unfold rowUses
      apply uses_of_none
      intro i hi
      exact hidle i (Finset.mem_range.mp hi)
    · obtain ⟨s2, hs2, hok⟩ := copyTable_safe hmark
      rw [hs2]
      exact hok.safe

theorem unshareFd_spec {s0 : Files σ κ} (h₀ : Ok Q s0) (hc : s0.runs cur) (hb : Settled s) (hq : Q s.fs s.kinds)
    (hw : Within cur s0 s) (hi : i < maxFd) (hnone : s.rows cur i = none) :
    ∃ s', unshareFd cur i s = some s' ∧ Settled s' ∧ Q s'.fs s'.kinds ∧ Within cur s0 s' ∧
      ∀ j, j ≠ i → s'.rows cur j = s.rows cur j := by
  have hfd : s.fd cur i = s.slot (s0.tasks cur).fdTable i := by rw [fd, hw.fdTable]
  have hclear : Settled (s.clearSlot cur i) ∧ (∀ j, j ≠ i → (s.clearSlot cur i).rows cur j = s.rows cur j) := by
    refine ⟨hb.congr rfl rfl rfl (held_same ?_), fun j hj => ?_⟩
    · exact hnone.symm
    · unfold clearSlot
      rw [rows_setSlot_self, update_of_ne hj]
  unfold unshareFd
  dsimp only
  split
  · exact ⟨_, rfl, hclear.1, hq, hw.trans (within_setSlot s cur i _), hclear.2⟩
  next n hn =>
  split
  · exact ⟨_, rfl, hclear.1, hq, hw.trans (within_setSlot s cur i _), hclear.2⟩
  · have hheld : 0 < s.held n := by
      rw [hfd] at hn
      exact held_pos (h₀.tables.live hc).1 hi hn
    obtain ⟨s', hs', hb', ht, hf, hkinds⟩ := share_settled hb hc.1 hi hnone hn hheld
    refine ⟨s', hs', hb', ?_, hw.trans (within_of_tasks (within_setSlot s cur i _) ht), fun j hj => ?_⟩
    · rw [hf, hkinds]
      exact hq
    · rw [rows_of_tasks ht, rows_setSlot_self, update_of_ne hj]

theorem Tables.unshare (h : Tables s) (hc : s.runs cur) (hne : (s.tasks cur).fdTable ≠ cur) (hw : Within cur s s') :
    Tables (s'.setTask cur { s'.tasks cur with fdTable := cur }) := by
  have hother : ∀ j, j ≠ cur → (s'.setTask cur { s'.tasks cur with fdTable := cur }).tasks j = s.tasks j := by
    intro j hj
    rw [setTask_other _ hj, hw.other j hj]
  have hused : ∀ j, ((s'.setTask cur { s'.tasks cur with fdTable := cur }).tasks j).used = (s.tasks j).used := by
    intro j
    by_cases hj : j = cur
    · rw [hj, setTask_self]
      exact hw.used cur
    · rw [hother j hj]
  refine ⟨fun j hj hu => ?_, fun k hk hno i hi => ?_⟩
  · rw [hused] at hu
    have hown := h.own j hj hu
    by_cases he : j = cur
    · rw [he, setTask_self]
      refine ⟨hc.1, ?_, ?_⟩
      · show ((s'.setTask cur { s'.tasks cur with fdTable := cur }).tasks cur).used = true
        rw [hused]
        exact hc.2.1
      · show ((s'.setTask cur { s'.tasks cur with fdTable := cur }).tasks cur).fdTable = cur
        rw [setTask_self]
    · rw [hother j he]
      have htable : (s.tasks j).fdTable ≠ cur := by
        intro hj'
        rw [hj'] at hown
        exact hne hown.2.2
      rw [hother _ htable]
      exact hown
  · have hcur : k ≠ cur := by
      rintro rfl
      have huse := hno k hk
      rw [hused, setTask_self] at huse
      exact huse hc.2.1 rfl
    have hrow : (s'.setTask cur { s'.tasks cur with fdTable := cur }).rows k = s.rows k := by
      funext i
      unfold rows slot
      rw [hother k hcur]
    rw [hrow]
    refine h.idle k hk (fun j hj hu hjk => ?_) i hi
    -- the owner of the table still uses it
    have hown := h.own j hj hu
    rw [hjk] at hown
    have huse := hno k hk
    rw [hused, hother k hcur] at huse
    exact huse hown.2.1 hown.2.2

theorem taskExec_safe (hQ : ClosesKeep D Q) (h : Ok Q s) (hc : s.runs cur) (loaded : Bool) (ret : Int) :
    Safe Q ((s.taskExec D cur loaded ret).map Prod.fst) := by
  unfold taskExec
  split
  · exact h.safe
  split
  case isTrue hne =>
    have hidle : ∀ i < maxFd, s.rows cur i = none := by
      refine h.tables.idle cur hc.1 fun j hj hu he => ?_
      have hown := h.tables.own j hj hu
      rw [he] at hown
      exact hne hown.2.2
    let P : Nat → Files σ κ → Prop := fun i s' =>
      Settled s' ∧ Q s'.fs s'.kinds ∧ Within cur s s' ∧ ∀ j, i ≤ j → j < maxFd → s'.rows cur j = none
    have hstep : ∀ i < maxFd, ∀ s1, P i s1 → ∃ s2, unshareFd cur i s1 = some s2 ∧ P (i + 1) s2 := by
      rintro i hi s1 ⟨hb, hq, hw, hrow⟩
      obtain ⟨s2, hs2, hb2, hq2, hw2, hrow2⟩ := unshareFd_spec h hc hb hq hw hi (hrow i (Nat.le_refl i) hi)
      refine ⟨s2, hs2, hb2, hq2, hw2, fun j hij hj => ?_⟩
      rw [hrow2 j (by omega)]
      exact hrow j (by omega) hj
    obtain ⟨s', hs', hb, hq, hw, -⟩ := eachFd_spec (P := P) hstep ⟨h.balanced, h.rest, Within.refl cur s,
      fun j _ hj => hidle j hj⟩
    rw [hs']
    refine ⟨_, rfl, ?_, h.tables.unshare hc hne hw, hq⟩
    exact hb.congr rfl rfl rfl (held_setTask rfl)
  case isFalse hown =>
    rw [ne_eq, not_not] at hown
    have hl : s.Live cur := ⟨hc.1, cur, hc.1, hc.2.1, hown⟩
    let P : Nat → Files σ κ → Prop := fun _ s' => Ok Q s' ∧ Within cur s s'
    have hstep : ∀ i < maxFd, ∀ s1, P i s1 → ∃ s2, closeOnExec D cur i s1 = some s2 ∧ P (i + 1) s2 := by
      rintro i hi s1 ⟨hok, hw⟩
      unfold closeOnExec
      split
      · obtain ⟨s2, hs2, hok2, hw2, -⟩ := dropSlot_ok hQ hok (hl.within hw) hi
        exact ⟨s2, hs2, hok2, hw.trans hw2⟩
      · exact ⟨s1, rfl, hok, hw⟩
    obtain ⟨s', hs', hok, -⟩ := eachFd_spec (P := P) hstep ⟨h, Within.refl cur s⟩
    rw [hs']
    exact hok.safe

theorem taskExit_ok (h : Ok Q s) : Ok Q (s.taskExit cur) := by
  have hfields : ∀ j, ((s.taskExit cur).tasks j).used = (s.tasks j).used ∧
    ((s.taskExit cur).tasks j).fdTable = (s.tasks j).fdTable ∧
      ((s.taskExit cur).tasks j).fdTableInternal = (s.tasks j).fdTableInternal := by
    intro j
    unfold taskExit
    dsimp only
    split
    · by_cases hj : j = cur
      · subst hj
        rw [setTask_self]
        exact ⟨rfl, rfl, rfl⟩
      · rw [setTask_other s hj]
        exact ⟨rfl, rfl, rfl⟩
    · by_cases hj : j = cur
      · subst hj
        rw [setTask_self]
        exact ⟨rfl, rfl, rfl⟩
      · rw [setTask_other s hj]
        exact ⟨rfl, rfl, rfl⟩
  have hrows : (s.taskExit cur).rows = s.rows := by
    funext k i
    unfold rows slot
    rw [(hfields k).2.2]
  refine ⟨h.balanced.congr rfl rfl rfl fun n => ?_, ⟨fun j hj hu => ?_, fun k hk hno i hi => ?_⟩, h.rest⟩
  · unfold held
    rw [hrows]
  · rw [(hfields j).1] at hu
    rw [(hfields j).2.1, (hfields _).1, (hfields _).2.1]
    exact h.tables.own j hj hu
  · rw [hrows]
    refine h.tables.idle k hk (fun j hj hu => ?_) i hi
    have huse := hno j hj
    rw [(hfields j).1, (hfields j).2.1] at huse
    exact huse hu

/-! ## Runs -/

/-- What a call must meet for the references to stay right: `openat` opens a node that starts with one, `mmap` maps no
file, and a task that is reaped has its table for itself. -/
def Met (D : Driver σ κ) (s : Files σ κ) (cur : Nat) : FileCall → Prop
  | .openat dirfd path _ mode => OpensCounted D s cur dirfd path mode
  | .mmap early fd _ => early.isSome ∨ fd = -1 ∨ ¬ validFd fd ∨ (s.fd cur fd.toNat).node = none
  | .create active _ | .fork active _ | .clone _ active _ => s.SlotMet active
  | .wait zombie =>
    zombie < maxTasks → (s.tasks zombie).used = true → (s.tasks zombie).dead = true → s.Reapable zombie
  | _ => True

def opens : FileCall → Bool
  | .openat .. | .memfdCreate .. | .pipe2 .. | .newfstatat .. | .faccessat .. | .chmod .. | .getdents64 .. => true
  | _ => false

/-- **A call keeps references and tables**, and `Q` where what it opens and looks up does. -/
theorem run_safe (hQ : ClosesKeep D Q) (h : Ok Q s) (hc : s.runs cur) {call : FileCall} (hm : Met D s cur call)
    (hopen : opens call = true → ∀ s', s.run D cur call = some s' → Q s'.fs s'.kinds) : Safe Q (s.run D cur call) := by
  have hsound : opens call = true → (∃ s', s.run D cur call = some s' ∧ Sound s') → Safe Q (s.run D cur call) := by
    rintro ho ⟨s', hs', hsnd⟩
    exact ⟨s', hs', hsnd.balanced, hsnd.tables, hopen ho s' hs'⟩
  cases call with
  | openat dirfd path flags mode => exact hsound rfl ⟨_, rfl, sysOpenat_sound h.sound hc hm flags⟩
  | memfdCreate name => exact hsound rfl ⟨_, rfl, sysMemfdCreate_sound h.sound hc name⟩
  | pipe2 mapped flags => exact hsound rfl ⟨_, rfl, sysPipe2_sound h.sound hc mapped flags⟩
  | close fd => exact sysClose_safe hQ h hc fd
  | dup old => exact sysDup_safe hQ h hc old
  | dup2 old new => exact sysDup2_safe hQ h hc old new
  | dup3 old new flags => exact sysDup3_safe hQ h hc old new flags
  | fcntl fd cmd arg => exact sysFcntl_safe h hc fd cmd arg
  | mmap early fd ret =>
    show Safe Q ((s.sysMmap cur early fd ret).map Prod.fst)
    unfold sysMmap
    split
    · exact h.safe
    split
    · exact h.safe
    next hne =>
    split
    · exact h.safe
    next hv =>
    rcases hm with hm | hm | hm | hm
    · cases hm
    · exact absurd hm hne
    · exact absurd hm hv
    · rw [hm]
      exact h.safe
  | newfstatat dirfd path mapped flags =>
    obtain ⟨r, hr, hs⟩ := sysNewfstatat_sound (D := D) h.sound hc dirfd path mapped flags
    exact hsound rfl ⟨r.1, congrArg (Option.map Prod.fst) hr, hs⟩
  | faccessat dirfd path mode => exact hsound rfl ⟨_, rfl, sysFaccessat_sound h.sound dirfd path mode⟩
  | chmod path => exact hsound rfl ⟨_, rfl, sysChmod_sound h.sound path⟩
  | getdents64 fd mapped count entries =>
    obtain ⟨r, hr, hs⟩ := sysGetdents64_sound (D := D) h.sound hc fd mapped count entries
    exact hsound rfl ⟨r.1, congrArg (Option.map Prod.fst) hr, hs⟩
  | create active stack => exact taskCreate_safe hQ h hc hm stack
  | fork active stack => exact taskFork_safe hQ h hc hm stack
  | clone flags active stack => exact taskClone_safe hQ h hc flags hm stack
  | exec loaded ret => exact taskExec_safe hQ h hc loaded ret
  | exit => exact (taskExit_ok h).safe
  | wait zombie =>
    rw [run]
    split
    · next hz =>
      obtain ⟨s', hs', hok, -⟩ := reap_ok hQ h hz.1 hz.2.1 (hm hz.1 hz.2.1 hz.2.2)
      exact ⟨s', hs', hok⟩
    · exact h.safe

def liveTables (s : Files σ κ) : Finset Nat :=
  (Finset.range maxTasks).filter fun k => ∃ j < maxTasks, (s.tasks j).used = true ∧ (s.tasks j).fdTable = k

def liveRefs (s : Files σ κ) (n : Nat) : Nat := usesIn s.liveTables (Finset.range maxFd) s.rows n

/-- A node's `ref_count` is the number of live slots that hold it; it is freed once, when that number is 0; and no slot
of a running task holds a freed node. -/
structure Counted (s : Files σ κ) : Prop where
  refs : ∀ n node, s.nodes n = some node → node.refCount.toNat = s.liveRefs n
  alive : ∀ k i n, s.runs k → i < maxFd → (s.fd k i).node = some n → (s.nodes n).isSome
  once : s.freed.Nodup
  freed : ∀ n < s.nextNode, n ∈ s.freed ↔ s.liveRefs n = 0

theorem Tables.liveRefs (h : Tables s) (n : Nat) : s.liveRefs n = s.held n := by
  unfold Files.liveRefs held heldIn usesIn
  apply Finset.sum_subset (Finset.filter_subset _ _)
  intro k hk hnot
  apply uses_of_none
  intro i hi
  refine h.idle k (Finset.mem_range.mp hk) (fun j hj hu he => ?_) i (Finset.mem_range.mp hi)
  exact hnot (Finset.mem_filter.mpr ⟨hk, j, hj, hu, he⟩)

theorem Ok.counted (h : Ok Q s) : Counted s := by
  refine ⟨fun n node hn => ?_, fun k i n hc hi hn => ?_, h.balanced.once, fun n hn => ?_⟩
  · rw [h.tables.liveRefs]
    exact h.balanced.counted n node hn
  · apply h.balanced.alive
    exact held_pos (h.tables.live hc).1 hi hn
  · rw [h.tables.liveRefs, h.balanced.gone]
    constructor
    · rintro ⟨-, hno⟩
      by_contra hne
      have hsome := h.balanced.alive n (Nat.pos_of_ne_zero hne)
      rw [hno] at hsome
      cases hsome
    · intro hzero
      refine ⟨hn, ?_⟩
      cases hnode : s.nodes n with
      | none => rfl
      | some node =>
        have hcount := h.balanced.counted n node hnode
        have hpos := h.balanced.needed n node hnode
        omega

theorem boot_ok (fs : σ) (rootRefs : UInt32) (hq : Q fs fun _ => none) : Ok Q (boot fs rootRefs : Files σ κ) := by
  have hheld : ∀ n, (boot fs rootRefs : Files σ κ).held n = 0 := by
    intro n
    unfold held heldIn
    apply usesIn_eq_zero.mpr
    intro k _ i _
    exact fun he => nomatch he
  refine ⟨⟨?_, fun n hn => ?_, ?_, fun _ _ => rfl, List.nodup_nil, fun n => ?_⟩, ⟨fun j hj hu => ?_, ?_⟩, hq⟩
  · exact fun n node hn => nomatch hn
  · rw [hheld n] at hn
    exact absurd hn (Nat.lt_irrefl 0)
  · exact fun n node hn => nomatch hn
  · constructor
    · exact fun hmem => nomatch hmem
    · exact fun hlt => absurd hlt.1 (Nat.not_lt_zero n)
  · exact ⟨Nat.zero_lt_succ 63, rfl, rfl⟩
  · exact fun _ _ _ _ _ => rfl

def StepMet (D : Driver σ κ) (s : Option (Files σ κ)) (call : Nat × FileCall) : Prop :=
  ∀ t, s = some t → t.runs call.1 → Met D t call.1 call.2

/-- **Descriptors are counted**: in every run whose calls meet the condition, no freed node is touched and every node
has as many references as live slots. -/
theorem descriptors_are_counted (D : Driver σ κ) (fs : σ) (rootRefs : UInt32) (calls : List (Nat × FileCall))
    (hmet : Run.Guarded (step D) (StepMet D) (some (boot fs rootRefs)) calls) :
    ∀ s' ∈ Run.states (step D) (some (boot fs rootRefs)) calls, ∃ s, s' = some s ∧ Counted s := by
  have hsafe : ∀ s' ∈ Run.states (step D) (some (boot fs rootRefs)) calls, Safe (fun _ _ => True) s' := by
    refine Run.states_forall (fun s call hs hm => ?_) calls _ (boot_ok fs rootRefs trivial).safe hmet
    obtain ⟨t, rfl, hok⟩ := hs
    show Safe _ (if t.runs call.1 then t.run D call.1 call.2 else some t)
    split
    · next hc => exact run_safe (fun _ _ _ _ _ _ => trivial) hok hc (hm t rfl hc) fun _ _ _ => trivial
    · exact hok.safe
  intro s' hs'
  obtain ⟨s, rfl, hok⟩ := hsafe s' hs'
  exact ⟨s, rfl, hok.counted⟩

/-! ## A filesystem with one file -/

def oneFile (refs : UInt32) : Driver Unit Unit where
  tree :=
    { attrs := fun _ => ⟨1, 0o644, 0, 0⟩
      lookup := fun _ _ => some ()
      create := fun _ => none
      mkdir := fun _ => none
      unlink := fun _ => none
      rename := fun _ => none
      link := fun _ => none
      memfd := none }
  refs _ := refs
  length _ _ := 0
  truncate _ _ := ()
  openFs _ _ := ((), ())
  closeFs _ _ := ()
  finddir _ _ _ := none
  shmfsCreateMemfd _ := ((), ())
  pipe _ := ((), (), ())

def openDupClose : List (Nat × FileCall) :=
  [(0, .openat atFdcwd (.text (CStr.ofBytes [47, 102])) 0 0), (0, .dup 3), (0, .close 3)]

theorem one_file_is_counted :
    ∃ s, openDupClose.foldl (step (oneFile 1)) (some (boot () 1)) = some s ∧ Counted s :=
  descriptors_are_counted (oneFile 1) () 1 openDupClose
    ⟨fun _ _ _ _ _ => ⟨fun _ => rfl, fun _ _ => rfl, fun _ _ _ _ _ _ _ _ => rfl⟩, fun _ _ _ => trivial,
      fun _ _ _ => trivial, trivial⟩
    _ (Run.foldl_mem_states openDupClose _)

/-- JFS leaves `ref_count` 0: the node is freed while descriptor 0 holds it. -/
theorem jfs_node_dangles :
    ∃ s, openDupClose.foldl (step (oneFile 0)) (some (boot () 1)) = some s ∧ s.runs 0 ∧ (s.fd 0 0).node = some 0 ∧
      (s.nodes 0).isSome = false ∧ ¬ Counted s := by
  have hdangles : (openDupClose.foldl (step (oneFile 0)) (some (boot () 1))).map
      (fun s => ((s.fd 0 0).node, (s.nodes 0).isSome, decide (s.runs 0))) = some (some 0, false, true) := by
    decide +kernel
  obtain ⟨s, hs, hvalues⟩ := Option.map_eq_some_iff.1 hdangles
  rw [Prod.mk.injEq, Prod.mk.injEq, decide_eq_true_eq] at hvalues
  obtain ⟨hfd, hgone, hruns⟩ := hvalues
  refine ⟨s, hs, hruns, hfd, hgone, fun hc => ?_⟩
  rw [hc.alive 0 0 0 hruns (by decide) hfd] at hgone
  cases hgone

end Files

end EterOS.Syscall
