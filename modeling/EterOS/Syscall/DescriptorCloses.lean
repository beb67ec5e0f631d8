import EterOS.Syscall.DescriptorRuns
/-!
# DescriptorCloses — a node is closed when it is freed

However the references are counted, a node that goes away is closed as it goes, and at no other time: what a close keeps,
of the filesystems and of what the nodes are, every call keeps that does not look up or open anything.
-/
namespace EterOS.Syscall

open Function (update update_self update_of_ne)

namespace Files

variable {σ κ : Type*} {D : Driver σ κ} {Q : σ → (Nat → Option κ) → Prop} {s s' : Files σ κ} {n cur : Nat}

structure Keeps (Q : σ → (Nat → Option κ) → Prop) (s : Files σ κ) : Prop where
  fresh : ∀ n, s.nextNode ≤ n → s.nodes n = none
  rest : Q s.fs s.kinds

/-- `Keeps`, unless a freed node has been touched. -/
def Kept (Q : σ → (Nat → Option κ) → Prop) (r : Option (Files σ κ)) : Prop := ∀ s', r = some s' → Keeps Q s'

theorem Keeps.kept (h : Keeps Q s) : Kept Q (some s) := by
  rintro s' ⟨⟩
  exact h

theorem Keeps.of_nodes (h : Keeps Q s) (hfs : s'.fs = s.fs) (hnodes : s'.nodes = s.nodes)
    (hnext : s'.nextNode = s.nextNode) : Keeps Q s' := by
  refine ⟨fun n hn => ?_, ?_⟩
  · rw [hnodes]
    rw [hnext] at hn
    exact h.fresh n hn
  · have hkinds : s'.kinds = s.kinds := by
      funext n
      unfold kinds
      rw [hnodes]
    rw [hfs, hkinds]
    exact h.rest

theorem Kept.bind {r : Option (Files σ κ)} (hr : Kept Q r) {f : Files σ κ → Option (Files σ κ)}
    (hf : ∀ s, Keeps Q s → Kept Q (f s)) : Kept Q (r.bind f) := by
  intro s' hs'
  obtain ⟨s1, hs1, hf1⟩ := Option.bind_eq_some_iff.mp hs'
  exact hf s1 (hr s1 hs1) s' hf1

theorem Kept.map {r : Option (Files σ κ)} (hr : Kept Q r) {f : Files σ κ → Files σ κ}
    (hf : ∀ s, Keeps Q s → Keeps Q (f s)) : Kept Q (r.map f) := by
  intro s' hs'
  obtain ⟨s1, hs1, rfl⟩ := Option.map_eq_some_iff.mp hs'
  exact hf s1 (hr s1 hs1)

theorem Kept.ret {α : Type*} {r : Option (Files σ κ)} (hr : Kept Q r) {f : Files σ κ → Files σ κ × α}
    (hf : ∀ s, Keeps Q s → Keeps Q (f s).1) : Kept Q ((r.map f).map Prod.fst) := by
  rw [Option.map_map]
  exact hr.map hf

theorem kept_bind {α : Type*} {r : Option (Files σ κ × α)} (hr : Kept Q (r.map Prod.fst))
    {f : Files σ κ × α → Option (Files σ κ)} (hf : ∀ s a, Keeps Q s → Kept Q (f (s, a))) : Kept Q (r.bind f) := by
  intro s' hs'
  obtain ⟨⟨s1, a⟩, hr1, hf1⟩ := Option.bind_eq_some_iff.mp hs'
  refine hf s1 a (hr s1 ?_) s' hf1
  rw [hr1]
  rfl

/-! ## Nodes and slots -/

theorem Keeps.setTask (h : Keeps Q s) (k : Nat) (t : FdTask) : Keeps Q (s.setTask k t) := h.of_nodes rfl rfl rfl

theorem Keeps.setSlot (h : Keeps Q s) (k i : Nat) (d : FileDescriptor) : Keeps Q (s.setSlot k i d) := h.setTask k _

theorem Keeps.start (h : Keeps Q s) (k : Nat) (t : FdTask) : Keeps Q (s.start k t) := h.of_nodes rfl rfl rfl

theorem Keeps.setRefs (h : Keeps Q s) {node : OpenNode κ} (hn : s.nodes n = some node) (refs : UInt32) :
    Keeps Q { s with nodes := update s.nodes n (some { node with refCount := refs }) } := by
  refine ⟨fun m hm => ?_, ?_⟩
  · have hfree := h.fresh m hm
    have hne : m ≠ n := by
      rintro rfl
      rw [hn] at hfree
      cases hfree
    show update s.nodes n _ m = none
    rw [update_of_ne hne]
    exact hfree
  · have hkinds : ({ s with nodes := update s.nodes n (some { node with refCount := refs }) } : Files σ κ).kinds =
        s.kinds := by
      funext m
      unfold kinds
      by_cases hm : m = n
      · subst hm
        simp [hn]
      · simp [update_of_ne hm]
    rw [hkinds]
    exact h.rest

theorem refNode_kept (h : Keeps Q s) (n : Nat) : Kept Q (s.refNode n) := by
  intro s' hs'
  obtain ⟨node, hn, rfl⟩ := Option.map_eq_some_iff.mp hs'
  exact h.setRefs hn _

theorem putNode_kept (hQ : ClosesKeep D Q) (h : Keeps Q s) (n : Nat) : Kept Q (s.putNode D n) := by
  intro s' hs'
  obtain ⟨node, hn, rfl⟩ := Option.map_eq_some_iff.mp hs'
  split
  · have hkinds : ∀ t : Files σ κ, t.nodes = update s.nodes n none → t.kinds = update s.kinds n none := by
      intro t ht
      funext m
      unfold kinds
      rw [ht]
      by_cases hm : m = n
      · subst hm
        simp
      · simp [update_of_ne hm]
    refine ⟨fun m hm => ?_, ?_⟩
    · show update s.nodes n none m = none
      by_cases he : m = n
      · rw [he, update_self]
      · rw [update_of_ne he]
        exact h.fresh m hm
    · rw [hkinds _ rfl]
      apply hQ s.fs s.kinds n node.kind h.rest
      unfold kinds
      rw [hn]
      rfl
  · exact h.setRefs hn _

theorem dropSlot_kept (hQ : ClosesKeep D Q) (h : Keeps Q s) (k i : Nat) : Kept Q (s.dropSlot D k i) := by
  unfold dropSlot
  split
  · exact h.kept
  · exact (putNode_kept hQ h _).map fun _ h => h.setSlot k i _

theorem eachFd_kept {body : Nat → Files σ κ → Option (Files σ κ)} (hbody : ∀ i s, Keeps Q s → Kept Q (body i s))
    (h : Keeps Q s) : Kept Q (eachFd body s) := by
  unfold eachFd
  induction List.range maxFd generalizing s with
  | nil => exact h.kept
  | cons i rest ih =>
    rw [List.foldlM_cons]
    exact (hbody i s h).bind fun _ h => ih h

theorem copyFd_kept (h : Keeps Q s) (table old new : Nat) (flags : UInt32 → UInt32) (path : Fs.CStr) :
    Kept Q (s.copyFd table old new flags path) := by
  unfold copyFd
  dsimp only
  split
  · exact (h.setSlot table new _).kept
  · exact refNode_kept (h.setSlot table new _) _

/-! ## Calls on descriptors -/

theorem sysClose_kept (hQ : ClosesKeep D Q) (h : Keeps Q s) (fd : Int) : Kept Q ((s.sysClose D cur fd).map Prod.fst) := by
  unfold sysClose
  split
  · exact h.kept
  split
  · exact h.kept
  · exact (dropSlot_kept hQ h _ _).ret fun _ h => h

theorem dupTo_kept (hQ : ClosesKeep D Q) (h : Keeps Q s) (old new : Int) (flags : UInt32 → UInt32) :
    Kept Q ((s.dupTo D cur old new flags).map Prod.fst) := by
  unfold dupTo
  dsimp only
  rw [Option.map_bind]
  exact (dropSlot_kept hQ h _ _).bind fun _ h => (copyFd_kept h _ _ _ _ _).ret fun _ h => h

theorem sysDup2_kept (hQ : ClosesKeep D Q) (h : Keeps Q s) (old new : Int) :
    Kept Q ((s.sysDup2 D cur old new).map Prod.fst) := by
  unfold sysDup2
  split
  · exact h.kept
  split
  · exact h.kept
  split
  · exact h.kept
  · exact dupTo_kept hQ h old new _

theorem sysDup3_kept (hQ : ClosesKeep D Q) (h : Keeps Q s) (old new : Int) (flags : UInt32) :
    Kept Q ((s.sysDup3 D cur old new flags).map Prod.fst) := by
  unfold sysDup3
  split
  · exact h.kept
  split
  · exact h.kept
  split
  · exact h.kept
  · exact dupTo_kept hQ h old new _

theorem sysDup_kept (hQ : ClosesKeep D Q) (h : Keeps Q s) (old : Int) : Kept Q ((s.sysDup D cur old).map Prod.fst) := by
  unfold sysDup
  split
  · exact h.kept
  split
  · exact h.kept
  split
  · exact h.kept
  · exact sysDup2_kept hQ h old _

theorem sysFcntl_kept (h : Keeps Q s) (fd cmd arg : Int) : Kept Q ((s.sysFcntl cur fd cmd arg).map Prod.fst) := by
  unfold sysFcntl
  dsimp only
  split
  · exact h.kept
  split
  · exact h.kept
  split
  · split
    · exact h.kept
    split
    · exact h.kept
    · exact (copyFd_kept h _ _ _ _ _).ret fun _ h => h
  split
  · exact h.kept
  split
  · exact (h.setSlot _ _ _).kept
  split
  · exact h.kept
  split
  · exact (h.setSlot _ _ _).kept
  · exact h.kept

theorem sysMmap_kept (h : Keeps Q s) (early : Option Int) (fd ret : Int) :
    Kept Q ((s.sysMmap cur early fd ret).map Prod.fst) := by
  unfold sysMmap
  split
  · exact h.kept
  split
  · exact h.kept
  split
  · exact h.kept
  split
  · exact h.kept
  · exact (refNode_kept h _).ret fun _ h => h

/-! ## Tasks -/

theorem reap_kept (hQ : ClosesKeep D Q) (h : Keeps Q s) (k : Nat) : Kept Q (s.reap D k) := by
  unfold reap
  refine Kept.map ?_ fun _ h => h.setTask k _
  split
  · exact eachFd_kept (fun i _ h => dropSlot_kept hQ h k i) h
  · exact h.kept

theorem findFreeSlot_kept (hQ : ClosesKeep D Q) (h : Keeps Q s) (active : Nat → Bool) :
    Kept Q ((s.findFreeSlot D active).map Prod.fst) := by
  unfold findFreeSlot
  split
  · exact (h.setTask _ _).kept
  split
  · exact h.kept
  · exact (reap_kept hQ h _).ret fun _ h => h.setTask _ _

theorem newSlot_kept (hQ : ClosesKeep D Q) (h : Keeps Q s) (active : Nat → Bool) (stack : Bool) :
    Kept Q ((s.newSlot D active stack).map Prod.fst) := by
  unfold newSlot
  split
  · exact h.kept
  rw [Option.map_map, Option.map_eq_bind]
  refine kept_bind (findFreeSlot_kept hQ h active) fun s o h => ?_
  cases o with
  | none => exact h.kept
  | some k =>
    cases stack with
    | true => exact h.kept
    | false => exact (h.setTask k _).kept

theorem refAll_kept (h : Keeps Q s) (k : Nat) : Kept Q (s.refAll k) := by
  refine eachFd_kept (fun i s h => ?_) h
  split
  · exact h.kept
  · exact refNode_kept h _

theorem copyTable_kept (h : Keeps Q s) (cur k : Nat) : Kept Q (s.copyTable cur k) := refAll_kept (h.start k _) k

theorem taskCreate_kept (hQ : ClosesKeep D Q) (h : Keeps Q s) (active : Nat → Bool) (stack : Bool) :
    Kept Q ((s.taskCreate D active stack).map Prod.fst) := by
  unfold taskCreate
  rw [Option.map_map, Option.map_eq_bind]
  refine kept_bind (newSlot_kept hQ h active stack) fun s o h => ?_
  cases o with
  | none => exact h.kept
  | some k => exact (h.start k _).kept

theorem taskFork_kept (hQ : ClosesKeep D Q) (h : Keeps Q s) (active : Nat → Bool) (stack : Bool) :
    Kept Q ((s.taskFork D cur active stack).map Prod.fst) := by
  unfold taskFork
  rw [Option.map_bind]
  refine kept_bind (newSlot_kept hQ h active stack) fun s o h => ?_
  cases o with
  | none => exact h.kept
  | some k => exact (copyTable_kept h cur k).ret fun _ h => h

theorem taskClone_kept (hQ : ClosesKeep D Q) (h : Keeps Q s) (flags : UInt64) (active : Nat → Bool) (stack : Bool) :
    Kept Q ((s.taskClone D cur flags active stack).map Prod.fst) := by
  unfold taskClone
  rw [Option.map_bind]
  refine kept_bind (newSlot_kept hQ h active stack) fun s o h => ?_
  cases o with
  | none => exact h.kept
  | some k =>
    show Kept Q (Option.map Prod.fst (if _ then _ else _))
    split
    · exact (h.start k _).kept
    · exact (copyTable_kept h cur k).ret fun _ h => h

theorem unshareFd_kept (h : Keeps Q s) (cur i : Nat) : Kept Q (unshareFd cur i s) := by
  unfold unshareFd
  dsimp only
  split
  · exact (h.setSlot cur i _).kept
  split
  · exact (h.setSlot cur i _).kept
  · exact refNode_kept (h.setSlot cur i _) _

theorem closeOnExec_kept (hQ : ClosesKeep D Q) (h : Keeps Q s) (cur i : Nat) : Kept Q (closeOnExec D cur i s) := by
  unfold closeOnExec
  split
  · exact dropSlot_kept hQ h cur i
  · exact h.kept

theorem taskExec_kept (hQ : ClosesKeep D Q) (h : Keeps Q s) (loaded : Bool) (ret : Int) :
    Kept Q ((s.taskExec D cur loaded ret).map Prod.fst) := by
  unfold taskExec
  split
  · exact h.kept
  split
  · exact (eachFd_kept (fun i _ h => unshareFd_kept h cur i) h).ret fun _ h => h.setTask cur _
  · exact (eachFd_kept (fun i _ h => closeOnExec_kept hQ h cur i) h).ret fun _ h => h

/-! ## Calls -/

theorem run_kept (hQ : ClosesKeep D Q) (h : Keeps Q s) {call : FileCall} (hopens : opens call = false) :
    Kept Q (s.run D cur call) := by
  cases call with
  | openat | memfdCreate | pipe2 | newfstatat | faccessat | chmod | getdents64 => cases hopens
  | close fd => exact sysClose_kept hQ h fd
  | dup old => exact sysDup_kept hQ h old
  | dup2 old new => exact sysDup2_kept hQ h old new
  | dup3 old new flags => exact sysDup3_kept hQ h old new flags
  | fcntl fd cmd arg => exact sysFcntl_kept h fd cmd arg
  | mmap early fd ret => exact sysMmap_kept h early fd ret
  | create active stack => exact taskCreate_kept hQ h active stack
  | fork active stack => exact taskFork_kept hQ h active stack
  | clone flags active stack => exact taskClone_kept hQ h flags active stack
  | exec loaded ret => exact taskExec_kept hQ h loaded ret
  | exit => exact Keeps.kept (h.of_nodes rfl rfl rfl)
  | wait zombie =>
    rw [run]
    split
    · exact reap_kept hQ h zombie
    · exact h.kept

end Files

end EterOS.Syscall
