import EterOS.Lib.Uses
import EterOS.Syscall.Descriptors
import Mathlib.Order.Interval.Finset.Nat
/-!
# DescriptorRefs — the references of a node are its descriptors

A node has as many references as slots hold it: `Balanced`, up to those a loop still owes.  Only the tables of tasks
that own theirs hold anything (`Tables`), so these are the slots of live tables, and the last one to go frees the node.
What else should hold of filesystems and nodes is a parameter `Q`, which a close must keep.
-/
namespace EterOS.Syscall

open Finset
open Fs (CStr)
open Function (update update_self update_of_ne)

namespace Files

variable {σ κ : Type*} {D : Driver σ κ} {s s' : Files σ κ} {k i n : Nat}

def rows (s : Files σ κ) (k i : Nat) : Option Nat := (s.slot k i).node

@[irreducible] def heldIn (rows : Nat → Nat → Option Nat) (n : Nat) : Nat :=
  usesIn (Finset.range maxTasks) (Finset.range maxFd) rows n

def held (s : Files σ κ) (n : Nat) : Nat := heldIn s.rows n

def kinds (s : Files σ κ) (n : Nat) : Option κ := (s.nodes n).map OpenNode.kind

/-- Each node has a reference for every slot, but for those still owed, and is freed once. -/
structure Balanced (s : Files σ κ) (owed : Nat → Nat) : Prop where
  counted : ∀ n node, s.nodes n = some node → node.refCount.toNat + owed n = s.held n
  alive : ∀ n, 0 < s.held n → (s.nodes n).isSome
  needed : ∀ n node, s.nodes n = some node → 0 < node.refCount.toNat
  fresh : ∀ n, s.nextNode ≤ n → s.nodes n = none
  once : s.freed.Nodup
  gone : ∀ n, n ∈ s.freed ↔ n < s.nextNode ∧ s.nodes n = none

structure Within (k : Nat) (s s' : Files σ κ) : Prop where
  other : ∀ j, j ≠ k → s'.tasks j = s.tasks j
  own : { s'.tasks k with fdTableInternal := (s.tasks k).fdTableInternal } = s.tasks k

structure Tables (s : Files σ κ) : Prop where
  own : ∀ j < maxTasks, (s.tasks j).used = true → (s.tasks j).fdTable < maxTasks ∧
    (s.tasks (s.tasks j).fdTable).used = true ∧ (s.tasks (s.tasks j).fdTable).fdTable = (s.tasks j).fdTable
  idle : ∀ k < maxTasks, (∀ j < maxTasks, (s.tasks j).used = true → (s.tasks j).fdTable ≠ k) →
    ∀ i < maxFd, s.rows k i = none

/-! ## Tables -/

theorem Within.refl (k : Nat) (s : Files σ κ) : Within k s s := ⟨fun _ _ => rfl, rfl⟩

theorem Within.trans {s1 s2 : Files σ κ} (h : Within k s s1) (h' : Within k s1 s2) : Within k s s2 := by
  refine ⟨fun j hj => (h'.other j hj).trans (h.other j hj), ?_⟩
  rw [← h.own, ← h'.own]

theorem Within.used (h : Within k s s') (j : Nat) : (s'.tasks j).used = (s.tasks j).used := by
  by_cases hj : j = k
  · subst hj
    rw [← h.own]
  · rw [h.other j hj]

theorem Within.fdTable (h : Within k s s') (j : Nat) : (s'.tasks j).fdTable = (s.tasks j).fdTable := by
  by_cases hj : j = k
  · subst hj
    rw [← h.own]
  · rw [h.other j hj]

variable {j : Nat}

theorem Within.rows (h : Within k s s') (hj : j ≠ k) : s'.rows j = s.rows j := by
  funext i
  unfold Files.rows slot
  rw [h.other j hj]

theorem setTask_self (s : Files σ κ) (k : Nat) (t : FdTask) : (s.setTask k t).tasks k = t := update_self ..

theorem setTask_other (s : Files σ κ) (hj : j ≠ k) (t : FdTask) : (s.setTask k t).tasks j = s.tasks j := update_of_ne hj ..

theorem within_setSlot (s : Files σ κ) (k i : Nat) (d : FileDescriptor) : Within k s (s.setSlot k i d) := by
  refine ⟨fun j hj => setTask_other s hj _, ?_⟩
  unfold setSlot
  rw [setTask_self]

theorem Tables.within (h : Tables s) (hw : Within k s s')
    (hk : (∃ j < maxTasks, (s.tasks j).used = true ∧ (s.tasks j).fdTable = k) ∨ ∀ i < maxFd, s'.rows k i = none) :
    Tables s' := by
  refine ⟨fun j hj hu => ?_, fun k' hk' hno i hi => ?_⟩
  · rw [hw.used] at hu
    rw [hw.fdTable, hw.used, hw.fdTable]
    exact h.own j hj hu
  · by_cases he : k' = k
    · subst he
      rcases hk with ⟨j, hj, hu, ht⟩ | hnone
      · rw [← hw.used j] at hu
        rw [← hw.fdTable j] at ht
        exact absurd ht (hno j hj hu)
      · exact hnone i hi
    · rw [hw.rows he]
      refine h.idle k' hk' (fun j hj hu => ?_) i hi
      rw [← hw.fdTable j]
      exact hno j hj ((hw.used j).trans hu)

/-! ## Rows -/

theorem rows_setSlot_self (s : Files σ κ) (k i : Nat) (d : FileDescriptor) :
    (s.setSlot k i d).rows k = update (s.rows k) i d.node := by
  funext j
  unfold rows slot setSlot
  rw [setTask_self]
  by_cases hj : j = i
  · subst hj
    simp
  · simp [hj]

theorem rows_setSlot_other (s : Files σ κ) (hj : j ≠ k) (i : Nat) (d : FileDescriptor) :
    (s.setSlot k i d).rows j = s.rows j := (within_setSlot s k i d).rows hj

@[irreducible] def rowUses (row : Nat → Option Nat) (n : Nat) : Nat := uses (Finset.range maxFd) row n

theorem held_off (hk : k < maxTasks) (h : ∀ j, j ≠ k → s'.rows j = s.rows j) (n : Nat) :
    s'.held n + rowUses (s.rows k) n = s.held n + rowUses (s'.rows k) n := by
  unfold held heldIn rowUses
  apply usesIn_off (mem_range.mpr hk)
  intro j _ hj i _
  exact congrFun (h j hj) i

theorem held_congr (h : ∀ k < maxTasks, ∀ i < maxFd, s'.rows k i = s.rows k i) (n : Nat) : s'.held n = s.held n := by
  unfold held heldIn
  apply usesIn_congr
  intro k hk i hi
  exact h k (mem_range.mp hk) i (mem_range.mp hi)

theorem held_pos (hk : k < maxTasks) (hi : i < maxFd) (h : s.rows k i = some n) : 0 < s.held n := by
  unfold held heldIn
  apply usesIn_pos.mpr
  exact ⟨k, mem_range.mpr hk, i, mem_range.mpr hi, h⟩

theorem held_le (s : Files σ κ) (n : Nat) : s.held n ≤ 16384 := by
  unfold held heldIn
  have h := usesIn_le (Finset.range maxTasks) (Finset.range maxFd) s.rows n
  rw [card_range, card_range] at h
  exact h

variable {d : FileDescriptor}

theorem held_fill (hk : k < maxTasks) (hi : i < maxFd) (hnone : s.rows k i = none) (hd : d.node = some n)
    (m : Nat) : (s.setSlot k i d).held m = s.held m + if n = m then 1 else 0 := by
  have hoff := held_off hk (fun j hj => rows_setSlot_other s hj i d) m
  have hrow : rowUses ((s.setSlot k i d).rows k) m = rowUses (s.rows k) m + if n = m then 1 else 0 := by
    rw [rows_setSlot_self, hd]
    unfold rowUses
    exact uses_fill (mem_range.mpr hi) hnone n m
  omega

theorem held_clear (hk : k < maxTasks) (hi : i < maxFd) (m : Nat) :
    (s.clearSlot k i).held m + (if s.rows k i = some m then 1 else 0) = s.held m := by
  have hoff := held_off hk (fun j hj => rows_setSlot_other s hj i { s.slot k i with node := none }) m
  have hrow : rowUses ((s.clearSlot k i).rows k) m + (if s.rows k i = some m then 1 else 0) = rowUses (s.rows k) m := by
    unfold clearSlot
    rw [rows_setSlot_self]
    unfold rowUses
    exact uses_clear (mem_range.mpr hi) m
  unfold clearSlot at hrow ⊢
  omega

theorem held_same (hd : d.node = s.rows k i) (m : Nat) : (s.setSlot k i d).held m = s.held m := by
  apply held_congr
  intro j _ i' _
  by_cases hj : j = k
  · subst hj
    rw [rows_setSlot_self, hd, Function.update_eq_self]
  · rw [rows_setSlot_other s hj]

/-! ## References -/

variable {r : UInt32}

theorem pred_toNat (h : 0 < r.toNat) : (r - 1).toNat = r.toNat - 1 := by
  rw [UInt32.toNat_sub_of_le]
  · rfl
  · exact UInt32.le_iff_toNat_le.mpr h

theorem succ_toNat (h : r.toNat < 2 ^ 32 - 1) : (r + 1).toNat = r.toNat + 1 := by
  rw [UInt32.toNat_add, UInt32.toNat_one]
  omega

abbrev Settled (s : Files σ κ) : Prop := Balanced s fun _ => 0

variable {owed : Nat → Nat}

theorem Balanced.bound (h : Balanced s owed) {node : OpenNode κ} (hn : s.nodes n = some node) :
    node.refCount.toNat ≤ 16384 := by
  have := h.counted n node hn
  have := held_le s n
  omega

theorem Balanced.setRefs {owed' : Nat → Nat} (h : Balanced s owed) {node : OpenNode κ}
    (hnode : s.nodes n = some node) (hnodes : s'.nodes = update s.nodes n (some ⟨r, node.kind⟩))
    (hnext : s'.nextNode = s.nextNode) (hfreed : s'.freed = s.freed) (hpos : 0 < r.toNat)
    (hn : r.toNat + owed' n = s'.held n) (hoff : ∀ m, m ≠ n → s'.held m = s.held m ∧ owed' m = owed m) :
    Balanced s' owed' ∧ s'.kinds = s.kinds := by
  have hnew : ∀ m node', s'.nodes m = some node' → m = n ∧ node'.refCount = r ∨ m ≠ n ∧ s.nodes m = some node' := by
    intro m node' hm
    rw [hnodes] at hm
    by_cases he : m = n
    · subst he
      rw [update_self, Option.some.injEq] at hm
      exact .inl ⟨rfl, hm ▸ rfl⟩
    · rw [update_of_ne he] at hm
      exact .inr ⟨he, hm⟩
  have hnone : ∀ m, s'.nodes m = none ↔ s.nodes m = none := by
    intro m
    rw [hnodes]
    by_cases he : m = n
    · subst he
      simp [hnode]
    · rw [update_of_ne he]
  refine ⟨⟨?_, ?_, ?_, ?_, hfreed ▸ h.once, ?_⟩, ?_⟩
  · intro m node' hm
    rcases hnew m node' hm with ⟨rfl, hr⟩ | ⟨he, hm⟩
    · rw [hr, hn]
    · rw [(hoff m he).1, (hoff m he).2]
      exact h.counted m node' hm
  · intro m hm
    by_cases he : m = n
    · rw [he, hnodes, update_self]
      rfl
    · rw [(hoff m he).1] at hm
      rw [hnodes, update_of_ne he]
      exact h.alive m hm
  · intro m node' hm
    rcases hnew m node' hm with ⟨-, hr⟩ | ⟨-, hm⟩
    · rwa [hr]
    · exact h.needed m node' hm
  · intro m hm
    rw [hnext] at hm
    exact (hnone m).mpr (h.fresh m hm)
  · intro m
    rw [hfreed, hnext, hnone m]
    exact h.gone m
  · funext m
    unfold kinds
    rw [hnodes]
    by_cases he : m = n
    · rw [he, update_self, hnode]
      rfl
    · rw [update_of_ne he]

theorem Balanced.free (h : Balanced s owed) (hn : (s.nodes n).isSome)
    (hnodes : s'.nodes = update s.nodes n none) (hnext : s'.nextNode = s.nextNode) (hfreed : s'.freed = n :: s.freed)
    (hzero : s'.held n = 0) (hoff : ∀ m, m ≠ n → s'.held m = s.held m) :
    Balanced s' owed ∧ s'.kinds = update s.kinds n none := by
  have hold : ∀ m node, s'.nodes m = some node → m ≠ n ∧ s.nodes m = some node := by
    intro m node hm
    rw [hnodes] at hm
    by_cases he : m = n
    · rw [he, update_self] at hm
      cases hm
    · rw [update_of_ne he] at hm
      exact ⟨he, hm⟩
  have hlt : n < s.nextNode := by
    by_contra hge
    rw [h.fresh n (by omega)] at hn
    cases hn
  refine ⟨⟨?_, ?_, ?_, ?_, ?_, ?_⟩, ?_⟩
  · intro m node hm
    obtain ⟨he, hm⟩ := hold m node hm
    rw [hoff m he]
    exact h.counted m node hm
  · intro m hm
    have he : m ≠ n := by
      rintro rfl
      omega
    rw [hoff m he] at hm
    rw [hnodes, update_of_ne he]
    exact h.alive m hm
  · intro m node hm
    exact h.needed m node (hold m node hm).2
  · intro m hm
    rw [hnext] at hm
    rw [hnodes]
    by_cases he : m = n
    · rw [he, update_self]
    · rw [update_of_ne he]
      exact h.fresh m hm
  · rw [hfreed]
    refine List.nodup_cons.mpr ⟨fun hmem => ?_, h.once⟩
    rw [((h.gone n).mp hmem).2] at hn
    cases hn
  · intro m
    rw [hfreed, hnext, hnodes, List.mem_cons]
    by_cases he : m = n
    · simp [he, hlt]
    · rw [update_of_ne he, or_iff_right he]
      exact h.gone m
  · funext m
    unfold kinds
    rw [hnodes]
    by_cases he : m = n
    · rw [he, update_self, update_self]
      rfl
    · rw [update_of_ne he, update_of_ne he]

theorem refNode_balanced (h : Balanced s owed) (hn : (s.nodes n).isSome) (ho : 0 < owed n) :
    ∃ s', s.refNode n = some s' ∧ Balanced s' (update owed n (owed n - 1)) ∧ s'.tasks = s.tasks ∧ s'.fs = s.fs ∧
      s'.kinds = s.kinds := by
  obtain ⟨node, hnode⟩ := Option.isSome_iff_exists.mp hn
  have hsucc : (node.refCount + 1).toNat = node.refCount.toNat + 1 := by
    have := h.bound hnode
    exact succ_toNat (by omega)
  have hcount := h.counted n node hnode
  let s' : Files σ κ := { s with nodes := update s.nodes n (some { node with refCount := node.refCount + 1 }) }
  have hs' : Balanced s' (update owed n (owed n - 1)) ∧ s'.kinds = s.kinds := by
    refine h.setRefs (r := node.refCount + 1) hnode ?_ ?_ ?_ ?_ ?_ ?_
    · rfl
    · rfl
    · rfl
    · omega
    · rw [update_self, hsucc]
      show _ = s.held n
      omega
    · intro m hm
      exact ⟨rfl, update_of_ne hm ..⟩
  exact ⟨s', by rw [refNode, hnode, Option.map_some], hs'.1, rfl, rfl, hs'.2⟩

def ClosesKeep (D : Driver σ κ) (Q : σ → (Nat → Option κ) → Prop) : Prop :=
  ∀ fs kinds n kind, Q fs kinds → kinds n = some kind → Q (D.closeFs fs kind) (update kinds n none)

variable {Q : σ → (Nat → Option κ) → Prop}

theorem dropSlot_settled (hQ : ClosesKeep D Q) (h : Settled s) (hk : k < maxTasks) (hi : i < maxFd) :
    ∃ s', s.dropSlot D k i = some s' ∧ Settled s' ∧ s'.tasks = (s.clearSlot k i).tasks ∧
    (Q s.fs s.kinds → Q s'.fs s'.kinds) := by
  cases hslot : (s.slot k i).node with
  | none =>
    refine ⟨s, by rw [dropSlot, hslot], h, ?_, id⟩
    funext j
    unfold clearSlot setSlot
    by_cases hj : j = k
    · subst hj
      rw [setTask_self, ← hslot]
      show _ = { s.tasks j with fdTableInternal := update (s.tasks j).fdTableInternal i ((s.tasks j).fdTableInternal i) }
      rw [Function.update_eq_self]
    · rw [setTask_other s hj]
  | some n =>
    obtain ⟨node, hnode⟩ := Option.isSome_iff_exists.mp (h.alive n (held_pos hk hi hslot))
    have hcount : node.refCount.toNat = s.held n := h.counted n node hnode
    have hpos := h.needed n node hnode
    have hheld : ∀ m, (s.clearSlot k i).held m + (if n = m then 1 else 0) = s.held m := by
      intro m
      have hclear := held_clear (s := s) hk hi m
      rw [show s.rows k i = some n from hslot] at hclear
      simpa using hclear
    have hself : (s.clearSlot k i).held n = s.held n - 1 := by
      have := hheld n
      rw [if_pos rfl] at this
      omega
    have hoff : ∀ m, m ≠ n → (s.clearSlot k i).held m = s.held m := by
      intro m hm
      have := hheld m
      rwa [if_neg (Ne.symm hm), Nat.add_zero] at this
    rw [dropSlot, hslot]
    dsimp only
    rw [putNode, hnode, Option.map_some, Option.map_some]
    by_cases hz : node.refCount - 1 = 0
    · -- the last slot
      have hone : node.refCount.toNat = 1 := by
        have := pred_toNat hpos
        rw [hz] at this
        change 0 = _ at this
        omega
      rw [if_pos hz]
      let s1 : Files σ κ := { s with fs := D.closeFs s.fs node.kind, nodes := update s.nodes n none, freed := n :: s.freed }
      have hs1 : Balanced (s1.clearSlot k i) (fun _ => 0) ∧ (s1.clearSlot k i).kinds = update s.kinds n none := by
        refine h.free (n := n) ?_ rfl rfl rfl ?_ hoff
        · rw [hnode]
          rfl
        · show (s.clearSlot k i).held n = 0
          omega
      refine ⟨s1.clearSlot k i, rfl, hs1.1, rfl, fun hq => ?_⟩
      rw [hs1.2]
      apply hQ _ _ n node.kind hq
      rw [kinds, hnode, Option.map_some]
    · have hpred : (node.refCount - 1).toNat = node.refCount.toNat - 1 := pred_toNat hpos
      have hne0 : (node.refCount - 1).toNat ≠ 0 := fun h0 => hz (UInt32.toNat_inj.mp h0)
      rw [if_neg hz]
      generalize node.refCount - 1 = r at hpred hne0
      let s1 : Files σ κ := { s with nodes := update s.nodes n (some { node with refCount := r }) }
      have hs1 : Balanced (s1.clearSlot k i) (fun _ => 0) ∧ (s1.clearSlot k i).kinds = s.kinds := by
        refine h.setRefs (r := r) hnode rfl rfl rfl ?_ ?_ ?_
        · omega
        · show r.toNat + 0 = (s.clearSlot k i).held n
          omega
        · intro m hm
          exact ⟨hoff m hm, rfl⟩
      refine ⟨s1.clearSlot k i, rfl, hs1.1, rfl, fun hq => ?_⟩
      rw [hs1.2]
      exact hq

theorem Balanced.congr (h : Balanced s owed) (hnodes : s'.nodes = s.nodes)
    (hnext : s'.nextNode = s.nextNode) (hfreed : s'.freed = s.freed) (hheld : ∀ m, s'.held m = s.held m) :
    Balanced s' owed := by
  refine ⟨fun m node hm => ?_, fun m hm => ?_, fun m node hm => ?_, fun m hm => ?_, hfreed ▸ h.once, fun m => ?_⟩
  · rw [hheld]
    exact h.counted m node (hnodes ▸ hm)
  · rw [hheld] at hm
    rw [hnodes]
    exact h.alive m hm
  · exact h.needed m node (hnodes ▸ hm)
  · rw [hnext] at hm
    rw [hnodes]
    exact h.fresh m hm
  · rw [hfreed, hnext, hnodes]
    exact h.gone m

theorem Balanced.fill (h : Balanced s owed) (hk : k < maxTasks) (hi : i < maxFd)
    (hnone : s.rows k i = none) (hd : d.node = some n) (hn : (s.nodes n).isSome) :
    Balanced (s.setSlot k i d) (update owed n (owed n + 1)) := by
  have hheld := held_fill hk hi hnone hd
  refine ⟨fun m node hm => ?_, fun m hm => ?_, h.needed, h.fresh, h.once, h.gone⟩
  · have hcount := h.counted m node hm
    rw [hheld m]
    by_cases he : m = n
    · rw [he, update_self, if_pos rfl]
      rw [he] at hcount
      omega
    · rw [update_of_ne he, if_neg (Ne.symm he)]
      exact hcount
  · by_cases he : m = n
    · rw [he]
      exact hn
    · rw [hheld m, if_neg (Ne.symm he)] at hm
      exact h.alive m hm

theorem Balanced.open (h : Settled s) (hk : k < maxTasks) (hi : i < maxFd) (hnone : s.rows k i = none) (kind : κ)
    (hd : d.node = some s.nextNode) :
    Settled ((s.addNode 1 kind).1.setSlot k i d) ∧
      ((s.addNode 1 kind).1.setSlot k i d).kinds = update s.kinds s.nextNode (some kind) := by
  have hfresh : s.nodes s.nextNode = none := h.fresh _ (Nat.le_refl _)
  have hzero : s.held s.nextNode = 0 := by
    by_contra hne
    have hsome := h.alive s.nextNode (Nat.pos_of_ne_zero hne)
    rw [hfresh] at hsome
    cases hsome
  have hheld : ∀ m, ((s.addNode 1 kind).1.setSlot k i d).held m = s.held m + if s.nextNode = m then 1 else 0 :=
    held_fill (s := (s.addNode 1 kind).1) hk hi hnone hd
  have hnew : ∀ m node, update s.nodes s.nextNode (some ⟨1, kind⟩) m = some node →
      m = s.nextNode ∧ node.refCount = 1 ∨ m ≠ s.nextNode ∧ s.nodes m = some node := by
    intro m node hm
    by_cases he : m = s.nextNode
    · rw [he, update_self, Option.some.injEq] at hm
      exact .inl ⟨he, hm ▸ rfl⟩
    · rw [update_of_ne he] at hm
      exact .inr ⟨he, hm⟩
  refine ⟨⟨fun m node hm => ?_, fun m hm => ?_, fun m node hm => ?_, fun m hm => ?_, h.once, fun m => ?_⟩, ?_⟩
  · rw [hheld m]
    rcases hnew m node hm with ⟨rfl, hr⟩ | ⟨he, hm⟩
    · rw [hr, if_pos rfl, hzero]
      rfl
    · rw [if_neg (Ne.symm he)]
      exact h.counted m node hm
  · rw [hheld m] at hm
    show (update s.nodes s.nextNode (some ⟨1, kind⟩) m).isSome
    by_cases he : m = s.nextNode
    · rw [he, update_self]
      rfl
    · rw [if_neg (Ne.symm he)] at hm
      rw [update_of_ne he]
      exact h.alive m hm
  · rcases hnew m node hm with ⟨-, hr⟩ | ⟨-, hm⟩
    · rw [hr]
      decide
    · exact h.needed m node hm
  · have hm' : s.nextNode + 1 ≤ m := hm
    show update s.nodes s.nextNode (some ⟨1, kind⟩) m = none
    rw [update_of_ne (by omega)]
    exact h.fresh m (by omega)
  · show m ∈ s.freed ↔ m < s.nextNode + 1 ∧ update s.nodes s.nextNode (some ⟨1, kind⟩) m = none
    by_cases he : m = s.nextNode
    · rw [he, update_self]
      constructor
      · intro hmem
        exact absurd ((h.gone _).mp hmem).1 (Nat.lt_irrefl _)
      · rintro ⟨-, hno⟩
        cases hno
    · rw [update_of_ne he, h.gone m]
      constructor
      · rintro ⟨hlt, hno⟩
        exact ⟨by omega, hno⟩
      · rintro ⟨hlt, hno⟩
        exact ⟨by omega, hno⟩
  · funext m
    show (update s.nodes s.nextNode (some ⟨1, kind⟩) m).map OpenNode.kind = _
    by_cases he : m = s.nextNode
    · rw [he, update_self, update_self]
      rfl
    · rw [update_of_ne he, update_of_ne he]
      rfl

/-! ## Loops -/

theorem eachFd_spec {body : Nat → Files σ κ → Option (Files σ κ)} {P : Nat → Files σ κ → Prop}
    (hstep : ∀ i < maxFd, ∀ s, P i s → ∃ s', body i s = some s' ∧ P (i + 1) s') (h0 : P 0 s) :
    ∃ s', eachFd body s = some s' ∧ P maxFd s' := by
  have hrange : ∀ m ≤ maxFd, ∃ s', (List.range m).foldlM (fun s i => body i s) s = some s' ∧ P m s' := by
    intro m hm
    induction m with
    | zero => exact ⟨s, rfl, h0⟩
    | succ m ih =>
      obtain ⟨s1, hs1, hP⟩ := ih (by omega)
      obtain ⟨s2, hs2, hP'⟩ := hstep m (by omega) s1 hP
      refine ⟨s2, ?_, hP'⟩
      rw [List.range_succ, List.foldlM_append, hs1]
      show (body m s1).bind some = some s2
      rw [hs2]
      rfl
  exact hrange maxFd (Nat.le_refl _)

theorem rows_of_tasks (h : s'.tasks = s.tasks) : s'.rows = s.rows := by
  funext k i
  unfold rows slot
  rw [h]

theorem held_of_tasks (h : s'.tasks = s.tasks) (n : Nat) : s'.held n = s.held n := by
  unfold held
  rw [rows_of_tasks h]

theorem refAll_settled (hk : k < maxTasks) (h : Balanced s (rowUses (s.rows k))) :
    ∃ s', s.refAll k = some s' ∧ Settled s' ∧ s'.tasks = s.tasks ∧ s'.fs = s.fs ∧ s'.kinds = s.kinds := by
  have hIco : ∀ i < maxFd, ∀ n, uses (Finset.Ico i maxFd) (s.rows k) n =
      uses (Finset.Ico (i + 1) maxFd) (s.rows k) n + if s.rows k i = some n then 1 else 0 := by
    intro i hi n
    have hinsert : Finset.Ico i maxFd = insert i (Finset.Ico (i + 1) maxFd) := by
      ext j
      simp only [mem_Ico, mem_insert]
      omega
    rw [hinsert]
    apply uses_insert
    simp
  have hstart : rowUses (s.rows k) = uses (Finset.Ico 0 maxFd) (s.rows k) := by
    funext n
    unfold rowUses
    rw [range_eq_Ico]
  rw [hstart] at h
  let P : Nat → Files σ κ → Prop := fun i s' =>
    Balanced s' (uses (Finset.Ico i maxFd) (s.rows k)) ∧ s'.tasks = s.tasks ∧ s'.fs = s.fs ∧ s'.kinds = s.kinds
  have hstep : ∀ i < maxFd, ∀ s1, P i s1 → ∃ s2, (s1.slot k i).node.elim (some s1) s1.refNode = some s2 ∧ P (i + 1) s2 := by
    rintro i hi s1 ⟨hb, ht, hf, hkinds⟩
    have hrow : (s1.slot k i).node = s.rows k i := congrFun (congrFun (rows_of_tasks ht) k) i
    rw [hrow]
    have howed := hIco i hi
    cases hn : s.rows k i with
    | none =>
      refine ⟨s1, rfl, ?_, ht, hf, hkinds⟩
      have heq : uses (Finset.Ico i maxFd) (s.rows k) = uses (Finset.Ico (i + 1) maxFd) (s.rows k) := by
        funext n
        rw [howed n, hn]
        simp
      rwa [heq] at hb
    | some n =>
      have halive : (s1.nodes n).isSome := by
        apply hb.alive
        rw [held_of_tasks ht]
        exact held_pos hk hi hn
      rw [hn] at howed
      obtain ⟨s2, hs2, hb2, ht2, hf2, hk2⟩ := refNode_balanced hb halive (by rw [howed n]; simp)
      refine ⟨s2, hs2, ?_, ht2.trans ht, hf2.trans hf, hk2.trans hkinds⟩
      have heq : update (uses (Finset.Ico i maxFd) (s.rows k)) n (uses (Finset.Ico i maxFd) (s.rows k) n - 1) =
          uses (Finset.Ico (i + 1) maxFd) (s.rows k) := by
        funext m
        by_cases he : m = n
        · rw [he, update_self, howed n]
          simp
        · rw [update_of_ne he, howed m]
          simp [Ne.symm he]
      rwa [heq] at hb2
  have hbody : s.refAll k = eachFd (fun i s => (s.slot k i).node.elim (some s) s.refNode) s := by
    unfold refAll
    congr 1
    funext i s
    cases (s.slot k i).node <;> rfl
  obtain ⟨s', hs', hb, ht, hf, hkinds⟩ := eachFd_spec (P := P) hstep ⟨h, rfl, rfl, rfl⟩
  refine ⟨s', hbody.trans hs', ?_, ht, hf, hkinds⟩
  have hzero : uses (Finset.Ico maxFd maxFd) (s.rows k) = fun _ => 0 := by
    funext n
    rw [Finset.Ico_self]
    rfl
  rwa [hzero] at hb

end Files

end EterOS.Syscall
