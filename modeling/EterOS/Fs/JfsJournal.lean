import EterOS.Fs.Jfs
import EterOS.Lib.Run
/-!
# JfsJournal — the journal of JFS, write by write

`jfs_journal_write` (`kernel/fs/jfs.c`) makes five writes to the device, and a crash may come between any two of them. 
There is one record in the journal, at its start; a later transaction writes over it.  Transactions are numbered from 1 at
every boot. A block goes to the sector of the partition that `block * 512` has in 32 bits, if there is one.
-/
namespace EterOS.Fs

open List
open Function (update update_self update_of_ne)
open Buffer (get32)

def sectorOf (block : UInt32) : UInt32 := block * 512 / 512

def journalWrites (start txId target : UInt32) (data : Buffer) : List (UInt32 × Buffer) :=
  [(start, journalHeader txId 1 0), (start + 1, journalHeader txId 2 target), (start + 2, data),
    (start + 3, journalHeader txId 3 0), (target, data)]

structure Journaled where
  disk : UInt32 → Buffer
  sectors : Nat
  /-- `sb->journal_start`. -/
  journalStart : UInt32
  /-- `current_tx_id`. -/
  currentTxId : UInt32

def deviceWrite (sectors : Nat) (disk : UInt32 → Buffer) (w : UInt32 × Buffer) : UInt32 → Buffer :=
  if (sectorOf w.1).toNat < sectors then update disk (sectorOf w.1) w.2 else disk

/-- The device when `k` writes of a transaction are done. -/
def Journaled.after (s : Journaled) (target : UInt32) (data : Buffer) (k : Nat) : UInt32 → Buffer :=
  ((journalWrites s.journalStart s.currentTxId target data).take k).foldl (deviceWrite s.sectors) s.disk

structure Header (b : Buffer) (txId type : UInt32) : Prop where
  txId : b.get32 0 = txId
  type : b.get32 4 = type

/-- The journal holds a committed record: begin, data and commit headers with one number, the target's block and the data. -/
structure Complete (disk : UInt32 → Buffer) (start txId target : UInt32) (data : Buffer) : Prop where
  begins : Header (disk (sectorOf start)) txId 1
  tells : Header (disk (sectorOf (start + 1))) txId 2
  target : (disk (sectorOf (start + 1))).get32 8 = target
  data : disk (sectorOf (start + 2)) = data
  commits : Header (disk (sectorOf (start + 3))) txId 3

/-- What a crash behind `k` writes of a transaction may not break: the target has its old content, or the journal has a
committed record of the new one; and once the transaction has begun, no other record passes for a committed one. -/
structure Safe (s : Journaled) (target : UInt32) (data : Buffer) (k : Nat) : Prop where
  kept : s.after target data k (sectorOf target) = s.disk (sectorOf target) ∨
    Complete (s.after target data k) s.journalStart s.currentTxId target data
  own : 0 < k → ∀ txId target' data', Complete (s.after target data k) s.journalStart txId target' data' →
    4 ≤ k ∧ txId = s.currentTxId ∧ target' = target ∧ data' = data

/-- What happens to the device: a transaction, one that a crash ends, a boot, and any other write of a block.  A boot reads
where the journal is. -/
inductive JournalEvent where
  | write (target : UInt32) (data : Buffer)
  | crash (target : UInt32) (data : Buffer) (k : Nat) (journalStart : UInt32)
  | boot (journalStart : UInt32)
  | other (block : UInt32) (data : Buffer)

def Journaled.commit (s : Journaled) (target : UInt32) (data : Buffer) : Journaled :=
  { s with disk := s.after target data 5, currentTxId := s.currentTxId + 1 }

def Journaled.step (s : Journaled) : JournalEvent → Journaled
  | .write target data => s.commit target data
  | .crash target data k journalStart => ⟨s.after target data k, s.sectors, journalStart, 1⟩
  | .boot journalStart => ⟨s.disk, s.sectors, journalStart, 1⟩
  | .other block data => { s with disk := deviceWrite s.sectors s.disk (block, data) }

/-- Wherever a crash comes in an event, or the event is one, nothing is broken. -/
def CrashSafe (s : Journaled) : JournalEvent → Prop
  | .write target data => ∀ k, Safe s target data k
  | .crash target data k _ => Safe s target data k
  | .boot _ => True
  | .other _ _ => True

structure Apart (s : Journaled) (target : UInt32) : Prop where
  room : ∀ i ∈ [0, 1, 2, 3], (sectorOf (s.journalStart + i)).toNat < s.sectors
  target : ∀ i ∈ [0, 1, 2, 3], sectorOf target ≠ sectorOf (s.journalStart + i)

/-- The commit header that is there has the number of the transaction to come. -/
def Stale (s : Journaled) : Prop := Header (s.disk (sectorOf (s.journalStart + 3))) s.currentTxId 3

def Fits (s : Journaled) : JournalEvent → Prop
  | .write target _ | .crash target _ _ _ => Apart s target ∧ ¬ Stale s
  | .boot _ | .other _ _ => True

variable {s : Journaled} {target txId type : UInt32} {data : Buffer} {k : Nat}

/-! ## Sectors -/

theorem toNat_sectorOf (block : UInt32) : (sectorOf block).toNat = block.toNat % 2 ^ 23 := by
  unfold sectorOf
  rw [UInt32.toNat_div, UInt32.toNat_mul]
  change block.toNat * 512 % 2 ^ 32 / 512 = _
  omega

theorem sectorOf_ne {i j : UInt32} (hi : i.toNat < 4) (hj : j.toNat < 4) (hij : i ≠ j) (start : UInt32) :
    sectorOf (start + i) ≠ sectorOf (start + j) := by
  intro hc
  have hnat := congrArg UInt32.toNat hc
  rw [toNat_sectorOf, toNat_sectorOf, UInt32.toNat_add, UInt32.toNat_add] at hnat
  exact hij (UInt32.toNat_inj.1 (by omega))

theorem header_journalHeader (txId type target : UInt32) : Header (journalHeader txId type target) txId type :=
  ⟨Buffer.get32_words _ 0, Buffer.get32_words _ 1⟩

theorem target_journalHeader (txId type target : UInt32) : (journalHeader txId type target).get32 8 = target :=
  Buffer.get32_words _ 2

theorem Header.unique {b : Buffer} {txId' type' : UInt32} (h : Header b txId type) (h' : Header b txId' type') :
    txId = txId' ∧ type = type' := ⟨h.txId.symm.trans h'.txId, h.type.symm.trans h'.type⟩

/-! ## The writes of a transaction -/

theorem deviceWrite_self {sectors : Nat} {disk : UInt32 → Buffer} {block : UInt32} (h : (sectorOf block).toNat < sectors) :
    deviceWrite sectors disk (block, data) (sectorOf block) = data := by
  unfold deviceWrite
  rw [if_pos h, update_self]

theorem deviceWrite_ne {sectors : Nat} {disk : UInt32 → Buffer} {block q : UInt32} (h : q ≠ sectorOf block) :
    deviceWrite sectors disk (block, data) q = disk q := by
  unfold deviceWrite
  split
  · exact update_of_ne h _ _
  · rfl

theorem foldl_deviceWrite_ne {sectors : Nat} {q : UInt32} :
    ∀ (ws : List (UInt32 × Buffer)) (disk : UInt32 → Buffer), (∀ w ∈ ws, q ≠ sectorOf w.1) →
      ws.foldl (deviceWrite sectors) disk q = disk q
  | [], _, _ => rfl
  | w :: ws, disk, h => by
    rw [foldl_cons, foldl_deviceWrite_ne ws _ fun w' hw => h w' (mem_cons_of_mem _ hw), deviceWrite_ne (h w mem_cons_self)]

theorem after_target (h : Apart s target) (hk : k ≤ 4) :
    s.after target data k (sectorOf target) = s.disk (sectorOf target) := by
  refine foldl_deviceWrite_ne _ _ fun w hw => ?_
  have hmem : w ∈ (journalWrites s.journalStart s.currentTxId target data).take 4 := (take_subset_take_left _ hk) hw
  have hzero := h.target 0 (by decide)
  rw [UInt32.add_zero] at hzero
  simp only [journalWrites, take_succ_cons, take_zero, mem_cons, not_mem_nil, or_false] at hmem
  rcases hmem with rfl | rfl | rfl | rfl
  · exact hzero
  · exact h.target 1 (by decide)
  · exact h.target 2 (by decide)
  · exact h.target 3 (by decide)

theorem foldl_take_deviceWrite {sectors : Nat} {w : UInt32 × Buffer} (hroom : (sectorOf w.1).toNat < sectors) :
    ∀ (ws : List (UInt32 × Buffer)) (disk : UInt32 → Buffer) (i k : Nat),
      ws.Pairwise (fun a b => sectorOf a.1 ≠ sectorOf b.1) → ws[i]? = some w →
      (ws.take k).foldl (deviceWrite sectors) disk (sectorOf w.1) = if i < k then w.2 else disk (sectorOf w.1)
  | [], _, _, _, _, hi => by cases hi
  | a :: ws, disk, i, 0, _, _ => rfl
  | a :: ws, disk, 0, k + 1, hne, hi => by
    obtain rfl := Option.some.inj hi
    rw [take_succ_cons, foldl_cons, if_pos (Nat.succ_pos k),
      foldl_deviceWrite_ne _ _ fun b hb => (pairwise_cons.1 hne).1 b (mem_of_mem_take hb)]
    exact deviceWrite_self hroom
  | a :: ws, disk, i + 1, k + 1, hne, hi => by
    have hmem : w ∈ ws := mem_of_getElem? hi
    rw [take_succ_cons, foldl_cons, foldl_take_deviceWrite hroom ws _ i k (pairwise_cons.1 hne).2 hi,
      deviceWrite_ne ((pairwise_cons.1 hne).1 w hmem).symm]
    simp

theorem pairwise_journalWrites (h : Apart s target) :
    (journalWrites s.journalStart txId target data).Pairwise fun a b => sectorOf a.1 ≠ sectorOf b.1 := by
  have hzero : sectorOf s.journalStart = sectorOf (s.journalStart + 0) := by rw [UInt32.add_zero]
  have hfour : ∀ {i j : UInt32}, i.toNat < 4 → j.toNat < 4 → i ≠ j →
      sectorOf (s.journalStart + i) ≠ sectorOf (s.journalStart + j) := fun hi hj hij => sectorOf_ne hi hj hij s.journalStart
  unfold journalWrites
  simp only [pairwise_cons, mem_cons, not_mem_nil, or_false, forall_eq_or_imp, forall_eq, false_imp_iff,
    implies_true, List.Pairwise.nil, and_true]
  rw [hzero]
  refine ⟨⟨?_, ?_, ?_, ?_⟩, ⟨?_, ?_, ?_⟩, ⟨?_, ?_⟩, ?_⟩
  · exact hfour (by decide) (by decide) (by decide)
  · exact hfour (by decide) (by decide) (by decide)
  · exact hfour (by decide) (by decide) (by decide)
  · exact (h.target 0 (by decide)).symm
  · exact hfour (by decide) (by decide) (by decide)
  · exact hfour (by decide) (by decide) (by decide)
  · exact (h.target 1 (by decide)).symm
  · exact hfour (by decide) (by decide) (by decide)
  · exact (h.target 2 (by decide)).symm
  · exact (h.target 3 (by decide)).symm

theorem after_record (h : Apart s target) (data : Buffer) (k : Nat) : s.after target data k (sectorOf s.journalStart) =
        (if 0 < k then journalHeader s.currentTxId 1 0 else s.disk (sectorOf s.journalStart)) ∧
      s.after target data k (sectorOf (s.journalStart + 1)) =
        (if 1 < k then journalHeader s.currentTxId 2 target else s.disk (sectorOf (s.journalStart + 1))) ∧
      s.after target data k (sectorOf (s.journalStart + 2)) =
      (if 2 < k then data else s.disk (sectorOf (s.journalStart + 2))) ∧
      s.after target data k (sectorOf (s.journalStart + 3)) =
        (if 3 < k then journalHeader s.currentTxId 3 0 else s.disk (sectorOf (s.journalStart + 3))) := by
  have hne : (journalWrites s.journalStart s.currentTxId target data).Pairwise fun a b => sectorOf a.1 ≠ sectorOf b.1 :=
    pairwise_journalWrites h
  have hroom := h.room 0 (by decide)
  rw [UInt32.add_zero] at hroom
  exact ⟨foldl_take_deviceWrite (w := (s.journalStart, _)) hroom _ s.disk 0 k hne rfl,
    foldl_take_deviceWrite (w := (s.journalStart + 1, _)) (h.room 1 (by decide)) _ s.disk 1 k hne rfl,
    foldl_take_deviceWrite (w := (s.journalStart + 2, _)) (h.room 2 (by decide)) _ s.disk 2 k hne rfl,
    foldl_take_deviceWrite (w := (s.journalStart + 3, _)) (h.room 3 (by decide)) _ s.disk 3 k hne rfl⟩

/-! ## Crashes -/

/-- **A transaction is safe wherever it is cut off**, where the commit header that is there is not its own. -/
theorem safe_of_not_stale (h : Apart s target) (hstale : ¬ Stale s) (data : Buffer) (k : Nat) : Safe s target data k := by
  obtain ⟨hbegin, htell, hdata, hcommit⟩ := after_record h data k
  constructor
  · by_cases hk : k ≤ 4
    · exact Or.inl (after_target h hk)
    · rw [if_pos (by omega)] at hbegin htell hdata hcommit
      refine Or.inr ⟨?_, ?_, ?_, hdata, ?_⟩
      · rw [hbegin]
        exact header_journalHeader _ _ _
      · rw [htell]
        exact header_journalHeader _ _ _
      · rw [htell]
        exact target_journalHeader _ _ _
      · rw [hcommit]
        exact header_journalHeader _ _ _
  · intro hk txId target' data' hc
    rw [if_pos hk] at hbegin
    have hid : txId = s.currentTxId := by
      have := hc.begins
      rw [hbegin] at this
      exact (this.unique (header_journalHeader _ _ _)).1
    by_cases hfour : 4 ≤ k
    · rw [if_pos (by omega)] at htell hdata
      refine ⟨hfour, hid, ?_, ?_⟩
      · rw [← hc.target, htell]
        exact target_journalHeader _ _ _
      · rw [← hc.data, hdata]
    · rw [if_neg (by omega)] at hcommit
      have := hc.commits
      rw [hcommit, hid] at this
      exact absurd this hstale

/-- Its own number on an older commit header makes a transaction look committed before it is. -/
theorem not_safe_of_stale (h : Apart s target) (hstale : Stale s) (data : Buffer) : ¬ Safe s target data 3 := by
  intro hsafe
  obtain ⟨hbegin, htell, hdata, hcommit⟩ := after_record h data 3
  rw [if_pos (by decide)] at hbegin htell hdata
  rw [if_neg (by decide)] at hcommit
  have hlooks : Complete (s.after target data 3) s.journalStart s.currentTxId target data := by
    refine ⟨?_, ?_, ?_, hdata, ?_⟩
    · rw [hbegin]
      exact header_journalHeader _ _ _
    · rw [htell]
      exact header_journalHeader _ _ _
    · rw [htell]
      exact target_journalHeader _ _ _
    · rw [hcommit]
      exact hstale
  exact absurd (hsafe.own (by decide) _ _ _ hlooks).1 (by decide)

theorem not_stale_commit (h : Apart s target) (data : Buffer) : ¬ Stale (s.commit target data) := by
  intro hstale
  have hcommit := (after_record h data 5).2.2.2
  rw [if_pos (by decide)] at hcommit
  have hheader : Header (s.after target data 5 (sectorOf (s.journalStart + 3))) (s.currentTxId + 1) 3 := hstale
  rw [hcommit] at hheader
  have hid := (hheader.unique (header_journalHeader _ _ _)).1
  have hnat := congrArg UInt32.toNat hid
  have hone : (1 : UInt32).toNat = 1 := rfl
  rw [UInt32.toNat_add, hone] at hnat
  have := s.currentTxId.toNat_lt
  omega

/-- **The journal in runs**: no crash breaks anything in a run whose transactions find room and the commit header of another
one. A transaction that finds room is safe just when the header is another's, and so it is behind a whole one. -/
theorem journal_crash_safe (s : Journaled) (es : List JournalEvent) :
    (Run.Guarded Journaled.step Fits s es → Run.Guarded Journaled.step CrashSafe s es) ∧
      ∀ (t : Journaled) (target : UInt32), Apart t target →
        (∀ data, (∀ k, Safe t target data k) ↔ ¬ Stale t) ∧ ∀ data, ¬ Stale (t.commit target data) := by
  refine ⟨Run.guarded_imp (P := fun _ => True) (fun s e _ hfits => ⟨trivial, ?_⟩) es s trivial,
    fun t target hapart => ⟨fun data => ⟨fun hsafe hstale => ?_, fun hstale => ?_⟩, not_stale_commit hapart⟩⟩
  · cases e with
    | write target data => exact safe_of_not_stale hfits.1 hfits.2 data
    | crash target data k journalStart => exact safe_of_not_stale hfits.1 hfits.2 data k
    | boot journalStart => trivial
    | other block data => trivial
  · exact not_safe_of_stale hapart hstale data (hsafe 3)
  · exact safe_of_not_stale hapart hstale data

def blankJournal : Journaled := ⟨fun _ _ => 0, 200, 1, 1⟩

theorem apart_blank {t : UInt32} (ht : t ∈ [(100 : UInt32), 101]) (disk : UInt32 → Buffer) (txId : UInt32) :
    Apart ⟨disk, 200, 1, txId⟩ t := by
  have hroom : ∀ i ∈ [(0 : UInt32), 1, 2, 3], (sectorOf (1 + i)).toNat < 200 := by
    simp only [forall_mem_cons, not_mem_nil, false_imp_iff, implies_true]
    decide
  have htargets : ∀ t ∈ [(100 : UInt32), 101], ∀ i ∈ [(0 : UInt32), 1, 2, 3], sectorOf t ≠ sectorOf (1 + i) := by
    simp only [forall_mem_cons, not_mem_nil, false_imp_iff, implies_true]
    decide
  exact ⟨hroom, htargets t ht⟩

/-- Two transactions in one boot, the second of which a crash ends in the middle. -/
theorem journal_crash_safe_within :
    Run.Guarded Journaled.step CrashSafe blankJournal [.write 100 fun _ => 5, .crash 101 (fun _ => 6) 3 1] := by
  have hfirst : Apart blankJournal 100 := apart_blank (by decide) _ _
  have hblank : ¬ Stale blankJournal := fun h => absurd h.txId (by decide)
  exact (journal_crash_safe blankJournal _).1
    ⟨⟨hfirst, hblank⟩, ⟨apart_blank (by decide) _ _, not_stale_commit hfirst _⟩, trivial⟩

def bootBetween : List JournalEvent := [.write 100 fun _ => 0, .boot 1, .crash 101 (fun _ => 1) 3 1]

/-- The commit header of the boot before passes for its own. -/
theorem first_transaction_looks_committed : ¬ Run.Guarded Journaled.step CrashSafe blankJournal bootBetween := by
  intro hsafe
  refine not_safe_of_stale (apart_blank (t := 101) (by decide) _ _) ?_ _ hsafe.2.2.1
  have hcommit := (after_record (apart_blank (t := 100) (by decide) (fun _ _ => 0) 1) (fun _ => 0) 5).2.2.2
  rw [if_pos (by decide)] at hcommit
  change Header (Journaled.after ⟨fun _ _ => 0, 200, 1, 1⟩ 100 (fun _ => 0) 5 (sectorOf (1 + 3))) 1 3
  rw [hcommit]
  exact header_journalHeader _ _ _

end EterOS.Fs
