import EterOS.Fs.FatDir
import EterOS.Fs.FatFile
import EterOS.Fs.Vfs
import Mathlib.Data.List.GetD
/-!
# FatNames — names in FAT32 directories

`fat32_get_name` and `fat32_to_dos_name` (`kernel/fs/fat32.c`) go from an entry's eleven bytes to a string and back.  They
are inverse on entries without a blank in front of a character (`Whole`), and a name that is listed is found where they are;
a name that was created is found unless its first byte marks a deleted entry, and 8.3 strings (`ShortName`) share an entry
only where they differ in nothing but case.
-/
namespace EterOS.Fs

open List

/-! ## The functions -/

/-- `fat32_get_name`: the base up to the first blank, and the extension behind a dot. -/
def fat32GetName (entryName : Buffer) : CStr :=
  let base := ((List.range 8).map entryName).takeWhile (· ≠ 32)
  let ext := ((List.range 3).map fun i => entryName (8 + i)).takeWhile (· ≠ 32)
  CStr.ofBytes (base ++ if entryName 8 = 32 then [] else 46 :: ext)

/-- `fat32_readdir_cb` counts the entry, before the end of the directory. -/
def Fat.listedAt (s : Fat) (p : DirPos) : Bool :=
  let e := s.entry p
  e 0 ≠ direntDeleted && Dirent.attr e &&& attrVolumeId = 0 && Dirent.attr e &&& attrLongName = 0

def listedSlots (s : Fat) (dir : UInt32) : List DirPos :=
  ((s.dirSlots dir).takeWhile fun p => s.entry p 0 ≠ direntEnd).filter s.listedAt

/-- `fat32_readdir_fs`: the name and the inode of an entry; `none` behind the last. -/
def fat32Readdir (s : Fat) (dir : UInt32) (index : Nat) : Option (CStr × UInt32) :=
  (listedSlots s dir)[index]?.map fun p => (fat32GetName (s.entry p), Dirent.cluster (s.entry p))

/-! ## What the names are about -/

def SameName (e e' : Buffer) : Prop := ∀ i < 11, e i = e' i

/-- The base and the extension are each characters and then blanks, and the base has no dot. -/
structure Whole (e : Buffer) : Prop where
  base : ∀ i j, i < j → j < 8 → e i = 32 → e j = 32
  ext : ∀ i j, i < j → j < 3 → e (8 + i) = 32 → e (8 + j) = 32
  noDot : ∀ i < 8, e i ≠ 46

/-- A string with at most eight characters to the first dot and, if there is one, one to three behind it, neither part with
a blank at its end. -/
structure ShortName (name : CStr) : Prop where
  baseLen : (name.bytes.takeWhile (· ≠ 46)).length ≤ 8
  base : (name.bytes.takeWhile (· ≠ 46)).getLast? ≠ some 32
  ext : name.bytes.dropWhile (· ≠ 46) = [] ∨ (name.bytes.dropWhile (· ≠ 46)).drop 1 ≠ []
  extLen : ((name.bytes.dropWhile (· ≠ 46)).drop 1).length ≤ 3
  extLast : ((name.bytes.dropWhile (· ≠ 46)).drop 1).getLast? ≠ some 32

def DistinctNames (s : Fat) (dir : UInt32) : Prop :=
  ∀ p ∈ listedSlots s dir, ∀ q ∈ listedSlots s dir, SameName (s.entry p) (s.entry q) → p = q

/-- A listed entry that a string was folded to, and that is whole, is found by the name it is listed under. -/
def ListedFound (s : Fat) (dir : UInt32) : Prop :=
  DistinctNames s dir → ∀ index p, (listedSlots s dir)[index]? = some p →
    (∃ name, SameName (s.entry p) (fat32ToDosName name)) → Whole (s.entry p) →
    ∃ node, fat32Readdir s dir index = some (fat32GetName (s.entry p), node.inode) ∧
      fat32Finddir s dir (fat32GetName (s.entry p)) = some node ∧ node.impl = p.sector ∧ node.uid = p.offset

/-- A string that is accepted, and does not begin with the mark of deleted entries, is found afterwards; the entry begins
with no mark. -/
def CreatedFound (s : Fat) (dir : UInt32) : Prop :=
  ∀ name : CStr, (fat32Create s dir name).2 = .ok () → name.bytes.head? ≠ some direntDeleted →
    let s' := (fat32Create s dir name).1
    ∃ p node, fat32FindDirentInChain s' dir name = some p ∧ fat32Finddir s' dir name = some node ∧
      node.inode = 0 ∧ node.length = 0 ∧ node.flags = fsFile ∧ SameName (s'.entry p) (fat32ToDosName name) ∧
      s'.entry p 0 ≠ direntEnd ∧ s'.entry p 0 ≠ direntDeleted

def FoldsApart : Prop :=
  ∀ a b : CStr, ShortName a → ShortName b → SameName (fat32ToDosName a) (fat32ToDosName b) →
    a.bytes.map dosUpper = b.bytes.map dosUpper

variable {s s' : Fat} {limit k : Nat} {c dir : UInt32} {l : List UInt32} {p q : DirPos} {e : Buffer} {name a b : CStr}
  {w : List UInt8} {f : Nat → UInt8} {n i : Nat}

/-! ## Characters and blanks -/

theorem dosUpper_toNat (x : UInt8) : (dosUpper x).toNat = if 97 ≤ x.toNat ∧ x.toNat ≤ 122 then x.toNat - 32
    else x.toNat := by
  have h97 : (97 : UInt8) ≤ x ↔ 97 ≤ x.toNat := UInt8.le_iff_toNat_le
  have h122 : x ≤ (122 : UInt8) ↔ x.toNat ≤ 122 := UInt8.le_iff_toNat_le
  unfold dosUpper
  simp only [h97, h122]
  split
  · rename_i hlower
    exact UInt8.toNat_sub_of_le x 32 (UInt8.le_iff_toNat_le.2 (Nat.le_trans (by decide : 32 ≤ 97) hlower.1))
  · rfl

theorem dosUpper_eq_iff {x y : UInt8} (hy : y.toNat < 65 ∨ 90 < y.toNat) (hy' : y.toNat < 97 ∨ 122 < y.toNat) :
    dosUpper x = y ↔ x = y := by
  rw [← UInt8.toNat_inj, ← UInt8.toNat_inj, dosUpper_toNat]
  split <;> omega

theorem dosUpper_idem (x : UInt8) : dosUpper (dosUpper x) = dosUpper x := by
  rw [← UInt8.toNat_inj, dosUpper_toNat (dosUpper x), dosUpper_toNat]
  by_cases hlower : 97 ≤ x.toNat ∧ x.toNat ≤ 122
  · rw [if_pos hlower, if_neg (by omega)]
  · rw [if_neg hlower, if_neg hlower]

theorem getLast?_map_dosUpper (h : w.getLast? ≠ some 32) : (w.map dosUpper).getLast? ≠ some 32 := by
  rw [List.getLast?_map]
  intro hlast
  obtain ⟨x, hx, heq⟩ := Option.map_eq_some_iff.1 hlast
  exact h (hx.trans (congrArg some ((dosUpper_eq_iff (by decide) (by decide)).1 heq)))

theorem length_le_of_padded {u : List UInt8} (hw : w.getLast? ≠ some 32) (hlen : w.length ≤ n)
    (h : ∀ i < n, u.getD i 32 = w.getD i 32) : w.length ≤ u.length := by
  by_contra hlt
  have hlast := h (w.length - 1) (by omega)
  rw [getD_eq_default _ _ (by omega), getD_eq_getElem _ _ (by omega)] at hlast
  exact hw (by rw [List.getLast?_eq_getElem?, List.getElem?_eq_getElem (by omega), ← hlast])

/-- Blanks behind a string that does not end in one lose nothing of it. -/
theorem padded_inj {u : List UInt8} (hu : u.getLast? ≠ some 32) (hw : w.getLast? ≠ some 32) (hulen : u.length ≤ n)
    (hwlen : w.length ≤ n)
    (h : ∀ i < n, u.getD i 32 = w.getD i 32) : u = w := by
  have hlen := Nat.le_antisymm (length_le_of_padded hu hulen fun i hi => (h i hi).symm) (length_le_of_padded hw hwlen h)
  refine ext_getElem hlen fun i hi hi' => ?_
  have hi32 := h i (by omega)
  rwa [getD_eq_getElem _ _ hi, getD_eq_getElem _ _ hi'] at hi32

theorem getD_takeWhile (hf : ∀ i j, i < j → j < n → f i = 32 → f j = 32) (hi : i < n) :
    (((List.range n).map f).takeWhile (· ≠ 32)).getD i 32 = f i := by
  have hsplit := takeWhile_append_dropWhile (p := fun x => decide (x ≠ 32)) (l := (List.range n).map f)
  have hhead := List.head?_dropWhile_not (fun x : UInt8 => decide (x ≠ 32)) ((List.range n).map f)
  generalize ((List.range n).map f).takeWhile (fun x => decide (x ≠ 32)) = w at hsplit ⊢
  generalize ((List.range n).map f).dropWhile (fun x => decide (x ≠ 32)) = d at hsplit hhead
  have hlen : w.length + d.length = n := by
    rw [← length_append, hsplit, length_map, length_range]
  have hget : ∀ j (hj : j < n), (w ++ d)[j]? = some (f j) := fun j hj => by
    rw [hsplit, List.getElem?_map, List.getElem?_range hj]
    rfl
  by_cases hlt : i < w.length
  · have hi' := hget i hi
    rw [List.getElem?_append_left hlt, List.getElem?_eq_getElem hlt, Option.some.injEq] at hi'
    rw [getD_eq_getElem w 32 hlt, hi']
  · rw [getD_eq_default _ _ (Nat.le_of_not_lt hlt)]
    cases d with
    | nil =>
      rw [length_nil] at hlen
      omega
    | cons y d =>
      have hy : y = 32 := by simpa using hhead
      have hw := hget w.length (by omega)
      rw [List.getElem?_append_right (Nat.le_refl _), Nat.sub_self, List.getElem?_cons_zero, Option.some.injEq, hy] at hw
      rcases Nat.lt_or_eq_of_le (Nat.le_of_not_lt hlt) with hwi | hwi
      · exact (hf w.length i hwi hi hw.symm).symm
      · rw [← hwi, ← hw]

/-! ## From strings to entries and back -/

theorem toDosName_cases (a : CStr) (i : Nat) : fat32ToDosName a i = 32 ∨ ∃ x ∈ a.bytes, fat32ToDosName a i = dosUpper x := by
  have hpad : ∀ (v : List UInt8) (j : Nat), (∀ x ∈ v, x ∈ a.bytes) →
      (v.map dosUpper).getD j 32 = 32 ∨ ∃ x ∈ a.bytes, (v.map dosUpper).getD j 32 = dosUpper x := by
    intro v j hv
    by_cases hj : j < v.length
    · refine .inr ⟨v[j], hv _ (getElem_mem hj), ?_⟩
      rw [getD_eq_getElem _ _ (by rw [length_map]; exact hj), getElem_map]
    · exact .inl (getD_eq_default _ _ (by rw [length_map]; exact Nat.le_of_not_lt hj))
  unfold fat32ToDosName
  split
  · exact hpad _ i fun x hx => (takeWhile_sublist _).subset (mem_of_mem_take hx)
  · exact hpad _ (i - 8) fun x hx => (dropWhile_sublist _).subset (mem_of_mem_drop (mem_of_mem_take hx))

theorem toDosName_ne_zero (a : CStr) (i : Nat) : fat32ToDosName a i ≠ 0 := by
  intro h0
  rcases toDosName_cases a i with h | ⟨x, hx, h⟩
  · rw [h0] at h
    exact absurd h (by decide)
  · rw [h0] at h
    exact a.nonzero ((dosUpper_eq_iff (by decide) (by decide)).1 h.symm ▸ hx)

theorem dosUpper_toDosName (a : CStr) (i : Nat) : dosUpper (fat32ToDosName a i) = fat32ToDosName a i := by
  rcases toDosName_cases a i with h | ⟨x, -, h⟩
  · rw [h]
    decide
  · rw [h, dosUpper_idem]

theorem toDosName_live (h : a.bytes.head? ≠ some direntDeleted) : fat32ToDosName a 0 ≠ direntDeleted := by
  unfold fat32ToDosName
  rw [if_pos (by decide)]
  cases hb : a.bytes with
  | nil => decide
  | cons y t =>
    rw [hb, List.head?_cons] at h
    by_cases hy : y = 46
    · rw [hy, takeWhile_cons_of_neg (by decide)]
      decide
    · rw [takeWhile_cons_of_pos (by simpa using hy), take_succ_cons, map_cons, getD_cons_zero]
      exact fun heq => h (congrArg some ((dosUpper_eq_iff (by decide) (by decide)).1 heq))

theorem ShortName.toDosName (h : ShortName a) :
    (∀ i < 8, fat32ToDosName a i = ((a.bytes.takeWhile (· ≠ 46)).map dosUpper).getD i 32) ∧
    ∀ i, fat32ToDosName a (8 + i) = (((a.bytes.dropWhile (· ≠ 46)).drop 1).map dosUpper).getD i 32 := by
  refine ⟨fun i hi => ?_, fun i => ?_⟩
  · unfold fat32ToDosName
    rw [if_pos hi, take_of_length_le h.baseLen]
  · unfold fat32ToDosName
    rw [if_neg (by omega), Nat.add_sub_cancel_left, take_of_length_le h.extLen]

theorem dot_dropWhile (h : a.bytes.dropWhile (· ≠ 46) ≠ []) :
    a.bytes.dropWhile (· ≠ 46) = 46 :: (a.bytes.dropWhile (· ≠ 46)).drop 1 := by
  have hhead := List.head?_dropWhile_not (fun x : UInt8 => decide (x ≠ 46)) a.bytes
  generalize a.bytes.dropWhile (fun x => decide (x ≠ 46)) = d at h hhead
  obtain ⟨y, x, rfl⟩ := exists_cons_of_ne_nil h
  obtain rfl : y = 46 := by simpa using hhead
  rfl

/-- **Two 8.3 strings with one entry are one but for case.** -/
theorem folds_apart : FoldsApart := by
  intro a b ha hb hsame
  have hbase : (a.bytes.takeWhile (· ≠ 46)).map dosUpper = (b.bytes.takeWhile (· ≠ 46)).map dosUpper := by
    refine padded_inj (n := 8) (getLast?_map_dosUpper ha.base) (getLast?_map_dosUpper hb.base)
      (by rw [length_map]; exact ha.baseLen)
      (by rw [length_map]; exact hb.baseLen) fun i hi => ?_
    rw [← ha.toDosName.1 i hi, ← hb.toDosName.1 i hi]
    exact hsame i (by omega)
  have hext : ((a.bytes.dropWhile (· ≠ 46)).drop 1).map dosUpper = ((b.bytes.dropWhile (· ≠ 46)).drop 1).map dosUpper := by
    refine padded_inj (n := 3) (getLast?_map_dosUpper ha.extLast) (getLast?_map_dosUpper hb.extLast)
      (by rw [length_map]; exact ha.extLen)
      (by rw [length_map]; exact hb.extLen) fun i hi => ?_
    rw [← ha.toDosName.2 i, ← hb.toDosName.2 i]
    exact hsame (8 + i) (by omega)
  -- a dot stands in both or in neither, since there is an extension behind it
  have hdot : (a.bytes.dropWhile (· ≠ 46)).map dosUpper = (b.bytes.dropWhile (· ≠ 46)).map dosUpper := by
    by_cases hda : a.bytes.dropWhile (· ≠ 46) = [] <;> by_cases hdb : b.bytes.dropWhile (· ≠ 46) = []
    · rw [hda, hdb]
    · rw [hda, drop_nil, map_nil] at hext
      exact absurd (map_eq_nil_iff.1 hext.symm) (hb.ext.resolve_left hdb)
    · rw [hdb, drop_nil, map_nil] at hext
      exact absurd (map_eq_nil_iff.1 hext) (ha.ext.resolve_left hda)
    · rw [dot_dropWhile hda, dot_dropWhile hdb, map_cons, map_cons, hext]
  rw [← takeWhile_append_dropWhile (p := fun x => decide (x ≠ 46)) (l := a.bytes), map_append, hbase, hdot, ← map_append,
    takeWhile_append_dropWhile]

/-- **A whole entry comes back**, if a string was folded to it. -/
theorem toDosName_getName (hmade : SameName e (fat32ToDosName b)) (hw : Whole e) :
    SameName (fat32ToDosName (fat32GetName e)) e := by
  have hchar : ∀ i < 11, e i ≠ 0 ∧ dosUpper (e i) = e i := fun i hi => by
    rw [hmade i hi]
    exact ⟨toDosName_ne_zero b i, dosUpper_toDosName b i⟩
  have hbaseGet := fun i (hi : i < 8) => getD_takeWhile hw.base hi
  have hextGet := fun i (hi : i < 3) => getD_takeWhile (f := fun i => e (8 + i)) hw.ext hi
  have hbaseMem : ∀ y ∈ ((List.range 8).map e).takeWhile (· ≠ 32), ∃ i < 8, y = e i := fun y hy => by
    obtain ⟨i, hi, rfl⟩ := mem_map.1 ((takeWhile_sublist _).subset hy)
    exact ⟨i, mem_range.1 hi, rfl⟩
  have hextMem : ∀ y ∈ ((List.range 3).map fun i => e (8 + i)).takeWhile (· ≠ 32), ∃ i < 11, y = e i := fun y hy => by
    obtain ⟨i, hi, rfl⟩ := mem_map.1 ((takeWhile_sublist _).subset hy)
    exact ⟨8 + i, by have := mem_range.1 hi; omega, rfl⟩
  have hbaseLen : (((List.range 8).map e).takeWhile (· ≠ 32)).length ≤ 8 :=
    Nat.le_trans (takeWhile_sublist _).length_le (by rw [length_map, length_range])
  have hextLen : (((List.range 3).map fun i => e (8 + i)).takeWhile (· ≠ 32)).length ≤ 3 :=
    Nat.le_trans (takeWhile_sublist _).length_le (by rw [length_map, length_range])
  unfold fat32GetName
  dsimp only
  generalize ((List.range 8).map e).takeWhile (fun x => decide (x ≠ 32)) = w at hbaseGet hbaseMem hbaseLen ⊢
  generalize ((List.range 3).map fun i => e (8 + i)).takeWhile (fun x => decide (x ≠ 32)) = x at hextGet hextMem hextLen ⊢
  obtain ⟨t, ht⟩ : ∃ t, t = if e 8 = 32 then [] else 46 :: x := ⟨_, rfl⟩
  rw [← ht]
  have hzero : 0 ∉ w ++ t := by
    rw [mem_append]
    rintro (hmem | hmem)
    · obtain ⟨i, hi, h0⟩ := hbaseMem 0 hmem
      exact (hchar i (by omega)).1 h0.symm
    · rw [ht] at hmem
      split at hmem
      · cases hmem
      · rcases mem_cons.1 hmem with h0 | hmem
        · exact absurd h0 (by decide)
        · obtain ⟨i, hi, h0⟩ := hextMem 0 hmem
          exact (hchar i hi).1 h0.symm
  have hdots : ∀ y ∈ w, decide (y ≠ 46) = true := fun y hy => by
    obtain ⟨i, hi, rfl⟩ := hbaseMem y hy
    exact decide_eq_true (hw.noDot i hi)
  have htake : (w ++ t).takeWhile (fun y => decide (y ≠ 46)) = w := by
    rw [takeWhile_append_of_pos hdots, ht]
    split
    · rw [takeWhile_nil, append_nil]
    · rw [takeWhile_cons_of_neg (by decide), append_nil]
  have hdrop : (w ++ t).dropWhile (fun y => decide (y ≠ 46)) = t := by
    have hwhole := takeWhile_append_dropWhile (p := fun y => decide (y ≠ 46)) (l := w ++ t)
    rw [htake] at hwhole
    exact append_cancel_left hwhole
  have hupW : w.map dosUpper = w := by
    refine (map_congr_left fun y hy => ?_).trans (map_id w)
    obtain ⟨i, hi, rfl⟩ := hbaseMem y hy
    exact (hchar i (by omega)).2
  have hupX : x.map dosUpper = x := by
    refine (map_congr_left fun y hy => ?_).trans (map_id x)
    obtain ⟨i, hi, rfl⟩ := hextMem y hy
    exact (hchar i hi).2
  intro i hi
  unfold fat32ToDosName
  rw [ofBytes_bytes hzero, htake, hdrop, take_of_length_le hbaseLen, hupW]
  by_cases hi8 : i < 8
  · rw [if_pos hi8, hbaseGet i hi8]
  · obtain ⟨j, rfl⟩ := Nat.exists_eq_add_of_le (Nat.le_of_not_lt hi8)
    rw [if_neg hi8, Nat.add_sub_cancel_left]
    by_cases h8 : e 8 = 32
    · rw [if_pos h8] at ht
      subst ht
      have hblank : e (8 + j) = 32 := by
        rcases Nat.eq_zero_or_pos j with rfl | hpos
        · exact h8
        · exact hw.ext 0 j hpos (by omega) h8
      rw [hblank]
      rfl
    · rw [if_neg h8] at ht
      subst ht
      rw [drop_one, tail_cons, take_of_length_le hextLen, hupX, hextGet j (by omega)]

/-! ## Listing and finding -/

theorem mem_listedSlots : p ∈ listedSlots s dir ↔
    p ∈ (s.dirSlots dir).takeWhile (fun q => decide (s.entry q 0 ≠ direntEnd)) ∧
    s.listedAt p = true := mem_filter

theorem matchesAt_eq_listedAt (s : Fat) (p : DirPos) (n : Buffer) :
    s.matchesAt n p = true ↔ s.listedAt p = true ∧ SameName (s.entry p) n := by
  rw [matchesAt_iff]
  unfold Fat.listedAt SameName
  simp [and_assoc]

theorem listed_found (s : Fat) (dir : UInt32) : ListedFound s dir := by
  rintro hdistinct index p hp ⟨b, hmade⟩ hw
  have hmem := mem_of_getElem? hp
  obtain ⟨hon, hlisted⟩ := mem_listedSlots.1 hmem
  have hback := toDosName_getName hmade hw
  have hmatch : s.matchesAt (fat32ToDosName (fat32GetName (s.entry p))) p = true :=
    (matchesAt_eq_listedAt s p _).2 ⟨hlisted, fun i hi => (hback i hi).symm⟩
  have hfind : fat32FindDirentInChain s dir (fat32GetName (s.entry p)) = some p := by
    unfold fat32FindDirentInChain
    cases hf : ((s.dirSlots dir).takeWhile fun q => decide (s.entry q 0 ≠ direntEnd)).find?
        (s.matchesAt (fat32ToDosName (fat32GetName (s.entry p)))) with
    | none => exact absurd hmatch (List.find?_eq_none.1 hf p hon)
    | some q =>
      obtain ⟨hq, hsame⟩ := (matchesAt_eq_listedAt s q _).1 (List.find?_some hf)
      rw [hdistinct q (mem_listedSlots.2 ⟨mem_of_find?_eq_some hf, hq⟩) p hmem fun i hi => (hsame i hi).trans (hback i hi)]
  unfold fat32Readdir fat32Finddir
  rw [hfind, hp]
  exact ⟨_, rfl, rfl, rfl, rfl⟩

/-! ## Creating -/

theorem newDirent_name (b : Buffer) (attr : UInt8) (c : UInt32) : ∀ i < 11, newDirent b attr c i = b i := fun i hi => by
  rw [newDirent, withCluster_name _ _ _ (by omega), Buffer.blit_of_lt hi, Buffer.blit_of_mem (Nat.zero_le _) (by omega),
    Nat.sub_zero]

theorem newDirent_attr (b : Buffer) (attr : UInt8) (c : UInt32) : Dirent.attr (newDirent b attr c) = attr := by
  rw [Dirent.attr, newDirent, withCluster_name _ _ _ (by decide), Buffer.blit_of_mem (Nat.le_refl _) (by decide)]

theorem newDirent_fileSize (b : Buffer) (attr : UInt8) (c : UInt32) : Dirent.fileSize (newDirent b attr c) = 0 := by
  rw [Dirent.fileSize, newDirent, Dirent.withCluster, Buffer.get32_blit_of_disjoint (by decide),
    Buffer.get32_blit_of_disjoint (by decide), Buffer.get32_blit_of_disjoint (by decide),
    Buffer.get32_blit_of_disjoint (by decide)]
  decide

theorem newDirent_carries {b : Buffer} (h0 : b 0 ≠ 0) (hlive : b 0 ≠ direntDeleted) (c : UInt32) :
    Carries (newDirent b attrArchive c) b := by
  refine ⟨newDirent_name b attrArchive c, ?_, ?_, ?_, ?_⟩
  · rw [newDirent_name b attrArchive c 0 (by decide)]
    exact h0
  · rw [newDirent_name b attrArchive c 0 (by decide)]
    exact hlive
  · rw [newDirent_attr]
    decide
  · rw [newDirent_attr]
    decide

theorem Opened.missed {l' : List UInt32} (ho : Opened s s' limit c l' p k) (hnone : fat32FindDirentInChain s c name = none) :
    ∀ j < k, ∀ q, (s.dirSlots c)[j]? = some q → s.matchesAt (fat32ToDosName name) q = false := by
  intro j hj q hq
  by_contra hmatch
  rw [Bool.not_eq_false] at hmatch
  obtain ⟨i, hij, b, hb, hend⟩ := findDirent_eq_none.1 hnone j q hq hmatch
  obtain ⟨-, hfree⟩ := ho.before i (by omega) b (ho.old i b hb)
  unfold Fat.freeAt at hfree
  rw [hend] at hfree
  cases hfree

theorem created_found (hg : Geometry s.vol limit) (hl : FatLinked s limit dir l) (hin : InVol limit dir)
    (hr : Room s limit 1) :
    CreatedFound s dir := by
  intro name hok hhead
  have hopen := findFree_spec hg hl hin hr
  unfold fat32Create at hok ⊢
  cases hnone : fat32FindDirentInChain s dir name with
  | some q =>
    rw [hnone] at hok
    cases hok
  | none =>
    rw [hnone] at hok
    dsimp only at hok ⊢
    cases hfree : fat32FindFreeDirentInChain s dir with
    | none =>
      rw [hfree] at hok
      cases hok
    | some r =>
      obtain ⟨s1, p⟩ := r
      rw [hfree] at hopen
      obtain ⟨l', k, ho⟩ := hopen
      have hcarries := newDirent_carries (toDosName_ne_zero name 0) (toDosName_live hhead) 0
      have hfound := ho.written hg hl (ho.missed hnone) hcarries
      have hself : ∀ i < 32, (s1.updateDirent p (newDirent (fat32ToDosName name) attrArchive 0)).entry p i =
          newDirent (fat32ToDosName name) attrArchive 0 i := fun i hi => entry_updateDirent_self s1 p _ hi
      dsimp only
      generalize s1.updateDirent p (newDirent (fat32ToDosName name) attrArchive 0) = s' at hfound hself ⊢
      have hfind := findDirent_eq_some.2 ⟨k, hfound⟩
      have hsame : SameName (s'.entry p) (fat32ToDosName name) :=
        fun i hi => (hself i (by omega)).trans (newDirent_name _ _ _ i hi)
      have hcluster : Dirent.cluster (s'.entry p) = 0 :=
        (Dirent.cluster_congr fun j _ hj => hself j (by omega)).trans (Dirent.cluster_withCluster _ 0)
      have hsize : Dirent.fileSize (s'.entry p) = 0 :=
        (Buffer.get32_congr fun j _ hj => hself j hj).trans (newDirent_fileSize _ _ _)
      have hfile : Dirent.isDir (s'.entry p) = false := by
        have hattr : Dirent.attr (s'.entry p) = attrArchive := (hself 11 (by decide)).trans (newDirent_attr _ _ _)
        rw [Dirent.isDir, hattr]
        decide
      refine ⟨p, _, hfind, by unfold fat32Finddir; rw [hfind], hcluster, hsize, ?_, hsame, ?_, ?_⟩
      · dsimp only
        rw [hfile]
        rfl
      · rw [hsame 0 (by decide)]
        exact toDosName_ne_zero name 0
      · rw [hsame 0 (by decide)]
        exact toDosName_live hhead

/-- **Names and lookup agree** in a directory of a volume, for entries that are whole and strings that fit. -/
theorem fat32_names_agree (limit : Nat) (s : Fat) (dir : UInt32) (l : List UInt32) (hg : Geometry s.vol limit)
    (hl : FatLinked s limit dir l) (hin : InVol limit dir) (hr : Room s limit 1) :
    ListedFound s dir ∧ CreatedFound s dir ∧ FoldsApart :=
  ⟨listed_found s dir, created_found hg hl hin hr, folds_apart⟩

theorem sampleFat_linked : FatLinked sampleFat 8 2 [2] :=
  ⟨⟨rfl, by decide, (by decide +kernel : fat32Eoc ≤ fat32GetNextCluster sampleFat 2)⟩,
    fun d hd => by rw [mem_singleton.1 hd]; exact ⟨by decide, by decide⟩⟩

theorem sampleFat_room : Room sampleFat 8 1 := .inl (by decide +kernel)

/-- The root of the sample volume. -/
theorem sampleFat_names : ListedFound sampleFat 2 ∧ CreatedFound sampleFat 2 ∧ FoldsApart :=
  fat32_names_agree 8 sampleFat 2 [2] blank_geometry sampleFat_linked ⟨by decide, by decide⟩ sampleFat_room

def withDir : Fat := (fat32Mkdir sampleFat 2 nameB).1

def dotString : CStr := ⟨[46], by decide⟩
def markString : CStr := letter direntDeleted (by decide)
def ninthName (last : UInt8) (h : last ≠ 0) : CStr where
  bytes := [97, 98, 99, 100, 101, 102, 103, 104, last]
  nonzero := by
    simp only [mem_cons, not_mem_nil, or_false, not_or]
    exact ⟨by decide, by decide, by decide, by decide, by decide, by decide, by decide, by decide, h.symm⟩

/-- Two names that differ in the ninth character are one: the file created under the first is found under the second. A new
directory lists `.` and does not find it; the file created under the byte of deleted entries is not found. -/
theorem ninth_character_cut :
    (fat32Create sampleFat 2 (ninthName 105 (by decide))).2.isOk ∧
    (fat32Finddir (fat32Create sampleFat 2 (ninthName 105 (by decide))).1 2 (ninthName 106 (by decide))).isSome ∧
    SameName (fat32ToDosName (ninthName 105 (by decide))) (fat32ToDosName (ninthName 106 (by decide))) ∧
    DistinctNames withDir 3 ∧ fat32Readdir withDir 3 0 = some (dotString, 3) ∧ fat32Finddir withDir 3 dotString = none ∧
    (fat32Create sampleFat 2 markString).2.isOk ∧
    fat32Finddir (fat32Create sampleFat 2 markString).1 2 markString = none := by
  have hlisted : listedSlots withDir 3 = [⟨3, 0⟩, ⟨3, 32⟩] := by decide +kernel
  have hnames : withDir.entry ⟨3, 0⟩ 1 ≠ withDir.entry ⟨3, 32⟩ 1 := by decide +kernel
  refine ⟨by decide +kernel, by decide +kernel, fun i hi => ?_, fun p hp q hq hsame => ?_, by decide +kernel,
    by decide +kernel, by decide +kernel, by decide +kernel⟩
  · revert i
    decide
  · have h1 := hsame 1 (by decide)
    rw [hlisted] at hp hq
    rcases mem_pair.1 hp with rfl | rfl <;> rcases mem_pair.1 hq with rfl | rfl
    · rfl
    · exact absurd h1 hnames
    · exact absurd h1.symm hnames
    · rfl

end EterOS.Fs
