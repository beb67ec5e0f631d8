import EterOS.Fs.Lookup
import EterOS.Syscall.Dirs
import Mathlib.Data.List.Infix
/-!
# Normalize — what `vfs_normalize_path` makes of a path

`kernel/fs/vfs.c`: the base and the path are joined in 1024 bytes, up to 64 names are kept of them, and the result is put
together in as many bytes as the caller has.  The bytes are cut to fit and the names are counted.  `resolution` is what a
path means, without any of the three.
-/
namespace EterOS.Syscall

open List
open Fs (CStr segmentsOf)
open Paths (components canonical resolve resolveStep Component)

def joined (path base : CStr) : List UInt8 :=
  if path.bytes.head? = some 47 then path.bytes
  else (if base.bytes.getLast? = some 47 then base.bytes else base.bytes ++ [47]) ++ path.bytes

/-- `vfs_normalize_path` into `size` bytes. -/
def vfsNormalizePathInto (size : Int) (path base : CStr) : Except Int CStr :=
  if size ≤ 0 then .error ENOENT
  else
    let temp := (joined path base).take 1023
    match (segmentsOf temp.length temp).foldl normalizeStep (some []) with
    | none => .error ENAMETOOLONG
    | some [] => .ok (CStr.ofBytes ([47].take (size.toNat - 1)))
    | some l => .ok (CStr.ofBytes ((l.flatMap fun c => 47 :: c.bytes).take (size.toNat - 1)))

def resolved (p : List UInt8) : List (List UInt8) := resolve [46] [46, 46] (components 47 p)

def resolution (p : List UInt8) : List UInt8 := canonical 47 (resolved p)

/-- At some name there are more on the way than the table of segments has room for. -/
def TooDeep (p : List UInt8) : Prop := ∃ cs, cs <+: components 47 p ∧ 64 < (resolve [46] [46, 46] cs).length

instance (p : List UInt8) : Decidable (TooDeep p) :=
  decidable_of_iff (∃ cs ∈ (components 47 p).inits, 64 < (resolve [46] [46, 46] cs).length) <|
    exists_congr fun _ => and_congr_left' (mem_inits _ _)

theorem vfsNormalizePath_eq_into (path base : CStr) : vfsNormalizePath path base = vfsNormalizePathInto 1024 path base := by
  unfold vfsNormalizePath vfsNormalizePathInto joined
  rw [if_neg (show ¬ (1024 : Int) ≤ 0 by decide)]
  rfl

variable {path base : CStr} {size : Int} {p : List UInt8} {cs : List (List UInt8)}

/-! ## The table of segments -/

theorem normalizeStep_none (segment : CStr) : normalizeStep none segment = none := rfl

theorem foldl_normalizeStep_none (segs : List CStr) : segs.foldl normalizeStep none = none := by
  induction segs with
  | nil => rfl
  | cons c segs ih => rw [foldl_cons, normalizeStep_none, ih]

theorem normalizeStep_cases {l : List CStr} (h : l.length ≤ 64) (c : CStr) :
    (normalizeStep (some l) c = none ∧ 64 < (resolveStep [46] [46, 46] (l.map CStr.bytes) c.bytes).length) ∨
      ∃ l', normalizeStep (some l) c = some l' ∧ l'.length ≤ 64 ∧
        l'.map CStr.bytes = resolveStep [46] [46, 46] (l.map CStr.bytes) c.bytes := by
  unfold normalizeStep resolveStep
  dsimp only
  by_cases hdot : c.bytes = [46]
  · rw [if_pos hdot, if_pos hdot]
    exact Or.inr ⟨l, rfl, h, rfl⟩
  rw [if_neg hdot, if_neg hdot]
  by_cases hdotdot : c.bytes = [46, 46]
  · rw [if_pos hdotdot, if_pos hdotdot]
    refine Or.inr ⟨l.dropLast, rfl, ?_, map_dropLast⟩
    rw [length_dropLast]
    omega
  rw [if_neg hdotdot, if_neg hdotdot]
  by_cases hroom : l.length < 64
  · rw [if_pos hroom]
    refine Or.inr ⟨l ++ [c], rfl, ?_, map_append⟩
    rw [length_append, length_singleton]
    omega
  · rw [if_neg hroom]
    refine Or.inl ⟨rfl, ?_⟩
    rw [length_append, length_map, length_singleton]
    omega

theorem overflows_of_foldl (segs : List CStr) : ∀ l : List CStr, l.length ≤ 64 → segs.foldl normalizeStep (some l) = none →
    ∃ cs, cs <+: segs.map CStr.bytes ∧ 64 < (cs.foldl (resolveStep [46] [46, 46]) (l.map CStr.bytes)).length := by
  induction segs with
  | nil =>
    intro l _ h
    cases h
  | cons c segs ih =>
    intro l hl h
    rw [foldl_cons] at h
    rcases normalizeStep_cases hl c with ⟨-, hover⟩ | ⟨l', hstep, hl', hmap⟩
    · exact ⟨[c.bytes], ⟨segs.map CStr.bytes, rfl⟩, hover⟩
    · rw [hstep] at h
      obtain ⟨cs, ⟨rest, hrest⟩, hover⟩ := ih l' hl' h
      refine ⟨c.bytes :: cs, ⟨rest, ?_⟩, ?_⟩
      · rw [cons_append, hrest, map_cons]
      · rwa [foldl_cons, ← hmap]

theorem resolves_of_foldl (segs : List CStr) : ∀ l r :
    List CStr, l.length ≤ 64 → segs.foldl normalizeStep (some l) = some r →
    r.map CStr.bytes = (segs.map CStr.bytes).foldl (resolveStep [46] [46, 46]) (l.map CStr.bytes) ∧
      ∀ cs, cs <+: segs.map CStr.bytes → (cs.foldl (resolveStep [46] [46, 46]) (l.map CStr.bytes)).length ≤ 64 := by
  induction segs with
  | nil =>
    intro l r hl h
    obtain rfl := Option.some.inj h
    refine ⟨rfl, fun cs hcs => ?_⟩
    obtain rfl := prefix_nil.1 hcs
    rwa [foldl_nil, length_map]
  | cons c segs ih =>
    intro l r hl h
    rw [foldl_cons] at h
    rcases normalizeStep_cases hl c with ⟨hstep, -⟩ | ⟨l', hstep, hl', hmap⟩
    · rw [hstep, foldl_normalizeStep_none] at h
      cases h
    · rw [hstep] at h
      obtain ⟨hr, hall⟩ := ih l' r hl' h
      refine ⟨by rw [map_cons, foldl_cons, ← hmap, hr], fun cs hcs => ?_⟩
      rw [map_cons] at hcs
      rcases prefix_cons_iff.1 hcs with rfl | ⟨t, rfl, ht⟩
      · rwa [foldl_nil, length_map]
      · rw [foldl_cons, ← hmap]
        exact hall t ht

/-! ## What comes out -/

theorem joined_nonzero (path base : CStr) : 0 ∉ joined path base := by
  unfold joined
  split
  · exact path.nonzero
  · rw [mem_append]
    rintro (h | h)
    · split at h
      · exact base.nonzero h
      · rcases mem_append.1 h with h | h
        · exact base.nonzero h
        · cases mem_singleton.1 h
    · exact path.nonzero h

theorem joined_absolute (habs : base.bytes.head? = some 47) : (joined path base).head? = some 47 := by
  unfold joined
  split
  · assumption
  · obtain ⟨bytes, h0⟩ := base
    cases bytes with
    | nil => cases habs
    | cons x q =>
      obtain rfl := Option.some.inj habs
      split <;> rfl

theorem resolved_nonzero (h : 0 ∉ p) {c : List UInt8} (hc : c ∈ resolved p) : 0 ∉ c := by
  rcases Paths.mem_foldl_resolveStep hc with hc | ⟨hc, -⟩
  · cases hc
  · exact fun h0 => h (Paths.mem_of_components hc 0 h0)

theorem resolution_nonzero (h : 0 ∉ p) : 0 ∉ resolution p := by
  unfold resolution canonical
  split
  · decide
  · intro h0
    obtain ⟨c, hc, h0⟩ := mem_flatMap.1 h0
    rcases mem_cons.1 h0 with h0 | h0
    · cases h0
    · exact resolved_nonzero h hc h0

/-- **What `vfs_normalize_path` gives**: the resolution of the bytes that found room, as far as they find room. -/
theorem vfsNormalizePathInto_spec (hsize : 0 < size) (path base : CStr) :
    (TooDeep ((joined path base).take 1023) ∧ vfsNormalizePathInto size path base = .error ENAMETOOLONG) ∨
      ¬ TooDeep ((joined path base).take 1023) ∧ ∃ out, vfsNormalizePathInto size path base = .ok out ∧
        out.bytes = (resolution ((joined path base).take 1023)).take (size.toNat - 1) := by
  have h0 : 0 ∉ (joined path base).take 1023 := fun h => joined_nonzero path base (mem_of_mem_take h)
  unfold vfsNormalizePathInto
  rw [if_neg (by omega)]
  dsimp only
  generalize (joined path base).take 1023 = temp at h0 ⊢
  have hsegs := Fs.segmentsOf_eq temp.length temp h0 (Nat.le_refl _)
  have hout : ∀ n, (CStr.ofBytes ((resolution temp).take n)).bytes = (resolution temp).take n := fun n =>
    Fs.ofBytes_bytes fun h => resolution_nonzero h0 (mem_of_mem_take h)
  cases hfold : (segmentsOf temp.length temp).foldl normalizeStep (some []) with
  | none =>
    left
    obtain ⟨cs, hcs, hover⟩ := overflows_of_foldl _ [] (Nat.zero_le _) hfold
    rw [hsegs] at hcs
    exact ⟨⟨cs, hcs, hover⟩, rfl⟩
  | some l =>
    right
    obtain ⟨hl, hall⟩ := resolves_of_foldl _ [] l (Nat.zero_le _) hfold
    rw [hsegs] at hl hall
    refine ⟨fun ⟨cs, hcs, hover⟩ => absurd (hall cs hcs) (Nat.not_le.2 hover), ?_⟩
    have hres : resolved temp = l.map CStr.bytes := hl.symm
    cases l with
    | nil =>
      have hroot : resolution temp = [47] := by rw [resolution, hres]; rfl
      rw [hroot] at hout ⊢
      exact ⟨_, rfl, hout _⟩
    | cons c l =>
      have hspelled : resolution temp = (c :: l).flatMap fun c => 47 :: c.bytes := by
        rw [resolution, hres, canonical, if_neg (by simp), Paths.spelled, flatMap_map]
      rw [hspelled] at hout ⊢
      exact ⟨_, rfl, hout _⟩

/-! ## A path that fits -/

theorem length_resolution (habs : p.head? = some 47) : (resolution p).length ≤ p.length := by
  cases p with
  | nil => cases habs
  | cons x q =>
    obtain rfl := Option.some.inj habs
    unfold resolution canonical
    split
    · exact Nat.le_add_left _ _
    · have hres : (Paths.spelled 47 (resolve [46] [46, 46] (components 47 (47 :: q)))).length ≤
          (Paths.spelled 47 (components 47 (47 :: q))).length := Paths.length_resolve _
      have hlen := Paths.length_spelled_components 47 q
      rw [Paths.components_cons_sep] at hres
      rw [resolved, Paths.components_cons_sep, length_cons]
      omega

theorem plain_of_mem_resolved {c : List UInt8} (h : c ∈ resolved p) : Paths.Plain 47 [46] [46, 46] c :=
  Paths.plain_of_mem_resolve (fun _ hc => Paths.component_of_mem hc) h

theorem components_resolution (p : List UInt8) : components 47 (resolution p) = resolved p :=
  Paths.components_canonical fun _ hc => (plain_of_mem_resolved hc).toComponent

theorem resolution_resolution (p : List UInt8) : resolution (resolution p) = resolution p := by
  have hsame : resolved (resolution p) = resolved p := by
    rw [resolved, components_resolution]
    exact Paths.resolve_plain fun _ hc => plain_of_mem_resolved hc
  rw [resolution, hsame]
  rfl

theorem not_tooDeep_resolution (h : ¬ TooDeep p) : ¬ TooDeep (resolution p) := by
  rintro ⟨cs, hcs, hover⟩
  rw [components_resolution] at hcs
  rw [Paths.resolve_plain fun c hc => plain_of_mem_resolved (hcs.subset hc)] at hover
  exact h ⟨components 47 p, prefix_refl _, Nat.lt_of_lt_of_le hover hcs.length_le⟩

theorem resolution_absolute (p : List UInt8) : (resolution p).head? = some 47 := by
  unfold resolution canonical
  split
  · rfl
  · cases hcs : resolved p with
    | nil => contradiction
    | cons c cs => rfl

structure Fits (size : Int) (path base : CStr) : Prop where
  joined : (joined path base).length < 1024
  result : (resolution (Syscall.joined path base)).length < size

/-- An absolute path without empty, dot and dot-dot segments. -/
def Normal (p : List UInt8) : Prop := ∃ cs, (∀ c ∈ cs, Paths.Plain 47 [46] [46, 46] c) ∧ p = canonical 47 cs

/-- **Normalization**: what comes out is the resolution of the whole path, where the path and the result have room, and else
as much as has room of the resolution of as much as has room; where it is the whole it is normal and normalizing it again
does nothing.  A path with more segments than there is room for is refused. -/
theorem vfsNormalizePathInto_exact (path base : CStr) (size : Int) (habs : base.bytes.head? = some 47) :
    (∀ out, vfsNormalizePathInto size path base = .ok out →
      out.bytes = (resolution ((joined path base).take 1023)).take (size.toNat - 1) ∧
      (Fits size path base → out.bytes = resolution (joined path base) ∧ Normal out.bytes ∧
        ∀ base', vfsNormalizePathInto size out base' = .ok out)) ∧
    (vfsNormalizePathInto size path base = .error ENAMETOOLONG ↔ 0 < size ∧ TooDeep ((joined path base).take 1023)) ∧
    (0 < size → ¬ TooDeep ((joined path base).take 1023) → (vfsNormalizePathInto size path base).isOk) := by
  by_cases hsize : 0 < size
  · have hspec := vfsNormalizePathInto_spec hsize path base
    refine ⟨fun out hout => ?_, ⟨fun herr => ⟨hsize, ?_⟩, fun ⟨_, hdeep⟩ => ?_⟩, fun _ hdeep => ?_⟩
    · rcases hspec with ⟨-, herr⟩ | ⟨hdeep, out', hout', hbytes⟩
      · rw [herr] at hout
        cases hout
      rw [hout] at hout'
      obtain rfl := Except.ok.inj hout'
      refine ⟨hbytes, fun hfits => ?_⟩
      have htake : (joined path base).take 1023 = joined path base := take_of_length_le (Nat.le_of_lt_succ hfits.joined)
      have hall : out.bytes = resolution (joined path base) := by
        rw [hbytes, htake, take_of_length_le]
        have := hfits.result
        omega
      refine ⟨hall, ⟨_, fun c hc => plain_of_mem_resolved hc, hall⟩, fun base' => ?_⟩
      have hagain : joined out base' = resolution (joined path base) := by
        unfold joined
        rw [if_pos (by rw [hall]; exact resolution_absolute _)]
        exact hall
      have hlen := length_resolution (p := joined path base) (joined_absolute habs)
      have htake' : (joined out base').take 1023 = resolution (joined path base) := by
        rw [hagain, take_of_length_le]
        have := hfits.joined
        omega
      rw [htake] at hdeep
      rcases vfsNormalizePathInto_spec hsize out base' with ⟨hdeep', -⟩ | ⟨-, out', hout', hbytes'⟩
      · rw [htake'] at hdeep'
        exact absurd hdeep' (not_tooDeep_resolution hdeep)
      · have hsame : out' = out := by
          rw [htake', resolution_resolution, take_of_length_le (by have := hfits.result; omega), ← hall] at hbytes'
          cases out
          cases out'
          cases hbytes'
          rfl
        rw [hout', hsame]
    · rcases hspec with ⟨hdeep, -⟩ | ⟨-, out, hout, -⟩
      · exact hdeep
      · rw [herr] at hout
        cases hout
    · rcases hspec with ⟨-, herr⟩ | ⟨hnot, -⟩
      · exact herr
      · exact absurd hdeep hnot
    · rcases hspec with ⟨hyes, -⟩ | ⟨-, out, hout, -⟩
      · exact absurd hyes hdeep
      · rw [hout]
        rfl
  · have hrefused : vfsNormalizePathInto size path base = .error ENOENT := if_pos (Int.not_lt.1 hsize)
    rw [hrefused]
    exact ⟨fun out hout => (by cases hout), ⟨fun h => (by cases h), fun ⟨h, _⟩ => absurd h hsize⟩, fun h => absurd h hsize⟩

/-- `../c/./d` -/
def upAndDown : CStr := ⟨[46, 46, 47, 99, 47, 46, 47, 100], by decide⟩

/-- `/a/b` -/
def twoDeep : CStr := ⟨[47, 97, 47, 98], by decide⟩

/-- `../c/./d` from `/a/b` is `/a/c/d`, which stays as it is. -/
theorem normalize_parent : ∃ out, vfsNormalizePathInto 1024 upAndDown twoDeep = .ok out ∧
    out.bytes = [47, 97, 47, 99, 47, 100] ∧
    Normal out.bytes ∧ vfsNormalizePathInto 1024 out twoDeep = .ok out := by
  obtain ⟨hexact, -, haccepted⟩ := vfsNormalizePathInto_exact upAndDown twoDeep 1024 (by decide)
  have hok := haccepted (by decide) (by decide +kernel)
  rcases hout : vfsNormalizePathInto 1024 upAndDown twoDeep with e | out
  · rw [hout] at hok
    cases hok
  · obtain ⟨hwhole, hnormal, hagain⟩ := (hexact out hout).2 ⟨by decide +kernel, by decide +kernel⟩
    have hresolved : resolution (joined upAndDown twoDeep) = [47, 97, 47, 99, 47, 100] := by decide +kernel
    exact ⟨out, rfl, hwhole.trans hresolved, hnormal, hagain twoDeep⟩

/-- `/abc` into three bytes is `/a`. -/
theorem normalize_cuts :
    vfsNormalizePathInto 3 ⟨[47, 97, 98, 99], by decide⟩ ⟨[47], by decide⟩ = .ok ⟨[47, 97], by decide⟩ ∧
    resolution (joined ⟨[47, 97, 98, 99], by decide⟩ ⟨[47], by decide⟩) = [47, 97, 98, 99] := by
  decide +kernel

end EterOS.Syscall
