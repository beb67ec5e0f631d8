import EterOS.Shell.Accounts
/-!
# AccountFiles — the records of the account files, and what the commands make of them

A record carries its own well-formedness, `Holds` says that the two files are lines of records with the same names, and each
change of the commands has a lemma: `Holds.add`, `Holds.remove`, `Holds.change`.
-/
namespace EterOS.Accounts

open Records List
open Fs (CStr itoaLoop)

/-! ## Well-formed records -/

structure Field (f : List UInt8) : Prop where
  colon : 58 ∉ f
  newline : 10 ∉ f
  nonzero : 0 ∉ f

structure Name (n : List UInt8) : Prop extends Field n where
  ne_nil : n ≠ []
  length_le : n.length ≤ 31

structure Numeral (ds : List UInt8) : Prop where
  ne_nil : ds ≠ []
  length_le : ds.length ≤ 15
  digit : ∀ d ∈ ds, isDigit d
  value_lt : value ds < 2 ^ 31

structure PasswdRec where
  name : List UInt8
  pass : List UInt8
  uid : List UInt8
  gid : List UInt8
  rest : List UInt8
  name_ok : Name name
  pass_ok : Field pass
  uid_ok : Numeral uid
  gid_ok : Numeral gid
  rest_ok : 10 ∉ rest ∧ 0 ∉ rest
  fields : rest.count 58 = 2
  fits : name.length + pass.length + uid.length + gid.length + rest.length + 5 < MAX_LINE

def PasswdRec.line (r : PasswdRec) : List UInt8 :=
  r.name ++ 58 :: (r.pass ++ 58 :: (r.uid ++ 58 :: (r.gid ++ 58 :: (r.rest ++ [10]))))

structure ShadowRec where
  name : List UInt8
  hash : List UInt8
  rest : List UInt8
  name_ok : Name name
  hash_ok : Field hash
  hash_le : hash.length ≤ 64
  rest_ok : 10 ∉ rest ∧ 0 ∉ rest
  fields : rest.count 58 = 6
  fits : name.length + hash.length + rest.length + 3 < MAX_LINE

def ShadowRec.line (r : ShadowRec) : List UInt8 := r.name ++ 58 :: (r.hash ++ 58 :: (r.rest ++ [10]))

structure Line (l : List UInt8) : Prop where
  ends : ∃ body, l = body ++ [10] ∧ 10 ∉ body ∧ body.length < 255

variable {l : List UInt8}

theorem Line.ne_nil (h : Line l) : l ≠ [] := by
  obtain ⟨body, rfl, -, -⟩ := h.ends
  simp

variable {ls : List (List UInt8)}

theorem lines_flatten (h : ∀ l ∈ ls, Line l) : lines ls.flatten = ls := by
  refine pieces_flatten rfl (fun l hl => ⟨(h l hl).ne_nil, fun rest => ?_⟩) ?_
  · obtain ⟨body, rfl, hbody, hlen⟩ := (h l hl).ends
    rw [append_assoc]
    exact cutLine_append rest hbody hlen
  · exact Nat.lt_succ_of_le (length_le_flatten fun l hl => (h l hl).ne_nil)

theorem bufferLines_flatten (h : ∀ l ∈ ls, Line l) : bufferLines ls.flatten = ls := by
  refine pieces_flatten rfl (fun l hl => ⟨(h l hl).ne_nil, fun rest => ?_⟩) ?_
  · obtain ⟨body, rfl, hbody, hlen⟩ := (h l hl).ends
    rw [append_assoc]
    exact cutLineStop_append rest hbody (Nat.le_of_lt hlen)
  · exact Nat.lt_succ_of_le (length_le_flatten fun l hl => (h l hl).ne_nil)

variable {ds : List UInt8}

theorem Numeral.field (h : Numeral ds) : Field ds := by
  refine ⟨fun hc => ?_, fun hc => ?_, fun hc => ?_⟩ <;> exact absurd (h.digit _ hc) (by decide)

namespace PasswdRec

variable (r : PasswdRec)

theorem line_ok : Line r.line := by
  refine ⟨⟨r.name ++ 58 :: (r.pass ++ 58 :: (r.uid ++ 58 :: (r.gid ++ 58 :: r.rest))), ?_, ?_, ?_⟩⟩
  · simp [line]
  · simp [r.name_ok.newline, r.pass_ok.newline, r.uid_ok.field.newline, r.gid_ok.field.newline, r.rest_ok.1]
  · have hfits := r.fits
    unfold MAX_LINE at hfits
    simp only [length_append, length_cons]
    omega

theorem user_line : user r.line = r.name := by
  unfold user line
  rw [scan_field r.name_ok.colon]
  exact take_of_length_le r.name_ok.length_le

theorem uidStr_line : uidStr r.line = r.uid := by
  unfold uidStr line
  rw [scan_skip r.name_ok.colon (by decide), scan_skip r.pass_ok.colon (by decide), scan_field r.uid_ok.field.colon]
  exact take_of_length_le r.uid_ok.length_le

end PasswdRec

namespace ShadowRec

variable (r : ShadowRec)

theorem line_ok : Line r.line := by
  refine ⟨⟨r.name ++ 58 :: (r.hash ++ 58 :: r.rest), ?_, ?_, ?_⟩⟩
  · simp [line]
  · simp [r.name_ok.newline, r.hash_ok.newline, r.rest_ok.1]
  · have hfits := r.fits
    unfold MAX_LINE at hfits
    simp only [length_append, length_cons]
    omega

theorem user_line : user r.line = r.name := by
  unfold user line
  rw [scan_field r.name_ok.colon]
  exact take_of_length_le r.name_ok.length_le

theorem storedHash_line : storedHash r.line = r.hash := by
  unfold storedHash line
  rw [scan_skip r.name_ok.colon (by decide), scan_field r.hash_ok.colon]
  exact take_of_length_le r.hash_le

end ShadowRec

/-! ### Rewriting a record -/

theorem restOfLine_skip {field : Nat} (hfield : field < 2) : ∀ {f l acc : List UInt8}, 58 ∉ f →
    restOfLine (f ++ l) field acc = restOfLine l field acc
  | [], _, _, _ => rfl
  | c :: f, l, acc, hf => by
    have hc : c ≠ 58 := fun h => hf (h ▸ mem_cons_self)
    rw [cons_append, restOfLine, if_neg fun h => hc h.1, if_neg fun h => hc h.1]
    dsimp only
    rw [if_neg hc, if_neg (by omega), restOfLine_skip hfield fun h => hf (mem_cons_of_mem _ h)]

theorem restOfLine_rest : ∀ {rest acc : List UInt8} {field : Nat}, 2 ≤ field → 10 ∉ rest →
    acc.length + rest.length < MAX_LINE →
    restOfLine (rest ++ [10]) field acc = acc ++ rest
  | [], acc, field, hfield, _, _ => by
    rw [nil_append, append_nil, restOfLine, if_neg (by simp), if_neg (by simp)]
    dsimp only
    rw [if_neg (by simp), restOfLine]
  | c :: rest, acc, field, hfield, hrest, hlen => by
    have hc : c ≠ 10 := fun h => hrest (h ▸ mem_cons_self)
    rw [length_cons] at hlen
    have hnext : 2 ≤ (if c = 58 then field + 1 else field) := by
      split <;> omega
    rw [cons_append, restOfLine, if_neg (by omega), if_neg (by omega)]
    dsimp only
    rw [if_pos ⟨hnext, by omega, hc⟩, restOfLine_rest hnext (fun h => hrest (mem_cons_of_mem _ h))
      (by rw [length_append, length_singleton]; omega), append_assoc, singleton_append]

namespace ShadowRec

theorem restOfLine_line (r : ShadowRec) : restOfLine r.line 0 [] = 58 :: r.rest := by
  have hfits := r.fits
  unfold line
  rw [restOfLine_skip (by decide) r.name_ok.colon, restOfLine, if_pos ⟨rfl, rfl⟩,
    restOfLine_skip (by decide) r.hash_ok.colon, restOfLine, if_neg (by decide), if_pos ⟨rfl, rfl⟩,
    restOfLine_rest (Nat.le_refl 2) r.rest_ok.1 (by simp only [nil_append, length_singleton]; omega)]
  rfl

def withHash (r : ShadowRec) (hash : List UInt8) (hok : Field hash) (hle : hash.length ≤ 64)
    (hfits : r.name.length + hash.length + r.rest.length + 3 < MAX_LINE) : ShadowRec :=
  { r with hash := hash, hash_ok := hok, hash_le := hle, fits := hfits }

theorem newEntry_line (r : ShadowRec) (hash : List UInt8) (hok : Field hash) (hle : hash.length ≤ 64)
    (hfits : r.name.length + hash.length + r.rest.length + 3 < MAX_LINE) :
    newEntry r.line hash = (r.withHash hash hok hle hfits).line := by
  unfold newEntry
  dsimp only
  rw [r.restOfLine_line, if_neg (cons_ne_nil _ _), r.user_line]
  apply take_of_length_le
  simp only [length_append, length_cons, length_nil]
  omega

end ShadowRec

/-! ### Numbers -/

theorem value_itoaLoop (n : Nat) (acc : List UInt8) :
    (itoaLoop n acc).foldl (fun r c => r * 10 + (c.toNat - 48)) 0 = acc.foldl (fun r c => r * 10 + (c.toNat - 48)) n := by
  induction n using Nat.strongRecOn generalizing acc with
  | _ n ih =>
    rw [itoaLoop]
    by_cases hn : n = 0
    · rw [if_pos hn, hn]
    · rw [if_neg hn, ih (n / 10) (by omega), foldl_cons]
      have hdigit : (UInt8.ofNat (48 + n % 10)).toNat = 48 + n % 10 := by
        rw [UInt8.toNat_ofNat']
        omega
      rw [hdigit]
      congr 1
      omega

theorem digit_itoaLoop (n : Nat) (acc : List UInt8) (hacc : ∀ d ∈ acc, isDigit d) : ∀ d ∈ itoaLoop n acc, isDigit d := by
  induction n using Nat.strongRecOn generalizing acc with
  | _ n ih =>
    rw [itoaLoop]
    by_cases hn : n = 0
    · rw [if_pos hn]
      exact hacc
    · rw [if_neg hn]
      refine ih (n / 10) (by omega) _ fun d hd => ?_
      rcases mem_cons.1 hd with rfl | hd
      · have hten : ∀ m < 10, isDigit (UInt8.ofNat (48 + m)) := by decide
        exact hten _ (Nat.mod_lt _ (by decide))
      · exact hacc d hd

theorem length_itoaLoop : ∀ {k n : Nat} (acc : List UInt8), n < 10 ^ k → (itoaLoop n acc).length ≤ acc.length + k
  | 0, n, acc, hn => by
    rw [itoaLoop, if_pos (by omega)]
    exact Nat.le_add_right ..
  | k + 1, n, acc, hn => by
    rw [itoaLoop]
    by_cases hzero : n = 0
    · rw [if_pos hzero]
      exact Nat.le_add_right ..
    · rw [if_neg hzero]
      have hrest := length_itoaLoop (UInt8.ofNat (48 + n % 10) :: acc) (n := n / 10) (k := k)
        (by rw [Nat.pow_succ] at hn; omega)
      rw [length_cons] at hrest
      omega

theorem itoa_spec {u : Nat} (hpos : 0 < u) (hlt : u < 2 ^ 31) : Numeral (itoa u) ∧ value (itoa u) = u ∧
    (itoa u).length ≤ 10 := by
  have hitoa : itoa u = itoaLoop u [] := by
    unfold itoa
    rw [if_neg (by omega), if_neg (by omega), Int.toNat_natCast]
  have hvalue : value (itoa u) = u := by
    rw [hitoa]
    exact value_itoaLoop u []
  have hlen : (itoa u).length ≤ 10 := by
    have hle := length_itoaLoop (k := 10) (n := u) [] (by omega)
    rw [hitoa]
    simpa using hle
  refine ⟨⟨fun hnil => ?_, by omega, ?_, by omega⟩, hvalue, hlen⟩
  · rw [hnil] at hvalue
    exact absurd hvalue (Nat.ne_of_lt hpos)
  · rw [hitoa]
    exact digit_itoaLoop u [] (by simp)

theorem signed_digit {d : UInt8} (hd : isDigit d) : signed (d :: ds) = (1, d :: ds) := by
  unfold signed
  split
  · rename_i heq
    injection heq with hd'
    subst hd'
    exact absurd hd (by decide)
  · rename_i heq
    injection heq with hd'
    subst hd'
    exact absurd hd (by decide)
  · rfl

theorem takeWhile_digits (h : ∀ d ∈ ds, isDigit d) : ds.takeWhile isDigit = ds := takeWhile_eq_self_iff.2 h

theorem dropWhile_digits (h : ∀ d ∈ ds, isDigit d) : ds.dropWhile isDigit = [] := dropWhile_eq_nil_iff.2 h

theorem Numeral.atoi (h : Numeral ds) : atoi ds = value ds := by
  obtain ⟨hne, -, hdigit, hlt⟩ := h
  cases ds with
  | nil => exact absurd rfl hne
  | cons d ds =>
    have hd := hdigit d mem_cons_self
    have hblank : ¬ (d = 32 ∨ d = 9 ∨ d = 10) := by
      rintro (rfl | rfl | rfl) <;> exact absurd hd (by decide)
    unfold Accounts.atoi
    rw [dropWhile_cons_of_neg (by simpa using hblank), signed_digit hd]
    dsimp only
    rw [takeWhile_digits hdigit]
    unfold int32
    omega

theorem Numeral.atoiS (h : Numeral ds) : atoiS ds = value ds := by
  obtain ⟨hne, -, hdigit, hlt⟩ := h
  cases ds with
  | nil => exact absurd rfl hne
  | cons d ds =>
    have hd := hdigit d mem_cons_self
    have hblank : ¬ (d = 32 ∨ (9 ≤ d ∧ d ≤ 13)) := by
      unfold isDigit at hd
      rintro (rfl | ⟨-, hle⟩)
      · exact absurd hd (by decide)
      · have hge : 48 ≤ d := (of_decide_eq_true hd).1
        exact absurd (UInt8.le_trans hge hle) (by decide)
    unfold Accounts.atoiS
    rw [dropWhile_cons_of_neg (by simpa using hblank), signed_digit hd]
    dsimp only
    rw [takeWhile_digits hdigit, dropWhile_digits hdigit, if_neg]
    · omega
    · simp
      omega

theorem Numeral.programUid (h : Numeral ds) : programUid ds = value ds := by
  unfold Accounts.programUid
  rw [if_neg h.ne_nil, h.atoi]

/-! ## The two files -/

def PasswdLine (l : List UInt8) : Prop := ∃ r : PasswdRec, r.line = l

def ShadowLine (l : List UInt8) : Prop := ∃ r : ShadowRec, r.line = l

theorem PasswdLine.line (h : PasswdLine l) : Line l := by
  obtain ⟨r, rfl⟩ := h
  exact r.line_ok

theorem ShadowLine.line (h : ShadowLine l) : Line l := by
  obtain ⟨r, rfl⟩ := h
  exact r.line_ok

structure Holds (db : Db) (pl sl : List (List UInt8)) : Prop where
  passwd : db.passwd = pl.flatten
  shadow : db.shadow = sl.flatten
  passwd_ok : ∀ l ∈ pl, PasswdLine l
  shadow_ok : ∀ l ∈ sl, ShadowLine l
  passwd_nodup : (pl.map user).Nodup
  shadow_nodup : (sl.map user).Nodup
  same : ∀ n, n ∈ pl.map user ↔ n ∈ sl.map user

variable {db : Db} {pl sl : List (List UInt8)} {n : List UInt8}

theorem Holds.lines_passwd (h : Holds db pl sl) : lines db.passwd = pl := by
  rw [h.passwd]
  exact lines_flatten fun l hl => (h.passwd_ok l hl).line

theorem Holds.lines_shadow (h : Holds db pl sl) : lines db.shadow = sl := by
  rw [h.shadow]
  exact lines_flatten fun l hl => (h.shadow_ok l hl).line

/-! ### A new account -/

theorem nextUid_spec {parse : List UInt8 → Int} (hparse : ∀ ds, Numeral ds → parse ds = value ds) :
    ∀ {pl : List (List UInt8)} {next : Nat}, (∀ l ∈ pl, PasswdLine l) → (∀ l ∈ pl, value (uidStr l) < 2 ^ 31 - 1) →
    next < 2 ^ 31 →
    n ∉ pl.map user → ∃ u : Nat, nextUid parse n pl next = some (u : Int) ∧ next ≤ u ∧ u < 2 ^ 31 ∧
    ∀ l ∈ pl, value (uidStr l) < u
  | [], next, _, _, hnext, _ => ⟨next, rfl, Nat.le_refl _, hnext, by simp⟩
  | l :: pl, next, hok, hbound, hnext, hn => by
    rw [map_cons, mem_cons, not_or] at hn
    have hnum : Numeral (uidStr l) := by
      obtain ⟨r, rfl⟩ := hok l mem_cons_self
      rw [r.uidStr_line]
      exact r.uid_ok
    have hlt := hbound l mem_cons_self
    rw [nextUid, if_neg (Ne.symm hn.1)]
    dsimp only
    rw [hparse _ hnum]
    -- the number the loop goes on with, as a natural number
    have hgo : (if (next : Int) ≤ (value (uidStr l) : Int) then int32 ((value (uidStr l) : Int) + 1) else (next : Int)) =
        ((max next (value (uidStr l) + 1) : Nat) : Int) := by
      unfold int32
      split <;> omega
    rw [hgo]
    obtain ⟨u, he, hle, hu, hall⟩ := nextUid_spec hparse (fun l hl => hok l (mem_cons_of_mem _ hl))
      (fun l hl => hbound l (mem_cons_of_mem _ hl)) (by omega : max next (value (uidStr l) + 1) < 2 ^ 31) hn.2
    refine ⟨u, he, by omega, hu, fun m hm => ?_⟩
    rcases mem_cons.1 hm with rfl | hm
    · omega
    · exact hall m hm

theorem nextUid_exists {parse : List UInt8 → Int} : ∀ {pl : List (List UInt8)} {next : Int}, n ∈ pl.map user →
    nextUid parse n pl next = none
  | l :: pl, next, hn => by
    rw [nextUid]
    by_cases hl : user l = n
    · rw [if_pos hl]
    · rw [if_neg hl]
      rw [map_cons, mem_cons] at hn
      exact nextUid_exists (hn.resolve_left (Ne.symm hl))

theorem passwdEntry_spec (hn : Name n) {u : Nat} (hpos : 0 < u) (hlt : u < 2 ^ 31) :
    PasswdLine (passwdEntry n u) ∧ user (passwdEntry n u) = n ∧ value (uidStr (passwdEntry n u)) = u ∧
      (passwdEntry n u).length ≤ MAX_LINE - 1 := by
  obtain ⟨hnum, hvalue, hlen⟩ := itoa_spec hpos hlt
  have hname := hn.length_le
  let r : PasswdRec := {
    name := n
    pass := [120]
    uid := itoa u
    gid := itoa u
    rest := [58, 47, 104, 111, 109, 101, 47] ++ n ++ [58, 47, 98, 105, 110, 47, 115, 104]
    name_ok := hn
    pass_ok := ⟨by decide, by decide, by decide⟩
    uid_ok := hnum
    gid_ok := hnum
    rest_ok := ⟨by simp [hn.newline], by simp [hn.nonzero]⟩
    fields := by simp [count_eq_zero_of_not_mem hn.colon]
    fits := by
      unfold MAX_LINE
      simp only [length_append, length_cons, length_nil]
      omega }
  have hline : r.line = passwdEntry n u := by simp [r, PasswdRec.line, passwdEntry]
  refine ⟨⟨r, hline⟩, ?_, ?_, ?_⟩
  · rw [← hline, r.user_line]
  · rw [← hline, r.uidStr_line]
    exact hvalue
  · unfold passwdEntry MAX_LINE
    simp only [length_append, length_cons, length_nil]
    omega

variable {hash : List UInt8}

theorem shadowEntry_spec (hn : Name n) (hok : Field hash) (hle : hash.length ≤ 64) :
    ShadowLine (shadowEntry n hash) ∧ user (shadowEntry n hash) = n ∧ storedHash (shadowEntry n hash) = hash ∧
      (shadowEntry n hash).length ≤ MAX_LINE - 1 := by
  have hname := hn.length_le
  let r : ShadowRec := {
    name := n
    hash := hash
    rest := defaultAges
    name_ok := hn
    hash_ok := hok
    hash_le := hle
    rest_ok := ⟨by decide, by decide⟩
    fields := by decide
    fits := by
      unfold MAX_LINE defaultAges
      simp only [length_cons, length_nil]
      omega }
  have hline : r.line = shadowEntry n hash := rfl
  refine ⟨⟨r, hline⟩, ?_, ?_, ?_⟩
  · rw [← hline, r.user_line]
  · rw [← hline, r.storedHash_line]
  · unfold shadowEntry MAX_LINE defaultAges
    simp only [length_append, length_cons, length_nil]
    omega

theorem Holds.add (h : Holds db pl sl) (hnew : n ∉ pl.map user) {p s : List UInt8} (hp : PasswdLine p) (hs : ShadowLine s)
    (hpu : user p = n) (hsu : user s = n) : Holds ⟨db.passwd ++ p, db.shadow ++ s⟩ (pl ++ [p]) (sl ++ [s]) := by
  have hnew' : n ∉ sl.map user := fun hmem => hnew ((h.same n).2 hmem)
  have hnodup : ∀ {ls : List (List UInt8)} {l : List UInt8}, (ls.map user).Nodup → user l = n → n ∉ ls.map user →
      ((ls ++ [l]).map user).Nodup := by
    intro ls l hls hl hmem
    rw [map_append, nodup_append]
    refine ⟨hls, nodup_singleton _, ?_⟩
    intro a ha b hb hab
    rw [map_singleton, mem_singleton, hl] at hb
    exact hmem (hb ▸ hab ▸ ha)
  refine ⟨?_, ?_, ?_, ?_, hnodup h.passwd_nodup hpu hnew, hnodup h.shadow_nodup hsu hnew', fun m => ?_⟩
  · rw [h.passwd, flatten_append, flatten_singleton]
  · rw [h.shadow, flatten_append, flatten_singleton]
  · intro l hl
    rcases mem_append.1 hl with hl | hl
    · exact h.passwd_ok l hl
    · exact mem_singleton.1 hl ▸ hp
  · intro l hl
    rcases mem_append.1 hl with hl | hl
    · exact h.shadow_ok l hl
    · exact mem_singleton.1 hl ▸ hs
  · rw [map_append, map_append, mem_append, mem_append, h.same m, map_singleton, map_singleton, hpu, hsu]

/-! ### An account less, and another password -/

theorem removeUser_spec {split : List UInt8 → List (List UInt8)} (hsplit : split ls.flatten = ls) :
    removeUser split ls.flatten n = (ls.filter fun l => user l ≠ n).flatten := by
  unfold removeUser
  rw [hsplit]
  by_cases hany : ls.any fun l => user l = n
  · rw [if_pos hany]
  · rw [if_neg hany, filter_eq_self.2]
    intro l hl
    rw [Bool.not_eq_true, any_eq_false] at hany
    simpa using hany l hl

theorem mem_map_filter {m : List UInt8} : m ∈ (ls.filter fun l => user l ≠ n).map user ↔ m ∈ ls.map user ∧ m ≠ n := by
  simp only [mem_map, mem_filter, decide_not, Bool.not_eq_true', decide_eq_false_iff_not]
  constructor
  · rintro ⟨l, ⟨hl, hne⟩, rfl⟩
    exact ⟨⟨l, hl, rfl⟩, hne⟩
  · rintro ⟨⟨l, hl, rfl⟩, hne⟩
    exact ⟨l, ⟨hl, hne⟩, rfl⟩

theorem Holds.remove (h : Holds db pl sl) (n : List UInt8) :
    Holds ⟨(pl.filter fun l => user l ≠ n).flatten, (sl.filter fun l => user l ≠ n).flatten⟩ (pl.filter fun l => user l ≠ n)
      (sl.filter fun l => user l ≠ n) := by
  refine ⟨rfl, rfl, fun l hl => h.passwd_ok l (mem_of_mem_filter hl), fun l hl => h.shadow_ok l (mem_of_mem_filter hl),
    h.passwd_nodup.sublist (filter_sublist.map user), h.shadow_nodup.sublist (filter_sublist.map user), fun m => ?_⟩
  rw [mem_map_filter, mem_map_filter, h.same m]

def rehash (n hash : List UInt8) (ls : List (List UInt8)) : List (List UInt8) :=
  ls.map fun l => if user l = n then newEntry l hash else l

theorem setPassword_spec {split : List UInt8 → List (List UInt8)} (hsplit : split ls.flatten = ls)
    (hash : List UInt8) : setPassword split ls.flatten n hash = (rehash n hash ls).flatten := by
  unfold setPassword
  rw [hsplit]
  by_cases hany : ls.any fun l => user l = n
  · rw [if_pos hany, rehash]
  · rw [if_neg hany]
    have hsame : rehash n hash ls = ls := by
      rw [Bool.not_eq_true, any_eq_false] at hany
      unfold rehash
      rw [map_congr_left (g := id), map_id]
      intro l hl
      have hne : user l ≠ n := by simpa using hany l hl
      rw [if_neg hne]
      rfl
    rw [hsame]

def Room (n hash : List UInt8) (ls : List (List UInt8)) : Prop :=
  ∀ l ∈ ls, user l = n → (restOfLine l 0 []).length + n.length + hash.length + 2 < MAX_LINE

theorem rehash_line (hok : Field hash) (hle : hash.length ≤ 64) (hl : ShadowLine l)
    (hroom : user l = n → (restOfLine l 0 []).length + n.length + hash.length + 2 < MAX_LINE) :
    ShadowLine (if user l = n then newEntry l hash else l) ∧ user (if user l = n then newEntry l hash else l) = user l ∧
      (user l = n → storedHash (if user l = n then newEntry l hash else l) = hash) := by
  by_cases hn : user l = n
  · rw [if_pos hn]
    obtain ⟨r, rfl⟩ := hl
    have hfits := hroom hn
    rw [r.restOfLine_line, length_cons, ← hn, r.user_line] at hfits
    have hentry := r.newEntry_line hash hok hle (by omega)
    rw [hentry]
    refine ⟨⟨_, rfl⟩, ?_, fun _ => ?_⟩
    · rw [ShadowRec.user_line, r.user_line]
      rfl
    · rw [ShadowRec.storedHash_line]
      rfl
  · rw [if_neg hn]
    exact ⟨hl, rfl, fun h => absurd h hn⟩

theorem Holds.change (h : Holds db pl sl) (hok : Field hash) (hle : hash.length ≤ 64) (hroom : Room n hash sl) :
    Holds { db with shadow := (rehash n hash sl).flatten } pl (rehash n hash sl) := by
  have husers : (rehash n hash sl).map user = sl.map user := by
    unfold rehash
    rw [map_map]
    apply map_congr_left
    intro l hl
    exact (rehash_line hok hle (h.shadow_ok l hl) (hroom l hl)).2.1
  refine ⟨h.passwd, rfl, h.passwd_ok, ?_, h.passwd_nodup, ?_, ?_⟩
  · intro l hl
    obtain ⟨m, hm, rfl⟩ := mem_map.1 hl
    exact (rehash_line hok hle (h.shadow_ok m hm) (hroom m hm)).1
  · rw [husers]
    exact h.shadow_nodup
  · rw [husers]
    exact h.same

end EterOS.Accounts
