import EterOS.Shell.AccountFiles
/-!
# AccountRuns — logging in after any run of account commands

`Keys` is what the commands are for: it knows, of every account, the password last set for it, or only the hash it came with.
-/
namespace EterOS.Accounts

open List Function
open Fs (CStr)

/-- What opens an account: the password last set, or one with the hash the account came with. -/
inductive Key where
  | stored (hash : List UInt8)
  | password (p : List UInt8)

def Key.hash : Key → List UInt8
  | .stored hash => hash
  | .password p => hashStr p

def Key.Opens (pw : List UInt8) : Key → Prop
  | .stored hash => hashStr pw = hash
  | .password p => pw = p

/-- The password is not another one with the hash of the key's. -/
def Key.Clear (pw : List UInt8) : Key → Prop
  | .stored _ => True
  | .password p => hashStr pw = hashStr p → pw = p

abbrev Keys := List UInt8 → Option Key

namespace Keys

def add (keys : Keys) (n p : List UInt8) : Keys :=
  if n = [] ∨ (keys n).isSome then keys else Function.update keys n (some (.password p))

def del (keys : Keys) (n : List UInt8) : Keys := if n = root then keys else Function.update keys n none

def set (keys : Keys) (n p : List UInt8) : Keys :=
  if (keys n).isSome then Function.update keys n (some (.password p)) else keys

end Keys

def splitArgs (args : List UInt8) : List UInt8 × List UInt8 := (args.takeWhile (· ≠ 32), (args.dropWhile (· ≠ 32)).drop 1)

namespace Command

def about : Command → List UInt8
  | .userAdd args | .userPasswd args => (splitArgs args.bytes).1
  | .userDel args => args.bytes
  | .useradd username _ | .userdel username | .passwd username _ => username.bytes

def meant (keys : Keys) : Command → Keys
  | .userAdd args => keys.add (splitArgs args.bytes).1 (splitArgs args.bytes).2
  | .userDel args => keys.del args.bytes
  | .userPasswd args => keys.set (splitArgs args.bytes).1 (splitArgs args.bytes).2
  | .useradd username typed => keys.add username.bytes typed.bytes
  | .userdel username => keys.del username.bytes
  | .passwd username typed => keys.set username.bytes typed.bytes

end Command

structure State where
  db : Db
  keys : Keys

namespace State

def start (db : Db) : State where
  db := db
  keys n := ((lines db.shadow).find? fun l => user l = n).map fun l => .stored (storedHash l)

def step (s : State) (c : Command) : State := ⟨c.run s.db, c.meant s.keys⟩

end State

/-- **Both files are sequences of well-formed records**, of the same names, none of them twice. -/
def Db.WellFormed (db : Db) : Prop := ∃ pl sl, Holds db pl sl

def Db.names (db : Db) : List (List UInt8) := (lines db.passwd).map user

/-- A command about `n`: the records of the others are the same, and a new account has a new number, not below 1000. -/
structure Kept (db db' : Db) (n : List UInt8) : Prop where
  passwd : ((lines db'.passwd).filter fun l => user l ≠ n) = (lines db.passwd).filter fun l => user l ≠ n
  shadow : ((lines db'.shadow).filter fun l => user l ≠ n) = (lines db.shadow).filter fun l => user l ≠ n
  fresh : ∀ l ∈ lines db'.passwd, user l ∉ db.names →
    1000 ≤ value (uidStr l) ∧ ∀ m ∈ lines db.passwd, value (uidStr m) ≠ value (uidStr l)

def typed (name pw : List UInt8) : List UInt8 := name ++ 10 :: (pw ++ [10])

/-- **`login`** lets in whoever gives an account and what opens it, and with the number of that account. -/
def State.LogsIn (s : State) : Prop :=
  ∀ name pw : CStr, 10 ∉ name.bytes → 10 ∉ pw.bytes → name.bytes.length ≤ 30 → pw.bytes.length ≤ 31 →
    (∀ key, s.keys name.bytes = some key → key.Clear pw.bytes) →
    ∀ uid : Int, (∃ gid, login s.db (typed name.bytes pw.bytes) = some (uid, gid)) ↔
      ∃ key, s.keys name.bytes = some key ∧ key.Opens pw.bytes ∧ ∃ l ∈ lines s.db.passwd, user l = name.bytes ∧
      uid = value (uidStr l)

def Db.UidLeft (db : Db) : Prop := ∀ l ∈ lines db.passwd, value (uidStr l) < 2 ^ 31 - 1

/-- The commands that do what they are for: a new name is a name, a name and a password are at most 31 characters, and the
line of an account has room for its new hash. -/
def Sound (s : State) : Command → Prop
  | .userAdd args =>
    (splitArgs args.bytes).1 = [] ∨ (splitArgs args.bytes).1 ∈ s.db.names ∨
      Name (splitArgs args.bytes).1 ∧ (splitArgs args.bytes).2.length ≤ 31 ∧ s.db.UidLeft
  | .userPasswd args =>
    (splitArgs args.bytes).1.take 31 ∉ s.db.names ∨ (splitArgs args.bytes).1.length ≤ 31 ∧
      (splitArgs args.bytes).2.length ≤ 31 ∧
        Room (splitArgs args.bytes).1 (hashStr (splitArgs args.bytes).2) (lines s.db.shadow)
  | .useradd username typed =>
    username.bytes ∈ s.db.names ∨ Name username.bytes ∧ 10 ∉ typed.bytes ∧ typed.bytes.length ≤ 31 ∧ s.db.UidLeft
  | .passwd username typed =>
    username.bytes ∉ s.db.names ∨
      10 ∉ typed.bytes ∧ typed.bytes.length ≤ 31 ∧ Room username.bytes (hashStr typed.bytes) (lines s.db.shadow)
  | .userDel _ | .userdel _ => True

/-! ## The hash -/

variable {p : List UInt8}

theorem sha256_length_le : (sha256 p).length ≤ 32 := by
  unfold sha256
  split
  · exact Nat.le_of_eq Buffer.length_list
  · exact Nat.zero_le _

theorem hashStr_nil : hashStr [] = [] := if_pos rfl

theorem hashStr_length : (hashStr p).length ≤ 64 := by
  have hlen := sha256_length_le (p := p)
  unfold hashStr
  split
  · exact Nat.zero_le _
  · rw [length_flatMap]
    change (map (fun _ => 2) (sha256 p)).sum ≤ 64
    rw [map_const', sum_replicate_nat]
    omega

theorem hashStr_field : Field (hashStr p) := by
  have hchar : ∀ n < 16, hexChar n ≠ 58 ∧ hexChar n ≠ 10 ∧ hexChar n ≠ 0 := by decide
  have hall : ∀ c ∈ hashStr p, c ≠ 58 ∧ c ≠ 10 ∧ c ≠ 0 := by
    unfold hashStr
    split
    · simp
    · intro c hc
      obtain ⟨b, -, hb⟩ := mem_flatMap.1 hc
      have hlt := b.toNat_lt
      rcases mem_cons.1 hb with rfl | hb
      · exact hchar _ (by omega)
      · rw [mem_singleton.1 hb]
        exact hchar _ (by omega)
  exact ⟨fun hc => (hall _ hc).1 rfl, fun hc => (hall _ hc).2.1 rfl, fun hc => (hall _ hc).2.2 rfl⟩

/-! ## The accounts and the shadow file -/

structure KeysOk (keys : Keys) (sl : List (List UInt8)) : Prop where
  known : ∀ l ∈ sl, ∃ key, keys (user l) = some key ∧ storedHash l = key.hash
  only : ∀ n, n ∉ sl.map user → keys n = none

variable {db : Db} {keys : Keys} {pl sl : List (List UInt8)} {n p : List UInt8}

theorem KeysOk.isSome_iff (h : KeysOk keys sl) : (keys n).isSome ↔ n ∈ sl.map user := by
  constructor
  · intro hsome
    by_contra hn
    rw [h.only n hn] at hsome
    exact absurd hsome (by decide)
  · intro hn
    obtain ⟨l, hl, rfl⟩ := mem_map.1 hn
    obtain ⟨key, hkey, -⟩ := h.known l hl
    rw [hkey]
    rfl

theorem Key.opens_iff {key : Key} (hclear : key.Clear p) : key.Opens p ↔ key.hash = hashStr p := by
  cases key with
  | stored hash => exact eq_comm
  | password q =>
    show p = q ↔ hashStr q = hashStr p
    constructor
    · rintro rfl
      rfl
    · intro h
      exact hclear h.symm

/-! ### Logging in -/

theorem readTyped_line (h10 : 10 ∉ p) (h0 : 0 ∉ p) (hlen : p.length ≤ 31) (rest : List UInt8) :
    readTyped (p ++ 10 :: rest) = p := by
  have htake : p.takeWhile (· ≠ 0) = p := by
    rw [takeWhile_eq_self_iff]
    intro c hc
    have hne : c ≠ 0 := fun h => h0 (h ▸ hc)
    simpa using hne
  unfold readTyped
  dsimp only
  by_cases hlt : p.length < 31
  · rw [Records.cutLine_append rest h10 hlt, List.getLast?_concat, if_pos rfl, dropLast_concat, htake]
  · rw [Records.cutLine_full (10 :: rest) h10 (by omega), if_neg, htake]
    intro hlast
    exact h10 (mem_of_getLast? hlast)

variable {ls : List (List UInt8)} {l : List UInt8}

theorem find_user (hnodup : (ls.map user).Nodup) (hl : l ∈ ls) : (ls.find? fun m => user m = user l) = some l := by
  rcases hfind : ls.find? fun m => user m = user l with _ | m
  · rw [List.find?_eq_none] at hfind
    exact absurd (decide_eq_true rfl) (hfind l hl)
  · have hm := mem_of_find?_eq_some hfind
    have huser : user m = user l := by simpa using List.find?_some hfind
    rw [inj_on_of_nodup_map hnodup hm hl huser]

theorem find_user_none (hn : n ∉ ls.map user) : (ls.find? fun m => user m = n) = none := by
  rw [List.find?_eq_none]
  intro m hm
  have hne : user m ≠ n := fun h => hn (mem_map.2 ⟨m, hm, h⟩)
  simpa using hne

theorem login_typed (h : Holds db pl sl) (hn10 : 10 ∉ n) (hn0 : 0 ∉ n) (hp10 : 10 ∉ p) (hp0 : 0 ∉ p) (hn : n.length ≤ 30)
    (hp : p.length ≤ 31) {e : List UInt8} (hl : l ∈ pl) (he : e ∈ sl) (hlu : user l = n) (heu : user e = n) :
    login db (typed n p) = if storedHash e = hashStr p then some (programUid (uidStr l), programUid (gidStr l))
    else none := by
  have hne : n ≠ [] := by
    obtain ⟨r, rfl⟩ := h.passwd_ok l hl
    rw [← hlu, r.user_line]
    exact r.name_ok.ne_nil
  have hname : readTyped (typed n p) = n := readTyped_line hn10 hn0 (by omega) _
  have hrest : (typed n p).drop (Records.cutLine 10 31 (typed n p)).length = p ++ [10] := by
    unfold typed
    rw [Records.cutLine_append _ hn10 (by omega)]
    have happ : n ++ 10 :: (p ++ [10]) = (n ++ [10]) ++ (p ++ [10]) := by simp
    rw [happ, drop_left]
  have hpw : readTyped (p ++ [10]) = p := readTyped_line hp10 hp0 hp []
  unfold login
  dsimp only
  rw [hname, if_neg hne, hrest, hpw, h.lines_passwd, h.lines_shadow]
  have hfl := find_user h.passwd_nodup hl
  have hfe := find_user h.shadow_nodup he
  rw [hlu] at hfl
  rw [heu] at hfe
  rw [hfl, hfe]
  dsimp only
  have hiff : (storedHash e = [] ∧ p = [] ∨ storedHash e = hashStr p) ↔ storedHash e = hashStr p := by
    constructor
    · rintro (⟨hnil, rfl⟩ | heq)
      · rw [hnil, hashStr_nil]
      · exact heq
    · exact Or.inr
  simp [hiff]

theorem login_unknown (h : Holds db pl sl) (hn10 : 10 ∉ n) (hn0 : 0 ∉ n) (hn : n.length ≤ 30) (hnew : n ∉ pl.map user) :
    login db (typed n p) = none := by
  have hname : readTyped (typed n p) = n := readTyped_line hn10 hn0 (by omega) _
  unfold login
  dsimp only
  rw [hname, h.lines_passwd, find_user_none hnew]
  exact ite_self _

variable {s : State}

theorem Holds.logsIn (h : Holds s.db pl sl) (hk : KeysOk s.keys sl) : s.LogsIn := by
  intro name pw hn10 hp10 hn hp hclear uid
  rw [h.lines_passwd]
  by_cases hmem : name.bytes ∈ pl.map user
  · obtain ⟨l, hl, hlu⟩ := mem_map.1 hmem
    obtain ⟨e, he, heu⟩ := mem_map.1 ((h.same _).1 hmem)
    obtain ⟨key, hkey, hhash⟩ := hk.known e he
    rw [heu] at hkey
    have hnum : Numeral (uidStr l) := by
      obtain ⟨r, rfl⟩ := h.passwd_ok l hl
      rw [r.uidStr_line]
      exact r.uid_ok
    rw [login_typed h hn10 name.nonzero hp10 pw.nonzero hn hp hl he hlu heu, hhash]
    constructor
    · rintro ⟨gid, hlogin⟩
      by_cases hopen : key.hash = hashStr pw.bytes
      · rw [if_pos hopen] at hlogin
        injection hlogin with hlogin
        injection hlogin with huid
        refine ⟨key, hkey, (key.opens_iff (hclear key hkey)).2 hopen, l, hl, hlu, ?_⟩
        rw [← huid, hnum.programUid]
      · rw [if_neg hopen] at hlogin
        exact absurd hlogin (by simp)
    · rintro ⟨key', hkey', hopens, m, hm, hmu, rfl⟩
      rw [hkey] at hkey'
      injection hkey' with hkey'
      subst hkey'
      have hlm : m = l := inj_on_of_nodup_map h.passwd_nodup hm hl (hmu.trans hlu.symm)
      rw [if_pos ((key.opens_iff (hclear key hkey)).1 hopens), hlm, hnum.programUid]
      exact ⟨_, rfl⟩
  · rw [login_unknown h hn10 name.nonzero hn hmem]
    constructor
    · rintro ⟨gid, hlogin⟩
      exact absurd hlogin (by simp)
    · rintro ⟨key, -, -, m, hm, hmu, -⟩
      exact absurd (mem_map.2 ⟨m, hm, hmu⟩) hmem

/-! ## Commands -/

def State.Inv (s : State) : Prop := ∃ pl sl, Holds s.db pl sl ∧ KeysOk s.keys sl

theorem Kept.refl : Kept db db n := ⟨rfl, rfl, fun l hl hnew => absurd (mem_map.2 ⟨l, hl, rfl⟩) hnew⟩

theorem Holds.names_eq (h : Holds db pl sl) : db.names = pl.map user := by
  unfold Db.names
  rw [h.lines_passwd]

theorem filter_concat (hl : user l = n) : ((ls ++ [l]).filter fun m => user m ≠ n) = ls.filter fun m => user m ≠ n := by
  rw [filter_append, filter_cons_of_neg (by simp [hl]), filter_nil, append_nil]

theorem KeysOk.put (hk : KeysOk keys sl) {sl' : List (List UInt8)} (hn : n ∈ sl'.map user)
    (hold : ∀ l ∈ sl', user l ≠ n → l ∈ sl) (hnew : ∀ l ∈ sl', user l = n → storedHash l = hashStr p)
    (hall : ∀ m ∈ sl.map user, m ∈ sl'.map user) : KeysOk (Function.update keys n (some (.password p))) sl' := by
  refine ⟨fun l hl => ?_, fun m hm => ?_⟩
  · by_cases hln : user l = n
    · rw [hln, update_self]
      exact ⟨_, rfl, hnew l hl hln⟩
    · rw [update_of_ne hln]
      exact hk.known l (hold l hl hln)
  · have hmn : m ≠ n := fun h => hm (h ▸ hn)
    rw [update_of_ne hmn]
    exact hk.only m fun hmem => hm (hall m hmem)

theorem KeysOk.drop (hk : KeysOk keys sl) (n : List UInt8) :
    KeysOk (Function.update keys n none) (sl.filter fun l => user l ≠ n) := by
  refine ⟨fun l hl => ?_, fun m hm => ?_⟩
  · have hne : user l ≠ n := by simpa using (mem_filter.1 hl).2
    rw [update_of_ne hne]
    exact hk.known l (mem_of_mem_filter hl)
  · by_cases hmn : m = n
    · rw [hmn, update_self]
    · rw [update_of_ne hmn]
      exact hk.only m fun hmem => hm (mem_map_filter.2 ⟨hmem, hmn⟩)

theorem Holds.added (h : Holds db pl sl) (hk : KeysOk keys sl) (hname : Name n) (hnew : n ∉ pl.map user)
    {u : Nat} (hu : 1000 ≤ u) (hlt : u < 2 ^ 31) (hall : ∀ l ∈ pl, value (uidStr l) < u) :
    State.Inv ⟨⟨db.passwd ++ passwdEntry n u, db.shadow ++ shadowEntry n (hashStr p)⟩,
      Function.update keys n (some (.password p))⟩ ∧
      Kept db ⟨db.passwd ++ passwdEntry n u, db.shadow ++ shadowEntry n (hashStr p)⟩ n := by
  obtain ⟨hpl, hpu, hvalue, -⟩ := passwdEntry_spec hname (by omega) hlt
  obtain ⟨hsl, hsu, hstored, -⟩ := shadowEntry_spec hname hashStr_field (hashStr_length (p := p))
  have hadd := h.add hnew hpl hsl hpu hsu
  refine ⟨⟨_, _, hadd, hk.put ?_ ?_ ?_ ?_⟩, ?_, ?_, ?_⟩
  · rw [map_append, map_singleton, hsu]
    exact mem_append_right _ (mem_singleton_self n)
  · intro l hl hln
    rcases mem_append.1 hl with hl | hl
    · exact hl
    · exact absurd (mem_singleton.1 hl ▸ hsu) hln
  · intro l hl hln
    rcases mem_append.1 hl with hl | hl
    · exact absurd ((h.same n).2 (mem_map.2 ⟨l, hl, hln⟩)) hnew
    · rw [mem_singleton.1 hl, hstored]
  · intro m hm
    rw [map_append]
    exact mem_append_left _ hm
  · rw [hadd.lines_passwd, h.lines_passwd]
    exact filter_concat hpu
  · rw [hadd.lines_shadow, h.lines_shadow]
    exact filter_concat hsu
  · rw [hadd.lines_passwd, h.lines_passwd, h.names_eq]
    intro l hl hfresh
    rcases mem_append.1 hl with hl | hl
    · exact absurd (mem_map.2 ⟨l, hl, rfl⟩) hfresh
    · rw [mem_singleton.1 hl, hvalue]
      exact ⟨hu, fun m hm => Nat.ne_of_lt (hall m hm)⟩

theorem Holds.removed (h : Holds db pl sl) (hk : KeysOk keys sl) (n : List UInt8) :
    State.Inv ⟨⟨(pl.filter fun l => user l ≠ n).flatten, (sl.filter fun l => user l ≠ n).flatten⟩,
      Function.update keys n none⟩ ∧
      Kept db ⟨(pl.filter fun l => user l ≠ n).flatten, (sl.filter fun l => user l ≠ n).flatten⟩ n := by
  have hrem := h.remove n
  refine ⟨⟨_, _, hrem, hk.drop n⟩, ?_, ?_, ?_⟩
  · rw [hrem.lines_passwd, h.lines_passwd, filter_filter]
    simp
  · rw [hrem.lines_shadow, h.lines_shadow, filter_filter]
    simp
  · rw [hrem.lines_passwd, h.names_eq]
    intro l hl hfresh
    exact absurd (mem_map.2 ⟨l, mem_of_mem_filter hl, rfl⟩) hfresh

theorem filter_rehash {hash : List UInt8} : ∀ {ls : List (List UInt8)},
    (∀ l ∈ ls, user (if user l = n then newEntry l hash else l) = user l) →
    ((rehash n hash ls).filter fun l => user l ≠ n) = ls.filter fun l => user l ≠ n
  | [], _ => rfl
  | l :: ls, h => by
    have hl := h l mem_cons_self
    have hls := filter_rehash fun l hl => h l (mem_cons_of_mem _ hl)
    unfold rehash at hls ⊢
    rw [map_cons]
    by_cases hln : user l = n
    · have hnew : user (newEntry l hash) = n := by
        rw [if_pos hln] at hl
        exact hl.trans hln
      rw [if_pos hln, filter_cons_of_neg (by simp [hnew]), filter_cons_of_neg (by simp [hln]), hls]
    · rw [if_neg hln, filter_cons_of_pos (by simp [hln]), filter_cons_of_pos (by simp [hln]), hls]

theorem Holds.changed (h : Holds db pl sl) (hk : KeysOk keys sl) (hn : n ∈ sl.map user)
    (hroom : Room n (hashStr p) sl) :
    State.Inv ⟨{ db with shadow := (rehash n (hashStr p) sl).flatten }, Function.update keys n (some (.password p))⟩ ∧
      Kept db { db with shadow := (rehash n (hashStr p) sl).flatten } n := by
  have hlines := fun l hl => rehash_line (hashStr_field (p := p)) hashStr_length (h.shadow_ok l hl) (hroom l hl)
  have hre := h.change hashStr_field hashStr_length hroom
  have husers : (rehash n (hashStr p) sl).map user = sl.map user := by
    unfold rehash
    rw [map_map]
    exact map_congr_left fun l hl => (hlines l hl).2.1
  refine ⟨⟨_, _, hre, hk.put ?_ ?_ ?_ ?_⟩, rfl, ?_, fun l hl hfresh => absurd (mem_map.2 ⟨l, hl, rfl⟩) hfresh⟩
  · rw [husers]
    exact hn
  · intro l hl hln
    obtain ⟨m, hm, rfl⟩ := mem_map.1 hl
    rw [(hlines m hm).2.1] at hln
    rw [if_neg hln]
    exact hm
  · intro l hl hln
    obtain ⟨m, hm, rfl⟩ := mem_map.1 hl
    rw [(hlines m hm).2.1] at hln
    exact (hlines m hm).2.2 hln
  · intro m hm
    rw [husers]
    exact hm
  · rw [hre.lines_shadow, h.lines_shadow]
    exact filter_rehash fun l hl => (hlines l hl).2.1

theorem Holds.name_of_mem (h : Holds db pl sl) (hn : n ∈ pl.map user) : Name n := by
  obtain ⟨l, hl, rfl⟩ := mem_map.1 hn
  obtain ⟨r, rfl⟩ := h.passwd_ok l hl
  rw [r.user_line]
  exact r.name_ok

theorem drop_name : ∀ args : List UInt8, args.drop (args.takeWhile (· ≠ 32)).length = args.dropWhile (· ≠ 32) ∧
    (args.dropWhile (· ≠ 32) = [] ∨ ∃ rest, args.dropWhile (· ≠ 32) = 32 :: rest)
  | [] => ⟨rfl, Or.inl rfl⟩
  | c :: args => by
    by_cases hc : c = 32
    · rw [hc, takeWhile_cons_of_neg (by decide), dropWhile_cons_of_neg (by decide)]
      exact ⟨rfl, Or.inr ⟨args, rfl⟩⟩
    · rw [takeWhile_cons_of_pos (by simpa using hc), dropWhile_cons_of_pos (by simpa using hc)]
      exact drop_name args

theorem shellArgs_eq {args : List UInt8} (hlen : (splitArgs args).1.length ≤ 31) :
    shellArgs args = ((splitArgs args).1, (splitArgs args).2.take 31) := by
  obtain ⟨hdrop, hrest⟩ := drop_name args
  unfold splitArgs at hlen ⊢
  unfold shellArgs
  dsimp only at hlen ⊢
  rw [take_of_length_le hlen, hdrop]
  rcases hrest with hnil | ⟨rest, hcons⟩
  · rw [hnil]
    rfl
  · rw [hcons]
    rfl

theorem shellArgs_fst (args : List UInt8) : (shellArgs args).1 = (splitArgs args).1.take 31 := rfl

theorem State.Inv.exists (hs : s.Inv) (hn : n ∈ s.db.names) (parse : List UInt8 → Int) (next : Int) (p : List UInt8) :
    nextUid parse n (lines s.db.passwd) next = none ∧ s.keys.add n p = s.keys := by
  obtain ⟨pl, sl, h, hk⟩ := hs
  rw [h.names_eq] at hn
  rw [h.lines_passwd]
  exact ⟨nextUid_exists hn, if_pos (Or.inr (hk.isSome_iff.2 ((h.same n).1 hn)))⟩

theorem State.Inv.create (hs : s.Inv) {parse : List UInt8 → Int} (hparse : ∀ ds, Numeral ds → parse ds = value ds)
    (hnew : n ∉ s.db.names) (hname : Name n) (huid : s.db.UidLeft) :
    ∃ u : Nat, nextUid parse n (lines s.db.passwd) 1000 = some (u : Int) ∧ 0 < u ∧ u < 2 ^ 31 ∧
      State.Inv ⟨⟨s.db.passwd ++ passwdEntry n u, s.db.shadow ++ shadowEntry n (hashStr p)⟩, s.keys.add n p⟩ ∧
      Kept s.db ⟨s.db.passwd ++ passwdEntry n u, s.db.shadow ++ shadowEntry n (hashStr p)⟩ n := by
  obtain ⟨pl, sl, h, hk⟩ := hs
  rw [h.names_eq] at hnew
  unfold Db.UidLeft at huid
  rw [h.lines_passwd] at huid ⊢
  obtain ⟨u, hu, hle, hlt, hall⟩ := nextUid_spec hparse h.passwd_ok huid (by decide : 1000 < 2 ^ 31) hnew
  have hnone : ¬ (n = [] ∨ (s.keys n).isSome) := by
    rw [hk.isSome_iff, ← h.same n]
    exact not_or.2 ⟨hname.ne_nil, hnew⟩
  unfold Keys.add
  rw [if_neg hnone]
  exact ⟨u, hu, by omega, hlt, h.added hk hname hnew hle hlt hall⟩

variable {split : List UInt8 → List (List UInt8)}

theorem State.Inv.absent (hs : s.Inv)
    (hsplit : ∀ ls : List (List UInt8), (∀ l ∈ ls, Line l) → split ls.flatten = ls) (hn : n ∉ s.db.names)
      (hash p : List UInt8) :
    setPassword split s.db.shadow n hash = s.db.shadow ∧ s.keys.set n p = s.keys := by
  obtain ⟨pl, sl, h, hk⟩ := hs
  rw [h.names_eq, h.same n] at hn
  constructor
  · unfold setPassword
    rw [h.shadow, hsplit sl fun l hl => (h.shadow_ok l hl).line, if_neg]
    rw [Bool.not_eq_true, any_eq_false]
    intro l hl
    have hne : user l ≠ n := fun hl' => hn (mem_map.2 ⟨l, hl, hl'⟩)
    simpa using hne
  · exact if_neg fun hsome => hn (hk.isSome_iff.1 hsome)

theorem State.Inv.reset (hs : s.Inv)
    (hsplit : ∀ ls : List (List UInt8), (∀ l ∈ ls, Line l) → split ls.flatten = ls) (hn : n ∈ s.db.names)
    (hroom : Room n (hashStr p) (lines s.db.shadow)) :
    State.Inv ⟨{ s.db with shadow := setPassword split s.db.shadow n (hashStr p) }, s.keys.set n p⟩ ∧
      Kept s.db { s.db with shadow := setPassword split s.db.shadow n (hashStr p) } n := by
  obtain ⟨pl, sl, h, hk⟩ := hs
  have hset := setPassword_spec (n := n) (hsplit sl fun l hl => (h.shadow_ok l hl).line) (hashStr p)
  rw [← h.shadow] at hset
  rw [h.names_eq, h.same n] at hn
  rw [h.lines_shadow] at hroom
  unfold Keys.set
  rw [hset, if_pos (hk.isSome_iff.2 hn)]
  exact h.changed hk hn hroom

theorem State.Inv.delete (hs : s.Inv)
    (hsplit : ∀ ls : List (List UInt8), (∀ l ∈ ls, Line l) → split ls.flatten = ls) (hroot : n ≠ root) :
    State.Inv ⟨⟨removeUser split s.db.passwd n, removeUser split s.db.shadow n⟩, s.keys.del n⟩ ∧
      Kept s.db ⟨removeUser split s.db.passwd n, removeUser split s.db.shadow n⟩ n := by
  obtain ⟨pl, sl, h, hk⟩ := hs
  have hpasswd := removeUser_spec (n := n) (hsplit pl fun l hl => (h.passwd_ok l hl).line)
  have hshadow := removeUser_spec (n := n) (hsplit sl fun l hl => (h.shadow_ok l hl).line)
  rw [← h.passwd] at hpasswd
  rw [← h.shadow] at hshadow
  unfold Keys.del
  rw [hpasswd, hshadow, if_neg hroot]
  exact h.removed hk n

theorem State.Inv.idle (hs : s.Inv) (hkeys : keys = s.keys) : State.Inv ⟨s.db, keys⟩ ∧ Kept s.db s.db n := by
  rw [hkeys]
  exact ⟨hs, Kept.refl⟩

theorem readTyped_self {t : CStr} (h10 : 10 ∉ t.bytes) (hlen : t.bytes.length ≤ 31) :
    readTyped (t.bytes ++ [10]) = t.bytes :=
  readTyped_line h10 t.nonzero hlen []

theorem State.Inv.step (hs : s.Inv) {c : Command} (hc : Sound s c) : (s.step c).Inv ∧ Kept s.db (s.step c).db c.about := by
  obtain ⟨pl, sl, h, hk⟩ := id hs
  have hnil : s.keys [] = none := by
    apply hk.only
    rw [← h.same]
    exact fun hmem => (h.name_of_mem hmem).ne_nil rfl
  cases c with
  | userAdd args =>
    show State.Inv ⟨cmdUseradd s.db args.bytes, s.keys.add (splitArgs args.bytes).1 (splitArgs args.bytes).2⟩ ∧
      Kept s.db (cmdUseradd s.db args.bytes) (splitArgs args.bytes).1
    unfold cmdUseradd
    by_cases hempty : (splitArgs args.bytes).1 = []
    · rw [shellArgs_eq (by rw [hempty]; exact Nat.zero_le _)]
      dsimp only
      rw [if_pos hempty]
      exact hs.idle (if_pos (Or.inl hempty))
    have hc := Or.resolve_left hc hempty
    by_cases hknown : (splitArgs args.bytes).1 ∈ s.db.names
    · obtain ⟨hnone, hkeys⟩ := hs.exists hknown atoiS 1000 (splitArgs args.bytes).2
      rw [h.names_eq] at hknown
      rw [shellArgs_eq (h.name_of_mem hknown).length_le]
      dsimp only
      rw [if_neg hempty, hnone]
      exact hs.idle hkeys
    · obtain ⟨hname, hp, huid⟩ := hc.resolve_left hknown
      obtain ⟨u, hu, -, -, hinv⟩ := hs.create (fun ds hds => hds.atoiS) hknown hname huid
      rw [shellArgs_eq hname.length_le]
      dsimp only
      rw [if_neg hempty, hu, take_of_length_le hp]
      exact hinv
  | userDel args =>
    show State.Inv ⟨cmdUserdel s.db args.bytes, _⟩ ∧ Kept s.db (cmdUserdel s.db args.bytes) args.bytes
    unfold cmdUserdel
    by_cases hnone : args.bytes = [] ∨ args.bytes = root
    · rw [if_pos hnone]
      apply hs.idle
      show s.keys.del args.bytes = s.keys
      unfold Keys.del
      by_cases hroot : args.bytes = root
      · rw [if_pos hroot]
      · rw [if_neg hroot, hnone.resolve_right hroot, ← hnil, update_eq_self]
    · rw [if_neg hnone]
      exact hs.delete (fun ls => bufferLines_flatten) (not_or.1 hnone).2
  | userPasswd args =>
    show State.Inv ⟨cmdPasswd s.db args.bytes, s.keys.set (splitArgs args.bytes).1 (splitArgs args.bytes).2⟩ ∧
      Kept s.db (cmdPasswd s.db args.bytes) (splitArgs args.bytes).1
    unfold cmdPasswd
    by_cases hknown : (splitArgs args.bytes).1.take 31 ∈ s.db.names
    · obtain ⟨hlen, hp, hroom⟩ := Or.resolve_left hc (not_not.2 hknown)
      rw [take_of_length_le hlen] at hknown
      rw [shellArgs_eq hlen]
      dsimp only
      rw [if_neg (h.name_of_mem (h.names_eq ▸ hknown)).ne_nil, take_of_length_le hp]
      exact hs.reset (fun ls => bufferLines_flatten) hknown hroom
    · have hkeys : s.keys.set (splitArgs args.bytes).1 (splitArgs args.bytes).2 = s.keys := by
        refine (hs.absent (fun ls => lines_flatten) (fun hmem => hknown ?_) [] _).2
        rw [take_of_length_le (h.name_of_mem (h.names_eq ▸ hmem)).length_le]
        exact hmem
      rcases hargs : shellArgs args.bytes with ⟨username, password⟩
      have husername : username = (splitArgs args.bytes).1.take 31 := by
        rw [← shellArgs_fst, hargs]
      dsimp only
      rw [husername, (hs.absent (fun ls => bufferLines_flatten) hknown (hashStr password) []).1, ite_self]
      exact hs.idle hkeys
  | useradd username typed =>
    show State.Inv ⟨useraddMain s.db username.bytes typed.bytes, s.keys.add username.bytes typed.bytes⟩ ∧
      Kept s.db (useraddMain s.db username.bytes typed.bytes) username.bytes
    unfold useraddMain
    by_cases hknown : username.bytes ∈ s.db.names
    · obtain ⟨hnone, hkeys⟩ := hs.exists hknown programUid 1000 typed.bytes
      rw [hnone]
      exact hs.idle hkeys
    · obtain ⟨hname, h10, hp, huid⟩ := Or.resolve_left hc hknown
      obtain ⟨u, hu, hpos, hlt, hinv⟩ := hs.create (fun ds hds => hds.programUid) hknown hname huid
      obtain ⟨-, -, -, hlen⟩ := passwdEntry_spec hname hpos hlt
      obtain ⟨-, -, -, hlen'⟩ := shadowEntry_spec hname hashStr_field (hashStr_length (p := typed.bytes))
      rw [hu, readTyped_self h10 hp]
      dsimp only
      rw [take_of_length_le hlen, take_of_length_le hlen', h.lines_passwd, h.lines_shadow, ← h.passwd, ← h.shadow]
      exact hinv
  | userdel username =>
    show State.Inv ⟨userdelMain s.db username.bytes, s.keys.del username.bytes⟩ ∧
      Kept s.db (userdelMain s.db username.bytes) username.bytes
    unfold userdelMain
    by_cases hroot : username.bytes = root
    · rw [if_pos hroot]
      exact hs.idle (if_pos hroot)
    · rw [if_neg hroot]
      exact hs.delete (fun ls => lines_flatten) hroot
  | passwd username typed =>
    show State.Inv ⟨passwdMain s.db username.bytes typed.bytes, s.keys.set username.bytes typed.bytes⟩ ∧
      Kept s.db (passwdMain s.db username.bytes typed.bytes) username.bytes
    unfold passwdMain
    by_cases hknown : username.bytes ∈ s.db.names
    · obtain ⟨h10, hp, hroom⟩ := Or.resolve_left hc (not_not.2 hknown)
      rw [readTyped_self h10 hp]
      exact hs.reset (fun ls => lines_flatten) hknown hroom
    · obtain ⟨hsame, hkeys⟩ := hs.absent (fun ls => lines_flatten) hknown
        (hashStr (readTyped (typed.bytes ++ [10]))) typed.bytes
      rw [hsame]
      exact hs.idle hkeys

/-! ## Runs -/

theorem Holds.start_inv (h : Holds db pl sl) : (State.start db).Inv := by
  refine ⟨pl, sl, h, fun l hl => ?_, fun n hn => ?_⟩
  · unfold State.start
    dsimp only
    rw [h.lines_shadow, find_user h.shadow_nodup hl]
    exact ⟨_, rfl, rfl⟩
  · unfold State.start
    dsimp only
    rw [h.lines_shadow, find_user_none hn]
    rfl

/-- **The account files over any run of commands.**  In every run of sound commands both files stay sequences of well-formed
records with the same names, `login` lets in just who should be let in, and every command leaves the other records alone and
gives a new account a new number. -/
theorem accounts_kept (db : Db) (cs : List Command) (hdb : db.WellFormed)
    (hsound : Run.Guarded State.step Sound (State.start db) cs) :
    (∀ s ∈ Run.states State.step (State.start db) cs, s.db.WellFormed ∧ s.LogsIn) ∧
      Run.Guarded State.step (fun s c => Kept s.db (s.step c).db c.about) (State.start db) cs := by
  obtain ⟨pl, sl, h⟩ := hdb
  constructor
  · intro s hs
    obtain ⟨pl', sl', h', hk'⟩ := Run.states_forall (P := State.Inv)
      (fun s c hs hc => (hs.step hc).1) cs _ h.start_inv hsound s hs
    exact ⟨⟨pl', sl', h'⟩, h'.logsIn hk'⟩
  · exact Run.guarded_imp (fun s c hs hc => hs.step hc) cs _ h.start_inv hsound

/-! ### The files as they come -/

def rootRec : PasswdRec where
  name := root
  pass := [120]
  uid := [48]
  gid := [48]
  rest := [114, 111, 111, 116, 58, 47, 114, 111, 111, 116, 58, 47, 98, 105, 110, 47, 115, 104]
  name_ok := ⟨⟨by decide, by decide, by decide⟩, by decide, by decide⟩
  pass_ok := ⟨by decide, by decide, by decide⟩
  uid_ok := ⟨by decide, by decide, forall_mem_singleton.2 (by decide), by decide⟩
  gid_ok := ⟨by decide, by decide, forall_mem_singleton.2 (by decide), by decide⟩
  rest_ok := by decide
  fields := by decide
  fits := by decide

def rootShadow : ShadowRec where
  name := root
  hash := []
  rest := defaultAges
  name_ok := rootRec.name_ok
  hash_ok := ⟨by decide, by decide, by decide⟩
  hash_le := by decide
  rest_ok := by decide
  fields := by decide
  fits := by decide

def rootDb : Db := ⟨rootRec.line, rootShadow.line⟩

theorem rootDb_holds : Holds rootDb [rootRec.line] [rootShadow.line] := by
  refine ⟨rfl, rfl, ?_, ?_, nodup_singleton _, nodup_singleton _, fun n => ?_⟩
  · intro l hl
    exact ⟨rootRec, (mem_singleton.1 hl).symm⟩
  · intro l hl
    exact ⟨rootShadow, (mem_singleton.1 hl).symm⟩
  · rw [map_singleton, map_singleton, rootRec.user_line, rootShadow.user_line]
    rfl

/-- `passwd` of `root` to `xyz`, `useradd bob` with `abc`, and a `user del root`, which is refused: `root` logs in with
`xyz`. -/
theorem accounts_kept_bob :
    let bob : CStr := ⟨[98, 111, 98], by decide⟩
    let abc : CStr := ⟨[97, 98, 99], by decide⟩
    let xyz : CStr := ⟨[120, 121, 122], by decide⟩
    let cs : List Command := [.passwd ⟨root, by decide⟩ xyz, .useradd bob abc, .userDel ⟨root, by decide⟩]
    let s := cs.foldl State.step (State.start rootDb)
    s.db.WellFormed ∧ s.LogsIn ∧ ∃ gid, login s.db (typed root xyz.bytes) = some (0, gid) := by
  intro bob abc xyz cs s
  have hlines : lines rootDb.passwd = [rootRec.line] := rootDb_holds.lines_passwd
  have hsound : Run.Guarded State.step Sound (State.start rootDb) cs := by
    refine ⟨Or.inr ⟨by decide, by decide, fun l hl _ => ?_⟩, Or.inr ⟨?_, by decide, by decide, fun l hl => ?_⟩,
      trivial, trivial⟩
    · have hhash := hashStr_length (p := xyz.bytes)
      have hrest : (restOfLine rootShadow.line 0 []).length = 19 := by decide
      rw [State.start, rootDb_holds.lines_shadow, mem_singleton] at hl
      change (restOfLine l 0 []).length + 4 + (hashStr xyz.bytes).length + 2 < 256
      rw [hl, hrest]
      omega
    · exact ⟨⟨by decide, by decide, by decide⟩, by decide, by decide⟩
    · change l ∈ lines rootDb.passwd at hl
      rw [hlines, mem_singleton] at hl
      rw [hl, rootRec.uidStr_line]
      decide
  obtain ⟨hall, -, hadded, -⟩ := accounts_kept rootDb cs ⟨_, _, rootDb_holds⟩ hsound
  obtain ⟨hok, hlogs⟩ := hall s (Run.foldl_mem_states cs _)
  have hroot : rootRec.line ∈ lines s.db.passwd := by
    refine mem_of_mem_filter (p := fun l => user l ≠ bob.bytes) (hadded.passwd.symm ▸ mem_filter.2 ⟨?_, by decide⟩)
    change rootRec.line ∈ lines rootDb.passwd
    rw [hlines]
    exact mem_singleton_self _
  have hkey : s.keys root = some (.password xyz.bytes) := rfl
  refine ⟨hok, hlogs, (hlogs ⟨root, by decide⟩ xyz (by decide) (by decide) (by decide) (by decide) (fun key h => ?_) 0).2
    ⟨_, hkey, rfl, _, hroot, rootRec.user_line, by rw [rootRec.uidStr_line]; rfl⟩⟩
  obtain rfl := Option.some.inj (hkey.symm.trans h)
  exact fun _ => rfl

/-- `user add a::0:0` makes a user `a` with the number 0. -/
theorem accounts_forged :
    let args : CStr := ⟨[97, 58, 58, 48, 58, 48], by decide⟩
    rootDb.WellFormed ∧ ¬ ((State.start rootDb).step (.userAdd args)).LogsIn := by
  intro args
  refine ⟨⟨_, _, rootDb_holds⟩, fun h => ?_⟩
  have hitoa : itoa 1000 = [49, 48, 48, 48] := by simp [itoa, Fs.itoaLoop]
  have hnext : nextUid atoiS args.bytes (lines rootDb.passwd) 1000 = some 1000 := by decide +kernel
  have hrun : cmdUseradd rootDb args.bytes =
      ⟨rootDb.passwd ++ (args.bytes ++ [58, 120, 58, 49, 48, 48, 48, 58, 49, 48, 48, 48, 58, 58, 47, 104, 111, 109, 101,
        47] ++ args.bytes ++
        [58, 47, 98, 105, 110, 47, 115, 104] ++ [10]), rootDb.shadow ++ shadowEntry args.bytes []⟩ := by
    have hargs : shellArgs args.bytes = (args.bytes, []) := by decide
    unfold cmdUseradd
    rw [hargs]
    dsimp only
    rw [if_neg (by decide), hnext]
    dsimp only
    unfold passwdEntry
    rw [hitoa]
    rfl
  have hlogin : login (cmdUseradd rootDb args.bytes) (typed [97] []) = some (0, 0) := by
    rw [hrun]
    decide +kernel
  have hnone : ((State.start rootDb).step (.userAdd args)).keys [97] = none := by decide +kernel
  obtain ⟨key, hkey, -⟩ := (h ⟨[97], by decide⟩ ⟨[], by decide⟩ (by decide) (by decide) (by decide) (by decide)
    (fun key hkey => (Option.some_ne_none key (hkey.symm.trans hnone)).elim) 0).1 ⟨0, hlogin⟩
  exact Option.some_ne_none key (hkey.symm.trans hnone)

end EterOS.Accounts
