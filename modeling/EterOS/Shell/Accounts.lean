import EterOS.Crypto.Sha256
import EterOS.Fs.Procfs
import EterOS.Lib.Records
import EterOS.Lib.Run
/-!
# Accounts — `/etc/passwd` and `/etc/shadow`

`user add`, `user del` and `user passwd` of `kernel/shell/cmd_user.c`, the programs `useradd`, `userdel` and `passwd`, and
one attempt of `login` (`src/userspace/`).  Both files are there and every operation on them succeeds.
-/
namespace EterOS.Accounts

open Records
open Fs (CStr itoaLoop)

def MAX_LINE : Nat := 256

/-! ## Lines and fields -/

/-- `read_line` and `read_line_vfs`, with a buffer of `MAX_LINE` bytes, over a whole file. -/
def lines (file : List UInt8) : List (List UInt8) := pieces (cutLine 10 (MAX_LINE - 1)) (file.length + 1) file

/-- The lines of the buffer in `remove_user_from_vfs_file` and `cmd_passwd`. -/
def bufferLines (file : List UInt8) : List (List UInt8) := pieces (cutLineStop 10 (MAX_LINE - 1)) (file.length + 1) file

def user (line : List UInt8) : List UInt8 := scan 58 0 31 line 0 []

def uidStr (line : List UInt8) : List UInt8 := scan 58 2 15 line 0 []

def gidStr (line : List UInt8) : List UInt8 := scan 58 3 15 line 0 []

def storedHash (line : List UInt8) : List UInt8 := scan 58 1 64 line 0 []

/-- `rest_of_line`: from the second colon on, without the end of the line. -/
def restOfLine : List UInt8 → Nat → List UInt8 → List UInt8
  | [], _, acc => acc
  | c :: cs, field, acc =>
    if c = 58 ∧ field = 0 then restOfLine cs 1 acc
    else if c = 58 ∧ field = 1 then restOfLine cs 2 (acc ++ [58])
    else
      let field := if c = 58 then field + 1 else field
      if 2 ≤ field ∧ acc.length < MAX_LINE - 1 ∧ c ≠ 10 then restOfLine cs field (acc ++ [c]) else restOfLine cs field acc

/-! ## Numbers -/

def isDigit (c : UInt8) : Bool := 48 ≤ c ∧ c ≤ 57

def value (ds : List UInt8) : Nat := ds.foldl (fun r c => r * 10 + (c.toNat - 48)) 0

def int32 (x : Int) : Int := (x + 2 ^ 31) % 2 ^ 32 - 2 ^ 31

def signed : List UInt8 → Int × List UInt8
  | 45 :: s => (-1, s)
  | 43 :: s => (1, s)
  | s => (1, s)

def atoi (s : List UInt8) : Int :=
  let (sign, s) := signed (s.dropWhile fun c => c = 32 ∨ c = 9 ∨ c = 10)
  int32 (sign * value (s.takeWhile isDigit))

/-- `atoi_s` of the kernel, where `out` was 0. -/
def atoiS (s : List UInt8) : Int :=
  let (sign, s) := signed (s.dropWhile fun c => c = 32 ∨ (9 ≤ c ∧ c ≤ 13))
  let res := value (s.takeWhile isDigit)
  if s = [] ∨ (sign = 1 ∧ 2 ^ 31 ≤ res) ∨ (sign = -1 ∧ 2 ^ 31 < res) ∨ s.dropWhile isDigit ≠ [] then 0 else sign * res

def programUid (s : List UInt8) : Int := if s = [] then -1 else atoi s

def itoa (v : Int) : List UInt8 :=
  if v = 0 then [48] else if v < 0 then 45 :: itoaLoop (-v).toNat [] else itoaLoop v.toNat []

/-! ## The commands -/

/-- `sha256`, with the context on the stack. -/
def sha256 (data : List UInt8) : List UInt8 :=
  match Crypto.sha256Update (Crypto.sha256Init Crypto.Sha256.blank) data with
  | some ctx => (Crypto.sha256Final ctx fun _ => 0).2.list 0 32
  | none => []

/-- `hex_chars`. -/
def hexChar (n : Nat) : UInt8 := UInt8.ofNat (if n < 10 then 48 + n else 87 + n)

def hashStr (password : List UInt8) : List UInt8 :=
  if password = [] then [] else (sha256 password).flatMap fun b => [hexChar (b.toNat / 16), hexChar (b.toNat % 16)]

structure Db where
  passwd : List UInt8
  shadow : List UInt8

/-- The loop over `/etc/passwd`: `none` where the user exists, else the number for the new one. -/
def nextUid (parse : List UInt8 → Int) (username : List UInt8) : List (List UInt8) → Int → Option Int
  | [], next => some next
  | line :: ls, next =>
    if user line = username then none
    else
      let uid := parse (uidStr line)
      nextUid parse username ls (if next ≤ uid then int32 (uid + 1) else next)

def passwdEntry (username : List UInt8) (uid : Int) : List UInt8 :=
  username ++ 58 :: ([120] ++ 58 :: (itoa uid ++ 58 :: (itoa uid ++ 58 ::
    ([58, 47, 104, 111, 109, 101, 47] ++ username ++ [58, 47, 98, 105, 110, 47, 115, 104] ++ [10]))))

def defaultAges : List UInt8 := [49, 57, 48, 48, 48, 58, 48, 58, 57, 57, 57, 57, 57, 58, 55, 58, 58, 58]

def shadowEntry (username hash : List UInt8) : List UInt8 := username ++ 58 :: (hash ++ 58 :: (defaultAges ++ [10]))

/-- The two arguments of `user add` and `user passwd`, of 31 characters each. -/
def shellArgs (args : List UInt8) : List UInt8 × List UInt8 :=
  let username := (args.takeWhile (· ≠ 32)).take 31
  (username, match args.drop username.length with
    | 32 :: password => password.take 31
    | _ => [])

def cmdUseradd (db : Db) (args : List UInt8) : Db :=
  let (username, password) := shellArgs args
  if username = [] then db
  else
    match nextUid atoiS username (lines db.passwd) 1000 with
    | none => db
    | some uid => ⟨db.passwd ++ passwdEntry username uid, db.shadow ++ shadowEntry username (hashStr password)⟩

/-- `remove_user_from_vfs_file` and `remove_user_from_file`. -/
def removeUser (split : List UInt8 → List (List UInt8)) (file username : List UInt8) : List UInt8 :=
  if (split file).any fun line => user line = username then ((split file).filter fun line => user line ≠ username).flatten
    else file

def root : List UInt8 := [114, 111, 111, 116]

def cmdUserdel (db : Db) (args : List UInt8) : Db :=
  if args = [] ∨ args = root then db else ⟨removeUser bufferLines db.passwd args, removeUser bufferLines db.shadow args⟩

/-- The new line of `cmd_passwd` and of the program, cut at `MAX_LINE - 1`.  (The program leaves `rest_of_line` open where a
line ends with its second colon.) -/
def newEntry (line hash : List UInt8) : List UInt8 :=
  let rest := restOfLine line 0 []
  (user line ++ 58 :: (hash ++ ((if rest = [] then 58 :: defaultAges else rest) ++ [10]))).take (MAX_LINE - 1)

def setPassword (split : List UInt8 → List (List UInt8)) (file username hash : List UInt8) : List UInt8 :=
  if (split file).any fun line => user line = username then
    ((split file).map fun line => if user line = username then newEntry line hash else line).flatten
  else file

def cmdPasswd (db : Db) (args : List UInt8) : Db :=
  let (username, password) := shellArgs args
  if username = [] then db else { db with shadow := setPassword bufferLines db.shadow username (hashStr password) }

/-- What a program has of a line typed at it: `read` of 31 bytes at most, without the end of the line. -/
def readTyped (input : List UInt8) : List UInt8 :=
  let got := cutLine 10 31 input
  (if got.getLast? = some 10 then got.dropLast else got).takeWhile (· ≠ 0)

def useraddMain (db : Db) (username typed : List UInt8) : Db :=
  match nextUid programUid username (lines db.passwd) 1000 with
  | none => db
  | some uid =>
    ⟨(lines db.passwd).flatten ++ (passwdEntry username uid).take (MAX_LINE - 1),
      (lines db.shadow).flatten ++ (shadowEntry username (hashStr (readTyped (typed ++ [10])))).take (MAX_LINE - 1)⟩

def userdelMain (db : Db) (username : List UInt8) : Db :=
  if username = root then db else ⟨removeUser lines db.passwd username, removeUser lines db.shadow username⟩

def passwdMain (db : Db) (username typed : List UInt8) : Db :=
  { db with shadow := setPassword lines db.shadow username (hashStr (readTyped (typed ++ [10]))) }

/-- One attempt of `login`: the user and group it starts the shell with. -/
def login (db : Db) (input : List UInt8) : Option (Int × Int) :=
  let username := readTyped input
  if username = [] then none
  else
    let password := readTyped (input.drop (cutLine 10 31 input).length)
    match (lines db.passwd).find? fun line => user line = username with
    | none => none
    | some line =>
      match (lines db.shadow).find? fun line => user line = username with
      | none => none
      | some entry =>
        if storedHash entry = [] ∧ password = [] ∨ storedHash entry = hashStr password then
          some (programUid (uidStr line), programUid (gidStr line))
        else none

inductive Command where
  | userAdd (args : CStr)
  | userDel (args : CStr)
  | userPasswd (args : CStr)
  | useradd (username typed : CStr)
  | userdel (username : CStr)
  | passwd (username typed : CStr)

def Command.run (db : Db) : Command → Db
  | .userAdd args => cmdUseradd db args.bytes
  | .userDel args => cmdUserdel db args.bytes
  | .userPasswd args => cmdPasswd db args.bytes
  | .useradd username typed => useraddMain db username.bytes typed.bytes
  | .userdel username => userdelMain db username.bytes
  | .passwd username typed => passwdMain db username.bytes typed.bytes

end EterOS.Accounts
