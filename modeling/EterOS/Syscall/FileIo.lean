import EterOS.Syscall.Pipe
import EterOS.Syscall.Basic
/-!
# FileIo — `read`, `write`, `pread64`, `pwrite64` and `lseek`

`kernel/arch/x86_64/syscall.c` and `read_fs`, `write_fs` of `kernel/fs/vfs.c`.  Offsets and counts are 64 bits wide in
the calls and 32 in a descriptor and in the callbacks of a filesystem; what a write callback returns, an error number
included, is unsigned.  When each call reports what the callback did, and when it acts on the positions it was given.
-/
namespace EterOS.Syscall
namespace FileIo

def O_ACCMODE : UInt32 := 3
def O_RDONLY : UInt32 := 0
def O_WRONLY : UInt32 := 1
def O_APPEND : UInt32 := 0o2000

/-! ## Files -/

/-- What a write callback returns for `size` bytes, and whether it failed: a count where it did not, and else what it
returns for an error. -/
structure Written (size : UInt32) where
  ret : UInt32
  failed : Bool
  le : failed = false → ret ≤ size

inductive ReadRet where
  | bytes (bytes : List UInt8)
  | error (errno : Nat)

def ReadRet.toInt : ReadRet → Int
  | bytes l => l.length
  | error errno => -errno

variable {σ : Type}

structure FileNode (σ : Type) where
  length : σ → UInt32
  read : Option (σ → UInt32 → UInt32 → σ × ReadRet)
  write : Option (σ → UInt32 → (size : UInt32) → Buffer → σ × Written size)

structure FileDescriptor (σ : Type) where
  node : Option (FileNode σ)
  offset : UInt32
  flags : UInt32

structure FileTask (σ : Type) where
  fs : σ
  fdTable : Nat → FileDescriptor σ

def FileTask.setOffset (s : FileTask σ) (fd : Nat) (offset : UInt32) : FileTask σ :=
  { s with fdTable := Function.update s.fdTable fd { s.fdTable fd with offset := offset } }

/-! ## The calls -/

def readFs (node : FileNode σ) (fs : σ) (offset size : UInt32) : σ × ReadRet :=
  match node.read with
  | some read => read fs offset size
  | none => (fs, .bytes [])

def writeFs (node : FileNode σ) (fs : σ) (offset size : UInt32) (buffer : Buffer) : σ × UInt32 :=
  match node.write with
  | some write => ((write fs offset size buffer).1, (write fs offset size buffer).2.ret)
  | none => (fs, 0)

/-- What the four calls check first: `verified` is the answer of `vmm_verify_user_access` for the buffer, and `refused` the
access mode that does not allow the call. -/
def checkFd (s : FileTask σ) (fd : Int) (verified : Bool) (refused : UInt32) : Except Int (FileNode σ) :=
  if verified = false then .error EFAULT
  else if fd < 0 ∨ maxFd ≤ fd then .error EBADF
  else
    match (s.fdTable fd.toNat).node with
    | none => .error EBADF
    | some node => if (s.fdTable fd.toNat).flags &&& O_ACCMODE = refused then .error EBADF else .ok node

/-- Where `sys_write` writes: at the end with `O_APPEND`. -/
def writeOffset (s : FileTask σ) (fd : Nat) (node : FileNode σ) : UInt32 :=
  if (s.fdTable fd).flags &&& O_APPEND ≠ 0 then node.length s.fs else (s.fdTable fd).offset

def sysWrite (s : FileTask σ) (fd : Int) (verified : Bool) (buf : Buffer) (count : UInt64) : FileTask σ × Int :=
  match checkFd s fd verified O_RDONLY with
  | .error e => (s, -e)
  | .ok node =>
    let s := s.setOffset fd.toNat (writeOffset s fd.toNat node)
    let (fs, written) := writeFs node s.fs (s.fdTable fd.toNat).offset count.toUInt32 buf
    ({ s with fs := fs }.setOffset fd.toNat ((s.fdTable fd.toNat).offset + written), written.toNat)

def sysRead (s : FileTask σ) (fd : Int) (verified : Bool) (count : UInt64) : FileTask σ × ReadRet :=
  match checkFd s fd verified O_WRONLY with
  | .error e => (s, .error e.toNat)
  | .ok node =>
    let (fs, read) := readFs node s.fs (s.fdTable fd.toNat).offset count.toUInt32
    let s := { s with fs := fs }
    if 0 < read.toInt then (s.setOffset fd.toNat ((s.fdTable fd.toNat).offset + UInt32.ofInt read.toInt), read)
      else (s, read)

def sysPread64 (s : FileTask σ) (fd : Int) (verified : Bool) (count : UInt64) (offset : Int64) : FileTask σ × ReadRet :=
  match checkFd s fd verified O_WRONLY with
  | .error e => (s, .error e.toNat)
  | .ok node =>
    let (fs, read) := readFs node s.fs (UInt32.ofInt offset.toInt) count.toUInt32
    ({ s with fs := fs }, read)

def sysPwrite64 (s : FileTask σ) (fd : Int) (verified : Bool) (buf : Buffer) (count : UInt64) (offset : Int64) :
    FileTask σ × Int :=
  match checkFd s fd verified O_RDONLY with
  | .error e => (s, -e)
  | .ok node =>
    let (fs, written) := writeFs node s.fs (UInt32.ofInt offset.toInt) count.toUInt32 buf
    ({ s with fs := fs }, written.toNat)

def FileTask.seek (s : FileTask σ) (fd : Nat) (target : Int) : FileTask σ × Int :=
  (s.setOffset fd (UInt32.ofInt target), (UInt32.ofInt target).toNat)

def sysLseek (s : FileTask σ) (fd : Int) (offset : Int64) (whence : Int) : FileTask σ × Int :=
  if fd < 0 ∨ maxFd ≤ fd then (s, -EBADF)
  else
    match (s.fdTable fd.toNat).node with
    | none => (s, -EBADF)
    | some node =>
      if whence = 0 then s.seek fd.toNat offset.toInt
      else if whence = 1 then s.seek fd.toNat ((s.fdTable fd.toNat).offset.toNat + offset.toInt)
      else if whence = 2 then s.seek fd.toNat ((node.length s.fs).toNat + offset.toInt)
      else (s, -EINVAL)

/-! ## What a write reports -/

variable {s : FileTask σ} {fd : Int} {verified : Bool} {buf : Buffer} {count : UInt64} {offset : Int64} {node : FileNode σ}

/-- What the write callback of a node says; a node without one takes no bytes. -/
def FileNode.written (node : FileNode σ) (fs : σ) (offset size : UInt32) (buffer : Buffer) : Written size :=
  match node.write with
  | some write => (write fs offset size buffer).2
  | none => ⟨0, false, fun _ => UInt32.zero_le⟩

theorem writeFs_ret (node : FileNode σ) (fs : σ) (offset size : UInt32) (buffer : Buffer) :
    (writeFs node fs offset size buffer).2 = (node.written fs offset size buffer).ret := by
  unfold writeFs FileNode.written
  cases node.write <;> rfl

theorem setOffset_offset (s : FileTask σ) (fd : Nat) (offset : UInt32) :
    ((s.setOffset fd offset).fdTable fd).offset = offset := by
  simp [FileTask.setOffset]

/-- **What `sys_write` should report**: an error where it refuses the call or the callback fails, and then the offset is
where it was; else what the callback took, by which the offset has gone on from where it wrote. -/
structure WriteReports (s : FileTask σ) (fd : Int) (verified : Bool) (buf : Buffer) (count : UInt64) : Prop where
  refused : ∀ e, checkFd s fd verified O_RDONLY = .error e →
    (sysWrite s fd verified buf count).2 < 0 ∧ (sysWrite s fd verified buf count).1 = s
  failed : ∀ node, checkFd s fd verified O_RDONLY = .ok node →
    (node.written s.fs (writeOffset s fd.toNat node) count.toUInt32 buf).failed = true →
    (sysWrite s fd verified buf count).2 < 0 ∧
      ((sysWrite s fd verified buf count).1.fdTable fd.toNat).offset = (s.fdTable fd.toNat).offset
  done : ∀ node, checkFd s fd verified O_RDONLY = .ok node →
    (node.written s.fs (writeOffset s fd.toNat node) count.toUInt32 buf).failed = false →
    0 ≤ (sysWrite s fd verified buf count).2 ∧ (sysWrite s fd verified buf count).2 ≤ count.toNat ∧
      (((sysWrite s fd verified buf count).1.fdTable fd.toNat).offset.toNat : Int) =
        (writeOffset s fd.toNat node).toNat + (sysWrite s fd verified buf count).2

/-- **What `sys_pwrite64` should report**; it leaves the offset alone. -/
structure PwriteReports (s : FileTask σ) (fd : Int) (verified : Bool) (buf : Buffer) (count : UInt64) (offset : Int64) :
    Prop where
  refused : ∀ e, checkFd s fd verified O_RDONLY = .error e →
    (sysPwrite64 s fd verified buf count offset).2 < 0 ∧ (sysPwrite64 s fd verified buf count offset).1 = s
  failed : ∀ node, checkFd s fd verified O_RDONLY = .ok node →
    (node.written s.fs (UInt32.ofInt offset.toInt) count.toUInt32 buf).failed = true →
    (sysPwrite64 s fd verified buf count offset).2 < 0
  done : ∀ node, checkFd s fd verified O_RDONLY = .ok node →
    (node.written s.fs (UInt32.ofInt offset.toInt) count.toUInt32 buf).failed = false →
    0 ≤ (sysPwrite64 s fd verified buf count offset).2 ∧ (sysPwrite64 s fd verified buf count offset).2 ≤ count.toNat
  kept : (sysPwrite64 s fd verified buf count offset).1.fdTable = s.fdTable

theorem checkFd_error {e : Int} {refused : UInt32} (h : checkFd s fd verified refused = .error e) : 0 < e := by
  unfold checkFd at h
  split at h
  · cases h
    decide
  split at h
  · cases h
    decide
  split at h
  · cases h
    decide
  split at h
  · cases h
    decide
  · cases h

theorem Written.le_count (w : Written count.toUInt32) (hw : w.failed = false) : w.ret.toNat ≤ count.toNat := by
  have hle := UInt32.le_iff_toNat_le.1 (w.le hw)
  rw [UInt64.toNat_toUInt32] at hle
  exact hle.trans (Nat.mod_le _ _)

theorem sysWrite_of_ok (buf : Buffer) (count : UInt64) (h : checkFd s fd verified O_RDONLY = .ok node) :
    (sysWrite s fd verified buf count).2 = (node.written s.fs (writeOffset s fd.toNat node) count.toUInt32 buf).ret.toNat ∧
    ((sysWrite s fd verified buf count).1.fdTable fd.toNat).offset =
      writeOffset s fd.toNat node + (node.written s.fs (writeOffset s fd.toNat node) count.toUInt32 buf).ret := by
  unfold sysWrite
  rw [h]
  dsimp only
  rw [setOffset_offset, setOffset_offset, writeFs_ret]
  exact ⟨rfl, rfl⟩

theorem sysPwrite64_of_ok (buf : Buffer) (count : UInt64) (offset : Int64) (h : checkFd s fd verified O_RDONLY = .ok node) :
    (sysPwrite64 s fd verified buf count offset).2 =
    (node.written s.fs (UInt32.ofInt offset.toInt) count.toUInt32 buf).ret.toNat := by
  unfold sysPwrite64
  rw [h]
  dsimp only
  rw [writeFs_ret]

/-- **When a write reports what happened**: where its callback does not fail, and the offset does not pass 4 GB. -/
theorem write_reports_iff (s : FileTask σ) (fd : Int) (verified : Bool) (buf : Buffer) (count : UInt64) (offset : Int64) :
    (WriteReports s fd verified buf count ↔ ∀ node, checkFd s fd verified O_RDONLY = .ok node →
      (node.written s.fs (writeOffset s fd.toNat node) count.toUInt32 buf).failed = false ∧
      (writeOffset s fd.toNat node).toNat +
        (node.written s.fs (writeOffset s fd.toNat node) count.toUInt32 buf).ret.toNat < 2 ^ 32) ∧
    (PwriteReports s fd verified buf count offset ↔ ∀ node, checkFd s fd verified O_RDONLY = .ok node →
      (node.written s.fs (UInt32.ofInt offset.toInt) count.toUInt32 buf).failed = false) := by
  constructor
  · constructor
    · intro h node hok
      obtain ⟨hr, hoff⟩ := sysWrite_of_ok buf count hok
      have hnot : (node.written s.fs (writeOffset s fd.toNat node) count.toUInt32 buf).failed = false := by
        by_contra hf
        have := (h.failed node hok (by simpa using hf)).1
        rw [hr] at this
        omega
      obtain ⟨-, -, hadv⟩ := h.done node hok hnot
      rw [hoff, hr, UInt32.toNat_add] at hadv
      exact ⟨hnot, by omega⟩
    · intro h
      refine ⟨fun e he => ?_, fun node hok hf => ?_, fun node hok hf => ?_⟩
      · unfold sysWrite
        rw [he]
        exact ⟨Int.neg_neg_of_pos (checkFd_error he), rfl⟩
      · rw [(h node hok).1] at hf
        cases hf
      · obtain ⟨hr, hoff⟩ := sysWrite_of_ok buf count hok
        have hle := Written.le_count _ hf
        have hfit := (h node hok).2
        rw [hoff, hr, UInt32.toNat_add]
        omega
  · constructor
    · intro h node hok
      by_contra hf
      have := h.failed node hok (by simpa using hf)
      rw [sysPwrite64_of_ok buf count offset hok] at this
      omega
    · intro h
      refine ⟨fun e he => ?_, fun node hok hf => ?_, fun node hok hf => ?_, ?_⟩
      · unfold sysPwrite64
        rw [he]
        exact ⟨Int.neg_neg_of_pos (checkFd_error he), rfl⟩
      · rw [h node hok] at hf
        cases hf
      · have hle := Written.le_count _ hf
        rw [sysPwrite64_of_ok buf count offset hok]
        omega
      · unfold sysPwrite64
        cases checkFd s fd verified O_RDONLY <;> rfl

/-! ### A pipe -/

theorem writeLoop_le (buffer : Buffer) : ∀ (n written : Nat) (p : Pipe), (writeLoop buffer n written p).2 ≤ written + n
  | 0, written, p => Nat.le_refl _
  | n + 1, written, p => by
    unfold writeLoop
    split
    · have ih := writeLoop_le buffer n (written + 1) (p.put (buffer written))
      omega
    · exact Nat.le_add_right _ _

/-- `pipe_write` where it never waits, with `O_NONBLOCK`: the first turn of its loop moves what there is room for, the
second one ends it. -/
def pipeWriteNonblock (p : Pipe) (size : Nat) (buffer : Buffer) : Pipe × PipeRet :=
  match pipeWriteTurn p true size buffer 0 with
  | (p, _, some ret) => (p, ret)
  | (p, written, none) =>
    match pipeWriteTurn p true size buffer written with
    | (p, _, some ret) => (p, ret)
    | (p, written, none) => (p, .count written)

theorem pipeWriteTurn_le (p : Pipe) (nonblock : Bool) (buffer : Buffer) {size written : Nat} (hle : written ≤ size) :
    (pipeWriteTurn p nonblock size buffer written).2.1 ≤ size ∧
    ∀ n, (pipeWriteTurn p nonblock size buffer written).2.2 = some (.count n) → n ≤ size := by
  have hloop := writeLoop_le buffer (size - written) written p
  unfold pipeWriteTurn
  split
  · split
    · split
      · exact ⟨hle, fun n hn => by cases hn⟩
      · split
        · split
          · exact ⟨hle, fun n hn => by cases hn; exact hle⟩
          · exact ⟨hle, fun n hn => by cases hn⟩
        · exact ⟨hle, fun n hn => by cases hn⟩
    · exact ⟨show (writeLoop buffer (size - written) written p).2 ≤ size by omega, fun n hn => by cases hn⟩
  · exact ⟨hle, fun n hn => by cases hn; exact hle⟩

theorem pipeWriteNonblock_le {p : Pipe} {size n : Nat} {buffer : Buffer}
    (h : (pipeWriteNonblock p size buffer).2 = .count n) : n ≤ size := by
  obtain ⟨hle, hret⟩ := pipeWriteTurn_le p true buffer (Nat.zero_le size)
  unfold pipeWriteNonblock at h
  rcases hfirst : pipeWriteTurn p true size buffer 0 with ⟨p1, w1, _ | ret⟩
  · rw [hfirst] at h hle
    obtain ⟨hle', hret'⟩ := pipeWriteTurn_le p1 true buffer hle
    dsimp only at h
    rcases hsecond : pipeWriteTurn p1 true size buffer w1 with ⟨p2, w2, _ | ret⟩
    · rw [hsecond] at h hle'
      cases h
      exact hle'
    · rw [hsecond] at h hret'
      exact hret' n (congrArg some h)
  · rw [hfirst] at h hret
    exact hret n (congrArg some h)

def pipeWrite (p : Pipe) (_ : UInt32) (size : UInt32) (buffer : Buffer) : Pipe × Written size :=
  ((pipeWriteNonblock p size.toNat buffer).1,
    match h : (pipeWriteNonblock p size.toNat buffer).2 with
    | .count n => ⟨UInt32.ofNat n, false, fun _ => by
        have hle := pipeWriteNonblock_le h
        rw [UInt32.le_iff_toNat_le, UInt32.toNat_ofNat_of_lt' (Nat.lt_of_le_of_lt hle size.toNat_lt)]
        exact hle⟩
    | .eagain => ⟨-11, true, fun hf => Bool.noConfusion hf⟩
    | .epipe => ⟨-32, true, fun hf => Bool.noConfusion hf⟩)

def readerless : FileTask Pipe where
  fs := ⟨fun _ => 0, pipeSize, 0, 0, pipeSize, 0, 1⟩
  fdTable := fun _ => ⟨some ⟨fun _ => 0, none, some pipeWrite⟩, 0, O_WRONLY⟩

/-- `write` of 10 bytes returns 4294967264 there. -/
theorem readerless_write : ¬ WriteReports readerless 1 true (fun _ => 0) 10 ∧
    ¬ PwriteReports readerless 1 true (fun _ => 0) 10 0 := by
  have hret : (sysWrite readerless 1 true (fun _ => 0) 10).2 = 4294967264 := by decide
  have hpret : (sysPwrite64 readerless 1 true (fun _ => 0) 10 0).2 = 4294967264 := by decide
  constructor
  · intro h
    have := (h.failed ⟨fun _ => 0, none, some pipeWrite⟩ rfl rfl).1
    rw [hret] at this
    cases this
  · intro h
    have := h.failed ⟨fun _ => 0, none, some pipeWrite⟩ rfl rfl
    rw [hpret] at this
    cases this

/-! ## The positions a call acts on -/

inductive IoCall where
  | lseek (offset : Int64) (whence : Int)
  | read (verified : Bool) (count : UInt64)
  | write (verified : Bool) (buf : Buffer) (count : UInt64)
  | pread64 (verified : Bool) (count : UInt64) (offset : Int64)
  | pwrite64 (verified : Bool) (buf : Buffer) (count : UInt64) (offset : Int64)

/-- Where `lseek` is to go, over all integers. -/
def seekTarget (s : FileTask σ) (fd : Int) (offset : Int64) (whence : Int) : Option Int :=
  if fd < 0 ∨ maxFd ≤ fd then none
  else
    match (s.fdTable fd.toNat).node with
    | none => none
    | some node =>
      if whence = 0 then some offset.toInt
      else if whence = 1 then some ((s.fdTable fd.toNat).offset.toNat + offset.toInt)
      else if whence = 2 then some ((node.length s.fs).toNat + offset.toInt)
      else none

/-- **A call fails, or acts on the positions it was given**: the callback gets the offset and the count as they are, and the
offset of the descriptor goes where it should. -/
def Exact (s : FileTask σ) (fd : Int) : IoCall → Prop
  | .lseek offset whence => ∀ target, seekTarget s fd offset whence = some target → (sysLseek s fd offset whence).2 < 0 ∨
      (sysLseek s fd offset whence).2 = target ∧
      (((sysLseek s fd offset whence).1.fdTable fd.toNat).offset.toNat : Int) = target
  | .read verified count => ∀ node read, checkFd s fd verified O_WRONLY = .ok node → node.read = some read →
      (sysRead s fd verified count).2.toInt < 0 ∨ ∃ size : UInt32, size.toNat = count.toNat ∧
        ((sysRead s fd verified count).1.fs, (sysRead s fd verified count).2) = read s.fs (s.fdTable fd.toNat).offset size ∧
        (((sysRead s fd verified count).1.fdTable fd.toNat).offset.toNat : Int) =
          (s.fdTable fd.toNat).offset.toNat + (sysRead s fd verified count).2.toInt
  | .write verified buf count => ∀ node write, checkFd s fd verified O_RDONLY = .ok node → node.write = some write →
      (sysWrite s fd verified buf count).2 < 0 ∨ ∃ size : UInt32, size.toNat = count.toNat ∧
        (sysWrite s fd verified buf count).1.fs = (write s.fs (writeOffset s fd.toNat node) size buf).1 ∧
        (sysWrite s fd verified buf count).2 = (write s.fs (writeOffset s fd.toNat node) size buf).2.ret.toNat ∧
        (((sysWrite s fd verified buf count).1.fdTable fd.toNat).offset.toNat : Int) =
          (writeOffset s fd.toNat node).toNat + (sysWrite s fd verified buf count).2
  | .pread64 verified count offset => ∀ node read, checkFd s fd verified O_WRONLY = .ok node → node.read = some read →
      (sysPread64 s fd verified count offset).2.toInt < 0 ∨
      ∃ position size : UInt32, (position.toNat : Int) = offset.toInt ∧ size.toNat = count.toNat ∧
        ((sysPread64 s fd verified count offset).1.fs, (sysPread64 s fd verified count offset).2) = read s.fs position size
  | .pwrite64 verified buf count offset => ∀ node write, checkFd s fd verified O_RDONLY = .ok node →
      node.write = some write →
      (sysPwrite64 s fd verified buf count offset).2 < 0 ∨
      ∃ position size : UInt32, (position.toNat : Int) = offset.toInt ∧ size.toNat = count.toNat ∧
        (sysPwrite64 s fd verified buf count offset).1.fs = (write s.fs position size buf).1 ∧
        (sysPwrite64 s fd verified buf count offset).2 = (write s.fs position size buf).2.ret.toNat

/-- What fits into 32 bits: the target of a seek, the offset and the count of a call whose callback does not fail, and where
the descriptor's offset comes to. -/
def Fits (s : FileTask σ) (fd : Int) : IoCall → Prop
  | .lseek offset whence => ∀ target, seekTarget s fd offset whence = some target → 0 ≤ target ∧ target < 2 ^ 32
  | .read verified count => ∀ node read, checkFd s fd verified O_WRONLY = .ok node → node.read = some read →
      (read s.fs (s.fdTable fd.toNat).offset count.toUInt32).2.toInt < 0 ∨ count.toNat < 2 ^ 32 ∧
        (s.fdTable fd.toNat).offset.toNat + (read s.fs (s.fdTable fd.toNat).offset count.toUInt32).2.toInt < 2 ^ 32
  | .write verified buf count => ∀ node write, checkFd s fd verified O_RDONLY = .ok node → node.write = some write →
      count.toNat < 2 ^ 32 ∧ (writeOffset s fd.toNat node).toNat +
        (write s.fs (writeOffset s fd.toNat node) count.toUInt32 buf).2.ret.toNat < 2 ^ 32
  | .pread64 verified count offset => ∀ node read, checkFd s fd verified O_WRONLY = .ok node → node.read = some read →
      (read s.fs (UInt32.ofInt offset.toInt) count.toUInt32).2.toInt < 0 ∨
      (0 ≤ offset.toInt ∧ offset.toInt < 2 ^ 32) ∧ count.toNat < 2 ^ 32
  | .pwrite64 verified _ count offset => ∀ node write, checkFd s fd verified O_RDONLY = .ok node → node.write = some write →
      (0 ≤ offset.toInt ∧ offset.toInt < 2 ^ 32) ∧ count.toNat < 2 ^ 32

theorem ofInt_toNat (x : Int) : ((UInt32.ofInt x).toNat : Int) = x % 2 ^ 32 := by
  have h0 := Int.emod_nonneg x (show (2 ^ 32 : Int) ≠ 0 by decide)
  unfold UInt32.ofInt
  rw [UInt32.toNat_ofNat_of_lt' (by unfold UInt32.size; omega), Int.toNat_of_nonneg h0]

theorem ofInt_exact {x : Int} : (∃ v : UInt32, (v.toNat : Int) = x) ↔ 0 ≤ x ∧ x < 2 ^ 32 := by
  constructor
  · rintro ⟨v, rfl⟩
    have := v.toNat_lt
    omega
  · intro h
    exact ⟨UInt32.ofInt x, by rw [ofInt_toNat, Int.emod_eq_of_lt h.1 h.2]⟩

theorem toUInt32_exact (hc : count.toNat < 2 ^ 32) : count.toUInt32.toNat = count.toNat := by
  rw [UInt64.toNat_toUInt32, Nat.mod_eq_of_lt hc]

theorem eq_toUInt32 {size : UInt32} (h : size.toNat = count.toNat) : size = count.toUInt32 ∧ count.toNat < 2 ^ 32 := by
  have hlt := size.toNat_lt
  have hc : count.toNat < 2 ^ 32 := by omega
  exact ⟨UInt32.toNat_inj.1 (by rw [toUInt32_exact hc, h]), hc⟩

theorem eq_ofInt {position : UInt32} {x : Int} (h : (position.toNat : Int) = x) :
    position = UInt32.ofInt x ∧ 0 ≤ x ∧ x < 2 ^ 32 := by
  have hx := ofInt_exact.1 ⟨position, h⟩
  refine ⟨UInt32.toNat_inj.1 ?_, hx⟩
  have := ofInt_toNat x
  rw [Int.emod_eq_of_lt hx.1 hx.2] at this
  omega

theorem lseek_exact_iff {whence : Int} : Exact s fd (.lseek offset whence) ↔ Fits s fd (.lseek offset whence) := by
  have hseek : ∀ target, seekTarget s fd offset whence = some target →
      sysLseek s fd offset whence = s.seek fd.toNat target := by
    intro target ht
    unfold seekTarget at ht
    unfold sysLseek
    by_cases hfd : fd < 0 ∨ maxFd ≤ fd
    · rw [if_pos hfd] at ht
      cases ht
    rw [if_neg hfd] at ht ⊢
    cases hn : (s.fdTable fd.toNat).node with
    | none => simp [hn] at ht
    | some node =>
      rw [hn] at ht
      dsimp only at ht ⊢
      by_cases h₀ : whence = 0
      · rw [if_pos h₀] at ht ⊢
        cases ht
        rfl
      rw [if_neg h₀] at ht ⊢
      by_cases h1 : whence = 1
      · rw [if_pos h1] at ht ⊢
        cases ht
        rfl
      rw [if_neg h1] at ht ⊢
      by_cases h2 : whence = 2
      · rw [if_pos h2] at ht ⊢
        cases ht
        rfl
      · rw [if_neg h2] at ht
        cases ht
  unfold Exact Fits
  refine forall_congr' fun target => forall_congr' fun ht => ?_
  rw [hseek target ht]
  unfold FileTask.seek
  dsimp only
  rw [setOffset_offset, ofInt_toNat]
  omega

theorem read_exact_iff : Exact s fd (.read verified count) ↔ Fits s fd (.read verified count) := by
  unfold Exact Fits
  refine forall_congr' fun node => forall_congr' fun read => forall_congr' fun hok => forall_congr' fun hread => ?_
  have hfs : ((sysRead s fd verified count).1.fs, (sysRead s fd verified count).2) =
      read s.fs (s.fdTable fd.toNat).offset count.toUInt32 := by
    unfold sysRead readFs
    rw [hok]
    dsimp only
    rw [hread]
    dsimp only
    split <;> rfl
  have hret : (sysRead s fd verified count).2 = (read s.fs (s.fdTable fd.toNat).offset count.toUInt32).2 := by rw [← hfs]
  have hoff : 0 ≤ (sysRead s fd verified count).2.toInt →
    (((sysRead s fd verified count).1.fdTable fd.toNat).offset.toNat : Int) =
        ((s.fdTable fd.toNat).offset.toNat + (sysRead s fd verified count).2.toInt) % 2 ^ 32 := by
    rw [hret]
    intro h0
    unfold sysRead readFs
    rw [hok]
    dsimp only
    rw [hread]
    dsimp only
    have hlt := (s.fdTable fd.toNat).offset.toNat_lt
    split
    · rw [setOffset_offset, UInt32.toNat_add]
      have := ofInt_toNat (read s.fs (s.fdTable fd.toNat).offset count.toUInt32).2.toInt
      omega
    · dsimp only
      omega
  rw [← hret]
  constructor
  · rintro (hneg | ⟨size, hsize, -, hadv⟩)
    · exact .inl hneg
    · by_cases hneg : (sysRead s fd verified count).2.toInt < 0
      · exact .inl hneg
      · have := hoff (by omega)
        exact .inr ⟨(eq_toUInt32 hsize).2, by omega⟩
  · rintro (hneg | ⟨hc, hfit⟩)
    · exact .inl hneg
    · by_cases hneg : (sysRead s fd verified count).2.toInt < 0
      · exact .inl hneg
      · have := hoff (by omega)
        exact .inr ⟨count.toUInt32, toUInt32_exact hc, hfs, by omega⟩

theorem write_exact_iff : Exact s fd (.write verified buf count) ↔ Fits s fd (.write verified buf count) := by
  unfold Exact Fits
  refine forall_congr' fun node => forall_congr' fun write => forall_congr' fun hok => forall_congr' fun hwrite => ?_
  obtain ⟨hr, hoff⟩ := sysWrite_of_ok buf count hok
  have hw : node.written s.fs (writeOffset s fd.toNat node) count.toUInt32 buf =
      (write s.fs (writeOffset s fd.toNat node) count.toUInt32 buf).2 := by
    unfold FileNode.written
    rw [hwrite]
  have hfs : (sysWrite s fd verified buf count).1.fs = (write s.fs (writeOffset s fd.toNat node) count.toUInt32 buf).1 := by
    unfold sysWrite writeFs
    rw [hok]
    dsimp only
    rw [hwrite, setOffset_offset]
    rfl
  rw [hw] at hr hoff
  rw [hoff, hr, UInt32.toNat_add]
  constructor
  · rintro (hneg | ⟨size, hsize, -, -, hadv⟩)
    · omega
    · exact ⟨(eq_toUInt32 hsize).2, by omega⟩
  · rintro ⟨hc, hfit⟩
    exact .inr ⟨count.toUInt32, toUInt32_exact hc, hfs, rfl, by omega⟩

theorem pread64_exact_iff : Exact s fd (.pread64 verified count offset) ↔ Fits s fd (.pread64 verified count offset) := by
  unfold Exact Fits
  refine forall_congr' fun node => forall_congr' fun read => forall_congr' fun hok => forall_congr' fun hread => ?_
  have hfs : ((sysPread64 s fd verified count offset).1.fs, (sysPread64 s fd verified count offset).2) =
      read s.fs (UInt32.ofInt offset.toInt) count.toUInt32 := by
    unfold sysPread64 readFs
    rw [hok]
    dsimp only
    rw [hread]
  have hret : (sysPread64 s fd verified count offset).2 = (read s.fs (UInt32.ofInt offset.toInt) count.toUInt32).2 := by
    rw [← hfs]
  rw [← hret]
  refine or_congr_right ?_
  constructor
  · rintro ⟨position, size, hposition, hsize, -⟩
    exact ⟨(eq_ofInt hposition).2, (eq_toUInt32 hsize).2⟩
  · rintro ⟨hposition, hc⟩
    refine ⟨UInt32.ofInt offset.toInt, count.toUInt32, ?_, toUInt32_exact hc, hfs⟩
    rw [ofInt_toNat, Int.emod_eq_of_lt hposition.1 hposition.2]

theorem pwrite64_exact_iff : Exact s fd (.pwrite64 verified buf count offset) ↔
    Fits s fd (.pwrite64 verified buf count offset) := by
  unfold Exact Fits
  refine forall_congr' fun node => forall_congr' fun write => forall_congr' fun hok => forall_congr' fun hwrite => ?_
  have hr := sysPwrite64_of_ok buf count offset hok
  have hw : node.written s.fs (UInt32.ofInt offset.toInt) count.toUInt32 buf =
      (write s.fs (UInt32.ofInt offset.toInt) count.toUInt32 buf).2 := by
    unfold FileNode.written
    rw [hwrite]
  have hfs : (sysPwrite64 s fd verified buf count offset).1.fs =
      (write s.fs (UInt32.ofInt offset.toInt) count.toUInt32 buf).1 := by
    unfold sysPwrite64 writeFs
    rw [hok]
    dsimp only
    rw [hwrite]
  rw [hw] at hr
  constructor
  · rintro (hneg | ⟨position, size, hposition, hsize, -⟩)
    · omega
    · exact ⟨(eq_ofInt hposition).2, (eq_toUInt32 hsize).2⟩
  · rintro ⟨hposition, hc⟩
    refine .inr ⟨UInt32.ofInt offset.toInt, count.toUInt32, ?_, toUInt32_exact hc, hfs, hr⟩
    rw [ofInt_toNat, Int.emod_eq_of_lt hposition.1 hposition.2]

/-- **When a call acts on the positions it was given**: where they fit into the 32 bits of the layers below. -/
theorem positions_exact_iff (s : FileTask σ) (fd : Int) (call : IoCall) : Exact s fd call ↔ Fits s fd call := by
  cases call with
  | lseek offset whence => exact lseek_exact_iff
  | read verified count => exact read_exact_iff
  | write verified buf count => exact write_exact_iff
  | pread64 verified count offset => exact pread64_exact_iff
  | pwrite64 verified buf count offset => exact pwrite64_exact_iff

def memWrite (m : Buffer) (offset size : UInt32) (buffer : Buffer) : Buffer × Written size :=
  (m.blit offset.toNat buffer size.toNat, ⟨size, false, fun _ => UInt32.le_refl size⟩)

def memFile : FileTask Buffer where
  fs := fun _ => 0
  fdTable := fun _ => ⟨some ⟨fun _ => 16, none, some memWrite⟩, 0, 2⟩

/-- A byte written at 4 GB lands at the start of the file, and a seek to there, at the start. -/
theorem offset_aliases : ¬ Exact memFile 3 (.pwrite64 true (fun _ => 7) 1 4294967296) ∧
    (sysPwrite64 memFile 3 true (fun _ => 7) 1 4294967296).1.fs 0 = 7 ∧ ¬ Exact memFile 3 (.lseek 4294967296 0) := by
  refine ⟨fun h => ?_, by decide, fun h => ?_⟩
  · have hfit := (pwrite64_exact_iff.1 h _ memWrite rfl rfl).1.2
    have hoffset : (4294967296 : Int64).toInt = 4294967296 := by decide
    rw [hoffset] at hfit
    omega
  · have htarget : seekTarget memFile 3 4294967296 0 = some 4294967296 := by decide
    have hfit := (lseek_exact_iff.1 h _ htarget).2
    omega

end FileIo
end EterOS.Syscall
