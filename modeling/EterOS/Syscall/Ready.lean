import EterOS.Syscall.Clock
import EterOS.Syscall.Pipe
/-!
# Ready — what `poll`, `select` and `epoll_wait` call ready

`sys_poll`, `sys_select` and `epoll_compute_revents` (`kernel/arch/x86_64/syscall.c`).  Each has its own copy of the
decision: the type of the node first, then its `ioctl(FIONREAD)`, then lwIP for a socket, then a fallback.  What the
`ioctl` of a node answers, what lwIP answers and the pipes are the state of the devices at the instant of a pass.
-/
namespace EterOS.Syscall

open Function (update update_self update_of_ne)

/-- The fields of `fs_node_t` readiness and epoll look at; `ioctl` says that the node has one, `ptr` is the address of its
private object in words, and `epoll` says that it is an epoll instance: `close` is `epoll_close_fs`. -/
structure IoNode where
  flags : BitVec 32
  inode : BitVec 32
  ioctl : Bool
  ptr : Nat
  epoll : Bool := false

def IoNode.kind (n : IoNode) : BitVec 32 := n.flags &&& 7#32

def IoNode.isFile (n : IoNode) : Bool := n.kind = 1 ∨ n.kind = 2

def IoNode.isPipe (n : IoNode) : Bool := n.kind = 5

def IoNode.isSocket (n : IoNode) : Bool := n.kind = 7

def pipeReader (ptr : Nat) (nonblock : Bool) : IoNode where
  flags := if nonblock then 5 ||| 0x800 else 5
  inode := 0
  ioctl := false
  ptr

/-- The answers of the devices at an instant: `ioctl n bytes` is the result of `node->ioctl(node, FIONREAD, &bytes)` and
what it leaves in `bytes`, `lwipPoll sock events` the `revents` of a `lwip_poll` of one socket. -/
structure Devices where
  ioctl : IoNode → Int → Int × Int
  lwipPoll : BitVec 32 → BitVec 16 → BitVec 16
  pipe : Nat → Option Pipe

/-- What a pass sees: the descriptors of the task, the words of kernel memory and the devices. -/
structure IoState where
  table : Nat → Option IoNode
  mem : Nat → BitVec 32
  dev : Devices

def POLLIN : BitVec 16 := 1
def POLLOUT : BitVec 16 := 4
def POLLNVAL : BitVec 16 := 0x20

/-- `node->ioctl && node->ioctl(node, FIONREAD, &bytes) == 0`, and `bytes` after it. -/
def Devices.fionread (d : Devices) (n : IoNode) : Bool × Int :=
  if n.ioctl then (decide ((d.ioctl n 0).1 = 0), (d.ioctl n 0).2) else (false, 0)

/-- lwIP reports `ev` where `events` are asked for. -/
def Devices.socketHas (d : Devices) (n : IoNode) (events ev : BitVec 16) : Bool :=
  d.lwipPoll n.inode events &&& ev ≠ 0

/-! ## `poll` -/

structure PollFd where
  fd : Int
  events : BitVec 16
  revents : BitVec 16

def pollBytes (d : Devices) (n : IoNode) (events : BitVec 16) : Int :=
  if n.isFile then 1
  else if (d.fionread n).1 then (d.fionread n).2
  else if n.isSocket then if d.socketHas n events POLLIN then 1 else (d.fionread n).2
  else 1

def pollEntry (s : IoState) (p : PollFd) : PollFd :=
  if p.fd < 0 then { p with revents := 0 }
  else if (maxFd : Int) ≤ p.fd then { p with revents := POLLNVAL }
  else
    match s.table p.fd.toNat with
    | none => { p with revents := POLLNVAL }
    | some n =>
      { p with
        revents :=
          (if p.events &&& POLLIN ≠ 0 ∧ 0 < pollBytes s.dev n p.events then POLLIN else 0) |||
          (if p.events &&& POLLOUT ≠ 0 ∧ (n.isFile = true ∨ n.isPipe = true) then POLLOUT else 0) }

/-- A pass of `sys_poll`: the number of entries with events, and the array. -/
def pollPass (s : IoState) (fds : List PollFd) : Nat × List PollFd :=
  ((fds.map (pollEntry s)).countP fun p => p.revents ≠ 0, fds.map (pollEntry s))

/-- `sys_poll`; `w` is what its passes see, `access` what `vmm_verify_user_access` said of the array. -/
def sysPoll (access : Bool) (w : Nat → IoState) (fds : Option (List PollFd)) (nfds timeout : Int) (start : Nat)
    (passes : List Nat) : Wait (List PollFd) :=
  if nfds < 0 ∨ maxFd < nfds then .failed EINVAL
  else
    match fds with
    | none => if 0 < nfds then .failed EFAULT
        else waitLoop pollMs (fun t => .ok (pollPass (w t) [])) timeout (pollMs start) passes
    | some l =>
      if access then
        waitLoop pollMs (fun t => .ok (pollPass (w t) (l.take nfds.toNat))) timeout (pollMs start) passes
      else .failed EFAULT

/-! ## `select` -/

def selectBytes (d : Devices) (n : IoNode) : Int :=
  if n.isFile then 1
  else if (d.fionread n).1 then (d.fionread n).2
  else if n.isSocket then if d.socketHas n POLLIN POLLIN then 1 else (d.fionread n).2
  else 0

/-- A descriptor asked about in `writefds` is writable. -/
def selectWritable (d : Devices) (n : IoNode) : Bool :=
  if n.isFile then true
  else if n.isPipe then true
  else if n.isSocket then d.socketHas n POLLOUT POLLOUT
  else false

abbrev FdSet := Option (Nat → Bool)

def FdSet.has (set : FdSet) (i : Nat) : Bool := set.elim false fun f => f i

/-- `out_rfds`, `out_wfds` and `events`; no descriptor is ever put into `out_efds`. -/
structure SelectOut where
  rfds : Nat → Bool
  wfds : Nat → Bool
  events : Nat

def selectTurn (d : Devices) (r w : FdSet) (i : Nat) (n : IoNode) (out : SelectOut) : SelectOut :=
  let out := if r.has i = true ∧ 0 < selectBytes d n then
    { out with rfds := update out.rfds i true, events := out.events + 1 } else out
  if w.has i = true ∧ selectWritable d n = true then
    { out with wfds := update out.wfds i true, events := out.events + 1 } else out

/-- The loop of `sys_select` over the descriptors that are left. -/
def selectLoop (s : IoState) (r w e : FdSet) : List Nat → SelectOut → Except Int SelectOut
  | [], out => .ok out
  | i :: is, out =>
    match s.table i with
    | none => if r.has i || w.has i || e.has i then .error EBADF else selectLoop s r w e is out
    | some n => selectLoop s r w e is (selectTurn s.dev r w i n out)

def selectPass (s : IoState) (nfds : Nat) (r w e : FdSet) : Except Int (Nat × SelectOut) :=
  (selectLoop s r w e (List.range nfds) ⟨fun _ => false, fun _ => false, 0⟩).map fun out => (out.events, out)

/-- `ms_timeout`: the product and the sum have 64 bits, an `int` 32. -/
def selectMs : Option Timespec → Int
  | none => -1
  | some ts => (BitVec.ofInt 32 (ts.tvSec * 1000 + ts.tvNsec.tdiv 1000000)).toInt

/-- `sys_select`; what it returns goes to the sets unless its time is over. -/
def sysSelect (access : Bool) (s : Nat → IoState) (nfds : Int) (r w e : FdSet) (timeout : Option Timespec) (start : Nat)
    (passes : List Nat) : Wait SelectOut :=
  if nfds < 0 ∨ maxFd < nfds then .failed EINVAL
  else if access then
    waitLoop pollMs (fun t => selectPass (s t) nfds.toNat r w e) (selectMs timeout) (pollMs start) passes
  else .failed EFAULT

/-! ## `epoll` -/

def EPOLLIN : BitVec 32 := 1
def EPOLLPRI : BitVec 32 := 2
def EPOLLOUT : BitVec 32 := 4
def EPOLLERR : BitVec 32 := 8
def EPOLLHUP : BitVec 32 := 0x10
def EPOLLNVAL : BitVec 32 := 0x20

/-- The decision of `epoll_compute_revents` on `EPOLLIN`. -/
def epollReadable (d : Devices) (n : IoNode) : Bool :=
  if n.isFile then true
  else if (d.fionread n).1 = true ∧ 0 < (d.fionread n).2 then true
  else if n.isSocket then d.socketHas n POLLIN POLLIN
  else false

/-- The decision of `epoll_compute_revents` on `EPOLLOUT`. -/
def epollWritable (d : Devices) (n : IoNode) : Bool :=
  if n.isFile ∨ n.isPipe then true
  else if n.isSocket then d.socketHas n POLLOUT POLLOUT
  else false

def epollComputeRevents (s : IoState) (fd : Int) (wanted : BitVec 32) : BitVec 32 :=
  if fd < 0 ∨ maxFd ≤ fd then EPOLLERR ||| EPOLLHUP
  else
    match s.table fd.toNat with
    | none => EPOLLERR ||| EPOLLHUP
    | some n =>
      (if wanted &&& (EPOLLIN ||| EPOLLPRI) ≠ 0 ∧ epollReadable s.dev n = true then EPOLLIN else 0) |||
      (if wanted &&& EPOLLOUT ≠ 0 ∧ epollWritable s.dev n = true then EPOLLOUT else 0)

/-- What `sys_epoll_wait` reports of a watch. -/
def epollReport (s : IoState) (fd : Int) (events : BitVec 32) : BitVec 32 :=
  epollComputeRevents s fd events &&& (events ||| EPOLLERR ||| EPOLLHUP ||| EPOLLNVAL)

/-! ## What a pass says of one descriptor -/

variable {s : IoState} {d : Devices} {n : IoNode} {fd : Nat}

variable {p : PollFd}

theorem pollEntry_open (hp : p.fd = fd) (hfd : fd < maxFd) (hn : s.table fd = some n) : (pollEntry s p).revents =
      (if p.events &&& POLLIN ≠ 0 ∧ 0 < pollBytes s.dev n p.events then POLLIN else 0) |||
      (if p.events &&& POLLOUT ≠ 0 ∧ (n.isFile = true ∨ n.isPipe = true) then POLLOUT else 0) := by
  unfold pollEntry
  rw [if_neg (by omega), if_neg (by omega), hp, Int.toNat_natCast, hn]

theorem pollEntry_closed (hp : p.fd = fd) (hfd : fd < maxFd) (hn : s.table fd = none) :
    (pollEntry s p).revents = POLLNVAL := by
  unfold pollEntry
  rw [if_neg (by omega), if_neg (by omega), hp, Int.toNat_natCast, hn]

variable {a b : Prop}

theorem bits_in [Decidable a] [Decidable b] :
    ((if a then POLLIN else 0) ||| (if b then POLLOUT else 0)) &&& POLLIN ≠ 0 ↔ a := by
  by_cases ha : a <;> by_cases hb : b <;> simp only [ha, hb, if_true, if_false] <;> decide

theorem bits_out [Decidable a] [Decidable b] :
    ((if a then POLLIN else 0) ||| (if b then POLLOUT else 0)) &&& POLLOUT ≠ 0 ↔ b := by
  by_cases ha : a <;> by_cases hb : b <;> simp only [ha, hb, if_true, if_false] <;> decide

theorem poll_readable (hp : p.fd = fd) (hfd : fd < maxFd) (hev : p.events &&& POLLIN ≠ 0) :
    (pollEntry s p).revents &&& POLLIN ≠ 0 ↔ ∃ n, s.table fd = some n ∧ 0 < pollBytes s.dev n p.events := by
  cases hn : s.table fd with
  | none =>
    rw [pollEntry_closed hp hfd hn]
    simp only [reduceCtorEq, false_and, exists_false, iff_false]
    decide
  | some n =>
    rw [pollEntry_open hp hfd hn, bits_in, and_iff_right hev]
    simp

theorem poll_writable (hp : p.fd = fd) (hfd : fd < maxFd) (hev : p.events &&& POLLOUT ≠ 0) :
    (pollEntry s p).revents &&& POLLOUT ≠ 0 ↔ ∃ n, s.table fd = some n ∧ (n.isFile = true ∨ n.isPipe = true) := by
  cases hn : s.table fd with
  | none =>
    rw [pollEntry_closed hp hfd hn]
    simp only [reduceCtorEq, false_and, exists_false, iff_false]
    decide
  | some n =>
    rw [pollEntry_open hp hfd hn, bits_out, and_iff_right hev]
    simp

variable {r w : FdSet} {i : Nat} {out : SelectOut}

theorem selectTurn_rfds {j : Nat} :
    (selectTurn d r w i n out).rfds j = true ↔ out.rfds j = true ∨ j = i ∧ r.has i = true ∧ 0 < selectBytes d n := by
  have hset : ((if r.has i = true ∧ 0 < selectBytes d n then
      { out with rfds := update out.rfds i true, events := out.events + 1 } else out).rfds j = true) ↔
      out.rfds j = true ∨ j = i ∧ r.has i = true ∧ 0 < selectBytes d n := by
    by_cases hr : r.has i = true ∧ 0 < selectBytes d n
    · rw [if_pos hr]
      by_cases hj : j = i
      · subst hj
        simp [hr]
      · simp [hj]
    · rw [if_neg hr]
      simp [hr]
  unfold selectTurn
  dsimp only
  split <;> exact hset

theorem selectTurn_wfds {j : Nat} :
    (selectTurn d r w i n out).wfds j = true ↔ out.wfds j = true ∨ j = i ∧ w.has i = true ∧ selectWritable d n = true := by
  have hkeep : (if r.has i = true ∧ 0 < selectBytes d n then
      { out with rfds := update out.rfds i true, events := out.events + 1 } else out).wfds = out.wfds := by
    split <;> rfl
  unfold selectTurn
  dsimp only
  by_cases hw : w.has i = true ∧ selectWritable d n = true
  · rw [if_pos hw]
    dsimp only
    rw [hkeep]
    by_cases hj : j = i
    · subst hj
      simp [hw]
    · simp [hj]
  · rw [if_neg hw, hkeep]
    simp [hw]

variable {e : FdSet}

/-- **What the loop of `select` says**: a set has what it had, and what is ready of the descriptors asked about. -/
theorem selectLoop_spec (j : Nat) : ∀ {is : List Nat} {out out' : SelectOut}, selectLoop s r w e is out = .ok out' →
      (out'.rfds j = true ↔ out.rfds j = true ∨ j ∈ is ∧ r.has j = true ∧ ∃ n, s.table j = some n ∧
        0 < selectBytes s.dev n) ∧
      (out'.wfds j = true ↔ out.wfds j = true ∨ j ∈ is ∧ w.has j = true ∧ ∃ n, s.table j = some n ∧
        selectWritable s.dev n = true)
  | [], out, out', h => by
    cases h
    simp
  | i :: is, out, out', h => by
    unfold selectLoop at h
    cases hn : s.table i with
    | none =>
      simp only [hn] at h
      split at h
      · cases h
      · obtain ⟨hr, hw⟩ := selectLoop_spec j h
        rw [hr, hw]
        by_cases hj : j = i
        · subst hj
          simp [hn]
        · simp [hj]
    | some n =>
      simp only [hn] at h
      obtain ⟨hr, hw⟩ := selectLoop_spec j h
      rw [hr, hw, selectTurn_rfds, selectTurn_wfds]
      by_cases hj : j = i
      · subst hj
        simp only [hn, List.mem_cons, true_or, true_and, Option.some.injEq, exists_eq_left']
        exact ⟨or_iff_left_of_imp fun h => .inr h.2, or_iff_left_of_imp fun h => .inr h.2⟩
      · simp [hj]

theorem select_readable {nfds k : Nat} (h : selectPass s nfds r w e = .ok (k, out)) (hlt : fd < nfds)
    (hr : r.has fd = true) :
    out.rfds fd = true ↔ ∃ n, s.table fd = some n ∧ 0 < selectBytes s.dev n := by
  unfold selectPass at h
  cases hloop : selectLoop s r w e (List.range nfds) ⟨fun _ => false, fun _ => false, 0⟩ with
  | error err => rw [hloop] at h; cases h
  | ok out' =>
    rw [hloop] at h
    cases h
    rw [(selectLoop_spec fd hloop).1]
    simp [hlt, hr]

theorem select_writable {nfds k : Nat} (h : selectPass s nfds r w e = .ok (k, out)) (hlt : fd < nfds)
    (hw : w.has fd = true) :
    out.wfds fd = true ↔ ∃ n, s.table fd = some n ∧ selectWritable s.dev n = true := by
  unfold selectPass at h
  cases hloop : selectLoop s r w e (List.range nfds) ⟨fun _ => false, fun _ => false, 0⟩ with
  | error err => rw [hloop] at h; cases h
  | ok out' =>
    rw [hloop] at h
    cases h
    rw [(selectLoop_spec fd hloop).2]
    simp [hlt, hw]

theorem ne_zero_iff_getLsbD (x : BitVec 32) (i : Nat) (hi : i < 32) : x &&& BitVec.twoPow 32 i ≠ 0 ↔ x.getLsbD i = true := by
  rw [BitVec.and_twoPow]
  cases x.getLsbD i with
  | false => simp
  | true =>
    refine iff_of_true (fun h => ?_) rfl
    have := congrArg (BitVec.getLsbD · i) h
    simp [hi] at this

theorem epoll_bits [Decidable a] [Decidable b] (x : BitVec 32) :
    (((if a then EPOLLIN else 0) ||| (if b then EPOLLOUT else 0)) &&&
      (x ||| EPOLLERR ||| EPOLLHUP ||| EPOLLNVAL)).getLsbD 0 =
        (decide a && x.getLsbD 0) ∧
    (((if a then EPOLLIN else 0) ||| (if b then EPOLLOUT else 0)) &&&
      (x ||| EPOLLERR ||| EPOLLHUP ||| EPOLLNVAL)).getLsbD 2 =
        (decide b && x.getLsbD 2) := by
  by_cases ha : a <;> by_cases hb : b <;> simp [ha, hb, EPOLLIN, EPOLLOUT, EPOLLERR, EPOLLHUP, EPOLLNVAL]

theorem epoll_readable {events : BitVec 32} (hfd : fd < maxFd) (hev : events &&& EPOLLIN ≠ 0) :
    epollReport s fd events &&& EPOLLIN ≠ 0 ↔ ∃ n, s.table fd = some n ∧ epollReadable s.dev n = true := by
  have hbit : events.getLsbD 0 = true := (ne_zero_iff_getLsbD events 0 (by decide)).1 hev
  have hwanted : events &&& (EPOLLIN ||| EPOLLPRI) ≠ 0 := by
    intro h
    apply hev
    have := congrArg (· &&& EPOLLIN) h
    simpa [BitVec.and_assoc, EPOLLIN, EPOLLPRI] using this
  unfold epollReport epollComputeRevents
  rw [if_neg (by omega), Int.toNat_natCast]
  cases hn : s.table fd with
  | none =>
    simp only [reduceCtorEq, false_and, exists_false, iff_false, not_not]
    have h : ((EPOLLERR ||| EPOLLHUP) &&& (events ||| EPOLLERR ||| EPOLLHUP ||| EPOLLNVAL)) &&& EPOLLIN =
        ((EPOLLERR ||| EPOLLHUP) &&& EPOLLIN) &&& (events ||| EPOLLERR ||| EPOLLHUP ||| EPOLLNVAL) := by
      ac_rfl
    rw [h, show (EPOLLERR ||| EPOLLHUP) &&& EPOLLIN = 0 from rfl]
    simp
  | some n =>
    refine (ne_zero_iff_getLsbD _ 0 (by decide)).trans ?_
    rw [(epoll_bits events).1, hbit, Bool.and_true, decide_eq_true_eq, and_iff_right hwanted]
    simp

theorem epoll_writable {events : BitVec 32} (hfd : fd < maxFd) (hev : events &&& EPOLLOUT ≠ 0) :
    epollReport s fd events &&& EPOLLOUT ≠ 0 ↔ ∃ n, s.table fd = some n ∧ epollWritable s.dev n = true := by
  have hbit : events.getLsbD 2 = true := (ne_zero_iff_getLsbD events 2 (by decide)).1 hev
  unfold epollReport epollComputeRevents
  rw [if_neg (by omega), Int.toNat_natCast]
  cases hn : s.table fd with
  | none =>
    simp only [reduceCtorEq, false_and, exists_false, iff_false, not_not]
    have h : ((EPOLLERR ||| EPOLLHUP) &&& (events ||| EPOLLERR ||| EPOLLHUP ||| EPOLLNVAL)) &&& EPOLLOUT =
        ((EPOLLERR ||| EPOLLHUP) &&& EPOLLOUT) &&& (events ||| EPOLLERR ||| EPOLLHUP ||| EPOLLNVAL) := by
      ac_rfl
    rw [h, show (EPOLLERR ||| EPOLLHUP) &&& EPOLLOUT = 0 from rfl]
    simp
  | some n =>
    refine (ne_zero_iff_getLsbD _ 2 (by decide)).trans ?_
    rw [(epoll_bits events).2, hbit, Bool.and_true, decide_eq_true_eq, and_iff_right hev]
    simp

/-! ## Agreement -/

def Devices.Answers (d : Devices) : Prop :=
  ∀ n events, events &&& POLLIN ≠ 0 → d.socketHas n events POLLIN = d.socketHas n POLLIN POLLIN

/-- `pipe_read` of `size` bytes as long as nothing else runs: what it returns, or `none` where it gives up the CPU. -/
def pipeReadNow (nonblock : Bool) (size : Nat) : Nat → Pipe → Nat → Option PipeRet
  | 0, _, _ => none
  | fuel + 1, p, read =>
    match pipeReadTurn p nonblock size read with
    | (_, _, some ret) => some ret
    | (_, [], none) => none
    | (p', byte :: bytes, none) => pipeReadNow nonblock size fuel p' (read + (byte :: bytes).length)

/-- **The three interfaces agree on the descriptor `fd`**: whatever else is polled, selected or asked for, they call it
readable, and writable, alike; and the read end of a pipe is readable when the next byte can be read without waiting. -/
structure Agree (s : IoState) (fd : Nat) : Prop where
  pollSelectIn : ∀ (fds : List PollFd) (i : Nat) (p q : PollFd) (nfds k : Nat) (r w e : FdSet) (out : SelectOut),
    fds[i]? = some p → p.fd = fd → p.events &&& POLLIN ≠ 0 → (pollPass s fds).2[i]? = some q →
      selectPass s nfds r w e = .ok (k, out) → fd < nfds → r.has fd = true →
        (q.revents &&& POLLIN ≠ 0 ↔ out.rfds fd = true)
  pollEpollIn : ∀ (fds : List PollFd) (i : Nat) (p q : PollFd) (events : BitVec 32),
    fds[i]? = some p → p.fd = fd → p.events &&& POLLIN ≠ 0 → (pollPass s fds).2[i]? = some q → events &&& EPOLLIN ≠ 0 →
      (q.revents &&& POLLIN ≠ 0 ↔ epollReport s fd events &&& EPOLLIN ≠ 0)
  pollSelectOut : ∀ (fds : List PollFd) (i : Nat) (p q : PollFd) (nfds k : Nat) (r w e : FdSet) (out : SelectOut),
    fds[i]? = some p → p.fd = fd → p.events &&& POLLOUT ≠ 0 → (pollPass s fds).2[i]? = some q →
      selectPass s nfds r w e = .ok (k, out) → fd < nfds → w.has fd = true →
        (q.revents &&& POLLOUT ≠ 0 ↔ out.wfds fd = true)
  pollEpollOut : ∀ (fds : List PollFd) (i : Nat) (p q : PollFd) (events : BitVec 32),
    fds[i]? = some p → p.fd = fd → p.events &&& POLLOUT ≠ 0 → (pollPass s fds).2[i]? = some q → events &&& EPOLLOUT ≠ 0 →
      (q.revents &&& POLLOUT ≠ 0 ↔ epollReport s fd events &&& EPOLLOUT ≠ 0)
  pipeIn : ∀ (fds : List PollFd) (i : Nat) (p q : PollFd) (ptr : Nat) (nonblock : Bool) (pipe : Pipe),
    fds[i]? = some p → p.fd = fd → p.events &&& POLLIN ≠ 0 → (pollPass s fds).2[i]? = some q →
      s.table fd = some (pipeReader ptr nonblock) → s.dev.pipe ptr = some pipe →
        (q.revents &&& POLLIN ≠ 0 ↔ (pipeReadNow nonblock 1 2 pipe 0).isSome = true)

/-- What the three decisions ask in common: `FIONREAD` answers, and with the bytes lwIP's answer means; or the node is a
socket, whose failed `FIONREAD` leaves no bytes lwIP does not know of, and which lwIP does not call writable. -/
def Devices.Consistent (d : Devices) (n : IoNode) : Prop :=
  ((d.fionread n).1 = true ∨ n.isSocket = true) ∧
  (n.isSocket = true → d.socketHas n POLLOUT POLLOUT = false ∧
    ((d.fionread n).1 = true → d.socketHas n POLLIN POLLIN = true → 0 < (d.fionread n).2) ∧
    ((d.fionread n).1 = false → 0 < (d.fionread n).2 → d.socketHas n POLLIN POLLIN = true))

/-- The descriptor is closed, a file or a directory, or its devices are consistent. -/
def AgreeMet (s : IoState) (fd : Nat) : Prop :=
  ∀ n, s.table fd = some n → n.isFile = false → s.dev.Consistent n

theorem not_pipe_of_socket (h : n.isSocket = true) : n.isPipe = false := by
  unfold IoNode.isSocket at h
  unfold IoNode.isPipe
  rw [decide_eq_true_eq] at h
  rw [h]
  decide

theorem consistent_iff {events : BitVec 16} (ha : d.Answers) (hev : events &&& POLLIN ≠ 0) (hfile : n.isFile = false) :
    d.Consistent n ↔
      (0 < pollBytes d n events ↔ 0 < selectBytes d n) ∧ (0 < pollBytes d n events ↔ epollReadable d n = true) ∧
      ((n.isFile = true ∨ n.isPipe = true) ↔ selectWritable d n = true) ∧
      ((n.isFile = true ∨ n.isPipe = true) ↔ epollWritable d n = true) := by
  unfold Devices.Consistent pollBytes selectBytes epollReadable selectWritable epollWritable
  rw [ha n events hev, hfile]
  generalize (d.fionread n).2 = b
  generalize d.socketHas n POLLIN POLLIN = isIn
  generalize d.socketHas n POLLOUT POLLOUT = isOut
  have hpipe := @not_pipe_of_socket n
  cases (d.fionread n).1 <;> cases hs : n.isSocket
  all_goals cases isIn <;> cases isOut <;> by_cases hb : 0 < b <;> simp_all

theorem decisions_agree (events : BitVec 16) (ha : d.Answers) (hev : events &&& POLLIN ≠ 0)
    (hmet : n.isFile = false → d.Consistent n) :
    (0 < pollBytes d n events ↔ 0 < selectBytes d n) ∧ (0 < pollBytes d n events ↔ epollReadable d n = true) ∧
      ((n.isFile = true ∨ n.isPipe = true) ↔ selectWritable d n = true) ∧
      ((n.isFile = true ∨ n.isPipe = true) ↔ epollWritable d n = true) := by
  cases hfile : n.isFile with
  | false =>
    have hiff := (consistent_iff ha hev hfile).1 (hmet hfile)
    rwa [hfile] at hiff
  | true => simp [pollBytes, selectBytes, epollReadable, selectWritable, epollWritable, hfile]

theorem pipeReader_kind (ptr : Nat) (nonblock : Bool) : (pipeReader ptr nonblock).kind = 5 := by
  have hflags : ∀ b : Bool, (if b then 5 ||| 0x800 else 5 : BitVec 32) &&& 7#32 = 5 := by decide
  exact hflags nonblock

theorem not_consistent_pipe {ptr : Nat} {nonblock : Bool} : ¬ d.Consistent (pipeReader ptr nonblock) := by
  rintro ⟨hio | hsocket, -⟩
  · cases hio
  · rw [IoNode.isSocket, pipeReader_kind] at hsocket
    exact absurd hsocket (by decide)

theorem pipeReader_isFile {ptr : Nat} {nonblock : Bool} : (pipeReader ptr nonblock).isFile = false := by
  rw [IoNode.isFile, pipeReader_kind]
  decide

theorem selectLoop_ok : ∀ {is : List Nat} (out : SelectOut),
      (∀ i ∈ is, s.table i = none → r.has i = false ∧ w.has i = false ∧ e.has i = false) →
      ∃ out', selectLoop s r w e is out = .ok out'
  | [], out, _ => ⟨out, rfl⟩
  | i :: is, out, hopen => by
    unfold selectLoop
    cases hn : s.table i with
    | none =>
      obtain ⟨hr, hw, he⟩ := hopen i List.mem_cons_self hn
      rw [hr, hw, he]
      exact selectLoop_ok out fun j hj => hopen j (List.mem_cons_of_mem i hj)
    | some n => exact selectLoop_ok _ fun j hj => hopen j (List.mem_cons_of_mem i hj)

theorem pollPass_get {fds : List PollFd} {q : PollFd} (hp : fds[i]? = some p)
    (hq : (pollPass s fds).2[i]? = some q) : q = pollEntry s p := by
  unfold pollPass at hq
  rw [List.getElem?_map, hp] at hq
  exact (Option.some.inj hq).symm

/-- **The interfaces agree on a descriptor just when it is closed, a file or a directory, or its devices are consistent.** -/
theorem readiness_agrees_iff (s : IoState) (ha : s.dev.Answers) (fd : Nat) (hfd : fd < maxFd) :
    Agree s fd ↔ AgreeMet s fd := by
  constructor
  · intro h n hn hfile
    let p : PollFd := { fd, events := POLLIN ||| POLLOUT, revents := 0 }
    let one : FdSet := some fun i => i = fd
    have hin : p.events &&& POLLIN ≠ 0 := show (POLLIN ||| POLLOUT) &&& POLLIN ≠ 0 by decide
    have hout : p.events &&& POLLOUT ≠ 0 := show (POLLIN ||| POLLOUT) &&& POLLOUT ≠ 0 by decide
    have honly : ∀ i ∈ List.range (fd + 1), s.table i = none → one.has i = false ∧ one.has i = false ∧
        one.has i = false := by
      intro i _ hnone
      have hne : i ≠ fd := by
        rintro rfl
        rw [hn] at hnone
        cases hnone
      have hhas : one.has i = false := by simp [one, FdSet.has, hne]
      exact ⟨hhas, hhas, hhas⟩
    obtain ⟨out, hloop⟩ := selectLoop_ok (r := one) ⟨fun _ => false, fun _ => false, 0⟩ honly
    have hpass : selectPass s (fd + 1) one one one = .ok (out.events, out) := by
      unfold selectPass
      rw [hloop]
      rfl
    have hhas : one.has fd = true := by simp [one, FdSet.has]
    have h1 := h.pollSelectIn [p] 0 p _ _ _ _ _ _ _ rfl rfl hin rfl hpass (Nat.lt_succ_self fd) hhas
    have h2 := h.pollEpollIn [p] 0 p _ EPOLLIN rfl rfl hin rfl (by decide)
    have h3 := h.pollSelectOut [p] 0 p _ _ _ _ _ _ _ rfl rfl hout rfl hpass (Nat.lt_succ_self fd) hhas
    have h4 := h.pollEpollOut [p] 0 p _ EPOLLOUT rfl rfl hout rfl (by decide)
    rw [poll_readable rfl hfd hin, select_readable hpass (Nat.lt_succ_self fd) hhas] at h1
    rw [poll_readable rfl hfd hin, epoll_readable hfd (by decide)] at h2
    rw [poll_writable rfl hfd hout, select_writable hpass (Nat.lt_succ_self fd) hhas] at h3
    rw [poll_writable rfl hfd hout, epoll_writable hfd (by decide)] at h4
    simp only [hn, Option.some.injEq, exists_eq_left'] at h1 h2 h3 h4
    exact (consistent_iff ha hin hfile).2 ⟨h1, h2, h3, h4⟩
  · intro hmet
    refine ⟨?_, ?_, ?_, ?_, ?_⟩
    · intro fds i p q nfds k r w e out hp hpfd hev hq hpass hlt hr
      rw [pollPass_get hp hq, poll_readable hpfd hfd hev, select_readable hpass hlt hr]
      apply exists_congr
      intro n
      exact and_congr_right fun hn => (decisions_agree _ ha hev (hmet n hn)).1
    · intro fds i p q events hp hpfd hev hq hev'
      rw [pollPass_get hp hq, poll_readable hpfd hfd hev, epoll_readable hfd hev']
      apply exists_congr
      intro n
      exact and_congr_right fun hn => (decisions_agree _ ha hev (hmet n hn)).2.1
    · intro fds i p q nfds k r w e out hp hpfd hev hq hpass hlt hw
      rw [pollPass_get hp hq, poll_writable hpfd hfd hev, select_writable hpass hlt hw]
      apply exists_congr
      intro n
      exact and_congr_right fun hn => (decisions_agree POLLIN ha (by decide) (hmet n hn)).2.2.1
    · intro fds i p q events hp hpfd hev hq hev'
      rw [pollPass_get hp hq, poll_writable hpfd hfd hev, epoll_writable hfd hev']
      apply exists_congr
      intro n
      exact and_congr_right fun hn => (decisions_agree POLLIN ha (by decide) (hmet n hn)).2.2.2
    · intro fds i p q ptr nonblock pipe hp hpfd hev hq hn hpipe
      exact absurd (hmet _ hn pipeReader_isFile) not_consistent_pipe

def someDevices (pipe : Option Pipe) : Devices where
  ioctl n _ := if n.isSocket then (-1, 0) else (0, 3)
  lwipPoll _ events := events &&& POLLIN
  pipe _ := pipe

theorem answers_someDevices (pipe : Option Pipe) : (someDevices pipe).Answers := by
  intro n events hev
  have h : events &&& POLLIN &&& POLLIN ≠ 0 := by rwa [BitVec.and_assoc, BitVec.and_self]
  exact (decide_eq_true h).trans (show true = decide (POLLIN &&& POLLIN &&& POLLIN ≠ 0) by decide)

theorem readiness_agrees_tty :
    Agree ⟨fun fd => if fd = 3 then some { flags := 3, inode := 9, ioctl := true, ptr := 0 }
      else none, fun _ => 0, someDevices none⟩ 3 ↔
      AgreeMet ⟨fun fd => if fd = 3 then some { flags := 3, inode := 9, ioctl := true, ptr := 0 }
        else none, fun _ => 0, someDevices none⟩ 3 := by
  exact readiness_agrees_iff _ (answers_someDevices none) 3 (by decide)

/-- An empty pipe with a writer: `poll` calls its read end readable, `select` does not, and a read would wait. -/
theorem empty_pipe_polls_readable :
    ¬ ∀ (s : IoState), s.dev.Answers → ∀ fd < maxFd, Agree s fd := by
  intro hall
  let pipe : Pipe := Pipe.new fun _ => 0
  let s : IoState := ⟨fun fd => if fd = 3 then some (pipeReader 64 false) else none, fun _ => 0, someDevices (some pipe)⟩
  have h := (hall s (answers_someDevices _) 3 (by decide)).pipeIn [⟨3, POLLIN, 0⟩] 0 _ _ 64 false pipe rfl rfl
    (by decide) rfl rfl rfl
  have hread : pipeReadNow false 1 2 pipe 0 = none := rfl
  rw [hread] at h
  exact absurd (h.1 (by decide)) (by decide)

end EterOS.Syscall
