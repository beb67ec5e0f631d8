import EterOS.Syscall.Epoll
/-!
# Timeouts — whether the clocks and the waiting calls keep time

`sys_gettimeofday` and `sys_clock_gettime` put the whole seconds of a counter of 1000 ticks a second beside its ticks
modulo 100; `sys_poll`, `sys_select` and `sys_epoll_wait` add a thousand for each of those seconds to the ticks
themselves.  The first runs back ten times a second, the second is a second ahead at every second's end.
-/
namespace EterOS.Syscall

variable {ms : Nat → Nat} {start m t : Nat}

theorem exists_over (m start : Nat) (hc : Counts ms) (hm : m < 2 ^ 31) :
    ∃ t, start ≤ t ∧ t ≤ start + m ∧ m ≤ elapsed (ms t) (ms start) := by
  by_contra hnone
  have hlag : ∀ d ≤ m, elapsed (ms (start + d)) (ms start) < m := by
    intro d hd
    by_contra hover
    exact hnone ⟨start + d, Nat.le_add_right _ _, Nat.add_le_add_left hd _, Nat.not_lt.1 hover⟩
  have hgap := (lagging hc hm m hlag).2
  refine Nat.not_lt.2 ?_ (hlag m (Nat.le_refl m))
  rw [hgap]
  exact Nat.le_add_right _ _

/-! ## The calls as loops -/

variable {access : Bool} {w : Nat → IoState} {timeout : Int} {passes : List Nat}

theorem sysPoll_loop {fds : Option (List PollFd)} {nfds : Int}
    (h : (sysPoll access w fds nfds timeout start passes).ZeroAt t) :
    ∃ pass, (waitLoop (α := List PollFd) pollMs pass timeout (pollMs start) passes).ZeroAt t := by
  unfold sysPoll at h
  split at h
  · exact h.elim
  · split at h
    · split at h
      · exact h.elim
      · exact ⟨_, h⟩
    · split at h
      · exact ⟨_, h⟩
      · exact h.elim

theorem sysSelect_loop {nfds : Int} {r wr e : FdSet} {timeout : Option Timespec}
    (h : (sysSelect access w nfds r wr e timeout start passes).ZeroAt t) :
    ∃ pass, (waitLoop (α := SelectOut) pollMs pass (selectMs timeout) (pollMs start) passes).ZeroAt t := by
  unfold sysSelect at h
  split at h
  · exact h.elim
  · split at h
    · exact ⟨_, h⟩
    · exact h.elim

theorem sysEpollWait_loop {epfd maxevents : Int} (h : (sysEpollWait access w epfd maxevents timeout start passes).ZeroAt t) :
    ∃ pass passes', passes' ⊆ passes ∧
    (waitLoop (α := List EpollEvent) epollMs pass timeout (epollMs start) passes').ZeroAt t := by
  unfold sysEpollWait at h
  split at h
  · exact h.elim
  · exact ⟨_, _, List.filter_subset_self _, h⟩

theorem zeroAt_nonneg {α : Type*} {pass : Nat → Except Int (Nat × α)} {st : Nat} :
    ∀ {passes : List Nat}, (waitLoop ms pass timeout st passes).ZeroAt t → 0 ≤ timeout
  | [], h => h.elim
  | t' :: ts, h => by
    unfold waitLoop at h
    split at h
    · exact h.elim
    · split at h
      · rename_i n _ _ hn
        obtain ⟨-, rfl⟩ := h
        exact absurd hn (Nat.lt_irrefl 0)
      · split at h
        · rename_i hzero
          exact Int.le_of_eq hzero.symm
        · split at h
          · rename_i hover
            exact Int.le_of_lt hover.1
          · exact zeroAt_nonneg h

theorem start_le (h : InOrder start passes) (ht : t ∈ passes) : start ≤ t := (List.pairwise_cons.1 h).1 t ht

/-! ## Calls for which nothing is ever ready -/

def idle : IoState where
  table _ := some { flags := 3, inode := 0, ioctl := true, ptr := 64 }
  mem _ := 0
  dev := { ioctl := fun _ _ => (0, 0), lwipPoll := fun _ _ => 0, pipe := fun _ => none }

theorem inOrder_single (h : start ≤ t) : InOrder start [t] := by
  simpa [InOrder] using h

theorem pollPass_idle : pollPass idle [] = (0, []) := rfl

theorem selectPass_idle : selectPass idle 0 none none none = .ok (0, ⟨fun _ => false, fun _ => false, 0⟩) := rfl

theorem poll_idle (hpos : 0 < timeout) (hover : timeout.toNat ≤ elapsed (pollMs t) (pollMs start)) :
    (sysPoll true (fun _ => idle) (some []) 0 timeout start [t]).ZeroAt t := by
  unfold sysPoll
  rw [if_neg (by decide)]
  have hpass : (Except.ok (pollPass idle []) : Except Int _) = .ok (0, []) := congrArg Except.ok pollPass_idle
  show (waitLoop pollMs (fun _ => .ok (pollPass idle [])) timeout (pollMs start) [t]).ZeroAt t
  rw [hpass]
  exact zeroAt_pass rfl hpos hover

theorem select_idle {ts : Option Timespec} (hpos : 0 < selectMs ts)
    (hover : (selectMs ts).toNat ≤ elapsed (pollMs t) (pollMs start)) :
    (sysSelect true (fun _ => idle) 0 none none none ts start [t]).ZeroAt t := by
  unfold sysSelect
  rw [if_neg (by decide), if_pos rfl]
  exact zeroAt_pass selectPass_idle hpos hover

theorem epollScan_idle {a max : Nat} : ∀ (is out : List Nat), epollScan idle a max is out = out
  | [], _ => rfl
  | i :: is, out => by
    unfold epollScan
    split
    · rfl
    · rw [if_pos (show field idle.mem a i 0 = 0 from rfl)]
      exact epollScan_idle is out

theorem epoll_idle (hw : ∀ t, w t = idle) (hpos : 0 < timeout)
    (hover : timeout.toNat ≤ elapsed (epollMs t) (epollMs start)) :
    (sysEpollWait true w 3 1 timeout start [t]).ZeroAt t := by
  have hinst : epollInst idle true 3 1 = .ok 64 := rfl
  have hlock : [t].filter (fun _ => decide (idle.mem 64 = 0)) = [t] := List.filter_eq_self.2 fun _ _ => rfl
  have hpass : epollPass idle 64 (1 : Int).toNat = (0, []) := by
    simp [epollPass, epollScan_idle]
  unfold sysEpollWait
  simp only [hw, hinst, hlock, hpass]
  exact zeroAt_pass rfl hpos hover

/-! ## In time -/

/-- `poll` with a timeout of `m` milliseconds from the instant `start` on returns 0 only when they are over. -/
def PollInTime (start m : Nat) : Prop :=
  ∀ (access : Bool) (w : Nat → IoState) (fds : Option (List PollFd)) (nfds : Int) (passes : List Nat) (t : Nat),
    InOrder start passes → (sysPoll access w fds nfds m start passes).ZeroAt t → start + m ≤ t

/-- `select` likewise, with a timeout that makes `m` milliseconds. -/
def SelectInTime (start m : Nat) (ts : Timespec) : Prop :=
  ∀ (access : Bool) (w : Nat → IoState) (nfds : Int) (r wr e : FdSet) (passes : List Nat) (t : Nat),
    InOrder start passes → (sysSelect access w nfds r wr e (some ts) start passes).ZeroAt t → start + m ≤ t

def EpollInTime (start m : Nat) : Prop :=
  ∀ (access : Bool) (w : Nat → IoState) (epfd maxevents : Int) (passes : List Nat) (t : Nat),
    InOrder start passes → (sysEpollWait access w epfd maxevents m start passes).ZeroAt t → start + m ≤ t

theorem pollInTime_iff (hpos : 0 < m) (hm : m < 2 ^ 31) : PollInTime start m ↔ InSecond start m := by
  rw [← early_iff counts_pollMs hpos hm]
  constructor
  · intro h t hst hover
    exact h true (fun _ => idle) (some []) 0 [t] t (inOrder_single hst) (poll_idle (by omega) hover)
  · intro h access w fds nfds passes t hord hz
    obtain ⟨pass, hz⟩ := sysPoll_loop hz
    obtain ⟨hmem, hover⟩ := zeroAt_elapsed (by omega) hz
    exact h t (start_le hord hmem) hover

theorem epollInTime_iff (hpos : 0 < m) (hm : m < 2 ^ 31) : EpollInTime start m ↔ InSecond start m := by
  rw [← early_iff counts_epollMs hpos hm]
  constructor
  · intro h t hst hover
    obtain ⟨w, hw⟩ : ∃ w : Nat → IoState, ∀ t, w t = idle := ⟨fun _ => idle, fun _ => rfl⟩
    exact h true w 3 1 [t] t (inOrder_single hst)
      (epoll_idle hw (Int.natCast_pos.2 hpos) hover)
  · intro h access w epfd maxevents passes t hord hz
    obtain ⟨pass, passes', hsub, hz⟩ := sysEpollWait_loop hz
    obtain ⟨hmem, hover⟩ := zeroAt_elapsed (by omega) hz
    exact h t (start_le hord (hsub hmem)) hover

theorem selectMs_some (ts : Timespec) : selectMs (some ts) =
    (BitVec.ofInt 32 (ts.tvSec * 1000 + ts.tvNsec.tdiv 1000000)).toInt := rfl

theorem selectMs_lt (ts : Timespec) : selectMs (some ts) < 2 ^ 31 := by
  rw [selectMs_some]
  exact BitVec.toInt_lt

theorem selectMs_cases {ts : Timespec} (hts : ts.tvSec * 1000 + ts.tvNsec.tdiv 1000000 = m) :
    (m < 2 ^ 31 ∧ selectMs (some ts) = m) ∨ (2 ^ 31 ≤ m ∧ selectMs (some ts) < m) := by
  rw [selectMs_some, hts, BitVec.toInt_ofInt]
  unfold Int.bmod
  dsimp only
  split <;> omega

theorem selectInTime_iff {ts : Timespec} (hpos : 0 < m) (hts : ts.tvSec * 1000 + ts.tvNsec.tdiv 1000000 = m) :
    SelectInTime start m ts ↔ selectMs (some ts) < 0 ∨ InSecond start m := by
  rcases selectMs_cases hts with ⟨hm, hms⟩ | ⟨hm, hms⟩
  · rw [hms, or_iff_right (by omega), ← early_iff counts_pollMs hpos hm]
    constructor
    · intro h t hst hover
      refine h true _ _ _ _ _ _ t (inOrder_single hst) (select_idle (by omega) ?_)
      rw [hms]
      exact hover
    · intro h access w nfds r wr e passes t hord hz
      obtain ⟨pass, hz⟩ := sysSelect_loop hz
      obtain ⟨hmem, hover⟩ := zeroAt_elapsed (by omega) hz
      rw [hms] at hover
      exact h t (start_le hord hmem) hover
  · have hout : ¬ InSecond start m := by
      unfold InSecond
      omega
    rw [or_iff_left hout]
    constructor
    · intro h
      by_contra hneg
      by_cases hzero : selectMs (some ts) = 0
      · -- The call does not wait at all.
        have hz : (sysSelect true (fun _ => idle) 0 none none none (some ts) start [start]).ZeroAt start := by
          unfold sysSelect
          rw [if_neg (by decide), if_pos rfl, hzero]
          exact ⟨rfl, rfl⟩
        have := h true _ _ _ _ _ _ start (inOrder_single (Nat.le_refl start)) hz
        omega
      · obtain ⟨t, hst, hle, hover⟩ := exists_over (selectMs (some ts)).toNat start counts_pollMs
          (by have := selectMs_lt ts; omega)
        have := h true _ _ _ _ _ _ t (inOrder_single hst) (select_idle (by omega) hover)
        omega
    · intro hneg access w nfds r wr e passes t hord hz
      obtain ⟨pass, hz⟩ := sysSelect_loop hz
      exact absurd (zeroAt_nonneg hz) (by omega)

/-- **The clocks agree with the elapsed time on a pair of instants just when they misread both by about as much; `poll`,
`select` and `epoll_wait` wait out their milliseconds just when these end within the second they begin in**, or when
`select` makes a negative number of them. -/
theorem clocks_and_timeouts (start m : Nat) :
    (∀ (call : ClockCall) (access : Bool) (t1 t2 : Nat) (n1 n2 : Int), t1 ≤ t2 → call.read access t1 = .ok n1 →
      call.read access t2 = .ok n2 →
        ((n1 ≤ n2 ∧ n2 - n1 - 1000000 * ((t2 : Int) - t1) < clockRes ∧ 1000000 * ((t2 : Int) - t1) - (n2 - n1) < clockRes) ↔
          InStep t1 t2)) ∧
    (0 < m →
      (m < 2 ^ 31 → (PollInTime start m ↔ InSecond start m)) ∧
      (m < 2 ^ 31 → (EpollInTime start m ↔ InSecond start m)) ∧
      ∀ ts : Timespec, ts.tvSec * 1000 + ts.tvNsec.tdiv 1000000 = m →
        (SelectInTime start m ts ↔ selectMs (some ts) < 0 ∨ InSecond start m)) := by
  refine ⟨fun call access t1 t2 n1 n2 hle h1 h2 => ?_, fun hpos => ⟨?_, ?_, ?_⟩⟩
  · rw [read_reading h1, read_reading h2]
    exact reading_iff hle
  · exact pollInTime_iff hpos
  · exact epollInTime_iff hpos
  · exact fun ts hts => selectInTime_iff hpos hts

/-- From the 0th to the 3rd millisecond, and for half a second at the end of a second. -/
theorem clocks_and_timeouts_half_second :
    (((0 : Int) ≤ 30000000 ∧ 30000000 - 0 - 1000000 * (((3 : Nat) : Int) - (0 : Nat)) < clockRes ∧
      1000000 * (((3 : Nat) : Int) - (0 : Nat)) - (30000000 - 0) < clockRes) ↔ InStep 0 3) ∧
    (PollInTime 999 500 ↔ InSecond 999 500) ∧ (EpollInTime 999 500 ↔ InSecond 999 500) ∧
    (SelectInTime 999 500 ⟨0, 500000000⟩ ↔ selectMs (some ⟨0, 500000000⟩) < 0 ∨ InSecond 999 500) :=
  ⟨(clocks_and_timeouts 999 500).1 .gettimeofday true 0 3 0 30000000 (by decide) rfl rfl,
    ((clocks_and_timeouts 999 500).2 (by decide)).1 (by decide),
    ((clocks_and_timeouts 999 500).2 (by decide)).2.1 (by decide),
    ((clocks_and_timeouts 999 500).2 (by decide)).2.2 ⟨0, 500000000⟩ rfl⟩

/-- Within a millisecond the clock runs back by 990, and `poll`'s half second is over. -/
theorem clock_runs_back :
    ClockCall.gettimeofday.read true 99 = .ok 990000000 ∧ ClockCall.gettimeofday.read true 100 = .ok 0 ∧
      (sysPoll true (fun _ => idle) (some []) 0 500 999 [1000]).ZeroAt 1000 ∧ ¬ PollInTime 999 500 := by
  have hz : (sysPoll true (fun _ => idle) (some []) 0 500 999 [1000]).ZeroAt 1000 := poll_idle (by decide) (by decide)
  refine ⟨rfl, rfl, hz, fun h => ?_⟩
  exact absurd (h true (fun _ => idle) (some []) 0 [1000] 1000 (inOrder_single (by decide)) hz) (by decide)

end EterOS.Syscall
