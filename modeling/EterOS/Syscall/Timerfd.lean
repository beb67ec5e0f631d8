import EterOS.Syscall.Basic
import Mathlib.Algebra.Group.Nat.Defs
/-!
# Timerfd — the expirations of a timer that is looked at now and then

`timerfd_refresh`, `timerfd_read_fs` and `timerfd_ioctl_fs` of `kernel/arch/x86_64/syscall.c`.  Nothing counts a timer's
expirations as they happen: whoever looks at it adds up those that are due since the last look.  A look is what runs
under the lock, a turn of the loop of a read or an `ioctl`; calls of several tasks are their looks in some order.
-/
namespace EterOS.Syscall

open List

def EAGAIN : Int := 11
def ENOTTY : Int := 25
def FIONREAD : Nat := 0x541B

/-- `timerfd_ctx_t`, without the lock and the number of the clock. -/
structure TimerfdCtx where
  intervalMs : Nat
  nextExpiryMs : Nat
  pendingExpirations : Nat

def timerfdRefresh (tfd : TimerfdCtx) (now : Nat) : TimerfdCtx :=
  if tfd.nextExpiryMs = 0 ∨ now < tfd.nextExpiryMs then tfd
  else
    let due :=
      if 0 < tfd.intervalMs ∧ tfd.nextExpiryMs < now then
        (1 + (now - tfd.nextExpiryMs) / tfd.intervalMs) % 2 ^ 64
      else 1
    { tfd with
      pendingExpirations := (tfd.pendingExpirations + due) % 2 ^ 64
      nextExpiryMs := if 0 < tfd.intervalMs then (tfd.nextExpiryMs + due * tfd.intervalMs) % 2 ^ 64 else 0 }

/-- A turn of the loop of `timerfd_read_fs`: the expirations that are pending, taken if there are any. -/
def timerfdTurn (tfd : TimerfdCtx) (now : Nat) : TimerfdCtx × Option Nat :=
  let tfd := timerfdRefresh tfd now
  if 0 < tfd.pendingExpirations then ({ tfd with pendingExpirations := 0 }, some tfd.pendingExpirations)
  else (tfd, none)

/-- The loop of `timerfd_read_fs`, whose turns look at these times; no result while it sleeps on. -/
def timerfdReadLoop (nonblock : Bool) : TimerfdCtx → List Nat → TimerfdCtx × Option (Except Int Nat)
  | tfd, [] => (tfd, none)
  | tfd, now :: turns =>
    match timerfdTurn tfd now with
    | (tfd, some ready) => (tfd, some (.ok ready))
    | (tfd, none) => if nonblock then (tfd, some (.error EAGAIN)) else timerfdReadLoop nonblock tfd turns

structure TimerNode where
  ptr : Option TimerfdCtx
  nonblock : Bool

def timerfdReadFs (node : Option TimerNode) (buffer : Bool) (size : Nat) (turns : List Nat) :
    Option TimerNode × Option (Except Int Nat) :=
  match node with
  | none => (node, some (.error EFAULT))
  | some n =>
    if ¬ buffer then (node, some (.error EFAULT))
    else if size < 8 then (node, some (.error EINVAL))
    else
      match n.ptr with
      | none => (node, some (.error EINVAL))
      | some tfd =>
        let (tfd, r) := timerfdReadLoop n.nonblock tfd turns
        (some { n with ptr := some tfd }, r)

def timerfdIoctlFs (node : Option TimerNode) (arg : Bool) (request now : Nat) : Option TimerNode × Except Int Nat :=
  match node with
  | none => (node, .error EINVAL)
  | some n =>
    if ¬ arg then (node, .error EINVAL)
    else if request ≠ FIONREAD then (node, .error ENOTTY)
    else
      match n.ptr with
      | none => (node, .error EINVAL)
      | some tfd =>
        let tfd := timerfdRefresh tfd now
        (some { n with ptr := some tfd }, .ok (if 0 < tfd.pendingExpirations then 8 else 0))

/-! ## Looks -/

inductive Look where
  | turn (now : Nat)
  | ioctl (now : Nat)

def Look.now : Look → Nat
  | .turn now => now
  | .ioctl now => now

structure Timer where
  ctx : TimerfdCtx
  given : Nat

namespace Timer

/-- A timer that expires at `first` and every `interval` from then on, if that is not 0. -/
def armed (interval first : Nat) : Timer := ⟨⟨interval, first, 0⟩, 0⟩

def look (s : Timer) : Look → Timer
  | .turn now => ⟨(timerfdTurn s.ctx now).1, s.given + ((timerfdTurn s.ctx now).2).getD 0⟩
  | .ioctl now => ⟨timerfdRefresh s.ctx now, s.given⟩

/-- The expirations accumulated so far, whether a read has returned them or not. -/
def total (s : Timer) : Nat := s.given + s.ctx.pendingExpirations

end Timer

/-! ## The closed form -/

/-- How often a timer has expired by the time `t`. -/
def expirations (interval first t : Nat) : Nat :=
  if t < first then 0 else if interval = 0 then 1 else 1 + (t - first) / interval

variable {first interval n t : Nat}

theorem expirations_eq (hpos : 0 < interval) (hlt : t < first + interval * n)
    (hle : n = 0 ∨ first + interval * (n - 1) ≤ t) : expirations interval first t = n := by
  unfold expirations
  cases n with
  | zero => exact if_pos (by simpa using hlt)
  | succ n =>
    have hle' : first + interval * n ≤ t := hle.resolve_left (Nat.succ_ne_zero n)
    have hdiv : (t - first) / interval = n := by
      rw [Nat.div_eq_iff hpos]
      rw [Nat.mul_succ] at hlt
      rw [Nat.mul_comm n]
      omega
    rw [if_neg (by omega), if_neg (Nat.ne_of_gt hpos), hdiv, Nat.add_comm]

/-- What the looks up to the time `t` leave: `n` expirations, and the next one is still to come. -/
structure Ticking (interval first t n : Nat) (s : Timer) : Prop where
  interval_eq : s.ctx.intervalMs = interval
  total_eq : s.total = n
  next_eq : s.ctx.nextExpiryMs = if interval = 0 ∧ n ≠ 0 then 0 else first + interval * n
  count : if interval = 0 then n = (if t < first then 0 else 1)
    else t < first + interval * n ∧ (n = 0 ∨ first + interval * (n - 1) ≤ t)

variable {s : Timer}

theorem Ticking.expirations_eq (h : Ticking interval first t n s) : s.total = expirations interval first t := by
  have hcount := h.count
  rw [h.total_eq]
  by_cases hzero : interval = 0
  · rw [if_pos hzero] at hcount
    rw [hcount]
    simp [expirations, hzero]
  · rw [if_neg hzero] at hcount
    exact (Syscall.expirations_eq (Nat.pos_of_ne_zero hzero) hcount.1 hcount.2).symm

theorem ticking_armed (hfirst : 0 < first) : Ticking interval first 0 0 (Timer.armed interval first) := by
  refine ⟨rfl, rfl, by simp [Timer.armed], ?_⟩
  by_cases hzero : interval = 0
  · rw [if_pos hzero, if_pos hfirst]
  · rw [if_neg hzero]
    exact ⟨by omega, .inl rfl⟩

/-- With `k` whole intervals gone by since the expiry that is due, the last expiry up to now is `n + k` intervals after the
first. -/
theorem last_le {now k : Nat} (hdue : first + interval * n ≤ now) (hlow : interval * k ≤ now - (first + interval * n)) :
    first + interval * (n + k) ≤ now := by
  rw [Nat.mul_add, ← Nat.add_assoc]
  exact Nat.add_le_of_le_sub' hdue hlow

/-- The next expiry is at most an interval ahead of now, or the first one after `first`. -/
theorem next_fits {now k : Nat} (hfits : first + interval < 2 ^ 64) (hnow : now < 2 ^ 63)
    (hle : first + interval * (n + k) ≤ now) : first + interval * (n + (k + 1)) < 2 ^ 64 := by
  rcases Nat.eq_zero_or_pos (n + k) with hzero | hpos
  · rw [← Nat.add_assoc, hzero, Nat.zero_add, Nat.mul_one]
    exact hfits
  · have hint : interval ≤ now := Nat.le_trans (Nat.le_mul_of_pos_right _ hpos) (Nat.le_trans (Nat.le_add_left _ _) hle)
    calc first + interval * (n + (k + 1)) = first + interval * (n + k) + interval := by
          rw [← Nat.add_assoc, Nat.mul_succ, Nat.add_assoc]
      _ ≤ now + now := Nat.add_le_add hle hint
      _ < 2 ^ 64 := by omega

theorem Ticking.refresh {now : Nat} (h : Ticking interval first t n s) (hfirst : 0 < first)
    (hfits : first + interval < 2 ^ 64) (hnow : now < 2 ^ 63) (hle : t ≤ now) :
    ∃ n', Ticking interval first now n' ⟨timerfdRefresh s.ctx now, s.given⟩ := by
  obtain ⟨hint, htot, hnext, hcount⟩ := h
  unfold Timer.total at htot
  unfold timerfdRefresh
  by_cases hquiet : s.ctx.nextExpiryMs = 0 ∨ now < s.ctx.nextExpiryMs
  · -- Nothing is due: the timer has run down, or its next expiry is still ahead.
    rw [if_pos hquiet]
    refine ⟨n, hint, htot, hnext, ?_⟩
    by_cases hzero : interval = 0
    · rw [if_pos hzero] at hcount ⊢
      rw [hnext] at hquiet
      simp only [hzero, Nat.zero_mul, Nat.add_zero, true_and] at hquiet
      split at hquiet <;> split at hcount <;> split <;> omega
    · rw [if_neg hzero] at hcount ⊢
      rw [if_neg (by simp [hzero])] at hnext
      rw [hnext] at hquiet
      obtain ⟨hlt, hlow⟩ := hcount
      exact ⟨by omega, by omega⟩
  · rw [if_neg hquiet]
    obtain ⟨harmed, hdue⟩ := not_or.1 hquiet
    dsimp only
    by_cases hzero : interval = 0
    · rw [if_pos hzero] at hcount
      subst hzero
      have hn : n = 0 := by
        by_contra hne
        rw [if_pos ⟨rfl, hne⟩] at hnext
        exact harmed hnext
      subst hn
      rw [if_neg (by simp)] at hnext
      have hoff : ¬ 0 < s.ctx.intervalMs := by omega
      refine ⟨1, hint, ?_, ?_, ?_⟩
      · simp only [Timer.total, hoff, false_and, if_false]
        omega
      · simp [hoff]
      · rw [if_pos rfl, if_neg (by omega)]
    · rw [if_neg hzero] at hcount
      rw [if_neg (by simp [hzero])] at hnext
      have hpos : 0 < interval := Nat.pos_of_ne_zero hzero
      have hnextle : first + interval * n ≤ now := hnext ▸ Nat.le_of_not_lt hdue
      -- `k` whole intervals fit between the expiry that is due and now.
      obtain ⟨k, hk⟩ : ∃ k, k = (now - (first + interval * n)) / interval := ⟨_, rfl⟩
      have hklow : interval * k ≤ now - (first + interval * n) := hk ▸ Nat.mul_div_le _ _
      have hlast := last_le hnextle hklow
      have hnext_lt : now < first + interval * (n + (k + 1)) := by
        rw [Nat.mul_add, ← Nat.add_assoc]
        exact (Nat.sub_lt_iff_lt_add' hnextle).1 (hk ▸ Nat.lt_mul_div_succ _ hpos)
      have hnk : n + k < 2 ^ 63 := by
        apply Nat.lt_of_le_of_lt _ hnow
        exact Nat.le_trans (Nat.le_mul_of_pos_left _ hpos) (Nat.le_trans (Nat.le_add_left _ _) hlast)
      have hdue_eq : (if 0 < s.ctx.intervalMs ∧ s.ctx.nextExpiryMs < now then
          (1 + (now - s.ctx.nextExpiryMs) / s.ctx.intervalMs) % 2 ^ 64 else 1) = k + 1 := by
        rw [hint, hnext, ← hk]
        by_cases hlt : first + interval * n < now
        · have hk64 : 1 + k < 2 ^ 64 := by omega
          rw [if_pos ⟨hpos, hlt⟩, Nat.mod_eq_of_lt hk64, Nat.add_comm]
        · rw [if_neg (by simp [hlt]), hk, Nat.sub_eq_zero_of_le (Nat.not_lt.1 hlt), Nat.zero_div]
      have hsum : first + interval * n + interval * (k + 1) = first + interval * (n + (k + 1)) := by
        rw [Nat.mul_add interval n, Nat.add_assoc]
      have hnext64 := next_fits hfits hnow hlast
      rw [hdue_eq]
      refine ⟨n + (k + 1), hint, ?_, ?_, ?_⟩
      · simp only [Timer.total]
        rw [Nat.mod_eq_of_lt (by omega)]
        omega
      · dsimp only
        rw [hint, hnext, if_pos hpos, Nat.mul_comm (k + 1), hsum, Nat.mod_eq_of_lt hnext64, if_neg (by simp [hzero])]
      · rw [if_neg hzero]
        exact ⟨hnext_lt, .inr hlast⟩

theorem Ticking.take (h : Ticking interval first t n s) :
    Ticking interval first t n ⟨{ s.ctx with pendingExpirations := 0 }, s.given + s.ctx.pendingExpirations⟩ :=
  ⟨h.interval_eq, h.total_eq, h.next_eq, h.count⟩

theorem Ticking.look (h : Ticking interval first t n s) (hfirst : 0 < first)
    (hfits : first + interval < 2 ^ 64) (l : Look) (hnow : l.now < 2 ^ 63) (hle : t ≤ l.now) :
    ∃ n', Ticking interval first l.now n' (s.look l) := by
  obtain ⟨n', h'⟩ := h.refresh hfirst hfits hnow hle
  refine ⟨n', ?_⟩
  cases l with
  | ioctl now => exact h'
  | turn now =>
    have htake := h'.take
    unfold Timer.look timerfdTurn
    dsimp only [Look.now] at h' htake ⊢
    by_cases hpend : 0 < (timerfdRefresh s.ctx now).pendingExpirations
    · rw [if_pos hpend]
      exact htake
    · rw [if_neg hpend]
      exact h'

theorem Ticking.run (hfirst : 0 < first) (hfits : first + interval < 2 ^ 64) :
    ∀ (looks : List Look) {t n : Nat} {s : Timer}, Ticking interval first t n s →
    (t :: looks.map Look.now).Pairwise (· ≤ ·) →
      (∀ l ∈ looks, l.now < 2 ^ 63) → ∃ n', Ticking interval first ((t :: looks.map Look.now).getLast (by simp)) n'
        (looks.foldl Timer.look s)
  | [], _, n, _, h, _, _ => ⟨n, h⟩
  | l :: looks, t, n, s, h, hord, hlt => by
    rw [map_cons] at hord
    obtain ⟨hhead, htail⟩ := pairwise_cons.1 hord
    obtain ⟨n', h'⟩ := h.look hfirst hfits l (hlt l (mem_cons_self ..)) (hhead _ (mem_cons_self ..))
    have hrun := Ticking.run hfirst hfits looks h' htail fun l' hl' => hlt l' (mem_cons_of_mem _ hl')
    rw [foldl_cons]
    simpa [getLast_cons (cons_ne_nil _ _)] using hrun

theorem Ticking.read (hfirst : 0 < first) (hfits : first + interval < 2 ^ 64) (nonblock : Bool) :
    ∀ (turns : List Nat) {t n : Nat} {s : Timer}, Ticking interval first t n s → (t :: turns).Pairwise (· ≤ ·) →
    (∀ t ∈ turns, t < 2 ^ 63) →
      (timerfdReadLoop nonblock s.ctx turns).2 =
        match (if nonblock then turns.take 1 else turns).find? fun t => s.given < expirations interval first t with
        | some t => some (.ok (expirations interval first t - s.given))
        | none => if nonblock ∧ turns ≠ [] then some (.error EAGAIN) else none
  | [], _, _, _, _, _, _ => by cases nonblock <;> rfl
  | now :: turns, t, n, s, h, hord, hlt => by
    obtain ⟨hhead, htail⟩ := pairwise_cons.1 hord
    obtain ⟨n', h'⟩ := h.refresh hfirst hfits (hlt now mem_cons_self) (hhead now mem_cons_self)
    have htotal := h'.expirations_eq
    unfold Timer.total at htotal
    dsimp only at htotal
    rw [timerfdReadLoop, timerfdTurn]
    by_cases hpend : 0 < (timerfdRefresh s.ctx now).pendingExpirations
    · have hnew : s.given < expirations interval first now := by omega
      have hready : (timerfdRefresh s.ctx now).pendingExpirations = expirations interval first now - s.given := by omega
      cases nonblock <;> simpa [hpend, hnew] using hready
    · have hnone : ¬ s.given < expirations interval first now := by omega
      cases nonblock with
      | true => simp [hpend, hnone]
      | false =>
        have hrest := Ticking.read hfirst hfits false turns h' htail fun t ht => hlt t (mem_cons_of_mem _ ht)
        simpa [hpend, hnone] using hrest

/-- **However a timer is looked at**, its expirations up to a look are those of the clock, and a periodic timer's next one is
still to come: for every timer that is armed, and whose first period ends within 64 bits. -/
theorem timerfd_expirations (interval first : Nat) (hfirst : 0 < first) (hfits : first + interval < 2 ^ 64)
    (looks : List Look) (l : Look) (hord : ((looks ++ [l]).map Look.now).Pairwise (· ≤ ·))
    (hlt : ∀ l' ∈ looks ++ [l], l'.now < 2 ^ 63) :
    ((looks ++ [l]).foldl Timer.look (Timer.armed interval first)).total = expirations interval first l.now ∧
      (0 < interval →
        l.now < ((looks ++ [l]).foldl Timer.look (Timer.armed interval first)).ctx.nextExpiryMs) := by
  have hord' : (0 :: (looks ++ [l]).map Look.now).Pairwise (· ≤ ·) :=
    pairwise_cons.2 ⟨fun t _ => Nat.zero_le t, hord⟩
  obtain ⟨n, hrun⟩ := Ticking.run hfirst hfits _ (ticking_armed hfirst) hord' hlt
  have hlast : (0 :: (looks ++ [l]).map Look.now).getLast (by simp) = l.now := by simp
  rw [hlast] at hrun
  refine ⟨hrun.expirations_eq, fun hpos => ?_⟩
  have hcount := hrun.count
  rw [if_neg (Nat.ne_of_gt hpos)] at hcount
  rw [hrun.next_eq, if_neg (by omega)]
  exact hcount.1

/-- A timer that starts at 1000 and repeats every 250 ms, with a read after a long while. -/
theorem timerfd_expirations_late :
    (([Look.ioctl 10, Look.ioctl 1000] ++ [Look.turn 1740]).foldl Timer.look (Timer.armed 250 1000)).total =
    expirations 250 1000 1740 ∧
      (0 < 250 → 1740 < (([Look.ioctl 10, Look.ioctl 1000] ++ [Look.turn 1740]).foldl Timer.look
        (Timer.armed 250 1000)).ctx.nextExpiryMs) :=
  timerfd_expirations 250 1000 (by decide) (by decide) [.ioctl 10, .ioctl 1000] (.turn 1740) (by decide) (by decide)

/-- A first expiry at 0 means that the timer is off, and an interval that leads past 64 bits turns it off. -/
theorem timerfd_off :
    (([] ++ [Look.ioctl 0]).foldl Timer.look (Timer.armed 0 0)).total ≠ expirations 0 0 0 ∧
      ¬ (0 < 2 ^ 64 - 1 →
        1 < (([] ++ [Look.ioctl 1]).foldl Timer.look (Timer.armed (2 ^ 64 - 1) 1)).ctx.nextExpiryMs) := by
  decide

/-- **What `timerfd_read_fs` returns**: the expirations since the last read, at the first turn that finds any; a read that
must not block takes one turn. -/
theorem timerfd_read {interval first : Nat} (hfirst : 0 < first) (hfits : first + interval < 2 ^ 64) (looks : List Look)
    {s : Timer}
    (hs : s = looks.foldl Timer.look (Timer.armed interval first)) (turns : List Nat)
      (hord : (looks.map Look.now ++ turns).Pairwise (· ≤ ·))
    (hlt : ∀ t ∈ looks.map Look.now ++ turns, t < 2 ^ 63) (nonblock : Bool) {size : Nat} (hsize : 8 ≤ size) :
    (timerfdReadFs (some ⟨some s.ctx, nonblock⟩) true size turns).2 =
      match (if nonblock then turns.take 1 else turns).find? fun t => s.given < expirations interval first t with
      | some t => some (.ok (expirations interval first t - s.given))
      | none => if nonblock ∧ turns ≠ [] then some (.error EAGAIN) else none := by
  obtain ⟨hlooks, hturns, hacross⟩ := pairwise_append.1 hord
  obtain ⟨n, hrun⟩ := Ticking.run hfirst hfits looks (ticking_armed hfirst)
    (pairwise_cons.2 ⟨fun t _ => Nat.zero_le t, hlooks⟩)
    fun l hl => hlt _ (mem_append_left _ (mem_map_of_mem hl))
  rw [← hs] at hrun
  unfold timerfdReadFs
  simp only [not_true, if_false, if_neg (Nat.not_lt.2 hsize)]
  refine hrun.read hfirst hfits nonblock turns (pairwise_cons.2 ⟨fun t ht => ?_, hturns⟩) fun t ht =>
    hlt t (mem_append_right _ ht)
  rcases mem_cons.1 (getLast_mem (cons_ne_nil 0 (looks.map Look.now))) with h0 | hl
  · rw [h0]
    exact Nat.zero_le t
  · exact hacross _ hl t ht

theorem timerfd_read_late :
    (timerfdReadFs (some ⟨some ([Look.turn 1000].foldl Timer.look (Timer.armed 250 1000)).ctx, false⟩) true 8 [1100,
      1740]).2 = some (.ok 2) :=
  timerfd_read (by decide) (by decide) [.turn 1000] rfl [1100, 1740] (by decide) (by decide) false (Nat.le_refl 8)

end EterOS.Syscall
