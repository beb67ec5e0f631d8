import EterOS.Sched.Task
import EterOS.Syscall.Basic
/-!
# Clock — the tick counter, the times read off it, and the loop of a call that waits

`kernel/drivers/timer/pit.c`, `sys_gettimeofday`, `sys_clock_gettime` and `sys_clock_getres` of
`kernel/arch/x86_64/syscall.c`, and the shape `sys_poll`, `sys_select` and `sys_epoll_wait` share: look, give up if the
time is over, sleep, look again.  An instant is a number of ticks since the boot, one a millisecond; the counter is
that number as 64 bits hold it.
-/
namespace EterOS.Syscall

open Sched (TIMER_HZ)

/-! ## The counter -/

def timerGetTicks (t : Nat) : Nat := t % 2 ^ 64

def timerGetUptimeSeconds (t : Nat) : Nat := timerGetTicks t / TIMER_HZ % 2 ^ 32

theorem timerTick (t : Nat) : timerGetTicks (t + 1) = (timerGetTicks t + 1) % 2 ^ 64 := by
  unfold timerGetTicks
  omega

/-! ## The clocks -/

structure Timeval where
  tvSec : Nat
  tvUsec : Nat

structure Timespec where
  tvSec : Int
  tvNsec : Int

def hz : Nat := 100

/-- `sys_gettimeofday`, for `tv` not null; `access` is what `vmm_verify_user_access` said. -/
def sysGettimeofday (access : Bool) (t : Nat) : Except Int Timeval :=
  if access then
    .ok { tvSec := timerGetUptimeSeconds t, tvUsec := timerGetTicks t % hz * (1000000 / hz) }
  else .error EFAULT

/-- `CLOCK_REALTIME` to `CLOCK_THREAD_CPUTIME_ID`. -/
def clockIds : List Int := [0, 1, 2, 3]

def sysClockGettime (access : Bool) (clockId : Int) (t : Nat) : Except Int Timespec :=
  if access then
    if clockId ∈ clockIds then
      .ok { tvSec := timerGetUptimeSeconds t, tvNsec := (timerGetTicks t % hz * (1000000000 / hz) : Nat) }
    else .error EINVAL
  else .error EFAULT

def clockRes : Int := 10000000

inductive ClockCall where
  | gettimeofday
  | clockGettime (clockId : Int)

/-- The time the call gives at the instant `t`, in nanoseconds. -/
def ClockCall.read (access : Bool) (t : Nat) : ClockCall → Except Int Int
  | .gettimeofday => (sysGettimeofday access t).map fun tv => tv.tvSec * 1000000000 + tv.tvUsec * 1000
  | .clockGettime id => (sysClockGettime access id t).map fun tp => tp.tvSec * 1000000000 + tp.tvNsec

/-- The instant's place within its second as the clocks misread it: the tenths they drop, less the ninefold of the rest. -/
def misread (t : Nat) : Int := 100 * (timerGetTicks t % 1000 / 100 : Nat) - 9 * (timerGetTicks t % 100 : Nat)

/-- Neither the counter nor its seconds, as 32 bits hold them, start over between the instants. -/
def SameRound (t1 t2 : Nat) : Prop :=
  t1 / 2 ^ 64 = t2 / 2 ^ 64 ∧ timerGetTicks t1 / 1000 / 2 ^ 32 = timerGetTicks t2 / 1000 / 2 ^ 32

def InStep (t1 t2 : Nat) : Prop :=
  SameRound t1 t2 ∧ misread t2 - misread t1 < 10 ∧ misread t1 - misread t2 < 10

def reading (t : Nat) : Int := timerGetUptimeSeconds t * 1000000000 + (timerGetTicks t % hz * (1000000000 / hz) : Nat)

theorem read_reading {call : ClockCall} {access : Bool} {t : Nat} {n : Int} (h : call.read access t = .ok n) :
    n = reading t := by
  cases access with
  | false => cases call <;> cases h
  | true =>
    cases call with
    | gettimeofday =>
      have hn : (timerGetUptimeSeconds t : Int) * 1000000000 + (timerGetTicks t % hz * (1000000 / hz) : Nat) * 1000 = n :=
        Except.ok.inj h
      rw [← hn]
      unfold reading hz
      omega
    | clockGettime id =>
      simp only [ClockCall.read, sysClockGettime, ↓reduceIte] at h
      split at h
      · exact (Except.ok.inj h).symm
      · cases h

theorem reading_eq (t : Nat) :
    reading t = 1000000 * ((timerGetTicks t : Int) - misread t - 4294967296000 * (timerGetTicks t / 1000 / 2 ^ 32 :
      Nat)) := by
  unfold reading misread timerGetUptimeSeconds hz
  generalize timerGetTicks t = x
  simp only [TIMER_HZ]
  omega

theorem misread_bounds (t : Nat) : -891 ≤ misread t ∧ misread t ≤ 900 := by
  unfold misread
  omega

theorem rounds_le (t : Nat) : timerGetTicks t / 1000 / 2 ^ 32 ≤ 4294967 := by
  have hlt : timerGetTicks t < 2 ^ 64 := Nat.mod_lt _ (by decide)
  omega

theorem misread_le {t1 t2 : Nat} (hle : timerGetTicks t1 ≤ timerGetTicks t2) (hlt : timerGetTicks t2 < timerGetTicks t1 + 10)
    (hm : misread t2 - misread t1 < 10) : misread t2 - misread t1 ≤ (timerGetTicks t2 : Int) - timerGetTicks t1 := by
  unfold misread at *
  omega

theorem same_round {q e m : Int} (he : -4294967 ≤ e ∧ e ≤ 4294967) (hm : -1791 ≤ m ∧ m ≤ 1791)
    (hlo : -10 < 18446744073709551616 * q + 4294967296000 * e + m)
    (hhi : 18446744073709551616 * q + 4294967296000 * e + m < 10) : q = 0 ∧ e = 0 := by
  have hlow : -18446744073709551606 < 4294967296000 * e + m := by omega
  have hhigh : 4294967296000 * e + m < 18446744073709551606 := by omega
  have hq : q = 0 := by
    rw [Int.add_assoc] at hlo hhi
    generalize 4294967296000 * e + m = x at *
    omega
  subst hq
  omega

/-- **A pair of times agrees with the elapsed time** just when the clocks misread both instants by about as much. -/
theorem reading_iff {t1 t2 : Nat} (hle : t1 ≤ t2) :
    (reading t1 ≤ reading t2 ∧ reading t2 - reading t1 - 1000000 * ((t2 : Int) - t1) < clockRes ∧
      1000000 * ((t2 : Int) - t1) - (reading t2 - reading t1) < clockRes) ↔ InStep t1 t2 := by
  have hb1 := misread_bounds t1
  have hb2 := misread_bounds t2
  have hr1 := rounds_le t1
  have hr2 := rounds_le t2
  have hdiff : (t2 : Int) - t1 =
      18446744073709551616 * ((t2 / 2 ^ 64 : Nat) - (t1 / 2 ^ 64 : Nat)) +
      ((timerGetTicks t2 : Int) - timerGetTicks t1) := by
    unfold timerGetTicks
    omega
  rw [reading_eq, reading_eq, hdiff]
  have hsmall := @misread_le t1 t2
  have hx : t1 / 2 ^ 64 = t2 / 2 ^ 64 → timerGetTicks t1 ≤ timerGetTicks t2 := by
    unfold timerGetTicks
    omega
  unfold InStep SameRound clockRes
  generalize timerGetTicks t1 / 1000 / 2 ^ 32 = e1 at *
  generalize timerGetTicks t2 / 1000 / 2 ^ 32 = e2 at *
  clear hdiff hle
  generalize t1 / 2 ^ 64 = q1 at *
  generalize t2 / 2 ^ 64 = q2 at *
  generalize misread t1 = m1 at *
  generalize misread t2 = m2 at *
  generalize timerGetTicks t1 = x1 at *
  generalize timerGetTicks t2 = x2 at *
  have he : -4294967 ≤ (e2 : Int) - e1 ∧ (e2 : Int) - e1 ≤ 4294967 := by omega
  have hm : -1791 ≤ m2 - m1 ∧ m2 - m1 ≤ 1791 := by omega
  constructor
  · rintro ⟨-, hlo, hhi⟩
    obtain ⟨hq, he⟩ := same_round (q := (q2 : Int) - q1) he hm (by omega) (by omega)
    obtain rfl : q1 = q2 := by omega
    obtain rfl : e1 = e2 := by omega
    exact ⟨⟨rfl, rfl⟩, by omega, by omega⟩
  · rintro ⟨⟨rfl, rfl⟩, hlo, hhi⟩
    have hback : m2 - m1 ≤ (x2 : Int) - x1 := by
      by_cases hnear : x2 < x1 + 10
      · exact hsmall (hx rfl) hnear hlo
      · omega
    exact ⟨by omega, by omega, by omega⟩

/-! ## Waiting -/

/-- `timer_get_uptime_seconds() * 1000 + timer_get_ticks()`: the product has 32 bits, the sum 64. -/
def pollMs (t : Nat) : Nat := (timerGetUptimeSeconds t * 1000 % 2 ^ 32 + timerGetTicks t) % 2 ^ 64

/-- `(timer_get_uptime_seconds() * 1000ULL) + timer_get_ticks()`. -/
def epollMs (t : Nat) : Nat := (timerGetUptimeSeconds t * 1000 + timerGetTicks t) % 2 ^ 64

/-- How a waiting call ended, at which instant and with what it hands over; or it still waits. -/
inductive Wait (α : Type*) where
  | waiting
  | failed (err : Int)
  | returned (t n : Nat) (out : α)
  | expired (t : Nat) (out : α)

def elapsed (now start : Nat) : Nat := (now + 2 ^ 64 - start) % 2 ^ 64

variable {α : Type*} {ms : Nat → Nat} {pass : Nat → Except Int (Nat × α)} {timeout : Int} {start t : Nat}

/-- The loop: a pass over the descriptors at each of the instants, as long as none is ready and there is time. -/
def waitLoop (ms : Nat → Nat) (pass : Nat → Except Int (Nat × α)) (timeout : Int) (start : Nat) : List Nat → Wait α
  | [] => .waiting
  | t :: ts =>
    match pass t with
    | .error err => .failed err
    | .ok (n, out) =>
      if 0 < n then .returned t n out
      else if timeout = 0 then .returned t 0 out
      else if 0 < timeout ∧ timeout.toNat ≤ elapsed (ms t) start then .expired t out
      else waitLoop ms pass timeout start ts

def Wait.ZeroAt (t : Nat) : Wait α → Prop
  | .returned t' n _ => t' = t ∧ n = 0
  | .expired t' _ => t' = t
  | _ => False

def InOrder (start : Nat) (passes : List Nat) : Prop := (start :: passes).Pairwise (· ≤ ·)

theorem zeroAt_elapsed (hpos : 0 < timeout) : ∀ {passes : List Nat}, (waitLoop ms pass timeout start passes).ZeroAt t →
      t ∈ passes ∧ timeout.toNat ≤ elapsed (ms t) start
  | [], h => h.elim
  | t' :: ts, h => by
    unfold waitLoop at h
    split at h
    · exact h.elim
    · split at h
      · rename_i n _ _ hn
        obtain ⟨-, rfl⟩ := h
        exact absurd hn (Nat.lt_irrefl 0)
      · split at h
        · rename_i hzero
          exact absurd hzero (ne_of_gt hpos)
        · split at h
          · rename_i hover
            obtain rfl : t' = t := h
            exact ⟨List.mem_cons_self, hover.2⟩
          · obtain ⟨hmem, hle⟩ := zeroAt_elapsed hpos h
            exact ⟨List.mem_cons_of_mem _ hmem, hle⟩

theorem zeroAt_pass {out : α} (hpass : pass t = .ok (0, out)) (hpos : 0 < timeout)
    (hle : timeout.toNat ≤ elapsed (ms t) start) : (waitLoop ms pass timeout start [t]).ZeroAt t := by
  unfold waitLoop
  rw [hpass]
  simp only [Nat.lt_irrefl, if_false, if_neg (ne_of_gt hpos), if_pos (And.intro hpos hle)]
  rfl

/-- From one instant to the next the count goes on by one; over a second by a thousand more, or it falls far back. -/
structure Counts (ms : Nat → Nat) : Prop where
  lt : ∀ t, ms t < 2 ^ 64
  tick : ∀ t, timerGetTicks t + 1 < 2 ^ 64 → timerGetTicks t % 1000 ≠ 999 → ms (t + 1) = (ms t + 1) % 2 ^ 64
  second : ∀ t, timerGetTicks t + 1 < 2 ^ 64 → timerGetTicks t % 1000 = 999 → ms (t + 1) = (ms t + 1001) % 2 ^ 64 ∨
    ∃ fall, 2 ^ 63 ≤ fall ∧ fall ≤ 2 ^ 64 - 2 ^ 31 ∧ ms (t + 1) = (ms t + fall) % 2 ^ 64
  round : ∀ t, timerGetTicks t + 1 = 2 ^ 64 →
    ∃ fall, 2 ^ 63 ≤ fall ∧ fall ≤ 2 ^ 64 - 2 ^ 31 ∧ ms (t + 1) = (ms t + fall) % 2 ^ 64

theorem counts_of {f : Nat → Nat} (hms : ∀ t, ms t = (f (timerGetTicks t / 1000) + timerGetTicks t) % 2 ^ 64)
    (hf : ∀ s, f (s + 1) = f s + 1000 ∨ ∃ back, 2 ^ 31 + 1001 ≤ back ∧ back ≤ 2 ^ 63 ∧ f (s + 1) + back = f s + 1000)
    (hend : ∃ fall, 2 ^ 63 ≤ fall ∧ fall ≤ 2 ^ 64 - 2 ^ 31 ∧
      f 0 % 2 ^ 64 = (f 18446744073709551 + (2 ^ 64 - 1) + fall) % 2 ^ 64) : Counts ms := by
  refine ⟨fun t => hms t ▸ Nat.mod_lt _ (by decide), fun t hlt hsec => ?_, fun t hlt hsec => ?_, fun t hlast => ?_⟩
  · rw [hms, hms, timerTick, Nat.mod_eq_of_lt hlt]
    generalize timerGetTicks t = x at *
    have hdiv : (x + 1) / 1000 = x / 1000 := by omega
    rw [hdiv, ← Nat.add_assoc, Nat.mod_add_mod]
  · rw [hms, hms, timerTick, Nat.mod_eq_of_lt hlt]
    generalize timerGetTicks t = x at *
    have hdiv : (x + 1) / 1000 = x / 1000 + 1 := by omega
    rw [hdiv]
    rcases hf (x / 1000) with hs | ⟨back, hlo, hhi, hs⟩
    · left
      rw [hs, Nat.mod_add_mod]
      congr 1
      omega
    · right
      refine ⟨2 ^ 64 - back + 1001, by omega, by omega, ?_⟩
      rw [Nat.mod_add_mod, show f (x / 1000) + x + (2 ^ 64 - back + 1001) = f (x / 1000 + 1) + (x + 1) + 2 ^ 64 by omega,
        Nat.add_mod_right]
  · obtain ⟨fall, hlo, hhi, hfall⟩ := hend
    refine ⟨fall, hlo, hhi, ?_⟩
    rw [hms, hms, timerTick, hlast, Nat.mod_self, Nat.mod_add_mod, show timerGetTicks t = 2 ^ 64 - 1 by omega]
    exact hfall

theorem counts_pollMs : Counts pollMs := by
  refine counts_of (f := fun s => s % 2 ^ 32 * 1000 % 2 ^ 32) (fun _ => rfl) (fun s => ?_) ?_
  · have hnext : (s + 1) % 2 ^ 32 * 1000 % 2 ^ 32 = (s % 2 ^ 32 * 1000 % 2 ^ 32 + 1000) % 2 ^ 32 := by omega
    by_cases hwrap : s % 2 ^ 32 * 1000 % 2 ^ 32 + 1000 < 2 ^ 32
    · exact .inl (hnext.trans (Nat.mod_eq_of_lt hwrap))
    · refine .inr ⟨2 ^ 32, by decide, by decide, ?_⟩
      rw [hnext]
      omega
  · exact ⟨2 ^ 64 - (2 ^ 32 - 617), by decide, by decide, by decide⟩

theorem counts_epollMs : Counts epollMs := by
  refine counts_of (f := fun s => s % 2 ^ 32 * 1000) (fun _ => rfl) (fun s => ?_) ?_
  · by_cases hwrap : s % 2 ^ 32 + 1 < 2 ^ 32
    · left
      omega
    · exact .inr ⟨2 ^ 32 * 1000, by decide, by decide, by omega⟩
  · exact ⟨2 ^ 64 - (18446744073709551 % 2 ^ 32 * 1000 - 1), by decide, by decide, by decide⟩

/-- The `m` milliseconds from `start` on end within the second of the counter in which they begin. -/
def InSecond (start m : Nat) : Prop := timerGetTicks start % 1000 + m ≤ 1000 ∧ timerGetTicks start + m ≤ 2 ^ 64

theorem ticks_add {d : Nat} (h : timerGetTicks start + d < 2 ^ 64) :
    timerGetTicks (start + d) = timerGetTicks start + d := by
  rw [timerGetTicks, ← Nat.mod_add_mod]
  exact Nat.mod_eq_of_lt h

theorem seconds_next {x d : Nat} (h : (x + d) % 1000 = 999) :
    d + 1000 * ((x + d) / 1000 - x / 1000) + 1001 = d + 1 + 1000 * ((x + (d + 1)) / 1000 - x / 1000) := by
  omega

theorem seconds_same {x d : Nat} (h : (x + d) % 1000 ≠ 999) :
    d + 1000 * ((x + d) / 1000 - x / 1000) + 1 = d + 1 + 1000 * ((x + (d + 1)) / 1000 - x / 1000) := by
  omega

theorem elapsed_inSecond (hc : Counts ms) {m d : Nat} (hin : InSecond start m) (hd : d < m) :
    ms (start + d) = (ms start + d) % 2 ^ 64 := by
  obtain ⟨hsec, hround⟩ := hin
  induction d with
  | zero => exact (Nat.mod_eq_of_lt (hc.lt start)).symm
  | succ d ih =>
    have hticks := ticks_add ((Nat.add_lt_add_left (Nat.lt_of_succ_lt hd) _).trans_le hround)
    rw [← Nat.add_assoc, hc.tick _ (by omega) (by omega), ih (by omega), Nat.mod_add_mod, Nat.add_assoc]

theorem elapsed_add {a b k : Nat} (ha : a < 2 ^ 64) (hb : b < 2 ^ 64) (h : elapsed a b + k < 2 ^ 64) :
    elapsed ((a + k) % 2 ^ 64) b = elapsed a b + k := by
  unfold elapsed at h ⊢
  omega

/-- **While the count lags**, it has gone on by the ticks and a thousand for each second begun, and not fallen back. -/
theorem lagging (hc : Counts ms) {m : Nat} (hm : m < 2 ^ 31) :
    ∀ d, (∀ d' ≤ d, elapsed (ms (start + d')) (ms start) < m) →
      timerGetTicks start + d < 2 ^ 64 ∧
        elapsed (ms (start + d)) (ms start) = d + 1000 * ((timerGetTicks start + d) / 1000 - timerGetTicks start / 1000)
  | 0, _ => by
    have hlt := hc.lt start
    have hx : timerGetTicks start < 2 ^ 64 := Nat.mod_lt _ (by decide)
    refine ⟨hx, ?_⟩
    rw [Nat.add_zero, Nat.add_zero, Nat.sub_self, elapsed]
    omega
  | d + 1, hlag => by
    obtain ⟨hx, hprev⟩ := lagging hc hm d fun d' hd' => hlag d' (Nat.le_succ_of_le hd')
    have hlast := (hlag d (Nat.le_succ d)).trans hm
    have hnow := (hlag (d + 1) (Nat.le_refl _)).trans hm
    rw [← Nat.add_assoc start] at hnow ⊢
    have hticks := ticks_add hx
    have hgoes {k : Nat} (hk : k ≤ 2 ^ 64 - 2 ^ 31) (hstep : ms (start + d + 1) = (ms (start + d) + k) % 2 ^ 64) :
        elapsed (ms (start + d + 1)) (ms start) = elapsed (ms (start + d)) (ms start) + k := by
      rw [hstep]
      exact elapsed_add (hc.lt _) (hc.lt _) ((Nat.add_lt_add_of_lt_of_le hlast hk).trans_eq (by decide))
    -- A count that fell back would be over at once.
    have hback : ¬ ∃ fall, 2 ^ 63 ≤ fall ∧ fall ≤ 2 ^ 64 - 2 ^ 31 ∧
        ms (start + d + 1) = (ms (start + d) + fall) % 2 ^ 64 := by
      rintro ⟨fall, hlo, hhi, hfall⟩
      rw [hgoes hhi hfall] at hnow
      exact absurd ((hlo.trans (Nat.le_add_left _ _)).trans_lt hnow) (by decide)
    have hround : timerGetTicks start + d + 1 < 2 ^ 64 := by
      refine Nat.lt_of_le_of_ne hx fun hend => hback (hc.round _ ?_)
      rw [hticks]
      exact hend
    refine ⟨hround, ?_⟩
    have hlt : timerGetTicks (start + d) + 1 < 2 ^ 64 := by
      rw [hticks]
      exact hround
    by_cases hsec : timerGetTicks (start + d) % 1000 = 999
    · have hstep := (hc.second (start + d) hlt hsec).resolve_right hback
      rw [hgoes (by decide) hstep, hprev]
      exact seconds_next (hticks ▸ hsec)
    · have hstep := hc.tick (start + d) hlt hsec
      rw [hgoes (by decide) hstep, hprev]
      exact seconds_same (hticks ▸ hsec)

/-- **The time is over too early** by the count at some instant, unless it ends within the second it begins in. -/
theorem early_iff (hc : Counts ms) {m : Nat} (hpos : 0 < m) (hm : m < 2 ^ 31) :
    (∀ t, start ≤ t → m ≤ elapsed (ms t) (ms start) → start + m ≤ t) ↔ InSecond start m := by
  constructor
  · intro hnever
    have hlag : ∀ d' ≤ m - 1, elapsed (ms (start + d')) (ms start) < m := by
      intro d' hd'
      by_contra hover
      have := hnever (start + d') (Nat.le_add_right ..) (by omega)
      omega
    obtain ⟨hround, hgap⟩ := lagging hc hm (m - 1) hlag
    have hlast := hlag (m - 1) (Nat.le_refl _)
    unfold InSecond
    omega
  · intro hin t hst hover
    by_contra hearly
    obtain ⟨d, rfl⟩ := Nat.exists_eq_add_of_le hst
    have hd : d < m := by omega
    rw [elapsed_inSecond hc hin hd] at hover
    unfold elapsed at hover
    omega

end EterOS.Syscall
