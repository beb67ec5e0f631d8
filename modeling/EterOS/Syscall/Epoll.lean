import EterOS.Syscall.Ready
import Mathlib.Data.Finset.Card
import Mathlib.Data.Fintype.EquivFin
/-!
# Epoll — the watches of an epoll instance

`sys_epoll_create1`, `sys_epoll_ctl` and `sys_epoll_wait` (`kernel/arch/x86_64/syscall.c`).  The calls take whatever the
private pointer of the descriptor's node points at for an `epoll_instance_t`, so the instance is modelled as the words of
kernel memory it is: the lock, `watch_count`, and the watches of six words each.  Beside them stands what each instance
was asked to watch.
-/
namespace EterOS.Syscall

open List
open Function (update update_self update_of_ne)

def ENOSPC : Int := 28

/-- `O_CLOEXEC`, the only flag of `sys_epoll_create1`. -/
def EPOLL_CLOEXEC : BitVec 32 := 0x80000

def EPOLL_CTL_ADD : Int := 1
def EPOLL_CTL_DEL : Int := 2
def EPOLL_CTL_MOD : Int := 3

structure EpollEvent where
  events : BitVec 32
  data : BitVec 64

abbrev Words := Nat → BitVec 32

/-! ## The instance -/

def instWords : Nat := 2 + 6 * maxFd

/-- Word `k` of watch `i` of the instance at `a`: `used`, `fd`, `events`, padding, and the two of `data`. -/
def field (mem : Words) (a i k : Nat) : BitVec 32 := mem (a + 2 + 6 * i + k)

def setField (mem : Words) (a i k : Nat) (v : BitVec 32) : Words := update mem (a + 2 + 6 * i + k) v

def watchData (mem : Words) (a i : Nat) : BitVec 64 := field mem a i 5 ++ field mem a i 4

def setData (mem : Words) (a i : Nat) (data : BitVec 64) : Words :=
  setField (setField mem a i 4 (data.extractLsb' 0 32)) a i 5 (data.extractLsb' 32 32)

/-- The first loop of `sys_epoll_ctl`: the watch of `fd`. -/
def findWatch (mem : Words) (a : Nat) (fd : BitVec 32) : Option Nat :=
  (List.range maxFd).find? fun i => field mem a i 0 ≠ 0 ∧ field mem a i 1 = fd

def freeWatch (mem : Words) (a : Nat) : Option Nat :=
  (List.range maxFd).find? fun i => field mem a i 0 = 0

def addCount (mem : Words) (a : Nat) (v : BitVec 32) : Words := update mem (a + 1) (mem (a + 1) + v)

/-! ## The calls -/

def IoState.node (s : IoState) (i : Int) : Option IoNode :=
  if i < 0 ∨ maxFd ≤ i then none else s.table i.toNat

def sysEpollCreate1 (s : IoState) (flags : BitVec 32) (inst : Option Nat) (node : Bool) : Int × IoState :=
  if flags &&& ~~~EPOLL_CLOEXEC ≠ 0 then (- EINVAL, s)
  else
    match (List.range' 3 (maxFd - 3)).find? fun i => (s.table i).isNone with
    | none => (- EMFILE, s)
    | some fd =>
      match inst with
      | none => (- ENOMEM, s)
      | some a =>
        let s := { s with mem := fun x => if a ≤ x ∧ x < a + instWords then 0 else s.mem x }
        if node then
          (fd, { s with table := update s.table fd
                          (some { flags := 1, inode := 0, ioctl := false, ptr := a, epoll := true }) })
        else (- ENOMEM, s)

/-- The operation of `sys_epoll_ctl` under the lock, on the instance at `a`. -/
def epollOp (mem : Words) (a : Nat) (op : Int) (fd : BitVec 32) (event : EpollEvent) : Int × Words :=
  if op = EPOLL_CTL_ADD then
    match findWatch mem a fd with
    | some _ => (- EEXIST, mem)
    | none =>
      match freeWatch mem a with
      | none => (- ENOSPC, mem)
      | some i =>
        (0, addCount (setData (setField (setField (setField mem a i 0 1) a i 1 fd) a i 2 event.events) a i event.data) a 1)
  else if op = EPOLL_CTL_MOD then
    match findWatch mem a fd with
    | none => (- ENOENT, mem)
    | some i => (0, setData (setField mem a i 2 event.events) a i event.data)
  else if op = EPOLL_CTL_DEL then
    match findWatch mem a fd with
    | none => (- ENOENT, mem)
    | some i => (0, addCount (setField mem a i 0 0) a (-1))
  else (- EINVAL, mem)

/-- `sys_epoll_ctl`: what it returns, unless it waits for a lock that nobody holds, and the memory after it.  `event` is
what the pointer points at, if it is not null, and `access` what `vmm_verify_user_access` says of it. -/
def sysEpollCtl (s : IoState) (epfd op fd : Int) (event : Option EpollEvent) (access : Bool) : Option Int × Words :=
  match s.node epfd, s.node fd with
  | some ep, some _ =>
    if epfd = fd then (some (- EINVAL), s.mem)
    else if ep.ptr = 0 then (some (- EINVAL), s.mem)
    else if (op = EPOLL_CTL_ADD ∨ op = EPOLL_CTL_MOD) ∧ event = none then (some (- EFAULT), s.mem)
    else if event ≠ none ∧ access = false then (some (- EFAULT), s.mem)
    -- `spin_lock` puts 1 where it then finds it.
    else if s.mem ep.ptr ≠ 0 then (none, update s.mem ep.ptr 1)
    else
      let (ret, mem) := epollOp s.mem ep.ptr op (BitVec.ofInt 32 fd) (event.getD ⟨0, 0⟩)
      (some ret, mem)
  | _, _ => (some (- EBADF), s.mem)

/-- The loop of a pass of `sys_epoll_wait` over the watches that are left: those it reports. -/
def epollScan (s : IoState) (a max : Nat) : List Nat → List Nat → List Nat
  | [], out => out
  | i :: is, out =>
    if max ≤ out.length then out
    else if field s.mem a i 0 = 0 then epollScan s a max is out
    else if epollReport s (field s.mem a i 1).toInt (field s.mem a i 2) = 0 then epollScan s a max is out
    else epollScan s a max is (out ++ [i])

def epollEvent (s : IoState) (a i : Nat) : EpollEvent :=
  ⟨epollReport s (field s.mem a i 1).toInt (field s.mem a i 2), watchData s.mem a i⟩

def epollPass (s : IoState) (a max : Nat) : Nat × List EpollEvent :=
  let out := epollScan s a max (List.range maxFd) []
  (out.length, out.map (epollEvent s a))

/-- What `sys_epoll_wait` checks before it takes the lock, and the instance it takes. -/
def epollInst (s : IoState) (access : Bool) (epfd maxevents : Int) : Except Int Nat :=
  match s.node epfd with
  | none => .error EBADF
  | some ep =>
    if maxevents ≤ 0 then .error EINVAL
    else if access = false then .error EFAULT
    else if ep.ptr = 0 then .error EINVAL
    else .ok ep.ptr

def sysEpollWait (access : Bool) (w : Nat → IoState) (epfd maxevents timeout : Int) (start : Nat) (passes : List Nat) :
    Wait (List EpollEvent) :=
  match epollInst (w start) access epfd maxevents with
  | .error err => .failed err
  | .ok a =>
    waitLoop epollMs (fun t => .ok (epollPass (w t) a maxevents.toNat)) timeout (epollMs start)
      (passes.filter fun t => (w t).mem a = 0)

def epollWaitMem (s : IoState) (access : Bool) (epfd maxevents : Int) : Words :=
  match epollInst s access epfd maxevents with
  | .error _ => s.mem
  | .ok a => if s.mem a ≠ 0 then update s.mem a 1 else s.mem

/-! ## Runs -/

/-- What an instance was asked to watch: for a descriptor the events and the data last set for it. -/
abbrev Interest := Nat → Option EpollEvent

structure EpollState where
  io : IoState
  want : Nat → Interest

/-- The calls of the task; the devices go their own way while `epoll_wait` waits. -/
inductive EpollCall where
  | create1 (flags : BitVec 32) (inst : Option Nat) (node : Bool)
  | ctl (epfd op fd : Int) (event : Option EpollEvent) (access : Bool)
  | wait (access : Bool) (dev : Nat → Devices) (epfd maxevents timeout : Int) (start : Nat) (passes : List Nat)

def wantAfter (want : Interest) (op fd : Int) (event : EpollEvent) : Interest :=
  update want fd.toNat (if op = EPOLL_CTL_DEL then none else some event)

def epollStep (s : EpollState) : EpollCall → EpollState
  | .create1 flags inst node =>
    let (ret, io) := sysEpollCreate1 s.io flags inst node
    { io, want := if 0 ≤ ret then update s.want (inst.getD 0) (fun _ => none) else s.want }
  | .ctl epfd op fd event access =>
    let (ret, mem) := sysEpollCtl s.io epfd op fd event access
    { io := { s.io with mem }
      want :=
        match s.io.node epfd with
        | some ep => if ret = some 0 then update s.want ep.ptr (wantAfter (s.want ep.ptr) op fd (event.getD ⟨0, 0⟩))
            else s.want
        | none => s.want }
  | .wait access _ epfd maxevents _ _ _ => { s with io := { s.io with mem := epollWaitMem s.io access epfd maxevents } }

/-! ## Words -/

variable {mem mem' : Words} {a i j k k' : Nat} {v : BitVec 32} {want : Interest} {fd : Nat} {ev : EpollEvent}

@[simp] theorem field_setField (hk : k < 6) (hk' : k' < 6) :
    field (setField mem a i k v) a j k' = if j = i ∧ k' = k then v else field mem a j k' := by
  unfold field setField
  by_cases h : j = i ∧ k' = k
  · obtain ⟨rfl, rfl⟩ := h
    simp
  · rw [if_neg h, update_of_ne (by omega)]

@[simp] theorem field_addCount : field (addCount mem a v) a i k = field mem a i k := by
  unfold field addCount
  rw [update_of_ne (by omega)]

theorem field_setData {data : BitVec 64} (hk : k < 6) :
    field (setData mem a i data) a j k = if j = i ∧ k = 4 then data.extractLsb' 0 32 else
      if j = i ∧ k = 5 then data.extractLsb' 32 32 else field mem a j k := by
  unfold setData
  rw [field_setField (by decide) hk, field_setField (by decide) hk]
  split
  · rename_i h
    rw [if_neg (by omega)]
  · rfl

theorem watchData_setData (mem : Words) (a i : Nat) (data : BitVec 64) : watchData (setData mem a i data) a i = data := by
  unfold watchData
  rw [field_setData (by decide), field_setData (by decide)]
  simp only [Nat.reduceEqDiff, and_false, if_false, and_self, if_true]
  exact BitVec.extractLsb'_append_extractLsb'_eq_extractLsb' (by decide) |>.trans (by simp)

def SameOff (a : Nat) (mem mem' : Words) : Prop := ∀ x, ¬ (a ≤ x ∧ x < a + instWords) → mem' x = mem x

theorem SameOff.refl : SameOff a mem mem := fun _ _ => rfl

theorem SameOff.setField (h : SameOff a mem mem') (hi : i < maxFd) (hk : k < 6) : SameOff a mem (setField mem' a i k v) := by
  intro x hx
  have hne : x ≠ a + 2 + 6 * i + k := by
    rintro rfl
    apply hx
    unfold instWords
    omega
  exact (update_of_ne hne ..).trans (h x hx)

theorem SameOff.addCount (h : SameOff a mem mem') : SameOff a mem (addCount mem' a v) := by
  intro x hx
  have hne : x ≠ a + 1 := by
    rintro rfl
    apply hx
    unfold instWords
    omega
  exact (update_of_ne hne ..).trans (h x hx)

theorem SameOff.setData (h : SameOff a mem mem') {data : BitVec 64} (hi : i < maxFd) :
    SameOff a mem (setData mem' a i data) :=
  (h.setField hi (by decide)).setField hi (by decide)

theorem setField_lock : setField mem a i k v a = mem a := by
  unfold setField
  rw [update_of_ne (by omega)]

theorem setField_count : setField mem a i k v (a + 1) = mem (a + 1) := by
  unfold setField
  rw [update_of_ne (by omega)]

/-! ## What an instance watches -/

def usedWatches (mem : Words) (a : Nat) : Finset Nat := (Finset.range maxFd).filter fun i => field mem a i 0 ≠ 0

/-- **The instance at `a` watches what it was asked to**: each descriptor once, with the events and the data last set for
it, and `watch_count` is their number. -/
structure Watches (mem : Words) (a : Nat) (want : Interest) : Prop where
  lock : mem a = 0
  watch : ∀ i < maxFd, field mem a i 0 ≠ 0 →
    ∃ fd < maxFd, field mem a i 1 = BitVec.ofNat 32 fd ∧ want fd = some ⟨field mem a i 2, watchData mem a i⟩
  once : ∀ i < maxFd, ∀ j < maxFd, field mem a i 0 ≠ 0 → field mem a j 0 ≠ 0 → field mem a i 1 = field mem a j 1 → i = j
  has : ∀ fd, want fd ≠ none → fd < maxFd ∧ ∃ i < maxFd, field mem a i 0 ≠ 0 ∧ field mem a i 1 = BitVec.ofNat 32 fd
  count : mem (a + 1) = BitVec.ofNat 32 (usedWatches mem a).card

theorem fd_inj {fd fd' : Nat} (h : fd < maxFd) (h' : fd' < maxFd) (he : BitVec.ofNat 32 fd = BitVec.ofNat 32 fd') :
    fd = fd' := by
  have := congrArg BitVec.toNat he
  unfold maxFd at h h'
  simp only [BitVec.toNat_ofNat] at this
  omega

theorem Watches.congr (h : Watches mem a want) (hsame : ∀ x, a ≤ x → x < a + instWords → mem' x = mem x) :
    Watches mem' a want := by
  have hlock : mem' a = mem a := hsame a (Nat.le_refl a) (by unfold instWords; omega)
  have hcount : mem' (a + 1) = mem (a + 1) := hsame (a + 1) (by omega) (by unfold instWords; omega)
  have hfield : ∀ i < maxFd, ∀ k < 6, field mem' a i k = field mem a i k := by
    intro i hi k hk
    exact hsame _ (by omega) (by unfold instWords; omega)
  have hdata : ∀ i < maxFd, watchData mem' a i = watchData mem a i := by
    intro i hi
    unfold watchData
    rw [hfield i hi 4 (by decide), hfield i hi 5 (by decide)]
  have hused : usedWatches mem' a = usedWatches mem a := by
    apply Finset.filter_congr
    intro i hi
    rw [hfield i (Finset.mem_range.1 hi) 0 (by decide)]
  refine ⟨hlock.trans h.lock, fun i hi hu => ?_, fun i hi j hj hu hu' he => ?_, fun fd hfd => ?_, ?_⟩
  · rw [hfield i hi 0 (by decide)] at hu
    rw [hfield i hi 1 (by decide), hfield i hi 2 (by decide), hdata i hi]
    exact h.watch i hi hu
  · rw [hfield i hi 0 (by decide)] at hu
    rw [hfield j hj 0 (by decide)] at hu'
    rw [hfield i hi 1 (by decide), hfield j hj 1 (by decide)] at he
    exact h.once i hi j hj hu hu' he
  · obtain ⟨hlt, i, hi, hu, hw⟩ := h.has fd hfd
    refine ⟨hlt, i, hi, ?_⟩
    rw [hfield i hi 0 (by decide), hfield i hi 1 (by decide)]
    exact ⟨hu, hw⟩
  · rw [hcount, hused]
    exact h.count

theorem Watches.new (hzero : ∀ x, a ≤ x → x < a + instWords → mem x = 0) : Watches mem a fun _ => none := by
  have hfield : ∀ i < maxFd, field mem a i 0 = 0 := by
    intro i hi
    exact hzero _ (by omega) (by unfold instWords; omega)
  have hused : usedWatches mem a = ∅ := by
    apply Finset.filter_eq_empty_iff.2
    intro i hi hu
    exact hu (hfield i (Finset.mem_range.1 hi))
  refine ⟨hzero a (Nat.le_refl a) (by unfold instWords; omega), fun i hi hu => ?_, fun i hi _ _ hu => ?_,
    fun fd hfd => ?_, ?_⟩
  · exact absurd (hfield i hi) hu
  · exact absurd (hfield i hi) hu
  · exact absurd rfl hfd
  · rw [hused]
    exact hzero _ (by omega) (by unfold instWords; omega)

theorem findWatch_some (h : findWatch mem a v = some i) : i < maxFd ∧ field mem a i 0 ≠ 0 ∧ field mem a i 1 = v := by
  have hmem := mem_of_find?_eq_some h
  have hp := List.find?_some h
  simp only [decide_eq_true_eq] at hp
  exact ⟨mem_range.1 hmem, hp⟩

theorem findWatch_none (h : findWatch mem a v = none) (hi : i < maxFd) (hu : field mem a i 0 ≠ 0) : field mem a i 1 ≠ v := by
  have hp := List.find?_eq_none.1 h i (mem_range.2 hi)
  simp only [decide_eq_true_eq, not_and] at hp
  exact hp hu

theorem Watches.findWatch_eq_none (h : Watches mem a want) (hfd : fd < maxFd) :
    findWatch mem a (BitVec.ofNat 32 fd) = none ↔ want fd = none := by
  constructor
  · intro hnone
    by_contra hw
    obtain ⟨-, i, hi, hu, he⟩ := h.has fd hw
    exact findWatch_none hnone hi hu he
  · intro hw
    cases hf : findWatch mem a (BitVec.ofNat 32 fd) with
    | none => rfl
    | some i =>
      obtain ⟨hi, hu, he⟩ := findWatch_some hf
      obtain ⟨fd', hfd', he', hw'⟩ := h.watch i hi hu
      obtain rfl := fd_inj hfd hfd' (he.symm.trans he')
      rw [hw] at hw'
      cases hw'

/-- **There is room for every descriptor**: there are as many watches as descriptors, each watched once. -/
theorem Watches.room (h : Watches mem a want) (hfd : fd < maxFd) (hw : want fd = none) : freeWatch mem a ≠ none := by
  intro hfull
  have hused : ∀ i < maxFd, field mem a i 0 ≠ 0 := by
    intro i hi
    have hp := List.find?_eq_none.1 hfull i (mem_range.2 hi)
    simpa using hp
  choose! f hf hfd' hwant using fun i hi => h.watch i hi (hused i hi)
  let g : Fin maxFd → Fin maxFd := fun i => ⟨f i, hf i i.isLt⟩
  have hinj : Function.Injective g := by
    intro i j he
    have he' : f i = f j := congrArg Fin.val he
    apply Fin.ext
    apply h.once i i.isLt j j.isLt (hused i i.isLt) (hused j j.isLt)
    rw [hfd' i i.isLt, hfd' j j.isLt, he']
  obtain ⟨i, hi⟩ := (Finite.injective_iff_surjective.1 hinj) ⟨fd, hfd⟩
  have hfi : f i = fd := congrArg Fin.val hi
  have := hwant i i.isLt
  rw [hfi, hw] at this
  cases this

theorem Watches.put (h : Watches mem a want) (hi : i < maxFd) (hfd : fd < maxFd)
    (hwas : field mem a i 0 = 0 ∧ want fd = none ∨ field mem a i 0 ≠ 0 ∧ field mem a i 1 = BitVec.ofNat 32 fd)
    (hother : ∀ j k, j ≠ i → k < 6 → field mem' a j k = field mem a j k) (hused : field mem' a i 0 ≠ 0)
    (hfdw : field mem' a i 1 = BitVec.ofNat 32 fd) (hev : field mem' a i 2 = ev.events)
      (hdata : watchData mem' a i = ev.data)
    (hlock : mem' a = 0) (hcount : mem' (a + 1) = BitVec.ofNat 32 (usedWatches mem' a).card) :
    Watches mem' a (update want fd (some ev)) := by
  -- No other watch has `fd`.
  have hne : ∀ j < maxFd, j ≠ i → field mem a j 0 ≠ 0 → field mem a j 1 ≠ BitVec.ofNat 32 fd := by
    intro j hj hji hu he
    rcases hwas with ⟨-, hnone⟩ | ⟨hui, hei⟩
    · exact findWatch_none ((h.findWatch_eq_none hfd).2 hnone) hj hu he
    · exact hji (h.once j hj i hi hu hui (he.trans hei.symm))
  have hwd : ∀ j, j ≠ i → watchData mem' a j = watchData mem a j := by
    intro j hj
    unfold watchData
    rw [hother j 4 hj (by decide), hother j 5 hj (by decide)]
  refine ⟨hlock, fun j hj hu => ?_, fun j hj j' hj' hu hu' he => ?_, fun fd' hw => ?_, hcount⟩
  · by_cases hji : j = i
    · subst hji
      refine ⟨fd, hfd, hfdw, ?_⟩
      rw [update_self, hev, hdata]
    · rw [hother j 0 hji (by decide)] at hu
      rw [hother j 1 hji (by decide), hother j 2 hji (by decide), hwd j hji]
      obtain ⟨fd', hfd', he, hw⟩ := h.watch j hj hu
      refine ⟨fd', hfd', he, ?_⟩
      rw [update_of_ne ?_]
      · exact hw
      · rintro rfl
        exact hne j hj hji hu he
  · by_cases hji : j = i
    · subst hji
      by_cases hji' : j' = j
      · exact hji'.symm
      · rw [hother j' 0 hji' (by decide)] at hu'
        rw [hother j' 1 hji' (by decide), hfdw] at he
        exact absurd he.symm (hne j' hj' hji' hu')
    · rw [hother j 0 hji (by decide)] at hu
      rw [hother j 1 hji (by decide)] at he
      by_cases hji' : j' = i
      · subst hji'
        rw [hfdw] at he
        exact absurd he (hne j hj hji hu)
      · rw [hother j' 0 hji' (by decide)] at hu'
        rw [hother j' 1 hji' (by decide)] at he
        exact h.once j hj j' hj' hu hu' he
  · by_cases hfd' : fd' = fd
    · subst hfd'
      exact ⟨hfd, i, hi, hused, hfdw⟩
    · rw [update_of_ne hfd'] at hw
      obtain ⟨hlt, j, hj, hu, he⟩ := h.has fd' hw
      have hji : j ≠ i := by
        rintro rfl
        rcases hwas with ⟨hfree, -⟩ | ⟨-, hei⟩
        · exact hu hfree
        · exact hfd' (fd_inj hlt hfd (he.symm.trans hei))
      refine ⟨hlt, j, hj, ?_⟩
      rw [hother j 0 hji (by decide), hother j 1 hji (by decide)]
      exact ⟨hu, he⟩

theorem Watches.drop (h : Watches mem a want) (hi : i < maxFd) (hu : field mem a i 0 ≠ 0)
    (hfdw : field mem a i 1 = BitVec.ofNat 32 fd) (hfd : fd < maxFd) :
    Watches (addCount (setField mem a i 0 0) a (-1)) a (update want fd none) := by
  have hfield : ∀ j k, k < 6 → field (addCount (setField mem a i 0 0) a (-1)) a j k = if j = i ∧ k = 0 then 0
      else field mem a j k := by
    intro j k hk
    rw [field_addCount, field_setField (by decide) hk]
  have hwd : ∀ j, watchData (addCount (setField mem a i 0 0) a (-1)) a j = watchData mem a j := by
    intro j
    unfold watchData
    rw [hfield j 4 (by decide), hfield j 5 (by decide)]
    simp
  have hother : ∀ j, field (addCount (setField mem a i 0 0) a (-1)) a j 0 ≠ 0 → j ≠ i ∧ field mem a j 0 ≠ 0 := by
    intro j hu'
    rw [hfield j 0 (by decide)] at hu'
    by_cases hji : j = i
    · simp [hji] at hu'
    · exact ⟨hji, by simpa [hji] using hu'⟩
  have hkeep : ∀ j k, k < 6 → k ≠ 0 → field (addCount (setField mem a i 0 0) a (-1)) a j k = field mem a j k := by
    intro j k hk hk0
    rw [hfield j k hk, if_neg fun h => hk0 h.2]
  have herase : usedWatches (addCount (setField mem a i 0 0) a (-1)) a = (usedWatches mem a).erase i := by
    ext j
    simp only [usedWatches, Finset.mem_filter, Finset.mem_range, Finset.mem_erase, hfield j 0 (by decide), and_true]
    by_cases hji : j = i <;> simp [hji]
  have hmem : i ∈ usedWatches mem a := Finset.mem_filter.2 ⟨Finset.mem_range.2 hi, hu⟩
  refine ⟨?_, fun j hj hu' => ?_, fun j hj j' hj' hu1 hu2 he => ?_, fun fd' hw => ?_, ?_⟩
  · unfold addCount
    rw [update_of_ne (by omega), setField_lock]
    exact h.lock
  · obtain ⟨hji, hu'⟩ := hother j hu'
    rw [hkeep j 1 (by decide) (by decide), hkeep j 2 (by decide) (by decide), hwd j]
    obtain ⟨fd', hfd', he, hw⟩ := h.watch j hj hu'
    refine ⟨fd', hfd', he, ?_⟩
    rw [update_of_ne ?_]
    · exact hw
    · rintro rfl
      exact hji (h.once j hj i hi hu' hu (he.trans hfdw.symm))
  · rw [hkeep j 1 (by decide) (by decide), hkeep j' 1 (by decide) (by decide)] at he
    exact h.once j hj j' hj' (hother j hu1).2 (hother j' hu2).2 he
  · by_cases hfd' : fd' = fd
    · subst hfd'
      exact absurd (update_self ..) hw
    · rw [update_of_ne hfd'] at hw
      obtain ⟨hlt, j, hj, hu', he⟩ := h.has fd' hw
      have hji : j ≠ i := by
        rintro rfl
        exact hfd' (fd_inj hlt hfd (he.symm.trans hfdw))
      refine ⟨hlt, j, hj, ?_, ?_⟩
      · rw [hfield j 0 (by decide), if_neg fun h => hji h.1]
        exact hu'
      · rw [hkeep j 1 (by decide) (by decide)]
        exact he
  · rw [herase, Finset.card_erase_of_mem hmem]
    unfold addCount
    rw [update_self, setField_count, h.count]
    have hpos : 0 < (usedWatches mem a).card := Finset.card_pos.2 ⟨i, hmem⟩
    obtain ⟨c, hc⟩ := Nat.exists_eq_succ_of_ne_zero (Nat.ne_of_gt hpos)
    rw [hc, Nat.succ_eq_add_one, Nat.add_sub_cancel, BitVec.ofNat_add, BitVec.add_assoc]
    exact BitVec.add_zero _

/-- **What `sys_epoll_ctl` does to an instance**: `EEXIST` and `ENOENT` for a descriptor that is watched and one that is
not, and then nothing; otherwise what was asked. -/
structure OpSpec (mem : Words) (a : Nat) (want : Interest) (op : Int) (fd : Nat) (ev : EpollEvent) (r : Int × Words) :
    Prop where
  off : SameOff a mem r.2
  exist : r.1 = - EEXIST ↔ op = EPOLL_CTL_ADD ∧ want fd ≠ none
  noent : r.1 = - ENOENT ↔ (op = EPOLL_CTL_MOD ∨ op = EPOLL_CTL_DEL) ∧ want fd = none
  failed : r.1 ≠ 0 → r.2 = mem
  done : r.1 = 0 → Watches r.2 a (wantAfter want op fd ev)

theorem Watches.add (h : Watches mem a want) (hfd : fd < maxFd) (hw : want fd = none) (hi : i < maxFd)
    (hfree : field mem a i 0 = 0) :
    Watches (addCount (setData (setField (setField (setField mem a i 0 1) a i 1 (BitVec.ofNat 32 fd)) a i 2 ev.events) a i
      ev.data) a 1) a (update want fd (some ev)) := by
  have hfield : ∀ j k, k < 4 →
    field (addCount (setData (setField (setField (setField mem a i 0 1) a i 1 (BitVec.ofNat 32 fd))
      a i 2 ev.events) a i ev.data) a 1) a j k =
        if j = i then if k = 0 then 1 else if k = 1 then BitVec.ofNat 32 fd else if k = 2 then ev.events else field mem a j k
        else field mem a j k := by
    intro j k hk
    rw [field_addCount, field_setData (by omega), field_setField (by decide) (by omega),
      field_setField (by decide) (by omega), field_setField (by decide) (by omega)]
    by_cases hj : j = i
    · subst hj
      obtain rfl | rfl | rfl | rfl : k = 0 ∨ k = 1 ∨ k = 2 ∨ k = 3 := by omega
      all_goals simp
    · simp [hj]
  have hother : ∀ j k, j ≠ i → k < 6 → field (addCount (setData (setField (setField (setField mem a i 0 1) a i 1
      (BitVec.ofNat 32 fd)) a i 2 ev.events) a i ev.data) a 1) a j k = field mem a j k := by
    intro j k hj hk
    rw [field_addCount, field_setData hk, field_setField (by decide) hk, field_setField (by decide) hk,
      field_setField (by decide) hk]
    simp [hj]
  refine h.put hi hfd (.inl ⟨hfree, hw⟩) hother ?_ ?_ ?_ ?_ ?_ ?_
  · rw [hfield i 0 (by decide)]
    simp
  · rw [hfield i 1 (by decide)]
    simp
  · rw [hfield i 2 (by decide)]
    simp
  · have := watchData_setData (setField (setField (setField mem a i 0 1) a i 1 (BitVec.ofNat 32 fd)) a i 2 ev.events)
      a i ev.data
    unfold watchData at this ⊢
    rw [field_addCount, field_addCount]
    exact this
  · unfold addCount setData
    rw [update_of_ne (by omega), setField_lock, setField_lock, setField_lock, setField_lock, setField_lock]
    exact h.lock
  · have hinsert : usedWatches
      (addCount (setData (setField (setField (setField mem a i 0 1) a i 1 (BitVec.ofNat 32 fd)) a i 2
        ev.events) a i ev.data) a 1) a = insert i (usedWatches mem a) := by
      ext j
      simp only [usedWatches, Finset.mem_filter, Finset.mem_range, Finset.mem_insert, hfield j 0 (by decide), if_true]
      by_cases hj : j = i <;> simp [hj, hi]
    have hnot : i ∉ usedWatches mem a := by simp [usedWatches, hfree]
    rw [hinsert, Finset.card_insert_of_notMem hnot]
    unfold addCount setData
    rw [update_self, setField_count, setField_count, setField_count, setField_count, setField_count, h.count]
    exact (BitVec.ofNat_add _ _).symm

theorem Watches.modify (h : Watches mem a want) (hfd : fd < maxFd) (hi : i < maxFd) (hu : field mem a i 0 ≠ 0)
    (hfdw : field mem a i 1 = BitVec.ofNat 32 fd) :
    Watches (setData (setField mem a i 2 ev.events) a i ev.data) a (update want fd (some ev)) := by
  have hfield : ∀ j k, k < 4 → field (setData (setField mem a i 2 ev.events) a i ev.data) a j k =
      if j = i ∧ k = 2 then ev.events else field mem a j k := by
    intro j k hk
    rw [field_setData (by omega), field_setField (by decide) (by omega), if_neg (by omega), if_neg (by omega)]
  have hother : ∀ j k, j ≠ i → k < 6 → field (setData (setField mem a i 2 ev.events) a i ev.data) a j k =
      field mem a j k := by
    intro j k hj hk
    rw [field_setData hk, field_setField (by decide) hk]
    simp [hj]
  refine h.put hi hfd (.inr ⟨hu, hfdw⟩) hother ?_ ?_ ?_ (watchData_setData ..) ?_ ?_
  · rw [hfield i 0 (by decide)]
    simpa using hu
  · rw [hfield i 1 (by decide)]
    simpa using hfdw
  · rw [hfield i 2 (by decide)]
    simp
  · unfold setData
    rw [setField_lock, setField_lock, setField_lock]
    exact h.lock
  · have hused : usedWatches (setData (setField mem a i 2 ev.events) a i ev.data) a = usedWatches mem a := by
      apply Finset.filter_congr
      intro j _
      rw [hfield j 0 (by decide)]
      simp
    rw [hused]
    unfold setData
    rw [setField_count, setField_count, setField_count]
    exact h.count

theorem OpSpec.refused {op err : Int} (h0 : err ≠ 0) (hexist : err = - EEXIST ↔ op = EPOLL_CTL_ADD ∧ want fd ≠ none)
    (hnoent : err = - ENOENT ↔ (op = EPOLL_CTL_MOD ∨ op = EPOLL_CTL_DEL) ∧ want fd = none) :
    OpSpec mem a want op fd ev (err, mem) :=
  ⟨.refl, hexist, hnoent, fun _ => rfl, fun h => absurd h h0⟩

theorem OpSpec.succeeded {op : Int} (hoff : SameOff a mem mem') (hexist : ¬ (op = EPOLL_CTL_ADD ∧ want fd ≠ none))
    (hnoent : ¬ ((op = EPOLL_CTL_MOD ∨ op = EPOLL_CTL_DEL) ∧ want fd = none))
    (hdone : Watches mem' a (wantAfter want op fd ev)) : OpSpec mem a want op fd ev (0, mem') :=
  ⟨hoff, iff_of_false (show (0 : Int) ≠ - EEXIST by decide) hexist,
    iff_of_false (show (0 : Int) ≠ - ENOENT by decide) hnoent, fun h => absurd rfl h, fun _ => hdone⟩

theorem Watches.op (h : Watches mem a want) (hfd : fd < maxFd) (op : Int) (ev : EpollEvent) :
    OpSpec mem a want op fd ev (epollOp mem a op (BitVec.ofNat 32 fd) ev) := by
  have hnone := h.findWatch_eq_none hfd
  have hsome : ∀ {i}, findWatch mem a (BitVec.ofNat 32 fd) = some i → want fd ≠ none := by
    intro i hf hw
    rw [hnone.2 hw] at hf
    cases hf
  unfold epollOp
  by_cases hadd : op = EPOLL_CTL_ADD
  · subst hadd
    rw [if_pos rfl]
    cases hf : findWatch mem a (BitVec.ofNat 32 fd) with
    | some i =>
      refine .refused (by decide) (iff_of_true rfl ⟨rfl, hsome hf⟩) (iff_of_false (by decide) ?_)
      exact fun hx => hsome hf hx.2
    | none =>
      have hw : want fd = none := hnone.1 hf
      cases hfree : freeWatch mem a with
      | none => exact absurd hfree (h.room hfd hw)
      | some i =>
        have hi : i < maxFd := mem_range.1 (mem_of_find?_eq_some hfree)
        have hzero : field mem a i 0 = 0 := by simpa using List.find?_some hfree
        refine .succeeded ?_ (fun hx => hx.2 hw) (fun hx => ?_) (h.add hfd hw hi hzero)
        · exact ((((SameOff.refl.setField hi (by decide)).setField hi (by decide)).setField hi (by decide)).setData
            hi).addCount
        · rcases hx.1 with h0 | h0 <;> exact absurd h0 (by decide)
  · rw [if_neg hadd]
    by_cases hmod : op = EPOLL_CTL_MOD
    · subst hmod
      rw [if_pos rfl]
      cases hf : findWatch mem a (BitVec.ofNat 32 fd) with
      | none =>
        refine .refused (by decide) (iff_of_false (by decide) fun hx => hadd hx.1) (iff_of_true rfl ?_)
        exact ⟨.inl rfl, hnone.1 hf⟩
      | some i =>
        obtain ⟨hi, hu, he⟩ := findWatch_some hf
        refine .succeeded ?_ (fun hx => hadd hx.1) (fun hx => hsome hf hx.2) (h.modify hfd hi hu he)
        exact (SameOff.refl.setField hi (by decide)).setData hi
    · rw [if_neg hmod]
      by_cases hdel : op = EPOLL_CTL_DEL
      · subst hdel
        rw [if_pos rfl]
        cases hf : findWatch mem a (BitVec.ofNat 32 fd) with
        | none =>
          refine .refused (by decide) (iff_of_false (by decide) fun hx => hadd hx.1) (iff_of_true rfl ?_)
          exact ⟨.inr rfl, hnone.1 hf⟩
        | some i =>
          obtain ⟨hi, hu, he⟩ := findWatch_some hf
          refine .succeeded ?_ (fun hx => hadd hx.1) (fun hx => hsome hf hx.2) (h.drop hi hu he hfd)
          exact (SameOff.refl.setField hi (by decide)).addCount
      · rw [if_neg hdel]
        refine .refused (by decide) (iff_of_false (by decide) fun hx => hadd hx.1) (iff_of_false (by decide) fun hx => ?_)
        exact hx.1.elim hmod hdel

/-! ## The task's instances -/

def Apart (a b : Nat) : Prop := a + instWords ≤ b ∨ b + instWords ≤ a

instance (a b : Nat) : Decidable (Apart a b) := inferInstanceAs (Decidable (_ ∨ _))

/-- Descriptor `i` is the epoll instance at `a`. -/
def IoState.EpollAt (s : IoState) (i a : Nat) : Prop := i < maxFd ∧ ∃ n, s.table i = some n ∧ n.epoll = true ∧ n.ptr = a

/-- **The interest sets**: every epoll instance of the task watches what it was asked to. -/
structure EpollState.Sets (s : EpollState) : Prop where
  watches : ∀ i a, s.io.EpollAt i a → a ≠ 0 ∧ Watches s.io.mem a (s.want a)
  apart : ∀ i j a b, s.io.EpollAt i a → s.io.EpollAt j b → a = b ∨ Apart a b
  isOpen : ∀ i a fd, s.io.EpollAt i a → s.want a fd ≠ none → s.io.table fd ≠ none

/-- A call of `sys_epoll_ctl` on the epoll instance at `a` whose other arguments are in order. -/
structure CtlOn (s : IoState) (a : Nat) (epfd op fd : Int) (event : Option EpollEvent) (access : Bool) : Prop where
  inst : ∃ n, s.node epfd = some n ∧ n.epoll = true ∧ n.ptr = a
  watched : s.node fd ≠ none
  other : epfd ≠ fd
  given : op = EPOLL_CTL_ADD ∨ op = EPOLL_CTL_MOD → event ≠ none
  mapped : event ≠ none → access = true

def IoState.IsEpoll (s : IoState) (epfd : Int) : Prop := ∃ n, s.node epfd = some n ∧ n.epoll = true

/-- What `epoll_wait` hands over from the instance at `a` at the instant of a pass: ready watched descriptors, each once,
with the data last set; all of them, unless `max` are handed over. -/
def Reports (s : IoState) (want : Interest) (max : Nat) (out : List EpollEvent) : Prop :=
  ∃ fds : List Nat, fds.Nodup ∧ out.length ≤ max ∧
    List.Forall₂ (fun fd e => ∃ ev, want fd = some ev ∧ e.events = epollReport s fd ev.events ∧ e.events ≠ 0 ∧
      e.data = ev.data)
      fds out ∧
    ∀ fd ev, want fd = some ev → epollReport s fd ev.events ≠ 0 → fd ∈ fds ∨ out.length = max

/-- **A call does what the interest set says.** -/
def EpollState.Faithful (s : EpollState) : EpollCall → Prop
  | .create1 .. => True
  | .ctl epfd op fd event access =>
    (s.io.IsEpoll epfd ∨ (epollStep s (.ctl epfd op fd event access)).io = s.io) ∧
    ((sysEpollCtl s.io epfd op fd event access).1 = some (- EEXIST) ↔
      ∃ a, CtlOn s.io a epfd op fd event access ∧ op = EPOLL_CTL_ADD ∧ s.want a fd.toNat ≠ none) ∧
    ((sysEpollCtl s.io epfd op fd event access).1 = some (- ENOENT) ↔
      ∃ a, CtlOn s.io a epfd op fd event access ∧ (op = EPOLL_CTL_MOD ∨ op = EPOLL_CTL_DEL) ∧ s.want a fd.toNat = none) ∧
    ((sysEpollCtl s.io epfd op fd event access).1 ≠ some 0 → (epollStep s (.ctl epfd op fd event access)).io = s.io)
  | .wait access dev epfd maxevents timeout start passes =>
    (epollStep s (.wait access dev epfd maxevents timeout start passes)).io = s.io ∧
    ∀ n, s.io.node epfd = some n → n.epoll = true → ∀ t k out,
      sysEpollWait access (fun t => { s.io with dev := dev t }) epfd maxevents timeout start passes = .returned t k out →
        k = out.length ∧ Reports { s.io with dev := dev t } (s.want n.ptr) maxevents.toNat out

/-- `kmalloc` gives memory that is no instance's; and a descriptor that is no epoll instance has no private object. -/
def EpollMet (s : EpollState) : EpollCall → Prop
  | .create1 _ inst _ => ∀ a, inst = some a → a ≠ 0 ∧ ∀ i b, s.io.EpollAt i b → Apart a b
  | .ctl epfd .. => ∀ n, s.io.node epfd = some n → n.epoll = false → n.ptr = 0
  | .wait _ _ epfd .. => ∀ n, s.io.node epfd = some n → n.epoll = false → n.ptr = 0

/-! ## `epoll_wait` -/

def ReadyWatch (s : IoState) (a i : Nat) : Prop :=
  field s.mem a i 0 ≠ 0 ∧ epollReport s (field s.mem a i 1).toInt (field s.mem a i 2) ≠ 0

theorem epollScan_spec {s : IoState} {max : Nat} :
    ∀ {is out : List Nat}, is.Nodup → out.Nodup → (∀ i ∈ is, i ∉ out) → out.length ≤ max →
      (epollScan s a max is out).Nodup ∧ (epollScan s a max is out).length ≤ max ∧ out ⊆ epollScan s a max is out ∧
      (∀ i ∈ epollScan s a max is out, i ∈ out ∨ i ∈ is ∧ ReadyWatch s a i) ∧
      ∀ i ∈ is, ReadyWatch s a i → i ∈ epollScan s a max is out ∨ (epollScan s a max is out).length = max
  | [], out, _, hout, _, hmax => ⟨hout, hmax, List.Subset.refl out, fun i hi => .inl hi, fun i hi => by cases hi⟩
  | i :: is, out, his, hout, hdis, hmax => by
    rw [nodup_cons] at his
    have hrest : ∀ j ∈ is, j ∉ out := fun j hj => hdis j (mem_cons_of_mem i hj)
    -- A watch that is skipped is not ready.
    have skip : ¬ ReadyWatch s a i → epollScan s a max (i :: is) out = epollScan s a max is out →
        (epollScan s a max (i :: is) out).Nodup ∧ (epollScan s a max (i :: is) out).length ≤ max ∧
        out ⊆ epollScan s a max (i :: is) out ∧
        (∀ j ∈ epollScan s a max (i :: is) out, j ∈ out ∨ j ∈ i :: is ∧ ReadyWatch s a j) ∧
        ∀ j ∈ i :: is, ReadyWatch s a j → j ∈ epollScan s a max (i :: is) out ∨
        (epollScan s a max (i :: is) out).length = max := by
      intro hnot he
      obtain ⟨hnd, hle, hsub, hin, hall⟩ := epollScan_spec his.2 hout hrest hmax
      rw [he]
      refine ⟨hnd, hle, hsub, fun j hj => ?_, fun j hj hr => ?_⟩
      · exact (hin j hj).imp_right fun h => ⟨mem_cons_of_mem i h.1, h.2⟩
      · rcases mem_cons.1 hj with rfl | hj
        · exact absurd hr hnot
        · exact hall j hj hr
    by_cases hfull : max ≤ out.length
    · have he : epollScan s a max (i :: is) out = out := by
        unfold epollScan
        rw [if_pos hfull]
      rw [he]
      exact ⟨hout, hmax, List.Subset.refl out, fun j hj => .inl hj, fun j _ _ => .inr (Nat.le_antisymm hmax hfull)⟩
    · by_cases hu : field s.mem a i 0 = 0
      · refine skip (fun hr => hr.1 hu) ?_
        rw [epollScan, if_neg hfull, if_pos hu]
      · by_cases hr : epollReport s (field s.mem a i 1).toInt (field s.mem a i 2) = 0
        · refine skip (fun hr' => hr'.2 hr) ?_
          rw [epollScan, if_neg hfull, if_neg hu, if_pos hr]
        · have hnot : i ∉ out := hdis i mem_cons_self
          have hout' : (out ++ [i]).Nodup := nodup_append.2 ⟨hout, nodup_singleton i, by
            intro x hx y hy
            obtain rfl := mem_singleton.1 hy
            rintro rfl
            exact hnot hx⟩
          have hdis' : ∀ j ∈ is, j ∉ out ++ [i] := by
            intro j hj hmem
            rcases mem_append.1 hmem with hmem | hmem
            · exact hrest j hj hmem
            · obtain rfl := mem_singleton.1 hmem
              exact his.1 hj
          have hmax' : (out ++ [i]).length ≤ max := by
            rw [length_append, length_singleton]
            omega
          obtain ⟨hnd, hle, hsub, hin, hall⟩ := epollScan_spec his.2 hout' hdis' hmax'
          have he : epollScan s a max (i :: is) out = epollScan s a max is (out ++ [i]) := by
            rw [epollScan, if_neg hfull, if_neg hu, if_neg hr]
          rw [he]
          refine ⟨hnd, hle, fun j hj => hsub (mem_append_left _ hj), fun j hj => ?_, fun j hj hrj => ?_⟩
          · rcases hin j hj with hj | ⟨hj, hrj⟩
            · rcases mem_append.1 hj with hj | hj
              · exact .inl hj
              · obtain rfl := mem_singleton.1 hj
                exact .inr ⟨mem_cons_self, hu, hr⟩
            · exact .inr ⟨mem_cons_of_mem i hj, hrj⟩
          · rcases mem_cons.1 hj with rfl | hj
            · exact .inl (hsub (mem_append_right _ (mem_singleton_self j)))
            · exact hall j hj hrj

theorem Watches.reports {s : IoState} (h : Watches s.mem a want) (max : Nat) :
    Reports s want max (epollPass s a max).2 ∧ (epollPass s a max).1 = (epollPass s a max).2.length := by
  have hnew : ∀ i ∈ List.range maxFd, i ∉ ([] : List Nat) := fun i _ hi => by cases hi
  have hspec := epollScan_spec (s := s) (a := a) nodup_range nodup_nil hnew (Nat.zero_le max)
  unfold epollPass
  dsimp only
  generalize epollScan s a max (List.range maxFd) [] = chosen at hspec ⊢
  obtain ⟨hnd, hle, -, hin, hall⟩ := hspec
  -- The descriptor a chosen watch is about.
  have hwatch : ∀ i ∈ chosen, i < maxFd ∧ ReadyWatch s a i ∧ ∃ fd < maxFd, field s.mem a i 1 = BitVec.ofNat 32 fd ∧
      want fd = some ⟨field s.mem a i 2, watchData s.mem a i⟩ := by
    intro i hi
    rcases hin i hi with hi | ⟨hi, hr⟩
    · cases hi
    · have hlt := mem_range.1 hi
      exact ⟨hlt, hr, h.watch i hlt hr.1⟩
  have htoNat : ∀ {fd : Nat}, fd < maxFd → (BitVec.ofNat 32 fd).toNat = fd ∧ (BitVec.ofNat 32 fd).toInt = fd := by
    intro fd hfd
    unfold maxFd at hfd
    have hn : (BitVec.ofNat 32 fd).toNat = fd := by
      rw [BitVec.toNat_ofNat]
      omega
    exact ⟨hn, by rw [BitVec.toInt_eq_toNat_of_lt (by omega), hn]⟩
  refine ⟨⟨chosen.map fun i => (field s.mem a i 1).toNat, ?_, ?_, ?_, ?_⟩, (length_map _).symm⟩
  · refine List.Nodup.map_on (fun i hi j hj he => ?_) hnd
    obtain ⟨hi', hri, -⟩ := hwatch i hi
    obtain ⟨hj', hrj, -⟩ := hwatch j hj
    exact h.once i hi' j hj' hri.1 hrj.1 (BitVec.eq_of_toNat_eq he)
  · rw [length_map]
    exact hle
  · rw [forall₂_map_left_iff, forall₂_map_right_iff, forall₂_same]
    intro i hi
    obtain ⟨-, hr, fd, hfd, he, hw⟩ := hwatch i hi
    obtain ⟨hn, hint⟩ := htoNat hfd
    have hevent : (epollEvent s a i).events = epollReport s fd (field s.mem a i 2) := by
      unfold epollEvent
      rw [he, hint]
    refine ⟨⟨field s.mem a i 2, watchData s.mem a i⟩, ?_, ?_, hr.2, rfl⟩
    · rw [he, hn]
      exact hw
    · rw [hevent, he, hn]
  · intro fd ev hw hready
    rw [length_map]
    obtain ⟨hfd, i, hi, hu, he⟩ := h.has fd (by rw [hw]; exact Option.some_ne_none ev)
    obtain ⟨hn, hint⟩ := htoNat hfd
    obtain ⟨fd', hfd', he', hw'⟩ := h.watch i hi hu
    obtain rfl := fd_inj hfd hfd' (he.symm.trans he')
    rw [hw] at hw'
    obtain rfl := Option.some.inj hw'
    have hr : ReadyWatch s a i := ⟨hu, by rw [he, hint]; exact hready⟩
    rcases hall i (mem_range.2 hi) hr with hmem | hfull
    · exact .inl (mem_map.2 ⟨i, hmem, by rw [he, hn]⟩)
    · exact .inr hfull

theorem waitLoop_returned {α : Type*} {ms : Nat → Nat} {pass : Nat → Except Int (Nat × α)} {timeout : Int} {start t k : Nat}
    {out : α} : ∀ {passes : List Nat}, waitLoop ms pass timeout start passes = .returned t k out →
      ∃ out', pass t = .ok (k, out') ∧ out' = out
  | [], h => by cases h
  | t' :: ts, h => by
    unfold waitLoop at h
    cases hp : pass t' with
    | error err => rw [hp] at h; cases h
    | ok r =>
      obtain ⟨n, o⟩ := r
      simp only [hp] at h
      split at h
      · cases h
        exact ⟨_, hp, rfl⟩
      · split at h
        · rename_i hn _
          cases h
          rw [Nat.eq_zero_of_not_pos hn] at hp
          exact ⟨_, hp, rfl⟩
        · split at h
          · cases h
          · exact waitLoop_returned h

/-! ## Steps -/

variable {s : EpollState}

theorem node_some {s : IoState} {fd : Int} {n : IoNode} (h : s.node fd = some n) :
    0 ≤ fd ∧ fd.toNat < maxFd ∧ s.table fd.toNat = some n := by
  unfold IoState.node at h
  split at h
  · cases h
  · rename_i hr
    exact ⟨by omega, by omega, h⟩

theorem epollAt_node {s : IoState} {fd : Int} {n : IoNode} (h : s.node fd = some n) (he : n.epoll = true) :
    s.EpollAt fd.toNat n.ptr :=
  ⟨(node_some h).2.1, n, (node_some h).2.2, he, rfl⟩

/-- **What `sys_epoll_ctl` comes to**: an error of its checks; or the lock of the object behind the descriptor, which it
waits for in vain or under which it does the operation. -/
theorem ctl_cases (s : IoState) (epfd op fd : Int) (event : Option EpollEvent) (access : Bool) :
    (∃ err : Int, err ≠ 0 ∧ err ≠ - EEXIST ∧ err ≠ - ENOENT ∧ sysEpollCtl s epfd op fd event access = (some err, s.mem) ∧
      ∀ a, CtlOn s a epfd op fd event access → a = 0) ∨
    ∃ ep n, s.node epfd = some ep ∧ s.node fd = some n ∧ ep.ptr ≠ 0 ∧ epfd ≠ fd ∧
      (op = EPOLL_CTL_ADD ∨ op = EPOLL_CTL_MOD → event ≠ none) ∧ (event ≠ none → access = true) ∧
      (s.mem ep.ptr ≠ 0 ∧ sysEpollCtl s epfd op fd event access = (none, update s.mem ep.ptr 1) ∨
        s.mem ep.ptr = 0 ∧ sysEpollCtl s epfd op fd event access =
          (some (epollOp s.mem ep.ptr op (BitVec.ofNat 32 fd.toNat) (event.getD ⟨0, 0⟩)).1,
            (epollOp s.mem ep.ptr op (BitVec.ofNat 32 fd.toNat) (event.getD ⟨0, 0⟩)).2)) := by
  cases hep : s.node epfd with
  | none =>
    refine .inl ⟨- EBADF, by decide, by decide, by decide, ?_, fun a h => ?_⟩
    · unfold sysEpollCtl
      rw [hep]
    · obtain ⟨n, hn, -⟩ := h.inst
      rw [hep] at hn
      cases hn
  | some ep =>
    cases hn : s.node fd with
    | none =>
      refine .inl ⟨- EBADF, by decide, by decide, by decide, ?_, fun a h => absurd hn h.watched⟩
      unfold sysEpollCtl
      rw [hep, hn]
    | some n =>
      unfold sysEpollCtl
      simp only [hep, hn]
      by_cases heq : epfd = fd
      · refine .inl ⟨- EINVAL, by decide, by decide, by decide, if_pos heq, fun a h => absurd heq h.other⟩
      · rw [if_neg heq]
        by_cases hptr : ep.ptr = 0
        · refine .inl ⟨- EINVAL, by decide, by decide, by decide, if_pos hptr, fun a h => ?_⟩
          obtain ⟨m, hm, -, ha⟩ := h.inst
          obtain rfl := Option.some.inj (hep.symm.trans hm)
          exact ha.symm.trans hptr
        · rw [if_neg hptr]
          by_cases hgiven : (op = EPOLL_CTL_ADD ∨ op = EPOLL_CTL_MOD) ∧ event = none
          · exact .inl ⟨- EFAULT, by decide, by decide, by decide, if_pos hgiven,
              fun a h => absurd hgiven.2 (h.given hgiven.1)⟩
          · rw [if_neg hgiven]
            by_cases hmapped : event ≠ none ∧ access = false
            · refine .inl ⟨- EFAULT, by decide, by decide, by decide, if_pos hmapped, fun a h => ?_⟩
              exact absurd (h.mapped hmapped.1) (by rw [hmapped.2]; decide)
            · rw [if_neg hmapped]
              refine .inr ⟨ep, n, rfl, rfl, hptr, heq, fun h hnone => hgiven ⟨h, hnone⟩, fun h => ?_, ?_⟩
              · cases access with
                | true => rfl
                | false => exact absurd ⟨h, rfl⟩ hmapped
              · have hfd : BitVec.ofInt 32 fd = BitVec.ofNat 32 fd.toNat := by
                  rw [← BitVec.ofInt_natCast, Int.toNat_of_nonneg (node_some hn).1]
                by_cases hlock : s.mem ep.ptr = 0
                · refine .inr ⟨hlock, ?_⟩
                  rw [if_neg (not_not.2 hlock), hfd]
                · exact .inl ⟨hlock, if_pos hlock⟩

theorem CtlOn.of {s : IoState} {ep n : IoNode} {epfd op fd : Int} {event : Option EpollEvent} {access : Bool}
    (hep : s.node epfd = some ep) (he : ep.epoll = true) (hn : s.node fd = some n) (hne : epfd ≠ fd)
    (hgiven : op = EPOLL_CTL_ADD ∨ op = EPOLL_CTL_MOD → event ≠ none) (hmapped : event ≠ none → access = true) :
    CtlOn s ep.ptr epfd op fd event access :=
  ⟨⟨ep, hep, he, rfl⟩, by rw [hn]; exact Option.some_ne_none n, hne, hgiven, hmapped⟩

theorem EpollState.Sets.ctl (h : s.Sets) {epfd op fd : Int} {event : Option EpollEvent} {access : Bool}
    (hmet : EpollMet s (.ctl epfd op fd event access)) :
    (epollStep s (.ctl epfd op fd event access)).Sets ∧ s.Faithful (.ctl epfd op fd event access) := by
  have hzero : ∀ a, CtlOn s.io a epfd op fd event access → a ≠ 0 := by
    intro a hc
    obtain ⟨n, hn, he, rfl⟩ := hc.inst
    exact (h.watches _ _ (epollAt_node hn he)).1
  rcases ctl_cases s.io epfd op fd event access with ⟨err, h0, hx, hn, hr, hnot⟩ | ⟨ep, n, hep, hn, hptr, hne, hgiven,
    hmapped, hr⟩
  · have hstep : epollStep s (.ctl epfd op fd event access) = s := by
      have hif : ¬ (some err : Option Int) = some 0 := fun he => h0 (Option.some.inj he)
      simp only [epollStep, hr, if_neg hif]
      cases s.io.node epfd <;> rfl
    simp only [EpollState.Faithful, hstep, hr]
    refine ⟨h, .inr trivial, iff_of_false (fun he => hx (Option.some.inj he)) ?_,
      iff_of_false (fun he => hn (Option.some.inj he)) ?_, fun _ => trivial⟩
    · rintro ⟨a, hc, -⟩
      exact hzero a hc (hnot a hc)
    · rintro ⟨a, hc, -⟩
      exact hzero a hc (hnot a hc)
  · have he : ep.epoll = true := by
      cases he : ep.epoll with
      | true => rfl
      | false => exact absurd (hmet ep hep he) hptr
    have hat := epollAt_node hep he
    obtain ⟨-, hw⟩ := h.watches _ _ hat
    rcases hr with ⟨hlock, -⟩ | ⟨-, hr⟩
    · exact absurd hw.lock hlock
    · have hspec := hw.op (node_some hn).2.1 op (event.getD ⟨0, 0⟩)
      have hctl := CtlOn.of hep he hn hne hgiven hmapped
      have honly : ∀ a, CtlOn s.io a epfd op fd event access → a = ep.ptr := by
        intro a hc
        obtain ⟨m, hm, -, ha⟩ := hc.inst
        obtain rfl := Option.some.inj (hep.symm.trans hm)
        exact ha.symm
      generalize epollOp s.io.mem ep.ptr op (BitVec.ofNat 32 fd.toNat) (event.getD ⟨0, 0⟩) = r at hspec hr
      obtain ⟨ret, mem⟩ := r
      have hstep : epollStep s (.ctl epfd op fd event access) =
          { io := { s.io with mem }
            want := if ret = 0 then update s.want ep.ptr (wantAfter (s.want ep.ptr) op fd (event.getD ⟨0, 0⟩))
              else s.want } := by
        simp only [epollStep, hr, hep, Option.some.injEq]
      refine ⟨?_, ?_⟩
      · rw [hstep]
        refine ⟨fun i b hb => ?_, h.apart, fun i b fd' hb hfd' => ?_⟩
        · obtain ⟨hb0, hwb⟩ := h.watches i b hb
          refine ⟨hb0, ?_⟩
          dsimp only
          rcases h.apart i _ b ep.ptr hb hat with rfl | hap
          · by_cases h0 : ret = 0
            · rw [if_pos h0, update_self]
              exact hspec.done h0
            · have hfail : mem = s.io.mem := hspec.failed h0
              rw [if_neg h0, hfail]
              exact hw
          · have hbne : b ≠ ep.ptr := by
              rintro rfl
              unfold Apart instWords at hap
              omega
            have hwant : (if ret = 0 then update s.want ep.ptr (wantAfter (s.want ep.ptr) op fd (event.getD ⟨0, 0⟩))
                else s.want) b = s.want b := by
              split
              · rw [update_of_ne hbne]
              · rfl
            rw [hwant]
            refine hwb.congr fun x hlo hhi => hspec.off x ?_
            unfold Apart at hap
            omega
        · dsimp only at hfd'
          by_cases hold : s.want b fd' = none
          · -- Only the descriptor of the call is newly watched, and it is open.
            by_cases h0 : ret = 0
            · rw [if_pos h0] at hfd'
              by_cases hbe : b = ep.ptr
              · subst hbe
                rw [update_self] at hfd'
                unfold wantAfter at hfd'
                by_cases hfe : fd' = fd.toNat
                · subst hfe
                  show s.io.table fd.toNat ≠ none
                  rw [(node_some hn).2.2]
                  exact Option.some_ne_none n
                · rw [update_of_ne hfe] at hfd'
                  exact absurd hold hfd'
              · rw [update_of_ne hbe] at hfd'
                exact absurd hold hfd'
            · rw [if_neg h0] at hfd'
              exact absurd hold hfd'
          · exact h.isOpen i b fd' hb hold
      · simp only [EpollState.Faithful, hstep, hr]
        refine ⟨.inl ⟨ep, hep, he⟩, ?_, ?_, fun h0 => ?_⟩
        · refine (Option.some_inj.trans hspec.exist).trans ⟨fun hx => ⟨_, hctl, hx⟩, ?_⟩
          rintro ⟨a, hc, hx⟩
          obtain rfl := honly a hc
          exact hx
        · refine (Option.some_inj.trans hspec.noent).trans ⟨fun hx => ⟨_, hctl, hx⟩, ?_⟩
          rintro ⟨a, hc, hx⟩
          obtain rfl := honly a hc
          exact hx
        · have hfail : mem = s.io.mem := hspec.failed fun hz => h0 (congrArg some hz)
          rw [hfail]

theorem EpollState.Sets.create1 (h : s.Sets) {flags : BitVec 32} {inst : Option Nat} {node : Bool}
    (hmet : EpollMet s (.create1 flags inst node)) : (epollStep s (.create1 flags inst node)).Sets := by
  have hfail : ∀ err : Int, err < 0 → sysEpollCreate1 s.io flags inst node = (err, s.io) →
      (epollStep s (.create1 flags inst node)).Sets := by
    intro err hneg hr
    simp only [epollStep, hr, if_neg (Int.not_le.2 hneg)]
    exact h
  by_cases hflags : flags &&& ~~~EPOLL_CLOEXEC ≠ 0
  · exact hfail (- EINVAL) (by decide) (if_pos hflags)
  cases hfd : (List.range' 3 (maxFd - 3)).find? fun i => (s.io.table i).isNone with
  | none =>
    refine hfail (- EMFILE) (by decide) ?_
    simp only [sysEpollCreate1, if_neg hflags, hfd]
  | some fd =>
    cases inst with
    | none =>
      refine hfail (- ENOMEM) (by decide) ?_
      simp only [sysEpollCreate1, if_neg hflags, hfd]
    | some a =>
      obtain ⟨ha, hapart⟩ := hmet a rfl
      let mem : Words := fun x => if a ≤ x ∧ x < a + instWords then 0 else s.io.mem x
      -- What was watched before is watched as before.
      have hold : ∀ i b, s.io.EpollAt i b → Watches mem b (s.want b) := by
        intro i b hb
        refine (h.watches i b hb).2.congr fun x hlo hhi => ?_
        have := hapart i b hb
        unfold Apart at this
        exact if_neg (by omega)
      cases node with
      | false =>
        have hstep : epollStep s (.create1 flags (some a) false) = { s with io := { s.io with mem } } := by
          simp only [epollStep, sysEpollCreate1, if_neg hflags, hfd]
          rfl
        rw [hstep]
        exact ⟨fun i b hb => ⟨(h.watches i b hb).1, hold i b hb⟩, h.apart, h.isOpen⟩
      | true =>
        have hstep : epollStep s (.create1 flags (some a) true) =
            { io := { s.io with
                mem
                table := update s.io.table fd (some { flags := 1, inode := 0, ioctl := false, ptr := a, epoll := true }) }
              want := update s.want a fun _ => none } := by
          simp only [epollStep, sysEpollCreate1, if_neg hflags, hfd, if_true, Option.getD_some,
            if_pos (Int.natCast_nonneg fd)]
          rfl
        rw [hstep]
        have hat : ∀ i b, IoState.EpollAt { s.io with
            mem
            table := update s.io.table fd (some { flags := 1, inode := 0, ioctl := false, ptr := a, epoll := true }) } i b →
              i = fd ∧ b = a ∨ i ≠ fd ∧ s.io.EpollAt i b ∧ Apart a b := by
          rintro i b ⟨hi, n, hn, he, hb⟩
          dsimp only at hn
          by_cases hif : i = fd
          · subst hif
            rw [update_self] at hn
            obtain rfl := Option.some.inj hn
            exact .inl ⟨rfl, hb.symm⟩
          · rw [update_of_ne hif] at hn
            exact .inr ⟨hif, ⟨hi, n, hn, he, hb⟩, hapart i b ⟨hi, n, hn, he, hb⟩⟩
        have hne : ∀ {b}, Apart a b → b ≠ a := by
          rintro b hap rfl
          unfold Apart instWords at hap
          omega
        refine ⟨fun i b hb => ?_, fun i j b c hb hc => ?_, fun i b fd' hb hw => ?_⟩
        · rcases hat i b hb with ⟨rfl, rfl⟩ | ⟨-, hb, hap⟩
          · refine ⟨ha, ?_⟩
            dsimp only
            rw [update_self]
            exact .new fun x hlo hhi => if_pos ⟨hlo, hhi⟩
          · refine ⟨(h.watches i b hb).1, ?_⟩
            dsimp only
            rw [update_of_ne (hne hap)]
            exact hold i b hb
        · rcases hat i b hb with ⟨-, rfl⟩ | ⟨-, hb, hap⟩
          · rcases hat j c hc with ⟨-, rfl⟩ | ⟨-, -, hap'⟩
            · exact .inl rfl
            · exact .inr hap'
          · rcases hat j c hc with ⟨-, rfl⟩ | ⟨-, hc, -⟩
            · exact .inr hap.symm
            · exact h.apart i j b c hb hc
        · dsimp only at hw ⊢
          rcases hat i b hb with ⟨-, rfl⟩ | ⟨-, hb, hap⟩
          · rw [update_self] at hw
            exact absurd rfl hw
          · rw [update_of_ne (hne hap)] at hw
            by_cases hff : fd' = fd
            · rw [hff, update_self]
              exact Option.some_ne_none _
            · rw [update_of_ne hff]
              exact h.isOpen i b fd' hb hw

theorem EpollState.Sets.wait (h : s.Sets) {access : Bool} {dev : Nat → Devices} {epfd maxevents timeout : Int} {start : Nat}
    {passes : List Nat} (hmet : EpollMet s (.wait access dev epfd maxevents timeout start passes)) :
    (epollStep s (.wait access dev epfd maxevents timeout start passes)).Sets ∧
      s.Faithful (.wait access dev epfd maxevents timeout start passes) := by
  have hmem : epollWaitMem s.io access epfd maxevents = s.io.mem := by
    unfold epollWaitMem
    cases hi : epollInst s.io access epfd maxevents with
    | error err => rfl
    | ok a =>
      unfold epollInst at hi
      cases hn : s.io.node epfd with
      | none =>
        rw [hn] at hi
        cases hi
      | some n =>
        simp only [hn] at hi
        split at hi
        · cases hi
        · split at hi
          · cases hi
          · split at hi
            · cases hi
            · rename_i hptr
              obtain rfl := Except.ok.inj hi
              have he : n.epoll = true := by
                cases he : n.epoll with
                | true => rfl
                | false => exact absurd (hmet n hn he) hptr
              exact if_neg (not_not.2 (h.watches _ _ (epollAt_node hn he)).2.lock)
  have hstep : epollStep s (.wait access dev epfd maxevents timeout start passes) = s := by
    simp only [epollStep, hmem]
  rw [hstep]
  refine ⟨h, congrArg EpollState.io hstep, fun n hn he t k out hout => ?_⟩
  obtain ⟨-, hw⟩ := h.watches _ _ (epollAt_node hn he)
  unfold sysEpollWait at hout
  cases hi : epollInst { s.io with dev := dev start } access epfd maxevents with
  | error err =>
    rw [hi] at hout
    cases hout
  | ok a =>
    rw [hi] at hout
    obtain ⟨out', hpass, rfl⟩ := waitLoop_returned hout
    obtain rfl : a = n.ptr := by
      have hnode : IoState.node { s.io with dev := dev start } epfd = some n := hn
      unfold epollInst at hi
      simp only [hnode] at hi
      split at hi
      · cases hi
      · split at hi
        · cases hi
        · split at hi
          · cases hi
          · exact (Except.ok.inj hi).symm
    have hw' : Watches ({ s.io with dev := dev t } : IoState).mem n.ptr (s.want n.ptr) := hw
    obtain ⟨hrep, hlen⟩ := hw'.reports maxevents.toNat
    have hpair := Except.ok.inj hpass
    rw [hpair] at hrep hlen
    exact ⟨hlen, hrep⟩

/-- **The interest sets of a task, over any run of its epoll calls**: where `kmalloc` gives free memory and every descriptor
taken for an epoll instance that is none has no private object, each instance watches what it was asked to, each descriptor
once and counted, and every call does what the sets say. -/
theorem epoll_interest (s : EpollState) (hnew : ∀ i a, ¬ s.io.EpollAt i a) (calls : List EpollCall)
    (hmet : Run.Guarded epollStep EpollMet s calls) :
    (∀ s' ∈ Run.states epollStep s calls, s'.Sets) ∧ Run.Guarded epollStep EpollState.Faithful s calls := by
  have h0 : s.Sets :=
    ⟨fun i a h => absurd h (hnew i a), fun i _ a _ h => absurd h (hnew i a), fun i a _ h => absurd h (hnew i a)⟩
  have hstep : ∀ (s : EpollState) (call : EpollCall), s.Sets → EpollMet s call →
      (epollStep s call).Sets ∧ s.Faithful call := by
    intro s call h hm
    cases call with
    | create1 flags inst node => exact ⟨h.create1 hm, trivial⟩
    | ctl epfd op fd event access => exact h.ctl hm
    | wait access dev epfd maxevents timeout start passes => exact h.wait hm
  exact ⟨Run.states_forall (fun s call h hm => (hstep s call h hm).1) calls s h0 hmet,
    Run.guarded_imp hstep calls s h0 hmet⟩

def pipeState : EpollState where
  io :=
    { table := fun i => if i = 3 ∨ i = 4 then some (pipeReader 64 false) else none
      mem := fun x => if x = 64 then 0x9000 else 0
      dev := someDevices none }
  want _ _ := none

theorem pipeState_new (i a : Nat) : ¬ pipeState.io.EpollAt i a := by
  rintro ⟨-, n, hn, he, -⟩
  simp only [pipeState] at hn
  split at hn
  · cases hn
    cases he
  · cases hn

theorem epollMet_inst {epfd op fd : Int} {event : Option EpollEvent} {access : Bool} {n : IoNode}
    (hn : s.io.node epfd = some n) (he : n.epoll = true) : EpollMet s (.ctl epfd op fd event access) := by
  intro m hm hne
  obtain rfl := Option.some.inj (hn.symm.trans hm)
  rw [he] at hne
  cases hne

def pipeCalls : List EpollCall :=
  [.create1 0 (some 4096) true, .ctl 5 1 3 (some ⟨1, 7⟩) true, .ctl 5 1 3 (some ⟨4, 8⟩) true,
    .ctl 5 3 3 (some ⟨1, 9⟩) true, .ctl 5 2 3 none false]

theorem epoll_interest_pipe :
    (∀ s ∈ Run.states epollStep pipeState pipeCalls, s.Sets) ∧
    Run.Guarded epollStep EpollState.Faithful pipeState pipeCalls := by
  refine epoll_interest pipeState pipeState_new _ ⟨?_, epollMet_inst rfl rfl, epollMet_inst rfl rfl, epollMet_inst rfl rfl,
    epollMet_inst rfl rfl, trivial⟩
  intro a ha
  cases ha
  exact ⟨by decide, fun i b hb => absurd hb (pipeState_new i b)⟩

/-- `epoll_ctl` takes the read end of a pipe for an instance: it puts 1 over the address of the pipe's buffer. -/
theorem epoll_ctl_writes_pipe :
    ¬ ∀ s : EpollState, (∀ i a, ¬ s.io.EpollAt i a) → ∀ calls : List EpollCall,
      Run.Guarded epollStep (fun s call => ∀ flags inst node, call = .create1 flags inst node → EpollMet s call) s calls →
        Run.Guarded epollStep EpollState.Faithful s calls := by
  intro hall
  have hmet : Run.Guarded epollStep (fun s call => ∀ flags inst node, call = .create1 flags inst node → EpollMet s call)
      pipeState [.ctl 3 1 4 (some ⟨1, 7⟩) true] := ⟨fun _ _ _ he => (by cases he), trivial⟩
  obtain ⟨⟨hsame, -⟩, -⟩ := hall pipeState pipeState_new _ hmet
  rcases hsame with ⟨n, hn, he⟩ | hsame
  · cases hn
    cases he
  · exact absurd (congrFun (congrArg IoState.mem hsame) 64) (by decide)

end EterOS.Syscall
