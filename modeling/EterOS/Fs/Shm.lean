import EterOS.Lib.Bytes
import Mathlib.Data.UInt
/-!
# Shm — shared memory objects

`shmfs_read` (`kernel/fs/shmfs.c`).  Its loop counts in 32 bits and tests the sum of what is read and a page: where that
sum wraps the test is passed and the loop starts again, so it is a loop with fuel here, and `shmLoop_some` and
`shmLoop_none` say when there is enough.
-/
namespace EterOS.Fs

structure ShmObject where
  size : UInt32
  pages : List (Option Buffer)

namespace ShmObject

def page (x : ShmObject) (i : Nat) : Buffer :=
  match x.pages[i]? with
  | some (some page) => page
  | _ => fun _ => 0

def byteAt (x : ShmObject) (pos : Nat) : UInt8 := x.page (pos / 4096) (pos % 4096)

end ShmObject

/-- `PAGE_SIZE - page_off`, cut to what is still to do. -/
def toCopy (size offset done : UInt32) : UInt32 :=
  let n := 4096 - (offset + done) % 4096
  if size < done + n then size - done else n

/-- The loop of `shmfs_read`; `none` where the fuel is not enough. -/
def shmLoop (x : ShmObject) (offset size : UInt32) : Nat → UInt32 → Buffer → Option (UInt32 × Buffer)
  | 0, done, buffer => if done < size then none else some (done, buffer)
  | fuel + 1, done, buffer =>
    if done < size then
      let n := toCopy size offset done
      let page := x.page ((offset + done) / 4096).toNat
      shmLoop x offset size fuel (done + n) (buffer.blit done.toNat (page.drop ((offset + done) % 4096).toNat) n.toNat)
    else some (done, buffer)

def shmfsRead (x : ShmObject) (offset size : UInt32) (fuel : Nat) (buffer : Buffer) : Option (UInt32 × Buffer) :=
  if x.size ≤ offset then some (0, buffer)
  else
    let size := if x.size < offset + size then x.size - offset else size
    shmLoop x offset size fuel 0 buffer

variable {x : ShmObject} {offset size done : UInt32} {buffer : Buffer}

theorem shmLoop_ge : ∀ {fuel : Nat} {done : UInt32} {buffer : Buffer} {r : UInt32 × Buffer},
    shmLoop x offset size fuel done buffer = some r → size ≤ r.1
  | 0, done, buffer, r, h => by
    rw [shmLoop] at h
    split at h
    · cases h
    · obtain rfl := Option.some.inj h
      exact UInt32.not_lt.1 ‹_›
  | fuel + 1, done, buffer, r, h => by
    rw [shmLoop] at h
    split at h
    · exact shmLoop_ge h
    · obtain rfl := Option.some.inj h
      exact UInt32.not_lt.1 ‹_›

/-- From the start of the object to its last page below 4 GiB: the sum wraps, and the loop starts again. -/
theorem shmLoop_none (hsize : 2 ^ 32 < size.toNat + 4096) : ∀ (fuel : Nat) (done : UInt32) (buffer : Buffer),
    done.toNat % 4096 = 0 → shmLoop x 0 size fuel done buffer = none
  | 0, done, buffer, hdone => by
    have hlt := done.toNat_lt
    rw [shmLoop, if_pos (UInt32.lt_iff_toNat_lt.2 (by omega))]
  | fuel + 1, done, buffer, hdone => by
    have hlt := done.toNat_lt
    have hoff : (0 + done) % 4096 = 0 := by
      apply UInt32.toNat_inj.1
      rw [UInt32.zero_add, UInt32.toNat_mod]
      exact hdone
    have hn : (done + 4096).toNat = (done.toNat + 4096) % 2 ^ 32 := UInt32.toNat_add ..
    have hcopy : toCopy size 0 done = 4096 := by
      rw [toCopy, hoff]
      simp only [UInt32.sub_zero]
      rw [if_neg]
      rw [UInt32.lt_iff_toNat_lt, hn]
      omega
    rw [shmLoop, if_pos (UInt32.lt_iff_toNat_lt.2 (by omega)), hcopy]
    refine shmLoop_none hsize fuel _ _ ?_
    rw [hn]
    omega

theorem shmLoop_stops (fuel : Nat) (buffer : Buffer) (h : done.toNat = size.toNat) :
    ∃ buffer', shmLoop x offset size fuel done buffer = some (size, buffer') ∧
      (∀ j < size.toNat, buffer' j = if j < done.toNat then buffer j else x.byteAt (offset.toNat + j)) ∧
      ∀ j, size.toNat ≤ j → buffer' j = buffer j := by
  obtain rfl : done = size := UInt32.toNat_inj.1 h
  refine ⟨buffer, ?_, fun j hj => (if_pos hj).symm, fun j _ => rfl⟩
  cases fuel with
  | zero => rw [shmLoop, if_neg (UInt32.lt_irrefl _)]
  | succ fuel => rw [shmLoop, if_neg (UInt32.lt_irrefl _)]

theorem page_below {at' done size : Nat} (hpos : 0 < at') (hlt : done < size) (hend : at' + size ≤ 2 ^ 32) :
    done + (4096 - (at' + done) % 4096) < 2 ^ 32 := by
  omega

theorem shmLoop_some (hend : offset.toNat + size.toNat ≤ 2 ^ 32) (hwrap : offset = 0 → size.toNat + 4096 ≤ 2 ^ 32) :
    ∀ (fuel : Nat) (done : UInt32) (buffer : Buffer), done.toNat ≤ size.toNat → size.toNat - done.toNat ≤ fuel →
    ∃ buffer', shmLoop x offset size fuel done buffer = some (size, buffer') ∧
      (∀ j < size.toNat, buffer' j = if j < done.toNat then buffer j else x.byteAt (offset.toNat + j)) ∧
      ∀ j, size.toNat ≤ j → buffer' j = buffer j
  | 0, done, buffer, hle, hfuel => shmLoop_stops 0 buffer (Nat.le_antisymm hle (Nat.le_of_sub_eq_zero (Nat.le_zero.1 hfuel)))
  | fuel + 1, done, buffer, hle, hfuel => by
    by_cases hlt : done.toNat < size.toNat
    · have hsize := size.toNat_lt
      have hpos : (offset + done).toNat = offset.toNat + done.toNat := by
        rw [UInt32.toNat_add, Nat.mod_eq_of_lt ((Nat.add_lt_add_left hlt _).trans_le hend)]
      have hmod : ((offset + done) % 4096).toNat = (offset.toNat + done.toNat) % 4096 := by
        rw [UInt32.toNat_mod, hpos]
        rfl
      have hdiv : ((offset + done) / 4096).toNat = (offset.toNat + done.toNat) / 4096 := by
        rw [UInt32.toNat_div, hpos]
        rfl
      have hrest : (4096 - (offset + done) % 4096).toNat = 4096 - (offset.toNat + done.toNat) % 4096 := by
        have hle : (offset + done) % 4096 ≤ 4096 := by
          rw [UInt32.le_iff_toNat_le, hmod]
          exact Nat.le_of_lt (Nat.mod_lt _ (by decide))
        rw [UInt32.toNat_sub_of_le _ _ hle, hmod]
        rfl
      -- the page ends below 4 GiB, and before it where the object is not read from its start
      have hsum : done.toNat + (4096 - (offset.toNat + done.toNat) % 4096) < 2 ^ 32 := by
        rcases Nat.eq_zero_or_pos offset.toNat with h0 | h0
        · exact (Nat.add_lt_add_of_lt_of_le hlt (Nat.sub_le _ _)).trans_le (hwrap (UInt32.toNat_inj.1 h0))
        · exact page_below h0 hlt hend
      have hcopy : min (4096 - (offset.toNat + done.toNat) % 4096) (size.toNat - done.toNat) =
          (toCopy size offset done).toNat := by
        have hadd : (done + (4096 - (offset + done) % 4096)).toNat =
            done.toNat + (4096 - (offset.toNat + done.toNat) % 4096) := by
          rw [UInt32.toNat_add, hrest, Nat.mod_eq_of_lt hsum]
        simp only [toCopy, UInt32.lt_iff_toNat_lt, hadd]
        split
        · rename_i hlong
          rw [UInt32.toNat_sub_of_le _ _ (UInt32.le_iff_toNat_le.2 hle),
            Nat.min_eq_right (Nat.sub_le_iff_le_add'.2 hlong.le)]
        · rename_i hlong
          rw [hrest, Nat.min_eq_left (Nat.le_sub_of_add_le' (Nat.not_lt.1 hlong))]
      obtain ⟨hpos', hle', hfit⟩ := chunk_bounds (by decide) hlt hcopy
      have hnext : (done + toCopy size offset done).toNat = done.toNat + (toCopy size offset done).toNat := by
        rw [UInt32.toNat_add, Nat.mod_eq_of_lt (hle'.trans_lt hsize)]
      rw [shmLoop, if_pos (UInt32.lt_iff_toNat_lt.2 hlt)]
      simp only [hdiv, hmod]
      have hbyte : ∀ k < (toCopy size offset done).toNat,
          x.page ((offset.toNat + done.toNat) / 4096) ((offset.toNat + done.toNat) % 4096 + k) =
            x.byteAt (offset.toNat + (done.toNat + k)) := by
        intro k hk
        obtain ⟨h1, h2⟩ := chunk_within ((Nat.add_lt_add_left hk _).trans_le hfit)
        rw [← Nat.add_assoc, ShmObject.byteAt, h1, h2]
      obtain ⟨buffer', heq, hin, hout⟩ := shmLoop_some hend hwrap fuel (done + toCopy size offset done)
        (buffer.blit done.toNat ((x.page ((offset.toNat + done.toNat) / 4096)).drop
          ((offset.toNat + done.toNat) % 4096)) (toCopy size offset done).toNat) (hnext.trans_le hle')
          ((congrArg (size.toNat - ·) hnext).trans_le (chunk_turns hfuel hpos'))
      rw [hnext] at hin
      refine ⟨buffer', heq, fun j hj => ?_, fun j hj => ?_⟩
      · rw [hin j hj]
        by_cases h1 : j < done.toNat
        · rw [if_pos (Nat.lt_add_right _ h1), if_pos h1, Buffer.blit_of_lt h1]
        · rw [if_neg h1]
          have hge := Nat.not_lt.1 h1
          by_cases h2 : j < done.toNat + (toCopy size offset done).toNat
          · rw [if_pos h2, Buffer.blit_of_mem hge h2, Buffer.drop, hbyte _ (Nat.sub_lt_left_of_lt_add hge h2),
              Nat.add_sub_cancel' hge]
          · rw [if_neg h2]
      · rw [hout j hj, Buffer.blit_of_ge (hle'.trans hj)]
    · exact shmLoop_stops _ buffer (Nat.le_antisymm hle (Nat.not_lt.1 hlt))

end EterOS.Fs
