import EterOS.Lib.Sha2
import EterOS.Lib.Stores
/-!
# Sha2Stream — a hash that is taken byte by byte

A program keeps a hash value, a block that fills up and the number of bytes in it.  `Absorbed` says what these are to the
bytes taken so far; `Absorbed.short` and `Absorbed.long` say which blocks it has to take in at the end.
-/
namespace EterOS.Sha2

open List
open Chunks (chunks pending)

variable {w : Nat} {P : Params w} {msg : List UInt8} {data : Buffer} {datalen : Nat} {state : Words w}

/-- The hash value, the block and the number of bytes in it, after the bytes `msg`. -/
structure Absorbed (P : Params w) (msg : List UInt8) (data : Buffer) (datalen : Nat) (state : Words w) : Prop where
  datalen_eq : datalen = (pending P.block msg).length
  data_eq : data.list 0 datalen = pending P.block msg
  state_eq : state = (chunks P.block msg).foldl P.compress (initial w)

def Words.digest (P : Params w) (v : Words w) : List UInt8 := v.toList.flatMap fun x => bytesBE P.bytes x.toNat

theorem block_pos (hP : 0 < P.bytes) : 0 < P.block := Nat.mul_pos (by decide) hP

theorem absorbed_nil (hP : 0 < P.bytes) (data : Buffer) : Absorbed P [] data 0 (initial w) := by
  have hlt : ([] : List UInt8).length < P.block := block_pos hP
  refine ⟨?_, ?_, ?_⟩
  · rw [Chunks.pending_of_lt hlt]
    rfl
  · rw [Chunks.pending_of_lt hlt]
    rfl
  · rw [Chunks.chunks_of_lt hlt]
    rfl

namespace Absorbed

theorem lt (h : Absorbed P msg data datalen state) (hP : 0 < P.bytes) : datalen < P.block := by
  rw [h.datalen_eq]
  exact Chunks.length_pending_lt (block_pos hP)

theorem mod_eq (h : Absorbed P msg data datalen state) : msg.length % P.block = datalen := by
  rw [h.datalen_eq, Chunks.length_pending]

theorem list_set (h : Absorbed P msg data datalen state) (b : UInt8) :
    (data.set datalen b).list 0 (datalen + 1) = pending P.block msg ++ [b] := by
  rw [Buffer.list_succ, Nat.zero_add, Buffer.set_self, ← h.data_eq]
  congr 1
  apply Buffer.list_congr
  intro i hi
  exact Buffer.set_of_ne (by omega)

theorem push (h : Absorbed P msg data datalen state) (hP : 0 < P.bytes) (b : UInt8) (hlt : datalen + 1 ≠ P.block) :
    Absorbed P (msg ++ [b]) (data.set datalen b) (datalen + 1) state := by
  have hlen := h.datalen_eq
  have := h.lt hP
  have hroom : (pending P.block msg).length + 1 < P.block := by omega
  obtain ⟨hchunks, hpend⟩ := Chunks.snoc_of_lt b (block_pos hP) hroom
  refine ⟨?_, ?_, ?_⟩
  · rw [hpend, length_append, ← hlen]
    rfl
  · rw [hpend, h.list_set]
  · rw [hchunks, h.state_eq]

theorem full (h : Absorbed P msg data datalen state) (hP : 0 < P.bytes) (b : UInt8) (heq : datalen + 1 = P.block) :
    Absorbed P (msg ++ [b]) (data.set datalen b) 0 (P.compress state ((data.set datalen b).list 0 P.block)) := by
  have hlen := h.datalen_eq
  have hlast : (pending P.block msg).length + 1 = P.block := by omega
  obtain ⟨hchunks, hpend⟩ := Chunks.snoc_of_eq b (block_pos hP) hlast
  refine ⟨?_, ?_, ?_⟩
  · rw [hpend]
    rfl
  · rw [hpend]
    rfl
  · have hblock : (data.set datalen b).list 0 P.block = pending P.block msg ++ [b] := by
      rw [← h.list_set, heq]
    rw [hchunks, foldl_append, ← h.state_eq, hblock]
    rfl

theorem hash_eq (h : Absorbed P msg data datalen state) (hP : 0 < P.bytes) : P.hash msg =
    ((chunks P.block (pending P.block msg ++ P.padding msg.length)).foldl P.compress state).digest P := by
  rw [Params.hash, Chunks.chunks_append (block_pos hP), foldl_append, ← h.state_eq]
  rfl

theorem zeros_eq (h : Absorbed P msg data datalen state) (hP : 0 < P.bytes) : P.zeros msg.length =
      if datalen + 1 + 2 * P.bytes ≤ P.block then P.block - (datalen + 1 + 2 * P.bytes)
      else P.block - (datalen + 1) + (P.block - 2 * P.bytes) := by
  have hlt := h.lt hP
  have hblock : P.block = 16 * P.bytes := rfl
  have hmod : (msg.length + 1 + 2 * P.bytes) % P.block = (datalen + 1 + 2 * P.bytes) % P.block := by
    rw [Nat.add_assoc, Nat.add_assoc, Nat.add_mod, h.mod_eq, Nat.add_mod_mod]
  unfold Params.zeros
  rw [hmod]
  by_cases hfits : datalen + 1 + 2 * P.bytes ≤ P.block
  · rw [if_pos hfits]
    by_cases heq : datalen + 1 + 2 * P.bytes = P.block
    · rw [heq, Nat.mod_self, Nat.sub_zero, Nat.mod_self, Nat.sub_self]
    · rw [Nat.mod_eq_of_lt (Nat.lt_of_le_of_ne hfits heq), Nat.mod_eq_of_lt (by omega)]
  · have hover : (datalen + 1 + 2 * P.bytes) % P.block = datalen + 1 + 2 * P.bytes - P.block := by
      rw [Nat.mod_eq_sub_mod (by omega), Nat.mod_eq_of_lt (by omega)]
    rw [if_neg hfits, hover, Nat.mod_eq_of_lt (by omega)]
    omega

theorem short (h : Absorbed P msg data datalen state) (hP : 0 < P.bytes) (hfits : datalen + 1 + 2 * P.bytes ≤ P.block) :
    P.hash msg = (P.compress state (pending P.block msg ++
      (0x80 :: List.replicate (P.block - (datalen + 1 + 2 * P.bytes)) 0 ++ bytesBE (2 * P.bytes) (8 * msg.length)))).digest
        P := by
  have hlen := h.datalen_eq
  rw [h.hash_eq hP, Params.padding, h.zeros_eq hP, if_pos hfits, Chunks.chunks_of_length (block_pos hP)]
  · rfl
  · rw [length_append, length_append, length_cons, length_replicate, length_bytesBE]
    omega

theorem long (h : Absorbed P msg data datalen state) (hP : 0 < P.bytes) (hnot : ¬ datalen + 1 + 2 * P.bytes ≤ P.block) :
    P.hash msg = (P.compress
      (P.compress state (pending P.block msg ++ 0x80 :: List.replicate (P.block - (datalen + 1)) 0))
      (List.replicate (P.block - 2 * P.bytes) 0 ++ bytesBE (2 * P.bytes) (8 * msg.length))).digest P := by
  have hlen := h.datalen_eq
  have hlt := h.lt hP
  have hsplit : pending P.block msg ++ P.padding msg.length =
      (pending P.block msg ++ 0x80 :: List.replicate (P.block - (datalen + 1)) 0) ++
        (List.replicate (P.block - 2 * P.bytes) 0 ++ bytesBE (2 * P.bytes) (8 * msg.length)) := by
    rw [Params.padding, h.zeros_eq hP, if_neg hnot, replicate_add]
    simp only [append_assoc, cons_append]
  rw [h.hash_eq hP, hsplit, Chunks.chunks_two (block_pos hP)]
  · rfl
  · rw [length_append, length_cons, length_replicate]
    omega
  · have hblock : P.block = 16 * P.bytes := rfl
    rw [length_append, length_replicate, length_bytesBE]
    omega

theorem padded {n : Nat} (h : Absorbed P msg data datalen state) (hn : datalen < n) :
    ((data.set datalen 0x80).zeroUpTo n (datalen + 1)).list 0 n =
      pending P.block msg ++ 0x80 :: List.replicate (n - (datalen + 1)) 0 := by
  have hsplit (b : Buffer) : b.list 0 n = b.list 0 (datalen + 1) ++ b.list (0 + (datalen + 1)) (n - (datalen + 1)) := by
    rw [← Buffer.list_add]
    congr 1
    omega
  rw [hsplit, ← singleton_append, ← append_assoc, ← h.list_set]
  congr 1
  · apply Buffer.list_congr
    intro i hi
    rw [Buffer.zeroUpTo_apply, if_neg (by omega)]
  · apply Buffer.list_of_eq
    intro i hi
    rw [Buffer.zeroUpTo_apply, if_pos (by omega)]

end Absorbed

theorem list_bytesBE {b : Buffer} {off v : Nat} (n : Nat)
    (h : ∀ i < n, b (off + (n - 1 - i)) = UInt8.ofNat (v >>> (8 * i))) :
    b.list off n = bytesBE n v := by
  apply map_congr_left
  intro i hi
  rw [mem_range] at hi
  have hbyte := h (n - 1 - i) (by omega)
  rw [show n - 1 - (n - 1 - i) = i by omega, Nat.shiftRight_eq_div_pow, Nat.pow_mul] at hbyte
  exact hbyte

theorem bytesBE_add (k n v : Nat) (h : v < 256 ^ n) : bytesBE (k + n) v = List.replicate k 0 ++ bytesBE n v := by
  unfold bytesBE
  rw [range_add, map_append, map_map]
  congr 1
  · rw [eq_replicate_iff]
    refine ⟨by rw [length_map, length_range], fun x hx => ?_⟩
    obtain ⟨i, hi, rfl⟩ := mem_map.1 hx
    rw [mem_range] at hi
    have hpow : 256 ^ n ≤ 256 ^ (k + n - 1 - i) := Nat.pow_le_pow_right (by decide) (by omega)
    rw [Nat.div_eq_of_lt (Nat.lt_of_lt_of_le h hpow)]
    rfl
  · apply map_congr_left
    intro i _
    rw [Function.comp_apply, show k + n - 1 - (k + i) = n - 1 - i by omega]

end EterOS.Sha2
