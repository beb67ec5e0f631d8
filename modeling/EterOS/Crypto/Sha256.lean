import EterOS.Lib.Sha2Stream
/-!
# Sha256 — `kernel/crypto/sha256.c`

The context takes a message byte by byte; at the end the padding and the length are written over the rest of its block.
-/
namespace EterOS.Crypto

open List
open Sha2 (Words Params Absorbed bytesBE)

def byte (w : Nat) (b : UInt8) : BitVec w := BitVec.ofNat w b.toNat

def byteAt {w : Nat} (x : BitVec w) (n : Nat) : UInt8 := UInt8.ofNat ((x >>> n) &&& 0xff).toNat

namespace Sha256

def k : List (BitVec 32) := [
  0x428a2f98, 0x71374491, 0xb5c0fbcf, 0xe9b5dba5, 0x3956c25b, 0x59f111f1, 0x923f82a4, 0xab1c5ed5,
  0xd807aa98, 0x12835b01, 0x243185be, 0x550c7dc3, 0x72be5d74, 0x80deb1fe, 0x9bdc06a7, 0xc19bf174,
  0xe49b69c1, 0xefbe4786, 0x0fc19dc6, 0x240ca1cc, 0x2de92c6f, 0x4a7484aa, 0x5cb0a9dc, 0x76f988da,
  0x983e5152, 0xa831c66d, 0xb00327c8, 0xbf597fc7, 0xc6e00bf3, 0xd5a79147, 0x06ca6351, 0x14292967,
  0x27b70a85, 0x2e1b2138, 0x4d2c6dfc, 0x53380d13, 0x650a7354, 0x766a0abb, 0x81c2c92e, 0x92722c85,
  0xa2bfe8a1, 0xa81a664b, 0xc24b8b70, 0xc76c51a3, 0xd192e819, 0xd6990624, 0xf40e3585, 0x106aa070,
  0x19a4c116, 0x1e376c08, 0x2748774c, 0x34b0bcb5, 0x391c0cb3, 0x4ed8aa4a, 0x5b9cca4f, 0x682e6ff3,
  0x748f82ee, 0x78a5636f, 0x84c87814, 0x8cc70208, 0x90befffa, 0xa4506ceb, 0xbef9a3f7, 0xc67178f2]

def rotright (a : BitVec 32) (b : Nat) : BitVec 32 := a >>> b ||| a <<< (32 - b)
def ch (x y z : BitVec 32) : BitVec 32 := (x &&& y) ^^^ (~~~x &&& z)
def maj (x y z : BitVec 32) : BitVec 32 := (x &&& y) ^^^ (x &&& z) ^^^ (y &&& z)
def ep0 (x : BitVec 32) : BitVec 32 := rotright x 2 ^^^ rotright x 13 ^^^ rotright x 22
def ep1 (x : BitVec 32) : BitVec 32 := rotright x 6 ^^^ rotright x 11 ^^^ rotright x 25
def sig0 (x : BitVec 32) : BitVec 32 := rotright x 7 ^^^ rotright x 18 ^^^ x >>> 3
def sig1 (x : BitVec 32) : BitVec 32 := rotright x 17 ^^^ rotright x 19 ^^^ x >>> 10

end Sha256

open Sha256

/-- `SHA256_CTX`; of the buffer `data` the first 64 bytes are the block. -/
structure Sha256Ctx where
  data : Buffer
  datalen : Nat
  bitlen : Nat
  state : Words 32

/-- The first loop of `sha256_transform`, turn `i`. -/
def Sha256.load (data : Buffer) (i : Nat) : BitVec 32 :=
  byte 32 (data (4 * i)) <<< 24 ||| byte 32 (data (4 * i + 1)) <<< 16 ||| byte 32 (data (4 * i + 2)) <<< 8 |||
    byte 32 (data (4 * i + 3))

def sha256Transform (ctx : Sha256Ctx) (data : Buffer) : Sha256Ctx :=
  let m := (List.range 16).map (load data)
  let m := (List.range' 16 48).foldl (Sha2.expand sig0 sig1) m
  { ctx with state := ctx.state.add ((List.range 64).foldl (Sha2.turn ep0 ep1 ch maj k m) ctx.state) }

def Sha256.start : Words 32 where
  a := 0x6a09e667
  b := 0xbb67ae85
  c := 0x3c6ef372
  d := 0xa54ff53a
  e := 0x510e527f
  f := 0x9b05688c
  g := 0x1f83d9ab
  h := 0x5be0cd19

def sha256Init (ctx : Sha256Ctx) : Sha256Ctx := { ctx with datalen := 0, bitlen := 0, state := start }

def sha256Byte (ctx : Sha256Ctx) (b : UInt8) : Sha256Ctx :=
  let ctx := { ctx with data := ctx.data.set ctx.datalen b, datalen := ctx.datalen + 1 }
  if ctx.datalen = 64 then
    { sha256Transform ctx ctx.data with bitlen := (ctx.bitlen + 512) % 2 ^ 64, datalen := 0 }
  else ctx

/-- `sha256_update`; its counter has 32 bits, so that it does not come back from more bytes than they count. -/
def sha256Update (ctx : Sha256Ctx) (data : List UInt8) : Option Sha256Ctx :=
  if data.length < 2 ^ 32 then some (data.foldl sha256Byte ctx) else none

/-- `sha256_final`, up to the length: the padding. -/
def sha256Pad (ctx : Sha256Ctx) : Sha256Ctx :=
  let i := ctx.datalen
  if ctx.datalen < 56 then { ctx with data := (ctx.data.set i 0x80).zeroUpTo 56 (i + 1) }
  else
    let ctx := { ctx with data := (ctx.data.set i 0x80).zeroUpTo 64 (i + 1) }
    let ctx := sha256Transform ctx ctx.data
    { ctx with data := ctx.data.blit 0 (fun _ => 0) 56 }

/-- `sha256_final`, the length: the number of bits, the most significant byte first. -/
def sha256Length (ctx : Sha256Ctx) : Sha256Ctx :=
  let bitlen := (ctx.bitlen + ctx.datalen * 8) % 2 ^ 64
  { ctx with
    bitlen := bitlen
    data := ((((((((ctx.data.set 63 (UInt8.ofNat bitlen)).set 62 (UInt8.ofNat (bitlen >>> 8))).set 61
      (UInt8.ofNat (bitlen >>> 16))).set 60 (UInt8.ofNat (bitlen >>> 24))).set 59 (UInt8.ofNat (bitlen >>> 32))).set 58
      (UInt8.ofNat (bitlen >>> 40))).set 57 (UInt8.ofNat (bitlen >>> 48))).set 56 (UInt8.ofNat (bitlen >>> 56))) }

/-- The last loop of `sha256_final`, turn `i`. -/
def sha256Out (s : Words 32) (hash : Buffer) (i : Nat) : Buffer :=
  (((((((hash.set i (byteAt s.a (24 - i * 8))).set (i + 4) (byteAt s.b (24 - i * 8))).set (i + 8)
    (byteAt s.c (24 - i * 8))).set (i + 12) (byteAt s.d (24 - i * 8))).set (i + 16) (byteAt s.e (24 - i * 8))).set (i + 20)
    (byteAt s.f (24 - i * 8))).set (i + 24) (byteAt s.g (24 - i * 8))).set (i + 28) (byteAt s.h (24 - i * 8))

def sha256Final (ctx : Sha256Ctx) (hash : Buffer) : Sha256Ctx × Buffer :=
  let ctx := sha256Length (sha256Pad ctx)
  let ctx := sha256Transform ctx ctx.data
  (ctx, (List.range 4).foldl (sha256Out ctx.state) hash)

/-! ## The block function -/

variable {msg : List UInt8} {ctx : Sha256Ctx} {data hash : Buffer}

theorem rotright_eq (x : BitVec 32) {n : Nat} (h : n < 32) : rotright x n = x.rotateRight n := by
  rw [BitVec.rotateRight_def, Nat.mod_eq_of_lt h]
  rfl

theorem sig0_eq (x : BitVec 32) : sig0 x = Sha2.smallSigma Sha2.sha256.smallSigma0 x := by
  rw [sig0, rotright_eq x (by decide), rotright_eq x (by decide)]
  rfl

theorem sig1_eq (x : BitVec 32) : sig1 x = Sha2.smallSigma Sha2.sha256.smallSigma1 x := by
  rw [sig1, rotright_eq x (by decide), rotright_eq x (by decide)]
  rfl

theorem ep0_eq (x : BitVec 32) : ep0 x = Sha2.bigSigma Sha2.sha256.bigSigma0 x := by
  rw [ep0, rotright_eq x (by decide), rotright_eq x (by decide), rotright_eq x (by decide)]
  rfl

theorem ep1_eq (x : BitVec 32) : ep1 x = Sha2.bigSigma Sha2.sha256.bigSigma1 x := by
  rw [ep1, rotright_eq x (by decide), rotright_eq x (by decide), rotright_eq x (by decide)]
  rfl

theorem k_eq : ∀ t < 64, k.getD t 0 = Sha2.roundConstant 32 t := by
  unfold Sha2.roundConstant Sha2.fraction
  rw [Sha2.primes_eq]
  decide +kernel

theorem start_eq : start = Sha2.initial 32 := by
  unfold Sha2.initial Sha2.fraction
  rw [Sha2.primes_eq]
  decide +kernel

theorem load_eq (data : Buffer) {t : Nat} (ht : t < 16) : load data t = Sha2.sha256.word (data.list 0 64) t := by
  have hbytes : ((data.list 0 64).drop (t * 4)).take 4 =
      [data (4 * t), data (4 * t + 1), data (4 * t + 2), data (4 * t + 3)] := by
    rw [Buffer.list_drop_take (by omega), Nat.zero_add, Nat.mul_comm]
    rfl
  unfold Params.word load byte
  rw [show Sha2.sha256.bytes = 4 from rfl, hbytes, Sha2.shift_or_byte _ 16, Sha2.shift_or_byte _ 8,
    ← BitVec.shiftLeft_zero (BitVec.ofNat 32 (data (4 * t + 3)).toNat), Sha2.shift_or_byte _ 0, BitVec.shiftLeft_zero]
  simp [Sha2.bigEndian]

theorem transform_eq (ctx : Sha256Ctx) (data : Buffer) :
    sha256Transform ctx data = { ctx with state := Sha2.sha256.compress ctx.state (data.list 0 64) } := by
  have hload : (List.range 16).map (load data) = (List.range 16).map (Sha2.sha256.word (data.list 0 64)) :=
    map_congr_left fun t ht => load_eq data (mem_range.1 ht)
  have hch : ∀ x y z, ch x y z = Sha2.Ch x y z := fun _ _ _ => rfl
  have hmaj : ∀ x y z, maj x y z = Sha2.Maj x y z := fun _ _ _ => rfl
  have hcompress := Params.compress_eq (P := Sha2.sha256) (data.list 0 64) (by decide) sig0_eq sig1_eq ep0_eq ep1_eq hch hmaj
    k_eq ctx.state
  unfold sha256Transform
  rw [hload]
  exact congrArg (fun s => { ctx with state := s }) hcompress

/-! ## Taking a message -/

structure Holds (msg : List UInt8) (ctx : Sha256Ctx) : Prop where
  absorbed : Absorbed Sha2.sha256 msg ctx.data ctx.datalen ctx.state
  bitlen_eq : (ctx.bitlen + ctx.datalen * 8) % 2 ^ 64 = 8 * msg.length % 2 ^ 64

theorem holds_init (ctx : Sha256Ctx) : Holds [] (sha256Init ctx) := by
  refine ⟨?_, rfl⟩
  have h := Sha2.absorbed_nil (P := Sha2.sha256) (by decide) ctx.data
  rwa [← start_eq] at h

theorem Holds.byte (h : Holds msg ctx) (b : UInt8) : Holds (msg ++ [b]) (sha256Byte ctx b) := by
  have hbits := h.bitlen_eq
  have hlen : (msg ++ [b]).length = msg.length + 1 := by
    rw [length_append]
    rfl
  unfold sha256Byte
  dsimp only
  by_cases hfull : ctx.datalen + 1 = 64
  · rw [if_pos hfull, transform_eq]
    refine ⟨h.absorbed.full (by decide) b hfull, ?_⟩
    dsimp only
    rw [hlen]
    omega
  · rw [if_neg hfull]
    refine ⟨h.absorbed.push (by decide) b hfull, ?_⟩
    dsimp only
    rw [hlen]
    omega

theorem Holds.bytes : ∀ (bytes : List UInt8) {msg : List UInt8} {ctx : Sha256Ctx}, Holds msg ctx →
    Holds (msg ++ bytes) (bytes.foldl sha256Byte ctx)
  | [], msg, ctx, h => by
    rw [append_nil]
    exact h
  | b :: bytes, msg, ctx, h => by
    rw [foldl_cons, append_cons]
    exact Holds.bytes bytes (h.byte b)

theorem Holds.pieces : ∀ (pieces : List (List UInt8)) {msg : List UInt8} {ctx : Sha256Ctx}, Holds msg ctx →
    (∀ piece ∈ pieces, piece.length < 2 ^ 32) →
    ∃ ctx', pieces.foldlM sha256Update ctx = some ctx' ∧ Holds (msg ++ pieces.flatten) ctx'
  | [], msg, ctx, h, _ => ⟨ctx, rfl, by simpa using h⟩
  | piece :: pieces, msg, ctx, h, hshort => by
    obtain ⟨ctx', hrun, h'⟩ := Holds.pieces pieces (h.bytes piece) fun p hp => hshort p (mem_cons_of_mem _ hp)
    refine ⟨ctx', ?_, ?_⟩
    · rw [foldlM_cons, sha256Update, if_pos (hshort piece (mem_cons_self ..))]
      exact hrun
    · rwa [flatten_cons, ← append_assoc]

/-! ## The end -/

theorem byteAt_eq {w : Nat} (hw : 8 ≤ w) (x : BitVec w) (n : Nat) : byteAt x n = UInt8.ofNat (x.toNat / 2 ^ n) := by
  have hpow : 2 ^ 8 ≤ 2 ^ w := Nat.pow_le_pow_right (by decide) hw
  have hmask : (0xff : BitVec w).toNat = 2 ^ 8 - 1 := by
    show (BitVec.ofNat w 0xff).toNat = 2 ^ 8 - 1
    rw [BitVec.toNat_ofNat]
    exact Nat.mod_eq_of_lt (by omega)
  unfold byteAt
  rw [BitVec.toNat_and, BitVec.toNat_ushiftRight, Nat.shiftRight_eq_div_pow, hmask, Nat.and_two_pow_sub_one_eq_mod]
  apply UInt8.toNat_inj.1
  rw [UInt8.toNat_ofNat', UInt8.toNat_ofNat', Nat.mod_mod]

theorem out_eq (s : Words 32) (hash : Buffer) :
    ((List.range 4).foldl (sha256Out s) hash).list 0 32 = s.digest Sha2.sha256 := by
  have hsets : (List.range 4).foldl (sha256Out s) hash =
    Buffer.sets (fun p => byteAt (s.toList.getD (p / 4) 0) (24 - p % 4 * 8))
        [0, 4, 8, 12, 16, 20, 24, 28, 1, 5, 9, 13, 17, 21, 25, 29, 2, 6, 10, 14, 18, 22, 26, 30, 3, 7, 11, 15, 19,
          23, 27, 31]
        hash := rfl
  have hall : ((List.range 4).foldl (sha256Out s) hash).list 0 32 =
      (List.range 32).map fun p => byteAt (s.toList.getD (p / 4) 0) (24 - p % 4 * 8) := by
    rw [hsets]
    apply map_congr_left
    intro p hp
    rw [Buffer.sets_apply, Nat.zero_add, if_pos]
    rw [mem_range] at hp
    interval_cases p <;> decide
  rw [hall]
  simp only [byteAt_eq (w := 32) (by decide)]
  rfl

theorem length_spec (ctx : Sha256Ctx) : (sha256Length ctx).data.list 0 64 =
    ctx.data.list 0 56 ++ bytesBE 8 ((ctx.bitlen + ctx.datalen * 8) % 2 ^ 64) := by
  have hsets : (sha256Length ctx).data = Buffer.sets
      (fun p => UInt8.ofNat (((ctx.bitlen + ctx.datalen * 8) % 2 ^ 64) >>> (8 * (63 - p)))) [63, 62, 61, 60, 59, 58, 57, 56]
      ctx.data := rfl
  have hsplit (b : Buffer) : b.list 0 64 = b.list 0 56 ++ b.list 56 8 := Buffer.list_add b 0 56 8
  have hfront : (sha256Length ctx).data.list 0 56 = ctx.data.list 0 56 := by
    apply Buffer.list_congr
    intro i hi
    rw [hsets, Buffer.sets_apply, if_neg]
    simp only [mem_cons, not_mem_nil, or_false]
    omega
  have hback : (sha256Length ctx).data.list 56 8 = bytesBE 8 ((ctx.bitlen + ctx.datalen * 8) % 2 ^ 64) := by
    apply Sha2.list_bytesBE
    intro i hi
    rw [hsets, Buffer.sets_apply, if_pos (by simp only [mem_cons, not_mem_nil, or_false]; omega)]
    congr 3
    omega
  rw [hsplit, hfront, hback]

theorem Holds.final (h : Holds msg ctx) (hlen : msg.length < 2 ^ 61) (hash : Buffer) :
    (sha256Final ctx hash).2.list 0 32 = Sha2.sha256.hash msg := by
  have hbits : (ctx.bitlen + ctx.datalen * 8) % 2 ^ 64 = 8 * msg.length := by
    rw [h.bitlen_eq]
    exact Nat.mod_eq_of_lt (by omega)
  have hlt : ctx.datalen < 64 := h.absorbed.lt (by decide)
  unfold sha256Final
  dsimp only
  rw [out_eq, transform_eq, length_spec]
  by_cases hshort : ctx.datalen < 56
  · have hpad : sha256Pad ctx = { ctx with data := (ctx.data.set ctx.datalen 0x80).zeroUpTo 56 (ctx.datalen + 1) } :=
      if_pos hshort
    have hfits : ctx.datalen + 1 + 2 * Sha2.sha256.bytes ≤ Sha2.sha256.block := by
      show ctx.datalen + 9 ≤ 64
      omega
    have hzeros : Sha2.sha256.block - (ctx.datalen + 1 + 2 * Sha2.sha256.bytes) = 56 - (ctx.datalen + 1) := by
      show 64 - (ctx.datalen + 9) = 56 - (ctx.datalen + 1)
      omega
    rw [hpad]
    dsimp only [sha256Length]
    rw [hbits, h.absorbed.padded hshort, h.absorbed.short (by decide) hfits, hzeros, append_assoc]
    rfl
  · have hpad : sha256Pad ctx =
        { sha256Transform { ctx with data := (ctx.data.set ctx.datalen 0x80).zeroUpTo 64 (ctx.datalen + 1) }
            ((ctx.data.set ctx.datalen 0x80).zeroUpTo 64 (ctx.datalen + 1)) with
          data := ((ctx.data.set ctx.datalen 0x80).zeroUpTo 64 (ctx.datalen + 1)).blit 0 (fun _ => 0) 56 } := if_neg hshort
    have hnot : ¬ ctx.datalen + 1 + 2 * Sha2.sha256.bytes ≤ Sha2.sha256.block := by
      show ¬ ctx.datalen + 9 ≤ 64
      omega
    have hzero : (((ctx.data.set ctx.datalen 0x80).zeroUpTo 64 (ctx.datalen + 1)).blit 0 (fun _ => 0) 56).list 0 56 =
        List.replicate 56 0 :=
      Buffer.list_of_eq fun i hi => Buffer.blit_of_mem (Nat.zero_le _) (by omega)
    rw [hpad, transform_eq]
    dsimp only [sha256Length]
    rw [hbits, hzero, h.absorbed.padded hlt, h.absorbed.long (by decide) hnot]
    rfl

/-- **SHA-256, however the message is cut into pieces**, from whatever the context held before. -/
theorem sha256_incremental (ctx : Sha256Ctx) (hash : Buffer) (pieces : List (List UInt8))
    (hpieces : ∀ piece ∈ pieces, piece.length < 2 ^ 32) (hlen : pieces.flatten.length < 2 ^ 61) :
    ∃ ctx', pieces.foldlM sha256Update (sha256Init ctx) = some ctx' ∧
      (sha256Final ctx' hash).2.list 0 32 = Sha2.sha256.hash pieces.flatten := by
  obtain ⟨ctx', hrun, h⟩ := (holds_init ctx).pieces pieces hpieces
  exact ⟨ctx', hrun, h.final hlen hash⟩

def Sha256.blank : Sha256Ctx := ⟨fun _ => 0, 0, 0, start⟩

/-- `abc` in two pieces. -/
theorem sha256_incremental_abc : ∃ ctx', [[97], [98, 99]].foldlM sha256Update (sha256Init blank) = some ctx' ∧
    (sha256Final ctx' fun _ => 0).2.list 0 32 = Sha2.sha256.hash [97, 98, 99] :=
  sha256_incremental blank (fun _ => 0) [[97], [98, 99]] (by decide) (by decide)

end EterOS.Crypto
