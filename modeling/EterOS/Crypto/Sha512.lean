import EterOS.Crypto.Sha256
/-!
# Sha512 — `kernel/crypto/sha512.c`

The padding has a loop that would take a full block in and go on with the next, but it ends at byte 112 and never gets
there: a message with 112 bytes or more in its last block has the length written over its own end.
-/
namespace EterOS.Crypto

open List
open Sha2 (Words Params Absorbed bytesBE)

namespace Sha512

def k : List (BitVec 64) := [
  0x428a2f98d728ae22, 0x7137449123ef65cd, 0xb5c0fbcfec4d3b2f, 0xe9b5dba58189dbbc,
  0x3956c25bf348b538, 0x59f111f1b605d019, 0x923f82a4af194f9b, 0xab1c5ed5da6d8118,
  0xd807aa98a3030242, 0x12835b0145706fbe, 0x243185be4ee4b28c, 0x550c7dc3d5ffb4e2,
  0x72be5d74f27b896f, 0x80deb1fe3b1696b1, 0x9bdc06a725c71235, 0xc19bf174cf692694,
  0xe49b69c19ef14ad2, 0xefbe4786384f25e3, 0x0fc19dc68b8cd5b5, 0x240ca1cc77ac9c65,
  0x2de92c6f592b0275, 0x4a7484aa6ea6e483, 0x5cb0a9dcbd41fbd4, 0x76f988da831153b5,
  0x983e5152ee66dfab, 0xa831c66d2db43210, 0xb00327c898fb213f, 0xbf597fc7beef0ee4,
  0xc6e00bf33da88fc2, 0xd5a79147930aa725, 0x06ca6351e003826f, 0x142929670a0e6e70,
  0x27b70a8546d22ffc, 0x2e1b21385c26c926, 0x4d2c6dfc5ac42aed, 0x53380d139d95b3df,
  0x650a73548baf63de, 0x766a0abb3c77b2a8, 0x81c2c92e47edaee6, 0x92722c851482353b,
  0xa2bfe8a14cf10364, 0xa81a664bbc423001, 0xc24b8b70d0f89791, 0xc76c51a30654be30,
  0xd192e819d6ef5218, 0xd69906245565a910, 0xf40e35855771202a, 0x106aa07032bbd1b8,
  0x19a4c116b8d2d0c8, 0x1e376c085141ab53, 0x2748774cdf8eeb99, 0x34b0bcb5e19b48a8,
  0x391c0cb3c5c95a63, 0x4ed8aa4ae3418acb, 0x5b9cca4f7763e373, 0x682e6ff3d6b2b8a3,
  0x748f82ee5defb2fc, 0x78a5636f43172f60, 0x84c87814a1f0ab72, 0x8cc702081a6439ec,
  0x90befffa23631e28, 0xa4506cebde82bde9, 0xbef9a3f7b2c67915, 0xc67178f2e372532b,
  0xca273eceea26619c, 0xd186b8c721c0c207, 0xeada7dd6cde0eb1e, 0xf57d4f7fee6ed178,
  0x06f067aa72176fba, 0x0a637dc5a2c898a6, 0x113f9804bef90dae, 0x1b710b35131c471b,
  0x28db77f523047d84, 0x32caab7b40c72493, 0x3c9ebe0a15c9bebc, 0x431d67c49c100d4c,
  0x4cc5d4becb3e42b6, 0x597f299cfc657e2a, 0x5fcb6fab3ad6faec, 0x6c44198c4a475817]

def rotr (x : BitVec 64) (n : Nat) : BitVec 64 := x >>> n ||| x <<< (64 - n)
def ch (x y z : BitVec 64) : BitVec 64 := (x &&& y) ^^^ (~~~x &&& z)
def maj (x y z : BitVec 64) : BitVec 64 := (x &&& y) ^^^ (x &&& z) ^^^ (y &&& z)
def bigSigma0 (x : BitVec 64) : BitVec 64 := rotr x 28 ^^^ rotr x 34 ^^^ rotr x 39
def bigSigma1 (x : BitVec 64) : BitVec 64 := rotr x 14 ^^^ rotr x 18 ^^^ rotr x 41
def sigma0 (x : BitVec 64) : BitVec 64 := rotr x 1 ^^^ rotr x 8 ^^^ x >>> 7
def sigma1 (x : BitVec 64) : BitVec 64 := rotr x 19 ^^^ rotr x 61 ^^^ x >>> 6

def start : Words 64 where
  a := 0x6a09e667f3bcc908
  b := 0xbb67ae8584caa73b
  c := 0x3c6ef372fe94f82b
  d := 0xa54ff53a5f1d36f1
  e := 0x510e527fade682d1
  f := 0x9b05688c2b3e6c1f
  g := 0x1f83d9abfb41bd6b
  h := 0x5be0cd19137e2179

/-- The first loop of `sha512_transform`, turn `i`. -/
def load (data : Buffer) (i : Nat) : BitVec 64 :=
  byte 64 (data (i * 8)) <<< 56 ||| byte 64 (data (i * 8 + 1)) <<< 48 ||| byte 64 (data (i * 8 + 2)) <<< 40 |||
    byte 64 (data (i * 8 + 3)) <<< 32 ||| byte 64 (data (i * 8 + 4)) <<< 24 ||| byte 64 (data (i * 8 + 5)) <<< 16 |||
    byte 64 (data (i * 8 + 6)) <<< 8 ||| byte 64 (data (i * 8 + 7))

end Sha512

open Sha512

/-- `sha512_ctx`; of the buffer `data` the first 128 bytes are the block. -/
structure Sha512Ctx where
  state : Words 64
  bitlen : Nat
  data : Buffer
  datalen : Nat

def sha512Transform (ctx : Sha512Ctx) (data : Buffer) : Sha512Ctx :=
  let m := (List.range 16).map (load data)
  let m := (List.range' 16 64).foldl (Sha2.expand sigma0 sigma1) m
  { ctx with state := ctx.state.add ((List.range 80).foldl (Sha2.turn bigSigma0 bigSigma1 ch maj k m) ctx.state) }

def sha512Init (ctx : Sha512Ctx) : Sha512Ctx := { ctx with datalen := 0, bitlen := 0, state := start }

def sha512Byte (ctx : Sha512Ctx) (b : UInt8) : Sha512Ctx :=
  let ctx := { ctx with data := ctx.data.set ctx.datalen b, datalen := ctx.datalen + 1 }
  if ctx.datalen = 128 then
    { sha512Transform ctx ctx.data with bitlen := (ctx.bitlen + 1024) % 2 ^ 64, datalen := 0 }
  else ctx

def sha512Update (ctx : Sha512Ctx) (data : List UInt8) : Sha512Ctx := data.foldl sha512Byte ctx

def sha512PadLoop (ctx : Sha512Ctx) (i : Nat) : Sha512Ctx × Nat :=
  if i < 112 then
    let ctx := { ctx with data := ctx.data.set i 0x00 }
    if i + 1 = 128 then
      sha512PadLoop { sha512Transform ctx ctx.data with bitlen := (ctx.bitlen + 1024) % 2 ^ 64, datalen := 0 } 0
    else sha512PadLoop ctx (i + 1)
  else (ctx, i)
termination_by 112 - i
decreasing_by all_goals omega

/-- `sha512_final`, up to the length: the padding. -/
def sha512Pad (ctx : Sha512Ctx) : Sha512Ctx :=
  let ctx' := { ctx with data := ctx.data.set ctx.datalen 0x80 }
  let (ctx', i) := sha512PadLoop ctx' (ctx.datalen + 1)
  { ctx' with data := ctx'.data.zeroUpTo 120 i }

def sha512Length (ctx : Sha512Ctx) : Sha512Ctx :=
  let bitlen := (ctx.bitlen + ctx.datalen * 8) % 2 ^ 64
  { ctx with
    bitlen := bitlen
    data := (List.range 8).foldl (fun b i => b.set (127 - i) (UInt8.ofNat ((bitlen >>> (i * 8)) &&& 0xff))) ctx.data }

/-- The last loop of `sha512_final`, turn `i`. -/
def sha512Out (s : Words 64) (hash : Buffer) (i : Nat) : Buffer :=
  let val := s.toList.getD i 0
  (List.range 8).foldl (fun b j => b.set (i * 8 + j) (byteAt val (56 - j * 8))) hash

def sha512Final (ctx : Sha512Ctx) (hash : Buffer) : Sha512Ctx × Buffer :=
  let ctx := sha512Length (sha512Pad ctx)
  let ctx := sha512Transform ctx ctx.data
  (ctx, (List.range 8).foldl (sha512Out ctx.state) hash)

/-! ## The block function -/

variable {msg : List UInt8} {ctx : Sha512Ctx} {data hash : Buffer}

theorem rotr_eq (x : BitVec 64) {n : Nat} (h : n < 64) : rotr x n = x.rotateRight n := by
  rw [BitVec.rotateRight_def, Nat.mod_eq_of_lt h]
  rfl

theorem sigma0_eq (x : BitVec 64) : sigma0 x = Sha2.smallSigma Sha2.sha512.smallSigma0 x := by
  rw [sigma0, rotr_eq x (by decide), rotr_eq x (by decide)]
  rfl

theorem sigma1_eq (x : BitVec 64) : sigma1 x = Sha2.smallSigma Sha2.sha512.smallSigma1 x := by
  rw [sigma1, rotr_eq x (by decide), rotr_eq x (by decide)]
  rfl

theorem bigSigma0_eq (x : BitVec 64) : bigSigma0 x = Sha2.bigSigma Sha2.sha512.bigSigma0 x := by
  rw [bigSigma0, rotr_eq x (by decide), rotr_eq x (by decide), rotr_eq x (by decide)]
  rfl

theorem bigSigma1_eq (x : BitVec 64) : bigSigma1 x = Sha2.bigSigma Sha2.sha512.bigSigma1 x := by
  rw [bigSigma1, rotr_eq x (by decide), rotr_eq x (by decide), rotr_eq x (by decide)]
  rfl

theorem k512_eq : ∀ t < 80, Sha512.k.getD t 0 = Sha2.roundConstant 64 t := by
  unfold Sha2.roundConstant Sha2.fraction
  rw [Sha2.primes_eq]
  decide +kernel

theorem start512_eq : Sha512.start = Sha2.initial 64 := by
  unfold Sha2.initial Sha2.fraction
  rw [Sha2.primes_eq]
  decide +kernel

theorem load512_eq (data : Buffer) {t : Nat} (ht : t < 16) : Sha512.load data t = Sha2.sha512.word (data.list 0 128) t := by
  have hbytes : ((data.list 0 128).drop (t * 8)).take 8 =
      [data (t * 8), data (t * 8 + 1), data (t * 8 + 2), data (t * 8 + 3), data (t * 8 + 4), data (t * 8 + 5),
      data (t * 8 + 6), data (t * 8 + 7)] := by
    rw [Buffer.list_drop_take (by omega), Nat.zero_add]
    rfl
  unfold Params.word Sha512.load byte
  rw [show Sha2.sha512.bytes = 8 from rfl, hbytes, Sha2.shift_or_byte _ 48, Sha2.shift_or_byte _ 40, Sha2.shift_or_byte _ 32,
    Sha2.shift_or_byte _ 24, Sha2.shift_or_byte _ 16, Sha2.shift_or_byte _ 8,
    ← BitVec.shiftLeft_zero (BitVec.ofNat 64 (data (t * 8 + 7)).toNat), Sha2.shift_or_byte _ 0, BitVec.shiftLeft_zero]
  simp [Sha2.bigEndian]

theorem transform512_eq (ctx : Sha512Ctx) (data : Buffer) :
    sha512Transform ctx data = { ctx with state := Sha2.sha512.compress ctx.state (data.list 0 128) } := by
  have hload : (List.range 16).map (Sha512.load data) = (List.range 16).map (Sha2.sha512.word (data.list 0 128)) :=
    map_congr_left fun t ht => load512_eq data (mem_range.1 ht)
  have hch : ∀ x y z, Sha512.ch x y z = Sha2.Ch x y z := fun _ _ _ => rfl
  have hmaj : ∀ x y z, Sha512.maj x y z = Sha2.Maj x y z := fun _ _ _ => rfl
  have hcompress := Params.compress_eq (P := Sha2.sha512) (data.list 0 128) (by decide) sigma0_eq sigma1_eq bigSigma0_eq
    bigSigma1_eq hch hmaj k512_eq ctx.state
  unfold sha512Transform
  rw [hload]
  exact congrArg (fun s => { ctx with state := s }) hcompress


/-! ## Taking a message -/

structure Holds512 (msg : List UInt8) (ctx : Sha512Ctx) : Prop where
  absorbed : Absorbed Sha2.sha512 msg ctx.data ctx.datalen ctx.state
  bitlen_eq : (ctx.bitlen + ctx.datalen * 8) % 2 ^ 64 = 8 * msg.length % 2 ^ 64

theorem holds512_init (ctx : Sha512Ctx) : Holds512 [] (sha512Init ctx) := by
  refine ⟨?_, rfl⟩
  have h := Sha2.absorbed_nil (P := Sha2.sha512) (by decide) ctx.data
  rwa [← start512_eq] at h

namespace Holds512

theorem lt (h : Holds512 msg ctx) : ctx.datalen < 128 := h.absorbed.lt (by decide)

theorem byte (h : Holds512 msg ctx) (b : UInt8) : Holds512 (msg ++ [b]) (sha512Byte ctx b) := by
  have hbits := h.bitlen_eq
  have hlen : (msg ++ [b]).length = msg.length + 1 := by simp
  unfold sha512Byte
  dsimp only
  by_cases hfull : ctx.datalen + 1 = 128
  · rw [if_pos hfull, transform512_eq]
    refine ⟨h.absorbed.full (by decide) b hfull, ?_⟩
    dsimp only
    rw [hlen]
    omega
  · rw [if_neg hfull]
    refine ⟨h.absorbed.push (by decide) b hfull, ?_⟩
    dsimp only
    rw [hlen]
    omega

theorem data_byte (h : Holds512 msg ctx) (b : UInt8) {p : Nat} (hp : 128 ≤ p) : (sha512Byte ctx b).data p = ctx.data p := by
  have hset : (ctx.data.set ctx.datalen b) p = ctx.data p := Buffer.set_of_ne (by have := h.lt; omega)
  unfold sha512Byte
  dsimp only
  split
  · rw [transform512_eq]
    exact hset
  · exact hset

theorem update : ∀ (bytes : List UInt8) {msg : List UInt8} {ctx : Sha512Ctx}, Holds512 msg ctx →
    Holds512 (msg ++ bytes) (sha512Update ctx bytes) ∧ ∀ p, 128 ≤ p → (sha512Update ctx bytes).data p = ctx.data p
  | [], msg, ctx, h => by
    rw [append_nil]
    exact ⟨h, fun _ _ => rfl⟩
  | b :: bytes, msg, ctx, h => by
    obtain ⟨hholds, hdata⟩ := update bytes (h.byte b)
    rw [← append_cons] at hholds
    exact ⟨hholds, fun p hp => (hdata p hp).trans (h.data_byte b hp)⟩

theorem pieces : ∀ (pieces : List (List UInt8)) {msg : List UInt8} {ctx : Sha512Ctx}, Holds512 msg ctx →
    Holds512 (msg ++ pieces.flatten) (pieces.foldl sha512Update ctx) ∧
      ∀ p, 128 ≤ p → (pieces.foldl sha512Update ctx).data p = ctx.data p
  | [], msg, ctx, h => ⟨by simpa using h, fun _ _ => rfl⟩
  | piece :: rest, msg, ctx, h => by
    obtain ⟨hholds, hdata⟩ := update piece h
    obtain ⟨hholds', hdata'⟩ := pieces rest hholds
    rw [append_assoc, ← flatten_cons] at hholds'
    exact ⟨hholds', fun p hp => (hdata' p hp).trans (hdata p hp)⟩

end Holds512

/-! ## The end -/

theorem sha512PadLoop_eq (ctx : Sha512Ctx) (i : Nat) :
    sha512PadLoop ctx i = ({ ctx with data := ctx.data.zeroUpTo 112 i }, max i 112) := by
  fun_induction sha512PadLoop ctx i with
  | case1 ctx i hi ctx' hfull => omega
  | case2 ctx i hi ctx' hmore ih =>
    have hmax : max (i + 1) 112 = max i 112 := by omega
    rw [ih, hmax, Buffer.zeroUpTo_of_lt ctx.data hi]
  | case3 ctx i hi =>
    have hmax : max i 112 = i := by omega
    rw [hmax, Buffer.zeroUpTo_of_ge ctx.data (by omega)]

theorem sha512Pad_eq (ctx : Sha512Ctx) :
    sha512Pad ctx = { ctx with data := (ctx.data.set ctx.datalen 0x80).zeroUpTo 120 (ctx.datalen + 1) } := by
  have hzero : ((ctx.data.set ctx.datalen 0x80).zeroUpTo 112 (ctx.datalen + 1)).zeroUpTo 120 (max (ctx.datalen + 1) 112) =
      (ctx.data.set ctx.datalen 0x80).zeroUpTo 120 (ctx.datalen + 1) := by
    funext p
    simp only [Buffer.zeroUpTo_apply]
    by_cases hin : ctx.datalen + 1 ≤ p ∧ p < 120
    · rw [if_pos hin]
      by_cases hlow : p < 112
      · rw [if_neg (by omega), if_pos (by omega)]
      · rw [if_pos (by omega)]
    · rw [if_neg hin, if_neg (by omega), if_neg (by omega)]
  unfold sha512Pad
  dsimp only
  rw [sha512PadLoop_eq]
  exact congrArg (fun b => { ctx with data := b }) hzero

theorem sha512Length_data (ctx : Sha512Ctx) : (sha512Length ctx).data = Buffer.sets
    (fun p => UInt8.ofNat ((((ctx.bitlen + ctx.datalen * 8) % 2 ^ 64) >>> ((127 - p) * 8)) &&& 0xff))
    [127, 126, 125, 124, 123, 122, 121, 120] ctx.data := rfl

theorem low_byte (v : Nat) : UInt8.ofNat (v &&& 0xff) = UInt8.ofNat v := by
  apply UInt8.toNat_inj.1
  rw [UInt8.toNat_ofNat', UInt8.toNat_ofNat', show 0xff = 2 ^ 8 - 1 from rfl, Nat.and_two_pow_sub_one_eq_mod, Nat.mod_mod]

theorem sha512Length_list (ctx : Sha512Ctx) : (sha512Length ctx).data.list 0 128 =
    ctx.data.list 0 120 ++ bytesBE 8 ((ctx.bitlen + ctx.datalen * 8) % 2 ^ 64) := by
  have hfront : (sha512Length ctx).data.list 0 120 = ctx.data.list 0 120 := by
    apply Buffer.list_congr
    intro i hi
    rw [sha512Length_data, Buffer.sets_apply, if_neg]
    simp only [mem_cons, not_mem_nil, or_false]
    omega
  have hback : (sha512Length ctx).data.list 120 8 = bytesBE 8 ((ctx.bitlen + ctx.datalen * 8) % 2 ^ 64) := by
    apply Sha2.list_bytesBE
    intro i hi
    have hshift : (127 - (120 + (8 - 1 - i))) * 8 = 8 * i := by omega
    rw [sha512Length_data, Buffer.sets_apply, if_pos (by simp only [mem_cons, not_mem_nil, or_false]; omega),
      low_byte, hshift]
  rw [show 128 = 120 + 8 from rfl, Buffer.list_add, Nat.zero_add, hfront, hback]

theorem out512_eq (s : Words 64) (hash : Buffer) :
    ((List.range 8).foldl (sha512Out s) hash).list 0 64 = s.digest Sha2.sha512 := by
  have hsets : (List.range 8).foldl (sha512Out s) hash =
      Buffer.sets (fun p => byteAt (s.toList.getD (p / 8) 0) (56 - p % 8 * 8)) (List.range 64) hash := rfl
  have hall : ((List.range 8).foldl (sha512Out s) hash).list 0 64 =
      (List.range 64).map fun p => byteAt (s.toList.getD (p / 8) 0) (56 - p % 8 * 8) := by
    rw [hsets]
    apply map_congr_left
    intro p hp
    rw [Buffer.sets_apply, Nat.zero_add, if_pos hp]
  rw [hall]
  simp only [byteAt_eq (w := 64) (by decide)]
  rfl

/-- **What `sha512_final` computes**: the block with the padding, cut off at byte 120, and the length. -/
theorem sha512Final_list (ctx : Sha512Ctx) (hash : Buffer) : (sha512Final ctx hash).2.list 0 64 =
    (Sha2.sha512.compress ctx.state (((ctx.data.set ctx.datalen 0x80).zeroUpTo 120 (ctx.datalen + 1)).list 0 120 ++
      bytesBE 8 ((ctx.bitlen + ctx.datalen * 8) % 2 ^ 64))).digest Sha2.sha512 := by
  unfold sha512Final
  dsimp only
  rw [out512_eq, transform512_eq, sha512Length_list, sha512Pad_eq]
  rfl

theorem sha512Final_data (hlt : ctx.datalen < 128) (hash : Buffer) {p : Nat} (hp : 128 ≤ p) :
    (sha512Final ctx hash).1.data p = ctx.data p := by
  have hmem : p ∉ [127, 126, 125, 124, 123, 122, 121, 120] := by
    simp only [mem_cons, not_mem_nil, or_false]
    omega
  unfold sha512Final
  dsimp only
  rw [transform512_eq]
  dsimp only
  rw [sha512Length_data, Buffer.sets_apply, if_neg hmem, sha512Pad_eq]
  dsimp only
  rw [Buffer.zeroUpTo_apply, if_neg (by omega), Buffer.set_of_ne (by omega)]

theorem Holds512.bits (h : Holds512 msg ctx) (hlen : msg.length < 2 ^ 61) :
    (ctx.bitlen + ctx.datalen * 8) % 2 ^ 64 = 8 * msg.length := by
  rw [h.bitlen_eq]
  exact Nat.mod_eq_of_lt (by omega)

theorem Holds512.final_of_lt (h : Holds512 msg ctx) (hlen : msg.length < 2 ^ 61) (hlt : ctx.datalen < 120) (hash : Buffer) :
    (sha512Final ctx hash).2.list 0 64 = (Sha2.sha512.compress ctx.state (Chunks.pending 128 msg ++
      (0x80 :: List.replicate (119 - ctx.datalen) 0 ++ bytesBE 8 (8 * msg.length)))).digest Sha2.sha512 := by
  have hzeros : 120 - (ctx.datalen + 1) = 119 - ctx.datalen := by omega
  rw [sha512Final_list, h.bits hlen, h.absorbed.padded hlt, hzeros, append_assoc]
  rfl

theorem Holds512.final (h : Holds512 msg ctx) (hlen : msg.length < 2 ^ 61) (hroom : msg.length % 128 < 112) (hash : Buffer) :
    (sha512Final ctx hash).2.list 0 64 = Sha2.sha512.hash msg := by
  have hmod : msg.length % 128 = ctx.datalen := h.absorbed.mod_eq
  have hfits : ctx.datalen + 1 + 2 * Sha2.sha512.bytes ≤ Sha2.sha512.block := by
    show ctx.datalen + 17 ≤ 128
    omega
  have hzeros : Sha2.sha512.block - (ctx.datalen + 1 + 2 * Sha2.sha512.bytes) = 111 - ctx.datalen := by
    show 128 - (ctx.datalen + 17) = 111 - ctx.datalen
    omega
  have hpow : 8 * msg.length < 256 ^ 8 := by
    show 8 * msg.length < 2 ^ 64
    omega
  -- The standard's length has sixteen bytes, of which the first eight are zero.
  have hlength : bytesBE (2 * Sha2.sha512.bytes) (8 * msg.length) = List.replicate 8 0 ++ bytesBE 8 (8 * msg.length) :=
    Sha2.bytesBE_add 8 8 (8 * msg.length) hpow
  have hsum : 119 - ctx.datalen = 111 - ctx.datalen + 8 := by omega
  rw [h.final_of_lt hlen (by omega), h.absorbed.short (by decide) hfits, hzeros, hlength, hsum, replicate_add]
  simp only [append_assoc, cons_append]
  rfl

/-- **SHA-512, however the message is cut into pieces**: nothing is written behind the block, and the digest is right when
the last block has room for the padding and the length. -/
theorem sha512_incremental (ctx : Sha512Ctx) (hash : Buffer) (pieces : List (List UInt8))
    (hlen : pieces.flatten.length < 2 ^ 61) :
    (∀ p, 128 ≤ p → (sha512Final (pieces.foldl sha512Update (sha512Init ctx)) hash).1.data p = ctx.data p) ∧
      (pieces.flatten.length % 128 < 112 →
        (sha512Final (pieces.foldl sha512Update (sha512Init ctx)) hash).2.list 0 64 = Sha2.sha512.hash pieces.flatten) := by
  obtain ⟨h, hdata⟩ := (holds512_init ctx).pieces pieces
  refine ⟨fun p hp => ?_, fun hroom => h.final hlen hroom hash⟩
  rw [sha512Final_data h.lt hash hp]
  exact hdata p hp

def Sha512.blank : Sha512Ctx := ⟨start, 0, fun _ => 0, 0⟩

/-- `abc` in two pieces. -/
theorem sha512_incremental_abc :
    (sha512Final ([[97], [98, 99]].foldl sha512Update (sha512Init blank)) fun _ => 0).2.list 0 64 =
      Sha2.sha512.hash [97, 98, 99] :=
  (sha512_incremental blank (fun _ => 0) [[97], [98, 99]] (by decide)).2 (by decide)

/-! ## A message whose last block has no room

112 zero bytes: the standard puts the length into a second block, the code over the end of the first. -/

namespace Sha512

def zeros112 : List UInt8 := List.replicate 112 0

def firstBlock : List UInt8 := zeros112 ++ 0x80 :: List.replicate 15 0

def secondBlock : List UInt8 := List.replicate 112 0 ++ bytesBE 16 896

def onlyBlock : List UInt8 := zeros112 ++ (0x80 :: List.replicate 7 0 ++ bytesBE 8 896)

def loops (v : Words 64) (block : List UInt8) : Words 64 :=
  v.add ((List.range 80).foldl (Sha2.turn bigSigma0 bigSigma1 ch maj k
    ((List.range' 16 64).foldl (Sha2.expand sigma0 sigma1) ((List.range 16).map (Sha2.sha512.word block)))) v)

end Sha512

theorem loops_eq (v : Words 64) (block : List UInt8) : loops v block = Sha2.sha512.compress v block :=
  Params.compress_eq (P := Sha2.sha512) block (by decide) sigma0_eq sigma1_eq bigSigma0_eq bigSigma1_eq (fun _ _ _ => rfl)
    (fun _ _ _ => rfl) k512_eq v

def Sha512.middle : Words 64 where
  a := 6471868815911814891
  b := 6176117379887784855
  c := 708652983853875139
  d := 17762149324398877722
  e := 11280195570775043922
  f := 9980868635874567834
  g := 5079666402346798671
  h := 10419072894834562968

theorem compress_firstBlock : Sha2.sha512.compress (Sha2.initial 64) firstBlock = middle := by
  rw [← loops_eq, ← start512_eq]
  decide +kernel

theorem compress_secondBlock : (Sha2.sha512.compress middle secondBlock).a = 3162344463035575786 := by
  rw [← loops_eq]
  decide +kernel

theorem compress_onlyBlock : (Sha2.sha512.compress (Sha2.initial 64) onlyBlock).a = 5066334524525119198 := by
  rw [← loops_eq, ← start512_eq]
  decide +kernel

theorem digest_take (v : Words 64) : (v.digest Sha2.sha512).take 8 = bytesBE 8 v.a.toNat := rfl

/-- **The digest of 112 zero bytes is wrong.** -/
theorem sha512_zeros112 :
    (sha512Final (sha512Update (sha512Init blank) zeros112) fun _ => 0).2.list 0 64 ≠ Sha2.sha512.hash zeros112 := by
  obtain ⟨h, -⟩ := (holds512_init blank).update zeros112
  rw [nil_append] at h
  generalize sha512Update (sha512Init blank) zeros112 = ctx at h
  have hdatalen : ctx.datalen = 112 := h.absorbed.mod_eq.symm
  have hpending : Chunks.pending 128 zeros112 = zeros112 := Chunks.pending_of_lt (by decide)
  have hstate : ctx.state = Sha2.initial 64 := by
    have hnone : Chunks.chunks 128 zeros112 = [] := Chunks.chunks_of_lt (by decide)
    rw [h.absorbed.state_eq, show Sha2.sha512.block = 128 from rfl, hnone]
    rfl
  have hcode : (sha512Final ctx fun _ => 0).2.list 0 64 =
      (Sha2.sha512.compress (Sha2.initial 64) onlyBlock).digest Sha2.sha512 := by
    rw [h.final_of_lt (by decide) (by omega), hdatalen, hstate, hpending]
    rfl
  have hspec : Sha2.sha512.hash zeros112 = (Sha2.sha512.compress middle secondBlock).digest Sha2.sha512 := by
    rw [h.absorbed.long (by decide) (by rw [hdatalen]; decide), hdatalen, hstate,
      show Sha2.sha512.block = 128 from rfl, hpending, ← compress_firstBlock]
    rfl
  intro heq
  rw [hcode, hspec] at heq
  have hfirst := congrArg (List.take 8) heq
  rw [digest_take, digest_take, compress_onlyBlock, compress_secondBlock] at hfirst
  exact absurd hfirst (by decide)

end EterOS.Crypto
