import Mathlib.Algebra.Group.Nat.Defs
import Mathlib.Data.List.Basic
/-!
# Dhcp — the parser of offers

`src/kernel/net/core/dhcp_parser.c`.  A read outside the bytes that are there has no result; `dhcp_parse_options` is given
the range of the frame that `dhcp_parse_offer` hands on.
-/
namespace EterOS.Dhcp

section
variable (buffer : List UInt8) (i : Nat)

def byte : Nat := (buffer.getD i 0).toNat

def le16 : Nat := byte buffer i + 256 * byte buffer (i + 1)

def le32 : Nat := le16 buffer i + 2 ^ 16 * le16 buffer (i + 2)

def load8 : Option Nat := if i < buffer.length then some (byte buffer i) else none

def load16 : Option Nat := if i + 1 < buffer.length then some (le16 buffer i) else none

def load32 : Option Nat := if i + 3 < buffer.length then some (le32 buffer i) else none

def memcpy4 : Option (List UInt8) := if i + 3 < buffer.length then some ((buffer.drop i).take 4) else none

end

def htons (v : Nat) : Nat := v % 256 * 256 + v / 256

def htonl (v : Nat) : Nat := v % 256 * 0x1000000 + v / 256 % 256 * 0x10000 + v / 0x10000 % 256 * 256 + v / 0x1000000

/-- `dhcp_parse_offer`: the range it hands on, `none` for -1. -/
def dhcpParseOffer (buffer : List UInt8) (xid : UInt32) : Option (Option (Nat × Nat)) := do
  let len := buffer.length
  if len < 14 then return none
  if (← load16 buffer 12) ≠ htons 0x0800 then return none
  if len < 14 + 20 then return none
  if (← load8 buffer (14 + 9)) ≠ 17 then return none
  let ipHeaderLen := (← load8 buffer 14) % 16 * 4
  if ipHeaderLen < 20 then return none
  if len < 14 + ipHeaderLen then return none
  let udp := 14 + ipHeaderLen
  if len < udp + 8 then return none
  if (← load16 buffer (udp + 2)) ≠ htons 68 then return none
  let udpLen := htons (← load16 buffer (udp + 4))
  if udpLen < 8 then return none
  if len < udp + udpLen then return none
  let dhcp := udp + 8
  let dhcpLen := udpLen - 8
  if dhcpLen < 240 then return none
  if len < dhcp + 240 then return none
  if (← load32 buffer (dhcp + 4)) ≠ htonl xid.toNat then return none
  if (← load8 buffer dhcp) ≠ 2 then return none
  return some (dhcp, dhcpLen)

structure Config where
  mask : List UInt8
  gw : List UInt8
  dns : List UInt8

def processOption (packet : List UInt8) (type length opt : Nat) (c : Config) : Option Config :=
  if type = 1 ∧ 4 ≤ length then (memcpy4 packet opt).map fun v => { c with mask := v }
  else if type = 3 ∧ 4 ≤ length then (memcpy4 packet opt).map fun v => { c with gw := v }
  else if type = 6 ∧ 4 ≤ length then (memcpy4 packet opt).map fun v => { c with dns := v }
  else some c

/-- The loop of `dhcp_parse_options`. -/
def optionLoop (packet : List UInt8) (opt : Nat) (c : Config) : Option Config :=
  if h : opt < packet.length then do
    let type ← load8 packet opt
    if type = 255 then return c
    else if type = 0 then optionLoop packet (opt + 1) c
    else if packet.length < opt + 2 then return c
    else
      let length ← load8 packet (opt + 1)
      if packet.length < opt + 2 + length then return c
      else optionLoop packet (opt + 2 + length) (← processOption packet type length (opt + 2) c)
  else some c
termination_by packet.length - opt

def dhcpParseOptions (packet : List UInt8) (c : Config) : Option Config := optionLoop packet 240 c

/-! ## What a frame says -/

def be16 (buffer : List UInt8) (i : Nat) : Nat := 256 * byte buffer i + byte buffer (i + 1)

def be32 (buffer : List UInt8) (i : Nat) : Nat := 2 ^ 16 * be16 buffer i + be16 buffer (i + 2)

/-- Where the UDP header is: behind 14 bytes of Ethernet and the words of the IP header. -/
def udpAt (buffer : List UInt8) : Nat := 14 + byte buffer 14 % 16 * 4

/-- A reply to `xid` for port 68, over UDP and IP, with its payload in this range. -/
structure Offer (buffer : List UInt8) (xid : UInt32) (off len : Nat) : Prop where
  ip : be16 buffer 12 = 0x0800
  udp : byte buffer 23 = 17
  header : 34 ≤ udpAt buffer
  port : be16 buffer (udpAt buffer + 2) = 68
  datagram : be16 buffer (udpAt buffer + 4) = len + 8
  start : off = udpAt buffer + 8
  fixed : 240 ≤ len
  inside : off + len ≤ buffer.length
  transaction : be32 buffer (off + 4) = xid.toNat
  reply : byte buffer off = 2

/-- The well-formed prefix of a list of options, with the bytes of each. -/
def options : List UInt8 → List (Nat × List UInt8)
  | [] | [_] => []
  | type :: length :: bs =>
    if type.toNat = 255 then []
    else if type.toNat = 0 then options (length :: bs)
    else if bs.length < length.toNat then []
    else (type.toNat, bs.take length.toNat) :: options (bs.drop length.toNat)
termination_by bs => bs.length
decreasing_by
  · exact Nat.lt_succ_self _
  · rw [List.length_drop]
    exact Nat.lt_succ_of_le (Nat.le_succ_of_le (Nat.sub_le _ _))

/-- The first four bytes of the last option of a type that has as many. -/
def lastOf (type : Nat) (os : List (Nat × List UInt8)) (old : List UInt8) : List UInt8 :=
  ((os.filter fun o => o.1 = type ∧ 4 ≤ o.2.length).getLast?).elim old fun o => o.2.take 4

/-! ## The offer -/

variable {buffer packet : List UInt8} {i : Nat} {xid : UInt32}

theorem byte_lt (buffer : List UInt8) (i : Nat) : byte buffer i < 256 := UInt8.toNat_lt _

theorem htons_le16 : htons (le16 buffer i) = be16 buffer i := by
  have h := byte_lt buffer i
  have h' := byte_lt buffer (i + 1)
  unfold htons le16 be16
  omega

theorem le16_eq_htons {v : Nat} (hv : v < 2 ^ 16) : le16 buffer i = htons v ↔ be16 buffer i = v := by
  have h := byte_lt buffer i
  have h' := byte_lt buffer (i + 1)
  unfold htons le16 be16
  omega

theorem htonl_digits {a b c d : Nat} (ha : a < 256) (hb : b < 256) (hc : c < 256) :
    htonl (a + 256 * b + 2 ^ 16 * (c + 256 * d)) = d + 256 * c + 2 ^ 16 * (b + 256 * a) := by
  unfold htonl
  omega

theorem htonl_htonl {v : Nat} (hv : v < 2 ^ 32) : htonl (htonl v) = v := by
  have hdiv := Nat.div_div_eq_div_mul v 256 256
  have hdiv' := Nat.div_div_eq_div_mul v 0x10000 256
  obtain ⟨a, b, c, d, ha, hb, hc, hd, rfl⟩ : ∃ a b c d, a < 256 ∧ b < 256 ∧ c < 256 ∧ d < 256 ∧
      v = a + 256 * b + 2 ^ 16 * (c + 256 * d) :=
    ⟨v % 256, v / 256 % 256, v / 0x10000 % 256, v / 0x1000000, by omega, by omega, by omega, by omega, by omega⟩
  rw [htonl_digits ha hb hc, htonl_digits hd hc hb]

theorem htonl_le32 : htonl (le32 buffer i) = be32 buffer i := by
  rw [le32, le16, le16, htonl_digits (byte_lt _ _) (byte_lt _ _) (byte_lt _ _), be32, be16, be16]
  omega

theorem le32_eq_htonl {v : Nat} (hv : v < 2 ^ 32) : le32 buffer i = htonl v ↔ be32 buffer i = v := by
  have hlt : le32 buffer i < 2 ^ 32 := by
    have h := byte_lt buffer i
    have h' := byte_lt buffer (i + 1)
    have h'' := byte_lt buffer (i + 2)
    have h''' := byte_lt buffer (i + 2 + 1)
    unfold le32 le16
    omega
  rw [← htonl_le32]
  exact ⟨fun h => by rw [h, htonl_htonl hv], fun h => by rw [← h, htonl_htonl hlt]⟩

/-- A parser reads where it may, and accepts just what has the property. -/
def Accepts {α : Type} (p : Option (Option α)) (P : α → Prop) : Prop := ∃ r, p = some r ∧ ∀ x, r = some x ↔ P x

section
variable {α β : Type} {P : α → Prop} {p : Option (Option α)}

theorem Accepts.check {c : Prop} [Decidable c] (hno : c → ∀ x, ¬ P x) (hgo : ¬ c → Accepts p P) :
    Accepts (if c then pure none else p) P := by
  by_cases h : c
  · exact ⟨none, if_pos h, fun x => ⟨nofun, fun hx => absurd hx (hno h x)⟩⟩
  · rw [if_neg h]
    exact hgo h

theorem Accepts.read {m : Option β} {f : β → Option (Option α)} {v : β} (hm : m = some v) (hgo : Accepts (f v) P) :
    Accepts (m >>= f) P := by
  subst hm
  exact hgo

theorem Accepts.done {x : α} (h : ∀ y, P y ↔ x = y) : Accepts (pure (some x)) P :=
  ⟨some x, rfl, fun y => by rw [Option.some_inj, h]⟩

end

theorem dhcpParseOffer_accepts (buffer : List UInt8) (xid : UInt32) :
    Accepts (dhcpParseOffer buffer xid) fun r => Offer buffer xid r.1 r.2 := by
  have hroom : ∀ {r : Nat × Nat}, Offer buffer xid r.1 r.2 →
      34 ≤ udpAt buffer ∧ udpAt buffer + 8 + r.2 ≤ buffer.length ∧ 240 ≤ r.2 ∧ be16 buffer (udpAt buffer + 4) = r.2 + 8 :=
    fun ho => ⟨ho.header, ho.start ▸ ho.inside, ho.fixed, ho.datagram⟩
  have hudp : udpAt buffer = 14 + byte buffer 14 % 16 * 4 := rfl
  unfold dhcpParseOffer
  dsimp only
  refine .check (fun h r ho => by have := hroom ho; omega) fun h14 => .read (if_pos (by omega)) ?_
  refine .check (fun h r ho => h ((le16_eq_htons (by decide)).2 ho.ip)) fun hip => ?_
  refine .check (fun h r ho => by have := hroom ho; omega) fun h34 => .read (if_pos (by omega)) ?_
  refine .check (fun h r ho => h ho.udp) fun hproto => .read (if_pos (by omega)) ?_
  rw [← hudp]
  refine .check (fun h r ho => by have := hroom ho; omega) fun h20 => ?_
  refine .check (fun h r ho => by have := hroom ho; omega) fun hhead => ?_
  refine .check (fun h r ho => by have := hroom ho; omega) fun hdatagram => .read (if_pos (by omega)) ?_
  refine .check (fun h r ho => h ((le16_eq_htons (by decide)).2 ho.port)) fun hport => .read (if_pos (by omega)) ?_
  rw [htons_le16]
  refine .check (fun h r ho => by have := hroom ho; omega) fun h8 => ?_
  refine .check (fun h r ho => by have := hroom ho; omega) fun hin => ?_
  refine .check (fun h r ho => by have := hroom ho; omega) fun hfixed => ?_
  refine .check (fun h r ho => by have := hroom ho; omega) fun h240 => .read (if_pos (by omega)) ?_
  refine .check (fun h r ho => h ((le32_eq_htonl xid.toNat_lt).2 (ho.start ▸ ho.transaction))) fun hxid =>
    .read (if_pos (by omega)) ?_
  refine .check (fun h r ho => h (ho.start ▸ ho.reply)) fun hreply => .done fun r => ?_
  constructor
  · intro ho
    have := hroom ho
    exact Prod.ext ho.start.symm (by dsimp only; omega)
  · rintro rfl
    exact
      { ip := (le16_eq_htons (by decide)).1 (not_not.1 hip)
        udp := not_not.1 hproto
        header := by omega
        port := (le16_eq_htons (by decide)).1 (not_not.1 hport)
        datagram := by dsimp only; omega
        start := rfl
        fixed := Nat.le_of_not_lt hfixed
        inside := by dsimp only; omega
        transaction := (le32_eq_htonl xid.toNat_lt).1 (not_not.1 hxid)
        reply := not_not.1 hreply }

/-! ## The options -/

theorem lastOf_cons (type : Nat) (o : Nat × List UInt8) (os : List (Nat × List UInt8)) (old : List UInt8) :
    lastOf type (o :: os) old = lastOf type os (if o.1 = type ∧ 4 ≤ o.2.length then o.2.take 4 else old) := by
  unfold lastOf
  by_cases h : o.1 = type ∧ 4 ≤ o.2.length
  · rw [List.filter_cons_of_pos (by simpa using h), if_pos h, List.getLast?_cons]
    cases (os.filter fun o => decide (o.1 = type ∧ 4 ≤ o.2.length)).getLast? <;> rfl
  · rw [List.filter_cons_of_neg (by simpa using h), if_neg h]

def Config.after (c : Config) (os : List (Nat × List UInt8)) : Config :=
  ⟨lastOf 1 os c.mask, lastOf 3 os c.gw, lastOf 6 os c.dns⟩

theorem processOption_eq {opt length : Nat} (h : opt + length ≤ packet.length) (type : Nat) (c : Config) :
    ∃ c', processOption packet type length opt c = some c' ∧
      ∀ os, c'.after os = c.after ((type, (packet.drop opt).take length) :: os) := by
  have hlen : ((packet.drop opt).take length).length = length := by
    rw [List.length_take, List.length_drop]
    omega
  have htake : 4 ≤ length → memcpy4 packet opt = some (((packet.drop opt).take length).take 4) := fun h4 => by
    rw [memcpy4, if_pos (by omega), List.take_take, Nat.min_eq_left h4]
  unfold processOption Config.after
  simp only [lastOf_cons, hlen]
  split_ifs <;> simp_all

theorem Config.after_nil (c : Config) : c.after [] = c := rfl

theorem optionLoop_eq (packet : List UInt8) (opt : Nat) (c : Config) :
    optionLoop packet opt c = some (c.after (options (packet.drop opt))) := by
  have hbyte : ∀ i, (h : i < packet.length) → packet.drop i = packet[i] :: packet.drop (i + 1) ∧
      byte packet i = packet[i].toNat :=
    fun i h => ⟨List.drop_eq_getElem_cons h, by simp [byte, h]⟩
  induction opt, c using optionLoop.induct packet with
  | case1 opt c h ihPad ihNext =>
    obtain ⟨hdrop, htype⟩ := hbyte opt h
    rw [optionLoop, dif_pos h, load8, if_pos h, hdrop]
    change (if _ then _ else _) = _
    by_cases hshort : packet.length < opt + 2
    · have hnil : packet.drop (opt + 1) = [] := List.drop_eq_nil_of_le (by omega)
      rw [hnil, options, Config.after_nil] at ihPad
      rw [hnil, options, Config.after_nil, if_pos hshort, ihPad]
      split_ifs <;> rfl
    have h' : opt + 1 < packet.length := by omega
    obtain ⟨hdrop', hlength⟩ := hbyte (opt + 1) h'
    rw [hdrop'] at ihPad ⊢
    rw [options, ← htype, ← hlength, List.length_drop, if_neg hshort, load8, if_pos h', ihPad]
    change (if _ then _ else if _ then _ else if _ then _ else _) = _
    by_cases hend : byte packet opt = 255
    · rw [if_pos hend, if_pos hend]
      rfl
    rw [if_neg hend, if_neg hend]
    by_cases hpad : byte packet opt = 0
    · rw [if_pos hpad, if_pos hpad]
    rw [if_neg hpad, if_neg hpad]
    by_cases hlong : packet.length < opt + 2 + byte packet (opt + 1)
    · rw [if_pos hlong, if_pos (by omega)]
      rfl
    · rw [if_neg hlong, if_neg (by omega), List.drop_drop]
      obtain ⟨c', hc', hafter⟩ := processOption_eq (Nat.le_of_not_lt hlong) (byte packet opt) c
      rw [hc', ← hafter]
      exact ihNext hshort _ hlong c'
  | case2 opt c h =>
    rw [optionLoop, dif_neg h, List.drop_eq_nil_of_le (by omega), options, Config.after_nil]

/-- **Both parsers read inside what they are given**: an offer is accepted just when it is one, and of its options the last
ones of each type count. -/
theorem dhcp_parses (buffer : List UInt8) (xid : UInt32) (packet : List UInt8) (c : Config) :
    Accepts (dhcpParseOffer buffer xid) (fun r => Offer buffer xid r.1 r.2) ∧
      dhcpParseOptions packet c = some (c.after (options (packet.drop 240))) :=
  ⟨dhcpParseOffer_accepts buffer xid, optionLoop_eq packet 240 c⟩

end EterOS.Dhcp
