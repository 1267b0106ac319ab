import Yjc.Lib.Mem
import Yjc.Lib.Writes
import Yjc.Util.Checksum

/-! `sniffer/packet_parser.c`. A pointer is an offset in the packet's buffer; no handler is registered for a layer. -/

namespace Yjc.Sniffer
open Mem Checksum

inductive PacketLayer
  | ethernet | ip | udp | tcp | custom
deriving DecidableEq

inductive ParseResult
  | ok | bad | unknownL3 | unknownL4
deriving DecidableEq

/-- What stops the parser: a read that is not before the end of the packet, a failed assertion, or one of `parse_packet` itself. -/
inductive Fault
  | read (i : ℕ)
  | assertion
  | caller
deriving DecidableEq

/-- The header pointers of a packet, none of them set at first. -/
structure Headers where
  eth : Option ℕ := none
  arp : Option ℕ := none
  ipv4 : Option ℕ := none
  ipv6 : Option ℕ := none
  tcp : Option ℕ := none
  udp : Option ℕ := none
deriving DecidableEq

structure Input where
  buffer : List UInt8
  packetEnd : ℤ

abbrev Parser := StateT Headers (Except Fault)

structure Outcome where
  result : ParseResult
  error : Option String
deriving DecidableEq

namespace Outcome

def ok : Outcome := ⟨.ok, none⟩

def bad (error : String) : Outcome := ⟨.bad, some error⟩

end Outcome

def check (c : Prop) [Decidable c] (fault : Fault) : Except Fault PUnit := if c then .ok ⟨⟩ else .error fault

namespace Input

def load (w : Input) (i : ℕ) : Except Fault ℕ :=
  match w.buffer[i]? with
  | none => .error (.read i)
  | some b => if (i : ℤ) < w.packetEnd then .ok b.toNat else .error (.read i)

def ntohs (w : Input) (i : ℕ) : Except Fault ℕ := do
  let hi ← w.load i
  let lo ← w.load (i + 1)
  return hi * 2 ^ 8 + lo

/-- The `n` bytes from `i` on, one after the other. -/
def loads (w : Input) (i : ℕ) : ℕ → Except Fault (List UInt8)
  | 0 => .ok []
  | n + 1 => do
    let b ← w.load i
    let bs ← w.loads (i + 1) n
    return UInt8.ofNat b :: bs

end Input

/-! ## Layer 4 -/

def parseTcp (w : Input) (layer4Start : ℕ) (layer4Bytes : ℤ) : Parser Outcome := do
  check (0 ≤ layer4Bytes) .assertion
  if layer4Bytes % 2 ^ 64 < 20 then return .bad "Truncated TCP header"
  modify fun packet => { packet with tcp := some layer4Start }
  let tcpHeaderLen : ℕ := (← w.load (layer4Start + 12)) / 2 ^ 4 * 4
  if tcpHeaderLen < 20 then return .bad "TCP data offset too small"
  if tcpHeaderLen > layer4Bytes then return .bad "TCP data offset too big"
  check (layer4Start + layer4Bytes ≤ w.packetEnd) .assertion
  return .ok

def parseUdp (w : Input) (layer4Start : ℕ) (layer4Bytes : ℤ) : Parser Outcome := do
  check (0 ≤ layer4Bytes) .assertion
  if layer4Bytes % 2 ^ 64 < 8 then return .bad "Truncated UDP header"
  modify fun packet => { packet with udp := some layer4Start }
  let udpLen ← w.ntohs (layer4Start + 4)
  if udpLen < 8 then return .bad "UDP datagram length too small for UDP header"
  if udpLen < layer4Bytes then return .bad "UDP datagram length too small"
  if udpLen > layer4Bytes then return .bad "UDP datagram length too big"
  check (layer4Start + layer4Bytes ≤ w.packetEnd) .assertion
  return .ok

def parseLayer4 (w : Input) (layer4Start layer4Protocol : ℕ) (layer4Bytes : ℤ) : Parser Outcome :=
  if layer4Protocol = 6 then parseTcp w layer4Start layer4Bytes
  else if layer4Protocol = 17 then parseUdp w layer4Start layer4Bytes
  else return ⟨.unknownL4, some s!"Unknown layer4 packet ({layer4Protocol})"⟩

/-! ## Layer 3 -/

def parseIpv4 (w : Input) (p : ℕ) : Parser Outcome := do
  modify fun packet => { packet with ipv4 := some p }
  let ipHeaderBytes : ℕ := (← w.load p) % 2 ^ 4 * 4
  check (0 ≤ ipHeaderBytes) .assertion
  if ipHeaderBytes < 20 then return .bad "IP header too short"
  if p + ipHeaderBytes > w.packetEnd then return .bad "Full IP header overflows packet"
  let ipTotalBytes ← w.ntohs (p + 2)
  if p + ipTotalBytes > w.packetEnd then return .bad "IP payload overflows packet"
  if ipHeaderBytes > ipTotalBytes then return .bad "IP header bigger than datagram"
  let fragOff ← w.ntohs (p + 6)
  if fragOff &&& 0x2000 ≠ 0 then return .bad "More fragments remaining"
  if fragOff &&& 0x1fff ≠ 0 then return .bad "Non-zero fragment offset"
  let header ← w.loads p ipHeaderBytes
  if inCksumv [header] ≠ 0 then return .bad "Bad IP checksum"
  check (p + ipHeaderBytes ≤ w.packetEnd) .assertion
  let layer4Protocol ← w.load (p + 9)
  parseLayer4 w (p + ipHeaderBytes) layer4Protocol (ipTotalBytes - ipHeaderBytes)

def parseIpv6 (w : Input) (p : ℕ) : Parser Outcome := do
  modify fun packet => { packet with ipv6 := some p }
  if p + 40 > w.packetEnd then return .bad "IPv6 header overflows packet"
  let ipTotalBytes : ℕ := 40 + (← w.ntohs (p + 4))
  if p + ipTotalBytes > w.packetEnd then return .bad "IPv6 payload overflows packet"
  check (40 ≤ ipTotalBytes) .assertion
  check (p + 40 ≤ w.packetEnd) .assertion
  let layer4Protocol ← w.load (p + 6)
  parseLayer4 w (p + 40) layer4Protocol (ipTotalBytes - 40)

def parseArp (w : Input) (p : ℕ) : Parser Outcome := do
  if p + 28 > w.packetEnd then return .bad "ARP header overflows packet"
  let hrd ← w.ntohs p
  let pro ← w.ntohs (p + 2)
  let hln ← w.load (p + 4)
  let pln ← w.load (p + 5)
  if hrd ≠ 1 ∨ pro ≠ 0x0800 ∨ hln ≠ 6 ∨ pln ≠ 4 then return .bad "ARP not for ethernet and ipv4"
  let op ← w.ntohs (p + 6)
  if op ≠ 1 ∧ op ≠ 2 then return .bad s!"ARP opcode unknown ({op})"
  modify fun packet => { packet with arp := some p }
  return .ok

def etherType2str (type : ℕ) : String :=
  if type = 0x0800 then "IPv4"
  else if type = 0x86dd then "IPv6"
  else if type = 0x0806 then "ARP"
  else if type = 0x8100 then "802.1Q VLAN"
  else "UNKNOWN"

def parseLayer3PacketByProto (w : Input) (proto p : ℕ) : Parser Outcome := do
  if proto = 0x0800 then
    if p + 20 > w.packetEnd then return .bad "IPv4 header overflows packet"
    let version : ℕ := (← w.load p) / 2 ^ 4
    if version = 4 then parseIpv4 w p
    else return .bad s!"Bad IP version ({version}) for ETHERTYPE_IP"
  else if proto = 0x86dd then
    if p + 40 > w.packetEnd then return .bad "IPv6 header overflows packet"
    let version : ℕ := (← w.load p) / 2 ^ 4
    if version = 6 then parseIpv6 w p
    else return .bad "Bad IP version for ETHERTYPE_IPV6"
  else if proto = 0x0806 then parseArp w p
  else return ⟨.unknownL3, some s!"Unsupported Ethernet proto {etherType2str proto}"⟩

def parseLayer3Packet (w : Input) (p : ℕ) : Parser Outcome := do
  if p + 20 > w.packetEnd then return .bad "IP header overflows packet"
  let version : ℕ := (← w.load p) / 2 ^ 4
  if version = 4 then parseIpv4 w p
  else if version = 6 then parseIpv6 w p
  else return .bad "Unsupported IP version"

/-! ## Layer 2 -/

def parseLayer2Packet (w : Input) (p : ℕ) : Parser Outcome := do
  if p + 14 > w.packetEnd then return .bad "Ethernet header overflows packet"
  modify fun packet => { packet with eth := some p }
  let proto ← w.ntohs (p + 12)
  parseLayer3PacketByProto w proto (p + 14)

/-- The number in hexadecimal, with zeros before it up to the width. -/
def hex (width n : ℕ) : String := String.ofList (List.leftpad width '0' (Nat.toDigits 16 n))

/-- The loop of `hex_dump`, over the bytes from `i` on. -/
def hexDumpLoop (w : Input) (s : String) (i : ℕ) : ℕ → Except Fault String
  | 0 => .ok (s ++ "\n")
  | n + 1 => do
    let line := if i > 0 then "\n" else ""
    let offset := if i % 16 = 0 then s!"{line}0x{hex 4 i}: " else ""
    let b ← w.load i
    hexDumpLoop w (s ++ offset ++ s!"{hex 2 b} ") (i + 1) n

def hexDump (w : Input) (bytes : ℤ) : Except Fault String := hexDumpLoop w "" 0 bytes.toNat

def parseByLayer (w : Input) : PacketLayer → Parser Outcome
  | .ethernet => parseLayer2Packet w 0
  | .ip => parseLayer3Packet w 0
  | _ => throw .caller

/-- With `in_bytes` compared to `buffer_bytes` as unsigned numbers. -/
def parsePacket (buffer : List UInt8) (inBytes : ℤ) (layer : PacketLayer) : Parser Outcome := do
  check (inBytes % 2 ^ 32 ≤ buffer.length) .caller
  let w : Input := ⟨buffer, inBytes⟩
  let r ← parseByLayer w layer
  if r.result = .ok then return r
  let dump ← hexDump w inBytes
  let message := r.error.getD ""
  return .bad s!"{message}: packet of {inBytes} bytes:\n{dump}"

/-! ## Frames -/

/-- The pointers set later are over those set before. -/
instance : Mul Headers where
  mul new old := ⟨new.eth.or old.eth, new.arp.or old.arp, new.ipv4.or old.ipv4, new.ipv6.or old.ipv6, new.tcp.or old.tcp,
    new.udp.or old.udp⟩

theorem mul_def (new old : Headers) : new * old = ⟨new.eth.or old.eth, new.arp.or old.arp, new.ipv4.or old.ipv4,
    new.ipv6.or old.ipv6, new.tcp.or old.tcp, new.udp.or old.udp⟩ := rfl

instance : Monoid Headers where
  one := {}
  one_mul _ := rfl
  mul_one a := by
    change (⟨a.eth.or none, a.arp.or none, a.ipv4.or none, a.ipv6.or none, a.tcp.or none, a.udp.or none⟩ : Headers) = a
    simp only [Option.or_none]
  mul_assoc a b c := by simp only [mul_def, Option.or_assoc]

/-- What the transport header of a datagram begins, with the end of the datagram. -/
structure Transport where
  protocol : ℕ
  start : ℕ
  stop : ℕ

namespace Frame
variable (f : List UInt8) (layer : PacketLayer) (p : ℕ)

def byteAt (i : ℕ) : ℕ := (f.getD i 0).toNat

def wordAt (i : ℕ) : ℕ := byteAt f i * 2 ^ 8 + byteAt f (i + 1)

def version : ℕ := byteAt f p / 2 ^ 4

def ihl : ℕ := byteAt f p % 2 ^ 4 * 4

def totalLength : ℕ := wordAt f (p + 2)

def payloadLength : ℕ := wordAt f (p + 4)

def dataOffset : ℕ := byteAt f (p + 12) / 2 ^ 4 * 4

def net : ℕ := if layer = .ethernet then 14 else 0

def IsEthernet : Prop := layer = .ethernet ∧ 14 ≤ f.length

/-- A request or a reply about an Ethernet and an IPv4 address. -/
def ArpWhole : Prop :=
  p + 28 ≤ f.length ∧ wordAt f p = 1 ∧ wordAt f (p + 2) = 0x0800 ∧ byteAt f (p + 4) = 6 ∧ byteAt f (p + 5) = 4 ∧
    (wordAt f (p + 6) = 1 ∨ wordAt f (p + 6) = 2)

def IsArp : Prop := layer = .ethernet ∧ wordAt f 12 = 0x0806 ∧ ArpWhole f 14

def IsIpv4 : Prop := net layer + 20 ≤ f.length ∧ (layer = .ethernet → wordAt f 12 = 0x0800) ∧ version f (net layer) = 4

def IsIpv6 : Prop :=
  net layer + 20 ≤ f.length ∧ (layer = .ethernet → wordAt f 12 = 0x86dd ∧ 54 ≤ f.length) ∧ version f (net layer) = 6

/-- An IPv4 datagram that is no fragment, with its options and its payload. -/
def Ipv4Whole : Prop :=
  20 ≤ ihl f p ∧ ihl f p ≤ totalLength f p ∧ p + totalLength f p ≤ f.length ∧ wordAt f (p + 6) &&& 0x2000 = 0 ∧
    wordAt f (p + 6) &&& 0x1fff = 0 ∧ inCksumv [slice f p (p + ihl f p)] = 0

instance : Decidable (IsEthernet f layer) := inferInstanceAs (Decidable (_ ∧ _))
instance : Decidable (ArpWhole f p) := inferInstanceAs (Decidable (_ ∧ _))
instance : Decidable (IsArp f layer) := inferInstanceAs (Decidable (_ ∧ _))
instance : Decidable (IsIpv4 f layer) := inferInstanceAs (Decidable (_ ∧ _))
instance : Decidable (IsIpv6 f layer) := inferInstanceAs (Decidable (_ ∧ _))
instance : Decidable (Ipv4Whole f p) := inferInstanceAs (Decidable (_ ∧ _))

def ipv4Transport : Option Transport :=
  if Ipv4Whole f p then some ⟨byteAt f (p + 9), p + ihl f p, p + totalLength f p⟩ else none

def ipv6Transport : Option Transport :=
  if p + 40 + payloadLength f p ≤ f.length then some ⟨byteAt f (p + 6), p + 40, p + 40 + payloadLength f p⟩ else none

def transport : Option Transport :=
  if IsIpv4 f layer then ipv4Transport f (net layer)
  else if IsIpv6 f layer then ipv6Transport f (net layer)
  else none

end Frame

open Sniffer.Frame

namespace Transport

def IsTcp (t : Transport) : Prop := t.protocol = 6 ∧ t.start + 20 ≤ t.stop

def IsUdp (t : Transport) : Prop := t.protocol = 17 ∧ t.start + 8 ≤ t.stop

instance (t : Transport) : Decidable t.IsTcp := inferInstanceAs (Decidable (_ ∧ _))
instance (t : Transport) : Decidable t.IsUdp := inferInstanceAs (Decidable (_ ∧ _))

def headers (t : Transport) : Headers :=
  { tcp := if t.IsTcp then some t.start else none, udp := if t.IsUdp then some t.start else none }

/-- The TCP header with its options is in the datagram, or the UDP datagram ends with it. -/
def Whole (f : List UInt8) (t : Transport) : Prop :=
  (t.IsTcp ∧ 20 ≤ dataOffset f t.start ∧ t.start + dataOffset f t.start ≤ t.stop) ∨
    (t.IsUdp ∧ t.start + wordAt f (t.start + 4) = t.stop)

end Transport

def carried (o : Option Transport) : Headers := (o.map Transport.headers).getD 1

def Frame.headers (f : List UInt8) (layer : PacketLayer) : Headers :=
  carried (transport f layer) *
    { eth := if IsEthernet f layer then some 0 else none
      arp := if IsArp f layer then some 14 else none
      ipv4 := if IsIpv4 f layer then some (net layer) else none
      ipv6 := if IsIpv6 f layer then some (net layer) else none }

/-! ## Reading -/

theorem byteAt_eq {f : List UInt8} {i : ℕ} (h : i < f.length) : byteAt f i = f[i].toNat := by
  rw [byteAt, List.getD_eq_getElem?_getD, List.getElem?_eq_getElem h, Option.getD_some]

namespace Input

def frame (w : Input) : List UInt8 := w.buffer.take w.packetEnd.toNat

/-- The packet is in the buffer. -/
def Bounded (w : Input) : Prop := w.packetEnd = w.frame.length

variable {w : Input} {i n : ℕ}

theorem bounded_of (h : w.packetEnd ≤ w.buffer.length) (hpos : 0 ≤ w.packetEnd) : w.Bounded := by
  rw [Bounded, frame, List.length_take]
  omega

theorem Bounded.load (h : w.Bounded) (hi : i < w.frame.length) : w.load i = .ok (byteAt w.frame i) := by
  have hbuffer : w.buffer[i]? = w.frame[i]? := by
    rw [frame, List.getElem?_take_of_lt]
    rw [Bounded] at h
    omega
  have hlt : (i : ℤ) < w.packetEnd := by
    rw [h]
    omega
  rw [Input.load, hbuffer, List.getElem?_eq_getElem hi, byteAt_eq hi]
  exact if_pos hlt

theorem Bounded.ntohs (h : w.Bounded) (hi : i + 1 < w.frame.length) : w.ntohs i = .ok (wordAt w.frame i) := by
  rw [Input.ntohs, h.load (by omega), h.load hi]
  rfl

theorem Bounded.loads (h : w.Bounded) (hi : i + n ≤ w.frame.length) : w.loads i n = .ok (slice w.frame i (i + n)) := by
  induction n generalizing i with
  | zero => rw [Nat.add_zero, slice_self, Input.loads]
  | succ n ih =>
    have hcons : slice w.frame i (i + (n + 1)) = w.frame[i] :: slice w.frame (i + 1) (i + (n + 1)) := by
      rw [slice, List.drop_eq_getElem_cons (by rw [List.length_take]; omega), List.getElem_take]
      rfl
    have hget : UInt8.ofNat (byteAt w.frame i) = w.frame[i] := by
      rw [byteAt_eq, UInt8.ofNat_toNat]
    rw [Input.loads, h.load (by omega), ih (by omega), hcons, ← hget, Nat.add_right_comm, ← Nat.add_assoc]
    rfl

end Input

theorem byteAt_lt (f : List UInt8) (i : ℕ) : byteAt f i < 2 ^ 8 := (f.getD i 0).toNat_lt

theorem wordAt_lt (f : List UInt8) (i : ℕ) : wordAt f i < 2 ^ 16 := by
  have hhi := byteAt_lt f i
  have hlo := byteAt_lt f (i + 1)
  unfold wordAt
  omega

theorem check_eq {c : Prop} [Decidable c] (h : c) (fault : Fault) : check c fault = .ok ⟨⟩ := if_pos h

variable {w : Input} {p n : ℕ}

/-! ## What the parsers set -/

theorem parseTcp_spec (h : w.Bounded) (hn : n < 2 ^ 16) (hfits : p + n ≤ w.frame.length) :
    Writes (parseTcp w p n) fun r new => new = { tcp := if 20 ≤ n then some p else none } ∧
      (r.result = .ok ↔ 20 ≤ n ∧ 20 ≤ dataOffset w.frame p ∧ dataOffset w.frame p ≤ n) := by
  unfold parseTcp
  refine Writes.bind_lift (check_eq (Int.natCast_nonneg n) _) (Writes.of_ite (fun hshort => ?_) fun hlong => ?_)
  · refine Writes.of_pure ⟨?_, iff_of_false (nomatch ·) (by omega)⟩
    rw [if_neg (by omega)]
    rfl
  · have hlen : 20 ≤ n := by omega
    refine Writes.bind_modify (w := { tcp := some p }) (fun _ => rfl) ?_
    refine Writes.bind_lift (h.load (by omega)) ?_
    have hoffset : byteAt w.frame (p + 12) / 2 ^ 4 * 4 = dataOffset w.frame p := rfl
    rw [if_pos hlen, hoffset]
    refine Writes.of_ite (fun hmin => ?_) fun hmin => Writes.of_ite (fun hmax => ?_) fun hmax => ?_
    · exact Writes.of_pure ⟨rfl, iff_of_false (nomatch ·) (by omega)⟩
    · exact Writes.of_pure ⟨rfl, iff_of_false (nomatch ·) (by omega)⟩
    · refine Writes.bind_lift (check_eq ?_ _) (Writes.of_pure ⟨rfl, iff_of_true rfl (by omega)⟩)
      rw [h]
      omega

theorem parseUdp_spec (h : w.Bounded) (hn : n < 2 ^ 16) (hfits : p + n ≤ w.frame.length) :
    Writes (parseUdp w p n) fun r new => new = { udp := if 8 ≤ n then some p else none } ∧
      (r.result = .ok ↔ 8 ≤ n ∧ wordAt w.frame (p + 4) = n) := by
  unfold parseUdp
  refine Writes.bind_lift (check_eq (Int.natCast_nonneg n) _) (Writes.of_ite (fun hshort => ?_) fun hlong => ?_)
  · refine Writes.of_pure ⟨?_, iff_of_false (nomatch ·) (by omega)⟩
    rw [if_neg (by omega)]
    rfl
  · have hlen : 8 ≤ n := by omega
    refine Writes.bind_modify (w := { udp := some p }) (fun _ => rfl) ?_
    refine Writes.bind_lift (h.ntohs (by omega)) ?_
    rw [if_pos hlen]
    refine Writes.of_ite (fun _ => ?_) fun _ => Writes.of_ite (fun _ => ?_) fun _ => Writes.of_ite (fun _ => ?_) fun _ => ?_
    · exact Writes.of_pure ⟨rfl, iff_of_false (nomatch ·) (by omega)⟩
    · exact Writes.of_pure ⟨rfl, iff_of_false (nomatch ·) (by omega)⟩
    · exact Writes.of_pure ⟨rfl, iff_of_false (nomatch ·) (by omega)⟩
    · refine Writes.bind_lift (check_eq ?_ _) (Writes.of_pure ⟨rfl, iff_of_true rfl (by omega)⟩)
      rw [h]
      omega

theorem parseLayer4_spec (h : w.Bounded) (protocol : ℕ) (hn : n < 2 ^ 16) (hfits : p + n ≤ w.frame.length) :
    Writes (parseLayer4 w p protocol n) fun r new => new = Transport.headers ⟨protocol, p, p + n⟩ ∧
      (r.result = .ok ↔ Transport.Whole w.frame ⟨protocol, p, p + n⟩) := by
  simp only [Transport.headers, Transport.Whole, Transport.IsTcp, Transport.IsUdp, Nat.add_le_add_iff_left, Nat.add_left_cancel_iff]
  unfold parseLayer4
  refine Writes.of_ite (fun htcp => ?_) fun hne => Writes.of_ite (fun hudp => ?_) fun hother => ?_
  · refine (parseTcp_spec h hn hfits).mono fun r new ⟨hnew, hok⟩ => ⟨?_, ?_⟩
    · simp [hnew, htcp]
    · simp [hok, htcp]
  · refine (parseUdp_spec h hn hfits).mono fun r new ⟨hnew, hok⟩ => ⟨?_, ?_⟩
    · simp [hnew, hudp]
    · simp [hok, hudp]
  · refine Writes.of_pure ⟨?_, iff_of_false (nomatch ·) fun hwhole => ?_⟩
    · rw [if_neg fun htcp => hne htcp.1, if_neg fun hudp => hother hudp.1]
      rfl
    · exact hwhole.elim (fun htcp => hne htcp.1.1) fun hudp => hother hudp.1.1

theorem parseIpv4_spec (h : w.Bounded) (hp : p + 20 ≤ w.frame.length) :
    Writes (parseIpv4 w p) fun r new => new = carried (ipv4Transport w.frame p) * { ipv4 := some p } ∧
      (r.result = .ok ↔ ∃ t ∈ ipv4Transport w.frame p, t.Whole w.frame) := by
  have hbroken (hnot : ¬Ipv4Whole w.frame p) (error : String) : Writes (pure (.bad error) : Parser Outcome) fun r new =>
      new * { ipv4 := some p } = carried (ipv4Transport w.frame p) * { ipv4 := some p } ∧
        (r.result = .ok ↔ ∃ t ∈ ipv4Transport w.frame p, t.Whole w.frame) := by
    rw [ipv4Transport, if_neg hnot]
    exact Writes.of_pure ⟨rfl, iff_of_false (nomatch ·) fun ⟨_, ht, _⟩ => nomatch ht⟩
  unfold parseIpv4
  refine Writes.bind_modify (w := { ipv4 := some p }) (fun _ => rfl) ?_
  refine Writes.bind_lift (h.load (by omega)) (Writes.bind_lift (check_eq (Nat.zero_le _) _) ?_)
  refine Writes.of_ite (fun hshort => hbroken (fun hwhole => ?_) _) fun hheader => ?_
  · exact Nat.not_lt.mpr hwhole.1 hshort
  have hihl : byteAt w.frame p % 2 ^ 4 * 4 = ihl w.frame p := rfl
  rw [hihl] at hheader ⊢
  have hend := h
  rw [Input.Bounded] at hend
  refine Writes.of_ite (fun hover => hbroken (fun ⟨_, hle, hfits, _⟩ => ?_) _) fun hin => ?_
  · omega
  refine Writes.bind_lift (h.ntohs (by omega)) ?_
  have htotal : wordAt w.frame (p + 2) = totalLength w.frame p := rfl
  rw [htotal]
  refine Writes.of_ite (fun hover => hbroken (fun ⟨_, _, hfits, _⟩ => ?_) _) fun hfits => ?_
  · omega
  refine Writes.of_ite (fun hbig => hbroken (fun ⟨_, hle, _⟩ => ?_) _) fun hle => ?_
  · exact Nat.not_lt.mpr hle hbig
  refine Writes.bind_lift (h.ntohs (by omega)) ?_
  refine Writes.of_ite (fun hmore => hbroken (fun ⟨_, _, _, hlast, _⟩ => hmore hlast) _) fun hlast => ?_
  refine Writes.of_ite (fun hlater => hbroken (fun ⟨_, _, _, _, hfirst, _⟩ => hlater hfirst) _) fun hfirst => ?_
  refine Writes.bind_lift (h.loads (by omega)) ?_
  refine Writes.of_ite (fun hbad => hbroken (fun ⟨_, _, _, _, _, hsum⟩ => hbad hsum) _) fun hsum => ?_
  refine Writes.bind_lift (check_eq (by omega) _) (Writes.bind_lift (h.load (by omega)) ?_)
  have hwhole : Ipv4Whole w.frame p :=
    ⟨by omega, by omega, by omega, not_not.mp hlast, not_not.mp hfirst, not_not.mp hsum⟩
  have hlt := wordAt_lt w.frame (p + 2)
  rw [htotal] at hlt
  rw [ipv4Transport, if_pos hwhole, ← Int.ofNat_sub (by omega)]
  refine (parseLayer4_spec h _ (by omega) (by omega)).mono fun r new ⟨hnew, hok⟩ => ?_
  have hstop : p + ihl w.frame p + (totalLength w.frame p - ihl w.frame p) = p + totalLength w.frame p := by omega
  rw [hstop] at hnew hok
  exact ⟨congrArg (· * _) hnew, hok.trans (by simp)⟩

theorem parseIpv6_spec (h : w.Bounded) :
    Writes (parseIpv6 w p) fun r new => new = carried (ipv6Transport w.frame p) * { ipv6 := some p } ∧
      (r.result = .ok ↔ ∃ t ∈ ipv6Transport w.frame p, t.Whole w.frame) := by
  have hbroken (hnot : ¬p + 40 + payloadLength w.frame p ≤ w.frame.length) (error : String) :
      Writes (pure (.bad error) : Parser Outcome) fun r new =>
        new * { ipv6 := some p } = carried (ipv6Transport w.frame p) * { ipv6 := some p } ∧
          (r.result = .ok ↔ ∃ t ∈ ipv6Transport w.frame p, t.Whole w.frame) := by
    rw [ipv6Transport, if_neg hnot]
    exact Writes.of_pure ⟨rfl, iff_of_false (nomatch ·) fun ⟨_, ht, _⟩ => nomatch ht⟩
  unfold parseIpv6
  have hend := h
  rw [Input.Bounded] at hend
  refine Writes.bind_modify (w := { ipv6 := some p }) (fun _ => rfl) ?_
  refine Writes.of_ite (fun hover => hbroken (by omega) _) fun hin => ?_
  refine Writes.bind_lift (h.ntohs (by omega)) ?_
  have hpayload : wordAt w.frame (p + 4) = payloadLength w.frame p := rfl
  rw [hpayload]
  refine Writes.of_ite (fun hover => hbroken (by omega) _) fun hfits => ?_
  refine Writes.bind_lift (check_eq (Nat.le_add_right _ _) _) (Writes.bind_lift (check_eq (by omega) _) ?_)
  refine Writes.bind_lift (h.load (by omega)) ?_
  have hlt := wordAt_lt w.frame (p + 4)
  rw [hpayload] at hlt
  have hlen : ((40 + payloadLength w.frame p : ℕ) : ℤ) - 40 = (payloadLength w.frame p : ℕ) := by omega
  rw [hlen, ipv6Transport, if_pos (by omega)]
  refine (parseLayer4_spec h _ hlt (by omega)).mono fun r new ⟨hnew, hok⟩ => ?_
  exact ⟨congrArg (· * _) hnew, hok.trans (by simp)⟩

theorem parseArp_spec (h : w.Bounded) :
    Writes (parseArp w p) fun r new => new = { arp := if ArpWhole w.frame p then some p else none } ∧
      (r.result = .ok ↔ ArpWhole w.frame p) := by
  have hbroken (hnot : ¬ArpWhole w.frame p) (error : String) : Writes (pure (.bad error) : Parser Outcome) fun r new =>
      new = { arp := if ArpWhole w.frame p then some p else none } ∧ (r.result = .ok ↔ ArpWhole w.frame p) := by
    rw [if_neg hnot]
    exact Writes.of_pure ⟨rfl, iff_of_false (nomatch ·) hnot⟩
  unfold parseArp
  have hend := h
  rw [Input.Bounded] at hend
  refine Writes.of_ite (fun hover => hbroken (fun ⟨hfits, _⟩ => ?_) _) fun hin => ?_
  · omega
  refine Writes.bind_lift (h.ntohs (by omega)) (Writes.bind_lift (h.ntohs (by omega)) ?_)
  refine Writes.bind_lift (h.load (by omega)) (Writes.bind_lift (h.load (by omega)) ?_)
  refine Writes.of_ite (fun hother => hbroken (fun ⟨_, hhrd, hpro, hhln, hpln, _⟩ => ?_) _) fun hether => ?_
  · obtain hne | hne | hne | hne := hother
    · exact hne hhrd
    · exact hne hpro
    · exact hne hhln
    · exact hne hpln
  refine Writes.bind_lift (h.ntohs (by omega)) ?_
  refine Writes.of_ite (fun hop => hbroken (fun ⟨_, _, _, _, _, hknown⟩ => ?_) _) fun hop => ?_
  · exact hknown.elim hop.1 hop.2
  have hwhole : ArpWhole w.frame p := by
    simp only [ne_eq, not_or, not_not] at hether
    exact ⟨by omega, hether.1, hether.2.1, hether.2.2.1, hether.2.2.2, by omega⟩
  rw [if_pos hwhole]
  exact Writes.bind_modify (w := { arp := some p }) (fun _ => rfl) (Writes.of_pure ⟨rfl, iff_of_true rfl hwhole⟩)

section headers
variable {f : List UInt8} {layer : PacketLayer}

theorem Frame.IsIpv4.not_arp (h : IsIpv4 f layer) : ¬IsArp f layer := fun harp => by
  have htype := harp.2.1
  rw [h.2.1 harp.1] at htype
  omega

theorem Frame.IsIpv6.not_arp (h : IsIpv6 f layer) : ¬IsArp f layer := fun harp => by
  have htype := harp.2.1
  rw [(h.2.1 harp.1).1] at htype
  omega

theorem Frame.IsIpv6.not_ipv4 (h : IsIpv6 f layer) : ¬IsIpv4 f layer := fun hip => by
  have hversion := hip.2.2
  rw [h.2.2] at hversion
  omega

theorem headers_ipv4 (h : IsIpv4 f layer) : Frame.headers f layer =
    carried (ipv4Transport f (net layer)) * { ipv4 := some (net layer) } * { eth := if IsEthernet f layer then some 0 else none } := by
  rw [Frame.headers, transport, if_pos h, if_pos h, if_neg h.not_arp, if_neg fun hip => IsIpv6.not_ipv4 hip h, mul_assoc]
  rfl

theorem headers_ipv6 (h : IsIpv6 f layer) : Frame.headers f layer =
    carried (ipv6Transport f (net layer)) * { ipv6 := some (net layer) } * { eth := if IsEthernet f layer then some 0 else none } := by
  rw [Frame.headers, transport, if_neg h.not_ipv4, if_neg h.not_ipv4, if_pos h, if_pos h, if_neg h.not_arp, mul_assoc]
  rfl

theorem headers_arp (h : IsArp f layer) :
    Frame.headers f layer = { arp := some 14 } * { eth := if IsEthernet f layer then some 0 else none } := by
  have hip : ¬IsIpv4 f layer := fun hip => hip.not_arp h
  have hip6 : ¬IsIpv6 f layer := fun hip => hip.not_arp h
  rw [Frame.headers, transport, if_neg hip, if_neg hip6, if_neg hip, if_neg hip6, if_pos h]
  rfl

theorem headers_none (hip : ¬IsIpv4 f layer) (hip6 : ¬IsIpv6 f layer) (harp : ¬IsArp f layer) :
    Frame.headers f layer = { eth := if IsEthernet f layer then some 0 else none } := by
  rw [Frame.headers, transport, if_neg hip, if_neg hip6, if_neg hip, if_neg hip6, if_neg harp]
  rfl

end headers

def Frame.Accepted (f : List UInt8) (layer : PacketLayer) : Prop := IsArp f layer ∨ ∃ t ∈ transport f layer, t.Whole f

/-- What a parser of the network header is to do: to set the headers of the frame but for the Ethernet header, and to accept it when it is
whole. -/
def Parses (f : List UInt8) (layer : PacketLayer) (x : Parser Outcome) : Prop :=
  Writes x fun r new =>
    new * { eth := if IsEthernet f layer then some 0 else none } = Frame.headers f layer ∧ (r.result = .ok ↔ Accepted f layer)

theorem parses_none {f : List UInt8} {layer : PacketLayer} {r : Outcome} (hip : ¬IsIpv4 f layer) (hip6 : ¬IsIpv6 f layer)
    (harp : ¬IsArp f layer) (hr : r.result ≠ .ok) : Parses f layer (pure r) := by
  rw [Parses, headers_none hip hip6 harp]
  refine Writes.of_pure ⟨rfl, iff_of_false hr fun haccepted => ?_⟩
  obtain h | ⟨t, ht, -⟩ := haccepted
  · exact harp h
  · rw [transport, if_neg hip, if_neg hip6] at ht
    cases ht

theorem parseIpv4_parses (h : w.Bounded) (layer : PacketLayer) (hip : IsIpv4 w.frame layer) :
    Parses w.frame layer (parseIpv4 w (net layer)) := by
  rw [Parses, headers_ipv4 hip]
  refine (parseIpv4_spec h hip.1).mono fun r new ⟨hnew, hok⟩ => ⟨congrArg (· * _) hnew, hok.trans ?_⟩
  rw [Accepted, transport, if_pos hip, or_iff_right hip.not_arp]

theorem parseIpv6_parses (h : w.Bounded) (layer : PacketLayer) (hip : IsIpv6 w.frame layer) :
    Parses w.frame layer (parseIpv6 w (net layer)) := by
  rw [Parses, headers_ipv6 hip]
  refine (parseIpv6_spec h).mono fun r new ⟨hnew, hok⟩ => ⟨congrArg (· * _) hnew, hok.trans ?_⟩
  rw [Accepted, transport, if_neg hip.not_ipv4, if_pos hip, or_iff_right hip.not_arp]

theorem bad_ne_ok (error : String) : (Outcome.bad error).result ≠ .ok := ParseResult.noConfusion

theorem parseLayer3PacketByProto_spec (h : w.Bounded) :
    Parses w.frame .ethernet (parseLayer3PacketByProto w (wordAt w.frame 12) 14) := by
  have hnet : net .ethernet = 14 := rfl
  have hend := h
  rw [Input.Bounded] at hend
  have hip4 (hip : IsIpv4 w.frame .ethernet) := hip.2.1 rfl
  have hip6 (hip : IsIpv6 w.frame .ethernet) := (hip.2.1 rfl).1
  unfold parseLayer3PacketByProto
  refine Writes.of_ite (fun htype => ?_) fun hne4 => Writes.of_ite (fun htype => ?_) fun hne6 => Writes.of_ite (fun htype => ?_) fun hnea => ?_
  · have hnot6 : ¬IsIpv6 w.frame .ethernet := fun hip => by
      have := hip6 hip
      omega
    have hnota : ¬IsArp w.frame .ethernet := fun harp => by
      have := harp.2.1
      omega
    refine Writes.of_ite (fun hover => parses_none (fun hip => ?_) hnot6 hnota (bad_ne_ok _)) fun hin => ?_
    · have := hip.1
      omega
    refine Writes.bind_lift (h.load (by omega)) (Writes.of_ite (fun hversion => ?_) fun hversion => ?_)
    · exact parseIpv4_parses h .ethernet ⟨by omega, fun _ => htype, hversion⟩
    · exact parses_none (fun hip => hversion hip.2.2) hnot6 hnota (bad_ne_ok _)
  · have hnot4 : ¬IsIpv4 w.frame .ethernet := fun hip => hne4 (hip4 hip)
    have hnota : ¬IsArp w.frame .ethernet := fun harp => by
      have := harp.2.1
      omega
    refine Writes.of_ite (fun hover => parses_none hnot4 (fun hip => ?_) hnota (bad_ne_ok _)) fun hin => ?_
    · have := (hip.2.1 rfl).2
      omega
    refine Writes.bind_lift (h.load (by omega)) (Writes.of_ite (fun hversion => ?_) fun hversion => ?_)
    · exact parseIpv6_parses h .ethernet ⟨by omega, fun _ => ⟨htype, by omega⟩, hversion⟩
    · exact parses_none hnot4 (fun hip => hversion hip.2.2) hnota (bad_ne_ok _)
  · have hnot4 : ¬IsIpv4 w.frame .ethernet := fun hip => hne4 (hip4 hip)
    have hnot6 : ¬IsIpv6 w.frame .ethernet := fun hip => hne6 (hip6 hip)
    have harp : IsArp w.frame .ethernet ↔ ArpWhole w.frame 14 := ⟨fun harp => harp.2.2, fun harp => ⟨rfl, htype, harp⟩⟩
    have htransport : ¬∃ t ∈ transport w.frame .ethernet, t.Whole w.frame := fun ⟨t, ht, _⟩ => by
      rw [transport, if_neg hnot4, if_neg hnot6] at ht
      cases ht
    refine (parseArp_spec h).mono fun r new ⟨hnew, hok⟩ => ⟨?_, hok.trans ?_⟩
    · by_cases hwhole : ArpWhole w.frame 14
      · rw [headers_arp (harp.mpr hwhole), hnew, if_pos hwhole]
      · rw [headers_none hnot4 hnot6 (mt harp.mp hwhole), hnew, if_neg hwhole]
        rfl
    · rw [Accepted, harp, or_iff_left htransport]
  · exact parses_none (fun hip => hne4 (hip4 hip)) (fun hip => hne6 (hip6 hip)) (fun harp => hnea harp.2.1) ParseResult.noConfusion

theorem parseLayer2Packet_spec (h : w.Bounded) :
    Writes (parseLayer2Packet w 0) fun r new => new = Frame.headers w.frame .ethernet ∧ (r.result = .ok ↔ Accepted w.frame .ethernet) := by
  have hend := h
  rw [Input.Bounded] at hend
  unfold parseLayer2Packet
  refine Writes.of_ite (fun hover => ?_) fun hin => ?_
  · have hnone : ∀ n, 14 ≤ n → ¬n ≤ w.frame.length := by omega
    have heth : ¬IsEthernet w.frame .ethernet := fun heth => hnone 14 (Nat.le_refl 14) heth.2
    have hip : ¬IsIpv4 w.frame .ethernet := fun hip => hnone _ (Nat.le_add_right 14 20) hip.1
    have hip6 : ¬IsIpv6 w.frame .ethernet := fun hip => hnone _ (Nat.le_add_right 14 20) hip.1
    have harp : ¬IsArp w.frame .ethernet := fun harp => hnone _ (Nat.le_add_right 14 28) harp.2.2.1
    have hparses := parses_none hip hip6 harp (bad_ne_ok "Ethernet header overflows packet")
    rw [Parses, if_neg heth] at hparses
    exact hparses.mono fun r new ⟨hnew, hok⟩ => ⟨(mul_one new).symm.trans hnew, hok⟩
  · refine Writes.bind_modify (w := { eth := some 0 }) (fun _ => rfl) (Writes.bind_lift (h.ntohs (by omega)) ?_)
    have heth : IsEthernet w.frame .ethernet := ⟨rfl, by omega⟩
    have hparses := parseLayer3PacketByProto_spec h
    rw [Parses, if_pos heth] at hparses
    exact hparses

theorem parseLayer3Packet_spec (h : w.Bounded) :
    Writes (parseLayer3Packet w 0) fun r new => new = Frame.headers w.frame .ip ∧ (r.result = .ok ↔ Accepted w.frame .ip) := by
  have hnet : net .ip = 0 := rfl
  have hend := h
  rw [Input.Bounded] at hend
  have heth : ¬IsEthernet w.frame .ip := fun heth => nomatch heth.1
  have harp : ¬IsArp w.frame .ip := fun harp => nomatch harp.1
  suffices hparses : Parses w.frame .ip (parseLayer3Packet w 0) by
    rw [Parses, if_neg heth] at hparses
    exact hparses.mono fun r new ⟨hnew, hok⟩ => ⟨(mul_one new).symm.trans hnew, hok⟩
  unfold parseLayer3Packet
  refine Writes.of_ite (fun hover => parses_none (fun hip => ?_) (fun hip => ?_) harp (bad_ne_ok _)) fun hin => ?_
  · have := hip.1
    omega
  · have := hip.1
    omega
  refine Writes.bind_lift (h.load (by omega)) (Writes.of_ite (fun hversion => ?_) fun hne4 => Writes.of_ite (fun hversion => ?_) fun hne6 => ?_)
  · exact parseIpv4_parses h .ip ⟨by omega, (nomatch ·), hversion⟩
  · exact parseIpv6_parses h .ip ⟨by omega, (nomatch ·), hversion⟩
  · exact parses_none (fun hip => hne4 hip.2.2) (fun hip => hne6 hip.2.2) harp (bad_ne_ok _)

theorem hexDumpLoop_isOk (h : w.Bounded) {i : ℕ} (s : String) (hi : i + n ≤ w.frame.length) :
    ∃ s', hexDumpLoop w s i n = .ok s' := by
  induction n generalizing i s with
  | zero => exact ⟨_, rfl⟩
  | succ n ih =>
    rw [hexDumpLoop, h.load (by omega)]
    exact ih _ (by omega)

/-- What parsing a packet that is in the buffer sets, and whether it accepts it. -/
theorem parsePacket_spec {buffer : List UInt8} {inBytes : ℤ} (hpos : 0 ≤ inBytes) (hle : inBytes ≤ buffer.length) {layer : PacketLayer}
    (hlayer : layer = .ethernet ∨ layer = .ip) :
    Writes (parsePacket buffer inBytes layer) fun r new => new = Frame.headers (buffer.take inBytes.toNat) layer ∧
      (r.result = .ok ↔ Accepted (buffer.take inBytes.toNat) layer) ∧ (r.result = .ok ∨ r.result = .bad) := by
  have h : Input.Bounded ⟨buffer, inBytes⟩ := Input.bounded_of hle hpos
  have hparse : Writes (parseByLayer ⟨buffer, inBytes⟩ layer) fun r new => new = Frame.headers (buffer.take inBytes.toNat) layer ∧
      (r.result = .ok ↔ Accepted (buffer.take inBytes.toNat) layer) := by
    obtain rfl | rfl := hlayer
    · exact parseLayer2Packet_spec h
    · exact parseLayer3Packet_spec h
  unfold parsePacket
  refine Writes.bind_lift (check_eq (by omega) _) (hparse.bind fun r new ⟨hnew, hok⟩ => ?_)
  refine Writes.of_ite (fun hr => Writes.of_pure ⟨?_, hok, .inl hr⟩) fun hr => ?_
  · rw [one_mul, hnew]
  · have hlen : inBytes = _ := h
    obtain ⟨s, hs⟩ := hexDumpLoop_isOk h (i := 0) (n := inBytes.toNat) "" (by omega)
    refine Writes.bind_lift hs (Writes.of_pure ⟨?_, iff_of_false (nomatch ·) (mt hok.mpr hr), .inr rfl⟩)
    rw [one_mul, hnew]

/-! ## The headers of an accepted frame -/

/-- The IP header with its options, of `len` bytes, and the datagram of `total` bytes. -/
def IpHeader (f : List UInt8) (h : Headers) (p len total : ℕ) : Prop :=
  (h.ipv4 = some p ∧ h.ipv6 = none ∧ len = ihl f p ∧ 20 ≤ len ∧ total = totalLength f p) ∨
    (h.ipv6 = some p ∧ h.ipv4 = none ∧ len = 40 ∧ total = 40 + payloadLength f p)

/-- The TCP header with its options, or the UDP header, of `len` bytes. -/
def TransportHeader (f : List UInt8) (h : Headers) (p len : ℕ) : Prop :=
  (h.tcp = some p ∧ h.udp = none ∧ len = dataOffset f p ∧ 20 ≤ len) ∨ (h.udp = some p ∧ h.tcp = none ∧ len = 8)

/-- The headers lie in the frame one after the other: the Ethernet header on layer 2, then an ARP header, or a datagram with its
header and in it a transport header. -/
def Nested (f : List UInt8) (layer : PacketLayer) (h : Headers) : Prop :=
  h.eth = (if layer = .ethernet then some 0 else none) ∧
    ((layer = .ethernet ∧ h.arp = some (net layer) ∧ h.ipv4 = none ∧ h.ipv6 = none ∧ h.tcp = none ∧ h.udp = none ∧
        net layer + 28 ≤ f.length) ∨
      (h.arp = none ∧ ∃ len total len', IpHeader f h (net layer) len total ∧ TransportHeader f h (net layer + len) len' ∧
        len + len' ≤ total ∧ net layer + total ≤ f.length))

section nested
variable {f : List UInt8} {layer : PacketLayer} {t : Transport}

theorem net_le_length (h : Accepted f layer) : net layer ≤ f.length := by
  obtain harp | ⟨t, ht, -⟩ := h
  · obtain ⟨rfl, -, hfits, -⟩ := harp
    exact Nat.le_trans (Nat.le_add_right 14 28) hfits
  · rw [transport] at ht
    split_ifs at ht with hip hip6
    · exact Nat.le_trans (Nat.le_add_right _ _) hip.1
    · exact Nat.le_trans (Nat.le_add_right _ _) hip6.1
    · cases ht

theorem eth_of_accepted (h : Accepted f layer) :
    (if IsEthernet f layer then some 0 else none) = if layer = .ethernet then some 0 else none := by
  refine if_congr (and_iff_left_of_imp fun hlayer => ?_) rfl rfl
  subst hlayer
  exact net_le_length h

theorem transportHeader_of_whole (ht : t.Whole f) (h : Headers) (htcp : h.tcp = t.headers.tcp) (hudp : h.udp = t.headers.udp) :
    ∃ len, TransportHeader f h t.start len ∧ t.start + len ≤ t.stop := by
  obtain ⟨his, hmin, hfits⟩ | ⟨his, -⟩ := ht
  · have hnot : ¬t.IsUdp := fun hu => absurd (his.1.symm.trans hu.1) (by decide)
    refine ⟨_, .inl ⟨htcp.trans (if_pos his), hudp.trans (if_neg hnot), rfl, hmin⟩, hfits⟩
  · have hnot : ¬t.IsTcp := fun hc => absurd (his.1.symm.trans hc.1) (by decide)
    exact ⟨8, .inr ⟨hudp.trans (if_pos his), htcp.trans (if_neg hnot), rfl⟩, his.2⟩

theorem nested_of_accepted (h : Accepted f layer) : Nested f layer (Frame.headers f layer) := by
  have heth := eth_of_accepted h
  obtain harp | ⟨t, ht, hwhole⟩ := h
  · rw [headers_arp harp]
    obtain ⟨rfl, -, hfits, -⟩ := harp
    exact ⟨heth, .inl ⟨rfl, rfl, rfl, rfl, rfl, rfl, hfits⟩⟩
  · rw [transport] at ht
    split_ifs at ht with hip hip6
    · rw [headers_ipv4 hip]
      generalize (if IsEthernet f layer then some 0 else none : Option ℕ) = eth at heth ⊢
      rw [ipv4Transport] at ht ⊢
      split_ifs at ht ⊢ with hipv4
      · obtain rfl := Option.some.inj ht
        obtain ⟨len', htransport, hlen'⟩ := transportHeader_of_whole hwhole
          (carried (some _) * { ipv4 := some (net layer) } * { eth })
          (Option.or_none.trans Option.or_none) (Option.or_none.trans Option.or_none)
        refine ⟨heth, .inr ⟨rfl, _, _, len', .inl ⟨rfl, rfl, rfl, hipv4.1, rfl⟩, htransport, ?_, hipv4.2.2.1⟩⟩
        dsimp only at hlen'
        omega
      · cases ht
    · rw [headers_ipv6 hip6]
      generalize (if IsEthernet f layer then some 0 else none : Option ℕ) = eth at heth ⊢
      rw [ipv6Transport] at ht ⊢
      split_ifs at ht ⊢ with hipv6
      · obtain rfl := Option.some.inj ht
        obtain ⟨len', htransport, hlen'⟩ := transportHeader_of_whole hwhole
          (carried (some _) * { ipv6 := some (net layer) } * { eth })
          (Option.or_none.trans Option.or_none) (Option.or_none.trans Option.or_none)
        refine ⟨heth, .inr ⟨rfl, _, _, len', .inr ⟨rfl, rfl, rfl, rfl⟩, htransport, ?_, ?_⟩⟩
        · dsimp only at hlen'
          omega
        · omega
      · cases ht
    · cases ht

end nested

theorem parsePacket_negative (buffer : List UInt8) {inBytes : ℤ} (hneg : inBytes < 0) {layer : PacketLayer}
    (hlayer : layer = .ethernet ∨ layer = .ip) (packet : Headers) :
    (parsePacket buffer inBytes layer).run packet = .error .caller ∨
      ∃ error, (parsePacket buffer inBytes layer).run packet = .ok (.bad error, packet) := by
  have hzero : inBytes.toNat = 0 := Int.toNat_of_nonpos (by omega)
  unfold parsePacket
  by_cases hcheck : inBytes % 2 ^ 32 ≤ buffer.length
  · right
    have hbad : ∃ error, (parseByLayer ⟨buffer, inBytes⟩ layer) = pure (.bad error) := by
      obtain rfl | rfl := hlayer
      · exact ⟨_, if_pos (by dsimp only; omega)⟩
      · exact ⟨_, if_pos (by dsimp only; omega)⟩
    obtain ⟨error, herror⟩ := hbad
    rw [check_eq hcheck]
    dsimp only
    rw [herror, hexDump, hzero]
    exact ⟨_, rfl⟩
  · left
    rw [check, if_neg hcheck]
    rfl

/-- For every content of the buffer and every length up to that of the buffer, no read is at or beyond the end of the packet and no
assertion of a header's parser fails; the assertion on a negative length may. When the packet is accepted, and no pointer was set
before, its headers are nested. -/
theorem parse_packet_nested {buffer : List UInt8} {inBytes : ℤ} (hle : inBytes ≤ buffer.length) {layer : PacketLayer}
    (hlayer : layer = .ethernet ∨ layer = .ip) (packet : Headers) :
    (inBytes < 0 ∧ (parsePacket buffer inBytes layer).run packet = .error .caller) ∨
      ∃ r new, (parsePacket buffer inBytes layer).run packet = .ok (r, new) ∧
        (packet = {} → r.result = .ok → Nested (buffer.take inBytes.toNat) layer new) := by
  rcases Int.lt_or_le inBytes 0 with hneg | hpos
  · obtain hfail | ⟨error, hbad⟩ := parsePacket_negative buffer hneg hlayer packet
    · exact .inl ⟨hneg, hfail⟩
    · exact .inr ⟨_, _, hbad, fun _ hok => nomatch hok⟩
  · obtain ⟨r, new, hrun, rfl, haccepted, -⟩ := parsePacket_spec hpos hle hlayer
    refine .inr ⟨r, _, hrun packet, ?_⟩
    rintro rfl hok
    have hnew : Frame.headers (buffer.take inBytes.toNat) layer * {} = _ := mul_one _
    rw [hnew]
    exact nested_of_accepted (haccepted.mp hok)

/-- An empty UDP datagram over IPv6. -/
def udpFrame : List UInt8 :=
  List.replicate 12 0 ++ [0x86, 0xdd] ++ [0x60, 0, 0, 0, 0, 8, 17, 64] ++ List.replicate 32 0 ++ [0, 53, 0, 53, 0, 8, 0, 0]

theorem parse_packet_nested_sample :
    Nested (udpFrame.take 62) .ethernet { eth := some 0, ipv6 := some 14, udp := some 54 } := by
  have hrun : (parsePacket udpFrame 62 .ethernet).run {} = .ok (.ok, { eth := some 0, ipv6 := some 14, udp := some 54 }) := by decide +kernel
  obtain ⟨hneg, -⟩ | ⟨r, new, hparse, hnested⟩ :=
    @parse_packet_nested udpFrame 62 (by decide) .ethernet (.inl rfl) {}
  · exact absurd hneg (by decide)
  · obtain ⟨rfl, rfl⟩ := Prod.mk.inj (Except.ok.inj (hrun.symm.trans hparse))
    exact hnested rfl rfl

end Yjc.Sniffer
