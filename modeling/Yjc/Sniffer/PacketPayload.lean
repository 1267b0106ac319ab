import Yjc.Lib.CInt
import Yjc.Sniffer.PacketReuse

/-! The accessors of `sniffer/packet.h`. -/

namespace Yjc.Sniffer
open Mem Sniffer.Frame

inductive Direction
  | host | broadcast | multicast | otherhost | outgoing | loopback | fastroute | all
deriving DecidableEq

/-- All of `struct packet`, where `buffer_bytes` is the length of the buffer. -/
structure FullPacket extends Packet where
  bufferActive : ℕ := 0
  devIfindex : ℕ := 0
  direction : Direction := .host
  tv : ℤ × ℤ := (0, 0)
deriving DecidableEq

/-- The assertion that a pointer is set. -/
def asserted (pointer : Option ℕ) : Except Fault ℕ := pointer.elim (.error .assertion) .ok

namespace FullPacket

def memory (packet : FullPacket) : Input := ⟨packet.buffer, packet.buffer.length⟩

def packetEnd (packet : FullPacket) : ℕ := packet.bufferActive

def packetTcpHeaderLen (packet : FullPacket) : Except Fault ℕ := do
  let tcp ← asserted packet.headers.tcp
  return (← packet.memory.load (tcp + 12)) / 2 ^ 4 * 4

def packetUdpHeaderLen (packet : FullPacket) : Except Fault ℕ := do
  let _ ← asserted packet.headers.udp
  return 8

def packetPayload (packet : FullPacket) : Except Fault ℕ :=
  match packet.headers.tcp, packet.headers.udp with
  | some tcp, _ => do return tcp + (← packet.packetTcpHeaderLen)
  | none, some udp => do return udp + (← packet.packetUdpHeaderLen)
  | none, none => .error .assertion

def packetPayloadLen (packet : FullPacket) : Except Fault ℤ := do
  return cInt (packet.packetEnd - (← packet.packetPayload))

/-- `parse_packet`, with `in_bytes` the active bytes. -/
def parsePacket (packet : FullPacket) (layer : PacketLayer) : Except Fault (ParseResult × FullPacket) := do
  let (r, parsed) ← packet.parse packet.bufferActive layer
  return (r, { packet with toPacket := parsed })

def active (packet : FullPacket) : List UInt8 := packet.buffer.take packet.bufferActive

end FullPacket

/-! ## The lengths in a frame -/

deriving instance DecidableEq for Transport

section lengths
variable (f : List UInt8) (layer : PacketLayer)

def ipHeaderBytes : ℕ := if IsIpv4 f layer then ihl f (net layer) else 40

def ipTotalBytes : ℕ := if IsIpv4 f layer then totalLength f (net layer) else 40 + payloadLength f (net layer)

def Transport.headerBytes (t : Transport) : ℕ := if t.IsTcp then dataOffset f t.start else 8

variable {f layer} {t : Transport}

theorem transport_bounds (h : t ∈ transport f layer) :
    t.start = net layer + ipHeaderBytes f layer ∧ t.stop = net layer + ipTotalBytes f layer ∧ t.stop ≤ f.length := by
  -- what is carried is between the IP header and the end of the datagram
  rw [transport] at h
  unfold ipHeaderBytes ipTotalBytes
  split_ifs at h ⊢ with hip hip6
  · rw [ipv4Transport] at h
    split_ifs at h with hwhole
    · obtain rfl := Option.some.inj h
      exact ⟨rfl, rfl, hwhole.2.2.1⟩
    · cases h
  · rw [ipv6Transport] at h
    split_ifs at h with hfits
    · obtain rfl := Option.some.inj h
      exact ⟨rfl, Nat.add_assoc _ _ _, hfits⟩
    · cases h
  · cases h

theorem not_arp_of_transport (h : t ∈ transport f layer) : ¬IsArp f layer := by
  rw [transport] at h
  split_ifs at h with hip hip6
  · exact hip.not_arp
  · exact hip6.not_arp
  · cases h

theorem whole_of_accepted (haccepted : Accepted f layer) (h : t ∈ transport f layer) : t.Whole f := by
  obtain harp | ⟨t', ht', hwhole⟩ := haccepted
  · exact absurd harp (not_arp_of_transport h)
  · obtain rfl := Option.mem_unique h ht'
    exact hwhole

theorem headerBytes_le (h : t.Whole f) : t.start + t.headerBytes f ≤ t.stop := by
  obtain ⟨his, -, hfits⟩ | ⟨his, -⟩ := h
  · rwa [Transport.headerBytes, if_pos his]
  · have hnot : ¬t.IsTcp := fun hc => absurd (his.1.symm.trans hc.1) (by decide)
    rw [Transport.headerBytes, if_neg hnot]
    exact his.2

theorem headers_transport (h : t ∈ transport f layer) :
    (Frame.headers f layer).tcp = t.headers.tcp ∧ (Frame.headers f layer).udp = t.headers.udp := by
  obtain h : transport f layer = some t := h
  rw [Frame.headers, h]
  exact ⟨Option.or_none, Option.or_none⟩

end lengths

namespace FullPacket
variable {packet parsed : FullPacket} {layer : PacketLayer} {t : Transport}

theorem memory_load (packet : FullPacket) {i : ℕ} (hactive : packet.bufferActive ≤ packet.buffer.length) (hi : i < packet.bufferActive) :
    packet.memory.load i = .ok (byteAt packet.active i) := by
  have hbounded : packet.memory.Bounded := Input.bounded_of (Int.le_refl _) (Int.natCast_nonneg _)
  have hframe : packet.memory.frame = packet.buffer := List.take_length
  have hbyte : byteAt packet.active i = byteAt packet.buffer i := by
    rw [byteAt, byteAt, active, List.getD_eq_getElem?_getD, List.getD_eq_getElem?_getD, List.getElem?_take_of_lt hi]
  rw [hbounded.load (by rw [hframe]; omega), hframe, hbyte]

theorem packetPayload_tcp {tcp b : ℕ} (h : packet.headers.tcp = some tcp) (hload : packet.memory.load (tcp + 12) = .ok b) :
    packet.packetPayload = .ok (tcp + b / 2 ^ 4 * 4) := by
  have hlen : packet.packetTcpHeaderLen = .ok (b / 2 ^ 4 * 4) := by
    rw [packetTcpHeaderLen, h]
    change (do let b ← packet.memory.load (tcp + 12); pure (b / 2 ^ 4 * 4)) = _
    rw [hload]
    rfl
  rw [packetPayload, h, hlen]
  rfl

theorem packetPayload_udp {udp : ℕ} (htcp : packet.headers.tcp = none) (h : packet.headers.udp = some udp) :
    packet.packetPayload = .ok (udp + 8) := by
  rw [packetPayload, packetUdpHeaderLen, htcp, h]
  rfl

theorem parsePacket_ok (hlayer : layer = .ethernet ∨ layer = .ip) (hactive : packet.bufferActive ≤ packet.buffer.length)
    (hparse : packet.parsePacket layer = .ok (.ok, parsed)) : Accepted packet.active layer ∧
      parsed = { packet with headers := Frame.headers packet.active layer * packet.headers } := by
  obtain ⟨r, _, hrun, rfl, haccepted, -⟩ := parsePacket_spec (Int.natCast_nonneg _) (Int.ofNat_le.mpr hactive) hlayer
  rw [Int.toNat_natCast] at hrun haccepted
  have hparsed : packet.parsePacket layer =
      .ok (r.result, { packet with headers := Frame.headers packet.active layer * packet.headers }) := by
    unfold parsePacket Packet.parse
    rw [hrun]
    rfl
  obtain ⟨hr, rfl⟩ := Prod.mk.inj (Except.ok.inj (hparse.symm.trans hparsed))
  exact ⟨haccepted.mp hr.symm, rfl⟩

theorem packetPayload_parsed (hlayer : layer = .ethernet ∨ layer = .ip) (hactive : packet.bufferActive ≤ packet.buffer.length)
    (hparse : packet.parsePacket layer = .ok (.ok, parsed)) (ht : t ∈ transport packet.active layer)
    (htcp : t.IsTcp ∨ packet.headers.tcp = none) :
    parsed.packetPayload = .ok (t.start + t.headerBytes packet.active) := by
  -- the payload begins behind the transport header of the frame, when the packet had no TCP header before or the frame has one
  obtain ⟨haccepted, rfl⟩ := parsePacket_ok hlayer hactive hparse
  have hwhole := whole_of_accepted haccepted ht
  obtain ⟨-, -, hstop⟩ := transport_bounds ht
  obtain ⟨hframetcp, hframeudp⟩ := headers_transport ht
  have hlength : packet.active.length ≤ packet.bufferActive := List.length_take_le _ _
  have hpointer : (Frame.headers packet.active layer * packet.headers).tcp = t.headers.tcp.or packet.headers.tcp := by
    rw [← hframetcp]
    rfl
  have hpointer' : (Frame.headers packet.active layer * packet.headers).udp = t.headers.udp.or packet.headers.udp := by
    rw [← hframeudp]
    rfl
  obtain ⟨his, hmin, hfits⟩ | ⟨his, -⟩ := hwhole
  · have hload := packet.memory_load (i := t.start + 12) hactive (by omega)
    have hset : t.headers.tcp = some t.start := if_pos his
    rw [hset, Option.some_or] at hpointer
    rw [Transport.headerBytes, if_pos his]
    exact packetPayload_tcp hpointer hload
  · have hnot : ¬t.IsTcp := fun hc => absurd (his.1.symm.trans hc.1) (by decide)
    have hnone : t.headers.tcp = none := if_neg hnot
    have hset : t.headers.udp = some t.start := if_pos his
    rw [hnone, htcp.resolve_left hnot] at hpointer
    rw [hset, Option.some_or] at hpointer'
    rw [Transport.headerBytes, if_neg hnot]
    exact packetPayload_udp hpointer hpointer'

/-- The bytes that the headers leave for the payload. -/
def payloadBytes (packet : FullPacket) (layer : PacketLayer) (t : Transport) : ℤ :=
  ipTotalBytes packet.active layer - ipHeaderBytes packet.active layer - t.headerBytes packet.active

/-- For an accepted TCP segment or UDP datagram `packet_payload_len` is the length of the payload when the capture ends with the IP
datagram, and only then. -/
theorem packet_payload_len_iff (hlayer : layer = .ethernet ∨ layer = .ip) (hactive : packet.bufferActive ≤ packet.buffer.length)
    (hint : packet.bufferActive < 2 ^ 31) (hparse : packet.parsePacket layer = .ok (.ok, parsed))
    (ht : t ∈ transport packet.active layer) (htcp : t.IsTcp ∨ packet.headers.tcp = none) :
    parsed.packetPayloadLen = .ok (packet.payloadBytes layer t) ↔
      net layer + ipTotalBytes packet.active layer = packet.bufferActive := by
  have hpayload := packetPayload_parsed hlayer hactive hparse ht htcp
  obtain ⟨haccepted, rfl⟩ := parsePacket_ok hlayer hactive hparse
  have hheader := headerBytes_le (whole_of_accepted haccepted ht)
  obtain ⟨hstart, hstop, hfits⟩ := transport_bounds ht
  have hlength : packet.active.length ≤ packet.bufferActive := List.length_take_le _ _
  have hdiff : (packet.bufferActive : ℤ) - (t.start + t.headerBytes packet.active : ℕ) =
      (packet.bufferActive - (t.start + t.headerBytes packet.active) : ℕ) := by omega
  unfold packetPayloadLen
  rw [hpayload]
  change Except.ok (cInt (packet.bufferActive - (t.start + t.headerBytes packet.active : ℕ))) = _ ↔ _
  rw [cInt_of_eq hdiff (by omega), Except.ok.injEq, payloadBytes]
  omega

/-- An empty UDP datagram over IPv4. -/
def shortFrame : List UInt8 :=
  List.replicate 12 0 ++ [8, 0] ++ [0x45, 0, 0, 28, 0, 0, 0, 0, 64, 17, 0x66, 0xcf, 10, 0, 0, 1, 10, 0, 0, 2] ++ [0, 53, 0, 53, 0, 8, 0, 0]

/-- The datagram as it is captured, padded to the least length of an Ethernet frame. -/
def paddedPacket : FullPacket := { buffer := shortFrame ++ List.replicate 18 0, headers := {}, bufferActive := 60 }

/-- The padding is taken for payload. -/
theorem padding_is_payload : ∃ parsed t, paddedPacket.parsePacket .ethernet = .ok (.ok, parsed) ∧
    t ∈ transport paddedPacket.active .ethernet ∧ paddedPacket.payloadBytes .ethernet t = 0 ∧ parsed.packetPayloadLen = .ok 18 := by
  refine ⟨{ paddedPacket with headers := { eth := some 0, ipv4 := some 14, udp := some 34 } }, ⟨17, 34, 42⟩, ?_, ?_, ?_, ?_⟩
  · decide +kernel
  · decide +kernel
  · decide +kernel
  · decide +kernel

/-- A UDP datagram over IPv4 with four bytes of payload, in a frame without padding. -/
def queryPacket : FullPacket where
  buffer := List.replicate 12 0 ++ [8, 0] ++ [0x45, 0, 0, 32, 0, 0, 0, 0, 64, 17, 0x66, 0xcb, 10, 0, 0, 1, 10, 0, 0, 2] ++
    [0, 53, 0, 53, 0, 12, 0, 0] ++ [0x70, 0x69, 0x6e, 0x67]
  headers := {}
  bufferActive := 46

theorem packet_payload_len_sample :
    ({ queryPacket with headers := { eth := some 0, ipv4 := some 14, udp := some 34 } }).packetPayloadLen = .ok 4 := by
  have hparse : queryPacket.parsePacket .ethernet =
      .ok (.ok, { queryPacket with headers := { eth := some 0, ipv4 := some 14, udp := some 34 } }) := by decide +kernel
  have ht : ⟨17, 34, 46⟩ ∈ transport queryPacket.active .ethernet := by decide +kernel
  have hbytes : queryPacket.payloadBytes .ethernet ⟨17, 34, 46⟩ = 4 := by decide +kernel
  rw [← hbytes]
  exact (packet_payload_len_iff (.inl rfl) (by decide) (by decide) hparse ht (.inr rfl)).mpr (by decide +kernel)

end FullPacket

end Yjc.Sniffer
