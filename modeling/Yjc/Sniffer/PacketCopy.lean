import Yjc.Sniffer.PacketPayload

/-! `packet_copy` of `sniffer/packet.c`, and what the accessors see in the copy. -/

namespace Yjc.Sniffer
open Mem

inductive IpAddr
  | v4 (bytes : List UInt8)
  | v6 (bytes : List UInt8)
deriving DecidableEq

/-- The port is in network order. -/
structure Endpoint where
  ip : IpAddr
  port : List UInt8
deriving DecidableEq

structure Tuple where
  src : Endpoint
  dst : Endpoint
deriving DecidableEq

/-- `offset_ptr`, where a pointer is an offset in its own buffer and the new base is `headroom` behind the start. -/
def offsetPtr (headroom : ℕ) (old : Option ℕ) : Option ℕ := old.map (headroom + ·)

namespace FullPacket

/-- The addresses in the IP header that was set, as `ip_from_ipv4` or `ip_from_ipv6` copies them. -/
def packetAddrs (packet : FullPacket) : Except Fault (IpAddr × IpAddr) :=
  match packet.headers.ipv4, packet.headers.ipv6 with
  | some ipv4, _ => do return (.v4 (← packet.memory.loads (ipv4 + 12) 4), .v4 (← packet.memory.loads (ipv4 + 16) 4))
  | none, some ipv6 => do return (.v6 (← packet.memory.loads (ipv6 + 8) 16), .v6 (← packet.memory.loads (ipv6 + 24) 16))
  | none, none => .error .assertion

/-- The ports of the transport header that was set, or the zeros that the tuple was filled with. -/
def packetPorts (packet : FullPacket) : Except Fault (List UInt8 × List UInt8) :=
  match packet.headers.tcp.or packet.headers.udp with
  | some layer4 => do return (← packet.memory.loads layer4 2, ← packet.memory.loads (layer4 + 2) 2)
  | none => .ok ([0, 0], [0, 0])

def getPacketTuple (packet : FullPacket) : Except Fault Tuple := do
  let (src, dst) ← packet.packetAddrs
  let (srcPort, dstPort) ← packet.packetPorts
  return ⟨⟨src, srcPort⟩, ⟨dst, dstPort⟩⟩

/-- `packet_new`, where `calloc` leaves every other field zero. -/
def packetNew (bufferBytes : ℕ) : FullPacket := { Packet.new bufferBytes with }

def packetDuplicateInfo (packet old : FullPacket) (bytesHeadroom : ℕ) : FullPacket :=
  { packet with
    direction := old.direction
    devIfindex := old.devIfindex
    tv := old.tv
    headers :=
      { packet.headers with
        eth := offsetPtr bytesHeadroom old.headers.eth
        ipv4 := offsetPtr bytesHeadroom old.headers.ipv4
        ipv6 := offsetPtr bytesHeadroom old.headers.ipv6
        tcp := offsetPtr bytesHeadroom old.headers.tcp
        udp := offsetPtr bytesHeadroom old.headers.udp } }

def packetCopyWithHeadroom (old : FullPacket) (bytesHeadroom : ℕ) : Except Fault FullPacket := do
  let bytesUsed := cInt old.packetEnd
  check (0 ≤ bytesUsed) .assertion
  check (bytesUsed ≤ 128 * 1024) .assertion
  let packet := packetNew (bytesHeadroom + bytesUsed.toNat)
  let bytes ← old.memory.loads 0 bytesUsed.toNat
  return packetDuplicateInfo { packet with buffer := store packet.buffer bytesHeadroom bytes } old bytesHeadroom

def packetCopy (old : FullPacket) : Except Fault FullPacket := packetCopyWithHeadroom old 0

/-- What a copy of a packet is to be. -/
structure Copied (old new : FullPacket) : Prop where
  bufferActive : new.bufferActive = old.bufferActive
  active : new.active = old.active
  headers : new.headers = old.headers
  packetEnd : new.packetEnd = old.packetEnd
  packetPayloadLen : new.packetPayloadLen = old.packetPayloadLen
  getPacketTuple : new.getPacketTuple = old.getPacketTuple

/-- The first address that `get_packet_tuple` reads. -/
def srcIp (packet : FullPacket) : Option ℕ := (packet.headers.ipv4.map (· + 12)).or (packet.headers.ipv6.map (· + 8))

/-- A packet with nothing to be lost: no byte is active, there is no ARP header, and what the accessors read first is not in the buffer. -/
def Blank (packet : FullPacket) : Prop :=
  packet.bufferActive = 0 ∧ packet.headers.arp = none ∧ (∀ tcp ∈ packet.headers.tcp, packet.buffer.length ≤ tcp + 12) ∧
    ∀ ip ∈ packet.srcIp, packet.buffer.length ≤ ip

/-! ## Reads beyond the buffer -/

/-- Only reads at `n` or beyond it fail. -/
def FailsBeyond {α : Type} (n : ℕ) (x : Except Fault α) : Prop := ∀ j, x = .error (.read j) → n ≤ j

section beyond
variable {α β : Type} {n i : ℕ} {x : Except Fault α} {f : α → Except Fault β} {packet : FullPacket}

theorem FailsBeyond.pure (a : α) : FailsBeyond n (.ok a) := fun _ h => nomatch h

theorem FailsBeyond.assertion : FailsBeyond n (.error .assertion : Except Fault α) := fun _ h => nomatch h

theorem FailsBeyond.bind (hx : FailsBeyond n x) (hf : ∀ a, FailsBeyond n (f a)) : FailsBeyond n (x >>= f) := by
  cases x with
  | error fault =>
    intro j h
    exact hx j (congrArg Except.error (Except.error.inj h))
  | ok a => exact hf a

theorem load_beyond (h : packet.buffer.length ≤ i) : packet.memory.load i = .error (.read i) := by
  rw [Input.load, memory, List.getElem?_eq_none h]

theorem load_failsBeyond (packet : FullPacket) (i : ℕ) : FailsBeyond packet.buffer.length (packet.memory.load i) := by
  rcases Nat.lt_or_ge i packet.buffer.length with hlt | hge
  · have hbounded : packet.memory.Bounded := Input.bounded_of (Int.le_refl _) (Int.natCast_nonneg _)
    have hframe : packet.memory.frame = packet.buffer := List.take_length
    rw [hbounded.load (by rw [hframe]; exact hlt)]
    exact .pure _
  · intro j h
    rw [load_beyond hge] at h
    cases h
    exact hge

theorem loads_failsBeyond (packet : FullPacket) (i n : ℕ) : FailsBeyond packet.buffer.length (packet.memory.loads i n) := by
  induction n generalizing i with
  | zero => exact .pure _
  | succ n ih =>
    rw [Input.loads]
    exact (load_failsBeyond packet i).bind fun _ => (ih (i + 1)).bind fun _ => .pure _

theorem loads_beyond (h : packet.buffer.length ≤ i) (n : ℕ) : packet.memory.loads i (n + 1) = .error (.read i) := by
  rw [Input.loads, load_beyond h]
  rfl

theorem getPacketTuple_failsBeyond (packet : FullPacket) : FailsBeyond packet.buffer.length packet.getPacketTuple := by
  have hloads := loads_failsBeyond packet
  have haddrs : FailsBeyond packet.buffer.length packet.packetAddrs := by
    unfold packetAddrs
    split
    · exact (hloads _ _).bind fun _ => (hloads _ _).bind fun _ => .pure _
    · exact (hloads _ _).bind fun _ => (hloads _ _).bind fun _ => .pure _
    · exact .assertion
  have hports : FailsBeyond packet.buffer.length packet.packetPorts := by
    unfold packetPorts
    split
    · exact (hloads _ _).bind fun _ => (hloads _ _).bind fun _ => .pure _
    · exact .pure _
  exact haddrs.bind fun _ => hports.bind fun _ => .pure _

theorem getPacketTuple_beyond {ip : ℕ} (hip : ip ∈ packet.srcIp) (h : packet.buffer.length ≤ ip) :
    packet.getPacketTuple = .error (.read ip) := by
  have haddrs : packet.packetAddrs = .error (.read ip) := by
    unfold packetAddrs
    obtain hip : packet.srcIp = some ip := hip
    rw [srcIp] at hip
    cases hipv4 : packet.headers.ipv4 with
    | some ipv4 =>
      rw [hipv4] at hip
      obtain rfl := Option.some.inj hip
      dsimp only
      rw [loads_beyond h]
      rfl
    | none =>
      rw [hipv4] at hip
      cases hipv6 : packet.headers.ipv6 with
      | some ipv6 =>
        rw [hipv6] at hip
        obtain rfl := Option.some.inj hip
        dsimp only
        rw [loads_beyond h]
        rfl
      | none =>
        rw [hipv6] at hip
        cases hip
  unfold getPacketTuple
  rw [haddrs]
  rfl

theorem getPacketTuple_assertion (h : packet.srcIp = none) : packet.getPacketTuple = .error .assertion := by
  rw [srcIp, Option.or_eq_none_iff, Option.map_eq_none_iff, Option.map_eq_none_iff] at h
  unfold getPacketTuple packetAddrs
  rw [h.1, h.2]
  rfl

theorem packetPayloadLen_beyond {tcp : ℕ} (htcp : packet.headers.tcp = some tcp) (h : packet.buffer.length ≤ tcp + 12) :
    packet.packetPayloadLen = .error (.read (tcp + 12)) := by
  have hlen : packet.packetTcpHeaderLen = .error (.read (tcp + 12)) := by
    rw [packetTcpHeaderLen, htcp]
    change (do let b ← packet.memory.load (tcp + 12); pure (b / 2 ^ 4 * 4)) = _
    rw [load_beyond h]
    rfl
  rw [packetPayloadLen, packetPayload, htcp, hlen]
  rfl

theorem packetPayloadLen_failsBeyond (packet : FullPacket) : FailsBeyond packet.buffer.length packet.packetPayloadLen := by
  have hasserted (pointer : Option ℕ) : FailsBeyond packet.buffer.length (asserted pointer) := by
    cases pointer with
    | some p => exact .pure _
    | none => exact .assertion
  have hpayload : FailsBeyond packet.buffer.length packet.packetPayload := by
    unfold packetPayload packetTcpHeaderLen packetUdpHeaderLen
    split
    · exact ((hasserted _).bind fun _ => (load_failsBeyond packet _).bind fun _ => .pure _).bind fun _ => .pure _
    · exact ((hasserted _).bind fun _ => .pure _).bind fun _ => .pure _
    · exact .assertion
  exact hpayload.bind fun _ => .pure _

end beyond

/-! ## The copy -/

variable {old : FullPacket}

theorem offsetPtr_zero (p : Option ℕ) : offsetPtr 0 p = p := by
  cases p with
  | none => rfl
  | some p => exact congrArg some (Nat.zero_add p)

theorem packetCopy_eq (hactive : old.bufferActive ≤ old.buffer.length) (h : old.bufferActive ≤ 128 * 1024) :
    old.packetCopy = .ok { old with buffer := old.active, bufferActive := 0, headers := { old.headers with arp := none } } := by
  have hused : cInt old.packetEnd = old.bufferActive := cInt_of_lt (show old.bufferActive < 2 ^ 31 by omega)
  have hbounded : old.memory.Bounded := Input.bounded_of (Int.le_refl _) (Int.natCast_nonneg _)
  have hframe : old.memory.frame = old.buffer := List.take_length
  have hloads : old.memory.loads 0 old.bufferActive = .ok old.active := by
    rw [hbounded.loads (by rw [hframe]; omega), hframe, Nat.zero_add, slice_zero]
    rfl
  have hlength : old.active.length = old.bufferActive := by rw [active, List.length_take, Nat.min_eq_left hactive]
  have hstore : store (packetNew (0 + old.bufferActive)).buffer 0 old.active = old.active := by
    have hnew : (packetNew (0 + old.bufferActive)).buffer.length = 0 + old.bufferActive := List.length_replicate
    rw [store, List.take_zero, List.nil_append, List.drop_eq_nil_of_le (by omega), List.append_nil]
  unfold packetCopy packetCopyWithHeadroom
  rw [hused]
  dsimp only
  rw [Int.toNat_natCast, hloads, check_eq (Int.natCast_nonneg _), check_eq (by omega)]
  change Except.ok (packetDuplicateInfo _ old 0) = _
  rw [hstore, packetDuplicateInfo]
  simp only [offsetPtr_zero]
  rfl

theorem Blank.copied {new : FullPacket} (h : Blank old) (hbuffer : new.buffer = []) (hnone : new.bufferActive = 0)
    (hheaders : new.headers = old.headers) : Copied old new := by
  obtain ⟨hzero, harp, htcp, hip⟩ := h
  have hlength (i : ℕ) : new.buffer.length ≤ i := by
    rw [hbuffer]
    exact Nat.zero_le i
  have hsrc : new.srcIp = old.srcIp := by rw [srcIp, srcIp, hheaders]
  refine ⟨hnone.trans hzero.symm, ?_, hheaders, hnone.trans hzero.symm, ?_, ?_⟩
  · rw [active, active, hnone, hzero, List.take_zero, List.take_zero]
  · cases hset : old.headers.tcp with
    | some tcp =>
      have hset' : new.headers.tcp = some tcp := by rw [hheaders, hset]
      rw [packetPayloadLen_beyond hset (htcp tcp hset), packetPayloadLen_beyond hset' (hlength _)]
    | none =>
      unfold packetPayloadLen packetPayload packetUdpHeaderLen packetEnd
      rw [hheaders, hset, hnone, hzero]
      cases old.headers.udp <;> rfl
  · cases hset : old.srcIp with
    | some ip => rw [getPacketTuple_beyond hset (hip ip hset), getPacketTuple_beyond (hsrc.trans hset) (hlength _)]
    | none => rw [getPacketTuple_assertion hset, getPacketTuple_assertion (hsrc.trans hset)]

/-- Every active byte and the ARP header are lost. -/
theorem packet_copy_iff (hactive : old.bufferActive ≤ old.buffer.length) (h : old.bufferActive ≤ 128 * 1024) :
    ∃ new, old.packetCopy = .ok new ∧ (Copied old new ↔ Blank old) := by
  refine ⟨_, packetCopy_eq hactive h, fun hcopied => ?_, fun hblank => ?_⟩
  · have hzero : old.bufferActive = 0 := hcopied.bufferActive.symm
    have harp : old.headers.arp = none := (congrArg Headers.arp hcopied.headers).symm
    have hbuffer : old.active.length = 0 := by rw [active, hzero]; rfl
    refine ⟨hzero, harp, fun tcp hset => ?_, fun ip hset => ?_⟩
    · have hfails := packetPayloadLen_failsBeyond old (tcp + 12)
      rw [← hcopied.packetPayloadLen] at hfails
      exact hfails (packetPayloadLen_beyond hset (by dsimp only; omega))
    · have hfails := getPacketTuple_failsBeyond old ip
      rw [← hcopied.getPacketTuple] at hfails
      exact hfails (getPacketTuple_beyond hset (by dsimp only; omega))
  · have hheaders : { old.headers with arp := none } = old.headers := by rw [← hblank.2.1]
    refine hblank.copied ?_ rfl hheaders
    dsimp only
    rw [active, hblank.1, List.take_zero]

/-- A captured ARP request has no byte and no ARP header left in its copy. -/
theorem packet_copy_loses : ∃ old new : FullPacket, old.bufferActive ≤ 128 * 1024 ∧ old.packetCopy = .ok new ∧
    old.active.length = 42 ∧ new.active = [] ∧ old.headers.arp = some 14 ∧ new.headers.arp = none ∧ ¬Copied old new := by
  refine ⟨{ buffer := Packet.arpFrame, headers := { eth := some 0, arp := some 14 }, bufferActive := 42 }, _, by decide,
    packetCopy_eq (by decide) (by decide), by decide, rfl, rfl, rfl, fun hcopied => ?_⟩
  exact absurd hcopied.bufferActive (by decide)

/-- An ARP request as it was received, in a buffer of 64 bytes. -/
def arpPacket : FullPacket where
  buffer := Packet.arpFrame ++ List.replicate 22 0
  headers := { eth := some 0, arp := some 14 }
  bufferActive := 42

/-- The copy of the request loses its bytes; a new packet has none to be lost. -/
theorem packet_copy_sample : (∃ new, arpPacket.packetCopy = .ok new ∧ ¬Copied arpPacket new) ∧
    ∃ new, (packetNew 64).packetCopy = .ok new ∧ Copied (packetNew 64) new := by
  obtain ⟨received, hreceived, hlost⟩ := @packet_copy_iff arpPacket (by decide) (by decide)
  obtain ⟨new, hnew, hcopied⟩ := @packet_copy_iff (packetNew 64) (by decide) (by decide)
  refine ⟨⟨received, hreceived, fun h => ?_⟩, new, hnew, hcopied.mpr ⟨rfl, rfl, nofun, nofun⟩⟩
  exact absurd (hlost.mp h).1 (by decide)

end FullPacket

end Yjc.Sniffer
