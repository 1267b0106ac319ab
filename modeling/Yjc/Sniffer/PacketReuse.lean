import Yjc.Sniffer.PacketParser

/-! One packet that frame after frame is received in, as in `sniffer_recv`, and parsed. -/

namespace Yjc.Sniffer
open Mem Sniffer.Frame

structure Packet where
  buffer : List UInt8
  headers : Headers
deriving DecidableEq

namespace Packet

/-- `packet_new`. -/
def new (bufferBytes : ℕ) : Packet := ⟨List.replicate bufferBytes 0, {}⟩

/-- What `packet_socket_receive` puts into the buffer, and how many bytes. -/
def receive (packet : Packet) (frame : List UInt8) : Packet × ℕ :=
  let bytes := frame.take packet.buffer.length
  ({ packet with buffer := store packet.buffer 0 bytes }, bytes.length)

def parse (packet : Packet) (inBytes : ℤ) (layer : PacketLayer) : Except Fault (ParseResult × Packet) := do
  let (r, headers) ← (parsePacket packet.buffer inBytes layer).run packet.headers
  return (r.result, { packet with headers })

def sniff (packet : Packet) (frame : List UInt8) (layer : PacketLayer) : Except Fault (ParseResult × Packet) :=
  let (packet, inBytes) := packet.receive frame
  packet.parse inBytes layer

end Packet

inductive HeaderKind
  | eth | arp | ipv4 | ipv6 | tcp | udp
deriving DecidableEq

namespace Headers

def get (h : Headers) : HeaderKind → Option ℕ
  | .eth => h.eth
  | .arp => h.arp
  | .ipv4 => h.ipv4
  | .ipv6 => h.ipv6
  | .tcp => h.tcp
  | .udp => h.udp

/-- The header that `packet_stringify` prints after the Ethernet header. -/
def stringified (h : Headers) : Option HeaderKind :=
  if h.arp.isSome then some .arp
  else if h.ipv4 = none ∧ h.ipv6 = none then none
  else if h.tcp.isSome then some .tcp
  else if h.udp.isSome then some .udp
  else if h.ipv4.isSome then some .ipv4
  else some .ipv6

end Headers

/-- What a frame has a header of, by its own bytes. -/
def Frame.Carries (f : List UInt8) (layer : PacketLayer) : HeaderKind → Prop
  | .eth => IsEthernet f layer
  | .arp => IsArp f layer
  | .ipv4 => IsIpv4 f layer
  | .ipv6 => IsIpv6 f layer
  | .tcp => ∃ t ∈ transport f layer, t.IsTcp
  | .udp => ∃ t ∈ transport f layer, t.IsUdp

section carries
variable {f : List UInt8} {layer : PacketLayer} {new old : Headers} {k : HeaderKind}

theorem get_mul : (new * old).get k = (new.get k).or (old.get k) := by cases k <;> rfl

theorem ext_get (h : ∀ k, new.get k = old.get k) : new = old := by
  obtain ⟨eth, arp, ipv4, ipv6, tcp, udp⟩ := new
  obtain ⟨eth', arp', ipv4', ipv6', tcp', udp'⟩ := old
  obtain rfl : eth = eth' := h .eth
  obtain rfl : arp = arp' := h .arp
  obtain rfl : ipv4 = ipv4' := h .ipv4
  obtain rfl : ipv6 = ipv6' := h .ipv6
  obtain rfl : tcp = tcp' := h .tcp
  obtain rfl : udp = udp' := h .udp
  rfl

theorem or_eq_left {a b : Option ℕ} : a.or b = a ↔ (b.isSome = true → a.isSome = true) := by
  cases a with
  | none => cases b <;> simp
  | some a => simp

theorem mul_eq_left : new * old = new ↔ ∀ k, (old.get k).isSome = true → (new.get k).isSome = true := by
  constructor
  · intro h k
    rw [← or_eq_left, ← get_mul, h]
  · intro h
    exact ext_get fun k => get_mul.trans (or_eq_left.mpr (h k))

theorem isSome_headers : ((Frame.headers f layer).get k).isSome = true ↔ Carries f layer k := by
  have hite {c : Prop} [Decidable c] {n : ℕ} : (if c then some n else none).isSome = true ↔ c := by
    split_ifs with hc
    · exact iff_of_true rfl hc
    · exact iff_of_false (by decide) hc
  have hsome {P : Transport → Prop} {t : Transport} : P t ↔ ∃ t' ∈ some t, P t' :=
    by simp
  rw [Frame.headers, get_mul]
  cases k with
  | eth => cases transport f layer <;> exact hite
  | arp => cases transport f layer <;> exact hite
  | ipv4 => cases transport f layer <;> exact hite
  | ipv6 => cases transport f layer <;> exact hite
  | tcp =>
    rw [Carries]
    cases transport f layer with
    | none => exact iff_of_false Bool.false_ne_true (by simp)
    | some t =>
      have htcp : ((carried (some t)).get .tcp).or none = if t.IsTcp then some t.start else none := Option.or_none
      exact (congrArg (·.isSome = true) htcp).to_iff.trans (hite.trans hsome)
  | udp =>
    rw [Carries]
    cases transport f layer with
    | none => exact iff_of_false Bool.false_ne_true (by simp)
    | some t =>
      have hudp : ((carried (some t)).get .udp).or none = if t.IsUdp then some t.start else none := Option.or_none
      exact (congrArg (·.isSome = true) hudp).to_iff.trans (hite.trans hsome)

end carries

namespace Packet
variable {layer layer' : PacketLayer}

theorem sniff_spec (packet : Packet) (f : List UInt8) (hlayer : layer = .ethernet ∨ layer = .ip) : ∃ r next,
    packet.sniff f layer = .ok (r, next) ∧ next.buffer.length = packet.buffer.length ∧
      next.headers = Frame.headers (f.take packet.buffer.length) layer * packet.headers ∧
      (r = .ok ↔ Accepted (f.take packet.buffer.length) layer) ∧ (r = .ok ∨ r = .bad) := by
  have hlen : (f.take packet.buffer.length).length ≤ packet.buffer.length := List.length_take_le _ _
  have hstore : (store packet.buffer 0 (f.take packet.buffer.length)).length = packet.buffer.length := length_store (by omega)
  obtain ⟨r, new, hrun, rfl, haccepted, hresult⟩ := parsePacket_spec (Int.natCast_nonneg (f.take packet.buffer.length).length)
    (Int.ofNat_le.mpr (Nat.le_trans hlen (Nat.le_of_eq hstore.symm))) hlayer
  have hframe : (store packet.buffer 0 (f.take packet.buffer.length)).take (f.take packet.buffer.length).length =
      f.take packet.buffer.length := by
    have hslice := slice_store_zero packet.buffer (f.take packet.buffer.length)
    rwa [slice_zero] at hslice
  rw [Int.toNat_natCast, hframe] at hrun haccepted
  refine ⟨r.result, ⟨_, _⟩, ?_, hstore, rfl, haccepted, hresult⟩
  unfold sniff receive parse
  dsimp only
  rw [hrun packet.headers]
  rfl

/-- The result and the header pointers for the frame `g`, after the frame `f` was received and parsed. -/
def second (bufferBytes : ℕ) (f : List UInt8) (layer : PacketLayer) (g : List UInt8) (layer' : PacketLayer) :
    Except Fault (ParseResult × Headers) := do
  let (_, packet) ← (new bufferBytes).sniff f layer
  let (r, packet) ← packet.sniff g layer'
  return (r, packet.headers)

def alone (bufferBytes : ℕ) (g : List UInt8) (layer : PacketLayer) : Except Fault (ParseResult × Headers) := do
  let (r, packet) ← (new bufferBytes).sniff g layer
  return (r, packet.headers)

/-- Parsing a frame depends on the frame before it exactly when that one has a header that this one has not. -/
theorem second_eq_alone (bufferBytes : ℕ) (f g : List UInt8) (hlayer : layer = .ethernet ∨ layer = .ip)
    (hlayer' : layer' = .ethernet ∨ layer' = .ip) :
    (∃ out, alone bufferBytes g layer' = .ok out) ∧ (second bufferBytes f layer g layer' = alone bufferBytes g layer' ↔
      ∀ k, Carries (f.take bufferBytes) layer k → Carries (g.take bufferBytes) layer' k) := by
  have hnew : (new bufferBytes).buffer.length = bufferBytes := List.length_replicate
  obtain ⟨r, packet, hrun, hlen, hheaders, -⟩ := sniff_spec (new bufferBytes) f hlayer
  obtain ⟨r₁, packet₁, hrun₁, -, hheaders₁, hok₁, hresult₁⟩ := sniff_spec packet g hlayer'
  obtain ⟨r₂, packet₂, hrun₂, -, hheaders₂, hok₂, hresult₂⟩ := sniff_spec (new bufferBytes) g hlayer'
  rw [hlen, hnew] at hheaders₁ hok₁
  rw [hnew] at hheaders hheaders₂ hok₂
  have hone (h : Headers) : h * (new bufferBytes).headers = h := mul_one h
  rw [hone] at hheaders hheaders₂
  rw [hheaders] at hheaders₁
  have hr : r₁ = r₂ := by
    obtain rfl | rfl := hresult₁
    · exact (hok₂.mpr (hok₁.mp rfl)).symm
    · obtain rfl | rfl := hresult₂
      · exact hok₁.mpr (hok₂.mp rfl)
      · rfl
  have hsecond : second bufferBytes f layer g layer' = .ok (r₁, packet₁.headers) := by
    unfold second
    rw [hrun]
    change ((packet.sniff g layer') >>= _) = _
    rw [hrun₁]
    rfl
  have halone : alone bufferBytes g layer' = .ok (r₂, packet₂.headers) := by
    unfold alone
    rw [hrun₂]
    rfl
  refine ⟨⟨_, halone⟩, ?_⟩
  rw [hsecond, halone, hheaders₁, hheaders₂, hr, Except.ok.injEq, Prod.mk.injEq, eq_self, true_and, mul_eq_left]
  exact forall_congr' fun k => imp_congr isSome_headers isSome_headers

/-- An ARP request. -/
def arpFrame : List UInt8 := List.replicate 12 0 ++ [8, 6, 0, 1, 8, 0, 6, 4, 0, 1] ++ List.replicate 20 0

/-- After an ARP request the pointer to its header is left, and a UDP datagram is printed as ARP. -/
theorem second_ne_alone :
    second 64 arpFrame .ethernet udpFrame .ethernet = .ok (.ok, { eth := some 0, arp := some 14, ipv6 := some 14, udp := some 54 }) ∧
      alone 64 udpFrame .ethernet = .ok (.ok, { eth := some 0, ipv6 := some 14, udp := some 54 }) ∧
      second 64 arpFrame .ethernet udpFrame .ethernet ≠ alone 64 udpFrame .ethernet ∧
      Headers.stringified { eth := some 0, arp := some 14, ipv6 := some 14, udp := some 54 } = some .arp ∧
      Headers.stringified { eth := some 0, ipv6 := some 14, udp := some 54 } = some .udp := by
  have hsecond : second 64 arpFrame .ethernet udpFrame .ethernet =
      .ok (.ok, { eth := some 0, arp := some 14, ipv6 := some 14, udp := some 54 }) := by decide +kernel
  have halone : alone 64 udpFrame .ethernet = .ok (.ok, { eth := some 0, ipv6 := some 14, udp := some 54 }) := by decide +kernel
  exact ⟨hsecond, halone, by rw [hsecond, halone]; decide, rfl, rfl⟩

/-- A UDP datagram after another one. -/
theorem second_eq_alone_sample : second 64 udpFrame .ethernet udpFrame .ethernet = alone 64 udpFrame .ethernet :=
  (second_eq_alone 64 udpFrame udpFrame (.inl rfl) (.inl rfl)).2.mpr fun _ h => h

end Packet
end Yjc.Sniffer
