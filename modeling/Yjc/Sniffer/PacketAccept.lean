import Mathlib.Data.Nat.Bitwise
import Yjc.Sniffer.PacketParser

/-! The frames that `parse_packet` accepts, by their fields alone. -/

namespace Yjc.Sniffer
open Mem Checksum Sniffer.Frame

namespace Frame
variable (f : List UInt8) (p : ℕ)

/-- A TCP segment, or a UDP datagram, of the length that the network header gives. -/
def Layer4WellFormed (protocol start len : ℕ) : Prop :=
  (protocol = 6 ∧ 20 ≤ dataOffset f start ∧ dataOffset f start ≤ len) ∨
    (protocol = 17 ∧ wordAt f (start + 4) = len ∧ 8 ≤ len)

def moreFragments : Bool := (wordAt f (p + 6)).testBit 13

def fragmentOffset : ℕ := wordAt f (p + 6) % 2 ^ 13

def Ipv4WellFormed : Prop :=
  version f p = 4 ∧ 20 ≤ ihl f p ∧ ihl f p ≤ totalLength f p ∧ totalLength f p ≤ f.length - p ∧ moreFragments f p = false ∧
    fragmentOffset f p = 0 ∧ networkSum (slice f p (p + ihl f p)) = 0xffff ∧
      Layer4WellFormed f (byteAt f (p + 9)) (p + ihl f p) (totalLength f p - ihl f p)

def Ipv6WellFormed : Prop :=
  version f p = 6 ∧ 40 + payloadLength f p ≤ f.length - p ∧
    Layer4WellFormed f (byteAt f (p + 6)) (p + 40) (payloadLength f p)

/-- An Ethernet frame with an ARP packet, or with a segment or datagram over IP, where every length fits into the one around it. -/
def WellFormed : Prop :=
  14 ≤ f.length ∧
    ((wordAt f 12 = 0x0806 ∧ ArpWhole f 14) ∨ (wordAt f 12 = 0x0800 ∧ Ipv4WellFormed f 14) ∨ (wordAt f 12 = 0x86dd ∧ Ipv6WellFormed f 14))

instance (protocol start len : ℕ) : Decidable (Layer4WellFormed f protocol start len) := inferInstanceAs (Decidable (_ ∨ _))
instance : Decidable (Ipv4WellFormed f p) := inferInstanceAs (Decidable (_ ∧ _))
instance : Decidable (Ipv6WellFormed f p) := inferInstanceAs (Decidable (_ ∧ _))
instance : Decidable (WellFormed f) := inferInstanceAs (Decidable (_ ∧ _))

variable {f p}

theorem whole_iff {protocol start stop len : ℕ} (h : stop = start + len) :
    Transport.Whole f ⟨protocol, start, stop⟩ ↔ Layer4WellFormed f protocol start len := by
  subst h
  unfold Transport.Whole Layer4WellFormed Transport.IsTcp Transport.IsUdp
  dsimp only
  omega

theorem checksum_ok_iff (x : List UInt8) : inCksumv [x] = 0 ↔ networkSum x = 0xffff := by
  have hle : onesSum x ≤ 0xffff := by
    rw [onesSum_eq]
    exact OnesComplement.rep_le (by decide)
  rw [← onesSum_ones_iff, inCksumv_eq, List.flatten_singleton, Nat.sub_eq_zero_iff_le]
  exact ⟨fun hge => Nat.le_antisymm hle hge, fun h => h.ge⟩

theorem moreFragments_iff : wordAt f (p + 6) &&& 0x2000 = 0 ↔ moreFragments f p = false := by
  have hbit : wordAt f (p + 6) &&& 2 ^ 13 = (moreFragments f p).toNat * 2 ^ 13 := Nat.and_two_pow _ _
  rw [show 0x2000 = 2 ^ 13 from rfl, hbit]
  cases moreFragments f p <;> decide

theorem fragmentOffset_iff : wordAt f (p + 6) &&& 0x1fff = 0 ↔ fragmentOffset f p = 0 := by
  rw [fragmentOffset, ← Nat.and_two_pow_sub_one_eq_mod]

theorem ipv4Transport_whole_iff : (∃ t ∈ ipv4Transport f p, t.Whole f) ↔
    Ipv4Whole f p ∧ Layer4WellFormed f (byteAt f (p + 9)) (p + ihl f p) (totalLength f p - ihl f p) := by
  rw [ipv4Transport]
  split_ifs with h
  · have hle := h.2.1
    have hstop : p + totalLength f p = p + ihl f p + (totalLength f p - ihl f p) := by omega
    simp only [Option.mem_some_iff, exists_eq_left', h, true_and, whole_iff hstop]
  · exact iff_of_false (by simp) fun hwhole => h hwhole.1

theorem ipv6Transport_whole_iff : (∃ t ∈ ipv6Transport f p, t.Whole f) ↔
    p + 40 + payloadLength f p ≤ f.length ∧ Layer4WellFormed f (byteAt f (p + 6)) (p + 40) (payloadLength f p) := by
  rw [ipv6Transport]
  split_ifs with h
  · simp only [Option.mem_some_iff, exists_eq_left', h, true_and, whole_iff rfl]
  · exact iff_of_false (by simp) fun hwhole => h hwhole.1

theorem transport_whole_iff {layer : PacketLayer} : (∃ t ∈ transport f layer, t.Whole f) ↔
    (IsIpv4 f layer ∧ ∃ t ∈ ipv4Transport f (net layer), t.Whole f) ∨ (IsIpv6 f layer ∧ ∃ t ∈ ipv6Transport f (net layer), t.Whole f) := by
  rw [transport]
  split_ifs with hip hip6
  · have hnot : ¬IsIpv6 f layer := fun hip6 => hip6.not_ipv4 hip
    rw [and_iff_right hip, or_iff_left fun h => hnot h.1]
  · rw [and_iff_right hip6, or_iff_right fun h => hip h.1]
  · refine iff_of_false (by simp) fun h => ?_
    exact h.elim (fun h => hip h.1) fun h => hip6 h.1

theorem ipv4WellFormed_iff (hp : p ≤ f.length) :
    Ipv4WellFormed f p ↔ (p + 20 ≤ f.length ∧ version f p = 4) ∧ ∃ t ∈ ipv4Transport f p, t.Whole f := by
  -- that the first twenty bytes are there follows from the lengths
  rw [ipv4Transport_whole_iff, Ipv4Whole, moreFragments_iff, fragmentOffset_iff, checksum_ok_iff, Ipv4WellFormed]
  constructor
  · rintro ⟨hversion, hmin, hle, hfits, hlast, hfirst, hsum, hlayer4⟩
    exact ⟨⟨by omega, hversion⟩, ⟨hmin, hle, by omega, hlast, hfirst, hsum⟩, hlayer4⟩
  · rintro ⟨⟨-, hversion⟩, ⟨hmin, hle, hfits, hlast, hfirst, hsum⟩, hlayer4⟩
    exact ⟨hversion, hmin, hle, by omega, hlast, hfirst, hsum, hlayer4⟩

theorem ipv6WellFormed_iff (hp : p ≤ f.length) :
    Ipv6WellFormed f p ↔ (p + 40 ≤ f.length ∧ version f p = 6) ∧ ∃ t ∈ ipv6Transport f p, t.Whole f := by
  rw [ipv6Transport_whole_iff, Ipv6WellFormed]
  constructor
  · rintro ⟨hversion, hfits, hlayer4⟩
    exact ⟨⟨by omega, hversion⟩, by omega, hlayer4⟩
  · rintro ⟨⟨-, hversion⟩, hfits, hlayer4⟩
    exact ⟨hversion, by omega, hlayer4⟩

theorem isIpv4_iff : IsIpv4 f .ethernet ↔ wordAt f 12 = 0x0800 ∧ 34 ≤ f.length ∧ version f 14 = 4 :=
  ⟨fun h => ⟨h.2.1 rfl, h.1, h.2.2⟩, fun h => ⟨h.2.1, fun _ => h.1, h.2.2⟩⟩

theorem isIpv6_iff : IsIpv6 f .ethernet ↔ wordAt f 12 = 0x86dd ∧ 54 ≤ f.length ∧ version f 14 = 6 := by
  constructor
  · rintro ⟨-, htype, hversion⟩
    exact ⟨(htype rfl).1, (htype rfl).2, hversion⟩
  · rintro ⟨htype, hfits, hversion⟩
    exact ⟨Nat.le_trans (by decide) hfits, fun _ => ⟨htype, hfits⟩, hversion⟩

theorem isArp_iff : IsArp f .ethernet ↔ wordAt f 12 = 0x0806 ∧ ArpWhole f 14 := and_iff_right rfl

theorem accepted_iff : Accepted f .ethernet ↔ WellFormed f := by
  have hlength (h : Accepted f .ethernet) : 14 ≤ f.length := net_le_length h
  rw [← and_iff_right_of_imp hlength]
  refine and_congr_right fun heth => ?_
  rw [Accepted, isArp_iff, transport_whole_iff, isIpv4_iff, isIpv6_iff, ipv4WellFormed_iff heth, ipv6WellFormed_iff heth]
  exact or_congr_right (or_congr and_assoc and_assoc)

end Frame

/-- A fresh packet with any bytes in it is accepted as an Ethernet frame exactly when these are well formed. -/
theorem parse_packet_accepts {buffer : List UInt8} {bufferActive : ℕ} (h : bufferActive ≤ buffer.length) :
    ∃ r packet, (parsePacket buffer bufferActive .ethernet).run {} = .ok (r, packet) ∧
      (r.result = .ok ↔ WellFormed (buffer.take bufferActive)) := by
  obtain ⟨r, new, hrun, -, haccepted, -⟩ := parsePacket_spec (Int.natCast_nonneg _) (Int.ofNat_le.mpr h) (.inl rfl)
  exact ⟨r, _, hrun {}, haccepted.trans accepted_iff⟩

theorem parse_packet_accepts_sample :
    ∃ r packet, (parsePacket udpFrame (62 : ℕ) .ethernet).run {} = .ok (r, packet) ∧ (r.result = .ok ↔ WellFormed (udpFrame.take 62)) :=
  parse_packet_accepts (by decide)

example : WellFormed udpFrame := by decide +kernel

end Yjc.Sniffer
