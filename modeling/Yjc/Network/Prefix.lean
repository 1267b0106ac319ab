import Yjc.Lib.BitPrefix
import Yjc.Lib.LittleEndian
import Yjc.Lib.ThreeWay

/-! Address prefixes, in `network/prefix.c`. The machine is little-endian, with pointers of 8 bytes. -/

namespace Yjc.Network
open Mem BitPrefix ThreeWay

def afUnspec : UInt8 := 0

def afInet : UInt8 := 2

def afInet6 : UInt8 := 10

def afEthernet : UInt8 := 17

/-- `AF_MAX + 1`. -/
def afEvpn : UInt8 := 47

/-- `AF_MAX + 2`. -/
def afFlowspec : UInt8 := 48

abbrev numcmp : ℕ → ℕ → ℤ := threeWay

/-- The readable bytes by their addresses. -/
abbrev Memory := ℕ → Option UInt8

/-- `struct prefix`: `u` is the bytes of the union, of which `evpn_addr` is the largest member. -/
structure Prefix where
  family : UInt8
  prefixlen : UInt16
  u : List UInt8
  length_u : u.length = 48
deriving DecidableEq

namespace Prefix

/-- `u.val[i]`; `none` outside of the union. -/
def val (p : Prefix) (i : ℕ) : Option UInt8 := p.u[i]?

def byte (p : Prefix) (i : ℕ) : UInt8 := p.u.getD i 0

def setByte (p : Prefix) (i : ℕ) (b : UInt8) : Prefix := { p with u := p.u.set i b, length_u := by rw [List.length_set, p.length_u] }

/-- The bytes `bs` written from byte `i` of the union on. -/
def put (p : Prefix) (i : ℕ) : List UInt8 → Prefix
  | [] => p
  | b :: bs => (p.setByte i b).put (i + 1) bs

/-- `u.prefix_flowspec.family` -/
def fsFamily (p : Prefix) : UInt8 := p.byte 0

/-- `u.prefix_flowspec.prefixlen`, in bytes -/
def fsPrefixlen (p : Prefix) : ℕ := LittleEndian.value (slice p.u 2 4)

/-- `u.prefix_flowspec.ptr` -/
def fsPtr (p : Prefix) : ℕ := LittleEndian.value (slice p.u 8 16)

/-- The bytes from `&u.prefix_flowspec.ptr` on. -/
def ptrBytes (p : Prefix) (i : ℕ) : Option UInt8 := p.val (8 + i)

def cut (p : Prefix) (len : UInt16) : Prefix := { p with prefixlen := len }

end Prefix

def zeroPrefix : Prefix := ⟨afUnspec, 0, List.replicate 48 0, by decide⟩

def maskbit (shift : ℕ) : UInt8 := [0x00, 0x80, 0xc0, 0xe0, 0xf0, 0xf8, 0xfc, 0xfe, 0xff].getD shift 0

/-- `while (offset--) if (np[offset] != pp[offset]) return 0; return 1;` -/
def sameDown (np pp : ℕ → Option UInt8) : ℕ → Option ℤ
  | 0 => some 1
  | offset + 1 => do
    if (← np offset) ≠ (← pp offset) then some 0 else sameDown np pp offset

/-- `none` for a read outside of the prefixes. -/
def prefixMatch (n p : Prefix) : Option ℤ :=
  if p.prefixlen < n.prefixlen then some 0
  else if n.family = afFlowspec then
    if n.fsFamily ≠ p.fsFamily then some 0
    else if p.fsPrefixlen < n.fsPrefixlen then some 0
    else sameDown n.ptrBytes p.ptrBytes n.fsPrefixlen
  else
    let offset := n.prefixlen.toNat / 8
    let shift := n.prefixlen.toNat % 8
    if shift ≠ 0 then do
      if maskbit shift &&& ((← n.val offset) ^^^ (← p.val offset)) ≠ 0 then some 0 else sameDown n.val p.val offset
    else sameDown n.val p.val offset

/-- The `n` bytes at `a`, when they can be read. -/
def readBytes (a : ℕ → Option UInt8) (n : ℕ) : Option (List UInt8) := (List.range n).mapM a

/-- Only the sign of what the library's function returns is specified. -/
def compareBytes : List UInt8 → List UInt8 → ℤ
  | a :: s, b :: t => if a ≠ b then numcmp a.toNat b.toNat else compareBytes s t
  | _, _ => 0

def memcmp (a b : ℕ → Option UInt8) (n : ℕ) : Option ℤ := do return compareBytes (← readBytes a n) (← readBytes b n)

/-- `while (offset--) if (pp1[offset] != pp2[offset]) return numcmp(pp1[offset], pp2[offset]); return 0;` -/
def compareDown (pp1 pp2 : ℕ → Option UInt8) : ℕ → Option ℤ
  | 0 => some 0
  | offset + 1 => do
    let b1 ← pp1 offset
    let b2 ← pp2 offset
    if b1 ≠ b2 then some (numcmp b1.toNat b2.toNat) else compareDown pp1 pp2 offset

/-- The flowspec bytes are read through their pointers. -/
def prefixCmp (mem : Memory) (p1 p2 : Prefix) : Option ℤ :=
  if p1.family ≠ p2.family then some (numcmp p1.family.toNat p2.family.toNat)
  else if p1.family = afFlowspec then
    if p1.fsFamily ≠ p2.fsFamily then some 1
    else if p1.fsPrefixlen ≠ p2.fsPrefixlen then some (numcmp p1.fsPrefixlen p2.fsPrefixlen)
    else compareDown (fun i => mem (p1.fsPtr + i)) (fun i => mem (p2.fsPtr + i)) p1.fsPrefixlen
  else if p1.prefixlen ≠ p2.prefixlen then some (numcmp p1.prefixlen.toNat p2.prefixlen.toNat)
  else do
    let offset := p1.prefixlen.toNat / 8
    let shift := p1.prefixlen.toNat % 8
    let i ← memcmp p1.val p2.val offset
    if i ≠ 0 then some i
    else if shift ≠ 0 then do
      return numcmp ((← p1.val offset) &&& maskbit shift).toNat ((← p2.val offset) &&& maskbit shift).toNat
    else some 0

/-- `for (pos = 0; pos < length; pos++) if (pp1[pos] != pp2[pos]) break;` with `left` rounds to go. -/
def firstDifference (pp1 pp2 : ℕ → Option UInt8) : (left pos : ℕ) → Option ℕ
  | 0, pos => some pos
  | left + 1, pos => do
    if (← pp1 pos) ≠ (← pp2 pos) then some pos else firstDifference pp1 pp2 left (pos + 1)

/-- `for (bit = 0; bit < 8; bit++) if (xor & (1 << (7 - bit))) break;` with `left` rounds to go. -/
def firstBit (x : UInt8) : (left bit : ℕ) → ℕ
  | 0, bit => bit
  | left + 1, bit => if x.toNat &&& 1 <<< (7 - bit) ≠ 0 then bit else firstBit x left (bit + 1)

/-- For `AF_EVPN` the length is in bits where the others are in bytes. -/
def commonLength (family : UInt8) : ℕ :=
  if family = afInet then 4 else if family = afInet6 then 16 else if family = afEthernet then 6
  else if family = afEvpn then 8 * 44 else 0

def prefixCommonBits (p1 p2 : Prefix) : Option ℤ :=
  let length := commonLength p1.family
  if p1.family ≠ p2.family ∨ length = 0 then some (-1)
  else do
    let pos ← firstDifference p1.val p2.val length 0
    if pos = length then some (pos * 8)
    else some (pos * 8 + firstBit ((← p1.val pos) ^^^ (← p2.val pos)) 8 0)

def htonl (x : UInt32) : UInt32 := x <<< 24 ||| (x &&& (0xff00 : UInt32)) <<< 8 ||| (x >>> 8 &&& (0xff00 : UInt32)) ||| x >>> 24

/-- `none` where the assertion fails. -/
def masklen2ip (masklen : ℕ) : Option UInt32 :=
  if masklen ≤ 32 then some (htonl ((0xffffffff : UInt64) <<< UInt64.ofNat (32 - masklen)).toUInt32) else none

/-- `p->prefix.s_addr` -/
def sAddr (p : Prefix) : UInt32 := UInt32.ofNat (LittleEndian.value (slice p.u 0 4))

def applyMaskIpv4 (p : Prefix) : Option Prefix := do
  let mask ← masklen2ip p.prefixlen.toNat
  return p.put 0 (LittleEndian.bytes 4 (sAddr p &&& mask).toNat)

def applyMaskIpv6 (p : Prefix) : Prefix :=
  let index := p.prefixlen.toNat / 8
  let offset := p.prefixlen.toNat % 8
  if index < 16 then (p.setByte index (p.byte index &&& maskbit offset)).put (index + 1) (List.replicate (16 - (index + 1)) 0)
  else p

def applyMask (p : Prefix) : Option Prefix :=
  if p.family = afInet then applyMaskIpv4 p
  else if p.family = afInet6 then some (applyMaskIpv6 p)
  else some p

def prefixBlen (family : UInt8) : ℕ :=
  if family = afInet then 4 else if family = afInet6 then 16 else if family = afEthernet then 6 else 0

end Yjc.Network
