import Yjc.Lib.CInt
import Yjc.Netlink.Attr

/-! The replies of the kernel, in `netlink/nl_kernel.c`. -/

namespace Yjc.Netlink
open Mem

def nlmsgError : ℕ := 2

def nlmsgDone : ℕ := 3

def nlmFMulti : ℕ := 2

def rtmNewroute : ℕ := 24

def rtmDelroute : ℕ := 25

structure Nlmsghdr where
  nlmsgLen : ℕ
  nlmsgType : ℕ
  nlmsgFlags : ℕ
  nlmsgSeq : ℕ
  nlmsgPid : ℕ

/-- The header at `h`; `none` for a read outside of the memory. -/
def nlmsghdr (m : List UInt8) (h : ℕ) : Option Nlmsghdr := do
  let nlmsgLen ← LittleEndian.read m h 4
  let nlmsgType ← LittleEndian.read m (h + 4) 2
  let nlmsgFlags ← LittleEndian.read m (h + 6) 2
  let nlmsgSeq ← LittleEndian.read m (h + 8) 4
  let nlmsgPid ← LittleEndian.read m (h + 12) 4
  return ⟨nlmsgLen, nlmsgType, nlmsgFlags, nlmsgSeq, nlmsgPid⟩

/-- The errors that occur because of races, or for types that the kernel does not support: `ENODEV` and `ESRCH`, `ENETDOWN` and `EEXIST`,
and `EOPNOTSUPP`. -/
def ignorable (msgType : ℕ) (errnum : ℤ) : Bool :=
  msgType = rtmDelroute ∧ (-errnum = 19 ∨ -errnum = 3) ∨ msgType = rtmNewroute ∧ (-errnum = 100 ∨ -errnum = 17) ∨ -errnum = 95

/-- `none` for undefined behaviour: a read outside of the memory, or the end of the function without a return value, which its caller
uses. -/
def netlinkParseError (m : List UInt8) (h : ℕ) (hdr : Nlmsghdr) : Option ℤ := do
  let errnum := cInt (← LittleEndian.read m (h + 16) 4)
  let msgType ← LittleEndian.read m (h + 24) 2
  if hdr.nlmsgLen < 36 then some (-1)
  else if errnum = 0 then some 1
  else if ignorable msgType errnum then some 0
  else none

/-- A filter, or none for `NULL`: what a call returns is a function of the messages of all calls so far. -/
abbrev Filter := Option (List (List UInt8) → ℤ)

/-- The loop over the messages of a datagram: the place of the message, the bytes that are left, the messages that the filter has been
called on, and `ret`. -/
structure Walk where
  h : ℕ
  status : ℤ
  calls : List (List UInt8)
  ret : ℤ

/-- The loop over the messages ends the function, with undefined behaviour for `none`, or the loop is over. -/
inductive Exit
  | returned (r : Option (List (List UInt8) × ℤ))
  | over (status : ℤ) (calls : List (List UInt8)) (ret : ℤ)

def callFilter (filter : Filter) (msg : List UInt8) (calls : List (List UInt8)) (ret : ℤ) : List (List UInt8) × ℤ :=
  match filter with
  | none => (calls, ret)
  | some f => (calls ++ [msg], if f (calls ++ [msg]) < 0 then f (calls ++ [msg]) else ret)

/-- A round, on a datagram from `nlPid`. -/
def messageRound (m : List UInt8) (nlPid : ℕ) (filter : Filter) (s : Walk) : Walk ⊕ Exit :=
  if s.status < 16 then .inr (.over s.status s.calls s.ret)
  else
    match nlmsghdr m s.h with
    | none => .inr (.returned none)
    | some hdr =>
      let next (calls : List (List UInt8)) (ret : ℤ) : Walk ⊕ Exit :=
        .inl ⟨s.h + align hdr.nlmsgLen, s.status - align hdr.nlmsgLen, calls, ret⟩
      if hdr.nlmsgLen < 16 ∨ s.status < hdr.nlmsgLen then .inr (.over s.status s.calls s.ret)
      else if hdr.nlmsgType = nlmsgDone then .inr (.returned (some (s.calls, s.ret)))
      else if hdr.nlmsgType = nlmsgError then
        match netlinkParseError m s.h hdr with
        | none => .inr (.returned none)
        | some err =>
          if err = 1 then
            if hdr.nlmsgFlags &&& nlmFMulti = 0 then .inr (.returned (some (s.calls, 0))) else next s.calls s.ret
          else .inr (.returned (some (s.calls, err)))
      else if nlPid ≠ 0 then next s.calls s.ret
      else
        let (calls, ret) := callFilter filter (slice m s.h (s.h + hdr.nlmsgLen)) s.calls s.ret
        next calls ret

/-- A datagram with its sender. Its length is an `int`. -/
structure Datagram where
  nlPid : ℕ
  bytes : List UInt8
  fits : bytes.length < 2 ^ 31

/-- The buffer grows to the length of the datagram. -/
def netlinkRecvmsg (buf : List UInt8) (d : Datagram) : List UInt8 × ℤ :=
  (d.bytes ++ buf.drop d.bytes.length, if d.bytes.length = 0 then -1 else d.bytes.length)

/-- The datagrams are those that are received before the socket is drained. The buffer holds each of them, so that `MSG_TRUNC` is never
set. -/
def netlinkParseInfo (filter : Filter) : List UInt8 → List Datagram → List (List UInt8) → ℤ → Option (List (List UInt8) × ℤ)
  | _, [], calls, ret => some (calls, ret)
  | buf, d :: ds, calls, ret =>
    let (buf, status) := netlinkRecvmsg buf d
    if status = -1 then some (calls, -1)
    else
      match Loop.run (messageRound buf d.nlPid filter) (d.bytes.length + 1) ⟨0, status, calls, ret⟩ with
      | none => none
      | some (.returned r) => r
      | some (.over status calls ret) => if status ≠ 0 then some (calls, -1) else netlinkParseInfo filter buf ds calls ret

end Yjc.Netlink
