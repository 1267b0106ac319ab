import Yjc.Lib.Run
import Yjc.Netlink.Message

/-! The requests on a Netlink socket, in `netlink/nl_kernel.c`. Of `netlink_talk` it is the part up to the send; the rest is
`netlink_parse_info`, which leaves the counter and the messages as they are. -/

namespace Yjc.Netlink

structure Nlsock where
  sock : ℤ
  seq : ℤ
  nlPid : ℕ
  fits : -2 ^ 31 ≤ seq ∧ seq < 2 ^ 31

/-- `++nl->seq` on an `int`; `none` for an overflow. -/
def Nlsock.next (nl : Nlsock) : Option Nlsock :=
  if h : nl.seq + 1 < 2 ^ 31 then some { nl with seq := nl.seq + 1, fits := ⟨by have := nl.fits; omega, h⟩ } else none

/-- The conversion to a `__u32`. -/
def u32 (n : ℤ) : ℕ := (n % 2 ^ 32).toNat

/-- A message that is handed to `netlink_sendmsg`, and `nl->seq` at that moment. -/
structure Sent where
  nlmsgSeq : ℕ
  seq : ℤ

/-- The socket, the messages of the caller by their address, and what has been sent. -/
structure Client where
  nl : Nlsock
  msgs : ℕ → Nlmsghdr
  sent : List Sent

namespace Client

/-- The message at `n` becomes `hdr`. -/
def setMsg (c : Client) (n : ℕ) (hdr : Nlmsghdr) : Client := { c with msgs := Function.update c.msgs n hdr }

def netlinkSendmsg (c : Client) (n : ℕ) : Client := { c with sent := c.sent ++ [⟨(c.msgs n).nlmsgSeq, c.nl.seq⟩] }

def netlinkRequest (c : Client) (n : ℕ) : Option Client :=
  if c.nl.sock < 0 then some c
  else c.nl.next.map fun nl =>
    (({ c with nl }).setMsg n { c.msgs n with nlmsgPid := nl.nlPid, nlmsgSeq := u32 nl.seq }).netlinkSendmsg n

def netlinkTalk (c : Client) (n : ℕ) : Option Client :=
  c.nl.next.map fun nl => (({ c with nl }).setMsg n { c.msgs n with nlmsgPid := nl.nlPid }).netlinkSendmsg n

end Client

/-- The caller writes a message, or calls one of the functions. -/
inductive ClientOp
  | fill (n : ℕ) (hdr : Nlmsghdr)
  | request (n : ℕ)
  | talk (n : ℕ)

def clientStep (c : Client) : ClientOp → Option Client
  | .fill n hdr => some (c.setMsg n hdr)
  | .request n => c.netlinkRequest n
  | .talk n => c.netlinkTalk n

/-- Every message carries the number of its moment, and no two have the same. -/
def Fresh (c : Client) : Prop := (∀ s ∈ c.sent, s.nlmsgSeq = u32 s.seq) ∧ (c.sent.map Sent.nlmsgSeq).Nodup

/-- The counter does not overflow, and a message that `netlink_talk` gets carries the next number already. -/
def Stamped (c : Client) : ClientOp → Prop
  | .fill _ _ => True
  | .request _ => c.nl.sock < 0 ∨ c.nl.seq + 1 < 2 ^ 31
  | .talk n => c.nl.seq + 1 < 2 ^ 31 ∧ (c.msgs n).nlmsgSeq = u32 (c.nl.seq + 1)

structure Counted (c : Client) : Prop where
  stamped : ∀ s ∈ c.sent, s.nlmsgSeq = u32 s.seq
  bounded : ∀ s ∈ c.sent, -2 ^ 31 ≤ s.seq ∧ s.seq ≤ c.nl.seq
  rising : c.sent.Pairwise fun s t => s.seq < t.seq

variable {c c' : Client} {op : ClientOp} {n : ℕ}

theorem u32_inj {m n : ℤ} (hm : -2 ^ 31 ≤ m ∧ m < 2 ^ 31) (hn : -2 ^ 31 ≤ n ∧ n < 2 ^ 31) (h : u32 m = u32 n) : m = n := by
  unfold u32 at h
  omega

theorem Counted.fresh (h : Counted c) : Fresh c := by
  refine ⟨h.stamped, List.pairwise_map.mpr ?_⟩
  refine h.rising.imp_of_mem fun {s t} hs ht hlt heq => ?_
  have hfits := c.nl.fits
  have hsb := h.bounded s hs
  have htb := h.bounded t ht
  rw [h.stamped s hs, h.stamped t ht] at heq
  have := u32_inj ⟨hsb.1, by omega⟩ ⟨htb.1, by omega⟩ heq
  omega

theorem Counted.send (h : Counted c) (hsent : c'.sent = c.sent ++ [⟨u32 (c.nl.seq + 1), c.nl.seq + 1⟩])
    (hseq : c'.nl.seq = c.nl.seq + 1) : Counted c' := by
  have hfits := c.nl.fits
  constructor
  · rw [hsent]
    exact List.forall_mem_append.mpr ⟨h.stamped, List.forall_mem_singleton.mpr rfl⟩
  · rw [hsent, hseq]
    refine List.forall_mem_append.mpr ⟨fun s hs => ?_, List.forall_mem_singleton.mpr ⟨?_, Int.le_refl _⟩⟩
    · have := h.bounded s hs
      omega
    · dsimp only
      omega
  · rw [hsent]
    refine List.pairwise_append.mpr ⟨h.rising, List.pairwise_singleton _ _, fun s hs t ht => ?_⟩
    obtain rfl := List.mem_singleton.mp ht
    exact Int.lt_add_one_of_le (h.bounded s hs).2

theorem next_eq (h : c.nl.seq + 1 < 2 ^ 31) : ∃ nl, c.nl.next = some nl ∧ nl.seq = c.nl.seq + 1 := ⟨_, dif_pos h, rfl⟩

theorem next_eq_none (h : ¬c.nl.seq + 1 < 2 ^ 31) : c.nl.next = none := dif_neg h

theorem clientStep_counted (h : Counted c) (hop : Stamped c op) : ∃ c', clientStep c op = some c' ∧ Counted c' := by
  cases op with
  | fill n hdr => exact ⟨_, rfl, h.stamped, h.bounded, h.rising⟩
  | request n =>
    rw [clientStep, Client.netlinkRequest]
    by_cases hsock : c.nl.sock < 0
    · exact ⟨c, if_pos hsock, h⟩
    · obtain ⟨nl, hnl, hseq⟩ := next_eq (hop.resolve_left hsock)
      rw [if_neg hsock, hnl]
      refine ⟨_, rfl, h.send ?_ hseq⟩
      simp only [Client.netlinkSendmsg, Client.setMsg, Function.update_self, hseq]
  | talk n =>
    obtain ⟨nl, hnl, hseq⟩ := next_eq hop.1
    rw [clientStep, Client.netlinkTalk, hnl]
    refine ⟨_, rfl, h.send ?_ hseq⟩
    simp only [Client.netlinkSendmsg, Client.setMsg, Function.update_self, hseq, hop.2]

theorem clientStep_stale (hop : ¬Stamped c op) (h : clientStep c op = some c') : ¬Fresh c' := by
  cases op with
  | fill n hdr => exact absurd trivial hop
  | request n =>
    obtain ⟨hsock, hseq⟩ := not_or.mp hop
    rw [clientStep, Client.netlinkRequest, if_neg hsock, next_eq_none hseq] at h
    cases h
  | talk n =>
    rw [clientStep, Client.netlinkTalk] at h
    by_cases hlt : c.nl.seq + 1 < 2 ^ 31
    · obtain ⟨nl, hnl, hseq⟩ := next_eq hlt
      rw [hnl] at h
      cases h
      intro hfresh
      have hlast := hfresh.1 ⟨(c.msgs n).nlmsgSeq, nl.seq⟩ (by
        simp only [Client.netlinkSendmsg, Client.setMsg, Function.update_self]
        exact List.mem_append_right _ List.mem_cons_self)
      exact hop ⟨hlt, by rw [← hseq]; exact hlast⟩
    · rw [next_eq_none hlt] at h
      cases h

/-- A socket from which nothing has been sent yet. -/
def Client.start (nl : Nlsock) (msgs : ℕ → Nlmsghdr) : Client := ⟨nl, msgs, []⟩

/-- In every state of a run all numbers are fresh, exactly when each message that `netlink_talk` gets carries the next one already and the
counter does not overflow. -/
theorem requests_fresh (nl : Nlsock) (msgs : ℕ → Nlmsghdr) (ops : List ClientOp) :
    Run.Along clientStep Stamped (Client.start nl msgs) ops ↔
      ∀ p, p <+: ops → ∃ c, Run.exec clientStep (Client.start nl msgs) p = some c ∧ Fresh c :=
  Run.along_iff_prefixes Counted (fun _ _ h _ hop => clientStep_counted h hop) (fun _ => Counted.fresh)
    (fun _ _ _ _ _ hop h => clientStep_stale hop h) ⟨nofun, nofun, List.Pairwise.nil⟩
    (Run.along_of_forall (fun _ _ => trivial) _ _)

/-- Two messages with zeroed headers, one after the other. -/
theorem talk_unstamped : ∃ c, Run.exec clientStep (Client.start ⟨3, 0, 0, by decide⟩ fun _ => ⟨28, 24, 5, 0, 0⟩) [.talk 0, .talk 1] = some c ∧
    c.sent = [⟨0, 1⟩, ⟨0, 2⟩] ∧ ¬Fresh c := by
  refine ⟨_, rfl, rfl, fun h => ?_⟩
  exact absurd h.2 (by decide)

end Yjc.Netlink
