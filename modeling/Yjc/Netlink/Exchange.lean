import Yjc.Netlink.Message

/-! What an exchange makes of the messages of the kernel. -/

namespace Yjc.Netlink
open Mem

/-- A message with its padding to 4 bytes. -/
structure Message where
  nlmsgType : UInt16
  nlmsgFlags : UInt16
  nlmsgSeq : UInt32
  nlmsgPid : UInt32
  payload : List UInt8
  pad : List UInt8
  padded : (16 + payload.length + pad.length) % 4 = 0 ∧ pad.length < 4

namespace Message

def nlmsgLen (msg : Message) : ℕ := 16 + msg.payload.length

def bytes (msg : Message) : List UInt8 :=
  LittleEndian.bytes 4 msg.nlmsgLen ++ (LittleEndian.bytes 2 msg.nlmsgType.toNat ++ (LittleEndian.bytes 2 msg.nlmsgFlags.toNat ++
    (LittleEndian.bytes 4 msg.nlmsgSeq.toNat ++ (LittleEndian.bytes 4 msg.nlmsgPid.toNat ++ msg.payload))))

def spelled (msg : Message) : List UInt8 := msg.bytes ++ msg.pad

def isData (msg : Message) : Bool := msg.nlmsgType.toNat ≠ nlmsgDone ∧ msg.nlmsgType.toNat ≠ nlmsgError

/-- The `error` of a `struct nlmsgerr`. -/
def errnum (msg : Message) : ℤ := cInt (LittleEndian.value (msg.payload.take 4))

def about (msg : Message) : ℕ := LittleEndian.value (slice msg.payload 8 10)

/-- An error message that is too short for a `struct nlmsgerr`. -/
def Truncated (msg : Message) : Prop := msg.nlmsgType.toNat = nlmsgError ∧ msg.nlmsgLen < 36

/-- An error that is neither an acknowledgement nor ignorable. -/
def Refused (msg : Message) : Prop :=
  msg.nlmsgType.toNat = nlmsgError ∧ 36 ≤ msg.nlmsgLen ∧ msg.errnum ≠ 0 ∧ ¬ignorable msg.about msg.errnum

instance (msg : Message) : Decidable msg.Truncated := inferInstanceAs (Decidable (_ ∧ _))

instance (msg : Message) : Decidable msg.Refused := inferInstanceAs (Decidable (_ ∧ _))

/-- With so many bytes of the buffer from it on, the message is handled without undefined behaviour. -/
def Sound (msg : Message) (room : ℕ) : Prop := ¬msg.Refused ∧ (msg.Truncated → 26 ≤ room)

instance (msg : Message) (room : ℕ) : Decidable (msg.Sound room) := inferInstanceAs (Decidable (_ ∧ _))

end Message

/-- What a message means for the exchange: it goes on, it is done, or it ends with a value. -/
inductive Verdict
  | goesOn
  | done
  | answer (code : ℤ)
  deriving DecidableEq

/-- The value that the exchange returns, with the last negative result of the filter. -/
def Verdict.code (ret : ℤ) : Verdict → ℤ
  | goesOn => ret
  | done => ret
  | answer code => code

def Message.verdict (msg : Message) : Verdict :=
  if msg.nlmsgType.toNat = nlmsgDone then .done
  else if msg.nlmsgType.toNat = nlmsgError then
    if msg.Truncated then .answer (-1)
    else if msg.errnum = 0 then if msg.nlmsgFlags.toNat &&& nlmFMulti = 0 then .answer 0 else .goesOn
    else if ignorable msg.about msg.errnum then .answer 0
    else .answer (-1)
  else .goesOn

def deliver (nlPid : ℕ) (filter : Filter) (msg : Message) (calls : List (List UInt8)) (ret : ℤ) : List (List UInt8) × ℤ :=
  if msg.isData ∧ nlPid = 0 then callFilter filter msg.bytes calls ret else (calls, ret)

/-- The messages in the order of their receipt, each with the sender of its datagram: the calls of the filter and the value. -/
def exchange (filter : Filter) : List (ℕ × Message) → List (List UInt8) → ℤ → List (List UInt8) × ℤ
  | [], calls, ret => (calls, ret)
  | (nlPid, msg) :: msgs, calls, ret =>
    if msg.verdict = .goesOn then
      exchange filter msgs (deliver nlPid filter msg calls ret).1 (deliver nlPid filter msg calls ret).2
    else (calls, msg.verdict.code ret)

/-- The first message that does not go on is handled soundly, with so many bytes of the buffer from the first message on. -/
def soundIn : ℕ → List Message → Bool
  | _, [] => true
  | room, msg :: msgs => if msg.verdict = .goesOn then soundIn (room - msg.spelled.length) msgs else msg.Sound room

structure Packet where
  nlPid : ℕ
  messages : List Message
  nonempty : messages ≠ []
  fits : (messages.flatMap Message.spelled).length < 2 ^ 31

namespace Packet

def bytes (p : Packet) : List UInt8 := p.messages.flatMap Message.spelled

def toDatagram (p : Packet) : Datagram := ⟨p.nlPid, p.bytes, p.fits⟩

def sent (p : Packet) : List (ℕ × Message) := p.messages.map fun msg => (p.nlPid, msg)

def GoesOn (p : Packet) : Prop := ∀ msg ∈ p.messages, msg.verdict = .goesOn

instance (p : Packet) : Decidable p.GoesOn := inferInstanceAs (Decidable (∀ msg ∈ p.messages, msg.verdict = .goesOn))

end Packet

/-- Likewise, over datagrams that are received with a buffer of `size` bytes. -/
def sound : ℕ → List Packet → Bool
  | _, [] => true
  | size, p :: ps =>
    if p.GoesOn then sound (max size p.bytes.length) ps else soundIn (max size p.bytes.length) p.messages

/-! ## One message -/

variable {msg : Message} {pre post : List UInt8} {calls : List (List UInt8)} {ret : ℤ}

namespace Message

theorem length_bytes (msg : Message) : msg.bytes.length = msg.nlmsgLen := by
  simp only [bytes, nlmsgLen, List.length_append, LittleEndian.length_bytes]
  omega

theorem length_spelled (msg : Message) : msg.spelled.length = msg.nlmsgLen + msg.pad.length := by
  rw [spelled, List.length_append, length_bytes]

theorem align_nlmsgLen (h : msg.spelled.length < 2 ^ 31) : align msg.nlmsgLen = msg.spelled.length := by
  obtain ⟨hpad, hlt⟩ := msg.padded
  rw [length_spelled] at h ⊢
  rw [align_eq (by omega)]
  unfold nlmsgLen at *
  omega

theorem read_field {k n i : ℕ} (before after : List UInt8) (hspelled : msg.spelled = before ++ (LittleEndian.bytes k n ++ after))
    (hi : i = pre.length + before.length) (hn : n < 2 ^ (8 * k)) : LittleEndian.read (pre ++ (msg.spelled ++ post)) i k = some n := by
  have hassoc : pre ++ (msg.spelled ++ post) = (pre ++ before) ++ (LittleEndian.bytes k n ++ (after ++ post)) := by
    rw [hspelled]
    simp only [List.append_assoc]
  rw [hassoc]
  exact LittleEndian.read_append (by rw [hi, List.length_append]) hn

theorem nlmsghdr_spelled (h : msg.nlmsgLen < 2 ^ 32) (pre post : List UInt8) : nlmsghdr (pre ++ (msg.spelled ++ post)) pre.length =
    some ⟨msg.nlmsgLen, msg.nlmsgType.toNat, msg.nlmsgFlags.toNat, msg.nlmsgSeq.toNat, msg.nlmsgPid.toNat⟩ := by
  have hlen := @read_field msg pre post 4 msg.nlmsgLen pre.length [] _ (by rw [spelled, bytes, List.append_assoc]; rfl) rfl h
  have htype := @read_field msg pre post 2 msg.nlmsgType.toNat (pre.length + 4) (LittleEndian.bytes 4 msg.nlmsgLen) _
    (by simp only [spelled, bytes, List.append_assoc]; rfl) rfl msg.nlmsgType.toNat_lt
  have hflags := @read_field msg pre post 2 msg.nlmsgFlags.toNat (pre.length + 6)
    (LittleEndian.bytes 4 msg.nlmsgLen ++ LittleEndian.bytes 2 msg.nlmsgType.toNat) _
    (by simp only [spelled, bytes, List.append_assoc]; rfl) rfl msg.nlmsgFlags.toNat_lt
  have hseq := @read_field msg pre post 4 msg.nlmsgSeq.toNat (pre.length + 8)
    (LittleEndian.bytes 4 msg.nlmsgLen ++ (LittleEndian.bytes 2 msg.nlmsgType.toNat ++ LittleEndian.bytes 2 msg.nlmsgFlags.toNat)) _
    (by simp only [spelled, bytes, List.append_assoc]; rfl) rfl msg.nlmsgSeq.toNat_lt
  have hpid := @read_field msg pre post 4 msg.nlmsgPid.toNat (pre.length + 12)
    (LittleEndian.bytes 4 msg.nlmsgLen ++ (LittleEndian.bytes 2 msg.nlmsgType.toNat ++ (LittleEndian.bytes 2 msg.nlmsgFlags.toNat ++
      LittleEndian.bytes 4 msg.nlmsgSeq.toNat))) _
    (by simp only [spelled, bytes, List.append_assoc]; rfl) rfl msg.nlmsgPid.toNat_lt
  unfold nlmsghdr
  rw [hlen, htype, hflags, hseq, hpid]
  rfl

theorem slice_bytes (msg : Message) (pre post : List UInt8) :
    slice (pre ++ (msg.spelled ++ post)) pre.length (pre.length + msg.nlmsgLen) = msg.bytes := by
  have hassoc : pre ++ (msg.spelled ++ post) = (pre ++ msg.bytes) ++ (msg.pad ++ post) := by
    rw [spelled]
    simp only [List.append_assoc]
  rw [hassoc, slice, List.take_left' (by rw [List.length_append, length_bytes]), List.drop_left]

theorem read_payload {i k : ℕ} (h : i + k ≤ msg.payload.length) (pre post : List UInt8) :
    LittleEndian.read (pre ++ (msg.spelled ++ post)) (pre.length + 16 + i) k =
      some (LittleEndian.value (slice msg.payload i (i + k))) := by
  obtain ⟨head, hhead, hspelled⟩ : ∃ head : List UInt8, head.length = 16 ∧ msg.spelled = head ++ (msg.payload ++ msg.pad) := by
    refine ⟨LittleEndian.bytes 4 msg.nlmsgLen ++ (LittleEndian.bytes 2 msg.nlmsgType.toNat ++
      (LittleEndian.bytes 2 msg.nlmsgFlags.toNat ++ (LittleEndian.bytes 4 msg.nlmsgSeq.toNat ++
        LittleEndian.bytes 4 msg.nlmsgPid.toNat))), ?_, ?_⟩
    · simp only [List.length_append, LittleEndian.length_bytes]
    · simp only [spelled, bytes, List.append_assoc]
  have hassoc : pre ++ (msg.spelled ++ post) = (pre ++ head) ++ (msg.payload ++ (msg.pad ++ post)) := by
    rw [hspelled]
    simp only [List.append_assoc]
  have hlen : (pre ++ head).length = pre.length + 16 := by rw [List.length_append, hhead]
  rw [hassoc, LittleEndian.read, ← hlen, Nat.add_assoc, slice_append_right, slice_append_left h, if_pos]
  simp only [List.length_append]
  omega

theorem netlinkParseError_truncated (h : msg.Truncated) (pre post : List UInt8) :
    netlinkParseError (pre ++ (msg.spelled ++ post)) pre.length
      ⟨msg.nlmsgLen, msg.nlmsgType.toNat, msg.nlmsgFlags.toNat, msg.nlmsgSeq.toNat, msg.nlmsgPid.toNat⟩ =
        if 26 ≤ msg.spelled.length + post.length then some (-1) else none := by
  have hlen : (pre ++ (msg.spelled ++ post)).length = pre.length + (msg.spelled.length + post.length) := by
    rw [List.length_append, List.length_append]
  unfold netlinkParseError
  by_cases hroom : 26 ≤ msg.spelled.length + post.length
  · obtain ⟨n, -, hn⟩ := @LittleEndian.read_isSome (pre ++ (msg.spelled ++ post)) (pre.length + 16) 4 (by omega)
    obtain ⟨k, -, hk⟩ := @LittleEndian.read_isSome (pre ++ (msg.spelled ++ post)) (pre.length + 24) 2 (by omega)
    rw [hn, hk, if_pos hroom]
    exact if_pos h.2
  · have htype : LittleEndian.read (pre ++ (msg.spelled ++ post)) (pre.length + 24) 2 = none := if_neg (by omega)
    rw [htype, if_neg hroom]
    cases LittleEndian.read (pre ++ (msg.spelled ++ post)) (pre.length + 16) 4 <;> rfl

theorem netlinkParseError_whole (h : 36 ≤ msg.nlmsgLen) (pre post : List UInt8) :
    netlinkParseError (pre ++ (msg.spelled ++ post)) pre.length
      ⟨msg.nlmsgLen, msg.nlmsgType.toNat, msg.nlmsgFlags.toNat, msg.nlmsgSeq.toNat, msg.nlmsgPid.toNat⟩ =
        if msg.errnum = 0 then some 1 else if ignorable msg.about msg.errnum then some 0 else none := by
  have hpayload : 20 ≤ msg.payload.length := by
    unfold nlmsgLen at h
    omega
  have herror := @read_payload msg 0 4 (by omega) pre post
  have htype := @read_payload msg 8 2 (by omega) pre post
  unfold netlinkParseError
  rw [Nat.add_zero, Nat.zero_add, slice_zero] at herror
  rw [Nat.add_assoc] at htype
  rw [herror, htype]
  exact if_neg (Nat.not_lt_of_le h)

/-- The value of `netlink_parse_error`, where it is sound. -/
def parsed (msg : Message) : ℤ := if msg.nlmsgLen < 36 then -1 else if msg.errnum = 0 then 1 else 0

theorem netlinkParseError_spelled (h : msg.nlmsgType.toNat = nlmsgError) (pre post : List UInt8) :
    netlinkParseError (pre ++ (msg.spelled ++ post)) pre.length
      ⟨msg.nlmsgLen, msg.nlmsgType.toNat, msg.nlmsgFlags.toNat, msg.nlmsgSeq.toNat, msg.nlmsgPid.toNat⟩ =
        if msg.Sound (msg.spelled.length + post.length) then some msg.parsed else none := by
  by_cases hlen : msg.nlmsgLen < 36
  · have hsound : msg.Sound (msg.spelled.length + post.length) ↔ 26 ≤ msg.spelled.length + post.length :=
      ⟨fun hs => hs.2 ⟨h, hlen⟩, fun hroom => ⟨fun hr => absurd hlen (Nat.not_lt_of_le hr.2.1), fun _ => hroom⟩⟩
    rw [netlinkParseError_truncated ⟨h, hlen⟩, parsed, if_pos hlen]
    simp only [hsound]
  · have hsound : msg.Sound (msg.spelled.length + post.length) ↔ ¬msg.Refused :=
      ⟨And.left, fun hr => ⟨hr, fun ht => absurd ht.2 hlen⟩⟩
    rw [netlinkParseError_whole (Nat.le_of_not_lt hlen), parsed, if_neg hlen]
    simp only [hsound]
    by_cases hack : msg.errnum = 0
    · rw [if_pos hack, if_pos hack, if_pos fun hr => hr.2.2.1 hack]
    · rw [if_neg hack, if_neg hack]
      by_cases hignore : ignorable msg.about msg.errnum = true
      · rw [if_pos hignore, if_pos fun hr => hr.2.2.2 hignore]
      · rw [if_neg hignore, if_neg (not_not_intro ⟨h, Nat.le_of_not_lt hlen, hack, hignore⟩)]

theorem verdict_data (h : msg.isData) : msg.verdict = .goesOn := by
  obtain ⟨hdone, herror⟩ := of_decide_eq_true h
  rw [verdict, if_neg hdone, if_neg herror]

theorem verdict_error (h : msg.nlmsgType.toNat = nlmsgError) (hr : ¬msg.Refused) :
    msg.verdict = if msg.parsed = 1 then if msg.nlmsgFlags.toNat &&& nlmFMulti = 0 then .answer 0 else .goesOn else .answer msg.parsed := by
  have hdone : msg.nlmsgType.toNat ≠ nlmsgDone := fun hd => absurd (h.symm.trans hd) (by decide)
  rw [verdict, if_neg hdone, if_pos h, parsed]
  by_cases hlen : msg.nlmsgLen < 36
  · rw [if_pos ⟨h, hlen⟩, if_pos hlen]
    rfl
  · rw [if_neg fun ht => hlen ht.2, if_neg hlen]
    by_cases hack : msg.errnum = 0
    · rw [if_pos hack, if_pos hack, if_pos rfl]
    · have hignore : ignorable msg.about msg.errnum = true := by
        by_contra hignore
        exact hr ⟨h, Nat.le_of_not_lt hlen, hack, hignore⟩
      rw [if_neg hack, if_neg hack, if_pos hignore]
      rfl

theorem verdict_unsound {room : ℕ} (h : ¬msg.Sound room) : msg.verdict = .answer (-1) := by
  -- the exchange would end at a message that is not handled soundly
  rw [Sound, not_and_or, not_not] at h
  rcases h with ⟨herror, hlen, hack, hignore⟩ | h
  · have hdone : msg.nlmsgType.toNat ≠ nlmsgDone := fun hd => absurd (herror.symm.trans hd) (by decide)
    rw [verdict, if_neg hdone, if_pos herror, if_neg fun ht => absurd ht.2 (Nat.not_lt_of_le hlen), if_neg hack, if_neg hignore]
  · obtain ⟨htrunc, -⟩ := Classical.not_imp.mp h
    have hdone : msg.nlmsgType.toNat ≠ nlmsgDone := fun hd => absurd (htrunc.1.symm.trans hd) (by decide)
    rw [verdict, if_neg hdone, if_pos htrunc.1, if_pos htrunc]

end Message

theorem messageRound_spelled (hlen : msg.spelled.length < 2 ^ 31) (nlPid : ℕ) (filter : Filter) (pre post : List UInt8)
    (calls : List (List UInt8)) (ret : ℤ) (rest : ℕ) :
    messageRound (pre ++ (msg.spelled ++ post)) nlPid filter ⟨pre.length, (msg.spelled.length + rest : ℕ), calls, ret⟩ =
      if msg.verdict = .goesOn then
        .inl ⟨pre.length + msg.spelled.length, rest, (deliver nlPid filter msg calls ret).1, (deliver nlPid filter msg calls ret).2⟩
      else .inr (.returned (if msg.Sound (msg.spelled.length + post.length) then some (calls, msg.verdict.code ret) else none)) := by
  have hle : msg.nlmsgLen ≤ msg.spelled.length := by
    rw [Message.length_spelled]
    omega
  have hmin : 16 ≤ msg.nlmsgLen := Nat.le_add_right _ _
  have halign := Message.align_nlmsgLen hlen
  unfold messageRound
  dsimp only
  rw [if_neg (by omega), Message.nlmsghdr_spelled (by omega)]
  dsimp only
  rw [if_neg (by omega), halign]
  have hstatus : ((msg.spelled.length + rest : ℕ) : ℤ) - (msg.spelled.length : ℕ) = rest := by omega
  rw [hstatus]
  by_cases hdone : msg.nlmsgType.toNat = nlmsgDone
  · have hverdict : msg.verdict = .done := if_pos hdone
    have hsound : msg.Sound (msg.spelled.length + post.length) := by
      refine ⟨fun h => ?_, fun h => ?_⟩ <;> exact absurd (h.1.symm.trans hdone) (by decide)
    rw [if_pos hdone, hverdict, if_pos hsound]
    rfl
  rw [if_neg hdone]
  by_cases herror : msg.nlmsgType.toNat = nlmsgError
  · have hnodata : ¬(msg.isData ∧ nlPid = 0) := fun h => (of_decide_eq_true h.1).2 herror
    rw [if_pos herror, Message.netlinkParseError_spelled herror]
    by_cases hsound : msg.Sound (msg.spelled.length + post.length)
    · rw [if_pos hsound, if_pos hsound, Message.verdict_error herror hsound.1]
      dsimp only
      by_cases hack : msg.parsed = 1
      · rw [if_pos hack, if_pos hack]
        by_cases hmulti : msg.nlmsgFlags.toNat &&& nlmFMulti = 0
        · rw [if_pos hmulti, if_pos hmulti]
          rfl
        · rw [if_neg hmulti, if_neg hmulti, if_pos rfl, deliver, if_neg hnodata]
      · rw [if_neg hack, if_neg hack]
        rfl
    · rw [if_neg hsound, if_neg hsound, Message.verdict_unsound hsound]
      rfl
  · have hdata : msg.isData := decide_eq_true ⟨hdone, herror⟩
    rw [if_neg herror, Message.verdict_data hdata, if_pos rfl, deliver]
    by_cases hpid : nlPid = 0
    · rw [if_neg (not_not_intro hpid), if_pos ⟨hdata, hpid⟩, Message.slice_bytes]
    · rw [if_pos hpid, if_neg fun h => hpid h.2]

/-! ## Any messages -/

theorem run_messages (nlPid : ℕ) (filter : Filter) (msgs : List Message) (hlen : (msgs.flatMap Message.spelled).length < 2 ^ 31)
    (pre post : List UInt8) (calls : List (List UInt8)) (ret : ℤ) {fuel : ℕ} (hfuel : msgs.length < fuel) :
    Loop.run (messageRound (pre ++ (msgs.flatMap Message.spelled ++ post)) nlPid filter) fuel
      ⟨pre.length, ((msgs.flatMap Message.spelled).length : ℕ), calls, ret⟩ =
        some (if ∀ msg ∈ msgs, msg.verdict = .goesOn then
            .over 0 (exchange filter (msgs.map fun msg => (nlPid, msg)) calls ret).1
              (exchange filter (msgs.map fun msg => (nlPid, msg)) calls ret).2
          else .returned (if soundIn ((msgs.flatMap Message.spelled).length + post.length) msgs then
            some (exchange filter (msgs.map fun msg => (nlPid, msg)) calls ret) else none)) := by
  induction msgs generalizing pre calls ret fuel with
  | nil =>
    obtain ⟨fuel, rfl⟩ : ∃ k, fuel = k + 1 := ⟨fuel - 1, by rw [List.length_nil] at hfuel; omega⟩
    exact Loop.run_leave rfl fuel
  | cons msg msgs ih =>
    obtain ⟨fuel, rfl⟩ : ∃ k, fuel = k + 1 := ⟨fuel - 1, by omega⟩
    rw [List.flatMap_cons, List.length_append] at hlen
    have hassoc : pre ++ ((msg :: msgs).flatMap Message.spelled ++ post) =
        pre ++ (msg.spelled ++ (msgs.flatMap Message.spelled ++ post)) := by rw [List.flatMap_cons, List.append_assoc]
    have hround := @messageRound_spelled msg (by omega) nlPid filter pre (msgs.flatMap Message.spelled ++ post) calls ret
      (msgs.flatMap Message.spelled).length
    rw [hassoc, List.flatMap_cons, List.length_append, List.map_cons, exchange]
    rw [soundIn]
    simp only [List.forall_mem_cons]
    by_cases hgoes : msg.verdict = .goesOn
    · rw [if_pos hgoes] at hround
      have hnext := ih (by omega) (pre ++ msg.spelled) (deliver nlPid filter msg calls ret).1 (deliver nlPid filter msg calls ret).2
        (Nat.lt_of_succ_lt_succ hfuel)
      rw [List.append_assoc, List.length_append] at hnext
      rw [Loop.run_again hround, hnext, if_pos hgoes, if_pos hgoes]
      have hroom : msg.spelled.length + (msgs.flatMap Message.spelled).length + post.length - msg.spelled.length =
          (msgs.flatMap Message.spelled).length + post.length := by omega
      rw [hroom]
      simp only [hgoes, true_and]
    · rw [if_neg hgoes, List.length_append, ← Nat.add_assoc] at hround
      have hall : ¬(msg.verdict = .goesOn ∧ ∀ msg ∈ msgs, msg.verdict = .goesOn) := fun h => hgoes h.1
      rw [Loop.run_leave hround, if_neg hgoes, if_neg hgoes, if_neg hall]
      simp only [decide_eq_true_eq]

theorem Message.spelled_pos (msg : Message) : 0 < msg.spelled.length := by
  rw [Message.length_spelled, Message.nlmsgLen]
  omega

theorem length_le_spelled (msgs : List Message) : msgs.length ≤ (msgs.flatMap Message.spelled).length := by
  induction msgs with
  | nil => exact Nat.le_refl 0
  | cons msg msgs ih =>
    have := msg.spelled_pos
    rw [List.flatMap_cons, List.length_append, List.length_cons]
    omega

theorem exchange_append (filter : Filter) (xs ys : List (ℕ × Message)) (calls : List (List UInt8)) (ret : ℤ) :
    exchange filter (xs ++ ys) calls ret =
      if ∀ x ∈ xs, x.2.verdict = .goesOn then exchange filter ys (exchange filter xs calls ret).1 (exchange filter xs calls ret).2
      else exchange filter xs calls ret := by
  induction xs generalizing calls ret with
  | nil => rw [if_pos nofun, List.nil_append, exchange]
  | cons x xs ih =>
    obtain ⟨nlPid, msg⟩ := x
    rw [List.cons_append, exchange, exchange]
    simp only [List.forall_mem_cons]
    by_cases hgoes : msg.verdict = .goesOn
    · simp only [hgoes, if_true, true_and, ih]
    · have hall : ¬(msg.verdict = .goesOn ∧ ∀ x ∈ xs, x.2.verdict = .goesOn) := fun h => hgoes h.1
      rw [if_neg hgoes, if_neg hgoes, if_neg hall]

theorem netlinkParseInfo_packets (filter : Filter) (ps : List Packet) (buf : List UInt8) (calls : List (List UInt8)) (ret : ℤ) :
    netlinkParseInfo filter buf (ps.map Packet.toDatagram) calls ret =
      if sound buf.length ps then some (exchange filter (ps.flatMap Packet.sent) calls ret) else none := by
  induction ps generalizing buf calls ret with
  | nil => rfl
  | cons p ps ih =>
    have hlt : p.bytes.length < 2 ^ 31 := p.fits
    have hpos : 0 < p.bytes.length := Nat.lt_of_lt_of_le (List.length_pos_iff.mpr p.nonempty) (length_le_spelled p.messages)
    have hsize : (p.bytes ++ buf.drop p.bytes.length).length = max buf.length p.bytes.length := by
      rw [List.length_append, List.length_drop]
      omega
    have hroom : p.bytes.length + (buf.drop p.bytes.length).length = max buf.length p.bytes.length := by
      rw [← hsize, List.length_append]
    have hrun := @run_messages p.nlPid filter p.messages p.fits [] (buf.drop p.bytes.length) calls ret (p.bytes.length + 1)
      (Nat.lt_succ_of_le (length_le_spelled p.messages))
    have hexchange := exchange_append filter p.sent (ps.flatMap Packet.sent) calls ret
    have hgoes : (∀ x ∈ p.sent, x.2.verdict = .goesOn) ↔ p.GoesOn := List.forall_mem_map
    have hrecv : netlinkRecvmsg buf p.toDatagram = (p.bytes ++ buf.drop p.bytes.length, (p.bytes.length : ℤ)) := by
      have hne : ¬p.toDatagram.bytes.length = 0 := Nat.ne_of_gt hpos
      rw [netlinkRecvmsg, if_neg hne]
      rfl
    have hstatus : ¬((p.bytes.length : ℕ) : ℤ) = -1 := by omega
    rw [List.map_cons, netlinkParseInfo, hrecv, List.flatMap_cons, hexchange, sound]
    dsimp only
    rw [List.nil_append, List.length_nil, ← Packet.bytes, hroom] at hrun
    rw [if_neg hstatus, Packet.toDatagram]
    dsimp only
    rw [hrun]
    by_cases hall : ∀ msg ∈ p.messages, msg.verdict = .goesOn
    · have hall' : p.GoesOn := hall
      rw [if_pos hall, if_pos hall', if_pos (hgoes.mpr hall)]
      dsimp only
      rw [if_neg (not_not_intro rfl), ih, hsize]
      rfl
    · have hall' : ¬p.GoesOn := hall
      rw [if_neg hall, if_neg hall', if_neg fun h => hall (hgoes.mp h)]
      rfl

/-! ## Messages of the kernel -/

def before (msgs : List Message) : List Message := msgs.takeWhile fun msg => msg.verdict = .goesOn

/-- How a message ends the exchange, or that it goes on until the socket is drained. -/
def ending (msgs : List Message) : Verdict := ((msgs.find? fun msg => msg.verdict ≠ .goesOn).map Message.verdict).getD .goesOn

/-- The messages that the filter is to be called on, once each and in order. -/
def delivered (filter : Filter) (msgs : List Message) : List (List UInt8) :=
  if filter.isSome then ((before msgs).filter Message.isData).map Message.bytes else []

def results (filter : Filter) (calls : List (List UInt8)) : List ℤ :=
  filter.elim [] fun f => (List.range calls.length).map fun k => f (calls.take (k + 1))

def lastNegative (results : List ℤ) : ℤ := (results.filter (· < 0)).getLast?.getD 0

theorem lastNegative_snoc (rs : List ℤ) (r : ℤ) : lastNegative (rs ++ [r]) = if r < 0 then r else lastNegative rs := by
  unfold lastNegative
  rw [List.filter_append]
  by_cases h : r < 0
  · have hr : [r].filter (fun x => decide (x < 0)) = [r] := by simp [h]
    rw [if_pos h, hr, List.getLast?_concat]
    rfl
  · have hr : [r].filter (fun x => decide (x < 0)) = [] := by simpa using h
    rw [if_neg h, hr, List.append_nil]

theorem results_snoc (f : List (List UInt8) → ℤ) (calls : List (List UInt8)) (msg : List UInt8) :
    results (some f) (calls ++ [msg]) = results (some f) calls ++ [f (calls ++ [msg])] := by
  have hprefix : (List.range calls.length).map (fun k => f ((calls ++ [msg]).take (k + 1))) =
      (List.range calls.length).map fun k => f (calls.take (k + 1)) := by
    refine List.map_congr_left fun k hk => ?_
    rw [List.take_append_of_le_length (List.mem_range.mp hk)]
  unfold results
  dsimp only [Option.elim]
  rw [List.length_append, List.length_singleton, List.range_succ, List.map_append, hprefix, List.map_singleton,
    List.take_of_length_le (by simp)]

theorem deliver_kernel (filter : Filter) (msg : Message) (calls : List (List UInt8)) :
    ∃ more, deliver 0 filter msg calls (lastNegative (results filter calls)) =
        (calls ++ more, lastNegative (results filter (calls ++ more))) ∧
      more = if msg.isData ∧ filter.isSome then [msg.bytes] else [] := by
  -- a message of the kernel that goes on leaves the last negative result of the calls so far
  refine ⟨_, ?_, rfl⟩
  rw [deliver]
  by_cases hdata : msg.isData = true
  · rw [if_pos ⟨hdata, rfl⟩]
    cases filter with
    | none => rw [if_neg (fun h => nomatch h.2), List.append_nil, callFilter]
    | some f => rw [if_pos ⟨hdata, rfl⟩, callFilter, results_snoc, lastNegative_snoc]
  · rw [if_neg (fun h => hdata h.1), if_neg (fun h => hdata h.1), List.append_nil]

theorem delivered_cons {msg : Message} (h : msg.verdict = .goesOn) (filter : Filter) (msgs : List Message) :
    delivered filter (msg :: msgs) = (if msg.isData ∧ filter.isSome then [msg.bytes] else []) ++ delivered filter msgs := by
  have hbefore : before (msg :: msgs) = msg :: before msgs := List.takeWhile_cons_of_pos (decide_eq_true h)
  unfold delivered
  rw [hbefore]
  cases filter with
  | none => simp
  | some f =>
    by_cases hdata : msg.isData = true
    · simp [hdata]
    · simp [hdata]

theorem exchange_kernel (filter : Filter) (msgs : List Message) (calls : List (List UInt8)) :
    exchange filter (msgs.map fun msg => (0, msg)) calls (lastNegative (results filter calls)) =
      (calls ++ delivered filter msgs, (ending msgs).code (lastNegative (results filter (calls ++ delivered filter msgs)))) := by
  induction msgs generalizing calls with
  | nil =>
    have hnone : delivered filter [] = [] := by cases filter <;> rfl
    rw [hnone, List.append_nil]
    rfl
  | cons msg msgs ih =>
    rw [List.map_cons, exchange]
    by_cases hgoes : msg.verdict = .goesOn
    · have hending : ending (msg :: msgs) = ending msgs := by
        rw [ending, List.find?_cons_of_neg (by simpa using hgoes), ending]
      obtain ⟨more, hdeliver, hmore⟩ := deliver_kernel filter msg calls
      rw [if_pos hgoes, hending, hdeliver, ih, delivered_cons hgoes, ← hmore, List.append_assoc]
    · have hending : ending (msg :: msgs) = msg.verdict := by
        rw [ending, List.find?_cons_of_pos (by simpa using hgoes)]
        rfl
      have hbefore : before (msg :: msgs) = [] := List.takeWhile_cons_of_neg (by simpa using hgoes)
      have hnone : delivered filter (msg :: msgs) = [] := by
        rw [delivered, hbefore]
        cases filter <;> rfl
      rw [if_neg hgoes, hending, hnone, List.append_nil]

/-- The filter gets the data up to the end of the exchange, and the result is the one of that end, exactly when the end is handled
soundly. -/
theorem exchange_delivered (filter : Filter) (buf : List UInt8) (ps : List Packet) (h : ∀ p ∈ ps, p.nlPid = 0) :
    netlinkParseInfo filter buf (ps.map Packet.toDatagram) [] 0 =
      some (delivered filter (ps.flatMap Packet.messages), (ending (ps.flatMap Packet.messages)).code
        (lastNegative (results filter (delivered filter (ps.flatMap Packet.messages))))) ↔
      sound buf.length ps := by
  have hsent : ps.flatMap Packet.sent = (ps.flatMap Packet.messages).map fun msg => (0, msg) := by
    rw [List.map_flatMap]
    refine List.flatMap_congr fun p hp => ?_
    rw [Packet.sent, h p hp]
  have hlast : lastNegative (results filter []) = 0 := by cases filter <;> rfl
  have hexchange := exchange_kernel filter (ps.flatMap Packet.messages) []
  rw [hlast, List.nil_append] at hexchange
  rw [netlinkParseInfo_packets, hsent, hexchange]
  by_cases hsound : sound buf.length ps = true
  · rw [if_pos hsound]
    exact iff_of_true rfl hsound
  · rw [if_neg hsound]
    exact iff_of_false nofun hsound

/-- Two links of a dump. -/
def links : List Message :=
  [⟨16, 2, 1, 0, [0, 0, 4, 3, 1, 0, 0, 0], [], by decide⟩, ⟨16, 2, 1, 0, [0, 0, 1, 0, 2, 0, 0, 0, 7], [0, 0, 0], by decide⟩]

def linkDump : Packet where
  nlPid := 0
  messages := links
  nonempty := nofun
  fits := by decide

/-- The end of a dump. -/
def dumpDone : Packet where
  nlPid := 0
  messages := [⟨3, 2, 1, 0, [0, 0, 0, 0], [], by decide⟩]
  nonempty := nofun
  fits := by decide

/-- A filter that accepts the first link and refuses the second. -/
theorem exchange_delivered_sample :
    netlinkParseInfo (some fun calls => if calls.length = 1 then 0 else -5) [] [linkDump.toDatagram, dumpDone.toDatagram] [] 0 =
      some (links.map Message.bytes, -5) :=
  (exchange_delivered (some fun calls => if calls.length = 1 then 0 else -5) [] [linkDump, dumpDone] (by decide)).mpr (by decide)

/-- The kernel refuses to add a route, with `EPERM`. -/
def routeRefused : Packet where
  nlPid := 0
  messages := [⟨2, 0, 1, 0, [0xff, 0xff, 0xff, 0xff, 16, 0, 0, 0, 24, 0, 5, 0, 1, 0, 0, 0, 0, 0, 0, 0], [], by decide⟩]
  nonempty := nofun
  fits := by decide

/-- The refusal does not come out as an error. -/
theorem refusal_lost : routeRefused.nlPid = 0 ∧ (ending routeRefused.messages).code 0 = -1 ∧
    netlinkParseInfo none [] [routeRefused.toDatagram] [] 0 ≠ some (delivered none routeRefused.messages,
      (ending routeRefused.messages).code (lastNegative (results none (delivered none routeRefused.messages)))) := by
  decide +kernel

end Yjc.Netlink
