import Yjc.Event.WriteFree
import Mathlib.Algebra.GroupWithZero.Nat

/-! The order of the written bytes: what `write(2)` took and what is queued make up what was passed to
`evio_write`. -/

namespace Yjc.Event

/-- A count in `1..len`, or `EAGAIN`. -/
def WriteResult.Ok : WriteResult → Prop
  | .wrote n => n ≠ 0
  | .again => True
  | .error _ => False

def Core.sentBytes (k : Core) : List UInt8 := (k.fd.map Prod.snd).flatten

def Core.unsent (k : Core) : List UInt8 := (k.queue.map OffsetBuf.unsent).flatten

def Core.calls (k : Core) : List ℕ := k.fd.map Prod.fst ++ k.queue.map OffsetBuf.call

structure Ordered (k : Core) : Prop where
  whole : k.closed = false → k.rejected = none → k.sentBytes ++ k.unsent = k.submitted.flatten
  front : k.sentBytes ++ k.unsent <+: k.submitted.flatten
  size : k.closed = false → k.bufsize = k.unsent.length
  calls : ∀ i ∈ k.calls, i < k.submitted.length
  last : ∀ j ∈ k.rejected, ∀ i ∈ k.calls, i ≤ j

/-- After a rejection, a write is made to a closed io, or sends and queues nothing. -/
def Core.RejectsAgain (k : Core) (buf : List UInt8) (res : WriteResult) : Prop :=
  k.rejected ≠ none → k.closed = true ∨
    (k.queue ≠ [] ∨ res = .again) ∧ (buf = [] ∨ k.maxBufsize < k.bufsize + buf.length)

theorem Core.flatten_submitted (k : Core) (buf : List UInt8) :
    (k.submitted ++ [buf]).flatten = k.submitted.flatten ++ buf := by
  simp

theorem Takes.nil_of_pos {k : Core} {buf : List UInt8} {res : WriteResult} {n : ℕ} (h : Takes k buf res n) (hn : n ≠ 0) :
    k.queue = [] := by
  rcases h with ⟨-, h0⟩ | ⟨hq, -⟩
  · exact absurd h0 hn
  · exact hq

theorem Core.sent_bytes {k : Core} {buf : List UInt8} {res : WriteResult} {n : ℕ} (h : Takes k buf res n) :
    (k.sent buf n).sentBytes ++ (k.sent buf n).unsent = k.sentBytes ++ k.unsent ++ buf.take n := by
  unfold Core.sentBytes Core.unsent Core.sent
  dsimp only
  split_ifs with h0
  · rw [h0, List.take_zero, List.append_nil]
  · rw [h.nil_of_pos h0]
    simp

theorem Takes.eq_zero {k : Core} {buf : List UInt8} {res : WriteResult} {n : ℕ} (h : Takes k buf res n)
    (hz : k.queue ≠ [] ∨ res = .again) : n = 0 := by
  rcases h with ⟨-, h0⟩ | ⟨hq, ⟨-, h0⟩ | ⟨hres, -⟩⟩
  · exact h0
  · exact h0
  · rcases hz with hz | hz
    · exact absurd hq hz
    · rw [hz] at hres
      cases hres

theorem Core.sent_calls {k : Core} {buf : List UInt8} {n i : ℕ} (h : i ∈ (k.sent buf n).calls) :
    i ∈ k.calls ∨ n ≠ 0 ∧ i = k.submitted.length := by
  unfold Core.calls Core.sent at h
  dsimp only at h
  split_ifs at h with h0
  · exact .inl h
  · simp only [List.map_append, List.map_cons, List.map_nil, List.mem_append, List.mem_singleton] at h
    rcases h with (h | h) | h
    · exact .inl (List.mem_append_left _ h)
    · exact .inr ⟨h0, h⟩
    · exact .inl (List.mem_append_right _ h)

namespace Ordered
variable {k k' : Core}

theorem of_eq (h : Ordered k) (hc : k'.closed = k.closed) (hq : k'.queue = k.queue) (hs : k'.bufsize = k.bufsize)
    (hf : k'.fd = k.fd) (hsub : k'.submitted = k.submitted) (hr : k'.rejected = k.rejected) : Ordered k' := by
  obtain ⟨h1, h2, h3, h4, h5⟩ := h
  simp only [Core.sentBytes, Core.unsent, Core.calls] at h1 h2 h3 h4 h5
  constructor <;> simp only [Core.sentBytes, Core.unsent, Core.calls, hc, hq, hs, hf, hsub, hr]
  · exact h1
  · exact h2
  · exact h3
  · exact h4
  · exact h5

theorem sent (h : Ordered k) {buf : List UInt8} {res : WriteResult} {n : ℕ} (hc : k.closed = false)
    (ht : Takes k buf res n) (hz : k.rejected ≠ none → n = 0) :
    (k.sent buf n).sentBytes ++ (k.sent buf n).unsent <+: k.submitted.flatten ++ buf ∧
      (∀ i ∈ (k.sent buf n).calls, i < k.submitted.length + 1) ∧
      ∀ j ∈ k.rejected, ∀ i ∈ (k.sent buf n).calls, i ≤ j := by
  refine ⟨?_, fun i hi => ?_, fun j hj i hi => ?_⟩
  · rw [Core.sent_bytes ht]
    by_cases hr : k.rejected = none
    · rw [h.whole hc hr]
      exact (List.prefix_append_right_inj _).mpr (List.take_prefix _ _)
    · rw [hz hr, List.take_zero, List.append_nil]
      exact h.front.trans (List.prefix_append _ _)
  · rcases Core.sent_calls hi with hi | ⟨-, hi⟩
    · exact Nat.lt_succ_of_lt (h.calls i hi)
    · rw [hi]
      exact Nat.lt_succ_self _
  · rcases Core.sent_calls hi with hi | ⟨hn, -⟩
    · exact h.last j hj i hi
    · exact absurd (hz (by rw [Option.mem_def.mp hj]; exact Option.some_ne_none j)) hn

theorem queued (h : Ordered k) {buf : List UInt8} {res : WriteResult} {n : ℕ} (hc : k.closed = false)
    (hr : k.rejected = none) (ht : Takes k buf res n) :
    Ordered { k.sent buf n with
      queue := k.queue ++ [⟨k.nextBase, k.submitted.length, buf.drop n, 0⟩]
      bufsize := k.bufsize + (buf.length - n)
      nextBase := k.nextBase + 1 } := by
  obtain ⟨-, hcalls, -⟩ := h.sent hc ht fun hne => absurd hr hne
  have hunsent : ((k.queue ++ [OffsetBuf.mk k.nextBase k.submitted.length (buf.drop n) 0]).map OffsetBuf.unsent).flatten =
      k.unsent ++ buf.drop n := by simp [Core.unsent, OffsetBuf.unsent]
  have hwhole : (k.sent buf n).sentBytes ++ (k.unsent ++ buf.drop n) = (k.submitted ++ [buf]).flatten := by
    rw [← List.append_assoc, show k.unsent = (k.sent buf n).unsent from rfl, Core.sent_bytes ht, h.whole hc hr,
      List.append_assoc, List.take_append_drop, Core.flatten_submitted]
  refine ⟨fun _ _ => ?_, ?_, fun _ => ?_, fun i hi => ?_, fun j hj => ?_⟩
  · exact (congrArg _ hunsent).trans hwhole
  · exact ⟨[], (List.append_nil _).trans ((congrArg _ hunsent).trans hwhole)⟩
  · change k.bufsize + (buf.length - n) = (List.flatten _).length
    rw [hunsent, List.length_append, List.length_drop, h.size hc]
  · change i < (k.submitted ++ [buf]).length
    rw [List.length_append, List.length_singleton]
    -- the new entry is the only one that is not in the stream or the queue yet
    have hi' : i ∈ (k.sent buf n).calls ∨ i = k.submitted.length := by
      simp only [Core.calls, List.map_append, List.map_cons, List.map_nil, List.mem_append, List.mem_singleton] at hi ⊢
      rcases hi with hi | hi | hi
      · exact .inl (.inl hi)
      · exact .inl (.inr hi)
      · exact .inr hi
    rcases hi' with hi' | hi'
    · exact hcalls i hi'
    · omega
  · have hj' : j ∈ k.rejected := hj
    rw [hr] at hj'
    cases hj'

theorem written (h : Ordered k) {buf : List UInt8} {res : WriteResult} {ret : ℤ} (hw : Written k buf res k' ret)
    (hok : res.Ok) (hagain : k.RejectsAgain buf res) : Ordered k' := by
  have hflat := Core.flatten_submitted k buf
  have hlen : (k.submitted ++ [buf]).length = k.submitted.length + 1 := by simp
  have hzero : ∀ {n}, k.closed = false → Takes k buf res n → k.rejected ≠ none → n = 0 := by
    intro n hc ht hr
    rcases hagain hr with hcl | ⟨hz, -⟩
    · rw [hc] at hcl
      cases hcl
    · exact ht.eq_zero hz
  cases hw with
  | closed hc =>
    refine ⟨fun hf => (by rw [hc] at hf; cases hf), ?_, fun hf => (by rw [hc] at hf; cases hf), fun i hi => ?_, h.last⟩
    · dsimp only
      rw [hflat]
      exact h.front.trans (List.prefix_append _ _)
    · dsimp only
      rw [hlen]
      exact Nat.lt_succ_of_lt (h.calls i hi)
  | failed hc hq hres herr =>
    rw [hres] at hok
    exact hok.elim
  | hungUp hc hq hres =>
    rw [hres] at hok
    exact absurd rfl hok
  | @rejected n hc ht hlt hover =>
    obtain ⟨hfront, hcalls, hlast⟩ := h.sent hc ht (hzero hc ht)
    refine ⟨fun _ hr => ?_, hflat ▸ hfront, h.size, hlen ▸ hcalls, fun j hj i hi => ?_⟩
    · cases hk : k.rejected <;> simp [hk] at hr
    · cases hk : k.rejected with
      | none =>
        simp only [hk, Option.none_or, Option.mem_some_iff] at hj
        rw [← hj]
        exact Nat.le_of_lt_succ (hcalls i hi)
      | some j' =>
        simp only [hk, Option.some_or, Option.mem_some_iff] at hj
        exact hlast j (by rw [hk, hj]; rfl) i hi
  | @queued n hc ht hlt hfit =>
    have hr : k.rejected = none := by
      by_contra hr
      rcases hagain hr with hcl | ⟨hz, hb | hb⟩
      · rw [hc] at hcl
        cases hcl
      · rw [hb] at hlt
        cases hlt
      · rw [ht.eq_zero hz] at hfit
        exact absurd hb (Nat.not_lt_of_le hfit)
    exact h.queued hc hr ht
  | whole hc ht =>
    obtain ⟨hfront, hcalls, hlast⟩ := h.sent hc ht (hzero hc ht)
    refine ⟨fun _ hr => ?_, hflat ▸ hfront, h.size, hlen ▸ hcalls, hlast⟩
    rw [Core.sent_bytes ht, h.whole hc hr, List.take_length]
    exact hflat.symm

theorem send (h : Ordered k) {n : ℕ} {b : OffsetBuf} {q : List OffsetBuf} (hq : k.queue = b :: q)
    (hle : n ≤ b.unsent.length) (stack : List Frame) :
    Ordered { k with
      fd := k.fd ++ [(b.call, b.unsent.take n)]
      queue := { b with offset := b.offset + n } :: q
      bufsize := k.bufsize - n
      stack := stack } := by
  have hb : OffsetBuf.unsent { b with offset := b.offset + n } = b.unsent.drop n := by
    simp only [OffsetBuf.unsent, List.drop_drop]
  have hunsent : k.unsent = b.unsent ++ (q.map OffsetBuf.unsent).flatten := by
    rw [Core.unsent, hq, List.map_cons, List.flatten_cons]
  have hbytes : ((k.fd ++ [(b.call, b.unsent.take n)]).map Prod.snd).flatten ++
      (({ b with offset := b.offset + n } :: q).map OffsetBuf.unsent).flatten = k.sentBytes ++ k.unsent := by
    rw [List.map_cons, List.flatten_cons, hb, hunsent]
    simp only [List.map_append, List.map_cons, List.map_nil, List.flatten_append, List.flatten_cons, List.flatten_nil,
      List.append_nil, List.append_assoc, Core.sentBytes]
    rw [← List.append_assoc (b.unsent.take n), List.take_append_drop]
  have hcalls : ∀ i, i ∈ (k.fd ++ [(b.call, b.unsent.take n)]).map Prod.fst ++
      ({ b with offset := b.offset + n } :: q).map OffsetBuf.call → i ∈ k.calls := by
    intro i hi
    rw [Core.calls, hq]
    simp only [List.map_append, List.map_cons, List.map_nil, List.mem_append, List.mem_cons, List.not_mem_nil,
      or_false] at hi ⊢
    rcases hi with (hi | hi) | hi
    · exact .inl hi
    · exact .inr (.inl hi)
    · exact .inr hi
  refine ⟨fun hc hr => ?_, ?_, fun hc => ?_, fun i hi => h.calls i (hcalls i hi), fun j hj i hi => h.last j hj i (hcalls i hi)⟩
  · exact hbytes.trans (h.whole hc hr)
  · exact hbytes ▸ h.front
  · have hsize := h.size hc
    rw [hunsent, List.length_append] at hsize
    change k.bufsize - n = (List.flatten _).length
    rw [List.map_cons, List.flatten_cons, hb, List.length_append, List.length_drop, hsize]
    omega

theorem pop (h : Ordered k) {b : OffsetBuf} {q : List OffsetBuf} (hq : k.queue = b :: q) (hb : b.unsent = [])
    (freed : List ℕ) (stack : List Frame) : Ordered { k with freed := freed, queue := q, stack := stack } := by
  have hunsent : k.unsent = (q.map OffsetBuf.unsent).flatten := by
    rw [Core.unsent, hq, List.map_cons, List.flatten_cons, hb, List.nil_append]
  have hcalls : ∀ i, i ∈ k.fd.map Prod.fst ++ q.map OffsetBuf.call → i ∈ k.calls := by
    intro i hi
    rw [Core.calls, hq, List.map_cons]
    exact (List.mem_append.mp hi).elim (List.mem_append_left _) fun hi =>
      List.mem_append_right _ (List.mem_cons_of_mem _ hi)
  refine ⟨fun hc hr => ?_, ?_, fun hc => ?_, fun i hi => h.calls i (hcalls i hi), fun j hj i hi => h.last j hj i (hcalls i hi)⟩
  · exact (congrArg _ hunsent.symm).trans (h.whole hc hr)
  · exact (congrArg (k.sentBytes ++ ·) hunsent) ▸ h.front
  · exact (h.size hc).trans (congrArg List.length hunsent)

theorem readied (hq : k.queue = []) : Ordered k.readied := by
  have hu : k.readied.unsent = [] := by
    change (k.queue.map OffsetBuf.unsent).flatten = []
    rw [hq]
    rfl
  have hcalls : k.readied.calls = [] := by
    change [] ++ k.queue.map OffsetBuf.call = []
    rw [hq]
    rfl
  refine ⟨fun _ _ => ?_, ?_, fun _ => ?_, fun i hi => ?_, fun j hj => (by cases hj)⟩
  · rw [hu]
    rfl
  · rw [hu]
    exact List.nil_prefix
  · rw [hu]
    rfl
  · rw [hcalls] at hi
    cases hi

theorem locked (h : Ordered k) {closer : Closer} (hl : Locked k closer k') : Ordered k' := by
  cases hl with
  | closed hc => exact h
  | putOff hc hq he hcl => exact h.of_eq rfl rfl rfl rfl rfl rfl
  | taken hc hq hno => exact ⟨fun hf => (by cases hf), h.front, fun hf => (by cases hf), h.calls, h.last⟩

theorem step (h : Ordered k) (hc : Ctl k) (ho : Owned k) {a : Act} (hm : Move k a k')
    (hok : ∀ thread buf res, a = .write thread buf res → res.Ok ∧ k.RejectsAgain buf res) : Ordered k' := by
  cases hm with
  | stay => exact h
  | limit | connectFail | connectOk | delTimeout | resetTimeout | armTimeout | turn | fail | connected | expire | drain
  | unclose | arm | timerCb | crash => exact h.of_eq rfl rfl rfl rfl rfl rfl
  | rearm hs ht hid => split_ifs <;> exact h.of_eq rfl rfl rfl rfl rfl rfl
  | write _ _ hw => exact h.written hw (hok _ _ _ rfl).1 (hok _ _ _ rfl).2
  | close ht hl => exact h.locked hl
  | ready ht hr => exact readied (hc.done hr)
  | connectWait ht hk =>
    subst hk
    split_ifs with hr
    · exact h.of_eq rfl rfl rfl rfl rfl rfl
    · exact readied (hc.done ((Bool.not_eq_true _).mp hr))
  | send hs hq hle h0 => exact h.send hq hle _
  | @pop base b q s hs hq hf =>
    -- the front of the queue is the buffer that was sent
    rcases ho.front base (by rw [hs]; exact List.mem_cons_self) with hf' | ⟨b', q', hq', -, hu⟩
    · exact absurd hf' hf
    · rw [hq] at hq'
      cases hq'
      exact h.pop hq hu _ _
  | @locked closer s k' hs hl =>
    have h' : Ordered { k with stack := s } := h.of_eq rfl rfl rfl rfl rfl rfl
    exact h'.locked hl
  | @finish s hs =>
    have hr := (hc.finish.mp (by rw [hs]; rfl)).2
    have hq : (if k.ready then [] else k.queue) = [] := if_pos hr
    have hcalls : ∀ i, i ∈ k.fd.map Prod.fst ++ (if k.ready then [] else k.queue).map OffsetBuf.call → i ∈ k.calls := by
      intro i hi
      rw [hq, List.map_nil, List.append_nil] at hi
      exact List.mem_append_left _ hi
    refine ⟨fun hf => (by cases hf), ?_, fun hf => (by cases hf), fun i hi => h.calls i (hcalls i hi),
      fun j hj i hi => h.last j hj i (hcalls i hi)⟩
    change k.sentBytes ++ ((if k.ready then [] else k.queue).map OffsetBuf.unsent).flatten <+: _
    rw [hq, List.map_nil, List.flatten_nil, List.append_nil]
    exact (List.prefix_append _ _).trans h.front

theorem start : Ordered Cfg.start.core :=
  ⟨fun _ _ => rfl, List.nil_prefix, fun _ => rfl, fun i hi => (by cases hi), fun j hj => (by cases hj)⟩

end Ordered

/-! ## Runs -/

/-- Each `write(2)` returns a count in `1..len` or `EAGAIN`. -/
def Act.WritesOk : Act → Prop
  | .write _ _ res | .nioWrite res => res.Ok
  | _ => True

/-- After a rejection, `evio_write` is called on a closed io, or has nothing to send and to queue: bytes are
queued or `write(2)` returns `EAGAIN`, and the buffer is over the limit. -/
def Cfg.RejectsAgain (c : Cfg) : Act → Prop
  | .write _ buf res => c.io.rejected ≠ none → c.io.closed = true ∨
      (c.io.writeQueue.empty = false ∨ res = .again) ∧ (buf = [] ∨ c.io.maxWriteBufsize < c.io.writeBufsize + buf.length)
  | _ => True

/-- No `evio_write` returns `-1`. -/
def Cfg.Accepts (c : Cfg) : Act → Prop
  | .write _ buf res => ∀ r ∈ evioWrite buf res c.io, r.2 ≠ -1
  | _ => True

instance : (res : WriteResult) → Decidable res.Ok
  | .wrote n => inferInstanceAs (Decidable (n ≠ 0))
  | .again => inferInstanceAs (Decidable True)
  | .error _ => inferInstanceAs (Decidable False)

instance : (a : Act) → Decidable a.WritesOk
  | .write _ _ res | .nioWrite res => inferInstanceAs (Decidable res.Ok)
  | .close | .closeAsync | .get _ | .connect .. | .setTimeout .. | .setMaxWriteBufsize _ | .closeEvent | .connectEvent _
  | .fire .. | .hangup _ | .writable | .nioConnect _ | .cbReturn | .proceed => inferInstanceAs (Decidable True)

instance (c : Cfg) : (a : Act) → Decidable (c.RejectsAgain a)
  | .write _ _ _ => inferInstanceAs (Decidable (_ → _))
  | .close | .closeAsync | .get _ | .connect .. | .setTimeout .. | .setMaxWriteBufsize _ | .closeEvent | .connectEvent _
  | .fire .. | .hangup _ | .writable | .nioConnect _ | .nioWrite _ | .cbReturn | .proceed =>
    inferInstanceAs (Decidable True)

instance (c : Cfg) : (a : Act) → Decidable (c.Accepts a)
  | .write _ buf res => inferInstanceAs (Decidable (∀ r ∈ evioWrite buf res c.io, r.2 ≠ -1))
  | .close | .closeAsync | .get _ | .connect .. | .setTimeout .. | .setMaxWriteBufsize _ | .closeEvent | .connectEvent _
  | .fire .. | .hangup _ | .writable | .nioConnect _ | .nioWrite _ | .cbReturn | .proceed =>
    inferInstanceAs (Decidable True)

theorem ordered_run {acts : List Act} {c : Cfg} (hok : ∀ a ∈ acts, a.WritesOk)
    (hsafe : Run.Along step Cfg.RejectsAgain .start acts) (hrun : Run.exec step .start acts = some c) : Ordered c.core := by
  have h : (Ctl c.core ∧ Owned c.core) ∧ Ordered c.core := by
    refine Run.invariant (fun c : Cfg => (Ctl c.core ∧ Owned c.core) ∧ Ordered c.core) ?_ ⟨⟨.start, .start⟩, .start⟩
      (Run.along_and.mpr ⟨Run.along_of_mem hok Cfg.start, hsafe⟩) hrun
    rintro c a c' ⟨⟨hc, ho⟩, h⟩ ⟨hres, hagain⟩ hstep
    obtain ⟨-, hm⟩ := step_move hstep
    refine ⟨⟨hc.step hm, ho.step hc hm⟩, h.step hc ho hm ?_⟩
    rintro thread buf res rfl
    refine ⟨hres, fun hr => (hagain hr).imp_right fun ⟨hz, hb⟩ => ⟨hz.imp_left fun hq hnil => ?_, hb⟩⟩
    rw [(Queue.empty_iff _).mpr hnil] at hq
    cases hq
  exact h.2

/-- In every run in which nothing is sent or queued after a rejection: no call after the rejected one has
bytes in the stream, and the stream is a prefix of what was passed to `evio_write`. -/
theorem write_rejected_last (acts : List Act) {c : Cfg} (hok : ∀ a ∈ acts, a.WritesOk)
    (hsafe : Run.Along step Cfg.RejectsAgain .start acts) (hrun : Run.exec step .start acts = some c) :
    (∀ j, c.io.rejected = some j → ∀ e ∈ c.io.fd, e.1 ≤ j) ∧
      (c.io.fd.map Prod.snd).flatten <+: c.io.submitted.flatten := by
  have h := ordered_run hok hsafe hrun
  refine ⟨fun j hj e he => h.last j hj e.1 ?_, (List.prefix_append _ _).trans h.front⟩
  exact List.mem_append_left _ (List.mem_map_of_mem he)

/-- The rest of a message is over the limit; the next message meets a full socket and is rejected too. -/
theorem write_rejected_last_full :
    ∃ c, Run.exec step .start [.setMaxWriteBufsize 1, .write .loop [1, 2, 3] (.wrote 1), .write .other [4, 5] .again,
        .closeEvent, .proceed, .proceed, .cbReturn] = some c ∧
      (∀ j, c.io.rejected = some j → ∀ e ∈ c.io.fd, e.1 ≤ j) ∧
        (c.io.fd.map Prod.snd).flatten <+: c.io.submitted.flatten :=
  ⟨_, rfl, write_rejected_last [.setMaxWriteBufsize 1, .write .loop [1, 2, 3] (.wrote 1), .write .other [4, 5] .again,
    .closeEvent, .proceed, .proceed, .cbReturn] (by decide +kernel) (by decide +kernel) rfl⟩

/-- One byte of a message is sent and its rest is rejected; the next message is sent behind it before the
close event runs. -/
theorem write_rejected_tears :
    ¬∀ (acts : List Act) (c : Cfg), (∀ a ∈ acts, a.WritesOk) → Run.exec step .start acts = some c →
      (∀ j, c.io.rejected = some j → ∀ e ∈ c.io.fd, e.1 ≤ j) ∧
        (c.io.fd.map Prod.snd).flatten <+: c.io.submitted.flatten := by
  intro h
  have hbad := h [.setMaxWriteBufsize 1, .write .loop [1, 2, 3] (.wrote 1), .write .other [9] (.wrote 1)] _
    (by decide +kernel) rfl
  exact absurd (hbad.1 0 rfl (1, [9]) (by decide +kernel)) (by decide)

/-- The actions of `evio_write` and `nio_write`. -/
def Act.isWriting : Act → Bool
  | .write .. | .setMaxWriteBufsize _ | .writable | .nioWrite _ | .cbReturn | .proceed => true
  | _ => false

/-- Nothing but `evio_write` and `nio_write` has run, and no buffer was rejected. -/
structure Writing (k : Core) : Prop where
  isOpen : k.closed = false
  notPutOff : k.close = false
  accepted : k.rejected = none
  frames : ∀ f ∈ k.stack, f.outermost = true

namespace Writing
variable {k k' : Core}

theorem replace (h : Writing k) {f g : Frame} {s : List Frame} (hs : k.stack = f :: s) (hg : g.outermost = true) :
    ∀ x ∈ g :: s, x.outermost = true := by
  have hf := h.frames
  rw [hs] at hf
  exact List.forall_mem_cons.mpr ⟨hg, (List.forall_mem_cons.mp hf).2⟩

theorem below (h : Writing k) {f : Frame} {s : List Frame} (hs : k.stack = f :: s) : ∀ x ∈ s, x.outermost = true := by
  have hf := h.frames
  rw [hs] at hf
  exact (List.forall_mem_cons.mp hf).2

theorem absurd_frame (h : Writing k) {f : Frame} {s : List Frame} (hs : k.stack = f :: s) (hf : f.outermost = false) :
    False := by
  have := h.frames f (by rw [hs]; exact List.mem_cons_self)
  rw [hf] at this
  cases this

theorem turn (h : Writing k) {a : Act} {s s' : List Frame} (hs : k.stack = s) (ha : a.isWriting = true)
    (hok : a.WritesOk) (ht : Turn k a s s') : Writing { k with stack := s' } := by
  refine ⟨h.isOpen, h.notPutOff, h.accepted, ?_⟩
  cases ht with
  | event | hangup | heartbeat => cases ha
  | writable => simp [Frame.outermost]
  | write s => exact h.replace hs rfl
  | disconnect s hq => exact absurd rfl hok
  | again s | drained s | partialWrite base s => exact h.below hs
  | closeCb s | connectCb s | heartbeatCb s => exact (h.absurd_frame hs rfl).elim

theorem written (h : Writing k) {buf : List UInt8} {res : WriteResult} {ret : ℤ} (hw : Written k buf res k' ret)
    (hret : ret ≠ -1) : Writing k' := by
  cases hw with
  | closed | failed | hungUp | rejected => exact absurd rfl hret
  | queued | whole => exact ⟨h.isOpen, h.notPutOff, h.accepted, h.frames⟩

theorem move (h : Writing k) {a : Act} (ha : a.isWriting = true) (hok : a.WritesOk)
    (hw : ∀ thread buf res, a ≠ .write thread buf res) (hm : Move k a k') : Writing k' := by
  cases hm with
  | stay => exact h
  | limit => exact ⟨h.isOpen, h.notPutOff, h.accepted, h.frames⟩
  | turn ht => exact h.turn rfl ha hok ht
  | write _ _ _ => exact absurd rfl (hw _ _ _)
  | close | ready | connectFail | connectOk | connectWait | delTimeout | resetTimeout | armTimeout | expire | rearm =>
    cases ha
  | fail herr he =>
    generalize k.stack = st at he
    cases he with
    | read | connect | events => cases ha
    | write s he => exact hok.elim
  | connected he =>
    generalize k.stack = st at he
    cases he with
    | read | connect | events => cases ha
    | write s he => cases he
  | drain hs hq => exact ⟨h.isOpen, h.notPutOff, h.accepted, h.replace hs rfl⟩
  | send hs hq hle h0 => exact ⟨h.isOpen, h.notPutOff, h.accepted, h.replace hs rfl⟩
  | pop hs hq hf =>
    refine ⟨h.isOpen, h.notPutOff, h.accepted, ?_⟩
    dsimp only
    split_ifs
    · exact h.below hs
    · exact h.replace hs rfl
  | crash hs hb => exact ⟨h.isOpen, h.notPutOff, h.accepted, h.frames⟩
  | unclose hs hc =>
    rw [h.notPutOff] at hc
    cases hc
  | locked hs | arm hs | finish hs | timerCb hs => exact (h.absurd_frame hs rfl).elim

theorem step {c c' : Cfg} {a : Act} (h : Writing c.core) (ha : a.isWriting = true) (hok : a.WritesOk)
    (hret : c.Accepts a) (hstep : step c a = some c') : Writing c'.core := by
  by_cases hw : ∃ thread buf res, a = .write thread buf res
  · obtain ⟨thread, buf, res, rfl⟩ := hw
    simp only [Event.step] at hstep
    split_ifs at hstep
    obtain ⟨r, hr, rfl⟩ := Option.map_eq_some_iff.mp hstep
    exact h.written (core_evioWrite c.io c.stack c.broken hr) (hret r hr)
  · exact h.move ha hok (fun thread buf res he => hw ⟨thread, buf, res, he⟩) (step_move hstep).2

end Writing

/-- In every state of a run of `evio_write` and `nio_write` in which no buffer is rejected: the bytes that
were sent and those that are queued are the bytes passed to `evio_write`, in order. -/
theorem write_stream_whole (acts : List Act) {c : Cfg} (hacts : ∀ a ∈ acts, a.isWriting = true ∧ a.WritesOk)
    (hret : Run.Along step Cfg.Accepts .start acts) (hrun : Run.exec step .start acts = some c) :
    (c.io.fd.map Prod.snd).flatten ++ (c.io.writeQueue.toList.map OffsetBuf.unsent).flatten = c.io.submitted.flatten ∧
      c.io.writeBufsize = (c.io.writeQueue.toList.map fun b => b.unsent.length).sum := by
  have h : Writing c.core ∧ Ordered c.core ∧ Ctl c.core ∧ Owned c.core := by
    refine Run.invariant (fun c : Cfg => Writing c.core ∧ Ordered c.core ∧ Ctl c.core ∧ Owned c.core) ?_
      ⟨⟨rfl, rfl, rfl, fun f hf => (by cases hf)⟩, .start, .start, .start⟩
      (Run.along_and.mpr ⟨Run.along_of_mem hacts Cfg.start, hret⟩) hrun
    rintro c a c' ⟨hw, h, hc, ho⟩ ⟨⟨ha, hok⟩, hret⟩ hstep
    obtain ⟨-, hm⟩ := step_move hstep
    refine ⟨hw.step ha hok hret hstep, h.step hc ho hm ?_, hc.step hm, ho.step hc hm⟩
    rintro thread buf res rfl
    exact ⟨hok, fun hr => absurd hw.accepted hr⟩
  obtain ⟨hw, h, -⟩ := h
  refine ⟨h.whole hw.isOpen hw.accepted, (h.size hw.isOpen).trans ?_⟩
  rw [Core.unsent, List.length_flatten, List.map_map]
  rfl

/-- A partial direct write, a message queued behind it from `write_cb`, and the queue sent in pieces. -/
theorem write_stream_whole_partial :
    ∃ c, Run.exec step .start [.write .other [1, 2, 3] (.wrote 1), .writable, .proceed, .nioWrite (.wrote 2),
        .write .loop [4, 5] .again, .cbReturn, .nioWrite (.wrote 1), .cbReturn] = some c ∧
      (c.io.fd.map Prod.snd).flatten ++ (c.io.writeQueue.toList.map OffsetBuf.unsent).flatten =
          c.io.submitted.flatten ∧
        c.io.writeBufsize = (c.io.writeQueue.toList.map fun b => b.unsent.length).sum :=
  ⟨_, rfl, write_stream_whole [.write .other [1, 2, 3] (.wrote 1), .writable, .proceed, .nioWrite (.wrote 2),
    .write .loop [4, 5] .again, .cbReturn, .nioWrite (.wrote 1), .cbReturn] (by decide +kernel) (by decide +kernel) rfl⟩

end Yjc.Event
