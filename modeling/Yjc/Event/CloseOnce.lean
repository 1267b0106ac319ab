import Yjc.Lib.Trace
import Yjc.Event.WriteFree

/-! When `close_cb` runs. Between two calls of `evio_ready` it runs at most once, and after a close that was
put off only when the queue was drained, the io has failed or `evio_close` was called again. -/

namespace Yjc.Event
open Trace

/-- `evio_close` is called without an error while bytes are queued. -/
def Ev.Asks (e : Ev) : Prop := ∃ closer, e = .closeCall closer true 0

/-- The queue was drained, the io has failed, or `evio_close` is called by the application or for the peer;
its calls by `nio_write` after draining and by what has set an error do not count. -/
def Ev.Releases : Ev → Prop
  | .drained => True
  | .failed err => err ≠ 0
  | .closeCall closer _ _ => closer = .app ∨ closer = .event ∨ closer = .hangup
  | _ => False

/-- The condition on the events of an io between two calls of `evio_ready`. -/
def Disciplined (seg : List Ev) : Prop :=
  seg.count .closeCb ≤ 1 ∧ Guarded Ev.Asks Ev.Releases (· = .closeCb) seg

/-- Calls that are made when a close that was put off is not waited for any more. -/
def Frame.endsWait : Frame → Bool
  | .drained | .closing .drain | .closing .timeout | .closing .fault => true
  | _ => false

/-- `seg` is what happened since the io was made ready. -/
structure CloseInv (k : Core) (seg : List Ev) : Prop where
  since : Since .ready k.trace seg
  every : Every .ready Disciplined k.trace
  idle : (∀ e ∈ seg, ¬e.Asks) → k.close = false
  pending : Pending Ev.Asks Ev.Releases seg →
    k.close = true ∧ k.closed = false ∧ ∀ f, k.stack.head? = some f → f.endsWait = false
  unclosed : k.closed = false ∨ k.stack.head? = some .finish → .closeCb ∉ seg

namespace CloseInv
variable {k k' : Core} {seg : List Ev}

theorem disciplined (h : CloseInv k seg) : Disciplined seg := by
  obtain ⟨pre, htr, hm⟩ := h.since
  exact h.every pre seg [] (by rw [htr, List.append_nil]) hm

theorem of_eq (h : CloseInv k seg) (ht : k'.trace = k.trace) (hclose : k'.close = k.close)
    (hclosed : k'.closed = k.closed)
    (htop : ∀ f, k'.stack.head? = some f → f.endsWait = false ∧ f ≠ .finish ∨ k.stack.head? = some f) :
    CloseInv k' seg := by
  refine ⟨by rw [ht]; exact h.since, by rw [ht]; exact h.every, by rw [hclose]; exact h.idle, fun hp => ?_, fun hc => ?_⟩
  · obtain ⟨h1, h2, h3⟩ := h.pending hp
    refine ⟨hclose.trans h1, hclosed.trans h2, fun f hf => ?_⟩
    rcases htop f hf with hf' | hf'
    · exact hf'.1
    · exact h3 f hf'
  · rw [hclosed] at hc
    refine h.unclosed (hc.imp_right fun hf => ?_)
    rcases htop _ hf with hf' | hf'
    · exact absurd rfl hf'.2
    · exact hf'

theorem of_below (h : CloseInv k seg) {f : Frame} {s : List Frame} (hn : (f :: s).Pairwise Inside)
    (hs : k'.stack = s) (ht : k'.trace = k.trace) (hclose : k'.close = k.close) (hclosed : k'.closed = k.closed) :
    CloseInv k' seg := by
  refine h.of_eq ht hclose hclosed fun g hg => .inl ?_
  rw [hs] at hg
  have hw := nested_waits hn hg
  revert hw
  cases g <;> simp [Frame.waits, Frame.endsWait]

theorem log (h : CloseInv k seg) {e : Ev} (ht : k'.trace = k.trace ++ [e]) (he : e ≠ .ready) (hcb : e ≠ .closeCb)
    (hidle : (∀ x ∈ seg, ¬x.Asks) → ¬e.Asks → k'.close = false)
    (hpend : Pending Ev.Asks Ev.Releases (seg ++ [e]) →
      k'.close = true ∧ k'.closed = false ∧ ∀ f, k'.stack.head? = some f → f.endsWait = false)
    (hun : k'.closed = false ∨ k'.stack.head? = some .finish → .closeCb ∉ seg) : CloseInv k' (seg ++ [e]) := by
  obtain ⟨hcount, hguard⟩ := h.disciplined
  have hsince : Since .ready k'.trace (seg ++ [e]) := ht ▸ h.since.snoc he
  refine ⟨hsince, ?_, fun hno => ?_, hpend, fun hc hm => ?_⟩
  · rw [ht] at hsince ⊢
    refine h.every.snoc fun seg' hseg' => ?_
    obtain rfl := hsince.unique hseg'
    refine ⟨?_, hguard.snoc fun hs => absurd hs hcb⟩
    rw [List.count_append, List.count_singleton, if_neg (by simpa using hcb)]
    exact hcount
  · exact hidle (fun x hx => hno x (List.mem_append_left _ hx)) (hno e (List.mem_append_right _ List.mem_cons_self))
  · rcases List.mem_append.mp hm with hm | hm
    · exact hun hc hm
    · exact hcb (List.mem_singleton.mp hm).symm

theorem not_pending_of_releases {e : Ev} (hr : e.Releases) (ha : ¬e.Asks) :
    ¬Pending Ev.Asks Ev.Releases (seg ++ [e]) := by
  intro hp
  rcases pending_snoc hp with ⟨-, hno⟩ | ⟨hasks, -⟩
  · exact hno hr
  · exact ha hasks

theorem release (h : CloseInv k seg) {e : Ev} (ht : k'.trace = k.trace ++ [e]) (hr : e.Releases) (ha : ¬e.Asks)
    (hclose : k'.close = k.close) (hclosed : k'.closed = k.closed)
    (hfin : k'.stack.head? = some .finish → k.stack.head? = some .finish) : CloseInv k' (seg ++ [e]) := by
  have he : e ≠ .ready := by
    rintro rfl
    exact hr
  have hcb : e ≠ .closeCb := by
    rintro rfl
    exact hr
  refine h.log ht he hcb (fun hno _ => hclose.trans (h.idle hno)) (fun hp => ?_) fun hc => ?_
  · exact absurd hp (not_pending_of_releases hr ha)
  · rw [hclosed] at hc
    exact h.unclosed (hc.imp_right hfin)

theorem fail (h : CloseInv k seg) {err : ℕ} (herr : err ≠ 0) (ht : k'.trace = k.trace ++ [Ev.failed err])
    (hclose : k'.close = k.close) (hclosed : k'.closed = k.closed)
    (hfin : k'.stack.head? = some .finish → k.stack.head? = some .finish) : ∃ seg', CloseInv k' seg' :=
  ⟨_, h.release ht herr (by rintro ⟨closer, hc⟩; cases hc) hclose hclosed hfin⟩

theorem locked (h : CloseInv k seg) {closer : Closer} (hl : Locked k closer k')
    (hcl : Pending Ev.Asks Ev.Releases seg → closer = .app ∨ closer = .event ∨ closer = .hangup) :
    ∃ seg', CloseInv k' seg' := by
  cases hl with
  | closed hc => exact ⟨seg, h⟩
  | putOff hc hq he hcl' =>
    refine ⟨_, h.log rfl (by simp) (by simp) (fun _ hno => absurd ⟨closer, rfl⟩ hno) (fun _ => ⟨rfl, hc, fun f hf => ?_⟩)
      fun _ => h.unclosed (.inl hc)⟩
    cases hf
    rfl
  | @taken queued hc hq hno =>
    -- the call is not the first that asks: that one would be put off
    have hasks : (∀ x ∈ seg, ¬x.Asks) → ¬(Ev.closeCall closer queued k.error).Asks := by
      rintro hidle ⟨closer', hcall⟩
      obtain ⟨-, hqueued, herr⟩ := Ev.closeCall.inj hcall
      exact hno ⟨hq.mp hqueued, herr, h.idle hidle⟩
    have hpend : ¬Pending Ev.Asks Ev.Releases (seg ++ [Ev.closeCall closer queued k.error]) := by
      intro hp
      rcases pending_snoc hp with ⟨hp, hrel⟩ | ⟨ha, hidle⟩
      · exact hrel (hcl hp)
      · exact hasks hidle ha
    have h₁ : CloseInv ({ k with closed := true, stack := .finish :: k.stack }.log (.closeCall closer queued k.error))
        (seg ++ [Ev.closeCall closer queued k.error]) :=
      h.log rfl (by simp) (by simp) (fun hidle _ => h.idle hidle) (fun hp => absurd hp hpend)
        fun _ => h.unclosed (.inl hc)
    refine ⟨_, h₁.log rfl (by simp) (by simp) (fun hidle _ => h₁.idle hidle) (fun hp => ?_) fun _ => h₁.unclosed (.inr rfl)⟩
    rcases pending_snoc hp with ⟨hp, -⟩ | ⟨⟨closer', ha⟩, -⟩
    · exact absurd hp hpend
    · cases ha

theorem ready {tr : List Ev} (h : Every .ready Disciplined tr) (ht : k'.trace = tr ++ [Ev.ready])
    (hclose : k'.close = false) : CloseInv k' [] := by
  have hsince : Since .ready k'.trace [] := ht ▸ since_mark _ _
  refine ⟨hsince, ?_, fun _ => hclose, fun hp => ?_, fun _ => List.not_mem_nil⟩
  · rw [ht] at hsince ⊢
    refine h.snoc fun seg' hseg' => ?_
    obtain rfl := hsince.unique hseg'
    exact ⟨Nat.zero_le _, fun before a after x rest heq => by simp at heq⟩
  · obtain ⟨before, a, after, heq, -⟩ := hp
    simp at heq

theorem closeCb (h : CloseInv k seg) (ht : k'.trace = k.trace ++ [Ev.closeCb]) (hclose : k'.close = k.close)
    (hold : k.stack.head? = some .finish) (hnew : k'.stack.head? ≠ some .finish) (hc : k.closed = true)
    (hc' : k'.closed = true) : CloseInv k' (seg ++ [Ev.closeCb]) := by
  obtain ⟨-, hguard⟩ := h.disciplined
  have hno := h.unclosed (.inr hold)
  have hpend : ¬Pending Ev.Asks Ev.Releases seg := by
    intro hp
    have := (h.pending hp).2.1
    rw [hc] at this
    cases this
  have hsince : Since .ready k'.trace (seg ++ [Ev.closeCb]) := ht ▸ h.since.snoc (by simp)
  refine ⟨hsince, ?_, fun hidle => ?_, fun hp => ?_, fun hf => ?_⟩
  · rw [ht] at hsince ⊢
    refine h.every.snoc fun seg' hseg' => ?_
    obtain rfl := hsince.unique hseg'
    refine ⟨Nat.le_of_eq ?_, hguard.snoc fun _ => hpend⟩
    rw [List.count_append, List.count_eq_zero.mpr hno, List.count_singleton_self, Nat.zero_add]
  · exact hclose.trans (h.idle fun x hx => hidle x (List.mem_append_left _ hx))
  · rcases pending_snoc hp with ⟨hp, -⟩ | ⟨⟨closer, ha⟩, -⟩
    · exact absurd hp hpend
    · cases ha
  · rcases hf with hf | hf
    · rw [hc'] at hf
      cases hf
    · exact absurd hf hnew

theorem turn (h : CloseInv k seg) {a : Act} {s s' : List Frame} (hs : k.stack = s) (hn : s.Pairwise Inside)
    (ht : Turn k a s s') : CloseInv { k with stack := s' } seg := by
  cases ht with
  | event | hangup | writable | heartbeat | write | disconnect =>
    exact h.of_eq rfl rfl rfl fun f hf => .inl (by cases hf; exact ⟨rfl, by simp⟩)
  | again | drained | closeCb | connectCb | heartbeatCb | partialWrite => exact h.of_below hn rfl rfl rfl rfl

theorem written (h : CloseInv k seg) {buf : List UInt8} {res : WriteResult} {ret : ℤ} (hw : Written k buf res k' ret) :
    ∃ seg', CloseInv k' seg' := by
  cases hw with
  | closed | hungUp | rejected | queued | whole => exact ⟨seg, h.of_eq rfl rfl rfl fun f hf => .inr hf⟩
  | failed hc hq hres herr => exact h.fail herr rfl rfl rfl id

theorem step (h : CloseInv k seg) (hc : Ctl k) {a : Act} (hm : Move k a k') : ∃ seg', CloseInv k' seg' := by
  have hn := hc.nested
  have htop : ∀ {f}, k.stack.head? = some f → f.endsWait = true → ¬Pending Ev.Asks Ev.Releases seg := by
    intro f hf he hp
    rw [(h.pending hp).2.2 f hf] at he
    cases he
  cases hm with
  | stay => exact ⟨seg, h⟩
  | limit | connectOk | delTimeout | resetTimeout | armTimeout | crash =>
    exact ⟨seg, h.of_eq rfl rfl rfl fun f hf => .inr hf⟩
  | rearm hs ht hid =>
    refine ⟨seg, ?_⟩
    split_ifs <;> exact h.of_eq rfl rfl rfl fun f hf => .inr hf
  | turn ht => exact ⟨seg, h.turn rfl hn ht⟩
  | write _ _ hw => exact h.written hw
  | close ht hl => exact h.locked hl fun _ => .inl rfl
  | ready ht hr => exact ⟨[], .ready h.every rfl rfl⟩
  | connectFail ht herr => exact h.fail herr rfl rfl rfl id
  | connectWait ht hk =>
    subst hk
    split_ifs
    · exact ⟨seg, h.of_eq rfl rfl rfl fun f hf => .inr hf⟩
    · exact ⟨[], .ready h.every rfl rfl⟩
  | fail herr he => exact h.fail herr rfl rfl rfl fun hf => by cases hf
  | connected he => exact ⟨seg, h.of_eq rfl rfl rfl fun f hf => .inl (by cases hf; exact ⟨rfl, by simp⟩)⟩
  | expire hs ht => exact h.fail (by decide) rfl rfl rfl fun hf => by cases hf
  | drain hs hq => exact ⟨_, h.release rfl trivial (by rintro ⟨closer, ha⟩; cases ha) rfl rfl fun hf => by cases hf⟩
  | send hs hq hle h0 => exact ⟨seg, h.of_eq rfl rfl rfl fun f hf => .inl (by cases hf; exact ⟨rfl, by simp⟩)⟩
  | @pop base b q s hs hq hf =>
    rw [hs] at hn
    refine ⟨seg, ?_⟩
    split_ifs
    · exact h.of_below hn rfl rfl rfl rfl
    · exact h.of_eq rfl rfl rfl fun f hf => .inl (by cases hf; exact ⟨rfl, by simp⟩)
  | unclose hs hcl =>
    have hp := htop (f := .drained) (by rw [hs]; rfl) rfl
    refine ⟨seg, h.since, h.every, fun _ => rfl, fun hp' => absurd hp' hp, fun hu => h.unclosed (hu.imp_right fun hf => ?_)⟩
    cases hf
  | @locked closer s k' hs hl =>
    rw [hs] at hn
    have h' : CloseInv { k with stack := s } seg := h.of_below hn rfl rfl rfl rfl
    refine h'.locked hl fun hp => ?_
    have hw := (h.pending hp).2.2 (.closing closer) (by rw [hs]; rfl)
    cases closer <;> simp_all [Frame.endsWait]
  | arm hs =>
    rw [hs] at hn
    exact ⟨seg, h.of_below hn rfl rfl rfl rfl⟩
  | finish hs =>
    have hcl := (hc.finish.mp (by rw [hs]; rfl)).1
    exact ⟨_, h.closeCb rfl rfl (by rw [hs]; rfl) (fun hf => by cases hf) hcl rfl⟩
  | timerCb hs =>
    rw [hs] at hn
    exact ⟨seg, h.of_below hn rfl rfl rfl rfl⟩

end CloseInv

/-- In every run, of the events between two calls of `evio_ready`: `close_cb` is called at most once, and
after the first `evio_close` that finds bytes queued and no error, only when the queue was drained, the io
has failed or `evio_close` was called again. -/
theorem closeCb_disciplined (acts : List Act) {c : Cfg} (hrun : Run.exec step .start acts = some c)
    (pre seg post : List Ev) (htr : c.io.trace = pre ++ Ev.ready :: seg ++ post) (hseg : .ready ∉ seg) :
    seg.count .closeCb ≤ 1 ∧
      ∀ before closer after rest, seg = before ++ Ev.closeCall closer true 0 :: after ++ Ev.closeCb :: rest →
        (∀ closer', .closeCall closer' true 0 ∉ before) → ∃ e ∈ after, e.Releases := by
  have h : Ctl c.core ∧ ∃ seg, CloseInv c.core seg := by
    refine Run.invariant (fun c : Cfg => Ctl c.core ∧ ∃ seg, CloseInv c.core seg) ?_ ?_
      (Run.along_of_forall (fun _ _ => trivial) _ _) hrun
    · rintro c a c' ⟨hc, seg, h⟩ - hstep
      obtain ⟨-, hm⟩ := step_move hstep
      exact ⟨hc.step hm, h.step hc hm⟩
    · have hnil : Every Ev.ready Disciplined [] := fun pre seg post heq => by simp at heq
      exact ⟨.start, [], .ready hnil rfl rfl⟩
  obtain ⟨-, seg', h⟩ := h
  obtain ⟨hcount, hguard⟩ := h.every pre seg post htr hseg
  refine ⟨hcount, fun before closer after rest heq hb => hguard before _ after _ rest heq ⟨closer, rfl⟩ rfl ?_⟩
  rintro e he ⟨closer', rfl⟩
  exact hb closer' he

/-- A close is put off, and `close_cb` runs when `nio_write` has drained the queue. -/
theorem closeCb_disciplined_drained :
    ∃ c, Run.exec step .start [.write .other [1] .again, .close, .proceed, .writable, .proceed, .nioWrite (.wrote 1),
        .cbReturn, .nioWrite .again, .proceed, .proceed, .proceed, .cbReturn] = some c ∧
      c.io.trace = [] ++ Ev.ready :: [.closeCall .app true 0, .drained, .closeCall .drain false 0, .closed, .closeCb] ++ [] ∧
      [Ev.closeCall .app true 0, .drained, .closeCall .drain false 0, .closed, .closeCb].count .closeCb ≤ 1 ∧
      ∀ before closer after rest,
        [Ev.closeCall .app true 0, .drained, .closeCall .drain false 0, .closed, .closeCb] =
          before ++ Ev.closeCall closer true 0 :: after ++ Ev.closeCb :: rest →
        (∀ closer', .closeCall closer' true 0 ∉ before) → ∃ e ∈ after, e.Releases :=
  ⟨_, rfl, rfl, closeCb_disciplined [.write .other [1] .again, .close, .proceed, .writable, .proceed, .nioWrite (.wrote 1),
    .cbReturn, .nioWrite .again, .proceed, .proceed, .proceed, .cbReturn] rfl [] _ [] rfl (by decide)⟩

end Yjc.Event
