import Yjc.Event.WriteControl

/-! Who owns the queued buffers. A buffer is queued until it is freed; while `write_cb` runs for a sent
one it is the front of the queue, unless a close that took effect has freed it. -/

namespace Yjc.Event

def Frame.outermost : Frame → Bool
  | .events | .write | .writeCb _ _ | .drained => true
  | _ => false

def Frame.waits : Frame → Bool
  | .writeCb _ _ | .closeCb | .connectCb | .heartbeatCb | .timerCb _ => true
  | _ => false

/-- `f` may be called inside `g`. -/
def Inside (f g : Frame) : Prop := f.outermost = false ∧ g.waits = true

structure Ctl (k : Core) : Prop where
  nested : k.stack.Pairwise Inside
  isOpen : k.closed = false → k.ready = true
  finish : k.stack.head? = some .finish ↔ k.closed = true ∧ k.ready = true
  done : k.ready = false → k.queue = []

theorem nested_outermost {f : Frame} {s : List Frame} (h : (f :: s).Pairwise Inside) (hf : f.outermost = true) :
    s = [] := by
  cases s with
  | nil => rfl
  | cons g s =>
    have := (List.rel_of_pairwise_cons h List.mem_cons_self).1
    rw [hf] at this
    cases this

theorem nested_waits {f g : Frame} {s : List Frame} (h : (f :: s).Pairwise Inside) (hg : s.head? = some g) :
    g.waits = true :=
  (List.rel_of_pairwise_cons h (List.mem_of_head? hg)).2

theorem nested_below {f : Frame} {s : List Frame} (h : (f :: s).Pairwise Inside) : s.head? ≠ some .finish := by
  intro hs
  cases nested_waits h hs

theorem nested_ends {err : Option ℕ} {a : Act} {s s' : List Frame} (h : s.Pairwise Inside) (he : Ends err a s s') :
    s' = [] := by
  cases he with
  | read | connect => rfl
  | events s | write s => exact nested_outermost h rfl

theorem nested_replace {f g : Frame} {s : List Frame} (h : (f :: s).Pairwise Inside)
    (hg : g.outermost = true → f.outermost = true) : (g :: s).Pairwise Inside := by
  -- above a call that returns another one can be made
  refine List.pairwise_cons.mpr ⟨fun x hx => ⟨?_, (List.rel_of_pairwise_cons h hx).2⟩, h.of_cons⟩
  by_contra hne
  rw [nested_outermost h (hg (by simpa using hne))] at hx
  cases hx

theorem Core.appTurn_isCb {k : Core} (h : k.appTurn = true) {f : Frame} (hf : k.stack.head? = some f) :
    f.isCb = true := by
  obtain ⟨s, hs⟩ := List.head?_eq_some_iff.mp hf
  rw [Core.appTurn, hs] at h
  exact h

theorem Core.appTurn_head {k : Core} (h : k.appTurn = true) : k.stack.head? ≠ some .finish := by
  intro hs
  cases Core.appTurn_isCb h hs

theorem Frame.waits_of_isCb {f : Frame} (h : f.isCb = true) : f.waits = true := by
  cases f <;> first | rfl | cases h

theorem nested_push {k : Core} {f : Frame} (h : k.stack.Pairwise Inside) (ht : k.appTurn = true)
    (hf : f.outermost = false) : (f :: k.stack).Pairwise Inside := by
  refine List.pairwise_cons.mpr ⟨fun g hg => ⟨hf, ?_⟩, h⟩
  cases hs : k.stack with
  | nil =>
    rw [hs] at hg
    cases hg
  | cons g' s =>
    rw [hs] at hg h
    rcases List.mem_cons.mp hg with rfl | hg
    · exact Frame.waits_of_isCb (Core.appTurn_isCb ht (by rw [hs]; rfl))
    · exact (List.rel_of_pairwise_cons h hg).2

namespace Ctl
variable {k k' : Core}

theorem of_eq (h : Ctl k) (hs : k'.stack = k.stack) (hc : k'.closed = k.closed) (hr : k'.ready = k.ready)
    (hq : k'.queue = k.queue) : Ctl k' := by
  obtain ⟨h1, h2, h3, h4⟩ := h
  exact ⟨by rwa [hs], by rwa [hc, hr], by rwa [hs, hc, hr], by rwa [hr, hq]⟩

theorem of_stack (h : Ctl k) (hold : k.stack.head? ≠ some .finish) (hnew : k'.stack.head? ≠ some .finish)
    (hs : k'.stack.Pairwise Inside) (hc : k'.closed = k.closed) (hr : k'.ready = k.ready) (hq : k'.queue = k.queue) :
    Ctl k' := by
  obtain ⟨h1, h2, h3, h4⟩ := h
  refine ⟨hs, by rwa [hc, hr], ?_, by rwa [hr, hq]⟩
  rw [hc, hr, ← h3]
  exact ⟨fun hf => absurd hf hnew, fun hf => absurd hf hold⟩

theorem turn (h : Ctl k) {a : Act} {s s' : List Frame} (hs : k.stack = s) (ht : Turn k a s s') : Ctl { k with stack := s' } := by
  have hn := h.nested
  rw [hs] at hn
  have hold : k.stack.head? ≠ some .finish := by
    rw [hs]
    cases ht <;> simp
  cases ht with
  | event | hangup | writable | heartbeat =>
    exact h.of_stack hold (by simp) (List.pairwise_singleton _ _) rfl rfl rfl
  | write s => exact h.of_stack hold (by simp) (nested_replace hn fun _ => rfl) rfl rfl rfl
  | disconnect s => exact h.of_stack hold (by simp) (nested_replace hn fun ho => by cases ho) rfl rfl rfl
  | again s | drained s | closeCb s | connectCb s | heartbeatCb s | partialWrite base s =>
    exact h.of_stack hold (nested_below hn) hn.of_cons rfl rfl rfl

theorem ends (h : Ctl k) {err : Option ℕ} {a : Act} {s s' : List Frame} (hs : k.stack = s) (he : Ends err a s s')
    {f : Frame} (hfin : f ≠ .finish) : Ctl { k with stack := f :: s' } := by
  have hold : k.stack.head? ≠ some .finish := by
    rw [hs]
    cases he <;> simp
  obtain rfl := nested_ends (hs ▸ h.nested) he
  exact h.of_stack hold (by simpa using hfin) (List.pairwise_singleton _ _) rfl rfl rfl

theorem written (h : Ctl k) {buf : List UInt8} {res : WriteResult} {ret : ℤ} (hw : Written k buf res k' ret) : Ctl k' := by
  cases hw with
  | closed | failed | hungUp | rejected | whole => exact h.of_eq rfl rfl rfl rfl
  | queued hc ht hlt hfit =>
    refine ⟨h.nested, h.isOpen, h.finish, fun hr => ?_⟩
    have hr' : k.ready = false := hr
    rw [h.isOpen hc] at hr'
    cases hr'

theorem locked (h : Ctl k) {closer : Closer} (hl : Locked k closer k') (hn : (Frame.arm :: k.stack).Pairwise Inside)
    (hold : k.stack.head? ≠ some .finish) : Ctl k' := by
  cases hl with
  | closed hc => exact h
  | putOff hc hq he hcl => exact h.of_stack hold (by simp [Core.log]) hn rfl rfl rfl
  | taken hc hq hno =>
    refine ⟨nested_replace hn fun ho => (by cases ho), fun hf => ?_, ?_, h.done⟩
    · cases hf
    · simpa [Core.log] using h.isOpen hc

theorem step (h : Ctl k) {a : Act} (hm : Move k a k') : Ctl k' := by
  have hn := h.nested
  cases hm with
  | stay => exact h
  | limit => exact h.of_eq rfl rfl rfl rfl
  | turn ht => exact h.turn rfl ht
  | write _ _ hw => exact h.written hw
  | close ht hl => exact h.locked hl (nested_push hn ht rfl) (Core.appTurn_head ht)
  | ready ht hr =>
    refine ⟨hn, fun _ => rfl, ?_, fun hf => by cases hf⟩
    exact ⟨fun hf => absurd hf (Core.appTurn_head ht), fun hf => (by cases hf.1)⟩
  | connectFail ht herr => exact h.of_eq rfl rfl rfl rfl
  | connectOk ht => exact h.of_eq rfl rfl rfl rfl
  | connectWait ht hk =>
    subst hk
    split_ifs
    · exact h.of_eq rfl rfl rfl rfl
    · refine ⟨hn, fun _ => rfl, ?_, fun hf => by cases hf⟩
      exact ⟨fun hf => absurd hf (Core.appTurn_head ht), fun hf => (by cases hf.1)⟩
  | delTimeout ht => exact h.of_eq rfl rfl rfl rfl
  | resetTimeout ht hid => exact h.of_eq rfl rfl rfl rfl
  | armTimeout => exact h.of_eq rfl rfl rfl rfl
  | fail herr he => exact (h.ends rfl he (by simp) (f := .closing .fault)).of_eq rfl rfl rfl rfl
  | connected he => exact (h.ends rfl he (by simp) (f := .connectCb)).of_eq rfl rfl rfl rfl
  | expire hs ht =>
    refine h.of_stack (by simp [hs]) (by simp [Core.fail, Core.log]) ?_ rfl rfl rfl
    simp [Core.fail, Core.log, Inside, Frame.outermost, Frame.waits]
  | rearm hs ht hid => split_ifs <;> exact h.of_eq rfl rfl rfl rfl
  | drain hs hq =>
    rw [hs] at hn
    exact h.of_stack (by simp [hs]) (by simp [Core.log]) (nested_replace hn fun _ => rfl) rfl rfl rfl
  | send hs hq hle h0 =>
    rw [hs] at hn
    refine ⟨nested_replace hn fun _ => rfl, h.isOpen, ?_, fun hr => ?_⟩
    · have := h.finish
      rw [hs] at this
      simpa using this
    · have := h.done hr
      rw [hq] at this
      cases this
  | @pop base b q s hs hq hf =>
    rw [hs] at hn
    have hfin := h.finish
    rw [hs] at hfin
    have hnew : (if k.closed then s else .write :: s).head? ≠ some .finish := by
      split_ifs
      · exact nested_below hn
      · simp
    refine ⟨?_, h.isOpen, ⟨fun hh => absurd hh hnew, fun hh => absurd (hfin.mpr hh) (by simp)⟩, fun hr => ?_⟩
    · dsimp only
      split_ifs
      · exact hn.of_cons
      · exact nested_replace hn fun _ => rfl
    · have := h.done hr
      rw [hq] at this
      cases this
  | crash hs hb => exact h.of_eq rfl rfl rfl rfl
  | unclose hs hc =>
    rw [hs] at hn
    exact h.of_stack (by simp [hs]) (by simp) (nested_replace hn fun _ => rfl) rfl rfl rfl
  | @locked closer s k' hs hl =>
    rw [hs] at hn
    have h' : Ctl { k with stack := s } := h.of_stack (by simp [hs]) (nested_below hn) hn.of_cons rfl rfl rfl
    exact h'.locked hl (nested_replace hn fun ho => by cases ho) (nested_below hn)
  | arm hs =>
    rw [hs] at hn
    exact h.of_stack (by simp [hs]) (nested_below hn) hn.of_cons rfl rfl rfl
  | finish hs =>
    rw [hs] at hn
    have hr := (h.finish.mp (by rw [hs]; rfl)).2
    refine ⟨nested_replace hn fun ho => (by cases ho), fun hf => (by cases hf), ?_, fun _ => if_pos hr⟩
    exact ⟨fun hf => (by cases hf), fun hf => by cases hf.2⟩
  | timerCb hs =>
    rw [hs] at hn
    exact h.of_stack (by simp [hs]) (nested_below hn) hn.of_cons rfl rfl rfl

end Ctl

/-! ## Buffers -/

/-- Every buffer that was allocated is queued or freed; the one that `write_cb` runs for is the front of
the queue or freed. -/
structure Owned (k : Core) : Prop where
  perm : k.broken = false → (k.freed ++ k.queue.map (·.base)).Perm (List.range k.nextBase)
  front : ∀ base, .writeCb base true ∈ k.stack →
    base ∈ k.freed ∨ ∃ b q, k.queue = b :: q ∧ b.base = base ∧ b.unsent = []

namespace Owned
variable {k k' : Core}

theorem of_eq (h : Owned k) (hs : ∀ base, .writeCb base true ∈ k'.stack → .writeCb base true ∈ k.stack)
    (hb : k'.broken = k.broken) (hq : k'.queue = k.queue) (hf : k'.freed = k.freed) (hn : k'.nextBase = k.nextBase) :
    Owned k' := by
  obtain ⟨h1, h2⟩ := h
  refine ⟨by rwa [hb, hq, hf, hn], fun base hm => ?_⟩
  rw [hq, hf]
  exact h2 base (hs base hm)

theorem turn (h : Owned k) {a : Act} {s s' : List Frame} (hs : k.stack = s) (ht : Turn k a s s') : Owned { k with stack := s' } := by
  refine h.of_eq (fun base hm => ?_) rfl rfl rfl rfl
  rw [hs]
  cases ht <;> simp_all

theorem written (h : Owned k) {buf : List UInt8} {res : WriteResult} {ret : ℤ} (hw : Written k buf res k' ret) :
    Owned k' := by
  cases hw with
  | closed | failed | hungUp | rejected | whole => exact h.of_eq (fun _ => id) rfl rfl rfl rfl
  | @queued n hc ht hlt hfit =>
    refine ⟨fun hb => ?_, fun base hm => ?_⟩
    · change (k.freed ++ (k.queue ++ [_]).map _).Perm (List.range (k.nextBase + 1))
      rw [List.map_append, ← List.append_assoc, List.range_succ]
      exact (h.perm hb).append_right _
    · rcases h.front base hm with hf | ⟨b, q, hq, hbase, hu⟩
      · exact .inl hf
      · refine .inr ⟨b, q ++ [⟨k.nextBase, k.submitted.length, buf.drop n, 0⟩], ?_, hbase, hu⟩
        exact (congrArg (· ++ _) hq).trans (List.cons_append ..)

theorem locked (h : Owned k) {closer : Closer} (hl : Locked k closer k') : Owned k' := by
  cases hl with
  | closed hc => exact h
  | putOff hc hq he hcl => exact h.of_eq (fun base hm => by simpa [Core.log] using hm) rfl rfl rfl rfl
  | taken hc hq hno => exact h.of_eq (fun base hm => by simpa [Core.log] using hm) rfl rfl rfl rfl

theorem step (h : Owned k) (hc : Ctl k) {a : Act} (hm : Move k a k') : Owned k' := by
  have hn := hc.nested
  cases hm with
  | stay => exact h
  | limit | ready | connectFail | connectOk | delTimeout | resetTimeout | armTimeout =>
    exact h.of_eq (fun _ => id) rfl rfl rfl rfl
  | connectWait ht hk =>
    subst hk
    split_ifs <;> exact h.of_eq (fun _ => id) rfl rfl rfl rfl
  | turn ht => exact h.turn rfl ht
  | write _ _ hw => exact h.written hw
  | close ht hl => exact h.locked hl
  | fail herr he =>
    refine h.of_eq (fun base hm => ?_) rfl rfl rfl rfl
    simp only [Core.fail, Core.log, List.mem_cons, reduceCtorEq, false_or] at hm
    rw [nested_ends hn he] at hm
    cases hm
  | connected he =>
    refine h.of_eq (fun base hm => ?_) rfl rfl rfl rfl
    simp only [Core.del, List.mem_cons, reduceCtorEq, false_or] at hm
    rw [nested_ends hn he] at hm
    cases hm
  | expire hs ht => exact h.of_eq (fun base hm => by simp [Core.fail, Core.log] at hm) rfl rfl rfl rfl
  | rearm hs ht hid => split_ifs <;> exact h.of_eq (fun _ => id) rfl rfl rfl rfl
  | drain hs hq => exact h.of_eq (fun base hm => by simpa [hs, Core.log] using hm) rfl rfl rfl rfl
  | @send n b q s hs hq hle h0 =>
    rw [hs] at hn
    have hs' := nested_outermost hn rfl
    subst hs'
    refine ⟨fun hb => ?_, fun base hm => .inr ⟨_, q, rfl, ?_⟩⟩
    · have := h.perm hb
      rw [hq] at this
      exact this
    · simp only [List.mem_singleton, Frame.writeCb.injEq] at hm
      obtain ⟨rfl, hfull⟩ := hm
      have hfull' : n = b.unsent.length := by simpa using hfull.symm
      refine ⟨rfl, ?_⟩
      change b.data.drop (b.offset + n) = []
      rw [← List.drop_drop, hfull']
      exact List.drop_length
  | @pop base b q s hs hq hf =>
    rw [hs] at hn
    have hs' := nested_outermost hn rfl
    subst hs'
    refine ⟨fun hb => ?_, fun base' hm => ?_⟩
    -- the entry that is popped is the one `write_cb` ran for
    · rcases h.front base (by rw [hs]; exact List.mem_cons_self) with hf' | ⟨b', q', hq', hbase, -⟩
      · exact absurd hf' hf
      · rw [hq] at hq'
        cases hq'
        have := h.perm hb
        rw [hq, List.map_cons, hbase] at this
        simpa using this
    · dsimp only at hm
      split_ifs at hm <;> simp at hm
  | crash hs hb => exact ⟨fun hb => (by cases hb), fun base hm => (h.front base hm).imp_left (List.mem_append_left _)⟩
  | unclose hs hc => exact h.of_eq (fun base hm => by simpa [hs] using hm) rfl rfl rfl rfl
  | @locked closer s k' hs hl =>
    have h' : Owned { k with stack := s } := h.of_eq (fun base hm => by simpa [hs] using hm) rfl rfl rfl rfl
    exact h'.locked hl
  | arm hs => exact h.of_eq (fun base hm => by simpa [hs, Core.arm] using hm) rfl rfl rfl rfl
  | @finish s hs =>
    have hr := (hc.finish.mp (by rw [hs]; rfl)).2
    refine ⟨fun hb => ?_, fun base hm => .inl ?_⟩
    · change ((if k.ready then k.freed ++ k.queue.map (·.base) else k.freed) ++
        (if k.ready then [] else k.queue).map (·.base)).Perm (List.range k.nextBase)
      rw [if_pos hr, if_pos hr, List.map_nil, List.append_nil]
      exact h.perm hb
    · change base ∈ if k.ready then k.freed ++ k.queue.map (·.base) else k.freed
      rw [if_pos hr]
      -- `evio_done` frees the entry of a `write_cb` that `evio_close` was called in
      have hm' : Frame.writeCb base true ∈ k.stack := by
        rw [hs]
        exact List.mem_cons_of_mem _ (List.mem_of_ne_of_mem (by simp) hm)
      rcases h.front base hm' with hf | ⟨b, q, hq, hbase, -⟩
      · exact List.mem_append_left _ hf
      · rw [hq, ← hbase]
        simp
  | timerCb hs => exact h.of_eq (fun base hm => by simpa [hs, Core.expire] using hm) rfl rfl rfl rfl

end Owned

/-- The buffer that `write_cb` runs for is not freed, and no close that would free it is under way. -/
structure Spared (k : Core) : Prop where
  unfreed : ∀ base, .writeCb base true ∈ k.stack → base ∉ k.freed
  calm : ∀ base, .writeCb base true ∈ k.stack.tail →
    k.stack.head? ≠ some .finish ∧ ∀ closer, k.stack.head? ≠ some (.closing closer)

namespace Spared
variable {k k' : Core}

theorem of_eq (h : Spared k) (hs : k'.stack = k.stack) (hf : k'.freed = k.freed) : Spared k' := by
  obtain ⟨h1, h2⟩ := h
  exact ⟨by rwa [hs, hf], by rwa [hs]⟩

theorem of_below (h : Spared k) {f : Frame} {s : List Frame} (hs : k.stack = f :: s)
    (hn : (f :: s).Pairwise Inside) (hs' : k'.stack = s) (hf : k'.freed = k.freed) : Spared k' := by
  refine ⟨fun base hm => ?_, fun base hm => ?_⟩
  · rw [hf]
    apply h.unfreed base
    rw [hs]
    exact List.mem_cons_of_mem _ (hs' ▸ hm)
  · rw [hs']
    have hw : ∀ g, s.head? = some g → g.waits = true := fun g hg =>
      (List.rel_of_pairwise_cons hn (List.mem_of_head? hg)).2
    exact ⟨fun hg => (by cases hw _ hg), fun closer hg => (by cases hw _ hg)⟩

theorem of_none (hs : ∀ base, .writeCb base true ∉ k.stack) : Spared k :=
  ⟨fun base hm => absurd hm (hs base), fun base hm => absurd (List.mem_of_mem_tail hm) (hs base)⟩

theorem turn (h : Spared k) {a : Act} {s s' : List Frame} (hs : k.stack = s) (hn : s.Pairwise Inside)
    (ht : Turn k a s s') :
    Spared { k with stack := s' } := by
  cases ht with
  | event | hangup | writable | heartbeat => exact of_none (by simp)
  | write s | disconnect s =>
    have hs' := nested_outermost hn rfl
    subst hs'
    exact of_none (by simp)
  | again s | drained s | closeCb s | connectCb s | heartbeatCb s | partialWrite base s => exact h.of_below hs hn rfl rfl

theorem written (h : Spared k) {buf : List UInt8} {res : WriteResult} {ret : ℤ} (hw : Written k buf res k' ret) :
    Spared k' := by
  cases hw <;> exact h.of_eq rfl rfl

theorem step (h : Spared k) (hc : Ctl k) (ho : Owned k) (hb : k.broken = false) {a : Act} (hm : Move k a k')
    (hclose : a = .close → ∀ base, .writeCb base true ∈ k.stack →
      k.closed = true ∨ k.queue ≠ [] ∧ k.error = 0 ∧ k.close = false) :
    Spared k' ∧ k'.broken = false := by
  have hn := hc.nested
  cases hm with
  | stay => exact ⟨h, hb⟩
  | limit | ready | connectFail | connectOk | delTimeout | resetTimeout | armTimeout => exact ⟨h.of_eq rfl rfl, hb⟩
  | connectWait ht hk =>
    subst hk
    split_ifs <;> exact ⟨h.of_eq rfl rfl, hb⟩
  | turn ht => exact ⟨h.turn rfl hn ht, hb⟩
  | write _ _ hw =>
    refine ⟨h.written hw, ?_⟩
    cases hw <;> exact hb
  | close ht hl =>
    cases hl with
    | closed hc => exact ⟨h, hb⟩
    | putOff hc hq he hcl =>
      refine ⟨⟨fun base hm => h.unfreed base ?_, fun base hm => ⟨by simp [Core.log], by simp [Core.log]⟩⟩, hb⟩
      simpa [Core.log] using hm
    | taken hc hq hno =>
      refine ⟨of_none fun base hm => ?_, hb⟩
      have hm' : Frame.writeCb base true ∈ k.stack := by simpa [Core.log] using hm
      rcases hclose rfl base hm' with hcl | hp
      · rw [hc] at hcl
        cases hcl
      · exact hno hp
  | @fail a err s herr he =>
    obtain rfl := nested_ends hn he
    exact ⟨of_none (by simp [Core.fail, Core.log]), hb⟩
  | @connected a s he =>
    obtain rfl := nested_ends hn he
    exact ⟨of_none (by simp [Core.del]), hb⟩
  | expire hs ht => exact ⟨of_none (by simp [Core.fail, Core.log]), hb⟩
  | rearm hs ht hid => split_ifs <;> exact ⟨h.of_eq rfl rfl, hb⟩
  | @drain res s hs hq =>
    rw [hs] at hn
    obtain rfl := nested_outermost hn rfl
    exact ⟨of_none (by simp [Core.log]), hb⟩
  | @send n b q s hs hq hle h0 =>
    rw [hs] at hn
    obtain rfl := nested_outermost hn rfl
    have hnd := (ho.perm hb).nodup_iff.mpr (List.nodup_range)
    rw [hq, List.map_cons] at hnd
    refine ⟨⟨fun base hm hf => ?_, fun base hm => ?_⟩, hb⟩
    · simp only [List.mem_singleton, Frame.writeCb.injEq] at hm
      obtain ⟨rfl, -⟩ := hm
      exact (List.nodup_append.mp hnd).2.2 _ hf _ List.mem_cons_self rfl
    · cases hm
  | @pop base b q s hs hq hf =>
    rw [hs] at hn
    obtain rfl := nested_outermost hn rfl
    refine ⟨of_none fun base hm => ?_, hb⟩
    dsimp only at hm
    split_ifs at hm <;> simp at hm
  | @crash base s hs hcr =>
    -- the buffer is still there
    have hmem : Frame.writeCb base true ∈ k.stack := by
      rw [hs]
      exact List.mem_cons_self
    have hunf := h.unfreed base hmem
    rcases ho.front base hmem with hf | ⟨b, q, hq, -⟩
    · exact absurd hf hunf
    · rcases hcr with hcr | hcr
      · rw [hq] at hcr
        cases hcr
      · exact absurd hcr hunf
  | @unclose s hs hcl =>
    rw [hs] at hn
    obtain rfl := nested_outermost hn rfl
    exact ⟨of_none (by simp), hb⟩
  | @locked closer s k' hs hl =>
    have hnone : ∀ base, .writeCb base true ∉ s := fun base hm =>
      (h.calm base (by rw [hs]; exact hm)).2 closer (by rw [hs]; rfl)
    cases hl with
    | closed hc => exact ⟨of_none hnone, hb⟩
    | putOff hc hq he hcl => exact ⟨of_none (by simpa [Core.log] using hnone), hb⟩
    | taken hc hq hno => exact ⟨of_none (by simpa [Core.log] using hnone), hb⟩
  | arm hs =>
    rw [hs] at hn
    exact ⟨h.of_below hs hn rfl rfl, hb⟩
  | @finish s hs =>
    have hnone : ∀ base, .writeCb base true ∉ s := fun base hm =>
      (h.calm base (by rw [hs]; exact hm)).1 (by rw [hs]; rfl)
    refine ⟨of_none fun base hm => hnone base ?_, hb⟩
    exact List.mem_of_ne_of_mem (by simp) hm
  | timerCb hs =>
    rw [hs] at hn
    exact ⟨h.of_below hs hn rfl rfl, hb⟩

end Spared

/-! ## Runs -/

theorem Ctl.start : Ctl Cfg.start.core :=
  ⟨.nil, fun _ => rfl, ⟨fun h => (by cases h), fun h => (by cases h.1)⟩, fun h => (by cases h)⟩

theorem Owned.start : Owned Cfg.start.core := by
  refine ⟨fun _ => ?_, fun base hm => (by cases hm)⟩
  exact .nil

/-- `write_cb`, called by `nio_write` for a buffer that is sent. -/
def Frame.afterSent : Frame → Bool
  | .writeCb _ full => full
  | _ => false

/-- Inside `write_cb` for a buffer that is sent, `evio_close` is only called where it puts the close off
or finds the io closed. -/
def Cfg.ClosesLater (c : Cfg) : Act → Prop
  | .close => (∃ f ∈ c.stack, f.afterSent = true) → c.io.closed = true ∨ c.io.putsOffClose = true
  | _ => True

instance (c : Cfg) (a : Act) : Decidable (c.ClosesLater a) :=
  match a with
  | .close => inferInstanceAs (Decidable (_ → _))
  | .write .. | .closeAsync | .get _ | .connect .. | .setTimeout .. | .setMaxWriteBufsize _ | .closeEvent
  | .connectEvent _ | .fire .. | .hangup _ | .writable | .nioConnect _ | .nioWrite _ | .cbReturn | .proceed =>
    inferInstanceAs (Decidable True)

theorem putsOffClose_iff {c : Cfg} :
    c.io.putsOffClose = true ↔ c.core.queue ≠ [] ∧ c.core.error = 0 ∧ c.core.close = false := by
  have hempty : (!c.io.writeQueue.empty) = true ↔ c.core.queue ≠ [] := by
    rw [Ne, Bool.not_eq_true', ← Bool.not_eq_true, c.io.writeQueue.empty_iff]
    rfl
  simp only [Evio.putsOffClose, Bool.and_eq_true, decide_eq_true_eq, hempty, and_assoc, Bool.not_eq_true']
  rfl

/-- In every run in which `write_cb` does not close under `nio_write`: each buffer is queued or was freed
once, and no freed or absent one is touched. -/
theorem writeQueue_freed_once (acts : List Act) {c : Cfg} (hsafe : Run.Along step Cfg.ClosesLater .start acts)
    (hrun : Run.exec step .start acts = some c) :
    c.broken = false ∧ (c.io.freed ++ c.io.writeQueue.toList.map (·.base)).Perm (List.range c.io.nextBase) := by
  have h : (Ctl c.core ∧ Owned c.core) ∧ Spared c.core ∧ c.core.broken = false := by
    refine Run.invariant (fun c => (Ctl c.core ∧ Owned c.core) ∧ Spared c.core ∧ c.core.broken = false) ?_ ?_ hsafe hrun
    · rintro c a c' ⟨⟨hc, ho⟩, hs, hb⟩ hok hstep
      obtain ⟨-, hm⟩ := step_move hstep
      refine ⟨⟨hc.step hm, ho.step hc hm⟩, hs.step hc ho hb hm ?_⟩
      rintro rfl base hmem
      exact (hok ⟨_, hmem, rfl⟩).imp_right putsOffClose_iff.mp
    · exact ⟨⟨.start, .start⟩, .of_none fun base hm => (by cases hm), rfl⟩
  exact ⟨h.2.2, h.1.2.perm h.2.2⟩

/-- A message is queued, its `write_cb` puts a close off and queues another, and the close comes when
that one is sent too. -/
theorem writeQueue_freed_once_close :
    ∃ c, Run.exec step .start [.write .other [1, 2] .again, .writable, .proceed, .nioWrite (.wrote 2), .close, .proceed,
        .write .loop [3] .again, .cbReturn, .nioWrite (.wrote 1), .cbReturn, .nioWrite .again, .proceed, .proceed,
        .proceed, .cbReturn] = some c ∧
      c.broken = false ∧ (c.io.freed ++ c.io.writeQueue.toList.map (·.base)).Perm (List.range c.io.nextBase) :=
  ⟨_, rfl, writeQueue_freed_once [.write .other [1, 2] .again, .writable, .proceed, .nioWrite (.wrote 2), .close, .proceed,
    .write .loop [3] .again, .cbReturn, .nioWrite (.wrote 1), .cbReturn, .nioWrite .again, .proceed, .proceed,
    .proceed, .cbReturn] (by decide +kernel) rfl⟩

/-- `write_cb` calls `evio_close` twice; the second call frees the buffer that `nio_write` then frees
again. -/
theorem writeCb_close_frees_twice :
    ¬∀ (acts : List Act) (c : Cfg), Run.exec step .start acts = some c →
      c.broken = false ∧ (c.io.freed ++ c.io.writeQueue.toList.map (·.base)).Perm (List.range c.io.nextBase) := by
  intro h
  have hbad := h [.write .loop [1, 2] .again, .writable, .proceed, .nioWrite (.wrote 2), .close, .proceed, .close,
    .proceed, .cbReturn, .cbReturn] _ rfl
  exact absurd hbad.1 (by decide +kernel)

end Yjc.Event
