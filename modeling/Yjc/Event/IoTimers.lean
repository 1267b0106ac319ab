import Yjc.Event.WriteFree

/-! The timers of an io. An active timer whose `privdata` is the io is the one that the io's field of that
kind points at, so that `__close_cb` deletes all of them. -/

namespace Yjc.Event

def Core.Keeps (k : Core) : Prop := ∀ t ∈ k.active, k.timers t.kind = some t.id

def Core.has (k : Core) (kind : TimerKind) : Prop := ∃ t ∈ k.active, t.kind = kind

theorem Core.has_del {k : Core} {kind kind' : TimerKind} : (k.del kind).has kind' → k.has kind' :=
  fun ⟨t, ht, hk⟩ => ⟨t, (List.mem_filter.mp ht).1, hk⟩

theorem Core.has_expire {k : Core} {id : ℕ} {kind : TimerKind} : (k.expire id).has kind → k.has kind :=
  fun ⟨t, ht, hk⟩ => ⟨t, (List.mem_filter.mp ht).1, hk⟩

theorem Core.has_reset {k : Core} {id timeout : ℕ} {kind : TimerKind} : (k.reset id timeout).has kind → k.has kind := by
  rintro ⟨t, ht, hk⟩
  obtain ⟨t', ht', rfl⟩ := List.mem_map.mp ht
  refine ⟨t', ht', ?_⟩
  rw [← hk]
  split_ifs <;> rfl

theorem Core.has_arm {k : Core} {kind kind' : TimerKind} {timeout : ℕ} (hne : kind ≠ kind') :
    (k.arm kind timeout).has kind' → k.has kind' := by
  rintro ⟨t, ht, hk⟩
  rcases List.mem_append.mp ht with ht | ht
  · exact ⟨t, ht, hk⟩
  · rw [List.mem_singleton.mp ht] at hk
    exact absurd hk hne

namespace Core.Keeps
variable {k : Core} (h : k.Keeps)
include h

theorem expire (id : ℕ) : (k.expire id).Keeps := fun t ht => h t (List.mem_filter.mp ht).1

theorem reset (id timeout : ℕ) : (k.reset id timeout).Keeps := by
  intro t ht
  obtain ⟨t', ht', rfl⟩ := List.mem_map.mp ht
  have := h t' ht'
  split_ifs <;> exact this

theorem del (kind : TimerKind) : (k.del kind).Keeps ∧ ∀ t ∈ (k.del kind).active, t ∈ k.active ∧ t.kind ≠ kind := by
  have hmem : ∀ t ∈ (k.del kind).active, t ∈ k.active ∧ t.kind ≠ kind := by
    intro t ht
    obtain ⟨ht, hne⟩ := List.mem_filter.mp ht
    refine ⟨ht, fun hk => ?_⟩
    rw [← hk, h t ht] at hne
    simp at hne
  refine ⟨fun t ht => ?_, hmem⟩
  obtain ⟨ht', hne⟩ := hmem t ht
  exact (Function.update_of_ne hne _ _).trans (h t ht')

theorem arm (kind : TimerKind) (timeout : ℕ) (hno : ¬k.has kind) : (k.arm kind timeout).Keeps := by
  intro t ht
  rcases List.mem_append.mp ht with ht | ht
  · exact (Function.update_of_ne (fun hk => hno ⟨t, ht, hk⟩) _ _).trans (h t ht)
  · rw [List.mem_singleton.mp ht]
    exact Function.update_self _ _ _

theorem delAll : k.delAll.active = [] := by
  have h1 := h.del .connect
  have h2 := h1.1.del .close
  have h3 := h2.1.del .read
  have h4 := h3.1.del .write
  have h5 := h4.1.del .keepalive
  have h6 := h5.1.del .heartbeat
  refine List.eq_nil_iff_forall_not_mem.mpr fun t ht6 => ?_
  obtain ⟨ht5, hk6⟩ := h6.2 t ht6
  obtain ⟨ht4, hk5⟩ := h5.2 t ht5
  obtain ⟨ht3, hk4⟩ := h4.2 t ht4
  obtain ⟨ht2, hk3⟩ := h3.2 t ht3
  obtain ⟨ht1, hk2⟩ := h2.2 t ht2
  obtain ⟨-, hk1⟩ := h1.2 t ht1
  cases hk : t.kind <;> contradiction

end Core.Keeps

/-- `nio_write` has found the queue empty and is about to close the io that waited for it. -/
def Core.AtDrain (k : Core) : Prop :=
  k.stack.head? = some (.closing .drain) ∨ k.stack.head? = some .drained ∧ k.close = true

def Frame.plain : Frame → Bool
  | .drained | .arm | .closing .drain => false
  | _ => true

structure Tracked (k : Core) : Prop where
  keeps : k.Keeps
  done : k.ready = false → ¬k.has .close
  close : k.has .close →
    k.close = true ∧ k.stack.head? ≠ some .arm ∨ k.stack.head? = some (.closing .drain) ∨ k.stack.head? = some .finish
  connect : k.has .connect → 0 < k.connects
  armed : k.stack.head? = some .arm → k.close = true ∧ k.ready = true
  drain : k.AtDrain → k.queue = [] ∨ k.error ≠ 0

theorem Frame.plain_of_waits {f : Frame} (h : f.waits = true) : f.plain = true := by
  cases f <;> first | rfl | cases h

theorem nested_plain {f g : Frame} {s : List Frame} (h : (f :: s).Pairwise Inside) (hg : s.head? = some g) :
    g.plain = true :=
  Frame.plain_of_waits (nested_waits h hg)

theorem Core.appTurn_plain {k : Core} (h : k.appTurn = true) {f : Frame} (hf : k.stack.head? = some f) :
    f.plain = true :=
  Frame.plain_of_waits (Frame.waits_of_isCb (Core.appTurn_isCb h hf))

theorem Ends.head {err : Option ℕ} {a : Act} {s s' : List Frame} (h : Ends err a s s') {f : Frame}
    (hf : s.head? = some f) : f ≠ .finish ∧ f ≠ .closing .drain := by
  cases h <;> cases hf <;> simp

namespace Tracked
variable {k k' : Core}

theorem of_eq (h : Tracked k) (hk : k'.Keeps) (hclose : k'.has .close → k.has .close)
    (hconnect : k'.has .connect → 0 < k'.connects) (hs : k'.stack = k.stack) (hr : k'.ready = k.ready)
    (hc : k'.close = k.close) (hd : k.AtDrain → k'.queue = [] ∨ k'.error ≠ 0) : Tracked k' := by
  refine ⟨hk, fun hr' hh => ?_, fun hh => ?_, hconnect, ?_, fun ha => hd ?_⟩
  · exact h.done (hr ▸ hr') (hclose hh)
  · rw [hs, hc]
    exact h.close (hclose hh)
  · rw [hs, hc, hr]
    exact h.armed
  · rw [Core.AtDrain, hs, hc] at ha
    exact ha

theorem of_top (h : Tracked k) (hk : k'.Keeps) (hclose : k'.has .close → k.has .close)
    (hconnect : k'.has .connect → 0 < k'.connects) (hold : ∀ f, k.stack.head? = some f → f ≠ .finish ∧ f ≠ .closing .drain)
    (hnew : ∀ f, k'.stack.head? = some f → f.plain = true) (hr : k'.ready = k.ready) (hc : k'.close = k.close) :
    Tracked k' := by
  have harm : k'.stack.head? ≠ some .arm := fun hf => by cases hnew _ hf
  refine ⟨hk, fun hr' hh => h.done (hr ▸ hr') (hclose hh), fun hh => .inl ⟨?_, harm⟩, hconnect,
    fun hf => absurd hf harm, ?_⟩
  · rw [hc]
    rcases h.close (hclose hh) with hh' | hh' | hh'
    · exact hh'.1
    · exact absurd rfl (hold _ hh').2
    · exact absurd rfl (hold _ hh').1
  · rintro (hf | ⟨hf, -⟩) <;> cases hnew _ hf

theorem of_none (hnil : k.active = []) (htop : ∀ f, k.stack.head? = some f → f.plain = true) : Tracked k := by
  have hno : ∀ kind, ¬k.has kind := by
    rintro kind ⟨t, hmem, -⟩
    rw [hnil] at hmem
    cases hmem
  refine ⟨fun t hmem => absurd ⟨t, hmem, rfl⟩ (hno t.kind), fun _ => hno _, fun hh => absurd hh (hno _),
    fun hh => absurd hh (hno _), fun hf => (by cases htop _ hf), ?_⟩
  rintro (hf | ⟨hf, -⟩) <;> cases htop _ hf

theorem reset (h : Tracked k) (id timeout : ℕ) : Tracked (k.reset id timeout) :=
  h.of_eq (h.keeps.reset _ _) Core.has_reset (fun hh => h.connect (Core.has_reset hh)) rfl rfl rfl h.drain

theorem expire (h : Tracked k) (id : ℕ) : Tracked (k.expire id) :=
  h.of_eq (h.keeps.expire _) Core.has_expire (fun hh => h.connect (Core.has_expire hh)) rfl rfl rfl h.drain

theorem turn (h : Tracked k) {a : Act} {s s' : List Frame} (hn : s.Pairwise Inside) (hs : k.stack = s)
    (ht : Turn k a s s') : Tracked { k with stack := s' } := by
  refine h.of_top h.keeps id h.connect (fun f hf => ?_) (fun f hf => ?_) rfl rfl
  · rw [hs] at hf
    cases ht <;> cases hf <;> simp
  · cases ht with
    | event | hangup | writable | heartbeat | write s | disconnect s =>
      cases hf
      rfl
    | again s | drained s | closeCb s | connectCb s | heartbeatCb s | partialWrite base s => exact nested_plain hn hf

theorem written (h : Tracked k) {buf : List UInt8} {res : WriteResult} {ret : ℤ}
    (hrest : k.AtDrain → k.error = 0 → k'.queue = k.queue) (hw : Written k buf res k' ret) : Tracked k' := by
  cases hw with
  | closed | hungUp | rejected | whole => exact h.of_eq h.keeps id h.connect rfl rfl rfl h.drain
  | failed hc hq hres herr => exact h.of_eq h.keeps id h.connect rfl rfl rfl fun _ => .inr herr
  | queued =>
    refine h.of_eq h.keeps id h.connect rfl rfl rfl fun ha => ?_
    by_cases he : k.error = 0
    · rw [hrest ha he]
      exact h.drain ha
    · exact .inr he

theorem locked {closer : Closer} (hkeeps : k.Keeps) (hconnect : k.has .connect → 0 < k.connects)
    (hopen : k.closed = false → k.ready = true) (hclosed : k.closed = true → Tracked k)
    (hno : k.queue ≠ [] → k.error = 0 → k.close = false → ¬k.has .close) (hl : Locked k closer k') : Tracked k' := by
  have hready : k.closed = false → k.ready ≠ false := fun hc hr => by
    rw [hopen hc] at hr
    cases hr
  cases hl with
  | closed hc => exact hclosed hc
  | putOff hc hq herr hcl =>
    refine ⟨hkeeps, fun hr => absurd hr (hready hc), fun hh => absurd hh (hno hq herr hcl), hconnect,
      fun _ => ⟨rfl, hopen hc⟩, ?_⟩
    rintro (hf | ⟨hf, -⟩) <;> cases hf
  | taken hc =>
    refine ⟨hkeeps, fun hr => absurd hr (hready hc), fun _ => .inr (.inr rfl), hconnect, fun hf => (by cases hf), ?_⟩
    rintro (hf | ⟨hf, -⟩) <;> cases hf

theorem lockedBelow (h : Tracked k) (hc : Ctl k) {closer : Closer} {s : List Frame} (hs : k.stack = .closing closer :: s)
    (hl : Locked { k with stack := s } closer k') : Tracked k' := by
  have hn := hc.nested
  rw [hs] at hn
  have hkeeps : Core.Keeps { k with stack := s } := h.keeps
  -- a closed io is about to finish or not ready any more
  have hnone : k.closed = true → ¬k.has .close := fun hcl => h.done <| by
    by_contra hr
    have := hc.finish.mpr ⟨hcl, (Bool.not_eq_false _).mp hr⟩
    rw [hs] at this
    cases this
  refine locked hkeeps h.connect hc.isOpen (fun hcl => ?_) (fun hq he hcl hh => ?_) hl
  · refine ⟨hkeeps, h.done, fun hh => absurd hh (hnone hcl), h.connect, fun hf => (by cases nested_plain hn hf), ?_⟩
    rintro (hf | ⟨hf, -⟩) <;> cases nested_plain hn hf
  · have hcl' : k.close = false := hcl
    rcases h.close hh with hh' | hh' | hh'
    · rw [hcl'] at hh'
      cases hh'.1
    -- the close after draining is put off again only if bytes were queued meanwhile
    · exact (h.drain (.inl hh')).elim hq (· he)
    · rw [hs] at hh'
      cases hh'

theorem armClose (h : Tracked k) (hn : k.stack.Pairwise Inside) {s : List Frame} (hs : k.stack = .arm :: s) {timeout : ℕ} :
    Tracked ({ k with stack := s }.arm .close timeout) := by
  have harm : k.stack.head? = some .arm := by
    rw [hs]
    rfl
  rw [hs] at hn
  obtain ⟨hcl, hr⟩ := h.armed harm
  have hno : ¬k.has .close := by
    intro hh
    have := h.close hh
    rw [harm] at this
    simp at this
  have htop : ∀ f, s.head? = some f → f.plain = true := fun f hf => nested_plain hn hf
  refine ⟨Core.Keeps.arm (k := { k with stack := s }) h.keeps _ _ hno, fun hr' => ?_, fun _ => .inl ⟨hcl, ?_⟩, fun hh => ?_,
    fun hf => (by cases htop _ hf), ?_⟩
  · exact absurd (hr.symm.trans hr') (by simp)
  · intro hf
    cases htop _ hf
  · exact h.connect (Core.has_arm (by simp) hh)
  · rintro (hf | ⟨hf, -⟩) <;> cases htop _ hf

theorem step (h : Tracked k) (hc : Ctl k) {a : Act} (hm : Move k a k')
    (honce : ∀ newId res, a = .connect newId res → k.connects = 0)
    (hready : ∀ newId, a = .connect newId .inProgress → k.ready = true)
    (hget : ∀ newId, a = .get newId → k.ready = false → k.active = [])
    (hrest : ∀ thread buf res ret, a = .write thread buf res → Written k buf res k' ret → k.AtDrain → k.error = 0 →
      k'.queue = k.queue) : Tracked k' := by
  have hn := hc.nested
  cases hm with
  | stay => exact h
  | limit => exact h.of_eq h.keeps id h.connect rfl rfl rfl h.drain
  | turn ht => exact h.turn hn rfl ht
  | write _ _ hw => exact h.written (hrest _ _ _ _ rfl hw) hw
  | close ht hl =>
    refine locked h.keeps h.connect hc.isOpen (fun _ => h) (fun hq he hcl hh => ?_) hl
    rcases h.close hh with hh' | hh' | hh'
    · rw [hcl] at hh'
      cases hh'.1
    · cases Core.appTurn_plain ht hh'
    · exact Core.appTurn_head ht hh'
  | ready ht hr => exact of_none (hget _ rfl hr) fun f hf => Core.appTurn_plain ht hf
  | connectFail ht herr => exact h.of_eq h.keeps id (fun _ => Nat.succ_pos _) rfl rfl rfl fun _ => .inr herr
  | connectOk ht => exact h.of_eq h.keeps id (fun _ => Nat.succ_pos _) rfl rfl rfl h.drain
  | connectWait ht hk =>
    subst hk
    rw [if_pos (hready _ rfl)]
    -- the first call since the io was made ready, so there is no connect timer yet
    have hno : ¬k.has .connect := fun hh => by
      have := h.connect hh
      rw [honce _ _ rfl] at this
      cases this
    refine h.of_eq (Core.Keeps.arm (k := { k with connects := k.connects + 1 }) h.keeps _ _ hno) ?_
      (fun _ => Nat.succ_pos _) rfl rfl rfl h.drain
    exact fun hh => Core.has_arm (by simp) hh
  | delTimeout ht =>
    exact h.of_eq (h.keeps.del _).1 Core.has_del (fun hh => h.connect (Core.has_del hh)) rfl rfl rfl h.drain
  | resetTimeout ht hid => exact h.reset _ _
  | armTimeout ht hnone h1 h2 =>
    refine h.of_eq (h.keeps.arm _ _ ?_) (Core.has_arm h2) (fun hh => h.connect (Core.has_arm h1 hh)) rfl rfl rfl h.drain
    rintro ⟨t, hmem, rfl⟩
    have := h.keeps t hmem
    rw [hnone] at this
    cases this
  | fail herr he =>
    refine h.of_top h.keeps id h.connect (fun f hf => ?_) (fun f hf => ?_) rfl rfl
    · exact he.head hf
    · cases hf
      rfl
  | connected he =>
    refine h.of_top (Core.Keeps.del (k := { k with stack := _ }) h.keeps _).1 Core.has_del
      (fun hh => h.connect (Core.has_del hh)) (fun f hf => ?_) (fun f hf => ?_) rfl rfl
    · exact he.head hf
    · cases hf
      rfl
  | expire hs ht =>
    refine h.of_top h.keeps id h.connect (fun f hf => ?_) (fun f hf => ?_) rfl rfl
    · rw [hs] at hf
      cases hf
    · cases hf
      rfl
  | rearm hs ht hid =>
    split_ifs
    · exact h.reset _ _
    · exact (h.reset _ _).expire _
  | drain hs hq =>
    refine ⟨h.keeps, h.done, fun hh => .inl ⟨?_, by simp [Core.log]⟩, h.connect, fun hf => (by cases hf), fun _ => .inl hq⟩
    have := h.close hh
    simp only [hs, List.head?_cons, Option.some.injEq, reduceCtorEq, or_false, not_false_eq_true, ne_eq, and_true] at this
    exact this
  | send hs hq hle h0 =>
    refine h.of_top h.keeps id h.connect (fun f hf => ?_) (fun f hf => ?_) rfl rfl
    · rw [hs] at hf
      cases hf
      simp
    · cases hf
      rfl
  | pop hs hq hf =>
    rw [hs] at hn
    refine h.of_top h.keeps id h.connect (fun f hf => ?_) (fun f hf => ?_) rfl rfl
    · rw [hs] at hf
      cases hf
      simp
    · dsimp only at hf
      split_ifs at hf
      · exact nested_plain hn hf
      · cases hf
        rfl
  | crash hs hb => exact h.of_eq h.keeps id h.connect rfl rfl rfl h.drain
  | unclose hs hcl =>
    refine ⟨h.keeps, h.done, fun _ => .inr (.inl rfl), h.connect, fun hf => (by cases hf), fun _ => ?_⟩
    exact h.drain (.inr ⟨by rw [hs]; rfl, hcl⟩)
  | locked hs hl => exact h.lockedBelow hc hs hl
  | arm hs => exact h.armClose hn hs
  | @finish s hs =>
    have hkeeps : Core.Keeps (Core.done { k with stack := .closeCb :: s }) := h.keeps
    refine of_none hkeeps.delAll fun f hf => ?_
    cases hf
    rfl
  | timerCb hs =>
    rw [hs] at hn
    refine h.of_top (Core.Keeps.expire (k := { k with stack := _ }) h.keeps _) Core.has_expire
      (fun hh => h.connect (Core.has_expire hh)) (fun f hf => ?_) (fun f hf => nested_plain hn hf) rfl rfl
    rw [hs] at hf
    cases hf
    simp

theorem start : Tracked Cfg.start.core := of_none rfl fun f hf => by cases hf

end Tracked

theorem active_of_finish {c c' : Cfg} (h : Tracked c.core) (hs : c.stack.head? = some .finish)
    (hstep : step c .proceed = some c') : c'.io.active = [] := by
  obtain ⟨s, hs⟩ := List.head?_eq_some_iff.mp hs
  obtain ⟨hb, -⟩ := step_move hstep
  simp only [step, hb, Bool.false_eq_true, if_false, Cfg.proceed, hs, Option.some.injEq] at hstep
  subst hstep
  have hkeeps : Core.Keeps (Core.done (Cfg.mk c.io (.closeCb :: s) c.broken).core) := h.keeps
  exact (congrArg Core.active (core_evioCloseFinish c.io (.closeCb :: s) c.broken)).trans hkeeps.delAll

/-! ## Runs -/

/-- `evio_write` on an empty queue leaves bytes there. -/
def Evio.LeavesRest (io : Evio) (buf : List UInt8) : WriteResult → Prop
  | .wrote n => n ≠ 0 ∧ n < buf.length ∧ io.writeBufsize + buf.length - n ≤ io.maxWriteBufsize
  | .again => buf ≠ [] ∧ io.writeBufsize + buf.length ≤ io.maxWriteBufsize
  | .error _ => False

/-- `evio_connect` is called at most once for a call of `evio_ready`. -/
def Cfg.ConnectsOnce (c : Cfg) : Act → Prop
  | .connect _ _ => c.io.connects = 0
  | _ => True

/-- While `nio_write` is about to close an io that has not failed, no bytes are queued; an io that still has
timers is not made ready again. -/
def Cfg.TimersSafe (c : Cfg) : Act → Prop
  | .write _ buf res => c.core.AtDrain → c.io.error = 0 → c.io.closed = false → ¬c.io.LeavesRest buf res
  | .get _ => c.io.ready = false → c.io.active = []
  | .connect _ .inProgress => c.io.ready = true
  | _ => True

instance (k : Core) : Decidable k.AtDrain := inferInstanceAs (Decidable (_ ∨ _))

instance (io : Evio) (buf : List UInt8) : (res : WriteResult) → Decidable (io.LeavesRest buf res)
  | .wrote n => inferInstanceAs (Decidable (n ≠ 0 ∧ n < buf.length ∧ _))
  | .again => inferInstanceAs (Decidable (buf ≠ [] ∧ _))
  | .error _ => inferInstanceAs (Decidable False)

instance (c : Cfg) : (a : Act) → Decidable (c.ConnectsOnce a)
  | .connect _ _ => inferInstanceAs (Decidable (c.io.connects = 0))
  | .write .. | .close | .closeAsync | .get _ | .setTimeout .. | .setMaxWriteBufsize _ | .closeEvent | .connectEvent _
  | .fire .. | .hangup _ | .writable | .nioConnect _ | .nioWrite _ | .cbReturn | .proceed =>
    inferInstanceAs (Decidable True)

instance (c : Cfg) : (a : Act) → Decidable (c.TimersSafe a)
  | .write _ _ _ => inferInstanceAs (Decidable (_ → _))
  | .get _ => inferInstanceAs (Decidable (c.io.ready = false → c.io.active = []))
  | .connect _ .inProgress => inferInstanceAs (Decidable (c.io.ready = true))
  | .connect _ .ok | .connect _ (.error _) | .close | .closeAsync | .setTimeout .. | .setMaxWriteBufsize _ | .closeEvent
  | .connectEvent _ | .fire .. | .hangup _ | .writable | .nioConnect _ | .nioWrite _ | .cbReturn | .proceed =>
    inferInstanceAs (Decidable True)

theorem Written.queue_eq {c : Cfg} {buf : List UInt8} {res : WriteResult} {k' : Core} {ret : ℤ}
    (h : Written c.core buf res k' ret) (hq : c.core.queue = []) (hno : c.io.closed = false → ¬c.io.LeavesRest buf res) :
    k'.queue = c.core.queue := by
  cases h with
  | closed | failed | hungUp | rejected | whole => rfl
  | @queued n hc ht hlt hfit =>
    rcases ht with ⟨hne, -⟩ | ⟨-, ⟨rfl, rfl⟩ | ⟨rfl, hpos, -⟩⟩
    · exact absurd hq hne
    · exact absurd ⟨List.ne_nil_of_length_pos hlt, hfit⟩ (hno hc)
    · exact absurd ⟨Nat.ne_of_gt hpos, hlt, hfit⟩ (hno hc)

/-- In every run in which `evio_connect` is called once at most for a call of `evio_ready`, no bytes are queued
while `nio_write` is about to close, and no io with timers is made ready again: the io points at each of its
active timers, and there is none when `close_cb` runs. -/
theorem timers_tracked (acts : List Act) {c : Cfg} (honce : Run.Along step Cfg.ConnectsOnce .start acts)
    (hsafe : Run.Along step Cfg.TimersSafe .start acts) (hrun : Run.exec step .start acts = some c) :
    (∀ t ∈ c.io.active, ∃ kind, c.io.timers kind = some t.id) ∧
      ∀ c', c.stack.head? = some .finish → step c .proceed = some c' → c'.io.active = [] := by
  have h : Ctl c.core ∧ Tracked c.core := by
    refine Run.invariant (fun c : Cfg => Ctl c.core ∧ Tracked c.core) ?_ ⟨.start, .start⟩
      (Run.along_and.mpr ⟨honce, hsafe⟩) hrun
    rintro c a c' ⟨hc, h⟩ ⟨honce, hsafe⟩ hstep
    obtain ⟨-, hm⟩ := step_move hstep
    refine ⟨hc.step hm, h.step hc hm ?_ ?_ ?_ ?_⟩
    · rintro newId res rfl
      exact honce
    · rintro newId rfl
      exact hsafe
    · rintro newId rfl
      exact hsafe
    · rintro thread buf res ret rfl hw ha he
      exact hw.queue_eq ((h.drain ha).resolve_right (· he)) (hsafe ha he)
  refine ⟨fun t ht => ⟨t.kind, h.2.keeps t ht⟩, fun c' hs hstep => ?_⟩
  exact active_of_finish h.2 hs hstep

/-- The io connects and gets a read timeout, a close waits for a message to be sent, and another message is
written directly before the close. -/
theorem timers_tracked_drained :
    ∃ c, Run.exec step .start [.connect 7 .inProgress, .writable, .nioConnect none, .cbReturn, .setTimeout .read 5,
        .write .other [1] .again, .close, .proceed, .writable, .proceed, .nioWrite (.wrote 1), .cbReturn, .nioWrite .again,
        .write .other [2] (.wrote 1), .proceed, .proceed] = some c ∧
      (∀ t ∈ c.io.active, ∃ kind, c.io.timers kind = some t.id) ∧
      ∀ c', c.stack.head? = some .finish → step c .proceed = some c' → c'.io.active = [] :=
  ⟨_, rfl, timers_tracked [.connect 7 .inProgress, .writable, .nioConnect none, .cbReturn, .setTimeout .read 5,
    .write .other [1] .again, .close, .proceed, .writable, .proceed, .nioWrite (.wrote 1), .cbReturn, .nioWrite .again,
    .write .other [2] (.wrote 1), .proceed, .proceed] (by decide +kernel) (by decide +kernel) rfl⟩

/-- A thread queues a byte between the unlock of `nio_write` and the lock of `evio_close`; the close is put off
a second time and the first close timer is lost. -/
theorem close_timer_orphaned :
    ¬∀ (acts : List Act) (c : Cfg), Run.Along step Cfg.ConnectsOnce .start acts → Run.exec step .start acts = some c →
      ∀ t ∈ c.io.active, ∃ kind, c.io.timers kind = some t.id := by
  intro h
  obtain ⟨kind, hk⟩ := h [.write .other [1] .again, .close, .proceed, .writable, .proceed, .nioWrite (.wrote 1), .cbReturn,
    .nioWrite .again, .write .other [2] .again, .proceed, .proceed, .proceed] _ (by decide +kernel) rfl
    ⟨0, .close, eioDefaultCloseTimeout⟩ (by decide +kernel)
  revert hk
  cases kind <;> decide +kernel

end Yjc.Event
