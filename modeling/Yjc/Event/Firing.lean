import Yjc.Event.Counters

/-! How often the callback of a timer or an idle is invoked. -/

namespace Yjc.Timers
open Timers.Loop

def Phase.running : Phase → Option ℕ
  | .cb _ cur _ => some cur
  | .out | .walk .. => none

def invoked (a : Act) (t : Loop) : List ℕ := if a = .visit then t.phase.running.toList else []

def track : Loop × List ℕ → Act → Option (Loop × List ℕ) := Run.logged step fun _ a t => invoked a t

/-- The repeat count of the timer or idle that a call adds, and whether it has a callback. -/
def Call.adds : Call → Option (ℕ × Bool)
  | .evtimerAdd _ timeout repeats cb => if timeout = 0 then none else some (repeats, cb)
  | .evtimerAddPeriod minute hour day week month _ repeats cb =>
    if 59 < minute ∨ 23 < hour ∨ 31 < day ∨ 6 < week ∨ 12 < month then none else some (repeats, cb)
  | .evidleAdd repeats cb => some (repeats, cb)
  | .evtimerReset .. | .evtimerDel _ | .evidleDel _ | .evioGet .. | .evioAdd _ | .evioDel _ => none

/-! ## What a step does to one event -/

structure Kept (e : ℕ) (s t : Loop) : Prop where
  next : s.next ≤ t.next
  kind : (t.mem e).kind = (s.mem e).kind
  cb : (t.mem e).cb = (s.mem e).cb

structure Quiet (e : ℕ) (s t : Loop) : Prop extends Kept e s t where
  repeats : (t.mem e).repeats = (s.mem e).repeats
  destroy : (s.mem e).destroy = true → (t.mem e).destroy = true
  pending : (t.mem e).pending = true → (s.mem e).pending = true

def counted (n : ℕ) : ℕ := if n = infinite then n else dec32 n

/-- The event is counted down and made pending, and leaves its heap or list when nothing is left. -/
structure Turned (e : ℕ) (s t : Loop) : Prop extends Kept e s t where
  repeats : (t.mem e).repeats = counted (s.mem e).repeats
  spent : (t.mem e).repeats = 0 → (t.mem e).destroy = true
  active : (t.mem e).active = (s.mem e).active
  priority : (t.mem e).priority = (s.mem e).priority
  pending : (t.mem e).pending = true
  linked : (s.mem e).pending = false →
    t.pendings = Function.update s.pendings (s.mem e).priority (some e) ∧ t.npendings = s.npendings + 1
  phase : t.phase = s.phase
  other : ∀ x, x ≠ e → t.mem x = s.mem x

variable {s t u : Loop} {e x : ℕ} {ev : Event}

theorem Kept.trans (h : Kept e s t) (h' : Kept e t u) : Kept e s u :=
  ⟨h.next.trans h'.next, h'.kind.trans h.kind, h'.cb.trans h.cb⟩

theorem Quiet.trans (h : Quiet e s t) (h' : Quiet e t u) : Quiet e s u :=
  ⟨h.toKept.trans h'.toKept, h'.repeats.trans h.repeats, fun hd => h'.destroy (h.destroy hd),
    fun hp => h.pending (h'.pending hp)⟩

theorem quiet_of_eq (hnext : s.next ≤ t.next) (h : t.mem e = s.mem e) : Quiet e s t := by
  refine ⟨⟨hnext, ?_, ?_⟩, ?_, ?_, ?_⟩ <;> rw [h]
  · exact id
  · exact id

theorem quiet_of_update (hmem : t.mem = Function.update s.mem x ev) (hnext : s.next ≤ t.next)
    (hev : x = e → ev.kind = (s.mem e).kind ∧ ev.cb = (s.mem e).cb ∧ ev.repeats = (s.mem e).repeats ∧
      ((s.mem e).destroy = true → ev.destroy = true) ∧ (ev.pending = true → (s.mem e).pending = true)) : Quiet e s t := by
  rcases eq_or_ne e x with rfl | hne
  · obtain ⟨hkind, hcb, hrepeats, hdestroy, hpending⟩ := hev rfl
    have hself : t.mem e = ev := by rw [hmem, Function.update_self]
    rw [← hself] at hkind hcb hrepeats hdestroy hpending
    exact ⟨⟨hnext, hkind, hcb⟩, hrepeats, hdestroy, hpending⟩
  · exact quiet_of_eq hnext (by rw [hmem, Function.update_of_ne hne])

theorem Changes.quiet (h : Changes s t x ev) (hev : x = e → ev.kind = (s.mem e).kind ∧ ev.cb = (s.mem e).cb ∧
    ev.repeats = (s.mem e).repeats ∧ ((s.mem e).destroy = true → ev.destroy = true) ∧
      (ev.pending = true → (s.mem e).pending = true)) : Quiet e s t := quiet_of_update h.mem h.next.ge hev

theorem eventDel_quiet (s : Loop) (e x : ℕ) : Quiet e s (eventDel x s) ∧ (eventDel x s).phase = s.phase := by
  have hch := eventInactive_changes s x
  unfold eventDel
  dsimp only
  split_ifs
  · refine ⟨hch.quiet ?_, hch.phase⟩
    rintro rfl
    exact ⟨rfl, rfl, rfl, id, id⟩
  · refine ⟨quiet_of_update hch.mem hch.next.ge ?_, hch.phase⟩
    rintro rfl
    exact ⟨rfl, rfl, rfl, id, id⟩

theorem eventActive_quiet (s : Loop) (e x : ℕ) : Quiet e s (eventActive x s) := by
  refine (eventActive_changes s x).quiet ?_
  rintro rfl
  exact ⟨rfl, rfl, rfl, id, id⟩

/-! ## Calls -/

theorem Creates.quiet (h : Creates s t ev) (he : e < s.next) : Quiet e s t :=
  quiet_of_update h.mem (h.next ▸ Nat.le_succ _) fun hx => absurd (hx ▸ he) (Nat.lt_irrefl _)

theorem call_quiet {c : Call} (he : e < s.next) (hc : ∀ timeout, c ≠ .evtimerReset e timeout) (ht : call s c = some t) :
    Quiet e s t ∧ t.phase = s.phase := by
  cases call_effect ht with
  | same => exact ⟨quiet_of_eq le_rfl rfl, rfl⟩
  | creates hnew => exact ⟨hnew.quiet he, hnew.phase⟩
  | adds hnew => exact ⟨(hnew.quiet he).trans (eventActive_quiet _ e s.next), (eventActive_changes _ s.next).phase.trans hnew.phase⟩
  | resets hk hch =>
    refine ⟨hch.quiet ?_, hch.phase⟩
    rintro rfl
    exact absurd rfl (hc _)
  | @deletes c x u hx hact hch =>
    obtain ⟨hquiet, hphase⟩ := eventDel_quiet u e x
    refine ⟨(hch.quiet ?_).trans hquiet, hphase.trans hch.phase⟩
    rintro rfl
    exact ⟨rfl, rfl, rfl, fun _ => rfl, id⟩
  | active x => exact ⟨eventActive_quiet s e x, (eventActive_changes s x).phase⟩
  | inactive x =>
    have hch := eventInactive_changes s x
    refine ⟨hch.quiet ?_, hch.phase⟩
    rintro rfl
    exact ⟨rfl, rfl, rfl, id, id⟩

/-! ## Processing -/

theorem eventPending_mem (s : Loop) (e : ℕ) :
    ∃ l, (eventPending e s).mem = Function.update s.mem e { s.mem e with pending := true, pendingNext := l } := by
  unfold eventPending
  split_ifs with hp
  · refine ⟨(s.mem e).pendingNext, (Function.update_eq_self_iff.mpr ?_).symm⟩
    rw [← hp]
  · exact ⟨_, rfl⟩

theorem eventPending_next (s : Loop) (e : ℕ) : (eventPending e s).next = s.next ∧ (eventPending e s).phase = s.phase := by
  unfold eventPending
  split_ifs <;> exact ⟨rfl, rfl⟩

theorem countDown_counted (s : Loop) (e : ℕ) :
    Changes s (countDown e s) e { s.mem e with repeats := counted (s.mem e).repeats } := by
  unfold countDown counted
  split_ifs
  · exact .refl s e
  · exact changes_modify s e fun ev => { ev with repeats := dec32 ev.repeats }

theorem eventPending_linked (hp : (s.mem e).pending = false) :
    (eventPending e s).pendings = Function.update s.pendings (s.mem e).priority (some e) ∧
      (eventPending e s).npendings = s.npendings + 1 := by
  unfold eventPending
  rw [if_neg (by rw [hp]; exact Bool.false_ne_true)]
  exact ⟨rfl, rfl⟩

theorem turned_of_changes (hch : Changes s u e ev) (hkind : ev.kind = (s.mem e).kind) (hcb : ev.cb = (s.mem e).cb)
    (hrepeats : ev.repeats = counted (s.mem e).repeats) (hspent : ev.repeats = 0 → ev.destroy = true)
    (hactive : ev.active = (s.mem e).active) (hpending : ev.pending = (s.mem e).pending)
    (hprio : ev.priority = (s.mem e).priority) : Turned e s (eventPending e u) := by
  -- an event that is made pending after it has been counted down
  obtain ⟨l, hmem⟩ := eventPending_mem u e
  obtain ⟨hnext, hphase⟩ := eventPending_next u e
  have hself : (eventPending e u).mem e = { ev with pending := true, pendingNext := l } := by
    rw [hmem, Function.update_self, hch.self]
  refine ⟨⟨(hnext.trans hch.next).ge, ?_, ?_⟩, ?_, ?_, ?_, ?_, ?_, fun hp => ?_, hphase.trans hch.phase, fun x hx => ?_⟩
  · rw [hself]
    exact hkind
  · rw [hself]
    exact hcb
  · rw [hself]
    exact hrepeats
  · rw [hself]
    exact hspent
  · rw [hself]
    exact hactive
  · rw [hself]
    exact hprio
  · rw [hself]
  · rw [← hprio, ← hch.pendings, ← hch.npendings, ← hch.self]
    exact eventPending_linked (by rw [hch.self, hpending, hp])
  · rw [hmem, Function.update_of_ne hx, hch.mem, Function.update_of_ne hx]

theorem processTimer_turned {w : Which} {now next : ℕ} (h : processTimer w now next s = some t) :
    ∃ e, (w.heap s).root = some e ∧ Turned e s t := by
  obtain ⟨e, hroot, h⟩ := Option.bind_eq_some_iff.mp h
  refine ⟨e, hroot, ?_⟩
  split_ifs at h
  have hcount := countDown_counted s e
  have hself := hcount.self
  dsimp only at h
  split_ifs at h with hzero
  · obtain ⟨u, hu, h⟩ := Option.bind_eq_some_iff.mp h
    cases h
    have hun := unlistTimer_changes hu
    rw [hself] at hun
    exact turned_of_changes (hcount.trans hun) rfl rfl rfl (fun _ => rfl) rfl rfl rfl
  · obtain ⟨u, hu, h⟩ := Option.bind_eq_some_iff.mp h
    cases h
    obtain ⟨n, hre⟩ := requeue_changes hu
    rw [hself] at hre hzero
    exact turned_of_changes (hcount.trans hre) rfl rfl rfl (fun hc => absurd hc hzero) rfl rfl rfl

theorem processIdle_turned (s : Loop) (e : ℕ) : Turned e s (processIdle s e) := by
  have hcount := countDown_counted s e
  have hself := hcount.self
  unfold processIdle
  dsimp only
  split_ifs with hzero
  · have hun := unlistIdle_changes (countDown e s) e
    rw [hself] at hun
    exact turned_of_changes (hcount.trans hun) rfl rfl rfl (fun _ => rfl) rfl rfl rfl
  · rw [hself] at hzero
    exact turned_of_changes hcount rfl rfl rfl (fun hc => absurd hc hzero) rfl rfl rfl

/-! ## `evloop_process_pendings` -/

theorem finish_quiet (s : Loop) (e i c : ℕ) (next : Option ℕ) :
    Quiet e s (finish i c next s) ∧ ((finish i c next s).mem c).pending = false := by
  have hch := changes_modify s c fun ev => { ev with pending := false }
  have hquiet : Quiet e s (s.modify c fun ev => { ev with pending := false }) := by
    refine hch.quiet ?_
    rintro rfl
    exact ⟨rfl, rfl, rfl, id, fun hp => (by cases hp)⟩
  have hoff : ((s.modify c fun ev => { ev with pending := false }).mem c).pending = false := by rw [hch.self]
  unfold finish
  dsimp only
  split_ifs
  · obtain ⟨hdel, -⟩ := eventDel_quiet (s.modify c fun ev => { ev with pending := false }) e c
    obtain ⟨hself, -⟩ := eventDel_quiet (s.modify c fun ev => { ev with pending := false }) c c
    refine ⟨(hquiet.trans hdel).trans (quiet_of_eq le_rfl rfl), ?_⟩
    refine (Bool.not_eq_true _).mp fun hp => ?_
    have := hself.pending hp
    rw [hoff] at this
    cases this
  · exact ⟨hquiet.trans (quiet_of_eq le_rfl rfl), hoff⟩

/-! ## Steps -/

def outstanding (s : Loop) (e : ℕ) : ℕ := if (s.mem e).pending = true ∧ s.phase.running ≠ some e then 1 else 0

/-- A step that does not count the event down: it is invoked only if that was outstanding. -/
structure Calm (e : ℕ) (s : Loop) (a : Act) (t : Loop) : Prop extends Quiet e s t where
  outstanding : (invoked a t).count e + outstanding t e ≤ outstanding s e
  called : e ∈ invoked a t → (s.mem e).cb = true

def Turns : List ℕ → Loop → Loop → Prop
  | [], s, t => t = s
  | x :: l, s, t => ∃ u, Turned x s u ∧ Turns l u t

theorem outstanding_le (h : Quiet e s t)
    (hrun : s.phase.running = some e → t.phase.running = some e ∨ (t.mem e).pending = false) :
    outstanding t e ≤ outstanding s e := by
  unfold outstanding
  split_ifs with ht hs
  · exact le_rfl
  · obtain ⟨hp, hne⟩ := ht
    refine absurd ⟨h.pending hp, fun hc => ?_⟩ hs
    rcases hrun hc with hc | hc
    · exact hne hc
    · rw [hc] at hp
      cases hp
  · exact Nat.zero_le _
  · exact le_rfl

theorem calm_of_quiet {a : Act} (h : Quiet e s t) (ha : invoked a t = [])
    (hrun : s.phase.running = some e → t.phase.running = some e ∨ (t.mem e).pending = false) : Calm e s a t := by
  refine ⟨h, ?_, fun hc => ?_⟩
  · rw [ha, List.count_nil, Nat.zero_add]
    exact outstanding_le h hrun
  · rw [ha] at hc
    cases hc

theorem Turned.kept (h : Turned x s t) (e : ℕ) : Kept e s t := by
  rcases eq_or_ne e x with rfl | hne
  · exact h.toKept
  · have hsame := h.other e hne
    exact ⟨h.next, by rw [hsame], by rw [hsame]⟩

theorem turns_foldl (l : List ℕ) (s : Loop) : Turns l s (l.foldl processIdle s) := by
  induction l generalizing s with
  | nil => rfl
  | cons x l ih => exact ⟨_, processIdle_turned s x, ih _⟩

theorem visit_calm {i : ℕ} {cur : Option ℕ} (hphase : s.phase = .walk i cur) (e : ℕ) :
    Calm e s .visit (visit i cur s) := by
  have hrun : s.phase.running = none := by rw [hphase]; rfl
  have hidle : ∀ {t : Loop}, s.phase.running = some e → t.phase.running = some e ∨ (t.mem e).pending = false := by
    intro t hc
    rw [hrun] at hc
    cases hc
  cases cur with
  | none => cases i <;> exact calm_of_quiet (quiet_of_eq le_rfl rfl) rfl hidle
  | some c =>
    unfold visit
    dsimp only
    split_ifs with hp hcall
    · have hquiet : Quiet e s { s with phase := .cb i c (s.mem c).pendingNext } := quiet_of_eq le_rfl rfl
      obtain ⟨-, hcb⟩ := (Bool.and_eq_true _ _).mp hcall
      refine ⟨hquiet, ?_, fun hc => ?_⟩
      · change [c].count e + outstanding _ e ≤ _
        rcases eq_or_ne c e with rfl | hne
        · unfold outstanding
          rw [List.count_singleton_self, if_neg fun hc => hc.2 rfl, hrun, if_pos ⟨hp, by simp⟩]
        · rw [List.count_eq_zero_of_not_mem (by simpa using hne.symm), Nat.zero_add]
          exact outstanding_le hquiet hidle
      · rw [List.mem_singleton.mp hc]
        exact hcb
    · exact calm_of_quiet (finish_quiet s e i c _).1 rfl hidle
    · exact calm_of_quiet (quiet_of_eq le_rfl rfl) rfl hidle

theorem step_cases (hsound : Sound s) {a : Act} (ha : Enabled s a) (he : e < s.next) (hkind : (s.mem e).kind ≠ .io)
    (hreset : ∀ timeout, a ≠ .call (.evtimerReset e timeout)) (ht : step s a = some t) :
    Calm e s a t ∨ a ≠ .visit ∧ s.phase = .out ∧
      ∃ l, l.Nodup ∧ (∀ x ∈ l, (s.mem x).destroy = false) ∧ Turns l s t := by
  cases a with
  | call c =>
    left
    have hcall : call s c = some t := by
      unfold step at ht
      cases hph : s.phase with
      | out | cb =>
        rw [hph] at ht
        exact ht
      | walk =>
        rw [hph] at ht
        cases ht
    obtain ⟨hquiet, hphase⟩ := call_quiet he (fun timeout hc => hreset timeout (by rw [hc])) hcall
    exact calm_of_quiet hquiet rfl fun hc => .inl (by rw [hphase, hc])
  | timer w now next =>
    right
    rw [step, if_pos ha.1] at ht
    obtain ⟨x, hroot, hturned⟩ := processTimer_turned ht
    refine ⟨fun hc => (by cases hc), ha.1, [x], List.nodup_singleton x, fun y hy => ?_, t, hturned, rfl⟩
    rw [List.mem_singleton.mp hy]
    have hin : x ∈ s.parked w.kind := by
      rw [Which.parked_kind]
      exact Heap.mem_of_root hroot
    exact ((hsound.book.parked w.kind x).mp hin).2.2.2
  | idles =>
    right
    change s.phase = .out at ha
    rw [step, if_pos ha] at ht
    cases ht
    exact ⟨fun hc => (by cases hc), ha, s.idles, hsound.book.nodup .idle,
      fun x hx => ((hsound.book.parked .idle x).mp hx).2.2.2, turns_foldl s.idles s⟩
  | ioReady x =>
    left
    obtain ⟨hout, hlt, hio⟩ := ha
    rw [step, if_pos hout] at ht
    cases ht
    have hne : e ≠ x := by
      rintro rfl
      exact hkind hio
    obtain ⟨l, hmem⟩ := eventPending_mem s x
    obtain ⟨hnext, hphase⟩ := eventPending_next s x
    exact calm_of_quiet (quiet_of_eq hnext.ge (by rw [hmem, Function.update_of_ne hne])) rfl
      fun hc => .inl (by rw [hphase, hc])
  | start =>
    left
    change s.phase = .out at ha
    rw [step, if_pos ha] at ht
    cases ht
    have hrun : s.phase.running = some e → (beginPendings s).phase.running = some e ∨
        ((beginPendings s).mem e).pending = false := by
      rw [ha]
      exact fun hc => by cases hc
    refine calm_of_quiet ?_ rfl hrun
    unfold beginPendings
    split_ifs <;> exact quiet_of_eq le_rfl rfl
  | visit =>
    left
    unfold step at ht
    cases hph : s.phase with
    | out | cb =>
      rw [hph] at ht
      cases ht
    | walk i cur =>
      rw [hph] at ht
      cases ht
      exact visit_calm hph e
  | ret =>
    left
    unfold step at ht
    cases hph : s.phase with
    | out | walk =>
      rw [hph] at ht
      cases ht
    | cb i c next =>
      rw [hph] at ht
      cases ht
      obtain ⟨hquiet, -⟩ := finish_quiet s e i c next
      obtain ⟨-, hoff⟩ := finish_quiet s e i c next
      refine calm_of_quiet hquiet rfl fun hc => .inr ?_
      rw [hph] at hc
      cases hc
      exact hoff

theorem Turns.kept {l : List ℕ} (h : Turns l s t) (e : ℕ) : Kept e s t := by
  induction l generalizing s with
  | nil =>
    cases h
    exact ⟨le_rfl, rfl, rfl⟩
  | cons x l ih =>
    obtain ⟨u, hu, h⟩ := h
    exact (hu.kept e).trans (ih h)

/-! ## What is left to an event -/

/-- The invocations that are outstanding and those that the repeat count still allows. -/
def charge (s : Loop) (e : ℕ) : ℕ := outstanding s e + (s.mem e).repeats

/-- A timer or an idle that is to be invoked a bounded number of times. -/
structure Bounded (e : ℕ) (s : Loop) : Prop where
  lt : e < s.next
  kind : (s.mem e).kind ≠ .io
  finite : (s.mem e).repeats < infinite
  spent : (s.mem e).repeats = 0 → (s.mem e).destroy = true

theorem counted_add_one {n : ℕ} (h : n ≠ 0) (hn : n < infinite) : counted n + 1 = n := by
  rw [counted, if_neg (Nat.ne_of_lt hn), dec32, if_neg h]
  exact Nat.sub_add_cancel (Nat.pos_of_ne_zero h)

theorem outstanding_le_one (s : Loop) (e : ℕ) : outstanding s e ≤ 1 := by
  unfold outstanding
  split_ifs
  · exact le_rfl
  · exact Nat.zero_le 1

theorem Bounded.calm (h : Bounded e s) {a : Act} (hc : Calm e s a t) :
    Bounded e t ∧ (invoked a t).count e + charge t e ≤ charge s e := by
  have hrepeats := hc.repeats
  refine ⟨⟨Nat.lt_of_lt_of_le h.lt hc.next, hc.kind ▸ h.kind, hrepeats ▸ h.finite, fun hz => ?_⟩, ?_⟩
  · rw [hrepeats] at hz
    exact hc.destroy (h.spent hz)
  · have hle := hc.outstanding
    unfold charge
    omega

theorem Bounded.turned (h : Bounded e s) (ht : Turned x s t) (hd : x = e → (s.mem e).destroy = false) :
    Bounded e t ∧ charge t e ≤ charge s e := by
  rcases eq_or_ne e x with rfl | hne
  · have hpos : (s.mem e).repeats ≠ 0 := by
      intro hz
      have := h.spent hz
      rw [hd rfl] at this
      cases this
    have hone := counted_add_one hpos h.finite
    rw [← ht.repeats] at hone
    refine ⟨⟨Nat.lt_of_lt_of_le h.lt ht.next, ht.kind ▸ h.kind, ?_, ht.spent⟩, ?_⟩
    · have := h.finite
      omega
    · have := outstanding_le_one t e
      unfold charge
      omega
  · have hsame := ht.other e hne
    refine ⟨⟨Nat.lt_of_lt_of_le h.lt ht.next, hsame ▸ h.kind, hsame ▸ h.finite, hsame ▸ h.spent⟩, ?_⟩
    unfold charge outstanding
    rw [hsame, ht.phase]

theorem Bounded.turns {l : List ℕ} (h : Bounded e s) (hl : l.Nodup) (hd : ∀ x ∈ l, (s.mem x).destroy = false)
    (ht : Turns l s t) : Bounded e t ∧ charge t e ≤ charge s e := by
  induction l generalizing s with
  | nil =>
    cases ht
    exact ⟨h, le_rfl⟩
  | cons x l ih =>
    obtain ⟨u, hu, ht⟩ := ht
    obtain ⟨hx, hl⟩ := List.nodup_cons.mp hl
    obtain ⟨hbounded, hle⟩ := h.turned hu fun hxe => hxe ▸ hd x List.mem_cons_self
    -- the turn of `x` is no change for those that come after it
    obtain ⟨hbounded', hle'⟩ := ih hbounded hl (fun y hy => by
      rw [hu.other y (ne_of_mem_of_not_mem hy hx)]
      exact hd y (List.mem_cons_of_mem _ hy)) ht
    exact ⟨hbounded', hle'.trans hle⟩

theorem Bounded.step (h : Bounded e s) (hsound : Sound s) {a : Act} (ha : Enabled s a)
    (hreset : ∀ timeout, a ≠ .call (.evtimerReset e timeout)) (ht : step s a = some t) :
    Bounded e t ∧ (invoked a t).count e + charge t e ≤ charge s e := by
  rcases step_cases hsound ha h.lt h.kind hreset ht with hcalm | ⟨hvisit, -, l, hl, hd, hturns⟩
  · exact h.calm hcalm
  · rw [invoked, if_neg hvisit, List.count_nil, Nat.zero_add]
    exact h.turns hl hd hturns

structure Mute (e : ℕ) (s : Loop) : Prop where
  lt : e < s.next
  kind : (s.mem e).kind ≠ .io
  cb : (s.mem e).cb = false

theorem Mute.kept (h : Mute e s) (hk : Kept e s t) : Mute e t :=
  ⟨Nat.lt_of_lt_of_le h.lt hk.next, hk.kind ▸ h.kind, hk.cb ▸ h.cb⟩

theorem Mute.step (h : Mute e s) (hsound : Sound s) {a : Act} (ha : Enabled s a)
    (hreset : ∀ timeout, a ≠ .call (.evtimerReset e timeout)) (ht : step s a = some t) : Mute e t ∧ e ∉ invoked a t := by
  rcases step_cases hsound ha h.lt h.kind hreset ht with hcalm | ⟨hvisit, -, l, -, -, hturns⟩
  · refine ⟨h.kept hcalm.toKept, fun hmem => ?_⟩
    have := hcalm.called hmem
    rw [h.cb] at this
    cases this
  · rw [invoked, if_neg hvisit]
    exact ⟨h.kept (hturns.kept e), List.not_mem_nil⟩

/-! ## Runs -/

theorem track_step {a : Act} (ht : step s a = some t) (log : List ℕ) :
    track (s, log) a = some (t, log ++ invoked a t) := congrArg (Option.map _) ht

def Lets (e : ℕ) (s : Loop) (a : Act) : Prop := Enabled s a ∧ ∀ timeout, a ≠ .call (.evtimerReset e timeout)

theorem Bounded.run (h : Bounded e s) (hsound : Sound s) {acts : List Act} (hacts : Run.Along Timers.step (Lets e) s acts) :
    ∃ t log, Run.exec track (s, []) acts = some (t, log) ∧ Sound t ∧ Bounded e t ∧ log.count e + charge t e ≤ charge s e := by
  obtain ⟨⟨t, log⟩, hexec, hinv⟩ := Run.exec_of_along
    (fun _ (p : Loop × List ℕ) => Sound p.1 ∧ Bounded e p.1 ∧ p.2.count e + charge p.1 e ≤ charge s e)
    (fun _ p a hp ha => by
      obtain ⟨hsound, hbounded, hle⟩ := hp
      obtain ⟨t, ht, hsound'⟩ := hsound.step ha.1
      obtain ⟨hbounded', hle'⟩ := hbounded.step hsound ha.1 ha.2 ht
      refine ⟨_, track_step ht p.2, hsound', hbounded', ?_⟩
      change (p.2 ++ invoked a t).count e + charge t e ≤ charge s e
      rw [List.count_append]
      omega)
    [] ⟨hsound, h, by rw [List.count_nil, Nat.zero_add]⟩ (Run.along_logged (p := (s, [])) hacts)
  exact ⟨t, log, hexec, hinv⟩

theorem Mute.run (h : Mute e s) (hsound : Sound s) {acts : List Act} (hacts : Run.Along Timers.step (Lets e) s acts) :
    ∃ t log, Run.exec track (s, []) acts = some (t, log) ∧ e ∉ log := by
  obtain ⟨⟨t, log⟩, hexec, hinv⟩ := Run.exec_of_along
    (fun _ (p : Loop × List ℕ) => Sound p.1 ∧ Mute e p.1 ∧ e ∉ p.2)
    (fun _ p a hp ha => by
      obtain ⟨hsound, hmute, hmem⟩ := hp
      obtain ⟨t, ht, hsound'⟩ := hsound.step ha.1
      obtain ⟨hmute', hmem'⟩ := hmute.step hsound ha.1 ha.2 ht
      refine ⟨_, track_step ht p.2, hsound', hmute', ?_⟩
      change e ∉ p.2 ++ invoked a t
      rw [List.mem_append]
      exact fun hc => hc.elim hmem hmem')
    [] ⟨hsound, h, List.not_mem_nil⟩ (Run.along_logged (p := (s, [])) hacts)
  exact ⟨t, log, hexec, hinv.2.2⟩

/-! ## Events that are added -/

structure Adds (s t : Loop) (N : ℕ) (cb : Bool) : Prop where
  lt : s.next < t.next
  kind : (t.mem s.next).kind ≠ .io
  repeats : (t.mem s.next).repeats = N
  cb : (t.mem s.next).cb = cb
  active : (t.mem s.next).active = true
  pending : (t.mem s.next).pending = false
  pendings : t.pendings = s.pendings
  phase : t.phase = s.phase

theorem adds_eventActive {N : ℕ} {cb : Bool} (hmem : u.mem s.next = ev) (hnext : u.next = s.next + 1)
    (hpendings : u.pendings = s.pendings) (hphase : u.phase = s.phase)
    (hev : ev.kind ≠ .io ∧ ev.repeats = N ∧ ev.cb = cb ∧ ev.pending = false) : Adds s (eventActive s.next u) N cb := by
  have hch := eventActive_changes u s.next
  have hself := hch.self
  rw [hmem] at hself
  obtain ⟨hkind, hrepeats, hcb, hpending⟩ := hev
  refine ⟨?_, ?_, ?_, ?_, ?_, ?_, hch.pendings.trans hpendings, hch.phase.trans hphase⟩
  · rw [hch.next, hnext]
    exact Nat.lt_succ_self _
  · rw [hself]
    exact hkind
  · rw [hself]
    exact hrepeats
  · rw [hself]
    exact hcb
  · rw [hself]
  · rw [hself]
    exact hpending

theorem call_adds {c : Call} {N : ℕ} {cb : Bool} (hadd : c.adds = some (N, cb)) (ht : call s c = some t) : Adds s t N cb := by
  cases c with
  | evtimerAdd hrtime timeout repeats cb =>
    simp only [Call.adds] at hadd
    split_ifs at hadd with htimeout
    cases hadd
    cases ht
    unfold evtimerAdd
    rw [if_neg htimeout]
    dsimp only
    rw [eventActive_ntimers]
    exact adds_eventActive (Function.update_self ..) rfl rfl rfl ⟨fun hc => (by cases hc), rfl, rfl, rfl⟩
  | evtimerAddPeriod minute hour day week month next repeats cb =>
    simp only [Call.adds] at hadd
    split_ifs at hadd with hfields
    cases hadd
    cases ht
    unfold evtimerAddPeriod
    rw [if_neg hfields]
    dsimp only
    rw [eventActive_ntimers]
    exact adds_eventActive (Function.update_self ..) rfl rfl rfl ⟨fun hc => (by cases hc), rfl, rfl, rfl⟩
  | evidleAdd repeats cb =>
    cases hadd
    cases ht
    unfold evidleAdd
    dsimp only
    rw [eventActive_nidles]
    exact adds_eventActive (Function.update_self ..) rfl rfl rfl ⟨fun hc => (by cases hc), rfl, rfl, rfl⟩
  | evtimerReset | evtimerDel | evidleDel | evioGet | evioAdd | evioDel => cases hadd

theorem callable_of_adds {c : Call} {p : ℕ × Bool} (hadd : c.adds = some p) (s : Loop) : Callable s c := by
  cases c with
  | evtimerAdd | evtimerAddPeriod | evidleAdd => trivial
  | evtimerReset | evtimerDel | evidleDel | evioGet | evioAdd | evioDel => cases hadd

theorem turn_after_adds {c : Call} {N : ℕ} {cb : Bool} (hadd : c.adds = some (N, cb)) (ht : call Loop.init c = some t) :
    ∃ a u, Enabled t a ∧ a ≠ .visit ∧ (∀ timeout, a ≠ .call (.evtimerReset 0 timeout)) ∧ step t a = some u ∧ Turned 0 t u := by
  -- the new event is all that there is to process, and its turn comes
  obtain ⟨t', ht', hsound⟩ := sound_init.call (callable_of_adds hadd Loop.init)
  cases ht.symm.trans ht'
  have hphase : t.phase = .out := (call_adds hadd ht).phase
  have htimer : ∀ w : Which, (w.heap t).root = some 0 →
      ∃ a u, Enabled t a ∧ a ≠ .visit ∧ (∀ timeout, a ≠ .call (.evtimerReset 0 timeout)) ∧ step t a = some u ∧ Turned 0 t u := by
    intro w hroot
    obtain ⟨u, hu, -⟩ := hsound.processTimer 0 hroot le_rfl
    obtain ⟨e, hroot', hturned⟩ := processTimer_turned hu
    cases hroot.symm.trans hroot'
    exact ⟨.timer w (t.mem 0).nextTimeout 0, u, ⟨hphase, 0, hroot, le_rfl⟩, fun hc => (by cases hc),
      fun _ hc => (by cases hc), (if_pos hphase).trans hu, hturned⟩
  cases c with
  | evtimerAdd hrtime timeout repeats cb =>
    simp only [Call.adds] at hadd
    split_ifs at hadd with htimeout
    cases ht
    apply htimer .timers
    rw [evtimerAdd, if_neg htimeout]
    rfl
  | evtimerAddPeriod minute hour day week month next repeats cb =>
    simp only [Call.adds] at hadd
    split_ifs at hadd with hfields
    cases ht
    apply htimer .realtimers
    rw [evtimerAddPeriod, if_neg hfields]
    rfl
  | evidleAdd repeats cb =>
    cases ht
    exact ⟨.idles, processIdles (evidleAdd repeats cb Loop.init), hphase, fun hc => (by cases hc), fun _ hc => (by cases hc),
      by rw [step, if_pos hphase], processIdle_turned (evidleAdd repeats cb Loop.init) 0⟩
  | evtimerReset | evtimerDel | evidleDel | evioGet | evioAdd | evioDel => cases hadd

/-! ## The first pending event -/

/-- No list above that of `p` has an event, and its first event is pending and has a callback. -/
structure First (t : Loop) (p e : ℕ) : Prop where
  above : ∀ i, p < i → t.pendings i = none
  head : t.pendings p = some e
  pending : (t.mem e).pending = true
  called : ((t.mem e).active && (t.mem e).cb) = true

theorem First.walk {p : ℕ} (h : First t p e) (k : ℕ) (hphase : t.phase = .walk (p + k) (t.pendings (p + k)))
    (log : List ℕ) : Run.Along step (Lets x) t (List.replicate (k + 1) .visit) ∧
      ∃ u, Run.exec track (t, log) (List.replicate (k + 1) .visit) = some (u, log ++ [e]) := by
  have hlets : Lets x t .visit := by
    refine ⟨?_, fun _ hc => by cases hc⟩
    change t.phase.walking = true
    rw [hphase]
    rfl
  have hstep : step t .visit = some (visit (p + k) (t.pendings (p + k)) t) := by
    unfold step
    rw [hphase]
  induction k generalizing t with
  | zero =>
    have hvisit : visit p (some e) t = { t with phase := .cb p e (t.mem e).pendingNext } := by
      unfold visit
      dsimp only
      rw [if_pos h.pending, if_pos h.called]
    rw [Nat.add_zero, h.head, hvisit] at hstep
    exact ⟨⟨hlets, fun _ _ => trivial⟩, _, Run.exec_logged_cons hstep log []⟩
  | succ k ih =>
    rw [h.above (p + (k + 1)) (by omega)] at hstep
    have hnext : First (visit (p + (k + 1)) none t) p e := by
      refine ⟨fun i hi => ?_, ?_, h.pending, h.called⟩
      · change Function.update t.pendings (p + (k + 1)) none i = none
        rcases eq_or_ne i (p + (k + 1)) with rfl | hne
        · exact Function.update_self ..
        · rw [Function.update_of_ne hne]
          exact h.above i hi
      · change Function.update t.pendings (p + (k + 1)) none p = some e
        rw [Function.update_of_ne (by omega)]
        exact h.head
    have hphase' : (visit (p + (k + 1)) none t).phase = .walk (p + k) ((visit (p + (k + 1)) none t).pendings (p + k)) := rfl
    obtain ⟨halong, u, hu⟩ := ih hnext hphase' ⟨rfl, fun _ hc => by cases hc⟩ rfl
    refine ⟨⟨hlets, fun v hv => ?_⟩, u, ?_⟩
    · cases hstep.symm.trans hv
      exact halong
    · rw [List.replicate_succ, track, Run.exec_logged_cons hstep, show invoked _ _ = [] from rfl, List.append_nil]
      exact hu

theorem First.run {p : ℕ} (h : First t p e) (hp : p ≤ 10) (hout : t.phase = .out) (hn : t.npendings ≠ 0)
    (log : List ℕ) : Run.Along step (Lets x) t (.start :: List.replicate (10 - p + 1) Act.visit) ∧
      ∃ u, Run.exec track (t, log) (.start :: List.replicate (10 - p + 1) Act.visit) = some (u, log ++ [e]) := by
  have hstart : step t .start = some { t with phase := .walk 10 (t.pendings 10) } := by
    rw [step, if_pos hout, beginPendings, if_neg hn]
  have hfirst : First { t with phase := .walk 10 (t.pendings 10) } p e := ⟨h.above, h.head, h.pending, h.called⟩
  obtain ⟨halong, u, hu⟩ := hfirst.walk (x := x) (10 - p) (by rw [Nat.add_sub_of_le hp]) log
  refine ⟨⟨⟨hout, fun _ hc => by cases hc⟩, fun v hv => ?_⟩, u, ?_⟩
  · cases hstart.symm.trans hv
    exact halong
  · rw [track, Run.exec_logged_cons hstart, show invoked _ _ = [] from rfl, List.append_nil]
    exact hu

/-! ## How often -/

theorem Bounded.gone (h : Bounded e s) (hbook : Book s) (hz : charge s e = 0) :
    e ∉ s.timers.elts ∧ e ∉ s.realtimers.elts ∧ e ∉ s.idles := by
  have hd : (s.mem e).destroy = true := h.spent (Nat.eq_zero_of_add_eq_zero_left hz)
  have hout : ∀ k, e ∉ s.parked k := by
    intro k hk
    have := ((hbook.parked k e).mp hk).2.2.2
    rw [hd] at this
    cases this
  exact ⟨hout .timeout, hout .period, hout .idle⟩

theorem fires_without_repeats {c : Call} (hadd : c.adds = some (0, true)) :
    ∃ after t log, Run.Along step Enabled Loop.init (.call c :: after) ∧
      (∀ timeout, Act.call (.evtimerReset 0 timeout) ∉ after) ∧
      Run.exec track (Loop.init, []) (.call c :: after) = some (t, log) ∧ log.count 0 = 1 := by
  obtain ⟨s, hs, -⟩ := sound_init.call (callable_of_adds hadd Loop.init)
  have hadds := call_adds hadd hs
  obtain ⟨a, t, ha, hvisit, hreset, ht, hturned⟩ := turn_after_adds hadd hs
  obtain ⟨hpendings, hnpendings⟩ := hturned.linked hadds.pending
  have hfirst : First t (s.mem 0).priority 0 := by
    refine ⟨fun i hi => ?_, ?_, hturned.pending, ?_⟩
    · rw [hpendings, Function.update_of_ne (Nat.ne_of_gt hi), hadds.pendings]
      rfl
    · rw [hpendings, Function.update_self]
    · rw [hturned.active, hturned.cb]
      exact (Bool.and_eq_true _ _).mpr ⟨hadds.active, hadds.cb⟩
  obtain ⟨halong, u, hu⟩ := hfirst.run (x := 0) (Nat.le_of_lt_succ (s.mem 0).priority.isLt)
    (hturned.phase.trans hadds.phase) (hnpendings ▸ Nat.succ_ne_zero _) []
  have hstep : step Loop.init (.call c) = some s := hs
  refine ⟨a :: .start :: List.replicate (10 - (s.mem 0).priority + 1) .visit, u, [0],
    ⟨⟨rfl, callable_of_adds hadd Loop.init⟩, ?_⟩, ?_, ?_, ?_⟩
  · rintro v hv
    cases hstep.symm.trans hv
    refine ⟨ha, fun v hv => ?_⟩
    cases ht.symm.trans hv
    exact (Run.along_and.mp halong).1
  · intro timeout hmem
    rcases List.mem_cons.mp hmem with hmem | hmem
    · exact hreset timeout hmem.symm
    · rcases List.mem_cons.mp hmem with hmem | hmem
      · cases hmem
      · cases List.eq_of_mem_replicate hmem
  · have hnone : invoked a t = [] := if_neg hvisit
    rw [track, Run.exec_logged_cons hstep, Run.exec_logged_cons ht, hnone]
    exact hu
  · exact List.count_singleton_self

/-- In every run in which it is not reset, an event is invoked as often as its repeat count says at most, and is out of its
heap or list when it has been, if and only if that count is not zero. -/
theorem fires_at_most_iff {c : Call} {N : ℕ} {cb : Bool} (hadd : c.adds = some (N, cb)) (hN : N < infinite) :
    (∀ before s after, Run.exec step Loop.init before = some s →
      Run.Along step Enabled Loop.init (before ++ .call c :: after) →
      (∀ timeout, Act.call (.evtimerReset s.next timeout) ∉ after) →
      ∃ t log, Run.exec track (s, []) (.call c :: after) = some (t, log) ∧ log.count s.next ≤ N ∧
        (1 ≤ N → log.count s.next = N →
          s.next ∉ t.timers.elts ∧ s.next ∉ t.realtimers.elts ∧ s.next ∉ t.idles)) ↔ 1 ≤ N ∨ cb = false := by
  constructor
  · intro h
    rcases Nat.eq_zero_or_pos N with rfl | hpos
    · right
      refine (Bool.not_eq_true _).mp fun hcb => ?_
      rw [hcb] at hadd
      obtain ⟨after, t, log, halong, hreset, hexec, hcount⟩ := fires_without_repeats hadd
      obtain ⟨t', log', hexec', hle, -⟩ := h [] Loop.init after rfl halong hreset
      cases hexec.symm.trans hexec'
      rw [show Loop.init.next = 0 from rfl, hcount] at hle
      cases hle
    · exact .inl hpos
  · intro h before s after hbefore halong hreset
    obtain ⟨hbefore', hafter⟩ := Run.along_append.mp halong
    obtain ⟨ha, hafter⟩ := hafter s hbefore
    obtain ⟨s', hs', hsound⟩ := Run.exec_of_along (fun _ => Sound) (fun _ _ _ h ha => h.step ha) [] sound_init hbefore'
    cases hbefore.symm.trans hs'
    obtain ⟨t, ht, hsound'⟩ := hsound.step ha
    have hadds := call_adds hadd (call_of_step ht)
    have hlets : Run.Along step (Lets s.next) t after := by
      refine Run.along_and.mpr ⟨hafter t ht, Run.along_of_mem (p := fun a => ∀ timeout, a ≠ _) (fun a ha timeout hc => ?_) t⟩
      exact hreset timeout (hc ▸ ha)
    have hexec : ∀ as, Run.exec track (s, []) (.call c :: as) = Run.exec track (t, []) as :=
      fun as => Run.exec_logged_cons ht [] as
    by_cases hpos : 1 ≤ N
    · have hcharge : charge t s.next = N := by
        unfold charge outstanding
        rw [if_neg (by rw [hadds.pending]; exact fun hc => by cases hc.1), hadds.repeats, Nat.zero_add]
      obtain ⟨u, log, hu, hsound'', hbounded, hle⟩ := Bounded.run (e := s.next)
        ⟨hadds.lt, hadds.kind, hadds.repeats ▸ hN, fun hz => absurd (hadds.repeats ▸ hz) (by omega)⟩ hsound' hlets
      rw [hcharge] at hle
      refine ⟨u, log, (hexec after).trans hu, by omega, fun _ hc => hbounded.gone hsound''.book (by omega)⟩
    · obtain ⟨u, log, hu, hmem⟩ := Mute.run ⟨hadds.lt, hadds.kind, hadds.cb.trans (h.resolve_left hpos)⟩ hsound' hlets
      refine ⟨u, log, (hexec after).trans hu, ?_, fun hc => absurd hc hpos⟩
      rw [List.count_eq_zero_of_not_mem hmem]
      exact Nat.zero_le N

def visits (n : ℕ) (acts : List Act) : List Act := List.replicate n .visit ++ acts

/-- An idle that is to be invoked twice, and a timer beside it. -/
def twice : List Act :=
  .call (.evtimerAdd 0 5 1 true) :: .idles :: .timer .timers 5000 0 :: .start :: .visit :: .ret ::
    visits 11 (.ret :: .visit :: .idles :: .idles :: .start :: visits 11 [.ret])

theorem fires_at_most_iff_sample :
    ∃ t log, Run.exec track (Loop.init, []) (.call (.evidleAdd 2 true) :: twice) = some (t, log) ∧ log.count 0 ≤ 2 ∧
      (1 ≤ 2 → log.count 0 = 2 → 0 ∉ t.timers.elts ∧ 0 ∉ t.realtimers.elts ∧ 0 ∉ t.idles) := by
  have hiff := fires_at_most_iff (c := .evidleAdd 2 true) rfl (by decide)
  have hacts : Run.Along step Enabled Loop.init ([] ++ .call (.evidleAdd 2 true) :: twice) := by decide +kernel
  have hreset : ∀ timeout, Act.call (.evtimerReset 0 timeout) ∉ twice := fun timeout hc => by simp [twice, visits] at hc
  exact hiff.mpr (.inl (by decide)) [] Loop.init twice rfl hacts hreset

/-- A timer with a repeat count of zero is invoked, and goes on. -/
theorem fires_unasked :
    Run.Along step Enabled Loop.init
        [.call (.evtimerAdd 0 5 0 true), .timer .timers 5000 0, .start, .visit, .ret] ∧
      ∃ t log, Run.exec track (Loop.init, [])
          [.call (.evtimerAdd 0 5 0 true), .timer .timers 5000 0, .start, .visit, .ret] = some (t, log) ∧
        0 < log.count 0 ∧ 0 ∈ t.timers.elts ∧ (t.mem 0).repeats = infinite := by
  refine ⟨by decide +kernel, _, _, rfl, ?_, ?_, rfl⟩
  · decide
  · decide

end Yjc.Timers
