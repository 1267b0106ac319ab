import Yjc.Event.Bookkeeping

/-! The counters of a loop over whole runs, callbacks included. -/

namespace Yjc.Timers
open Timers.Loop

def Phase.events : Phase → List ℕ
  | .out => []
  | .walk _ cur => cur.toList
  | .cb _ cur next => cur :: next.toList

/-- Every pointer to an event that `evloop_process_pendings` may follow is the address of one. -/
structure Addressed (s : Loop) : Prop where
  heads : ∀ i, ∀ e ∈ s.pendings i, e < s.next
  links : ∀ e, ∀ e' ∈ (s.mem e).pendingNext, e' < s.next
  phase : ∀ e ∈ s.phase.events, e < s.next

variable {s t : Loop} {e : ℕ}

theorem Addressed.changes (h : Addressed s) {ev : Event} (hch : Changes s t e ev)
    (hev : ev.pendingNext = (s.mem e).pendingNext) : Addressed t := by
  refine ⟨fun i x hx => ?_, fun x y hy => ?_, fun x hx => ?_⟩
  · rw [hch.next]
    rw [hch.pendings] at hx
    exact h.heads i x hx
  · rw [hch.next]
    rcases eq_or_ne x e with rfl | hne
    · rw [hch.self, hev] at hy
      exact h.links x y hy
    · rw [hch.mem, Function.update_of_ne hne] at hy
      exact h.links x y hy
  · rw [hch.next]
    rw [hch.phase] at hx
    exact h.phase x hx

theorem Addressed.eventPending (h : Addressed s) (he : e < s.next) : Addressed (eventPending e s) := by
  unfold Timers.eventPending
  split_ifs
  · exact h
  · refine ⟨fun i x hx => ?_, fun x y hy => ?_, h.phase⟩
    · change x ∈ Function.update s.pendings (s.mem e).priority (some e) i at hx
      rcases eq_or_ne i ((s.mem e).priority : ℕ) with rfl | hne
      · rw [Function.update_self, Option.mem_some_iff] at hx
        exact hx ▸ he
      · rw [Function.update_of_ne hne] at hx
        exact h.heads i x hx
    · rcases eq_or_ne x e with rfl | hne
      · rw [show _ = _ from modify_self s x _] at hy
        exact h.heads _ y hy
      · rw [show _ = s.mem x from modify_of_ne s hne _] at hy
        exact h.links x y hy

theorem Addressed.of_eq (h : Addressed s) (hmem : t.mem = s.mem) (hnext : t.next = s.next)
    (hpendings : t.pendings = s.pendings) (hphase : t.phase = s.phase) : Addressed t := by
  -- only the events, the pendings lists and the phase matter
  refine ⟨?_, ?_, ?_⟩
  · rw [hpendings, hnext]
    exact h.heads
  · rw [hmem, hnext]
    exact h.links
  · rw [hphase, hnext]
    exact h.phase

theorem Addressed.eventActive (h : Addressed s) (e : ℕ) : Addressed (eventActive e s) :=
  h.changes (eventActive_changes s e) rfl

theorem Addressed.eventDel (h : Addressed s) (e : ℕ) : Addressed (eventDel e s) := by
  have h₁ := h.changes (eventInactive_changes s e) rfl
  unfold Timers.eventDel
  dsimp only
  split_ifs
  · exact h₁
  · exact h₁.of_eq rfl rfl rfl rfl

structure Sound (s : Loop) : Prop where
  book : Book s
  addressed : Addressed s

/-! ## The calls -/

/-- The address is that of an event of the type that the function takes. -/
def Callable (s : Loop) : Call → Prop
  | .evtimerReset e _ => e < s.next ∧ e ∉ s.freed
  | .evtimerDel e => e < s.next ∧ ((s.mem e).kind = .timeout ∨ (s.mem e).kind = .period)
  | .evidleDel e => e < s.next ∧ (s.mem e).kind = .idle
  | .evioAdd e => e < s.next ∧ (s.mem e).kind = .io ∧ e ∉ s.freed
  | .evioDel e => e < s.next ∧ (s.mem e).kind = .io
  | .evtimerAdd .. | .evtimerAddPeriod .. | .evidleAdd .. | .evioGet .. => True

/-- A new event, and nothing else that the lists of pending events depend on. -/
structure Creates (s t : Loop) (ev : Event) : Prop where
  mem : t.mem = Function.update s.mem s.next ev
  next : t.next = s.next + 1
  pendings : t.pendings = s.pendings
  npendings : t.npendings = s.npendings
  phase : t.phase = s.phase
  freed : t.freed = s.freed
  link : ev.pendingNext = none
  pending : ev.pending = false
  destroy : ev.destroy = false

/-- What a call does to the events. -/
inductive Effect (s : Loop) : Call → Loop → Prop
  | same (c : Call) : Effect s c s
  | creates {c : Call} {t : Loop} {ev : Event} (h : Creates s t ev) : Effect s c t
  | adds {c : Call} {u : Loop} {ev : Event} (h : Creates s u ev) : Effect s c (eventActive s.next u)
  | resets {e timeout r m n : ℕ} {t : Loop} (hk : (s.mem e).kind = .timeout) (h : Changes s t e { s.mem e with
      repeats := r, timeout := m, nextTimeout := n, destroy := false, active := true, pending := false }) :
      Effect s (.evtimerReset e timeout) t
  | deletes {c : Call} {e : ℕ} {u : Loop} (hc : c = .evtimerDel e ∨ c = .evidleDel e) (hact : (s.mem e).active = true)
      (h : Changes s u e { s.mem e with destroy := true }) : Effect s c (eventDel e u)
  | active (e : ℕ) : Effect s (.evioAdd e) (eventActive e s)
  | inactive (e : ℕ) : Effect s (.evioDel e) (eventInactive e s)

theorem call_effect {c : Call} (ht : call s c = some t) : Effect s c t := by
  cases c with
  | evtimerAdd hrtime timeout repeats cb =>
    cases ht
    unfold evtimerAdd
    split_ifs
    · exact .same _
    · dsimp only
      rw [eventActive_ntimers]
      exact .adds ⟨rfl, rfl, rfl, rfl, rfl, rfl, rfl, rfl, rfl⟩
  | evtimerAddPeriod minute hour day week month next repeats cb =>
    cases ht
    unfold evtimerAddPeriod
    split_ifs
    · exact .same _
    · dsimp only
      rw [eventActive_ntimers]
      exact .adds ⟨rfl, rfl, rfl, rfl, rfl, rfl, rfl, rfl, rfl⟩
  | evtimerReset e timeout =>
    change evtimerReset e timeout s = some t at ht
    by_cases hk : (s.mem e).kind = .timeout
    · obtain ⟨r, m, n, hch⟩ := evtimerReset_changes hk ht
      exact .resets hk hch
    · unfold evtimerReset at ht
      rw [if_neg hk] at ht
      cases ht
      exact .same _
  | evtimerDel e =>
    change evtimerDel e s = some t at ht
    unfold evtimerDel at ht
    split_ifs at ht with hact
    · obtain ⟨u, hu, rfl⟩ := Option.map_eq_some_iff.mp ht
      exact .deletes (.inl rfl) hact (unlistTimer_changes hu)
    · cases ht
      exact .same _
  | evidleAdd repeats cb =>
    cases ht
    unfold evidleAdd
    dsimp only
    rw [eventActive_nidles]
    exact .adds ⟨rfl, rfl, rfl, rfl, rfl, rfl, rfl, rfl, rfl⟩
  | evidleDel e =>
    cases ht
    unfold evidleDel
    split_ifs with hact
    · exact .deletes (.inr rfl) hact (unlistIdle_changes s e)
    · exact .same _
  | evioGet priority cb =>
    cases ht
    exact .creates ⟨rfl, rfl, rfl, rfl, rfl, rfl, rfl, rfl, rfl⟩
  | evioAdd e =>
    cases ht
    exact .active e
  | evioDel e =>
    cases ht
    exact .inactive e

theorem Addressed.creates (h : Addressed s) {ev : Event} (hnew : Creates s t ev) : Addressed t := by
  refine ⟨fun i x hx => ?_, fun x y hy => ?_, fun x hx => ?_⟩ <;> rw [hnew.next]
  · rw [hnew.pendings] at hx
    exact Nat.lt_succ_of_lt (h.heads i x hx)
  · rw [hnew.mem] at hy
    rcases eq_or_ne x s.next with rfl | hne
    · rw [Function.update_self, hnew.link] at hy
      cases hy
    · rw [Function.update_of_ne hne] at hy
      exact Nat.lt_succ_of_lt (h.links x y hy)
  · rw [hnew.phase] at hx
    exact Nat.lt_succ_of_lt (h.phase x hx)

theorem Addressed.call (h : Addressed s) {c : Call} (ht : call s c = some t) : Addressed t := by
  cases call_effect ht with
  | same => exact h
  | creates hnew => exact h.creates hnew
  | adds hnew => exact (h.creates hnew).eventActive s.next
  | resets _ hch => exact h.changes hch rfl
  | deletes _ _ hch => exact (h.changes hch rfl).eventDel _
  | active e => exact h.eventActive e
  | inactive e => exact h.changes (eventInactive_changes s e) rfl

theorem Book.call (h : Book s) {c : Call} (hc : Callable s c) : ∃ t, call s c = some t ∧ Book t := by
  cases c with
  | evtimerAdd hrtime timeout repeats cb => exact ⟨_, rfl, h.evtimerAdd hrtime timeout repeats cb⟩
  | evtimerAddPeriod minute hour day week month next repeats cb =>
    exact ⟨_, rfl, h.evtimerAddPeriod minute hour day week month next repeats cb⟩
  | evtimerReset e timeout => exact h.evtimerReset hc.1 hc.2 timeout
  | evtimerDel e =>
    obtain ⟨w, hw⟩ := which_of_kind hc.2
    exact h.evtimerDel hc.1 hw
  | evidleAdd repeats cb => exact ⟨_, rfl, h.evidleAdd repeats cb⟩
  | evidleDel e => exact ⟨_, rfl, h.evidleDel hc.1 hc.2⟩
  | evioGet priority cb => exact ⟨_, rfl, h.evioGet rfl rfl⟩
  | evioAdd e => exact ⟨_, rfl, h.eventActive hc.1 hc.2.2⟩
  | evioDel e => exact ⟨_, rfl, h.eventInactive hc.1⟩

theorem Sound.call (h : Sound s) {c : Call} (hc : Callable s c) : ∃ t, call s c = some t ∧ Sound t := by
  obtain ⟨t, ht, hbook⟩ := h.book.call hc
  exact ⟨t, ht, hbook, h.addressed.call ht⟩

/-! ## Processing -/

theorem Sound.eventPending (h : Sound s) (he : e < s.next) : Sound (eventPending e s) :=
  ⟨h.book.same (same_eventPending s e), h.addressed.eventPending he⟩

theorem Sound.countDown (h : Sound s) (e : ℕ) : Sound (countDown e s) := by
  obtain ⟨n, hch⟩ := countDown_changes s e
  exact ⟨h.book.same (same_countDown s e), h.addressed.changes hch rfl⟩

structure Keeps (s t : Loop) : Prop where
  next : t.next = s.next
  kind : ∀ e, (t.mem e).kind = (s.mem e).kind

theorem Keeps.trans {u : Loop} (h : Keeps s t) (h' : Keeps t u) : Keeps s u :=
  ⟨h'.next.trans h.next, fun e => (h'.kind e).trans (h.kind e)⟩

theorem Same.keeps (h : Same s t) : Keeps s t := ⟨h.next, fun e => (core_eq (h.core e)).1⟩

theorem Changes.keeps {ev : Event} (h : Changes s t e ev) (hk : ev.kind = (s.mem e).kind) : Keeps s t := by
  refine ⟨h.next, fun x => ?_⟩
  rcases eq_or_ne x e with rfl | hne
  · rw [h.self, hk]
  · rw [h.mem, Function.update_of_ne hne]

theorem Sound.processIdle (h : Sound s) (he : e < s.next) (hk : (s.mem e).kind = .idle) :
    Sound (processIdle s e) ∧ Keeps s (processIdle s e) := by
  have h₁ := h.countDown e
  have hkeep₁ := (same_countDown s e).keeps
  have hlist : Sound (if ((Timers.countDown e s).mem e).repeats = 0 then unlistIdle e (Timers.countDown e s)
        else Timers.countDown e s) ∧
      Keeps s (if ((Timers.countDown e s).mem e).repeats = 0 then unlistIdle e (Timers.countDown e s)
        else Timers.countDown e s) := by
    split_ifs
    · have hch := unlistIdle_changes (Timers.countDown e s) e
      refine ⟨⟨h₁.book.unlistIdle (by rw [hkeep₁.next]; exact he) (by rw [hkeep₁.kind]; exact hk),
        h₁.addressed.changes hch rfl⟩, hkeep₁.trans (hch.keeps rfl)⟩
    · exact ⟨h₁, hkeep₁⟩
  unfold Timers.processIdle
  dsimp only
  generalize (if ((Timers.countDown e s).mem e).repeats = 0 then unlistIdle e (Timers.countDown e s)
        else Timers.countDown e s) = u at hlist ⊢
  obtain ⟨h₂, hkeep₂⟩ := hlist
  exact ⟨h₂.eventPending (by rw [hkeep₂.next]; exact he), hkeep₂.trans (same_eventPending u e).keeps⟩

theorem Sound.foldIdles (h : Sound s) (l : List ℕ) (hl : ∀ e ∈ l, e < s.next ∧ (s.mem e).kind = .idle) :
    Sound (l.foldl Timers.processIdle s) := by
  induction l generalizing s with
  | nil => exact h
  | cons e l ih =>
    obtain ⟨he, hk⟩ := hl e List.mem_cons_self
    obtain ⟨h', hkeep⟩ := h.processIdle he hk
    refine ih h' fun x hx => ?_
    rw [hkeep.next, hkeep.kind]
    exact hl x (List.mem_cons_of_mem _ hx)

theorem Sound.processIdles (h : Sound s) : Sound (processIdles s) := by
  refine h.foldIdles s.idles fun e he => ?_
  obtain ⟨-, hlt, hk, -⟩ := (h.book.parked .idle e).mp he
  exact ⟨hlt, hk⟩

theorem Sound.processTimer (h : Sound s) {w : Which} {now : ℕ} (next : ℕ) (hroot : (w.heap s).root = some e)
    (hdue : (s.mem e).nextTimeout ≤ now) : ∃ t, processTimer w now next s = some t ∧ Sound t := by
  have hin : e ∈ s.parked w.kind := by
    rw [Which.parked_kind]
    exact Heap.mem_of_root hroot
  obtain ⟨-, hlt, hk, hd⟩ := (h.book.parked w.kind e).mp hin
  have h₁ := h.countDown e
  have hsame := same_countDown s e
  obtain ⟨hk₁, hd₁, -⟩ := core_eq (hsame.core e)
  rw [hk] at hk₁
  rw [hd] at hd₁
  have hlt₁ : e < (Timers.countDown e s).next := by
    rw [hsame.next]
    exact hlt
  have hturn : ∃ t, (if ((Timers.countDown e s).mem e).repeats = 0 then unlistTimer e (Timers.countDown e s)
      else requeue w now next e (Timers.countDown e s)) = some t ∧ Sound t ∧ t.next = s.next := by
    split_ifs
    · obtain ⟨t, ht, hb⟩ := h₁.book.unlistTimer hlt₁ hk₁
      have hch := unlistTimer_changes ht
      exact ⟨t, ht, ⟨hb, h₁.addressed.changes hch rfl⟩, hch.next.trans hsame.next⟩
    · obtain ⟨t, ht, hb⟩ := h₁.book.requeue hlt₁ hk₁ hd₁ now next
      obtain ⟨n, hch⟩ := requeue_changes ht
      exact ⟨t, ht, ⟨hb, h₁.addressed.changes hch rfl⟩, hch.next.trans hsame.next⟩
  obtain ⟨t, ht, hsound, hnext⟩ := hturn
  refine ⟨_, ?_, hsound.eventPending (by rw [hnext]; exact hlt)⟩
  unfold Timers.processTimer
  rw [hroot]
  change (if now < (s.mem e).nextTimeout then none else _) = _
  rw [if_neg (Nat.not_lt.mpr hdue)]
  dsimp only
  split_ifs at ht ⊢
  · rw [ht]
    rfl
  · rw [ht]
    rfl

/-! ## `evloop_process_pendings` -/

theorem Sound.at (h : Sound s) {p : Phase} (hp : ∀ e ∈ p.events, e < s.next) : Sound { s with phase := p } :=
  ⟨h.book.same ⟨rfl, rfl, rfl, rfl, rfl, rfl, rfl, rfl, fun _ => rfl⟩, h.addressed.heads, h.addressed.links, hp⟩

theorem Sound.finish (h : Sound s) {i : ℕ} {next : Option ℕ} (he : e < s.next) (hnext : ∀ x ∈ next, x < s.next) :
    Sound (finish i e next s) := by
  have hch := changes_modify s e fun ev => { ev with pending := false }
  have h₁ : Sound (s.modify e fun ev => { ev with pending := false }) :=
    ⟨h.book.same (same_modify s e fun _ => rfl), h.addressed.changes hch rfl⟩
  unfold Timers.finish
  dsimp only
  split_ifs with hd
  · have hdel : (eventDel e (s.modify e fun ev => { ev with pending := false })).next = s.next := by
      unfold eventDel
      dsimp only
      split_ifs <;> exact (eventInactive_changes _ e).next
    refine Sound.at ⟨h₁.book.eventDel he hd, h₁.addressed.eventDel e⟩ fun x hx => ?_
    rw [hdel]
    exact hnext x (Option.mem_toList.mp hx)
  · exact h₁.at fun x hx => hnext x (Option.mem_toList.mp hx)

theorem Sound.visit (h : Sound s) {i : ℕ} {cur : Option ℕ} (hcur : ∀ e ∈ cur, e < s.next) : Sound (visit i cur s) := by
  cases cur with
  | none =>
    have hheads : ∀ j, ∀ e ∈ Function.update s.pendings i none j, e < s.next := by
      intro j e he
      rcases eq_or_ne j i with rfl | hne
      · rw [Function.update_self] at he
        cases he
      · rw [Function.update_of_ne hne] at he
        exact h.addressed.heads j e he
    have hbook : Book { s with pendings := Function.update s.pendings i none } :=
      h.book.same ⟨rfl, rfl, rfl, rfl, rfl, rfl, rfl, rfl, fun _ => rfl⟩
    cases i with
    | zero =>
      refine ⟨hbook.same ⟨rfl, rfl, rfl, rfl, rfl, rfl, rfl, rfl, fun _ => rfl⟩, hheads, h.addressed.links, ?_⟩
      intro e he
      cases he
    | succ i =>
      refine ⟨hbook.same ⟨rfl, rfl, rfl, rfl, rfl, rfl, rfl, rfl, fun _ => rfl⟩, hheads, h.addressed.links, ?_⟩
      exact fun e he => hheads i e (Option.mem_toList.mp he)
  | some c =>
    have hc := hcur c rfl
    have hlinks := h.addressed.links c
    unfold Timers.visit
    dsimp only
    split_ifs
    · refine h.at fun e he => ?_
      rcases List.mem_cons.mp he with rfl | he
      · exact hc
      · exact hlinks e (Option.mem_toList.mp he)
    · exact h.finish hc hlinks
    · exact h.at fun e he => hlinks e (Option.mem_toList.mp he)

/-! ## Runs -/

def Phase.calling : Phase → Bool
  | .out | .cb .. => true
  | .walk .. => false

def Phase.walking : Phase → Bool
  | .walk .. => true
  | .out | .cb .. => false

def Phase.inCallback : Phase → Bool
  | .cb .. => true
  | .out | .walk .. => false

/-- The step is the next one that the code can take: user code runs outside `evloop_process_pendings` or in a callback
of it, and a timer is processed when it is at the root and due. -/
def Enabled (s : Loop) : Act → Prop
  | .call c => s.phase.calling = true ∧ Callable s c
  | .timer w now _ => s.phase = .out ∧ ∃ e ∈ (w.heap s).root, (s.mem e).nextTimeout ≤ now
  | .ioReady e => s.phase = .out ∧ e < s.next ∧ (s.mem e).kind = .io
  | .idles | .start => s.phase = .out
  | .visit => s.phase.walking = true
  | .ret => s.phase.inCallback = true

instance decidableCallable (s : Loop) : ∀ c, Decidable (Callable s c)
  | .evtimerReset e _ => inferInstanceAs (Decidable (e < s.next ∧ e ∉ s.freed))
  | .evtimerDel e => inferInstanceAs (Decidable (e < s.next ∧ ((s.mem e).kind = .timeout ∨ (s.mem e).kind = .period)))
  | .evidleDel e => inferInstanceAs (Decidable (e < s.next ∧ (s.mem e).kind = .idle))
  | .evioAdd e => inferInstanceAs (Decidable (e < s.next ∧ (s.mem e).kind = .io ∧ e ∉ s.freed))
  | .evioDel e => inferInstanceAs (Decidable (e < s.next ∧ (s.mem e).kind = .io))
  | .evtimerAdd .. | .evtimerAddPeriod .. | .evidleAdd .. | .evioGet .. => isTrue trivial

instance decidableEnabled (s : Loop) : ∀ a, Decidable (Enabled s a)
  | .call c => inferInstanceAs (Decidable (s.phase.calling = true ∧ Callable s c))
  | .timer w now _ => inferInstanceAs (Decidable (s.phase = .out ∧ ∃ e ∈ (w.heap s).root, (s.mem e).nextTimeout ≤ now))
  | .ioReady e => inferInstanceAs (Decidable (s.phase = .out ∧ e < s.next ∧ (s.mem e).kind = .io))
  | .idles | .start => inferInstanceAs (Decidable (s.phase = .out))
  | .visit => inferInstanceAs (Decidable (s.phase.walking = true))
  | .ret => inferInstanceAs (Decidable (s.phase.inCallback = true))

theorem call_of_step {c : Call} (ht : step s (.call c) = some t) : call s c = some t := by
  unfold step at ht
  cases hph : s.phase with
  | out | cb =>
    rw [hph] at ht
    exact ht
  | walk =>
    rw [hph] at ht
    cases ht

theorem Sound.step (h : Sound s) {a : Act} (ha : Enabled s a) : ∃ t, step s a = some t ∧ Sound t := by
  cases a with
  | call c =>
    obtain ⟨hp, hc⟩ := ha
    obtain ⟨t, ht, hsound⟩ := h.call hc
    refine ⟨t, ?_, hsound⟩
    unfold Timers.step
    cases hph : s.phase with
    | out | cb => exact ht
    | walk =>
      rw [hph] at hp
      cases hp
  | timer w now next =>
    obtain ⟨hp, e, hroot, hdue⟩ := ha
    obtain ⟨t, ht, hsound⟩ := h.processTimer next hroot hdue
    exact ⟨t, (if_pos hp).trans ht, hsound⟩
  | idles => exact ⟨_, if_pos ha, h.processIdles⟩
  | ioReady e => exact ⟨_, if_pos ha.1, h.eventPending ha.2.1⟩
  | start =>
    refine ⟨_, if_pos ha, ?_⟩
    unfold beginPendings
    split_ifs
    · exact h
    · exact h.at fun e he => h.addressed.heads 10 e (Option.mem_toList.mp he)
  | visit =>
    unfold Timers.step
    have hphase := h.addressed.phase
    change s.phase.walking = true at ha
    cases hph : s.phase with
    | out | cb =>
      rw [hph] at ha
      cases ha
    | walk i cur =>
      rw [hph] at hphase
      exact ⟨_, rfl, h.visit fun e he => hphase e (Option.mem_toList.mpr he)⟩
  | ret =>
    unfold Timers.step
    have hphase := h.addressed.phase
    change s.phase.inCallback = true at ha
    cases hph : s.phase with
    | out | walk =>
      rw [hph] at ha
      cases ha
    | cb i cur next =>
      rw [hph] at hphase
      refine ⟨_, rfl, h.finish (hphase cur List.mem_cons_self) fun e he => ?_⟩
      exact hphase e (List.mem_cons_of_mem _ (Option.mem_toList.mpr he))

theorem sound_init : Sound Loop.init := by
  refine ⟨⟨fun k e => ?_, fun k => ?_, rfl, rfl, rfl, rfl, rfl, fun e he => (by cases he)⟩,
    fun i e he => (by cases he), fun e e' he => (by cases he), fun e he => (by cases he)⟩
  · refine iff_of_false (fun hc => ?_) fun hc => Nat.not_lt_zero _ hc.2.1
    cases k <;> cases hc
  · cases k <;> exact List.nodup_nil

def activeOf (s : Loop) (p : Kind → Bool) : Finset ℕ :=
  (Finset.range s.next).filter fun e => e ∉ s.freed ∧ p (s.mem e).kind = true ∧ (s.mem e).active = true

def Kind.isIo : Kind → Bool
  | .io => true
  | .timeout | .period | .idle => false

theorem Book.nactives_eq (h : Book s) :
    s.nactives = (activeOf s fun k => !k.isIo).card + (activeOf s Kind.isIo).card := by
  have hsplit : s.actives = (activeOf s fun k => !k.isIo) ∪ activeOf s Kind.isIo := by
    ext e
    rw [mem_actives, Finset.mem_union, activeOf, activeOf, Finset.mem_filter, Finset.mem_filter, Finset.mem_range]
    constructor
    · rintro ⟨hlt, hact⟩
      have hlive : e ∉ s.freed := by
        intro hf
        have := (h.freed e hf).2.2
        rw [hact] at this
        cases this
      cases hio : (s.mem e).kind.isIo
      · exact .inl ⟨hlt, hlive, rfl, hact⟩
      · exact .inr ⟨hlt, hlive, rfl, hact⟩
    · rintro (⟨hlt, -, -, hact⟩ | ⟨hlt, -, -, hact⟩) <;> exact ⟨hlt, hact⟩
  have hdisj : Disjoint (activeOf s fun k => !k.isIo) (activeOf s Kind.isIo) := by
    rw [Finset.disjoint_left]
    intro e he he'
    have hn := (Finset.mem_filter.mp he).2.2.1
    change (!(s.mem e).kind.isIo) = true at hn
    rw [(Finset.mem_filter.mp he').2.2.1] at hn
    cases hn
  rw [h.nactives, hsplit, Finset.card_union_of_disjoint hdisj]

/-- However user code and processing take turns, the counters are those of the heaps, of the list and of the flags. -/
theorem counters_of_run {acts : List Act} (hacts : Run.Along step Enabled Loop.init acts) :
    ∃ s, Run.exec step Loop.init acts = some s ∧
      s.ntimers = s.timers.nelts + s.realtimers.nelts ∧ s.timers.nelts = s.timers.elts.length ∧
      s.realtimers.nelts = s.realtimers.elts.length ∧ s.nidles = s.idles.length ∧
      (∀ e < s.next, e ∉ s.freed →
        ((s.mem e).kind = .timeout → (e ∈ s.timers.elts ↔ (s.mem e).destroy = false)) ∧
        ((s.mem e).kind = .period → (e ∈ s.realtimers.elts ↔ (s.mem e).destroy = false)) ∧
        ((s.mem e).kind = .idle → (e ∈ s.idles ↔ (s.mem e).destroy = false))) ∧
      s.nactives = (activeOf s fun k => !k.isIo).card + (activeOf s Kind.isIo).card := by
  obtain ⟨s, hs, h⟩ := Run.exec_of_along (fun _ => Sound) (fun _ _ _ h ha => h.step ha) [] sound_init hacts
  have hb := h.book
  refine ⟨s, hs, hb.ntimers, hb.timers, hb.realtimers, hb.nidles, fun e he _ => ⟨fun hk => ?_, fun hk => ?_, fun hk => ?_⟩,
    hb.nactives_eq⟩
  · exact (hb.parked .timeout e).trans ⟨fun hc => hc.2.2.2, fun hd => ⟨by decide, he, hk, hd⟩⟩
  · exact (hb.parked .period e).trans ⟨fun hc => hc.2.2.2, fun hd => ⟨by decide, he, hk, hd⟩⟩
  · exact (hb.parked .idle e).trans ⟨fun hc => hc.2.2.2, fun hd => ⟨by decide, he, hk, hd⟩⟩

/-- A timer that has run out is reset in its callback, which also deletes an idle; a periodic one deletes itself. -/
def sampleRun : List Act :=
  [.call (.evtimerAdd 0 5 1 true), .call (.evidleAdd 2 true), .call (.evtimerAddPeriod 0 0 (-1) (-1) (-1) 9000 2 true),
    .timer .timers 5000 0, .timer .realtimers 9000 20000, .idles, .start, .visit, .call (.evtimerReset 0 7),
    .call (.evidleDel 1), .ret, .visit, .visit, .visit, .call (.evtimerDel 2), .ret]

theorem counters_of_run_sample :
    ∃ s, Run.exec step Loop.init sampleRun = some s ∧ s.ntimers = s.timers.nelts + s.realtimers.nelts ∧
      s.nidles = s.idles.length ∧
      s.nactives = (activeOf s fun k => !k.isIo).card + (activeOf s Kind.isIo).card := by
  have hacts : Run.Along step Enabled Loop.init sampleRun := by decide +kernel
  obtain ⟨s, hs, hntimers, -, -, hnidles, -, hnactives⟩ := counters_of_run hacts
  exact ⟨s, hs, hntimers, hnidles, hnactives⟩

end Yjc.Timers
