import Yjc.Lib.Run
import Yjc.Container.Queue

/-! `evloop_post_event` against `eventfd_read_cb`: threads that post under `custom_events_mutex`, and the loop thread
that reads the wake-ups without it. The queue gets its cells. -/

namespace Yjc.PostEvent

/-- The fields of `event_t` that posting reads or writes. -/
structure Event where
  loop : Option ℕ
  eventType : ℕ
  eventId : ℕ
  cb : Option ℕ
deriving DecidableEq, Inhabited

def eventTypeCustom : ℕ := 0x400

/-- What `evloop_post_event` fills in; `id` is what `evloop_next_event_id` returns to it. -/
def prepare (loop id : ℕ) (ev : Event) : Event where
  loop := some (ev.loop.getD loop)
  eventType := if ev.eventType = 0 then eventTypeCustom else ev.eventType
  eventId := if ev.eventId = 0 then id else ev.eventId
  cb := ev.cb

/-- Where the loop thread is: not in `eventfd_read_cb`, at the head of its loop, or in a callback that it called. -/
inductive Phase
  | out
  | loop (left : ℕ)
  | cb (left : ℕ)
deriving DecidableEq

/-- `unread` is what the eventfd or the pipe holds, `none` before it is created; `holder` is the event of a thread that
has the mutex and has written its wake-up. `delivered` is what was taken from the queue. -/
structure Loop where
  self : ℕ
  customEvents : Queue Event
  unread : Option ℕ
  holder : Option Event
  phase : Phase
  delivered : List Event

def customEventQueueInitSize : ℕ := 16

def Loop.init (self : ℕ) : Loop := ⟨self, .init customEventQueueInitSize, none, none, .out, []⟩

inductive Wake
  | eventfd
  | pipe
deriving DecidableEq

inductive Wrote
  | ok
  | writeFails
  | createFails
deriving DecidableEq

inductive Act
  | post (ev : Event) (id : ℕ) (r : Wrote)
  | push
  | read (count : ℕ)
  | pop
  | ret
  | leave
deriving DecidableEq

/-- A thread takes the mutex and writes; it gives the mutex back at once if that fails. -/
def post (ev : Event) (r : Wrote) (s : Loop) : Option Loop :=
  if s.holder.isSome then none
  else
    match r with
    | .createFails => if s.unread.isNone then some s else none
    | .writeFails => some { s with unread := some (s.unread.getD 0) }
    | .ok => some { s with unread := some (s.unread.getD 0 + 1), holder := some ev }

/-- What one read of the wake-up fd may return. -/
def Wake.reads (wake : Wake) (unread count : ℕ) : Prop :=
  match wake with
  | .eventfd => 0 < unread ∧ count = unread
  | .pipe => 0 < count ∧ count ≤ unread

instance (unread count : ℕ) : (wake : Wake) → Decidable (wake.reads unread count)
  | .eventfd => inferInstanceAs (Decidable (_ ∧ _))
  | .pipe => inferInstanceAs (Decidable (_ ∧ _))

/-- One turn of the loop of `eventfd_read_cb`, up to the call of the callback. -/
def pop (left : ℕ) (s : Loop) : Option Loop :=
  if s.customEvents.empty then some { s with phase := .out }
  else
    match s.customEvents.front with
    | none => some { s with phase := .out }
    | some ev => do
      let q ← s.customEvents.popFront
      some { s with customEvents := q, delivered := s.delivered ++ [ev], phase := .cb left }

def step (wake : Wake) (s : Loop) : Act → Option Loop
  | .post ev id r => post (prepare s.self id ev) r s
  | .push => s.holder.map fun ev => { s with customEvents := s.customEvents.pushed ev, holder := none }
  | .read count =>
    match s.phase, s.unread with
    | .out, some unread =>
      if wake.reads unread count then some { s with unread := some (unread - count), phase := .loop count } else none
    | _, _ => none
  | .pop =>
    match s.phase with
    | .loop (left + 1) => if s.holder.isSome then none else pop left s
    | _ => none
  | .ret =>
    match s.phase with
    | .cb left => some { s with phase := .loop left }
    | _ => none
  | .leave =>
    match s.phase with
    | .loop 0 => some { s with phase := .out }
    | _ => none

/-! ## Order and count -/

/-- The events whose wake-up was written, in the order in which the mutex was taken. -/
def posted (me : ℕ) (acts : List Act) : List Event :=
  acts.filterMap fun
    | .post ev id .ok => some (prepare me id ev)
    | _ => none

def Phase.left : Phase → ℕ
  | .out => 0
  | .loop left | .cb left => left

structure Inv (me : ℕ) (hist : List Act) (s : Loop) : Prop where
  named : s.self = me
  order : s.delivered ++ s.customEvents.toList ++ s.holder.toList = posted me hist
  count : s.unread.getD 0 + s.phase.left = s.customEvents.toList.length + s.holder.toList.length

variable {me : ℕ} {wake : Wake} {hist : List Act} {s t : Loop}

theorem posted_append (hist acts : List Act) : posted me (hist ++ acts) = posted me hist ++ posted me acts :=
  List.filterMap_append ..

theorem pop_eq (h : Inv me hist s) {left : ℕ} (hphase : s.phase = .loop (left + 1)) (hfree : s.holder = none) :
    ∃ ev q, s.customEvents.toList = ev :: q.toList ∧
      pop left s = some { s with customEvents := q, delivered := s.delivered ++ [ev], phase := .cb left } := by
  have hne : s.customEvents.toList ≠ [] := by
    have := h.count
    rw [hphase, hfree] at this
    intro hnil
    rw [hnil] at this
    cases this
  obtain ⟨q, hq, htail⟩ := Queue.popFront_eq_some hne
  obtain ⟨ev, evs, hcons⟩ := List.exists_cons_of_ne_nil hne
  have hempty : ¬s.customEvents.empty = true := fun he => hne ((Queue.empty_iff _).mp he)
  refine ⟨ev, q, by rw [htail, hcons, List.tail_cons], ?_⟩
  rw [pop, if_neg hempty, Queue.front_eq, hcons, List.head?_cons]
  dsimp only
  rw [hq]
  rfl

theorem Inv.move (h : Inv me hist s) {a : Act} (hnone : posted me [a] = []) (hself : t.self = s.self)
    (hevents : t.delivered ++ t.customEvents.toList ++ t.holder.toList =
      s.delivered ++ s.customEvents.toList ++ s.holder.toList)
    (hcount : t.unread.getD 0 + t.phase.left = t.customEvents.toList.length + t.holder.toList.length) :
    Inv me (hist ++ [a]) t := by
  refine ⟨hself.trans h.named, ?_, hcount⟩
  rw [hevents, h.order, posted_append, hnone, List.append_nil]

theorem Inv.post (h : Inv me hist s) {ev : Event} {id : ℕ} {r : Wrote}
    (hstep : step wake s (.post ev id r) = some t) : Inv me (hist ++ [Act.post ev id r]) t := by
  change PostEvent.post (prepare s.self id ev) r s = some t at hstep
  unfold PostEvent.post at hstep
  have hcount := h.count
  by_cases hheld : s.holder.isSome
  · rw [if_pos hheld] at hstep
    cases hstep
  rw [if_neg hheld] at hstep
  cases r with
  | ok =>
    cases hstep
    have hfree : s.holder = none := Option.not_isSome_iff_eq_none.mp hheld
    rw [hfree] at hcount
    refine ⟨h.named, ?_, ?_⟩
    · rw [posted_append, ← h.order, hfree, h.named]
      simp [posted]
    · simp only [Option.getD_some, Option.toList_some, Option.toList_none, List.length_singleton, List.length_nil] at *
      omega
  | writeFails =>
    cases hstep
    exact h.move rfl rfl rfl hcount
  | createFails =>
    dsimp only at hstep
    split_ifs at hstep
    cases hstep
    exact h.move rfl rfl rfl hcount

theorem Inv.step (h : Inv me hist s) {a : Act} (hstep : step wake s a = some t) : Inv me (hist ++ [a]) t := by
  have hcount := h.count
  cases a with
  | post ev id r => exact h.post hstep
  | push =>
    obtain ⟨ev, hev, rfl⟩ := Option.map_eq_some_iff.mp hstep
    rw [hev] at hcount
    refine h.move rfl rfl ?_ ?_
    · rw [hev, Queue.toList_pushed]
      simp
    · rw [Queue.toList_pushed, List.length_append]
      exact hcount
  | read count =>
    simp only [PostEvent.step] at hstep
    split at hstep
    · rename_i unread hphase hunread
      split_ifs at hstep with hreads
      cases hstep
      refine h.move rfl rfl rfl ?_
      have hle : count ≤ unread := by
        cases wake with
        | eventfd => exact Nat.le_of_eq hreads.2
        | pipe => exact hreads.2
      rw [hphase, hunread] at hcount
      change unread + 0 = _ at hcount
      change unread - count + count = s.customEvents.toList.length + s.holder.toList.length
      omega
    · cases hstep
  | pop =>
    simp only [PostEvent.step] at hstep
    split at hstep
    · rename_i left hphase
      by_cases hheld : s.holder.isSome
      · rw [if_pos hheld] at hstep
        cases hstep
      rw [if_neg hheld] at hstep
      obtain ⟨ev, q, hq, hpop⟩ := pop_eq h hphase (Option.not_isSome_iff_eq_none.mp hheld)
      rw [hpop] at hstep
      cases hstep
      rw [hphase, hq] at hcount
      refine h.move rfl rfl ?_ ?_
      · rw [hq]
        simp
      · change _ + (left + 1) = (ev :: q.toList).length + _ at hcount
        change s.unread.getD 0 + left = q.toList.length + s.holder.toList.length
        rw [List.length_cons] at hcount
        omega
    · cases hstep
  | ret =>
    simp only [PostEvent.step] at hstep
    split at hstep
    · rename_i left hphase
      cases hstep
      rw [hphase] at hcount
      exact h.move rfl rfl rfl hcount
    · cases hstep
  | leave =>
    simp only [PostEvent.step] at hstep
    split at hstep
    · rename_i hphase
      cases hstep
      rw [hphase] at hcount
      exact h.move rfl rfl rfl hcount
    · cases hstep

theorem inv_of_run {acts : List Act} (hrun : Run.exec (step wake) (.init me) acts = some s) : Inv me acts s := by
  have hinit : Inv me [] (.init me) := by
    refine ⟨rfl, ?_, ?_⟩ <;> rw [Loop.init, Queue.toList_init] <;> rfl
  have hok : Run.Along (step wake) (fun _ _ => True) (.init me) acts := Run.along_of_forall (fun _ _ => trivial) _ _
  exact Run.invariant_hist (Inv me) (fun _ _ _ _ h _ hstep => h.step hstep) [] hinit hok hrun

/-! ## Progress -/

def Act.turn : Act → Bool
  | .read _ | .pop | .ret | .leave => true
  | .post .. | .push => false

/-- How far the loop thread is from its next pop. -/
def Phase.rank : Phase → ℕ
  | .loop (_ + 1) => 0
  | .out => 1
  | .loop 0 => 2
  | .cb _ => 3

/-- How far the loop thread is from having taken `n` events. -/
def Loop.rank (n : ℕ) (s : Loop) : ℕ := 4 * (n - s.delivered.length) + s.phase.rank

theorem turn_cases (h : Inv me hist s) {a : Act} (hstep : step wake s a = some t) (hturn : a.turn = true) :
    t.delivered = s.delivered ∧ t.phase.rank < s.phase.rank ∨
      (∃ ev, t.delivered = s.delivered ++ [ev]) ∧ s.phase.rank = 0 ∧ t.phase.rank = 3 := by
  cases a with
  | post | push => cases hturn
  | read count =>
    simp only [PostEvent.step] at hstep
    split at hstep
    · rename_i unread hphase hunread
      split_ifs at hstep with hreads
      cases hstep
      have hpos : 0 < count := by
        cases wake with
        | eventfd => exact hreads.2 ▸ hreads.1
        | pipe => exact hreads.1
      obtain ⟨k, rfl⟩ := Nat.exists_eq_succ_of_ne_zero (Nat.ne_of_gt hpos)
      rw [hphase]
      exact .inl ⟨rfl, Nat.one_pos⟩
    · cases hstep
  | pop =>
    simp only [PostEvent.step] at hstep
    split at hstep
    · rename_i left hphase
      by_cases hheld : s.holder.isSome
      · rw [if_pos hheld] at hstep
        cases hstep
      rw [if_neg hheld] at hstep
      obtain ⟨ev, q, -, hpop⟩ := pop_eq h hphase (Option.not_isSome_iff_eq_none.mp hheld)
      rw [hpop] at hstep
      cases hstep
      rw [hphase]
      exact .inr ⟨⟨ev, rfl⟩, rfl, rfl⟩
    · cases hstep
  | ret =>
    simp only [PostEvent.step] at hstep
    split at hstep
    · rename_i left hphase
      cases hstep
      rw [hphase]
      refine .inl ⟨rfl, ?_⟩
      change (Phase.loop left).rank < 3
      cases left <;> simp [Phase.rank]
    · cases hstep
  | leave =>
    simp only [PostEvent.step] at hstep
    split at hstep
    · rename_i hphase
      cases hstep
      rw [hphase]
      exact .inl ⟨rfl, Nat.lt_succ_self 1⟩
    · cases hstep

theorem post_keeps {a : Act} (hstep : step wake s a = some t) (hturn : a.turn = false) :
    t.delivered = s.delivered ∧ t.phase = s.phase := by
  cases a with
  | post ev id r =>
    change PostEvent.post (prepare s.self id ev) r s = some t at hstep
    unfold PostEvent.post at hstep
    cases r <;> split_ifs at hstep <;> cases hstep <;> exact ⟨rfl, rfl⟩
  | push =>
    obtain ⟨ev, -, rfl⟩ := Option.map_eq_some_iff.mp hstep
    exact ⟨rfl, rfl⟩
  | read | pop | ret | leave => cases hturn

theorem rank_step (h : Inv me hist s) {a : Act} (hstep : step wake s a = some t) (n : ℕ) :
    s.delivered.length ≤ t.delivered.length ∧
      (n ≤ t.delivered.length ∨ t.rank n + (if a.turn then 1 else 0) ≤ s.rank n) := by
  unfold Loop.rank
  cases hturn : a.turn with
  | false =>
    obtain ⟨hdel, hphase⟩ := post_keeps hstep hturn
    rw [hdel, hphase]
    exact ⟨Nat.le_refl _, .inr (Nat.le_refl _)⟩
  | true =>
    rcases turn_cases h hstep hturn with ⟨hdel, hrank⟩ | ⟨⟨ev, hdel⟩, hs, ht⟩
    · rw [hdel, if_pos rfl]
      omega
    · rw [hdel, hs, ht, List.length_append, List.length_singleton, if_pos rfl]
      omega

theorem delivered_prefix (h : Inv me hist s) : s.delivered <+: posted me hist :=
  ⟨s.customEvents.toList ++ s.holder.toList, by rw [← h.order, List.append_assoc]⟩

theorem rank_run (h : Inv me hist s) {acts : List Act} (hrun : Run.exec (step wake) s acts = some t) (n : ℕ) :
    s.delivered.length ≤ t.delivered.length ∧
      (n ≤ t.delivered.length ∨ t.rank n + (acts.filter Act.turn).length ≤ s.rank n) := by
  induction acts generalizing hist s with
  | nil =>
    cases hrun
    exact ⟨Nat.le_refl _, .inr (Nat.le_refl _)⟩
  | cons a acts ih =>
    obtain ⟨u, hu, hrun⟩ := Run.exec_cons.mp hrun
    obtain ⟨hle, hrest⟩ := ih (h.step hu) hrun
    obtain ⟨hle', hstep⟩ := rank_step h hu n
    have hlen : ((a :: acts).filter Act.turn).length = (if a.turn then 1 else 0) + (acts.filter Act.turn).length := by
      rw [List.filter_cons]
      split_ifs
      · rw [List.length_cons, Nat.add_comm]
      · rw [Nat.zero_add]
    omega

theorem rank_lt (n : ℕ) (s : Loop) : s.rank n < 4 * n + 4 := by
  have hphase : s.phase.rank < 4 := by
    rcases s.phase with _ | (_ | _) | _ <;> simp [Phase.rank]
  unfold Loop.rank
  omega

theorem turn_or_push (h : Inv me hist s) (hne : s.delivered ≠ posted me hist) :
    ∃ a, (a.turn = true ∨ a = .push) ∧ (step wake s a).isSome = true := by
  cases hheld : s.holder with
  | some ev => exact ⟨.push, .inr rfl, by simp [PostEvent.step, hheld]⟩
  | none =>
    have hcount := h.count
    have horder := h.order
    rw [hheld, Option.toList_none, List.append_nil] at horder
    rw [hheld] at hcount
    cases hphase : s.phase with
    | cb left => exact ⟨.ret, .inl rfl, by simp [PostEvent.step, hphase]⟩
    | loop left =>
      cases left with
      | zero => exact ⟨.leave, .inl rfl, by simp [PostEvent.step, hphase]⟩
      | succ left =>
        obtain ⟨ev, q, -, hpop⟩ := pop_eq h hphase hheld
        exact ⟨.pop, .inl rfl, by simp [PostEvent.step, hphase, hheld, hpop]⟩
    | out =>
      -- the events that are not taken are in the queue, so that there is a wake-up for them
      have hpos : 0 < s.customEvents.toList.length := by
        rw [List.length_pos_iff]
        intro hnil
        rw [hnil, List.append_nil] at horder
        exact hne horder
      rw [hphase] at hcount
      cases hunread : s.unread with
      | none =>
        rw [hunread] at hcount
        exact absurd hcount (Nat.ne_of_lt hpos)
      | some unread =>
        rw [hunread] at hcount
        change unread + 0 = _ + 0 at hcount
        have hreads : wake.reads unread unread := by
          cases wake
          · exact ⟨by omega, rfl⟩
          · exact ⟨by omega, Nat.le_refl _⟩
        exact ⟨.read unread, .inl rfl, by simp [PostEvent.step, hphase, hunread, hreads]⟩

/-- In every interleaving: what is taken from the queue are the events whose wake-up was written, in the order of the
mutex, each once; outside of both functions there are as many unread wake-ups as events in the queue; and while an
event is not taken there is a step that brings it closer, so that it is taken after boundedly many turns of the loop
thread, whatever is posted meanwhile. -/
theorem posted_delivered_once_in_order (wake : Wake) (me : ℕ) (acts : List Act) {s : Loop}
    (hrun : Run.exec (step wake) (.init me) acts = some s) :
    s.delivered ++ s.customEvents.toList ++ s.holder.toList = posted me acts ∧
      (s.holder = none → s.phase = .out → s.unread.getD 0 = s.customEvents.toList.length) ∧
      (s.delivered ≠ posted me acts → ∃ a, (a.turn = true ∨ a = .push) ∧ (step wake s a).isSome = true) ∧
      ∀ more t, Run.exec (step wake) s more = some t → 4 * (posted me acts).length + 4 ≤ (more.filter Act.turn).length →
        posted me acts <+: t.delivered := by
  have h := inv_of_run hrun
  refine ⟨h.order, fun hfree hout => ?_, turn_or_push h, fun more t hmore hturns => ?_⟩
  · have := h.count
    rw [hfree, hout] at this
    exact this
  · have hrank := rank_lt (posted me acts).length s
    have hlen : (posted me acts).length ≤ t.delivered.length := by
      rcases (rank_run h hmore (posted me acts).length).2 with hle | hle
      · exact hle
      · omega
    have ht : t.delivered <+: posted me (acts ++ more) := delivered_prefix (inv_of_run (Run.exec_append hrun hmore))
    have hp : posted me acts <+: posted me (acts ++ more) := ⟨posted me more, (posted_append acts more).symm⟩
    exact List.prefix_of_prefix_length_le hp ht hlen

/-- A callback posts while the loop of `eventfd_read_cb` runs, and another post fails. -/
theorem posted_delivered_once_in_order_example :
    ∃ s, Run.exec (step .eventfd) (.init 0) [.post ⟨none, 0, 0, some 1⟩ 7 .ok, .push, .post ⟨none, 0, 0, some 2⟩ 8 .writeFails,
      .read 1, .pop, .post ⟨none, 0, 0, some 3⟩ 9 .ok, .push, .ret, .leave] = some s ∧
      s.delivered ++ s.customEvents.toList ++ s.holder.toList =
        posted 0 [.post ⟨none, 0, 0, some 1⟩ 7 .ok, .push, .post ⟨none, 0, 0, some 2⟩ 8 .writeFails,
          .read 1, .pop, .post ⟨none, 0, 0, some 3⟩ 9 .ok, .push, .ret, .leave] :=
  ⟨_, rfl, (posted_delivered_once_in_order .eventfd 0 [.post ⟨none, 0, 0, some 1⟩ 7 .ok, .push,
    .post ⟨none, 0, 0, some 2⟩ 8 .writeFails, .read 1, .pop, .post ⟨none, 0, 0, some 3⟩ 9 .ok, .push, .ret, .leave] rfl).1⟩

end Yjc.PostEvent
