import Yjc.Event.Firing
import Yjc.Event.Pendings
import Yjc.Event.TimerOrder
import Yjc.Lib.Loop
import Mathlib.Order.Bounds.Defs
import Mathlib.Algebra.Group.Nat.Defs

/-! `__evloop_process_timers`: it ends, and no timer is overdue then. -/

namespace Yjc.Timers
open Timers.Loop

/-- Where `__evloop_process_timers` is: at the test of its loop, or with a timer that has been dequeued and is yet to be
inserted. -/
inductive Place
  | test
  | dequeued (e : ℕ)

structure Sweep where
  loop : Loop
  ntimers : ℕ
  place : Place

/-- `heap_insert` and `EVENT_PENDING`. -/
def insertPending (w : Which) (e : ℕ) (s : Loop) : Loop := eventPending e (w.set s ((w.heap s).insert s.before e))

/-- `next_timeout` of an `uint64_t`. -/
def addPeriod (ev : Event) : Event := { ev with nextTimeout := (ev.nextTimeout + ev.timeout * 1000) % 2 ^ 64 }

/-- A round of the loop of `__evloop_process_timers`, or of the loop in it. `cron` has what `cron_next_timeout` computes for
an event; no result: a node is to be removed from a heap that it is not in. -/
def sweep (w : Which) (now : ℕ) (cron : ℕ → ℕ) (p : Sweep) : Sweep ⊕ Option (Loop × ℕ) :=
  match p.place with
  | .test =>
    match (w.heap p.loop).root with
    | none => .inr (some (p.loop, p.ntimers))
    | some e =>
      if now < (p.loop.mem e).nextTimeout then .inr (some (p.loop, p.ntimers))
      else
        let s := countDown e p.loop
        if (s.mem e).repeats = 0 then
          match unlistTimer e s with
          | none => .inr none
          | some s => .inl ⟨eventPending e s, p.ntimers + 1, .test⟩
        else
          match (w.heap s).remove s.before e with
          | none => .inr none
          | some h => .inl ⟨w.set s h, p.ntimers, .dequeued e⟩
  | .dequeued e =>
    let s := p.loop
    match (s.mem e).kind with
    | .timeout =>
      if (s.mem e).nextTimeout ≤ now then .inl { p with loop := s.modify e addPeriod }
      else .inl ⟨insertPending w e s, p.ntimers + 1, .test⟩
    | .period =>
      .inl ⟨insertPending w e (s.modify e fun ev => { ev with nextTimeout := cron e }), p.ntimers + 1, .test⟩
    | .idle | .io => .inl ⟨insertPending w e s, p.ntimers + 1, .test⟩

variable {s t u : Loop} {e : ℕ} {now : ℕ} {cron : ℕ → ℕ}

/-! ## The next timeout -/

theorem nextAfter_eq (now timeout next : ℕ) :
    nextAfter now timeout next = next + ((now - next) / (timeout * 1000) + 1) * (timeout * 1000) := rfl

theorem nextAfter_of_le {timeout next : ℕ} (hp : 1 ≤ timeout) (h : next + timeout * 1000 ≤ now) :
    nextAfter now timeout (next + timeout * 1000) = nextAfter now timeout next := by
  have hpos : 0 < timeout * 1000 := by omega
  have hdiv : (now - next) / (timeout * 1000) = (now - (next + timeout * 1000)) / (timeout * 1000) + 1 := by
    rw [Nat.div_eq_sub_div hpos (by omega), Nat.sub_sub]
  rw [nextAfter_eq, nextAfter_eq, hdiv, Nat.add_assoc, Nat.succ_mul ((now - (next + timeout * 1000)) / (timeout * 1000) + 1)]
  omega

theorem nextAfter_of_lt {timeout next : ℕ} (h : next ≤ now) (hlt : now < next + timeout * 1000) :
    nextAfter now timeout next = next + timeout * 1000 := by
  rw [nextAfter_eq, Nat.div_eq_of_lt (by omega), Nat.zero_add, Nat.one_mul]

theorem lt_nextAfter {timeout next : ℕ} (hp : 1 ≤ timeout) (h : next ≤ now) : now < nextAfter now timeout next := by
  have hpos : 0 < timeout * 1000 := by omega
  have hlt := Nat.lt_mul_div_succ (now - next) hpos
  rw [nextAfter_eq, Nat.mul_comm]
  omega

theorem nextAfter_isLeast {timeout next : ℕ} (hp : 1 ≤ timeout) (h : next ≤ now) :
    IsLeast {m | now < m ∧ ∃ k, m = next + k * (timeout * 1000)} (nextAfter now timeout next) := by
  refine ⟨⟨lt_nextAfter hp h, _, rfl⟩, ?_⟩
  rintro m ⟨hm, k, rfl⟩
  have hpos : 0 < timeout * 1000 := by omega
  have hk : (now - next) / (timeout * 1000) < k := by
    rw [Nat.div_lt_iff_lt_mul hpos]
    omega
  exact Nat.add_le_add_left (Nat.mul_le_mul_right _ hk) next

/-! ## The rounds of one timer -/

def setNext (m : ℕ) (ev : Event) : Event := { ev with nextTimeout := m }

theorem advance_timeout {ev : Event} {next : ℕ} (hk : ev.kind = .timeout) :
    advance now next ev = setNext (nextAfter now ev.timeout ev.nextTimeout) ev := by
  obtain ⟨kind, priority, active, pending, destroy, pendingNext, cb, repeats, timeout, nextTimeout⟩ := ev
  cases hk
  rfl

theorem modify_modify (s : Loop) (e : ℕ) (f g : Event → Event) : (s.modify e f).modify e g = s.modify e fun ev => g (f ev) := by
  unfold Loop.modify
  dsimp only
  rw [Function.update_self, Function.update_idem]

theorem modify_congr {f g : Event → Event} (h : f (s.mem e) = g (s.mem e)) : s.modify e f = s.modify e g := by
  unfold Loop.modify
  rw [h]

theorem visits_dequeued (cron : ℕ → ℕ) (w : Which) (n : ℕ) {timeout : ℕ} (hkind : (s.mem e).kind = .timeout)
    (htimeout : (s.mem e).timeout = timeout) (hp : 1 ≤ timeout) (hlt : timeout < 2 ^ 32) (hnow : now < 2 ^ 63)
    (hdue : (s.mem e).nextTimeout ≤ now) :
    Yjc.Loop.Visits (sweep w now cron) ⟨s, n, .dequeued e⟩
      ⟨s.modify e (setNext (nextAfter now timeout (s.mem e).nextTimeout)), n, .dequeued e⟩ := by
  -- the inner loop goes through the values that are due, none of which wraps
  induction hk : now - (s.mem e).nextTimeout using Nat.strongRecOn generalizing s with
  | ind k ih =>
    have hround : sweep w now cron ⟨s, n, .dequeued e⟩ = .inl ⟨s.modify e addPeriod, n, .dequeued e⟩ := by
      unfold sweep
      dsimp only
      rw [hkind]
      exact if_pos hdue
    have hadd : addPeriod (s.mem e) = setNext ((s.mem e).nextTimeout + timeout * 1000) (s.mem e) := by
      unfold addPeriod setNext
      rw [htimeout, Nat.mod_eq_of_lt (by omega)]
    have hself : (s.modify e addPeriod).mem e = setNext ((s.mem e).nextTimeout + timeout * 1000) (s.mem e) := by
      rw [modify_self, hadd]
    by_cases hmore : (s.mem e).nextTimeout + timeout * 1000 ≤ now
    · have hrest := ih (now - ((s.mem e).nextTimeout + timeout * 1000)) (by omega) (s := s.modify e addPeriod)
        (by rw [hself]; exact hkind) (by rw [hself]; exact htimeout) (by rw [hself]; exact hmore) (by rw [hself]; rfl)
      have hend : (s.modify e addPeriod).modify e (setNext (nextAfter now timeout ((s.modify e addPeriod).mem e).nextTimeout)) =
          s.modify e (setNext (nextAfter now timeout (s.mem e).nextTimeout)) := by
        rw [modify_modify, hself]
        refine modify_congr ?_
        rw [hadd]
        exact congrArg (fun m => setNext m (s.mem e)) (nextAfter_of_le hp hmore)
      rw [hend] at hrest
      exact Relation.ReflTransGen.head hround hrest
    · have hend : s.modify e addPeriod = s.modify e (setNext (nextAfter now timeout (s.mem e).nextTimeout)) := by
        refine modify_congr ?_
        rw [hadd, nextAfter_of_lt hdue (by omega)]
      rw [← hend]
      exact .single hround

theorem sweep_exhausted {w : Which} {n : ℕ} (hroot : (w.heap s).root = some e) (hdue : (s.mem e).nextTimeout ≤ now)
    (hzero : ((countDown e s).mem e).repeats = 0) (hu : unlistTimer e (countDown e s) = some u) :
    sweep w now cron ⟨s, n, .test⟩ = .inl ⟨eventPending e u, n + 1, .test⟩ := by
  unfold sweep
  dsimp only
  rw [hroot]
  dsimp only
  rw [if_neg (Nat.not_lt.mpr hdue), if_pos hzero, hu]

theorem sweep_dequeues {w : Which} {n : ℕ} {h : Heap ℕ} (hroot : (w.heap s).root = some e)
    (hdue : (s.mem e).nextTimeout ≤ now) (hmore : ((countDown e s).mem e).repeats ≠ 0)
    (hremove : (w.heap (countDown e s)).remove (countDown e s).before e = some h) :
    sweep w now cron ⟨s, n, .test⟩ = .inl ⟨w.set (countDown e s) h, n, .dequeued e⟩ := by
  unfold sweep
  dsimp only
  rw [hroot]
  dsimp only
  rw [if_neg (Nat.not_lt.mpr hdue), if_neg hmore, hremove]

theorem sweep_leaves {w : Which} {n : ℕ} (hend : ∀ e ∈ (w.heap s).root, now < (s.mem e).nextTimeout) :
    sweep w now cron ⟨s, n, .test⟩ = .inr (some (s, n)) := by
  unfold sweep
  dsimp only
  cases hroot : (w.heap s).root with
  | none => rfl
  | some e => exact if_pos (hend e hroot)

theorem visits_turn {w : Which} {n : ℕ} (hroot : (w.heap s).root = some e) (hdue : (s.mem e).nextTimeout ≤ now)
    (hkind : (s.mem e).kind = .timeout) (hp : 1 ≤ (s.mem e).timeout) (hlt : (s.mem e).timeout < 2 ^ 32)
    (hnow : now < 2 ^ 63) (ht : processTimer w now 0 s = some t) :
    Yjc.Loop.Visits (sweep w now cron) ⟨s, n, .test⟩ ⟨t, n + 1, .test⟩ := by
  rw [processTimer_due 0 hroot hdue] at ht
  obtain ⟨u, hu, rfl⟩ := Option.map_eq_some_iff.mp ht
  have hself := (countDown_counted s e).self
  split_ifs at hu with hzero
  · exact .single (sweep_exhausted hroot hdue hzero hu)
  · obtain ⟨h, hremove, rfl⟩ := Option.map_eq_some_iff.mp hu
    have hfirst : sweep w now cron ⟨s, n, .test⟩ = .inl ⟨w.set (countDown e s) h, n, .dequeued e⟩ :=
      sweep_dequeues hroot hdue hzero hremove
    -- the timer while it is out of the heap
    generalize hv : w.set (countDown e s) h = v at hfirst
    have hmem : v.mem e = { s.mem e with repeats := counted (s.mem e).repeats } := by
      rw [← hv, Which.mem_set, hself]
    have hkind' : (v.mem e).kind = .timeout := by rw [hmem, hkind]
    have hnext : (v.mem e).nextTimeout = (s.mem e).nextTimeout := by rw [hmem]
    have hcatch := visits_dequeued cron w n hkind' (by rw [hmem]) hp hlt hnow (hnext ▸ hdue)
    rw [hnext] at hcatch
    have hlast : sweep w now cron ⟨v.modify e (setNext (nextAfter now (s.mem e).timeout (s.mem e).nextTimeout)), n, .dequeued e⟩ =
        .inl ⟨insertPending w e (v.modify e (setNext (nextAfter now (s.mem e).timeout (s.mem e).nextTimeout))), n + 1, .test⟩ := by
      unfold sweep
      dsimp only
      rw [modify_self, setNext, hkind']
      exact if_neg (Nat.not_le.mpr (lt_nextAfter hp hdue))
    have hend : v.modify e (advance now 0) = v.modify e (setNext (nextAfter now (s.mem e).timeout (s.mem e).nextTimeout)) := by
      refine modify_congr ?_
      rw [advance_timeout hkind', hmem]
    dsimp only
    rw [hend]
    exact Yjc.Loop.Visits.round (Relation.ReflTransGen.head hfirst hcatch) hlast

theorem processTimer_rearms {w : Which} (hroot : (w.heap s).root = some e) (hdue : (s.mem e).nextTimeout ≤ now)
    (hkind : (s.mem e).kind = .timeout) (ht : processTimer w now 0 s = some t) (hd : (t.mem e).destroy = false) :
    (t.mem e).nextTimeout = nextAfter now (s.mem e).timeout (s.mem e).nextTimeout := by
  rw [processTimer_due 0 hroot hdue] at ht
  obtain ⟨u, hu, rfl⟩ := Option.map_eq_some_iff.mp ht
  obtain ⟨l, hmem⟩ := eventPending_mem u e
  have hself := (countDown_counted s e).self
  rw [hmem, Function.update_self] at hd ⊢
  change (u.mem e).destroy = false at hd
  change (u.mem e).nextTimeout = _
  split_ifs at hu
  · rw [(unlistTimer_changes hu).self] at hd
    cases hd
  · have hkind' : ((countDown e s).mem e).kind = .timeout := by rw [hself, hkind]
    rw [(requeue_advances hu).self, advance_timeout hkind', hself]
    rfl

/-! ## All the timers that are due -/

/-- What is due has had its turn as far as `done`, and nothing else has been touched. -/
structure Swept (now : ℕ) (s₀ : Loop) (done : List ℕ) (s : Loop) : Prop where
  sound : Sound s
  pend : ∃ l, Pend s l
  order : s.InOrder
  phase : s.phase = .out
  keeps : Keeps s₀ s
  priority : ∀ x, (s.mem x).priority = (s₀.mem x).priority
  nodup : done.Nodup
  due : ∀ x ∈ done, x ∈ s₀.timers.elts ∧ (s₀.mem x).nextTimeout ≤ now
  pending : ∀ x ∈ done, (s.mem x).pending = true
  rearmed : ∀ x ∈ done, (s.mem x).destroy = false →
    (s.mem x).nextTimeout = nextAfter now (s₀.mem x).timeout (s₀.mem x).nextTimeout
  fresh : ∀ x, x ∉ done → s.mem x = s₀.mem x

variable {s₀ : Loop} {done : List ℕ}

theorem Swept.notMem (h : Swept now s₀ done s) (htimeout : ∀ x ∈ s₀.timers.elts, 1 ≤ (s₀.mem x).timeout)
    (hin : e ∈ s.timers.elts) (hdue : (s.mem e).nextTimeout ≤ now) : e ∉ done := by
  intro hdone
  obtain ⟨hin₀, hdue₀⟩ := h.due e hdone
  have hd := ((h.sound.book.parked .timeout e).mp hin).2.2.2
  have hlt := lt_nextAfter (htimeout e hin₀) hdue₀
  rw [← h.rearmed e hdone hd] at hlt
  omega

theorem Swept.mem_iff (h : Swept now s₀ done s) (hbook : Book s₀) (he : e ∉ done) :
    e ∈ s.timers.elts ↔ e ∈ s₀.timers.elts := by
  -- what has not had its turn is in the heap as it was
  refine (h.sound.book.parked .timeout e).trans (Iff.trans ?_ (hbook.parked .timeout e).symm)
  rw [h.keeps.next, h.fresh e he]

theorem Swept.turn (h : Swept now s₀ done s) (hbook : Book s₀) (htimeout : ∀ x ∈ s₀.timers.elts, 1 ≤ (s₀.mem x).timeout)
    (hroot : s.timers.root = some e) (hdue : (s.mem e).nextTimeout ≤ now) (hsound : Sound t)
    (ht : processTimer .timers now 0 s = some t) : Swept now s₀ (e :: done) t := by
  have hin := Heap.mem_of_root hroot
  have hnot := h.notMem htimeout hin hdue
  have hin₀ := (h.mem_iff hbook hnot).mp hin
  have hsame := h.fresh e hnot
  obtain ⟨-, -, hkind, -⟩ := (h.sound.book.parked .timeout e).mp hin
  obtain ⟨e', hroot', hturned⟩ := processTimer_turned ht
  cases hroot.symm.trans hroot'
  obtain ⟨l, hl⟩ := h.pend
  obtain ⟨hnext, hkinds⟩ : t.next = s.next ∧ ∀ x, (t.mem x).kind = (s.mem x).kind := by
    obtain ⟨x, u, ev, -, hch, -, rfl⟩ := processTimer_cases ht
    exact ⟨(eventPending_next u x).1.trans hch.next, fun y => (hturned.kept y).kind⟩
  refine ⟨hsound, hl.processTimer h.sound h.phase ht,
    h.order.processTimer h.sound.book (w := .timers) hroot hdue ht, hturned.phase.trans h.phase,
    h.keeps.trans ⟨hnext, hkinds⟩, fun x => ?_, List.nodup_cons.mpr ⟨hnot, h.nodup⟩, fun x hx => ?_, fun x hx => ?_,
    fun x hx hd => ?_, fun x hx => ?_⟩
  · rcases eq_or_ne x e with rfl | hne
    · exact hturned.priority.trans (h.priority x)
    · rw [hturned.other x hne]
      exact h.priority x
  · rcases List.mem_cons.mp hx with rfl | hx
    · exact ⟨hin₀, hsame ▸ hdue⟩
    · exact h.due x hx
  · rcases List.mem_cons.mp hx with rfl | hx
    · exact hturned.pending
    · rw [hturned.other x (ne_of_mem_of_not_mem hx hnot)]
      exact h.pending x hx
  · rcases List.mem_cons.mp hx with rfl | hx
    · rw [← hsame]
      exact processTimer_rearms (w := .timers) hroot hdue hkind ht hd
    · rw [hturned.other x (ne_of_mem_of_not_mem hx hnot)] at hd ⊢
      exact h.rearmed x hx hd
  · obtain ⟨hne, hx⟩ := not_or.mp (mt List.mem_cons.mpr hx)
    rw [hturned.other x hne]
    exact h.fresh x hx

def overdue (s : Loop) (now : ℕ) : List ℕ := s.timers.elts.filter fun e => (s.mem e).nextTimeout ≤ now

theorem mem_overdue : e ∈ overdue s now ↔ e ∈ s.timers.elts ∧ (s.mem e).nextTimeout ≤ now := by
  rw [overdue, List.mem_filter, decide_eq_true_iff]

theorem Swept.length_le (h : Swept now s₀ done s) : done.length ≤ (overdue s₀ now).length :=
  (List.subperm_of_subset h.nodup fun x hx => mem_overdue.mpr (h.due x hx)).length_le

theorem Swept.visits (h : Swept now s₀ done s) (cron : ℕ → ℕ) (hbook : Book s₀)
    (htimeout : ∀ x ∈ s₀.timers.elts, 1 ≤ (s₀.mem x).timeout ∧ (s₀.mem x).timeout < 2 ^ 32) (hnow : now < 2 ^ 63) :
    ∃ t done', Swept now s₀ done' t ∧
      Yjc.Loop.Visits (sweep .timers now cron) ⟨s, done.length, .test⟩ ⟨t, done'.length, .test⟩ ∧
      ∀ e ∈ t.timers.root, now < (t.mem e).nextTimeout := by
  induction hk : (overdue s₀ now).length - done.length using Nat.strongRecOn generalizing s done with
  | ind k ih =>
    by_cases hend : ∀ e ∈ s.timers.root, now < (s.mem e).nextTimeout
    · exact ⟨s, done, h, .refl _ _, hend⟩
    · simp only [not_forall, Nat.not_lt] at hend
      obtain ⟨e, hroot, hdue⟩ := hend
      have hin := Heap.mem_of_root hroot
      have hnot := h.notMem (fun x hx => (htimeout x hx).1) hin hdue
      obtain ⟨hp, hlt⟩ := htimeout e ((h.mem_iff hbook hnot).mp hin)
      rw [← h.fresh e hnot] at hp hlt
      have hkind := ((h.sound.book.parked .timeout e).mp hin).2.2.1
      obtain ⟨t, ht, hsound⟩ := h.sound.processTimer (w := .timers) 0 hroot hdue
      have hturn := h.turn hbook (fun x hx => (htimeout x hx).1) hroot hdue hsound ht
      -- one more has had its turn, and no more can than are due
      have hle := hturn.length_le
      rw [List.length_cons] at hle
      obtain ⟨t', done', h', hvisits, hend⟩ := ih _ (by rw [List.length_cons]; omega) hturn rfl
      exact ⟨t', done', h', (visits_turn (w := .timers) hroot hdue hkind hp hlt hnow ht).trans hvisits, hend⟩

theorem Pend.mem_iff {l : ℕ → List ℕ} (h : Pend s l) (hout : s.phase = .out) {i : ℕ} :
    e ∈ l i ↔ (s.mem e).pending = true ∧ ((s.mem e).priority : ℕ) = i := by
  constructor
  · exact fun he => ⟨h.pending i e he (.inl hout), h.priority i e he⟩
  · rintro ⟨hp, rfl⟩
    exact h.listed e hp

theorem Loop.InOrder.root_le (h : s.InOrder) (hroot : s.timers.root = some x) (he : e ∈ s.timers.elts) :
    (s.mem x).nextTimeout ≤ (s.mem e).nextTimeout := by
  obtain ⟨k, hk⟩ := List.mem_iff_getElem?.mp he
  have hroot' : s.timers.elts[0]? = some x := by rw [← List.head?_eq_getElem?]; exact hroot
  have hafter := Heap.Ordered.root s.before_order (h .timers) k e hk x hroot'
  simp only [before, decide_eq_false_iff_not] at hafter
  exact Nat.le_of_not_lt hafter

theorem Swept.through (h : Swept now s₀ done s) (hbook : Book s₀) (hend : ∀ e ∈ s.timers.root, now < (s.mem e).nextTimeout) :
    (∀ e ∈ s.timers.elts, now < (s.mem e).nextTimeout) ∧ done.Perm (overdue s₀ now) := by
  have hall : ∀ e ∈ s.timers.elts, now < (s.mem e).nextTimeout := by
    intro e he
    cases hroot : s.timers.root with
    | none => rw [List.head?_eq_none_iff.mp hroot] at he; cases he
    | some x => exact Nat.lt_of_lt_of_le (hend x hroot) (h.order.root_le hroot he)
  refine ⟨hall, (List.perm_ext_iff_of_nodup h.nodup ?_).mpr fun e => ⟨fun he => mem_overdue.mpr (h.due e he), fun he => ?_⟩⟩
  · exact (hbook.nodup .timeout).filter _
  · obtain ⟨hin, hdue⟩ := mem_overdue.mp he
    by_contra hnot
    have hlt := hall e ((h.mem_iff hbook hnot).mpr hin)
    rw [h.fresh e hnot] at hlt
    omega

/-- In a loop whose timers are in order, `__evloop_process_timers` ends; then no timer is overdue, what was overdue is linked
once in the list of its priority, with what was linked before and nothing else, what is still in the heap is re-armed for the
least of its values after `now`, and the result is the number of what was overdue. -/
theorem process_timers_spec {l : ℕ → List ℕ} (hsound : Sound s) (hpend : Pend s l) (horder : s.InOrder)
    (hout : s.phase = .out) (htimeout : ∀ e ∈ s.timers.elts, 1 ≤ (s.mem e).timeout ∧ (s.mem e).timeout < 2 ^ 32)
    (hnow : now < 2 ^ 63) (cron : ℕ → ℕ) :
    ∃ fuel t, ∃ l' : ℕ → List ℕ,
      Yjc.Loop.run (sweep .timers now cron) fuel ⟨s, 0, .test⟩ = some (some (t, (overdue s now).length)) ∧
      (∀ e ∈ t.timers.elts, now < (t.mem e).nextTimeout) ∧
      (∀ i, Links.Spells t.link (t.pendings i) (l' i) ∧ (l' i).Nodup) ∧
      (∀ i e, e ∈ l' i ↔ e ∈ l i ∨ e ∈ overdue s now ∧ ((s.mem e).priority : ℕ) = i) ∧
      ∀ e ∈ overdue s now, e ∈ t.timers.elts →
        IsLeast {m | now < m ∧ ∃ k, m = (s.mem e).nextTimeout + k * ((s.mem e).timeout * 1000)} (t.mem e).nextTimeout := by
  have hstart : Swept now s [] s := by
    refine ⟨hsound, ⟨l, hpend⟩, horder, hout, ⟨rfl, fun _ => rfl⟩, fun _ => rfl, List.nodup_nil, ?_, ?_, ?_, fun _ _ => rfl⟩ <;>
      exact fun x hx => absurd hx List.not_mem_nil
  obtain ⟨t, done, h, hvisits, hend⟩ := hstart.visits cron hsound.book htimeout hnow
  obtain ⟨hall, hperm⟩ := h.through hsound.book hend
  obtain ⟨l', hl'⟩ := h.pend
  rw [List.length_nil] at hvisits
  obtain ⟨fuel, hfuel⟩ := hvisits.run_eq
  refine ⟨1 + fuel, t, l', ?_, hall, fun i => ⟨?_, hl'.nodup i⟩, fun i e => ?_, fun e he hin => ?_⟩
  · rw [hfuel, Yjc.Loop.run_leave (sweep_leaves (w := .timers) hend), hperm.length_eq]
  · have := hl'.spells i
    rwa [position_out h.phase] at this
  · rw [hl'.mem_iff h.phase, hpend.mem_iff hout, h.priority, ← hperm.mem_iff]
    by_cases hdone : e ∈ done
    · simp only [h.pending e hdone, hdone, true_and]
      exact ⟨.inr, fun hc => hc.elim And.right id⟩
    · rw [h.fresh e hdone]
      exact ⟨.inl, fun hc => hc.elim id fun hc => absurd hc.1 hdone⟩
  · have hdone := hperm.mem_iff.mpr he
    rw [h.rearmed e hdone ((h.sound.book.parked .timeout e).mp hin).2.2.2]
    obtain ⟨hin, hdue⟩ := mem_overdue.mp he
    exact nextAfter_isLeast (htimeout e hin).1 hdue

/-- Three timers, of which two are due after 11 ms: one that has missed three periods, and one for the last time. -/
def threeTimers : List Act :=
  [.call (.evtimerAdd 0 3 5 true), .call (.evtimerAdd 0 4 1 true), .call (.evtimerAdd 0 12 1 true)]

theorem process_timers_spec_sample :
    ∃ s, Run.exec step Loop.init threeTimers = some s ∧
      ∃ fuel t, Yjc.Loop.run (sweep .timers 11000 fun _ => 0) fuel ⟨s, 0, .test⟩ = some (some (t, 2)) ∧
        ∀ e ∈ t.timers.elts, 11000 < (t.mem e).nextTimeout := by
  refine ⟨_, rfl, ?_⟩
  have hacts : Run.Along step (fun s a => (Enabled s a ∧ Orderly s a) ∧ Deletable s a) Loop.init threeTimers := by
    refine ⟨⟨⟨⟨rfl, trivial⟩, trivial⟩, trivial⟩, fun t ht => ?_⟩
    cases ht
    refine ⟨⟨⟨⟨rfl, trivial⟩, trivial⟩, trivial⟩, fun t ht => ?_⟩
    cases ht
    exact ⟨⟨⟨⟨rfl, trivial⟩, trivial⟩, trivial⟩, fun _ _ => trivial⟩
  obtain ⟨hsound, l, hl⟩ := pend_of_run hacts rfl
  have horder := inOrder_of_run (Run.along_and.mp (Run.along_and.mp hacts).1).1 rfl
  obtain ⟨fuel, t, -, hrun, hall, -⟩ := process_timers_spec hsound hl horder rfl (by decide)
    (show 11000 < 2 ^ 63 by decide) fun _ => 0
  exact ⟨fuel, t, hrun, hall⟩

end Yjc.Timers
