import Yjc.Event.Counters
import Yjc.Container.HeapOrder

/-! The heaps of a loop stay heaps for `timers_compare`, whatever is done to its timers. -/

namespace Yjc.Timers
open Timers.Loop Heap

variable {s t u : Loop} {e x : ℕ} {ev : Event}

namespace Loop

/-- Both heaps are heaps for `timers_compare`. -/
def InOrder (s : Loop) : Prop := ∀ w : Which, Ordered s.before (w.heap s).elts

theorem before_order (s : Loop) : StrictWeakOrder s.before := by
  refine ⟨fun x y h => ?_, fun x y z h h' => ?_⟩
  · simp only [before, decide_eq_true_eq, decide_eq_false_iff_not] at h ⊢
    omega
  · simp only [before, decide_eq_false_iff_not] at h h' ⊢
    omega

end Loop

theorem ordered_of_agree {l : List ℕ} (h : Ordered s.before l)
    (hl : ∀ x ∈ l, (t.mem x).nextTimeout = (s.mem x).nextTimeout) : Ordered t.before l := by
  refine h.congr fun x hx y hy => ?_
  rw [before, before, hl x hx, hl y hy]

structure Unmoved (s t : Loop) : Prop where
  timers : t.timers = s.timers
  realtimers : t.realtimers = s.realtimers
  nextTimeout : ∀ e, (t.mem e).nextTimeout = (s.mem e).nextTimeout

theorem Unmoved.trans (h : Unmoved s t) (h' : Unmoved t u) : Unmoved s u :=
  ⟨h'.timers.trans h.timers, h'.realtimers.trans h.realtimers, fun e => (h'.nextTimeout e).trans (h.nextTimeout e)⟩

theorem Loop.InOrder.unmoved (h : s.InOrder) (hs : Unmoved s t) : t.InOrder := by
  intro w
  have hheap : w.heap t = w.heap s := by
    cases w
    · exact hs.timers
    · exact hs.realtimers
  rw [hheap]
  exact ordered_of_agree (h w) fun x _ => hs.nextTimeout x

theorem Loop.InOrder.changed (h : s.InOrder) {w : Which} (hother : ∀ w', w' ≠ w → w'.heap t = w'.heap s)
    (hmem : ∀ x, x ≠ e → (t.mem x).nextTimeout = (s.mem x).nextTimeout)
    (hout : ∀ w', w' ≠ w → e ∉ (w'.heap s).elts) (hw : Ordered t.before (w.heap t).elts) : t.InOrder := by
  intro w'
  rcases eq_or_ne w' w with rfl | hne
  · exact hw
  · rw [hother w' hne]
    refine ordered_of_agree (h w') fun x hx => hmem x ?_
    rintro rfl
    exact hout w' hne hx

theorem unmoved_modify (s : Loop) (e : ℕ) {f : Event → Event} (hf : ∀ ev, (f ev).nextTimeout = ev.nextTimeout) :
    Unmoved s (s.modify e f) := by
  refine ⟨rfl, rfl, fun x => ?_⟩
  rcases eq_or_ne x e with rfl | hne
  · rw [modify_self, hf]
  · rw [modify_of_ne s hne]

theorem unmoved_eventInactive (s : Loop) (e : ℕ) : Unmoved s (eventInactive e s) := by
  have h := unmoved_modify s e (f := fun ev => { ev with active := false }) fun _ => rfl
  unfold eventInactive
  split_ifs
  · exact ⟨rfl, rfl, h.nextTimeout⟩
  · exact ⟨rfl, rfl, fun _ => rfl⟩

theorem unmoved_eventActive (s : Loop) (e : ℕ) : Unmoved s (eventActive e s) := by
  have h := unmoved_modify s e (f := fun ev => { ev with active := true }) fun _ => rfl
  unfold eventActive
  split_ifs
  · exact ⟨rfl, rfl, fun _ => rfl⟩
  · exact ⟨rfl, rfl, h.nextTimeout⟩

theorem unmoved_eventDel (s : Loop) (e : ℕ) : Unmoved s (eventDel e s) := by
  have h := unmoved_eventInactive s e
  unfold eventDel
  dsimp only
  split_ifs
  · exact h
  · exact ⟨h.timers, h.realtimers, h.nextTimeout⟩

theorem unmoved_eventPending (s : Loop) (e : ℕ) : Unmoved s (eventPending e s) := by
  have h := unmoved_modify s e (f := fun ev => { ev with pending := true, pendingNext := s.pendings (s.mem e).priority })
    fun _ => rfl
  unfold eventPending
  split_ifs
  · exact ⟨rfl, rfl, fun _ => rfl⟩
  · exact ⟨rfl, rfl, h.nextTimeout⟩

theorem unmoved_countDown (s : Loop) (e : ℕ) : Unmoved s (countDown e s) := by
  unfold countDown
  split_ifs
  · exact ⟨rfl, rfl, fun _ => rfl⟩
  · exact unmoved_modify s e fun _ => rfl

theorem unmoved_unlistIdle (s : Loop) (e : ℕ) : Unmoved s (unlistIdle e s) := by
  have h := unmoved_modify s e (f := fun ev => { ev with destroy := true }) fun _ => rfl
  unfold unlistIdle
  split_ifs
  · exact ⟨rfl, rfl, fun _ => rfl⟩
  · exact ⟨rfl, rfl, h.nextTimeout⟩

theorem unmoved_finish (s : Loop) (i c : ℕ) (next : Option ℕ) : Unmoved s (finish i c next s) := by
  have h := unmoved_modify s c (f := fun ev => { ev with pending := false }) fun _ => rfl
  unfold finish
  dsimp only
  split_ifs
  · have h' := h.trans (unmoved_eventDel _ c)
    exact ⟨h'.timers, h'.realtimers, h'.nextTimeout⟩
  · exact ⟨h.timers, h.realtimers, h.nextTimeout⟩

namespace Which

variable {w w' : Which} {h : Heap ℕ}

theorem heap_set (s : Loop) (h : Heap ℕ) : w.heap (w.set s h) = h := by cases w <;> rfl

theorem heap_set_of_ne (s : Loop) (h : Heap ℕ) (hne : w' ≠ w) : w'.heap (w.set s h) = w'.heap s := by
  cases w <;> cases w' <;> first | rfl | exact absurd rfl hne

theorem mem_set (s : Loop) (h : Heap ℕ) : (w.set s h).mem = s.mem := by cases w <;> rfl

theorem before_set (s : Loop) (h : Heap ℕ) : (w.set s h).before = s.before := by cases w <;> rfl

theorem heap_modify (s : Loop) (e : ℕ) (f : Event → Event) : w.heap (s.modify e f) = w.heap s := by cases w <;> rfl

theorem kind_inj (hk : w.kind = w'.kind) : w = w' := by
  cases w <;> cases w' <;> first | rfl | cases hk

end Which

theorem Book.notMem_heap (h : Book s) {w w' : Which} (hk : (s.mem e).kind = w.kind) (hne : w' ≠ w) :
    e ∉ (w'.heap s).elts := by
  intro hin
  rw [← Which.parked_kind] at hin
  have := ((h.parked w'.kind e).mp hin).2.2.1
  exact hne (Which.kind_inj (this.symm.trans hk))

theorem Loop.InOrder.unlistTimer (h : s.InOrder) (hbook : Book s) {w : Which} (hk : (s.mem e).kind = w.kind)
    (ht : unlistTimer e s = some t) : t.InOrder := by
  unfold Timers.unlistTimer at ht
  split_ifs at ht
  · cases ht
    exact h
  · obtain ⟨u, hu, ht⟩ := Option.bind_eq_some_iff.mp ht
    cases ht
    rw [Which.dequeue_eq hk] at hu
    obtain ⟨heap, hremove, rfl⟩ := Option.map_eq_some_iff.mp hu
    have hdequeued : (w.set s heap).InOrder := by
      refine h.changed (w := w) (e := e) (fun w' hne => Which.heap_set_of_ne s heap hne) (fun x _ => by rw [Which.mem_set])
        (fun w' hne => hbook.notMem_heap hk hne) ?_
      rw [Which.before_set, Which.heap_set]
      exact remove_ordered s.before_order (h w) hremove
    have hmarked := unmoved_modify (w.set s heap) e (f := fun ev => { ev with destroy := true }) fun _ => rfl
    exact hdequeued.unmoved ⟨hmarked.timers, hmarked.realtimers, hmarked.nextTimeout⟩

theorem Loop.InOrder.insert (h : s.InOrder) {w : Which} (hother : ∀ w', w' ≠ w → w'.heap t = w'.heap s)
    (hmem : ∀ x, x ≠ e → t.mem x = s.mem x) (hout : ∀ w' : Which, e ∉ (w'.heap s).elts)
    (hw : w.heap t = (w.heap s).insert t.before e) : t.InOrder := by
  refine h.changed hother (fun x hx => by rw [hmem x hx]) (fun w' _ => hout w') ?_
  rw [hw]
  refine insert_ordered t.before_order (ordered_of_agree (h w) fun x hx => ?_) e
  rw [hmem x (ne_of_mem_of_not_mem hx (hout w))]

theorem Loop.InOrder.remove (h : s.InOrder) (hbook : Book s) (he : e < s.next) {w : Which} (hk : (s.mem e).kind = w.kind)
    (hd : (s.mem e).destroy = false) {heap : Heap ℕ} (hremove : (w.heap s).remove s.before e = some heap) :
    (w.set s heap).InOrder ∧ ∀ w' : Which, e ∉ (w'.heap (w.set s heap)).elts := by
  constructor
  · refine h.changed (w := w) (e := e) (fun w' hne => Which.heap_set_of_ne s heap hne) (fun x _ => by rw [Which.mem_set])
      (fun w' hne => hbook.notMem_heap hk hne) ?_
    rw [Which.before_set, Which.heap_set]
    exact remove_ordered s.before_order (h w) hremove
  · intro w'
    rcases eq_or_ne w' w with rfl | hne
    · obtain ⟨heap', hremove', hperm, -⟩ := hbook.remove he hk hd
      cases hremove.symm.trans hremove'
      have hnodup := hbook.nodup w'.kind
      rw [Which.parked_kind] at hnodup
      rw [Which.heap_set]
      exact (List.nodup_cons.mp (hperm.nodup_iff.mpr hnodup)).1
    · rw [Which.heap_set_of_ne s heap hne]
      exact hbook.notMem_heap hk hne

theorem Loop.InOrder.requeue (h : s.InOrder) (hbook : Book s) (he : e < s.next) {w : Which} (hk : (s.mem e).kind = w.kind)
    (hd : (s.mem e).destroy = false) {now next : ℕ} (ht : requeue w now next e s = some t) : t.InOrder := by
  obtain ⟨heap, hremove, rfl⟩ := Option.map_eq_some_iff.mp ht
  obtain ⟨horder, hout⟩ := h.remove hbook he hk hd hremove
  refine horder.insert (w := w) (e := e) (fun w' hne => ?_) (fun x hx => ?_) hout ?_
  · rw [Which.heap_set_of_ne _ _ hne, Which.heap_modify]
  · rw [Which.mem_set, modify_of_ne _ hx]
  · rw [Which.heap_set, Which.before_set, Which.heap_modify]

theorem putBack_heap (s : Loop) (e timeout : ℕ) :
    (putBack e timeout s).timers = s.timers.insert (putBack e timeout s).before e ∧
      (putBack e timeout s).realtimers = s.realtimers ∧ ∀ x, x ≠ e → (putBack e timeout s).mem x = s.mem x := by
  obtain ⟨-, hreal, -⟩ := putBack_timers s e timeout
  obtain ⟨r, m, n, hch⟩ := putBack_changes s e timeout
  refine ⟨?_, hreal, fun x hx => by rw [hch.mem, Function.update_of_ne hx]⟩
  unfold putBack
  dsimp only
  split_ifs <;> rfl

theorem Loop.InOrder.putBack (h : s.InOrder) (hout : ∀ w : Which, e ∉ (w.heap s).elts) (timeout : ℕ) :
    (putBack e timeout s).InOrder := by
  obtain ⟨htimers, hreal, hmem⟩ := putBack_heap s e timeout
  refine h.insert (w := .timers) (fun w' hne => ?_) hmem hout htimers
  cases w' with
  | timers => exact absurd rfl hne
  | realtimers => exact hreal

theorem Loop.InOrder.rearm (h : s.InOrder) (hbook : Book s) (he : e < s.next) (hk : (s.mem e).kind = .timeout)
    {timeout : ℕ} (ht : rearm e timeout s = some t) : t.InOrder := by
  unfold Timers.rearm at ht
  split_ifs at ht with hd
  · have hcounted : Loop.InOrder { s with ntimers := s.ntimers + 1 } := h.unmoved ⟨rfl, rfl, fun _ => rfl⟩
    have hout : ∀ w : Which, e ∉ (w.heap { s with ntimers := s.ntimers + 1 }).elts := by
      intro w hin
      have hparked : e ∈ s.parked w.kind := by
        rw [Which.parked_kind]
        cases w <;> exact hin
      have := ((hbook.parked w.kind e).mp hparked).2.2.2
      rw [hd] at this
      cases this
    rw [← Option.some.inj ht]
    exact hcounted.putBack hout timeout
  · obtain ⟨heap, hremove, ht⟩ := Option.map_eq_some_iff.mp ht
    obtain ⟨horder, hout⟩ := h.remove hbook he (w := .timers) hk ((Bool.not_eq_true _).mp hd) hremove
    rw [← ht]
    exact horder.putBack hout timeout

theorem Loop.InOrder.evtimerReset (h : s.InOrder) (hbook : Book s) (he : e < s.next) {timeout : ℕ}
    (ht : evtimerReset e timeout s = some t) : t.InOrder := by
  unfold Timers.evtimerReset at ht
  split_ifs at ht with hk
  · obtain ⟨u, hu, rfl⟩ := Option.map_eq_some_iff.mp ht
    rw [eventReset_eq]
    have hmod := unmoved_modify u e (f := fun ev => { ev with destroy := false, pending := false }) fun _ => rfl
    exact (h.rearm hbook he hk hu).unmoved (hmod.trans (unmoved_eventActive _ e))
  · cases ht
    exact h

theorem Loop.InOrder.added (h : s.InOrder) (hbook : Book s) {w : Which} (hmem : t.mem = (s.alloc ev).mem)
    (hother : ∀ w', w' ≠ w → w'.heap t = w'.heap s) (hw : w.heap t = (w.heap s).insert t.before s.next) :
    (eventActive s.next t).InOrder := by
  refine Loop.InOrder.unmoved (h.insert hother (fun x hx => ?_) (fun w' hin => ?_) hw) (unmoved_eventActive t s.next)
  · rw [hmem]
    exact Function.update_of_ne hx _ _
  · rw [← Which.parked_kind] at hin
    exact hbook.next_notMem_parked w'.kind hin

theorem Loop.InOrder.alloc (h : s.InOrder) (hbook : Book s) (ev : Event) : (s.alloc ev).InOrder := by
  intro w
  have hheap : w.heap (s.alloc ev) = w.heap s := by cases w <;> rfl
  rw [hheap]
  refine ordered_of_agree (h w) fun x hx => ?_
  have hne : x ≠ s.next := by
    rintro rfl
    rw [← Which.parked_kind] at hx
    exact hbook.next_notMem_parked w.kind hx
  exact congrArg Event.nextTimeout (Function.update_of_ne hne _ _)

theorem Loop.InOrder.call (h : s.InOrder) (hbook : Book s) {c : Call} (hc : Callable s c) (ht : call s c = some t) :
    t.InOrder := by
  cases c with
  | evtimerAdd hrtime timeout repeats cb =>
    cases ht
    unfold evtimerAdd
    split_ifs
    · exact h
    · dsimp only
      rw [eventActive_ntimers]
      refine h.added hbook (w := .timers) rfl (fun w' hne => ?_) rfl
      cases w' with
      | timers => exact absurd rfl hne
      | realtimers => rfl
  | evtimerAddPeriod minute hour day week month next repeats cb =>
    cases ht
    unfold evtimerAddPeriod
    split_ifs
    · exact h
    · dsimp only
      rw [eventActive_ntimers]
      refine h.added hbook (w := .realtimers) rfl (fun w' hne => ?_) rfl
      cases w' with
      | timers => rfl
      | realtimers => exact absurd rfl hne
  | evtimerReset e timeout => exact h.evtimerReset hbook hc.1 ht
  | evtimerDel e =>
    change evtimerDel e s = some t at ht
    unfold evtimerDel at ht
    split_ifs at ht
    · obtain ⟨u, hu, rfl⟩ := Option.map_eq_some_iff.mp ht
      obtain ⟨w, hw⟩ := which_of_kind hc.2
      exact (h.unlistTimer hbook hw hu).unmoved (unmoved_eventDel u e)
    · cases ht
      exact h
  | evidleAdd repeats cb =>
    cases ht
    unfold evidleAdd
    dsimp only
    rw [eventActive_nidles]
    refine Loop.InOrder.unmoved ?_ (unmoved_eventActive _ s.next)
    refine (h.alloc hbook { blank with kind := .idle, priority := 0, repeats := repeats, cb := cb }).unmoved ?_
    exact ⟨rfl, rfl, fun _ => rfl⟩
  | evidleDel e =>
    cases ht
    unfold evidleDel
    split_ifs
    · exact h.unmoved ((unmoved_unlistIdle s e).trans (unmoved_eventDel _ e))
    · exact h
  | evioGet priority cb =>
    cases ht
    exact h.alloc hbook _
  | evioAdd e =>
    cases ht
    exact h.unmoved (unmoved_eventActive s e)
  | evioDel e =>
    cases ht
    exact h.unmoved (unmoved_eventInactive s e)

theorem unmoved_processIdles (s : Loop) (l : List ℕ) : Unmoved s (l.foldl processIdle s) := by
  induction l generalizing s with
  | nil => exact ⟨rfl, rfl, fun _ => rfl⟩
  | cons e l ih =>
    refine Unmoved.trans ?_ (ih (processIdle s e))
    unfold processIdle
    dsimp only
    split_ifs
    · exact (unmoved_countDown s e).trans ((unmoved_unlistIdle _ e).trans (unmoved_eventPending _ e))
    · exact (unmoved_countDown s e).trans (unmoved_eventPending _ e)

theorem processTimer_due {w : Which} {now : ℕ} (next : ℕ) (hroot : (w.heap s).root = some e)
    (hdue : (s.mem e).nextTimeout ≤ now) :
    processTimer w now next s = (if ((countDown e s).mem e).repeats = 0 then unlistTimer e (countDown e s)
      else requeue w now next e (countDown e s)).map (eventPending e) := by
  unfold processTimer
  rw [hroot, Option.bind_eq_bind, Option.bind_some, if_neg (Nat.not_lt.mpr hdue)]
  dsimp only
  split_ifs
  · cases unlistTimer e (countDown e s) <;> rfl
  · cases requeue w now next e (countDown e s) <;> rfl

theorem Loop.InOrder.processTimer (h : s.InOrder) (hbook : Book s) {w : Which} {now next : ℕ}
    (hroot : (w.heap s).root = some e) (hdue : (s.mem e).nextTimeout ≤ now) (ht : processTimer w now next s = some t) :
    t.InOrder := by
  rw [processTimer_due next hroot hdue] at ht
  obtain ⟨u, hu, rfl⟩ := Option.map_eq_some_iff.mp ht
  have hin : e ∈ s.parked w.kind := by
    rw [Which.parked_kind]
    exact Heap.mem_of_root hroot
  obtain ⟨-, hlt, hk, hd⟩ := (hbook.parked w.kind e).mp hin
  have hsame := same_countDown s e
  obtain ⟨hk', hd', -⟩ := core_eq (hsame.core e)
  have hbook' := hbook.same hsame
  have horder' := h.unmoved (unmoved_countDown s e)
  refine Loop.InOrder.unmoved ?_ (unmoved_eventPending u e)
  split_ifs at hu
  · exact horder'.unlistTimer hbook' (hk'.trans hk) hu
  · exact horder'.requeue hbook' (hsame.next ▸ hlt) (hk'.trans hk) (hd'.trans hd) hu

theorem Loop.InOrder.step (h : s.InOrder) (hbook : Book s) {a : Act} (ha : Enabled s a) (ht : step s a = some t) :
    t.InOrder := by
  cases a with
  | call c => exact h.call hbook ha.2 (call_of_step ht)
  | timer w now next =>
    obtain ⟨hout, e, hroot, hdue⟩ := ha
    rw [Timers.step, if_pos hout] at ht
    exact h.processTimer hbook hroot hdue ht
  | idles =>
    change s.phase = .out at ha
    rw [Timers.step, if_pos ha] at ht
    cases ht
    exact h.unmoved (unmoved_processIdles s s.idles)
  | ioReady e =>
    rw [Timers.step, if_pos ha.1] at ht
    cases ht
    exact h.unmoved (unmoved_eventPending s e)
  | start =>
    change s.phase = .out at ha
    rw [Timers.step, if_pos ha] at ht
    cases ht
    refine h.unmoved ?_
    unfold beginPendings
    split_ifs <;> exact ⟨rfl, rfl, fun _ => rfl⟩
  | visit =>
    unfold Timers.step at ht
    cases hph : s.phase with
    | out | cb =>
      rw [hph] at ht
      cases ht
    | walk i cur =>
      rw [hph] at ht
      cases ht
      refine h.unmoved ?_
      cases cur with
      | none => cases i <;> exact ⟨rfl, rfl, fun _ => rfl⟩
      | some c =>
        unfold visit
        dsimp only
        split_ifs
        · exact ⟨rfl, rfl, fun _ => rfl⟩
        · exact unmoved_finish s i c _
        · exact ⟨rfl, rfl, fun _ => rfl⟩
  | ret =>
    unfold Timers.step at ht
    cases hph : s.phase with
    | out | walk =>
      rw [hph] at ht
      cases ht
    | cb i c next =>
      rw [hph] at ht
      cases ht
      exact h.unmoved (unmoved_finish s i c next)

theorem inOrder_init : Loop.init.InOrder := by
  intro w k hk x hx
  cases w <;> cases hx

theorem inOrder_of_run {acts : List Act} (hacts : Run.Along step Enabled Loop.init acts)
    (h : Run.exec step Loop.init acts = some s) : s.InOrder := by
  obtain ⟨t, ht, -, horder⟩ := Run.exec_of_along (fun _ s => Sound s ∧ s.InOrder)
    (fun _ _ _ h ha => by
      obtain ⟨t, ht, hsound⟩ := h.1.step ha
      exact ⟨t, ht, hsound, h.2.step h.1.book ha ht⟩)
    [] ⟨sound_init, inOrder_init⟩ hacts
  cases h.symm.trans ht
  exact horder

end Yjc.Timers
