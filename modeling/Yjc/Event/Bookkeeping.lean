import Yjc.Event.LoopTimers
import Yjc.Lib.Card

/-! The counters of a loop against its heaps, its list of idles and the flags of its events. -/

namespace Yjc.Timers

namespace Loop

def parked (s : Loop) : Kind → List ℕ
  | .timeout => s.timers.elts
  | .period => s.realtimers.elts
  | .idle => s.idles
  | .io => []

def actives (s : Loop) : Finset ℕ := (Finset.range s.next).filter fun e => (s.mem e).active = true

theorem mem_actives {s : Loop} {e : ℕ} : e ∈ s.actives ↔ e < s.next ∧ (s.mem e).active = true := by
  rw [actives, Finset.mem_filter, Finset.mem_range]

end Loop

open Timers.Loop

/-- The counters count, and what is parked is what is not marked as destroyed. -/
structure Book (s : Loop) : Prop where
  parked : ∀ k e, e ∈ s.parked k ↔ k ≠ .io ∧ e < s.next ∧ (s.mem e).kind = k ∧ (s.mem e).destroy = false
  nodup : ∀ k, (s.parked k).Nodup
  timers : s.timers.nelts = s.timers.elts.length
  realtimers : s.realtimers.nelts = s.realtimers.elts.length
  ntimers : s.ntimers = s.timers.nelts + s.realtimers.nelts
  nidles : s.nidles = s.idles.length
  nactives : s.nactives = s.actives.card
  freed : ∀ e ∈ s.freed, e < s.next ∧ (s.mem e).destroy = true ∧ (s.mem e).active = false

def Event.core (ev : Event) : Kind × Bool × Bool := (ev.kind, ev.destroy, ev.active)

structure Same (s t : Loop) : Prop where
  next : t.next = s.next
  timers : t.timers = s.timers
  realtimers : t.realtimers = s.realtimers
  idles : t.idles = s.idles
  ntimers : t.ntimers = s.ntimers
  nidles : t.nidles = s.nidles
  nactives : t.nactives = s.nactives
  freed : t.freed = s.freed
  core : ∀ e, (t.mem e).core = (s.mem e).core

theorem core_eq {ev ev' : Event} (h : ev.core = ev'.core) :
    ev.kind = ev'.kind ∧ ev.destroy = ev'.destroy ∧ ev.active = ev'.active := by
  obtain ⟨hk, hda⟩ := Prod.mk.inj h
  obtain ⟨hd, ha⟩ := Prod.mk.inj hda
  exact ⟨hk, hd, ha⟩

variable {s t : Loop} {e : ℕ}

theorem Same.parked (h : Same s t) (k : Kind) : t.parked k = s.parked k := by
  cases k with
  | timeout => exact congrArg Heap.elts h.timers
  | period => exact congrArg Heap.elts h.realtimers
  | idle => exact h.idles
  | io => rfl

theorem Same.actives (h : Same s t) : t.actives = s.actives := by
  ext e
  rw [mem_actives, mem_actives, h.next, (core_eq (h.core e)).2.2]

theorem Book.same (h : Book s) (hs : Same s t) : Book t := by
  refine ⟨fun k e => ?_, fun k => ?_, ?_, ?_, ?_, ?_, ?_, fun e he => ?_⟩
  · obtain ⟨hk, hd, -⟩ := core_eq (hs.core e)
    rw [hs.parked, h.parked, hs.next, hk, hd]
  · rw [hs.parked]
    exact h.nodup k
  · rw [hs.timers]
    exact h.timers
  · rw [hs.realtimers]
    exact h.realtimers
  · rw [hs.ntimers, hs.timers, hs.realtimers]
    exact h.ntimers
  · rw [hs.nidles, hs.idles]
    exact h.nidles
  · rw [hs.nactives, hs.actives]
    exact h.nactives
  · obtain ⟨-, hd, ha⟩ := core_eq (hs.core e)
    rw [hs.freed] at he
    rw [hs.next, hd, ha]
    exact h.freed e he

theorem same_modify (s : Loop) (e : ℕ) {f : Event → Event} (hf : ∀ ev, (f ev).core = ev.core) : Same s (s.modify e f) := by
  refine ⟨rfl, rfl, rfl, rfl, rfl, rfl, rfl, rfl, fun e' => ?_⟩
  rcases eq_or_ne e' e with rfl | hne
  · rw [modify_self, hf]
  · rw [modify_of_ne s hne]

theorem same_eventPending (s : Loop) (e : ℕ) : Same s (eventPending e s) := by
  unfold eventPending
  split_ifs
  · exact ⟨rfl, rfl, rfl, rfl, rfl, rfl, rfl, rfl, fun _ => rfl⟩
  · have h := same_modify s e (f := fun ev => { ev with pending := true, pendingNext := s.pendings (s.mem e).priority })
      fun _ => rfl
    exact ⟨rfl, rfl, rfl, rfl, rfl, rfl, rfl, rfl, h.core⟩

theorem same_countDown (s : Loop) (e : ℕ) : Same s (countDown e s) := by
  unfold countDown
  split_ifs
  · exact ⟨rfl, rfl, rfl, rfl, rfl, rfl, rfl, rfl, fun _ => rfl⟩
  · exact same_modify s e fun _ => rfl

/-! ## The active events -/

theorem Book.active (h : Book s) (he : e < s.next) (b : Bool) (hfree : b = true → e ∉ s.freed) {n : ℕ}
    (hn : n + (if (s.mem e).active then 1 else 0) = s.nactives + if b then 1 else 0) :
    Book { s.modify e (fun ev => { ev with active := b }) with nactives := n } := by
  have hkd : ∀ e', ((s.modify e fun ev => { ev with active := b }).mem e').kind = (s.mem e').kind ∧
      ((s.modify e fun ev => { ev with active := b }).mem e').destroy = (s.mem e').destroy := by
    intro e'
    rcases eq_or_ne e' e with rfl | hne
    · rw [modify_self]
      exact ⟨rfl, rfl⟩
    · rw [modify_of_ne s hne]
      exact ⟨rfl, rfl⟩
  refine ⟨fun k e' => ?_, h.nodup, h.timers, h.realtimers, h.ntimers, h.nidles, ?_, fun e' he' => ?_⟩
  · exact (h.parked k e').trans (by rw [← (hkd e').1, ← (hkd e').2]; rfl)
  · have hagree : ∀ x, x ≠ e →
        (x ∈ Loop.actives { s.modify e (fun ev => { ev with active := b }) with nactives := n } ↔ x ∈ s.actives) := by
      intro x hne
      rw [mem_actives, mem_actives]
      exact and_congr_right fun _ => by rw [show _ = s.mem x from modify_of_ne s hne _]
    have hcard := Card.card_add_of_agree hagree
    have hold : (if e ∈ s.actives then 1 else 0) = if (s.mem e).active then 1 else 0 := by
      simp only [mem_actives, he, true_and]
    have hnew : (if e ∈ Loop.actives { s.modify e (fun ev => { ev with active := b }) with nactives := n } then 1 else 0) =
        if b then 1 else 0 := by
      simp only [mem_actives, Loop.modify, Function.update_self, he, true_and]
    rw [hold, hnew, ← h.nactives] at hcard
    change n = _
    omega
  · obtain ⟨hlt, hd, ha⟩ := h.freed e' he'
    refine ⟨hlt, (hkd e').2.trans hd, ?_⟩
    change ((s.modify e fun ev => { ev with active := b }).mem e').active = false
    rcases eq_or_ne e' e with rfl | hne
    · rw [modify_self]
      exact (Bool.not_eq_true _).mp fun hb => hfree hb he'
    · rw [modify_of_ne s hne]
      exact ha

theorem Book.eventActive (h : Book s) (he : e < s.next) (hfree : e ∉ s.freed) : Book (eventActive e s) := by
  unfold Timers.eventActive
  split_ifs with ha
  · exact h
  · refine h.active he true (fun _ => hfree) ?_
    rw [if_neg ha]
    rfl

theorem Book.eventInactive (h : Book s) (he : e < s.next) : Book (eventInactive e s) := by
  unfold Timers.eventInactive
  split_ifs with ha
  · have hpos : 0 < s.nactives := by
      rw [h.nactives]
      exact Finset.card_pos.mpr ⟨e, mem_actives.mpr ⟨he, ha⟩⟩
    refine h.active he false (fun hb => by cases hb) ?_
    rw [if_pos ha]
    exact Nat.sub_add_cancel hpos
  · exact h

theorem Book.eventDel (h : Book s) (he : e < s.next) (hd : (s.mem e).destroy = true) : Book (eventDel e s) := by
  have h₁ := h.eventInactive he
  have hch := eventInactive_changes s e
  unfold Timers.eventDel
  dsimp only
  split_ifs
  · exact h₁
  · refine ⟨h₁.parked, h₁.nodup, h₁.timers, h₁.realtimers, h₁.ntimers, h₁.nidles, h₁.nactives, fun e' he' => ?_⟩
    rcases List.mem_append.mp he' with hold | hnew
    · exact h₁.freed e' hold
    · rw [List.mem_singleton.mp hnew]
      change e < (Timers.eventInactive e s).next ∧ ((Timers.eventInactive e s).mem e).destroy = true ∧
        ((Timers.eventInactive e s).mem e).active = false
      rw [hch.next, hch.self]
      exact ⟨he, hd, rfl⟩

/-! ## The heaps and the list -/

/-- The list of one kind gets or loses `e`, as its flag `destroy` says. -/
structure Moved (e : ℕ) (gone : Bool) (l l' : List ℕ) : Prop where
  nodup : l'.Nodup
  other : ∀ x, x ≠ e → (x ∈ l' ↔ x ∈ l)
  self : e ∈ l' ↔ gone = false

theorem moved_out {l l' : List ℕ} (hl : l.Nodup) (h : (e :: l').Perm l) : Moved e true l l' := by
  have hcons := h.nodup_iff.mpr hl
  refine ⟨hcons.of_cons, fun x hx => ?_, iff_of_false (List.nodup_cons.mp hcons).1 (by decide)⟩
  rw [← h.mem_iff, List.mem_cons]
  exact ⟨.inr, fun hmem => hmem.resolve_left hx⟩

theorem moved_in {l l' : List ℕ} (hl : l.Nodup) (he : e ∉ l) (h : l'.Perm (e :: l)) : Moved e false l l' := by
  refine ⟨h.nodup_iff.mpr (List.nodup_cons.mpr ⟨he, hl⟩), fun x hx => ?_, iff_of_true ?_ rfl⟩
  · rw [h.mem_iff, List.mem_cons]
    exact ⟨fun hmem => hmem.resolve_left hx, .inr⟩
  · rw [h.mem_iff]
    exact List.mem_cons_self

theorem Moved.trans {l l' l'' : List ℕ} {b b' : Bool} (h : Moved e b l l') (h' : Moved e b' l' l'') : Moved e b' l l'' :=
  ⟨h'.nodup, fun x hx => (h'.other x hx).trans (h.other x hx), h'.self⟩

theorem Book.moved (h : Book s) (he : e < t.next) (hnext : ∀ x, x ≠ e → (x < t.next ↔ x < s.next))
    (hmem : ∀ x, x ≠ e → (t.mem x).kind = (s.mem x).kind ∧ (t.mem x).destroy = (s.mem x).destroy)
    (hkind : e < s.next → (s.mem e).kind = (t.mem e).kind) (hio : (t.mem e).kind ≠ .io)
    (hother : ∀ k, k ≠ (t.mem e).kind → t.parked k = s.parked k)
    (hmoved : Moved e (t.mem e).destroy (s.parked (t.mem e).kind) (t.parked (t.mem e).kind)) :
    (∀ k x, x ∈ t.parked k ↔ k ≠ .io ∧ x < t.next ∧ (t.mem x).kind = k ∧ (t.mem x).destroy = false) ∧
      ∀ k, (t.parked k).Nodup := by
  constructor
  · intro k x
    rcases eq_or_ne x e with rfl | hx
    · rcases eq_or_ne k (t.mem x).kind with rfl | hk
      · rw [hmoved.self]
        exact ⟨fun hd => ⟨hio, he, rfl, hd⟩, fun hc => hc.2.2.2⟩
      · rw [hother k hk, h.parked]
        refine iff_of_false (fun hc => hk ?_) fun hc => hk hc.2.2.1.symm
        exact hc.2.2.1.symm.trans (hkind hc.2.1)
    · obtain ⟨hk', hd'⟩ := hmem x hx
      rw [hnext x hx, hk', hd', ← h.parked k x]
      rcases eq_or_ne k (t.mem e).kind with rfl | hk
      · exact hmoved.other x hx
      · rw [hother k hk]
  · intro k
    rcases eq_or_ne k (t.mem e).kind with rfl | hk
    · exact hmoved.nodup
    · rw [hother k hk]
      exact h.nodup k

theorem Book.marked (h : Book s) (he : e < s.next) {ev : Event} (hch : Changes s t e ev)
    (hkind : ev.kind = (s.mem e).kind) (hact : ev.active = (s.mem e).active) (hio : ev.kind ≠ .io)
    (hfree : ev.destroy = false → e ∉ s.freed) (hother : ∀ k, k ≠ ev.kind → t.parked k = s.parked k)
    (hmoved : Moved e ev.destroy (s.parked ev.kind) (t.parked ev.kind))
    (htimers : t.timers.nelts = t.timers.elts.length) (hrealtimers : t.realtimers.nelts = t.realtimers.elts.length)
    (hntimers : t.ntimers = t.timers.nelts + t.realtimers.nelts) (hnidles : t.nidles = t.idles.length)
    (hnactives : t.nactives = s.nactives) : Book t := by
  have hmem : ∀ x, x ≠ e → t.mem x = s.mem x := by
    intro x hx
    rw [hch.mem, Function.update_of_ne hx]
  have hself := hch.self
  obtain ⟨hparked, hnodup⟩ := h.moved (t := t) (e := e) (hch.next ▸ he) (fun x _ => by rw [hch.next])
    (fun x hx => by rw [hmem x hx]; exact ⟨rfl, rfl⟩) (fun _ => by rw [hself, hkind]) (by rw [hself]; exact hio)
    (by rw [hself]; exact hother) (by rw [hself]; exact hmoved)
  refine ⟨hparked, hnodup, htimers, hrealtimers, hntimers, hnidles, ?_, fun x hx => ?_⟩
  · rw [hnactives, h.nactives]
    congr 1
    ext x
    rw [mem_actives, mem_actives, hch.next]
    rcases eq_or_ne x e with rfl | hx
    · rw [hself, hact]
    · rw [hmem x hx]
  · rw [hch.freed] at hx
    obtain ⟨hlt, hd, ha⟩ := h.freed x hx
    rw [hch.next]
    rcases eq_or_ne x e with rfl | hne
    · rw [hself, hact]
      refine ⟨hlt, ?_, ha⟩
      by_contra hc
      exact hfree ((Bool.not_eq_true _).mp hc) hx
    · rw [hmem x hne]
      exact ⟨hlt, hd, ha⟩

theorem Book.unlistIdle (h : Book s) (he : e < s.next) (hk : (s.mem e).kind = .idle) : Book (unlistIdle e s) := by
  have hch := unlistIdle_changes s e
  revert hch
  unfold Timers.unlistIdle
  split_ifs with hd
  · exact fun _ => h
  · intro hch
    have hin : e ∈ s.idles := (h.parked .idle e).mpr ⟨by decide, he, hk, (Bool.not_eq_true _).mp hd⟩
    refine h.marked he hch rfl rfl (by rw [hk]; decide) (fun hc => (by cases hc)) (fun k hne => ?_) ?_ h.timers
      h.realtimers h.ntimers ?_ rfl
    · change k ≠ (s.mem e).kind at hne
      rw [hk] at hne
      cases k with
      | idle => exact absurd rfl hne
      | timeout | period | io => rfl
    · change Moved e true (s.parked (s.mem e).kind) (Loop.parked _ (s.mem e).kind)
      rw [hk]
      exact moved_out (h.nodup .idle) (List.perm_cons_erase hin).symm
    · change s.nidles - 1 = (s.idles.erase e).length
      rw [List.length_erase_of_mem hin, h.nidles]

namespace Which

def kind : Which → Kind
  | .timers => .timeout
  | .realtimers => .period

variable {w : Which}

theorem kind_ne_io : w.kind ≠ .io := by cases w <;> decide

theorem parked_kind (s : Loop) : s.parked w.kind = (w.heap s).elts := by cases w <;> rfl

theorem parked_set_kind (s : Loop) (h : Heap ℕ) : (w.set s h).parked w.kind = h.elts := by cases w <;> rfl

theorem parked_set_of_ne (s : Loop) (h : Heap ℕ) {k : Kind} (hk : k ≠ w.kind) : (w.set s h).parked k = s.parked k := by
  cases w <;> cases k <;> first | rfl | exact absurd rfl hk

theorem set_eq (s : Loop) (h : Heap ℕ) :
    Changes s (w.set s h) e (s.mem e) ∧ (w.set s h).ntimers = s.ntimers ∧ (w.set s h).nidles = s.nidles ∧
      (w.set s h).idles = s.idles ∧ (w.set s h).nactives = s.nactives := by
  cases w <;> exact ⟨⟨(Function.update_eq_self e s.mem).symm, rfl, rfl, rfl, rfl, rfl⟩, rfl, rfl, rfl, rfl⟩

theorem dequeue_eq (hk : (s.mem e).kind = w.kind) :
    dequeue e s = ((w.heap s).remove s.before e).map (w.set s) := by
  unfold dequeue
  rw [hk]
  cases w <;> rfl

end Which

def Loop.Sized (s : Loop) : Prop :=
  s.timers.nelts = s.timers.elts.length ∧ s.realtimers.nelts = s.realtimers.elts.length

theorem sized_set {w : Which} {h : Heap ℕ} (hs : s.Sized) (hh : h.nelts = h.elts.length) : (w.set s h).Sized := by
  cases w
  · exact ⟨hh, hs.2⟩
  · exact ⟨hs.1, hh⟩

theorem nelts_set (w : Which) (s : Loop) (h : Heap ℕ) :
    (w.set s h).timers.nelts + (w.set s h).realtimers.nelts + (w.heap s).nelts =
      s.timers.nelts + s.realtimers.nelts + h.nelts := by
  cases w
  · change h.nelts + s.realtimers.nelts + s.timers.nelts = _
    omega
  · change s.timers.nelts + h.nelts + s.realtimers.nelts = _
    omega

theorem Book.sized (h : Book s) : s.Sized := ⟨h.timers, h.realtimers⟩

theorem Book.heap_nelts (h : Book s) (w : Which) : (w.heap s).nelts = (w.heap s).elts.length := by
  cases w
  · exact h.timers
  · exact h.realtimers

theorem Book.remove (h : Book s) (he : e < s.next) {w : Which} (hk : (s.mem e).kind = w.kind)
    (hd : (s.mem e).destroy = false) :
    ∃ h', (w.heap s).remove s.before e = some h' ∧ (e :: h'.elts).Perm (w.heap s).elts ∧
      h'.nelts + 1 = (w.heap s).nelts ∧ h'.nelts = h'.elts.length := by
  have hin : e ∈ (w.heap s).elts := by
    rw [← Which.parked_kind]
    exact (h.parked w.kind e).mpr ⟨Which.kind_ne_io, he, hk, hd⟩
  have hsize := h.heap_nelts w
  obtain ⟨h', hr, hperm, hn⟩ := Heap.remove_eq_some s.before hin hsize
  have hlen := hperm.length_eq
  rw [List.length_cons] at hlen
  exact ⟨h', hr, hperm, hn, by omega⟩

theorem which_of_kind {k : Kind} (hk : k = .timeout ∨ k = .period) : ∃ w : Which, k = w.kind := by
  rcases hk with rfl | rfl
  · exact ⟨.timers, rfl⟩
  · exact ⟨.realtimers, rfl⟩

theorem Book.unlistTimer (h : Book s) (he : e < s.next) {w : Which} (hk : (s.mem e).kind = w.kind) :
    ∃ t, unlistTimer e s = some t ∧ Book t := by
  by_cases hd : (s.mem e).destroy = true
  · exact ⟨s, if_pos hd, h⟩
  · have hd' := (Bool.not_eq_true _).mp hd
    obtain ⟨h', hr, hperm, hn, hlen⟩ := h.remove he hk hd'
    have hdeq : dequeue e s = some (w.set s h') := by rw [Which.dequeue_eq hk, hr, Option.map_some]
    have hun : Timers.unlistTimer e s =
        some { (w.set s h').modify e (fun ev => { ev with destroy := true }) with ntimers := (w.set s h').ntimers - 1 } := by
      rw [Timers.unlistTimer, if_neg hd, hdeq]
      rfl
    refine ⟨_, hun, ?_⟩
    have hch := unlistTimer_changes hun
    obtain ⟨-, hnt, hni, hidles, hna⟩ := Which.set_eq (w := w) (e := e) s h'
    have hsum := nelts_set w s h'
    have hbook := h.ntimers
    have hsz := sized_set (w := w) h.sized hlen
    refine h.marked he hch rfl rfl (by rw [hk]; exact Which.kind_ne_io) (fun hc => (by cases hc)) (fun k hne => ?_) ?_ hsz.1
      hsz.2 ?_ ?_ hna
    · change k ≠ (s.mem e).kind at hne
      rw [hk] at hne
      exact Which.parked_set_of_ne s h' hne
    · change Moved e true (s.parked (s.mem e).kind) ((w.set s h').parked (s.mem e).kind)
      rw [hk, Which.parked_set_kind]
      refine moved_out (h.nodup w.kind) ?_
      rw [Which.parked_kind]
      exact hperm
    · change (w.set s h').ntimers - 1 = (w.set s h').timers.nelts + (w.set s h').realtimers.nelts
      omega
    · change (w.set s h').nidles = (w.set s h').idles.length
      rw [hni, hidles]
      exact h.nidles

theorem advance_eq (now next : ℕ) (ev : Event) : ∃ n, advance now next ev = { ev with nextTimeout := n } := by
  unfold advance
  split
  · exact ⟨_, rfl⟩
  · exact ⟨_, rfl⟩
  · exact ⟨ev.nextTimeout, rfl⟩
  · exact ⟨ev.nextTimeout, rfl⟩

theorem requeue_advances {w : Which} {now next : ℕ} (h : requeue w now next e s = some t) :
    Changes s t e (advance now next (s.mem e)) := by
  obtain ⟨h', -, rfl⟩ := Option.map_eq_some_iff.mp h
  have h₁ := (Which.set_eq (w := w) (e := e) s h').1
  have h₂ := changes_modify (w.set s h') e (advance now next)
  rw [h₁.self] at h₂
  have h₃ := (Which.set_eq (w := w) (e := e) ((w.set s h').modify e (advance now next))
    ((w.heap ((w.set s h').modify e (advance now next))).insert
      ((w.set s h').modify e (advance now next)).before e)).1
  rw [h₂.self] at h₃
  exact h₁.trans (h₂.trans h₃)

theorem requeue_changes {w : Which} {now next : ℕ} (h : requeue w now next e s = some t) :
    ∃ n, Changes s t e { s.mem e with nextTimeout := n } := by
  obtain ⟨n, hn⟩ := advance_eq now next (s.mem e)
  exact ⟨n, hn ▸ requeue_advances h⟩

theorem Book.reinsert (h : Book s) (he : e < s.next) {w : Which} (hk : (s.mem e).kind = w.kind)
    (hd : (s.mem e).destroy = false) {h' : Heap ℕ} (hperm : (e :: h'.elts).Perm (w.heap s).elts)
    (hn : h'.nelts + 1 = (w.heap s).nelts) {ev : Event} {cmp : ℕ → ℕ → Bool} (hch : Changes s t e ev)
    (hcore : ev.core = (s.mem e).core) (hheap : w.heap t = h'.insert cmp e)
    (hother : ∀ k, k ≠ w.kind → t.parked k = s.parked k) (hntimers : t.ntimers = s.ntimers)
    (hnelts : t.timers.nelts + t.realtimers.nelts = s.timers.nelts + s.realtimers.nelts) (hsized : t.Sized)
    (hnidles : t.nidles = s.nidles) (hnactives : t.nactives = s.nactives) : Book t := by
  obtain ⟨hkind, hdes, hact⟩ := core_eq hcore
  have hlive : e ∉ s.freed := by
    intro hf
    have := (h.freed e hf).2.1
    rw [hd] at this
    cases this
  refine h.marked he hch hkind hact (by rw [hkind, hk]; exact Which.kind_ne_io) (fun _ => hlive) (fun k hne => ?_) ?_
    hsized.1 hsized.2 ?_ ?_ hnactives
  · rw [hkind, hk] at hne
    exact hother k hne
  · rw [hkind, hk, hdes, hd, Which.parked_kind, Which.parked_kind, hheap]
    have hnd := h.nodup w.kind
    rw [Which.parked_kind] at hnd
    have hout := moved_out hnd hperm
    exact hout.trans (moved_in hout.nodup (fun hc => by cases hout.self.mp hc) (Heap.perm_insert ..))
  · rw [hntimers, hnelts]
    exact h.ntimers
  · have hidles : t.idles = s.idles := hother .idle (by cases w <;> decide)
    rw [hnidles, hidles]
    exact h.nidles

theorem nelts_insert {h : Heap ℕ} (cmp : ℕ → ℕ → Bool) (hlen : h.nelts = h.elts.length) (e : ℕ) :
    (h.insert cmp e).nelts = (h.insert cmp e).elts.length := by
  rw [(Heap.perm_insert ..).length_eq, List.length_cons, ← hlen]
  rfl

theorem Book.requeue (h : Book s) (he : e < s.next) {w : Which} (hk : (s.mem e).kind = w.kind)
    (hd : (s.mem e).destroy = false) (now next : ℕ) : ∃ t, requeue w now next e s = some t ∧ Book t := by
  obtain ⟨h', hr, hperm, hn, hlen⟩ := h.remove he hk hd
  cases hreq : Timers.requeue w now next e s with
  | none =>
    rw [Timers.requeue, hr] at hreq
    cases hreq
  | some t =>
    obtain ⟨n, hch⟩ := requeue_changes hreq
    rw [Timers.requeue, hr] at hreq
    cases hreq
    refine ⟨_, rfl, ?_⟩
    cases w with
    | timers =>
      refine h.reinsert he hk hd hperm hn hch rfl rfl (fun k hne => ?_) rfl ?_ ⟨nelts_insert _ hlen e, h.realtimers⟩ rfl rfl
      · cases k with
        | timeout => exact absurd rfl hne
        | period | idle | io => rfl
      · exact congrArg (· + s.realtimers.nelts) hn
    | realtimers =>
      refine h.reinsert he hk hd hperm hn hch rfl rfl (fun k hne => ?_) rfl ?_ ⟨h.timers, nelts_insert _ hlen e⟩ rfl rfl
      · cases k with
        | period => exact absurd rfl hne
        | timeout | idle | io => rfl
      · exact congrArg (s.timers.nelts + ·) hn

/-! ## The calls -/

theorem eventReset_eq (s : Loop) (e : ℕ) :
    eventReset e s = eventActive e (s.modify e fun ev => { ev with destroy := false, pending := false }) := by
  unfold eventReset eventActive
  have h₁ := modify_self s e fun ev => { ev with destroy := false }
  have h₂ := modify_self s e fun ev => { ev with destroy := false, pending := false }
  dsimp only
  rw [h₁, h₂]
  dsimp only
  split_ifs
  · unfold Loop.modify
    simp only [Function.update_self, Function.update_idem]
  · unfold Loop.modify
    simp only [Function.update_self, Function.update_idem]

theorem putBack_timers (s : Loop) (e timeout : ℕ) :
    (∃ cmp, (putBack e timeout s).timers = s.timers.insert cmp e) ∧ (putBack e timeout s).realtimers = s.realtimers ∧
      (putBack e timeout s).idles = s.idles ∧ (putBack e timeout s).ntimers = s.ntimers ∧
      (putBack e timeout s).nidles = s.nidles ∧ (putBack e timeout s).nactives = s.nactives := by
  unfold putBack
  dsimp only
  split_ifs <;> exact ⟨⟨_, rfl⟩, rfl, rfl, rfl, rfl, rfl⟩

theorem Book.restored (h : Book s) (he : e < s.next) (hlive : e ∉ s.freed) (hk : (s.mem e).kind = .timeout) (timeout : ℕ)
    {u : Loop} (hu : Changes s u e (s.mem e)) (hmoved : Moved e true s.timers.elts u.timers.elts)
    (hsize : u.timers.nelts = u.timers.elts.length) (hreal : u.realtimers = s.realtimers) (hidles : u.idles = s.idles)
    (hntimers : u.ntimers = u.timers.nelts + 1 + u.realtimers.nelts) (hnidles : u.nidles = s.nidles)
    (hnactives : u.nactives = s.nactives) : Book (eventReset e (putBack e timeout u)) := by
  obtain ⟨r, m, n, hput⟩ := putBack_changes u e timeout
  obtain ⟨⟨cmp, htimers⟩, hreal', hidles', hnt', hni', hna'⟩ := putBack_timers u e timeout
  have hmod := changes_modify (putBack e timeout u) e fun ev => { ev with destroy := false, pending := false }
  rw [hput.self, hu.self] at hmod
  have hch := (hu.trans hput).trans hmod
  rw [eventReset_eq]
  refine Book.eventActive (h.marked he hch rfl rfl (by rw [hk]; decide) (fun _ => hlive) (fun k hne => ?_) ?_ ?_ ?_ ?_ ?_ ?_)
    (by rw [hch.next]; exact he) (by rw [hch.freed]; exact hlive)
  · change k ≠ (s.mem e).kind at hne
    rw [hk] at hne
    cases k with
    | timeout => exact absurd rfl hne
    | period => exact congrArg Heap.elts (hreal'.trans hreal)
    | idle => exact hidles'.trans hidles
    | io => rfl
  · change Moved e false (s.parked (s.mem e).kind) ((putBack e timeout u).parked (s.mem e).kind)
    rw [hk]
    change Moved e false s.timers.elts (putBack e timeout u).timers.elts
    rw [htimers]
    exact hmoved.trans (moved_in hmoved.nodup (fun hc => by cases hmoved.self.mp hc) (Heap.perm_insert ..))
  · change (putBack e timeout u).timers.nelts = (putBack e timeout u).timers.elts.length
    rw [htimers]
    exact nelts_insert cmp hsize e
  · change (putBack e timeout u).realtimers.nelts = (putBack e timeout u).realtimers.elts.length
    rw [hreal', hreal]
    exact h.realtimers
  · change (putBack e timeout u).ntimers = (putBack e timeout u).timers.nelts + (putBack e timeout u).realtimers.nelts
    rw [hnt', htimers, hreal', hntimers]
    rfl
  · change (putBack e timeout u).nidles = (putBack e timeout u).idles.length
    rw [hni', hidles', hnidles, hidles]
    exact h.nidles
  · exact hna'.trans hnactives

theorem Book.evtimerReset (h : Book s) (he : e < s.next) (hlive : e ∉ s.freed) (timeout : ℕ) :
    ∃ t, evtimerReset e timeout s = some t ∧ Book t := by
  unfold Timers.evtimerReset
  split_ifs with hk
  · have hsum := h.ntimers
    unfold rearm
    by_cases hd : (s.mem e).destroy = true
    · rw [if_pos hd]
      refine ⟨_, rfl, h.restored he hlive hk timeout ?_ ?_ h.timers rfl rfl ?_ rfl rfl⟩
      · exact ⟨(Function.update_eq_self e s.mem).symm, rfl, rfl, rfl, rfl, rfl⟩
      · refine ⟨h.nodup .timeout, fun _ _ => Iff.rfl, iff_of_false (fun hc => ?_) (by decide)⟩
        have := ((h.parked .timeout e).mp hc).2.2.2
        rw [hd] at this
        cases this
      · change s.ntimers + 1 = s.timers.nelts + 1 + s.realtimers.nelts
        omega
    · obtain ⟨h', hr, hperm, hn, hlen⟩ := h.remove (w := .timers) he hk ((Bool.not_eq_true _).mp hd)
      change s.timers.remove s.before e = some h' at hr
      change h'.nelts + 1 = s.timers.nelts at hn
      rw [if_neg hd, hr]
      refine ⟨_, rfl, h.restored he hlive hk timeout ?_ (moved_out (h.nodup .timeout) hperm) hlen rfl rfl ?_ rfl rfl⟩
      · exact ⟨(Function.update_eq_self e s.mem).symm, rfl, rfl, rfl, rfl, rfl⟩
      · change s.ntimers = h'.nelts + 1 + s.realtimers.nelts
        omega
  · exact ⟨s, rfl, h⟩

theorem Book.evtimerDel (h : Book s) (he : e < s.next) {w : Which} (hk : (s.mem e).kind = w.kind) :
    ∃ t, evtimerDel e s = some t ∧ Book t := by
  unfold Timers.evtimerDel
  split_ifs
  · obtain ⟨t, ht, hb⟩ := h.unlistTimer he hk
    have hch := unlistTimer_changes ht
    refine ⟨_, by rw [ht, Option.map_some], hb.eventDel (by rw [hch.next]; exact he) ?_⟩
    rw [hch.self]
  · exact ⟨s, rfl, h⟩

theorem Book.evidleDel (h : Book s) (he : e < s.next) (hk : (s.mem e).kind = .idle) : Book (evidleDel e s) := by
  unfold Timers.evidleDel
  split_ifs
  · have hch := unlistIdle_changes s e
    exact (h.unlistIdle he hk).eventDel (by rw [hch.next]; exact he) (by rw [hch.self])
  · exact h

/-! ## New events -/

/-- An event gets the next address and is not active yet. -/
structure Allocs (s t : Loop) (ev : Event) : Prop where
  mem : t.mem = Function.update s.mem s.next ev
  next : t.next = s.next + 1
  nactives : t.nactives = s.nactives
  freed : t.freed = s.freed
  active : ev.active = false

theorem Allocs.self {ev : Event} (h : Allocs s t ev) : t.mem s.next = ev := by rw [h.mem, Function.update_self]

theorem Allocs.of_ne {ev : Event} (h : Allocs s t ev) (hne : e ≠ s.next) : t.mem e = s.mem e := by
  rw [h.mem, Function.update_of_ne hne]

theorem Allocs.actives {ev : Event} (h : Allocs s t ev) : t.actives = s.actives := by
  ext x
  rw [mem_actives, mem_actives, h.next]
  rcases eq_or_ne x s.next with rfl | hne
  · rw [h.self, h.active]
    exact iff_of_false (fun hc => by cases hc.2) fun hc => Nat.lt_irrefl _ hc.1
  · rw [h.of_ne hne]
    exact and_congr_left fun _ => by omega

theorem Book.allocs (h : Book s) {ev : Event} (ha : Allocs s t ev)
    (hparked : (∀ k x, x ∈ t.parked k ↔ k ≠ .io ∧ x < t.next ∧ (t.mem x).kind = k ∧ (t.mem x).destroy = false) ∧
      ∀ k, (t.parked k).Nodup)
    (htimers : t.timers.nelts = t.timers.elts.length) (hrealtimers : t.realtimers.nelts = t.realtimers.elts.length)
    (hntimers : t.ntimers = t.timers.nelts + t.realtimers.nelts) (hnidles : t.nidles = t.idles.length) : Book t := by
  refine ⟨hparked.1, hparked.2, htimers, hrealtimers, hntimers, hnidles, ?_, fun x hx => ?_⟩
  · rw [ha.nactives, ha.actives]
    exact h.nactives
  · rw [ha.freed] at hx
    obtain ⟨hlt, hd, hact⟩ := h.freed x hx
    rw [ha.of_ne (Nat.ne_of_lt hlt), ha.next]
    exact ⟨Nat.lt_succ_of_lt hlt, hd, hact⟩

theorem Book.next_notMem_parked (h : Book s) (k : Kind) : s.next ∉ s.parked k :=
  fun hc => Nat.lt_irrefl _ ((h.parked k s.next).mp hc).2.1

theorem Book.parked_new (h : Book s) {ev : Event} (ha : Allocs s t ev) (hio : ev.kind ≠ .io) (hd : ev.destroy = false)
    (hother : ∀ k, k ≠ ev.kind → t.parked k = s.parked k)
    (hperm : (t.parked ev.kind).Perm (s.next :: s.parked ev.kind)) :
    (∀ k x, x ∈ t.parked k ↔ k ≠ .io ∧ x < t.next ∧ (t.mem x).kind = k ∧ (t.mem x).destroy = false) ∧
      ∀ k, (t.parked k).Nodup := by
  have hself := ha.self
  refine h.moved (e := s.next) (by rw [ha.next]; exact Nat.lt_succ_self _) (fun x hx => by rw [ha.next]; omega)
    (fun x hx => by rw [ha.of_ne hx]; exact ⟨rfl, rfl⟩) (fun hc => absurd hc (Nat.lt_irrefl _)) (by rw [hself]; exact hio)
    (by rw [hself]; exact hother) ?_
  rw [hself, hd]
  exact moved_in (h.nodup ev.kind) (h.next_notMem_parked ev.kind) hperm

theorem Book.activate (h : Book s) {ev : Event} (ha : Allocs s t ev) (hb : Book t) : Book (Timers.eventActive s.next t) := by
  refine hb.eventActive (by rw [ha.next]; exact Nat.lt_succ_self _) fun hf => ?_
  rw [ha.freed] at hf
  exact Nat.lt_irrefl _ (h.freed _ hf).1

theorem eventActive_ntimers (s : Loop) (e n : ℕ) : { eventActive e s with ntimers := n } = eventActive e { s with ntimers := n } := by
  unfold eventActive
  dsimp only
  split_ifs <;> rfl

theorem eventActive_nidles (s : Loop) (e n : ℕ) : { eventActive e s with nidles := n } = eventActive e { s with nidles := n } := by
  unfold eventActive
  dsimp only
  split_ifs <;> rfl

theorem eventActive_counts (s : Loop) (e : ℕ) :
    (eventActive e s).ntimers = s.ntimers ∧ (eventActive e s).nidles = s.nidles := by
  unfold eventActive
  split_ifs <;> exact ⟨rfl, rfl⟩

theorem Book.evtimerAdd (h : Book s) (hrtime timeout repeats : ℕ) (cb : Bool) :
    Book (evtimerAdd hrtime timeout repeats cb s) := by
  unfold Timers.evtimerAdd
  split_ifs
  · exact h
  · dsimp only
    rw [eventActive_ntimers, (eventActive_counts _ _).1]
    refine h.activate ⟨rfl, rfl, rfl, rfl, rfl⟩ (h.allocs ⟨rfl, rfl, rfl, rfl, rfl⟩ ?_ ?_ h.realtimers ?_ h.nidles)
    · refine h.parked_new ⟨rfl, rfl, rfl, rfl, rfl⟩ (fun hc => by cases hc) rfl (fun k hk => ?_) (Heap.perm_insert ..)
      cases k with
      | timeout => exact absurd rfl hk
      | period | idle | io => rfl
    · exact nelts_insert _ h.timers _
    · have hsum := h.ntimers
      change s.ntimers + 1 = s.timers.nelts + 1 + s.realtimers.nelts
      omega

theorem Book.evtimerAddPeriod (h : Book s) (minute hour day week month : ℤ) (next repeats : ℕ) (cb : Bool) :
    Book (evtimerAddPeriod minute hour day week month next repeats cb s) := by
  unfold Timers.evtimerAddPeriod
  split_ifs
  · exact h
  · dsimp only
    rw [eventActive_ntimers, (eventActive_counts _ _).1]
    refine h.activate ⟨rfl, rfl, rfl, rfl, rfl⟩ (h.allocs ⟨rfl, rfl, rfl, rfl, rfl⟩ ?_ h.timers ?_ ?_ h.nidles)
    · refine h.parked_new ⟨rfl, rfl, rfl, rfl, rfl⟩ (fun hc => by cases hc) rfl (fun k hk => ?_) (Heap.perm_insert ..)
      cases k with
      | period => exact absurd rfl hk
      | timeout | idle | io => rfl
    · exact nelts_insert _ h.realtimers _
    · have hsum := h.ntimers
      change s.ntimers + 1 = s.timers.nelts + (s.realtimers.nelts + 1)
      omega

theorem Book.evidleAdd (h : Book s) (repeats : ℕ) (cb : Bool) : Book (evidleAdd repeats cb s) := by
  unfold Timers.evidleAdd
  dsimp only
  rw [eventActive_nidles, (eventActive_counts _ _).2]
  refine h.activate ⟨rfl, rfl, rfl, rfl, rfl⟩ (h.allocs ⟨rfl, rfl, rfl, rfl, rfl⟩ ?_ h.timers h.realtimers h.ntimers ?_)
  · refine h.parked_new ⟨rfl, rfl, rfl, rfl, rfl⟩ (fun hc => by cases hc) rfl (fun k hk => ?_) .rfl
    cases k with
    | idle => exact absurd rfl hk
    | timeout | period | io => rfl
  · exact congrArg (· + 1) h.nidles

theorem Book.evioGet (h : Book s) {ev : Event} (hio : ev.kind = .io) (hact : ev.active = false) : Book (s.alloc ev) := by
  have ha : Allocs s (s.alloc ev) ev := ⟨rfl, rfl, rfl, rfl, hact⟩
  refine h.allocs ha ⟨fun k x => ?_, h.nodup⟩ h.timers h.realtimers h.ntimers h.nidles
  rcases eq_or_ne x s.next with rfl | hne
  · rw [ha.self, hio]
    exact iff_of_false (h.next_notMem_parked k) fun hc => hc.1 hc.2.2.1.symm
  · rw [ha.of_ne hne, ha.next]
    refine (h.parked k x).trans (and_congr_right fun _ => and_congr_left fun _ => ?_)
    omega

end Yjc.Timers
