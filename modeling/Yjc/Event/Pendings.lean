import Yjc.Event.Counters
import Yjc.Lib.Links

/-! The lists that `evloop_process_pendings` goes through and what is freed under it. -/

namespace Yjc.Timers
open Timers.Loop Links

namespace Loop

def link (s : Loop) (e : ℕ) : Option ℕ := (s.mem e).pendingNext

/-- The lists from `j` down, the first of them from `cur` on. -/
def remaining (s : Loop) (j : ℕ) (cur : Option ℕ) (i : ℕ) : Option ℕ :=
  if i = j then cur else if i < j then s.pendings i else none

/-- The pointer from which `evloop_process_pendings` has still to go through the list `i`. -/
def position (s : Loop) : ℕ → Option ℕ :=
  match s.phase with
  | .out => s.pendings
  | .walk j cur => s.remaining j cur
  | .cb j cur _ => s.remaining j (some cur)

/-- The event is linked at or after the position of `evloop_process_pendings`. -/
def Ahead (s : Loop) (e : ℕ) : Prop := ∃ i, Reaches s.link (s.position i) e

theorem position_out {s : Loop} (h : s.phase = .out) : s.position = s.pendings := by rw [position, h]

theorem position_walk {s : Loop} {j : ℕ} {cur : Option ℕ} (h : s.phase = .walk j cur) : s.position = s.remaining j cur := by
  rw [position, h]

theorem position_cb {s : Loop} {j cur : ℕ} {next : Option ℕ} (h : s.phase = .cb j cur next) :
    s.position = s.remaining j (some cur) := by rw [position, h]

theorem remaining_self (s : Loop) (j : ℕ) (cur : Option ℕ) : s.remaining j cur j = cur := if_pos rfl

theorem remaining_of_ne {s t : Loop} {i j : ℕ} {cur cur' : Option ℕ} (hne : i ≠ j) (h : t.pendings = s.pendings) :
    t.remaining j cur' i = s.remaining j cur i := by
  rw [remaining, remaining, if_neg hne, if_neg hne, h]

theorem position_congr {s t : Loop} (hphase : t.phase = s.phase) (hpendings : t.pendings = s.pendings) :
    t.position = s.position := by
  unfold position remaining
  rw [hphase, hpendings]

theorem link_update {s t : Loop} {e : ℕ} {ev : Event} (hmem : t.mem = Function.update s.mem e ev)
    (hlink : ev.pendingNext = (s.mem e).pendingNext) : t.link = s.link := by
  funext x
  rw [link, link, hmem]
  rcases eq_or_ne x e with rfl | hx
  · rw [Function.update_self, hlink]
  · rw [Function.update_of_ne hx]

/-- The lists above the one that is gone through are empty, and a callback has not changed the link of its event. -/
def Behind (s : Loop) : Prop :=
  match s.phase with
  | .out => True
  | .walk i _ => ∀ j, i < j → s.pendings j = none
  | .cb i cur next => next = s.link cur ∧ ∀ j, i < j → s.pendings j = none

end Loop

/-- The events ahead are those of the lists `l`. What is pending is among them, and what is among them and not
pending is a timer that a callback has reset. -/
structure Pend (s : Loop) (l : ℕ → List ℕ) : Prop where
  spells : ∀ i, Spells s.link (s.position i) (l i)
  nodup : ∀ i, (l i).Nodup
  priority : ∀ i, ∀ e ∈ l i, ((s.mem e).priority : ℕ) = i
  lt : ∀ i, ∀ e ∈ l i, e < s.next
  listed : ∀ e, (s.mem e).pending = true → e ∈ l (s.mem e).priority
  pending : ∀ i, ∀ e ∈ l i, s.phase = .out ∨ (s.mem e).kind ≠ .timeout → (s.mem e).pending = true
  live : ∀ i, ∀ e ∈ l i, e ∉ s.freed
  freed : s.freed.Nodup
  destroyed : ∀ e, (s.mem e).destroy = true → e ∈ s.freed ∨ (s.mem e).pending = true
  io : ∀ e, (s.mem e).kind = .io → (s.mem e).destroy = false
  npendings : s.phase = .out → s.npendings = 0 → ∀ i, s.pendings i = none
  behind : s.Behind

variable {s t : Loop} {l : ℕ → List ℕ} {e : ℕ} {ev : Event}

theorem Pend.ahead_iff (h : Pend s l) : s.Ahead e ↔ ∃ i, e ∈ l i :=
  exists_congr fun i => (h.spells i).reaches_iff

theorem Pend.updated (h : Pend s l) (hmem : t.mem = Function.update s.mem e ev) (hnext : t.next = s.next)
    (hpendings : t.pendings = s.pendings) (hnpendings : t.npendings = s.npendings) (hphase : t.phase = s.phase)
    (hprio : ev.priority = (s.mem e).priority) (hkind : ev.kind = (s.mem e).kind)
    (hlink : ev.pendingNext = (s.mem e).pendingNext)
    (hpend : ev.pending = (s.mem e).pending ∨ ev.pending = false ∧ s.phase ≠ .out ∧ ev.kind = .timeout)
    (hdestroy : ev.destroy = true → e ∈ t.freed ∨ ev.pending = true) (hio : ev.kind = .io → ev.destroy = false)
    (hfreed : ∀ x ∈ s.freed, x ∈ t.freed) (hnodup : t.freed.Nodup) (hlive : ∀ i, ∀ x ∈ l i, x ∉ t.freed) : Pend t l := by
  have hself : t.mem e = ev := by rw [hmem, Function.update_self]
  have hne : ∀ x, x ≠ e → t.mem x = s.mem x := by
    intro x hx
    rw [hmem, Function.update_of_ne hx]
  have hlinks := link_update hmem hlink
  have hprios : ∀ x, (t.mem x).priority = (s.mem x).priority := by
    intro x
    rcases eq_or_ne x e with rfl | hx
    · rw [hself, hprio]
    · rw [hne x hx]
  refine ⟨fun i => ?_, h.nodup, fun i x hx => ?_, fun i x hx => ?_, fun x hx => ?_, fun i x hx hc => ?_, hlive, hnodup,
    fun x hx => ?_, fun x hx => ?_, ?_, ?_⟩
  · rw [hlinks, position_congr hphase hpendings]
    exact h.spells i
  · rw [hprios]
    exact h.priority i x hx
  · rw [hnext]
    exact h.lt i x hx
  · rw [hprios]
    rcases eq_or_ne x e with rfl | hxe
    · rw [hself] at hx
      rcases hpend with hsame | ⟨hoff, -⟩
      · exact h.listed x (hsame ▸ hx)
      · rw [hoff] at hx
        cases hx
    · rw [hne x hxe] at hx
      exact h.listed x hx
  · rw [hphase] at hc
    rcases eq_or_ne x e with rfl | hxe
    · rw [hself] at hc ⊢
      rcases hpend with hsame | ⟨-, hin, htimeout⟩
      · rw [hkind] at hc
        rw [hsame]
        exact h.pending i x hx hc
      · exact absurd hc (not_or.mpr ⟨hin, not_not.mpr htimeout⟩)
    · rw [hne x hxe] at hc ⊢
      exact h.pending i x hx hc
  · rcases eq_or_ne x e with rfl | hxe
    · rw [hself] at hx ⊢
      exact hdestroy hx
    · rw [hne x hxe] at hx ⊢
      exact (h.destroyed x hx).imp_left (hfreed x)
  · rcases eq_or_ne x e with rfl | hxe
    · rw [hself] at hx ⊢
      exact hio hx
    · rw [hne x hxe] at hx ⊢
      exact h.io x hx
  · rw [hphase, hnpendings, hpendings]
    exact h.npendings
  · have hb := h.behind
    unfold Behind at hb ⊢
    rw [hphase, hlinks, hpendings]
    exact hb

theorem Pend.changes (h : Pend s l) (hch : Changes s t e ev) (hprio : ev.priority = (s.mem e).priority)
    (hkind : ev.kind = (s.mem e).kind) (hlink : ev.pendingNext = (s.mem e).pendingNext)
    (hpend : ev.pending = (s.mem e).pending ∨ ev.pending = false ∧ s.phase ≠ .out ∧ ev.kind = .timeout)
    (hdestroy : ev.destroy = true → e ∈ s.freed ∨ ev.pending = true) (hio : ev.kind = .io → ev.destroy = false) :
    Pend t l := by
  have hfreed := hch.freed
  refine h.updated hch.mem hch.next hch.pendings hch.npendings hch.phase hprio hkind hlink hpend ?_ hio ?_ ?_ ?_
  · rw [hfreed]
    exact hdestroy
  · rw [hfreed]
    exact fun _ hx => hx
  · rw [hfreed]
    exact h.freed
  · rw [hfreed]
    exact h.live

theorem Pend.eventActive (h : Pend s l) (e : ℕ) : Pend (eventActive e s) l :=
  h.changes (eventActive_changes s e) rfl rfl rfl (.inl rfl) (h.destroyed e) (h.io e)

structure Alike (ev ev' : Event) : Prop where
  priority : ev'.priority = ev.priority
  kind : ev'.kind = ev.kind
  link : ev'.pendingNext = ev.pendingNext
  pending : ev'.pending = ev.pending

theorem Pend.eventDel (h : Pend s l) {u : Loop} (hch : Changes s u e ev) (hlike : Alike (s.mem e) ev) (hio : ev.kind ≠ .io)
    (hlive : e ∉ s.freed) (hfree : (s.mem e).pending = false → ∀ i, e ∉ l i) : Pend (eventDel e u) l := by
  obtain ⟨hprio, hkind, hlink, hpend⟩ := hlike
  have hdel := eventInactive_changes u e
  rw [hch.self] at hdel
  have hall := hch.trans hdel
  unfold Timers.eventDel
  dsimp only
  rw [hdel.self]
  split_ifs with hp
  · exact h.changes hall hprio hkind hlink (.inl hpend) (fun _ => .inr hp) fun hc => absurd hc hio
  · have hoff : (s.mem e).pending = false := hpend ▸ (Bool.not_eq_true _).mp hp
    have hfreed := hall.freed
    refine h.updated hall.mem hall.next hall.pendings hall.npendings hall.phase hprio hkind hlink (.inl hpend)
      (fun _ => .inl ?_) (fun hc => absurd hc hio) (fun x hx => ?_) ?_ fun i x hx => ?_
    · exact List.mem_append_right _ (List.mem_singleton_self e)
    · change x ∈ (eventInactive e u).freed ++ [e]
      rw [hfreed]
      exact List.mem_append_left _ hx
    · change ((eventInactive e u).freed ++ [e]).Nodup
      rw [hfreed, ← List.concat_eq_append]
      exact h.freed.concat hlive
    · change x ∉ (eventInactive e u).freed ++ [e]
      rw [hfreed, List.mem_append, List.mem_singleton]
      rintro (hx' | rfl)
      · exact h.live i x hx hx'
      · exact hfree hoff i hx

theorem Pend.head (h : Pend s l) {i c : ℕ} (hpos : s.position i = some c) :
    ∃ rest, l i = c :: rest ∧ Spells s.link (s.link c) rest := by
  have hsp := h.spells i
  rw [hpos] at hsp
  exact hsp.of_some

theorem Pend.creates (h : Pend s l) (hnew : Creates s t ev) : Pend t l := by
  obtain ⟨hmem, hnext, hpendings, hnpendings, hphase, hfreed, -, hpend, hdestroy⟩ := hnew
  have hself : t.mem s.next = ev := by rw [hmem, Function.update_self]
  have hne : ∀ x, x ≠ s.next → t.mem x = s.mem x := by
    intro x hx
    rw [hmem, Function.update_of_ne hx]
  have hold : ∀ i, ∀ x ∈ l i, t.mem x = s.mem x := fun i x hx => hne x (Nat.ne_of_lt (h.lt i x hx))
  refine ⟨fun i => ?_, h.nodup, fun i x hx => ?_, fun i x hx => ?_, fun x hx => ?_, fun i x hx hc => ?_, ?_, ?_,
    fun x hx => ?_, fun x hx => ?_, ?_, ?_⟩
  · rw [position_congr hphase hpendings]
    exact (h.spells i).congr fun x hx => congrArg Event.pendingNext (hold i x hx)
  · rw [hold i x hx]
    exact h.priority i x hx
  · rw [hnext]
    exact Nat.lt_succ_of_lt (h.lt i x hx)
  · rcases eq_or_ne x s.next with rfl | hxe
    · rw [hself, hpend] at hx
      cases hx
    · rw [hne x hxe] at hx ⊢
      exact h.listed x hx
  · rw [hold i x hx] at hc ⊢
    rw [hphase] at hc
    exact h.pending i x hx hc
  · rw [hfreed]
    exact h.live
  · rw [hfreed]
    exact h.freed
  · rw [hfreed]
    rcases eq_or_ne x s.next with rfl | hxe
    · rw [hself, hdestroy] at hx
      cases hx
    · rw [hne x hxe] at hx ⊢
      exact h.destroyed x hx
  · rcases eq_or_ne x s.next with rfl | hxe
    · rw [hself]
      exact hdestroy
    · rw [hne x hxe] at hx ⊢
      exact h.io x hx
  · rw [hphase, hnpendings, hpendings]
    exact h.npendings
  · have hb := h.behind
    unfold Behind at hb ⊢
    rw [hphase, hpendings]
    cases hph : s.phase with
    | out => trivial
    | walk i cur =>
      rw [hph] at hb
      exact hb
    | cb i cur next =>
      rw [hph] at hb
      obtain ⟨rest, hl, -⟩ := h.head (i := i) (by rw [position_cb hph, remaining_self])
      refine ⟨?_, hb.2⟩
      rw [hb.1, link, link, hold i cur (by rw [hl]; exact List.mem_cons_self)]

/-! ## Making an event pending -/

theorem Pend.pushed (h : Pend s l) (hmem : t.mem = Function.update s.mem e ev) (hnext : t.next = s.next)
    (hpendings : t.pendings = Function.update s.pendings ev.priority (some e)) (hnpendings : t.npendings ≠ 0)
    (hfreed : t.freed = s.freed) (hout : s.phase = .out) (hphase : t.phase = .out)
    (hlink : ev.pendingNext = s.pendings ev.priority) (hpend : ev.pending = true)
    (hio : ev.kind = .io → ev.destroy = false) (hlt : e < s.next) (hlive : e ∉ s.freed) (hnot : ∀ i, e ∉ l i) :
    Pend t (Function.update l ev.priority (e :: l ev.priority)) := by
  have hself : t.mem e = ev := by rw [hmem, Function.update_self]
  have hne : ∀ x, x ≠ e → t.mem x = s.mem x := by
    intro x hx
    rw [hmem, Function.update_of_ne hx]
  have hold : ∀ i, ∀ x ∈ l i, t.mem x = s.mem x := fun i x hx => hne x fun hc => hnot i (hc ▸ hx)
  refine ⟨fun i => ?_, fun i => ?_, fun i x hx => ?_, fun i x hx => ?_, fun x hx => ?_, fun i x hx _ => ?_,
    fun i x hx => ?_, ?_, fun x hx => ?_, fun x hx => ?_, fun _ hc => absurd hc hnpendings, ?_⟩
  · have hsp := h.spells i
    rw [position_out hout] at hsp
    have hrest := hsp.congr (n := t.link) fun x hx => congrArg Event.pendingNext (hold i x hx)
    rw [position_out hphase, hpendings]
    rcases eq_or_ne i (ev.priority : ℕ) with rfl | hi
    · rw [Function.update_self, Function.update_self]
      refine ⟨rfl, ?_⟩
      rw [link, hself, hlink]
      exact hrest
    · rw [Function.update_of_ne hi, Function.update_of_ne hi]
      exact hrest
  · rcases eq_or_ne i (ev.priority : ℕ) with rfl | hi
    · rw [Function.update_self]
      exact List.nodup_cons.mpr ⟨hnot _, h.nodup _⟩
    · rw [Function.update_of_ne hi]
      exact h.nodup i
  · rcases mem_update_cons.mp hx with ⟨rfl, rfl⟩ | hx
    · rw [hself]
    · rw [hold i x hx]
      exact h.priority i x hx
  · rw [hnext]
    rcases mem_update_cons.mp hx with ⟨rfl, rfl⟩ | hx
    · exact hlt
    · exact h.lt i x hx
  · rw [mem_update_cons]
    rcases eq_or_ne x e with rfl | hxe
    · exact .inl ⟨by rw [hself], rfl⟩
    · rw [hne x hxe] at hx ⊢
      exact .inr (h.listed x hx)
  · rcases mem_update_cons.mp hx with ⟨rfl, rfl⟩ | hx
    · rw [hself]
      exact hpend
    · rw [hold i x hx]
      exact h.pending i x hx (.inl hout)
  · rw [hfreed]
    rcases mem_update_cons.mp hx with ⟨rfl, rfl⟩ | hx
    · exact hlive
    · exact h.live i x hx
  · rw [hfreed]
    exact h.freed
  · rw [hfreed]
    rcases eq_or_ne x e with rfl | hxe
    · rw [hself]
      exact .inr hpend
    · rw [hne x hxe] at hx ⊢
      exact h.destroyed x hx
  · rcases eq_or_ne x e with rfl | hxe
    · rw [hself] at hx ⊢
      exact hio hx
    · rw [hne x hxe] at hx ⊢
      exact h.io x hx
  · unfold Behind
    rw [hphase]
    trivial

theorem Pend.eventPending (h : Pend s l) (hch : Changes s t e ev) (hlike : Alike (s.mem e) ev)
    (hio : ev.kind = .io → ev.destroy = false) (hout : s.phase = .out) (hlt : e < s.next) (hlive : e ∉ s.freed) :
    ∃ l', Pend (eventPending e t) l' := by
  obtain ⟨hprio, hkind, hlink, hpend⟩ := hlike
  unfold Timers.eventPending
  rw [hch.self]
  split_ifs with hp
  · exact ⟨l, h.changes hch hprio hkind hlink (.inl hpend) (fun _ => .inr hp) hio⟩
  · have hnot : ∀ i, e ∉ l i := by
      intro i hi
      apply hp
      rw [hpend]
      exact h.pending i e hi (.inl hout)
    have hmod := hch.trans (changes_modify t e fun ev' =>
      { ev' with pending := true, pendingNext := t.pendings ev.priority })
    rw [hch.self] at hmod
    refine ⟨_, h.pushed hmod.mem hch.next ?_ (Nat.succ_ne_zero t.npendings) hch.freed hout (hch.phase.trans hout) ?_ rfl
      hio hlt hlive hnot⟩
    · exact congrArg (Function.update · _ _) hch.pendings
    · exact congrFun hch.pendings _

/-! ## Walking -/

theorem Pend.moved (h : Pend s l) (hmem : t.mem = s.mem) (hnext : t.next = s.next) (hfreed : t.freed = s.freed)
    (hposition : t.position = s.position) (hphase : t.phase = .out → ∀ i, l i = [])
    (hnpendings : t.phase = .out → t.npendings = 0 → ∀ i, t.pendings i = none) (hbehind : t.Behind) : Pend t l := by
  have hlink : t.link = s.link := by
    funext x
    rw [link, link, hmem]
  refine ⟨?_, h.nodup, ?_, ?_, ?_, fun i x hx hc => ?_, ?_, ?_, ?_, ?_, hnpendings, hbehind⟩
  · rw [hlink, hposition]
    exact h.spells
  · rw [hmem]
    exact h.priority
  · rw [hnext]
    exact h.lt
  · rw [hmem]
    exact h.listed
  · rw [hmem] at hc ⊢
    rcases hc with hout | hk
    · rw [hphase hout i] at hx
      cases hx
    · exact h.pending i x hx (.inr hk)
  · rw [hfreed]
    exact h.live
  · rw [hfreed]
    exact h.freed
  · rw [hmem, hfreed]
    exact h.destroyed
  · rw [hmem]
    exact h.io

theorem Pend.passed (h : Pend s l) {i c : ℕ} (hposition : s.position = s.remaining i (some c))
    (hmem : t.mem = Function.update s.mem c ev) (hnext : t.next = s.next) (hpendings : t.pendings = s.pendings)
    (hphase : t.phase = .walk i (s.link c)) (hprio : ev.priority = (s.mem c).priority) (hkind : ev.kind = (s.mem c).kind)
    (hlink : ev.pendingNext = (s.mem c).pendingNext) (hpend : ev.pending = false)
    (hdestroy : ev.destroy = (s.mem c).destroy) (habove : ∀ j, i < j → s.pendings j = none)
    (hfreed : t.freed = if ev.destroy = true then s.freed ++ [c] else s.freed) :
    ∃ rest, l i = c :: rest ∧ Pend t (Function.update l i rest) := by
  obtain ⟨rest, hl, hrest⟩ := h.head (i := i) (c := c) (by rw [hposition, remaining_self])
  have hcl : c ∉ s.freed := h.live i c (by rw [hl]; exact List.mem_cons_self)
  have hci := h.priority i c (by rw [hl]; exact List.mem_cons_self)
  have hself : t.mem c = ev := by rw [hmem, Function.update_self]
  have hne : ∀ x, x ≠ c → t.mem x = s.mem x := by
    intro x hx
    rw [hmem, Function.update_of_ne hx]
  have hrests : ∀ j x, x ∈ Function.update l i rest j ↔ x ∈ l j ∧ x ≠ c := fun j x =>
    mem_update_tail hl (h.nodup i) fun j hj => (h.priority j c hj).symm.trans hci
  have hmemfreed : ∀ x, x ∈ t.freed ↔ x ∈ s.freed ∨ ev.destroy = true ∧ x = c := by
    intro x
    rw [hfreed]
    split_ifs with hd
    · rw [List.mem_append, List.mem_singleton, and_iff_right hd]
    · rw [or_iff_left fun hc => hd hc.1]
  refine ⟨rest, hl, fun j => ?_, fun j => ?_, fun j x hx => ?_, fun j x hx => ?_, fun x hx => ?_,
    fun j x hx hc => ?_, fun j x hx => ?_, ?_, fun x hx => ?_, fun x hx => ?_, fun hc => ?_, ?_⟩
  · rw [position_walk hphase, link_update hmem hlink]
    rcases eq_or_ne j i with rfl | hj
    · rw [remaining_self, Function.update_self]
      exact hrest
    · have hsp := h.spells j
      rw [hposition] at hsp
      rw [remaining_of_ne hj hpendings, Function.update_of_ne hj]
      exact hsp
  · rcases eq_or_ne j i with rfl | hj
    · have hnd := h.nodup j
      rw [hl] at hnd
      rw [Function.update_self]
      exact hnd.of_cons
    · rw [Function.update_of_ne hj]
      exact h.nodup j
  · obtain ⟨hx, hxc⟩ := (hrests j x).mp hx
    rw [hne x hxc]
    exact h.priority j x hx
  · rw [hnext]
    exact h.lt j x ((hrests j x).mp hx).1
  · rcases eq_or_ne x c with rfl | hxc
    · rw [hself, hpend] at hx
      cases hx
    · rw [hne x hxc] at hx ⊢
      exact (hrests _ x).mpr ⟨h.listed x hx, hxc⟩
  · obtain ⟨hx, hxc⟩ := (hrests j x).mp hx
    rw [hphase] at hc
    rw [hne x hxc] at hc ⊢
    exact h.pending j x hx (.inr (hc.resolve_left fun hc => by cases hc))
  · obtain ⟨hx, hxc⟩ := (hrests j x).mp hx
    rw [hmemfreed]
    rintro (hf | ⟨-, rfl⟩)
    · exact h.live j x hx hf
    · exact hxc rfl
  · rw [hfreed]
    split_ifs
    · rw [← List.concat_eq_append]
      exact h.freed.concat hcl
    · exact h.freed
  · rw [hmemfreed]
    rcases eq_or_ne x c with rfl | hxc
    · rw [hself] at hx
      exact .inl (.inr ⟨hx, rfl⟩)
    · rw [hne x hxc] at hx ⊢
      exact (h.destroyed x hx).imp_left .inl
  · rcases eq_or_ne x c with rfl | hxc
    · rw [hself, hkind] at hx
      rw [hself, hdestroy]
      exact h.io x hx
    · rw [hne x hxc] at hx ⊢
      exact h.io x hx
  · rw [hphase] at hc
    cases hc
  · unfold Behind
    rw [hphase, hpendings]
    exact habove

theorem Pend.finish (h : Pend s l) {i c : ℕ} (hposition : s.position = s.remaining i (some c))
    (habove : ∀ j, i < j → s.pendings j = none) :
    ∃ rest, l i = c :: rest ∧ Pend (finish i c (s.link c) s) (Function.update l i rest) := by
  have hmod := changes_modify s c fun ev => { ev with pending := false }
  unfold Timers.finish
  dsimp only
  rw [hmod.self]
  split_ifs with hd
  · have hin := eventInactive_changes (s.modify c fun ev => { ev with pending := false }) c
    rw [hmod.self] at hin
    have hall := hmod.trans hin
    unfold Timers.eventDel
    dsimp only
    rw [hin.self, if_neg (by exact Bool.false_ne_true)]
    refine h.passed hposition hall.mem hall.next hall.pendings rfl rfl rfl rfl rfl rfl habove ?_
    rw [if_pos hd]
    exact congrArg (· ++ [c]) hall.freed
  · refine h.passed hposition hmod.mem hmod.next hmod.pendings rfl rfl rfl rfl rfl rfl habove ?_
    rw [if_neg hd]
    rfl

theorem Pend.above (h : Pend s l) {i : ℕ} {cur : Option ℕ} (hphase : s.phase = .walk i cur) :
    ∀ j, i < j → s.pendings j = none := by
  have hb := h.behind
  rw [Behind, hphase] at hb
  exact hb

theorem Pend.visit_none (h : Pend s l) {i : ℕ} (hphase : s.phase = .walk i none) : Pend (visit i none s) l := by
  have habove := h.above hphase
  have hposition := position_walk hphase
  cases i with
  | zero =>
    have hnone : ∀ j, Function.update s.pendings 0 none j = none := by
      intro j
      rcases Nat.eq_zero_or_pos j with rfl | hj
      · exact Function.update_self ..
      · rw [Function.update_of_ne (Nat.ne_of_gt hj)]
        exact habove j hj
    have hempty : ∀ j, s.position j = none := by
      intro j
      rw [hposition, remaining]
      split_ifs
      · rfl
      · contradiction
      · rfl
    refine h.moved rfl rfl rfl (funext fun j => (hnone j).trans (hempty j).symm) (fun _ j => ?_) (fun _ _ => hnone) trivial
    have hsp := h.spells j
    rw [hempty] at hsp
    exact spells_none.mp hsp
  | succ i =>
    refine h.moved rfl rfl rfl (funext fun j => ?_) (fun hc => (by cases hc)) (fun hc => (by cases hc)) fun j hj => ?_
    · rw [hposition, position_walk rfl]
      unfold remaining
      dsimp only
      rcases lt_trichotomy j i with hj | rfl | hj
      · rw [if_neg (by omega), if_pos hj, if_neg (by omega), if_pos (by omega)]
        exact Function.update_of_ne (by omega) ..
      · rw [if_pos rfl, if_neg (by omega), if_pos (by omega)]
        exact Function.update_of_ne (by omega) ..
      · rw [if_neg (by omega), if_neg (by omega)]
        split_ifs
        · rfl
        · omega
        · rfl
    · change Function.update s.pendings (i + 1) none j = none
      rcases eq_or_ne j (i + 1) with rfl | hne
      · exact Function.update_self ..
      · rw [Function.update_of_ne hne]
        exact habove j (by omega)

theorem Pend.enter (h : Pend s l) {i c : ℕ} (hphase : s.phase = .walk i (some c)) :
    Pend { s with phase := .cb i c (s.mem c).pendingNext } l := by
  refine h.moved rfl rfl rfl ?_ (fun hc => (by cases hc)) (fun hc => (by cases hc)) ⟨rfl, h.above hphase⟩
  rw [position_walk hphase, position_cb rfl]
  rfl

theorem Pend.skip (h : Pend s l) {i c : ℕ} (hphase : s.phase = .walk i (some c)) (hp : (s.mem c).pending = false) :
    ∃ rest, l i = c :: rest ∧ Pend { s with phase := .walk i (s.link c) } (Function.update l i rest) := by
  have hposition := position_walk hphase
  obtain ⟨rest, hl, -⟩ := h.head (i := i) (c := c) (by rw [hposition, remaining_self])
  have hkept : (s.mem c).destroy ≠ true := by
    intro hd
    rcases h.destroyed c hd with hf | hc
    · exact h.live i c (by rw [hl]; exact List.mem_cons_self) hf
    · rw [hp] at hc
      cases hc
  refine h.passed hposition (Function.update_eq_self c s.mem).symm rfl rfl rfl rfl rfl rfl hp rfl (h.above hphase) ?_
  rw [if_neg hkept]

theorem Pend.visit (h : Pend s l) {i : ℕ} {cur : Option ℕ} (hphase : s.phase = .walk i cur) :
    ∃ l', Pend (visit i cur s) l' := by
  cases cur with
  | none => exact ⟨l, h.visit_none hphase⟩
  | some c =>
    unfold Timers.visit
    dsimp only
    split_ifs with hp
    · exact ⟨l, h.enter hphase⟩
    · obtain ⟨rest, -, h'⟩ := h.finish (position_walk hphase) (h.above hphase)
      exact ⟨_, h'⟩
    · obtain ⟨rest, -, h'⟩ := h.skip hphase ((Bool.not_eq_true _).mp hp)
      exact ⟨_, h'⟩

theorem Pend.start (h : Pend s l) (hout : s.phase = .out) : Pend (beginPendings s) l := by
  unfold beginPendings
  split_ifs
  · exact h
  · have hposition := position_out hout
    have htop : ∀ j, 10 < j → s.pendings j = none := by
      intro j hj
      have hsp := h.spells j
      have hempty : l j = [] := by
        apply List.eq_nil_iff_forall_not_mem.mpr
        intro x hx
        have hx' := h.priority j x hx
        omega
      rw [hposition, hempty] at hsp
      exact hsp
    refine h.moved rfl rfl rfl (funext fun j => ?_) (fun hc => (by cases hc)) (fun hc => (by cases hc)) htop
    rw [hposition, position_walk rfl]
    unfold remaining
    split_ifs with hj hj'
    · rw [hj]
    · rfl
    · exact (htop j (by omega)).symm

/-! ## Processing -/

theorem countDown_alike (s : Loop) (e : ℕ) :
    ∃ ev, Changes s (countDown e s) e ev ∧ Alike (s.mem e) ev ∧ ev.destroy = (s.mem e).destroy := by
  obtain ⟨n, hch⟩ := countDown_changes s e
  exact ⟨_, hch, ⟨rfl, rfl, rfl, rfl⟩, rfl⟩

theorem Alike.trans {ev₁ ev₂ ev₃ : Event} (h : Alike ev₁ ev₂) (h' : Alike ev₂ ev₃) : Alike ev₁ ev₃ :=
  ⟨h'.priority.trans h.priority, h'.kind.trans h.kind, h'.link.trans h.link, h'.pending.trans h.pending⟩

theorem processTimer_cases {w : Which} {now next : ℕ} (h : processTimer w now next s = some t) :
    ∃ e u ev, (w.heap s).root = some e ∧ Changes s u e ev ∧ Alike (s.mem e) ev ∧ t = eventPending e u := by
  obtain ⟨e, hroot, h⟩ := Option.bind_eq_some_iff.mp h
  split_ifs at h
  obtain ⟨ev, hch, hlike, -⟩ := countDown_alike s e
  have hself := hch.self
  dsimp only at h
  split_ifs at h
  · obtain ⟨u, hu, h⟩ := Option.bind_eq_some_iff.mp h
    cases h
    have hun := unlistTimer_changes hu
    rw [hself] at hun
    exact ⟨e, u, _, hroot, hch.trans hun, hlike.trans ⟨rfl, rfl, rfl, rfl⟩, rfl⟩
  · obtain ⟨u, hu, h⟩ := Option.bind_eq_some_iff.mp h
    cases h
    obtain ⟨n, hre⟩ := requeue_changes hu
    rw [hself] at hre
    exact ⟨e, u, _, hroot, hch.trans hre, hlike.trans ⟨rfl, rfl, rfl, rfl⟩, rfl⟩

theorem processIdle_cases (s : Loop) (e : ℕ) :
    ∃ u ev, Changes s u e ev ∧ Alike (s.mem e) ev ∧ processIdle s e = eventPending e u := by
  obtain ⟨ev, hch, hlike, -⟩ := countDown_alike s e
  have hself := hch.self
  unfold processIdle
  dsimp only
  split_ifs
  · have hun := unlistIdle_changes (countDown e s) e
    rw [hself] at hun
    exact ⟨_, _, hch.trans hun, hlike.trans ⟨rfl, rfl, rfl, rfl⟩, rfl⟩
  · exact ⟨_, _, hch, hlike, rfl⟩

theorem eventPending_kept (s : Loop) (e : ℕ) :
    (eventPending e s).phase = s.phase ∧ (eventPending e s).freed = s.freed := by
  unfold eventPending
  split_ifs <;> exact ⟨rfl, rfl⟩

theorem Pend.foldIdles (h : Pend s l) (hsound : Sound s) (hout : s.phase = .out) (idles : List ℕ)
    (hidles : ∀ e ∈ idles, e < s.next ∧ (s.mem e).kind = .idle ∧ e ∉ s.freed) :
    ∃ l', Pend (idles.foldl processIdle s) l' := by
  induction idles generalizing s l with
  | nil => exact ⟨l, h⟩
  | cons e idles ih =>
    obtain ⟨hlt, hk, hlive⟩ := hidles e List.mem_cons_self
    obtain ⟨hsound', hkeep⟩ := hsound.processIdle hlt hk
    obtain ⟨u, ev, hch, hlike, hu⟩ := processIdle_cases s e
    have hio : ev.kind ≠ .io := by
      rw [hlike.kind, hk]
      decide
    obtain ⟨l', h'⟩ := h.eventPending hch hlike (fun hc => absurd hc hio) hout hlt hlive
    obtain ⟨hphase, hfreed⟩ := eventPending_kept u e
    rw [← hu] at h' hphase hfreed
    refine ih h' hsound' (hphase.trans (hch.phase.trans hout)) fun x hx => ?_
    rw [hkeep.next, hkeep.kind, hfreed, hch.freed]
    exact hidles x (List.mem_cons_of_mem _ hx)

theorem Book.live_of_parked (h : Book s) {k : Kind} (he : e ∈ s.parked k) : e ∉ s.freed := by
  intro hf
  have hd := ((h.parked k e).mp he).2.2.2
  rw [(h.freed e hf).2.1] at hd
  cases hd

theorem Pend.processIdles (h : Pend s l) (hsound : Sound s) (hout : s.phase = .out) :
    ∃ l', Pend (processIdles s) l' := by
  refine h.foldIdles hsound hout s.idles fun e he => ?_
  obtain ⟨-, hlt, hk, -⟩ := (hsound.book.parked .idle e).mp he
  exact ⟨hlt, hk, hsound.book.live_of_parked (k := .idle) he⟩

theorem Pend.processTimer (h : Pend s l) (hsound : Sound s) (hout : s.phase = .out) {w : Which} {now next : ℕ}
    (ht : processTimer w now next s = some t) : ∃ l', Pend t l' := by
  obtain ⟨e, u, ev, hroot, hch, hlike, rfl⟩ := processTimer_cases ht
  have hin : e ∈ s.parked w.kind := by
    rw [Which.parked_kind]
    exact Heap.mem_of_root hroot
  obtain ⟨hio, hlt, hk, -⟩ := (hsound.book.parked w.kind e).mp hin
  refine h.eventPending hch hlike (fun hc => absurd ?_ hio) hout hlt (hsound.book.live_of_parked hin)
  rw [← hk, ← hlike.kind, hc]

/-! ## The calls -/

/-- Outside callbacks user code resets no timer that is pending: `evloop_process_events` makes timers pending and
processes them at once. -/
def Orderly (s : Loop) : Act → Prop
  | .call (.evtimerReset e _) => s.phase = .out → (s.mem e).pending = false
  | _ => True

/-- No timer is deleted that is not pending, since it has been reset, but is still linked. -/
def Deletable (s : Loop) : Act → Prop
  | .call (.evtimerDel e) => (s.mem e).active = true → (s.mem e).pending = false → ¬s.Ahead e
  | _ => True

theorem Book.live_of_active (h : Book s) (he : (s.mem e).active = true) : e ∉ s.freed := by
  intro hf
  rw [(h.freed e hf).2.2] at he
  cases he

theorem Pend.call (h : Pend s l) (hsound : Sound s) {c : Call} (hc : Callable s c) (horder : Orderly s (.call c))
    (hdel : Deletable s (.call c)) (ht : call s c = some t) : Pend t l := by
  cases call_effect ht with
  | same => exact h
  | creates hnew => exact h.creates hnew
  | adds hnew => exact (h.creates hnew).eventActive s.next
  | @resets e timeout r m n t hk hch =>
    refine h.changes hch rfl rfl rfl ?_ (fun hd => (by cases hd)) fun _ => rfl
    by_cases hout : s.phase = .out
    · exact .inl (horder hout).symm
    · exact .inr ⟨rfl, hout, hk⟩
  | @deletes c e u hce hact hch =>
    have hlive := hsound.book.live_of_active hact
    rcases hce with rfl | rfl
    · have hio : (s.mem e).kind ≠ .io := by
        rcases hc.2 with hk | hk <;> rw [hk] <;> decide
      exact h.eventDel hch ⟨rfl, rfl, rfl, rfl⟩ hio hlive fun hp i hi => hdel hact hp (h.ahead_iff.mpr ⟨i, hi⟩)
    · have hne : (s.mem e).kind ≠ .io ∧ (s.mem e).kind ≠ .timeout := by
        rw [hc.2]
        decide
      refine h.eventDel hch ⟨rfl, rfl, rfl, rfl⟩ hne.1 hlive fun hp i hi => ?_
      rw [h.pending i e hi (.inr hne.2)] at hp
      cases hp
  | active e => exact h.eventActive e
  | inactive e => exact h.changes (eventInactive_changes s e) rfl rfl rfl (.inl rfl) (h.destroyed e) (h.io e)

/-! ## Runs -/

theorem Pend.step (h : Pend s l) (hsound : Sound s) {a : Act} (ha : Enabled s a) (horder : Orderly s a)
    (hdel : Deletable s a) (ht : step s a = some t) : ∃ l', Pend t l' := by
  cases a with
  | call c =>
    exact ⟨l, h.call hsound ha.2 horder hdel (call_of_step ht)⟩
  | timer w now next =>
    rw [Timers.step, if_pos ha.1] at ht
    exact h.processTimer hsound ha.1 ht
  | idles =>
    change s.phase = .out at ha
    rw [Timers.step, if_pos ha] at ht
    cases ht
    exact h.processIdles hsound ha
  | ioReady e =>
    obtain ⟨hout, hlt, hk⟩ := ha
    rw [Timers.step, if_pos hout] at ht
    cases ht
    refine h.eventPending (.refl s e) ⟨rfl, rfl, rfl, rfl⟩ (h.io e) hout hlt fun hf => ?_
    have hd := h.io e hk
    rw [(hsound.book.freed e hf).2.1] at hd
    cases hd
  | start =>
    change s.phase = .out at ha
    rw [Timers.step, if_pos ha] at ht
    cases ht
    exact ⟨l, h.start ha⟩
  | visit =>
    unfold Timers.step at ht
    cases hph : s.phase with
    | out | cb =>
      rw [hph] at ht
      cases ht
    | walk i cur =>
      rw [hph] at ht
      cases ht
      exact h.visit hph
  | ret =>
    unfold Timers.step at ht
    cases hph : s.phase with
    | out | walk =>
      rw [hph] at ht
      cases ht
    | cb i cur next =>
      rw [hph] at ht
      cases ht
      have hb := h.behind
      rw [Behind, hph] at hb
      rw [hb.1]
      obtain ⟨rest, -, h'⟩ := h.finish (position_cb hph) hb.2
      exact ⟨_, h'⟩

theorem pend_init : Pend Loop.init fun _ => [] := by
  refine ⟨fun _ => rfl, fun _ => List.nodup_nil, ?_, ?_, ?_, ?_, ?_, List.nodup_nil, ?_, fun _ _ => rfl, fun _ _ _ => rfl,
    trivial⟩
  · intro i e he
    cases he
  · intro i e he
    cases he
  · intro e he
    cases he
  · intro i e he
    cases he
  · intro i e he
    cases he
  · intro e he
    cases he

theorem pend_of_run {acts : List Act}
    (hacts : Run.Along step (fun s a => (Enabled s a ∧ Orderly s a) ∧ Deletable s a) Loop.init acts)
    (h : Run.exec step Loop.init acts = some s) : Sound s ∧ ∃ l, Pend s l := by
  obtain ⟨t, ht, hinv⟩ := Run.exec_of_along (fun _ s => Sound s ∧ ∃ l, Pend s l)
    (fun _ s a hinv ha => by
      obtain ⟨hsound, l, hl⟩ := hinv
      obtain ⟨t, ht, hsound'⟩ := hsound.step ha.1.1
      exact ⟨t, ht, hsound', hl.step hsound ha.1.1 ha.1.2 ha.2 ht⟩)
    [] ⟨sound_init, _, pend_init⟩ hacts
  cases h.symm.trans ht
  exact hinv

/-- Nothing is freed that `evloop_process_pendings` may still come to, nothing is freed twice, and what is destroyed
is freed when it is through. -/
structure Safe (s : Loop) : Prop where
  ahead : ∀ e, s.Ahead e → e ∉ s.freed
  once : s.freed.Nodup
  destroyed : ∀ e, (s.mem e).destroy = true → e ∈ s.freed ∨ (s.mem e).pending = true ∧ s.Ahead e
  through : s.phase = .out → s.npendings = 0 → ∀ e, (s.mem e).destroy = true → e ∈ s.freed

theorem Pend.safe (h : Pend s l) : Safe s := by
  have hahead : ∀ e, (s.mem e).destroy = true → e ∈ s.freed ∨ (s.mem e).pending = true ∧ s.Ahead e := fun e hd =>
    (h.destroyed e hd).imp_right fun hp => ⟨hp, h.ahead_iff.mpr ⟨_, h.listed e hp⟩⟩
  refine ⟨fun e he => ?_, h.freed, hahead, fun hout hn e hd => ?_⟩
  · obtain ⟨i, hi⟩ := h.ahead_iff.mp he
    exact h.live i e hi
  · rcases hahead e hd with hf | ⟨-, i, hreach⟩
    · exact hf
    · rw [position_out hout, h.npendings hout hn i] at hreach
      cases hreach

/-- The branch that goes wrong: `EVENT_DEL` frees a timer that is still linked. -/
theorem evtimerDel_frees_ahead (hact : (s.mem e).active = true) (hpend : (s.mem e).pending = false) (hahead : s.Ahead e)
    (ht : evtimerDel e s = some t) : t.Ahead e ∧ e ∈ t.freed := by
  unfold evtimerDel at ht
  rw [if_pos hact] at ht
  obtain ⟨u, hu, rfl⟩ := Option.map_eq_some_iff.mp ht
  have hch := unlistTimer_changes hu
  have hin := eventInactive_changes u e
  rw [hch.self] at hin
  have hall := hch.trans hin
  unfold eventDel
  dsimp only
  rw [hin.self, if_neg (by rw [hpend]; exact Bool.false_ne_true)]
  refine ⟨?_, List.mem_append_right _ (List.mem_singleton_self e)⟩
  have hlink : Loop.link { eventInactive e u with freed := (eventInactive e u).freed ++ [e] } = s.link :=
    link_update hall.mem rfl
  have hposition : Loop.position { eventInactive e u with freed := (eventInactive e u).freed ++ [e] } = s.position :=
    position_congr hall.phase hall.pendings
  obtain ⟨i, hreach⟩ := hahead
  refine ⟨i, ?_⟩
  rw [hlink, hposition]
  exact hreach

theorem not_safe_of_not_deletable {a : Act} (hdel : ¬Deletable s a) (ht : step s a = some t) : ¬Safe t := by
  unfold Deletable at hdel
  split at hdel
  · rename_i e
    obtain ⟨hact, hdel⟩ := Classical.not_imp.mp hdel
    obtain ⟨hpend, hahead⟩ := Classical.not_imp.mp hdel
    obtain ⟨hahead', hfreed⟩ := evtimerDel_frees_ahead hact hpend (not_not.mp hahead) (call_of_step ht)
    exact fun hsafe => hsafe.ahead e hahead' hfreed
  · exact absurd trivial hdel

/-- Every state of a run is safe if and only if no timer that has been reset is deleted while it is still linked. -/
theorem safe_iff_deletable {acts : List Act}
    (hacts : Run.Along step (fun s a => Enabled s a ∧ Orderly s a) Loop.init acts) :
    Run.Along step Deletable Loop.init acts ↔
      ∀ p, p <+: acts → ∃ s, Run.exec step Loop.init p = some s ∧ Safe s := by
  refine Run.along_iff_prefixes (fun s => Sound s ∧ ∃ l, Pend s l) ?_ ?_ ?_ ⟨sound_init, _, pend_init⟩ hacts
  · rintro s a ⟨hsound, l, hpend⟩ ⟨ha, horder⟩ hdel
    obtain ⟨t, ht, hsound'⟩ := hsound.step ha
    exact ⟨t, ht, hsound', hpend.step hsound ha horder hdel ht⟩
  · rintro s ⟨-, l, hpend⟩
    exact hpend.safe
  · rintro s a t - - hdel ht
    exact not_safe_of_not_deletable hdel ht

instance decidableOrderly (s : Loop) : ∀ a, Decidable (Orderly s a)
  | .call (.evtimerReset e _) => inferInstanceAs (Decidable (s.phase = .out → (s.mem e).pending = false))
  | .call (.evtimerDel _) | .call (.evtimerAdd ..) | .call (.evtimerAddPeriod ..) | .call (.evidleAdd ..)
  | .call (.evidleDel _) | .call (.evioGet ..) | .call (.evioAdd _) | .call (.evioDel _) | .timer .. | .idles
  | .ioReady _ | .start | .visit | .ret => isTrue trivial

theorem safe_iff_deletable_sample :
    Run.Along step Deletable Loop.init sampleRun ↔
      ∀ p, p <+: sampleRun → ∃ s, Run.exec step Loop.init p = some s ∧ Safe s :=
  safe_iff_deletable (by decide +kernel)

/-- Two timers are due, and the callback of one resets and deletes the other. -/
def resetThenDelete : List Act :=
  [.call (.evtimerAdd 0 5 1 true), .call (.evtimerAdd 0 5 1 true), .timer .timers 5000 0, .timer .timers 5000 0, .start,
    .visit, .call (.evtimerReset 0 7), .call (.evtimerDel 0)]

theorem freed_while_linked :
    Run.Along step (fun s a => Enabled s a ∧ Orderly s a) Loop.init resetThenDelete ∧
      ∃ s, Run.exec step Loop.init resetThenDelete = some s ∧ s.Ahead 0 ∧ 0 ∈ s.freed := by
  refine ⟨by decide +kernel, _, rfl, ⟨10, .there (.here 0)⟩, ?_⟩
  decide

end Yjc.Timers
