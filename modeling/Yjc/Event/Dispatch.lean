import Yjc.Event.Firing
import Yjc.Event.Pendings
import Yjc.Lib.Loop

/-! `evloop_process_pendings` from its call to its return, with the callbacks that it invokes. -/

namespace Yjc.Timers
open Timers.Loop

/-- A call of `evloop_process_pendings`. `reached` has the events that it has come to, as it found them, and `invoked` those
whose callbacks it has called. -/
structure Pass where
  loop : Loop
  ncbs : ℕ
  reached : List (ℕ × Event)
  invoked : List ℕ

def Pass.start (s : Loop) : Pass := ⟨beginPendings s, 0, [], []⟩

/-- A round of its loops. `callback` has what the callback that is running does. No result: an event that is freed is
accessed. -/
def pass (callback : Pass → List Call) (p : Pass) : Pass ⊕ Option Pass :=
  match p.loop.phase with
  | .out => .inr (some p)
  | .walk i none => .inl { p with loop := visit i none p.loop }
  | .walk i (some c) =>
    if c ∈ p.loop.freed then .inr none
    else
      let s := visit i (some c) p.loop
      .inl { p with loop := s, reached := p.reached ++ [(c, p.loop.mem c)], invoked := p.invoked ++ s.phase.running.toList }
  | .cb i c next =>
    match Run.exec call p.loop (callback p) with
    | none => .inr none
    | some s => if c ∈ s.freed then .inr none else .inl { p with loop := finish i c next s, ncbs := p.ncbs + 1 }

/-! ## Callbacks -/

variable {s t u : Loop} {l l' : ℕ → List ℕ} {i c e : ℕ} {next : Option ℕ}

/-- What a call leaves of the lists: where they are gone through, how they are linked and what is freed. -/
structure Carried (s t : Loop) : Prop where
  next : s.next ≤ t.next
  phase : t.phase = s.phase
  pendings : t.pendings = s.pendings
  links : ∀ x < s.next, t.link x = s.link x
  freed : ∀ x ∈ s.freed, x ∈ t.freed

theorem Carried.trans (h : Carried s t) (h' : Carried t u) : Carried s u :=
  ⟨h.next.trans h'.next, h'.phase.trans h.phase, h'.pendings.trans h.pendings,
    fun x hx => (h'.links x (Nat.lt_of_lt_of_le hx h.next)).trans (h.links x hx), fun x hx => h'.freed x (h.freed x hx)⟩

theorem Changes.carried {ev : Event} (h : Changes s t e ev) (hlink : ev.pendingNext = (s.mem e).pendingNext) : Carried s t :=
  ⟨h.next.ge, h.phase, h.pendings, fun x _ => congrFun (link_update h.mem hlink) x, fun _ hx => h.freed ▸ hx⟩

theorem carried_refl (s : Loop) : Carried s s := ⟨le_rfl, rfl, rfl, fun _ _ => rfl, fun _ => id⟩

theorem carried_eventDel (s : Loop) (e : ℕ) : Carried s (eventDel e s) := by
  have h := (eventInactive_changes s e).carried rfl
  unfold eventDel
  dsimp only
  split_ifs
  · exact h
  · exact ⟨h.next, h.phase, h.pendings, h.links, fun x hx => List.mem_append_left _ (h.freed x hx)⟩

theorem Creates.carried {ev : Event} (h : Creates s t ev) : Carried s t := by
  refine ⟨h.next ▸ Nat.le_succ _, h.phase, h.pendings, fun x hx => ?_, fun _ hx => h.freed ▸ hx⟩
  rw [Loop.link, Loop.link, h.mem]
  exact congrArg Event.pendingNext (Function.update_of_ne (Nat.ne_of_lt hx) _ _)

theorem call_carried {a : Call} (ht : call s a = some t) : Carried s t := by
  cases call_effect ht with
  | same => exact carried_refl s
  | creates hnew => exact hnew.carried
  | adds hnew => exact hnew.carried.trans ((eventActive_changes _ s.next).carried rfl)
  | resets _ hch => exact hch.carried rfl
  | deletes _ _ hch => exact (hch.carried rfl).trans (carried_eventDel _ _)
  | active e => exact (eventActive_changes s e).carried rfl
  | inactive e => exact (eventInactive_changes s e).carried rfl

/-- What a callback is held to: it deletes no timer that is linked, but not pending. -/
def Kindly (s : Loop) (a : Call) : Prop := Deletable s (.call a)

theorem Pend.calls (hpend : Pend s l) (hsound : Sound s) (hphase : s.phase = .cb i c next) {calls : List Call}
    (hcalls : Run.Along Timers.call (fun s a => Callable s a ∧ Kindly s a) s calls) :
    ∃ t, Run.exec Timers.call s calls = some t ∧ Sound t ∧ Pend t l ∧ t.phase = .cb i c next := by
  refine Run.exec_of_along (fun _ s => Sound s ∧ Pend s l ∧ s.phase = .cb i c next) (fun _ s a hinv ha => ?_) []
    ⟨hsound, hpend, hphase⟩ hcalls
  obtain ⟨hsound, hpend, hphase⟩ := hinv
  obtain ⟨hcallable, hkindly⟩ := ha
  obtain ⟨t, ht, hsound'⟩ := hsound.call hcallable
  have horder : Orderly s (.call a) := by
    cases a with
    | evtimerReset e timeout =>
      intro hout
      rw [hphase] at hout
      cases hout
    | evtimerAdd | evtimerAddPeriod | evtimerDel | evidleAdd | evidleDel | evioGet | evioAdd | evioDel => trivial
  exact ⟨t, ht, hsound', hpend.call hsound hcallable horder hkindly ht, (call_carried ht).phase.trans hphase⟩

/-! ## Dangling links -/

/-- An event is freed that `evloop_process_pendings` has still to come to. -/
def Dangling (s : Loop) : Prop := ∃ e, s.Ahead e ∧ e ∈ s.freed

theorem Carried.reaches (h : Carried s t) (haddr : Addressed s) {p : Option ℕ} (hp : ∀ x ∈ p, x < s.next)
    (hr : Links.Reaches s.link p e) : Links.Reaches t.link p e := by
  induction hr with
  | here a => exact .here a
  | there hr ih =>
    rename_i a b
    refine .there ?_
    rw [h.links a (hp a rfl)]
    exact ih (haddr.links a)

theorem Addressed.position_lt (h : Addressed s) (i : ℕ) : ∀ x ∈ s.position i, x < s.next := by
  have hphase := h.phase
  intro x hx
  cases hp : s.phase with
  | out =>
    rw [position_out hp] at hx
    exact h.heads i x hx
  | walk j cur =>
    rw [hp] at hphase
    rw [position_walk hp, remaining] at hx
    split_ifs at hx
    · exact hphase x (Option.mem_toList.mpr hx)
    · exact h.heads i x hx
    · cases hx
  | cb j cur next =>
    rw [hp] at hphase
    rw [position_cb hp, remaining] at hx
    split_ifs at hx
    · exact hphase x (by rw [← Option.some.inj hx]; exact List.mem_cons_self)
    · exact h.heads i x hx
    · cases hx

theorem Dangling.carried (h : Dangling s) (haddr : Addressed s) (hc : Carried s t) : Dangling t := by
  obtain ⟨e, ⟨i, hr⟩, hf⟩ := h
  refine ⟨e, ⟨i, ?_⟩, hc.freed e hf⟩
  rw [position_congr hc.phase hc.pendings]
  exact hc.reaches haddr (haddr.position_lt i) hr

theorem dangling_of_not_kindly {a : Call} (ha : ¬Kindly s a)
    (ht : call s a = some t) : Dangling t := by
  unfold Kindly Deletable at ha
  cases a with
  | evtimerDel e =>
    obtain ⟨hactive, ha⟩ := Classical.not_imp.mp ha
    obtain ⟨hoff, hahead⟩ := Classical.not_imp.mp ha
    exact ⟨e, evtimerDel_frees_ahead hactive hoff (not_not.mp hahead) ht⟩
  | evtimerAdd | evtimerAddPeriod | evtimerReset | evidleAdd | evidleDel | evioGet | evioAdd | evioDel =>
    exact absurd trivial ha

theorem calls_spec {calls : List Call} (hsound : Sound s) (hcalls : Run.Along call Callable s calls)
    (ht : Run.exec call s calls = some t) : Sound t ∧ Carried s t ∧ (Dangling s ∨ ¬Run.Along call Kindly s calls → Dangling t) := by
  induction calls generalizing s with
  | nil =>
    cases ht
    exact ⟨hsound, carried_refl _, fun h => h.elim id fun h => absurd trivial h⟩
  | cons a calls ih =>
    obtain ⟨u, hu, hrest⟩ := Run.exec_cons.mp ht
    obtain ⟨u', hu', hsound'⟩ := hsound.call hcalls.1
    cases hu.symm.trans hu'
    have hcarried := call_carried hu
    obtain ⟨hsound'', hcarried', hdangling⟩ := ih hsound' (hcalls.2 u hu) hrest
    refine ⟨hsound'', hcarried.trans hcarried', fun h => hdangling ?_⟩
    rcases h with h | h
    · exact .inl (h.carried hsound.addressed hcarried)
    · by_cases ha : Kindly s a
      · refine .inr fun halong => h ⟨ha, fun v hv => ?_⟩
        cases hu.symm.trans hv
        exact halong
      · exact .inl (dangling_of_not_kindly ha hu)

/-! ## The order of the lists -/

/-- The lists from `i` down, one after the other. -/
def linked (l : ℕ → List ℕ) : ℕ → List ℕ
  | 0 => l 0
  | i + 1 => l (i + 1) ++ linked l i

theorem linked_update (h : i < c) (rest : List ℕ) : linked (Function.update l c rest) i = linked l i := by
  induction i with
  | zero => exact Function.update_of_ne (Nat.ne_of_lt h) ..
  | succ i ih => rw [linked, linked, ih (by omega), Function.update_of_ne (Nat.ne_of_lt h)]

theorem linked_cons {rest : List ℕ} (h : l i = c :: rest) : linked l i = c :: linked (Function.update l i rest) i := by
  cases i with
  | zero => rw [linked, linked, Function.update_self, h]
  | succ i => rw [linked, linked, Function.update_self, linked_update (Nat.lt_succ_self i), h, List.cons_append]

theorem mem_linked : e ∈ linked l i ↔ ∃ j ≤ i, e ∈ l j := by
  induction i with
  | zero => simp [linked]
  | succ i ih =>
    rw [linked, List.mem_append, ih]
    constructor
    · rintro (he | ⟨j, hj, he⟩)
      · exact ⟨i + 1, le_rfl, he⟩
      · exact ⟨j, by omega, he⟩
    · rintro ⟨j, hj, he⟩
      rcases Nat.lt_or_ge i j with hlt | hge
      · obtain rfl : j = i + 1 := by omega
        exact .inl he
      · exact .inr ⟨j, hge, he⟩

theorem linked_pairwise (prio : ℕ → ℕ) (hnodup : ∀ j, (l j).Nodup) (hprio : ∀ j, ∀ e ∈ l j, prio e = j) (i : ℕ) :
    (linked l i).Nodup ∧ (linked l i).Pairwise fun a b => prio b ≤ prio a := by
  -- the events of the list `j` have the priority `j`, so that no event is in two lists and those of higher priority come first
  have hlist : ∀ j, (l j).Pairwise fun a b => prio b ≤ prio a := fun j =>
    List.pairwise_of_forall_mem_list fun a ha b hb => (hprio j b hb).trans_le (hprio j a ha).ge
  induction i with
  | zero => exact ⟨hnodup 0, hlist 0⟩
  | succ i ih =>
    have hbelow : ∀ a ∈ l (i + 1), ∀ b ∈ linked l i, prio b < prio a := by
      intro a ha b hb
      obtain ⟨j, hj, hb⟩ := mem_linked.mp hb
      rw [hprio _ a ha, hprio j b hb]
      exact Nat.lt_succ_of_le hj
    refine ⟨List.nodup_append.mpr ⟨hnodup _, ih.1, ?_⟩, List.pairwise_append.mpr ⟨hlist _, ih.2, ?_⟩⟩
    · rintro a ha b hb rfl
      exact Nat.lt_irrefl _ (hbelow a ha a hb)
    · exact fun a ha b hb => (hbelow a ha b hb).le

/-! ## Rounds -/

def ahead (l : ℕ → List ℕ) : Phase → List ℕ
  | .out => []
  | .walk i _ => linked l i
  | .cb i _ _ => (linked l i).tail

/-- An event whose callback is called when it is reached. -/
def Event.ready (ev : Event) : Bool := ev.pending && (ev.active && ev.cb)

/-- The events that have been reached and those ahead are the linked ones in their order, and what was ready has been
invoked. -/
structure Going (l : ℕ → List ℕ) (p : Pass) (l' : ℕ → List ℕ) : Prop where
  sound : Sound p.loop
  pend : Pend p.loop l'
  order : p.reached.map Prod.fst ++ ahead l' p.loop.phase = linked l 10
  invoked : p.invoked = (p.reached.filter fun x => x.2.ready).map Prod.fst
  ncbs : p.ncbs + (if p.loop.phase.inCallback then 1 else 0) = p.invoked.length
  npendings : p.loop.phase = .out → p.loop.npendings = 0

variable {callback : Pass → List Call} {p q : Pass}

theorem Pend.nil_of_position (h : Pend s l) (hi : s.position i = none) : l i = [] := by
  have hsp := h.spells i
  rw [hi] at hsp
  exact Links.spells_none.mp hsp

theorem going_start (hsound : Sound s) (hpend : Pend s l) (hout : s.phase = .out) : Going l (Pass.start s) l := by
  obtain ⟨t, ht, hsound'⟩ := hsound.step (a := .start) hout
  rw [step, if_pos hout] at ht
  cases ht
  refine ⟨hsound', hpend.start hout, ?_, rfl, ?_, ?_⟩
  · change ahead l (beginPendings s).phase = linked l 10
    unfold beginPendings
    split_ifs with hn
    · rw [hout]
      refine (List.eq_nil_iff_forall_not_mem.mpr fun e he => ?_).symm
      obtain ⟨j, -, he⟩ := mem_linked.mp he
      rw [hpend.nil_of_position (by rw [position_out hout]; exact hpend.npendings hout hn j)] at he
      cases he
    · rfl
  · change 0 + (if (beginPendings s).phase.inCallback then 1 else 0) = 0
    unfold beginPendings
    split_ifs with hn hcb hcb
    · rw [hout] at hcb
      cases hcb
    · rfl
    · cases hcb
    · rfl
  · change (beginPendings s).phase = .out → (beginPendings s).npendings = 0
    unfold beginPendings
    split_ifs with hn
    · exact fun _ => hn
    · intro hc
      cases hc

theorem Going.list_end (h : Going l p l') (hphase : p.loop.phase = .walk i none) :
    Going l { p with loop := visit i none p.loop } l' := by
  obtain ⟨hsound, hpend, horder, hinvoked, hncbs, -⟩ := h
  have hnil : l' i = [] := hpend.nil_of_position (by rw [position_walk hphase, remaining_self])
  rw [hphase] at horder hncbs
  have hnone : ∀ e ∈ (none : Option ℕ), e < p.loop.next := fun e he => by cases he
  refine ⟨hsound.visit hnone, hpend.visit_none hphase, ?_, hinvoked, ?_, ?_⟩
  · cases i with
    | zero =>
      change p.reached.map Prod.fst ++ linked l' 0 = _ at horder
      rw [linked, hnil] at horder
      exact horder
    | succ i =>
      change p.reached.map Prod.fst ++ linked l' (i + 1) = _ at horder
      rw [linked, hnil] at horder
      exact horder
  · cases i <;> exact hncbs
  · cases i with
    | zero => exact fun _ => rfl
    | succ i => exact fun hc => by cases hc

theorem filter_ready_append (reached : List (ℕ × Event)) (c : ℕ) (ev : Event) :
    ((reached ++ [(c, ev)]).filter fun x => x.2.ready).map Prod.fst =
      (reached.filter fun x => x.2.ready).map Prod.fst ++ if ev.ready then [c] else [] := by
  rw [List.filter_append, List.map_append]
  cases h : ev.ready <;> simp [h]

theorem Going.reach (h : Going l p l') (hphase : p.loop.phase = .walk i (some c)) :
    c ∉ p.loop.freed ∧ ∃ l'', Going l { p with
      loop := visit i (some c) p.loop
      reached := p.reached ++ [(c, p.loop.mem c)]
      invoked := p.invoked ++ (visit i (some c) p.loop).phase.running.toList } l'' := by
  obtain ⟨hsound, hpend, horder, hinvoked, hncbs, -⟩ := h
  have hposition := position_walk hphase
  obtain ⟨rest, hl, -⟩ := hpend.head (i := i) (c := c) (by rw [hposition, remaining_self])
  have hin : c ∈ l' i := by
    rw [hl]
    exact List.mem_cons_self
  rw [hphase] at horder hncbs
  change p.reached.map Prod.fst ++ linked l' i = _ at horder
  rw [linked_cons hl] at horder
  have hreached : (p.reached ++ [(c, p.loop.mem c)]).map Prod.fst ++ linked (Function.update l' i rest) i = linked l 10 := by
    rw [← horder, List.map_append, List.append_assoc]
    rfl
  have hvisit : Sound (visit i (some c) p.loop) :=
    hsound.visit fun e he => by rw [← Option.some.inj he]; exact hpend.lt i c hin
  -- the event is left behind
  have hleft : ∀ {t : Loop} {rest'}, l' i = c :: rest' → t.phase = .walk i (p.loop.link c) → Sound t →
      Pend t (Function.update l' i rest') → (p.loop.mem c).ready = false →
      Going l { p with loop := t, reached := p.reached ++ [(c, p.loop.mem c)], invoked := p.invoked ++ t.phase.running.toList }
        (Function.update l' i rest') := by
    intro t rest' hl' htphase htsound htpend hready
    cases hl.symm.trans hl'
    refine ⟨htsound, htpend, ?_, ?_, ?_, fun hc => ?_⟩
    · rw [htphase]
      exact hreached
    · rw [filter_ready_append, hready, htphase, ← hinvoked]
      rfl
    · rw [htphase]
      change p.ncbs + 0 = (p.invoked ++ []).length
      rw [List.append_nil]
      exact hncbs
    · rw [htphase] at hc
      cases hc
  refine ⟨hpend.live i c hin, ?_⟩
  revert hvisit
  unfold visit
  dsimp only
  split_ifs with hp hcall
  · intro hvisit
    have hready : (p.loop.mem c).ready = true := by rw [Event.ready, hp, hcall]; rfl
    refine ⟨l', hvisit, hpend.enter hphase, ?_, ?_, ?_, fun hc => by cases hc⟩
    · change (p.reached ++ [(c, p.loop.mem c)]).map Prod.fst ++ (linked l' i).tail = _
      rw [linked_cons hl]
      exact hreached
    · change p.invoked ++ [c] = _
      rw [filter_ready_append, hready, ← hinvoked]
      rfl
    · change p.ncbs + 1 = (p.invoked ++ [c]).length
      rw [List.length_append, ← hncbs]
      rfl
  · intro hvisit
    obtain ⟨rest', hl', hfinish⟩ := hpend.finish hposition (hpend.above hphase)
    refine ⟨_, hleft hl' ?_ hvisit hfinish ?_⟩
    · unfold finish
      rfl
    · rw [Event.ready, (Bool.not_eq_true _).mp hcall, Bool.and_false]
  · intro hvisit
    obtain ⟨rest', hl', hskip⟩ := hpend.skip hphase ((Bool.not_eq_true _).mp hp)
    refine ⟨_, hleft hl' rfl hvisit hskip ?_⟩
    rw [Event.ready, (Bool.not_eq_true _).mp hp, Bool.false_and]

theorem Going.ret (h : Going l p l') (hphase : p.loop.phase = .cb i c next) (hsound : Sound s) (hpend : Pend s l')
    (hs : s.phase = .cb i c next) :
    c ∉ s.freed ∧ ∃ l'', Going l { p with loop := finish i c next s, ncbs := p.ncbs + 1 } l'' := by
  obtain ⟨-, -, horder, hinvoked, hncbs, -⟩ := h
  have hb := hpend.behind
  rw [Behind, hs] at hb
  obtain ⟨rest, hl, hfinish⟩ := hpend.finish (position_cb hs) hb.2
  rw [← hb.1] at hfinish
  have hin : c ∈ l' i := by
    rw [hl]
    exact List.mem_cons_self
  rw [hphase] at horder hncbs
  change p.reached.map Prod.fst ++ (linked l' i).tail = _ at horder
  have hwalk : (finish i c next s).phase = .walk i next := by
    unfold finish
    rfl
  have hnext : ∀ x ∈ next, x < s.next := fun x hx => hsound.addressed.phase x (by
    rw [hs]
    exact List.mem_cons_of_mem _ (Option.mem_toList.mpr hx))
  refine ⟨hpend.live i c hin, Function.update l' i rest, hsound.finish (hpend.lt i c hin) hnext, hfinish, ?_, hinvoked, ?_, ?_⟩
  · rw [linked_cons hl] at horder
    rw [hwalk]
    exact horder
  · rw [hwalk]
    exact hncbs
  · rw [hwalk]
    intro hc
    cases hc

/-! ## From the call to the return -/

/-- What the callbacks do while `evloop_process_pendings` runs. -/
def Allowed (callback : Pass → List Call) (s : Loop) (ok : Loop → Call → Prop) : Prop :=
  ∀ p, Yjc.Loop.Visits (pass callback) (Pass.start s) p → p.loop.phase.inCallback = true →
    Run.Along call ok p.loop (callback p)

/-- Each event that was pending has been reached once, as `reached` has it, those that were ready then have been invoked, and
nothing is pending any more. -/
structure Dispatched (s : Loop) (r : Pass) : Prop where
  reached : ∀ e, e ∈ r.reached.map Prod.fst ↔ (s.mem e).pending = true
  once : (r.reached.map Prod.fst).Nodup
  invoked : r.invoked = (r.reached.filter fun x => x.2.ready).map Prod.fst
  nodup : r.invoked.Nodup
  priority : r.invoked.Pairwise fun a b => (s.mem b).priority ≤ (s.mem a).priority
  ncbs : r.ncbs = r.invoked.length
  npendings : r.loop.npendings = 0
  pendings : ∀ i, r.loop.pendings i = none
  pending : ∀ e, (r.loop.mem e).pending = false

theorem Going.dispatched (h : Going l p l') (hpend : Pend s l) (hout : s.phase = .out) (hphase : p.loop.phase = .out) :
    Dispatched s p := by
  obtain ⟨-, hpend', horder, hinvoked, hncbs, hnpendings⟩ := h
  rw [hphase] at horder hncbs
  change p.reached.map Prod.fst ++ [] = _ at horder
  rw [List.append_nil] at horder
  obtain ⟨hnodup, hprio⟩ := linked_pairwise (fun e => (s.mem e).priority) hpend.nodup hpend.priority 10
  rw [← horder] at hnodup hprio
  have hsub : p.invoked.Sublist (p.reached.map Prod.fst) := by
    rw [hinvoked]
    exact List.filter_sublist.map _
  have hnone : ∀ i, p.loop.pendings i = none := hpend'.npendings hphase (hnpendings hphase)
  refine ⟨fun e => ?_, hnodup, hinvoked, hnodup.sublist hsub, hprio.sublist hsub, hncbs, hnpendings hphase, hnone, fun e => ?_⟩
  · rw [horder, mem_linked]
    constructor
    · rintro ⟨j, -, he⟩
      exact hpend.pending j e he (.inl hout)
    · exact fun hp => ⟨_, Nat.le_of_lt_succ (s.mem e).priority.isLt, hpend.listed e hp⟩
  · refine (Bool.not_eq_true _).mp fun hp => ?_
    have hin := hpend'.listed e hp
    rw [hpend'.nil_of_position (by rw [position_out hphase]; exact hnone _)] at hin
    cases hin

theorem visit_phase (s : Loop) (i c : ℕ) :
    (visit i (some c) s).phase = .cb i c (s.mem c).pendingNext ∨ (visit i (some c) s).phase = .walk i (s.mem c).pendingNext := by
  unfold visit
  dsimp only
  split_ifs
  · exact .inl rfl
  · right
    unfold finish
    rfl
  · exact .inr rfl

/-- What bounds the rounds that are left, of `n` events. -/
def roundsLeft (n : ℕ) (p : Pass) : ℕ :=
  match p.loop.phase with
  | .out => 0
  | .walk i _ => 2 * (n - p.reached.length) + i + 1
  | .cb i _ _ => 2 * (n - p.reached.length) + i + 2

theorem Going.length_le (h : Going l p l') : p.reached.length ≤ (linked l 10).length := by
  rw [← h.order, List.length_append, List.length_map]
  exact Nat.le_add_right ..

theorem Going.round (h : Going l p l')
    (hcalls : p.loop.phase.inCallback = true →
      Run.Along call (fun s a => Callable s a ∧ Kindly s a) p.loop (callback p)) :
    (∃ q l'', pass callback p = .inl q ∧ Going l q l'' ∧
      roundsLeft (linked l 10).length q < roundsLeft (linked l 10).length p) ∨
    pass callback p = .inr (some p) ∧ p.loop.phase = .out := by
  cases hphase : p.loop.phase with
  | out =>
    right
    refine ⟨?_, rfl⟩
    unfold pass
    rw [hphase]
  | walk i cur =>
    left
    cases cur with
    | none =>
      refine ⟨_, l', by unfold pass; rw [hphase], h.list_end hphase, ?_⟩
      unfold roundsLeft
      rw [hphase]
      cases i with
      | zero => exact Nat.succ_pos _
      | succ i => exact Nat.lt_succ_self _
    | some c =>
      obtain ⟨hlive, l'', hgoing⟩ := h.reach hphase
      refine ⟨_, l'', by unfold pass; rw [hphase]; exact if_neg hlive, hgoing, ?_⟩
      -- one more event has been reached, and no more can be than are linked
      have hle := hgoing.length_le
      rw [List.length_append, List.length_singleton] at hle
      unfold roundsLeft
      rw [hphase]
      dsimp only
      rw [List.length_append, List.length_singleton]
      rcases visit_phase p.loop i c with hcb | hwalk
      · rw [hcb]
        dsimp only
        omega
      · rw [hwalk]
        dsimp only
        omega
  | cb i c next =>
    left
    obtain ⟨s, hs, hsound, hpend, hsphase⟩ := h.pend.calls h.sound hphase (hcalls (by rw [hphase]; rfl))
    obtain ⟨hlive, l'', hgoing⟩ := h.ret hphase hsound hpend hsphase
    refine ⟨_, l'', by unfold pass; rw [hphase]; dsimp only; rw [hs]; exact if_neg hlive, hgoing, ?_⟩
    have hwalk : (finish i c next s).phase = .walk i next := by
      unfold finish
      rfl
    unfold roundsLeft
    rw [hphase, hwalk]
    exact Nat.lt_succ_self _

theorem dispatched_of_allowed (hsound : Sound s) (hpend : Pend s l) (hout : s.phase = .out)
    (hcalls : Allowed callback s fun s a => Callable s a ∧ Kindly s a) :
    ∃ fuel r, Yjc.Loop.run (pass callback) fuel (Pass.start s) = some (some r) ∧ Dispatched s r := by
  obtain ⟨r, hrun, r', hr, hdispatched⟩ := Yjc.Loop.run_of_measure (pass callback)
    (fun p => Yjc.Loop.Visits (pass callback) (Pass.start s) p ∧ ∃ l', Going l p l')
    (fun r => ∃ r', r = some r' ∧ Dispatched s r') (roundsLeft (linked l 10).length)
    (fun p q hp hq => by
      obtain ⟨hvisits, l', hgoing⟩ := hp
      obtain ⟨q', l'', hq', hgoing', hlt⟩ | ⟨hq', -⟩ := hgoing.round (hcalls p hvisits)
      · cases hq.symm.trans hq'
        exact ⟨⟨hvisits.round hq, l'', hgoing'⟩, hlt⟩
      · cases hq.symm.trans hq')
    (fun p r hp hr => by
      obtain ⟨hvisits, l', hgoing⟩ := hp
      obtain ⟨q', l'', hq', -⟩ | ⟨hr', hphase⟩ := hgoing.round (hcalls p hvisits)
      · cases hr.symm.trans hq'
      · cases hr.symm.trans hr'
        exact ⟨p, rfl, hgoing.dispatched hpend hout hphase⟩)
    ⟨.refl _ _, l, going_start hsound hpend hout⟩ (Nat.lt_succ_self _)
  exact ⟨_, r', hr ▸ hrun, hdispatched⟩

/-! ## What is freed under its feet -/

theorem pass_inl (h : pass callback p = .inl q) :
    (∃ i, p.loop.phase = .walk i none ∧ q.loop = visit i none p.loop) ∨
    (∃ i c, p.loop.phase = .walk i (some c) ∧ c ∉ p.loop.freed ∧ q.loop = visit i (some c) p.loop) ∨
    ∃ i c next s, p.loop.phase = .cb i c next ∧ Run.exec call p.loop (callback p) = some s ∧ c ∉ s.freed ∧
      q.loop = finish i c next s := by
  unfold pass at h
  cases hphase : p.loop.phase with
  | out =>
    rw [hphase] at h
    cases h
  | walk i cur =>
    cases cur with
    | none =>
      rw [hphase] at h
      cases h
      exact .inl ⟨i, rfl, rfl⟩
    | some c =>
      rw [hphase] at h
      dsimp only at h
      split_ifs at h with hc
      cases h
      exact .inr (.inl ⟨i, c, rfl, hc, rfl⟩)
  | cb i c next =>
    rw [hphase] at h
    dsimp only at h
    cases hs : Run.exec call p.loop (callback p) with
    | none =>
      rw [hs] at h
      cases h
    | some s =>
      rw [hs] at h
      dsimp only at h
      split_ifs at h with hc
      cases h
      exact .inr (.inr ⟨i, c, next, s, rfl, rfl, hc, rfl⟩)

theorem pass_returns {r : Pass} (h : pass callback p = .inr (some r)) : p.loop.phase = .out := by
  unfold pass at h
  cases hphase : p.loop.phase with
  | out => rfl
  | walk i cur =>
    cases cur with
    | none =>
      rw [hphase] at h
      cases h
    | some c =>
      rw [hphase] at h
      dsimp only at h
      split_ifs at h
      cases h
  | cb i c next =>
    rw [hphase] at h
    dsimp only at h
    cases hs : Run.exec call p.loop (callback p) with
    | none =>
      rw [hs] at h
      cases h
    | some s =>
      rw [hs] at h
      dsimp only at h
      split_ifs at h
      cases h

theorem finish_carried (s : Loop) (i c : ℕ) : ∃ u, Carried s u ∧ ∀ next, finish i c next s = { u with phase := .walk i next } := by
  have hmod := (changes_modify s c fun ev => { ev with pending := false }).carried rfl
  by_cases hd : ((s.modify c fun ev => { ev with pending := false }).mem c).destroy = true
  · refine ⟨_, hmod.trans (carried_eventDel _ c), fun next => ?_⟩
    unfold finish
    dsimp only
    rw [if_pos hd]
  · refine ⟨_, hmod, fun next => ?_⟩
    unfold finish
    dsimp only
    rw [if_neg hd]

theorem Dangling.passed (h : Dangling s) (haddr : Addressed s) (hposition : s.position = s.remaining i (some c))
    (hc : c ∉ s.freed) (hu : Carried s u) : Dangling { u with phase := .walk i (s.link c) } := by
  obtain ⟨e, ⟨j, hr⟩, hf⟩ := h
  have hne : c ≠ e := by
    rintro rfl
    exact hc hf
  refine ⟨e, ⟨j, ?_⟩, hu.freed e hf⟩
  rw [position_walk rfl]
  change Links.Reaches u.link _ e
  rcases eq_or_ne j i with rfl | hj
  · rw [hposition, remaining_self] at hr
    rw [remaining_self]
    cases hr with
    | here => exact absurd rfl hne
    | there hr => exact hu.reaches haddr (haddr.links c) hr
  · have hlt := haddr.position_lt j
    rw [hposition] at hr hlt
    have hsame : remaining { u with phase := .walk i (s.link c) } i (s.link c) j = s.remaining i (some c) j :=
      remaining_of_ne hj hu.pendings
    rw [hsame]
    exact hu.reaches haddr hlt hr

/-- The pointers are addresses, and a callback has not changed the link of its event. -/
structure Sane (p : Pass) : Prop where
  sound : Sound p.loop
  next : ∀ i c next, p.loop.phase = .cb i c next → next = p.loop.link c

/-- An event that is linked is freed, or is about to be. -/
def Doomed (callback : Pass → List Call) (p : Pass) : Prop :=
  p.loop.phase ≠ .out ∧
    (Dangling p.loop ∨ p.loop.phase.inCallback = true ∧ ¬Run.Along call Kindly p.loop (callback p))

theorem Doomed.dangling (h : Doomed callback p) (hphase : p.loop.phase.inCallback = false) : Dangling p.loop := by
  obtain ⟨-, hdangling | ⟨hin, -⟩⟩ := h
  · exact hdangling
  · rw [hphase] at hin
    cases hin

theorem not_dangling_end (hphase : s.phase = .walk 0 none) : ¬Dangling s := by
  rintro ⟨e, ⟨j, hr⟩, -⟩
  have hnone : s.position j = none := by
    rw [position_walk hphase, remaining]
    split_ifs
    · rfl
    · contradiction
    · rfl
  rw [hnone] at hr
  cases hr

theorem Dangling.list_end (h : Dangling s) (hphase : s.phase = .walk i none) : Dangling (visit i none s) := by
  cases i with
  | zero => exact absurd h (not_dangling_end hphase)
  | succ i =>
    obtain ⟨e, ⟨j, hr⟩, hf⟩ := h
    have hposition : (visit (i + 1) none s).position j = s.position j := by
      rw [position_walk hphase, position_walk rfl]
      unfold remaining
      change (if j = i then Function.update s.pendings (i + 1) none i
        else if j < i then Function.update s.pendings (i + 1) none j else none) = _
      rcases lt_trichotomy j (i + 1) with hlt | rfl | hgt
      · rw [Function.update_of_ne (Nat.ne_of_lt (Nat.lt_succ_self i)), Function.update_of_ne (Nat.ne_of_lt hlt),
          if_neg (Nat.ne_of_lt hlt), if_pos hlt]
        split_ifs with hji hjlt
        · rw [hji]
        · rfl
        · omega
      · rw [if_neg (Nat.succ_ne_self i), if_neg (Nat.not_succ_lt_self), if_pos rfl]
      · rw [if_neg (by omega), if_neg (by omega), if_neg (by omega), if_neg (by omega)]
    exact ⟨e, ⟨j, by rw [hposition]; exact hr⟩, hf⟩

theorem Dangling.reach (h : Dangling s) (haddr : Addressed s) (hphase : s.phase = .walk i (some c)) (hc : c ∉ s.freed) :
    Dangling (visit i (some c) s) := by
  have hposition := position_walk hphase
  unfold visit
  dsimp only
  split_ifs
  · obtain ⟨e, ⟨j, hr⟩, hf⟩ := h
    refine ⟨e, ⟨j, ?_⟩, hf⟩
    rw [hposition] at hr
    rw [position_cb rfl]
    exact hr
  · obtain ⟨u, hu, hfinish⟩ := finish_carried s i c
    rw [hfinish]
    exact h.passed haddr hposition hc hu
  · exact h.passed haddr hposition hc (carried_refl s)

theorem Going.sane (h : Going l p l') : Sane p := by
  refine ⟨h.sound, fun i c next hphase => ?_⟩
  have hb := h.pend.behind
  rw [Behind, hphase] at hb
  exact hb.1

theorem Sane.round (h : Sane p)
    (hcalls : p.loop.phase.inCallback = true → Run.Along call Callable p.loop (callback p)) (hq : pass callback p = .inl q) :
    Sane q ∧ (Doomed callback p → Doomed callback q) := by
  have hin := h.sound.addressed.phase
  obtain ⟨i, hphase, hloop⟩ | ⟨i, c, hphase, hc, hloop⟩ | ⟨i, c, next, s, hphase, hs, hc, hloop⟩ := pass_inl hq
  · refine ⟨⟨?_, fun j c next hcb => ?_⟩, fun hdoomed => ?_⟩
    · rw [hloop]
      exact h.sound.visit fun e he => by cases he
    · rw [hloop] at hcb
      cases i <;> cases hcb
    · have hdangling := hdoomed.dangling (by rw [hphase]; rfl)
      rw [Doomed, hloop]
      refine ⟨fun hout => ?_, .inl (hdangling.list_end hphase)⟩
      cases i with
      | zero => exact not_dangling_end hphase hdangling
      | succ i => cases hout
  · rw [hphase] at hin
    refine ⟨⟨?_, fun j c' next hcb => ?_⟩, fun hdoomed => ?_⟩
    · rw [hloop]
      exact h.sound.visit fun e he => hin e (Option.mem_toList.mpr he)
    · rw [hloop] at hcb ⊢
      revert hcb
      unfold visit
      dsimp only
      split_ifs
      · intro hcb
        cases hcb
        rfl
      · unfold finish
        intro hcb
        cases hcb
      · intro hcb
        cases hcb
    · have hdangling := hdoomed.dangling (by rw [hphase]; rfl)
      rw [Doomed, hloop]
      refine ⟨fun hout => ?_, .inl (hdangling.reach h.sound.addressed hphase hc)⟩
      rcases visit_phase p.loop i c with hcb | hwalk
      · rw [hcb] at hout
        cases hout
      · rw [hwalk] at hout
        cases hout
  · rw [hphase] at hin
    obtain ⟨hsound, hcarried, hdangling⟩ := calls_spec h.sound (hcalls (by rw [hphase]; rfl)) hs
    have hlt : ∀ x ∈ c :: next.toList, x < s.next := fun x hx => Nat.lt_of_lt_of_le (hin x hx) hcarried.next
    have hnext : next = s.link c := by
      rw [h.next i c next hphase, hcarried.links c (hin c List.mem_cons_self)]
    obtain ⟨u, hu, hfinish⟩ := finish_carried s i c
    have hwalk : q.loop.phase = .walk i next := by rw [hloop, hfinish]
    refine ⟨⟨?_, fun j c' next' hcb => ?_⟩, fun hdoomed => ⟨fun hout => ?_, .inl ?_⟩⟩
    · rw [hloop]
      exact hsound.finish (hlt c List.mem_cons_self) fun x hx => hlt x (List.mem_cons_of_mem _ (Option.mem_toList.mpr hx))
    · rw [hwalk] at hcb
      cases hcb
    · rw [hwalk] at hout
      cases hout
    · rw [hloop, hfinish, hnext]
      exact (hdangling (hdoomed.2.imp_right And.right)).passed hsound.addressed
        (position_cb (hcarried.phase.trans hphase)) hc hu

theorem not_returns_of_doomed
    (hcallable : Allowed callback s Callable) (hp : Yjc.Loop.Visits (pass callback) (Pass.start s) p) (hsane : Sane p)
    (hdoomed : Doomed callback p) {fuel : ℕ} {r : Pass} : Yjc.Loop.run (pass callback) fuel p ≠ some (some r) := by
  intro hrun
  obtain ⟨t, hvisits, ht⟩ := Yjc.Loop.exists_visits_of_run hrun
  obtain ⟨-, -, hout, -⟩ := hvisits.invariant
    (fun t => Yjc.Loop.Visits (pass callback) (Pass.start s) t ∧ Sane t ∧ Doomed callback t)
    (fun t u ht hu => by
      obtain ⟨hvisits, hsane, hdoomed⟩ := ht
      obtain ⟨hsane', hdoomed'⟩ := hsane.round (hcallable t hvisits) hu
      exact ⟨hvisits.round hu, hsane', hdoomed' hdoomed⟩)
    ⟨hp, hsane, hdoomed⟩
  exact hout (pass_returns ht)

/-- `evloop_process_pendings` returns, with each event that was pending reached once and what was ready invoked in the order
of the priorities, if and only if no callback deletes a timer that is linked, but not pending. -/
theorem dispatched_iff_kindly (hsound : Sound s) (hpend : Pend s l) (hout : s.phase = .out)
    (hcallable : Allowed callback s Callable) :
    (∃ fuel r, Yjc.Loop.run (pass callback) fuel (Pass.start s) = some (some r) ∧ Dispatched s r) ↔
      Allowed callback s Kindly := by
  constructor
  · rintro ⟨fuel, r, hrun, -⟩ p hp hcb
    by_contra hkindly
    have hsane : Sane p := (hp.invariant
      (fun t => Yjc.Loop.Visits (pass callback) (Pass.start s) t ∧ Sane t)
      (fun t u ht hu => ⟨ht.1.round hu, (ht.2.round (hcallable t ht.1) hu).1⟩)
      ⟨.refl _ _, (going_start hsound hpend hout).sane⟩).2
    have hdoomed : Doomed callback p := by
      refine ⟨fun hc => ?_, .inr ⟨hcb, hkindly⟩⟩
      rw [hc] at hcb
      cases hcb
    obtain ⟨k, hk⟩ := hp.run_eq
    have hagain : Yjc.Loop.run (pass callback) fuel p = some (some r) :=
      (hk fuel).symm.trans (Yjc.Loop.run_mono (Nat.le_add_right fuel k) hrun)
    exact not_returns_of_doomed hcallable hp hsane hdoomed hagain
  · intro hkindly
    exact dispatched_of_allowed hsound hpend hout fun p hp hcb => Run.along_and.mpr ⟨hcallable p hp hcb, hkindly p hp hcb⟩

/-- A timer and an idle event are due, whose callbacks add a timer each. -/
theorem dispatched_iff_kindly_sample :
    ∃ s, Run.exec step Loop.init
        [.call (.evidleAdd 2 true), .call (.evtimerAdd 0 5 1 true), .timer .timers 5000 0, .idles] = some s ∧
      ∃ fuel r, Yjc.Loop.run (pass fun _ => [.evtimerAdd 5000 3 1 true]) fuel (Pass.start s) = some (some r) ∧
        Dispatched s r := by
  refine ⟨_, rfl, ?_⟩
  have hacts : Run.Along step (fun s a => (Enabled s a ∧ Orderly s a) ∧ Deletable s a) Loop.init
      [.call (.evidleAdd 2 true), .call (.evtimerAdd 0 5 1 true), .timer .timers 5000 0, .idles] := by
    refine ⟨⟨⟨by decide, trivial⟩, trivial⟩, fun t ht => ?_⟩
    cases ht
    refine ⟨⟨⟨by decide, trivial⟩, trivial⟩, fun t ht => ?_⟩
    cases ht
    refine ⟨⟨⟨by decide, trivial⟩, trivial⟩, fun t ht => ?_⟩
    cases ht
    exact ⟨⟨⟨by decide, trivial⟩, trivial⟩, fun _ _ => trivial⟩
  obtain ⟨hsound, l, hl⟩ := pend_of_run hacts rfl
  have hallowed : ∀ (s : Loop) (ok : Loop → Call → Prop), (∀ t, ok t (.evtimerAdd 5000 3 1 true)) →
      Allowed (fun _ => [.evtimerAdd 5000 3 1 true]) s ok := fun s ok h p _ _ => ⟨h p.loop, fun _ _ => trivial⟩
  exact (dispatched_iff_kindly hsound hl rfl (hallowed _ _ fun _ => trivial)).mpr (hallowed _ _ fun _ => trivial)

/-- A call resets or deletes no timer that is still to run: one ahead that is not the running one itself. -/
def Spares (s : Loop) : Call → Prop
  | .evtimerReset e _ | .evtimerDel e => e ∈ s.phase.running ∨ ¬s.Ahead e
  | _ => True

/-- A callback that resets its own timer and deletes it. -/
def resetAndDelete (p : Pass) : List Call :=
  match p.loop.phase with
  | .cb _ c _ => [.evtimerReset c 7, .evtimerDel c]
  | _ => []

theorem freed_by_own_callback :
    ∃ s, Run.exec step Loop.init [.call (.evtimerAdd 0 5 1 true), .timer .timers 5000 0] = some s ∧
      Allowed resetAndDelete s (fun s a => Callable s a ∧ Spares s a) ∧
        ∀ fuel r, Yjc.Loop.run (pass resetAndDelete) fuel (Pass.start s) ≠ some (some r) := by
  refine ⟨_, rfl, fun p hp hcb => ?_, fun fuel r hrun => ?_⟩
  · rcases hp.cases_head with rfl | ⟨q, hq, hp⟩
    · cases hcb
    · cases hq
      rcases hp.cases_head with rfl | ⟨q', hq', -⟩
      · refine ⟨⟨by decide, .inl rfl⟩, fun t ht => ?_⟩
        cases ht
        exact ⟨⟨by decide, .inl rfl⟩, fun _ _ => trivial⟩
      · cases hq'
  · obtain ⟨t, hp, ht⟩ := Yjc.Loop.exists_visits_of_run hrun
    rcases hp.cases_head with rfl | ⟨q, hq, hp⟩
    · cases ht
    · cases hq
      rcases hp.cases_head with rfl | ⟨q', hq', -⟩
      · cases ht
      · cases hq'

end Yjc.Timers
