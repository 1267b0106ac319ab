import Yjc.Watch.Register

/-! What a back end has to do for its watcher to stay in step with the ios, and that it then stays so in every
run. -/

namespace Yjc.Watch
open Evloop

def arrayInitSize : ℕ := 16

/-- `maxsize` after `double_resize`. -/
def doubleResize (maxsize : ℕ) : ℕ := if maxsize * 2 = 0 then arrayInitSize else maxsize * 2

/-- `maxsize` when there is to be room for one more than `size`. -/
def grow (size maxsize : ℕ) : ℕ := if size = maxsize then doubleResize maxsize else maxsize

theorem lt_grow {size maxsize : ℕ} (h : size ≤ maxsize) : size < grow size maxsize := by
  unfold grow doubleResize
  split_ifs with heq hzero
  · have : maxsize = 0 := by omega
    rw [heq, this]
    decide
  · omega
  · exact Nat.lt_of_le_of_ne h heq

/-- A report of the watcher: `revents` changes and `EVENT_PENDING`. -/
def Evloop.report {ω : Type} (l : Evloop ω) (fd : ℕ) (revents : Mask → Mask) : Evloop ω :=
  match l.ios fd with
  | none => l
  | some io => (l.setIo fd { io with revents := revents io.revents }).eventPending fd io

theorem report_of_ios {ω : Type} {l : Evloop ω} {fd : ℕ} {io : Evio} (revents : Mask → Mask) (h : l.ios fd = some io) :
    l.report fd revents = { l.setIo fd { io with revents := revents io.revents, pending := true } with
      pendings := if io.pending then l.pendings else fd :: l.pendings } := by
  obtain ⟨ready, active, pending, events, revents', eventIndex⟩ := io
  rw [Evloop.report, h]
  unfold eventPending
  cases pending
  · simp only [Bool.false_eq_true, if_false]
    rw [modify_of_ios _ (setIo_self ..)]
    unfold setIo
    simp only [Function.update_idem]
  · rfl

theorem Linked.report {ω : Type} {l : Evloop ω} (h : Linked l) (fd : ℕ) (revents : Mask → Mask) :
    Linked (l.report fd revents) := by
  cases hio : l.ios fd with
  | none =>
    rw [Evloop.report, hio]
    exact h
  | some io =>
    rw [report_of_ios revents hio]
    intro fd'
    have hfd' := h fd'
    change List.count fd' (if io.pending then l.pendings else fd :: l.pendings) =
      if ((l.setIo fd { io with revents := revents io.revents, pending := true }).reg fd').any Evio.pending then 1 else 0
    rw [reg_setIo]
    rcases eq_or_ne fd' fd with rfl | hne
    · rw [reg_of_ios hio] at hfd'
      rw [Function.update_self]
      obtain ⟨ready, active, pending, events, revents', eventIndex⟩ := io
      cases pending
      · simpa [Evio.unindexed] using hfd'
      · exact hfd'
    · rw [Function.update_of_ne hne, ← hfd']
      split_ifs
      · rfl
      · rw [List.count_cons_of_ne hne.symm]

/-- The loop when the pending ios have been handled: they are not pending, and `revents` is what their callbacks
left. -/
def Evloop.processed {ω : Type} (l : Evloop ω) (revents : ℕ → Mask) : Evloop ω :=
  { l with
    ios := fun fd =>
      if fd ∈ l.pendings then (l.ios fd).map fun io => { io with pending := false, revents := revents fd }
      else l.ios fd
    pendings := [] }

theorem reg_processed {ω : Type} (l : Evloop ω) (revents : ℕ → Mask) (fd : ℕ) :
    (l.processed revents).reg fd =
      if fd ∈ l.pendings then (l.reg fd).map fun io => { io with pending := false, revents := revents fd }
      else l.reg fd := by
  unfold Evloop.reg Evloop.processed
  dsimp only
  split_ifs
  · cases l.ios fd <;> rfl
  · rfl

theorem Linked.processed {ω : Type} {l : Evloop ω} (h : Linked l) (revents : ℕ → Mask) : Linked (l.processed revents) := by
  intro fd
  rw [reg_processed]
  have hfd := h fd
  split_ifs with hmem hpend
  · cases hio : l.reg fd <;> simp [hio] at hpend
  · rfl
  · rw [if_pos ‹_›, List.count_eq_zero_of_not_mem hmem] at hfd
    cases hfd
  · rfl

theorem view_processed {ω : Type} (l : Evloop ω) (revents : ℕ → Mask) : (l.processed revents).view = l.view := by
  funext fd
  unfold view Evloop.processed
  dsimp only
  split_ifs
  · cases l.ios fd <;> rfl
  · rfl

theorem Registered.processed {ω : Type} {l : Evloop ω} (h : Registered l) (revents : ℕ → Mask) :
    Registered (l.processed revents) := by
  have hold : ∀ {fd io}, (l.processed revents).reg fd = some io →
      ∃ io', l.reg fd = some io' ∧ io.active = io'.active ∧ io.events = io'.events ∧ io.ready = io'.ready := by
    intro fd io hio
    rw [reg_processed] at hio
    split_ifs at hio
    · obtain ⟨io', hio', rfl⟩ := Option.map_eq_some_iff.mp hio
      exact ⟨io', hio', rfl, rfl, rfl⟩
    · exact ⟨io, hio, rfl, rfl, rfl⟩
  have hfds : (l.processed revents).fds Evio.active = l.fds Evio.active := by
    rw [fds_eq_reg, fds_eq_reg]
    congr 1
    funext fd
    rw [reg_processed]
    split_ifs
    · cases l.reg fd <;> rfl
    · rfl
  refine ⟨fun fd io hio => ?_, fun fd io hio => ?_, fun fd io hio => ?_, h.nios.trans (congrArg _ hfds.symm)⟩
  · obtain ⟨io', hio', -⟩ := hold hio
    exact h.bound fd io' hio'
  · obtain ⟨io', hio', hact, hev, -⟩ := hold hio
    rw [hact, hev]
    exact h.active fd io' hio'
  · obtain ⟨io', hio', -, hev, hready⟩ := hold hio
    rw [hev, hready]
    exact h.unready fd io' hio'

/-- The bits of `revents` that poll and epoll report: `POLLIN`, `POLLOUT`, `POLLHUP`, `POLLERR` and any other. -/
structure Revents where
  inp : Bool
  out : Bool
  hup : Bool
  err : Bool
  other : Bool
deriving DecidableEq

def Revents.zero : Revents := ⟨false, false, false, false, false⟩

def Revents.mask (r : Revents) : Mask := ⟨r.inp || r.hup || r.err, r.out || r.hup || r.err⟩

/-- The rest of the scan of what poll or epoll_wait reported, `n` being what it returned; `nevents` and the loop. -/
def scanRevents {ω : Type} (n : ℕ) : List (ℕ × Revents) → ℕ → Evloop ω → ℕ × Evloop ω
  | [], nevents, l => (nevents, l)
  | (fd, revents) :: rest, nevents, l =>
    if revents = .zero then if nevents = n then (nevents, l) else scanRevents n rest nevents l
    else
      let l := l.report fd (·.union revents.mask)
      if nevents + 1 = n then (nevents + 1, l) else scanRevents n rest (nevents + 1) l

/-- The io that a call is about exists. -/
def Evloop.Known {ω : Type} (l : Evloop ω) : Act → Prop
  | .get _ => True
  | .add fd _ | .del fd _ | .done fd => (l.ios fd).isSome

instance {ω : Type} (l : Evloop ω) : (a : Act) → Decidable (l.Known a)
  | .get _ => isTrue trivial
  | .add fd _ | .del fd _ | .done fd => inferInstanceAs (Decidable ((l.ios fd).isSome))

/-- A watcher with what it keeps to. `Inv` relates the events and the index of every fd to the watcher; `Ok` is
what `iowatcher_add_event` of an fd needs besides. -/
structure Backend (ω : Type) extends Watcher ω where
  Inv : (ℕ → Mask × ℤ) → ω → Prop
  Ok : (ℕ → Mask × ℤ) → ω → ℕ → Prop
  quiet : ∀ {view w fd}, Inv view w → (view fd).1 = .empty → (view fd).2 = -1
  add_inv : ∀ {l io fd m}, Inv l.view l.iowatcher → l.ios fd = some io → m ≠ .empty → io.events.meets m = false →
    Ok l.view l.iowatcher fd → ∃ l', addEvent fd m l = some l' ∧
      Inv (Function.update l'.view fd (io.events.union m, (l'.view fd).2)) l'.iowatcher
  del_inv : ∀ {l io fd m}, Inv l.view l.iowatcher → l.ios fd = some io → io.events.meets m = true →
    ∃ l', delEvent fd m l = some l' ∧
      Inv (Function.update l'.view fd (io.events.diff m, (l'.view fd).2)) l'.iowatcher

theorem Evio.events_of_unindexed {io io' : Evio} (h : io.unindexed = io'.unindexed) : io.events = io'.events := by
  have := congrArg Evio.events h
  exact this

namespace Backend
variable {ω : Type} (B : Backend ω)

structure Sound (l : Evloop ω) : Prop extends Registered l where
  inv : B.Inv l.view l.iowatcher

/-- The io that a call is about exists, and an fd that comes to `iowatcher_add_event` is one that it takes. -/
def Pre (l : Evloop ω) : Act → Prop
  | .get _ => True
  | .add fd m => (l.ios fd).isSome ∧ ((l.view fd).1.meets m.mask = false → B.Ok l.view l.iowatcher fd)
  | .del fd _ | .done fd => (l.ios fd).isSome

variable {B} in
theorem pre_of_known {l : Evloop ω} {a : Act} (h : l.Known a) (hok : ∀ fd, B.Ok l.view l.iowatcher fd) : B.Pre l a := by
  cases a with
  | get => trivial
  | add fd m => exact ⟨h, fun _ => hok fd⟩
  | del | done => exact h

variable {B} {l l' : Evloop ω} {fd : ℕ} {io : Evio} {m : Mask}

theorem Sound.quiet (h : B.Sound l) (hio : l.ios fd = some io) (he : io.events = .empty) : io.eventIndex = -1 := by
  have hview := view_of_ios hio
  have hnone : (l.view fd).1 = .empty := by rw [hview, he]
  have := B.quiet h.inv hnone
  rwa [hview] at this

theorem Sound.view_evioReady (h : B.Sound l) (hio : l.ios fd = some io) :
    ((evioReady io).events, (evioReady io).eventIndex) = l.view fd := by
  rw [view_of_ios hio]
  unfold evioReady
  split_ifs with hr
  · rfl
  · have he : io.events = .empty := h.unready fd io.unindexed (reg_of_ios hio) ((Bool.not_eq_true _).mp hr)
    rw [he, h.quiet hio he]

theorem Sound.view_get (h : B.Sound l) (fd : ℕ) : (evioGet fd l).view = l.view := by
  have hset : ∀ l₁ : Evloop ω, l₁.ios = l.ios →
      (l₁.setIo fd (evioReady ((l₁.ios fd).getD ⟨false, false, false, .empty, .empty, 0⟩))).view = l.view := by
    intro l₁ hl₁
    have hview : l₁.view = l.view := by
      unfold view
      rw [hl₁]
    rw [view_setIo, hview, hl₁]
    refine (congrArg _ ?_).trans (Function.update_eq_self fd l.view)
    cases hio : l.ios fd with
    | none =>
      rw [view, hio]
      rfl
    | some io => exact h.view_evioReady hio
  unfold evioGet
  dsimp only
  split_ifs <;> exact hset _ rfl

theorem Sound.get (h : B.Sound l) (fd : ℕ) : B.Sound (evioGet fd l) := by
  refine ⟨h.toRegistered.get fd, ?_⟩
  have hw : (evioGet fd l).iowatcher = l.iowatcher := by
    unfold evioGet
    dsimp only
    split_ifs <;> rfl
  rw [h.view_get, hw]
  exact h.inv

theorem Sound.view_activate (h : B.Sound l) (hio : l.ios fd = some io) : (l.activate fd io).view = l.view := by
  have hready : ((evioReady { io with active := true }).events, (evioReady { io with active := true }).eventIndex) =
      ((evioReady io).events, (evioReady io).eventIndex) := by
    unfold evioReady
    dsimp only
    split_ifs <;> rfl
  rw [Evloop.activate, view_setIo, hready, h.view_evioReady hio]
  exact Function.update_eq_self fd l.view

theorem Sound.add (h : B.Sound l) (hio : l.ios fd = some io) (hm : m ≠ .empty)
    (hok : io.events.meets m = false → B.Ok l.view l.iowatcher fd) :
    ∃ l', evioAdd B.toWatcher fd m l = some l' ∧ B.Sound l' := by
  have hview := h.view_activate hio
  have hio₁ : (l.activate fd io).ios fd = some (evioReady { io with active := true }) := setIo_self ..
  have hev : (evioReady { io with active := true }).events = io.events := by
    have := (view_of_ios hio₁).symm.trans ((congrFun hview fd).trans (view_of_ios hio))
    exact congrArg Prod.fst this
  have heq := evioAdd_eq hio (W := B.toWatcher) (m := m)
  rw [hev] at heq
  by_cases hmeets : io.events.meets m = true
  · rw [if_pos hmeets] at heq
    refine ⟨_, heq, h.toRegistered.add hm heq, ?_⟩
    rw [hview]
    exact h.inv
  · rw [if_neg hmeets] at heq
    have hnot := (Bool.not_eq_true _).mp hmeets
    obtain ⟨l₁, hadd, hinv⟩ := B.add_inv (l := l.activate fd io) (m := m) (by rw [hview]; exact h.inv) hio₁ hm
      (by rw [hev]; exact hnot) (by rw [hview]; exact hok hnot)
    rw [hadd, Option.map_some] at heq
    refine ⟨_, heq, h.toRegistered.add hm heq, ?_⟩
    have hk := B.add_keeps hadd
    obtain ⟨io₁, hl₁, hun⟩ := ios_of_reg (hk.reg ▸ reg_of_ios hio₁)
    have hev₁ := Evio.events_of_unindexed hun
    rw [modify_of_ios _ hl₁, view_setIo, hev₁]
    rw [view_of_ios hl₁] at hinv
    exact hinv

theorem unwatch_inv (h : B.Inv l.view l.iowatcher) (hio : l.ios fd = some io) :
    ∃ l₁, evioUnwatch B.toWatcher fd m io l = some l₁ ∧ B.Inv l₁.view l₁.iowatcher := by
  unfold evioUnwatch
  split_ifs with hmeets
  · obtain ⟨l₁, hdel, hinv⟩ := B.del_inv h hio hmeets
    refine ⟨_, congrArg _ hdel, ?_⟩
    have hk := B.del_keeps hdel
    obtain ⟨io₁, hl₁, hun⟩ := ios_of_reg (hk.reg ▸ reg_of_ios hio)
    have hev := Evio.events_of_unindexed hun
    change B.Inv (l₁.modify fd _).view (l₁.modify fd _).iowatcher
    rw [modify_of_ios _ hl₁, view_setIo, hev]
    rw [view_of_ios hl₁] at hinv
    exact hinv
  · exact ⟨l, rfl, h⟩

theorem evioDel_inv (h : B.Inv l.view l.iowatcher) (hio : l.ios fd = some io) (m : Mask) :
    ∃ l', evioDel B.toWatcher fd m l = some l' ∧ B.Inv l'.view l'.iowatcher := by
  rw [evioDel_eq hio]
  split_ifs with hact
  · obtain ⟨l₁, hl₁, hinv⟩ := unwatch_inv h hio (m := m)
    obtain ⟨hreg, -⟩ := evioUnwatch_reg hio hl₁
    obtain ⟨io₁, hio₁, hun⟩ := ios_of_reg (show l₁.reg fd = some _ by rw [hreg, Function.update_self])
    have hact₁ : io₁.active = true := (congrArg Evio.active hun).trans hact
    obtain ⟨l₂, hl₂, -, -, -, hview, hw⟩ := evioInactive_reg hio₁ hact₁
    refine ⟨l₂, by rw [hl₁, Option.bind_some, hl₂], ?_⟩
    rw [hview, hw]
    exact hinv
  · exact ⟨l, rfl, h⟩

theorem Sound.del (h : B.Sound l) (hio : l.ios fd = some io) (m : Mask) :
    ∃ l', evioDel B.toWatcher fd m l = some l' ∧ B.Sound l' := by
  obtain ⟨l', hl', hinv⟩ := evioDel_inv h.inv hio m
  exact ⟨l', hl', h.toRegistered.del hl', hinv⟩

theorem Sound.done (h : B.Sound l) (hio : l.ios fd = some io) :
    ∃ l', evioDone B.toWatcher fd l = some l' ∧ B.Sound l' := by
  have hdone : ∃ l', evioDone B.toWatcher fd l = some l' ∧ B.Inv l'.view l'.iowatcher := by
    rw [evioDone, hio]
    change ∃ l', (if io.ready then _ else some l) = some l' ∧ _
    split_ifs with hr
    · rw [modify_of_ios _ hio]
      have hview : (l.setIo fd { io with ready := false }).view = l.view := by
        rw [view_setIo]
        exact view_of_ios hio ▸ Function.update_eq_self fd l.view
      exact evioDel_inv (by rw [hview]; exact h.inv) (setIo_self ..) .rdwr
    · exact ⟨l, rfl, h.inv⟩
  obtain ⟨l', hl', hinv⟩ := hdone
  exact ⟨l', hl', h.toRegistered.done hl', hinv⟩

theorem Sound.report (h : B.Sound l) (fd : ℕ) (revents : Mask → Mask) : B.Sound (l.report fd revents) := by
  cases hio : l.ios fd with
  | none =>
    rw [Evloop.report, hio]
    exact h
  | some io =>
    rw [report_of_ios revents hio]
    have hreg := reg_of_ios hio
    have hact := h.active fd io.unindexed hreg
    have hun := h.unready fd io.unindexed hreg
    refine ⟨h.toRegistered.update (reg_setIo ..) (Nat.le_refl _) (h.bound fd _ hreg) hact hun ?_, ?_⟩
    · rw [hreg]
      rfl
    · refine Eq.mp (congrArg (B.Inv · l.iowatcher) ?_) h.inv
      refine Eq.trans ?_ (view_setIo l fd _).symm
      exact view_of_ios hio ▸ (Function.update_eq_self fd l.view).symm

theorem Sound.processed (h : B.Sound l) (revents : ℕ → Mask) : B.Sound (l.processed revents) :=
  ⟨h.toRegistered.processed revents, view_processed l revents ▸ h.inv⟩

theorem Sound.scanRevents (h : B.Sound l) (n : ℕ) (reports : List (ℕ × Revents)) (nevents : ℕ) :
    B.Sound (scanRevents n reports nevents l).2 := by
  induction reports generalizing nevents l with
  | nil => exact h
  | cons r reports ih =>
    unfold Watch.scanRevents
    dsimp only
    split_ifs
    · exact h
    · exact ih h _
    · exact h.report r.1 fun m => m.union r.2.mask
    · exact ih (h.report r.1 _) _

/-- `iowatcher` stays in step, and every assert of it holds. -/
theorem Sound.step (h : B.Sound l) {a : Act} (hpre : B.Pre l a) :
    ∃ l', step B.toWatcher l a = some l' ∧ B.Sound l' := by
  cases a with
  | get fd => exact ⟨_, rfl, h.get fd⟩
  | add fd m =>
    obtain ⟨io, hio⟩ := Option.isSome_iff_exists.mp hpre.1
    refine h.add hio m.mask_ne_empty fun hmeets => hpre.2 ?_
    rw [view_of_ios hio]
    exact hmeets
  | del fd m =>
    obtain ⟨io, hio⟩ := Option.isSome_iff_exists.mp hpre
    exact h.del hio m.mask
  | done fd =>
    obtain ⟨io, hio⟩ := Option.isSome_iff_exists.mp hpre
    exact h.done hio

end Backend

end Yjc.Watch
