import Yjc.Watch.Epoll

/-! `evio_add` and `evio_del` as operations on sets of events. -/

namespace Yjc.Watch
open Evloop
variable {ω : Type} {W : Watcher ω} {l l' : Evloop ω} {fd : ℕ}

/-- The masks that were asked for: those added are united and those deleted are removed, in order. -/
def Act.ask (want : ℕ → Mask) : Act → ℕ → Mask
  | .get _ => want
  | .add fd m => Function.update want fd ((want fd).union m.mask)
  | .del fd m => Function.update want fd ((want fd).diff m.mask)
  | .done fd => Function.update want fd .empty

def wanted (acts : List Act) : ℕ → Mask := acts.foldl Act.ask fun _ => .empty

/-- A mask that is added has all or nothing of what the io is registered for. -/
def Evloop.AddsWhole (l : Evloop ω) : Act → Prop
  | .add fd m => ((l.view fd).1.meets m.mask = true → (l.view fd).1.union m.mask = (l.view fd).1)
  | _ => True

theorem events_of_reg {io : Evio} (h : l.reg fd = some io) : (l.view fd).1 = io.events := by
  obtain ⟨io', hio, rfl⟩ := ios_of_reg h
  rw [view_of_ios hio]
  rfl

theorem events_congr (h : l'.reg fd = l.reg fd) : (l'.view fd).1 = (l.view fd).1 := by
  cases hio : l.reg fd with
  | none =>
    have hnone : ∀ l : Evloop ω, l.reg fd = none → (l.view fd).1 = .empty := by
      intro l hl
      rw [view, Option.map_eq_none_iff.mp hl]
    rw [hnone l' (h.trans hio), hnone l hio]
  | some io => rw [events_of_reg (h.trans hio), events_of_reg hio]

theorem events_update {io : Evio} (h : l'.reg = Function.update l.reg fd (some io)) :
    (fun fd => (l'.view fd).1) = Function.update (fun fd => (l.view fd).1) fd io.events := by
  funext fd'
  by_cases hfd : fd' = fd
  · rw [hfd, Function.update_self]
    exact events_of_reg (by rw [h, Function.update_self])
  · rw [Function.update_of_ne hfd]
    exact events_congr (by rw [h, Function.update_of_ne hfd])

theorem events_step (h : Registered l) {a : Act} (hok : l.AddsWhole a) (hstep : step W l a = some l') :
    (fun fd => (l'.view fd).1) = a.ask fun fd => (l.view fd).1 := by
  cases a with
  | get fd =>
    cases hstep
    rw [events_update (evioGet_reg fd l), Act.ask]
    refine (congrArg _ ?_).trans (Function.update_eq_self fd _)
    cases hio : l.reg fd with
    | none =>
      rw [view, Option.map_eq_none_iff.mp hio]
      rfl
    | some io =>
      rw [Option.getD_some, (evioReady_eq h hio).2.2]
      exact (events_of_reg hio).symm
  | add fd m =>
    obtain ⟨io, hio, hreg, -⟩ := evioAdd_reg hstep
    have hev := events_of_reg hio
    rw [events_update hreg, (addIo_eq h hio).2.2, Act.ask]
    have hok' : io.events.meets m.mask = true → io.events.union m.mask = io.events := by
      rw [← hev]
      exact hok
    refine congrArg _ ?_
    rw [hev]
    split_ifs with hm
    · exact (hok' hm).symm
    · rfl
  | del fd m =>
    obtain ⟨io, hio, hreg, -⟩ := evioDel_reg hstep
    rw [events_update hreg, (delIo_eq (h.active fd io hio)).1, Act.ask, events_of_reg hio]
  | done fd =>
    obtain ⟨io, hio, ⟨hr, rfl⟩ | ⟨hreg, -⟩⟩ := evioDone_reg hstep
    · rw [Act.ask, ← h.unready fd io hio hr, ← events_of_reg hio]
      exact (Function.update_eq_self fd _).symm
    · have hact : ({ io with ready := false } : Evio).active = true ↔ ({ io with ready := false } : Evio).events ≠ .empty :=
        h.active fd io hio
      rw [events_update hreg, (delIo_eq hact).1, Mask.diff_rdwr, Act.ask]

/-- In every run in which no mask is added that has a part of what the io is registered for: `events` is the set
that was asked for, an io is active iff it is not empty, and `nios` counts the active ios. -/
theorem events_eq_wanted (W : Watcher ω) (w : ω) (acts : List Act) {l : Evloop ω}
    (hsafe : Run.Along (step W) Evloop.AddsWhole (.init w) acts) (hrun : Run.exec (step W) (.init w) acts = some l) :
    (∀ fd io, l.ios fd = some io → io.events = wanted acts fd ∧ (io.active = true ↔ io.events ≠ .empty)) ∧
      l.nios = (l.fds Evio.active).card := by
  have h : Registered l ∧ (fun fd => (l.view fd).1) = wanted acts := by
    refine Run.invariant_hist (fun hist (l : Evloop ω) => Registered l ∧ (fun fd => (l.view fd).1) = wanted hist) ?_ []
      ⟨Registered.init w, rfl⟩ hsafe hrun
    rintro hist l a l' ⟨hr, hev⟩ hok hstep
    refine ⟨hr.step hstep, ?_⟩
    rw [events_step hr hok hstep, hev, wanted, wanted, List.foldl_append]
    rfl
  refine ⟨fun fd io hio => ⟨?_, ?_⟩, h.1.nios⟩
  · have := congrFun h.2 fd
    rwa [view_of_ios hio] at this
  · exact h.1.active fd io.unindexed (reg_of_ios hio)

instance (l : Evloop ω) : (a : Act) → Decidable (l.AddsWhole a)
  | .add fd m => inferInstanceAs (Decidable ((l.view fd).1.meets m.mask = true → (l.view fd).1.union m.mask = (l.view fd).1))
  | .get _ | .del _ _ | .done _ => isTrue trivial

theorem events_eq_wanted_example :
    ∃ l, Run.exec (step Epoll.watcher) Epoll.init [.get 3, .add 3 .read, .add 3 .write, .del 3 .read] = some l ∧
      (∀ fd io, l.ios fd = some io → io.events = wanted [.get 3, .add 3 .read, .add 3 .write, .del 3 .read] fd ∧
        (io.active = true ↔ io.events ≠ .empty)) ∧
      l.nios = (l.fds Evio.active).card :=
  ⟨_, rfl, events_eq_wanted Epoll.watcher Epoll.init.iowatcher [.get 3, .add 3 .read, .add 3 .write, .del 3 .read] (by decide +kernel) rfl⟩

/-- `EV_RDWR` is added to an io that is registered for `EV_READ`: `EV_WRITE` is lost. -/
theorem events_lose_write :
    ∃ l io, Run.exec (step Epoll.watcher) Epoll.init [.get 3, .add 3 .read, .add 3 .rdwr] = some l ∧
      l.ios 3 = some io ∧ io.events = ⟨true, false⟩ ∧
      wanted [.get 3, .add 3 .read, .add 3 .rdwr] 3 = .rdwr :=
  ⟨_, _, rfl, rfl, rfl, rfl⟩

end Yjc.Watch
