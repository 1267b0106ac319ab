import Yjc.Watch.Backend
import Mathlib.Data.Finset.Basic

/-! The epoll back end: the interest set of the kernel follows `io->events`, and `events.size` is at once the number
of registrations, the limit of epoll_wait and the bound of the scan. -/

namespace Yjc.Watch
open Evloop

/-- `interest` is what the kernel watches; `ptr` is the array that epoll_wait fills. -/
structure EpollCtx where
  interest : ℕ → Option Mask
  size : ℕ
  maxsize : ℕ
  ptr : List (ℕ × Revents)

namespace Epoll

def eventsInitSize : ℕ := 64

def init : Evloop EpollCtx :=
  .init ⟨fun _ => none, 0, eventsInitSize, List.replicate eventsInitSize (0, .zero)⟩

inductive Op
  | add
  | mod
  | del
deriving DecidableEq

/-- `epoll_ctl`; `none` where it fails with `EEXIST` or `ENOENT`. -/
def epollCtl (op : Op) (fd : ℕ) (events : Mask) (interest : ℕ → Option Mask) : Option (ℕ → Option Mask) :=
  match op, interest fd with
  | .add, none => some (Function.update interest fd (some events))
  | .mod, some _ => some (Function.update interest fd (some events))
  | .del, some _ => some (Function.update interest fd none)
  | .add, some _ | .mod, none | .del, none => none

def addEvent (fd : ℕ) (events : Mask) (l : Evloop EpollCtx) : Option (Evloop EpollCtx) := do
  let io ← l.ios fd
  let w := l.iowatcher
  let op := if io.events = .empty then Op.add else Op.mod
  let interest ← epollCtl op fd (io.events.union events) w.interest
  if op = .add then
    let maxsize := grow w.size w.maxsize
    some { l with iowatcher :=
      ⟨interest, w.size + 1, maxsize, w.ptr ++ List.replicate (maxsize - w.maxsize) (0, .zero)⟩ }
  else some { l with iowatcher := { w with interest := interest } }

def delEvent (fd : ℕ) (events : Mask) (l : Evloop EpollCtx) : Option (Evloop EpollCtx) := do
  let io ← l.ios fd
  let w := l.iowatcher
  let op := if io.events.diff events = .empty then Op.del else Op.mod
  let interest ← epollCtl op fd (io.events.diff events) w.interest
  if op = .del then some { l with iowatcher := { w with interest := interest, size := w.size - 1 } }
  else some { l with iowatcher := { w with interest := interest } }

theorem addEvent_keeps {fd : ℕ} {m : Mask} {l l' : Evloop EpollCtx} (h : addEvent fd m l = some l') : Keeps l l' := by
  obtain ⟨io, hio, h⟩ := Option.bind_eq_some_iff.mp h
  obtain ⟨interest, -, h⟩ := Option.bind_eq_some_iff.mp h
  dsimp only at h
  split_ifs at h <;> cases h <;> exact ⟨rfl, rfl, rfl, rfl⟩

theorem delEvent_keeps {fd : ℕ} {m : Mask} {l l' : Evloop EpollCtx} (h : delEvent fd m l = some l') : Keeps l l' := by
  obtain ⟨io, hio, h⟩ := Option.bind_eq_some_iff.mp h
  obtain ⟨interest, -, h⟩ := Option.bind_eq_some_iff.mp h
  split_ifs at h <;> cases h <;> exact ⟨rfl, rfl, rfl, rfl⟩

def watcher : Watcher EpollCtx := ⟨addEvent, delEvent, addEvent_keeps, delEvent_keeps⟩

/-- What epoll_wait comes back with. -/
inductive Result
  | ready (reports : List (ℕ × Revents))
  | eintr
  | error

def fill (reports ptr : List (ℕ × Revents)) : List (ℕ × Revents) := reports ++ ptr.drop reports.length

def pollEvents (r : Result) (l : Evloop EpollCtx) : ℤ × Evloop EpollCtx :=
  if l.iowatcher.size = 0 then (0, l)
  else
    match r with
    | .eintr => (0, l)
    | .error => (-1, l)
    | .ready reports =>
      let w := { l.iowatcher with ptr := fill reports l.iowatcher.ptr }
      let l := { l with iowatcher := w }
      let nepoll := reports.length
      if nepoll = 0 then (0, l)
      else
        let r := scanRevents nepoll (w.ptr.take w.size) 0 l
        (r.1, r.2)

inductive Act
  | reg (a : Watch.Act)
  | poll (r : Result)
  | process (revents : ℕ → Mask)

def step (l : Evloop EpollCtx) : Act → Option (Evloop EpollCtx)
  | .reg a => Watch.step watcher l a
  | .poll r => some (pollEvents r l).2
  | .process revents => some (l.processed revents)

/-! ## The interest set -/

/-- What the kernel watches of an fd with these events. -/
def interestOf (events : Mask) : Option Mask := if events = .empty then none else some events

structure Inv (view : ℕ → Mask × ℤ) (w : EpollCtx) : Prop where
  index : ∀ fd, (view fd).2 = -1
  mirror : ∀ fd, w.interest fd = interestOf (view fd).1
  count : ∃ S : Finset ℕ, (∀ fd, fd ∈ S ↔ (view fd).1 ≠ .empty) ∧ w.size = S.card
  size : w.size ≤ w.maxsize
  ptr : w.ptr.length = w.maxsize

variable {view : ℕ → Mask × ℤ} {w : EpollCtx} {fd : ℕ} {m : Mask} {l l' : Evloop EpollCtx} {io : Evio}

theorem Inv.update (h : Inv view w) {size maxsize : ℕ} {ptr : List (ℕ × Revents)}
    (hsize : size + (if (view fd).1 = .empty then 0 else 1) = w.size + if m = .empty then 0 else 1)
    (hmax : size ≤ maxsize) (hptr : ptr.length = maxsize) :
    Inv (Function.update view fd (m, (view fd).2)) ⟨Function.update w.interest fd (interestOf m), size, maxsize, ptr⟩ := by
  obtain ⟨S, hS, hcard⟩ := h.count
  refine ⟨fun fd' => (update_index view fd m fd').trans (h.index fd'), fun fd' => ?_, ?_, hmax, hptr⟩
  · dsimp only
    rcases eq_or_ne fd' fd with rfl | hne
    · rw [Function.update_self, Function.update_self]
    · rw [Function.update_of_ne hne, Function.update_of_ne hne]
      exact h.mirror fd'
  · refine ⟨if m = .empty then S.erase fd else insert fd S, fun fd' => ?_, ?_⟩
    · rcases eq_or_ne fd' fd with rfl | hne
      · rw [Function.update_self]
        split_ifs with hm <;> simp [hm]
      · rw [Function.update_of_ne hne, ← hS fd']
        split_ifs <;> simp [hne]
    · have hagree : ∀ x, x ≠ fd → (x ∈ (if m = .empty then S.erase fd else insert fd S) ↔ x ∈ S) := by
        intro x hne
        split_ifs <;> simp [hne]
      have hadd := Card.card_add_of_agree hagree
      have hnew : (if fd ∈ (if m = .empty then S.erase fd else insert fd S) then 1 else 0) = if m = .empty then 0 else 1 := by
        split_ifs <;> simp_all
      have hwas : (if fd ∈ S then 1 else 0) = if (view fd).1 = .empty then 0 else 1 := by
        simp only [hS, ne_eq, ite_not]
      rw [hnew, hwas] at hadd
      dsimp only
      omega

theorem interestOf_of_ne (h : m ≠ .empty) : interestOf m = some m := if_neg h

theorem epollCtl_add (h : w.interest fd = interestOf io.events) (hm : m ≠ .empty) :
    epollCtl (if io.events = .empty then .add else .mod) fd m w.interest =
      some (Function.update w.interest fd (interestOf m)) := by
  unfold epollCtl
  rw [h, interestOf_of_ne hm]
  by_cases hev : io.events = .empty
  · rw [if_pos hev, hev]
    rfl
  · rw [if_neg hev, interestOf_of_ne hev]

theorem epollCtl_del (h : w.interest fd = interestOf io.events) (hev : io.events ≠ .empty) :
    epollCtl (if m = .empty then .del else .mod) fd m w.interest = some (Function.update w.interest fd (interestOf m)) := by
  unfold epollCtl
  rw [h, interestOf_of_ne hev]
  by_cases hm : m = .empty
  · rw [if_pos hm, hm]
    rfl
  · rw [if_neg hm, interestOf_of_ne hm]

theorem addEvent_inv (h : Inv l.view l.iowatcher) (hio : l.ios fd = some io) (hm : m ≠ .empty) :
    ∃ l', addEvent fd m l = some l' ∧ Inv (Function.update l'.view fd (io.events.union m, (l'.view fd).2)) l'.iowatcher := by
  have hev : (l.view fd).1 = io.events := by rw [view_of_ios hio]
  have hne := Mask.union_ne_empty hm (m := io.events)
  have hctl := epollCtl_add (hev ▸ h.mirror fd) hne
  have hgrow := lt_grow h.size
  unfold addEvent
  rw [hio, Option.bind_eq_bind, Option.bind_some]
  dsimp only
  rw [hctl, Option.bind_eq_bind, Option.bind_some]
  by_cases hnew : io.events = .empty
  · rw [if_pos hnew, if_pos rfl]
    refine ⟨_, rfl, h.update ?_ hgrow ?_⟩
    · rw [hev, if_pos hnew, if_neg hne, Nat.add_zero]
    · have hle : l.iowatcher.maxsize ≤ grow l.iowatcher.size l.iowatcher.maxsize := by
        unfold grow doubleResize
        split_ifs <;> omega
      rw [List.length_append, List.length_replicate, h.ptr]
      omega
  · rw [if_neg hnew, if_neg (by decide)]
    refine ⟨_, rfl, h.update ?_ h.size h.ptr⟩
    rw [hev, if_neg hnew, if_neg hne]

theorem delEvent_inv (h : Inv l.view l.iowatcher) (hio : l.ios fd = some io) (hne : io.events ≠ .empty) :
    ∃ l', delEvent fd m l = some l' ∧ Inv (Function.update l'.view fd (io.events.diff m, (l'.view fd).2)) l'.iowatcher := by
  have hev : (l.view fd).1 = io.events := by rw [view_of_ios hio]
  have hctl := epollCtl_del (m := io.events.diff m) (hev ▸ h.mirror fd) hne
  have hpos : 0 < l.iowatcher.size := by
    obtain ⟨S, hS, hcard⟩ := h.count
    rw [hcard]
    exact Finset.card_pos.mpr ⟨fd, (hS fd).mpr (by rw [hev]; exact hne)⟩
  have hsize := h.size
  unfold delEvent
  rw [hio, Option.bind_eq_bind, Option.bind_some]
  dsimp only
  rw [hctl, Option.bind_eq_bind, Option.bind_some]
  by_cases hgone : io.events.diff m = .empty
  · rw [if_pos hgone, if_pos rfl]
    refine ⟨_, rfl, h.update ?_ (by omega) h.ptr⟩
    rw [hev, if_pos hgone, if_neg hne]
    omega
  · rw [if_neg hgone, if_neg (by decide)]
    refine ⟨_, rfl, h.update ?_ h.size h.ptr⟩
    rw [hev, if_neg hgone, if_neg hne]

def backend : Backend EpollCtx where
  toWatcher := watcher
  Inv := Inv
  Ok _ _ _ := True
  quiet h _ := h.index _
  add_inv h hio hm _ _ := addEvent_inv h hio hm
  del_inv h hio hmeets := delEvent_inv h hio (Mask.ne_empty_of_meets hmeets)

theorem sound_init : backend.Sound init := by
  refine ⟨Registered.init _, ⟨fun _ => rfl, fun _ => rfl, ⟨∅, fun fd => ?_, rfl⟩, Nat.zero_le _, List.length_replicate⟩⟩
  exact iff_of_false (Finset.notMem_empty fd) (not_not.mpr rfl)

/-! ## Reports -/

/-- What epoll_wait reports: at most `size` fds that the kernel watches, each once and with some event. -/
def Reports (w : EpollCtx) (reports : List (ℕ × Revents)) : Prop :=
  reports.length ≤ w.size ∧ (reports.map Prod.fst).Nodup ∧
    ∀ r ∈ reports, (w.interest r.1).isSome = true ∧ r.2 ≠ .zero

def deliver (l : Evloop EpollCtx) (reports : List (ℕ × Revents)) : Evloop EpollCtx :=
  reports.foldl (fun l r => l.report r.1 (·.union r.2.mask)) l

theorem scanRevents_eq {reports rest : List (ℕ × Revents)} (hne : reports ≠ []) (hrep : ∀ r ∈ reports, r.2 ≠ .zero)
    {k n : ℕ} (hn : k + reports.length = n) : scanRevents n (reports ++ rest) k l = (n, deliver l reports) := by
  -- the scan stops after the reports and leaves what the array has beyond them alone
  induction reports generalizing k l with
  | nil => exact absurd rfl hne
  | cons r reports ih =>
    rw [List.cons_append, scanRevents, if_neg (hrep r List.mem_cons_self)]
    dsimp only
    rw [List.length_cons] at hn
    cases reports with
    | nil =>
      have hk : k + 1 = n := hn
      rw [if_pos hk, hk]
      rfl
    | cons r' reports =>
      have hn' : k + 1 + (r' :: reports).length = n := by omega
      have hk : ¬k + 1 = n := by
        rw [List.length_cons] at hn'
        omega
      rw [if_neg hk, ih (List.cons_ne_nil _ _) (fun r hr => hrep r (List.mem_cons_of_mem _ hr)) hn']
      rfl

/-- The loop when epoll_wait has come back. -/
def waited (l : Evloop EpollCtx) (reports : List (ℕ × Revents)) : Evloop EpollCtx :=
  { l with iowatcher := { l.iowatcher with ptr := fill reports l.iowatcher.ptr } }

theorem pollEvents_ready {reports : List (ℕ × Revents)} (h : Reports l.iowatcher reports) :
    pollEvents (.ready reports) l = ((reports.length : ℤ), deliver (waited l reports) reports) := by
  unfold pollEvents
  by_cases hnil : reports = []
  · subst hnil
    split_ifs <;> rfl
  · have hlen : reports.length ≠ 0 := mt List.eq_nil_of_length_eq_zero hnil
    have hsize : l.iowatcher.size ≠ 0 := by
      have := h.1
      omega
    rw [if_neg hsize]
    dsimp only
    rw [if_neg hlen]
    have htake : (fill reports l.iowatcher.ptr).take l.iowatcher.size =
        reports ++ (l.iowatcher.ptr.drop reports.length).take (l.iowatcher.size - reports.length) := by
      rw [fill, List.take_append, List.take_of_length_le h.1]
    rw [htake, scanRevents_eq hnil (fun r hr => (h.2.2 r hr).2) (Nat.zero_add _)]
    rfl

theorem report_ios_self (hio : l.ios fd = some io) (revents : Mask → Mask) :
    (l.report fd revents).ios fd = some { io with revents := revents io.revents, pending := true } := by
  rw [report_of_ios revents hio]
  exact setIo_self ..

theorem report_of_ne {fd' : ℕ} (hne : fd' ≠ fd) (revents : Mask → Mask) :
    (l.report fd revents).ios fd' = l.ios fd' ∧ (l.report fd revents).pendings.count fd' = l.pendings.count fd' := by
  cases hio : l.ios fd with
  | none =>
    rw [Evloop.report, hio]
    exact ⟨rfl, rfl⟩
  | some io =>
    rw [report_of_ios revents hio]
    refine ⟨setIo_of_ne l hne _, ?_⟩
    dsimp only
    split_ifs
    · rfl
    · rw [List.count_cons_of_ne hne.symm]

theorem deliver_of_not_mem {reports : List (ℕ × Revents)} (h : fd ∉ reports.map Prod.fst) :
    (deliver l reports).ios fd = l.ios fd ∧ (deliver l reports).pendings.count fd = l.pendings.count fd := by
  induction reports generalizing l with
  | nil => exact ⟨rfl, rfl⟩
  | cons r reports ih =>
    rw [List.map_cons, List.mem_cons, not_or] at h
    have hr := report_of_ne h.1 (·.union r.2.mask) (l := l)
    have := ih h.2 (l := l.report r.1 (·.union r.2.mask))
    rw [hr.1, hr.2] at this
    exact this

theorem deliver_of_mem {reports : List (ℕ × Revents)} (hnodup : (reports.map Prod.fst).Nodup) {r : ℕ × Revents}
    (hr : r ∈ reports) (hio : l.ios r.1 = some io) :
    (deliver l reports).ios r.1 = some { io with revents := io.revents.union r.2.mask, pending := true } := by
  induction reports generalizing l with
  | nil => cases hr
  | cons r' reports ih =>
    rw [List.map_cons, List.nodup_cons] at hnodup
    have hcons : deliver l (r' :: reports) = deliver (l.report r'.1 (·.union r'.2.mask)) reports := rfl
    rw [hcons]
    rcases List.mem_cons.mp hr with rfl | hmem
    · rw [(deliver_of_not_mem hnodup.1).1, report_ios_self hio]
    · have hne : r.1 ≠ r'.1 := by
        intro heq
        exact hnodup.1 (heq ▸ List.mem_map_of_mem hmem)
      refine ih hnodup.2 hmem ?_
      rw [(report_of_ne hne _).1, hio]

theorem linked_deliver (h : Linked l) (reports : List (ℕ × Revents)) : Linked (deliver l reports) := by
  induction reports generalizing l with
  | nil => exact h
  | cons r reports ih => exact ih (h.report r.1 _)

theorem deliver_sound (h : backend.Sound l) (reports : List (ℕ × Revents)) : backend.Sound (deliver l reports) := by
  induction reports generalizing l with
  | nil => exact h
  | cons r reports ih => exact ih (h.report ..)

/-! ## Runs -/

def Pre (l : Evloop EpollCtx) : Act → Prop
  | .reg a => l.Known a
  | .poll (.ready reports) => Reports l.iowatcher reports
  | .poll _ | .process _ => True

instance (w : EpollCtx) (reports : List (ℕ × Revents)) : Decidable (Reports w reports) :=
  inferInstanceAs (Decidable (_ ∧ _ ∧ _))

instance (l : Evloop EpollCtx) : (a : Act) → Decidable (Pre l a)
  | .reg a => inferInstanceAs (Decidable (l.Known a))
  | .poll (.ready reports) => inferInstanceAs (Decidable (Reports l.iowatcher reports))
  | .poll .eintr | .poll .error | .process _ => isTrue trivial

theorem waited_sound (h : backend.Sound l) {reports : List (ℕ × Revents)} (hrep : Reports l.iowatcher reports) :
    backend.Sound (waited l reports) := by
  have hinv : Inv l.view l.iowatcher := h.inv
  have hlen : reports.length ≤ l.iowatcher.ptr.length := by
    rw [hinv.ptr]
    exact Nat.le_trans hrep.1 hinv.size
  refine ⟨⟨h.bound, h.active, h.unready, h.nios⟩, ⟨hinv.index, hinv.mirror, hinv.count, hinv.size, ?_⟩⟩
  change (fill reports l.iowatcher.ptr).length = _
  rw [fill, List.length_append, List.length_drop, ← Nat.add_sub_assoc hlen, Nat.add_sub_cancel_left]
  exact hinv.ptr

theorem step_sound (h : backend.Sound l ∧ Linked l) {a : Act} (hpre : Pre l a) :
    ∃ l', step l a = some l' ∧ backend.Sound l' ∧ Linked l' := by
  cases a with
  | reg a =>
    obtain ⟨l', hl', h'⟩ := h.1.step (Backend.pre_of_known hpre fun _ => trivial)
    exact ⟨l', hl', h', h.2.step hl'⟩
  | poll r =>
    refine ⟨_, rfl, ?_⟩
    cases r with
    | ready reports =>
      rw [pollEvents_ready hpre]
      have hlinked : Linked (waited l reports) := h.2
      exact ⟨deliver_sound (waited_sound h.1 hpre) reports, linked_deliver hlinked reports⟩
    | eintr | error =>
      unfold pollEvents
      split_ifs <;> exact h
  | process revents => exact ⟨_, rfl, h.1.processed revents, h.2.processed revents⟩

theorem size_eq_card (h : backend.Sound l) : l.iowatcher.size = (l.fds fun io => io.events ≠ .empty).card := by
  have hinv : Inv l.view l.iowatcher := h.inv
  obtain ⟨S, hS, hcard⟩ := hinv.count
  rw [hcard]
  congr 1
  ext fd
  rw [hS, fds, Finset.mem_filter, Finset.mem_range]
  cases hio : l.ios fd with
  | none =>
    rw [view, hio]
    exact iff_of_false (not_not.mpr rfl) fun hc => Bool.false_ne_true hc.2
  | some io =>
    rw [view_of_ios hio, Option.any_some, decide_eq_true_iff]
    exact ⟨fun hev => ⟨h.bound fd _ (reg_of_ios hio), hev⟩, And.right⟩

/-- In every run epoll_ctl never fails; the kernel watches the fds that have events, for these events; `size` is their
number and fits in the array; and all that epoll_wait reports becomes pending, each report once. -/
theorem epoll_mirrors_events (acts : List Act) (hpre : Run.Along step Pre init acts) :
    ∃ l, Run.exec step init acts = some l ∧
      (∀ fd, l.iowatcher.interest fd = (l.ios fd).bind fun io => if io.events = .empty then none else some io.events) ∧
      l.iowatcher.size = (l.fds fun io => io.events ≠ .empty).card ∧ l.iowatcher.size ≤ l.iowatcher.maxsize ∧
      ∀ reports, Reports l.iowatcher reports →
        ∃ l', pollEvents (.ready reports) l = ((reports.length : ℤ), l') ∧
          (∀ r ∈ reports, ∃ io, l.ios r.1 = some io ∧
            l'.ios r.1 = some { io with revents := io.revents.union r.2.mask, pending := true } ∧
            l'.pendings.count r.1 = 1) ∧
          ∀ fd, fd ∉ reports.map Prod.fst → l'.ios fd = l.ios fd ∧ l'.pendings.count fd = l.pendings.count fd := by
  have hgood : ∀ (hist : List Act) l a, backend.Sound l ∧ Linked l → Pre l a →
      ∃ l', step l a = some l' ∧ backend.Sound l' ∧ Linked l' := fun _ _ _ h hpre => step_sound h hpre
  obtain ⟨l, hl, h, hlinked⟩ := Run.exec_of_along (fun _ l => backend.Sound l ∧ Linked l) hgood []
    ⟨sound_init, fun _ => rfl⟩ hpre
  have hinv : Inv l.view l.iowatcher := h.inv
  refine ⟨l, hl, fun fd => ?_, size_eq_card h, hinv.size, fun reports hrep => ⟨_, pollEvents_ready hrep, ?_, ?_⟩⟩
  · rw [hinv.mirror, view]
    cases l.ios fd <;> rfl
  · intro r hr
    obtain ⟨m, hm⟩ := Option.isSome_iff_exists.mp (hrep.2.2 r hr).1
    rw [hinv.mirror, view] at hm
    cases hio : l.ios r.1 with
    | none =>
      rw [hio] at hm
      cases hm
    | some io =>
      have hnew := deliver_of_mem (l := waited l reports) hrep.2.1 hr hio
      refine ⟨io, rfl, hnew, ?_⟩
      have hcount := linked_deliver (l := waited l reports) hlinked reports r.1
      rw [reg_of_ios hnew] at hcount
      exact hcount
  · intro fd hfd
    exact deliver_of_not_mem (l := waited l reports) hfd

theorem epoll_mirrors_events_example :
    ∃ l, Run.exec step init [.reg (.get 3), .reg (.add 3 .read), .reg (.get 4), .reg (.add 4 .write),
      .reg (.add 4 .read), .poll (.ready [(4, ⟨true, true, false, false, false⟩)]), .process fun _ => .empty,
      .reg (.del 3 .read)] = some l ∧
      (∀ fd, l.iowatcher.interest fd = (l.ios fd).bind fun io => if io.events = .empty then none else some io.events) ∧
      l.iowatcher.size = (l.fds fun io => io.events ≠ .empty).card ∧ l.iowatcher.size ≤ l.iowatcher.maxsize ∧
      ∀ reports, Reports l.iowatcher reports →
        ∃ l', pollEvents (.ready reports) l = ((reports.length : ℤ), l') ∧
          (∀ r ∈ reports, ∃ io, l.ios r.1 = some io ∧
            l'.ios r.1 = some { io with revents := io.revents.union r.2.mask, pending := true } ∧
            l'.pendings.count r.1 = 1) ∧
          ∀ fd, fd ∉ reports.map Prod.fst → l'.ios fd = l.ios fd ∧ l'.pendings.count fd = l.pendings.count fd :=
  epoll_mirrors_events _ (by decide +kernel)

end Epoll

end Yjc.Watch
