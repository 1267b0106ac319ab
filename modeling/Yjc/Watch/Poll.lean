import Yjc.Watch.Backend
import Yjc.Lib.SwapRemove

/-! The poll back end: `event_index[0]` of an io is the place of its entry in `fds`, and a deletion moves the last
entry. -/

namespace Yjc.Watch
open Evloop SwapRemove

structure Pollfd where
  fd : ℕ
  events : Mask
deriving DecidableEq

/-- `fds` are the entries below `size`. -/
structure PollCtx where
  fds : List Pollfd
  maxsize : ℕ

namespace Poll

def fdsInitSize : ℕ := 64

def init : Evloop PollCtx := .init ⟨[], fdsInitSize⟩

/-- The index of an io is changed and so is the watcher. -/
def setIndex (l : Evloop PollCtx) (fd : ℕ) (index : ℤ) (w : PollCtx) : Evloop PollCtx :=
  { l.modify fd fun io => { io with eventIndex := index } with iowatcher := w }

/-- `none`: a write beyond the array, or the assert fails. -/
def addEvent (fd : ℕ) (events : Mask) (l : Evloop PollCtx) : Option (Evloop PollCtx) := do
  let io ← l.ios fd
  let w := l.iowatcher
  if io.eventIndex < 0 then
    let idx := w.fds.length
    let maxsize := grow idx w.maxsize
    if idx < maxsize then some (setIndex l fd idx ⟨w.fds ++ [⟨fd, Mask.empty.union events⟩], maxsize⟩) else none
  else
    let idx := io.eventIndex.toNat
    let pfd ← w.fds[idx]?
    if pfd.fd = fd then some { l with iowatcher := { w with fds := w.fds.set idx ⟨fd, pfd.events.union events⟩ } }
    else none

/-- The end of `iowatcher_del_event` for an entry that is deleted: the io of the entry that was moved gets its new
index. -/
def removeEntry (fd idx : ℕ) (w : PollCtx) (l : Evloop PollCtx) : Option (Evloop PollCtx) := do
  let w := { w with fds := swapRemove w.fds idx }
  if idx < w.fds.length then
    let pfd ← w.fds[idx]?
    let _ ← l.ios pfd.fd
    some (setIndex (setIndex l pfd.fd idx w) fd (-1) w)
  else some (setIndex l fd (-1) w)

def delEvent (fd : ℕ) (events : Mask) (l : Evloop PollCtx) : Option (Evloop PollCtx) := do
  let io ← l.ios fd
  let w := l.iowatcher
  if io.eventIndex < 0 then some l
  else
    let idx := io.eventIndex.toNat
    let pfd ← w.fds[idx]?
    if pfd.fd = fd then
      let w := { w with fds := w.fds.set idx ⟨fd, pfd.events.diff events⟩ }
      if pfd.events.diff events = .empty then removeEntry fd idx w l else some { l with iowatcher := w }
    else none

/-- What poll comes back with: an entry for each of `fds`, or an error. -/
inductive Result
  | ready (revents : List Revents)
  | error

def pollEvents (r : Result) (l : Evloop PollCtx) : ℤ × Evloop PollCtx :=
  if l.iowatcher.fds.length = 0 then (0, l)
  else
    match r with
    | .error => (-1, l)
    | .ready revents =>
      let npoll := revents.countP (· ≠ .zero)
      if npoll = 0 then (0, l)
      else
        let r := scanRevents npoll ((l.iowatcher.fds.map Pollfd.fd).zip revents) 0 l
        (r.1, r.2)

theorem setIndex_keeps (l : Evloop PollCtx) (fd : ℕ) (index : ℤ) (w : PollCtx) : Keeps l (setIndex l fd index w) := by
  unfold setIndex
  cases hio : l.ios fd with
  | none =>
    rw [Evloop.modify, hio]
    exact ⟨rfl, rfl, rfl, rfl⟩
  | some io =>
    rw [modify_of_ios _ hio]
    refine ⟨?_, rfl, rfl, rfl⟩
    refine (reg_setIo l fd _).trans ?_
    exact reg_of_ios hio ▸ Function.update_eq_self fd l.reg

theorem view_setIndex (l : Evloop PollCtx) {fd : ℕ} (index : ℤ) (w : PollCtx) (h : (l.ios fd).isSome) :
    (setIndex l fd index w).view = Function.update l.view fd ((l.view fd).1, index) := by
  obtain ⟨io, hio⟩ := Option.isSome_iff_exists.mp h
  unfold setIndex
  rw [modify_of_ios _ hio, view_of_ios hio]
  exact view_setIo ..

theorem addEvent_keeps {fd : ℕ} {m : Mask} {l l' : Evloop PollCtx} (h : addEvent fd m l = some l') : Keeps l l' := by
  obtain ⟨io, hio, h⟩ := Option.bind_eq_some_iff.mp h
  dsimp only at h
  split_ifs at h
  · cases h
    exact setIndex_keeps ..
  · obtain ⟨pfd, hpfd, h⟩ := Option.bind_eq_some_iff.mp h
    split_ifs at h
    cases h
    exact ⟨rfl, rfl, rfl, rfl⟩

theorem removeEntry_keeps {fd idx : ℕ} {w : PollCtx} {l l' : Evloop PollCtx} (h : removeEntry fd idx w l = some l') :
    Keeps l l' := by
  unfold removeEntry at h
  dsimp only at h
  split_ifs at h
  · obtain ⟨pfd, -, h⟩ := Option.bind_eq_some_iff.mp h
    obtain ⟨io, -, h⟩ := Option.bind_eq_some_iff.mp h
    cases h
    exact (setIndex_keeps ..).trans (setIndex_keeps ..)
  · cases h
    exact setIndex_keeps ..

theorem delEvent_keeps {fd : ℕ} {m : Mask} {l l' : Evloop PollCtx} (h : delEvent fd m l = some l') : Keeps l l' := by
  obtain ⟨io, hio, h⟩ := Option.bind_eq_some_iff.mp h
  dsimp only at h
  split_ifs at h
  · cases h
    exact ⟨rfl, rfl, rfl, rfl⟩
  · obtain ⟨pfd, hpfd, h⟩ := Option.bind_eq_some_iff.mp h
    split_ifs at h
    · exact removeEntry_keeps h
    · cases h
      exact ⟨rfl, rfl, rfl, rfl⟩

def watcher : Watcher PollCtx := ⟨addEvent, delEvent, addEvent_keeps, delEvent_keeps⟩

inductive Act
  | reg (a : Watch.Act)
  | poll (r : Result)

def step (l : Evloop PollCtx) : Act → Option (Evloop PollCtx)
  | .reg a => Watch.step watcher l a
  | .poll r => some (pollEvents r l).2

/-! ## The index map -/

structure Inv (view : ℕ → Mask × ℤ) (w : PollCtx) : Prop where
  entry : ∀ (i : ℕ) p, w.fds[i]? = some p → view p.fd = (p.events, (i : ℤ)) ∧ p.events ≠ .empty
  back : ∀ fd, (view fd).1 ≠ .empty → ∃ i : ℕ, w.fds[i]? = some ⟨fd, (view fd).1⟩
  quiet : ∀ fd, (view fd).1 = .empty → (view fd).2 = -1
  size : w.fds.length ≤ w.maxsize

variable {view : ℕ → Mask × ℤ} {w : PollCtx} {fd idx : ℕ}

theorem Inv.lookup (h : Inv view w) (hev : (view fd).1 ≠ .empty) :
    0 ≤ (view fd).2 ∧ w.fds[(view fd).2.toNat]? = some ⟨fd, (view fd).1⟩ := by
  obtain ⟨i, hi⟩ := h.back fd hev
  have hindex : (view fd).2 = (i : ℤ) := congrArg Prod.snd (h.entry i _ hi).1
  rw [hindex, Int.toNat_natCast]
  exact ⟨Int.natCast_nonneg i, hi⟩

theorem Inv.unique (h : Inv view w) {i j : ℕ} {p q : Pollfd} (hi : w.fds[i]? = some p) (hj : w.fds[j]? = some q)
    (hfd : p.fd = q.fd) : i = j := by
  have h1 := (h.entry i p hi).1
  rw [hfd, (h.entry j q hj).1] at h1
  exact (Int.ofNat.inj (congrArg Prod.snd h1)).symm

theorem Inv.append (h : Inv view w) (hev : (view fd).1 = .empty) {m : Mask} (hm : m ≠ .empty) {maxsize : ℕ}
    (hsize : w.fds.length < maxsize) :
    Inv (Function.update view fd (m, (w.fds.length : ℤ))) ⟨w.fds ++ [⟨fd, m⟩], maxsize⟩ := by
  refine ⟨fun i p hp => ?_, fun fd' hev' => ?_, fun fd' hev' => ?_, ?_⟩
  · rcases Nat.lt_trichotomy i w.fds.length with hlt | rfl | hgt
    · rw [List.getElem?_append_left hlt] at hp
      have hp' := h.entry i p hp
      have hne : p.fd ≠ fd := by
        intro heq
        rw [← heq, hp'.1] at hev
        exact hp'.2 hev
      rw [Function.update_of_ne hne]
      exact hp'
    · rw [List.getElem?_concat_length] at hp
      cases hp
      rw [Function.update_self]
      exact ⟨rfl, hm⟩
    · rw [List.getElem?_eq_none (by simpa using Nat.succ_le_of_lt hgt)] at hp
      cases hp
  · rcases eq_or_ne fd' fd with rfl | hne
    · rw [Function.update_self]
      exact ⟨w.fds.length, List.getElem?_concat_length⟩
    · rw [Function.update_of_ne hne] at hev' ⊢
      obtain ⟨i, hi⟩ := h.back fd' hev'
      exact ⟨i, by rw [List.getElem?_append_left (List.getElem?_eq_some_iff.mp hi).1, hi]⟩
  · rcases eq_or_ne fd' fd with rfl | hne
    · rw [Function.update_self] at hev'
      exact absurd hev' hm
    · rw [Function.update_of_ne hne] at hev' ⊢
      exact h.quiet fd' hev'
  · rw [List.length_append]
    exact hsize

theorem Inv.set (h : Inv view w) {m : Mask} (hidx : w.fds[idx]? = some ⟨fd, (view fd).1⟩) (hm : m ≠ .empty) :
    Inv (Function.update view fd (m, (view fd).2)) { w with fds := w.fds.set idx ⟨fd, m⟩ } := by
  have hlt := (List.getElem?_eq_some_iff.mp hidx).1
  have hindex : (view fd).2 = (idx : ℤ) := congrArg Prod.snd (h.entry idx _ hidx).1
  refine ⟨fun i p hp => ?_, fun fd' hev' => ?_, fun fd' hev' => ?_, ?_⟩
  · rcases eq_or_ne i idx with rfl | hne
    · rw [List.getElem?_set_self hlt] at hp
      cases hp
      rw [Function.update_self, hindex]
      exact ⟨rfl, hm⟩
    · rw [List.getElem?_set_ne hne.symm] at hp
      rw [Function.update_of_ne fun hfd => hne (h.unique hp hidx hfd)]
      exact h.entry i p hp
  · rcases eq_or_ne fd' fd with rfl | hne
    · rw [Function.update_self]
      exact ⟨idx, List.getElem?_set_self hlt⟩
    · rw [Function.update_of_ne hne] at hev' ⊢
      obtain ⟨i, hi⟩ := h.back fd' hev'
      refine ⟨i, ?_⟩
      rw [List.getElem?_set_ne, hi]
      rintro rfl
      rw [hidx] at hi
      exact hne (congrArg Pollfd.fd (Option.some.inj hi)).symm
  · rcases eq_or_ne fd' fd with rfl | hne
    · rw [Function.update_self] at hev'
      exact absurd hev' hm
    · rw [Function.update_of_ne hne] at hev' ⊢
      exact h.quiet fd' hev'
  · rw [List.length_set]
    exact h.size

/-- The events and indices after the entry `idx` of `fd` is deleted. -/
def removed (view : ℕ → Mask × ℤ) (w : PollCtx) (fd idx : ℕ) : ℕ → Mask × ℤ :=
  Function.update
    (match (swapRemove w.fds idx)[idx]? with
    | none => view
    | some p => Function.update view p.fd ((view p.fd).1, (idx : ℤ))) fd (.empty, -1)

theorem removed_self : removed view w fd idx fd = (.empty, -1) := Function.update_self ..

theorem getElem?_removed (hidx : idx < w.fds.length) {i : ℕ} {p : Pollfd} (hp : (swapRemove w.fds idx)[i]? = some p) :
    i + 1 < w.fds.length ∧ w.fds[if i = idx then w.fds.length - 1 else i]? = some p := by
  have hi : i + 1 < w.fds.length := by
    have := (List.getElem?_eq_some_iff.mp hp).1
    rw [length_swapRemove] at this
    omega
  refine ⟨hi, ?_⟩
  split_ifs with heq
  · subst heq
    rw [← getElem?_swapRemove_self hi, hp]
  · rw [← getElem?_swapRemove_of_ne heq hi, hp]

theorem Inv.removed_entry (h : Inv view w) (hidx : w.fds[idx]? = some ⟨fd, (view fd).1⟩) {i : ℕ} {p : Pollfd}
    (hp : (swapRemove w.fds idx)[i]? = some p) : p.fd ≠ fd ∧ removed view w fd idx p.fd = (p.events, (i : ℤ)) := by
  have hlt := (List.getElem?_eq_some_iff.mp hidx).1
  obtain ⟨hi, hold⟩ := getElem?_removed hlt hp
  have hne : p.fd ≠ fd := by
    intro hfd
    have := h.unique hold hidx hfd
    split_ifs at this <;> omega
  refine ⟨hne, ?_⟩
  rw [removed, Function.update_of_ne hne]
  rcases eq_or_ne i idx with rfl | hii
  · rw [hp]
    change Function.update view p.fd ((view p.fd).1, (i : ℤ)) p.fd = _
    rw [Function.update_self, (h.entry _ _ hold).1]
  · rw [if_neg hii] at hold
    have hview := (h.entry i p hold).1
    cases hq : (swapRemove w.fds idx)[idx]? with
    | none => exact hview
    | some q =>
      obtain ⟨-, hq⟩ := getElem?_removed hlt hq
      have hpq : p.fd ≠ q.fd := by
        intro hfd
        have := h.unique hold hq hfd
        rw [if_pos rfl] at this
        omega
      change Function.update view q.fd ((view q.fd).1, (idx : ℤ)) p.fd = _
      rw [Function.update_of_ne hpq, hview]

theorem removed_events {fd' : ℕ} (hne : fd' ≠ fd) : (removed view w fd idx fd').1 = (view fd').1 := by
  rw [removed, Function.update_of_ne hne]
  cases (swapRemove w.fds idx)[idx]? with
  | none => rfl
  | some q =>
    change (Function.update view q.fd ((view q.fd).1, (idx : ℤ)) fd').1 = _
    rcases eq_or_ne fd' q.fd with rfl | hq
    · rw [Function.update_self]
    · rw [Function.update_of_ne hq]

theorem Inv.remove (h : Inv view w) (hidx : w.fds[idx]? = some ⟨fd, (view fd).1⟩) :
    Inv (removed view w fd idx) { w with fds := swapRemove w.fds idx } := by
  have hlt := (List.getElem?_eq_some_iff.mp hidx).1
  refine ⟨fun i p hp => ?_, fun fd' hev' => ?_, fun fd' hev' => ?_, ?_⟩
  · obtain ⟨-, hold⟩ := getElem?_removed hlt hp
    exact ⟨(h.removed_entry hidx hp).2, (h.entry _ p hold).2⟩
  · have hne : fd' ≠ fd := by
      rintro rfl
      rw [removed_self] at hev'
      exact hev' rfl
    rw [removed_events hne] at hev' ⊢
    obtain ⟨i, hi⟩ := h.back fd' hev'
    have hii : i ≠ idx := by
      rintro rfl
      rw [hidx] at hi
      exact hne (congrArg Pollfd.fd (Option.some.inj hi)).symm
    have hilt := (List.getElem?_eq_some_iff.mp hi).1
    -- the last entry has moved to `idx`
    by_cases hlast : i + 1 < w.fds.length
    · exact ⟨i, (getElem?_swapRemove_of_ne hii hlast).trans hi⟩
    · have hend : w.fds.length - 1 = i := by omega
      refine ⟨idx, (getElem?_swapRemove_self (by omega)).trans ?_⟩
      rw [hend, hi]
  · rcases eq_or_ne fd' fd with rfl | hne
    · rw [removed_self]
    · rw [removed_events hne] at hev'
      have hview := h.quiet fd' hev'
      rw [removed, Function.update_of_ne hne]
      cases hq : (swapRemove w.fds idx)[idx]? with
      | none => exact hview
      | some q =>
        obtain ⟨-, hq⟩ := getElem?_removed hlt hq
        have hq' := h.entry _ q hq
        change (Function.update view q.fd ((view q.fd).1, (idx : ℤ)) fd').2 = -1
        rw [Function.update_of_ne, hview]
        rintro rfl
        rw [hq'.1] at hev'
        exact hq'.2 hev'
  · rw [length_swapRemove]
    exact Nat.le_trans (Nat.sub_le ..) h.size

variable {l : Evloop PollCtx} {io : Evio} {m : Mask}

theorem isSome_of_events (h : (l.view fd).1 ≠ .empty) : (l.ios fd).isSome := by
  cases hio : l.ios fd with
  | none =>
    rw [view, hio] at h
    exact absurd rfl h
  | some io => rfl

theorem removeEntry_eq (h : Inv l.view w) (hio : (l.ios fd).isSome) (hidx : w.fds[idx]? = some ⟨fd, (l.view fd).1⟩) :
    ∃ l', removeEntry fd idx w l = some l' ∧ l'.iowatcher = { w with fds := swapRemove w.fds idx } ∧
      Function.update l'.view fd (.empty, (l'.view fd).2) = removed l.view w fd idx := by
  unfold removeEntry removed
  have hlt := (List.getElem?_eq_some_iff.mp hidx).1
  cases hq : (swapRemove w.fds idx)[idx]? with
  | none =>
    rw [if_neg (Nat.not_lt.mpr (List.getElem?_eq_none_iff.mp hq))]
    refine ⟨_, rfl, rfl, ?_⟩
    rw [view_setIndex _ _ _ hio, Function.update_self, Function.update_idem]
  | some q =>
    obtain ⟨-, hold⟩ := getElem?_removed hlt hq
    have hq' := h.entry _ q hold
    have hlast : (l.ios q.fd).isSome := isSome_of_events (by rw [hq'.1]; exact hq'.2)
    obtain ⟨last, hlast'⟩ := Option.isSome_iff_exists.mp hlast
    rw [if_pos (List.getElem?_eq_some_iff.mp hq).1, hq, Option.bind_eq_bind, Option.bind_some, hlast']
    refine ⟨_, rfl, rfl, ?_⟩
    have hio' : ((setIndex l q.fd idx { w with fds := swapRemove w.fds idx }).ios fd).isSome := by
      have := congrArg Option.isSome (congrFun (setIndex_keeps l q.fd idx { w with fds := swapRemove w.fds idx }).reg fd)
      rw [Evloop.reg, Evloop.reg, Option.isSome_map, Option.isSome_map, hio] at this
      exact this
    rw [view_setIndex _ _ _ hio', view_setIndex _ _ _ hlast, Function.update_self, Function.update_idem]

theorem removeEntry_set (h : idx < w.fds.length) {x : Pollfd} :
    removeEntry fd idx { w with fds := w.fds.set idx x } l = removeEntry fd idx w l := by
  unfold removeEntry
  rw [swapRemove_set h]

theorem addEvent_inv (h : Inv l.view l.iowatcher) (hio : l.ios fd = some io) (hm : m ≠ .empty) :
    ∃ l', addEvent fd m l = some l' ∧ Inv (Function.update l'.view fd (io.events.union m, (l'.view fd).2)) l'.iowatcher := by
  have hview := view_of_ios hio
  unfold addEvent
  rw [hio, Option.bind_eq_bind, Option.bind_some]
  dsimp only
  by_cases hev : io.events = .empty
  · have hindex : io.eventIndex = -1 := by
      have := h.quiet fd (by rw [hview, hev])
      rwa [hview] at this
    have hgrow := lt_grow h.size
    rw [hindex, if_pos (by decide), if_pos hgrow]
    refine ⟨_, rfl, ?_⟩
    rw [view_setIndex _ _ _ (by rw [hio]; rfl), Function.update_self, Function.update_idem, hev]
    exact h.append (by rw [hview, hev]) (Mask.union_ne_empty hm) hgrow
  · have hev' : (l.view fd).1 ≠ .empty := by rwa [hview]
    obtain ⟨hpos, hentry⟩ := h.lookup hev'
    rw [hview] at hpos hentry
    rw [if_neg (Int.not_lt.mpr hpos), hentry, Option.bind_eq_bind, Option.bind_some, if_pos rfl]
    refine ⟨_, rfl, ?_⟩
    exact h.set (by rw [hview]; exact hentry) (Mask.union_ne_empty hm)

theorem delEvent_inv (h : Inv l.view l.iowatcher) (hio : l.ios fd = some io) (hev : io.events ≠ .empty) :
    ∃ l', delEvent fd m l = some l' ∧ Inv (Function.update l'.view fd (io.events.diff m, (l'.view fd).2)) l'.iowatcher := by
  have hview := view_of_ios hio
  have hev' : (l.view fd).1 ≠ .empty := by rwa [hview]
  obtain ⟨hpos, hentry⟩ := h.lookup hev'
  rw [hview] at hpos hentry
  unfold delEvent
  rw [hio, Option.bind_eq_bind, Option.bind_some]
  dsimp only
  rw [if_neg (Int.not_lt.mpr hpos), hentry, Option.bind_eq_bind, Option.bind_some, if_pos rfl]
  have hlt := (List.getElem?_eq_some_iff.mp hentry).1
  split_ifs with hgone
  · rw [removeEntry_set hlt, hgone]
    have hidx : l.iowatcher.fds[io.eventIndex.toNat]? = some ⟨fd, (l.view fd).1⟩ := by rw [hview, hentry]
    obtain ⟨l', hl', hw, hv⟩ := removeEntry_eq h (by rw [hio]; rfl) hidx
    refine ⟨l', hl', ?_⟩
    rw [hv, hw]
    exact h.remove hidx
  · refine ⟨_, rfl, ?_⟩
    exact h.set (by rw [hview]; exact hentry) hgone

def backend : Backend PollCtx where
  toWatcher := watcher
  Inv := Inv
  Ok _ _ _ := True
  quiet h := h.quiet _
  add_inv h hio hm _ _ := addEvent_inv h hio hm
  del_inv h hio hmeets := delEvent_inv h hio (Mask.ne_empty_of_meets hmeets)

theorem sound_init : backend.Sound init := by
  refine ⟨Registered.init _, ⟨fun i p hp => ?_, fun fd hev => absurd rfl hev, fun fd _ => rfl, Nat.zero_le _⟩⟩
  cases hp

def Pre (l : Evloop PollCtx) : Act → Prop
  | .reg a => l.Known a
  | .poll _ => True

instance (l : Evloop PollCtx) : (a : Act) → Decidable (Pre l a)
  | .reg a => inferInstanceAs (Decidable (l.Known a))
  | .poll _ => isTrue trivial

theorem poll_sound (r : Result) (h : backend.Sound l) : backend.Sound (pollEvents r l).2 := by
  unfold pollEvents
  split_ifs
  · exact h
  · cases r with
    | error => exact h
    | ready revents =>
      dsimp only
      split_ifs
      · exact h
      · exact h.scanRevents ..

theorem step_sound (h : backend.Sound l) {a : Act} (hpre : Pre l a) : ∃ l', step l a = some l' ∧ backend.Sound l' := by
  cases a with
  | reg a => exact h.step (Backend.pre_of_known hpre fun _ => trivial)
  | poll r => exact ⟨_, rfl, poll_sound r h⟩

/-- In every run no assert fails; the entries have distinct fds, each io with events has its entry at its index with
the same events, and every other io has index -1. -/
theorem index_map_exact (acts : List Act) (hpre : Run.Along step Pre init acts) :
    ∃ l, Run.exec step init acts = some l ∧
      (l.iowatcher.fds.map Pollfd.fd).Nodup ∧
      ∀ fd io, l.ios fd = some io →
        (io.events ≠ .empty → 0 ≤ io.eventIndex ∧ l.iowatcher.fds[io.eventIndex.toNat]? = some ⟨fd, io.events⟩) ∧
        (io.events = .empty → io.eventIndex = -1) := by
  have hgood : ∀ (hist : List Act) l a, backend.Sound l → Pre l a → ∃ l', step l a = some l' ∧ backend.Sound l' :=
    fun _ _ _ h hpre => step_sound h hpre
  obtain ⟨l, hl, h⟩ := Run.exec_of_along (fun _ => backend.Sound) hgood [] sound_init hpre
  have hinv : Inv l.view l.iowatcher := h.inv
  refine ⟨l, hl, ?_, fun fd io hio => ⟨fun hev => ?_, h.quiet hio⟩⟩
  · rw [List.nodup_iff_injective_getElem]
    rintro ⟨i, hi⟩ ⟨j, hj⟩ heq
    rw [List.length_map] at hi hj
    simp only [List.getElem_map] at heq
    exact Fin.ext (hinv.unique (List.getElem?_eq_getElem hi) (List.getElem?_eq_getElem hj) heq)
  · have hview := view_of_ios hio
    have hev' : (l.view fd).1 ≠ .empty := by rwa [hview]
    have := hinv.lookup hev'
    rwa [hview] at this

theorem index_map_exact_example :
    ∃ l, Run.exec step init [.reg (.get 3), .reg (.add 3 .read), .reg (.get 4), .reg (.add 4 .rdwr),
      .reg (.del 3 .read), .poll (.ready [⟨true, false, false, false, false⟩])] = some l ∧
      (l.iowatcher.fds.map Pollfd.fd).Nodup ∧
      ∀ fd io, l.ios fd = some io →
        (io.events ≠ .empty → 0 ≤ io.eventIndex ∧ l.iowatcher.fds[io.eventIndex.toNat]? = some ⟨fd, io.events⟩) ∧
        (io.events = .empty → io.eventIndex = -1) :=
  index_map_exact _ (by decide +kernel)

end Poll

end Yjc.Watch
