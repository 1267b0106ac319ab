import Yjc.Watch.Backend
import Mathlib.Data.Finset.Basic

/-! The select back end: `max_fd` is a maximum that a deletion forgets and `iowatcher_poll_events` finds again. -/

namespace Yjc.Watch
open Evloop

/-- A `fd_set` with `nread` or `nwrite`. -/
structure FdSet where
  bits : Finset ℕ
  count : ℤ

namespace FdSet

def zero : FdSet := ⟨∅, 0⟩

def set (s : FdSet) (fd : ℕ) (on : Bool) : FdSet :=
  if on ∧ fd ∉ s.bits then ⟨insert fd s.bits, s.count + 1⟩ else s

def clr (s : FdSet) (fd : ℕ) (on : Bool) : FdSet :=
  if on ∧ fd ∈ s.bits then ⟨s.bits.erase fd, s.count - 1⟩ else s

end FdSet

structure SelectCtx where
  maxFd : ℤ
  readfds : FdSet
  writefds : FdSet

namespace Select

def fdSetsize : ℕ := 1024

def init : Evloop SelectCtx := .init ⟨-1, .zero, .zero⟩

/-- `none`: `FD_SET` beyond the set. -/
def addEvent (fd : ℕ) (events : Mask) (l : Evloop SelectCtx) : Option (Evloop SelectCtx) :=
  if fd < fdSetsize then
    let w := l.iowatcher
    some { l with iowatcher := ⟨if w.maxFd < fd then fd else w.maxFd, w.readfds.set fd events.read,
      w.writefds.set fd events.write⟩ }
  else none

def delEvent (fd : ℕ) (events : Mask) (l : Evloop SelectCtx) : Option (Evloop SelectCtx) :=
  if fd < fdSetsize then
    let w := l.iowatcher
    some { l with iowatcher := ⟨if fd = w.maxFd then -1 else w.maxFd, w.readfds.clr fd events.read,
      w.writefds.clr fd events.write⟩ }
  else none

def watcher : Watcher SelectCtx where
  addEvent := addEvent
  delEvent := delEvent
  add_keeps {fd m l l'} h := by
    unfold addEvent at h
    split_ifs at h
    cases h
    exact ⟨rfl, rfl, rfl, rfl⟩
  del_keeps {fd m l l'} h := by
    unfold delEvent at h
    split_ifs at h
    cases h
    exact ⟨rfl, rfl, rfl, rfl⟩

/-- The search from `ios.maxsize - 1` down. -/
def findMaxActiveFd (ios : ℕ → Option Evio) : ℕ → ℤ
  | 0 => -1
  | n + 1 => if (ios n).any fun io => io.active && io.events ≠ .empty then n else findMaxActiveFd ios n

/-- The rest of the loop of `remove_bad_fds`, which reads `max_fd` again each time. -/
def removeBadFds (bad : Finset ℕ) : List ℕ → Evloop SelectCtx → Option (Evloop SelectCtx)
  | [], l => some l
  | fd :: fds, l =>
    if l.iowatcher.maxFd < fd then some l
    else if (fd ∈ l.iowatcher.readfds.bits ∨ fd ∈ l.iowatcher.writefds.bits) ∧ fd ∈ bad ∧ (l.ios fd).isSome then do
      let l ← evioDel watcher fd .rdwr l
      removeBadFds bad fds l
    else removeBadFds bad fds l

def scan (readfds writefds : Finset ℕ) (nselect : ℕ) : List ℕ → ℕ → Evloop SelectCtx → ℕ × Evloop SelectCtx
  | [], nevents, l => (nevents, l)
  | fd :: fds, nevents, l =>
    let revents : Mask := ⟨fd ∈ readfds, fd ∈ writefds⟩
    let nevents := nevents + revents.read.toNat + revents.write.toNat
    let l := if revents = .empty then l else l.report fd fun _ => revents
    if nevents = nselect then (nevents, l) else scan readfds writefds nselect fds nevents l

/-- What select comes back with. -/
inductive Result
  | ready (readfds writefds : Finset ℕ)
  | timeout
  | ebadf (bad : Finset ℕ)
  | error

/-- The call of select that `iowatcher_poll_events` makes: its first argument and the two sets. -/
def call (l : Evloop SelectCtx) : Option (ℤ × Finset ℕ × Finset ℕ) :=
  let w := l.iowatcher
  if w.readfds.count = 0 ∧ w.writefds.count = 0 then none
  else
    let maxFd := if w.maxFd = -1 then findMaxActiveFd l.ios l.maxsize else w.maxFd
    some (maxFd + 1, w.readfds.bits, w.writefds.bits)

def pollEvents (r : Result) (l : Evloop SelectCtx) : Option (ℤ × Evloop SelectCtx) :=
  match call l with
  | none => some (0, l)
  | some (nfds, _, _) =>
    let l := { l with iowatcher := { l.iowatcher with maxFd := nfds - 1 } }
    match r with
    | .timeout => some (0, l)
    | .error => some (-1, l)
    | .ebadf bad => (removeBadFds bad (List.range nfds.toNat) l).map fun l => (-9, l)
    | .ready readfds writefds =>
      let r := scan readfds writefds (readfds.card + writefds.card) (List.range nfds.toNat) 0 l
      some (r.1, r.2)

inductive Act
  | reg (a : Watch.Act)
  | poll (r : Result)

def step (l : Evloop SelectCtx) : Act → Option (Evloop SelectCtx)
  | .reg a => Watch.step watcher l a
  | .poll r => (pollEvents r l).map Prod.snd

/-! ## The sets and their counts -/

end Select

namespace FdSet
variable {s : FdSet} {fd fd' : ℕ} {on : Bool}

/-- `count` is the number of bits. -/
def Counted (s : FdSet) : Prop := s.count = s.bits.card

theorem mem_set : fd' ∈ (s.set fd on).bits ↔ fd' ∈ s.bits ∨ fd' = fd ∧ on = true := by
  unfold set
  split_ifs with h
  · rw [Finset.mem_insert, or_comm, and_iff_left h.1]
  · refine ⟨.inl, ?_⟩
    rintro (hmem | ⟨rfl, hon⟩)
    · exact hmem
    · exact not_not.mp fun hn => h ⟨hon, hn⟩

theorem mem_clr : fd' ∈ (s.clr fd on).bits ↔ fd' ∈ s.bits ∧ ¬(fd' = fd ∧ on = true) := by
  unfold clr
  split_ifs with h
  · rw [Finset.mem_erase, and_iff_left h.1, and_comm]
  · refine ⟨fun hmem => ⟨hmem, ?_⟩, And.left⟩
    rintro ⟨rfl, hon⟩
    exact h ⟨hon, hmem⟩

theorem mem_set_update {view : ℕ → Mask × ℤ} {m : Mask} (bit : Mask → Bool) (hbit : ∀ n, bit (n.union m) = (bit n || bit m))
    (h : ∀ fd, fd ∈ s.bits ↔ bit (view fd).1 = true) :
    fd' ∈ (s.set fd (bit m)).bits ↔ bit (Function.update view fd ((view fd).1.union m, (view fd).2) fd').1 = true := by
  -- a set that is one bit of the events stays so when events are added
  rw [mem_set, h]
  rcases eq_or_ne fd' fd with rfl | hne
  · rw [Function.update_self, hbit, Bool.or_eq_true, and_iff_right rfl]
  · rw [Function.update_of_ne hne, or_iff_left fun hfd => hne hfd.1]

theorem mem_clr_update {view : ℕ → Mask × ℤ} {m : Mask} (bit : Mask → Bool) (hbit : ∀ n, bit (n.diff m) = (bit n && !bit m))
    (h : ∀ fd, fd ∈ s.bits ↔ bit (view fd).1 = true) :
    fd' ∈ (s.clr fd (bit m)).bits ↔ bit (Function.update view fd ((view fd).1.diff m, (view fd).2) fd').1 = true := by
  rw [mem_clr, h]
  rcases eq_or_ne fd' fd with rfl | hne
  · rw [Function.update_self, hbit, Bool.and_eq_true, Bool.not_eq_true', ← Bool.not_eq_true, and_iff_right rfl]
  · rw [Function.update_of_ne hne, and_iff_left fun hfd => hne hfd.1]

theorem Counted.set (h : s.Counted) (fd : ℕ) (on : Bool) : (s.set fd on).Counted := by
  unfold FdSet.set
  split_ifs with hnew
  · change s.count + 1 = ((insert fd s.bits).card : ℤ)
    rw [Finset.card_insert_of_notMem hnew.2, h]
    rfl
  · exact h

theorem Counted.clr (h : s.Counted) (fd : ℕ) (on : Bool) : (s.clr fd on).Counted := by
  unfold FdSet.clr
  split_ifs with hold
  · change s.count - 1 = ((s.bits.erase fd).card : ℤ)
    rw [h, ← Finset.card_erase_add_one hold.2, Int.natCast_succ, Int.add_sub_cancel]
  · exact h

end FdSet

namespace Select

def watched (w : SelectCtx) : Finset ℕ := w.readfds.bits ∪ w.writefds.bits

/-- The sets are the events of the ios, and `max_fd` is a bound while it is known. -/
structure Inv (view : ℕ → Mask × ℤ) (w : SelectCtx) : Prop where
  index : ∀ fd, (view fd).2 = -1
  read : ∀ fd, fd ∈ w.readfds.bits ↔ (view fd).1.read = true
  write : ∀ fd, fd ∈ w.writefds.bits ↔ (view fd).1.write = true
  nread : w.readfds.Counted
  nwrite : w.writefds.Counted
  max : w.maxFd ≠ -1 → ∀ fd ∈ watched w, (fd : ℤ) ≤ w.maxFd
  size : ∀ fd ∈ watched w, fd < fdSetsize

/-- An fd that may be added: if `max_fd` is not known, no greater fd is watched. -/
def Ok (w : SelectCtx) (fd : ℕ) : Prop := fd < fdSetsize ∧ (w.maxFd = -1 → ∀ fd' ∈ watched w, fd' ≤ fd)

variable {view : ℕ → Mask × ℤ} {w : SelectCtx} {fd : ℕ} {m : Mask}

theorem mem_watched : fd ∈ watched w ↔ fd ∈ w.readfds.bits ∨ fd ∈ w.writefds.bits := Finset.mem_union

theorem Inv.mem_watched (h : Inv view w) : fd ∈ watched w ↔ (view fd).1 ≠ .empty := by
  rw [Select.mem_watched, h.read, h.write]
  rcases (view fd).1 with ⟨_ | _, _ | _⟩ <;> decide

theorem Inv.add (h : Inv view w) (hok : Ok w fd) (m : Mask) :
    Inv (Function.update view fd ((view fd).1.union m, (view fd).2))
      ⟨if w.maxFd < fd then fd else w.maxFd, w.readfds.set fd m.read, w.writefds.set fd m.write⟩ := by
  have hnew : ∀ fd' ∈ watched ⟨if w.maxFd < fd then fd else w.maxFd, w.readfds.set fd m.read, w.writefds.set fd m.write⟩,
      fd' ∈ watched w ∨ fd' = fd := by
    intro fd' hmem
    rw [Select.mem_watched, FdSet.mem_set, FdSet.mem_set] at hmem
    rw [Select.mem_watched]
    rcases hmem with (hmem | hmem) | hmem | hmem
    · exact .inl (.inl hmem)
    · exact .inr hmem.1
    · exact .inl (.inr hmem)
    · exact .inr hmem.1
  refine ⟨fun fd' => (update_index view fd _ fd').trans (h.index fd'),
    fun fd' => FdSet.mem_set_update Mask.read (fun _ => rfl) h.read,
    fun fd' => FdSet.mem_set_update Mask.write (fun _ => rfl) h.write, h.nread.set .., h.nwrite.set ..,
    fun _ fd' hmem => ?_, fun fd' hmem => ?_⟩
  · dsimp only
    rcases hnew fd' hmem with hold | rfl
    · by_cases hunknown : w.maxFd = -1
      · have := hok.2 hunknown fd' hold
        rw [if_pos (by omega)]
        exact_mod_cast this
      · have := h.max hunknown fd' hold
        split_ifs <;> omega
    · split_ifs <;> omega
  · rcases hnew fd' hmem with hold | rfl
    · exact h.size fd' hold
    · exact hok.1

theorem Inv.del (h : Inv view w) (fd : ℕ) (m : Mask) :
    Inv (Function.update view fd ((view fd).1.diff m, (view fd).2))
      ⟨if fd = w.maxFd then -1 else w.maxFd, w.readfds.clr fd m.read, w.writefds.clr fd m.write⟩ := by
  have hold : ∀ fd' ∈ watched ⟨if fd = w.maxFd then -1 else w.maxFd, w.readfds.clr fd m.read, w.writefds.clr fd m.write⟩,
      fd' ∈ watched w := by
    intro fd' hmem
    rw [Select.mem_watched, FdSet.mem_clr, FdSet.mem_clr] at hmem
    exact Select.mem_watched.mpr (hmem.imp And.left And.left)
  refine ⟨fun fd' => (update_index view fd _ fd').trans (h.index fd'),
    fun fd' => FdSet.mem_clr_update Mask.read (fun _ => rfl) h.read,
    fun fd' => FdSet.mem_clr_update Mask.write (fun _ => rfl) h.write, h.nread.clr .., h.nwrite.clr ..,
    fun hmax fd' hmem => ?_, fun fd' hmem => h.size fd' (hold fd' hmem)⟩
  dsimp only at hmax ⊢
  by_cases hfd : (fd : ℤ) = w.maxFd
  · rw [if_pos hfd] at hmax
    exact absurd rfl hmax
  · rw [if_neg hfd] at hmax ⊢
    exact h.max hmax fd' (hold fd' hmem)

theorem Inv.lt_fdSetsize (h : Inv view w) (hmeets : (view fd).1.meets m = true) : fd < fdSetsize :=
  h.size fd (h.mem_watched.mpr (Mask.ne_empty_of_meets hmeets))

def backend : Backend SelectCtx where
  toWatcher := watcher
  Inv := Inv
  Ok _ := Ok
  quiet h _ := h.index _
  add_inv {l io fd m} h hio _ _ hok := by
    have hev : io.events = (l.view fd).1 := by rw [view_of_ios hio]
    refine ⟨_, if_pos hok.1, ?_⟩
    rw [hev]
    exact h.add hok m
  del_inv {l io fd m} h hio hmeets := by
    have hev : io.events = (l.view fd).1 := by rw [view_of_ios hio]
    rw [hev] at hmeets ⊢
    exact ⟨_, if_pos (h.lt_fdSetsize hmeets), h.del fd m⟩

/-! ## Polling -/

variable {l l' : Evloop SelectCtx}

theorem findMaxActiveFd_ge {ios : ℕ → Option Evio} {io : Evio} (hio : ios fd = some io) (hact : io.active = true)
    (hev : io.events ≠ .empty) {n : ℕ} (hn : fd < n) : (fd : ℤ) ≤ findMaxActiveFd ios n := by
  induction n with
  | zero => omega
  | succ n ih =>
    unfold findMaxActiveFd
    rcases Nat.lt_succ_iff_lt_or_eq.mp hn with hlt | rfl
    · split_ifs
      · omega
      · exact ih hlt
    · rw [if_pos (by simp [hio, hact, hev])]

theorem max_le (h : backend.Sound l) (hfd : fd ∈ watched l.iowatcher) :
    (fd : ℤ) ≤ if l.iowatcher.maxFd = -1 then findMaxActiveFd l.ios l.maxsize else l.iowatcher.maxFd := by
  split_ifs with hunknown
  · have hev := h.inv.mem_watched.mp hfd
    cases hio : l.ios fd with
    | none =>
      rw [view, hio] at hev
      exact absurd rfl hev
    | some io =>
      rw [view_of_ios hio] at hev
      have hreg := reg_of_ios hio
      exact findMaxActiveFd_ge hio ((h.active fd _ hreg).mpr hev) hev (h.bound fd _ hreg)
  · exact h.inv.max hunknown fd hfd

theorem call_eq {n : ℤ} {readfds writefds : Finset ℕ} (hcall : call l = some (n, readfds, writefds)) :
    n - 1 = (if l.iowatcher.maxFd = -1 then findMaxActiveFd l.ios l.maxsize else l.iowatcher.maxFd) ∧
      readfds = l.iowatcher.readfds.bits ∧ writefds = l.iowatcher.writefds.bits := by
  unfold call at hcall
  dsimp only at hcall
  split at hcall
  · cases hcall
  · cases hcall
    exact ⟨Int.add_sub_cancel .., rfl, rfl⟩

theorem sound_of_max (h : backend.Sound l) {n : ℤ} (hmax : ∀ fd ∈ watched l.iowatcher, (fd : ℤ) ≤ n) :
    backend.Sound { l with iowatcher := { l.iowatcher with maxFd := n } } := by
  refine ⟨⟨h.bound, h.active, h.unready, h.nios⟩, ?_⟩
  have hinv : Inv l.view l.iowatcher := h.inv
  exact ⟨hinv.index, hinv.read, hinv.write, hinv.nread, hinv.nwrite, fun _ => hmax, hinv.size⟩

theorem removeBadFds_sound (bad : Finset ℕ) (fds : List ℕ) (h : backend.Sound l) :
    ∃ l', removeBadFds bad fds l = some l' ∧ backend.Sound l' := by
  induction fds generalizing l with
  | nil => exact ⟨l, rfl, h⟩
  | cons fd fds ih =>
    unfold removeBadFds
    split_ifs with hmax hbad
    · exact ⟨l, rfl, h⟩
    · obtain ⟨io, hio⟩ := Option.isSome_iff_exists.mp hbad.2.2
      obtain ⟨l₁, hl₁, h₁⟩ := h.del hio .rdwr
      obtain ⟨l₂, hl₂, h₂⟩ := ih h₁
      exact ⟨l₂, Option.bind_eq_some_iff.mpr ⟨l₁, hl₁, hl₂⟩, h₂⟩
    · exact ih h

theorem scan_sound (readfds writefds : Finset ℕ) (nselect : ℕ) (fds : List ℕ) (nevents : ℕ) (h : backend.Sound l) :
    backend.Sound (scan readfds writefds nselect fds nevents l).2 := by
  induction fds generalizing l nevents with
  | nil => exact h
  | cons fd fds ih =>
    unfold scan
    dsimp only
    split_ifs
    · exact h
    · exact h.report fd fun _ => ⟨fd ∈ readfds, fd ∈ writefds⟩
    · exact ih _ h
    · exact ih _ (h.report fd _)

theorem poll_sound (r : Result) (h : backend.Sound l) : ∃ l', step l (.poll r) = some l' ∧ backend.Sound l' := by
  unfold step pollEvents
  cases hcall : call l with
  | none => exact ⟨l, rfl, h⟩
  | some c =>
    obtain ⟨n, readfds, writefds⟩ := c
    obtain ⟨hn, -⟩ := call_eq hcall
    have h₁ := sound_of_max h fun fd hfd => hn ▸ max_le h hfd
    cases r with
    | timeout | error => exact ⟨_, rfl, h₁⟩
    | ebadf bad =>
      obtain ⟨l₂, hl₂, h₂⟩ := removeBadFds_sound bad (List.range n.toNat) h₁
      refine ⟨l₂, ?_, h₂⟩
      dsimp only
      rw [hl₂]
      rfl
    | ready readfds writefds => exact ⟨_, rfl, scan_sound _ _ _ _ _ h₁⟩

def Pre (l : Evloop SelectCtx) : Act → Prop
  | .reg a => backend.Pre l a
  | .poll _ => True

instance : Decidable (Ok w fd) := inferInstanceAs (Decidable (_ ∧ _))

instance (l : Evloop SelectCtx) : (a : Act) → Decidable (Pre l a)
  | .reg (.get _) | .poll _ => isTrue trivial
  | .reg (.add fd m) =>
    inferInstanceAs (Decidable ((l.ios fd).isSome ∧ ((l.view fd).1.meets m.mask = false → Ok l.iowatcher fd)))
  | .reg (.del fd _) | .reg (.done fd) => inferInstanceAs (Decidable ((l.ios fd).isSome))

theorem sound_init : backend.Sound init := by
  refine ⟨Registered.init _, ⟨fun _ => rfl, fun fd => ?_, fun fd => ?_, rfl, rfl, fun h => absurd rfl h, fun fd h => ?_⟩⟩
  · exact iff_of_false (Finset.notMem_empty fd) Bool.false_ne_true
  · exact iff_of_false (Finset.notMem_empty fd) Bool.false_ne_true
  · exact absurd h (Finset.notMem_empty fd)

theorem step_sound (h : backend.Sound l) {a : Act} (hpre : Pre l a) : ∃ l', step l a = some l' ∧ backend.Sound l' := by
  cases a with
  | reg a => exact h.step hpre
  | poll r => exact poll_sound r h

/-- In every run in which an fd is added only while `max_fd` is known or no greater fd is watched (and below
`FD_SETSIZE`): select is called with a bound of all the fds in its sets, and `nread` and `nwrite` count them. -/
theorem select_covers_watched (acts : List Act) (hpre : Run.Along step Pre init acts) :
    ∃ l, Run.exec step init acts = some l ∧
      (∀ n readfds writefds, call l = some (n, readfds, writefds) → ∀ fd ∈ readfds ∪ writefds, (fd : ℤ) < n) ∧
      l.iowatcher.readfds.count = l.iowatcher.readfds.bits.card ∧
      l.iowatcher.writefds.count = l.iowatcher.writefds.bits.card := by
  have hgood : ∀ (hist : List Act) l a, backend.Sound l → Pre l a → ∃ l', step l a = some l' ∧ backend.Sound l' :=
    fun _ _ _ h hpre => step_sound h hpre
  obtain ⟨l, hl, h⟩ := Run.exec_of_along (fun _ => backend.Sound) hgood [] sound_init hpre
  refine ⟨l, hl, fun n readfds writefds hcall fd hfd => ?_, h.inv.nread, h.inv.nwrite⟩
  obtain ⟨hn, rfl, rfl⟩ := call_eq hcall
  have := max_le h hfd
  omega

theorem select_covers_watched_example :
    ∃ l, Run.exec step init [.reg (.get 5), .reg (.add 5 .read), .reg (.get 7), .reg (.add 7 .rdwr),
      .reg (.del 7 .rdwr), .poll .timeout, .reg (.get 4), .reg (.add 4 .write)] = some l ∧
      (∀ n readfds writefds, call l = some (n, readfds, writefds) → ∀ fd ∈ readfds ∪ writefds, (fd : ℤ) < n) ∧
      l.iowatcher.readfds.count = l.iowatcher.readfds.bits.card ∧
      l.iowatcher.writefds.count = l.iowatcher.writefds.bits.card :=
  select_covers_watched _ (by decide +kernel)

/-- After 7 is deleted `max_fd` is -1; adding 4 then makes it 4, and select is called without 5. -/
theorem select_misses_watched :
    ∃ l, Run.exec step init [.reg (.get 5), .reg (.add 5 .read), .reg (.get 7), .reg (.add 7 .read),
      .reg (.del 7 .read), .reg (.get 4), .reg (.add 4 .read)] = some l ∧
      ∃ n readfds writefds, call l = some (n, readfds, writefds) ∧ ¬∀ fd ∈ readfds ∪ writefds, (fd : ℤ) < n :=
  ⟨_, rfl, _, _, _, rfl, by decide⟩

end Select

end Yjc.Watch
