import Yjc.Lib.Run
import Yjc.Lib.Card
import Mathlib.Logic.Function.Basic
import Mathlib.Tactic.SplitIfs
import Mathlib.Algebra.Group.Nat.Defs

/-! Registration of ios: `evio_add`, `evio_del` and what makes an io ready, over a watcher. A watcher is what
one of the back ends keeps in `loop->iowatcher`, with its `iowatcher_add_event` and `iowatcher_del_event`. -/

namespace Yjc.Watch

/-- A set of `EV_READ` and `EV_WRITE`. -/
structure Mask where
  read : Bool
  write : Bool
deriving DecidableEq

namespace Mask

def empty : Mask := ⟨false, false⟩

def rdwr : Mask := ⟨true, true⟩

def union (m n : Mask) : Mask := ⟨m.read || n.read, m.write || n.write⟩

def diff (m n : Mask) : Mask := ⟨m.read && !n.read, m.write && !n.write⟩

/-- `m & n` is not 0. -/
def meets (m n : Mask) : Bool := m.read && n.read || m.write && n.write

end Mask

/-- The fields of `evio_s` that registration works on; `eventIndex` is `event_index[0]`. -/
structure Evio where
  ready : Bool
  active : Bool
  pending : Bool
  events : Mask
  revents : Mask
  eventIndex : ℤ
deriving DecidableEq

def Evio.unindexed (io : Evio) : Evio := { io with eventIndex := -1 }

/-- `loop->ios.ptr` is `ios`, null where it is `none`; `pendings` has the ios in the order of their linking. -/
structure Evloop (ω : Type) where
  ios : ℕ → Option Evio
  maxsize : ℕ
  nios : ℕ
  nactives : ℕ
  pendings : List ℕ
  iowatcher : ω

namespace Evloop
variable {ω : Type}

/-- The ios without `event_index`. -/
def reg (l : Evloop ω) (fd : ℕ) : Option Evio := (l.ios fd).map Evio.unindexed

def rest (l : Evloop ω) : ℕ × List ℕ := (l.maxsize, l.pendings)

def setIo (l : Evloop ω) (fd : ℕ) (io : Evio) : Evloop ω := { l with ios := Function.update l.ios fd (some io) }

def modify (l : Evloop ω) (fd : ℕ) (f : Evio → Evio) : Evloop ω :=
  match l.ios fd with
  | none => l
  | some io => l.setIo fd (f io)

/-- `EVENT_PENDING`. -/
def eventPending (l : Evloop ω) (fd : ℕ) (io : Evio) : Evloop ω :=
  if io.pending then l
  else { l.modify fd (fun io => { io with pending := true }) with pendings := fd :: l.pendings }

end Evloop

/-- Two loops that differ in the watcher and in `event_index` alone. -/
structure Keeps {ω : Type} (l l' : Evloop ω) : Prop where
  reg : l'.reg = l.reg
  maxsize : l'.maxsize = l.maxsize
  nios : l'.nios = l.nios
  pendings : l'.pendings = l.pendings

theorem Keeps.rest {ω : Type} {l l' : Evloop ω} (h : Keeps l l') : l'.rest = l.rest :=
  Prod.ext h.maxsize h.pendings

theorem Keeps.trans {ω : Type} {l l' l'' : Evloop ω} (h : Keeps l l') (h' : Keeps l' l'') : Keeps l l'' :=
  ⟨h'.reg.trans h.reg, h'.maxsize.trans h.maxsize, h'.nios.trans h.nios, h'.pendings.trans h.pendings⟩

structure Watcher (ω : Type) where
  addEvent : ℕ → Mask → Evloop ω → Option (Evloop ω)
  delEvent : ℕ → Mask → Evloop ω → Option (Evloop ω)
  add_keeps : ∀ {fd m l l'}, addEvent fd m l = some l' → Keeps l l'
  del_keeps : ∀ {fd m l l'}, delEvent fd m l = some l' → Keeps l l'

def evioReady (io : Evio) : Evio :=
  if io.ready then io
  else { io with ready := true, events := .empty, revents := .empty, eventIndex := -1 }

def ceil2e (num : ℕ) : ℕ := if num ≤ 1 then 1 else 2 ^ (Nat.log2 (num - 1) + 1)

section
variable {ω : Type} (W : Watcher ω)

def evioGet (fd : ℕ) (l : Evloop ω) : Evloop ω :=
  let l :=
    if fd < l.maxsize then l
    else { l with maxsize := if fd < ceil2e fd then ceil2e fd else 2 * fd }
  l.setIo fd (evioReady ((l.ios fd).getD ⟨false, false, false, .empty, .empty, 0⟩))

/-- `none`: there is no such io, or an assert of the watcher fails. -/
def evioAdd (fd : ℕ) (events : Mask) (l : Evloop ω) : Option (Evloop ω) := do
  let io ← l.ios fd
  let l := if io.active then l else { l with nios := l.nios + 1, nactives := l.nactives + 1 }
  let io := evioReady { io with active := true }
  let l := l.setIo fd io
  if io.events.meets events then some l
  else (W.addEvent fd events l).map fun l => l.modify fd fun io => { io with events := io.events.union events }

/-- The end of `evio_del`. -/
def evioInactive (fd : ℕ) (l : Evloop ω) : Option (Evloop ω) := do
  let io ← l.ios fd
  if io.events = .empty then
    some { l.modify fd (fun io => { io with active := false }) with nios := l.nios - 1, nactives := l.nactives - 1 }
  else some l

def evioDel (fd : ℕ) (events : Mask) (l : Evloop ω) : Option (Evloop ω) := do
  let io ← l.ios fd
  if io.active then
    if io.events.meets events then
      let l ← W.delEvent fd events l
      evioInactive fd (l.modify fd fun io => { io with events := io.events.diff events })
    else evioInactive fd l
  else some l

/-- `evio_done`, as far as registration goes. -/
def evioDone (fd : ℕ) (l : Evloop ω) : Option (Evloop ω) := do
  let io ← l.ios fd
  if io.ready then evioDel W fd .rdwr (l.modify fd fun io => { io with ready := false }) else some l

end

/-- The masks that ios are registered with. -/
inductive Interest
  | read
  | write
  | rdwr
deriving DecidableEq

def Interest.mask : Interest → Mask
  | .read => ⟨true, false⟩
  | .write => ⟨false, true⟩
  | .rdwr => .rdwr

inductive Act
  | get (fd : ℕ)
  | add (fd : ℕ) (m : Interest)
  | del (fd : ℕ) (m : Interest)
  | done (fd : ℕ)
deriving DecidableEq

def step {ω : Type} (W : Watcher ω) (l : Evloop ω) : Act → Option (Evloop ω)
  | .get fd => some (evioGet fd l)
  | .add fd m => evioAdd W fd m.mask l
  | .del fd m => evioDel W fd m.mask l
  | .done fd => evioDone W fd l

def ioArrayInitSize : ℕ := 1024

/-- A loop after `evloop_init`, which calls `iowatcher_init`. -/
def Evloop.init {ω : Type} (iowatcher : ω) : Evloop ω := ⟨fun _ => none, ioArrayInitSize, 0, 0, [], iowatcher⟩

/-! ## What holds of every loop -/

namespace Mask
variable {m n : Mask}

theorem union_ne_empty (h : n ≠ empty) : m.union n ≠ empty := by
  revert h
  rcases m with ⟨_ | _, _ | _⟩ <;> rcases n with ⟨_ | _, _ | _⟩ <;> decide

theorem ne_empty_of_meets (h : m.meets n = true) : m ≠ empty := by
  rintro rfl
  cases h

end Mask

theorem Interest.mask_ne_empty (m : Interest) : m.mask ≠ .empty := by
  cases m <;> decide

namespace Evloop
variable {ω : Type}

def fds (l : Evloop ω) (p : Evio → Bool) : Finset ℕ := (Finset.range l.maxsize).filter fun fd => (l.ios fd).any p

/-- What the watcher goes by: the events of each fd and its index. -/
def view (l : Evloop ω) (fd : ℕ) : Mask × ℤ :=
  match l.ios fd with
  | none => (.empty, -1)
  | some io => (io.events, io.eventIndex)

theorem reg_of_ios {l : Evloop ω} {fd : ℕ} {io : Evio} (h : l.ios fd = some io) : l.reg fd = some io.unindexed := by
  rw [reg, h, Option.map_some]

theorem ios_of_reg {l : Evloop ω} {fd : ℕ} {io : Evio} (h : l.reg fd = some io) :
    ∃ io', l.ios fd = some io' ∧ io'.unindexed = io :=
  Option.map_eq_some_iff.mp h

@[simp] theorem setIo_self (l : Evloop ω) (fd : ℕ) (io : Evio) : (l.setIo fd io).ios fd = some io :=
  Function.update_self ..

theorem setIo_of_ne (l : Evloop ω) {fd fd' : ℕ} (h : fd' ≠ fd) (io : Evio) : (l.setIo fd io).ios fd' = l.ios fd' :=
  Function.update_of_ne h ..

theorem reg_setIo (l : Evloop ω) (fd : ℕ) (io : Evio) :
    (l.setIo fd io).reg = Function.update l.reg fd (some io.unindexed) := by
  funext fd'
  unfold reg
  by_cases hfd : fd' = fd
  · rw [hfd, Function.update_self, setIo_self, Option.map_some]
  · rw [Function.update_of_ne hfd, setIo_of_ne l hfd]

theorem view_of_ios {l : Evloop ω} {fd : ℕ} {io : Evio} (h : l.ios fd = some io) :
    l.view fd = (io.events, io.eventIndex) := by
  rw [view, h]

theorem view_setIo (l : Evloop ω) (fd : ℕ) (io : Evio) :
    (l.setIo fd io).view = Function.update l.view fd (io.events, io.eventIndex) := by
  funext fd'
  by_cases hfd : fd' = fd
  · rw [hfd, Function.update_self, view_of_ios (l.setIo_self fd io)]
  · rw [Function.update_of_ne hfd, view, setIo_of_ne l hfd, view]

theorem update_index (view : ℕ → Mask × ℤ) (fd : ℕ) (m : Mask) (fd' : ℕ) :
    (Function.update view fd (m, (view fd).2) fd').2 = (view fd').2 := by
  rcases eq_or_ne fd' fd with rfl | hne
  · rw [Function.update_self]
  · rw [Function.update_of_ne hne]

theorem modify_of_ios {l : Evloop ω} {fd : ℕ} {io : Evio} (f : Evio → Evio) (h : l.ios fd = some io) :
    l.modify fd f = l.setIo fd (f io) := by
  rw [modify, h]

theorem fds_eq_reg (l : Evloop ω) :
    l.fds Evio.active = (Finset.range l.maxsize).filter fun fd => (l.reg fd).any Evio.active := by
  unfold fds reg
  congr 1
  funext fd
  cases l.ios fd <;> rfl

theorem mem_fds_of_bound {l : Evloop ω} (h : ∀ fd io, l.reg fd = some io → fd < l.maxsize) {fd : ℕ} :
    fd ∈ l.fds Evio.active ↔ (l.reg fd).any Evio.active = true := by
  rw [fds_eq_reg, Finset.mem_filter, Finset.mem_range, and_iff_right_iff_imp, Option.any_eq_true]
  rintro ⟨io, hio, -⟩
  exact h fd io hio

end Evloop

open Evloop

section
variable {ω : Type}

/-- Activity and events agree, and `nios` counts the active ios. -/
structure Registered (l : Evloop ω) : Prop where
  bound : ∀ fd io, l.reg fd = some io → fd < l.maxsize
  active : ∀ fd io, l.reg fd = some io → (io.active = true ↔ io.events ≠ .empty)
  unready : ∀ fd io, l.reg fd = some io → io.ready = false → io.events = .empty
  nios : l.nios = (l.fds Evio.active).card

theorem Registered.mem_fds {l : Evloop ω} (h : Registered l) {fd : ℕ} :
    fd ∈ l.fds Evio.active ↔ (l.reg fd).any Evio.active = true :=
  mem_fds_of_bound h.bound

theorem Registered.nios_pos {l : Evloop ω} (h : Registered l) {fd : ℕ} {io : Evio} (hio : l.reg fd = some io)
    (hact : io.active = true) : 0 < l.nios := by
  rw [h.nios]
  refine Finset.card_pos.mpr ⟨fd, h.mem_fds.mpr ?_⟩
  rw [hio]
  exact hact

theorem Registered.init (w : ω) : Registered (Evloop.init w) := by
  refine ⟨fun fd io h => (by cases h), fun fd io h => (by cases h), fun fd io h => (by cases h), ?_⟩
  have : (Evloop.init w).fds Evio.active = ∅ := Finset.filter_false_of_mem fun fd _ h => by cases h
  rw [this]
  rfl

theorem Registered.update {l l' : Evloop ω} (h : Registered l) {fd : ℕ} {io : Evio}
    (hreg : l'.reg = Function.update l.reg fd (some io)) (hsize : l.maxsize ≤ l'.maxsize) (hfd : fd < l'.maxsize)
    (hact : io.active = true ↔ io.events ≠ .empty) (hun : io.ready = false → io.events = .empty)
    (hn : l'.nios + (if (l.reg fd).any Evio.active then 1 else 0) = l.nios + if io.active then 1 else 0) :
    Registered l' := by
  -- the io of one fd changes, and is counted as it should be
  have hother : ∀ {fd' io'}, l'.reg fd' = some io' → fd' = fd ∧ io' = io ∨ fd' ≠ fd ∧ l.reg fd' = some io' := by
    intro fd' io' h'
    rw [hreg] at h'
    by_cases hne : fd' = fd
    · rw [hne, Function.update_self] at h'
      exact .inl ⟨hne, (Option.some.inj h').symm⟩
    · rw [Function.update_of_ne hne] at h'
      exact .inr ⟨hne, h'⟩
  have hbound : ∀ fd' io', l'.reg fd' = some io' → fd' < l'.maxsize := by
    intro fd' io' h'
    rcases hother h' with ⟨rfl, -⟩ | ⟨-, h'⟩
    · exact hfd
    · exact Nat.lt_of_lt_of_le (h.bound fd' io' h') hsize
  refine ⟨hbound, fun fd' io' h' => ?_, fun fd' io' h' => ?_, ?_⟩
  · rcases hother h' with ⟨-, rfl⟩ | ⟨-, h'⟩
    · exact hact
    · exact h.active fd' io' h'
  · rcases hother h' with ⟨-, rfl⟩ | ⟨-, h'⟩
    · exact hun
    · exact h.unready fd' io' h'
  · have hagree : ∀ fd', fd' ≠ fd → (fd' ∈ l'.fds Evio.active ↔ fd' ∈ l.fds Evio.active) := by
      intro fd' hne
      rw [h.mem_fds, mem_fds_of_bound hbound, hreg, Function.update_of_ne hne]
    have hcard := Card.card_add_of_agree hagree
    simp only [h.mem_fds, mem_fds_of_bound hbound, hreg, Function.update_self, Option.any_some] at hcard
    rw [h.nios] at hn
    omega

end

/-! ## What a call does to its io -/

/-- The io after `evio_add`. -/
def addIo (m : Mask) (io : Evio) : Evio :=
  let io := evioReady { io with active := true }
  if io.events.meets m then io else { io with events := io.events.union m }

/-- The io after `evio_del`. -/
def delIo (m : Mask) (io : Evio) : Evio :=
  if io.active then
    let events := io.events.diff m
    { io with events := events, active := events ≠ .empty }
  else io

theorem Mask.diff_of_not_meets {m n : Mask} (h : m.meets n = false) : m.diff n = m := by
  revert h
  rcases m with ⟨_ | _, _ | _⟩ <;> rcases n with ⟨_ | _, _ | _⟩ <;> decide

theorem Mask.diff_rdwr (m : Mask) : m.diff .rdwr = .empty := by
  rcases m with ⟨_ | _, _ | _⟩ <;> rfl

theorem delIo_rdwr_active (io : Evio) : (delIo .rdwr io).active = false := by
  unfold delIo
  split_ifs with h
  · dsimp only
    rw [Mask.diff_rdwr]
    rfl
  · exact (Bool.not_eq_true _).mp h

theorem evioReady_unindexed (io : Evio) : (evioReady io).unindexed = evioReady io.unindexed := by
  unfold evioReady Evio.unindexed
  dsimp only
  split_ifs <;> rfl

section
variable {ω : Type} {W : Watcher ω} {l l' : Evloop ω} {fd : ℕ} {m : Mask}

/-- The loop when `evio_add` comes to the watcher. -/
def Evloop.activate (l : Evloop ω) (fd : ℕ) (io : Evio) : Evloop ω :=
  { l with nios := l.nios + if io.active then 0 else 1, nactives := l.nactives + if io.active then 0 else 1 }.setIo fd
    (evioReady { io with active := true })

theorem evioAdd_eq {io : Evio} (h : l.ios fd = some io) :
    evioAdd W fd m l =
      if (evioReady { io with active := true }).events.meets m then some (l.activate fd io)
      else (W.addEvent fd m (l.activate fd io)).map fun l =>
        l.modify fd fun io => { io with events := io.events.union m } := by
  unfold evioAdd Evloop.activate
  rw [h]
  obtain ⟨ready, active, pending, events, revents, eventIndex⟩ := io
  cases active <;> rfl

theorem activate_reg (io : Evio) :
    (l.activate fd io).reg = Function.update l.reg fd (some (evioReady { io.unindexed with active := true })) := by
  have h : (evioReady { io with active := true }).unindexed = evioReady { io.unindexed with active := true } :=
    evioReady_unindexed _
  rw [Evloop.activate, reg_setIo, h]
  rfl

theorem modify_reg_of_keeps {l₁ : Evloop ω} (hk : Keeps l₁ l') {io : Evio} (h : l₁.reg fd = some io) (events : Mask → Mask) :
    (l'.modify fd fun io => { io with events := events io.events }).reg =
      Function.update l₁.reg fd (some { io with events := events io.events }) := by
  rw [← hk.reg] at h ⊢
  obtain ⟨io', hio', rfl⟩ := ios_of_reg h
  rw [modify_of_ios _ hio', reg_setIo]
  rfl

theorem evioAdd_reg (h : evioAdd W fd m l = some l') :
    ∃ io, l.reg fd = some io ∧ l'.reg = Function.update l.reg fd (some (addIo m io)) ∧ l'.rest = l.rest ∧
      l'.nios = l.nios + if io.active then 0 else 1 := by
  obtain ⟨io, hio, -⟩ := Option.bind_eq_some_iff.mp h
  rw [evioAdd_eq hio] at h
  have hev := congrArg Evio.events (evioReady_unindexed { io with active := true })
  refine ⟨io.unindexed, reg_of_ios hio, ?_⟩
  unfold addIo
  by_cases hm : (evioReady { io with active := true }).events.meets m = true
  · rw [if_pos hm] at h
    cases h
    rw [if_pos (hev ▸ hm)]
    exact ⟨activate_reg io, rfl, rfl⟩
  rw [if_neg hm] at h
  rw [if_neg (hev ▸ hm)]
  obtain ⟨l₁, hadd, rfl⟩ := Option.map_eq_some_iff.mp h
  have hk := W.add_keeps hadd
  have hfd : (l.activate fd io).reg fd = some (evioReady { io.unindexed with active := true }) := by
    rw [activate_reg, Function.update_self]
  obtain ⟨io₁, hio₁, -⟩ := ios_of_reg (hk.reg ▸ hfd)
  refine ⟨?_, ?_, ?_⟩
  · rw [modify_reg_of_keeps hk hfd (·.union m), activate_reg, Function.update_idem]
  · rw [modify_of_ios _ hio₁]
    exact hk.rest
  · rw [modify_of_ios _ hio₁]
    exact hk.nios

theorem evioInactive_eq {io : Evio} (hio : l.ios fd = some io) :
    evioInactive fd l =
      if io.events = .empty then
        some { l.setIo fd { io with active := false } with nios := l.nios - 1, nactives := l.nactives - 1 }
      else some l := by
  rw [evioInactive, modify_of_ios _ hio, hio]
  rfl

theorem evioInactive_reg {io : Evio} (hio : l.ios fd = some io) (hact : io.active = true) :
    ∃ l', evioInactive fd l = some l' ∧
      l'.reg = Function.update l.reg fd (some { io.unindexed with active := io.events ≠ .empty }) ∧
      l'.rest = l.rest ∧ l'.nios = l.nios - (if io.events = .empty then 1 else 0) ∧
      l'.view = l.view ∧ l'.iowatcher = l.iowatcher := by
  rw [evioInactive_eq hio]
  by_cases he : io.events = .empty
  · rw [if_pos he]
    refine ⟨_, rfl, ?_, rfl, by rw [if_pos he], ?_, rfl⟩
    · refine (reg_setIo l fd _).trans ?_
      rw [decide_eq_false (not_not.mpr he)]
      rfl
    · refine (view_setIo l fd _).trans ?_
      rw [← view_of_ios hio, Function.update_eq_self]
  · rw [if_neg he]
    refine ⟨l, rfl, ?_, rfl, by rw [if_neg he, Nat.sub_zero], rfl, rfl⟩
    have : ({ io.unindexed with active := decide (io.events ≠ .empty) } : Evio) = io.unindexed := by
      rw [decide_eq_true he, ← hact]
      rfl
    rw [this, ← reg_of_ios hio, Function.update_eq_self]

/-- `evio_del` up to the test of `events`. -/
def evioUnwatch (W : Watcher ω) (fd : ℕ) (m : Mask) (io : Evio) (l : Evloop ω) : Option (Evloop ω) :=
  if io.events.meets m then
    (W.delEvent fd m l).map fun l => l.modify fd fun io => { io with events := io.events.diff m }
  else some l

theorem evioDel_eq {io : Evio} (hio : l.ios fd = some io) :
    evioDel W fd m l = if io.active then (evioUnwatch W fd m io l).bind (evioInactive fd) else some l := by
  unfold evioDel evioUnwatch
  rw [hio]
  change (if io.active then if io.events.meets m then _ else _ else _) = _
  congr 1
  split_ifs
  · cases W.delEvent fd m l <;> rfl
  · rfl

theorem evioUnwatch_reg {io : Evio} (hio : l.ios fd = some io) (h : evioUnwatch W fd m io l = some l') :
    l'.reg = Function.update l.reg fd (some { io.unindexed with events := io.events.diff m }) ∧
      l'.rest = l.rest ∧ l'.nios = l.nios := by
  unfold evioUnwatch at h
  have hfd := reg_of_ios hio
  split_ifs at h with hm
  · obtain ⟨l₁, hdel, rfl⟩ := Option.map_eq_some_iff.mp h
    have hk := W.del_keeps hdel
    obtain ⟨io₁, hio₁, -⟩ := ios_of_reg (hk.reg ▸ hfd)
    refine ⟨modify_reg_of_keeps hk hfd (·.diff m), ?_, ?_⟩ <;> rw [modify_of_ios _ hio₁]
    · exact hk.rest
    · exact hk.nios
  · cases h
    refine ⟨?_, rfl, rfl⟩
    rw [Mask.diff_of_not_meets ((Bool.not_eq_true _).mp hm)]
    exact (hfd ▸ Function.update_eq_self fd l.reg).symm

theorem evioDel_reg (h : evioDel W fd m l = some l') :
    ∃ io, l.reg fd = some io ∧ l'.reg = Function.update l.reg fd (some (delIo m io)) ∧ l'.rest = l.rest ∧
      l'.nios = l.nios - if io.active ∧ (delIo m io).active = false then 1 else 0 := by
  obtain ⟨io, hio, -⟩ := Option.bind_eq_some_iff.mp h
  rw [evioDel_eq hio] at h
  have hfd := reg_of_ios hio
  refine ⟨io.unindexed, hfd, ?_⟩
  by_cases hact : io.active = true
  · rw [if_pos hact] at h
    obtain ⟨l₁, hl₁, h⟩ := Option.bind_eq_some_iff.mp h
    obtain ⟨hreg, hrest, hn⟩ := evioUnwatch_reg hio hl₁
    obtain ⟨io₁, hio₁, hun⟩ := ios_of_reg (show l₁.reg fd = some _ by rw [hreg, Function.update_self])
    have hev : io₁.events = io.events.diff m := congrArg Evio.events hun
    have hact₁ : io₁.active = true := (congrArg Evio.active hun).trans hact
    obtain ⟨l₂, hl₂, hreg₂, hrest₂, hn₂, -⟩ := evioInactive_reg hio₁ hact₁
    rw [h] at hl₂
    cases hl₂
    have hdel : delIo m io.unindexed = { io₁.unindexed with active := io₁.events ≠ .empty } := by
      rw [delIo, if_pos (show io.unindexed.active = true from hact), hun, hev]
      rfl
    refine ⟨?_, hrest₂.trans hrest, ?_⟩
    · rw [hreg₂, hreg, Function.update_idem, hdel]
    · rw [hn₂, hn, hdel]
      simp [show io.unindexed.active = true from hact]
  · rw [if_neg hact] at h
    cases h
    have hdel : delIo m io.unindexed = io.unindexed := if_neg hact
    refine ⟨?_, rfl, ?_⟩
    · rw [hdel]
      exact (hfd ▸ Function.update_eq_self fd l.reg).symm
    · rw [if_neg fun hc => hact hc.1, Nat.sub_zero]

theorem evioDone_reg (h : evioDone W fd l = some l') :
    ∃ io, l.reg fd = some io ∧ (io.ready = false ∧ l' = l ∨
      l'.reg = Function.update l.reg fd (some (delIo .rdwr { io with ready := false })) ∧ l'.rest = l.rest ∧
      l'.nios = l.nios - if io.active then 1 else 0) := by
  obtain ⟨io, hio, h⟩ := Option.bind_eq_some_iff.mp h
  refine ⟨io.unindexed, reg_of_ios hio, ?_⟩
  split_ifs at h with hr
  · rw [modify_of_ios _ hio] at h
    obtain ⟨io₁, hio₁, hreg, hrest, hn⟩ := evioDel_reg h
    rw [reg_setIo, Function.update_self] at hio₁
    cases hio₁
    rw [reg_setIo, Function.update_idem] at hreg
    refine .inr ⟨hreg, hrest, hn.trans ?_⟩
    congr 1
    by_cases hact : io.active = true
    · rw [if_pos (show io.unindexed.active = true from hact), if_pos ⟨hact, delIo_rdwr_active _⟩]
    · rw [if_neg (show ¬io.unindexed.active = true from hact), if_neg fun hc => hact hc.1]
  · cases h
    exact .inl ⟨(Bool.not_eq_true _).mp hr, rfl⟩

theorem lt_evioGet_maxsize (fd : ℕ) (l : Evloop ω) : fd < (evioGet fd l).maxsize ∧ l.maxsize ≤ (evioGet fd l).maxsize := by
  unfold evioGet Evloop.setIo
  dsimp only
  split_ifs with h1 h2
  · exact ⟨h1, Nat.le_refl _⟩
  · exact ⟨h2, by dsimp only; omega⟩
  · have : fd ≠ 0 := by
      rintro rfl
      exact h2 (by decide)
    dsimp only
    omega

theorem evioGet_reg (fd : ℕ) (l : Evloop ω) :
    (evioGet fd l).reg =
      Function.update l.reg fd (some (evioReady ((l.reg fd).getD ⟨false, false, false, .empty, .empty, -1⟩))) := by
  have h : ∀ l₁ : Evloop ω, l₁.ios = l.ios →
      (l₁.setIo fd (evioReady ((l₁.ios fd).getD ⟨false, false, false, .empty, .empty, 0⟩))).reg =
        Function.update l.reg fd (some (evioReady ((l.reg fd).getD ⟨false, false, false, .empty, .empty, -1⟩))) := by
    intro l₁ hl₁
    rw [reg_setIo, evioReady_unindexed, hl₁, show l₁.reg = l.reg by unfold Evloop.reg; rw [hl₁], Evloop.reg]
    cases l.ios fd <;> rfl
  unfold evioGet
  dsimp only
  split_ifs <;> exact h _ rfl

theorem evioReady_eq (h : Registered l) {io : Evio} (hio : l.reg fd = some io) :
    (evioReady io).active = io.active ∧ (evioReady io).ready = true ∧ (evioReady io).events = io.events := by
  unfold evioReady
  split_ifs with hr
  · exact ⟨rfl, hr, rfl⟩
  · exact ⟨rfl, rfl, (h.unready fd io hio ((Bool.not_eq_true _).mp hr)).symm⟩

theorem Registered.get (h : Registered l) (fd : ℕ) : Registered (evioGet fd l) := by
  obtain ⟨hfd, hsize⟩ := lt_evioGet_maxsize fd l
  have hn : (evioGet fd l).nios = l.nios := by
    unfold evioGet
    dsimp only
    split_ifs <;> rfl
  have hreg := evioGet_reg fd l
  cases hio : l.reg fd with
  | none =>
    rw [hio] at hreg
    refine h.update hreg hsize hfd (by decide) (by decide) ?_
    rw [hn, hio]
    rfl
  | some io =>
    obtain ⟨hact, hready, hev⟩ := evioReady_eq h hio
    rw [hio] at hreg
    refine h.update hreg hsize hfd ?_ (fun hr => ?_) ?_
    · rw [Option.getD_some, hact, hev]
      exact h.active fd io hio
    · rw [Option.getD_some, hready] at hr
      cases hr
    · rw [hn, hio, Option.any_some, Option.getD_some, hact]

theorem addIo_eq (h : Registered l) {io : Evio} (hio : l.reg fd = some io) :
    (addIo m io).active = true ∧ (addIo m io).ready = true ∧
      (addIo m io).events = if io.events.meets m then io.events else io.events.union m := by
  have hready : (evioReady { io with active := true }).events = io.events ∧
      (evioReady { io with active := true }).active = true ∧ (evioReady { io with active := true }).ready = true := by
    unfold evioReady
    dsimp only
    split_ifs with hr
    · exact ⟨rfl, rfl, hr⟩
    · exact ⟨(h.unready fd io hio ((Bool.not_eq_true _).mp hr)).symm, rfl, rfl⟩
  obtain ⟨h1, h2, h3⟩ := hready
  unfold addIo
  dsimp only
  rw [h1]
  split_ifs
  · exact ⟨h2, h3, h1⟩
  · exact ⟨h2, h3, rfl⟩

theorem delIo_eq {io : Evio} (hact : io.active = true ↔ io.events ≠ .empty) :
    (delIo m io).events = io.events.diff m ∧ ((delIo m io).active = true ↔ (delIo m io).events ≠ .empty) ∧
      (delIo m io).ready = io.ready := by
  -- `evio_del` takes the mask away, also from an io that is not active
  unfold delIo
  split_ifs with h
  · exact ⟨rfl, decide_eq_true_iff, rfl⟩
  · have he : io.events = .empty := not_not.mp (mt hact.mpr h)
    refine ⟨?_, hact, rfl⟩
    rw [he]
    rfl

theorem Registered.add (h : Registered l) (hm : m ≠ .empty) (hstep : evioAdd W fd m l = some l') : Registered l' := by
  obtain ⟨io, hio, hreg, hrest, hn⟩ := evioAdd_reg hstep
  have hsize : l'.maxsize = l.maxsize := congrArg Prod.fst hrest
  obtain ⟨hact, hready, hev⟩ := addIo_eq h hio (m := m)
  have hfd := h.bound fd io hio
  refine h.update hreg (Nat.le_of_eq hsize.symm) (hsize ▸ hfd) (iff_of_true hact ?_) (fun hr => ?_) ?_
  · rw [hev]
    split_ifs with hmeets
    · exact Mask.ne_empty_of_meets hmeets
    · exact Mask.union_ne_empty hm
  · rw [hready] at hr
    cases hr
  · rw [hn, hio, Option.any_some, hact]
    cases io.active <;> rfl

theorem Registered.del (h : Registered l) (hstep : evioDel W fd m l = some l') : Registered l' := by
  obtain ⟨io, hio, hreg, hrest, hn⟩ := evioDel_reg hstep
  have hsize : l'.maxsize = l.maxsize := congrArg Prod.fst hrest
  obtain ⟨hev, hact, hready⟩ := delIo_eq (h.active fd io hio) (m := m)
  have hfd := h.bound fd io hio
  refine h.update hreg (Nat.le_of_eq hsize.symm) (hsize ▸ hfd) hact (fun hr => ?_) ?_
  · rw [hev, h.unready fd io hio (hready ▸ hr)]
    rfl
  · have hpos : io.active = true → 0 < l.nios := h.nios_pos hio
    have hgone : io.active = false → (delIo m io).active = false := by
      intro hf
      rw [delIo, if_neg (by simp [hf]), hf]
    rw [hn, hio, Option.any_some]
    cases ha : io.active <;> cases hb : (delIo m io).active <;> simp_all
    omega

theorem Registered.done (h : Registered l) (hstep : evioDone W fd l = some l') : Registered l' := by
  obtain ⟨io, hio, ⟨-, rfl⟩ | ⟨hreg, hrest, hn⟩⟩ := evioDone_reg hstep
  · exact h
  have hsize : l'.maxsize = l.maxsize := congrArg Prod.fst hrest
  have hok : ({ io with ready := false } : Evio).active = true ↔ ({ io with ready := false } : Evio).events ≠ .empty :=
    h.active fd io hio
  obtain ⟨hev, hact, -⟩ := delIo_eq hok (m := .rdwr)
  have hfd := h.bound fd io hio
  rw [Mask.diff_rdwr] at hev
  refine h.update hreg (Nat.le_of_eq hsize.symm) (hsize ▸ hfd) hact (fun _ => hev) ?_
  have hpos : io.active = true → 0 < l.nios := h.nios_pos hio
  rw [hn, hio, Option.any_some, delIo_rdwr_active]
  cases ha : io.active <;> simp_all
  omega

theorem Registered.step (h : Registered l) {a : Act} (hstep : step W l a = some l') : Registered l' := by
  cases a with
  | get fd =>
    cases hstep
    exact h.get fd
  | add fd m => exact h.add m.mask_ne_empty hstep
  | del fd m => exact h.del hstep
  | done fd => exact h.done hstep

/-! ## The list of pending ios -/

/-- An io is on the list once, or not at all, as its `pending` says. -/
def Linked (l : Evloop ω) : Prop := ∀ fd, l.pendings.count fd = if (l.reg fd).any Evio.pending then 1 else 0

theorem Linked.update (h : Linked l) {io : Evio} (hreg : l'.reg = Function.update l.reg fd (some io))
    (hpend : l'.pendings = l.pendings) (hio : io.pending = (l.reg fd).any Evio.pending) : Linked l' := by
  intro fd'
  rw [hpend, hreg, h fd']
  rcases eq_or_ne fd' fd with rfl | hne
  · rw [Function.update_self, Option.any_some, hio]
  · rw [Function.update_of_ne hne]

theorem evioReady_pending (io : Evio) : (evioReady io).pending = io.pending := by
  unfold evioReady
  split_ifs <;> rfl

theorem addIo_pending (io : Evio) : (addIo m io).pending = io.pending := by
  unfold addIo
  dsimp only
  split_ifs <;> exact evioReady_pending _

theorem delIo_pending (io : Evio) : (delIo m io).pending = io.pending := by
  unfold delIo
  split_ifs <;> rfl

theorem Linked.step (h : Linked l) {a : Act} (hstep : step W l a = some l') : Linked l' := by
  cases a with
  | get fd =>
    cases hstep
    refine h.update (evioGet_reg fd l) ?_ ?_
    · unfold evioGet
      dsimp only
      split_ifs <;> rfl
    · rw [evioReady_pending]
      cases l.reg fd <;> rfl
  | add fd m =>
    obtain ⟨io, hio, hreg, hrest, -⟩ := evioAdd_reg hstep
    exact h.update hreg (congrArg Prod.snd hrest) (by rw [addIo_pending, hio, Option.any_some])
  | del fd m =>
    obtain ⟨io, hio, hreg, hrest, -⟩ := evioDel_reg hstep
    exact h.update hreg (congrArg Prod.snd hrest) (by rw [delIo_pending, hio, Option.any_some])
  | done fd =>
    obtain ⟨io, hio, ⟨-, rfl⟩ | ⟨hreg, hrest, -⟩⟩ := evioDone_reg hstep
    · exact h
    · exact h.update hreg (congrArg Prod.snd hrest) (by rw [delIo_pending, hio, Option.any_some])

end

end Yjc.Watch
