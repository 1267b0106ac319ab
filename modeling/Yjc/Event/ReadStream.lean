import Yjc.Event.ReadUntil

/-! The stream that the read-until calls hand out: what was passed to `read_cb` and what is pending
make up what was received. -/

namespace Yjc.Event
open Mem

/-- What a request asks of the buffer it is answered with. -/
def ReadRequest.Fulfilled : ReadRequest → List UInt8 → Prop
  | .plain, _ => True
  | .untilLength n, buf => buf.length = n
  | .untilDelim d, buf => ∃ xs, buf = xs ++ [d] ∧ d ∉ xs

structure BufInv (io : Evio) : Prop where
  isOpen : io.closed = false
  setting : io.unpackSetting = none
  max : io.maxReadBufsize = maxReadBufsizeDefault
  ok : io.readbuf.Ok
  pos : 0 < io.readbuf.len
  front : io.readbuf.head = io.readbuf.tail → io.readbuf.tail = 0
  loop : io.readbuf.base = .loop → io.readbuf.tail = 0
  own : io.readbuf.base = .own ↔ io.allocedReadbuf = true
  len_le : io.allocedReadbuf = true → io.readbuf.len ≤ io.maxReadBufsize
  small : io.allocedReadbuf = false → io.smallReadbytesCnt = 0

/-- `io'` holds the same bytes for the same request as `io`, maybe elsewhere. -/
structure Relocates (io io' : Evio) : Prop where
  inv : BufInv io'
  pending : io'.readbuf.pending = io.readbuf.pending
  flags : io'.readFlags = io.readFlags
  readUntil : io'.readUntil = io.readUntil
  base : io'.readbuf.base = .loop → io.readbuf.base = .loop

namespace BufInv
variable {io : Evio} (h : BufInv io)
include h

theorem length_pending : io.readbuf.pending.length = io.readbuf.tail - io.readbuf.head := by
  rw [FifoBuf.pending, length_slice (by rw [h.ok.mem_length]; exact h.ok.tail_le)]

theorem size_eq : io.readbuf.size = io.readbuf.pending.length := by
  rw [h.length_pending, FifoBuf.size, if_pos h.ok.head_le]

theorem slice_head {n : ℕ} (hn : n ≤ io.readbuf.pending.length) :
    slice io.readbuf.mem io.readbuf.head (io.readbuf.head + n) = io.readbuf.pending.take n := by
  have hlp := h.length_pending
  have hhead := h.ok.head_le
  rw [FifoBuf.pending, take_slice (by omega)]

theorem refl : Relocates io io := ⟨h, rfl, rfl, rfl, id⟩

theorem tail_eq_zero (hp : io.readbuf.pending = []) : io.readbuf.head = 0 ∧ io.readbuf.tail = 0 := by
  have hl := h.length_pending
  have hle := h.ok.head_le
  have hf := h.front
  rw [hp, List.length_nil] at hl
  omega

theorem alloc {n : ℕ} (hn : 0 < n) (hmax : n ≤ io.maxReadBufsize) (htail : io.readbuf.tail ≤ n)
    (huser : io.readbuf.base = .user → io.readbuf.pending = []) :
    ∃ io', evioAllocReadbuf (cInt n) io = some io' ∧ Relocates io io' ∧ io'.readbuf.tail = io.readbuf.tail ∧
      io'.readbuf.base = .own := by
  have h24 : io.maxReadBufsize = 2 ^ 24 := h.max
  refine ⟨_, evioAllocReadbuf_of_lt hn (by omega) hmax, ⟨⟨h.isOpen, h.setting, h.max, ⟨?_, h.ok.head_le, htail⟩, hn,
    h.front, ?_, ?_, fun _ => hmax, ?_⟩, ?_, rfl, rfl, fun hb => by cases hb⟩, rfl, rfl⟩
  · dsimp only
    split_ifs
    · exact length_zrealloc _ _
    · exact List.length_replicate
  · intro hb
    cases hb
  · simp
  · intro ha
    cases ha
  · cases ha : io.allocedReadbuf with
    | true =>
      simp only [if_true, FifoBuf.pending]
      exact slice_zrealloc htail (by rw [h.ok.mem_length]; exact h.ok.tail_le)
    | false =>
      have hempty : io.readbuf.pending = [] := by
        cases hb : io.readbuf.base with
        | loop =>
          rw [FifoBuf.pending]
          exact slice_eq_nil (by rw [h.loop hb]; exact Nat.zero_le _)
        | user => exact huser hb
        | own => simp [h.own.mp hb] at ha
      obtain ⟨h0, ht⟩ := h.tail_eq_zero hempty
      rw [hempty, FifoBuf.pending]
      exact slice_eq_nil (by dsimp only; omega)

theorem memmove : Relocates io (evioMemmoveReadbuf io) ∧ (evioMemmoveReadbuf io).readbuf.head = 0 ∧
    (evioMemmoveReadbuf io).readbuf.tail ≤ io.readbuf.tail := by
  have hlp := h.length_pending
  obtain ⟨hmem, hhead, htail⟩ := h.ok
  unfold evioMemmoveReadbuf
  dsimp only
  split_ifs with heq hlt
  · have h0 := h.front heq.symm
    refine ⟨⟨⟨h.isOpen, h.setting, h.max, ⟨hmem, Nat.le_refl _, Nat.zero_le _⟩, h.pos, fun _ => rfl, fun _ => rfl, h.own,
      h.len_le, h.small⟩, ?_, rfl, rfl, id⟩, rfl, Nat.zero_le _⟩
    rw [FifoBuf.pending, FifoBuf.pending, h0, heq.symm.trans h0]
  · refine ⟨⟨⟨h.isOpen, h.setting, h.max, ⟨?_, Nat.zero_le _, ?_⟩, h.pos, ?_, ?_, h.own, h.len_le, h.small⟩, ?_,
      rfl, rfl, id⟩, rfl, Nat.sub_le _ _⟩
    · exact (length_store (by omega)).trans hmem
    · exact Nat.le_trans (Nat.sub_le _ _) htail
    · intro he
      dsimp only at he ⊢
      omega
    · intro hb
      have := h.loop hb
      dsimp only
      omega
    · change slice (store io.readbuf.mem 0 io.readbuf.pending) 0 (io.readbuf.tail - io.readbuf.head) = _
      rw [← hlp]
      exact slice_store_zero _ _
  · omega

theorem autosize (huser : io.readbuf.base = .user → io.readbuf.head = 0 → io.readbuf.tail ≠ io.readbuf.len)
    (hgrow : io.readbuf.head = 0 → io.readbuf.tail = io.readbuf.len → io.readbuf.len * 2 ≤ io.maxReadBufsize) :
    ∃ io', evioAutosizeReadbuf io = some io' ∧ Relocates io io' ∧ io'.readbuf.tail ≤ io.readbuf.tail := by
  have hrw : (if io.readbuf.head = io.readbuf.tail then { io with readbuf := { io.readbuf with head := 0, tail := 0 } }
      else io) = io := by
    split_ifs with heq
    · have ht := h.front heq
      have hb : { io.readbuf with head := 0, tail := 0 } = io.readbuf := by
        conv_rhs => rw [show io.readbuf = { io.readbuf with head := io.readbuf.head, tail := io.readbuf.tail } from rfl,
          heq, ht]
      rw [hb]
    · rfl
  have hpos := h.pos
  unfold evioAutosizeReadbuf
  dsimp only
  rw [hrw]
  split_ifs with hfull h0 hsmall
  · rw [show ((io.readbuf.len : ℤ) * 2) = ((io.readbuf.len * 2 : ℕ) : ℤ) by omega]
    obtain ⟨io', he, hr, ht, -⟩ := h.alloc (n := io.readbuf.len * 2) (by omega) (hgrow h0 hfull) (by omega)
      fun hb => absurd hfull (huser hb h0)
    exact ⟨io', he, hr, Nat.le_of_eq ht⟩
  · exact ⟨_, rfl, h.memmove.1, h.memmove.2.2⟩
  · have halloc : io.allocedReadbuf = true := by
      by_contra hn
      have := h.small (by simpa using hn)
      omega
    have hle := h.len_le halloc
    obtain ⟨io', he, hr, ht, -⟩ := h.alloc (n := io.readbuf.len / 2) (by omega) (by omega) (by omega)
      fun hb => by simp [h.own.mpr halloc] at hb
    exact ⟨io', he, hr, Nat.le_of_eq ht⟩
  · exact ⟨io, rfl, h.refl, Nat.le_refl _⟩

theorem leave (len : ℕ) : Relocates io (evioReadCbLeave len io) ∧
    (evioReadCbLeave len io).readbuf = io.readbuf := by
  unfold evioReadCbLeave
  split_ifs with hbig
  · rw [Bool.and_eq_true] at hbig
    exact ⟨⟨⟨h.isOpen, h.setting, h.max, h.ok, h.pos, h.front, h.loop, h.own, h.len_le,
      fun ha => by simp [hbig.1] at ha⟩, rfl, rfl, rfl, id⟩, rfl⟩
  · exact ⟨⟨⟨h.isOpen, h.setting, h.max, h.ok, h.pos, h.front, h.loop, h.own, h.len_le, fun _ => rfl⟩, rfl, rfl,
      rfl, id⟩, rfl⟩
  · exact ⟨h.refl, rfl⟩

end BufInv

theorem Relocates.trans {io₁ io₂ io₃ : Evio} (h : Relocates io₁ io₂) (h' : Relocates io₂ io₃) : Relocates io₁ io₃ :=
  ⟨h'.inv, h'.pending.trans h.pending, h'.flags.trans h.flags, h'.readUntil.trans h.readUntil, h.base ∘ h'.base⟩

structure FlagInv (io : Evio) : Prop where
  flags : io.readFlags.untilLength = true → io.readFlags.untilDelim = false
  untilLength : io.readFlags.untilLength = true → io.readbuf.pending.length < io.readUntil
  untilDelim : io.readFlags.untilDelim = true → UInt8.ofNat io.readUntil ∉ io.readbuf.pending

/-- What was handed out and what is pending make up what was received. -/
structure Handed (c : ReadCfg) : Prop where
  idle : (∃ f ∈ c.stack, f.autosize = true) → c.io.readbuf.tail = 0
  stream : (c.handed.map Prod.snd).flatten ++ c.io.readbuf.pending = c.received
  fulfilled : ∀ h ∈ c.handed, h.1.Fulfilled h.2

def Evio.WaitsApart (io : Evio) : Prop :=
  io.readFlags.untilLength = true ∨ io.readFlags.untilDelim = true → io.readbuf.base ≠ .loop

structure ReadInv (c : ReadCfg) : Prop extends Handed c where
  buf : BufInv c.io
  flag : FlagInv c.io
  apart : c.io.WaitsApart

theorem Relocates.flag {io io' : Evio} (h : Relocates io io') (hf : FlagInv io) : FlagInv io' := by
  obtain ⟨hfl, hl, hd⟩ := hf
  refine ⟨?_, ?_, ?_⟩ <;> rw [h.flags]
  · exact hfl
  · rw [h.pending, h.readUntil]
    exact hl
  · rw [h.pending, h.readUntil]
    exact hd

theorem ReadInv.relocate {c : ReadCfg} {io' : Evio} (h : ReadInv c) (hr : Relocates c.io io') :
    ReadInv { c with io := io' } := by
  refine ⟨⟨fun hf => ?_, ?_, h.fulfilled⟩, hr.inv, hr.flag h.flag, fun hw hb => ?_⟩
  · have ht := h.idle hf
    refine (hr.inv.tail_eq_zero ?_).2
    rw [hr.pending, FifoBuf.pending]
    exact slice_eq_nil (by omega)
  · rw [← h.stream]
    exact congrArg _ hr.pending
  · dsimp only at hw hb
    rw [hr.flags] at hw
    exact h.apart hw (hr.base hb)

theorem evioReadCbEnter_reads (off : ℕ) (pkg : List UInt8) {io : Evio} (h : BufInv io) (hf : FlagInv io)
    (ha : io.WaitsApart) :
    BufInv (evioReadCbEnter off pkg io) ∧ FlagInv (evioReadCbEnter off pkg io) ∧
      (evioReadCbEnter off pkg io).WaitsApart ∧ (evioReadCbEnter off pkg io).readbuf = io.readbuf := by
  obtain ⟨hfl, hl, hd⟩ := hf
  unfold evioReadCbEnter
  dsimp only
  split_ifs <;> exact ⟨⟨h.isOpen, h.setting, h.max, h.ok, h.pos, h.front, h.loop, h.own, h.len_le, h.small⟩,
    ⟨hfl, hl, hd⟩, ha, rfl⟩

theorem Handed.enter {c : ReadCfg} (h : Handed c) {io₁ : Evio} (hbuf : BufInv io₁) (hflag : FlagInv io₁)
    (hapart : io₁.WaitsApart) {req : ReadRequest} {off len : ℕ} {auto : Bool} {mem : List UInt8}
    (hauto : auto = true → io₁.readbuf.tail = 0) (hidle : c.io.readbuf.tail = 0 → io₁.readbuf.tail = 0)
    (hbytes : slice mem off (off + len) ++ io₁.readbuf.pending = c.io.readbuf.pending)
    (hreq : req.Fulfilled (slice mem off (off + len))) :
    ReadInv (ReadCfg.enter req off len auto mem { c with io := io₁ }) := by
  obtain ⟨hbuf', hflag', hapart', hsame⟩ :=
    evioReadCbEnter_reads off (slice mem off (off + len)) hbuf hflag hapart
  refine ⟨⟨?_, ?_, ?_⟩, hbuf', hflag', hapart'⟩
  · rintro ⟨f, hf, ha⟩
    change (evioReadCbEnter off (slice mem off (off + len)) io₁).readbuf.tail = 0
    rw [hsame]
    rcases List.mem_cons.mp hf with rfl | hf
    · exact hauto ha
    · exact hidle (h.idle ⟨f, hf, ha⟩)
  · change ((c.handed ++ [(req, slice mem off (off + len))]).map Prod.snd).flatten ++
      (evioReadCbEnter off (slice mem off (off + len)) io₁).readbuf.pending = c.received
    rw [← h.stream, ← hbytes, hsame]
    simp
  · intro p hp
    rcases List.mem_append.mp hp with hp | hp
    · exact h.fulfilled p hp
    · rw [List.mem_singleton.mp hp]
      exact hreq

theorem BufInv.request {io : Evio} (h : BufInv io) (evRead : Bool) (flags : ReadFlags) (n : ℕ) :
    BufInv { io with evRead := evRead, readFlags := flags, readUntil := n } :=
  ⟨h.isOpen, h.setting, h.max, h.ok, h.pos, h.front, h.loop, h.own, h.len_le, h.small⟩

theorem FifoBuf.consume_base (n : ℕ) (b : FifoBuf) : (b.consume n).base = b.base := by
  unfold FifoBuf.consume
  split_ifs <;> rfl

theorem BufInv.consume {io : Evio} (h : BufInv io) {n : ℕ} (hn : n ≤ io.readbuf.pending.length) :
    BufInv { io with readbuf := io.readbuf.consume n } ∧
      (io.readbuf.consume n).pending = io.readbuf.pending.drop n ∧
      (io.readbuf.tail = 0 ∨ n = io.readbuf.pending.length → (io.readbuf.consume n).tail = 0) := by
  have hlp := h.length_pending
  obtain ⟨hmem, hhead, htail⟩ := h.ok
  unfold FifoBuf.consume
  split_ifs with heq
  · refine ⟨⟨h.isOpen, h.setting, h.max, ⟨hmem, Nat.le_refl _, Nat.zero_le _⟩, h.pos, fun _ => rfl, fun _ => rfl, h.own,
      h.len_le, h.small⟩, ?_, fun _ => rfl⟩
    rw [List.drop_of_length_le (by omega)]
    exact slice_self _ _
  · refine ⟨⟨h.isOpen, h.setting, h.max, ⟨hmem, ?_, htail⟩, h.pos, fun he => absurd he heq, h.loop, h.own, h.len_le,
      h.small⟩, ?_, fun h0 => ?_⟩
    · dsimp only
      omega
    · rw [FifoBuf.pending, FifoBuf.pending, drop_slice]
    · dsimp only
      omega

theorem FlagInv.drop {io io' : Evio} (h : FlagInv io) {n : ℕ} (hf : io'.readFlags = io.readFlags)
    (hu : io'.readUntil = io.readUntil) (hp : io'.readbuf.pending = io.readbuf.pending.drop n) : FlagInv io' := by
  obtain ⟨hfl, hl, hd⟩ := h
  refine ⟨?_, ?_, ?_⟩ <;> rw [hf]
  · exact hfl
  · intro h1
    have := hl h1
    rw [hp, hu, List.length_drop]
    omega
  · intro h1 hmem
    rw [hp, hu] at hmem
    exact hd h1 (List.mem_of_mem_drop hmem)

section
variable {c : ReadCfg} (h : ReadInv c)
include h

theorem ReadInv.setEvRead : ReadInv { c with io := { c.io with evRead := true } } :=
  h.relocate ⟨h.buf.request true _ _, rfl, rfl, rfl, id⟩

theorem ReadInv.read : ReadInv (evioRead c) := by
  have h' := h.setEvRead
  unfold evioRead
  rw [if_neg (by simp [h.buf.isOpen])]
  dsimp only
  split_ifs with hp
  · obtain ⟨hlt, -, hfl⟩ := hp
    unfold evioReadRemain
    rw [if_pos hlt]
    have hb := h'.buf
    have hbuf : BufInv { c.io with evRead := true, readbuf := { c.io.readbuf with head := 0, tail := 0 } } :=
      ⟨hb.isOpen, hb.setting, hb.max, ⟨hb.ok.mem_length, Nat.le_refl _, Nat.zero_le _⟩, hb.pos, fun _ => rfl,
        fun _ => rfl, hb.own, hb.len_le, hb.small⟩
    have hflag : FlagInv { c.io with evRead := true, readbuf := { c.io.readbuf with head := 0, tail := 0 } } := by
      have hfl' : c.io.readFlags = .none := hfl
      refine ⟨?_, ?_, ?_⟩ <;> intro ht <;> simp [hfl', ReadFlags.none] at ht
    refine h'.toHanded.enter hbuf hflag h.apart (fun _ => rfl) (fun _ => rfl) ?_ trivial
    rw [Nat.add_sub_cancel' (Nat.le_of_lt hlt)]
    change slice c.io.readbuf.mem c.io.readbuf.head c.io.readbuf.tail ++ slice c.io.readbuf.mem 0 0 = _
    rw [slice_self, List.append_nil]
    rfl
  · exact h'

theorem ReadInv.readOnce : ReadInv (evioReadOnce c) := by
  have h' : ReadInv { c with io := { c.io with readFlags := { c.io.readFlags with once := true } } } :=
    ⟨⟨h.idle, h.stream, h.fulfilled⟩, h.buf.request _ _ _, ⟨h.flag.flags, h.flag.untilLength, h.flag.untilDelim⟩, h.apart⟩
  exact h'.read

theorem ReadInv.request {io₁ io₂ : Evio} (hflag : FlagInv io₁)
    (hp : io₁.readbuf.pending = c.io.readbuf.pending) (hr : Relocates io₁ io₂)
    (hb : io₂.readbuf.base ≠ .loop) : ReadInv (evioReadOnce { c with io := io₂ }) := by
  have h₂ : ReadInv { c with io := io₂ } := by
    refine ⟨⟨fun hf => ?_, ?_, h.fulfilled⟩, hr.inv, hr.flag hflag, fun _ => hb⟩
    · refine (hr.inv.tail_eq_zero ?_).2
      rw [hr.pending, hp]
      exact slice_eq_nil (by have := h.idle hf; omega)
    · rw [← h.stream]
      exact congrArg _ (hr.pending.trans hp)
  exact h₂.readOnce

end

/-- Where `evio_read_until_length` puts the pending bytes before it waits for more. -/
def FifoBuf.waitHead (b : FifoBuf) : ℕ := if 1024 < b.head ∨ b.size < 1024 then 0 else b.head

theorem BufInv.waitUntilLength {io : Evio} (h : BufInv io) {n : ℕ} (hn : io.readbuf.pending.length < n) :
    FlagInv (waitUntilLength n io) ∧ BufInv (waitUntilLength n io) ∧
      (waitUntilLength n io).readbuf.pending = io.readbuf.pending ∧
      (waitUntilLength n io).readbuf.head = io.readbuf.waitHead ∧
      (waitUntilLength n io).readbuf.len = io.readbuf.len ∧
      (waitUntilLength n io).readbuf.base = io.readbuf.base := by
  have h₁ : BufInv { io with readFlags := { ReadFlags.none with untilLength := true }, readUntil := n } :=
    h.request _ _ _
  have hf₁ : FlagInv { io with readFlags := { ReadFlags.none with untilLength := true }, readUntil := n } :=
    ⟨fun _ => rfl, fun _ => hn, fun hd => by cases hd⟩
  unfold Event.waitUntilLength FifoBuf.waitHead
  dsimp only
  split_ifs
  · obtain ⟨hr, h0, -⟩ := h₁.memmove
    refine ⟨hr.flag hf₁, hr.inv, hr.pending, h0, ?_, ?_⟩ <;>
      unfold evioMemmoveReadbuf <;> dsimp only <;> split_ifs <;> rfl
  · exact ⟨hf₁, h₁, rfl, rfl, rfl, rfl⟩

theorem BufInv.prepare {io io' : Evio} (h : BufInv io) {n : ℕ} (hn : io.readbuf.pending.length < n)
    (hlim : io.readbuf.base = .loop ∨ io.readbuf.len < io.readbuf.head + n →
      io.readbuf.head + n ≤ io.maxReadBufsize)
    (huser : io.readbuf.base = .user → io.readbuf.pending ≠ [] → io.readbuf.head + n ≤ io.readbuf.len)
    (hstep : prepareReadbuf n io = some io') : Relocates io io' ∧ io'.readbuf.base ≠ .loop := by
  have hlp := h.length_pending
  have hle := h.ok.head_le
  have h24 : io.maxReadBufsize = 2 ^ 24 := h.max
  unfold prepareReadbuf at hstep
  dsimp only at hstep
  rw [show (io.readbuf.head : ℤ) + n = ((io.readbuf.head + n : ℕ) : ℤ) by omega] at hstep
  have hloop : evioIsLoopReadbuf io = true ↔ io.readbuf.base = .loop := by simp [evioIsLoopReadbuf]
  by_cases hgrow : io.readbuf.base = .loop ∨ io.readbuf.len < io.readbuf.head + n
  · have hmax := hlim hgrow
    obtain ⟨io'', he, hr, -, hown⟩ := h.alloc (n := io.readbuf.head + n) (by omega) hmax (by omega) fun hb => by
      by_contra hne
      have := huser hb hne
      rw [hb] at hgrow
      simp at hgrow
      omega
    rw [cInt_of_lt (by omega)] at hstep he
    rw [if_pos (hgrow.imp hloop.mpr fun hlt => .inr (by rwa [Int.toNat_natCast])), he] at hstep
    cases hstep
    exact ⟨hr, by rw [hown]; decide⟩
  · push Not at hgrow
    obtain ⟨hneg, hpos⟩ := cInt_bounds (io.readbuf.head + n)
    split_ifs at hstep with hc
    · -- only a buffer of the application can be that long, and the size is refused
      have hlt : cInt ((io.readbuf.head + n : ℕ) : ℤ) < 0 := by
        rcases hc with hc | hc | hc
        · exact absurd (hloop.mp hc) hgrow.1
        · exact hc
        · omega
      have := hneg hlt
      rw [evioAllocReadbuf, if_pos (by omega)] at hstep
      cases hstep
      exact ⟨⟨⟨h.isOpen, h.setting, h.max, h.ok, h.pos, h.front, h.loop, h.own, h.len_le, h.small⟩, rfl, rfl, rfl, id⟩,
        hgrow.1⟩
    · cases hstep
      exact ⟨h.refl, hgrow.1⟩

theorem ReadInv.readUntilLength {c c' : ReadCfg} (h : ReadInv c) {n : ℕ}
    (hlim : c.io.readbuf.size < n →
      c.io.readbuf.base = .loop ∨ c.io.readbuf.len < c.io.readbuf.waitHead + n →
      c.io.readbuf.waitHead + n ≤ c.io.maxReadBufsize)
    (huser : c.io.readbuf.size < n → c.io.readbuf.base = .user → c.io.readbuf.head ≠ c.io.readbuf.tail →
      c.io.readbuf.waitHead + n ≤ c.io.readbuf.len)
    (hstep : evioReadUntilLength n c = some c') : ReadInv c' := by
  have hsize := h.buf.size_eq
  unfold evioReadUntilLength at hstep
  dsimp only at hstep
  split_ifs at hstep with h0 himm
  · cases hstep
    exact h
  · cases hstep
    -- enough bytes are buffered
    rw [hsize] at himm
    obtain ⟨hbuf, hpend, htail⟩ := h.buf.consume himm
    have hflag : FlagInv { c.io with readbuf := c.io.readbuf.consume n } := h.flag.drop rfl rfl hpend
    have htake := h.buf.slice_head himm
    refine h.toHanded.enter hbuf hflag ?_ (fun ha => by cases ha) (fun ht => htail (.inl ht)) ?_ ?_
    · intro hw hb
      exact h.apart hw (FifoBuf.consume_base n _ ▸ hb)
    · rw [htake]
      exact (congrArg _ hpend).trans (List.take_append_drop _ _)
    · rw [htake]
      exact List.length_take_of_le himm
  · obtain ⟨io', hio, rfl⟩ := Option.map_eq_some_iff.mp hstep
    -- the buffer is made to hold `n` bytes from `head` on
    have hlt : c.io.readbuf.size < n := by omega
    have hn : c.io.readbuf.pending.length < n := by omega
    obtain ⟨hflag, hbuf, hpend, hhead, hlen, hbase⟩ := h.buf.waitUntilLength hn
    have hmax : (waitUntilLength n c.io).maxReadBufsize = c.io.maxReadBufsize := hbuf.max.trans h.buf.max.symm
    have hr : Relocates (waitUntilLength n c.io) io' ∧ io'.readbuf.base ≠ .loop := by
      refine hbuf.prepare (by rw [hpend]; omega) ?_ ?_ hio <;> rw [hbase, hhead, hlen]
      · rw [hmax]
        exact hlim hlt
      · intro hu hne
        refine huser hlt hu fun heq => hne ?_
        rw [hpend]
        exact slice_eq_nil (Nat.le_of_eq heq.symm)
    exact h.request hflag hpend hr.1 hr.2

theorem ReadRequest.fulfilled_untilDelim {d : UInt8} {l : List UInt8} (hd : d ∈ l) :
    (ReadRequest.untilDelim d).Fulfilled (l.take (l.idxOf d + 1)) := by
  have hlt := List.idxOf_lt_length_iff.mpr hd
  refine ⟨l.take (l.idxOf d), ?_, fun hm => ?_⟩
  · rw [← List.take_append_getElem hlt, List.getElem_idxOf]
  · exact absurd ((List.mem_take_iff_idxOf_lt hd).mp hm) (Nat.lt_irrefl _)

theorem Handed.enter_untilDelim {c : ReadCfg} (h : Handed c) (hbuf : BufInv c.io) {d : UInt8}
    (hd : d ∈ c.io.readbuf.pending) (flags : ReadFlags)
    (hflag : FlagInv { c.io with
      readFlags := flags, readbuf := c.io.readbuf.consume (c.io.readbuf.pending.idxOf d + 1) })
    (hapart : flags.untilLength = true ∨ flags.untilDelim = true → c.io.readbuf.base ≠ .loop) :
    ReadInv (ReadCfg.enter (.untilDelim d) c.io.readbuf.head (c.io.readbuf.pending.idxOf d + 1) false
      c.io.readbuf.mem
      { c with io := { c.io with
          readFlags := flags, readbuf := c.io.readbuf.consume (c.io.readbuf.pending.idxOf d + 1) } }) := by
  have hle : c.io.readbuf.pending.idxOf d + 1 ≤ c.io.readbuf.pending.length := List.idxOf_lt_length_iff.mpr hd
  obtain ⟨hbuf', hpend, htail⟩ := hbuf.consume hle
  have htake := hbuf.slice_head hle
  refine h.enter (hbuf'.request _ flags _) hflag ?_ (fun ha => by cases ha) (fun ht => htail (.inl ht)) ?_ ?_
  · intro hw hb
    exact hapart hw (FifoBuf.consume_base _ _ ▸ hb)
  · rw [htake]
    exact (congrArg _ hpend).trans (List.take_append_drop _ _)
  · rw [htake]
    exact ReadRequest.fulfilled_untilDelim hd

theorem BufInv.waitUntilDelim {io io' : Evio} (h : BufInv io) {d : UInt8} (hd : d ∉ io.readbuf.pending)
    (huser : io.readbuf.base = .user → io.readbuf.pending = [] ∨ evloopReadBufsize ≤ io.readbuf.len)
    (hstep : waitUntilDelim d io = some io') :
    ∃ io₁, FlagInv io₁ ∧ io₁.readbuf.pending = io.readbuf.pending ∧ Relocates io₁ io' ∧
      io'.readbuf.base ≠ .loop := by
  have h₁ : BufInv { io with readFlags := { ReadFlags.none with untilDelim := true }, readUntil := d.toNat } :=
    h.request _ _ _
  have hf₁ : FlagInv { io with readFlags := { ReadFlags.none with untilDelim := true }, readUntil := d.toNat } := by
    refine ⟨fun hl => (by cases hl), fun hl => (by cases hl), fun _ => ?_⟩
    change UInt8.ofNat d.toNat ∉ _
    rwa [UInt8.ofNat_toNat]
  refine ⟨_, hf₁, rfl, ?_⟩
  unfold Event.waitUntilDelim at hstep
  dsimp only at hstep
  split_ifs at hstep with hgrow
  · have hloop := h.loop
    have htl := h.ok.tail_le
    have h13 : evloopReadBufsize = 2 ^ 13 := rfl
    have h24 : io.maxReadBufsize = 2 ^ 24 := h.max
    simp only [evioIsLoopReadbuf, decide_eq_true_eq] at hgrow
    have hle : io.readbuf.tail ≤ evloopReadBufsize := by
      rcases hgrow with hl | hl
      · rw [hloop hl]
        exact Nat.zero_le _
      · omega
    obtain ⟨io₂, he, hr, -, hown⟩ := h₁.alloc (n := evloopReadBufsize) (by omega) (by dsimp only; omega) hle
      fun hb => by
        have hu : io.readbuf.base = .user := hb
        rw [hu] at hgrow
        simp at hgrow
        exact (huser hb).resolve_right (by omega)
    rw [cInt_of_lt (by omega), hstep] at he
    cases he
    exact ⟨hr, by rw [hown]; decide⟩
  · cases hstep
    exact ⟨h₁.refl, fun hb => hgrow (.inl (by simpa [evioIsLoopReadbuf] using hb))⟩

theorem ReadInv.readUntilDelim {c c' : ReadCfg} (h : ReadInv c) {d : UInt8}
    (hbehind : c.io.readbuf.head ≠ c.io.readbuf.tail → d ∉ c.io.readbuf.pending →
      c.io.readbuf.mem[c.io.readbuf.tail]? ≠ some d)
    (huser : c.io.readbuf.head ≠ c.io.readbuf.tail → d ∉ c.io.readbuf.pending → c.io.readbuf.base = .user →
      evloopReadBufsize ≤ c.io.readbuf.len)
    (hstep : evioReadUntilDelim d c = some c') : ReadInv c' := by
  have hhead := h.buf.ok.head_le
  have hmem := h.buf.ok.mem_length
  have htl := h.buf.ok.tail_le
  have hwin : slice c.io.readbuf.mem c.io.readbuf.head (c.io.readbuf.tail + 1) =
      c.io.readbuf.pending ++ slice c.io.readbuf.mem c.io.readbuf.tail (c.io.readbuf.tail + 1) :=
    (slice_append_slice hhead (Nat.le_succ _)).symm
  unfold evioReadUntilDelim at hstep
  dsimp only at hstep
  split_ifs at hstep with hfound
  · cases hstep
    obtain ⟨hne, hm⟩ := hfound
    have hd : d ∈ c.io.readbuf.pending := by
      by_contra hnd
      rw [hwin, List.mem_append] at hm
      exact hbehind hne hnd (mem_slice_succ.mp (hm.resolve_left hnd))
    rw [hwin, List.idxOf_append_of_mem hd]
    have hle : c.io.readbuf.pending.idxOf d + 1 ≤ c.io.readbuf.pending.length := List.idxOf_lt_length_iff.mpr hd
    exact h.toHanded.enter_untilDelim h.buf hd c.io.readFlags
      (h.flag.drop rfl rfl (h.buf.consume hle).2.1) h.apart
  · obtain ⟨io', hio, rfl⟩ := Option.map_eq_some_iff.mp hstep
    have hnd : d ∉ c.io.readbuf.pending := by
      intro hd
      refine hfound ⟨fun heq => ?_, hwin ▸ List.mem_append_left _ hd⟩
      rw [FifoBuf.pending, heq, slice_self] at hd
      cases hd
    have hroom : c.io.readbuf.base = .user →
        c.io.readbuf.pending = [] ∨ evloopReadBufsize ≤ c.io.readbuf.len := by
      intro hu
      by_cases heq : c.io.readbuf.head = c.io.readbuf.tail
      · exact .inl (slice_eq_nil (Nat.le_of_eq heq.symm))
      · exact .inr (huser heq hnd hu)
    obtain ⟨io₁, hflag, hpend, hr, hb⟩ := h.buf.waitUntilDelim hnd hroom hio
    exact h.request hflag hpend hr hb

/-! ## What the socket delivers -/

/-- With `bytes` the request that is waited for can be answered. -/
def Evio.Completes (io : Evio) (bytes : List UInt8) : Prop :=
  (io.readFlags.untilLength = true → io.readUntil ≤ io.readbuf.pending.length + bytes.length) ∧
    (io.readFlags.untilDelim = true → UInt8.ofNat io.readUntil ∈ bytes)

/-- `bytes` reach the end of the buffer, whose front is taken. -/
def FifoBuf.FilledBy (b : FifoBuf) (bytes : List UInt8) : Prop := b.head = 0 ∧ b.tail + bytes.length = b.len

theorem BufInv.pending_store {io : Evio} (h : BufInv io) (bytes : List UInt8) :
    (nioReadStore bytes io).readbuf.pending = io.readbuf.pending ++ bytes :=
  slice_store_append _ _ h.ok.head_le (by rw [h.ok.mem_length]; exact h.ok.tail_le)

theorem BufInv.store {io : Evio} (h : BufInv io) {bytes : List UInt8}
    (hfit : io.readbuf.tail + bytes.length ≤ io.readbuf.len) (hb : bytes ≠ []) (hbase : io.readbuf.base ≠ .loop) :
    BufInv (nioReadStore bytes io) := by
  obtain ⟨hmem, hhead, htail⟩ := h.ok
  have hpos := List.length_pos_iff.mpr hb
  refine ⟨h.isOpen, h.setting, h.max, ⟨?_, ?_, hfit⟩, h.pos, ?_, fun hl => absurd hl hbase, h.own, h.len_le, h.small⟩
  · exact (length_store (by omega)).trans hmem
  · exact Nat.le_trans hhead (Nat.le_add_right _ _)
  · intro heq
    change io.readbuf.head = io.readbuf.tail + bytes.length at heq
    omega

theorem nioReadLen_untilLength {io : Evio} (h : BufInv io) (hl : io.readFlags.untilLength = true)
    (hlt : io.readbuf.pending.length < io.readUntil) {n : ℕ} (hn : (n : ℤ) ≤ nioReadLen io) :
    io.readbuf.pending.length + n ≤ io.readUntil := by
  have hlp := h.length_pending
  have hhead := h.ok.head_le
  rw [nioReadLen, if_pos hl, show (io.readUntil : ℤ) - ((io.readbuf.tail : ℤ) - io.readbuf.head) =
    ((io.readUntil - io.readbuf.pending.length : ℕ) : ℤ) by omega] at hn
  have := (cInt_bounds (io.readUntil - io.readbuf.pending.length)).2 (by omega)
  omega

section
variable {c c' : ReadCfg} (h : ReadInv c) {bytes : List UInt8}
  (hfit : c.io.readbuf.tail + bytes.length ≤ c.io.readbuf.len)
include h hfit

omit hfit in
theorem ReadInv.handed_store (hstack : c.stack = []) :
    Handed { c with io := nioReadStore bytes c.io, received := c.received ++ bytes } := by
  refine ⟨?_, ?_, h.fulfilled⟩
  · rintro ⟨f, hf, -⟩
    rw [hstack] at hf
    cases hf
  · change (c.handed.map Prod.snd).flatten ++ (nioReadStore bytes c.io).readbuf.pending = c.received ++ bytes
    rw [h.buf.pending_store, ← List.append_assoc, h.stream]

theorem ReadInv.recv_waits (hstack : c.stack = []) (hb : bytes ≠ []) (hbase : c.io.readbuf.base ≠ .loop)
    (hflag : FlagInv (nioReadStore bytes c.io)) (hroom : c.io.readbuf.FilledBy bytes →
      c.io.readbuf.base ≠ .user ∧ c.io.readbuf.len * 2 ≤ c.io.maxReadBufsize)
    (hstep : (evioAutosizeReadbuf (nioReadStore bytes c.io)).map (fun io =>
      { c with io := io, received := c.received ++ bytes }) = some c') : ReadInv c' := by
  have hbuf := h.buf.store hfit hb hbase
  obtain ⟨io', hio, hr, -⟩ := hbuf.autosize (fun hu h0 hfull => (hroom ⟨h0, hfull⟩).1 hu)
    fun h0 hfull => (hroom ⟨h0, hfull⟩).2
  rw [hio] at hstep
  cases hstep
  have h₁ : ReadInv { c with io := nioReadStore bytes c.io, received := c.received ++ bytes } :=
    ⟨h.handed_store hstack, hbuf, hflag, fun _ => hbase⟩
  exact h₁.relocate hr

theorem ReadInv.recv_untilLength (hstack : c.stack = []) (hb : bytes ≠ []) (hl : c.io.readFlags.untilLength = true)
    (hn : c.io.readUntil = (nioReadStore bytes c.io).readbuf.pending.length) :
    ReadInv (ReadCfg.enter (.untilLength c.io.readUntil) c.io.readbuf.head c.io.readUntil true
      (nioReadStore bytes c.io).readbuf.mem
      { c with
        io := { nioReadStore bytes c.io with
          readbuf := (nioReadStore bytes c.io).readbuf.consume c.io.readUntil
          readFlags := { c.io.readFlags with untilLength := false } }
        received := c.received ++ bytes }) := by
  have hbuf := h.buf.store hfit hb (h.apart (.inl hl))
  have hd := h.flag.flags hl
  obtain ⟨hbuf', hpend', htail⟩ := hbuf.consume (Nat.le_of_eq hn)
  have htake := hbuf.slice_head (Nat.le_of_eq hn)
  have hh : Handed { c with io := nioReadStore bytes c.io, received := c.received ++ bytes } := h.handed_store hstack
  refine hh.enter (hbuf'.request _ { c.io.readFlags with untilLength := false } _) ?_ ?_ (fun _ => htail (.inr hn))
    (fun _ => htail (.inr hn)) ?_ ?_
  · exact ⟨fun hf => (by cases hf), fun hf => (by cases hf), fun hf => by simp [hd] at hf⟩
  · rintro (hf | hf)
    · cases hf
    · simp [hd] at hf
  · refine (congrArg _ hpend').trans ?_
    exact (congrArg (· ++ _) htake).trans (List.take_append_drop _ _)
  · change (slice _ _ _).length = _
    exact (congrArg List.length htake).trans (List.length_take_of_le (Nat.le_of_eq hn))

theorem ReadInv.recv_untilDelim (hstack : c.stack = []) (hb : bytes ≠ [])
    (hl : c.io.readFlags.untilLength = false) (hd : c.io.readFlags.untilDelim = true)
    (hm : UInt8.ofNat c.io.readUntil ∈ bytes) {len : ℕ}
    (hlen : len = c.io.readbuf.tail + bytes.idxOf (UInt8.ofNat c.io.readUntil) - c.io.readbuf.head + 1) :
    ReadInv (ReadCfg.enter (.untilDelim (UInt8.ofNat c.io.readUntil)) c.io.readbuf.head len false
      (nioReadStore bytes c.io).readbuf.mem
      { c with
        io := { nioReadStore bytes c.io with
          readbuf := (nioReadStore bytes c.io).readbuf.consume len
          readFlags := { c.io.readFlags with untilDelim := false } }
        received := c.received ++ bytes }) := by
  have hbuf := h.buf.store hfit hb (h.apart (.inr hd))
  have hpend := h.buf.pending_store bytes
  have hlp := h.buf.length_pending
  have hhead := h.buf.ok.head_le
  have hlen' : len = (nioReadStore bytes c.io).readbuf.pending.idxOf (UInt8.ofNat c.io.readUntil) + 1 := by
    rw [hpend, List.idxOf_append_of_notMem (h.flag.untilDelim hd)]
    omega
  have hh : Handed { c with io := nioReadStore bytes c.io, received := c.received ++ bytes } := h.handed_store hstack
  subst hlen'
  refine hh.enter_untilDelim hbuf (d := UInt8.ofNat c.io.readUntil) ?_ { c.io.readFlags with untilDelim := false } ?_ ?_
  · change _ ∈ (nioReadStore bytes c.io).readbuf.pending
    rw [hpend]
    exact List.mem_append_right _ hm
  · exact ⟨fun _ => rfl, fun hf => by simp [hl] at hf, fun hf => by cases hf⟩
  · exact fun _ => h.apart (.inr hd)

theorem ReadInv.recv_plain (hstack : c.stack = []) (hl : c.io.readFlags.untilLength = false)
    (hd : c.io.readFlags.untilDelim = false) :
    ReadInv (ReadCfg.enter .plain c.io.readbuf.head (c.io.readbuf.tail + bytes.length - c.io.readbuf.head) true
      (nioReadStore bytes c.io).readbuf.mem
      { c with
        io := { nioReadStore bytes c.io with
          readbuf := { (nioReadStore bytes c.io).readbuf with head := 0, tail := 0 } }
        received := c.received ++ bytes }) := by
  have hmem := h.buf.ok.mem_length
  have hhead := h.buf.ok.head_le
  have hh : Handed { c with io := nioReadStore bytes c.io, received := c.received ++ bytes } := h.handed_store hstack
  refine hh.enter ?_ ?_ ?_ (fun _ => rfl) (fun _ => rfl) ?_ trivial
  · refine ⟨h.buf.isOpen, h.buf.setting, h.buf.max, ⟨?_, Nat.le_refl _, Nat.zero_le _⟩, h.buf.pos, fun _ => rfl,
      fun _ => rfl, h.buf.own, h.buf.len_le, h.buf.small⟩
    exact (length_store (by omega)).trans hmem
  · exact ⟨fun hf => absurd hf (by simp [nioReadStore, hl]), fun hf => absurd hf (by simp [nioReadStore, hl]),
      fun hf => absurd hf (by simp [nioReadStore, hd])⟩
  · exact fun hf => absurd hf (by simp [nioReadStore, hl, hd])
  · rw [Nat.add_sub_cancel' (by omega)]
    change _ ++ slice _ 0 0 = slice _ _ _
    rw [slice_self, List.append_nil]
    rfl

theorem ReadInv.recv (hstack : c.stack = []) (hb : bytes ≠ []) (hlen : (bytes.length : ℤ) ≤ nioReadLen c.io)
    (hroom : c.io.readbuf.FilledBy bytes → ¬c.io.Completes bytes →
      c.io.readbuf.base ≠ .user ∧ c.io.readbuf.len * 2 ≤ c.io.maxReadBufsize)
    (hstep : evioHandleRead c.io.readbuf.tail
      { c with io := nioReadStore bytes c.io, received := c.received ++ bytes } = some c') : ReadInv c' := by
  have hpend := h.buf.pending_store bytes
  have hlp := h.buf.length_pending
  have hhead := h.buf.ok.head_le
  have hnew : slice (nioReadStore bytes c.io).readbuf.mem c.io.readbuf.tail
      (nioReadStore bytes c.io).readbuf.tail = bytes := by
    refine (slice_store_append _ _ (Nat.le_refl _) (by rw [h.buf.ok.mem_length]; exact h.buf.ok.tail_le)).trans ?_
    rw [slice_self, List.nil_append]
  have hsize : ((nioReadStore bytes c.io).readbuf.tail : ℤ) - (nioReadStore bytes c.io).readbuf.head =
      (c.io.readbuf.pending.length + bytes.length : ℕ) := by
    change ((c.io.readbuf.tail + bytes.length : ℕ) : ℤ) - c.io.readbuf.head = _
    omega
  obtain ⟨hex, hfl, hfd⟩ := h.flag
  unfold evioHandleRead at hstep
  dsimp only at hstep
  rw [show (nioReadStore bytes c.io).readFlags = c.io.readFlags from rfl,
    show (nioReadStore bytes c.io).readUntil = c.io.readUntil from rfl, hnew, hsize] at hstep
  -- a request by length or by delimiter, complete or not, or none
  split_ifs at hstep with hl hdone hd hfound
  · cases hstep
    have hle := nioReadLen_untilLength h.buf hl (hfl hl) hlen
    exact h.recv_untilLength hfit hstack hb hl (by rw [hpend, List.length_append]; omega)
  · refine h.recv_waits hfit hstack hb (h.apart (.inl hl)) ⟨hex, ?_, ?_⟩ (fun hf => hroom hf fun hc => ?_) hstep
    · intro _
      change (nioReadStore bytes c.io).readbuf.pending.length < c.io.readUntil
      rw [hpend, List.length_append]
      omega
    · intro hd
      simp [nioReadStore, hex hl] at hd
    · have := hc.1 hl
      omega
  · cases hstep
    exact h.recv_untilDelim hfit hstack hb (by simpa using hl) hd hfound rfl
  · refine h.recv_waits hfit hstack hb (h.apart (.inr hd)) ⟨hex, fun hl' => absurd hl' hl, ?_⟩
      (fun hf => hroom hf fun hc => hfound (hc.2 hd)) hstep
    -- neither the old bytes nor the new ones hold the delimiter
    intro _ hm
    rw [hpend, List.mem_append] at hm
    exact hm.elim (hfd hd) hfound
  · cases hstep
    exact h.recv_plain hfit hstack (by simpa using hl) (by simpa using hd)

end

theorem ReadInv.cbReturn {c c' : ReadCfg} (h : ReadInv c) (hstep : readStep c .cbReturn = some c') : ReadInv c' := by
  unfold readStep at hstep
  dsimp only at hstep
  split at hstep
  · cases hstep
  next f stack hs =>
    obtain ⟨hr, hsame⟩ := h.buf.leave f.len
    have hpop : ∀ {io'}, Relocates c.io io' → ReadInv { c with io := io', stack := stack } := fun hr' =>
      have h' := h.relocate hr'
      { h' with idle := fun ⟨g, hg, ha⟩ => h'.idle ⟨g, by rw [hs]; exact List.mem_cons_of_mem _ hg, ha⟩ }
    obtain ⟨io', hio, rfl⟩ := Option.map_eq_some_iff.mp hstep
    split_ifs at hio with hauto
    · have h0 : (evioReadCbLeave f.len c.io).readbuf.tail = 0 := by
        rw [hsame]
        exact h.idle ⟨f, by rw [hs]; exact List.mem_cons_self, hauto⟩
      have hpos := hr.inv.pos
      obtain ⟨io'', he, hr', -⟩ := hr.inv.autosize (fun _ _ => by omega) (fun _ _ => by omega)
      rw [hio] at he
      cases he
      exact hpop (hr.trans hr')
    · cases hio
      exact hpop hr

/-! ## Runs -/

/-- The buffer does not have to grow past `max_read_bufsize`. -/
def ReadCfg.InLimit (c : ReadCfg) : ReadAct → Prop
  | .readUntilLength n => c.io.readbuf.size < n →
      c.io.readbuf.base = .loop ∨ c.io.readbuf.len < c.io.readbuf.waitHead + n →
      c.io.readbuf.waitHead + n ≤ c.io.maxReadBufsize
  | .recv bytes => c.io.readbuf.FilledBy bytes → ¬c.io.Completes bytes →
      c.io.readbuf.len * 2 ≤ c.io.maxReadBufsize
  | _ => True

/-- A buffer of the application that holds bytes is not replaced, no delimiter is looked for in front
of a stale one, and what is read fits. -/
def ReadCfg.Safe (c : ReadCfg) : ReadAct → Prop
  | .readUntilLength n => c.io.readbuf.size < n → c.io.readbuf.base = .user →
      c.io.readbuf.head ≠ c.io.readbuf.tail → c.io.readbuf.waitHead + n ≤ c.io.readbuf.len
  | .readUntilDelim d => c.io.readbuf.head ≠ c.io.readbuf.tail → d ∉ c.io.readbuf.pending →
      c.io.readbuf.tail < c.io.readbuf.len ∧ c.io.readbuf.mem[c.io.readbuf.tail]? ≠ some d ∧
        (c.io.readbuf.base = .user → evloopReadBufsize ≤ c.io.readbuf.len)
  | .recv bytes => c.io.readbuf.tail + bytes.length ≤ c.io.readbuf.len ∧
      (c.io.readbuf.base = .user → c.io.readbuf.FilledBy bytes → c.io.Completes bytes)
  | _ => True

instance (io : Evio) (bytes : List UInt8) : Decidable (io.Completes bytes) :=
  inferInstanceAs (Decidable ((_ → _) ∧ (_ → _)))

instance (b : FifoBuf) (bytes : List UInt8) : Decidable (b.FilledBy bytes) :=
  inferInstanceAs (Decidable (_ ∧ _))

instance (c : ReadCfg) : (a : ReadAct) → Decidable (c.InLimit a)
  | .readUntilLength _ => inferInstanceAs (Decidable (_ → _ ∨ _ → _))
  | .recv _ => inferInstanceAs (Decidable (_ → ¬_ → _))
  | .readUntilDelim _ | .readOnce | .read | .cbReturn => inferInstanceAs (Decidable True)

instance (c : ReadCfg) : (a : ReadAct) → Decidable (c.Safe a)
  | .readUntilLength _ => inferInstanceAs (Decidable (_ → _ → _ → _))
  | .readUntilDelim _ => inferInstanceAs (Decidable (_ → ¬_ → _ ∧ ¬_ ∧ (_ → _)))
  | .recv _ => inferInstanceAs (Decidable (_ ∧ (_ → _ → _)))
  | .readOnce | .read | .cbReturn => inferInstanceAs (Decidable True)

theorem ReadInv.step {c c' : ReadCfg} (h : ReadInv c) {a : ReadAct} (hlim : c.InLimit a) (hsafe : c.Safe a)
    (hstep : readStep c a = some c') : ReadInv c' := by
  cases a with
  | recv bytes =>
    simp only [readStep] at hstep
    split_ifs at hstep with hen
    obtain ⟨hstack, -, hb, hlen⟩ := hen
    refine h.recv hsafe.1 hstack hb hlen (fun hf hc => ⟨fun hu => hc (hsafe.2 hu hf), hlim hf hc⟩) hstep
  | readUntilLength n =>
    simp only [readStep] at hstep
    split_ifs at hstep
    exact h.readUntilLength hlim hsafe hstep
  | readUntilDelim d =>
    exact h.readUntilDelim (fun hne hd => (hsafe hne hd).2.1) (fun hne hd => (hsafe hne hd).2.2) hstep
  | readOnce =>
    cases hstep
    exact h.readOnce
  | read =>
    cases hstep
    exact h.read
  | cbReturn => exact h.cbReturn hstep

theorem ReadInv.start {buf : Option (List UInt8)} (hbuf : buf ≠ some []) : ReadInv (ReadCfg.start buf) := by
  have hflag : ∀ {io : Evio}, io.readFlags = .none → FlagInv io := fun hf => by
    refine ⟨?_, ?_, ?_⟩ <;> intro h <;> simp [hf, ReadFlags.none] at h
  have hapart : ∀ {io : Evio}, io.readFlags = .none → io.WaitsApart := fun hf h => by
    simp [hf, ReadFlags.none] at h
  cases buf with
  | none =>
    refine ⟨⟨fun _ => rfl, rfl, fun p hp => by cases hp⟩, ⟨rfl, rfl, rfl, ⟨?_, Nat.le_refl _, Nat.zero_le _⟩, ?_, fun _ => rfl,
      fun _ => rfl, ?_, ?_, fun _ => rfl⟩, hflag rfl, hapart rfl⟩
    · rfl
    · change 0 < (List.replicate evloopReadBufsize (0 : UInt8)).length
      rw [List.length_replicate]
      decide
    · exact ⟨fun hb => (by cases hb), fun hb => (by cases hb)⟩
    · intro hb
      cases hb
  | some buf =>
    refine ⟨⟨fun _ => rfl, ?_, fun p hp => by cases hp⟩, ⟨rfl, rfl, rfl, ⟨rfl, Nat.le_refl _, Nat.zero_le _⟩, ?_, fun _ => rfl,
      fun _ => rfl, ?_, ?_, fun _ => rfl⟩, hflag rfl, hapart rfl⟩
    · exact slice_self _ _
    · exact List.length_pos_iff.mpr fun hb => hbuf (congrArg some hb)
    · exact ⟨fun hb => (by cases hb), fun hb => (by cases hb)⟩
    · intro hb
      cases hb

/-- In every state of a run whose steps are safe: the stream is whole, the buffer is in bounds and
every request that was answered was answered as asked. -/
theorem readUntil_stream_integrity (buf : Option (List UInt8)) (acts : List ReadAct) {c : ReadCfg}
    (hbuf : buf ≠ some []) (hlim : Run.Along readStep ReadCfg.InLimit (.start buf) acts)
    (hsafe : Run.Along readStep ReadCfg.Safe (.start buf) acts)
    (hrun : Run.exec readStep (.start buf) acts = some c) :
    (c.handed.map Prod.snd).flatten ++ c.io.readbuf.pending = c.received ∧
      c.io.readbuf.head ≤ c.io.readbuf.tail ∧ c.io.readbuf.tail ≤ c.io.readbuf.len ∧
      ∀ p ∈ c.handed, p.1.Fulfilled p.2 := by
  have h : ReadInv c := Run.invariant ReadInv (fun _ _ _ h hok hs => h.step hok.1 hok.2 hs) (ReadInv.start hbuf)
    (Run.along_and.mpr ⟨hlim, hsafe⟩) hrun
  exact ⟨h.stream, h.buf.ok.head_le, h.buf.ok.tail_le, h.fulfilled⟩

/-- A line is taken from what came for a longer wait, which then goes on. -/
theorem readUntil_stream_line :
    ∃ c, Run.exec readStep (.start (some [0, 0, 0, 0])) [.readUntilLength 3, .recv [97, 10], .readUntilDelim 10,
        .cbReturn, .readOnce, .recv [98, 99, 100], .cbReturn] = some c ∧
      (c.handed.map Prod.snd).flatten ++ c.io.readbuf.pending = c.received ∧
      c.io.readbuf.head ≤ c.io.readbuf.tail ∧ c.io.readbuf.tail ≤ c.io.readbuf.len ∧
      ∀ p ∈ c.handed, p.1.Fulfilled p.2 :=
  ⟨_, rfl, readUntil_stream_integrity (some [0, 0, 0, 0]) [.readUntilLength 3, .recv [97, 10], .readUntilDelim 10,
    .cbReturn, .readOnce, .recv [98, 99, 100], .cbReturn] (by simp) (by decide +kernel) (by decide +kernel) rfl⟩

/-- One byte has come for a wait of three. A search for the byte behind it finds it in the zeroed
buffer and leaves `head` past `tail`. -/
theorem readUntilDelim_passes_tail :
    ¬∀ (buf : Option (List UInt8)) (acts : List ReadAct) (c : ReadCfg), buf ≠ some [] →
      Run.Along readStep ReadCfg.InLimit (.start buf) acts → Run.exec readStep (.start buf) acts = some c →
      (c.handed.map Prod.snd).flatten ++ c.io.readbuf.pending = c.received ∧
        c.io.readbuf.head ≤ c.io.readbuf.tail ∧ c.io.readbuf.tail ≤ c.io.readbuf.len ∧
        ∀ p ∈ c.handed, p.1.Fulfilled p.2 := by
  intro h
  have hbad := h none [.readUntilLength 3, .recv [97], .readUntilDelim 0] _ (by simp) (by decide +kernel) rfl
  exact absurd hbad.2.1 (by decide +kernel)

end Yjc.Event
