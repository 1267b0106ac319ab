import Yjc.Lib.Framing
import Yjc.Lib.Run
import Yjc.Event.Unpack

/-! Streams fed to an unpacking io whose `read_cb` leaves it alone. The bytes that stand between
`head` and `tail` after a read are what the packages delivered so far left over, so a loop that cuts
the buffer as a framer cuts the whole stream delivers the packages of the stream. -/

namespace Yjc.Event
open Mem

/-! ## What a loop reports -/

/-- `io'` is `io` after `read_cb` was called for `pkgs` and did nothing to it. -/
structure Reports (io io' : Evio) (pkgs : List (List UInt8)) : Prop where
  eq : ∃ flags evRead cnt new, io' =
    { io with readFlags := flags, evRead := evRead, smallReadbytesCnt := cnt, trace := io.trace ++ new }
  delivered : io'.delivered = io.delivered ++ pkgs
  small : io.smallReadbytesCnt = 0 → (∀ pkg ∈ pkgs, io.readbuf.len / 2 ≤ pkg.length) → io'.smallReadbytesCnt = 0

theorem Reports.refl (io : Evio) : Reports io io [] :=
  ⟨⟨io.readFlags, io.evRead, io.smallReadbytesCnt, [], by rw [List.append_nil]⟩, by rw [List.append_nil],
    fun h _ => h⟩

theorem Reports.load {io io' : Evio} {pkgs : List (List UInt8)} (h : Reports io io' pkgs) (p : ℕ) :
    Reports io (io'.log (.load p)) pkgs := by
  obtain ⟨⟨flags, evRead, cnt, new, rfl⟩, hd, hs⟩ := h
  refine ⟨⟨flags, evRead, cnt, new ++ [Ev.load p], ?_⟩, ?_, hs⟩
  · simp only [Evio.log, List.append_assoc]
  · rw [← hd]
    simp [Evio.delivered, Evio.log, Ev.package?]

theorem evioReadCb_idle (off : ℕ) (pkg : List UInt8) (io : Evio) :
    ∃ flags evRead cnt, evioReadCb .idle off pkg io =
        { io with readFlags := flags, evRead := evRead, smallReadbytesCnt := cnt, trace := io.trace ++ [Ev.readCb off pkg] } ∧
      (io.smallReadbytesCnt = 0 → io.readbuf.len / 2 ≤ pkg.length → cnt = 0) := by
  simp only [evioReadCb, ReadCb.idle, Function.iterate_zero, id_eq, evioReadCbEnter, evioReadCbLeave, Evio.log]
  by_cases ho : io.readFlags.once = true <;> simp only [ho, if_true, Bool.false_eq_true, if_false] <;> split_ifs <;>
    refine ⟨_, _, _, rfl, fun h0 hl => ?_⟩ <;> omega

theorem Reports.readCb {io io' : Evio} {pkgs : List (List UInt8)} (h : Reports io io' pkgs) (off : ℕ)
    (pkg : List UInt8) : Reports io (evioReadCb .idle off pkg io') (pkgs ++ [pkg]) := by
  obtain ⟨flags', evRead', cnt', he, hc⟩ := evioReadCb_idle off pkg io'
  obtain ⟨⟨flags, evRead, cnt, new, rfl⟩, hd, hs⟩ := h
  rw [he]
  refine ⟨⟨flags', evRead', cnt', new ++ [Ev.readCb off pkg], ?_⟩, ?_, ?_⟩
  · simp only [List.append_assoc]
  · rw [← List.append_assoc, ← hd]
    simp [Evio.delivered, Ev.package?]
  · intro h0 hl
    exact hc (hs h0 fun q hq => hl q (by simp [hq])) (hl pkg (by simp))

/-- A loop over `[p₀, ep)` of the block `mem` has come to `p`, the start of a package, and has
reported the packages before it. -/
def Cutting (F : Framer UInt8) (mem : List UInt8) (ep : ℕ) (io₀ : Evio) (p₀ : ℕ) (io : Evio) (p : ℕ) : Prop :=
  p ≤ ep ∧ ∃ pkgs, Reports io₀ io pkgs ∧ F.packages (slice mem p₀ ep) = pkgs ++ F.packages (slice mem p ep) ∧
    F.rest (slice mem p₀ ep) = F.rest (slice mem p ep)

section
variable {F : Framer UInt8} {mem : List UInt8} {ep p₀ p : ℕ} {io₀ io : Evio}

theorem Cutting.start (h : p₀ ≤ ep) (io₀ : Evio) : Cutting F mem ep io₀ p₀ io₀ p₀ :=
  ⟨h, [], Reports.refl io₀, rfl, rfl⟩

theorem Cutting.load (h : Cutting F mem ep io₀ p₀ io p) (q : ℕ) : Cutting F mem ep io₀ p₀ (io.log (.load q)) p := by
  obtain ⟨hp, pkgs, hr, hpk, hre⟩ := h
  exact ⟨hp, pkgs, hr.load q, hpk, hre⟩

theorem Cutting.deliver (h : Cutting F mem ep io₀ p₀ io p) (hep : ep ≤ mem.length) {n : ℕ}
    (hn : F.next (slice mem p ep) = some n) :
    Cutting F mem ep io₀ p₀ (evioReadCb .idle p (slice mem p (p + n)) io) (p + n) := by
  obtain ⟨hp, pkgs, hr, hpk, hre⟩ := h
  have hle := F.le_length hn
  rw [length_slice hep] at hle
  refine ⟨by omega, pkgs ++ [slice mem p (p + n)], hr.readCb p _, ?_, ?_⟩
  · rw [hpk, F.packages_some hn, take_slice (by omega), drop_slice, List.append_assoc, List.singleton_append]
  · rw [hre, F.rest_some hn, drop_slice]

theorem Cutting.finish (h : Cutting F mem ep io₀ p₀ io p) (hn : F.next (slice mem p ep) = none) :
    Reports io₀ io (F.packages (slice mem p₀ ep)) ∧ slice mem p ep = F.rest (slice mem p₀ ep) := by
  obtain ⟨_, pkgs, hr, hpk, hre⟩ := h
  rw [F.packages_none hn, List.append_nil] at hpk
  rw [F.rest_none hn] at hre
  exact ⟨hpk ▸ hr, hre.symm⟩

end

/-- `io'` is `io` after what was pending is cut by `F`: the packages are reported, the rest stands at
the front of the buffer. -/
structure Unpacked (F : Framer UInt8) (io io' : Evio) : Prop where
  closed : io'.closed = io.closed
  posted : io'.posted = io.posted
  setting : io'.unpackSetting = io.unpackSetting
  alloced : io'.allocedReadbuf = io.allocedReadbuf
  max : io'.maxReadBufsize = io.maxReadBufsize
  len : io'.readbuf.len = io.readbuf.len
  mem_length : io'.readbuf.mem.length = io.readbuf.mem.length
  head : io'.readbuf.head = 0
  tail : io'.readbuf.tail = (F.rest io.readbuf.pending).length
  kept : io'.readbuf.mem.take io'.readbuf.tail = F.rest io.readbuf.pending
  delivered : io'.delivered = io.delivered ++ F.packages io.readbuf.pending
  small : io.smallReadbytesCnt = 0 → (∀ pkg ∈ F.packages io.readbuf.pending, io.readbuf.len / 2 ≤ pkg.length) →
    io'.smallReadbytesCnt = 0

theorem keepRest_tail (base : Block) (mem : List UInt8) (p remain : ℕ) (io : Evio) :
    (keepRest base mem p remain io).readbuf.tail = remain := by
  unfold keepRest
  dsimp only
  split_ifs <;> rfl

theorem Reports.keepRest {F : Framer UInt8} {io io' : Evio} {p remain : ℕ}
    (h : Reports io io' (F.packages io.readbuf.pending)) (hp : p + remain ≤ io.readbuf.mem.length)
    (hrest : slice io.readbuf.mem p (p + remain) = F.rest io.readbuf.pending) :
    Unpacked F io (keepRest io.readbuf.base io.readbuf.mem p remain io') := by
  have hlen : (F.rest io.readbuf.pending).length = remain := by
    rw [← hrest, length_slice hp]
    omega
  obtain ⟨⟨flags, evRead, cnt, new, rfl⟩, hd, hs⟩ := h
  unfold Event.keepRest
  dsimp only [Evio.log]
  split_ifs with hmove
  · refine ⟨rfl, rfl, rfl, rfl, rfl, rfl, ?_, rfl, hlen.symm, ?_, ?_, hs⟩
    · exact length_store (by rw [length_slice hp]; omega)
    · rw [hrest, ← slice_zero, ← hlen]
      exact slice_store_zero _ _
    · rw [← hd]
      simp [Evio.delivered, Ev.package?]
  · refine ⟨rfl, rfl, rfl, rfl, rfl, rfl, rfl, rfl, hlen.symm, ?_, ?_, hs⟩
    · rw [← hrest]
      rcases Nat.eq_zero_or_pos remain with rfl | hpos
      · simp
      · have hp0 : p = 0 := by simpa [hpos.ne'] using hmove
        rw [hp0, slice_zero, Nat.zero_add]
    · rw [← hd]
      simp [Evio.delivered, Ev.package?]

/-! ## Fixed length -/

/-- Consecutive blocks of `n` bytes. -/
def blocks (n : ℕ) : Framer UInt8 := .upTo (·.length = n)

theorem blocks_next {n : ℕ} (hn : 0 < n) (xs : List UInt8) :
    (blocks n).next xs = if n ≤ xs.length then some n else none := by
  split_ifs with h
  · refine Framer.upTo_next_eq_some hn h (by rw [List.length_take]; omega) fun m _ hm => ?_
    rw [List.length_take]
    omega
  · refine Framer.upTo_next_eq_none.mpr fun m _ hm => ?_
    rw [List.length_take]
    omega

theorem evioUnpackByFixedLength_idle {n : ℕ} (hn : 0 < n) {io : Evio} (hok : io.readbuf.Ok)
    (hlen : n ≤ io.readbuf.len) (buf readbytes : ℕ) (hbuf : buf + readbytes = io.readbuf.tail) :
    ∃ r, evioUnpackByFixedLength .idle n buf readbytes io = some r ∧ Unpacked (blocks n) io r.1 := by
  obtain ⟨hmem, hhead, htail⟩ := hok
  let Inv (s : FixedLoop) := s.p + s.remain = io.readbuf.tail ∧
    Cutting (blocks n) io.readbuf.mem io.readbuf.tail io io.readbuf.head s.io s.p
  have hnext (s : FixedLoop) (hs : Inv s) : (blocks n).next (slice io.readbuf.mem s.p io.readbuf.tail) =
      if n ≤ s.remain then some n else none := by
    rw [blocks_next hn, length_slice (by omega), show io.readbuf.tail - s.p = s.remain by have := hs.1; omega]
  have round (s t : FixedLoop) (hs : Inv s) (h : fixedBody .idle n io.readbuf.mem s = .inl t) :
      Inv t ∧ t.remain < s.remain := by
    have hp := hs.1
    unfold fixedBody at h
    split_ifs at h with hle
    cases h
    refine ⟨⟨?_, hs.2.deliver (by omega) ((hnext s hs).trans (if_pos hle))⟩, ?_⟩ <;> dsimp only <;> omega
  have leave (s r : FixedLoop) (hs : Inv s) (h : fixedBody .idle n io.readbuf.mem s = .inr r) :
      Inv r ∧ (blocks n).next (slice io.readbuf.mem r.p io.readbuf.tail) = none := by
    unfold fixedBody at h
    split_ifs at h with hle
    cases h
    exact ⟨hs, (hnext _ hs).trans (if_neg hle)⟩
  obtain ⟨r, hr, ⟨hp, hcut⟩, hnone⟩ := Loop.run_of_measure _ Inv _ FixedLoop.remain round leave
    (s := fixedStart buf readbytes io)
    ⟨by dsimp only [fixedStart]; omega, Cutting.start hhead io⟩ (Nat.lt_succ_self _)
  obtain ⟨hrep, hrest⟩ := hcut.finish hnone
  have hu : Unpacked (blocks n) io (keepRest io.readbuf.base io.readbuf.mem r.p r.remain r.io) :=
    hrep.keepRest (by omega) (by rw [hp]; exact hrest)
  refine ⟨(_, r.handled), ?_, hu⟩
  unfold evioUnpackByFixedLength
  dsimp only
  rw [if_pos hlen, hr]
  rfl

/-! ## Delimiter -/

/-- Packages that end with the delimiter. -/
def endingWith (d : List UInt8) : Framer UInt8 := .upTo (d <:+ ·)

section
variable {d mem : List UInt8} {sp ep : ℕ}

theorem suffix_slice_iff {a b : ℕ} (hb : b ≤ mem.length) (hd : d ≠ []) :
    d <:+ slice mem a b ↔ ∃ q, a ≤ q ∧ q + d.length = b ∧ slice mem q b = d := by
  have hpos : 0 < d.length := List.length_pos_iff.mpr hd
  constructor
  · intro h
    have hle := h.length_le
    rw [length_slice hb] at hle
    refine ⟨b - d.length, by omega, by omega, ?_⟩
    have := List.suffix_iff_eq_drop.mp h
    rw [length_slice hb, drop_slice, show a + (b - a - d.length) = b - d.length by omega] at this
    exact this.symm
  · rintro ⟨q, ha, hq, h⟩
    rw [← slice_append_slice ha (by omega), h]
    exact List.suffix_append _ _

/-- The delimiter does not stand at any of the positions `[sp, p)`. -/
def NoDelimiter (d mem : List UInt8) (sp p : ℕ) : Prop := ∀ q, sp ≤ q → q < p → slice mem q (q + d.length) ≠ d

theorem endingWith_next_some (hd : d ≠ []) (hep : ep ≤ mem.length) {p : ℕ} (hsp : sp ≤ p)
    (hp : p + d.length ≤ ep) (hno : NoDelimiter d mem sp p) (h : slice mem p (p + d.length) = d) :
    (endingWith d).next (slice mem sp ep) = some (p + d.length - sp) := by
  have hpos : 0 < d.length := List.length_pos_iff.mpr hd
  refine Framer.upTo_next_eq_some (by omega) (by rw [length_slice hep]; omega) ?_ ?_
  · rw [take_slice (by omega), suffix_slice_iff (by omega) hd]
    exact ⟨p, hsp, by omega, by rwa [show sp + (p + d.length - sp) = p + d.length by omega]⟩
  · intro m _ hm
    rw [take_slice (by omega), suffix_slice_iff (by omega) hd]
    rintro ⟨q, hq, hqm, hs⟩
    exact hno q hq (by omega) (by rwa [hqm])

theorem endingWith_next_none (hd : d ≠ []) (hep : ep ≤ mem.length) :
    (endingWith d).next (slice mem sp ep) = none ↔ NoDelimiter d mem sp (ep + 1 - d.length) := by
  have hpos : 0 < d.length := List.length_pos_iff.mpr hd
  refine Framer.upTo_next_eq_none.trans ⟨fun h q hq hlt hs => ?_, fun h m h0 hm => ?_⟩
  · apply h (q + d.length - sp) (by omega) (by rw [length_slice hep]; omega)
    rw [take_slice (by omega), suffix_slice_iff (by omega) hd]
    exact ⟨q, hq, by omega, by rwa [show sp + (q + d.length - sp) = q + d.length by omega]⟩
  · rw [length_slice hep] at hm
    rw [take_slice (by omega), suffix_slice_iff (by omega) hd]
    rintro ⟨q, hq, hqm, hs⟩
    exact h q hq (by omega) (by rwa [hqm])

end

theorem evioUnpackByDelimiter_idle {d : List UInt8} (hd : d ≠ []) {io : Evio} (hok : io.readbuf.Ok)
    (buf readbytes : ℕ) (hbuf : buf + readbytes = io.readbuf.tail)
    (hold : (endingWith d).next (slice io.readbuf.mem io.readbuf.head buf) = none) (packageMaxLength : ℕ) :
    ∃ io' handled, Unpacked (endingWith d) io io' ∧
      evioUnpackByDelimiter .idle d packageMaxLength buf readbytes io =
        if io'.readbuf.tail ≠ 0 ∧ io'.readbuf.tail = io'.readbuf.len then
          if packageMaxLength ≤ io'.readbuf.len then some (overLimit io')
          else
            (evioAllocReadbuf (cInt (min (io'.readbuf.len * 2) packageMaxLength : ℕ)) io').map fun io => (io, handled)
        else some (io', handled) := by
  obtain ⟨hmem, _, htail⟩ := hok
  have hpos : 0 < d.length := List.length_pos_iff.mpr hd
  rw [endingWith_next_none hd (by omega)] at hold
  -- the bytes before `sp` are handed out, and no delimiter begins in `[sp, p)`
  let Inv (s : DelimLoop) := s.p + s.remain = io.readbuf.tail ∧ s.sp ≤ s.p ∧ NoDelimiter d io.readbuf.mem s.sp s.p ∧
    Cutting (endingWith d) io.readbuf.mem io.readbuf.tail io io.readbuf.head s.io s.sp
  have round (s t : DelimLoop) (hs : Inv s) (h : delimBody .idle d io.readbuf.mem s = .inl t) :
      Inv t ∧ t.remain < s.remain := by
    obtain ⟨hp, hsp, hno, hcut⟩ := hs
    unfold delimBody at h
    dsimp only at h
    split_ifs at h with hshort hmatch
    · cases h
      have hnext : (endingWith d).next (slice io.readbuf.mem s.sp io.readbuf.tail) = _ :=
        endingWith_next_some hd (by omega) hsp (by omega) hno hmatch
      have hcut' := (hcut.load s.p).deliver (by omega) hnext
      rw [show s.sp + (s.p + d.length - s.sp) = s.p + d.length by omega] at hcut'
      refine ⟨⟨?_, Nat.le_refl _, fun q hq hlt => absurd hlt (Nat.not_lt.mpr hq), hcut'⟩, ?_⟩ <;> dsimp only <;> omega
    · cases h
      refine ⟨⟨by dsimp only; omega, by dsimp only; omega, fun q hq hlt => ?_, hcut.load s.p⟩, by dsimp only; omega⟩
      dsimp only at hq hlt
      rcases Nat.lt_succ_iff_lt_or_eq.mp hlt with hlt | rfl
      · exact hno q hq hlt
      · exact hmatch
  have leave (s r : DelimLoop) (hs : Inv s) (h : delimBody .idle d io.readbuf.mem s = .inr r) :
      Inv r ∧ (endingWith d).next (slice io.readbuf.mem r.sp io.readbuf.tail) = none := by
    obtain ⟨hp, hsp, hno, hcut⟩ := hs
    unfold delimBody at h
    dsimp only at h
    split_ifs at h with hshort
    cases h
    refine ⟨⟨hp, hsp, hno, hcut⟩, (endingWith_next_none hd (by omega)).mpr fun q hq hlt => hno q hq (by omega)⟩
  -- the search goes back to where a delimiter may begin that the last read has cut
  have start : Inv (delimStart d buf readbytes io) := by
    refine ⟨by dsimp only [delimStart]; omega, Nat.le_max_left _ _, fun q hq hlt => ?_, Cutting.start (by omega) io⟩
    dsimp only [delimStart] at hq hlt
    exact hold q hq (by omega)
  obtain ⟨r, hr, ⟨hp, hsp, _, hcut⟩, hnone⟩ :=
    Loop.run_of_measure _ Inv _ DelimLoop.remain round leave start (Nat.lt_succ_self _)
  obtain ⟨hrep, hrest⟩ := hcut.finish hnone
  have hu : Unpacked (endingWith d) io
      (keepRest io.readbuf.base io.readbuf.mem r.sp (io.readbuf.tail - r.sp) r.io) :=
    hrep.keepRest (by omega) (by rw [Nat.add_sub_cancel' (by omega)]; exact hrest)
  refine ⟨_, r.handled, hu, ?_⟩
  unfold evioUnpackByDelimiter
  dsimp only
  rw [hr, Option.bind_some, hbuf, keepRest_tail]

/-! ## Whole streams -/

/-- An open io that has reported the packages of `xs` and holds the rest of it. -/
structure Held (s : UnpackSetting) (F : Framer UInt8) (start : Evio) (xs : List UInt8) (io : Evio) :
    Prop where
  isOpen : io.closed = false
  posted : io.posted = start.posted
  setting : io.unpackSetting = some s
  delivered : io.delivered = start.delivered ++ F.packages xs
  ok : io.readbuf.Ok
  head : io.readbuf.head = 0
  pending : io.readbuf.pending = F.rest xs
  alloced : io.allocedReadbuf = true
  max : io.maxReadBufsize = s.packageMaxLength
  len_le : io.readbuf.len ≤ s.packageMaxLength
  len_lt : io.readbuf.len < 2 ^ 31

section
variable {s : UnpackSetting} {F : Framer UInt8} {start : Evio} {xs : List UInt8} {io io' : Evio}

theorem Held.tail_eq (h : Held s F start xs io) : io.readbuf.tail = (F.rest xs).length := by
  have htail := h.ok.tail_le
  rw [← h.pending, FifoBuf.pending, length_slice (by rw [h.ok.mem_length]; exact htail), h.head, Nat.sub_zero]

theorem Held.store (h : Held s F start xs io) {bytes : List UInt8}
    (hfit : bytes.length ≤ io.readbuf.len - io.readbuf.tail) :
    (nioReadStore bytes io).readbuf.Ok ∧ (nioReadStore bytes io).readbuf.pending = F.rest xs ++ bytes ∧
      slice (nioReadStore bytes io).readbuf.mem io.readbuf.head io.readbuf.tail = F.rest xs := by
  obtain ⟨hmem, hhead, htail⟩ := h.ok
  have hb : io.readbuf.tail + bytes.length ≤ io.readbuf.mem.length := by omega
  refine ⟨⟨?_, ?_, ?_⟩, ?_, ?_⟩
  · exact (length_store hb).trans hmem
  · exact Nat.le_trans hhead (Nat.le_add_right _ _)
  · exact Nat.le_trans hb (Nat.le_of_eq hmem)
  · rw [← h.pending]
    exact slice_store_append io.readbuf.mem bytes hhead (by omega)
  · rw [← h.pending]
    exact slice_store_before (Nat.le_refl _) (by omega)

theorem Held.unpacked (h : Held s F start xs io) {bytes : List UInt8}
    (hfit : bytes.length ≤ io.readbuf.len - io.readbuf.tail) (hu : Unpacked F (nioReadStore bytes io) io') :
    Held s F start (xs ++ bytes) io' ∧ io'.readbuf.len = io.readbuf.len := by
  obtain ⟨hok, hpend, _⟩ := h.store hfit
  have hmem : io'.readbuf.mem.length = io'.readbuf.len := by rw [hu.mem_length, hok.mem_length, hu.len]
  have hkept := hu.kept
  rw [hpend, ← F.rest_append] at hkept
  have htail : io'.readbuf.tail ≤ io'.readbuf.len := by
    have hl := congrArg List.length hkept
    rw [List.length_take, F.rest_append, ← hpend, ← hu.tail] at hl
    omega
  refine ⟨⟨hu.closed.trans h.isOpen, hu.posted.trans h.posted, hu.setting.trans h.setting, ?_, ⟨hmem, by rw [hu.head]; omega, htail⟩, hu.head, ?_,
    hu.alloced.trans h.alloced, hu.max.trans h.max, ?_, ?_⟩, hu.len⟩
  · rw [hu.delivered, hpend, F.packages_append xs bytes, ← List.append_assoc, ← h.delivered]
    rfl
  · rw [FifoBuf.pending, hu.head, slice_zero]
    exact hkept
  · exact Nat.le_trans (Nat.le_of_eq hu.len) h.len_le
  · exact Nat.lt_of_le_of_lt (Nat.le_of_eq hu.len) h.len_lt

theorem Held.alloc (h : Held s F start xs io) {n : ℕ} (htail : io.readbuf.tail < n) (hmax : n ≤ s.packageMaxLength)
    (hlt : n < 2 ^ 31) :
    ∃ io', evioAllocReadbuf (cInt n) io = some io' ∧ Held s F start xs io' ∧ io'.readbuf.tail < io'.readbuf.len ∧
      io'.readbuf.len = n := by
  obtain ⟨hmem, hhead, hle⟩ := h.ok
  refine ⟨_, evioAllocReadbuf_of_lt (by omega) hlt (by rw [h.max]; exact hmax), ?_, htail, rfl⟩
  rw [if_pos h.alloced]
  refine ⟨h.isOpen, h.posted, h.setting, h.delivered, ⟨length_zrealloc _ _, hhead, Nat.le_of_lt htail⟩, h.head, ?_, rfl,
    h.max, hmax, hlt⟩
  rw [← h.pending]
  exact slice_zrealloc (Nat.le_of_lt htail) (Nat.le_trans hle (Nat.le_of_eq hmem.symm))

theorem Held.autosize_eq (h : Held s F start xs io) (hroom : io.readbuf.tail < io.readbuf.len) :
    evioAutosizeReadbuf io =
      if io.readbuf.tail < io.readbuf.len / 2 ∧ 3 ≤ io.smallReadbytesCnt then
        evioAllocReadbuf (cInt (io.readbuf.len / 2 : ℕ)) io
      else some io := by
  have hrw : (if io.readbuf.head = io.readbuf.tail then { io with readbuf := { io.readbuf with head := 0, tail := 0 } }
      else io) = io := by
    split_ifs with heq
    · have hb : { io.readbuf with head := 0, tail := 0 } = io.readbuf := by
        conv_rhs => rw [show io.readbuf = { io.readbuf with head := io.readbuf.head, tail := io.readbuf.tail } from rfl,
          ← heq, h.head]
      rw [hb]
    · rfl
  unfold evioAutosizeReadbuf
  dsimp only
  rw [hrw, if_neg (by omega)]

theorem Held.autosize (h : Held s F start xs io) (hroom : io.readbuf.tail < io.readbuf.len) :
    ∃ io', evioAutosizeReadbuf io = some io' ∧ Held s F start xs io' ∧ io'.readbuf.tail < io'.readbuf.len := by
  rw [h.autosize_eq hroom]
  split_ifs with hsmall
  · obtain ⟨io', he, h', hroom', -⟩ :=
      h.alloc hsmall.1 (Nat.le_trans (Nat.div_le_self _ _) h.len_le) (by have := h.len_lt; omega)
    exact ⟨io', he, h', hroom'⟩
  · exact ⟨io, rfl, h, hroom⟩

theorem held_setUnpack (F : Framer UInt8) (hopen : io.closed = false)
    (hempty : io.readbuf.head = 0 ∧ io.readbuf.tail = 0) (hadm : s.withDefaults.Admitted)
    (hpos : 0 < s.withDefaults.readbufLen) (hle : s.withDefaults.readbufLen ≤ s.withDefaults.packageMaxLength)
    (hlt : s.withDefaults.readbufLen < 2 ^ 31) :
    ∃ io₀, evioSetUnpack s io = some io₀ ∧ Held s.withDefaults F io [] io₀ ∧
      io₀.readbuf.tail < io₀.readbuf.len ∧ io₀.readbuf.len = s.withDefaults.readbufLen ∧ io₀.smallReadbytesCnt = 0 := by
  obtain ⟨hhead, htail⟩ := hempty
  have hnil : F.next [] = none := by
    cases h : F.next [] with
    | none => rfl
    | some n =>
      have := F.pos h
      have := F.le_length h
      simp only [List.length_nil] at this
      omega
  have hunset : (evioUnsetUnpack io).closed = false ∧ (evioUnsetUnpack io).posted = io.posted ∧
      (evioUnsetUnpack io).trace = io.trace ∧
      (evioUnsetUnpack io).readbuf.head = 0 ∧ (evioUnsetUnpack io).readbuf.tail = 0 := by
    unfold evioUnsetUnpack evioFreeReadbuf
    split_ifs <;> exact ⟨hopen, rfl, rfl, hhead, htail⟩
  obtain ⟨hopen', hposted, htrace, hhead', htail'⟩ := hunset
  have hset : evioSetUnpack s io = evioAllocReadbuf (cInt s.withDefaults.readbufLen) _ := if_pos hadm
  rw [evioAllocReadbuf_of_lt hpos hlt hle] at hset
  refine ⟨_, hset, ?_, ?_⟩
  · refine ⟨hopen', hposted, rfl, ?_, ⟨?_, ?_, ?_⟩, hhead', ?_, rfl, rfl, hle, hlt⟩
    · rw [F.packages_none hnil, List.append_nil]
      simp only [Evio.delivered, htrace]
    · dsimp only
      split_ifs
      · exact length_zrealloc _ _
      · exact List.length_replicate
    · exact Nat.le_of_eq (hhead'.trans htail'.symm)
    · exact Nat.le_trans (Nat.le_of_eq htail') (Nat.zero_le _)
    · rw [F.rest_none hnil, FifoBuf.pending]
      exact slice_eq_nil (Nat.le_of_eq (htail'.trans hhead'.symm))
  · exact ⟨Nat.lt_of_le_of_lt (Nat.le_of_eq htail') hpos, rfl, rfl⟩

end

theorem overLimit_eq {io : Evio} (hopen : io.closed = false) :
    (overLimit io).1.closed = true ∧ (overLimit io).1.error = errOverLimit ∧
      (overLimit io).1.delivered = io.delivered := by
  have hp : (io.fail errOverLimit).putsOffClose = false := by
    simp [Evio.putsOffClose, Evio.fail, Evio.log, errOverLimit]
  have hc : (io.fail errOverLimit).closed = false := hopen
  have heq : (overLimit io).1 =
      evioCloseFinish ({ (io.fail errOverLimit).logClose .fault with closed := true }.log .closed) := by
    rw [overLimit, evioClose_eq, if_neg (by simp [hc]), if_neg (by simp [hp])]
  refine ⟨?_, ?_, ?_⟩
  · rw [heq]
    rfl
  · rw [heq, evioCloseFinish, closeCb_error, evioDone_error]
    rfl
  · rw [heq]
    simp [Evio.delivered, evioCloseFinish, Ev.package?, Evio.fail, Evio.logClose]

/-- What the io did with the stream `xs`: it reported its packages and holds the rest, or it is closed
because the rest is as long as a package may be. -/
structure Framed (F : Framer UInt8) (start : Evio) (packageMaxLength : ℕ) (xs : List UInt8)
    (io : Evio) : Prop where
  delivered : io.delivered = start.delivered ++ F.packages xs
  held : io.closed = false → io.posted = start.posted ∧ io.readbuf.Ok ∧ io.readbuf.head = 0 ∧ io.readbuf.pending = F.rest xs ∧
    io.readbuf.tail < io.readbuf.len
  overLimit : io.closed = true → io.error = errOverLimit ∧ (F.rest xs).length = packageMaxLength

theorem Held.framed {s : UnpackSetting} {F : Framer UInt8} {start : Evio} {xs : List UInt8} {io : Evio}
    (h : Held s F start xs io) (hroom : io.readbuf.tail < io.readbuf.len) :
    Framed F start s.packageMaxLength xs io :=
  ⟨h.delivered, fun _ => ⟨h.posted, h.ok, h.head, h.pending, hroom⟩, fun hc => by simp [h.isOpen] at hc⟩

/-- A buffer that the rest of the stream fills is not grown to `2 ^ 31` bytes or more. -/
def GrowsInRange (d : List UInt8) (packageMaxLength : ℕ) (io : Evio) : Feed → Prop
  | .read bytes => ((endingWith d).rest (io.readbuf.pending ++ bytes)).length = io.readbuf.len →
      io.readbuf.len < packageMaxLength → min (io.readbuf.len * 2) packageMaxLength < 2 ^ 31
  | .autosize => True

instance (d : List UInt8) (m : ℕ) (io : Evio) : (a : Feed) → Decidable (GrowsInRange d m io a)
  | .read bytes =>
    inferInstanceAs (Decidable (((endingWith d).rest (io.readbuf.pending ++ bytes)).length = io.readbuf.len →
      io.readbuf.len < m → min (io.readbuf.len * 2) m < 2 ^ 31))
  | .autosize => inferInstanceAs (Decidable True)

section
variable {d : List UInt8} {start : Evio} {xs : List UInt8} {io : Evio} {m : ℕ}

theorem Held.readDelimiter (h : Held ⟨.delimiter d d.length, m⟩ (endingWith d) start xs io) (hd : d ≠ [])
    {bytes : List UInt8} (hfit : bytes.length ≤ io.readbuf.len - io.readbuf.tail) :
    ∃ io', Held ⟨.delimiter d d.length, m⟩ (endingWith d) start (xs ++ bytes) io' ∧
      io'.readbuf.len = io.readbuf.len ∧
      feed .idle io (.read bytes) =
        if io'.readbuf.tail ≠ 0 ∧ io'.readbuf.tail = io'.readbuf.len then
          if m ≤ io'.readbuf.len then some (overLimit io').1
          else evioAllocReadbuf (cInt (min (io'.readbuf.len * 2) m : ℕ)) io'
        else some io' := by
  obtain ⟨hok, _, hold⟩ := h.store hfit
  have hnone : (endingWith d).next
      (slice (nioReadStore bytes io).readbuf.mem (nioReadStore bytes io).readbuf.head io.readbuf.tail) = none :=
    (congrArg _ hold).trans (Framer.next_rest _ _)
  obtain ⟨io', handled, hu, he⟩ := evioUnpackByDelimiter_idle hd hok io.readbuf.tail bytes.length rfl hnone m
  obtain ⟨hheld, hlen⟩ := h.unpacked hfit hu
  refine ⟨io', hheld, hlen, ?_⟩
  rw [feed, h.setting, Option.bind_some, evioUnpack]
  dsimp only
  rw [List.take_length, he]
  split_ifs
  · rfl
  · rw [Option.map_map]
    exact Option.map_id'
  · rfl

theorem Held.readFixedLength {n : ℕ} (h : Held ⟨.fixedLength n, m⟩ (blocks n) start xs io) (hn : 0 < n)
    (hlen : io.readbuf.len = n) (hsmall : io.smallReadbytesCnt = 0)
    {bytes : List UInt8} (hfit : bytes.length ≤ io.readbuf.len - io.readbuf.tail) :
    ∃ io', feed .idle io (.read bytes) = some io' ∧ Held ⟨.fixedLength n, m⟩ (blocks n) start (xs ++ bytes) io' ∧
      io'.readbuf.len = n ∧ io'.smallReadbytesCnt = 0 := by
  obtain ⟨hok, _, _⟩ := h.store hfit
  obtain ⟨r, hr, hu⟩ := evioUnpackByFixedLength_idle hn hok (Nat.le_of_eq hlen.symm) io.readbuf.tail bytes.length rfl
  obtain ⟨hheld, hlen'⟩ := h.unpacked hfit hu
  refine ⟨r.1, ?_, hheld, hlen'.trans hlen, hu.small hsmall fun pkg hpkg => ?_⟩
  · rw [feed, h.setting, Option.bind_some, evioUnpack]
    dsimp only
    rw [hr, Option.map_some]
  · have hl : pkg.length = n := Framer.stop_of_mem_packages hpkg
    rw [hl, ← hlen]
    exact Nat.div_le_self _ _

end

/-- An io that reads by delimiter, after the stream `xs`. -/
def DelimStream (d : List UInt8) (m : ℕ) (start : Evio) (xs : List UInt8) (io : Evio) : Prop :=
  Framed (endingWith d) start m xs io ∧
    (io.closed = false → Held ⟨.delimiter d d.length, m⟩ (endingWith d) start xs io)

section
variable {d : List UInt8} {m : ℕ} {start : Evio} {xs : List UInt8} {io : Evio}

theorem Held.delimStream (h : Held ⟨.delimiter d d.length, m⟩ (endingWith d) start xs io)
    (hroom : io.readbuf.tail < io.readbuf.len) : DelimStream d m start xs io := ⟨h.framed hroom, fun _ => h⟩

theorem DelimStream.feed (h : DelimStream d m start xs io) (hd : d ≠ []) {a : Feed} (hfit : a.Fits io)
    (hgrow : GrowsInRange d m io a) : ∃ t, feed .idle io a = some t ∧ DelimStream d m start (xs ++ a.bytes) t := by
  cases a with
  | autosize =>
    have hheld := h.2 hfit
    obtain ⟨io', he, hheld', hroom⟩ := hheld.autosize (h.1.held hfit).2.2.2.2
    exact ⟨io', he, by rw [Feed.bytes, List.append_nil]; exact hheld'.delimStream hroom⟩
  | read bytes =>
    obtain ⟨hopen, hne, hlen⟩ := hfit
    have hheld := h.2 hopen
    obtain ⟨io', hheld', hlen', he⟩ := hheld.readDelimiter hd hlen
    have htail := hheld'.ok.tail_le
    have hpos : 0 < io'.readbuf.len := by
      have := List.length_pos_iff.mpr hne
      omega
    rw [he]
    split_ifs with hfull hmax
    · obtain ⟨hclosed, herr, hdel⟩ := overLimit_eq hheld'.isOpen
      refine ⟨_, rfl, ⟨hdel.trans hheld'.delivered, fun ho => ?_, fun _ => ⟨herr, ?_⟩⟩, fun ho => ?_⟩
      · rw [hclosed] at ho
        cases ho
      · have hle := hheld'.len_le
        dsimp only at hle
        rw [Feed.bytes, ← hheld'.tail_eq]
        omega
      · rw [hclosed] at ho
        cases ho
    · have hlt := hgrow (by rw [hheld.pending, ← Framer.rest_append, ← hheld'.tail_eq, hfull.2, hlen']) (by omega)
      obtain ⟨io'', ha, hheld'', hroom, -⟩ := hheld'.alloc (n := min (io'.readbuf.len * 2) m) (by omega)
        (Nat.min_le_right _ _) (by omega)
      exact ⟨io'', ha, hheld''.delimStream hroom⟩
    · exact ⟨io', rfl, hheld'.delimStream (by omega)⟩

theorem DelimStream.feed_none (h : DelimStream d m start xs io) (hd : d ≠ []) {a : Feed} (hfit : a.Fits io)
    (hgrow : ¬GrowsInRange d m io a) : Event.feed .idle io a = none := by
  cases a with
  | autosize => exact absurd trivial hgrow
  | read bytes =>
    obtain ⟨hopen, hne, hlen⟩ := hfit
    have hheld := h.2 hopen
    obtain ⟨io', hheld', hlen', he⟩ := hheld.readDelimiter hd hlen
    have hpos := List.length_pos_iff.mpr hne
    have hlt := hheld.len_lt
    rw [GrowsInRange, hheld.pending, ← Framer.rest_append, ← hheld'.tail_eq] at hgrow
    push Not at hgrow
    obtain ⟨hfull, hmax, hbig⟩ := hgrow
    have hn : evioAllocReadbuf (cInt (min (io'.readbuf.len * 2) m : ℕ)) io' = none :=
      evioAllocReadbuf_of_ge (by omega) (by omega) (by rw [hheld'.max]; exact Nat.min_le_right _ _)
    rw [he, if_pos (by omega), if_neg (by omega), hn]

end

theorem packageMaxLength_pos (s : UnpackSetting) : 0 < s.withDefaults.packageMaxLength := by
  unfold UnpackSetting.withDefaults
  dsimp only
  split_ifs
  · decide
  · omega

theorem feedDelimiter_iff {d : List UInt8} (hd : d ≠ []) {s : UnpackSetting} (hs : s.mode = .delimiter d d.length)
    {io : Evio} (hopen : io.closed = false) (hempty : io.readbuf.head = 0 ∧ io.readbuf.tail = 0) :
    ∃ io₀, evioSetUnpack s io = some io₀ ∧ ∀ acts, Run.Along (feed .idle) Feed.Fits io₀ acts →
      (Run.Along (feed .idle) (GrowsInRange d s.withDefaults.packageMaxLength) io₀ acts ↔
        ∃ t, Run.exec (feed .idle) io₀ acts = some t ∧ Framed (endingWith d) io
          s.withDefaults.packageMaxLength (acts.flatMap Feed.bytes) t) := by
  have hmode : s.withDefaults.mode = .delimiter d d.length := by
    simp [UnpackSetting.withDefaults, hs, UnpackMode.withDefaults, hd]
  have hw : s.withDefaults = ⟨.delimiter d d.length, s.withDefaults.packageMaxLength⟩ := by rw [← hmode]
  have hl : s.withDefaults.readbufLen = min evloopReadBufsize s.withDefaults.packageMaxLength := by
    rw [UnpackSetting.readbufLen, hmode]
  have hm := packageMaxLength_pos s
  have h8 : evloopReadBufsize = 8192 := rfl
  obtain ⟨io₀, hset, hheld, hroom, -, -⟩ := held_setUnpack (endingWith d) hopen hempty
    (by rw [hw]; trivial) (by omega) (by omega) (by omega)
  rw [hw] at hheld
  refine ⟨io₀, hset, fun acts hfits => ?_⟩
  obtain ⟨hiff, hinv⟩ := Run.along_iff_exec
    (fun hist => DelimStream d s.withDefaults.packageMaxLength io (hist.flatMap Feed.bytes))
    (fun hist t a h hfit hgrow => by
      simpa only [List.flatMap_append, List.flatMap_singleton] using h.feed hd hfit hgrow)
    (fun hist t a h hfit hgrow => h.feed_none hd hfit hgrow) [] (hheld.delimStream hroom) hfits
  rw [hiff]
  exact ⟨fun ⟨t, ht⟩ => ⟨t, ht, (hinv t ht).1⟩, fun ⟨t, ht, _⟩ => ⟨t, ht⟩⟩

theorem evioSetUnpack_none {n : ℕ} {s : UnpackSetting} (hs : s.mode = .fixedLength n)
    (hmax : n ≤ s.withDefaults.packageMaxLength) (hge : 2 ^ 31 ≤ n) (hword : n < 2 ^ 32) (io : Evio) :
    evioSetUnpack s io = none := by
  have hw : s.withDefaults = ⟨.fixedLength n, s.withDefaults.packageMaxLength⟩ := by
    simp [UnpackSetting.withDefaults, hs, UnpackMode.withDefaults]
  have hl : s.withDefaults.readbufLen = n := by rw [hw, UnpackSetting.readbufLen]
  unfold evioSetUnpack
  dsimp only
  split_ifs
  · rw [hl]
    exact evioAllocReadbuf_of_ge hge hword hmax
  · rfl

theorem feedFixedLength {n : ℕ} {s : UnpackSetting} (hs : s.mode = .fixedLength n) (hn : 0 < n)
    (hmax : n ≤ s.withDefaults.packageMaxLength) (hlt : n < 2 ^ 31) {io : Evio} (hopen : io.closed = false)
    (hempty : io.readbuf.head = 0 ∧ io.readbuf.tail = 0) :
    ∃ io₀, evioSetUnpack s io = some io₀ ∧ ∀ acts, Run.Along (feed .idle) Feed.Fits io₀ acts →
      ∃ t, Run.exec (feed .idle) io₀ acts = some t ∧ t.closed = false ∧ Framed (blocks n) io
        s.withDefaults.packageMaxLength (acts.flatMap Feed.bytes) t := by
  have hw : s.withDefaults = ⟨.fixedLength n, s.withDefaults.packageMaxLength⟩ := by
    simp [UnpackSetting.withDefaults, hs, UnpackMode.withDefaults]
  have hl : s.withDefaults.readbufLen = n := by rw [hw, UnpackSetting.readbufLen]
  obtain ⟨io₀, hset, hheld, hroom, hlen, hsmall⟩ := held_setUnpack (blocks n) hopen hempty
    (by rw [hw]; exact ⟨by omega, hmax⟩) (by omega) (by omega) (by omega)
  rw [hw] at hheld
  refine ⟨io₀, hset, fun acts hfits => ?_⟩
  -- less than a block is left after each read, so the buffer always has room
  let Inv (hist : List Feed) (t : Evio) := Held ⟨.fixedLength n, s.withDefaults.packageMaxLength⟩ (blocks n)
    io (hist.flatMap Feed.bytes) t ∧ t.readbuf.len = n ∧ t.smallReadbytesCnt = 0
  have room {hist : List Feed} {t : Evio} (h : Inv hist t) : t.readbuf.tail < t.readbuf.len := by
    have hrest := (blocks n).next_rest (hist.flatMap Feed.bytes)
    rw [blocks_next hn] at hrest
    split_ifs at hrest with hle
    rw [h.1.tail_eq, h.2.1]
    omega
  have good (hist : List Feed) (t : Evio) (a : Feed) (h : Inv hist t) (hfit : a.Fits t) :
      ∃ u, feed .idle t a = some u ∧ Inv (hist ++ [a]) u := by
    have hroom := room h
    obtain ⟨hheld, hlen, hsmall⟩ := h
    cases a with
    | read bytes =>
      obtain ⟨u, hu, h'⟩ := hheld.readFixedLength hn hlen hsmall hfit.2.2
      exact ⟨u, hu, by simpa only [Inv, List.flatMap_append, List.flatMap_singleton, Feed.bytes] using h'⟩
    | autosize =>
      refine ⟨t, ?_, by simpa [Inv, Feed.bytes] using ⟨hheld, hlen, hsmall⟩⟩
      rw [feed, hheld.autosize_eq hroom, if_neg (by omega)]
  obtain ⟨t, ht, hinv⟩ := Run.exec_of_along Inv good [] ⟨hheld, hlen.trans hl, hsmall⟩ hfits
  exact ⟨t, ht, hinv.1.isOpen, hinv.1.framed (room hinv)⟩

/-- However the stream is cut into reads, framing by delimiter delivers the packages of the whole
stream, up to a read for which the buffer would have to grow to `2 ^ 31` bytes or more; so does
framing by fixed length, exactly for lengths below `2 ^ 31`. -/
theorem unpack_independent_of_cuts (s : UnpackSetting) (io : Evio) (hopen : io.closed = false)
    (hempty : io.readbuf.head = 0 ∧ io.readbuf.tail = 0) :
    (∀ d : List UInt8, d ≠ [] → s.mode = .delimiter d d.length →
      ∃ io₀, evioSetUnpack s io = some io₀ ∧ ∀ acts, Run.Along (feed .idle) Feed.Fits io₀ acts →
        (Run.Along (feed .idle) (GrowsInRange d s.withDefaults.packageMaxLength) io₀ acts ↔
          ∃ t, Run.exec (feed .idle) io₀ acts = some t ∧ Framed (endingWith d) io
            s.withDefaults.packageMaxLength (acts.flatMap Feed.bytes) t)) ∧
    (∀ n : ℕ, 0 < n → s.mode = .fixedLength n → n ≤ s.withDefaults.packageMaxLength → n < 2 ^ 32 →
      (n < 2 ^ 31 ↔ ∃ io₀, evioSetUnpack s io = some io₀ ∧ ∀ acts, Run.Along (feed .idle) Feed.Fits io₀ acts →
        ∃ t, Run.exec (feed .idle) io₀ acts = some t ∧ t.closed = false ∧ Framed (blocks n) io
          s.withDefaults.packageMaxLength (acts.flatMap Feed.bytes) t)) := by
  constructor
  · intro d hd hs
    exact feedDelimiter_iff hd hs hopen hempty
  · intro n hn hs hmax hword
    refine ⟨fun hlt => feedFixedLength hs hn hmax hlt hopen hempty, fun ⟨io₀, hset, _⟩ => ?_⟩
    by_contra hge
    rw [evioSetUnpack_none hs hmax (by omega) hword] at hset
    cases hset

/-- The delimiter CR LF, split over the reads, and blocks of two bytes. -/
theorem unpack_independent_of_cuts_crlf :
    (∃ io₀ t, evioSetUnpack ⟨.delimiter [13, 10] 2, 6⟩ .fresh = some io₀ ∧
      Run.exec (feed .idle) io₀ [.read [97, 13], .read [10, 13], .read [13, 10, 98]] = some t ∧
      t.delivered = [[97, 13, 10], [13, 13, 10]] ∧ t.readbuf.pending = [98]) ∧
    (∃ io₀ t, evioSetUnpack ⟨.fixedLength 2, 6⟩ .fresh = some io₀ ∧
      Run.exec (feed .idle) io₀ [.read [1], .read [2], .read [3]] = some t ∧
      t.delivered = [[1, 2]] ∧ t.readbuf.pending = [3]) := by
  constructor
  · obtain ⟨io₀, hset, h⟩ := (unpack_independent_of_cuts ⟨.delimiter [13, 10] 2, 6⟩ .fresh rfl ⟨rfl, rfl⟩).1 [13, 10]
      (by decide) rfl
    have hfits : ∀ io ∈ evioSetUnpack ⟨.delimiter [13, 10] 2, 6⟩ .fresh, Run.Along (feed .idle) Feed.Fits io
        [.read [97, 13], .read [10, 13], .read [13, 10, 98]] := by decide
    have hgrows : ∀ io ∈ evioSetUnpack ⟨.delimiter [13, 10] 2, 6⟩ .fresh, Run.Along (feed .idle)
        (GrowsInRange [13, 10] 6) io [.read [97, 13], .read [10, 13], .read [13, 10, 98]] := by decide
    have hopen : ∀ io ∈ evioSetUnpack ⟨.delimiter [13, 10] 2, 6⟩ .fresh, ∀ t ∈ Run.exec (feed .idle) io
        [.read [97, 13], .read [10, 13], .read [13, 10, 98]], t.closed = false := by decide
    obtain ⟨t, ht, hframed⟩ := (h _ (hfits io₀ hset)).mp (hgrows io₀ hset)
    refine ⟨io₀, t, hset, ht, ?_, ?_⟩
    · rw [hframed.delivered]
      decide
    · rw [(hframed.held (hopen io₀ hset t ht)).2.2.2.1]
      decide
  · obtain ⟨io₀, hset, h⟩ := ((unpack_independent_of_cuts ⟨.fixedLength 2, 6⟩ .fresh rfl ⟨rfl, rfl⟩).2 2 (by decide) rfl
      (by decide) (by decide)).mp (by decide)
    have hfits : ∀ io ∈ evioSetUnpack ⟨.fixedLength 2, 6⟩ .fresh, Run.Along (feed .idle) Feed.Fits io
        [.read [1], .read [2], .read [3]] := by decide
    obtain ⟨t, ht, hopen, hframed⟩ := h _ (hfits io₀ hset)
    refine ⟨io₀, t, hset, ht, ?_, ?_⟩
    · rw [hframed.delivered]
      decide
    · rw [(hframed.held hopen).2.2.2.1]
      decide

section
variable {start : Evio} {a m k : ℕ} {io : Evio}

theorem rest_newline_zeros (n : ℕ) : (endingWith [10]).rest (List.replicate n 0) = List.replicate n 0 := by
  refine (endingWith [10]).rest_none (Framer.upTo_next_eq_none.mpr fun k _ _ h => ?_)
  have h10 := h.subset (List.mem_singleton_self 10)
  rw [List.take_replicate, List.mem_replicate] at h10
  exact absurd h10.2 (by decide)

theorem Held.fill (h : Held ⟨.delimiter [10] 1, m⟩ (endingWith [10]) start (List.replicate a 0) io)
    (hroom : io.readbuf.tail < io.readbuf.len) (hm : io.readbuf.len < m) :
    Feed.Fits io (.read (List.replicate (io.readbuf.len - io.readbuf.tail) 0)) ∧
    ∃ io', Held ⟨.delimiter [10] 1, m⟩ (endingWith [10]) start (List.replicate io.readbuf.len 0) io' ∧
      io'.readbuf.len = io.readbuf.len ∧ io'.readbuf.tail = io.readbuf.len ∧
      feed .idle io (.read (List.replicate (io.readbuf.len - io.readbuf.tail) 0)) =
        evioAllocReadbuf (cInt (min (io.readbuf.len * 2) m : ℕ)) io' := by
  -- zeros that fill the buffer of an io that waits for a newline
  have ha : io.readbuf.tail = a := by rw [h.tail_eq, rest_newline_zeros, List.length_replicate]
  have hfit : (List.replicate (io.readbuf.len - io.readbuf.tail) (0 : UInt8)).length ≤
      io.readbuf.len - io.readbuf.tail := Nat.le_of_eq List.length_replicate
  obtain ⟨io', hheld, hlen, he⟩ := h.readDelimiter (by decide) hfit
  rw [List.replicate_append_replicate, show a + (io.readbuf.len - io.readbuf.tail) = io.readbuf.len by omega] at hheld
  have htail : io'.readbuf.tail = io.readbuf.len := by
    rw [hheld.tail_eq, rest_newline_zeros, List.length_replicate]
  refine ⟨⟨h.isOpen, ?_, hfit⟩, io', hheld, hlen, htail, ?_⟩
  · intro h0
    rw [List.replicate_eq_nil_iff] at h0
    omega
  · rw [he, if_pos (by omega), if_neg (by omega), hlen]

theorem Held.overflow (h : Held ⟨.delimiter [10] 1, 2 ^ 31⟩ (endingWith [10]) start (List.replicate a 0) io)
    (hroom : io.readbuf.tail < io.readbuf.len) (hk : k ≤ 30) (hlen : io.readbuf.len = 2 ^ (30 - k)) :
    ∃ acts, Run.Along (feed .idle) Feed.Fits io acts ∧ Run.exec (feed .idle) io acts = none := by
  -- zeros without a newline double the buffer until its size is no `int` any more
  induction k generalizing a io with
  | zero =>
    obtain ⟨hfits, io', hheld, hlen', htail, he⟩ := h.fill hroom (by omega)
    rw [evioAllocReadbuf_of_ge (by omega) (by omega) (by rw [hheld.max]; exact Nat.min_le_right _ _)] at he
    exact ⟨[_], ⟨hfits, by simp [he]⟩, by simp [Run.exec, he]⟩
  | succ k ih =>
    have hpow : io.readbuf.len * 2 = 2 ^ (30 - k) := by
      rw [hlen, ← Nat.pow_succ]
      congr 1
      omega
    have hle : 2 ^ (30 - k) ≤ 2 ^ 30 := Nat.pow_le_pow_right (by decide) (by omega)
    obtain ⟨hfits, io', hheld, hlen', htail, he⟩ := h.fill hroom (by omega)
    obtain ⟨io'', ha, hheld', hroom', hlen''⟩ := hheld.alloc (n := min (io.readbuf.len * 2) (2 ^ 31)) (by omega)
      (Nat.min_le_right _ _) (by omega)
    obtain ⟨acts, halong, hexec⟩ := ih hheld' hroom' (by omega) (by omega)
    rw [ha] at he
    exact ⟨_ :: acts, ⟨hfits, by simpa [he] using halong⟩, by simpa [Run.exec, he] using hexec⟩

end

/-- A delimiter and a fixed length, both admitted with a package limit of `2 ^ 31`, for which a buffer
size overflows: reading a package without a newline, and already `evio_set_unpack`. -/
theorem unpack_size_overflows :
    (∃ io₀ acts, evioSetUnpack ⟨.delimiter [10] 1, 2 ^ 31⟩ .fresh = some io₀ ∧
      Run.Along (feed .idle) Feed.Fits io₀ acts ∧ Run.exec (feed .idle) io₀ acts = none) ∧
    evioSetUnpack ⟨.fixedLength (2 ^ 31), 2 ^ 31⟩ .fresh = none := by
  constructor
  · obtain ⟨io₀, hset, hheld, hroom, hlen, -⟩ :
        ∃ io₀, evioSetUnpack ⟨.delimiter [10] 1, 2 ^ 31⟩ .fresh = some io₀ ∧ _ :=
      held_setUnpack (endingWith [10]) rfl ⟨rfl, rfl⟩ trivial (by decide) (by decide) (by decide)
    obtain ⟨acts, halong, hexec⟩ := Held.overflow (a := 0) (k := 17) hheld hroom (by decide) hlen
    exact ⟨io₀, acts, hset, halong, hexec⟩
  · exact evioSetUnpack_none (n := 2 ^ 31) rfl (by decide) (by decide) (by decide) _

end Yjc.Event
