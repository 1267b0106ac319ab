import Yjc.Event.UnpackLength
import Yjc.Event.UnpackStream

/-! Streams of packages with a length field, fed to an unpacking io in reads of any size. -/

namespace Yjc.Event
open Mem Yjc.Base

/-- The length of the head and the number the length field stores, once the whole head is there. -/
def header (f : LengthField) (xs : List UInt8) : Option (ℕ × ℕ) :=
  if xs.length < f.bodyOffset then none
  else
    let field := xs.drop f.lengthFieldOffset
    match f.lengthFieldCoding with
    | .bigEndian => some (f.bodyOffset, bigEndianValue (field.take f.lengthFieldBytes))
    | .littleEndian => some (f.bodyOffset, littleEndianValue (field.take f.lengthFieldBytes))
    | .varint => (varint (field.take 10)).map fun r => (f.bodyOffset + r.2 - f.lengthFieldBytes, r.1)

/-- A package of at most `m` bytes that is as long as its length field says. -/
def IsPackage (f : LengthField) (m : ℕ) (pkg : List UInt8) : Prop :=
  ∃ h v, header f pkg = some (h, v) ∧ 1 ≤ max f.bodyOffset h ∧ max f.bodyOffset h ≤ pkg.length ∧
    (pkg.length : ℤ) = packageLength f h v ∧ pkg.length ≤ m

instance (f : LengthField) (m : ℕ) : DecidablePred (IsPackage f m) := fun pkg =>
  match hh : header f pkg with
  | none => isFalse fun ⟨_, _, h, _⟩ => by simp [hh] at h
  | some (h, v) =>
    decidable_of_iff (1 ≤ max f.bodyOffset h ∧ max f.bodyOffset h ≤ pkg.length ∧
      (pkg.length : ℤ) = packageLength f h v ∧ pkg.length ≤ m) (by simp [IsPackage, hh])

section
variable {f : LengthField} {m : ℕ} {xs ys pkg : List UInt8}

theorem header_append (hf : f.lengthFieldOffset + f.lengthFieldBytes ≤ f.bodyOffset) {r : ℕ × ℕ}
    (h : header f xs = some r) : header f (xs ++ ys) = some r := by
  unfold header at h ⊢
  split_ifs at h with hshort
  rw [if_neg (by rw [List.length_append]; omega)]
  have hd : (xs ++ ys).drop f.lengthFieldOffset = xs.drop f.lengthFieldOffset ++ ys :=
    List.drop_append_of_le_length (by omega)
  have ht : (xs.drop f.lengthFieldOffset ++ ys).take f.lengthFieldBytes =
      (xs.drop f.lengthFieldOffset).take f.lengthFieldBytes :=
    List.take_append_of_le_length (by rw [List.length_drop]; omega)
  dsimp only at h ⊢
  rw [hd]
  cases hc : f.lengthFieldCoding with
  | bigEndian => simpa only [hc, ht] using h
  | littleEndian => simpa only [hc, ht] using h
  | varint =>
    simp only [hc, Option.map_eq_some_iff] at h ⊢
    obtain ⟨⟨v, n⟩, hv, hr⟩ := h
    refine ⟨(v, n), ?_, hr⟩
    obtain ⟨hpos, hn⟩ := varint_bytes hv
    have h10 : n ≤ 10 := Nat.le_trans hn (List.length_take_le _ _)
    have happ := varint_append ((xs.drop f.lengthFieldOffset).drop 10 ++ ys) hv
    rw [← List.append_assoc, List.take_append_drop] at happ
    exact varint_take happ h10

theorem isPackage_free (hf : f.lengthFieldOffset + f.lengthFieldBytes ≤ f.bodyOffset) (p q : List UInt8)
    (hp : IsPackage f m p) (hq : IsPackage f m q) (hpq : p <+: q) : p = q := by
  obtain ⟨zs, rfl⟩ := hpq
  obtain ⟨h, v, hh, -, -, hl, -⟩ := hp
  obtain ⟨h', v', hh', -, -, hl', -⟩ := hq
  rw [header_append hf hh] at hh'
  cases hh'
  have hz : (p ++ zs).length = p.length := by omega
  rw [List.length_append, Nat.add_eq_left, List.length_eq_zero_iff] at hz
  rw [hz, List.append_nil]

theorem IsPackage.length_le (hp : IsPackage f m pkg) : pkg.length ≤ m := by
  obtain ⟨h, v, -, -, -, -, hle⟩ := hp
  exact hle

theorem isPackage_nonempty (p : List UInt8) (hp : IsPackage f m p) : p ≠ [] := by
  obtain ⟨h, v, -, h1, hle, -, -⟩ := hp
  rintro rfl
  rw [List.length_nil] at hle
  omega

theorem storedLength_eq_header (hf : f.lengthFieldOffset + f.lengthFieldBytes ≤ f.bodyOffset) {mem : List UInt8}
    {p ep : ℕ} (hep : ep ≤ mem.length) (hb : f.bodyOffset ≤ ep - p) (hpe : p ≤ ep)
    (h4 : f.lengthFieldCoding = .littleEndian → f.lengthFieldBytes ≤ 4)
    (hv : f.lengthFieldCoding = .varint → f.lengthFieldOffset ≠ ep - p) :
    storedLength f mem p ep =
      match header f (slice mem p ep) with
      | some (h, v) => .lengths h v
      | none => if f.lengthFieldOffset + 10 ≤ ep - p then .tooBig else .short := by
  have hd : (slice mem p ep).drop f.lengthFieldOffset = slice mem (p + f.lengthFieldOffset) ep := drop_slice
  have ht : (slice mem (p + f.lengthFieldOffset) ep).take f.lengthFieldBytes =
      slice mem (p + f.lengthFieldOffset) (p + f.lengthFieldOffset + f.lengthFieldBytes) := take_slice (by omega)
  unfold storedLength header
  rw [if_neg (by rw [length_slice hep]; omega)]
  dsimp only
  rw [hd]
  cases hc : f.lengthFieldCoding with
  | bigEndian => simp only [ht]
  | littleEndian => simp only [ht, if_neg (Nat.not_lt.mpr (h4 hc))]
  | varint =>
    have hne := hv hc
    have hw : varintWindow (mem.drop (p + f.lengthFieldOffset)) (ep - (p + f.lengthFieldOffset)) =
        slice mem (p + f.lengthFieldOffset) ep := by
      rw [varintWindow, if_neg (by omega), slice, List.drop_take]
    simp only [hw]
    cases varint ((slice mem (p + f.lengthFieldOffset) ep).take 10) with
    | none =>
      simp only [Option.map_none, length_slice hep]
      split_ifs <;> first | rfl | omega
    | some r => rfl

theorem length_lt_of_header_none (hb : f.bodyOffset ≤ xs.length) (hn : header f xs = none) {r : ℕ × ℕ} (hr : header f (xs ++ ys) = some r) :
    f.lengthFieldCoding = .varint ∧ xs.length < f.lengthFieldOffset + 10 := by
  -- a head that is not there yet, although `body_offset` bytes are, is one whose varint goes on
  unfold header at hn hr
  rw [if_neg (by omega)] at hn
  rw [if_neg (by rw [List.length_append]; omega)] at hr
  dsimp only at hn hr
  cases hc : f.lengthFieldCoding with
  | bigEndian => simp [hc] at hn
  | littleEndian => simp [hc] at hn
  | varint =>
    refine ⟨rfl, ?_⟩
    by_contra hge
    rw [List.drop_append_of_le_length (by omega)] at hr
    simp only [hc] at hn hr
    rw [List.take_append_of_le_length (by rw [List.length_drop]; omega), hn] at hr
    cases hr

theorem lengthFieldOffset_lt (hf : f.lengthFieldOffset + f.lengthFieldBytes ≤ f.bodyOffset)
    (hc : f.lengthFieldCoding = .varint) {h v : ℕ} (hh : header f xs = some (h, v)) : f.lengthFieldOffset < h := by
  unfold header at hh
  split_ifs at hh
  simp only [hc, Option.map_eq_some_iff, Prod.mk.injEq] at hh
  obtain ⟨⟨w, n⟩, hw, rfl, -⟩ := hh
  have := (varint_bytes hw).1
  dsimp only
  omega

end

/-! ## The loop on a stream of packages -/

/-- The packages of a stream by their length fields. -/
def byLength (f : LengthField) (m : ℕ) : Framer UInt8 := .upTo (IsPackage f m)

section
variable {f : LengthField} {m : ℕ} (hf : f.lengthFieldOffset + f.lengthFieldBytes ≤ f.bodyOffset) (hm : m < 2 ^ 31)
  (h4 : f.lengthFieldCoding = .littleEndian → f.lengthFieldBytes ≤ 4)
include hf hm h4

theorem lengthBody_package {s : LengthLoop} {mem pkg zs : List UInt8} (hs : s.p + s.remain ≤ mem.length)
    (hp : IsPackage f m pkg) (hR : slice mem s.p (s.p + s.remain) = pkg ++ zs) :
    lengthBody .idle f mem s = .inl (s.deliver .idle mem pkg.length) := by
  obtain ⟨h, v, hh, h1, hmax, hl, hle⟩ := hp
  have hr : pkg.length ≤ s.remain := by
    have := congrArg List.length hR
    rw [length_slice hs, List.length_append] at this
    omega
  have hvar (hc : f.lengthFieldCoding = .varint) : f.lengthFieldOffset ≠ s.p + s.remain - s.p := by
    have := lengthFieldOffset_lt hf hc hh
    omega
  have hn : packageLen f h (v % 2 ^ 32) = pkg.length := by
    have := packageLen_eq f h v
    omega
  rw [lengthBody_eq hf hs (by omega), storedLength_eq_header hf hs (by omega) (by omega) h4 hvar, hR,
    header_append hf hh]
  dsimp only
  rw [hn, if_pos hr]

theorem lengthBody_rest {s : LengthLoop} {mem zs : List UInt8} (hs : s.p + s.remain ≤ mem.length) (hz : zs ≠ [])
    (hp : IsPackage f m (slice mem s.p (s.p + s.remain) ++ zs))
    (hv : f.lengthFieldCoding = .varint → f.lengthFieldOffset = f.bodyOffset → s.remain ≠ f.bodyOffset) :
    ∃ io n, lengthBody .idle f mem s = .inr (.rest { s with io := io, packageLen := n }) ∧
      (io = s.io ∨ io = s.io.log (.load s.p)) ∧
      (n = s.packageLen ∧ (s.remain < f.bodyOffset ∨
          f.bodyOffset ≤ s.remain ∧ header f (slice mem s.p (s.p + s.remain)) = none) ∨
        header f (slice mem s.p (s.p + s.remain)) ≠ none ∧ s.remain < n ∧ n ≤ m) := by
  by_cases hb : s.remain < f.bodyOffset
  · refine ⟨s.io, s.packageLen, ?_, .inl rfl, .inl ⟨rfl, .inl hb⟩⟩
    rw [lengthBody, if_pos hb]
  have hlen : (slice mem s.p (s.p + s.remain)).length = s.remain := by
    rw [length_slice hs]
    omega
  obtain ⟨h, v, hh, h1, hmax, hl, hle⟩ := hp
  -- `varint_decode` takes a length of 0 for no bound
  have hvar (hc : f.lengthFieldCoding = .varint) : f.lengthFieldOffset ≠ s.p + s.remain - s.p := by
    intro h0
    exact hv hc (by omega) (by omega)
  have hbody : lengthBody .idle f mem s = _ := lengthBody_eq hf hs (by omega)
  rw [storedLength_eq_header hf hs (by omega) (by omega) h4 hvar] at hbody
  cases hd : header f (slice mem s.p (s.p + s.remain)) with
  | none =>
    obtain ⟨-, hlt⟩ := length_lt_of_header_none (by omega) hd hh
    simp only [hd] at hbody
    rw [if_neg (by omega)] at hbody
    exact ⟨_, s.packageLen, hbody, .inr rfl, .inl ⟨rfl, .inr ⟨by omega, rfl⟩⟩⟩
  | some r =>
    rw [header_append hf hd] at hh
    cases hh
    have hn := packageLen_eq f h v
    -- the length is there, and the package is longer than what has come
    have hlong : s.remain < packageLen f h (v % 2 ^ 32) := by
      rw [List.length_append, hlen] at hl hle
      have := List.length_pos_iff.mpr hz
      omega
    simp only [hd] at hbody
    rw [if_neg (by omega)] at hbody
    refine ⟨_, _, hbody, .inr rfl, .inr ⟨by simp, hlong, ?_⟩⟩
    omega

/-- The loop has come to the start of a package of the stream. `packageLen` is stale there: the
offset of the body before the first package, the length of the last one after it. -/
structure OnStream (f : LengthField) (m : ℕ) (io : Evio) (s : LengthLoop) : Prop where
  pos : s.p + s.remain = io.readbuf.tail
  cut : Cutting (byLength f m) io.readbuf.mem io.readbuf.tail io io.readbuf.head s.io s.p
  started : Framer.Started (IsPackage f m) (slice io.readbuf.mem s.p io.readbuf.tail)
  stale : s.packageLen = f.bodyOffset ∨
    0 < s.packageLen ∧ s.packageLen + s.remain ≤ io.readbuf.len ∧ s.packageLen ≤ m

section
variable {io : Evio} (hok : io.readbuf.Ok) {s : LengthLoop} (hs : OnStream f m io s)
include hok hs

theorem OnStream.package {pkg zs : List UInt8} (hp : IsPackage f m pkg)
    (hR : slice io.readbuf.mem s.p io.readbuf.tail = pkg ++ zs) :
    lengthBody .idle f io.readbuf.mem s = .inl (s.deliver .idle io.readbuf.mem pkg.length) ∧
      OnStream f m io (s.deliver .idle io.readbuf.mem pkg.length) ∧ 0 < pkg.length ∧ pkg.length ≤ s.remain := by
  obtain ⟨hmem, hhead, htail⟩ := hok
  obtain ⟨hpos, hcut, hst, hstale⟩ := hs
  have hnonempty := List.length_pos_iff.mpr (isPackage_nonempty pkg hp)
  have hle : pkg.length ≤ s.remain := by
    have hl := congrArg List.length hR
    rw [length_slice (by omega), List.length_append] at hl
    omega
  have hnext : (byLength f m).next (slice io.readbuf.mem s.p io.readbuf.tail) = some pkg.length := by
    rw [byLength, Framer.upTo_next_of_append (isPackage_free hf) isPackage_nonempty hp ((List.append_nil _).trans hR),
      hR, if_pos (by simp)]
  have hdrop := Framer.Started.drop (isPackage_free hf) isPackage_nonempty
    (show Framer.Started (IsPackage f m) (slice io.readbuf.mem s.p io.readbuf.tail ++ []) by rwa [List.append_nil]) hnext
  rw [List.append_nil, drop_slice] at hdrop
  have hlem := hp.length_le
  refine ⟨lengthBody_package hf hm h4 (by omega) hp (by rwa [hpos]),
    ⟨?_, (hcut.load s.p).deliver (by omega) hnext, hdrop, .inr ⟨hnonempty, ?_, hlem⟩⟩, hnonempty, hle⟩ <;>
    dsimp only [LengthLoop.deliver] <;> omega

theorem OnStream.rest {zs : List UInt8} (hz : zs ≠ [])
    (hp : IsPackage f m (slice io.readbuf.mem s.p io.readbuf.tail ++ zs))
    (hv : f.lengthFieldCoding = .varint → f.lengthFieldOffset = f.bodyOffset →
      ((byLength f m).rest io.readbuf.pending).length ≠ f.bodyOffset) :
    ∃ t, lengthBody .idle f io.readbuf.mem s = .inr (.rest t) ∧ t.p + t.remain = io.readbuf.tail ∧
      Reports io t.io ((byLength f m).packages io.readbuf.pending) ∧
      slice io.readbuf.mem t.p io.readbuf.tail = (byLength f m).rest io.readbuf.pending ∧ t.packageLen ≤ m ∧
      (f.bodyOffset ≤ t.remain → header f ((byLength f m).rest io.readbuf.pending) = none →
        t.packageLen ≤ io.readbuf.len) ∧
      (t.remain < io.readbuf.len ∨ t.remain < t.packageLen ∨
        f.bodyOffset ≤ t.remain ∧ header f ((byLength f m).rest io.readbuf.pending) = none) := by
  obtain ⟨hmem, hhead, htail⟩ := hok
  obtain ⟨hpos, hcut, hst, hstale⟩ := hs
  -- what is left is a proper front of a package
  have hnext : (byLength f m).next (slice io.readbuf.mem s.p io.readbuf.tail) = none := by
    rw [byLength, Framer.upTo_next_of_append (isPackage_free hf) isPackage_nonempty hp (List.append_nil _).symm, if_neg]
    rw [List.length_append]
    have := List.length_pos_iff.mpr hz
    omega
  obtain ⟨hrep, hrest⟩ := hcut.finish hnext
  have hlen : (slice io.readbuf.mem s.p io.readbuf.tail).length = s.remain := by
    rw [length_slice (by omega)]
    omega
  rw [← show slice io.readbuf.mem s.p io.readbuf.tail = (byLength f m).rest io.readbuf.pending from hrest] at hv ⊢
  rw [hlen] at hv
  obtain ⟨io', n, he, hio, hn⟩ : ∃ io' n, lengthBody .idle f io.readbuf.mem s = _ ∧ _ :=
    lengthBody_rest hf hm h4 (by omega) hz (by rwa [hpos]) hv
  obtain ⟨h, v, -, -, hmax, -, hlem⟩ := hp
  refine ⟨_, he, hpos, ?_, rfl, ?_, ?_, ?_⟩
  · rcases hio with rfl | rfl
    · exact hrep
    · exact hrep.load s.p
  · dsimp only
    omega
  · intro hb hd
    rw [hpos] at hn
    dsimp only at hb ⊢
    rcases hn with ⟨rfl, -⟩ | ⟨hne, -⟩
    · omega
    · exact absurd hd hne
  · rw [hpos] at hn
    dsimp only
    rcases hn with ⟨rfl, hb | hb⟩ | ⟨-, hlt, -⟩
    · omega
    · exact .inr (.inr hb)
    · exact .inr (.inl hlt)

end

/-- The loop on a buffer that a stream of packages has come to. -/
theorem evioUnpackByLengthField_idle {io : Evio} (hok : io.readbuf.Ok) (buf readbytes : ℕ)
    (hbuf : buf + readbytes = io.readbuf.tail) (hstart : Framer.Started (IsPackage f m) io.readbuf.pending)
    (hv : f.lengthFieldCoding = .varint → f.lengthFieldOffset = f.bodyOffset →
      ((byLength f m).rest io.readbuf.pending).length ≠ f.bodyOffset) :
    ∃ io' handled k, Unpacked (byLength f m) io io' ∧ k ≤ m ∧
      (f.bodyOffset ≤ io'.readbuf.tail → header f ((byLength f m).rest io.readbuf.pending) = none →
        k ≤ io.readbuf.len) ∧
      (io'.readbuf.tail < io.readbuf.len ∨ io'.readbuf.tail < k ∨
        f.bodyOffset ≤ io'.readbuf.tail ∧ header f ((byLength f m).rest io.readbuf.pending) = none) ∧
      evioUnpackByLengthField .idle f m buf readbytes io =
        if io'.readbuf.tail ≠ 0 ∧ io'.readbuf.len < k then
          (evioAllocReadbuf (cInt (limit k (io'.readbuf.len * 2) m)) io').map fun io => (io, handled)
        else some (io', handled) := by
  have hhead := hok.head_le
  have htail := hok.tail_le
  have hmem := hok.mem_length
  let Post (r : LengthExit) := ∃ t, r = .rest t ∧ t.p + t.remain = io.readbuf.tail ∧
    Reports io t.io ((byLength f m).packages io.readbuf.pending) ∧
    slice io.readbuf.mem t.p io.readbuf.tail = (byLength f m).rest io.readbuf.pending ∧ t.packageLen ≤ m ∧
    (f.bodyOffset ≤ t.remain → header f ((byLength f m).rest io.readbuf.pending) = none →
      t.packageLen ≤ io.readbuf.len) ∧
    (t.remain < io.readbuf.len ∨ t.remain < t.packageLen ∨
      f.bodyOffset ≤ t.remain ∧ header f ((byLength f m).rest io.readbuf.pending) = none)
  -- a package at the front is handed out; else the loop ends there
  have round (s t : LengthLoop) (hs : OnStream f m io s) (h : lengthBody .idle f io.readbuf.mem s = .inl t) :
      OnStream f m io t ∧ t.remain < s.remain := by
    rcases hs.started.first with ⟨pkg, zs, hp, hR⟩ | ⟨zs, hz, hp⟩
    · obtain ⟨he, ht, hpos, hle⟩ := hs.package hf hm h4 hok hp hR
      rw [he] at h
      cases h
      refine ⟨ht, ?_⟩
      dsimp only [LengthLoop.deliver]
      omega
    · obtain ⟨_, he, -⟩ := hs.rest hf hm h4 hok hz hp hv
      rw [he] at h
      cases h
  have leave (s : LengthLoop) (r : LengthExit) (hs : OnStream f m io s)
      (h : lengthBody .idle f io.readbuf.mem s = .inr r) : Post r := by
    rcases hs.started.first with ⟨pkg, zs, hp, hR⟩ | ⟨zs, hz, hp⟩
    · obtain ⟨he, -⟩ := hs.package hf hm h4 hok hp hR
      rw [he] at h
      cases h
    · obtain ⟨t, he, ht⟩ := hs.rest hf hm h4 hok hz hp hv
      rw [he] at h
      cases h
      exact ⟨t, rfl, ht⟩
  have start : OnStream f m io (lengthStart f buf readbytes io) := by
    refine ⟨?_, Cutting.start hhead io, hstart, .inl rfl⟩
    dsimp only [lengthStart]
    omega
  obtain ⟨_, hr, t, rfl, hpos, hrep, hrest, hk, hstale, hfree⟩ :=
    Loop.run_of_measure _ (OnStream f m io) Post LengthLoop.remain round leave start (Nat.lt_succ_self _)
  have hu : Unpacked (byLength f m) io (keepRest io.readbuf.base io.readbuf.mem t.p t.remain t.io) :=
    hrep.keepRest (by omega) (by rwa [hpos])
  refine ⟨_, t.handled, t.packageLen, hu, hk, by rwa [keepRest_tail], by rwa [keepRest_tail], ?_⟩
  unfold evioUnpackByLengthField
  dsimp only
  rw [hr, Option.bind_some, keepRest_tail]
  dsimp only
  rw [if_neg (Nat.not_lt.mpr hk)]

end

/-! ## Whole streams -/

/-- What is left after the read can be decoded and leaves room for more: a little-endian field fits
the word, a varint field is not looked for behind the last byte, and a varint that goes on does not
fill the buffer. -/
def LengthReadable (f : LengthField) (m : ℕ) (io : Evio) : Feed → Prop
  | .read bytes =>
    let r := (byLength f m).rest (io.readbuf.pending ++ bytes)
    (f.lengthFieldCoding = .littleEndian → f.lengthFieldBytes ≤ 4) ∧
      (f.lengthFieldCoding = .varint → f.lengthFieldOffset = f.bodyOffset → r.length ≠ f.bodyOffset) ∧
      (f.bodyOffset ≤ r.length → header f r = none → r.length < io.readbuf.len)
  | .autosize => True

instance (f : LengthField) (m : ℕ) (io : Evio) : (a : Feed) → Decidable (LengthReadable f m io a)
  | .read _ => inferInstanceAs (Decidable (_ ∧ _ ∧ _))
  | .autosize => inferInstanceAs (Decidable True)

theorem le_limit {k v m : ℕ} (h : k ≤ m) : k ≤ limit k v m ∧ limit k v m ≤ m := by
  unfold limit
  split_ifs <;> omega

section
variable {f : LengthField} {m : ℕ} {start io : Evio} {xs : List UInt8}
  (hf : f.lengthFieldOffset + f.lengthFieldBytes ≤ f.bodyOffset) (hm : m < 2 ^ 31)
include hf hm

theorem Held.readLengthField (h : Held ⟨.lengthField f, m⟩ (byLength f m) start xs io) {bytes : List UInt8}
    (hlen : bytes.length ≤ io.readbuf.len - io.readbuf.tail)
    (hst : Framer.Started (IsPackage f m) (xs ++ bytes))
    (h4 : f.lengthFieldCoding = .littleEndian → f.lengthFieldBytes ≤ 4)
    (hv : f.lengthFieldCoding = .varint → f.lengthFieldOffset = f.bodyOffset →
      ((byLength f m).rest (xs ++ bytes)).length ≠ f.bodyOffset) :
    ∃ io' k, Held ⟨.lengthField f, m⟩ (byLength f m) start (xs ++ bytes) io' ∧
      io'.readbuf.len = io.readbuf.len ∧ k ≤ m ∧
      (f.bodyOffset ≤ io'.readbuf.tail → header f ((byLength f m).rest (xs ++ bytes)) = none → k ≤ io'.readbuf.len) ∧
      (io'.readbuf.tail < io'.readbuf.len ∨ io'.readbuf.tail < k ∨
        f.bodyOffset ≤ io'.readbuf.tail ∧ header f ((byLength f m).rest (xs ++ bytes)) = none) ∧
      feed .idle io (.read bytes) =
        if io'.readbuf.tail ≠ 0 ∧ io'.readbuf.len < k then
          evioAllocReadbuf (cInt (limit k (io'.readbuf.len * 2) m)) io'
        else some io' := by
  obtain ⟨hok, hpend, -⟩ := h.store hlen
  have hrest : (byLength f m).rest (nioReadStore bytes io).readbuf.pending = (byLength f m).rest (xs ++ bytes) := by
    rw [hpend, ← Framer.rest_append]
  have hst' : Framer.Started (IsPackage f m) (nioReadStore bytes io).readbuf.pending := by
    rw [hpend]
    exact hst.rest (isPackage_free hf) isPackage_nonempty
  obtain ⟨io', handled, k, hu, hk, hstale, hfree, he⟩ :=
    evioUnpackByLengthField_idle hf hm h4 hok io.readbuf.tail bytes.length rfl hst' (by rwa [hrest])
  obtain ⟨hheld, hlen'⟩ := h.unpacked hlen hu
  rw [hrest, ← hu.len] at hstale hfree
  refine ⟨io', k, hheld, hlen', hk, hstale, hfree, ?_⟩
  rw [feed, h.setting, Option.bind_some, evioUnpack]
  dsimp only
  rw [he]
  split_ifs
  · rw [Option.map_map]
    exact Option.map_id'
  · rfl

theorem Held.feedLengthField (h : Held ⟨.lengthField f, m⟩ (byLength f m) start xs io)
    (hroom : io.readbuf.tail < io.readbuf.len) {a : Feed} (hfit : a.Fits io) (hread : LengthReadable f m io a)
    (hst : Framer.Started (IsPackage f m) (xs ++ a.bytes)) :
    ∃ io', feed .idle io a = some io' ∧ Held ⟨.lengthField f, m⟩ (byLength f m) start (xs ++ a.bytes) io' ∧
      io'.readbuf.tail < io'.readbuf.len := by
  cases a with
  | autosize =>
    rw [Feed.bytes, List.append_nil]
    exact h.autosize hroom
  | read bytes =>
    rw [LengthReadable, h.pending, ← Framer.rest_append] at hread
    obtain ⟨h4, hv, hshort⟩ := hread
    obtain ⟨io₁, k, hheld, hlen, hk, -, hfree, he⟩ := h.readLengthField hf hm hfit.2.2 hst h4 hv
    rw [← hheld.tail_eq, ← hlen] at hshort
    have hfree' : io₁.readbuf.tail < io₁.readbuf.len ∨ io₁.readbuf.tail < k := by
      rcases hfree with hfree | hfree | ⟨hb, hd⟩
      · exact .inl hfree
      · exact .inr hfree
      · exact .inl (hshort hb hd)
    rw [he]
    split_ifs with hgrow
    · obtain ⟨hlo, hhi⟩ : k ≤ limit k (io₁.readbuf.len * 2) m ∧ limit k (io₁.readbuf.len * 2) m ≤ m := le_limit hk
      obtain ⟨io', ha, hheld', hroom', -⟩ := hheld.alloc (n := limit k (io₁.readbuf.len * 2) m) (by omega) hhi (by omega)
      exact ⟨io', ha, hheld', hroom'⟩
    · exact ⟨io₁, rfl, hheld, by omega⟩

theorem Held.execLengthField (h : Held ⟨.lengthField f, m⟩ (byLength f m) start xs io)
    (hroom : io.readbuf.tail < io.readbuf.len) {acts : List Feed} (hfits : Run.Along (feed .idle) Feed.Fits io acts)
    (hread : Run.Along (feed .idle) (LengthReadable f m) io acts)
    (hst : Framer.Started (IsPackage f m) (xs ++ acts.flatMap Feed.bytes)) :
    ∃ t, Run.exec (feed .idle) io acts = some t ∧
      Held ⟨.lengthField f, m⟩ (byLength f m) start (xs ++ acts.flatMap Feed.bytes) t ∧
      t.readbuf.tail < t.readbuf.len := by
  induction acts generalizing xs io with
  | nil => exact ⟨io, rfl, by simpa using h, hroom⟩
  | cons a acts ih =>
    rw [List.flatMap_cons, ← List.append_assoc] at hst ⊢
    obtain ⟨u, hu, h', hroom'⟩ := h.feedLengthField hf hm hroom hfits.1 hread.1 hst.of_append
    obtain ⟨t, ht, h''⟩ := ih h' hroom' (hfits.2 u hu) (hread.2 u hu) hst
    exact ⟨t, Run.exec_cons.mpr ⟨u, hu, ht⟩, h''⟩

end

/-- However a stream of packages with a length field is cut into reads, the packages are delivered in
order and what there is of the next one is kept, with room for more, as long as the field can be
decoded and a varint that goes on does not fill the buffer. -/
theorem unpackByLengthField_independent_of_cuts (s : UnpackSetting) (f : LengthField) (hs : s.mode = .lengthField f)
    (hf : f.lengthFieldOffset + f.lengthFieldBytes ≤ f.bodyOffset)
    (hmax : s.withDefaults.packageMaxLength ≤ 2 ^ 31 - 1) (io : Evio) (hopen : io.closed = false)
    (hempty : io.readbuf.head = 0 ∧ io.readbuf.tail = 0) :
    ∃ io₀, evioSetUnpack s io = some io₀ ∧ ∀ acts pkgs r q,
      (∀ pkg ∈ pkgs, IsPackage f s.withDefaults.packageMaxLength pkg) →
      q ≠ [] → IsPackage f s.withDefaults.packageMaxLength (r ++ q) →
      acts.flatMap Feed.bytes = pkgs.flatten ++ r →
      Run.Along (feed .idle) Feed.Fits io₀ acts →
      Run.Along (feed .idle) (LengthReadable f s.withDefaults.packageMaxLength) io₀ acts →
      ∃ t, Run.exec (feed .idle) io₀ acts = some t ∧ t.delivered = io.delivered ++ pkgs ∧
        t.readbuf.Ok ∧ t.readbuf.head = 0 ∧ t.readbuf.pending = r ∧ t.readbuf.tail < t.readbuf.len ∧
        t.closed = false ∧ t.posted = io.posted := by
  have hw : s.withDefaults = ⟨.lengthField f, s.withDefaults.packageMaxLength⟩ := by
    simp [UnpackSetting.withDefaults, hs, UnpackMode.withDefaults]
  have hl : s.withDefaults.readbufLen = min evloopReadBufsize s.withDefaults.packageMaxLength := by
    rw [hw, UnpackSetting.readbufLen]
  have hm := packageMaxLength_pos s
  have h8 : evloopReadBufsize = 8192 := rfl
  obtain ⟨io₀, hset, hheld, hroom, -, -⟩ := held_setUnpack (byLength f s.withDefaults.packageMaxLength) hopen hempty
    (by rw [hw]; exact hf) (by omega) (by omega) (by omega)
  rw [hw] at hheld
  generalize s.withDefaults.packageMaxLength = m at *
  refine ⟨io₀, hset, fun acts pkgs r q hp hq hr he hfits hread => ?_⟩
  have hst : Framer.Started (IsPackage f m) ([] ++ acts.flatMap Feed.bytes) := by
    refine ⟨q, pkgs ++ [r ++ q], hq, fun pkg hpkg => ?_, by simp [he]⟩
    rcases List.mem_append.mp hpkg with hpkg | hpkg
    · exact hp pkg hpkg
    · rwa [List.mem_singleton.mp hpkg]
  obtain ⟨t, ht, h, hroom'⟩ := hheld.execLengthField hf (by omega) hroom hfits hread hst
  obtain ⟨hpk, hre⟩ := Framer.packages_rest_of_flatten (isPackage_free hf) isPackage_nonempty hp hq hr
  have hdel := h.delivered
  have hpend := h.pending
  rw [List.nil_append, he] at hdel hpend
  exact ⟨t, ht, hdel.trans (congrArg _ hpk), h.ok, h.head, hpend.trans hre, hroom', h.isOpen, h.posted⟩

/-- A varint of one byte or more in front of the body. -/
def varintField : LengthField where
  bodyOffset := 1
  lengthFieldOffset := 0
  lengthFieldBytes := 1
  lengthAdjustment := 0
  lengthFieldCoding := .varint

theorem unpackByLengthField_independent_of_cuts_varint :
    ∃ io₀ t, evioSetUnpack ⟨.lengthField varintField, 6⟩ .fresh = some io₀ ∧
      Run.exec (feed .idle) io₀ [.read [2, 7], .autosize, .read [8, 130, 0], .read [9, 9, 1]] = some t ∧
      t.delivered = [[2, 7, 8], [130, 0, 9, 9]] ∧ t.readbuf.pending = [1] := by
  obtain ⟨io₀, hset, h⟩ := unpackByLengthField_independent_of_cuts ⟨.lengthField varintField, 6⟩ varintField rfl
    (by decide) (by decide) .fresh rfl ⟨rfl, rfl⟩
  have hfits : ∀ io ∈ evioSetUnpack ⟨.lengthField varintField, 6⟩ .fresh, Run.Along (feed .idle) Feed.Fits io
      [.read [2, 7], .autosize, .read [8, 130, 0], .read [9, 9, 1]] := by decide
  have hread : ∀ io ∈ evioSetUnpack ⟨.lengthField varintField, 6⟩ .fresh, Run.Along (feed .idle)
      (LengthReadable varintField 6) io [.read [2, 7], .autosize, .read [8, 130, 0], .read [9, 9, 1]] := by decide
  obtain ⟨t, ht, hdel, -, -, hpend, -⟩ := h [.read [2, 7], .autosize, .read [8, 130, 0], .read [9, 9, 1]]
    [[2, 7, 8], [130, 0, 9, 9]] [1] [5] (by decide) (by decide) (by decide) rfl (hfits io₀ hset) (hread io₀ hset)
  exact ⟨io₀, t, hset, ht, hdel, hpend⟩

/-- A varint whose second byte is the first one that a buffer of 8192 bytes has no room for. -/
def lateVarintField : LengthField where
  bodyOffset := 8192
  lengthFieldOffset := 8191
  lengthFieldBytes := 1
  lengthAdjustment := 0
  lengthFieldCoding := .varint

/-- The first 8192 bytes of a package of 8421 bytes, and the others. -/
def lateFront : List UInt8 := List.replicate lateVarintField.lengthFieldOffset 0 ++ [228]

def lateBack : List UInt8 := 1 :: List.replicate 228 0

theorem length_lateFront : lateFront.length = 8192 := by
  rw [lateFront, List.length_append, List.length_replicate]
  rfl

theorem header_lateFront_append (ys : List UInt8) :
    header lateVarintField (lateFront ++ ys) =
      (varint ((228 :: ys).take 10)).map fun r => (lateVarintField.bodyOffset + r.2 - 1, r.1) := by
  have hd : (lateFront ++ ys).drop lateVarintField.lengthFieldOffset = 228 :: ys := by
    rw [lateFront, List.append_assoc, List.drop_left' List.length_replicate]
    rfl
  have hl : ¬(lateFront ++ ys).length < lateVarintField.bodyOffset := by
    rw [List.length_append, length_lateFront]
    exact Nat.not_lt.mpr (Nat.le_add_right _ _)
  rw [header, if_neg hl, hd]
  rfl

theorem isPackage_late : IsPackage lateVarintField 10000 (lateFront ++ lateBack) := by
  have hlen : (lateFront ++ lateBack).length = 8421 := by
    rw [List.length_append, length_lateFront, lateBack, List.length_cons, List.length_replicate]
  have hh : header lateVarintField (lateFront ++ lateBack) = some (8193, 228) := by
    rw [header_lateFront_append]
    decide
  refine ⟨8193, 228, hh, by decide, ?_, ?_, ?_⟩ <;> rw [hlen] <;> decide

/-- The front of the package fills the buffer and leaves no room, and resizing the buffer then asks
for the io to be closed. -/
theorem unpackByLengthField_varint_fills :
    IsPackage lateVarintField 10000 (lateFront ++ lateBack) ∧
    ∃ io₀ t u, evioSetUnpack ⟨.lengthField lateVarintField, 10000⟩ .fresh = some io₀ ∧
      Feed.Fits io₀ (.read lateFront) ∧ feed .idle io₀ (.read lateFront) = some t ∧
      t.readbuf.tail = t.readbuf.len ∧ feed .idle t .autosize = some u ∧ u.posted ≠ [] := by
  constructor
  · exact isPackage_late
  obtain ⟨io₀, hset, hheld, hroom, hlen, -⟩ :
      ∃ io₀, evioSetUnpack ⟨.lengthField lateVarintField, 10000⟩ .fresh = some io₀ ∧ _ :=
    held_setUnpack (byLength lateVarintField 10000) rfl ⟨rfl, rfl⟩ (by decide) (by decide) (by decide) (by decide)
  replace hlen : io₀.readbuf.len = 8192 := hlen
  replace hheld : Held ⟨.lengthField lateVarintField, 10000⟩ (byLength lateVarintField 10000) .fresh [] io₀ := hheld
  have htail : io₀.readbuf.tail = 0 := hheld.tail_eq
  have hback : lateBack ≠ [] := by simp [lateBack]
  have hst : Framer.Started (IsPackage lateVarintField 10000) ([] ++ lateFront) :=
    ⟨lateBack, [lateFront ++ lateBack], hback, by simpa using isPackage_late, by simp⟩
  have hnil : ∀ pkg ∈ ([] : List (List UInt8)), IsPackage lateVarintField 10000 pkg := by simp
  have hrest : (byLength lateVarintField 10000).rest ([] ++ lateFront) = lateFront :=
    (Framer.packages_rest_of_flatten (isPackage_free (by decide)) isPackage_nonempty hnil hback isPackage_late).2
  have hnone : header lateVarintField lateFront = none := by
    rw [← List.append_nil lateFront, header_lateFront_append]
    decide
  obtain ⟨t, k, ht, htlen, -, hstale, -, he⟩ := hheld.readLengthField (by decide) (by decide)
    (by rw [length_lateFront, hlen, htail]) hst (by decide) (by decide)
  have hfull : t.readbuf.tail = 8192 := by rw [ht.tail_eq, hrest, length_lateFront]
  rw [hrest] at hstale
  have hk := hstale (by rw [hfull]; decide) hnone
  rw [if_neg (by omega)] at he
  refine ⟨io₀, t, evioCloseAsync t, hset, ⟨hheld.isOpen, ?_, ?_⟩, he, by omega, ?_, by simp [evioCloseAsync]⟩
  · exact List.ne_nil_of_length_pos (by rw [length_lateFront]; decide)
  · rw [length_lateFront, hlen, htail]
  · have h2 : ((t.readbuf.len : ℤ) * 2) = (16384 : ℕ) := by omega
    have hne : t.readbuf.head ≠ t.readbuf.tail := by rw [ht.head, hfull]; decide
    rw [feed, evioAutosizeReadbuf]
    simp only [if_neg hne]
    rw [if_pos (by omega), if_pos ht.head, h2, cInt_of_lt (by decide), evioAllocReadbuf, if_pos]
    rw [ht.max]
    decide

end Yjc.Event
