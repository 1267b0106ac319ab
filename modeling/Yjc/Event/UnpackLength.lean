import Yjc.Event.Unpack

/-! Lengths of length-field framing: the sum over the integers that `unpack_setting_t` documents, and
when the 32-bit loop of `evio_unpack_by_length_field` keeps to it and comes to an end. -/

namespace Yjc.Event
open Mem Yjc.Base

def bigEndianValue (bytes : List UInt8) : ℕ := bytes.foldl (fun v b => v * 256 + b.toNat) 0

def littleEndianValue : List UInt8 → ℕ
  | [] => 0
  | b :: bs => b.toNat + 256 * littleEndianValue bs

theorem bigEndian_eq (bytes : List UInt8) : bigEndian bytes = bigEndianValue bytes % 2 ^ 32 := by
  have step (v : ℕ) (b : UInt8) :
      ((v % 2 ^ 32) <<< 8 ||| b.toNat) % 2 ^ 32 = (v * 256 + b.toNat) % 2 ^ 32 := by
    rw [← Nat.shiftLeft_add_eq_or_of_lt b.toNat_lt, Nat.shiftLeft_eq]
    omega
  have fold (v : ℕ) : bytes.foldl (fun w b => (w <<< 8 ||| b.toNat) % 2 ^ 32) (v % 2 ^ 32) =
      bytes.foldl (fun w b => w * 256 + b.toNat) v % 2 ^ 32 := by
    induction bytes generalizing v with
    | nil => rfl
    | cons b bs ih => simp only [List.foldl_cons, step, ih]
  exact fold 0

theorem littleEndian_some (bytes : List UInt8) (i v : ℕ) (hv : v < 2 ^ (i * 8)) (hi : i + bytes.length ≤ 4) :
    littleEndian bytes i v = some (v + littleEndianValue bytes * 2 ^ (i * 8)) := by
  induction bytes generalizing i v with
  | nil => simp [littleEndian, littleEndianValue]
  | cons b bs ih =>
    rw [List.length_cons] at hi
    have hb : b.toNat < 2 ^ 8 := b.toNat_lt
    have hpow : 2 ^ ((i + 1) * 8) = 2 ^ (i * 8) * 256 := by rw [Nat.succ_mul, Nat.pow_add]
    have hword : 2 ^ ((i + 1) * 8) ≤ 2 ^ 32 := Nat.pow_le_pow_right (by decide) (by omega)
    have hsum : v + b.toNat * 2 ^ (i * 8) < 2 ^ ((i + 1) * 8) := by
      have := Nat.mul_le_mul_right (2 ^ (i * 8)) (show b.toNat ≤ 255 by omega)
      omega
    have hor : v ||| (b.toNat <<< (i * 8)) % 2 ^ 32 = v + b.toNat * 2 ^ (i * 8) := by
      rw [Nat.mod_eq_of_lt (by rw [Nat.shiftLeft_eq]; omega), Nat.or_comm, ← Nat.shiftLeft_add_eq_or_of_lt hv,
        Nat.shiftLeft_eq, Nat.add_comm]
    rw [littleEndian, if_neg (by omega), hor, ih _ _ hsum (by omega), littleEndianValue, hpow]
    congr 1
    ring

theorem littleEndian_none (bytes : List UInt8) (i v : ℕ) (hi : i ≤ 4) (h : 4 < i + bytes.length) :
    littleEndian bytes i v = none := by
  induction bytes generalizing i v with
  | nil =>
    simp only [List.length_nil] at h
    omega
  | cons b bs ih =>
    rw [littleEndian]
    split
    · rfl
    · rw [List.length_cons] at h
      exact ih _ _ (by omega) (by omega)

theorem littleEndian_eq (bytes : List UInt8) :
    littleEndian bytes 0 0 = if 4 < bytes.length then none else some (littleEndianValue bytes) := by
  split
  · exact littleEndian_none bytes 0 0 (Nat.zero_le 4) (by omega)
  · simpa using littleEndian_some bytes 0 0 (by decide) (by omega)

theorem littleEndianValue_lt (bytes : List UInt8) : littleEndianValue bytes < 256 ^ bytes.length := by
  induction bytes with
  | nil => simp [littleEndianValue]
  | cons b bs ih =>
    have hb := b.toNat_lt
    rw [littleEndianValue, List.length_cons, Nat.pow_succ]
    omega

/-- The length of the head at `p` and the number its length field stores, over the integers. -/
def storedLength (f : LengthField) (mem : List UInt8) (p ep : ℕ) : LengthRead :=
  let lp := p + f.lengthFieldOffset
  match f.lengthFieldCoding with
  | .bigEndian => .lengths f.bodyOffset (bigEndianValue (slice mem lp (lp + f.lengthFieldBytes)))
  | .littleEndian =>
    if 4 < f.lengthFieldBytes then .undefined
    else .lengths f.bodyOffset (littleEndianValue (slice mem lp (lp + f.lengthFieldBytes)))
  | .varint =>
    let window := varintWindow (mem.drop lp) (ep - lp)
    match varint (window.take 10) with
    | some (v, n) => .lengths (f.bodyOffset + n - f.lengthFieldBytes) v
    | none => if 10 ≤ window.length then .tooBig else if ep - lp = 0 then .undefined else .short

/-- `package_len` as `unpack_setting_t` documents it. -/
def packageLength (f : LengthField) (headLen bodyLen : ℕ) : ℤ := headLen + bodyLen + f.lengthAdjustment

theorem readLength_eq {f : LengthField} {mem : List UInt8} {p ep : ℕ}
    (hf : f.lengthFieldOffset + f.lengthFieldBytes ≤ f.bodyOffset) (hp : p + f.bodyOffset ≤ ep)
    (hep : ep ≤ mem.length) :
    readLength f mem p ep =
      match storedLength f mem p ep with
      | .lengths h v => .lengths h (v % 2 ^ 32)
      | r => r := by
  unfold readLength storedLength
  cases f.lengthFieldCoding with
  | bigEndian => simp only [bigEndian_eq]
  | littleEndian =>
    have hl : (slice mem (p + f.lengthFieldOffset) (p + f.lengthFieldOffset + f.lengthFieldBytes)).length =
        f.lengthFieldBytes := by
      rw [length_slice (by omega)]
      omega
    simp only [littleEndian_eq, hl]
    split_ifs with h4
    · rfl
    -- four bytes at most, which fit a word
    have hlt := littleEndianValue_lt
      (slice mem (p + f.lengthFieldOffset) (p + f.lengthFieldOffset + f.lengthFieldBytes))
    have hword : 256 ^ f.lengthFieldBytes ≤ 256 ^ 4 := Nat.pow_le_pow_right (by decide) (by omega)
    rw [hl] at hlt
    dsimp only
    rw [Nat.mod_eq_of_lt (by omega)]
  | varint =>
    have ho : ep - (p + f.lengthFieldOffset) = 0 ∨
        (mem.drop (p + f.lengthFieldOffset)).length < ep - (p + f.lengthFieldOffset) ↔
        ep - (p + f.lengthFieldOffset) = 0 := by
      rw [List.length_drop]
      omega
    simp only [varintDecode_eq, ho]
    cases varint ((varintWindow (mem.drop (p + f.lengthFieldOffset))
        (ep - (p + f.lengthFieldOffset))).take 10) with
    | some r => simp only [Nat.mod_mod_of_dvd _ (show 2 ^ 32 ∣ 2 ^ 64 from ⟨2 ^ 32, rfl⟩)]
    | none => split_ifs <;> rfl

/-! ## The loop -/

section
variable (cb : ReadCb) (f : LengthField) (mem : List UInt8)

/-- `LengthBoundary p q`: a package starts at `q` when those before it, from `p` on, have the lengths
that their length fields give over the integers. -/
inductive LengthBoundary (ep p : ℕ) : ℕ → Prop
  | start : LengthBoundary ep p p
  | next {q n h v : ℕ} : LengthBoundary ep p q → f.bodyOffset ≤ ep - q → storedLength f mem q ep = .lengths h v →
      (n : ℤ) = packageLength f h v → 0 < n → n ≤ ep - q → LengthBoundary ep p (q + n)

/-- The length at `q` does no harm: the field is defined, its sum is not 0, and a sum of `2 ^ 32` or
more does not come down to what is buffered. -/
def LengthFits (q ep : ℕ) : Prop :=
  match storedLength f mem q ep with
  | .undefined => False
  | .lengths h v => packageLength f h v ≠ 0 ∧ (2 ^ 32 ≤ packageLength f h v → (ep - q : ℕ) < packageLength f h v % 2 ^ 32)
  | _ => True

def LengthsFit (p ep : ℕ) : Prop := ∀ q, LengthBoundary f mem ep p q → f.bodyOffset ≤ ep - q → LengthFits f mem q ep

/-- Every round of the loop leaves it or takes a byte, so the loop ends, and every package handed to
`read_cb` has the documented length. -/
structure FramesExactly (s₀ : LengthLoop) : Prop where
  progress : ∀ s t, Loop.Visits (lengthBody cb f mem) s₀ s → lengthBody cb f mem s = .inl t → t.remain < s.remain
  ends : ∃ n r, Loop.run (lengthBody cb f mem) n s₀ = some r ∧ ∀ s, r ≠ .undefined s
  exact : ∀ s new off pkg, Loop.Visits (lengthBody cb f mem) s₀ s → s.io.trace = s₀.io.trace ++ new →
    Ev.readCb off pkg ∈ new → ∃ h v, storedLength f mem off (s₀.p + s₀.remain) = .lengths h v ∧
      (pkg.length : ℤ) = packageLength f h v

variable {cb f mem}

theorem packageLen_eq (f : LengthField) (h v : ℕ) :
    (packageLen f h (v % 2 ^ 32) : ℤ) = packageLength f h v % 2 ^ 32 := by
  unfold packageLen packageLength
  omega

theorem lengthBody_eq (hf : f.lengthFieldOffset + f.lengthFieldBytes ≤ f.bodyOffset) {s : LengthLoop}
    (hs : s.p + s.remain ≤ mem.length) (hb : f.bodyOffset ≤ s.remain) :
    lengthBody cb f mem s =
      match storedLength f mem s.p (s.p + s.remain) with
      | .undefined => .inr (.undefined { s with io := s.io.log (.load s.p) })
      | .short => .inr (.rest { s with io := s.io.log (.load s.p) })
      | .tooBig => .inr (.tooBig { s with io := s.io.log (.load s.p) })
      | .lengths h v =>
        if packageLen f h (v % 2 ^ 32) ≤ s.remain then .inl (s.deliver cb mem (packageLen f h (v % 2 ^ 32)))
        else .inr (.rest { s with io := s.io.log (.load s.p), packageLen := packageLen f h (v % 2 ^ 32) }) := by
  rw [lengthBody, if_neg (by omega), readLength_eq hf (by omega) hs]
  cases storedLength f mem s.p (s.p + s.remain) <;> rfl

theorem lengthBody_inl (hf : f.lengthFieldOffset + f.lengthFieldBytes ≤ f.bodyOffset) {s t : LengthLoop}
    (hs : s.p + s.remain ≤ mem.length) (h : lengthBody cb f mem s = .inl t) :
    f.bodyOffset ≤ s.remain ∧ ∃ h v n : ℕ, storedLength f mem s.p (s.p + s.remain) = .lengths h v ∧
      (n : ℤ) = packageLength f h v % 2 ^ 32 ∧ n ≤ s.remain ∧ t = s.deliver cb mem n := by
  have hb : f.bodyOffset ≤ s.remain := by
    by_contra hb
    rw [lengthBody, if_pos (by omega)] at h
    cases h
  rw [lengthBody_eq hf hs hb] at h
  cases hl : storedLength f mem s.p (s.p + s.remain) with
  | undefined => simp [hl] at h
  | short => simp [hl] at h
  | tooBig => simp [hl] at h
  | lengths hd v =>
    simp only [hl] at h
    split at h
    · cases h
      exact ⟨hb, hd, v, _, rfl, packageLen_eq f hd v, ‹_›, rfl⟩
    · cases h

theorem deliver_trace (cb : ReadCb) (mem : List UInt8) (n : ℕ) (s : LengthLoop) :
    ∃ new, (s.deliver cb mem n).io.trace =
        s.io.trace ++ Ev.load s.p :: .readCb s.p (slice mem s.p (s.p + n)) :: new ∧
      ∀ e ∈ new, e.usesReadbuf = false := by
  obtain ⟨new, ht, hn⟩ := evioReadCb_trace cb s.p (slice mem s.p (s.p + n)) (s.io.log (.load s.p))
  refine ⟨new, ?_, hn⟩
  simp only [LengthLoop.deliver, ht, Evio.log_trace, List.append_assoc, List.singleton_append]

theorem visits_trace {s₀ s : LengthLoop} (hv : Loop.Visits (lengthBody cb f mem) s₀ s) :
    ∃ new, s.io.trace = s₀.io.trace ++ new := by
  refine hv.invariant (fun s => ∃ new, s.io.trace = s₀.io.trace ++ new) ?_ ⟨[], by simp⟩
  rintro s t ⟨new, ht⟩ h
  obtain ⟨n, rfl⟩ : ∃ n, t = s.deliver cb mem n := by
    unfold lengthBody at h
    split at h
    · cases h
    dsimp only at h
    split at h <;> try cases h
    split at h <;> cases h
    exact ⟨_, rfl⟩
  obtain ⟨new', ht', _⟩ := deliver_trace cb mem n s
  exact ⟨_, by rw [ht', ht, List.append_assoc]⟩

/-- The loop stands at the start of a package of the stream that `s₀` started on. -/
def AtBoundary (f : LengthField) (mem : List UInt8) (s₀ s : LengthLoop) : Prop :=
  LengthBoundary f mem (s₀.p + s₀.remain) s₀.p s.p ∧ s.p + s.remain = s₀.p + s₀.remain

section
variable {s₀ : LengthLoop} (hf : f.lengthFieldOffset + f.lengthFieldBytes ≤ f.bodyOffset)
  (hep : s₀.p + s₀.remain ≤ mem.length) (hint : s₀.p + s₀.remain < 2 ^ 31)
include hf hep hint

theorem AtBoundary.round (hfit : LengthsFit f mem s₀.p (s₀.p + s₀.remain)) {s t : LengthLoop}
    (hs : AtBoundary f mem s₀ s) (h : lengthBody cb f mem s = .inl t) :
    ∃ h v n : ℕ, storedLength f mem s.p (s₀.p + s₀.remain) = .lengths h v ∧ (n : ℤ) = packageLength f h v ∧
      0 < n ∧ n ≤ s.remain ∧ t = s.deliver cb mem n ∧ AtBoundary f mem s₀ t := by
  obtain ⟨hq, he⟩ := hs
  obtain ⟨hb, hd, v, n, hl, hn, hle, rfl⟩ := lengthBody_inl hf (by omega) h
  have hfits := hfit s.p hq (by omega)
  rw [he] at hl
  simp only [LengthFits, hl] at hfits
  have hlow : -2 ^ 15 ≤ packageLength f hd v := by
    have hadj := f.lengthAdjustment_ge
    unfold packageLength
    omega
  have hn' : (n : ℤ) = packageLength f hd v := by omega
  refine ⟨hd, v, n, hl, hn', by omega, hle, rfl, hq.next (by omega) hl hn' (by omega) (by omega), ?_⟩
  simp only [LengthLoop.deliver]
  omega

theorem lengthBody_ends (hfit : LengthsFit f mem s₀.p (s₀.p + s₀.remain)) :
    ∃ n r, Loop.run (lengthBody cb f mem) n s₀ = some r ∧ ∀ s, r ≠ .undefined s := by
  have round (s t : LengthLoop) (hs : AtBoundary f mem s₀ s) (h : lengthBody cb f mem s = .inl t) :
      AtBoundary f mem s₀ t ∧ t.remain < s.remain := by
    obtain ⟨_, _, n, _, _, hpos, hle, rfl, ht⟩ := hs.round hf hep hint hfit h
    refine ⟨ht, ?_⟩
    simp only [LengthLoop.deliver]
    omega
  have leave (s : LengthLoop) (r : LengthExit) (hs : AtBoundary f mem s₀ s)
      (h : lengthBody cb f mem s = .inr r) : ∀ s, r ≠ .undefined s := by
    rintro s' rfl
    obtain ⟨hq, he⟩ := hs
    by_cases hb : f.bodyOffset ≤ s.remain
    · have hl := hfit s.p hq (by omega)
      rw [lengthBody_eq hf (by omega) hb, he] at h
      unfold LengthFits at hl
      cases hst : storedLength f mem s.p (s₀.p + s₀.remain) <;> simp only [hst] at h hl
      · split at h <;> cases h
      · cases h
      · cases h
    · rw [lengthBody, if_pos (by omega)] at h
      cases h
  obtain ⟨r, hr, hne⟩ := Loop.run_of_measure (lengthBody cb f mem) (AtBoundary f mem s₀) (∀ s, · ≠ .undefined s)
    LengthLoop.remain round leave ⟨.start, rfl⟩ (Nat.lt_succ_self _)
  exact ⟨_, r, hr, hne⟩

theorem framesExactly_of_fits (hfit : LengthsFit f mem s₀.p (s₀.p + s₀.remain)) : FramesExactly cb f mem s₀ := by
  have hvisit (s : LengthLoop) (hv : Loop.Visits (lengthBody cb f mem) s₀ s) : AtBoundary f mem s₀ s := by
    refine hv.invariant (AtBoundary f mem s₀) ?_ ⟨.start, rfl⟩
    intro s t hs h
    obtain ⟨_, _, _, _, _, _, _, _, ht⟩ := hs.round hf hep hint hfit h
    exact ht
  refine ⟨?_, lengthBody_ends hf hep hint hfit, ?_⟩
  · intro s t hv h
    obtain ⟨_, _, n, _, _, hpos, hle, rfl, _⟩ := (hvisit s hv).round hf hep hint hfit h
    simp only [LengthLoop.deliver]
    omega
  · intro s new off pkg hv ht hmem
    have hnew : ∃ new, s.io.trace = s₀.io.trace ++ new ∧ ∀ off pkg, Ev.readCb off pkg ∈ new →
        ∃ h v, storedLength f mem off (s₀.p + s₀.remain) = .lengths h v ∧
          (pkg.length : ℤ) = packageLength f h v := by
      clear ht hmem
      induction hv with
      | refl => exact ⟨[], by simp, by simp⟩
      | @tail s t hv h ih =>
        obtain ⟨new, ht, hex⟩ := ih
        obtain ⟨hd, v, n, hl, hn, _, hle, rfl, _, he⟩ := (hvisit s hv).round hf hep hint hfit h
        obtain ⟨new', ht', hn'⟩ := deliver_trace cb mem n s
        refine ⟨_, by rw [ht', ht, List.append_assoc], ?_⟩
        intro off pkg hmem
        have hpkg : (slice mem s.p (s.p + n)).length = n := by
          have he' := (hvisit s hv).2
          rw [length_slice (by omega)]
          omega
        simp only [List.mem_append, List.mem_cons, reduceCtorEq, false_or, Ev.readCb.injEq] at hmem
        rcases hmem with hmem | ⟨rfl, rfl⟩ | hmem
        · exact hex off pkg hmem
        · exact ⟨hd, v, hl, by rw [hpkg, hn]⟩
        · exact absurd (hn' _ hmem) (by simp [Ev.usesReadbuf])
    obtain ⟨new', ht', hex⟩ := hnew
    obtain rfl : new = new' := List.append_cancel_left (ht.symm.trans ht')
    exact hex off pkg hmem

theorem visits_of_boundary {q : ℕ} (hq : LengthBoundary f mem (s₀.p + s₀.remain) s₀.p q) :
    ∃ s, Loop.Visits (lengthBody cb f mem) s₀ s ∧ s.p = q ∧ s.p + s.remain = s₀.p + s₀.remain := by
  induction hq with
  | start => exact ⟨s₀, .refl _ _, rfl, rfl⟩
  | @next q n h v _ hb hl hn hpos hle ih =>
    obtain ⟨s, hv, rfl, he⟩ := ih
    have hp : packageLen f h (v % 2 ^ 32) = n := by
      have := packageLen_eq f h v
      omega
    refine ⟨s.deliver cb mem n, hv.round ?_, rfl, ?_⟩
    · rw [lengthBody_eq hf (by omega) (by omega), he, hl]
      simp only [hp]
      rw [if_pos (by omega)]
    · simp only [LengthLoop.deliver]
      omega

theorem fits_of_framesExactly (hex : FramesExactly cb f mem s₀) : LengthsFit f mem s₀.p (s₀.p + s₀.remain) := by
  intro q hq hb
  obtain ⟨s, hv, rfl, he⟩ : ∃ s, Loop.Visits (lengthBody cb f mem) s₀ s ∧ s.p = q ∧
      s.p + s.remain = s₀.p + s₀.remain := visits_of_boundary hf hep hint hq
  have hbody : lengthBody cb f mem s = _ := lengthBody_eq hf (by omega) (by omega)
  rw [he] at hbody
  unfold LengthFits
  cases hl : storedLength f mem s.p (s₀.p + s₀.remain) with
  | undefined =>
    obtain ⟨n, r, hr, hne⟩ := hex.ends
    obtain ⟨k, hk⟩ := hv.run_eq
    rw [hl] at hbody
    have h1 := Loop.run_mono (show n ≤ n + 1 + k by omega) hr
    rw [hk, Loop.run_leave hbody] at h1
    exact (hne _ (Option.some.inj h1).symm).elim
  | short => trivial
  | tooBig => trivial
  | lengths h v =>
    -- a length of 0 makes no progress, and one beyond a word is cut
    have hn := packageLen_eq f h v
    simp only [hl] at hbody
    constructor
    · intro h0
      have hz : packageLen f h (v % 2 ^ 32) = 0 := by omega
      rw [if_pos (by omega)] at hbody
      have := hex.progress s _ hv hbody
      simp only [LengthLoop.deliver, hz] at this
      omega
    · intro hbig
      by_contra hle
      rw [if_pos (by omega)] at hbody
      obtain ⟨new, ht⟩ := visits_trace hv
      obtain ⟨new', ht', _⟩ := deliver_trace cb mem (packageLen f h (v % 2 ^ 32)) s
      obtain ⟨h', v', hl', hlen⟩ := hex.exact _ _ s.p (slice mem s.p (s.p + packageLen f h (v % 2 ^ 32)))
        (hv.round hbody) (by rw [ht', ht, List.append_assoc]) (by simp)
      rw [hl] at hl'
      cases hl'
      rw [length_slice (by omega)] at hlen
      omega

end

end

/-- The loop ends and hands out packages of the documented length exactly when, at every package
boundary among the buffered bytes, the documented length is defined, is not 0, and is not a number
from `2 ^ 32` on whose low 32 bits are at most what is buffered. -/
theorem unpackByLengthField_exact_iff (cb : ReadCb) (f : LengthField)
    (hf : f.lengthFieldOffset + f.lengthFieldBytes ≤ f.bodyOffset) (io : Evio) (hok : io.readbuf.Ok)
    (hlen : io.readbuf.len < 2 ^ 31) (buf readbytes : ℕ) (htail : buf + readbytes = io.readbuf.tail) :
    FramesExactly cb f io.readbuf.mem (lengthStart f buf readbytes io) ↔
      LengthsFit f io.readbuf.mem io.readbuf.head io.readbuf.tail := by
  have hmem := hok.mem_length
  have hhead := hok.head_le
  have htail' := hok.tail_le
  have he : io.readbuf.head + (buf + readbytes - io.readbuf.head) = io.readbuf.tail := by omega
  have h : FramesExactly cb f io.readbuf.mem (lengthStart f buf readbytes io) ↔ _ :=
    ⟨fits_of_framesExactly hf (by simp only [lengthStart]; omega) (by simp only [lengthStart]; omega),
      framesExactly_of_fits hf (by simp only [lengthStart]; omega) (by simp only [lengthStart]; omega)⟩
  simpa only [lengthStart, he] using h

/-- A head of two bytes that holds the length of the whole package. -/
def wholeLengthField : LengthField where
  bodyOffset := 2
  lengthFieldOffset := 0
  lengthFieldBytes := 2
  lengthAdjustment := -2
  lengthFieldCoding := .bigEndian

theorem unpackByLengthField_exact_wholeLength :
    FramesExactly .idle wholeLengthField [0, 3, 7] (lengthStart wholeLengthField 0 3 (.holding [0, 3, 7])) := by
  refine (unpackByLengthField_exact_iff .idle wholeLengthField (by decide) (.holding [0, 3, 7])
    ⟨rfl, by decide, by decide⟩ (by decide) 0 3 rfl).mpr ?_
  have hl : storedLength wholeLengthField [0, 3, 7] 0 3 = .lengths 2 3 := by decide
  have hsum : packageLength wholeLengthField 2 3 = 3 := by decide
  have h03 : ∀ q, LengthBoundary wholeLengthField [0, 3, 7] 3 0 q → q = 0 ∨ q = 3 := by
    intro q hq
    induction hq with
    | start => exact .inl rfl
    | @next q n h v _ hb hl' hn _ _ ih =>
      rcases ih with rfl | rfl
      · cases hl.symm.trans hl'
        omega
      · exact absurd hb (by decide)
  intro q hq hb
  rcases h03 q hq with rfl | rfl
  · change LengthFits wholeLengthField [0, 3, 7] 0 3
    simp only [LengthFits, hl, hsum]
    decide
  · exact absurd hb (by decide)

/-- A length field of 0 makes the loop hand out empty packages for ever. -/
theorem unpackByLengthField_zero_diverges :
    (∀ n, Loop.run (lengthBody .idle wholeLengthField [0, 0]) n
      (lengthStart wholeLengthField 0 2 (.holding [0, 0])) = none) ∧
    ¬FramesExactly .idle wholeLengthField [0, 0] (lengthStart wholeLengthField 0 2 (.holding [0, 0])) := by
  have hrun (n : ℕ) : Loop.run (lengthBody .idle wholeLengthField [0, 0]) n
      (lengthStart wholeLengthField 0 2 (.holding [0, 0])) = none := by
    refine Loop.run_none_of_trapped _ (fun s => s.p = 0 ∧ s.remain = 2) ?_ ⟨rfl, rfl⟩ n
    rintro s ⟨hp, hr⟩
    refine ⟨s.deliver .idle [0, 0] 0, ?_, hp, by simp [LengthLoop.deliver, hr]⟩
    have hl : readLength wholeLengthField [0, 0] 0 (0 + 2) = .lengths 2 0 := by decide
    have hn : packageLen wholeLengthField 2 0 = 0 := by decide
    rw [lengthBody, if_neg (by rw [hr]; decide), hp, hr, hl]
    simp only [hn, Nat.zero_le, if_true]
  refine ⟨hrun, fun h => ?_⟩
  obtain ⟨n, r, hr, _⟩ := h.ends
  rw [hrun] at hr
  cases hr

end Yjc.Event
