import Yjc.Util.Base64

/-! The memory that `util/base64.c` needs, against the sizes of `base64.h`. -/

namespace Yjc.Base64
open Mem

/-- `BASE64_ENCODE_OUT_SIZE` of an `unsigned int`. -/
def encodeOutSize (s : ℕ) : ℕ := (s + 2) % 2 ^ 32 / 3 * 4 % 2 ^ 32

/-- `BASE64_DECODE_OUT_SIZE`. -/
def decodeOutSize (s : ℕ) : ℕ := s / 4 * 3

theorem write_some {α : Type*} {m m' xs : List α} {i : ℕ} (h : write m i xs = some m') :
    i + xs.length ≤ m.length ∧ m'.length = m.length := by
  unfold write at h
  split_ifs at h with hle
  cases h
  exact ⟨hle, length_store hle⟩

theorem write_one {α : Type*} {m : List α} {i : ℕ} (h : i < m.length) (x : α) :
    ∃ m', write m i [x] = some m' ∧ m'.length = m.length :=
  ⟨_, write_eq h, length_store h⟩

/-! ## The encoder -/

variable {x out : List UInt8} {s s' : ℕ × List UInt8} {n : ℕ}

theorem putChar_some {v : ℕ} (h : putChar v s = some s') :
    s'.1 = s.1 + 1 ∧ s'.1 ≤ s.2.length ∧ s'.2.length = s.2.length := by
  obtain ⟨c, -, hput⟩ := Option.bind_eq_some_iff.mp h
  obtain ⟨m, hm, rfl⟩ := Option.map_eq_some_iff.mp hput
  obtain ⟨hle, hlen⟩ := write_some hm
  exact ⟨rfl, hle, hlen⟩

theorem encodeStep_some (h : encodeStep x n s = some s') (hs : s.1 = n + n / 3) :
    s'.1 = (n + 1) + (n + 1) / 3 ∧ s'.1 ≤ s.2.length ∧ s'.2.length = s.2.length := by
  -- the round of `i` writes one character, and that of each third byte two
  obtain ⟨b, -, h⟩ := Option.bind_eq_some_iff.mp h
  have hmod : n % 3 = 0 ∨ n % 3 = 1 ∨ n % 3 = 2 := by omega
  rcases hmod with hn | hn | hn
  · rw [hn] at h
    obtain ⟨hj, hle, hlen⟩ := putChar_some h
    exact ⟨by omega, hle, hlen⟩
  · rw [hn] at h
    obtain ⟨a, -, h⟩ := Option.bind_eq_some_iff.mp h
    obtain ⟨hj, hle, hlen⟩ := putChar_some h
    exact ⟨by omega, hle, hlen⟩
  · rw [hn] at h
    obtain ⟨a, -, h⟩ := Option.bind_eq_some_iff.mp h
    obtain ⟨u, hu, h⟩ := Option.bind_eq_some_iff.mp h
    obtain ⟨hj, hle, hlen⟩ := putChar_some hu
    obtain ⟨hj', hle', hlen'⟩ := putChar_some h
    exact ⟨by omega, by omega, by omega⟩

theorem encodeLoop_some (h : encodeLoop x (0, out) n = some s) :
    s.1 = n + n / 3 ∧ s.1 ≤ out.length ∧ s.2.length = out.length := by
  induction n generalizing s with
  | zero =>
    cases h
    exact ⟨rfl, Nat.zero_le _, rfl⟩
  | succ n ih =>
    obtain ⟨u, hu, hstep⟩ := Option.bind_eq_some_iff.mp h
    obtain ⟨hj, -, hlen⟩ := ih hu
    obtain ⟨hj', hle', hlen'⟩ := encodeStep_some hstep hj
    exact ⟨hj', by omega, by omega⟩

theorem base64Encode_nil (out : List UInt8) : base64Encode [] out = none := rfl

theorem base64Encode_isSome (hlen : x.length < 2 ^ 32) (hout : out.length = encodeOutSize x.length) :
    (base64Encode x out).isSome = true ↔ 0 < x.length ∧ x.length ≤ 3 * 2 ^ 30 - 3 := by
  unfold encodeOutSize at hout
  by_cases hnil : x = []
  · rw [hnil, base64Encode_nil]
    exact iff_of_false Bool.false_ne_true fun h => Nat.lt_irrefl 0 h.1
  · have hpos := List.length_pos_of_ne_nil hnil
    rcases Nat.lt_or_ge (3 * 2 ^ 30 - 3) x.length with hlong | hshort
    · -- the size has wrapped, and the loop alone writes more than that
      refine iff_of_false (fun hsome => ?_) fun h => absurd h.2 (Nat.not_le.mpr hlong)
      obtain ⟨r, hr⟩ := Option.isSome_iff_exists.mp hsome
      obtain ⟨u, hu, -⟩ := Option.bind_eq_some_iff.mp hr
      obtain ⟨hj, hle, -⟩ := encodeLoop_some hu
      omega
    · rw [base64Encode_filled hnil (by omega) (by omega)]
      exact iff_of_true rfl ⟨hpos, hshort⟩

/-! ## The decoder -/

theorem not_mem_base64en {ch : UInt8} (h : ch ∉ base64en) :
    ch = base64Pad ∨ ch < base64deFirst ∨ base64deLast < ch ∨ base64de[(ch - base64deFirst).toNat]? = some (-1) := by
  -- whatever is no character of the alphabet ends the decoding
  rcases Nat.lt_or_ge ch.toNat base64deFirst.toNat with hlow | hlow
  · exact .inr (.inl hlow)
  rcases Nat.lt_or_ge base64deLast.toNat ch.toNat with hhigh | hhigh
  · exact .inr (.inr (.inl hhigh))
  -- the entries of the two tables for one character name each other
  have hall : ∀ n < 80, base64de[n]? = some (-1) ∨
      base64en[((base64de[n]?).getD 0).toNat]? = some (UInt8.ofNat (n + base64deFirst.toNat)) := by decide +kernel
  have hsub : (ch - base64deFirst).toNat = ch.toNat - base64deFirst.toNat := UInt8.toNat_sub_of_le _ _ hlow
  have hfirst : base64deFirst.toNat = 43 := rfl
  have hlast : base64deLast.toNat = 122 := rfl
  rcases hall (ch - base64deFirst).toNat (by omega) with hnone | hen
  · exact .inr (.inr (.inr hnone))
  · rw [hsub, Nat.sub_add_cancel hlow, UInt8.ofNat_toNat] at hen
    exact absurd (List.mem_of_getElem? hen) h

theorem mem_base64en {ch : UInt8} (h : ch ∈ base64en) : ∃ v < 64, ch = charOf v := by
  obtain ⟨v, hv, rfl⟩ := List.getElem_of_mem h
  refine ⟨v, hv, ?_⟩
  rw [charOf, List.getElem?_eq_getElem hv, Option.getD_some]

theorem notLast_isSome {k : ℕ} (i : ℕ) (hlen : x.length < 2 ^ 32) (hk : 2 ≤ k) (hx : k ≤ x.length + 1) : (notLast x i k).isSome = true := by
  unfold notLast
  split_ifs
  · rfl
  · rw [Option.isSome_map, List.getElem?_eq_getElem (by omega)]
    rfl

/-- How many bytes the decoder has begun with the first `i` characters, in memory of the right length. -/
def At (x out : List UInt8) (s : Decoder) : Prop :=
  s.j = 3 * s.i / 4 ∧ s.out.length = out.length ∧ s.i ≤ x.length ∧ s.i ≤ x.length / 4 * 4 ∧
    ∀ k < s.i, ∀ c ∈ x[k]?, c ∈ base64en

theorem parts_isSome {i j : ℕ} {more : Option Bool} (hj : j + 1 < out.length) (hmore : more.isSome = true) (w z : UInt8) :
    ∃ m, ((out[j]?).bind fun o => (write out j [o + w]).bind fun out => more.bind fun b =>
        (if b = true then write out (j + 1) [z] else some out).bind fun out => some (Decoder.mk i (j + 1) out)) =
      some ⟨i, j + 1, m⟩ ∧ m.length = out.length := by
  -- the second part of a byte, and the first of the next unless the padding follows
  obtain ⟨b, rfl⟩ := Option.isSome_iff_exists.mp hmore
  obtain ⟨m, hm, hmlen⟩ := write_one (show j < out.length by omega) (out[j] + w)
  rw [List.getElem?_eq_getElem (show j < out.length by omega), Option.bind_some, hm, Option.bind_some, Option.bind_some]
  cases b with
  | true =>
    obtain ⟨m', hm', hmlen'⟩ := write_one (show j + 1 < m.length by omega) z
    rw [if_pos rfl, hm', Option.bind_some]
    exact ⟨m', rfl, hmlen'.trans hmlen⟩
  | false =>
    rw [if_neg Bool.false_ne_true, Option.bind_some]
    exact ⟨m, rfl, hmlen⟩

theorem decodeStep_isSome {s : Decoder} (c : ℕ) (hlen : x.length < 2 ^ 32) (hj : s.j = 3 * s.i / 4)
    (hout : s.out.length = decodeOutSize x.length) (hi : s.i < x.length / 4 * 4) :
    ∃ m, decodeStep x c s = some ⟨s.i, 3 * (s.i + 1) / 4, m⟩ ∧ m.length = s.out.length := by
  obtain ⟨i, j, out⟩ := s
  dsimp only at hj hout hi ⊢
  unfold decodeOutSize at hout
  have hget : j < out.length := by omega
  unfold decodeStep
  dsimp only
  have hmod : i % 4 = 0 ∨ i % 4 = 1 ∨ i % 4 = 2 ∨ i % 4 = 3 := by omega
  rcases hmod with h | h | h | h
  · obtain ⟨m, hm, hmlen⟩ := write_one hget (UInt8.ofNat ((c <<< 2) &&& 0xFF))
    refine ⟨m, ?_, hmlen⟩
    rw [h, show 3 * (i + 1) / 4 = j by omega]
    change Option.bind _ _ = _
    rw [hm, Option.bind_some]
  · rw [h, show 3 * (i + 1) / 4 = j + 1 by omega]
    exact parts_isSome (by omega) (notLast_isSome i hlen (by decide) (by omega)) _ _
  · rw [h, show 3 * (i + 1) / 4 = j + 1 by omega]
    exact parts_isSome (by omega) (notLast_isSome i hlen (by decide) (by omega)) _ _
  · obtain ⟨m, hm, hmlen⟩ := write_one hget (out[j] + UInt8.ofNat c)
    refine ⟨m, ?_, hmlen⟩
    rw [h, show 3 * (i + 1) / 4 = j + 1 by omega]
    change Option.bind _ _ = _
    rw [List.getElem?_eq_getElem hget, Option.bind_some]
    change Option.bind _ _ = _
    rw [hm, Option.bind_some]

theorem decodeStep_end {s : Decoder} (c : ℕ) (hj : s.j = 3 * s.i / 4) (hout : s.out.length = decodeOutSize x.length)
    (hi : s.i = x.length / 4 * 4) : decodeStep x c s = none := by
  -- the character at `4 * (x.length / 4)` would begin a byte that the memory has no room for
  unfold decodeOutSize at hout
  unfold decodeStep
  rw [show s.i % 4 = 0 by omega]
  change Option.bind _ _ = _
  rw [write, if_neg, Option.bind_none]
  rw [List.length_singleton]
  omega

theorem decodeRound_stop {s : Decoder} {ch : UInt8} (hi : s.i < x.length) (hch : x[s.i]? = some ch) (hstop : ch ∉ base64en) :
    ∃ r, decodeRound x s = .inr (some r) := by
  rw [decodeRound, if_pos hi, hch]
  dsimp only
  split_ifs with hpad hrange
  · exact ⟨_, rfl⟩
  · exact ⟨_, rfl⟩
  · rcases not_mem_base64en hstop with h | h | h | h
    · exact absurd h hpad
    · exact absurd (.inl h) hrange
    · exact absurd (.inr h) hrange
    · rw [h]
      exact ⟨_, rfl⟩

/-- The length leaves no rest, or a character before the rest, or the first of it, ends the decoding. -/
def Ends (x : List UInt8) : Prop :=
  x.length % 4 = 0 ∨ ∃ i ≤ x.length / 4 * 4, ∃ c ∈ x[i]?, c ∉ base64en

theorem decodeRound_at {s : Decoder} (hlen : x.length < 2 ^ 32) (hout : out.length = decodeOutSize x.length) (hs : At x out s) :
    (∃ t, decodeRound x s = .inl t ∧ At x out t ∧ t.i = s.i + 1) ∨
      ∃ r, decodeRound x s = .inr r ∧ (r.isSome = true ↔ Ends x) := by
  obtain ⟨hj, hsout, hle, hle4, hprev⟩ := hs
  rcases Nat.lt_or_eq_of_le hle with hlt | heq
  · have hch := List.getElem?_eq_getElem hlt
    by_cases hmem : x[s.i] ∈ base64en
    · obtain ⟨v, hv, hcv⟩ := mem_base64en hmem
      have hupto : ∀ k < s.i + 1, ∀ c ∈ x[k]?, c ∈ base64en := by
        intro k hk c hc
        rcases Nat.lt_succ_iff_lt_or_eq.mp hk with hk | rfl
        · exact hprev k hk c hc
        · rw [hch, Option.mem_some_iff] at hc
          exact hc ▸ hmem
      rw [hcv] at hch
      have hround := decodeRound_charOf hlt hv hch
      rcases Nat.lt_or_eq_of_le hle4 with hlt4 | heq4
      · obtain ⟨m, hstep, hm⟩ := decodeStep_isSome v hlen hj (hsout.trans hout) hlt4
        rw [hstep, Option.elim_some] at hround
        exact .inl ⟨_, hround, ⟨rfl, hm.trans hsout, hlt, hlt4, hupto⟩, rfl⟩
      · refine .inr ⟨none, by rw [hround, decodeStep_end v hj (hsout.trans hout) heq4, Option.elim_none], ?_⟩
        refine iff_of_false Bool.false_ne_true ?_
        rintro (hmod | ⟨i, hi, c, hc, hnot⟩)
        · omega
        · exact hnot (hupto i (by omega) c hc)
    · obtain ⟨r, hr⟩ := decodeRound_stop hlt hch hmem
      exact .inr ⟨some r, hr, iff_of_true rfl (.inr ⟨s.i, hle4, x[s.i], hch, hmem⟩)⟩
  · refine .inr ⟨some (cInt s.j, s.out), ?_, iff_of_true rfl (.inl (by omega))⟩
    rw [decodeRound, if_neg (by omega)]

theorem base64Decode_isSome (hlen : x.length < 2 ^ 32) (hout : out.length = decodeOutSize x.length) :
    (base64Decode x out).isSome = true ↔ Ends x := by
  obtain ⟨r, hr, hret⟩ := Loop.run_of_measure (decodeRound x) (At x out) (fun r => r.isSome = true ↔ Ends x)
    (fun s => x.length - s.i)
    (fun s t hs hround => by
      rcases decodeRound_at hlen hout hs with ⟨u, hu, hat, hi⟩ | ⟨r, hr, -⟩
      · rw [hu] at hround
        cases hround
        exact ⟨hat, by have hle := hat.2.2.1; omega⟩
      · rw [hr] at hround
        cases hround)
    (fun s r hs hround => by
      rcases decodeRound_at hlen hout hs with ⟨u, hu, -, -⟩ | ⟨r', hr', hret⟩
      · rw [hu] at hround
        cases hround
      · rw [hr'] at hround
        cases hround
        exact hret)
    (s := ⟨0, 0, out⟩) (n := x.length + 1)
    ⟨(Nat.zero_div 4).symm, rfl, Nat.zero_le _, Nat.zero_le _, fun k hk => absurd hk (Nat.not_lt_zero k)⟩ (Nat.lt_succ_self _)
  rw [base64Decode, hr, Option.join_some]
  exact hret

/-- Neither function leaves its memory, of the sizes in `base64.h`, exactly for the inputs that the sizes are made for. -/
theorem base64_stays_inside (x : List UInt8) (hlen : x.length < 2 ^ 32) :
    (∀ out : List UInt8, out.length = encodeOutSize x.length →
        ((base64Encode x out).isSome = true ↔ 0 < x.length ∧ x.length ≤ 3 * 2 ^ 30 - 3)) ∧
      ∀ out : List UInt8, out.length = decodeOutSize x.length → ((base64Decode x out).isSome = true ↔ Ends x) :=
  ⟨fun _ hout => base64Encode_isSome hlen hout, fun _ hout => base64Decode_isSome hlen hout⟩

theorem base64_stays_inside_sample :
    ((base64Encode [77, 97] [0, 0, 0, 0]).isSome = true ↔ 0 < 2 ∧ 2 ≤ 3 * 2 ^ 30 - 3) ∧
      ((base64Decode [77, 97] []).isSome = true ↔ Ends [77, 97]) :=
  ⟨(base64_stays_inside [77, 97] (by decide)).1 [0, 0, 0, 0] rfl, (base64_stays_inside [77, 97] (by decide)).2 [] rfl⟩

/-- Without a byte the encoder reads before the input; a character alone is decoded to memory of no size. -/
theorem base64_leaves_memory :
    encodeOutSize 0 = 0 ∧ base64Encode [] [] = none ∧ decodeOutSize 1 = 0 ∧ base64Decode [77] [] = none :=
  ⟨rfl, rfl, rfl, rfl⟩

end Yjc.Base64
