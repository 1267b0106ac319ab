import Yjc.Lib.CText
import Yjc.Lib.Mem
import Mathlib.Data.List.TakeWhile

/-! The texts of IPv4 and IPv6 addresses, as `inet_ntop` and `inet_pton` have them. -/

namespace Yjc.InetText
open CLib Mem
variable {a bs m : List UInt8} {ms ps : List (List UInt8)} {c : UInt8} {n : ℕ} {dots : Bool}

/-! ## IPv4 -/

def dotted : List UInt8 → List UInt8
  | [] => []
  | [b] => decimal b.toNat
  | b :: c :: bs => decimal b.toNat ++ ch '.' :: dotted (c :: bs)

/-- `n + 1` numbers with dots between them. -/
def scanDotted : ℕ → List UInt8 → Option (List UInt8)
  | 0, m => some [UInt8.ofNat (digitsValue m)]
  | n + 1, m =>
    match m.dropWhile isdigit with
    | [] => none
    | c :: rest => if c = ch '.' then (scanDotted n rest).map (UInt8.ofNat (digitsValue (m.takeWhile isdigit)) :: ·) else none

/-- Numbers below 256 without leading zeros: an address has one text. -/
def scanIpv4 (m : List UInt8) : Option (List UInt8) := (scanDotted 3 m).filter fun a => dotted a = m

theorem scanDotted_dotted (b : UInt8) (bs : List UInt8) : scanDotted bs.length (dotted (b :: bs)) = some (b :: bs) := by
  induction bs generalizing b with
  | nil => rw [dotted, List.length_nil, scanDotted, digitsValue_decimal, UInt8.ofNat_toNat]
  | cons a bs ih =>
    obtain ⟨htake, hdrop⟩ := span_append (fun c hc => isdigit_decimal hc)
      (show NotFrom isdigit (ch '.' :: dotted (a :: bs)) from notFrom_cons.mpr (by decide))
    rw [dotted, List.length_cons, scanDotted, htake, hdrop, digitsValue_decimal b.toNat, UInt8.ofNat_toNat]
    exact (if_pos rfl).trans (by rw [ih]; rfl)

theorem scanIpv4_dotted (h : a.length = 4) : scanIpv4 (dotted a) = some a := by
  obtain ⟨b, bs, rfl⟩ := List.exists_cons_of_length_eq_add_one h
  have hscan := scanDotted_dotted b bs
  rw [Nat.succ.inj h] at hscan
  rw [scanIpv4, hscan]
  exact if_pos (decide_eq_true rfl)

theorem mem_dotted (hc : c ∈ dotted bs) : isdigit c ∨ c = ch '.' := by
  induction bs with
  | nil => cases hc
  | cons b bs ih =>
    cases bs with
    | nil => exact .inl (isdigit_decimal hc)
    | cons a bs =>
      rw [dotted, List.mem_append, List.mem_cons] at hc
      rcases hc with hc | rfl | hc
      · exact .inl (isdigit_decimal hc)
      · exact .inr rfl
      · exact ih hc

theorem length_dotted (b : UInt8) (bs : List UInt8) : (dotted (b :: bs)).length ≤ 4 * bs.length + 3 := by
  have hbyte (b : UInt8) : (decimal b.toNat).length ≤ 3 := by
    have hall : ∀ b : UInt8, (decimal b.toNat).length ≤ 3 := forall_byte (by decide +kernel)
    exact hall b
  induction bs generalizing b with
  | nil => exact hbyte b
  | cons a bs ih =>
    have hb := hbyte b
    have ha := ih a
    rw [dotted, List.length_append, List.length_cons, List.length_cons]
    omega

theorem scanIpv4_of_colon (h : ch ':' ∈ m) : scanIpv4 m = none := by
  rw [scanIpv4, Option.filter_eq_none_iff]
  intro a _ heq
  rw [← of_decide_eq_true heq] at h
  rcases mem_dotted h with hdigit | hdot
  · exact absurd hdigit (by decide)
  · exact absurd hdot (by decide)

/-! ## The fields of an IPv6 address -/

/-- `%x` of the number of two bytes. -/
def hexWord (a b : UInt8) : List UInt8 :=
  let ds := (hex2 a ++ hex2 b).dropWhile (· = ch '0')
  if ds = [] then [ch '0'] else ds

def hexNumber (m : List UInt8) : ℕ := m.foldl (fun n c => 16 * n + hexValue c) 0

/-- One to four digits. -/
def scanWord (m : List UInt8) : Option (List UInt8) :=
  if m ≠ [] ∧ m.length ≤ 4 ∧ m.all isxdigit then some [UInt8.ofNat (hexNumber m / 256), UInt8.ofNat (hexNumber m)] else none

/-- The bytes two by two, the last four of them in decimal if there are to be dots. -/
def fields (dots : Bool) : List UInt8 → List (List UInt8)
  | a :: b :: bs => if dots ∧ bs.length = 2 then [dotted (a :: b :: bs)] else hexWord a b :: fields dots bs
  | _ => []

def scanLast (m : List UInt8) : Option (List UInt8) := if ch '.' ∈ m then scanIpv4 m else scanWord m

def scanFields (last : List UInt8 → Option (List UInt8)) : List (List UInt8) → Option (List UInt8)
  | [] => some []
  | [m] => last m
  | m :: m' :: ms => do
    let a ← scanWord m
    let b ← scanFields last (m' :: ms)
    return a ++ b

theorem hexNumber_zeros (m : List UInt8) : hexNumber (m.dropWhile (· = ch '0')) = hexNumber m := by
  induction m with
  | nil => rfl
  | cons c m ih =>
    rw [List.dropWhile_cons]
    split_ifs with hc
    · rw [ih, of_decide_eq_true hc]
      rfl
    · rfl

theorem scanWord_hexWord (a b : UInt8) : scanWord (hexWord a b) = some [a, b] := by
  have hsub : (hex2 a ++ hex2 b).dropWhile (· = ch '0') <:+ hex2 a ++ hex2 b := List.dropWhile_suffix _
  have hvalue : hexNumber (hex2 a ++ hex2 b) = 256 * a.toNat + b.toNat := by
    have ha := value_hex2 a
    have hb := value_hex2 b
    simp only [hexNumber, hex2, List.cons_append, List.nil_append, List.foldl_cons, List.foldl_nil]
    omega
  have hnumber : hexNumber (hexWord a b) = 256 * a.toNat + b.toNat := by
    rw [← hvalue, ← hexNumber_zeros (hex2 a ++ hex2 b), hexWord]
    split_ifs with hnil
    · rw [hnil]
      rfl
    · rfl
  have hword : hexWord a b ≠ [] ∧ (hexWord a b).length ≤ 4 ∧ (hexWord a b).all isxdigit := by
    rw [hexWord]
    split_ifs with hnil
    · exact ⟨by decide, by decide, by decide⟩
    · refine ⟨hnil, hsub.length_le, List.all_eq_true.mpr fun c hc => ?_⟩
      rcases List.mem_append.mp (hsub.subset hc) with hc | hc
      · exact isxdigit_hex2 a c hc
      · exact isxdigit_hex2 b c hc
  have hb := b.toNat_lt
  have hhigh : (256 * a.toNat + b.toNat) / 256 = a.toNat := by omega
  rw [scanWord, if_pos hword, hnumber, hhigh, UInt8.ofNat_toNat]
  refine congrArg (fun x => some [a, x]) (UInt8.toNat_inj.mp ?_)
  rw [UInt8.toNat_ofNat']
  omega

theorem isxdigit_hexWord (a b : UInt8) : hexWord a b ≠ [] ∧ (hexWord a b).length ≤ 4 ∧ ∀ c ∈ hexWord a b, isxdigit c := by
  have hscan := scanWord_hexWord a b
  rw [scanWord, Option.ite_none_right_eq_some] at hscan
  obtain ⟨⟨hne, hlen, hall⟩, -⟩ := hscan
  exact ⟨hne, hlen, List.all_eq_true.mp hall⟩

theorem scanLast_hexWord (a b : UInt8) : scanLast (hexWord a b) = some [a, b] := by
  have hdot : ch '.' ∉ hexWord a b := fun h => absurd ((isxdigit_hexWord a b).2.2 _ h) (by decide)
  rw [scanLast, if_neg hdot, scanWord_hexWord]

theorem scanLast_dotted (h : a.length = 4) : scanLast (dotted a) = some a := by
  have hdot : ch '.' ∈ dotted a := by
    match a, h with
    | [a, b, c, d], _ => exact List.mem_append_right _ List.mem_cons_self
  rw [scanLast, if_pos hdot, scanIpv4_dotted h]

theorem scanFields_fields {last : List UInt8 → Option (List UInt8)} (hword : ∀ a b, last (hexWord a b) = some [a, b])
    (hdots : dots = true → ∀ a, a.length = 4 → last (dotted a) = some a) (h : bs.length % 2 = 0) :
    scanFields last (fields dots bs) = some bs := by
  induction bs using fields.induct dots with
  | case1 a b bs htail =>
    rw [fields, if_pos htail, scanFields]
    exact hdots htail.1 _ (by rw [List.length_cons, List.length_cons, htail.2])
  | case2 a b bs htail ih =>
    rw [List.length_cons, List.length_cons] at h
    have hrest := ih (by omega)
    rw [fields, if_neg htail]
    cases hfields : fields dots bs with
    | nil =>
      rw [hfields] at hrest
      cases hrest
      exact hword a b
    | cons m ms =>
      rw [scanFields, scanWord_hexWord, ← hfields, hrest]
      rfl
  | case3 bs hshort =>
    match bs, h with
    | [], _ => rfl
    | a :: b :: bs, _ => exact absurd rfl (hshort a b bs)

theorem mem_fields (hm : m ∈ fields dots bs) : m ≠ [] ∧ ∀ c ∈ m, isxdigit c ∨ c = ch '.' := by
  induction bs using fields.induct dots with
  | case1 a b bs htail =>
    rw [fields, if_pos htail] at hm
    cases List.mem_singleton.mp hm
    refine ⟨fun hnil => ?_, fun c hc => (mem_dotted hc).imp_left fun hdigit => decide_eq_true (.inl hdigit)⟩
    rw [dotted, List.append_eq_nil_iff] at hnil
    exact decimal_ne_nil _ hnil.1
  | case2 a b bs htail ih =>
    rw [fields, if_neg htail] at hm
    rcases List.mem_cons.mp hm with rfl | hm
    · exact ⟨(isxdigit_hexWord a b).1, fun c hc => .inl ((isxdigit_hexWord a b).2.2 c hc)⟩
    · exact ih hm
  | case3 bs hshort =>
    match bs with
    | [] | [_] => cases hm
    | a :: b :: bs => exact absurd rfl (hshort a b bs)

theorem length_fields (dots : Bool) (bs : List UInt8) :
    (fields dots bs).length ≤ bs.length / 2 ∧ (fields dots bs).flatten.length ≤ 2 * bs.length + if dots then 7 else 0 := by
  induction bs using fields.induct dots with
  | case1 a b bs htail =>
    have hlen := length_dotted a (b :: bs)
    rw [fields, if_pos htail, List.flatten_singleton, if_pos htail.1]
    simp only [List.length_cons, List.length_nil] at hlen ⊢
    have := htail.2
    omega
  | case2 a b bs htail ih =>
    have hlen := (isxdigit_hexWord a b).2.1
    rw [fields, if_neg htail, List.flatten_cons, List.length_append]
    simp only [List.length_cons]
    omega
  | case3 bs hshort =>
    match bs with
    | [] | [_] => exact ⟨Nat.zero_le _, Nat.zero_le _⟩
    | a :: b :: bs => exact absurd rfl (hshort a b bs)

/-! ## The longest run of zeros -/

/-- The number of zero words from word `i` on. -/
def zeroRun (a : List UInt8) (i : ℕ) : ℕ := ((a.drop (2 * i)).takeWhile (· = 0)).length / 2

def longestRun (a : List UInt8) : ℕ × ℕ :=
  (List.range 8).foldl (fun best i => if best.2 < zeroRun a i then (i, zeroRun a i) else best) (0, 0)

theorem longestRun_eq (a : List UInt8) : (longestRun a).2 = 0 ∨ (longestRun a).2 = zeroRun a (longestRun a).1 := by
  refine List.foldlRecOn (motive := fun r : ℕ × ℕ => r.2 = 0 ∨ r.2 = zeroRun a r.1) (List.range 8) _ (.inl rfl) fun r hr i _ => ?_
  split_ifs
  · exact .inr rfl
  · exact hr

theorem longestRun_split (ha : a.length = 16) {i : ℕ} (hrun : longestRun a = (i, n)) (hn : 0 < n) :
    2 * (i + n) ≤ 16 ∧ a = a.take (2 * i) ++ List.replicate (2 * n) 0 ++ a.drop (2 * (i + n)) := by
  have hzeros : n = zeroRun a i := by
    have heq := longestRun_eq a
    rw [hrun] at heq
    exact heq.resolve_left hn.ne'
  have hle : 2 * n ≤ ((a.drop (2 * i)).takeWhile (· = 0)).length := by
    rw [hzeros, zeroRun]
    omega
  have hlen : ((a.drop (2 * i)).takeWhile (· = 0)).length ≤ 16 - 2 * i := by
    rw [← ha, ← List.length_drop]
    exact (List.takeWhile_sublist _).length_le
  have htake : (a.drop (2 * i)).take (2 * n) = List.replicate (2 * n) 0 := by
    have hpre : (a.drop (2 * i)).take (2 * n) <+: (a.drop (2 * i)).takeWhile (· = 0) :=
      List.prefix_of_prefix_length_le (List.take_prefix _ _) (List.takeWhile_prefix _) ((List.length_take_le _ _).trans hle)
    refine List.eq_replicate_iff.mpr ⟨?_, fun b hb => ?_⟩
    · rw [List.length_take, List.length_drop]
      omega
    · exact of_decide_eq_true (List.all_eq_true.mp List.all_takeWhile b (hpre.subset hb))
  refine ⟨by omega, ?_⟩
  rw [← htake, Nat.mul_add, ← List.drop_drop, List.append_assoc, List.take_append_drop, List.take_append_drop]

/-! ## IPv6 -/

/-- At an end of the text the colon of the next field stands alone. -/
def edge (ms : List (List UInt8)) : List (List UInt8) := if ms = [] then [[]] else ms

/-- What stands between the colons. A run of two zero words or more becomes an empty field, and an address that holds one of IPv4 ends
in that. -/
def ipv6Fields (a : List UInt8) : List (List UInt8) :=
  let (i, n) := longestRun a
  if n < 2 then fields false a
  else
    let dots := decide (i = 0 ∧ (n = 6 ∨ n = 5 ∧ slice a 10 12 = [0xff, 0xff]))
    edge (fields false (a.take (2 * i))) ++ [] :: edge (fields dots (a.drop (2 * (i + n))))

def ipv6Text (a : List UInt8) : List UInt8 := [ch ':'].intercalate (ipv6Fields a)

def dropEdge : List (List UInt8) → Option (List (List UInt8))
  | [] :: [] :: ms => some ([] :: ms)
  | [] :: _ => none
  | ms => some ms

/-- An empty field stands for the zeros that are missing. -/
def scanGap (ms : List (List UInt8)) : Option (List UInt8) :=
  match ms.dropWhile (· ≠ []) with
  | [] => (scanFields scanLast ms).filter fun a => a.length = 16
  | _ :: post => do
    let a ← scanFields scanWord (ms.takeWhile (· ≠ []))
    let b ← scanFields scanLast post
    if a.length + b.length < 16 then some (a ++ List.replicate (16 - (a.length + b.length)) 0 ++ b) else none

def scanIpv6 (m : List UInt8) : Option (List UInt8) := do
  let ms ← dropEdge (m.splitOn (ch ':'))
  let ms ← dropEdge ms.reverse
  scanGap ms.reverse

theorem dropEdge_edge (hps : ∀ m ∈ ps, m ≠ []) (ms : List (List UInt8)) : dropEdge (edge ps ++ [] :: ms) = some (ps ++ [] :: ms) := by
  cases ps with
  | nil => rfl
  | cons p ps =>
    rw [edge, if_neg (List.cons_ne_nil p ps)]
    cases p with
    | nil => exact absurd rfl (hps [] List.mem_cons_self)
    | cons c p => rfl

theorem dropEdge_of_ne_nil (hps : ∀ m ∈ ps, m ≠ []) : dropEdge ps = some ps := by
  match ps, hps with
  | [], _ => rfl
  | [] :: ps, hps => exact absurd rfl (hps [] List.mem_cons_self)
  | (c :: p) :: ps, _ => rfl

theorem reverse_edge (ms : List (List UInt8)) : (edge ms).reverse = edge ms.reverse := by
  unfold edge
  simp only [List.reverse_eq_nil_iff]
  split_ifs
  · rfl
  · rfl

theorem mem_edge (h : m ∈ edge ms) : m = [] ∨ m ∈ ms := by
  unfold edge at h
  split_ifs at h
  · exact .inl (List.mem_singleton.mp h)
  · exact .inr h

theorem length_edge (ms : List (List UInt8)) : (edge ms).length ≤ ms.length + 1 ∧ (edge ms).flatten = ms.flatten := by
  unfold edge
  split_ifs with hnil
  · rw [hnil]
    exact ⟨le_refl 1, rfl⟩
  · exact ⟨Nat.le_succ _, rfl⟩

theorem mem_ipv6Fields (hm : m ∈ ipv6Fields a) (hc : c ∈ m) : isxdigit c ∨ c = ch '.' := by
  unfold ipv6Fields at hm
  split at hm
  split_ifs at hm
  · exact (mem_fields hm).2 c hc
  · have hempty (h : m = []) : isxdigit c ∨ c = ch '.' := absurd (h ▸ hc) List.not_mem_nil
    rcases List.mem_append.mp hm with hm | hm
    · exact (mem_edge hm).elim hempty fun hm => (mem_fields hm).2 c hc
    · rcases List.mem_cons.mp hm with hm | hm
      · exact hempty hm
      · exact (mem_edge hm).elim hempty fun hm => (mem_fields hm).2 c hc

theorem length_ipv6Fields (ha : a.length = 16) :
    2 ≤ (ipv6Fields a).length ∧ (ipv6Fields a).flatten.length + (ipv6Fields a).length ≤ 40 := by
  unfold ipv6Fields
  split
  next i n hrun =>
    split_ifs with hn
    · obtain ⟨hfields, hflat⟩ := length_fields false a
      refine ⟨?_, ?_⟩
      · match a, ha with
        | b :: c :: d :: e :: bs, _ => simp [fields]
      · rw [if_neg Bool.false_ne_true] at hflat
        omega
    · obtain ⟨hle, -⟩ := longestRun_split ha hrun (by omega)
      generalize decide (i = 0 ∧ (n = 6 ∨ n = 5 ∧ slice a 10 12 = [0xff, 0xff])) = dots
      obtain ⟨hpre, hpreFlat⟩ := length_fields false (a.take (2 * i))
      obtain ⟨hpost, hpostFlat⟩ := length_fields dots (a.drop (2 * (i + n)))
      have hpreEdge := length_edge (fields false (a.take (2 * i)))
      have hpostEdge := length_edge (fields dots (a.drop (2 * (i + n))))
      have hdots : (if dots = true then 7 else 0) ≤ 7 := by split <;> omega
      rw [if_neg Bool.false_ne_true] at hpreFlat
      rw [List.length_take] at hpre hpreFlat
      rw [List.length_drop] at hpost hpostFlat
      rw [List.length_append, List.length_cons, List.flatten_append, List.flatten_cons, hpreEdge.2, hpostEdge.2, List.length_append,
        List.length_append, List.length_nil]
      have hnonempty (ms : List (List UInt8)) : 0 < (edge ms).length := by
        unfold edge
        split_ifs with hnil
        · exact Nat.one_pos
        · exact List.length_pos_iff.mpr hnil
      have hfirst := hnonempty (fields false (a.take (2 * i)))
      omega

theorem colon_mem_ipv6Text (ha : a.length = 16) : ch ':' ∈ ipv6Text a := by
  have hlen := (length_ipv6Fields ha).1
  rw [ipv6Text]
  match ipv6Fields a, hlen with
  | p :: q :: ms, _ =>
    rw [List.intercalate_cons_cons]
    exact List.mem_append_left _ (List.mem_append_right _ (List.mem_singleton.mpr rfl))

theorem mem_intercalate {x : UInt8} (hc : c ∈ [x].intercalate ms) : c = x ∨ ∃ m ∈ ms, c ∈ m := by
  induction ms with
  | nil => cases hc
  | cons m ms ih =>
    cases ms with
    | nil =>
      rw [List.intercalate_singleton] at hc
      exact .inr ⟨m, List.mem_cons_self, hc⟩
    | cons m' ms =>
      rw [List.intercalate_cons_cons, List.mem_append, List.mem_append, List.mem_singleton] at hc
      rcases hc with (hc | hc) | hc
      · exact .inr ⟨m, List.mem_cons_self, hc⟩
      · exact .inl hc
      · exact (ih hc).imp_right fun ⟨p, hp, hcp⟩ => ⟨p, List.mem_cons_of_mem m hp, hcp⟩

theorem length_intercalate (x : UInt8) (ms : List (List UInt8)) : ([x].intercalate ms).length ≤ ms.flatten.length + ms.length := by
  induction ms with
  | nil => exact Nat.zero_le _
  | cons m ms ih =>
    cases ms with
    | nil =>
      rw [List.intercalate_singleton, List.flatten_singleton]
      exact Nat.le_add_right _ _
    | cons m' ms =>
      rw [List.intercalate_cons_cons, List.flatten_cons, List.length_append, List.length_append, List.length_append,
        List.length_singleton, List.length_cons]
      omega

theorem mem_ipv6Text (hc : c ∈ ipv6Text a) : isxdigit c ∨ c = ch '.' ∨ c = ch ':' := by
  rcases mem_intercalate hc with hcolon | ⟨m, hm, hcm⟩
  · exact .inr (.inr hcolon)
  · exact (mem_ipv6Fields hm hcm).imp_right .inl

theorem length_ipv6Text (ha : a.length = 16) : (ipv6Text a).length ≤ 40 :=
  (length_intercalate _ _).trans (length_ipv6Fields ha).2

theorem splitOn_ipv6Text (ha : a.length = 16) : (ipv6Text a).splitOn (ch ':') = ipv6Fields a := by
  refine List.splitOn_intercalate _ (fun m hm hcolon => ?_) fun hnil => ?_
  · rcases mem_ipv6Fields hm hcolon with hdigit | hdot
    · exact absurd hdigit (by decide)
    · exact absurd hdot (by decide)
  · have hlen := (length_ipv6Fields ha).1
    rw [hnil] at hlen
    cases hlen

theorem fields_ne_nil (dots : Bool) (bs : List UInt8) : ∀ m ∈ fields dots bs, m ≠ [] := fun _ hm => (mem_fields hm).1

theorem scanFields_last (h : bs.length % 2 = 0) : scanFields scanLast (fields dots bs) = some bs :=
  scanFields_fields scanLast_hexWord (fun _ _ => scanLast_dotted) h

theorem scanGap_none (ha : a.length = 16) : scanGap (fields false a) = some a := by
  have hdrop : (fields false a).dropWhile (· ≠ []) = [] :=
    List.dropWhile_eq_nil_iff.mpr fun m hm => decide_eq_true (fields_ne_nil false a m hm)
  rw [scanGap, hdrop]
  change (scanFields scanLast (fields false a)).filter _ = _
  rw [scanFields_last (by omega)]
  exact if_pos (decide_eq_true ha)

theorem scanGap_fields (ha : a.length % 2 = 0) (hbs : bs.length % 2 = 0) (hlt : a.length + bs.length < 16) :
    scanGap (fields false a ++ [] :: fields dots bs) = some (a ++ List.replicate (16 - (a.length + bs.length)) 0 ++ bs) := by
  have hpos : ∀ m ∈ fields false a, decide (m ≠ []) = true := fun m hm => decide_eq_true (fields_ne_nil false a m hm)
  have hdrop : (fields false a ++ [] :: fields dots bs).dropWhile (· ≠ []) = [] :: fields dots bs := List.dropWhile_append_of_pos hpos
  have htake : (fields false a ++ [] :: fields dots bs).takeWhile (· ≠ []) = fields false a :=
    (List.takeWhile_append_of_pos hpos).trans (List.append_nil _)
  have hword : scanFields scanWord (fields false a) = some a := scanFields_fields scanWord_hexWord (fun h => by cases h) ha
  rw [scanGap, hdrop, htake]
  change ((scanFields scanWord (fields false a)).bind fun a => (scanFields scanLast (fields dots bs)).bind fun b => _) = _
  rw [hword, Option.bind_some, scanFields_last hbs, Option.bind_some, if_pos hlt]

theorem scanIpv6_ipv6Text (ha : a.length = 16) : scanIpv6 (ipv6Text a) = some a := by
  rw [scanIpv6, splitOn_ipv6Text ha]
  unfold ipv6Fields
  split
  next i n hrun =>
    split_ifs with hn
    · have hrev : dropEdge (fields false a).reverse = some (fields false a).reverse :=
        dropEdge_of_ne_nil fun m hm => fields_ne_nil false a m (List.mem_reverse.mp hm)
      rw [dropEdge_of_ne_nil (fields_ne_nil false a), Option.bind_eq_bind, Option.bind_some, hrev, Option.bind_some,
        List.reverse_reverse, scanGap_none ha]
    · obtain ⟨hle, hsplit⟩ := longestRun_split ha hrun (by omega)
      generalize decide (i = 0 ∧ (n = 6 ∨ n = 5 ∧ slice a 10 12 = [0xff, 0xff])) = dots
      have hpost := fields_ne_nil dots (a.drop (2 * (i + n)))
      have hpreLen : (a.take (2 * i)).length = 2 * i := by
        rw [List.length_take]
        omega
      have hpostLen : (a.drop (2 * (i + n))).length = 16 - 2 * (i + n) := by rw [List.length_drop, ha]
      have hgap : 16 - (2 * i + (16 - 2 * (i + n))) = 2 * n := by omega
      rw [dropEdge_edge (fields_ne_nil false _), Option.bind_eq_bind, Option.bind_some, List.reverse_append, List.reverse_cons,
        List.append_assoc, List.singleton_append, reverse_edge, dropEdge_edge fun m hm => hpost m (List.mem_reverse.mp hm),
        Option.bind_some, List.reverse_append, List.reverse_cons, List.reverse_reverse, List.reverse_reverse,
        List.append_assoc, List.singleton_append, scanGap_fields (by omega) (by omega) (by omega), hpreLen, hpostLen, hgap, ← hsplit]

theorem length_scanWord {a : List UInt8} (h : scanWord m = some a) : a.length = 2 := by
  rw [scanWord, Option.ite_none_right_eq_some] at h
  cases h.2
  rfl

theorem length_scanFields (hdot : ∀ m ∈ ms, ch '.' ∉ m) (h : scanFields scanLast ms = some a) : a.length = 2 * ms.length := by
  induction ms generalizing a with
  | nil =>
    cases h
    rfl
  | cons m ms ih =>
    rw [List.forall_mem_cons] at hdot
    cases ms with
    | nil =>
      rw [scanFields, scanLast, if_neg hdot.1] at h
      exact length_scanWord h
    | cons m' ms =>
      obtain ⟨b, hb, h⟩ := Option.bind_eq_some_iff.mp h
      obtain ⟨bs, hbs, h⟩ := Option.bind_eq_some_iff.mp h
      cases h
      have hlen := ih hdot.2 hbs
      simp only [List.length_append, length_scanWord hb, hlen, List.length_cons]
      omega

theorem hexes_eq (bs : List UInt8) : hexes bs = [ch ':'].intercalate (bs.map hex2) := by
  induction bs with
  | nil => rfl
  | cons b bs ih =>
    cases bs with
    | nil => rfl
    | cons c bs =>
      rw [List.map_cons] at ih
      rw [hexes, ih, List.map_cons, List.map_cons, List.intercalate_cons_cons, List.append_assoc]
      rfl

theorem colon_mem_hexes (h : 2 ≤ bs.length) : ch ':' ∈ hexes bs := by
  match bs, h with
  | b :: c :: bs, _ => exact List.mem_append_right _ List.mem_cons_self

theorem scanIpv6_hexes (hne : bs ≠ []) (h : bs.length ≠ 8) : scanIpv6 (hexes bs) = none := by
  have hdigit (m : List UInt8) (hm : m ∈ bs.map hex2) : m ≠ [] ∧ ∀ c ∈ m, isxdigit c := by
    obtain ⟨b, -, rfl⟩ := List.mem_map.mp hm
    exact ⟨nofun, isxdigit_hex2 b⟩
  have hno (c : UInt8) (hc : ¬isxdigit c) (m : List UInt8) (hm : m ∈ bs.map hex2) : c ∉ m := fun hcm => hc ((hdigit m hm).2 c hcm)
  have hsplit : (hexes bs).splitOn (ch ':') = bs.map hex2 := by
    rw [hexes_eq]
    exact List.splitOn_intercalate _ (hno _ (by decide)) (mt List.map_eq_nil_iff.mp hne)
  have hrev : dropEdge (bs.map hex2).reverse = some (bs.map hex2).reverse :=
    dropEdge_of_ne_nil fun m hm => (hdigit m (List.mem_reverse.mp hm)).1
  have hdrop : (bs.map hex2).dropWhile (· ≠ []) = [] :=
    List.dropWhile_eq_nil_iff.mpr fun m hm => decide_eq_true (hdigit m hm).1
  rw [scanIpv6, hsplit, dropEdge_of_ne_nil fun m hm => (hdigit m hm).1, Option.bind_eq_bind, Option.bind_some, hrev, Option.bind_some,
    List.reverse_reverse, scanGap, hdrop]
  refine Option.filter_eq_none_iff.mpr fun a ha heq => h ?_
  have hlen := length_scanFields (hno _ (by decide)) ha
  rw [of_decide_eq_true heq, List.length_map] at hlen
  omega

end Yjc.InetText
