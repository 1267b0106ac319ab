import Yjc.Event.Unpack
import Mathlib.Data.List.Induction

/-! `read_cb` may close the io it is called for. The unpack functions do not look at `closed` after it
returns, so they use the read buffer again exactly when such a close takes effect. -/

namespace Yjc.Event
open Mem

/-- How many calls of `evio_close` an open io only puts off. -/
def Evio.closesPutOff (io : Evio) : ℕ := if io.putsOffClose then 1 else 0

/-- How often `read_cb` calls `evio_close` over the buffers `pkgs`, after `old`. -/
def closeCalls (cb : ReadCb) (old pkgs : List (List UInt8)) : ℕ :=
  ((List.range pkgs.length).map fun i => cb (old ++ pkgs.take (i + 1))).sum

theorem closeCalls_nil (cb : ReadCb) (old : List (List UInt8)) : closeCalls cb old [] = 0 := rfl

theorem closeCalls_snoc (cb : ReadCb) (old pkgs : List (List UInt8)) (pkg : List UInt8) :
    closeCalls cb old (pkgs ++ [pkg]) = closeCalls cb old pkgs + cb (old ++ pkgs ++ [pkg]) := by
  have htake (i : ℕ) (hi : i ∈ List.range pkgs.length) : cb (old ++ (pkgs ++ [pkg]).take (i + 1)) =
      cb (old ++ pkgs.take (i + 1)) := by
    rw [List.mem_range] at hi
    rw [List.take_append_of_le_length hi]
  have hall : (pkgs ++ [pkg]).take (pkgs.length + 1) = pkgs ++ [pkg] := List.take_of_length_le (by simp)
  rw [closeCalls, List.length_append, List.length_singleton, List.range_succ, List.map_append, List.sum_append,
    List.map_congr_left htake, closeCalls]
  simp only [List.map_cons, List.map_nil, List.sum_singleton, hall, List.append_assoc]

/-- `io` is `io₀` after `read_cb` was called for `pkgs`, and no close has taken effect. -/
structure Unclosed (cb : ReadCb) (io₀ : Evio) (pkgs : List (List UInt8)) (io : Evio) : Prop where
  isOpen : io.closed = false
  delivered : io.delivered = io₀.delivered ++ pkgs
  calls : closeCalls cb io₀.delivered pkgs + io.closesPutOff = io₀.closesPutOff
  trace : ∃ new, io.trace = io₀.trace ++ new ∧ .closed ∉ new

theorem Unclosed.refl (cb : ReadCb) {io : Evio} (h : io.closed = false) : Unclosed cb io [] io :=
  ⟨h, (List.append_nil _).symm, by rw [closeCalls_nil, Nat.zero_add], [], (List.append_nil _).symm, by simp⟩

theorem Unclosed.load {cb : ReadCb} {io₀ io : Evio} {pkgs : List (List UInt8)} (h : Unclosed cb io₀ pkgs io)
    (p : ℕ) : Unclosed cb io₀ pkgs (io.log (.load p)) := by
  obtain ⟨hopen, hdel, hcalls, new, ht, hnew⟩ := h
  refine ⟨hopen, ?_, hcalls, new ++ [Ev.load p], ?_, by simp [hnew]⟩
  · rw [Evio.delivered_log, hdel]
    exact List.append_nil _
  · rw [Evio.log_trace, ht, List.append_assoc]

theorem evioClose_iterate_closed (closer : Closer) (k : ℕ) {io : Evio} (h : io.closed = true) :
    (evioClose closer)^[k] io = io :=
  Function.iterate_fixed (by rw [evioClose_eq, if_pos h]) k

theorem evioClose_iterate_open (closer : Closer) (k : ℕ) {io : Evio} (hopen : io.closed = false) :
    ∃ new, ((evioClose closer)^[k] io).trace = io.trace ++ new ∧ new.filterMap Ev.package? = [] ∧
      (k ≤ io.closesPutOff → .closed ∉ new ∧ ((evioClose closer)^[k] io).closed = false ∧
        k + ((evioClose closer)^[k] io).closesPutOff = io.closesPutOff) ∧
      (io.closesPutOff < k → .closed ∈ new) := by
  induction k generalizing io with
  | zero => exact ⟨[], by simp, rfl, fun _ => ⟨by simp, hopen, Nat.zero_add _⟩, by omega⟩
  | succ k ih =>
    have ht := evioClose_trace closer io
    rw [Function.iterate_succ_apply]
    cases hp : io.putsOffClose with
    | true =>
      have hopen' : (evioClose closer io).closed = false := by
        rw [evioClose_eq, if_neg (by simp [hopen]), if_pos hp]
        exact hopen
      -- a second call is not put off
      have hput : (evioClose closer io).closesPutOff = 0 := by
        rw [evioClose_eq, if_neg (by simp [hopen]), if_pos hp]
        simp [Evio.closesPutOff, Evio.putsOffClose, evioCloseArm, armTimer]
      obtain ⟨new, htn, hpk, hle, hlt⟩ := ih hopen'
      rw [if_neg (by simp [hopen]), if_pos hp] at ht
      have h1 : io.closesPutOff = 1 := by rw [Evio.closesPutOff, if_pos hp]
      rw [hput] at hle hlt
      refine ⟨.closeCall closer (!io.writeQueue.empty) io.error :: new, ?_, ?_, fun hk => ?_, fun hk => ?_⟩
      · rw [htn, ht, List.append_assoc, List.singleton_append]
      · simpa [Ev.package?] using hpk
      · obtain ⟨hc, ho, he⟩ := hle (by omega)
        exact ⟨by simpa using hc, ho, by omega⟩
      · exact List.mem_cons_of_mem _ (hlt (by omega))
    | false =>
      have hclosed : (evioClose closer io).closed = true := by
        rw [evioClose_eq, if_neg (by simp [hopen]), if_neg (by simp [hp])]
        rfl
      have h0 : io.closesPutOff = 0 := by rw [Evio.closesPutOff, if_neg (by simp [hp])]
      rw [if_neg (by simp [hopen]), if_neg (by simp [hp])] at ht
      rw [evioClose_iterate_closed closer k hclosed]
      refine ⟨_, ht, by simp [Ev.package?], fun hk => ?_, fun _ => by simp⟩
      omega

theorem evioReadCbEnter_eq (off : ℕ) (pkg : List UInt8) (io : Evio) :
    (evioReadCbEnter off pkg io).closed = io.closed ∧ (evioReadCbEnter off pkg io).closesPutOff = io.closesPutOff ∧
      (evioReadCbEnter off pkg io).delivered = io.delivered ++ [pkg] := by
  have hdel : (evioReadCbEnter off pkg io).delivered = io.delivered ++ [pkg] := by
    rw [Evio.delivered, evioReadCbEnter_trace, List.filterMap_append]
    rfl
  refine ⟨?_, ?_, hdel⟩ <;> unfold evioReadCbEnter <;> dsimp only <;> split_ifs <;> rfl

theorem evioReadCbLeave_eq (len : ℕ) (io : Evio) :
    (evioReadCbLeave len io).closed = io.closed ∧ (evioReadCbLeave len io).closesPutOff = io.closesPutOff ∧
      (evioReadCbLeave len io).trace = io.trace := by
  unfold evioReadCbLeave
  split_ifs <;> exact ⟨rfl, rfl, rfl⟩

theorem Unclosed.readCb {cb : ReadCb} {io₀ io : Evio} {pkgs : List (List UInt8)} (h : Unclosed cb io₀ pkgs io)
    (off : ℕ) (pkg : List UInt8) :
    (closeCalls cb io₀.delivered (pkgs ++ [pkg]) ≤ io₀.closesPutOff →
      Unclosed cb io₀ (pkgs ++ [pkg]) (evioReadCb cb off pkg io)) ∧
    (io₀.closesPutOff < closeCalls cb io₀.delivered (pkgs ++ [pkg]) →
      ∃ new, (evioReadCb cb off pkg io).trace = io₀.trace ++ new ∧ .closed ∈ new) := by
  -- a round that hands out a package: the close calls are put off, or one takes effect
  obtain ⟨hopen, hdel, hcalls, new, ht, hnew⟩ := h
  obtain ⟨hopen₁, hput₁, hdel₁⟩ := evioReadCbEnter_eq off pkg io
  have ht₁ := evioReadCbEnter_trace off pkg io
  obtain ⟨new', ht', hpk, hle, hlt⟩ := evioClose_iterate_open .app (cb (evioReadCbEnter off pkg io).delivered)
    (hopen₁.trans hopen)
  obtain ⟨hopen₂, hput₂, ht₂⟩ := evioReadCbLeave_eq pkg.length
    ((evioClose .app)^[cb (evioReadCbEnter off pkg io).delivered] (evioReadCbEnter off pkg io))
  have htrace : (evioReadCb cb off pkg io).trace = io₀.trace ++ (new ++ Ev.readCb off pkg :: new') := by
    rw [evioReadCb, ht₂, ht', ht₁, ht]
    simp only [List.append_assoc, List.singleton_append]
  have hk : cb (evioReadCbEnter off pkg io).delivered = cb (io₀.delivered ++ pkgs ++ [pkg]) := by rw [hdel₁, hdel]
  rw [closeCalls_snoc, ← hk]
  rw [hput₁] at hle hlt
  constructor
  · intro hc
    obtain ⟨hnot, ho, he⟩ := hle (by omega)
    refine ⟨hopen₂.trans ho, ?_, ?_, _, htrace, ?_⟩
    · have hnew : (.readCb off pkg :: new').filterMap Ev.package? = [pkg] := congrArg (pkg :: ·) hpk
      rw [Evio.delivered, htrace, ← List.append_assoc, List.filterMap_append, ← ht, ← Evio.delivered, hdel, hnew,
        List.append_assoc]
    · rw [closeCalls_snoc, ← hk]
      have hp : (evioReadCb cb off pkg io).closesPutOff = _ := hput₂
      omega
    · simp [hnew, hnot]
  · intro hc
    exact ⟨_, htrace, by simp [hlt (by omega)]⟩

/-! ## Loops over the read buffer -/

/-- After a close that took effect no event of `io` uses the read buffer. -/
def SilentSince (io₀ io : Evio) : Prop :=
  ∀ pre post, io.trace = io₀.trace ++ pre ++ Ev.closed :: post → ∀ e ∈ post, e.usesReadbuf = false

/-- `HandsOut next mem p pkgs q`: from `p` on, packages of the lengths `next` gives are `pkgs`, and end at `q`. -/
inductive HandsOut (next : ℕ → Option ℕ) (mem : List UInt8) (p : ℕ) : List (List UInt8) → ℕ → Prop
  | nil : HandsOut next mem p [] p
  | snoc {pkgs : List (List UInt8)} {q n : ℕ} : HandsOut next mem p pkgs q → next q = some n →
      HandsOut next mem p (pkgs ++ [slice mem q (q + n)]) (q + n)

theorem silentSince_of_not_mem {io₀ io : Evio} {new : List Ev} (tail : List Ev) (ht : io.trace = io₀.trace ++ new ++ tail)
    (hc : .closed ∉ new) (htail : ∀ e ∈ tail, e.usesReadbuf = false) : SilentSince io₀ io := by
  intro pre post he e hpost
  rw [ht, List.append_assoc, List.append_assoc] at he
  rcases List.append_eq_append_iff.mp (List.append_cancel_left he) with ⟨as, -, rfl⟩ | ⟨bs, rfl, hbs⟩
  · exact htail e (by simp [hpost])
  · cases bs with
    | nil =>
      rw [List.nil_append] at hbs
      exact htail e (by simp [← hbs, hpost])
    | cons b bs =>
      rw [List.cons_append, List.cons.injEq] at hbs
      simp [← hbs.1] at hc

theorem not_silentSince {io₀ io : Evio} {new late : List Ev} (ht : io.trace = io₀.trace ++ new ++ late)
    (hc : .closed ∈ new) {e : Ev} (he : e ∈ late) (hu : e.usesReadbuf = true) : ¬SilentSince io₀ io := by
  intro h
  obtain ⟨pre, post, rfl⟩ := List.append_of_mem hc
  have hf := h pre (post ++ late) (by rw [ht]; simp) e (by simp [he])
  rw [hu] at hf
  cases hf

section
variable {σ ρ : Type} (body : σ → σ ⊕ ρ) (io : σ → Evio) (kept : ρ → Evio)

/-- A call that runs the loop from `s₀`, leaves it for `kept` and returns `call` does nothing with the
read buffer once the io is closed. -/
structure NothingAfterClose (call : Option (Evio × ℤ)) (s₀ : σ) : Prop where
  rounds : ∀ s, Loop.Visits body s₀ s → SilentSince (io s₀) (io s)
  leaves : ∀ s r, Loop.Visits body s₀ s → body s = .inr r → SilentSince (io s₀) (kept r)
  returns : ∀ res, call = some res → SilentSince (io s₀) res.1

variable (pos : σ → ℕ) (next : ℕ → Option ℕ) (mem : List UInt8) (cb : ReadCb) (J : σ → Prop) (μ : σ → ℕ)

/-- What a round does at the package that starts at `pos s`: it hands it out, looks further for its
end, or leaves the loop. -/
inductive Round (s : σ) : Prop
  | deliver (t : σ) (n : ℕ) (io₁ : Evio) (p : ℕ) : body s = .inl t → J t → next (pos s) = some n → pos t = pos s + n →
      (io₁ = io s ∨ io₁ = (io s).log (.load p)) →
      io t = evioReadCb cb (pos s) (slice mem (pos s) (pos s + n)) io₁ → Round s
  | search (t : σ) (p : ℕ) : body s = .inl t → J t → μ t < μ s → pos t = pos s → io t = (io s).log (.load p) → Round s
  | leave (r : ρ) (late : List Ev) (e : Ev) : body s = .inr r → next (pos s) = none →
      (kept r).trace = (io s).trace ++ late → .closed ∉ late → e ∈ late → e.usesReadbuf = true → Round s

variable {body io kept pos next mem cb J μ} (hround : ∀ s, J s → Round body io kept pos next mem cb J μ s)
  {s₀ : σ} (hJ : J s₀) (hopen : (io s₀).closed = false)
include hround hJ hopen

theorem visits_unclosed (hcalls : ∀ pkgs q, HandsOut next mem (pos s₀) pkgs q →
      closeCalls cb (io s₀).delivered pkgs ≤ (io s₀).closesPutOff) {s : σ} (hv : Loop.Visits body s₀ s) :
    J s ∧ ∃ pkgs, HandsOut next mem (pos s₀) pkgs (pos s) ∧ Unclosed cb (io s₀) pkgs (io s) := by
  refine hv.invariant (fun s => J s ∧ ∃ pkgs, HandsOut next mem (pos s₀) pkgs (pos s) ∧
    Unclosed cb (io s₀) pkgs (io s)) ?_ ⟨hJ, [], .nil, Unclosed.refl cb hopen⟩
  rintro s t ⟨hs, pkgs, hh, hu⟩ h
  cases hround s hs with
  | deliver t' n io₁ p hb ht hn hp hio he =>
    rw [hb] at h
    cases h
    have hh' := hh.snoc hn
    have hu₁ : Unclosed cb (io s₀) pkgs io₁ := by
      rcases hio with rfl | rfl
      · exact hu
      · exact hu.load p
    refine ⟨ht, _, by rw [hp]; exact hh', ?_⟩
    rw [he]
    exact (hu₁.readCb _ _).1 (hcalls _ _ hh')
  | search t' p hb ht _ hp he =>
    rw [hb] at h
    cases h
    exact ⟨ht, pkgs, by rw [hp]; exact hh, by rw [he]; exact hu.load p⟩
  | leave r _ _ hb =>
    rw [hb] at h
    cases h

omit hJ hopen in
theorem not_silent_of_closed {s : σ} (hs : J s) (hv : Loop.Visits body s₀ s) {new : List Ev}
    (ht : (io s).trace = (io s₀).trace ++ new) (hc : .closed ∈ new)
    (hrounds : ∀ s, Loop.Visits body s₀ s → SilentSince (io s₀) (io s))
    (hleaves : ∀ s r, Loop.Visits body s₀ s → body s = .inr r → SilentSince (io s₀) (kept r)) : False := by
  cases hround s hs with
  | deliver t n io₁ p hb _ _ _ hio he =>
    obtain ⟨late, htl, -⟩ := evioReadCb_trace cb (pos s) (slice mem (pos s) (pos s + n)) io₁
    rw [← he] at htl
    rcases hio with rfl | rfl
    · rw [ht] at htl
      exact not_silentSince htl hc (List.mem_cons_self ..) rfl (hrounds t (hv.round hb))
    · rw [Evio.log_trace, ht, List.append_assoc] at htl
      exact not_silentSince htl hc (List.mem_cons_self ..) rfl (hrounds t (hv.round hb))
  | search t p hb _ _ _ he =>
    have htl : (io t).trace = (io s₀).trace ++ new ++ [Ev.load p] := by rw [he, Evio.log_trace, ht]
    exact not_silentSince htl hc (List.mem_singleton_self _) rfl (hrounds t (hv.round hb))
  | leave r late e hb _ hk _ he hu =>
    rw [ht] at hk
    exact not_silentSince hk hc he hu (hleaves s r hv hb)

omit hJ hopen in
theorem exists_deliver {s : σ} (hs : J s) (hv : Loop.Visits body s₀ s) {pkgs : List (List UInt8)}
    (hu : Unclosed cb (io s₀) pkgs (io s)) {n : ℕ} (hn : next (pos s) = some n) :
    ∃ t io₁, Loop.Visits body s₀ t ∧ J t ∧ pos t = pos s + n ∧ Unclosed cb (io s₀) pkgs io₁ ∧
      io t = evioReadCb cb (pos s) (slice mem (pos s) (pos s + n)) io₁ := by
  induction hm : μ s using Nat.strongRecOn generalizing s with
  | ind m ih =>
    cases hround s hs with
    | deliver t n' io₁ p hb ht hn' hp hio he =>
      rw [hn] at hn'
      cases hn'
      refine ⟨t, io₁, hv.round hb, ht, hp, ?_, he⟩
      rcases hio with rfl | rfl
      · exact hu
      · exact hu.load p
    | search t p hb ht hμ hp he =>
      have hu' : Unclosed cb (io s₀) pkgs (io t) := by
        rw [he]
        exact hu.load p
      have h := ih (μ t) (by omega) ht (hv.round hb) hu' (by rwa [hp]) rfl
      rwa [hp] at h
    | leave r _ _ _ hnone =>
      rw [hn] at hnone
      cases hnone

/-- Nothing happens after a close exactly when, over the packages the buffer holds, `read_cb` does not
call `evio_close` more often than it is put off. -/
theorem nothingAfterClose_iff {call : Option (Evio × ℤ)}
    (hcall : ∀ res, call = some res → ∃ s r tail, Loop.Visits body s₀ s ∧ body s = .inr r ∧
      res.1.trace = (kept r).trace ++ tail ∧ ∀ e ∈ tail, e.usesReadbuf = false) :
    NothingAfterClose body io kept call s₀ ↔ ∀ pkgs q, HandsOut next mem (pos s₀) pkgs q →
      closeCalls cb (io s₀).delivered pkgs ≤ (io s₀).closesPutOff := by
  constructor
  · rintro ⟨hrounds, hleaves, -⟩ pkgs q hh
    -- follow the packages: once a close takes effect, the next round or the end of the loop uses the buffer
    have key : ∃ s, Loop.Visits body s₀ s ∧ J s ∧ pos s = q ∧ Unclosed cb (io s₀) pkgs (io s) := by
      induction hh with
      | nil => exact ⟨s₀, .refl body s₀, hJ, rfl, Unclosed.refl cb hopen⟩
      | @snoc pkgs q n hh hn ih =>
        obtain ⟨s, hv, hs, rfl, hu⟩ := ih
        obtain ⟨t, io₁, hvt, ht, hp, hu₁, he⟩ := exists_deliver hround hs hv hu hn
        have hread := hu₁.readCb (pos s) (slice mem (pos s) (pos s + n))
        rw [← he] at hread
        rcases Nat.lt_or_ge (io s₀).closesPutOff
          (closeCalls cb (io s₀).delivered (pkgs ++ [slice mem (pos s) (pos s + n)])) with hlt | hle
        · obtain ⟨new, htr, hc⟩ := hread.2 hlt
          exact (not_silent_of_closed hround ht hvt htr hc hrounds hleaves).elim
        · exact ⟨t, hvt, ht, hp, hread.1 hle⟩
    obtain ⟨s, -, -, -, hu⟩ := key
    have := hu.calls
    omega
  · intro hcalls
    have hleave (s : σ) (r : ρ) (hv : Loop.Visits body s₀ s) (hb : body s = .inr r) :
        ∃ new, (kept r).trace = (io s₀).trace ++ new ∧ .closed ∉ new := by
      obtain ⟨hs, pkgs, -, hu⟩ := visits_unclosed hround hJ hopen hcalls hv
      obtain ⟨new, ht, hnew⟩ := hu.trace
      cases hround s hs with
      | deliver _ _ _ _ hb' => simp [hb] at hb'
      | search _ _ hb' => simp [hb] at hb'
      | leave r' late _ hb' _ hk hc =>
        rw [hb] at hb'
        cases hb'
        exact ⟨new ++ late, by rw [hk, ht, List.append_assoc], by simp [hnew, hc]⟩
    refine ⟨?_, ?_, ?_⟩
    · intro s hv
      obtain ⟨-, pkgs, -, hu⟩ := visits_unclosed hround hJ hopen hcalls hv
      obtain ⟨new, ht, hnew⟩ := hu.trace
      exact silentSince_of_not_mem [] (by rw [ht, List.append_nil]) hnew (by simp)
    · intro s r hv hb
      obtain ⟨new, ht, hnew⟩ := hleave s r hv hb
      exact silentSince_of_not_mem [] (by rw [ht, List.append_nil]) hnew (by simp)
    · intro res hres
      obtain ⟨s, r, tail, hv, hb, htl, hno⟩ := hcall res hres
      obtain ⟨new, ht, hnew⟩ := hleave s r hv hb
      exact silentSince_of_not_mem tail (by rw [htl, ht]) hnew hno

end

/-! ## The three loops -/

theorem keepRest_trace (base : Block) (mem : List UInt8) (p remain : ℕ) (io : Evio) :
    ∃ late, (keepRest base mem p remain io).trace = io.trace ++ Ev.setFifo :: late ∧ .closed ∉ late := by
  unfold keepRest
  dsimp only
  split_ifs
  · exact ⟨[.move], by simp, by simp⟩
  · exact ⟨[], by simp, by simp⟩

theorem overLimit_trace (io : Evio) :
    ∃ tail, (overLimit io).1.trace = io.trace ++ tail ∧ ∀ e ∈ tail, e.usesReadbuf = false := by
  obtain ⟨new, ht, hn⟩ := evioClose_iterate_trace .fault 1 (io.fail errOverLimit)
  refine ⟨.failed errOverLimit :: new, ?_, ?_⟩
  · rw [Function.iterate_one, Evio.fail, Evio.log_trace, List.append_assoc] at ht
    exact ht
  · intro e he
    rcases List.mem_cons.mp he with rfl | he
    · rfl
    · exact hn e he

theorem evioAllocReadbuf_trace {len : ℤ} {io io' : Evio} (h : evioAllocReadbuf len io = some io') :
    io'.trace = io.trace := by
  unfold evioAllocReadbuf at h
  split_ifs at h <;> cases h <;> rfl

theorem grown_trace {A B : Prop} [Decidable A] [Decidable B] {len handled : ℤ} {io : Evio} {res : Evio × ℤ}
    (h : (if A then if B then some (overLimit io) else (evioAllocReadbuf len io).map fun io => (io, handled) else some (io, handled)) = some res) :
    ∃ tail, res.1.trace = io.trace ++ tail ∧ ∀ e ∈ tail, e.usesReadbuf = false := by
  split_ifs at h
  · cases h
    exact overLimit_trace io
  · obtain ⟨io', ha, rfl⟩ := Option.map_eq_some_iff.mp h
    exact ⟨[], by rw [List.append_nil]; exact evioAllocReadbuf_trace ha, by simp⟩
  · cases h
    exact ⟨[], (List.append_nil _).symm, by simp⟩

def fixedNext (n ep q : ℕ) : Option ℕ := if n ≤ ep - q then some n else none

def FixedLoop.kept (base : Block) (mem : List UInt8) (s : FixedLoop) : Evio := keepRest base mem s.p s.remain s.io

theorem fixed_round (cb : ReadCb) (n : ℕ) (base : Block) (mem : List UInt8) (ep : ℕ) (s : FixedLoop)
    (hs : s.p + s.remain = ep) :
    Round (fixedBody cb n mem) FixedLoop.io (FixedLoop.kept base mem) FixedLoop.p (fixedNext n ep) mem cb
      (fun s => s.p + s.remain = ep) FixedLoop.remain s := by
  have hr : ep - s.p = s.remain := by omega
  by_cases h : n ≤ s.remain
  · refine .deliver _ n s.io 0 (if_pos h) (by dsimp only; omega) ?_ rfl (.inl rfl) rfl
    rw [fixedNext, hr, if_pos h]
  · obtain ⟨late, hk, hc⟩ := keepRest_trace base mem s.p s.remain s.io
    refine .leave s (.setFifo :: late) .setFifo (if_neg h) ?_ hk (by simpa using hc) (List.mem_cons_self ..) rfl
    rw [fixedNext, hr, if_neg h]

/-- The first end of the delimiter at or behind where the search for it starts. -/
def delimNext (d mem : List UInt8) (from₀ ep q : ℕ) : Option ℕ :=
  (List.range (ep - q + 1)).find? fun n => max q from₀ + d.length ≤ q + n ∧ slice mem (q + n - d.length) (q + n) = d

def DelimLoop.kept (base : Block) (mem : List UInt8) (ep : ℕ) (s : DelimLoop) : Evio :=
  keepRest base mem s.sp (ep - s.sp) s.io

/-- The delimiter was not found from where the search started up to `p`. -/
structure Searching (d mem : List UInt8) (from₀ ep : ℕ) (s : DelimLoop) : Prop where
  pos : s.p + s.remain = ep
  start : max s.sp from₀ ≤ s.p
  none : ∀ x, max s.sp from₀ ≤ x → x < s.p → slice mem x (x + d.length) ≠ d

theorem delim_round (cb : ReadCb) (d : List UInt8) (base : Block) (mem : List UInt8) (from₀ ep : ℕ) (s : DelimLoop)
    (hs : Searching d mem from₀ ep s) :
    Round (delimBody cb d mem) DelimLoop.io (DelimLoop.kept base mem ep) DelimLoop.sp (delimNext d mem from₀ ep) mem
      cb (Searching d mem from₀ ep) DelimLoop.remain s := by
  obtain ⟨hpos, hstart, hnone⟩ := hs
  by_cases hshort : s.remain < d.length
  · obtain ⟨late, hk, hc⟩ := keepRest_trace base mem s.sp (ep - s.sp) s.io
    refine .leave s (.setFifo :: late) .setFifo (if_pos hshort) ?_ hk (by simpa using hc) (List.mem_cons_self ..) rfl
    rw [delimNext, List.find?_range_eq_none]
    intro n hn
    simp only [Bool.not_eq_true', decide_eq_false_iff_not, not_and]
    intro hle hm
    apply hnone (s.sp + n - d.length) (by omega) (by omega)
    rwa [show s.sp + n - d.length + d.length = s.sp + n by omega]
  · by_cases hmatch : slice mem s.p (s.p + d.length) = d
    · have hb : delimBody cb d mem s = .inl _ := (if_neg hshort).trans (if_pos hmatch)
      have he : s.sp + (s.p + d.length - s.sp) = s.p + d.length := by omega
      refine .deliver _ (s.p + d.length - s.sp) (s.io.log (.load s.p)) s.p hb ⟨?_, ?_, ?_⟩ ?_ he.symm (.inr rfl) ?_
      · dsimp only
        omega
      · dsimp only
        omega
      · intro x hx hlt
        dsimp only at hx hlt
        omega
      · rw [delimNext, List.find?_range_eq_some]
        refine ⟨?_, List.mem_range.mpr (by omega), fun m hm => ?_⟩
        · rw [decide_eq_true_eq, he, Nat.add_sub_cancel]
          exact ⟨by omega, hmatch⟩
        · simp only [Bool.not_eq_true', decide_eq_false_iff_not, not_and]
          intro hle hm
          apply hnone (s.sp + m - d.length) (by omega) (by omega)
          rwa [show s.sp + m - d.length + d.length = s.sp + m by omega]
      · rw [he]
    -- an empty delimiter would match here
    · have hd : 0 < d.length := by
        refine Nat.pos_of_ne_zero fun h0 => hmatch ?_
        rw [List.length_eq_zero_iff.mp h0, List.length_nil, Nat.add_zero, slice_self]
      have hb : delimBody cb d mem s = .inl _ := (if_neg hshort).trans (if_neg hmatch)
      refine .search _ s.p hb ⟨by dsimp only; omega, by dsimp only; omega, fun x hx hlt => ?_⟩ (by dsimp only; omega)
        rfl rfl
      dsimp only at hx hlt
      rcases Nat.lt_succ_iff_lt_or_eq.mp hlt with hlt | rfl
      · exact hnone x hx hlt
      · exact hmatch

def lengthNext (f : LengthField) (mem : List UInt8) (ep q : ℕ) : Option ℕ :=
  if ep - q < f.bodyOffset then none
  else
    match readLength f mem q ep with
    | .lengths h v => if packageLen f h v ≤ ep - q then some (packageLen f h v) else none
    | _ => none

def LengthExit.kept (base : Block) (mem : List UInt8) : LengthExit → Evio
  | .rest s => keepRest base mem s.p s.remain s.io
  | .tooBig s => s.io
  | .undefined s => s.io

theorem length_round (cb : ReadCb) (f : LengthField) (base : Block) (mem : List UInt8) (ep : ℕ) (s : LengthLoop)
    (hs : s.p + s.remain = ep) :
    Round (lengthBody cb f mem) LengthLoop.io (LengthExit.kept base mem) LengthLoop.p (lengthNext f mem ep) mem cb
      (fun s => s.p + s.remain = ep) LengthLoop.remain s := by
  have hr : ep - s.p = s.remain := by omega
  by_cases hshort : s.remain < f.bodyOffset
  · obtain ⟨late, hk, hc⟩ := keepRest_trace base mem s.p s.remain s.io
    refine .leave (.rest s) (.setFifo :: late) .setFifo (if_pos hshort) ?_ hk (by simpa using hc)
      (List.mem_cons_self ..) rfl
    rw [lengthNext, hr, if_pos hshort]
  · have hbody : lengthBody cb f mem s = _ := if_neg hshort
    have hnext : lengthNext f mem ep s.p = _ := if_neg (by rwa [hr])
    have hload : .closed ∉ [Ev.load s.p] := by simp
    rw [hs] at hbody
    cases hl : readLength f mem s.p ep with
    | undefined =>
      rw [hl] at hbody hnext
      exact .leave _ [.load s.p] (.load s.p) hbody hnext rfl hload (List.mem_singleton_self _) rfl
    | tooBig =>
      rw [hl] at hbody hnext
      exact .leave _ [.load s.p] (.load s.p) hbody hnext rfl hload (List.mem_singleton_self _) rfl
    | short =>
      rw [hl] at hbody hnext
      obtain ⟨late, hk, hc⟩ := keepRest_trace base mem s.p s.remain (s.io.log (.load s.p))
      rw [Evio.log_trace, List.append_assoc] at hk
      exact .leave _ _ (.load s.p) hbody hnext hk (by simpa using hc) (List.mem_cons_self ..) rfl
    | lengths h v =>
      rw [hl] at hbody hnext
      dsimp only at hbody hnext
      rw [hr] at hnext
      by_cases hle : packageLen f h v ≤ s.remain
      · rw [if_pos hle] at hbody hnext
        exact .deliver _ (packageLen f h v) (s.io.log (.load s.p)) s.p hbody
          (by dsimp only [LengthLoop.deliver]; omega) hnext rfl (.inr rfl) rfl
      · rw [if_neg hle] at hbody hnext
        obtain ⟨late, hk, hc⟩ := keepRest_trace base mem s.p s.remain (s.io.log (.load s.p))
        rw [Evio.log_trace, List.append_assoc] at hk
        exact .leave _ _ (.load s.p) hbody hnext hk (by simpa using hc) (List.mem_cons_self ..) rfl

section
variable (cb : ReadCb) (buf readbytes : ℕ) (io : Evio) {res : Evio × ℤ}

theorem fixed_returns (n : ℕ) (h : evioUnpackByFixedLength cb n buf readbytes io = some res) :
    ∃ s r tail, Loop.Visits (fixedBody cb n io.readbuf.mem) (fixedStart buf readbytes io) s ∧
      fixedBody cb n io.readbuf.mem s = .inr r ∧
      res.1.trace = (r.kept io.readbuf.base io.readbuf.mem).trace ++ tail ∧ ∀ e ∈ tail, e.usesReadbuf = false := by
  unfold evioUnpackByFixedLength at h
  dsimp only at h
  split_ifs at h
  obtain ⟨r, hr, rfl⟩ := Option.map_eq_some_iff.mp h
  obtain ⟨s, hv, hs⟩ := Loop.exists_visits_of_run hr
  exact ⟨s, r, [], hv, hs, (List.append_nil _).symm, by simp⟩

theorem delim_returns (d : List UInt8) (packageMaxLength : ℕ)
    (h : evioUnpackByDelimiter cb d packageMaxLength buf readbytes io = some res) :
    ∃ s r tail, Loop.Visits (delimBody cb d io.readbuf.mem) (delimStart d buf readbytes io) s ∧
      delimBody cb d io.readbuf.mem s = .inr r ∧
      res.1.trace = (r.kept io.readbuf.base io.readbuf.mem (buf + readbytes)).trace ++ tail ∧
      ∀ e ∈ tail, e.usesReadbuf = false := by
  unfold evioUnpackByDelimiter at h
  dsimp only at h
  obtain ⟨r, hr, h⟩ := Option.bind_eq_some_iff.mp h
  obtain ⟨s, hv, hs⟩ := Loop.exists_visits_of_run hr
  obtain ⟨tail, ht, hn⟩ := grown_trace h
  exact ⟨s, r, tail, hv, hs, ht, hn⟩

theorem length_returns (f : LengthField) (packageMaxLength : ℕ)
    (h : evioUnpackByLengthField cb f packageMaxLength buf readbytes io = some res) :
    ∃ s r tail, Loop.Visits (lengthBody cb f io.readbuf.mem) (lengthStart f buf readbytes io) s ∧
      lengthBody cb f io.readbuf.mem s = .inr r ∧
      res.1.trace = (r.kept io.readbuf.base io.readbuf.mem).trace ++ tail ∧ ∀ e ∈ tail, e.usesReadbuf = false := by
  unfold evioUnpackByLengthField at h
  dsimp only at h
  obtain ⟨r, hr, h⟩ := Option.bind_eq_some_iff.mp h
  obtain ⟨s, hv, hs⟩ := Loop.exists_visits_of_run hr
  refine ⟨s, r, ?_⟩
  cases r with
  | undefined t => cases h
  | tooBig t =>
    cases h
    obtain ⟨tail, ht, hn⟩ := overLimit_trace t.io
    exact ⟨tail, hv, hs, ht, hn⟩
  | rest t =>
    obtain ⟨tail, ht, hn⟩ := grown_trace h
    exact ⟨tail, hv, hs, ht, hn⟩

end

/-- `read_cb` calls `evio_close` no more often than it is put off, over the packages that `next` cuts
the buffered bytes into. -/
def ClosesPutOff (cb : ReadCb) (next : ℕ → Option ℕ) (io : Evio) : Prop :=
  ∀ pkgs q, HandsOut next io.readbuf.mem io.readbuf.head pkgs q →
    closeCalls cb io.delivered pkgs ≤ io.closesPutOff

/-- Each unpack function does nothing with the read buffer after a close, exactly when none that
`read_cb` asks for takes effect. -/
theorem unpack_silent_iff (cb : ReadCb) (buf readbytes : ℕ) (io : Evio) (hopen : io.closed = false)
    (hhead : io.readbuf.head ≤ buf + readbytes) (hread : 0 < readbytes) :
    (∀ n, NothingAfterClose (fixedBody cb n io.readbuf.mem) FixedLoop.io
        (FixedLoop.kept io.readbuf.base io.readbuf.mem) (evioUnpackByFixedLength cb n buf readbytes io)
        (fixedStart buf readbytes io) ↔
      ClosesPutOff cb (fixedNext n (buf + readbytes)) io) ∧
    (∀ d packageMaxLength, NothingAfterClose (delimBody cb d io.readbuf.mem) DelimLoop.io
        (DelimLoop.kept io.readbuf.base io.readbuf.mem (buf + readbytes))
        (evioUnpackByDelimiter cb d packageMaxLength buf readbytes io) (delimStart d buf readbytes io) ↔
      ClosesPutOff cb (delimNext d io.readbuf.mem (buf + 1 - d.length) (buf + readbytes)) io) ∧
    (∀ f packageMaxLength, NothingAfterClose (lengthBody cb f io.readbuf.mem) LengthLoop.io
        (LengthExit.kept io.readbuf.base io.readbuf.mem)
        (evioUnpackByLengthField cb f packageMaxLength buf readbytes io) (lengthStart f buf readbytes io) ↔
      ClosesPutOff cb (lengthNext f io.readbuf.mem (buf + readbytes)) io) := by
  refine ⟨fun n => ?_, fun d m => ?_, fun f m => ?_⟩
  · exact nothingAfterClose_iff (fixed_round cb n io.readbuf.base io.readbuf.mem (buf + readbytes))
      (by dsimp only [fixedStart]; omega) hopen fun res h => fixed_returns cb buf readbytes io n h
  · refine nothingAfterClose_iff (delim_round cb d io.readbuf.base io.readbuf.mem (buf + 1 - d.length) (buf + readbytes))
      ⟨?_, Nat.le_refl _, ?_⟩ hopen fun res h => delim_returns cb buf readbytes io d m h
    · dsimp only [delimStart]
      omega
    · intro x hx hlt
      dsimp only [delimStart] at hx hlt
      omega
  · exact nothingAfterClose_iff (length_round cb f io.readbuf.base io.readbuf.mem (buf + readbytes))
      (by dsimp only [lengthStart]; omega) hopen fun res h => length_returns cb buf readbytes io f m h

/-- A callback that closes the io when it gets the first package. -/
def closeOnFirst : ReadCb := fun pkgs => if pkgs.length = 1 then 1 else 0

theorem closeCalls_closeOnFirst (pkgs : List (List UInt8)) :
    closeCalls closeOnFirst [] pkgs = if pkgs = [] then 0 else 1 := by
  induction pkgs using List.reverseRecOn with
  | nil => rfl
  | append_singleton pkgs pkg ih =>
    rw [closeCalls_snoc, ih, closeOnFirst]
    rcases eq_or_ne pkgs [] with rfl | hne
    · rfl
    · simp [hne]

/-- With data queued, the close is put off and both packages are delivered to an open io. -/
theorem unpack_silent_queued :
    NothingAfterClose (fixedBody closeOnFirst 1 [1, 2]) FixedLoop.io (FixedLoop.kept .own [1, 2])
      (evioUnpackByFixedLength closeOnFirst 1 0 2
        { Evio.holding [1, 2] with writeQueue := (Queue.init 1).pushed ⟨0, 0, [9], 0⟩ })
      (fixedStart 0 2 { Evio.holding [1, 2] with writeQueue := (Queue.init 1).pushed ⟨0, 0, [9], 0⟩ }) := by
  refine ((unpack_silent_iff closeOnFirst 0 2
    { Evio.holding [1, 2] with writeQueue := (Queue.init 1).pushed ⟨0, 0, [9], 0⟩ } rfl (by decide)
    (by decide)).1 1).mpr fun pkgs q _ => ?_
  have hput : Evio.closesPutOff { Evio.holding [1, 2] with writeQueue := (Queue.init 1).pushed ⟨0, 0, [9], 0⟩ } = 1 := by
    decide
  have hcalls : closeCalls closeOnFirst [] pkgs ≤ 1 := by
    rw [closeCalls_closeOnFirst]
    split_ifs <;> decide
  rw [hput]
  exact hcalls

/-- Without, `read_cb` closes the io on the first package, is called with the second, and the fifo of
the closed io is written. -/
theorem unpack_after_close :
    (∃ res, evioUnpackByFixedLength closeOnFirst 1 0 2 (.holding [1, 2]) = some res ∧
      res.1.trace = [.ready, .readCb 0 [1], .closeCall .app false 0, .closed, .closeCb, .readCb 1 [2], .setFifo]) ∧
    ¬NothingAfterClose (fixedBody closeOnFirst 1 [1, 2]) FixedLoop.io (FixedLoop.kept .own [1, 2])
      (evioUnpackByFixedLength closeOnFirst 1 0 2 (.holding [1, 2])) (fixedStart 0 2 (.holding [1, 2])) := by
  have hrun : (evioUnpackByFixedLength closeOnFirst 1 0 2 (.holding [1, 2])).map (·.1.trace) =
      some [.ready, .readCb 0 [1], .closeCall .app false 0, .closed, .closeCb, .readCb 1 [2], .setFifo] := by decide
  obtain ⟨res, hres, ht⟩ := Option.map_eq_some_iff.mp hrun
  refine ⟨⟨res, hres, ht⟩, fun h => ?_⟩
  have hsilent := h.returns res hres [.readCb 0 [1], .closeCall .app false 0] [.closeCb, .readCb 1 [2], .setFifo] ht
    (.readCb 1 [2]) (by decide)
  cases hsilent

end Yjc.Event
