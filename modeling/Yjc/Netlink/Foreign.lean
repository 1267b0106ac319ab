import Yjc.Netlink.Exchange

/-! Datagrams that do not come from the kernel. -/

namespace Yjc.Netlink

def Packet.FromKernel (p : Packet) : Bool := p.nlPid = 0

def kernelPart (msgs : List (ℕ × Message)) : List Message := (msgs.filter fun x => x.1 = 0).map Prod.snd

/-- The first message that ends the exchange, if there is one, comes from the kernel; or the later messages of the kernel have nothing for
the filter up to the first that ends it, and give the same result. -/
def Undisturbed (filter : Filter) (msgs : List (ℕ × Message)) : Prop :=
  match msgs.dropWhile fun x => x.2.verdict = .goesOn with
  | [] => True
  | (nlPid, msg) :: later =>
    let earlier := kernelPart (msgs.takeWhile fun x => x.2.verdict = .goesOn)
    let ret := lastNegative (results filter (delivered filter earlier))
    nlPid = 0 ∨ (filter = none ∨ ∀ m ∈ before (kernelPart later), ¬m.isData) ∧
      msg.verdict.code ret = (ending (kernelPart later)).code ret

variable {filter : Filter} {msgs : List (ℕ × Message)} {calls : List (List UInt8)}

theorem kernelPart_append (xs ys : List (ℕ × Message)) : kernelPart (xs ++ ys) = kernelPart xs ++ kernelPart ys := by
  rw [kernelPart, List.filter_append, List.map_append]
  rfl

theorem ending_goesOn {ms : List Message} (h : ∀ m ∈ ms, m.verdict = .goesOn) : ending ms = .goesOn := by
  have hnone : ms.find? (fun m => m.verdict ≠ .goesOn) = none := by
    rw [List.find?_eq_none]
    exact fun m hm => by simp [h m hm]
  rw [ending, hnone]
  rfl

theorem exchange_goesOn (h : ∀ x ∈ msgs, x.2.verdict = .goesOn) (calls : List (List UInt8)) (ret : ℤ) :
    exchange filter msgs calls ret = exchange filter ((kernelPart msgs).map fun m => (0, m)) calls ret := by
  induction msgs generalizing calls ret with
  | nil => rfl
  | cons x msgs ih =>
    obtain ⟨nlPid, msg⟩ := x
    obtain ⟨hgoes, hrest⟩ := List.forall_mem_cons.mp h
    rw [exchange, if_pos hgoes, ih hrest]
    by_cases hpid : nlPid = 0
    · subst hpid
      have hkernel : kernelPart ((0, msg) :: msgs) = msg :: kernelPart msgs := rfl
      rw [hkernel, List.map_cons, exchange, if_pos hgoes]
    · have hkernel : kernelPart ((nlPid, msg) :: msgs) = kernelPart msgs := by
        rw [kernelPart, List.filter_cons_of_neg (by simpa using hpid)]
        rfl
      have hdeliver : deliver nlPid filter msg calls ret = (calls, ret) := if_neg fun hboth => hpid hboth.2
      rw [hkernel, hdeliver]

theorem delivered_eq_nil (filter : Filter) (ms : List Message) :
    delivered filter ms = [] ↔ filter = none ∨ ∀ m ∈ before ms, ¬m.isData := by
  cases filter with
  | none => exact iff_of_true rfl (.inl rfl)
  | some f =>
    have hsome : delivered (some f) ms = ((before ms).filter Message.isData).map Message.bytes := rfl
    rw [hsome, List.map_eq_nil_iff, List.filter_eq_nil_iff, or_iff_right nofun]

theorem exchange_earlier (h : ∀ x ∈ msgs, x.2.verdict = .goesOn) : exchange filter msgs [] 0 =
    (delivered filter (kernelPart msgs), lastNegative (results filter (delivered filter (kernelPart msgs)))) := by
  -- messages that go on leave the calls of the filter and its last negative result
  have hkernel : ∀ m ∈ kernelPart msgs, m.verdict = .goesOn := by
    intro m hm
    obtain ⟨x, hx, rfl⟩ := List.mem_map.mp hm
    exact h x (List.mem_filter.mp hx).1
  have hlast : lastNegative (results filter []) = 0 := by cases filter <;> rfl
  have hexchange := exchange_kernel filter (kernelPart msgs) []
  rw [hlast, List.nil_append, ending_goesOn hkernel] at hexchange
  rw [exchange_goesOn h, hexchange]
  rfl

theorem exchange_undisturbed (filter : Filter) (msgs : List (ℕ × Message)) :
    exchange filter msgs [] 0 = exchange filter ((kernelPart msgs).map fun m => (0, m)) [] 0 ↔ Undisturbed filter msgs := by
  have hsplit : msgs.takeWhile (fun x => x.2.verdict = .goesOn) ++ msgs.dropWhile (fun x => x.2.verdict = .goesOn) = msgs :=
    List.takeWhile_append_dropWhile
  have hearlier : ∀ x ∈ msgs.takeWhile (fun x => x.2.verdict = .goesOn), x.2.verdict = .goesOn :=
    fun x hx => of_decide_eq_true (List.all_eq_true.mp List.all_takeWhile x hx)
  have hstops := List.head?_dropWhile_not (fun x : ℕ × Message => decide (x.2.verdict = .goesOn)) msgs
  unfold Undisturbed
  cases hdrop : msgs.dropWhile fun x => x.2.verdict = .goesOn with
  | nil =>
    rw [hdrop, List.append_nil] at hsplit
    rw [hsplit] at hearlier
    exact iff_of_true (exchange_goesOn hearlier [] 0) trivial
  | cons x later =>
    obtain ⟨nlPid, msg⟩ := x
    rw [hdrop] at hsplit hstops
    have hstop : msg.verdict ≠ .goesOn := of_decide_eq_false hstops
    generalize hfirst : msgs.takeWhile (fun x => x.2.verdict = .goesOn) = earlier at hsplit hearlier
    have hleft : exchange filter msgs [] 0 = (delivered filter (kernelPart earlier),
        msg.verdict.code (lastNegative (results filter (delivered filter (kernelPart earlier))))) := by
      rw [← hsplit, exchange_append, if_pos hearlier, exchange_earlier hearlier, exchange, if_neg hstop]
    have hkernel (ms : List Message) : exchange filter ((kernelPart earlier ++ ms).map fun m => (0, m)) [] 0 =
        exchange filter (ms.map fun m => (0, m)) (delivered filter (kernelPart earlier))
          (lastNegative (results filter (delivered filter (kernelPart earlier)))) := by
      have hgoes : ∀ x ∈ (kernelPart earlier).map fun m => ((0, m) : ℕ × Message), x.2.verdict = .goesOn := by
        intro x hx
        obtain ⟨m, hm, rfl⟩ := List.mem_map.mp hx
        obtain ⟨y, hy, rfl⟩ := List.mem_map.mp hm
        exact hearlier y (List.mem_filter.mp hy).1
      rw [List.map_append, exchange_append, if_pos hgoes, ← exchange_goesOn hearlier, exchange_earlier hearlier]
    rw [hleft, ← hsplit, kernelPart_append]
    dsimp only
    by_cases hpid : nlPid = 0
    · subst hpid
      have hhead : kernelPart ((0, msg) :: later) = msg :: kernelPart later := rfl
      rw [hhead, hkernel, List.map_cons, exchange, if_neg hstop]
      exact iff_of_true rfl (.inl rfl)
    · have hhead : kernelPart ((nlPid, msg) :: later) = kernelPart later := by
        rw [kernelPart, List.filter_cons_of_neg (by simpa using hpid)]
        rfl
      rw [hhead, hkernel, exchange_kernel, or_iff_right hpid, ← delivered_eq_nil, Prod.mk.injEq, List.self_eq_append_right]
      refine and_congr_right fun hnil => ?_
      rw [hnil, List.append_nil]

theorem sent_kernel (ps : List Packet) :
    (ps.filter Packet.FromKernel).flatMap Packet.sent = (kernelPart (ps.flatMap Packet.sent)).map fun m => (0, m) := by
  induction ps with
  | nil => rfl
  | cons p ps ih =>
    rw [List.flatMap_cons, kernelPart_append, List.map_append, ← ih]
    by_cases hp : p.nlPid = 0
    · have hpart : kernelPart p.sent = p.messages := by
        have hall : p.sent.filter (fun x => x.1 = 0) = p.sent := by
          refine List.filter_eq_self.mpr fun x hx => ?_
          obtain ⟨m, -, rfl⟩ := List.mem_map.mp hx
          exact decide_eq_true hp
        rw [kernelPart, hall, Packet.sent, List.map_map]
        exact List.map_id _
      have hk : p.FromKernel = true := decide_eq_true hp
      rw [List.filter_cons_of_pos hk, List.flatMap_cons, hpart, Packet.sent, hp]
    · have hpart : kernelPart p.sent = [] := by
        have hnone : p.sent.filter (fun x => x.1 = 0) = [] := by
          refine List.filter_eq_nil_iff.mpr fun x hx => ?_
          obtain ⟨m, -, rfl⟩ := List.mem_map.mp hx
          simpa using hp
        rw [kernelPart, hnone, List.map_nil]
      rw [List.filter_cons_of_neg (by simpa [Packet.FromKernel] using hp), hpart]
      rfl

/-- Foreign datagrams have no influence exactly when both ends are handled soundly and the first message that ends the exchange is one of
the kernel, or makes no difference. -/
theorem foreign_ignored (filter : Filter) (buf : List UInt8) (ps : List Packet) :
    (∃ r, netlinkParseInfo filter buf (ps.map Packet.toDatagram) [] 0 = some r ∧
      netlinkParseInfo filter buf ((ps.filter Packet.FromKernel).map Packet.toDatagram) [] 0 = some r) ↔
      sound buf.length ps ∧ sound buf.length (ps.filter Packet.FromKernel) ∧ Undisturbed filter (ps.flatMap Packet.sent) := by
  rw [netlinkParseInfo_packets, netlinkParseInfo_packets, sent_kernel, ← exchange_undisturbed]
  constructor
  · rintro ⟨r, hall, hkernel⟩
    split_ifs at hall hkernel with hsound hsound'
    exact ⟨hsound, hsound', (Option.some.inj hall).trans (Option.some.inj hkernel).symm⟩
  · rintro ⟨hsound, hsound', heq⟩
    rw [if_pos hsound, if_pos hsound', heq]
    exact ⟨_, rfl, rfl⟩

/-- The end of a dump, from another process. -/
def foreignDone : Packet := { dumpDone with nlPid := 7 }

/-- A route from the kernel. -/
def newRoute : Packet where
  nlPid := 0
  messages := [⟨24, 2, 1, 0, [2, 0, 0, 0], [], by decide⟩]
  nonempty := nofun
  fits := by decide

/-- The route is lost behind the foreign message. -/
theorem foreign_done_ends : netlinkParseInfo (some fun _ => 0) [] ([foreignDone, newRoute].map Packet.toDatagram) [] 0 = some ([], 0) ∧
    netlinkParseInfo (some fun _ => 0) [] (([foreignDone, newRoute].filter Packet.FromKernel).map Packet.toDatagram) [] 0 ≠
      some ([], 0) := by
  decide +kernel

end Yjc.Netlink
