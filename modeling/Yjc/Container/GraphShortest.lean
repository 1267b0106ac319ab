import Yjc.Container.GraphPaths
import Mathlib.Data.List.Forall2
import Mathlib.Data.Nat.Find

/-! What `graph_shortest_path` prints, against the least weights of walks. -/

namespace Yjc
open Yjc.Graph ShortestPath

variable {g : Graph} {s : SpState} {src a b u v n i : ℕ} {from_ : ℕ} {lines : List SpLine}

/-- An edge with its weight; several may be there between the same nodes. -/
def Graph.Weighted (g : Graph) (a b x : ℕ) : Prop := ∃ e ∈ g.edges.elts, e.pair = (a, b) ∧ e.weight = x

/-- A line for each node other than `from` that a walk comes to, in the order of the nodes, with what `R` says of it. -/
def Reports (g : Graph) (from_ : ℕ) (E : ℕ → ℕ → ℕ → Prop) (R : ℕ → SpLine → Prop) (lines : List SpLine) : Prop :=
  ∃ P : ℕ → Bool, (∀ v ∈ g.nodes.elts, P v = true ↔ v ≠ from_ ∧ ∃ c, Walk E from_ v c) ∧
    List.Forall₂ (fun v line => g.printId from_ = some line.from_ ∧ g.printId v = some line.node ∧ R v line)
      (g.nodes.elts.filter P) lines

def Nearest (E : ℕ → ℕ → ℕ → Prop) (from_ v : ℕ) (line : SpLine) : Prop := ∃ c : ℕ, Shortest E from_ v c ∧ line.distance = c

/-- The predecessor of a line is the last node before on a walk of least weight. -/
def Via (g : Graph) (E : ℕ → ℕ → ℕ → Prop) (from_ v : ℕ) (line : SpLine) : Prop :=
  ∃ p c x, g.printId p = some line.via ∧ Walk E from_ p c ∧ E p v x ∧ Shortest E from_ v (c + x)

/-! ## Indices and nodes -/

theorem Found.mem (hg : g.Good) {x : ℕ} (h : g.Found a b x) : a ∈ g.nodes.elts ∧ b ∈ g.nodes.elts := by
  obtain ⟨e, he, -⟩ := h
  obtain ⟨hmem, hpair⟩ := findLoop_eq_some he
  exact hg.ends (p := (a, b)) (mult_pos.mpr ⟨e, hmem, hpair⟩)

theorem walk_found (hpos : NonNegative g) (hsrc : g.nodes.elts[src]? = some from_) {c : ℕ}
    (h : Walk (Of g.weightAt) src i c) (hi : g.nodes.elts[i]? = some a) : Walk g.Found from_ a c := by
  have hmap := h.map (F := g.Found) (fun i => (g.nodes.elts[i]?).getD 0) fun u v x hw => by
    obtain ⟨a, b, ha, hb, hfound⟩ := (weightAt_eq_some hpos).mp hw
    simpa only [ha, hb, Option.getD_some] using hfound
  simpa only [hsrc, hi, Option.getD_some] using hmap

theorem idxOf_getElem? (hg : g.Good) (hi : g.nodes.elts[i]? = some a) : g.nodes.elts.idxOf a = i := by
  obtain ⟨hlt, rfl⟩ := List.getElem?_eq_some_iff.mp hi
  exact hg.nodup.idxOf_getElem i hlt

theorem getElem?_idxOf (ha : a ∈ g.nodes.elts) : g.nodes.elts[g.nodes.elts.idxOf a]? = some a :=
  List.getElem?_eq_some_iff.mpr ⟨List.idxOf_lt_length_of_mem ha, List.getElem_idxOf _⟩

theorem walk_weightAt (hg : g.Good) (hpos : NonNegative g) (hsrc : g.nodes.elts[src]? = some from_) {c : ℕ}
    (h : Walk g.Found from_ a c) : Walk (Of g.weightAt) src (g.nodes.elts.idxOf a) c := by
  have hmap := h.map (F := Of g.weightAt) g.nodes.elts.idxOf fun a b x hfound => by
    obtain ⟨ha, hb⟩ := Found.mem hg hfound
    exact (weightAt_eq_some hpos).mpr ⟨a, b, getElem?_idxOf ha, getElem?_idxOf hb, hfound⟩
  rwa [idxOf_getElem? hg hsrc] at hmap

theorem walk_iff (hg : g.Good) (hpos : NonNegative g) (hsrc : g.nodes.elts[src]? = some from_)
    (hi : g.nodes.elts[i]? = some a) {c : ℕ} : Walk (Of g.weightAt) src i c ↔ Walk g.Found from_ a c := by
  refine ⟨fun h => walk_found hpos hsrc h hi, fun h => ?_⟩
  have := walk_weightAt hg hpos hsrc h
  rwa [idxOf_getElem? hg hi] at this

theorem shortest_iff (hg : g.Good) (hpos : NonNegative g) (hsrc : g.nodes.elts[src]? = some from_)
    (hi : g.nodes.elts[i]? = some a) {c : ℕ} : Shortest (Of g.weightAt) src i c ↔ Shortest g.Found from_ a c := by
  unfold Shortest
  simp only [walk_iff hg hpos hsrc hi]

theorem path_bound (hg : g.Good) (hpos : NonNegative g) (hsrc : g.nodes.elts[src]? = some from_) {M : ℕ}
    (hbound : ∀ l c, Path g.Found from_ l c → c < M) (l : List ℕ) (c : ℕ) (h : Path (Of g.weightAt) src l c) : c < M := by
  have hmap := h.map (F := g.Found) (fun i => (g.nodes.elts[i]?).getD 0) (S := fun i => i < g.nodes.elts.length)
    (fun u v x hw => by
      obtain ⟨a, b, ha, hb, hfound⟩ := (weightAt_eq_some hpos).mp hw
      simpa only [ha, hb, Option.getD_some] using hfound)
    (List.getElem?_eq_some_iff.mp hsrc).1 (fun u v x hw => (lt_of_weightAt hpos hw).2) fun u v hu hv heq => by
      simp only [List.getElem?_eq_getElem hu, List.getElem?_eq_getElem hv, Option.getD_some] at heq
      exact (hg.nodup.getElem_inj_iff).mp heq
  simp only [hsrc, Option.getD_some] at hmap
  exact hbound _ _ hmap

/-! ## The lines -/

theorem sourceIndex_eq (hfrom : from_ ∈ g.nodes.elts.take n) (hn : n ≤ g.nodes.elts.length) :
    ∃ src, sourceIndex g from_ n = some src ∧ g.nodes.elts[src]? = some from_ := by
  induction n with
  | zero => simp at hfrom
  | succ n ih =>
    rw [sourceIndex, Vector.slot_eq]
    split_ifs with hlast
    · exact ⟨n, rfl, hlast⟩
    · refine ih ?_ (Nat.le_of_succ_le hn)
      rw [List.take_succ_eq_append_getElem hn, List.mem_append, List.mem_singleton] at hfrom
      refine hfrom.resolve_right fun heq => hlast ?_
      rw [List.getElem?_eq_getElem hn, heq]

def LineAt (g : Graph) (from_ : ℕ) (s : SpState) (i : ℕ) (line : SpLine) : Prop :=
  ∃ p a b, s.pred i = some p ∧ g.nodes.elts[i]? = some a ∧ g.nodes.elts[p]? = some b ∧ g.printId from_ = some line.from_ ∧
    g.printId a = some line.node ∧ g.printId b = some line.via ∧ line.distance = cInt (s.dist i)

theorem Graph.Good.exists_printId (hg : g.Good) (ha : a ∈ g.nodes.elts) : ∃ z, g.printId a = some z := by
  obtain ⟨n, hn⟩ := Option.isSome_iff_exists.mp ((hg.live a).mp ha)
  exact ⟨cInt n.id, by rw [Graph.printId, hn, Option.map_some]⟩

theorem spLines_spec (hg : g.Good) (hfrom : from_ ∈ g.nodes.elts)
    (hpred : ∀ i p, s.pred i = some p → p < g.nodes.elts.length) (hn : n ≤ g.nodes.elts.length) :
    ∃ lines, spLines g from_ s n = some lines ∧
      List.Forall₂ (LineAt g from_ s) ((List.range n).filter fun i => (s.pred i).isSome) lines := by
  induction n with
  | zero => exact ⟨[], rfl, .nil⟩
  | succ n ih =>
    obtain ⟨lines, hlines, hall⟩ := ih (Nat.le_of_succ_le hn)
    rw [spLines, hlines, List.range_succ, List.filter_append]
    cases hp : s.pred n with
    | none =>
      refine ⟨lines, rfl, ?_⟩
      rwa [List.filter_cons_of_neg (by simp [hp]), List.filter_nil, List.append_nil]
    | some p =>
      have hpn := List.getElem?_eq_getElem (hpred n p hp)
      have hnn := List.getElem?_eq_getElem hn
      obtain ⟨f, hf⟩ := hg.exists_printId hfrom
      obtain ⟨y, hy⟩ := hg.exists_printId (List.getElem_mem hn)
      obtain ⟨z, hz⟩ := hg.exists_printId (List.getElem_mem (hpred n p hp))
      have hline : LineAt g from_ s n ⟨f, y, cInt (s.dist n), z⟩ := by
        refine ⟨p, _, _, hp, hnn, hpn, hf, hy, hz, ?_⟩
        dsimp only
      refine ⟨lines ++ [⟨f, y, cInt (s.dist n), z⟩], ?_, ?_⟩
      · simp only [Option.bind_eq_bind, Option.bind_some, hf, Vector.slot_eq, hpn, hnn, hy, hz]
      · rw [List.filter_cons_of_pos (by simp [hp]), List.filter_nil]
        exact List.rel_append hall (.cons hline .nil)

theorem Labelled.lt_of_pred (h : Labelled g src s) {p : ℕ} (hp : s.pred i = some p) : s.dist i < infinity := by
  refine Nat.lt_of_le_of_ne (h.le i) fun hd => ?_
  rw [(h.pred_none i).mpr (.inr hd)] at hp
  cases hp

theorem Labelled.via (h : Labelled g src s) {p : ℕ} (hp : s.pred i = some p) :
    ∃ c, Walk (Of g.weightAt) src p c ∧ ∃ x, g.weightAt p i = some x ∧ s.dist i = c + x := by
  -- the predecessor of a node is reached, with an edge on to it that adds up
  obtain ⟨-, hlt, hx⟩ := h.pred_some i p hp
  obtain ⟨l, hpath, -⟩ := h.path p hlt
  exact ⟨_, hpath.walk, hx⟩

theorem elts_eq_map (l : List ℕ) : l = (List.range l.length).map fun i => (l[i]?).getD 0 := by
  refine List.ext_getElem (by simp) fun i hi _ => ?_
  simp [List.getElem?_eq_getElem hi]

theorem filter_nodes (hg : g.Good) (P : ℕ → Bool) :
    g.nodes.elts.filter (fun v => P (g.nodes.elts.idxOf v)) =
      ((List.range g.nodes.elts.length).filter P).map fun i => (g.nodes.elts[i]?).getD 0 := by
  conv_lhs => rw [elts_eq_map g.nodes.elts]
  rw [List.filter_map, ← elts_eq_map]
  refine congrArg _ (List.filter_congr fun i hi => ?_)
  have hi := List.getElem?_eq_getElem (List.mem_range.mp hi)
  simp only [Function.comp_apply, hi, Option.getD_some, idxOf_getElem? hg hi]

theorem Graph.Good.reports (hg : g.Good) (hpos : NonNegative g) (hfrom : from_ ∈ g.nodes.elts)
    (hbound : ∀ l c, Path g.Found from_ l c → c < infinity) :
    ∃ lines, graphShortestPath g from_ = some lines ∧
      Reports g from_ g.Found (fun v line => (∃ c, Shortest g.Found from_ v c ∧ c < infinity ∧ line.distance = cInt c) ∧
        Via g g.Found from_ v line) lines := by
  obtain ⟨src, hindex, hsrc⟩ := sourceIndex_eq (n := g.nodes.elts.length) (by rwa [List.take_length]) (Nat.le_refl _)
  obtain ⟨t, ht, hlabelled, hdist⟩ := spRounds_spec hpos (List.getElem?_eq_some_iff.mp hsrc).1 (path_bound hg hpos hsrc hbound)
  have hpred (i p : ℕ) (h : t.pred i = some p) : p < g.nodes.elts.length := by
    obtain ⟨-, -, x, hw, -⟩ := hlabelled.pred_some i p h
    exact (lt_of_weightAt hpos hw).1
  obtain ⟨lines, hlines, hall⟩ := spLines_spec hg hfrom hpred (Nat.le_refl _)
  refine ⟨lines, ?_, fun v => (t.pred (g.nodes.elts.idxOf v)).isSome, fun v hv => ?_, ?_⟩
  · unfold graphShortestPath
    simp only [Vector.active_eq, hindex, ht, Option.bind_some, hlines]
  · have hi := getElem?_idxOf hv
    rw [Option.isSome_iff_ne_none, Ne, hlabelled.pred_none, not_or, ← Ne, ← Ne, ← Nat.lt_iff_le_and_ne.trans (and_iff_right (hlabelled.le _)),
      (hdist _).1]
    simp only [walk_iff hg hpos hsrc hi]
    refine and_congr_left' (not_congr ⟨fun h => ?_, fun h => ?_⟩)
    · rw [h, hsrc] at hi
      exact (Option.some.inj hi).symm
    · rw [h]
      exact idxOf_getElem? hg hsrc
  · rw [filter_nodes hg fun i => (t.pred i).isSome, List.forall₂_map_left_iff]
    refine hall.imp fun i line hline => ?_
    obtain ⟨p, a, b, hp, ha, hb, hf, hy, hz, hd⟩ := hline
    have hlt := hlabelled.lt_of_pred hp
    have hshort := (shortest_iff hg hpos hsrc ha).mp ((hdist i).2 hlt)
    obtain ⟨c, hwalk, x, hw, hadd⟩ := hlabelled.via hp
    rw [ha, Option.getD_some]
    refine ⟨hf, hy, ⟨_, hshort, hlt, hd⟩, b, c, x, hz, (walk_iff hg hpos hsrc hb).mp hwalk, ?_, hadd ▸ hshort⟩
    obtain ⟨b', a', hb', ha', hfound⟩ := (weightAt_eq_some hpos).mp hw
    obtain rfl := Option.some.inj (hb.symm.trans hb')
    obtain rfl := Option.some.inj (ha.symm.trans ha')
    exact hfound

/-! ## All edges -/

theorem Found.weighted {x : ℕ} (h : g.Found a b x) : g.Weighted a b x := by
  obtain ⟨e, he, hx⟩ := h
  obtain ⟨hmem, hpair⟩ := findLoop_eq_some he
  exact ⟨e, hmem, hpair, hx⟩

theorem Walk.weighted {c : ℕ} (h : Walk g.Found a b c) : Walk g.Weighted a b c :=
  h.map id fun _ _ _ => Found.weighted

theorem Path.weighted {l : List ℕ} {c : ℕ} (h : Path g.Found a l c) : Path g.Weighted a l c := by
  have hmap := h.map (F := g.Weighted) id (S := fun _ => True) (fun _ _ _ => Found.weighted) trivial
    (fun _ _ _ _ => trivial) fun _ _ _ _ heq => heq
  rwa [List.map_id] at hmap

theorem exists_found (hpos : NonNegative g) {x : ℕ} (h : g.Weighted a b x) : ∃ y, g.Found a b y := by
  obtain ⟨e, he, hpair, -⟩ := h
  have hmult : 0 < g.mult (a, b) := mult_pos.mpr ⟨e, he, hpair⟩
  cases hfind : graphFindEdge g a b with
  | none =>
    rw [graphFindEdge_eq_none.mp hfind] at hmult
    exact absurd hmult (Nat.lt_irrefl 0)
  | some f => exact ⟨_, f, hfind, (Int.toNat_of_nonneg (hpos f (findLoop_eq_some hfind).1)).symm⟩

theorem reach_iff (hpos : NonNegative g) : (∃ c, Walk g.Weighted a b c) ↔ ∃ c, Walk g.Found a b c := by
  refine ⟨?_, fun ⟨c, h⟩ => ⟨c, Walk.weighted h⟩⟩
  rintro ⟨c, h⟩
  induction h with
  | nil => exact ⟨0, .nil⟩
  | snoc h he ih =>
    obtain ⟨c, hc⟩ := ih
    obtain ⟨y, hy⟩ := exists_found hpos he
    exact ⟨_, .snoc hc hy⟩

theorem Walk.mem (hg : g.Good) (hfrom : from_ ∈ g.nodes.elts) {c : ℕ} (h : Walk g.Found from_ v c) : v ∈ g.nodes.elts := by
  cases h with
  | nil => exact hfrom
  | snoc _ he => exact (Found.mem hg he).2

theorem exists_shortest {E : ℕ → ℕ → ℕ → Prop} {c : ℕ} (h : Walk E a v c) : ∃ d, Shortest E a v d := by
  classical
  exact ⟨Nat.find ⟨c, h⟩, Nat.find_spec ⟨c, h⟩, fun d hd => Nat.find_min' ⟨c, h⟩ hd⟩

theorem forall₂_iff {α β : Type} {S T : α → β → Prop} {C : α → Prop} {l : List α} {k : List β} (h : List.Forall₂ S l k)
    (hT : ∀ x ∈ l, ∀ y, S x y → (T x y ↔ C x)) : List.Forall₂ T l k ↔ ∀ x ∈ l, C x := by
  induction h with
  | nil => simp
  | cons hxy _ ih =>
    obtain ⟨hx, hl⟩ := List.forall_mem_cons.mp hT
    rw [List.forall₂_cons, List.forall_mem_cons, hx _ hxy, ih hl]

theorem reports_iff (hg : g.Good) (hpos : NonNegative g) (hfrom : from_ ∈ g.nodes.elts)
    (hbound : ∀ l c, Path g.Weighted from_ l c → c < infinity) {R : ℕ → SpLine → Prop} {C : ℕ → Prop}
    (hR : ∀ v c line, Shortest g.Found from_ v c → c < infinity → line.distance = cInt c → Via g g.Found from_ v line →
      (R v line ↔ C v)) :
    (∃ lines, graphShortestPath g from_ = some lines ∧ Reports g from_ g.Weighted R lines) ↔
      ∀ v c, v ≠ from_ → Walk g.Found from_ v c → C v := by
  obtain ⟨lines, hlines, P, hP, hall⟩ := hg.reports hpos hfrom fun l c h => hbound l c (Path.weighted h)
  have hfilter (Q : ℕ → Bool) (hQ : ∀ v ∈ g.nodes.elts, Q v = true ↔ v ≠ from_ ∧ ∃ c, Walk g.Weighted from_ v c) :
      g.nodes.elts.filter Q = g.nodes.elts.filter P := by
    refine List.filter_congr fun v hv => Bool.eq_iff_iff.mpr ?_
    rw [hQ v hv, hP v hv, reach_iff hpos]
  have hiff := forall₂_iff (T := fun v line => g.printId from_ = some line.from_ ∧ g.printId v = some line.node ∧ R v line)
    (C := C) hall fun v _ line ⟨hf, hv, ⟨c, hshort, hlt, hd⟩, hvia⟩ => by
      rw [hR v c line hshort hlt hd hvia, and_iff_right hf, and_iff_right hv]
  have hmem (v : ℕ) : v ∈ g.nodes.elts.filter P ↔ v ≠ from_ ∧ ∃ c, Walk g.Found from_ v c := by
    rw [List.mem_filter]
    refine ⟨fun ⟨hv, h⟩ => (hP v hv).mp h, fun h => ?_⟩
    obtain ⟨-, c, hc⟩ := id h
    have hv := Walk.mem hg hfrom hc
    exact ⟨hv, (hP v hv).mpr h⟩
  constructor
  · rintro ⟨lines', hlines', Q, hQ, hall'⟩ v c hv hc
    obtain rfl := Option.some.inj (hlines.symm.trans hlines')
    rw [hfilter Q hQ] at hall'
    exact hiff.mp hall' v ((hmem v).mpr ⟨hv, c, hc⟩)
  · intro hC
    refine ⟨lines, hlines, P, fun v hv => ?_, hiff.mpr fun v hv => ?_⟩
    · rw [hP v hv, reach_iff hpos]
    · obtain ⟨hne, c, hc⟩ := (hmem v).mp hv
      exact hC v c hne hc

theorem printed_iff {c d : ℕ} (hlt : c < infinity) : cInt c = d ↔ c = d ∧ c < 2 ^ 31 := by
  have hinf : c < 2 ^ 32 := Nat.lt_trans hlt infinity_lt
  rcases Nat.lt_or_ge c (2 ^ 31) with hc | hc
  · rw [cInt_of_lt hc, and_iff_left hc]
    omega
  · rw [cInt_of_ge hc hinf]
    omega

theorem eq_of_count_map {α β : Type} [BEq β] [LawfulBEq β] {l : List α} {f : α → β} {y : β} (h : (l.map f).count y ≤ 1) {x z : α}
    (hx : x ∈ l) (hz : z ∈ l) (hxy : f x = y) (hzy : f z = y) : x = z := by
  induction l with
  | nil => cases hx
  | cons w l ih =>
    have hnot (v : α) (hv : v ∈ l) (hvy : f v = y) (hw : f w = y) : False := by
      have hpos : 0 < (l.map f).count y := List.count_pos_iff.mpr (List.mem_map.mpr ⟨v, hv, hvy⟩)
      rw [List.map_cons, hw, List.count_cons_self] at h
      omega
    rcases List.mem_cons.mp hx with rfl | hxl
    · rcases List.mem_cons.mp hz with rfl | hzl
      · rfl
      · exact (hnot z hzl hzy hxy).elim
    · rcases List.mem_cons.mp hz with rfl | hzl
      · exact (hnot x hxl hxy hzy).elim
      · rw [List.map_cons] at h
        exact ih (Nat.le_trans List.count_le_count_cons h) hxl hzl

theorem Simple.found_iff (hg : Simple g) (hpos : NonNegative g) {x : ℕ} : g.Found a b x ↔ g.Weighted a b x := by
  refine ⟨Found.weighted, fun h => ?_⟩
  obtain ⟨y, hy⟩ := exists_found hpos h
  obtain ⟨e, he, hx⟩ := id hy
  obtain ⟨hmem, hpair⟩ := findLoop_eq_some he
  obtain ⟨f, hf, hfpair, hfx⟩ := h
  obtain rfl := eq_of_count_map (hg.le (a, b)) hmem hf hpair hfpair
  exact ⟨e, he, hfx⟩

theorem Simple.found_eq (hg : Simple g) (hpos : NonNegative g) : g.Found = g.Weighted := by
  funext a b x
  exact propext (hg.found_iff hpos)

theorem shortest_paths_printed (hg : Simple g) (hpos : NonNegative g) (hfrom : from_ ∈ g.nodes.elts)
    (hbound : ∀ l c, Path g.Weighted from_ l c → c < infinity) :
    (∃ lines, graphShortestPath g from_ = some lines ∧
      Reports g from_ g.Weighted (fun v line => Nearest g.Weighted from_ v line ∧ Via g g.Weighted from_ v line) lines) ↔
      ∀ v c, v ≠ from_ → Shortest g.Weighted from_ v c → c < 2 ^ 31 := by
  rw [reports_iff (C := fun v => ∀ c, Shortest g.Weighted from_ v c → c < 2 ^ 31) hg.good hpos hfrom hbound]
  · rw [hg.found_eq hpos]
    exact ⟨fun h v c hv hc => h v c hv hc.1 c hc, fun h v _ hv _ d hd => h v d hv hd⟩
  · intro v c line hshort hlt hd hvia
    rw [hg.found_eq hpos] at hshort hvia
    rw [and_iff_left hvia]
    constructor
    · rintro ⟨d, hd', hline⟩ e he
      obtain ⟨rfl, hsmall⟩ := (printed_iff hlt).mp (hd.symm.trans hline)
      exact he.unique hd' ▸ hsmall
    · intro hC
      exact ⟨c, hshort, hd.trans ((printed_iff hlt).mpr ⟨rfl, hC c hshort⟩)⟩

theorem simple_exec {t : GraphType} (ht : t = .graph ∨ t = .diGraph) {ops : List GraphOp}
    (hops : Run.Along graphStep (fun g op => op.Existing g ∧ ¬op.LoopLast g) (graphNew t) ops)
    (hg : Run.exec graphStep (graphNew t) ops = some g) : Simple g := by
  refine Run.invariant Simple (fun g op g' h hop hstep => ?_) (simple_graphNew ht) hops hg
  obtain ⟨g'', hg'', hsimple⟩ := (h.step hop.1).2 hop.2
  exact Option.some.inj (hstep.symm.trans hg'') ▸ hsimple

def farNodes (weight : ℕ) : List GraphOp :=
  [.addNode 0 false, .addNode 0 false, .addNode 0 false, .addEdge 0 1 weight false, .addEdge 1 2 weight false]

theorem farNodes_bound {weight : ℕ} (hw : cInt weight = weight) (hlt : weight + weight < infinity)
    (hedges : g.edges.elts = [⟨0, 1, weight, false⟩, ⟨1, 2, weight, false⟩]) :
    NonNegative g ∧ ∀ l c, Path g.Weighted from_ l c → c < infinity := by
  have hweight (e : GraphEdge) (he : e ∈ g.edges.elts) : e.attr = weight := by
    rw [hedges] at he
    simp only [List.mem_cons, List.not_mem_nil, or_false] at he
    rcases he with rfl | rfl <;> rfl
  constructor
  · intro e he
    rw [GraphEdge.weight, hweight e he, hw]
    omega
  · intro l c h
    refine Nat.lt_of_le_of_lt (h.le_of_potential (f := fun v => min v 2 * weight) ?_ fun v => ?_) hlt
    · rintro u v x ⟨e, he, hpair, hx⟩
      rw [GraphEdge.weight, hweight e he, hw, Int.ofNat_inj] at hx
      rw [hedges] at he
      simp only [List.mem_cons, List.not_mem_nil, or_false] at he
      subst hx
      rcases he with rfl | rfl
      · cases hpair
        simp
      · cases hpair
        simp
        omega
    · rw [← Nat.two_mul]
      exact Nat.mul_le_mul_right _ (Nat.min_le_right v 2)

theorem farNodes_along (weight : ℕ) :
    Run.Along graphStep (fun g op => op.Existing g ∧ ¬op.LoopLast g) (graphNew .diGraph) (farNodes weight) :=
  ⟨⟨trivial, id⟩, fun _ _ => ⟨⟨trivial, id⟩, fun _ _ => ⟨⟨trivial, id⟩, fun _ _ => ⟨⟨trivial, id⟩, fun _ _ =>
    ⟨⟨trivial, id⟩, fun _ _ => trivial⟩⟩⟩⟩⟩

theorem shortest_paths_printed_sample :
    ∃ g, Run.exec graphStep (graphNew .diGraph) (farNodes 7) = some g ∧
      ((∃ lines, graphShortestPath g 0 = some lines ∧
        Reports g 0 g.Weighted (fun v line => Nearest g.Weighted 0 v line ∧ Via g g.Weighted 0 v line) lines) ↔
        ∀ v c, v ≠ 0 → Shortest g.Weighted 0 v c → c < 2 ^ 31) := by
  have hrun : ∃ g ∈ Run.exec graphStep (graphNew .diGraph) (farNodes 7),
      g.edges.elts = [⟨0, 1, 7, false⟩, ⟨1, 2, 7, false⟩] ∧ 0 ∈ g.nodes.elts := by decide +kernel
  obtain ⟨g, hg, hedges, hnode⟩ := hrun
  obtain ⟨hpos, hbound⟩ := farNodes_bound (by decide) (by decide) hedges
  exact ⟨g, hg, shortest_paths_printed (simple_exec (.inr rfl) (farNodes_along 7) hg) hpos hnode hbound⟩

/-- The sum of two weights is printed as a negative number. -/
theorem far_distance_negative :
    ∃ g, Run.exec graphStep (graphNew .diGraph) (farNodes (2 ^ 31 - 1)) = some g ∧ Simple g ∧ NonNegative g ∧
      0 ∈ g.nodes.elts ∧ (∀ l c, Path g.Weighted 0 l c → c < infinity) ∧
      graphShortestPath g 0 = some [⟨0, 1, 2147483647, 0⟩, ⟨0, 2, -2, 1⟩] ∧
      ¬∃ lines, graphShortestPath g 0 = some lines ∧
        Reports g 0 g.Weighted (fun v line => Nearest g.Weighted 0 v line ∧ Via g g.Weighted 0 v line) lines := by
  have hrun : ∃ g ∈ Run.exec graphStep (graphNew .diGraph) (farNodes (2 ^ 31 - 1)),
      g.edges.elts = [⟨0, 1, 2 ^ 31 - 1, false⟩, ⟨1, 2, 2 ^ 31 - 1, false⟩] ∧ 0 ∈ g.nodes.elts ∧
        graphShortestPath g 0 = some [⟨0, 1, 2147483647, 0⟩, ⟨0, 2, -2, 1⟩] := by decide +kernel
  obtain ⟨g, hg, hedges, hnode, hlines⟩ := hrun
  obtain ⟨hpos, hbound⟩ := farNodes_bound (cInt_of_lt (by decide)) (by decide) hedges
  refine ⟨g, hg, simple_exec (.inr rfl) (farNodes_along _) hg, hpos, hnode, hbound, hlines, ?_⟩
  rintro ⟨lines, hlines', P, -, hall⟩
  obtain rfl := Option.some.inj (hlines.symm.trans hlines')
  obtain ⟨_, _, -, hall, -⟩ := List.forall₂_cons_right_iff.mp hall
  obtain ⟨v, _, ⟨-, -, ⟨c, -, hc⟩, -⟩, -⟩ := List.forall₂_cons_right_iff.mp hall
  exact absurd (Int.natCast_nonneg c) (hc ▸ by decide)

theorem lightest_parallel_edges (hg : Multi g) (hpos : NonNegative g) (hfrom : from_ ∈ g.nodes.elts)
    (hbound : ∀ l c, Path g.Weighted from_ l c → c < infinity) :
    (∃ lines, graphShortestPath g from_ = some lines ∧ Reports g from_ g.Weighted (Nearest g.Weighted from_) lines) ↔
      ∀ v c, v ≠ from_ → Shortest g.Weighted from_ v c → c < 2 ^ 31 ∧ Walk g.Found from_ v c := by
  rw [reports_iff (C := fun v => ∀ c, Shortest g.Weighted from_ v c → c < 2 ^ 31 ∧ Walk g.Found from_ v c) hg.good hpos
    hfrom hbound]
  · exact ⟨fun h v c hv hc => by
      obtain ⟨d, hd⟩ := (reach_iff hpos).mp ⟨c, hc.1⟩
      exact h v d hv hd c hc, fun h v _ hv _ d hd => h v d hv hd⟩
  · intro v c line hshort hlt hd _
    constructor
    · rintro ⟨d, hd', hline⟩ e he
      obtain ⟨rfl, hsmall⟩ := (printed_iff hlt).mp (hd.symm.trans hline)
      exact he.unique hd' ▸ ⟨hsmall, hshort.1⟩
    · intro hC
      obtain ⟨d, hd'⟩ := exists_shortest (Walk.weighted hshort.1)
      obtain ⟨hsmall, hwalk⟩ := hC d hd'
      have heq : c = d := Nat.le_antisymm (hshort.2 d hwalk) (hd'.2 c (Walk.weighted hshort.1))
      exact ⟨d, hd', hd.trans ((printed_iff hlt).mpr ⟨heq, heq ▸ hsmall⟩)⟩

theorem multi_exec {t : GraphType} (ht : t = .multiGraph ∨ t = .multiDiGraph) {ops : List GraphOp}
    (hops : Run.Along graphStep (fun g op => op.Valid g ∧ op.Apart g) (graphNew t) ops)
    (hg : Run.exec graphStep (graphNew t) ops = some g) : Multi g := by
  refine Run.invariant Multi (fun g op g' h hop hstep => ?_) (multi_graphNew ht) hops hg
  obtain ⟨g'', hg'', hmulti⟩ := h.step hop.1 hop.2
  exact Option.some.inj (hstep.symm.trans hg'') ▸ hmulti

def heavyLast : List GraphOp := [.addNode 0 false, .addNode 0 false, .addEdge 0 1 1 false, .addEdge 0 1 5 false]

theorem heavyLast_along :
    Run.Along graphStep (fun g op => op.Valid g ∧ op.Apart g) (graphNew .multiDiGraph) heavyLast :=
  ⟨⟨trivial, trivial⟩, fun _ _ => ⟨⟨trivial, trivial⟩, fun _ _ => ⟨⟨trivial, trivial⟩, fun _ _ =>
    ⟨⟨trivial, trivial⟩, fun _ _ => trivial⟩⟩⟩⟩

theorem heavyLast_bound (hedges : g.edges.elts = [⟨0, 1, 1, false⟩, ⟨0, 1, 5, false⟩]) :
    NonNegative g ∧ ∀ l c, Path g.Weighted from_ l c → c < infinity := by
  constructor
  · unfold NonNegative
    rw [hedges]
    decide
  · intro l c h
    refine Nat.lt_of_le_of_lt (h.le_of_potential (f := fun v => min v 1 * 5) ?_ fun v => ?_) (show 5 < infinity by decide)
    · rintro u v x ⟨e, he, hpair, hx⟩
      rw [hedges] at he
      simp only [List.mem_cons, List.not_mem_nil, or_false] at he
      rcases he with rfl | rfl
      · obtain rfl : 1 = x := Int.ofNat_inj.mp (Eq.trans (by decide) hx)
        cases hpair
        decide
      · obtain rfl : 5 = x := Int.ofNat_inj.mp (Eq.trans (by decide) hx)
        cases hpair
        decide
    · exact Nat.mul_le_mul_right 5 (Nat.min_le_right v 1)

theorem lightest_parallel_edges_sample :
    ∃ g, Run.exec graphStep (graphNew .multiDiGraph) heavyLast = some g ∧
      ((∃ lines, graphShortestPath g 0 = some lines ∧ Reports g 0 g.Weighted (Nearest g.Weighted 0) lines) ↔
        ∀ v c, v ≠ 0 → Shortest g.Weighted 0 v c → c < 2 ^ 31 ∧ Walk g.Found 0 v c) := by
  have hrun : ∃ g ∈ Run.exec graphStep (graphNew .multiDiGraph) heavyLast,
      g.edges.elts = [⟨0, 1, 1, false⟩, ⟨0, 1, 5, false⟩] ∧ 0 ∈ g.nodes.elts := by decide +kernel
  obtain ⟨g, hg, hedges, hnode⟩ := hrun
  obtain ⟨hpos, hbound⟩ := heavyLast_bound hedges
  exact ⟨g, hg, lightest_parallel_edges (multi_exec (.inr rfl) heavyLast_along hg) hpos hnode hbound⟩

/-- The edge that was added last hides the lighter one. -/
theorem heavy_edge_taken :
    ∃ g, Run.exec graphStep (graphNew .multiDiGraph) heavyLast = some g ∧ Multi g ∧ NonNegative g ∧ 0 ∈ g.nodes.elts ∧
      (∀ l c, Path g.Weighted 0 l c → c < infinity) ∧ graphShortestPath g 0 = some [⟨0, 1, 5, 0⟩] ∧
      ¬∃ lines, graphShortestPath g 0 = some lines ∧ Reports g 0 g.Weighted (Nearest g.Weighted 0) lines := by
  have hrun : ∃ g ∈ Run.exec graphStep (graphNew .multiDiGraph) heavyLast,
      g.edges.elts = [⟨0, 1, 1, false⟩, ⟨0, 1, 5, false⟩] ∧ g.nodes.elts = [0, 1] ∧ g.printId 0 = some 0 ∧
        graphShortestPath g 0 = some [⟨0, 1, 5, 0⟩] := by decide +kernel
  obtain ⟨g, hg, hedges, hnodes, hprint, hlines⟩ := hrun
  have hnode : 0 ∈ g.nodes.elts := hnodes ▸ List.mem_cons_self
  obtain ⟨hpos, hbound⟩ := heavyLast_bound hedges
  refine ⟨g, hg, multi_exec (.inr rfl) heavyLast_along hg, hpos, hnode, hbound, hlines, ?_⟩
  rintro ⟨lines, hlines', P, -, hall⟩
  obtain rfl := Option.some.inj (hlines.symm.trans hlines')
  obtain ⟨v, l, ⟨-, hv, c, hshort, hc⟩, -, hl⟩ := List.forall₂_cons_right_iff.mp hall
  have hmem : v ∈ g.nodes.elts := (List.mem_filter.mp (hl ▸ List.mem_cons_self)).1
  rw [hnodes] at hmem
  simp only [List.mem_cons, List.not_mem_nil, or_false] at hmem
  rcases hmem with rfl | rfl
  · rw [hprint] at hv
    cases hv
  · have hlight : Walk g.Weighted 0 1 (0 + 1) := .snoc .nil ⟨⟨0, 1, 1, false⟩, hedges ▸ List.mem_cons_self, rfl, by decide⟩
    have hle := hshort.2 _ hlight
    dsimp only at hc
    omega

end Yjc
