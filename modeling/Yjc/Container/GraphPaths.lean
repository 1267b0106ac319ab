import Yjc.Container.SimpleGraph
import Yjc.Lib.CInt
import Yjc.Lib.ShortestPath
import Mathlib.Data.Finset.Card

/-! `graph_shortest_path`: Dijkstra's algorithm over the indices of the nodes, with the edges that `graph_find_edge` finds. -/

namespace Yjc
open Yjc.Graph

def infinity : ℕ := 2 ^ 32 - 1

/-- `(int)e->attr`. -/
def GraphEdge.weight (e : GraphEdge) : ℤ := cInt e.attr

/-- The arrays of `graph_shortest_path`; no predecessor is -1. -/
structure SpState where
  dist : ℕ → ℕ
  sptSet : ℕ → Bool
  pred : ℕ → Option ℕ

structure SpLine where
  from_ : ℤ
  node : ℤ
  distance : ℤ
  via : ℤ
deriving DecidableEq

/-- The loop of `min_dist` over the nodes below `n`, with `min` and `min_index`. -/
def minDistLoop (dist : ℕ → ℕ) (sptSet : ℕ → Bool) : ℕ → ℕ × Option ℕ
  | 0 => (infinity, none)
  | v + 1 =>
    let m := minDistLoop dist sptSet v
    if sptSet v = false ∧ dist v ≤ m.1 then (dist v, some v) else m

/-- `min_dist`; `none` is an index that was not set. -/
def minDist (dist : ℕ → ℕ) (sptSet : ℕ → Bool) (n : ℕ) : Option ℕ := (minDistLoop dist sptSet n).2

namespace Graph

def edgeAt (g : Graph) (u v : ℕ) : Option GraphEdge :=
  (g.nodes.slot u).bind fun a => (g.nodes.slot v).bind fun b => graphFindEdge g a b

end Graph

/-- The body of the loop over the adjacent nodes; the weight 0 that no edge has is not used. -/
def relax (g : Graph) (u : ℕ) (s : SpState) (v : ℕ) : SpState :=
  match g.edgeAt u v with
  | none => s
  | some e =>
    let weight := (e.weight % 2 ^ 32).toNat
    if s.sptSet v = false ∧ s.dist u ≠ infinity ∧ (s.dist u + weight) % 2 ^ 32 < s.dist v then
      { s with dist := Function.update s.dist v ((s.dist u + weight) % 2 ^ 32), pred := Function.update s.pred v (some u) }
    else s

/-- That loop, over the nodes below `n`. -/
def relaxLoop (g : Graph) (u : ℕ) (s : SpState) : ℕ → SpState
  | 0 => s
  | v + 1 => relax g u (relaxLoop g u s v) v

def spRound (g : Graph) (nn : ℕ) (s : SpState) : Option SpState :=
  (minDist s.dist s.sptSet nn).map fun u => relaxLoop g u { s with sptSet := Function.update s.sptSet u true } nn

def spRounds (g : Graph) (nn : ℕ) : ℕ → SpState → Option SpState
  | 0, s => some s
  | count + 1, s => (spRound g nn s).bind (spRounds g nn count)

/-- The loop that looks for the index of `from`. -/
def sourceIndex (g : Graph) (from_ : ℕ) : ℕ → Option ℕ
  | 0 => none
  | i + 1 => if g.nodes.slot i = some from_ then some i else sourceIndex g from_ i

def spStart (src : ℕ) : SpState where
  dist := Function.update (fun _ => infinity) src 0
  sptSet := fun _ => false
  pred := fun _ => none

/-- `%d` for the id of a node. -/
def Graph.printId (g : Graph) (a : ℕ) : Option ℤ := (g.mem a).map fun n => cInt n.id

/-- The lines for the nodes below `n`; a distance is an unsigned number, printed with `%d`. -/
def spLines (g : Graph) (from_ : ℕ) (s : SpState) : ℕ → Option (List SpLine)
  | 0 => some []
  | i + 1 => do
    let lines ← spLines g from_ s i
    match s.pred i with
    | none => some lines
    | some p => do
      let f ← g.printId from_
      let n ← (g.nodes.slot i).bind g.printId
      let p ← (g.nodes.slot p).bind g.printId
      some (lines ++ [⟨f, n, cInt (s.dist i), p⟩])

/-- What `graph_shortest_path` prints. -/
def graphShortestPath (g : Graph) (from_ : ℕ) : Option (List SpLine) :=
  let nn := g.nodes.active
  match sourceIndex g from_ nn with
  | none => some []
  | some src => (spRounds g nn (nn - 1) (spStart src)).bind fun s => spLines g from_ s nn

/-! ## One round -/

open ShortestPath

variable {g : Graph} {s : SpState} {src u v n i : ℕ} {from_ : ℕ}

def Graph.weightAt (g : Graph) (u v : ℕ) : Option ℕ := (g.edgeAt u v).map fun e => e.weight.toNat

def NonNegative (g : Graph) : Prop := ∀ e ∈ g.edges.elts, 0 ≤ e.weight

theorem edgeAt_eq_some {e : GraphEdge} (h : g.edgeAt u v = some e) :
    ∃ a b, g.nodes.elts[u]? = some a ∧ g.nodes.elts[v]? = some b ∧ graphFindEdge g a b = some e := by
  obtain ⟨a, ha, h⟩ := Option.bind_eq_some_iff.mp h
  obtain ⟨b, hb, h⟩ := Option.bind_eq_some_iff.mp h
  rw [Vector.slot_eq] at ha hb
  exact ⟨a, b, ha, hb, h⟩

theorem minDistLoop_spec (hle : ∀ v, s.dist v ≤ infinity) (n : ℕ) :
    (minDistLoop s.dist s.sptSet n = (infinity, none) ∧ ∀ v < n, s.sptSet v = true) ∨
      ∃ u < n, minDistLoop s.dist s.sptSet n = (s.dist u, some u) ∧ s.sptSet u = false ∧
        ∀ v < n, s.sptSet v = false → s.dist u ≤ s.dist v := by
  induction n with
  | zero => exact .inl ⟨rfl, by simp⟩
  | succ n ih =>
    have hall {P : ℕ → Prop} (h : ∀ v < n, P v) (hn : P n) : ∀ v < n + 1, P v := by
      intro v hv
      rcases Nat.lt_or_eq_of_le (Nat.le_of_lt_succ hv) with hv | rfl
      · exact h v hv
      · exact hn
    rw [minDistLoop]
    by_cases hn : s.sptSet n = false
    · rcases ih with ⟨heq, hset⟩ | ⟨u, hu, heq, hnot, hmin⟩
      · rw [heq, if_pos ⟨hn, hle n⟩]
        refine .inr ⟨n, Nat.lt_succ_self n, rfl, hn, hall (fun v hv hv' => ?_) fun _ => Nat.le_refl _⟩
        rw [hset v hv] at hv'
        cases hv'
      · rw [heq]
        split_ifs with hlt
        · exact .inr ⟨n, Nat.lt_succ_self n, rfl, hn, hall (fun v hv hv' => Nat.le_trans hlt.2 (hmin v hv hv'))
            fun _ => Nat.le_refl _⟩
        · have hle : s.dist u ≤ s.dist n := Nat.le_of_not_le fun hle => hlt ⟨hn, hle⟩
          exact .inr ⟨u, Nat.lt_succ_of_lt hu, rfl, hnot, hall hmin fun _ => hle⟩
    · rw [if_neg fun h => hn h.1]
      have hset : s.sptSet n = true := by simpa using hn
      rcases ih with ⟨heq, hset'⟩ | ⟨u, hu, heq, hnot, hmin⟩
      · exact .inl ⟨heq, hall hset' hset⟩
      · exact .inr ⟨u, Nat.lt_succ_of_lt hu, heq, hnot, hall hmin fun h => absurd h hn⟩

theorem minDist_eq (hle : ∀ v, s.dist v ≤ infinity) (hv : v < n) (hnot : s.sptSet v = false) :
    ∃ u < n, minDist s.dist s.sptSet n = some u ∧ s.sptSet u = false ∧
      ∀ v < n, s.sptSet v = false → s.dist u ≤ s.dist v := by
  rcases minDistLoop_spec hle n with ⟨-, hall⟩ | ⟨u, hu, heq, hmin⟩
  · rw [hall v hv] at hnot
    cases hnot
  · exact ⟨u, hu, by rw [minDist, heq], hmin⟩

def Graph.Found (g : Graph) (a b x : ℕ) : Prop := ∃ e, graphFindEdge g a b = some e ∧ e.weight = x

theorem weightAt_eq_some (hg : NonNegative g) {x : ℕ} :
    g.weightAt u v = some x ↔ ∃ a b, g.nodes.elts[u]? = some a ∧ g.nodes.elts[v]? = some b ∧ g.Found a b x := by
  constructor
  · intro h
    obtain ⟨e, he, rfl⟩ := Option.map_eq_some_iff.mp h
    obtain ⟨a, b, ha, hb, hfind⟩ := edgeAt_eq_some he
    exact ⟨a, b, ha, hb, e, hfind, (Int.toNat_of_nonneg (hg e (findLoop_eq_some hfind).1)).symm⟩
  · rintro ⟨a, b, ha, hb, e, hfind, hx⟩
    rw [Graph.weightAt, Graph.edgeAt, Vector.slot_eq, Vector.slot_eq, ha, hb, Option.bind_some, Option.bind_some, hfind, Option.map_some,
      hx, Int.toNat_natCast]

theorem infinity_lt : infinity < 2 ^ 32 := by
  unfold infinity
  omega

theorem toNat_weight {e : GraphEdge} (h : 0 ≤ e.weight) : (e.weight % 2 ^ 32).toNat = e.weight.toNat := by
  unfold GraphEdge.weight cInt at *
  rw [Int.bmod_def] at *
  omega

theorem relax_of_ne (hv : v ≠ n) : (relax g u s n).dist v = s.dist v ∧ (relax g u s n).pred v = s.pred v := by
  unfold relax
  cases g.edgeAt u n with
  | none => exact ⟨rfl, rfl⟩
  | some e =>
    dsimp only
    split_ifs
    · exact ⟨Function.update_of_ne hv .., Function.update_of_ne hv ..⟩
    · exact ⟨rfl, rfl⟩

theorem relax_sptSet : (relax g u s n).sptSet = s.sptSet := by
  unfold relax
  cases g.edgeAt u n with
  | none => rfl
  | some e =>
    dsimp only
    split_ifs <;> rfl

theorem relax_self (hg : NonNegative g) (hle : s.dist u ≤ infinity)
    (hsum : ∀ x, g.weightAt u v = some x → s.sptSet v = false → s.dist u < infinity → s.dist u + x < infinity) :
    Relaxed g.weightAt infinity s.dist s.pred (fun v => s.sptSet v = true) u v ((relax g u s v).dist v)
      ((relax g u s v).pred v) := by
  unfold relax
  cases he : g.edgeAt u v with
  | none =>
    have hnone : g.weightAt u v = none := by rw [Graph.weightAt, he, Option.map_none]
    exact .inr ⟨fun x hx => absurd (hnone.symm.trans hx) (by simp), rfl, rfl⟩
  | some e =>
    have hweight : g.weightAt u v = some e.weight.toNat := by rw [Graph.weightAt, he, Option.map_some]
    obtain ⟨a, b, -, -, hfind⟩ := edgeAt_eq_some he
    have hmod := toNat_weight (hg e (findLoop_eq_some hfind).1)
    have hlt : s.dist u ≠ infinity ↔ s.dist u < infinity := (Nat.lt_iff_le_and_ne.trans (and_iff_right hle)).symm
    dsimp only
    rw [hmod]
    split_ifs with hcond
    · obtain ⟨hnot, hu, hbetter⟩ := hcond
      have hu := hlt.mp hu
      have hinf : s.dist u + e.weight.toNat < 2 ^ 32 := Nat.lt_trans (hsum _ hweight hnot hu) infinity_lt
      rw [Nat.mod_eq_of_lt hinf] at hbetter ⊢
      exact .inl ⟨_, hweight, by simp [hnot], hu, hbetter, Function.update_self .., Function.update_self ..⟩
    · refine .inr ⟨fun x hx hnot hu => ?_, rfl, rfl⟩
      obtain rfl := Option.some.inj (hweight.symm.trans hx)
      have hset : s.sptSet v = false := by simpa using hnot
      have hinf : s.dist u + e.weight.toNat < 2 ^ 32 := Nat.lt_trans (hsum _ hweight hset hu) infinity_lt
      rw [Nat.mod_eq_of_lt hinf] at hcond
      exact Nat.le_of_not_lt fun hbetter => hcond ⟨hset, hlt.mpr hu, hbetter⟩

theorem relaxLoop_spec (hg : NonNegative g) (hset : s.sptSet u = true) (hle : s.dist u ≤ infinity)
    (hsum : ∀ v x, g.weightAt u v = some x → s.sptSet v = false → s.dist u < infinity → s.dist u + x < infinity) (n : ℕ) :
    (relaxLoop g u s n).sptSet = s.sptSet ∧
      (∀ v < n, Relaxed g.weightAt infinity s.dist s.pred (fun v => s.sptSet v = true) u v ((relaxLoop g u s n).dist v)
        ((relaxLoop g u s n).pred v)) ∧
      ∀ v, n ≤ v → (relaxLoop g u s n).dist v = s.dist v ∧ (relaxLoop g u s n).pred v = s.pred v := by
  -- the loop over the adjacent nodes makes a round of Dijkstra's algorithm
  induction n with
  | zero => exact ⟨rfl, by simp, fun v _ => ⟨rfl, rfl⟩⟩
  | succ n ih =>
    obtain ⟨hspt, hlow, hhigh⟩ := ih
    -- the label of `u` stays, since `u` is in the set
    have hdist : (relaxLoop g u s n).dist u = s.dist u := by
      rcases Nat.lt_or_ge u n with hu | hu
      · rcases hlow u hu with ⟨_, -, hnot, -⟩ | ⟨-, hd, -⟩
        · exact absurd hset hnot
        · exact hd
      · exact (hhigh u hu).1
    obtain ⟨hn, hpn⟩ := hhigh n (Nat.le_refl n)
    have hself := relax_self (s := relaxLoop g u s n) (v := n) hg (hdist ▸ hle)
      (fun x hx hnot => by rw [hspt] at hnot; rw [hdist]; exact hsum n x hx hnot)
    rw [Relaxed, hdist, hn, hpn, hspt] at hself
    refine ⟨relax_sptSet.trans hspt, fun v hv => ?_, fun v hv => ?_⟩
    · rcases Nat.lt_or_eq_of_le (Nat.le_of_lt_succ hv) with hv | rfl
      · obtain ⟨hd, hp⟩ : (relax g u (relaxLoop g u s n) n).dist v = _ ∧ _ := relax_of_ne (Nat.ne_of_lt hv)
        rw [relaxLoop, hd, hp]
        exact hlow v hv
      · exact hself
    · obtain ⟨hd, hp⟩ : (relax g u (relaxLoop g u s n) n).dist v = _ ∧ _ := relax_of_ne (by omega)
      rw [relaxLoop, hd, hp]
      exact hhigh v (Nat.le_of_succ_le hv)

/-! ## All rounds -/

/-- The nodes below `nn` that are not in the set. -/
def undone (nn : ℕ) (s : SpState) : Finset ℕ := {v ∈ Finset.range nn | s.sptSet v = false}

theorem mem_undone {nn : ℕ} : v ∈ undone nn s ↔ v < nn ∧ s.sptSet v = false := by
  rw [undone, Finset.mem_filter, Finset.mem_range]

def Labelled (g : Graph) (src : ℕ) (s : SpState) : Prop :=
  Labels g.weightAt src infinity s.dist s.pred fun v => s.sptSet v = true

theorem lt_of_weightAt (hg : NonNegative g) {x : ℕ} (h : g.weightAt u v = some x) :
    u < g.nodes.elts.length ∧ v < g.nodes.elts.length := by
  obtain ⟨a, b, ha, hb, -⟩ := (weightAt_eq_some hg).mp h
  exact ⟨(List.getElem?_eq_some_iff.mp ha).1, (List.getElem?_eq_some_iff.mp hb).1⟩

theorem Labelled.lt_length (h : Labelled g src s) (hg : NonNegative g) (hsrc : src < g.nodes.elts.length)
    (hv : s.dist v < infinity) : v < g.nodes.elts.length := by
  obtain ⟨l, hpath, -⟩ := h.path v hv
  rcases hpath.last with rfl | ⟨u, x, hw⟩
  · exact hsrc
  · exact (lt_of_weightAt hg hw).2

theorem Labelled.round (h : Labelled g src s) (hg : NonNegative g) (hsrc : src < g.nodes.elts.length)
    (hbound : ∀ l c, Path (Of g.weightAt) src l c → c < infinity) (hne : (undone g.nodes.elts.length s).Nonempty) :
    ∃ t, spRound g g.nodes.elts.length s = some t ∧ Labelled g src t ∧
      (undone g.nodes.elts.length t).card + 1 = (undone g.nodes.elts.length s).card := by
  obtain ⟨v, hv⟩ := hne
  obtain ⟨hv, hnot⟩ := mem_undone.mp hv
  obtain ⟨u, hu, hmin, hu', hnear⟩ := minDist_eq h.le hv hnot
  have hnear (v : ℕ) (hv : ¬s.sptSet v = true) : s.dist u ≤ s.dist v := by
    by_contra hlt
    have hreach := Nat.lt_of_lt_of_le (Nat.lt_of_not_le hlt) (h.le u)
    exact hlt (hnear v (h.lt_length hg hsrc hreach) (by simpa using hv))
  have hdone : (fun v => Function.update s.sptSet u true v = true) = fun v => s.sptSet v = true ∨ v = u := by
    funext v
    rw [Function.update_apply]
    split_ifs with hvu <;> simp [hvu]
  have hundone : ¬s.sptSet u = true := by simp [hu']
  have hsum (v x : ℕ) (hw : g.weightAt u v = some x) (hv : Function.update s.sptSet u true v = false)
      (hlt : s.dist u < infinity) : s.dist u + x < infinity := by
    have hout : ¬(s.sptSet v = true ∨ v = u) := fun hc => by
      rw [(congrFun hdone v).mpr hc] at hv
      cases hv
    exact h.add_lt hbound hw (fun hc => hout (.inl hc)) (fun hc => hout (.inr hc)) hlt
  obtain ⟨hspt, hlow, hhigh⟩ := relaxLoop_spec (s := { s with sptSet := Function.update s.sptSet u true }) hg
    (Function.update_self ..) (h.le u) hsum g.nodes.elts.length
  refine ⟨_, by rw [spRound, hmin, Option.map_some], ?_, ?_⟩
  · rw [Labelled, hspt]
    change Labels _ _ _ _ _ fun v => Function.update s.sptSet u true v = true
    rw [hdone]
    refine Labels.round h hbound hundone hnear fun v => ?_
    rcases Nat.lt_or_ge v g.nodes.elts.length with hv | hv
    · have hrelaxed := hlow v hv
      rwa [hdone] at hrelaxed
    · obtain ⟨hd, hp⟩ := hhigh v hv
      refine .inr ⟨fun x hx => ?_, hd, hp⟩
      have := (lt_of_weightAt hg hx).2
      omega
  · have herase : undone g.nodes.elts.length (relaxLoop g u { s with sptSet := Function.update s.sptSet u true }
        g.nodes.elts.length) = (undone g.nodes.elts.length s).erase u := by
      ext v
      rw [Finset.mem_erase, mem_undone, mem_undone, hspt]
      change _ ∧ Function.update s.sptSet u true v = false ↔ _
      rw [Function.update_apply]
      split_ifs with hvu <;> simp [hvu]
    rw [herase, Finset.card_erase_add_one (mem_undone.mpr ⟨hu, hu'⟩)]

theorem Labelled.rounds (h : Labelled g src s) (hg : NonNegative g) (hsrc : src < g.nodes.elts.length)
    (hbound : ∀ l c, Path (Of g.weightAt) src l c → c < infinity) {count : ℕ}
    (hcount : (undone g.nodes.elts.length s).card = count + 1) :
    ∃ t, spRounds g g.nodes.elts.length count s = some t ∧ Labelled g src t ∧ (undone g.nodes.elts.length t).card = 1 := by
  induction count generalizing s with
  | zero => exact ⟨s, rfl, h, hcount⟩
  | succ count ih =>
    obtain ⟨t, ht, hlabelled, hcard⟩ := h.round hg hsrc hbound (Finset.card_pos.mp (by omega))
    obtain ⟨r, hr, hrest⟩ := ih hlabelled (by omega)
    exact ⟨r, by rw [spRounds, ht, Option.bind_some, hr], hrest⟩

theorem labelled_start (g : Graph) (src : ℕ) : Labelled g src (spStart src) := by
  refine labels_start ?_ (fun v hv => ?_) (fun _ => rfl) fun _ => Bool.false_ne_true
  · exact Function.update_self (f := fun _ => infinity) ..
  · exact Function.update_of_ne hv (f := fun _ => infinity) ..

theorem spRounds_spec (hg : NonNegative g) (hsrc : src < g.nodes.elts.length)
    (hbound : ∀ l c, Path (Of g.weightAt) src l c → c < infinity) :
    ∃ t, spRounds g g.nodes.elts.length (g.nodes.elts.length - 1) (spStart src) = some t ∧ Labelled g src t ∧
      ∀ v, (t.dist v < infinity ↔ ∃ c, Walk (Of g.weightAt) src v c) ∧
        (t.dist v < infinity → Shortest (Of g.weightAt) src v (t.dist v)) := by
  have hall : undone g.nodes.elts.length (spStart src) = Finset.range g.nodes.elts.length :=
    Finset.filter_true_of_mem fun _ _ => rfl
  have hcount : (undone g.nodes.elts.length (spStart src)).card = g.nodes.elts.length - 1 + 1 := by
    rw [hall, Finset.card_range]
    omega
  obtain ⟨t, ht, hlabelled, hcard⟩ := (labelled_start g src).rounds hg hsrc hbound hcount
  refine ⟨t, ht, hlabelled, fun v => hlabelled.shortest (by decide) ?_ v⟩
  intro u v x hu hw
  by_contra hno
  obtain ⟨hne, hv⟩ := not_or.mp hno
  obtain ⟨hu', hv'⟩ := lt_of_weightAt hg hw
  refine hne (Finset.card_le_one.mp hcard.le v (mem_undone.mpr ⟨hv', ?_⟩) u (mem_undone.mpr ⟨hu', ?_⟩))
  · simpa using hv
  · simpa using hu

end Yjc
