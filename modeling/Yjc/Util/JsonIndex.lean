import Yjc.Util.JsonObject
import Mathlib.Data.Set.Insert

/-! The invariant of the heap of JSON values: every object has its members in a list, a search tree and a counter, and no value is in two
lists. -/

namespace Yjc.Json
open CLib Links Rings Function

/-- The list heads of an object or array with these members or elements. -/
def nodes (a : ℕ) (l : List ℕ) : List Node := .head a :: l.map .entry

theorem entry_mem_nodes {a x : ℕ} {l : List ℕ} : Node.entry x ∈ nodes a l ↔ x ∈ l := by simp [nodes]

theorem head_mem_nodes {a b : ℕ} {l : List ℕ} : Node.head b ∈ nodes a l ↔ b = a := by simp [nodes]

variable {D : Type}

def Payload.Plain : Payload D → Prop
  | .object _ _ => False
  | .array _ => False
  | _ => True

def Payload.size? : Payload D → Option ℤ
  | .object _ size => some size
  | .array size => some size
  | _ => none

namespace Heap
variable {h h' : Heap D} {kids kids' : ℕ → List ℕ} {opened : Set ℕ} {l : List ℕ} {a b src dest memb obj val : ℕ} {R : Rebalancing}

def key (h : Heap D) (memb : ℕ) : List UInt8 := cString (h.name memb)

/-- The value has the members or elements `l`; the size may still be counted. -/
def Holds (h : Heap D) (l : List ℕ) (counting : Prop) (a : ℕ) : Prop :=
  match h.value a with
  | .object root size => Ring h.cells (.head a) (l.map .entry) ∧ root.inorder.Perm l ∧ RbTree.Sorted strcmp h.key root.inorder ∧
      (counting ∨ size = l.length)
  | .array size => Ring h.cells (.head a) (l.map .entry) ∧ (counting ∨ size = l.length)
  | _ => l = []

/-- The members and elements of all values, where the sizes of some are still counted. -/
structure Good (h : Heap D) (kids : ℕ → List ℕ) (opened : Set ℕ) : Prop where
  fresh : ∀ a, h.fresh ≤ a → h.block a = none
  kid : ∀ a, ∀ x ∈ kids a, h.block x ≠ none ∧ h.block x ≠ some .value
  nodup : ∀ a, (kids a).Nodup
  parent : ∀ a b x, x ∈ kids a → x ∈ kids b → a = b
  freed : ∀ a, h.block a = none → kids a = []
  holds : ∀ a, h.block a ≠ none → h.Holds (kids a) (a ∈ opened) a

theorem Holds.congr {counting : Prop} (hh : h.Holds l counting a) (hvalue : h'.value a = h.value a)
    (hcells : ∀ n ∈ nodes a l, h'.cells.next n = h.cells.next n ∧ h'.cells.prev n = h.cells.prev n)
    (hname : ∀ x ∈ l, h'.name x = h.name x) : h'.Holds l counting a := by
  have hring (hr : Ring h.cells (.head a) (l.map .entry)) : Ring h'.cells (.head a) (l.map .entry) :=
    hr.congr (fun n hn => (hcells n hn).1) fun n hn => (hcells n hn).2
  unfold Holds at hh ⊢
  rw [hvalue]
  cases hv : h.value a with
  | object root size =>
    rw [hv] at hh
    obtain ⟨hr, hperm, hsorted, hsize⟩ := hh
    refine ⟨hring hr, hperm, hsorted.imp_of_mem fun {x y} hx hy hle => ?_, hsize⟩
    rwa [key, key, hname x (hperm.mem_iff.mp hx), hname y (hperm.mem_iff.mp hy)]
  | array size =>
    rw [hv] at hh
    exact ⟨hring hh.1, hh.2⟩
  | _ => rwa [hv] at hh

theorem Good.nodes_disjoint (hg : Good h kids opened) (hne : a ≠ b) {n : Node} (hn : n ∈ nodes a (kids a)) : n ∉ nodes b (kids b) := by
  cases n with
  | head c =>
    rw [head_mem_nodes] at hn ⊢
    rwa [hn]
  | entry x =>
    rw [entry_mem_nodes] at hn ⊢
    exact fun hb => hne (hg.parent a b x hn hb)

theorem Good.kid_lt (hg : Good h kids opened) (hx : b ∈ kids a) : b < h.fresh :=
  Nat.lt_of_not_le fun hge => (hg.kid a b hx).1 (hg.fresh b hge)

theorem Good.notMem_of_value (hg : Good h kids opened) (hsrc : h.block src = some .value) (a : ℕ) : src ∉ kids a :=
  fun hmem => (hg.kid a src hmem).2 hsrc

theorem Holds.mono {p q : Prop} (hh : h.Holds l p a) (hpq : p → q) : h.Holds l q a := by
  unfold Holds at hh ⊢
  cases hv : h.value a with
  | object root size =>
    rw [hv] at hh
    exact ⟨hh.1, hh.2.1, hh.2.2.1, hh.2.2.2.imp hpq id⟩
  | array size =>
    rw [hv] at hh
    exact ⟨hh.1, hh.2.imp hpq id⟩
  | _ => rwa [hv] at hh

/-! ## Blocks and values without members -/

theorem Good.malloc (hg : Good h kids opened) (block : Block) : Good (h.malloc block).2 kids opened := by
  have hnone : h.block h.fresh = none := hg.fresh _ (Nat.le_refl _)
  have hblock (x : ℕ) (hx : h.block x ≠ none) : (h.malloc block).2.block x = h.block x := by
    refine update_of_ne ?_ _ _
    rintro rfl
    exact hx hnone
  refine ⟨fun a ha => ?_, fun a x hx => ?_, hg.nodup, hg.parent, fun a ha => ?_, fun a ha => ?_⟩
  · exact (update_of_ne (Nat.ne_of_gt ha) _ _).trans (hg.fresh a (Nat.le_of_succ_le ha))
  · rw [hblock x (hg.kid a x hx).1]
    exact hg.kid a x hx
  · by_contra hne
    have hsome : h.block a ≠ none := fun hnone => hne (hg.freed a hnone)
    exact hsome ((hblock a hsome).symm.trans ha)
  · by_cases hfresh : a = h.fresh
    · subst hfresh
      unfold Holds
      rw [show (h.malloc block).2.value h.fresh = .null from update_self ..]
      exact hg.freed _ hnone
    · have hsome : h.block a ≠ none := by rwa [show (h.malloc block).2.block a = h.block a from update_of_ne hfresh _ _] at ha
      exact (hg.holds a hsome).congr (update_of_ne hfresh _ _) (fun _ _ => ⟨rfl, rfl⟩) fun _ _ => rfl

theorem Good.setValue (hg : Good h kids opened) {v : Payload D} (hh : (h.setValue a v).Holds (kids a) (a ∈ opened) a) :
    Good (h.setValue a v) kids opened := by
  refine { hg with holds := fun b hb => ?_ }
  by_cases hba : b = a
  · subst hba
    exact hh
  · exact (hg.holds b hb).congr (update_of_ne hba _ _) (fun _ _ => ⟨rfl, rfl⟩) fun _ _ => rfl

theorem holds_plain {v : Payload D} (hv : h.value a = v) (hplain : Payload.Plain v) {counting : Prop} : h.Holds l counting a ↔ l = [] := by
  unfold Holds
  rw [hv]
  cases v with
  | object => exact hplain.elim
  | array => exact hplain.elim
  | _ => rfl

theorem Good.setPlain (hg : Good h kids opened) {v : Payload D} (hplain : Payload.Plain v) (ha : kids a = []) :
    Good (h.setValue a v) kids opened :=
  hg.setValue ((holds_plain (update_self ..) hplain).mpr ha)

theorem Good.initList (hg : Good h kids opened) (ha : kids a = []) {v : Payload D}
    (hv : v = .array 0 ∨ v = .object .nil 0) : Good (h.initList a v) kids opened := by
  have hsame (n : Node) (hn : n ≠ .head a) :
      (h.cells.init (.head a)).next n = h.cells.next n ∧ (h.cells.init (.head a)).prev n = h.cells.prev n :=
    ⟨update_of_ne hn _ _, update_of_ne hn _ _⟩
  refine { hg with holds := fun b hb => ?_ }
  by_cases hba : b = a
  · subst hba
    have hring : Ring (h.cells.init (.head b)) (.head b) [] := ring_init _ _
    rw [ha]
    unfold Holds
    rw [show (h.initList b v).value b = v from update_self ..]
    obtain rfl | rfl := hv
    · exact ⟨hring, .inr rfl⟩
    · exact ⟨hring, .refl _, .nil, .inr rfl⟩
  · refine (hg.holds b hb).congr (update_of_ne hba _ _) (fun n hn => hsame n ?_) fun _ _ => rfl
    rintro rfl
    exact hba (head_mem_nodes.mp hn).symm

/-! ## Moving -/

/-- What is in the list of one value comes into the list of another one. -/
def moved (kids : ℕ → List ℕ) (src dest : ℕ) : ℕ → List ℕ := update (update kids dest (kids src)) src []

theorem moved_src : moved kids src dest src = [] := update_self ..

theorem moved_dest (hne : src ≠ dest) : moved kids src dest dest = kids src := by rw [moved, update_of_ne hne.symm, update_self]

theorem moved_of_ne (hsrc : a ≠ src) (hdest : a ≠ dest) : moved kids src dest a = kids a := by
  rw [moved, update_of_ne hsrc, update_of_ne hdest]

theorem mem_moved (hne : src ≠ dest) {x : ℕ} (hx : x ∈ moved kids src dest a) :
    ∃ b, x ∈ kids b ∧ b ≠ dest ∧ a = (if b = src then dest else b) := by
  by_cases hsrc : a = src
  · rw [hsrc, moved_src] at hx
    cases hx
  · by_cases hdest : a = dest
    · rw [hdest, moved_dest hne] at hx
      exact ⟨src, hx, hne, by rw [if_pos rfl, hdest]⟩
    · rw [moved_of_ne hsrc hdest] at hx
      exact ⟨a, hx, hdest, (if_neg hsrc).symm⟩

theorem splice_cells (hg : Good h kids opened) (hne : src ≠ dest) (hring : Ring h.cells (.head src) ((kids src).map .entry)) :
    Ring ((h.cells.init (.head dest)).splice (.head src) (.head dest)) (.head dest) ((kids src).map .entry) ∧
      ∀ b ≠ src, b ≠ dest → ∀ n ∈ nodes b (kids b),
        ((h.cells.init (.head dest)).splice (.head src) (.head dest)).next n = h.cells.next n ∧
          ((h.cells.init (.head dest)).splice (.head src) (.head dest)).prev n = h.cells.prev n := by
  have hdest : Node.head dest ∉ nodes src (kids src) := fun hmem => hne (head_mem_nodes.mp hmem).symm
  have hinit (n : Node) (hn : n ≠ .head dest) :
      (h.cells.init (.head dest)).next n = h.cells.next n ∧ (h.cells.init (.head dest)).prev n = h.cells.prev n :=
    ⟨update_of_ne hn _ _, update_of_ne hn _ _⟩
  have hring' : Ring (h.cells.init (.head dest)) (.head src) ((kids src).map .entry) :=
    hring.congr (fun n hn => (hinit n fun heq => hdest (heq ▸ hn)).1) fun n hn => (hinit n fun heq => hdest (heq ▸ hn)).2
  obtain ⟨hspliced, hsame⟩ := hring'.splice (ring_init h.cells (.head dest)) hdest
  refine ⟨hspliced, fun b hsrc hbdest n hn => ?_⟩
  have hhead : n ≠ .head dest := by
    rintro rfl
    exact hbdest (head_mem_nodes.mp hn).symm
  obtain ⟨hnext, hprev⟩ := hsame n (List.not_mem_cons_of_ne_of_not_mem hhead (hg.nodes_disjoint hsrc hn))
  exact ⟨hnext.trans (hinit n hhead).1, hprev.trans (hinit n hhead).2⟩

theorem moveJsonValue_spec (hg : Good h kids opened) (hsrc : h.block src ≠ none) (hne : src ≠ dest) :
    (h.moveJsonValue src dest).value = update h.value dest (h.value src) ∧ (h.moveJsonValue src dest).name = h.name ∧
      (h.moveJsonValue src dest).block = h.block ∧ (h.moveJsonValue src dest).fresh = h.fresh ∧
      (∀ b ≠ src, b ≠ dest → ∀ n ∈ nodes b (kids b),
        (h.moveJsonValue src dest).cells.next n = h.cells.next n ∧ (h.moveJsonValue src dest).cells.prev n = h.cells.prev n) ∧
      (h.moveJsonValue src dest).Holds (kids src) (src ∈ opened) dest := by
  have hh := hg.holds src hsrc
  unfold Holds at hh
  unfold moveJsonValue
  cases hv : h.value src with
  | object root size =>
    rw [hv] at hh
    obtain ⟨hring, hsame⟩ := splice_cells hg hne hh.1
    refine ⟨rfl, rfl, rfl, rfl, hsame, ?_⟩
    unfold Holds Heap.setValue
    dsimp only
    rw [update_self]
    exact ⟨hring, hh.2⟩
  | array size =>
    rw [hv] at hh
    obtain ⟨hring, hsame⟩ := splice_cells hg hne hh.1
    refine ⟨rfl, rfl, rfl, rfl, hsame, ?_⟩
    unfold Holds Heap.setValue
    dsimp only
    rw [update_self]
    exact ⟨hring, hh.2⟩
  | _ =>
    rw [hv] at hh
    exact ⟨rfl, rfl, rfl, rfl, fun _ _ _ _ _ => ⟨rfl, rfl⟩, (holds_plain (update_self ..) (by exact trivial)).mpr hh⟩

theorem Good.move (hg : Good h kids opened) (hsrc : h.block src ≠ none) (hdest : h.block dest ≠ none) (hne : src ≠ dest)
    (hnone : kids dest = []) (hroot : ∀ a, src ∉ kids a) (hclosed : src ∉ opened) :
    Good ((h.moveJsonValue src dest).free src) (moved kids src dest) opened := by
  obtain ⟨hvalue, hname, hblock, hfresh, hcells, hholds⟩ := moveJsonValue_spec hg hsrc hne
  have hfree (x : ℕ) (hx : x ≠ src) : ((h.moveJsonValue src dest).free src).block x = h.block x := by
    unfold Heap.free
    dsimp only
    rw [update_of_ne hx, hblock]
  have hfreed : ((h.moveJsonValue src dest).free src).block src = none := update_self ..
  refine ⟨fun a ha => ?_, fun a x hx => ?_, fun a => ?_, fun a b x ha hb => ?_, fun a ha => ?_, fun a ha => ?_⟩
  · by_cases has : a = src
    · rw [has, hfreed]
    · rw [hfree a has]
      exact hg.fresh a (hfresh ▸ ha)
  · obtain ⟨b, hb, -⟩ := mem_moved hne hx
    have hxs : x ≠ src := by
      rintro rfl
      exact hroot b hb
    rw [hfree x hxs]
    exact hg.kid b x hb
  · by_cases has : a = src
    · rw [has, moved_src]
      exact List.nodup_nil
    · by_cases had : a = dest
      · rw [had, moved_dest hne]
        exact hg.nodup src
      · rw [moved_of_ne has had]
        exact hg.nodup a
  · obtain ⟨a', ha', -, rfl⟩ := mem_moved hne ha
    obtain ⟨b', hb', -, rfl⟩ := mem_moved hne hb
    rw [hg.parent a' b' x ha' hb']
  · by_cases has : a = src
    · rw [has, moved_src]
    · rw [hfree a has] at ha
      have had : a ≠ dest := by
        rintro rfl
        exact hdest ha
      rw [moved_of_ne has had]
      exact hg.freed a ha
  · by_cases has : a = src
    · rw [has] at ha
      exact absurd hfreed ha
    · by_cases had : a = dest
      · subst had
        rw [moved_dest hne]
        exact hholds.mono fun hmem => absurd hmem hclosed
      · rw [hfree a has] at ha
        rw [moved_of_ne has had]
        refine (hg.holds a ha).congr ?_ (fun n hn => hcells a has had n hn) fun x _ => congrFun hname x
        exact (congrFun hvalue a).trans (update_of_ne had _ _)

/-! ## Lists that change -/

theorem Good.relist (hg : Good h kids opened) (hobj : h.block obj ≠ none) (hblock : h'.block = h.block) (hfresh : h'.fresh = h.fresh)
    (hname : h'.name = h.name) (hvalue : ∀ b ≠ obj, h'.value b = h.value b)
    (hcells : ∀ b ≠ obj, ∀ n ∈ nodes b (kids b), h'.cells.next n = h.cells.next n ∧ h'.cells.prev n = h.cells.prev n)
    (hnodup : l.Nodup) (hkid : ∀ x ∈ l, h.block x ≠ none ∧ h.block x ≠ some .value) (hothers : ∀ x ∈ l, ∀ b ≠ obj, x ∉ kids b)
    (hholds : h'.Holds l True obj) : Good h' (update kids obj l) (insert obj opened) := by
  have hself : update kids obj l obj = l := update_self ..
  have hother (b : ℕ) (hb : b ≠ obj) : update kids obj l b = kids b := update_of_ne hb _ _
  refine ⟨fun a ha => ?_, fun a x hx => ?_, fun a => ?_, fun a b x ha hb => ?_, fun a ha => ?_, fun a ha => ?_⟩
  · rw [hblock]
    exact hg.fresh a (hfresh ▸ ha)
  · rw [hblock]
    by_cases hao : a = obj
    · rw [hao, hself] at hx
      exact hkid x hx
    · rw [hother a hao] at hx
      exact hg.kid a x hx
  · by_cases hao : a = obj
    · rwa [hao, hself]
    · rw [hother a hao]
      exact hg.nodup a
  · by_cases hao : a = obj
    · by_cases hbo : b = obj
      · rw [hao, hbo]
      · rw [hao, hself] at ha
        rw [hother b hbo] at hb
        exact absurd hb (hothers x ha b hbo)
    · rw [hother a hao] at ha
      by_cases hbo : b = obj
      · rw [hbo, hself] at hb
        exact absurd ha (hothers x hb a hao)
      · rw [hother b hbo] at hb
        exact hg.parent a b x ha hb
  · have hao : a ≠ obj := by
      rintro rfl
      exact hobj (hblock ▸ ha)
    rw [hother a hao]
    exact hg.freed a (hblock ▸ ha)
  · by_cases hao : a = obj
    · rw [hao, hself]
      exact hholds.mono fun _ => Set.mem_insert _ _
    · rw [hother a hao]
      have hh := (hg.holds a (hblock ▸ ha)).congr (hvalue a hao) (hcells a hao) fun x _ => congrFun hname x
      exact hh.mono fun hmem => Set.mem_insert_of_mem _ hmem

theorem Good.setSize (hg : Good h kids (insert obj opened)) {f : ℤ → ℤ} (hsize : ∀ size ∈ (h.value obj).size?, f size = (kids obj).length) :
    Good (h.setSize obj f) kids opened := by
  have hblock : (h.setSize obj f).block = h.block := by
    unfold Heap.setSize
    cases h.value obj <;> rfl
  have hfresh : (h.setSize obj f).fresh = h.fresh := by
    unfold Heap.setSize
    cases h.value obj <;> rfl
  refine ⟨fun a ha => hblock ▸ hg.fresh a (hfresh ▸ ha), fun a x hx => hblock ▸ hg.kid a x hx, hg.nodup, hg.parent,
    fun a ha => hg.freed a (hblock ▸ ha), fun a ha => ?_⟩
  have hh := hg.holds a (hblock ▸ ha)
  by_cases hao : a = obj
  · subst hao
    unfold Heap.setSize
    unfold Holds at hh
    cases hv : h.value a with
    | object root size =>
      rw [hv] at hh hsize
      unfold Holds Heap.setValue
      dsimp only
      rw [update_self]
      exact ⟨hh.1, hh.2.1, hh.2.2.1, .inr (hsize size rfl)⟩
    | array size =>
      rw [hv] at hh hsize
      unfold Holds Heap.setValue
      dsimp only
      rw [update_self]
      exact ⟨hh.1, .inr (hsize size rfl)⟩
    | _ =>
      rw [hv] at hh
      exact (holds_plain hv (by exact trivial)).mpr hh
  · have hvalue : (h.setSize obj f).value a = h.value a := by
      unfold Heap.setSize
      cases h.value obj with
      | object => exact update_of_ne hao _ _
      | array => exact update_of_ne hao _ _
      | _ => rfl
    have hcells : (h.setSize obj f).cells = h.cells := by
      unfold Heap.setSize
      cases h.value obj <;> rfl
    have hname : (h.setSize obj f).name = h.name := by
      unfold Heap.setSize
      cases h.value obj <;> rfl
    refine (hh.mono fun hmem => ?_).congr hvalue (fun n _ => by rw [hcells]; exact ⟨rfl, rfl⟩) fun x _ => congrFun hname x
    exact hmem.resolve_left hao

theorem add_cells (hg : Good h kids opened) {xs ys : List ℕ} (hkids : kids obj = xs ++ ys) (hmemb : ∀ a, memb ∉ kids a)
    (hring : Ring h.cells (.head obj) ((kids obj).map .entry)) :
    Ring (h.cells.add (.entry memb) (lastOr (.head obj) (xs.map .entry))) (.head obj) ((xs ++ memb :: ys).map .entry) ∧
      ∀ b ≠ obj, ∀ n ∈ nodes b (kids b),
        (h.cells.add (.entry memb) (lastOr (.head obj) (xs.map .entry))).next n = h.cells.next n ∧
          (h.cells.add (.entry memb) (lastOr (.head obj) (xs.map .entry))).prev n = h.cells.prev n := by
  rw [hkids, List.map_append] at hring
  have hnew : Node.entry memb ∉ .head obj :: (xs.map Node.entry ++ ys.map Node.entry) := by
    rw [← List.map_append, ← hkids]
    exact fun hmem => hmemb obj (entry_mem_nodes.mp hmem)
  refine ⟨?_, fun b hb n hn => ?_⟩
  · rw [List.map_append, List.map_cons]
    exact hring.add hnew
  · have hother := hg.nodes_disjoint hb hn
    rw [nodes, hkids, List.map_append] at hother
    refine hring.add_same hother ?_
    rintro rfl
    exact hmemb b (entry_mem_nodes.mp hn)

theorem cut_perm {xs ys : List ℕ} : (xs ++ memb :: ys).Perm (memb :: (xs ++ ys)) := List.perm_middle

theorem Good.cut (hg : Good h kids opened) {xs ys : List ℕ} (hkids : kids obj = xs ++ ys) (hmemb : ∀ a, memb ∉ kids a)
    (hblock : h.block memb ≠ none ∧ h.block memb ≠ some .value) : (xs ++ memb :: ys).Nodup ∧
      (∀ x ∈ xs ++ memb :: ys, h.block x ≠ none ∧ h.block x ≠ some .value) ∧ ∀ x ∈ xs ++ memb :: ys, ∀ b ≠ obj, x ∉ kids b := by
  have hmem (x : ℕ) (hx : x ∈ xs ++ memb :: ys) : x = memb ∨ x ∈ kids obj := by
    rw [hkids]
    exact List.mem_cons.mp (cut_perm.mem_iff.mp hx)
  refine ⟨cut_perm.nodup_iff.mpr (List.nodup_cons.mpr ⟨hkids ▸ hmemb obj, hkids ▸ hg.nodup obj⟩), fun x hx => ?_, fun x hx b hb hxb => ?_⟩
  · obtain rfl | hx := hmem x hx
    · exact hblock
    · exact hg.kid obj x hx
  · obtain rfl | hx := hmem x hx
    · exact hmemb b hxb
    · exact hb (hg.parent b obj x hxb hx)

theorem Good.insertJsonMember (R : Rebalancing) (hg : Good h kids opened) (hobj : h.block obj ≠ none) {root : RbTree ℕ} {size : ℤ}
    (hvalue : h.value obj = .object root size) {xs ys : List ℕ} (hkids : kids obj = xs ++ ys) (hmemb : ∀ a, memb ∉ kids a)
    (hblock : h.block memb ≠ none ∧ h.block memb ≠ some .value) :
    Good (h.insertJsonMember R memb (lastOr (.head obj) (xs.map .entry)) obj) (update kids obj (xs ++ memb :: ys)) (insert obj opened) ∧
      ∃ root', (h.insertJsonMember R memb (lastOr (.head obj) (xs.map .entry)) obj).value = update h.value obj (.object root' size) := by
  have hh := hg.holds obj hobj
  unfold Holds at hh
  rw [hvalue] at hh
  obtain ⟨hring, hperm, hsorted, -⟩ := hh
  obtain ⟨hring', hsame⟩ := add_cells hg hkids hmemb hring
  obtain ⟨hnodup, hkid, hothers⟩ := hg.cut hkids hmemb hblock
  unfold Heap.insertJsonMember
  rw [hvalue]
  refine ⟨hg.relist hobj rfl rfl rfl (fun b hb => update_of_ne hb _ _) hsame hnodup hkid hothers ?_, _, rfl⟩
  unfold Holds Heap.setValue
  dsimp only
  rw [update_self]
  refine ⟨hring', ?_, ?_, .inl trivial⟩
  · rw [R.inorder_insertColor]
    refine (RbTree.link_perm _ memb root).trans ((hperm.cons memb).trans ?_)
    rw [hkids]
    exact cut_perm.symm
  · rw [R.inorder_insertColor]
    exact RbTree.sorted_link strcmp_totalPreorder hsorted

theorem Good.addElement (hg : Good h kids opened) (harr : h.block a ≠ none) {size : ℤ} (hvalue : h.value a = .array size)
    (hmemb : ∀ b, memb ∉ kids b) (hblock : h.block memb ≠ none ∧ h.block memb ≠ some .value) :
    Good { h with cells := h.cells.addTail (.entry memb) (.head a) } (update kids a (kids a ++ [memb])) (insert a opened) := by
  have hh := hg.holds a harr
  unfold Holds at hh
  rw [hvalue] at hh
  have hkids : kids a = kids a ++ [] := (List.append_nil _).symm
  obtain ⟨hring, hsame⟩ := add_cells hg hkids hmemb hh.1
  obtain ⟨hnodup, hkid, hothers⟩ := hg.cut hkids hmemb hblock
  rw [hh.1.addTail_eq]
  refine hg.relist harr rfl rfl rfl (fun _ _ => rfl) hsame hnodup hkid hothers ?_
  unfold Holds
  dsimp only
  rw [hvalue]
  exact ⟨hring, .inl trivial⟩

/-- The lists after a value was made from an argument. -/
def placed (arg : Arg D) (val : ℕ) (kids : ℕ → List ℕ) : ℕ → List ℕ :=
  match arg with
  | .move src => moved kids src val
  | _ => kids

theorem Good.setJsonValue (hg : Good h kids ∅) (hval : h.block val ≠ none) (hnone : kids val = []) {arg : Arg D}
    (harg : ∀ src, arg = .move src → h.block src = some .value ∧ src ≠ val) :
    Good (h.setJsonValue arg val) (placed arg val kids) ∅ ∧ (h.setJsonValue arg val).name = h.name ∧
      (h.setJsonValue arg val).fresh = h.fresh ∧ (∀ b ≠ val, (h.setJsonValue arg val).value b = h.value b) ∧
      ∀ b, arg ≠ .move b → (h.setJsonValue arg val).block b = h.block b := by
  cases arg with
  | move src =>
    obtain ⟨hblock, hne⟩ := harg src rfl
    have hsrc : h.block src ≠ none := fun heq => nomatch hblock.symm.trans heq
    obtain ⟨hvalue, hname, hblocks, hfresh, -⟩ := moveJsonValue_spec hg hsrc hne
    refine ⟨hg.move hsrc hval hne hnone (hg.notMem_of_value hblock) (Set.notMem_empty src), hname, hfresh, fun b hb => ?_, fun b hb => ?_⟩
    · exact (congrFun hvalue b).trans (update_of_ne hb _ _)
    · have hbs : b ≠ src := by
        rintro rfl
        exact hb rfl
      exact (update_of_ne hbs _ _).trans (congrFun hblocks b)
  | string str => exact ⟨hg.setPlain trivial hnone, rfl, rfl, fun b hb => update_of_ne hb _ _, fun _ _ => rfl⟩
  | number n => exact ⟨hg.setPlain trivial hnone, rfl, rfl, fun b hb => update_of_ne hb _ _, fun _ _ => rfl⟩
  | object => exact ⟨hg.initList hnone (.inr rfl), rfl, rfl, fun b hb => update_of_ne hb _ _, fun _ _ => rfl⟩
  | array => exact ⟨hg.initList hnone (.inl rfl), rfl, rfl, fun b hb => update_of_ne hb _ _, fun _ _ => rfl⟩
  | «true» => exact ⟨hg.setPlain trivial hnone, rfl, rfl, fun b hb => update_of_ne hb _ _, fun _ _ => rfl⟩
  | «false» => exact ⟨hg.setPlain trivial hnone, rfl, rfl, fun b hb => update_of_ne hb _ _, fun _ _ => rfl⟩
  | null => exact ⟨hg.setPlain trivial hnone, rfl, rfl, fun b hb => update_of_ne hb _ _, fun _ _ => rfl⟩

end Heap
end Yjc.Json
