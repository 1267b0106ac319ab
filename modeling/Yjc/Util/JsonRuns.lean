import Yjc.Util.JsonLists

/-! The heap against the ordered lists: every operation does to the heap what it does to them. -/

namespace Yjc.Json
open CLib Links Rings Function

namespace Heap
variable {D : Type} {h h' h'' : Heap D} {S S' S'' : Lists D} {opened : Set ℕ} {l : List ℕ} {a b src dest memb obj val : ℕ} (R : Rebalancing)

def kinds (h : Heap D) (a : ℕ) : JsonValue D := (h.value a).kind

theorem kinds_update {v : Payload D} (hvalue : h'.value = update h.value a v) : h'.kinds = update h.kinds a v.kind := by
  funext b
  rw [kinds, hvalue]
  exact apply_update (fun _ v => Payload.kind v) h.value a v b

/-- No more than the cells and the inside of one object or array is changed. -/
structure Inside (h h' : Heap D) (obj : ℕ) : Prop where
  block : h'.block = h.block
  name : h'.name = h.name
  fresh : h'.fresh = h.fresh
  value : ∃ v, h'.value = update h.value obj v ∧ v.kind = (h.value obj).kind

theorem Inside.value_of_ne (hi : Inside h h' obj) (hne : b ≠ obj) : h'.value b = h.value b := by
  obtain ⟨v, hvalue, -⟩ := hi.value
  rw [hvalue, update_of_ne hne]

theorem Inside.kinds (hi : Inside h h' obj) : h'.kinds = h.kinds := by
  obtain ⟨v, hvalue, hkind⟩ := hi.value
  rw [kinds_update hvalue, hkind]
  exact update_eq_self obj h.kinds

theorem Inside.trans (hi : Inside h h' obj) (hi' : Inside h' h'' obj) : Inside h h'' obj := by
  obtain ⟨v, hvalue, hkind⟩ := hi.value
  obtain ⟨v', hvalue', hkind'⟩ := hi'.value
  refine ⟨hi'.block.trans hi.block, hi'.name.trans hi.name, hi'.fresh.trans hi.fresh, v', ?_, ?_⟩
  · rw [hvalue', hvalue, update_idem]
  · rw [hkind', hvalue, update_self, hkind]

theorem insertJsonMember_inside (h : Heap D) (memb : ℕ) (pos : Node) (obj : ℕ) : Inside h (h.insertJsonMember R memb pos obj) obj := by
  unfold Heap.insertJsonMember
  cases hv : h.value obj with
  | object root size => exact ⟨rfl, rfl, rfl, _, rfl, by rw [hv]; rfl⟩
  | _ => exact ⟨rfl, rfl, rfl, _, (update_eq_self obj h.value).symm, rfl⟩

theorem setSize_inside (h : Heap D) (a : ℕ) (f : ℤ → ℤ) : Inside h (h.setSize a f) a := by
  unfold Heap.setSize
  cases hv : h.value a with
  | object root size => exact ⟨rfl, rfl, rfl, _, rfl, by rw [hv]; rfl⟩
  | array size => exact ⟨rfl, rfl, rfl, _, rfl, by rw [hv]; rfl⟩
  | _ => exact ⟨rfl, rfl, rfl, _, (update_eq_self a h.value).symm, rfl⟩

/-- The heap is one of these lists, where some sizes are still counted. -/
structure Refines (h : Heap D) (S : Lists D) (opened : Set ℕ) : Prop where
  good : Good h S.kids opened
  kind : h.kinds = S.kind
  name : h.name = S.name
  fresh : h.fresh = S.fresh

theorem Refines.inside (hr : Refines h S opened) (hi : Inside h h' obj) {kids : ℕ → List ℕ} {opened' : Set ℕ} (hg : Good h' kids opened') :
    Refines h' { S with kids } opened' :=
  ⟨hg, hi.kinds.trans hr.kind, hi.name.trans hr.name, hi.fresh.trans hr.fresh⟩

/-- All but one value of those that there were are as they were, and only new blocks came into lists. -/
structure Keeps (h h' : Heap D) (S S' : Lists D) (val : ℕ) : Prop where
  fresh : h.fresh ≤ h'.fresh
  block : ∀ b < h.fresh, h'.block b = h.block b
  value : ∀ b < h.fresh, b ≠ val → h'.value b = h.value b
  kids : ∀ b < h.fresh, b ≠ val → S'.kids b = S.kids b
  new : ∀ b, ∀ x ∈ S'.kids b, x ∈ S.kids b ∨ h.fresh ≤ x

theorem Keeps.trans (hk : Keeps h h' S S' val) (hk' : Keeps h' h'' S' S'' val) : Keeps h h'' S S'' val where
  fresh := hk.fresh.trans hk'.fresh
  block b hb := (hk'.block b (hb.trans_le hk.fresh)).trans (hk.block b hb)
  value b hb hne := (hk'.value b (hb.trans_le hk.fresh) hne).trans (hk.value b hb hne)
  kids b hb hne := (hk'.kids b (hb.trans_le hk.fresh) hne).trans (hk.kids b hb hne)
  new b x hx := (hk'.new b x hx).elim (hk.new b x) fun hle => .inr (hk.fresh.trans hle)

theorem Good.lt_fresh {kids : ℕ → List ℕ} (hg : Good h kids opened) (ha : h.block a ≠ none) : a < h.fresh :=
  Nat.lt_of_not_le fun hge => ha (hg.fresh a hge)

theorem Good.kids_fresh {kids : ℕ → List ℕ} (hg : Good h kids opened) : kids h.fresh = [] := hg.freed _ (hg.fresh _ (Nat.le_refl _))

theorem Good.fresh_notMem {kids : ℕ → List ℕ} (hg : Good h kids opened) (a : ℕ) : h.fresh ∉ kids a :=
  fun hmem => Nat.lt_irrefl _ (hg.kid_lt hmem)

theorem Good.ring {kids : ℕ → List ℕ} (hg : Good h kids opened) (ha : h.block a ≠ none) {root : RbTree ℕ} {size : ℤ}
    (hv : h.value a = .object root size) : Ring h.cells (.head a) ((kids a).map .entry) := by
  have hh := hg.holds a ha
  unfold Holds at hh
  rw [hv] at hh
  exact hh.1

/-! ## Parsed values -/

/-- A block is made and filled: it is in no list yet. -/
structure Made (h h' : Heap D) (S S' : Lists D) (opened : Set ℕ) (block : Block) : Prop where
  refines : Refines h' S' opened
  keeps : Keeps h h' S S' h.fresh
  isBlock : h'.block h.fresh = some block
  notMem : ∀ b, h.fresh ∉ S'.kids b

theorem Refines.made {h₁ : Heap D} {S₁ : Lists D} {block : Block} (hr : Refines h S opened) (hk₁ : Keeps h h₁ S S₁ h.fresh)
    (hkids : S₁.kids = S.kids) (hfresh : h₁.fresh = h.fresh + 1) (hblock : h₁.block h.fresh = some block) (hr' : Refines h' S' opened)
    (hk : Keeps h₁ h' S₁ S' h.fresh) : Made h h' S S' opened block := by
  refine ⟨hr', hk₁.trans hk, ?_, fun b hmem => ?_⟩
  · rw [hk.block h.fresh (by omega), hblock]
  · obtain hmem | hle := hk.new b _ hmem
    · exact hr.good.fresh_notMem b (hkids ▸ hmem)
    · omega

theorem Made.keeps_append {block : Block} (hm : Made h h' S S' opened block) (hfresh : h''.fresh = h'.fresh) (hblock : h''.block = h'.block) (hvalue : ∀ b ≠ obj, h''.value b = h'.value b) :
    Keeps h h'' S { S' with kids := update S'.kids obj (S'.kids obj ++ [h.fresh]) } obj := by
  have hk := hm.keeps
  refine ⟨hfresh ▸ hk.fresh, fun b hb => hblock ▸ hk.block b hb, fun b hb hne => ?_, fun b hb hne => ?_, fun b x hx => ?_⟩
  · rw [hvalue b hne]
    exact hk.value b hb (Nat.ne_of_lt hb)
  · exact (update_of_ne hne _ _).trans (hk.kids b hb (Nat.ne_of_lt hb))
  · by_cases hbo : b = obj
    · dsimp only at hx
      rw [hbo, update_self] at hx
      rcases List.mem_append.mp hx with hx | hx
      · exact hbo ▸ hk.new obj x hx
      · exact .inr (Nat.le_of_eq (List.mem_singleton.mp hx).symm)
    · dsimp only at hx
      rw [update_of_ne hbo] at hx
      exact hk.new b x hx

theorem Made.appendMember (hr : Refines h S (Insert.insert obj opened)) (hm : Made h h' S S' (Insert.insert obj opened) .member)
    (hobj : h.block obj ≠ none) {root : RbTree ℕ} {size : ℤ} (hvalue : h.value obj = .object root size) :
    Refines (h'.insertJsonMember R h.fresh (h'.cells.prev (.head obj)) obj)
        { S' with kids := update S'.kids obj (S'.kids obj ++ [h.fresh]) } (Insert.insert obj opened) ∧
      Keeps h (h'.insertJsonMember R h.fresh (h'.cells.prev (.head obj)) obj) S
        { S' with kids := update S'.kids obj (S'.kids obj ++ [h.fresh]) } obj ∧
      ∃ root', (h'.insertJsonMember R h.fresh (h'.cells.prev (.head obj)) obj).value obj = .object root' size := by
  have hlt := hr.good.lt_fresh hobj
  have hobj' : h'.block obj ≠ none := by rwa [hm.keeps.block obj hlt]
  have hvalue' : h'.value obj = .object root size := by rw [hm.keeps.value obj hlt (Nat.ne_of_lt hlt), hvalue]
  have hmemb : h'.block h.fresh ≠ none ∧ h'.block h.fresh ≠ some .value := by rw [hm.isBlock]; decide
  rw [(hm.refines.good.ring hobj' hvalue').prev_head]
  have hkids : S'.kids obj = S'.kids obj ++ [] := (List.append_nil _).symm
  obtain ⟨hg, root', hset⟩ := hm.refines.good.insertJsonMember R hobj' hvalue' hkids hm.notMem hmemb
  rw [Set.insert_idem] at hg
  have hi := insertJsonMember_inside R h' h.fresh (lastOr (.head obj) ((S'.kids obj).map .entry)) obj
  refine ⟨hm.refines.inside hi hg, hm.keeps_append hi.fresh hi.block fun b hb => hi.value_of_ne hb, root', ?_⟩
  rw [hset, update_self]

theorem Made.appendElement (hr : Refines h S (Insert.insert a opened)) (hm : Made h h' S S' (Insert.insert a opened) .element)
    (harr : h.block a ≠ none) {size : ℤ} (hvalue : h.value a = .array size) :
    Refines { h' with cells := h'.cells.addTail (.entry h.fresh) (.head a) }
        { S' with kids := update S'.kids a (S'.kids a ++ [h.fresh]) } (Insert.insert a opened) ∧
      Keeps h { h' with cells := h'.cells.addTail (.entry h.fresh) (.head a) } S
        { S' with kids := update S'.kids a (S'.kids a ++ [h.fresh]) } a ∧
      h'.value a = .array size := by
  have hlt := hr.good.lt_fresh harr
  have harr' : h'.block a ≠ none := by rwa [hm.keeps.block a hlt]
  have hvalue' : h'.value a = .array size := by rw [hm.keeps.value a hlt (Nat.ne_of_lt hlt), hvalue]
  have helem : h'.block h.fresh ≠ none ∧ h'.block h.fresh ≠ some .value := by rw [hm.isBlock]; decide
  have hg := hm.refines.good.addElement harr' hvalue' hm.notMem helem
  rw [Set.insert_idem] at hg
  exact ⟨⟨hg, hm.refines.kind, hm.refines.name, hm.refines.fresh⟩, hm.keeps_append rfl rfl fun _ _ => rfl, hvalue'⟩

theorem Refines.set (hr : Refines h S opened) {v : Payload D} (hg : Good h' S.kids opened) (hblock : h'.block = h.block)
    (hname : h'.name = h.name) (hfresh : h'.fresh = h.fresh) (hvalue : h'.value = update h.value val v) :
    Refines h' (S.setKind val v.kind) opened ∧ Keeps h h' S (S.setKind val v.kind) val :=
  ⟨⟨hg, (kinds_update hvalue).trans (by rw [hr.kind]; rfl), hname.trans hr.name, hfresh.trans hr.fresh⟩, Nat.le_of_eq hfresh.symm, fun _ _ => by rw [hblock],
    fun b _ hne => by rw [hvalue, update_of_ne hne], fun _ _ _ => rfl, fun _ _ hx => .inl hx⟩

theorem Refines.close (hr : Refines h S (Insert.insert val opened)) {f : ℤ → ℤ}
    (hsize : ∀ size ∈ (h.value val).size?, f size = (S.kids val).length) :
    Refines (h.setSize val f) S opened ∧ Keeps h (h.setSize val f) S S val := by
  have hi := setSize_inside h val f
  exact ⟨hr.inside hi (hr.good.setSize hsize), Nat.le_of_eq hi.fresh.symm, fun _ _ => by rw [hi.block],
    fun b _ hne => hi.value_of_ne hne, fun _ _ _ => rfl, fun _ _ hx => .inl hx⟩

theorem Refines.opening (hr : Refines h S opened) (val : ℕ) : Refines h S (Insert.insert val opened) :=
  ⟨{ hr.good with holds := fun a ha => (hr.good.holds a ha).mono (Set.mem_insert_of_mem val) }, hr.kind, hr.name, hr.fresh⟩

theorem Refines.begin (hr : Refines h S opened) (block : Block) (name : ℕ → List UInt8)
    (hname : ∀ x, x ≠ h.fresh → name x = h.name x) :
    Refines { (h.malloc block).2 with name } { S.malloc with name } opened ∧ (h.malloc block).2.block h.fresh = some block ∧
      Keeps h { (h.malloc block).2 with name } S { S.malloc with name } h.fresh := by
  have hg := hr.good.malloc block
  have hnamed : Good { (h.malloc block).2 with name } S.kids opened := by
    refine { hg with holds := fun a ha => (hg.holds a ha).congr rfl (fun _ _ => ⟨rfl, rfl⟩) fun x hx => hname x ?_ }
    rintro rfl
    exact hr.good.fresh_notMem a hx
  have hkind : (h.malloc block).2.kinds = S.malloc.kind := by
    rw [@kinds_update _ h _ h.fresh .null rfl, hr.kind, hr.fresh]
    rfl
  refine ⟨⟨hnamed, hkind, rfl, congrArg (· + 1) hr.fresh⟩, update_self .., Nat.le_succ _, fun b hb => ?_, fun b _ hne => ?_,
    fun _ _ _ => rfl, fun _ _ hx => .inl hx⟩
  · exact update_of_ne (Nat.ne_of_lt hb) _ _
  · exact update_of_ne hne _ _

theorem Refines.malloc (hr : Refines h S opened) (block : Block) :
    Refines (h.malloc block).2 S.malloc opened ∧ (h.malloc block).2.block h.fresh = some block ∧
      Keeps h (h.malloc block).2 S S.malloc h.fresh := by
  have hb := hr.begin block h.name fun _ _ => rfl
  have hname : { S.malloc with name := h.name } = S.malloc := by rw [hr.name]; rfl
  rwa [hname] at hb

mutual

theorem load_spec (v : JsonValue D) (opened : Set ℕ) (h : Heap D) (S : Lists D) (val : ℕ) (hr : Refines h S opened)
    (hval : h.block val ≠ none) (hnone : S.kids val = []) :
    Refines (h.load R v val) (S.load v val) opened ∧ Keeps h (h.load R v val) S (S.load v val) val :=
  match v with
  | .string s => hr.set (v := .string s) (hr.good.setPlain trivial hnone) rfl rfl rfl rfl
  | .number n => hr.set (v := .number n) (hr.good.setPlain trivial hnone) rfl rfl rfl rfl
  | .true => hr.set (v := .true) (hr.good.setPlain trivial hnone) rfl rfl rfl rfl
  | .false => hr.set (v := .false) (hr.good.setPlain trivial hnone) rfl rfl rfl rfl
  | .null => hr.set (v := .null) (hr.good.setPlain trivial hnone) rfl rfl rfl rfl
  | .object members _ => by
    obtain ⟨hr₁, hk₁⟩ := hr.set (v := .object .nil 0) (hr.good.initList hnone (.inr rfl)) rfl rfl rfl rfl
    obtain ⟨hr₂, hk₂, hcnt⟩ := loadMembers_spec members opened _ _ val 0 .nil 0 (hr₁.opening val) hval (update_self ..)
      (congrArg (fun l => (List.length l : ℤ)) hnone).symm
    obtain ⟨hr₃, hk₃⟩ := hr₂.close fun _ _ => hcnt
    exact ⟨hr₃, hk₁.trans (hk₂.trans hk₃)⟩
  | .array elements _ => by
    obtain ⟨hr₁, hk₁⟩ := hr.set (v := .array 0) (hr.good.initList hnone (.inl rfl)) rfl rfl rfl rfl
    obtain ⟨hr₂, hk₂, hcnt⟩ := loadElements_spec elements opened _ _ val 0 0 (hr₁.opening val) hval (update_self ..)
      (congrArg (fun l => (List.length l : ℤ)) hnone).symm
    obtain ⟨hr₃, hk₃⟩ := hr₂.close fun _ _ => hcnt
    exact ⟨hr₃, hk₁.trans (hk₂.trans hk₃)⟩

theorem loadMembers_spec (members : List (List UInt8 × JsonValue D)) (opened : Set ℕ) (h : Heap D) (S : Lists D) (obj : ℕ) (cnt : ℤ)
    (root : RbTree ℕ) (size : ℤ) (hr : Refines h S (Insert.insert obj opened)) (hobj : h.block obj ≠ none)
    (hvalue : h.value obj = .object root size) (hcnt : cnt = (S.kids obj).length) :
    Refines (h.loadMembers R members obj cnt).2 (S.loadMembers members obj) (Insert.insert obj opened) ∧
      Keeps h (h.loadMembers R members obj cnt).2 S (S.loadMembers members obj) obj ∧
      (h.loadMembers R members obj cnt).1 = ((S.loadMembers members obj).kids obj).length :=
  match members with
  | [] => ⟨hr, ⟨Nat.le_refl _, fun _ _ => rfl, fun _ _ _ => rfl, fun _ _ _ => rfl, fun _ _ hx => .inl hx⟩, hcnt⟩
  | (name, val) :: members => by
    obtain ⟨_, kids, _, _⟩ := S
    obtain ⟨hg, rfl, rfl, rfl⟩ := hr
    have hr : Refines h ⟨h.kinds, kids, h.name, h.fresh⟩ (Insert.insert obj opened) := ⟨hg, rfl, rfl, rfl⟩
    obtain ⟨hr₁, hblock, hk₁⟩ := hr.begin .member (update h.name h.fresh name) fun x hx => update_of_ne hx _ _
    obtain ⟨hr₂, hk₂⟩ := load_spec val (Insert.insert obj opened) _ _ h.fresh hr₁ (by rw [hblock]; decide) hr.good.kids_fresh
    have hm := hr.made hk₁ rfl rfl hblock hr₂ hk₂
    obtain ⟨hr₃, hk₃, root', hvalue'⟩ := hm.appendMember R hr hobj hvalue
    have hlt := hr.good.lt_fresh hobj
    obtain ⟨hr₄, hk₄, hcnt'⟩ := loadMembers_spec members opened _ _ obj (cnt + 1) root' size hr₃ (by rwa [hk₃.block obj hlt]) hvalue' (by
      dsimp only
      rw [update_self, List.length_append, hm.keeps.kids obj hlt (Nat.ne_of_lt hlt), hcnt]
      rfl)
    exact ⟨hr₄, hk₃.trans hk₄, hcnt'⟩

theorem loadElements_spec (elements : List (JsonValue D)) (opened : Set ℕ) (h : Heap D) (S : Lists D) (arr : ℕ) (cnt : ℤ)
    (size : ℤ) (hr : Refines h S (Insert.insert arr opened)) (harr : h.block arr ≠ none)
    (hvalue : h.value arr = .array size) (hcnt : cnt = (S.kids arr).length) :
    Refines (h.loadElements R elements arr cnt).2 (S.loadElements elements arr) (Insert.insert arr opened) ∧
      Keeps h (h.loadElements R elements arr cnt).2 S (S.loadElements elements arr) arr ∧
      (h.loadElements R elements arr cnt).1 = ((S.loadElements elements arr).kids arr).length :=
  match elements with
  | [] => ⟨hr, ⟨Nat.le_refl _, fun _ _ => rfl, fun _ _ _ => rfl, fun _ _ _ => rfl, fun _ _ hx => .inl hx⟩, hcnt⟩
  | val :: elements => by
    obtain ⟨_, kids, _, _⟩ := S
    obtain ⟨hg, rfl, rfl, rfl⟩ := hr
    have hr : Refines h ⟨h.kinds, kids, h.name, h.fresh⟩ (Insert.insert arr opened) := ⟨hg, rfl, rfl, rfl⟩
    obtain ⟨hr₁, hblock, hk₁⟩ := hr.malloc .element
    obtain ⟨hr₂, hk₂⟩ := load_spec val (Insert.insert arr opened) _ _ h.fresh hr₁ (by rw [hblock]; decide) hr.good.kids_fresh
    have hm := hr.made hk₁ rfl rfl hblock hr₂ hk₂
    obtain ⟨hr₃, hk₃, hvalue'⟩ := hm.appendElement hr harr hvalue
    have hlt := hr.good.lt_fresh harr
    obtain ⟨hr₄, hk₄, hcnt'⟩ := loadElements_spec elements opened _ _ arr (cnt + 1) size hr₃ (by rwa [hk₃.block arr hlt]) hvalue' (by
      dsimp only
      rw [update_self, List.length_append, hm.keeps.kids arr hlt (Nat.ne_of_lt hlt), hcnt]
      rfl)
    exact ⟨hr₄, hk₃.trans hk₄, hcnt'⟩

end

/-! ## Operations -/

theorem Good.size {kids : ℕ → List ℕ} (hg : Good h kids ∅) (ha : h.block a ≠ none) {root : RbTree ℕ} {size : ℤ}
    (hv : h.value a = .object root size) : size = (kids a).length := by
  have hh := hg.holds a ha
  unfold Holds at hh
  rw [hv] at hh
  exact hh.2.2.2.resolve_left (Set.notMem_empty a)

theorem isObject_iff : h.isObject a = true ↔ h.block a ≠ none ∧ ∃ root size, h.value a = .object root size := by
  unfold isObject
  cases h.value a <;> simp [Option.isSome_iff_ne_none]

theorem takes_move {dest : Option ℕ} (h : Heap D) : h.takes dest (.move src) = true ↔ h.block src = some .value ∧ dest ≠ some src :=
  decide_eq_true_iff

theorem Refines.takes (hr : Refines h S opened) {dest : Option ℕ} {arg : Arg D} (htakes : h.takes dest arg = true) :
    ∀ src, arg = .move src → h.block src = some .value ∧ src < h.fresh := by
  rintro src rfl
  have hblock := ((takes_move h).mp htakes).1
  exact ⟨hblock, hr.good.lt_fresh fun heq => nomatch hblock.symm.trans heq⟩

theorem setJsonValue_kinds (h : Heap D) (arg : Arg D) (val : ℕ) :
    (h.setJsonValue arg val).kinds = update h.kinds val (arg.kind h.kinds) := by
  cases arg with
  | move src =>
    refine kinds_update ?_
    change (h.moveJsonValue src val).value = update h.value val (h.value src)
    unfold moveJsonValue
    cases hv : h.value src <;> rfl
  | string str => exact kinds_update (v := .string (cString str)) rfl
  | number n => exact kinds_update (v := .number n) rfl
  | object => exact kinds_update (v := .object .nil 0) rfl
  | array => exact kinds_update (v := .array 0) rfl
  | «true» => exact kinds_update (v := .true) rfl
  | «false» => exact kinds_update (v := .false) rfl
  | null => exact kinds_update (v := .null) rfl

theorem Refines.setArg (hr : Refines h S ∅) (hval : h.block val ≠ none) (hnone : S.kids val = []) {arg : Arg D}
    (harg : ∀ src, arg = .move src → h.block src = some .value ∧ src ≠ val) :
    Refines (h.setJsonValue arg val) (S.set arg val) ∅ := by
  obtain ⟨hg, hname, hfresh, -⟩ := hr.good.setJsonValue hval hnone harg
  refine ⟨hg, ?_, hname.trans hr.name, hfresh.trans hr.fresh⟩
  rw [setJsonValue_kinds, hr.kind]
  rfl

theorem Refines.malloc_arg (hr : Refines h S ∅) {dest : Option ℕ} {arg : Arg D} (htakes : h.takes dest arg = true) (block : Block) :
    ∀ src, arg = .move src → (h.malloc block).2.block src = some .value ∧ src ≠ h.fresh := fun src hsrc => by
  obtain ⟨hvalue, hlt⟩ := hr.takes htakes src hsrc
  exact ⟨(update_of_ne (Nat.ne_of_lt hlt) _ _).trans hvalue, Nat.ne_of_lt hlt⟩

theorem malloc_live (h : Heap D) (block : Block) : (h.malloc block).2.block h.fresh ≠ none := by
  rw [show (h.malloc block).2.block h.fresh = some block from update_self ..]
  exact Option.some_ne_none block

theorem create_spec (hr : Refines h S ∅) {arg : Arg D} (htakes : h.takes none arg = true) :
    Refines (h.jsonValueCreate arg).2 (S.create arg) ∅ := by
  obtain ⟨hr₁, -⟩ := hr.malloc .value
  rw [Lists.create, ← hr.fresh]
  exact hr₁.setArg (malloc_live h .value) hr.good.kids_fresh (hr.malloc_arg htakes .value)

variable {kids : ℕ → List ℕ}

theorem Refines.move (hr : Refines h S ∅) (hsrc : h.block src ≠ none) (hdest : h.block dest ≠ none) (hne : src ≠ dest)
    (hnone : S.kids dest = []) (hroot : ∀ a, src ∉ S.kids a) :
    Refines ((h.moveJsonValue src dest).free src)
      { S with kids := moved S.kids src dest, kind := update S.kind dest (S.kind src) } ∅ := by
  obtain ⟨hvalue, hname, -, hfresh, -⟩ := moveJsonValue_spec hr.good hsrc hne
  refine ⟨hr.good.move hsrc hdest hne hnone hroot (Set.notMem_empty src), ?_, hname.trans hr.name, hfresh.trans hr.fresh⟩
  rw [← hr.kind]
  exact kinds_update hvalue

theorem Good.length_le (hg : Good h kids opened) (a : ℕ) : (kids a).length ≤ h.fresh := by
  have hsub : kids a ⊆ List.range h.fresh := fun x hx => List.mem_range.mpr (hg.kid_lt hx)
  have hle := (List.subperm_of_subset (hg.nodup a) hsub).length_le
  rwa [List.length_range] at hle

theorem Good.entries (hg : Good h kids opened) (hring : Ring h.cells (.head a) ((kids a).map .entry)) : h.entries a = kids a := by
  rw [Heap.entries, hring.walk (by rw [List.length_map]; exact hg.length_le a), List.filterMap_map]
  exact List.filterMap_some

theorem Good.entries_object (hg : Good h kids opened) (hobj : h.isObject obj = true) : h.entries obj = kids obj := by
  obtain ⟨hlive, root, size, hvalue⟩ := isObject_iff.mp hobj
  exact hg.entries (hg.ring hlive hvalue)

end Heap
end Yjc.Json
