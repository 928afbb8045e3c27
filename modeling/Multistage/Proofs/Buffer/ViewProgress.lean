import Multistage.Proofs.Buffer.ViewTree

/-!
# How far a buffer has been replaced

While the views below an operation are built anew on another buffer, the graph is at every moment
determined by the graph at the start and by which views have been built, whose readers have been
redirected and which views are gone (`Stage`). `Progress` says how: every block lists what it did,
with the new views right before the old ones and without those that are gone, and every slot holds
what it did, unless its reader has been redirected or is gone.
-/

namespace Multistage

open Relation

/-! ## Lists with something next to an entry -/

/-- Where `f` and `f'` differ at `x` only, they spread a list to the same, but for that entry. -/
theorem flatMap_split {α : Type} {l : List α} {f f' : α → List α} {x : α} (hnodup : l.Nodup)
    (hx : x ∈ l) (hother : ∀ z ∈ l, z ≠ x → x ∉ f z ∧ f' z = f z) :
    ∃ before after, l.flatMap f = before ++ (f x ++ after) ∧
      l.flatMap f' = before ++ (f' x ++ after) ∧ x ∉ before := by
  obtain ⟨before, after, rfl⟩ := List.append_of_mem hx
  rw [List.nodup_append, List.nodup_cons] at hnodup
  obtain ⟨-, ⟨hafter, -⟩, hbefore⟩ := hnodup
  have hfirst : ∀ z ∈ before, x ∉ f z ∧ f' z = f z := fun z hz =>
    hother z (List.mem_append_left _ hz) (hbefore z hz x List.mem_cons_self)
  have hrest : ∀ z ∈ after, f' z = f z := by
    intro z hz
    refine (hother z (List.mem_append_right _ (List.mem_cons_of_mem _ hz)) ?_).2
    rintro rfl
    exact hafter hz
  refine ⟨before.flatMap f, after.flatMap f, ?_, ?_, fun hmem => ?_⟩
  · rw [List.flatMap_append, List.flatMap_cons]
  · rw [List.flatMap_append, List.flatMap_cons, List.flatMap_congr hrest,
      List.flatMap_congr fun z hz => (hfirst z hz).2]
  · obtain ⟨z, hz, hxz⟩ := List.mem_flatMap.mp hmem
    exact (hfirst z hz).1 hxz

theorem insertIdx_flatMap {α : Type} [DecidableEq α] {l : List α} {f f' : α → List α} {x y : α}
    (hnodup : l.Nodup) (hx : x ∈ l) (hfx : f x = [x]) (hfx' : f' x = [y, x])
    (hother : ∀ z ∈ l, z ≠ x → x ∉ f z ∧ f' z = f z) :
    (l.flatMap f).insertIdx ((l.flatMap f).idxOf x) y = l.flatMap f' := by
  obtain ⟨before, after, hf, hf', hout⟩ := flatMap_split hnodup hx hother
  rw [hf, hf', hfx, hfx', List.idxOf_append_of_notMem hout, List.singleton_append,
    List.idxOf_cons_self, Nat.add_zero, insertIdx_eq_append (by simp), List.take_left,
    List.drop_left]
  rfl

theorem erase_flatMap {α : Type} [DecidableEq α] {l : List α} {f f' : α → List α} {x y : α}
    (hnodup : l.Nodup) (hx : x ∈ l) (hxy : y ≠ x) (hfx : f x = [y, x]) (hfx' : f' x = [y])
    (hother : ∀ z ∈ l, z ≠ x → x ∉ f z ∧ f' z = f z) :
    (l.flatMap f).erase x = l.flatMap f' := by
  obtain ⟨before, after, hf, hf', hout⟩ := flatMap_split hnodup hx hother
  rw [hf, hf', hfx, hfx', List.erase_append_right _ hout, List.cons_append,
    List.erase_cons_tail (by simpa using hxy), List.cons_append, List.erase_cons_head]
  rfl

namespace Graph

/-- The offsets of the view `x`; those that are missing are left out. -/
def offsets (g : Graph) (x : OpId) : List ValueId :=
  ((g.segment? x Seg.offsets).getD []).filterMap id

/-- The segments of what is built for the view `x`. -/
def viewSegments (g : Graph) (x : OpId) : List (String × Nat) :=
  if (g.op x).name = Kinds.memDescSubview then [(Seg.src, 1), (Seg.offsets, (g.offsets x).length)]
  else [(Seg.src, 1)]

end Graph

namespace Buffer

/-! ## Stages -/

/-- How far the views below an operation have been dealt with by `replaceUses`. -/
structure Stage where
  /-- What the readers of an operation are to read instead. -/
  value : OpId → Option ValueId
  /-- The view that was built for a view. -/
  view : OpId → Option OpId
  /-- The readers that are no views have been redirected. -/
  settled : OpId → Bool
  /-- The view has been erased. -/
  gone : OpId → Bool

namespace Stage

/-- The stage at which nothing has been done: the readers of `old` are to read `val`. -/
def start (old : OpId) (val : ValueId) : Stage where
  value o := if o = old then some val else none
  view _ := none
  settled _ := false
  gone _ := false

/-- View `x` has been built anew as `y`, and its readers are to read `v`. -/
def rebuild (st : Stage) (x y : OpId) (v : ValueId) : Stage :=
  { st with
    value := Function.update st.value x (some v)
    view := Function.update st.view x (some y) }

/-- The readers of `o` that are no views have been redirected. -/
def settle (st : Stage) (o : OpId) : Stage :=
  { st with settled := Function.update st.settled o true }

/-- View `x` has been erased. -/
def erase (st : Stage) (x : OpId) : Stage :=
  { st with gone := Function.update st.gone x true }

theorem value_start (old : OpId) (val : ValueId) (o : OpId) :
    (start old val).value o = if o = old then some val else none := rfl

theorem value_rebuild (st : Stage) (x y : OpId) (v : ValueId) (o : OpId) :
    (st.rebuild x y v).value o = if o = x then some v else st.value o :=
  Function.update_apply _ _ _ _

theorem view_rebuild (st : Stage) (x y : OpId) (v : ValueId) (o : OpId) :
    (st.rebuild x y v).view o = if o = x then some y else st.view o :=
  Function.update_apply _ _ _ _

theorem settled_settle (st : Stage) (o p : OpId) :
    (st.settle o).settled p = if p = o then true else st.settled p :=
  Function.update_apply _ _ _ _

theorem gone_erase (st : Stage) (x z : OpId) :
    (st.erase x).gone z = if z = x then true else st.gone z :=
  Function.update_apply _ _ _ _

/-- What a block lists in the place of `x`: the view that was built for it, and `x` itself unless it
is gone. -/
def places (st : Stage) (x : OpId) : List OpId :=
  (st.view x).toList ++ if st.gone x then [] else [x]

/-- What a reader that is no view reads in the place of the value `r`. -/
def redirected (st : Stage) (g : Graph) (r : ValueId) : ValueId :=
  match (g.value r).source with
  | .result o _ => if st.settled o then (st.value o).getD r else r
  | .argument _ _ => r

/-- What slot `s` of `g` holds at the stage `st`. -/
def held (st : Stage) (g : Graph) (s : SlotId) : Option ValueId :=
  if st.gone (g.slot s).owner ∧ s ∈ (g.op (g.slot s).owner).operands then none
  else if Ops.isView g (g.slot s).owner then (g.slot s).value
  else (g.slot s).value.map (st.redirected g)

end Stage

/-! ## The graph at a stage -/

/-- An operation is a view `y` that was built for `x` on the value `w`, with the result `v`. -/
structure Rebuilt (g₀ g : Graph) (x y : OpId) (w v : ValueId) : Prop where
  fresh : ¬ g₀.HasOp y
  fresh_value : ¬ g₀.HasValue v
  row : ∃ slots, g.op y =
    { g₀.op x with
      operands := slots, segments := g₀.viewSegments x, results := [v], regions := []
      erased := false }
  reads : g.operands y = (w :: g₀.offsets x).map some
  fresh_slots : ∀ s ∈ (g.op y).operands, ¬ g₀.HasSlot s

/-- `Rebuilt` looks at the row of the new view `y` and its own slots only. -/
theorem Rebuilt.congr {g₀ g g' : Graph} {x y : OpId} {w v : ValueId} (h : Rebuilt g₀ g x y w v)
    (hop : g'.op y = g.op y) (hslot : ∀ s ∈ (g.op y).operands, ¬ g₀.HasSlot s →
      (g'.slot s).value = (g.slot s).value) : Rebuilt g₀ g' x y w v where
  fresh := h.fresh
  fresh_value := h.fresh_value
  row := by
    rw [hop]
    exact h.row
  reads := by
    rw [← h.reads]
    unfold Graph.operands
    rw [hop]
    exact List.map_congr_left fun s hs => hslot s hs (h.fresh_slots s hs)
  fresh_slots := by
    rw [hop]
    exact h.fresh_slots

/-- The graph `g` has come from `g₀`, as far as the stage says. -/
structure Progress (g₀ : Graph) (old : OpId) (val : ValueId) (ty : MemDescTy) (st : Stage)
    (g : Graph) : Prop where
  within : g₀.Within g
  op : ∀ i, g₀.HasOp i → g.op i =
    if st.gone i then { g₀.op i with block := none, erased := true } else g₀.op i
  block : ∀ b, g.block b = { g₀.block b with ops := (g₀.block b).ops.flatMap st.places }
  source : ∀ v, g₀.HasValue v → (g.value v).source = (g₀.value v).source
  typeOf : ∀ v, g₀.HasValue v → g.typeOf v = g₀.typeOf v
  owner : ∀ s, g₀.HasSlot s → (g.slot s).owner = (g₀.slot s).owner
  held : ∀ s, g₀.HasSlot s → (g.slot s).value = st.held g₀ s
  fresh_op : ∀ i, g.HasOp i → ¬ g₀.HasOp i → ∃ x, st.view x = some i
  fresh_slot : ∀ s, ¬ g₀.HasSlot s → ∀ w, (g.slot s).value = some w →
    ∃ x y, st.view x = some y ∧ s ∈ (g.op y).operands
  views : ∀ x y, st.view x = some y → ∃ p w v t, g₀.Viewed old p ∧ g₀.Feeds p x ∧
    st.value p = some w ∧ st.value x = some v ∧ Rebuilt g₀ g x y w v ∧
    g₀.Rebuilds old ty x t ∧ g.typeOf v = some (.memDesc t)
  value_old : st.value old = some val
  value_view : ∀ o w, st.value o = some w → o = old ∨ ∃ y, st.view o = some y
  settled_value : ∀ o, st.settled o = true → ∃ w, st.value o = some w
  gone_settled : ∀ x, st.gone x = true → st.settled x = true ∧ ∃ y, st.view x = some y
  gone_below : ∀ x z, st.gone x = true → g₀.Feeds x z → st.gone z = true

/-- `Stage.start` is the stage of the graph itself. -/
theorem Progress.start (g₀ : Graph) (old : OpId) (val : ValueId) (ty : MemDescTy) :
    Progress g₀ old val ty (.start old val) g₀ where
  within := .refl _
  op _ _ := rfl
  block b := by
    have hplaces : (Stage.start old val).places = fun x => [x] := rfl
    rw [hplaces, List.flatMap_singleton']
  source _ _ := rfl
  typeOf _ _ := rfl
  owner _ _ := rfl
  held s _ := by
    have hredirected : (Stage.start old val).redirected g₀ = id := by
      funext r
      unfold Stage.redirected
      split
      · rfl
      · rfl
    rw [Stage.held, if_neg fun hc => Bool.false_ne_true hc.1, hredirected, Option.map_id]
    exact (ite_self _).symm
  fresh_op i hi hno := absurd hi hno
  fresh_slot s hs w hw := absurd (Graph.hasSlot_of_value_eq_some hw) hs
  views _ _ hy := nomatch hy
  value_old := by rw [Stage.value_start, if_pos rfl]
  value_view o w hw := by
    by_cases ho : o = old
    · exact Or.inl ho
    · rw [Stage.value_start, if_neg ho] at hw
      cases hw
  settled_value _ hs := nomatch hs
  gone_settled _ hx := nomatch hx
  gone_below _ _ hx _ := nomatch hx

/-- What `replaceUses` needs at the start: the views below `old` can be built anew on `val`, which
is none of their results, and they have nothing inside. -/
structure Replacing (c : Context) (old : OpId) (val : ValueId) (ty : MemDescTy) : Prop where
  sound : c.Sound
  owners : c.graph.SlotsOwned
  there : c.graph.HasOp old
  tree : c.graph.ViewTree old ty
  typed : c.graph.typeOf val = some (.memDesc ty)
  apart : ∀ p, c.graph.Viewed old p → val ∉ (c.graph.op p).results
  leaf : ∀ x, c.graph.ViewOf old x → c.graph.children x = []

namespace Replacing

variable {c₀ : Context} {old : OpId} {val : ValueId} {ty : MemDescTy}
  (h : Replacing c₀ old val ty)

include h

theorem kind_of_subview {x : OpId} (hname : (c₀.graph.op x).name = Kinds.memDescSubview) :
    (c₀.graph.op x).kind =
      some { name := Kinds.memDescSubview, segments := [Seg.src, Seg.offsets] } :=
  h.sound.kinds.builtin x _ (by rw [hname]; decide)

theorem kind_of_trans {x : OpId} (hname : (c₀.graph.op x).name = Kinds.memDescTrans) :
    (c₀.graph.op x).kind = some { name := Kinds.memDescTrans, segments := [Seg.src] } :=
  h.sound.kinds.builtin x _ (by rw [hname]; decide)

/-- The operands of a view are cut at `Seg.src`. -/
theorem cut {x : OpId} (hx : Ops.isView c₀.graph x = true) :
    Nonempty ((c₀.graph.op x).Cut Seg.src) := by
  rw [Ops.isView, Bool.or_eq_true, beq_iff_eq, beq_iff_eq] at hx
  have hdeclared : (c₀.graph.op x).declared = [Seg.src, Seg.offsets] ∨
      (c₀.graph.op x).declared = [Seg.src] := by
    rcases hx with hname | hname
    · rw [Op.declared, h.kind_of_subview hname]
      exact Or.inl rfl
    · rw [Op.declared, h.kind_of_trans hname]
      exact Or.inr rfl
  rcases hdeclared with hdeclared | hdeclared
  · refine Op.Tiled.cut (h.sound.tiles x ?_) ?_ ?_ <;> rw [hdeclared] <;> decide
  · refine Op.Tiled.cut (h.sound.tiles x ?_) ?_ ?_ <;> rw [hdeclared] <;> decide

/-- An offset of a view is held by an operand outside `Seg.src`. -/
theorem mem_offsets {x : OpId} (hx : Ops.isView c₀.graph x = true) {u : ValueId}
    (hu : u ∈ c₀.graph.offsets x) : ∃ s ∈ (c₀.graph.op x).operands,
      (c₀.graph.slot s).value = some u ∧
        ∀ rest, (c₀.graph.op x).segmentSlots? Seg.src ≠ some (s :: rest) := by
  obtain ⟨cut⟩ := h.cut hx
  have hslots : (c₀.graph.op x).segmentSlots? Seg.offsets = some (cut.around Seg.offsets) :=
    cut.segmentSlots?_other (by decide)
  have hmem : some u ∈ (cut.around Seg.offsets).map fun s => (c₀.graph.slot s).value := by
    unfold Graph.offsets Graph.segment? at hu
    rw [hslots] at hu
    obtain ⟨a, ha, hau⟩ := List.mem_filterMap.mp hu
    rw [← show a = some u from hau]
    exact ha
  obtain ⟨s, hs, hheld⟩ := List.mem_map.mp hmem
  have houtside := cut.mem_of_mem_around hs
  refine ⟨s, cut.mem_operands_of_outside houtside, hheld, fun rest hsrc => ?_⟩
  rw [cut.segmentSlots?_self] at hsrc
  refine Graph.not_mem_part_of_outside h.sound.graph.numbered cut houtside ?_
  rw [Option.some.inj hsrc]
  exact List.mem_cons_self

/-- No offset of a view is a result of `old` or of a view below it. -/
theorem offsets_apart {x p : OpId} (hx : c₀.graph.ViewOf old x) (hp : c₀.graph.Viewed old p)
    {u : ValueId} (hu : u ∈ c₀.graph.offsets x) : u ∉ (c₀.graph.op p).results := by
  intro hr
  obtain ⟨s, hs, hheld, houtside⟩ := h.mem_offsets hx.isView hu
  have howner := (h.sound.graph.numbered.of_mem hs).2.1
  -- as a reader of such a value the slot is the first one of the source
  obtain ⟨rest, hsrc⟩ := h.tree.source p hp u hr s hheld (by rw [howner]; exact hx.isView)
  rw [howner] at hsrc
  exact houtside rest hsrc

/-- A slot of a view that holds a result of `p` is an operand of the view. -/
theorem mem_operands {p : OpId} (hp : c₀.graph.Viewed old p) {r : ValueId}
    (hr : r ∈ (c₀.graph.op p).results) {s : SlotId} (hs : (c₀.graph.slot s).value = some r)
    (hview : Ops.isView c₀.graph (c₀.graph.slot s).owner = true) :
    s ∈ (c₀.graph.op (c₀.graph.slot s).owner).operands := by
  obtain ⟨rest, hsrc⟩ := h.tree.source p hp r hr s hs hview
  exact Op.mem_operands_of_segmentSlots? hsrc s List.mem_cons_self

end Replacing

/-! ## What a stage says -/

theorem Stage.redirected_of_mem {st : Stage} {g₀ : Graph} (h : g₀.Owned) {o : OpId} {r : ValueId}
    (hr : r ∈ (g₀.op o).results) :
    st.redirected g₀ r = if st.settled o then (st.value o).getD r else r := by
  obtain ⟨-, n, hsource⟩ := h.mem_results_iff.mp hr
  rw [redirected, hsource]

/-- `redirected` leaves a value of which nothing is settled. -/
theorem Stage.redirected_eq {st : Stage} {g₀ : Graph} (h : g₀.Owned) {r : ValueId}
    (hthere : g₀.HasValue r) (hno : ∀ o, r ∈ (g₀.op o).results → st.settled o = false) :
    st.redirected g₀ r = r := by
  cases hsource : (g₀.value r).source with
  | argument b n => rw [redirected, hsource]
  | result o n =>
    have hr := h.mem_results_iff.mpr ⟨hthere, n, hsource⟩
    rw [redirected_of_mem h hr, hno o hr]
    rfl

namespace Progress

variable {c₀ : Context} {old : OpId} {val : ValueId} {ty : MemDescTy} {st : Stage} {g : Graph}
  (hp : Progress c₀.graph old val ty st g)

include hp

theorem viewOf_of_view {x y : OpId} (hy : st.view x = some y) : c₀.graph.ViewOf old x := by
  obtain ⟨p, _, _, _, hviewed, hfeeds, -⟩ := hp.views x y hy
  exact .tail' hviewed hfeeds

theorem viewed_of_value {o : OpId} {w : ValueId} (hw : st.value o = some w) :
    c₀.graph.Viewed old o := by
  obtain rfl | ⟨y, hy⟩ := hp.value_view o w hw
  · exact .refl
  · exact (hp.viewOf_of_view hy).to_reflTransGen

theorem viewOf_of_gone {x : OpId} (hx : st.gone x = true) : c₀.graph.ViewOf old x := by
  obtain ⟨-, y, hy⟩ := hp.gone_settled x hx
  exact hp.viewOf_of_view hy

theorem op_of_not_gone {i : OpId} (hi : c₀.graph.HasOp i) (hgone : st.gone i = false) :
    g.op i = c₀.graph.op i := by
  rw [hp.op i hi, hgone]
  rfl

/-- Operations that are no views below `old` keep their rows. -/
theorem op_of_not_viewOf {i : OpId} (hi : c₀.graph.HasOp i) (hview : ¬ c₀.graph.ViewOf old i) :
    g.op i = c₀.graph.op i := by
  refine hp.op_of_not_gone hi ?_
  rw [← Bool.not_eq_true]
  exact fun hgone => hview (hp.viewOf_of_gone hgone)

theorem name {i : OpId} (hi : c₀.graph.HasOp i) : (g.op i).name = (c₀.graph.op i).name := by
  rw [hp.op i hi]
  split <;> rfl

theorem results {i : OpId} (hi : c₀.graph.HasOp i) :
    (g.op i).results = (c₀.graph.op i).results := by
  rw [hp.op i hi]
  split <;> rfl

/-- A view `x` that has not been built anew has not been dealt with in any way. -/
theorem untouched {x : OpId} (hx : x ≠ old) (hview : st.view x = none) :
    st.value x = none ∧ st.settled x = false ∧ st.gone x = false := by
  -- what is gone is settled, what is settled has a value, and only what was built anew has one
  have hvalue : st.value x = none := by
    cases hw : st.value x with
    | none => rfl
    | some w =>
      obtain rfl | ⟨y, hy⟩ := hp.value_view x w hw
      · exact absurd rfl hx
      · rw [hview] at hy
        cases hy
  have hsettled : st.settled x = false := by
    rw [← Bool.not_eq_true]
    intro hs
    obtain ⟨w, hw⟩ := hp.settled_value x hs
    rw [hvalue] at hw
    cases hw
  refine ⟨hvalue, hsettled, ?_⟩
  rw [← Bool.not_eq_true]
  intro hgone
  rw [(hp.gone_settled x hgone).1] at hsettled
  cases hsettled

/-- The value `w` that is read instead has the type that `Rebuilds` says. -/
theorem typed (h : Replacing c₀ old val ty) {o : OpId} {w : ValueId} (hw : st.value o = some w) :
    ∃ t, c₀.graph.Rebuilds old ty o t ∧ g.typeOf w = some (.memDesc t) := by
  obtain rfl | ⟨y, hy⟩ := hp.value_view o w hw
  · rw [hp.value_old] at hw
    cases hw
    refine ⟨ty, .base, ?_⟩
    rw [hp.typeOf _ (Graph.hasValue_of_typeOf h.typed)]
    exact h.typed
  · obtain ⟨_, _, v, t, -, -, -, hv, -, ht, htype⟩ := hp.views o y hy
    rw [hv] at hw
    cases hw
    exact ⟨t, ht, htype⟩

/-- The value `w` that is read instead is no result of `old` or of an old view. -/
theorem value_apart (h : Replacing c₀ old val ty) {o p : OpId} {w : ValueId}
    (hw : st.value o = some w) (hviewed : c₀.graph.Viewed old p) :
    w ∉ (c₀.graph.op p).results := by
  obtain rfl | ⟨y, hy⟩ := hp.value_view o w hw
  · rw [hp.value_old] at hw
    cases hw
    exact h.apart p hviewed
  · obtain ⟨_, _, v, _, -, -, -, hv, hrebuilt, -⟩ := hp.views o y hy
    rw [hv] at hw
    cases hw
    intro hmem
    exact hrebuilt.fresh_value (h.sound.graph.owned.mem_results_iff.mp hmem).1

/-- A slot holds a result `r` of `old` or of an old view if it did at the start, and its reader is a
view that is not gone, or no view and not redirected. -/
theorem held_iff (h : Replacing c₀ old val ty) {o : OpId} (ho : c₀.graph.Viewed old o)
    {r : ValueId} (hr : r ∈ (c₀.graph.op o).results) {s : SlotId} :
    (g.slot s).value = some r ↔ (c₀.graph.slot s).value = some r ∧
      if Ops.isView c₀.graph (c₀.graph.slot s).owner then st.gone (c₀.graph.slot s).owner = false
      else st.settled o = false := by
  have howned := h.sound.graph.owned
  by_cases hs : c₀.graph.HasSlot s
  · rw [hp.held s hs, Stage.held]
    by_cases hview : Ops.isView c₀.graph (c₀.graph.slot s).owner = true
    · rw [if_pos hview, if_pos hview]
      by_cases hgone : st.gone (c₀.graph.slot s).owner = true
      · rw [hgone]
        refine iff_of_false (fun hheld => ?_) fun hc => nomatch hc.2
        split at hheld
        · cases hheld
        · next hno => exact hno ⟨rfl, h.mem_operands ho hr hheld hview⟩
      · rw [if_neg fun hc => hgone hc.1]
        exact (and_iff_left (Bool.eq_false_iff.mpr hgone)).symm
    · -- what is gone is a view
      have hgone : ¬ st.gone (c₀.graph.slot s).owner = true := fun hgone =>
        hview (hp.viewOf_of_gone hgone).isView
      rw [if_neg fun hc => hgone hc.1, if_neg hview, if_neg hview]
      constructor
      · intro hheld
        obtain ⟨u, hu, hur⟩ := Option.map_eq_some_iff.mp hheld
        have hno : ∀ p, u ∈ (c₀.graph.op p).results → st.settled p = false := by
          intro p hup
          rw [← Bool.not_eq_true]
          intro hsettled
          obtain ⟨w, hw⟩ := hp.settled_value p hsettled
          rw [Stage.redirected_of_mem howned hup, hsettled, hw] at hur
          cases hur
          exact hp.value_apart h hw ho hr
        rw [Stage.redirected_eq howned (h.sound.graph.uses.held s u hu) hno] at hur
        subst hur
        exact ⟨hu, hno o hr⟩
      · rintro ⟨hheld, hsettled⟩
        rw [hheld, Option.map_some, Stage.redirected_of_mem howned hr, hsettled]
        rfl
  · -- a new slot holds an offset or what is read instead
    refine iff_of_false (fun hheld => ?_) fun hc => hs (Graph.hasSlot_of_value_eq_some hc.1)
    obtain ⟨x, y, hy, hmem⟩ := hp.fresh_slot s hs r hheld
    obtain ⟨p, w, v, t, -, -, hw, -, hrebuilt, -⟩ := hp.views x y hy
    have hreads : some r ∈ g.operands y := by
      rw [← hheld]
      exact List.mem_map_of_mem hmem
    rw [hrebuilt.reads] at hreads
    obtain ⟨u, hu, hur⟩ := List.mem_map.mp hreads
    cases hur
    rcases List.mem_cons.mp hu with rfl | hu
    · exact hp.value_apart h hw ho hr
    · exact h.offsets_apart (hp.viewOf_of_view hy) ho hu hr

end Progress

end Buffer

end Multistage
