import Multistage.Proofs.Buffer.ViewSteps
import Multistage.Proofs.Predication.Lanes

/-!
# Building a view anew

A view that is in a block is built anew right before itself: the new one has its kind, its location,
its attributes and its offsets, and reads another buffer. This fails only for a view that is in no
block, and then it changes nothing.
-/

namespace Multistage

open BuildM Build

namespace Graph

theorem size_ops_inserted (g : Graph) (o : Op) (vals : List (Option ValueId))
    (types : List (Option Ty)) (b : BlockId) (k : Nat) :
    (g.inserted o vals types b k).ops.size = g.ops.size + 1 := by
  rw [inserted, place, size_ops_modifyOp]
  exact size_ops_install g o vals types

/-- A new operation at the position of `x`, with `attrs` put on it, is `PutsBefore` `x`. -/
theorem Insertable.putsBefore {g : Graph} {o : Op} {vals : List (Option ValueId)} {b : BlockId}
    {x : OpId} (h : g.Insertable o vals b ((g.block b).ops.idxOf x))
    (hb : (g.op x).block = some b) (types : List (Option Ty)) (attrs : AttrDict) :
    g.PutsBefore ((g.inserted o vals types b ((g.block b).ops.idxOf x)).modifyOp g.nextOp
      fun q => { q with attrs }) x g.nextOp where
  within := ((Retains.inserted h types x).within).trans (within_modifyOp _ _ _)
  only i hi := by
    rw [HasOp, size_ops_modifyOp, size_ops_inserted] at hi
    by_cases hlt : i.index < g.ops.size
    · exact Or.inl hlt
    · refine Or.inr ?_
      cases i
      exact congrArg OpId.mk (Nat.eq_of_lt_succ_of_not_lt hi hlt)
  op i hi := by
    rw [op_modifyOp, if_neg fun hc => hi.ne_nextOp hc.1.symm,
      op_inserted_of_ne _ _ _ _ _ _ hi.ne_nextOp]
  block c := by
    rw [block_modifyOp, hb]
    by_cases hc : c = b
    · subst hc
      rw [if_pos rfl, inserted, block_place, block_install, blocks_install,
        if_pos ⟨rfl, h.block_there⟩]
    · rw [if_neg fun heq => hc (Option.some.inj heq).symm, block_inserted_of_ne _ _ _ _ _ _ hc]
  source v hv := source_inserted g o vals types b ((g.block b).ops.idxOf x) hv
  typeOf v hv := typeOf_inserted_of_hasValue g o vals types b ((g.block b).ops.idxOf x) hv
  slot s hs := slot_install_of_hasSlot g o vals types hs
  fresh_slot s hs u hu := by
    rcases slot_inserted_cases g o vals types b ((g.block b).ops.idxOf x) hu with
      ⟨hold, -⟩ | ⟨-, hmem, -⟩
    · exact absurd hold hs
    · rw [op_modifyOp]
      split
      · show s ∈ ((g.inserted o vals types b _).op g.nextOp).operands
        rw [op_inserted_self]
        exact hmem
      · rw [op_inserted_self]
        exact hmem

end Graph

namespace Buffer

variable {c₀ c : Context} {old x : OpId} {val w : ValueId} {ty t : MemDescTy}

/-! ## What a view is built from -/

/-- A `memDescTrans` has no offsets. -/
theorem Replacing.offsets_of_trans (h : Replacing c₀ old val ty)
    (hname : (c₀.graph.op x).name = Kinds.memDescTrans) : c₀.graph.offsets x = [] := by
  have hdeclared : (c₀.graph.op x).declared = [Seg.src] := by
    rw [Op.declared, h.kind_of_trans hname]
    rfl
  -- a transposed view has one segment, and that is the one of its source
  have hnames : (c₀.graph.op x).segments.map (·.1) = [Seg.src] := by
    rw [(h.sound.tiles x (by rw [hdeclared]; decide)).1, hdeclared]
  obtain ⟨⟨name, n⟩, hsegments, hname⟩ := List.map_eq_singleton_iff.mp hnames
  have hnone : (c₀.graph.op x).segment? Seg.offsets = none := by
    rw [Op.segment?, hsegments, Op.locate, if_neg (by rw [show name = Seg.src from hname]; decide)]
    rfl
  rw [Graph.offsets, Graph.segment?, Op.segmentSlots?, hnone]
  rfl

/-- With this specification and the attributes of `x` a view for `x` is built on the value `w`. -/
structure Suits (c₀ c : Context) (x : OpId) (w : ValueId) (t : MemDescTy) (spec : OpSpec) :
    Prop where
  there : c.graph.HasSpec spec
  fits : Fits c spec
  results : spec.results = [some (.memDesc t)]
  operands : c.operandsOf spec = (w :: c₀.graph.offsets x).map some
  row : { spec.row (c.catalog.find? spec.name) with attrs := (c₀.graph.op x).attrs } =
    { c₀.graph.op x with
      operands := [], segments := c₀.graph.viewSegments x, results := [], regions := []
      block := none, erased := false }

/-- What `Suits` is built to a view that is `Rebuilt`: it has the place, the row and the type that
it should have. -/
theorem Suits.rebuilt {spec : OpSpec} (hspec : Suits c₀ c x w t spec) (hsound : c.Sound)
    (hwithin : c₀.graph.Within c.graph) {b : BlockId}
    (hat : c.At b ((c.graph.block b).ops.idxOf x)) (hb : (c.graph.op x).block = some b)
    (hrow : c.graph.op x = c₀.graph.op x) :
    let g' := (c.insertion spec b ((c.graph.block b).ops.idxOf x)).modifyOp c.graph.nextOp
      fun q => { q with attrs := (c₀.graph.op x).attrs }
    c.graph.PutsBefore g' x c.graph.nextOp ∧
      Rebuilt c₀.graph g' x c.graph.nextOp w ⟨c.graph.values.size⟩ ∧
      g'.typeOf ⟨c.graph.values.size⟩ = some (.memDesc t) := by
  intro g'
  have hins := insertable hsound spec hspec.there hat
  have hthere : (c.insertion spec b ((c.graph.block b).ops.idxOf x)).HasOp c.graph.nextOp := by
    rw [Graph.HasOp, Context.insertion, Graph.size_ops_inserted]
    exact Nat.lt_succ_self _
  -- the row is that of the old view but for what is new: slots, segments, result and regions
  have hop : g'.op c.graph.nextOp =
      { c₀.graph.op x with
        operands := Graph.slotsFrom c.graph.slots.size (c.operandsOf spec).length
        segments := c₀.graph.viewSegments x
        results := [⟨c.graph.values.size⟩], regions := [], erased := false } := by
    rw [Graph.op_modifyOp, if_pos ⟨rfl, hthere⟩, Context.insertion, Graph.op_inserted_self,
      hspec.results]
    show { ({ spec.row (c.catalog.find? spec.name) with attrs := (c₀.graph.op x).attrs } : Op) with
      operands := Graph.slotsFrom c.graph.slots.size (c.operandsOf spec).length
      results := [⟨c.graph.values.size⟩], block := some b } = _
    rw [hspec.row, ← hb, hrow]
  refine ⟨hins.putsBefore hb spec.results _, ⟨?_, ?_, ⟨_, hop⟩, ?_, ?_⟩, ?_⟩
  · exact fun hold => (hwithin.hasOp hold).ne_nextOp rfl
  · exact fun hold => Nat.lt_irrefl _ (hwithin.hasValue hold)
  · rw [← hspec.operands, ← Graph.operands_inserted_self c.graph
      (spec.row (c.catalog.find? spec.name)) (c.operandsOf spec) spec.results b
      ((c.graph.block b).ops.idxOf x)]
    unfold Graph.operands
    rw [hop, Graph.op_inserted_self]
    rfl
  · intro s hs hold
    rw [hop] at hs
    exact absurd (hwithin.hasSlot hold) (Nat.not_lt.mpr (Graph.mem_slotsFrom.mp hs).1)
  · have hfirst : spec.results[0]? = some (some (.memDesc t)) := by rw [hspec.results]; rfl
    exact Graph.typeOf_inserted_new c.graph (spec.row (c.catalog.find? spec.name))
      (c.operandsOf spec) spec.results b ((c.graph.block b).ops.idxOf x) hfirst

/-- The `memDescSubview` that is built for a view `Suits` it. -/
theorem suits_subview (h : Replacing c₀ old val ty) (hsound : c.Sound)
    (hname : (c₀.graph.op x).name = Kinds.memDescSubview) {offs : List (Option ValueId)}
    (hoffs : c₀.graph.segment? x Seg.offsets = some offs) (hw : c.graph.HasValue w)
    (hthere : ∀ v ∈ offs, c.graph.HasOptValue v) :
    Suits c₀ c x w t
      { name := Kinds.memDescSubview, loc := (c₀.graph.op x).loc
        segments := [[some w], offs], results := [some (.memDesc t)] } := by
  -- the catalog has the built-in kinds, whatever else was registered
  have hkind : c.catalog.find? Kinds.memDescSubview =
      some { name := Kinds.memDescSubview, segments := [Seg.src, Seg.offsets] } :=
    hsound.catalog _ _ (by decide)
  have hoffsets : c₀.graph.offsets x = offs.filterMap id := by
    rw [Graph.offsets, hoffs]
    rfl
  refine ⟨⟨nofun, fun vals hvals => ?_⟩, ?_, rfl, ?_, ?_⟩
  · rcases List.mem_pair.mp hvals with rfl | rfl
    · intro v hv
      rw [List.mem_singleton.mp hv]
      exact hw.opt
    · exact hthere
  · rw [Fits, hkind]
    exact Nat.le_refl _
  · rw [Context.operandsOf, hkind, hoffsets]
    show ([[some w], offs].flatMap (·.filterMap id)).map some = _
    rw [List.flatMap_cons, List.flatMap_singleton]
    rfl
  · rw [hkind, Graph.viewSegments, if_pos hname, hoffsets]
    dsimp only
    rw [h.kind_of_subview hname, hname]
    rfl

/-- The `memDescTrans` that is built for a view `Suits` it. -/
theorem suits_trans (h : Replacing c₀ old val ty) (hsound : c.Sound)
    (hname : (c₀.graph.op x).name = Kinds.memDescTrans) (hw : c.graph.HasValue w)
    (attrs : AttrDict) :
    Suits c₀ c x w t
      { name := Kinds.memDescTrans, loc := (c₀.graph.op x).loc
        segments := [[some w]], results := [some (.memDesc t)], attrs } := by
  have hkind : c.catalog.find? Kinds.memDescTrans =
      some { name := Kinds.memDescTrans, segments := [Seg.src] } :=
    hsound.catalog _ _ (by decide)
  refine ⟨⟨nofun, fun vals hvals => ?_⟩, ?_, rfl, ?_, ?_⟩
  · rw [List.mem_singleton.mp hvals]
    intro v hv
    rw [List.mem_singleton.mp hv]
    exact hw.opt
  · rw [Fits, hkind]
    exact Nat.le_refl _
  · rw [Context.operandsOf, hkind, h.offsets_of_trans hname]
    rfl
  · rw [hkind, Graph.viewSegments, if_neg (by rw [hname]; decide)]
    dsimp only
    rw [h.kind_of_trans hname, hname]
    rfl

/-! ## Building it -/

/-- `createValue` gives a view without a location of its own the one that the cursor has. -/
theorem gives_createValue_view (hsound : c.Sound) {b : BlockId} {k : Nat} (hat : c.At b k)
    (hcursor : c.cursor.loc = (c₀.graph.op x).loc) {spec : OpSpec} (hloc : spec.loc = {})
    (hspec : Suits c₀ c x w t { spec with loc := (c₀.graph.op x).loc }) :
    (createValue spec).Gives c fun v c' => v = ⟨c.graph.values.size⟩ ∧
      ∃ spec, Suits c₀ c x w t spec ∧ c' = Created c spec b k := by
  have hresults : spec.results ≠ [] := by
    rw [show spec.results = _ from hspec.results]
    exact List.cons_ne_nil _ _
  have hthere : c.graph.HasSpec spec := hspec.there
  have hfits : Fits c spec := hspec.fits
  refine (gives_createValue hsound hthere hfits hresults hat).imp fun v c' _ hc => ?_
  obtain ⟨rfl, loc, hat, rfl⟩ := hc
  rw [hat hloc, hcursor]
  exact ⟨rfl, _, hspec, rfl⟩

theorem gives_segment {i : OpId} {name : String} {vals : List (Option ValueId)}
    (hvals : c.graph.segment? i name = some vals) :
    (segment i name).Gives c fun vals' c' => vals' = vals ∧ c' = c := by
  refine gives_graph.bind fun g c' _ hc => ?_
  obtain ⟨rfl, rfl⟩ := hc
  exact gives_present hvals

section

variable {st : Stage} (h : Replacing c₀ old val ty) (hp : Progress c₀.graph old val ty st c.graph)

include h hp

/-- The segments of a view `x` that is not gone are what they were. -/
theorem Progress.segment?_eq (hview : c₀.graph.ViewOf old x) (hgone : st.gone x = false)
    (name : String) : c.graph.segment? x name = c₀.graph.segment? x name := by
  unfold Graph.segment?
  rw [hp.op_of_not_gone hview.hasOp hgone]
  refine Option.bind_congr fun slots hslots => congrArg some (List.map_congr_left fun s hs => ?_)
  have hmem := Op.mem_operands_of_segmentSlots? hslots s hs
  obtain ⟨hthere, howner, -⟩ := h.sound.graph.numbered.of_mem hmem
  -- operands of a view that is still there were not redirected
  rw [hp.held s hthere, Stage.held, howner, hgone, if_neg fun hc => Bool.false_ne_true hc.1,
    if_pos hview.isView]

variable (hsound : c.Sound) {p : OpId} (hfeeds : c₀.graph.Feeds p x)
  (hw : st.value p = some w) (hgone : st.gone x = false) {b : BlockId} {k : Nat} (hat : c.At b k)
  (hcursor : c.cursor.loc = (c₀.graph.op x).loc) {rest : ValueId → BuildM ValueId}
  {Q : ValueId → Context → Prop}
  (hrest : ∀ t spec, c₀.graph.Rebuilds old ty x t → Suits c₀ c x w t spec →
    c.Advances (Created c spec b k) →
    (rest ⟨c.graph.values.size⟩).Gives (Created c spec b k) Q)

include hsound hfeeds hw hgone hat hcursor hrest

/-- A `memDescSubview` is built for `x`, with `rest` to do after that. -/
theorem gives_subview (hname : (c₀.graph.op x).name = Kinds.memDescSubview) :
    Gives (do
      let oldTy ← Ops.bufferTy (← present (c.graph.op x).results.head?)
      let srcTy ← Ops.bufferTy (← present (some w))
      let newTy := { oldTy with isMutable := srcTy.isMutable, allocShape := srcTy.allocShape }
      rest (← Ops.memDescSubview newTy (some w) (← segment x Seg.offsets))) c Q := by
  have hview : c₀.graph.ViewOf old x := .tail' (hp.viewed_of_value hw) hfeeds
  obtain ⟨src, hsrc, htype⟩ := hp.typed h hw
  obtain ⟨r, t, hresults, ht⟩ := h.tree.result x hview
  have hold : c.graph.typeOf r = some (.memDesc t) := by
    rw [hp.typeOf r (Graph.hasValue_of_typeOf ht)]
    exact ht
  obtain ⟨cut⟩ := h.cut hview.isView
  have hoffs : c₀.graph.segment? x Seg.offsets =
      some ((cut.around Seg.offsets).map fun s => (c₀.graph.slot s).value) := by
    rw [Graph.segment?, cut.segmentSlots?_other (by decide)]
    rfl
  -- the new type is the old one but for what the source decides
  have hrebuilds : c₀.graph.Rebuilds old ty x
      { t with isMutable := src.isMutable, allocShape := src.allocShape } := by
    refine .view hsrc hfeeds ?_
    rw [Graph.viewTy?, if_pos hname, hresults]
    show Option.map _ ((c₀.graph.typeOf r).bind _) = _
    rw [ht]
    rfl
  have hfirst : (c.graph.op x).results.head? = some r := by
    rw [hp.results hview.hasOp, hresults]
    rfl
  -- each call of the function is gone through in turn; none of them can fail
  refine (gives_present hfirst).bind fun r' c₁ _ hc => ?_
  obtain ⟨rfl, rfl⟩ := hc
  refine (gives_bufferTy hold).bind fun u c₂ _ hc => ?_
  obtain ⟨rfl, rfl⟩ := hc
  refine (gives_present rfl).bind fun w' c₁ _ hc => ?_
  obtain ⟨rfl, rfl⟩ := hc
  refine (gives_bufferTy htype).bind fun u' c₂ _ hc => ?_
  obtain ⟨rfl, rfl⟩ := hc
  refine (gives_segment ((hp.segment?_eq h hview hgone _).trans hoffs)).bind fun offs c₁ _ hc => ?_
  obtain ⟨rfl, rfl⟩ := hc
  refine (gives_createValue_view hsound hat hcursor rfl (suits_subview h hsound hname hoffs
    (Graph.hasValue_of_typeOf htype) fun v hv => ?_)).bind fun v c' hadv hc => ?_
  · obtain ⟨s, -, rfl⟩ := List.mem_map.mp hv
    exact fun u hu => hp.within.hasValue (h.sound.graph.uses.held s u hu)
  · obtain ⟨rfl, spec, hspec, rfl⟩ := hc
    exact hrest _ spec hrebuilds hspec hadv

/-- A `memDescTrans` is built for `x`, with `rest` to do after that. -/
theorem gives_trans (hname : (c₀.graph.op x).name = Kinds.memDescTrans) :
    Gives (do rest (← Ops.memDescTrans (← present (some w)) (Ops.transOrder c.graph x))) c Q := by
  have hviewed := hp.viewed_of_value hw
  obtain ⟨src, hsrc, htype⟩ := hp.typed h hw
  obtain ⟨t, ht⟩ := (h.tree.permutable p x src hsrc hfeeds hname).transposed
  have horder : Ops.transOrder c.graph x = Ops.transOrder c₀.graph x := by
    rw [Ops.transOrder, hp.op_of_not_gone hfeeds.hasOp hgone]
    rfl
  have hrebuilds : c₀.graph.Rebuilds old ty x t := by
    refine .view hsrc hfeeds ?_
    rw [Graph.viewTy?, if_neg (by rw [hname]; decide), ht]
    rfl
  refine (gives_present rfl).bind fun w' c₁ _ hc => ?_
  obtain ⟨rfl, rfl⟩ := hc
  have hbuilt : (Ops.memDescTrans w' (Ops.transOrder c₁.graph x)).Gives c₁ fun v c' =>
      v = ⟨c₁.graph.values.size⟩ ∧ ∃ spec, Suits c₀ c₁ x w' t spec ∧ c' = Created c₁ spec b k := by
    refine (gives_bufferTy htype).bind fun u c₂ _ hc => ?_
    obtain ⟨rfl, rfl⟩ := hc
    rw [horder, ht]
    exact gives_createValue_view hsound hat hcursor rfl
      (suits_trans h hsound hname (Graph.hasValue_of_typeOf htype) _)
  refine hbuilt.bind fun v c' hadv hc => ?_
  obtain ⟨rfl, spec, hspec, rfl⟩ := hc
  exact hrest t spec hrebuilds hspec hadv

end

/-- The attributes `attrs` are put on what was built. -/
theorem gives_describe (hsound : c.Sound) {spec : OpSpec} (hspec : Suits c₀ c x w t spec)
    {b : BlockId} {k : Nat} (hadv : c.Advances (Created c spec b k)) (attrs : AttrDict) :
    Gives (do
      setAttrs (← present ((← graph).definingOp ⟨c.graph.values.size⟩)) attrs
      return (⟨c.graph.values.size⟩ : ValueId)) (Created c spec b k)
      fun v c' => v = ⟨c.graph.values.size⟩ ∧
        c'.graph = (c.insertion spec b k).modifyOp c.graph.nextOp fun q => { q with attrs } := by
  have hgraph := graph_created c spec b k
  have hresult : (⟨c.graph.values.size⟩ : ValueId) ∈
      ((Created c spec b k).graph.op c.graph.nextOp).results := by
    rw [hgraph, Context.insertion, Graph.op_inserted_self, hspec.results]
    exact List.mem_singleton_self _
  -- the new value is the result of the new operation, which is how the operation is found again
  obtain ⟨-, n, hsource⟩ := (hsound.advances hadv).graph.owned.mem_results_iff.mp hresult
  refine gives_graph.bind fun g c₁ _ hc => ?_
  obtain ⟨rfl, rfl⟩ := hc
  have hdefining : (Created c spec b k).graph.definingOp ⟨c.graph.values.size⟩ =
      some c.graph.nextOp := by
    rw [Graph.definingOp, hsource]
  refine (gives_present hdefining).bind fun i c₁ _ hc => ?_
  obtain ⟨rfl, rfl⟩ := hc
  refine (gives_modifyGraph (.single (.describe _ _ fun o => ⟨attrs, o.loc, rfl⟩))).bind
    fun _ c₁ _ hc => ?_
  subst hc
  refine .pure ⟨rfl, ?_⟩
  rw [← hgraph]

section

variable {st : Stage} (h : Replacing c₀ old val ty) (hp : Progress c₀.graph old val ty st c.graph)
  (hsound : c.Sound) {p : OpId} (hfeeds : c₀.graph.Feeds p x) (hw : st.value p = some w)
  (hview : st.view x = none)

include h hp hsound hfeeds hw hview

/-- At the location of `x` and right before it, the new view is built. -/
theorem gives_view (hbeside : Beside c x) (hcursor : c.cursor.loc = (c₀.graph.op x).loc) :
    Gives (do
      let new ←
        if (c.graph.op x).name = Kinds.memDescSubview then do
          let oldTy ← Ops.bufferTy (← present (c.graph.op x).results.head?)
          let srcTy ← Ops.bufferTy (← present (some w))
          let newTy := { oldTy with isMutable := srcTy.isMutable, allocShape := srcTy.allocShape }
          Ops.memDescSubview newTy (some w) (← segment x Seg.offsets)
        else do
          Ops.memDescTrans (← present (some w)) (Ops.transOrder c.graph x)
      setAttrs (← present ((← graph).definingOp new)) (c.graph.op x).attrs
      return new) c
      fun v c' => ∃ y, Progress c₀.graph old val ty (st.rebuild x y v) c'.graph := by
  have hviewed := hp.viewed_of_value hw
  obtain ⟨-, -, hgone⟩ := hp.untouched (h.tree.ne_of_viewOf (.tail' hviewed hfeeds)) hview
  have hrow := hp.op_of_not_gone hfeeds.hasOp hgone
  obtain ⟨b, k, hat⟩ := hbeside.exists_at
  have hb : (c.graph.op x).block = some b := hbeside.block.symm.trans hat.1
  obtain rfl : (c.graph.block b).ops.idxOf x = k := by
    have hk := hat.2
    rw [hbeside.before] at hk
    rw [List.idxOf_eq_getD_idxOf?, show (c.graph.block b).ops.idxOf? x = some k from hk]
    rfl
  -- what is done after building is the same for both kinds of views
  have hrest : ∀ t spec, c₀.graph.Rebuilds old ty x t → Suits c₀ c x w t spec →
      c.Advances (Created c spec b ((c.graph.block b).ops.idxOf x)) →
      Gives (do
        setAttrs (← present ((← graph).definingOp ⟨c.graph.values.size⟩)) (c.graph.op x).attrs
        return (⟨c.graph.values.size⟩ : ValueId))
        (Created c spec b ((c.graph.block b).ops.idxOf x))
        fun v c' => ∃ y, Progress c₀.graph old val ty (st.rebuild x y v) c'.graph := by
    intro t spec ht hspec hadv
    refine (gives_describe hsound hspec hadv _).imp fun v c₁ _ hc => ?_
    obtain ⟨rfl, hgraph⟩ := hc
    obtain ⟨hputs, hrebuilt, htype⟩ := hspec.rebuilt hsound hp.within hat hb hrow
    refine ⟨c.graph.nextOp, ?_⟩
    rw [hgraph, hrow]
    exact hp.rebuild h hviewed hfeeds hw hview hputs hrebuilt ht htype hsound.graph
  dsimp only
  split
  · next hname =>
    rw [hrow] at hname
    exact gives_subview h hp hsound hfeeds hw hgone hat hcursor hrest hname
  · next hname =>
    rw [hrow] at hname
    have htrans := hfeeds.1
    rw [Ops.isView, Bool.or_eq_true, beq_iff_eq, beq_iff_eq] at htrans
    exact gives_trans h hp hsound hfeeds hw hgone hat hcursor hrest (htrans.resolve_left hname)

/-- A view of `p` that has not been dealt with is built anew on what the readers of `p` are to read,
if it is in a block. -/
theorem meets_rebuildView :
    (rebuildView x (some w)).Meets c
      (fun v c' => ∃ y, Progress c₀.graph old val ty (st.rebuild x y v) c'.graph)
      fun _ c' => (c₀.graph.op x).block = none ∧ c'.graph = c.graph := by
  have hviewed := hp.viewed_of_value hw
  obtain ⟨-, -, hgone⟩ := hp.untouched (h.tree.ne_of_viewOf (.tail' hviewed hfeeds)) hview
  have hrow := hp.op_of_not_gone hfeeds.hasOp hgone
  -- cursor and location are put back in the end, which the graph does not see
  refine (meets_keepingPoint hsound
    (P := fun v c' => ∃ y, Progress c₀.graph old val ty (st.rebuild x y v) c'.graph)
    (R := fun _ c' => (c₀.graph.op x).block = none ∧ c'.graph = c.graph) ?_).imp
    (fun v c' _ hc => ?_) fun _ c' _ hc => ?_
  · refine ((meets_moveBefore hsound x).imp (fun _ _ _ hc => hc) fun _ c' _ hc => ?_).bind
      fun _ c₁ hadv hc => ?_
    · rw [← hrow, hc.2]
      exact ⟨hc.1, rfl⟩
    obtain ⟨b, hb, hc₁⟩ := hc
    have hbeside : Beside c₁ x := by
      refine ⟨hsound.advances hadv, ?_, ?_, ?_⟩ <;> rw [hc₁]
      · exact hb.symm
      · exact Option.isSome_iff_exists.mpr ⟨b, hb⟩
    have hgraph : c₁.graph = c.graph := by rw [hc₁]
    refine (gives_graph.meets _).bind fun g c₂ _ hc => ?_
    obtain ⟨rfl, rfl⟩ := hc
    have hbeside' := hbeside.withLoc (c₂.graph.op x).loc
    refine ((meets_withLoc hbeside.sound (gives_view h (hgraph ▸ hp) hbeside'.sound hfeeds hw hview
      hbeside' ?_)).imp (fun v c' _ hc => ?_) fun _ c' _ hc => ?_)
    · show (c₂.graph.op x).loc = _
      rw [hgraph, hrow]
    · obtain ⟨d, hd, rfl⟩ := hc
      exact hd
    · obtain ⟨d, hd, -⟩ := hc
      exact hd.elim
  · obtain ⟨d, hd, rfl⟩ := hc
    exact hd
  · obtain ⟨d, hd, rfl⟩ := hc
    exact hd

end

end Buffer

end Multistage
