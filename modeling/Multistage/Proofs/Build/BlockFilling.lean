import Multistage.Proofs.Build.BuilderSuccess
import Multistage.Proofs.Graph.OperandChanges
import Multistage.Proofs.Predication.Lanes

/-!
# Laying operations into a block

While the cursor stands between the front and the back of a block, what is created goes to the end
of the front. A number of operations that read only each other can be laid there like this
(`Laying`): everything that was in the graph before is as it was, use lists included, and what was
verified stays so, apart from the end of the block. What an operation that was laid looks like is
said by a `Piece`.
-/

namespace Multistage

open BuildM Build

/-! ## New operations in one block -/

namespace Graph

variable {g g' g'' : Graph} {b : BlockId}

/-- Operations have been put into block `b`. The operations, slots and blocks that were there are as
they were, but for the list of the block, and values keep their types. -/
structure Inserts (g g' : Graph) (b : BlockId) : Prop where
  within : g.Within g'
  op : ∀ i, g.HasOp i → g'.op i = g.op i
  slot : ∀ s, g.HasSlot s → g'.slot s = g.slot s
  typeOf : ∀ v, g.HasValue v → g'.typeOf v = g.typeOf v
  block : ∀ x, x ≠ b → g'.block x = g.block x
  list : ∃ ops, g'.block b = { g.block b with ops }
  sublist : (g.block b).ops.Sublist (g'.block b).ops
  blocks : g'.blocks.size = g.blocks.size
  listed : ∀ i, g'.HasOp i → g.HasOp i ∨ i ∈ (g'.block b).ops

namespace Inserts

theorem refl (g : Graph) (b : BlockId) : g.Inserts g b where
  within := .refl g
  op _ _ := rfl
  slot _ _ := rfl
  typeOf _ _ := rfl
  block _ _ := rfl
  list := ⟨_, rfl⟩
  sublist := List.Sublist.refl _
  blocks := rfl
  listed _ hi := Or.inl hi

theorem trans (h : g.Inserts g' b) (h' : g'.Inserts g'' b) : g.Inserts g'' b where
  within := h.within.trans h'.within
  op i hi := (h'.op i (h.within.hasOp hi)).trans (h.op i hi)
  slot s hs := (h'.slot s (h.within.hasSlot hs)).trans (h.slot s hs)
  typeOf v hv := (h'.typeOf v (h.within.hasValue hv)).trans (h.typeOf v hv)
  block x hx := (h'.block x hx).trans (h.block x hx)
  list := by
    obtain ⟨ops, hops⟩ := h.list
    obtain ⟨ops', hops'⟩ := h'.list
    exact ⟨ops', by rw [hops', hops]⟩
  sublist := h.sublist.trans h'.sublist
  blocks := h'.blocks.trans h.blocks
  listed i hi := by
    rcases h'.listed i hi with hold | hnew
    · rcases h.listed i hold with hfirst | hfirst
      · exact Or.inl hfirst
      · exact Or.inr (h'.sublist.subset hfirst)
    · exact Or.inr hnew

theorem home (h : g.Inserts g' b) (x : BlockId) : (g'.block x).home = (g.block x).home := by
  by_cases hx : x = b
  · subst hx
    obtain ⟨ops, hops⟩ := h.list
    rw [hops]
  · rw [h.block x hx]

theorem blockParent (h : g.Inserts g' b) (x : BlockId) : g'.blockParent x = g.blockParent x := by
  rw [Graph.blockParent, h.home, ← Graph.blockParent]

end Inserts

theorem Insertable.inserts {o : Op} {vals : List (Option ValueId)} {k : Nat}
    (h : g.Insertable o vals b k) (types : List (Option Ty)) :
    g.Inserts (g.inserted o vals types b k) b where
  within := (within_install g o vals types).trans
    ((within_modifyBlock _ _ _).trans (within_modifyOp _ _ _))
  op i hi := op_inserted_of_ne g o vals types b k hi.ne_nextOp
  slot s hs := slot_install_of_hasSlot g o vals types hs
  typeOf v hv := typeOf_inserted_of_hasValue g o vals types b k hv
  block x hx := block_inserted_of_ne g o vals types b k hx
  list := by
    refine ⟨(g.block b).ops.insertIdx k g.nextOp, ?_⟩
    have hthere : b.index < (g.install o vals types).blocks.size := by
      rw [blocks_install]
      exact h.block_there
    rw [inserted, block_place, if_pos ⟨rfl, hthere⟩, block_install]
  sublist := h.sublist_ops_inserted b
  blocks := by
    show (Array.modify _ _ _).size = _
    rw [Array.size_modify, blocks_install]
  listed i hi := by
    have hlt : i.index < g.ops.size + 1 := by
      rw [← size_ops_install g o vals types]
      exact Array.size_modify ▸ hi
    by_cases hold : g.HasOp i
    · exact Or.inl hold
    · -- the only new operation is the one that is put in
      have hnew : i = g.nextOp := by
        obtain ⟨i⟩ := i
        have hge : g.ops.size ≤ i := Nat.not_lt.mp hold
        exact congrArg OpId.mk (Nat.le_antisymm (Nat.le_of_lt_succ hlt) hge)
      subst hnew
      right
      rw [h.ops_inserted_self]
      exact (List.mem_insertIdx h.le_length).mpr (Or.inl rfl)

/-- A value that is not among `vals`, which the new operation reads, has its row, with all its uses.
-/
theorem value_inserted_of_not_mem (o : Op) {vals : List (Option ValueId)} (types : List (Option Ty))
    (b : BlockId) (k : Nat) {v : ValueId} (hv : g.HasValue v) (hout : some v ∉ vals) :
    (g.inserted o vals types b k).value v = g.value v := by
  have hrow : (g.inserted o vals types b k).value v = (g.install o vals types).value v := rfl
  rw [hrow, value_install_of_hasValue g o vals types hv, readersFrom_of_not_mem hout,
    List.append_nil]

end Graph

/-! ## What is laid -/

/-- An operation without regions, as it is to look: `reads` has the values that it reads, segment by
segment, and `gives` its result with the type, if it has one. -/
structure Piece where
  name : String
  loc : Location
  reads : List (String × List ValueId) := []
  attrs : AttrDict := {}
  gives : Option (ValueId × Ty) := none

namespace Piece

variable {p : Piece} {spec : OpSpec}

/-- All values that `p` reads. -/
def vals (p : Piece) : List ValueId := p.reads.flatMap (·.2)

/-- `spec` asks for an operation that looks like `p`. -/
structure Asked (p : Piece) (spec : OpSpec) : Prop where
  name : spec.name = p.name
  loc : spec.loc = {}
  operands : spec.operands = []
  segments : spec.segments.map (·.filterMap id) = p.reads.map (·.2)
  attrs : spec.attrs = p.attrs
  results : spec.results = p.gives.toList.map fun q => some q.2
  regions : spec.regions = 0
  kind : ∃ k, Catalog.builtin.find? p.name = some k ∧ k.segments = p.reads.map (·.1) ∧ k.regions = 0

namespace Asked

variable (h : p.Asked spec)

include h

theorem length_segments : spec.segments.length = p.reads.length := by
  have hlength := congrArg List.length h.segments
  simpa using hlength

theorem slotValues : spec.slotValues (p.reads.map (·.1)) = p.vals.map some := by
  unfold OpSpec.slotValues
  split
  · next hempty =>
    have hreads : p.reads = [] := by simpa using hempty
    rw [h.operands, Piece.vals, hreads]
    rfl
  · rw [List.flatMap_def, h.segments, ← List.flatMap_def]
    rfl

theorem segmentSizes : spec.segmentSizes (p.reads.map (·.1)) =
    p.reads.map fun r => (r.1, r.2.length) := by
  -- segment by segment, with nothing but absent values left out of a segment
  apply List.ext_getElem?
  intro n
  have hn := congrArg (fun l => l[n]?) h.segments
  simp only [List.getElem?_map] at hn
  simp only [OpSpec.segmentSizes, List.getElem?_map, List.getElem?_zipIdx, Option.map_map]
  cases hr : p.reads[n]? with
  | none => simp
  | some r =>
    rw [hr] at hn
    obtain ⟨vals, hvals, heq⟩ := Option.map_eq_some_iff.mp hn
    have hlength := congrArg List.length heq
    simpa [hvals] using hlength

theorem mem_vals {vals : List (Option ValueId)} (hvals : vals ∈ spec.segments) {w : ValueId}
    (hw : some w ∈ vals) : w ∈ p.vals := by
  have hmem : vals.filterMap id ∈ p.reads.map (·.2) :=
    h.segments ▸ List.mem_map_of_mem hvals
  obtain ⟨r, hr, heq⟩ := List.mem_map.mp hmem
  refine List.mem_flatMap.mpr ⟨r, hr, ?_⟩
  rw [heq]
  exact List.mem_filterMap.mpr ⟨some w, hw, rfl⟩

theorem hasSpec {g : Graph} (hvals : ∀ w ∈ p.vals, g.HasValue w) : g.HasSpec spec := by
  constructor
  · intro v hv
    rw [h.operands] at hv
    cases hv
  · intro vals hmem v hv w hw
    exact hvals w (h.mem_vals hmem (hw ▸ hv))

theorem fits {c : Context} (hsound : c.Sound) : Fits c spec := by
  obtain ⟨k, hk, hsegments, -⟩ := h.kind
  rw [Fits, h.name, hsound.catalog _ _ hk]
  show _ ≤ k.segments.length
  rw [hsegments, h.length_segments, List.length_map]

theorem operandsOf {c : Context} (hsound : c.Sound) : c.operandsOf spec = p.vals.map some := by
  obtain ⟨k, hk, hsegments, -⟩ := h.kind
  rw [Context.operandsOf, h.name, hsound.catalog _ _ hk]
  show spec.slotValues k.segments = _
  rw [hsegments, h.slotValues]

end Asked

end Piece

/-- An operation of block `b` looks like this. -/
structure Graph.Holds (g : Graph) (b : BlockId) (i : OpId) (p : Piece) : Prop where
  name : (g.op i).name = p.name
  loc : (g.op i).loc = p.loc
  segments : (g.op i).segments = p.reads.map fun r => (r.1, r.2.length)
  operands : g.operands i = p.vals.map some
  attrs : (g.op i).attrs = p.attrs
  results : (g.op i).results = p.gives.toList.map (·.1)
  types : ∀ q ∈ p.gives, g.typeOf q.1 = some q.2
  regions : (g.op i).regions = []
  block : (g.op i).block = some b
  live : (g.op i).erased = false

theorem Graph.Holds.hasOp {g : Graph} {b : BlockId} {i : OpId} {p : Piece} (h : g.Holds b i p) :
    g.HasOp i :=
  hasOp_of_block_eq_some h.block

/-- What `Inserts` puts into block `b` leaves an operation that looks like `p` as it is. -/
theorem Graph.Holds.inserts {g g' : Graph} {b : BlockId} {i : OpId} {p : Piece}
    (h : g.Holds b i p) (hwf : g.WellFormed) (hinserts : g.Inserts g' b) : g'.Holds b i p := by
  have hrow := hinserts.op i h.hasOp
  have hoperands : g'.operands i = g.operands i := by
    unfold Graph.operands
    rw [hrow]
    apply List.map_congr_left
    intro s hs
    rw [hinserts.slot s (hwf.numbered.of_mem hs).1]
  refine ⟨hrow ▸ h.name, hrow ▸ h.loc, hrow ▸ h.segments, hoperands.trans h.operands,
    hrow ▸ h.attrs, hrow ▸ h.results, fun q hq => ?_, hrow ▸ h.regions, hrow ▸ h.block,
    hrow ▸ h.live⟩
  rw [hinserts.typeOf q.1 (Graph.hasValue_of_typeOf (h.types q hq))]
  exact h.types q hq

/-! ## Laying -/

/-- `v` was laid between `g₀` and `g`: it is not in `g₀`, and comes from a live operation of
`front`. -/
structure Graph.Laid (g₀ g : Graph) (front : List OpId) (v : ValueId) : Prop where
  fresh : ¬ g₀.HasValue v
  comes : ∃ d ∈ front, v ∈ (g.op d).results ∧ (g.op d).erased = false

/-- Operations are being laid into block `b` of `g₀`: the cursor stands between the front and the
back, nothing that was there is read, and what was verified is, but for the end of the block. -/
structure Laying (g₀ : Graph) (root : OpId) (b : BlockId) (front back : List OpId) (c : Context) :
    Prop where
  sound : c.Sound
  inserts : g₀.Inserts c.graph b
  values : ∀ v, g₀.HasValue v → c.graph.value v = g₀.value v
  verified : c.graph.Verified root [b]
  ops : (c.graph.block b).ops = front ++ back
  block : c.cursor.block = some b
  before : c.cursor.before = back.head?

theorem Graph.Laid.mono {g₀ g : Graph} {front front' : List OpId} {v : ValueId}
    (h : g₀.Laid g front v) (hsubset : front ⊆ front') : g₀.Laid g front' v := by
  obtain ⟨d, hd, hcomes⟩ := h.comes
  exact ⟨h.fresh, d, hsubset hd, hcomes⟩

/-- What laying the operations `new` at the end of `front` leaves of `c`. -/
structure Lays (g₀ : Graph) (root : OpId) (b : BlockId) (front back : List OpId) (c : Context)
    (new : List OpId) (c' : Context) : Prop where
  laying : Laying g₀ root b (front ++ new) back c'
  inserts : c.graph.Inserts c'.graph b
  rest : ∃ g, c' = { c with graph := g }

section

variable {g₀ : Graph} {root : OpId} {b : BlockId} {front back new new' : List OpId}
  {c c' c'' : Context} {p : Piece} {spec : OpSpec} {v : ValueId}

theorem Lays.trans (h : Lays g₀ root b front back c new c')
    (h' : Lays g₀ root b (front ++ new) back c' new' c'') :
    Lays g₀ root b front back c (new ++ new') c'' where
  laying := by
    rw [← List.append_assoc]
    exact h'.laying
  inserts := h.inserts.trans h'.inserts
  rest := by
    obtain ⟨g, rfl⟩ := h.rest
    obtain ⟨g', rfl⟩ := h'.rest
    exact ⟨g', rfl⟩

theorem Lays.nil (h : Laying g₀ root b front back c) : Lays g₀ root b front back c [] c where
  laying := by
    rw [List.append_nil]
    exact h
  inserts := .refl _ _
  rest := ⟨_, rfl⟩

theorem Lays.loc (h : Lays g₀ root b front back c new c') : c'.cursor.loc = c.cursor.loc := by
  obtain ⟨g, rfl⟩ := h.rest
  rfl

theorem Graph.Laid.lays (hv : g₀.Laid c.graph front v) (h : Lays g₀ root b front back c new c') :
    g₀.Laid c'.graph (front ++ new) v := by
  obtain ⟨hfresh, d, hd, hmem, hlive⟩ := hv
  have hrow := h.inserts.op d (Graph.hasOp_of_mem_results hmem)
  exact ⟨hfresh, d, List.mem_append_left _ hd, by rw [hrow]; exact hmem, by rw [hrow]; exact hlive⟩

namespace Laying

variable (h : Laying g₀ root b front back c)

include h

/-- The cursor has its position behind `front`. -/
theorem at_front : c.At b front.length := by
  refine ⟨h.block, ?_⟩
  have hnodup := h.sound.graph.members.nodup b
  rw [h.ops] at hnodup
  rw [h.before, h.ops]
  cases back with
  | nil => simp
  | cons x rest => exact idxOf?_append_cons hnodup

/-- The location of the cursor plays no part in `Laying`. -/
theorem withLoc (loc : Location) :
    Laying g₀ root b front back { c with cursor := { c.cursor with loc } } where
  sound := h.sound.advance (.move _ h.sound.cursor)
  inserts := h.inserts
  values := h.values
  verified := h.verified
  ops := h.ops
  block := h.block
  before := h.before

theorem hasValue (hv : g₀.Laid c.graph front v) : c.graph.HasValue v := by
  obtain ⟨d, -, hmem, -⟩ := hv.comes
  exact (h.sound.graph.owned.mem_results_iff.mp hmem).1

/-- A value that was `Laid` may be read at the end of `front`. -/
theorem visibleAt (hv : g₀.Laid c.graph front v) : c.graph.VisibleAt v b front.length := by
  obtain ⟨d, hd, hmem, hlive⟩ := hv.comes
  obtain ⟨-, n, hsource⟩ := h.sound.graph.owned.mem_results_iff.mp hmem
  have hblock : (c.graph.op d).block = some b := by
    rw [h.sound.graph.members.mem_iff, h.ops]
    exact List.mem_append_left _ hd
  -- both the source and the reader are in the block, the source before the end of the front
  rw [Graph.visibleAt_of_result hsource]
  refine ⟨hlive, b, hblock, fun _ => ?_, fun hne => absurd rfl hne⟩
  rw [h.ops, List.take_left]
  exact hd

theorem hasSpec (hasked : p.Asked spec) (hreads : ∀ w ∈ p.vals, g₀.Laid c.graph front w) :
    c.graph.HasSpec spec :=
  hasked.hasSpec fun w hw => h.hasValue (hreads w hw)

/-- One more operation is laid, which reads only what was laid (`hreads`). -/
theorem lays_created (hasked : p.Asked spec) (hreads : ∀ w ∈ p.vals, g₀.Laid c.graph front w)
    (loc : Location) (hadv : c.Advances (Created c { spec with loc } b front.length)) :
    Lays g₀ root b front back c [c.graph.nextOp] (Created c { spec with loc } b front.length) := by
  have hspec := h.hasSpec hasked hreads
  have hins := insertable h.sound { spec with loc } hspec h.at_front
  have hvals : c.operandsOf { spec with loc } = p.vals.map some := hasked.operandsOf h.sound
  have hgraph := graph_created c { spec with loc } b front.length
  have hinserts : c.graph.Inserts (Created c { spec with loc } b front.length).graph b := by
    rw [hgraph]
    exact hins.inserts _
  refine ⟨⟨h.sound.advances hadv, h.inserts.trans hinserts, fun v hv => ?_, ?_, ?_, h.block,
    h.before⟩, hinserts, ⟨_, rfl⟩⟩
  · -- a value that was there is not among those that are read
    rw [hgraph, Context.insertion, hvals, ← h.values v hv]
    apply Graph.value_inserted_of_not_mem _ _ _ _ (h.inserts.within.hasValue hv)
    intro hmem
    obtain ⟨w, hw, heq⟩ := List.mem_map.mp hmem
    cases heq
    exact (hreads v hw).fresh hv
  · rw [hgraph]
    -- all that is read was laid, and may be read at the end of the front
    refine hins.verified_inserted h.verified (fun v hv => ?_) fun hb => ?_
    · rw [hvals] at hv
      obtain ⟨w, hw, rfl⟩ := List.mem_map.mp hv
      exact ⟨w, rfl, h.visibleAt (hreads w hw)⟩
    · exact absurd (List.mem_singleton.mpr rfl) hb
  · -- the new operation goes between the front and the back
    have hops : ((c.insertion { spec with loc } b front.length).block b).ops = _ :=
      hins.ops_inserted_self
    rw [hgraph, hops, insertIdx_eq_append h.at_front.le_length, h.ops, List.take_left,
      List.drop_left, List.append_assoc]
    rfl

/-- The new operation looks like `p`, for which `spec` has `Asked`. -/
theorem holds_created (hasked : p.Asked spec)
    (hgives : ∀ q ∈ p.gives, q.1 = ⟨c.graph.values.size⟩) :
    (Created c { spec with loc := p.loc } b front.length).graph.Holds b c.graph.nextOp p := by
  obtain ⟨k, hk, hsegments, hregions⟩ := hasked.kind
  have hkind : c.catalog.find? spec.name = some k := by
    rw [hasked.name]
    exact h.sound.catalog _ _ hk
  have hvals : c.operandsOf { spec with loc := p.loc } = p.vals.map some :=
    hasked.operandsOf h.sound
  rw [graph_created, Context.insertion, hvals]
  have hrow := Graph.op_inserted_self c.graph
    (OpSpec.row { spec with loc := p.loc } (c.catalog.find? spec.name)) (p.vals.map some)
    spec.results b front.length
  exact
    { name := by
        rw [hrow]
        exact hasked.name
      loc := by rw [hrow]; rfl
      segments := by
        rw [hrow]
        show spec.segmentSizes ((Option.map (·.segments) (c.catalog.find? spec.name)).getD []) = _
        rw [hkind]
        show spec.segmentSizes k.segments = _
        rw [hsegments, hasked.segmentSizes]
      operands := Graph.operands_inserted_self _ _ _ _ _ _
      attrs := by
        rw [hrow]
        exact hasked.attrs
      results := by
        rw [hrow]
        show Graph.valuesFrom _ spec.results.length = _
        rw [hasked.results]
        cases hq : p.gives with
        | none => rfl
        | some q =>
          rw [Option.toList_some, List.map_singleton, List.map_singleton, hgives q hq]
          rfl
      types := by
        intro q hq
        have hresults : spec.results[0]? = some (some q.2) := by
          rw [hasked.results, hq]
          rfl
        rw [hgives q hq]
        exact Graph.typeOf_inserted_new _ _ _ _ _ _ hresults
      regions := by
        rw [hrow]
        show List.replicate (max spec.regions
          ((Option.map (·.regions) (c.catalog.find? spec.name)).getD 0)).toNat [] = _
        rw [hkind, hasked.regions]
        show List.replicate (max 0 k.regions).toNat [] = _
        rw [hregions]
        rfl
      block := by rw [hrow]
      live := by rw [hrow]; rfl }

/-- `create` lays an operation that looks like `p`. -/
theorem gives_create (hasked : p.Asked spec) (hreads : ∀ w ∈ p.vals, g₀.Laid c.graph front w)
    (hloc : p.loc = c.cursor.loc) (hgives : p.gives = none) :
    (create spec).Gives c fun i c' =>
      Lays g₀ root b front back c [i] c' ∧ c'.graph.Holds b i p := by
  refine (Build.gives_create h.sound (h.hasSpec hasked hreads) (hasked.fits h.sound)
    h.at_front).imp fun i c' hadv hc => ?_
  obtain ⟨rfl, loc, hlocated, rfl⟩ := hc
  -- the specification names no location, so the operation gets that of the cursor
  obtain rfl : loc = p.loc := (hlocated hasked.loc).trans hloc.symm
  refine ⟨h.lays_created hasked hreads _ hadv, h.holds_created hasked fun q hq => ?_⟩
  rw [hgives] at hq
  cases hq

/-- `createValue` lays an operation, and its value can be read after it. How the operation is to
look, `p v`, is given for any value `v` that it may get. -/
theorem gives_createValue {p : ValueId → Piece} {ty : Ty} (hasked : ∀ v, (p v).Asked spec)
    (hgives : ∀ v, (p v).gives = some (v, ty))
    (hreads : ∀ v, ∀ w ∈ (p v).vals, g₀.Laid c.graph front w)
    (hloc : ∀ v, (p v).loc = c.cursor.loc) :
    (createValue spec).Gives c fun v c' => ∃ i,
      Lays g₀ root b front back c [i] c' ∧ c'.graph.Holds b i (p v) ∧
        g₀.Laid c'.graph (front ++ [i]) v := by
  -- the value is the next one, whatever it was thought to be when the piece was described
  have hfirst := hasked ⟨c.graph.values.size⟩
  have hsome : spec.results ≠ [] := by
    rw [hfirst.results, hgives]
    exact List.cons_ne_nil _ _
  refine (Build.gives_createValue h.sound (h.hasSpec hfirst (hreads _)) (hfirst.fits h.sound) hsome
    h.at_front).imp fun v c' hadv hc => ?_
  obtain ⟨rfl, loc, hlocated, rfl⟩ := hc
  obtain rfl : loc = (p ⟨c.graph.values.size⟩).loc := (hlocated hfirst.loc).trans (hloc _).symm
  have hlays := h.lays_created hfirst (hreads _) _ hadv
  have hholds := h.holds_created hfirst (by
    intro q hq
    rw [hgives] at hq
    cases hq
    rfl)
  refine ⟨c.graph.nextOp, hlays, hholds, ?_, c.graph.nextOp, ?_, ?_, hholds.live⟩
  · exact Nat.not_lt.mpr h.inserts.within.values
  · exact List.mem_append_right _ (List.mem_singleton.mpr rfl)
  · rw [hholds.results, hgives]
    exact List.mem_singleton.mpr rfl

end Laying

end

end Multistage
