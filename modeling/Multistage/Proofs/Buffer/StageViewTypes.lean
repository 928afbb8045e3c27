import Multistage.Proofs.Buffer.Bracketing
import Multistage.Proofs.Build.CreationOrder
import Multistage.Proofs.Predication.Branching

/-!
# The types of stage views

A view of one stage of a buffer gets its type from the function that creates it, and a host can ask
for the type of a stage without creating a view (`viewTy?`). The two are the same for every buffer
with at least two dimensions. A buffer with one dimension, as all barriers and scalars have it, is
the exception: its view keeps a dimension of extent 1, and the type asked for has none.
-/

namespace Multistage

open BuildM Build

/-- The values of `g` have their types in `g'`. -/
def Graph.KeepsTypes (g g' : Graph) : Prop := ∀ v, g.HasValue v → g'.typeOf v = g.typeOf v

namespace Graph.KeepsTypes

variable {g g' g'' : Graph}

theorem refl (g : Graph) : g.KeepsTypes g := fun _ _ => rfl

theorem trans (h : g.KeepsTypes g') (hwithin : g.Within g') (h' : g'.KeepsTypes g'') :
    g.KeepsTypes g'' :=
  fun v hv => (h' v (hwithin.hasValue hv)).trans (h v hv)

/-- A type that `KeepsTypes` is about stays. -/
theorem typeOf_eq (h : g.KeepsTypes g') {v : ValueId} {t : Ty} (hv : g.typeOf v = some t) :
    g'.typeOf v = some t :=
  (h v (hasValue_of_typeOf hv)).trans hv

end Graph.KeepsTypes

/-- The cursor of `c` has a position in some block. -/
def Context.Placed (c : Context) : Prop := ∃ b k, c.At b k

/-! ## Work that leaves types as they are -/

namespace BuildM

variable {α β : Type} {c : Context}

/-- Some work only makes moves. If it succeeds, the answer is as `P` says, and the values that were
there have the types that they had. -/
abbrev LeavesTypes (work : BuildM α) (c : Context) (P : α → Prop) : Prop :=
  work.Leads c fun a c' => P a ∧ c.graph.KeepsTypes c'.graph

namespace LeavesTypes

variable {P : α → Prop} {Q : β → Prop}

theorem bind {x : BuildM α} {f : α → BuildM β} (hx : x.LeavesTypes c P)
    (hf : ∀ a c', c.Advances c' → c.graph.KeepsTypes c'.graph → P a → (f a).LeavesTypes c' Q) :
    (x >>= f).LeavesTypes c Q :=
  Leads.bind hx fun a c' hadv hc => (hf a c' hadv hc.2 hc.1).imp fun _ _ _ hc' =>
    ⟨hc'.1, hc.2.trans hadv.within hc'.2⟩

theorem pure {a : α} (ha : P a) : (Pure.pure a : BuildM α).LeavesTypes c P :=
  Meets.pure ⟨ha, .refl _⟩

/-- Work that leaves the graph leaves all types. -/
theorem of_graph {x : BuildM α} (hx : x.Leads c fun _ c' => c'.graph = c.graph) :
    x.LeavesTypes c fun _ => True :=
  hx.imp fun _ _ _ hgraph => ⟨trivial, hgraph ▸ .refl _⟩

/-- Where the answer is a value `v` that was there, it has the type that it had. -/
theorem leads_typeOf {x : BuildM ValueId} {v : ValueId} (hx : x.LeavesTypes c (· = v)) {ty : Ty}
    (hv : c.graph.typeOf v = some ty) : x.Leads c fun w c' => c'.graph.typeOf w = some ty := by
  refine hx.imp fun w c' _ hc => ?_
  obtain ⟨rfl, hkept⟩ := hc
  exact hkept.typeOf_eq hv

end LeavesTypes

end BuildM

namespace Build

variable {c : Context} {spec : OpSpec}

theorem leavesTypes_create (h : c.Sound) (hspec : c.graph.HasSpec spec) :
    (create spec).LeavesTypes c fun _ => True := by
  refine (leads_create h hspec).imp fun i c' _ hc => ⟨trivial, fun v hv => ?_⟩
  obtain ⟨-, b, k, loc, -, rfl⟩ := hc
  rw [graph_created, Context.insertion]
  exact Graph.typeOf_inserted_of_hasValue _ _ _ _ _ _ hv

theorem leavesTypes_discard_create (h : c.Sound) (hspec : c.graph.HasSpec spec) :
    (discard (create spec)).LeavesTypes c fun _ => True :=
  (leavesTypes_create h hspec).bind fun _ _ _ _ _ => .pure trivial

theorem leavesTypes_moveAfter (h : c.Sound) (i : OpId) :
    (moveAfter i).LeavesTypes c fun _ => True := by
  refine .of_graph ((leads_moveAfter h i).imp fun _ c' _ hc => ?_)
  obtain ⟨b, -, rfl⟩ := hc
  rfl

theorem leavesTypes_setLoc (h : c.Sound) (loc : Location) :
    (setLoc loc).LeavesTypes c fun _ => True :=
  .of_graph ((leads_setLoc h loc).imp fun _ _ _ hc => hc ▸ rfl)

/-- The cursor keeps a position in its block when `create` puts an operation there. -/
theorem placed_created (h : c.Sound) (hspec : c.graph.HasSpec spec) {b : BlockId} {k : Nat}
    (hat : c.At b k) (loc : Location) : (Created c { spec with loc } b k).Placed := by
  obtain ⟨hblock, hk⟩ := id hat
  -- the end of a block is always a position, and an operation that the block lists stays listed
  cases hbefore : c.cursor.before with
  | none => exact ⟨b, _, hblock, by simp only [Created, hbefore]; rfl⟩
  | some i =>
    rw [hbefore] at hk
    have hold : i ∈ (c.graph.block b).ops := List.isSome_idxOf?.mp (hk ▸ rfl)
    have hmem : i ∈ ((Created c { spec with loc } b k).graph.block b).ops := by
      rw [graph_created]
      exact ((insertable h { spec with loc } hspec hat).sublist_ops_inserted b).mem hold
    obtain ⟨k', hk'⟩ := Option.isSome_iff_exists.mp (List.isSome_idxOf?.mpr hmem)
    exact ⟨b, k', hblock, by simpa only [Created, hbefore] using hk'⟩

/-- `createValue` gives a value of the type that `spec` asks for. It fails only at a cursor without
a position. -/
theorem meets_createValue_typeOf (h : c.Sound) (hspec : c.graph.HasSpec spec) (hfits : Fits c spec)
    {ty : Ty} (hresults : spec.results = [some ty]) :
    (createValue spec).Meets c (fun v c' => c'.graph.typeOf v = some ty ∧
      c.graph.KeepsTypes c'.graph ∧ c'.Placed) fun _ _ => ¬ c.Placed := by
  by_cases hplaced : c.Placed
  · obtain ⟨b, k, hat⟩ := hplaced
    have hsome : spec.results ≠ [] := by simp [hresults]
    refine ((gives_createValue h hspec hfits hsome hat).meets _).imp (fun v c' _ hc => ?_)
      fun _ _ _ hR => hR
    obtain ⟨rfl, loc, -, rfl⟩ := hc
    refine ⟨?_, ?_, placed_created h hspec hat loc⟩
    · have htype : ({ spec with loc }.results)[0]? = some (some ty) := by
        rw [hresults]
        rfl
      rw [graph_created, Context.insertion]
      exact Graph.typeOf_inserted_new _ _ _ _ _ _ htype
    · intro v hv
      rw [graph_created, Context.insertion]
      exact Graph.typeOf_inserted_of_hasValue _ _ _ _ _ _ hv
  · -- what is created is put at the position of the cursor
    refine Meets.imp (leads_createValue (leads_create h hspec)) (fun v c' _ hc => ?_)
      fun _ _ _ _ => hplaced
    obtain ⟨_, ⟨-, b, k, -, hat, -⟩, -⟩ := hc
    exact absurd ⟨b, k, hat⟩ hplaced

end Build

namespace Buffer

open Ops

variable {c : Context} {alloc : ValueId} {t : MemDescTy}

/-- `work` gives a value of type `ty`, unless the cursor of `c` has no position, and leaves the
types that there are. -/
abbrev MakesValue (work : BuildM ValueId) (c : Context) (ty : Ty) : Prop :=
  work.Meets c (fun v c' => c'.graph.typeOf v = some ty ∧ c.graph.KeepsTypes c'.graph ∧ c'.Placed)
    fun _ _ => ¬ c.Placed

/-- `MakesValue` of work in front of other work that makes a value. -/
theorem MakesValue.bind {x : BuildM ValueId} {f : ValueId → BuildM ValueId} {ty ty' : Ty}
    (hx : MakesValue x c ty) (hf : ∀ v c', c.Advances c' → c'.graph.typeOf v = some ty →
      c.graph.KeepsTypes c'.graph → MakesValue (f v) c' ty') : MakesValue (x >>= f) c ty' := by
  refine Meets.bind hx fun v c' hadv hc => ?_
  obtain ⟨hv, hkept, hplaced⟩ := hc
  exact (hf v c' hadv hv hkept).imp (fun _ _ _ hc => ⟨hc.1, hkept.trans hadv.within hc.2.1, hc.2.2⟩)
    fun _ _ _ hlost => absurd hplaced hlost

theorem makesValue_constantInt (h : c.Sound) (n : Int) (ty : Ty) :
    MakesValue (constantInt n (some ty)) c ty :=
  meets_createValue_typeOf h (hasSpec_of_refs (by simp)) (Nat.zero_le _) rfl

theorem makesValue_localAlloc (h : c.Sound) (t : MemDescTy) :
    MakesValue (localAlloc t none) c (.memDesc t) := by
  refine meets_createValue_typeOf h (hasSpec_of_refs (by simp [Graph.HasOptValue])) ?_ rfl
  have hkind : Catalog.builtin.find? Kinds.localAlloc =
      some { name := Kinds.localAlloc, segments := [Seg.src], effects := .write } := by decide
  rw [Fits, h.catalog _ _ hkind]
  exact Nat.le_refl 1

/-! ## Views -/

theorem makesValue_memDescSubview (h : c.Sound) (t : MemDescTy) {src : Option ValueId}
    (hsrc : c.graph.HasOptValue src) {offsets : List (Option ValueId)}
    (hoffsets : ∀ v ∈ offsets, c.graph.HasOptValue v) :
    MakesValue (memDescSubview t src offsets) c (.memDesc t) := by
  refine meets_createValue_typeOf h (hasSpec_of_refs (by simpa using ⟨hsrc, hoffsets⟩)) ?_ rfl
  have hkind : Catalog.builtin.find? Kinds.memDescSubview =
      some { name := Kinds.memDescSubview, segments := [Seg.src, Seg.offsets] } := by decide
  rw [Fits, h.catalog _ _ hkind]
  exact Nat.le_refl 2

/-- The type that `createSingleBufferViewAt` gives a view of one stage of a buffer of type `t`. -/
def stageTy (t : MemDescTy) : MemDescTy :=
  match t.shape with
  | _ :: d :: rest => { t with shape := d :: rest }
  | _ => { t with shape := [1] }

theorem makesValue_createSingleBufferViewAt (h : c.Sound)
    (halloc : c.graph.typeOf alloc = some (.memDesc t)) {idx : Option ValueId}
    (hidx : c.graph.HasOptValue idx) :
    MakesValue (createSingleBufferViewAt (some alloc) idx) c (.memDesc (stageTy t)) := by
  have hthere : c.graph.HasOptValue (some alloc) := (Graph.hasValue_of_typeOf halloc).opt
  refine ((gives_present rfl).meets _).bind fun v c' _ hc => ?_
  obtain ⟨rfl, rfl⟩ := hc
  refine ((gives_bufferTy halloc).meets _).bind fun u c'' _ hc => ?_
  obtain ⟨rfl, rfl⟩ := hc
  -- a buffer of one dimension is viewed with one offset, as is one without any
  have hflat : MakesValue (memDescSubview { u with shape := [1] } (some v) [idx]) c''
      (.memDesc { u with shape := [1] }) :=
    makesValue_memDescSubview h _ hthere (by simpa using hidx)
  unfold stageTy
  match hshape : u.shape with
  | [] => exact hflat
  | [_] => exact hflat
  | _ :: d :: rest =>
    refine MakesValue.bind (makesValue_constantInt h 0 Ty.i32) fun zero c₁ hadv hzero _ => ?_
    refine makesValue_memDescSubview (h.advances hadv) _ (hadv.within.hasOptValue hthere)
      fun w hw => ?_
    have hmem : w = idx ∨ w = some zero := by simpa using hw
    rcases hmem with rfl | rfl
    · exact hadv.within.hasOptValue hidx
    · exact (Graph.hasValue_of_typeOf hzero).opt

theorem makesValue_createSingleBufferView (h : c.Sound)
    (halloc : c.graph.typeOf alloc = some (.memDesc t)) (idx : Int) :
    MakesValue (createSingleBufferView (some alloc) idx) c (.memDesc (stageTy t)) :=
  (makesValue_constantInt h idx Ty.i32).bind fun _ _ hadv hv hkept =>
    makesValue_createSingleBufferViewAt (h.advances hadv) (hkept.typeOf_eq halloc)
      (Graph.hasValue_of_typeOf hv).opt

/-- `forStages` changes no types, if the operation for each stage reads its view only. -/
theorem leavesTypes_forStages (h : c.Sound) (halloc : c.graph.typeOf alloc = some (.memDesc t))
    (n : Int) {spec : ValueId → OpSpec}
    (hspec : ∀ v, (spec v).operands ++ (spec v).segments.flatten = [some v]) :
    (forStages alloc n fun view => create (spec view)).LeavesTypes c fun _ => True := by
  refine (Meets.forM (R := fun _ _ => True) (fun _ d => c.graph.KeepsTypes d.graph)
    (fun done k rest d _ hadv hkept => ?_) (.refl _)).leads.imp fun _ _ _ hkept => ⟨trivial, hkept⟩
  have hd := h.advances hadv
  refine (makesValue_createSingleBufferView hd (hkept.typeOf_eq halloc) k).leads.bind
    fun view d₁ hadv₁ hc => ?_
  have hview : d₁.graph.HasSpec (spec view) := by
    refine hasSpec_of_refs ?_
    rw [hspec]
    simpa using (Graph.hasValue_of_typeOf hc.1).opt
  refine (leavesTypes_discard_create (hd.advances hadv₁) hview).imp fun _ d₂ hadv₂ hused => ?_
  exact hkept.trans hadv.within (hc.2.1.trans hadv₁.within hused.2)

/-! ## Allocations -/

theorem leads_createScalarAlloc (h : c.Sound) (elem : Option Ty) (n : Int) :
    (createScalarAlloc elem n).Leads c fun v c' => ∃ layout,
      c'.graph.typeOf v = some (.memDesc (allocTy [n] elem layout)) := by
  refine gives_numCTAsHere.leads.bind fun ctas c' _ hc => ?_
  subst hc
  exact (makesValue_localAlloc h _).leads.imp fun v c'' _ hc => ⟨_, hc.1⟩

theorem leavesTypes_localDealloc (h : c.Sound) (halloc : c.graph.HasValue alloc) :
    (discard (localDealloc (some alloc))).LeavesTypes c fun _ => True :=
  leavesTypes_discard_create h (hasSpec_of_refs (by simpa using halloc.opt))

theorem leavesTypes_trace (level : Int) (text : String) :
    (trace level text).LeavesTypes c fun _ => True :=
  .of_graph (leads_trace level text)

theorem leads_createAlloc (h : c.Sound) (loop : OpId) (ty : TensorTy) (loc : Location)
    (layout : Option SharedLayout) (distance : Int) :
    (createAlloc loop ty loc layout distance).Leads c fun v c' =>
      c'.graph.typeOf v = some (.memDesc (allocTy (distance :: ty.shape) ty.elem layout)) := by
  refine (Predication.leads_cursorBefore h loop).bind fun here c' _ hc => ?_
  obtain ⟨rfl, hhere, -, -⟩ := hc
  have hcursor : c'.graph.HasCursor { here with loc } := hhere
  refine leads_withCursor_graph (P := fun v g => g.typeOf v = _) h hcursor fun d hd _ => ?_
  refine (makesValue_localAlloc hd _).leads.bind fun alloc d₁ hadv₁ hc => ?_
  have hd₁ := hd.advances hadv₁
  have halloc := Graph.hasValue_of_typeOf hc.1
  -- what comes after the allocation changes no types
  refine LeavesTypes.leads_typeOf ?_ hc.1
  refine (leavesTypes_moveAfter hd₁ loop).bind fun _ d₂ hadv₂ _ _ => ?_
  refine Leads.bind leads_graph fun g d₃ hadv₃ hc => ?_
  obtain ⟨rfl, rfl⟩ := hc
  have hd₂ := hd₁.advances hadv₂
  refine (leavesTypes_setLoc hd₂ _).bind fun _ d₄ hadv₄ _ _ => ?_
  have halloc' := hadv₄.within.hasValue (hadv₂.within.hasValue halloc)
  refine (leavesTypes_localDealloc (hd₂.advances hadv₄) halloc').bind fun _ _ _ _ _ => ?_
  exact (leavesTypes_trace 3 _).bind fun _ _ _ _ _ => .pure rfl

theorem leads_createBarrierAlloc (h : c.Sound) (loop : OpId) (n : Int) :
    (createBarrierAlloc loop n).Leads c fun v c' => ∃ layout,
      c'.graph.typeOf v = some (.memDesc (allocTy [n] (some Ty.i64) layout)) := by
  refine (Predication.leads_cursorBefore h loop).bind fun here c' _ hc => ?_
  obtain ⟨rfl, hhere, -, -⟩ := hc
  refine leads_withCursor_graph (P := fun v g => ∃ layout,
    g.typeOf v = some (.memDesc (allocTy [n] (some Ty.i64) layout))) h hhere fun d hd _ => ?_
  refine (leads_createScalarAlloc hd _ n).bind fun alloc d₁ hadv₁ hc => ?_
  obtain ⟨layout, htype⟩ := hc
  have hd₁ := hd.advances hadv₁
  refine Leads.imp ?_ fun _ _ _ htype => ⟨layout, htype⟩
  refine LeavesTypes.leads_typeOf ?_ htype
  refine (leavesTypes_forStages hd₁ htype n fun _ => rfl).bind fun _ d₂ hadv₂ hkept₂ _ => ?_
  have hd₂ := hd₁.advances hadv₂
  refine (leavesTypes_moveAfter hd₂ loop).bind fun _ d₃ hadv₃ hkept₃ _ => ?_
  have hd₃ := hd₂.advances hadv₃
  have htype₃ := hkept₃.typeOf_eq (hkept₂.typeOf_eq htype)
  refine (leavesTypes_forStages hd₃ htype₃ n fun _ => rfl).bind fun _ d₄ hadv₄ hkept₄ _ => ?_
  have halloc := Graph.hasValue_of_typeOf (hkept₄.typeOf_eq htype₃)
  refine (leavesTypes_localDealloc (hd₃.advances hadv₄) halloc).bind fun _ d₅ _ _ _ => ?_
  refine Leads.bind leads_graph fun g d₆ _ hc => ?_
  obtain ⟨rfl, rfl⟩ := hc
  exact (leavesTypes_trace 3 _).bind fun _ _ _ _ _ => .pure rfl

/-- `alloc` is the buffer of this shape that a call has allocated: for copies of a tensor, for
scalars, or for barriers. -/
inductive Allocates (c : Context) (alloc : ValueId) (c' : Context) : List Int → Prop
  | tensors {loop : OpId} {ty : TensorTy} {loc : Location} {layout : Option SharedLayout}
      {distance : Int} (h : createAlloc loop ty loc layout distance c = .ok alloc c') :
      Allocates c alloc c' (distance :: ty.shape)
  | scalars {elem : Option Ty} {n : Int} (h : createScalarAlloc elem n c = .ok alloc c') :
      Allocates c alloc c' [n]
  | barriers {loop : OpId} {n : Int} (h : createBarrierAlloc loop n c = .ok alloc c') :
      Allocates c alloc c' [n]

namespace Allocates

variable {c' : Context} {shape : List Int}

theorem typeOf (hsound : c.Sound) (h : Allocates c alloc c' shape) :
    c.Advances c' ∧ ∃ elem layout,
      c'.graph.typeOf alloc = some (.memDesc (allocTy shape elem layout)) := by
  cases h with
  | tensors h =>
    obtain ⟨hadv, htype⟩ := (leads_createAlloc hsound _ _ _ _ _).of_ok h
    exact ⟨hadv, _, _, htype⟩
  | scalars h =>
    obtain ⟨hadv, layout, htype⟩ := (leads_createScalarAlloc hsound _ _).of_ok h
    exact ⟨hadv, _, layout, htype⟩
  | barriers h =>
    obtain ⟨hadv, layout, htype⟩ := (leads_createBarrierAlloc hsound _ _).of_ok h
    exact ⟨hadv, _, layout, htype⟩

theorem shape_ne_nil (h : Allocates c alloc c' shape) : shape ≠ [] := by
  cases h <;> exact List.cons_ne_nil _ _

end Allocates

/-! ## The two types of a stage -/

/-- `viewTy?` and `stageTy` can differ in the shape only. -/
theorem viewTy?_allocTy {shape : List Int} (hshape : shape ≠ []) (elem : Option Ty)
    (layout : Option SharedLayout) : ∃ tv, viewTy? (allocTy shape elem layout) = some tv ∧
      stageTy (allocTy shape elem layout) =
        { tv with shape := if shape.length = 1 then [1] else tv.shape } := by
  match shape with
  | [] => exact absurd rfl hshape
  | [_] => exact ⟨_, rfl, rfl⟩
  | _ :: _ :: _ => exact ⟨_, rfl, rfl⟩

/-- What follows the element in the text of a `part` of an allocation of shape `whole`. -/
def partEnd (whole part : List Int) (layout : Option SharedLayout) : String :=
  trailingText (layout.map fun s => .encoding (.shared s)) ++ trailingText (some .sharedMemory) ++
    ", mutable" ++ (if !whole.isEmpty && whole != part then ", " ++ shapeText whole else "") ++ ">"

/-- The text of a `part` of an allocation whose elements have the text `elem`. -/
def writtenPart (whole part : List Int) (layout : Option SharedLayout) (elem : String) : String :=
  "!ttg.memdesc<" ++ extentsText part ++ elem ++ partEnd whole part layout

theorem text_part (whole part : List Int) (elem : Option Ty) (layout : Option SharedLayout) :
    MemDescTy.text { allocTy whole elem layout with shape := part } =
      (elem.bind (·.text)).map (writtenPart whole part layout) := by
  cases elem with
  | none => simp [allocTy, MemDescTy.whole, MemDescTy.text]
  | some t =>
    cases htext : t.text with
    | none => simp [allocTy, MemDescTy.whole, MemDescTy.text, htext]
    | some e =>
      simp [allocTy, MemDescTy.whole, MemDescTy.text, htext, writtenPart, partEnd,
        String.append_assoc]

/-- A part of shape `[1]` has its extent written, and the shape `[n]` of the allocation only if that
is another one; a part without dimensions always has the latter. So the texts differ in length. -/
theorem writtenPart_flat_ne (n : Int) (layout : Option SharedLayout) (e : String) :
    writtenPart [n] [1] layout e ≠ writtenPart [n] [] layout e := by
  intro heq
  have hlength := congrArg String.length heq
  have hcross : "x".length = 1 := by decide
  have hcomma : ", ".length = 2 := by decide
  by_cases hn : n = 1
  · subst hn
    simp [writtenPart, partEnd, extentsText, shapeText, String.length_append] at hlength
    omega
  · simp [writtenPart, partEnd, extentsText, shapeText, String.length_append, hn] at hlength

theorem sameTy?_parts (whole part part' : List Int) (elem : Option Ty)
    (layout : Option SharedLayout) :
    sameTy? (some (.memDesc { allocTy whole elem layout with shape := part }))
        (some (.memDesc { allocTy whole elem layout with shape := part' })) =
      (elem.bind (·.text)).map fun e =>
        writtenPart whole part layout e == writtenPart whole part' layout e := by
  simp only [sameTy?, Ty.text, text_part]
  cases elem.bind (·.text) <;> rfl

/-- `sameTy?` takes `stageTy` and `viewTy?` for the same exactly if the buffer has two dimensions or
more. -/
theorem sameTy?_stageTy {shape : List Int} {elem : Option Ty} {layout : Option SharedLayout}
    {tv : MemDescTy} (hview : viewTy? (allocTy shape elem layout) = some tv) :
    sameTy? (some (.memDesc (stageTy (allocTy shape elem layout)))) (some (.memDesc tv)) =
      (allocTy shape elem layout).text.map fun _ => decide (2 ≤ shape.length) := by
  have hwhole : (allocTy shape elem layout).text = _ := text_part shape shape elem layout
  rw [hwhole, Option.map_map]
  match shape with
  | [] => cases hview
  | [n] =>
    cases hview
    refine (sameTy?_parts [n] [1] [] elem layout).trans (congrArg (Option.map · _) ?_)
    funext e
    exact beq_false_of_ne (writtenPart_flat_ne n layout e)
  | n :: d :: rest =>
    cases hview
    refine (sameTy?_parts (n :: d :: rest) (d :: rest) (d :: rest) elem layout).trans
      (congrArg (Option.map · _) ?_)
    funext e
    simp

/-- Work that creates a view of a stage of `alloc`, which a value or a number selects. -/
inductive ViewsStage (c : Context) (alloc : ValueId) : BuildM ValueId → Prop
  | selected {idx : Option ValueId} (h : c.graph.HasOptValue idx) :
      ViewsStage c alloc (createSingleBufferViewAt (some alloc) idx)
  | numbered (n : Int) : ViewsStage c alloc (createSingleBufferView (some alloc) n)

theorem ViewsStage.makesValue {work : BuildM ValueId} (h : ViewsStage c alloc work)
    (hsound : c.Sound) (halloc : c.graph.typeOf alloc = some (.memDesc t)) :
    MakesValue work c (.memDesc (stageTy t)) := by
  cases h with
  | selected hidx => exact makesValue_createSingleBufferViewAt hsound halloc hidx
  | numbered n => exact makesValue_createSingleBufferView hsound halloc n

/-- As long as an allocated buffer has the type that it was allocated with, `viewTy?` gives a type
for its stages, and every view of a stage has that type, but for a buffer with one dimension, whose
views keep a dimension of extent 1. `sameTy?` takes the type of a stage and that of a view of it for
the same exactly if the buffer has two dimensions or more. -/
theorem stageViews_typed {c₁ c₂ : Context} {shape : List Int} (h : Reachable c)
    (halloc : Allocates c alloc c₁ shape) (hlater : c₁.Advances c₂)
    (hkept : c₂.graph.typeOf alloc = c₁.graph.typeOf alloc) :
    ∃ t tv, c₂.graph.typeOf alloc = some (.memDesc t) ∧ t.shape = shape ∧ viewTy? t = some tv ∧
      ∀ work, ViewsStage c₂ alloc work →
        (c₂.Placed → ∃ view c₃, work c₂ = .ok view c₃) ∧
        ∀ view c₃, work c₂ = .ok view c₃ →
          c₃.graph.typeOf view =
            some (.memDesc { tv with shape := if shape.length = 1 then [1] else tv.shape }) ∧
          sameTy? (c₃.graph.typeOf view) (some (.memDesc tv)) =
            t.text.map fun _ => decide (2 ≤ shape.length) := by
  obtain ⟨hadv, elem, layout, htype⟩ := halloc.typeOf h.sound
  obtain ⟨tv, hview, hstage⟩ := viewTy?_allocTy halloc.shape_ne_nil elem layout
  have hnow := hkept.trans htype
  have hsound := (h.sound.advances hadv).advances hlater
  refine ⟨_, tv, hnow, rfl, hview, fun work hwork => ?_⟩
  have hmakes := hwork.makesValue hsound hnow
  refine ⟨fun hplaced => ?_, fun view c₃ hrun => ?_⟩
  · -- a failure would mean that the cursor has no position
    have hgives : work.Gives c₂ _ :=
      Meets.imp hmakes (fun _ _ _ hc => hc) fun _ _ _ hlost => hlost hplaced
    obtain ⟨view, c₃, hrun, -⟩ := hgives.ok
    exact ⟨view, c₃, hrun⟩
  · obtain ⟨-, htyped, -⟩ := hmakes.leads.of_ok hrun
    rw [htyped]
    exact ⟨by rw [hstage], sameTy?_stageTy hview⟩

/-- Inside the loop of `looping`, the last of three tensors that were allocated around it is viewed.
-/
theorem looping_tensor_viewed :
    Reachable (Request.run looping {}) ∧ ∃ alloc c₁ view c₂ tv,
      createAlloc ⟨2⟩ ⟨[16], some Ty.i32, none⟩ {} none 3 (Request.run looping {}) = .ok alloc c₁ ∧
      createSingleBufferView (some alloc) 2 c₁ = .ok view c₂ ∧ tv.shape = [16] ∧
      c₂.graph.typeOf view = some (.memDesc tv) ∧
      sameTy? (c₂.graph.typeOf view) (some (.memDesc tv)) = some true := by
  obtain ⟨alloc, view, halloc, hboth⟩ : ∃ alloc view,
      (createAlloc ⟨2⟩ ⟨[16], some Ty.i32, none⟩ {} none 3).run' (Request.run looping {}) =
          some alloc ∧
        EStateM.run' (do
          let alloc ← createAlloc ⟨2⟩ ⟨[16], some Ty.i32, none⟩ {} none 3
          createSingleBufferView (some alloc) 2) (Request.run looping {}) = some view :=
    ⟨⟨3⟩, ⟨6⟩, by decide +kernel⟩
  obtain ⟨c₁, hrun₁⟩ := exists_ok_of_run' halloc
  obtain ⟨c₂, hrun₂⟩ := exists_ok_of_run' hboth
  rw [bind_of_ok hrun₁] at hrun₂
  obtain ⟨t, tv, htype, hshape, hview, hviews⟩ :=
    stageViews_typed reachable_looping (.tensors hrun₁) .refl rfl
  obtain ⟨-, hviewed⟩ := hviews _ (.numbered 2)
  obtain ⟨htyped, hsame⟩ := hviewed view c₂ hrun₂
  -- the buffer has the type of an allocation, which has a text
  have halloc := ((leads_createAlloc reachable_looping.sound _ _ _ _ _).of_ok hrun₁).2
  obtain rfl : t = allocTy [3, 16] (some Ty.i32) none := by simpa [htype] using halloc
  have htext : (allocTy [3, 16] (some Ty.i32) none).text.isSome := by decide +kernel
  obtain ⟨text, htext⟩ := Option.isSome_iff_exists.mp htext
  obtain rfl : { allocTy [3, 16] (some Ty.i32) none with shape := [16] } = tv :=
    Option.some.inj hview
  rw [htext] at hsame
  exact ⟨reachable_looping, alloc, c₁, view, c₂, _, hrun₁, hrun₂, rfl, htyped, hsame⟩

/-- On a buffer of three scalars `viewTy?` is not the type of a view. -/
theorem looping_scalar_types_differ :
    EStateM.run' (do
      let alloc ← createScalarAlloc (some Ty.i64) 3
      let view ← createSingleBufferViewAt (some alloc) (some ⟨0⟩)
      let g ← graph
      return do
        let tv ← viewTy? (← (← g.typeOf alloc).memDesc?)
        sameTy? (g.typeOf view) (some (.memDesc tv))) (Request.run looping {}) =
      some (some false) := by
  decide +kernel

end Buffer

end Multistage
