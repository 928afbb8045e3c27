import Multistage.Predication.Basic
import Multistage.Proofs.Verify.Rewriting

/-!
# Masks keep an operation verified

While the cursor stands right before an operation, what is created goes right before it: the new
operation sees what that operation sees, and its results are seen by it (`Poised`). So a mask can be
computed there from values that the operation sees, and put into a segment of it.
-/

namespace Multistage

open BuildM Build

/-! ## Creating inside a verified operation -/

/-- The values that the slots of a new operation of `spec` hold. -/
def Context.operandsOf (c : Context) (spec : OpSpec) : List (Option ValueId) :=
  spec.slotValues (((c.catalog.find? spec.name).map (·.segments)).getD [])

/-- The graph with a new operation at position `k` of a block. -/
def Context.insertion (c : Context) (spec : OpSpec) (b : BlockId) (k : Nat) : Graph :=
  c.graph.inserted (spec.row (c.catalog.find? spec.name)) (c.operandsOf spec) spec.results b k

namespace Build

variable {c : Context}

theorem graph_created (c : Context) (spec : OpSpec) (b : BlockId) (k : Nat) :
    (Created c spec b k).graph = c.insertion spec b k := by
  rw [Created, Graph.addOp_eq_install]
  rfl

theorem insertable (h : c.Sound) (spec : OpSpec) (hspec : c.graph.HasSpec spec) {b : BlockId}
    {k : Nat} (hat : c.At b k) :
    c.graph.Insertable (spec.row (c.catalog.find? spec.name)) (c.operandsOf spec) b k where
  wellFormed := h.graph
  blank := Graph.blank_row _ _
  vals_there := hspec.slotValues _
  block_there := hat.hasBlock h.cursor
  le_length := hat.le_length

end Build

/-! ## Creating right before an operation -/

/-- Operation `i` sees `v`. -/
def Context.Sees (c : Context) (i : OpId) (v : ValueId) : Prop :=
  c.graph.HasValue v ∧ c.graph.Visible v i

/-- The cursor stands right before an operation `i` inside a verified one. -/
structure Poised (c : Context) (root i : OpId) : Prop where
  sound : c.Sound
  verified : c.graph.Verified root []
  inside : c.graph.Inside root i
  block : c.cursor.block = (c.graph.op i).block
  before : c.cursor.before = some i

namespace Poised

variable {c : Context} {root i : OpId}

theorem hasOp (h : Poised c root i) : c.graph.HasOp i := h.sound.cursor.2 i h.before

theorem live (h : Poised c root i) : (c.graph.op i).erased = false := (h.verified i h.inside).live

/-- `Poised` does not look at the location of the cursor. -/
theorem withLoc (h : Poised c root i) (loc : Location) :
    Poised { c with cursor := { c.cursor with loc } } root i where
  sound := h.sound.advance (.move _ h.sound.cursor)
  verified := h.verified
  inside := h.inside
  block := h.block
  before := h.before

theorem getElem?_of_at (h : Poised c root i) {b : BlockId} {k : Nat} (hat : c.At b k) :
    (c.graph.block b).ops[k]? = some i := by
  have hk := hat.2
  rw [h.before] at hk
  obtain ⟨hlt, hget, -⟩ := List.idxOf?_eq_some_iff.mp hk
  rw [List.getElem?_eq_getElem hlt, hget]

theorem visible_iff (h : Poised c root i) {b : BlockId} {k : Nat} (hat : c.At b k) {v : ValueId} :
    c.graph.Visible v i ↔ c.graph.VisibleAt v b k :=
  Graph.visible_iff_visibleAt h.sound.graph.members (h.getElem?_of_at hat)

/-- What `i` reads, it sees, inside a verified operation. -/
theorem sees_of_held (h : Poised c root i) {s : SlotId} (hs : s ∈ (c.graph.op i).operands)
    {v : ValueId} (hv : (c.graph.slot s).value = some v) : c.Sees i v :=
  ⟨h.sound.graph.uses.held s v hv, (h.verified i h.inside).visible hs hv⟩

end Poised

section

variable {c : Context} {root i : OpId}

/-- `create` right before `i`, from values that it sees. -/
theorem leads_create_poised (h : Poised c root i) {spec : OpSpec} (hspec : c.graph.HasSpec spec)
    (hvals : ∀ v ∈ c.operandsOf spec, ∃ w, v = some w ∧ c.graph.Visible w i) :
    (create spec).Leads c fun n c' => n = c.graph.nextOp ∧ Poised c' root i ∧
      (∀ v, c.Sees i v → c'.Sees i v) ∧ (∀ v ∈ (c'.graph.op n).results, c'.Sees i v) ∧
      ∃ b k loc, c.At b k ∧ c' = Created c { spec with loc } b k := by
  refine (leads_create h.sound hspec).imp fun n c' hadv hc => ?_
  obtain ⟨rfl, b, k, loc, hat, rfl⟩ := hc
  have hins := insertable h.sound { spec with loc } hspec hat
  have hi := h.hasOp.ne_nextOp
  have hget := h.getElem?_of_at hat
  have hgraph := graph_created c { spec with loc } b k
  have hsound := h.sound.advances hadv
  have hverified : (c.insertion { spec with loc } b k).Verified root [] := by
    refine hins.verified_inserted h.verified (fun v hv => ?_) fun _ => ?_
    · obtain ⟨w, hw, hvisible⟩ := hvals v hv
      exact ⟨w, hw, (h.visible_iff hat).mp hvisible⟩
    · exact (List.getElem?_eq_some_iff.mp hget).1
  have hrow : (c.insertion { spec with loc } b k).op i = c.graph.op i :=
    Graph.op_inserted_of_ne _ _ _ _ _ _ hi
  -- `i` has moved on by one position
  have hget' : ((c.insertion { spec with loc } b k).block b).ops[k + 1]? = some i := by
    rw [Context.insertion, hins.ops_inserted_self, insertIdx_eq_append hat.le_length,
      List.getElem?_append_right (by rw [List.length_take]; omega), List.length_take,
      Nat.min_eq_left hat.le_length, Nat.add_sub_cancel_left, List.getElem?_cons_succ,
      List.getElem?_drop, Nat.add_zero]
    exact hget
  have hsees : ∀ v, (c.insertion { spec with loc } b k).HasValue v →
      (c.insertion { spec with loc } b k).VisibleAt v b (k + 1) →
      (Created c { spec with loc } b k).Sees i v := by
    intro v hv hvisible
    rw [Context.Sees, hgraph]
    refine ⟨hv, (Graph.visible_iff_visibleAt ?_ hget').mpr hvisible⟩
    exact hgraph ▸ hsound.graph.members
  have hwithin : c.graph.Within (c.insertion { spec with loc } b k) := hgraph ▸ hadv.within
  refine ⟨rfl, ⟨hsound, hgraph ▸ hverified, ?_, ?_, h.before⟩, fun v hv => ?_, fun v hv => ?_,
    b, k, loc, hat, rfl⟩
  · rw [hgraph]
    exact (hins.inside_inserted hi).mpr h.inside
  · rw [hgraph, hrow]
    exact h.block
  · exact hsees v (hwithin.hasValue hv.1)
      (hins.visibleAt_inserted hv.1 ((h.visible_iff hat).mp hv.2) (Nat.le_succ _))
  · rw [hgraph] at hv
    refine hsees v ?_ (hins.visibleAt_result hv)
    rw [← hgraph] at hv ⊢
    exact (hsound.graph.owned.mem_results_iff.mp hv).1

theorem leads_createValue_poised (h : Poised c root i) {spec : OpSpec}
    (hspec : c.graph.HasSpec spec)
    (hvals : ∀ v ∈ c.operandsOf spec, ∃ w, v = some w ∧ c.graph.Visible w i) :
    (createValue spec).Leads c fun v c' => Poised c' root i ∧
      (∀ w, c.Sees i w → c'.Sees i w) ∧ c'.Sees i v := by
  refine (leads_createValue (leads_create_poised h hspec hvals)).imp fun v c' _ hc => ?_
  obtain ⟨n, ⟨-, hpoised, hkept, hresults, -⟩, hv⟩ := hc
  exact ⟨hpoised, hkept, hresults v hv⟩

/-- A `spec` of a kind without segments reads its operands as they are given. -/
theorem operandsOf_of_find? (h : c.Sound) {spec : OpSpec} {k : OpKind}
    (hk : Catalog.builtin.find? spec.name = some k) (hsegments : k.segments = []) :
    c.operandsOf spec = spec.operands := by
  rw [Context.operandsOf, h.catalog _ _ hk]
  show spec.slotValues k.segments = _
  rw [hsegments]
  rfl

/-- An operation without segments on values that `i` sees, created right before it. -/
theorem leads_createValue_plain (h : Poised c root i) {name : String} {k : OpKind}
    (hk : Catalog.builtin.find? name = some k) (hsegments : k.segments = []) (vals : List ValueId)
    (hvals : ∀ v ∈ vals, c.Sees i v) (types : List (Option Ty)) :
    (createValue { name, operands := vals.map some, results := types }).Leads c fun v c' =>
      Poised c' root i ∧ (∀ w, c.Sees i w → c'.Sees i w) ∧ c'.Sees i v := by
  refine leads_createValue_poised h
    ⟨Graph.hasOptValue_of_mem_map fun v hv => (hvals v hv).1, nofun⟩ fun v hv => ?_
  rw [operandsOf_of_find? h.sound hk hsegments] at hv
  obtain ⟨u, hu, rfl⟩ := List.mem_map.mp hv
  exact ⟨u, rfl, (hvals u hu).2⟩

end

/-! ## Masks -/

namespace Predication

open Ops

variable {c : Context} {root i : OpId} {pred : ValueId}

theorem leads_typeOf (v : ValueId) : (typeOf v).Leads c fun _ c' => c' = c :=
  leads_graph.bind fun _ _ _ hc => .pure hc.2

theorem leads_locOf (pred : ValueId) : (locOf pred).Leads c fun _ c' => c' = c := by
  refine leads_graph.bind fun g c' _ hc => ?_
  obtain ⟨rfl, rfl⟩ := hc
  cases c'.graph.definingOp pred with
  | some d => exact .pure rfl
  | none => exact leads_cursor.bind fun _ _ _ hc => .pure hc.2

theorem leads_shapeMask (h : Poised c root i) (hpred : c.Sees i pred) (ty : Ty) :
    (shapeMask ty pred).Leads c fun m c' =>
      Poised c' root i ∧ (∀ w, c.Sees i w → c'.Sees i w) ∧ c'.Sees i m := by
  unfold shapeMask
  split
  · refine (leads_typeOf pred).bind fun _ c₁ _ hc => ?_
    subst hc
    refine (leads_present _).bind fun same c₂ _ hc => ?_
    obtain ⟨-, rfl⟩ := hc
    -- a predicate that has the shape already is taken as it is
    cases same with
    | true => exact .pure ⟨h, fun _ hw => hw, hpred⟩
    | false =>
      refine leads_createValue_plain h (k := { name := Kinds.splat }) (by decide) rfl [pred] ?_ _
      intro v hv
      rw [List.mem_singleton.mp hv]
      exact hpred
  · exact .pure ⟨h, fun _ hw => hw, hpred⟩

theorem leads_predMask (h : Poised c root i) (hpred : c.Sees i pred) {current : Option ValueId}
    (hcurrent : ∀ v ∈ current, c.Sees i v) (like : Option Ty) :
    (predMask like current pred).Leads c fun m c' => Poised c' root i ∧ c'.Sees i m := by
  refine (leads_locOf pred).bind fun loc c₁ _ hc => ?_
  subst hc
  refine (meets_withLoc h.sound (P := fun m c' => Poised c' root i ∧ c'.Sees i m)
    (R := fun _ _ => True) ?_).leads.imp fun m c' _ hc => ?_
  · refine (leads_shapeMask (h.withLoc loc) hpred (maskTy like)).bind fun mask c₂ _ hc => ?_
    obtain ⟨hpoised, hkept, hmask⟩ := hc
    cases current with
    | none => exact .pure ⟨hpoised, hmask⟩
    | some v =>
      refine (leads_typeOf mask).bind fun ty c₃ _ hc => ?_
      subst hc
      refine (leads_createValue_plain hpoised (k := { name := Kinds.andI }) (by decide) rfl
        [mask, v] (fun w hw => ?_) [ty]).imp fun _ _ _ hc => ⟨hc.1, hc.2.2⟩
      rcases List.mem_cons.mp hw with rfl | hw
      · exact hmask
      · rw [List.mem_singleton.mp hw]
        exact hkept v (hcurrent v rfl)
  · obtain ⟨d, ⟨hpoised, hm⟩, rfl⟩ := hc
    exact ⟨hpoised.withLoc _, hm⟩

/-! ## Segments -/

/-- `segmentValue` is what a slot of `i` holds. -/
theorem leads_segmentValue (i : OpId) (name : String) :
    (segmentValue i name).Leads c fun v c' => c' = c ∧
      ∀ w ∈ v, ∃ s ∈ (c.graph.op i).operands, (c.graph.slot s).value = some w := by
  refine leads_graph.bind fun g c' _ hc => ?_
  obtain ⟨rfl, rfl⟩ := hc
  refine (leads_present _).imp fun v c₁ _ hc => ?_
  obtain ⟨hv, rfl⟩ := hc
  refine ⟨rfl, ?_⟩
  rintro w ⟨⟩
  unfold Graph.segmentValue? at hv
  split at hv
  · cases hv
  · cases hv
  · obtain ⟨s, hs, hheld⟩ := Option.bind_eq_some_iff.mp hv
    exact ⟨s, List.mem_of_getElem? hs, Option.some.inj hheld⟩

/-- `predicateSegment` keeps `root` verified. -/
theorem leads_predicateSegment (h : Poised c root i) (hpred : c.Sees i pred) (s : Strategy) :
    (predicateSegment i s (some pred)).Leads c fun _ c' => c'.graph.Verified root [] := by
  refine (leads_segmentValue i s.segment).bind fun current c₁ _ hc => ?_
  obtain ⟨rfl, hcurrent⟩ := hc
  have hseen : ∀ v ∈ current, c₁.Sees i v := by
    intro v hv
    obtain ⟨t, ht, hheld⟩ := hcurrent v hv
    exact h.sees_of_held ht hheld
  -- whatever mask is computed before the operation, putting it in is the last step
  have hset : ∀ {c₂ : Context} {m : ValueId}, Poised c₂ root i → c₂.Sees i m →
      (setSegment i s.segment [some m]).Leads c₂ fun _ c' => c'.graph.Verified root [] := by
    intro c₂ m hpoised hm
    have hthere : ∀ v ∈ [some m], c₂.graph.HasOptValue v := by
      intro v hv
      rw [List.mem_singleton.mp hv]
      exact hm.1.opt
    refine (leads_setSegment hpoised.sound i s.segment hthere).imp fun _ c₃ _ hc => ?_
    obtain ⟨g, hg, rfl⟩ := hc
    refine hpoised.verified.setSegment hpoised.sound.graph hpoised.live hpoised.hasOp
      (fun v hv => ?_) hg
    rw [List.mem_singleton.mp hv]
    exact hm
  have hfitted : ∀ r : ValueId, Leads (do
      let p ← present (some pred)
      let mask ← some <$> predMask (← typeOf r) current p
      setSegment i s.segment [mask]) c₁ fun _ c' => c'.graph.Verified root [] := by
    intro r
    refine (leads_present _).bind fun p c₂ _ hc => ?_
    obtain ⟨hp, rfl⟩ := hc
    cases hp
    refine (leads_typeOf r).bind fun ty c₃ _ hc => ?_
    subst hc
    have hmask : (some <$> predMask ty current pred).Leads c₃ fun m c' =>
        ∃ v, m = some v ∧ Poised c' root i ∧ c'.Sees i v :=
      (leads_predMask h hpred hseen ty).bind fun m _ _ hm => .pure ⟨m, rfl, hm⟩
    refine hmask.bind fun m c₄ _ hc => ?_
    obtain ⟨v, rfl, hpoised, hv⟩ := hc
    exact hset hpoised hv
  -- the operand that the mask has to fit decides whether there is anything to compute
  dsimp only
  split
  · refine Leads.bind (P := fun _ c' => c' = c₁) (.pure rfl) fun ref c₂ _ hc => ?_
    subst hc
    cases ref with
    | none => exact hset h hpred
    | some r => exact hfitted r
  · refine (leads_segmentValue i s.ref).bind fun ref c₂ _ hc => ?_
    obtain ⟨rfl, -⟩ := hc
    cases ref with
    | none => exact hset h hpred
    | some r => exact hfitted r

end Predication

end Multistage
