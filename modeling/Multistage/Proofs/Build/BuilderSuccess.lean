import Multistage.Ops.SharedMemory
import Multistage.Proofs.Predication.Masking

/-!
# Where the building functions succeed

The functions of the builder are gone through once more. Each of them succeeds on what it is meant
for: on operations that are in a block, at a cursor that has a position, for values that are there.
-/

namespace Multistage

namespace Build

open BuildM

variable {c : Context}

theorem gives_blockOfPoint {i : OpId} {b : BlockId} (hb : (c.graph.op i).block = some b) :
    (blockOfPoint i).Gives c fun b' c' => b' = b ∧ c' = c := by
  refine gives_graph.bind fun g c' _ hc => ?_
  obtain ⟨rfl, rfl⟩ := hc
  rw [hb]
  exact .pure ⟨rfl, rfl⟩

theorem gives_moveBefore (h : c.Sound) {i : OpId} {b : BlockId}
    (hb : (c.graph.op i).block = some b) :
    (moveBefore i).Gives c fun _ c' =>
      c' = { c with cursor := { c.cursor with block := some b, before := some i } } := by
  refine (gives_blockOfPoint hb).bind fun b' c' _ hc => ?_
  obtain ⟨rfl, rfl⟩ := hc
  exact gives_modify (.single (.move _ (hasCursor_before h.graph hb _)))

theorem gives_cursorBefore {i : OpId} {b : BlockId} (hb : (c.graph.op i).block = some b) :
    (cursorBefore i).Gives c fun p c' =>
      p = { block := some b, before := some i, loc := (c.graph.op i).loc } ∧ c' = c := by
  refine (gives_blockOfPoint hb).bind fun b' c' _ hc => ?_
  obtain ⟨rfl, rfl⟩ := hc
  refine gives_graph.bind fun g c'' _ hc => ?_
  obtain ⟨rfl, rfl⟩ := hc
  exact .pure ⟨rfl, rfl⟩

theorem meets_moveBefore (h : c.Sound) (i : OpId) :
    (moveBefore i).Meets c
      (fun _ c' => ∃ b, (c.graph.op i).block = some b ∧
        c' = { c with cursor := { c.cursor with block := some b, before := some i } })
      fun _ c' => (c.graph.op i).block = none ∧ c' = c := by
  cases hb : (c.graph.op i).block with
  | some b =>
    exact ((gives_moveBefore h hb).imp fun _ _ _ hc => ⟨b, rfl, hc⟩).meets _
  | none =>
    -- without a block there is nowhere to move to, and nothing has happened yet
    have hblock : (blockOfPoint i).Meets c (fun _ _ => False) fun _ c' => c' = c := by
      refine (gives_graph.meets _).bind fun g c' _ hc => ?_
      obtain ⟨rfl, rfl⟩ := hc
      rw [hb]
      exact .throw rfl
    refine (hblock.imp (fun _ _ _ hc => hc) fun _ _ _ hc => ⟨rfl, hc⟩).bind fun _ _ _ hc => ?_
    exact hc.elim

/-- A cursor before operation `i` of block `b` has a position there. -/
theorem exists_at_of_before {g : Graph} (h : g.MembersAgree) {i : OpId} {b : BlockId}
    (hb : (g.op i).block = some b) : ∃ k, (g.block b).ops.idxOf? i = some k :=
  Option.isSome_iff_exists.mp (h.idxOf?_isSome hb)

theorem gives_position {b : BlockId} {k : Nat} (hat : c.At b k) (label : Option OpLabel) :
    (position label).Gives c fun p c' => p = (b, k) ∧ c' = c := by
  obtain ⟨hblock, hk⟩ := hat
  refine gives_cursor.bind fun p c' _ hc => ?_
  obtain ⟨rfl, rfl⟩ := hc
  refine gives_graph.bind fun g c' _ hc => ?_
  obtain ⟨rfl, rfl⟩ := hc
  rw [hblock]
  cases hbefore : c'.cursor.before with
  | none =>
    rw [hbefore] at hk
    subst hk
    exact .pure ⟨rfl, rfl⟩
  | some i =>
    rw [hbefore] at hk
    dsimp only
    rw [hk]
    exact .pure ⟨rfl, rfl⟩

/-- `spec` gives no more segments than the catalog of `c` declares for its kind. -/
def Fits (c : Context) (spec : OpSpec) : Prop :=
  spec.segments.length ≤ (((c.catalog.find? spec.name).map (·.segments)).getD []).length

theorem gives_createDetached {spec : OpSpec} (hspec : c.graph.HasSpec spec) (hfits : Fits c spec) :
    (createDetached spec).Gives c fun i c' => i = c.graph.nextOp ∧
      c' = { c with graph := (c.graph.addOp (c.catalog.find? spec.name) spec).1 } := by
  refine (leads_createDetached hspec).gives ?_
  -- the guard that refuses too many segments does not apply
  have hfew : ¬ ((!(((c.catalog.find? spec.name).map (·.segments)).getD []).isEmpty &&
      decide ((((c.catalog.find? spec.name).map (·.segments)).getD []).length <
        spec.segments.length)) = true) := by
    simp only [Bool.and_eq_true, decide_eq_true_eq, not_and, Nat.not_lt]
    exact fun _ => hfits
  refine ⟨c.graph.nextOp,
    { c with graph := (c.graph.addOp (c.catalog.find? spec.name) spec).1 }, ?_⟩
  show (if _ then _ else _ : BuildM _) c = _
  rw [if_neg hfew]
  rfl

theorem gives_insert (h : c.Sound) {i : OpId} (hi : c.graph.HasOp i)
    (hdetached : (c.graph.op i).block = none) (hlive : (c.graph.op i).erased = false) {b : BlockId}
    {k : Nat} (hat : c.At b k) :
    (insert i).Gives c fun j c' => j = i ∧ c' = { c with graph := c.graph.place b k i } := by
  refine gives_graph.bind fun g c' _ hc => ?_
  obtain ⟨rfl, rfl⟩ := hc
  refine (gives_position hat _).bind fun p c₁ _ hc => ?_
  obtain ⟨rfl, rfl⟩ := hc
  have hok : c₁.graph.insertAt b k i = .ok (c₁.graph.place b k i) := by
    unfold Graph.insertAt
    rw [if_neg (by rw [hdetached]; exact Bool.false_ne_true),
      if_neg (by rw [hlive]; exact Bool.false_ne_true)]
    rfl
  have hedits : Graph.Edits c₁.catalog c₁.graph (c₁.graph.place b k i) :=
    Graph.edits_insertAt (hat.hasBlock h.cursor) hi hat.le_length hok
  refine (gives_tryGraph hok hedits).bind fun _ c₂ _ hc => ?_
  exact .pure ⟨rfl, hc⟩

/-- `create` succeeds where the cursor has a position. Without a location of its own the operation
gets that of the cursor. -/
theorem gives_create (h : c.Sound) {spec : OpSpec} (hspec : c.graph.HasSpec spec)
    (hfits : Fits c spec) {b : BlockId} {k : Nat} (hat : c.At b k) :
    (create spec).Gives c fun i c' => i = c.graph.nextOp ∧
      ∃ loc, (spec.loc = {} → loc = c.cursor.loc) ∧ c' = Created c { spec with loc } b k := by
  refine gives_cursor.bind fun p c' _ hc => ?_
  obtain ⟨rfl, rfl⟩ := hc
  have hlocated : c'.graph.HasSpec
      { spec with loc := if spec.loc = {} then c'.cursor.loc else spec.loc } := hspec
  refine (gives_createDetached hlocated hfits).bind fun i c₁ hadv hc => ?_
  obtain ⟨rfl, rfl⟩ := hc
  -- the row was just made: it is in no block and live, and the block is as it was
  refine (gives_insert (h.advances hadv) (hasOp_addOp _ _ _) ?_ ?_ (hat.congr rfl ?_)).imp
    fun j c₂ _ hc => ?_
  · rw [Graph.addOp_eq_install, Graph.op_install, if_pos rfl]
    rfl
  · rw [Graph.addOp_eq_install, Graph.op_install, if_pos rfl]
    rfl
  · show ((Graph.addOp _ _ _).1.block b).ops = _
    rw [Graph.addOp_eq_install, Graph.block_install]
  · exact ⟨hc.1, _, fun hloc => if_pos hloc, hc.2⟩

/-- What `createValue` gives is the next row of the table of values. -/
theorem gives_createValue (h : c.Sound) {spec : OpSpec} (hspec : c.graph.HasSpec spec)
    (hfits : Fits c spec) (hresults : spec.results ≠ []) {b : BlockId} {k : Nat} (hat : c.At b k) :
    (createValue spec).Gives c fun v c' => v = ⟨c.graph.values.size⟩ ∧
      ∃ loc, (spec.loc = {} → loc = c.cursor.loc) ∧ c' = Created c { spec with loc } b k := by
  refine (gives_create h hspec hfits hat).bind fun i c₁ _ hc => ?_
  obtain ⟨rfl, loc, hloc, rfl⟩ := hc
  refine gives_graph.bind fun g c₂ _ hc => ?_
  obtain ⟨rfl, rfl⟩ := hc
  -- results are numbered from the values that were there
  have hfirst : ((Created c { spec with loc } b k).graph.op c.graph.nextOp).results.head? =
      some ⟨c.graph.values.size⟩ := by
    rw [graph_created, Context.insertion, Graph.op_inserted_self]
    show (Graph.valuesFrom c.graph.values.size spec.results.length).head? = _
    obtain ⟨ty, rest, hcons⟩ := List.exists_cons_of_ne_nil hresults
    rw [hcons]
    rfl
  refine (gives_present hfirst).imp fun v c₃ _ hc => ?_
  obtain ⟨rfl, rfl⟩ := hc
  exact ⟨rfl, loc, hloc, rfl⟩

theorem gives_typeOf (v : ValueId) :
    (typeOf v).Gives c fun ty c' => ty = c.graph.typeOf v ∧ c' = c := by
  refine gives_graph.bind fun g c' _ hc => ?_
  obtain ⟨rfl, rfl⟩ := hc
  exact .pure ⟨rfl, rfl⟩

end Build

theorem Buffer.gives_bufferTy {c : Context} {v : ValueId} {t : MemDescTy}
    (hv : c.graph.typeOf v = some (.memDesc t)) :
    (Ops.bufferTy v).Gives c fun u c' => u = t ∧ c' = c := by
  refine (Build.gives_typeOf v).bind fun u c' _ hc => ?_
  obtain ⟨rfl, rfl⟩ := hc
  apply BuildM.gives_present
  rw [hv]
  rfl

end Multistage
