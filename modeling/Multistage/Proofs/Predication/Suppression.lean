import Multistage.Proofs.Graph.OpReplacement
import Multistage.Proofs.Predication.ConditionalBuilding
import Multistage.Proofs.Predication.Effects
import Multistage.Proofs.Predication.PredicationMoves
import Multistage.Proofs.Predication.VerifiedPredication

/-!
# What a false predicate suppresses

An operation that was predicated through its mask, its condition or a conditional around it is
executed under an assignment that makes the predicate false. Its mask is then false everywhere, and
a conditional runs its second region. So the one thing that still acts is what a conditional that
was predicated in place has in its second region.
-/

namespace Multistage

open BuildM Build

namespace Predication

variable {n : Nat} {c c' d : Context} {i : OpId} {s : Strategy} {pred m : ValueId}
  {σ : ValueId → Lanes}

/-- Operation `i` is a conditional, and an operation of its second region `Acts`. -/
def ElseActs (c : Context) (σ : ValueId → Lanes) (i : OpId) : Prop :=
  (c.graph.op i).name = Kinds.ifElse ∧
    ∃ b, c.graph.InRegion i 1 b ∧ ∃ j ∈ (c.graph.block b).ops, c.Acts σ j

/-- A conditional is of the built-in kind, whose effects are those of the operations inside. -/
theorem kind_of_ifElse (h : c.Sound) (hname : (c.graph.op i).name = Kinds.ifElse) :
    ∃ k, (c.graph.op i).kind = some k ∧ k.effects = .nested := by
  refine ⟨{ name := Kinds.ifElse, segments := [Seg.condition], effects := .nested,
            regions := 2, terminator := some Kinds.yield }, h.kinds.builtin i _ ?_, rfl⟩
  rw [hname]
  decide

/-- A conditional whose condition does not hold acts through its second region. -/
theorem acts_iff_elseActs (h : c.Sound) (hname : (c.graph.op i).name = Kinds.ifElse)
    (hholds : ¬ c.graph.ConditionHolds σ i) : c.Acts σ i ↔ ElseActs c σ i := by
  obtain ⟨k, hkind, hnested⟩ := kind_of_ifElse h hname
  rw [Context.acts_iff_of_not_holds hname hkind hnested hholds, ElseActs]
  exact (and_iff_right hname).symm

/-- An operation of the second region that acts is one of those that `isEffectFree` goes through. -/
theorem ElseActs.isEffectFree (helse : ElseActs c σ i) (h : c.Sound) :
    c.graph.isEffectFree i = false := by
  obtain ⟨hname, b, ⟨blocks, hblocks, hb⟩, j, hj, hacts⟩ := helse
  obtain ⟨k, hkind, hnested⟩ := kind_of_ifElse h hname
  refine Bool.eq_false_iff.mpr fun hfree => ?_
  obtain ⟨k', hk', hnone | ⟨-, hall⟩⟩ :=
    Graph.effectFreeTo_succ_iff.mp (Graph.effectFreeTo_succ hfree)
  · cases hkind.symm.trans hk'
    rw [hnested] at hnone
    cases hnone
  · have hchild : j ∈ c.graph.children i :=
      List.mem_flatMap.mpr
        ⟨b, List.mem_flatten.mpr ⟨blocks, List.mem_of_getElem? hblocks, hb⟩, hj⟩
    have hquiet := hall j hchild
    rw [hacts.effectFreeTo] at hquiet
    cases hquiet

/-! ## Masks -/

theorem newMaskLanes_of_false {g : Graph} (hfalse : ∀ pos, σ pred pos = false)
    (ref current : Option ValueId) (pos : List Int) :
    newMaskLanes g ref current pred σ pos = false := by
  cases ref with
  | none => exact hfalse pos
  | some r =>
    have hshaped : shapedLanes g (maskTy (g.typeOf r)) pred σ pos = false := by
      unfold shapedLanes
      split
      · exact hfalse []
      · exact hfalse pos
    show (_ && _) = false
    rw [hshaped, Bool.false_and]

theorem Remasks.retains_set (h : Remasks n c i s pred m d c') : d.graph.Retains c'.graph i := by
  have hvals : ∀ v ∈ [some m], d.graph.HasOptValue v := by
    intro v hv
    rw [List.mem_singleton.mp hv]
    exact h.there.opt
  exact .setSegment h.sound.graph hvals h.graph

/-- `Remasks` does not change the name of `i`. -/
theorem Remasks.name (h : Remasks n c i s pred m d c') (hi : c.graph.HasOp i) :
    (c'.graph.op i).name = (c.graph.op i).name := by
  obtain ⟨_, _, hrow⟩ := ((h.adds.retains i).trans h.retains_set).row i hi
  rw [hrow]

/-- A false `pred` makes the mask false. -/
theorem Remasks.mask_false (h : Remasks n c i s pred m d c') (hi : c.graph.HasOp i)
    (hn : i.index < n) (hσ : c'.graph.Obeys n σ) (hfalse : ∀ pos, σ pred pos = false) :
    c'.graph.segmentValue? i s.segment = some (some m) ∧ ∀ pos, σ m pos = false := by
  have hthere := (h.adds.retains i).within.hasOp hi
  obtain ⟨current, ref, -, -, -, hlanes⟩ := h.lanes
  refine ⟨Graph.segmentValue?_setSegment h.sound.graph.numbered hthere h.graph, fun pos => ?_⟩
  rw [hlanes σ (hσ.of_retains h.retains_set hn)]
  exact newMaskLanes_of_false hfalse ref current pos

/-- Where the mask `m` is false, only the second region of a conditional is left to act. -/
theorem acts_iff_of_mask_false (h : c.Sound)
    (hstrategy : c.strategies.get (c.graph.op i).name = s) (huses : s.kind.usesSegment = true)
    (hmask : c.graph.segmentValue? i s.segment = some (some m)) (hfalse : ∀ pos, σ m pos = false) :
    c.Acts σ i ↔ ElseActs c σ i := by
  subst hstrategy
  by_cases hname : (c.graph.op i).name = Kinds.ifElse
  · -- the mask of a conditional is its condition
    have hbuiltin := h.strategies Kinds.ifElse { kind := .condition, segment := Seg.condition }
      (by decide)
    have hcondition : (c.strategies.get (c.graph.op i).name).segment = Seg.condition := by
      rw [hname, StrategyTable.get, hbuiltin]
      rfl
    rw [hcondition] at hmask
    refine acts_iff_elseActs h hname ?_
    rintro ⟨v, hv, htrue⟩
    cases hmask.symm.trans hv
    rw [hfalse []] at htrue
    cases htrue
  · refine iff_of_false (Context.not_acts_of_mask hname huses hmask hfalse) fun helse => ?_
    exact hname helse.1

/-- An operation `i` that `predicateSegment` has worked on acts only if it is a conditional, and
then only through its second region. -/
theorem leads_predicateSegment_acts (h : c.Sound) (hplaced : (c.graph.op i).block.isSome)
    (hstrategy : c.strategies.get (c.graph.op i).name = s) (huses : s.kind.usesSegment = true)
    (hpred : c.graph.HasValue pred) :
    Leads (keepingPoint do
      moveBefore i
      predicateSegment i s (some pred)
      return i) c fun j c' => ∀ σ, c'.graph.Obeys c.graph.ops.size σ →
        (∀ pos, σ pred pos = false) → (c'.Acts σ j ↔ j = i ∧ ElseActs c' σ i) := by
  obtain ⟨b, hb⟩ := Option.isSome_iff_exists.mp hplaced
  have hi := Graph.hasOp_of_block_eq_some hb
  set moved : Context :=
    { c with cursor := { c.cursor with block := some b, before := some i } }
  have hinner : Leads (do
      moveBefore i
      predicateSegment i s (some pred)
      return i) c fun j c' => j = i ∧
        ∃ m d, Remasks c.graph.ops.size moved i s pred m d c' := by
    refine (gives_moveBefore h hb).leads.bind fun _ c₁ hadv hc => ?_
    subst hc
    have hbeside : Beside moved i := ⟨h.advances hadv, rfl, hb.symm, hplaced⟩
    refine (meets_predicateSegment hbeside hi (Nat.le_refl _) hpred s).leads.bind
      fun _ c₂ _ hc => ?_
    exact .pure ⟨rfl, hc⟩
  refine (meets_keepingPoint h hinner).leads.imp fun j c' hadv hc σ hσ hfalse => ?_
  obtain ⟨c₂, ⟨rfl, m, d, hremasks⟩, rfl⟩ := hc
  have hsound := h.advances hadv
  obtain ⟨hmask, hlanes⟩ := hremasks.mask_false hi hi hσ hfalse
  -- the name is as it was, so the strategy is the one that was used
  have hstrategy' : c₂.strategies.get (c₂.graph.op j).name = s := by
    rw [hremasks.name hi, hremasks.strategies]
    exact hstrategy
  rw [acts_iff_of_mask_false hsound hstrategy' huses hmask hlanes]
  exact (and_iff_right rfl).symm

/-! ## Conditionals -/

/-- Conditional `n` has the condition `cond`, and the operations in `e`, the only block of its second
region, have no effects. -/
structure Guards (g : Graph) (n : OpId) (e : BlockId) (cond : Option ValueId) : Prop where
  name : (g.op n).name = Kinds.ifElse
  second : (g.op n).regions[1]? = some [e]
  condition : g.segmentValue? n Seg.condition = some cond
  quiet : ∀ j ∈ (g.block e).ops, ∃ k, (g.op j).kind = some k ∧ k.effects = .none

/-- A `Finished` conditional has constants and a yield in its second block, none of which has
effects. -/
theorem Finished.quiet {n : OpId} {pred : Option ValueId} {b t e : BlockId} {k : Nat}
    (h : Finished c d i pred b k n t e) :
    ∀ j ∈ (d.graph.block e).ops, ∃ k, (d.graph.op j).kind = some k ∧ k.effects = .none := by
  obtain ⟨zs, y, hops, hzeros, hyield⟩ := h.second
  replace hyield : (d.graph.op y).name = Kinds.yield := hyield.name
  have hnames : ∀ z ∈ zs, (d.graph.op z).name = Kinds.constant := by
    generalize c.graph.resultTypes i = types at hzeros
    clear hops
    induction hzeros with
    | nil => exact fun z hz => absurd hz List.not_mem_nil
    | cons hzero _ ih => exact List.forall_mem_cons.mpr ⟨hzero.name, ih⟩
  intro j hj
  rw [hops] at hj
  rcases List.mem_append.mp hj with hj | hj
  · exact ⟨{ name := Kinds.constant },
      h.sound.kinds.builtin j _ (by rw [hnames j hj]; decide), rfl⟩
  · rw [List.mem_singleton.mp hj]
    exact ⟨{ name := Kinds.yield, isTerminator := true },
      h.sound.kinds.builtin y _ (by rw [hyield]; decide), rfl⟩

/-- A `Finished` conditional that takes the place of `i` has `pred` as its condition, unless that
was emptied with `i`. -/
theorem Finished.guards {n : OpId} {b t e : BlockId} {k : Nat}
    (h : Finished c d i (some pred) b k n t e) (hi : c.graph.HasOp i)
    (hresult : pred ∉ (c.graph.op i).results) : ∃ cond, (cond = some pred ∨ cond = none) ∧
      Guards (d.graph.replaced i ((d.graph.op n).results.map some)) n e cond := by
  have hwf := h.sound.graph
  have hrow (j : OpId) : ∃ block erased,
      (d.graph.replaced i ((d.graph.op n).results.map some)).op j =
        { d.graph.op j with block, erased } := by
    rw [Graph.replaced, Graph.op_felled, Graph.op_replaceAll]
    exact ⟨_, _, rfl⟩
  obtain ⟨s, hs, hvalue⟩ := List.map_eq_singleton_iff.mp h.cond.operands
  have hrowi : d.graph.op i = c.graph.op i := h.raised.enlarges.op i hi
  have hne : i ≠ n := by
    rintro rfl
    exact h.raised.new hi
  -- the predicate is none of the results that are redirected, and these are redirected at once
  have hredirected : ((replaceAll d.graph ((d.graph.op i).results.zip
      ((d.graph.op n).results.map some))).slot s).value = some pred := by
    rw [Graph.held_replaceAll hwf, hvalue, Graph.redirected_of_not_mem]
    · rintro p hp ⟨⟩
      rw [hrowi] at hp
      exact hresult (List.of_mem_zip hp).1
    · intro p hp
      exact Graph.hasOptValue_of_mem_map (fun v hv => (hwf.owned.mem_results_iff.mp hv).1) p.2
        (List.of_mem_zip hp).2
    · intro p hp q hq heq
      exact not_mem_map_results hwf.owned hne (List.of_mem_zip hq).1 (heq ▸ (List.of_mem_zip hp).2)
  obtain ⟨_, _, hrown⟩ := hrow n
  refine ⟨((d.graph.replaced i ((d.graph.op n).results.map some)).slot s).value, ?_, ?_, ?_, ?_, ?_⟩
  · rw [Graph.replaced, (Graph.slot_felled i s).2, hredirected]
    split
    · exact Or.inr rfl
    · exact Or.inl rfl
  · rw [hrown]
    exact h.cond.name
  · rw [hrown, h.arms.regions]
    rfl
  · unfold Graph.segmentValue? Op.segment?
    rw [hrown, h.cond.segments, hs]
    rfl
  · -- erasing takes nothing into the block
    intro j hj
    obtain ⟨_, _, hrowj⟩ := hrow j
    rw [hrowj]
    apply h.quiet j
    rw [Graph.block_replaced] at hj
    split at hj
    · exact List.mem_of_mem_erase hj
    · exact hj

theorem leads_predicateWithBranch_guards (h : c.Sound) (hplaced : (c.graph.op i).block.isSome)
    (hpred : c.graph.HasValue pred) (hresult : pred ∉ (c.graph.op i).results) :
    (predicateWithBranch i (some pred)).Leads c fun n c' => ∃ e cond,
      (cond = some pred ∨ cond = none) ∧ Guards c'.graph n e cond := by
  obtain ⟨b, hb⟩ := Option.isSome_iff_exists.mp hplaced
  obtain ⟨k, hk⟩ := exists_at_of_before h.graph.members hb
  have hends : (predicateWithBranch i (some pred)).Ends c (fun n c' => ∃ e cond,
      (cond = some pred ∨ cond = none) ∧ Guards c'.graph n e cond) fun _ _ => True := by
    refine ends_predicateWithBranch h hb hk hpred.opt (fun d n t e hdone _ => ?_)
      fun d n t e ty _ _ _ => ⟨fun _ _ _ => trivial, fun _ _ _ => trivial⟩
    refine ⟨fun u d' hok => ?_, fun _ _ _ => trivial⟩
    have hvals : ∀ v ∈ (d.graph.op n).results.map some, d.graph.HasOptValue v :=
      Graph.hasOptValue_of_mem_map fun v hv => (hdone.sound.graph.owned.mem_results_iff.mp hv).1
    obtain ⟨-, -, herase⟩ := (leads_replaceOp hdone.sound i hvals).of_ok hok
    obtain ⟨-, -, hgraph⟩ := Graph.erase_eq_ok_iff.mp herase
    obtain ⟨cond, hcond, hguards⟩ := hdone.guards (Graph.hasOp_of_block_eq_some hb) hresult
    refine ⟨e, cond, hcond, ?_⟩
    rw [hgraph]
    exact hguards
  exact hends.leads (leads_predicateWithBranch_any h i hpred.opt)

/-- The second block of a conditional that `Guards` does nothing. -/
theorem not_elseActs_of_guards {e : BlockId} {cond : Option ValueId}
    (hguards : Guards c.graph i e cond) : ¬ ElseActs c σ i := by
  rintro ⟨-, b, ⟨blocks, hblocks, hb⟩, j, hj, hacts⟩
  rw [hguards.second] at hblocks
  cases hblocks
  rw [List.mem_singleton.mp hb] at hj
  obtain ⟨k, hk, hnone⟩ := hguards.quiet j hj
  exact hacts.effects_ne_none hk hnone

/-- A conditional that `Guards` does not act where its condition is false. -/
theorem not_acts_of_guards (h : c.Sound) {e : BlockId} {cond : Option ValueId}
    (hguards : Guards c.graph i e cond) (hfalse : ∀ v ∈ cond, σ v [] = false) :
    ¬ c.Acts σ i := by
  have hholds : ¬ c.graph.ConditionHolds σ i := by
    rintro ⟨v, hv, htrue⟩
    rw [hguards.condition] at hv
    rw [hfalse v (Option.some.inj hv)] at htrue
    cases htrue
  rw [acts_iff_elseActs h hguards.name hholds]
  exact not_elseActs_of_guards hguards

/-! ## All strategies -/

/-- `predicateOp` by the strategy of the kind of `i`. -/
theorem leads_predicateOp_acts (h : c.Sound) (hplaced : (c.graph.op i).block.isSome)
    (hstrategy : c.strategies.get (c.graph.op i).name = s)
    (hkind : s.kind = .condition ∨ s.kind = .mask ∨ s.kind = .branch)
    (hpred : c.graph.HasValue pred)
    (hresult : s.kind = .branch → pred ∉ (c.graph.op i).results) :
    (predicateOp i (some pred)).Leads c fun j c' => ∀ σ, c'.graph.Obeys c.graph.ops.size σ →
      (∀ pos, σ pred pos = false) → (c'.Acts σ j ↔ j = i ∧ ElseActs c' σ i) := by
  refine leads_graph.bind fun g c₁ _ hc => ?_
  obtain ⟨rfl, rfl⟩ := hc
  dsimp only
  split
  · next hfree =>
    -- what is free of effects is left as it is, and nothing in it acts
    refine .pure fun σ _ _ => iff_of_false (fun hacts => ?_) fun helse => ?_
    · have heffects := hacts.effectFreeTo c₁.graph.ops.size
      exact Bool.eq_false_iff.mp heffects hfree
    · exact Bool.eq_false_iff.mp (helse.2.isEffectFree h) hfree
  refine leads_get.bind fun d c₂ _ hc => ?_
  obtain ⟨rfl, rfl⟩ := hc
  rw [hstrategy]
  refine (gives_trace 2 _).leads.bind fun _ c₃ hadv hc => ?_
  obtain ⟨log, rfl⟩ := hc
  have hsound := h.advances hadv
  rcases hkind with hkind | hkind | hkind <;> rw [hkind]
  · refine leads_predicateSegment_acts hsound hplaced hstrategy ?_ hpred
    rw [hkind]
    rfl
  · refine leads_predicateSegment_acts hsound hplaced hstrategy ?_ hpred
    rw [hkind]
    rfl
  · refine leads_cursor.bind fun p c₄ _ hc => ?_
    obtain ⟨rfl, rfl⟩ := hc
    refine (leads_predicateWithBranch_guards hsound hplaced hpred (hresult hkind)).bind
      fun j c₅ hadv' hc => ?_
    obtain ⟨e, cond, hcond, hguards⟩ := hc
    have hsound' := hsound.advances hadv'
    have hquiet : ∀ {c' : Context}, c'.Sound → c'.graph = c₅.graph → ∀ σ : ValueId → Lanes,
        (∀ pos, σ pred pos = false) → (c'.Acts σ j ↔ j = i ∧ ElseActs c' σ i) := by
      intro c' h' hgraph σ hfalse
      rw [← hgraph] at hguards
      refine iff_of_false (not_acts_of_guards h' hguards fun v hv => ?_) ?_
      · rcases hcond with rfl | rfl
        · cases hv
          exact hfalse []
        · cases hv
      · rintro ⟨rfl, helse⟩
        exact not_elseActs_of_guards hguards helse
    -- the cursor may have to move, the graph is done
    split
    · refine (leads_moveBefore hsound' j).bind fun _ c₆ hadv'' hc => .pure fun σ _ => ?_
      obtain ⟨b, -, rfl⟩ := hc
      exact hquiet (hsound'.advances hadv'') rfl σ
    · exact .pure fun σ _ => hquiet hsound' rfl σ

end Predication

/-- Where `pred` is false, an operation that was predicated through its mask, its condition or a
conditional around it does not act, with one exception: the second region of a conditional is not
predicated, and the false condition makes it run (`ElseActs`). The results of an operation that is
put into a conditional are replaced everywhere, so `pred` must not be one of them. -/
theorem acts_predicated_iff {c c' : Context} (h : Reachable c) {i j : OpId} {pred : ValueId}
    (hplaced : (c.graph.op i).block.isSome) {s : Strategy}
    (hstrategy : c.strategies.get (c.graph.op i).name = s)
    (hkind : s.kind = .condition ∨ s.kind = .mask ∨ s.kind = .branch)
    (hpred : c.graph.HasValue pred) (hresult : s.kind = .branch → pred ∉ (c.graph.op i).results)
    (hrun : Predication.predicateOp i (some pred) c = .ok j c') {σ : ValueId → Lanes}
    (hσ : c'.graph.Obeys c.graph.ops.size σ) (hfalse : ∀ pos, σ pred pos = false) :
    c'.Acts σ j ↔ j = i ∧ Predication.ElseActs c' σ i := by
  have hleads := Predication.leads_predicateOp_acts h.sound hplaced hstrategy hkind hpred hresult
  exact (hleads.of_ok hrun).2 σ hσ hfalse

/-- In `awaiting` the wait acts, and the conditional that it is put into does not if the predicate
is false. -/
theorem awaiting_suppressed :
    ∃ j c', Predication.predicateOp ⟨1⟩ (some ⟨1⟩) (Request.run awaiting {}) = .ok j c' ∧
      (∀ σ, (Request.run awaiting {}).Acts σ ⟨1⟩) ∧
      ∀ σ, c'.graph.Obeys (Request.run awaiting {}).graph.ops.size σ →
        (∀ pos, σ ⟨1⟩ pos = false) → ¬ c'.Acts σ j := by
  have hok : (match Predication.predicateOp ⟨1⟩ (some ⟨1⟩) (Request.run awaiting {}) with
      | .ok j _ => decide (j ≠ ⟨1⟩)
      | .error _ _ => false) = true := by decide +kernel
  have hstrategy : (Request.run awaiting {}).strategies.get
      ((Request.run awaiting {}).graph.op ⟨1⟩).name = { kind := .branch } := by decide +kernel
  have heffects : ((Request.run awaiting {}).graph.op ⟨1⟩).kind.map OpKind.effects =
      some .readWrite := by decide +kernel
  have hresult : (⟨1⟩ : ValueId) ∉ ((Request.run awaiting {}).graph.op ⟨1⟩).results := by
    decide +kernel
  cases hrun : Predication.predicateOp ⟨1⟩ (some ⟨1⟩) (Request.run awaiting {}) with
  | error e c' =>
    rw [hrun] at hok
    cases hok
  | ok j c' =>
    rw [hrun] at hok
    refine ⟨j, c', rfl, fun σ => .own (fun _ huses => ?_) fun k hk => ?_, fun σ hσ hfalse => ?_⟩
    · rw [hstrategy] at huses
      cases huses
    · rw [hk] at heffects
      rw [Option.some.inj heffects]
      exact ⟨nofun, nofun⟩
    · rw [acts_predicated_iff reachable_awaiting (by decide +kernel) hstrategy
        (Or.inr (Or.inr rfl)) (by decide +kernel) (fun _ => hresult) hrun hσ hfalse]
      exact fun hj => of_decide_eq_true hok hj.1

/-- A `func` that stores in the second region of a conditional. -/
def alternative : List Request := [
  .createDetached { name := Kinds.func },
  .addBlock ⟨0⟩ 0,
  .addArgument ⟨0⟩ (some (.pointer none)),
  .addArgument ⟨0⟩ (some Ty.i1),
  .addArgument ⟨0⟩ (some Ty.i1),
  .moveToEnd (some ⟨0⟩),
  .create { name := Kinds.ifElse, segments := [[some ⟨1⟩]] },
  .addBlock ⟨1⟩ 0,
  .addBlock ⟨1⟩ 1,
  .moveToEnd (some ⟨1⟩),
  .create { name := Kinds.yield },
  .moveToEnd (some ⟨2⟩),
  .create { name := Kinds.store, segments := [[some ⟨0⟩], [some ⟨0⟩], []] },
  .create { name := Kinds.yield },
  .moveToEnd (some ⟨0⟩),
  .create { name := Kinds.ret }]

/-- In `alternative`, predicated with a false predicate, the conditional runs the store of its
second region, which has no mask. -/
theorem alternative_stores :
    Reachable (Request.run alternative {}) ∧
      ((Request.run alternative {}).graph.op ⟨1⟩).block.isSome ∧
      ((Request.run alternative {}).strategies.get
        ((Request.run alternative {}).graph.op ⟨1⟩).name).kind = .condition ∧
      (Request.run alternative {}).graph.HasValue ⟨2⟩ ∧
      (Request.run alternative {}).graph.verify ⟨0⟩ = none ∧
      ∃ c', Predication.predicateOp ⟨1⟩ (some ⟨2⟩) (Request.run alternative {}) = .ok ⟨1⟩ c' ∧
        ∃ σ : ValueId → Lanes, c'.graph.Obeys (Request.run alternative {}).graph.ops.size σ ∧
          (∀ pos, σ ⟨2⟩ pos = false) ∧ c'.Acts σ ⟨1⟩ := by
  have hok : (match Predication.predicateOp ⟨1⟩ (some ⟨2⟩) (Request.run alternative {}) with
      | .ok j c' => decide (j = ⟨1⟩ ∧ (c'.graph.op ⟨1⟩).regions[1]? = some [⟨2⟩] ∧
          ⟨3⟩ ∈ (c'.graph.block ⟨2⟩).ops ∧
          (c'.graph.op ⟨1⟩).kind.map OpKind.effects = some .nested ∧
          (c'.graph.op ⟨3⟩).kind.map OpKind.effects = some .write ∧
          (c'.graph.op ⟨1⟩).name = Kinds.ifElse ∧
          c'.graph.segmentValue? ⟨3⟩ (c'.strategies.get (c'.graph.op ⟨3⟩).name).segment =
            some none)
      | .error _ _ => false) = true := by decide +kernel
  refine ⟨(Reachable.fresh .collect 0).run (by decide +kernel), by decide +kernel,
    by decide +kernel, by decide +kernel, by decide +kernel, ?_⟩
  cases hrun : Predication.predicateOp ⟨1⟩ (some ⟨2⟩) (Request.run alternative {}) with
  | error e c' =>
    rw [hrun] at hok
    cases hok
  | ok j c' =>
    rw [hrun] at hok
    obtain ⟨rfl, hregion, hmem, hnested, hwrite, hname, hmask⟩ := of_decide_eq_true hok
    refine ⟨c', rfl, fun _ _ => false, ⟨fun _ _ _ _ _ _ _ => rfl, fun _ _ _ _ _ _ _ _ => rfl⟩,
      fun _ => rfl, ?_⟩
    have hstore : c'.Acts (fun _ _ => false) ⟨3⟩ := by
      refine .own (fun _ _ v hv => ?_) fun k hk => ?_
      · cases hmask.symm.trans hv
      · rw [hk] at hwrite
        rw [Option.some.inj hwrite]
        exact ⟨nofun, nofun⟩
    obtain ⟨k, hkind, hnested⟩ := Option.map_eq_some_iff.mp hnested
    refine .inner (fun hne => absurd hname hne) hkind hnested
      ⟨1, ⟨[⟨2⟩], hregion, List.mem_singleton_self _⟩, fun _ => Or.inr ⟨rfl, ?_⟩⟩ hmem hstore
    rintro ⟨v, -, htrue⟩
    cases htrue

end Multistage
