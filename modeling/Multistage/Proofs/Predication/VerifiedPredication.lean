import Multistage.Proofs.Build.Reachable
import Multistage.Proofs.Predication.Branching

/-!
# Predication keeps operations verified

An operation inside a verified one is predicated by a value that it sees. Whatever the strategy of
its kind, the outer operation is still verified afterwards.
-/

namespace Multistage

open BuildM Build

namespace Predication

variable {c : Context} {root i : OpId} {pred : ValueId}

/-- `predicateSegment` from anywhere: the cursor moves to `i` for the time being. -/
theorem leads_predicateSegment_keepingPoint (h : c.Sound) (hverified : c.graph.Verified root [])
    (hinside : c.graph.Inside root i) (hpred : c.Sees i pred) (s : Strategy) :
    Leads (keepingPoint do
      moveBefore i
      predicateSegment i s (some pred)
      return i) c fun _ c' => c'.graph.Verified root [] := by
  refine (meets_keepingPoint (P := fun _ d => d.graph.Verified root []) (R := fun _ _ => True)
    h ?_).leads.imp fun _ c' _ hc => ?_
  · refine (leads_moveBefore h i).bind fun _ c₁ hadv hc => ?_
    obtain ⟨b, hb, rfl⟩ := hc
    have hpoised : Poised { c with cursor := { c.cursor with block := some b, before := some i } }
        root i := ⟨h.advances hadv, hverified, hinside, hb.symm, rfl⟩
    exact (leads_predicateSegment hpoised hpred s).bind fun _ _ _ hc => .pure hc
  · obtain ⟨d, hd, rfl⟩ := hc
    exact hd

/-- `predicateOp` by the strategy of the kind of `i`. Only operations without regions are put into a
conditional. -/
theorem leads_predicateOp (h : c.Sound) (hverified : c.graph.Verified root [])
    (hinside : c.graph.Inside root i) (hroot : i ≠ root) {s : Strategy}
    (hstrategy : c.strategies.find? (c.graph.op i).name = some s)
    (hleaf : s.kind = .branch → (c.graph.op i).regions = [])
    (hlast : ¬ c.graph.ClosesBlock i) (hpred : c.Sees i pred) :
    (predicateOp i (some pred)).Leads c fun _ c' => c'.graph.Verified root [] := by
  refine leads_graph.bind fun g c₁ _ hc => ?_
  obtain ⟨rfl, rfl⟩ := hc
  dsimp only
  split
  · exact .pure hverified
  refine leads_get.bind fun d c₂ _ hc => ?_
  obtain ⟨rfl, rfl⟩ := hc
  have hget : c₂.strategies.get (c₂.graph.op i).name = s := by
    rw [StrategyTable.get, hstrategy]
    rfl
  rw [hget]
  -- the trace leaves the graph alone, so what is known of it carries over
  refine (leads_trace 2 _).bind fun _ c₃ hadv hgraph => ?_
  have hsound := h.advances hadv
  rw [← hgraph] at hverified hinside hleaf hlast
  have hpred : c₃.Sees i pred := by
    rw [Context.Sees, hgraph]
    exact hpred
  cases hkind : s.kind with
  | exempt => exact .pure hverified
  | tokenConsume => exact .pure hverified
  | condition => exact leads_predicateSegment_keepingPoint hsound hverified hinside hpred s
  | mask => exact leads_predicateSegment_keepingPoint hsound hverified hinside hpred s
  | branch =>
    refine leads_cursor.bind fun p c₄ _ hc => ?_
    obtain ⟨rfl, rfl⟩ := hc
    refine (leads_predicateWithBranch hsound hverified hinside hroot (hleaf hkind) hlast
      hpred).bind fun n c₅ hadv hdone => ?_
    -- the cursor may have to move, the graph is done
    split
    · refine (leads_moveBefore (hsound.advances hadv) n).bind fun _ c₆ _ hc => .pure ?_
      obtain ⟨b, -, rfl⟩ := hc
      exact hdone
    · exact .pure hdone
  | unsupported => exact (leads_emit _ _ _).bind fun _ _ _ _ => .throw
  | other code => exact (leads_emit _ _ _).bind fun _ _ _ _ => .throw

end Predication

/-- `predicateOp` leaves `root` verified. Operation `i` is of a kind with a built-in strategy, has
no regions unless it is a conditional, and does not end a block that has to end in some way; `pred`
passes the check of definitions as an operand of it. -/
theorem verify_predicateOp {c c' : Context} (h : Reachable c) {root i j : OpId} {s : Strategy}
    {pred : ValueId} {n : Nat} (hverify : c.graph.verify root = none)
    (hinside : c.graph.isAncestorOf root i = true) (hroot : i ≠ root)
    (hstrategy : StrategyTable.builtin.find? (c.graph.op i).name = some s)
    (hregions : (c.graph.op i).regions = [] ∨ (c.graph.op i).name = Kinds.ifElse)
    (hlast : ¬ c.graph.ClosesBlock i) (hpred : c.graph.HasValue pred)
    (hdefined : c.graph.definitionFlaw i n pred = none)
    (hrun : Predication.predicateOp i (some pred) c = .ok j c') : c'.graph.verify root = none := by
  have hsound := h.sound
  have hin := Graph.inside_of_isAncestorOf hinside
  have hthere := hin.hasOp_root hsound.graph hroot
  have hverified := (Graph.verify_eq_none_iff hsound.graph hthere).mp hverify
  have hsees : c.Sees i pred :=
    ⟨hpred, (Graph.definitionFlaw_eq_none_iff hsound.graph.members).mp hdefined⟩
  have hleaf : s.kind = .branch → (c.graph.op i).regions = [] := by
    intro hkind
    -- conditionals have another strategy
    refine hregions.resolve_right fun hname => ?_
    have hconditional : StrategyTable.builtin.find? Kinds.ifElse =
        some { kind := .condition, segment := Seg.condition } := by decide
    rw [hname, hconditional] at hstrategy
    cases hstrategy
    cases hkind
  have hleads := Predication.leads_predicateOp hsound hverified hin hroot
    (hsound.strategies _ _ hstrategy) hleaf hlast hsees
  obtain ⟨hadv, hverified'⟩ := hleads.of_ok hrun
  exact (Graph.verify_eq_none_iff (hsound.advances hadv).graph (hadv.within.hasOp hthere)).mpr
    hverified'

/-- A `func` that waits for a signal and returns what it gets. -/
def awaiting : List Request := [
  .createDetached { name := Kinds.func },
  .addBlock ⟨0⟩ 0,
  .addArgument ⟨0⟩ none,
  .addArgument ⟨0⟩ (some Ty.i1),
  .moveToEnd (some ⟨0⟩),
  .create { name := Kinds.wait, segments := [[some ⟨0⟩], [some ⟨0⟩]], results := [some Ty.i1] },
  .create { name := Kinds.ret, operands := [some ⟨2⟩] }]

theorem reachable_awaiting : Reachable (Request.run awaiting {}) :=
  (Reachable.fresh .collect 0).run (by decide +kernel)

/-- In `awaiting` the wait is put into a conditional. -/
theorem verify_awaiting_predicated :
    ∃ j c', Predication.predicateOp ⟨1⟩ (some ⟨1⟩) (Request.run awaiting {}) = .ok j c' ∧
      j ≠ ⟨1⟩ ∧ c'.graph.verify ⟨0⟩ = none := by
  have hok : (match Predication.predicateOp ⟨1⟩ (some ⟨1⟩) (Request.run awaiting {}) with
      | .ok j _ => decide (j ≠ ⟨1⟩)
      | .error _ _ => false) = true := by decide +kernel
  have hlast : ¬ (Request.run awaiting {}).graph.ClosesBlock ⟨1⟩ := by
    rintro ⟨b, p, t, hb, -, -, hlast⟩
    have hblock : ((Request.run awaiting {}).graph.op ⟨1⟩).block = some ⟨0⟩ := by decide +kernel
    rw [hblock] at hb
    cases hb
    revert hlast
    decide +kernel
  cases hrun : Predication.predicateOp ⟨1⟩ (some ⟨1⟩) (Request.run awaiting {}) with
  | error e c' =>
    rw [hrun] at hok
    cases hok
  | ok j c' =>
    rw [hrun] at hok
    refine ⟨j, c', rfl, of_decide_eq_true hok, ?_⟩
    exact verify_predicateOp reachable_awaiting (n := 0) (by decide +kernel) (by decide +kernel)
      (by decide) (s := { kind := .branch }) (by decide +kernel) (Or.inl (by decide +kernel)) hlast
      (by decide +kernel) (by decide +kernel) hrun

end Multistage
