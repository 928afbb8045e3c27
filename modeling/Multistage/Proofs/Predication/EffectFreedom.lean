import Multistage.Predication.Basic
import Multistage.Proofs.Graph.OperandChanges
import Multistage.Proofs.Tree.Walking

/-!
# What freedom from effects says about the operations inside

The check for effects goes down into an operation whose kind has the effects of what is inside it,
and takes the word of a kind that has none. So it vouches for the operations that it comes to, and
not for those inside one of a kind without effects (`isEffectFree_iff_exposed`): a module is of such
a kind, and counts as free of effects whatever its functions do (`sheltered_module_stores`).
-/

namespace Multistage

namespace Graph

variable {g : Graph} {i : OpId}

/-- The kind of `i` is known and has no effects, whatever is inside. -/
def isPure (g : Graph) (i : OpId) : Bool :=
  (g.op i).kind.any fun k => k.effects == .none

/-- The kind of `i` is known and has no effects of its own. -/
def isQuiet (g : Graph) (i : OpId) : Bool :=
  (g.op i).kind.any fun k => k.effects == .none || k.effects == .nested

theorem isQuiet_iff : g.isQuiet i = true ↔
    ∃ k, (g.op i).kind = some k ∧ (k.effects = .none ∨ k.effects = .nested) := by
  simp [isQuiet, Option.any_eq_true]

theorem isPure_of_kind {k : OpKind} (hk : (g.op i).kind = some k) :
    g.isPure i = true ↔ k.effects = .none := by
  rw [isPure, hk, Option.any_some, beq_iff_eq]

/-- One comes down from `i` to an operation without passing through a pure one. -/
inductive Exposed (g : Graph) (i : OpId) : OpId → Prop
  | root : Exposed g i i
  | step {j p : OpId} (hp : g.parent j = some p) (hpure : g.isPure p = false)
      (h : Exposed g i p) : Exposed g i j

namespace Exposed

theorem inside {j : OpId} (h : g.Exposed i j) : g.Inside i j := by
  induction h with
  | root => exact .root
  | step hp _ _ ih => exact .step hp ih

/-- The way down may start one level higher, at `i`. -/
theorem of_child {c j : OpId} (hc : g.parent c = some i) (hpure : g.isPure i = false)
    (h : g.Exposed c j) : g.Exposed i j := by
  induction h with
  | root => exact .step hc hpure .root
  | step hp hpure _ ih => exact .step hp hpure ih

/-- The way down has no level, or goes on from an operation `c` directly inside `i`. -/
theorem eq_or_child {j : OpId} (h : g.Exposed i j) :
    j = i ∨ g.isPure i = false ∧ ∃ c, g.parent c = some i ∧ g.Exposed c j := by
  induction h with
  | root => exact Or.inl rfl
  | @step j p hp hpure _ ih =>
    rcases ih with rfl | ⟨hi, c, hc, hcp⟩
    · exact Or.inr ⟨hpure, j, hp, .root⟩
    · exact Or.inr ⟨hi, c, hc, .step hp hpure hcp⟩

end Exposed

section

variable (hwf : g.WellFormed)

include hwf

/-- In a tree, `j` is `Exposed` if none of the operations around it up to `i` is pure. -/
theorem exposed_iff (htree : g.FiniteTree i) {j : OpId} (hj : g.Inside i j) :
    g.Exposed i j ↔ ∀ p, g.Inside i p → g.Inside p j → p ≠ j → g.isPure p = false := by
  constructor
  · intro h
    clear hj
    induction h with
    | root => exact fun p hin hback hne => absurd hback (htree.not_inside_of_inside hwf hin hne)
    | @step j q hq hpure _ ih =>
      intro p hin hpj hne
      -- the last step down is from `q`, which is not pure; what is around `q` comes by induction
      cases hpj with
      | root => exact absurd rfl hne
      | step hp hpq =>
        rw [hq] at hp
        cases hp
        by_cases hpq' : p = q
        · exact hpq' ▸ hpure
        · exact ih p hin hpq hpq'
  · intro hall
    induction hj with
    | root => exact .root
    | @step j q hq hin ih =>
      -- in a tree no operation is around itself, so `q` is another one than `j`
      have hnot := (htree.of_inside hwf (.step hq hin)).not_inside_parent hwf hq
      refine .step hq (hall q hin (.step hq .root) ?_) (ih fun p hip hpq _ => ?_)
      · rintro rfl
        exact hnot .root
      · refine hall p hip (.step hq hpq) ?_
        rintro rfl
        exact hnot hpq

/-- `effectFreeTo` at a sufficient depth holds exactly if all that is `Exposed` is quiet. The
induction is on the depth `n`, and follows the check down the tree. -/
theorem effectFreeTo_iff_exposed {n : Nat} (hfits : g.Fits n i) :
    g.effectFreeTo n i = true ↔ ∀ j, g.Exposed i j → g.isQuiet j = true := by
  induction n generalizing i with
  | zero => exact hfits.elim
  | succ n ih =>
    have hchild : ∀ c, g.parent c = some i → g.Fits n c := fun c hc =>
      hfits c ((mem_children_iff hwf).mpr hc)
    rw [effectFreeTo_succ_iff]
    constructor
    · rintro ⟨k, hk, heffects⟩ j hj
      rcases hj.eq_or_child with rfl | ⟨hpure, c, hc, hcj⟩
      · exact isQuiet_iff.mpr ⟨k, hk, heffects.imp_right And.left⟩
      · -- what is not pure is checked inside
        obtain ⟨-, hall⟩ := heffects.resolve_left fun hnone =>
          Bool.eq_false_iff.mp hpure ((isPure_of_kind hk).mpr hnone)
        have hfree := hall c ((mem_children_iff hwf).mpr hc)
        exact (ih (hchild c hc)).mp hfree j hcj
    · intro hquiet
      obtain ⟨k, hk, heffects⟩ := isQuiet_iff.mp (hquiet i .root)
      refine ⟨k, hk, heffects.imp_right fun hnested => ⟨hnested, fun c hc => ?_⟩⟩
      -- a kind with the effects of what is inside is not pure, so what is inside is exposed
      have hpure : g.isPure i = false := by
        rw [Bool.eq_false_iff, ne_eq, isPure_of_kind hk, hnested]
        exact Effects.noConfusion
      have hc := (mem_children_iff hwf).mp hc
      exact (ih (hchild c hc)).mpr fun j hj => hquiet j (hj.of_child hc hpure)

theorem isEffectFree_iff_exposed (htree : g.FiniteTree i) (hi : g.HasOp i) :
    g.isEffectFree i = true ↔ ∀ j, g.Exposed i j → g.isQuiet j = true :=
  effectFreeTo_iff_exposed hwf (htree.fits hwf hi)

/-- All of the tree of `i` is quiet exactly if `isEffectFree` holds and the trees of the pure
operations in it, into which it does not look, are quiet. -/
theorem all_quiet_iff (htree : g.FiniteTree i) (hi : g.HasOp i) :
    (∀ j, g.Inside i j → g.isQuiet j = true) ↔
      g.isEffectFree i = true ∧
        ∀ p, g.Inside i p → g.isPure p = true → ∀ j, g.Inside p j → g.isQuiet j = true := by
  rw [isEffectFree_iff_exposed hwf htree hi]
  constructor
  · intro hall
    exact ⟨fun j hj => hall j hj.inside, fun p hp _ j hj => hall j (hp.trans hj)⟩
  · rintro ⟨hexposed, hpure⟩ j hj
    by_cases h : g.Exposed i j
    · exact hexposed j h
    · -- what is not exposed is inside a pure operation
      rw [exposed_iff hwf htree hj] at h
      push Not at h
      obtain ⟨p, hin, hpj, -, hp⟩ := h
      exact hpure p hin (by simpa using hp) j hpj

end

end Graph

/-! ## Walks and predication -/

namespace Build

open BuildM

/-- `walk` with visits that do nothing but note what they are given notes `postorder`. -/
theorem walk_recording_idle {c : Context} (h : Reachable c) {i : OpId}
    (htree : c.graph.FiniteTree i) :
    walk (recording fun _ _ => pure ()) ((), []) i c = .ok ((), c.graph.postorder i) c := by
  have hprunes : Prunes fun (_ : Unit) _ => pure () := by
    intro acc j d acc' d' hok
    cases hok
    exact .refl _ _
  rw [walk_eq_foldlM h.sound.graph (Graph.BlocksOnce.reachable h) hprunes.recording htree,
    foldlM_recording, List.foldlM_pure]
  rfl

end Build

namespace Predication

open BuildM Build

theorem predicateOp_of_isEffectFree {c : Context} {i : OpId} (hfree : c.graph.isEffectFree i = true)
    (pred : Option ValueId) : predicateOp i pred c = .ok i c := by
  have hgraph : graph c = .ok c.graph c := rfl
  rw [predicateOp, bind_of_ok hgraph, if_pos hfree]
  rfl

/-- `isEffectFree` holds exactly if the operations that `walk` visits are of known kinds without
effects of their own, as far as no pure operation is around them (`Exposed`). All of them are quiet
exactly if `isEffectFree` holds and all that is inside the pure ones is quiet. `predicateOp` leaves
what is free of effects as it is. -/
theorem effectFree_iff_exposed_quiet {c : Context} (h : Reachable c) {i : OpId}
    (hi : c.graph.HasOp i) (htree : c.graph.FiniteTree i) :
    walk (recording fun _ _ => pure ()) ((), []) i c = .ok ((), c.graph.postorder i) c ∧
      (c.graph.isEffectFree i = true ↔
        ∀ j ∈ c.graph.postorder i,
          (∀ p ∈ c.graph.postorder i, c.graph.isAncestorOf p j = true → p ≠ j →
            c.graph.isPure p = false) → c.graph.isQuiet j = true) ∧
      ((∀ j ∈ c.graph.postorder i, c.graph.isQuiet j = true) ↔
        c.graph.isEffectFree i = true ∧
          ∀ p ∈ c.graph.postorder i, c.graph.isPure p = true →
            ∀ j ∈ c.graph.postorder i, c.graph.isAncestorOf p j = true →
              c.graph.isQuiet j = true) ∧
      ∀ pred, c.graph.isEffectFree i = true → predicateOp i pred c = .ok i c := by
  have hwf := h.sound.graph
  -- both lists are of what is inside, and an ancestor of something is what it is inside of
  have hmem : ∀ j, j ∈ c.graph.postorder i ↔ c.graph.Inside i j := fun _ =>
    Graph.mem_postorder_iff hwf hi
  have haround : ∀ {p j}, c.graph.Inside i p →
      (c.graph.isAncestorOf p j = true ↔ c.graph.Inside p j) := fun hp =>
    Graph.isAncestorOf_iff (hp.hasOp hi)
  refine ⟨walk_recording_idle h htree, ?_, ?_, fun pred hfree =>
    predicateOp_of_isEffectFree hfree pred⟩
  · rw [Graph.isEffectFree_iff_exposed hwf htree hi]
    simp only [hmem]
    constructor
    · intro hall j hj hpure
      refine hall j ((Graph.exposed_iff hwf htree hj).mpr fun p hp hpj => ?_)
      exact hpure p hp ((haround hp).mpr hpj)
    · intro hall j hj
      refine hall j hj.inside fun p hp hpj => ?_
      exact (Graph.exposed_iff hwf htree hj.inside).mp hj p hp ((haround hp).mp hpj)
  · simp only [hmem]
    rw [Graph.all_quiet_iff hwf htree hi]
    refine and_congr_right fun _ => forall₃_congr fun p hp _ =>
      ⟨fun hall j _ hj => ?_, fun hall j hj => ?_⟩
    · exact hall j ((haround hp).mp hj)
    · exact hall j (hp.trans hj) ((haround hp).mpr hj)

end Predication

/-- A module with a `func` that has a loop, a store and a return. In the loop are a sum and a yield.
-/
def sheltered : List Request := [
  .createDetached { name := Kinds.module },
  .addBlock ⟨0⟩ 0,
  .moveToEnd (some ⟨0⟩),
  .create { name := Kinds.func },
  .addBlock ⟨1⟩ 0,
  .addArgument ⟨1⟩ (some (.pointer (some Ty.i32))),
  .addArgument ⟨1⟩ (some Ty.i32),
  .addArgument ⟨1⟩ (some Ty.i1),
  .moveToEnd (some ⟨1⟩),
  .create { name := Kinds.forLoop, segments := [[some ⟨1⟩], [some ⟨1⟩], [some ⟨1⟩]] },
  .create { name := Kinds.store, segments := [[some ⟨0⟩], [some ⟨1⟩]] },
  .create { name := Kinds.ret },
  .addBlock ⟨2⟩ 0,
  .addArgument ⟨2⟩ (some Ty.i32),
  .moveToEnd (some ⟨2⟩),
  .create { name := Kinds.addI, operands := [some ⟨3⟩, some ⟨1⟩], results := [some Ty.i32] },
  .create { name := Kinds.yield }]

theorem reachable_sheltered : Reachable (Request.run sheltered {}) :=
  (Reachable.fresh .collect 0).run (by decide +kernel)

theorem finiteTree_sheltered : (Request.run sheltered {}).graph.FiniteTree ⟨0⟩ :=
  Graph.Fits.finiteTree (n := 4) (by decide +kernel)

/-- In `sheltered` the loop is free of effects, and so is all that is in it. The `func` is not, on
account of the store. -/
theorem sheltered_loop_quiet :
    Build.walk (Build.recording fun _ _ => pure ()) ((), []) ⟨2⟩ (Request.run sheltered {}) =
        .ok ((), (Request.run sheltered {}).graph.postorder ⟨2⟩) (Request.run sheltered {}) ∧
      (Request.run sheltered {}).graph.postorder ⟨2⟩ = [⟨5⟩, ⟨6⟩, ⟨2⟩] ∧
      (∀ j ∈ (Request.run sheltered {}).graph.postorder ⟨2⟩,
        (Request.run sheltered {}).graph.isQuiet j = true) ∧
      Predication.predicateOp ⟨2⟩ (some ⟨2⟩) (Request.run sheltered {}) =
        .ok ⟨2⟩ (Request.run sheltered {}) ∧
      ¬ (Request.run sheltered {}).graph.isEffectFree ⟨1⟩ = true := by
  -- what concerns this one graph is computed
  obtain ⟨hlist, hloop, hfunc, hinloop, hinfunc, hfree, hpure, hstore, haround, hwrites⟩ :
      (Request.run sheltered {}).graph.postorder ⟨2⟩ = [⟨5⟩, ⟨6⟩, ⟨2⟩] ∧
        (Request.run sheltered {}).graph.HasOp ⟨2⟩ ∧
        (Request.run sheltered {}).graph.HasOp ⟨1⟩ ∧
        (Request.run sheltered {}).graph.isAncestorOf ⟨0⟩ ⟨2⟩ = true ∧
        (Request.run sheltered {}).graph.isAncestorOf ⟨0⟩ ⟨1⟩ = true ∧
        (Request.run sheltered {}).graph.isEffectFree ⟨2⟩ = true ∧
        (∀ p ∈ (Request.run sheltered {}).graph.postorder ⟨2⟩,
          (Request.run sheltered {}).graph.isPure p = true →
            ∀ j ∈ (Request.run sheltered {}).graph.postorder ⟨2⟩,
              (Request.run sheltered {}).graph.isAncestorOf p j = true →
                (Request.run sheltered {}).graph.isQuiet j = true) ∧
        ⟨3⟩ ∈ (Request.run sheltered {}).graph.postorder ⟨1⟩ ∧
        (∀ p ∈ (Request.run sheltered {}).graph.postorder ⟨1⟩,
          (Request.run sheltered {}).graph.isAncestorOf p ⟨3⟩ = true → p ≠ ⟨3⟩ →
            (Request.run sheltered {}).graph.isPure p = false) ∧
        (Request.run sheltered {}).graph.isQuiet ⟨3⟩ = false := by decide +kernel
  have htree : ∀ j, (Request.run sheltered {}).graph.isAncestorOf ⟨0⟩ j = true →
      (Request.run sheltered {}).graph.FiniteTree j := fun j hj =>
    finiteTree_sheltered.of_inside (Reachable.sound reachable_sheltered).graph
      (Graph.inside_of_isAncestorOf hj)
  obtain ⟨hwalk, -, hquiet, hpredicate⟩ := Predication.effectFree_iff_exposed_quiet
    reachable_sheltered hloop (htree ⟨2⟩ hinloop)
  obtain ⟨-, hexposed, -⟩ := Predication.effectFree_iff_exposed_quiet
    reachable_sheltered hfunc (htree ⟨1⟩ hinfunc)
  refine ⟨hwalk, hlist, hquiet.mpr ⟨hfree, hpure⟩, hpredicate _ hfree, fun hbad => ?_⟩
  have hcontra := hexposed.mp hbad ⟨3⟩ hstore haround
  rw [hwrites] at hcontra
  cases hcontra

/-- In `sheltered` the module counts as free of effects, and is predicated by leaving it as it is,
although `walk` visits the store. -/
theorem sheltered_module_stores :
    Reachable (Request.run sheltered {}) ∧
      (Request.run sheltered {}).graph.FiniteTree ⟨0⟩ ∧
      (Request.run sheltered {}).graph.isEffectFree ⟨0⟩ = true ∧
      ⟨3⟩ ∈ (Request.run sheltered {}).graph.postorder ⟨0⟩ ∧
      ((Request.run sheltered {}).graph.op ⟨3⟩).kind.map (·.effects) = some .write ∧
      Predication.predicateOp ⟨0⟩ (some ⟨2⟩) (Request.run sheltered {}) =
        .ok ⟨0⟩ (Request.run sheltered {}) := by
  obtain ⟨hfree, hvisited, hwrites⟩ :
      (Request.run sheltered {}).graph.isEffectFree ⟨0⟩ = true ∧
        ⟨3⟩ ∈ (Request.run sheltered {}).graph.postorder ⟨0⟩ ∧
        ((Request.run sheltered {}).graph.op ⟨3⟩).kind.map (·.effects) = some .write := by
    decide +kernel
  exact ⟨reachable_sheltered, finiteTree_sheltered, hfree, hvisited, hwrites,
    Predication.predicateOp_of_isEffectFree hfree _⟩

end Multistage
