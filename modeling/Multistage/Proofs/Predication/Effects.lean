import Multistage.Proofs.Predication.Lanes

/-!
# When an operation acts

What executing an operation does to memory under an assignment `σ` of truth values. An operation
that carries a mask acts only where the mask is true (`Context.Enabled`). What it does then is read
off `OpKind.effects`, as `Graph.isEffectFree` reads it: a kind with effects of its own acts, a kind
with `.nested` effects acts if an operation does that lies in a block which it runs (`Graph.Runs`),
and a kind with `.none` is taken at its word, whatever is in its regions (`Context.Acts`). What is
free of effects never acts.
-/

namespace Multistage

namespace Graph

/-- The kind of `i` has effects of its own, and not only those of the operations inside. -/
def HasOwnEffects (g : Graph) (i : OpId) : Prop :=
  ∀ k, (g.op i).kind = some k → k.effects ≠ .none ∧ k.effects ≠ .nested

/-- The condition of the conditional `i` is there and true under `σ`. -/
def ConditionHolds (g : Graph) (σ : ValueId → Lanes) (i : OpId) : Prop :=
  ∃ v, g.segmentValue? i Seg.condition = some (some v) ∧ σ v [] = true

/-- Block `b` is one of those of region `r` of `i`. -/
def InRegion (g : Graph) (i : OpId) (r : Nat) (b : BlockId) : Prop :=
  ∃ blocks, (g.op i).regions[r]? = some blocks ∧ b ∈ blocks

/-- The block `b` is among those that operation `i` executes, if it is of a kind with `.nested`
effects: an `ifElse` executes its first region if the condition holds and its second one if it does
not, and any other kind all regions. Of other kinds `Context.Acts` asks for no block. -/
def Runs (g : Graph) (σ : ValueId → Lanes) (i : OpId) (b : BlockId) : Prop :=
  ∃ r, g.InRegion i r b ∧ ((g.op i).name = Kinds.ifElse →
    r = 0 ∧ g.ConditionHolds σ i ∨ r = 1 ∧ ¬ g.ConditionHolds σ i)

end Graph

namespace Context

/-- Operation `i` carries no mask, or its mask is absent or true somewhere under `σ`. -/
def Enabled (c : Context) (σ : ValueId → Lanes) (i : OpId) : Prop :=
  (c.graph.op i).name ≠ Kinds.ifElse →
  (c.strategies.get (c.graph.op i).name).kind.usesSegment = true →
  ∀ v, c.graph.segmentValue? i (c.strategies.get (c.graph.op i).name).segment = some (some v) →
    ∃ pos, σ v pos = true

/-- Executing operation `i` has an effect on memory: its own (`own`), or, where its kind has
`.nested` effects, that of an operation `j` in a block `b` that it runs (`inner`). -/
inductive Acts (c : Context) (σ : ValueId → Lanes) : OpId → Prop
  | own {i : OpId} (enabled : c.Enabled σ i) (effects : c.graph.HasOwnEffects i) : Acts c σ i
  | inner {i j : OpId} {b : BlockId} {k : OpKind} (enabled : c.Enabled σ i)
      (kind : (c.graph.op i).kind = some k) (nested : k.effects = .nested)
      (runs : c.graph.Runs σ i b) (mem : j ∈ (c.graph.block b).ops) (acts : Acts c σ j) :
      Acts c σ i

variable {c : Context} {σ : ValueId → Lanes} {i : OpId}

namespace Acts

theorem enabled (h : c.Acts σ i) : c.Enabled σ i := by
  cases h with
  | own henabled _ => exact henabled
  | inner henabled _ _ _ _ _ => exact henabled

/-- What `Acts` is not free of effects, however deep the check goes. -/
theorem effectFreeTo (h : c.Acts σ i) (n : Nat) : c.graph.effectFreeTo n i = false := by
  -- along the way down to the operation that has effects of its own
  induction h generalizing n with
  | own _ heffects =>
    cases n with
    | zero => rfl
    | succ n =>
      refine Bool.eq_false_iff.mpr fun hfree => ?_
      obtain ⟨k, hk, hnone | ⟨hnested, -⟩⟩ := Graph.effectFreeTo_succ_iff.mp hfree
      · exact (heffects k hk).1 hnone
      · exact (heffects k hk).2 hnested
  | @inner i j b k _ hkind hnested hruns hmem _ ih =>
    cases n with
    | zero => rfl
    | succ n =>
      refine Bool.eq_false_iff.mpr fun hfree => ?_
      obtain ⟨k', hk', hnone | ⟨-, hall⟩⟩ := Graph.effectFreeTo_succ_iff.mp hfree
      · cases hkind.symm.trans hk'
        rw [hnested] at hnone
        cases hnone
      · -- the block that runs is one of those that the check goes through
        obtain ⟨r, ⟨blocks, hblocks, hb⟩, -⟩ := hruns
        have hinside : j ∈ c.graph.children i :=
          List.mem_flatMap.mpr ⟨b, List.mem_flatten.mpr ⟨blocks, List.mem_of_getElem? hblocks, hb⟩,
            hmem⟩
        exact Bool.eq_false_iff.mp (ih n) (hall j hinside)

/-- An operation of a kind without effects never acts. -/
theorem effects_ne_none (h : c.Acts σ i) {k : OpKind} (hk : (c.graph.op i).kind = some k) :
    k.effects ≠ .none := by
  intro hnone
  have hfree : c.graph.effectFreeTo 1 i = true :=
    Graph.effectFreeTo_succ_iff.mpr ⟨k, hk, Or.inl hnone⟩
  rw [h.effectFreeTo 1] at hfree
  cases hfree

end Acts

/-- A conditional whose condition does not hold acts exactly if an operation of its second region
does. -/
theorem acts_iff_of_not_holds (hname : (c.graph.op i).name = Kinds.ifElse) {k : OpKind}
    (hkind : (c.graph.op i).kind = some k) (hnested : k.effects = .nested)
    (hholds : ¬ c.graph.ConditionHolds σ i) :
    c.Acts σ i ↔ ∃ b, c.graph.InRegion i 1 b ∧ ∃ j ∈ (c.graph.block b).ops, c.Acts σ j := by
  constructor
  · intro h
    cases h with
    | own _ heffects => exact absurd hnested (heffects k hkind).2
    | @inner _ j b _ _ _ _ hruns hmem hacts =>
      -- the first region does not run, and a conditional has no effects but those inside
      obtain ⟨r, hregion, hcase⟩ := hruns
      obtain ⟨-, htrue⟩ | ⟨rfl, -⟩ := hcase hname
      · exact absurd htrue hholds
      · exact ⟨b, hregion, j, hmem, hacts⟩
  · rintro ⟨b, hregion, j, hmem, hacts⟩
    refine .inner (fun hne => absurd hname hne) hkind hnested ⟨1, hregion, fun _ => ?_⟩ hmem hacts
    exact Or.inr ⟨rfl, hholds⟩

/-- An operation `i` whose mask `m` is false everywhere does not act. -/
theorem not_acts_of_mask (hname : (c.graph.op i).name ≠ Kinds.ifElse)
    (huses : (c.strategies.get (c.graph.op i).name).kind.usesSegment = true) {m : ValueId}
    (hmask : c.graph.segmentValue? i (c.strategies.get (c.graph.op i).name).segment =
      some (some m)) (hfalse : ∀ pos, σ m pos = false) : ¬ c.Acts σ i := by
  intro h
  obtain ⟨pos, hpos⟩ := h.enabled hname huses m hmask
  rw [hfalse pos] at hpos
  cases hpos

end Context

end Multistage
