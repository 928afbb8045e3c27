import Multistage.Builder
import Multistage.Predication.Registry
import Multistage.Proofs.Copy.CopyEdits

/-!
# What building does to a context

Building edits the graph, moves the cursor, registers kinds and strategies and reports; `Advance` is
one such move, and `Advances` any number of them. A context that is `Sound` stays so.
-/

namespace Multistage

/-- The block and the operation that the cursor `c` names are in `g`. -/
def Graph.HasCursor (g : Graph) (c : Cursor) : Prop :=
  (∀ b ∈ c.block, g.HasBlock b) ∧ ∀ i ∈ c.before, g.HasOp i

theorem Graph.HasCursor.mono {g g' : Graph} {c : Cursor} (h : g.HasCursor c)
    (hwithin : g.Within g') : g'.HasCursor c :=
  ⟨fun b hb => hwithin.hasBlock (h.1 b hb), fun i hi => hwithin.hasOp (h.2 i hi)⟩

/-! ## Moves -/

namespace Context

/-- One move of building leads from `c` to another context. -/
inductive Advance (c : Context) : Context → Prop
  | edit {g : Graph} (h : Graph.Edit c.catalog c.graph g) : Advance c { c with graph := g }
  | move (cursor : Cursor) (h : c.graph.HasCursor cursor) : Advance c { c with cursor }
  | registerKind (k : OpKind) {catalog : Catalog} (h : c.catalog.insert? k = some catalog) :
      Advance c { c with catalog }
  | registerStrategy (name : String) (s : Strategy) (h : c.strategies.find? name = none)
      (hfits : s.misfit? c.catalog name = none) :
      Advance c { c with strategies := c.strategies.insert name s }
  | report (diagnostics : List Diagnostic) (log : List LogLine) :
      Advance c { c with diagnostics, log }

/-- Any number of moves, one `Advance` after the other. -/
abbrev Advances : Context → Context → Prop := Relation.ReflTransGen Advance

theorem advances_of_edits {c : Context} {g : Graph} (h : Graph.Edits c.catalog c.graph g) :
    c.Advances { c with graph := g } := by
  induction h with
  | refl => exact .refl
  | tail _ hlast ih => exact ih.tail (.edit (c := { c with graph := _ }) hlast)

/-- What holds of a context `c` however it was built: the graph is well formed, cut into segments
and of known kinds, and what is built in is still there. -/
structure Sound (c : Context) : Prop where
  graph : c.graph.WellFormed
  tiles : c.graph.SegmentsTile
  kinds : Graph.KindsKnown c.catalog c.graph
  catalog : Catalog.builtin.Extends c.catalog
  strategies : ∀ name s, StrategyTable.builtin.find? name = some s →
    c.strategies.find? name = some s
  cursor : c.graph.HasCursor c.cursor

/-- `insert?` leaves the kinds that are in the catalog as they are. -/
theorem extends_insert? {cat cat' : Catalog} {k : OpKind} (h : cat.insert? k = some cat') :
    cat.Extends cat' := by
  unfold Catalog.insert? at h
  split at h
  · cases h
  · cases h
    intro name k' hk'
    unfold Catalog.find? at hk' ⊢
    rw [List.find?_append, hk']
    rfl

namespace Sound

variable {c c' : Context}

theorem advance (h : c.Sound) (ha : c.Advance c') : c'.Sound := by
  cases ha with
  | edit he =>
    exact ⟨h.graph.edit he, h.tiles.edit he, h.kinds.edit h.catalog he, h.catalog, h.strategies,
      h.cursor.mono he.within⟩
  | move cursor hcursor =>
    exact ⟨h.graph, h.tiles, h.kinds, h.catalog, h.strategies, hcursor⟩
  | registerKind k hk =>
    have hextends := extends_insert? hk
    exact ⟨h.graph, h.tiles, h.kinds.mono hextends,
      fun name k' hk' => hextends name k' (h.catalog name k' hk'), h.strategies, h.cursor⟩
  | registerStrategy name s hs _ =>
    refine ⟨h.graph, h.tiles, h.kinds, h.catalog, fun other t ht => ?_, h.cursor⟩
    -- the new entry is found last, so the one that is built in stays in force
    rw [StrategyTable.find?_insert, h.strategies other t ht]
    rfl
  | report diagnostics log =>
    exact ⟨h.graph, h.tiles, h.kinds, h.catalog, h.strategies, h.cursor⟩

theorem advances (h : c.Sound) (ha : c.Advances c') : c'.Sound := by
  induction ha with
  | refl => exact h
  | tail _ hlast ih => exact ih.advance hlast

end Sound

theorem Advance.within {c c' : Context} (h : c.Advance c') : c.graph.Within c'.graph := by
  cases h with
  | edit he => exact he.within
  | move => exact .refl _
  | registerKind => exact .refl _
  | registerStrategy => exact .refl _
  | report => exact .refl _

theorem Advances.within {c c' : Context} (h : c.Advances c') : c.graph.Within c'.graph := by
  induction h with
  | refl => exact .refl _
  | tail _ hlast ih => exact ih.trans hlast.within

end Context

theorem Graph.SlotsOwned.advances {c c' : Context} (h : c.graph.SlotsOwned) (ha : c.Advances c') :
    c'.graph.SlotsOwned := by
  induction ha with
  | refl => exact h
  | tail _ hlast ih =>
    cases hlast with
    | edit he => exact ih.edit he
    | move => exact ih
    | registerKind => exact ih
    | registerStrategy => exact ih
    | report => exact ih

end Multistage
