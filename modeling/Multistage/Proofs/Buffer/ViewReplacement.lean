import Multistage.Proofs.Buffer.ViewRun
import Multistage.Proofs.Build.Reachable

/-!
# The graph after a buffer was replaced

The whole tree of views below an operation is built anew on another buffer (`Replaced`): every view
gives way to a new one of its kind in its place, with its location, its attributes and the offsets
that it had, which reads what stands for the result that the old one read; all other readers of the
operation and of its views read what stands for that, and nothing else changes.
-/

namespace Multistage

open BuildM Relation

theorem map_some_filterMap_id {α : Type} (l : List (Option α)) :
    (l.filterMap id).map some = l.filter Option.isSome := by
  induction l with
  | nil => rfl
  | cons a rest ih =>
    cases a with
    | none => exact ih
    | some a => exact congrArg (some a :: ·) ih

namespace Graph

/-- `segment?` gives a stretch of what `operands` gives. -/
theorem segment?_of_segment? {g : Graph} {i : OpId} {name : String} {start size : Nat}
    (h : (g.op i).segment? name = some (start, size))
    (hle : start + size ≤ (g.op i).operands.length) :
    g.segment? i name = some (((g.operands i).drop start).take size) := by
  unfold segment? Op.segmentSlots? operands
  rw [h]
  dsimp only
  rw [if_pos hle, ← List.map_drop, ← List.map_take]
  rfl

/-- The graph `g'` is `g` with `val` read in the place of the results of `old`. The views below
`old` are gone, and `ρ` says what stands in the place of each; other operations stand in their own.
What stands for the results of `old` and of the views is said by `w`. -/
structure Replaced (g g' : Graph) (old : OpId) (val : ValueId) (ty : MemDescTy) (ρ : OpId → OpId)
    (w : OpId → ValueId) : Prop where
  value_old : w old = val
  stays : ∀ i, ¬ g.ViewOf old i → ρ i = i
  kept : ∀ i, g.HasOp i → ¬ g.ViewOf old i → g'.op i = g.op i
  block : ∀ b, g'.block b = { g.block b with ops := (g.block b).ops.map ρ }
  erased : ∀ x, g.ViewOf old x → g'.op x = { g.op x with block := none, erased := true }
  unused : ∀ p, g.Viewed old p → ∀ r ∈ (g.op p).results, (g'.value r).uses = []
  fresh : ∀ x, g.ViewOf old x → ¬ g.HasOp (ρ x) ∧ ¬ g.HasValue (w x)
  only : ∀ i, g'.HasOp i → g.HasOp i ∨ ∃ x, g.ViewOf old x ∧ i = ρ x
  row : ∀ x, g.ViewOf old x → ∃ slots segments, g'.op (ρ x) =
    { g.op x with operands := slots, segments := segments, results := [w x], regions := [] }
  typed : ∀ x, g.ViewOf old x →
    ∃ t, g.Rebuilds old ty x t ∧ g'.typeOf (w x) = some (.memDesc t)
  src : ∀ p x, g.Viewed old p → g.Feeds p x → g'.segment? (ρ x) Seg.src = some [some (w p)]
  offsets : ∀ x, g.ViewOf old x → g'.segment? (ρ x) Seg.offsets =
    (g.segment? x Seg.offsets).map (List.filter Option.isSome)
  redirected : ∀ p, g.Viewed old p → ∀ r ∈ (g.op p).results, ∀ s, (g.slot s).value = some r →
    ¬ g.ViewOf old (g.slot s).owner → (g'.slot s).value = some (w p)
  dropped : ∀ x, g.ViewOf old x → ∀ s ∈ (g.op x).operands, (g'.slot s).value = none
  held : ∀ s, g.HasSlot s →
    (∀ p, g.Viewed old p → ∀ r ∈ (g.op p).results, (g.slot s).value ≠ some r) →
    (∀ x, g.ViewOf old x → s ∉ (g.op x).operands) → (g'.slot s).value = (g.slot s).value
  owner : ∀ s, g.HasSlot s → (g'.slot s).owner = (g.slot s).owner
  values : ∀ v, g.HasValue v →
    (g'.value v).source = (g.value v).source ∧ g'.typeOf v = g.typeOf v

end Graph

namespace Buffer

/-- `replaceUses` finishes `old` or halts. -/
theorem meets_replaceUses {c : Context} {old : OpId} {val : ValueId} {ty : MemDescTy}
    (h : Replacing c old val ty) :
    (replaceUses old (some val)).Meets c
      (fun _ c' => ∃ st, Progress c.graph old val ty st c'.graph ∧
        Finishes c.graph old (.start old val) st)
      fun _ => Halts c old val ty := by
  refine (gives_graph.meets _).bind fun g c' _ hc => ?_
  obtain ⟨rfl, rfl⟩ := hc
  refine completes h _ old val (.start old val) c' ?_ fun l hl => ?_
  · exact ⟨h.sound, .start _ _ _ _, by rw [Stage.value_start, if_pos rfl], rfl, fun _ _ => rfl⟩
  · exact h.tree.length_lt_of_isChain h.there hl

/-- `Seg.src` and `Seg.offsets` of a view that was `Rebuilt`. -/
theorem Rebuilt.segments {c₀ : Context} {old : OpId} {val : ValueId} {ty : MemDescTy} {g : Graph}
    {x y : OpId} {w v : ValueId} (hrebuilt : Rebuilt c₀.graph g x y w v)
    (h : Replacing c₀ old val ty) (hx : Ops.isView c₀.graph x = true) :
    g.segment? y Seg.src = some [some w] ∧
      g.segment? y Seg.offsets = some ((c₀.graph.offsets x).map some) := by
  obtain ⟨slots, hrow⟩ := hrebuilt.row
  have hsegments : (g.op y).segments = c₀.graph.viewSegments x := by rw [hrow]
  have hlength : (g.op y).operands.length = (c₀.graph.offsets x).length + 1 := by
    have hreads := congrArg List.length hrebuilt.reads
    rw [Graph.operands, List.length_map, List.length_map] at hreads
    exact hreads
  -- a new view has its source first and its offsets behind it
  have hsrc : (g.op y).segment? Seg.src = some (0, 1) := by
    rw [Op.segment?, hsegments, Graph.viewSegments]
    split <;> rfl
  refine ⟨?_, ?_⟩
  · rw [Graph.segment?_of_segment? hsrc (by omega), hrebuilt.reads]
    rfl
  · rw [Ops.isView, Bool.or_eq_true, beq_iff_eq, beq_iff_eq] at hx
    rcases hx with hname | hname
    · have hoffsets : (g.op y).segment? Seg.offsets =
          some (1, (c₀.graph.offsets x).length) := by
        rw [Op.segment?, hsegments, Graph.viewSegments, if_pos hname]
        rfl
      rw [Graph.segment?_of_segment? hoffsets (by omega), hrebuilt.reads, List.map_cons,
        List.drop_one, List.tail_cons, List.take_of_length_le (by rw [List.length_map])]
    · have hnone : (g.op y).segment? Seg.offsets = none := by
        rw [Op.segment?, hsegments, Graph.viewSegments, if_neg (by rw [hname]; decide)]
        rfl
      rw [h.offsets_of_trans hname, Graph.segment?, Op.segmentSlots?, hnone]
      rfl

namespace Progress

variable {c₀ : Context} {old : OpId} {val : ValueId} {ty : MemDescTy} {st : Stage} {g : Graph}
  (hp : Progress c₀.graph old val ty st g) (h : Replacing c₀ old val ty)

include hp h

/-- What is built for a view of `p` reads what stands for the results of `p`. -/
theorem rebuilt_of_feeds {p x y : OpId} (hviewed : c₀.graph.Viewed old p)
    (hfeeds : c₀.graph.Feeds p x) (hy : st.view x = some y) :
    ∃ u v, st.value p = some u ∧ Rebuilt c₀.graph g x y u v := by
  obtain ⟨q, u, v, _, hq, hqx, hu, -, hrebuilt, -⟩ := hp.views x y hy
  obtain rfl := h.tree.parent_unique h.sound.graph hq hviewed hqx hfeeds
  exact ⟨u, v, hu, hrebuilt⟩

/-- A slot that holds no result of `old` or of a view below it, and is no operand of such a view,
stays as it is. -/
theorem held_of_kept {s : SlotId} (hs : c₀.graph.HasSlot s)
    (hother : ∀ p, c₀.graph.Viewed old p → ∀ r ∈ (c₀.graph.op p).results,
      (c₀.graph.slot s).value ≠ some r)
    (hkept : ∀ x, c₀.graph.ViewOf old x → s ∉ (c₀.graph.op x).operands) :
    (g.slot s).value = (c₀.graph.slot s).value := by
  rw [hp.held s hs, Stage.held, if_neg fun hc => hkept _ (hp.viewOf_of_gone hc.1) hc.2]
  split
  · rfl
  · cases hvalue : (c₀.graph.slot s).value with
    | none => rfl
    | some u =>
      -- a slot holds another value only if it held a result of something that is settled
      refine congrArg some (Stage.redirected_eq h.sound.graph.owned
        (h.sound.graph.uses.held s u hvalue) fun o ho => ?_)
      rw [← Bool.not_eq_true]
      intro hsettled
      obtain ⟨w, hw⟩ := hp.settled_value o hsettled
      exact hother o (hp.viewed_of_value hw) u ho hvalue

end Progress

namespace Finishes

variable {c₀ : Context} {old : OpId} {val : ValueId} {ty : MemDescTy} {st : Stage} {g : Graph}
  (hfin : Finishes c₀.graph old (.start old val) st) (h : Replacing c₀ old val ty)
  (hp : Progress c₀.graph old val ty st g)

include hfin hp

/-- Every view `x` below `old` was built anew. -/
theorem exists_rebuilt {x : OpId} (hx : c₀.graph.ViewOf old x) : ∃ y w v t, st.view x = some y ∧
    st.value x = some v ∧ Rebuilt c₀.graph g x y w v ∧ c₀.graph.Rebuilds old ty x t ∧
    g.typeOf v = some (.memDesc t) := by
  obtain ⟨-, y, hy⟩ := hp.gone_settled x (hfin.below x hx)
  obtain ⟨_, w, v, t, -, -, -, hv, hrebuilt, ht, htype⟩ := hp.views x y hy
  exact ⟨y, w, v, t, hy, hv, hrebuilt, ht, htype⟩

theorem settled_of_viewed {p : OpId} (hviewed : c₀.graph.Viewed old p) : st.settled p = true := by
  rcases reflTransGen_iff_eq_or_transGen.mp hviewed with rfl | hview
  · exact hfin.settled
  · exact (hp.gone_settled p (hfin.below p hview)).1

/-- In the end every place has one operation in it. -/
theorem places_eq (x : OpId) : st.places x = [(st.view x).getD x] := by
  rw [Stage.places]
  -- what was built anew is gone, and nothing else is
  cases hview : st.view x with
  | some y =>
    rw [hfin.below x (hp.viewOf_of_view hview)]
    rfl
  | none =>
    have hgone : st.gone x = false := by
      rw [← Bool.not_eq_true]
      intro hgone
      obtain ⟨-, y, hy⟩ := hp.gone_settled x hgone
      rw [hview] at hy
      cases hy
    rw [hgone]
    rfl

include h

theorem unused {p : OpId} (hviewed : c₀.graph.Viewed old p) :
    ∀ r ∈ (c₀.graph.op p).results, ∀ s, (g.slot s).value ≠ some r :=
  hp.unused h hviewed (hfin.settled_of_viewed hp hviewed) fun z hz =>
    hfin.below z (.tail' hviewed hz)

/-- A slot whose reader is no view below `old` holds what stands for the value `r`. -/
theorem held_of_redirected {p : OpId} (hviewed : c₀.graph.Viewed old p) {r : ValueId}
    (hr : r ∈ (c₀.graph.op p).results) {s : SlotId} (hs : (c₀.graph.slot s).value = some r)
    (howner : ¬ c₀.graph.ViewOf old (c₀.graph.slot s).owner) :
    (g.slot s).value = some ((st.value p).getD val) := by
  -- such a reader is no view at all, or it would be one below the old operation
  have hview : ¬ Ops.isView c₀.graph (c₀.graph.slot s).owner = true := fun hview =>
    howner (.tail' hviewed ⟨hview, s, rfl, r, hr, hs⟩)
  have hsettled := hfin.settled_of_viewed hp hviewed
  obtain ⟨u, hu⟩ := hp.settled_value p hsettled
  rw [hp.held s (Graph.hasSlot_of_value_eq_some hs), Stage.held,
    if_neg fun hc => howner (hp.viewOf_of_gone hc.1), if_neg hview, hs, Option.map_some,
    Stage.redirected_of_mem h.sound.graph.owned hr, hsettled, hu]
  rfl

/-- The stage that `Finishes` is the graph that `Replaced` describes. -/
theorem replaced (hlive : ∀ x, c₀.graph.ViewOf old x → (c₀.graph.op x).erased = false)
    (hg : g.WellFormed) :
    c₀.graph.Replaced g old val ty (fun i => (st.view i).getD i)
      fun o => (st.value o).getD val where
  value_old := by rw [hp.value_old]; rfl
  stays i hi := by
    cases hview : st.view i with
    | none => rfl
    | some y => exact absurd (hp.viewOf_of_view hview) hi
  kept i hi hview := hp.op_of_not_viewOf hi hview
  block b := by
    rw [hp.block b]
    refine congrArg (fun ops => { c₀.graph.block b with ops }) ?_
    rw [List.map_eq_flatMap]
    exact List.flatMap_congr fun x _ => hfin.places_eq hp x
  erased x hx := by rw [hp.op x hx.hasOp, hfin.below x hx, if_pos rfl]
  unused p hviewed r hr := List.eq_nil_iff_forall_not_mem.mpr fun s hs =>
    hfin.unused h hp hviewed r hr s (hg.uses.mem_uses_iff.mp hs)
  fresh x hx := by
    obtain ⟨y, _, v, _, hy, hv, hrebuilt, -⟩ := hfin.exists_rebuilt hp hx
    rw [hy, hv]
    exact ⟨hrebuilt.fresh, hrebuilt.fresh_value⟩
  only i hi := by
    by_cases hthere : c₀.graph.HasOp i
    · exact Or.inl hthere
    · obtain ⟨x, hx⟩ := hp.fresh_op i hi hthere
      exact Or.inr ⟨x, hp.viewOf_of_view hx, by rw [hx]; rfl⟩
  row x hx := by
    obtain ⟨y, _, v, _, hy, hv, hrebuilt, -⟩ := hfin.exists_rebuilt hp hx
    obtain ⟨slots, hrow⟩ := hrebuilt.row
    refine ⟨slots, c₀.graph.viewSegments x, ?_⟩
    rw [hy, hv]
    refine hrow.trans ?_
    dsimp only
    rw [hlive x hx]
    rfl
  typed x hx := by
    obtain ⟨_, _, v, t, -, hv, -, ht, htype⟩ := hfin.exists_rebuilt hp hx
    refine ⟨t, ht, ?_⟩
    rw [hv]
    exact htype
  src p x hviewed hfeeds := by
    obtain ⟨y, _, _, _, hy, -⟩ := hfin.exists_rebuilt hp (.tail' hviewed hfeeds)
    obtain ⟨u, v, hu, hrebuilt⟩ := hp.rebuilt_of_feeds h hviewed hfeeds hy
    rw [hy, hu]
    exact (hrebuilt.segments h hfeeds.1).1
  offsets x hx := by
    obtain ⟨y, _, _, _, hy, -, hrebuilt, -⟩ := hfin.exists_rebuilt hp hx
    rw [hy]
    obtain ⟨cut⟩ := h.cut hx.isView
    have hslots : (c₀.graph.op x).segmentSlots? Seg.offsets = some (cut.around Seg.offsets) :=
      cut.segmentSlots?_other (by decide)
    refine (hrebuilt.segments h hx.isView).2.trans ?_
    rw [Graph.offsets, Graph.segment?, hslots]
    exact congrArg some (map_some_filterMap_id _)
  redirected p hviewed r hr s hs howner := hfin.held_of_redirected h hp hviewed hr hs howner
  dropped x hx s hs := by
    obtain ⟨hslot, howner, -⟩ := h.sound.graph.numbered.of_mem hs
    rw [hp.held s hslot, Stage.held, if_pos]
    rw [howner]
    exact ⟨hfin.below x hx, hs⟩
  held s hs hother hkept := hp.held_of_kept h hs hother hkept
  owner := hp.owner
  values v hv := ⟨hp.source v hv, hp.typeOf v hv⟩

end Finishes

end Buffer

/-- If the views below `old` can be built anew on `val`, are live, in blocks and have nothing
inside, `replaceUses` succeeds and builds the whole tree anew (`Replaced`). -/
theorem replaceUses_rebuilds_views {c : Context} (hreach : Reachable c) {old : OpId}
    (hold : c.graph.HasOp old) {val : ValueId} {ty : MemDescTy}
    (hval : c.graph.typeOf val = some (.memDesc ty))
    (hapart : ∀ p, c.graph.Viewed old p → val ∉ (c.graph.op p).results)
    (htree : c.graph.ViewTree old ty)
    (hplaced : ∀ x, c.graph.ViewOf old x → (c.graph.op x).block.isSome)
    (hlive : ∀ x, c.graph.ViewOf old x → (c.graph.op x).erased = false)
    (hleaf : ∀ x, c.graph.ViewOf old x → c.graph.children x = []) :
    ∃ c', Buffer.replaceUses old (some val) c = .ok () c' ∧
      ∃ ρ w, c.graph.Replaced c'.graph old val ty ρ w := by
  have h : Buffer.Replacing c old val ty :=
    ⟨hreach.sound, hreach.slotsOwned, hold, htree, hval, hapart, hleaf⟩
  have hgives : (Buffer.replaceUses old (some val)).Gives c fun _ c' =>
      ∃ ρ w, c.graph.Replaced c'.graph old val ty ρ w := by
    refine (Buffer.meets_replaceUses h).imp (fun _ c' hadv hc => ?_) fun _ c' _ hhalts => ?_
    · obtain ⟨st, hp, hfin⟩ := hc
      exact ⟨_, _, hfin.replaced h hp hlive (h.sound.advances hadv).graph⟩
    · -- a view that stops the work is in no block or erased
      obtain ⟨⟨x, hx, hnone | herased⟩, -⟩ := hhalts
      · rw [← Option.not_isSome_iff_eq_none] at hnone
        exact hnone (hplaced x hx)
      · rw [hlive x hx] at herased
        cases herased
  obtain ⟨⟨⟩, c', hrun, -, hreplaced⟩ := hgives.ok
  exact ⟨c', hrun, hreplaced⟩

/-- The type of a buffer of this `shape` without further parts. -/
def bufferOf (shape : List Int) (isMutable : Bool) : MemDescTy :=
  { shape, elem := none, encoding := none, memorySpace := none, isMutable, allocShape := [] }

/-- A `func` with a buffer that is read itself and through a transposed view, which has a view with
an offset. -/
def layered : List Request := [
  .createDetached { name := Kinds.func },
  .addBlock ⟨0⟩ 0,
  .moveToEnd (some ⟨0⟩),
  .create { name := Kinds.constant, results := [some Ty.i32] },
  .create { name := Kinds.localAlloc, results := [some (.memDesc (bufferOf [4, 8] false))] },
  .create { name := Kinds.localAlloc, results := [some (.memDesc (bufferOf [4, 8] true))] },
  .create
    { name := Kinds.memDescTrans, segments := [[some ⟨1⟩]]
      results := [some (.memDesc (bufferOf [8, 4] false))]
      attrs := .single "order" (some (.i32Array [1, 0])) },
  .create
    { name := Kinds.memDescSubview, segments := [[some ⟨3⟩], [some ⟨0⟩]]
      results := [some (.memDesc (bufferOf [4] false))] },
  .create { name := Kinds.localLoad, segments := [[some ⟨4⟩]], results := [none] },
  .create { name := Kinds.localLoad, segments := [[some ⟨1⟩]], results := [none] },
  .create { name := Kinds.ret }]

theorem reachable_layered : Reachable (Request.run layered {}) :=
  (Reachable.fresh .collect 0).run (by decide +kernel)

theorem typeOf_layered :
    (Request.run layered {}).graph.typeOf ⟨2⟩ = some (.memDesc (bufferOf [4, 8] true)) := by
  set_option maxRecDepth 4000 in rfl

/-- What the graph of `layered` looks like, in one evaluation. -/
theorem layered_graph {g : Graph} (hg : (Request.run layered {}).graph = g) :
    (g.ListsViews ⟨2⟩ [⟨4⟩, ⟨5⟩] ∧ Ops.transOrder g ⟨4⟩ = [1, 0] ∧
        (g.op ⟨5⟩).name ≠ Kinds.memDescTrans) ∧
      (g.HasOp ⟨2⟩ ∧ (∀ p ∈ [(⟨2⟩ : OpId), ⟨4⟩, ⟨5⟩], ⟨2⟩ ∉ (g.op p).results) ∧
        ∀ x ∈ [(⟨4⟩ : OpId), ⟨5⟩],
          g.children x = [] ∧ (g.op x).block.isSome ∧ (g.op x).erased = false) ∧
      (g.block ⟨0⟩).ops = [⟨1⟩, ⟨2⟩, ⟨3⟩, ⟨4⟩, ⟨5⟩, ⟨6⟩, ⟨7⟩, ⟨8⟩] ∧
      g.segment? ⟨5⟩ Seg.offsets = some [some ⟨0⟩] ∧
      (⟨1⟩ ∈ (g.op ⟨2⟩).results ∧ ⟨3⟩ ∈ (g.op ⟨4⟩).results ∧ ⟨4⟩ ∈ (g.op ⟨5⟩).results) ∧
      (Ops.isView g ⟨4⟩ = true ∧ (g.slot ⟨0⟩).owner = ⟨4⟩ ∧ (g.slot ⟨0⟩).value = some ⟨1⟩) ∧
      (Ops.isView g ⟨5⟩ = true ∧ (g.slot ⟨1⟩).owner = ⟨5⟩ ∧ (g.slot ⟨1⟩).value = some ⟨3⟩) ∧
      ((g.slot ⟨3⟩).value = some ⟨4⟩ ∧ (g.slot ⟨3⟩).owner ∉ [(⟨4⟩ : OpId), ⟨5⟩]) ∧
      (g.slot ⟨4⟩).value = some ⟨1⟩ ∧ (g.slot ⟨4⟩).owner ∉ [(⟨4⟩ : OpId), ⟨5⟩] := by
  subst hg
  decide +kernel

theorem viewTree_layered :
    (Request.run layered {}).graph.ViewTree ⟨2⟩ (bufferOf [4, 8] true) := by
  obtain ⟨⟨hlists, horder, hname₅⟩, -⟩ := layered_graph rfl
  refine hlists.viewTree (Reachable.sound reachable_layered).graph fun x hx hname => ?_
  rcases List.mem_pair.mp hx with rfl | rfl
  · rw [horder]
    exact ⟨by decide, nofun⟩
  · exact absurd hname hname₅

/-- In `layered` the other buffer is none of the views, and they are live, in a block and have
nothing inside. -/
theorem views_layered :
    (∀ p, (Request.run layered {}).graph.Viewed ⟨2⟩ p →
        ⟨2⟩ ∉ ((Request.run layered {}).graph.op p).results) ∧
      ∀ x, (Request.run layered {}).graph.ViewOf ⟨2⟩ x →
        (Request.run layered {}).graph.children x = [] ∧
          ((Request.run layered {}).graph.op x).block.isSome ∧
          ((Request.run layered {}).graph.op x).erased = false := by
  have hwf := (Reachable.sound reachable_layered).graph
  obtain ⟨⟨hlists, -⟩, ⟨-, hapart, hviews⟩, -⟩ := layered_graph rfl
  exact ⟨fun p hp => hapart p (hlists.mem_of_viewed hwf hp),
    fun x hx => hviews x (hlists.mem_of_viewOf hwf hx)⟩

/-- On `layered`, the transposed view is built anew on the other buffer, its own view on that with
the offset, and both readers read what was built. -/
theorem layered_rebuilt :
    ∃ c', Buffer.replaceUses ⟨2⟩ (some ⟨2⟩) (Request.run layered {}) = .ok () c' ∧
      ∃ (ρ : OpId → OpId) (w : OpId → ValueId),
        (c'.graph.block ⟨0⟩).ops = [⟨1⟩, ⟨2⟩, ⟨3⟩, ρ ⟨4⟩, ρ ⟨5⟩, ⟨6⟩, ⟨7⟩, ⟨8⟩] ∧
        c'.graph.segment? (ρ ⟨4⟩) Seg.src = some [some ⟨2⟩] ∧
        c'.graph.segment? (ρ ⟨5⟩) Seg.src = some [some (w ⟨4⟩)] ∧
        c'.graph.segment? (ρ ⟨5⟩) Seg.offsets = some [some ⟨0⟩] ∧
        (c'.graph.slot ⟨3⟩).value = some (w ⟨5⟩) ∧ (c'.graph.slot ⟨4⟩).value = some ⟨2⟩ := by
  have hwf := (Reachable.sound reachable_layered).graph
  obtain ⟨⟨hlists, -⟩, ⟨hold, -⟩, hops, hoffsets, ⟨hr₂, hr₄, hr₅⟩, ⟨hview₄, howner₀, hslot₀⟩,
    ⟨hview₅, howner₁, hslot₁⟩, hslot₃, hslot₄⟩ := layered_graph rfl
  have hmem := fun x => hlists.mem_of_viewOf hwf (x := x)
  obtain ⟨hapart, hviews⟩ := views_layered
  have h₄ : (Request.run layered {}).graph.Feeds ⟨2⟩ ⟨4⟩ :=
    .of_slot ⟨0⟩ ⟨1⟩ ⟨hview₄, howner₀, hr₂, hslot₀⟩
  have h₅ : (Request.run layered {}).graph.Feeds ⟨4⟩ ⟨5⟩ :=
    .of_slot ⟨1⟩ ⟨3⟩ ⟨hview₅, howner₁, hr₄, hslot₁⟩
  have hviewOf₅ : (Request.run layered {}).graph.ViewOf ⟨2⟩ ⟨5⟩ := .tail (.single h₄) h₅
  obtain ⟨c', hrun, ρ, w, hreplaced⟩ := replaceUses_rebuilds_views reachable_layered
    hold typeOf_layered hapart viewTree_layered (fun x hx => (hviews x hx).2.1)
    (fun x hx => (hviews x hx).2.2) fun x hx => (hviews x hx).1
  -- only the two views have another operation in their place
  have hstays : ∀ i, i ∉ [(⟨4⟩ : OpId), ⟨5⟩] → ρ i = i := fun i hi =>
    hreplaced.stays i fun hview => hi (hmem i hview)
  refine ⟨c', hrun, ρ, w, ?_, ?_, hreplaced.src _ _ (.single h₄) h₅, ?_, ?_, ?_⟩
  · rw [hreplaced.block, hops]
    simp [hstays]
  · rw [hreplaced.src _ _ .refl h₄, hreplaced.value_old]
  · rw [hreplaced.offsets _ hviewOf₅, hoffsets]
    rfl
  · exact hreplaced.redirected _ hviewOf₅.to_reflTransGen ⟨4⟩ hr₅ ⟨3⟩ hslot₃.1
      fun hview => absurd (hmem _ hview) hslot₃.2
  · rw [hreplaced.redirected _ .refl ⟨1⟩ hr₂ ⟨4⟩ hslot₄.1
      fun hview => absurd (hmem _ hview) hslot₄.2, hreplaced.value_old]

/-- A `func` with three buffers whose views cannot be built anew as they are: one has a view of its
own inside, one has lost its offset, and one is erased, with the operation around it, but reads its
buffer again. -/
def tangled : List Request := [
  .createDetached { name := Kinds.func },
  .addBlock ⟨0⟩ 0,
  .moveToEnd (some ⟨0⟩),
  .create { name := Kinds.localAlloc, results := [some (.memDesc (bufferOf [4] true))] },
  .create { name := Kinds.localAlloc, results := [some (.memDesc (bufferOf [4] true))] },
  .create
    { name := Kinds.memDescSubview, segments := [[some ⟨1⟩]]
      results := [some (.memDesc (bufferOf [4] true))], regions := 1 },
  .addBlock ⟨3⟩ 0,
  .moveToEnd (some ⟨1⟩),
  .create
    { name := Kinds.memDescSubview, segments := [[some ⟨2⟩]]
      results := [some (.memDesc (bufferOf [4] true))] },
  .moveToEnd (some ⟨0⟩),
  .create { name := Kinds.localAlloc, results := [some (.memDesc (bufferOf [4] true))] },
  .create { name := Kinds.constant, results := [some Ty.i32] },
  .create
    { name := Kinds.memDescSubview, segments := [[some ⟨4⟩], [some ⟨5⟩]]
      results := [some (.memDesc (bufferOf [4] true))] },
  .setOperand ⟨7⟩ 1 none,
  .create { name := Kinds.localAlloc, results := [some (.memDesc (bufferOf [4] true))] },
  .create { name := "x.box", regions := 1 },
  .addBlock ⟨9⟩ 0,
  .moveToEnd (some ⟨2⟩),
  .create
    { name := Kinds.memDescSubview, segments := [[some ⟨7⟩]]
      results := [some (.memDesc (bufferOf [4] true))] },
  .erase ⟨9⟩,
  .setOperand ⟨10⟩ 0 (some ⟨7⟩)]

theorem reachable_tangled : Reachable (Request.run tangled {}) :=
  (Reachable.fresh .collect 0).run (by decide +kernel)

theorem typeOf_tangled :
    (Request.run tangled {}).graph.typeOf ⟨0⟩ = some (.memDesc (bufferOf [4] true)) := by
  set_option maxRecDepth 4000 in rfl

/-- The three buffers of `tangled` with their views. -/
def tangledViews : List (OpId × List OpId) := [(⟨2⟩, [⟨3⟩, ⟨4⟩]), (⟨5⟩, [⟨7⟩]), (⟨8⟩, [⟨10⟩])]

/-- What the graph of `tangled` looks like, in one evaluation. -/
theorem tangled_graph {g : Graph} (hg : (Request.run tangled {}).graph = g) :
    (∀ q ∈ tangledViews, g.HasOp q.1 ∧ g.ListsViews q.1 q.2 ∧
        (∀ p ∈ q.1 :: q.2, ⟨0⟩ ∉ (g.op p).results) ∧
        ∀ x ∈ q.2, (g.op x).block.isSome ∧ (g.op x).name ≠ Kinds.memDescTrans) ∧
      (∀ k < g.slots.size, (g.slot ⟨k⟩).value.isSome →
        ⟨k⟩ ∈ (g.op (g.slot ⟨k⟩).owner).operands) ∧
      g.ops.size = 11 ∧ (g.op ⟨4⟩).block = some ⟨1⟩ ∧
      g.segment? ⟨7⟩ Seg.offsets = some [none] ∧
      (Ops.isView g ⟨3⟩ = true ∧ (g.slot ⟨0⟩).owner = ⟨3⟩ ∧ ⟨1⟩ ∈ (g.op ⟨2⟩).results ∧
        (g.slot ⟨0⟩).value = some ⟨1⟩) ∧
      (Ops.isView g ⟨4⟩ = true ∧ (g.slot ⟨1⟩).owner = ⟨4⟩ ∧ ⟨2⟩ ∈ (g.op ⟨3⟩).results ∧
        (g.slot ⟨1⟩).value = some ⟨2⟩) ∧
      Ops.isView g ⟨7⟩ = true ∧ (g.slot ⟨2⟩).owner = ⟨7⟩ ∧ ⟨4⟩ ∈ (g.op ⟨5⟩).results ∧
        (g.slot ⟨2⟩).value = some ⟨4⟩ := by
  subst hg
  decide +kernel

/-- The views of `tangled` can be built anew on the first buffer, as far as what they read goes, and
they are in blocks. -/
theorem viewTree_tangled : ∀ q ∈ tangledViews,
    (Request.run tangled {}).graph.HasOp q.1 ∧
      (Request.run tangled {}).graph.ViewTree q.1 (bufferOf [4] true) ∧
      (∀ p, (Request.run tangled {}).graph.Viewed q.1 p →
        ⟨0⟩ ∉ ((Request.run tangled {}).graph.op p).results) ∧
      ∀ x, (Request.run tangled {}).graph.ViewOf q.1 x →
        ((Request.run tangled {}).graph.op x).block.isSome := by
  intro q hq
  have hwf := (Reachable.sound reachable_tangled).graph
  obtain ⟨hold, hlists, hapart, hviews⟩ := (tangled_graph rfl).1 q hq
  refine ⟨hold, hlists.viewTree hwf fun x hx hname => absurd hname (hviews x hx).2,
    fun p hp => hapart p (hlists.mem_of_viewed hwf hp),
    fun x hx => (hviews x (hlists.mem_of_viewOf hwf hx)).1⟩

/-- On `tangled`, the view that is built for the inner view is erased with the outer one and reads
nothing, the one that is built for the view without its offset has one operand less, and the view
that is erased already makes `replaceUses` fail. -/
theorem tangled_not_rebuilt :
    Reachable (Request.run tangled {}) ∧
      (∀ s v, ((Request.run tangled {}).graph.slot s).value = some v →
        s ∈ ((Request.run tangled {}).graph.op
          ((Request.run tangled {}).graph.slot s).owner).operands) ∧
      (Request.run tangled {}).graph.typeOf ⟨0⟩ = some (.memDesc (bufferOf [4] true)) ∧
      (∀ q ∈ tangledViews, (Request.run tangled {}).graph.HasOp q.1 ∧
        (Request.run tangled {}).graph.ViewTree q.1 (bufferOf [4] true) ∧
        (∀ p, (Request.run tangled {}).graph.Viewed q.1 p →
          ⟨0⟩ ∉ ((Request.run tangled {}).graph.op p).results) ∧
        ∀ x, (Request.run tangled {}).graph.ViewOf q.1 x →
          ((Request.run tangled {}).graph.op x).block.isSome) ∧
      ((Request.run tangled {}).graph.ViewOf ⟨2⟩ ⟨4⟩ ∧
        ∃ c', Buffer.replaceUses ⟨2⟩ (some ⟨0⟩) (Request.run tangled {}) = .ok () c' ∧
          ∀ i, ¬ (Request.run tangled {}).graph.HasOp i →
            (c'.graph.op i).block = ((Request.run tangled {}).graph.op ⟨4⟩).block →
            c'.graph.segment? i Seg.src = some [none]) ∧
      ((Request.run tangled {}).graph.ViewOf ⟨5⟩ ⟨7⟩ ∧
        (Request.run tangled {}).graph.segment? ⟨7⟩ Seg.offsets = some [none] ∧
        ∃ c', Buffer.replaceUses ⟨5⟩ (some ⟨0⟩) (Request.run tangled {}) = .ok () c' ∧
          ∀ i, ¬ (Request.run tangled {}).graph.HasOp i → (c'.graph.op i).block.isSome →
            c'.graph.segment? i Seg.offsets = some []) ∧
      ∃ e c', Buffer.replaceUses ⟨8⟩ (some ⟨0⟩) (Request.run tangled {}) = .error e c' := by
  obtain ⟨-, hcurrent, hops, hblock, hoffsets, h₃, h₄, h₇⟩ := tangled_graph rfl
  -- the three runs are evaluated together, up to quantifiers over the operations that there are
  have hresults : (match Buffer.replaceUses ⟨2⟩ (some ⟨0⟩) (Request.run tangled {}) with
      | .error _ _ => false
      | .ok _ c' => decide (∀ k < c'.graph.ops.size,
          11 ≤ k ∧ (c'.graph.op ⟨k⟩).block = some ⟨1⟩ →
            c'.graph.segment? ⟨k⟩ Seg.src = some [none])) = true ∧
      (match Buffer.replaceUses ⟨5⟩ (some ⟨0⟩) (Request.run tangled {}) with
      | .error _ _ => false
      | .ok _ c' => decide (∀ k < c'.graph.ops.size,
          11 ≤ k ∧ (c'.graph.op ⟨k⟩).block.isSome →
            c'.graph.segment? ⟨k⟩ Seg.offsets = some [])) = true ∧
      (match Buffer.replaceUses ⟨8⟩ (some ⟨0⟩) (Request.run tangled {}) with
      | .error _ _ => true
      | .ok _ _ => false) = true := by decide +kernel
  obtain ⟨hinner, hoffset, hfails⟩ := hresults
  have hsize : ∀ i, ¬ (Request.run tangled {}).graph.HasOp i → 11 ≤ i.index := by
    intro i hi
    rw [Graph.HasOp, hops] at hi
    exact Nat.not_lt.mp hi
  refine ⟨reachable_tangled, fun s v hv => ?_, typeOf_tangled, viewTree_tangled,
    ⟨.tail (.single (.of_slot ⟨0⟩ ⟨1⟩ h₃)) (.of_slot ⟨1⟩ ⟨2⟩ h₄), ?_⟩,
    ⟨.single (.of_slot ⟨2⟩ ⟨4⟩ h₇), hoffsets, ?_⟩, ?_⟩
  · exact hcurrent s.index (Graph.hasSlot_of_value_eq_some hv) (by rw [hv]; rfl)
  · cases hrun : Buffer.replaceUses ⟨2⟩ (some ⟨0⟩) (Request.run tangled {}) with
    | error e c' =>
      rw [hrun] at hinner
      cases hinner
    | ok a c' =>
      rw [hrun] at hinner
      refine ⟨c', rfl, fun i hnew hi => ?_⟩
      rw [hblock] at hi
      exact of_decide_eq_true hinner i.index (Graph.hasOp_of_block_eq_some hi)
        ⟨hsize i hnew, hi⟩
  · cases hrun : Buffer.replaceUses ⟨5⟩ (some ⟨0⟩) (Request.run tangled {}) with
    | error e c' =>
      rw [hrun] at hoffset
      cases hoffset
    | ok a c' =>
      rw [hrun] at hoffset
      refine ⟨c', rfl, fun i hnew hi => ?_⟩
      obtain ⟨b, hb⟩ := Option.isSome_iff_exists.mp hi
      exact of_decide_eq_true hoffset i.index (Graph.hasOp_of_block_eq_some hb)
        ⟨hsize i hnew, hi⟩
  · cases hrun : Buffer.replaceUses ⟨8⟩ (some ⟨0⟩) (Request.run tangled {}) with
    | error e c' => exact ⟨e, c', rfl⟩
    | ok a c' =>
      rw [hrun] at hfails
      cases hfails

end Multistage
