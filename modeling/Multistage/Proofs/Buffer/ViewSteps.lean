import Multistage.Proofs.Buffer.ViewProgress

/-!
# Steps of replacing a buffer

The three things that are done to the graph while a buffer is replaced: a view is built anew right
before the old one, the readers of an operation that are no views are redirected, and a view that
nothing reads any more is erased. Each takes the graph from its stage to the next one.
-/

namespace Multistage

open Relation

namespace Graph

theorem op_erasedLeaf_self {g : Graph} {i : OpId} (hi : g.HasOp i) :
    (g.erasedLeaf i).op i = { g.op i with block := none, erased := true } := by
  have hthere : i.index < ((g.dropOperands i).detach i).ops.size :=
    ((within_assignAll g _ none).trans (within_detach _ i)).hasOp hi
  rw [erasedLeaf, mark, op_modifyOp, if_pos ⟨rfl, hthere⟩, op_detach, if_pos rfl, op, dropOperands,
    ops_assignAll, ← op]

theorem typeOf_erasedLeaf (g : Graph) (i : OpId) (w : ValueId) :
    (g.erasedLeaf i).typeOf w = g.typeOf w := by
  rw [typeOf, erasedLeaf, mark, value_modifyOp, value_detach, ← typeOf, dropOperands,
    typeOf_assignAll]

theorem size_ops_erasedLeaf (g : Graph) (i : OpId) : (g.erasedLeaf i).ops.size = g.ops.size := by
  have hdetach : ∀ g' : Graph, (g'.detach i).ops.size = g'.ops.size := by
    intro g'
    unfold detach
    split
    · rfl
    · rw [size_ops_modifyOp]
      rfl
  rw [erasedLeaf, mark, size_ops_modifyOp, hdetach, dropOperands, ops_assignAll]

theorem within_erasedLeaf (g : Graph) (i : OpId) : g.Within (g.erasedLeaf i) :=
  ((within_assignAll g _ none).trans (within_detach _ i)).trans (within_modifyOp _ i _)

/-- The graph `g'` is `g` with a new operation `y` right before `x`. -/
structure PutsBefore (g g' : Graph) (x y : OpId) : Prop where
  within : g.Within g'
  only : ∀ i, g'.HasOp i → g.HasOp i ∨ i = y
  op : ∀ i, g.HasOp i → g'.op i = g.op i
  block : ∀ b, g'.block b = if (g.op x).block = some b then
    { g.block b with ops := (g.block b).ops.insertIdx ((g.block b).ops.idxOf x) y } else g.block b
  source : ∀ v, g.HasValue v → (g'.value v).source = (g.value v).source
  typeOf : ∀ v, g.HasValue v → g'.typeOf v = g.typeOf v
  slot : ∀ s, g.HasSlot s → g'.slot s = g.slot s
  fresh_slot : ∀ s, ¬ g.HasSlot s → ∀ u, (g'.slot s).value = some u → s ∈ (g'.op y).operands

end Graph

namespace Buffer

namespace Stage

variable {st : Stage} {g₀ : Graph}

/-- Once `o` is settled, its readers in the list `direct` read what they are to read. -/
theorem held_settle (h : g₀.WellFormed) {o : OpId} {w : ValueId} (hw : st.value o = some w)
    (hgone : ∀ x, st.gone x = true → Ops.isView g₀ x = true) {direct : List SlotId}
    (hdirect : ∀ s, s ∈ direct ↔ Ops.isView g₀ (g₀.slot s).owner = false ∧
      ∃ r ∈ (g₀.op o).results, (g₀.slot s).value = some r) (s : SlotId) :
    (st.settle o).held g₀ s = if s ∈ direct then some w else st.held g₀ s := by
  by_cases hmem : s ∈ direct
  · -- no view is in the list, and only views are gone
    obtain ⟨hview, r, hr, hvalue⟩ := (hdirect s).mp hmem
    have hstays : ¬ st.gone (g₀.slot s).owner = true := fun hc =>
      Bool.eq_false_iff.mp hview (hgone _ hc)
    rw [if_pos hmem, held, if_neg fun hc => hstays hc.1, hview, hvalue, Option.map_some,
      redirected_of_mem h.owned hr, settled_settle, if_pos rfl, if_pos rfl]
    show some ((st.value o).getD r) = some w
    rw [hw]
    rfl
  · rw [if_neg hmem]
    unfold held
    refine if_congr Iff.rfl rfl ?_
    split
    · rfl
    · next hview =>
      refine Option.map_congr fun r hvalue => ?_
      unfold redirected
      split
      · next p n hsource =>
        -- another reader, so what it reads is not a result of `o`
        have hpo : p ≠ o := by
          rintro rfl
          have hr := h.owned.mem_results_iff.mpr ⟨h.uses.held s r hvalue, n, hsource⟩
          exact hmem ((hdirect s).mpr ⟨Bool.eq_false_iff.mpr hview, r, hr, hvalue⟩)
        rw [settled_settle, if_neg hpo]
        rfl
      · rfl

theorem places_erase_of_ne {x z : OpId} (hz : z ≠ x) : (st.erase x).places z = st.places z := by
  unfold places
  rw [gone_erase, if_neg hz]
  rfl

/-- `Stage.erase` empties the operands of `x`. -/
theorem held_erase (h : g₀.WellFormed) (x : OpId) (s : SlotId) :
    (st.erase x).held g₀ s = if s ∈ (g₀.op x).operands then none else st.held g₀ s := by
  unfold held
  rw [gone_erase]
  by_cases hmem : s ∈ (g₀.op x).operands
  · rw [(h.numbered.of_mem hmem).2.1, if_pos rfl, if_pos ⟨rfl, hmem⟩, if_pos hmem]
  · rw [if_neg hmem]
    refine if_congr ?_ rfl rfl
    split
    · next howner =>
      rw [howner]
      -- a slot of `x` that is not among its operands is not emptied
      exact iff_of_false (fun hc => hmem hc.2) fun hc => hmem hc.2
    · exact Iff.rfl

section

variable {x y : OpId} {v : ValueId}

theorem places_rebuild_of_ne {z : OpId} (hz : z ≠ x) :
    (st.rebuild x y v).places z = st.places z := by
  unfold places
  rw [view_rebuild, if_neg hz]
  rfl

/-- `Stage.rebuild` leaves what the readers of another operation `o` were given. -/
theorem value_rebuild_of_some (hx : st.value x = none) {o : OpId} {w : ValueId}
    (ho : st.value o = some w) : (st.rebuild x y v).value o = some w := by
  rw [value_rebuild, if_neg]
  · exact ho
  · rintro rfl
    rw [hx] at ho
    cases ho

/-- `Stage.rebuild` leaves what was built for another view `z`. -/
theorem view_rebuild_of_some (hx : st.view x = none) {z y' : OpId} (hz : st.view z = some y') :
    (st.rebuild x y v).view z = some y' := by
  rw [view_rebuild, if_neg]
  · exact hz
  · rintro rfl
    rw [hx] at hz
    cases hz

/-- `Stage.rebuild` does not change what slots hold. -/
theorem held_rebuild (hsettled : st.settled x = false) (s : SlotId) :
    (st.rebuild x y v).held g₀ s = st.held g₀ s := by
  -- only readers of settled operations are redirected, and `x` is none of them
  have hredirected : (st.rebuild x y v).redirected g₀ = st.redirected g₀ := by
    funext r
    unfold redirected
    split
    · next o n _ =>
      by_cases ho : o = x
      · subst ho
        show (if st.settled o = true then _ else _) = _
        rw [hsettled]
        rfl
      · rw [value_rebuild, if_neg ho]
        rfl
    · rfl
  unfold held
  rw [hredirected]
  rfl

end

end Stage

namespace Progress

variable {c₀ : Context} {old : OpId} {val : ValueId} {ty : MemDescTy} {st : Stage} {g : Graph}
  (hp : Progress c₀.graph old val ty st g) (h : Replacing c₀ old val ty)

include hp

/-- An operation of the start is listed only in its own place. -/
theorem not_mem_places {x z : OpId} (hx : c₀.graph.HasOp x) (hz : z ≠ x) : x ∉ st.places z := by
  intro hmem
  rcases List.mem_append.mp hmem with hmem | hmem
  · obtain ⟨_, _, _, _, -, -, -, -, hrebuilt, -⟩ := hp.views z x (Option.mem_toList.mp hmem)
    exact hrebuilt.fresh hx
  · split at hmem
    · cases hmem
    · exact hz (List.mem_singleton.mp hmem).symm

/-- A view `y` that was built is there. -/
theorem hasOp_of_view {x y : OpId} (hy : st.view x = some y) : g.HasOp y := by
  obtain ⟨_, _, v, _, -, -, -, -, hrebuilt, -⟩ := hp.views x y hy
  obtain ⟨slots, hslots⟩ := hrebuilt.row
  refine Graph.hasOp_of_mem_results (r := v) ?_
  rw [hslots]
  exact List.mem_singleton_self v

include h

/-- A step that changes only the place of `x` changes only the block of `x`. -/
theorem block_step {x : OpId} {st' : Stage} (change : List OpId → List OpId)
    (hothers : ∀ z, z ≠ x → st'.places z = st.places z)
    (hown : ∀ b, x ∈ (c₀.graph.block b).ops →
      change ((c₀.graph.block b).ops.flatMap st.places) =
        (c₀.graph.block b).ops.flatMap st'.places) (b : BlockId) :
    (if (c₀.graph.op x).block = some b then { g.block b with ops := change (g.block b).ops }
      else g.block b) =
      { c₀.graph.block b with ops := (c₀.graph.block b).ops.flatMap st'.places } := by
  have hmem := h.sound.graph.members.mem_iff x b
  rw [hp.block b]
  split
  · next hb => exact congrArg (fun ops => { c₀.graph.block b with ops }) (hown b (hmem.mp hb))
  · next hb =>
    refine congrArg (fun ops => { c₀.graph.block b with ops }) ?_
    refine List.flatMap_congr fun z hz => (hothers z ?_).symm
    rintro rfl
    exact hb (hmem.mpr hz)

/-! ## Redirecting readers -/

/-- The readers of `o` that are no views now read what they are to read. -/
theorem settle {o : OpId} {w : ValueId} (hw : st.value o = some w) {direct : List SlotId}
    (hdirect : ∀ s, s ∈ direct ↔ Ops.isView c₀.graph (c₀.graph.slot s).owner = false ∧
      ∃ r ∈ (c₀.graph.op o).results, (c₀.graph.slot s).value = some r) :
    Progress c₀.graph old val ty (st.settle o) (g.assignAll direct (some w)) := by
  -- the slots that are assigned were there at the start, those of new views were not
  have hslots : ∀ s ∈ direct, c₀.graph.HasSlot s := by
    intro s hs
    obtain ⟨-, r, -, hheld⟩ := (hdirect s).mp hs
    exact Graph.hasSlot_of_value_eq_some hheld
  have hheld := Graph.held_assignAll g (fun s hs => hp.within.hasSlot (hslots s hs)) (some w)
  have hrow : ∀ i, (g.assignAll direct (some w)).op i = g.op i := by
    intro i
    rw [Graph.op, Graph.ops_assignAll, ← Graph.op]
  exact {
    within := hp.within.trans (Graph.within_assignAll _ _ _)
    op := fun i hi => (hrow i).trans (hp.op i hi)
    block := fun b => by
      rw [Graph.block, Graph.blocks_assignAll, ← Graph.block]
      exact hp.block b
    source := fun v hv => by
      rw [Graph.source_assignAll]
      exact hp.source v hv
    typeOf := fun v hv => by
      rw [Graph.typeOf_assignAll]
      exact hp.typeOf v hv
    owner := fun s hs => by
      rw [Graph.owner_assignAll]
      exact hp.owner s hs
    held := fun s hs => by
      rw [hheld, hp.held s hs]
      exact (Stage.held_settle h.sound.graph hw (fun x hx => (hp.viewOf_of_gone hx).isView)
        hdirect s).symm
    fresh_op := fun i hi hno => by
      rw [Graph.HasOp, Graph.ops_assignAll] at hi
      exact hp.fresh_op i hi hno
    fresh_slot := fun s hs u hu => by
      rw [hheld, if_neg fun hmem => hs (hslots s hmem)] at hu
      obtain ⟨x, y, hy, hmem⟩ := hp.fresh_slot s hs u hu
      exact ⟨x, y, hy, by rw [hrow]; exact hmem⟩
    views := fun x y hy => by
      obtain ⟨p, u, v, t, hviewed, hfeeds, hu, hv, hrebuilt, ht, htype⟩ := hp.views x y hy
      refine ⟨p, u, v, t, hviewed, hfeeds, hu, hv, hrebuilt.congr (hrow y) fun s _ hs => ?_, ht, ?_⟩
      · rw [hheld, if_neg fun hmem => hs (hslots s hmem)]
      · rw [Graph.typeOf_assignAll]
        exact htype
    value_old := hp.value_old
    value_view := hp.value_view
    settled_value := fun p hsettled => by
      rw [Stage.settled_settle] at hsettled
      split at hsettled
      · next hpo => exact ⟨w, hpo ▸ hw⟩
      · exact hp.settled_value p hsettled
    gone_settled := fun x hgone => by
      obtain ⟨hsettled, hview⟩ := hp.gone_settled x hgone
      refine ⟨?_, hview⟩
      rw [Stage.settled_settle, hsettled, ite_self]
    gone_below := hp.gone_below }

/-! ## Erasing a view -/

/-- A view `x` whose readers have been redirected and whose views are gone has no readers. -/
theorem unused {x : OpId} (hx : c₀.graph.Viewed old x) (hsettled : st.settled x = true)
    (hbelow : ∀ z, c₀.graph.Feeds x z → st.gone z = true) :
    ∀ r ∈ (c₀.graph.op x).results, ∀ s, (g.slot s).value ≠ some r := by
  intro r hr s hs
  -- a reader that is a view is gone with what it held, the others have been redirected
  obtain ⟨hheld, hreader⟩ := (hp.held_iff h hx hr).mp hs
  split at hreader
  · next hview =>
    rw [hbelow _ ⟨hview, s, rfl, r, hr, hheld⟩] at hreader
    cases hreader
  · rw [hsettled] at hreader
    cases hreader

/-- Of a view `x` that is built anew and erased, the new one stays in the block. -/
theorem erase_places {x y : OpId} (hy : st.view x = some y) (hgone : st.gone x = false)
    (b : BlockId) (hmem : x ∈ (c₀.graph.block b).ops) :
    ((c₀.graph.block b).ops.flatMap st.places).erase x =
      (c₀.graph.block b).ops.flatMap (st.erase x).places := by
  obtain ⟨_, _, _, _, -, -, -, -, hrebuilt, -⟩ := hp.views x y hy
  have hx := (hp.viewOf_of_view hy).hasOp
  have hyx : y ≠ x := by
    rintro rfl
    exact hrebuilt.fresh hx
  refine erase_flatMap (h.sound.graph.members.nodup b) hmem hyx ?_ ?_
    fun z _ hz => ⟨hp.not_mem_places hx hz, Stage.places_erase_of_ne hz⟩
  · rw [Stage.places, hy, hgone]
    rfl
  · rw [Stage.places, Stage.gone_erase, if_pos rfl]
    show (st.view x).toList ++ [] = [y]
    rw [hy]
    rfl

/-- A view `x` whose views are gone may be erased next. -/
theorem erase {x y : OpId} (hy : st.view x = some y) (hsettled : st.settled x = true)
    (hgone : st.gone x = false) (hbelow : ∀ z, c₀.graph.Feeds x z → st.gone z = true) :
    Progress c₀.graph old val ty (st.erase x) (g.erasedLeaf x) := by
  have hx := (hp.viewOf_of_view hy).hasOp
  have hrow := hp.op_of_not_gone hx hgone
  -- the operands of `x` were there at the start, and so was `x`
  have hheld : ∀ s, ¬ c₀.graph.HasSlot s →
      ((g.erasedLeaf x).slot s).value = (g.slot s).value := by
    intro s hs
    rw [(Graph.slot_erasedLeaf g x s).2, hrow,
      if_neg fun hmem => hs (h.sound.graph.numbered.of_mem hmem).1]
  have hfresh : ∀ z y', st.view z = some y' → (g.erasedLeaf x).op y' = g.op y' := by
    intro z y' hy'
    obtain ⟨_, _, _, _, -, -, -, -, hrebuilt', -⟩ := hp.views z y' hy'
    refine Graph.op_erasedLeaf_of_ne g x ?_
    rintro rfl
    exact hrebuilt'.fresh hx
  exact {
    within := hp.within.trans (Graph.within_erasedLeaf g x)
    op := fun i hi => by
      rw [Stage.gone_erase]
      by_cases hix : i = x
      · subst hix
        rw [if_pos rfl, if_pos rfl, Graph.op_erasedLeaf_self (hp.within.hasOp hi), hrow]
      · rw [if_neg hix, Graph.op_erasedLeaf_of_ne g x hix]
        exact hp.op i hi
    block := fun b => by
      rw [Graph.block_erasedLeaf, hrow]
      exact hp.block_step h (·.erase x) (fun _ => Stage.places_erase_of_ne)
        (hp.erase_places h hy hgone) b
    source := fun v hv => by
      rw [Graph.source_erasedLeaf]
      exact hp.source v hv
    typeOf := fun v hv => by
      rw [Graph.typeOf_erasedLeaf]
      exact hp.typeOf v hv
    owner := fun s hs => by
      rw [(Graph.slot_erasedLeaf g x s).1]
      exact hp.owner s hs
    held := fun s hs => by
      rw [(Graph.slot_erasedLeaf g x s).2, hrow, hp.held s hs]
      exact (Stage.held_erase h.sound.graph x s).symm
    fresh_op := fun i hi hno => by
      rw [Graph.HasOp, Graph.size_ops_erasedLeaf] at hi
      exact hp.fresh_op i hi hno
    fresh_slot := fun s hs u hu => by
      rw [hheld s hs] at hu
      obtain ⟨z, y', hy', hmem⟩ := hp.fresh_slot s hs u hu
      exact ⟨z, y', hy', by rw [hfresh z y' hy']; exact hmem⟩
    views := fun z y' hy' => by
      obtain ⟨p, u, v, t, hviewed, hfeeds, hu, hv, hrebuilt', ht, htype⟩ := hp.views z y' hy'
      refine ⟨p, u, v, t, hviewed, hfeeds, hu, hv,
        hrebuilt'.congr (hfresh z y' hy') fun s _ hs => hheld s hs, ht, ?_⟩
      rw [Graph.typeOf_erasedLeaf]
      exact htype
    value_old := hp.value_old
    value_view := hp.value_view
    settled_value := hp.settled_value
    gone_settled := fun z hz => by
      rw [Stage.gone_erase] at hz
      split at hz
      · next hzx =>
        subst hzx
        exact ⟨hsettled, y, hy⟩
      · exact hp.gone_settled z hz
    gone_below := fun z z' hz hfeeds => by
      rw [Stage.gone_erase] at hz ⊢
      split
      · rfl
      · split at hz
        · next hzx =>
          subst hzx
          exact hbelow z' hfeeds
        · exact hp.gone_below z z' hz hfeeds }

/-! ## Building a view -/

omit h in
/-- What was built for another view `z` is as it was when one more is built. -/
theorem views_rebuild_of_ne {g' : Graph} {x y z y' : OpId} {v : ValueId} (hz : z ≠ x)
    (hvalue : st.value x = none) (hputs : g.PutsBefore g' x y) (hg : g.WellFormed)
    (hy' : st.view z = some y') :
    ∃ p w u t, c₀.graph.Viewed old p ∧ c₀.graph.Feeds p z ∧
      (st.rebuild x y v).value p = some w ∧ (st.rebuild x y v).value z = some u ∧
      Rebuilt c₀.graph g' z y' w u ∧ c₀.graph.Rebuilds old ty z t ∧
      g'.typeOf u = some (.memDesc t) := by
  obtain ⟨p, w, u, t, hviewed, hfeeds, hw, hu, hrebuilt, ht, htype⟩ := hp.views z y' hy'
  have hrow := hputs.op y' (hp.hasOp_of_view hy')
  refine ⟨p, w, u, t, hviewed, hfeeds, Stage.value_rebuild_of_some hvalue hw, ?_,
    hrebuilt.congr hrow fun s hs _ => ?_, ht, ?_⟩
  · rw [Stage.value_rebuild, if_neg hz]
    exact hu
  · rw [hputs.slot s (hg.numbered.of_mem hs).1]
  · rw [hputs.typeOf u (Graph.hasValue_of_typeOf htype)]
    exact htype

/-- The view `y` that is built anew comes right before `x`. -/
theorem insertIdx_places {x : OpId} (hx : c₀.graph.HasOp x) (hview : st.view x = none)
    (hgone : st.gone x = false) (y : OpId) (v : ValueId) (b : BlockId)
    (hmem : x ∈ (c₀.graph.block b).ops) :
    ((c₀.graph.block b).ops.flatMap st.places).insertIdx
        (((c₀.graph.block b).ops.flatMap st.places).idxOf x) y =
      (c₀.graph.block b).ops.flatMap (st.rebuild x y v).places := by
  refine insertIdx_flatMap (h.sound.graph.members.nodup b) hmem ?_ ?_
    fun z _ hz => ⟨hp.not_mem_places hx hz, Stage.places_rebuild_of_ne hz⟩
  · rw [Stage.places, hview, hgone]
    rfl
  · rw [Stage.places, Stage.view_rebuild, if_pos rfl]
    show [y] ++ (if st.gone x = true then [] else [x]) = [y, x]
    rw [hgone]
    rfl

/-- A view of `p` may be built anew on what the readers of `p` are to read. -/
theorem rebuild {g' : Graph} {p x y : OpId} {w v : ValueId} {t : MemDescTy}
    (hviewed : c₀.graph.Viewed old p) (hfeeds : c₀.graph.Feeds p x) (hw : st.value p = some w)
    (hview : st.view x = none) (hputs : g.PutsBefore g' x y)
    (hrebuilt : Rebuilt c₀.graph g' x y w v) (ht : c₀.graph.Rebuilds old ty x t)
    (htype : g'.typeOf v = some (.memDesc t)) (hg : g.WellFormed) :
    Progress c₀.graph old val ty (st.rebuild x y v) g' := by
  have hx := hfeeds.hasOp
  -- the view has not been dealt with yet, so its new value and view are in nobody's way
  obtain ⟨hvalue, hsettled, hgone⟩ :=
    hp.untouched (h.tree.ne_of_viewOf (.tail' hviewed hfeeds)) hview
  have hself : (st.rebuild x y v).view x = some y := by rw [Stage.view_rebuild, if_pos rfl]
  have hslot : ∀ s, c₀.graph.HasSlot s → g'.slot s = g.slot s := fun s hs =>
    hputs.slot s (hp.within.hasSlot hs)
  exact {
    within := hp.within.trans hputs.within
    op := fun i hi => (hputs.op i (hp.within.hasOp hi)).trans (hp.op i hi)
    block := fun b => by
      rw [hputs.block, hp.op_of_not_gone hx hgone]
      exact hp.block_step h (fun ops => ops.insertIdx (ops.idxOf x) y)
        (fun _ => Stage.places_rebuild_of_ne) (hp.insertIdx_places h hx hview hgone y v) b
    source := fun u hu => (hputs.source u (hp.within.hasValue hu)).trans (hp.source u hu)
    typeOf := fun u hu => (hputs.typeOf u (hp.within.hasValue hu)).trans (hp.typeOf u hu)
    owner := fun s hs => by
      rw [hslot s hs]
      exact hp.owner s hs
    held := fun s hs => by
      rw [hslot s hs, hp.held s hs]
      exact (Stage.held_rebuild hsettled s).symm
    fresh_op := fun i hi hno => by
      rcases hputs.only i hi with hi | rfl
      · obtain ⟨z, hz⟩ := hp.fresh_op i hi hno
        exact ⟨z, Stage.view_rebuild_of_some hview hz⟩
      · exact ⟨x, hself⟩
    fresh_slot := fun s hs u hu => by
      by_cases hthere : g.HasSlot s
      · rw [hputs.slot s hthere] at hu
        obtain ⟨z, y', hy', hmem⟩ := hp.fresh_slot s hs u hu
        refine ⟨z, y', Stage.view_rebuild_of_some hview hy', ?_⟩
        rw [hputs.op y' (hp.hasOp_of_view hy')]
        exact hmem
      · exact ⟨x, y, hself, hputs.fresh_slot s hthere u hu⟩
    views := fun z y' hy' => by
      rw [Stage.view_rebuild] at hy'
      split at hy'
      · next hzx =>
        cases hy'
        subst hzx
        refine ⟨p, w, v, t, hviewed, hfeeds, Stage.value_rebuild_of_some hvalue hw, ?_, hrebuilt,
          ht, htype⟩
        rw [Stage.value_rebuild, if_pos rfl]
      · next hzx => exact hp.views_rebuild_of_ne hzx hvalue hputs hg hy'
    value_old := Stage.value_rebuild_of_some hvalue hp.value_old
    value_view := fun o u hu => by
      rw [Stage.value_rebuild] at hu
      rw [Stage.view_rebuild]
      split at hu
      · next hox => exact Or.inr ⟨y, by rw [if_pos hox]⟩
      · next hox =>
        rw [if_neg hox]
        exact hp.value_view o u hu
    settled_value := fun o ho => by
      obtain ⟨u, hu⟩ := hp.settled_value o ho
      exact ⟨u, Stage.value_rebuild_of_some hvalue hu⟩
    gone_settled := fun z hz => by
      obtain ⟨hz, y', hy'⟩ := hp.gone_settled z hz
      exact ⟨hz, y', Stage.view_rebuild_of_some hview hy'⟩
    gone_below := hp.gone_below }

end Progress

end Buffer

end Multistage
