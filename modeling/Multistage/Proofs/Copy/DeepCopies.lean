import Mathlib.Data.Set.Function
import Multistage.Proofs.Copy.CopyStages

/-!
# Deep copies

The copy of a finite tree has the shape of the tree: there are new names for its operations,
regions, blocks and values, each used once, under which every row of the copy is the row of the
original (`Graph.IsCopy`). A copied operand reads the copy of what it read if that belongs to the
tree and what the mapping says otherwise. All of this is read off the last stage of the copy.
-/

namespace Multistage

namespace Graph

/-- Block `b` belongs to an operation of the tree of `root`. -/
def BlockInside (g : Graph) (root : OpId) (b : BlockId) : Prop :=
  ∃ j, g.blockParent b = some j ∧ g.Inside root j

/-- Region `r` belongs to an operation of the tree of `root`. -/
def RegionInside (g : Graph) (root : OpId) (r : RegionId) : Prop :=
  g.Inside root r.op ∧ r.index < (g.op r.op).regions.length

/-- Under new names the rows of the tree of `root` are rows of the second graph. -/
structure Mirrors (g g' : Graph) (root : OpId) (φ : Renaming) : Prop where
  op : ∀ j, g.Inside root j → ∃ slots, g'.op (φ.op j) = { g.op j with
    operands := slots
    results := (g.op j).results.map φ.value
    regions := (g.op j).regions.map (·.map φ.block)
    block := if j = root then none else (g.op j).block.map φ.block
    erased := false }
  block : ∀ b, g.BlockInside root b → g'.block (φ.block b) =
    { args := (g.block b).args.map φ.value
      ops := (g.block b).ops.map φ.op
      home := (g.block b).home.map φ.region }
  type : ∀ v, g.DefinedIn root v → g'.typeOf (φ.value v) = g.typeOf v

/-- The tree of `φ.op root` in the second graph is the tree of `root` in the first under new names,
each of which is used once. -/
structure IsCopy (g g' : Graph) (root : OpId) (φ : Renaming) : Prop extends
    g.Mirrors g' root φ where
  ops : Set.BijOn φ.op {j | g.Inside root j} {j | g'.Inside (φ.op root) j}
  regions : Set.BijOn φ.region {r | g.RegionInside root r} {r | g'.RegionInside (φ.op root) r}
  blocks : Set.BijOn φ.block {b | g.BlockInside root b} {b | g'.BlockInside (φ.op root) b}
  values : Set.BijOn φ.value {v | g.DefinedIn root v} {v | g'.DefinedIn (φ.op root) v}

/-- Every operand that reads a value of the tree reads a result of an operation that is earlier in
`preorder`, or an argument of a block in a region around it. -/
def ReadsBack (g : Graph) (root : OpId) : Prop :=
  ∀ j, g.Inside root j → ∀ v, some v ∈ g.operands j → g.DefinedIn root v →
    (∃ d, v ∈ (g.op d).results ∧ [d, j].Sublist (g.preorder root)) ∨
      ∃ b r, v ∈ (g.block b).args ∧ (g.block b).home = some r ∧ g.LiesIn r j

/-! ## The rows of a copy -/

/-- What comes before an entry `x` that is not repeated stands in front of it. -/
theorem mem_of_pair_sublist {α : Type} {a x : α} {front back : List α}
    (h : [a, x].Sublist (front ++ x :: back)) (hnodup : (front ++ x :: back).Nodup) :
    a ∈ front := by
  obtain ⟨-, hback, -⟩ := List.nodup_append.mp hnodup
  have hx := (List.nodup_cons.mp hback).1
  obtain ⟨first, second, hsplit, hfirst, hsecond⟩ := List.sublist_append_iff.mp h
  cases first with
  | cons y rest =>
    obtain rfl : a = y := List.head_eq_of_cons_eq hsplit
    exact hfirst.subset List.mem_cons_self
  | nil =>
    rw [List.nil_append] at hsplit
    subst hsplit
    -- then the entry itself would come again
    cases hsecond with
    | cons _ hrest => exact absurd (hrest.subset (by simp)) hx
    | cons_cons _ hrest => exact absurd (hrest.subset (by simp)) hx

section

variable {g g' : Graph} {m m' : Mapping} {root : OpId} (hwf : g.WellFormed)
  (honce : g.BlocksOnce) (htree : g.FiniteTree root) (hfits : g.Fits g.ops.size root)
  (h : Stage g m (g.partsTo g.ops.size root) (g.partsTo g.ops.size root) (g', m'))

include hwf honce htree hfits h

theorem mirrors_of_stage : g.Mirrors g' root (g.freshNames (g.partsTo g.ops.size root)) := by
  set φ := g.freshNames (g.partsTo g.ops.size root)
  constructor
  case op =>
    intro j hj
    obtain ⟨slots, -, hop⟩ := h.op j ((mem_partsTo_iff hwf hfits).mpr ⟨j, rfl, hj⟩)
    refine ⟨slots, hop.trans ?_⟩
    have hregions : ((g.op j).regions.mapIdx fun r _ =>
        (g.blocksIn (g.partsTo g.ops.size root) ⟨j, r⟩).map φ.block) =
        (g.op j).regions.map (·.map φ.block) := by
      apply List.ext_getElem?
      intro r
      rw [List.getElem?_mapIdx, List.getElem?_map]
      cases hr : (g.op j).regions[r]? with
      | none => rfl
      | some blocks =>
        rw [Option.map_some, Option.map_some, blocksIn,
          filter_blocks_partsTo hwf honce htree hfits hj hr]
    -- every operation but the root has got its place
    have hplaced : Part.placed j ∈ g.partsTo g.ops.size root ↔ ¬ j = root := by
      rw [mem_partsTo_iff hwf hfits]
      constructor
      · rintro ⟨p, hp, hin⟩ rfl
        exact htree.not_inside_parent hwf hp hin
      · intro hne
        cases hj with
        | root => exact absurd rfl hne
        | step hp hin => exact ⟨_, hp, hin⟩
    rw [copiedOp, hregions]
    by_cases hroot : j = root
    · rw [if_neg fun hmem => hplaced.mp hmem hroot, if_pos hroot]
    · rw [if_pos (hplaced.mpr hroot), if_neg hroot]
  case block =>
    intro b hb
    have hmem : Part.block b ∈ g.partsTo g.ops.size root := (mem_partsTo_iff hwf hfits).mpr hb
    obtain ⟨j, hj, hin⟩ := hb
    rw [h.block b hmem, copiedBlock, opsIn, filter_placed_partsTo hwf honce htree hfits hin hj]
  case type => exact fun v hv => h.types v ((mem_values_partsTo_iff hwf hfits).mpr hv)

omit h in
/-- What an operand of `j` reads of the tree is brought by a part that comes before `.op j`. -/
theorem mem_values_before (hreads : g.ReadsBack root) {j : OpId} (hj : g.Inside root j)
    {before after : List Part} (hsplit : g.partsTo g.ops.size root = before ++ .op j :: after)
    {u : ValueId} (hu : some u ∈ g.operands j) (hdefined : g.DefinedIn root u) :
    u ∈ before.flatMap (Part.values g) := by
  have hnodup := nodup_partsTo hwf honce htree g.ops.size
  rcases hreads j hj u hu hdefined with ⟨d, hd, horder⟩ | ⟨b, r, hub, hhome, hlies⟩
  · -- a result that comes earlier in the walk belongs to a part before `j`
    have hops : g.preorder root = before.filterMap Part.op? ++
        j :: after.filterMap Part.op? := by
      rw [preorder, ← filterMap_op?_partsTo, hsplit, List.filterMap_append]
      rfl
    have hops_nodup := hnodup.filterMap Part.op?_inj
    rw [filterMap_op?_partsTo, ← preorder] at hops_nodup
    rw [hops] at horder hops_nodup
    obtain ⟨p, hp, hpd⟩ := List.mem_filterMap.mp (mem_of_pair_sublist horder hops_nodup)
    obtain rfl : p = .op d := Part.op?_inj _ _ d hpd rfl
    exact List.mem_flatMap.mpr ⟨_, hp, hd⟩
  · have hin : g.Inside root r.op := by
      obtain ⟨p, hp, hup⟩ := List.mem_flatMap.mp
        ((mem_values_partsTo_iff hwf hfits).mpr hdefined)
      obtain rfl : p = .block b :=
        (Part.mem_values hwf.owned hup).2.trans
          (Part.mem_values (p := .block b) hwf.owned hub).2.symm
      obtain ⟨i, hi, hin⟩ := (mem_partsTo_iff hwf hfits).mp hp
      rw [Part.owner, blockParent, hhome] at hi
      cases hi
      exact hin
    -- all blocks of a region come before what lies in it
    have horder := block_before_op hwf hfits hin hhome hlies
    rw [hsplit] at horder hnodup
    exact List.mem_flatMap.mpr ⟨_, mem_of_pair_sublist horder hnodup, hub⟩

/-- What an operand reads is entered when its turn comes, or is not entered at all. -/
theorem operands_of_stage (hreads : g.ReadsBack root) {j : OpId} (hj : g.Inside root j) :
    g'.operands ((g.freshNames (g.partsTo g.ops.size root)).op j) = (g.operands j).map m'.get := by
  have hmem : Part.op j ∈ g.partsTo g.ops.size root :=
    (mem_partsTo_iff hwf hfits).mpr ⟨j, rfl, hj⟩
  have hmapping : m' = _ := h.mapping
  obtain ⟨before, after, hsplit⟩ := List.append_of_mem hmem
  rw [h.operands before j after hsplit, hmapping]
  apply List.map_congr_left
  intro v hv
  unfold Mapping.get
  congr 1
  cases v with
  | none =>
    have hnone : ∀ w : ValueId, none = some w → ∀ vs : List ValueId, w ∉ vs := by
      rintro w ⟨⟩
    rw [Mapping.lookup_insertAll_of_not_mem fun w hw => hnone w hw _,
      Mapping.lookup_insertAll_of_not_mem fun w hw => hnone w hw _]
  | some u =>
    by_cases hdefined : g.DefinedIn root u
    · have hknown := mem_values_before hwf honce htree hfits hreads hj hsplit hv hdefined
      have hentered := (mem_values_partsTo_iff hwf hfits).mpr hdefined
      rw [Mapping.lookup_insertAll_of_mem hknown, Mapping.lookup_insertAll_of_mem hentered]
    · have hnever : u ∉ (g.partsTo g.ops.size root).flatMap (Part.values g) := fun hmem =>
        hdefined ((mem_values_partsTo_iff hwf hfits).mp hmem)
      have hnot : u ∉ before.flatMap (Part.values g) := by
        intro hmem
        apply hnever
        rw [hsplit, List.flatMap_append]
        exact List.mem_append_left _ hmem
      rw [Mapping.lookup_insertAll_of_not_mem fun w hw => Option.some.inj hw ▸ hnot,
        Mapping.lookup_insertAll_of_not_mem fun w hw => Option.some.inj hw ▸ hnever]

end

/-! ## The names of a copy -/

theorem blockParent_eq_some_iff {g : Graph} (howned : g.Owned) {b : BlockId} {i : OpId} :
    g.blockParent b = some i ↔ b ∈ (g.op i).regions.flatten := by
  rw [howned.mem_regions_iff, blockParent, Option.map_eq_some_iff]
  constructor
  · rintro ⟨r, hr, rfl⟩
    exact ⟨r.index, hr⟩
  · rintro ⟨k, hk⟩
    exact ⟨⟨i, k⟩, hk, rfl⟩

namespace Mirrors

variable {g g' : Graph} {root : OpId} {φ : Renaming} (h : g.Mirrors g' root φ)

include h

theorem regions_eq {j : OpId} (hj : g.Inside root j) :
    (g'.op (φ.op j)).regions = (g.op j).regions.map (·.map φ.block) := by
  obtain ⟨slots, hrow⟩ := h.op j hj
  rw [hrow]

theorem results_eq {j : OpId} (hj : g.Inside root j) :
    (g'.op (φ.op j)).results = (g.op j).results.map φ.value := by
  obtain ⟨slots, hrow⟩ := h.op j hj
  rw [hrow]

theorem blockParent_eq {b : BlockId} {j : OpId} (hj : g.Inside root j)
    (hb : g.blockParent b = some j) : g'.blockParent (φ.block b) = some (φ.op j) := by
  obtain ⟨r, hr, rfl⟩ := Option.map_eq_some_iff.mp hb
  rw [blockParent, h.block b ⟨_, hb, hj⟩, hr]
  rfl

theorem inside (hwf : g.WellFormed) (htree : g.FiniteTree root) {j : OpId}
    (hj : g.Inside root j) : g'.Inside (φ.op root) (φ.op j) := by
  induction hj with
  | root => exact .root
  | @step j p hp hin ih =>
    have hne : j ≠ root := by
      rintro rfl
      exact htree.not_inside_parent hwf hp hin
    refine .step ?_ ih
    obtain ⟨slots, hrow⟩ := h.op j (.step hp hin)
    obtain ⟨b, hb, hbp⟩ := Option.bind_eq_some_iff.mp hp
    rw [parent, hrow, if_neg hne, hb]
    exact h.blockParent_eq hin hbp

variable (hwf : g.WellFormed) (hwf' : g'.WellFormed)

include hwf hwf'

/-- A block in the copy of `j` is the copy of a block in `j`. -/
theorem exists_block {j : OpId} (hj : g.Inside root j) {b' : BlockId}
    (hb' : g'.blockParent b' = some (φ.op j)) :
    ∃ b, g.blockParent b = some j ∧ φ.block b = b' := by
  have hmem := (blockParent_eq_some_iff hwf'.owned).mp hb'
  rw [h.regions_eq hj, ← List.map_flatten] at hmem
  obtain ⟨b, hb, rfl⟩ := List.mem_map.mp hmem
  exact ⟨b, (blockParent_eq_some_iff hwf.owned).mpr hb, rfl⟩

/-- What lies inside the copy of `root` is a copy of something inside. -/
theorem exists_op {j' : OpId} (hj' : g'.Inside (φ.op root) j') :
    ∃ j, g.Inside root j ∧ φ.op j = j' := by
  induction hj' with
  | root => exact ⟨root, .root, rfl⟩
  | step hp _ ih =>
    obtain ⟨p, hin, rfl⟩ := ih
    obtain ⟨b', hb', hbp⟩ := Option.bind_eq_some_iff.mp hp
    obtain ⟨b, hb, rfl⟩ := h.exists_block hwf hwf' hin hbp
    have hmem := (hwf'.members.mem_iff _ _).mp hb'
    rw [h.block b ⟨p, hb, hin⟩] at hmem
    obtain ⟨j, hj, rfl⟩ := List.mem_map.mp hmem
    refine ⟨j, .step ?_ hin, rfl⟩
    rw [parent, (hwf.members.mem_iff j b).mpr hj]
    exact hb

/-- If `φ` gives no two parts of the tree the same name, `Mirrors` gives `IsCopy`. -/
theorem isCopy (htree : g.FiniteTree root) (hops : Set.InjOn φ.op {j | g.Inside root j})
    (hblocks : Set.InjOn φ.block {b | g.BlockInside root b})
    (hvalues : Set.InjOn φ.value {v | g.DefinedIn root v}) : g.IsCopy g' root φ where
  toMirrors := h
  ops := ⟨fun j hj => h.inside hwf htree hj, hops, fun j' hj' => h.exists_op hwf hwf' hj'⟩
  regions := by
    refine ⟨?_, ?_, ?_⟩
    · rintro ⟨i, k⟩ ⟨hin, hindex⟩
      refine ⟨h.inside hwf htree hin, ?_⟩
      show k < (g'.op (φ.op i)).regions.length
      rw [h.regions_eq hin, List.length_map]
      exact hindex
    · rintro ⟨i, k⟩ ⟨hi, -⟩ ⟨j, l⟩ ⟨hj, -⟩ heq
      obtain ⟨hnames, rfl⟩ := RegionId.mk.inj heq
      obtain rfl : i = j := hops hi hj hnames
      rfl
    · rintro ⟨j', k⟩ ⟨hin, hindex⟩
      obtain ⟨j, hj, rfl⟩ := h.exists_op hwf hwf' hin
      refine ⟨⟨j, k⟩, ⟨hj, ?_⟩, rfl⟩
      rw [h.regions_eq hj, List.length_map] at hindex
      exact hindex
  blocks := by
    refine ⟨?_, hblocks, ?_⟩
    · rintro b ⟨j, hb, hj⟩
      exact ⟨_, h.blockParent_eq hj hb, h.inside hwf htree hj⟩
    · rintro b' ⟨j', hb', hj'⟩
      obtain ⟨j, hj, rfl⟩ := h.exists_op hwf hwf' hj'
      obtain ⟨b, hb, rfl⟩ := h.exists_block hwf hwf' hj hb'
      exact ⟨b, ⟨j, hb, hj⟩, rfl⟩
  values := by
    refine ⟨?_, hvalues, ?_⟩
    · rintro v ⟨j, hj, hv | ⟨b, hb, hv⟩⟩
      · refine ⟨_, h.inside hwf htree hj, Or.inl ?_⟩
        rw [h.results_eq hj]
        exact List.mem_map_of_mem hv
      · refine ⟨_, h.inside hwf htree hj, Or.inr ⟨_, h.blockParent_eq hj hb, ?_⟩⟩
        rw [h.block b ⟨j, hb, hj⟩]
        exact List.mem_map_of_mem hv
    · rintro v' ⟨j', hj', hv'⟩
      obtain ⟨j, hj, rfl⟩ := h.exists_op hwf hwf' hj'
      rcases hv' with hv' | ⟨b', hb', hv'⟩
      · rw [h.results_eq hj] at hv'
        obtain ⟨v, hv, rfl⟩ := List.mem_map.mp hv'
        exact ⟨v, ⟨j, hj, Or.inl hv⟩, rfl⟩
      · obtain ⟨b, hb, rfl⟩ := h.exists_block hwf hwf' hj hb'
        rw [h.block b ⟨j, hb, hj⟩] at hv'
        obtain ⟨v, hv, rfl⟩ := List.mem_map.mp hv'
        exact ⟨v, ⟨j, hj, Or.inr ⟨b, hb, hv⟩⟩, rfl⟩

end Mirrors

/-! ## What else changes -/

/-- All that was there is as it was, but for new uses by what lies inside `new`, which come last. -/
structure AddsReaders (g g' : Graph) (new : OpId) : Prop where
  op : ∀ i, g.HasOp i → g'.op i = g.op i
  block : ∀ b, g.HasBlock b → g'.block b = g.block b
  slot : ∀ t, g.HasSlot t → (g'.slot t).value = (g.slot t).value
  value : ∀ v, g.HasValue v → ∃ readers,
    g'.value v = { g.value v with uses := (g.value v).uses ++ readers } ∧
    ∀ t ∈ readers, (g'.slot t).value = some v ∧ ∃ j, g'.Inside new j ∧ t ∈ (g'.op j).operands

/-- What `clone` leaves: `g'` has a copy of the tree by `φ`, and `m'` has its values entered. -/
structure Cloned (g : Graph) (root : OpId) (m : Mapping) (φ : Renaming) (g' : Graph)
    (m' : Mapping) : Prop where
  result : g.clone root m = (φ.op root, g', m')
  wellFormed : g'.WellFormed
  copy : g.IsCopy g' root φ
  operands : ∀ j, g.Inside root j → g'.operands (φ.op j) = (g.operands j).map m'.get
  entered : ∀ v, g.DefinedIn root v → m'.entries.lookup (some v) = some (some (φ.value v))
  others : ∀ v, (∀ w, v = some w → ¬ g.DefinedIn root w) →
    m'.entries.lookup v = m.entries.lookup v
  freshOp : ∀ i, ¬ g.HasOp (φ.op i)
  freshBlock : ∀ b, ¬ g.HasBlock (φ.block b)
  freshValue : ∀ v, ¬ g.HasValue (φ.value v)
  keeps : g.AddsReaders g' (φ.op root)

theorem exists_cloned {g : Graph} {root : OpId} {m : Mapping} (hwf : g.WellFormed)
    (honce : g.BlocksOnce) (hroot : g.HasOp root) (htree : g.FiniteTree root)
    (hreads : g.ReadsBack root) (hm : m.Into g) : ∃ φ g' m', g.Cloned root m φ g' m' := by
  obtain ⟨hname, hstage⟩ := stage_clone hwf honce htree hroot m
  obtain ⟨hpath, -, -⟩ := edits_clone Catalog.builtin hwf hm root
  have hfits := htree.fits hwf hroot
  have hwf' := hwf.edits hpath
  generalize hclone : g.clone root m = result at hname hstage hwf'
  obtain ⟨new, g', m'⟩ := result
  obtain rfl : new = _ := hname
  have hmirrors := mirrors_of_stage hwf honce htree hfits hstage
  have hmapping : m' = _ := hstage.mapping
  refine ⟨g.freshNames (g.partsTo g.ops.size root), g', m', ?_⟩
  constructor
  case result => exact hclone
  case wellFormed => exact hwf'
  case copy =>
    apply hmirrors.isCopy hwf hwf' htree
    · intro i hi j _ heq
      exact freshNames_op_inj ((mem_partsTo_iff hwf hfits).mpr ⟨i, rfl, hi⟩) heq
    · intro b hb c _ heq
      exact freshNames_block_inj ((mem_partsTo_iff hwf hfits).mpr hb) heq
    · intro v hv w _ heq
      exact freshNames_value_inj ((mem_values_partsTo_iff hwf hfits).mpr hv) heq
  case operands => exact fun j hj => operands_of_stage hwf honce htree hfits hstage hreads hj
  case entered =>
    intro v hv
    rw [hmapping]
    exact Mapping.lookup_insertAll_of_mem ((mem_values_partsTo_iff hwf hfits).mpr hv)
  case others =>
    intro v hv
    rw [hmapping]
    exact Mapping.lookup_insertAll_of_not_mem fun w hw hmem =>
      hv w hw ((mem_values_partsTo_iff hwf hfits).mp hmem)
  case freshOp => exact fun i => not_hasOp_freshNames i
  case freshBlock => exact fun b => not_hasBlock_freshNames b
  case freshValue => exact fun v => not_hasValue_freshNames v
  case keeps =>
    refine ⟨hstage.grows.op, fun b hb => hstage.block_original hb,
      fun s hs => congrArg Slot.value (hstage.grows.row s hs), fun v hv => ?_⟩
    obtain ⟨readers, hrow⟩ := hstage.grows.readers v hv
    refine ⟨readers, hrow, fun t ht => ?_⟩
    have hcount : (g'.value v).uses.count t = if (g'.slot t).value = some v then 1 else 0 :=
      hwf'.uses.count t v
    have hmem : t ∈ (g'.value v).uses := by
      rw [hrow]
      exact List.mem_append_right _ ht
    have hheld := hwf'.uses.mem_uses_iff.mp hmem
    refine ⟨hheld, ?_⟩
    rcases hstage.slots t (hasSlot_of_value_eq_some hheld) with hold | ⟨j, hj, htj⟩
    · -- a slot that was there is a use already and would be one twice
      rw [hstage.grows.row t hold] at hheld
      have hfirst := hwf.uses.mem_uses_iff.mpr hheld
      have htwice : 2 ≤ (g'.value v).uses.count t := by
        rw [hrow, List.count_append]
        exact Nat.add_le_add (List.count_pos_iff.mpr hfirst) (List.count_pos_iff.mpr ht)
      rw [hcount] at htwice
      split at htwice <;> omega
    · obtain ⟨i, hi, hin⟩ := (mem_partsTo_iff hwf hfits).mp hj
      obtain rfl : j = i := Option.some.inj hi
      exact ⟨_, hmirrors.inside hwf htree hin, htj⟩

end Graph

/-- What the copy of an operand that reads `v` reads: the copy of a value of the tree, and of any
other value what `m` says. -/
def Renaming.ReadsAs (φ : Renaming) (g : Graph) (root : OpId) (m : Mapping)
    (v w : Option ValueId) : Prop :=
  (∀ u, v = some u → g.DefinedIn root u → w = some (φ.value u)) ∧
    ((∀ u, v = some u → ¬ g.DefinedIn root u) → w = m.get v)

namespace Renaming.ReadsAs

variable {φ : Renaming} {g : Graph} {root : OpId} {m : Mapping}

theorem inner {v : ValueId} (hv : g.DefinedIn root v) :
    φ.ReadsAs g root m (some v) (some (φ.value v)) :=
  ⟨fun _ hu _ => Option.some.inj hu ▸ rfl, fun hnot => absurd hv (hnot v rfl)⟩

theorem outer {v : Option ValueId} (hv : ∀ u, v = some u → ¬ g.DefinedIn root u) :
    φ.ReadsAs g root m v (m.get v) :=
  ⟨fun u hu hin => absurd hin (hv u hu), fun _ => rfl⟩

/-- `ReadsAs` leaves no other choice. -/
theorem rightUnique : Relator.RightUnique (φ.ReadsAs g root m) := by
  intro v w w' hw hw'
  by_cases hv : ∃ u, v = some u ∧ g.DefinedIn root u
  · obtain ⟨u, hu, hin⟩ := hv
    rw [hw.1 u hu hin, hw'.1 u hu hin]
  · have hout : ∀ u, v = some u → ¬ g.DefinedIn root u := fun u hu hin => hv ⟨u, hu, hin⟩
    rw [hw.2 hout, hw'.2 hout]

end Renaming.ReadsAs

section

variable {c : Context} {root : OpId} {m : Mapping}

theorem Graph.Cloned.readsAs {g g' : Graph} {φ : Renaming} {m' : Mapping}
    (h : g.Cloned root m φ g' m') (v : Option ValueId) : φ.ReadsAs g root m v (m'.get v) := by
  constructor
  · rintro u rfl hu
    rw [Mapping.get, h.entered u hu]
    rfl
  · intro hv
    rw [Mapping.get, h.others v hv, Mapping.get]

/-- With nothing to replace, no copied operand reads a value of the tree. -/
theorem Graph.Cloned.not_definedIn_of_empty {g g' : Graph} {φ : Renaming} {m' : Mapping}
    (h : g.Cloned root {} φ g' m') (hwf : g.WellFormed) {u : Option ValueId} {v : ValueId}
    (hu : m'.get u = some v) : ¬ g.DefinedIn root v := by
  intro hv
  obtain ⟨hinner, houter⟩ := h.readsAs u
  by_cases hdefined : ∃ w, u = some w ∧ g.DefinedIn root w
  · obtain ⟨w, hw, hin⟩ := hdefined
    rw [hinner w hw hin, Option.some.injEq] at hu
    subst hu
    exact h.freshValue w (hv.hasValue hwf.owned)
  · have hself : m'.get u = u := houter fun w hw hin => hdefined ⟨w, hw, hin⟩
    rw [hself] at hu
    exact hdefined ⟨v, hu, hv⟩

/-- `cloneDetached` of a finite tree gives an isomorphic one (`IsCopy`). Its names are new, its
operands read copies of what belongs to the tree and replacements of all else (`ReadsAs`), the
mapping knows all copies, and nothing that was there changes but for the ends of use lists. -/
theorem clone_is_isomorphic_copy (h : Reachable c) (hroot : c.graph.HasOp root)
    (htree : c.graph.FiniteTree root) (hreads : c.graph.ReadsBack root) (hm : m.Into c.graph) :
    ∃ (φ : Renaming) (g' : Graph) (m' : Mapping),
      Build.cloneDetached root m c = .ok (φ.op root, m') { c with graph := g' } ∧
      c.graph.IsCopy g' root φ ∧
      (g'.op (φ.op root)).block = none ∧
      (∀ j, c.graph.Inside root j →
        List.Forall₂ (φ.ReadsAs c.graph root m) (c.graph.operands j) (g'.operands (φ.op j))) ∧
      (m = {} → ∀ j, g'.Inside (φ.op root) j → ∀ v, some v ∈ g'.operands j →
        ¬ c.graph.DefinedIn root v) ∧
      (∀ v, c.graph.DefinedIn root v →
        m'.contains (some v) = true ∧ m'.get (some v) = some (φ.value v)) ∧
      (∀ v, (∀ w, v = some w → ¬ c.graph.DefinedIn root w) →
        m'.contains v = m.contains v ∧ m'.get v = m.get v) ∧
      (∀ j, g'.Inside (φ.op root) j → ¬ c.graph.HasOp j) ∧
      (∀ b, g'.BlockInside (φ.op root) b → ¬ c.graph.HasBlock b) ∧
      (∀ v, g'.DefinedIn (φ.op root) v → ¬ c.graph.HasValue v) ∧
      c.graph.AddsReaders g' (φ.op root) := by
  obtain ⟨φ, g', m', hcloned⟩ :=
    Graph.exists_cloned h.sound.graph (.reachable h) hroot htree hreads hm
  have hcopy := hcloned.copy
  have hclone : Build.cloneDetached root m c =
      .ok ((c.graph.clone root m).1, (c.graph.clone root m).2.2)
        { c with graph := (c.graph.clone root m).2.1 } := rfl
  rw [hcloned.result] at hclone
  refine ⟨φ, g', m', hclone, hcopy, ?_, ?_, ?_, ?_, ?_, ?_, ?_, ?_, hcloned.keeps⟩
  · obtain ⟨slots, hrow⟩ := hcopy.op root .root
    rw [hrow]
    exact if_pos rfl
  · intro j hj
    rw [hcloned.operands j hj, List.forall₂_map_right_iff]
    exact List.forall₂_same.mpr fun v _ => hcloned.readsAs v
  · rintro rfl j' hj' v hv
    obtain ⟨j, hj, rfl⟩ := hcopy.ops.surjOn hj'
    rw [hcloned.operands j hj] at hv
    obtain ⟨u, -, hu⟩ := List.mem_map.mp hv
    exact hcloned.not_definedIn_of_empty h.sound.graph hu
  · intro v hv
    rw [Mapping.contains, Mapping.get, hcloned.entered v hv]
    exact ⟨rfl, rfl⟩
  · intro v hv
    rw [Mapping.contains, Mapping.get, hcloned.others v hv]
    exact ⟨rfl, rfl⟩
  · intro j' hj'
    obtain ⟨j, -, rfl⟩ := hcopy.ops.surjOn hj'
    exact hcloned.freshOp j
  · intro b' hb'
    obtain ⟨b, -, rfl⟩ := hcopy.blocks.surjOn hb'
    exact hcloned.freshBlock b
  · intro v' hv'
    obtain ⟨v, -, rfl⟩ := hcopy.values.surjOn hv'
    exact hcloned.freshValue v

end

/-- A `func` with a loop that adds its iteration argument and its index, and another argument that
may stand in for the first. -/
def summing : List Request := [
  .createDetached { name := Kinds.func },
  .addBlock ⟨0⟩ 0,
  .addArgument ⟨0⟩ (some Ty.i32),
  .addArgument ⟨0⟩ (some Ty.i32),
  .moveToEnd (some ⟨0⟩),
  .create
    { name := Kinds.forLoop, segments := [[some ⟨0⟩], [some ⟨0⟩], [some ⟨0⟩], [some ⟨1⟩]],
      results := [some Ty.i32] },
  .addBlock ⟨1⟩ 0,
  .addArgument ⟨1⟩ (some Ty.i32),
  .addArgument ⟨1⟩ (some Ty.i32),
  .moveToEnd (some ⟨1⟩),
  .create { name := Kinds.addI, operands := [some ⟨4⟩, some ⟨3⟩], results := [some Ty.i32] },
  .create { name := Kinds.yield, operands := [some ⟨5⟩] }]

theorem reachable_summing : Reachable (Request.run summing {}) :=
  (Reachable.fresh .collect 0).run (by decide +kernel)

theorem fits_summing : (Request.run summing {}).graph.Fits 2 ⟨1⟩ := by decide +kernel

/-- In `summing` the loop reads nothing of its own, the sum reads arguments of its block, and the
yield reads the sum. -/
theorem readsBack_summing : (Request.run summing {}).graph.ReadsBack ⟨1⟩ := by
  have hwf := reachable_summing.sound.graph
  have hwalk : (Request.run summing {}).graph.postorder ⟨1⟩ = [⟨2⟩, ⟨3⟩, ⟨1⟩] := by decide +kernel
  intro j hj v hv hdefined
  have hmem := (Graph.mem_postorder_iff hwf (by decide +kernel)).mpr hj
  rw [hwalk] at hmem
  rcases List.mem_cons.mp hmem with rfl | hmem
  · have hargs : ∀ w ∈ (Request.run summing {}).graph.operands ⟨2⟩, ∀ u ∈ w,
        u ∈ ((Request.run summing {}).graph.block ⟨1⟩).args := by decide +kernel
    exact Or.inr ⟨⟨1⟩, ⟨⟨1⟩, 0⟩, hargs _ hv v rfl, by decide +kernel, ⟨2⟩, ⟨1⟩, .root,
      by decide +kernel, by decide +kernel⟩
  rcases List.mem_cons.mp hmem with rfl | hmem
  · have hresult : ∀ w ∈ (Request.run summing {}).graph.operands ⟨3⟩, ∀ u ∈ w,
        u ∈ ((Request.run summing {}).graph.op ⟨2⟩).results := by decide +kernel
    exact Or.inl ⟨⟨2⟩, hresult _ hv v rfl, by decide +kernel⟩
  · cases List.mem_singleton.mp hmem
    have houter : ∀ w ∈ (Request.run summing {}).graph.operands ⟨1⟩, ∀ u ∈ w,
        u ∉ ((Request.run summing {}).graph.partsTo 2 ⟨1⟩).flatMap
          (Graph.Part.values (Request.run summing {}).graph) := by decide +kernel
    exact absurd ((Graph.mem_values_partsTo_iff hwf fits_summing).mpr hdefined) (houter _ hv v rfl)

/-- On `summing`, with the second argument in place of the first, the copy of the loop reads the
second only, the copied sum reads the copied arguments, and the copied yield reads the copied sum.
-/
theorem summing_loop_copied :
    Reachable (Request.run summing {}) ∧
      ∃ (φ : Renaming) (g' : Graph) (m' : Mapping),
        Build.cloneDetached ⟨1⟩ (Mapping.insert {} (some ⟨0⟩) (some ⟨1⟩)) (Request.run summing {}) =
          .ok (φ.op ⟨1⟩, m') { Request.run summing {} with graph := g' } ∧
        (Request.run summing {}).graph.IsCopy g' ⟨1⟩ φ ∧
        g'.operands (φ.op ⟨1⟩) = [some ⟨1⟩, some ⟨1⟩, some ⟨1⟩, some ⟨1⟩] ∧
        g'.operands (φ.op ⟨2⟩) = [some (φ.value ⟨4⟩), some (φ.value ⟨3⟩)] ∧
        g'.operands (φ.op ⟨3⟩) = [some (φ.value ⟨5⟩)] ∧
        ¬ (Request.run summing {}).graph.HasValue (φ.value ⟨5⟩) := by
  have hwf := reachable_summing.sound.graph
  have hm : (Mapping.insert {} (some ⟨0⟩) (some ⟨1⟩)).Into (Request.run summing {}).graph := by
    intro e he
    cases List.mem_singleton.mp he
    exact Graph.HasValue.opt (by decide +kernel)
  obtain ⟨φ, g', m', hclone, hcopy, -, hreads, -, -, -, -, -, hfresh, -⟩ :=
    clone_is_isomorphic_copy reachable_summing (by decide +kernel) fits_summing.finiteTree
      readsBack_summing hm
  have hinner : ∀ v ∈ [(⟨3⟩ : ValueId), ⟨4⟩, ⟨5⟩],
      (Request.run summing {}).graph.DefinedIn ⟨1⟩ v := by
    intro v hv
    apply (Graph.mem_values_partsTo_iff hwf fits_summing).mp
    revert v
    decide +kernel
  have houter : ∀ v ∈ [(⟨0⟩ : ValueId), ⟨1⟩], ∀ u, some v = some u →
      ¬ (Request.run summing {}).graph.DefinedIn ⟨1⟩ u := by
    have hnot : ∀ v ∈ [(⟨0⟩ : ValueId), ⟨1⟩], v ∉
        ((Request.run summing {}).graph.partsTo 2 ⟨1⟩).flatMap
          (Graph.Part.values (Request.run summing {}).graph) := by decide +kernel
    rintro v hv u ⟨⟩ hin
    exact hnot v hv ((Graph.mem_values_partsTo_iff hwf fits_summing).mpr hin)
  have hread : ∀ j, (Request.run summing {}).graph.Inside ⟨1⟩ j → ∀ l,
      List.Forall₂ (φ.ReadsAs _ _ _) ((Request.run summing {}).graph.operands j) l →
        g'.operands (φ.op j) = l :=
    fun j hj l hl => List.right_unique_forall₂' Renaming.ReadsAs.rightUnique (hreads j hj) hl
  have hchild : ∀ j ∈ [(⟨2⟩ : OpId), ⟨3⟩], (Request.run summing {}).graph.Inside ⟨1⟩ j := by
    intro j hj
    apply Graph.inside_child hwf
    revert j
    decide +kernel
  have hloop : (Request.run summing {}).graph.operands ⟨1⟩ =
      [some ⟨0⟩, some ⟨0⟩, some ⟨0⟩, some ⟨1⟩] := by decide +kernel
  have hsum : (Request.run summing {}).graph.operands ⟨2⟩ = [some ⟨4⟩, some ⟨3⟩] := by
    decide +kernel
  have hyield : (Request.run summing {}).graph.operands ⟨3⟩ = [some ⟨5⟩] := by decide +kernel
  refine ⟨reachable_summing, φ, g', m', hclone, hcopy, hread _ .root _ ?_,
    hread _ (hchild _ (by simp)) _ ?_, hread _ (hchild _ (by simp)) _ ?_,
    hfresh _ (hcopy.values.mapsTo (hinner _ (by simp)))⟩
  · rw [hloop]
    have hfirst := Renaming.ReadsAs.outer (φ := φ)
      (m := Mapping.insert {} (some ⟨0⟩) (some ⟨1⟩)) (houter ⟨0⟩ (by simp))
    have hsecond := Renaming.ReadsAs.outer (φ := φ)
      (m := Mapping.insert {} (some ⟨0⟩) (some ⟨1⟩)) (houter ⟨1⟩ (by simp))
    exact .cons hfirst (.cons hfirst (.cons hfirst (.cons hsecond .nil)))
  · rw [hsum]
    exact .cons (.inner (hinner _ (by simp))) (.cons (.inner (hinner _ (by simp))) .nil)
  · rw [hyield]
    exact .cons (.inner (hinner _ (by simp))) .nil

end Multistage
