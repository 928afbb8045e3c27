import Multistage.Proofs.Copy.DeepCopies
import Multistage.Proofs.Graph.Growth

/-!
# Copies in a graph that has grown

A copy of a tree may be made after other things were added around the tree. Seen from the graph
before, it is still a copy (`Plants`): the tree has the same parts in the same order, since nothing
was added inside it. What a copied operand reads is the copy of what the original reads if that was
met before, and the same value otherwise (`Renaming.follow`).
-/

namespace Multistage

/-- What is read in a copy in the place of a value, of which those in `met` have been copied. -/
def Renaming.follow (φ : Renaming) (met : List ValueId) (v : Option ValueId) : Option ValueId :=
  v.map fun u => if u ∈ met then φ.value u else u

theorem Mapping.get_insertAll_empty (f : ValueId → ValueId) (vs : List ValueId)
    (v : Option ValueId) :
    (Mapping.insertAll {} vs (vs.map f)).get v = v.map fun u => if u ∈ vs then f u else u := by
  cases v with
  | none =>
    rw [Mapping.get, Mapping.lookup_insertAll_of_not_mem fun w hw => by cases hw]
    rfl
  | some u =>
    by_cases hu : u ∈ vs
    · rw [Mapping.get, Mapping.lookup_insertAll_of_mem hu, Option.map_some, if_pos hu]
      rfl
    · rw [Mapping.get, Mapping.lookup_insertAll_of_not_mem fun w hw => Option.some.inj hw ▸ hu,
        Option.map_some, if_neg hu]
      rfl

namespace Graph

variable {g g' : Graph} {x : BlockId} {i : OpId}

/-- The values that are met before operation `j` when the tree of `i` is copied. -/
def metBefore (g : Graph) (i j : OpId) : List ValueId :=
  ((g.partsTo g.ops.size i).takeWhile fun p => decide (p ≠ .op j)).flatMap (Part.values g)

theorem takeWhile_ne_of_nodup {α : Type} [DecidableEq α] {before after : List α} {a : α}
    (h : (before ++ a :: after).Nodup) :
    (before ++ a :: after).takeWhile (fun p => decide (p ≠ a)) = before := by
  have hout : ∀ p ∈ before, decide (p ≠ a) = true := fun p hp =>
    decide_eq_true ((List.nodup_append.mp h).2.2 p hp a List.mem_cons_self)
  rw [List.takeWhile_append_of_pos hout, List.takeWhile_cons_of_neg (by simp), List.append_nil]

/-- The root `i` is met first. -/
theorem metBefore_self (hi : g.HasOp i) : g.metBefore i i = [] := by
  obtain ⟨n, hn⟩ := Nat.exists_eq_add_one_of_ne_zero (Nat.ne_zero_of_lt hi)
  rw [metBefore, hn, partsTo, List.takeWhile_cons_of_neg (by simp)]
  rfl

theorem mem_metBefore (hi : g.HasOp i) {j : OpId} (hj : j ≠ i) {v : ValueId}
    (hv : v ∈ (g.op i).results) : v ∈ g.metBefore i j := by
  obtain ⟨n, hn⟩ := Nat.exists_eq_add_one_of_ne_zero (Nat.ne_zero_of_lt hi)
  rw [metBefore, hn, partsTo, List.takeWhile_cons_of_pos (by simpa using hj.symm),
    List.flatMap_cons]
  exact List.mem_append_left _ hv

/-! ## The parts of a tree in a graph that has grown -/

/-- `partsTo` finds no more parts at a larger bound. -/
theorem partsTo_of_fits {n m : Nat} (h : g.Fits n i) (hnm : n ≤ m) :
    g.partsTo m i = g.partsTo n i := by
  -- on a depth at which the tree has ended; a child ends one level earlier
  induction n generalizing m i with
  | zero => exact h.elim
  | succ n ih =>
    obtain ⟨m, rfl⟩ : ∃ l, m = l + 1 := ⟨m - 1, by omega⟩
    rw [partsTo, partsTo]
    refine congrArg _ (List.flatMap_congr fun blocks hblocks => ?_)
    rw [regionParts, regionParts]
    refine congrArg _ (List.flatMap_congr fun b hb => List.flatMap_congr fun c hc => ?_)
    have hchild : c ∈ g.children i := List.mem_flatMap.mpr
      ⟨b, List.mem_flatten.mpr ⟨blocks, hblocks, hb⟩, hc⟩
    rw [ih (h c hchild) (Nat.le_of_succ_le_succ hnm)]

section

variable (h : g.Enlarges g' x) (hwf : g.WellFormed) (hx : ¬ g.BlockInside i x)

include h hwf hx

omit hwf in
theorem Enlarges.block_inside {b : BlockId} (hb : g.BlockInside i b) : g'.block b = g.block b := by
  obtain ⟨j, hj, -⟩ := id hb
  refine h.block b (hasBlock_of_blockParent hj) ?_
  rintro rfl
  exact hx hb

theorem Enlarges.partsTo {j : OpId} (hj : g.Inside i j) (hthere : g.HasOp j) (n : Nat) :
    g'.partsTo n j = g.partsTo n j := by
  induction n generalizing j with
  | zero => rfl
  | succ n ih =>
    rw [Graph.partsTo, Graph.partsTo, h.op j hthere]
    refine congrArg _ (List.flatMap_congr fun blocks hblocks => ?_)
    rw [regionParts, regionParts]
    refine congrArg _ (List.flatMap_congr fun b hb => ?_)
    have hparent : g.blockParent b = some j := (blockParent_eq_some_iff hwf.owned).mpr
      (List.mem_flatten.mpr ⟨blocks, hblocks, hb⟩)
    rw [h.block_inside hx ⟨j, hparent, hj⟩]
    refine List.flatMap_congr fun c hc => ?_
    -- what the block lists is in the tree as well
    have hblock := (hwf.members.mem_iff c b).mpr hc
    have hchild : g.parent c = some j := by
      rw [Graph.parent, hblock]
      exact hparent
    rw [ih (.step hchild hj) (hasOp_of_block_eq_some hblock)]

theorem Enlarges.values (hi : g.HasOp i) {p : Part} {n : Nat} (hp : p ∈ g.partsTo n i) :
    p.values g' = p.values g := by
  obtain ⟨j, hj, hin⟩ := inside_of_mem_partsTo hwf hp
  cases p with
  | op l =>
    obtain rfl : l = j := Option.some.inj hj
    rw [Part.values, h.op l (hin.hasOp hi), Part.values]
  | block b => rw [Part.values, h.block_inside hx ⟨j, hj, hin⟩, Part.values]
  | placed l => rfl

end

/-! ## Planting -/

/-- In `g'` there is a copy of the tree that `i` has in `g`, under names that are new to `g₁`. -/
structure Plants (g g₁ g' : Graph) (i : OpId) (φ : Renaming) : Prop where
  mirrors : g.Mirrors g' i φ
  reads : ∀ j, g.Inside i j →
    g'.operands (φ.op j) = (g.operands j).map (φ.follow (g.metBefore i j))
  opThere : ∀ j, g.Inside i j → g'.HasOp (φ.op j)
  blockThere : ∀ b, g.BlockInside i b → g'.HasBlock (φ.block b)
  valueThere : ∀ v, g.DefinedIn i v → g'.HasValue (φ.value v)
  opNew : ∀ j, ¬ g₁.HasOp (φ.op j)
  blockNew : ∀ b, ¬ g₁.HasBlock (φ.block b)
  valueNew : ∀ v, ¬ g₁.HasValue (φ.value v)
  opInj : Set.InjOn φ.op {j | g.Inside i j}
  blockInj : Set.InjOn φ.block {b | g.BlockInside i b}
  valueInj : Set.InjOn φ.value {v | g.DefinedIn i v}

/-- The last `Stage` of a copy, seen from the graph `g` in which the copy was started. -/
theorem plants_of_stage {m : Mapping} (hwf : g.WellFormed) (honce : g.BlocksOnce)
    (htree : g.FiniteTree i) (hi : g.HasOp i)
    (h : Stage g {} (g.partsTo g.ops.size i) (g.partsTo g.ops.size i) (g', m)) :
    g.Plants g g' i (g.freshNames (g.partsTo g.ops.size i)) := by
  have hfits := htree.fits hwf hi
  have hop : ∀ j, g.Inside i j → Part.op j ∈ g.partsTo g.ops.size i := fun j hj =>
    (mem_partsTo_iff hwf hfits).mpr ⟨j, rfl, hj⟩
  have hblock : ∀ b, g.BlockInside i b → Part.block b ∈ g.partsTo g.ops.size i := fun b hb =>
    (mem_partsTo_iff hwf hfits).mpr hb
  have hvalue := fun v => (mem_values_partsTo_iff hwf hfits (v := v)).mpr
  constructor
  case mirrors => exact mirrors_of_stage hwf honce htree hfits h
  case reads =>
    intro j hj
    -- when `j` is copied, the values of the parts before it have copies
    obtain ⟨before, after, hsplit⟩ := List.append_of_mem (hop j hj)
    have hmet : g.metBefore i j = before.flatMap (Part.values g) := by
      rw [metBefore, hsplit, takeWhile_ne_of_nodup]
      rw [← hsplit]
      exact nodup_partsTo hwf honce htree _
    rw [hmet, h.operands before j after hsplit]
    exact List.map_congr_left fun v _ => Mapping.get_insertAll_empty _ _ v
  case opThere => exact fun j hj => h.hasOp (hop j hj)
  case blockThere => exact fun b hb => h.hasBlock (hblock b hb)
  case valueThere => exact fun v hv => h.hasValue (hvalue v hv)
  case opNew => exact fun j => not_hasOp_freshNames j
  case blockNew => exact fun b => not_hasBlock_freshNames b
  case valueNew => exact fun v => not_hasValue_freshNames v
  case opInj => exact fun j hj _ _ heq => freshNames_op_inj (hop j hj) heq
  case blockInj => exact fun b hb _ _ heq => freshNames_block_inj (hblock b hb) heq
  case valueInj => exact fun v hv _ _ heq => freshNames_value_inj (hvalue v hv) heq

section

variable {g₁ : Graph} {φ : Renaming} (h : g.Enlarges g₁ x) (hwf : g.WellFormed)
  (hx : ¬ g.BlockInside i x) (hi : g.HasOp i)

include h hwf hx hi

theorem Enlarges.metBefore (hfits : g.Fits g.ops.size i) (j : OpId) :
    g₁.metBefore i j = g.metBefore i j := by
  have hparts : g₁.partsTo g₁.ops.size i = g.partsTo g.ops.size i := by
    rw [h.partsTo hwf hx .root hi, partsTo_of_fits hfits h.within.ops]
  rw [Graph.metBefore, Graph.metBefore, hparts]
  exact List.flatMap_congr fun p hp =>
    h.values hwf hx hi ((List.takeWhile_sublist _).subset hp)

/-- A copy that was made after `g` had grown to `g₁` around the tree of `i` is a copy of the tree as
it was before. -/
theorem Enlarges.plants (hfits : g.Fits g.ops.size i) (hcopy : g₁.Plants g₁ g' i φ) :
    g.Plants g₁ g' i φ := by
  -- the tree has the same operations, blocks and values in both graphs
  have hop : ∀ j, g.Inside i j → g₁.Inside i j ∧ g₁.op j = g.op j := fun j hj =>
    have hthere := hj.hasOp hi
    ⟨(h.inside_iff hwf hthere).mpr hj, h.op j hthere⟩
  have hblock : ∀ b, g.BlockInside i b → g₁.BlockInside i b := by
    rintro b ⟨j, hb, hj⟩
    exact ⟨j, (h.blockParent (hasBlock_of_blockParent hb)).trans hb, (hop j hj).1⟩
  have hvalue : ∀ v, g.DefinedIn i v → g₁.DefinedIn i v := by
    rintro v ⟨j, hj, hv | ⟨b, hb, hv⟩⟩
    · exact ⟨j, (hop j hj).1, Or.inl ((hop j hj).2 ▸ hv)⟩
    · refine ⟨j, (hop j hj).1, Or.inr ⟨b, ?_, ?_⟩⟩
      · exact (h.blockParent (hasBlock_of_blockParent hb)).trans hb
      · rw [h.block_inside hx ⟨j, hb, hj⟩]
        exact hv
  constructor
  case mirrors =>
    constructor
    case op =>
      intro j hj
      obtain ⟨hin, hrow⟩ := hop j hj
      obtain ⟨slots, hslots⟩ := hcopy.mirrors.op j hin
      exact ⟨slots, hrow ▸ hslots⟩
    case block =>
      intro b hb
      rw [hcopy.mirrors.block b (hblock b hb), h.block_inside hx hb]
    case type =>
      intro v hv
      rw [hcopy.mirrors.type v (hvalue v hv), h.typeOf (hv.hasValue hwf.owned)]
  case reads =>
    intro j hj
    rw [hcopy.reads j (hop j hj).1, h.operands hwf (hj.hasOp hi),
      h.metBefore hwf hx hi hfits]
  case opThere => exact fun j hj => hcopy.opThere j (hop j hj).1
  case blockThere => exact fun b hb => hcopy.blockThere b (hblock b hb)
  case valueThere => exact fun v hv => hcopy.valueThere v (hvalue v hv)
  case opNew => exact hcopy.opNew
  case blockNew => exact hcopy.blockNew
  case valueNew => exact hcopy.valueNew
  case opInj => exact hcopy.opInj.mono fun j hj => (hop j hj).1
  case blockInj => exact hcopy.blockInj.mono hblock
  case valueInj => exact hcopy.valueInj.mono hvalue

end

/-- `clone` in a graph `g₁` that has grown around the tree of `i`. -/
theorem Enlarges.plants_clone {g₁ : Graph} (h : g.Enlarges g₁ x) (hwf : g.WellFormed)
    (hx : ¬ g.BlockInside i x) (hi : g.HasOp i) (hwf₁ : g₁.WellFormed) (honce : g₁.BlocksOnce)
    (hself : ∀ p, g.parent i = some p → ¬ g.Inside i p) :
    ∃ φ, (g₁.clone i {}).1 = φ.op i ∧ g.Plants g₁ (g₁.clone i {}).2.1 i φ := by
  have hi₁ := h.within.hasOp hi
  have hself₁ : ∀ p, g₁.parent i = some p → ¬ g₁.Inside i p := by
    intro p hp
    rw [h.parent hwf hi] at hp
    obtain ⟨b, -, hb⟩ := Option.bind_eq_some_iff.mp hp
    rw [h.inside_iff hwf (hasOp_of_blockParent hwf hb)]
    exact hself p hp
  have htree := (fits_of_not_inside hwf₁ hself₁ hi₁).finiteTree
  obtain ⟨hname, hstage⟩ := stage_clone hwf₁ honce htree hi₁ {}
  refine ⟨_, hname, ?_⟩
  exact h.plants hwf hx hi (fits_of_not_inside hwf hself hi)
    (plants_of_stage hwf₁ honce htree hi₁ hstage)

/-! ## What becomes of a copy -/

namespace Plants

variable {g₁ k : Graph} {φ : Renaming}

theorem isCopy (h : g.Plants g₁ g' i φ) (hwf : g.WellFormed) (hwf' : g'.WellFormed)
    (htree : g.FiniteTree i) : g.IsCopy g' i φ :=
  h.mirrors.isCopy hwf hwf' htree h.opInj h.blockInj h.valueInj

/-- The copy of `i` reads what `i` reads. -/
theorem operands_root (h : g.Plants g₁ g' i φ) (hi : g.HasOp i) :
    g'.operands (φ.op i) = g.operands i := by
  rw [h.reads i .root, metBefore_self hi]
  refine (List.map_congr_left fun v _ => ?_).trans (List.map_id _)
  rw [Renaming.follow]
  exact (Option.map_congr fun u _ => if_neg List.not_mem_nil).trans Option.map_id'

/-- No copy reads a result of `i`, unless `i` reads it itself. -/
theorem not_reads (h : g.Plants g₁ g' i φ) (hwf : g.WellFormed) (hwithin : g.Within g₁)
    (hi : g.HasOp i) (hown : ∀ v ∈ (g.op i).results, some v ∉ g.operands i) {j : OpId}
    (hj : g.Inside i j) {v : ValueId} (hv : v ∈ (g.op i).results) :
    some v ∉ g'.operands (φ.op j) := by
  intro hmem
  by_cases hroot : j = i
  · subst hroot
    rw [h.operands_root hi] at hmem
    exact hown v hv hmem
  · rw [h.reads j hj] at hmem
    obtain ⟨w, -, hw⟩ := List.mem_map.mp hmem
    obtain ⟨u, -, hu⟩ := Option.map_eq_some_iff.mp hw
    split at hu
    · -- copies give new values
      refine h.valueNew u (hu ▸ hwithin.hasValue ?_)
      exact (hwf.owned.mem_results_iff.mp hv).1
    · next hmet =>
      subst hu
      exact hmet (mem_metBefore hi hroot hv)

/-- `Plants` looks at the rows of the copy only. -/
theorem congr (h : g.Plants g₁ k i φ) (hwithin : k.Within g')
    (hop : ∀ j, g.Inside i j → g'.op (φ.op j) = k.op (φ.op j))
    (hoperands : ∀ j, g.Inside i j → g'.operands (φ.op j) = k.operands (φ.op j))
    (hblock : ∀ b, g.BlockInside i b → g'.block (φ.block b) = k.block (φ.block b))
    (htype : ∀ v, g.DefinedIn i v → g'.typeOf (φ.value v) = k.typeOf (φ.value v)) :
    g.Plants g₁ g' i φ where
  mirrors := {
    op := fun j hj => by
      obtain ⟨slots, hslots⟩ := h.mirrors.op j hj
      exact ⟨slots, (hop j hj).trans hslots⟩
    block := fun b hb => (hblock b hb).trans (h.mirrors.block b hb)
    type := fun v hv => (htype v hv).trans (h.mirrors.type v hv) }
  reads j hj := (hoperands j hj).trans (h.reads j hj)
  opThere j hj := hwithin.hasOp (h.opThere j hj)
  blockThere b hb := hwithin.hasBlock (h.blockThere b hb)
  valueThere v hv := hwithin.hasValue (h.valueThere v hv)
  opNew := h.opNew
  blockNew := h.blockNew
  valueNew := h.valueNew
  opInj := h.opInj
  blockInj := h.blockInj
  valueInj := h.valueInj

end Plants

/-! ## A copy in a block -/

theorem within_of_detach (g : Graph) (i : OpId) : (g.detach i).Within g := by
  unfold detach
  split
  · exact .refl g
  · exact ⟨by simp [modifyOp, modifyBlock], by simp [modifyOp, modifyBlock], Nat.le_refl _,
      Nat.le_refl _⟩

theorem wellFormed_detach (hwf : g.WellFormed) (i : OpId) : (g.detach i).WellFormed :=
  have hedit : Edit {} g (g.detach i) := .detach i
  hwf.edits (.single hedit)

theorem operands_detach (g : Graph) (i j : OpId) : (g.detach i).operands j = g.operands j := by
  have hrow : ((g.detach i).op j).operands = (g.op j).operands := by
    rw [op_detach]
    split <;> rfl
  rw [operands, hrow]
  exact List.map_congr_left fun s _ => by rw [slot_detach]

theorem typeOf_detach (g : Graph) (i : OpId) (v : ValueId) : (g.detach i).typeOf v = g.typeOf v := by
  rw [typeOf, value_detach, typeOf]

/-- `Plants` for the copy of `i` taken out of its block. -/
def PlantsIn (g g₁ g' : Graph) (i : OpId) (φ : Renaming) : Prop :=
  g.Plants g₁ (g'.detach (φ.op i)) i φ

section

variable {g₁ k : Graph} {φ : Renaming}

theorem Plants.place (h : g.Plants g₁ k i φ) {y : BlockId} (hy : g₁.HasBlock y) (l : Nat) :
    g.PlantsIn g₁ (k.place y l (φ.op i)) i φ := by
  have hloose : (k.op (φ.op i)).block = none := by
    obtain ⟨slots, hrow⟩ := h.mirrors.op i .root
    rw [hrow]
    exact if_pos rfl
  have hwithin : k.Within (k.place y l (φ.op i)) :=
    (within_modifyBlock _ _ _).trans (within_modifyOp _ _ _)
  have hrow : ∀ j, ((k.place y l (φ.op i)).detach (φ.op i)).op j = k.op j := by
    intro j
    rw [op_detach, op_place]
    by_cases hj : φ.op i = j
    · subst hj
      rw [if_pos rfl, if_pos ⟨rfl, h.opThere i .root⟩, ← hloose]
    · rw [if_neg hj, if_neg fun hboth => hj hboth.1]
  refine h.congr (hwithin.trans (within_detach _ _)) (fun j _ => hrow _) (fun j _ => ?_)
    (fun b _ => ?_) fun v _ => ?_
  · rw [operands, hrow]
    exact List.map_congr_left fun s _ => by rw [slot_detach]; rfl
  · -- the block of the copy was there before, and those in the copy were not
    have hne : y ≠ φ.block b := by
      rintro rfl
      exact h.blockNew b hy
    have hplaced : ((k.place y l (φ.op i)).op (φ.op i)).block = some y := by
      rw [op_place, if_pos ⟨rfl, h.opThere i .root⟩]
    rw [block_detach, hplaced, if_neg fun heq => hne (Option.some.inj heq), block_place,
      if_neg fun hboth => hne hboth.1]
  · rw [typeOf_detach]
    rfl

namespace PlantsIn

theorem hasOp (h : g.PlantsIn g₁ k i φ) {j : OpId} (hj : g.Inside i j) : k.HasOp (φ.op j) :=
  (within_of_detach _ _).hasOp (h.opThere j hj)

theorem congr (h : g.PlantsIn g₁ k i φ) (hwithin : k.Within g')
    (hop : ∀ j, g.Inside i j → g'.op (φ.op j) = k.op (φ.op j))
    (hoperands : ∀ j, g.Inside i j → g'.operands (φ.op j) = k.operands (φ.op j))
    (hblock : ∀ b, g.BlockInside i b → g'.block (φ.block b) = k.block (φ.block b))
    (htype : ∀ v, g.DefinedIn i v → g'.typeOf (φ.value v) = k.typeOf (φ.value v)) :
    g.PlantsIn g₁ g' i φ := by
  refine Plants.congr h (((within_of_detach _ _).trans hwithin).trans (within_detach _ _))
    (fun j hj => ?_) (fun j hj => ?_) (fun b hb => ?_) fun v hv => ?_
  · rw [op_detach, op_detach, hop j hj]
  · rw [operands_detach, operands_detach, hoperands j hj]
  · rw [block_detach, block_detach, hop i .root, hblock b hb]
  · rw [typeOf_detach, typeOf_detach, htype v hv]

theorem enlarges (h : g.PlantsIn g₁ k i φ) (hwf : k.WellFormed) (hx : g₁.HasBlock x)
    (hgrow : k.Enlarges g' x) : g.PlantsIn g₁ g' i φ := by
  refine h.congr hgrow.within (fun j hj => hgrow.op _ (h.hasOp hj))
    (fun j hj => hgrow.operands hwf (h.hasOp hj)) (fun b hb => ?_) fun v hv => ?_
  · refine hgrow.block _ ((within_of_detach _ _).hasBlock (h.blockThere b hb)) ?_
    rintro rfl
    exact h.blockNew b hx
  · exact hgrow.typeOf ((within_of_detach _ _).hasValue (h.valueThere v hv))

end PlantsIn

end

end Graph

end Multistage
