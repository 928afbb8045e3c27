import Multistage.Proofs.Graph.BlockMembership
import Multistage.Proofs.Graph.Ownership
import Multistage.Proofs.Graph.Segmentation
import Multistage.Proofs.Graph.UseLists

/-!
# Editing functions are sequences of edits

A graph that was built by edits is well formed. On well-formed graphs every editing function that
succeeds is a sequence of edits: reassigning many slots, replacing uses, changing a segment,
placing, erasing and creating. What a sequence of edits keeps, all of them keep.
-/

namespace Multistage.Graph

/-! ## Well-formed graphs -/

/-- What holds of `g` after any `Edits` of the empty graph. -/
structure WellFormed (g : Graph) : Prop where
  uses : g.UsesAgree
  members : g.MembersAgree
  numbered : g.OperandsNumbered
  owned : g.Owned

namespace WellFormed

variable {cat : Catalog} {g g' : Graph}

theorem empty : WellFormed {} := ⟨.empty, .empty, .empty, .empty⟩

theorem edit (h : g.WellFormed) (he : Edit cat g g') : g'.WellFormed :=
  ⟨h.uses.edit he, h.members.edit he, h.numbered.edit he, h.owned.edit he⟩

theorem edits (h : g.WellFormed) (he : Edits cat g g') : g'.WellFormed := by
  induction he with
  | refl => exact h
  | tail _ hlast ih => exact ih.edit hlast

theorem assign (h : g.WellFormed) {s : SlotId} {v : Option ValueId} (hs : g.HasSlot s)
    (hv : g.HasOptValue v) : (g.assign s v).WellFormed :=
  h.edit (show Edit {} g _ from .assign s v hs hv)

end WellFormed

/-- No `Edit` changes how many regions an operation has. -/
theorem Edit.length_regions {cat : Catalog} {g g' : Graph} (he : Edit cat g g') {i : OpId}
    (hi : g.HasOp i) : (g'.op i).regions.length = (g.op i).regions.length := by
  -- only a new block touches the regions, and it makes one of them longer
  cases he with
  | install o vals types => rw [op_install, if_neg hi.ne_nextOp]
  | skip => rw [op_skipOp]
  | assign s v => rw [op_assign]
  | splice j name start size vals =>
    rw [op_spliceSegment]
    split <;> rfl
  | place b k j =>
    rw [op_place]
    split <;> rfl
  | detach j =>
    rw [op_detach]
    split <;> rfl
  | mark j =>
    rw [Graph.mark, op_modifyOp]
    split <;> rfl
  | addBlock j r =>
    rw [Owned.op_addBlock]
    split
    · exact List.length_modify _ _ _
    · rfl
  | addArgument b ty => rfl
  | describe j f hf =>
    rw [op_modifyOp]
    split
    · obtain ⟨attrs, loc, ho⟩ := hf (g.op i)
      rw [ho]
    · rfl
  | retype v ty => rfl

theorem Edits.length_regions {cat : Catalog} {g g' : Graph} (he : Edits cat g g') {i : OpId}
    (hi : g.HasOp i) : (g'.op i).regions.length = (g.op i).regions.length := by
  induction he with
  | refl => rfl
  | tail hfirst hlast ih => exact (hlast.length_regions (Edits.within hfirst |>.hasOp hi)).trans ih

/-! ## Slots -/

section

variable {cat : Catalog} {g g' : Graph}

theorem edits_assignAll {slots : List SlotId} {v : Option ValueId}
    (hslots : ∀ s ∈ slots, g.HasSlot s) (hv : g.HasOptValue v) :
    Edits cat g (g.assignAll slots v) := by
  induction slots generalizing g with
  | nil => exact .refl
  | cons s rest ih =>
    have hwithin := within_assign g s v
    -- what was there is still there after the first slot
    refine .head (.assign s v (hslots s List.mem_cons_self) hv) (ih ?_ (hwithin.hasOptValue hv))
    exact fun t ht => hwithin.hasSlot (hslots t (List.mem_cons_of_mem s ht))

theorem edits_assignAll_none (slots : List SlotId) : Edits cat g (g.assignAll slots none) := by
  induction slots generalizing g with
  | nil => exact .refl
  | cons s rest ih =>
    by_cases hs : g.HasSlot s
    · exact .head (.assign s none hs nofun) ih
    · -- letting go of nothing is no edit at all
      show Edits cat g ((g.assign s none).assignAll rest none)
      rw [assign_none_of_not_hasSlot hs]
      exact ih

theorem edits_assignEach {slots : List SlotId} {vals : List ValueId}
    (hslots : ∀ s ∈ slots, g.HasSlot s) (hvals : ∀ v ∈ vals, g.HasValue v) :
    Edits cat g (g.assignEach slots vals) := by
  induction slots generalizing g vals with
  | nil => exact .refl
  | cons s rest ih =>
    cases vals with
    | nil => exact .refl
    | cons v vals =>
      have hwithin := within_assign g s (some v)
      have hv := (hvals v List.mem_cons_self).opt
      refine .head (.assign s (some v) (hslots s List.mem_cons_self) hv) (ih ?_ ?_)
      · exact fun t ht => hwithin.hasSlot (hslots t (List.mem_cons_of_mem s ht))
      · exact fun w hw => hwithin.hasValue (hvals w (List.mem_cons_of_mem v hw))

theorem edits_replaceUsesIf (h : g.UsesAgree) (v : ValueId) {new : Option ValueId}
    (hnew : g.HasOptValue new) (keep : SlotId → Bool) :
    Edits cat g (g.replaceUsesIf v new keep) := by
  unfold replaceUsesIf
  split
  · exact .refl
  · exact edits_assignAll
      (fun s hs => h.hasSlot_of_mem_uses (List.mem_of_mem_filter hs)) hnew

/-- `setSegment` to as many values keeps the slots; else the segment gets fresh ones. -/
theorem setSegment_ok {i : OpId} {name : String} {vals : List (Option ValueId)}
    (hok : g.setSegment i name vals = .ok g') :
    ∃ start size, (g.op i).segment? name = some (start, size) ∧
      (size = (vals.filterMap id).length ∧
          (((g.op i).operands.drop start).take size).length = size ∧
          g' = g.assignEach (((g.op i).operands.drop start).take size) (vals.filterMap id) ∨
        start + size ≤ (g.op i).operands.length ∧
          g' = g.spliceSegment i name start size (vals.filterMap id)) := by
  simp only [setSegment] at hok
  split at hok
  · cases hok
  · next start size hfound =>
    refine ⟨start, size, hfound, ?_⟩
    split at hok
    · next hsize =>
      split at hok
      · next hlength =>
        cases hok
        exact Or.inl ⟨hsize, hlength, rfl⟩
      · cases hok
    · split at hok
      · next hinside =>
        cases hok
        exact Or.inr ⟨hinside, rfl⟩
      · cases hok

theorem hasValue_of_mem_filterMap {vals : List (Option ValueId)}
    (hvals : ∀ v ∈ vals, g.HasOptValue v) : ∀ v ∈ vals.filterMap id, g.HasValue v := by
  intro v hv
  obtain ⟨u, hu, huv⟩ := List.mem_filterMap.mp hv
  exact hvals u hu v huv

theorem edits_setSegment (h : g.OperandsNumbered) {i : OpId} {name : String}
    {vals : List (Option ValueId)} (hvals : ∀ v ∈ vals, g.HasOptValue v)
    (hok : g.setSegment i name vals = .ok g') : Edits cat g g' := by
  have hthere := hasValue_of_mem_filterMap hvals
  -- slots that are kept belong to the operation; fresh ones come with the edit
  obtain ⟨start, size, hfound, ⟨-, -, rfl⟩ | ⟨hinside, rfl⟩⟩ := setSegment_ok hok
  · refine edits_assignEach (fun s hs => ?_) hthere
    exact (h.of_mem (List.mem_of_mem_drop (List.mem_of_mem_take hs))).1
  · exact .single (.splice i name start size _ hfound hinside hthere)

/-! ## Places -/

/-- An operation that `insertAt` puts into a block was in none and not erased. -/
theorem insertAt_ok {b : BlockId} {k : Nat} {i : OpId} (hok : g.insertAt b k i = .ok g') :
    (g.op i).block = none ∧ (g.op i).erased = false ∧ g' = g.place b k i := by
  unfold insertAt at hok
  split at hok
  · cases hok
  · next hplaced =>
    split at hok
    · cases hok
    · next herased =>
      cases hok
      refine ⟨?_, ?_, rfl⟩
      · rwa [Option.not_isSome_iff_eq_none] at hplaced
      · rwa [Bool.not_eq_true] at herased

theorem edits_insertAt {b : BlockId} {k : Nat} {i : OpId} (hb : g.HasBlock b) (hi : g.HasOp i)
    (hk : k ≤ (g.block b).ops.length) (hok : g.insertAt b k i = .ok g') : Edits cat g g' := by
  obtain ⟨hdetached, hlive, rfl⟩ := insertAt_ok hok
  exact .single (.place b k i hb hi hdetached hlive hk)

theorem edits_insertBefore (h : g.MembersAgree) {i other : OpId} (hi : g.HasOp i)
    (hok : g.insertBefore i other = .ok g') : Edits cat g g' := by
  unfold insertBefore at hok
  split at hok
  · cases hok
  · next b hb =>
    split at hok
    · cases hok
    · next k hk =>
      -- the place before an operation is a place inside its block
      obtain ⟨hlt, -⟩ := List.idxOf?_eq_some_iff.mp hk
      exact edits_insertAt (h.hasBlock hb) hi (Nat.le_of_lt hlt) hok

/-! ## Erasing -/

theorem edits_foldl_dropOperands (tree : List OpId) : Edits cat g (tree.foldl dropOperands g) := by
  induction tree generalizing g with
  | nil => exact .refl
  | cons i rest ih => exact (edits_assignAll_none _).trans ih

theorem edits_foldl_mark (tree : List OpId) : Edits cat g (tree.foldl mark g) := by
  induction tree generalizing g with
  | nil => exact .refl
  | cons i rest ih => exact .head (.mark i) ih

theorem edits_erase {i : OpId} (hok : g.erase i = .ok g') : Edits cat g g' := by
  unfold erase at hok
  split at hok
  · cases hok
  · split at hok
    · cases hok
    · cases hok
      exact (edits_foldl_dropOperands _).trans (.head (.detach i) (edits_foldl_mark _))

end

/-! ## Creating -/

/-- Lengths of lists at the positions from `m` on add up to those of the rest of the lists. -/
theorem sum_zipIdx_lengths {α : Type} (names : List String) (lists : List (List α)) (m : Nat)
    (hm : lists.length ≤ m + names.length) :
    ((names.zipIdx m).map fun nk => (lists[nk.2]?.getD []).length).sum =
      ((lists.drop m).map List.length).sum := by
  -- at least as many names as lists are left, so the lists run out first
  induction names generalizing m with
  | nil =>
    rw [List.drop_of_length_le (by simpa using hm)]
    rfl
  | cons name rest ih =>
    rw [List.zipIdx_cons, List.map_cons, List.sum_cons,
      ih (m + 1) (by rw [List.length_cons] at hm; omega)]
    by_cases hlt : m < lists.length
    · rw [List.drop_eq_getElem_cons hlt, List.map_cons, List.sum_cons,
        List.getElem?_eq_getElem hlt]
      rfl
    · rw [List.getElem?_eq_none (by omega), List.drop_of_length_le (by omega),
        List.drop_of_length_le (by omega)]
      rfl

/-- A `spec` with no more segments than the kind gives segments for all its operands. -/
theorem tiled_row (spec : OpSpec) (kind : Option OpKind)
    (hsegments : (spec.row kind).declared ≠ [] →
      spec.segments.length ≤ (spec.row kind).declared.length) :
    (spec.row kind).Tiled (spec.slotValues (spec.row kind).declared).length := by
  refine ⟨?_, fun hdeclared => ?_⟩
  · show ((spec.row kind).declared.zipIdx.map _).map _ = _
    rw [List.map_map]
    exact List.zipIdx_map_fst _ _
  · have hlists := sum_zipIdx_lengths (spec.row kind).declared
      (spec.segments.map (·.filterMap id)) 0
      (by rw [List.length_map, Nat.zero_add]; exact hsegments hdeclared)
    have hempty : (spec.row kind).declared.isEmpty = false := by simpa using hdeclared
    -- the slots hold what the segments name, one segment after the other
    have htotal : (spec.slotValues (spec.row kind).declared).length =
        ((spec.segments.map (·.filterMap id)).map List.length).sum := by
      rw [OpSpec.slotValues, hempty, if_neg Bool.false_ne_true, List.length_map,
        List.length_flatMap, List.map_map]
      rfl
    rw [htotal, ← List.drop_zero (l := spec.segments.map (·.filterMap id)), ← hlists]
    show (((spec.row kind).declared.zipIdx.map _).map _).sum = _
    rw [List.map_map]
    refine congrArg List.sum (List.map_congr_left fun nk _ => ?_)
    simp only [Function.comp_apply, List.getElem?_map]
    cases spec.segments[nk.2]? <;> rfl

theorem blank_row (spec : OpSpec) (kind : Option OpKind) : (spec.row kind).Blank where
  operands := rfl
  results := rfl
  block := rfl
  live := rfl
  regions _ h := (List.mem_replicate.mp h).2

/-- The values that `spec` names are there. -/
def HasSpec (g : Graph) (spec : OpSpec) : Prop :=
  (∀ v ∈ spec.operands, g.HasOptValue v) ∧ ∀ vals ∈ spec.segments, ∀ v ∈ vals, g.HasOptValue v

theorem HasSpec.slotValues {g : Graph} {spec : OpSpec} (h : g.HasSpec spec)
    (declared : List String) : ∀ v ∈ spec.slotValues declared, g.HasOptValue v := by
  intro v hv
  unfold OpSpec.slotValues at hv
  split at hv
  · exact h.1 v hv
  · obtain ⟨u, hu, rfl⟩ := List.mem_map.mp hv
    obtain ⟨vals, hvals, huvals⟩ := List.mem_flatMap.mp hu
    exact (hasValue_of_mem_filterMap (h.2 vals hvals) u huvals).opt

theorem edit_addOp {cat : Catalog} {g : Graph} {spec : OpSpec} (hspec : g.HasSpec spec)
    (hsegments : (spec.row (cat.find? spec.name)).declared ≠ [] →
      spec.segments.length ≤ (spec.row (cat.find? spec.name)).declared.length) :
    Edit cat g (g.addOp (cat.find? spec.name) spec).1 :=
  .install _ _ _ (blank_row _ _) (.created rfl (tiled_row spec _ hsegments))
    (hspec.slotValues _)

theorem edits_addArguments {cat : Catalog} {g : Graph} {b : BlockId} (hb : g.HasBlock b)
    (types : List (Option Ty)) : Edits cat g (g.addArguments b types).1 := by
  induction types generalizing g with
  | nil => exact .refl
  | cons ty rest ih =>
    have hfirst : Edit cat g (g.addArgument b ty).1 := .addArgument b ty hb
    exact .head hfirst (ih (hfirst.within.hasBlock hb))

end Multistage.Graph
