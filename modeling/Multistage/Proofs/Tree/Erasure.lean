import Multistage.Proofs.Tree.PostOrder
import Multistage.Proofs.Verify.Rewriting

/-!
# Erasing a tree

`felled g i` is what is left of a graph when the tree of `i` has been erased: the slots of the tree
hold nothing, the operation is in no block, and every operation of the tree is marked. Nothing else
changes.
-/

namespace Multistage.Graph

variable {g g' : Graph}

/-! ## Many operations at once -/

theorem assignAll_append (g : Graph) (slots slots' : List SlotId) (v : Option ValueId) :
    g.assignAll (slots ++ slots') v = (g.assignAll slots v).assignAll slots' v :=
  List.foldl_append

/-- `dropOperands` does not change which slots there are to let go of. -/
theorem foldl_dropOperands (g : Graph) (tree : List OpId) :
    tree.foldl dropOperands g = g.assignAll (tree.flatMap fun j => (g.op j).operands) none := by
  induction tree generalizing g with
  | nil => rfl
  | cons i rest ih =>
    -- the rows, and with them the lists of slots, are as they were
    have hrows : (fun j => ((g.dropOperands i).op j).operands) = fun j => (g.op j).operands := by
      funext j
      rw [op, dropOperands, ops_assignAll, ← op]
    rw [List.foldl_cons, ih, hrows, List.flatMap_cons, assignAll_append]
    rfl

theorem op_foldl_mark (g : Graph) (tree : List OpId) (j : OpId) :
    (tree.foldl mark g).op j =
      if j ∈ tree ∧ g.HasOp j then { g.op j with erased := true } else g.op j := by
  induction tree generalizing g with
  | nil => rw [if_neg fun h => nomatch h.1]; rfl
  | cons i rest ih =>
    have hthere : (g.mark i).HasOp j ↔ g.HasOp j := by
      show j.index < (g.ops.modify _ _).size ↔ _
      rw [Array.size_modify]
      rfl
    have hrow : (g.mark i).op j = if i = j ∧ g.HasOp j then { g.op j with erased := true }
        else g.op j := op_modifyOp g i j _
    simp only [List.foldl_cons, ih, hrow, hthere, List.mem_cons]
    -- marking twice is marking once, so the first mark matters only if the rest has none
    by_cases hij : i = j
    · subst hij
      by_cases hi : g.HasOp i <;> simp [hi]
    · simp [hij, Ne.symm hij]

theorem foldl_mark_keeps {α : Type} {f : Graph → α} (hmark : ∀ g i, f (g.mark i) = f g) (g : Graph)
    (tree : List OpId) : f (tree.foldl mark g) = f g := by
  induction tree generalizing g with
  | nil => rfl
  | cons i rest ih => exact (ih (g.mark i)).trans (hmark g i)

theorem size_ops_detach (g : Graph) (i : OpId) : (g.detach i).ops.size = g.ops.size := by
  unfold detach
  split
  · rfl
  · exact Array.size_modify

/-! ## The whole tree -/

/-- The graph without the tree of operation `i`. -/
def felled (g : Graph) (i : OpId) : Graph :=
  (g.preorder i).foldl mark
    ((g.assignAll ((g.preorder i).flatMap fun j => (g.op j).operands) none).detach i)

/-- `erase` succeeds on what is not erased yet and has results that nothing reads, and gives
`felled`. -/
theorem erase_eq_ok_iff {i : OpId} :
    g.erase i = .ok g' ↔
      (g.op i).erased = false ∧ (∀ v ∈ (g.op i).results, (g.value v).uses = []) ∧
        g' = g.felled i := by
  -- the search for a result that is still read finds nothing
  have hunused : (g.op i).results.find? g.hasUses = none ↔
      ∀ v ∈ (g.op i).results, (g.value v).uses = [] := by
    rw [List.find?_eq_none]
    refine forall_congr' fun v => forall_congr' fun _ => ?_
    rw [hasUses, Bool.not_eq_true', Bool.not_eq_false, List.isEmpty_iff]
  have hfelled : ((g.preorder i).foldl (fun g j => g.modifyOp j fun o => { o with erased := true })
      (((g.preorder i).foldl dropOperands g).detach i)) = g.felled i := by
    rw [foldl_dropOperands]
    rfl
  simp only [erase, hfelled, ← hunused]
  cases (g.op i).erased with
  | true => simp
  | false => cases (g.op i).results.find? g.hasUses <;> simp [eq_comm]

section

variable (i : OpId)

theorem op_felled (j : OpId) :
    (g.felled i).op j =
      { g.op j with
        block := if i = j then none else (g.op j).block
        erased := (g.op j).erased || decide (j ∈ g.preorder i ∧ g.HasOp j) } := by
  -- whichever slots let go, the row changes only in its block, and then by its mark
  have hrow : ∀ slots, ((g.assignAll slots none).detach i).op j =
      { g.op j with block := if i = j then none else (g.op j).block } := by
    intro slots
    rw [op_detach, op, ops_assignAll, ← op]
    split <;> rfl
  have hthere : ∀ slots, ((g.assignAll slots none).detach i).HasOp j ↔ g.HasOp j := by
    intro slots
    show j.index < _ ↔ j.index < _
    rw [size_ops_detach, ops_assignAll]
  rw [felled, op_foldl_mark, hrow]
  by_cases hj : j ∈ g.preorder i ∧ g.HasOp j
  · rw [if_pos ⟨hj.1, (hthere _).mpr hj.2⟩, decide_eq_true hj, Bool.or_true]
  · rw [if_neg fun h => hj ⟨h.1, (hthere _).mp h.2⟩, decide_eq_false hj, Bool.or_false]

theorem block_felled (b : BlockId) :
    (g.felled i).block b =
      if (g.op i).block = some b then { g.block b with ops := (g.block b).ops.erase i }
      else g.block b := by
  rw [felled, foldl_mark_keeps (f := fun g => g.block b) (fun _ _ => rfl), block_detach, op, block,
    ops_assignAll, blocks_assignAll, ← op, ← block]

theorem slot_felled (s : SlotId) :
    ((g.felled i).slot s).owner = (g.slot s).owner ∧
      ((g.felled i).slot s).value =
        if ∃ j ∈ g.preorder i, s ∈ (g.op j).operands then none else (g.slot s).value := by
  rw [felled, foldl_mark_keeps (f := fun g => g.slot s) (fun _ _ => rfl), slot_detach,
    owner_assignAll, held_assignAll_none]
  simp only [List.mem_flatMap, true_and]

end

/-- The blocks of `felled` stay in their regions. -/
theorem blockParent_felled (i : OpId) (b : BlockId) :
    (g.felled i).blockParent b = g.blockParent b := by
  rw [blockParent, block_felled]
  split <;> rfl

theorem parent_felled (i j : OpId) :
    (g.felled i).parent j = if i = j then none else g.parent j := by
  rw [parent, op_felled]
  split
  · rfl
  · exact Option.bind_congr fun b _ => blockParent_felled i b

/-- Exactly the tree of `i` is marked in `felled`. -/
theorem erased_felled (hwf : g.WellFormed) {i : OpId} (hi : g.HasOp i) (j : OpId) :
    ((g.felled i).op j).erased = true ↔ (g.op j).erased = true ∨ g.Inside i j := by
  rw [op_felled, Bool.or_eq_true, decide_eq_true_iff, mem_preorder_iff hwf hi]
  exact or_congr_right (and_iff_left_of_imp fun hin => hin.hasOp hi)

end Multistage.Graph
