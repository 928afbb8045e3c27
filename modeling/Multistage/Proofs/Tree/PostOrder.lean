import Multistage.Proofs.Tree.TreeOrder
import Multistage.Proofs.Verify.Verified

/-!
# The order of a walk

Where no operation lies inside itself (`Acyclic`), the list of the operations of a tree has each of
them once, an operation after all that is inside it (`pair_sublist_postorder_of_inside`), and the
operations of a block in their order (`pair_sublist_postorder_of_block`).
-/

namespace Multistage.Graph

variable {g g' : Graph}

/-! ## No operation inside itself -/

/-- `isAncestorOf` goes up and finds exactly the operations around `i`. -/
theorem isAncestorOf_iff {root i : OpId} (hroot : g.HasOp root) :
    g.isAncestorOf root i = true ↔ g.Inside root i := by
  rw [isAncestorOf, List.contains_iff_mem, ancestors, mem_chain_iff, inside_iff_up_lt hroot]

/-- No operation of `g` lies inside itself. -/
def Acyclic (g : Graph) : Prop :=
  ∀ i p, g.parent i = some p → g.isAncestorOf i p = false

instance (g : Graph) : Decidable g.Acyclic :=
  decidable_of_iff (∀ k : Fin g.ops.size, ∀ p ∈ g.parent ⟨k⟩, g.isAncestorOf ⟨k⟩ p = false)
    ⟨fun h i p hp => h ⟨i.index, hasOp_of_parent hp⟩ p hp, fun h k p hp => h ⟨k⟩ p hp⟩

theorem acyclic_iff : g.Acyclic ↔ ∀ i p, g.parent i = some p → ¬ g.Inside i p := by
  refine forall_congr' fun i => forall_congr' fun p => forall_congr' fun hp => ?_
  rw [← isAncestorOf_iff (hasOp_of_parent hp), Bool.not_eq_true]

theorem Acyclic.not_inside (h : g.Acyclic) {i p : OpId} (hp : g.parent i = some p) :
    ¬ g.Inside i p :=
  acyclic_iff.mp h i p hp

theorem Acyclic.fits (h : g.Acyclic) (hwf : g.WellFormed) {i : OpId} (hi : g.HasOp i) :
    g.Fits g.ops.size i :=
  fits_of_not_inside hwf (fun _ hp => h.not_inside hp) hi

theorem Acyclic.finiteTree (h : g.Acyclic) (hwf : g.WellFormed) {i : OpId} (hi : g.HasOp i) :
    g.FiniteTree i :=
  (h.fits hwf hi).finiteTree

/-! ## The list of a tree -/

section

variable (hwf : g.WellFormed)

include hwf

theorem inside_of_mem_postorderTo {n : Nat} {i j : OpId} (hj : j ∈ g.postorderTo n i) :
    g.Inside i j := by
  obtain ⟨m, -, hm⟩ := (mem_postorderTo_iff hwf n).mp hj
  exact inside_iff_up.mpr ⟨m, hm⟩

theorem nodup_postorderTo (honce : g.BlocksOnce) {i : OpId} (htree : g.FiniteTree i) (n : Nat) :
    (g.postorderTo n i).Nodup := by
  induction n generalizing i with
  | zero => exact List.nodup_nil
  | succ n ih =>
    rw [postorderTo, List.nodup_append, List.nodup_flatMap]
    -- nothing is inside two operations that are directly inside `i`, and `i` is inside none of them
    refine ⟨⟨fun c hc => ih (htree.child hc), ?_⟩, List.nodup_singleton _, ?_⟩
    · apply (honce.nodup_children hwf i).imp_of_mem
      intro c d hc hd hne j hjc hjd
      exact hne (htree.child_unique hwf hc hd (inside_of_mem_postorderTo hwf hjc)
        (inside_of_mem_postorderTo hwf hjd))
    · intro j hj k hk
      obtain ⟨c, hc, hjc⟩ := List.mem_flatMap.mp hj
      rw [List.mem_singleton] at hk
      rintro rfl
      subst hk
      exact htree.not_inside_child hwf hc (inside_of_mem_postorderTo hwf hjc)

/-- The list of an operation `j` inside is part of the list, in the same order. -/
theorem exists_postorderTo_sublist {n : Nat} {root j : OpId} (hfits : g.Fits n root)
    (hin : g.Inside root j) :
    ∃ k, g.Fits (k + 1) j ∧ (g.postorderTo (k + 1) j).Sublist (g.postorderTo n root) := by
  refine exists_sublist_of_inside hwf (fun n i c hc => ?_) hfits hin
  exact (sublist_flatMap_of_mem hc (g.postorderTo n)).trans (List.sublist_append_left _ _)

omit hwf in
/-- Every list of a tree with a level ends with its operation. -/
theorem sublist_flatMap_postorderTo {n : Nat} {ops : List OpId}
    (hfits : ∀ c ∈ ops, g.Fits n c) : ops.Sublist (ops.flatMap (g.postorderTo n)) := by
  have hlast : ∀ c ∈ ops, [c].Sublist (g.postorderTo n c) := by
    intro c hc
    cases n with
    | zero => exact (hfits c hc).elim
    | succ n => exact List.sublist_append_right _ _
  have hall := List.Sublist.flatMap_right ops hlast
  rwa [List.flatMap_singleton'] at hall

variable {root : OpId} (hfits : g.Fits g.ops.size root)

include hfits

/-- In `postorder` an operation `i` comes after all that is inside it. -/
theorem pair_sublist_postorder_of_inside {i j : OpId} (hi : g.Inside root i) (hj : g.Inside i j)
    (hne : j ≠ i) : [j, i].Sublist (g.postorder root) := by
  obtain ⟨k, hk, hsub⟩ := exists_postorderTo_sublist hwf hfits hi
  refine List.Sublist.trans ?_ hsub
  -- what is strictly inside is listed before the operation itself, which is listed last
  rcases hj.eq_or_child hwf with heq | ⟨c, hc, hcj⟩
  · exact absurd heq hne
  · obtain ⟨m, -, hsub'⟩ := exists_postorderTo_sublist hwf (hk c hc) hcj
    have hmem : j ∈ (g.children i).flatMap (g.postorderTo k) := by
      refine List.mem_flatMap.mpr ⟨c, hc, hsub'.subset ?_⟩
      exact List.mem_append_right _ List.mem_cons_self
    exact (List.singleton_sublist.mpr hmem).append (List.Sublist.refl [i])

/-- In `postorder` the operations of a block come in their order. -/
theorem pair_sublist_postorder_of_block {b : BlockId} {p i j : OpId}
    (hb : g.blockParent b = some p) (hp : g.Inside root p)
    (hij : [i, j].Sublist (g.block b).ops) : [i, j].Sublist (g.postorder root) := by
  obtain ⟨k, hk, hsub⟩ := exists_postorderTo_sublist hwf hfits hp
  obtain ⟨⟨q, r⟩, hr, rfl⟩ := Option.map_eq_some_iff.mp hb
  -- the list of `q` holds what is directly inside `q`, block by block
  have hmem : b ∈ (g.op q).regions.flatten := hwf.owned.mem_regions_iff.mpr ⟨r, hr⟩
  have hblock : (g.block b).ops.Sublist (g.children q) := by
    have hone := (List.singleton_sublist.mpr hmem).flatMap fun b => (g.block b).ops
    rwa [List.flatMap_singleton] at hone
  have hlist : (g.children q).Sublist (g.postorderTo (k + 1) q) :=
    (sublist_flatMap_postorderTo hk).trans (List.sublist_append_left _ _)
  exact ((hij.trans hblock).trans hlist).trans hsub

end

/-! ## The two orders -/

theorem perm_preorderTo (n : Nat) (i : OpId) : (g.preorderTo n i).Perm (g.postorderTo n i) := by
  -- level by level the two lists differ only in where the operation itself stands
  induction n generalizing i with
  | zero => exact List.Perm.refl _
  | succ n ih =>
    have hinner : ((g.children i).flatMap (g.preorderTo n)).Perm
        ((g.children i).flatMap (g.postorderTo n)) :=
      List.Perm.flatMap_left _ fun c _ => ih c
    exact (hinner.cons i).trans (List.perm_append_singleton i _).symm

/-- `preorder` has exactly what lies inside `root`. -/
theorem mem_preorder_iff (hwf : g.WellFormed) {root i : OpId} (hroot : g.HasOp root) :
    i ∈ g.preorder root ↔ g.Inside root i := by
  rw [← mem_postorder_iff hwf hroot, preorder, postorder, (perm_preorderTo _ _).mem_iff]

end Multistage.Graph
