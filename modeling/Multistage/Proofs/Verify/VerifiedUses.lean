import Multistage.Proofs.Tree.PostOrder

/-!
# What verification says about use lists

The check of an operation goes through its operands and through the use lists of its results. The
arguments of blocks are nobody's results, so nobody looks at their use lists: an argument may be
read by a slot of an erased operation, or by one that its operation has let go of, in a graph that
passes (`argument_read_by_erased`). Of the slots that read an argument only those in operations of
the tree are known to be in use.
-/

namespace Multistage

/-- In a tree that passes `verify`, every operand of an operation is one of the `uses` of the value
it holds; every use of a result is an operand, at its own position, of an operation that is not
erased; and every use of an argument holds the argument. -/
theorem verified_use_lists {c : Context} (h : Reachable c) {root : OpId}
    (hroot : c.graph.HasOp root) (hverify : c.graph.verify root = none) :
    (∀ i k s, c.graph.isAncestorOf root i = true → (c.graph.op i).operands[k]? = some s →
        (c.graph.slot s).owner = i ∧ (c.graph.slot s).index = k ∧
          ∃ v, (c.graph.slot s).value = some v ∧ s ∈ (c.graph.value v).uses) ∧
      (∀ i v s, c.graph.isAncestorOf root i = true → v ∈ (c.graph.op i).results →
        s ∈ (c.graph.value v).uses →
          (c.graph.slot s).value = some v ∧ (c.graph.op (c.graph.slot s).owner).erased = false ∧
            (c.graph.op (c.graph.slot s).owner).operands[(c.graph.slot s).index]? = some s) ∧
      ∀ i b v s, c.graph.isAncestorOf root i = true → c.graph.blockParent b = some i →
        v ∈ (c.graph.block b).args → s ∈ (c.graph.value v).uses →
          (c.graph.slot s).value = some v ∧
            (c.graph.isAncestorOf root (c.graph.slot s).owner = true →
              (c.graph.op (c.graph.slot s).owner).erased = false) := by
  have hwf := h.sound.graph
  have hverified := (Graph.verify_eq_none_iff hwf hroot).mp hverify
  have hsane : ∀ i, c.graph.isAncestorOf root i = true → c.graph.Sane [] i :=
    fun i hi => hverified i (Graph.inside_of_isAncestorOf hi)
  refine ⟨fun i k s hi hs => ?_, fun i v s hi hv hs => ?_, fun i b v s _ _ _ hs => ?_⟩
  · obtain ⟨-, howner, hindex⟩ := hwf.numbered i k s hs
    obtain ⟨v, hv, -⟩ := (hsane i hi).reads s (List.mem_of_getElem? hs)
    exact ⟨howner, hindex, v, hv, hwf.uses.mem_uses_iff.mpr hv⟩
  · have hheld := hwf.uses.mem_uses_iff.mp hs
    obtain ⟨hlive, hmem⟩ := (hsane i hi).uses v hv s hheld
    exact ⟨hheld, hlive, (hwf.numbered.of_mem hmem).2.2⟩
  · -- a use of an argument is known to be in use only from the side of its reader
    exact ⟨hwf.uses.mem_uses_iff.mp hs, fun howner => (hsane _ howner).live⟩

/-- A `func` that doubles its argument twice. Another sum of the argument and the first double is
erased, and then its first operand is set to the argument again. -/
def revived : List Request := [
  .createDetached { name := Kinds.func },
  .addBlock ⟨0⟩ 0,
  .addArgument ⟨0⟩ (some Ty.i32),
  .moveToEnd (some ⟨0⟩),
  .create { name := Kinds.addI, operands := [some ⟨0⟩, some ⟨0⟩], results := [some Ty.i32] },
  .create { name := Kinds.addI, operands := [some ⟨1⟩, some ⟨1⟩], results := [some Ty.i32] },
  .create { name := Kinds.addI, operands := [some ⟨0⟩, some ⟨1⟩], results := [some Ty.i32] },
  .create { name := Kinds.ret },
  .erase ⟨3⟩,
  .setOperand ⟨3⟩ 0 (some ⟨0⟩)]

theorem reachable_revived : Reachable (Request.run revived {}) :=
  (Reachable.fresh .collect 0).run (by decide +kernel)

/-- In `revived` the first double is read by the second one only, and the argument by the slot of
the erased sum too. -/
theorem revived_use_lists :
    (Request.run revived {}).graph.verify ⟨0⟩ = none ∧
      ((Request.run revived {}).graph.value ⟨1⟩).uses = [⟨2⟩, ⟨3⟩] ∧
      (∀ s ∈ ((Request.run revived {}).graph.value ⟨1⟩).uses,
        ((Request.run revived {}).graph.op
          ((Request.run revived {}).graph.slot s).owner).erased = false) ∧
      ((Request.run revived {}).graph.value ⟨0⟩).uses = [⟨0⟩, ⟨1⟩, ⟨4⟩] ∧
      ∀ s ∈ ((Request.run revived {}).graph.value ⟨0⟩).uses,
        ((Request.run revived {}).graph.slot s).value = some ⟨0⟩ := by
  have hverify : (Request.run revived {}).graph.verify ⟨0⟩ = none := by decide +kernel
  obtain ⟨-, hresults, hargs⟩ := verified_use_lists reachable_revived (by decide +kernel) hverify
  refine ⟨hverify, by decide +kernel, fun s hs => ?_, by decide +kernel, fun s hs => ?_⟩
  · exact (hresults ⟨1⟩ ⟨1⟩ s (by decide +kernel) (by decide +kernel) hs).2.1
  · exact (hargs ⟨0⟩ ⟨0⟩ ⟨0⟩ s (by decide +kernel) (by decide +kernel) (by decide +kernel) hs).1

/-- `revived` passes `verify` although one of the uses of its argument is an operand of an erased
operation. -/
theorem argument_read_by_erased :
    Reachable (Request.run revived {}) ∧ (Request.run revived {}).graph.verify ⟨0⟩ = none ∧
      (Request.run revived {}).graph.DefinedIn ⟨0⟩ ⟨0⟩ ∧
      ⟨4⟩ ∈ ((Request.run revived {}).graph.value ⟨0⟩).uses ∧
      ((Request.run revived {}).graph.op
        ((Request.run revived {}).graph.slot ⟨4⟩).owner).erased = true :=
  ⟨reachable_revived, by decide +kernel,
    ⟨⟨0⟩, .root, Or.inr ⟨⟨0⟩, by decide +kernel, by decide +kernel⟩⟩, by decide +kernel,
    by decide +kernel⟩

end Multistage
