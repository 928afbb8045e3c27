import Multistage.Proofs.Graph.OpReplacement

/-!
# Replacing an operation is a substitution

The results of an operation are redirected one after the other, and then the operation is erased. If
no replacement is a result of the operation itself, the order does not matter: every reader outside
the tree of the operation reads the replacement of what it read, whatever the replacements are, and
the erasure finds no reader left.
-/

namespace Multistage

namespace Graph

variable {g : Graph} {i : OpId} {vals : List (Option ValueId)}

/-- `g'` is `g` without the tree of `i`, and with `vals` in the place of the results of `i`. -/
structure Substitutes (g g' : Graph) (i : OpId) (vals : List (Option ValueId)) : Prop where
  readers : ∀ s (n : Nat) v, g.isAncestorOf i (g.slot s).owner = false →
    (g.op i).results[n]? = some v → (g.slot s).value = some v → vals[n]? = some (g'.slot s).value
  others : ∀ s, g.isAncestorOf i (g.slot s).owner = false →
    (∀ v ∈ (g.op i).results, (g.slot s).value ≠ some v) → g'.slot s = g.slot s
  unread : ∀ s, ∀ v ∈ (g.op i).results, (g'.slot s).value ≠ some v
  erased : ∀ j, (g'.op j).erased = true ↔ (g.op j).erased = true ∨ g.isAncestorOf i j = true
  -- the tree reads nothing, and no operation outside of it has changed
  tree : ∀ j, g.isAncestorOf i j = true → ∀ v ∈ g'.operands j, v = none
  outside : ∀ j, g.isAncestorOf i j = false → g'.op j = g.op j

theorem slotInside_of_outside {s : SlotId} (hs : g.isAncestorOf i (g.slot s).owner = false) :
    g.slotInside i s = false := by
  rw [slotInside, hs, Bool.and_false]

theorem substitutes_replaced (h : g.Replaceable i vals) :
    g.Substitutes (g.replaced i vals) i vals where
  readers s n v hs hv hheld := by
    have hn : n < vals.length := h.length ▸ (List.getElem?_eq_some_iff.mp hv).1
    have hval := List.getElem?_eq_getElem hn
    rw [held_replaced h, slotInside_of_outside hs, if_neg Bool.false_ne_true, hheld,
      redirected_zip (h.wellFormed.owned.nodup_results i) hv hval, hval]
  others s hs hreads := by
    -- only readers of results are redirected
    have hkept : ∀ p ∈ (g.op i).results.zip vals, (g.slot s).value ≠ some p.1 := fun p hp =>
      hreads p.1 (List.of_mem_zip hp).1
    rw [slot_replaced h, slotInside_of_outside hs, if_neg Bool.false_ne_true,
      redirected_of_not_mem hkept]
  unread s v hv := by
    rw [held_replaced h]
    split
    · exact (Option.some_ne_none v).symm
    · exact redirected_zip_ne h.length h.fresh hv _
  erased j := by rw [erased_replaced h, isAncestorOf_iff h.there]
  tree j hj := by
    -- the tree is the same after the readers have been redirected
    have hin := (Standing.replaceAll g ((g.op i).results.zip vals)).inside_iff.mpr
      ((isAncestorOf_iff h.there).mp hj)
    exact operands_felled (hasOp_replaceAll h) (wellFormed_replaceAll h) hin
  outside j hj := by
    refine op_replaced_of_not_inside h fun hin => ?_
    rw [(isAncestorOf_iff h.there).mpr hin] at hj
    cases hj

end Graph

namespace Build

open BuildM

variable {c : Context} {i : OpId} {vals : List (Option ValueId)}

/-- `replaceOp` with another number of values does nothing. -/
theorem replaceOp_of_length_ne (hlength : vals.length ≠ (c.graph.op i).results.length) :
    replaceOp i vals c = .error (.misuse (.replacementCount (c.graph.label i)
      (c.graph.op i).results.length vals.length)) c := by
  have hgraph : graph c = .ok c.graph c := rfl
  rw [replaceOp, bind_of_ok hgraph, if_pos hlength]
  rfl

/-- `replaceOp` of a live operation `i` by as many values as it has results, none of them a result
of its own, succeeds: outside its tree whatever read a result reads the value of `vals` that was
given for it, and everything else reads what it read; the tree is erased, and nothing at all reads a
result any more. With another number of values it is refused, and nothing changes. -/
theorem replaceOp_substitutes (h : Reachable c) (hi : c.graph.HasOp i)
    (hvals : ∀ v ∈ vals, c.graph.HasOptValue v) :
    ((c.graph.op i).erased = false → vals.length = (c.graph.op i).results.length →
      (∀ v ∈ (c.graph.op i).results, some v ∉ vals) →
      ∃ c', replaceOp i vals c = .ok () c' ∧ c.graph.Substitutes c'.graph i vals) ∧
    (vals.length ≠ (c.graph.op i).results.length →
      replaceOp i vals c = .error (.misuse (.replacementCount (c.graph.label i)
        (c.graph.op i).results.length vals.length)) c) := by
  refine ⟨fun hlive hlength hfresh => ?_, replaceOp_of_length_ne⟩
  have hreplaceable : c.graph.Replaceable i vals :=
    ⟨h.sound.graph, hi, hlive, hlength, hvals, hfresh⟩
  obtain ⟨_, c', hok, -, p, rfl⟩ := (gives_replaceOp h.sound hreplaceable).ok
  exact ⟨_, hok, Graph.substitutes_replaced hreplaceable⟩

end Build

/-- A `func` with an operation of two results. Both are read by the sum after it, one by another
sum, and one inside the operation, together with the first sum. -/
def paired : List Request := [
  .createDetached { name := Kinds.func },
  .addBlock ⟨0⟩ 0,
  .addArgument ⟨0⟩ (some Ty.i32),
  .moveToEnd (some ⟨0⟩),
  .create { name := "x.pair", operands := [some ⟨0⟩], results := [some Ty.i32, some Ty.i32],
            regions := 1 },
  .create { name := Kinds.addI, operands := [some ⟨1⟩, some ⟨2⟩], results := [some Ty.i32] },
  .create { name := Kinds.addI, operands := [some ⟨2⟩, some ⟨0⟩], results := [some Ty.i32] },
  .addBlock ⟨1⟩ 0,
  .moveToEnd (some ⟨1⟩),
  .create { name := Kinds.addI, operands := [some ⟨1⟩, some ⟨3⟩], results := [some Ty.i32] }]

theorem reachable_paired : Reachable (Request.run paired {}) :=
  (Reachable.fresh .collect 0).run (by decide +kernel)

/-- On `paired`, the first result is replaced by the sum that reads it, and the second one by
nothing. -/
theorem paired_replaced :
    Reachable (Request.run paired {}) ∧
      (Request.run paired {}).graph.operands ⟨2⟩ = [some ⟨1⟩, some ⟨2⟩] ∧
      (∃ c', Build.replaceOp ⟨1⟩ [some ⟨3⟩, none] (Request.run paired {}) = .ok () c' ∧
        (c'.graph.slot ⟨1⟩).value = some ⟨3⟩ ∧ (c'.graph.slot ⟨2⟩).value = none ∧
        c'.graph.slot ⟨4⟩ = (Request.run paired {}).graph.slot ⟨4⟩ ∧
        (c'.graph.op ⟨4⟩).erased = true) ∧
      Build.replaceOp ⟨1⟩ [none] (Request.run paired {}) =
        .error (.misuse (.replacementCount ⟨"x.pair", 1⟩ 2 1)) (Request.run paired {}) := by
  obtain ⟨hop, hoperands, hlabel, hlive, hresults, hvals, hslots, hin⟩ :
      (Request.run paired {}).graph.HasOp ⟨1⟩ ∧
        (Request.run paired {}).graph.operands ⟨2⟩ = [some ⟨1⟩, some ⟨2⟩] ∧
        (Request.run paired {}).graph.label ⟨1⟩ = ⟨"x.pair", 1⟩ ∧
        ((Request.run paired {}).graph.op ⟨1⟩).erased = false ∧
        ((Request.run paired {}).graph.op ⟨1⟩).results = [⟨1⟩, ⟨2⟩] ∧
        (∀ v ∈ [some ⟨3⟩, none], (Request.run paired {}).graph.HasOptValue v) ∧
        [1, 2, 4].map (fun n => (Request.run paired {}).graph.slot ⟨n⟩) =
          [⟨⟨2⟩, 0, some ⟨1⟩⟩, ⟨⟨2⟩, 1, some ⟨2⟩⟩, ⟨⟨3⟩, 1, some ⟨0⟩⟩] ∧
        [2, 3, 4].map (fun n => (Request.run paired {}).graph.isAncestorOf ⟨1⟩ ⟨n⟩) =
          [false, false, true] := by decide +kernel
  simp only [List.map_cons, List.map_nil, List.cons.injEq, and_true] at hslots hin
  obtain ⟨hfirst, hsecond, hthird⟩ := hslots
  obtain ⟨hsum, hother, hnested⟩ := hin
  obtain ⟨c', hok, hsubst⟩ := (Build.replaceOp_substitutes reachable_paired hop hvals).1 hlive
    (by rw [hresults]; rfl) (by rw [hresults]; decide)
  refine ⟨reachable_paired, hoperands, ⟨c', hok, ?_, ?_, ?_, ?_⟩, ?_⟩
  · exact (Option.some.inj (hsubst.readers ⟨1⟩ 0 ⟨1⟩ (by rw [hfirst]; exact hsum)
      (by rw [hresults]; rfl) (by rw [hfirst]))).symm
  · exact (Option.some.inj (hsubst.readers ⟨2⟩ 1 ⟨2⟩ (by rw [hsecond]; exact hsum)
      (by rw [hresults]; rfl) (by rw [hsecond]))).symm
  · exact hsubst.others ⟨4⟩ (by rw [hthird]; exact hother) (by rw [hresults, hthird]; decide)
  · exact (hsubst.erased ⟨4⟩).mpr (Or.inr hnested)
  · have hnone : ∀ v ∈ [none], (Request.run paired {}).graph.HasOptValue v := by decide
    have hrefused := (Build.replaceOp_substitutes reachable_paired hop hnone).2
      (by rw [hresults]; decide)
    rwa [hlabel, hresults] at hrefused

end Multistage
