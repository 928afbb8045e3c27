import Multistage.Proofs.Tree.Walking

/-!
# What erasing cleans up

An erasure is refused before anything changes, or it takes the whole tree out: the operation leaves
its block, everything inside is marked and holds nothing, and the use lists of all values lose the
slots of the tree and keep their order (`value_felled`).
-/

namespace Multistage

namespace Graph

variable {g : Graph}

/-! ## Use lists -/

theorem UsesAgree.nodup_uses (h : g.UsesAgree) (v : ValueId) : (g.value v).uses.Nodup := by
  refine List.nodup_iff_count_le_one.mpr fun s => ?_
  rw [h.count]
  split
  · exact Nat.le_refl 1
  · exact Nat.zero_le 1

/-- `assign s none` takes `s` out of the one use list that it may be in. -/
theorem value_assign_none (h : g.UsesAgree) (s : SlotId) (v : ValueId) :
    (g.assign s none).value v =
      { g.value v with uses := (g.value v).uses.filter fun t => t != s } := by
  by_cases hv : g.HasValue v
  · rw [value_assign g s none hv, if_neg (Option.some_ne_none v).symm]
    by_cases hheld : (g.slot s).value = some v
    · rw [if_neg (by rw [hheld]; exact Option.some_ne_none v), if_pos hheld, List.append_nil,
        (h.nodup_uses v).erase_eq_filter]
    · -- a slot that does not hold the value is not in its list
      have hout : s ∉ (g.value v).uses := fun hmem => hheld (h.mem_uses_iff.mp hmem)
      have hall : (g.value v).uses.filter (fun t => t != s) = (g.value v).uses :=
        List.filter_eq_self.mpr fun t ht => bne_iff_ne.mpr fun heq => hout (heq ▸ ht)
      rw [hall, if_neg hheld, List.append_nil]
      exact ite_self _
  · have hv' : ¬ (g.assign s none).HasValue v := by
      rw [HasValue, size_values_assign]
      exact hv
    rw [value_of_not_hasValue hv, value_of_not_hasValue hv']
    rfl

theorem value_assignAll_none (h : g.UsesAgree) (slots : List SlotId) (v : ValueId) :
    (g.assignAll slots none).value v =
      { g.value v with uses := (g.value v).uses.filter fun t => decide (t ∉ slots) } := by
  induction slots generalizing g with
  | nil => simp [assignAll]
  | cons s rest ih =>
    -- what is dropped in two steps is dropped in one
    have hsame : ∀ t ∈ (g.value v).uses,
        (decide (t ∉ rest) && t != s) = decide (t ∉ s :: rest) := by
      intro t _
      by_cases hts : t = s <;> by_cases hrest : t ∈ rest <;> simp [hts, hrest]
    show ((g.assign s none).assignAll rest none).value v = _
    rw [ih (h.assign_none s), value_assign_none h, List.filter_filter, List.filter_congr hsame]

/-! ## The slots of a tree -/

/-- Whether a slot is an operand of an operation of the tree of `i`. A slot that its operation has
let go of is not. -/
def slotInside (g : Graph) (i : OpId) (s : SlotId) : Bool :=
  (g.op (g.slot s).owner).operands.contains s && g.isAncestorOf i (g.slot s).owner

section

variable {i : OpId} (hi : g.HasOp i)

include hi

theorem slotInside_iff (hnumbered : g.OperandsNumbered) {s : SlotId} :
    g.slotInside i s = true ↔ ∃ j, g.Inside i j ∧ s ∈ (g.op j).operands := by
  rw [slotInside, Bool.and_eq_true, List.contains_iff_mem, isAncestorOf_iff hi]
  constructor
  · rintro ⟨hmem, hin⟩
    exact ⟨_, hin, hmem⟩
  · rintro ⟨j, hin, hmem⟩
    obtain ⟨-, rfl, -⟩ := hnumbered.of_mem hmem
    exact ⟨hmem, hin⟩

variable (hwf : g.WellFormed)

include hwf

/-- The slots that an erasure empties, counted down from `i`, are those from which one comes up to
it. -/
theorem exists_preorder_iff_slotInside {s : SlotId} :
    (∃ j ∈ g.preorder i, s ∈ (g.op j).operands) ↔ g.slotInside i s = true := by
  rw [slotInside_iff hi hwf.numbered]
  refine exists_congr fun j => and_congr_left fun _ => ?_
  rw [mem_preorder_iff hwf hi]

theorem held_felled (s : SlotId) :
    ((g.felled i).slot s).value = if g.slotInside i s then none else (g.slot s).value := by
  rw [(slot_felled i s).2]
  exact if_congr (exists_preorder_iff_slotInside hi hwf) rfl rfl

/-- Every use list of `felled` keeps its order and loses the slots of the tree. -/
theorem value_felled (v : ValueId) :
    (g.felled i).value v =
      { g.value v with uses := (g.value v).uses.filter fun s => !g.slotInside i s } := by
  rw [felled, foldl_mark_keeps (f := fun g => g.value v) (fun _ _ => rfl), value_detach,
    value_assignAll_none hwf.uses]
  have hsame : ∀ s ∈ (g.value v).uses,
      decide (s ∉ (g.preorder i).flatMap fun j => (g.op j).operands) = !g.slotInside i s := by
    intro s _
    rw [Bool.eq_iff_iff, decide_eq_true_iff, Bool.not_eq_true', ← Bool.not_eq_true, List.mem_flatMap,
      exists_preorder_iff_slotInside hi hwf]
  rw [List.filter_congr hsame]

/-- An operation `j` outside the tree is as it was. -/
theorem op_felled_of_not_inside {j : OpId} (hout : ¬ g.Inside i j) :
    (g.felled i).op j = g.op j := by
  have hne : i ≠ j := by
    rintro rfl
    exact hout .root
  have hunmarked : ¬ (j ∈ g.preorder i ∧ g.HasOp j) := fun hj =>
    hout ((mem_preorder_iff hwf hi).mp hj.1)
  rw [op_felled, if_neg hne, decide_eq_false hunmarked, Bool.or_false]

/-- The operations of the tree hold nothing in `felled`. -/
theorem operands_felled {j : OpId} (hin : g.Inside i j) :
    ∀ v ∈ (g.felled i).operands j, v = none := by
  intro v hv
  obtain ⟨s, hs, rfl⟩ := List.mem_map.mp hv
  rw [op_felled] at hs
  rw [held_felled hi hwf, if_pos ((slotInside_iff hi hwf.numbered).mpr ⟨j, hin, hs⟩)]

end

/-- Every block of `felled` keeps its order and loses `i`. -/
theorem ops_felled (h : g.MembersAgree) (i : OpId) (b : BlockId) :
    ((g.felled i).block b).ops = (g.block b).ops.filter fun j => j != i := by
  rw [block_felled]
  split
  · exact (h.nodup b).erase_eq_filter i
  · next hb =>
    refine (List.filter_eq_self.mpr fun j hj => bne_iff_ne.mpr ?_).symm
    rintro rfl
    exact hb ((h.mem_iff j b).mpr hj)

theorem within_felled (g : Graph) (i : OpId) : g.Within (g.felled i) := by
  have hmark : ∀ (tree : List OpId) (g : Graph), g.Within (tree.foldl mark g) := by
    intro tree
    induction tree with
    | nil => exact fun g => .refl g
    | cons j rest ih => exact fun g => (within_modifyOp g j _).trans (ih _)
  exact ((within_assignAll g _ none).trans (within_detach _ i)).trans (hmark _ _)

/-- Operation `i` is not erased yet and nothing reads its results. -/
def Erasable (g : Graph) (i : OpId) : Prop :=
  (g.op i).erased = false ∧ ∀ v ∈ (g.op i).results, g.hasUses v = false

theorem erase_of_erasable {i : OpId} (h : g.Erasable i) : g.erase i = .ok (g.felled i) := by
  refine erase_eq_ok_iff.mpr ⟨h.1, fun v hv => ?_, rfl⟩
  have hunused := h.2 v hv
  rwa [hasUses, Bool.not_eq_false', List.isEmpty_iff] at hunused

theorem erase_of_not_erasable {i : OpId} (h : ¬ g.Erasable i) :
    ∃ m, g.erase i = .error (.misuse m) := by
  unfold erase
  split
  · exact ⟨_, rfl⟩
  · next hlive =>
    split
    · exact ⟨_, rfl⟩
    · next hnone =>
      refine absurd ⟨Bool.eq_false_iff.mpr hlive, fun v hv => ?_⟩ h
      exact Bool.eq_false_iff.mpr (List.find?_eq_none.mp hnone v hv)

end Graph

/-! ## Erasing -/

namespace BuildM

variable {c : Context} {f : Graph → Except Failure Graph}

theorem tryGraph_of_ok {g : Graph} (hf : f c.graph = .ok g) :
    tryGraph f c = .ok () { c with graph := g } := by
  have hgraph : graph c = .ok c.graph c := rfl
  rw [tryGraph, bind_of_ok hgraph, hf]
  rfl

theorem tryGraph_of_error {e : Failure} (hf : f c.graph = .error e) :
    tryGraph f c = .error e c := by
  have hgraph : graph c = .ok c.graph c := rfl
  rw [tryGraph, bind_of_ok hgraph, hf]
  rfl

end BuildM

namespace Build

open BuildM

variable {c : Context} {i : OpId}

theorem erase_of_erasable (h : c.graph.Erasable i) :
    erase i c = .ok () { c with graph := c.graph.felled i } :=
  tryGraph_of_ok (Graph.erase_of_erasable h)

theorem erase_of_not_erasable (h : ¬ c.graph.Erasable i) : ∃ m, erase i c = .error (.misuse m) c := by
  obtain ⟨m, hm⟩ := Graph.erase_of_not_erasable h
  exact ⟨m, tryGraph_of_error hm⟩

/-- `erase` succeeds exactly if `i` is not erased yet and nothing reads its results, and otherwise
changes nothing. When it succeeds `i` is out of its block, all of its tree is marked and holds
nothing, and every use list is what it was without the slots of the tree. -/
theorem erase_all_or_nothing (h : Reachable c) (hi : c.graph.HasOp i) :
    ((∃ c', erase i c = .ok () c') ↔
        (c.graph.op i).erased = false ∧
          ∀ v ∈ (c.graph.op i).results, c.graph.hasUses v = false) ∧
      (∀ e c', erase i c = .error e c' → (∃ m, e = .misuse m) ∧ c' = c) ∧
      ∀ c', erase i c = .ok () c' →
        c' = { c with graph := c'.graph } ∧
        (c'.graph.op i).block = none ∧
        (∀ b, (c'.graph.block b).ops = (c.graph.block b).ops.filter fun j => j != i) ∧
        (∀ j, c.graph.isAncestorOf i j = true →
          (c'.graph.op j).erased = true ∧ (∀ v ∈ c'.graph.operands j, v = none) ∧
            ∀ s ∈ (c'.graph.op j).operands, ∀ v, s ∉ (c'.graph.value v).uses) ∧
        (∀ j, c.graph.isAncestorOf i j = false → c'.graph.op j = c.graph.op j) ∧
        ∀ v, (c'.graph.value v).uses =
          (c.graph.value v).uses.filter fun s => !c.graph.slotInside i s := by
  have hwf := h.sound.graph
  by_cases herasable : c.graph.Erasable i
  · have hrun := erase_of_erasable herasable
    refine ⟨⟨fun _ => herasable, fun _ => ⟨_, hrun⟩⟩, fun e c' herror => ?_, fun c' hok => ?_⟩
    · rw [hrun] at herror
      cases herror
    rw [hrun] at hok
    cases hok
    refine ⟨rfl, ?_, Graph.ops_felled hwf.members i, fun j hj => ?_, fun j hj => ?_, fun v => ?_⟩
    · rw [Graph.op_felled]
      exact if_pos rfl
    · have hin := (Graph.isAncestorOf_iff hi).mp hj
      refine ⟨(Graph.erased_felled hwf hi j).mpr (Or.inr hin), Graph.operands_felled hi hwf hin,
        fun s hs v hmem => ?_⟩
      -- a slot of the tree was taken out of the list
      rw [Graph.op_felled] at hs
      rw [Graph.value_felled hi hwf] at hmem
      have hkept := (List.mem_filter.mp hmem).2
      rw [(Graph.slotInside_iff hi hwf.numbered).mpr ⟨j, hin, hs⟩] at hkept
      cases hkept
    · refine Graph.op_felled_of_not_inside hi hwf fun hin => ?_
      rw [(Graph.isAncestorOf_iff hi).mpr hin] at hj
      cases hj
    · rw [Graph.value_felled hi hwf]
  · obtain ⟨m, hrun⟩ := erase_of_not_erasable herasable
    refine ⟨⟨fun ⟨c', hok⟩ => ?_, fun hsome => absurd hsome herasable⟩, fun e c' herror => ?_,
      fun c' hok => ?_⟩
    · rw [hrun] at hok
      cases hok
    · rw [hrun] at herror
      cases herror
      exact ⟨⟨m, rfl⟩, rfl⟩
    · rw [hrun] at hok
      cases hok

end Build

/-- A `func` that reads its argument before, in and after a loop that reads nothing else. -/
def crowded : List Request := [
  .createDetached { name := Kinds.func },
  .addBlock ⟨0⟩ 0,
  .addArgument ⟨0⟩ (some Ty.i32),
  .moveToEnd (some ⟨0⟩),
  .create { name := Kinds.addI, operands := [some ⟨0⟩, some ⟨0⟩], results := [some Ty.i32] },
  .create { name := Kinds.forLoop, segments := [[some ⟨0⟩], [some ⟨0⟩], [some ⟨0⟩]] },
  .create { name := Kinds.addI, operands := [some ⟨1⟩, some ⟨0⟩], results := [some Ty.i32] },
  .addBlock ⟨2⟩ 0,
  .addArgument ⟨1⟩ (some Ty.i32),
  .moveToEnd (some ⟨1⟩),
  .create { name := Kinds.addI, operands := [some ⟨3⟩, some ⟨0⟩], results := [some Ty.i32] },
  .create { name := Kinds.yield, operands := [some ⟨4⟩] },
  .setSlot ⟨0⟩ none,
  .setSlot ⟨0⟩ (some ⟨0⟩)]

theorem reachable_crowded : Reachable (Request.run crowded {}) :=
  (Reachable.fresh .collect 0).run (by decide +kernel)

/-- In `crowded` without the loop, the argument is read by what is left, in the order in which it
came to be. The first sum cannot be erased, since the second one reads it. -/
theorem crowded_loop_erased :
    Reachable (Request.run crowded {}) ∧
      ((Request.run crowded {}).graph.value ⟨0⟩).uses =
        [⟨1⟩, ⟨2⟩, ⟨3⟩, ⟨4⟩, ⟨6⟩, ⟨8⟩, ⟨0⟩] ∧
      (∃ c', Build.erase ⟨2⟩ (Request.run crowded {}) = .ok () c' ∧
        (c'.graph.block ⟨0⟩).ops = [⟨1⟩, ⟨3⟩] ∧ (c'.graph.op ⟨5⟩).erased = true ∧
        (c'.graph.value ⟨0⟩).uses = [⟨1⟩, ⟨6⟩, ⟨0⟩]) ∧
      ¬ ∃ c', Build.erase ⟨1⟩ (Request.run crowded {}) = .ok () c' := by
  obtain ⟨huses, hthere, hloop, hunread, hblock, hin, hleft, hsum, hread⟩ :
      ((Request.run crowded {}).graph.value ⟨0⟩).uses =
          [⟨1⟩, ⟨2⟩, ⟨3⟩, ⟨4⟩, ⟨6⟩, ⟨8⟩, ⟨0⟩] ∧
        (Request.run crowded {}).graph.HasOp ⟨2⟩ ∧
        ((Request.run crowded {}).graph.op ⟨2⟩).erased = false ∧
        (∀ v ∈ ((Request.run crowded {}).graph.op ⟨2⟩).results,
          (Request.run crowded {}).graph.hasUses v = false) ∧
        ((Request.run crowded {}).graph.block ⟨0⟩).ops.filter (fun j => j != ⟨2⟩) = [⟨1⟩, ⟨3⟩] ∧
        (Request.run crowded {}).graph.isAncestorOf ⟨2⟩ ⟨5⟩ = true ∧
        ((Request.run crowded {}).graph.value ⟨0⟩).uses.filter
          (fun s => !(Request.run crowded {}).graph.slotInside ⟨2⟩ s) = [⟨1⟩, ⟨6⟩, ⟨0⟩] ∧
        (Request.run crowded {}).graph.HasOp ⟨1⟩ ∧
        ¬ ∀ v ∈ ((Request.run crowded {}).graph.op ⟨1⟩).results,
          (Request.run crowded {}).graph.hasUses v = false := by decide +kernel
  obtain ⟨hiff, -, hafter⟩ := Build.erase_all_or_nothing reachable_crowded hthere
  obtain ⟨c', hok⟩ := hiff.mpr ⟨hloop, hunread⟩
  obtain ⟨-, -, hops, htree, -, hlists⟩ := hafter c' hok
  refine ⟨reachable_crowded, huses, ⟨c', hok, ?_, (htree ⟨5⟩ hin).1, ?_⟩, fun hsome => ?_⟩
  · rw [hops, hblock]
  · rw [hlists, hleft]
  · exact hread ((Build.erase_all_or_nothing reachable_crowded hsum).1.mp hsome).2

end Multistage
