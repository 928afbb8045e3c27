import Multistage.Proofs.Tree.CleanErasure

/-!
# Erasing in a verified tree

Erasing checks that nothing reads the results of the operation, and goes through with everything
inside it. A value that is defined inside may be read from elsewhere: the verifier asks for an order
only where reader and definition share a block, so a reader next to the erased operation passes
before and is left with the value of an erased operation after (`straggling_left_behind`). This is
all that can go wrong. What remains of a verified tree is verified exactly if it reads nothing that
is defined in the part that goes (`verified_felled_iff`).
-/

namespace Multistage

namespace Graph

variable {g : Graph} {root i : OpId} {draft : List BlockId}

/-! ## The tree that is left -/

/-- The operation `p` around one that stays stays. -/
theorem not_inside_of_parent {j p : OpId} (hj : ¬ g.Inside i j) (hp : g.parent j = some p) :
    ¬ g.Inside i p :=
  fun hin => hj (.step hp hin)

theorem parent_felled_of_not_inside {j : OpId} (hj : ¬ g.Inside i j) :
    (g.felled i).parent j = g.parent j := by
  rw [parent_felled, if_neg]
  rintro rfl
  exact hj .root

/-- From inside `i` one comes up to `i` and no further. -/
theorem not_inside_of_inside_felled (hroot : ¬ g.Inside i root) {j : OpId}
    (hj : (g.felled i).Inside root j) : ¬ g.Inside i j := by
  -- the steps up are the same except from the erased operation, from which there is none now
  induction hj with
  | root => exact hroot
  | @step j p hp _ ih =>
    intro hin
    rw [parent_felled] at hp
    cases hin with
    | root => simp at hp
    | step hp' hin =>
      split at hp
      · cases hp
      · rw [hp'] at hp
        cases hp
        exact ih hin

theorem inside_felled_iff (hroot : ¬ g.Inside i root) {j : OpId} :
    (g.felled i).Inside root j ↔ g.Inside root j ∧ ¬ g.Inside i j := by
  have hsame : ¬ g.Inside i j → ((g.felled i).Inside root j ↔ g.Inside root j) :=
    Inside.congr (S := (¬ g.Inside i ·)) (fun _ => parent_felled_of_not_inside)
      fun _ _ => not_inside_of_parent
  constructor
  · intro hj
    have hout := not_inside_of_inside_felled hroot hj
    exact ⟨(hsame hout).mp hj, hout⟩
  · rintro ⟨hj, hout⟩
    exact (hsame hout).mpr hj

/-! ## What it sees -/

section

variable (hwf : g.WellFormed) (hi : g.HasOp i)

include hwf hi

theorem encloses_felled {b : BlockId} {a j : OpId} (hj : ¬ g.Inside i j) :
    (g.felled i).Encloses b a j ↔ g.Encloses b a j :=
  Encloses.congr (S := (¬ g.Inside i ·))
    (fun _ hx => by rw [op_felled_of_not_inside hi hwf hx])
    (fun _ => parent_felled_of_not_inside) (fun _ _ => not_inside_of_parent) hj

omit hi in
/-- Two operations that stay keep their order. -/
theorem pair_sublist_ops_felled {b : BlockId} {d a : OpId} (hd : d ≠ i) (ha : a ≠ i) :
    [d, a].Sublist ((g.felled i).block b).ops ↔ [d, a].Sublist (g.block b).ops := by
  rw [ops_felled hwf.members]
  constructor
  · exact fun hsub => hsub.trans List.filter_sublist
  · intro hsub
    have hkept := hsub.filter fun j => j != i
    rwa [List.filter_eq_self.mpr (by simp [hd, ha])] at hkept

/-- An operation `j` that stays sees what it saw, except what goes. -/
theorem visible_felled_iff {v : ValueId} {j : OpId} (hj : ¬ g.Inside i j) :
    (g.felled i).Visible v j ↔
      g.Visible v j ∧ ∀ d, g.definingOp v = some d → ¬ g.Inside i d := by
  have hsource : ((g.felled i).value v).source = (g.value v).source := by
    rw [value_felled hi hwf]
  cases hv : (g.value v).source with
  | argument b n =>
    rw [visible_of_argument (hsource.trans hv), visible_of_argument hv, definingOp, hv,
      block_felled]
    split <;> simp
  | result d n =>
    rw [visible_of_result (hsource.trans hv), visible_of_result hv, definingOp, hv]
    by_cases hd : g.Inside i d
    · rw [(erased_felled hwf hi d).mpr (Or.inr hd)]
      simp [hd]
    · -- neither the definition nor what is around the reader is the operation that goes
      have hdi : d ≠ i := by
        rintro rfl
        exact hd .root
      have hbefore : ∀ b a, (g.felled i).Encloses b a j →
          ([d, a].Sublist ((g.felled i).block b).ops ↔ [d, a].Sublist (g.block b).ops) := by
        intro b a ha
        have hout : ¬ g.Inside i a := ((encloses_felled hwf hi hj).mp ha).mem
          (S := (¬ g.Inside i ·)) (fun _ _ => not_inside_of_parent) hj
        exact pair_sublist_ops_felled hwf hdi fun hai => hout (hai ▸ .root)
      rw [op_felled_of_not_inside hi hwf hd]
      simp only [Option.some.injEq, forall_eq', hd, not_false_eq_true, and_true]
      refine and_congr_right fun _ => exists_congr fun b => and_congr_right fun _ => ?_
      refine forall_congr' fun a => ?_
      rw [← encloses_felled hwf hi hj]
      exact forall_congr' (hbefore b a)

/-! ## What is still checked of it -/

theorem held_felled_of_mem {j : OpId} (hj : ¬ g.Inside i j) {s : SlotId}
    (hs : s ∈ (g.op j).operands) : ((g.felled i).slot s).value = (g.slot s).value := by
  rw [held_felled hi hwf, if_neg]
  intro hinside
  -- a use of a slot by something inside would make the slot belong to two operations
  obtain ⟨k, hk, hsk⟩ := (slotInside_iff hi hwf.numbered).mp hinside
  obtain ⟨-, hown, -⟩ := hwf.numbered.of_mem hs
  obtain ⟨-, hown', -⟩ := hwf.numbered.of_mem hsk
  exact hj (hown.symm.trans hown' ▸ hk)

/-- A slot `s` that still holds a value is `Current` if it was. -/
theorem current_felled {s : SlotId} {v : ValueId} (hheld : ((g.felled i).slot s).value = some v)
    (hcurrent : g.Current s) : (g.felled i).Current s := by
  -- a slot of something inside holds nothing any more
  have hout : ¬ g.Inside i (g.slot s).owner := by
    intro hin
    have hinside := (slotInside_iff hi hwf.numbered).mpr ⟨_, hin, hcurrent.2⟩
    rw [held_felled hi hwf, if_pos hinside] at hheld
    cases hheld
  rw [Current, (slot_felled i s).1, op_felled_of_not_inside hi hwf hout]
  exact hcurrent

/-- A block `b` ends as it did, unless `i` was its end and had to be. -/
theorem ends_felled (hlast : ¬ g.ClosesBlock i) {j : OpId} (hj : ¬ g.Inside i j) {b : BlockId}
    (hb : g.blockParent b = some j) (hends : g.Ends j b) : (g.felled i).Ends j b := by
  intro t ht
  rw [op_felled_of_not_inside hi hwf hj] at ht
  obtain ⟨last, hlastb, hname⟩ := hends t ht
  have hblock := (hwf.members.mem_iff last b).mpr (List.mem_of_getLast? hlastb)
  -- the last operation stays, and it is last still when another one leaves the block
  have hne : last ≠ i := by
    rintro rfl
    exact hlast ⟨b, j, t, hblock, hb, ht, hlastb⟩
  refine ⟨last, ?_, ?_⟩
  · rw [block_felled]
    split
    · exact getLast?_erase hlastb hne
    · exact hlastb
  · rw [op_felled]
    exact hname

/-- Of the rules for an operation `j` that stays, only the one on what it reads can be broken. -/
theorem sane_felled_iff (hlast : ¬ g.ClosesBlock i) {j : OpId} (hj : ¬ g.Inside i j)
    (hsane : g.Sane draft j) :
    (g.felled i).Sane draft j ↔
      ∀ v d, some v ∈ g.operands j → g.definingOp v = some d → ¬ g.Inside i d := by
  have hrow := op_felled_of_not_inside hi hwf hj
  constructor
  · intro hafter v d hv hd
    obtain ⟨s, hs, hheld⟩ := List.mem_map.mp hv
    have hvisible := hafter.visible (by rwa [hrow]) ((held_felled_of_mem hwf hi hj hs).trans hheld)
    exact ((visible_felled_iff hwf hi hj).mp hvisible).2 d hd
  · intro hreads
    -- the rules on life, uses and ends survive in any case
    refine ⟨?_, fun s hs => ?_, fun v hv s hs => ?_, fun b hb hdraft => ?_⟩
    · rw [hrow]
      exact hsane.live
    · rw [hrow] at hs
      obtain ⟨v, hheld, hvisible⟩ := hsane.reads s hs
      have hmem : some v ∈ g.operands j := List.mem_map.mpr ⟨s, hs, hheld⟩
      exact ⟨v, (held_felled_of_mem hwf hi hj hs).trans hheld,
        (visible_felled_iff hwf hi hj).mpr ⟨hvisible, fun d hd => hreads v d hmem hd⟩⟩
    · rw [hrow] at hv
      have hbefore : (g.slot s).value = some v := by
        rw [held_felled hi hwf] at hs
        split at hs
        · cases hs
        · exact hs
      exact current_felled hwf hi hs (hsane.uses v hv s hbefore)
    · rw [blockParent_felled] at hb
      exact ends_felled hwf hi hlast hj hb (hsane.ends b hb hdraft)

/-- What `felled` leaves of a verified tree is verified exactly if it reads nothing that is gone. -/
theorem verified_felled_iff (hlast : ¬ g.ClosesBlock i) (hroot : ¬ g.Inside i root)
    (hverified : g.Verified root draft) :
    (g.felled i).Verified root draft ↔
      ∀ j v d, g.Inside root j → ¬ g.Inside i j → some v ∈ g.operands j →
        g.definingOp v = some d → ¬ g.Inside i d := by
  constructor
  · intro hafter j v d hj hout
    have hsane := hafter j ((inside_felled_iff hroot).mpr ⟨hj, hout⟩)
    exact (sane_felled_iff hwf hi hlast hout (hverified j hj)).mp hsane v d
  · intro hreads j hj
    obtain ⟨hin, hout⟩ := (inside_felled_iff hroot).mp hj
    exact (sane_felled_iff hwf hi hlast hout (hverified j hin)).mpr fun v d => hreads j v d hin hout

end

/-- Whether `j` reads a result of an operation inside `i`. -/
def readsInto (g : Graph) (i j : OpId) : Bool :=
  (g.operands j).any fun held => (held.bind g.definingOp).any (g.isAncestorOf i)

theorem readsInto_eq_false_iff (hi : g.HasOp i) {j : OpId} :
    g.readsInto i j = false ↔
      ∀ v d, some v ∈ g.operands j → g.definingOp v = some d → ¬ g.Inside i d := by
  simp only [readsInto, List.any_eq_false, Option.any_eq_true, not_exists, not_and,
    isAncestorOf_iff hi, Option.bind_eq_some_iff]
  constructor
  · exact fun hall v d hv hd => hall (some v) hv d ⟨v, rfl, hd⟩
  · rintro hall _ hheld d ⟨v, rfl, hd⟩
    exact hall v d hheld hd

end Graph

theorem Build.exists_erase_of_erasable {c : Context} {i : OpId} (h : c.graph.Erasable i) :
    ∃ c', Build.erase i c = .ok () c' ∧ c'.graph = c.graph.felled i :=
  ⟨_, Build.erase_of_erasable h, rfl⟩

/-- Let operation `i` in a verified tree, other than the root, be neither the last one of its block
nor read by anything. `erase` succeeds, and `verify` passes afterwards exactly if nothing that is
left of the tree reads a result of an operation inside `i`. -/
theorem verify_erase_iff {c : Context} (h : Reachable c) {root i : OpId}
    (hroot : c.graph.HasOp root) (htree : c.graph.FiniteTree root)
    (hverify : c.graph.verify root = none) (hin : c.graph.isAncestorOf root i = true)
    (hne : i ≠ root) (hlast : ∀ b ∈ (c.graph.op i).block, (c.graph.block b).ops.getLast? ≠ some i)
    (hunused : ∀ v ∈ (c.graph.op i).results, c.graph.hasUses v = false) :
    ∃ c', Build.erase i c = .ok () c' ∧
      (c'.graph.verify root = none ↔
        ∀ j ∈ c.graph.postorder root, c.graph.isAncestorOf i j = false →
          c.graph.readsInto i j = false) := by
  have hwf := h.sound.graph
  have hinside := Graph.inside_of_isAncestorOf hin
  have hi := hinside.hasOp hroot
  have hverified := (Graph.verify_eq_none_iff hwf hroot).mp hverify
  have herasable : c.graph.Erasable i := ⟨(hverified i hinside).live, hunused⟩
  have hedits : Graph.Edits {} c.graph (c.graph.felled i) :=
    Graph.edits_erase (Graph.erase_of_erasable herasable)
  have hcloses : ¬ c.graph.ClosesBlock i := by
    rintro ⟨b, p, t, hb, -, -, hend⟩
    exact hlast b hb hend
  -- in a tree the root is not inside what is inside it, so the root stays
  have hout := htree.not_inside_of_inside hwf hinside hne
  obtain ⟨c', hok, hgraph⟩ := Build.exists_erase_of_erasable herasable
  refine ⟨c', hok, ?_⟩
  rw [hgraph, Graph.verify_eq_none_iff (hwf.edits hedits) (hedits.within.hasOp hroot),
    Graph.verified_felled_iff hwf hi hcloses hout hverified]
  simp only [Graph.mem_postorder_iff hwf hroot, ← Bool.not_eq_true (c.graph.isAncestorOf i _),
    Graph.isAncestorOf_iff hi, Graph.readsInto_eq_false_iff hi]
  exact ⟨fun hall j hj hjout v d => hall j v d hj hjout,
    fun hall j v d hj hjout => hall j hj hjout v d⟩

/-- A `func` with two loops, each of which has a sum and a yield. Behind the loops the sum of the
second one is read. -/
def straggling : List Request := [
  .createDetached { name := Kinds.func },
  .addBlock ⟨0⟩ 0,
  .addArgument ⟨0⟩ (some Ty.i32),
  .moveToEnd (some ⟨0⟩),
  .create { name := Kinds.forLoop, segments := [[some ⟨0⟩], [some ⟨0⟩], [some ⟨0⟩]] },
  .create { name := Kinds.forLoop, segments := [[some ⟨0⟩], [some ⟨0⟩], [some ⟨0⟩]] },
  .create { name := Kinds.ret },
  .addBlock ⟨1⟩ 0,
  .addArgument ⟨1⟩ (some Ty.i32),
  .addBlock ⟨2⟩ 0,
  .addArgument ⟨2⟩ (some Ty.i32),
  .moveToEnd (some ⟨1⟩),
  .create { name := Kinds.addI, operands := [some ⟨1⟩, some ⟨0⟩], results := [some Ty.i32] },
  .create { name := Kinds.yield },
  .moveToEnd (some ⟨2⟩),
  .create { name := Kinds.addI, operands := [some ⟨2⟩, some ⟨0⟩], results := [some Ty.i32] },
  .create { name := Kinds.yield },
  .moveBefore ⟨3⟩,
  .create { name := Kinds.addI, operands := [some ⟨4⟩, some ⟨0⟩], results := [some Ty.i32] }]

theorem reachable_straggling : Reachable (Request.run straggling {}) :=
  (Reachable.fresh .collect 0).run (by decide +kernel)

theorem finiteTree_straggling : (Request.run straggling {}).graph.FiniteTree ⟨0⟩ :=
  Graph.Fits.finiteTree (n := 3) (by decide +kernel)

/-- In `straggling` the first loop can be erased with the sum in it. -/
theorem straggling_first_loop_erased :
    (Request.run straggling {}).graph.verify ⟨0⟩ = none ∧
      (Request.run straggling {}).graph.isAncestorOf ⟨1⟩ ⟨4⟩ = true ∧
      ∃ c', Build.erase ⟨1⟩ (Request.run straggling {}) = .ok () c' ∧
        c'.graph.verify ⟨0⟩ = none := by
  obtain ⟨hverify, hin, hroot, hloop, hlast, hunused, hreads⟩ :
      (Request.run straggling {}).graph.verify ⟨0⟩ = none ∧
        (Request.run straggling {}).graph.isAncestorOf ⟨1⟩ ⟨4⟩ = true ∧
        (Request.run straggling {}).graph.HasOp ⟨0⟩ ∧
        (Request.run straggling {}).graph.isAncestorOf ⟨0⟩ ⟨1⟩ = true ∧
        (∀ b ∈ ((Request.run straggling {}).graph.op ⟨1⟩).block,
          ((Request.run straggling {}).graph.block b).ops.getLast? ≠ some ⟨1⟩) ∧
        (∀ v ∈ ((Request.run straggling {}).graph.op ⟨1⟩).results,
          (Request.run straggling {}).graph.hasUses v = false) ∧
        ∀ j ∈ (Request.run straggling {}).graph.postorder ⟨0⟩,
          (Request.run straggling {}).graph.isAncestorOf ⟨1⟩ j = false →
            (Request.run straggling {}).graph.readsInto ⟨1⟩ j = false := by decide +kernel
  obtain ⟨c', hok, hiff⟩ := verify_erase_iff reachable_straggling hroot finiteTree_straggling
    hverify hloop (by decide) hlast hunused
  exact ⟨hverify, hin, c', hok, hiff.mpr hreads⟩

/-- When the second loop of `straggling` is erased, the sum behind it is left with a value that
nothing defines any more. -/
theorem straggling_left_behind :
    Reachable (Request.run straggling {}) ∧
      (Request.run straggling {}).graph.FiniteTree ⟨0⟩ ∧
      (Request.run straggling {}).graph.verify ⟨0⟩ = none ∧
      (Request.run straggling {}).graph.isAncestorOf ⟨0⟩ ⟨2⟩ = true ∧
      (∀ b ∈ ((Request.run straggling {}).graph.op ⟨2⟩).block,
        ((Request.run straggling {}).graph.block b).ops.getLast? ≠ some ⟨2⟩) ∧
      (∀ v ∈ ((Request.run straggling {}).graph.op ⟨2⟩).results,
        (Request.run straggling {}).graph.hasUses v = false) ∧
      ∃ c', Build.erase ⟨2⟩ (Request.run straggling {}) = .ok () c' ∧
        c'.graph.verify ⟨0⟩ =
          some (.definedByErased ⟨Kinds.addI, 8⟩ 0 ⟨Kinds.addI, 6⟩) := by
  obtain ⟨hverify, hin, hlast, hlive, hunused, hafter⟩ :
      (Request.run straggling {}).graph.verify ⟨0⟩ = none ∧
        (Request.run straggling {}).graph.isAncestorOf ⟨0⟩ ⟨2⟩ = true ∧
        (∀ b ∈ ((Request.run straggling {}).graph.op ⟨2⟩).block,
          ((Request.run straggling {}).graph.block b).ops.getLast? ≠ some ⟨2⟩) ∧
        ((Request.run straggling {}).graph.op ⟨2⟩).erased = false ∧
        (∀ v ∈ ((Request.run straggling {}).graph.op ⟨2⟩).results,
          (Request.run straggling {}).graph.hasUses v = false) ∧
        ((Request.run straggling {}).graph.felled ⟨2⟩).verify ⟨0⟩ =
          some (.definedByErased ⟨Kinds.addI, 8⟩ 0 ⟨Kinds.addI, 6⟩) := by decide +kernel
  obtain ⟨c', hok, hgraph⟩ := Build.exists_erase_of_erasable ⟨hlive, hunused⟩
  exact ⟨reachable_straggling, finiteTree_straggling, hverify, hin, hlast, hunused, c', hok,
    hgraph ▸ hafter⟩

end Multistage
