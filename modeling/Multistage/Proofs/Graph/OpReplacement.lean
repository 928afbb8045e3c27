import Multistage.Proofs.Graph.OperandChanges
import Multistage.Proofs.Graph.Redirection

/-!
# Replacing an operation

The readers of the results of an operation are redirected to other values, one a result, and the
operation is erased. What every slot holds afterwards is known in one go (`held_replaced`): nothing
in the tree of the operation, the replacement of a result outside of it, and what it held otherwise.
-/

namespace Multistage

namespace Graph

variable {g : Graph}

/-! ## Redirecting many values at once -/

/-- What is read in the place of `v`: its replacement in `pairs` if there is one. -/
def redirected (pairs : List (ValueId × Option ValueId)) (v : Option ValueId) : Option ValueId :=
  v.bind fun u => (pairs.lookup u).getD (some u)

theorem redirected_of_not_mem {pairs : List (ValueId × Option ValueId)} {v : Option ValueId}
    (hv : ∀ p ∈ pairs, v ≠ some p.1) : redirected pairs v = v := by
  cases v with
  | none => rfl
  | some u =>
    have hnone : pairs.lookup u = none := by
      rw [List.lookup_eq_none_iff]
      intro p hp
      rw [bne_iff_ne]
      rintro rfl
      exact hv p hp rfl
    rw [redirected, Option.bind_some, hnone]
    rfl

/-- `redirected` replaces the value of `olds` at a position by that of `news` at the same position.
-/
theorem redirected_zip {olds : List ValueId} {news : List (Option ValueId)} (hnodup : olds.Nodup)
    {m : Nat} {u : ValueId} {w : Option ValueId} (hu : olds[m]? = some u) (hw : news[m]? = some w) :
    redirected (olds.zip news) (some u) = w := by
  induction olds generalizing news m with
  | nil => cases hu
  | cons x rest ih =>
    cases news with
    | nil => cases hw
    | cons y news =>
      obtain ⟨hx, hrest⟩ := List.nodup_cons.mp hnodup
      cases m with
      | zero =>
        cases hu
        cases hw
        rw [List.zip_cons_cons, redirected, Option.bind_some, List.lookup_cons_self]
        rfl
      | succ m =>
        have hmem : u ∈ rest := List.mem_of_getElem? hu
        have hne : (u == x) = false := by
          rw [beq_eq_false_iff_ne]
          rintro rfl
          exact hx hmem
        have hskip : redirected ((x, y) :: rest.zip news) (some u) =
            redirected (rest.zip news) (some u) := by
          rw [redirected, Option.bind_some, List.lookup_cons, hne]
          rfl
        rw [List.zip_cons_cons, hskip]
        exact ih hrest hu hw

/-- No value of `olds` is read afterwards. -/
theorem redirected_zip_ne {olds : List ValueId} {news : List (Option ValueId)}
    (hlength : news.length = olds.length) (hfresh : ∀ v ∈ olds, some v ∉ news) {v : ValueId}
    (hv : v ∈ olds) (x : Option ValueId) : redirected (olds.zip news) x ≠ some v := by
  cases x with
  | none => exact fun heq => by cases heq
  | some u =>
    rw [redirected, Option.bind_some]
    cases hfound : (olds.zip news).lookup u with
    | none =>
      -- then the value that is read is not replaced
      rintro ⟨⟩
      rw [List.lookup_eq_none_iff] at hfound
      rw [← List.map_fst_zip (Nat.le_of_eq hlength.symm)] at hv
      obtain ⟨p, hp, hpv⟩ := List.mem_map.mp hv
      exact absurd hpv.symm (bne_iff_ne.mp (hfound p hp))
    | some w =>
      rintro heq
      obtain ⟨front, back, hsplit, -⟩ := List.lookup_eq_some_iff.mp hfound
      have hmem : (u, w) ∈ olds.zip news := by
        rw [hsplit]
        exact List.mem_append_right _ List.mem_cons_self
      exact hfresh v hv (heq ▸ (List.of_mem_zip hmem).2)

theorem held_replaceUses (h : g.UsesAgree) (r : ValueId) (new : Option ValueId) (s : SlotId) :
    ((g.replaceUses r new).slot s).value =
      if (g.slot s).value = some r then new else (g.slot s).value := by
  by_cases hsame : new = some r
  · subst hsame
    rw [replaceUses, replaceUsesIf_self]
    split
    · next hheld => exact hheld
    · rfl
  · rw [replaceUses, slot_replaceUsesIf h hsame]
    simp only [h.mem_uses_iff, and_true]
    split <;> rfl

/-- What no `assign` changes, `replaceAll` does not change. -/
theorem replaceAll_keeps {α : Type} {f : Graph → α} (hassign : ∀ g s v, f (g.assign s v) = f g)
    (g : Graph) (pairs : List (ValueId × Option ValueId)) : f (Build.replaceAll g pairs) = f g := by
  induction pairs generalizing g with
  | nil => rfl
  | cons p rest ih =>
    refine (ih (g.replaceUses p.1 p.2)).trans ?_
    unfold replaceUses replaceUsesIf
    split
    · rfl
    · exact assignAll_keeps hassign g _ _

/-- In `replaceAll` values take each other's place all at once, if none of the replacements is
itself replaced. -/
theorem held_replaceAll (hwf : g.WellFormed) {pairs : List (ValueId × Option ValueId)}
    (hthere : ∀ p ∈ pairs, g.HasOptValue p.2) (hfresh : ∀ p ∈ pairs, ∀ q ∈ pairs, p.2 ≠ some q.1)
    (s : SlotId) :
    ((Build.replaceAll g pairs).slot s).value = redirected pairs (g.slot s).value := by
  induction pairs generalizing g with
  | nil => exact (redirected_of_not_mem fun p hp => absurd hp List.not_mem_nil).symm
  | cons p rest ih =>
    obtain ⟨r, new⟩ := p
    have hedits : Edits {} g (g.replaceUses r new) :=
      edits_replaceUsesIf hwf.uses r (hthere _ List.mem_cons_self) _
    -- the other pairs are worked off in the graph after the first redirection
    have hrest := ih (hwf.edits hedits)
      (fun p hp => hedits.within.hasOptValue (hthere p (List.mem_cons_of_mem _ hp)))
      fun p hp q hq => hfresh p (List.mem_cons_of_mem _ hp) q (List.mem_cons_of_mem _ hq)
    refine hrest.trans ?_
    rw [held_replaceUses hwf.uses]
    by_cases hheld : (g.slot s).value = some r
    · -- the replacement stays
      rw [if_pos hheld, hheld, redirected_of_not_mem fun q hq =>
        hfresh _ List.mem_cons_self q (List.mem_cons_of_mem _ hq), redirected, Option.bind_some,
        List.lookup_cons_self]
      rfl
    · rw [if_neg hheld]
      cases hvalue : (g.slot s).value with
      | none => rfl
      | some u =>
        have hne : (u == r) = false := by
          rw [beq_eq_false_iff_ne]
          rintro rfl
          exact hheld hvalue
        rw [redirected, Option.bind_some, redirected, Option.bind_some, List.lookup_cons, hne]

/-! ## The graph afterwards -/

theorem Owned.nodup_results (h : g.Owned) (i : OpId) : (g.op i).results.Nodup := by
  rw [List.nodup_iff_getElem?_ne_getElem?]
  intro m l hlt hl heq
  have hv := List.getElem?_eq_getElem hl
  have hfirst := ((h.results i m _).mp (heq.trans hv)).2
  rw [((h.results i l _).mp hv).2] at hfirst
  exact absurd (Source.result.inj hfirst).2 (Nat.ne_of_gt hlt)

/-- The graph without `i`, whose results are replaced by other values. -/
def replaced (g : Graph) (i : OpId) (vals : List (Option ValueId)) : Graph :=
  (Build.replaceAll g ((g.op i).results.zip vals)).felled i

theorem op_replaceAll (g : Graph) (pairs : List (ValueId × Option ValueId)) (j : OpId) :
    (Build.replaceAll g pairs).op j = g.op j :=
  replaceAll_keeps (f := fun g => g.op j) (fun g s v => op_assign g s v j) g pairs

theorem typeOf_replaced (g : Graph) (i : OpId) (vals : List (Option ValueId)) (v : ValueId) :
    (g.replaced i vals).typeOf v = g.typeOf v := by
  rw [replaced, felled, foldl_mark_keeps (f := fun g => g.typeOf v) (fun _ _ => rfl), typeOf,
    value_detach, ← typeOf, typeOf_assignAll,
    replaceAll_keeps (f := fun g => g.typeOf v) fun g s w => typeOf_assign g s w v]

/-- Operation `i` can be replaced by `vals`: there is one of them for each result, and none of them
is a result itself. -/
structure Replaceable (g : Graph) (i : OpId) (vals : List (Option ValueId)) : Prop where
  wellFormed : g.WellFormed
  there : g.HasOp i
  live : (g.op i).erased = false
  length : vals.length = (g.op i).results.length
  defined : ∀ v ∈ vals, g.HasOptValue v
  fresh : ∀ v ∈ (g.op i).results, some v ∉ vals

section

variable {i : OpId} {vals : List (Option ValueId)} (h : g.Replaceable i vals)

include h

theorem Replaceable.pairs :
    (∀ p ∈ (g.op i).results.zip vals, g.HasOptValue p.2) ∧
      ∀ p ∈ (g.op i).results.zip vals, ∀ q ∈ (g.op i).results.zip vals, p.2 ≠ some q.1 :=
  ⟨fun p hp => h.defined p.2 (List.of_mem_zip hp).2, fun _ hp q hq heq =>
    h.fresh q.1 (List.of_mem_zip hq).1 (heq ▸ (List.of_mem_zip hp).2)⟩

theorem edits_replaceAll (cat : Catalog) :
    Edits cat g (Build.replaceAll g ((g.op i).results.zip vals)) :=
  Build.edits_replaceAll h.wellFormed h.pairs.1

theorem wellFormed_replaceAll : (Build.replaceAll g ((g.op i).results.zip vals)).WellFormed :=
  h.wellFormed.edits (edits_replaceAll h {})

theorem hasOp_replaceAll : (Build.replaceAll g ((g.op i).results.zip vals)).HasOp i := by
  rw [HasOp, replaceAll_keeps (f := fun g => g.ops.size) fun g s v => by rw [ops_assign]]
  exact h.there

theorem slotInside_replaceAll (s : SlotId) :
    (Build.replaceAll g ((g.op i).results.zip vals)).slotInside i s = g.slotInside i s := by
  have hstanding := Standing.replaceAll g ((g.op i).results.zip vals)
  rw [Bool.eq_iff_iff, slotInside_iff (hasOp_replaceAll h) (wellFormed_replaceAll h).numbered,
    slotInside_iff h.there h.wellFormed.numbered]
  simp only [op_replaceAll, hstanding.inside_iff]

/-- After `replaceAll` nobody reads the results of `i`. -/
theorem erasable_replaceAll : (Build.replaceAll g ((g.op i).results.zip vals)).Erasable i := by
  rw [Erasable, op_replaceAll]
  refine ⟨h.live, fun v hv => ?_⟩
  rw [hasUses, Bool.not_eq_false', List.isEmpty_iff]
  refine List.eq_nil_iff_forall_not_mem.mpr fun s hs => ?_
  have hheld := (wellFormed_replaceAll h).uses.mem_uses_iff.mp hs
  rw [held_replaceAll h.wellFormed h.pairs.1 h.pairs.2] at hheld
  exact redirected_zip_ne h.length h.fresh hv _ hheld

theorem wellFormed_replaced : (g.replaced i vals).WellFormed :=
  have hedits : Edits {} _ (g.replaced i vals) := edits_erase (erase_of_erasable (erasable_replaceAll h))
  (wellFormed_replaceAll h).edits hedits

theorem within_replaced : g.Within (g.replaced i vals) :=
  (edits_replaceAll h {}).within.trans (within_felled _ i)

/-- An operation `j` outside the tree of `i` is as it was. -/
theorem op_replaced_of_not_inside {j : OpId} (hj : ¬ g.Inside i j) :
    (g.replaced i vals).op j = g.op j := by
  have hstanding := Standing.replaceAll g ((g.op i).results.zip vals)
  rw [replaced, op_felled_of_not_inside (hasOp_replaceAll h) (wellFormed_replaceAll h)
    fun hin => hj (hstanding.inside_iff.mp hin), op_replaceAll]

theorem erased_replaced (j : OpId) : ((g.replaced i vals).op j).erased = true ↔
    (g.op j).erased = true ∨ g.Inside i j := by
  have hstanding := Standing.replaceAll g ((g.op i).results.zip vals)
  rw [replaced, erased_felled (wellFormed_replaceAll h) (hasOp_replaceAll h), op_replaceAll,
    hstanding.inside_iff]

/-- In `replaced` the slots of the tree hold nothing, the readers of a result hold its replacement,
and all others hold what they held. -/
theorem held_replaced (s : SlotId) :
    ((g.replaced i vals).slot s).value =
      if g.slotInside i s then none
      else redirected ((g.op i).results.zip vals) (g.slot s).value := by
  rw [replaced, held_felled (hasOp_replaceAll h) (wellFormed_replaceAll h),
    slotInside_replaceAll h, held_replaceAll h.wellFormed h.pairs.1 h.pairs.2]

/-- An operation `j` outside the tree that reads none of the results reads what it read. -/
theorem operands_replaced {j : OpId} (hj : ¬ g.Inside i j)
    (hreads : ∀ v ∈ (g.op i).results, some v ∉ g.operands j) :
    (g.replaced i vals).operands j = g.operands j := by
  have hnumbered := h.wellFormed.numbered
  rw [operands, op_replaced_of_not_inside h hj]
  refine List.map_congr_left fun s hs => ?_
  -- no other operation has this slot
  have houtside : ¬ g.slotInside i s = true := by
    rw [slotInside_iff h.there hnumbered]
    rintro ⟨l, hin, hl⟩
    obtain rfl : l = j := (hnumbered.of_mem hl).2.1.symm.trans (hnumbered.of_mem hs).2.1
    exact hj hin
  rw [held_replaced h, if_neg houtside, redirected_of_not_mem fun p hp heq =>
    hreads p.1 (List.of_mem_zip hp).1 (List.mem_map.mpr ⟨s, hs, heq⟩)]

theorem resultTypes_replaced {j : OpId} (hj : ¬ g.Inside i j) :
    (g.replaced i vals).resultTypes j = g.resultTypes j := by
  rw [resultTypes, op_replaced_of_not_inside h hj]
  exact List.map_congr_left fun v _ => typeOf_replaced g i vals v

end

theorem block_replaced (g : Graph) (i : OpId) (vals : List (Option ValueId)) (b : BlockId) :
    (g.replaced i vals).block b =
      if (g.op i).block = some b then { g.block b with ops := (g.block b).ops.erase i }
      else g.block b := by
  rw [replaced, block_felled, op_replaceAll, (Standing.replaceAll g _).blocks]

theorem hasOp_replaced {i j : OpId} {vals : List (Option ValueId)} :
    (g.replaced i vals).HasOp j ↔ g.HasOp j := by
  rw [replaced, hasOp_felled, HasOp,
    replaceAll_keeps (f := fun g => g.ops.size) fun g s v => by rw [ops_assign]]
  exact Iff.rfl

theorem parent_replaced (g : Graph) (i j : OpId) (vals : List (Option ValueId)) :
    (g.replaced i vals).parent j = if i = j then none else g.parent j := by
  rw [replaced, parent_felled, (Standing.replaceAll g _).parent]

/-- A slot of `replaced` belongs to the operation it belonged to. -/
theorem slot_replaced {i : OpId} {vals : List (Option ValueId)} (h : g.Replaceable i vals)
    (s : SlotId) :
    (g.replaced i vals).slot s = { g.slot s with
      value := if g.slotInside i s then none
        else redirected ((g.op i).results.zip vals) (g.slot s).value } := by
  refine slot_eq_of_fields ?_ ?_ (held_replaced h s)
  · rw [replaced, (slot_felled i s).1,
      replaceAll_keeps (f := fun g => (g.slot s).owner) fun g t v => owner_assign g t s v]
  · rw [replaced, index_slot_felled,
      replaceAll_keeps (f := fun g => (g.slot s).index) fun g t v => index_assign g t s v]

end Graph

/-! ## The replacement -/

namespace Build

open BuildM

variable {c : Context} {i : OpId} {vals : List (Option ValueId)}

theorem gives_erase (herasable : c.graph.Erasable i) :
    (erase i).Gives c fun _ c' => c' = { c with graph := c.graph.felled i } :=
  have hok := Graph.erase_of_erasable herasable
  gives_tryGraph (f := (·.erase i)) hok (Graph.edits_erase hok)

/-- `eraseOp` leaves `felled`; where the cursor is left does not matter here. -/
theorem gives_eraseOp (h : c.Sound) (herasable : c.graph.Erasable i) :
    (eraseOp i).Gives c fun _ c' => ∃ p, c' = { c with graph := c.graph.felled i, cursor := p } := by
  refine gives_cursor.bind fun p c₁ _ hc => ?_
  obtain ⟨rfl, rfl⟩ := hc
  dsimp only
  split
  · -- the cursor moves on to the next operation
    have hmoved : c₁.graph.HasCursor { c₁.cursor with before := c₁.graph.next i } :=
      ⟨h.cursor.1, fun j hj => hasOp_next h.graph hj⟩
    refine (gives_modify (.single (.move _ hmoved))).bind fun _ c₂ _ hc => ?_
    subst hc
    exact (gives_erase (c := { c₁ with cursor := { c₁.cursor with before := c₁.graph.next i } })
      herasable).imp fun _ _ _ hc => ⟨_, hc⟩
  · exact (gives_erase herasable).imp fun _ _ _ hc => ⟨_, hc⟩

/-- `replaceOp` leaves `replaced`, if `i` is `Replaceable`. -/
theorem gives_replaceOp (h : c.Sound) (hi : c.graph.Replaceable i vals) :
    (replaceOp i vals).Gives c fun _ c' =>
      ∃ p, c' = { c with graph := c.graph.replaced i vals, cursor := p } := by
  refine gives_graph.bind fun g c₁ _ hc => ?_
  obtain ⟨rfl, rfl⟩ := hc
  dsimp only
  rw [if_neg (not_not.mpr hi.length)]
  refine (gives_modifyGraph (Graph.edits_replaceAll hi _)).bind fun _ c₂ hadv hc => ?_
  subst hc
  exact gives_eraseOp (h.advances hadv) (Graph.erasable_replaceAll hi)

end Build

end Multistage
