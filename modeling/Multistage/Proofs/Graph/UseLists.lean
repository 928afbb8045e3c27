import Multistage.Proofs.Graph.Edits

/-!
# Slots and use lists agree

A slot is in the use list of a value exactly if it holds the value, and then once. Both sides are
written by `assign` alone, which changes them together; everything else that touches a slot or a
value leaves what is held and what is listed as it is.
-/

namespace Multistage.Graph

/-- Slot `s` is in `uses` of `v` once if it holds `v`, else not at all. A value that is held is
there. -/
structure UsesAgree (g : Graph) : Prop where
  count : ∀ s v, (g.value v).uses.count s = if (g.slot s).value = some v then 1 else 0
  held : ∀ s v, (g.slot s).value = some v → g.HasValue v

namespace UsesAgree

variable {g g' : Graph}

theorem mem_uses_iff (h : g.UsesAgree) {s : SlotId} {v : ValueId} :
    s ∈ (g.value v).uses ↔ (g.slot s).value = some v := by
  rw [← List.count_pos_iff, h.count]
  split <;> simp_all

theorem hasSlot_of_mem_uses (h : g.UsesAgree) {s : SlotId} {v : ValueId}
    (hs : s ∈ (g.value v).uses) : g.HasSlot s :=
  hasSlot_of_value_eq_some (h.mem_uses_iff.mp hs)

theorem hasOptValue_slot (h : g.UsesAgree) (s : SlotId) : g.HasOptValue (g.slot s).value :=
  fun v hv => h.held s v hv

theorem empty : UsesAgree {} :=
  ⟨fun _ _ => rfl, fun _ _ h => by cases h⟩

/-- `UsesAgree` looks at what slots hold and what use lists have only. -/
theorem congr (h : g.UsesAgree) (huses : ∀ v, (g'.value v).uses = (g.value v).uses)
    (hvalue : ∀ s, (g'.slot s).value = (g.slot s).value) (hwithin : g.Within g') :
    g'.UsesAgree where
  count s v := by rw [huses, hvalue]; exact h.count s v
  held s v hsv := hwithin.hasValue (h.held s v (hvalue s ▸ hsv))

/-! ## Assignments -/

/-- The counts of an `assign` that changes slot `s`. -/
theorem count_assign (h : g.UsesAgree) {s : SlotId} {v : Option ValueId} (hs : g.HasSlot s)
    (hne : ¬ (g.slot s).value = v) {w : ValueId} (hw : g.HasValue w) (t : SlotId) :
    ((g.assign s v).value w).uses.count t =
      if ((g.assign s v).slot t).value = some w then 1 else 0 := by
  rw [value_assign g s v hw, if_neg hne]
  show ((if (g.slot s).value = some w then (g.value w).uses.erase s else (g.value w).uses) ++
    if v = some w then [s] else []).count t = _
  rw [List.count_append]
  by_cases hst : s = t
  · subst hst
    rw [held_assign_self g hs]
    -- the slot is out of the old list before it comes into the new one
    have hold : (if (g.slot s).value = some w then (g.value w).uses.erase s
        else (g.value w).uses).count s = 0 := by
      have hcount := h.count s w
      split
      · next heq =>
        rw [if_pos heq] at hcount
        rw [List.count_erase_self, hcount]
      · next hneq =>
        rw [if_neg hneq] at hcount
        exact hcount
    rw [hold]
    split <;> simp_all
  · -- another slot is neither taken out nor put in
    rw [held_assign_of_ne g hst, ← h.count t w]
    have hlast : (if v = some w then [s] else []).count t = 0 := by
      split
      · exact List.count_eq_zero.mpr fun hmem => hst (List.mem_singleton.mp hmem).symm
      · rfl
    rw [hlast, Nat.add_zero]
    split
    · exact List.count_erase_of_ne (fun hc => hst hc.symm)
    · rfl

theorem assign (h : g.UsesAgree) {s : SlotId} {v : Option ValueId} (hs : g.HasSlot s)
    (hv : g.HasOptValue v) : (g.assign s v).UsesAgree := by
  by_cases hsame : (g.slot s).value = v
  · have hg : g.assign s v = g := if_pos hsame
    rw [hg]
    exact h
  · have hheld : ∀ t w, ((g.assign s v).slot t).value = some w → g.HasValue w := by
      intro t w htw
      rw [slot_assign] at htw
      split at htw
      · exact hv w htw
      · exact h.held t w htw
    refine ⟨fun t w => ?_, fun t w htw => (within_assign g s v).hasValue (hheld t w htw)⟩
    by_cases hw : g.HasValue w
    · exact h.count_assign hs hsame hw t
    · -- a value that is not there has an empty list, and nothing holds it
      have hw' : ¬ (g.assign s v).HasValue w := by
        rw [HasValue, size_values_assign]
        exact hw
      rw [value_of_not_hasValue hw', if_neg fun hc => hw (hheld t w hc)]
      rfl

theorem assign_none (h : g.UsesAgree) (s : SlotId) : (g.assign s none).UsesAgree := by
  by_cases hs : g.HasSlot s
  · exact h.assign hs fun _ hw => by cases hw
  · rw [assign_none_of_not_hasSlot hs]
    exact h

theorem assignAll_none (h : g.UsesAgree) (slots : List SlotId) :
    (g.assignAll slots none).UsesAgree := by
  induction slots generalizing g with
  | nil => exact h
  | cons s rest ih => exact ih (h.assign_none s)

/-! ## Fresh rows -/

/-- A fresh slot that holds nothing. -/
theorem pushSlot (h : g.UsesAgree) (owner : OpId) (k : Nat) :
    (g.pushSlot { owner, index := k, value := none }).1.UsesAgree := by
  refine h.congr (fun _ => rfl) (fun s => ?_) ?_
  · rw [slot_pushSlot]
    split
    · next hs =>
      have hout : ¬ g.HasSlot s := by
        rw [hs]
        exact Nat.lt_irrefl _
      rw [slot_of_not_hasSlot hout]
      rfl
    · rfl
  · exact ⟨Nat.le_refl _, Nat.le_refl _, Nat.le_refl _, by rw [size_slots_pushSlot]; omega⟩

theorem addSlots (h : g.UsesAgree) (owner : OpId) (start : Nat) {vals : List (Option ValueId)}
    (hvals : ∀ v ∈ vals, g.HasOptValue v) : (g.addSlots owner start vals).1.UsesAgree := by
  induction vals generalizing g start with
  | nil => exact h
  | cons v rest ih =>
    -- the slot is pushed empty, so its value comes by an assignment like any other
    have hpush := h.pushSlot owner start
    have hassign : ((g.pushSlot { owner, index := start, value := none }).1.assign
        ⟨g.slots.size⟩ v).UsesAgree := by
      refine hpush.assign ?_ ?_
      · rw [HasSlot, size_slots_pushSlot]
        exact Nat.lt_succ_self _
      · exact hvals v List.mem_cons_self
    refine ih hassign (start + 1) fun u hu w hw => ?_
    rw [HasValue, size_values_assign]
    exact hvals u (List.mem_cons_of_mem v hu) w hw

/-- The values of `addValues` are read by no slot, and no slot holds one of them yet. -/
theorem addValues (h : g.UsesAgree) (source : Nat → Source) (start : Nat)
    (types : List (Option Ty)) : (g.addValues source start types).1.UsesAgree := by
  have hslot : ∀ s, (g.addValues source start types).1.slot s = g.slot s := by
    intro s
    rw [slot, slots_addValues, ← slot]
  refine ⟨fun s v => ?_, fun s v hsv => ?_⟩
  · rw [hslot]
    rcases value_addValues g source start types v with ⟨k, ty, -, rfl, hrow⟩ | ⟨-, hrow⟩
    · -- what a slot holds is there, and a fresh value was not
      have hfree : ¬ (g.slot s).value = some ⟨g.values.size + k⟩ := by
        intro hc
        have hlt : g.values.size + k < g.values.size := h.held s _ hc
        omega
      rw [hrow, if_neg hfree]
      rfl
    · rw [hrow]
      exact h.count s v
  · rw [hslot] at hsv
    have hv : v.index < g.values.size := h.held s v hsv
    rw [HasValue, size_values_addValues]
    omega

theorem install (h : g.UsesAgree) (o : Op) {vals : List (Option ValueId)} (types : List (Option Ty))
    (hvals : ∀ v ∈ vals, g.HasOptValue v) : (g.install o vals types).UsesAgree := by
  have hpush : (g.pushOp o).UsesAgree :=
    h.congr (fun _ => rfl) (fun _ => rfl)
      ⟨by rw [size_ops_pushOp]; omega, Nat.le_refl _, Nat.le_refl _, Nat.le_refl _⟩
  have hslots := hpush.addSlots g.nextOp 0 hvals
  exact (hslots.addValues (.result g.nextOp) 0 types).congr (fun _ => rfl) (fun _ => rfl)
    (within_modifyOp _ _ _)

theorem spliceSegment (h : g.UsesAgree) (i : OpId) (name : String) (start size : Nat)
    {vals : List ValueId} (hvals : ∀ v ∈ vals, g.HasValue v) :
    (g.spliceSegment i name start size vals).UsesAgree := by
  have hdropped := h.assignAll_none (((g.op i).operands.drop start).take size)
  have hwithin := within_assignAll g (((g.op i).operands.drop start).take size) none
  have hsome : ∀ v ∈ vals.map some,
      (g.assignAll (((g.op i).operands.drop start).take size) none).HasOptValue v :=
    hasOptValue_of_mem_map fun v hv => hwithin.hasValue (hvals v hv)
  have hfresh := hdropped.addSlots i start hsome
  rw [spliceSegment_eq]
  refine hfresh.congr (fun v => ?_) (fun s => ?_)
    ((within_renumberFrom _ _ _).trans (within_modifyOp _ _ _))
  · rw [value_modifyOp, value, values_renumberFrom, ← value]
  · rw [slot_modifyOp, value_slot_renumberFrom]

/-- The argument of `addArgument`, like every fresh value, is read by no slot. -/
theorem addArgument (h : g.UsesAgree) (b : BlockId) (ty : Option Ty) :
    (g.addArgument b ty).1.UsesAgree := by
  have hvalue := h.addValues (fun _ => .argument b (g.block b).args.length) 0 [ty]
  exact hvalue.congr (fun _ => rfl) (fun _ => rfl) (within_modifyBlock _ _ _)

theorem retype (h : g.UsesAgree) (v : ValueId) (ty : Option Ty) :
    (g.modifyValue v fun x => { x with ty }).UsesAgree := by
  refine h.congr (fun w => ?_) (fun _ => rfl) (within_modifyValue _ _ _)
  rw [value_modifyValue]
  split <;> rfl

/-! ## Runs -/

/-- Every `Edit` keeps slots and use lists in step. -/
theorem edit (h : g.UsesAgree) {cat : Catalog} (he : Edit cat g g') : g'.UsesAgree := by
  have hwithin := he.within
  cases he with
  | install o vals types _ _ hvals => exact h.install o types hvals
  | assign s v hs hv => exact h.assign hs hv
  | splice i name start size vals _ _ hvals => exact h.spliceSegment i name start size hvals
  | addArgument b ty => exact h.addArgument b ty
  | retype v ty => exact h.retype v ty
  -- the other edits touch neither what is held nor what is listed
  | detach i =>
    exact h.congr (fun v => by rw [value_detach]) (fun s => by rw [slot_detach]) hwithin
  | skip => exact h.congr (fun _ => rfl) (fun _ => rfl) hwithin
  | place => exact h.congr (fun _ => rfl) (fun _ => rfl) hwithin
  | mark => exact h.congr (fun _ => rfl) (fun _ => rfl) hwithin
  | addBlock => exact h.congr (fun _ => rfl) (fun _ => rfl) hwithin
  | describe => exact h.congr (fun _ => rfl) (fun _ => rfl) hwithin

end UsesAgree

end Multistage.Graph
