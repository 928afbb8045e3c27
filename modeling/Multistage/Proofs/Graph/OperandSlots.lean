import Multistage.Proofs.Graph.Edits

/-!
# Operands know their place

An operand slot belongs to the operation that lists it and carries its position there. Assignments
leave both alone; where a segment changes its length, every slot of the operation is numbered anew.
Slots that an operation has let go of still belong to it.
-/

namespace Multistage.Graph

/-- Operand `n` of an operation is a slot of that operation with number `n`. -/
def OperandsNumbered (g : Graph) : Prop :=
  ∀ i n s, (g.op i).operands[n]? = some s →
    g.HasSlot s ∧ (g.slot s).owner = i ∧ (g.slot s).index = n

namespace OperandsNumbered

variable {g g' : Graph}

theorem empty : OperandsNumbered {} := fun _ _ _ => nofun

theorem of_mem (h : g.OperandsNumbered) {i : OpId} {s : SlotId} (hs : s ∈ (g.op i).operands) :
    g.HasSlot s ∧ (g.slot s).owner = i ∧ (g.op i).operands[(g.slot s).index]? = some s := by
  obtain ⟨n, hn⟩ := List.mem_iff_getElem?.mp hs
  obtain ⟨hslot, howner, hindex⟩ := h i n s hn
  exact ⟨hslot, howner, hindex ▸ hn⟩

theorem nodup (h : g.OperandsNumbered) (i : OpId) : (g.op i).operands.Nodup := by
  rw [List.nodup_iff_injective_get]
  -- a slot that occurs twice would carry two numbers
  intro a b hab
  have ha := (h i a _ (List.getElem?_eq_getElem a.isLt)).2.2
  have hb := (h i b _ (List.getElem?_eq_getElem b.isLt)).2.2
  simp only [List.get_eq_getElem] at hab
  rw [hab] at ha
  exact Fin.ext (ha.symm.trans hb)

/-- `OperandsNumbered` looks at operand lists, owners and numbers only. -/
theorem congr (h : g.OperandsNumbered) (hop : ∀ i, (g'.op i).operands = (g.op i).operands)
    (howner : ∀ s, (g'.slot s).owner = (g.slot s).owner)
    (hindex : ∀ s, (g'.slot s).index = (g.slot s).index) (hwithin : g.Within g') :
    g'.OperandsNumbered := by
  intro i n s hs
  rw [hop] at hs
  obtain ⟨hslot, ho, hi⟩ := h i n s hs
  exact ⟨hwithin.hasSlot hslot, (howner s).trans ho, (hindex s).trans hi⟩

theorem install (h : g.OperandsNumbered) (o : Op) (vals : List (Option ValueId))
    (types : List (Option Ty)) : (g.install o vals types).OperandsNumbered := by
  intro i n s hs
  rw [op_install] at hs
  split at hs
  · next hi =>
    obtain ⟨hn, rfl⟩ := getElem?_slotsFrom.mp hs
    have hrow := slot_install_of_getElem? g o vals types (List.getElem?_eq_getElem hn)
    refine ⟨?_, ?_, ?_⟩
    · rw [HasSlot, size_slots_install]
      exact Nat.add_lt_add_left hn _
    · rw [hrow, hi]
    · rw [hrow]
  · obtain ⟨hslot, howner, hindex⟩ := h i n s hs
    rw [slot_install_of_hasSlot g o vals types hslot]
    exact ⟨(within_install g o vals types).hasSlot hslot, howner, hindex⟩

/-- `modifyOp` that leaves the operands of `i` alone. -/
theorem modifyOp (h : g.OperandsNumbered) (i : OpId) {f : Op → Op}
    (hf : ∀ o, (f o).operands = o.operands) : (g.modifyOp i f).OperandsNumbered := by
  refine h.congr (fun j => ?_) (fun _ => rfl) (fun _ => rfl) (within_modifyOp g i f)
  rw [op_modifyOp]
  split
  · exact hf _
  · rfl

/-! ## Replacing a stretch of operands -/

/-- The fresh slots of `spliced` are none of the old operands, so nothing is listed twice. -/
theorem nodup_spliced (h : g.OperandsNumbered) (i : OpId) (start size n : Nat) :
    (g.spliced i start size n).Nodup := by
  have hold := h.nodup i
  have hfresh : ∀ s ∈ (g.op i).operands, s ∉ slotsFrom g.slots.size n := by
    intro s hs hc
    have hlt : s.index < g.slots.size := (h.of_mem hs).1
    have hle := (mem_slotsFrom.mp hc).1
    omega
  -- what is kept is a part of the old list
  have hparts : ((g.op i).operands.take start ++
      (g.op i).operands.drop (start + size)).Nodup := by
    refine hold.sublist ?_
    have hdrop : (g.op i).operands.drop (start + size) = ((g.op i).operands.drop start).drop size :=
      List.drop_drop.symm
    rw [hdrop]
    nth_rewrite 3 [← List.take_append_drop start (g.op i).operands]
    exact List.Sublist.append_left (List.drop_sublist _ _) _
  obtain ⟨htake, hdrop, hdisjoint⟩ := List.nodup_append.mp hparts
  rw [spliced, List.append_assoc, List.nodup_append]
  refine ⟨htake, List.nodup_append.mpr ⟨nodup_slotsFrom _ _, hdrop, ?_⟩, ?_⟩
  · rintro s hs t ht rfl
    exact hfresh s (List.mem_of_mem_drop ht) hs
  · rintro s hs t ht rfl
    rcases List.mem_append.mp ht with ht | ht
    · exact hfresh s (List.mem_of_mem_take hs) ht
    · exact hdisjoint s hs s ht rfl

theorem mem_spliced {i : OpId} {start size n : Nat} {s : SlotId}
    (hs : s ∈ g.spliced i start size n) :
    s ∈ (g.op i).operands ∨ ∃ k, k < n ∧ s = ⟨g.slots.size + k⟩ := by
  rw [spliced, List.mem_append, List.mem_append] at hs
  rcases hs with (hs | hs) | hs
  · exact Or.inl (List.mem_of_mem_take hs)
  · obtain ⟨k, hk⟩ := List.mem_iff_getElem?.mp hs
    exact Or.inr ⟨k, getElem?_slotsFrom.mp hk⟩
  · exact Or.inl (List.mem_of_mem_drop hs)

/-- Before they are numbered, all slots of `spliced` are there and belong to `i`. -/
theorem owner_of_mem_spliced (h : g.OperandsNumbered) {i : OpId} {start size : Nat}
    (dropped : List SlotId) (vals : List ValueId) {s : SlotId}
    (hs : s ∈ g.spliced i start size vals.length) :
    ((g.assignAll dropped none).addSlots i start (vals.map some)).1.HasSlot s ∧
      (((g.assignAll dropped none).addSlots i start (vals.map some)).1.slot s).owner = i := by
  have hsize : (g.assignAll dropped none).slots.size = g.slots.size := size_slots_assignAll _ _ _
  rcases mem_spliced hs with hold | ⟨k, hk, rfl⟩
  · obtain ⟨hslot, howner, -⟩ := h.of_mem hold
    have hslot' := (within_assignAll g dropped none).hasSlot hslot
    refine ⟨(within_addSlots _ _ _ _).hasSlot hslot', ?_⟩
    rw [slot_addSlots_of_hasSlot _ _ _ _ hslot', owner_assignAll]
    exact howner
  · have hget : (vals.map some)[k]? = some (some vals[k]) := by
      rw [List.getElem?_map, List.getElem?_eq_getElem hk]
      rfl
    have hrow := slot_addSlots_of_getElem? (g.assignAll dropped none) i start (vals.map some) hget
    rw [hsize] at hrow
    refine ⟨?_, by rw [hrow]⟩
    rw [HasSlot, size_slots_addSlots, hsize, List.length_map]
    exact Nat.add_lt_add_left hk _

theorem spliceSegment (h : g.OperandsNumbered) (i : OpId) (name : String) (start size : Nat)
    (vals : List ValueId) : (g.spliceSegment i name start size vals).OperandsNumbered := by
  intro j n s hs
  rw [op_spliceSegment] at hs
  rw [spliceSegment_eq]
  set dropped := ((g.op i).operands.drop start).take size
  set g₂ := ((g.assignAll dropped none).addSlots i start (vals.map some)).1 with hg₂
  show (g₂.renumberFrom 0 (g.spliced i start size vals.length)).HasSlot s ∧
    ((g₂.renumberFrom 0 (g.spliced i start size vals.length)).slot s).owner = j ∧
    ((g₂.renumberFrom 0 (g.spliced i start size vals.length)).slot s).index = n
  rw [HasSlot, size_slots_renumberFrom, owner_renumberFrom]
  split at hs
  · next hij =>
    -- the slots of the operation itself get the numbers of their places, since none is listed twice
    obtain ⟨rfl, -⟩ := hij
    obtain ⟨hslot, howner⟩ := h.owner_of_mem_spliced dropped vals (List.mem_of_getElem? hs)
    refine ⟨hslot, howner, ?_⟩
    rw [index_renumberFrom_of_getElem? _ _ _ (h.nodup_spliced i start size vals.length) hs hslot]
    omega
  · next hij =>
    obtain ⟨hslot, howner, hindex⟩ := h j n s hs
    have hslot' := (within_assignAll g dropped none).hasSlot hslot
    have hrow : g₂.slot s = (g.assignAll dropped none).slot s :=
      slot_addSlots_of_hasSlot _ _ _ _ hslot'
    -- a slot of another operation is not numbered anew
    have hnot : s ∉ g.spliced i start size vals.length := by
      intro hmem
      have hi := (h.owner_of_mem_spliced dropped vals hmem).2
      rw [← hg₂, hrow, owner_assignAll, howner] at hi
      exact hij ⟨hi.symm, hasOp_of_mem_operands (List.mem_of_getElem? hs)⟩
    refine ⟨(within_addSlots _ _ _ _).hasSlot hslot', ?_, ?_⟩
    · rw [hrow, owner_assignAll]
      exact howner
    · rw [index_renumberFrom_of_not_mem _ _ _ hnot, hrow, index_assignAll]
      exact hindex

/-! ## Runs -/

/-- Every `Edit` keeps operands numbered. -/
theorem edit (h : g.OperandsNumbered) {cat : Catalog} (he : Edit cat g g') :
    g'.OperandsNumbered := by
  have hwithin := he.within
  cases he with
  | install o vals types => exact h.install o vals types
  | skip =>
    exact h.congr (fun i => by rw [op_skipOp]) (fun _ => rfl) (fun _ => rfl) hwithin
  | assign s v =>
    exact h.congr (fun _ => by rw [op_assign]) (fun t => owner_assign g s t v)
      (fun t => index_assign g s t v) hwithin
  | splice i name start size vals => exact h.spliceSegment i name start size vals
  | place b k i =>
    refine h.congr (fun j => ?_) (fun _ => rfl) (fun _ => rfl) hwithin
    rw [op_place]
    split <;> rfl
  | detach i =>
    refine h.congr (fun j => ?_) (fun s => by rw [slot_detach]) (fun s => by rw [slot_detach])
      hwithin
    rw [op_detach]
    split <;> rfl
  | mark i => exact h.modifyOp i fun _ => rfl
  | addBlock i r => exact h.modifyOp i fun _ => rfl
  | addArgument b ty => exact h.congr (fun _ => rfl) (fun _ => rfl) (fun _ => rfl) hwithin
  | describe i f hf =>
    refine h.modifyOp i fun o => ?_
    obtain ⟨attrs, loc, ho⟩ := hf o
    rw [ho]
  | retype v ty => exact h.congr (fun _ => rfl) (fun _ => rfl) (fun _ => rfl) hwithin

end OperandsNumbered

/-! ## All slots -/

/-- Every slot of `g` belongs to an operation that is there, whether it is an operand or not. -/
def SlotsOwned (g : Graph) : Prop := ∀ s, g.HasSlot s → g.HasOp (g.slot s).owner

namespace SlotsOwned

variable {g g' : Graph}

theorem empty : SlotsOwned {} := fun _ hs => absurd hs (Nat.not_lt_zero _)

/-- `SlotsOwned` looks at the number of slots and their owners only. -/
theorem congr (h : g.SlotsOwned) (hsize : g'.slots.size = g.slots.size)
    (howner : ∀ s, (g'.slot s).owner = (g.slot s).owner) (hwithin : g.Within g') :
    g'.SlotsOwned := by
  intro s hs
  rw [HasSlot, hsize] at hs
  rw [howner]
  exact hwithin.hasOp (h s hs)

theorem install (h : g.SlotsOwned) (o : Op) (vals : List (Option ValueId))
    (types : List (Option Ty)) : (g.install o vals types).SlotsOwned := by
  intro s hs
  by_cases hold : g.HasSlot s
  · rw [slot_install_of_hasSlot g o vals types hold]
    exact (within_install g o vals types).hasOp (h s hold)
  · -- a new slot belongs to the new operation
    obtain ⟨k, hk⟩ := Nat.exists_eq_add_of_le (Nat.not_lt.mp hold)
    rw [HasSlot, size_slots_install, hk] at hs
    have hget := List.getElem?_eq_getElem (Nat.lt_of_add_lt_add_left hs)
    obtain rfl : s = ⟨g.slots.size + k⟩ := congrArg SlotId.mk hk
    rw [slot_install_of_getElem? g o vals types hget, HasOp, size_ops_install]
    exact Nat.lt_succ_self _

theorem spliceSegment (h : g.SlotsOwned) {i : OpId} (hi : g.HasOp i) (name : String)
    (start size : Nat) (vals : List ValueId) :
    (g.spliceSegment i name start size vals).SlotsOwned := by
  intro s hs
  refine (within_spliceSegment g i name start size vals).hasOp ?_
  rw [spliceSegment_eq] at hs ⊢
  set dropped := ((g.op i).operands.drop start).take size
  rw [slot_modifyOp, owner_renumberFrom]
  have hsize : (g.assignAll dropped none).slots.size = g.slots.size := size_slots_assignAll _ _ _
  by_cases hold : g.HasSlot s
  · have hold' := (within_assignAll g dropped none).hasSlot hold
    rw [slot_addSlots_of_hasSlot _ _ _ _ hold', owner_assignAll]
    exact h s hold
  -- a slot that was not there is one of the fresh ones, which belong to the operation
  · obtain ⟨k, hk⟩ := Nat.exists_eq_add_of_le (Nat.not_lt.mp hold)
    have hlt : k < (vals.map some).length := by
      have hs' : s.index < (((g.assignAll dropped none).addSlots i start
        (vals.map some)).1.renumberFrom 0 (g.spliced i start size vals.length)).slots.size := hs
      rw [size_slots_renumberFrom, size_slots_addSlots, hsize, hk] at hs'
      exact Nat.lt_of_add_lt_add_left hs'
    have hrow := slot_addSlots_of_getElem? (g.assignAll dropped none) i start (vals.map some)
      (List.getElem?_eq_getElem hlt)
    obtain rfl : s = ⟨(g.assignAll dropped none).slots.size + k⟩ := by
      rw [hsize, ← hk]
    rw [hrow]
    exact hi

/-- Every `Edit` keeps it so. -/
theorem edit (h : g.SlotsOwned) {cat : Catalog} (he : Edit cat g g') : g'.SlotsOwned := by
  have hwithin := he.within
  cases he with
  | install o vals types => exact h.install o vals types
  | skip => exact h.congr rfl (fun _ => rfl) hwithin
  | assign s v => exact h.congr (size_slots_assign g s v) (fun t => owner_assign g s t v) hwithin
  | splice i name start size vals hfound =>
    refine h.spliceSegment ?_ name start size vals
    by_contra hi
    rw [op_of_not_hasOp hi] at hfound
    cases hfound
  | place b k i => exact h.congr rfl (fun _ => rfl) hwithin
  | detach i =>
    refine h.congr ?_ (fun s => by rw [slot_detach]) hwithin
    unfold detach
    split <;> rfl
  | mark i => exact h.congr rfl (fun _ => rfl) hwithin
  | addBlock i r => exact h.congr rfl (fun _ => rfl) hwithin
  | addArgument b ty => exact h.congr rfl (fun _ => rfl) hwithin
  | describe i f => exact h.congr rfl (fun _ => rfl) hwithin
  | retype v ty => exact h.congr rfl (fun _ => rfl) hwithin

end SlotsOwned

end Multistage.Graph
