import Multistage.Graph.Basic

/-!
# Rows of a changed graph

What a row reads after a change or an addition: the row that was meant has changed, if it is there,
and every other row of every table reads as before. A row past the end of a table reads as the
default, so adding a row changes what is read at one position only.
-/

namespace Multistage.Graph

/-! ## Tables -/

theorem getD_modify_eq_ite {α : Type} [Inhabited α] (xs : Array α) (i j : Nat) (f : α → α) :
    (xs.modify i f).getD j default =
      if i = j ∧ j < xs.size then f (xs.getD j default) else xs.getD j default := by
  simp only [Array.getD_eq_getD_getElem?, Array.getElem?_modify]
  by_cases hij : i = j
  · by_cases hj : j < xs.size
    · simp only [hij, hj, if_pos, and_self, Array.getElem?_eq_getElem, Option.map_some,
        Option.getD_some]
    · have hnone : xs[j]? = none := Array.getElem?_eq_none (by omega)
      simp only [hij, hj, if_pos, and_false, if_false, hnone, Option.map_none]
  · simp only [hij, if_false, false_and]

theorem getD_push_eq_ite {α : Type} [Inhabited α] (xs : Array α) (x : α) (j : Nat) :
    (xs.push x).getD j default = if j = xs.size then x else xs.getD j default := by
  simp only [Array.getD_eq_getD_getElem?, Array.getElem?_push]
  split
  · rw [Option.getD_some]
  · rfl

/-! ## Changed rows -/

theorem op_modifyOp (g : Graph) (i j : OpId) (f : Op → Op) :
    (g.modifyOp i f).op j = if i = j ∧ j.index < g.ops.size then f (g.op j) else g.op j := by
  obtain ⟨i⟩ := i
  obtain ⟨j⟩ := j
  simp only [op, modifyOp, getD_modify_eq_ite, OpId.mk.injEq]

theorem block_modifyBlock (g : Graph) (b c : BlockId) (f : Block → Block) :
    (g.modifyBlock b f).block c =
      if b = c ∧ c.index < g.blocks.size then f (g.block c) else g.block c := by
  obtain ⟨b⟩ := b
  obtain ⟨c⟩ := c
  simp only [block, modifyBlock, getD_modify_eq_ite, BlockId.mk.injEq]

theorem value_modifyValue (g : Graph) (v w : ValueId) (f : Value → Value) :
    (g.modifyValue v f).value w =
      if v = w ∧ w.index < g.values.size then f (g.value w) else g.value w := by
  obtain ⟨v⟩ := v
  obtain ⟨w⟩ := w
  simp only [value, modifyValue, getD_modify_eq_ite, ValueId.mk.injEq]

theorem slot_modifySlot (g : Graph) (s t : SlotId) (f : Slot → Slot) :
    (g.modifySlot s f).slot t =
      if s = t ∧ t.index < g.slots.size then f (g.slot t) else g.slot t := by
  obtain ⟨s⟩ := s
  obtain ⟨t⟩ := t
  simp only [slot, modifySlot, getD_modify_eq_ite, SlotId.mk.injEq]

/-! ## Added rows -/

theorem op_pushOp (g : Graph) (o : Op) (j : OpId) :
    (g.pushOp o).op j = if j = g.nextOp then o else g.op j := by
  obtain ⟨j⟩ := j
  simp only [op, pushOp, nextOp, getD_push_eq_ite, OpId.mk.injEq]

theorem block_pushBlock (g : Graph) (x : Block) (c : BlockId) :
    (g.pushBlock x).1.block c = if c = (g.pushBlock x).2 then x else g.block c := by
  obtain ⟨c⟩ := c
  simp only [block, pushBlock, getD_push_eq_ite, BlockId.mk.injEq]

theorem value_pushValue (g : Graph) (x : Value) (w : ValueId) :
    (g.pushValue x).1.value w = if w = (g.pushValue x).2 then x else g.value w := by
  obtain ⟨w⟩ := w
  simp only [value, pushValue, getD_push_eq_ite, ValueId.mk.injEq]

theorem slot_pushSlot (g : Graph) (x : Slot) (t : SlotId) :
    (g.pushSlot x).1.slot t = if t = (g.pushSlot x).2 then x else g.slot t := by
  obtain ⟨t⟩ := t
  simp only [slot, pushSlot, getD_push_eq_ite, SlotId.mk.injEq]

/-! ## Rows of the other tables -/

section

variable (g : Graph) (i : OpId) (b : BlockId) (v : ValueId) (s : SlotId)
variable (fo : Op → Op) (fb : Block → Block) (fv : Value → Value) (fs : Slot → Slot)

@[simp] theorem block_modifyOp : (g.modifyOp i fo).block b = g.block b := rfl
@[simp] theorem value_modifyOp : (g.modifyOp i fo).value v = g.value v := rfl
@[simp] theorem slot_modifyOp : (g.modifyOp i fo).slot s = g.slot s := rfl
@[simp] theorem op_modifyBlock : (g.modifyBlock b fb).op i = g.op i := rfl
@[simp] theorem value_modifyBlock : (g.modifyBlock b fb).value v = g.value v := rfl
@[simp] theorem slot_modifyBlock : (g.modifyBlock b fb).slot s = g.slot s := rfl
@[simp] theorem op_modifyValue : (g.modifyValue v fv).op i = g.op i := rfl
@[simp] theorem block_modifyValue : (g.modifyValue v fv).block b = g.block b := rfl
@[simp] theorem slot_modifyValue : (g.modifyValue v fv).slot s = g.slot s := rfl
@[simp] theorem op_modifySlot : (g.modifySlot s fs).op i = g.op i := rfl
@[simp] theorem block_modifySlot : (g.modifySlot s fs).block b = g.block b := rfl
@[simp] theorem value_modifySlot : (g.modifySlot s fs).value v = g.value v := rfl

end

/-! ## Sizes -/

section

variable (g : Graph) (i : OpId) (b : BlockId) (v : ValueId) (s : SlotId)
variable (fo : Op → Op) (fb : Block → Block) (fv : Value → Value) (fs : Slot → Slot)

@[simp] theorem size_ops_modifyOp : (g.modifyOp i fo).ops.size = g.ops.size :=
  Array.size_modify

@[simp] theorem size_blocks_modifyBlock : (g.modifyBlock b fb).blocks.size = g.blocks.size :=
  Array.size_modify

@[simp] theorem size_values_modifyValue : (g.modifyValue v fv).values.size = g.values.size :=
  Array.size_modify

@[simp] theorem size_slots_modifySlot : (g.modifySlot s fs).slots.size = g.slots.size :=
  Array.size_modify

@[simp] theorem size_ops_pushOp (o : Op) : (g.pushOp o).ops.size = g.ops.size + 1 :=
  Array.size_push o

end

end Multistage.Graph
