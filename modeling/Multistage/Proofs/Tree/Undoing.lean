import Multistage.Proofs.Graph.Growth
import Multistage.Proofs.Tree.CleanErasure

/-!
# Undoing by erasing

A graph that has grown by a single tree is brought back by erasing the root of the tree: rows, lists
and use lists are what they were, and all that is left over is erased and reads nothing
(`Enlarges.restores_felled`).
-/

namespace Multistage.Graph

variable {g g' : Graph} {b : BlockId} {n : OpId}

/-- Everything of `g` is as it was, and what `g'` has on top is erased and reads nothing. -/
structure Restores (g g' : Graph) : Prop where
  within : g.Within g'
  op : ∀ j, g.HasOp j → g'.op j = g.op j
  block : ∀ b, g.HasBlock b → g'.block b = g.block b
  value : ∀ v, g.HasValue v → g'.value v = g.value v
  slot : ∀ s, g.HasSlot s → g'.slot s = g.slot s
  erased : ∀ j, g'.HasOp j → ¬ g.HasOp j → (g'.op j).erased = true
  empty : ∀ s, ¬ g.HasSlot s → (g'.slot s).value = none

theorem Restores.refl (g : Graph) : g.Restores g where
  within := .refl g
  op _ _ := rfl
  block _ _ := rfl
  value _ _ := rfl
  slot _ _ := rfl
  erased _ hj hnew := absurd hj hnew
  empty s hs := by
    rw [slot_of_not_hasSlot hs]
    rfl

theorem erase_insertIdx_of_not_mem {α : Type} [DecidableEq α] {l : List α} {a : α} (ha : a ∉ l)
    {k : Nat} (hk : k ≤ l.length) : (l.insertIdx k a).erase a = l := by
  have hfront : a ∉ l.take k := fun hmem => ha (List.mem_of_mem_take hmem)
  rw [insertIdx_eq_append hk, List.erase_append_right _ hfront, List.erase_cons_head,
    List.take_append_drop]

theorem hasOp_felled {i j : OpId} : (g.felled i).HasOp j ↔ g.HasOp j := by
  rw [HasOp, felled, foldl_mark_keeps (f := fun g => g.ops.size) fun g i => size_ops_modifyOp g i _,
    size_ops_detach, ops_assignAll]
  exact Iff.rfl

theorem index_slot_felled (g : Graph) (i : OpId) (s : SlotId) :
    ((g.felled i).slot s).index = (g.slot s).index := by
  rw [felled, foldl_mark_keeps (f := fun g => g.slot s) (fun _ _ => rfl), slot_detach,
    index_assignAll]

theorem slot_eq_of_fields {x y : Slot} (howner : x.owner = y.owner) (hindex : x.index = y.index)
    (hvalue : x.value = y.value) : x = y := by
  obtain ⟨owner, index, value⟩ := x
  cases howner
  cases hindex
  cases hvalue
  rfl

/-- A slot `s` outside the tree is as it was. -/
theorem slot_felled_of_not_inside (hi : g.HasOp n) (hwf : g.WellFormed) {s : SlotId}
    (hs : g.slotInside n s = false) : (g.felled n).slot s = g.slot s := by
  refine slot_eq_of_fields (slot_felled n s).1 (index_slot_felled g n s) ?_
  rw [held_felled hi hwf s, hs]
  rfl

namespace Enlarges

section

variable (h : g.Enlarges g' b) (hwf : g.WellFormed) (hslots : g.SlotsOwned)
  (hwf' : g'.WellFormed) (hn : ¬ g.HasOp n) (hthere : g'.HasOp n)

include h hwf hslots hwf' hn hthere

/-- A slot `s` of `g` is not part of the new tree, since its operation was there as well. -/
theorem slotInside_of_hasSlot {s : SlotId} (hs : g.HasSlot s) : g'.slotInside n s = false := by
  rw [← Bool.not_eq_true, slotInside_iff hthere hwf'.numbered]
  rintro ⟨j, hin, hmem⟩
  have howner := (hwf'.numbered.of_mem hmem).2.1
  rw [h.row s hs] at howner
  exact h.not_inside_new hwf hn (howner ▸ hslots s hs) hin

variable (hcovers : g.Covers g' n)

include hcovers

omit hwf hslots hn in
theorem slotInside_of_new {s : SlotId} (hs : g'.HasSlot s) (hnew : ¬ g.HasSlot s) :
    g'.slotInside n s = true := by
  rw [slotInside_iff hthere hwf'.numbered]
  obtain ⟨j, hj, hmem⟩ := (h.listed s hs).resolve_left hnew
  exact ⟨j, (hcovers j (hasOp_of_mem_operands hmem)).resolve_left hj, hmem⟩

/-- The use lists lose what they had got. -/
theorem value_felled_new {v : ValueId} (hv : g.HasValue v) :
    (g'.felled n).value v = g.value v := by
  obtain ⟨new, hnew⟩ := h.readers v hv
  have hnodup := hwf'.uses.nodup_uses v
  rw [value_felled hthere hwf', hnew]
  rw [hnew] at hnodup
  -- the old readers of a value lie outside the new tree, and the new ones inside
  have hold : (g.value v).uses.filter (fun s => !g'.slotInside n s) = (g.value v).uses := by
    refine List.filter_eq_self.mpr fun s hs => ?_
    rw [h.slotInside_of_hasSlot hwf hslots hwf' hn hthere (hwf.uses.hasSlot_of_mem_uses hs)]
    rfl
  have hgone : new.filter (fun s => !g'.slotInside n s) = [] := by
    refine List.filter_eq_nil_iff.mpr fun s hs => ?_
    have hheld : s ∈ (g'.value v).uses := by
      rw [hnew]
      exact List.mem_append_right _ hs
    -- a slot that read the value before is in the old part of the list, and only there
    have hfresh : ¬ g.HasSlot s := by
      intro hslot
      have hvalue := hwf'.uses.mem_uses_iff.mp hheld
      rw [h.row s hslot] at hvalue
      exact (List.nodup_append.mp hnodup).2.2 s (hwf.uses.mem_uses_iff.mpr hvalue) s hs rfl
    rw [h.slotInside_of_new hwf' hthere hcovers (hwf'.uses.hasSlot_of_mem_uses hheld) hfresh]
    exact Bool.noConfusion
  show Value.mk _ _ _ = _
  rw [List.filter_append, hold, hgone, List.append_nil]

/-- `felled` of the root `n` of all that is new brings back what was there. -/
theorem restores_felled (hblock : (g'.op n).block = some b) {k : Nat}
    (hk : k ≤ (g.block b).ops.length) (hops : (g'.block b).ops = (g.block b).ops.insertIdx k n) :
    g.Restores (g'.felled n) where
  within := h.within.trans (within_felled g' n)
  op j hj := by
    rw [op_felled_of_not_inside hthere hwf' (h.not_inside_new hwf hn hj)]
    exact h.op j hj
  block c hc := by
    rw [block_felled]
    by_cases hbc : b = c
    · subst hbc
      -- the root is listed once, where it was put
      have hmem : n ∉ (g.block b).ops := fun hmem => hn (hwf.members.hasOp hmem)
      rw [if_pos hblock, hops, erase_insertIdx_of_not_mem hmem hk]
      obtain ⟨hargs, hhome⟩ := h.frame hc
      show Block.mk _ _ _ = _
      rw [hargs, hhome]
    · rw [if_neg fun heq => hbc (Option.some.inj (hblock.symm.trans heq))]
      exact h.block c hc (Ne.symm hbc)
  value v hv := h.value_felled_new hwf hslots hwf' hn hthere hcovers hv
  slot s hs := by
    rw [slot_felled_of_not_inside hthere hwf'
      (h.slotInside_of_hasSlot hwf hslots hwf' hn hthere hs)]
    exact h.row s hs
  erased j hj hnew := by
    rw [erased_felled hwf' hthere]
    exact Or.inr ((hcovers j (hasOp_felled.mp hj)).resolve_left hnew)
  empty s hnew := by
    by_cases hs : g'.HasSlot s
    · rw [held_felled hthere hwf', h.slotInside_of_new hwf' hthere hcovers hs hnew, if_pos rfl]
    · rw [held_felled hthere hwf', slot_of_not_hasSlot hs]
      exact ite_self _

end

end Enlarges

end Multistage.Graph
