import Multistage.Graph.Lemmas

/-!
# Use lists

Every change of a slot's value goes through `Graph.assign`, which keeps the use lists of the old
and the new value in step: a slot is in the use list of a value exactly if it holds that value.
-/

namespace Multistage.Graph

/-- Takes a slot out of the use list of a value. -/
def removeUse (g : Graph) (v : ValueId) (s : SlotId) : Graph :=
  g.modifyValue v fun x => { x with uses := x.uses.erase s }

/-- Puts a slot at the end of the use list of a value. -/
def addUse (g : Graph) (v : ValueId) (s : SlotId) : Graph :=
  g.modifyValue v fun x => { x with uses := x.uses ++ [s] }

/-- Makes a slot hold a value, or nothing. A slot that already holds it keeps its place in the use
list. -/
def assign (g : Graph) (s : SlotId) (v : Option ValueId) : Graph :=
  if (g.slot s).value = v then g
  else
    let g := match (g.slot s).value with
      | some old => g.removeUse old s
      | none => g
    let g := g.modifySlot s fun x => { x with value := v }
    match v with
    | some new => g.addUse new s
    | none => g

/-! ### What an assignment changes -/

@[simp] theorem op_assign (g : Graph) (s : SlotId) (v : Option ValueId) (i : OpId) :
    (g.assign s v).op i = g.op i := by
  unfold assign
  split
  · rfl
  · cases (g.slot s).value <;> cases v <;> rfl

@[simp] theorem block_assign (g : Graph) (s : SlotId) (v : Option ValueId) (b : BlockId) :
    (g.assign s v).block b = g.block b := by
  unfold assign
  split
  · rfl
  · cases (g.slot s).value <;> cases v <;> rfl

/-- The slot holds the new value, and every other slot is as before. -/
theorem slot_assign (g : Graph) (s t : SlotId) (v : Option ValueId) :
    (g.assign s v).slot t =
      if s = t ∧ t.index < g.slots.size then { g.slot t with value := v } else g.slot t := by
  unfold assign
  split
  · next h =>
    split
    · next hst => rw [← hst.1, ← h]
    · rfl
  · have hset : ∀ g' : Graph, g'.slots = g.slots →
        (g'.modifySlot s fun x => { x with value := v }).slot t =
          if s = t ∧ t.index < g.slots.size then { g.slot t with value := v } else g.slot t := by
      intro g' hg'
      rw [slot_modifySlot, hg', slot, hg', ← slot]
    cases hold : (g.slot s).value <;> cases v <;> exact hset _ rfl

/-- The use list of a value loses the slot if the slot held the value, and gets it at its end if
the slot holds the value now; an assignment of what is there already changes nothing. -/
theorem value_assign (g : Graph) (s : SlotId) (v : Option ValueId) {w : ValueId}
    (hw : w.index < g.values.size) :
    (g.assign s v).value w =
      if (g.slot s).value = v then g.value w
      else
        { g.value w with
          uses := (if (g.slot s).value = some w then (g.value w).uses.erase s
              else (g.value w).uses) ++ if v = some w then [s] else [] } := by
  unfold assign
  by_cases h : (g.slot s).value = v
  · rw [if_pos h, if_pos h]
  · rw [if_neg h, if_neg h]
    have hrow : ∀ x : Value, x = { x with uses := x.uses ++ [] } := fun x => by
      rw [List.append_nil]
    cases hold : (g.slot s).value with
    | none =>
      cases v with
      | none => exact absurd hold h
      | some new =>
        simp only [addUse, value_modifyValue, value_modifySlot, reduceCtorEq, if_false,
          Option.some.injEq]
        by_cases hn : new = w
        · simp only [hn, true_and, if_true]
          rw [if_pos (by exact hw)]
        · simp only [hn, false_and, if_false]
          exact hrow _
    | some old =>
      have herase : (g.removeUse old s).value w =
          { g.value w with
            uses := if old = w then (g.value w).uses.erase s else (g.value w).uses } := by
        rw [removeUse, value_modifyValue]
        by_cases ho : old = w
        · rw [if_pos ⟨ho, hw⟩, if_pos ho]
        · rw [if_neg fun hc => ho hc.1, if_neg ho]
      cases v with
      | none =>
        simp only [value_modifySlot, herase, Option.some.injEq, reduceCtorEq, if_false]
        exact hrow _
      | some new =>
        simp only [addUse, value_modifyValue, value_modifySlot, Option.some.injEq, herase]
        have hsize : w.index < ((g.removeUse old s).modifySlot s
            fun x => { x with value := some new }).values.size := by
          simpa only [removeUse, modifySlot, size_values_modifyValue] using hw
        by_cases hn : new = w
        · simp only [hn, true_and, if_true]
          rw [if_pos (by simpa only [hn] using hsize)]
        · simp only [hn, false_and, if_false]
          exact hrow _

/-- Assigns one value to each of several slots, in order. -/
def assignAll (g : Graph) (slots : List SlotId) (v : Option ValueId) : Graph :=
  slots.foldl (fun g s => g.assign s v) g

/-- Redirects the uses of a value that `keep` accepts, oldest first. -/
def replaceUsesIf (g : Graph) (v : ValueId) (new : Option ValueId) (keep : SlotId → Bool) : Graph :=
  if some v = new then g else g.assignAll ((g.value v).uses.filter keep) new

/-- Redirects every use of a value. -/
def replaceUses (g : Graph) (v : ValueId) (new : Option ValueId) : Graph :=
  g.replaceUsesIf v new fun _ => true

/-- Adds slots of an operation for the values, numbered from `start`. -/
def addSlots (g : Graph) (owner : OpId) (start : Nat) :
    List (Option ValueId) → Graph × List SlotId
  | [] => (g, [])
  | v :: rest =>
    let (g, s) := g.pushSlot { owner, index := start, value := none }
    let (g, slots) := addSlots (g.assign s v) owner (start + 1) rest
    (g, s :: slots)

end Multistage.Graph
