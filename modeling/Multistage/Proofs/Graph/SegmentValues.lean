import Multistage.Proofs.Verify.Rewriting

/-!
# What segments hold

An operation whose segments tile its operands is cut by each segment into what comes before it, the
segment and what comes after it (`Op.Cut`). The other segments are found in the two outer parts,
however long the one between them is. So a segment that is set holds the values that it was given,
and all others hold what they held.
-/

namespace Multistage

namespace Op

/-! ## Cutting the operands at a segment -/

theorem locate_add (name : String) (start n : Nat) (segments : List (String × Nat)) :
    locate name (start + n) segments =
      (locate name n segments).map fun p => (start + p.1, p.2) := by
  induction segments generalizing n with
  | nil => rfl
  | cons seg rest ih =>
    obtain ⟨m, size⟩ := seg
    rw [locate, locate]
    split
    · rfl
    · rw [Nat.add_assoc, ih]

/-- `locate` looks for a name in the first segments first. -/
theorem locate_append_eq_or (name : String) (start : Nat) (before after : List (String × Nat)) :
    locate name start (before ++ after) =
      (locate name start before).or (locate name (start + (before.map (·.2)).sum) after) := by
  induction before generalizing start with
  | nil => rfl
  | cons seg rest ih =>
    obtain ⟨m, size⟩ := seg
    rw [List.cons_append, locate, locate]
    split
    · rfl
    · rw [ih, List.map_cons, List.sum_cons, Nat.add_assoc]

/-- A segment that `locate` finds lies within the total length. -/
theorem locate_le_sum {name : String} {first size : Nat} {segments : List (String × Nat)}
    (h : locate name 0 segments = some (first, size)) :
    first + size ≤ (segments.map (·.2)).sum := by
  obtain ⟨before, after, rfl, -, rfl⟩ := locate_eq_some h
  simp only [List.map_append, List.map_cons, List.sum_append, List.sum_cons]
  omega

/-- `resized` leaves the first segment of `name` where it was. -/
theorem locate_resized (name : String) (start n : Nat) (segments : List (String × Nat)) :
    locate name start (Graph.resized name n segments) =
      (locate name start segments).map fun p => (p.1, n) := by
  induction segments generalizing start with
  | nil => rfl
  | cons seg rest ih =>
    obtain ⟨m, size⟩ := seg
    by_cases hm : m = name
    · simp only [Graph.resized, List.map_cons, hm, if_true, locate, Option.map_some]
    · simp only [Graph.resized, List.map_cons, hm, if_false, locate]
      exact ih (start + size)

/-- The operands of `o`, cut at its segment `name`. -/
structure Cut (o : Op) (name : String) where
  before : List (String × Nat)
  after : List (String × Nat)
  first : List SlotId
  part : List SlotId
  rest : List SlotId
  segments : o.segments = before ++ (name, part.length) :: after
  operands : o.operands = first ++ (part ++ rest)
  length_first : first.length = (before.map (·.2)).sum
  length_rest : rest.length = (after.map (·.2)).sum
  not_before : name ∉ before.map (·.1)
  not_after : name ∉ after.map (·.1)

/-- Segments that are `Tiled` cut the operands at every declared name. -/
theorem Tiled.cut {o : Op} (h : o.Tiled o.operands.length) (hnodup : o.declared.Nodup)
    {name : String} (hname : name ∈ o.declared) : Nonempty (o.Cut name) := by
  obtain ⟨hnames, hsum⟩ := h
  have hsum := hsum (List.ne_nil_of_mem hname)
  rw [← hnames] at hname hnodup
  obtain ⟨⟨m, size⟩, hmem, rfl⟩ := List.mem_map.mp hname
  obtain ⟨before, after, hsegments⟩ := List.append_of_mem hmem
  rw [hsegments, List.map_append, List.map_cons] at hnodup hsum
  rw [List.sum_append, List.sum_cons] at hsum
  obtain ⟨-, hafter, hbefore⟩ := List.nodup_append.mp hnodup
  have hsize : ((o.operands.drop (before.map (·.2)).sum).take size).length = size := by
    rw [List.length_take, List.length_drop]
    dsimp only at hsum
    omega
  refine ⟨⟨before, after, o.operands.take (before.map (·.2)).sum,
    (o.operands.drop (before.map (·.2)).sum).take size,
    (o.operands.drop (before.map (·.2)).sum).drop size, ?_, ?_, ?_, ?_, ?_, ?_⟩⟩
  · rw [hsize, hsegments]
  · rw [List.take_append_drop, List.take_append_drop]
  · rw [List.length_take]
    omega
  · rw [List.length_drop, List.length_drop]
    dsimp only at hsum
    omega
  · exact fun hc => hbefore m hc m List.mem_cons_self rfl
  · exact (List.nodup_cons.mp hafter).1

namespace Cut

variable {o : Op} {name : String}

/-- The slots of the segment `other`, which is one of those before or of those after. -/
def around (p : o.Cut name) (other : String) : List SlotId :=
  match locate other 0 p.before with
  | some (start, size) => (p.first.drop start).take size
  | none =>
    match locate other 0 p.after with
    | some (start, size) => (p.rest.drop start).take size
    | none => []

theorem mem_of_mem_around (p : o.Cut name) {other : String} {s : SlotId}
    (hs : s ∈ p.around other) : s ∈ p.first ∨ s ∈ p.rest := by
  unfold around at hs
  split at hs
  · exact Or.inl (List.mem_of_mem_drop (List.mem_of_mem_take hs))
  · split at hs
    · exact Or.inr (List.mem_of_mem_drop (List.mem_of_mem_take hs))
    · cases hs

theorem mem_operands_of_outside (p : o.Cut name) {s : SlotId} (hs : s ∈ p.first ∨ s ∈ p.rest) :
    s ∈ o.operands := by
  rw [p.operands]
  rcases hs with hs | hs
  · exact List.mem_append_left _ hs
  · exact List.mem_append_right _ (List.mem_append_right _ hs)

theorem segment?_self (p : o.Cut name) :
    o.segment? name = some (p.first.length, p.part.length) := by
  rw [segment?, p.segments, locate_append name 0 _ _ p.not_before, locate, if_pos rfl,
    Nat.zero_add, p.length_first]

theorem length_operands (p : o.Cut name) :
    o.operands.length = p.first.length + p.part.length + p.rest.length := by
  rw [p.operands, List.length_append, List.length_append, Nat.add_assoc]

theorem drop_take_operands (p : o.Cut name) :
    (o.operands.drop p.first.length).take p.part.length = p.part := by
  rw [p.operands, List.drop_left, List.take_left]

theorem segmentSlots?_self (p : o.Cut name) : o.segmentSlots? name = some p.part := by
  have hlength := p.length_operands
  rw [segmentSlots?, p.segment?_self]
  dsimp only
  rw [if_pos (by omega), p.drop_take_operands]

theorem segmentSlots?_other (p : o.Cut name) {other : String} (hother : other ≠ name) :
    o.segmentSlots? other = some (p.around other) := by
  have hlength := p.length_operands
  -- a segment behind the cut is found beyond the first two parts
  have hlocate : o.segment? other = (locate other 0 p.before).or
      ((locate other 0 p.after).map fun q => (p.first.length + p.part.length + q.1, q.2)) := by
    rw [segment?, p.segments, locate_append_eq_or, locate, if_neg (Ne.symm hother), Nat.zero_add,
      ← p.length_first, ← locate_add, Nat.add_zero]
  rw [segmentSlots?, hlocate, around]
  cases hbefore : locate other 0 p.before with
  | some q =>
    -- what is before the cut lies in the first part
    obtain ⟨start, size⟩ := q
    have hle := locate_le_sum hbefore
    rw [← p.length_first] at hle
    simp only [Option.some_or]
    rw [if_pos (by omega), p.operands, List.drop_append_of_le_length (by omega),
      List.take_append_of_le_length (by rw [List.length_drop]; omega)]
  | none =>
    cases hafter : locate other 0 p.after with
    | some q =>
      obtain ⟨start, size⟩ := q
      have hle := locate_le_sum hafter
      rw [← p.length_rest] at hle
      simp only [Option.none_or, Option.map_some]
      rw [if_pos (by omega), p.operands, Nat.add_assoc, List.drop_append, List.drop_append]
      rw [List.drop_of_length_le (by omega), List.drop_of_length_le (by omega), List.nil_append,
        List.nil_append]
      have hstart : p.first.length + (p.part.length + start) - p.first.length - p.part.length =
          start := by omega
      rw [hstart]
    | none => rfl

/-- The cut with the slots `fresh` in the place of the segment. -/
def resize (p : o.Cut name) (fresh : List SlotId) :
    Cut { o with
      operands := p.first ++ (fresh ++ p.rest)
      segments := Graph.resized name fresh.length o.segments } name where
  before := p.before
  after := p.after
  first := p.first
  part := fresh
  rest := p.rest
  segments := by
    show Graph.resized name fresh.length o.segments = _
    rw [p.segments, Graph.resized, List.map_append, List.map_cons, ← Graph.resized,
      ← Graph.resized, Graph.resized_of_not_mem p.not_before,
      Graph.resized_of_not_mem p.not_after]
    simp only [if_true]
  operands := rfl
  length_first := p.length_first
  length_rest := p.length_rest
  not_before := p.not_before
  not_after := p.not_after

end Cut

theorem mem_operands_of_segmentSlots? {o : Op} {name : String} {slots : List SlotId}
    (h : o.segmentSlots? name = some slots) : ∀ s ∈ slots, s ∈ o.operands := by
  intro s hs
  unfold segmentSlots? at h
  split at h
  · cases h
    cases hs
  · split at h
    · cases h
      exact List.mem_of_mem_drop (List.mem_of_mem_take hs)
    · cases h

end Op

namespace Graph

variable {g g' : Graph} {i : OpId} {name : String}

/-! ## Values -/

/-- `segmentValue?` is the first of the values of `segment?`. -/
theorem segmentValue?_of_segment? {vals : List (Option ValueId)}
    (h : g.segment? i name = some vals) : g.segmentValue? i name = some vals.head?.join := by
  unfold segment? Op.segmentSlots? at h
  unfold segmentValue?
  cases hfound : (g.op i).segment? name with
  | none =>
    rw [hfound] at h
    cases h
    rfl
  | some q =>
    obtain ⟨start, size⟩ := q
    rw [hfound] at h
    dsimp only at h
    split at h
    · next hle =>
      cases h
      cases size with
      | zero => rfl
      | succ n =>
        have hlt : start < (g.op i).operands.length := by omega
        show Option.bind (g.op i).operands[start]? _ = _
        rw [List.getElem?_eq_getElem hlt, List.drop_eq_getElem_cons hlt]
        rfl
    · cases h

/-! ## Setting a segment -/

/-- `slots` that are given a value each hold it afterwards. -/
theorem map_held_assignEach (g : Graph) {slots : List SlotId} {vals : List ValueId}
    (hlength : slots.length = vals.length) (hnodup : slots.Nodup)
    (hslots : ∀ s ∈ slots, g.HasSlot s) :
    (slots.map fun s => ((g.assignEach slots vals).slot s).value) = vals.map some ∧
      ∀ t, t ∉ slots → ((g.assignEach slots vals).slot t).value = (g.slot t).value := by
  induction slots generalizing g vals with
  | nil =>
    cases vals with
    | nil => exact ⟨rfl, fun _ _ => rfl⟩
    | cons v vals => cases hlength
  | cons s rest ih =>
    cases vals with
    | nil => cases hlength
    | cons v vals =>
      obtain ⟨hs, hrest⟩ := List.nodup_cons.mp hnodup
      obtain ⟨hvals, hkept⟩ := ih (g.assign s (some v)) (Nat.succ.inj hlength) hrest fun t ht =>
        (within_assign g s (some v)).hasSlot (hslots t (List.mem_cons_of_mem s ht))
      have heq : g.assignEach (s :: rest) (v :: vals) =
          (g.assign s (some v)).assignEach rest vals := rfl
      rw [heq]
      refine ⟨?_, fun t ht => ?_⟩
      · -- the first slot is not assigned again
        rw [List.map_cons, hvals, hkept s hs, held_assign_self g (hslots s List.mem_cons_self)]
        rfl
      · rw [List.mem_cons, not_or] at ht
        rw [hkept t ht.2, held_assign_of_ne g (Ne.symm ht.1)]

/-- What no `assign` changes, `assignEach` does not change. -/
theorem assignEach_keeps {α : Type} {f : Graph → α} (hassign : ∀ g s v, f (g.assign s v) = f g)
    (g : Graph) (slots : List SlotId) (vals : List ValueId) : f (g.assignEach slots vals) = f g := by
  unfold assignEach
  induction slots.zip vals generalizing g with
  | nil => rfl
  | cons q rest ih => exact (ih _).trans (hassign _ _ _)

theorem ops_assignEach (g : Graph) (slots : List SlotId) (vals : List ValueId) :
    (g.assignEach slots vals).ops = g.ops := assignEach_keeps ops_assign g slots vals

/-- `setSegment` adds no operation. -/
theorem size_ops_setSegment {vals : List (Option ValueId)}
    (hok : g.setSegment i name vals = .ok g') : g'.ops.size = g.ops.size := by
  obtain ⟨start, size, -, ⟨-, -, rfl⟩ | ⟨-, rfl⟩⟩ := setSegment_ok hok
  · rw [ops_assignEach]
  · rw [spliceSegment_eq, size_ops_modifyOp, ops_renumberFrom, ops_addSlots, ops_assignAll]

theorem spliced_eq (p : (g.op i).Cut name) (n : Nat) : g.spliced i p.first.length p.part.length n =
    p.first ++ (slotsFrom g.slots.size n ++ p.rest) := by
  have hdrop : (g.op i).operands.drop (p.first.length + p.part.length) = p.rest := by
    rw [← List.drop_drop, p.operands, List.drop_left, List.drop_left]
  rw [spliced, hdrop, p.operands, List.take_left, List.append_assoc]

/-- The fresh slots of `spliceSegment` stand in the place of the segment, and the other segments
have the slots that they had. -/
theorem segmentSlots?_spliceSegment (p : (g.op i).Cut name) (hi : g.HasOp i) (vals : List ValueId) :
    ((g.spliceSegment i name p.first.length p.part.length vals).op i).segmentSlots? name =
        some (slotsFrom g.slots.size vals.length) ∧
      ∀ other, other ≠ name →
        ((g.spliceSegment i name p.first.length p.part.length vals).op i).segmentSlots? other =
          some (p.around other) := by
  have hrow : (g.spliceSegment i name p.first.length p.part.length vals).op i = { g.op i with
      operands := p.first ++ (slotsFrom g.slots.size vals.length ++ p.rest)
      segments := resized name (slotsFrom g.slots.size vals.length).length (g.op i).segments } := by
    rw [op_spliceSegment, if_pos ⟨rfl, hi⟩, spliced_eq p, length_slotsFrom]
  rw [hrow]
  exact ⟨(p.resize _).segmentSlots?_self, fun other hne => (p.resize _).segmentSlots?_other hne⟩

/-- `setSegment` keeps the slots of a segment as long as the number of values stays. -/
theorem setSegment_of_cut (p : (g.op i).Cut name) (vals : List (Option ValueId)) :
    g.setSegment i name vals = .ok
      (if p.part.length = (vals.filterMap id).length then g.assignEach p.part (vals.filterMap id)
        else g.spliceSegment i name p.first.length p.part.length (vals.filterMap id)) := by
  have hlength := p.length_operands
  unfold setSegment
  simp only [p.segment?_self, p.drop_take_operands]
  split
  · rw [if_pos trivial]
  · rw [if_pos (by omega)]

section

variable (h : g.OperandsNumbered)

include h

/-- No slot of `p.part` is outside it. -/
theorem not_mem_part_of_outside (p : (g.op i).Cut name) {s : SlotId}
    (hs : s ∈ p.first ∨ s ∈ p.rest) : s ∉ p.part := by
  have hnodup := h.nodup i
  rw [p.operands] at hnodup
  exact (mem_outside_iff hnodup (p.operands ▸ p.mem_operands_of_outside hs)).mp hs

/-- The slots of `p.part` are there, each of them once. -/
theorem nodup_part (p : (g.op i).Cut name) : p.part.Nodup ∧ ∀ s ∈ p.part, g.HasSlot s := by
  have hnodup := h.nodup i
  rw [p.operands] at hnodup
  refine ⟨(List.nodup_append.mp (List.nodup_append.mp hnodup).2.1).1, fun s hs => ?_⟩
  refine (h.of_mem (i := i) ?_).1
  rw [p.operands]
  exact List.mem_append_right _ (List.mem_append_left _ hs)

theorem segments_assignEach (p : (g.op i).Cut name) {vals : List ValueId}
    (hlength : p.part.length = vals.length) :
    (g.assignEach p.part vals).segment? i name = some (vals.map some) ∧
      ∀ other, other ≠ name →
        (g.assignEach p.part vals).segment? i other = g.segment? i other := by
  obtain ⟨hpart, hthere⟩ := nodup_part h p
  obtain ⟨hvals, hkept⟩ := map_held_assignEach g hlength hpart hthere
  have hrow : (g.assignEach p.part vals).op i = g.op i := by rw [op, ops_assignEach, ← op]
  refine ⟨?_, fun other hother => ?_⟩
  · unfold segment?
    rw [hrow, p.segmentSlots?_self]
    exact congrArg some hvals
  · have hheld : ∀ s, s ∈ p.first ∨ s ∈ p.rest →
        ((g.assignEach p.part vals).slot s).value = (g.slot s).value := fun s hs =>
      hkept s (not_mem_part_of_outside h p hs)
    unfold segment?
    rw [hrow, p.segmentSlots?_other hother]
    exact congrArg some (List.map_congr_left fun s hs => hheld s (p.mem_of_mem_around hs))

theorem segments_spliceSegment (p : (g.op i).Cut name) (hi : g.HasOp i) (vals : List ValueId) :
    (g.spliceSegment i name p.first.length p.part.length vals).segment? i name =
        some (vals.map some) ∧
      ∀ other, other ≠ name →
        (g.spliceSegment i name p.first.length p.part.length vals).segment? i other =
          g.segment? i other := by
  obtain ⟨hself, hother⟩ := segmentSlots?_spliceSegment p hi vals
  refine ⟨?_, fun other hne => ?_⟩
  · unfold segment?
    rw [hself]
    -- slot by slot: the fresh ones hold the values in their order
    refine congrArg some (List.ext_getElem? fun n => ?_)
    rw [List.getElem?_map, List.getElem?_map]
    by_cases hn : n < vals.length
    · have hslot : (slotsFrom g.slots.size vals.length)[n]? = some ⟨g.slots.size + n⟩ :=
        getElem?_slotsFrom.mpr ⟨hn, rfl⟩
      have hval := List.getElem?_eq_getElem hn
      rw [hslot, hval]
      exact congrArg some (slot_spliceSegment_fresh i name _ _ vals hval).2
    · rw [List.getElem?_eq_none (by rw [length_slotsFrom]; omega),
        List.getElem?_eq_none (by omega)]
      rfl
  · unfold segment?
    rw [hother other hne, p.segmentSlots?_other hne]
    refine congrArg some (List.map_congr_left fun s hs => ?_)
    have houtside := p.mem_of_mem_around hs
    have hslot := (h.of_mem (p.mem_operands_of_outside houtside)).1
    rw [(slot_spliceSegment_of_hasSlot i name _ _ vals hslot).2, p.drop_take_operands,
      if_neg (not_mem_part_of_outside h p houtside)]

/-- After `setSegment` the segment `name` holds the values that it was given, and the others what
they held. -/
theorem exists_setSegment (p : (g.op i).Cut name) (hi : g.HasOp i) (vals : List ValueId) :
    ∃ g', g.setSegment i name (vals.map some) = .ok g' ∧
      g'.segment? i name = some (vals.map some) ∧
      ∀ other, other ≠ name → g'.segment? i other = g.segment? i other := by
  have hvals : (vals.map some).filterMap id = vals := by
    rw [List.filterMap_map]
    exact List.filterMap_some
  refine ⟨_, setSegment_of_cut p _, ?_⟩
  rw [hvals]
  split
  · next hsize => exact segments_assignEach h p hsize
  · exact segments_spliceSegment h p hi vals

/-- A segment that `setSegment` sets to one value starts with it, whatever other segments there are.
-/
theorem segmentValue?_setSegment (hi : g.HasOp i) {m : ValueId}
    (hok : g.setSegment i name [some m] = .ok g') : g'.segmentValue? i name = some (some m) := by
  obtain ⟨start, size, hfound, hcase⟩ := setSegment_ok hok
  have hvals : [some m].filterMap id = [m] := rfl
  rw [hvals] at hcase
  obtain ⟨rfl, hlength, rfl⟩ | ⟨hle, rfl⟩ := hcase
  · -- the one slot of the segment is assigned
    obtain ⟨s, hs⟩ := List.length_eq_one_iff.mp hlength
    have hget : (g.op i).operands[start]? = some s := by
      have hhead : (((g.op i).operands.drop start).take 1)[0]? = [s][0]? := congrArg (·[0]?) hs
      rwa [List.getElem?_take_of_lt (Nat.lt_succ_self 0), List.getElem?_drop] at hhead
    have hslot := (h.of_mem (List.mem_of_getElem? hget)).1
    have hrow : (g.assignEach (((g.op i).operands.drop start).take [m].length) [m]).op i =
        g.op i := by rw [op, ops_assignEach, ← op]
    unfold segmentValue?
    rw [hrow, hfound, hs]
    show Option.bind (g.op i).operands[start]? _ = _
    rw [hget]
    exact congrArg some (held_assign_self g hslot (some m))
  · -- the fresh slot stands where the segment starts
    have hrow : (g.spliceSegment i name start size [m]).op i = _ := op_spliceSegment ..
    rw [if_pos ⟨rfl, hi⟩] at hrow
    have hsegment : ((g.spliceSegment i name start size [m]).op i).segment? name =
        some (start, 1) := by
      rw [hrow]
      show Op.locate name 0 (resized name 1 _) = _
      rw [Op.locate_resized, ← Op.segment?, hfound]
      rfl
    have hget : ((g.spliceSegment i name start size [m]).op i).operands[start]? =
        some ⟨g.slots.size⟩ := by
      rw [hrow]
      show (g.spliced i start size 1)[start]? = _
      have hstart : ((g.op i).operands.take start).length = start := by
        rw [List.length_take]
        omega
      rw [spliced, List.append_assoc, List.getElem?_append_right (by omega), hstart, Nat.sub_self]
      rfl
    unfold segmentValue?
    rw [hsegment]
    show Option.bind ((g.spliceSegment i name start size [m]).op i).operands[start]? _ = _
    rw [hget]
    exact congrArg some (slot_spliceSegment_fresh i name start size [m] (n := 0) rfl).2

end

end Graph

end Multistage
