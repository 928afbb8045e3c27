import Multistage.Proofs.Graph.SegmentValues
import Multistage.Proofs.Tree.CleanErasure

/-!
# What setting a segment leaves alone

Setting an operand segment either puts the values into the slots of the segment or, if their number
changes, puts fresh slots in the place of the old ones. Both ways come to the same for all that is
not the segment (`Resegments`): the other segments have the slots that they had, every slot outside
the segment holds what it held, and the use lists are in the order in which they were.
-/

namespace Multistage

namespace Graph

variable {g g' : Graph} {i : OpId} {name : String}

/-! ## Use lists -/

/-- `assign` moves slot `s` only. -/
theorem filter_uses_assign (h : g.UsesAgree) {s : SlotId} {p : SlotId → Bool} (hs : p s = false)
    (v : Option ValueId) (w : ValueId) :
    ((g.assign s v).value w).uses.filter p = (g.value w).uses.filter p := by
  by_cases hw : g.HasValue w
  · rw [value_assign g s v hw]
    split
    · rfl
    · show ((if (g.slot s).value = some w then (g.value w).uses.erase s else (g.value w).uses) ++
        if v = some w then [s] else []).filter p = _
      -- the slot that leaves the list is one that is not looked at
      have herase : ((g.value w).uses.erase s).filter p = (g.value w).uses.filter p := by
        rw [(h.nodup_uses w).erase_eq_filter, List.filter_filter]
        refine List.filter_congr fun t _ => ?_
        by_cases hts : t = s <;> simp [hts, hs]
      have hlast : (if v = some w then [s] else []).filter p = [] := by
        split <;> simp [hs]
      rw [List.filter_append, hlast, List.append_nil]
      split
      · exact herase
      · rfl
  · have hw' : ¬ (g.assign s v).HasValue w := by
      rw [HasValue, size_values_assign]
      exact hw
    rw [value_of_not_hasValue hw, value_of_not_hasValue hw']

theorem filter_uses_assignEach (h : g.UsesAgree) {slots : List SlotId} {vals : List ValueId}
    (hslots : ∀ s ∈ slots, g.HasSlot s) (hvals : ∀ v ∈ vals, g.HasValue v) {p : SlotId → Bool}
    (hp : ∀ s ∈ slots, p s = false) (w : ValueId) :
    ((g.assignEach slots vals).value w).uses.filter p = (g.value w).uses.filter p := by
  induction slots generalizing g vals with
  | nil => rfl
  | cons s rest ih =>
    cases vals with
    | nil => rfl
    | cons v vals =>
      have hwithin := within_assign g s (some v)
      have hagree := h.assign (hslots s List.mem_cons_self) (hvals v List.mem_cons_self).opt
      show (((g.assign s (some v)).assignEach rest vals).value w).uses.filter p = _
      rw [ih hagree (fun t ht => hwithin.hasSlot (hslots t (List.mem_cons_of_mem s ht)))
        (fun u hu => hwithin.hasValue (hvals u (List.mem_cons_of_mem v hu)))
        fun t ht => hp t (List.mem_cons_of_mem s ht),
        filter_uses_assign h (hp s List.mem_cons_self)]

/-- The slots that `spliceSegment` lets go of leave the use lists, and the fresh ones come to their
ends. -/
theorem value_spliceSegment (h : g.UsesAgree) (i : OpId) (name : String) (start size : Nat)
    (vals : List ValueId) {w : ValueId} (hw : g.HasValue w) :
    (g.spliceSegment i name start size vals).value w =
      { g.value w with
        uses := ((g.value w).uses.filter fun s =>
            decide (s ∉ ((g.op i).operands.drop start).take size)) ++
          readersFrom w g.slots.size (vals.map some) } := by
  have hw' := (within_assignAll g (((g.op i).operands.drop start).take size) none).hasValue hw
  rw [spliceSegment_eq, value_modifyOp, value, values_renumberFrom, ← value,
    value_addSlots_of_hasValue _ _ _ _ hw', value_assignAll_none h, size_slots_assignAll]

theorem filter_uses_spliceSegment (h : g.UsesAgree) (i : OpId) (name : String) (start size : Nat)
    (vals : List ValueId) (w : ValueId) :
    (((g.spliceSegment i name start size vals).value w).uses.filter fun s =>
        decide (s ∉ slotsFrom g.slots.size vals.length)) =
      (g.value w).uses.filter fun s =>
        decide (s ∉ ((g.op i).operands.drop start).take size) := by
  by_cases hw : g.HasValue w
  · have hfresh : ((readersFrom w g.slots.size (vals.map some)).filter fun s =>
        decide (s ∉ slotsFrom g.slots.size vals.length)) = [] := by
      refine List.filter_eq_nil_iff.mpr fun s hs => ?_
      obtain ⟨k, hk, rfl⟩ := mem_readersFrom.mp hs
      have hlt : k < vals.length := by
        have hlt := (List.getElem?_eq_some_iff.mp hk).1
        rwa [List.length_map] at hlt
      simpa using mem_slotsFrom.mpr ⟨Nat.le_add_right _ _, Nat.add_lt_add_left hlt _⟩
    -- what was listed is none of the fresh slots
    have hold : ∀ s ∈ (g.value w).uses, s ∉ slotsFrom g.slots.size vals.length := by
      intro s hs hmem
      exact absurd (h.hasSlot_of_mem_uses hs) (Nat.not_lt.mpr (mem_slotsFrom.mp hmem).1)
    rw [value_spliceSegment h i name start size vals hw]
    dsimp only
    rw [List.filter_append, hfresh, List.append_nil, List.filter_eq_self]
    intro s hs
    exact decide_eq_true (hold s (List.mem_filter.mp hs).1)
  · have hw' : ¬ (g.spliceSegment i name start size vals).HasValue w := by
      rw [HasValue, size_values_spliceSegment]
      exact hw
    rw [value_of_not_hasValue hw, value_of_not_hasValue hw']
    rfl

/-! ## Both ways of setting a segment -/

/-- `g'` is `g` with the values `vals`, as far as they are there, in a segment of `i`, whose slots
are `old` in `g` and `new` in `g'`. -/
structure Resegments (g g' : Graph) (i : OpId) (name : String) (vals : List (Option ValueId))
    (old new : List SlotId) : Prop where
  before : (g.op i).segmentSlots? name = some old
  after : (g'.op i).segmentSlots? name = some new
  values : g'.segment? i name = some ((vals.filterMap id).map some)
  same : (vals.filterMap id).length = old.length → new = old
  fresh : (vals.filterMap id).length ≠ old.length → ∀ s ∈ new, ¬ g.HasSlot s
  gone : ∀ s ∈ old, s ∉ new → (g'.slot s).value = none ∧ ∀ v, s ∉ (g'.value v).uses
  others : ∀ other ∈ (g.op i).declared, other ≠ name → ∃ slots,
    (g.op i).segmentSlots? other = some slots ∧ (g'.op i).segmentSlots? other = some slots ∧
      ∀ s ∈ slots, (g'.slot s).value = (g.slot s).value
  -- nothing outside the segment changes but the numbers of slots
  slots : ∀ s, g.HasSlot s → s ∉ old →
    (g'.slot s).owner = (g.slot s).owner ∧ (g'.slot s).value = (g.slot s).value
  uses : ∀ v, ((g'.value v).uses.filter fun s => decide (s ∉ new)) =
    (g.value v).uses.filter fun s => decide (s ∉ old)
  ops : ∀ j, j ≠ i → g'.op j = g.op j
  blocks : g'.blocks = g.blocks

section

variable (h : g.WellFormed) (p : (g.op i).Cut name)

include h

/-- A slot of another segment `other` is there, and not in this one. -/
theorem outside_of_mem_around {other : String} {s : SlotId} (hs : s ∈ p.around other) :
    g.HasSlot s ∧ s ∉ p.part := by
  have houtside := p.mem_of_mem_around hs
  exact ⟨(h.numbered.of_mem (p.mem_operands_of_outside houtside)).1,
    not_mem_part_of_outside h.numbered p houtside⟩

variable {vals : List (Option ValueId)}

theorem resegments_assignEach (hvals : ∀ v ∈ vals.filterMap id, g.HasValue v)
    (hlength : p.part.length = (vals.filterMap id).length) :
    g.Resegments (g.assignEach p.part (vals.filterMap id)) i name vals p.part p.part := by
  obtain ⟨hpart, hthere⟩ := nodup_part h.numbered p
  obtain ⟨-, hkept⟩ := map_held_assignEach g hlength hpart hthere
  have hrow : ∀ j, (g.assignEach p.part (vals.filterMap id)).op j = g.op j := fun j => by
    rw [op, ops_assignEach, ← op]
  refine ⟨p.segmentSlots?_self, by rw [hrow, p.segmentSlots?_self],
    (segments_assignEach h.numbered p hlength).1, fun _ => rfl, fun hne => absurd hlength.symm hne,
    fun s hs hnot => absurd hs hnot, fun other _ hne => ?_, fun s _ hs => ⟨?_, hkept s hs⟩,
    fun v => ?_, fun j _ => hrow j,
    assignEach_keeps blocks_assign g _ _⟩
  · refine ⟨p.around other, p.segmentSlots?_other hne, ?_, fun s hs => ?_⟩
    · rw [hrow, p.segmentSlots?_other hne]
    · exact hkept s (outside_of_mem_around h p hs).2
  · exact assignEach_keeps (f := fun g => (g.slot s).owner) (fun g t v => owner_assign g t s v) g _ _
  · exact filter_uses_assignEach h.uses hthere hvals (fun s hs => decide_eq_false (not_not.mpr hs)) v

theorem resegments_spliceSegment (hi : g.HasOp i) (hvals : ∀ v ∈ vals.filterMap id, g.HasValue v)
    (hlength : p.part.length ≠ (vals.filterMap id).length) :
    g.Resegments (g.spliceSegment i name p.first.length p.part.length (vals.filterMap id)) i name
      vals p.part (slotsFrom g.slots.size (vals.filterMap id).length) := by
  obtain ⟨hself, hother⟩ := segmentSlots?_spliceSegment p hi (vals.filterMap id)
  have huses := h.uses.spliceSegment i name p.first.length p.part.length hvals
  have hslot : ∀ s, g.HasSlot s → _ := fun s hs =>
    slot_spliceSegment_of_hasSlot i name p.first.length p.part.length (vals.filterMap id) hs
  simp only [p.drop_take_operands] at hslot
  have hout : ∀ s, g.HasSlot s → s ∉ p.part →
      ((g.spliceSegment i name p.first.length p.part.length (vals.filterMap id)).slot s).value =
        (g.slot s).value := fun s hs hnot => (hslot s hs).2.trans (if_neg hnot)
  refine ⟨p.segmentSlots?_self, hself, (segments_spliceSegment h.numbered p hi _).1,
    fun heq => absurd heq.symm hlength, fun _ s hs hthere => ?_, fun s hs _ => ?_,
    fun other _ hne => ?_, fun s hs hnot => ⟨(hslot s hs).1, hout s hs hnot⟩, fun v => ?_,
    fun j hj => ?_, blocks_spliceSegment g i name _ _ _⟩
  · exact absurd hthere (Nat.not_lt.mpr (mem_slotsFrom.mp hs).1)
  · -- an emptied slot is in no use list
    have hempty := (hslot s ((nodup_part h.numbered p).2 s hs)).2.trans (if_pos hs)
    refine ⟨hempty, fun v hv => ?_⟩
    rw [huses.mem_uses_iff, hempty] at hv
    cases hv
  · refine ⟨p.around other, p.segmentSlots?_other hne, hother other hne, fun s hs => ?_⟩
    obtain ⟨hthere, hnot⟩ := outside_of_mem_around h p hs
    exact hout s hthere hnot
  · have hkept := filter_uses_spliceSegment h.uses i name p.first.length p.part.length
      (vals.filterMap id) v
    rwa [p.drop_take_operands] at hkept
  · rw [op_spliceSegment, if_neg fun hc => hj hc.1.symm]

end

/-- `setSegment` of a declared segment succeeds, and nothing else changes. -/
theorem exists_resegments (h : g.WellFormed) (hi : g.HasOp i) (p : (g.op i).Cut name)
    {vals : List (Option ValueId)} (hvals : ∀ v ∈ vals, g.HasOptValue v) :
    ∃ g' old new, g.setSegment i name vals = .ok g' ∧ g.Resegments g' i name vals old new := by
  have hthere := hasValue_of_mem_filterMap hvals
  have hset := setSegment_of_cut p vals
  by_cases hlength : p.part.length = (vals.filterMap id).length
  · rw [if_pos hlength] at hset
    exact ⟨_, _, _, hset, resegments_assignEach h p hthere hlength⟩
  · rw [if_neg hlength] at hset
    exact ⟨_, _, _, hset, resegments_spliceSegment h p hi hthere hlength⟩

/-- `setSegment` does not find a segment `name` that is not declared. -/
theorem setSegment_of_not_declared (htiled : (g.op i).Tiled (g.op i).operands.length)
    (hname : name ∉ (g.op i).declared) (vals : List (Option ValueId)) :
    g.setSegment i name vals = .error (.misuse (.noSegment (g.op i).name name)) := by
  have hnone : (g.op i).segment? name = none := by
    have hlocate := Op.locate_append name 0 (g.op i).segments [] (htiled.1 ▸ hname)
    rwa [List.append_nil] at hlocate
  simp only [setSegment, hnone]

end Graph

namespace Build

open BuildM

variable {c : Context} {i : OpId}

/-- `setSegment` of a declared segment, for an operation whose kind declares no name twice,
succeeds. The segment then holds `vals`, in the slots that it had if their number is the same; slots
that are replaced hold nothing and are listed nowhere. The other segments have their slots with what
they held, and nothing else changes. A `name` that is not declared is refused, and nothing changes.
-/
theorem setSegment_resegments (h : Reachable c) (hi : c.graph.HasOp i)
    (hdistinct : (c.graph.op i).declared.Nodup) (name : String) {vals : List (Option ValueId)}
    (hvals : ∀ v ∈ vals, c.graph.HasOptValue v) :
    (name ∈ (c.graph.op i).declared → ∃ g' old new,
      setSegment i name vals c = .ok () { c with graph := g' } ∧
        c.graph.Resegments g' i name vals old new) ∧
    (name ∉ (c.graph.op i).declared →
      setSegment i name vals c = .error (.misuse (.noSegment (c.graph.op i).name name)) c) := by
  have htiled := h.sound.tiles i hdistinct
  refine ⟨fun hname => ?_, fun hname => ?_⟩
  · obtain ⟨p⟩ := htiled.cut hdistinct hname
    obtain ⟨g', old, new, hok, hset⟩ := Graph.exists_resegments h.sound.graph hi p hvals
    exact ⟨g', old, new, tryGraph_of_ok hok, hset⟩
  · exact tryGraph_of_error (Graph.setSegment_of_not_declared htiled hname vals)

end Build

/-- A `load` that reads its pointer and its other value from the same argument. -/
def masked : List Request := [
  .createDetached { name := Kinds.func },
  .addBlock ⟨0⟩ 0,
  .addArgument ⟨0⟩ none,
  .addArgument ⟨0⟩ none,
  .moveToEnd (some ⟨0⟩),
  .create { name := Kinds.load, segments := [[some ⟨0⟩], [some ⟨1⟩], [some ⟨0⟩]],
            results := [none] }]

theorem reachable_masked : Reachable (Request.run masked {}) :=
  (Reachable.fresh .collect 0).run (by decide +kernel)

/-- On `masked`, the mask between the other segments grows to two values, one of which the others
read as well. -/
theorem masked_load_resegmented :
    Reachable (Request.run masked {}) ∧
      ((Request.run masked {}).graph.op ⟨1⟩).declared = [Seg.ptr, Seg.mask, Seg.other] ∧
      (∃ g' new,
        Build.setSegment ⟨1⟩ Seg.mask [some ⟨0⟩, none, some ⟨1⟩] (Request.run masked {}) =
          .ok () { Request.run masked {} with graph := g' } ∧
        g'.segment? ⟨1⟩ Seg.mask = some [some ⟨0⟩, some ⟨1⟩] ∧
        (g'.op ⟨1⟩).segmentSlots? Seg.mask = some new ∧ (g'.slot ⟨1⟩).value = none ∧
        (g'.op ⟨1⟩).segmentSlots? Seg.other = some [⟨2⟩] ∧ (g'.slot ⟨2⟩).value = some ⟨0⟩ ∧
        ((g'.value ⟨0⟩).uses.filter fun s => decide (s ∉ new)) = [⟨0⟩, ⟨2⟩]) ∧
      Build.setSegment ⟨1⟩ Seg.value [none] (Request.run masked {}) =
        .error (.misuse (.noSegment Kinds.load Seg.value)) (Request.run masked {}) := by
  obtain ⟨hop, hslot, hdeclared, hname, hvals, hnone, hmask, hother, hheld, huses⟩ :
      (Request.run masked {}).graph.HasOp ⟨1⟩ ∧
        (Request.run masked {}).graph.HasSlot ⟨1⟩ ∧
        ((Request.run masked {}).graph.op ⟨1⟩).declared = [Seg.ptr, Seg.mask, Seg.other] ∧
        ((Request.run masked {}).graph.op ⟨1⟩).name = Kinds.load ∧
        (∀ v ∈ [some ⟨0⟩, none, some ⟨1⟩], (Request.run masked {}).graph.HasOptValue v) ∧
        (∀ v ∈ [none], (Request.run masked {}).graph.HasOptValue v) ∧
        ((Request.run masked {}).graph.op ⟨1⟩).segmentSlots? Seg.mask = some [⟨1⟩] ∧
        ((Request.run masked {}).graph.op ⟨1⟩).segmentSlots? Seg.other = some [⟨2⟩] ∧
        ((Request.run masked {}).graph.slot ⟨2⟩).value = some ⟨0⟩ ∧
        (((Request.run masked {}).graph.value ⟨0⟩).uses.filter fun s =>
          decide (s ∉ [(⟨1⟩ : SlotId)])) = [⟨0⟩, ⟨2⟩] := by decide +kernel
  have hdistinct : ((Request.run masked {}).graph.op ⟨1⟩).declared.Nodup := by
    rw [hdeclared]
    decide
  obtain ⟨g', old, new, hok, hset⟩ := (Build.setSegment_resegments reachable_masked hop hdistinct
    Seg.mask hvals).1 (by rw [hdeclared]; decide)
  obtain rfl : [⟨1⟩] = old := Option.some.inj (hmask.symm.trans hset.before)
  obtain ⟨slots, hold, hnew, hkept⟩ := hset.others Seg.other (by rw [hdeclared]; decide) (by decide)
  obtain rfl : [⟨2⟩] = slots := Option.some.inj (hother.symm.trans hold)
  have hfresh : ⟨1⟩ ∉ new := fun hmem => hset.fresh (by decide) ⟨1⟩ hmem hslot
  refine ⟨reachable_masked, hdeclared, ⟨g', new, hok, hset.values, hset.after,
    (hset.gone ⟨1⟩ List.mem_cons_self hfresh).1, hnew, ?_, ?_⟩, ?_⟩
  · rw [hkept ⟨2⟩ List.mem_cons_self, hheld]
  · exact (hset.uses ⟨0⟩).trans huses
  · have hrefused := (Build.setSegment_resegments reachable_masked hop hdistinct Seg.value hnone).2
      (by rw [hdeclared]; decide)
    rwa [hname] at hrefused

end Multistage
