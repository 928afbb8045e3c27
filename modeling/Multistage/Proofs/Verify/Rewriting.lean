import Multistage.Proofs.Build.Builder
import Multistage.Proofs.Verify.Insertion

/-!
# Changing a verified operation

Giving a current slot another value that its operation sees, replacing the values of a segment,
redirecting the uses of a value to one that is visible wherever it was, adding an empty block and
erasing an operation that nothing reads all keep a verified operation verified.
-/

namespace Multistage

/-- Taking out another entry `x` leaves the last one last. -/
theorem getLast?_erase {α : Type} [DecidableEq α] {l : List α} {x last : α}
    (hlast : l.getLast? = some last) (hne : last ≠ x) : (l.erase x).getLast? = some last := by
  by_cases hx : x ∈ l
  · obtain ⟨before, after, -, hl, herase⟩ := List.exists_erase_eq hx
    rw [hl, List.getLast?_append] at hlast
    rw [herase, List.getLast?_append]
    cases after with
    | nil => exact absurd (Option.some.inj hlast).symm hne
    | cons y rest =>
      rw [List.getLast?_cons_cons] at hlast
      exact hlast
  · rw [List.erase_of_not_mem hx]
    exact hlast

/-- In a list without repetitions an entry `x` is outside a `part` exactly if it is not in it. -/
theorem mem_outside_iff {α : Type} {before part after : List α} {x : α}
    (hnodup : (before ++ (part ++ after)).Nodup) (hx : x ∈ before ++ (part ++ after)) :
    x ∈ before ∨ x ∈ after ↔ x ∉ part := by
  obtain ⟨-, hrest, hbefore⟩ := List.nodup_append.mp hnodup
  obtain ⟨-, -, hafter⟩ := List.nodup_append.mp hrest
  constructor
  · rintro (h | h) hpart
    · exact hbefore x h x (List.mem_append_left _ hpart) rfl
    · exact hafter x hpart x h rfl
  · intro hpart
    rcases List.mem_append.mp hx with h | h
    · exact Or.inl h
    · exact Or.inr ((List.mem_append.mp h).resolve_left hpart)

namespace Graph

variable {g g' : Graph}

/-! ## Changes that leave everything in its place -/

/-- Operations, blocks and values are in `g'` where they were in `g`; operands and attributes may
differ. -/
structure Standing (g g' : Graph) : Prop where
  erased : ∀ i, (g'.op i).erased = (g.op i).erased
  block : ∀ i, (g'.op i).block = (g.op i).block
  name : ∀ i, (g'.op i).name = (g.op i).name
  kind : ∀ i, (g'.op i).kind = (g.op i).kind
  results : ∀ i, (g'.op i).results = (g.op i).results
  regions : ∀ i, (g'.op i).regions = (g.op i).regions
  blocks : ∀ b, g'.block b = g.block b
  source : ∀ v, (g'.value v).source = (g.value v).source

namespace Standing

theorem refl (g : Graph) : Standing g g :=
  ⟨fun _ => rfl, fun _ => rfl, fun _ => rfl, fun _ => rfl, fun _ => rfl, fun _ => rfl, fun _ => rfl,
    fun _ => rfl⟩

theorem trans {g'' : Graph} (h : Standing g g') (h' : Standing g' g'') : Standing g g'' where
  erased i := (h'.erased i).trans (h.erased i)
  block i := (h'.block i).trans (h.block i)
  name i := (h'.name i).trans (h.name i)
  kind i := (h'.kind i).trans (h.kind i)
  results i := (h'.results i).trans (h.results i)
  regions i := (h'.regions i).trans (h.regions i)
  blocks b := (h'.blocks b).trans (h.blocks b)
  source v := (h'.source v).trans (h.source v)

theorem assign (g : Graph) (s : SlotId) (v : Option ValueId) : Standing g (g.assign s v) where
  erased _ := by rw [op_assign]
  block _ := by rw [op_assign]
  name _ := by rw [op_assign]
  kind _ := by rw [op_assign]
  results _ := by rw [op_assign]
  regions _ := by rw [op_assign]
  blocks _ := block_assign _ _ _ _
  source w := source_assign g s v w

theorem assignAll (g : Graph) (slots : List SlotId) (v : Option ValueId) :
    Standing g (g.assignAll slots v) := by
  induction slots generalizing g with
  | nil => exact refl g
  | cons s rest ih => exact (assign g s v).trans (ih (g.assign s v))

theorem replaceUses (g : Graph) (v : ValueId) (new : Option ValueId) :
    Standing g (g.replaceUses v new) := by
  unfold Graph.replaceUses replaceUsesIf
  split
  · exact refl g
  · exact assignAll _ _ _

theorem replaceAll (g : Graph) (pairs : List (ValueId × Option ValueId)) :
    Standing g (Build.replaceAll g pairs) := by
  induction pairs generalizing g with
  | nil => exact refl g
  | cons p rest ih => exact (replaceUses g p.1 p.2).trans (ih (g.replaceUses p.1 p.2))

theorem spliceSegment (g : Graph) (i : OpId) (name : String) (start size : Nat)
    (vals : List ValueId) : Standing g (g.spliceSegment i name start size vals) where
  erased j := by rw [op_spliceSegment]; split <;> rfl
  block j := by rw [op_spliceSegment]; split <;> rfl
  name j := by rw [op_spliceSegment]; split <;> rfl
  kind j := by rw [op_spliceSegment]; split <;> rfl
  results j := by rw [op_spliceSegment]; split <;> rfl
  regions j := by rw [op_spliceSegment]; split <;> rfl
  blocks b := by rw [Graph.block, blocks_spliceSegment, ← Graph.block]
  source w := source_spliceSegment g i name start size vals w

variable (h : Standing g g')

include h

theorem parent (i : OpId) : g'.parent i = g.parent i := by
  unfold Graph.parent blockParent
  rw [h.block]
  exact Option.bind_congr fun b _ => by rw [h.blocks]

theorem inside_iff {root i : OpId} : g'.Inside root i ↔ g.Inside root i :=
  Inside.congr (S := fun _ => True) (fun x _ => h.parent x) (fun _ _ _ _ => trivial) trivial

theorem encloses_iff {b : BlockId} {a i : OpId} : g'.Encloses b a i ↔ g.Encloses b a i :=
  Encloses.congr (S := fun _ => True) (fun x _ => h.block x) (fun x _ => h.parent x)
    (fun _ _ _ _ => trivial) trivial

theorem visible_iff {v : ValueId} {i : OpId} : g'.Visible v i ↔ g.Visible v i := by
  unfold Visible
  simp only [h.source, h.blocks, h.erased, h.block, h.encloses_iff]

theorem ends_iff {i : OpId} {b : BlockId} : g'.Ends i b ↔ g.Ends i b := by
  unfold Ends
  simp only [h.kind, h.blocks, h.name]

end Standing

namespace Verified

variable {root : OpId} {draft : List BlockId}

/-! ## Slots -/

theorem assign (hverified : g.Verified root draft) (h : g.WellFormed) {s : SlotId} {v : ValueId}
    (hs : g.Current s) (hv : g.Inside root (g.slot s).owner → g.Visible v (g.slot s).owner) :
    (g.assign s (some v)).Verified root draft := by
  have hstanding := Standing.assign g s (some v)
  have hslot := (h.numbered.of_mem hs.2).1
  have hcurrent : ∀ t, (g.assign s (some v)).Current t ↔ g.Current t := by
    intro t
    rw [Current, owner_assign, op_assign, Current]
  intro j hj
  rw [hstanding.inside_iff] at hj
  have hsane := hverified j hj
  refine ⟨?_, fun t ht => ?_, fun w hw t ht => ?_, fun b hb hdraft => ?_⟩
  · rw [hstanding.erased]
    exact hsane.live
  · rw [op_assign] at ht
    by_cases hts : t = s
    · -- the slot is an operand of `j`, so `j` is its owner and sees the new value
      subst hts
      have howner := (h.numbered.of_mem ht).2.1
      refine ⟨v, held_assign_self g hslot _, hstanding.visible_iff.mpr ?_⟩
      rw [howner] at hv
      exact hv hj
    · obtain ⟨w, hheld, hvisible⟩ := hsane.reads t ht
      refine ⟨w, ?_, hstanding.visible_iff.mpr hvisible⟩
      rw [held_assign_of_ne g (Ne.symm hts)]
      exact hheld
  · rw [op_assign] at hw
    rw [hcurrent]
    by_cases hts : t = s
    · exact hts ▸ hs
    · rw [held_assign_of_ne g (Ne.symm hts)] at ht
      exact hsane.uses w hw t ht
  · rw [blockParent, hstanding.blocks] at hb
    exact hstanding.ends_iff.mpr (hsane.ends b hb hdraft)

theorem assignAll (hverified : g.Verified root draft) (h : g.WellFormed) {slots : List SlotId}
    {v : ValueId} (hv : g.HasValue v) (hslots : ∀ s ∈ slots, g.Current s ∧
      (g.Inside root (g.slot s).owner → g.Visible v (g.slot s).owner)) :
    (g.assignAll slots (some v)).Verified root draft := by
  induction slots generalizing g with
  | nil => exact hverified
  | cons s rest ih =>
    obtain ⟨hs, hvisible⟩ := hslots s List.mem_cons_self
    have hstanding := Standing.assign g s (some v)
    have hwithin := within_assign g s (some v)
    refine ih (hverified.assign h hs hvisible)
      (h.assign (h.numbered.of_mem hs.2).1 hv.opt) (hwithin.hasValue hv) fun t ht => ?_
    rw [Current, owner_assign, op_assign, hstanding.inside_iff, hstanding.visible_iff]
    exact hslots t (List.mem_cons_of_mem s ht)

theorem assignEach (hverified : g.Verified root draft) (h : g.WellFormed) {i : OpId}
    (hlive : (g.op i).erased = false) {slots : List SlotId} {vals : List ValueId}
    (hslots : ∀ s ∈ slots, s ∈ (g.op i).operands)
    (hvals : ∀ v ∈ vals, g.HasValue v ∧ g.Visible v i) :
    (g.assignEach slots vals).Verified root draft := by
  -- one assignment leaves the operands and what is visible alone, so the premises carry over
  induction slots generalizing g vals with
  | nil => exact hverified
  | cons s rest ih =>
    cases vals with
    | nil => exact hverified
    | cons v vals =>
      have hstanding := Standing.assign g s (some v)
      have hwithin := within_assign g s (some v)
      obtain ⟨hthere, hvisible⟩ := hvals v List.mem_cons_self
      have hmem := hslots s List.mem_cons_self
      obtain ⟨hslot, howner, -⟩ := h.numbered.of_mem hmem
      have hcurrent : g.Current s := by
        rw [Current, howner]
        exact ⟨hlive, hmem⟩
      have hfirst : (g.assign s (some v)).Verified root draft := by
        refine hverified.assign h hcurrent fun _ => ?_
        rw [howner]
        exact hvisible
      refine ih hfirst (h.assign hslot hthere.opt) ?_ (fun t ht => ?_) fun w hw => ?_
      · rw [op_assign]
        exact hlive
      · rw [op_assign]
        exact hslots t (List.mem_cons_of_mem s ht)
      · obtain ⟨hw, hwi⟩ := hvals w (List.mem_cons_of_mem v hw)
        exact ⟨hwithin.hasValue hw, hstanding.visible_iff.mpr hwi⟩

end Verified

/-! ## Segments -/

/-- The `slots` that are let go of hold nothing, and all others hold what they held. -/
theorem held_assignAll_none (g : Graph) (slots : List SlotId) (t : SlotId) :
    ((g.assignAll slots none).slot t).value = if t ∈ slots then none else (g.slot t).value := by
  induction slots generalizing g with
  | nil => rfl
  | cons s rest ih =>
    refine (ih (g.assign s none)).trans ?_
    by_cases hts : t = s
    · subst hts
      rw [if_pos List.mem_cons_self]
      -- emptying a slot that is not there does nothing
      by_cases ht : g.HasSlot t
      · rw [held_assign_self g ht, ite_self]
      · rw [assign_none_of_not_hasSlot ht, slot_of_not_hasSlot ht]
        exact ite_self _
    · rw [held_assign_of_ne g (Ne.symm hts)]
      simp only [List.mem_cons, hts, false_or]

theorem held_assignAll (g : Graph) {slots : List SlotId} (hslots : ∀ s ∈ slots, g.HasSlot s)
    (v : Option ValueId) (t : SlotId) :
    ((g.assignAll slots v).slot t).value = if t ∈ slots then v else (g.slot t).value := by
  induction slots generalizing g with
  | nil => rfl
  | cons s rest ih =>
    have hrest : ∀ u ∈ rest, (g.assign s v).HasSlot u := fun u hu =>
      (within_assign g s v).hasSlot (hslots u (List.mem_cons_of_mem _ hu))
    refine (ih (g.assign s v) hrest).trans ?_
    by_cases ht : t = s
    · subst ht
      rw [held_assign_self g (hslots t List.mem_cons_self), ite_self, if_pos List.mem_cons_self]
    · rw [held_assign_of_ne g (Ne.symm ht)]
      simp only [List.mem_cons, ht, false_or]

section

variable (i : OpId) (name : String) (start size : Nat) (vals : List ValueId)

theorem slot_spliceSegment_of_hasSlot {s : SlotId} (hs : g.HasSlot s) :
    ((g.spliceSegment i name start size vals).slot s).owner = (g.slot s).owner ∧
      ((g.spliceSegment i name start size vals).slot s).value =
        if s ∈ ((g.op i).operands.drop start).take size then none else (g.slot s).value := by
  have hs' := (within_assignAll g (((g.op i).operands.drop start).take size) none).hasSlot hs
  rw [spliceSegment_eq, slot_modifyOp, owner_renumberFrom, value_slot_renumberFrom,
    slot_addSlots_of_hasSlot _ _ _ _ hs', owner_assignAll, held_assignAll_none]
  exact ⟨rfl, rfl⟩

theorem slot_spliceSegment_fresh {n : Nat} {v : ValueId} (hn : vals[n]? = some v) :
    ((g.spliceSegment i name start size vals).slot ⟨g.slots.size + n⟩).owner = i ∧
      ((g.spliceSegment i name start size vals).slot ⟨g.slots.size + n⟩).value = some v := by
  have hget : (vals.map some)[n]? = some (some v) := by
    rw [List.getElem?_map, hn]
    rfl
  have hrow := slot_addSlots_of_getElem?
    (g.assignAll (((g.op i).operands.drop start).take size) none) i start (vals.map some) hget
  rw [size_slots_assignAll] at hrow
  rw [spliceSegment_eq, slot_modifyOp, owner_renumberFrom, value_slot_renumberFrom, hrow]
  exact ⟨rfl, rfl⟩

theorem operands_spliceSegment_self (hi : g.HasOp i) :
    ((g.spliceSegment i name start size vals).op i).operands =
      g.spliced i start size vals.length := by
  rw [op_spliceSegment, if_pos ⟨rfl, hi⟩]

theorem operands_spliceSegment_of_ne {j : OpId} (hj : j ≠ i) :
    ((g.spliceSegment i name start size vals).op j).operands = (g.op j).operands := by
  rw [op_spliceSegment, if_neg fun hc => hj hc.1.symm]

variable (h : g.OperandsNumbered)

include h

/-- The operands that `spliced` keeps are those that are not let go of. -/
theorem mem_spliced_iff {s : SlotId} (hs : s ∈ (g.op i).operands) :
    s ∈ g.spliced i start size vals.length ↔ s ∉ ((g.op i).operands.drop start).take size := by
  have hold : s ∉ slotsFrom g.slots.size vals.length := fun hc =>
    absurd (h.of_mem hs).1 (Nat.not_lt.mpr (mem_slotsFrom.mp hc).1)
  have hnodup := h.nodup i
  -- an old slot is not a fresh one, so it comes before the stretch or after it
  rw [spliced, List.mem_append, List.mem_append, or_iff_left hold, ← List.drop_drop]
  have hsplit : (g.op i).operands.take start ++ (((g.op i).operands.drop start).take size ++
      ((g.op i).operands.drop start).drop size) = (g.op i).operands := by
    rw [List.take_append_drop, List.take_append_drop]
  rw [← hsplit] at hs hnodup
  exact mem_outside_iff hnodup hs

/-- An operand after `spliceSegment` is one from before, with the value that it held, or a fresh
one. -/
theorem mem_operands_spliceSegment (hi : g.HasOp i) {j : OpId} {s : SlotId}
    (hs : s ∈ ((g.spliceSegment i name start size vals).op j).operands) :
    s ∈ (g.op j).operands ∧
        ((g.spliceSegment i name start size vals).slot s).value = (g.slot s).value ∨
      j = i ∧ ∃ v ∈ vals, ((g.spliceSegment i name start size vals).slot s).value = some v := by
  by_cases hji : j = i
  · subst hji
    rw [operands_spliceSegment_self j name start size vals hi] at hs
    rcases OperandsNumbered.mem_spliced hs with hold | ⟨n, hn, rfl⟩
    · have hkept := (mem_spliced_iff j start size vals h hold).mp hs
      rw [(slot_spliceSegment_of_hasSlot j name start size vals (h.of_mem hold).1).2, if_neg hkept]
      exact Or.inl ⟨hold, rfl⟩
    · have hget := List.getElem?_eq_getElem hn
      exact Or.inr ⟨rfl, vals[n], List.getElem_mem hn,
        (slot_spliceSegment_fresh j name start size vals hget).2⟩
  · -- the slots that are let go of belong to another operation
    rw [operands_spliceSegment_of_ne i name start size vals hji] at hs
    obtain ⟨hslot, howner, -⟩ := h.of_mem hs
    have hout : s ∉ ((g.op i).operands.drop start).take size := by
      intro hc
      have hmem := List.mem_of_mem_drop (List.mem_of_mem_take hc)
      exact hji (howner.symm.trans (h.of_mem hmem).2.1)
    rw [(slot_spliceSegment_of_hasSlot i name start size vals hslot).2, if_neg hout]
    exact Or.inl ⟨hs, rfl⟩

/-- A slot `s` that holds `v` after `spliceSegment` held it before, and is `Current` if it was, or
is a fresh and current one. -/
theorem current_spliceSegment (hi : g.HasOp i) (hlive : (g.op i).erased = false) {s : SlotId}
    {v : ValueId} (hs : ((g.spliceSegment i name start size vals).slot s).value = some v) :
    (g.slot s).value = some v ∧
        (g.Current s → (g.spliceSegment i name start size vals).Current s) ∨
      (g.spliceSegment i name start size vals).Current s := by
  have hstanding := Standing.spliceSegment g i name start size vals
  unfold Current
  rw [hstanding.erased]
  by_cases hold : g.HasSlot s
  · obtain ⟨howner, hheld⟩ := slot_spliceSegment_of_hasSlot i name start size vals hold
    rw [howner]
    rw [hheld] at hs
    split at hs
    · cases hs
    · next hout =>
      refine Or.inl ⟨hs, fun hcurrent => ⟨hcurrent.1, ?_⟩⟩
      have hmem := hcurrent.2
      by_cases hoi : (g.slot s).owner = i
      · rw [hoi] at hmem ⊢
        rw [operands_spliceSegment_self i name start size vals hi]
        exact (mem_spliced_iff i start size vals h hmem).mpr hout
      · rw [operands_spliceSegment_of_ne i name start size vals hoi]
        exact hmem
  · -- only a fresh slot holds a value without having been there
    have hlt : s.index < g.slots.size + vals.length := by
      have hthere : (g.spliceSegment i name start size vals).HasSlot s :=
        hasSlot_of_value_eq_some hs
      rw [HasSlot, spliceSegment_eq] at hthere
      simpa [modifyOp, size_slots_renumberFrom, size_slots_addSlots] using hthere
    obtain ⟨n, rfl⟩ := exists_slot_of_le (Nat.not_lt.mp hold)
    have hget := List.getElem?_eq_getElem (Nat.lt_of_add_lt_add_left hlt)
    rw [(slot_spliceSegment_fresh i name start size vals hget).1,
      operands_spliceSegment_self i name start size vals hi, spliced, List.mem_append,
      List.mem_append]
    exact Or.inr ⟨hlive, Or.inl (Or.inr (mem_slotsFrom.mpr ⟨Nat.le_add_right _ _, hlt⟩))⟩

end

namespace Verified

variable {root : OpId} {draft : List BlockId}

theorem spliceSegment (hverified : g.Verified root draft) (h : g.WellFormed) {i : OpId}
    (hlive : (g.op i).erased = false) (hi : g.HasOp i) (name : String) (start size : Nat)
    {vals : List ValueId} (hvals : ∀ v ∈ vals, g.Visible v i) :
    (g.spliceSegment i name start size vals).Verified root draft := by
  have hstanding := Standing.spliceSegment g i name start size vals
  intro j hj
  rw [hstanding.inside_iff] at hj
  have hsane := hverified j hj
  refine ⟨?_, fun s hs => ?_, fun v hv s hs => ?_, fun b hb hdraft => ?_⟩
  · rw [hstanding.erased]
    exact hsane.live
  · simp only [hstanding.visible_iff]
    rcases mem_operands_spliceSegment i name start size vals h.numbered hi hs with
      ⟨hold, hheld⟩ | ⟨rfl, v, hv, hheld⟩
    · rw [hheld]
      exact hsane.reads s hold
    · exact ⟨v, hheld, hvals v hv⟩
  · rw [hstanding.results] at hv
    rcases current_spliceSegment i name start size vals h.numbered hi hlive hs with
      ⟨hold, hkept⟩ | hcurrent
    · exact hkept (hsane.uses v hv s hold)
    · exact hcurrent
  · rw [blockParent, hstanding.blocks] at hb
    exact hstanding.ends_iff.mpr (hsane.ends b hb hdraft)

/-- `setSegment` may give a segment other values that `i` sees. -/
theorem setSegment (hverified : g.Verified root draft) (h : g.WellFormed) {i : OpId}
    (hlive : (g.op i).erased = false) (hi : g.HasOp i) {name : String}
    {vals : List (Option ValueId)} (hvals : ∀ v ∈ vals.filterMap id, g.HasValue v ∧ g.Visible v i)
    (hok : g.setSegment i name vals = .ok g') : g'.Verified root draft := by
  obtain ⟨start, size, -, ⟨-, -, rfl⟩ | ⟨-, rfl⟩⟩ := setSegment_ok hok
  · refine hverified.assignEach h hlive (fun s hs => ?_) hvals
    exact List.mem_of_mem_drop (List.mem_of_mem_take hs)
  · exact hverified.spliceSegment h hlive hi name start size fun v hv => (hvals v hv).2

/-! ## Redirecting uses -/

/-- `replaceUses` may redirect `v` to a value `new` that is visible wherever it is. -/
theorem replaceUses (hverified : g.Verified root draft) (h : g.WellFormed) {i : OpId}
    {v new : ValueId} (hi : g.Inside root i) (hv : v ∈ (g.op i).results) (hnew : g.HasValue new)
    (hvisible : ∀ j, g.Visible v j → g.Visible new j) :
    (g.replaceUses v (some new)).Verified root draft := by
  unfold Graph.replaceUses replaceUsesIf
  split
  · exact hverified
  · -- a reader inside the operation sees the old value, and so the new one
    refine hverified.assignAll h hnew fun s hs => ?_
    have hheld := h.uses.mem_uses_iff.mp (List.mem_of_mem_filter hs)
    have hcurrent := (hverified i hi).uses v hv s hheld
    exact ⟨hcurrent, fun hinside => hvisible _ ((hverified _ hinside).visible hcurrent.2 hheld)⟩

theorem replaceAll (hverified : g.Verified root draft) (h : g.WellFormed) {i : OpId}
    (hi : g.Inside root i) {pairs : List (ValueId × Option ValueId)}
    (hpairs : ∀ p ∈ pairs, p.1 ∈ (g.op i).results ∧ ∃ new, p.2 = some new ∧ g.HasValue new ∧
      ∀ j, g.Visible p.1 j → g.Visible new j) :
    (Build.replaceAll g pairs).Verified root draft := by
  induction pairs generalizing g with
  | nil => exact hverified
  | cons p rest ih =>
    obtain ⟨v, w⟩ := p
    obtain ⟨hv, new, rfl, hnew, hvisible⟩ := hpairs _ List.mem_cons_self
    have hstanding := Standing.replaceUses g v (some new)
    have hedits : Edits {} g (g.replaceUses v (some new)) :=
      edits_replaceUsesIf h.uses v hnew.opt _
    refine ih (hverified.replaceUses h hi hv hnew hvisible) (h.edits hedits)
      (hstanding.inside_iff.mpr hi) fun q hq => ?_
    obtain ⟨hq, u, hu, huthere, huvisible⟩ := hpairs q (List.mem_cons_of_mem _ hq)
    rw [hstanding.results]
    refine ⟨hq, u, hu, (Edits.within hedits).hasValue huthere, fun j => ?_⟩
    rw [hstanding.visible_iff, hstanding.visible_iff]
    exact huvisible j

end Verified

/-! ## Blocks -/

section

variable {i : OpId} {r : Nat}

/-- An operation `j` with a new block is else as it was. -/
theorem op_addBlock_fields (g : Graph) (i : OpId) (r : Nat) (j : OpId) :
    ((g.addBlock ⟨i, r⟩).1.op j).block = (g.op j).block ∧
      ((g.addBlock ⟨i, r⟩).1.op j).erased = (g.op j).erased ∧
      ((g.addBlock ⟨i, r⟩).1.op j).operands = (g.op j).operands ∧
      ((g.addBlock ⟨i, r⟩).1.op j).results = (g.op j).results ∧
      ((g.addBlock ⟨i, r⟩).1.op j).kind = (g.op j).kind ∧
      ((g.addBlock ⟨i, r⟩).1.op j).name = (g.op j).name := by
  rw [Owned.op_addBlock]
  split <;> exact ⟨rfl, rfl, rfl, rfl, rfl, rfl⟩

theorem block_addBlock_of_ne (g : Graph) (i : OpId) (r : Nat) {b : BlockId}
    (hb : b ≠ ⟨g.blocks.size⟩) : (g.addBlock ⟨i, r⟩).1.block b = g.block b := by
  rw [Owned.block_addBlock, if_neg hb]

theorem HasBlock.ne_next {b : BlockId} (hb : g.HasBlock b) : b ≠ ⟨g.blocks.size⟩ := by
  rintro rfl
  exact Nat.lt_irrefl _ hb

theorem parent_addBlock (h : g.WellFormed) (i : OpId) (r : Nat) (j : OpId) :
    (g.addBlock ⟨i, r⟩).1.parent j = g.parent j := by
  unfold parent blockParent
  rw [(op_addBlock_fields g i r j).1]
  refine Option.bind_congr fun b hb => ?_
  rw [block_addBlock_of_ne g i r (h.members.hasBlock hb).ne_next]

theorem encloses_addBlock (h : g.WellFormed) (i : OpId) (r : Nat) {b : BlockId} {a j : OpId} :
    (g.addBlock ⟨i, r⟩).1.Encloses b a j ↔ g.Encloses b a j :=
  Encloses.congr (S := fun _ => True) (fun x _ => (op_addBlock_fields g i r x).1)
    (fun x _ => parent_addBlock h i r x) (fun _ _ _ _ => trivial) trivial

theorem inside_addBlock (h : g.WellFormed) (i : OpId) (r : Nat) {root j : OpId} :
    (g.addBlock ⟨i, r⟩).1.Inside root j ↔ g.Inside root j :=
  Inside.congr (S := fun _ => True) (fun x _ => parent_addBlock h i r x) (fun _ _ _ _ => trivial)
    trivial

theorem visible_addBlock (h : g.WellFormed) (i : OpId) (r : Nat) {v : ValueId} {j : OpId}
    (hv : g.Visible v j) : (g.addBlock ⟨i, r⟩).1.Visible v j := by
  refine hv.transfer rfl (fun b hb => ?_) fun d n _ => ?_
  · obtain ⟨home, hhome⟩ := Option.isSome_iff_exists.mp hb
    rw [block_addBlock_of_ne g i r (hasBlock_of_home_eq_some hhome).ne_next]
    exact hb
  · obtain ⟨hblock, herased, -⟩ := op_addBlock_fields g i r d
    refine ⟨herased, hblock, fun b a ha => ?_⟩
    have hold := (encloses_addBlock h i r).mp ha
    rw [block_addBlock_of_ne g i r (h.members.hasBlock hold.block).ne_next]
    exact ⟨hold, id⟩

/-- The new block of `addBlock` is in the `draft` until it ends as it has to. -/
theorem Verified.addBlock {root : OpId} {draft : List BlockId} (hverified : g.Verified root draft)
    (h : g.WellFormed) (i : OpId) (r : Nat) :
    (g.addBlock ⟨i, r⟩).1.Verified root (⟨g.blocks.size⟩ :: draft) := by
  intro j hj
  have hsane := hverified j ((inside_addBlock h i r).mp hj)
  obtain ⟨-, herased, hoperands, hresults, hkind, -⟩ := op_addBlock_fields g i r j
  refine ⟨?_, fun s hs => ?_, fun v hv s hs => ?_, fun b hb hdraft => ?_⟩
  · rw [herased]
    exact hsane.live
  · rw [hoperands] at hs
    obtain ⟨v, hheld, hvisible⟩ := hsane.reads s hs
    exact ⟨v, hheld, visible_addBlock h i r hvisible⟩
  · rw [hresults] at hv
    obtain ⟨hlive, hmem⟩ := hsane.uses v hv s hs
    obtain ⟨-, herased, hoperands, -⟩ := op_addBlock_fields g i r (g.slot s).owner
    exact ⟨herased.trans hlive, hoperands ▸ hmem⟩
  · -- outside the new draft there are old blocks only
    rw [List.mem_cons, not_or] at hdraft
    rw [blockParent, block_addBlock_of_ne g i r hdraft.1] at hb
    intro t ht
    rw [hkind] at ht
    obtain ⟨last, hlast, hname⟩ := hsane.ends b hb hdraft.2 t ht
    refine ⟨last, ?_, (op_addBlock_fields g i r last).2.2.2.2.2.trans hname⟩
    rw [block_addBlock_of_ne g i r hdraft.1]
    exact hlast

end

/-! ## Erasing -/

/-- The graph without the operation `i`, which has no regions. -/
def erasedLeaf (g : Graph) (i : OpId) : Graph := ((g.dropOperands i).detach i).mark i

theorem preorder_leaf {i : OpId} (hi : g.HasOp i) (hleaf : g.children i = []) :
    g.preorder i = [i] := by
  have hpos : 0 < g.ops.size := Nat.zero_lt_of_lt hi
  rw [preorder, ← Nat.succ_pred_eq_of_pos hpos]
  show i :: (g.children i).flatMap _ = [i]
  rw [hleaf]
  rfl

/-- `erase` succeeds on a live operation without uses, and one that has no regions is erased alone.
-/
theorem erase_ok (h : g.WellFormed) {i : OpId} (hi : g.HasOp i) (hregions : (g.op i).regions = [])
    (hok : g.erase i = .ok g') :
    (∀ v ∈ (g.op i).results, ∀ s, (g.slot s).value ≠ some v) ∧ g' = g.erasedLeaf i := by
  have htree : g.preorder i = [i] := preorder_leaf hi (by rw [children, hregions]; rfl)
  unfold Graph.erase at hok
  split at hok
  · cases hok
  · split at hok
    · cases hok
    · next hunused =>
      rw [htree] at hok
      cases hok
      refine ⟨fun v hv s hs => ?_, rfl⟩
      have hnone := List.find?_eq_none.mp hunused v hv
      rw [hasUses, Bool.not_eq_true', Bool.not_eq_false, List.isEmpty_iff] at hnone
      have hlisted := h.uses.mem_uses_iff.mpr hs
      rw [hnone] at hlisted
      cases hlisted

/-- An operation `i` that nothing reads and has nothing inside can be erased, once. -/
theorem erase_leaf (h : g.WellFormed) {i : OpId} (hi : g.HasOp i) (hlive : (g.op i).erased = false)
    (hleaf : g.children i = []) (hunused : ∀ v ∈ (g.op i).results, ∀ s, (g.slot s).value ≠ some v) :
    g.erase i = .ok (g.erasedLeaf i) := by
  have hnone : (g.op i).results.find? g.hasUses = none := by
    refine List.find?_eq_none.mpr fun v hv => ?_
    rw [hasUses, Bool.not_eq_true', Bool.not_eq_false, List.isEmpty_iff]
    exact List.eq_nil_iff_forall_not_mem.mpr fun s hs => hunused v hv s (h.uses.mem_uses_iff.mp hs)
  rw [Graph.erase, if_neg (by rw [hlive]; exact Bool.false_ne_true), hnone, preorder_leaf hi hleaf]
  rfl

section

variable (g : Graph) (i : OpId)

theorem op_erasedLeaf_of_ne {j : OpId} (hj : j ≠ i) : (g.erasedLeaf i).op j = g.op j := by
  rw [erasedLeaf, mark, op_modifyOp, if_neg fun h => hj h.1.symm, op_detach,
    if_neg fun h => hj h.symm, op, dropOperands, ops_assignAll, ← op]

theorem block_erasedLeaf_self : ((g.erasedLeaf i).op i).block = none := by
  rw [erasedLeaf, mark, op_modifyOp, op_detach, if_pos rfl]
  split <;> rfl

theorem block_erasedLeaf (b : BlockId) :
    (g.erasedLeaf i).block b = if (g.op i).block = some b then
      { g.block b with ops := (g.block b).ops.erase i } else g.block b := by
  rw [erasedLeaf, mark, block_modifyOp, block_detach, op, block, dropOperands, ops_assignAll,
    blocks_assignAll, ← op, ← block]

theorem home_erasedLeaf (b : BlockId) : ((g.erasedLeaf i).block b).home = (g.block b).home := by
  rw [block_erasedLeaf]
  split <;> rfl

theorem source_erasedLeaf (v : ValueId) :
    ((g.erasedLeaf i).value v).source = (g.value v).source := by
  rw [erasedLeaf, mark, value_modifyOp, value_detach, dropOperands, source_assignAll]

theorem slot_erasedLeaf (s : SlotId) :
    ((g.erasedLeaf i).slot s).owner = (g.slot s).owner ∧
      ((g.erasedLeaf i).slot s).value =
        if s ∈ (g.op i).operands then none else (g.slot s).value := by
  rw [erasedLeaf, mark, slot_modifyOp, slot_detach, dropOperands, owner_assignAll,
    held_assignAll_none]
  exact ⟨rfl, rfl⟩

end

theorem blockParent_erasedLeaf (g : Graph) (i : OpId) (b : BlockId) :
    (g.erasedLeaf i).blockParent b = g.blockParent b := by
  rw [blockParent, home_erasedLeaf, ← blockParent]

theorem parent_erasedLeaf_of_ne (g : Graph) {i x : OpId} (hx : x ≠ i) :
    (g.erasedLeaf i).parent x = g.parent x := by
  rw [parent, op_erasedLeaf_of_ne g i hx]
  exact Option.bind_congr fun b _ => blockParent_erasedLeaf g i b

section

variable {i : OpId} (h : g.WellFormed) (hregions : (g.op i).regions = [])

include h hregions

/-- Nothing lies inside an operation `i` without regions. -/
theorem parent_ne_leaf {x p : OpId} (hp : g.parent x = some p) : p ≠ i := by
  rintro rfl
  obtain ⟨b, -, hb⟩ := Option.bind_eq_some_iff.mp hp
  obtain ⟨⟨j, r⟩, hr, rfl⟩ := Option.map_eq_some_iff.mp hb
  have hmem := h.owned.mem_regions_iff.mpr ⟨r, hr⟩
  rw [hregions] at hmem
  cases hmem

theorem inside_erasedLeaf {root j : OpId} (hj : j ≠ i) :
    (g.erasedLeaf i).Inside root j ↔ g.Inside root j :=
  Inside.congr (S := (· ≠ i)) (fun _ hx => parent_erasedLeaf_of_ne g hx)
    (fun _ _ _ hp => parent_ne_leaf h hregions hp) hj

theorem encloses_erasedLeaf {b : BlockId} {a j : OpId} (hj : j ≠ i) :
    (g.erasedLeaf i).Encloses b a j ↔ g.Encloses b a j :=
  Encloses.congr (S := (· ≠ i)) (fun x hx => by rw [op_erasedLeaf_of_ne g i hx])
    (fun _ hx => parent_erasedLeaf_of_ne g hx) (fun _ _ _ hp => parent_ne_leaf h hregions hp) hj

/-- A value that is no result of `i` is visible where it was. -/
theorem visible_erasedLeaf {v : ValueId} (hv : g.HasValue v) (hout : v ∉ (g.op i).results)
    {j : OpId} (hj : j ≠ i) (hvisible : g.Visible v j) : (g.erasedLeaf i).Visible v j := by
  refine hvisible.transfer (source_erasedLeaf g i v) (fun b hb => ?_) fun d n hd => ?_
  · rw [home_erasedLeaf]
    exact hb
  · have hdi : d ≠ i := by
      rintro rfl
      exact hout (h.owned.mem_results_iff.mpr ⟨hv, n, hd⟩)
    rw [op_erasedLeaf_of_ne g i hdi]
    refine ⟨rfl, rfl, fun b a ha => ?_⟩
    have hold := (encloses_erasedLeaf h hregions hj).mp ha
    have hai : a ≠ i :=
      hold.mem (S := (· ≠ i)) (fun _ _ _ hp => parent_ne_leaf h hregions hp) hj
    refine ⟨hold, fun hsublist => ?_⟩
    rw [block_erasedLeaf]
    split
    · -- neither of the two is the entry that goes
      have hpair : ([d, a].erase i) = [d, a] := List.erase_of_not_mem (by
        simp only [List.mem_cons, List.not_mem_nil, or_false, not_or]
        exact ⟨hdi.symm, hai.symm⟩)
      exact hpair ▸ hsublist.erase i
    · exact hsublist

end

theorem ends_erasedLeaf {i j : OpId} (hlast : ¬ g.ClosesBlock i) {b : BlockId} (hj : j ≠ i)
    (hb : g.blockParent b = some j) (h : g.MembersAgree) (hends : g.Ends j b) :
    (g.erasedLeaf i).Ends j b := by
  intro t ht
  rw [op_erasedLeaf_of_ne g i hj] at ht
  obtain ⟨last, hlastb, hname⟩ := hends t ht
  have hli : last ≠ i := by
    rintro rfl
    have hblock := (h.mem_iff last b).mpr (List.mem_of_getLast? hlastb)
    exact hlast ⟨b, j, t, hblock, hb, ht, hlastb⟩
  refine ⟨last, ?_, ?_⟩
  · rw [block_erasedLeaf]
    split
    · exact getLast?_erase hlastb hli
    · exact hlastb
  · rw [op_erasedLeaf_of_ne g i hli]
    exact hname

/-- An operation `i` that nothing reads and that has no regions may be erased, unless its block has
to end with it. -/
theorem Verified.erasedLeaf {root i : OpId} {draft : List BlockId}
    (hverified : g.Verified root draft) (h : g.WellFormed) (hroot : i ≠ root)
    (hregions : (g.op i).regions = [])
    (hunused : ∀ v ∈ (g.op i).results, ∀ s, (g.slot s).value ≠ some v)
    (hlast : ¬ g.ClosesBlock i) : (g.erasedLeaf i).Verified root draft := by
  intro j hj
  have hji : j ≠ i := by
    rintro rfl
    -- erased, it is in no block, so it could only be inside as the root itself
    cases hj with
    | root => exact hroot rfl
    | step hp =>
      rw [parent, block_erasedLeaf_self] at hp
      cases hp
  have hsane := hverified j ((inside_erasedLeaf h hregions hji).mp hj)
  refine ⟨?_, fun s hs => ?_, fun v hv s hs => ?_, fun b hb hdraft => ?_⟩
  · rw [op_erasedLeaf_of_ne g i hji]
    exact hsane.live
  · rw [op_erasedLeaf_of_ne g i hji] at hs
    obtain ⟨v, hheld, hvisible⟩ := hsane.reads s hs
    -- a slot is an operand of one operation only
    have hout : s ∉ (g.op i).operands := fun hc =>
      hji ((h.numbered.of_mem hs).2.1.symm.trans (h.numbered.of_mem hc).2.1)
    refine ⟨v, ?_, visible_erasedLeaf h hregions (h.uses.held s v hheld) ?_ hji hvisible⟩
    · rw [(slot_erasedLeaf g i s).2, if_neg hout]
      exact hheld
    · exact fun hmem => hunused v hmem s hheld
  · rw [op_erasedLeaf_of_ne g i hji] at hv
    obtain ⟨howner, hheld⟩ := slot_erasedLeaf g i s
    rw [hheld] at hs
    split at hs
    · cases hs
    · next hout =>
      obtain ⟨hlive, hmem⟩ := hsane.uses v hv s hs
      have hoi : (g.slot s).owner ≠ i := fun heq => hout (heq ▸ hmem)
      rw [Current, howner, op_erasedLeaf_of_ne g i hoi]
      exact ⟨hlive, hmem⟩
  · rw [blockParent_erasedLeaf] at hb
    exact ends_erasedLeaf hlast hji hb h.members (hsane.ends b hb hdraft)

end Graph

end Multistage
