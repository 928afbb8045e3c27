import Multistage.Proofs.Verify.Rewriting

/-!
# What changing one operation leaves alone

New operations may be added and one operation may get other operands; apart from that every
operation stays as it was (`Retains`). Whether an operation is free of effects does not depend on
how deep the check may go, once it may go as deep as there are operations, so a change of this sort
never makes one free of effects that was not.
-/

namespace Multistage.Graph

variable {g g' g'' : Graph}

/-! ## Types of values -/

theorem hasOp_of_mem_results {d : OpId} {r : ValueId} (hr : r ∈ (g.op d).results) :
    g.HasOp d := by
  by_contra hd
  rw [op_of_not_hasOp hd] at hr
  cases hr

theorem hasValue_of_typeOf {v : ValueId} {ty : Ty} (h : g.typeOf v = some ty) : g.HasValue v := by
  by_contra hv
  rw [typeOf, value_of_not_hasValue hv] at h
  cases h

@[simp] theorem typeOf_assign (g : Graph) (s : SlotId) (v : Option ValueId) (w : ValueId) :
    (g.assign s v).typeOf w = g.typeOf w := by
  unfold typeOf
  by_cases hw : g.HasValue w
  · rw [value_assign g s v hw]
    split <;> rfl
  · rw [value_of_not_hasValue hw,
      value_of_not_hasValue (by rw [HasValue, size_values_assign]; exact hw)]

theorem typeOf_assignAll (g : Graph) (slots : List SlotId) (v : Option ValueId) (w : ValueId) :
    (g.assignAll slots v).typeOf w = g.typeOf w :=
  assignAll_keeps (f := fun g => g.typeOf w) (fun g s v => typeOf_assign g s v w) g slots v

theorem typeOf_spliceSegment (g : Graph) (i : OpId) (name : String) (start size : Nat)
    (vals : List ValueId) (w : ValueId) :
    (g.spliceSegment i name start size vals).typeOf w = g.typeOf w := by
  have hslots : ∀ (g' : Graph) (fresh : List (Option ValueId)),
      (g'.addSlots i start fresh).1.typeOf w = g'.typeOf w := fun g' fresh =>
    addSlots_keeps (f := fun g => g.typeOf w) g' i start fresh (fun _ _ => rfl)
      fun g s v => typeOf_assign g s v w
  rw [spliceSegment_eq, typeOf, value_modifyOp, value, values_renumberFrom, ← value, ← typeOf,
    hslots]
  exact assignAll_keeps (f := fun g => g.typeOf w) (fun g s v => typeOf_assign g s v w) g _ _

section

variable (g : Graph) (o : Op) (vals : List (Option ValueId)) (types : List (Option Ty))
  (b : BlockId) (k : Nat)

theorem typeOf_inserted_of_hasValue {w : ValueId} (hw : g.HasValue w) :
    (g.inserted o vals types b k).typeOf w = g.typeOf w := by
  have hsize : ((g.pushOp o).addSlots g.nextOp 0 vals).1.HasValue w := by
    rw [HasValue, size_values_addSlots]
    exact hw
  have hslots : ((g.pushOp o).addSlots g.nextOp 0 vals).1.typeOf w = g.typeOf w :=
    addSlots_keeps (f := fun g => g.typeOf w) (g.pushOp o) g.nextOp 0 vals (fun _ _ => rfl)
      fun g s v => typeOf_assign g s v w
  rw [← hslots]
  show ((addValues _ _ _ _).1.value w).ty = _
  rw [value_addValues_of_hasValue _ _ _ _ hsize]
  rfl

/-- A new result of `inserted` has the type that it was given. -/
theorem typeOf_inserted_new {n : Nat} {ty : Option Ty} (hn : types[n]? = some ty) :
    (g.inserted o vals types b k).typeOf ⟨g.values.size + n⟩ = ty := by
  have hrow := value_addValues_of_getElem? ((g.pushOp o).addSlots g.nextOp 0 vals).1
    (.result g.nextOp) 0 types hn
  rw [size_values_addSlots] at hrow
  show ((addValues _ _ _ _).1.value _).ty = _
  exact congrArg Value.ty hrow

end

/-! ## Retained operations -/

/-- Operations may have been added, and `i` may have other operands; the rest is as it was. -/
structure Retains (g g' : Graph) (i : OpId) : Prop where
  within : g.Within g'
  row : ∀ j, g.HasOp j → ∃ operands segments, g'.op j = { g.op j with operands, segments }
  reads : ∀ j, g.HasOp j → j ≠ i → g'.operands j = g.operands j
  listed : ∀ b, (g.block b).ops ⊆ (g'.block b).ops
  typeOf : ∀ v, g.HasValue v → g'.typeOf v = g.typeOf v

namespace Retains

variable {i : OpId}

theorem refl (g : Graph) (i : OpId) : g.Retains g i where
  within := .refl g
  row _ _ := ⟨_, _, rfl⟩
  reads _ _ _ := rfl
  listed _ := List.Subset.refl _
  typeOf _ _ := rfl

theorem trans (h : g.Retains g' i) (h' : g'.Retains g'' i) : g.Retains g'' i where
  within := h.within.trans h'.within
  row j hj := by
    obtain ⟨_, _, hfirst⟩ := h.row j hj
    obtain ⟨operands, segments, hsecond⟩ := h'.row j (h.within.hasOp hj)
    exact ⟨operands, segments, by rw [hsecond, hfirst]⟩
  reads j hj hne := (h'.reads j (h.within.hasOp hj) hne).trans (h.reads j hj hne)
  listed b := List.Subset.trans (h.listed b) (h'.listed b)
  typeOf v hv := (h'.typeOf v (h.within.hasValue hv)).trans (h.typeOf v hv)

theorem children (h : g.Retains g' i) {j : OpId} (hj : g.HasOp j) :
    g.children j ⊆ g'.children j := by
  obtain ⟨_, _, hrow⟩ := h.row j hj
  intro x hx
  obtain ⟨b, hb, hxb⟩ := List.mem_flatMap.mp hx
  exact List.mem_flatMap.mpr ⟨b, by rw [hrow]; exact hb, h.listed b hxb⟩

/-! ### The changes -/

theorem inserted {o : Op} {vals : List (Option ValueId)} {b : BlockId} {k : Nat}
    (h : g.Insertable o vals b k) (types : List (Option Ty)) (i : OpId) :
    g.Retains (g.inserted o vals types b k) i where
  within := (within_install g o vals types).trans <|
    (within_modifyBlock _ _ _).trans (within_modifyOp _ _ _)
  row j hj := ⟨_, _, op_inserted_of_ne g o vals types b k hj.ne_nextOp⟩
  reads j hj _ := by
    unfold operands
    rw [op_inserted_of_ne g o vals types b k hj.ne_nextOp]
    refine List.map_congr_left fun s hs => ?_
    rw [slot_inserted, slot_install_of_hasSlot g o vals types (h.wellFormed.numbered.of_mem hs).1]
  listed c := (h.sublist_ops_inserted c).subset
  typeOf _ hv := typeOf_inserted_of_hasValue g o vals types b k hv

theorem assign (h : g.OperandsNumbered) {s : SlotId} (hs : s ∈ (g.op i).operands)
    (v : Option ValueId) : g.Retains (g.assign s v) i where
  within := within_assign g s v
  row j _ := ⟨_, _, op_assign g s v j⟩
  reads j _ hne := by
    unfold operands
    rw [op_assign]
    refine List.map_congr_left fun t ht => held_assign_of_ne g ?_ v
    rintro rfl
    exact hne ((h.of_mem ht).2.1.symm.trans (h.of_mem hs).2.1)
  listed b := by rw [block_assign]; exact List.Subset.refl _
  typeOf w _ := typeOf_assign g s v w

theorem assignEach (h : g.WellFormed) {slots : List SlotId} {vals : List ValueId}
    (hslots : ∀ s ∈ slots, s ∈ (g.op i).operands) (hvals : ∀ v ∈ vals, g.HasValue v) :
    g.Retains (g.assignEach slots vals) i := by
  induction slots generalizing g vals with
  | nil => exact refl g i
  | cons s rest ih =>
    cases vals with
    | nil => exact refl g i
    | cons v vals =>
      have hs := hslots s List.mem_cons_self
      have hv := hvals v List.mem_cons_self
      have hwithin := within_assign g s (some v)
      refine (assign h.numbered hs (some v)).trans (ih (h.assign (h.numbered.of_mem hs).1 hv.opt)
        (fun t ht => ?_) fun w hw => hwithin.hasValue (hvals w (List.mem_cons_of_mem v hw)))
      rw [op_assign]
      exact hslots t (List.mem_cons_of_mem s ht)

theorem spliceSegment (h : g.OperandsNumbered) (name : String) (start size : Nat)
    (vals : List ValueId) : g.Retains (g.spliceSegment i name start size vals) i where
  within := within_spliceSegment g i name start size vals
  row j _ := by
    rw [op_spliceSegment]
    split
    · exact ⟨_, _, rfl⟩
    · exact ⟨_, _, rfl⟩
  reads j _ hne := by
    unfold operands
    rw [operands_spliceSegment_of_ne i name start size vals hne]
    refine List.map_congr_left fun s hs => ?_
    obtain ⟨hslot, howner, -⟩ := h.of_mem hs
    rw [(slot_spliceSegment_of_hasSlot i name start size vals hslot).2, if_neg]
    -- the slots that are let go of belong to `i`
    intro hc
    exact hne (howner.symm.trans (h.of_mem (List.mem_of_mem_drop (List.mem_of_mem_take hc))).2.1)
  listed b := by
    rw [block, block, blocks_spliceSegment]
    exact List.Subset.refl _
  typeOf w _ := typeOf_spliceSegment g i name start size vals w

theorem setSegment (h : g.WellFormed) {name : String} {vals : List (Option ValueId)}
    (hvals : ∀ v ∈ vals, g.HasOptValue v) (hok : g.setSegment i name vals = .ok g') :
    g.Retains g' i := by
  obtain ⟨start, size, -, ⟨-, -, rfl⟩ | ⟨-, rfl⟩⟩ := setSegment_ok hok
  · refine assignEach h (fun s hs => ?_) (hasValue_of_mem_filterMap hvals)
    exact List.mem_of_mem_drop (List.mem_of_mem_take hs)
  · exact spliceSegment h.numbered name start size _

end Retains

/-! ## Effects -/

/-- `effectFreeTo` holds if the kind has no effects, or if it has those of the operations inside and
they have none. -/
theorem effectFreeTo_succ_iff {n : Nat} {i : OpId} :
    g.effectFreeTo (n + 1) i = true ↔ ∃ k, (g.op i).kind = some k ∧
      (k.effects = .none ∨
        k.effects = .nested ∧ ∀ j ∈ g.children i, g.effectFreeTo n j = true) := by
  rw [effectFreeTo]
  cases (g.op i).kind with
  | none => simp
  | some k =>
    cases hk : k.effects <;> simp [hk]

theorem effectFreeTo_succ {n : Nat} {i : OpId} (h : g.effectFreeTo n i = true) :
    g.effectFreeTo (n + 1) i = true := by
  induction n generalizing i with
  | zero => cases h
  | succ n ih =>
    obtain ⟨k, hk, heffects⟩ := effectFreeTo_succ_iff.mp h
    refine effectFreeTo_succ_iff.mpr ⟨k, hk, heffects.imp_right fun hnested => ?_⟩
    exact ⟨hnested.1, fun j hj => ih (hnested.2 j hj)⟩

theorem effectFreeTo_of_le {n m : Nat} {i : OpId} (h : g.effectFreeTo n i = true) (hle : n ≤ m) :
    g.effectFreeTo m i = true := by
  induction hle with
  | refl => exact h
  | step _ ih => exact effectFreeTo_succ ih

/-- If the check needs depth `n + 1`, there are as many operations: one more below each. -/
theorem exists_nodup_of_effectFreeTo {n : Nat} {i : OpId} (h : g.effectFreeTo (n + 1) i = true)
    (hnot : ¬ g.effectFreeTo n i = true) :
    ∃ l : List OpId, l.length = n + 1 ∧ l.Nodup ∧
      ∀ x ∈ l, g.HasOp x ∧ g.effectFreeTo (n + 1) x = true := by
  have hthere : ∀ {m : Nat} {j : OpId}, g.effectFreeTo (m + 1) j = true → g.HasOp j := by
    intro m j hj
    obtain ⟨k, hk, -⟩ := effectFreeTo_succ_iff.mp hj
    by_contra hout
    rw [op_of_not_hasOp hout] at hk
    cases hk
  induction n generalizing i with
  | zero =>
    refine ⟨[i], rfl, List.nodup_singleton i, fun x hx => ?_⟩
    rw [List.mem_singleton.mp hx]
    exact ⟨hthere h, h⟩
  | succ n ih =>
    obtain ⟨k, hk, heffects⟩ := effectFreeTo_succ_iff.mp h
    obtain ⟨hnested, hall⟩ : k.effects = .nested ∧
        ∀ j ∈ g.children i, g.effectFreeTo (n + 1) j = true :=
      heffects.resolve_left fun hnone => hnot (effectFreeTo_succ_iff.mpr ⟨k, hk, Or.inl hnone⟩)
    -- one of the operations inside needs all of the depth that is left
    obtain ⟨j, hj, hjnot⟩ : ∃ j ∈ g.children i, ¬ g.effectFreeTo n j = true := by
      by_contra hno
      push Not at hno
      exact hnot (effectFreeTo_succ_iff.mpr ⟨k, hk, Or.inr ⟨hnested, hno⟩⟩)
    obtain ⟨l, hlength, hnodup, hl⟩ := ih (hall j hj) hjnot
    refine ⟨i :: l, by rw [List.length_cons, hlength], ?_, fun x hx => ?_⟩
    · exact List.nodup_cons.mpr ⟨fun hmem => hnot (hl i hmem).2, hnodup⟩
    · rcases List.mem_cons.mp hx with rfl | hx
      · exact ⟨hthere h, h⟩
      · exact ⟨(hl x hx).1, effectFreeTo_succ (hl x hx).2⟩

/-- A list without repetitions, of things with an `index` below `n`, has no more than `n` entries.
-/
theorem length_le_of_index_lt {α : Type} {index : α → Nat} (hindex : Function.Injective index)
    {l : List α} (hnodup : l.Nodup) {n : Nat} (hl : ∀ x ∈ l, index x < n) : l.length ≤ n := by
  have hsubset : l.map index ⊆ List.range n := by
    intro k hk
    obtain ⟨x, hx, rfl⟩ := List.mem_map.mp hk
    exact List.mem_range.mpr (hl x hx)
  have hle := (hnodup.map hindex).length_le_of_subset hsubset
  rwa [List.length_map, List.length_range] at hle

theorem length_le_size_of_nodup {l : List OpId} (hnodup : l.Nodup) (hl : ∀ x ∈ l, g.HasOp x) :
    l.length ≤ g.ops.size :=
  length_le_of_index_lt (fun ⟨_⟩ ⟨_⟩ => congrArg OpId.mk) hnodup hl

/-- `effectFreeTo` at any depth gives `isEffectFree`. -/
theorem isEffectFree_of_effectFreeTo {n : Nat} {i : OpId} (h : g.effectFreeTo n i = true) :
    g.isEffectFree i = true := by
  induction n with
  | zero => cases h
  | succ n ih =>
    -- every level that the check needs takes one more operation, and there are only so many
    by_cases hn : g.effectFreeTo n i = true
    · exact ih hn
    · obtain ⟨l, hlength, hnodup, hl⟩ := exists_nodup_of_effectFreeTo h hn
      have hle := length_le_size_of_nodup hnodup fun x hx => (hl x hx).1
      exact effectFreeTo_of_le h (hlength ▸ hle)

/-- An operation `j` that has effects keeps them. -/
theorem Retains.isEffectFree {i : OpId} (h : g.Retains g' i) (hwf : g.WellFormed) {j : OpId}
    (hj : g.HasOp j) (heffects : g.isEffectFree j = false) : g'.isEffectFree j = false := by
  -- what is inside an operation is still inside it, so a check that succeeds now did so before
  have hdown : ∀ (n : Nat) (x : OpId), g.HasOp x → g'.effectFreeTo n x = true →
      g.effectFreeTo n x = true := by
    intro n
    induction n with
    | zero => exact fun _ _ hx => nomatch hx
    | succ n ih =>
      intro x hthere hx
      obtain ⟨_, _, hrow⟩ := h.row x hthere
      obtain ⟨k, hk, heffects⟩ := effectFreeTo_succ_iff.mp hx
      rw [hrow] at hk
      refine effectFreeTo_succ_iff.mpr ⟨k, hk, heffects.imp_right fun hnested => ?_⟩
      refine ⟨hnested.1, fun y hy => ih y ?_ (hnested.2 y (h.children hthere hy))⟩
      exact hasOp_of_parent ((mem_children_iff hwf).mp hy)
  rw [← Bool.not_eq_true] at heffects ⊢
  exact fun hfree => heffects (isEffectFree_of_effectFreeTo (hdown _ j hj hfree))

end Multistage.Graph
