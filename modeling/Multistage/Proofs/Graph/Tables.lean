import Mathlib.Data.List.Nodup
import Mathlib.Tactic.ByContra
import Multistage.Graph.Clone
import Multistage.Graph.Placement
import Multistage.Graph.Segments

/-!
# Rows after a change

Which rows a graph has, and what they hold after each of the operations that the editing functions
are made of: an assignment, fresh slots, fresh values, new slot numbers. Tables only grow, so a row
that is there stays there, and a row that is not there reads as the default one, which holds
nothing.

`install` is the common part of creating and of copying an operation: a new row with fresh operand
slots and fresh results.
-/

namespace Multistage

/-- The row that an operation of `kind` starts from. -/
def OpSpec.row (spec : OpSpec) (kind : Option OpKind) : Op where
  name := spec.name
  kind
  loc := spec.loc
  attrs := spec.attrs
  segments := spec.segmentSizes ((kind.map (·.segments)).getD [])
  regions := List.replicate (max spec.regions ((kind.map (·.regions)).getD 0)).toNat []

namespace Graph

/-! ## Rows that are there -/

/-- Operation `i` is there. -/
def HasOp (g : Graph) (i : OpId) : Prop := i.index < g.ops.size

/-- Block `b` is there. -/
def HasBlock (g : Graph) (b : BlockId) : Prop := b.index < g.blocks.size

/-- Value `v` is there. -/
def HasValue (g : Graph) (v : ValueId) : Prop := v.index < g.values.size

/-- Slot `s` is there. -/
def HasSlot (g : Graph) (s : SlotId) : Prop := s.index < g.slots.size

instance (g : Graph) (i : OpId) : Decidable (g.HasOp i) := inferInstanceAs (Decidable (_ < _))
instance (g : Graph) (b : BlockId) : Decidable (g.HasBlock b) := inferInstanceAs (Decidable (_ < _))
instance (g : Graph) (v : ValueId) : Decidable (g.HasValue v) := inferInstanceAs (Decidable (_ < _))
instance (g : Graph) (s : SlotId) : Decidable (g.HasSlot s) := inferInstanceAs (Decidable (_ < _))

/-- The value `v` is there if it is not missing. -/
def HasOptValue (g : Graph) (v : Option ValueId) : Prop := ∀ w ∈ v, g.HasValue w

instance (g : Graph) (v : Option ValueId) : Decidable (g.HasOptValue v) :=
  inferInstanceAs (Decidable (∀ w ∈ v, g.HasValue w))

theorem HasValue.opt {g : Graph} {v : ValueId} (hv : g.HasValue v) : g.HasOptValue (some v) := by
  rintro _ ⟨⟩
  exact hv

theorem hasOptValue_of_mem_map {g : Graph} {vs : List ValueId} (hvs : ∀ v ∈ vs, g.HasValue v) :
    ∀ v ∈ vs.map some, g.HasOptValue v := by
  intro v hv
  obtain ⟨w, hw, rfl⟩ := List.mem_map.mp hv
  exact (hvs w hw).opt

theorem op_of_not_hasOp {g : Graph} {i : OpId} (h : ¬ g.HasOp i) : g.op i = default := by
  rw [op, Array.getD_eq_getD_getElem?, Array.getElem?_eq_none (by unfold HasOp at h; omega)]
  rfl

theorem block_of_not_hasBlock {g : Graph} {b : BlockId} (h : ¬ g.HasBlock b) :
    g.block b = default := by
  rw [block, Array.getD_eq_getD_getElem?, Array.getElem?_eq_none (by unfold HasBlock at h; omega)]
  rfl

theorem value_of_not_hasValue {g : Graph} {v : ValueId} (h : ¬ g.HasValue v) :
    g.value v = default := by
  rw [value, Array.getD_eq_getD_getElem?, Array.getElem?_eq_none (by unfold HasValue at h; omega)]
  rfl

theorem slot_of_not_hasSlot {g : Graph} {s : SlotId} (h : ¬ g.HasSlot s) : g.slot s = default := by
  rw [slot, Array.getD_eq_getD_getElem?, Array.getElem?_eq_none (by unfold HasSlot at h; omega)]
  rfl

@[simp] theorem op_nextOp (g : Graph) : g.op g.nextOp = default :=
  op_of_not_hasOp (Nat.lt_irrefl _)

theorem HasOp.ne_nextOp {g : Graph} {i : OpId} (hi : g.HasOp i) : i ≠ g.nextOp := by
  rintro rfl
  exact Nat.lt_irrefl _ hi

/-- A number that is used up for nothing leaves a row that reads as no row. -/
@[simp] theorem op_skipOp (g : Graph) (i : OpId) : g.skipOp.op i = g.op i := by
  rw [skipOp, op_pushOp]
  split
  · next hi => rw [hi, op_nextOp]; rfl
  · rfl

theorem hasOp_of_block_eq_some {g : Graph} {i : OpId} {b : BlockId} (h : (g.op i).block = some b) :
    g.HasOp i := by
  by_contra hi
  rw [op_of_not_hasOp hi] at h
  cases h

theorem hasBlock_of_mem_ops {g : Graph} {b : BlockId} {i : OpId} (h : i ∈ (g.block b).ops) :
    g.HasBlock b := by
  by_contra hb
  rw [block_of_not_hasBlock hb] at h
  cases h

theorem hasBlock_of_home_eq_some {g : Graph} {b : BlockId} {r : RegionId}
    (h : (g.block b).home = some r) : g.HasBlock b := by
  by_contra hb
  rw [block_of_not_hasBlock hb] at h
  cases h

theorem hasSlot_of_value_eq_some {g : Graph} {s : SlotId} {v : ValueId}
    (h : (g.slot s).value = some v) : g.HasSlot s := by
  by_contra hs
  rw [slot_of_not_hasSlot hs] at h
  cases h

theorem hasOp_of_mem_operands {g : Graph} {i : OpId} {s : SlotId} (h : s ∈ (g.op i).operands) :
    g.HasOp i := by
  by_contra hi
  rw [op_of_not_hasOp hi] at h
  cases h

/-! ## Assignments -/

@[simp] theorem ops_assign (g : Graph) (s : SlotId) (v : Option ValueId) :
    (g.assign s v).ops = g.ops := by
  unfold assign
  split
  · rfl
  · cases (g.slot s).value <;> cases v <;> rfl

@[simp] theorem blocks_assign (g : Graph) (s : SlotId) (v : Option ValueId) :
    (g.assign s v).blocks = g.blocks := by
  unfold assign
  split
  · rfl
  · cases (g.slot s).value <;> cases v <;> rfl

@[simp] theorem size_slots_assign (g : Graph) (s : SlotId) (v : Option ValueId) :
    (g.assign s v).slots.size = g.slots.size := by
  unfold assign
  split
  · rfl
  · cases (g.slot s).value <;> cases v <;> exact Array.size_modify

@[simp] theorem size_values_assign (g : Graph) (s : SlotId) (v : Option ValueId) :
    (g.assign s v).values.size = g.values.size := by
  unfold assign
  split
  · rfl
  · cases (g.slot s).value <;> cases v <;>
      simp only [removeUse, addUse, modifySlot, modifyValue, Array.size_modify]

/-- A change of the use list of `v` leaves the source of every value alone. -/
theorem source_modifyUses (g : Graph) (v w : ValueId) (f : List SlotId → List SlotId) :
    ((g.modifyValue v fun x => { x with uses := f x.uses }).value w).source =
      (g.value w).source := by
  rw [value_modifyValue]
  split <;> rfl

@[simp] theorem source_assign (g : Graph) (s : SlotId) (v : Option ValueId) (w : ValueId) :
    ((g.assign s v).value w).source = (g.value w).source := by
  unfold assign
  split
  · rfl
  · have hadd : ∀ (g' : Graph) (new : ValueId),
        ((g'.addUse new s).value w).source = (g'.value w).source :=
      fun g' new => source_modifyUses g' new w (· ++ [s])
    have hremove : ∀ old : ValueId, ((g.removeUse old s).value w).source = (g.value w).source :=
      fun old => source_modifyUses g old w (·.erase s)
    -- the four cases differ in which of the two use lists are touched
    cases (g.slot s).value <;> cases v <;>
      simp only [hadd, value_modifySlot, hremove]

@[simp] theorem owner_assign (g : Graph) (s t : SlotId) (v : Option ValueId) :
    ((g.assign s v).slot t).owner = (g.slot t).owner := by
  rw [slot_assign]
  split <;> rfl

@[simp] theorem index_assign (g : Graph) (s t : SlotId) (v : Option ValueId) :
    ((g.assign s v).slot t).index = (g.slot t).index := by
  rw [slot_assign]
  split <;> rfl

/-- What slot `s` holds after `assign`. -/
theorem held_assign_self (g : Graph) {s : SlotId} (hs : g.HasSlot s) (v : Option ValueId) :
    ((g.assign s v).slot s).value = v := by
  rw [slot_assign, if_pos ⟨rfl, hs⟩]

/-- What another slot `t` holds after `assign`. -/
theorem held_assign_of_ne (g : Graph) {s t : SlotId} (hst : s ≠ t) (v : Option ValueId) :
    ((g.assign s v).slot t).value = (g.slot t).value := by
  rw [slot_assign, if_neg fun h => hst h.1]

/-- A slot `s` that is not there has nothing to let go of. -/
theorem assign_none_of_not_hasSlot {g : Graph} {s : SlotId} (hs : ¬ g.HasSlot s) :
    g.assign s none = g := by
  refine if_pos ?_
  rw [slot_of_not_hasSlot hs]
  rfl

/-! ## Fresh slots -/

theorem exists_slot_of_le {start : Nat} {s : SlotId} (hs : start ≤ s.index) :
    ∃ k, s = ⟨start + k⟩ :=
  ⟨s.index - start, by rw [Nat.add_sub_cancel' hs]⟩

/-- The positions of `n` rows from `start` on, as slots. -/
def slotsFrom (start n : Nat) : List SlotId := (List.range' start n).map SlotId.mk

@[simp] theorem length_slotsFrom (start n : Nat) : (slotsFrom start n).length = n := by
  rw [slotsFrom, List.length_map, List.length_range']

theorem mem_slotsFrom {start n : Nat} {s : SlotId} :
    s ∈ slotsFrom start n ↔ start ≤ s.index ∧ s.index < start + n := by
  obtain ⟨s⟩ := s
  simp only [slotsFrom, List.mem_map, List.mem_range'_1, SlotId.mk.injEq, exists_eq_right]

theorem getElem?_slotsFrom {start n k : Nat} {s : SlotId} :
    (slotsFrom start n)[k]? = some s ↔ k < n ∧ s = ⟨start + k⟩ := by
  rw [slotsFrom, List.getElem?_map]
  by_cases hk : k < n
  · simp only [List.getElem?_range' hk, Option.map_some, Option.some.injEq, hk, true_and,
      Nat.one_mul]
    exact eq_comm
  · rw [List.getElem?_eq_none (by rw [List.length_range']; omega)]
    simp only [Option.map_none, reduceCtorEq, hk, false_and]

theorem nodup_slotsFrom (start n : Nat) : (slotsFrom start n).Nodup := by
  refine List.Nodup.map ?_ List.nodup_range'
  intro a b hab
  exact SlotId.mk.inj hab

theorem size_slots_pushSlot (g : Graph) (x : Slot) :
    (g.pushSlot x).1.slots.size = g.slots.size + 1 :=
  Array.size_push x

theorem slot_pushSlot_self (g : Graph) (x : Slot) : (g.pushSlot x).1.slot ⟨g.slots.size⟩ = x := by
  rw [slot_pushSlot]
  exact if_pos rfl

section

variable (g : Graph) (owner : OpId) (start : Nat) (vals : List (Option ValueId))

/-- What `pushSlot` and `assign` leave alone, `addSlots` does. -/
theorem addSlots_keeps {α : Type} {f : Graph → α} (hpush : ∀ g x, f (g.pushSlot x).1 = f g)
    (hassign : ∀ g s v, f (g.assign s v) = f g) : f (g.addSlots owner start vals).1 = f g := by
  induction vals generalizing g start with
  | nil => rfl
  | cons v rest ih =>
    rw [addSlots]
    exact (ih _ _).trans ((hassign _ _ _).trans (hpush _ _))

@[simp] theorem ops_addSlots : (g.addSlots owner start vals).1.ops = g.ops :=
  addSlots_keeps g owner start vals (fun _ _ => rfl) ops_assign

@[simp] theorem blocks_addSlots : (g.addSlots owner start vals).1.blocks = g.blocks :=
  addSlots_keeps g owner start vals (fun _ _ => rfl) blocks_assign

@[simp] theorem size_values_addSlots :
    (g.addSlots owner start vals).1.values.size = g.values.size :=
  addSlots_keeps (f := (·.values.size)) g owner start vals (fun _ _ => rfl) size_values_assign

@[simp] theorem source_addSlots (w : ValueId) :
    ((g.addSlots owner start vals).1.value w).source = (g.value w).source :=
  addSlots_keeps (f := fun g => (g.value w).source) g owner start vals (fun _ _ => rfl)
    fun g s v => source_assign g s v w

theorem size_slots_addSlots :
    (g.addSlots owner start vals).1.slots.size = g.slots.size + vals.length := by
  induction vals generalizing g start with
  | nil => rfl
  | cons v rest ih =>
    rw [addSlots]
    refine (ih _ _).trans ?_
    rw [size_slots_assign, size_slots_pushSlot, List.length_cons]
    omega

/-- The slots of `addSlots` are numbered on from the last slot. -/
theorem snd_addSlots : (g.addSlots owner start vals).2 = slotsFrom g.slots.size vals.length := by
  induction vals generalizing g start with
  | nil => rfl
  | cons v rest ih =>
    rw [addSlots]
    show _ :: (addSlots _ owner (start + 1) rest).2 = _
    rw [ih, size_slots_assign, size_slots_pushSlot]
    rfl

theorem slot_addSlots_of_hasSlot {t : SlotId} (ht : g.HasSlot t) :
    (g.addSlots owner start vals).1.slot t = g.slot t := by
  induction vals generalizing g start with
  | nil => rfl
  | cons v rest ih =>
    rw [addSlots]
    -- the first fresh slot is another one, and `t` is still there for the rest
    have hne : ¬ (⟨g.slots.size⟩ : SlotId) = t := by
      rintro rfl
      exact Nat.lt_irrefl _ ht
    have ht' : ((g.pushSlot { owner, index := start, value := none }).1.assign
        ⟨g.slots.size⟩ v).HasSlot t := by
      rw [HasSlot, size_slots_assign, size_slots_pushSlot]
      exact Nat.lt_succ_of_lt ht
    refine (ih _ _ ht').trans ?_
    rw [slot_assign, if_neg fun h => hne h.1, slot_pushSlot, if_neg fun h => hne h.symm]

/-- The slot for a value belongs to `owner`, has its place in the list and holds the value. -/
theorem slot_addSlots_of_getElem? {k : Nat} {v : Option ValueId} (hk : vals[k]? = some v) :
    (g.addSlots owner start vals).1.slot ⟨g.slots.size + k⟩ =
      { owner, index := start + k, value := v } := by
  induction vals generalizing g start k with
  | nil => cases hk
  | cons u rest ih =>
    rw [addSlots]
    set g' := (g.pushSlot { owner, index := start, value := none }).1.assign ⟨g.slots.size⟩ u
      with hg'
    have hsize : g'.slots.size = g.slots.size + 1 := by
      rw [hg', size_slots_assign, size_slots_pushSlot]
    cases k with
    | zero =>
      -- the slot is there before the rest is added
      cases Option.some.inj hk
      refine (slot_addSlots_of_hasSlot g' owner (start + 1) rest ?_).trans ?_
      · rw [HasSlot, hsize]
        exact Nat.lt_succ_self _
      · show g'.slot ⟨g.slots.size⟩ = _
        rw [hg', slot_assign, if_pos ⟨rfl, by rw [size_slots_pushSlot]; exact Nat.lt_succ_self _⟩,
          slot_pushSlot_self]
        rfl
    | succ k =>
      -- counted from the next slot on, the place is one less
      have hrest := ih g' (start + 1) hk
      rw [hsize] at hrest
      rw [show g.slots.size + (k + 1) = g.slots.size + 1 + k by omega,
        show start + (k + 1) = start + 1 + k by omega]
      exact hrest

end

/-- The rows from `start` on, one a value, that hold `v`. -/
def readersFrom (v : ValueId) : Nat → List (Option ValueId) → List SlotId
  | _, [] => []
  | start, u :: rest => (if u = some v then [⟨start⟩] else []) ++ readersFrom v (start + 1) rest

theorem mem_readersFrom {v : ValueId} {start : Nat} {vals : List (Option ValueId)} {s : SlotId} :
    s ∈ readersFrom v start vals ↔ ∃ k, vals[k]? = some (some v) ∧ s = ⟨start + k⟩ := by
  induction vals generalizing start with
  | nil => simp [readersFrom]
  | cons u rest ih =>
    rw [readersFrom, List.mem_append, ih]
    constructor
    · rintro (hs | ⟨k, hk, rfl⟩)
      · split at hs
        · next hu => exact ⟨0, congrArg some hu, List.mem_singleton.mp hs⟩
        · cases hs
      · exact ⟨k + 1, hk, by rw [Nat.add_assoc, Nat.add_comm 1 k]⟩
    · rintro ⟨k, hk, rfl⟩
      cases k with
      | zero =>
        left
        rw [if_pos (Option.some.inj hk)]
        exact List.mem_singleton.mpr rfl
      | succ k => exact Or.inr ⟨k, hk, by rw [Nat.add_assoc, Nat.add_comm 1 k]⟩

theorem readersFrom_of_not_mem {v : ValueId} {start : Nat} {vals : List (Option ValueId)}
    (hv : some v ∉ vals) : readersFrom v start vals = [] := by
  apply List.eq_nil_iff_forall_not_mem.mpr
  intro s hs
  obtain ⟨k, hk, -⟩ := mem_readersFrom.mp hs
  exact hv (List.mem_of_getElem? hk)

/-- A value `v` that was there gets the fresh slots that hold it, at the end of its use list. -/
theorem value_addSlots_of_hasValue (g : Graph) (owner : OpId) (start : Nat)
    (vals : List (Option ValueId)) {v : ValueId} (hv : g.HasValue v) :
    (g.addSlots owner start vals).1.value v =
      { g.value v with uses := (g.value v).uses ++ readersFrom v g.slots.size vals } := by
  induction vals generalizing g start with
  | nil =>
    rw [readersFrom, List.append_nil]
    rfl
  | cons u rest ih =>
    rw [addSlots]
    have hpushed : (g.pushSlot { owner, index := start, value := none }).1.HasValue v := hv
    have hassigned : ((g.pushSlot { owner, index := start, value := none }).1.assign
        ⟨g.slots.size⟩ u).HasValue v := by
      rw [HasValue, size_values_assign]
      exact hpushed
    -- the slot is pushed empty, so nothing is taken out of a use list
    have hfirst : ((g.pushSlot { owner, index := start, value := none }).1.assign
        ⟨g.slots.size⟩ u).value v =
          { g.value v with
            uses := (g.value v).uses ++ if u = some v then [⟨g.slots.size⟩] else [] } := by
      rw [value_assign _ _ _ hpushed, slot_pushSlot_self]
      show (if none = u then g.value v else { g.value v with
        uses := (g.value v).uses ++ if u = some v then [⟨g.slots.size⟩] else [] }) = _
      split
      · next hu =>
        subst hu
        rw [if_neg nofun, List.append_nil]
      · rfl
    refine (ih _ (start + 1) hassigned).trans ?_
    rw [hfirst, size_slots_assign, size_slots_pushSlot, readersFrom, ← List.append_assoc]

/-! ## Fresh values -/

/-- The positions of `n` rows from `start` on, as values. -/
def valuesFrom (start n : Nat) : List ValueId := (List.range' start n).map ValueId.mk

theorem mem_valuesFrom {start n : Nat} {v : ValueId} :
    v ∈ valuesFrom start n ↔ start ≤ v.index ∧ v.index < start + n := by
  obtain ⟨v⟩ := v
  simp only [valuesFrom, List.mem_map, List.mem_range'_1, ValueId.mk.injEq, exists_eq_right]

theorem getElem?_valuesFrom {start n k : Nat} {v : ValueId} :
    (valuesFrom start n)[k]? = some v ↔ k < n ∧ v = ⟨start + k⟩ := by
  rw [valuesFrom, List.getElem?_map]
  by_cases hk : k < n
  · simp only [List.getElem?_range' hk, Option.map_some, Option.some.injEq, hk, true_and,
      Nat.one_mul]
    exact eq_comm
  · rw [List.getElem?_eq_none (by rw [List.length_range']; omega)]
    simp only [Option.map_none, reduceCtorEq, hk, false_and]

theorem size_values_pushValue (g : Graph) (x : Value) :
    (g.pushValue x).1.values.size = g.values.size + 1 :=
  Array.size_push x

theorem value_pushValue_self (g : Graph) (x : Value) :
    (g.pushValue x).1.value ⟨g.values.size⟩ = x := by
  rw [value_pushValue]
  exact if_pos rfl

section

variable (g : Graph) (source : Nat → Source) (start : Nat) (types : List (Option Ty))

/-- What `pushValue` leaves alone, `addValues` does. -/
theorem addValues_keeps {α : Type} {f : Graph → α} (hpush : ∀ g x, f (g.pushValue x).1 = f g) :
    f (g.addValues source start types).1 = f g := by
  induction types generalizing g start with
  | nil => rfl
  | cons ty rest ih =>
    rw [addValues]
    exact (ih _ _).trans (hpush _ _)

@[simp] theorem ops_addValues : (g.addValues source start types).1.ops = g.ops :=
  addValues_keeps g source start types fun _ _ => rfl

@[simp] theorem blocks_addValues : (g.addValues source start types).1.blocks = g.blocks :=
  addValues_keeps g source start types fun _ _ => rfl

@[simp] theorem slots_addValues : (g.addValues source start types).1.slots = g.slots :=
  addValues_keeps g source start types fun _ _ => rfl

theorem size_values_addValues :
    (g.addValues source start types).1.values.size = g.values.size + types.length := by
  induction types generalizing g start with
  | nil => rfl
  | cons ty rest ih =>
    rw [addValues]
    refine (ih _ _).trans ?_
    rw [size_values_pushValue, List.length_cons]
    omega

/-- The values of `addValues` are numbered on from the last value. -/
theorem snd_addValues :
    (g.addValues source start types).2 = valuesFrom g.values.size types.length := by
  induction types generalizing g start with
  | nil => rfl
  | cons ty rest ih =>
    rw [addValues]
    show _ :: (addValues _ source (start + 1) rest).2 = _
    rw [ih, size_values_pushValue]
    rfl

theorem value_addValues_of_hasValue {w : ValueId} (hw : g.HasValue w) :
    (g.addValues source start types).1.value w = g.value w := by
  induction types generalizing g start with
  | nil => rfl
  | cons ty rest ih =>
    rw [addValues]
    have hw' : (g.pushValue { ty, source := source start, uses := [] }).1.HasValue w := by
      rw [HasValue, size_values_pushValue]
      exact Nat.lt_succ_of_lt hw
    refine (ih _ _ hw').trans ?_
    rw [value_pushValue, if_neg]
    rintro rfl
    exact Nat.lt_irrefl _ hw

/-- A fresh value of `addValues` has its type and its source, and nothing reads it. -/
theorem value_addValues_of_getElem? {k : Nat} {ty : Option Ty} (hk : types[k]? = some ty) :
    (g.addValues source start types).1.value ⟨g.values.size + k⟩ =
      { ty, source := source (start + k), uses := [] } := by
  induction types generalizing g start k with
  | nil => cases hk
  | cons u rest ih =>
    rw [addValues]
    cases k with
    | zero =>
      cases Option.some.inj hk
      refine (value_addValues_of_hasValue _ source (start + 1) rest ?_).trans ?_
      · rw [HasValue, size_values_pushValue]
        exact Nat.lt_succ_self _
      · exact value_pushValue_self _ _
    | succ k =>
      have hrest := ih (g.pushValue { ty := u, source := source start, uses := [] }).1
        (start + 1) hk
      rw [size_values_pushValue] at hrest
      rw [show g.values.size + (k + 1) = g.values.size + 1 + k by omega,
        show start + (k + 1) = start + 1 + k by omega]
      exact hrest

/-- A value after `addValues` is one of the fresh ones or reads as before. -/
theorem value_addValues (w : ValueId) :
    (∃ k ty, types[k]? = some ty ∧ w = ⟨g.values.size + k⟩ ∧
      (g.addValues source start types).1.value w =
        { ty, source := source (start + k), uses := [] }) ∨
    ((g.addValues source start types).1.HasValue w → g.HasValue w) ∧
      (g.addValues source start types).1.value w = g.value w := by
  by_cases hw : g.HasValue w
  · exact Or.inr ⟨fun _ => hw, value_addValues_of_hasValue g source start types hw⟩
  · obtain ⟨k, rfl⟩ : ∃ k, w = ⟨g.values.size + k⟩ := by
      refine ⟨w.index - g.values.size, ?_⟩
      unfold HasValue at hw
      rw [Nat.add_sub_cancel' (by omega)]
    cases hk : types[k]? with
    | some ty =>
      exact Or.inl ⟨k, ty, hk, rfl, value_addValues_of_getElem? g source start types hk⟩
    | none =>
      -- beyond the fresh values both sides read the default row
      have hout : ¬ (g.addValues source start types).1.HasValue ⟨g.values.size + k⟩ := by
        rw [List.getElem?_eq_none_iff] at hk
        rw [HasValue, size_values_addValues]
        show ¬ g.values.size + k < _
        omega
      exact Or.inr ⟨fun h => absurd h hout,
        by rw [value_of_not_hasValue hw, value_of_not_hasValue hout]⟩

end

/-! ## Slot numbers -/

/-- Numbering the slots of a list from `k` on; `renumber` starts at 0. -/
def renumberFrom (g : Graph) (k : Nat) (slots : List SlotId) : Graph :=
  (slots.zipIdx k).foldl (fun g (s, k) => g.modifySlot s fun x => { x with index := k }) g

theorem renumberFrom_cons (g : Graph) (k : Nat) (s : SlotId) (rest : List SlotId) :
    g.renumberFrom k (s :: rest) =
      (g.modifySlot s fun x => { x with index := k }).renumberFrom (k + 1) rest := rfl

section

variable (g : Graph) (k : Nat) (slots : List SlotId)

/-- What new numbers of slots leave alone, `renumberFrom` does. -/
theorem renumberFrom_keeps {α : Type} {f : Graph → α}
    (hmodify : ∀ g s n, f (g.modifySlot s fun x => { x with index := n }) = f g) :
    f (g.renumberFrom k slots) = f g := by
  induction slots generalizing g k with
  | nil => rfl
  | cons s rest ih =>
    rw [renumberFrom_cons]
    exact (ih _ _).trans (hmodify _ _ _)

@[simp] theorem ops_renumberFrom : (g.renumberFrom k slots).ops = g.ops :=
  renumberFrom_keeps g k slots fun _ _ _ => rfl

@[simp] theorem blocks_renumberFrom : (g.renumberFrom k slots).blocks = g.blocks :=
  renumberFrom_keeps g k slots fun _ _ _ => rfl

@[simp] theorem values_renumberFrom : (g.renumberFrom k slots).values = g.values :=
  renumberFrom_keeps g k slots fun _ _ _ => rfl

@[simp] theorem size_slots_renumberFrom :
    (g.renumberFrom k slots).slots.size = g.slots.size :=
  renumberFrom_keeps (f := (·.slots.size)) g k slots fun _ _ _ => size_slots_modifySlot _ _ _

theorem owner_renumberFrom (t : SlotId) :
    ((g.renumberFrom k slots).slot t).owner = (g.slot t).owner := by
  refine renumberFrom_keeps (f := fun g => (g.slot t).owner) g k slots fun g s n => ?_
  rw [slot_modifySlot]
  split <;> rfl

theorem value_slot_renumberFrom (t : SlotId) :
    ((g.renumberFrom k slots).slot t).value = (g.slot t).value := by
  refine renumberFrom_keeps (f := fun g => (g.slot t).value) g k slots fun g s n => ?_
  rw [slot_modifySlot]
  split <;> rfl

theorem index_renumberFrom_of_not_mem {t : SlotId} (ht : t ∉ slots) :
    ((g.renumberFrom k slots).slot t).index = (g.slot t).index := by
  induction slots generalizing g k with
  | nil => rfl
  | cons s rest ih =>
    rw [List.mem_cons, not_or] at ht
    obtain ⟨hts, hrest⟩ := ht
    rw [renumberFrom_cons, ih _ _ hrest, slot_modifySlot, if_neg fun h => hts h.1.symm]

/-- A slot `t` of a list without repetitions gets the number of its place. -/
theorem index_renumberFrom_of_getElem? (hnodup : slots.Nodup) {n : Nat} {t : SlotId}
    (ht : slots[n]? = some t) (hslot : g.HasSlot t) :
    ((g.renumberFrom k slots).slot t).index = k + n := by
  induction slots generalizing g k n with
  | nil => cases ht
  | cons s rest ih =>
    obtain ⟨hs, hrest⟩ := List.nodup_cons.mp hnodup
    rw [renumberFrom_cons]
    cases n with
    | zero =>
      -- the slot does not occur again, so its number stays
      cases Option.some.inj ht
      rw [index_renumberFrom_of_not_mem _ _ _ hs, slot_modifySlot, if_pos ⟨rfl, hslot⟩]
      rfl
    | succ n =>
      have hslot' : (g.modifySlot s fun x => { x with index := k }).HasSlot t := by
        rw [HasSlot, size_slots_modifySlot]
        exact hslot
      rw [ih _ (k + 1) hrest ht hslot']
      omega

end

/-! ## New operations -/

/-- Adds a row `o` for an operation, with a fresh slot for each of `vals` and a fresh result of each
of `types`. -/
def install (g : Graph) (o : Op) (vals : List (Option ValueId)) (types : List (Option Ty)) :
    Graph :=
  let slots := (g.pushOp o).addSlots g.nextOp 0 vals
  let values := slots.1.addValues (.result g.nextOp) 0 types
  values.1.modifyOp g.nextOp fun o => { o with operands := slots.2, results := values.2 }

theorem addOp_eq_install (g : Graph) (kind : Option OpKind) (spec : OpSpec) :
    g.addOp kind spec =
      (g.install (spec.row kind) (spec.slotValues ((kind.map (·.segments)).getD [])) spec.results,
        g.nextOp) := rfl

section

variable (g : Graph) (o : Op) (vals : List (Option ValueId)) (types : List (Option Ty))

theorem size_ops_install : (g.install o vals types).ops.size = g.ops.size + 1 := by
  simp only [install, size_ops_modifyOp, ops_addValues, ops_addSlots, size_ops_pushOp]

theorem blocks_install : (g.install o vals types).blocks = g.blocks := by
  show (addValues _ _ _ _).1.blocks = _
  rw [blocks_addValues, blocks_addSlots]
  rfl

theorem size_slots_install :
    (g.install o vals types).slots.size = g.slots.size + vals.length := by
  show (addValues _ _ _ _).1.slots.size = _
  rw [slots_addValues, size_slots_addSlots]
  rfl

theorem size_values_install :
    (g.install o vals types).values.size = g.values.size + types.length := by
  show (addValues _ _ _ _).1.values.size = _
  rw [size_values_addValues, size_values_addSlots]
  rfl

/-- `install` adds the new row, and every other operation is as before. -/
theorem op_install (j : OpId) :
    (g.install o vals types).op j =
      if j = g.nextOp then
        { o with
          operands := slotsFrom g.slots.size vals.length
          results := valuesFrom g.values.size types.length }
      else g.op j := by
  -- slots and values are added to the pushed row without touching it
  have hrow : ∀ i, ((((g.pushOp o).addSlots g.nextOp 0 vals).1.addValues
      (.result g.nextOp) 0 types).1).op i = (g.pushOp o).op i := by
    intro i
    rw [op, ops_addValues, ops_addSlots, ← op]
  rw [install, op_modifyOp, hrow, op_pushOp]
  by_cases hj : j = g.nextOp
  · subst hj
    have hlt : g.nextOp.index < (((g.pushOp o).addSlots g.nextOp 0 vals).1.addValues
        (.result g.nextOp) 0 types).1.ops.size := by
      rw [ops_addValues, ops_addSlots, size_ops_pushOp]
      exact Nat.lt_succ_self _
    rw [if_pos rfl, if_pos rfl, if_pos ⟨rfl, hlt⟩]
    simp only [snd_addSlots, snd_addValues, size_values_addSlots]
    rfl
  · rw [if_neg hj, if_neg hj, if_neg fun h => hj h.1.symm]

theorem block_install (b : BlockId) : (g.install o vals types).block b = g.block b := by
  rw [block, blocks_install, ← block]

theorem slot_install_of_hasSlot {s : SlotId} (hs : g.HasSlot s) :
    (g.install o vals types).slot s = g.slot s := by
  show (addValues _ _ _ _).1.slot s = _
  rw [slot, slots_addValues, ← slot]
  exact slot_addSlots_of_hasSlot _ _ _ _ hs

theorem slot_install_of_getElem? {k : Nat} {v : Option ValueId} (hk : vals[k]? = some v) :
    (g.install o vals types).slot ⟨g.slots.size + k⟩ =
      { owner := g.nextOp, index := k, value := v } := by
  show (addValues _ _ _ _).1.slot _ = _
  rw [slot, slots_addValues, ← slot]
  refine (slot_addSlots_of_getElem? (g.pushOp o) g.nextOp 0 vals hk).trans ?_
  rw [Nat.zero_add]

/-- A value `v` that was there gets the slots of the new operation that hold it as its last uses. -/
theorem value_install_of_hasValue {v : ValueId} (hv : g.HasValue v) :
    (g.install o vals types).value v =
      { g.value v with uses := (g.value v).uses ++ readersFrom v g.slots.size vals } := by
  have hthere : ((g.pushOp o).addSlots g.nextOp 0 vals).1.HasValue v := by
    rw [HasValue, size_values_addSlots]
    exact hv
  show (addValues _ _ _ _).1.value v = _
  rw [value_addValues_of_hasValue _ _ _ _ hthere]
  exact value_addSlots_of_hasValue (g.pushOp o) g.nextOp 0 vals hv

/-- The values after `install` are those that were there, with the source that they had, and the new
results. -/
theorem source_install_iff {v : ValueId} {x : Source} :
    (g.install o vals types).HasValue v ∧ ((g.install o vals types).value v).source = x ↔
      g.HasValue v ∧ (g.value v).source = x ∨
        ∃ k < types.length, v = ⟨g.values.size + k⟩ ∧ x = .result g.nextOp k := by
  have hsize : ((g.pushOp o).addSlots g.nextOp 0 vals).1.values.size = g.values.size :=
    size_values_addSlots _ _ _ _
  have hrows : (g.install o vals types).value v =
      (((g.pushOp o).addSlots g.nextOp 0 vals).1.addValues (.result g.nextOp) 0 types).1.value v :=
    rfl
  have hthere : (g.install o vals types).HasValue v ↔ v.index < g.values.size + types.length := by
    rw [HasValue, size_values_install]
  rw [hthere, hrows]
  rcases value_addValues ((g.pushOp o).addSlots g.nextOp 0 vals).1 (.result g.nextOp) 0 types v with
    ⟨k, ty, hk, rfl, hrow⟩ | ⟨hhas, hrow⟩
  · -- a fresh value has no number below the old size, so only the right side can hold
    obtain ⟨hlt, -⟩ := List.getElem?_eq_some_iff.mp hk
    have hout : ¬ g.HasValue ⟨g.values.size + k⟩ := Nat.not_lt.mpr (Nat.le_add_right _ _)
    rw [hsize] at hrow ⊢
    rw [hrow, Nat.zero_add]
    constructor
    · rintro ⟨-, rfl⟩
      exact Or.inr ⟨k, hlt, rfl, rfl⟩
    · rintro (⟨hv, -⟩ | ⟨n, hn, hnk, rfl⟩)
      · exact absurd hv hout
      · have hkn : k = n := Nat.add_left_cancel (congrArg ValueId.index hnk)
        exact ⟨Nat.add_lt_add_left hlt _, by rw [hkn]⟩
  · -- a value that is not one of the fresh ones was there before
    rw [HasValue, size_values_addValues, HasValue, hsize] at hhas
    rw [hrow, source_addSlots]
    constructor
    · rintro ⟨hv, hsource⟩
      exact Or.inl ⟨hhas hv, hsource⟩
    · rintro (⟨hv, hsource⟩ | ⟨n, hn, rfl, rfl⟩)
      · exact ⟨Nat.lt_add_right _ hv, hsource⟩
      · exact absurd (hhas (Nat.add_lt_add_left hn _)) (Nat.not_lt.mpr (Nat.le_add_right _ _))

end

end Graph

end Multistage
