import Mathlib.Algebra.GroupWithZero.Nat
import Mathlib.Logic.Relation
import Multistage.Proofs.Graph.Tables

/-!
# Edits

The changes that everything done to a graph is made of. An `Edit` says when such a change is made
and what it gives; whatever holds of a graph at first and survives every edit holds after any number
of them (`Edits`). The editing functions themselves are shown to be sequences of edits later, each
of them once.
-/

namespace Multistage

/-! ## New rows -/

/-- The segments that the kind of `o` declares. -/
def Op.declared (o : Op) : List String := (o.kind.map (·.segments)).getD []

/-- The segments of an operation are the declared ones, and if there are any, their lengths add up
to `n`. -/
def Op.Tiled (o : Op) (n : Nat) : Prop :=
  o.segments.map (·.1) = o.declared ∧ (o.declared ≠ [] → (o.segments.map (·.2)).sum = n)

/-- The row `o` has no operands and results, is in no block and has no block inside. -/
structure Op.Blank (o : Op) : Prop where
  operands : o.operands = []
  results : o.results = []
  block : o.block = none
  live : o.erased = false
  regions : ∀ blocks ∈ o.regions, blocks = []

namespace Graph

/-- What a new row with `n` operands may be like: that of a kind of the catalog, with segments for
all operands, or the same as that of an operation with as many operands. -/
inductive Origin (cat : Catalog) (g : Graph) (o : Op) (n : Nat) : Prop
  | created (kind : o.kind = cat.find? o.name) (tiled : o.Tiled n)
  | copied (i : OpId) (name : o.name = (g.op i).name) (kind : o.kind = (g.op i).kind)
      (segments : o.segments = (g.op i).segments) (count : n = (g.op i).operands.length)

/-! ## The edits -/

/-- Puts an operation at position `k` of a block, whatever the state of both. -/
def place (g : Graph) (b : BlockId) (k : Nat) (i : OpId) : Graph :=
  (g.modifyBlock b fun x => { x with ops := x.ops.insertIdx k i }).modifyOp i
    fun o => { o with block := some b }

/-- Marks operation `i` as erased. -/
def mark (g : Graph) (i : OpId) : Graph := g.modifyOp i fun o => { o with erased := true }

/-- A single change of the graph `g`, when the kinds of `cat` are known. -/
inductive Edit (cat : Catalog) (g : Graph) : Graph → Prop
  | install (o : Op) (vals : List (Option ValueId)) (types : List (Option Ty)) (blank : o.Blank)
      (origin : g.Origin cat o vals.length) (vals_there : ∀ v ∈ vals, g.HasOptValue v) :
      Edit cat g (g.install o vals types)
  | skip : Edit cat g g.skipOp
  | assign (s : SlotId) (v : Option ValueId) (there : g.HasSlot s) (val_there : g.HasOptValue v) :
      Edit cat g (g.assign s v)
  | splice (i : OpId) (name : String) (start size : Nat) (vals : List ValueId)
      (found : (g.op i).segment? name = some (start, size))
      (inside : start + size ≤ (g.op i).operands.length) (vals_there : ∀ v ∈ vals, g.HasValue v) :
      Edit cat g (g.spliceSegment i name start size vals)
  | place (b : BlockId) (k : Nat) (i : OpId) (b_there : g.HasBlock b) (i_there : g.HasOp i)
      (detached : (g.op i).block = none) (live : (g.op i).erased = false)
      (inside : k ≤ (g.block b).ops.length) :
      Edit cat g (g.place b k i)
  | detach (i : OpId) : Edit cat g (g.detach i)
  | mark (i : OpId) : Edit cat g (g.mark i)
  | addBlock (i : OpId) (r : Nat) (i_there : g.HasOp i) (inside : r < (g.op i).regions.length) :
      Edit cat g (g.addBlock ⟨i, r⟩).1
  | addArgument (b : BlockId) (ty : Option Ty) (b_there : g.HasBlock b) :
      Edit cat g (g.addArgument b ty).1
  | describe (i : OpId) (f : Op → Op)
      (cosmetic : ∀ o, ∃ attrs loc, f o = { o with attrs := attrs, loc := loc }) :
      Edit cat g (g.modifyOp i f)
  | retype (v : ValueId) (ty : Option Ty) : Edit cat g (g.modifyValue v fun x => { x with ty })

/-- Any number of changes, each an `Edit`. -/
abbrev Edits (cat : Catalog) : Graph → Graph → Prop := Relation.ReflTransGen (Edit cat)

/-! ## Rows after placing and detaching -/

section

variable (g : Graph)

theorem op_place (b : BlockId) (k : Nat) (i j : OpId) :
    (g.place b k i).op j =
      if i = j ∧ j.index < g.ops.size then { g.op j with block := some b } else g.op j := by
  rw [place, op_modifyOp]
  rfl

theorem block_place (b c : BlockId) (k : Nat) (i : OpId) :
    (g.place b k i).block c =
      if b = c ∧ c.index < g.blocks.size then
        { g.block c with ops := (g.block c).ops.insertIdx k i }
      else g.block c := by
  rw [place, block_modifyOp, block_modifyBlock]

/-- After `detach` operation `i` is in no block, and all others are as before. -/
theorem op_detach (i j : OpId) :
    (g.detach i).op j = if i = j then { g.op j with block := none } else g.op j := by
  cases hb : (g.op i).block with
  | none =>
    have hg : g.detach i = g := by simp only [detach, hb]
    rw [hg]
    split
    · -- being in no block already, the operation is as it was
      next hij =>
      subst hij
      rw [← hb]
    · rfl
  | some b =>
    have hg : g.detach i = (g.modifyBlock b fun x => { x with ops := x.ops.erase i }).modifyOp i
        fun o => { o with block := none } := by simp only [detach, hb]
    have hi : i.index < g.ops.size := hasOp_of_block_eq_some hb
    rw [hg, op_modifyOp]
    by_cases hij : i = j
    · subst hij
      rw [if_pos rfl, if_pos ⟨rfl, hi⟩]
      rfl
    · rw [if_neg hij, if_neg fun h => hij h.1]
      rfl

/-- After `detach` the block that held `i` lists it once less. -/
theorem block_detach (i : OpId) (c : BlockId) :
    (g.detach i).block c =
      if (g.op i).block = some c then { g.block c with ops := (g.block c).ops.erase i }
      else g.block c := by
  cases hb : (g.op i).block with
  | none =>
    have hg : g.detach i = g := by simp only [detach, hb]
    rw [hg, if_neg nofun]
  | some b =>
    have hg : g.detach i = (g.modifyBlock b fun x => { x with ops := x.ops.erase i }).modifyOp i
        fun o => { o with block := none } := by simp only [detach, hb]
    rw [hg, block_modifyOp, block_modifyBlock]
    by_cases hbc : b = c
    · subst hbc
      rw [if_pos rfl]
      split
      · rfl
      · -- a block that is not there lists nothing
        next hout =>
        rw [block_of_not_hasBlock fun h => hout ⟨rfl, h⟩]
        rfl
    · rw [if_neg fun h => hbc h.1, if_neg fun h => hbc (Option.some.inj h)]

theorem values_detach (i : OpId) : (g.detach i).values = g.values := by
  unfold detach
  split <;> rfl

theorem slots_detach (i : OpId) : (g.detach i).slots = g.slots := by
  unfold detach
  split <;> rfl

theorem value_detach (i : OpId) (v : ValueId) : (g.detach i).value v = g.value v := by
  rw [value, values_detach, ← value]

theorem slot_detach (i : OpId) (s : SlotId) : (g.detach i).slot s = g.slot s := by
  rw [slot, slots_detach, ← slot]

end

/-! ## Tables only grow -/

/-- Every row of `g` is there in `g'`. -/
structure Within (g g' : Graph) : Prop where
  ops : g.ops.size ≤ g'.ops.size
  blocks : g.blocks.size ≤ g'.blocks.size
  values : g.values.size ≤ g'.values.size
  slots : g.slots.size ≤ g'.slots.size

namespace Within

variable {g g' g'' : Graph}

theorem refl (g : Graph) : g.Within g :=
  ⟨Nat.le_refl _, Nat.le_refl _, Nat.le_refl _, Nat.le_refl _⟩

theorem trans (h : g.Within g') (h' : g'.Within g'') : g.Within g'' :=
  ⟨Nat.le_trans h.ops h'.ops, Nat.le_trans h.blocks h'.blocks, Nat.le_trans h.values h'.values,
    Nat.le_trans h.slots h'.slots⟩

theorem hasOp (h : g.Within g') {i : OpId} (hi : g.HasOp i) : g'.HasOp i :=
  Nat.lt_of_lt_of_le hi h.ops

theorem hasBlock (h : g.Within g') {b : BlockId} (hb : g.HasBlock b) : g'.HasBlock b :=
  Nat.lt_of_lt_of_le hb h.blocks

theorem hasValue (h : g.Within g') {v : ValueId} (hv : g.HasValue v) : g'.HasValue v :=
  Nat.lt_of_lt_of_le hv h.values

theorem hasSlot (h : g.Within g') {s : SlotId} (hs : g.HasSlot s) : g'.HasSlot s :=
  Nat.lt_of_lt_of_le hs h.slots

theorem hasOptValue (h : g.Within g') {v : Option ValueId} (hv : g.HasOptValue v) :
    g'.HasOptValue v := fun w hw => h.hasValue (hv w hw)

end Within

theorem within_install (g : Graph) (o : Op) (vals : List (Option ValueId))
    (types : List (Option Ty)) : g.Within (g.install o vals types) where
  ops := by rw [size_ops_install]; omega
  blocks := Nat.le_of_eq (by rw [blocks_install])
  values := by rw [size_values_install]; omega
  slots := by rw [size_slots_install]; omega

theorem within_assign (g : Graph) (s : SlotId) (v : Option ValueId) : g.Within (g.assign s v) where
  ops := Nat.le_of_eq (by rw [ops_assign])
  blocks := Nat.le_of_eq (by rw [blocks_assign])
  values := Nat.le_of_eq (by rw [size_values_assign])
  slots := Nat.le_of_eq (by rw [size_slots_assign])

theorem within_assignAll (g : Graph) (slots : List SlotId) (v : Option ValueId) :
    g.Within (g.assignAll slots v) := by
  induction slots generalizing g with
  | nil => exact Within.refl g
  | cons s rest ih => exact (within_assign g s v).trans (ih (g.assign s v))

theorem within_modifyOp (g : Graph) (i : OpId) (f : Op → Op) : g.Within (g.modifyOp i f) where
  ops := Nat.le_of_eq (by rw [size_ops_modifyOp])
  blocks := Nat.le_refl _
  values := Nat.le_refl _
  slots := Nat.le_refl _

theorem within_modifyBlock (g : Graph) (b : BlockId) (f : Block → Block) :
    g.Within (g.modifyBlock b f) where
  ops := Nat.le_refl _
  blocks := Nat.le_of_eq (by rw [size_blocks_modifyBlock])
  values := Nat.le_refl _
  slots := Nat.le_refl _

theorem within_modifyValue (g : Graph) (v : ValueId) (f : Value → Value) :
    g.Within (g.modifyValue v f) where
  ops := Nat.le_refl _
  blocks := Nat.le_refl _
  values := Nat.le_of_eq (by rw [size_values_modifyValue])
  slots := Nat.le_refl _

theorem within_detach (g : Graph) (i : OpId) : g.Within (g.detach i) := by
  unfold detach
  split
  · exact Within.refl g
  · exact (within_modifyBlock _ _ _).trans (within_modifyOp _ _ _)

theorem within_addSlots (g : Graph) (owner : OpId) (start : Nat) (vals : List (Option ValueId)) :
    g.Within (g.addSlots owner start vals).1 where
  ops := Nat.le_of_eq (by rw [ops_addSlots])
  blocks := Nat.le_of_eq (by rw [blocks_addSlots])
  values := Nat.le_of_eq (by rw [size_values_addSlots])
  slots := by rw [size_slots_addSlots]; omega

theorem within_renumberFrom (g : Graph) (k : Nat) (slots : List SlotId) :
    g.Within (g.renumberFrom k slots) where
  ops := Nat.le_of_eq (by rw [ops_renumberFrom])
  blocks := Nat.le_of_eq (by rw [blocks_renumberFrom])
  values := Nat.le_of_eq (by rw [values_renumberFrom])
  slots := Nat.le_of_eq (by rw [size_slots_renumberFrom])

/-! ## Replacing a stretch of operands -/

/-- The operands of an operation with `n` fresh slots in place of `size` operands from `start`
on. -/
def spliced (g : Graph) (i : OpId) (start size n : Nat) : List SlotId :=
  (g.op i).operands.take start ++ slotsFrom g.slots.size n ++
    (g.op i).operands.drop (start + size)

/-- The `segments` of a kind with another length for `name`. -/
def resized (name : String) (n : Nat) (segments : List (String × Nat)) : List (String × Nat) :=
  segments.map fun (seg, k) => if seg = name then (seg, n) else (seg, k)

/-- What one `assign` leaves alone, any number of them does. -/
theorem assignAll_keeps {α : Type} {f : Graph → α} (hassign : ∀ g s v, f (g.assign s v) = f g)
    (g : Graph) (slots : List SlotId) (v : Option ValueId) : f (g.assignAll slots v) = f g := by
  induction slots generalizing g with
  | nil => rfl
  | cons s rest ih => exact (ih (g.assign s v)).trans (hassign g s v)

section

variable (g : Graph) (slots : List SlotId) (v : Option ValueId)

@[simp] theorem ops_assignAll : (g.assignAll slots v).ops = g.ops :=
  assignAll_keeps ops_assign g slots v

@[simp] theorem blocks_assignAll : (g.assignAll slots v).blocks = g.blocks :=
  assignAll_keeps blocks_assign g slots v

@[simp] theorem owner_assignAll (t : SlotId) :
    ((g.assignAll slots v).slot t).owner = (g.slot t).owner :=
  assignAll_keeps (f := fun g => (g.slot t).owner) (fun g s v => owner_assign g s t v) g slots v

@[simp] theorem index_assignAll (t : SlotId) :
    ((g.assignAll slots v).slot t).index = (g.slot t).index :=
  assignAll_keeps (f := fun g => (g.slot t).index) (fun g s v => index_assign g s t v) g slots v

@[simp] theorem source_assignAll (w : ValueId) :
    ((g.assignAll slots v).value w).source = (g.value w).source :=
  assignAll_keeps (f := fun g => (g.value w).source) (fun g s v => source_assign g s v w) g slots v

@[simp] theorem size_values_assignAll : (g.assignAll slots v).values.size = g.values.size :=
  assignAll_keeps (f := (·.values.size)) size_values_assign g slots v

@[simp] theorem size_slots_assignAll : (g.assignAll slots v).slots.size = g.slots.size :=
  assignAll_keeps (f := (·.slots.size)) size_slots_assign g slots v

end

/-- `spliceSegment` in steps: the old slots let go of their values, the fresh ones are added, all
slots are numbered anew, and the operation gets the new list. -/
theorem spliceSegment_eq (g : Graph) (i : OpId) (name : String) (start size : Nat)
    (vals : List ValueId) :
    g.spliceSegment i name start size vals =
      (((g.assignAll (((g.op i).operands.drop start).take size) none).addSlots i start
        (vals.map some)).1.renumberFrom 0 (g.spliced i start size vals.length)).modifyOp i
          fun o => { o with
            operands := g.spliced i start size vals.length
            segments := resized name vals.length o.segments } := by
  -- the fresh slots are named by the sizes from before the assignments, which keep them
  have hfresh := snd_addSlots
    (g.assignAll (((g.op i).operands.drop start).take size) none) i start (vals.map some)
  rw [size_slots_assignAll, List.length_map] at hfresh
  rw [spliced, ← hfresh]
  rfl

section

variable (g : Graph) (i : OpId) (name : String) (start size : Nat) (vals : List ValueId)

/-- After `spliceSegment` operation `i` has the new operands and lengths, and all others are as
before. -/
theorem op_spliceSegment (j : OpId) :
    (g.spliceSegment i name start size vals).op j = if i = j ∧ j.index < g.ops.size then
      { g.op j with
        operands := g.spliced i start size vals.length
        segments := resized name vals.length (g.op j).segments }
      else g.op j := by
  rw [spliceSegment_eq, op_modifyOp, ops_renumberFrom, ops_addSlots, ops_assignAll, op,
    ops_renumberFrom, ops_addSlots, ops_assignAll, ← op]

theorem blocks_spliceSegment : (g.spliceSegment i name start size vals).blocks = g.blocks := by
  rw [spliceSegment_eq]
  show (renumberFrom _ _ _).blocks = _
  rw [blocks_renumberFrom, blocks_addSlots, blocks_assignAll]

theorem source_spliceSegment (w : ValueId) :
    ((g.spliceSegment i name start size vals).value w).source = (g.value w).source := by
  rw [spliceSegment_eq, value_modifyOp, value, values_renumberFrom, ← value, source_addSlots,
    source_assignAll]

theorem size_values_spliceSegment :
    (g.spliceSegment i name start size vals).values.size = g.values.size := by
  rw [spliceSegment_eq]
  show (renumberFrom _ _ _).values.size = _
  rw [values_renumberFrom, size_values_addSlots, size_values_assignAll]

end

theorem within_spliceSegment (g : Graph) (i : OpId) (name : String) (start size : Nat)
    (vals : List ValueId) : g.Within (g.spliceSegment i name start size vals) := by
  rw [spliceSegment_eq]
  -- each of the four steps adds rows or leaves their number alone
  exact (within_assignAll _ _ _).trans <| (within_addSlots _ _ _ _).trans <|
    (within_renumberFrom _ _ _).trans (within_modifyOp _ _ _)

/-- An `Edit` takes no row away. -/
theorem Edit.within {cat : Catalog} {g g' : Graph} (h : Edit cat g g') : g.Within g' := by
  cases h with
  | install o vals types => exact within_install g o vals types
  | skip =>
    exact ⟨by rw [skipOp, size_ops_pushOp]; omega, Nat.le_refl _, Nat.le_refl _, Nat.le_refl _⟩
  | assign s v => exact within_assign g s v
  | splice i name start size vals => exact within_spliceSegment g i name start size vals
  | place b k i => exact (within_modifyBlock _ _ _).trans (within_modifyOp _ _ _)
  | detach i => exact within_detach g i
  | mark i => exact within_modifyOp _ _ _
  | addBlock i r =>
    -- the block is new, and its region only lists it
    refine Within.trans ?_ (within_modifyOp _ _ _)
    exact ⟨Nat.le_refl _, by simp only [Array.size_push]; omega, Nat.le_refl _,
      Nat.le_refl _⟩
  | addArgument b ty =>
    refine Within.trans ?_ (within_modifyBlock _ _ _)
    exact ⟨Nat.le_refl _, Nat.le_refl _, by simp only [Array.size_push]; omega, Nat.le_refl _⟩
  | describe i f => exact within_modifyOp g i f
  | retype v ty => exact within_modifyValue g v _

theorem Edits.within {cat : Catalog} {g g' : Graph} (h : Edits cat g g') : g.Within g' := by
  induction h with
  | refl => exact Within.refl g
  | tail _ hlast ih => exact ih.trans hlast.within

end Graph

end Multistage
