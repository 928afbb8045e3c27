import Multistage.Proofs.Graph.Growth

/-!
# The stages of a copy

The graph after any number of parts of a tree have been copied can be said beforehand (`Stage`): the
copies of the parts that were done, as far as they are filled, and everything else as it was but for
the ends of use lists. Each of the three kinds of parts leads from one stage to the next, and so a
copy of a whole tree leads to the last one.
-/

namespace Multistage

namespace Graph

/-! ## Stages -/

/-- The blocks of region `r` among the parts `done`. -/
def blocksIn (g : Graph) (done : List Part) (r : RegionId) : List BlockId :=
  (done.filterMap Part.block?).filter fun b => decide ((g.block b).home = some r)

/-- The operations of block `b` that are `placed` among the parts `done`. -/
def opsIn (g : Graph) (done : List Part) (b : BlockId) : List OpId :=
  (done.filterMap Part.placed?).filter fun c => decide ((g.op c).block = some b)

/-- The row of the copy of `i`: its regions and its place as far as they are `done`. -/
def copiedOp (g : Graph) (φ : Renaming) (done : List Part) (i : OpId) (slots : List SlotId) : Op :=
  { g.op i with
    operands := slots
    results := (g.op i).results.map φ.value
    regions := (g.op i).regions.mapIdx fun r _ => (g.blocksIn done ⟨i, r⟩).map φ.block
    block := if Part.placed i ∈ done then (g.op i).block.map φ.block else none
    erased := false }

/-- The row of the copy of `b`, as far as its operations are `done`. -/
def copiedBlock (g : Graph) (φ : Renaming) (done : List Part) (b : BlockId) : Block where
  args := (g.block b).args.map φ.value
  ops := (g.opsIn done b).map φ.op
  home := (g.block b).home.map φ.region

/-- What has to be `done` before a part: the operation of a block, and an operation and its block
before the operation gets its place. -/
def Part.Ready (g : Graph) (done : List Part) : Part → Prop
  | op _ => True
  | block b => ∀ r, (g.block b).home = some r → .op r.op ∈ done
  | placed i => .op i ∈ done ∧ ∀ b, (g.op i).block = some b → .block b ∈ done

theorem Part.Ready.mono {g : Graph} {done done' : List Part} {p : Part} (h : p.Ready g done)
    (hsubset : done ⊆ done') : p.Ready g done' := by
  cases p with
  | op i => trivial
  | block b => exact fun r hr => hsubset (h r hr)
  | placed i => exact ⟨hsubset h.1, fun b hb => hsubset (h.2 b hb)⟩

variable {done : List Part}

section

variable (g : Graph) (done : List Part)

@[simp] theorem blocksIn_concat_op (i : OpId) (r : RegionId) :
    g.blocksIn (done ++ [.op i]) r = g.blocksIn done r := by
  simp [blocksIn, Part.block?]

@[simp] theorem blocksIn_concat_placed (i : OpId) (r : RegionId) :
    g.blocksIn (done ++ [.placed i]) r = g.blocksIn done r := by
  simp [blocksIn, Part.block?]

theorem blocksIn_concat_block (b : BlockId) (r : RegionId) :
    g.blocksIn (done ++ [.block b]) r =
      g.blocksIn done r ++ if (g.block b).home = some r then [b] else [] := by
  simp only [blocksIn, List.filterMap_append, List.filter_append]
  congr 1
  by_cases hb : (g.block b).home = some r <;> simp [Part.block?, hb]

@[simp] theorem opsIn_concat_op (i : OpId) (b : BlockId) :
    g.opsIn (done ++ [.op i]) b = g.opsIn done b := by
  simp [opsIn, Part.placed?]

@[simp] theorem opsIn_concat_block (c b : BlockId) :
    g.opsIn (done ++ [.block c]) b = g.opsIn done b := by
  simp [opsIn, Part.placed?]

theorem opsIn_concat_placed (i : OpId) (b : BlockId) :
    g.opsIn (done ++ [.placed i]) b =
      g.opsIn done b ++ if (g.op i).block = some b then [i] else [] := by
  simp only [opsIn, List.filterMap_append, List.filter_append]
  congr 1
  by_cases hb : (g.op i).block = some b <;> simp [Part.placed?, hb]

variable {g done}

/-- A region `r` of an operation that is still to be copied has no copied blocks. -/
theorem blocksIn_eq_nil (hready : ∀ p ∈ done, p.Ready g done) {r : RegionId}
    (hr : Part.op r.op ∉ done) : g.blocksIn done r = [] := by
  apply List.filter_eq_nil_iff.mpr
  intro b hb
  obtain ⟨p, hp, hpb⟩ := List.mem_filterMap.mp hb
  obtain rfl : p = .block b := Part.block?_inj _ _ b hpb rfl
  rw [decide_eq_true_iff]
  exact fun hhome => hr (hready _ hp r hhome)

/-- No operation has got its place in a block `b` that is still to be copied. -/
theorem opsIn_eq_nil (hready : ∀ p ∈ done, p.Ready g done) {b : BlockId}
    (hb : Part.block b ∉ done) : g.opsIn done b = [] := by
  apply List.filter_eq_nil_iff.mpr
  intro i hi
  obtain ⟨p, hp, hpi⟩ := List.mem_filterMap.mp hi
  obtain rfl : p = .placed i := Part.placed?_inj _ _ i hpi rfl
  rw [decide_eq_true_iff]
  exact fun hblock => hb ((hready _ hp).2 b hblock)

end

/-- A part of `done ++ [p]` is `p` or one of the others. -/
theorem concat_eq_append_cons {p q : Part} {before after : List Part}
    (h : done ++ [p] = before ++ q :: after) :
    before = done ∧ q = p ∨ ∃ rest, done = before ++ q :: rest := by
  rcases List.eq_nil_or_concat' after with rfl | ⟨rest, last, rfl⟩
  · obtain ⟨hdone, hlast⟩ := List.append_inj' h rfl
    exact Or.inl ⟨hdone.symm, (List.head_eq_of_cons_eq hlast).symm⟩
  · rw [← List.cons_append, ← List.append_assoc] at h
    exact Or.inr ⟨rest, (List.append_inj' h rfl).1⟩

theorem typeOf_install_of_getElem? (g : Graph) (o : Op) (vals : List (Option ValueId))
    {types : List (Option Ty)} {k : Nat} {ty : Option Ty} (hk : types[k]? = some ty) :
    (g.install o vals types).typeOf ⟨g.values.size + k⟩ = ty := by
  have hrow := value_addValues_of_getElem? ((g.pushOp o).addSlots g.nextOp 0 vals).1
    (.result g.nextOp) 0 types hk
  rw [size_values_addSlots] at hrow
  exact congrArg Value.ty hrow

theorem operands_install_self (g : Graph) (o : Op) (vals : List (Option ValueId))
    (types : List (Option Ty)) : (g.install o vals types).operands g.nextOp = vals := by
  rw [operands, op_install, if_pos rfl]
  -- slot by slot: a new slot holds what it was installed with
  apply List.ext_getElem?
  intro k
  show ((slotsFrom g.slots.size vals.length).map _)[k]? = vals[k]?
  rw [List.getElem?_map]
  cases hk : vals[k]? with
  | none =>
    have hlength := List.getElem?_eq_none_iff.mp hk
    rw [List.getElem?_eq_none, Option.map_none]
    rw [slotsFrom, List.length_map, List.length_range']
    exact hlength
  | some v =>
    have hlt := (List.getElem?_eq_some_iff.mp hk).1
    rw [(getElem?_slotsFrom (s := ⟨g.slots.size + k⟩)).mpr ⟨hlt, rfl⟩, Option.map_some,
      slot_install_of_getElem? g o vals types hk]

/-! ## Rows of a new block -/

/-- The graph with a new block in region `r`, with arguments of these `types`. -/
def withBlock (g : Graph) (r : RegionId) (types : List (Option Ty)) : Graph :=
  ((g.addBlock r).1.addArguments ⟨g.blocks.size⟩ types).1

theorem copyBlock_eq_withBlock (r : RegionId) (b : BlockId) (g : Graph) (m : Mapping) :
    copyBlock r b (g, m) =
      (⟨g.blocks.size⟩, g.withBlock r ((g.block b).args.map g.typeOf),
        m.insertAll (g.block b).args (valuesFrom g.values.size (g.block b).args.length)) := by
  rw [copyBlock_eq, snd_addArguments, List.length_map]
  rfl

section

variable (g : Graph) (r : RegionId) (types : List (Option Ty))

/-- `withBlock` changes the row of `r.op` only, and only in its regions. -/
theorem op_withBlock (j : OpId) :
    (g.withBlock r types).op j = if r.op = j ∧ j.index < g.ops.size then
      { g.op j with regions := (g.op j).regions.modify r.index (· ++ [⟨g.blocks.size⟩]) }
      else g.op j := by
  rw [withBlock, op, ops_addArguments, ← op, Owned.op_addBlock]

theorem block_withBlock (c : BlockId) :
    (g.withBlock r types).block c = if c = ⟨g.blocks.size⟩ then
      { args := valuesFrom g.values.size types.length, home := some r } else g.block c := by
  have hthere : (⟨g.blocks.size⟩ : BlockId).index < (g.addBlock r).1.blocks.size := by
    show g.blocks.size < (g.blocks.push _).size
    rw [Array.size_push]
    exact Nat.lt_succ_self _
  rw [withBlock, block_addArguments, Owned.block_addBlock]
  by_cases hc : c = ⟨g.blocks.size⟩
  · subst hc
    rw [if_pos ⟨rfl, hthere⟩, if_pos rfl, if_pos rfl]
    rfl
  · rw [if_neg fun hcond => hc hcond.1.symm, if_neg hc, if_neg hc]

theorem slots_withBlock : (g.withBlock r types).slots = g.slots := slots_addArguments _ _ _

theorem operands_op_withBlock (j : OpId) :
    ((g.withBlock r types).op j).operands = (g.op j).operands := by
  rw [op_withBlock]
  split <;> rfl

theorem value_withBlock_of_hasValue {v : ValueId} (hv : g.HasValue v) :
    (g.withBlock r types).value v = g.value v :=
  value_addArguments_of_hasValue (g.addBlock r).1 _ _ hv

theorem size_ops_withBlock : (g.withBlock r types).ops.size = g.ops.size := by
  rw [withBlock, ops_addArguments]
  exact Array.size_modify

theorem size_blocks_withBlock : (g.withBlock r types).blocks.size = g.blocks.size + 1 := by
  rw [withBlock, size_blocks_addArguments]
  exact Array.size_push _

theorem size_values_withBlock :
    (g.withBlock r types).values.size = g.values.size + types.length :=
  size_values_addArguments (g.addBlock r).1 _ types

end

end Graph

open Multistage.Graph

/-- A graph and a mapping in which the parts of `done` have been copied. -/
structure Stage (g : Graph) (m : Mapping) (parts done : List Part) (s : Graph × Mapping) :
    Prop where
  initial : done <+: parts
  ready : ∀ p ∈ done, p.Ready g done
  ops : s.1.ops.size = g.ops.size + (done.filterMap Part.op?).length
  blocks : s.1.blocks.size = g.blocks.size + (done.filterMap Part.block?).length
  values : s.1.values.size = g.values.size + (done.flatMap (Part.values g)).length
  mapping : s.2 = m.insertAll (done.flatMap (Part.values g))
    ((done.flatMap (Part.values g)).map (g.freshNames parts).value)
  grows : g.Enlarges s.1 ⟨g.blocks.size⟩
  op : ∀ i, Part.op i ∈ done → ∃ slots, (∀ t ∈ slots, s.1.HasSlot t) ∧
    s.1.op ((g.freshNames parts).op i) = g.copiedOp (g.freshNames parts) done i slots
  operands : ∀ before i after, done = before ++ .op i :: after →
    s.1.operands ((g.freshNames parts).op i) = (g.operands i).map
      (m.insertAll (before.flatMap (Part.values g))
        ((before.flatMap (Part.values g)).map (g.freshNames parts).value)).get
  block : ∀ b, Part.block b ∈ done →
    s.1.block ((g.freshNames parts).block b) = g.copiedBlock (g.freshNames parts) done b
  types : ∀ v ∈ done.flatMap (Part.values g),
    s.1.typeOf ((g.freshNames parts).value v) = g.typeOf v
  slots : ∀ t, s.1.HasSlot t → g.HasSlot t ∨
    ∃ i, Part.op i ∈ done ∧ t ∈ (s.1.op ((g.freshNames parts).op i)).operands

namespace Stage

variable {g : Graph} {m : Mapping} {parts done : List Part} {s : Graph × Mapping}

theorem start (g : Graph) (m : Mapping) (parts : List Part) : Stage g m parts [] (g, m) where
  initial := List.nil_prefix
  ready := nofun
  ops := rfl
  blocks := rfl
  values := rfl
  mapping := rfl
  grows := .refl g _
  op := nofun
  operands before i after h := by
    have hlength := congrArg List.length h
    simp at hlength
  block := nofun
  types := nofun
  slots t ht := Or.inl ht

/-! ### What is there -/

section

variable (h : Stage g m parts done s)

include h

theorem hasOp {i : OpId} (hi : Part.op i ∈ done) : s.1.HasOp ((g.freshNames parts).op i) := by
  have hmem : i ∈ done.filterMap Part.op? := List.mem_filterMap.mpr ⟨_, hi, rfl⟩
  have hlt := idxOf_lt_of_mem_initial (h.initial.filterMap Part.op?) hmem
  rw [HasOp, h.ops]
  exact Nat.add_lt_add_left hlt _

theorem hasBlock {b : BlockId} (hb : Part.block b ∈ done) :
    s.1.HasBlock ((g.freshNames parts).block b) := by
  have hmem : b ∈ done.filterMap Part.block? := List.mem_filterMap.mpr ⟨_, hb, rfl⟩
  have hlt := idxOf_lt_of_mem_initial (h.initial.filterMap Part.block?) hmem
  rw [HasBlock, h.blocks]
  exact Nat.add_lt_add_left hlt _

theorem hasValue {v : ValueId} (hv : v ∈ done.flatMap (Part.values g)) :
    s.1.HasValue ((g.freshNames parts).value v) := by
  have hinit : done.flatMap (Part.values g) <+: parts.flatMap (Part.values g) := by
    obtain ⟨rest, rfl⟩ := h.initial
    rw [List.flatMap_append]
    exact List.prefix_append _ _
  have hlt := idxOf_lt_of_mem_initial hinit hv
  rw [HasValue, h.values]
  exact Nat.add_lt_add_left hlt _

theorem block_original {b : BlockId} (hb : g.HasBlock b) : s.1.block b = g.block b := by
  apply h.grows.block b hb
  rintro rfl
  exact Nat.lt_irrefl _ hb

end

/-! ### One part more -/

theorem not_mem_of_next (hnodup : parts.Nodup) {p : Part} (hnext : done ++ [p] <+: parts) :
    p ∉ done := by
  have hparts := hnext.sublist.nodup hnodup
  rw [List.nodup_append] at hparts
  exact fun hp => hparts.2.2 p hp p (List.mem_singleton_self p) rfl

theorem ready_concat (h : Stage g m parts done s) {p : Part} (hp : p.Ready g done) :
    ∀ q ∈ done ++ [p], q.Ready g (done ++ [p]) := by
  intro q hq
  rcases List.mem_append.mp hq with hq | hq
  · exact (h.ready q hq).mono (List.subset_append_left _ _)
  · rw [List.mem_singleton] at hq
    subst hq
    exact hp.mono (List.subset_append_left _ _)

/-- The mapping after one more part `p`. -/
theorem mapping_concat (h : Stage g m parts done s) (p : Part) :
    s.2.insertAll (p.values g) ((p.values g).map (g.freshNames parts).value) =
      m.insertAll ((done ++ [p]).flatMap (Part.values g))
        (((done ++ [p]).flatMap (Part.values g)).map (g.freshNames parts).value) := by
  rw [h.mapping, Mapping.insertAll_append (List.length_map _).symm, ← List.map_append,
    List.flatMap_append, List.flatMap_singleton]

/-- The values of the next part `p` get the numbers that are free. -/
theorem map_values_next (h : Stage g m parts done s) (hwf : g.WellFormed) (hnodup : parts.Nodup)
    {p : Part} (hnext : done ++ [p] <+: parts) :
    (p.values g).map (g.freshNames parts).value =
      valuesFrom s.1.values.size (p.values g).length := by
  rw [h.values]
  exact freshNames_values_next hnodup hwf.owned hnext

theorem types_concat (h : Stage g m parts done s) (hwf : g.WellFormed) (hnodup : parts.Nodup)
    {p : Part} (hnext : done ++ [p] <+: parts) {g₂ : Graph}
    (hold : ∀ v, s.1.HasValue v → g₂.typeOf v = s.1.typeOf v)
    (hnew : ∀ k ty, ((p.values g).map g.typeOf)[k]? = some ty →
      g₂.typeOf ⟨s.1.values.size + k⟩ = ty) :
    ∀ v ∈ (done ++ [p]).flatMap (Part.values g),
      g₂.typeOf ((g.freshNames parts).value v) = g.typeOf v := by
  intro v hv
  rw [List.flatMap_append, List.flatMap_singleton, List.mem_append] at hv
  rcases hv with hv | hv
  · rw [hold _ (h.hasValue hv)]
    exact h.types v hv
  · obtain ⟨k, hk⟩ := List.mem_iff_getElem?.mp hv
    -- the parts before it are the same list, so its values are found at the positions behind theirs
    have hfresh : ((p.values g).map (g.freshNames parts).value)[k]? =
        some ((g.freshNames parts).value v) := by
      rw [List.getElem?_map, hk, Option.map_some]
    rw [h.map_values_next hwf hnodup hnext] at hfresh
    rw [(getElem?_valuesFrom.mp hfresh).2]
    apply hnew
    rw [List.getElem?_map, hk, Option.map_some]

section

variable (h : Stage g m parts done s) (p : Part) {g₂ : Graph} (hslots : g₂.slots = s.1.slots)
  (hreads : ∀ j, (g₂.op j).operands = (s.1.op j).operands)

include h hslots hreads

/-- A part that is no operation leaves the operands of the copies as they are. -/
theorem operands_concat (hp : p.op? = none) :
    ∀ before i after, done ++ [p] = before ++ .op i :: after →
      g₂.operands ((g.freshNames parts).op i) = (g.operands i).map
        (m.insertAll (before.flatMap (Part.values g))
          ((before.flatMap (Part.values g)).map (g.freshNames parts).value)).get := by
  intro before i after hsplit
  rcases concat_eq_append_cons hsplit with ⟨-, rfl⟩ | ⟨rest, rfl⟩
  · cases hp
  · rw [← h.operands before i rest rfl, Graph.operands, Graph.operands, hreads]
    simp only [slot, hslots]

theorem slots_concat : ∀ t, g₂.HasSlot t → g.HasSlot t ∨
    ∃ i, Part.op i ∈ done ++ [p] ∧ t ∈ (g₂.op ((g.freshNames parts).op i)).operands := by
  intro t ht
  rw [HasSlot, hslots] at ht
  rcases h.slots t ht with hfirst | ⟨i, hi, hti⟩
  · exact Or.inl hfirst
  · refine Or.inr ⟨i, List.mem_append_left _ hi, ?_⟩
    rw [hreads]
    exact hti

end

/-- The row of the next operation `i`: its regions have no blocks yet, and it has no place. -/
theorem copiedOp_next (h : Stage g m parts done s) {i : OpId} (hnew : Part.op i ∉ done)
    (φ : Renaming) (slots : List SlotId) :
    g.copiedOp φ (done ++ [.op i]) i slots =
      { copyRow (g.op i) with operands := slots, results := (g.op i).results.map φ.value } := by
  -- a block of the operation, or its place, would have had to wait for the operation
  have hregions : ((g.op i).regions.mapIdx fun r _ =>
      (g.blocksIn (done ++ [.op i]) ⟨i, r⟩).map φ.block) = (g.op i).regions.map fun _ => [] := by
    apply List.ext_getElem?
    intro r
    rw [List.getElem?_map, List.getElem?_mapIdx, blocksIn_concat_op,
      blocksIn_eq_nil h.ready hnew, List.map_nil]
  have hplaced : Part.placed i ∉ done ++ [.op i] := by
    intro hmem
    rcases List.mem_append.mp hmem with hmem | hmem
    · exact hnew (h.ready _ hmem).1
    · cases List.mem_singleton.mp hmem
  rw [copiedOp, hregions, if_neg hplaced, copyRow]

/-- The row of the next block `b`: nothing has got its place in it yet. -/
theorem copiedBlock_next (h : Stage g m parts done s) {b : BlockId} (hnew : Part.block b ∉ done)
    (φ : Renaming) :
    g.copiedBlock φ (done ++ [.block b]) b =
      { args := (g.block b).args.map φ.value, ops := [], home := (g.block b).home.map φ.region } := by
  rw [copiedBlock, opsIn_concat_block, opsIn_eq_nil h.ready hnew, List.map_nil]

section

variable {g₁ : Graph} {m₁ : Mapping} (h : Stage g m parts done (g₁, m₁)) (o : Op)
  (vals : List (Option ValueId)) (types : List (Option Ty)) {i : OpId} (hi : Part.op i ∈ done)

include h hi

/-- `install` leaves the rows of the copies alone, and what they read. -/
theorem op_install_copied : (g₁.install o vals types).op ((g.freshNames parts).op i) =
    g₁.op ((g.freshNames parts).op i) := by
  rw [op_install, if_neg (h.hasOp hi).ne_nextOp]

theorem operands_install_copied :
    (g₁.install o vals types).operands ((g.freshNames parts).op i) =
      g₁.operands ((g.freshNames parts).op i) := by
  obtain ⟨slots, hslots, hop⟩ := h.op i hi
  rw [Graph.operands, Graph.operands, h.op_install_copied o vals types hi]
  apply List.map_congr_left
  intro t ht
  rw [hop] at ht
  rw [slot_install_of_hasSlot _ _ _ _ (hslots t ht)]

end

/-- `copyHead` comes to the stage with `.op i`. -/
theorem copyHead (h : Stage g m parts done s) (hwf : g.WellFormed) (hnodup : parts.Nodup)
    {i : OpId} (hi : g.HasOp i) (hnext : done ++ [.op i] <+: parts) :
    (copyHead i s).1 = (g.freshNames parts).op i ∧
      Stage g m parts (done ++ [.op i]) (copyHead i s).2 := by
  obtain ⟨g₁, m₁⟩ := s
  -- the original is still as it was, and what the copy gets are the next free numbers
  have hrow : g₁.op i = g.op i := h.grows.op i hi
  have hoperands : g₁.operands i = g.operands i := h.grows.operands hwf hi
  have htypes : g₁.resultTypes i = g.resultTypes i := h.grows.resultTypes hwf hi
  have hname : (g.freshNames parts).op i = g₁.nextOp := by
    rw [freshNames_op_next hnodup hnext, ← h.ops]
    rfl
  have hlength : (g.resultTypes i).length = (g.op i).results.length := List.length_map _
  have hresults : (g.op i).results.map (g.freshNames parts).value =
      valuesFrom g₁.values.size (g.resultTypes i).length := by
    rw [hlength]
    exact h.map_values_next hwf hnodup hnext
  have hnew := not_mem_of_next hnodup hnext
  rw [copyHead_eq, hrow, hoperands, htypes, ← hresults]
  set vals := (g.operands i).map m₁.get with hvals
  have hself : (g₁.install (copyRow (g.op i)) vals (g.resultTypes i)).op
      ((g.freshNames parts).op i) = g.copiedOp (g.freshNames parts) (done ++ [.op i]) i
        (slotsFrom g₁.slots.size vals.length) := by
    rw [op_install, if_pos hname, h.copiedOp_next hnew, hresults]
  refine ⟨hname.symm, ?_⟩
  constructor
  case initial => exact hnext
  case ready => exact h.ready_concat trivial
  case ops =>
    have hops : g₁.ops.size = _ := h.ops
    rw [size_ops_install, hops, List.filterMap_append, List.length_append]
    rfl
  case blocks =>
    rw [blocks_install, List.filterMap_append, List.length_append]
    exact h.blocks
  case values =>
    have hsize : g₁.values.size = _ := h.values
    rw [size_values_install, hsize, hlength, List.flatMap_append, List.length_append,
      List.flatMap_singleton, Nat.add_assoc]
    rfl
  case mapping => exact h.mapping_concat (.op i)
  case grows => exact h.grows.install _ _ _
  case op =>
    intro j hj
    rcases List.mem_append.mp hj with hj | hj
    · obtain ⟨slots, hslots, hop⟩ := h.op j hj
      refine ⟨slots, fun t ht => (within_install _ _ _ _).hasSlot (hslots t ht), ?_⟩
      rw [h.op_install_copied _ _ _ hj, hop]
      simp [copiedOp]
    · cases List.mem_singleton.mp hj
      refine ⟨_, fun t ht => ?_, hself⟩
      rw [HasSlot, size_slots_install]
      exact (mem_slotsFrom.mp ht).2
  case operands =>
    intro before j after hsplit
    -- the new operation reads what the mapping knew before it; the others read what they did
    rcases concat_eq_append_cons hsplit with ⟨rfl, hj⟩ | ⟨rest, rfl⟩
    · cases hj
      have hmapping : m₁ = _ := h.mapping
      rw [hname, operands_install_self, hvals, hmapping]
    · rw [h.operands_install_copied _ _ _ (by simp), h.operands before j rest rfl]
  case block =>
    intro b hb
    have hb : Part.block b ∈ done := by simpa using hb
    rw [block_install, h.block b hb]
    simp [copiedBlock]
  case types =>
    apply h.types_concat hwf hnodup hnext
    · intro v hv
      rw [typeOf, value_install_of_hasValue _ _ _ _ hv, typeOf]
    · exact fun k ty hk => typeOf_install_of_getElem? _ _ _ hk
  case slots =>
    intro t ht
    -- a slot is new exactly if it is one of the new operation
    by_cases hthere : g₁.HasSlot t
    · rcases h.slots t hthere with hfirst | ⟨j, hj, htj⟩
      · exact Or.inl hfirst
      · refine Or.inr ⟨j, List.mem_append_left _ hj, ?_⟩
        rw [h.op_install_copied _ _ _ hj]
        exact htj
    · refine Or.inr ⟨i, List.mem_append_right _ (List.mem_singleton_self _), ?_⟩
      rw [hself]
      apply mem_slotsFrom.mpr
      rw [HasSlot, size_slots_install] at ht
      exact ⟨Nat.not_lt.mp hthere, ht⟩

/-- The regions of the copy of `r.op` when its block `b` is copied. -/
theorem copiedOp_concat_block_self {φ : Renaming} {b : BlockId} {r : RegionId}
    (hb : (g.block b).home = some r) (slots : List SlotId) :
    g.copiedOp φ (done ++ [.block b]) r.op slots =
      { g.copiedOp φ done r.op slots with
        regions := (g.copiedOp φ done r.op slots).regions.modify r.index (· ++ [φ.block b]) } := by
  have hregions : ((g.op r.op).regions.mapIdx fun k _ =>
      (g.blocksIn (done ++ [.block b]) ⟨r.op, k⟩).map φ.block) =
      ((g.op r.op).regions.mapIdx fun k _ => (g.blocksIn done ⟨r.op, k⟩).map φ.block).modify r.index
        (· ++ [φ.block b]) := by
    apply List.ext_getElem?
    intro k
    rw [List.getElem?_mapIdx, List.getElem?_modify, List.getElem?_mapIdx, blocksIn_concat_block, hb]
    -- the entry of the region that the block is in grows, the others do not
    by_cases hk : r.index = k
    · have hself : some r = some ⟨r.op, k⟩ := by rw [← hk]
      simp [hk, hself, Function.comp_def]
    · have hother : ¬ some r = some ⟨r.op, k⟩ := fun heq =>
        hk (congrArg RegionId.index (Option.some.inj heq))
      simp [hk, hother]
  simp [copiedOp, hregions]

/-- A block `b` of another operation does not matter. -/
theorem copiedOp_concat_block_of_ne {φ : Renaming} {b : BlockId} {r : RegionId}
    (hb : (g.block b).home = some r) {i : OpId} (hi : i ≠ r.op) (slots : List SlotId) :
    g.copiedOp φ (done ++ [.block b]) i slots = g.copiedOp φ done i slots := by
  have hblocks : ∀ k, g.blocksIn (done ++ [.block b]) ⟨i, k⟩ = g.blocksIn done ⟨i, k⟩ := by
    intro k
    rw [blocksIn_concat_block, hb, if_neg, List.append_nil]
    exact fun heq => hi (congrArg RegionId.op (Option.some.inj heq)).symm
  simp [copiedOp, hblocks]

/-- `copyBlock` comes to the stage with `.block b`, in the copy of `r.op`. -/
theorem copyBlock (h : Stage g m parts done s) (hwf : g.WellFormed) (hnodup : parts.Nodup)
    {r : RegionId} {b : BlockId} (hb : (g.block b).home = some r) (hr : Part.op r.op ∈ done)
    (hnext : done ++ [.block b] <+: parts) :
    (copyBlock ((g.freshNames parts).region r) b s).1 = (g.freshNames parts).block b ∧
      Stage g m parts (done ++ [.block b])
        (copyBlock ((g.freshNames parts).region r) b s).2 := by
  obtain ⟨g₁, m₁⟩ := s
  -- the original is still as it was, and what the copy gets are the next free numbers
  have hrow : g₁.block b = g.block b := h.block_original (hasBlock_of_home_eq_some hb)
  have htypes : (g.block b).args.map g₁.typeOf = (g.block b).args.map g.typeOf := by
    apply List.map_congr_left
    intro v hv
    exact h.grows.typeOf (Part.mem_values (p := .block b) hwf.owned hv).1
  have hname : (g.freshNames parts).block b = ⟨g₁.blocks.size⟩ := by
    rw [freshNames_block_next hnodup hnext, ← h.blocks]
  have hlength : ((g.block b).args.map g.typeOf).length = (g.block b).args.length :=
    List.length_map _
  have hargs : (g.block b).args.map (g.freshNames parts).value =
      valuesFrom g₁.values.size (g.block b).args.length := h.map_values_next hwf hnodup hnext
  have hnew := not_mem_of_next hnodup hnext
  have hfresh : ¬ g.HasBlock ⟨g₁.blocks.size⟩ := by
    rw [← hname]
    exact not_hasBlock_freshNames b
  rw [copyBlock_eq_withBlock, hrow, htypes, ← hargs]
  set types := (g.block b).args.map g.typeOf
  refine ⟨hname.symm, ?_⟩
  constructor
  case initial => exact hnext
  case ready =>
    apply h.ready_concat
    intro r₂ hr₂
    rw [hb] at hr₂
    cases hr₂
    exact hr
  case ops =>
    rw [size_ops_withBlock, List.filterMap_append, List.length_append]
    exact h.ops
  case blocks =>
    have hblocks : g₁.blocks.size = _ := h.blocks
    rw [size_blocks_withBlock, hblocks, List.filterMap_append, List.length_append]
    rfl
  case values =>
    have hvalues : g₁.values.size = _ := h.values
    rw [size_values_withBlock, hvalues, hlength, List.flatMap_append, List.length_append,
      List.flatMap_singleton, Nat.add_assoc]
    rfl
  case mapping => exact h.mapping_concat (.block b)
  case grows => exact (h.grows.addBlock (not_hasOp_freshNames _)).addArguments hfresh _
  case op =>
    intro j hj
    have hj : Part.op j ∈ done := by simpa using hj
    obtain ⟨slots, hthere, hold⟩ := h.op j hj
    refine ⟨slots, fun t ht => ?_, ?_⟩
    · rw [HasSlot, slots_withBlock]
      exact hthere t ht
    · rw [op_withBlock, hold]
      by_cases hjr : j = r.op
      · subst hjr
        rw [if_pos ⟨rfl, h.hasOp hj⟩, copiedOp_concat_block_self hb, hname]
        rfl
      · -- the names of copies differ, so a copy of another operation is not the one that grew
        rw [if_neg, copiedOp_concat_block_of_ne hb hjr]
        rintro ⟨heq, -⟩
        exact hjr (freshNames_op_inj (h.initial.subset hr) heq).symm
  case operands =>
    exact h.operands_concat _ (slots_withBlock _ _ _) (operands_op_withBlock _ _ _) rfl
  case block =>
    intro c hc
    rw [block_withBlock]
    rcases List.mem_append.mp hc with hc | hc
    · rw [if_neg (h.hasBlock hc).ne_next, h.block c hc]
      simp [copiedBlock]
    · cases List.mem_singleton.mp hc
      rw [if_pos hname, h.copiedBlock_next hnew, hargs, hlength, hb]
      rfl
  case types =>
    apply h.types_concat hwf hnodup hnext
    · intro v hv
      rw [typeOf, value_withBlock_of_hasValue _ _ _ hv, typeOf]
    · exact fun k ty hk => typeOf_addArguments_of_getElem? (g₁.addBlock _).1 _ _ hk
  case slots => exact h.slots_concat _ (slots_withBlock _ _ _) (operands_op_withBlock _ _ _)

theorem copiedOp_concat_placed_of_ne {φ : Renaming} {c i : OpId} (hi : i ≠ c)
    (slots : List SlotId) :
    g.copiedOp φ (done ++ [.placed c]) i slots = g.copiedOp φ done i slots := by
  simp [copiedOp, hi]

theorem copiedBlock_concat_placed_of_ne {φ : Renaming} {c : OpId} {b x : BlockId}
    (hc : (g.op c).block = some b) (hx : b ≠ x) :
    g.copiedBlock φ (done ++ [.placed c]) x = g.copiedBlock φ done x := by
  simp [copiedBlock, opsIn_concat_placed, hc, hx]

/-- `adopt` comes to the stage with `.placed c`, in the copy of its block. -/
theorem adopt (h : Stage g m parts done s) {b : BlockId} {c : OpId}
    (hc : (g.op c).block = some b) (hcopied : Part.op c ∈ done) (hb : Part.block b ∈ done)
    (hnext : done ++ [.placed c] <+: parts) :
    Stage g m parts (done ++ [.placed c])
      (adopt ((g.freshNames parts).block b) ((g.freshNames parts).op c) s).2 := by
  obtain ⟨g₁, m₁⟩ := s
  rw [adopt_eq]
  set b' := (g.freshNames parts).block b with hb'
  set c' := (g.freshNames parts).op c with hc'
  set g₂ := g₁.place b' (g₁.block b').ops.length c' with hg₂
  have hslots : g₂.slots = g₁.slots := rfl
  have hreads : ∀ j, (g₂.op j).operands = (g₁.op j).operands := by
    intro j
    rw [hg₂, op_place]
    split <;> rfl
  -- a place brings no values
  have hvalues : (done ++ [Part.placed c]).flatMap (Part.values g) =
      done.flatMap (Part.values g) := by
    simp [Part.values]
  constructor
  case initial => exact hnext
  case ready =>
    apply h.ready_concat
    refine ⟨hcopied, fun x hx => ?_⟩
    rw [hc] at hx
    cases hx
    exact hb
  case ops =>
    have hsize : g₂.ops.size = g₁.ops.size := size_ops_modifyOp _ _ _
    rw [hsize, List.filterMap_append, List.length_append]
    exact h.ops
  case blocks =>
    have hsize : g₂.blocks.size = g₁.blocks.size := size_blocks_modifyBlock _ _ _
    rw [hsize, List.filterMap_append, List.length_append]
    exact h.blocks
  case values =>
    rw [hvalues]
    exact h.values
  case mapping =>
    rw [hvalues]
    exact h.mapping
  case grows =>
    exact h.grows.place (fun hthere => absurd hthere (not_hasBlock_freshNames b)) _
      (not_hasOp_freshNames c)
  case op =>
    intro j hmem
    have hj : Part.op j ∈ done := by simpa using hmem
    obtain ⟨slots, hthere, hold⟩ := h.op j hj
    refine ⟨slots, hthere, ?_⟩
    rw [hg₂, op_place, hold]
    by_cases hjc : j = c
    · subst hjc
      rw [if_pos ⟨rfl, h.hasOp hj⟩]
      simp [copiedOp, hc, hb']
    · rw [if_neg, copiedOp_concat_placed_of_ne hjc]
      rintro ⟨heq, -⟩
      exact hjc (freshNames_op_inj (h.initial.subset hcopied) heq).symm
  case operands => exact h.operands_concat _ hslots hreads rfl
  case block =>
    intro x hmem
    have hx : Part.block x ∈ done := by simpa using hmem
    rw [hg₂, block_place, h.block x hx]
    by_cases hbx : b = x
    · subst hbx
      -- the copy of the block lists the copies in the order in which they get their places
      rw [if_pos ⟨rfl, h.hasBlock hx⟩, h.block b hx, List.insertIdx_length_self]
      simp [copiedBlock, opsIn_concat_placed, hc, hc']
    · rw [if_neg, copiedBlock_concat_placed_of_ne hc hbx]
      rintro ⟨heq, -⟩
      exact hbx (freshNames_block_inj (h.initial.subset hb) heq)
  case types =>
    rw [hvalues]
    exact h.types
  case slots => exact h.slots_concat _ hslots hreads

/-! ### All parts of a tree -/

/-- Each turn of `forM` does the parts `inner x` of one entry, and what was done stays done. -/
theorem forM {α : Type} {f : α → CopyM PUnit} {inner : α → List Part} {xs : List α}
    (hf : ∀ x ∈ xs, ∀ done' s, done ⊆ done' → Stage g m parts done' s →
      done' ++ inner x <+: parts → Stage g m parts (done' ++ inner x) (f x s).2)
    (h : Stage g m parts done s) (hnext : done ++ xs.flatMap inner <+: parts) :
    Stage g m parts (done ++ xs.flatMap inner) ((xs.forM f) s).2 := by
  induction xs generalizing done s with
  | nil =>
    rw [List.flatMap_nil, List.append_nil]
    exact h
  | cons x rest ih =>
    rw [List.flatMap_cons, ← List.append_assoc] at hnext ⊢
    have hfirst := hf x List.mem_cons_self done s (List.Subset.refl _) h
      ((List.prefix_append _ _).trans hnext)
    -- the induction hypothesis is for what was done before, to which the first turn has added
    refine ih (fun y hy done' s' hsubset => ?_) hfirst hnext
    exact hf y (List.mem_cons_of_mem _ hy) done' s'
      fun p hp => hsubset (List.mem_append_left _ hp)

theorem mapM_copyBlock (h : Stage g m parts done s) (hwf : g.WellFormed) (hnodup : parts.Nodup)
    {r : RegionId} {blocks : List BlockId} (hr : Part.op r.op ∈ done)
    (hblocks : ∀ b ∈ blocks, (g.block b).home = some r)
    (hnext : done ++ blocks.map .block <+: parts) :
    (blocks.mapM (Graph.copyBlock ((g.freshNames parts).region r)) s).1 =
        blocks.map (g.freshNames parts).block ∧
      Stage g m parts (done ++ blocks.map .block)
        (blocks.mapM (Graph.copyBlock ((g.freshNames parts).region r)) s).2 := by
  induction blocks generalizing done s with
  | nil =>
    rw [List.map_nil, List.map_nil, List.append_nil]
    exact ⟨rfl, h⟩
  | cons b rest ih =>
    have hparts : done ++ (b :: rest).map Part.block = done ++ [.block b] ++ rest.map .block :=
      List.append_cons _ _ _
    rw [hparts] at hnext ⊢
    obtain ⟨hname, hfirst⟩ := h.copyBlock hwf hnodup (hblocks b List.mem_cons_self) hr
      ((List.prefix_append _ _).trans hnext)
    obtain ⟨hnames, hrest⟩ := ih hfirst (List.mem_append_left _ hr)
      (fun c hc => hblocks c (List.mem_cons_of_mem _ hc)) hnext
    rw [List.mapM_cons]
    refine ⟨?_, hrest⟩
    rw [List.map_cons, ← hname, ← hnames]
    rfl

end Stage

/-- Copies of depth `n` do the parts of the tree, if it is no deeper. -/
def StagesTo (g : Graph) (m : Mapping) (parts : List Part) (n : Nat) : Prop :=
  ∀ i done s, Stage g m parts done s → g.Fits n i → g.HasOp i →
    done ++ g.partsTo n i <+: parts →
    (copyTree n i s).1 = (g.freshNames parts).op i ∧
      Stage g m parts (done ++ g.partsTo n i) (copyTree n i s).2

namespace StagesTo

variable {g : Graph} {m : Mapping} {parts done : List Part} {s : Graph × Mapping} {n : Nat}

theorem copyChild (hn : StagesTo g m parts n) (h : Stage g m parts done s) {b : BlockId} {c : OpId}
    (hc : (g.op c).block = some b) (hb : Part.block b ∈ done) (hfits : g.Fits n c)
    (hnext : done ++ (g.partsTo n c ++ [.placed c]) <+: parts) :
    Stage g m parts (done ++ (g.partsTo n c ++ [.placed c]))
      (copyChild n ((g.freshNames parts).block b) c s).2 := by
  rw [← List.append_assoc] at hnext ⊢
  obtain ⟨hname, hcopy⟩ := hn c done s h hfits (hasOp_of_block_eq_some hc)
    ((List.prefix_append _ _).trans hnext)
  have hhead : Part.op c ∈ g.partsTo n c := by
    cases n with
    | zero => exact hfits.elim
    | succ n => exact mem_partsTo_succ.mpr (Or.inl rfl)
  have hadopt := hcopy.adopt hc (List.mem_append_right _ hhead) (List.mem_append_left _ hb) hnext
  rw [← hname] at hadopt
  exact hadopt

/-- `copyRegion` first copies the blocks of a region, and then what is in them. -/
theorem copyRegion (hn : StagesTo g m parts n) (hwf : g.WellFormed) (hnodup : parts.Nodup)
    (h : Stage g m parts done s) {i : OpId} (hi : Part.op i ∈ done)
    (hfits : ∀ c ∈ g.children i, g.Fits n c) {source : Graph}
    (hsource : ∀ b, g.HasBlock b → source.block b = g.block b) {r : Nat} {blocks : List BlockId}
    (hr : (g.op i).regions[r]? = some blocks)
    (hnext : done ++ g.regionParts (g.partsTo n) blocks <+: parts) :
    Stage g m parts (done ++ g.regionParts (g.partsTo n) blocks)
      (copyRegion n ((g.freshNames parts).op i) source (blocks, r) s).2 := by
  have hhome : ∀ b ∈ blocks, (g.block b).home = some ⟨i, r⟩ := fun b hb =>
    (hwf.owned.home_iff b i r).mpr ⟨blocks, hr, hb⟩
  rw [regionParts, ← List.append_assoc] at hnext ⊢
  obtain ⟨hnames, hblocks⟩ := h.mapM_copyBlock hwf hnodup (r := ⟨i, r⟩) hi hhome
    ((List.prefix_append _ _).trans hnext)
  have hnames' : (blocks.mapM (Graph.copyBlock ⟨(g.freshNames parts).op i, r⟩) s).1 = _ := hnames
  show Stage _ _ _ _ (((blocks.zip (blocks.mapM (Graph.copyBlock _) s).1).forM fun bt =>
    (source.block bt.1).ops.forM (Graph.copyChild n bt.2)) _).2
  -- the blocks got the names that the second loop hands on
  have hzip : blocks.zip (blocks.map (g.freshNames parts).block) =
      blocks.map fun b => (b, (g.freshNames parts).block b) := by
    have hpairs : (blocks.map id).zip (blocks.map (g.freshNames parts).block) = _ := List.zip_map'
    rwa [List.map_id] at hpairs
  rw [hnames', hzip]
  have hinner : (blocks.flatMap fun b => (g.block b).ops.flatMap fun c =>
      g.partsTo n c ++ [Part.placed c]) =
      (blocks.map fun b => (b, (g.freshNames parts).block b)).flatMap fun bt =>
        (g.block bt.1).ops.flatMap fun c => g.partsTo n c ++ [Part.placed c] := by
    rw [List.flatMap_map]
  rw [hinner] at hnext ⊢
  -- two loops, over the blocks and over what is in each of them
  refine hblocks.forM (fun bt hbt done₁ s₁ hsub₁ h₁ hnext₁ => ?_) hnext
  obtain ⟨b, hb, rfl⟩ := List.mem_map.mp hbt
  have hcopied : Part.block b ∈ done₁ :=
    hsub₁ (List.mem_append_right _ (List.mem_map_of_mem hb))
  rw [hsource b (hasBlock_of_home_eq_some (hhome b hb))]
  refine h₁.forM (fun c hc done₂ s₂ hsub₂ h₂ hnext₂ => ?_) hnext₁
  have hchild : c ∈ g.children i :=
    List.mem_flatMap.mpr ⟨b, hwf.owned.mem_regions_iff.mpr ⟨r, hhome b hb⟩, hc⟩
  exact hn.copyChild h₂ ((hwf.members.mem_iff c b).mpr hc) (hsub₂ hcopied) (hfits c hchild) hnext₂

end StagesTo

variable {g : Graph} {m : Mapping} {parts : List Part}

/-- `copyTree` comes to the stage with the parts of `i`. The induction is on `n`, the depth of the
tree. -/
theorem stagesTo (hwf : g.WellFormed) (hnodup : parts.Nodup) (n : Nat) :
    StagesTo g m parts n := by
  induction n with
  | zero => exact fun i done s h hfits => hfits.elim
  | succ n ih =>
    intro i done s h hfits hi hnext
    rw [partsTo, List.append_cons] at hnext ⊢
    obtain ⟨hname, hhead⟩ := h.copyHead hwf hnodup hi ((List.prefix_append _ _).trans hnext)
    have hsource : ∀ b, g.HasBlock b → (copyHead i s).2.1.block b = g.block b :=
      fun b hb => hhead.block_original hb
    have hrow : (copyHead i s).2.1.op i = g.op i := hhead.grows.op i hi
    rw [copyTree_succ, hname, hrow]
    refine ⟨rfl, ?_⟩
    -- the regions are numbered on the way, and the numbers do not count as parts
    have hinner : (g.op i).regions.flatMap (g.regionParts (g.partsTo n)) =
        (g.op i).regions.zipIdx.flatMap fun region => g.regionParts (g.partsTo n) region.1 := by
      rw [← List.flatMap_map Prod.fst, List.zipIdx_map_fst]
    rw [hinner] at hnext ⊢
    refine hhead.forM (fun region hregion done₁ s₁ hsub h₁ hnext₁ => ?_) hnext
    obtain ⟨blocks, r⟩ := region
    exact ih.copyRegion hwf hnodup h₁ (hsub (by simp)) hfits hsource
      (List.mem_zipIdx_iff_getElem?.mp hregion) hnext₁

/-- `clone` of a finite tree comes to the stage at which all its parts are done. -/
theorem stage_clone (hwf : g.WellFormed) (honce : g.BlocksOnce) {root : OpId}
    (htree : g.FiniteTree root) (hroot : g.HasOp root) (m : Mapping) :
    (g.clone root m).1 = (g.freshNames (g.partsTo g.ops.size root)).op root ∧
      Stage g m (g.partsTo g.ops.size root) (g.partsTo g.ops.size root) (g.clone root m).2 := by
  have hnodup := nodup_partsTo hwf honce htree g.ops.size
  have hrun := stagesTo (m := m) hwf hnodup g.ops.size root [] (g, m) (.start g m _)
    (htree.fits hwf hroot) hroot
  rw [List.nil_append] at hrun
  exact hrun (List.prefix_refl _)

end Multistage
