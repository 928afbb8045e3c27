import Multistage.Proofs.Copy.PlantedCopies
import Multistage.Proofs.Graph.OpReplacement
import Multistage.Proofs.Predication.ConditionalBuilding

/-!
# Branch synthesis

An operation with effects that has neither a mask nor a condition is predicated by a conditional
around a copy of it. The conditional takes the place of the operation, in its block and for its
readers (`TakesPlace`), and is made of a copy and of zeros (`Branches`).
-/

namespace Multistage

open BuildM Build

/-- An entry `y` that is put before `x` takes its place when `x` is removed. -/
theorem erase_insertIdx_idxOf {α : Type} [DecidableEq α] {l : List α} {x y : α} {k : Nat}
    (hnodup : l.Nodup) (hk : l.idxOf? x = some k) (hne : y ≠ x) :
    (l.insertIdx k y).erase x = l.map fun z => if z = x then y else z := by
  have hx : x ∈ l := by
    rw [← List.isSome_idxOf?, hk]
    rfl
  obtain ⟨front, back, rfl⟩ := List.append_of_mem hx
  rw [idxOf?_append_cons hnodup] at hk
  cases hk
  obtain ⟨-, hback, hdisjoint⟩ := List.nodup_append.mp hnodup
  have hfront : ∀ z ∈ front, (if z = x then y else z) = z := fun z hz =>
    if_neg (hdisjoint z hz x List.mem_cons_self)
  have hrest : ∀ z ∈ back, (if z = x then y else z) = z := by
    rintro z hz
    refine if_neg ?_
    rintro rfl
    exact (List.nodup_cons.mp hback).1 hz
  have hout : x ∉ front := fun hmem => hdisjoint x hmem x List.mem_cons_self rfl
  rw [insertIdx_eq_append (by simp), List.take_left, List.drop_left, List.erase_append_right _ hout,
    List.erase_cons_tail (by simpa using hne), List.erase_cons_head, List.map_append, List.map_cons,
    if_pos rfl, List.map_congr_left hfront, List.map_congr_left hrest, List.map_id', List.map_id']

namespace Graph

variable {g g' : Graph} {i n : OpId} {b : BlockId} {k : Nat}

/-! ## An operation in the place of another -/

/-- Operation `n`, in which all that is new lies, stands where `i` stood, and its results are read
for those of `i`. The tree of `i` is erased and everything else is as it was. -/
structure TakesPlace (g g' : Graph) (i n : OpId) : Prop where
  new : ¬ g.HasOp n
  live : (g'.op n).erased = false
  block : (g'.op n).block = (g.op i).block
  covers : g.Covers g' n
  -- all of the tree is erased, and no other operation has changed
  erased : ∀ j, g.Inside i j → (g'.op j).erased = true
  op : ∀ j, g.HasOp j → ¬ g.Inside i j → g'.op j = g.op j
  blocks : ∀ x, g.HasBlock x → g'.block x =
    { g.block x with ops := (g.block x).ops.map fun j => if j = i then n else j }
  type : ∀ v, g.HasValue v → g'.typeOf v = g.typeOf v
  -- the readers of a result, all other readers outside the tree, and those in the tree
  result : ∀ (s : SlotId) (m : Nat) (v : ValueId), g.HasSlot s → g.slotInside i s = false →
    (g.op i).results[m]? = some v → (g.slot s).value = some v →
    g'.slot s = { g.slot s with value := (g'.op n).results[m]? }
  other : ∀ s, g.HasSlot s → g.slotInside i s = false →
    (∀ v ∈ (g.op i).results, (g.slot s).value ≠ some v) → g'.slot s = g.slot s
  dropped : ∀ s, g.slotInside i s = true → (g'.slot s).value = none

/-- The graph without `i`, for whose results those of `n` are read. -/
abbrev replacedBy (g : Graph) (i n : OpId) : Graph := g.replaced i ((g.op n).results.map some)

section

variable (h : g.Raised g' b k n) (hwf : g.WellFormed) (hb : (g.op i).block = some b)
  (hself : ∀ p, g.parent i = some p → ¬ g.Inside i p)

include h hwf hb hself

/-- Nothing new lies inside the operation `i` before which a conditional was put. -/
theorem Raised.inside_iff (j : OpId) : g'.Inside i j ↔ g.Inside i j := by
  have hi := hasOp_of_block_eq_some hb
  have hgrow := h.enlarges
  by_cases hj : g.HasOp j
  · exact hgrow.inside_iff hwf hj
  refine ⟨fun hin => ?_, fun hin => absurd (hin.hasOp hi) hj⟩
  have hnew := (h.covers j (hin.hasOp (hgrow.within.hasOp hi))).resolve_left hj
  -- both around `j`, one of `i` and `n` would lie in the other
  rcases hin.total hnew with hin | hin
  · cases hin with
    | root => exact absurd hi h.new
    | @step _ p hp hin =>
      have hparent : g.blockParent b = some p := by
        rw [parent, h.block] at hp
        exact (hgrow.blockParent h.site).symm.trans hp
      have hin := (hgrow.inside_iff hwf (hasOp_of_blockParent hwf hparent)).mp hin
      refine absurd hin (hself p ?_)
      rw [parent, hb]
      exact hparent
  · exact absurd hin (hgrow.not_inside_new hwf h.new hi)

theorem Raised.slotInside_eq (hwf' : g'.WellFormed) (s : SlotId) :
    g'.slotInside i s = g.slotInside i s := by
  have hi := hasOp_of_block_eq_some hb
  rw [Bool.eq_iff_iff, slotInside_iff (h.enlarges.within.hasOp hi) hwf'.numbered,
    slotInside_iff hi hwf.numbered]
  refine exists_congr fun j => ?_
  rw [h.inside_iff hwf hb hself]
  refine and_congr_right fun hj => ?_
  rw [h.enlarges.op j (hj.hasOp hi)]

omit hself in
theorem Raised.covers_replacedBy : g.Covers (g'.replacedBy i n) n := by
  have hi := hasOp_of_block_eq_some hb
  intro j hj
  refine (h.covers j (hasOp_replaced.mp hj)).imp_right fun hin => ?_
  -- on the way up from `j` to `n` one does not come by `i`
  induction hin with
  | root => exact .root
  | @step j p hp hin ih =>
    have hother : i ≠ j := by
      rintro rfl
      exact h.enlarges.not_inside_new hwf h.new hi (.step hp hin)
    refine .step (p := p) ?_ (ih ?_)
    · rw [parent_replaced, if_neg hother, hp]
    · exact hasOp_replaced.mpr (hin.hasOp h.there)

omit hself in
/-- After `replacedBy` every block lists `n` where it listed `i`. -/
theorem Raised.block_replacedBy (hk : (g.block b).ops.idxOf? i = some k) {x : BlockId}
    (hx : g.HasBlock x) :
    (g'.replacedBy i n).block x =
      { g.block x with ops := (g.block x).ops.map fun j => if j = i then n else j } := by
  have hi := hasOp_of_block_eq_some hb
  have hgrow := h.enlarges
  rw [block_replaced, hgrow.op i hi, hb]
  by_cases hxb : b = x
  · subst hxb
    obtain ⟨hargs, hhome⟩ := hgrow.frame h.site
    have hne : n ≠ i := by
      rintro rfl
      exact h.new hi
    rw [if_pos rfl, h.ops, erase_insertIdx_idxOf (hwf.members.nodup b) hk hne]
    dsimp only
    rw [hargs, hhome]
  · rw [if_neg fun heq => hxb (Option.some.inj heq), hgrow.block x hx (Ne.symm hxb)]
    -- the operation is in no other list
    have hout : ∀ j ∈ (g.block x).ops, (if j = i then n else j) = j := by
      intro j hj
      refine if_neg ?_
      rintro rfl
      have hblock := (hwf.members.mem_iff j x).mpr hj
      rw [hb] at hblock
      exact hxb (Option.some.inj hblock)
    rw [List.map_congr_left hout, List.map_id']

variable (hreplace : g'.Replaceable i ((g'.op n).results.map some))

include hreplace

theorem Raised.slot_replacedBy {s : SlotId} (hs : g.HasSlot s) (hout : g.slotInside i s = false) :
    (g'.replacedBy i n).slot s = { g.slot s with
      value := redirected ((g.op i).results.zip ((g'.op n).results.map some)) (g.slot s).value } := by
  rw [slot_replaced hreplace, h.slotInside_eq hwf hb hself hreplace.wellFormed, hout,
    h.enlarges.row s hs, h.enlarges.op i (hasOp_of_block_eq_some hb)]
  rfl

/-- `replacedBy` of `i` by the operation `n` that was put before it. -/
theorem Raised.takesPlace (hk : (g.block b).ops.idxOf? i = some k) :
    g.TakesPlace (g'.replacedBy i n) i n := by
  have hi := hasOp_of_block_eq_some hb
  have hgrow := h.enlarges
  have hinside := h.inside_iff hwf hb hself
  have hrow : ∀ j, ¬ g.Inside i j → (g'.replacedBy i n).op j = g'.op j := fun j hj =>
    op_replaced_of_not_inside hreplace fun hin => hj ((hinside j).mp hin)
  have hn : ¬ g.Inside i n := fun hin => h.new (hin.hasOp hi)
  constructor
  case new => exact h.new
  case live =>
    rw [hrow n hn]
    exact h.live
  case block => rw [hrow n hn, h.block, hb]
  case covers => exact h.covers_replacedBy hwf hb
  case erased => exact fun j hj => (erased_replaced hreplace j).mpr (Or.inr ((hinside j).mpr hj))
  case op => exact fun j hthere hj => (hrow j hj).trans (hgrow.op j hthere)
  case blocks => exact fun x hx => h.block_replacedBy hwf hb hk hx
  case type => exact fun v hv => (typeOf_replaced g' i _ v).trans (hgrow.typeOf hv)
  case result =>
    intro s m v hs hout hm hv
    have hlength : (g'.op n).results.length = (g.op i).results.length := by
      rw [← hgrow.op i hi, ← hreplace.length, List.length_map]
    have hlt : m < (g'.op n).results.length := by
      rw [hlength]
      exact (List.getElem?_eq_some_iff.mp hm).1
    have hw : ((g'.op n).results.map some)[m]? = some ((g'.op n).results[m]?) := by
      rw [List.getElem?_map, List.getElem?_eq_getElem hlt]
      rfl
    rw [h.slot_replacedBy hwf hb hself hreplace hs hout, hv,
      redirected_zip (hwf.owned.nodup_results i) hm hw, hrow n hn]
  case other =>
    intro s hs hout hv
    rw [h.slot_replacedBy hwf hb hself hreplace hs hout,
      redirected_of_not_mem fun p hp => hv p.1 (List.of_mem_zip hp).1]
  case dropped =>
    intro s hs
    rw [held_replaced hreplace, h.slotInside_eq hwf hb hself hreplace.wellFormed, hs]
    rfl

end

/-! ## What the replacement leaves alone -/

section

variable {j : OpId} {x : BlockId} {vals : List (Option ValueId)} (h : g.Replaceable i vals)
  (hj : ¬ g.Inside i j)

include h hj

theorem Realizes.replaced {spec : OpSpec} (hspec : g.Realizes j x spec)
    (hreads : ∀ v ∈ (g.op i).results, some v ∉ spec.operands) :
    (g.replaced i vals).Realizes j x spec :=
  hspec.congr (op_replaced_of_not_inside h hj)
    (operands_replaced h hj fun v hv => hspec.operands ▸ hreads v hv) (resultTypes_replaced h hj)

theorem Conditional.replaced {loc : Location} {types : List (Option Ty)} {pred : Option ValueId}
    (hcond : g.Conditional j loc types pred) (hpred : ∀ v ∈ (g.op i).results, pred ≠ some v) :
    (g.replaced i vals).Conditional j loc types pred := by
  refine hcond.congr (op_replaced_of_not_inside h hj) (operands_replaced h hj fun v hv hmem => ?_)
    (resultTypes_replaced h hj)
  rw [hcond.operands] at hmem
  obtain ⟨w, hw, heq⟩ := List.mem_map.mp hmem
  exact hpred v hv ((Option.mem_toList.mp hw).trans heq)

end

theorem PlantsIn.replaced {g₀ g₁ : Graph} {φ : Renaming} {vals : List (Option ValueId)}
    (h : g₀.PlantsIn g₁ g i φ) (hreplace : g.Replaceable i vals)
    (hout : ∀ j, g₀.Inside i j → ¬ g.Inside i (φ.op j))
    (hblock : ∀ x, (g.op i).block = some x → g₁.HasBlock x)
    (hreads : ∀ j, g₀.Inside i j → ∀ v ∈ (g.op i).results, some v ∉ g.operands (φ.op j)) :
    g₀.PlantsIn g₁ (g.replaced i vals) i φ := by
  refine h.congr (within_replaced hreplace)
    (fun j hj => op_replaced_of_not_inside hreplace (hout j hj))
    (fun j hj => operands_replaced hreplace (hout j hj) (hreads j hj)) (fun x _ => ?_)
    fun v _ => typeOf_replaced g i vals _
  rw [block_replaced, if_neg fun heq => h.blockNew x (hblock _ heq)]

end Graph

/-! ## The conditional around an operation -/

namespace Predication

open Multistage.Graph

/-- Conditional `n` does `i` if `pred` holds. Its first block is a copy of `i` that reads what `i`
reads and a yield of what the copy gives, and its second block has a zero for every result and a
yield of the zeros. -/
structure Branches (g g' : Graph) (i : OpId) (pred : Option ValueId) (n : OpId) (t e : BlockId)
    (φ : Renaming) : Prop where
  conditional : g'.Conditional n (g.op i).loc (g.resultTypes i) pred
  condition : g'.segmentValue? n Seg.condition = some pred
  arms : g'.Arms n t e
  bare : (g'.block t).args = [] ∧ (g'.block e).args = []
  -- taken out of its block, the copy has all the rows of the original
  copy : g.IsCopy (g'.detach (φ.op i)) i φ
  fresh : ∀ j, ¬ g.HasOp (φ.op j)
  operands : g'.operands (φ.op i) = g.operands i
  inner : ∀ j, g.Inside i j →
    g'.operands (φ.op j) = (g.operands j).map (φ.follow (g.metBefore i j))
  -- what the two blocks list
  first : ∃ y, (g'.block t).ops = [φ.op i, y] ∧ g'.Realizes y t
    { name := Kinds.yield, loc := (g.op i).loc
      operands := (g'.op (φ.op i)).results.map some }
  second : ∃ zs y, (g'.block e).ops = zs ++ [y] ∧
    List.Forall₂ (fun z ty => g'.Realizes z e (zeroSpec (g.op i).loc ty)) zs (g.resultTypes i) ∧
    g'.Realizes y e
      { name := Kinds.yield, loc := (g.op i).loc
        operands := zs.flatMap fun z => (g'.op z).results.map some }

/-- Operation `i` in block `b` can be wrapped in a conditional on `pred`. -/
structure Wrappable (c : Context) (i : OpId) (pred : Option ValueId) (b : BlockId) : Prop where
  sound : c.Sound
  once : c.graph.BlocksOnce
  block : (c.graph.op i).block = some b
  live : (c.graph.op i).erased = false
  -- it does not lie inside itself and does not read its own results
  apart : ∀ p, c.graph.parent i = some p → ¬ c.graph.Inside i p
  own : ∀ v ∈ (c.graph.op i).results, some v ∉ c.graph.operands i
  there : c.graph.HasOptValue pred
  foreign : ∀ v ∈ (c.graph.op i).results, pred ≠ some v

namespace Wrappable

variable {c d : Context} {i n : OpId} {pred : Option ValueId} {b t e : BlockId} {k : Nat}
  (h : Wrappable c i pred b)

include h

theorem hasOp : c.graph.HasOp i := hasOp_of_block_eq_some h.block

theorem not_blockInside : ¬ c.graph.BlockInside i b := by
  rintro ⟨p, hp, hin⟩
  refine h.apart p ?_ hin
  rw [parent, h.block]
  exact hp

variable (hdone : Finished c d i pred b k n t e)

include hdone

theorem op_eq : d.graph.op i = c.graph.op i := hdone.raised.enlarges.op i h.hasOp

/-- The results of new operations are not those of `i`. -/
theorem results_new {j : OpId} (hj : ¬ c.graph.HasOp j) :
    ∀ v ∈ (d.graph.op i).results, some v ∉ (d.graph.op j).results.map some := by
  refine fun v hv => not_mem_map_results hdone.sound.graph.owned ?_ hv
  rintro rfl
  exact hj h.hasOp

theorem replaceable : d.graph.Replaceable i ((d.graph.op n).results.map some) where
  wellFormed := hdone.sound.graph
  there := hdone.raised.enlarges.within.hasOp h.hasOp
  live := by
    rw [h.op_eq hdone]
    exact h.live
  length := by
    have hlength := congrArg List.length hdone.cond.types
    rw [resultTypes, resultTypes, List.length_map, List.length_map] at hlength
    rw [List.length_map, hlength, h.op_eq hdone]
  defined := by
    intro v hv
    obtain ⟨w, hw, rfl⟩ := List.mem_map.mp hv
    exact (hdone.sound.graph.owned.mem_results_iff.mp hw).1.opt
  fresh := h.results_new hdone hdone.raised.new

theorem not_inside_of_new {j : OpId} (hj : ¬ c.graph.HasOp j) : ¬ d.graph.Inside i j := by
  rw [hdone.raised.inside_iff h.sound.graph h.block h.apart]
  exact fun hin => hj (hin.hasOp h.hasOp)

/-- The first block `t` got a copy of `i`. -/
theorem exists_copy : ∃ φ, (∀ j, ¬ c.graph.HasOp (φ.op j)) ∧
    (∃ y, (d.graph.block t).ops = [φ.op i, y] ∧ d.graph.Realizes y t
      { name := Kinds.yield, loc := (c.graph.op i).loc
        operands := (d.graph.op (φ.op i)).results.map some }) ∧
    ∃ g₁, c.graph.PlantsIn g₁ (d.graph.replacedBy i n) i φ := by
  have hwf := h.sound.graph
  obtain ⟨d₁, g₁, y, hcopied, hops, hyield⟩ := hdone.first
  have hgrow := hcopied.raising.raised.enlarges
  have hwf₁ := hcopied.raising.sound.graph
  have ht := hasBlock_of_blockParent hcopied.raising.arms.first
  have he := hasBlock_of_blockParent hcopied.raising.arms.second
  obtain ⟨φ, hroot, hplants⟩ := hgrow.plants_clone hwf h.not_blockInside h.hasOp hwf₁
    (h.once.advances h.sound hcopied.advances) h.apart
  have hname : d₁.graph.nextOp = φ.op i := (root_clone hwf₁ i).symm.trans hroot
  have hnew : ∀ j, ¬ c.graph.HasOp (φ.op j) := fun j hthere =>
    hplants.opNew j (hgrow.within.hasOp hthere)
  -- the copy is put into its block, and the yield and the zeros come behind it and elsewhere
  have hplaced : c.graph.PlantsIn d₁.graph (cloned d₁.graph i t) i φ := by
    rw [cloned, hroot]
    exact hplants.place ht _
  have hfilled := (hplaced.enlarges hcopied.copied ht hcopied.yielded).enlarges hcopied.wellFormed
    he hcopied.zeroed
  rw [hname] at hops hyield
  refine ⟨φ, hnew, ⟨y, hops, hyield⟩, d₁.graph, hfilled.replaced (h.replaceable hdone)
    (fun j _ => h.not_inside_of_new hdone (hnew j)) (fun x hx => ?_) fun j hj v hv => ?_⟩
  · rw [h.op_eq hdone, h.block] at hx
    exact Option.some.inj hx ▸ hgrow.within.hasBlock hdone.raised.site
  · -- a copy that reads a result reads the one of the copy
    rw [h.op_eq hdone] at hv
    rw [← operands_detach d.graph (φ.op i)]
    exact Plants.not_reads hfilled hwf hgrow.within h.hasOp h.own hj hv

/-! ### What is new and the replacement -/

/-- Nothing in a new block `y` was there before. -/
theorem new_of_block {j : OpId} {y : BlockId} (hy : ¬ c.graph.HasBlock y)
    (hj : (d.graph.op j).block = some y) : ¬ c.graph.HasOp j := by
  intro hthere
  rw [hdone.raised.enlarges.op j hthere] at hj
  exact hy (h.sound.graph.members.hasBlock hj)

theorem op_new {j : OpId} (hj : ¬ c.graph.HasOp j) :
    (d.graph.replacedBy i n).op j = d.graph.op j :=
  op_replaced_of_not_inside (h.replaceable hdone) (h.not_inside_of_new hdone hj)

theorem block_new {y : BlockId} (hy : ¬ c.graph.HasBlock y) :
    (d.graph.replacedBy i n).block y = d.graph.block y := by
  refine (block_replaced d.graph i _ y).trans (if_neg fun heq => hy ?_)
  rw [h.op_eq hdone] at heq
  exact h.sound.graph.members.hasBlock heq

theorem realizes_new {j : OpId} {y : BlockId} {spec : OpSpec} (hy : ¬ c.graph.HasBlock y)
    (hspec : d.graph.Realizes j y spec)
    (hreads : ∀ v ∈ (d.graph.op i).results, some v ∉ spec.operands) :
    (d.graph.replacedBy i n).Realizes j y spec :=
  hspec.replaced (h.replaceable hdone)
    (h.not_inside_of_new hdone (h.new_of_block hdone hy hspec.block)) hreads

theorem conditional : (d.graph.replacedBy i n).Conditional n (c.graph.op i).loc
    (c.graph.resultTypes i) pred := by
  refine hdone.cond.replaced (h.replaceable hdone) (h.not_inside_of_new hdone hdone.raised.new) ?_
  rw [h.op_eq hdone]
  exact h.foreign

theorem arms : (d.graph.replacedBy i n).Arms n t e := by
  refine ⟨?_, ?_, ?_⟩
  · rw [h.op_new hdone hdone.raised.new]
    exact hdone.arms.regions
  · rw [blockParent, h.block_new hdone hdone.first_new]
    exact hdone.arms.first
  · rw [blockParent, h.block_new hdone hdone.second_new]
    exact hdone.arms.second

/-- The second block `e` is a zero for every result and a yield of them. -/
theorem zeros : ∃ zs y, ((d.graph.replacedBy i n).block e).ops = zs ++ [y] ∧
    List.Forall₂ (fun z ty => (d.graph.replacedBy i n).Realizes z e
      (zeroSpec (c.graph.op i).loc ty)) zs (c.graph.resultTypes i) ∧
    (d.graph.replacedBy i n).Realizes y e
      { name := Kinds.yield, loc := (c.graph.op i).loc
        operands := zs.flatMap fun z => ((d.graph.replacedBy i n).op z).results.map some } := by
  have hsecond := hdone.second_new
  obtain ⟨zs, y, hops, hzs, hyield⟩ := hdone.second
  have hnew : ∀ z ∈ zs, ¬ c.graph.HasOp z := fun z hz =>
    h.new_of_block hdone hsecond ((hdone.sound.graph.members.mem_iff z e).mpr
      (hops ▸ List.mem_append_left _ hz))
  refine ⟨zs, y, (congrArg Block.ops (h.block_new hdone hsecond)).trans hops, ?_, ?_⟩
  · exact hzs.imp fun z ty hz => h.realizes_new hdone hsecond hz fun v _ => List.not_mem_nil
  · rw [List.flatMap_congr fun z hz => by rw [h.op_new hdone (hnew z hz)]]
    refine h.realizes_new hdone hsecond hyield fun v hv hmem => ?_
    obtain ⟨z, hz, hmem⟩ := List.mem_flatMap.mp hmem
    exact h.results_new hdone (hnew z hz) v hv hmem

theorem branches : ∃ φ, Branches c.graph (d.graph.replacedBy i n) i pred n t e φ := by
  have hwf := h.sound.graph
  have hfirst := hdone.first_new
  obtain ⟨φ, hnew, ⟨y, hops, hyield⟩, g₁, hplants⟩ := h.exists_copy hdone
  refine ⟨φ, ?_⟩
  constructor
  case conditional => exact h.conditional hdone
  case condition => exact (h.conditional hdone).condition
  case arms => exact h.arms hdone
  case bare =>
    rw [h.block_new hdone hfirst, h.block_new hdone hdone.second_new]
    exact ⟨hdone.bare t (Or.inl rfl), hdone.bare e (Or.inr rfl)⟩
  case copy =>
    have htree := (fits_of_not_inside hwf h.apart h.hasOp).finiteTree
    exact Plants.isCopy hplants hwf (wellFormed_detach (wellFormed_replaced (h.replaceable hdone)) _)
      htree
  case fresh => exact hnew
  case operands =>
    rw [← operands_detach _ (φ.op i)]
    exact Plants.operands_root hplants h.hasOp
  case inner =>
    intro j hj
    rw [← operands_detach _ (φ.op i)]
    exact hplants.reads j hj
  case first =>
    rw [h.block_new hdone hfirst, h.op_new hdone (hnew i)]
    exact ⟨y, hops, h.realizes_new hdone hfirst hyield (h.results_new hdone (hnew i))⟩
  case second => exact h.zeros hdone

end Wrappable

/-- Operation `i` of block `b` was predicated by the conditional `n`. The cursor is where it was, and
at the conditional if it was at the operation. -/
structure Wraps (c c' : Context) (i : OpId) (pred : Option ValueId) (b : BlockId) (n : OpId) :
    Prop where
  takesPlace : c.graph.TakesPlace c'.graph i n
  branches : ∃ t e φ, Branches c.graph c'.graph i pred n t e φ
  cursor : c'.cursor =
    if c.cursor.before = some i then { c.cursor with block := some b, before := some n }
    else c.cursor
  same : c' = { c with graph := c'.graph, cursor := c'.cursor, log := c'.log }

section

variable {c : Context} {i : OpId} {pred : Option ValueId} {b : BlockId}

/-- `predicateWithBranch` wraps what is `Wrappable`. -/
theorem ends_predicateWithBranch_wrapped (h : Wrappable c i pred b)
    (hzeros : ∀ ty ∈ c.graph.resultTypes i, Ops.hasZero ty = true) :
    (predicateWithBranch i pred).Ends c (fun n c' => c'.Sound ∧ c.graph.TakesPlace c'.graph i n ∧
      (∃ t e φ, Branches c.graph c'.graph i pred n t e φ) ∧ c' = { c with graph := c'.graph })
      fun _ _ => False := by
  obtain ⟨k, hk⟩ := exists_at_of_before h.sound.graph.members h.block
  refine ends_predicateWithBranch h.sound h.block hk h.there (fun d n t e hdone _ => ?_)
    fun d n t e ty _ hty hzero => ?_
  · have hreplace := h.replaceable hdone
    obtain ⟨_, d', hok, hadv, p, rfl⟩ := (gives_replaceOp hdone.sound hreplace).ok
    have hcursor := h.sound.cursor.mono
      (hdone.raised.enlarges.within.trans (within_replaced hreplace))
    refine .of_ok hok ⟨(hdone.sound.advances hadv).advance (.move _ hcursor),
      hdone.raised.takesPlace h.sound.graph h.block h.apart hreplace hk,
      ⟨t, e, h.branches hdone⟩, ?_⟩
    rw [hdone.same]
  · rw [hzeros ty hty] at hzero
    cases hzero

theorem hasZero_iff {ty : Option Ty} :
    Ops.hasZero ty = true ↔ ty = some .index ∨ ∃ w, ty = some (.integer w) := by
  constructor
  · intro h
    unfold Ops.hasZero at h
    split at h
    · exact Or.inr ⟨_, rfl⟩
    · exact Or.inl rfl
    · cases h
  · rintro (rfl | ⟨w, rfl⟩)
    · rfl
    · rfl

/-- `predicateOp` of an operation with effects that is to be put into a conditional replaces it, if
it is not erased and does not lie inside itself. -/
theorem predicateOp_branch_wraps (h : Reachable c) (hb : (c.graph.op i).block = some b)
    (hlive : (c.graph.op i).erased = false)
    (hself : ∀ p, c.graph.parent i = some p → c.graph.isAncestorOf i p = false)
    (heffects : c.graph.isEffectFree i = false)
    (hkind : (c.strategies.get (c.graph.op i).name).kind = .branch)
    (htypes : ∀ ty ∈ c.graph.resultTypes i, ty = some .index ∨ ∃ w, ty = some (.integer w))
    (hown : ∀ v ∈ (c.graph.op i).results, some v ∉ c.graph.operands i)
    (hpred : c.graph.HasOptValue pred) (hforeign : ∀ v ∈ (c.graph.op i).results, pred ≠ some v) :
    ∃ n c', predicateOp i pred c = .ok n c' ∧ Wraps c c' i pred b n := by
  have hzeros : ∀ ty ∈ c.graph.resultTypes i, Ops.hasZero ty = true := fun ty hty =>
    hasZero_iff.mpr (htypes ty hty)
  have hi := Graph.hasOp_of_block_eq_some hb
  have hapart : ∀ p, c.graph.parent i = some p → ¬ c.graph.Inside i p := by
    intro p hp
    rw [← isAncestorOf_iff hi, hself p hp]
    decide
  apply Ends.exists_ok
  refine gives_graph.ends_bind fun g c₁ _ hc => ?_
  obtain ⟨rfl, rfl⟩ := hc
  dsimp only
  rw [if_neg (by rw [heffects]; decide)]
  refine gives_get.ends_bind fun s c₂ _ hc => ?_
  obtain ⟨rfl, rfl⟩ := hc
  refine (gives_trace _ _).ends_bind fun _ c₃ hadv hc => ?_
  obtain ⟨log, rfl⟩ := hc
  rw [hkind]
  refine gives_cursor.ends_bind fun p c₄ _ hc => ?_
  obtain ⟨rfl, rfl⟩ := hc
  have honce : c₂.graph.BlocksOnce := .reachable h
  have hwrap : Wrappable { c₂ with log } i pred b :=
    ⟨h.sound.advances hadv, honce, hb, hlive, hapart, hown, hpred, hforeign⟩
  refine (ends_predicateWithBranch_wrapped hwrap hzeros).bind fun n c₅ hc => ?_
  obtain ⟨hsound, hplace, hbranches, hsame⟩ := hc
  have hn : (c₅.graph.op n).block = some b := hplace.block.trans hb
  have hcursor : c₅.cursor = c₂.cursor := by rw [hsame]
  dsimp only
  -- the cursor moves only if it stood at the operation
  split
  · next hat =>
    refine (gives_moveBefore hsound hn).ends_bind fun _ c₆ _ hc => .of_ok rfl ?_
    subst hc
    refine ⟨hplace, hbranches, ?_, ?_⟩
    · rw [if_pos hat, hcursor]
    · rw [hsame]
  · next hnot =>
    refine .of_ok rfl ⟨hplace, hbranches, ?_, ?_⟩
    · rw [if_neg hnot, hcursor]
    · rw [hsame]

end

end Predication

/-- A `func` that gives the two results of a wait, the last one first, with a sum inside the wait
that reads its first result. The cursor stands at the wait. -/
def lingering : List Request := [
  .createDetached { name := Kinds.func },
  .addBlock ⟨0⟩ 0,
  .addArgument ⟨0⟩ (some Ty.i32),
  .addArgument ⟨0⟩ (some Ty.i1),
  .moveToEnd (some ⟨0⟩),
  .create
    { name := Kinds.wait, segments := [[some ⟨0⟩], [some ⟨0⟩]]
      results := [some Ty.i32, some .index], regions := 1 },
  .addBlock ⟨1⟩ 0,
  .create { name := Kinds.ret, operands := [some ⟨3⟩, some ⟨2⟩] },
  .moveToEnd (some ⟨1⟩),
  .create { name := Kinds.addI, operands := [some ⟨2⟩, some ⟨0⟩], results := [some Ty.i32] },
  .moveBefore ⟨1⟩]

theorem reachable_lingering : Reachable (Request.run lingering {}) :=
  (Reachable.fresh .collect 0).run (by decide +kernel)

/-- On `lingering`, the results of the conditional are read at the places where those of the wait
were, and the cursor goes to the conditional. -/
theorem lingering_wait_wrapped :
    ∃ n c', Predication.predicateOp ⟨1⟩ (some ⟨1⟩) (Request.run lingering {}) = .ok n c' ∧
      Predication.Wraps (Request.run lingering {}) c' ⟨1⟩ (some ⟨1⟩) ⟨0⟩ n ∧
      c'.cursor.before = some n ∧ (c'.graph.block ⟨0⟩).ops = [n, ⟨2⟩] ∧
      (c'.graph.slot ⟨2⟩).value = (c'.graph.op n).results[1]? ∧
      (c'.graph.slot ⟨3⟩).value = (c'.graph.op n).results[0]? := by
  obtain ⟨hblock, hlive, hparent, hself, heffects, hkind, hown, hthere⟩ :
      ((Request.run lingering {}).graph.op ⟨1⟩).block = some ⟨0⟩ ∧
        ((Request.run lingering {}).graph.op ⟨1⟩).erased = false ∧
        (Request.run lingering {}).graph.parent ⟨1⟩ = some ⟨0⟩ ∧
        (Request.run lingering {}).graph.isAncestorOf ⟨1⟩ ⟨0⟩ = false ∧
        (Request.run lingering {}).graph.isEffectFree ⟨1⟩ = false ∧
        ((Request.run lingering {}).strategies.get
          ((Request.run lingering {}).graph.op ⟨1⟩).name).kind = .branch ∧
        (∀ v ∈ ((Request.run lingering {}).graph.op ⟨1⟩).results,
          some v ∉ (Request.run lingering {}).graph.operands ⟨1⟩ ∧ some ⟨1⟩ ≠ some v) ∧
        (Request.run lingering {}).graph.HasValue ⟨1⟩ := by decide +kernel
  have hzeros : ∀ ty ∈ (Request.run lingering {}).graph.resultTypes ⟨1⟩, Ops.hasZero ty = true := by
    decide +kernel
  obtain ⟨hcursor, hops, hresults, hslots, houtside, hheld⟩ :
      (Request.run lingering {}).cursor.before = some ⟨1⟩ ∧
        ((Request.run lingering {}).graph.block ⟨0⟩).ops = [⟨1⟩, ⟨2⟩] ∧
        ((Request.run lingering {}).graph.op ⟨1⟩).results = [⟨2⟩, ⟨3⟩] ∧
        (∀ s ∈ [(⟨2⟩ : SlotId), ⟨3⟩], (Request.run lingering {}).graph.HasSlot s) ∧
        (∀ s ∈ [(⟨2⟩ : SlotId), ⟨3⟩], (Request.run lingering {}).graph.slotInside ⟨1⟩ s = false) ∧
        ((Request.run lingering {}).graph.slot ⟨2⟩).value = some ⟨3⟩ ∧
        ((Request.run lingering {}).graph.slot ⟨3⟩).value = some ⟨2⟩ := by decide +kernel
  obtain ⟨n, c', hrun, hwraps⟩ := Predication.predicateOp_branch_wraps reachable_lingering hblock
    hlive (fun p hp => Option.some.inj (hparent.symm.trans hp) ▸ hself) heffects hkind
    (fun ty hty => Predication.hasZero_iff.mp (hzeros ty hty)) (fun v hv => (hown v hv).1) hthere.opt
    fun v hv => (hown v hv).2
  have hplace := hwraps.takesPlace
  refine ⟨n, c', hrun, hwraps, ?_, ?_, ?_, ?_⟩
  · rw [hwraps.cursor, if_pos hcursor]
  · rw [hplace.blocks ⟨0⟩ (by decide +kernel), hops]
    rfl
  · rw [hplace.result ⟨2⟩ 1 ⟨3⟩ (hslots _ (by simp)) (houtside _ (by simp)) (by rw [hresults]; rfl)
      hheld.1]
  · rw [hplace.result ⟨3⟩ 0 ⟨2⟩ (hslots _ (by simp)) (houtside _ (by simp)) (by rw [hresults]; rfl)
      hheld.2]

/-- A wait in a box that was erased, and a wait that lies inside itself. -/
def doomed : List Request := [
  .createDetached { name := Kinds.func },
  .addBlock ⟨0⟩ 0,
  .addArgument ⟨0⟩ (some Ty.i32),
  .addArgument ⟨0⟩ (some Ty.i1),
  .moveToEnd (some ⟨0⟩),
  .create { name := "x.box", regions := 1 },
  .addBlock ⟨1⟩ 0,
  .moveToEnd (some ⟨1⟩),
  .create { name := Kinds.wait, segments := [[some ⟨0⟩], [some ⟨0⟩]], results := [some Ty.i32] },
  .erase ⟨1⟩,
  .createDetached
    { name := Kinds.wait, segments := [[some ⟨0⟩], [some ⟨0⟩]], results := [some Ty.i32]
      regions := 1 },
  .addBlock ⟨3⟩ 0,
  .append ⟨2⟩ ⟨3⟩]

/-- On `doomed`, the wait in the box is still in its block, but cannot be erased a second time. When
the other one is erased, the conditional goes with it. -/
theorem doomed_waits_not_wrapped :
    Reachable (Request.run doomed {}) ∧
      (∀ i ∈ [(⟨2⟩ : OpId), ⟨3⟩],
        ((Request.run doomed {}).graph.op i).block.isSome ∧
        (Request.run doomed {}).graph.isEffectFree i = false ∧
        ((Request.run doomed {}).strategies.get
          ((Request.run doomed {}).graph.op i).name).kind = .branch ∧
        (∀ ty ∈ (Request.run doomed {}).graph.resultTypes i, Ops.hasZero ty = true) ∧
        ∀ v ∈ ((Request.run doomed {}).graph.op i).results,
          some v ∉ (Request.run doomed {}).graph.operands i ∧ some ⟨1⟩ ≠ some v) ∧
      (∃ m c', Predication.predicateOp ⟨2⟩ (some ⟨1⟩) (Request.run doomed {}) =
        .error (.misuse m) c') ∧
      ∃ n c', Predication.predicateOp ⟨3⟩ (some ⟨1⟩) (Request.run doomed {}) = .ok n c' ∧
        (c'.graph.op n).erased = true := by
  have hstopped : (match Predication.predicateOp ⟨2⟩ (some ⟨1⟩) (Request.run doomed {}) with
      | .error (.misuse _) _ => true
      | .error (.rejected _) _ | .error .fault _ | .ok _ _ => false) = true := by decide +kernel
  have herased : (match Predication.predicateOp ⟨3⟩ (some ⟨1⟩) (Request.run doomed {}) with
      | .error _ _ => false
      | .ok n c' => (c'.graph.op n).erased) = true := by decide +kernel
  refine ⟨(Reachable.fresh .collect 0).run (by decide +kernel), by decide +kernel, ?_, ?_⟩
  · split at hstopped
    · next m c' hrun => exact ⟨m, c', hrun⟩
    · cases hstopped
    · cases hstopped
    · cases hstopped
  · split at herased
    · cases herased
    · next n c' hrun => exact ⟨n, c', hrun, herased⟩

end Multistage
