import Multistage.Proofs.Build.BuilderSuccess
import Multistage.Proofs.Graph.OperandChanges
import Multistage.Proofs.Graph.SegmentValues

/-!
# Truth values of masks

An assignment gives every value a truth value for every position. It obeys the operations from
some number on if there a spread scalar has its truth value everywhere and a conjunction is one
position by position (`Obeys`). The mask that predication computes right before an operation is,
under every such assignment, the conjunction of the predicate and of the mask that was there.
-/

namespace Multistage

open BuildM Build

/-- A truth value for every position of a tensor; a scalar has the one position `[]`. -/
abbrev Lanes := List Int → Bool

namespace Lanes

/-- The scalar `l` at every position. -/
def spread (l : Lanes) : Lanes := fun _ => l []

/-- `l` and `m`, position by position. -/
def meet (l m : Lanes) : Lanes := fun pos => l pos && m pos

end Lanes

namespace Graph

/-! ## Assignments -/

/-- From operation `n` on, the results of spreading and of conjunction are what they should be. -/
structure Obeys (g : Graph) (n : Nat) (σ : ValueId → Lanes) : Prop where
  splat : ∀ d a r, n ≤ d.index → (g.op d).name = Kinds.splat → g.operands d = [some a] →
    r ∈ (g.op d).results → σ r = (σ a).spread
  andI : ∀ d a b r, n ≤ d.index → (g.op d).name = Kinds.andI → g.operands d = [some a, some b] →
    r ∈ (g.op d).results → σ r = (σ a).meet (σ b)

variable {g g' : Graph} {n : Nat} {σ : ValueId → Lanes}

/-- Every `σ` obeys no operations. -/
theorem Obeys.of_fresh (g : Graph) (σ : ValueId → Lanes) : g.Obeys g.ops.size σ := by
  have hnone : ∀ {d r}, g.ops.size ≤ d.index → r ∉ (g.op d).results := fun hd hr =>
    absurd (hasOp_of_mem_results hr) (Nat.not_lt.mpr hd)
  exact ⟨fun _ _ _ hd _ _ hr => absurd hr (hnone hd),
    fun _ _ _ _ hd _ _ hr => absurd hr (hnone hd)⟩

/-- `Obeys` looks at the operations with results, their names and what they read only. -/
theorem Obeys.congr (hσ : g.Obeys n σ)
    (h : ∀ d r, n ≤ d.index → r ∈ (g'.op d).results →
      (g.op d).name = (g'.op d).name ∧ g.operands d = g'.operands d ∧ r ∈ (g.op d).results) :
    g'.Obeys n σ := by
  refine ⟨fun d a r hd hname hreads hr => ?_, fun d a b r hd hname hreads hr => ?_⟩
  · obtain ⟨hname', hreads', hr'⟩ := h d r hd hr
    exact hσ.splat d a r hd (hname'.trans hname) (hreads'.trans hreads) hr'
  · obtain ⟨hname', hreads', hr'⟩ := h d r hd hr
    exact hσ.andI d a b r hd (hname'.trans hname) (hreads'.trans hreads) hr'

/-- What obeys the new operations, obeys those that were there. -/
theorem Obeys.of_retains (hσ : g'.Obeys n σ) {i : OpId} (h : g.Retains g' i) (hi : i.index < n) :
    g.Obeys n σ := by
  refine hσ.congr fun d r hd hr => ?_
  have hthere := hasOp_of_mem_results hr
  obtain ⟨_, _, hrow⟩ := h.row d hthere
  refine ⟨by rw [hrow], h.reads d hthere ?_, by rw [hrow]; exact hr⟩
  rintro rfl
  omega

/-- Where no operation is new, what obeys those that were there, obeys all. -/
theorem Obeys.retained (hσ : g.Obeys n σ) {i : OpId} (h : g.Retains g' i) (hi : i.index < n)
    (hsize : g'.ops.size = g.ops.size) : g'.Obeys n σ := by
  refine hσ.congr fun d r hd hr => ?_
  have hthere : g.HasOp d := by
    have hthere := hasOp_of_mem_results hr
    rwa [HasOp, hsize] at hthere
  obtain ⟨_, _, hrow⟩ := h.row d hthere
  refine ⟨by rw [hrow], (h.reads d hthere ?_).symm, by rw [hrow] at hr; exact hr⟩
  rintro rfl
  omega

/-- The new operation of `inserted` reads what it was given. -/
theorem operands_inserted_self (g : Graph) (o : Op) (vals : List (Option ValueId))
    (types : List (Option Ty)) (b : BlockId) (k : Nat) :
    (g.inserted o vals types b k).operands g.nextOp = vals := by
  unfold operands
  rw [op_inserted_self]
  refine List.ext_getElem? fun m => ?_
  rw [List.getElem?_map]
  by_cases hm : m < vals.length
  · have hslot : (slotsFrom g.slots.size vals.length)[m]? = some ⟨g.slots.size + m⟩ :=
      getElem?_slotsFrom.mpr ⟨hm, rfl⟩
    have hval := List.getElem?_eq_getElem hm
    rw [hslot, hval, Option.map_some, slot_inserted, slot_install_of_getElem? g o vals types hval]
  · rw [List.getElem?_eq_none (by rw [length_slotsFrom]; omega), List.getElem?_eq_none (by omega)]
    rfl

/-- What the result of an operation `name` that reads `vals` has to be. -/
def prescribed (σ : ValueId → Lanes) (name : String) (vals : List (Option ValueId)) :
    Option Lanes :=
  match vals with
  | [some a] => if name = Kinds.splat then some (σ a).spread else none
  | [some a, some b] => if name = Kinds.andI then some ((σ a).meet (σ b)) else none
  | _ => none

/-- `prescribed` looks at the values that are read only. -/
theorem prescribed_congr {σ σ' : ValueId → Lanes} {vals : List (Option ValueId)}
    (h : ∀ a, some a ∈ vals → σ' a = σ a) (name : String) :
    prescribed σ' name vals = prescribed σ name vals := by
  unfold prescribed
  split
  · rw [h _ List.mem_cons_self]
  · rw [h _ List.mem_cons_self, h _ (List.mem_cons_of_mem _ List.mem_cons_self)]
  · rfl

/-- `σ` obeys the operations if it gives the results what is `prescribed` for them. -/
theorem obeys_iff : g.Obeys n σ ↔ ∀ d r, n ≤ d.index → r ∈ (g.op d).results →
    ∀ l, prescribed σ (g.op d).name (g.operands d) = some l → σ r = l := by
  constructor
  · intro hσ d r hd hr l hl
    unfold prescribed at hl
    split at hl
    · next a hreads =>
      obtain ⟨hname, ⟨⟩⟩ := Option.ite_none_right_eq_some.mp hl
      exact hσ.splat d a r hd hname hreads hr
    · next a b hreads =>
      obtain ⟨hname, ⟨⟩⟩ := Option.ite_none_right_eq_some.mp hl
      exact hσ.andI d a b r hd hname hreads hr
    · cases hl
  · intro h
    refine ⟨fun d a r hd hname hreads hr => ?_, fun d a b r hd hname hreads hr => ?_⟩
    · exact h d r hd hr _ (by rw [hname, hreads]; rfl)
    · exact h d r hd hr _ (by rw [hname, hreads]; rfl)

/-- An assignment `σ` of the values that are there can be continued to the result of a new
operation. -/
theorem Insertable.exists_obeys {o : Op} {vals : List (Option ValueId)} {b : BlockId} {k : Nat}
    (h : g.Insertable o vals b k) (ty : Option Ty) (hσ : g.Obeys n σ) :
    ∃ σ', (g.inserted o vals [ty] b k).Obeys n σ' ∧ ∀ v, g.HasValue v → σ' v = σ v := by
  -- the result of the new operation is the one value whose truth may still be chosen
  set new : ValueId := ⟨g.values.size⟩
  set σ' := Function.update σ new ((prescribed σ o.name vals).getD (σ new)) with hσ'
  have hold : ∀ v, g.HasValue v → σ' v = σ v := by
    intro v hv
    refine Function.update_of_ne ?_ _ _
    rintro rfl
    exact Nat.lt_irrefl _ hv
  refine ⟨σ', obeys_iff.mpr fun d r hd hr l hl => ?_, hold⟩
  by_cases hdn : d = g.nextOp
  · subst hdn
    rw [op_inserted_self] at hr hl
    rw [operands_inserted_self,
      prescribed_congr fun a ha => hold a (h.vals_there (some a) ha a rfl)] at hl
    rw [List.mem_singleton.mp hr, hσ', Function.update_self, hl]
    rfl
  · -- an operation that was there reads and gives what it did
    rw [op_inserted_of_ne g o vals [ty] b k hdn] at hr hl
    have hread : ∀ a, some a ∈ g.operands d → g.HasValue a := by
      intro a ha
      obtain ⟨s, -, hs⟩ := List.mem_map.mp ha
      exact h.wellFormed.uses.held s a hs
    rw [(Retains.inserted h [ty] g.nextOp).reads d (hasOp_of_mem_results hr) hdn,
      prescribed_congr fun a ha => hold a (hread a ha)] at hl
    rw [hold r (h.wellFormed.owned.mem_results_iff.mp hr).1]
    exact obeys_iff.mp hσ d r hd hr l hl

end Graph

/-! ## Creating right before an operation -/

/-- The cursor stands right before an operation `i` that is in a block. -/
structure Beside (c : Context) (i : OpId) : Prop where
  sound : c.Sound
  before : c.cursor.before = some i
  block : c.cursor.block = (c.graph.op i).block
  placed : (c.graph.op i).block.isSome

theorem Beside.exists_at {c : Context} {i : OpId} (h : Beside c i) : ∃ b k, c.At b k := by
  obtain ⟨b, hb⟩ := Option.isSome_iff_exists.mp h.placed
  obtain ⟨k, hk⟩ := exists_at_of_before h.sound.graph.members hb
  refine ⟨b, k, h.block.trans hb, ?_⟩
  rw [h.before]
  exact hk

theorem Beside.withLoc {c : Context} {i : OpId} (h : Beside c i) (loc : Location) :
    Beside { c with cursor := { c.cursor with loc } } i :=
  ⟨h.sound.advance (.move _ h.sound.cursor), h.before, h.block, h.placed⟩

/-- Operations were added, and nothing else has changed. Every assignment that obeys the operations
from `n` on can be continued. -/
structure Adds (n : Nat) (c c' : Context) : Prop where
  retains : ∀ i, c.graph.Retains c'.graph i
  row : ∀ i, c.graph.HasOp i → c'.graph.op i = c.graph.op i
  cursor : c'.cursor = c.cursor
  strategies : c'.strategies = c.strategies
  assignable : ∀ σ, c.graph.Obeys n σ →
    ∃ σ', c'.graph.Obeys n σ' ∧ ∀ v, c.graph.HasValue v → σ' v = σ v

namespace Adds

variable {n : Nat} {c c' c'' : Context}

theorem refl (n : Nat) (c : Context) : Adds n c c where
  retains i := .refl _ i
  row _ _ := rfl
  cursor := rfl
  strategies := rfl
  assignable σ hσ := ⟨σ, hσ, fun _ _ => rfl⟩

theorem trans (h : Adds n c c') (h' : Adds n c' c'') : Adds n c c'' where
  retains i := (h.retains i).trans (h'.retains i)
  row i hi := (h'.row i ((h.retains i).within.hasOp hi)).trans (h.row i hi)
  cursor := h'.cursor.trans h.cursor
  strategies := h'.strategies.trans h.strategies
  assignable σ hσ := by
    obtain ⟨σ₁, hσ₁, hfirst⟩ := h.assignable σ hσ
    obtain ⟨σ₂, hσ₂, hsecond⟩ := h'.assignable σ₁ hσ₁
    refine ⟨σ₂, hσ₂, fun v hv => ?_⟩
    rw [hsecond v ((h.retains ⟨0⟩).within.hasValue hv), hfirst v hv]

/-- An operation `i` that was there has what it had in its segments. -/
theorem segment? (h : Adds n c c') {i : OpId} (hi : c.graph.HasOp i) (name : String) :
    c'.graph.segment? i name = c.graph.segment? i name := by
  -- the slots of one operation may be exempt from what is retained; let it be another one
  have hother : i ≠ ⟨i.index + 1⟩ := fun heq => absurd (congrArg OpId.index heq) (by simp)
  have hreads := (h.retains _).reads i hi hother
  unfold Graph.operands at hreads
  rw [h.row i hi] at hreads
  have hheld := List.map_inj_left.mp hreads
  unfold Graph.segment?
  rw [h.row i hi]
  cases hslots : (c.graph.op i).segmentSlots? name with
  | none => rfl
  | some slots =>
    exact congrArg some (List.map_congr_left fun s hs =>
      hheld s (Op.mem_operands_of_segmentSlots? hslots s hs))

theorem beside (h : Adds n c c') {i : OpId} (hbeside : Beside c i) (hadv : c.Advances c') :
    Beside c' i := by
  have hi : c.graph.HasOp i := hbeside.sound.cursor.2 i hbeside.before
  refine ⟨hbeside.sound.advances hadv, ?_, ?_, ?_⟩
  · rw [h.cursor, hbeside.before]
  · rw [h.cursor, h.row i hi, hbeside.block]
  · rw [h.row i hi]
    exact hbeside.placed

end Adds

section

variable {n : Nat} {c : Context} {i : OpId}

/-- An operation of a kind without segments, created right before `i`, with one result. -/
theorem gives_createValue_beside (h : Beside c i) {name : String} {k : OpKind}
    (hk : Catalog.builtin.find? name = some k) (hsegments : k.segments = []) (vals : List ValueId)
    (hvals : ∀ v ∈ vals, c.graph.HasValue v) (ty : Option Ty) :
    (createValue { name, operands := vals.map some, results := [ty] }).Gives c fun v c' =>
      Adds n c c' ∧ c'.graph.HasValue v ∧ c'.graph.typeOf v = ty ∧
      ∃ d : OpId, c.graph.ops.size ≤ d.index ∧ (c'.graph.op d).name = name ∧
        c'.graph.operands d = vals.map some ∧ v ∈ (c'.graph.op d).results := by
  have hspec : c.graph.HasSpec { name, operands := vals.map some, results := [ty] } :=
    ⟨Graph.hasOptValue_of_mem_map hvals, nofun⟩
  obtain ⟨b, m, hat⟩ := h.exists_at
  refine (gives_createValue h.sound hspec (Nat.zero_le _) (List.cons_ne_nil _ _) hat).imp
    fun v c' hadv hc => ?_
  obtain ⟨rfl, loc, -, rfl⟩ := hc
  set spec : OpSpec := { name, loc, operands := vals.map some, results := [ty] }
  -- the created operation is an insertion at the cursor, and each field follows from that
  have hins := insertable h.sound spec hspec hat
  have hgraph := graph_created c spec b m
  have hoperands : c.operandsOf spec = vals.map some := operandsOf_of_find? h.sound hk hsegments
  have hself : (c.insertion spec b m).op c.graph.nextOp = _ := Graph.op_inserted_self _ _ _ _ _ _
  refine ⟨⟨fun j => ?_, fun j hj => ?_, rfl, rfl, fun σ hσ => ?_⟩, ?_, ?_, c.graph.nextOp,
    Nat.le_refl _, ?_, ?_, ?_⟩
  · rw [hgraph]
    exact .inserted hins [ty] j
  · rw [hgraph]
    exact Graph.op_inserted_of_ne _ _ _ _ _ _ hj.ne_nextOp
  · rw [hgraph]
    exact hins.exists_obeys ty hσ
  · have hsize : (c.insertion spec b m).values.size = c.graph.values.size + 1 :=
      Graph.size_values_install _ _ _ _
    rw [hgraph, Graph.HasValue, hsize]
    exact Nat.lt_succ_self _
  · rw [hgraph]
    exact Graph.typeOf_inserted_new c.graph _ _ [ty] b m (n := 0) rfl
  · rw [hgraph, hself]
    rfl
  · rw [hgraph, ← hoperands]
    exact Graph.operands_inserted_self _ _ _ _ _ _
  · rw [hgraph, hself]
    exact List.mem_singleton_self _

end

/-! ## The mask -/

namespace Predication

open Ops

variable {n : Nat} {c : Context} {i : OpId} {pred : ValueId}

/-- Whether `shapeMask` has to spread `pred` to make it a mask of type `ty`. -/
def spreads (g : Graph) (ty : Ty) (pred : ValueId) : Bool :=
  isTensor (some ty) && sameTy? (g.typeOf pred) (some ty) == some false

/-- The type of `pred` in the shape of a mask. -/
def shapedTy (g : Graph) (ty : Ty) (pred : ValueId) : Option Ty :=
  if spreads g ty pred then some ty else g.typeOf pred

/-- The truth values of `pred` in the shape of a mask. -/
def shapedLanes (g : Graph) (ty : Ty) (pred : ValueId) (σ : ValueId → Lanes) : Lanes :=
  if spreads g ty pred then (σ pred).spread else σ pred

/-- `shapeMask` fails where the type of `pred` has no text and cannot be compared. -/
theorem meets_shapeMask (h : Beside c i) (hn : n ≤ c.graph.ops.size)
    (hpred : c.graph.HasValue pred) (ty : Ty) :
    (shapeMask ty pred).Meets c
      (fun m c' => Adds n c c' ∧ c'.graph.HasValue m ∧
        c'.graph.typeOf m = shapedTy c.graph ty pred ∧
        ∀ σ, c'.graph.Obeys n σ → σ m = shapedLanes c.graph ty pred σ)
      fun _ _ => sameTy? (c.graph.typeOf pred) (some ty) = none := by
  -- a predicate that need not be spread is handed back as it is
  have hsame : spreads c.graph ty pred = false → (Pure.pure pred : BuildM ValueId).Meets c
      (fun m c' => Adds n c c' ∧ c'.graph.HasValue m ∧
        c'.graph.typeOf m = shapedTy c.graph ty pred ∧
        ∀ σ, c'.graph.Obeys n σ → σ m = shapedLanes c.graph ty pred σ)
      fun _ _ => sameTy? (c.graph.typeOf pred) (some ty) = none := by
    intro hspreads
    refine .pure ⟨.refl n c, hpred, ?_, fun σ _ => ?_⟩
    · rw [shapedTy, hspreads]
      rfl
    · rw [shapedLanes, hspreads]
      rfl
  unfold shapeMask
  split
  · refine ((gives_typeOf pred).meets _).bind fun ty' c₁ _ hc => ?_
    obtain ⟨rfl, rfl⟩ := hc
    refine (meets_present id).bind fun same c₂ _ hc => ?_
    obtain ⟨htext, rfl⟩ := hc
    cases same with
    | true =>
      refine hsame ?_
      rw [spreads, htext, Bool.and_eq_false_iff]
      exact Or.inr rfl
    | false =>
      have hspreads : spreads c₂.graph ty pred = true := by
        rw [spreads, htext, Bool.and_eq_true]
        exact ⟨by assumption, rfl⟩
      refine ((gives_createValue_beside (n := n) h (k := { name := Kinds.splat }) (by decide) rfl
        [pred] (fun v hv => List.mem_singleton.mp hv ▸ hpred) (some ty)).meets _).imp
        (fun m c' _ hc => ?_) fun _ _ _ hR => hR
      obtain ⟨hadds, hthere, hty, d, hd, hname, hreads, hm⟩ := hc
      refine ⟨hadds, hthere, ?_, fun σ hσ => ?_⟩
      · rw [hty, shapedTy, hspreads]
        rfl
      · rw [shapedLanes, hspreads]
        exact hσ.splat d pred m (Nat.le_trans hn hd) hname hreads hm
  · next htensor =>
    refine hsame ?_
    rw [spreads, Bool.eq_false_iff.mpr htensor]
    rfl

theorem gives_locOf (pred : ValueId) : (locOf pred).Gives c fun _ c' => c' = c := by
  refine gives_graph.bind fun g c' _ hc => ?_
  obtain ⟨rfl, rfl⟩ := hc
  cases c'.graph.definingOp pred with
  | some d => exact .pure rfl
  | none => exact gives_cursor.bind fun _ _ _ hc => .pure hc.2

/-- `predMask` gives `pred` in shape and, if there was a mask, that mask as well. -/
theorem meets_predMask (h : Beside c i) (hi : i.index < n) (hn : n ≤ c.graph.ops.size)
    (hpred : c.graph.HasValue pred) {current : Option ValueId}
    (hcurrent : ∀ v ∈ current, c.graph.HasValue v) (like : Option Ty) :
    (predMask like current pred).Meets c
      (fun m c' => Adds n c c' ∧ c'.graph.HasValue m ∧
        c'.graph.typeOf m = shapedTy c.graph (maskTy like) pred ∧
        ∀ σ, c'.graph.Obeys n σ → ∀ pos,
          σ m pos = (shapedLanes c.graph (maskTy like) pred σ pos && current.all (σ · pos)))
      fun _ _ => sameTy? (c.graph.typeOf pred) (some (maskTy like)) = none := by
  refine ((gives_locOf pred).meets _).bind fun loc c₁ _ hc => ?_
  subst hc
  -- the location is set for the work and put back, which is a change of the cursor only
  refine (meets_withLoc h.sound
    (P := fun m c' => Adds n { c₁ with cursor := { c₁.cursor with loc } } c' ∧
      c'.graph.HasValue m ∧ c'.graph.typeOf m = shapedTy c₁.graph (maskTy like) pred ∧
      ∀ σ, c'.graph.Obeys n σ → ∀ pos,
        σ m pos = (shapedLanes c₁.graph (maskTy like) pred σ pos && current.all (σ · pos)))
    (R := fun _ _ => sameTy? (c₁.graph.typeOf pred) (some (maskTy like)) = none) ?_).imp
    (fun m c' _ hc => ?_) fun _ c' _ hc => ?_
  · refine (meets_shapeMask (h.withLoc loc) hn hpred (maskTy like)).bind fun mask c₂ hadv hc => ?_
    obtain ⟨hadds, hmask, hty, hlanes⟩ := hc
    cases current with
    | none =>
      refine .pure ⟨hadds, hmask, hty, fun σ hσ pos => ?_⟩
      rw [hlanes σ hσ]
      exact (Bool.and_true _).symm
    | some v =>
      refine ((gives_typeOf mask).meets _).bind fun ty c₃ _ hc => ?_
      obtain ⟨rfl, rfl⟩ := hc
      have hvals : ∀ w ∈ [mask, v], c₃.graph.HasValue w := by
        intro w hw
        rcases List.mem_cons.mp hw with rfl | hw
        · exact hmask
        · rw [List.mem_singleton.mp hw]
          exact (hadds.retains i).within.hasValue (hcurrent v rfl)
      refine ((gives_createValue_beside (n := n) (hadds.beside (h.withLoc loc) hadv)
        (k := { name := Kinds.andI }) (by decide) rfl _ hvals (c₃.graph.typeOf mask)).meets _).imp
        (fun m c' _ hc => ?_) fun _ _ _ hR => hR
      obtain ⟨hadds', hthere, hty', d, hd, hname, hreads, hm⟩ := hc
      refine ⟨hadds.trans hadds', hthere, hty'.trans hty, fun σ hσ pos => ?_⟩
      -- the conjunction reads the shaped predicate, whose truth the assignment keeps from before
      have hd' : n ≤ d.index :=
        Nat.le_trans hn (Nat.le_trans (hadds.retains i).within.ops hd)
      rw [hσ.andI d mask v m hd' hname hreads hm, ← hlanes σ (hσ.of_retains (hadds'.retains i) hi)]
      rfl
  · obtain ⟨d, ⟨hadds, hm, hty, hlanes⟩, rfl⟩ := hc
    refine ⟨⟨hadds.retains, hadds.row, ?_, hadds.strategies, hadds.assignable⟩, hm, hty, hlanes⟩
    rw [hadds.cursor]
  · obtain ⟨d, hR, -⟩ := hc
    exact hR

/-! ## Setting the mask -/

/-- The operand that the mask has to fit: that of the segment `s.ref`, and the mask itself if `s`
names none. -/
def reference? (g : Graph) (i : OpId) (s : Strategy) : Option (Option ValueId) :=
  g.segmentValue? i (if s.ref = "" then s.segment else s.ref)

/-- The type of the mask that `predicateSegment` puts in. -/
def newMaskTy (g : Graph) (ref : Option ValueId) (pred : ValueId) : Option Ty :=
  match ref with
  | none => g.typeOf pred
  | some r => shapedTy g (maskTy (g.typeOf r)) pred

/-- The truth values of the mask that `predicateSegment` puts in. -/
def newMaskLanes (g : Graph) (ref current : Option ValueId) (pred : ValueId)
    (σ : ValueId → Lanes) : Lanes := fun pos =>
  match ref with
  | none => σ pred pos
  | some r => shapedLanes g (maskTy (g.typeOf r)) pred σ pos && current.all (σ · pos)

/-- The mask `m` was computed before the operation and put into its segment. -/
structure Remasks (n : Nat) (c : Context) (i : OpId) (s : Strategy) (pred m : ValueId)
    (d c' : Context) : Prop where
  adds : Adds n c d
  sound : d.Sound
  there : d.graph.HasValue m
  lanes : ∃ current ref, c.graph.segmentValue? i s.segment = some current ∧
    reference? c.graph i s = some ref ∧ d.graph.typeOf m = newMaskTy c.graph ref pred ∧
    ∀ σ, d.graph.Obeys n σ → σ m = newMaskLanes c.graph ref current pred σ
  graph : d.graph.setSegment i s.segment [some m] = .ok c'.graph
  cursor : c'.cursor = c.cursor
  strategies : c'.strategies = c.strategies

/-- The operands of `i` are cut at the segment of the mask, and the type of `pred` can be compared.
-/
def Ready (g : Graph) (i : OpId) (s : Strategy) (pred : ValueId) : Prop :=
  Nonempty ((g.op i).Cut s.segment) ∧
    ∀ like, sameTy? (g.typeOf pred) (some (maskTy like)) ≠ none

theorem Ready.segmentValue? {g : Graph} {s : Strategy} (h : Ready g i s pred) (name : String) :
    g.segmentValue? i name ≠ none := by
  obtain ⟨⟨p⟩, -⟩ := h
  have hsegment : ∃ vals, g.segment? i name = some vals := by
    unfold Graph.segment?
    by_cases hname : name = s.segment
    · rw [hname, p.segmentSlots?_self]
      exact ⟨_, rfl⟩
    · rw [p.segmentSlots?_other hname]
      exact ⟨_, rfl⟩
  obtain ⟨vals, hvals⟩ := hsegment
  rw [Graph.segmentValue?_of_segment? hvals]
  exact Option.some_ne_none _

theorem meets_segmentValue {s : Strategy} (name : String) :
    (segmentValue i name).Meets c
      (fun v c' => c.graph.segmentValue? i name = some v ∧ c' = c)
      fun _ _ => ¬ Ready c.graph i s pred := by
  refine (gives_graph.meets _).bind fun g c' _ hc => ?_
  obtain ⟨rfl, rfl⟩ := hc
  exact meets_present fun hnone hready => hready.segmentValue? name hnone

/-- The value that a segment starts with is there. -/
theorem hasValue_of_segmentValue? {g : Graph} (h : g.UsesAgree) {name : String}
    {v : Option ValueId} (hv : g.segmentValue? i name = some v) : ∀ w ∈ v, g.HasValue w := by
  rintro w ⟨⟩
  unfold Graph.segmentValue? at hv
  split at hv
  · cases hv
  · cases hv
  · obtain ⟨s, -, hs⟩ := Option.bind_eq_some_iff.mp hv
    exact h.held s w (Option.some.inj hs)

/-- `setSegment` with a mask `m` that was computed before `i` is the last step. It fails only if the
operands are not cut at the segment. -/
theorem meets_setMask (h : Beside c i) {s : Strategy} {current ref : Option ValueId}
    (hcurrent : c.graph.segmentValue? i s.segment = some current)
    (href : reference? c.graph i s = some ref) {m : ValueId} {d : Context} (hadv : c.Advances d)
    (hadds : Adds n c d) (hm : d.graph.HasValue m)
    (hty : d.graph.typeOf m = newMaskTy c.graph ref pred)
    (hlanes : ∀ σ, d.graph.Obeys n σ → σ m = newMaskLanes c.graph ref current pred σ) :
    (setSegment i s.segment [some m]).Meets d (fun _ c' => ∃ m d, Remasks n c i s pred m d c')
      fun _ _ => ¬ Ready c.graph i s pred := by
  have hthere : c.graph.HasOp i := h.sound.cursor.2 i h.before
  have hvals : ∀ v ∈ [some m], d.graph.HasOptValue v := by
    intro v hv
    rw [List.mem_singleton.mp hv]
    exact hm.opt
  have hsound := h.sound.advances hadv
  refine (meets_tryGraph (fun g hg => Graph.edits_setSegment hsound.graph.numbered hvals hg)
    fun e hfails hready => ?_).imp (fun _ c' _ hc => ?_) fun _ _ _ hR => hR
  · -- rows are as they were, so the operands are cut where they were
    obtain ⟨⟨p⟩, -⟩ := hready
    rw [← hadds.row i hthere] at p
    obtain ⟨g, hg, -⟩ := Graph.exists_setSegment hsound.graph.numbered p
      ((hadds.retains i).within.hasOp hthere) [m]
    cases hfails.symm.trans hg
  · obtain ⟨g, hg, rfl⟩ := hc
    exact ⟨m, d, hadds, hsound, hm, ⟨current, ref, hcurrent, href, hty, hlanes⟩, hg, hadds.cursor,
      hadds.strategies⟩

/-- `ref` decides whether there is anything to compute. -/
theorem meets_fitMask (h : Beside c i) (hi : i.index < n) (hn : n ≤ c.graph.ops.size)
    (hpred : c.graph.HasValue pred) {s : Strategy} {current : Option ValueId}
    (hcurrent : c.graph.segmentValue? i s.segment = some current) (ref : Option ValueId)
    (href : reference? c.graph i s = some ref) :
    Meets (match ref with
      | none => do
        let mask ← pure (some pred)
        setSegment i s.segment [mask]
      | some r => do
        let p ← present (some pred)
        let mask ← some <$> predMask (← typeOf r) current p
        setSegment i s.segment [mask]) c
      (fun _ c' => ∃ m d, Remasks n c i s pred m d c') fun _ _ => ¬ Ready c.graph i s pred := by
  -- without an operand to fit, the predicate itself is the mask
  cases ref with
  | none => exact meets_setMask h hcurrent href .refl (.refl n c) hpred rfl fun σ _ => rfl
  | some r =>
    refine ((gives_present (a := some pred) rfl).meets _).bind fun p c₂ _ hc => ?_
    obtain ⟨rfl, rfl⟩ := hc
    refine ((gives_typeOf r).meets _).bind fun ty c₃ _ hc => ?_
    obtain ⟨rfl, rfl⟩ := hc
    have hmask := meets_predMask h hi hn hpred
      (hasValue_of_segmentValue? h.sound.graph.uses hcurrent) (c₃.graph.typeOf r)
    have hmask' : (some <$> predMask (c₃.graph.typeOf r) current p).Meets c₃
        (fun m c' => ∃ v, m = some v ∧ Adds n c₃ c' ∧ c'.graph.HasValue v ∧
          c'.graph.typeOf v = newMaskTy c₃.graph (some r) p ∧
          ∀ σ, c'.graph.Obeys n σ → σ v = newMaskLanes c₃.graph (some r) current p σ)
        fun _ _ => ¬ Ready c₃.graph i s p := by
      refine (hmask.imp (fun m c' _ hc => hc) fun _ _ _ hnone hready => ?_).bind
        fun m c' _ hc => .pure ⟨m, rfl, hc.1, hc.2.1, hc.2.2.1, fun σ hσ => ?_⟩
      · exact hready.2 _ hnone
      · exact funext fun pos => hc.2.2.2 σ hσ pos
    refine hmask'.bind fun m c₄ hadv hc => ?_
    obtain ⟨v, rfl, hadds, hv, hty, hlanes⟩ := hc
    exact meets_setMask h hcurrent href hadv hadds hv hty hlanes

/-- `predicateSegment` computes the mask from the old one and puts it in. It fails only if the
operands are not cut at the segment or the types cannot be compared. -/
theorem meets_predicateSegment (h : Beside c i) (hi : i.index < n) (hn : n ≤ c.graph.ops.size)
    (hpred : c.graph.HasValue pred) (s : Strategy) :
    (predicateSegment i s (some pred)).Meets c (fun _ c' => ∃ m d, Remasks n c i s pred m d c')
      fun _ _ => ¬ Ready c.graph i s pred := by
  refine (meets_segmentValue (s := s) s.segment).bind fun current c₁ _ hc => ?_
  obtain ⟨hcurrent, rfl⟩ := hc
  dsimp only
  -- a strategy that names no operand measures the mask by the one that is there
  split
  · next hnone =>
    refine meets_fitMask h hi hn hpred hcurrent current ?_
    rw [reference?, if_pos hnone]
    exact hcurrent
  · next hsome =>
    refine (meets_segmentValue (s := s) s.ref).bind fun ref c₂ _ hc => ?_
    obtain ⟨href, rfl⟩ := hc
    refine meets_fitMask h hi hn hpred hcurrent ref ?_
    rw [reference?, if_neg hsome]
    exact href

end Predication

end Multistage
