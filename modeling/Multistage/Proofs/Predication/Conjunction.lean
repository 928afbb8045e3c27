import Multistage.Proofs.Build.Reachable
import Multistage.Proofs.Predication.Lanes

/-!
# Predicates accumulate

An operation with a mask or a condition is predicated by one scalar after the other. It stays the
same operation, and its mask segment ends up with one value that is true where all the predicates
and the mask it started from are. Everything else about the operation stays as it was.
-/

namespace Multistage

/-- The positions `pos` that a value of type `ty` has a truth value at. -/
def Ty.HasIndex (ty : Ty) (pos : List Int) : Prop :=
  match ty with
  | .tensor t => List.Forall₂ (fun p extent => 0 ≤ p ∧ p < extent) pos t.shape
  | _ => pos = []

/-- `maskTy` is a tensor of truth values or a truth value. -/
theorem maskTy_cases (like : Option Ty) :
    (∃ t : TensorTy, maskTy like = .tensor { t with elem := some Ty.i1 }) ∨
      maskTy like = Ty.i1 := by
  unfold maskTy
  split
  · exact Or.inl ⟨_, rfl⟩
  · exact Or.inr rfl

theorem maskTy_maskTy (like : Option Ty) : maskTy (some (maskTy like)) = maskTy like := by
  obtain ⟨t, ht⟩ | hi1 := maskTy_cases like
  · rw [ht]
    rfl
  · rw [hi1]
    rfl

/-- `sameTy?` tells a truth value from a tensor of truth values by their texts. -/
theorem sameTy?_i1_tensor (t : TensorTy) :
    sameTy? (some Ty.i1) (some (.tensor { t with elem := some Ty.i1 })) = some false := by
  have htext : (Ty.tensor { t with elem := some Ty.i1 }).text =
      some ("tensor<" ++ extentsText t.shape ++ "i1" ++ trailingText t.encoding ++ ">") := by
    rw [Ty.text, TensorTy.text]
    rfl
  have hne : "i1" ≠ "tensor<" ++ extentsText t.shape ++ "i1" ++ trailingText t.encoding ++ ">" := by
    intro heq
    have hchars := congrArg String.toList heq
    simp only [String.toList_append, List.append_assoc] at hchars
    -- the first letters differ
    exact absurd (List.cons.inj hchars).1 (by decide)
  have hi1 : Ty.i1.text = some "i1" := rfl
  simp only [sameTy?, htext, hi1]
  exact congrArg some (beq_eq_false_iff_ne.mpr hne)

namespace Predication

open BuildM Build Multistage.Graph

variable {n : Nat} {c c' c'' d : Context} {g : Graph} {i : OpId} {s : Strategy} {pred m : ValueId}

/-! ## The mask of a scalar predicate -/

theorem sameTy?_ne_none (hpred : g.typeOf pred = some Ty.i1) (like : Option Ty) :
    sameTy? (g.typeOf pred) (some (maskTy like)) ≠ none := by
  rw [hpred]
  obtain ⟨t, ht⟩ | hi1 := maskTy_cases like
  · rw [ht, sameTy?_i1_tensor]
    exact Option.some_ne_none _
  · rw [hi1]
    exact Option.some_ne_none _

theorem shapedTy_scalar (hpred : g.typeOf pred = some Ty.i1) (like : Option Ty) :
    shapedTy g (maskTy like) pred = some (maskTy like) := by
  unfold shapedTy spreads
  rw [hpred]
  obtain ⟨t, ht⟩ | hi1 := maskTy_cases like
  · rw [ht, sameTy?_i1_tensor]
    rfl
  · rw [hi1]
    rfl

theorem shapedLanes_scalar (hpred : g.typeOf pred = some Ty.i1) {like : Option Ty} {pos : List Int}
    (hpos : (maskTy like).HasIndex pos) (σ : ValueId → Lanes) :
    shapedLanes g (maskTy like) pred σ pos = σ pred [] := by
  unfold shapedLanes spreads
  rw [hpred]
  obtain ⟨t, ht⟩ | hi1 := maskTy_cases like
  · rw [ht, sameTy?_i1_tensor]
    rfl
  · -- a truth value has the one position
    rw [hi1] at hpos ⊢
    exact congrArg (σ pred) hpos

/-! ## One predicate -/

/-- The mask segment holds at most one value, which is a mask of type `ty`, and that is the type of
a mask that fits the reference. -/
structure Maskable (g : Graph) (i : OpId) (s : Strategy) (ty : Ty)
    (held : List (Option ValueId)) : Prop where
  segment : g.segment? i s.segment = some held
  atMostOne : held.length ≤ 1
  typed : ∀ v, some v ∈ held → g.typeOf v = some ty
  reference : ∃ ref, reference? g i s = some ref ∧ (s.ref ≠ "" → ref.isSome) ∧
    maskTy (ref.bind g.typeOf) = ty

/-- The new mask is of the type `ty` that fits, and it is true where `pred` and the old mask are. -/
theorem Maskable.newMask {ty : Ty} {held : List (Option ValueId)} (h : Maskable g i s ty held)
    (hpred : g.typeOf pred = some Ty.i1) {current ref : Option ValueId}
    (hcurrent : g.segmentValue? i s.segment = some current) (href : reference? g i s = some ref) :
    newMaskTy g ref pred = some ty ∧ ∀ σ pos, ty.HasIndex pos →
      (newMaskLanes g ref current pred σ pos = true ↔
        σ pred [] = true ∧ ∀ v, some v ∈ held → σ v pos = true) := by
  obtain ⟨ref', href', hthere, rfl⟩ := h.reference
  cases href.symm.trans href'
  cases hcurrent.symm.trans (segmentValue?_of_segment? h.segment)
  -- what is combined is the first value of the segment, and there is no second one
  have hheld : ∀ (σ : ValueId → Lanes) pos,
      held.head?.join.all (σ · pos) = true ↔ ∀ v, some v ∈ held → σ v pos = true := by
    intro σ pos
    match held, h.atMostOne with
    | [], _ => simp
    | [none], _ => simp
    | [some v], _ => simp
  cases ref with
  | some r =>
    refine ⟨shapedTy_scalar hpred _, fun σ pos hpos => ?_⟩
    have hshaped : shapedLanes g (maskTy (g.typeOf r)) pred σ pos = σ pred [] :=
      shapedLanes_scalar hpred hpos σ
    show (shapedLanes g (maskTy (g.typeOf r)) pred σ pos && _) = true ↔ _
    rw [hshaped, Bool.and_eq_true, hheld]
  | none =>
    refine ⟨hpred, fun σ pos hpos => ?_⟩
    -- without a reference the mask itself would be one, so there is no mask
    have hself : s.ref = "" := by
      by_contra hne
      cases hthere hne
    rw [reference?, if_pos hself, segmentValue?_of_segment? h.segment] at href
    rw [← hheld σ pos, Option.some.inj href]
    cases (show pos = [] from hpos)
    exact (and_iff_left rfl).symm

/-- `predicateOp` puts a mask into operation `i`, by the strategy `s`. -/
structure Predicable (c : Context) (i : OpId) (s : Strategy) : Prop where
  sound : c.Sound
  placed : (c.graph.op i).block.isSome
  effects : c.graph.isEffectFree i = false
  strategy : c.strategies.get (c.graph.op i).name = s
  usesSegment : s.kind.usesSegment = true
  nodup : (c.graph.op i).declared.Nodup
  declares : s.segment ∈ (c.graph.op i).declared

namespace Predicable

theorem hasOp (h : Predicable c i s) : c.graph.HasOp i := by
  obtain ⟨b, hb⟩ := Option.isSome_iff_exists.mp h.placed
  exact hasOp_of_block_eq_some hb

theorem cut (h : Predicable c i s) : Nonempty ((c.graph.op i).Cut s.segment) :=
  (h.sound.tiles i h.nodup).cut h.nodup h.declares

theorem retained (h : Predicable c i s) (hsound : c'.Sound) (hretains : c.graph.Retains c'.graph i)
    (hstrategies : c'.strategies = c.strategies) : Predicable c' i s := by
  obtain ⟨_, _, hrow⟩ := hretains.row i h.hasOp
  refine ⟨hsound, ?_, hretains.isEffectFree h.sound.graph h.hasOp h.effects, ?_, h.usesSegment,
    ?_, ?_⟩
  · rw [hrow]
    exact h.placed
  · rw [hrow, hstrategies]
    exact h.strategy
  · rw [hrow]
    exact h.nodup
  · rw [hrow]
    exact h.declares

end Predicable

/-- From one context to another, predicates were added to the mask segment of the operation, which
held `held` and holds `held'`. -/
structure Accumulates (n : Nat) (i : OpId) (s : Strategy) (ty : Ty) (c : Context)
    (held : List (Option ValueId)) (preds : List ValueId) (c' : Context)
    (held' : List (Option ValueId)) : Prop where
  retains : c.graph.Retains c'.graph i
  others : ∀ other, other ≠ s.segment → c'.graph.segment? i other = c.graph.segment? i other
  cursor : c'.cursor = c.cursor
  strategies : c'.strategies = c.strategies
  assignable : ∀ σ, c.graph.Obeys n σ →
    ∃ σ', c'.graph.Obeys n σ' ∧ ∀ v, c.graph.HasValue v → σ' v = σ v
  maskable : Maskable c'.graph i s ty held'
  single : preds = [] ∧ held' = held ∨ ∃ m, held' = [some m]
  lanes : ∀ σ, c'.graph.Obeys n σ → ∀ pos, ty.HasIndex pos →
    ((∀ v, some v ∈ held' → σ v pos = true) ↔
      (∀ p ∈ preds, σ p [] = true) ∧ ∀ v, some v ∈ held → σ v pos = true)

namespace Accumulates

variable {ty : Ty} {held held' held'' : List (Option ValueId)} {preds preds' : List ValueId}

theorem refl (n : Nat) (h : Maskable c.graph i s ty held) :
    Accumulates n i s ty c held [] c held where
  retains := .refl _ i
  others _ _ := rfl
  cursor := rfl
  strategies := rfl
  assignable σ hσ := ⟨σ, hσ, fun _ _ => rfl⟩
  maskable := h
  single := Or.inl ⟨rfl, rfl⟩
  lanes _ _ _ _ := (and_iff_right (fun _ hp => nomatch hp)).symm

theorem trans (h : Accumulates n i s ty c held preds c' held')
    (h' : Accumulates n i s ty c' held' preds' c'' held'') (hi : i.index < n) :
    Accumulates n i s ty c held (preds ++ preds') c'' held'' where
  retains := h.retains.trans h'.retains
  others other hne := (h'.others other hne).trans (h.others other hne)
  cursor := h'.cursor.trans h.cursor
  strategies := h'.strategies.trans h.strategies
  assignable σ hσ := by
    obtain ⟨σ₁, hσ₁, hfirst⟩ := h.assignable σ hσ
    obtain ⟨σ₂, hσ₂, hsecond⟩ := h'.assignable σ₁ hσ₁
    refine ⟨σ₂, hσ₂, fun v hv => ?_⟩
    rw [hsecond v (h.retains.within.hasValue hv), hfirst v hv]
  maskable := h'.maskable
  single := by
    obtain ⟨rfl, rfl⟩ | hsingle := h'.single
    · rw [List.append_nil]
      exact h.single
    · exact Or.inr hsingle
  lanes σ hσ pos hpos := by
    have hfirst := h.lanes σ (hσ.of_retains h'.retains hi) pos hpos
    rw [h'.lanes σ hσ pos hpos, hfirst, List.forall_mem_append]
    tauto

end Accumulates

/-- A mask `m` of the right type takes the place of the old one, also where that was the reference.
-/
theorem Maskable.remask {ty : Ty} {held : List (Option ValueId)}
    (h : Maskable c.graph i s ty held) (hop : Predicable c i s)
    (hretains : c.graph.Retains c'.graph i)
    (hself : c'.graph.segment? i s.segment = some [some m])
    (hothers : ∀ other, other ≠ s.segment → c'.graph.segment? i other = c.graph.segment? i other)
    (hty : c'.graph.typeOf m = some ty) : Maskable c'.graph i s ty [some m] := by
  refine ⟨hself, Nat.le_refl _, ?_, ?_⟩
  · intro v hv
    cases List.mem_singleton.mp hv
    exact hty
  obtain ⟨ref, href, hthere, rfl⟩ := h.reference
  -- the reference is the mask itself, or it is in another segment and still there
  by_cases hname : (if s.ref = "" then s.segment else s.ref) = s.segment
  · refine ⟨some m, ?_, fun _ => rfl, ?_⟩
    · rw [reference?, hname]
      exact segmentValue?_of_segment? hself
    · rw [Option.bind_some, hty, maskTy_maskTy]
  · obtain ⟨p⟩ := hop.cut
    have hsegment : c.graph.segment? i (if s.ref = "" then s.segment else s.ref) =
        some ((p.around (if s.ref = "" then s.segment else s.ref)).map
          fun t => (c.graph.slot t).value) := by
      unfold Graph.segment?
      rw [p.segmentSlots?_other hname]
      rfl
    have hkept := (hothers _ hname).trans hsegment
    have hsame : reference? c'.graph i s = reference? c.graph i s :=
      (segmentValue?_of_segment? hkept).trans (segmentValue?_of_segment? hsegment).symm
    refine ⟨ref, hsame.trans href, hthere, ?_⟩
    cases ref with
    | none => rfl
    | some r =>
      have hr := hasValue_of_segmentValue? hop.sound.graph.uses href r rfl
      rw [Option.bind_some, Option.bind_some, hretains.typeOf r hr]

/-- `Remasks` adds `pred` to the mask. -/
theorem Remasks.accumulates {ty : Ty} {held : List (Option ValueId)}
    (h : Remasks n c i s pred m d c') (hop : Predicable c i s)
    (hmask : Maskable c.graph i s ty held) (hi : i.index < n)
    (hpred : c.graph.typeOf pred = some Ty.i1) :
    Accumulates n i s ty c held [pred] c' [some m] := by
  have hvals : ∀ v ∈ [some m], d.graph.HasOptValue v := by
    intro v hv
    rw [List.mem_singleton.mp hv]
    exact h.there.opt
  have hset := Retains.setSegment h.sound.graph hvals h.graph
  have hretains := (h.adds.retains i).trans hset
  obtain ⟨p⟩ := hop.cut
  rw [← h.adds.row i hop.hasOp] at p
  obtain ⟨g', hok, hself, hothers⟩ := exists_setSegment h.sound.graph.numbered p
    ((h.adds.retains i).within.hasOp hop.hasOp) [m]
  -- the segment is set in one way only, so what is known of it is known of `c'`
  cases hok.symm.trans h.graph
  have hothers : ∀ other, other ≠ s.segment →
      c'.graph.segment? i other = c.graph.segment? i other := fun other hne =>
    (hothers other hne).trans (h.adds.segment? hop.hasOp other)
  obtain ⟨current, ref, hcurrent, href, hty, hlanes⟩ := h.lanes
  obtain ⟨hnewTy, hnewLanes⟩ := hmask.newMask hpred hcurrent href
  have hty : c'.graph.typeOf m = some ty := by rw [hset.typeOf m h.there, hty, hnewTy]
  refine ⟨hretains, hothers, h.cursor, h.strategies, fun σ hσ => ?_,
    hmask.remask hop hretains hself hothers hty, Or.inr ⟨m, rfl⟩, fun σ hσ pos hpos => ?_⟩
  · obtain ⟨σ', hσ', hkept⟩ := h.adds.assignable σ hσ
    exact ⟨σ', hσ'.retained hset hi (size_ops_setSegment h.graph), hkept⟩
  · simp only [List.mem_singleton, Option.some.injEq, forall_eq]
    rw [hlanes σ (hσ.of_retains hset hi)]
    exact hnewLanes σ pos hpos

/-- `predicateSegment` from anywhere: the cursor moves to `i` for the time being. -/
theorem gives_predicateSegment_keepingPoint {ty : Ty} {held : List (Option ValueId)}
    (hop : Predicable c i s) (hmask : Maskable c.graph i s ty held) (hi : i.index < n)
    (hn : n ≤ c.graph.ops.size) (hpred : c.graph.typeOf pred = some Ty.i1) :
    Gives (keepingPoint do
      moveBefore i
      predicateSegment i s (some pred)
      return i) c fun j c' => j = i ∧
        ∃ m, Accumulates n i s ty c held [pred] c' [some m] := by
  obtain ⟨b, hb⟩ := Option.isSome_iff_exists.mp hop.placed
  -- the work is done with the cursor right before the operation
  set moved : Context :=
    { c with cursor := { c.cursor with block := some b, before := some i } }
  have hinner : Gives (do
      moveBefore i
      predicateSegment i s (some pred)
      return i) c fun j c' => j = i ∧
        ∃ m, Accumulates n i s ty moved held [pred] c' [some m] := by
    refine (gives_moveBefore hop.sound hb).bind fun _ c₁ hadv hc => ?_
    subst hc
    have hbeside : Beside moved i := ⟨hop.sound.advances hadv, rfl, hb.symm, hop.placed⟩
    have hready : Ready c.graph i s pred := ⟨hop.cut, sameTy?_ne_none hpred⟩
    refine ((meets_predicateSegment hbeside hi hn (hasValue_of_typeOf hpred) s).imp
      (fun _ c' _ hc => hc) fun _ _ _ hnot => absurd hready hnot).bind fun _ c₂ _ hc => ?_
    obtain ⟨m, d, hremasks⟩ := hc
    have hop' : Predicable moved i s := hop.retained hbeside.sound (.refl _ i) rfl
    exact .pure ⟨rfl, m, hremasks.accumulates hop' hmask hi hpred⟩
  refine (meets_keepingPoint hop.sound hinner).imp (fun j c' _ hc => ?_) fun _ _ _ hc => ?_
  · obtain ⟨d, ⟨rfl, m, hacc⟩, rfl⟩ := hc
    refine ⟨rfl, m, hacc.retains, hacc.others, ?_, hacc.strategies, hacc.assignable,
      hacc.maskable, hacc.single, hacc.lanes⟩
    show { d.cursor with block := c.cursor.block, before := c.cursor.before } = c.cursor
    rw [hacc.cursor]
  · obtain ⟨_, hfalse, -⟩ := hc
    exact hfalse

/-- `predicateOp` of an operation that carries a mask adds `pred` to it. -/
theorem gives_predicateOp {ty : Ty} {held : List (Option ValueId)} (hop : Predicable c i s)
    (hmask : Maskable c.graph i s ty held) (hi : i.index < n) (hn : n ≤ c.graph.ops.size)
    (hpred : c.graph.typeOf pred = some Ty.i1) :
    (predicateOp i (some pred)).Gives c fun j c' => j = i ∧
      ∃ m, Accumulates n i s ty c held [pred] c' [some m] := by
  refine gives_graph.bind fun g c₁ _ hc => ?_
  obtain ⟨rfl, rfl⟩ := hc
  dsimp only
  rw [hop.effects]
  refine gives_get.bind fun d c₂ _ hc => ?_
  obtain ⟨rfl, rfl⟩ := hc
  rw [hop.strategy]
  refine (gives_trace 2 _).bind fun _ c₃ hadv hc => ?_
  obtain ⟨log, rfl⟩ := hc
  have hop' := hop.retained (hop.sound.advances hadv) (.refl _ i) rfl
  -- the log does not count
  have hwork := (gives_predicateSegment_keepingPoint hop' hmask hi hn hpred).imp
    (Q := fun j c' => j = i ∧ ∃ m, Accumulates n i s ty c₂ held [pred] c' [some m])
    fun j c' _ ⟨hj, m, hacc⟩ => ⟨hj, m, hacc.retains, hacc.others, hacc.cursor, hacc.strategies,
      hacc.assignable, hacc.maskable, hacc.single, hacc.lanes⟩
  have huses := hop.usesSegment
  cases hkind : s.kind with
  | condition => exact hwork
  | mask => exact hwork
  | exempt | tokenConsume | branch | unsupported | other code =>
    rw [hkind] at huses
    cases huses

/-! ## A list of predicates -/

/-- `predicateOp` by one of `preds` after the other adds them all to the mask. -/
theorem gives_mapM_predicateOp {ty : Ty} {held : List (Option ValueId)} (hop : Predicable c i s)
    (hmask : Maskable c.graph i s ty held) (hi : i.index < n) (hn : n ≤ c.graph.ops.size)
    {preds : List ValueId} (hpreds : ∀ p ∈ preds, c.graph.typeOf p = some Ty.i1) :
    (preds.mapM fun p => predicateOp i (some p)).Gives c fun js c' =>
      js = preds.map (fun _ => i) ∧ ∃ held', Accumulates n i s ty c held preds c' held' := by
  induction preds generalizing c held with
  | nil => exact .pure ⟨rfl, held, .refl n hmask⟩
  | cons p rest ih =>
    rw [List.mapM_cons]
    refine (gives_predicateOp hop hmask hi hn (hpreds p List.mem_cons_self)).bind
      fun j c₁ hadv hc => ?_
    obtain ⟨rfl, m, hfirst⟩ := hc
    -- the operation and the predicates that are left are still as they have to be
    have hop₁ := hop.retained (hop.sound.advances hadv) hfirst.retains hfirst.strategies
    have hpreds₁ : ∀ q ∈ rest, c₁.graph.typeOf q = some Ty.i1 := by
      intro q hq
      have hty := hpreds q (List.mem_cons_of_mem p hq)
      rw [hfirst.retains.typeOf q (hasValue_of_typeOf hty), hty]
    refine (ih hop₁ hfirst.maskable (Nat.le_trans hn hadv.within.ops) hpreds₁).bind
      fun js c₂ _ hc => .pure ?_
    obtain ⟨rfl, held', hrest⟩ := hc
    exact ⟨rfl, held', hfirst.trans hrest hi⟩

end Predication

open Predication in
/-- An operation `i` that carries a mask is predicated by one of `preds` after the other. It is the
answer each time, and its mask segment then holds one value, of the type of masks that fit the
reference. Every assignment `σ` of the values that were there can be continued to one that `Obeys`
the new operations, and under every such assignment the mask is true exactly where all the
predicates and the mask from before are. The other segments, the rest of the operation and the
cursor stay. -/
theorem mask_true_iff_all_predicates {c : Context} (h : Reachable c) {i : OpId} {s : Strategy}
    (hplaced : (c.graph.op i).block.isSome) (heffects : c.graph.isEffectFree i = false)
    (hstrategy : c.strategies.get (c.graph.op i).name = s)
    (huses : s.kind = .mask ∨ s.kind = .condition) (hnodup : (c.graph.op i).declared.Nodup)
    (hdeclares : s.segment ∈ (c.graph.op i).declared) {held : List (Option ValueId)}
    {ref : Option ValueId} (hheld : c.graph.segment? i s.segment = some held)
    (hone : held.length ≤ 1) (href : reference? c.graph i s = some ref)
    (hthere : s.ref ≠ "" → ref.isSome)
    (htyped : ∀ v, some v ∈ held → c.graph.typeOf v = some (maskTy (ref.bind c.graph.typeOf)))
    {preds : List ValueId} (hne : preds ≠ [])
    (hpreds : ∀ p ∈ preds, c.graph.typeOf p = some Ty.i1) :
    ∃ c' m, (preds.mapM fun p => predicateOp i (some p)) c = .ok (preds.map fun _ => i) c' ∧
      c'.graph.segment? i s.segment = some [some m] ∧
      c'.graph.typeOf m = some (maskTy (ref.bind c.graph.typeOf)) ∧
      (∀ ρ : ValueId → Lanes, ∃ σ, c'.graph.Obeys c.graph.ops.size σ ∧
        ∀ v, c.graph.HasValue v → σ v = ρ v) ∧
      (∀ σ, c'.graph.Obeys c.graph.ops.size σ → ∀ pos,
        (maskTy (ref.bind c.graph.typeOf)).HasIndex pos →
        (σ m pos = true ↔
          (∀ p ∈ preds, σ p [] = true) ∧ ∀ v, some v ∈ held → σ v pos = true)) ∧
      (∀ other, other ≠ s.segment → c'.graph.segment? i other = c.graph.segment? i other) ∧
      (∃ operands segments, c'.graph.op i = { c.graph.op i with operands, segments }) ∧
      c'.graph.resultTypes i = c.graph.resultTypes i ∧ c'.cursor = c.cursor := by
  have husesSegment : s.kind.usesSegment = true := by
    rcases huses with hkind | hkind
    · rw [hkind]
      rfl
    · rw [hkind]
      rfl
  have hop : Predicable c i s :=
    ⟨h.sound, hplaced, heffects, hstrategy, husesSegment, hnodup, hdeclares⟩
  have hmask : Maskable c.graph i s (maskTy (ref.bind c.graph.typeOf)) held :=
    ⟨hheld, hone, htyped, ref, href, hthere, rfl⟩
  obtain ⟨js, c', hrun, -, rfl, held', hacc⟩ :=
    (gives_mapM_predicateOp hop hmask hop.hasOp (Nat.le_refl _) hpreds).ok
  obtain ⟨m, rfl⟩ := hacc.single.resolve_left fun hnil => hne hnil.1
  obtain ⟨operands, segments, hrow⟩ := hacc.retains.row i hop.hasOp
  refine ⟨c', m, hrun, hacc.maskable.segment, hacc.maskable.typed m List.mem_cons_self,
    fun ρ => ?_, fun σ hσ pos hpos => ?_, hacc.others, ⟨operands, segments, hrow⟩, ?_, hacc.cursor⟩
  · exact hacc.assignable ρ (.of_fresh c.graph ρ)
  · rw [← hacc.lanes σ hσ pos hpos]
    simp only [List.mem_singleton, Option.some.injEq, forall_eq]
  · unfold Graph.resultTypes
    rw [hrow]
    exact List.map_congr_left fun v hv =>
      hacc.retains.typeOf v (h.sound.graph.owned.mem_results_iff.mp hv).1

/-- A `func` that stores through two pointers where a mask is true. -/
def storing : List Request := [
  .createDetached { name := Kinds.func },
  .addBlock ⟨0⟩ 0,
  .addArgument ⟨0⟩ (some (.tensor ⟨[2], some (.pointer none), none⟩)),
  .addArgument ⟨0⟩ (some (.tensor ⟨[2], some Ty.i1, none⟩)),
  .addArgument ⟨0⟩ (some Ty.i1),
  .addArgument ⟨0⟩ (some Ty.i1),
  .moveToEnd (some ⟨0⟩),
  .create { name := Kinds.store, segments := [[some ⟨0⟩], [some ⟨0⟩], [some ⟨1⟩]] }]

theorem reachable_storing : Reachable (Request.run storing {}) :=
  (Reachable.fresh .collect 0).run (by decide +kernel)

/-- On `storing`, predicated twice, the second pointer is stored through if both predicates hold and
the mask is true there. -/
theorem storing_predicated_twice :
    ∃ c' m, ([⟨2⟩, ⟨3⟩].mapM fun p => Predication.predicateOp ⟨1⟩ (some p))
        (Request.run storing {}) = .ok [⟨1⟩, ⟨1⟩] c' ∧
      c'.graph.segment? ⟨1⟩ Seg.mask = some [some m] ∧
      (∃ σ, c'.graph.Obeys 2 σ ∧ σ ⟨2⟩ [] = true ∧ σ ⟨3⟩ [] = false) ∧
      ∀ σ, c'.graph.Obeys 2 σ →
        (σ m [1] = true ↔ σ ⟨2⟩ [] = true ∧ σ ⟨3⟩ [] = true ∧ σ ⟨1⟩ [1] = true) := by
  have htypes : ∀ p ∈ [(⟨2⟩ : ValueId), ⟨3⟩],
      (Request.run storing {}).graph.typeOf p = some Ty.i1 := by
    intro p hp
    rcases List.mem_cons.mp hp with rfl | hp
    · rfl
    · rw [List.mem_singleton.mp hp]
      rfl
  have hheld : (Request.run storing {}).graph.segment? ⟨1⟩ Seg.mask = some [some ⟨1⟩] := by
    decide +kernel
  have href : Predication.reference? (Request.run storing {}).graph ⟨1⟩
      { kind := .mask, segment := Seg.mask, ref := Seg.ptr } = some (some ⟨0⟩) := by
    decide +kernel
  obtain ⟨c', m, hrun, hsegment, -, hassign, hlanes, -⟩ :=
    mask_true_iff_all_predicates reachable_storing (i := ⟨1⟩)
      (s := { kind := .mask, segment := Seg.mask, ref := Seg.ptr }) (by decide +kernel)
      (by decide +kernel) (by decide +kernel) (Or.inl rfl) (by decide +kernel)
      (by decide +kernel) hheld (Nat.le_refl 1) href (fun _ => rfl)
      (fun v hv => by cases List.mem_singleton.mp hv; rfl) (List.cons_ne_nil _ _) htypes
  refine ⟨c', m, hrun, hsegment, ?_, fun σ hσ => ?_⟩
  · obtain ⟨σ, hσ, hkept⟩ := hassign fun v _ => decide (v = ⟨2⟩)
    refine ⟨σ, hσ, ?_, ?_⟩
    · rw [hkept ⟨2⟩ (by decide +kernel)]
      rfl
    · rw [hkept ⟨3⟩ (by decide +kernel)]
      rfl
  · rw [hlanes σ hσ [1] (.cons (by decide) .nil)]
    simp [and_assoc]

/-- A kind that declares the segment of its mask twice. -/
def repeated : List Request := [
  .registerKind { name := "x.masked", segments := ["mask", "mask", "ptr"], effects := .write },
  .registerStrategy "x.masked" { kind := .mask, segment := "mask", ref := "ptr" },
  .createDetached { name := Kinds.func },
  .addBlock ⟨0⟩ 0,
  .addArgument ⟨0⟩ (some (.pointer none)),
  .addArgument ⟨0⟩ (some Ty.i1),
  .addArgument ⟨0⟩ (some Ty.i1),
  .moveToEnd (some ⟨0⟩),
  .create { name := "x.masked", segments := [[], [], [some ⟨0⟩]] }]

/-- On `repeated`, setting the segment resizes both, so the second predicate finds no place for the
mask. -/
theorem second_predicate_fails :
    Reachable (Request.run repeated {}) ∧
      ((Request.run repeated {}).graph.op ⟨1⟩).block.isSome ∧
      (Request.run repeated {}).graph.isEffectFree ⟨1⟩ = false ∧
      (Request.run repeated {}).strategies.get ((Request.run repeated {}).graph.op ⟨1⟩).name =
        { kind := .mask, segment := "mask", ref := "ptr" } ∧
      (Request.run repeated {}).graph.segment? ⟨1⟩ "mask" = some [] ∧
      (Request.run repeated {}).graph.segment? ⟨1⟩ "ptr" = some [some ⟨0⟩] ∧
      (∀ p ∈ [(⟨1⟩ : ValueId), ⟨2⟩],
        (Request.run repeated {}).graph.typeOf p = some Ty.i1) ∧
      ∃ c', ([⟨1⟩, ⟨2⟩].mapM fun p => Predication.predicateOp ⟨1⟩ (some p))
        (Request.run repeated {}) = .error .fault c' := by
  have hfails : (match ([⟨1⟩, ⟨2⟩].mapM fun p => Predication.predicateOp ⟨1⟩ (some p))
      (Request.run repeated {}) with
    | .ok _ _ | .error (.misuse _) _ | .error (.rejected _) _ => false
    | .error .fault _ => true) = true := by decide +kernel
  refine ⟨(Reachable.fresh .collect 0).run (by decide +kernel), by decide +kernel,
    by decide +kernel, by decide +kernel, by decide +kernel, by decide +kernel, ?_, ?_⟩
  · intro p hp
    rcases List.mem_cons.mp hp with rfl | hp
    · rfl
    · rw [List.mem_singleton.mp hp]
      rfl
  · split at hfails
    · cases hfails
    · cases hfails
    · cases hfails
    · next c' hrun => exact ⟨c', hrun⟩

end Multistage
