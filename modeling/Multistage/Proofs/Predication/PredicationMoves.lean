import Multistage.Proofs.Build.TidyFunctions
import Multistage.Proofs.Predication.Lanes
import Multistage.Proofs.Tree.Walking

/-!
# What predication can do in any context

Predicating an operation only makes moves, wherever the operation is, whatever its kind and strategy
and whether it succeeds or fails (`goes_predicateOp`). If the predicate is combined with a segment,
the failure can be that the operation has no such segment; every other step on the way fails only
for other reasons.
-/

namespace Multistage

open BuildM Build

/-- The failure `f` is that an operation has no segment of the name asked for. -/
def Failure.LacksSegment (f : Failure) : Prop :=
  ∃ kind segment, f = .misuse (.noSegment kind segment)

/-! ## Work and its failures -/

namespace BuildM

variable {α : Type} {c : Context}

/-- `work` meets `Q` if it succeeds, and fails only as `R` says. -/
abbrev Goes (work : BuildM α) (c : Context) (Q : α → Context → Prop) (R : Failure → Prop) : Prop :=
  work.Meets c Q fun f _ => R f

variable {x : BuildM α} {P P' : α → Context → Prop} {R R' : Failure → Prop}

theorem Goes.imp (hx : x.Goes c P R) (hP : ∀ a c', c.Advances c' → P a c' → P' a c')
    (hR : ∀ f, R f → R' f) : x.Goes c P' R' :=
  Meets.imp hx hP fun f _ _ hf => hR f hf

theorem Gives.goes (hx : x.Gives c P) (R : Failure → Prop) : x.Goes c P R :=
  hx.meets _

/-- `Leads` is `Goes` where all failures are allowed. -/
theorem Leads.goes (hx : x.Leads c P) (hR : ∀ f, R f) : x.Goes c P R :=
  Meets.imp hx (fun _ _ _ h => h) fun f _ _ _ => hR f

theorem goes_present (a : Option α) :
    (present a).Goes c (fun y c' => a = some y ∧ c' = c) (· = .fault) :=
  meets_present fun _ => rfl

theorem goes_tryGraph {f : Graph → Except Failure Graph}
    (h : ∀ g, f c.graph = .ok g → Graph.Edits c.catalog c.graph g)
    (hR : ∀ e, f c.graph = .error e → R e) : (tryGraph f).Goes c (fun _ _ => True) R :=
  Goes.imp (meets_tryGraph h hR) (fun _ _ _ _ => trivial) fun _ => id

/-- `Goes` does not look at where the cursor ends up. -/
theorem goes_of_cursor {P : α → Graph → Prop} {p : Context → Cursor}
    (hx : x.Meets c (fun a c' => ∃ d : Context, P a d.graph ∧ c' = { d with cursor := p d })
      fun f c' => ∃ d : Context, R f ∧ c' = { d with cursor := p d }) :
    x.Goes c (fun a c' => P a c'.graph) R := by
  refine hx.imp (fun a c' _ hc => ?_) fun f c' _ hc => ?_
  · obtain ⟨d, hd, rfl⟩ := hc
    exact hd
  · obtain ⟨d, hf, -⟩ := hc
    exact hf

theorem goes_keepingPoint (h : c.Sound) {P : α → Graph → Prop}
    (hx : x.Goes c (fun a c' => P a c'.graph) R) :
    (keepingPoint x).Goes c (fun a c' => P a c'.graph) R :=
  goes_of_cursor (meets_keepingPoint h hx)

theorem goes_withLoc (h : c.Sound) {loc : Location} {P : α → Graph → Prop}
    (hx : x.Goes { c with cursor := { c.cursor with loc } } (fun a c' => P a c'.graph) R) :
    (withLoc loc x).Goes c (fun a c' => P a c'.graph) R :=
  goes_of_cursor (meets_withLoc h hx)

end BuildM

namespace Predication

open Ops

variable {c : Context} {i : OpId}

/-! ## Masks -/

/-- `createValue` right before `i` leaves it as it is. -/
theorem goes_createValue_beside (h : Beside c i) {name : String} {k : OpKind}
    (hk : Catalog.builtin.find? name = some k) (hsegments : k.segments = []) (vals : List ValueId)
    (hvals : ∀ v ∈ vals, c.graph.HasValue v) (ty : Option Ty) (R : Failure → Prop) :
    (createValue { name, operands := vals.map some, results := [ty] }).Goes c
      (fun v c' => c'.graph.HasValue v ∧ c'.graph.op i = c.graph.op i ∧ Beside c' i) R := by
  refine ((gives_createValue_beside (n := 0) h hk hsegments vals hvals ty).goes R).imp
    (fun v c' hadv hc => ?_) fun _ => id
  have hi : c.graph.HasOp i := h.sound.cursor.2 i h.before
  exact ⟨hc.2.1, hc.1.row i hi, hc.1.beside h hadv⟩

theorem goes_shapeMask (h : Beside c i) {pred : ValueId} (hpred : c.graph.HasValue pred) (ty : Ty) :
    (shapeMask ty pred).Goes c
      (fun m c' => c'.graph.HasValue m ∧ c'.graph.op i = c.graph.op i ∧ Beside c' i)
      (· = .fault) := by
  unfold shapeMask
  split
  · refine ((gives_typeOf pred).goes _).bind fun ty' c₁ _ hc => ?_
    obtain ⟨rfl, rfl⟩ := hc
    refine (goes_present _).bind fun same c₂ _ hc => ?_
    obtain ⟨-, rfl⟩ := hc
    cases same with
    | true => exact .pure ⟨hpred, rfl, h⟩
    | false =>
      exact goes_createValue_beside h (k := { name := Kinds.splat }) (by decide) rfl
        [pred] (by simpa using hpred) _ _
  · exact .pure ⟨hpred, rfl, h⟩

theorem goes_predMask (h : Beside c i) {pred : ValueId} (hpred : c.graph.HasValue pred)
    {current : Option ValueId} (hcurrent : c.graph.HasOptValue current) (like : Option Ty) :
    (predMask like current pred).Goes c
      (fun m c' => c'.graph.HasValue m ∧ c'.graph.op i = c.graph.op i) (· = .fault) := by
  refine ((gives_locOf pred).goes _).bind fun loc c₁ _ hc => ?_
  subst hc
  refine goes_withLoc (P := fun m g => g.HasValue m ∧ g.op i = c₁.graph.op i) h.sound ?_
  refine (goes_shapeMask (h.withLoc loc) hpred (maskTy like)).bind fun m c₂ hadv hc => ?_
  obtain ⟨hm, hrow, hbeside⟩ := hc
  cases current with
  | none => exact .pure ⟨hm, hrow⟩
  | some v =>
    refine ((gives_typeOf m).goes _).bind fun ty c₃ _ hc => ?_
    obtain ⟨rfl, rfl⟩ := hc
    have hv : c₃.graph.HasValue v := hadv.within.hasValue (hcurrent v rfl)
    refine (goes_createValue_beside hbeside (k := { name := Kinds.andI }) (by decide) rfl
      [m, v] (by simpa using ⟨hm, hv⟩) _ _).imp (fun w c₄ _ hc => ?_) fun _ => id
    exact ⟨hc.1, hc.2.1.trans hrow⟩

theorem goes_segmentValue (h : c.Sound) (name : String) (R : Failure → Prop) (hR : R .fault) :
    (segmentValue i name).Goes c (fun v c' => c' = c ∧ c.graph.HasOptValue v) R := by
  refine (gives_graph.goes R).bind fun g c' _ hc => ?_
  obtain ⟨rfl, rfl⟩ := hc
  refine (goes_present _).imp (fun v c'' _ hc => ?_) fun f hf => hf ▸ hR
  exact ⟨hc.2, hasValue_of_segmentValue? h.graph.uses hc.1⟩

/-- `setSegment` fails only if the segment is not there, or if the operands do not reach that far.
-/
theorem goes_setSegment (h : c.Sound) (i : OpId) (name : String) {vals : List (Option ValueId)}
    (hvals : ∀ v ∈ vals, c.graph.HasOptValue v) :
    (setSegment i name vals).Goes c (fun _ _ => True) fun f =>
      f.LacksSegment → (c.graph.op i).segment? name = none := by
  refine goes_tryGraph (fun g hg => Graph.edits_setSegment h.graph.numbered hvals hg) ?_
  -- of the ways to fail, only the lookup of the segment is this one
  rintro _ hset ⟨kind, segment, rfl⟩
  unfold Graph.setSegment at hset
  dsimp only at hset
  split at hset
  · assumption
  · split at hset
    · split at hset <;> cases hset
    · split at hset <;> cases hset

/-- Right before `i`, `predicateSegment` can compute a mask, so that only the segment may be
missing. -/
theorem goes_predicateSegment (h : Beside c i) (s : Strategy) {pred : Option ValueId}
    (hpred : c.graph.HasOptValue pred) :
    (predicateSegment i s pred).Goes c (fun _ _ => True) fun f =>
      f.LacksSegment → (c.graph.op i).segment? s.segment = none := by
  have hfault : Failure.fault.LacksSegment → (c.graph.op i).segment? s.segment = none :=
    fun ⟨_, _, heq⟩ => nomatch heq
  refine (goes_segmentValue h.sound s.segment _ hfault).bind fun current c₁ _ hc => ?_
  obtain ⟨rfl, hcurrent⟩ := hc
  -- without a reference the predicate is taken as it is
  have hbare : Goes (do
      let mask ← pure pred
      setSegment i s.segment [mask]) c₁ (fun _ _ => True) fun f =>
        f.LacksSegment → (c₁.graph.op i).segment? s.segment = none :=
    goes_setSegment h.sound i _ (by simpa using hpred)
  -- with one it is brought to the shape of the reference and combined with what is there
  have hfitted : ∀ r : ValueId, Goes (do
      let p ← present pred
      let mask ← some <$> predMask (← typeOf r) current p
      setSegment i s.segment [mask]) c₁ (fun _ _ => True) fun f =>
        f.LacksSegment → (c₁.graph.op i).segment? s.segment = none := by
    intro r
    refine ((goes_present pred).imp (fun _ _ _ hc => hc) fun f hf => hf ▸ hfault).bind
      fun p c₂ _ hc => ?_
    obtain ⟨rfl, rfl⟩ := hc
    refine ((gives_typeOf r).goes _).bind fun ty c₃ _ hc => ?_
    obtain ⟨rfl, rfl⟩ := hc
    have hmask := goes_predMask h (hpred p rfl) hcurrent (c₃.graph.typeOf r)
    have hmask' : (some <$> predMask (c₃.graph.typeOf r) current p).Goes c₃
        (fun m c' => c'.graph.HasOptValue m ∧ c'.graph.op i = c₃.graph.op i) fun f =>
          f.LacksSegment → (c₃.graph.op i).segment? s.segment = none := by
      rw [map_eq_pure_bind]
      refine (hmask.imp (fun _ _ _ hc => hc) fun f hf => hf ▸ hfault).bind fun m c' _ hc => ?_
      exact .pure ⟨hc.1.opt, hc.2⟩
    refine hmask'.bind fun mask c₄ hadv hc => ?_
    -- the mask was computed without a change to the operation
    rw [← hc.2]
    exact goes_setSegment (h.sound.advances hadv) i _ (by simpa using hc.1)
  show Goes (if s.ref = "" then pure current >>= _ else segmentValue i s.ref >>= _) c₁ _ _
  split
  · cases current with
    | none => exact hbare
    | some r => exact hfitted r
  · refine (goes_segmentValue h.sound s.ref _ hfault).bind fun ref c₂ _ hc => ?_
    obtain ⟨rfl, -⟩ := hc
    cases ref with
    | none => exact hbare
    | some r => exact hfitted r

/-! ## Conditionals -/

theorem leads_yield (h : c.Sound) {vals : List (Option ValueId)}
    (hvals : ∀ v ∈ vals, c.graph.HasOptValue v) : (yield vals).Leads c fun _ _ => True :=
  (leads_create h (hasSpec_of_refs (by simpa using hvals))).any

theorem leads_newIf_any (h : c.Sound) (results : List (Option Ty)) {cond : Option ValueId}
    (hcond : c.graph.HasOptValue cond) (withElse : Bool) :
    (newIf results cond withElse).Leads c fun _ _ => True := by
  refine (leads_create h (hasSpec_of_refs (by simpa using hcond))).bind fun op c₁ _ _ => ?_
  refine (leads_addBlock 0).forget.bind fun _ c₂ _ _ => ?_
  cases withElse with
  | false => exact .pure trivial
  | true => exact (leads_addBlock 1).forget.bind fun _ _ _ _ => .pure trivial

theorem leads_zeros_any (h : c.Sound) (types : List (Option Ty)) :
    (zeros types).Leads c fun answer c' =>
      ∀ zs, answer = .ok zs → ∀ z ∈ zs, c'.graph.HasValue z := by
  induction types generalizing c with
  | nil =>
    refine .pure fun zs hzs z hz => ?_
    cases hzs
    cases hz
  | cons ty rest ih =>
    unfold zeros
    split
    · refine .pure fun zs hzs => ?_
      cases hzs
    · have hconstant : (zeroConstant ty).Leads c fun v c' => c'.graph.HasValue v := by
        unfold zeroConstant
        split
        · refine Leads.imp (leads_createValue (leads_create h (hasSpec_of_refs (by simp))))
            fun v c' hadv hv => ?_
          obtain ⟨_, -, hv⟩ := hv
          exact hasValue_of_mem_results (h.advances hadv).graph hv
        · exact .throw
      refine hconstant.bind fun z c₁ hadv₁ hz => ?_
      refine (ih (h.advances hadv₁)).bind fun answer c₂ hadv hanswer => ?_
      cases answer with
      | error ty =>
        refine .pure fun zs hzs => ?_
        cases hzs
      | ok zs =>
        refine .pure fun all hall x hx => ?_
        cases hall
        rcases List.mem_cons.mp hx with rfl | hx
        · exact hadv.within.hasValue hz
        · exact hanswer zs rfl x hx

theorem leads_predicateWithBranch_any (h : c.Sound) (i : OpId) {pred : Option ValueId}
    (hpred : c.graph.HasOptValue pred) :
    (predicateWithBranch i pred).Leads c fun _ _ => True := by
  refine (asks_cursorBefore h i).leads.bind fun p c' _ hc => ?_
  obtain ⟨rfl, hp⟩ := hc
  refine leads_withCursor_graph (P := fun _ _ => True) h hp fun d hd hmoved => ?_
  refine leads_graph.bind fun g d' _ hc => ?_
  obtain ⟨rfl, rfl⟩ := hc
  have hpred' := hmoved.within.hasOptValue hpred
  refine (leads_newIf_any hd _ hpred' true).bind fun branch c₁ hadv₁ _ => ?_
  have h₁ := hd.advances hadv₁
  refine (asks_branchCursor h₁ branch 0).leads.bind fun p₁ c₁' _ hc => ?_
  obtain ⟨rfl, hp₁⟩ := hc
  -- the first block gets a copy of the operation and yields its results
  refine (leads_withCursor_graph (P := fun _ _ => True) h₁ hp₁ fun e he _ => ?_).bind
    fun _ c₂ hadv₂ _ => ?_
  · have hempty : ({} : Mapping).Into e.graph := nofun
    refine (leads_clone he hempty i).bind fun copy e₁ hadv _ => ?_
    have he₁ := he.advances hadv
    refine leads_graph.bind fun g e₂ _ hc => ?_
    obtain ⟨rfl, rfl⟩ := hc
    refine (leads_yield he₁ fun v hv => ?_).forget
    obtain ⟨w, hw, rfl⟩ := List.mem_map.mp hv
    exact (hasValue_of_mem_results he₁.graph hw).opt
  have h₂ := h₁.advances hadv₂
  refine (asks_branchCursor h₂ branch 1).leads.bind fun p₂ c₂' _ hc => ?_
  obtain ⟨rfl, hp₂⟩ := hc
  -- the second one yields zeros, unless some type has none
  refine (leads_withCursor_graph (P := fun _ _ => True) h₂ hp₂ fun e he _ => ?_).bind
    fun outcome c₃ hadv₃ _ => ?_
  · refine (leads_zeros_any he _).bind fun answer e₁ hadv hzeros => ?_
    cases answer with
    | error ty => exact .pure trivial
    | ok zs =>
      refine (leads_yield (he.advances hadv) fun v hv => ?_).forget.bind
        fun _ _ _ _ => .pure trivial
      obtain ⟨z, hz, rfl⟩ := List.mem_map.mp hv
      exact (hzeros zs rfl z hz).opt
  have h₃ := h₂.advances hadv₃
  cases outcome with
  | some ty =>
    refine (leads_eraseOp h₃ branch).bind fun _ c₄ _ _ => ?_
    exact leads_graph.bind fun _ _ _ _ => .throw
  | none =>
    refine leads_graph.bind fun g c₄ _ hc => ?_
    obtain ⟨rfl, rfl⟩ := hc
    refine (leads_replaceOp h₃ i fun v hv => ?_).bind fun _ _ _ _ => .pure trivial
    obtain ⟨w, hw, rfl⟩ := List.mem_map.mp hv
    exact (hasValue_of_mem_results h₃.graph hw).opt

/-! ## Predication -/

/-- `moveBefore` fails for an operation in no block, which is another failure than `LacksSegment`.
-/
theorem goes_moveBefore (h : c.Sound) (i : OpId) :
    (moveBefore i).Goes c (fun _ c' => Beside c' i ∧ c'.graph = c.graph) fun f =>
      ¬ f.LacksSegment := by
  cases hb : (c.graph.op i).block with
  | some b =>
    refine ((gives_moveBefore h hb).goes _).imp (fun _ c' hadv hc => ?_) fun _ => id
    subst hc
    exact ⟨⟨h.advances hadv, rfl, hb.symm, Option.isSome_of_eq_some hb⟩, rfl⟩
  | none =>
    have hpoint : (blockOfPoint i).Goes c (fun _ _ => False) fun f => ¬ f.LacksSegment := by
      refine (gives_graph.goes _).bind fun g c' _ hc => ?_
      obtain ⟨rfl, rfl⟩ := hc
      rw [hb]
      exact .throw fun ⟨_, _, heq⟩ => nomatch heq
    exact hpoint.bind fun _ _ _ hfalse => hfalse.elim

theorem goes_predicateInPlace (h : c.Sound) (i : OpId) (s : Strategy) {pred : Option ValueId}
    (hpred : c.graph.HasOptValue pred) :
    (keepingPoint do
      moveBefore i
      predicateSegment i s pred
      return i).Goes c (fun _ _ => True) fun f =>
        f.LacksSegment → (c.graph.op i).segment? s.segment = none := by
  refine goes_keepingPoint h (P := fun _ _ => True) ?_
  refine ((goes_moveBefore h i).imp (fun _ _ _ hc => hc)
    fun f hf hlacks => absurd hlacks hf).bind fun _ c₁ hadv hc => ?_
  obtain ⟨hbeside, hgraph⟩ := hc
  rw [← hgraph] at hpred ⊢
  exact (goes_predicateSegment hbeside s hpred).bind fun _ _ _ _ => .pure trivial

/-- If `predicateOp` is to combine `pred` with a segment and fails for want of one, `i` lacks that
segment. -/
theorem goes_predicateOp (h : c.Sound) (i : OpId) {pred : Option ValueId}
    (hpred : c.graph.HasOptValue pred) :
    (predicateOp i pred).Goes c (fun _ _ => True) fun f =>
      (c.strategies.get (c.graph.op i).name).kind.usesSegment = true → f.LacksSegment →
        (c.graph.op i).segment? (c.strategies.get (c.graph.op i).name).segment = none := by
  refine (gives_graph.goes _).bind fun g c₁ _ hc => ?_
  obtain ⟨rfl, rfl⟩ := hc
  split
  · exact .pure trivial
  refine (gives_get.goes _).bind fun s c₂ _ hc => ?_
  obtain ⟨rfl, rfl⟩ := hc
  refine ((gives_trace _ _).goes _).bind fun _ c₃ hadv hc => ?_
  obtain ⟨log, rfl⟩ := hc
  have h₃ := h.advances hadv
  have hinPlace := goes_predicateInPlace h₃ i (c₂.strategies.get (c₂.graph.op i).name) hpred
  have hreject : Leads (do
      emit .error i "pipeliner doesn't know how to predicate this op."
      reject (.unsupportedOp (c₂.graph.op i).name (c₂.graph.op i).loc) : BuildM OpId)
      { c₂ with log } fun _ _ => True :=
    (leads_emit _ _ _).bind fun _ _ _ _ => .throw
  cases hkind : (c₂.strategies.get (c₂.graph.op i).name).kind with
  | exempt => exact .pure trivial
  | tokenConsume => exact .pure trivial
  | condition => exact hinPlace.imp (fun _ _ _ hc => hc) fun f hf _ => hf
  | mask => exact hinPlace.imp (fun _ _ _ hc => hc) fun f hf _ => hf
  | branch =>
    -- no segment is used here, so nothing is said of the failures
    refine Leads.goes ?_ fun f huses => nomatch huses
    refine leads_cursor.bind fun p c₄ _ hc => ?_
    obtain ⟨rfl, rfl⟩ := hc
    refine (leads_predicateWithBranch_any h₃ i hpred).bind fun branch c₅ hadv₅ _ => ?_
    dsimp only
    split
    · exact (leads_moveBefore (h₃.advances hadv₅) branch).bind fun _ _ _ _ => .pure trivial
    · exact .pure trivial
  | unsupported => exact hreject.goes fun f huses => nomatch huses
  | other code => exact hreject.goes fun f huses => nomatch huses

end Predication

end Multistage
