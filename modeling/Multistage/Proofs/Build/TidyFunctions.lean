import Multistage.Buffer.Alloc
import Multistage.Buffer.Layout
import Multistage.Latency
import Multistage.Predication.Basic
import Multistage.Proofs.Build.Reachable
import Multistage.Proofs.Build.TidyContexts

/-!
# Functions of many steps keep contexts tidy

Loops, branches, functions, masks, predication, buffers, their layouts and latencies take many
steps, and any of the steps may fail. Whether they succeed or stop half-way, they leave a tidy
context tidy. Most of them only create at the cursor. Predication sets a segment, so the operation
has to be live for those kinds that have one, unless it fails before.
-/

namespace Multistage

open BuildM Build

/-! ## Loops, branches and functions -/

/-- `frontBlock?` gives a block that is there. -/
theorem Graph.WellFormed.hasBlock_of_frontBlock? {g : Graph} (h : g.WellFormed) {i : OpId}
    {region : Nat} {block : Option BlockId} (hblock : g.frontBlock? i region = some block) :
    ∀ b ∈ block, g.HasBlock b := by
  intro b hb
  obtain ⟨blocks, hblocks, rfl⟩ := Option.map_eq_some_iff.mp hblock
  have hhome := (h.owned.home_iff b i region).mpr ⟨blocks, hblocks, List.mem_of_mem_head? hb⟩
  exact Graph.hasBlock_of_home_eq_some hhome

namespace Ops

variable {c : Context}

theorem keeps_yield (h : c.Tidy) {vals : List (Option ValueId)}
    (hvals : ∀ v ∈ vals, c.graph.HasOptValue v) : (yield vals).Keeps c fun _ _ => True :=
  (keeps_create h (hasSpec_of_refs (by simpa using hvals))).any

theorem keeps_openFor (h : c.Tidy) {lb ub step : Option ValueId} {inits : List ValueId}
    (hvals : ∀ v ∈ lb :: ub :: step :: inits.map some, c.graph.HasOptValue v) :
    (openFor lb ub step inits).Keeps c fun loop c' =>
      c'.graph.HasCursor loop.outside ∧ ∀ v ∈ loop.iterArgs, c'.graph.HasValue v := by
  refine asks_graph.bind h fun g _ => ?_
  refine (keeps_create h (hasSpec_of_refs (by simpa using hvals))).bind fun op c₁ _ h₁ _ => ?_
  refine (keeps_addBlock h₁ op 0).bind fun block c₂ _ h₂ hblock => ?_
  -- the loop variable is of the type of the lower bound, which fails without one
  refine (asks_present lb).bind h₂ fun v _ => ?_
  refine (asks_typeOf v).bind h₂ fun ty _ => ?_
  refine (keeps_addArgument h₂ hblock ty).bind fun iv c₃ hadv₃ h₃ _ => ?_
  have hblock₃ := hadv₃.within.hasBlock hblock
  refine (keeps_addArguments h₃ hblock₃ _).bind fun args c₄ hadv₄ h₄ hargs => ?_
  refine asks_cursor.bind h₄ fun outside houtside => ?_
  subst houtside
  refine (keeps_moveToEnd h₄ (b := some block) ?_).bind fun _ c₅ _ h₅ hc => .pure h₅ ?_
  · rintro _ ⟨⟩
    exact hadv₄.within.hasBlock hblock₃
  · rw [hc]
    exact ⟨h₄.sound.cursor, hargs⟩

theorem keeps_closeFor (h : c.Tidy) {loop : OpenLoop} (hloop : c.graph.HasCursor loop.outside)
    {yielded : List (Option ValueId)} (hvals : ∀ v ∈ yielded, c.graph.HasOptValue v) :
    (closeFor loop yielded).Keeps c fun _ _ => True := by
  refine keeps_of_cursor (Q := fun _ _ => True) h (meets_ensuring
    (f := fun p => { p with block := loop.outside.block, before := loop.outside.before }) ?_
    fun d hadv => hloop.mono hadv.within)
  exact (keeps_yield h hvals).forget.bind fun _ _ _ h₁ _ => .pure h₁ trivial

theorem keeps_emptyFor (h : c.Tidy) {lb ub step : Option ValueId} {inits : List ValueId}
    (hvals : ∀ v ∈ lb :: ub :: step :: inits.map some, c.graph.HasOptValue v) :
    (emptyFor lb ub step inits).Keeps c fun _ _ => True := by
  refine (keeps_openFor h hvals).bind fun loop c₁ _ h₁ hloop => ?_
  refine keeps_closeFor h₁ hloop.1 fun v hv => ?_
  obtain ⟨w, hw, rfl⟩ := List.mem_map.mp hv
  exact (hloop.2 w hw).opt

theorem keeps_newIf (h : c.Tidy) (results : List (Option Ty)) {cond : Option ValueId}
    (hcond : c.graph.HasOptValue cond) (withElse : Bool) :
    (newIf results cond withElse).Keeps c fun i c' => c'.graph.HasOp i := by
  refine (keeps_create h (hasSpec_of_refs (by simpa using hcond))).bind fun op c₁ _ h₁ hop => ?_
  refine (keeps_addBlock h₁ op 0).forget.bind fun _ c₂ hadv₂ h₂ _ => ?_
  have hop₂ := hadv₂.within.hasOp hop.1
  cases withElse with
  | false => exact .pure h₂ hop₂
  | true =>
    refine (keeps_addBlock h₂ op 1).forget.bind fun _ c₃ hadv₃ h₃ _ => ?_
    exact .pure h₃ (hadv₃.within.hasOp hop₂)

theorem keeps_newModule (h : c.Tidy) (numCTAs : Int) :
    (newModule numCTAs).Keeps c fun _ _ => True := by
  refine (keeps_createDetached h (hasSpec_of_refs (by simp))).bind fun m c₁ _ h₁ _ => ?_
  exact (keeps_addBlock h₁ m 0).forget.bind fun _ _ _ h₂ _ => .pure h₂ trivial

theorem keeps_newFunc (h : c.Tidy) (module : OpId) (name : String) (argTypes : List (Option Ty)) :
    (newFunc module name argTypes).Keeps c fun _ _ => True := by
  refine asks_graph.bind h fun g hg => ?_
  subst hg
  refine (asks_present _).bind h fun body hbody => ?_
  have hcursor : c.graph.HasCursor { block := body } :=
    ⟨h.sound.graph.hasBlock_of_frontBlock? hbody, nofun⟩
  refine (keeps_withCursor h hcursor (Q := fun _ _ => True)
    (keeps_create (h.withCursor hcursor) (hasSpec_of_refs (by simp))).any).bind
    fun fn c₁ _ h₁ _ => ?_
  refine (keeps_addBlock h₁ fn 0).bind fun entry c₂ _ h₂ hentry => ?_
  exact (keeps_addArguments h₂ hentry argTypes).forget.bind fun _ _ _ h₃ _ => .pure h₃ trivial

/-- `branchCursor` gives a cursor at the end of a block that is there. -/
theorem asks_branchCursor (h : c.Sound) (i : OpId) (region : Nat) :
    (branchCursor i region).Asks c fun p => c.graph.HasCursor p := by
  have hblock : (branchBlock i region).Asks c fun block => ∀ b ∈ block, c.graph.HasBlock b := by
    refine asks_graph.map fun g hg => ?_
    subst hg
    exact (asks_present _).imp fun block hb => h.graph.hasBlock_of_frontBlock? hb
  refine hblock.map fun block hb => asks_graph.map fun g _ => .pure ?_
  exact ⟨hb, nofun⟩

end Ops

/-! ## Predication -/

namespace Predication

open Ops

variable {c : Context}

theorem asks_locOf (pred : ValueId) : (locOf pred).Asks c fun _ => True := by
  refine asks_graph.map fun g _ => ?_
  cases g.definingOp pred with
  | some d => exact .pure trivial
  | none => exact asks_cursor.map fun _ _ => .pure trivial

theorem keeps_shapeMask (h : c.Tidy) (maskType : Ty) {pred : ValueId}
    (hpred : c.graph.HasValue pred) :
    (shapeMask maskType pred).Keeps c fun m c' =>
      c'.graph.HasValue m ∧ c.graph.LeavesAll c'.graph := by
  unfold shapeMask
  split
  · refine (asks_typeOf pred).bind h fun ty _ => ?_
    refine (asks_present _).bind h fun same _ => ?_
    cases same with
    | true => exact .pure h ⟨hpred, .refl _ _⟩
    | false => exact keeps_createValue h (hasSpec_of_refs (by simpa using hpred.opt))
  · exact .pure h ⟨hpred, .refl _ _⟩

theorem keeps_predMask (h : c.Tidy) (like : Option Ty) {current : Option ValueId}
    (hcurrent : c.graph.HasOptValue current) {pred : ValueId} (hpred : c.graph.HasValue pred) :
    (predMask like current pred).Keeps c fun m c' =>
      c'.graph.HasValue m ∧ c.graph.LeavesAll c'.graph := by
  refine (asks_locOf pred).bind h fun loc _ => ?_
  refine keeps_withLoc h (Q := fun m g => g.HasValue m ∧ c.graph.LeavesAll g) ?_
  have hloc : c.graph.HasCursor { c.cursor with loc } := h.sound.cursor
  refine (keeps_shapeMask (h.withCursor hloc) (maskTy like) hpred).bind fun m c₁ hadv h₁ hm => ?_
  cases hv : current with
  | none => exact .pure h₁ hm
  | some v =>
    refine (asks_typeOf m).bind h₁ fun ty _ => ?_
    have hthere : c₁.graph.HasOptValue (some v) := hadv.within.hasOptValue (hv ▸ hcurrent)
    have hspec : ∀ w ∈ [some m, some v], c₁.graph.HasOptValue w := by
      simpa using ⟨hm.1.opt, hthere⟩
    refine (keeps_createValue h₁ (hasSpec_of_refs (by simpa using hspec))).imp
      fun w c₂ _ _ hw => ⟨hw.1, ?_⟩
    exact hm.2.trans hadv.within hw.2 fun _ _ => id

/-- `predicateSegment` keeps a context tidy for a live operation `i`. -/
theorem keepsIf_predicateSegment (h : c.Tidy) {i : OpId} (hi : c.graph.HasOp i) (s : Strategy)
    {pred : Option ValueId} (hpred : c.graph.HasOptValue pred) :
    (predicateSegment i s pred).KeepsIf c ((c.graph.op i).erased = false) fun _ _ => True := by
  refine .after_asks (asks_segmentValue h.sound i s.segment) h fun current hcurrent => ?_
  have hbare : KeepsIf (do
      let mask ← pure pred
      setSegment i s.segment [mask]) c ((c.graph.op i).erased = false) fun _ _ => True :=
    keepsIf_setSegment h i _ (by simpa using hpred)
  have hfitted : ∀ r : ValueId, KeepsIf (do
      let p ← present pred
      let mask ← some <$> predMask (← typeOf r) current p
      setSegment i s.segment [mask]) c ((c.graph.op i).erased = false) fun _ _ => True := by
    intro r
    refine .after_asks (asks_present pred) h fun p hp => ?_
    subst hp
    refine .after_asks (asks_typeOf r) h fun ty _ => ?_
    refine .after_keeps ((keeps_predMask h ty hcurrent (hpred p rfl)).map (f := some)
      (Q := fun mask c' => c'.graph.HasOptValue mask ∧ c.graph.LeavesAll c'.graph)
      fun m c' hm => ⟨hm.1.opt, hm.2⟩) fun mask c₁ _ h₁ hmask => ?_
    -- building the mask erased nothing, so the operation is live still
    refine (keepsIf_setSegment h₁ i _ (by simpa using hmask.1)).imp fun hlive => ?_
    exact (hmask.2.mark i hi id).trans hlive
  show KeepsIf (if s.ref = "" then pure current >>= _ else segmentValue i s.ref >>= _) c _ _
  split
  · refine .after_asks (.pure trivial) h fun ref (_ : True) => ?_
    cases ref with
    | none => exact hbare
    | some r => exact hfitted r
  · refine .after_asks (asks_segmentValue h.sound i s.ref) h fun ref _ => ?_
    cases ref with
    | none => exact hbare
    | some r => exact hfitted r

theorem keeps_zeros (h : c.Tidy) (types : List (Option Ty)) :
    (zeros types).Keeps c fun answer c' => ∀ zs, answer = .ok zs → ∀ z ∈ zs, c'.graph.HasValue z := by
  induction types generalizing c with
  | nil => exact .pure h fun zs hzs => by cases hzs; exact nofun
  | cons ty rest ih =>
    unfold zeros
    split
    · exact .pure h nofun
    · next hzero =>
      have hconstant : (zeroConstant ty).Keeps c fun v c' => c'.graph.HasValue v := by
        unfold zeroConstant
        split
        · exact (keeps_createValue h (hasSpec_of_refs (by simp))).imp fun _ _ _ _ hv => hv.1
        · exact .throw h
      refine hconstant.bind fun z c₁ _ h₁ hz => ?_
      refine (ih h₁).bind fun answer c₂ hadv h₂ hanswer => ?_
      cases answer with
      | error ty => exact .pure h₂ nofun
      | ok zs =>
        refine .pure h₂ fun all hall x hx => ?_
        cases hall
        rcases List.mem_cons.mp hx with rfl | hx
        · exact hadv.within.hasValue hz
        · exact hanswer zs rfl x hx

theorem keeps_predicateWithBranch (h : c.Tidy) {i : OpId} (hi : c.graph.HasOp i)
    {pred : Option ValueId} (hpred : c.graph.HasOptValue pred) :
    (predicateWithBranch i pred).Keeps c fun _ _ => True := by
  refine (asks_cursorBefore h.sound i).bind h fun p hp => ?_
  refine keeps_withCursor h hp (Q := fun _ _ => True) ?_
  have h₀ := h.withCursor hp
  refine asks_graph.bind h₀ fun g hg => ?_
  refine (keeps_newIf h₀ _ hpred true).bind fun branch c₁ hadv₁ h₁ hbranch => ?_
  refine (asks_branchCursor h₁.sound branch 0).bind h₁ fun p₁ hp₁ => ?_
  -- the first block gets a copy of the operation and yields its results
  refine (keeps_withCursor h₁ hp₁ (Q := fun _ _ => True) ?_).bind fun _ c₂ hadv₂ h₂ _ => ?_
  · have hempty : ({} : Mapping).Into c₁.graph := nofun
    refine (keeps_clone (h₁.withCursor hp₁) hempty i).bind fun copy d _ hd _ => ?_
    refine asks_graph.bind hd fun g hg => ?_
    subst hg
    refine (keeps_yield hd fun v hv => ?_).forget
    obtain ⟨w, hw, rfl⟩ := List.mem_map.mp hv
    exact (hasValue_of_mem_results hd.sound.graph hw).opt
  refine (asks_branchCursor h₂.sound branch 1).bind h₂ fun p₂ hp₂ => ?_
  -- the second one yields zeros, unless some type has none
  refine (keeps_withCursor h₂ hp₂ (Q := fun _ _ => True) ?_).bind fun outcome c₃ hadv₃ h₃ _ => ?_
  · refine (keeps_zeros (h₂.withCursor hp₂) _).bind fun answer d _ hd hzeros => ?_
    cases answer with
    | error ty => exact .pure hd trivial
    | ok zs =>
      refine (keeps_yield hd fun v hv => ?_).forget.bind fun _ _ _ hd₁ _ => .pure hd₁ trivial
      obtain ⟨z, hz, rfl⟩ := List.mem_map.mp hv
      exact (hzeros zs rfl z hz).opt
  have hadv : c₁.Advances c₃ := hadv₂.trans hadv₃
  cases outcome with
  | some ty =>
    refine (keeps_eraseOp h₃ (hadv.within.hasOp hbranch)).bind fun _ c₄ _ h₄ _ => ?_
    exact asks_graph.bind h₄ fun _ _ => .throw h₄
  | none =>
    refine asks_graph.bind h₃ fun g hg => ?_
    subst hg
    have hi₃ : c₃.graph.HasOp i := hadv.within.hasOp (hadv₁.within.hasOp hi)
    refine (keeps_replaceOp h₃ hi₃ fun v hv => ?_).bind fun _ _ _ h₄ _ => .pure h₄ trivial
    obtain ⟨w, hw, rfl⟩ := List.mem_map.mp hv
    exact (hasValue_of_mem_results h₃.sound.graph hw).opt

/-- `predicateOp` sets a segment of operation `i`: the operation has effects, and the strategy of
its kind in `c` is for a mask or a condition. -/
def SetsSegment (c : Context) (i : OpId) : Prop :=
  c.graph.isEffectFree i = false ∧ (c.strategies.get (c.graph.op i).name).kind.usesSegment = true

/-- `predicateOp` sets a segment last, so it has set none if it fails. -/
theorem keepsIf_predicateOp (h : c.Tidy) {i : OpId} (hi : c.graph.HasOp i) {pred : Option ValueId}
    (hpred : c.graph.HasOptValue pred) :
    (predicateOp i pred).KeepsIf c (SetsSegment c i → (c.graph.op i).erased = false)
      fun _ _ => True := by
  refine .after_asks asks_graph h fun g hg => ?_
  subst hg
  split
  · exact .of_keeps (.pure h trivial)
  next hfree =>
  rw [Bool.not_eq_true] at hfree
  refine .after_asks asks_get h fun s hs => ?_
  subst hs
  refine .after_keeps (keeps_trace h _ _) fun _ c₁ hadv h₁ hgraph => ?_
  have hi₁ := hadv.within.hasOp hi
  have hpred₁ := hadv.within.hasOptValue hpred
  -- two kinds set a segment, and only they need a live operation
  have hsegment : (c.strategies.get (c.graph.op i).name).kind.usesSegment = true →
      KeepsIf (keepingPoint do
        moveBefore i
        predicateSegment i (c.strategies.get (c.graph.op i).name) pred
        return i) c₁ (SetsSegment c i → (c.graph.op i).erased = false) fun _ _ => True := by
    intro huses
    refine keepsIf_keepingPoint h₁ (.after_keeps (keeps_moveBefore h₁ i) fun _ c₂ hadv₂ h₂ hgraph₂ => ?_)
    refine ((keepsIf_predicateSegment h₂ (hadv₂.within.hasOp hi₁) _
      (hadv₂.within.hasOptValue hpred₁)).imp fun hlive => ?_).bind_pure (f := fun _ => i)
      fun _ _ _ => trivial
    rw [hgraph₂, hgraph]
    exact hlive ⟨hfree, huses⟩
  have hreject : Keeps (do
      emit .error i "pipeliner doesn't know how to predicate this op."
      reject (.unsupportedOp (c.graph.op i).name (c.graph.op i).loc) : BuildM OpId) c₁
      fun _ _ => True :=
    (keeps_emit h₁ _ _ _).bind fun _ _ _ h₂ _ => .throw h₂
  cases hkind : (c.strategies.get (c.graph.op i).name).kind with
  | exempt => exact .of_keeps (.pure h₁ trivial)
  | tokenConsume => exact .of_keeps (.pure h₁ trivial)
  | condition => exact hsegment (by rw [hkind]; rfl)
  | mask => exact hsegment (by rw [hkind]; rfl)
  | branch =>
    refine .after_asks asks_cursor h₁ fun p _ => .of_keeps ?_
    refine (keeps_predicateWithBranch h₁ hi₁ hpred₁).bind fun branch c₂ _ h₂ _ => ?_
    split
    · exact (keeps_moveBefore h₂ branch).bind fun _ _ _ h₃ _ => .pure h₃ trivial
    · exact .pure h₂ trivial
  | unsupported => exact .of_keeps hreject
  | other code => exact .of_keeps hreject

end Predication

/-! ## Buffers -/

namespace Buffer

open Ops

variable {c : Context}

theorem asks_bufferTy (v : ValueId) : (bufferTy v).Asks c fun _ => True := by
  refine (asks_typeOf v).map fun ty _ => ?_
  exact (asks_present _).imp fun _ _ => trivial

theorem keeps_localAlloc (h : c.Tidy) (ty : MemDescTy) :
    (localAlloc ty none).Keeps c fun v c' => c'.graph.HasValue v := by
  refine (keeps_createValue h (hasSpec_of_refs ?_)).imp fun _ _ _ _ hv => hv.1
  simp [Graph.HasOptValue]

theorem keeps_createAlloc (h : c.Tidy) (loop : OpId) (ty : TensorTy) (loc : Location)
    (layout : Option SharedLayout) (distance : Int) :
    (createAlloc loop ty loc layout distance).Keeps c fun _ _ => True := by
  refine (asks_cursorBefore h.sound loop).bind h fun p hp => ?_
  have hcursor : c.graph.HasCursor { p with loc } := hp
  refine keeps_withCursor h hcursor (Q := fun _ _ => True) ?_
  refine (keeps_localAlloc (h.withCursor hcursor) _).bind fun alloc c₁ _ h₁ halloc => ?_
  refine (keeps_moveAfter h₁ loop).bind fun _ c₂ hadv₂ h₂ _ => ?_
  refine asks_graph.bind h₂ fun g _ => ?_
  refine (keeps_setLoc h₂ _).bind fun _ c₃ hadv₃ h₃ _ => ?_
  have hthere := hadv₃.within.hasValue (hadv₂.within.hasValue halloc)
  refine (keeps_create h₃ (hasSpec_of_refs (by simpa using hthere.opt))).forget.bind
    fun _ c₄ _ h₄ _ => ?_
  exact (keeps_trace h₄ _ _).bind fun _ _ _ h₅ _ => .pure h₅ trivial

theorem asks_numCTAsHere : numCTAsHere.Asks c fun _ => True := by
  refine asks_graph.map fun g _ => asks_cursor.map fun p _ => ?_
  cases p.block.bind g.blockParent with
  | some i => exact .pure trivial
  | none => exact .pure trivial

theorem keeps_createScalarAlloc (h : c.Tidy) (elem : Option Ty) (numBuffers : Int) :
    (createScalarAlloc elem numBuffers).Keeps c fun v c' => c'.graph.HasValue v :=
  asks_numCTAsHere.bind h fun _ _ => keeps_localAlloc h _

theorem keeps_createSingleBufferViewAt (h : c.Tidy) {alloc idx : Option ValueId}
    (halloc : c.graph.HasOptValue alloc) (hidx : c.graph.HasOptValue idx) :
    (createSingleBufferViewAt alloc idx).Keeps c fun v c' => c'.graph.HasValue v := by
  refine (asks_present alloc).bind h fun v hv => ?_
  refine (asks_bufferTy v).bind h fun ty _ => ?_
  have hflat : (memDescSubview { ty with shape := [1] } alloc [idx]).Keeps c
      fun v c' => c'.graph.HasValue v := by
    have hvals : ∀ v ∈ [alloc, idx], c.graph.HasOptValue v := by simpa using ⟨halloc, hidx⟩
    exact (keeps_createValue h (hasSpec_of_refs (by simpa using hvals))).imp fun _ _ _ _ hv => hv.1
  match hshape : ty.shape with
  | [] => exact hflat
  | [_] => exact hflat
  | _ :: d :: rest =>
    refine (keeps_createValue h (hasSpec_of_refs (by simp))).bind fun zero c₁ hadv h₁ hzero => ?_
    refine (keeps_createValue h₁ (hasSpec_of_refs fun v hv => ?_)).imp fun _ _ _ _ hv => hv.1
    -- the offsets are the index and zeros
    have hmem : v = alloc ∨ v = idx ∨ v = some zero := by
      simpa using hv
    rcases hmem with rfl | rfl | rfl
    · exact hadv.within.hasOptValue halloc
    · exact hadv.within.hasOptValue hidx
    · exact hzero.1.opt

theorem keeps_createSingleBufferView (h : c.Tidy) {alloc : Option ValueId}
    (halloc : c.graph.HasOptValue alloc) (idx : Int) :
    (createSingleBufferView alloc idx).Keeps c fun v c' => c'.graph.HasValue v := by
  refine (keeps_createValue h (hasSpec_of_refs (by simp))).bind fun v c₁ hadv h₁ hv => ?_
  exact keeps_createSingleBufferViewAt h₁ (hadv.within.hasOptValue halloc) hv.1.opt

theorem keeps_forStages (h : c.Tidy) {alloc : ValueId} (halloc : c.graph.HasValue alloc) (n : Int)
    {work : ValueId → BuildM OpId}
    (hwork : ∀ view (d : Context), d.Tidy → d.graph.HasValue view →
      (work view).Keeps d fun _ _ => True) :
    (forStages alloc n work).Keeps c fun _ c' => c'.graph.HasValue alloc := by
  refine Keeps.forM _ (fun k _ c₁ _ h₁ hthere => ?_) h halloc
  refine (keeps_createSingleBufferView h₁ hthere.opt k).bind fun view c₂ hadv₂ h₂ hview => ?_
  refine ((hwork view c₂ h₂ hview).forget).imp fun _ c₃ hadv₃ _ _ => ?_
  exact hadv₃.within.hasValue (hadv₂.within.hasValue hthere)

theorem keeps_createBarrierAlloc (h : c.Tidy) (loop : OpId) (n : Int) :
    (createBarrierAlloc loop n).Keeps c fun _ _ => True := by
  refine (asks_cursorBefore h.sound loop).bind h fun p hp => ?_
  refine keeps_withCursor h hp (Q := fun _ _ => True) ?_
  refine (keeps_createScalarAlloc (h.withCursor hp) _ n).bind fun alloc c₁ _ h₁ halloc => ?_
  -- every stage has one operation before the loop and one after it, both about its view only
  have hbarrier : ∀ (spec : ValueId → OpSpec), (∀ v, (spec v).operands ++ (spec v).segments.flatten =
      [some v]) → ∀ view (d : Context), d.Tidy → d.graph.HasValue view →
        (create (spec view)).Keeps d fun _ _ => True := by
    intro spec hspec view d hd hview
    refine (keeps_create hd (hasSpec_of_refs ?_)).any
    rw [hspec]
    simpa using hview.opt
  refine (keeps_forStages h₁ halloc n (hbarrier _ fun _ => rfl)).bind fun _ c₂ hadv₂ h₂ halloc₂ => ?_
  refine (keeps_moveAfter h₂ loop).bind fun _ c₃ hadv₃ h₃ _ => ?_
  have halloc₃ := hadv₃.within.hasValue halloc₂
  refine (keeps_forStages h₃ halloc₃ n (hbarrier _ fun _ => rfl)).bind fun _ c₄ _ h₄ halloc₄ => ?_
  refine (keeps_create h₄ (hasSpec_of_refs (by simpa using halloc₄.opt))).forget.bind
    fun _ c₅ _ h₅ _ => ?_
  refine asks_graph.bind h₅ fun g _ => ?_
  exact (keeps_trace h₅ _ _).bind fun _ _ _ h₆ _ => .pure h₆ trivial

/-! ## Layouts -/

theorem keeps_localAllocLayout (h : c.Tidy) (i : OpId) :
    (localAllocLayout i).Keeps c fun _ _ => True := by
  refine asks_graph.bind h fun g _ => (asks_present _).bind h fun layouts _ => ?_
  cases layouts with
  | nil => exact .pure h trivial
  | cons chosen others =>
    dsimp only
    split
    · exact (keeps_emit h _ _ _).bind fun _ _ _ h₁ _ => .pure h₁ trivial
    · exact .pure h trivial

theorem keeps_descriptorLayout (h : c.Tidy) (i : OpId) (ty : TensorTy) :
    (descriptorLayout i ty).Keeps c fun _ _ => True := by
  refine (asks_segmentValue h.sound i Seg.desc).bind h fun desc _ => ?_
  cases desc with
  | none =>
    refine (keeps_emit h _ _ _).bind fun _ _ _ h₁ _ => ?_
    exact asks_graph.bind h₁ fun _ _ => .throw h₁
  | some desc =>
    refine (asks_typeOf desc).bind h fun ty' _ => ?_
    split
    · split
      · exact ((asks_present _).keeps h).map (P := fun _ _ => _) fun _ _ _ => trivial
      · exact .pure h trivial
      · split
        · exact .pure h trivial
        · exact (asks_present _).bind h fun _ _ => .pure h trivial
    · exact asks_graph.bind h fun _ _ => .throw h

theorem keeps_sharedLayout (h : c.Tidy) (i : OpId) :
    (sharedLayout i).Keeps c fun _ _ => True := by
  refine asks_graph.bind h fun g _ => ?_
  cases (g.op i).results with
  | nil => exact .throw h
  | cons res rest =>
    dsimp only
    split
    · refine (keeps_localAllocLayout h i).bind fun layout c₁ _ h₁ _ => ?_
      cases layout with
      | some layout => exact .pure h₁ trivial
      | none =>
        dsimp only
        split
        · exact keeps_descriptorLayout h₁ i _
        · refine (asks_present _).bind h₁ fun layout _ => ?_
          cases layout with
          | some layout => exact (keeps_trace h₁ _ _).bind fun _ _ _ h₂ _ => .pure h₂ trivial
          | none => exact .pure h₁ trivial
    · exact .throw h

end Buffer

/-! ## Latencies -/

namespace Latency

variable {c : Context}

theorem keeps_serialize (h : c.Tidy) (root : Option OpId) (t : LatencyTable) :
    (serialize root t).Keeps c fun _ _ => True := by
  refine (asks_present _).bind h fun entries _ => ?_
  refine Keeps.forM (fun _ => True) (fun entry _ c₁ _ h₁ _ => ?_) h trivial
  obtain ⟨i, latency⟩ := entry
  refine asks_graph.bind h₁ fun g _ => ?_
  cases root with
  | none => exact .throw h₁
  | some r =>
    cases i with
    | none => exact .throw h₁
    | some j =>
      dsimp only
      split
      · exact .throw h₁
      · exact (keeps_describe h₁ j _ fun _ => ⟨_, _, rfl⟩).any

theorem keeps_takeEntry (h : c.Tidy) (t : LatencyTable) (i : OpId) :
    (takeEntry t i).Keeps c fun _ _ => True := by
  refine asks_graph.bind h fun g _ => ?_
  split
  · exact .pure h trivial
  · refine (keeps_removeAttr h i attrName).bind fun old c₁ _ h₁ _ => ?_
    split
    · exact .pure h₁ trivial
    · refine asks_graph.bind h₁ fun _ _ => ?_
      exact (keeps_writeLog h₁ _ _).bind fun _ _ _ h₂ _ => .pure h₂ trivial

theorem keeps_deserialize (h : c.Tidy) (root : OpId) :
    (deserialize root).Keeps c fun _ _ => True :=
  asks_graph.bind h fun _ _ => keeps_walkTo (fun t i _ h => keeps_takeEntry h t i) _ h {} root

end Latency

end Multistage
