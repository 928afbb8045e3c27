import Multistage.Proofs.Buffer.CarefulViews

/-!
# What the verifier can report after careful building

A run is a list of calls (`Call`): requests, and the functions built on them. A call is `Proper` if
it sets operands on live operations and through slots in use only, and puts no operation inside
itself. It is `Careful` if moreover a buffer is replaced by `replaceUses` only where nothing lies
inside the views below it (`Graph.EmptyBelow`). After a careful run `Graph.verify` of a live
operation finds nothing that is at odds with itself (`Flaw.unfinished`): what it reports is an
operand that is missing or reads something that is not in place, or a block that lacks its end.
-/

namespace Multistage

open BuildM Build

/-! ## Flaws -/

/-- The flaws that a program may have before it is finished. -/
def Flaw.unfinished : Flaw → Bool
  | nullOperand _ _ | definedByErased _ _ _ | definedByDetached _ _ _ | usedBeforeDefinition _ _ _
  | missingTerminator _ _ _ _ => true
  | erased _ | staleSlot _ _ | unlistedUse _ _ | detachedBlock _ _ | foreignUse _ _
  | usedByErased _ _ _ | detachedUse _ _ _ | misplacedBlock _ _ _ | misplacedOp _ _ => false

namespace Graph

variable {g : Graph}

theorem hasBlock_of_mem_args {b : BlockId} {v : ValueId} (h : v ∈ (g.block b).args) :
    g.HasBlock b := by
  by_contra hb
  rw [block_of_not_hasBlock hb] at h
  cases h

theorem exists_of_firstFlaw {α : Type} {xs : List α} {check : Nat → α → Option Flaw} {flaw : Flaw}
    (h : firstFlaw xs check = some flaw) : ∃ k x, xs[k]? = some x ∧ check k x = some flaw := by
  obtain ⟨⟨x, k⟩, hmem, hcheck⟩ := List.exists_of_findSome?_eq_some h
  exact ⟨k, x, List.mem_zipIdx_iff_getElem?.mp hmem, hcheck⟩

section

variable (hwf : g.WellFormed) {flaw : Flaw}

include hwf

/-- Of the flaws of a definition, `detachedBlock` does not occur: blocks stay in their regions. -/
theorem definitionFlaw_unfinished {i : OpId} {k : Nat} {v : ValueId} (hv : g.HasValue v)
    (hflaw : g.definitionFlaw i k v = some flaw) : flaw.unfinished = true := by
  unfold definitionFlaw at hflaw
  split at hflaw
  · next b n hsource =>
    have harg := (hwf.owned.args b n v).mpr ⟨hv, hsource⟩
    have hhome := hwf.owned.homed b (hasBlock_of_mem_args (List.mem_of_getElem? harg))
    rw [Option.isNone_eq_false_iff.mpr hhome, if_neg Bool.false_ne_true] at hflaw
    cases hflaw
  -- a result may be of an operation that is erased, detached or further down
  · split at hflaw
    · cases hflaw
      rfl
    · split at hflaw
      · cases hflaw
        rfl
      · split at hflaw
        · cases hflaw
        · split at hflaw
          · cases hflaw
            rfl
          · cases hflaw

theorem operandFlaw_unfinished {i : OpId} {k : Nat} {s : SlotId}
    (hs : (g.op i).operands[k]? = some s) (hflaw : g.operandFlaw i k s = some flaw) :
    flaw.unfinished = true := by
  -- slots and use lists agree with each other, so only what is read can be at fault
  obtain ⟨-, howner, hindex⟩ := hwf.numbered i k s hs
  unfold operandFlaw at hflaw
  simp only [howner, hindex, ne_eq, not_true_eq_false, or_self, if_false] at hflaw
  cases hv : (g.slot s).value with
  | none =>
    rw [hv] at hflaw
    cases hflaw
    rfl
  | some v =>
    have hlisted : (g.value v).uses.contains s = true :=
      List.contains_iff_mem.mpr (hwf.uses.mem_uses_iff.mpr hv)
    simp only [hv, hlisted, Bool.not_true, Bool.false_eq_true, if_false] at hflaw
    exact definitionFlaw_unfinished hwf (hwf.uses.held s v hv) hflaw

theorem blockFlaw_unfinished {i : OpId} {r k : Nat} {b : BlockId}
    (hb : (g.block b).home = some ⟨i, r⟩) (hflaw : g.blockFlaw i r k b = some flaw) :
    flaw.unfinished = true := by
  -- what is listed in a block says so itself, so only the end can be missing
  have hplaced : ((g.block b).ops.find? fun c => (g.op c).block != some b) = none := by
    rw [List.find?_eq_none]
    intro c hc
    simp [(hwf.members.mem_iff c b).mpr hc]
  unfold blockFlaw at hflaw
  simp only [hb, ne_eq, not_true_eq_false, if_false, hplaced] at hflaw
  split at hflaw
  · cases hflaw
  · split at hflaw
    · split at hflaw
      · cases hflaw
      · cases hflaw
        rfl
    · cases hflaw
      rfl

/-- In an orderly graph a live operation has only `unfinished` flaws, since what reads its results
are operands of live operations. -/
theorem Orderly.opFlaw_unfinished (h : g.Orderly) {i : OpId} (hlive : (g.op i).erased = false)
    (hflaw : g.opFlaw i = some flaw) : flaw.unfinished = true := by
  unfold opFlaw at hflaw
  simp only [hlive, Bool.false_eq_true, if_false, Option.or_eq_some_iff] at hflaw
  rcases hflaw with hoperand | ⟨-, huse | ⟨-, hblock⟩⟩
  · obtain ⟨k, s, hs, hflaw⟩ := exists_of_firstFlaw hoperand
    exact operandFlaw_unfinished hwf hs hflaw
  · obtain ⟨v, -, hv⟩ := List.exists_of_findSome?_eq_some huse
    obtain ⟨s, hs, hflaw⟩ := List.exists_of_findSome?_eq_some hv
    -- a slot that holds a result is current, so no use is out of order
    have hheld := hwf.uses.mem_uses_iff.mp hs
    rw [(useFlaw_eq_none_iff hwf hheld).mpr (h.current s v hheld)] at hflaw
    cases hflaw
  · obtain ⟨r, blocks, hblocks, hflaw⟩ := exists_of_firstFlaw hblock
    obtain ⟨k, b, hb, hflaw⟩ := exists_of_firstFlaw hflaw
    have hhome := (hwf.owned.home_iff b i r).mpr ⟨blocks, hblocks, List.mem_of_getElem? hb⟩
    exact blockFlaw_unfinished hwf hhome hflaw

theorem Orderly.verify_unfinished (h : g.Orderly) {root : OpId} (hroot : g.HasOp root)
    (hlive : (g.op root).erased = false) (hflaw : g.verify root = some flaw) :
    flaw.unfinished = true := by
  obtain ⟨i, hi, hflaw⟩ := List.exists_of_findSome?_eq_some hflaw
  exact h.opFlaw_unfinished hwf (h.live_of_inside hlive ((mem_postorder_iff hwf hroot).mp hi)) hflaw

end

end Graph

/-! ## Calls -/

/-- A `Request`, or a call of a function that is built on requests and changes the context in more
than one step. Functions that create one operation are requests, and those that only look at the
context make no difference. -/
inductive Call where
  | request (r : Request)
  | openFor (lb ub step : Option ValueId) (inits : List ValueId)
  | closeFor (loop : Ops.OpenLoop) (yielded : List (Option ValueId))
  | emptyFor (lb ub step : Option ValueId) (inits : List ValueId)
  | newIf (results : List (Option Ty)) (cond : Option ValueId) (withElse : Bool)
  | newModule (numCTAs : Int)
  | newFunc (module : OpId) (name : String) (argTypes : List (Option Ty))
  | predMask (like : Option Ty) (current : Option ValueId) (pred : ValueId)
  | predicateOp (i : OpId) (pred : Option ValueId)
  | createAlloc (loop : OpId) (ty : TensorTy) (loc : Location) (layout : Option SharedLayout)
      (distance : Int)
  | createScalarAlloc (elem : Option Ty) (numBuffers : Int)
  | createBarrierAlloc (loop : OpId) (n : Int)
  | createSingleBufferViewAt (alloc idx : Option ValueId)
  | createSingleBufferView (alloc : Option ValueId) (idx : Int)
  | sharedLayout (i : OpId)
  | replaceUses (old : OpId) (val : Option ValueId)
  | serialize (root : Option OpId) (t : LatencyTable)
  | deserialize (root : OpId)

namespace Call

/-- What a call names. -/
def refs : Call → Refs
  | request r => r.refs
  | openFor lb ub step inits | emptyFor lb ub step inits =>
    { values := lb :: ub :: step :: inits.map some }
  | closeFor loop yielded =>
    { ops := loop.outside.before.toList, blocks := loop.outside.block.toList, values := yielded }
  | newIf _ cond _ => { values := [cond] }
  | newModule _ | createScalarAlloc _ _ => {}
  | newFunc i _ _ | createAlloc i _ _ _ _ | createBarrierAlloc i _ | sharedLayout i | deserialize i =>
    { ops := [i] }
  | predMask _ current pred => { values := [current, some pred] }
  | predicateOp i pred => { ops := [i], values := [pred] }
  | createSingleBufferViewAt alloc idx => { values := [alloc, idx] }
  | createSingleBufferView alloc _ => { values := [alloc] }
  | replaceUses old val => { ops := [old], values := [val] }
  | serialize root t => { ops := root.toList ++ t.entries.map (·.1) }

/-- The work that a `Call` asks for. -/
def perform : Call → BuildM Unit
  | request r => r.perform
  | openFor lb ub step inits => discard (Ops.openFor lb ub step inits)
  | closeFor loop yielded => discard (Ops.closeFor loop yielded)
  | emptyFor lb ub step inits => discard (Ops.emptyFor lb ub step inits)
  | newIf results cond withElse => discard (Ops.newIf results cond withElse)
  | newModule numCTAs => discard (Ops.newModule numCTAs)
  | newFunc module name argTypes => discard (Ops.newFunc module name argTypes)
  | predMask like current pred => discard (Predication.predMask like current pred)
  | predicateOp i pred => discard (Predication.predicateOp i pred)
  | createAlloc loop ty loc layout distance =>
    discard (Buffer.createAlloc loop ty loc layout distance)
  | createScalarAlloc elem numBuffers => discard (Buffer.createScalarAlloc elem numBuffers)
  | createBarrierAlloc loop n => discard (Buffer.createBarrierAlloc loop n)
  | createSingleBufferViewAt alloc idx => discard (Buffer.createSingleBufferViewAt alloc idx)
  | createSingleBufferView alloc idx => discard (Buffer.createSingleBufferView alloc idx)
  | sharedLayout i => discard (Buffer.sharedLayout i)
  | replaceUses old val => Buffer.replaceUses old val
  | serialize root t => Latency.serialize root t
  | deserialize root => discard (Latency.deserialize root)

/-- The context that `call` leaves of `c`, whether it succeeds or fails. -/
def outcome (call : Call) (c : Context) : Context :=
  match call.perform c with
  | .ok _ c' => c'
  | .error _ c' => c'

/-- Whether `call` succeeds in `c`. -/
def succeeds (call : Call) (c : Context) : Bool :=
  match call.perform c with
  | .ok _ _ => true
  | .error _ _ => false

end Call

/-! ## Careful calls -/

/-- `setSegment` and `setOperand` are asked of a live operation and `setSlot` of a slot that is
`Current`, and `insert`, `append` and `relocate` put `i` into no block that lies inside `i`. -/
def Request.Proper (c : Context) : Request → Prop
  | insert i =>
    ∀ b ∈ c.cursor.block, ∀ p ∈ c.graph.blockParent b, c.graph.isAncestorOf i p = false
  | append b i => ∀ p ∈ c.graph.blockParent b, c.graph.isAncestorOf i p = false
  | relocate i other => ∀ p ∈ c.graph.parent other, c.graph.isAncestorOf i p = false
  | setSegment i _ _ | setOperand i _ _ => (c.graph.op i).erased = false
  | setSlot s _ => c.graph.Current s
  | _ => True

instance (c : Context) : (r : Request) → Decidable (r.Proper c)
  | .insert i => inferInstanceAs (Decidable (∀ b ∈ c.cursor.block, ∀ p ∈ c.graph.blockParent b,
      c.graph.isAncestorOf i p = false))
  | .append b i =>
    inferInstanceAs (Decidable (∀ p ∈ c.graph.blockParent b, c.graph.isAncestorOf i p = false))
  | .relocate i other =>
    inferInstanceAs (Decidable (∀ p ∈ c.graph.parent other, c.graph.isAncestorOf i p = false))
  | .setSegment i _ _ | .setOperand i _ _ =>
    inferInstanceAs (Decidable ((c.graph.op i).erased = false))
  | .setSlot s _ => inferInstanceAs (Decidable (c.graph.Current s))
  | .registerKind _ | .registerStrategy _ _ | .useCursor _ | .moveBefore _ | .moveAfter _
  | .moveToStart _ | .moveToEnd _ | .setLoc _ | .createDetached _ | .create _ | .cloneDetached _ _
  | .clone _ _ | .addBlock _ _ | .addArgument _ _ | .erase _ | .eraseOp _ | .replaceOp _ _
  | .replaceUses _ _ | .replaceUsesIf _ _ _ | .setAttr _ _ _ | .setAttrs _ _ | .removeAttr _ _
  | .setOpLoc _ _ | .setType _ _ | .trace _ _ | .emit _ _ _ => .isTrue trivial

/-- The call sets operands on live operations and through slots in use only, and puts no operation
inside itself. A request that fails has done nothing of that, and neither has a `predicateOp` that
fails. -/
def Call.Proper (c : Context) (call : Call) : Prop :=
  match call with
  | request r => call.succeeds c = true → r.Proper c
  | predicateOp i _ =>
    call.succeeds c = true → Predication.SetsSegment c i → (c.graph.op i).erased = false
  | _ => True

/-- The call is proper, and if it is `replaceUses old val`, then nothing lies inside the views below
`old`. -/
def Call.Careful (c : Context) (call : Call) : Prop :=
  match call with
  | replaceUses old _ => c.graph.EmptyBelow old
  | _ => call.Proper c

section

variable {c : Context}

theorem Call.succeeds_of_ok {call : Call} {c' : Context} (hok : call.perform c = .ok () c') :
    call.succeeds c = true := by
  unfold succeeds
  rw [hok]

/-- `isAncestorOf` is complete: where it says no, `p` is not `Inside` `i`. -/
theorem not_inside_of_isAncestorOf {g : Graph} {i p : OpId} (hi : g.HasOp i)
    (h : g.isAncestorOf i p = false) : ¬ g.Inside i p := by
  rw [← Graph.isAncestorOf_iff hi, h]
  exact Bool.false_ne_true

/-- A request keeps a context tidy if it is `Proper`, case by case. -/
theorem keepsIf_request (h : c.Tidy) {r : Request} (hrefs : r.refs.In c.graph) :
    r.perform.KeepsIf c (r.Proper c) fun _ _ => True := by
  obtain ⟨hops, hblocks, hvalues, hslots⟩ := hrefs
  cases r with
  | registerKind k => exact .of_keeps (keeps_registerKind h k)
  | registerStrategy name s => exact .of_keeps (keeps_registerStrategy h name s)
  | useCursor p =>
    refine .of_keeps (keeps_setCursor h ?_).any
    exact ⟨fun b hb => hblocks b (Option.mem_toList.mpr hb),
      fun i hi => hops i (Option.mem_toList.mpr hi)⟩
  | moveBefore i => exact .of_keeps (keeps_moveBefore h i).any
  | moveAfter i => exact .of_keeps (keeps_moveAfter h i).any
  | moveToStart b => exact .of_keeps (keeps_moveToStart h (hblocks b List.mem_cons_self)).any
  | moveToEnd b =>
    exact .of_keeps (keeps_moveToEnd h fun x hx => hblocks x (Option.mem_toList.mpr hx)).any
  | setLoc loc => exact .of_keeps (keeps_setLoc h loc).any
  | createDetached spec => exact .of_keeps (keeps_createDetached h (hasSpec_of_refs hvalues)).forget
  | create spec => exact .of_keeps (keeps_create h (hasSpec_of_refs hvalues)).forget
  | insert i =>
    have hi := hops i List.mem_cons_self
    refine (keepsIf_insert h hi).forget.imp fun hproper b hb p hp => ?_
    exact not_inside_of_isAncestorOf hi (hproper b hb p hp)
  | cloneDetached i m => exact .of_keeps (keeps_cloneDetached h (into_of_refs hvalues) i).forget
  | clone i m => exact .of_keeps (keeps_clone h (into_of_refs hvalues) i).forget
  | addBlock i region => exact .of_keeps (keeps_addBlock h i region).forget
  | addArgument b ty => exact .of_keeps (keeps_addArgument h (hblocks b List.mem_cons_self) ty).forget
  | append b i =>
    have hi := hops i List.mem_cons_self
    refine (keepsIf_append h (hblocks b List.mem_cons_self) hi).imp fun hproper p hp => ?_
    exact not_inside_of_isAncestorOf hi (hproper p hp)
  | relocate i other =>
    have hi := hops i List.mem_cons_self
    refine (keepsIf_relocate h hi).imp fun hproper p hp => ?_
    exact not_inside_of_isAncestorOf hi (hproper p hp)
  | erase i => exact .of_keeps (keeps_erase h (hops i List.mem_cons_self))
  | eraseOp i => exact .of_keeps (keeps_eraseOp h (hops i List.mem_cons_self))
  | replaceOp i vals => exact .of_keeps (keeps_replaceOp h (hops i List.mem_cons_self) hvalues)
  | setSegment i name vals => exact keepsIf_setSegment h i name hvalues
  | setOperand i k v => exact keepsIf_setOperand h i k (hvalues v List.mem_cons_self)
  | setSlot s v =>
    exact keepsIf_assign h (hslots s List.mem_cons_self) (hvalues v List.mem_cons_self)
  | replaceUses v new =>
    have hnew := hvalues new (List.mem_cons_of_mem _ List.mem_cons_self)
    exact .of_keeps (keeps_modifyGraph h (f := (·.replaceUses v new))
      (Graph.edits_replaceUsesIf h.sound.graph.uses v hnew _)
      (h.orderly.replaceUsesIf h.sound.graph.uses v new _)).any
  | replaceUsesIf v new keep =>
    have hnew := hvalues new (List.mem_cons_of_mem _ List.mem_cons_self)
    exact .of_keeps (keeps_modifyGraph h (f := (·.replaceUsesIf v new keep))
      (Graph.edits_replaceUsesIf h.sound.graph.uses v hnew keep)
      (h.orderly.replaceUsesIf h.sound.graph.uses v new keep)).any
  | setAttr i name value => exact .of_keeps (keeps_describe h i _ fun _ => ⟨_, _, rfl⟩).any
  | setAttrs i attrs => exact .of_keeps (keeps_describe h i _ fun _ => ⟨_, _, rfl⟩).any
  | removeAttr i name => exact .of_keeps (keeps_removeAttr h i name).forget
  | setOpLoc i loc => exact .of_keeps (keeps_describe h i _ fun _ => ⟨_, _, rfl⟩).any
  | setType v ty =>
    exact .of_keeps (keeps_modifyGraph h (f := (·.modifyValue v fun x => { x with ty }))
      (.single (.retype v ty)) (h.orderly.retype v ty)).any
  | trace level text => exact .of_keeps (keeps_trace h level text).any
  | emit severity i message => exact .of_keeps (keeps_emit h severity i message).any

/-- A call that is `Careful` keeps a context tidy, case by case. -/
theorem keeps_call (h : c.Tidy) {call : Call} (hrefs : call.refs.In c.graph)
    (hcareful : call.Careful c) : call.perform.Keeps c fun _ _ => True := by
  obtain ⟨hops, hblocks, hvalues, -⟩ := id hrefs
  cases call with
  | request r =>
    exact (keepsIf_request h hrefs).keeps fun _ _ hok => hcareful (Call.succeeds_of_ok hok)
  | openFor lb ub step inits => exact (Ops.keeps_openFor h hvalues).forget
  | closeFor loop yielded =>
    refine (Ops.keeps_closeFor h ⟨fun b hb => ?_, fun i hi => ?_⟩ hvalues).forget
    · exact hblocks b (Option.mem_toList.mpr hb)
    · exact hops i (Option.mem_toList.mpr hi)
  | emptyFor lb ub step inits => exact (Ops.keeps_emptyFor h hvalues).forget
  | newIf results cond withElse =>
    exact (Ops.keeps_newIf h results (hvalues cond List.mem_cons_self) withElse).forget
  | newModule numCTAs => exact (Ops.keeps_newModule h numCTAs).forget
  | newFunc module name argTypes => exact (Ops.keeps_newFunc h module name argTypes).forget
  | predMask like current pred =>
    have hpred := hvalues (some pred) (List.mem_cons_of_mem _ List.mem_cons_self)
    exact (Predication.keeps_predMask h like (hvalues current List.mem_cons_self)
      (hpred pred rfl)).forget
  | predicateOp i pred =>
    exact (Predication.keepsIf_predicateOp h (hops i List.mem_cons_self)
      (hvalues pred List.mem_cons_self)).forget.keeps
      fun _ _ hok => hcareful (Call.succeeds_of_ok hok)
  | createAlloc loop ty loc layout distance =>
    exact (Buffer.keeps_createAlloc h loop ty loc layout distance).forget
  | createScalarAlloc elem numBuffers =>
    exact (Buffer.keeps_createScalarAlloc h elem numBuffers).forget
  | createBarrierAlloc loop n => exact (Buffer.keeps_createBarrierAlloc h loop n).forget
  | createSingleBufferViewAt alloc idx =>
    exact (Buffer.keeps_createSingleBufferViewAt h (hvalues alloc List.mem_cons_self)
      (hvalues idx (List.mem_cons_of_mem _ List.mem_cons_self))).forget
  | createSingleBufferView alloc idx =>
    exact (Buffer.keeps_createSingleBufferView h (hvalues alloc List.mem_cons_self) idx).forget
  | sharedLayout i => exact (Buffer.keeps_sharedLayout h i).forget
  | replaceUses old val =>
    exact (Buffer.keeps_replaceUses h hcareful (hvalues val List.mem_cons_self)).any
  | serialize root t => exact Latency.keeps_serialize h root t
  | deserialize root => exact (Latency.keeps_deserialize h root).forget

theorem Context.Tidy.outcome (h : c.Tidy) {call : Call} (hrefs : call.refs.In c.graph)
    (hcareful : call.Careful c) : (call.outcome c).Tidy := by
  have hkeeps := keeps_call h hrefs hcareful
  unfold Call.outcome
  cases hrun : call.perform c with
  | ok _ c' => exact (hkeeps.of_ok hrun).2.1
  | error _ c' => exact (hkeeps.of_error hrun).2

end

/-! ## Careful runs -/

/-- The context that `calls` leave of `c`, one after the other. -/
def Call.run (calls : List Call) (c : Context) : Context :=
  calls.foldl (fun c call => call.outcome c) c

/-- Every call of the list names things that are there, and is as `P` says, when its turn comes. -/
def Call.Runs (P : Context → Call → Prop) : List Call → Context → Prop
  | [], _ => True
  | call :: rest, c => call.refs.In c.graph ∧ P c call ∧ Runs P rest (call.outcome c)

/-- A run of calls that are `Careful` when their turn comes. -/
abbrev Call.CarefulRun : List Call → Context → Prop := Runs Careful

theorem Call.Runs.mono {P Q : Context → Call → Prop} (hPQ : ∀ c call, P c call → Q c call)
    {calls : List Call} {c : Context} (h : Runs P calls c) : Runs Q calls c := by
  induction calls generalizing c with
  | nil => trivial
  | cons call rest ih => exact ⟨h.1, hPQ c call h.2.1, ih h.2.2⟩

theorem Context.Tidy.fresh (channel : Channel) (verbosity : Int) :
    Context.Tidy { channel, verbosity } :=
  ⟨(Reachable.fresh channel verbosity).sound, .empty⟩

/-- A `CarefulRun` keeps a context tidy, call by call. -/
theorem Context.Tidy.run {c : Context} (h : c.Tidy) {calls : List Call}
    (hrun : Call.CarefulRun calls c) : (Call.run calls c).Tidy := by
  induction calls generalizing c with
  | nil => exact h
  | cons call rest ih => exact ih (h.outcome hrun.1 hrun.2.1) hrun.2.2

/-! ## Runs that are seen to be careful -/

/-- What shows that a call is careful: for `replaceUses`, that nothing lies inside any view. -/
def Call.Evident (c : Context) (call : Call) : Prop :=
  match call with
  | replaceUses _ _ => c.graph.EmptyViews
  | _ => call.Proper c

theorem Call.Evident.careful {c : Context} {call : Call} (h : call.Evident c) : call.Careful c := by
  cases call with
  | replaceUses old val => exact Graph.EmptyViews.below h old
  | _ => exact h

instance (c : Context) (i : OpId) : Decidable (Predication.SetsSegment c i) :=
  inferInstanceAs (Decidable (_ ∧ _))

instance (c : Context) : (call : Call) → Decidable (call.Proper c)
  | .request r =>
    inferInstanceAs (Decidable ((Call.request r).succeeds c = true → r.Proper c))
  | .predicateOp i pred =>
    inferInstanceAs (Decidable ((Call.predicateOp i pred).succeeds c = true →
      Predication.SetsSegment c i → (c.graph.op i).erased = false))
  | .openFor _ _ _ _ | .closeFor _ _ | .emptyFor _ _ _ _ | .newIf _ _ _ | .newModule _
  | .newFunc _ _ _ | .predMask _ _ _ | .createAlloc _ _ _ _ _ | .createScalarAlloc _ _
  | .createBarrierAlloc _ _ | .createSingleBufferViewAt _ _ | .createSingleBufferView _ _
  | .sharedLayout _ | .replaceUses _ _ | .serialize _ _ | .deserialize _ => .isTrue trivial

instance (c : Context) : (call : Call) → Decidable (call.Evident c)
  | .replaceUses _ _ => inferInstanceAs (Decidable c.graph.EmptyViews)
  | .request r => inferInstanceAs (Decidable ((Call.request r).Proper c))
  | .predicateOp i pred => inferInstanceAs (Decidable ((Call.predicateOp i pred).Proper c))
  | .openFor _ _ _ _ | .closeFor _ _ | .emptyFor _ _ _ _ | .newIf _ _ _ | .newModule _
  | .newFunc _ _ _ | .predMask _ _ _ | .createAlloc _ _ _ _ _ | .createScalarAlloc _ _
  | .createBarrierAlloc _ _ | .createSingleBufferViewAt _ _ | .createSingleBufferView _ _
  | .sharedLayout _ | .serialize _ _ | .deserialize _ => .isTrue trivial

instance Call.decidableRuns (P : Context → Call → Prop) [∀ c call, Decidable (P c call)] :
    (calls : List Call) → (c : Context) → Decidable (Runs P calls c)
  | [], _ => .isTrue trivial
  | call :: rest, c =>
    have := decidableRuns P rest (call.outcome c)
    inferInstanceAs (Decidable (_ ∧ _ ∧ _))

/-! ## The verifier -/

/-- After a `CarefulRun`, an operation `root` that is not erased is a finite tree, and a flaw that
`verify` reports of it is `unfinished`. -/
theorem verify_after_careful_run {channel : Channel} {verbosity : Int} {calls : List Call}
    (hrun : Call.CarefulRun calls { channel, verbosity }) {root : OpId}
    (hroot : (Call.run calls { channel, verbosity }).graph.HasOp root)
    (hlive : ((Call.run calls { channel, verbosity }).graph.op root).erased = false) :
    (Call.run calls { channel, verbosity }).graph.FiniteTree root ∧
      ∀ flaw, (Call.run calls { channel, verbosity }).graph.verify root = some flaw →
        flaw.unfinished = true := by
  have htidy := (Context.Tidy.fresh channel verbosity).run hrun
  exact ⟨htidy.orderly.acyclic.finiteTree htidy.sound.graph hroot,
    fun flaw => htidy.orderly.verify_unfinished htidy.sound.graph hroot hlive⟩

/-- A view of the first buffer is read. The second buffer, created after the view, replaces the
first by `replaceUses`. -/
def hasty : List Call := [
  .newModule 1,
  .newFunc ⟨0⟩ "f" [some Ty.i32, some Ty.i1],
  .request (.moveToEnd (some ⟨1⟩)),
  .createScalarAlloc (some Ty.i64) 2,
  .createSingleBufferView (some ⟨2⟩) 0,
  .request (.create { name := Kinds.initBarrier, segments := [[some ⟨4⟩]] }),
  .createScalarAlloc (some Ty.i64) 3,
  .replaceUses ⟨2⟩ (some ⟨5⟩),
  .request (.create { name := Kinds.store, segments := [[some ⟨0⟩], [some ⟨0⟩]] }),
  .predicateOp ⟨8⟩ (some ⟨1⟩),
  .request (.setOperand ⟨8⟩ 1 none),
  .request (.relocate ⟨8⟩ ⟨5⟩),
  .request (.erase ⟨2⟩)]

theorem careful_hasty : Call.CarefulRun hasty {} :=
  Call.Runs.mono (P := Call.Evident) (fun _ _ => Call.Evident.careful) (by decide +kernel)

/-- On `hasty` the view that `replaceUses` builds reads the second buffer before it is there. -/
theorem hasty_verified :
    (Call.run hasty {}).graph.FiniteTree ⟨0⟩ ∧
      (Call.run hasty {}).graph.verify ⟨0⟩ =
        some (.usedBeforeDefinition ⟨Kinds.memDescSubview, 7⟩ 0 ⟨Kinds.localAlloc, 6⟩) ∧
      ∀ flaw, (Call.run hasty {}).graph.verify ⟨0⟩ = some flaw → flaw.unfinished = true := by
  have hroot : (Call.run hasty {}).graph.HasOp ⟨0⟩ := by decide +kernel
  obtain ⟨hfinite, hflaws⟩ := verify_after_careful_run careful_hasty hroot (by decide +kernel)
  exact ⟨hfinite, by decide +kernel, hflaws⟩

/-- The first buffer is read inside a view of one of its views. The second buffer replaces it by
`replaceUses`. -/
def buried : List Call := [
  .newModule 1,
  .newFunc ⟨0⟩ "f" [],
  .request (.moveToEnd (some ⟨1⟩)),
  .createScalarAlloc (some Ty.i64) 2,
  .createSingleBufferView (some ⟨0⟩) 0,
  .request (.create
    { name := Kinds.memDescSubview, segments := [[some ⟨2⟩]], regions := 1
      results := [some (.memDesc
        { shape := [1], elem := some Ty.i64, encoding := none, memorySpace := none
          isMutable := true, allocShape := [1] })] }),
  .request (.create { name := Kinds.ret }),
  .request (.addBlock ⟨5⟩ 0),
  .request (.moveToEnd (some ⟨2⟩)),
  .request (.create { name := Kinds.initBarrier, segments := [[some ⟨0⟩]] }),
  .request (.moveBefore ⟨2⟩),
  .createScalarAlloc (some Ty.i64) 3,
  .replaceUses ⟨2⟩ (some ⟨4⟩)]

/-- It is not enough that every call is proper. The reader is erased with the view that it is in, and
`replaceUses` puts the second buffer into its slot after that, where the verifier finds it. -/
theorem buried_use_by_erased :
    Call.Runs Call.Proper buried {} ∧
      ((Call.run buried {}).graph.op ⟨0⟩).erased = false ∧
      (Call.run buried {}).graph.verify ⟨0⟩ =
        some (.usedByErased ⟨Kinds.localAlloc, 8⟩ 0 ⟨Kinds.initBarrier, 7⟩) ∧
      ∃ flaw, (Call.run buried {}).graph.verify ⟨0⟩ = some flaw ∧ flaw.unfinished = false := by
  have hrun : Call.Runs Call.Proper buried {} ∧
      ((Call.run buried {}).graph.op ⟨0⟩).erased = false ∧
      (Call.run buried {}).graph.verify ⟨0⟩ =
        some (.usedByErased ⟨Kinds.localAlloc, 8⟩ 0 ⟨Kinds.initBarrier, 7⟩) := by decide +kernel
  exact ⟨hrun.1, hrun.2.1, hrun.2.2, _, hrun.2.2, rfl⟩

end Multistage
