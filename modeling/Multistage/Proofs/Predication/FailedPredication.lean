import Multistage.Proofs.Graph.OpReplacement
import Multistage.Proofs.Predication.ConditionalBuilding

/-!
# Predication that is refused

An operation with effects is refused if its kind has no strategy, or if it has to be wrapped in a
conditional and one of its results has no zero (`Refused`). The second is found out when most of the
conditional is there; erasing it brings everything back (`predicateOp_refused_undone`). Nothing else
on the way refuses an operation (`NeverRejects`).
-/

namespace Multistage

/-! ## Work that refuses nothing -/

namespace BuildM

variable {α β : Type}

/-- `work` may be misused, but it refuses nothing. -/
def NeverRejects (work : BuildM α) : Prop := ∀ c r c', work c ≠ .error (.rejected r) c'

theorem NeverRejects.of_ok {work : BuildM α} (h : ∀ c, ∃ a c', work c = .ok a c') :
    work.NeverRejects := by
  intro c r c' herror
  obtain ⟨a, d, hok⟩ := h c
  rw [hok] at herror
  cases herror

theorem NeverRejects.bind {x : BuildM α} {f : α → BuildM β} (hx : x.NeverRejects)
    (hf : ∀ a, (f a).NeverRejects) : (x >>= f).NeverRejects := by
  intro c r c' herror
  cases hxc : x c with
  | ok a d =>
    rw [bind_of_ok hxc] at herror
    exact hf a d r c' herror
  | error e d =>
    rw [bind_of_error hxc] at herror
    cases herror
    exact hx c r c' hxc

/-- Work that `NeverRejects` succeeds, or fails in another way. -/
theorem NeverRejects.ends {work : BuildM α} (h : work.NeverRejects) (c : Context)
    {Q : α → Context → Prop} {R : Failure → Context → Prop} (hQ : ∀ a c', Q a c')
    (hR : ∀ f c', (∀ r, f ≠ .rejected r) → R f c') : work.Ends c Q R := by
  refine ⟨fun a c' _ => hQ a c', fun f c' herror => hR f c' ?_⟩
  rintro r rfl
  exact h c r c' herror

theorem neverRejects_pure (a : α) : (Pure.pure a : BuildM α).NeverRejects :=
  .of_ok fun c => ⟨a, c, rfl⟩

theorem neverRejects_graph : graph.NeverRejects := .of_ok fun c => ⟨c.graph, c, rfl⟩

theorem neverRejects_cursor : cursor.NeverRejects := .of_ok fun c => ⟨c.cursor, c, rfl⟩

theorem neverRejects_get : (get : BuildM Context).NeverRejects := .of_ok fun c => ⟨c, c, rfl⟩

theorem neverRejects_modify (f : Context → Context) :
    (modify f : BuildM PUnit).NeverRejects := .of_ok fun c => ⟨⟨⟩, f c, rfl⟩

theorem neverRejects_throw {f : Failure} (h : ∀ r, f ≠ .rejected r) :
    (throw f : BuildM α).NeverRejects := by
  intro c r c' herror
  cases herror
  exact h r rfl

theorem neverRejects_misuse (m : Misuse) : (misuse m : BuildM α).NeverRejects :=
  neverRejects_throw fun _ => Failure.noConfusion

theorem neverRejects_present (a : Option α) : (present a).NeverRejects := by
  cases a with
  | some a => exact neverRejects_pure a
  | none => exact neverRejects_throw fun _ => Failure.noConfusion

theorem neverRejects_tryGraph {f : Graph → Except Failure Graph}
    (h : ∀ g r, f g ≠ .error (.rejected r)) : (tryGraph f).NeverRejects := by
  refine .bind neverRejects_graph fun g => ?_
  cases hf : f g with
  | ok g' => exact neverRejects_modify _
  | error e => exact neverRejects_throw fun r he => h g r (he ▸ hf)

theorem NeverRejects.ensuring {work : BuildM α} (h : work.NeverRejects) (after : Context → Context) :
    (ensuring work after).NeverRejects := by
  intro c r c' herror
  cases hwork : work c with
  | ok a d =>
    rw [BuildM.ensuring, hwork] at herror
    cases herror
  | error e d =>
    rw [BuildM.ensuring, hwork] at herror
    cases herror
    exact h c r d hwork

theorem NeverRejects.withLoc {work : BuildM α} (h : work.NeverRejects) (loc : Location) :
    (withLoc loc work).NeverRejects :=
  .bind neverRejects_cursor fun _ => .bind (neverRejects_modify _) fun _ => h.ensuring _

theorem NeverRejects.keepingPoint {work : BuildM α} (h : work.NeverRejects) :
    (keepingPoint work).NeverRejects :=
  .bind neverRejects_cursor fun _ => h.ensuring _

end BuildM

namespace Build

open BuildM

theorem neverRejects_blockOfPoint (i : OpId) : (blockOfPoint i).NeverRejects := by
  refine .bind neverRejects_graph fun g => ?_
  split
  · exact neverRejects_pure _
  · exact neverRejects_misuse _

theorem neverRejects_moveBefore (i : OpId) : (moveBefore i).NeverRejects :=
  .bind (neverRejects_blockOfPoint i) fun _ => neverRejects_modify _

theorem neverRejects_position (label : Option OpLabel) : (position label).NeverRejects := by
  refine .bind neverRejects_cursor fun p => .bind neverRejects_graph fun g => ?_
  split
  · exact neverRejects_misuse _
  · split
    · exact neverRejects_pure _
    · split
      · exact neverRejects_pure _
      · exact neverRejects_misuse _

theorem neverRejects_insert (i : OpId) : (insert i).NeverRejects := by
  refine .bind neverRejects_graph fun g => .bind (neverRejects_position _) fun p => ?_
  refine .bind (neverRejects_tryGraph fun g r heq => ?_) fun _ => neverRejects_pure _
  unfold Graph.insertAt at heq
  split at heq
  · cases heq
  · split at heq <;> cases heq

theorem neverRejects_create (spec : OpSpec) : (create spec).NeverRejects := by
  refine .bind neverRejects_cursor fun p => .bind ?_ neverRejects_insert
  refine .bind neverRejects_get fun s => ?_
  dsimp only
  split
  · -- more segments than the kind has
    exact .bind (neverRejects_modify _) fun _ => .bind (neverRejects_misuse _) fun _ =>
      .of_ok fun c => ⟨_, _, rfl⟩
  · exact .of_ok fun c => ⟨_, _, rfl⟩

theorem neverRejects_createValue (spec : OpSpec) : (createValue spec).NeverRejects :=
  .bind (neverRejects_create spec) fun _ => .bind neverRejects_graph fun _ => neverRejects_present _

theorem neverRejects_typeOf (v : ValueId) : (typeOf v).NeverRejects :=
  .bind neverRejects_graph fun _ => neverRejects_pure _

theorem neverRejects_segmentValue (i : OpId) (name : String) :
    (segmentValue i name).NeverRejects :=
  .bind neverRejects_graph fun _ => neverRejects_present _

theorem neverRejects_setSegment (i : OpId) (name : String) (vals : List (Option ValueId)) :
    (setSegment i name vals).NeverRejects := by
  refine neverRejects_tryGraph fun g r heq => ?_
  unfold Graph.setSegment at heq
  dsimp only at heq
  split at heq
  · cases heq
  · split at heq
    · split at heq <;> cases heq
    · split at heq <;> cases heq

theorem neverRejects_eraseOp (i : OpId) : (eraseOp i).NeverRejects := by
  have herase : (erase i).NeverRejects := by
    refine neverRejects_tryGraph fun g r heq => ?_
    by_cases h : g.Erasable i
    · rw [Graph.erase_of_erasable h] at heq
      cases heq
    · obtain ⟨m, hm⟩ := Graph.erase_of_not_erasable h
      rw [hm] at heq
      cases heq
  refine .bind neverRejects_cursor fun p => ?_
  dsimp only
  split
  · exact .bind (neverRejects_modify _) fun _ => herase
  · exact herase

theorem neverRejects_replaceOp (i : OpId) (vals : List (Option ValueId)) :
    (replaceOp i vals).NeverRejects := by
  refine .bind neverRejects_graph fun g => ?_
  dsimp only
  split
  · -- not as many values as results
    exact .bind (neverRejects_misuse _) fun _ => .bind (neverRejects_modify _) fun _ =>
      neverRejects_eraseOp i
  · exact .bind (neverRejects_modify _) fun _ => neverRejects_eraseOp i

end Build

namespace Predication

open BuildM Build Ops

theorem neverRejects_locOf (pred : ValueId) : (locOf pred).NeverRejects := by
  refine .bind neverRejects_graph fun g => ?_
  split
  · exact neverRejects_pure _
  · exact .bind neverRejects_cursor fun _ => neverRejects_pure _

theorem neverRejects_shapeMask (maskType : Ty) (pred : ValueId) :
    (shapeMask maskType pred).NeverRejects := by
  unfold shapeMask
  split
  · refine .bind (neverRejects_typeOf pred) fun ty => .bind (neverRejects_present _) fun same => ?_
    split
    · exact neverRejects_pure _
    · exact neverRejects_createValue _
  · exact neverRejects_pure _

theorem neverRejects_predMask (like : Option Ty) (current : Option ValueId) (pred : ValueId) :
    (predMask like current pred).NeverRejects := by
  refine .bind (neverRejects_locOf pred) fun loc => .withLoc ?_ loc
  refine .bind (neverRejects_shapeMask _ pred) fun mask => ?_
  split
  · exact .bind (neverRejects_typeOf mask) fun _ => neverRejects_createValue _
  · exact neverRejects_pure _

theorem neverRejects_predicateSegment (i : OpId) (s : Strategy) (pred : Option ValueId) :
    (predicateSegment i s pred).NeverRejects := by
  have hset : ∀ mask, (setSegment i s.segment [mask]).NeverRejects := fun mask =>
    neverRejects_setSegment i s.segment [mask]
  have hmask : ∀ r current, (do
      let p ← present pred
      let mask ← some <$> predMask (← typeOf r) current p
      setSegment i s.segment [mask]).NeverRejects := fun r current =>
    .bind (neverRejects_present pred) fun p => .bind (neverRejects_typeOf r) fun ty =>
      .bind (.bind (neverRejects_predMask ty current p) fun _ => neverRejects_pure _) hset
  refine .bind (neverRejects_segmentValue i s.segment) fun current => ?_
  dsimp only
  -- the type is taken from the operand itself or from a reference, and the rest is the same
  split
  · refine .bind (neverRejects_pure current) fun ref => ?_
    split
    · exact .bind (neverRejects_pure pred) hset
    · exact hmask _ current
  · refine .bind (neverRejects_segmentValue i s.ref) fun ref => ?_
    split
    · exact .bind (neverRejects_pure pred) hset
    · exact hmask _ current

/-! ## What is refused -/

/-- Operation `i` has effects, and either its kind cannot be predicated or it is to be wrapped in a
conditional and there is no zero for one of its results. -/
def Refused (c : Context) (i : OpId) : Prop :=
  c.graph.isEffectFree i = false ∧
    ((c.strategies.get (c.graph.op i).name).kind = .unsupported ∨
      (∃ code, (c.strategies.get (c.graph.op i).name).kind = .other code) ∨
      (c.strategies.get (c.graph.op i).name).kind = .branch ∧
        ∃ ty ∈ c.graph.resultTypes i, hasZero ty = false)

/-- `c'` is `c` as it was, but for erased rows and reports. -/
structure Undone (c c' : Context) : Prop where
  graph : c.graph.Restores c'.graph
  same : c' = { c with graph := c'.graph, diagnostics := c'.diagnostics, log := c'.log }

/-- The failure `f` is a refusal exactly if `i` is `Refused`, and a refusal leaves everything as it
was. -/
def FailsAsRefused (c : Context) (i : OpId) (f : Failure) (c' : Context) : Prop :=
  ((∃ r, f = .rejected r) ↔ Refused c i) ∧ ((∃ r, f = .rejected r) → Undone c c')

section

variable {c d : Context} {i n : OpId} {b t e : BlockId} {k : Nat} {pred : Option ValueId}

theorem FailsAsRefused.of_not {f : Failure} {c' : Context} (hnot : ¬ Refused c i)
    (hf : ∀ r, f ≠ .rejected r) : FailsAsRefused c i f c' :=
  ⟨⟨fun ⟨r, hr⟩ => absurd hr (hf r), fun h => absurd h hnot⟩, fun ⟨r, hr⟩ => absurd hr (hf r)⟩

theorem FailsAsRefused.of_refused {r : Rejection} {c' : Context} (h : Refused c i)
    (hundone : Undone c c') : FailsAsRefused c i (.rejected r) c' :=
  ⟨⟨fun _ => h, fun _ => ⟨r, rfl⟩⟩, fun _ => hundone⟩

/-- Nobody reads the results of a conditional `n` that is being built, so it can be erased. -/
theorem Raising.erasable (h : Raising c d b k n t e) : d.graph.Erasable n := by
  refine ⟨h.raised.live, fun v hv => ?_⟩
  rw [Graph.hasUses, Bool.not_eq_false', List.isEmpty_iff]
  refine List.eq_nil_iff_forall_not_mem.mpr fun s hs => ?_
  exact h.raised.unread v hv s (h.sound.graph.uses.mem_uses_iff.mp hs)

/-- `felled` of a conditional `n` that is being built brings back what was there. -/
theorem Raising.restores (h : Raising c d b k n t e) (hwf : c.graph.WellFormed)
    (hslots : c.graph.SlotsOwned) (hk : k ≤ (c.graph.block b).ops.length) :
    c.graph.Restores (d.graph.felled n) :=
  h.raised.enlarges.restores_felled hwf hslots h.sound.graph h.raised.new h.raised.there
    h.raised.covers h.raised.block hk h.raised.ops

/-- `predicateWithBranch` fails for want of a zero, or because of misuse. -/
theorem ends_predicateWithBranch_refused (h : c.Sound) (hslots : c.graph.SlotsOwned)
    (hb : (c.graph.op i).block = some b) (hpred : c.graph.HasOptValue pred)
    (hrefused : (∃ ty ∈ c.graph.resultTypes i, hasZero ty = false) ↔ Refused c i) :
    (predicateWithBranch i pred).Ends c (fun _ _ => ¬ Refused c i) (FailsAsRefused c i) := by
  obtain ⟨k, hk⟩ := exists_at_of_before h.graph.members hb
  refine ends_predicateWithBranch h hb hk hpred (fun d n t e hdone hzeros => ?_)
    fun d n t e ty hopen hty hzero => ?_
  · -- there is a zero for every type when the conditional is finished
    have hnot : ¬ Refused c i := by
      rw [← hrefused]
      rintro ⟨ty, hty, hzero⟩
      rw [hzeros ty hty] at hzero
      cases hzero
    exact (neverRejects_replaceOp i _).ends d (fun _ _ => hnot) fun f d' hf => .of_not hnot hf
  · have hlength : k ≤ (c.graph.block b).ops.length :=
      Context.At.le_length
        (c := { c with cursor := { c.cursor with block := some b, before := some i } }) ⟨rfl, hk⟩
    obtain ⟨_, d', hok, -, p, rfl⟩ := (gives_eraseOp hopen.sound hopen.erasable).ok
    refine .of_ok hok (.of_refused (hrefused.mp ⟨ty, hty, hzero⟩)
      ⟨hopen.restores h.graph hslots hlength, ?_⟩)
    rw [hopen.same]

/-- `FailsAsRefused` does not look at the log. -/
theorem FailsAsRefused.of_logged {f : Failure} {c' : Context} {log : List LogLine}
    (h : FailsAsRefused { c with log } i f c') : FailsAsRefused c i f c' :=
  ⟨h.1, fun hr => ⟨(h.2 hr).graph, (h.2 hr).same⟩⟩

theorem not_refused_of_kind {kind : StrategyKind}
    (hkind : (c.strategies.get (c.graph.op i).name).kind = kind)
    (hmem : kind ∈ [.exempt, .condition, .mask, .tokenConsume]) : ¬ Refused c i := by
  rw [Refused, hkind]
  rintro ⟨-, rfl | ⟨code, rfl⟩ | ⟨rfl, -⟩⟩ <;> simp at hmem

/-- `predicateSegment` works from right before `i`. -/
theorem neverRejects_predicateInPlace (i : OpId) (s : Strategy) (pred : Option ValueId) :
    (keepingPoint do
      moveBefore i
      predicateSegment i s pred
      return i).NeverRejects :=
  .keepingPoint (.bind (neverRejects_moveBefore i) fun _ =>
    .bind (neverRejects_predicateSegment i s pred) fun _ => neverRejects_pure i)

/-- An operation that cannot be predicated is reported and refused. -/
theorem ends_emit_reject {α : Type} {Q : α → Context → Prop} (hrefused : Refused c i)
    (log : List LogLine) (message : String) (r : Rejection) :
    (emit .error i message >>= fun _ => reject r).Ends { c with log } Q (FailsAsRefused c i) := by
  refine (gives_emit _ _ _).ends_bind fun _ c' _ hc => ?_
  obtain ⟨diagnostics, log', rfl⟩ := hc
  exact .of_error rfl (.of_refused hrefused ⟨.refl _, rfl⟩)

theorem ends_predicateOp (h : c.Sound) (hslots : c.graph.SlotsOwned)
    (hb : (c.graph.op i).block = some b) (hpred : c.graph.HasOptValue pred) :
    (predicateOp i pred).Ends c (fun _ _ => ¬ Refused c i) (FailsAsRefused c i) := by
  refine gives_graph.ends_bind fun g c₁ _ hc => ?_
  obtain ⟨rfl, rfl⟩ := hc
  cases hfree : c₁.graph.isEffectFree i with
  | true =>
    refine .of_ok rfl fun hrefused => ?_
    rw [hrefused.1] at hfree
    cases hfree
  | false =>
    refine gives_get.ends_bind fun s c₂ _ hc => ?_
    obtain ⟨rfl, rfl⟩ := hc
    refine (gives_trace _ _).ends_bind fun _ c₃ hadv hc => ?_
    obtain ⟨log, rfl⟩ := hc
    cases hkind : (c₂.strategies.get (c₂.graph.op i).name).kind with
    | exempt => exact .of_ok rfl (not_refused_of_kind hkind (by decide))
    | tokenConsume => exact .of_ok rfl (not_refused_of_kind hkind (by decide))
    | condition =>
      have hnot : ¬ Refused c₂ i := not_refused_of_kind hkind (by decide)
      exact (neverRejects_predicateInPlace i _ pred).ends _ (fun _ _ => hnot) fun _ _ => .of_not hnot
    | mask =>
      have hnot : ¬ Refused c₂ i := not_refused_of_kind hkind (by decide)
      exact (neverRejects_predicateInPlace i _ pred).ends _ (fun _ _ => hnot) fun _ _ => .of_not hnot
    | unsupported => exact ends_emit_reject ⟨hfree, Or.inl hkind⟩ log _ _
    | other code => exact ends_emit_reject ⟨hfree, Or.inr (Or.inl ⟨code, hkind⟩)⟩ log _ _
    | branch =>
      have hrefused : (∃ ty ∈ c₂.graph.resultTypes i, hasZero ty = false) ↔ Refused c₂ i := by
        rw [Refused, hkind]
        simp [hfree]
      refine gives_cursor.ends_bind fun p c₄ _ hc => ?_
      obtain ⟨rfl, rfl⟩ := hc
      have hwrap := ends_predicateWithBranch_refused (c := { c₂ with log }) (h.advances hadv) hslots
        hb hpred hrefused
      refine (hwrap.imp (fun _ _ hnot => hnot) fun _ _ => .of_logged).bind fun n c₅ hnot => ?_
      -- only the cursor is left to see to
      have hmove : (moveBefore n >>= fun _ => pure n).NeverRejects :=
        .bind (neverRejects_moveBefore n) fun _ => neverRejects_pure n
      dsimp only
      split
      · exact hmove.ends c₅ (fun _ _ => hnot) fun _ _ => .of_not hnot
      · exact .of_ok rfl hnot

/-- `predicateOp` refuses an operation in a block exactly if it has effects and its kind cannot be
predicated, or can only be wrapped in a conditional and one of its results has no zero. Then all
rows, lists and use lists and the cursor are what they were; what is left over is erased and reads
nothing. -/
theorem predicateOp_refused_undone (h : Reachable c) (hb : (c.graph.op i).block = some b)
    (hpred : c.graph.HasOptValue pred) :
    ((∃ r c', predicateOp i pred c = .error (.rejected r) c') ↔ Refused c i) ∧
      ∀ r c', predicateOp i pred c = .error (.rejected r) c' →
        c.graph.Restores c'.graph ∧ c'.cursor = c.cursor ∧
        c' = { c with graph := c'.graph, diagnostics := c'.diagnostics, log := c'.log } := by
  obtain ⟨hok, herror⟩ := ends_predicateOp h.sound h.slotsOwned hb hpred
  refine ⟨⟨?_, fun hrefused => ?_⟩, fun r c' hrun => ?_⟩
  · rintro ⟨r, c', hrun⟩
    exact (herror _ c' hrun).1.mp ⟨r, rfl⟩
  · cases hrun : predicateOp i pred c with
    | ok n c' => exact absurd hrefused (hok n c' hrun)
    | error f c' =>
      obtain ⟨r, rfl⟩ := (herror f c' hrun).1.mpr hrefused
      exact ⟨r, c', rfl⟩
  · have hundone := (herror _ c' hrun).2 ⟨r, rfl⟩
    refine ⟨hundone.graph, ?_, hundone.same⟩
    rw [hundone.same]

end

end Predication

/-- A `func` that waits for a number and something without a type, with a sum inside the wait. The
cursor stands at the wait. -/
def stranded : List Request := [
  .createDetached { name := Kinds.func },
  .addBlock ⟨0⟩ 0,
  .addArgument ⟨0⟩ (some Ty.i32),
  .addArgument ⟨0⟩ (some Ty.i1),
  .moveToEnd (some ⟨0⟩),
  .create
    { name := Kinds.wait, segments := [[some ⟨0⟩], [some ⟨0⟩]], results := [some Ty.i32, none],
      regions := 1 },
  .addBlock ⟨1⟩ 0,
  .create { name := Kinds.ret, operands := [some ⟨2⟩, some ⟨3⟩] },
  .moveToEnd (some ⟨1⟩),
  .create { name := Kinds.addI, operands := [some ⟨0⟩, some ⟨0⟩], results := [some Ty.i32] },
  .moveBefore ⟨1⟩]

theorem reachable_stranded : Reachable (Request.run stranded {}) :=
  (Reachable.fresh .collect 0).run (by decide +kernel)

/-- In `stranded` the second result has no zero: the conditional, the copy with the sum, the yield
and the first zero are erased again, and the first argument is read by the same four slots as
before. -/
theorem stranded_wait_undone :
    ∃ r c', Predication.predicateOp ⟨1⟩ (some ⟨1⟩) (Request.run stranded {}) =
        .error (.rejected r) c' ∧
      (Request.run stranded {}).graph.Restores c'.graph ∧
      c'.cursor = (Request.run stranded {}).cursor ∧
      (c'.graph.value ⟨0⟩).uses = [⟨0⟩, ⟨1⟩, ⟨4⟩, ⟨5⟩] := by
  have hblock : ((Request.run stranded {}).graph.op ⟨1⟩).block = some ⟨0⟩ := by decide +kernel
  have huses : ((Request.run stranded {}).graph.value ⟨0⟩).uses = [⟨0⟩, ⟨1⟩, ⟨4⟩, ⟨5⟩] := by
    decide +kernel
  have hpred : (Request.run stranded {}).graph.HasOptValue (some ⟨1⟩) :=
    Graph.HasValue.opt (by decide +kernel)
  have hresult : ⟨3⟩ ∈ ((Request.run stranded {}).graph.op ⟨1⟩).results := by decide +kernel
  have htype : (Request.run stranded {}).graph.typeOf ⟨3⟩ = none :=
    Option.isNone_iff_eq_none.mp (by decide +kernel)
  have hrefused : Predication.Refused (Request.run stranded {}) ⟨1⟩ :=
    ⟨by decide +kernel, Or.inr (Or.inr ⟨by decide +kernel, none,
      List.mem_map.mpr ⟨⟨3⟩, hresult, htype⟩, rfl⟩)⟩
  obtain ⟨hiff, hundone⟩ := Predication.predicateOp_refused_undone reachable_stranded hblock hpred
  obtain ⟨r, c', hrun⟩ := hiff.mpr hrefused
  obtain ⟨hrestores, hcursor, -⟩ := hundone r c' hrun
  refine ⟨r, c', hrun, hrestores, hcursor, ?_⟩
  rw [hrestores.value ⟨0⟩ (by decide +kernel)]
  exact huses

end Multistage
