import Multistage.Proofs.Buffer.ViewReplacement
import Multistage.Proofs.Buffer.ViewScopes

/-!
# Replacing a buffer in a verified operation

An operation that is verified stays so while the uses of a buffer inside it are replaced, whether
the work is done in the end or stops at a view that cannot be built anew. Once it is done, nothing
reads the old buffer any more, and it can be erased as well.
-/

namespace Multistage

open BuildM

/-- A value passes the check of definitions in every slot that holds a result of `old`. -/
def Graph.FitsReaders (g : Graph) (old : OpId) (val : ValueId) : Prop :=
  ∀ r ∈ (g.op old).results, ∀ s ∈ (g.value r).uses,
    g.definitionFlaw (g.slot s).owner (g.slot s).index val = none

instance (g : Graph) (old : OpId) (val : ValueId) : Decidable (g.FitsReaders old val) :=
  inferInstanceAs (Decidable (∀ r ∈ (g.op old).results, ∀ s ∈ (g.value r).uses,
    g.definitionFlaw (g.slot s).owner (g.slot s).index val = none))

/-- A value that `FitsReaders` is visible to all of them. -/
theorem Graph.FitsReaders.visible {g : Graph} {old : OpId} {val : ValueId}
    (h : g.FitsReaders old val) (hwf : g.WellFormed) :
    ∀ r ∈ (g.op old).results, ∀ s, (g.slot s).value = some r → g.Visible val (g.slot s).owner := by
  intro r hr s hs
  exact (definitionFlaw_eq_none_iff hwf.members).mp (h r hr s (hwf.uses.mem_uses_iff.mpr hs))

/-- An operation `i` that is not the last in its block does not close it. -/
theorem Graph.not_closesBlock {g : Graph} {i : OpId} {b : BlockId} (hb : (g.op i).block = some b)
    (hlast : (g.block b).ops.getLast? ≠ some i) : ¬ g.ClosesBlock i := by
  rintro ⟨b', p, t, hb', -, -, hlast'⟩
  rw [hb] at hb'
  cases hb'
  exact hlast hlast'

namespace Buffer

variable {c₀ : Context} {old : OpId} {val : ValueId} {ty : MemDescTy} {st : Stage}

/-- What closes its block at some stage closed it at the start. -/
theorem Progress.closesBlock {g : Graph} (hp : Progress c₀.graph old val ty st g)
    (h : Replacing c₀ old val ty) {i : OpId} (hi : c₀.graph.HasOp i)
    (hview : ¬ c₀.graph.ViewOf old i) (hcloses : g.ClosesBlock i) : c₀.graph.ClosesBlock i := by
  obtain ⟨b, p, t, hb, hparent, hends, hlast⟩ := hcloses
  rw [hp.op_of_not_viewOf hi hview] at hb
  rw [hp.blockParent b] at hparent
  have haround : c₀.graph.parent i = some p := by
    rw [Graph.parent, hb]
    exact hparent
  obtain ⟨hstays, hthere⟩ := hp.stays_of_parent h haround
  rw [hp.op_of_not_gone hthere hstays] at hends
  -- the last operation is the last of what stands in the last place
  have hmem : i ∈ (c₀.graph.block b).ops := (h.sound.graph.members.mem_iff i b).mp hb
  obtain ⟨last, hlast₀⟩ := Option.isSome_iff_exists.mp
    (List.getLast?_isSome.mpr (List.ne_nil_of_mem hmem))
  rw [hp.block b, getLast?_flatMap hlast₀ (hp.places_ne_nil last)] at hlast
  have hsame : last = i := by
    by_contra hne
    exact hp.not_mem_places hi hne (List.mem_of_getLast? hlast)
  exact ⟨b, p, t, hb, hparent, hends, hsame ▸ hlast₀⟩

/-- At a stage that `Finishes`, `old` can be erased, and `root` stays verified. -/
theorem Finishes.gives_eraseOp {c : Context} (hfin : Finishes c₀.graph old (.start old val) st)
    (h : Replacing c₀ old val ty) (hp : Progress c₀.graph old val ty st c.graph) (hc : c.Sound)
    {root : OpId} (hverified : c.graph.Verified root []) (hne : old ≠ root)
    (hlive : (c₀.graph.op old).erased = false) (hregions : (c₀.graph.op old).regions = [])
    (hlast : ¬ c₀.graph.ClosesBlock old) :
    (Build.eraseOp old).Gives c fun _ c' => c'.graph.Verified root [] := by
  have hself := h.tree.not_viewOf_self
  have hrow := hp.op_of_not_viewOf h.there hself
  have hleaf : (c.graph.op old).regions = [] := by rw [hrow, hregions]
  have hunused : ∀ r ∈ (c.graph.op old).results, ∀ s, (c.graph.slot s).value ≠ some r := by
    rw [hrow]
    exact hfin.unused h hp .refl
  refine (Build.meets_eraseOp hc (hp.within.hasOp h.there) ?_ hunused).imp (fun _ c' _ hgraph => ?_)
    fun _ c' _ hfails => ?_
  · rw [Graph.children, hleaf]
    rfl
  · rw [hgraph]
    exact hverified.erasedLeaf hc.graph hne hleaf hunused fun hcloses =>
      hlast (hp.closesBlock h h.there hself hcloses)
  · rw [hrow, hlive] at hfails
    cases hfails.1

end Buffer

/-- `replaceUses` keeps `root` verified, if `val` passes the check of definitions at the direct
readers. If it fails, a view is in no block or erased. If not, `old` can be erased too, unless it
has regions or closes a block that has to end in some way. -/
theorem verify_replaceUses {c : Context} (hreach : Reachable c) {root old : OpId}
    (hverify : c.graph.verify root = none) (hinside : c.graph.isAncestorOf root old = true)
    (hne : old ≠ root) {val : ValueId} {ty : MemDescTy}
    (hval : c.graph.typeOf val = some (.memDesc ty))
    (hapart : ∀ p, c.graph.Viewed old p → val ∉ (c.graph.op p).results)
    (htree : c.graph.ViewTree old ty)
    (hleaf : ∀ x, c.graph.ViewOf old x → c.graph.children x = [])
    (hdefined : c.graph.FitsReaders old val) :
    (∃ c', Buffer.replaceUses old (some val) c = .ok () c' ∧ c'.graph.verify root = none ∧
        ((c.graph.op old).regions = [] → ¬ c.graph.ClosesBlock old →
          ∃ c'', Build.eraseOp old c' = .ok () c'' ∧ c''.graph.verify root = none)) ∨
      ∃ e c', Buffer.replaceUses old (some val) c = .error e c' ∧ c'.graph.verify root = none ∧
        ∃ x, c.graph.ViewOf old x ∧
          ((c.graph.op x).block = none ∨ (c.graph.op x).erased = true) := by
  have hsound := hreach.sound
  have hin := Graph.inside_of_isAncestorOf hinside
  have hroot := hin.hasOp_root hsound.graph hne
  have hverified := (Graph.verify_eq_none_iff hsound.graph hroot).mp hverify
  have hold : c.graph.HasOp old := by
    cases hin with
    | root => exact absurd rfl hne
    | step hparent => exact Graph.hasOp_of_parent hparent
  have h : Buffer.Replacing c old val ty :=
    ⟨hsound, hreach.slotsOwned, hold, htree, hval, hapart, hleaf⟩
  -- what holds at every stage holds where the work ends, whichever way it does
  have hkeeps : ∀ {c' : Context} {st : Buffer.Stage}, c.Advances c' →
      Buffer.Progress c.graph old val ty st c'.graph → c'.graph.Verified root [] := fun hadv hp =>
    hp.verified h (hsound.advances hadv).graph hverified hin (hdefined.visible hsound.graph) hne
  have hiff : ∀ {c' : Context}, c.Advances c' →
      (c'.graph.verify root = none ↔ c'.graph.Verified root []) := fun hadv =>
    Graph.verify_eq_none_iff (hsound.advances hadv).graph (hadv.within.hasOp hroot)
  have hmeets := Buffer.meets_replaceUses h
  cases hrun : Buffer.replaceUses old (some val) c with
  | ok a c' =>
    obtain ⟨hadv, st, hp, hfin⟩ := hmeets.of_ok hrun
    refine Or.inl ⟨c', rfl, (hiff hadv).mpr (hkeeps hadv hp), fun hregions hlast => ?_⟩
    obtain ⟨⟨⟩, c'', herase, hadv', hverified'⟩ := (hfin.gives_eraseOp h hp (hsound.advances hadv)
      (hkeeps hadv hp) hne (hverified old hin).live hregions hlast).ok
    exact ⟨c'', herase, (hiff (hadv.trans hadv')).mpr hverified'⟩
  | error e c' =>
    obtain ⟨hadv, hstops, st, hp⟩ := hmeets.of_error hrun
    exact Or.inr ⟨e, c', rfl, (hiff hadv).mpr (hkeeps hadv hp), hstops⟩

/-- On `layered`, the buffer with its views gives way to the other one and is erased. -/
theorem layered_verified :
    ∃ c', Buffer.replaceUses ⟨2⟩ (some ⟨2⟩) (Request.run layered {}) = .ok () c' ∧
      c'.graph.verify ⟨0⟩ = none ∧
      ∃ c'', Build.eraseOp ⟨2⟩ c' = .ok () c'' ∧ c''.graph.verify ⟨0⟩ = none := by
  obtain ⟨hapart, hviews⟩ := views_layered
  have hverify : (Request.run layered {}).graph.verify ⟨0⟩ = none ∧
      (Request.run layered {}).graph.isAncestorOf ⟨0⟩ ⟨2⟩ = true ∧
      (Request.run layered {}).graph.FitsReaders ⟨2⟩ ⟨2⟩ := by decide +kernel
  have hold : ((Request.run layered {}).graph.op ⟨2⟩).regions = [] ∧
      ((Request.run layered {}).graph.op ⟨2⟩).block = some ⟨0⟩ ∧
      ((Request.run layered {}).graph.block ⟨0⟩).ops.getLast? ≠ some ⟨2⟩ := by decide +kernel
  -- no view is erased or outside of all blocks, so the work does not stop
  obtain ⟨c', hrun, hafter, herase⟩ | ⟨e, c', -, -, x, hx, hnone | herased⟩ :=
    verify_replaceUses reachable_layered hverify.1 hverify.2.1 (by decide) typeOf_layered hapart
      viewTree_layered (fun x hx => (hviews x hx).1) hverify.2.2
  · exact ⟨c', hrun, hafter, herase hold.1 (Graph.not_closesBlock hold.2.1 hold.2.2)⟩
  · have hblock := (hviews x hx).2.1
    rw [hnone] at hblock
    cases hblock
  · rw [(hviews x hx).2.2] at herased
    cases herased

/-- A `func` with a buffer that has a view around a constant which is read outside of it, and a
buffer that a view of another one reads as its offset. -/
def burdened : List Request := [
  .createDetached { name := Kinds.func },
  .addBlock ⟨0⟩ 0,
  .moveToEnd (some ⟨0⟩),
  .create { name := Kinds.localAlloc, results := [some (.memDesc (bufferOf [4] true))] },
  .create { name := Kinds.localAlloc, results := [some (.memDesc (bufferOf [4] true))] },
  .create
    { name := Kinds.memDescSubview, segments := [[some ⟨1⟩]]
      results := [some (.memDesc (bufferOf [4] true))], regions := 1 },
  .addBlock ⟨3⟩ 0,
  .moveToEnd (some ⟨1⟩),
  .create { name := Kinds.constant, results := [some Ty.i32] },
  .moveToEnd (some ⟨0⟩),
  .create { name := Kinds.localAlloc, results := [some (.memDesc (bufferOf [4] true))] },
  .create
    { name := Kinds.memDescSubview, segments := [[some ⟨0⟩], [some ⟨4⟩]]
      results := [some (.memDesc (bufferOf [4] true))] },
  .create { name := Kinds.ret, operands := [some ⟨3⟩] }]

theorem reachable_burdened : Reachable (Request.run burdened {}) :=
  (Reachable.fresh .collect 0).run (by decide +kernel)

theorem typeOf_burdened :
    (Request.run burdened {}).graph.typeOf ⟨0⟩ = some (.memDesc (bufferOf [4] true)) := by
  set_option maxRecDepth 4000 in rfl

/-- On `burdened`, the constant is erased with the view, and its reader is left behind. The view
with the offset is taken for a view of the buffer that the offset is from, and what is built for it
still reads that, so this buffer cannot be erased. -/
theorem burdened_not_verified :
    Reachable (Request.run burdened {}) ∧
      (Request.run burdened {}).graph.verify ⟨0⟩ = none ∧
      (Request.run burdened {}).graph.typeOf ⟨0⟩ = some (.memDesc (bufferOf [4] true)) ∧
      (∀ old ∈ [(⟨2⟩ : OpId), ⟨5⟩],
        (Request.run burdened {}).graph.isAncestorOf ⟨0⟩ old = true ∧
        (Request.run burdened {}).graph.FitsReaders old ⟨0⟩) ∧
      ((Request.run burdened {}).graph.ViewTree ⟨2⟩ (bufferOf [4] true) ∧
        (∀ p, (Request.run burdened {}).graph.Viewed ⟨2⟩ p →
          ⟨0⟩ ∉ ((Request.run burdened {}).graph.op p).results) ∧
        ∃ c', Buffer.replaceUses ⟨2⟩ (some ⟨0⟩) (Request.run burdened {}) = .ok () c' ∧
          c'.graph.verify ⟨0⟩ ≠ none) ∧
      (∀ x, Ops.isView (Request.run burdened {}).graph x = true →
        ∀ slots, ((Request.run burdened {}).graph.op x).segmentSlots? Seg.src = some slots →
        ∀ s ∈ slots, ∀ r ∈ ((Request.run burdened {}).graph.op ⟨5⟩).results,
          ((Request.run burdened {}).graph.slot s).value ≠ some r) ∧
      ⟨0⟩ ∉ ((Request.run burdened {}).graph.op ⟨5⟩).results ∧
      ((Request.run burdened {}).graph.op ⟨5⟩).regions = [] ∧
      ¬ (Request.run burdened {}).graph.ClosesBlock ⟨5⟩ ∧
      ∃ c', Buffer.replaceUses ⟨5⟩ (some ⟨0⟩) (Request.run burdened {}) = .ok () c' ∧
        ∃ e c'', Build.eraseOp ⟨5⟩ c' = .error e c'' := by
  have hwf := reachable_burdened.sound.graph
  -- the first buffer is a tree of views in its own right: only what the view has inside is at fault
  have hlists : (Request.run burdened {}).graph.ListsViews ⟨2⟩ [⟨3⟩] := by decide +kernel
  have hviews : ((Request.run burdened {}).graph.op ⟨3⟩).name ≠ Kinds.memDescTrans ∧
      (∀ p ∈ [(⟨2⟩ : OpId), ⟨3⟩], ⟨0⟩ ∉ ((Request.run burdened {}).graph.op p).results) ∧
      ∀ k < (Request.run burdened {}).graph.ops.size,
        Ops.isView (Request.run burdened {}).graph ⟨k⟩ = true →
        ∀ s ∈ (((Request.run burdened {}).graph.op ⟨k⟩).segmentSlots? Seg.src).getD [],
        ∀ r ∈ ((Request.run burdened {}).graph.op ⟨5⟩).results,
          ((Request.run burdened {}).graph.slot s).value ≠ some r := by decide +kernel
  -- the work is done, but the last operation reads a constant that is gone
  have hnested : (match Buffer.replaceUses ⟨2⟩ (some ⟨0⟩) (Request.run burdened {}) with
      | .error _ _ => false
      | .ok _ c' => decide (c'.graph.verify ⟨0⟩ ≠ none)) = true := by decide +kernel
  -- the work is done, but the second buffer is still read
  have hoffset : (match Buffer.replaceUses ⟨5⟩ (some ⟨0⟩) (Request.run burdened {}) with
      | .error _ _ => false
      | .ok _ c' => match Build.eraseOp ⟨5⟩ c' with
        | .error _ _ => true
        | .ok _ _ => false) = true := by decide +kernel
  have hblock : ((Request.run burdened {}).graph.op ⟨5⟩).block = some ⟨0⟩ := by decide +kernel
  refine ⟨reachable_burdened, by decide +kernel, typeOf_burdened, by decide +kernel,
    ⟨hlists.viewTree hwf fun x hx hname => ?_,
      fun p hp => hviews.2.1 p (hlists.mem_of_viewed hwf hp), ?_⟩,
    fun x hx slots hslots s hs => ?_, by decide +kernel, by decide +kernel,
    Graph.not_closesBlock hblock (by decide +kernel), ?_⟩
  · rw [List.mem_singleton.mp hx] at hname
    exact absurd hname hviews.1
  · cases hrun : Buffer.replaceUses ⟨2⟩ (some ⟨0⟩) (Request.run burdened {}) with
    | error e c' =>
      rw [hrun] at hnested
      cases hnested
    | ok a c' =>
      rw [hrun] at hnested
      exact ⟨c', rfl, of_decide_eq_true hnested⟩
  · refine hviews.2.2 x.index (Graph.hasOp_of_isView hx) hx s ?_
    rw [hslots]
    exact hs
  · cases hrun : Buffer.replaceUses ⟨5⟩ (some ⟨0⟩) (Request.run burdened {}) with
    | error e c' =>
      rw [hrun] at hoffset
      cases hoffset
    | ok a c' =>
      rw [hrun] at hoffset
      refine ⟨c', rfl, ?_⟩
      dsimp only at hoffset
      cases herase : Build.eraseOp ⟨5⟩ c' with
      | error e c'' => exact ⟨e, c'', rfl⟩
      | ok a c'' =>
        rw [herase] at hoffset
        cases hoffset

end Multistage
