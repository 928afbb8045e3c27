import Multistage.Proofs.Buffer.ViewBuilding
import Multistage.Proofs.Build.TidyFunctions
import Multistage.Proofs.Tree.CleanErasure

/-!
# Replacing a buffer with care

`Buffer.replaceUses` collects the slots that read a buffer, builds and erases views, and then writes
the slots that it has collected. A slot may have lost its operation by then: an owner that lies
inside a view is erased with that view. Where nothing lies inside the views below the buffer
(`Graph.EmptyBelow`), only views are erased on the way, so every slot that is written is still an
operand of a live operation, and the context stays tidy (`keeps_replaceUses`).

`Graph.Trims` is what every step of the work does to the graph. It is transitive and carries
`EmptyBelow` along: a view that was there before reads nothing that it did not read before, and
nothing gets into an operation that had nothing inside.
-/

namespace Multistage

open BuildM Build Relation

/-! ## Graphs in which only views are erased -/

namespace Graph

/-- Nothing lies inside the views below `old`. -/
def EmptyBelow (g : Graph) (old : OpId) : Prop := ∀ x, g.ViewOf old x → g.children x = []

/-- Nothing lies inside any view. This can be evaluated, and gives `EmptyBelow` for every operation.
-/
def EmptyViews (g : Graph) : Prop := ∀ x, Ops.isView g x = true → g.children x = []

instance (g : Graph) : Decidable g.EmptyViews :=
  decidable_of_iff
    (∀ k : Fin g.ops.size, Ops.isView g ⟨k⟩ = true → g.children ⟨k⟩ = [])
    ⟨fun h x hx => h ⟨x.index, hasOp_of_isView hx⟩ hx, fun h k => h ⟨k⟩⟩

theorem EmptyViews.below {g : Graph} (h : g.EmptyViews) (old : OpId) : g.EmptyBelow old :=
  fun x hx => h x hx.isView

/-- Only views are erased between `g` and `g'`. -/
abbrev LeavesOthers (g g' : Graph) : Prop := Leaves (fun i => Ops.isView g i = true) g g'

namespace Leaves

variable {S : OpId → Prop} {g g' g'' : Graph}

theorem isView (h : Leaves S g g') {i : OpId} (hi : g.HasOp i) :
    Ops.isView g' i = Ops.isView g i := by
  unfold Ops.isView
  rw [(h.op i hi).1]

/-- `LeavesOthers` composes: what is a view later was one before, if it was there. -/
theorem trans_others (h : g.LeavesOthers g') (hwithin : g.Within g') (h' : g'.LeavesOthers g'') :
    g.LeavesOthers g'' :=
  h.trans hwithin h' fun _ hi hview => by rwa [← h.isView hi]

/-- A `Current` slot of something that is no view stays so. -/
theorem current (h : g.LeavesOthers g') (hwf : g.WellFormed) {s : SlotId} (hs : g.Current s)
    (hout : Ops.isView g (g.slot s).owner = false) : g'.Current s := by
  have howner : g.HasOp (g.slot s).owner := hasOp_of_mem_operands hs.2
  have hmark := h.mark _ howner (by rw [hout]; exact Bool.false_ne_true)
  rw [Current, h.owner s (hwf.numbered.of_mem hs.2).1, hmark, (h.op _ howner).2]
  exact hs

end Leaves

/-- From `g` to `g'` only views were erased, a view of `g` reads in `g'` what it read in `g` or
nothing, and an operation with nothing inside in `g` has nothing inside in `g'`. -/
structure Trims (g g' : Graph) : Prop where
  within : g.Within g'
  leaves : g.LeavesOthers g'
  source : ∀ v, g.HasValue v → (g'.value v).source = (g.value v).source
  reads : ∀ s r, Ops.isView g (g'.slot s).owner = true → (g'.slot s).value = some r →
    (g.slot s).value = some r
  empty : ∀ p, g.children p = [] → g'.children p = []

namespace Trims

variable {g g' g'' : Graph}

theorem refl (g : Graph) : g.Trims g where
  within := .refl g
  leaves := .refl _ g
  source _ _ := rfl
  reads _ _ _ h := h
  empty _ h := h

theorem trans (h : g.Trims g') (h' : g'.Trims g'') : g.Trims g'' where
  within := h.within.trans h'.within
  leaves := h.leaves.trans_others h.within h'.leaves
  source v hv := (h'.source v (h.within.hasValue hv)).trans (h.source v hv)
  reads s r hview hs := by
    have hmiddle : Ops.isView g' (g''.slot s).owner = true := by
      rwa [h.leaves.isView (hasOp_of_isView hview)]
    have hs' := h'.reads s r hmiddle hs
    rw [h'.leaves.owner s (hasSlot_of_value_eq_some hs')] at hview
    exact h.reads s r hview hs'
  empty p hp := h'.empty p (h.empty p hp)

section

variable (h : g.Trims g') (hwf : g.WellFormed) (hwf' : g'.WellFormed)

include h hwf hwf'

/-- A view of `g` that is fed by `p` in `g'` was so in `g`. -/
theorem feeds {p x : OpId} (hx : g.HasOp x) (hfeeds : g'.Feeds p x) : g.Feeds p x := by
  obtain ⟨hview, s, rfl, r, hr, hs⟩ := hfeeds
  rw [h.leaves.isView hx] at hview
  have hs₀ := h.reads s r hview hs
  have howner := h.leaves.owner s (hasSlot_of_value_eq_some hs₀)
  obtain ⟨-, n, hsource⟩ := hwf'.owned.mem_results_iff.mp hr
  have hthere : g.HasValue r := hwf.uses.held s r hs₀
  rw [h.source r hthere] at hsource
  exact ⟨hview, s, howner.symm, r, hwf.owned.mem_results_iff.mpr ⟨hthere, n, hsource⟩, hs₀⟩

theorem viewOf {old x : OpId} (hx : g.HasOp x) (hview : g'.ViewOf old x) : g.ViewOf old x := by
  -- from the end of the path: what feeds an operation of `g` is one itself
  induction hview with
  | single hfeeds => exact .single (h.feeds hwf hwf' hx hfeeds)
  | tail _ hfeeds ih =>
    have hlast := h.feeds hwf hwf' hx hfeeds
    obtain ⟨-, _, -, _, hr, -⟩ := id hlast
    exact (ih (hasOp_of_mem_results hr)).tail hlast

theorem emptyBelow {old : OpId} (hempty : g.EmptyBelow old) : g'.EmptyBelow old := by
  intro x hview
  refine h.empty x ?_
  by_cases hx : g.HasOp x
  · exact hempty x (h.viewOf hwf hwf' hx hview)
  · -- a new view was not there, so nothing was inside it
    rw [children, op_of_not_hasOp hx]
    rfl

end

end Trims

/-! ## The steps -/

section

variable {g g' : Graph} (hwf : g.WellFormed)

include hwf

/-- Where a block lists something only if it did before, nothing gets into an operation `p` that had
nothing inside. -/
theorem children_eq_nil_of_listed (hwf' : g'.WellFormed)
    (haround : ∀ b, g'.blockParent b = g.blockParent b)
    (hlisted : ∀ b, ∀ i ∈ (g'.block b).ops, ∃ j, j ∈ (g.block b).ops) {p : OpId}
    (hp : g.children p = []) : g'.children p = [] := by
  refine List.eq_nil_iff_forall_not_mem.mpr fun i hi => ?_
  obtain ⟨b, hb, hparent⟩ := Option.bind_eq_some_iff.mp ((mem_children_iff hwf').mp hi)
  obtain ⟨j, hj⟩ := hlisted b i ((hwf'.members.mem_iff i b).mp hb)
  have hparent' : g.parent j = some p := Option.bind_eq_some_iff.mpr
    ⟨b, (hwf.members.mem_iff j b).mpr hj, (haround b).symm.trans hparent⟩
  have hchild := (mem_children_iff hwf).mpr hparent'
  rw [hp] at hchild
  cases hchild

/-- `PutsBefore`, by which a view is built anew, trims the graph. -/
theorem PutsBefore.trims {x y : OpId} (h : g.PutsBefore g' x y) (hwf' : g'.WellFormed) :
    g.Trims g' := by
  have haround : ∀ b, g'.blockParent b = g.blockParent b := by
    intro b
    rw [blockParent, h.block]
    split <;> rfl
  refine ⟨h.within, ⟨fun i hi => ?_, fun i hi _ => ?_, fun s hs => ?_, haround⟩, h.source,
    fun s r hview hs => ?_, fun p hp => ?_⟩
  · rw [h.op i hi]
    exact ⟨rfl, rfl⟩
  · rw [h.op i hi]
  · rw [h.slot s hs]
  · by_cases hthere : g.HasSlot s
    · rwa [h.slot s hthere] at hs
    · -- a new slot belongs to the new operation, which was no view before
      have hmem := h.fresh_slot s hthere r hs
      rw [(hwf'.numbered.of_mem hmem).2.1] at hview
      rw [h.op y (hasOp_of_isView hview)] at hmem
      exact absurd (hwf.numbered.of_mem hmem).1 hthere
  · refine children_eq_nil_of_listed hwf hwf' haround (fun b i hi => ?_) hp
    rw [h.block] at hi
    split at hi
    · next hb => exact ⟨x, (hwf.members.mem_iff x b).mp hb⟩
    · exact ⟨i, hi⟩

/-- `assignAll` to slots of operations that are no views trims the graph. -/
theorem trims_assignAll {slots : List SlotId}
    (hslots : ∀ s ∈ slots, g.Current s ∧ Ops.isView g (g.slot s).owner = false)
    (v : Option ValueId) : g.Trims (g.assignAll slots v) where
  within := within_assignAll g slots v
  leaves := by
    refine ⟨fun i _ => ?_, fun i _ _ => ?_, fun s _ => owner_assignAll g slots v s, fun b => ?_⟩
    · rw [op, ops_assignAll]
      exact ⟨rfl, rfl⟩
    · rw [op, ops_assignAll]
      rfl
    · rw [blockParent, block, blocks_assignAll]
      rfl
  source w _ := source_assignAll g slots v w
  reads s r hview hs := by
    rw [owner_assignAll] at hview
    have hout : s ∉ slots := by
      intro hmem
      rw [(hslots s hmem).2] at hview
      cases hview
    have hthere : ∀ t ∈ slots, g.HasSlot t :=
      fun t ht => (hwf.numbered.of_mem (hslots t ht).1.2).1
    rwa [held_assignAll g hthere, if_neg hout] at hs
  empty p hp := by
    rw [children, op, ops_assignAll, ← op]
    unfold block
    rw [blocks_assignAll]
    exact hp

/-- `erase` of a view with nothing inside erases it alone. -/
theorem trims_erase {x : OpId} (hview : Ops.isView g x = true) (hempty : g.children x = [])
    (hok : g.erase x = .ok g') (hwf' : g'.WellFormed) : g.Trims g' := by
  have hx := hasOp_of_isView hview
  obtain ⟨-, -, rfl⟩ := erase_eq_ok_iff.mp hok
  have halone : ∀ i, g.Inside x i → i = x := by
    intro i hi
    rcases hi.eq_or_child hwf with rfl | ⟨j, hj, -⟩
    · rfl
    · rw [hempty] at hj
      cases hj
  refine ⟨within_felled g x, ⟨fun i _ => ?_, fun i _ hout => ?_, fun s _ => (slot_felled x s).1,
    blockParent_felled x⟩, fun v _ => ?_, fun s r _ hs => ?_, fun p hp => ?_⟩
  · rw [op_felled]
    exact ⟨rfl, rfl⟩
  · refine Bool.eq_iff_iff.mpr ((erased_felled hwf hx i).trans (or_iff_left fun hinside => ?_))
    rw [halone i hinside] at hout
    exact hout hview
  · rw [value_felled hx hwf]
  · rw [(slot_felled x s).2] at hs
    split at hs
    · cases hs
    · exact hs
  · refine children_eq_nil_of_listed hwf hwf' (blockParent_felled x) (fun b i hi => ⟨i, ?_⟩) hp
    rw [ops_felled hwf.members] at hi
    exact (List.mem_filter.mp hi).1

end

end Graph

namespace Buffer

open Ops

variable {c : Context}

/-! ## One view -/

/-- `v` is a result of an operation that was just created at the cursor of `c`. -/
def IsNew (c : Context) (v : ValueId) (d : Context) : Prop :=
  v ∈ (d.graph.op c.graph.nextOp).results ∧
    ∃ spec b k, c.graph.HasSpec spec ∧ c.At b k ∧ d = Created c spec b k

theorem keeps_createValue_isNew (h : c.Tidy) {spec : OpSpec} (hspec : c.graph.HasSpec spec) :
    (createValue spec).Keeps c (IsNew c) := by
  have hleads := leads_createValue (leads_create h.sound hspec)
  refine ((keeps_createValue h hspec).any.of_leads hleads).imp fun v d _ _ hd => ?_
  obtain ⟨i, ⟨rfl, b, k, loc, hat, rfl⟩, hv⟩ := hd
  exact ⟨hv, { spec with loc }, b, k, hspec, hat, rfl⟩

/-- What is created right before `view` gets the attributes that are meant for it. -/
theorem keeps_describeNew {view : OpId} (h : Beside c view) {work : BuildM ValueId}
    (hwork : work.Keeps c (IsNew c)) (attrs : AttrDict) :
    Keeps (do
      let new ← work
      setAttrs (← present ((← graph).definingOp new)) attrs
      return new) c
      fun v d => c.graph.PutsBefore d.graph view c.graph.nextOp ∧
        v ∈ (d.graph.op c.graph.nextOp).results := by
  refine hwork.bind fun v d _ htidy hd => ?_
  obtain ⟨hv, spec, b, k, hspec, hat, rfl⟩ := hd
  have hb : (c.graph.op view).block = some b := h.block.symm.trans hat.1
  obtain rfl : (c.graph.block b).ops.idxOf view = k := by
    have hk := hat.2
    rw [h.before] at hk
    rw [List.idxOf_eq_getD_idxOf?, show (c.graph.block b).ops.idxOf? view = some k from hk]
    rfl
  -- the new value is a result of the new operation, which is how the operation is found again
  obtain ⟨-, n, hsource⟩ := htidy.sound.graph.owned.mem_results_iff.mp hv
  refine asks_graph.bind htidy fun g hg => ?_
  subst hg
  rw [Graph.definingOp, hsource]
  refine (asks_present _).bind htidy fun x hx => ?_
  cases hx
  have hdescribe : ∀ o : Op, ∃ attrs' loc, { o with attrs } = { o with attrs := attrs', loc } :=
    fun o => ⟨attrs, o.loc, rfl⟩
  refine (keeps_modifyGraph htidy (.single (.describe _ _ hdescribe))
    (htidy.orderly.describe _ hdescribe)).bind fun _ d _ hd heq => ?_
  subst heq
  refine .pure hd ⟨?_, ?_⟩
  · show c.graph.PutsBefore (Graph.modifyOp _ _ _) view c.graph.nextOp
    rw [graph_created]
    exact (insertable h.sound spec hspec hat).putsBefore hb spec.results attrs
  · rw [Graph.op_modifyOp]
    split <;> exact hv

/-- `rebuildView` puts the new view right before `view` and gives its result. -/
theorem keeps_rebuildView (h : c.Tidy) (view : OpId) {src : Option ValueId}
    (hsrc : c.graph.HasOptValue src) :
    (rebuildView view src).Keeps c fun v d => c.graph.PutsBefore d.graph view c.graph.nextOp ∧
      v ∈ (d.graph.op c.graph.nextOp).results := by
  refine keeps_keepingPoint h (Q := fun v g => c.graph.PutsBefore g view c.graph.nextOp ∧
    v ∈ (g.op c.graph.nextOp).results) ?_
  have hmove := (keeps_moveBefore h view).any.of_leads (leads_moveBefore h.sound view)
  refine hmove.bind fun _ c₁ _ h₁ hc => ?_
  obtain ⟨b, hb, rfl⟩ := hc
  have hbeside : Beside { c with cursor :=
      { c.cursor with block := some b, before := some view } } view :=
    ⟨h₁.sound, rfl, hb.symm, Option.isSome_iff_exists.mpr ⟨b, hb⟩⟩
  refine asks_graph.bind h₁ fun g _ => ?_
  refine keeps_withLoc h₁ (Q := fun v g => c.graph.PutsBefore g view c.graph.nextOp ∧
    v ∈ (g.op c.graph.nextOp).results) ?_
  have hbeside' := hbeside.withLoc (g.op view).loc
  have h₂ := h₁.withCursor hbeside'.sound.cursor
  dsimp only
  split
  · -- a view with offsets keeps them, so they have to be there
    refine (asks_present _).bind h₂ fun old _ => (asks_bufferTy old).bind h₂ fun oldTy _ => ?_
    refine (asks_present src).bind h₂ fun w _ => (asks_bufferTy w).bind h₂ fun srcTy _ => ?_
    refine (asks_segment h₂.sound view Seg.offsets).bind h₂ fun offsets hoffsets => ?_
    refine keeps_describeNew hbeside'
      (keeps_createValue_isNew h₂ (hasSpec_of_refs fun v hv => ?_)) _
    have hmem : v = src ∨ v ∈ offsets := by simpa using hv
    rcases hmem with rfl | hv
    · exact hsrc
    · exact hoffsets v hv
  · refine (asks_present src).bind h₂ fun w hw => ?_
    subst hw
    refine keeps_describeNew hbeside' ?_ _
    unfold memDescTrans
    refine (asks_bufferTy w).bind h₂ fun ty _ => ?_
    cases ty.transposed (transOrder g view) with
    | error e => exact .throw h₂
    | ok ty => exact keeps_createValue_isNew h₂ (hasSpec_of_refs (by simpa using hsrc))

/-! ## The loop over the uses -/

/-- What has been gathered from the uses of `old` while `g` became `g'`: views that `old` feeds, and
current slots of other operations. -/
structure Gathered (g g' : Graph) (old : OpId) (views : List OpId) (direct : List SlotId) :
    Prop where
  views : ∀ x ∈ views, g.Feeds old x
  direct : ∀ s ∈ direct, g.Current s ∧ isView g (g.slot s).owner = false
  trims : g.Trims g'

/-- `go` replaces the uses of any view below which nothing lies inside a view. -/
def Replaces (go : OpId → Option ValueId → BuildM Unit) : Prop :=
  ∀ (d : Context) (x : OpId) (v : Option ValueId), d.Tidy → d.graph.EmptyBelow x →
    d.graph.HasOptValue v → (go x v).Keeps d fun _ d' => d.graph.Trims d'.graph

section

variable {old : OpId} {views : List OpId} {direct : List SlotId} {d : Context}

theorem current_of_mem_uses (h : c.Tidy) {s : SlotId}
    (hs : s ∈ (c.graph.op old).results.flatMap fun r => (c.graph.value r).uses) :
    c.graph.Current s := by
  obtain ⟨r, -, hr⟩ := List.mem_flatMap.mp hs
  exact h.orderly.current s r (h.sound.graph.uses.mem_uses_iff.mp hr)

theorem feeds_of_mem_uses (h : c.Tidy) {s : SlotId}
    (hs : s ∈ (c.graph.op old).results.flatMap fun r => (c.graph.value r).uses)
    (hview : isView c.graph (c.graph.slot s).owner = true) :
    c.graph.Feeds old (c.graph.slot s).owner := by
  obtain ⟨r, hr, hmem⟩ := List.mem_flatMap.mp hs
  exact ⟨hview, s, rfl, r, hr, h.sound.graph.uses.mem_uses_iff.mp hmem⟩

/-- A view `x` of `old` is built anew, and `go` replaces its uses. -/
theorem Gathered.keeps_view {go : OpId → Option ValueId → BuildM Unit} (hgo : Replaces go)
    (hacc : Gathered c.graph d.graph old views direct) (h : c.Tidy) (hd : d.Tidy)
    (hempty : c.graph.EmptyBelow old) {val : Option ValueId} (hval : d.graph.HasOptValue val)
    {x : OpId} (hx : c.graph.Feeds old x) :
    Keeps (do
      let new ← rebuildView x val
      go x (some new)
      return (views ++ [x], direct)) d
      fun acc d' => Gathered c.graph d'.graph old acc.1 acc.2 := by
  refine (keeps_rebuildView hd x hval).bind fun new d₁ _ hd₁ hnew => ?_
  have hstep := hacc.trims.trans (hnew.1.trims hd.sound.graph hd₁.sound.graph)
  have hempty_x : c.graph.EmptyBelow x := fun y hy => hempty y (.head hx hy)
  refine (hgo d₁ x _ hd₁ (hstep.emptyBelow h.sound.graph hd₁.sound.graph hempty_x)
    (hasValue_of_mem_results hd₁.sound.graph hnew.2).opt).bind fun _ d₂ _ hd₂ hbelow => ?_
  refine .pure hd₂ ⟨fun y hy => ?_, hacc.direct, hstep.trans hbelow⟩
  rcases List.mem_append.mp hy with hy | hy
  · exact hacc.views y hy
  · rw [List.mem_singleton.mp hy]
    exact hx

/-- The slots that were `Gathered` are written, and the views are erased. -/
theorem Gathered.keeps_finish (hacc : Gathered c.graph d.graph old views direct) (h : c.Tidy)
    (hd : d.Tidy) (hempty : c.graph.EmptyBelow old) {val : Option ValueId}
    (hval : d.graph.HasOptValue val) :
    Keeps (do
      modifyGraph (·.assignAll direct val)
      views.forM eraseOp) d
      fun _ d' => c.graph.Trims d'.graph := by
  -- the owners of the slots are no views, so none of them has been erased
  have hcurrent : ∀ s ∈ direct,
      d.graph.Current s ∧ isView d.graph (d.graph.slot s).owner = false := by
    intro s hs
    obtain ⟨hbefore, hout⟩ := hacc.direct s hs
    refine ⟨hacc.trims.leaves.current h.sound.graph hbefore hout, ?_⟩
    rw [hacc.trims.leaves.owner s (h.sound.graph.numbered.of_mem hbefore.2).1,
      hacc.trims.leaves.isView (Graph.hasOp_of_mem_operands hbefore.2)]
    exact hout
  have hslots : ∀ s ∈ direct, d.graph.HasSlot s :=
    fun s hs => (hd.sound.graph.numbered.of_mem (hcurrent s hs).1.2).1
  refine (keeps_modifyGraph hd (f := (·.assignAll direct val)) (Graph.edits_assignAll hslots hval)
    (hd.orderly.assignAll fun _ s hs => (hcurrent s hs).1)).bind fun _ d₁ _ hd₁ hc => ?_
  subst hc
  have hwritten := hacc.trims.trans (Graph.trims_assignAll hd.sound.graph hcurrent val)
  refine Keeps.forM (fun d' => c.graph.Trims d'.graph) (fun x hx d' _ hd' htrims => ?_) hd₁ hwritten
  -- nothing is inside a view that was gathered, now as before
  have hfeeds := hacc.views x hx
  have hview : isView d'.graph x = true := by
    rw [htrims.leaves.isView hfeeds.hasOp]
    exact hfeeds.1
  have hleaf := htrims.empty x (hempty x (.single hfeeds))
  refine ((keeps_eraseOp hd' (htrims.within.hasOp hfeeds.hasOp)).of_leads
    (leads_eraseOp hd'.sound x)).imp fun _ d'' _ hd'' herased => ?_
  obtain ⟨g, hok, hgraph⟩ := herased
  subst hgraph
  exact htrims.trans (Graph.trims_erase hd'.sound.graph hview hleaf hok hd''.sound.graph)

end

/-- Replacing the uses of `old` keeps a context tidy if nothing lies inside the views below it. -/
theorem keeps_replaceUsesWithin (n : Nat) : Replaces (replaceUsesWithin n) := by
  -- the induction is on the depth of views; the loop invariant is `Gathered`
  induction n with
  | zero => exact fun d _ _ hd _ _ => .pure hd (.refl _)
  | succ n ih =>
    intro c old val h hempty hval
    refine asks_graph.bind h fun g hg => ?_
    subst hg
    refine Keeps.bind
      (P := fun (acc : List OpId × List SlotId) d => Gathered c.graph d.graph old acc.1 acc.2) ?_
      fun acc d hadv hd hacc => hacc.keeps_finish h hd hempty (hadv.within.hasOptValue hval)
    refine Keeps.foldlM
      (fun (acc : List OpId × List SlotId) d => Gathered c.graph d.graph old acc.1 acc.2)
      (fun acc s hs d hadv hd hacc => ?_) h
      ⟨fun _ hx => (List.not_mem_nil hx).elim, fun _ hs => (List.not_mem_nil hs).elim, .refl _⟩
    obtain ⟨views, direct⟩ := acc
    dsimp only
    split
    · next hview =>
      rw [Bool.not_eq_true'] at hview
      refine .pure hd ⟨hacc.views, fun t ht => ?_, hacc.trims⟩
      rcases List.mem_append.mp ht with ht | ht
      · exact hacc.direct t ht
      · rw [List.mem_singleton.mp ht]
        exact ⟨current_of_mem_uses h hs, hview⟩
    next hview =>
    rw [Bool.not_eq_true', Bool.not_eq_false] at hview
    split
    · exact .pure hd hacc
    · exact hacc.keeps_view ih h hd hempty (hadv.within.hasOptValue hval)
        (feeds_of_mem_uses h hs hview)

theorem keeps_replaceUses (h : c.Tidy) {old : OpId} (hempty : c.graph.EmptyBelow old)
    {val : Option ValueId} (hval : c.graph.HasOptValue val) :
    (replaceUses old val).Keeps c fun _ d => c.graph.Trims d.graph :=
  asks_graph.bind h fun _ _ => keeps_replaceUsesWithin _ c old val h hempty hval

end Buffer

end Multistage
