import Multistage.Proofs.Build.BuilderSuccess
import Multistage.Proofs.Encoding.DotUsers
import Multistage.Proofs.OptionLists

/-!
# The choice of a layout and the order of uses

A value lists the slots that read it in the order in which they came to read it. The layout for
buffering a result does not depend on that order: in two graphs that differ in nothing else the
choice fails alike or ends in the same layout, and where it does not, the user is told that the
allocations which read the result disagree.
-/

namespace Multistage

open Relation

/-! ## Graphs that differ in the order of uses -/

/-- `g` and `g'` differ only in the order in which values list the slots that read them. -/
structure Graph.Reorders (g g' : Graph) : Prop where
  ops : g'.ops = g.ops
  blocks : g'.blocks = g.blocks
  slots : g'.slots = g.slots
  size : g'.values.size = g.values.size
  row : ∀ v, ∃ uses, (g.value v).uses.Perm uses ∧ g'.value v = { g.value v with uses }

namespace Graph.Reorders

open Buffer

variable {g g' : Graph} (h : g.Reorders g')

include h

theorem op_eq (i : OpId) : g'.op i = g.op i := by
  rw [op, op, h.ops]

theorem slot_eq (s : SlotId) : g'.slot s = g.slot s := by
  rw [slot, slot, h.slots]

theorem typeOf_eq (v : ValueId) : g'.typeOf v = g.typeOf v := by
  obtain ⟨uses, _, hrow⟩ := h.row v
  rw [typeOf, typeOf, hrow]

theorem label_eq (i : OpId) : g'.label i = g.label i := by
  rw [label, label, h.op_eq]

theorem segmentValue?_eq (i : OpId) (name : String) :
    g'.segmentValue? i name = g.segmentValue? i name := by
  simp only [segmentValue?, h.op_eq, h.slot_eq]

theorem mem_users_iff {v : ValueId} (user : OpId) : user ∈ g.users v ↔ user ∈ g'.users v := by
  obtain ⟨uses, hperm, hrow⟩ := h.row v
  simp only [users, hrow, h.slot_eq, List.mem_eraseDups, List.mem_map, hperm.mem_iff]

theorem mem_opUsers_iff {i : OpId} (user : OpId) :
    user ∈ g.opUsers i ↔ user ∈ g'.opUsers i := by
  simp only [opUsers, List.mem_eraseDups, List.mem_flatMap, h.op_eq, h.mem_users_iff]

theorem makesBuffer_eq : g'.MakesBuffer = g.MakesBuffer := by
  funext v w
  simp only [MakesBuffer, ← h.mem_users_iff, h.op_eq, h.typeOf_eq]

theorem buffersEnd {v : ValueId} (hend : g.BuffersEnd v) : g'.BuffersEnd v := by
  rw [BuffersEnd, h.makesBuffer_eq]
  exact hend

theorem neededBy?_eq (deeper : ValueId → Option (Option SharedLayout)) (v : ValueId)
    (user : OpId) : neededBy? g' deeper v user = neededBy? g deeper v user := by
  simp only [neededBy?, h.op_eq, h.typeOf_eq]

/-- `dotLayout?` is the same, whatever the order of the users is. -/
theorem dotLayout?_sameNeed {v : ValueId} (hend : g.BuffersEnd v)
    (hfit : ∀ w, ReflTransGen g.MakesBuffer v w → OrderFits (g.typeOf w)) :
    SameNeed (dotLayout? g v) (dotLayout? g' v) := by
  refine hend.induction (motive := fun x =>
    (∀ w, ReflTransGen g.MakesBuffer x w → OrderFits (g.typeOf w)) →
      SameNeed (dotLayout? g x) (dotLayout? g' x)) (fun x hx ih hfit => ?_) hfit
  -- the buffers end in both graphs, so both searches take one step and are then at a buffer
  rw [dotLayout?_eq hx, dotLayout?_eq (h.buffersEnd hx)]
  refine agreed?_sameNeed h.mem_users_iff fun user huser => ?_
  rw [h.neededBy?_eq]
  exact neededBy?_sameNeed huser (hfit x .refl) fun w hw => ih w hw fun y hy => hfit y (.head hw hy)

end Graph.Reorders

/-! ## Two runs side by side -/

namespace BuildM

variable {α β : Type} {c c' : Context}

/-- Two pieces of work, each in its own context, fail alike, or both succeed with answers and
contexts as `Q` says. -/
def Parallel (x y : BuildM α) (c c' : Context) (Q : α → α → Context → Context → Prop) : Prop :=
  match x c, y c' with
  | .ok a d, .ok b d' => Q a b d d'
  | .error e _, .error e' _ => e = e'
  | _, _ => False

namespace Parallel

variable {x y : BuildM α} {Q : α → α → Context → Context → Prop}

theorem bind {f f' : α → BuildM β} {P : β → β → Context → Context → Prop}
    (h : Parallel x y c c' Q) (hf : ∀ a b d d', Q a b d d' → Parallel (f a) (f' b) d d' P) :
    Parallel (x >>= f) (y >>= f') c c' P := by
  have hbind (z : BuildM α) (k : α → BuildM β) (c : Context) : (z >>= k) c = EStateM.bind z k c :=
    rfl
  unfold Parallel at h
  unfold Parallel
  rw [hbind, hbind, EStateM.bind, EStateM.bind]
  -- where only one of the two succeeds there is nothing to show
  split at h
  · rename_i a d b d' hx hy
    rw [hx, hy]
    exact hf a b d d' h
  · rename_i hx hy
    rw [hx, hy]
    exact h
  · exact h.elim

theorem imp {P : α → α → Context → Context → Prop} (h : Parallel x y c c' Q)
    (hQP : ∀ a b d d', Q a b d d' → P a b d d') : Parallel x y c c' P := by
  unfold Parallel at *
  split at h
  · exact hQP _ _ _ _ h
  · exact h
  · exact h

theorem pure {a b : α} (h : Q a b c c') :
    Parallel (Pure.pure a : BuildM α) (Pure.pure b) c c' Q := h

theorem throw (e : Failure) :
    Parallel (MonadExceptOf.throw e : BuildM α) (MonadExceptOf.throw e) c c' Q := rfl

theorem graph {f f' : Graph → BuildM α} (h : Parallel (f c.graph) (f' c'.graph) c c' Q) :
    Parallel (BuildM.graph >>= f) (BuildM.graph >>= f') c c' Q := h

theorem present (a : Option α) :
    Parallel (BuildM.present a) (BuildM.present a) c c'
      fun x y d d' => x = y ∧ c = d ∧ c' = d' := by
  cases a with
  | none => exact .throw _
  | some a => exact .pure ⟨rfl, rfl, rfl⟩

/-- Work that `Gives` can be done in any two contexts. -/
theorem of_gives {P P' : α → Context → Prop} (hx : x.Gives c P) (hy : y.Gives c' P') :
    Parallel x y c c' fun a b d d' => (x c = .ok a d ∧ P a d) ∧ y c' = .ok b d' ∧ P' b d' := by
  obtain ⟨a, d, hxc, _, ha⟩ := hx.ok
  obtain ⟨b, d', hyc, _, hb⟩ := hy.ok
  unfold Parallel
  rw [hxc, hyc]
  exact ⟨⟨rfl, ha⟩, rfl, hb⟩

theorem outcomes (h : Parallel x y c c' Q) :
    (∃ e d d', x c = .error e d ∧ y c' = .error e d') ∨
      ∃ a b d d', x c = .ok a d ∧ y c' = .ok b d' ∧ Q a b d d' := by
  unfold Parallel at h
  split at h
  · rename_i a d b d' hx hy
    exact .inr ⟨a, b, d, d', hx, hy, h⟩
  · rename_i e d e' d' hx hy
    exact .inl ⟨e, d, d', hx, h ▸ hy⟩
  · exact h.elim

end Parallel

theorem parallel_trace (level : Int) (text text' : String) :
    Parallel (trace level text) (trace level text') c c' fun _ _ _ _ => True :=
  (Parallel.of_gives (gives_trace level text) (gives_trace level text')).imp
    fun _ _ _ _ _ => trivial

end BuildM

/-! ## The choice -/

namespace Buffer

open BuildM Build Ops

variable {g : Graph} {c c' : Context} {i : OpId}

/-- The layout of the buffer that `user` has as its first result. -/
def allocLayout (g : Graph) (user : OpId) : Option SharedLayout := do
  let res ← (g.op user).results.head?
  let ty ← (← g.typeOf res).memDesc?
  ty.encoding.bind Attr.shared?

/-- `user` is no `localAlloc`, or its first result is a buffer. -/
def AllocatesBuffer (g : Graph) (user : OpId) : Prop :=
  (g.op user).name = Kinds.localAlloc →
    ∃ res ty, (g.op user).results.head? = some res ∧ g.typeOf res = some (.memDesc ty)

theorem allocLayouts?_eq {users : List OpId} (h : ∀ user ∈ users, AllocatesBuffer g user) :
    allocLayouts? g users = some ((users.filter fun user =>
      (g.op user).name == Kinds.localAlloc).filterMap (allocLayout g)) := by
  have hlayouts : ∀ user ∈ users.filter fun user => (g.op user).name == Kinds.localAlloc,
      (do
        let res ← (g.op user).results.head?
        let ty ← (← g.typeOf res).memDesc?
        some (ty.encoding.bind Attr.shared?)) = some (allocLayout g user) := by
    intro user huser
    obtain ⟨huser, hname⟩ := List.mem_filter.mp huser
    obtain ⟨res, ty, hres, hty⟩ := h user huser (beq_iff_eq.mp hname)
    simp only [allocLayout, hres, hty, Ty.memDesc?, Option.bind_eq_bind, Option.bind_some]
  rw [allocLayouts?, mapM_eq_some_map hlayouts, Option.bind_eq_bind, Option.bind_some,
    List.filterMap_map, Function.id_comp]

/-- `allocLayouts?` gives the layouts of the allocations among `users`. -/
theorem mem_allocLayouts_iff {users : List OpId} {layouts : List SharedLayout}
    (h : ∀ user ∈ users, AllocatesBuffer g user) (hlayouts : allocLayouts? g users = some layouts)
    {layout : SharedLayout} : layout ∈ layouts ↔ ∃ user ∈ users,
      (g.op user).name = Kinds.localAlloc ∧ allocLayout g user = some layout := by
  rw [allocLayouts?_eq h, Option.some.injEq] at hlayouts
  simp only [← hlayouts, List.mem_filterMap, List.mem_filter, beq_iff_eq, and_assoc]

/-- No layout of `others` differs from `chosen` exactly if no two of them all differ. -/
theorem any_not_same_eq_false_iff {chosen : SharedLayout} {others : List SharedLayout} :
    (others.any fun s => !s.same chosen) = false ↔
      ∀ s ∈ chosen :: others, ∀ t ∈ chosen :: others, s.text = t.text := by
  have hfirst : (others.any fun s => !s.same chosen) = false ↔
      ∀ s ∈ chosen :: others, s.text = chosen.text := by
    simp [SharedLayout.same_iff]
  rw [hfirst]
  refine ⟨fun h s hs t ht => (h s hs).trans (h t ht).symm, fun h s hs => ?_⟩
  exact h s hs chosen List.mem_cons_self

/-- `localAllocLayout` in two runs: nothing in both, or the same layout, or any with a remark in
both. -/
theorem parallel_localAllocLayout (h : c.graph.Reorders c'.graph)
    (halloc : ∀ user ∈ c.graph.opUsers i, AllocatesBuffer c.graph user) :
    Parallel (localAllocLayout i) (localAllocLayout i) c c' fun o o' d d' =>
      (o = none ∧ o' = none ∧ d = c ∧ d' = c') ∨
      ∃ layout layout', o = some layout ∧ o' = some layout' ∧
        (layout.same layout' = true ∨ emit .remark i mixedEncodingsRemark c = .ok () d ∧
          emit .remark i mixedEncodingsRemark c' = .ok () d') := by
  obtain ⟨layouts, hlayouts⟩ : ∃ layouts, allocLayouts? c.graph (c.graph.opUsers i) = some layouts :=
    ⟨_, allocLayouts?_eq halloc⟩
  have halloc' : ∀ user ∈ c'.graph.opUsers i, AllocatesBuffer c'.graph user := by
    intro user huser
    simp only [AllocatesBuffer, h.op_eq, h.typeOf_eq]
    exact halloc user ((h.mem_opUsers_iff user).mpr huser)
  obtain ⟨layouts', hlayouts'⟩ :
      ∃ layouts, allocLayouts? c'.graph (c'.graph.opUsers i) = some layouts :=
    ⟨_, allocLayouts?_eq halloc'⟩
  -- the two lists may be in different orders, but they have the same entries
  have hmem : ∀ layout, layout ∈ layouts ↔ layout ∈ layouts' := by
    intro layout
    rw [mem_allocLayouts_iff halloc hlayouts, mem_allocLayouts_iff halloc' hlayouts']
    simp only [h.mem_opUsers_iff, allocLayout, h.op_eq, h.typeOf_eq]
  refine .graph ((Parallel.of_gives (gives_present hlayouts) (gives_present hlayouts')).bind ?_)
  rintro layouts layouts' d d' ⟨⟨_, rfl, rfl⟩, _, rfl, rfl⟩
  match layouts, layouts', hmem with
  | [], [], _ => exact .pure (.inl ⟨rfl, rfl, rfl, rfl⟩)
  | [], chosen' :: others', hmem => exact nomatch (hmem chosen').mpr List.mem_cons_self
  | chosen :: others, [], hmem => exact nomatch (hmem chosen).mp List.mem_cons_self
  | chosen :: others, chosen' :: others', hmem =>
    -- whether two layouts differ does not depend on the order that they come in
    have hiff : (others.any fun s => !s.same chosen) = false ↔
        (others'.any fun s => !s.same chosen') = false := by
      simp only [any_not_same_eq_false_iff, hmem]
    dsimp only
    cases hany : others.any fun s => !s.same chosen with
    | false =>
      have hsame := any_not_same_eq_false_iff.mp hany chosen List.mem_cons_self chosen'
        ((hmem chosen').mpr List.mem_cons_self)
      rw [hiff.mp hany]
      exact .pure (.inr ⟨chosen, chosen', rfl, rfl, .inl (SharedLayout.same_iff.mpr hsame)⟩)
    | true =>
      have hany' : (others'.any fun s => !s.same chosen') = true := by
        rw [← Bool.not_eq_false, ← hiff, hany]
        exact Bool.noConfusion
      rw [hany']
      refine (Parallel.of_gives (gives_emit _ _ _) (gives_emit _ _ _)).bind ?_
      rintro _ _ _ _ ⟨⟨hd, _⟩, hd', _⟩
      exact .pure (.inr ⟨chosen, chosen', rfl, rfl, .inr ⟨hd, hd'⟩⟩)

theorem parallel_segmentValue (h : c.graph.Reorders c'.graph) (name : String) :
    Parallel (segmentValue i name) (segmentValue i name) c c'
      fun x y d d' => x = y ∧ c = d ∧ c' = d' := by
  refine .graph ?_
  rw [h.segmentValue?_eq]
  exact .present _

theorem parallel_typeOf (h : c.graph.Reorders c'.graph) (v : ValueId) :
    Parallel (typeOf v) (typeOf v) c c' fun x y d d' => x = y ∧ c = d ∧ c' = d' :=
  ⟨(h.typeOf_eq v).symm, rfl, rfl⟩

/-- `descriptorLayout` is the same in both runs, as no use takes part. -/
theorem parallel_descriptorLayout (h : c.graph.Reorders c'.graph) (ty : TensorTy) :
    Parallel (descriptorLayout i ty) (descriptorLayout i ty) c c' fun a b _ _ => a = b := by
  refine (parallel_segmentValue h Seg.desc).bind ?_
  rintro desc _ _ _ ⟨rfl, rfl, rfl⟩
  cases desc with
  | none =>
    refine (Parallel.of_gives (gives_emit _ _ _) (gives_emit _ _ _)).bind ?_
    rintro _ _ _ _ ⟨⟨_, _, _, rfl⟩, _, _, _, rfl⟩
    refine .graph ?_
    rw [h.label_eq]
    exact .throw _
  | some desc =>
    refine (parallel_typeOf h desc).bind ?_
    rintro ty' _ _ _ ⟨rfl, rfl, rfl⟩
    split
    · split
      · generalize NvMma.forTile? _ _ _ _ = fitted
        cases fitted with
        | none => exact .throw _
        | some n => exact .pure rfl
      · exact .pure rfl
      · split
        · exact .pure rfl
        · refine (Parallel.present _).bind ?_
          rintro fitted _ _ _ ⟨rfl, rfl, rfl⟩
          exact .pure rfl
    · refine .graph ?_
      rw [h.label_eq]
      exact .throw _

theorem parallel_dotLayout (h : c.graph.Reorders c'.graph) {v : ValueId}
    (hend : c.graph.BuffersEnd v)
    (hfit : ∀ w, ReflTransGen c.graph.MakesBuffer v w → OrderFits (c.graph.typeOf w)) :
    Parallel (present (dotLayout? c.graph v)) (present (dotLayout? c'.graph v)) c c'
      fun o o' d d' => SameNeed (some o) (some o') ∧ c = d ∧ c' = d' := by
  have hneed := h.dotLayout?_sameNeed hend hfit
  revert hneed
  generalize dotLayout? c.graph v = a
  generalize dotLayout? c'.graph v = b
  intro hneed
  cases hneed with
  | nothing => exact .pure ⟨.nothing, rfl, rfl⟩
  | layout htext => exact .pure ⟨.layout htext, rfl, rfl⟩

/-- `sharedLayout` of the one result of `i`, in two graphs of which one `Reorders` the other: the
choice fails alike, or gives the same layout, or any with the remark that the allocations disagree,
once in each run. -/
theorem sharedLayout_order_independent {res : ValueId} (hres : (c.graph.op i).results = [res])
    (h : c.graph.Reorders c'.graph) (hend : c.graph.BuffersEnd res)
    (halloc : ∀ user ∈ c.graph.users res, AllocatesBuffer c.graph user)
    (hfit : ∀ v, ReflTransGen c.graph.MakesBuffer res v → OrderFits (c.graph.typeOf v)) :
    (∃ e d d', sharedLayout i c = .error e d ∧ sharedLayout i c' = .error e d') ∨
    ∃ layout layout' d d', sharedLayout i c = .ok layout d ∧ sharedLayout i c' = .ok layout' d' ∧
      (layout.same layout' = true ∨ emit .remark i mixedEncodingsRemark c = .ok () d ∧
        emit .remark i mixedEncodingsRemark c' = .ok () d') := by
  -- the users of the operation are those of its one result
  have halloc' : ∀ user ∈ c.graph.opUsers i, AllocatesBuffer c.graph user := by
    intro user huser
    rw [Graph.opUsers, hres, List.mem_eraseDups, List.flatMap_singleton] at huser
    exact halloc user huser
  refine Parallel.outcomes (.graph ?_)
  rw [h.op_eq, hres]
  dsimp only
  rw [h.typeOf_eq, h.label_eq]
  split
  · rename_i ty _
    refine (parallel_localAllocLayout h halloc').bind ?_
    rintro _ _ d d' (⟨rfl, rfl, rfl, rfl⟩ | ⟨layout, layout', rfl, rfl, hlayout⟩)
    · -- no allocation reads the result
      have hload : isDescriptorLoad d'.graph i = isDescriptorLoad d.graph i := by
        rw [isDescriptorLoad, isDescriptorLoad, h.op_eq]
      dsimp only
      rw [hload]
      split
      · refine (parallel_descriptorLayout h ty).imp ?_
        rintro layout _ _ _ rfl
        exact .inl (SharedLayout.same_iff.mpr rfl)
      · refine (parallel_dotLayout h hend hfit).bind ?_
        rintro _ _ _ _ ⟨_ | htext, rfl, rfl⟩
        · exact .pure (.inl (SharedLayout.same_iff.mpr rfl))
        · refine (parallel_trace 3 _ _).bind fun _ _ _ _ _ => ?_
          exact .pure (.inl (SharedLayout.same_iff.mpr htext))
    · exact .pure hlayout
  · exact .throw _

/-- A loaded matrix that is allocated twice, once in rows and once for the tensor cores. The buffer
in rows is also seen transposed. The matrix lists its `uses` in this order. -/
def mixedAllocs (uses : List SlotId) : Graph where
  ops := #[
    { name := Kinds.load, kind := none, loc := {}, results := [⟨0⟩] },
    { name := Kinds.localAlloc, kind := none, loc := {}, operands := [⟨0⟩], results := [⟨1⟩] },
    { name := Kinds.localAlloc, kind := none, loc := {}, operands := [⟨1⟩], results := [⟨2⟩] },
    { name := Kinds.memDescTrans, kind := none, loc := {}, operands := [⟨2⟩], results := [⟨3⟩] }]
  values := #[
    { ty := some (.tensor ⟨[64, 32], some .f16, blocked⟩), source := .result ⟨0⟩ 0, uses },
    { ty := some (.memDesc (.whole [64, 32] (some .f16) (rows [1, 0]) (some .sharedMemory) false)),
      source := .result ⟨1⟩ 0, uses := [⟨2⟩] },
    { ty := some (.memDesc (.whole [64, 32] (some .f16) tensorCores (some .sharedMemory) false)),
      source := .result ⟨2⟩ 0, uses := [] },
    { ty := some (.memDesc (.whole [32, 64] (some .f16) (rows [0, 1]) (some .sharedMemory) false)),
      source := .result ⟨3⟩ 0, uses := [] }]
  slots := #[⟨⟨1⟩, 0, some ⟨0⟩⟩, ⟨⟨2⟩, 0, some ⟨0⟩⟩, ⟨⟨3⟩, 0, some ⟨1⟩⟩]
where
  blocked : Option Attr :=
    some (.encoding (.blocked ⟨[1, 8], [8, 4], [4, 1], some [1, 0], .single 2⟩))
  rows (order : List Int) : Option Attr :=
    some (.encoding (.shared (.swizzled (.plain order (.single 2)))))
  tensorCores : Option Attr := some (.encoding (.shared (.nvMma ⟨64, false, 16, false, .single 2⟩)))

theorem mixedAllocs_reorders :
    (mixedAllocs [⟨0⟩, ⟨1⟩]).Reorders (mixedAllocs [⟨1⟩, ⟨0⟩]) where
  ops := rfl
  blocks := rfl
  slots := rfl
  size := rfl
  row
    | ⟨0⟩ => ⟨[⟨1⟩, ⟨0⟩], .swap _ _ _, rfl⟩
    | ⟨1⟩ | ⟨2⟩ | ⟨3⟩ | ⟨_ + 4⟩ => ⟨_, .refl _, rfl⟩

theorem mixedAllocs_buffersEnd (v : ValueId) : (mixedAllocs [⟨0⟩, ⟨1⟩]).BuffersEnd v := by
  have hlater : ∀ n < 4, ∀ user ∈ (mixedAllocs [⟨0⟩, ⟨1⟩]).users ⟨n⟩,
      ∀ y ∈ ((mixedAllocs [⟨0⟩, ⟨1⟩]).op user).results, n < y.index := by decide +kernel
  refine Graph.buffersEnd_of_lt fun x y ⟨user, huser, hres, _⟩ => ?_
  exact hlater x.index (Graph.hasValue_of_mem_users huser) user huser y (by simp [hres])

theorem mixedAllocs_orderFits : ∀ v, OrderFits ((mixedAllocs [⟨0⟩, ⟨1⟩]).typeOf v)
  | ⟨0⟩ => by rintro _ ⟨⟩; exact .refl _
  | ⟨1⟩ => by rintro _ ⟨⟩; exact .refl _
  | ⟨2⟩ => by rintro _ ⟨⟩
  | ⟨3⟩ => by rintro _ ⟨⟩; exact .swap _ _ _
  | ⟨_ + 4⟩ => trivial

theorem mixedAllocs_allocatesBuffer :
    ∀ user ∈ (mixedAllocs [⟨0⟩, ⟨1⟩]).users ⟨0⟩, AllocatesBuffer (mixedAllocs [⟨0⟩, ⟨1⟩]) user := by
  have husers : (mixedAllocs [⟨0⟩, ⟨1⟩]).users ⟨0⟩ = [⟨1⟩, ⟨2⟩] := by decide +kernel
  rw [husers, List.forall_mem_cons, List.forall_mem_singleton]
  exact ⟨fun _ => ⟨_, _, rfl, rfl⟩, fun _ => ⟨_, _, rfl, rfl⟩⟩

/-- On `mixedAllocs`, each order of the uses gives the layout of the first allocation, with the
remark. -/
theorem mixedAllocs_chosen_with_remark :
    (mixedAllocs [⟨0⟩, ⟨1⟩]).Reorders (mixedAllocs [⟨1⟩, ⟨0⟩]) ∧
    (mixedAllocs [⟨0⟩, ⟨1⟩]).BuffersEnd ⟨0⟩ ∧
    ∃ layout layout' d d', layout.same layout' = false ∧
      sharedLayout ⟨0⟩ { graph := mixedAllocs [⟨0⟩, ⟨1⟩] } = .ok layout d ∧
      sharedLayout ⟨0⟩ { graph := mixedAllocs [⟨1⟩, ⟨0⟩] } = .ok layout' d' ∧
      emit .remark ⟨0⟩ mixedEncodingsRemark { graph := mixedAllocs [⟨0⟩, ⟨1⟩] } = .ok () d ∧
      emit .remark ⟨0⟩ mixedEncodingsRemark { graph := mixedAllocs [⟨1⟩, ⟨0⟩] } = .ok () d' := by
  have hdiffer : (match sharedLayout ⟨0⟩ { graph := mixedAllocs [⟨0⟩, ⟨1⟩] },
      sharedLayout ⟨0⟩ { graph := mixedAllocs [⟨1⟩, ⟨0⟩] } with
    | .ok layout _, .ok layout' _ => layout.same layout'
    | _, _ => true) = false := by decide +kernel
  have hreorders : ({ graph := mixedAllocs [⟨0⟩, ⟨1⟩] } : Context).graph.Reorders
      ({ graph := mixedAllocs [⟨1⟩, ⟨0⟩] } : Context).graph := mixedAllocs_reorders
  refine ⟨hreorders, mixedAllocs_buffersEnd ⟨0⟩, ?_⟩
  obtain ⟨e, d, d', hrun, hrun'⟩ | ⟨layout, layout', d, d', hrun, hrun', hsame | hremark⟩ :=
    sharedLayout_order_independent (i := ⟨0⟩) rfl hreorders (mixedAllocs_buffersEnd ⟨0⟩)
      mixedAllocs_allocatesBuffer fun v _ => mixedAllocs_orderFits v
  · rw [hrun, hrun'] at hdiffer
    cases hdiffer
  · rw [hrun, hrun'] at hdiffer
    exact absurd hsame (by simp [hdiffer])
  · rw [hrun, hrun'] at hdiffer
    exact ⟨layout, layout', d, d', hdiffer, hrun, hrun', hremark⟩

end Buffer

end Multistage
