import Multistage.Proofs.Build.CreationOrder
import Multistage.Proofs.Predication.PredicationMoves

/-!
# Registered kinds and strategies

A host registers kinds and strategies in any order, between the creation, the copying and the
predication of operations. A strategy is checked against the kind when it is registered, and an
operation keeps the kind that it got when it was made: `create` takes it from the catalog, and a
copy has that of its original. Both tables only grow, so a strategy fits the kind of its name from
then on (`Context.StrategiesFit`), and an operation with a kind has the segments that the strategy
names. An operation without a kind has no segments, and `predicateOp` fails for want of one
(`Predication.lacksSegment_iff`). That is what happens to an operation that was created before its
kind was registered, and to every copy of it, whenever that is made.
-/

namespace Multistage

open BuildM Build

/-! ## The tables only grow -/

/-- Every strategy of `t` is in `t'`. -/
def StrategyTable.Extends (t t' : StrategyTable) : Prop :=
  ∀ name s, t.find? name = some s → t'.find? name = some s

namespace Context

variable {c c' : Context}

/-- No kind of `c.catalog` and no strategy of `c.strategies` changes once it is there. -/
theorem Advances.tables (h : c.Advances c') :
    c.catalog.Extends c'.catalog ∧ c.strategies.Extends c'.strategies := by
  induction h with
  | refl => exact ⟨fun _ _ => id, fun _ _ => id⟩
  | tail _ hlast ih =>
    obtain ⟨hkinds, hstrategies⟩ := ih
    cases hlast with
    | edit => exact ⟨hkinds, hstrategies⟩
    | move => exact ⟨hkinds, hstrategies⟩
    | report => exact ⟨hkinds, hstrategies⟩
    | registerKind k hk =>
      exact ⟨fun name k' hk' => extends_insert? hk name k' (hkinds name k' hk'), hstrategies⟩
    | registerStrategy name s =>
      refine ⟨hkinds, fun other t ht => ?_⟩
      rw [StrategyTable.find?_insert, hstrategies other t ht]
      rfl

end Context

/-! ## Strategies fit -/

namespace Strategy

variable {s : Strategy} {cat : Catalog} {name : String}

/-- A strategy `s` without a `misfit?` works on a segment that the kind declares. -/
theorem exists_kind_of_fits (h : s.misfit? cat name = none) (huses : s.kind.usesSegment = true) :
    ∃ k, cat.find? name = some k ∧ s.segment ∈ k.segments := by
  unfold misfit? at h
  rw [if_pos huses] at h
  cases hk : cat.find? name with
  | none =>
    rw [hk] at h
    cases h
  | some k =>
    rw [hk] at h
    refine ⟨k, rfl, ?_⟩
    by_contra hmissing
    cases hunknown : s.unknownSegment? k with
    | some seg =>
      simp only [hunknown] at h
      cases h
    | none =>
      simp only [hunknown] at h
      have hempty : s.segment ≠ "" := by
        intro hempty
        rw [if_pos hempty] at h
        cases h
      -- the segment of a strategy is the first that is looked for among the unknown ones
      have hknown := List.find?_eq_none.mp hunknown s.segment List.mem_cons_self
      simp [hempty, hmissing] at hknown

/-- A strategy `s` that fits does so in every larger catalog. -/
theorem fits_mono {cat' : Catalog} (hcat : cat.Extends cat') (h : s.misfit? cat name = none) :
    s.misfit? cat' name = none := by
  by_cases huses : s.kind.usesSegment = true
  · obtain ⟨k, hk, -⟩ := exists_kind_of_fits h huses
    unfold misfit? at h ⊢
    rw [hk] at h
    rw [hcat name k hk]
    exact h
  · unfold misfit?
    rw [if_neg huses]

end Strategy

/-- Every strategy of `c` fits the kind that it is for. -/
def Context.StrategiesFit (c : Context) : Prop :=
  ∀ name s, c.strategies.find? name = some s → s.misfit? c.catalog name = none

namespace Context.StrategiesFit

variable {c c' : Context}

theorem builtin : ∀ e ∈ StrategyTable.builtin.entries, e.2.misfit? Catalog.builtin e.1 = none := by
  decide +kernel

theorem fresh (channel : Channel) (verbosity : Int) :
    Context.StrategiesFit { channel, verbosity } := by
  intro name s hs
  obtain ⟨before, after, hentries, -⟩ := List.lookup_eq_some_iff.mp hs
  refine builtin (name, s) ?_
  rw [show StrategyTable.builtin.entries = _ from hentries]
  exact List.mem_append_right _ List.mem_cons_self

theorem advance (h : c.StrategiesFit) (ha : c.Advance c') : c'.StrategiesFit := by
  cases ha with
  | edit => exact h
  | move => exact h
  | report => exact h
  | registerKind k hk =>
    exact fun name s hs => Strategy.fits_mono (extends_insert? hk) (h name s hs)
  | registerStrategy name s hnew hfits =>
    intro other t ht
    rw [StrategyTable.find?_insert] at ht
    rcases Option.or_eq_some_iff.mp ht with hold | ⟨-, hadded⟩
    · exact h other t hold
    · -- the one that was added was checked
      split at hadded
      · next hname =>
        cases hadded
        exact hname ▸ hfits
      · cases hadded

theorem advances (h : c.StrategiesFit) (ha : c.Advances c') : c'.StrategiesFit := by
  induction ha with
  | refl => exact h
  | tail _ hlast ih => exact ih.advance hlast

end Context.StrategiesFit

/-! ## Operations keep their kind -/

namespace Graph

variable {cat : Catalog} {g g' : Graph}

/-- What operation `i` is called and which segments it has. -/
def Named (g : Graph) (i : OpId) (name : String) (kind : Option OpKind) (segments : List String) :
    Prop :=
  (g.op i).name = name ∧ (g.op i).kind = kind ∧ (g.op i).segments.map (·.1) = segments

/-- An `Edit` adds an operation, or leaves the names of all of them alone. -/
theorem Edit.install_or_named (he : Edit cat g g') :
    (∃ o vals types, g.Origin cat o vals.length ∧ g' = g.install o vals types) ∨
      ∀ i, g'.Named i (g.op i).name (g.op i).kind ((g.op i).segments.map (·.1)) := by
  cases he with
  | install o vals types _ horigin => exact .inl ⟨o, vals, types, horigin, rfl⟩
  | skip => exact .inr fun i => by rw [Named, op_skipOp]; exact ⟨rfl, rfl, rfl⟩
  | assign s v => exact .inr fun i => by rw [Named, op_assign]; exact ⟨rfl, rfl, rfl⟩
  | splice j name start size vals =>
    refine .inr fun i => ?_
    rw [Named, op_spliceSegment]
    split
    · exact ⟨rfl, rfl, map_fst_resized _ _ _⟩
    · exact ⟨rfl, rfl, rfl⟩
  | place b k j =>
    refine .inr fun i => ?_
    rw [Named, op_place]
    split <;> exact ⟨rfl, rfl, rfl⟩
  | detach j =>
    refine .inr fun i => ?_
    rw [Named, op_detach]
    split <;> exact ⟨rfl, rfl, rfl⟩
  | mark j =>
    refine .inr fun i => ?_
    rw [Named, Graph.mark, op_modifyOp]
    split <;> exact ⟨rfl, rfl, rfl⟩
  | addBlock j r =>
    refine .inr fun i => ?_
    rw [Named, Owned.op_addBlock]
    split <;> exact ⟨rfl, rfl, rfl⟩
  | addArgument b ty => exact .inr fun i => ⟨rfl, rfl, rfl⟩
  | describe j f hf =>
    refine .inr fun i => ?_
    rw [Named, op_modifyOp]
    split
    · obtain ⟨attrs, loc, ho⟩ := hf (g.op i)
      rw [ho]
      exact ⟨rfl, rfl, rfl⟩
    · exact ⟨rfl, rfl, rfl⟩
  | retype v ty => exact .inr fun i => ⟨rfl, rfl, rfl⟩

/-- No `Edit` changes the name or the kind of an operation. -/
theorem Edit.name_kind (he : Edit cat g g') {i : OpId} (hi : g.HasOp i) :
    (g'.op i).name = (g.op i).name ∧ (g'.op i).kind = (g.op i).kind := by
  rcases he.install_or_named with ⟨o, vals, types, -, rfl⟩ | hnamed
  · rw [op_install, if_neg hi.ne_nextOp]
    exact ⟨rfl, rfl⟩
  · exact ⟨(hnamed i).1, (hnamed i).2.1⟩

theorem Edits.name_kind (h : Edits cat g g') {i : OpId} (hi : g.HasOp i) :
    (g'.op i).name = (g.op i).name ∧ (g'.op i).kind = (g.op i).kind := by
  induction h with
  | refl => exact ⟨rfl, rfl⟩
  | tail hfirst hlast ih =>
    obtain ⟨hname, hkind⟩ := hlast.name_kind (Edits.within hfirst |>.hasOp hi)
    exact ⟨hname.trans ih.1, hkind.trans ih.2⟩

/-- Every operation has the segments that its kind declares, and none without a kind. -/
def SegmentsNamed (g : Graph) : Prop :=
  ∀ i, (g.op i).segments.map (·.1) = (g.op i).declared

theorem SegmentsNamed.edit (h : g.SegmentsNamed) (he : Edit cat g g') : g'.SegmentsNamed := by
  intro i
  rcases he.install_or_named with ⟨o, vals, types, horigin, rfl⟩ | hnamed
  · rw [op_install]
    split
    · -- a new operation is cut as its kind says, or as the one that it is a copy of
      cases horigin with
      | created _ htiled => exact htiled.1
      | copied j _ hkind hsegments =>
        have hold := h j
        rw [Op.declared] at hold ⊢
        rw [hsegments, hkind]
        exact hold
    · exact h i
  · obtain ⟨-, hkind, hsegments⟩ := hnamed i
    rw [hsegments, h i, Op.declared, Op.declared, hkind]

/-- `locate` finds a segment if `name` is one of the names. -/
theorem locate_eq_none_iff (name : String) (start : Nat) (segments : List (String × Nat)) :
    Op.locate name start segments = none ↔ name ∉ segments.map (·.1) := by
  induction segments generalizing start with
  | nil => simp [Op.locate]
  | cons seg rest ih =>
    rw [Op.locate]
    split
    · next heq => simp [heq]
    · next hne => simp [ih, Ne.symm hne]

theorem SegmentsNamed.segment?_eq_none_iff (h : g.SegmentsNamed) (i : OpId) (name : String) :
    (g.op i).segment? name = none ↔ name ∉ (g.op i).declared := by
  rw [Op.segment?, locate_eq_none_iff, h i]

end Graph

namespace Context.Advances

variable {c c' : Context}

theorem name_kind (h : c.Advances c') {i : OpId} (hi : c.graph.HasOp i) :
    (c'.graph.op i).name = (c.graph.op i).name ∧ (c'.graph.op i).kind = (c.graph.op i).kind := by
  induction h with
  | refl => exact ⟨rfl, rfl⟩
  | tail hfirst hlast ih =>
    cases hlast with
    | edit he =>
      obtain ⟨hname, hkind⟩ := he.name_kind (Context.Advances.within hfirst |>.hasOp hi)
      exact ⟨hname.trans ih.1, hkind.trans ih.2⟩
    | move => exact ih
    | report => exact ih
    | registerKind => exact ih
    | registerStrategy => exact ih

/-- An operation that is new in `c'` has the kind that the catalog of `c` has for its name, or it is
called like an operation of `c` and has the kind of that one. The number of a creation that failed
is left without a name. -/
theorem kind_of_new (h : c.Advances c') {i : OpId} (hnew : ¬ c.graph.HasOp i)
    (hname : (c'.graph.op i).name ≠ "") :
    (∀ k, c.catalog.find? (c'.graph.op i).name = some k → (c'.graph.op i).kind = some k) ∨
      ∃ j, c.graph.HasOp j ∧ (c.graph.op j).name = (c'.graph.op i).name ∧
        (c.graph.op j).kind = (c'.graph.op i).kind := by
  -- the induction is on the last move, for all operations at once: a copy may be of a new operation
  induction h generalizing i with
  | refl => exact absurd (by rw [Graph.op_of_not_hasOp hnew]; rfl) hname
  | @tail d _ hfirst hlast ih =>
    cases hlast with
    | edit he =>
      rcases he.install_or_named with ⟨o, vals, types, horigin, rfl⟩ | hnamed
      · dsimp only at hname ⊢
        rw [Graph.op_install] at hname ⊢
        split at hname
        · next heq =>
          rw [if_pos heq]
          cases horigin with
          | created hkind _ =>
            refine .inl fun k hk => ?_
            exact hkind.trans ((Context.Advances.tables hfirst).1 _ k hk)
          | copied j hsame hkind _ _ =>
            show (∀ k, c.catalog.find? o.name = some k → o.kind = some k) ∨
              ∃ j, c.graph.HasOp j ∧ (c.graph.op j).name = o.name ∧ (c.graph.op j).kind = o.kind
            have hname' : (d.graph.op j).name ≠ "" := hsame ▸ hname
            rw [hsame, hkind]
            by_cases hj : c.graph.HasOp j
            · obtain ⟨hname₀, hkind₀⟩ := name_kind hfirst hj
              exact .inr ⟨j, hj, hname₀.symm, hkind₀.symm⟩
            · exact ih hj hname'
        · next hne =>
          rw [if_neg hne]
          exact ih hnew hname
      · dsimp only at hname ⊢
        obtain ⟨hsame, hkind, -⟩ := hnamed i
        rw [hsame] at hname
        rw [hsame, hkind]
        exact ih hnew hname
    | move => exact ih hnew hname
    | report => exact ih hnew hname
    | registerKind => exact ih hnew hname
    | registerStrategy => exact ih hnew hname

theorem segmentsNamed (h : c.Advances c') (hnamed : c.graph.SegmentsNamed) :
    c'.graph.SegmentsNamed := by
  induction h with
  | refl => exact hnamed
  | tail _ hlast ih =>
    cases hlast with
    | edit he => exact ih.edit he
    | move => exact ih
    | report => exact ih
    | registerKind => exact ih
    | registerStrategy => exact ih

end Context.Advances

/-- `createDetached` or `create` of `spec` leads from `c` to `c'` and gives `i`. -/
def Creates (spec : OpSpec) (c : Context) (i : OpId) (c' : Context) : Prop :=
  createDetached spec c = .ok i c' ∨ create spec c = .ok i c'

/-- `Creates` gives the operation the kind that `c.catalog` has for it. -/
theorem Creates.kind {spec : OpSpec} {c c' : Context} {i : OpId} (h : Creates spec c i c')
    (hsound : c.Sound) (hspec : c.graph.HasSpec spec) :
    c.Advances c' ∧ c'.graph.HasOp i ∧ (c'.graph.op i).name = spec.name ∧
      (c'.graph.op i).kind = c.catalog.find? spec.name := by
  rcases h with hrun | hrun
  · obtain ⟨hadv, rfl, rfl⟩ := (leads_createDetached hspec).of_ok hrun
    refine ⟨hadv, hasOp_addOp _ _ _, ?_⟩
    show ((Graph.addOp _ _ _).1.op _).name = _ ∧ ((Graph.addOp _ _ _).1.op _).kind = _
    rw [Graph.addOp_eq_install, Graph.op_install, if_pos rfl]
    exact ⟨rfl, rfl⟩
  · obtain ⟨hadv, rfl, b, k, loc, -, rfl⟩ := (leads_create hsound hspec).of_ok hrun
    refine ⟨hadv, ?_, ?_⟩
    · rw [Created, Graph.HasOp, Graph.place, Graph.size_ops_modifyOp]
      exact hasOp_addOp _ _ _
    · rw [graph_created, Context.insertion, Graph.op_inserted_self]
      exact ⟨rfl, rfl⟩

/-- `cloneDetached` or `clone` of `root` leads from `c` to `c'` and gives `i`. -/
def Clones (root : OpId) (m : Mapping) (c : Context) (i : OpId) (c' : Context) : Prop :=
  ∃ m', cloneDetached root m c = .ok (i, m') c' ∨ clone root m c = .ok (i, m') c'

/-- `copyTree` gives the root of the copy the name and the kind of `root`. -/
theorem Graph.name_kind_copyTree (cat : Catalog) {g : Graph} (h : g.WellFormed) {m : Mapping}
    (hm : m.Into g) (root : OpId) (n : Nat) :
    ((copyTree n root (g, m)).2.1.op g.nextOp).name = (g.op root).name ∧
      ((copyTree n root (g, m)).2.1.op g.nextOp).kind = (g.op root).kind := by
  have hhead : ((copyHead root (g, m)).2.1.op g.nextOp).name = (g.op root).name ∧
      ((copyHead root (g, m)).2.1.op g.nextOp).kind = (g.op root).kind := by
    rw [copyHead_eq]
    show ((install _ _ _ _).op _).name = _ ∧ ((install _ _ _ _).op _).kind = _
    rw [op_install, if_pos rfl]
    exact ⟨rfl, rfl⟩
  cases n with
  | zero => exact hhead
  | succ n =>
    obtain ⟨hgrows, hid, hloose⟩ := grows_copyHead cat h hm root
    have hregions := length_regions_copyHead root g m
    rw [copyTree_succ]
    generalize copyHead root (g, m) = head at hhead hgrows hid hloose hregions ⊢
    obtain ⟨new, s⟩ := head
    obtain rfl : new = g.nextOp := hid
    -- after the head only its regions are filled, which changes no name and no kind
    have hloop := grows_copyRegions (copiesTo cat n) (h.edits hgrows.path) hgrows.into s.1
      hloose.there hregions
    obtain ⟨hname, hkind⟩ := hloop.path.name_kind hloose.there
    exact ⟨hname.trans hhead.1, hkind.trans hhead.2⟩

/-- `Clones` gives the copy the name and the kind of `root`. -/
theorem Clones.kind {root : OpId} {m : Mapping} {c c' : Context} {i : OpId}
    (h : Clones root m c i c') (hsound : c.Sound) (hm : m.Into c.graph) :
    (c'.graph.op i).name = (c.graph.op root).name ∧
      (c'.graph.op i).kind = (c.graph.op root).kind := by
  have hroot := Graph.name_kind_copyTree c.catalog hsound.graph hm root c.graph.ops.size
  have hid := (Graph.copiesTo c.catalog c.graph.ops.size root (c.graph, m) hsound.graph hm).2.1
  rw [← hid] at hroot
  obtain ⟨m', hrun | hrun⟩ := h
  · obtain ⟨-, hid, rfl⟩ := (leads_cloneDetached hsound hm root).of_ok hrun
    cases hid
    exact hroot
  · obtain ⟨-, hid, b, k, -, rfl⟩ := (leads_clone hsound hm root).of_ok hrun
    cases hid
    dsimp only
    rw [Graph.op_place]
    split <;> exact hroot

/-! ## Predication for want of a segment -/

namespace Predication

variable {c : Context} {i : OpId} {s : Strategy} {pred : Option ValueId}

/-- Without segments `predicateSegment` has nothing to combine `pred` with. -/
theorem goes_predicateSegment_bare (hsegments : (c.graph.op i).segments = []) :
    (predicateSegment i s pred).Goes c (fun _ _ => False) Failure.LacksSegment := by
  have hnone : ∀ name, (segmentValue i name).Gives c fun v c' => v = none ∧ c' = c := by
    intro name
    refine gives_graph.bind fun g c' _ hc => ?_
    obtain ⟨rfl, rfl⟩ := hc
    refine gives_present ?_
    rw [Graph.segmentValue?, Op.segment?, hsegments]
    rfl
  have hset : (setSegment i s.segment [pred]).Goes c (fun _ _ => False) Failure.LacksSegment := by
    refine (gives_graph.goes _).bind fun g c' _ hc => ?_
    obtain ⟨rfl, rfl⟩ := hc
    have hmissing : c'.graph.setSegment i s.segment [pred] =
        .error (.misuse (.noSegment (c'.graph.op i).name s.segment)) := by
      unfold Graph.setSegment Op.segment?
      dsimp only
      rw [hsegments]
      rfl
    dsimp only
    rw [hmissing]
    exact .throw ⟨_, _, rfl⟩
  refine ((hnone s.segment).goes _).bind fun current c₁ _ hc => ?_
  obtain ⟨rfl, rfl⟩ := hc
  show Goes (if s.ref = "" then pure none >>= _ else segmentValue i s.ref >>= _) c₁ _ _
  split
  · exact hset
  · refine ((hnone s.ref).goes _).bind fun ref c₂ _ hc => ?_
    obtain ⟨rfl, rfl⟩ := hc
    exact hset

/-- `predicateOp` of an operation without a kind fails: it lacks the segment that its strategy
names. -/
theorem goes_predicateOp_bare (h : c.Sound) (hnamed : c.graph.SegmentsNamed) {b : BlockId}
    (hb : (c.graph.op i).block = some b) (hkind : (c.graph.op i).kind = none)
    (huses : (c.strategies.get (c.graph.op i).name).kind.usesSegment = true) :
    (predicateOp i pred).Goes c (fun _ _ => False) Failure.LacksSegment := by
  -- an operation of no known kind counts as one with effects
  have heffects : c.graph.isEffectFree i = false := by
    unfold Graph.isEffectFree
    cases c.graph.ops.size with
    | zero => rfl
    | succ n => rw [Graph.effectFreeTo, hkind]
  have hsegments : (c.graph.op i).segments = [] := by
    have hdeclared := hnamed i
    rw [Op.declared, hkind] at hdeclared
    exact List.map_eq_nil_iff.mp hdeclared
  refine (gives_graph.goes _).bind fun g c₁ _ hc => ?_
  obtain ⟨rfl, rfl⟩ := hc
  rw [heffects, if_neg Bool.false_ne_true]
  refine (gives_get.goes _).bind fun s c₂ _ hc => ?_
  obtain ⟨rfl, rfl⟩ := hc
  refine ((gives_trace _ _).goes _).bind fun _ c₃ hadv hc => ?_
  obtain ⟨log, rfl⟩ := hc
  -- both strategies that use a segment go the same way
  have hinPlace : (keepingPoint do
      moveBefore i
      predicateSegment i (c₂.strategies.get (c₂.graph.op i).name) pred
      return i).Goes { c₂ with log } (fun _ _ => False) Failure.LacksSegment := by
    refine goes_keepingPoint (P := fun _ _ => False) (h.advances hadv) ?_
    refine ((gives_moveBefore (h.advances hadv) hb).goes _).bind fun _ c₄ _ hc => ?_
    have hsame : (c₄.graph.op i).segments = [] := by
      rw [hc]
      exact hsegments
    exact (goes_predicateSegment_bare hsame).bind fun _ _ _ hfalse => hfalse.elim
  cases hstrategy : (c₂.strategies.get (c₂.graph.op i).name).kind with
  | condition => exact hinPlace
  | mask => exact hinPlace
  | exempt | tokenConsume | branch | unsupported | other =>
    rw [hstrategy] at huses
    cases huses

/-- `predicateOp` of an operation in a block fails with `LacksSegment` exactly if it has no kind. -/
theorem lacksSegment_iff (h : c.Sound) (hnamed : c.graph.SegmentsNamed) (hfit : c.StrategiesFit)
    (hs : c.strategies.find? (c.graph.op i).name = some s) (huses : s.kind.usesSegment = true)
    (hplaced : (c.graph.op i).block ≠ none) (hpred : c.graph.HasOptValue pred) :
    (∃ f c', predicateOp i pred c = .error f c' ∧ f.LacksSegment) ↔
      (c.graph.op i).kind = none := by
  have hget : c.strategies.get (c.graph.op i).name = s := by
    rw [StrategyTable.get, hs]
    rfl
  constructor
  · rintro ⟨f, c', hrun, hlacks⟩
    have hmissing := ((goes_predicateOp h i hpred).of_error hrun).2 (hget ▸ huses) hlacks
    rw [hget, hnamed.segment?_eq_none_iff] at hmissing
    obtain ⟨k, hk, hdeclared⟩ := Strategy.exists_kind_of_fits (hfit _ s hs) huses
    -- an operation with a kind has the one of the catalog, which declares the segment
    by_contra hkind
    obtain ⟨k', hk'⟩ := Option.ne_none_iff_exists'.mp hkind
    rw [h.kinds.known i k' hk'] at hk
    cases hk
    rw [Op.declared, hk'] at hmissing
    exact hmissing hdeclared
  · intro hkind
    obtain ⟨b, hb⟩ := Option.ne_none_iff_exists'.mp hplaced
    have hgoes : (predicateOp i pred).Goes c _ _ :=
      goes_predicateOp_bare h hnamed hb hkind (hget ▸ huses)
    cases hrun : predicateOp i pred c with
    | ok j c' => exact (hgoes.of_ok hrun).2.elim
    | error f c' => exact ⟨f, c', rfl, (hgoes.of_error hrun).2⟩

end Predication

/-! ## Hosts -/

/-- One call of a host: a `Request`, or `predicateOp`. -/
inductive HostCall where
  | request (r : Request)
  | predicate (i : OpId) (pred : Option ValueId)

namespace HostCall

/-- What a call names. -/
def refs : HostCall → Refs
  | request r => r.refs
  | predicate i pred => { ops := [i], values := [pred] }

/-- The work that a call asks for. -/
def perform : HostCall → BuildM Unit
  | request r => r.perform
  | predicate i pred => discard (Predication.predicateOp i pred)

/-- The context that `call` leaves, whether it succeeds or fails. -/
def outcome (call : HostCall) (c : Context) : Context :=
  match call.perform c with
  | .ok _ c' => c'
  | .error _ c' => c'

/-- The context that `calls` leave, one after the other. -/
def run (calls : List HostCall) (c : Context) : Context :=
  calls.foldl (fun c call => call.outcome c) c

/-- The `refs` of every call are there when its turn comes. -/
def ValidRun : List HostCall → Context → Prop
  | [], _ => True
  | call :: rest, c => call.refs.In c.graph ∧ ValidRun rest (call.outcome c)

instance decidableValidRun : (calls : List HostCall) → (c : Context) → Decidable (ValidRun calls c)
  | [], _ => .isTrue trivial
  | call :: rest, c =>
    have := decidableValidRun rest (call.outcome c)
    inferInstanceAs (Decidable (_ ∧ _))

variable {c : Context}

theorem leads_perform (h : c.Sound) {call : HostCall} (hrefs : call.refs.In c.graph) :
    call.perform.Leads c fun _ _ => True := by
  cases call with
  | request r => exact Multistage.leads_perform h hrefs
  | predicate i pred =>
    exact (Predication.goes_predicateOp h i (hrefs.2.2.1 pred List.mem_cons_self)).leads.forget

theorem advances_outcome (h : c.Sound) {call : HostCall} (hrefs : call.refs.In c.graph) :
    c.Advances (call.outcome c) := by
  have hleads := leads_perform h hrefs
  unfold outcome
  cases hrun : call.perform c with
  | ok _ c' => exact (hleads.of_ok hrun).1
  | error _ c' => exact (hleads.of_error hrun).1

theorem advances_run (h : c.Sound) {calls : List HostCall} (hvalid : ValidRun calls c) :
    c.Advances (run calls c) := by
  induction calls generalizing c with
  | nil => exact .refl
  | cons call rest ih =>
    have hfirst := advances_outcome h hvalid.1
    exact hfirst.trans (ih (h.advances hfirst) hvalid.2)

end HostCall

/-- The contexts that `HostCall`s lead to, from a fresh one. -/
inductive Served : Context → Prop
  | fresh (channel : Channel) (verbosity : Int) : Served { channel, verbosity }
  | after {c : Context} (call : HostCall) (h : Served c) (hrefs : call.refs.In c.graph) :
      Served (call.outcome c)

namespace Served

variable {c : Context}

/-- A context that is `Served` is `Sound` and `Advances` from a fresh one, with the built-in kinds
and strategies. -/
theorem advances (h : Served c) :
    c.Sound ∧ ∃ channel verbosity, Context.Advances { channel, verbosity } c := by
  induction h with
  | fresh channel verbosity => exact ⟨(Reachable.fresh channel verbosity).sound, _, _, .refl⟩
  | after call _ hrefs ih =>
    obtain ⟨hsound, channel, verbosity, hadv⟩ := ih
    have hlast := HostCall.advances_outcome hsound hrefs
    exact ⟨hsound.advances hlast, channel, verbosity, hadv.trans hlast⟩

theorem run (h : Served c) {calls : List HostCall} (hvalid : HostCall.ValidRun calls c) :
    Served (HostCall.run calls c) := by
  induction calls generalizing c with
  | nil => exact h
  | cons call rest ih => exact ih (h.after call hvalid.1) hvalid.2

theorem strategiesFit (h : Served c) : c.StrategiesFit := by
  obtain ⟨-, channel, verbosity, hadv⟩ := h.advances
  exact (Context.StrategiesFit.fresh channel verbosity).advances hadv

theorem segmentsNamed (h : Served c) : c.graph.SegmentsNamed := by
  obtain ⟨-, channel, verbosity, hadv⟩ := h.advances
  exact hadv.segmentsNamed fun _ => rfl

end Served

/-! ## Registration -/

/-- How the operations that are there after `calls` came by their kinds: one of `c` has kept its
own, and a new one got the kind that the catalog had for its name in `c`, or is called like an
operation of `c` and has the kind of that one. -/
structure HostCall.Captures (calls : List HostCall) (c : Context) : Prop where
  kept : ∀ i, c.graph.HasOp i → ((run calls c).graph.op i).name = (c.graph.op i).name ∧
    ((run calls c).graph.op i).kind = (c.graph.op i).kind
  new : ∀ i k, ¬ c.graph.HasOp i → ((run calls c).graph.op i).name ≠ "" →
    c.catalog.find? ((run calls c).graph.op i).name = some k →
    ((run calls c).graph.op i).kind = some k ∨
      ∃ j, c.graph.HasOp j ∧ (c.graph.op j).name = ((run calls c).graph.op i).name ∧
        (c.graph.op j).kind = ((run calls c).graph.op i).kind

theorem Served.captures {c : Context} (h : Served c) {calls : List HostCall}
    (hvalid : HostCall.ValidRun calls c) : HostCall.Captures calls c := by
  have hadv := HostCall.advances_run h.advances.1 hvalid
  exact ⟨fun _ hi => hadv.name_kind hi,
    fun _ k hi hname hk => (hadv.kind_of_new hi hname).imp_left fun hkind => hkind k hk⟩

/-- Whatever a host has done, in any order and with any failures in between: the tables keep what
they have, a registration that is refused changes nothing, and strategies that work on a segment are
for kinds that declare it. So `predicateOp` fails for want of the segment exactly on an operation
without a kind, however late the strategy was registered. An operation never gets another kind; if
it is created, it gets the one of the catalog, and if it is copied, the one of its original. -/
theorem registered_strategies_fit {c : Context} (h : Served c) :
    (∀ calls, HostCall.ValidRun calls c →
      c.catalog.Extends (HostCall.run calls c).catalog ∧
      c.strategies.Extends (HostCall.run calls c).strategies) ∧
    (∀ k f d, registerKind k c = .error f d → d = c) ∧
    (∀ name s f d, registerStrategy name s c = .error f d → d = c) ∧
    (∀ name s, c.strategies.find? name = some s → s.kind.usesSegment = true →
      ∃ k, c.catalog.find? name = some k ∧ s.segment ∈ k.segments) ∧
    (∀ i s, c.strategies.find? (c.graph.op i).name = some s → s.kind.usesSegment = true →
      (c.graph.op i).block ≠ none → ∀ pred, c.graph.HasOptValue pred →
        ((∃ f d, Predication.predicateOp i pred c = .error f d ∧ f.LacksSegment) ↔
          (c.graph.op i).kind = none)) ∧
    (∀ calls, HostCall.ValidRun calls c → HostCall.Captures calls c) ∧
    (∀ spec i d, c.graph.HasSpec spec → Creates spec c i d →
      (d.graph.op i).name = spec.name ∧ (d.graph.op i).kind = c.catalog.find? spec.name) ∧
    ∀ root m i d, m.Into c.graph → Clones root m c i d →
      (d.graph.op i).name = (c.graph.op root).name ∧
      (d.graph.op i).kind = (c.graph.op root).kind := by
  have hsound := h.advances.1
  refine ⟨fun calls hvalid => (HostCall.advances_run hsound hvalid).tables,
    fun k f d herror => ((meets_registerKind k).of_error herror).2,
    fun name s f d herror => ((meets_registerStrategy name s).of_error herror).2,
    fun name s hs => Strategy.exists_kind_of_fits (h.strategiesFit name s hs),
    fun i s hs huses hplaced pred hpred => Predication.lacksSegment_iff hsound h.segmentsNamed
      h.strategiesFit hs huses hplaced hpred,
    fun calls hvalid => h.captures hvalid, fun spec i d hspec hcreates => ?_,
    fun root m i d hm hclones => hclones.kind hsound hm⟩
  obtain ⟨-, -, hname, hkind⟩ := hcreates.kind hsound hspec
  exact ⟨hname, hkind⟩

/-- A `func` with an operation of a kind that is registered only afterwards, and one that is created
after that. Strategies for the kind are refused before it is there, for a segment that it does not
declare and when it has one; the kind is refused the second time. -/
def hosting : List HostCall := [
  .request (.createDetached { name := Kinds.func }),
  .request (.addBlock ⟨0⟩ 0),
  .request (.addArgument ⟨0⟩ (some Ty.i1)),
  .request (.moveToEnd (some ⟨0⟩)),
  .request (.create { name := "test.masked" }),
  .request (.registerStrategy "test.masked" { kind := .mask, segment := "mask" }),
  .request (.registerKind { name := "test.masked", segments := ["mask"], effects := .write }),
  .request (.registerKind { name := "test.masked" }),
  .predicate ⟨1⟩ (some ⟨0⟩),
  .request (.create { name := "test.masked" }),
  .request (.registerStrategy "test.masked" { kind := .mask, segment := "other" }),
  .request (.registerStrategy "test.masked" { kind := .mask, segment := "mask" }),
  .request (.registerStrategy "test.masked" { kind := .exempt }),
  .predicate ⟨1⟩ (some ⟨0⟩)]

theorem served_hosting : Served (HostCall.run hosting {}) :=
  (Served.fresh .collect 0).run (by decide +kernel)

theorem hosting_graph :
    (∀ i ∈ [(⟨1⟩ : OpId), ⟨2⟩],
      (HostCall.run hosting {}).strategies.find? ((HostCall.run hosting {}).graph.op i).name =
        some { kind := .mask, segment := "mask" } ∧
      ((HostCall.run hosting {}).graph.op i).block ≠ none) ∧
    (HostCall.run hosting {}).graph.HasOptValue (some ⟨0⟩) ∧
    ((HostCall.run hosting {}).graph.op ⟨1⟩).kind = none ∧
    ((HostCall.run hosting {}).graph.op ⟨2⟩).kind ≠ none := by
  decide +kernel

/-- In `hosting` the operation that was created before the kind was registered lacks the segment,
and the one that was created after does not. -/
theorem hosting_strategy_fits :
    Served (HostCall.run hosting {}) ∧
      (∃ f d, Predication.predicateOp ⟨1⟩ (some ⟨0⟩) (HostCall.run hosting {}) = .error f d ∧
        f.LacksSegment) ∧
      ¬ ∃ f d, Predication.predicateOp ⟨2⟩ (some ⟨0⟩) (HostCall.run hosting {}) = .error f d ∧
        f.LacksSegment := by
  obtain ⟨hops, hpred, hbefore, hafter⟩ := hosting_graph
  obtain ⟨-, -, -, -, hlacks, -⟩ := registered_strategies_fit served_hosting
  obtain ⟨hs₁, hplaced₁⟩ := hops ⟨1⟩ (by simp)
  obtain ⟨hs₂, hplaced₂⟩ := hops ⟨2⟩ (by simp)
  exact ⟨served_hosting, (hlacks ⟨1⟩ _ hs₁ rfl hplaced₁ _ hpred).mpr hbefore,
    mt (hlacks ⟨2⟩ _ hs₂ rfl hplaced₂ _ hpred).mp hafter⟩

/-- The `clone` of the operation of `hosting` that was created before the kind was registered. -/
def copying : HostCall := .request (.clone ⟨1⟩ {})

/-- The copy of `copying` is made while its kind and a strategy for it are registered, and lacks the
segment all the same: it has no kind, since its original has none. -/
theorem copying_lacks_segment :
    Served (HostCall.run hosting {}) ∧
      (HostCall.run hosting {}).catalog.find? "test.masked" =
        some { name := "test.masked", segments := ["mask"], effects := .write } ∧
      ¬ (HostCall.run hosting {}).graph.HasOp ⟨3⟩ ∧
      ((copying.outcome (HostCall.run hosting {})).graph.op ⟨3⟩).name = "test.masked" ∧
      ((copying.outcome (HostCall.run hosting {})).graph.op ⟨3⟩).block ≠ none ∧
      (copying.outcome (HostCall.run hosting {})).strategies.find? "test.masked" =
        some { kind := .mask, segment := "mask" } ∧
      ∃ f d, Predication.predicateOp ⟨3⟩ (some ⟨0⟩) (copying.outcome (HostCall.run hosting {})) =
        .error f d ∧ f.LacksSegment := by
  obtain ⟨hrefs, hcatalog, hnew, hname, hplaced, hs, hpred, hkind⟩ :
      copying.refs.In (HostCall.run hosting {}).graph ∧
        (HostCall.run hosting {}).catalog.find? "test.masked" =
          some { name := "test.masked", segments := ["mask"], effects := .write } ∧
        ¬ (HostCall.run hosting {}).graph.HasOp ⟨3⟩ ∧
        ((copying.outcome (HostCall.run hosting {})).graph.op ⟨3⟩).name = "test.masked" ∧
        ((copying.outcome (HostCall.run hosting {})).graph.op ⟨3⟩).block ≠ none ∧
        (copying.outcome (HostCall.run hosting {})).strategies.find? "test.masked" =
          some { kind := .mask, segment := "mask" } ∧
        (copying.outcome (HostCall.run hosting {})).graph.HasOptValue (some ⟨0⟩) ∧
        ((copying.outcome (HostCall.run hosting {})).graph.op ⟨3⟩).kind = none := by
    decide +kernel
  have hserved := served_hosting.after copying hrefs
  refine ⟨served_hosting, hcatalog, hnew, hname, hplaced, hs, ?_⟩
  exact (Predication.lacksSegment_iff hserved.advances.1 hserved.segmentsNamed
    hserved.strategiesFit (hname ▸ hs) rfl hplaced hpred).mpr hkind

end Multistage
