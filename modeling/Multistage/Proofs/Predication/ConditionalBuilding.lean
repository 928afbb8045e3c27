import Multistage.Proofs.Copy.DeepCopies
import Multistage.Proofs.Predication.Branching
import Multistage.Proofs.Predication.Conjunction
import Multistage.Proofs.Tree.Undoing

/-!
# Building a conditional

A conditional is put before an operation and its two blocks are filled, one with a copy of the
operation and one with zeros. All the while the graph only grows, all that is new lies inside the
conditional and nobody reads its results (`Raised`). How the synthesis ends is then known from how
its last step ends, on the finished conditional (`Finished`) or on an unfinished one.
-/

namespace Multistage

open BuildM Build

namespace Graph

variable {g₀ g g' : Graph} {b x y : BlockId} {k : Nat} {n j : OpId}

/-! ## Operations that were asked for -/

/-- Operation `j` is what the specification asks for, lies in block `x` and is live. -/
structure Realizes (g : Graph) (j : OpId) (x : BlockId) (spec : OpSpec) : Prop where
  name : (g.op j).name = spec.name
  loc : (g.op j).loc = spec.loc
  attrs : (g.op j).attrs = spec.attrs
  operands : g.operands j = spec.operands
  types : g.resultTypes j = spec.results
  regions : (g.op j).regions = []
  block : (g.op j).block = some x
  live : (g.op j).erased = false

theorem Realizes.congr {spec : OpSpec} (h : g.Realizes j x spec) (hrow : g'.op j = g.op j)
    (hoperands : g'.operands j = g.operands j) (htypes : g'.resultTypes j = g.resultTypes j) :
    g'.Realizes j x spec :=
  ⟨hrow ▸ h.name, hrow ▸ h.loc, hrow ▸ h.attrs, hoperands.trans h.operands, htypes.trans h.types,
    hrow ▸ h.regions, hrow ▸ h.block, hrow ▸ h.live⟩

theorem Realizes.enlarges {spec : OpSpec} (h : g.Realizes j x spec) (hwf : g.WellFormed)
    (hgrow : g.Enlarges g' y) : g'.Realizes j x spec :=
  have hj := hasOp_of_block_eq_some h.block
  h.congr (hgrow.op j hj) (hgrow.operands hwf hj) (hgrow.resultTypes hwf hj)

/-! ## The conditional and all that is new -/

/-- Operation `n` was put at position `k` of block `b`, all else that is new lies inside it, and
nobody reads its results. -/
structure Raised (g₀ g : Graph) (b : BlockId) (k : Nat) (n : OpId) : Prop where
  enlarges : g₀.Enlarges g b
  site : g₀.HasBlock b
  new : ¬ g₀.HasOp n
  live : (g.op n).erased = false
  block : (g.op n).block = some b
  ops : (g.block b).ops = (g₀.block b).ops.insertIdx k n
  covers : g₀.Covers g n
  unread : ∀ v ∈ (g.op n).results, g.Unread v

namespace Raised

variable (h : g₀.Raised g b k n)

include h

theorem there : g.HasOp n := hasOp_of_block_eq_some h.block

/-- Growing in a block `y` of the conditional: it is enough to look at what is new. -/
theorem grow (hgrow : g.Enlarges g' y) (hy : ¬ g₀.HasBlock y) (hcovers : g₀.Covers g' n)
    (hunread : ∀ v ∈ (g.op n).results, g'.Unread v) : g₀.Raised g' b k n := by
  have hrow := hgrow.op n h.there
  -- it is not the block of the conditional that grows
  have hby : b ≠ y := by
    rintro rfl
    exact hy h.site
  refine ⟨h.enlarges.trans hgrow fun hthere => absurd hthere hy, h.site, h.new, hrow ▸ h.live,
    hrow ▸ h.block, ?_, hcovers, hrow ▸ hunread⟩
  rw [hgrow.block b (h.enlarges.within.hasBlock h.site) hby]
  exact h.ops

variable (hhome : g.blockParent y = some n) (hy : ¬ g₀.HasBlock y)

include hhome hy

theorem inserted {o : Op} {vals : List (Option ValueId)} {l : Nat} (hins : g.Insertable o vals y l)
    (types : List (Option Ty)) (hvals : ∀ v ∈ (g.op n).results, some v ∉ vals) :
    g₀.Raised (g.inserted o vals types y l) b k n := by
  have hinstall : g.Enlarges (g.install o vals types) y := (Enlarges.refl g y).install o vals types
  have hrow := op_install g o vals types g.nextOp
  rw [if_pos rfl] at hrow
  have hthere : (g.install o vals types).HasOp g.nextOp := by
    rw [HasOp, size_ops_install]
    exact Nat.lt_succ_self _
  refine h.grow (y := y) ((Enlarges.refl g y).inserted (fun _ => rfl) o vals types l) hy ?_
    fun v hv => (h.unread v hv).install o types (hvals v hv)
  exact h.covers.place (covers_install _ _ _ _) hinstall.anchors hins.wellFormed.members
    (hins.wellFormed.members.install hins.blank.block vals types) hthere
    (hrow ▸ hins.blank.block) hhome .root

theorem clone (hwf : g.WellFormed) (i : OpId) (l : Nat) :
    g₀.Raised ((g.clone i {}).2.1.place y l (g.clone i {}).1) b k n := by
  have hinto : Mapping.Into {} g := nofun
  obtain ⟨hgrows, hid, hloose⟩ := copiesTo {} g.ops.size i (g, {}) hwf hinto
  have hgrow := (Enlarges.refl g y).copyTree (s := (g, {})) g.ops.size i
  show g₀.Raised ((copyTree g.ops.size i (g, {})).2.1.place y l
    (copyTree g.ops.size i (g, {})).1) b k n
  refine h.grow (y := y) (hgrow.1.place (fun _ => rfl) l hgrow.2) hy ?_ fun v hv => ?_
  · rw [hid]
    exact h.covers.place (coversTo g.ops.size i (g, {}) hwf hinto) hgrow.1.anchors hwf.members
      (hwf.edits hgrows.path).members hloose.there hloose.block hhome .root
  · exact (h.unread v hv).copyTree (s := (g, {})) (hwf.owned.mem_results_iff.mp hv).1 nofun _ i

end Raised

/-! ## New rows -/

theorem resultTypes_install_self (g : Graph) (o : Op) (vals : List (Option ValueId))
    (types : List (Option Ty)) : (g.install o vals types).resultTypes g.nextOp = types := by
  rw [resultTypes, op_install, if_pos rfl]
  apply List.ext_getElem?
  intro k
  show ((valuesFrom g.values.size types.length).map _)[k]? = types[k]?
  rw [List.getElem?_map]
  cases hk : types[k]? with
  | none =>
    have hlength := List.getElem?_eq_none_iff.mp hk
    rw [List.getElem?_eq_none, Option.map_none]
    rw [valuesFrom, List.length_map, List.length_range']
    exact hlength
  | some ty =>
    have hlt := (List.getElem?_eq_some_iff.mp hk).1
    rw [(getElem?_valuesFrom (v := ⟨g.values.size + k⟩)).mpr ⟨hlt, rfl⟩, Option.map_some,
      typeOf_install_of_getElem? g o vals hk]

theorem resultTypes_inserted_self (g : Graph) (o : Op) (vals : List (Option ValueId))
    (types : List (Option Ty)) (b : BlockId) (k : Nat) :
    (g.inserted o vals types b k).resultTypes g.nextOp = types := by
  have hresults : ((g.inserted o vals types b k).op g.nextOp).results =
      ((g.install o vals types).op g.nextOp).results := by
    rw [op_inserted_self, op_install, if_pos rfl]
  rw [resultTypes, hresults]
  exact resultTypes_install_self g o vals types

/-- A new operation of a `spec` without segments and regions `Realizes` it. -/
theorem realizes_inserted (g : Graph) (spec : OpSpec) {kind : OpKind} (hregions : kind.regions = 0)
    (hspec : spec.regions = 0) (x : BlockId) (k : Nat) :
    (g.inserted (spec.row (some kind)) spec.operands spec.results x k).Realizes g.nextOp x spec := by
  have hrow := op_inserted_self g (spec.row (some kind)) spec.operands spec.results x k
  refine ⟨hrow ▸ rfl, hrow ▸ rfl, hrow ▸ rfl, operands_inserted_self _ _ _ _ _ _,
    resultTypes_inserted_self _ _ _ _ _ _, ?_, hrow ▸ rfl, hrow ▸ rfl⟩
  rw [hrow]
  show List.replicate (max spec.regions ((kind.regions : Int))).toNat [] = _
  rw [hspec, hregions]
  rfl

/-! ## A new conditional -/

/-- The built-in kind of conditionals. -/
def ifKind : OpKind :=
  { name := Kinds.ifElse, segments := [Seg.condition], effects := .nested, regions := 2
    terminator := some Kinds.yield }

theorem find?_ifElse : Catalog.builtin.find? Kinds.ifElse = some ifKind := by decide

/-- What `newIf` makes a conditional from. -/
def conditionalSpec (loc : Location) (types : List (Option Ty)) (pred : Option ValueId) : OpSpec :=
  { name := Kinds.ifElse, loc, segments := [[pred]], results := types }

/-- `n` is a conditional on `pred`. -/
structure Conditional (g : Graph) (n : OpId) (loc : Location) (types : List (Option Ty))
    (pred : Option ValueId) : Prop where
  name : (g.op n).name = Kinds.ifElse
  loc : (g.op n).loc = loc
  attrs : (g.op n).attrs = {}
  types : g.resultTypes n = types
  segments : (g.op n).segments = [(Seg.condition, pred.toList.length)]
  operands : g.operands n = pred.toList.map some

namespace Conditional

variable {loc : Location} {types : List (Option Ty)} {pred : Option ValueId}
  (h : g.Conditional n loc types pred)

include h

theorem condition : g.segmentValue? n Seg.condition = some pred := by
  unfold segmentValue? Op.segment?
  rw [h.segments]
  cases pred with
  | none => rfl
  | some v =>
    obtain ⟨s, hs, hv⟩ := List.map_eq_singleton_iff.mp h.operands
    show (do let s ← (g.op n).operands[0]?; some (g.slot s).value) = _
    rw [hs]
    exact congrArg some hv

theorem congr (hrow : g'.op n = g.op n) (hoperands : g'.operands n = g.operands n)
    (htypes : g'.resultTypes n = g.resultTypes n) : g'.Conditional n loc types pred :=
  ⟨hrow ▸ h.name, hrow ▸ h.loc, hrow ▸ h.attrs, htypes.trans h.types, hrow ▸ h.segments,
    hoperands.trans h.operands⟩

theorem enlarges (hwf : g.WellFormed) (hn : g.HasOp n) (hgrow : g.Enlarges g' y) :
    g'.Conditional n loc types pred :=
  h.congr (hgrow.op n hn) (hgrow.operands hwf hn) (hgrow.resultTypes hwf hn)

theorem addBlock (r : RegionId) : (g.addBlock r).1.Conditional n loc types pred := by
  have hrow : (g.addBlock r).1.op n =
      { g.op n with regions := ((g.addBlock r).1.op n).regions } := by
    rw [Owned.op_addBlock]
    split <;> rfl
  refine ⟨?_, ?_, ?_, ?_, ?_, ?_⟩
  · rw [hrow]
    exact h.name
  · rw [hrow]
    exact h.loc
  · rw [hrow]
    exact h.attrs
  · rw [resultTypes, hrow]
    exact h.types
  · rw [hrow]
    exact h.segments
  · rw [Graph.operands, hrow]
    exact h.operands

end Conditional

theorem conditional_inserted (g : Graph) (loc : Location) (types : List (Option Ty))
    (pred : Option ValueId) (b : BlockId) (k : Nat) :
    (g.inserted ((conditionalSpec loc types pred).row (some ifKind)) (pred.toList.map some) types b
        k).Conditional g.nextOp loc types pred ∧
      ((g.inserted ((conditionalSpec loc types pred).row (some ifKind)) (pred.toList.map some) types
        b k).op g.nextOp).regions = [[], []] := by
  have hrow := op_inserted_self g ((conditionalSpec loc types pred).row (some ifKind))
    (pred.toList.map some) types b k
  refine ⟨⟨hrow ▸ rfl, hrow ▸ rfl, hrow ▸ rfl, resultTypes_inserted_self _ _ _ _ _ _, ?_,
    operands_inserted_self _ _ _ _ _ _⟩, ?_⟩
  · rw [hrow]
    cases pred <;> rfl
  · rw [hrow]
    rfl

theorem anchors_addBlock (g : Graph) (r : RegionId) : g.Anchors (g.addBlock r).1 where
  within := within_addBlock g r
  op j c hc := by
    rw [Owned.op_addBlock]
    split <;> exact hc
  home c hc := by rw [Owned.block_addBlock, if_neg hc.ne_next]

/-- A new operation alone is `Raised`. -/
theorem Insertable.raised {o : Op} {vals : List (Option ValueId)} (h : g.Insertable o vals b k)
    (types : List (Option Ty)) : g.Raised (g.inserted o vals types b k) b k g.nextOp := by
  have hrow := op_inserted_self g o vals types b k
  refine ⟨(Enlarges.refl g b).inserted (fun _ => rfl) o vals types k, h.block_there,
    Nat.lt_irrefl _, hrow ▸ h.blank.live, hrow ▸ rfl, h.ops_inserted_self, fun j hj => ?_,
    fun v hv s hs => ?_⟩
  · refine (eq_or_hasOp_install (hasOp_place.mp hj)).imp_right ?_
    rintro rfl
    exact .root
  · -- all that is read was there before
    have hold : g.HasValue v := by
      rcases slot_inserted_cases g o vals types b k hs with ⟨-, hslot⟩ | ⟨hmem, -⟩
      · exact h.wellFormed.uses.held s v (hslot ▸ hs)
      · exact h.vals_there _ hmem v rfl
    rw [hrow] at hv
    exact Nat.not_lt.mpr (mem_valuesFrom.mp hv).1 hold

theorem Raised.addBlock (h : g₀.Raised g b k n) (hmembers : g.MembersAgree) (r : Nat) :
    g₀.Raised (g.addBlock ⟨n, r⟩).1 b k n := by
  obtain ⟨hblock, hlive, -, hresults, -⟩ := op_addBlock_fields g n r n
  refine ⟨h.enlarges.addBlock h.new, h.site, h.new, hlive ▸ h.live, hblock ▸ h.block, ?_, ?_, ?_⟩
  · rw [Owned.block_addBlock, if_neg (h.enlarges.within.hasBlock h.site).ne_next]
    exact h.ops
  · refine h.covers.anchors hmembers (anchors_addBlock g ⟨n, r⟩) fun j hj => ?_
    exact Nat.lt_of_lt_of_eq hj Array.size_modify
  · rw [hresults]
    exact h.unread

end Graph

/-! ## Success and failure -/

namespace BuildM

variable {α β : Type} {c : Context} {Q : β → Context → Prop} {R : Failure → Context → Prop}

/-- If some work succeeds, the answer and the context are as `Q` says; if it fails, the failure and
the context are as `R` says. -/
def Ends (work : BuildM α) (c : Context) (Q : α → Context → Prop) (R : Failure → Context → Prop) :
    Prop :=
  (∀ a c', work c = .ok a c' → Q a c') ∧ ∀ f c', work c = .error f c' → R f c'

theorem Ends.of_ok {work : BuildM β} {a : β} {c' : Context} (hwork : work c = .ok a c')
    (hQ : Q a c') : work.Ends c Q R := by
  refine ⟨fun a' c'' hok => ?_, fun f c'' herror => ?_⟩
  · rw [hwork] at hok
    cases hok
    exact hQ
  · rw [hwork] at herror
    cases herror

theorem Ends.of_error {work : BuildM β} {f : Failure} {c' : Context} (hwork : work c = .error f c')
    (hR : R f c') : work.Ends c Q R := by
  refine ⟨fun a c'' hok => ?_, fun f' c'' herror => ?_⟩
  · rw [hwork] at hok
    cases hok
  · rw [hwork] at herror
    cases herror
    exact hR

theorem Ends.imp {work : BuildM β} {P : β → Context → Prop} {S : Failure → Context → Prop}
    (h : work.Ends c P S) (hPQ : ∀ a c', P a c' → Q a c') (hSR : ∀ f c', S f c' → R f c') :
    work.Ends c Q R :=
  ⟨fun a c' hrun => hPQ a c' (h.1 a c' hrun), fun f c' hrun => hSR f c' (h.2 f c' hrun)⟩

/-- `Ends` of work that only makes moves gives `Leads`. -/
theorem Ends.leads {work : BuildM β} (h : work.Ends c Q R) (hx : work.Leads c fun _ _ => True) :
    work.Leads c Q :=
  .of_runs (fun a c' hrun => ⟨(hx.of_ok hrun).1, h.1 a c' hrun⟩) fun _ _ hrun => hx.of_error hrun

/-- Work that cannot fail gives a result. -/
theorem Ends.exists_ok {work : BuildM β} (h : work.Ends c Q fun _ _ => False) :
    ∃ a c', work c = .ok a c' ∧ Q a c' := by
  cases hrun : work c with
  | ok a c' => exact ⟨a, c', rfl, h.1 a c' hrun⟩
  | error f c' => exact (h.2 f c' hrun).elim

theorem Ends.bind {x : BuildM α} {f : α → BuildM β} {P : α → Context → Prop}
    (hx : x.Ends c P R) (hf : ∀ a c', P a c' → (f a).Ends c' Q R) : (x >>= f).Ends c Q R := by
  cases hxc : x c with
  | error e c' =>
    exact .of_error (bind_of_error hxc f) (hx.2 e c' hxc)
  | ok a c' =>
    unfold Ends
    rw [bind_of_ok hxc]
    exact hf a c' (hx.1 a c' hxc)

/-- `Gives` goes on with what follows. -/
theorem Gives.ends_bind {x : BuildM α} {f : α → BuildM β} {P : α → Context → Prop}
    (hx : x.Gives c P) (hf : ∀ a c', c.Advances c' → P a c' → (f a).Ends c' Q R) :
    (x >>= f).Ends c Q R := by
  obtain ⟨a, c', hok, hadv, hP⟩ := hx.ok
  unfold Ends
  rw [bind_of_ok hok]
  exact hf a c' hadv hP

theorem ends_tryGraph {f : Graph → Except Failure Graph} {Q : Unit → Context → Prop}
    (hQ : ∀ g, f c.graph = .ok g → Q () { c with graph := g })
    (hR : ∀ e, f c.graph = .error e → R e c) : (tryGraph f).Ends c Q R := by
  cases hf : f c.graph with
  | ok g => exact .of_ok (tryGraph_of_ok hf) (hQ g hf)
  | error e => exact .of_error (tryGraph_of_error hf) (hR e hf)

theorem ends_withCursor {p : Cursor} {work : BuildM β}
    (hwork : work.Ends { c with cursor := p } (fun a d => Q a { d with cursor := c.cursor })
      fun f d => R f { d with cursor := c.cursor }) : (withCursor p work).Ends c Q R := by
  have hrun : withCursor p work c =
      ensuring work (fun d => { d with cursor := c.cursor }) { c with cursor := p } := rfl
  cases hd : work { c with cursor := p } with
  | ok a d =>
    refine .of_ok ?_ (hwork.1 a d hd)
    rw [hrun, ensuring, hd]
  | error f d =>
    refine .of_error ?_ (hwork.2 f d hd)
    rw [hrun, ensuring, hd]

end BuildM

/-! ## Copies -/

namespace Graph

theorem op_clone (g : Graph) (i : OpId) (m : Mapping) {j : OpId} (hj : g.HasOp j) :
    (g.clone i m).2.1.op j = g.op j :=
  ((Enlarges.refl g ⟨g.blocks.size⟩).copyTree (s := (g, m)) g.ops.size i).1.op j hj

/-- `clone` makes a copy that is detached, so every block is as it was. -/
theorem block_clone (g : Graph) (i : OpId) (m : Mapping) {b : BlockId} (hb : g.HasBlock b) :
    (g.clone i m).2.1.block b = g.block b :=
  ((Enlarges.refl g ⟨g.blocks.size⟩).copyTree (s := (g, m)) g.ops.size i).1.block b hb hb.ne_next

end Graph

theorem Build.gives_clone {c : Context} (h : c.Sound) (i : OpId) {m : Mapping}
    (hm : m.Into c.graph) {b : BlockId} {k : Nat} (hat : c.At b k) :
    (clone i m).Gives c fun p c' => p = ((c.graph.clone i m).1, (c.graph.clone i m).2.2) ∧
      c' = { c with graph := (c.graph.clone i m).2.1.place b k (c.graph.clone i m).1 } := by
  obtain ⟨hpath, hloose, -⟩ := Graph.edits_clone c.catalog h.graph hm i
  have hdetached : (cloneDetached i m).Gives c fun p c' =>
      p = ((c.graph.clone i m).1, (c.graph.clone i m).2.2) ∧
      c' = { c with graph := (c.graph.clone i m).2.1 } :=
    (leads_cloneDetached h hm i).gives ⟨_, _, rfl⟩
  refine hdetached.bind fun p c₁ hadv hc => ?_
  obtain ⟨rfl, rfl⟩ := hc
  have hops : ((c.graph.clone i m).2.1.block b).ops = (c.graph.block b).ops :=
    congrArg Block.ops (c.graph.block_clone i m (hat.hasBlock h.cursor))
  refine (gives_insert (h.advances hadv) hloose.there hloose.block hloose.live
    (hat.congr rfl hops)).bind fun j c₂ _ hc => ?_
  obtain ⟨rfl, rfl⟩ := hc
  exact .pure ⟨rfl, rfl⟩

/-! ## The building context -/

namespace Predication

open Ops Multistage.Graph

/-- The conditional `n` with the blocks `t` and `e` is being built at position `k` of block `b`;
`c₀` is the context before. -/
structure Raising (c₀ c : Context) (b : BlockId) (k : Nat) (n : OpId) (t e : BlockId) : Prop where
  sound : c.Sound
  raised : c₀.graph.Raised c.graph b k n
  arms : c.graph.Arms n t e
  -- the two blocks are new, and stay without arguments
  first_new : ¬ c₀.graph.HasBlock t
  second_new : ¬ c₀.graph.HasBlock e
  ne : t ≠ e
  bare : ∀ y, y = t ∨ y = e → (c.graph.block y).args = []
  same : c = { c₀ with graph := c.graph, cursor := c.cursor }

/-- The operations `js` were put at the end of block `y`, and the graph has grown by nothing else
than what is in them. -/
structure Appends (c c' : Context) (y : BlockId) (js : List OpId) : Prop where
  enlarges : c.graph.Enlarges c'.graph y
  ops : (c'.graph.block y).ops = (c.graph.block y).ops ++ js
  same : c' = { c with graph := c'.graph }

theorem Appends.trans {c c' c'' : Context} {y : BlockId} {js ls : List OpId}
    (h : Appends c c' y js) (h' : Appends c' c'' y ls) : Appends c c'' y (js ++ ls) where
  enlarges := h.enlarges.trans h'.enlarges fun _ => rfl
  ops := by rw [h'.ops, h.ops, List.append_assoc]
  same := by rw [h'.same, h.same]

section

variable {c₀ c c' : Context} {b t e y : BlockId} {k : Nat} {n : OpId} {js : List OpId}

/-- The cursor may have been set to `p` for the time being only. -/
theorem Appends.withCursor {p : Cursor} (h : Appends { c with cursor := p } c' y js) :
    Appends c { c' with cursor := c.cursor } y js :=
  ⟨h.enlarges, h.ops, by rw [h.same]⟩

namespace Raising

/-- `Raising` does not look at where the cursor was. -/
theorem rebase {p : Cursor} (h : Raising { c₀ with cursor := p } c b k n t e) :
    Raising c₀ c b k n t e :=
  { h with }

variable (h : Raising c₀ c b k n t e)

include h

theorem withCursor {p : Cursor} (hp : c.graph.HasCursor p) :
    Raising c₀ { c with cursor := p } b k n t e :=
  { h with sound := h.sound.advance (.move p hp), same := by rw [h.same] }

theorem hasCursor (hy : y = t ∨ y = e) (loc : Location) :
    c.graph.HasCursor { block := some y, before := none, loc } := by
  refine ⟨?_, ?_⟩
  · rintro _ ⟨⟩
    rcases hy with rfl | rfl
    · exact Graph.hasBlock_of_blockParent h.arms.first
    · exact Graph.hasBlock_of_blockParent h.arms.second
  · rintro _ ⟨⟩

theorem new_of_arm (hy : y = t ∨ y = e) : ¬ c₀.graph.HasBlock y := by
  rcases hy with rfl | rfl
  · exact h.first_new
  · exact h.second_new

theorem home_of_arm (hy : y = t ∨ y = e) : c.graph.blockParent y = some n := by
  rcases hy with rfl | rfl
  · exact h.arms.first
  · exact h.arms.second

theorem appends (happends : Appends c c' y js) (hsound : c'.Sound)
    (hraised : c₀.graph.Raised c'.graph b k n) : Raising c₀ c' b k n t e where
  sound := hsound
  raised := hraised
  arms := by
    have hgrow := happends.enlarges
    refine ⟨?_, ?_, ?_⟩
    · rw [hgrow.op n h.raised.there]
      exact h.arms.regions
    · exact (hgrow.blockParent (Graph.hasBlock_of_blockParent h.arms.first)).trans h.arms.first
    · exact (hgrow.blockParent (Graph.hasBlock_of_blockParent h.arms.second)).trans h.arms.second
  first_new := h.first_new
  second_new := h.second_new
  ne := h.ne
  bare := by
    intro z hz
    have hthere := Graph.hasBlock_of_blockParent (h.home_of_arm hz)
    rw [happends.enlarges.args hthere]
    exact h.bare z hz
  same := by rw [happends.same, h.same]

end Raising

/-- The cursor stands at the end of block `y`. -/
structure AtEnd (c : Context) (y : BlockId) : Prop where
  block : c.cursor.block = some y
  before : c.cursor.before = none

theorem AtEnd.at (h : AtEnd c y) : c.At y (c.graph.block y).ops.length := by
  refine ⟨h.block, ?_⟩
  rw [h.before]

theorem AtEnd.appends (h : AtEnd c y) (happends : Appends c c' y js) : AtEnd c' y := by
  rw [happends.same]
  exact ⟨h.block, h.before⟩

/-! ## Filling a block -/

/-- `create` at the end of one of the two blocks. -/
theorem gives_create_raising (h : Raising c₀ c b k n t e) (hy : y = t ∨ y = e) (hend : AtEnd c y)
    {spec : OpSpec} {kind : OpKind} (hk : Catalog.builtin.find? spec.name = some kind)
    (hsegments : kind.segments = []) (hregions : kind.regions = 0)
    (hplain : spec.segments = [] ∧ spec.regions = 0 ∧ spec.loc = {})
    (hvals : ∀ v ∈ spec.operands, c.graph.HasOptValue v)
    (hunread : ∀ v ∈ (c.graph.op n).results, some v ∉ spec.operands) :
    (create spec).Gives c fun j c' => j = c.graph.nextOp ∧ Raising c₀ c' b k n t e ∧
      Appends c c' y [j] ∧ c'.graph.Realizes j y { spec with loc := c.cursor.loc } := by
  have hspec : c.graph.HasSpec spec := ⟨hvals, by rw [hplain.1]; nofun⟩
  have hfits : Build.Fits c spec := by
    rw [Build.Fits, hplain.1]
    exact Nat.zero_le _
  refine (gives_create h.sound hspec hfits hend.at).imp fun j c' hadv hc => ?_
  obtain ⟨rfl, loc, hloc, rfl⟩ := hc
  obtain rfl := hloc hplain.2.2
  have hins := insertable h.sound { spec with loc := c.cursor.loc } hspec hend.at
  have hkind := h.sound.catalog _ _ hk
  -- a kind without segments takes the operands as they are given
  have hoperands : c.operandsOf { spec with loc := c.cursor.loc } = spec.operands :=
    operandsOf_of_find? h.sound hk hsegments
  have hgraph := graph_created c { spec with loc := c.cursor.loc } y (c.graph.block y).ops.length
  rw [Context.insertion, hoperands] at hgraph
  rw [hoperands] at hins
  have hops : ((Created c { spec with loc := c.cursor.loc } y (c.graph.block y).ops.length).graph.block
      y).ops = (c.graph.block y).ops ++ [c.graph.nextOp] := by
    rw [hgraph, hins.ops_inserted_self, insertIdx_eq_append (Nat.le_refl _), List.take_length,
      List.drop_length]
  have happends : Appends c (Created c { spec with loc := c.cursor.loc } y
      (c.graph.block y).ops.length) y [c.graph.nextOp] :=
    ⟨hgraph ▸ (Graph.Enlarges.refl c.graph y).inserted (fun _ => rfl) _ _ _ _, hops, rfl⟩
  refine ⟨rfl, h.appends happends (h.sound.advances hadv) ?_, happends, ?_⟩
  · rw [hgraph]
    exact h.raised.inserted (h.home_of_arm hy) (h.new_of_arm hy) hins _ hunread
  · rw [hgraph, show c.catalog.find? spec.name = some kind from hkind]
    exact Graph.realizes_inserted c.graph { spec with loc := c.cursor.loc } hregions hplain.2.1 y _

theorem root_clone {g : Graph} (hwf : g.WellFormed) (i : OpId) : (g.clone i {}).1 = g.nextOp :=
  (Graph.copiesTo {} g.ops.size i (g, {}) hwf nofun).2.1

/-- The graph with a copy of `i` at the end of block `y`. -/
def cloned (g : Graph) (i : OpId) (y : BlockId) : Graph :=
  (g.clone i {}).2.1.place y (g.block y).ops.length (g.clone i {}).1

theorem gives_clone_raising (h : Raising c₀ c b k n t e) (hy : y = t ∨ y = e) (hend : AtEnd c y)
    (i : OpId) :
    (clone i {}).Gives c fun p c' => p.1 = c.graph.nextOp ∧ Raising c₀ c' b k n t e ∧
      Appends c c' y [c.graph.nextOp] ∧ c'.graph = cloned c.graph i y := by
  have hwf := h.sound.graph
  have hroot := root_clone hwf i
  have hinto : Mapping.Into {} c.graph := nofun
  refine (gives_clone h.sound i hinto hend.at).imp fun p c' hadv hc => ?_
  obtain ⟨rfl, rfl⟩ := hc
  have hgrow := (Graph.Enlarges.refl c.graph y).copyTree (s := (c.graph, {})) c.graph.ops.size i
  have hthere := hend.at.hasBlock h.sound.cursor
  have happends : Appends c { c with graph := cloned c.graph i y } y [c.graph.nextOp] := by
    refine ⟨hgrow.1.place (fun _ => rfl) _ hgrow.2, ?_, rfl⟩
    have hthere' : (c.graph.clone i {}).2.1.HasBlock y := hgrow.1.within.hasBlock hthere
    show ((cloned c.graph i y).block y).ops = _
    rw [cloned, Graph.block_place, if_pos ⟨rfl, hthere'⟩, c.graph.block_clone i {} hthere, hroot]
    show (c.graph.block y).ops.insertIdx (c.graph.block y).ops.length c.graph.nextOp = _
    rw [insertIdx_eq_append (Nat.le_refl _), List.take_length, List.drop_length]
  exact ⟨hroot, h.appends happends (h.sound.advances hadv)
    (h.raised.clone (h.home_of_arm hy) (h.new_of_arm hy) hwf i _), happends, rfl⟩

theorem disjoint_results {g : Graph} (howned : g.Owned) {i j : OpId} (hne : i ≠ j) {v : ValueId}
    (hi : v ∈ (g.op i).results) : v ∉ (g.op j).results := by
  intro hj
  obtain ⟨-, m, hm⟩ := howned.mem_results_iff.mp hi
  obtain ⟨-, l, hl⟩ := howned.mem_results_iff.mp hj
  rw [hm] at hl
  exact hne (Source.result.inj hl).1

theorem not_mem_map_results {g : Graph} (howned : g.Owned) {i j : OpId} (hne : i ≠ j) {v : ValueId}
    (hi : v ∈ (g.op i).results) : some v ∉ (g.op j).results.map some := by
  intro hmem
  obtain ⟨w, hw, heq⟩ := List.mem_map.mp hmem
  cases heq
  exact disjoint_results howned hne hi hw

/-- `yield` at the end of block `y`, of values that other operations than the conditional give. -/
theorem gives_yield_raising (h : Raising c₀ c b k n t e) (hy : y = t ∨ y = e) (hend : AtEnd c y)
    {vals : List ValueId}
    (hvals : ∀ v ∈ vals, c.graph.HasValue v ∧ v ∉ (c.graph.op n).results) :
    (yield (vals.map some)).Gives c fun j c' => Raising c₀ c' b k n t e ∧ Appends c c' y [j] ∧
      c'.graph.Realizes j y
        { name := Kinds.yield, loc := c.cursor.loc, operands := vals.map some } := by
  have hkind : Catalog.builtin.find? Kinds.yield =
      some { name := Kinds.yield, isTerminator := true } := by decide
  refine (gives_create_raising h hy hend hkind rfl rfl ⟨rfl, rfl, rfl⟩
    (Graph.hasOptValue_of_mem_map fun v hv => (hvals v hv).1) fun v hv hmem => ?_).imp
    fun j c' _ hc => hc.2
  obtain ⟨w, hw, heq⟩ := List.mem_map.mp hmem
  cases heq
  exact (hvals v hw).2 hv

/-- The first block: a copy of `i` and a `yield` of its results. -/
theorem gives_copyAndYield_raising (h : Raising c₀ c b k n t e) (hend : AtEnd c t) (i : OpId) :
    Gives (do
      let (copy, _) ← clone i {}
      let results := ((← graph).op copy).results
      discard <| yield (results.map some)) c fun _ c' => ∃ j, Raising c₀ c' b k n t e ∧
        Appends c c' t [c.graph.nextOp, j] ∧ (cloned c.graph i t).Enlarges c'.graph t ∧
        (cloned c.graph i t).WellFormed ∧ c'.graph.Realizes j t
          { name := Kinds.yield, loc := c.cursor.loc
            operands := (c'.graph.op c.graph.nextOp).results.map some } := by
  refine (gives_clone_raising h (Or.inl rfl) hend i).bind fun p c₁ _ hc => ?_
  obtain ⟨copy, m⟩ := p
  obtain ⟨rfl, hraising, happends, hgraph⟩ := hc
  refine gives_graph.bind fun g c₂ _ hc => ?_
  obtain ⟨rfl, rfl⟩ := hc
  have howned := hraising.sound.graph.owned
  have hne : c.graph.nextOp ≠ n := h.raised.there.ne_nextOp.symm
  have hcursor : c₂.cursor = c.cursor := by rw [happends.same]
  refine Gives.imp (gives_yield_raising hraising (Or.inl rfl) (hend.appends happends) fun v hv =>
    ⟨(howned.mem_results_iff.mp hv).1, disjoint_results howned hne hv⟩).discard
    fun _ c' _ hc => ?_
  obtain ⟨j, hraising', happends', hyield⟩ := hc
  have hthere : c₂.graph.HasOp c.graph.nextOp := by
    refine hraising.sound.graph.members.hasOp (b := t) ?_
    rw [happends.ops]
    exact List.mem_append_right _ List.mem_cons_self
  rw [← happends'.enlarges.op _ hthere, hcursor] at hyield
  exact ⟨j, hraising', happends.trans happends', hgraph ▸ happends'.enlarges,
    hgraph ▸ hraising.sound.graph, hyield⟩

/-- What `zeros` makes a zero from. -/
def zeroSpec (loc : Location) (ty : Option Ty) : OpSpec :=
  { name := Kinds.constant, loc, results := [ty], attrs := .single "value" (some (.integer 0 ty)) }

theorem gives_zeroConstant_raising (h : Raising c₀ c b k n t e) (hend : AtEnd c e) {ty : Option Ty}
    (hty : hasZero ty = true) :
    (zeroConstant ty).Gives c fun v c' => ∃ j, Raising c₀ c' b k n t e ∧ Appends c c' e [j] ∧
      c'.graph.Realizes j e (zeroSpec c.cursor.loc ty) ∧ (c'.graph.op j).results = [v] := by
  have hkind : Catalog.builtin.find? Kinds.constant = some { name := Kinds.constant } := by decide
  unfold zeroConstant
  rw [if_pos hty]
  refine (gives_create_raising h (Or.inr rfl) hend hkind rfl rfl ⟨rfl, rfl, rfl⟩
    (fun v hv => absurd hv List.not_mem_nil) fun v _ => List.not_mem_nil).bind fun j c₁ _ hc => ?_
  obtain ⟨rfl, hraising, happends, hzero⟩ := hc
  refine gives_graph.bind fun g c₂ _ hc => ?_
  obtain ⟨rfl, rfl⟩ := hc
  -- a constant of one type has one result
  have hlength : (c₂.graph.op c.graph.nextOp).results.length = 1 := by
    have htypes := congrArg List.length hzero.types
    rwa [Graph.resultTypes, List.length_map] at htypes
  obtain ⟨v, hv⟩ := List.length_eq_one_iff.mp hlength
  refine (gives_present (y := v) (by rw [hv]; rfl)).imp fun w c₃ _ hc => ?_
  obtain ⟨rfl, rfl⟩ := hc
  exact ⟨_, hraising, happends, hzero, hv⟩

/-- `zeros`, up to the first type that has none. -/
theorem gives_zeros_raising (h : Raising c₀ c b k n t e) (hend : AtEnd c e)
    (types : List (Option Ty)) :
    (zeros types).Gives c fun zs c' => ∃ js, Raising c₀ c' b k n t e ∧ Appends c c' e js ∧
      (∀ vs, zs = .ok vs → (∀ ty ∈ types, hasZero ty = true) ∧
        List.Forall₂ (fun j ty => c'.graph.Realizes j e (zeroSpec c.cursor.loc ty)) js types ∧
        vs = js.flatMap fun j => (c'.graph.op j).results) ∧
      ∀ ty, zs = .error ty → ty ∈ types ∧ hasZero ty = false := by
  induction types generalizing c with
  | nil =>
    refine .pure ⟨[], h, ⟨.refl _ _, (List.append_nil _).symm, rfl⟩, fun vs hvs => ?_,
      fun ty hty => ?_⟩
    · cases hvs
      exact ⟨fun ty hty => absurd hty List.not_mem_nil, .nil, rfl⟩
    · cases hty
  | cons ty rest ih =>
    unfold zeros
    cases hty : hasZero ty with
    | false =>
      -- nothing is built for this type or any later one
      refine .pure ⟨[], h, ⟨.refl _ _, (List.append_nil _).symm, rfl⟩, fun vs hvs => ?_,
        fun ty' hty' => ?_⟩
      · cases hvs
      · cases hty'
        exact ⟨List.mem_cons_self, hty⟩
    | true =>
      refine (gives_zeroConstant_raising h hend hty).bind fun z c₁ _ hc => ?_
      obtain ⟨j, hraising, happends, hzero, hz⟩ := hc
      have hcursor : c₁.cursor = c.cursor := by rw [happends.same]
      refine (ih hraising (hend.appends happends)).bind fun zs c₂ _ hc => ?_
      obtain ⟨js, hraising', happends', hok, herror⟩ := hc
      rw [hcursor] at hok
      have hwf := hraising.sound.graph
      have happended : Appends c c₂ e (j :: js) := happends.trans happends'
      cases zs with
      | error ty' =>
        refine .pure ⟨j :: js, hraising', happended, fun vs hvs => ?_, fun ty'' hty'' => ?_⟩
        · cases hvs
        · cases hty''
          exact ⟨List.mem_cons_of_mem _ (herror ty' rfl).1, (herror ty' rfl).2⟩
      | ok vs =>
        refine .pure ⟨j :: js, hraising', happended, fun ws hws => ?_, fun ty'' hty'' => ?_⟩
        · cases hws
          obtain ⟨hzeros, hrest, rfl⟩ := hok vs rfl
          -- the first zero is still there when the others have been built
          have hj := Graph.hasOp_of_block_eq_some hzero.block
          refine ⟨List.forall_mem_cons.mpr ⟨hty, hzeros⟩,
            .cons (hzero.enlarges hwf happends'.enlarges) hrest, ?_⟩
          rw [List.flatMap_cons, happends'.enlarges.op j hj, hz]
          rfl
        · cases hty''

/-! ## Putting the conditional in -/

theorem gives_addBlock {i : OpId} {r : Nat} (hr : r < (c.graph.op i).regions.length) :
    (discard (addBlock i r)).Gives c fun _ c' =>
      c' = { c with graph := (c.graph.addBlock ⟨i, r⟩).1 } := by
  have hi : c.graph.HasOp i := by
    by_contra hout
    rw [Graph.op_of_not_hasOp hout] at hr
    exact Nat.not_lt_zero _ hr
  have hpick : pick? (c.graph.op i).regions r = some ((c.graph.op i).regions[r]) := by
    rw [pick?_ofNat, List.getElem?_eq_getElem hr]
  have hadded : (addBlock i r).Gives c fun _ c' =>
      c' = { c with graph := (c.graph.addBlock ⟨i, r⟩).1 } := by
    refine gives_graph.bind fun g c₁ _ hc => ?_
    obtain ⟨rfl, rfl⟩ := hc
    refine (gives_present hpick).bind fun _ c₂ _ hc => ?_
    obtain ⟨rfl, rfl⟩ := hc
    refine Gives.imp (gives_updateGraph (.single (.addBlock i r hi hr)))
      fun _ _ _ hc => hc.2
  exact hadded.discard.imp fun _ _ _ ⟨_, hc⟩ => hc

/-- `create` of the conditional, without blocks. -/
theorem gives_create_conditional (h : c.Sound) (hat : c.At b k) {pred : Option ValueId}
    (hpred : c.graph.HasOptValue pred) (types : List (Option Ty)) :
    (create { name := Kinds.ifElse, segments := [[pred]], results := types }).Gives c fun n c' =>
      c.graph.Raised c'.graph b k n ∧ c'.graph.Conditional n c.cursor.loc types pred ∧
      (c'.graph.op n).regions = [[], []] ∧ c' = { c with graph := c'.graph } := by
  have hfound := h.catalog _ _ find?_ifElse
  have hspec : c.graph.HasSpec (conditionalSpec {} types pred) := by
    refine ⟨fun _ hv => absurd hv List.not_mem_nil, fun vals hvals v hv => ?_⟩
    rw [List.mem_singleton.mp hvals] at hv
    rw [List.mem_singleton.mp hv]
    exact hpred
  have hfits : Build.Fits c (conditionalSpec {} types pred) := by
    rw [Build.Fits, conditionalSpec, hfound]
    exact Nat.le_refl 1
  refine (gives_create h hspec hfits hat).imp fun n c' _ hc => ?_
  obtain ⟨rfl, loc, hloc, rfl⟩ := hc
  obtain rfl := hloc rfl
  -- a missing predicate is left out
  have hvals : c.operandsOf (conditionalSpec c.cursor.loc types pred) = pred.toList.map some := by
    rw [Context.operandsOf, conditionalSpec, hfound]
    cases pred <;> rfl
  have hgraph := graph_created c (conditionalSpec c.cursor.loc types pred) b k
  have hins := insertable h (conditionalSpec c.cursor.loc types pred) hspec hat
  have hname : c.catalog.find? (conditionalSpec c.cursor.loc types pred).name = some ifKind := hfound
  rw [Context.insertion, hvals, hname] at hgraph
  rw [hvals, hname] at hins
  obtain ⟨hcond, hregions⟩ := conditional_inserted c.graph c.cursor.loc types pred b k
  exact ⟨hgraph ▸ hins.raised types, hgraph ▸ hcond, hgraph ▸ hregions, rfl⟩

/-- `newIf` gives the conditional with its two blocks, which are still empty. -/
theorem gives_newIf_raising (h : c.Sound) (hat : c.At b k) {pred : Option ValueId}
    (hpred : c.graph.HasOptValue pred) (types : List (Option Ty)) :
    (newIf types pred true).Gives c fun n c' => ∃ t e, Raising c c' b k n t e ∧
      c'.graph.Conditional n c.cursor.loc types pred ∧ (c'.graph.block t).ops = [] ∧
      (c'.graph.block e).ops = [] := by
  refine (gives_create_conditional h hat hpred types).bind fun n c₁ hadv₁ hc => ?_
  obtain ⟨hraised, hcond, hregions, hsame⟩ := hc
  have hsound₁ := h.advances hadv₁
  refine (gives_addBlock (r := 0) (by rw [hregions]; decide)).bind fun _ c₂ hadv₂ hc => ?_
  have hsound₂ := hsound₁.advances hadv₂
  have hlength : 1 < (c₂.graph.op n).regions.length := by
    rw [hc, Owned.op_addBlock, if_pos ⟨rfl, hraised.there⟩, hregions]
    exact Nat.one_lt_two
  dsimp only
  rw [if_pos rfl]
  refine (gives_addBlock (r := 1) hlength).bind fun _ c₃ hadv₃ hc' => .pure ?_
  have hsound₃ := hsound₂.advances hadv₃
  subst hc hc'
  obtain ⟨harms, hfirst⟩ := Graph.arms_addBlock hraised.there hregions
  have hsize : (c₁.graph.addBlock ⟨n, 0⟩).1.blocks.size = c₁.graph.blocks.size + 1 :=
    Array.size_push _
  -- both blocks have numbers that no block had before
  have hblocks := hraised.enlarges.within.blocks
  have hsecond : ((c₁.graph.addBlock ⟨n, 0⟩).1.addBlock ⟨n, 1⟩).1.block
      ⟨(c₁.graph.addBlock ⟨n, 0⟩).1.blocks.size⟩ = { home := some ⟨n, 1⟩ } := by
    rw [Owned.block_addBlock, if_pos rfl]
  refine ⟨_, _, ⟨hsound₃, (hraised.addBlock hsound₁.graph.members 0).addBlock
    hsound₂.graph.members 1, harms, Nat.not_lt.mpr hblocks, ?_, ?_, ?_, ?_⟩,
    (hcond.addBlock _).addBlock _, ?_, ?_⟩
  · rw [hsize]
    exact Nat.not_lt.mpr (Nat.le_succ_of_le hblocks)
  · rw [hsize]
    exact fun heq => absurd (congrArg BlockId.index heq) (Nat.ne_of_lt (Nat.lt_succ_self _))
  · rintro y (rfl | rfl)
    · rw [hfirst]
    · rw [hsecond]
  · rw [hsame]
  · rw [hfirst]
  · rw [hsecond]

/-- `branchCursor` is at the end of one of the two blocks. -/
theorem gives_branchCursor_raising (h : Raising c₀ c b k n t e) {r : Nat}
    (hregion : [[t], [e]][r]? = some [y]) :
    (branchCursor n r).Gives c fun p c' =>
      p = { block := some y, before := none, loc := (c.graph.op n).loc } ∧ c' = c := by
  have hfront : c.graph.frontBlock? n r = some (some y) := by
    rw [Graph.frontBlock?, h.arms.regions, hregion]
    rfl
  have hblock : (branchBlock n r).Gives c fun block c' => block = some y ∧ c' = c := by
    refine gives_graph.bind fun g c₁ _ hc => ?_
    obtain ⟨rfl, rfl⟩ := hc
    exact gives_present hfront
  refine hblock.bind fun block c₁ _ hc => ?_
  obtain ⟨rfl, rfl⟩ := hc
  refine gives_graph.bind fun g c₂ _ hc => .pure ?_
  obtain ⟨rfl, rfl⟩ := hc
  exact ⟨rfl, rfl⟩

/-- The second block: `zeros` and a `yield` of them, if all types have one. -/
theorem gives_zerosAndYield_raising (h : Raising c₀ c b k n t e) (hend : AtEnd c e)
    (types : List (Option Ty)) :
    Gives (do
      match ← zeros types with
      | .ok zs =>
        discard <| yield (zs.map some)
        return none
      | .error ty => return some ty) c fun outcome c' => ∃ js, Raising c₀ c' b k n t e ∧
        Appends c c' e js ∧
        (outcome = none → (∀ ty ∈ types, hasZero ty = true) ∧ ∃ zs j, js = zs ++ [j] ∧
          List.Forall₂ (fun z ty => c'.graph.Realizes z e (zeroSpec c.cursor.loc ty)) zs types ∧
          c'.graph.Realizes j e
            { name := Kinds.yield, loc := c.cursor.loc
              operands := zs.flatMap fun z => (c'.graph.op z).results.map some }) ∧
        ∀ ty, outcome = some ty → ty ∈ types ∧ hasZero ty = false := by
  refine (gives_zeros_raising h hend types).bind fun zs c₁ _ hc => ?_
  obtain ⟨js, hraising, happends, hok, herror⟩ := hc
  cases zs with
  | error ty =>
    refine .pure ⟨js, hraising, happends, fun hnone => ?_, fun ty' hty' => ?_⟩
    · cases hnone
    · cases hty'
      exact herror ty rfl
  | ok vs =>
    obtain ⟨hzeros, hjs, rfl⟩ := hok vs rfl
    have howned := hraising.sound.graph.owned
    have hcursor : c₁.cursor = c.cursor := by rw [happends.same]
    -- the zeros are in another block than the conditional
    have hother : ∀ z ∈ js, z ≠ n := by
      rintro z hz rfl
      have hmem : z ∈ (c₁.graph.block e).ops := by
        rw [happends.ops]
        exact List.mem_append_right _ hz
      have hblock := (hraising.sound.graph.members.mem_iff z e).mpr hmem
      rw [hraising.raised.block] at hblock
      exact h.second_new (Option.some.inj hblock ▸ h.raised.site)
    have hvals : ∀ v ∈ js.flatMap fun j => (c₁.graph.op j).results,
        c₁.graph.HasValue v ∧ v ∉ (c₁.graph.op n).results := by
      intro v hv
      obtain ⟨z, hz, hv⟩ := List.mem_flatMap.mp hv
      exact ⟨(howned.mem_results_iff.mp hv).1, disjoint_results howned (hother z hz) hv⟩
    refine (gives_yield_raising hraising (Or.inr rfl) (hend.appends happends) hvals).discard.bind
      fun _ c₂ _ hc => .pure ?_
    obtain ⟨j, hraising', happends', hyield⟩ := hc
    have hrows : ∀ z ∈ js, c₂.graph.op z = c₁.graph.op z := by
      intro z hz
      refine happends'.enlarges.op z (hraising.sound.graph.members.hasOp (b := e) ?_)
      rw [happends.ops]
      exact List.mem_append_right _ hz
    have hoperands : (js.flatMap fun z => (c₁.graph.op z).results).map some =
        js.flatMap fun z => (c₂.graph.op z).results.map some := by
      rw [List.map_flatMap]
      exact List.flatMap_congr fun z hz => by rw [hrows z hz]
    rw [hoperands, hcursor] at hyield
    refine ⟨js ++ [j], hraising', happends.trans happends', fun _ => ⟨hzeros, js, j, rfl, ?_, hyield⟩,
      fun ty hty => ?_⟩
    · exact hjs.imp fun z ty hz => hz.enlarges hraising.sound.graph happends'.enlarges
    · cases hty

/-! ## The finished conditional -/

/-- The steps from the context `d`, where `i` was copied, to the graph `g'` of the end: the copy, the
yield in the same block, which gives `g`, and the zeros in the other block. -/
structure CopiedIn (c₀ d : Context) (g g' : Graph) (i : OpId) (b : BlockId) (k : Nat) (n : OpId)
    (t e : BlockId) : Prop where
  advances : c₀.Advances d
  raising : Raising c₀ d b k n t e
  copied : (cloned d.graph i t).WellFormed
  yielded : (cloned d.graph i t).Enlarges g t
  wellFormed : g.WellFormed
  zeroed : g.Enlarges g' e

/-- The conditional `n` has been built for operation `i`: its first block is a copy of `i` and a
yield of what the copy gives, and its second block is a zero for every result and a yield of the
zeros. -/
structure Finished (c₀ c : Context) (i : OpId) (pred : Option ValueId) (b : BlockId) (k : Nat)
    (n : OpId) (t e : BlockId) : Prop extends Raising c₀ c b k n t e where
  cond : c.graph.Conditional n (c₀.graph.op i).loc (c₀.graph.resultTypes i) pred
  first : ∃ d g j, CopiedIn c₀ d g c.graph i b k n t e ∧
    (c.graph.block t).ops = [d.graph.nextOp, j] ∧ c.graph.Realizes j t
      { name := Kinds.yield, loc := (c₀.graph.op i).loc
        operands := (c.graph.op d.graph.nextOp).results.map some }
  second : ∃ zs j, (c.graph.block e).ops = zs ++ [j] ∧
    List.Forall₂ (fun z ty => c.graph.Realizes z e (zeroSpec (c₀.graph.op i).loc ty)) zs
      (c₀.graph.resultTypes i) ∧
    c.graph.Realizes j e
      { name := Kinds.yield, loc := (c₀.graph.op i).loc
        operands := zs.flatMap fun z => (c.graph.op z).results.map some }

/-- The two blocks are filled one after the other, `t` with a copy and its yield, `e` with zeros and
theirs. -/
theorem finished_of_appends {c₁ c₂ : Context} {i j l : OpId} {zs : List OpId}
    {pred : Option ValueId} (hadv : c₀.Advances c) (hopen : Raising c₀ c b k n t e)
    (hcond : c.graph.Conditional n (c₀.graph.op i).loc (c₀.graph.resultTypes i) pred)
    (hempty : (c.graph.block t).ops = [] ∧ (c.graph.block e).ops = [])
    (hcopied : Raising c₀ c₁ b k n t e) (hfirst : Appends c c₁ t [c.graph.nextOp, j])
    (hwf : (cloned c.graph i t).WellFormed) (hgrow : (cloned c.graph i t).Enlarges c₁.graph t)
    (hyield : c₁.graph.Realizes j t
      { name := Kinds.yield, loc := (c₀.graph.op i).loc
        operands := (c₁.graph.op c.graph.nextOp).results.map some })
    (hdone : Raising c₀ c₂ b k n t e) (hsecond : Appends c₁ c₂ e (zs ++ [l]))
    (hzeros : List.Forall₂ (fun z ty => c₂.graph.Realizes z e (zeroSpec (c₀.graph.op i).loc ty)) zs
      (c₀.graph.resultTypes i))
    (hyields : c₂.graph.Realizes l e
      { name := Kinds.yield, loc := (c₀.graph.op i).loc
        operands := zs.flatMap fun z => (c₂.graph.op z).results.map some }) :
    Finished c₀ c₂ i pred b k n t e := by
  have hwf₁ := hcopied.sound.graph
  have hcond₁ := hcond.enlarges hopen.sound.graph hopen.raised.there hfirst.enlarges
  have hlist : (c₁.graph.block t).ops = [c.graph.nextOp, j] := by
    rw [hfirst.ops, hempty.1, List.nil_append]
  have hcopy : c₁.graph.HasOp c.graph.nextOp :=
    hwf₁.members.hasOp (b := t) (hlist ▸ List.mem_cons_self)
  refine ⟨hdone, hcond₁.enlarges hwf₁ hcopied.raised.there hsecond.enlarges, ⟨c, c₁.graph, j,
    ⟨hadv, hopen, hwf, hgrow, hwf₁, hsecond.enlarges⟩, ?_, ?_⟩, zs, l, ?_, hzeros, hyields⟩
  · -- the zeros leave the first block as it is
    rw [hsecond.enlarges.block t (hasBlock_of_blockParent hcopied.arms.first) hcopied.ne]
    exact hlist
  · have hkept := hyield.enlarges hwf₁ hsecond.enlarges
    rwa [← hsecond.enlarges.op _ hcopy] at hkept
  · -- and the copy has left the second one empty
    rw [hsecond.ops, hfirst.enlarges.block e (hasBlock_of_blockParent hopen.arms.second)
      hopen.ne.symm, hempty.2, List.nil_append]

/-- `predicateWithBranch` ends as its last step does: `replaceOp` of `i` by the finished
conditional, or `eraseOp` of the unfinished one. -/
theorem ends_predicateWithBranch {i : OpId} {pred : Option ValueId} {Q : OpId → Context → Prop}
    {R : Failure → Context → Prop} (h : c.Sound) (hb : (c.graph.op i).block = some b)
    (hk : (c.graph.block b).ops.idxOf? i = some k) (hpred : c.graph.HasOptValue pred)
    (hreplace : ∀ d n t e, Finished c d i pred b k n t e →
      (∀ ty ∈ c.graph.resultTypes i, hasZero ty = true) →
      (replaceOp i ((d.graph.op n).results.map some)).Ends d
        (fun _ d' => Q n { d' with cursor := c.cursor }) fun f d' => R f { d' with cursor := c.cursor })
    (herase : ∀ d n t e ty, Raising c d b k n t e →
      ty ∈ c.graph.resultTypes i → hasZero ty = false →
      (eraseOp n).Ends d
        (fun _ d' => R (.rejected (.noZeroToYield (d'.graph.label i) ty))
          { d' with cursor := c.cursor }) fun f d' => R f { d' with cursor := c.cursor }) :
    (predicateWithBranch i pred).Ends c Q R := by
  refine (gives_cursorBefore hb).ends_bind fun p c₁ _ hc => ?_
  obtain ⟨rfl, rfl⟩ := hc
  refine ends_withCursor ?_
  refine gives_graph.ends_bind fun g c₂ _ hc => ?_
  obtain ⟨rfl, rfl⟩ := hc
  have hp := hasCursor_before h.graph hb (c₁.graph.op i).loc
  -- the conditional
  refine (gives_newIf_raising (h.advance (.move _ hp)) ⟨rfl, hk⟩ hpred _).ends_bind
    fun n c₃ hadv₃ hc => ?_
  obtain ⟨t, e, hopen, hcond, ht, he⟩ := hc
  have hopen := hopen.rebase
  have hloc : (c₃.graph.op n).loc = (c₁.graph.op i).loc := hcond.loc
  -- the block of the copy
  refine (gives_branchCursor_raising (r := 0) hopen rfl).ends_bind fun q c₄ _ hc => ?_
  obtain ⟨rfl, rfl⟩ := hc
  have hq := hopen.hasCursor (Or.inl rfl) (c₄.graph.op n).loc
  refine (gives_withCursor hopen.sound.cursor hq (gives_copyAndYield_raising (hopen.withCursor hq)
    ⟨rfl, rfl⟩ i)).ends_bind fun _ c₅ hadv₅ hc => ?_
  obtain ⟨d, ⟨j, hcopied, happends, hgrow, hwf, hyield⟩, rfl⟩ := hc
  have hcopied := hcopied.withCursor (hopen.sound.advances hadv₅).cursor
  have hloc' : (d.graph.op n).loc = (c₁.graph.op i).loc :=
    (hcond.enlarges hopen.sound.graph hopen.raised.there happends.enlarges).loc
  -- the block of the zeros
  refine (gives_branchCursor_raising (r := 1) hcopied rfl).ends_bind fun q c₆ _ hc => ?_
  obtain ⟨rfl, rfl⟩ := hc
  have hq' := hcopied.hasCursor (Or.inr rfl) (d.graph.op n).loc
  refine (gives_withCursor hcopied.sound.cursor hq' (gives_zerosAndYield_raising
    (hcopied.withCursor hq') ⟨rfl, rfl⟩ _)).ends_bind fun outcome c₇ hadv₇ hc => ?_
  have hsound := hcopied.sound.advances hadv₇
  obtain ⟨f, ⟨js, hdone, happends', hnone, hsome⟩, rfl⟩ := hc
  have hdone := hdone.withCursor hsound.cursor
  -- a result without a zero leaves the second block unfinished
  cases outcome with
  | some ty =>
    obtain ⟨hmem, hzero⟩ := hsome ty rfl
    refine (herase _ n t e ty hdone hmem hzero).bind fun _ c₈ hR => ?_
    exact .of_error rfl hR
  | none =>
    obtain ⟨hzeros, zs, l, rfl, hzs, hyields⟩ := hnone rfl
    refine gives_graph.ends_bind fun g c₈ _ hc => ?_
    obtain ⟨rfl, rfl⟩ := hc
    have hfinished : Finished c₁ { f with cursor := c₄.cursor } i pred b k n t e :=
      finished_of_appends (.trans (.single (.move _ hp)) hadv₃) hopen hcond ⟨ht, he⟩ hcopied
        happends.withCursor hwf hgrow (hloc ▸ hyield) hdone happends'.withCursor (hloc' ▸ hzs)
        (hloc' ▸ hyields)
    exact (hreplace _ n t e hfinished hzeros).bind fun _ _ hQ => .of_ok rfl hQ

end

end Predication

end Multistage
