import Multistage.Proofs.Predication.Masking

/-!
# Branches keep an operation verified

An operation without regions is predicated by a conditional right before it: a copy of the operation
and a yield in the first block, zeros and a yield in the second one. While the two blocks are being
filled they are in the draft (`Filling`); once both end in a yield, the conditional takes the place
of the operation (`StandIn.replace`).
-/

namespace Multistage

open BuildM Build

/-! ## Taking the place of an operation -/

namespace Graph

variable {g g' : Graph}

/-- `n` stands before `i` in block `b`, and its blocks have to end in a yield. Nothing is in the way
of erasing `i` but the uses of its results. -/
structure StandIn (g : Graph) (root i n : OpId) (b : BlockId) : Prop where
  inside : g.Inside root i
  leaf : (g.op i).regions = []
  block : (g.op i).block = some b
  block_new : (g.op n).block = some b
  order : [n, i].Sublist (g.block b).ops
  live : (g.op n).erased = false
  terminator : (g.op n).kind.bind (·.terminator) = some Kinds.yield
  notLast : ¬ g.ClosesBlock i

namespace StandIn

variable {root i n : OpId} {b : BlockId}

theorem ne (h : g.StandIn root i n b) (hmembers : g.MembersAgree) : i ≠ n := by
  rintro rfl
  exact absurd (h.order.nodup (hmembers.nodup b)) (by simp)

/-- `StandIn` looks at the rows of the operations that were there and the block that they are in
only. -/
theorem congr (h : g.StandIn root i n b) (hwf : g.WellFormed)
    (hinside : g'.Inside root i ↔ g.Inside root i)
    (hrows : ∀ j, g.HasOp j → (g'.op j).block = (g.op j).block ∧
      (g'.op j).erased = (g.op j).erased ∧ (g'.op j).kind = (g.op j).kind)
    (hleaf : (g'.op i).regions = (g.op i).regions) (hblock : g'.block b = g.block b) :
    g'.StandIn root i n b := by
  obtain ⟨hi, -, -⟩ := hrows i (hasOp_of_block_eq_some h.block)
  obtain ⟨hn, hlive, hkind⟩ := hrows n (hasOp_of_block_eq_some h.block_new)
  refine ⟨hinside.mpr h.inside, hleaf.trans h.leaf, hi.trans h.block, hn.trans h.block_new,
    hblock ▸ h.order, hlive.trans h.live, hkind ▸ h.terminator, ?_⟩
  -- if `i` closed its block now, it would have closed the same block before
  rintro ⟨c, p, t, hc, hp, ht, hlast⟩
  have hcb : c = b := Option.some.inj (hc.symm.trans (hi.trans h.block))
  subst hcb
  rw [blockParent, hblock, ← blockParent] at hp
  obtain ⟨-, -, hpkind⟩ := hrows p (hasOp_of_blockParent hwf hp)
  rw [hpkind] at ht
  rw [hblock] at hlast
  exact h.notLast ⟨c, p, t, h.block, hp, ht, hlast⟩

theorem addBlock (h : g.StandIn root i n b) (hwf : g.WellFormed) (r : Nat) :
    (g.addBlock ⟨n, r⟩).1.StandIn root i n b := by
  refine h.congr hwf (inside_addBlock hwf n r) (fun j _ => ?_) ?_ ?_
  · obtain ⟨hblock, herased, -, -, hkind, -⟩ := op_addBlock_fields g n r j
    exact ⟨hblock, herased, hkind⟩
  · rw [Owned.op_addBlock, if_neg fun hn => h.ne hwf.members hn.1.symm]
  · exact block_addBlock_of_ne g n r (hwf.members.hasBlock h.block).ne_next

theorem inserted (h : g.StandIn root i n b) {o : Op} {vals : List (Option ValueId)}
    {x : BlockId} {k : Nat} (hins : g.Insertable o vals x k) (types : List (Option Ty))
    (hx : b ≠ x) : (g.inserted o vals types x k).StandIn root i n b := by
  have hi := (hasOp_of_block_eq_some h.block).ne_nextOp
  refine h.congr hins.wellFormed (hins.inside_inserted hi) (fun j hj => ?_) ?_ ?_
  · rw [op_inserted_of_ne g o vals types x k hj.ne_nextOp]
    exact ⟨rfl, rfl, rfl⟩
  · rw [op_inserted_of_ne g o vals types x k hi]
  · exact block_inserted_of_ne g o vals types x k hx

theorem standing (h : g.StandIn root i n b) (hwf : g.WellFormed) (hstanding : Standing g g') :
    g'.StandIn root i n b :=
  h.congr hwf hstanding.inside_iff
    (fun j _ => ⟨hstanding.block j, hstanding.erased j, hstanding.kind j⟩) (hstanding.regions i)
    (hstanding.blocks b)

/-- Whoever sees a result of `i` sees the results of `n`. -/
theorem visible (h : g.StandIn root i n b) (hwf : g.WellFormed) {v w : ValueId}
    (hv : v ∈ (g.op i).results) (hw : w ∈ (g.op n).results) {j : OpId} (hj : g.Visible v j) :
    g.Visible w j := by
  obtain ⟨-, k, hsource⟩ := hwf.owned.mem_results_iff.mp hv
  obtain ⟨-, m, hnew⟩ := hwf.owned.mem_results_iff.mp hw
  obtain ⟨-, c, hc, hall⟩ := (visible_of_result hsource j).mp hj
  rw [h.block] at hc
  cases hc
  -- the reader comes after `i`, and `i` after `n`
  refine (visible_of_result hnew j).mpr ⟨h.live, b, h.block_new, fun a ha => ?_⟩
  exact pair_sublist_trans (hwf.members.nodup b) h.order (hall a ha)

/-- Once the results of `i` are replaced by those of `n`, it can be erased. -/
theorem replace (h : g.StandIn root i n b) (hwf : g.WellFormed) (hverified : g.Verified root [])
    (hroot : i ≠ root) {pairs : List (ValueId × Option ValueId)}
    (hpairs : ∀ p ∈ pairs, p.1 ∈ (g.op i).results ∧ ∃ w ∈ (g.op n).results, p.2 = some w)
    (hok : (Build.replaceAll g pairs).erase i = .ok g') : g'.Verified root [] := by
  have hthere : ∀ w ∈ (g.op n).results, g.HasValue w := fun w hw =>
    (hwf.owned.mem_results_iff.mp hw).1
  have hreplaced : (Build.replaceAll g pairs).Verified root [] := by
    refine hverified.replaceAll hwf h.inside fun p hp => ?_
    obtain ⟨hfirst, w, hmem, hw⟩ := hpairs p hp
    exact ⟨hfirst, w, hw, hthere w hmem, fun j hj => h.visible hwf hfirst hmem hj⟩
  have hedits : Edits {} g (Build.replaceAll g pairs) := by
    refine Build.edits_replaceAll hwf fun p hp => ?_
    obtain ⟨-, w, hmem, hw⟩ := hpairs p hp
    rw [hw]
    exact (hthere w hmem).opt
  have hwf' := hwf.edits hedits
  have h' := h.standing hwf (Standing.replaceAll g pairs)
  obtain ⟨hunused, rfl⟩ := erase_ok hwf' (hasOp_of_block_eq_some h'.block) h'.leaf hok
  exact hreplaced.erasedLeaf hwf' hroot h'.leaf hunused h'.notLast

end StandIn

/-- What `n` sees, its empty blocks see. -/
theorem Visible.visibleAt_inner (h : g.MembersAgree) {v : ValueId} {n : OpId}
    (hv : g.Visible v n) {x : BlockId} (hx : g.blockParent x = some n)
    (hempty : (g.block x).ops = []) (k : Nat) : g.VisibleAt v x k := by
  cases hsource : (g.value v).source with
  | argument c m =>
    exact (visibleAt_of_argument hsource x k).mpr ((visible_of_argument hsource n).mp hv)
  | result d m =>
    obtain ⟨hlive, c, hc, hall⟩ := (visible_of_result hsource n).mp hv
    -- the definition lies in some block, and this one is empty
    have hcx : c ≠ x := by
      rintro rfl
      have hmem := (h.mem_iff d c).mp hc
      rw [hempty] at hmem
      cases hmem
    refine (visibleAt_of_result hsource x k).mpr
      ⟨hlive, c, hc, fun heq => absurd heq hcx, fun _ p hp a ha => hall a ?_⟩
    rw [hx] at hp
    cases hp
    exact ha

/-- `n` sees all that `i` reads. -/
def SeesReadsOf (g : Graph) (n i : OpId) : Prop :=
  ∀ v ∈ g.operands i, ∃ w, v = some w ∧ g.HasValue w ∧ g.Visible w n

theorem SeesReadsOf.addBlock {n i : OpId} (hsees : g.SeesReadsOf n i) (h : g.WellFormed) (j : OpId)
    (r : Nat) : (g.addBlock ⟨j, r⟩).1.SeesReadsOf n i := by
  have hoperands : (g.addBlock ⟨j, r⟩).1.operands i = g.operands i := by
    unfold operands
    rw [(op_addBlock_fields g j r i).2.2.1]
    rfl
  intro v hv
  rw [hoperands] at hv
  obtain ⟨w, hw, hthere, hvisible⟩ := hsees v hv
  exact ⟨w, hw, hthere, visible_addBlock h j r hvisible⟩

/-- The conditional `n` has the block `t` for a true condition and `e` for a false one. -/
structure Arms (g : Graph) (n : OpId) (t e : BlockId) : Prop where
  regions : (g.op n).regions = [[t], [e]]
  first : g.blockParent t = some n
  second : g.blockParent e = some n

theorem arms_addBlock {n : OpId} (hn : g.HasOp n) (hregions : (g.op n).regions = [[], []]) :
    ((g.addBlock ⟨n, 0⟩).1.addBlock ⟨n, 1⟩).1.Arms n ⟨g.blocks.size⟩
        ⟨(g.addBlock ⟨n, 0⟩).1.blocks.size⟩ ∧
      ((g.addBlock ⟨n, 0⟩).1.addBlock ⟨n, 1⟩).1.block ⟨g.blocks.size⟩ =
        { home := some ⟨n, 0⟩ } := by
  have hsize : (g.addBlock ⟨n, 0⟩).1.blocks.size = g.blocks.size + 1 := Array.size_push _
  have hne : (⟨g.blocks.size⟩ : BlockId) ≠ ⟨(g.addBlock ⟨n, 0⟩).1.blocks.size⟩ := by
    rw [hsize]
    exact fun heq => absurd (congrArg BlockId.index heq) (Nat.ne_of_lt (Nat.lt_succ_self _))
  have hfirst : ((g.addBlock ⟨n, 0⟩).1.addBlock ⟨n, 1⟩).1.block ⟨g.blocks.size⟩ =
      { home := some ⟨n, 0⟩ } := by
    rw [block_addBlock_of_ne _ _ _ hne, Owned.block_addBlock, if_pos rfl]
  have hrow : ((g.addBlock ⟨n, 0⟩).1.op n).regions = [[⟨g.blocks.size⟩], []] := by
    rw [Owned.op_addBlock, if_pos ⟨rfl, hn⟩, hregions]
    rfl
  have hn' : (g.addBlock ⟨n, 0⟩).1.HasOp n := by
    by_contra hout
    rw [op_of_not_hasOp hout] at hrow
    cases hrow
  refine ⟨⟨?_, ?_, ?_⟩, hfirst⟩
  · rw [Owned.op_addBlock, if_pos ⟨rfl, hn'⟩, hrow]
    rfl
  · rw [blockParent, hfirst]
    rfl
  · rw [blockParent, Owned.block_addBlock, if_pos rfl]
    rfl

/-- `clone` of an operation without regions copies it alone. -/
theorem clone_leaf {i : OpId} (hi : g.HasOp i) (hleaf : (g.op i).regions = []) :
    (g.clone i {}).1 = g.nextOp ∧
      (g.clone i {}).2.1 = g.install (copyRow (g.op i)) (g.operands i) (g.resultTypes i) := by
  have hpos : 0 < g.ops.size := Nat.zero_lt_of_lt hi
  have hget : (g.operands i).map (Mapping.get {}) = g.operands i := List.map_id _
  have hrow : ((copyHead i (g, {})).2.1.op i).regions = [] := by
    rw [copyHead_eq, op_install, if_neg hi.ne_nextOp]
    exact hleaf
  -- the loop over the regions has no turns
  have hclone : g.clone i {} = copyHead i (g, {}) := by
    show copyTree g.ops.size i (g, {}) = _
    rw [← Nat.succ_pred_eq_of_pos hpos, copyTree_succ, hrow]
    rfl
  rw [hclone, copyHead_eq, hget]
  exact ⟨rfl, rfl⟩

end Graph

/-! ## Filling the blocks of the conditional -/

/-- What is put at the end of block `x` sees `v`. -/
def Context.SeesAtEnd (c : Context) (x : BlockId) (v : ValueId) : Prop :=
  c.graph.HasValue v ∧ c.graph.VisibleAt v x (c.graph.block x).ops.length

/-- The conditional `n` is being built before `i`. The blocks in the draft are still being
filled. -/
structure Branching (c : Context) (root i n : OpId) (b t e : BlockId) (draft : List BlockId) :
    Prop where
  sound : c.Sound
  verified : c.graph.Verified root draft
  standIn : c.graph.StandIn root i n b
  arms : c.graph.Arms n t e
  first_ne : b ≠ t
  second_ne : b ≠ e

/-- The cursor stands at the end of block `x` of the conditional. -/
structure Filling (c : Context) (root i n : OpId) (b t e x : BlockId) (draft : List BlockId) : Prop
    extends Branching c root i n b t e (x :: draft) where
  home : c.graph.blockParent x = some n
  other : b ≠ x
  block : c.cursor.block = some x
  atEnd : c.cursor.before = none

/-- A new operation at the end of block `x`: what was seen there is still seen, and so are its
results. -/
structure Appended (c c' : Context) (x : BlockId) (m : OpId) : Prop where
  kept : ∀ v, c.SeesAtEnd x v → c'.SeesAtEnd x v
  results : ∀ v ∈ (c'.graph.op m).results, c'.SeesAtEnd x v
  last : (c'.graph.block x).ops.getLast? = some m

section

variable {c c' : Context} {root i n : OpId} {b t e x : BlockId} {draft : List BlockId}

/-- `Branching` does not look at the cursor. -/
theorem Branching.withCursor (h : Branching c root i n b t e draft) {p : Cursor}
    (hp : c.graph.HasCursor p) : Branching { c with cursor := p } root i n b t e draft :=
  ⟨h.sound.advance (.move p hp), h.verified, h.standIn, h.arms, h.first_ne, h.second_ne⟩

theorem Filling.at_iff (h : Filling c root i n b t e x draft) {y : BlockId} {k : Nat} :
    c.At y k ↔ y = x ∧ k = (c.graph.block x).ops.length := by
  unfold Context.At
  rw [h.block, h.atEnd, Option.some.injEq]
  constructor
  · rintro ⟨rfl, hk⟩
    exact ⟨rfl, hk⟩
  · rintro ⟨rfl, hk⟩
    exact ⟨rfl, hk⟩

theorem Filling.append (h : Filling c root i n b t e x draft) {o : Op}
    {vals : List (Option ValueId)} (types : List (Option Ty))
    (hins : c.graph.Insertable o vals x (c.graph.block x).ops.length)
    (hvals : ∀ v ∈ vals, ∃ w, v = some w ∧ c.SeesAtEnd x w)
    (hgraph : c'.graph = c.graph.inserted o vals types x (c.graph.block x).ops.length)
    (hcursor : c'.cursor = c.cursor) (hadv : c.Advances c') :
    Filling c' root i n b t e x draft ∧ Appended c c' x c.graph.nextOp := by
  have hsound := h.sound.advances hadv
  have hn := (Graph.hasOp_of_block_eq_some h.standIn.block_new).ne_nextOp
  have hparent : ∀ y, c'.graph.blockParent y = c.graph.blockParent y := fun y => by
    rw [hgraph, Graph.blockParent_inserted]
  have hops : (c'.graph.block x).ops = (c.graph.block x).ops ++ [c.graph.nextOp] := by
    rw [hgraph, hins.ops_inserted_self, List.insertIdx_length_self]
  have hlength : (c'.graph.block x).ops.length = (c.graph.block x).ops.length + 1 := by
    rw [hops, List.length_append]
    rfl
  refine ⟨⟨⟨hsound, ?_, ?_, ⟨?_, ?_, ?_⟩, h.first_ne, h.second_ne⟩, ?_, h.other, ?_, ?_⟩,
    fun v hv => ⟨?_, ?_⟩, fun v hv => ⟨?_, ?_⟩, ?_⟩
  · rw [hgraph]
    refine hins.verified_inserted h.verified (fun v hv => ?_) fun hx => ?_
    · obtain ⟨w, hw, hseen⟩ := hvals v hv
      exact ⟨w, hw, hseen.2⟩
    · -- the block is in the draft
      exact absurd List.mem_cons_self hx
  · rw [hgraph]
    exact h.standIn.inserted hins types h.other
  · rw [hgraph, Graph.op_inserted_of_ne _ _ _ _ _ _ hn]
    exact h.arms.regions
  · rw [hparent, h.arms.first]
  · rw [hparent, h.arms.second]
  · rw [hparent, h.home]
  · rw [hcursor, h.block]
  · rw [hcursor, h.atEnd]
  · exact hadv.within.hasValue hv.1
  · rw [hlength, hgraph]
    exact hins.visibleAt_inserted hv.1 hv.2 (Nat.le_succ _)
  · exact (hsound.graph.owned.mem_results_iff.mp hv).1
  · rw [hlength]
    rw [hgraph] at hv ⊢
    exact hins.visibleAt_result hv
  · rw [hops, List.getLast?_concat]

theorem leads_create_filling (h : Filling c root i n b t e x draft) {spec : OpSpec} {k : OpKind}
    (hk : Catalog.builtin.find? spec.name = some k) (hsegments : k.segments = [])
    (hempty : spec.segments = []) (hvals : ∀ v ∈ spec.operands, ∃ w, v = some w ∧ c.SeesAtEnd x w) :
    (create spec).Leads c fun m c' => Filling c' root i n b t e x draft ∧ Appended c c' x m ∧
      (c'.graph.op m).name = spec.name := by
  have hspec : c.graph.HasSpec spec := by
    refine ⟨fun v hv => ?_, by rw [hempty]; nofun⟩
    obtain ⟨w, rfl, hw⟩ := hvals v hv
    exact hw.1.opt
  refine (leads_create h.sound hspec).imp fun m c' hadv hc => ?_
  obtain ⟨rfl, y, l, loc, hat, rfl⟩ := hc
  have hins := insertable h.sound { spec with loc } hspec hat
  obtain ⟨rfl, rfl⟩ := h.at_iff.mp hat
  have hgraph := graph_created c { spec with loc } y (c.graph.block y).ops.length
  have hoperands : c.operandsOf { spec with loc } = spec.operands :=
    operandsOf_of_find? h.sound hk hsegments
  obtain ⟨hfilling, happended⟩ := h.append spec.results hins (by rwa [hoperands]) hgraph rfl hadv
  refine ⟨hfilling, happended, ?_⟩
  rw [hgraph, Context.insertion, Graph.op_inserted_self]
  rfl

theorem leads_createValue_filling (h : Filling c root i n b t e x draft) {spec : OpSpec}
    {k : OpKind} (hk : Catalog.builtin.find? spec.name = some k) (hsegments : k.segments = [])
    (hempty : spec.segments = []) (hvals : ∀ v ∈ spec.operands, ∃ w, v = some w ∧ c.SeesAtEnd x w) :
    (createValue spec).Leads c fun v c' => Filling c' root i n b t e x draft ∧
      (∀ w, c.SeesAtEnd x w → c'.SeesAtEnd x w) ∧ c'.SeesAtEnd x v := by
  refine (leads_createValue (leads_create_filling h hk hsegments hempty hvals)).imp
    fun v c' _ hc => ?_
  obtain ⟨m, ⟨hfilling, happended, -⟩, hv⟩ := hc
  exact ⟨hfilling, happended.kept, happended.results v hv⟩

/-- A copy of `i` at the end of the block. -/
theorem leads_clone_filling (h : Filling c root i n b t e x draft)
    (hreads : ∀ v ∈ c.graph.operands i, ∃ w, v = some w ∧ c.SeesAtEnd x w) :
    (clone i {}).Leads c fun p c' => Filling c' root i n b t e x draft ∧ Appended c c' x p.1 := by
  have hi := Graph.hasOp_of_block_eq_some h.standIn.block
  have hx := h.sound.cursor.1 x h.block
  refine (leads_clone h.sound (fun _ he => absurd he List.not_mem_nil) i).imp fun p c' hadv hc => ?_
  obtain ⟨rfl, y, k, hat, rfl⟩ := hc
  obtain ⟨hnew, hcopy⟩ := Graph.clone_leaf hi h.standIn.leaf
  have hat' : c.At y k := hat.congr rfl (by rw [hcopy, Graph.block_install])
  obtain ⟨rfl, rfl⟩ := h.at_iff.mp hat'
  have hins : c.graph.Insertable (Graph.copyRow (c.graph.op i)) (c.graph.operands i) y
      (c.graph.block y).ops.length := by
    refine ⟨h.sound.graph, Graph.blank_copyRow _, fun v hv => ?_, hx, Nat.le_refl _⟩
    obtain ⟨w, rfl, hw⟩ := hreads v hv
    exact hw.1.opt
  rw [hnew] at hadv ⊢
  refine h.append (c.graph.resultTypes i) hins hreads ?_ rfl hadv
  show Graph.place _ _ _ _ = _
  rw [hcopy]
  rfl

/-- `yield` closes the block `x`. -/
theorem leads_yield_filling (h : Filling c root i n b t e x draft) {vals : List ValueId}
    (hvals : ∀ v ∈ vals, c.SeesAtEnd x v) :
    (discard <| Ops.yield (vals.map some)).Leads c fun _ c' =>
      Branching c' root i n b t e draft := by
  have hseen : ∀ v ∈ vals.map some, ∃ w, v = some w ∧ c.SeesAtEnd x w := by
    intro v hv
    obtain ⟨w, hw, rfl⟩ := List.mem_map.mp hv
    exact ⟨w, rfl, hvals w hw⟩
  have hkind : Catalog.builtin.find? Kinds.yield =
      some { name := Kinds.yield, isTerminator := true } := by decide
  refine (leads_create_filling h hkind rfl rfl hseen).bind fun m c' _ hc => ?_
  obtain ⟨hfilling, happended, hname⟩ := hc
  -- the block ends in a yield now, so it may leave the draft
  refine .pure { hfilling.toBranching with verified := hfilling.verified.close fun p hp y hy => ?_ }
  rw [hfilling.home] at hp
  cases hp
  rw [hfilling.standIn.terminator] at hy
  cases hy
  exact ⟨m, happended.last, hname⟩

/-- A new operation right before `i` can take its place, if its blocks have to end in a yield. -/
theorem Poised.standIn (h : Poised c root i) (hleaf : (c.graph.op i).regions = [])
    (hlast : ¬ c.graph.ClosesBlock i) {spec : OpSpec} (hspec : c.graph.HasSpec spec)
    (hterminator : (c.catalog.find? spec.name).bind (·.terminator) = some Kinds.yield) {k : Nat}
    (hat : c.At b k) :
    (c.insertion spec b k).StandIn root i c.graph.nextOp b ∧
      (c.insertion spec b k).SeesReadsOf c.graph.nextOp i := by
  have hins := insertable h.sound spec hspec hat
  have hi := h.hasOp.ne_nextOp
  have hget := h.getElem?_of_at hat
  have hk : k < (c.graph.block b).ops.length := (List.getElem?_eq_some_iff.mp hget).1
  have hblock : (c.graph.op i).block = some b := h.block.symm.trans hat.1
  have hrow : (c.insertion spec b k).op i = c.graph.op i := Graph.op_inserted_of_ne _ _ _ _ _ _ hi
  have hnew : (c.insertion spec b k).op c.graph.nextOp = _ := Graph.op_inserted_self _ _ _ _ _ _
  have hops : ((c.insertion spec b k).block b).ops =
      (c.graph.block b).ops.insertIdx k c.graph.nextOp := hins.ops_inserted_self
  refine ⟨⟨(hins.inside_inserted hi).mpr h.inside, hrow ▸ hleaf, hrow ▸ hblock, ?_, ?_, ?_, ?_, ?_⟩,
    fun v hv => ?_⟩
  · rw [hnew]
  · rw [hops, insertIdx_eq_append (Nat.le_of_lt hk), List.drop_eq_getElem_cons hk,
      (List.getElem?_eq_some_iff.mp hget).2]
    exact List.sublist_append_of_sublist_right
      ((List.nil_sublist _).cons_cons i |>.cons_cons c.graph.nextOp)
  · rw [hnew]
    rfl
  · rw [hnew]
    exact hterminator
  · -- what comes last in the block is the same with the new operation before `i`
    rintro ⟨x, p, t, hx, hp, ht, hend⟩
    rw [hrow, hblock] at hx
    cases hx
    rw [Context.insertion, Graph.blockParent_inserted] at hp
    rw [Context.insertion, Graph.op_inserted_of_ne _ _ _ _ _ _
      (Graph.hasOp_of_blockParent h.sound.graph hp).ne_nextOp] at ht
    rw [hops, getLast?_insertIdx hk] at hend
    exact hlast ⟨b, p, t, hblock, hp, ht, hend⟩
  · obtain ⟨s, hs, rfl⟩ := List.mem_map.mp hv
    rw [hrow] at hs
    obtain ⟨w, hw, hvisible⟩ := (h.verified i h.inside).reads s hs
    have hold := (h.sound.graph.numbered.of_mem hs).1
    have hthere := h.sound.graph.uses.held s w hw
    refine ⟨w, ?_, ?_, ?_⟩
    · rw [Context.insertion, Graph.slot_inserted, Graph.slot_install_of_hasSlot _ _ _ _ hold]
      exact hw
    · exact (Graph.within_install _ _ _ _).hasValue hthere
    · exact hins.visible_inserted_self hthere ((h.visible_iff hat).mp hvisible)

end

namespace Predication

open Ops

variable {c : Context} {root i n : OpId} {b t e x : BlockId} {draft : List BlockId}
  {pred : ValueId}

/-- The first block: a copy of `i`, and a `yield` of its results. -/
theorem leads_copyAndYield (h : Filling c root i n b t e x draft)
    (hreads : ∀ v ∈ c.graph.operands i, ∃ w, v = some w ∧ c.SeesAtEnd x w) :
    Leads (do
      let (copy, _) ← clone i {}
      let results := ((← graph).op copy).results
      discard <| yield (results.map some)) c fun _ c' => Branching c' root i n b t e draft := by
  refine (leads_clone_filling h hreads).bind fun p c₁ _ hc => ?_
  obtain ⟨hfilling, happended⟩ := hc
  refine leads_graph.bind fun g c₂ _ hc => ?_
  obtain ⟨rfl, rfl⟩ := hc
  exact leads_yield_filling hfilling happended.results

/-- `zeros`, whether they are all there or not. -/
theorem leads_zeros (h : Filling c root i n b t e x draft) (types : List (Option Ty)) :
    (zeros types).Leads c fun zs c' => Filling c' root i n b t e x draft ∧
      (∀ v, c.SeesAtEnd x v → c'.SeesAtEnd x v) ∧
      ∀ vs, zs = .ok vs → ∀ v ∈ vs, c'.SeesAtEnd x v := by
  induction types generalizing c with
  | nil => exact .pure ⟨h, fun _ hv => hv, fun vs hvs => by cases hvs; nofun⟩
  | cons ty rest ih =>
    unfold zeros
    split
    · exact .pure ⟨h, fun _ hv => hv, nofun⟩
    have hkind : Catalog.builtin.find? Kinds.constant = some { name := Kinds.constant } := by decide
    have hzero : (zeroConstant ty).Leads c fun v c' => Filling c' root i n b t e x draft ∧
        (∀ w, c.SeesAtEnd x w → c'.SeesAtEnd x w) ∧ c'.SeesAtEnd x v := by
      unfold zeroConstant
      split
      · exact leads_createValue_filling h hkind rfl rfl nofun
      · exact .throw
    refine hzero.bind fun z c₁ _ hc => ?_
    obtain ⟨hfilling, hkept, hz⟩ := hc
    refine (ih hfilling).bind fun zs c₂ _ hc => ?_
    obtain ⟨hfilling', hkept', hzs⟩ := hc
    cases zs with
    | error ty => exact .pure ⟨hfilling', fun v hv => hkept' v (hkept v hv), nofun⟩
    | ok vs =>
      refine .pure ⟨hfilling', fun v hv => hkept' v (hkept v hv), fun ws hws v hv => ?_⟩
      cases hws
      rcases List.mem_cons.mp hv with rfl | hv
      · exact hkept' _ hz
      · exact hzs vs rfl v hv

/-- The second block: `zeros` and a `yield` of them, if all types have one. -/
theorem leads_zerosAndYield (h : Filling c root i n b t e x draft) (types : List (Option Ty)) :
    Leads (do
      match ← zeros types with
      | .ok zs =>
        discard <| yield (zs.map some)
        return none
      | .error ty => return some ty) c fun outcome c' =>
        outcome = none → Branching c' root i n b t e draft := by
  refine (leads_zeros h types).bind fun zs c₁ _ hc => ?_
  obtain ⟨hfilling, -, hzs⟩ := hc
  cases zs with
  | error ty => exact .pure nofun
  | ok vs =>
    refine (leads_yield_filling hfilling (hzs vs rfl)).bind fun _ c₂ _ hc => ?_
    exact .pure fun _ => hc

/-! ## The conditional -/

/-- A conditional on `pred` without blocks. -/
def conditional (pred : ValueId) (types : List (Option Ty)) : OpSpec :=
  { name := Kinds.ifElse, segments := [[some pred]], results := types }

theorem leads_create_conditional (h : Poised c root i) (hpred : c.Sees i pred)
    (hleaf : (c.graph.op i).regions = []) (hlast : ¬ c.graph.ClosesBlock i)
    (types : List (Option Ty)) :
    (create (conditional pred types)).Leads c fun n c' => c'.graph.Verified root [] ∧
      (∃ b, c'.graph.StandIn root i n b) ∧ c'.graph.SeesReadsOf n i ∧
      (c'.graph.op n).regions = [[], []] := by
  have hkind : Catalog.builtin.find? Kinds.ifElse = some
      { name := Kinds.ifElse, segments := [Seg.condition], effects := .nested, regions := 2,
        terminator := some Kinds.yield } := by decide
  have hfound := h.sound.catalog _ _ hkind
  have hspec : c.graph.HasSpec (conditional pred types) := by
    refine ⟨nofun, fun vals hvals v hv => ?_⟩
    rw [List.mem_singleton.mp hvals] at hv
    rw [List.mem_singleton.mp hv]
    exact hpred.1.opt
  have hvals : ∀ v ∈ c.operandsOf (conditional pred types), ∃ w, v = some w ∧
      c.graph.Visible w i := by
    intro v hv
    rw [Context.operandsOf, conditional, hfound] at hv
    exact ⟨pred, List.mem_singleton.mp hv, hpred.2⟩
  refine (leads_create_poised h hspec hvals).imp fun n c' _ hc => ?_
  obtain ⟨rfl, hpoised, -, -, b, k, loc, hat, rfl⟩ := hc
  have hgraph := graph_created c { conditional pred types with loc } b k
  have hspec' : c.graph.HasSpec { conditional pred types with loc } := hspec
  obtain ⟨hstandIn, hsees⟩ := h.standIn hleaf hlast hspec'
    (by rw [conditional, hfound]; rfl) hat
  rw [← hgraph] at hstandIn hsees
  refine ⟨hpoised.verified, ⟨b, hstandIn⟩, hsees, ?_⟩
  rw [hgraph, Context.insertion, Graph.op_inserted_self, conditional, hfound]
  rfl

/-- `newIf` gives the conditional with its two blocks, which are still empty. -/
theorem leads_newIf (h : Poised c root i) (hpred : c.Sees i pred)
    (hleaf : (c.graph.op i).regions = []) (hlast : ¬ c.graph.ClosesBlock i)
    (types : List (Option Ty)) :
    (newIf types (some pred) true).Leads c fun n c' => ∃ b t e,
      Branching c' root i n b t e [t, e] ∧
      ∀ v ∈ c'.graph.operands i, ∃ w, v = some w ∧ c'.SeesAtEnd t w := by
  refine (leads_create_conditional h hpred hleaf hlast types).bind fun n c₁ hadv hc => ?_
  obtain ⟨hverified, ⟨b, hstandIn⟩, hsees, hregions⟩ := hc
  have hsound := h.sound.advances hadv
  have hfirst : (discard (addBlock n 0)).Leads c₁ fun _ c' =>
      c' = { c₁ with graph := (c₁.graph.addBlock ⟨n, 0⟩).1 } :=
    (leads_addBlock 0).bind fun _ _ _ hc => .pure hc.2.2.2
  refine hfirst.bind fun _ c₂ hadv₂ hc₂ => ?_
  have hsound₂ := hsound.advances hadv₂
  have hsecond : (discard (addBlock n 1)).Leads c₂ fun _ c' =>
      c' = { c₂ with graph := (c₂.graph.addBlock ⟨n, 1⟩).1 } :=
    (leads_addBlock 1).bind fun _ _ _ hc => .pure hc.2.2.2
  dsimp only
  rw [if_pos rfl]
  refine hsecond.bind fun _ c₃ hadv₃ hc₃ => .pure ?_
  have hsound₃ := hsound₂.advances hadv₃
  have hn := Graph.hasOp_of_block_eq_some hstandIn.block_new
  have hb := hsound.graph.members.hasBlock hstandIn.block
  have hb₂ := hadv₂.within.hasBlock hb
  obtain ⟨harms, hfirst⟩ := Graph.arms_addBlock hn hregions
  subst hc₂ hc₃
  have hsees₃ := (hsees.addBlock hsound.graph n 0).addBlock hsound₂.graph n 1
  refine ⟨b, _, _, ⟨hsound₃, ?_, (hstandIn.addBlock hsound.graph 0).addBlock hsound₂.graph 1, harms,
    hb.ne_next, hb₂.ne_next⟩, fun v hv => ?_⟩
  · refine ((hverified.addBlock hsound.graph n 0).addBlock hsound₂.graph n 1).mono ?_
    exact (List.Perm.swap _ _ []).subset
  · obtain ⟨w, hw, hthere, hvisible⟩ := hsees₃ v hv
    exact ⟨w, hw, hthere, hvisible.visibleAt_inner hsound₃.graph.members harms.first
      (congrArg Block.ops hfirst) _⟩

theorem leads_cursorBefore (h : c.Sound) (i : OpId) :
    (cursorBefore i).Leads c fun p c' => c' = c ∧ c.graph.HasCursor p ∧
      p.block = (c.graph.op i).block ∧ p.before = some i := by
  refine (leads_blockOfPoint i).bind fun b c₁ _ hc => ?_
  obtain ⟨hb, rfl⟩ := hc
  refine leads_graph.bind fun g c₂ _ hc => .pure ?_
  obtain ⟨rfl, rfl⟩ := hc
  exact ⟨rfl, hasCursor_before h.graph hb _, hb.symm, rfl⟩

/-- `branchCursor` is at the end of one of the two blocks. -/
theorem leads_branchCursor (h : Branching c root i n b t e (x :: draft)) {r : Nat}
    (hregion : [[t], [e]][r]? = some [x]) (hhome : c.graph.blockParent x = some n)
    (hother : b ≠ x) :
    (branchCursor n r).Leads c fun p c' => c' = c ∧ c.graph.HasCursor p ∧
      Filling { c with cursor := p } root i n b t e x draft := by
  have hblock : (branchBlock n r).Leads c fun block c' => block = some x ∧ c' = c := by
    refine leads_graph.bind fun g c₁ _ hc => ?_
    obtain ⟨rfl, rfl⟩ := hc
    refine (leads_present _).imp fun block c₂ _ hc => ?_
    obtain ⟨hfront, rfl⟩ := hc
    rw [Graph.frontBlock?, h.arms.regions, hregion] at hfront
    cases hfront
    exact ⟨rfl, rfl⟩
  refine hblock.bind fun block c₁ _ hc => ?_
  obtain ⟨rfl, rfl⟩ := hc
  refine leads_graph.bind fun g c₂ _ hc => .pure ?_
  obtain ⟨rfl, rfl⟩ := hc
  have hthere : c₂.graph.HasCursor
      { block := some x, before := none, loc := (c₂.graph.op n).loc } := by
    refine ⟨?_, nofun⟩
    rintro _ ⟨⟩
    exact Graph.hasBlock_of_blockParent hhome
  exact ⟨rfl, hthere, h.withCursor hthere, hhome, hother, rfl, rfl⟩

/-- `predicateWithBranch` keeps `root` verified. -/
theorem leads_predicateWithBranch (h : c.Sound) (hverified : c.graph.Verified root [])
    (hinside : c.graph.Inside root i) (hroot : i ≠ root) (hleaf : (c.graph.op i).regions = [])
    (hlast : ¬ c.graph.ClosesBlock i) (hpred : c.Sees i pred) :
    (predicateWithBranch i (some pred)).Leads c fun _ c' => c'.graph.Verified root [] := by
  refine (leads_cursorBefore h i).bind fun p c₁ _ hc => ?_
  obtain ⟨rfl, hp, hblock, hbefore⟩ := hc
  have hpoised : Poised { c₁ with cursor := p } root i :=
    ⟨h.advance (.move p hp), hverified, hinside, hblock, hbefore⟩
  refine Leads.imp (P := fun _ c' => ∃ d : Context, d.graph.Verified root [] ∧
    c' = { d with cursor := c₁.cursor }) (leads_withCursor h.cursor hp ?_) fun _ _ _ hc => ?_
  · refine leads_graph.bind fun g c₂ _ hc => ?_
    obtain ⟨rfl, rfl⟩ := hc
    dsimp only
    refine (leads_newIf hpoised hpred hleaf hlast _).bind fun n c₃ _ hc => ?_
    obtain ⟨b, t, e, hopen, hreads⟩ := hc
    -- the block of the copy
    refine (leads_branchCursor (r := 0) hopen rfl hopen.arms.first hopen.first_ne).bind
      fun q c₄ _ hc => ?_
    obtain ⟨rfl, hq, hfilling⟩ := hc
    refine (leads_withCursor hopen.sound.cursor hq (leads_copyAndYield hfilling hreads)).bind
      fun _ c₅ hadv hc => ?_
    obtain ⟨d, hcopied, rfl⟩ := hc
    have hcopied := hcopied.withCursor (hopen.sound.advances hadv).cursor
    -- the block of the zeros
    refine (leads_branchCursor (r := 1) hcopied rfl hcopied.arms.second hcopied.second_ne).bind
      fun q c₆ _ hc => ?_
    obtain ⟨rfl, hq, hfilling⟩ := hc
    refine (leads_withCursor hcopied.sound.cursor hq (leads_zerosAndYield hfilling _)).bind
      fun outcome c₇ hadv hc => ?_
    have hsound := hcopied.sound.advances hadv
    obtain ⟨f, hdone, rfl⟩ := hc
    cases outcome with
    | some ty =>
      -- a result without a zero: the conditional is given up, and the call fails
      refine (leads_eraseOp hsound n).bind fun _ c₈ _ _ => ?_
      exact leads_graph.bind fun _ _ _ _ => .throw
    | none =>
      have hdone := hdone rfl
      refine leads_graph.bind fun g c₈ _ hc => ?_
      obtain ⟨rfl, rfl⟩ := hc
      have hthere : ∀ v ∈ (f.graph.op n).results.map some, f.graph.HasOptValue v :=
        Graph.hasOptValue_of_mem_map fun v hv => (hsound.graph.owned.mem_results_iff.mp hv).1
      refine (leads_replaceOp hsound i hthere).bind fun _ c₉ _ hc => .pure ?_
      refine hdone.standIn.replace hsound.graph hdone.verified hroot (fun p hp => ?_) hc.2
      obtain ⟨hfirst, hsecond⟩ := List.of_mem_zip hp
      obtain ⟨w, hw, heq⟩ := List.mem_map.mp hsecond
      exact ⟨hfirst, w, hw, heq.symm⟩
  · obtain ⟨d, hd, rfl⟩ := hc
    exact hd

end Predication

end Multistage
