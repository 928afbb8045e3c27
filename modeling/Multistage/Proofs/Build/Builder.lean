import Multistage.Proofs.Build.Judgements

/-!
# What the building functions do

Each function of the builder, on a sound context and for operations, blocks and values that are
there, only makes moves. Where later arguments need it, the statement also says what the context is
like afterwards: which row was added and where it was placed.
-/

namespace Multistage

open BuildM

/-- The cursor stands at position `k` of a block. -/
def Context.At (c : Context) (b : BlockId) (k : Nat) : Prop :=
  c.cursor.block = some b ∧
    match c.cursor.before with
    | none => k = (c.graph.block b).ops.length
    | some i => (c.graph.block b).ops.idxOf? i = some k

namespace Context.At

variable {c : Context} {b : BlockId} {k : Nat}

/-- `At` gives no position beyond the end of block `b`. -/
theorem le_length (h : c.At b k) : k ≤ (c.graph.block b).ops.length := by
  obtain ⟨-, hk⟩ := h
  cases hbefore : c.cursor.before with
  | none =>
    rw [hbefore] at hk
    exact Nat.le_of_eq hk
  | some i =>
    rw [hbefore] at hk
    exact Nat.le_of_lt (List.idxOf?_eq_some_iff.mp hk).1

/-- The operation that the cursor stands before is at position `k`. -/
theorem getElem? (h : c.At b k) {i : OpId} (hi : c.cursor.before = some i) :
    (c.graph.block b).ops[k]? = some i := by
  obtain ⟨-, hk⟩ := h
  rw [hi] at hk
  obtain ⟨hlt, heq, -⟩ := List.idxOf?_eq_some_iff.mp hk
  exact List.getElem?_eq_some_iff.mpr ⟨hlt, heq⟩

theorem hasBlock (h : c.At b k) (hcursor : c.graph.HasCursor c.cursor) : c.graph.HasBlock b :=
  hcursor.1 b h.1

/-- `At` looks at the cursor and at the operations of block `b` only. -/
theorem congr {c' : Context} (h : c.At b k) (hcursor : c'.cursor = c.cursor)
    (hblock : (c'.graph.block b).ops = (c.graph.block b).ops) : c'.At b k := by
  unfold At at *
  rw [hcursor, hblock]
  exact h

end Context.At

namespace Build

variable {c : Context}

/-! ## The cursor -/

theorem leads_blockOfPoint (i : OpId) :
    (blockOfPoint i).Leads c fun b c' => (c.graph.op i).block = some b ∧ c' = c := by
  refine leads_graph.bind fun g c' _ hc => ?_
  obtain ⟨rfl, rfl⟩ := hc
  cases hb : (c'.graph.op i).block with
  | some b => exact .pure ⟨rfl, rfl⟩
  | none => exact .throw

/-- `next` gives operations that are there. -/
theorem hasOp_next {g : Graph} (h : g.WellFormed) {i j : OpId} (hj : g.next i = some j) :
    g.HasOp j := by
  simp only [Graph.next, Option.bind_eq_bind, Option.bind_eq_some_iff] at hj
  obtain ⟨b, -, k, -, hk⟩ := hj
  exact h.members.hasOp (List.mem_of_getElem? hk)

/-- Before an operation of block `b` a cursor can stand. -/
theorem hasCursor_before {g : Graph} (h : g.WellFormed) {i : OpId} {b : BlockId}
    (hb : (g.op i).block = some b) (loc : Location) :
    g.HasCursor { block := some b, before := some i, loc } := by
  refine ⟨?_, ?_⟩
  · rintro _ ⟨⟩
    exact h.members.hasBlock hb
  · rintro _ ⟨⟩
    exact Graph.hasOp_of_block_eq_some hb

theorem leads_moveBefore (h : c.Sound) (i : OpId) :
    (moveBefore i).Leads c fun _ c' => ∃ b, (c.graph.op i).block = some b ∧
      c' = { c with cursor := { c.cursor with block := some b, before := some i } } := by
  refine (leads_blockOfPoint i).bind fun b c' _ hc => ?_
  obtain ⟨hb, rfl⟩ := hc
  exact (leads_modify (.single (.move _ (hasCursor_before h.graph hb _)))).imp
    fun _ _ _ hc => ⟨b, hb, hc⟩

theorem leads_moveAfter (h : c.Sound) (i : OpId) :
    (moveAfter i).Leads c fun _ c' => ∃ b, (c.graph.op i).block = some b ∧
      c' = { c with cursor := { c.cursor with block := some b, before := c.graph.next i } } := by
  refine (leads_blockOfPoint i).bind fun b c' _ hc => ?_
  obtain ⟨hb, rfl⟩ := hc
  refine (leads_modify (.single (.move _ ⟨?_, fun j hj => hasOp_next h.graph hj⟩))).imp
    fun _ _ _ hc => ⟨b, hb, hc⟩
  rintro _ ⟨⟩
  exact h.graph.members.hasBlock hb

theorem leads_moveToStart (h : c.Sound) {b : BlockId} (hb : c.graph.HasBlock b) :
    (moveToStart b).Leads c fun _ c' => c' = { c with cursor :=
      { c.cursor with block := some b, before := (c.graph.block b).ops.head? } } := by
  refine leads_modify (.single (.move _ ⟨?_, fun i hi => ?_⟩))
  · rintro _ ⟨⟩
    exact hb
  · exact h.graph.members.hasOp (List.mem_of_mem_head? hi)

theorem leads_moveToEnd {b : Option BlockId} (hb : ∀ x ∈ b, c.graph.HasBlock x) :
    (moveToEnd b).Leads c fun _ c' =>
      c' = { c with cursor := { c.cursor with block := b, before := none } } :=
  leads_modify (.single (.move _ ⟨hb, nofun⟩))

theorem leads_setLoc (h : c.Sound) (loc : Location) :
    (setLoc loc).Leads c fun _ c' => c' = { c with cursor := { c.cursor with loc } } :=
  leads_modify (.single (.move _ h.cursor))

theorem leads_position (label : Option OpLabel) :
    (position label).Leads c fun p c' => c.At p.1 p.2 ∧ c' = c := by
  refine leads_cursor.bind fun p c' _ hc => ?_
  obtain ⟨rfl, rfl⟩ := hc
  refine leads_graph.bind fun g c' _ hc => ?_
  obtain ⟨rfl, rfl⟩ := hc
  -- a cursor without a block, or before an operation that has left it, stands nowhere
  cases hblock : c'.cursor.block with
  | none => exact .throw
  | some b =>
    cases hbefore : c'.cursor.before with
    | none =>
      refine .pure ⟨⟨hblock, ?_⟩, rfl⟩
      rw [hbefore]
    | some i =>
      dsimp only
      cases hk : (c'.graph.block b).ops.idxOf? i with
      | none => exact .throw
      | some k =>
        refine .pure ⟨⟨hblock, ?_⟩, rfl⟩
        rw [hbefore]
        exact hk

/-! ## Creating and inserting -/

/-- `createDetached` adds the next row, of the kind that the catalog has for `spec.name`. -/
theorem leads_createDetached {spec : OpSpec} (hspec : c.graph.HasSpec spec) :
    (createDetached spec).Leads c fun i c' => i = c.graph.nextOp ∧
      c' = { c with graph := (c.graph.addOp (c.catalog.find? spec.name) spec).1 } := by
  refine leads_get.bind fun s c' _ hc => ?_
  obtain ⟨rfl, rfl⟩ := hc
  dsimp only
  split
  · -- a number is used up also if the specification does not fit the kind
    refine (gives_modifyGraph (.single .skip)).leads.bind fun _ _ _ _ => ?_
    exact ⟨.refl, trivial⟩
  · next hfit =>
    refine (gives_updateGraph (.single (Graph.edit_addOp hspec fun hdeclared => ?_))).leads.imp
      fun i c' _ hc => hc
    simp only [Bool.and_eq_true, Bool.not_eq_true', decide_eq_true_eq, not_and, Nat.not_lt] at hfit
    exact hfit (List.isEmpty_eq_false_iff.mpr hdeclared)

theorem leads_insert (h : c.Sound) {i : OpId} (hi : c.graph.HasOp i) :
    (insert i).Leads c fun j c' => j = i ∧ ∃ b k, c.At b k ∧ (c.graph.op i).block = none ∧
      (c.graph.op i).erased = false ∧ c' = { c with graph := c.graph.place b k i } := by
  refine leads_graph.bind fun g c' _ hc => ?_
  obtain ⟨rfl, rfl⟩ := hc
  refine (leads_position _).bind fun p c₁ _ hc => ?_
  obtain ⟨b, k⟩ := p
  obtain ⟨hat, rfl⟩ := hc
  -- where the cursor stands there is room for the operation
  refine (leads_tryGraph fun g hg => ?_).bind fun _ c₂ _ hc => ?_
  · exact Graph.edits_insertAt (hat.hasBlock h.cursor) hi hat.le_length hg
  · obtain ⟨g, hg, rfl⟩ := hc
    obtain ⟨hblock, hlive, rfl⟩ := Graph.insertAt_ok hg
    exact .pure ⟨rfl, b, k, hat, hblock, hlive, rfl⟩

/-- What `Build.create` leaves: a new row for `spec`, placed at position `k` of block `b`. -/
def Created (c : Context) (spec : OpSpec) (b : BlockId) (k : Nat) : Context :=
  { c with
    graph := (c.graph.addOp (c.catalog.find? spec.name) spec).1.place b k c.graph.nextOp }

theorem hasOp_addOp (g : Graph) (kind : Option OpKind) (spec : OpSpec) :
    (g.addOp kind spec).1.HasOp g.nextOp := by
  rw [Graph.addOp_eq_install]
  show g.ops.size < (Graph.install _ _ _ _).ops.size
  rw [Graph.size_ops_install]
  exact Nat.lt_succ_self _

theorem leads_create (h : c.Sound) {spec : OpSpec} (hspec : c.graph.HasSpec spec) :
    (create spec).Leads c fun i c' => i = c.graph.nextOp ∧ ∃ b k loc, c.At b k ∧
      c' = Created c { spec with loc } b k := by
  refine leads_cursor.bind fun p c' _ hc => ?_
  obtain ⟨rfl, rfl⟩ := hc
  have hlocated : c'.graph.HasSpec
      { spec with loc := if spec.loc = {} then c'.cursor.loc else spec.loc } := hspec
  refine (leads_createDetached hlocated).bind fun i c₁ hadv hc => ?_
  obtain ⟨rfl, rfl⟩ := hc
  refine (leads_insert (h.advances hadv) (hasOp_addOp _ _ _)).imp fun j c₂ _ hc => ?_
  obtain ⟨rfl, b, k, hat, -, -, rfl⟩ := hc
  -- the new row is in no block yet, so the cursor stands where it stood
  refine ⟨rfl, b, k, _, hat.congr rfl ?_, rfl⟩
  show _ = ((Graph.addOp _ _ _).1.block b).ops
  rw [Graph.addOp_eq_install, Graph.block_install]

/-- What `createValue` gives is a result of the operation that `create` gives. -/
theorem leads_createValue {spec : OpSpec} {P : OpId → Context → Prop}
    (hcreate : (create spec).Leads c P) :
    (createValue spec).Leads c fun v c' => ∃ i, P i c' ∧ v ∈ (c'.graph.op i).results := by
  refine hcreate.bind fun i c₁ _ hi => ?_
  refine leads_graph.bind fun g c₂ _ hc => ?_
  obtain ⟨rfl, rfl⟩ := hc
  refine (leads_present _).imp fun v c₃ _ hc => ?_
  obtain ⟨hv, rfl⟩ := hc
  exact ⟨i, hi, List.mem_of_mem_head? hv⟩

theorem leads_cloneDetached (h : c.Sound) {m : Mapping} (hm : m.Into c.graph) (i : OpId) :
    (cloneDetached i m).Leads c fun p c' => p = ((c.graph.clone i m).1, (c.graph.clone i m).2.2) ∧
      c' = { c with graph := (c.graph.clone i m).2.1 } :=
  (gives_updateGraph (Graph.edits_clone _ h.graph hm i).1).leads

theorem leads_clone (h : c.Sound) {m : Mapping} (hm : m.Into c.graph) (i : OpId) :
    (clone i m).Leads c fun p c' => p = ((c.graph.clone i m).1, (c.graph.clone i m).2.2) ∧
      ∃ b k, Context.At { c with graph := (c.graph.clone i m).2.1 } b k ∧
        c' = { c with graph := (c.graph.clone i m).2.1.place b k (c.graph.clone i m).1 } := by
  refine (leads_cloneDetached h hm i).bind fun p c₁ hadv hc => ?_
  obtain ⟨rfl, rfl⟩ := hc
  -- the copy is in no block, so it can be put where the cursor stands
  have hloose := (Graph.edits_clone c.catalog h.graph hm i).2.1
  refine (leads_insert (h.advances hadv) hloose.there).bind fun j c₂ _ hc => ?_
  obtain ⟨rfl, b, k, hat, -, -, rfl⟩ := hc
  exact .pure ⟨rfl, b, k, hat, rfl⟩

theorem leads_addBlock {i : OpId} (region : Int) :
    (addBlock i region).Leads c fun b c' => 0 ≤ region ∧
      region.toNat < (c.graph.op i).regions.length ∧
      b = (c.graph.addBlock ⟨i, region.toNat⟩).2 ∧
      c' = { c with graph := (c.graph.addBlock ⟨i, region.toNat⟩).1 } := by
  refine leads_graph.bind fun g c' _ hc => ?_
  obtain ⟨rfl, rfl⟩ := hc
  refine (leads_present _).bind fun blocks c₁ _ hc => ?_
  obtain ⟨hpick, rfl⟩ := hc
  unfold pick? at hpick
  split at hpick
  · cases hpick
  · next hregion =>
    obtain ⟨hlt, -⟩ := List.getElem?_eq_some_iff.mp hpick
    -- an operation that is not there has no regions
    have hi : c₁.graph.HasOp i := by
      by_contra hout
      rw [Graph.op_of_not_hasOp hout] at hlt
      exact Nat.not_lt_zero _ hlt
    refine (gives_updateGraph (.single (.addBlock i region.toNat hi hlt))).leads.imp fun b c₂ _ hc => ?_
    exact ⟨by omega, hlt, hc⟩

theorem leads_addArgument {b : BlockId} (hb : c.graph.HasBlock b) (ty : Option Ty) :
    (addArgument b ty).Leads c fun v c' => v = (c.graph.addArgument b ty).2 ∧
      c' = { c with graph := (c.graph.addArgument b ty).1 } :=
  (gives_updateGraph (.single (.addArgument b ty hb))).leads

/-! ## Moving and erasing -/

theorem leads_append {b : BlockId} {i : OpId} (hb : c.graph.HasBlock b) (hi : c.graph.HasOp i) :
    (append b i).Leads c fun _ c' => ∃ g, c.graph.append b i = .ok g ∧ c' = { c with graph := g } :=
  leads_tryGraph fun _ hg => Graph.edits_insertAt hb hi (Nat.le_refl _) hg

/-- `relocate` takes `i` out first, so where it cannot be put before `other`, it stays detached. -/
theorem leads_relocate (h : c.Sound) {i : OpId} (hi : c.graph.HasOp i) (other : OpId) :
    (relocate i other).Leads c fun _ c' => ∃ g,
      (c.graph.detach i).insertBefore i other = .ok g ∧ c' = { c with graph := g } := by
  have hdetach : Graph.Edit c.catalog c.graph (c.graph.detach i) := .detach i
  refine (gives_modifyGraph (.single hdetach)).leads.bind fun _ c₁ _ hc => ?_
  subst hc
  refine leads_tryGraph fun g hg => ?_
  exact Graph.edits_insertBefore (h.graph.edit hdetach).members (hdetach.within.hasOp hi) hg

theorem leads_erase (i : OpId) :
    (erase i).Leads c fun _ c' => ∃ g, c.graph.erase i = .ok g ∧ c' = { c with graph := g } :=
  leads_tryGraph fun _ hg => Graph.edits_erase hg

theorem leads_eraseOp (h : c.Sound) (i : OpId) :
    (eraseOp i).Leads c fun _ c' => ∃ g, c.graph.erase i = .ok g ∧ c'.graph = g := by
  refine leads_cursor.bind fun p c' _ hc => ?_
  obtain ⟨rfl, rfl⟩ := hc
  have hmoved : c'.graph.HasCursor { c'.cursor with before := c'.graph.next i } :=
    ⟨h.cursor.1, fun j hj => hasOp_next h.graph hj⟩
  dsimp only
  split
  · -- the cursor stood before the operation and moves on to the next one
    refine (leads_modify (.single (.move _ hmoved))).bind fun _ c₁ _ hc => ?_
    subst hc
    refine (leads_erase i).imp fun _ c₂ _ hc => ?_
    obtain ⟨g, hg, rfl⟩ := hc
    exact ⟨g, hg, rfl⟩
  · refine (leads_erase i).imp fun _ c₂ _ hc => ?_
    obtain ⟨g, hg, rfl⟩ := hc
    exact ⟨g, hg, rfl⟩

/-- Redirects the uses of the first of each pair to the second, one pair after the other. -/
def replaceAll (g : Graph) (pairs : List (ValueId × Option ValueId)) : Graph :=
  pairs.foldl (fun g (r, v) => g.replaceUses r v) g

theorem edits_replaceAll {cat : Catalog} {g : Graph} (h : g.WellFormed)
    {pairs : List (ValueId × Option ValueId)} (hpairs : ∀ p ∈ pairs, g.HasOptValue p.2) :
    Graph.Edits cat g (replaceAll g pairs) := by
  induction pairs generalizing g with
  | nil => exact .refl
  | cons p rest ih =>
    have hfirst : Graph.Edits cat g (g.replaceUses p.1 p.2) :=
      Graph.edits_replaceUsesIf h.uses p.1 (hpairs p List.mem_cons_self) _
    -- each step may rely on the uses being recorded, which the steps before it kept
    refine hfirst.trans (ih (h.edits hfirst) fun q hq => ?_)
    exact hfirst.within.hasOptValue (hpairs q (List.mem_cons_of_mem p hq))

theorem leads_replaceOp (h : c.Sound) (i : OpId) {vals : List (Option ValueId)}
    (hvals : ∀ v ∈ vals, c.graph.HasOptValue v) :
    (replaceOp i vals).Leads c fun _ c' => vals.length = (c.graph.op i).results.length ∧
      (replaceAll c.graph ((c.graph.op i).results.zip vals)).erase i = .ok c'.graph := by
  refine leads_graph.bind fun g c' _ hc => ?_
  obtain ⟨rfl, rfl⟩ := hc
  dsimp only
  split
  · exact ⟨.refl, trivial⟩
  · next hcount =>
    have hedits : Graph.Edits c'.catalog c'.graph
        (replaceAll c'.graph ((c'.graph.op i).results.zip vals)) :=
      edits_replaceAll h.graph fun p hp => hvals p.2 (List.of_mem_zip hp).2
    refine (gives_modifyGraph hedits).leads.bind fun _ c₁ hadv hc => ?_
    subst hc
    refine (leads_eraseOp (h.advances hadv) i).imp fun _ c₂ _ hc => ?_
    obtain ⟨g, hg, rfl⟩ := hc
    exact ⟨not_not.mp hcount, hg⟩

/-! ## Operands and attributes -/

theorem leads_setSegment (h : c.Sound) (i : OpId) (name : String) {vals : List (Option ValueId)}
    (hvals : ∀ v ∈ vals, c.graph.HasOptValue v) :
    (setSegment i name vals).Leads c fun _ c' => ∃ g,
      c.graph.setSegment i name vals = .ok g ∧ c' = { c with graph := g } :=
  leads_tryGraph fun _ hg => Graph.edits_setSegment h.graph.numbered hvals hg

theorem leads_setOperand (h : c.Sound) (i : OpId) (k : Int) {v : Option ValueId}
    (hv : c.graph.HasOptValue v) : (setOperand i k v).Leads c fun _ c' => ∃ s,
      pick? (c.graph.op i).operands k = some s ∧ c' = { c with graph := c.graph.assign s v } := by
  refine leads_graph.bind fun g c' _ hc => ?_
  obtain ⟨rfl, rfl⟩ := hc
  refine (leads_present _).bind fun s c₁ _ hc => ?_
  obtain ⟨hpick, rfl⟩ := hc
  -- the slot that was picked is one of the operation's own
  have hs : s ∈ (c₁.graph.op i).operands := by
    unfold pick? at hpick
    split at hpick
    · cases hpick
    · exact List.mem_of_getElem? hpick
  refine (gives_modifyGraph (.single (.assign s v ?_ hv))).leads.imp fun _ _ _ hc => ⟨s, hpick, hc⟩
  exact (h.graph.numbered.of_mem hs).1

/-- Attributes and locations may change in any way `f`. -/
theorem leads_describe (i : OpId) (f : Op → Op)
    (hf : ∀ o, ∃ attrs loc, f o = { o with attrs := attrs, loc := loc }) :
    (modifyGraph (·.modifyOp i f)).Leads c fun _ c' =>
      c' = { c with graph := c.graph.modifyOp i f } :=
  (gives_modifyGraph (.single (.describe i f hf))).leads

end Build

end Multistage
