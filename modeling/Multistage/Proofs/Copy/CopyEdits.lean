import Multistage.Proofs.Graph.EditSequences

/-!
# Copying is a sequence of edits

A copy is made of new operations, new blocks and new arguments, and every copied operation is put
into a copied block right after it was made. What was there before keeps its place. The induction is
on the depth of the copied tree; the loops over regions, blocks and operations carry along that the
graph only grew (`Grows`).
-/

namespace Multistage

/-! ## Mappings -/

namespace Mapping

/-- The values that `m` puts in place of others are there in `g`. -/
def Into (m : Mapping) (g : Graph) : Prop := ∀ e ∈ m.entries, g.HasOptValue e.2

variable {m : Mapping} {g g' : Graph}

theorem Into.mono (h : m.Into g) (hwithin : g.Within g') : m.Into g' :=
  fun e he => hwithin.hasOptValue (h e he)

/-- What holds of all replacements of `m` and of `v` holds of `m.get v`. -/
theorem get_of_forall {P : Option ValueId → Prop} (h : ∀ e ∈ m.entries, P e.2) {v : Option ValueId}
    (hv : P v) : P (m.get v) := by
  unfold Mapping.get
  cases hnew : m.entries.lookup v with
  | none => exact hv
  | some new =>
    obtain ⟨before, after, hentries, -⟩ := List.lookup_eq_some_iff.mp hnew
    refine h (v, new) ?_
    rw [hentries]
    exact List.mem_append_right _ List.mem_cons_self

theorem forall_insertAll {P : Option ValueId → Prop} (h : ∀ e ∈ m.entries, P e.2)
    {vs news : List ValueId} (hnews : ∀ v ∈ news, P (some v)) :
    ∀ e ∈ (m.insertAll vs news).entries, P e.2 := by
  induction vs generalizing m news with
  | nil => exact h
  | cons v rest ih =>
    cases news with
    | nil => exact h
    | cons new news =>
      have hinsert : ∀ e ∈ (m.insert (some v) (some new)).entries, P e.2 := by
        intro e he
        rcases List.mem_cons.mp he with rfl | he
        · exact hnews new List.mem_cons_self
        · exact h e he
      exact ih hinsert fun w hw => hnews w (List.mem_cons_of_mem new hw)

theorem Into.get (h : m.Into g) {v : Option ValueId} (hv : g.HasOptValue v) :
    g.HasOptValue (m.get v) :=
  get_of_forall h hv

theorem Into.insertAll (h : m.Into g) {vs news : List ValueId} (hnews : ∀ v ∈ news, g.HasValue v) :
    (m.insertAll vs news).Into g :=
  forall_insertAll h fun v hv => (hnews v hv).opt

end Mapping

namespace Graph

/-! ## The parts of a copy -/

theorem modifyBlock_congr {g : Graph} {b : BlockId} {f f' : Block → Block}
    (h : f (g.block b) = f' (g.block b)) : g.modifyBlock b f = g.modifyBlock b f' := by
  -- one row is changed, so the two functions need to agree on that row only
  have hblocks : g.blocks.modify b.index f = g.blocks.modify b.index f' := by
    refine Array.ext (by rw [Array.size_modify, Array.size_modify]) fun k hk hk' => ?_
    rw [Array.getElem_modify, Array.getElem_modify]
    split
    · next hbk =>
      subst hbk
      rw [Array.size_modify] at hk
      have hrow : g.block b = g.blocks[b.index] := by
        rw [block, Array.getD_eq_getD_getElem?, Array.getElem?_eq_getElem hk]
        rfl
      rwa [hrow] at h
    · rfl
  rw [modifyBlock, hblocks, ← modifyBlock]

/-- The row that a copy of `o` starts from. -/
def copyRow (o : Op) : Op :=
  { o with operands := [], results := [], block := none, erased := false,
           regions := o.regions.map fun _ => [] }

theorem blank_copyRow (o : Op) : (copyRow o).Blank where
  operands := rfl
  results := rfl
  block := rfl
  live := rfl
  regions blocks h := by
    obtain ⟨_, -, rfl⟩ := List.mem_map.mp h
    rfl

/-- The copy of a head reads what `m` says, and its results are entered. -/
theorem copyHead_eq (i : OpId) (g : Graph) (m : Mapping) :
    copyHead i (g, m) =
      (g.nextOp, g.install (copyRow (g.op i)) ((g.operands i).map m.get) (g.resultTypes i),
        m.insertAll (g.op i).results (valuesFrom g.values.size (g.resultTypes i).length)) := by
  have hresults := snd_addValues
    ((g.pushOp (copyRow (g.op i))).addSlots g.nextOp 0 ((g.operands i).map m.get)).1
    (.result g.nextOp) 0 (g.resultTypes i)
  rw [size_values_addSlots] at hresults
  have hsize : (g.pushOp (copyRow (g.op i))).values.size = g.values.size := rfl
  rw [hsize] at hresults
  rw [← hresults]
  rfl

theorem copyBlock_eq (r : RegionId) (b : BlockId) (g : Graph) (m : Mapping) :
    copyBlock r b (g, m) =
      ((g.addBlock r).2,
        ((g.addBlock r).1.addArguments (g.addBlock r).2 ((g.block b).args.map g.typeOf)).1,
        m.insertAll (g.block b).args
          ((g.addBlock r).1.addArguments (g.addBlock r).2 ((g.block b).args.map g.typeOf)).2) :=
  rfl

theorem adopt_eq (b : BlockId) (i : OpId) (g : Graph) (m : Mapping) :
    adopt b i (g, m) = ((), g.place b (g.block b).ops.length i, m) := by
  have hplace : g.place b (g.block b).ops.length i =
      (g.modifyBlock b fun x => { x with ops := x.ops ++ [i] }).modifyOp i
        fun o => { o with block := some b } := by
    rw [place]
    congr 1
    refine modifyBlock_congr ?_
    rw [List.insertIdx_length_self]
  rw [hplace]
  rfl

theorem hasValue_addArguments {g : Graph} (b : BlockId) (types : List (Option Ty)) :
    g.Within (g.addArguments b types).1 ∧
      ∀ v ∈ (g.addArguments b types).2, (g.addArguments b types).1.HasValue v := by
  induction types generalizing g with
  | nil => exact ⟨Within.refl g, nofun⟩
  | cons ty rest ih =>
    obtain ⟨hwithin, hrest⟩ := ih (g := (g.addArgument b ty).1)
    have hsize : (g.addArgument b ty).1.values.size = g.values.size + 1 := Array.size_push _
    have hfirst : g.Within (g.addArgument b ty).1 :=
      ⟨Nat.le_refl _, Nat.le_of_eq Array.size_modify.symm, by rw [hsize]; omega, Nat.le_refl _⟩
    refine ⟨hfirst.trans hwithin, fun v hv => ?_⟩
    rcases List.mem_cons.mp hv with rfl | hv
    · refine hwithin.hasValue ?_
      show g.values.size < (g.addArgument b ty).1.values.size
      rw [hsize]
      exact Nat.lt_succ_self _
    · exact hrest v hv

/-! ## What copying keeps -/

/-- A later state of a copy: `Edits` away, with every operation that was there in its place, and
with replacements that are there. -/
structure Grows (cat : Catalog) (s s' : Graph × Mapping) : Prop where
  path : Edits cat s.1 s'.1
  kept : ∀ i, s.1.HasOp i →
    (s'.1.op i).block = (s.1.op i).block ∧ (s'.1.op i).erased = (s.1.op i).erased
  into : s'.2.Into s'.1

namespace Grows

variable {cat : Catalog} {s s' s'' : Graph × Mapping}

theorem refl (h : s.2.Into s.1) : Grows cat s s := ⟨.refl, fun _ _ => ⟨rfl, rfl⟩, h⟩

theorem trans (h : Grows cat s s') (h' : Grows cat s' s'') : Grows cat s s'' where
  path := h.path.trans h'.path
  kept i hi := by
    obtain ⟨hblock, herased⟩ := h'.kept i (h.path.within.hasOp hi)
    exact ⟨hblock.trans (h.kept i hi).1, herased.trans (h.kept i hi).2⟩
  into := h'.into

end Grows

/-- A new operation `i` that waits for a place. -/
structure Loose (g : Graph) (i : OpId) : Prop where
  there : g.HasOp i
  block : (g.op i).block = none
  live : (g.op i).erased = false

section

variable {cat : Catalog} {g : Graph} {m : Mapping}

theorem grows_copyHead (cat : Catalog) (h : g.WellFormed) (hm : m.Into g) (i : OpId) :
    Grows cat (g, m) (copyHead i (g, m)).2 ∧ (copyHead i (g, m)).1 = g.nextOp ∧
      (copyHead i (g, m)).2.1.Loose g.nextOp := by
  rw [copyHead_eq]
  have hvals : ∀ v ∈ (g.operands i).map m.get, g.HasOptValue v := by
    intro v hv
    obtain ⟨u, hu, rfl⟩ := List.mem_map.mp hv
    obtain ⟨s, -, rfl⟩ := List.mem_map.mp hu
    exact hm.get (h.uses.hasOptValue_slot s)
  have hedit : Edit cat g
      (g.install (copyRow (g.op i)) ((g.operands i).map m.get) (g.resultTypes i)) := by
    refine .install _ _ _ (blank_copyRow _) (.copied i rfl rfl rfl ?_) hvals
    rw [List.length_map, operands, List.length_map]
  have hrow := op_install g (copyRow (g.op i)) ((g.operands i).map m.get) (g.resultTypes i)
  refine ⟨⟨.single hedit, fun j hj => ?_, ?_⟩, rfl, ⟨?_, ?_, ?_⟩⟩
  · show ((g.install _ _ _).op j).block = _ ∧ ((g.install _ _ _).op j).erased = _
    rw [hrow, if_neg (HasOp.ne_nextOp hj)]
    exact ⟨rfl, rfl⟩
  · refine (hm.mono hedit.within).insertAll fun v hv => ?_
    rw [HasValue, size_values_install]
    exact (mem_valuesFrom.mp hv).2
  · show g.ops.size < _
    rw [size_ops_install]
    exact Nat.lt_succ_self _
  · show ((g.install _ _ _).op _).block = none
    rw [hrow, if_pos rfl]
    rfl
  · show ((g.install _ _ _).op _).erased = false
    rw [hrow, if_pos rfl]
    rfl

theorem grows_copyBlock (cat : Catalog) (hm : m.Into g) {r : RegionId} (hr : g.HasOp r.op)
    (hregion : r.index < (g.op r.op).regions.length) (b : BlockId) :
    Grows cat (g, m) (copyBlock r b (g, m)).2 ∧
      (copyBlock r b (g, m)).2.1.HasBlock (copyBlock r b (g, m)).1 := by
  rw [copyBlock_eq]
  have hadd : Edit cat g (g.addBlock r).1 := .addBlock r.op r.index hr hregion
  have hnew : (g.addBlock r).1.HasBlock (g.addBlock r).2 := by
    show g.blocks.size < (g.blocks.push { home := some r }).size
    rw [Array.size_push]
    exact Nat.lt_succ_self _
  have hargs : Edits cat (g.addBlock r).1 _ :=
    edits_addArguments hnew ((g.block b).args.map g.typeOf)
  obtain ⟨hwithin, hvalues⟩ := hasValue_addArguments (g := (g.addBlock r).1) (g.addBlock r).2
    ((g.block b).args.map g.typeOf)
  refine ⟨⟨.head hadd hargs, fun i hi => ?_, ?_⟩, hwithin.hasBlock hnew⟩
  · have hops : ∀ (g' : Graph) (c : BlockId) (types : List (Option Ty)),
        (g'.addArguments c types).1.op i = g'.op i := by
      intro g' c types
      induction types generalizing g' with
      | nil => rfl
      | cons ty rest ih => exact (ih (g'.addArgument c ty).1).trans rfl
    show ((addArguments _ _ _).1.op i).block = _ ∧ ((addArguments _ _ _).1.op i).erased = _
    rw [hops, Owned.op_addBlock]
    split <;> exact ⟨rfl, rfl⟩
  · exact (hm.mono (hadd.within.trans hwithin)).insertAll hvalues

theorem edit_adopt {b : BlockId} {i : OpId} (hb : g.HasBlock b) (hi : g.Loose i) :
    Edit cat g (adopt b i (g, m)).2.1 := by
  rw [adopt_eq]
  exact .place b _ i hb hi.there hi.block hi.live (Nat.le_refl _)

end

/-! ## Loops -/

/-- What every turn of `forM` keeps, the loop keeps. -/
theorem forM_keeps {σ α : Type} {I : σ → Prop} {xs : List α} {f : α → StateM σ PUnit}
    (hf : ∀ x ∈ xs, ∀ s, I s → I (f x s).2) {s : σ} (hs : I s) : I ((xs.forM f) s).2 := by
  induction xs generalizing s with
  | nil => exact hs
  | cons x rest ih =>
    have hx := hf x List.mem_cons_self s hs
    exact ih (fun y hy => hf y (List.mem_cons_of_mem x hy)) hx

section

variable {cat : Catalog} {s : Graph × Mapping}

theorem grows_mapM_copyBlock (cat : Catalog) (hm : s.2.Into s.1) {r : RegionId}
    (hr : s.1.HasOp r.op) (hregion : r.index < (s.1.op r.op).regions.length)
    (blocks : List BlockId) :
    Grows cat s (blocks.mapM (copyBlock r) s).2 ∧
      ∀ b ∈ (blocks.mapM (copyBlock r) s).1, (blocks.mapM (copyBlock r) s).2.1.HasBlock b := by
  induction blocks generalizing s with
  | nil => exact ⟨Grows.refl hm, nofun⟩
  | cons b rest ih =>
    obtain ⟨hfirst, hnew⟩ := grows_copyBlock cat hm hr hregion b
    -- the region that the blocks go to is still there, since edits keep the number of regions
    obtain ⟨hrest, hnews⟩ := ih hfirst.into (hfirst.path.within.hasOp hr)
      (by rw [hfirst.path.length_regions hr]; exact hregion)
    rw [List.mapM_cons]
    refine ⟨hfirst.trans hrest, fun c hc => ?_⟩
    rcases List.mem_cons.mp hc with rfl | hc
    · exact hrest.path.within.hasBlock hnew
    · exact hnews c hc

/-- `adopt` of a copied operation: what was there before is where it was. -/
theorem grows_adopt {s' : Graph × Mapping} (hgrows : Grows cat s s') {b : BlockId} {i : OpId}
    (hb : s'.1.HasBlock b) (hi : s'.1.Loose i) (hfresh : ¬ s.1.HasOp i) :
    Grows cat s (adopt b i s').2 := by
  have hedit : Edit cat s'.1 (adopt b i s').2.1 := edit_adopt hb hi
  refine ⟨hgrows.path.tail hedit, fun j hj => ?_, ?_⟩
  · have hne : ¬ i = j := by
      rintro rfl
      exact hfresh hj
    obtain ⟨hblock, herased⟩ := hgrows.kept j hj
    show ((adopt b i (s'.1, s'.2)).2.1.op j).block = _ ∧
      ((adopt b i (s'.1, s'.2)).2.1.op j).erased = _
    rw [adopt_eq]
    show ((place _ _ _ _).op j).block = _ ∧ ((place _ _ _ _).op j).erased = _
    rw [op_place, if_neg fun h => hne h.1]
    exact ⟨hblock, herased⟩
  · exact hgrows.into.mono hedit.within

/-- Copies `child` and puts the copy at the end of `target`, as `copyRegion` does. -/
def copyChild (n : Nat) (target : BlockId) (child : OpId) : CopyM PUnit := do
  let copy ← copyTree n child
  adopt target copy

/-- Copies one region, as `source` has it, for the copy of an operation. -/
def copyRegion (n : Nat) (new : OpId) (source : Graph) (region : List BlockId × Nat) :
    CopyM PUnit := do
  let news ← region.1.mapM (copyBlock ⟨new, region.2⟩)
  (region.1.zip news).forM fun bt => (source.block bt.1).ops.forM (copyChild n bt.2)

/-- `copyTree` is `copyHead`, with every region filled in by `copyRegion`. -/
theorem copyTree_succ (n : Nat) (i : OpId) (s : Graph × Mapping) :
    copyTree (n + 1) i s =
      ((copyHead i s).1,
        (((copyHead i s).2.1.op i).regions.zipIdx.forM
          (copyRegion n (copyHead i s).1 (copyHead i s).2.1) (copyHead i s).2).2) :=
  rfl

/-- What copying heads and blocks and putting operations into blocks keeps, copying a tree keeps.
`P` holds of the operations that copying makes, and `Q` of the blocks. The induction is on the depth;
the loops carry along what is kept. -/
theorem copyTree_keeps {I : Graph × Mapping → Prop} {P : OpId → Prop} {Q : BlockId → Prop}
    (hhead : ∀ i s, I s → I (copyHead i s).2 ∧ P (copyHead i s).1)
    (hblock : ∀ r b s, P r.op → I s → I (copyBlock r b s).2 ∧ Q (copyBlock r b s).1)
    (hadopt : ∀ b i s, Q b → P i → I s → I (adopt b i s).2) (n : Nat) (i : OpId) (hs : I s) :
    I (copyTree n i s).2 ∧ P (copyTree n i s).1 := by
  have hblocks : ∀ (r : RegionId) (blocks : List BlockId) s, P r.op → I s →
      I (blocks.mapM (copyBlock r) s).2 ∧ ∀ b ∈ (blocks.mapM (copyBlock r) s).1, Q b := by
    intro r blocks
    induction blocks with
    | nil => exact fun s _ hs => ⟨hs, nofun⟩
    | cons b rest ih =>
      intro s hr hs
      obtain ⟨hfirst, hnew⟩ := hblock r b s hr hs
      obtain ⟨hrest, hnews⟩ := ih _ hr hfirst
      rw [List.mapM_cons]
      refine ⟨hrest, fun c hc => ?_⟩
      rcases List.mem_cons.mp hc with rfl | hc
      · exact hnew
      · exact hnews c hc
  induction n generalizing i s with
  | zero => exact hhead i s hs
  | succ n ih =>
    obtain ⟨hhead, hnew⟩ := hhead i s hs
    rw [copyTree_succ]
    refine ⟨?_, hnew⟩
    -- which regions there are does not matter
    generalize ((copyHead i s).2.1.op i).regions.zipIdx = regions
    refine forM_keeps (fun region _ s₁ h₁ => ?_) hhead
    obtain ⟨hblocks, hnews⟩ := hblocks ⟨(copyHead i s).1, region.2⟩ region.1 s₁ hnew h₁
    refine forM_keeps (fun bt hbt s₂ h₂ => ?_) hblocks
    refine forM_keeps (fun child _ s₃ h₃ => ?_) h₂
    obtain ⟨hcopy, hroot⟩ := ih child h₃
    exact hadopt bt.2 _ _ (hnews bt.2 (List.of_mem_zip hbt).2) hroot hcopy

/-- What holds of copies of depth `n`. -/
def CopiesTo (cat : Catalog) (n : Nat) : Prop :=
  ∀ (i : OpId) (s : Graph × Mapping), s.1.WellFormed → s.2.Into s.1 →
    Grows cat s (copyTree n i s).2 ∧ (copyTree n i s).1 = s.1.nextOp ∧
      (copyTree n i s).2.1.Loose s.1.nextOp

theorem grows_copyChild {n : Nat} (hn : CopiesTo cat n) (h : s.1.WellFormed) (hm : s.2.Into s.1)
    {target : BlockId} (htarget : s.1.HasBlock target) (child : OpId) :
    Grows cat s (copyChild n target child s).2 := by
  obtain ⟨hgrows, hid, hloose⟩ := hn child s h hm
  show Grows cat s (adopt target (copyTree n child s).1 (copyTree n child s).2).2
  rw [hid]
  exact grows_adopt hgrows (hgrows.path.within.hasBlock htarget) hloose (Nat.lt_irrefl _)

theorem grows_copyRegion {n : Nat} (hn : CopiesTo cat n) (h : s.1.WellFormed) (hm : s.2.Into s.1)
    {new : OpId} (source : Graph) {region : List BlockId × Nat} (hnew : s.1.HasOp new)
    (hregion : region.2 < (s.1.op new).regions.length) :
    Grows cat s (copyRegion n new source region s).2 := by
  obtain ⟨hblocks, hnews⟩ := grows_mapM_copyBlock cat (r := ⟨new, region.2⟩) hm hnew
    hregion region.1
  refine hblocks.trans ?_
  show Grows cat _ ((region.1.zip (region.1.mapM (copyBlock ⟨new, region.2⟩) s).1).forM
    (fun bt => (source.block bt.1).ops.forM (copyChild n bt.2)) _).2
  set s₁ := (region.1.mapM (copyBlock ⟨new, region.2⟩) s).2
  have h₁ : s₁.1.WellFormed := h.edits hblocks.path
  -- both loops keep that the graph only grew since the blocks were made
  refine forM_keeps (fun bt hbt s₂ h₂ => ?_) (Grows.refl hblocks.into)
  refine forM_keeps (fun child _ s₃ h₃ => ?_) h₂
  refine h₃.trans (grows_copyChild hn (h₁.edits h₃.path) h₃.into ?_ child)
  exact h₃.path.within.hasBlock (hnews bt.2 (List.of_mem_zip hbt).2)

theorem grows_copyRegions {n : Nat} (hn : CopiesTo cat n) (h : s.1.WellFormed) (hm : s.2.Into s.1)
    {new : OpId} (source : Graph) {regions : List (List BlockId)} (hnew : s.1.HasOp new)
    (hregions : regions.length = (s.1.op new).regions.length) :
    Grows cat s (regions.zipIdx.forM (copyRegion n new source) s).2 := by
  refine forM_keeps (fun region hregion s₁ h₁ => ?_) (Grows.refl hm)
  refine h₁.trans (grows_copyRegion hn (h.edits h₁.path) h₁.into source
    (h₁.path.within.hasOp hnew) ?_)
  rw [h₁.path.length_regions hnew, ← hregions]
  exact List.snd_lt_of_mem_zipIdx hregion

/-- `copyHead` gives as many regions as `i` has. -/
theorem length_regions_copyHead (i : OpId) (g : Graph) (m : Mapping) :
    ((copyHead i (g, m)).2.1.op i).regions.length =
      ((copyHead i (g, m)).2.1.op g.nextOp).regions.length := by
  rw [copyHead_eq]
  show ((install _ _ _ _).op i).regions.length = ((install _ _ _ _).op g.nextOp).regions.length
  rw [op_install, op_install, if_pos rfl]
  -- an operation that is not there yet would be its own copy
  by_cases hi : i = g.nextOp
  · rw [if_pos hi]
  · rw [if_neg hi]
    exact (List.length_map _).symm

/-- `copyTree` makes `Edits`, and the root of the copy waits for a place. -/
theorem copiesTo (cat : Catalog) (n : Nat) : CopiesTo cat n := by
  induction n with
  | zero => exact fun i s h hm => grows_copyHead cat h hm i
  | succ n ih =>
    intro i s h hm
    obtain ⟨g, m⟩ := s
    obtain ⟨hhead, hid, hloose⟩ := grows_copyHead cat h hm i
    have hregions := length_regions_copyHead i g m
    rw [copyTree_succ]
    -- from here on only what is known of the head matters
    generalize copyHead i (g, m) = head at hhead hid hloose hregions ⊢
    obtain ⟨new, s₁⟩ := head
    obtain rfl : new = g.nextOp := hid
    have hloop := grows_copyRegions ih (h.edits hhead.path) hhead.into s₁.1 hloose.there hregions
    generalize ((s₁.1.op i).regions.zipIdx.forM (copyRegion n g.nextOp s₁.1) s₁).2 = s₂ at hloop ⊢
    exact ⟨hhead.trans hloop, rfl, hloop.path.within.hasOp hloose.there,
      (hloop.kept _ hloose.there).1.trans hloose.block,
      (hloop.kept _ hloose.there).2.trans hloose.live⟩

end

/-- `clone` makes `Edits`, the copy waits for a place, and the mapping leads to values that are
there. -/
theorem edits_clone (cat : Catalog) {g : Graph} {m : Mapping} (h : g.WellFormed) (hm : m.Into g)
    (i : OpId) :
    Edits cat g (g.clone i m).2.1 ∧ (g.clone i m).2.1.Loose (g.clone i m).1 ∧
      (g.clone i m).2.2.Into (g.clone i m).2.1 := by
  obtain ⟨hgrows, hid, hloose⟩ := copiesTo cat g.ops.size i (g, m) h hm
  refine ⟨hgrows.path, ?_, hgrows.into⟩
  show (copyTree g.ops.size i (g, m)).2.1.Loose (copyTree g.ops.size i (g, m)).1
  rw [hid]
  exact hloose

end Graph

end Multistage
