import Multistage.Proofs.Printer.NameTables
import Multistage.Proofs.Printer.PrintedNames

/-!
# Printed copies

A tree and its copy have the same text. Whether there is a text at all depends on the types and the
attributes only: where a part is missing that has to be written, nothing is written.
-/

namespace Multistage

/-! ## Types and attributes that can be written -/

mutual

/-- No part of the type is missing that `Ty.text` shows. A pointer or a descriptor shows a mark
instead. -/
def Ty.Complete : Ty → Prop
  | .tensor t => t.Complete
  | .memDesc t => t.Complete
  | _ => True

/-- The element is not missing, and is `Complete`. -/
def TensorTy.Complete : TensorTy → Prop
  | ⟨_, none, _⟩ => False
  | ⟨_, some elem, _⟩ => elem.Complete

/-- The element is not missing, and is `Complete`. -/
def MemDescTy.Complete : MemDescTy → Prop
  | ⟨_, none, _, _, _, _⟩ => False
  | ⟨_, some elem, _, _, _, _⟩ => elem.Complete

end

/-- An attribute that holds a type holds one that is `Complete`. -/
def Attr.Complete : Attr → Prop
  | .type t => ∃ ty, t = some ty ∧ ty.Complete
  | _ => True

mutual

theorem Ty.isSome_text_iff : (t : Ty) → (t.text.isSome ↔ t.Complete)
  | .tensor t => by
    rw [Ty.text, Ty.Complete]
    exact t.isSome_text_iff
  | .memDesc t => by
    rw [Ty.text, Ty.Complete]
    exact t.isSome_text_iff
  | .integer _ | .float _ _ | .index | .token _ | .pointer none | .pointer (some _)
  | .tensorDesc none | .tensorDesc (some _) => by simp [Ty.text, Ty.Complete]

theorem TensorTy.isSome_text_iff : (t : TensorTy) → (t.text.isSome ↔ t.Complete)
  | ⟨_, none, _⟩ => by simp [TensorTy.text, TensorTy.Complete]
  | ⟨_, some elem, _⟩ => by
    rw [TensorTy.text, TensorTy.Complete, ← elem.isSome_text_iff]
    cases elem.text <;> rfl

theorem MemDescTy.isSome_text_iff : (t : MemDescTy) → (t.text.isSome ↔ t.Complete)
  | ⟨_, none, _, _, _, _⟩ => by simp [MemDescTy.text, MemDescTy.Complete]
  | ⟨_, some elem, _, _, _, _⟩ => by
    rw [MemDescTy.text, MemDescTy.Complete, ← elem.isSome_text_iff]
    cases elem.text <;> rfl

end

theorem Attr.isSome_text_iff (a : Attr) : a.text.isSome ↔ a.Complete := by
  cases a with
  | type t =>
    cases t with
    | none => simp [Attr.text, Attr.Complete]
    | some ty => simp [Attr.text, Attr.Complete, ty.isSome_text_iff]
  | integer value t => cases t <;> simp [Attr.text, Attr.Complete]
  | _ => simp [Attr.text, Attr.Complete]

/-! ## Trees that can be written -/

theorem isSome_bind_some {α β : Type} {x : Option α} {k : α → β} :
    (x >>= fun a => some (k a)).isSome = x.isSome := by
  cases x <;> rfl

theorem isSome_bind_iff {α β : Type} {x : Option α} {k : α → Option β} {p : Prop}
    (h : ∀ a, (k a).isSome ↔ p) : (x >>= k).isSome ↔ x.isSome ∧ p := by
  cases x with
  | none => simp
  | some a => simp [h a]

namespace Op

variable {o : Op}

/-- Every segment of `o` that can be found lies within the operands. -/
def SegmentsFit (o : Op) : Prop :=
  ∀ name start size, o.segment? name = some (start, size) → start + size ≤ o.operands.length

theorem SegmentsFit.of_tiled (h : o.Tiled o.operands.length) : o.SegmentsFit := by
  intro name start size hfound
  obtain ⟨hnames, hsum⟩ := h
  -- a segment that is found has a name that was declared, so the sizes add up to all operands
  obtain ⟨before, after, hsplit, -, hstart⟩ := locate_eq_some hfound
  have hdeclared : o.declared ≠ [] := by
    rw [← hnames, hsplit]
    simp
  have htotal := hsum hdeclared
  rw [hsplit] at htotal
  simp only [List.map_append, List.map_cons, List.sum_append, List.sum_cons] at htotal
  omega

theorem isSome_segmentSlots?_iff {name : String} : (o.segmentSlots? name).isSome ↔
    ∀ start size, o.segment? name = some (start, size) → start + size ≤ o.operands.length := by
  unfold segmentSlots?
  cases o.segment? name with
  | none => simp
  | some found =>
    obtain ⟨start, size⟩ := found
    by_cases hfits : start + size ≤ o.operands.length
    · simp [hfits]
    · simp [hfits]

theorem isSome_shown?_iff : o.shown?.isSome ↔ o.SegmentsFit := by
  -- only segments that are listed can be found
  have hlisted : o.SegmentsFit ↔ ∀ seg ∈ o.segments, (o.segmentSlots? seg.1).isSome := by
    simp only [isSome_segmentSlots?_iff]
    constructor
    · exact fun h seg _ => h seg.1
    · intro h name start size hfound
      obtain ⟨before, after, hsplit, -, -⟩ := locate_eq_some hfound
      have hmem : (name, size) ∈ o.segments := by simp [hsplit]
      exact h _ hmem start size hfound
  rw [hlisted, shown?]
  split
  · next hempty => simp [List.isEmpty_iff.mp hempty]
  · rw [isSome_bind_some, isSome_mapM_iff]
    apply forall₂_congr
    rintro ⟨name, size⟩ -
    dsimp only
    rw [isSome_bind_some]

end Op

namespace Graph

/-- No attribute and no type of the tree of `root` is missing or misses a part. -/
structure Filled (g : Graph) (root : OpId) : Prop where
  attrs : ∀ j, g.Inside root j → ∀ e ∈ (g.op j).attrs.entries, ∃ a, e.2 = some a ∧ a.Complete
  types : ∀ v, g.DefinedIn root v → ∃ t, g.typeOf v = some t ∧ t.Complete

theorem isSome_attrsText_iff {d : AttrDict} :
    (attrsText d).isSome ↔ ∀ e ∈ d.entries, ∃ a, e.2 = some a ∧ a.Complete := by
  unfold attrsText
  split
  · next hempty => simp [List.isEmpty_iff.mp hempty]
  · rw [isSome_bind_some, isSome_mapM_iff]
    apply forall₂_congr
    rintro ⟨name, value⟩ -
    cases value with
    | none => simp
    | some a =>
      dsimp only [Option.bind_eq_bind, Option.bind_some]
      rw [← Option.bind_eq_bind, isSome_bind_some, a.isSome_text_iff]
      simp

theorem isSome_typeText_iff {g : Graph} {v : ValueId} :
    (g.typeText v).isSome ↔ ∃ t, g.typeOf v = some t ∧ t.Complete := by
  unfold typeText
  cases g.typeOf v with
  | none => simp
  | some t => simp [t.isSome_text_iff]

theorem isSome_opPhrase_iff {g : Graph} {i : OpId} :
    (g.opPhrase i).isSome ↔ (g.op i).shown?.isSome ∧
      (∀ e ∈ (g.op i).attrs.entries, ∃ a, e.2 = some a ∧ a.Complete) ∧
      ∀ v ∈ (g.op i).results, ∃ t, g.typeOf v = some t ∧ t.Complete := by
  unfold opPhrase
  rw [← isSome_attrsText_iff]
  simp only [← isSome_typeText_iff, ← isSome_mapM_iff]
  apply isSome_bind_iff
  intro shown
  apply isSome_bind_iff
  intro attrs
  rw [isSome_bind_some]

theorem isSome_blockPhrase_iff {g : Graph} {b : BlockId} :
    (g.blockPhrase b).isSome ↔
      ∀ v ∈ (g.block b).args, ∃ t, g.typeOf v = some t ∧ t.Complete := by
  unfold blockPhrase
  simp only [isSome_bind_some, isSome_mapM_iff, isSome_typeText_iff]

/-- `phrasesTo` for one level of a tree. -/
theorem isSome_phrasesTo_succ_iff {g : Graph} {n indent : Nat} {i : OpId} :
    (g.phrasesTo (n + 1) indent i).isSome ↔ (g.opPhrase i).isSome ∧
      ∀ b ∈ (g.op i).regions.flatten, (g.blockPhrase b).isSome ∧
        ∀ c ∈ (g.block b).ops, (g.phrasesTo n (indent + 2) c).isSome := by
  rw [phrasesTo]
  apply isSome_bind_iff
  intro head
  rw [isSome_bind_some, isSome_mapM_iff, List.forall_mem_flatten]
  apply forall₂_congr
  intro blocks _
  unfold regionPhrases
  split
  · next hempty => simp [List.isEmpty_iff.mp hempty]
  · rw [isSome_bind_some, isSome_mapM_iff]
    apply forall₂_congr
    intro b _
    apply isSome_bind_iff
    intro header
    rw [isSome_bind_some, isSome_mapM_iff]

/-- `phrasesTo` has an answer if all operations and blocks of the tree have a phrase. -/
theorem isSome_phrasesTo_iff {g : Graph} (hwf : g.WellFormed) {n indent : Nat} {i : OpId}
    (hfits : g.Fits n i) :
    (g.phrasesTo n indent i).isSome ↔ ∀ j, g.Inside i j → (g.opPhrase j).isSome ∧
      ∀ b, g.blockParent b = some j → (g.blockPhrase b).isSome := by
  -- the induction is on the depth; a phrase belongs to the operation or to one directly inside it
  induction n generalizing i indent with
  | zero => exact hfits.elim
  | succ n ih =>
    have hchild : ∀ b ∈ (g.op i).regions.flatten, ∀ c ∈ (g.block b).ops, c ∈ g.children i :=
      fun b hb c hc => List.mem_flatMap.mpr ⟨b, hb, hc⟩
    rw [isSome_phrasesTo_succ_iff]
    constructor
    · rintro ⟨hhead, hblocks⟩ j hj
      rcases hj.eq_or_child hwf with rfl | ⟨c, hc, hcj⟩
      · exact ⟨hhead, fun b hb => (hblocks b ((blockParent_eq_some_iff hwf.owned).mp hb)).1⟩
      · obtain ⟨b, hb, hcb⟩ := List.mem_flatMap.mp hc
        exact (ih (hfits c hc)).mp ((hblocks b hb).2 c hcb) j hcj
    · intro hlines
      refine ⟨(hlines i .root).1, fun b hb => ⟨?_, fun c hc => ?_⟩⟩
      · exact (hlines i .root).2 b ((blockParent_eq_some_iff hwf.owned).mpr hb)
      · apply (ih (hfits c (hchild b hb c hc))).mpr
        exact fun j hj => hlines j ((inside_child hwf (hchild b hb c hc)).trans hj)

theorem isSome_print?_iff {g : Graph} (hwf : g.WellFormed) {root : OpId}
    (hfits : g.Fits g.ops.size root) (hblocks : (g.printedBlocksTo g.ops.size root).Nodup) :
    (g.print? root).isSome ↔ g.Filled root ∧ ∀ j, g.Inside root j → (g.op j).SegmentsFit := by
  rw [print?_eq_map hblocks, Option.isSome_map, phrases?, isSome_phrasesTo_iff hwf hfits]
  simp only [isSome_opPhrase_iff, isSome_blockPhrase_iff, Op.isSome_shown?_iff]
  constructor
  · intro hlines
    refine ⟨⟨fun j hj => (hlines j hj).1.2.1, ?_⟩, fun j hj => (hlines j hj).1.1⟩
    rintro v ⟨j, hj, hv | ⟨b, hb, hv⟩⟩
    · exact (hlines j hj).1.2.2 v hv
    · exact (hlines j hj).2 b hb v hv
  · rintro ⟨hfilled, hsegments⟩ j hj
    refine ⟨⟨hsegments j hj, hfilled.attrs j hj, fun v hv => ?_⟩, fun b hb v hv => ?_⟩
    · exact hfilled.types v ⟨j, hj, Or.inl hv⟩
    · exact hfilled.types v ⟨j, hj, Or.inr ⟨b, hb, hv⟩⟩

end Graph

/-! ## A copy under other names -/

/-- The value that `m` has in place of `v`, and `v` itself where there is none. -/
def Mapping.read (m : Mapping) (v : ValueId) : ValueId := (m.get (some v)).getD v

namespace Graph

theorem isArgument_of_mem_results {g : Graph} (howned : g.Owned) {i : OpId} {v : ValueId}
    (hv : v ∈ (g.op i).results) : g.isArgument v = false := by
  obtain ⟨n, hn⟩ := List.mem_iff_getElem?.mp hv
  rw [isArgument, ownerBlock, ((howned.results i n v).mp hn).2]
  rfl

theorem isArgument_of_mem_args {g : Graph} (howned : g.Owned) {b : BlockId} {v : ValueId}
    (hv : v ∈ (g.block b).args) : g.isArgument v = true := by
  obtain ⟨n, hn⟩ := List.mem_iff_getElem?.mp hv
  rw [isArgument, ownerBlock, ((howned.args b n v).mp hn).2]
  rfl

namespace Cloned

variable {g g' : Graph} {root : OpId} {φ : Renaming} {m' : Mapping}
  (h : g.Cloned root {} φ g' m')

include h

theorem ops_size_le (hwf : g.WellFormed) : g.ops.size ≤ g'.ops.size := by
  obtain ⟨hpath, -, -⟩ := edits_clone (m := {}) Catalog.builtin hwf (fun e he => nomatch he) root
  rw [h.result] at hpath
  exact (Edits.within hpath).ops

/-- `isArgument` of a value is the same in the graph with the copy. -/
theorem isArgument_eq {v : ValueId} (hv : g.HasValue v) : g'.isArgument v = g.isArgument v := by
  obtain ⟨readers, hrow, -⟩ := h.keeps.value v hv
  rw [isArgument, ownerBlock, hrow]
  rfl

/-- The tree itself keeps all its names in `g'`. -/
theorem renames_original (hwf : g.WellFormed) (hroot : g.HasOp root) :
    g.Renames g' root ⟨id, id, id⟩ := by
  have hop : ∀ j, g.Inside root j → g'.op j = g.op j := fun j hj =>
    h.keeps.op j (hj.hasOp hroot)
  have hblock : ∀ b, g.BlockInside root b → g'.block b = g.block b := by
    rintro b ⟨j, hb, -⟩
    exact h.keeps.block b (hasBlock_of_blockParent hb)
  constructor
  case op =>
    intro j hj
    refine ⟨(g.op j).operands, (g.op j).block, (g.op j).erased, ?_⟩
    simp [hop j hj]
  case args =>
    intro b hb
    rw [List.map_id]
    exact congrArg Block.args (hblock b hb)
  case ops =>
    intro b hb
    rw [List.map_id]
    exact congrArg Block.ops (hblock b hb)
  case type =>
    intro v hv
    obtain ⟨readers, hrow, -⟩ := h.keeps.value v (hv.hasValue hwf.owned)
    show (g'.value v).ty = (g.value v).ty
    rw [hrow]
  case reads =>
    intro j hj
    show (g'.op j).operands.map _ = ((g.op j).operands.map _).map _
    rw [hop j hj, List.map_map]
    apply List.map_congr_left
    intro s hs
    simp [h.keeps.slot s (hwf.numbered.of_mem hs).1]
  case isArgument => exact fun v hv => h.isArgument_eq hv
  case values => exact Set.injOn_id _

theorem read_inner {v : ValueId} (hv : g.DefinedIn root v) : m'.read v = φ.value v := by
  rw [Mapping.read, (h.readsAs (some v)).1 v rfl hv]
  rfl

theorem get_outer {v : ValueId} (hv : ¬ g.DefinedIn root v) : m'.get (some v) = some v :=
  (h.readsAs (some v)).2 fun _ hu => Option.some.inj hu ▸ hv

theorem read_outer {v : ValueId} (hv : ¬ g.DefinedIn root v) : m'.read v = v := by
  rw [Mapping.read, h.get_outer hv]
  rfl

theorem get_eq_map_read (u : Option ValueId) : m'.get u = u.map m'.read := by
  cases u with
  | none => exact (h.readsAs none).2 nofun
  | some v =>
    -- the mapping says nothing of other values, which stand for themselves
    by_cases hv : g.DefinedIn root v
    · rw [Option.map_some, h.read_inner hv]
      exact (h.readsAs (some v)).1 v rfl hv
    · rw [Option.map_some, h.read_outer hv]
      exact h.get_outer hv

/-- `m'` leads from results to results and from arguments to arguments. -/
theorem isArgument_read (hwf : g.WellFormed) {v : ValueId} (hv : g.HasValue v) :
    g'.isArgument (m'.read v) = g.isArgument v := by
  by_cases hdefined : g.DefinedIn root v
  · rw [h.read_inner hdefined]
    obtain ⟨j, hj, hmem | ⟨b, hb, hmem⟩⟩ := hdefined
    · rw [isArgument_of_mem_results hwf.owned hmem]
      apply isArgument_of_mem_results h.wellFormed.owned (i := φ.op j)
      rw [h.copy.results_eq hj]
      exact List.mem_map_of_mem hmem
    · rw [isArgument_of_mem_args hwf.owned hmem]
      apply isArgument_of_mem_args h.wellFormed.owned (b := φ.block b)
      rw [h.copy.block b ⟨j, hb, hj⟩]
      exact List.mem_map_of_mem hmem
  · rw [h.read_outer hdefined]
    exact h.isArgument_eq hv

/-- A copied value is new, so `m'.read` does not take it for one from outside the tree. -/
theorem injOn_read : Set.InjOn m'.read {v | g.HasValue v} := by
  intro v hv w hw heq
  -- what is defined inside has a new number, and what is not has an old one
  by_cases hvin : g.DefinedIn root v <;> by_cases hwin : g.DefinedIn root w
  · rw [h.read_inner hvin, h.read_inner hwin] at heq
    exact h.copy.values.injOn hvin hwin heq
  · rw [h.read_inner hvin, h.read_outer hwin] at heq
    exact absurd hw (heq ▸ h.freshValue v)
  · rw [h.read_outer hvin, h.read_inner hwin] at heq
    exact absurd hv (heq.symm ▸ h.freshValue w)
  · rw [h.read_outer hvin, h.read_outer hwin] at heq
    exact heq

/-- The values of the tree have new names, and all others the names that they had. -/
theorem renames_copy (hwf : g.WellFormed) : g.Renames g' root { φ with value := m'.read } := by
  constructor
  case op =>
    intro j hj
    obtain ⟨slots, hrow⟩ := h.copy.op j hj
    have hresults : (g.op j).results.map φ.value = (g.op j).results.map m'.read :=
      List.map_congr_left fun v hv => (h.read_inner ⟨j, hj, Or.inl hv⟩).symm
    rw [hresults] at hrow
    exact ⟨slots, _, _, hrow⟩
  case args =>
    intro b hb
    rw [h.copy.block b hb]
    obtain ⟨j, hbj, hj⟩ := hb
    exact List.map_congr_left fun v hv => (h.read_inner ⟨j, hj, Or.inr ⟨b, hbj, hv⟩⟩).symm
  case ops =>
    intro b hb
    rw [h.copy.block b hb]
  case type =>
    intro v hv
    dsimp only
    rw [h.read_inner hv, h.copy.type v hv]
  case reads =>
    intro j hj
    rw [h.operands j hj]
    exact List.map_congr_left fun u _ => h.get_eq_map_read u
  case isArgument => exact fun v hv => h.isArgument_read hwf hv
  case values => exact h.injOn_read

end Cloned

end Graph

/-- `print?` of the `cloneDetached` of a tree with nothing to replace is that of the tree before and
after. It has an answer unless an attribute or a type is missing or a segment reaches beyond the
operands; none does where no name is declared twice. -/
theorem print_clone_eq {c : Context} {root : OpId} (h : Reachable c) (hroot : c.graph.HasOp root)
    (htree : c.graph.FiniteTree root) (hreads : c.graph.ReadsBack root) :
    ∃ (new : OpId) (g' : Graph) (m' : Mapping),
      Build.cloneDetached root {} c = .ok (new, m') { c with graph := g' } ∧
      g'.print? new = c.graph.print? root ∧
      g'.print? root = c.graph.print? root ∧
      ((c.graph.print? root).isSome ↔
        c.graph.Filled root ∧ ∀ j, c.graph.Inside root j → (c.graph.op j).SegmentsFit) ∧
      ∀ j, (c.graph.op j).declared.Nodup → (c.graph.op j).SegmentsFit := by
  have hwf := h.sound.graph
  have hfits := htree.fits hwf hroot
  have hblocks := Graph.nodup_printedBlocksTo hwf (.reachable h) htree c.graph.ops.size
  obtain ⟨φ, g', m', hcloned⟩ :=
    Graph.exists_cloned hwf (.reachable h) hroot htree hreads (m := {}) fun e he => nomatch he
  have hsize := hcloned.ops_size_le hwf
  have hclone : Build.cloneDetached root {} c =
      .ok ((c.graph.clone root {}).1, (c.graph.clone root {}).2.2)
        { c with graph := (c.graph.clone root {}).2.1 } := rfl
  rw [hcloned.result] at hclone
  -- both texts come from one lemma: the tree is renamed to its copy, and to itself by the identity
  refine ⟨φ.op root, g', m', hclone, ?_, ?_, Graph.isSome_print?_iff hwf hfits hblocks, ?_⟩
  · exact (hcloned.renames_copy hwf).print?_eq hwf hfits hsize
  · exact (hcloned.renames_original hwf hroot).print?_eq hwf hfits hsize
  · exact fun j hj => .of_tiled (h.sound.tiles j hj)

/-- In the copy of the loop of `summing`, the values have other numbers in the graph and the same
ones in the text. -/
theorem summing_loop_printed :
    Reachable (Request.run summing {}) ∧ (Request.run summing {}).graph.HasOp ⟨1⟩ ∧
      (Request.run summing {}).graph.FiniteTree ⟨1⟩ ∧
      (Request.run summing {}).graph.ReadsBack ⟨1⟩ ∧
      (Request.run summing {}).graph.Filled ⟨1⟩ ∧
      ∃ (new : OpId) (g' : Graph) (m' : Mapping),
        Build.cloneDetached ⟨1⟩ {} (Request.run summing {}) =
          .ok (new, m') { Request.run summing {} with graph := g' } ∧
        g'.print? new = some (
          "%0 = scf.for(lowerBound: %arg0, upperBound: %arg0, step: %arg0, " ++
            "initArgs: %arg1) : i32 \x7b\n" ++
          "  ^bb0(%arg2: i32, %arg3: i32):\n" ++
          "    %1 = arith.addi(%arg3, %arg2) : i32\n" ++
          "    scf.yield(%1)\n" ++
          "\x7d\n") := by
  have hroot : (Request.run summing {}).graph.HasOp ⟨1⟩ := by decide +kernel
  obtain ⟨new, g', m', hclone, hcopy, -, hwritten, -⟩ :=
    print_clone_eq reachable_summing hroot fits_summing.finiteTree readsBack_summing
  have hfilled := (hwritten.mp (by decide +kernel)).1
  refine ⟨reachable_summing, hroot, fits_summing.finiteTree, readsBack_summing, hfilled, new, g',
    m', hclone, ?_⟩
  rw [hcopy]
  decide +kernel

end Multistage
