import Multistage.Ops.Kinds
import Multistage.Proofs.Graph.Edits

/-!
# Who owns what

A value names the operation or block that it comes from and is listed there; a block names its
region and is listed there; an operation has the definition of its kind. None of this changes once
the row is there.
-/

namespace Multistage

theorem getElem?_concat_eq_some_iff {α : Type} {l : List α} {x y : α} {n : Nat} :
    (l ++ [x])[n]? = some y ↔ l[n]? = some y ∨ n = l.length ∧ y = x := by
  -- an entry at the end is found at the old length, and everywhere else the list is as it was
  rw [List.getElem?_append]
  split
  · next hn =>
    exact ⟨Or.inl, fun hor => hor.resolve_right fun heq => absurd heq.1 (Nat.ne_of_lt hn)⟩
  · next hn =>
    have hnone : l[n]? = none := List.getElem?_eq_none (Nat.not_lt.mp hn)
    rw [List.getElem?_singleton, hnone]
    by_cases hlast : n - l.length = 0
    · have heq : n = l.length := by omega
      simp only [heq, Nat.sub_self, if_true, Option.some.injEq, reduceCtorEq, false_or, true_and]
      exact eq_comm
    · have hne : n ≠ l.length := by omega
      simp only [hlast, if_false, hne, reduceCtorEq, false_and, or_self]

/-- Every kind of `cat` is the same in `cat'`. -/
def Catalog.Extends (cat cat' : Catalog) : Prop :=
  ∀ name k, cat.find? name = some k → cat'.find? name = some k

namespace Graph

/-- Results, arguments and blocks are listed exactly where their `source` or `home` says. -/
structure Owned (g : Graph) : Prop where
  results : ∀ i n v,
    (g.op i).results[n]? = some v ↔ g.HasValue v ∧ (g.value v).source = .result i n
  args : ∀ b n v,
    (g.block b).args[n]? = some v ↔ g.HasValue v ∧ (g.value v).source = .argument b n
  home_iff : ∀ b i r, (g.block b).home = some ⟨i, r⟩ ↔
    ∃ blocks, (g.op i).regions[r]? = some blocks ∧ b ∈ blocks
  homed : ∀ b, g.HasBlock b → (g.block b).home.isSome

namespace Owned

variable {g g' : Graph}

theorem empty : Owned {} where
  results _ _ _ := ⟨nofun, fun h => absurd h.1 (Nat.not_lt_zero _)⟩
  args _ _ _ := ⟨nofun, fun h => absurd h.1 (Nat.not_lt_zero _)⟩
  home_iff _ _ _ := ⟨nofun, fun ⟨_, h, _⟩ => nomatch h⟩
  homed _ h := absurd h (Nat.not_lt_zero _)

theorem mem_results_iff (h : g.Owned) {i : OpId} {v : ValueId} :
    v ∈ (g.op i).results ↔ g.HasValue v ∧ ∃ n, (g.value v).source = .result i n := by
  rw [List.mem_iff_getElem?]
  constructor
  · rintro ⟨n, hn⟩
    obtain ⟨hv, hsource⟩ := (h.results i n v).mp hn
    exact ⟨hv, n, hsource⟩
  · rintro ⟨hv, n, hsource⟩
    exact ⟨n, (h.results i n v).mpr ⟨hv, hsource⟩⟩

theorem hasOp_of_home (h : g.Owned) {b : BlockId} {i : OpId} {r : Nat}
    (hb : (g.block b).home = some ⟨i, r⟩) : g.HasOp i := by
  by_contra hi
  obtain ⟨blocks, hblocks, -⟩ := (h.home_iff b i r).mp hb
  rw [op_of_not_hasOp hi] at hblocks
  cases hblocks

theorem mem_regions_iff (h : g.Owned) {i : OpId} {b : BlockId} :
    b ∈ (g.op i).regions.flatten ↔ ∃ r, (g.block b).home = some ⟨i, r⟩ := by
  rw [List.mem_flatten]
  constructor
  · rintro ⟨blocks, hblocks, hb⟩
    obtain ⟨r, hr⟩ := List.mem_iff_getElem?.mp hblocks
    exact ⟨r, (h.home_iff b i r).mpr ⟨blocks, hr, hb⟩⟩
  · rintro ⟨r, hr⟩
    obtain ⟨blocks, hblocks, hb⟩ := (h.home_iff b i r).mp hr
    exact ⟨blocks, List.mem_of_getElem? hblocks, hb⟩

/-- `Owned` looks at the lists of results, arguments and blocks and at what values and blocks name
only. -/
theorem congr (h : g.Owned) (hresults : ∀ i, (g'.op i).results = (g.op i).results)
    (hregions : ∀ i, (g'.op i).regions = (g.op i).regions)
    (hargs : ∀ b, (g'.block b).args = (g.block b).args)
    (hhome : ∀ b, (g'.block b).home = (g.block b).home)
    (hsource : ∀ v, (g'.value v).source = (g.value v).source)
    (hvalues : g'.values.size = g.values.size) (hblocks : g'.blocks.size = g.blocks.size) :
    g'.Owned where
  results i n v := by rw [hresults, hsource, HasValue, hvalues]; exact h.results i n v
  args b n v := by rw [hargs, hsource, HasValue, hvalues]; exact h.args b n v
  home_iff b i r := by rw [hhome, hregions]; exact h.home_iff b i r
  homed b hb := by
    rw [hhome]
    rw [HasBlock, hblocks] at hb
    exact h.homed b hb

/-- `modifyOp` that leaves the results and regions of `i` alone. -/
theorem modifyOp (h : g.Owned) (i : OpId) {f : Op → Op}
    (hf : ∀ o, (f o).results = o.results ∧ (f o).regions = o.regions) : (g.modifyOp i f).Owned := by
  refine h.congr (fun j => ?_) (fun j => ?_) (fun _ => rfl) (fun _ => rfl) (fun _ => rfl) rfl
    rfl <;> rw [op_modifyOp] <;> split
  · exact (hf _).1
  · rfl
  · exact (hf _).2
  · rfl

/-! ## New operations -/

/-- No value has a source in `g.nextOp`. -/
theorem not_result_nextOp (h : g.Owned) {n : Nat} {v : ValueId} (hv : g.HasValue v) :
    (g.value v).source ≠ .result g.nextOp n := by
  intro hsource
  have hlisted := (h.results g.nextOp n v).mpr ⟨hv, hsource⟩
  rw [op_nextOp] at hlisted
  cases hlisted

theorem not_home_nextOp (h : g.Owned) (b : BlockId) (r : Nat) :
    (g.block b).home ≠ some ⟨g.nextOp, r⟩ :=
  fun hb => Nat.lt_irrefl _ (h.hasOp_of_home hb)

theorem install (h : g.Owned) {o : Op} (ho : o.Blank) (vals : List (Option ValueId))
    (types : List (Option Ty)) : (g.install o vals types).Owned := by
  refine ⟨fun i n v => ?_, fun b n v => ?_, fun b i r => ?_, fun b hb => ?_⟩
  · rw [source_install_iff, op_install]
    by_cases hi : i = g.nextOp
    · -- the new operation lists the new results and no other value is its result
      rw [if_pos hi, hi, getElem?_valuesFrom]
      constructor
      · rintro ⟨hn, rfl⟩
        exact Or.inr ⟨n, hn, rfl, rfl⟩
      · rintro (⟨hv, hsource⟩ | ⟨k, hk, rfl, hkn⟩)
        · exact absurd hsource (h.not_result_nextOp hv)
        · cases hkn
          exact ⟨hk, rfl⟩
    · rw [if_neg hi, h.results i n v]
      refine ⟨Or.inl, fun hor => hor.resolve_right ?_⟩
      rintro ⟨k, -, -, hk⟩
      exact hi (Source.result.inj hk).1
  -- fresh values are results, so no block gets an argument
  · rw [source_install_iff, block_install, h.args b n v]
    refine ⟨Or.inl, fun hor => hor.resolve_right ?_⟩
    rintro ⟨k, -, -, ⟨⟩⟩
  · rw [block_install, op_install]
    by_cases hi : i = g.nextOp
    · -- the regions of the new operation are empty
      rw [if_pos hi, hi]
      refine ⟨fun hb => absurd hb (h.not_home_nextOp b r), ?_⟩
      rintro ⟨blocks, hblocks, hb⟩
      rw [ho.regions blocks (List.mem_of_getElem? hblocks)] at hb
      cases hb
    · rw [if_neg hi]
      exact h.home_iff b i r
  · rw [block_install]
    rw [HasBlock, blocks_install] at hb
    exact h.homed b hb

/-! ## New blocks and arguments -/

theorem op_addBlock (g : Graph) (r : RegionId) (j : OpId) :
    (g.addBlock r).1.op j = if r.op = j ∧ j.index < g.ops.size then
      { g.op j with regions := (g.op j).regions.modify r.index (· ++ [⟨g.blocks.size⟩]) }
      else g.op j :=
  op_modifyOp _ _ _ _

theorem block_addBlock (g : Graph) (r : RegionId) (b : BlockId) :
    (g.addBlock r).1.block b = if b = ⟨g.blocks.size⟩ then { home := some r } else g.block b :=
  block_pushBlock _ _ _

/-- After `addBlock` a region lists the blocks that it listed, and the new block if it is the one
that got it. -/
theorem mem_region_addBlock {i : OpId} {r : Nat} (hi : g.HasOp i)
    (hr : r < (g.op i).regions.length) (b : BlockId) (j : OpId) (s : Nat) :
    (∃ blocks, ((g.addBlock ⟨i, r⟩).1.op j).regions[s]? = some blocks ∧ b ∈ blocks) ↔
      (∃ blocks, (g.op j).regions[s]? = some blocks ∧ b ∈ blocks) ∨
        b = ⟨g.blocks.size⟩ ∧ j = i ∧ s = r := by
  rw [op_addBlock]
  by_cases hij : i = j
  · subst hij
    have hcond : (⟨i, r⟩ : RegionId).op = i ∧ i.index < g.ops.size := ⟨rfl, hi⟩
    rw [if_pos hcond]
    show (∃ blocks, ((g.op i).regions.modify r (· ++ [⟨g.blocks.size⟩]))[s]? = some blocks ∧
      b ∈ blocks) ↔ _
    rw [List.getElem?_modify]
    -- only the region that is asked for changes, and it grows at its end
    by_cases hrs : r = s
    · subst hrs
      rw [List.getElem?_eq_getElem hr]
      simp only [if_true, Option.map_eq_map, Option.map_some, Option.some.injEq, exists_eq_left',
        List.mem_append, List.mem_singleton, and_true]
    · have hsr : ¬ s = r := fun h => hrs h.symm
      simp only [if_neg hrs, Option.map_eq_map, Option.map_id', hsr, and_false, or_false]
  · have hcond : ¬ ((⟨i, r⟩ : RegionId).op = j ∧ j.index < g.ops.size) := fun h => hij h.1
    have hji : ¬ j = i := fun h => hij h.symm
    rw [if_neg hcond]
    simp only [hji, false_and, and_false, or_false]

theorem addBlock (h : g.Owned) {i : OpId} {r : Nat} (hi : g.HasOp i)
    (hr : r < (g.op i).regions.length) : (g.addBlock ⟨i, r⟩).1.Owned := by
  have hnew : g.block ⟨g.blocks.size⟩ = default := block_of_not_hasBlock (Nat.lt_irrefl _)
  refine ⟨fun j n v => ?_, fun b n v => ?_, fun b j s => ?_, fun b hb => ?_⟩
  · have hresults : ((g.addBlock ⟨i, r⟩).1.op j).results = (g.op j).results := by
      rw [op_addBlock]
      split <;> rfl
    rw [hresults]
    exact h.results j n v
  · have hargs : ((g.addBlock ⟨i, r⟩).1.block b).args = (g.block b).args := by
      rw [block_addBlock]
      split
      · next hb =>
        rw [hb, hnew]
        rfl
      · rfl
    rw [hargs]
    exact h.args b n v
  · rw [mem_region_addBlock hi hr, block_addBlock, ← h.home_iff]
    split
    · -- the new block had no home, so no region listed it
      next hb =>
      rw [hb, hnew]
      simp only [Option.some.injEq, RegionId.mk.injEq, true_and]
      exact ⟨fun heq => Or.inr ⟨heq.1.symm, heq.2.symm⟩,
        fun hor => (hor.resolve_left nofun).imp Eq.symm Eq.symm⟩
    · next hb => simp only [hb, false_and, or_false]
  · rw [block_addBlock]
    split
    · rfl
    · next hne =>
      -- a block that is not the new one was there before
      refine h.homed b ?_
      have hlt : b.index < (g.blocks.push { home := some ⟨i, r⟩ }).size := hb
      rw [Array.size_push] at hlt
      have hidx : b.index ≠ g.blocks.size := fun heq => hne (congrArg BlockId.mk heq)
      unfold HasBlock
      omega

theorem block_addArgument (g : Graph) (b c : BlockId) (ty : Option Ty) :
    (g.addArgument b ty).1.block c = if b = c ∧ c.index < g.blocks.size then
      { g.block c with args := (g.block c).args ++ [⟨g.values.size⟩] } else g.block c :=
  block_modifyBlock _ _ _ _

theorem home_addArgument (g : Graph) (b c : BlockId) (ty : Option Ty) :
    ((g.addArgument b ty).1.block c).home = (g.block c).home := by
  rw [block_addArgument]
  split <;> rfl

/-- The values after `addArgument` are those that were there, with the source that they had, and the
new argument. -/
theorem source_addArgument_iff (g : Graph) (b : BlockId) (ty : Option Ty) {v : ValueId}
    {x : Source} :
    (g.addArgument b ty).1.HasValue v ∧ ((g.addArgument b ty).1.value v).source = x ↔
      g.HasValue v ∧ (g.value v).source = x ∨
        v = ⟨g.values.size⟩ ∧ x = .argument b (g.block b).args.length := by
  have hsize : (g.addArgument b ty).1.values.size = g.values.size + 1 := Array.size_push _
  have hrow : (g.addArgument b ty).1.value v = if v = ⟨g.values.size⟩ then
      { ty, source := .argument b (g.block b).args.length, uses := [] } else g.value v :=
    value_pushValue _ _ _
  rw [HasValue, hsize, hrow]
  by_cases hv : v = ⟨g.values.size⟩
  · subst hv
    have hfresh : ¬ g.HasValue ⟨g.values.size⟩ := Nat.lt_irrefl _
    simp only [if_true, Nat.lt_succ_self, true_and, hfresh, false_and, false_or]
    exact eq_comm
  · have hindex : v.index ≠ g.values.size := fun heq => hv (congrArg ValueId.mk heq)
    have hthere : v.index < g.values.size + 1 ↔ g.HasValue v := by
      unfold HasValue
      omega
    simp only [hv, if_false, hthere, false_and, or_false]

theorem addArgument (h : g.Owned) {b : BlockId} (hb : g.HasBlock b) (ty : Option Ty) :
    (g.addArgument b ty).1.Owned := by
  refine ⟨fun i n v => ?_, fun c n v => ?_, fun c i r => ?_, fun c hc => ?_⟩
  · rw [source_addArgument_iff]
    show (g.op i).results[n]? = some v ↔ _
    rw [h.results]
    exact ⟨Or.inl, fun hor => hor.resolve_right fun heq => nomatch heq.2⟩
  · rw [source_addArgument_iff, block_addArgument, ← h.args]
    by_cases hbc : b = c
    · subst hbc
      -- the list grows at its end by the one value whose source is new
      rw [if_pos ⟨rfl, hb⟩]
      show ((g.block b).args ++ [⟨g.values.size⟩])[n]? = some v ↔ _
      rw [getElem?_concat_eq_some_iff, Source.argument.injEq, eq_self, true_and, and_comm]
    · rw [if_neg fun hc => hbc hc.1]
      refine ⟨Or.inl, fun hor => hor.resolve_right fun heq => hbc ?_⟩
      exact (Source.argument.inj heq.2).1.symm
  · rw [home_addArgument]
    exact h.home_iff c i r
  · have hsize : (g.addArgument b ty).1.blocks.size = g.blocks.size := Array.size_modify
    rw [HasBlock, hsize] at hc
    rw [home_addArgument]
    exact h.homed c hc

/-! ## Runs -/

theorem spliceSegment (h : g.Owned) (i : OpId) (name : String) (start size : Nat)
    (vals : List ValueId) : (g.spliceSegment i name start size vals).Owned := by
  have hblock : ∀ b, (g.spliceSegment i name start size vals).block b = g.block b := by
    intro b
    rw [block, blocks_spliceSegment, ← block]
  refine h.congr (fun j => ?_) (fun j => ?_) (fun b => by rw [hblock]) (fun b => by rw [hblock])
    (source_spliceSegment g i name start size vals)
    (size_values_spliceSegment g i name start size vals) (by rw [blocks_spliceSegment])
  all_goals
    rw [op_spliceSegment]
    split <;> rfl

theorem detach (h : g.Owned) (i : OpId) : (g.detach i).Owned := by
  have hblocks : (g.detach i).blocks.size = g.blocks.size := by
    unfold Graph.detach
    split
    · rfl
    · exact Array.size_modify
  refine h.congr (fun j => ?_) (fun j => ?_) (fun b => ?_) (fun b => ?_)
    (fun v => by rw [value_detach]) (by rw [values_detach]) hblocks
  · rw [op_detach]
    split <;> rfl
  · rw [op_detach]
    split <;> rfl
  · rw [block_detach]
    split <;> rfl
  · rw [block_detach]
    split <;> rfl

/-- An `Edit` changes neither who owns a row nor what an owner lists, except for new rows. -/
theorem edit (h : g.Owned) {cat : Catalog} (he : Edit cat g g') : g'.Owned := by
  cases he with
  | install o vals types blank => exact h.install blank vals types
  | skip =>
    exact h.congr (fun i => by rw [op_skipOp]) (fun i => by rw [op_skipOp]) (fun _ => rfl)
      (fun _ => rfl) (fun _ => rfl) rfl rfl
  | assign s v =>
    exact h.congr (fun _ => by rw [op_assign]) (fun _ => by rw [op_assign])
      (fun _ => by rw [block_assign]) (fun _ => by rw [block_assign])
      (fun w => source_assign g s v w) (size_values_assign g s v) (by rw [blocks_assign])
  | splice i name start size vals => exact h.spliceSegment i name start size vals
  | place b k i =>
    refine modifyOp (g := g.modifyBlock b _) (h.congr (fun _ => rfl) (fun _ => rfl) (fun c => ?_)
      (fun c => ?_) (fun _ => rfl) rfl Array.size_modify) i fun _ => ⟨rfl, rfl⟩
    all_goals
      rw [block_modifyBlock]
      split <;> rfl
  | detach i => exact h.detach i
  | mark i => exact h.modifyOp i fun _ => ⟨rfl, rfl⟩
  | addBlock i r hi hr => exact h.addBlock hi hr
  | addArgument b ty hb => exact h.addArgument hb ty
  | describe i f hf =>
    refine h.modifyOp i fun o => ?_
    obtain ⟨attrs, loc, ho⟩ := hf o
    rw [ho]
    exact ⟨rfl, rfl⟩
  | retype v ty =>
    refine h.congr (fun _ => rfl) (fun _ => rfl) (fun _ => rfl) (fun _ => rfl) (fun w => ?_)
      Array.size_modify rfl
    rw [value_modifyValue]
    split <;> rfl

end Owned

/-! ## Kinds -/

/-- The kind of an operation is the one in `cat`, and an operation of a kind in `Catalog.builtin`
has one. -/
structure KindsKnown (cat : Catalog) (g : Graph) : Prop where
  known : ∀ i k, (g.op i).kind = some k → cat.find? (g.op i).name = some k
  builtin : ∀ i k, Catalog.builtin.find? (g.op i).name = some k → (g.op i).kind = some k

namespace KindsKnown

variable {cat : Catalog} {g g' : Graph}

theorem find?_builtin_empty : Catalog.builtin.find? "" = none := by decide

theorem empty : KindsKnown cat {} where
  known _ _ h := nomatch h
  builtin _ k h := by
    have hnone : Catalog.builtin.find? "" = some k := h
    rw [find?_builtin_empty] at hnone
    cases hnone

/-- `cat` may grow. -/
theorem mono (h : KindsKnown cat g) {cat' : Catalog} (hcat : cat.Extends cat') :
    KindsKnown cat' g where
  known i k hk := hcat _ _ (h.known i k hk)
  builtin := h.builtin

/-- `KindsKnown` looks at names and kinds only. -/
theorem congr (h : KindsKnown cat g) (hname : ∀ i, (g'.op i).name = (g.op i).name)
    (hkind : ∀ i, (g'.op i).kind = (g.op i).kind) : KindsKnown cat g' where
  known i k hk := by
    rw [hname]
    exact h.known i k (hkind i ▸ hk)
  builtin i k hk := by
    rw [hkind]
    exact h.builtin i k (hname i ▸ hk)

theorem modifyOp (h : KindsKnown cat g) (i : OpId) {f : Op → Op}
    (hf : ∀ o, (f o).name = o.name ∧ (f o).kind = o.kind) : KindsKnown cat (g.modifyOp i f) := by
  refine h.congr (fun j => ?_) (fun j => ?_) <;> rw [op_modifyOp] <;> split
  · exact (hf _).1
  · rfl
  · exact (hf _).2
  · rfl

/-- A new operation has the kind of `cat` or that of an operation that is there. -/
theorem install (h : KindsKnown cat g) (hcat : Catalog.builtin.Extends cat) {o : Op}
    {vals : List (Option ValueId)} (types : List (Option Ty))
    (horigin : g.Origin cat o vals.length) : KindsKnown cat (g.install o vals types) := by
  -- a new operation is of the kind that the catalog has, or of that of the copied one
  have hnew : (∀ k, o.kind = some k → cat.find? o.name = some k) ∧
      ∀ k, Catalog.builtin.find? o.name = some k → o.kind = some k := by
    cases horigin with
    | created hkind =>
      rw [hkind]
      exact ⟨fun _ => id, hcat o.name⟩
    | copied j hname hkind =>
      rw [hname, hkind]
      exact ⟨h.known j, h.builtin j⟩
  refine ⟨fun i k hk => ?_, fun i k hk => ?_⟩ <;> rw [op_install] at hk ⊢ <;> split at hk
  · next hi =>
    rw [if_pos hi]
    exact hnew.1 k hk
  · next hi =>
    rw [if_neg hi]
    exact h.known i k hk
  · next hi =>
    rw [if_pos hi]
    exact hnew.2 k hk
  · next hi =>
    rw [if_neg hi]
    exact h.builtin i k hk

theorem edit (h : KindsKnown cat g) (hcat : Catalog.builtin.Extends cat) (he : Edit cat g g') :
    KindsKnown cat g' := by
  cases he with
  | install o vals types _ horigin => exact h.install hcat types horigin
  | skip =>
    exact h.congr (fun i => by rw [op_skipOp]) fun i => by rw [op_skipOp]
  | assign s v => exact h.congr (fun _ => by rw [op_assign]) (fun _ => by rw [op_assign])
  | splice i name start size vals =>
    refine h.congr (fun j => ?_) (fun j => ?_) <;> rw [op_spliceSegment] <;> split <;> rfl
  | place b k i =>
    exact modifyOp (g := g.modifyBlock b _) (h.congr (fun _ => rfl) fun _ => rfl) i
      fun _ => ⟨rfl, rfl⟩
  | detach i =>
    refine h.congr (fun j => ?_) (fun j => ?_) <;> rw [op_detach] <;> split <;> rfl
  | mark i => exact h.modifyOp i fun _ => ⟨rfl, rfl⟩
  | addBlock i r =>
    exact modifyOp (g := (g.pushBlock _).1) (h.congr (fun _ => rfl) fun _ => rfl) i
      fun _ => ⟨rfl, rfl⟩
  | addArgument b ty => exact h.congr (fun _ => rfl) fun _ => rfl
  | describe i f hf =>
    refine h.modifyOp i fun o => ?_
    obtain ⟨attrs, loc, ho⟩ := hf o
    rw [ho]
    exact ⟨rfl, rfl⟩
  | retype v ty => exact h.congr (fun _ => rfl) fun _ => rfl

end KindsKnown

end Graph

end Multistage
