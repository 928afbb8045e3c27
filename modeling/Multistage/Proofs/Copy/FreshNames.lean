import Multistage.Proofs.Copy.CopyEdits
import Multistage.Proofs.Tree.TreeOrder

/-!
# The names of copies

A copy is made part by part, in the order of the tree (`Graph.partsTo`). Every part gets the numbers
that are free when its turn comes, so what a part becomes can be said beforehand
(`Graph.freshNames`): the number of rows that were there, and its position among the parts of its
kind.
-/

namespace Multistage

/-! ## Positions in a list -/

/-- The entries `l` of `whole` that stand together are numbered from where they begin. -/
theorem map_idxOf_of_append {α : Type} [BEq α] [LawfulBEq α] {before l whole : List α}
    (h : before ++ l <+: whole) (hnodup : whole.Nodup) :
    l.map whole.idxOf = List.range' before.length l.length := by
  obtain ⟨rest, rfl⟩ := h
  -- entry by entry: in a list without repetitions an entry is found at the position where it stands
  apply List.ext_getElem
  · simp
  · intro k hk _
    rw [List.length_map] at hk
    have hlt : before.length + k < (before ++ l ++ rest).length := by
      simp only [List.length_append]
      omega
    have hget : (before ++ l ++ rest)[before.length + k] = l[k] := by
      simp [hk]
    rw [List.getElem_map, List.getElem_range', ← hget, hnodup.idxOf_getElem _ hlt, Nat.one_mul]

theorem idxOf_lt_of_mem_initial {α : Type} [BEq α] [LawfulBEq α] {before whole : List α}
    (h : before <+: whole) {x : α} (hx : x ∈ before) : whole.idxOf x < before.length := by
  obtain ⟨rest, rfl⟩ := h
  rw [List.idxOf_append_of_mem hx]
  exact List.idxOf_lt_length_of_mem hx

/-! ## What a mapping knows -/

namespace Mapping

variable {m : Mapping}

theorem insertAll_append {vs news ws news' : List ValueId} (h : vs.length = news.length) :
    (m.insertAll vs news).insertAll ws news' = m.insertAll (vs ++ ws) (news ++ news') := by
  rw [insertAll, insertAll, insertAll, List.zip_append h, List.foldl_append]

theorem lookup_insert (v new w : Option ValueId) :
    (m.insert v new).entries.lookup w = if w = v then some new else m.entries.lookup w :=
  Assoc.lookup_cons _ _ _ _

/-- `insertAll` leaves a value `v` that is not entered. -/
theorem lookup_insertAll_of_not_mem {vs news : List ValueId} {v : Option ValueId}
    (hv : ∀ w, v = some w → w ∉ vs) :
    (m.insertAll vs news).entries.lookup v = m.entries.lookup v := by
  induction vs generalizing m news with
  | nil => rfl
  | cons w rest ih =>
    cases news with
    | nil => rfl
    | cons new news =>
      -- the later entries are of other values, so only the first one could say something about `v`
      refine (ih fun u hu hmem => hv u hu (List.mem_cons_of_mem _ hmem)).trans ?_
      rw [lookup_insert, if_neg]
      rintro rfl
      exact hv w rfl List.mem_cons_self

theorem lookup_insertAll_of_mem {f : ValueId → ValueId} {vs : List ValueId} {v : ValueId}
    (hv : v ∈ vs) : (m.insertAll vs (vs.map f)).entries.lookup (some v) = some (some (f v)) := by
  induction vs generalizing m with
  | nil => cases hv
  | cons w rest ih =>
    by_cases hrest : v ∈ rest
    · exact ih hrest
    · -- not being entered again, the value is what the first entry says
      obtain rfl : v = w := (List.mem_cons.mp hv).resolve_right hrest
      have hskip : ((m.insert (some v) (some (f v))).insertAll rest (rest.map f)).entries.lookup
          (some v) = _ := lookup_insertAll_of_not_mem fun u hu => Option.some.inj hu ▸ hrest
      rw [lookup_insert, if_pos rfl] at hskip
      exact hskip

end Mapping

namespace Graph

/-! ## Arguments of a new block -/

section

variable (g : Graph) (b : BlockId) (types : List (Option Ty))

theorem snd_addArguments : (g.addArguments b types).2 = valuesFrom g.values.size types.length := by
  induction types generalizing g with
  | nil => rfl
  | cons ty rest ih =>
    have hsize : (g.addArgument b ty).1.values.size = g.values.size + 1 := Array.size_push _
    -- the first argument gets the first free number, the others follow it
    show (g.addArgument b ty).2 :: ((g.addArgument b ty).1.addArguments b rest).2 = _
    rw [ih, hsize]
    rfl

theorem size_values_addArguments :
    (g.addArguments b types).1.values.size = g.values.size + types.length := by
  induction types generalizing g with
  | nil => rfl
  | cons ty rest ih =>
    have hsize : (g.addArgument b ty).1.values.size = g.values.size + 1 := Array.size_push _
    refine (ih (g.addArgument b ty).1).trans ?_
    rw [hsize, List.length_cons]
    omega

theorem size_blocks_addArguments : (g.addArguments b types).1.blocks.size = g.blocks.size := by
  induction types generalizing g with
  | nil => rfl
  | cons ty rest ih => exact (ih (g.addArgument b ty).1).trans Array.size_modify

theorem ops_addArguments : (g.addArguments b types).1.ops = g.ops := by
  induction types generalizing g with
  | nil => rfl
  | cons ty rest ih => exact (ih (g.addArgument b ty).1).trans rfl

theorem slots_addArguments : (g.addArguments b types).1.slots = g.slots := by
  induction types generalizing g with
  | nil => rfl
  | cons ty rest ih => exact (ih (g.addArgument b ty).1).trans rfl

theorem block_addArguments (c : BlockId) :
    (g.addArguments b types).1.block c = if b = c ∧ c.index < g.blocks.size then
      { g.block c with args := (g.block c).args ++ valuesFrom g.values.size types.length }
      else g.block c := by
  induction types generalizing g with
  | nil =>
    split
    · show g.block c = { g.block c with args := (g.block c).args ++ [] }
      rw [List.append_nil]
    · rfl
  | cons ty rest ih =>
    have hsize : (g.addArgument b ty).1.values.size = g.values.size + 1 := Array.size_push _
    have hblocks : (g.addArgument b ty).1.blocks.size = g.blocks.size := Array.size_modify
    refine (ih (g.addArgument b ty).1).trans ?_
    rw [Owned.block_addArgument, hsize, hblocks]
    by_cases hc : b = c ∧ c.index < g.blocks.size
    · rw [if_pos hc, if_pos hc, if_pos hc, List.append_assoc]
      rfl
    · rw [if_neg hc, if_neg hc, if_neg hc]

theorem value_addArguments_of_hasValue {v : ValueId} (hv : g.HasValue v) :
    (g.addArguments b types).1.value v = g.value v := by
  induction types generalizing g with
  | nil => rfl
  | cons ty rest ih =>
    have hsize : (g.addArgument b ty).1.values.size = g.values.size + 1 := Array.size_push _
    have hv' : (g.addArgument b ty).1.HasValue v := by
      rw [HasValue, hsize]
      exact Nat.lt_succ_of_lt hv
    refine (ih (g.addArgument b ty).1 hv').trans ?_
    refine (value_pushValue _ _ _).trans (if_neg ?_)
    rintro rfl
    exact Nat.lt_irrefl _ hv

theorem typeOf_addArguments_of_getElem? {k : Nat} {ty : Option Ty} (hk : types[k]? = some ty) :
    (g.addArguments b types).1.typeOf ⟨g.values.size + k⟩ = ty := by
  induction types generalizing g k with
  | nil => cases hk
  | cons u rest ih =>
    have hsize : (g.addArgument b u).1.values.size = g.values.size + 1 := Array.size_push _
    cases k with
    | zero =>
      obtain rfl : u = ty := Option.some.inj hk
      have hthere : (g.addArgument b u).1.HasValue ⟨g.values.size⟩ := by
        rw [HasValue, hsize]
        exact Nat.lt_succ_self _
      -- the argument just added keeps its row while the others are added
      have hrow := value_addArguments_of_hasValue (g.addArgument b u).1 b rest hthere
      have hnew : (g.addArgument b u).1.value ⟨g.values.size⟩ =
          { ty := u, source := .argument b (g.block b).args.length, uses := [] } :=
        (value_pushValue _ _ _).trans (if_pos rfl)
      rw [hnew] at hrow
      exact congrArg Value.ty hrow
    | succ k =>
      have hrest := ih (g.addArgument b u).1 hk
      rw [hsize] at hrest
      rw [show g.values.size + (k + 1) = g.values.size + 1 + k by omega]
      exact hrest

end

end Graph

/-! ## What a part becomes -/

/-- New names for the operations, blocks and values of a tree. -/
structure Renaming where
  op : OpId → OpId
  block : BlockId → BlockId
  value : ValueId → ValueId

/-- Region `r` has the number that it had, now on the renamed operation. -/
def Renaming.region (φ : Renaming) (r : RegionId) : RegionId := ⟨φ.op r.op, r.index⟩

namespace Graph

/-- The new names of `clone`: each of `parts` gets the numbers that are free when its turn comes. -/
def freshNames (g : Graph) (parts : List Part) : Renaming where
  op i := ⟨g.ops.size + (parts.filterMap Part.op?).idxOf i⟩
  block b := ⟨g.blocks.size + (parts.filterMap Part.block?).idxOf b⟩
  value v := ⟨g.values.size + (parts.flatMap (Part.values g)).idxOf v⟩

section

variable {g : Graph} {parts done : List Part}

theorem not_hasOp_freshNames (i : OpId) : ¬ g.HasOp ((g.freshNames parts).op i) :=
  Nat.not_lt.mpr (Nat.le_add_right _ _)

theorem not_hasBlock_freshNames (b : BlockId) : ¬ g.HasBlock ((g.freshNames parts).block b) :=
  Nat.not_lt.mpr (Nat.le_add_right _ _)

theorem not_hasValue_freshNames (v : ValueId) : ¬ g.HasValue ((g.freshNames parts).value v) :=
  Nat.not_lt.mpr (Nat.le_add_right _ _)

theorem freshNames_op_inj {i j : OpId} (hi : Part.op i ∈ parts)
    (heq : (g.freshNames parts).op i = (g.freshNames parts).op j) : i = j := by
  have hmem : i ∈ parts.filterMap Part.op? := List.mem_filterMap.mpr ⟨_, hi, rfl⟩
  have hindex := congrArg OpId.index heq
  exact (List.idxOf_inj hmem).mp (Nat.add_left_cancel hindex)

theorem freshNames_block_inj {b c : BlockId} (hb : Part.block b ∈ parts)
    (heq : (g.freshNames parts).block b = (g.freshNames parts).block c) : b = c := by
  have hmem : b ∈ parts.filterMap Part.block? := List.mem_filterMap.mpr ⟨_, hb, rfl⟩
  have hindex := congrArg BlockId.index heq
  exact (List.idxOf_inj hmem).mp (Nat.add_left_cancel hindex)

theorem freshNames_value_inj {v w : ValueId} (hv : v ∈ parts.flatMap (Part.values g))
    (heq : (g.freshNames parts).value v = (g.freshNames parts).value w) : v = w := by
  have hindex := congrArg ValueId.index heq
  exact (List.idxOf_inj hv).mp (Nat.add_left_cancel hindex)

variable (hnodup : parts.Nodup)

include hnodup

/-- The next part `p` has the number of parts before it that are `done`. -/
theorem idxOf_filterMap_next {α : Type} [DecidableEq α] {f : Part → Option α}
    (hf : ∀ p q a, a ∈ f p → a ∈ f q → p = q) {p : Part} {a : α} (hp : f p = some a)
    (h : done ++ [p] <+: parts) :
    (parts.filterMap f).idxOf a = (done.filterMap f).length := by
  -- projected to one kind, the parts before `p` are still exactly what stands before it
  have hinit := h.filterMap f
  rw [List.filterMap_append, List.filterMap_cons_some hp, List.filterMap_nil] at hinit
  exact List.head_eq_of_cons_eq (map_idxOf_of_append hinit (hnodup.filterMap hf))

theorem freshNames_op_next {i : OpId} (h : done ++ [.op i] <+: parts) :
    (g.freshNames parts).op i = ⟨g.ops.size + (done.filterMap Part.op?).length⟩ := by
  simp only [freshNames, idxOf_filterMap_next hnodup Part.op?_inj rfl h]

theorem freshNames_block_next {b : BlockId} (h : done ++ [.block b] <+: parts) :
    (g.freshNames parts).block b = ⟨g.blocks.size + (done.filterMap Part.block?).length⟩ := by
  simp only [freshNames, idxOf_filterMap_next hnodup Part.block?_inj rfl h]

theorem freshNames_values_next (howned : g.Owned) {p : Part} (h : done ++ [p] <+: parts) :
    (p.values g).map (g.freshNames parts).value =
      valuesFrom (g.values.size + (done.flatMap (Part.values g)).length) (p.values g).length := by
  -- the values of the part stand together, behind those of the parts that have had their turn
  have hinit : done.flatMap (Part.values g) ++ p.values g <+: parts.flatMap (Part.values g) := by
    obtain ⟨rest, rfl⟩ := h
    simp only [List.flatMap_append, List.flatMap_singleton]
    exact List.prefix_append _ _
  have hindex := map_idxOf_of_append hinit (nodup_values howned hnodup)
  rw [valuesFrom, ← List.map_add_range', ← hindex, List.map_map, List.map_map]
  rfl

end

end Graph

end Multistage
