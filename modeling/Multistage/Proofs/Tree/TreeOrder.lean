import Mathlib.Data.List.Flatten
import Mathlib.Data.List.Nodup
import Multistage.Proofs.Build.Reachable
import Multistage.Proofs.Tree.Nesting

/-!
# The order of a tree

What lies inside an operation is a tree if no operation lies inside itself. Its parts are the
operations and blocks, and they have an order: an operation before what is inside it, and of a
region first all blocks and then what is in them. No part comes twice (`nodup_partsTo`), and the
parts are exactly those that belong to an operation inside (`mem_partsTo_iff`).
-/

namespace Multistage.Graph

variable {g g' : Graph}

/-! ## Blocks of a region -/

/-- No region of `g` lists a block twice. -/
def BlocksOnce (g : Graph) : Prop := ∀ i, ∀ blocks ∈ (g.op i).regions, blocks.Nodup

namespace BlocksOnce

theorem empty : BlocksOnce {} := fun _ _ h => nomatch h

/-- `BlocksOnce` looks at the lists of blocks only. -/
theorem congr (h : g.BlocksOnce) (hregions : ∀ i, (g'.op i).regions = (g.op i).regions) :
    g'.BlocksOnce := by
  intro i blocks hblocks
  rw [hregions] at hblocks
  exact h i blocks hblocks

theorem modifyOp (h : g.BlocksOnce) (i : OpId) {f : Op → Op}
    (hf : ∀ o, (f o).regions = o.regions) : (g.modifyOp i f).BlocksOnce := by
  apply h.congr
  intro j
  rw [op_modifyOp]
  split
  · exact hf _
  · rfl

theorem install (h : g.BlocksOnce) {o : Op} (ho : o.Blank) (vals : List (Option ValueId))
    (types : List (Option Ty)) : (g.install o vals types).BlocksOnce := by
  intro i blocks hblocks
  rw [op_install] at hblocks
  split at hblocks
  · rw [ho.regions blocks hblocks]
    exact List.nodup_nil
  · exact h i blocks hblocks

/-- The new block of `addBlock` was in no region. -/
theorem addBlock (h : g.BlocksOnce) (howned : g.Owned) (r : RegionId) :
    (g.addBlock r).1.BlocksOnce := by
  intro i blocks hblocks
  rw [Owned.op_addBlock] at hblocks
  split at hblocks
  · -- the region that was extended had only blocks that were there, and the new one was not
    obtain ⟨k, hk⟩ := List.mem_iff_getElem?.mp hblocks
    have hk' : ((g.op i).regions.modify r.index (· ++ [⟨g.blocks.size⟩]))[k]? = some blocks := hk
    rw [List.getElem?_modify, Option.map_eq_map, Option.map_eq_some_iff] at hk'
    obtain ⟨old, hold, rfl⟩ := hk'
    have hnodup := h i old (List.mem_of_getElem? hold)
    split
    · rw [List.nodup_append]
      refine ⟨hnodup, List.nodup_singleton _, fun b hb b' hb' => ?_⟩
      rw [List.mem_singleton] at hb'
      subst hb'
      rintro rfl
      have hhome := (howned.home_iff _ i k).mpr ⟨old, hold, hb⟩
      exact absurd (hasBlock_of_home_eq_some hhome) (Nat.lt_irrefl _)
    · exact hnodup
  · exact h i blocks hblocks

theorem edit (h : g.BlocksOnce) (howned : g.Owned) {cat : Catalog} (he : Edit cat g g') :
    g'.BlocksOnce := by
  cases he with
  | install o vals types blank => exact h.install blank vals types
  | skip => exact h.congr fun i => by rw [op_skipOp]
  | assign s v => exact h.congr fun i => by rw [op_assign]
  | splice i name start size vals =>
    apply h.congr
    intro j
    rw [op_spliceSegment]
    split <;> rfl
  | place b k i => exact modifyOp (g := g.modifyBlock b _) h i fun _ => rfl
  | detach i =>
    apply h.congr
    intro j
    rw [op_detach]
    split <;> rfl
  | mark i => exact h.modifyOp i fun _ => rfl
  | addBlock i r => exact h.addBlock howned ⟨i, r⟩
  | addArgument b ty => exact h
  | describe i f hf =>
    apply h.modifyOp i
    intro o
    obtain ⟨attrs, loc, ho⟩ := hf o
    rw [ho]
  | retype v ty => exact h

theorem advances {c c' : Context} (h : c.graph.BlocksOnce) (hsound : c.Sound)
    (ha : c.Advances c') : c'.graph.BlocksOnce := by
  induction ha with
  | refl => exact h
  | tail hfirst hlast ih =>
    have howned := (hsound.advances hfirst).graph.owned
    cases hlast with
    | edit he => exact ih.edit howned he
    | move => exact ih
    | registerKind => exact ih
    | registerStrategy => exact ih
    | report => exact ih

theorem reachable {c : Context} (h : Reachable c) : c.graph.BlocksOnce := by
  induction h with
  | fresh channel verbosity => exact .empty
  | after r h hrefs ih => exact ih.advances h.sound (advances_outcome h.sound hrefs)

/-- Nor do two regions of `i` share a block. -/
theorem nodup_flatten (h : g.BlocksOnce) (howned : g.Owned) (i : OpId) :
    (g.op i).regions.flatten.Nodup := by
  rw [List.nodup_flatten]
  refine ⟨h i, ?_⟩
  -- a block has one home, so it cannot stand in two regions
  rw [List.pairwise_iff_getElem]
  intro r s hr hs hlt b hb hb'
  have hhome := (howned.home_iff b i r).mpr ⟨_, List.getElem?_eq_getElem hr, hb⟩
  rw [(howned.home_iff b i s).mpr ⟨_, List.getElem?_eq_getElem hs, hb'⟩] at hhome
  cases hhome
  exact Nat.lt_irrefl _ hlt

theorem nodup_children (h : g.BlocksOnce) (hwf : g.WellFormed) (i : OpId) :
    (g.children i).Nodup := by
  rw [children, List.nodup_flatMap]
  refine ⟨fun b _ => hwf.members.nodup b, ?_⟩
  apply (h.nodup_flatten hwf.owned i).imp
  intro b b' hne c hc hc'
  exact hne (hwf.members.block_unique hc hc')

end BlocksOnce

/-! ## Trees -/

/-- What lies inside `i` is a finite tree. -/
inductive FiniteTree (g : Graph) : OpId → Prop
  | node {i : OpId} (inner : ∀ c ∈ g.children i, FiniteTree g c) : FiniteTree g i

theorem Inside.trans {a b c : OpId} (hab : g.Inside a b) (hbc : g.Inside b c) : g.Inside a c := by
  induction hbc with
  | root => exact hab
  | step hp _ ih => exact .step hp ih

theorem inside_child (hwf : g.WellFormed) {i c : OpId} (hc : c ∈ g.children i) : g.Inside i c :=
  .step ((mem_children_iff hwf).mp hc) .root

/-- What lies inside `i` is `i` or lies inside one of its `children`. -/
theorem Inside.eq_or_child (hwf : g.WellFormed) {i j : OpId} (h : g.Inside i j) :
    j = i ∨ ∃ c ∈ g.children i, g.Inside c j := by
  induction h with
  | root => exact Or.inl rfl
  | @step j p hp _ ih =>
    rcases ih with rfl | ⟨c, hc, hcp⟩
    · exact Or.inr ⟨j, (mem_children_iff hwf).mpr hp, .root⟩
    · exact Or.inr ⟨c, hc, .step hp hcp⟩

/-- Of two operations `a` and `b` around a third, one lies inside the other. -/
theorem Inside.total {a b j : OpId} (ha : g.Inside a j) (hb : g.Inside b j) :
    g.Inside a b ∨ g.Inside b a := by
  -- going up from `j` both ways takes the same steps until one of the two is reached
  induction ha with
  | root => exact Or.inr hb
  | step hp hap ih =>
    cases hb with
    | root => exact Or.inl (.step hp hap)
    | step hp' hbp =>
      rw [hp] at hp'
      cases hp'
      exact ih hbp

namespace FiniteTree

variable {i : OpId}

theorem child (h : g.FiniteTree i) {c : OpId} (hc : c ∈ g.children i) : g.FiniteTree c := by
  cases h with
  | node inner => exact inner c hc

theorem of_inside (hwf : g.WellFormed) (h : g.FiniteTree i) {j : OpId} (hin : g.Inside i j) :
    g.FiniteTree j := by
  induction hin with
  | root => exact h
  | step hp _ ih => exact ih.child ((mem_children_iff hwf).mpr hp)

/-- The root `i` of a finite tree does not lie inside itself. -/
theorem not_inside_parent (hwf : g.WellFormed) (h : g.FiniteTree i) {p : OpId}
    (hp : g.parent i = some p) : ¬ g.Inside i p := by
  induction h generalizing p with
  | @node i _ ih =>
    intro hin
    -- a way round leads through something directly inside, which is then inside itself
    rcases hin.eq_or_child hwf with rfl | ⟨c, hc, hcp⟩
    · exact ih p ((mem_children_iff hwf).mpr hp) hp .root
    · exact ih c hc ((mem_children_iff hwf).mp hc) (.step hp hcp)

/-- The root `i` lies inside nothing that is inside it, but for itself. -/
theorem not_inside_of_inside (hwf : g.WellFormed) (h : g.FiniteTree i) {j : OpId}
    (hin : g.Inside i j) (hne : j ≠ i) : ¬ g.Inside j i := by
  intro hback
  cases hback with
  | root => exact hne rfl
  | step hp hback => exact h.not_inside_parent hwf hp (hin.trans hback)

theorem not_inside_child (hwf : g.WellFormed) (h : g.FiniteTree i) {c : OpId}
    (hc : c ∈ g.children i) : ¬ g.Inside c i :=
  (h.child hc).not_inside_parent hwf ((mem_children_iff hwf).mp hc)

/-- Nothing lies inside two `children` of `i`. -/
theorem child_unique (hwf : g.WellFormed) (h : g.FiniteTree i) {c d j : OpId}
    (hc : c ∈ g.children i) (hd : d ∈ g.children i) (hcj : g.Inside c j) (hdj : g.Inside d j) :
    c = d := by
  -- of two that are directly inside, neither can lie inside the other
  have hsame : ∀ {a b}, a ∈ g.children i → b ∈ g.children i → g.Inside a b → a = b := by
    intro a b ha hb hab
    cases hab with
    | root => rfl
    | step hp hap =>
      rw [(mem_children_iff hwf).mp hb] at hp
      cases hp
      exact absurd hap (h.not_inside_child hwf ha)
  rcases hcj.total hdj with hcd | hdc
  · exact hsame hc hd hcd
  · exact (hsame hd hc hdc).symm

end FiniteTree

/-- The tree below an operation has `n` levels at most. -/
def Fits (g : Graph) : Nat → OpId → Prop
  | 0, _ => False
  | n + 1, i => ∀ c ∈ g.children i, Fits g n c

instance decidableFits (g : Graph) : (n : Nat) → (i : OpId) → Decidable (g.Fits n i)
  | 0, _ => .isFalse id
  | n + 1, i =>
    have := decidableFits g n
    inferInstanceAs (Decidable (∀ c ∈ g.children i, g.Fits n c))

theorem Fits.finiteTree {n : Nat} {i : OpId} (h : g.Fits n i) : g.FiniteTree i := by
  induction n generalizing i with
  | zero => exact h.elim
  | succ n ih => exact .node fun c hc => ih (h c hc)

/-- The tree of an operation `i` that does not lie inside itself has no more levels than there are
operations. -/
theorem fits_of_not_inside (hwf : g.WellFormed) {i : OpId}
    (hself : ∀ p, g.parent i = some p → ¬ g.Inside i p) (hi : g.HasOp i) :
    g.Fits g.ops.size i := by
  have hfirst : ∀ k j, g.up k j = some i → ∀ m < k, ∀ x, g.up m j = some x → ¬ x = i := by
    rintro k j hk m hm x hx rfl
    -- coming by twice would put the operation inside itself
    have hrest := up_add (g := g) m (k - m) j
    rw [Nat.add_sub_cancel' (Nat.le_of_lt hm), hk, hx, Option.bind_some] at hrest
    obtain ⟨d, hd⟩ : ∃ d, k - m = d + 1 := ⟨k - m - 1, by omega⟩
    rw [hd] at hrest
    obtain ⟨p, hp, hpd⟩ := Option.bind_eq_some_iff.mp hrest.symm
    exact hself p hp (inside_iff_up.mpr ⟨d, hpd⟩)
  -- `k` steps up from `j` lead to the root; steps and levels together are never fewer than the
  -- operations
  have hfits : ∀ n k j, g.up k j = some i → g.ops.size ≤ n + k → g.Fits n j := by
    intro n
    induction n with
    | zero =>
      intro k j hk hle
      have hlt := lt_size_of_up (P := (· = i)) hk rfl (hfirst k j hk) hi
      omega
    | succ n ih =>
      intro k j hk hle c hc
      apply ih (k + 1) c
      · rw [up, (mem_children_iff hwf).mp hc]
        exact hk
      · omega
  exact hfits g.ops.size 0 i rfl (Nat.le_refl _)

/-- A `FiniteTree` has no more levels than there are operations. -/
theorem FiniteTree.fits (hwf : g.WellFormed) {i : OpId} (h : g.FiniteTree i) (hi : g.HasOp i) :
    g.Fits g.ops.size i :=
  fits_of_not_inside hwf (fun _ hp => h.not_inside_parent hwf hp) hi

/-! ## The parts of a tree -/

/-- What `clone` has to do for a copy, in the order of `partsTo`. -/
inductive Part where
  /-- An operation without what is inside it. -/
  | op (i : OpId)
  /-- A block with its arguments. -/
  | block (b : BlockId)
  /-- The place of an operation in its block. -/
  | placed (i : OpId)
  deriving DecidableEq

namespace Part

/-- The operation that the part belongs to. -/
def owner (g : Graph) : Part → Option OpId
  | op i => some i
  | block b => g.blockParent b
  | placed i => g.parent i

/-- The operation of an `op`. -/
def op? : Part → Option OpId
  | op i => some i
  | _ => none

/-- The block of a `block`. -/
def block? : Part → Option BlockId
  | block b => some b
  | _ => none

/-- The operation of a `placed`. -/
def placed? : Part → Option OpId
  | placed i => some i
  | _ => none

/-- The values that the part brings. -/
def values (g : Graph) : Part → List ValueId
  | op i => (g.op i).results
  | block b => (g.block b).args
  | placed _ => []

end Part

/-- The parts of a region with these `blocks`: first all blocks, and then what is in them. -/
def regionParts (g : Graph) (inner : OpId → List Part) (blocks : List BlockId) : List Part :=
  blocks.map .block ++
    blocks.flatMap fun b => (g.block b).ops.flatMap fun c => inner c ++ [.placed c]

/-- The parts of the tree of an operation down to depth `n`. -/
def partsTo (g : Graph) : Nat → OpId → List Part
  | 0, _ => []
  | n + 1, i => .op i :: (g.op i).regions.flatMap (g.regionParts (partsTo g n))

/-- Up to their order the parts are the operation `i`, its blocks and what is directly inside it. -/
theorem perm_partsTo_succ (n : Nat) (i : OpId) :
    (g.partsTo (n + 1) i).Perm (.op i :: ((g.op i).regions.flatten.map .block ++
      (g.children i).flatMap fun c => g.partsTo n c ++ [.placed c])) := by
  rw [partsTo]
  apply List.Perm.cons
  -- the regions can be sorted into blocks first and contents after without losing a part
  have hsplit := List.flatMap_append_perm (g.op i).regions (List.map Part.block) fun blocks =>
    blocks.flatMap fun b => (g.block b).ops.flatMap fun c => g.partsTo n c ++ [.placed c]
  have hblocks : (g.op i).regions.flatMap (List.map Part.block) =
      (g.op i).regions.flatten.map .block := by
    rw [List.map_flatten, List.flatMap_def]
  have hinner : ((g.op i).regions.flatMap fun blocks =>
      blocks.flatMap fun b => (g.block b).ops.flatMap fun c => g.partsTo n c ++ [.placed c]) =
      (g.children i).flatMap fun c => g.partsTo n c ++ [.placed c] := by
    simp only [children, List.flatMap_assoc, List.flatten_eq_flatMap, id_eq]
  rw [hblocks, hinner] at hsplit
  exact hsplit.symm

theorem mem_partsTo_succ {n : Nat} {i : OpId} {p : Part} :
    p ∈ g.partsTo (n + 1) i ↔ p = .op i ∨ (∃ b ∈ (g.op i).regions.flatten, p = .block b) ∨
      ∃ c ∈ g.children i, p ∈ g.partsTo n c ∨ p = .placed c := by
  rw [(perm_partsTo_succ n i).mem_iff]
  simp only [List.mem_cons, List.mem_append, List.mem_map, List.mem_flatMap, List.not_mem_nil,
    or_false, eq_comm]

section

variable (hwf : g.WellFormed)

include hwf

/-- Every part `p` belongs to an operation of the tree. -/
theorem inside_of_mem_partsTo {n : Nat} {i : OpId} {p : Part} (hp : p ∈ g.partsTo n i) :
    ∃ j, p.owner g = some j ∧ g.Inside i j := by
  induction n generalizing i with
  | zero => cases hp
  | succ n ih =>
    rcases mem_partsTo_succ.mp hp with rfl | ⟨b, hb, rfl⟩ | ⟨c, hc, hp | rfl⟩
    · exact ⟨i, rfl, .root⟩
    · obtain ⟨r, hr⟩ := hwf.owned.mem_regions_iff.mp hb
      refine ⟨i, ?_, .root⟩
      rw [Part.owner, blockParent, hr]
      rfl
    · obtain ⟨j, hj, hin⟩ := ih hp
      exact ⟨j, hj, (inside_child hwf hc).trans hin⟩
    · exact ⟨i, (mem_children_iff hwf).mp hc, .root⟩

theorem nodup_partsTo (honce : g.BlocksOnce) {i : OpId} (htree : g.FiniteTree i) (n : Nat) :
    (g.partsTo n i).Nodup := by
  induction n generalizing i with
  | zero => exact List.nodup_nil
  | succ n ih =>
    rw [(perm_partsTo_succ n i).nodup_iff]
    -- what belongs to the operation itself is not part of anything inside it
    have hself : ∀ c ∈ g.children i, ∀ p ∈ g.partsTo n c, p.owner g ≠ some i := by
      intro c hc p hp howner
      obtain ⟨j, hj, hin⟩ := inside_of_mem_partsTo hwf hp
      rw [howner] at hj
      cases hj
      exact htree.not_inside_child hwf hc hin
    have hplaced : ∀ c ∈ g.children i, (Part.placed c).owner g = some i :=
      fun c hc => (mem_children_iff hwf).mp hc
    have hblocks : ((g.op i).regions.flatten.map Part.block).Nodup :=
      (honce.nodup_flatten hwf.owned i).map fun b b' heq => Part.block.inj heq
    have hinner : ((g.children i).flatMap fun c => g.partsTo n c ++ [.placed c]).Nodup := by
      rw [List.nodup_flatMap]
      constructor
      · intro c hc
        rw [List.nodup_append]
        refine ⟨ih (htree.child hc), List.nodup_singleton _, fun p hp q hq => ?_⟩
        rw [List.mem_singleton] at hq
        subst hq
        rintro rfl
        exact hself c hc _ hp (hplaced c hc)
      · apply (honce.nodup_children hwf i).imp_of_mem
        intro c d hc hd hne p hp hp'
        rw [List.mem_append, List.mem_singleton] at hp hp'
        -- each of the two may give the part or be the one whose place it is
        rcases hp with hp | rfl <;> rcases hp' with hp' | hp'
        · obtain ⟨j, hj, hcj⟩ := inside_of_mem_partsTo hwf hp
          obtain ⟨j', hj', hdj⟩ := inside_of_mem_partsTo hwf hp'
          rw [hj] at hj'
          cases hj'
          exact hne (htree.child_unique hwf hc hd hcj hdj)
        · subst hp'
          exact hself c hc _ hp (hplaced d hd)
        · exact hself d hd _ hp' (hplaced c hc)
        · exact hne (Part.placed.inj hp')
    rw [List.nodup_cons, List.nodup_append]
    -- the operation and its blocks belong to `i`, and no part of something inside does
    refine ⟨fun hmem => ?_, hblocks, hinner, fun p hp q hq => ?_⟩
    · rcases List.mem_append.mp hmem with hmem | hmem
      · obtain ⟨b, -, hb⟩ := List.mem_map.mp hmem
        cases hb
      · obtain ⟨c, hc, hmem⟩ := List.mem_flatMap.mp hmem
        rcases List.mem_append.mp hmem with hmem | hmem
        · exact hself c hc _ hmem rfl
        · cases List.mem_singleton.mp hmem
    · rintro rfl
      obtain ⟨b, hb, rfl⟩ := List.mem_map.mp hp
      obtain ⟨r, hr⟩ := hwf.owned.mem_regions_iff.mp hb
      obtain ⟨c, hc, hmem⟩ := List.mem_flatMap.mp hq
      rcases List.mem_append.mp hmem with hmem | hmem
      · apply hself c hc _ hmem
        rw [Part.owner, blockParent, hr]
        rfl
      · cases List.mem_singleton.mp hmem

omit hwf in
/-- The list of one entry `a` stands together in `l.flatMap f`. -/
theorem sublist_flatMap_of_mem {α β : Type} {l : List α} {a : α} (ha : a ∈ l) (f : α → List β) :
    (f a).Sublist (l.flatMap f) := by
  rw [List.flatMap_def]
  exact List.sublist_flatten_of_mem (List.mem_map_of_mem ha)

/-- If `list` has the lists of the `children` in it, with one level less, then it has those of all
operations `j` inside, in the same order. The induction is on the way down to `j`. -/
theorem exists_sublist_of_inside {α : Type} {list : Nat → OpId → List α}
    (hlist : ∀ n i c, c ∈ g.children i → (list n c).Sublist (list (n + 1) i)) {n : Nat}
    {root j : OpId} (hfits : g.Fits n root) (hin : g.Inside root j) :
    ∃ k, g.Fits (k + 1) j ∧ (list (k + 1) j).Sublist (list n root) := by
  induction hin with
  | root =>
    cases n with
    | zero => exact hfits.elim
    | succ n => exact ⟨n, hfits, List.Sublist.refl _⟩
  | @step j p hp _ ih =>
    obtain ⟨k, hk, hsub⟩ := ih
    have hchild := (mem_children_iff hwf).mpr hp
    have hj := hk j hchild
    cases k with
    | zero => exact hj.elim
    | succ k => exact ⟨k, hj, (hlist _ _ _ hchild).trans hsub⟩

omit hwf in
/-- The parts of a region stand together in `partsTo`. -/
theorem regionParts_sublist {n : Nat} {i : OpId} {blocks : List BlockId}
    (hblocks : blocks ∈ (g.op i).regions) :
    (g.regionParts (g.partsTo n) blocks).Sublist (g.partsTo (n + 1) i) := by
  rw [partsTo]
  exact (sublist_flatMap_of_mem hblocks (g.regionParts (g.partsTo n))).cons _

omit hwf in
/-- So do the parts of an operation `c` in a block of the region. -/
theorem partsTo_sublist_flatMap {inner : OpId → List Part} {blocks : List BlockId} {b : BlockId}
    {c : OpId} (hb : b ∈ blocks) (hc : c ∈ (g.block b).ops) :
    (inner c).Sublist
      (blocks.flatMap fun b => (g.block b).ops.flatMap fun c => inner c ++ [Part.placed c]) := by
  have hlast : (inner c).Sublist (inner c ++ [Part.placed c]) := List.sublist_append_left _ _
  have hblock := sublist_flatMap_of_mem hc fun c => inner c ++ [Part.placed c]
  have hregion := sublist_flatMap_of_mem hb fun b =>
    (g.block b).ops.flatMap fun c => inner c ++ [Part.placed c]
  exact (hlast.trans hblock).trans hregion

/-- The parts of an operation `j` inside come in the same order. -/
theorem exists_partsTo_sublist {n : Nat} {root j : OpId} (hfits : g.Fits n root)
    (hin : g.Inside root j) :
    ∃ k, g.Fits (k + 1) j ∧ (g.partsTo (k + 1) j).Sublist (g.partsTo n root) := by
  refine exists_sublist_of_inside hwf (fun n i c hc => ?_) hfits hin
  obtain ⟨b, hb, hcb⟩ := List.mem_flatMap.mp hc
  obtain ⟨blocks, hblocks, hb⟩ := List.mem_flatten.mp hb
  apply List.Sublist.trans _ (regionParts_sublist hblocks)
  exact (partsTo_sublist_flatMap hb hcb).trans (List.sublist_append_right _ _)

/-- `partsTo` has exactly the parts that belong to an operation of the tree. -/
theorem mem_partsTo_iff {n : Nat} {root : OpId} (hfits : g.Fits n root) {p : Part} :
    p ∈ g.partsTo n root ↔ ∃ j, p.owner g = some j ∧ g.Inside root j := by
  refine ⟨inside_of_mem_partsTo hwf, ?_⟩
  rintro ⟨j, hj, hin⟩
  obtain ⟨k, -, hsub⟩ := exists_partsTo_sublist hwf hfits hin
  apply hsub.subset
  apply mem_partsTo_succ.mpr
  cases p with
  | op i =>
    cases hj
    exact Or.inl rfl
  | block b =>
    obtain ⟨⟨i, r⟩, hr, rfl⟩ := Option.map_eq_some_iff.mp hj
    exact Or.inr (Or.inl ⟨b, hwf.owned.mem_regions_iff.mpr ⟨r, hr⟩, rfl⟩)
  | placed c => exact Or.inr (Or.inr ⟨c, (mem_children_iff hwf).mpr hj, Or.inr rfl⟩)

end

/-! ## The operations, blocks and values of a tree -/

/-- The operations among the parts come in the order of `preorderTo`. -/
theorem filterMap_op?_partsTo (n : Nat) (i : OpId) :
    (g.partsTo n i).filterMap Part.op? = g.preorderTo n i := by
  induction n generalizing i with
  | zero => rfl
  | succ n ih =>
    have hblocks : ∀ blocks : List BlockId, (blocks.map Part.block).filterMap Part.op? = [] := by
      intro blocks
      rw [List.filterMap_map, List.filterMap_eq_nil_iff]
      exact fun _ _ => rfl
    have hplaced : ∀ c, [Part.placed c].filterMap Part.op? = [] := fun _ => rfl
    have hhead : ∀ rest, (Part.op i :: rest).filterMap Part.op? = i :: rest.filterMap Part.op? :=
      fun _ => rfl
    rw [partsTo, hhead, preorderTo, children]
    simp only [regionParts, List.filterMap_flatMap, List.filterMap_append, hblocks, hplaced, ih,
      List.nil_append, List.append_nil, List.flatMap_assoc, List.flatten_eq_flatMap, id_eq]

theorem Part.op?_inj (p q : Part) (i : OpId) (hp : p.op? = some i) (hq : q.op? = some i) :
    p = q := by
  cases p <;> cases q <;> simp_all [op?]

theorem Part.block?_inj (p q : Part) (b : BlockId) (hp : p.block? = some b)
    (hq : q.block? = some b) : p = q := by
  cases p <;> cases q <;> simp_all [block?]

theorem Part.placed?_inj (p q : Part) (i : OpId) (hp : p.placed? = some i)
    (hq : q.placed? = some i) : p = q := by
  cases p <;> cases q <;> simp_all [placed?]

/-- In a list `whole` without repetitions a sublist is what its members leave of it. -/
theorem filter_eq_of_sublist {α : Type} {l whole : List α} {p : α → Bool} (hsub : l.Sublist whole)
    (hnodup : whole.Nodup) (hp : ∀ x ∈ whole, p x = true ↔ x ∈ l) : whole.filter p = l := by
  have hself : l.filter p = l := by
    rw [List.filter_eq_self]
    exact fun x hx => (hp x (hsub.subset hx)).mpr hx
  have hle := hsub.filter p
  rw [hself] at hle
  symm
  -- the members of the sublist are as many as the members that are left, so nothing is missing
  apply hle.eq_of_length_le
  apply (hnodup.filter p).length_le_of_subset
  intro x hx
  obtain ⟨hmem, hpx⟩ := List.mem_filter.mp hx
  exact (hp x hmem).mp hpx

section

variable {n : Nat} {root : OpId} (hwf : g.WellFormed) (honce : g.BlocksOnce)
  (htree : g.FiniteTree root) (hfits : g.Fits n root)

include hwf honce htree hfits

/-- The blocks of a region come in their order. -/
theorem filter_blocks_partsTo {j : OpId} (hin : g.Inside root j) {r : Nat} {blocks : List BlockId}
    (hr : (g.op j).regions[r]? = some blocks) :
    ((g.partsTo n root).filterMap Part.block?).filter
      (fun b => decide ((g.block b).home = some ⟨j, r⟩)) = blocks := by
  apply filter_eq_of_sublist
  · obtain ⟨k, -, hsub⟩ := exists_partsTo_sublist hwf hfits hin
    have hregion := (regionParts_sublist (n := k) (List.mem_of_getElem? hr)).trans hsub
    have hblocks : (blocks.map Part.block).Sublist (g.regionParts (g.partsTo k) blocks) :=
      List.sublist_append_left _ _
    have hproject := (hblocks.trans hregion).filterMap Part.block?
    rw [List.filterMap_map] at hproject
    have hid : blocks.filterMap (Part.block? ∘ Part.block) = blocks := List.filterMap_some
    rwa [hid] at hproject
  · exact (nodup_partsTo hwf honce htree n).filterMap Part.block?_inj
  · intro b _
    rw [decide_eq_true_iff, hwf.owned.home_iff, hr]
    simp

/-- The operations of block `b` are placed in their order. -/
theorem filter_placed_partsTo {j : OpId} (hin : g.Inside root j) {b : BlockId}
    (hb : g.blockParent b = some j) :
    ((g.partsTo n root).filterMap Part.placed?).filter
      (fun c => decide ((g.op c).block = some b)) = (g.block b).ops := by
  apply filter_eq_of_sublist
  · obtain ⟨k, -, hsub⟩ := exists_partsTo_sublist hwf hfits hin
    obtain ⟨⟨i, r⟩, hr, rfl⟩ := Option.map_eq_some_iff.mp hb
    obtain ⟨blocks, hblocks, hmem⟩ := (hwf.owned.home_iff b i r).mp hr
    have hregion := (regionParts_sublist (n := k) (List.mem_of_getElem? hblocks)).trans hsub
    have hblock : ((g.block b).ops.flatMap fun c => g.partsTo k c ++ [Part.placed c]).Sublist
        (g.regionParts (g.partsTo k) blocks) := by
      apply List.Sublist.trans _ (List.sublist_append_right _ _)
      rw [List.flatMap_def (l := blocks)]
      exact List.sublist_flatten_of_mem (List.mem_map_of_mem
        (f := fun b => (g.block b).ops.flatMap fun c => g.partsTo k c ++ [Part.placed c]) hmem)
    -- the operations are placed in order, with the parts of each between the places
    have hops : ∀ ops : List OpId, (ops.map Part.placed).Sublist
        (ops.flatMap fun c => g.partsTo k c ++ [Part.placed c]) := by
      intro ops
      induction ops with
      | nil => exact List.Sublist.refl _
      | cons c rest ih =>
        rw [List.map_cons, List.flatMap_cons, List.append_assoc]
        exact (List.Sublist.cons_cons _ ih).trans (List.sublist_append_right _ _)
    have hproject := (((hops _).trans hblock).trans hregion).filterMap Part.placed?
    rw [List.filterMap_map] at hproject
    have hid : (g.block b).ops.filterMap (Part.placed? ∘ Part.placed) = (g.block b).ops :=
      List.filterMap_some
    rwa [hid] at hproject
  · exact (nodup_partsTo hwf honce htree n).filterMap Part.placed?_inj
  · intro c _
    rw [decide_eq_true_iff, hwf.members.mem_iff]

end

/-- Operation `j` lies in region `r`: an operation around it is in a block of the region. -/
def LiesIn (g : Graph) (r : RegionId) (j : OpId) : Prop :=
  ∃ k x, g.Inside k j ∧ (g.op k).block = some x ∧ (g.block x).home = some r

/-- All blocks of region `r` come before what lies in it. -/
theorem block_before_op {n : Nat} {root : OpId} (hwf : g.WellFormed) (hfits : g.Fits n root)
    {r : RegionId} (hin : g.Inside root r.op) {b : BlockId} (hb : (g.block b).home = some r)
    {j : OpId} (hj : g.LiesIn r j) :
    [Part.block b, Part.op j].Sublist (g.partsTo n root) := by
  obtain ⟨k, x, hkj, hkx, hx⟩ := hj
  obtain ⟨i, r⟩ := r
  obtain ⟨depth, hdepth, hsub⟩ := exists_partsTo_sublist hwf hfits hin
  obtain ⟨blocks, hblocks, hbmem⟩ := (hwf.owned.home_iff b i r).mp hb
  obtain ⟨blocks', hblocks', hxmem⟩ := (hwf.owned.home_iff x i r).mp hx
  rw [hblocks] at hblocks'
  cases hblocks'
  have hkmem := (hwf.members.mem_iff k x).mp hkx
  have hchild : k ∈ g.children i :=
    List.mem_flatMap.mpr ⟨x, List.mem_flatten.mpr ⟨_, List.mem_of_getElem? hblocks, hxmem⟩, hkmem⟩
  -- the block is among those that come first, the operation in what follows them
  have hfirst : [Part.block b].Sublist (blocks.map Part.block) :=
    List.singleton_sublist.mpr (List.mem_map_of_mem hbmem)
  have hop : Part.op j ∈ g.partsTo depth k :=
    (mem_partsTo_iff hwf (hdepth k hchild)).mpr ⟨j, rfl, hkj⟩
  have hsecond := (List.singleton_sublist.mpr hop).trans (partsTo_sublist_flatMap hxmem hkmem)
  exact ((hfirst.append hsecond).trans (regionParts_sublist (List.mem_of_getElem? hblocks))).trans
    hsub

/-! ## The values of a tree -/

/-- `v` is a result of an operation of the tree of `root` or an argument of a block of one. -/
def DefinedIn (g : Graph) (root : OpId) (v : ValueId) : Prop :=
  ∃ j, g.Inside root j ∧
    (v ∈ (g.op j).results ∨ ∃ b, g.blockParent b = some j ∧ v ∈ (g.block b).args)

theorem mem_values_partsTo_iff {n : Nat} {root : OpId} (hwf : g.WellFormed) (hfits : g.Fits n root)
    {v : ValueId} :
    v ∈ (g.partsTo n root).flatMap (Part.values g) ↔ g.DefinedIn root v := by
  simp only [List.mem_flatMap, mem_partsTo_iff hwf hfits]
  constructor
  · rintro ⟨p, ⟨j, hj, hin⟩, hv⟩
    cases p with
    | op i =>
      obtain rfl : i = j := Option.some.inj hj
      exact ⟨i, hin, Or.inl hv⟩
    | block b => exact ⟨j, hin, Or.inr ⟨b, hj, hv⟩⟩
    | placed i => cases hv
  · rintro ⟨j, hin, hv | ⟨b, hb, hv⟩⟩
    · exact ⟨.op j, ⟨j, rfl, hin⟩, hv⟩
    · exact ⟨.block b, ⟨j, hb, hin⟩, hv⟩

/-- The part that brings a value with this source. -/
def Part.ofSource : Source → Part
  | .result i _ => .op i
  | .argument b _ => .block b

theorem Part.getElem?_values (howned : g.Owned) {p : Part} {k : Nat} {v : ValueId}
    (hk : (p.values g)[k]? = some v) :
    g.HasValue v ∧ p = Part.ofSource (g.value v).source ∧ (g.value v).source.index = k := by
  cases p with
  | op i =>
    obtain ⟨hthere, hsource⟩ := (howned.results i k v).mp hk
    rw [hsource]
    exact ⟨hthere, rfl, rfl⟩
  | block b =>
    obtain ⟨hthere, hsource⟩ := (howned.args b k v).mp hk
    rw [hsource]
    exact ⟨hthere, rfl, rfl⟩
  | placed i => cases hk

theorem Part.mem_values (howned : g.Owned) {p : Part} {v : ValueId} (hv : v ∈ p.values g) :
    g.HasValue v ∧ p = Part.ofSource (g.value v).source := by
  obtain ⟨k, hk⟩ := List.mem_iff_getElem?.mp hv
  obtain ⟨hthere, hpart, -⟩ := Part.getElem?_values howned hk
  exact ⟨hthere, hpart⟩

theorem DefinedIn.hasValue {root : OpId} {v : ValueId} (h : g.DefinedIn root v)
    (howned : g.Owned) : g.HasValue v := by
  obtain ⟨j, -, hv | ⟨b, -, hv⟩⟩ := h
  · exact (Part.mem_values (p := .op j) howned hv).1
  · exact (Part.mem_values (p := .block b) howned hv).1

theorem Part.nodup_values (howned : g.Owned) (p : Part) : (p.values g).Nodup := by
  rw [List.nodup_iff_getElem?_ne_getElem?]
  -- equal values at two positions would have two indices at once
  intro k l hkl hl heq
  have hl := List.getElem?_eq_getElem hl
  have hk := (Part.getElem?_values howned (heq.trans hl)).2.2
  rw [(Part.getElem?_values howned hl).2.2] at hk
  omega

/-- No two of `parts` bring the same value. -/
theorem nodup_values (howned : g.Owned) {parts : List Part} (h : parts.Nodup) :
    (parts.flatMap (Part.values g)).Nodup := by
  rw [List.nodup_flatMap]
  refine ⟨fun p _ => Part.nodup_values howned p, ?_⟩
  apply h.imp
  intro p q hne v hp hq
  apply hne
  rw [(Part.mem_values howned hp).2, (Part.mem_values howned hq).2]

end Multistage.Graph
