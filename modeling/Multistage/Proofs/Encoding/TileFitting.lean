import Multistage.Buffer.Layout
import Multistage.Proofs.Encoding.MemoryOrders
import Multistage.Proofs.Tree.Walking

/-!
# Layouts of loads through a descriptor

A load through a descriptor writes the layout that the descriptor has for its tile. If it loads a
tile of another shape, the layout is fitted to that one: the width of the swizzle is chosen anew, as
wide as the rows of the loaded tile allow (`NvMma.Widest`), and all else stays as it is. The order
of the dimensions is not handed over as such. It goes from the flag of the old layout to a list and
from there to the flag of the new layout, and comes out the same for every rank (`order_refitted`).
-/

namespace Multistage

namespace NvMma

/-! ## The widest swizzle -/

/-- A swizzle of `width` bytes divides a row of `bytes` evenly; a row without bytes is not divided.
-/
def Divides (width bytes : Int) : Prop := 0 < bytes ∧ width ∣ bytes

/-- `width` is the largest of 128, 64 and 32 that divides the row, or 0 if none of them does. -/
def Widest (bytes width : Int) : Prop :=
  (width ∈ [128, 64, 32] ∧ Divides width bytes ∧
    ∀ other ∈ [128, 64, 32], Divides other bytes → other ≤ width) ∨
  (width = 0 ∧ ∀ other ∈ [128, 64, 32], ¬ Divides other bytes)

theorem divides_iff {width bytes : Int} (hwidth : 0 < width) :
    (width ≤ bytes && bytes.tmod width == 0) = true ↔ Divides width bytes := by
  rw [Bool.and_eq_true, decide_eq_true_eq, beq_iff_eq, ← Int.dvd_iff_tmod_eq_zero, Divides]
  constructor
  · rintro ⟨hle, hdvd⟩
    exact ⟨by omega, hdvd⟩
  · rintro ⟨hpos, hdvd⟩
    exact ⟨Int.le_of_dvd hpos hdvd, hdvd⟩

/-- `widthFor` tries the widths from the widest on, so the first that divides is the largest. -/
theorem widest_widthFor (bytes : Int) : Widest bytes (widthFor bytes) := by
  have hpos : ∀ w ∈ widths, 0 < w := by decide
  have hdescending : widths.Pairwise (· > ·) := by decide
  unfold widthFor
  cases hfind : widths.find? fun w => w ≤ bytes && bytes.tmod w == 0 with
  | none =>
    refine .inr ⟨rfl, fun other hother hdivides => ?_⟩
    exact List.find?_eq_none.mp hfind other hother ((divides_iff (hpos other hother)).mpr hdivides)
  | some w =>
    obtain ⟨hw, before, after, hsplit, hbefore⟩ := List.find?_eq_some_iff_append.mp hfind
    have hmem : w ∈ widths := List.mem_of_find?_eq_some hfind
    refine .inl ⟨hmem, (divides_iff (hpos w hmem)).mp hw, fun other hother hdivides => ?_⟩
    have htried := (divides_iff (hpos other hother)).mpr hdivides
    rw [hsplit] at hdescending
    obtain ⟨-, hafter, -⟩ := List.pairwise_append.mp hdescending
    -- what was tried before does not divide, and what comes after is not larger
    rcases List.mem_append.mp (hsplit ▸ hother : other ∈ before ++ w :: after) with h | h
    · exact absurd (hbefore other h) (by simp only [htried, Bool.not_true, Bool.false_eq_true,
        not_false_eq_true])
    · rcases List.mem_cons.mp h with rfl | h
      · exact Int.le_refl _
      · exact Int.le_of_lt ((List.pairwise_cons.mp hafter).1 other h)

theorem Widest.unique {bytes width width' : Int} (h : Widest bytes width)
    (h' : Widest bytes width') : width = width' := by
  rcases h with ⟨hmem, hdivides, hlargest⟩ | ⟨rfl, hnone⟩
  · rcases h' with ⟨hmem', hdivides', hlargest'⟩ | ⟨-, hnone'⟩
    · exact Int.le_antisymm (hlargest' width hmem hdivides) (hlargest width' hmem' hdivides')
    · exact absurd hdivides (hnone' width hmem)
  · rcases h' with ⟨hmem', hdivides', -⟩ | ⟨rfl, -⟩
    · exact absurd hdivides' (hnone width' hmem')
    · rfl

/-! ## The order of a fitted layout -/

/-- The layout that is fitted to a tile from the order of `n`. -/
def refitted (n : NvMma) (rank : Nat) (bytes : Int) : NvMma :=
  { n with
    swizzlingByteWidth := widthFor bytes
    transposed := decide (2 ≤ rank) && n.transposed }

/-- The order of `n` with fewer than two dimensions, where there is nothing to exchange. -/
theorem order_of_lt_two (n : NvMma) {rank : Nat} (hrank : rank < 2) :
    SharedLayout.order (.nvMma n) rank = defaultOrder rank := by
  have hswap : SharedLayout.swapFront (defaultOrder rank) = defaultOrder rank := by
    match rank, hrank with
    | 0, _ => rfl
    | 1, _ => rfl
  rw [SharedLayout.order, hswap, ite_self]

theorem order_refitted (n : NvMma) (rank : Nat) (bytes : Int) :
    SharedLayout.order (.nvMma (n.refitted rank bytes)) rank =
      SharedLayout.order (.nvMma n) rank := by
  rcases Nat.lt_or_ge rank 2 with hlt | hle
  · rw [order_of_lt_two _ hlt, order_of_lt_two _ hlt]
  · simp only [SharedLayout.order, refitted, hle, decide_true, Bool.true_and]

/-- The `fast` dimension tells the two orders of `n` apart, where there are two. -/
theorem exists_order_eq_cons (n : NvMma) {rank : Nat} (hrank : 1 ≤ rank) :
    ∃ fast rest, SharedLayout.order (.nvMma n) rank = fast :: rest ∧ 0 ≤ fast ∧ fast < rank ∧
      (decide (2 ≤ rank) && decide (fast ≠ (rank : Int) - 1)) =
        (decide (2 ≤ rank) && n.transposed) := by
  match rank, hrank with
  | 1, _ => exact ⟨0, [], n.order_of_lt_two (by decide), by decide, by decide, rfl⟩
  | rank + 2, _ =>
    have hlast : (rank : Int) + 2 - 1 = rank + 1 := by omega
    cases hflag : n.transposed with
    | false =>
      refine ⟨(rank : Int) + 1, rank :: defaultOrder rank, ?_, by omega, by omega, ?_⟩
      · simp [SharedLayout.order, hflag, defaultOrder_add_two]
      · simp [hlast]
    | true =>
      have hne : (rank : Int) ≠ rank + 1 := by omega
      refine ⟨rank, ((rank : Int) + 1) :: defaultOrder rank, ?_, by omega, by omega, ?_⟩
      · simp [SharedLayout.order, hflag, defaultOrder_add_two, SharedLayout.swapFront]
      · simp [hlast, hne]

/-- A tile is fitted with the order of `n`, whatever its shape is. -/
theorem forTile?_order (n : NvMma) {shape : List Int} (hshape : 1 ≤ shape.length) :
    ∃ fast extent, (SharedLayout.order (.nvMma n) shape.length).head? = some fast ∧
      pick? (n.cta.shapePerCTA shape) fast = some extent ∧
      forTile? shape (SharedLayout.order (.nvMma n) shape.length) n.cta n.elementBitWidth =
        some { n.refitted shape.length ((wrap64 (extent * n.elementBitWidth)).tdiv 8) with
          fp4Padded := false } := by
  have hlength : (SharedLayout.order (.nvMma n) shape.length).length = shape.length :=
    (SharedLayout.perm_order_nvMma n shape.length).length_eq.trans (length_dimensions _)
  obtain ⟨fast, rest, horder, hnonneg, hlt, hflag⟩ := n.exists_order_eq_cons hshape
  rw [← CTALayout.length_shapePerCTA n.cta] at hlt
  obtain ⟨extent, hextent⟩ := exists_pick?_iff.mpr ⟨hnonneg, hlt⟩
  refine ⟨fast, extent, by rw [horder, List.head?_cons], hextent, ?_⟩
  unfold forTile?
  rw [if_neg (not_not_intro hlength), horder]
  simp only [hextent, Option.bind_eq_bind, Option.bind_some, hflag, refitted]

end NvMma

/-! ## The layout of a load -/

namespace Buffer

open BuildM Build Ops

variable {c : Context} {i : OpId}

/-- `localAllocLayout` without an allocation among the users chooses nothing, and says nothing. -/
theorem localAllocLayout_of_no_alloc
    (h : ∀ user ∈ c.graph.opUsers i, (c.graph.op user).name ≠ Kinds.localAlloc) :
    localAllocLayout i c = .ok none c := by
  have hnone : (c.graph.opUsers i).filter (fun u => (c.graph.op u).name == Kinds.localAlloc) = [] :=
    List.filter_eq_nil_iff.mpr fun user huser => by simpa using h user huser
  have hlayouts : allocLayouts? c.graph (c.graph.opUsers i) = some [] := by
    rw [allocLayouts?, hnone]
    rfl
  have hgraph : BuildM.graph c = .ok c.graph c := rfl
  rw [localAllocLayout, bind_of_ok hgraph, hlayouts]
  rfl

/-- `descriptorLayout` is the layout `e` of the `tile`, or what is fitted from it. -/
theorem descriptorLayout_eq {ty tile : TensorTy} {desc : ValueId} {e fitted : NvMma}
    (hdesc : c.graph.segmentValue? i Seg.desc = some (some desc))
    (htile : c.graph.typeOf desc = some (.tensorDesc (some tile)))
    (henc : tile.encoding = some (.encoding (.shared (.nvMma e))))
    (hfitted : NvMma.forTile? ty.shape (SharedLayout.order (.nvMma e) ty.rank) e.cta
      e.elementBitWidth = some fitted) :
    descriptorLayout i ty c = .ok (.nvMma (if tile.shape = ty.shape then e else
      { fitted with fp4Padded := e.fp4Padded })) c := by
  have hvalue : segmentValue i Seg.desc c = .ok (some desc) c := by
    have hgraph : BuildM.graph c = .ok c.graph c := rfl
    rw [segmentValue, bind_of_ok hgraph, hdesc]
    rfl
  have htype : typeOf desc c = .ok (some (.tensorDesc (some tile))) c := by
    rw [← htile]
    rfl
  have hshared : tile.encoding.bind Attr.shared? = some (.nvMma e) := by
    rw [henc]
    rfl
  -- the descriptor is found, its tile and the layout of the tile; then only the shapes matter
  rw [descriptorLayout, bind_of_ok hvalue]
  dsimp only
  rw [bind_of_ok htype]
  dsimp only
  rw [hshared]
  dsimp only
  split
  · rfl
  · rw [hfitted]
    rfl

/-- `sharedLayout` of a load through a descriptor, of a tile with at least one dimension, whose
result no allocation reads and whose descriptor has a layout `e` for the tensor cores, is such a
layout, and nothing changes. It has the split over the cluster, the width of the elements, the
padding and the order of `e`, and is `e` if the tile has the descriptor's shape. Otherwise its
swizzle is the `Widest` for the bytes that one block holds along the fastest dimension of the order.
-/
theorem sharedLayout_of_descriptor {res desc : ValueId} {ty tile : TensorTy} {e : NvMma}
    (hload : (c.graph.op i).name = Kinds.descriptorLoad ∨
      (c.graph.op i).name = Kinds.descriptorGather)
    (hres : (c.graph.op i).results.head? = some res) (hty : c.graph.typeOf res = some (.tensor ty))
    (hrank : 1 ≤ ty.rank)
    (halloc : ∀ user ∈ c.graph.opUsers i, (c.graph.op user).name ≠ Kinds.localAlloc)
    (hdesc : c.graph.segmentValue? i Seg.desc = some (some desc))
    (htile : c.graph.typeOf desc = some (.tensorDesc (some tile)))
    (henc : tile.encoding = some (.encoding (.shared (.nvMma e)))) :
    ∃ n : NvMma, sharedLayout i c = .ok (.nvMma n) c ∧
      n.cta = e.cta ∧ n.elementBitWidth = e.elementBitWidth ∧ n.fp4Padded = e.fp4Padded ∧
      SharedLayout.order (.nvMma n) ty.rank = SharedLayout.order (.nvMma e) ty.rank ∧
      (tile.shape = ty.shape → n = e) ∧
      (tile.shape ≠ ty.shape → ∃ fast extent,
        (SharedLayout.order (.nvMma e) ty.rank).head? = some fast ∧
        pick? (e.cta.shapePerCTA ty.shape) fast = some extent ∧
        NvMma.Widest ((wrap64 (extent * e.elementBitWidth)).tdiv 8) n.swizzlingByteWidth) := by
  obtain ⟨fast, extent, hfast, hextent, hfitted⟩ := e.forTile?_order hrank
  have hrun : sharedLayout i c = descriptorLayout i ty c := by
    have hgraph : BuildM.graph c = .ok c.graph c := rfl
    have hkind : isDescriptorLoad c.graph i = true := by
      simpa only [isDescriptorLoad, Bool.or_eq_true, beq_iff_eq] using hload
    obtain ⟨rest, hresults⟩ := List.head?_eq_some_iff.mp hres
    -- no allocation gives a layout before the descriptor is asked
    rw [sharedLayout, bind_of_ok hgraph, hresults]
    dsimp only
    rw [hty]
    dsimp only
    rw [bind_of_ok (localAllocLayout_of_no_alloc halloc)]
    dsimp only
    rw [hkind]
    rfl
  rw [hrun, descriptorLayout_eq hdesc htile henc hfitted]
  by_cases hshape : tile.shape = ty.shape
  · rw [if_pos hshape]
    exact ⟨e, rfl, rfl, rfl, rfl, rfl, fun _ => rfl, fun hne => absurd hshape hne⟩
  · rw [if_neg hshape]
    exact ⟨_, rfl, rfl, rfl, rfl, e.order_refitted ty.rank _, fun heq => absurd heq hshape,
      fun _ => ⟨fast, extent, hfast, hextent, NvMma.widest_widthFor _⟩⟩

/-- A `descriptorGather` of half as many columns as the tile of its descriptor has. The rows are
split over two blocks, and the layout of the tile has them as the fastest dimension. -/
def gathering : Graph where
  ops := #[{ name := Kinds.descriptorGather, kind := none, loc := {}, operands := [⟨0⟩]
             segments := [(Seg.desc, 1), (Seg.xOffsets, 0), (Seg.yOffset, 0)], results := [⟨1⟩] }]
  values := #[
    { ty := some (.tensorDesc (some tile)), source := .argument ⟨0⟩ 0, uses := [⟨0⟩] },
    { ty := some (.tensor ⟨[64, 32], some .f16, none⟩), source := .result ⟨0⟩ 0, uses := [] }]
  slots := #[⟨⟨0⟩, 0, some ⟨0⟩⟩]
where
  split : CTALayout := ⟨[2, 1], [2, 1], [1, 0]⟩
  layout : NvMma := ⟨128, true, 16, true, split⟩
  tile : TensorTy := ⟨[64, 64], some .f16, some (.encoding (.shared (.nvMma layout)))⟩

/-- In `gathering` one block holds 32 of the rows, which are 64 bytes of a column. -/
theorem gathering_refitted :
    gathering.tile.shape ≠ [64, 32] ∧
    ∃ n : NvMma, sharedLayout ⟨0⟩ { graph := gathering } = .ok (.nvMma n) { graph := gathering } ∧
      n.cta = gathering.split ∧ n.elementBitWidth = 16 ∧ n.fp4Padded = true ∧
      SharedLayout.order (.nvMma n) 2 = [0, 1] ∧ n.swizzlingByteWidth = 64 := by
  have hshape : gathering.tile.shape ≠ [64, 32] := by decide
  obtain ⟨n, hrun, hcta, hbits, hpadded, horder, -, hwidth⟩ :=
    sharedLayout_of_descriptor (c := { graph := gathering }) (i := ⟨0⟩) (.inr rfl) rfl rfl
      (by decide) (by decide +kernel) rfl rfl rfl
  obtain ⟨_, _, ⟨⟩, ⟨⟩, hwidest⟩ := hwidth hshape
  exact ⟨hshape, n, hrun, hcta, hbits, hpadded, horder, hwidest.unique (NvMma.widest_widthFor 64)⟩

end Buffer

end Multistage
