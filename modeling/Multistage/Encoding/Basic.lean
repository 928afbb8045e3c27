import Multistage.Word

/-!
# Encodings

How a tensor lies on the machine. A *register encoding* spreads its elements over the threads of a
block: `Blocked` in contiguous chunks, `Mma` as the accumulator of a tensor-core instruction, a dot
operand as one of the inputs of such an instruction. A *shared layout* places them in on-chip
memory: `Swizzled` exclusive-ors the rows of a tile, `NvMma` is the layout that the tensor cores
and the bulk-copy engine read directly. Each of them says how the tensor is split over the blocks
of a cluster (`CTALayout`), and in which order its dimensions vary, fastest first.
-/

namespace Multistage

/-- How a tensor is split over the thread blocks (CTAs) of a cluster (CGA), one entry a dimension. -/
structure CTALayout where
  /-- Number of blocks along each dimension. -/
  ctasPerCGA : List Int
  /-- Number of parts that each dimension is split into. -/
  splitNum : List Int
  /-- The dimensions, fastest varying first. -/
  order : List Int
  deriving DecidableEq, Repr, Inhabited

/-- The longest list of dimensions that fits into memory, two to the power of 45. -/
def maxRank : Int := 35184372088832

/-- The row-major order of `rank` dimensions: the last one is the fastest. -/
def defaultOrder (rank : Nat) : List Int :=
  (List.range rank).reverse.map Int.ofNat

@[simp] theorem length_defaultOrder (rank : Nat) : (defaultOrder rank).length = rank := by
  rw [defaultOrder, List.length_map, List.length_reverse, List.length_range]

/-- The row-major order names every dimension and nothing else. -/
theorem mem_defaultOrder {rank : Nat} {d : Int} :
    d ∈ defaultOrder rank ↔ 0 ≤ d ∧ d < rank := by
  simp only [defaultOrder, List.mem_map, List.mem_reverse, List.mem_range]
  constructor
  · rintro ⟨n, hn, rfl⟩
    exact ⟨Int.natCast_nonneg n, Int.ofNat_lt.mpr hn⟩
  · rintro ⟨h0, hd⟩
    exact ⟨d.toNat, by omega, Int.toNat_of_nonneg h0⟩

/-- The row-major order, if `rank` is a possible number of dimensions. -/
def defaultOrder? (rank : Int) : Option (List Int) :=
  if 0 ≤ rank ∧ rank ≤ maxRank then some (defaultOrder rank.toNat) else none

namespace CTALayout

/-- The layout of a tensor that one block holds whole. -/
def single (rank : Nat) : CTALayout where
  ctasPerCGA := List.replicate rank 1
  splitNum := List.replicate rank 1
  order := defaultOrder rank

/-- The layout on one block, if `rank` is a possible number of dimensions. -/
def single? (rank : Int) : Option CTALayout :=
  if 0 ≤ rank ∧ rank ≤ maxRank then some (single rank.toNat) else none

/-- The number of parts of dimension `i`; a missing entry and one below 1 mean no split. -/
def splitOf (c : CTALayout) (i : Nat) : Int :=
  match c.splitNum[i]? with
  | some s => if 0 < s then s else 1
  | none => 1

/-- The part of a tensor of this shape that one block holds. Every extent is at least 1. -/
def shapePerCTA (c : CTALayout) (shape : List Int) : List Int :=
  shape.mapIdx fun i d => max (d.tdiv (c.splitOf i)) 1

@[simp] theorem length_shapePerCTA (c : CTALayout) (shape : List Int) :
    (c.shapePerCTA shape).length = shape.length :=
  List.length_mapIdx

theorem one_le_of_mem_shapePerCTA {c : CTALayout} {shape : List Int} {d : Int}
    (h : d ∈ c.shapePerCTA shape) : 1 ≤ d := by
  rw [shapePerCTA, List.mem_mapIdx] at h
  obtain ⟨i, hi, rfl⟩ := h
  exact Int.le_max_right _ 1

end CTALayout

/-- Contiguous chunks per thread, then per warp, then per block. -/
structure Blocked where
  sizePerThread : List Int
  threadsPerWarp : List Int
  warpsPerCTA : List Int
  /-- The dimensions, fastest varying first, if the layout names any order. -/
  statedOrder : Option (List Int)
  cta : CTALayout
  deriving DecidableEq, Repr

/-- The dimensions, fastest varying first; a layout without an order names none. -/
def Blocked.order (b : Blocked) : List Int := b.statedOrder.getD []

/-- The accumulator of the tensor-core instructions: version 2 is the synchronous warp-level kind,
version 3 the warp-group kind. -/
structure Mma where
  versionMajor : Int
  versionMinor : Int
  warpsPerCTA : List Int
  instrShape : List Int
  cta : CTALayout
  deriving DecidableEq, Repr

/-- `vec` consecutive elements stay together; rows are exclusive-ored every `perPhase` rows, with
`maxPhase` different phases. -/
structure Swizzled where
  vec : Int
  perPhase : Int
  maxPhase : Int
  /-- The dimensions, fastest varying first, if the layout names any order. -/
  statedOrder : Option (List Int)
  cta : CTALayout
  deriving DecidableEq, Repr

/-- The dimensions, fastest varying first; a layout without an order names none. -/
def Swizzled.order (s : Swizzled) : List Int := s.statedOrder.getD []

/-- 128-bit chunks swizzled within rows of `swizzlingByteWidth` bytes. -/
structure NvMma where
  swizzlingByteWidth : Int
  transposed : Bool
  elementBitWidth : Int
  fp4Padded : Bool
  cta : CTALayout
  deriving DecidableEq, Repr

/-- A layout of shared memory. -/
inductive SharedLayout where
  | swizzled (s : Swizzled)
  | nvMma (n : NvMma)
  deriving DecidableEq, Repr

/-- Every layout of a tensor, in registers or in shared memory. -/
inductive Encoding where
  | blocked (b : Blocked)
  | mma (m : Mma)
  /-- Operand `index` (0 for the left, 1 for the right one) of a product accumulated as `parent`,
  of which a thread holds `kWidth` consecutive elements along the contracted dimension. -/
  | dotOperand (index : Int) (kWidth : Int) (parent : Encoding)
  /-- An operand of a product whose accumulator has no layout yet. -/
  | looseDotOperand (index : Int) (kWidth : Int)
  | shared (s : SharedLayout)
  deriving DecidableEq, Repr

namespace SharedLayout

/-- How a buffer of this layout is split over the cluster. -/
def cta : SharedLayout → CTALayout
  | swizzled s => s.cta
  | nvMma n => n.cta

/-- Exchanges the first two entries. -/
def swapFront {α : Type} : List α → List α
  | a :: b :: rest => b :: a :: rest
  | short => short

/-- The dimensions of a buffer of this rank, fastest varying in memory first. -/
def order : SharedLayout → Nat → List Int
  | swizzled s, _ => s.order
  | nvMma n, rank => if n.transposed then swapFront (defaultOrder rank) else defaultOrder rank

/-- `order` for any number; a layout that counts the dimensions itself refuses an impossible one. -/
def order? : SharedLayout → Int → Option (List Int)
  | swizzled s, _ => some s.order
  | nvMma n, rank =>
    if 0 ≤ rank ∧ rank ≤ maxRank then some (order (nvMma n) rank.toNat) else none

end SharedLayout

namespace Encoding

/-- The split over the cluster. A dot operand is split as its accumulator is; without one it lives
on a single block. -/
def cta : Encoding → CTALayout
  | blocked b => b.cta
  | mma m => m.cta
  | dotOperand _ _ parent => parent.cta
  | looseDotOperand _ _ => CTALayout.single 2
  | shared s => s.cta

/-- The order of a dot operand: the contracted dimension first (the last dimension of the left
operand, the one before it of the right operand), then its partner, batch dimensions slowest. -/
def dotOrder (index rank : Int) : List Int :=
  let front := if index = 1 then [rank - 2, rank - 1] else [rank - 1, rank - 2]
  front ++ (List.range (rank - 2).toNat).reverse.map Int.ofNat

/-- The dimensions of a tensor of this rank, fastest varying over the registers of a thread first.
Shared layouts have none, and neither has an impossible rank that would have to be counted down. -/
def registerOrder? : Encoding → Int → Option (List Int)
  | blocked b, _ => some b.order
  | mma _, rank => defaultOrder? rank
  | dotOperand index _ _, rank => some (dotOrder index rank)
  | looseDotOperand index _, rank => some (dotOrder index rank)
  | shared _, _ => none

/-- The encoding as a shared layout, if it is one. -/
def shared? : Encoding → Option SharedLayout
  | shared s => some s
  | _ => none

end Encoding

end Multistage
