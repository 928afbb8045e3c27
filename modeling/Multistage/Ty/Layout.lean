import Multistage.Encoding.Permute
import Multistage.Encoding.Swizzle
import Multistage.Ty.Basic

/-!
# Layouts of types

What the encoding of a tensor or a buffer says about its place in registers and in memory: the
order of its dimensions, its split over the cluster, the generic shared layout that fits it, how
many elements a thread can copy at once, and the type of a buffer with permuted dimensions.
-/

namespace Multistage

/-- The split over the cluster that an encoding asks for, and one block if it asks for none. -/
def ctaLayoutOf (enc : Option Attr) (rank : Nat) : CTALayout :=
  match enc with
  | some (.encoding (.looseDotOperand _ _)) => CTALayout.single rank
  | some (.encoding e) => e.cta
  | _ => CTALayout.single rank

/-- `ctaLayoutOf` for any number; an impossible rank is refused where it would be counted out. -/
def ctaLayoutOf? (enc : Option Attr) (rank : Int) : Option CTALayout :=
  match enc with
  | some (.encoding (.looseDotOperand _ _)) => CTALayout.single? rank
  | some (.encoding e) => some e.cta
  | _ => CTALayout.single? rank

namespace TensorTy

/-- The order of the dimensions over the registers of a thread; row-major without a register
encoding. -/
def order (t : TensorTy) : List Int :=
  match t.encoding with
  | some (.encoding e) => (e.registerOrder? t.rank).getD (defaultOrder t.rank)
  | _ => defaultOrder t.rank

/-- The generic shared layout of a tensor: no swizzling, the order of its registers, its split over
the cluster. It is always legal, and slow for matrices. -/
def genericShared (t : TensorTy) : Swizzled :=
  Swizzled.plain t.order (ctaLayoutOf t.encoding t.rank)

/-- The number of consecutive elements along dimension `fast` that a thread holds. -/
def elementsPerThread? (t : TensorTy) (fast : Int) : Option Int :=
  match t.encoding with
  | some (.encoding (.blocked b)) =>
    if fast < b.sizePerThread.length then pick? b.sizePerThread fast else some 1
  | _ => some 1

end TensorTy

/-- At most as many elements as stay together in the layout. -/
def SharedLayout.limitRun (s : SharedLayout) (n : Int) : Int :=
  match s with
  | swizzled z => if 1 < z.maxPhase then min n z.vec else n
  | nvMma m =>
    if 0 < m.swizzlingByteWidth ∧ 0 < m.elementBitWidth then
      min n (Int.tdiv 128 m.elementBitWidth)
    else n

/-- How many consecutive elements a thread that holds a tensor can write to consecutive addresses
of a buffer with this layout. There is no answer if one of the orders is empty or names a dimension
that the tensor does not have. -/
def contiguousElements? (reg : TensorTy) (layout : SharedLayout) : Option Int :=
  if reg.rank = 0 then some 1
  else do
    let fast ← reg.order.head?
    let fastInMemory ← (layout.order reg.rank).head?
    if fastInMemory ≠ fast then some 1
    else
      let n ← reg.elementsPerThread? fast
      let extent ← pick? reg.shape fast
      some (max (min (layout.limitRun n) extent) 1)

/-- The widest chunk in bytes that a thread can copy from registers into shared memory. -/
def copyVecBytes? (reg : TensorTy) (layout : SharedLayout) : Option Int := do
  let n ← contiguousElements? reg layout
  some ((wrap64 (n * elementBitWidth (some (.tensor reg)))).tdiv 8)

/-- The order that a value of this type keeps once it is stored in shared memory. There is none
for a type without dimensions and for a layout that names no order. -/
def orderForMemory : Option Ty → Option (List Int)
  | some (.tensor t) =>
    match t.encoding with
    | some (.encoding (.blocked b)) => b.statedOrder
    | _ => some t.order
  | some (.memDesc t) =>
    match t.encoding.bind Attr.shared? with
    | some (.swizzled s) => s.statedOrder
    | some layout => some (layout.order t.rank)
    | none => some (defaultOrder t.rank)
  | _ => none

/-- An encoding seen through a permutation of the dimensions; only shared layouts change. -/
def permuteEncoding? (enc : Option Attr) (perm : List Int) : Option (Option Attr) :=
  match enc with
  | some (.encoding (.shared s)) => do
    let s ← s.permute? perm
    some (some (.encoding (.shared s)))
  | _ => some enc

/-- A shape seen through a permutation of its dimensions; one of another rank stays as it is. -/
def permuteShape? (shape perm : List Int) : Option (List Int) :=
  if shape.length ≠ perm.length then some shape else perm.mapM (pick? shape)

/-- A buffer type with its dimensions permuted, for an order as long as the shape. -/
def MemDescTy.permute? (t : MemDescTy) (perm : List Int) : Option MemDescTy := do
  let shape ← permuteShape? t.shape perm
  let encoding ← permuteEncoding? t.encoding perm
  let allocShape ← permuteShape? t.allocShape perm
  some { t with shape, encoding, allocShape }

end Multistage
