import Multistage.Ops.Kernel
import Multistage.Ops.SharedMemory

/-!
# The shared layout of a buffered result

Which layout a buffer for the result of an operation gets: that of an allocation which already
reads the result; for a load through a descriptor, that of the descriptor; the swizzled layout that
all users need if each of them turns the result into an operand of a product; and otherwise a
generic layout without swizzling.
-/

namespace Multistage.Buffer

open BuildM Build Ops

/-- What is said when allocations that read a result disagree. -/
def mixedEncodingsRemark : String :=
  "Pipelining load with different use encodings. This will lead to layout conversions and " ++
    "performance degradation."

/-! ## Allocations that read the result -/

/-- The shared layouts of the allocations among the users, in order. There is no answer if an
allocation has no buffer as its result. -/
def allocLayouts? (g : Graph) (users : List OpId) : Option (List SharedLayout) := do
  let layouts ← (users.filter fun u => (g.op u).name == Kinds.localAlloc).mapM fun u => do
    let res ← (g.op u).results.head?
    let ty ← (← g.typeOf res).memDesc?
    some (ty.encoding.bind Attr.shared?)
  some (layouts.filterMap id)

/-- The layout of the first allocation that reads a result, with a remark if others differ. -/
def localAllocLayout (i : OpId) : BuildM (Option SharedLayout) := do
  let g ← graph
  match ← present (allocLayouts? g (g.opUsers i)) with
  | [] => return none
  | chosen :: others =>
    if others.any fun s => !s.same chosen then
      emit .remark i mixedEncodingsRemark
    return some chosen

/-! ## Descriptors -/

/-- The layout that a load through a descriptor writes: the one of the descriptor's tile, fitted
again if the loaded tile has another shape. -/
def descriptorLayout (i : OpId) (ty : TensorTy) : BuildM SharedLayout := do
  match ← segmentValue i Seg.desc with
  | none =>
    emit .error i "unrecognized tma load type"
    reject (.noDescriptor ((← graph).label i))
  | some desc =>
    match ← typeOf desc with
    | some (.tensorDesc (some tile)) =>
      match tile.encoding.bind Attr.shared? with
      | none =>
        .nvMma <$> present (NvMma.forTile? ty.shape (defaultOrder ty.rank)
          (ctaLayoutOf ty.encoding ty.rank) (elementBitWidth (some (.tensor ty))))
      | some (.swizzled s) => return .swizzled s
      | some (.nvMma n) =>
        if tile.shape = ty.shape then return .nvMma n
        let fitted ← present (NvMma.forTile? ty.shape (SharedLayout.order (.nvMma n) ty.rank)
          n.cta n.elementBitWidth)
        return .nvMma { fitted with fp4Padded := n.fp4Padded }
    | other => reject (.noBlockType ((← graph).label i) other)

/-! ## Operands of products -/

/-- The layout that a value of this type needs in shared memory to be loaded as an operand of a
product; only tensors and buffers have one. There is no answer if the order of the value names a
dimension that it does not have. -/
def dotOperandShared? (ty : Option Ty) (index kWidth : Int) (parent : Option Encoding) :
    Option (Option SharedLayout) :=
  let forShape (shape : List Int) (enc : Option Attr) : Option (Option SharedLayout) := do
    let layout ← Swizzled.forDotOperand? index kWidth parent shape
      ((orderForMemory ty).getD []) (ctaLayoutOf enc shape.length) (elementBitWidth ty)
    some (some (.swizzled layout))
  match ty with
  | some (.tensor t) => forShape t.shape t.encoding
  | some (.memDesc t) => forShape t.shape t.encoding
  | _ => some none

/-- The layout that one user of `v` needs, if it has one result and either makes a buffer whose own
users all need a layout, as `deeper` tells, or loads or converts `v` to an operand of a product. -/
def neededBy? (g : Graph) (deeper : ValueId → Option (Option SharedLayout)) (v : ValueId)
    (user : OpId) : Option (Option SharedLayout) :=
  match (g.op user).results with
  | [res] =>
    match g.typeOf res with
    | some (.memDesc t) =>
      match t.encoding.bind Attr.shared? with
      | none => some none
      | some layout => do
        let inner ← deeper res
        some (inner.map fun _ => layout)
    | some (.tensor t) =>
      if (g.op user).name = Kinds.localLoad ∨ (g.op user).name = Kinds.convertLayout then
        match t.encoding with
        | some (.encoding (.dotOperand index kWidth parent)) =>
          dotOperandShared? (g.typeOf v) index kWidth (some parent)
        | some (.encoding (.looseDotOperand index kWidth)) =>
          dotOperandShared? (g.typeOf v) index kWidth none
        | _ => some none
      else some none
    | _ => some none
  | _ => some none

/-- The one layout that all users need, beside `acc`, which those before need. -/
def agreed? (needed : OpId → Option (Option SharedLayout)) :
    Option SharedLayout → List OpId → Option (Option SharedLayout)
  | acc, [] => some acc
  | acc, user :: rest =>
    match needed user with
    | none => none
    | some none => some none
    | some (some layout) =>
      if acc.all (·.same layout) then agreed? needed (some layout) rest else some none

/-- The layout that all users of a value need, through at most `n` buffers. -/
def dotLayoutWithin? (g : Graph) : Nat → ValueId → Option (Option SharedLayout)
  | 0, _ => some none
  | n + 1, v => agreed? (neededBy? g (dotLayoutWithin? g n) v) none (g.users v)

/-- The layout that all users of a value need to make it an operand of a product, if there are
users, each of them does so, and they need the same. -/
def dotLayout? (g : Graph) (v : ValueId) : Option (Option SharedLayout) :=
  dotLayoutWithin? g g.values.size v

/-! ## The choice -/

/-- The shared layout for buffering the first result of an operation. -/
def sharedLayout (i : OpId) : BuildM SharedLayout := do
  let g ← graph
  match (g.op i).results with
  | [] => reject (.noResult (g.label i))
  | res :: _ =>
    match g.typeOf res with
    | some (.tensor ty) =>
      if let some layout ← localAllocLayout i then return layout
      if isDescriptorLoad g i then return ← descriptorLayout i ty
      match ← present (dotLayout? g res) with
      | some layout =>
        trace 3 ("pipeliner: " ++ (g.label i).text ++ " feeds dot operands, using " ++ layout.text)
        return layout
      | none => return .swizzled ty.genericShared
    | other => reject (.notTensor (g.label i) other)

end Multistage.Buffer
