import Multistage.Encoding.Basic

/-!
# Choosing a shared layout

The two shared layouts that are derived from what will be read: `Swizzled.forDotOperand?` for a
tile that is loaded as an operand of a product, without bank conflicts, and `NvMma.forTile?` for a
tile that the tensor cores read in place. Both answer `none` if the order names a dimension that the
shape does not have, and the first also if it has to divide by zero (`quotient?`).
-/

namespace Multistage

/-- The layout without swizzling. -/
def Swizzled.plain (order : List Int) (cta : CTALayout) : Swizzled :=
  { vec := 1, perPhase := 1, maxPhase := 1, statedOrder := some order, cta }

/-- Whether operands of products accumulated in this layout are loaded from swizzled memory. -/
def Mma.swizzles (m : Mma) : Bool :=
  m.versionMajor == 2 || m.versionMajor == 3

/-- The quotient `a / b`, cut towards zero. There is none by zero. -/
def quotient? (a b : Int) : Option Int :=
  if b = 0 then none else some (a.tdiv b)

/-- Rows that share a phase, for rows of which `elems` four-byte groups are loaded. -/
def rowsPerPhase? (elems : Int) : Option Int :=
  if 0 < elems then do
    let rows ← quotient? 128 elems
    some (max rows 1)
  else some 1

/-- The swizzled layout for operand `index` of a product, for an accumulator that loads from
swizzled memory. The contracted dimension is the innermost of the left operand and the second
innermost of the right one; operands of narrow types that are read across it stay unswizzled. -/
def Swizzled.forMma? (index kWidth : Int) (shape order : List Int) (cta : CTALayout)
    (bitWidth : Int) : Option Swizzled := do
  let fast ← order.head?
  let last : Int := shape.length - 1
  let inner := if index = 1 then last - 1 else last
  let chunk ← quotient? 32 bitWidth
  if chunk ≠ kWidth ∧ fast = inner then
    some (plain order cta)
  else
    let extent ← pick? (cta.shapePerCTA shape) fast
    let elems ← quotient? (wrap64 (extent * 4)) kWidth
    let perPhase ← rowsPerPhase? elems
    let tile : Int := 8
    let depth := wrap64 (4 * kWidth)
    let alongDepth := if index = 0 then fast == last else fast != last
    let vec := if alongDepth then depth else tile
    let stride := if alongDepth then tile else depth
    let phases ← quotient? stride perPhase
    some { vec, perPhase, maxPhase := max phases 1, statedOrder := some order, cta }

/-- The swizzled layout from which operand `index` of a product accumulated as `parent` is loaded
without bank conflicts. It stays unswizzled for other accumulators, for elements or chunks without
a width, and for shapes that are no matrix or that the order does not fit. -/
def Swizzled.forDotOperand? (index kWidth : Int) (parent : Option Encoding)
    (shape order : List Int) (cta : CTALayout) (bitWidth : Int) : Option Swizzled :=
  match parent with
  | some (.mma m) =>
    if !m.swizzles || bitWidth ≤ 0 || kWidth ≤ 0 || shape.length < 2 ||
        order.length ≠ shape.length then
      some (plain order cta)
    else
      forMma? index kWidth shape order cta bitWidth
  | _ => some (plain order cta)

/-- The swizzle widths in bytes, widest first. -/
def NvMma.widths : List Int := [128, 64, 32]

/-- The widest swizzle that divides a row of `bytes` bytes evenly, and 0 if none does. -/
def NvMma.widthFor (bytes : Int) : Int :=
  (widths.find? fun w => w ≤ bytes && bytes.tmod w == 0).getD 0

/-- The layout that the tensor cores read, for a tile of this shape. -/
def NvMma.forTile? (shape order : List Int) (cta : CTALayout) (elementBitWidth : Int) :
    Option NvMma :=
  let plain : NvMma :=
    { swizzlingByteWidth := 0, transposed := false, elementBitWidth, fp4Padded := false, cta }
  if order.length ≠ shape.length then some plain
  else
    match order with
    | [] => some plain
    | fast :: _ => do
      let extent ← pick? (cta.shapePerCTA shape) fast
      some { plain with
        swizzlingByteWidth := widthFor ((wrap64 (extent * elementBitWidth)).tdiv 8)
        transposed := 2 ≤ shape.length && fast ≠ shape.length - 1 }

end Multistage
