import Multistage.Encoding.Basic

/-!
# Printed encodings

The text of a layout. Two layouts count as equal when their texts are the same, so what a text
leaves out does not take part in the comparison: the texts of `Blocked` and `Mma` do not show how
the tensor is split over the cluster.
-/

namespace Multistage

/-- A list of numbers between square brackets. -/
def listText (xs : List Int) : String :=
  "[" ++ ", ".intercalate (xs.map toString) ++ "]"

/-- `true` or `false`. -/
def boolText (b : Bool) : String :=
  if b then "true" else "false"

/-- What is written for a part that is absent. -/
def absentText : String := "%!s(<nil>)"

/-- The three lists of `c`, each with its name. -/
def CTALayout.text (c : CTALayout) : String :=
  "CTAsPerCGA = " ++ listText c.ctasPerCGA ++ ", CTASplitNum = " ++ listText c.splitNum ++
    ", CTAOrder = " ++ listText c.order

/-- The text of `b`, which leaves out `b.cta`. -/
def Blocked.text (b : Blocked) : String :=
  "#ttg.blocked<\x7bsizePerThread = " ++ listText b.sizePerThread ++ ", threadsPerWarp = " ++
    listText b.threadsPerWarp ++ ", warpsPerCTA = " ++ listText b.warpsPerCTA ++ ", order = " ++
    listText b.order ++ "\x7d>"

/-- The text of `m`, which leaves out `m.cta`. -/
def Mma.text (m : Mma) : String :=
  "#ttg.nvidia_mma<\x7bversionMajor = " ++ toString m.versionMajor ++ ", versionMinor = " ++
    toString m.versionMinor ++ ", warpsPerCTA = " ++ listText m.warpsPerCTA ++
    ", instrShape = " ++ listText m.instrShape ++ "\x7d>"

/-- The text of `s`, with all its fields. -/
def Swizzled.text (s : Swizzled) : String :=
  "#ttg.swizzled_shared<\x7bvec = " ++ toString s.vec ++ ", perPhase = " ++ toString s.perPhase ++
    ", maxPhase = " ++ toString s.maxPhase ++ ", order = " ++ listText s.order ++ ", " ++
    s.cta.text ++ "\x7d>"

/-- The text of `n`, with all its fields. -/
def NvMma.text (n : NvMma) : String :=
  "#ttg.nvmma_shared<\x7bswizzlingByteWidth = " ++ toString n.swizzlingByteWidth ++
    ", transposed = " ++ boolText n.transposed ++ ", elementBitWidth = " ++
    toString n.elementBitWidth ++ ", fp4Padded = " ++ boolText n.fp4Padded ++ ", " ++
    n.cta.text ++ "\x7d>"

/-- The text of a layout of shared memory. -/
def SharedLayout.text : SharedLayout → String
  | swizzled s => s.text
  | nvMma n => n.text

/-- The text of a dot operand, given the text of its accumulator's layout. -/
def Encoding.dotText (index kWidth : Int) (parent : String) : String :=
  "#ttg.dot_op<\x7bopIdx = " ++ toString index ++ ", parent = " ++ parent ++ ", kWidth = " ++
    toString kWidth ++ "\x7d>"

/-- The text of a layout. -/
def Encoding.text : Encoding → String
  | blocked b => b.text
  | mma m => m.text
  | dotOperand index kWidth parent => dotText index kWidth parent.text
  | looseDotOperand index kWidth => dotText index kWidth absentText
  | shared s => s.text

end Multistage
