import Multistage.Encoding.Printer
import Multistage.Text.Quoted
import Multistage.Ty.Basic

/-!
# Printed types and attributes

The text of a type or an attribute. A tensor, a buffer or a type attribute without an element has
no text of its own (`none`). A text that stands inside a longer one is always there: `embedded`
writes a marker for a part that is absent and another for a part that has no text.

Two types, and two attributes, count as equal when their texts are.
-/

namespace Multistage

/-- What is written for a part whose own text cannot be written. -/
def unwritableText : String :=
  "%!s(PANIC=String method: runtime error: invalid memory address or nil pointer dereference)"

/-- The text of a part that is there, inside a longer text. -/
def partText (text : Option String) : String :=
  text.getD unwritableText

/-- The extents of a shape, each followed by a cross. -/
def extentsText (shape : List Int) : String :=
  String.join (shape.map fun d => toString d ++ "x")

/-- The extents of a shape with crosses between them. -/
def shapeText (shape : List Int) : String :=
  "x".intercalate (shape.map toString)

mutual

/-- The text of an attribute, if it has one. -/
def Attr.text : Attr → Option String
  | .integer value none => some (toString value)
  | .integer value (some t) => some (toString value ++ " : " ++ partText t.text)
  | .bool value => some (boolText value)
  | .string bytes => some (Text.quoteBytes bytes)
  | .unit => some "unit"
  | .i32Array values => some ("array<i32: " ++ ", ".intercalate (values.map toString) ++ ">")
  | .type none => none
  | .type (some t) => t.text
  | .sharedMemory => some "#ttg.shared_memory"
  | .tensorMemory => some "#ttng.tensor_memory"
  | .encoding e => some e.text

/-- The text of a type, if it has one. -/
def Ty.text : Ty → Option String
  | .integer width => some ("i" ++ toString width)
  | .float name _ => some name
  | .index => some "index"
  | .token name => some ("!" ++ name)
  | .pointer none => some ("!tt.ptr<" ++ absentText ++ ">")
  | .pointer (some t) => some ("!tt.ptr<" ++ partText t.text ++ ">")
  | .tensor t => t.text
  | .memDesc t => t.text
  | .tensorDesc none => some "!tt.tensordesc<<nil>>"
  | .tensorDesc (some t) => some ("!tt.tensordesc<" ++ partText t.text ++ ">")

/-- The text of a tensor type: its extents and element, then its encoding. -/
def TensorTy.text : TensorTy → Option String
  | ⟨_, none, _⟩ => none
  | ⟨shape, some elem, encoding⟩ => do
    let elem ← elem.text
    some ("tensor<" ++ extentsText shape ++ elem ++ trailingText encoding ++ ">")

/-- The text of a buffer type: its extents and element, then its encoding and memory space, then
whether it may be written, then the shape of the allocation if that is another one. -/
def MemDescTy.text : MemDescTy → Option String
  | ⟨_, none, _, _, _, _⟩ => none
  | ⟨shape, some elem, encoding, memorySpace, isMutable, allocShape⟩ => do
    let elem ← elem.text
    let isView := !allocShape.isEmpty && allocShape != shape
    some ("!ttg.memdesc<" ++ extentsText shape ++ elem ++ trailingText encoding ++
      trailingText memorySpace ++ (if isMutable then ", mutable" else "") ++
      (if isView then ", " ++ shapeText allocShape else "") ++ ">")

/-- A part that follows the others after a comma, if it is there. -/
def trailingText : Option Attr → String
  | none => ""
  | some a => ", " ++ partText a.text

end

/-- The text of a type that may be missing, inside a longer text. -/
def tyText : Option Ty → String
  | none => absentText
  | some t => partText t.text

/-- The text of an attribute that may be missing, inside a longer text. -/
def attrText : Option Attr → String
  | none => absentText
  | some a => partText a.text

/-- Whether two types are the same; `none` if one that has to be read has no text. -/
def sameTy? : Option Ty → Option Ty → Option Bool
  | some a, some b => do return (← a.text) == (← b.text)
  | none, none => some true
  | _, _ => some false

/-- Whether two attributes are the same; `none` if one that has to be read has no text. -/
def sameAttr? : Option Attr → Option Attr → Option Bool
  | some a, some b => do return (← a.text) == (← b.text)
  | none, none => some true
  | _, _ => some false

/-- Whether two shared layouts are the same. -/
def SharedLayout.same (a b : SharedLayout) : Bool := a.text == b.text

end Multistage
