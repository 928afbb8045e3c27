import Multistage.Failure
import Multistage.Graph.Uses

/-!
# Operand segments

The operands of an operation whose kind declares segments are one list of slots, cut into the
segments by their lengths. A segment is found by its name; of two segments with one name only the
first is found.
-/

namespace Multistage

namespace Op

/-- The first position and the length of a segment in a list of segments that starts at `start`. -/
def locate (name : String) (start : Nat) : List (String × Nat) → Option (Nat × Nat)
  | [] => none
  | (n, size) :: rest => if n = name then some (start, size) else locate name (start + size) rest

/-- The first position and the length of a segment. -/
def segment? (o : Op) (name : String) : Option (Nat × Nat) :=
  locate name 0 o.segments

/-- Whether the kind of `o` declares the segment. -/
def hasSegment (o : Op) (name : String) : Bool :=
  (o.segment? name).isSome

/-- The slots of a segment, none if the kind does not declare it. There is no answer if the segment
does not lie within the operands. -/
def segmentSlots? (o : Op) (name : String) : Option (List SlotId) :=
  match o.segment? name with
  | none => some []
  | some (start, size) =>
    if start + size ≤ o.operands.length then some ((o.operands.drop start).take size) else none

end Op

namespace Graph

/-- The values of a segment. -/
def segment? (g : Graph) (i : OpId) (name : String) : Option (List (Option ValueId)) := do
  let slots ← (g.op i).segmentSlots? name
  some (slots.map fun s => (g.slot s).value)

/-- The first value of a segment, if the kind declares it and it is not empty. There is no answer if
the segment starts outside the operands. -/
def segmentValue? (g : Graph) (i : OpId) (name : String) : Option (Option ValueId) :=
  match (g.op i).segment? name with
  | none => some none
  | some (_, 0) => some none
  | some (start, _ + 1) => do
    let s ← (g.op i).operands[start]?
    some (g.slot s).value

/-- Numbers the slots of an operation by their positions. -/
def renumber (g : Graph) (slots : List SlotId) : Graph :=
  slots.zipIdx.foldl (fun g (s, k) => g.modifySlot s fun x => { x with index := k }) g

/-- Puts values into slots, one each. -/
def assignEach (g : Graph) (slots : List SlotId) (vals : List ValueId) : Graph :=
  (slots.zip vals).foldl (fun g (s, v) => g.assign s (some v)) g

/-- Puts fresh slots with these values in place of `size` operands from `start` on, and records the
new length of the segment. -/
def spliceSegment (g : Graph) (i : OpId) (name : String) (start size : Nat)
    (vals : List ValueId) : Graph :=
  let old := (g.op i).operands
  let g := g.assignAll ((old.drop start).take size) none
  let (g, fresh) := g.addSlots i start (vals.map some)
  let operands := old.take start ++ fresh ++ old.drop (start + size)
  let g := g.renumber operands
  g.modifyOp i fun o =>
    { o with
      operands
      segments := o.segments.map fun (n, k) => if n = name then (n, vals.length) else (n, k) }

/-- Replaces the values of a segment; missing values are left out. The slots stay the same as long
as the number of values does. -/
def setSegment (g : Graph) (i : OpId) (name : String) (vals : List (Option ValueId)) :
    Except Failure Graph :=
  let o := g.op i
  let vals := vals.filterMap id
  match o.segment? name with
  | none => .error (.misuse (.noSegment o.name name))
  | some (start, size) =>
    if size = vals.length then
      let slots := (o.operands.drop start).take size
      if slots.length = size then .ok (g.assignEach slots vals) else .error .fault
    else if start + size ≤ o.operands.length then
      .ok (g.spliceSegment i name start size vals)
    else .error .fault

end Graph

end Multistage
