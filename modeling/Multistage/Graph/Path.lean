import Multistage.Graph.Basic

/-!
# Paths

Short texts that name a block, a value or a slot by its place: `#4/0/1` is block 1 of region 0 of
operation 4, `#4:0` is result 0 of operation 4, `#4/0/1:2` is argument 2 of that block, and `4@1`
is operand slot 1 of operation 4.
-/

namespace Multistage.Graph

/-- `#` and the number of operation `i`. -/
def opPath (i : OpId) : String := "#" ++ toString i.index

/-- The path of a block; it is empty for a block that no region holds. -/
def blockPath (g : Graph) (b : BlockId) : String :=
  match (g.block b).home with
  | none => ""
  | some r =>
    let blocks := (g.op r.op).regions[r.index]?.getD []
    opPath r.op ++ "/" ++ toString r.index ++ "/" ++ toString (blocks.idxOf b)

/-- The path of the operation or block that `v` comes from, and its number there. -/
def valuePath (g : Graph) (v : ValueId) : String :=
  match (g.value v).source with
  | .result i k => opPath i ++ ":" ++ toString k
  | .argument b k => g.blockPath b ++ ":" ++ toString k

/-- The number of the owner of slot `s`, and the position of the slot among its operands. -/
def slotPath (g : Graph) (s : SlotId) : String :=
  toString (g.slot s).owner.index ++ "@" ++ toString (g.slot s).index

end Multistage.Graph
