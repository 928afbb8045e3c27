import Multistage.Ops.Control

/-!
# Options of a loop
-/

namespace Multistage.Loop

open BuildM Ops

/-- On a loop: its accumulators must not be buffered several times. -/
def disallowAccMultiBufferAttr : String := "tt.disallow_acc_multi_buffer"

/-- On a loop: its number of stages. -/
def numStagesAttr : String := "tt.num_stages"

/-- The number of stages if nobody asks for another. -/
def defaultNumStages : Int := 2

/-- Whether the accumulators of a loop must not be buffered several times. -/
def disallowsAccMultiBuffer (g : Graph) (loop : OpId) : Bool :=
  (g.op loop).attrs.contains disallowAccMultiBufferAttr

/-- The number of stages set on a loop, and `fallback` if none is. -/
def numStages (g : Graph) (loop : OpId) (fallback : Int) : Int :=
  match (g.op loop).attrs.get? numStagesAttr with
  | some (.integer n _) => n
  | _ => fallback

/-- Whether a loop directly contains another one. -/
def isOuter (loop : OpId) : BuildM Bool := do
  let body ← forBody loop
  let g ← graph
  return (g.block body).ops.any fun i =>
    (g.op i).name == Kinds.forLoop || (g.op i).name == Kinds.whileLoop

end Multistage.Loop
