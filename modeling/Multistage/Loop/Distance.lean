import Multistage.Ops.Control

/-!
# Distances between iterations

A value that a loop yields comes back as an iteration argument in the next iteration. Following an
iteration argument backwards through the yield leads to the operation that produced it some
iterations earlier; following a value forwards leads to the iteration arguments that carry it some
iterations later.
-/

namespace Multistage.Loop

open BuildM Ops

/-- Follows a value back through the iteration arguments of a body, `n` hops at most, and counts
the hops from `distance` on. A chain that leaves the body or is too long has no origin. There is no
answer if the body yields nothing at the position of an argument. -/
def originWithin (g : Graph) (body : BlockId) (yielded : List (Option ValueId)) :
    Nat → Nat → ValueId → Option (Option ValueId × Nat)
  | n, distance, v =>
    match (g.value v).source with
    | .result _ _ => some (some v, distance)
    | .argument b k =>
      if b ≠ body ∨ k = 0 then some (none, 0)
      else
        match n with
        | 0 => some (none, 0)
        | n + 1 =>
          match yielded[k - 1]? with
          | some (some w) => originWithin g body yielded n (distance + 1) w
          | _ => none

/-- The operation result that a value comes from, and the number of iterations between them. An
operation result is its own origin; the induction variable, arguments of other blocks and chains
that never reach an operation have none. A chain takes one hop through each argument at most, so
one with more hops than the body yields values never ends. -/
def definitionAndDistance (loop : OpId) (v : ValueId) : BuildM (Option ValueId × Nat) := do
  let body ← forBody loop
  let g ← graph
  let yielded := yieldedBy g body
  present (originWithin g body yielded yielded.length 0 v)

/-- The operation that a value comes from, and the number of iterations between them. -/
def definingOpAndDistance (loop : OpId) (v : ValueId) : BuildM (Option OpId × Nat) := do
  let (origin, distance) ← definitionAndDistance loop v
  let g ← graph
  return (origin.bind g.definingOp, distance)

/-- Whether one of the values is a block argument; values are looked at one after the other, and a
missing one before that has no answer. -/
def anyArgument (g : Graph) : List (Option ValueId) → Option Bool
  | [] => some false
  | none :: _ => none
  | some v :: rest => if g.isArgument v then some true else anyArgument g rest

/-- Whether a loop yields a block argument, so that some value is used more than one iteration
after it was computed. -/
def hasDistanceAboveOne (loop : OpId) : BuildM Bool := do
  let yielded ← yieldedValues loop
  present (anyArgument (← graph) yielded)

end Multistage.Loop
