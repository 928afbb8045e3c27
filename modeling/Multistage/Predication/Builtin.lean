import Multistage.Ops.Kinds
import Multistage.Predication.Strategy

/-!
# The built-in strategies

Every built-in kind with effects that can be predicated has exactly one strategy.
-/

namespace Multistage.StrategyTable

/-- Kinds that may run in every stage: they are idempotent or already ordered by others. -/
def exempt : List (String × Strategy) :=
  [Kinds.assume, Kinds.asyncCommitGroup, Kinds.asyncWait, Kinds.localLoad, Kinds.localStore,
    Kinds.tmemAlloc, Kinds.tmemLoad].map (·, { kind := .exempt })

/-- Kinds with a mask that fits the type of another operand. -/
def masked : List (String × Strategy) := [
  (Kinds.asyncCopyGlobalToLocal, { kind := .mask, segment := Seg.mask, ref := Seg.src }),
  (Kinds.load, { kind := .mask, segment := Seg.mask, ref := Seg.ptr }),
  (Kinds.store, { kind := .mask, segment := Seg.mask, ref := Seg.ptr }),
  (Kinds.atomicRMW, { kind := .mask, segment := Seg.mask, ref := Seg.ptr })]

/-- Kinds with a predicate operand. -/
def guarded : List (String × Strategy) :=
  [Kinds.asyncTMACopyGlobalToLocal, Kinds.asyncTMAGather, Kinds.barrierExpect, Kinds.tmemStore,
    Kinds.tcGen5MMA, Kinds.tcGen5MMAScaled, Kinds.waitBarrier, Kinds.arriveBarrier].map
    (·, { kind := .mask, segment := Seg.pred })

/-- The strategies that every program starts from. -/
def builtin : StrategyTable where
  entries := exempt ++ [(Kinds.ifElse, { kind := .condition, segment := Seg.condition })] ++
    masked ++ guarded ++
    [(Kinds.consumeToken, { kind := .tokenConsume }), (Kinds.wait, { kind := .branch })]

end Multistage.StrategyTable
