import Multistage.Builder

/-!
# Barriers, bulk copies, tensor memory, tensor cores and signals
-/

namespace Multistage.Ops

open BuildM Build

/-! ## Barriers -/

/-- Prepares a barrier for `count` arrivals. -/
def initBarrier (alloc : Option ValueId) (count : Int) : BuildM OpId :=
  create
    { name := Kinds.initBarrier, segments := [[alloc]]
      attrs := .single "count" (some (.i32 count)) }

/-- Invalidates a barrier. -/
def invalBarrier (alloc : Option ValueId) : BuildM OpId :=
  create { name := Kinds.invalBarrier, segments := [[alloc]] }

/-- Announces `size` bytes on a barrier. -/
def barrierExpect (alloc : Option ValueId) (size : Int) (pred : Option ValueId) : BuildM OpId :=
  create
    { name := Kinds.barrierExpect, segments := [[alloc], [pred]]
      attrs := .single "size" (some (.i32 size)) }

/-- Waits for a phase of a barrier. -/
def waitBarrier (alloc phase pred : Option ValueId) (deps : List (Option ValueId)) :
    BuildM OpId :=
  create { name := Kinds.waitBarrier, segments := [[alloc], [phase], [pred], deps] }

/-- Signals `count` arrivals on a barrier. -/
def arriveBarrier (alloc : Option ValueId) (count : Int) (pred : Option ValueId) : BuildM OpId :=
  create
    { name := Kinds.arriveBarrier, segments := [[alloc], [pred]]
      attrs := .single "count" (some (.i32 count)) }

/-! ## Bulk copies -/

/-- Copies the tile of a descriptor at coordinates and signals a barrier. -/
def asyncTMACopyGlobalToLocal (desc : Option ValueId) (coord : List (Option ValueId))
    (barrier result pred : Option ValueId) : BuildM OpId :=
  create
    { name := Kinds.asyncTMACopyGlobalToLocal
      segments := [[desc], coord, [barrier], [result], [pred]] }

/-- Gathers rows of a descriptor into a buffer. -/
def asyncTMAGather (desc xOffsets yOffset barrier result pred : Option ValueId) : BuildM OpId :=
  create
    { name := Kinds.asyncTMAGather
      segments := [[desc], [xOffsets], [yOffset], [barrier], [result], [pred]] }

/-! ## Tensor memory and tensor cores -/

/-- Allocates tensor memory, filled from registers if there is a source. -/
def tmemAlloc (ty : MemDescTy) (src : Option ValueId) : BuildM ValueId :=
  createValue { name := Kinds.tmemAlloc, segments := [[src]], results := [some (.memDesc ty)] }

/-- Reads tensor memory into registers. -/
def tmemLoad (ty : Option Ty) (src : Option ValueId) : BuildM OpId :=
  create { name := Kinds.tmemLoad, segments := [[src]], results := [ty] }

/-- Writes registers into tensor memory. -/
def tmemStore (dst src pred : Option ValueId) : BuildM OpId :=
  create { name := Kinds.tmemStore, segments := [[dst], [src], [pred]] }

/-- Issues a product on the tensor cores and arrives on barriers when it is done. -/
def tcGen5MMA (a b d useD pred : Option ValueId) (barriers : List (Option ValueId)) :
    BuildM OpId :=
  create { name := Kinds.tcGen5MMA, segments := [[a], [b], [d], [useD], [pred], barriers] }

/-- A product on the tensor cores with scale factors. -/
def tcGen5MMAScaled (a b d aScale bScale useD pred : Option ValueId)
    (barriers : List (Option ValueId)) : BuildM OpId :=
  create
    { name := Kinds.tcGen5MMAScaled
      segments := [[a], [b], [d], [aScale], [bScale], [useD], [pred], barriers] }

/-- Whether an operation is a product on the tensor cores with its accumulator in tensor memory. -/
def isMMAv5 (g : Graph) (i : OpId) : Bool :=
  (g.op i).name == Kinds.tcGen5MMA || (g.op i).name == Kinds.tcGen5MMAScaled

/-! ## Signals between devices -/

/-- Waits until all signals have a value, and gives a token. -/
def wait (barrierPtrs : List (Option ValueId)) (waitValue : Option ValueId) (ty : Option Ty) :
    BuildM OpId :=
  create
    { name := Kinds.wait, segments := [barrierPtrs, [waitValue]], results := [ty]
      attrs := .ofList
        [("scope", some (.ofString "gpu")), ("semantic", some (.ofString "acquire"))] }

/-- A value, ordered after a token. -/
def consumeToken (input : ValueId) (token : Option ValueId) : BuildM OpId := do
  let ty ← typeOf input
  create { name := Kinds.consumeToken, segments := [[some input], [token]], results := [ty] }

end Multistage.Ops
