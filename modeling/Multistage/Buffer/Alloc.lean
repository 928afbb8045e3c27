import Multistage.Ops.Arith
import Multistage.Ops.Kernel
import Multistage.Ops.SharedMemory
import Multistage.Ops.TensorCore

/-!
# Buffers around a loop

Multi-stage buffers in shared memory: a buffer has one more dimension than what it holds, in front,
with an extent for every stage. What is allocated right before a loop is freed right after it.
-/

namespace Multistage.Buffer

open BuildM Build Ops

/-- The type of a mutable allocation in shared memory. -/
def allocTy (shape : List Int) (elem : Option Ty) (layout : Option SharedLayout) : MemDescTy :=
  .whole shape elem (layout.map fun s => .encoding (.shared s)) (some .sharedMemory) true

/-- The type of one stage of a buffer: the leading dimension is gone and the shape of the
allocation stays. A buffer without dimensions has no stages. -/
def viewTy? (t : MemDescTy) : Option MemDescTy :=
  match t.shape with
  | [] => none
  | _ :: shape => some { t with shape, memorySpace := some .sharedMemory, isMutable := true }

/-- Allocates a buffer for `distance` copies of a tensor before a loop, and frees it after. -/
def createAlloc (loop : OpId) (ty : TensorTy) (loc : Location) (layout : Option SharedLayout)
    (distance : Int) : BuildM ValueId := do
  let here ← cursorBefore loop
  withCursor { here with loc } do
    let memTy := allocTy (distance :: ty.shape) ty.elem layout
    let alloc ← localAlloc memTy none
    moveAfter loop
    let g ← graph
    setLoc (g.op loop).loc
    discard <| localDealloc (some alloc)
    trace 3 ("pipeliner: allocated " ++ partText memTy.text ++ " around " ++ (g.label loop).text)
    return alloc

/-- The number of thread blocks of the module around the cursor. -/
def numCTAsHere : BuildM Int := do
  let g ← graph
  match (← cursor).block.bind g.blockParent with
  | some p => return numCTAs g p
  | none => return 1

/-- Allocates a buffer of scalars at the cursor, split over the thread blocks of the module. -/
def createScalarAlloc (elem : Option Ty) (numBuffers : Int) : BuildM ValueId := do
  let cta : CTALayout := { ctasPerCGA := [← numCTAsHere], splitNum := [1], order := [0] }
  localAlloc (allocTy [numBuffers] elem (some (.swizzled (Swizzled.plain [0] cta)))) none

/-- A view of the stage of a buffer that a value selects. The leading dimension is dropped, except
that a view of a one-dimensional buffer keeps extent 1. -/
def createSingleBufferViewAt (alloc idx : Option ValueId) : BuildM ValueId := do
  let allocTy ← bufferTy (← present alloc)
  match allocTy.shape with
  | _ :: d :: rest =>
    let zero ← constantInt 0 (some Ty.i32)
    let offsets := idx :: List.replicate (rest.length + 1) (some zero)
    memDescSubview { allocTy with shape := d :: rest } alloc offsets
  | _ => memDescSubview { allocTy with shape := [1] } alloc [idx]

/-- A view of stage `idx` of a buffer. -/
def createSingleBufferView (alloc : Option ValueId) (idx : Int) : BuildM ValueId := do
  let idx ← constantInt idx (some Ty.i32)
  createSingleBufferViewAt alloc (some idx)

/-- Does something with every stage of a buffer, in order. -/
def forStages (alloc : ValueId) (n : Int) (work : ValueId → BuildM OpId) : BuildM Unit :=
  (List.range n.toNat).forM fun k => do
    let view ← createSingleBufferView (some alloc) k
    discard <| work view

/-- Allocates `n` barriers before a loop, each prepared for one arrival, and invalidates and frees
them after it. -/
def createBarrierAlloc (loop : OpId) (n : Int) : BuildM ValueId := do
  withCursor (← cursorBefore loop) do
    let alloc ← createScalarAlloc (some Ty.i64) n
    forStages alloc n fun view => initBarrier (some view) 1
    moveAfter loop
    forStages alloc n fun view => invalBarrier (some view)
    discard <| localDealloc (some alloc)
    let g ← graph
    trace 3 ("pipeliner: allocated " ++ toString n ++ " barriers around " ++ (g.label loop).text)
    return alloc

end Multistage.Buffer
