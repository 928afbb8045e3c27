import Multistage.Catalog

/-!
# The built-in kinds

The names of the kinds and of their operand segments, and the catalog that every program starts
from: integer arithmetic, structured control flow, kernels and their memory accesses, buffers in
shared memory, barriers, tensor memory and tensor cores, and signals between devices.
-/

namespace Multistage

/-! ## Operand segments -/

namespace Seg

/-- The left operand of a product. -/
def a := "a"
/-- The barrier that is acted on. -/
def alloc := "alloc"
/-- The scales of the left operand. -/
def aScale := "aScale"
/-- The right operand of a product. -/
def b := "b"
/-- The barrier that a bulk copy signals. -/
def barrier := "barrier"
/-- The signals that a `wait` waits for. -/
def barrierPtrs := "barrierPtrs"
/-- The barriers that a product signals when it is done. -/
def barriers := "barriers"
/-- The scales of the right operand. -/
def bScale := "bScale"
/-- The accumulator that a `dot` starts from. -/
def c := "c"
/-- The condition of an `ifElse`. -/
def condition := "condition"
/-- The position of the tile that a bulk copy moves. -/
def coord := "coord"
/-- The accumulator in tensor memory that a product updates. -/
def d := "d"
/-- What has to stay alive until a wait is over. -/
def deps := "deps"
/-- The descriptor of a bulk transfer. -/
def desc := "desc"
/-- The buffer that is written. -/
def dst := "dst"
/-- The position of the tile that a `descriptorLoad` reads. -/
def indices := "indices"
/-- The values that a `forLoop` carries at first. -/
def initArgs := "initArgs"
/-- The value that a `consumeToken` hands on. -/
def input := "input"
/-- The first value of a loop variable. -/
def lowerBound := "lowerBound"
/-- Where a load, a store or a copy acts. -/
def mask := "mask"
/-- The position of a view in its buffer. -/
def offsets := "offsets"
/-- What a masked load gives elsewhere. -/
def other := "other"
/-- The phase that a `waitBarrier` waits for. -/
def phase := "phase"
/-- Whether a barrier, a bulk copy or a product acts. -/
def pred := "pred"
/-- The addresses that are accessed. -/
def ptr := "ptr"
/-- The buffer that a copy fills. -/
def result := "result"
/-- What is read, copied or viewed. -/
def src := "src"
/-- The step of a `forLoop`. -/
def step := "step"
/-- The token that an operation comes after. -/
def token := "token"
/-- The bound of a loop variable. -/
def upperBound := "upperBound"
/-- Whether a product adds to its accumulator. -/
def useD := "useD"
/-- The value that is stored. -/
def value := "value"
/-- The value that a signal has to have. -/
def waitValue := "waitValue"
/-- The rows that a gather reads. -/
def xOffsets := "xOffsets"
/-- The first column that a gather reads. -/
def yOffset := "yOffset"

end Seg

/-! ## Kinds -/

namespace Kinds

/-- A constant, held as attribute `value`. -/
def constant := "arith.constant"
/-- Bitwise conjunction. -/
def andI := "arith.andi"
/-- Bitwise disjunction. -/
def orI := "arith.ori"
/-- Integer sum. -/
def addI := "arith.addi"
/-- Integer difference. -/
def subI := "arith.subi"
/-- Integer product. -/
def mulI := "arith.muli"
/-- Integer comparison, by attribute `predicate`. -/
def cmpI := "arith.cmpi"
/-- One of two values, by a condition. -/
def select := "arith.select"
/-- Conversion between `Ty.index` and integers. -/
def indexCast := "arith.index_cast"

/-- A counted loop that carries values. -/
def forLoop := "scf.for"
/-- A conditional with one region for each case. -/
def ifElse := "scf.if"
/-- A loop with a region for the test and one for the body. -/
def whileLoop := "scf.while"
/-- Ends a block of a loop or a conditional. -/
def yield := "scf.yield"
/-- Ends the test of a `whileLoop`. -/
def condition := "scf.condition"

/-- A module, the root of a program. -/
def module := "builtin.module"
/-- A function. -/
def func := "tt.func"
/-- Ends a function. -/
def ret := "tt.return"
/-- A tensor with one scalar everywhere. -/
def splat := "tt.splat"
/-- A load from global memory. -/
def load := "tt.load"
/-- A store to global memory. -/
def store := "tt.store"
/-- An atomic update of global memory. -/
def atomicRMW := "tt.atomic_rmw"
/-- A load of a tile through a descriptor. -/
def descriptorLoad := "tt.descriptor_load"
/-- A load of single rows through a descriptor. -/
def descriptorGather := "tt.descriptor_gather"
/-- A matrix product with an accumulator. -/
def dot := "tt.dot"
/-- Prints values. -/
def print := "tt.print"
/-- Promises that a condition holds. -/
def assume := "llvm.intr.assume"

/-- An asynchronous copy into shared memory. -/
def asyncCopyGlobalToLocal := "ttg.async_copy_global_to_local"
/-- Closes a group of asynchronous copies. -/
def asyncCommitGroup := "ttg.async_commit_group"
/-- Waits for groups of asynchronous copies. -/
def asyncWait := "ttg.async_wait"
/-- Allocates a buffer in shared memory. -/
def localAlloc := "ttg.local_alloc"
/-- Frees a buffer in shared memory. -/
def localDealloc := "ttg.local_dealloc"
/-- Loads a tensor from shared memory. -/
def localLoad := "ttg.local_load"
/-- Stores a tensor to shared memory. -/
def localStore := "ttg.local_store"
/-- A view of a part of a buffer. -/
def memDescSubview := "ttg.memdesc_subview"
/-- A transposed view of a buffer. -/
def memDescTrans := "ttg.memdesc_trans"
/-- The same tensor in another layout. -/
def convertLayout := "ttg.convert_layout"

/-- Makes a barrier ready for use. -/
def initBarrier := "ttng.init_barrier"
/-- Ends the use of a barrier. -/
def invalBarrier := "ttng.inval_barrier"
/-- Announces bytes to a barrier. -/
def barrierExpect := "ttng.barrier_expect"
/-- Waits for a phase of a barrier. -/
def waitBarrier := "ttng.wait_barrier"
/-- Arrives at a barrier. -/
def arriveBarrier := "ttng.arrive_barrier"
/-- A bulk copy of a tile into shared memory. -/
def asyncTMACopyGlobalToLocal := "ttng.async_tma_copy_global_to_local"
/-- A bulk copy of single rows into shared memory. -/
def asyncTMAGather := "ttng.async_tma_gather"
/-- Allocates tensor memory. -/
def tmemAlloc := "ttng.tmem_alloc"
/-- Loads a tensor from tensor memory. -/
def tmemLoad := "ttng.tmem_load"
/-- Stores a tensor to tensor memory. -/
def tmemStore := "ttng.tmem_store"
/-- A product accumulated in tensor memory. -/
def tcGen5MMA := "ttng.tc_gen5_mma"
/-- The same product with scaled operands. -/
def tcGen5MMAScaled := "ttng.tc_gen5_mma_scaled"

/-- Waits for a signal of another device. -/
def wait := "distributed.wait"
/-- Hands a value on after a token. -/
def consumeToken := "distributed.consume_token"

end Kinds

namespace Catalog

/-- Integer arithmetic: no segments, no effects. -/
def arith : List OpKind :=
  [Kinds.constant, Kinds.andI, Kinds.orI, Kinds.addI, Kinds.subI, Kinds.mulI, Kinds.cmpI,
    Kinds.select, Kinds.indexCast].map fun name => { name }

/-- Loops, branches and what ends their blocks. -/
def control : List OpKind := [
  { name := Kinds.forLoop
    segments := [Seg.lowerBound, Seg.upperBound, Seg.step, Seg.initArgs]
    effects := .nested, regions := 1, terminator := some Kinds.yield },
  { name := Kinds.ifElse, segments := [Seg.condition]
    effects := .nested, regions := 2, terminator := some Kinds.yield },
  { name := Kinds.whileLoop, effects := .nested, regions := 2 },
  { name := Kinds.yield, isTerminator := true },
  { name := Kinds.condition, isTerminator := true }]

/-- Modules, functions and accesses to global memory. -/
def kernel : List OpKind := [
  { name := Kinds.module, regions := 1 },
  { name := Kinds.func, effects := .nested, regions := 1, terminator := some Kinds.ret },
  { name := Kinds.ret, isTerminator := true },
  { name := Kinds.splat },
  { name := Kinds.load, segments := [Seg.ptr, Seg.mask, Seg.other], effects := .read },
  { name := Kinds.store, segments := [Seg.ptr, Seg.value, Seg.mask], effects := .write },
  { name := Kinds.atomicRMW, segments := [Seg.ptr, Seg.value, Seg.mask], effects := .readWrite },
  { name := Kinds.descriptorLoad, segments := [Seg.desc, Seg.indices], effects := .read },
  { name := Kinds.descriptorGather, segments := [Seg.desc, Seg.xOffsets, Seg.yOffset]
    effects := .read },
  { name := Kinds.dot, segments := [Seg.a, Seg.b, Seg.c] },
  { name := Kinds.print, effects := .write },
  { name := Kinds.assume, effects := .write }]

/-- Buffers in shared memory and copies into them. -/
def sharedMemory : List OpKind := [
  { name := Kinds.asyncCopyGlobalToLocal, segments := [Seg.src, Seg.result, Seg.mask, Seg.other]
    effects := .readWrite },
  { name := Kinds.asyncCommitGroup, effects := .readWrite },
  { name := Kinds.asyncWait, effects := .readWrite },
  { name := Kinds.localAlloc, segments := [Seg.src], effects := .write },
  { name := Kinds.localDealloc, segments := [Seg.src], effects := .write },
  { name := Kinds.localLoad, segments := [Seg.src, Seg.token], effects := .read },
  { name := Kinds.localStore, segments := [Seg.src, Seg.dst], effects := .write },
  { name := Kinds.memDescSubview, segments := [Seg.src, Seg.offsets] },
  { name := Kinds.memDescTrans, segments := [Seg.src] },
  { name := Kinds.convertLayout, segments := [Seg.src] }]

/-- Barriers, bulk copies, tensor memory and tensor cores. -/
def tensorCore : List OpKind := [
  { name := Kinds.initBarrier, segments := [Seg.alloc], effects := .write },
  { name := Kinds.invalBarrier, segments := [Seg.alloc], effects := .write },
  { name := Kinds.barrierExpect, segments := [Seg.alloc, Seg.pred], effects := .write },
  { name := Kinds.waitBarrier, segments := [Seg.alloc, Seg.phase, Seg.pred, Seg.deps]
    effects := .readWrite },
  { name := Kinds.arriveBarrier, segments := [Seg.alloc, Seg.pred], effects := .write },
  { name := Kinds.asyncTMACopyGlobalToLocal
    segments := [Seg.desc, Seg.coord, Seg.barrier, Seg.result, Seg.pred], effects := .readWrite },
  { name := Kinds.asyncTMAGather
    segments := [Seg.desc, Seg.xOffsets, Seg.yOffset, Seg.barrier, Seg.result, Seg.pred]
    effects := .readWrite },
  { name := Kinds.tmemAlloc, segments := [Seg.src], effects := .write },
  { name := Kinds.tmemLoad, segments := [Seg.src], effects := .read },
  { name := Kinds.tmemStore, segments := [Seg.dst, Seg.src, Seg.pred], effects := .write },
  { name := Kinds.tcGen5MMA
    segments := [Seg.a, Seg.b, Seg.d, Seg.useD, Seg.pred, Seg.barriers], effects := .readWrite },
  { name := Kinds.tcGen5MMAScaled
    segments := [Seg.a, Seg.b, Seg.d, Seg.aScale, Seg.bScale, Seg.useD, Seg.pred, Seg.barriers]
    effects := .readWrite }]

/-- Signals between devices. -/
def distributed : List OpKind := [
  { name := Kinds.wait, segments := [Seg.barrierPtrs, Seg.waitValue], effects := .readWrite },
  { name := Kinds.consumeToken, segments := [Seg.input, Seg.token], effects := .write }]

/-- All built-in kinds. -/
def builtin : Catalog :=
  { kinds := arith ++ control ++ kernel ++ sharedMemory ++ tensorCore ++ distributed }

end Catalog

end Multistage
