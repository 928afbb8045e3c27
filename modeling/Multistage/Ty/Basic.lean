import Multistage.Encoding.Basic

/-!
# Types and attributes

`Ty` is the static type of a value: scalars, pointers, tensors in registers, buffers in on-chip
memory, and descriptors of bulk transfers. `Attr` is a piece of compile-time data attached to an
operation or held by a type (a layout, a memory space). The two are mutually recursive: a tensor
holds an attribute, and an attribute may hold a type. Parts that a caller may leave out are
optional.
-/

namespace Multistage

mutual

/-- A compile-time constant. -/
inductive Attr where
  | integer (value : Int) (ty : Option Ty)
  | bool (value : Bool)
  /-- A text, as bytes that are meant to be UTF-8. -/
  | string (bytes : List UInt8)
  /-- Its presence is the information. -/
  | unit
  /-- A list of 32-bit words. -/
  | i32Array (values : List Int)
  | type (ty : Option Ty)
  /-- Marks buffers in shared memory. -/
  | sharedMemory
  /-- Marks buffers in tensor memory. -/
  | tensorMemory
  | encoding (e : Encoding)

/-- The static type of a value. -/
inductive Ty where
  /-- A signless integer; width 1 is the boolean type. -/
  | integer (width : Int)
  /-- A floating-point format; the name tells formats of one width apart. -/
  | float (name : String) (width : Int)
  /-- The integer that loop bounds are counted in. -/
  | index
  /-- Orders asynchronous operations. -/
  | token (name : String)
  | pointer (pointee : Option Ty)
  | tensor (t : TensorTy)
  | memDesc (t : MemDescTy)
  /-- A descriptor of bulk transfers; `block` is the tile that one transfer moves. -/
  | tensorDesc (block : Option TensorTy)

/-- A tensor held in registers. -/
structure TensorTy where
  shape : List Int
  elem : Option Ty
  encoding : Option Attr

/-- A buffer in on-chip memory. `allocShape` is the shape of the allocation that the buffer is a
view of: the shape itself for a whole allocation, with the leading stage dimension for a view of
one stage. -/
structure MemDescTy where
  shape : List Int
  elem : Option Ty
  encoding : Option Attr
  memorySpace : Option Attr
  isMutable : Bool
  allocShape : List Int

end

instance : Inhabited Ty := ⟨.index⟩
instance : Inhabited Attr := ⟨.unit⟩

namespace Attr

/-- A text attribute. -/
def ofString (s : String) : Attr := .string s.toUTF8.toList

/-- A list of numbers as 32-bit words. -/
def ofInts (values : List Int) : Attr := .i32Array (values.map wrap32)

/-- The attribute as an encoding, if it is one. -/
def encoding? : Attr → Option Encoding
  | encoding e => some e
  | _ => none

/-- The attribute as a layout of shared memory, if it is one. -/
def shared? : Attr → Option SharedLayout
  | encoding e => e.shared?
  | _ => none

end Attr

namespace Ty

/-- Truth values. -/
def i1 : Ty := .integer 1
/-- 32-bit integers. -/
def i32 : Ty := .integer 32
/-- 64-bit integers. -/
def i64 : Ty := .integer 64
/-- IEEE half precision. -/
def f16 : Ty := .float "f16" 16
/-- Half precision with the exponent range of `f32`. -/
def bf16 : Ty := .float "bf16" 16
/-- IEEE single precision. -/
def f32 : Ty := .float "f32" 32

/-- Orders asynchronous copies with their waits. -/
def asyncToken : Ty := .token "ttg.async.token"

/-- The type as a tensor, if it is one. -/
def tensor? : Ty → Option TensorTy
  | tensor t => some t
  | _ => none

/-- The type as a buffer, if it is one. -/
def memDesc? : Ty → Option MemDescTy
  | memDesc t => some t
  | _ => none

end Ty

/-- A 32-bit integer attribute; the value itself is not cut to 32 bits. -/
def Attr.i32 (value : Int) : Attr := .integer value (some Ty.i32)

namespace TensorTy

/-- The number of dimensions of `t`. -/
def rank (t : TensorTy) : Nat := t.shape.length

/-- The product of all extents, as a word. -/
def numElements (t : TensorTy) : Int :=
  t.shape.foldl (fun n d => wrap64 (n * d)) 1

end TensorTy

namespace MemDescTy

/-- The number of dimensions of `t`. -/
def rank (t : MemDescTy) : Nat := t.shape.length

/-- The type of a whole allocation. -/
def whole (shape : List Int) (elem : Option Ty) (encoding memorySpace : Option Attr)
    (isMutable : Bool) : MemDescTy :=
  { shape, elem, encoding, memorySpace, isMutable, allocShape := shape }

end MemDescTy

/-! ## Questions about a type that may be missing -/

/-- The element type of tensors and buffers, and the type itself otherwise. -/
def elementTy : Option Ty → Option Ty
  | some (.tensor t) => t.elem
  | some (.memDesc t) => t.elem
  | ty => ty

/-- The width of the element type in bits, and 0 if it has none. -/
def elementBitWidth (ty : Option Ty) : Int :=
  match elementTy ty with
  | some (.integer width) => width
  | some (.float _ width) => width
  | some (.pointer _) => 64
  | _ => 0

/-- The type of a mask over values of this type: a truth value for every element of a tensor, and
one truth value otherwise. -/
def maskTy : Option Ty → Ty
  | some (.tensor t) => .tensor { t with elem := some Ty.i1 }
  | _ => Ty.i1

/-- Whether the type is a tensor. -/
def isTensor : Option Ty → Bool
  | some (.tensor _) => true
  | _ => false

end Multistage
