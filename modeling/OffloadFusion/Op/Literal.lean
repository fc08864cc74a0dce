import OffloadFusion.Number.Binary
import OffloadFusion.Tensor.DType

/-!
# Constant data

`LiteralData` is the storage of an embedded constant. `LiteralData.holds` tells which element types
it can back.
-/

namespace OffloadFusion

/-- The elements of a constant, in row-major order. -/
inductive LiteralData where
  | f32 (values : List Single)
  | f16 (values : List Half)
  | i8 (values : List Int8)
  | i32 (values : List Int32)
  | bool (values : List Bool)
deriving DecidableEq, Repr

namespace LiteralData

/-- The number of elements. -/
def size : LiteralData → Nat
  | f32 values => values.length
  | f16 values => values.length
  | i8 values => values.length
  | i32 values => values.length
  | bool values => values.length

/-- Whether this storage can back a tensor of the element type. 8-bit floats are held as 32-bit
ones, and the wider and unsigned integers in the storage of the signed ones. -/
def holds : LiteralData → DType → Bool
  | f32 _, .f32 | f32 _, .fp8e4m3fnuz | f16 _, .f16 | i8 _, .i8 | i8 _, .u8 | i32 _, .i32
  | i32 _, .i64 | bool _, .bool => true
  | _, _ => false

/-- Equality of lists by a test on their elements. -/
def allEqual {α : Type} (equals : α → α → Bool) (xs ys : List α) : Bool :=
  xs.length = ys.length && (xs.zip ys).all fun (x, y) => equals x y

/-- Equality of storage, element by element in the numerical sense. -/
def equals : LiteralData → LiteralData → Bool
  | f32 xs, f32 ys => allEqual Single.equals xs ys
  | f16 xs, f16 ys => allEqual Half.equals xs ys
  | d, e => d = e

end LiteralData

end OffloadFusion
