import OffloadFusion.Tensor.DType
import OffloadFusion.Tensor.Shape

/-!
# Types of values

* `TensorType`: element type, dimensions and layout of one tensor. `isStandard`, `isPacked` and
  `isBroadcasted` classify layouts.
* `ValueType`: what an instruction produces, one tensor or a tuple of tensors.
* `Signature`: the parameters and returns of a module.
-/

namespace OffloadFusion

/-- Element type, dimensions and layout of one tensor. -/
structure TensorType where
  dtype : DType
  shape : Shape
  strides : Strides
deriving DecidableEq, Repr

namespace TensorType

/-- A tensor with row-major strides. -/
def standard (dtype : DType) (shape : Shape) : Checked TensorType := do
  return ⟨dtype, shape, ← shape.rowMajor⟩

/-- The type of the scalar operands inside pointwise bodies. -/
def scalar (dtype : DType) : TensorType := ⟨dtype, Shape.scalar, [1]⟩

def rank (t : TensorType) : Nat := t.shape.rank

def numel (t : TensorType) : Checked Nat := t.shape.numel

/-- The number of elements from the first to the last one that the view touches in memory. -/
def elementSpace (t : TensorType) : Checked Nat := do
  if t.shape.contains 0 then return 0
  let spans ← (t.shape.zip t.strides).mapM fun (d, s) => Checked.mul (d - 1) s.natAbs
  Checked.add (← Checked.sum spans) 1

/-- Row-major and dense. -/
def isStandard (t : TensorType) : Checked Bool := t.shape.isRowMajor t.strides

def isBroadcasted (t : TensorType) : Bool := t.strides.contains 0

/-- Dense, possibly permuted. -/
def isPacked (t : TensorType) : Checked Bool := do
  if t.isBroadcasted then return false
  return (← t.numel) = (← t.elementSpace)

/-- The same tensor laid out in row-major order. -/
def asStandard (t : TensorType) : Checked TensorType := standard t.dtype t.shape

/-- The same dimensions with another element type, in row-major order. -/
def withDType (t : TensorType) (dtype : DType) : Checked TensorType := standard dtype t.shape

/-- Same element type and dimensions. Strides are not compared. -/
def sameShape (t u : TensorType) : Bool := t.dtype = u.dtype && t.shape = u.shape

/-- The text, such as `f32[2x3]`; strides follow in braces unless they are row-major. -/
def text (t : TensorType) : Checked String := do
  let layout := if ← t.isStandard then "" else "\x7b" ++ t.strides.text ++ "\x7d"
  return t.dtype.name ++ t.shape.text ++ layout

end TensorType

/-- What an instruction produces. -/
inductive ValueType where
  | tensor (type : TensorType)
  | tuple (types : List TensorType)
deriving DecidableEq, Repr

namespace ValueType

/-- The type of a single tensor. -/
def tensor? : ValueType → Option TensorType
  | tensor t => some t
  | tuple _ => none

def isTuple : ValueType → Bool
  | tensor _ => false
  | tuple _ => true

/-- The component tensors: one for a tensor, each element for a tuple. -/
def elements : ValueType → List TensorType
  | tensor t => [t]
  | tuple ts => ts

/-- A single tensor for one element, a tuple otherwise. -/
def ofElements : List TensorType → ValueType
  | [t] => tensor t
  | ts => tuple ts

/-- Same tupling, element types and dimensions. Strides are not compared. -/
def sameShape (a b : ValueType) : Bool :=
  a.elements.length = b.elements.length && a.isTuple = b.isTuple &&
    (a.elements.zip b.elements).all fun (t, u) => t.sameShape u

/-- The text: that of the tensor, or the texts of the elements in parentheses. -/
def text : ValueType → Checked String
  | tensor t => t.text
  | tuple ts => do return "(" ++ ", ".intercalate (← ts.mapM TensorType.text) ++ ")"

end ValueType

/-- Parameters in declaration order, and returns, of a module. -/
structure Signature where
  params : List TensorType
  returns : List TensorType
deriving DecidableEq, Repr

/-- What a call of the module produces. -/
def Signature.output (s : Signature) : ValueType := ValueType.ofElements s.returns

end OffloadFusion
