import OffloadFusion.Op.Basic
import OffloadFusion.Typing.Inputs

/-!
# Types of dot, convolution and attention

* `Dot.outputShape`: `[…, m, k] × […, k, n]` gives `[…, m, n]`.
* `Conv.output`: `[N, C, spatial…]` and `[K, C / group, kernel…]` give `[N, K, spatial…]`.
* `Attention.output`: two dots with a softmax between them.
-/

namespace OffloadFusion

open Typing

/-- The contraction length of a dot with this left operand. -/
def TensorType.contraction (lhs : TensorType) : Nat := lhs.shape.last?.getD 1

namespace Dot

def checkRank (op : String) (s : Shape) : Typed Unit :=
  if s.length < 2 then refuse (.rankMismatch op (.atLeast 2) s.length) else return ()

/-- The dimensions of a matrix product. -/
def outputShape (op : String) (lhs rhs : Shape) : Typed Shape := do
  checkRank op lhs
  checkRank op rhs
  if lhs.batch ≠ rhs.batch then refuse (.shapeMismatch op lhs rhs)
  let contracted ← Checked.get lhs (lhs.length - 1)
  if contracted ≠ (← Checked.get rhs (rhs.length - 2)) then refuse (.shapeMismatch op lhs rhs)
  let rows ← Checked.get lhs (lhs.length - 2)
  let columns ← Checked.get rhs (rhs.length - 1)
  return lhs.batch ++ [rows, columns]

end Dot

/-- The element type of a product: the input's, or its accumulator if quantized. -/
def productDType (op : String) (quantized : Bool) (input : DType) : Typed DType :=
  if !quantized then return input
  else match input.accumulator with
    | some dtype => return dtype
    | none => refuse (.unsupportedDType op input)

def Dot.output (quantized : Bool) (inputs : List ValueType) (modules : List Signature) :
    Typed ValueType := do
  let op := (Op.dot quantized).name
  let (lhs, rhs) ← twoTensors op inputs
  noModules op modules
  sameDType op lhs [rhs]
  let shape ← Dot.outputShape op lhs.shape rhs.shape
  standardValue (← productDType op quantized lhs.dtype) shape

namespace Conv

def checkRank (c : Conv) (s : Shape) : Typed Unit :=
  if s.length ≠ c.spatial + 2 then
    refuse (.rankMismatch c.name (.exactly (c.spatial + 2)) s.length)
  else return ()

/-- Whether the channels of the input and the weights fit the groups. -/
def groupsFit (c : Conv) (input weights : Shape) : Checked Bool := do
  if c.group = 0 then return false
  let channels ← Checked.get input 1
  if channels ≠ (← Checked.mul (← Checked.get weights 1) c.group) then return false
  return (← Checked.mod (← Checked.get weights 0) c.group) = 0

/-- The output extent along a spatial axis: the number of places of the window. -/
def outputExtent (c : Conv) (input weights : Shape) (i : Nat) : Typed Nat := do
  let padding ← Checked.get c.padding i
  let padded ← Checked.add (← Checked.get input (i + 2)) (← Checked.mul 2 padding)
  let dilation ← Checked.get c.dilation i
  let window ← Checked.add (← Checked.mul dilation ((← Checked.get weights (i + 2)) - 1)) 1
  let stride ← Checked.get c.stride i
  if window > padded ∨ stride = 0 then
    refuse (.invalidAttribute c.name (.window window padded))
  Checked.add (← Checked.div (padded - window) stride) 1

def output (c : Conv) (inputs : List ValueType) (modules : List Signature) : Typed ValueType := do
  let (input, weights) ← twoTensors c.name inputs
  noModules c.name modules
  sameDType c.name input [weights]
  checkRank c input.shape
  checkRank c weights.shape
  if c.stride.length ≠ c.spatial ∨ c.dilation.length ≠ c.spatial then
    refuse (.invalidAttribute c.name .spatialLengths)
  if !(← groupsFit c input.shape weights.shape) then
    refuse (.shapeMismatch c.name input.shape weights.shape)
  let batch ← Checked.get input.shape 0
  let features ← Checked.get weights.shape 0
  let extents ← (List.range c.spatial).mapM (outputExtent c input.shape weights.shape)
  standardValue (← productDType c.name c.quantized input.dtype) (batch :: features :: extents)

end Conv

namespace Attention

/-- The name of the operation. -/
def opName : String := (Op.attention ⟨0⟩).name

/-- The operands between the keys and the values fit the scores. -/
def checkMask (scores : TensorType) : List TensorType → Typed Unit
  | [bias] => do
    let _ ← sameDims opName scores [bias]
  | [cond, fill] => do
    let _ ← sameDims opName scores [cond, fill]
    hasDType opName .bool cond
  | _ => return ()

/-- The type of attention with operands `a`, `b`, a mask and `v`. -/
def outputOf (a b : TensorType) (mask : List TensorType) (v : TensorType) : Typed ValueType := do
  sameDType opName a [b, v]
  let scores ← Dot.outputShape opName a.shape b.shape
  let shape ← Dot.outputShape opName scores v.shape
  checkMask (← TensorType.standard a.dtype scores) mask
  standardValue a.dtype shape

def output (inputs : List ValueType) (modules : List Signature) : Typed ValueType := do
  let tensors ← tensorInputs opName inputs ⟨3, 5⟩
  noModules opName modules
  match tensors with
  | [a, b, v] => outputOf a b [] v
  | [a, b, bias, v] => outputOf a b [bias] v
  | [a, b, cond, fill, v] => outputOf a b [cond, fill] v
  | _ => throw (.fault .outOfRange)

end Attention

end OffloadFusion
