import OffloadFusion.Typing.Matrix
import OffloadFusion.Typing.Reindex

/-!
# Type inference

`Op.inferType` gives the type of an operation from the types of its operands and the signatures of
the modules that it carries, in the order in which they are attached.
-/

namespace OffloadFusion

open Typing

namespace LiteralData

/-- The type and the data of a one-element constant of a floating element type. -/
def scalar (dtype : DType) (value : Single) : Typed (TensorType × LiteralData) :=
  match dtype with
  | .f32 | .fp8e4m3fnuz => return (TensorType.scalar dtype, .f32 [value])
  | .f16 => return (TensorType.scalar dtype, .f16 [value.toHalf])
  | _ => refuse (.unsupportedDType "@literal" dtype)

/-- The type of a constant: its storage must back the element type and fill the dimensions. -/
def output (data : LiteralData) (t : TensorType) : Typed ValueType := do
  if !data.holds t.dtype then refuse (.unsupportedDType "@literal" t.dtype)
  let expected ← t.numel
  if data.size ≠ expected then refuse (.literalSize expected data.size)
  return .tensor t

end LiteralData

namespace Op

/-- The operation takes neither operands nor modules. -/
def nullary (op : String) (inputs : List ValueType) (modules : List Signature) : Typed Unit := do
  let _ ← tensorInputs op inputs (.exactly 0)
  noModules op modules

/-- One operand, whose type the rule maps. -/
def mapTensor (op : String) (inputs : List ValueType) (modules : List Signature)
    (rule : TensorType → Typed TensorType) : Typed ValueType := do
  let t ← oneTensor op inputs
  noModules op modules
  return .tensor (← rule t)

/-- The dimensions after a reduction. -/
def reducedShape (shape : Shape) (axes : List Nat) : Typed Shape :=
  axes.foldlM (fun reduced axis => do
    if axis ≥ reduced.length then refuse (.dimOutOfRange axis shape)
    Checked.set reduced axis 1) shape

/-- Two operands of one type. -/
def binaryOutput (op : String) (inputs : List ValueType) (modules : List Signature) :
    Typed ValueType := do
  let (lhs, rhs) ← twoTensors op inputs
  noModules op modules
  let dims ← sameDims op lhs [rhs]
  sameDType op lhs [rhs]
  standardValue lhs.dtype dims

def selectOutput (op : String) (inputs : List ValueType) (modules : List Signature) :
    Typed ValueType := do
  let (cond, onTrue, onFalse) ← threeTensors op inputs
  noModules op modules
  let dims ← sameDims op cond [onTrue, onFalse]
  hasDType op .bool cond
  sameDType op onTrue [onFalse]
  standardValue onTrue.dtype dims

def clipOutput (op : String) (inputs : List ValueType) (modules : List Signature) :
    Typed ValueType := do
  let (x, low, high) ← threeTensors op inputs
  noModules op modules
  let dims ← sameDims op x [low, high]
  sameDType op x [low, high]
  standardValue x.dtype dims

/-- Two operands and an optional zero point, of the same dimensions; `dtype` picks the element type
of the result from the scale and the zero point. -/
def scaledOutput (op : String) (inputs : List ValueType) (modules : List Signature)
    (dtype : TensorType → Option TensorType → DType) : Typed ValueType := do
  let tensors ← tensorInputs op inputs ⟨2, 3⟩
  noModules op modules
  match tensors with
  | x :: scale :: zero => do
    let dims ← sameDims op x (scale :: zero)
    standardValue (dtype scale zero.head?) dims
  | _ => throw (.fault .outOfRange)

def tupleElemOutput (op : String) (index : Nat) (inputs : List ValueType)
    (modules : List Signature) : Typed ValueType := do
  noModules op modules
  match inputs with
  | [.tuple elements] =>
    match elements[index]? with
    | some t => return .tensor t
    | none => refuse (.tupleIndex index elements.length)
  | [.tensor _] => refuse (.expectedTuple op)
  | _ => refuse (.inputArity op (.exactly 1) inputs.length)

/-- The element types of operands are those of the parameters. -/
def matchDTypes (op : String) (inputs params : List TensorType) : Typed Unit :=
  match (inputs.zip params).find? fun (t, p) => t.dtype ≠ p.dtype with
  | some (t, p) => refuse (.dtypeMismatch op p.dtype t.dtype)
  | none => return ()

/-- Operands of the same dimensions, which the result takes; its element type is the body's. -/
def pointwiseOutput (op : String) (inputs : List ValueType) (modules : List Signature) :
    Typed ValueType := do
  let tensors ← tensorInputs op inputs (.atLeast 1)
  let body ← singleModule op modules
  let (first, rest) ← nonempty tensors
  let dims ← sameDims op first rest
  if body.params.length ≠ tensors.length then
    refuse (.inputArity op (.exactly body.params.length) tensors.length)
  matchDTypes op tensors body.params
  match body.returns with
  | [result] => standardValue result.dtype dims
  | returns => refuse (.moduleReturns op 1 returns.length)

/-- Whether an offload call takes a tensor as it lies in memory. -/
def acceptsLayout (t : TensorType) : Checked Bool := do
  if ← t.isPacked then return true
  return t.isBroadcasted

/-- Every operand is packed or broadcasted. -/
def checkLayouts (op : String) (tensors : List TensorType) : Typed Unit :=
  tensors.zipIdx.forM fun (t, index) => do
    if !(← acceptsLayout t) then refuse (.invalidLayout op index t)

/-- The result of a module on operands that match its parameters. -/
def callOutput (op : String) (tensors : List TensorType) (body : Signature) : Typed ValueType := do
  matchParams op tensors body
  regionOutput op body

/-- The type of the operation, from its operands and modules. -/
def inferType (op : Op) (inputs : List ValueType) (modules : List Signature) : Typed ValueType :=
  match op with
  | param _ t => do
    nullary op.name inputs modules
    return .tensor t
  | literal t data => do
    nullary op.name inputs modules
    data.output t
  | ret => do
    let tensors ← tensorInputs op.name inputs (.atLeast 1)
    noModules op.name modules
    return ValueType.ofElements tensors
  | dot quantized => Dot.output quantized inputs modules
  | conv c => c.output inputs modules
  | attention _ => Attention.output inputs modules
  | unary _ => mapTensor op.name inputs modules fun t => t.asStandard
  | binary _ => binaryOutput op.name inputs modules
  | select => selectOutput op.name inputs modules
  | clip => clipOutput op.name inputs modules
  | convert target => mapTensor op.name inputs modules fun t => t.withDType target
  | quantize => scaledOutput op.name inputs modules fun _ zero =>
      (zero.map TensorType.dtype).getD .u8
  | dequantize => scaledOutput op.name inputs modules fun scale _ => scale.dtype
  | softmax axis => mapTensor op.name inputs modules fun t => do
      if axis ≥ t.rank then refuse (.dimOutOfRange axis t.shape)
      t.asStandard
  | reduce _ axes => mapTensor op.name inputs modules fun t => do
      TensorType.standard t.dtype (← reducedShape t.shape axes)
  | reindex v => mapTensor op.name inputs modules v.output
  | tupleElem index => tupleElemOutput op.name index inputs modules
  | pointwise => pointwiseOutput op.name inputs modules
  | splitFusedReduce _ => do
    let tensors ← tensorInputs op.name inputs (.atLeast 1)
    callOutput op.name tensors (← singleModule op.name modules)
  | offload _ => do
    let tensors ← tensorInputs op.name inputs (.atLeast 2)
    let body ← singleModule op.name modules
    checkLayouts op.name tensors
    callOutput op.name tensors body

end Op

end OffloadFusion
