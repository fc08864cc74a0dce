import OffloadFusion.Typing.Error

/-!
# Checks that type rules share

They check the number of operands and of modules, and that tensors agree. Each takes the name of
the operation for its refusal.
-/

namespace OffloadFusion.Typing

/-- A result of a type rule. -/
abbrev Typed (α : Type) := Outcome TypeError α

/-- The operands, in accepted number and each a single tensor. -/
def tensorInputs (op : String) (inputs : List ValueType) (accepted : Interval) :
    Typed (List TensorType) := do
  if !accepted.contains inputs.length then refuse (.inputArity op accepted inputs.length)
  inputs.mapM (ValueType.expectTensor op)

/-- The operand of an operation that takes one tensor. -/
def oneTensor (op : String) : List ValueType → Typed TensorType
  | [a] => a.expectTensor op
  | inputs => refuse (.inputArity op (.exactly 1) inputs.length)

/-- The operands of an operation that takes two tensors. -/
def twoTensors (op : String) : List ValueType → Typed (TensorType × TensorType)
  | [a, b] => return (← a.expectTensor op, ← b.expectTensor op)
  | inputs => refuse (.inputArity op (.exactly 2) inputs.length)

/-- The operands of an operation that takes three tensors. -/
def threeTensors (op : String) : List ValueType → Typed (TensorType × TensorType × TensorType)
  | [a, b, c] => return (← a.expectTensor op, ← b.expectTensor op, ← c.expectTensor op)
  | inputs => refuse (.inputArity op (.exactly 3) inputs.length)

/-- The operation carries no module. -/
def noModules (op : String) (modules : List Signature) : Typed Unit :=
  if modules.isEmpty then return () else refuse (.moduleArity op (.exactly 0) modules.length)

/-- The module of an operation that carries one. -/
def singleModule (op : String) : List Signature → Typed Signature
  | [body] => return body
  | modules => refuse (.moduleArity op (.exactly 1) modules.length)

/-- The dimensions that all tensors share with the first one. -/
def sameDims (op : String) (first : TensorType) (rest : List TensorType) : Typed Shape :=
  match rest.find? fun t => t.shape ≠ first.shape with
  | some t => refuse (.shapeMismatch op first.shape t.shape)
  | none => return first.shape

/-- All tensors have the element type of the first one. -/
def sameDType (op : String) (first : TensorType) (rest : List TensorType) : Typed Unit :=
  match rest.find? fun t => t.dtype ≠ first.dtype with
  | some t => refuse (.dtypeMismatch op first.dtype t.dtype)
  | none => return ()

/-- The tensor has the element type. -/
def hasDType (op : String) (expected : DType) (t : TensorType) : Typed Unit :=
  if t.dtype = expected then return () else refuse (.dtypeMismatch op expected t.dtype)

/-- The first operand and the rest of a list that has one. -/
def nonempty {α : Type} : List α → Checked (α × List α)
  | a :: as => .ok (a, as)
  | [] => .error .outOfRange

/-- The operands are the parameters of the module in declaration order, up to their strides. -/
def matchParams (op : String) (inputs : List TensorType) (body : Signature) : Typed Unit := do
  if inputs.length ≠ body.params.length then
    refuse (.inputArity op (.exactly body.params.length) inputs.length)
  match (inputs.zip body.params).zipIdx.find? fun ((input, param), _) => !input.sameShape param with
  | some ((input, param), index) => refuse (.paramMismatch op index param input)
  | none => return ()

/-- The module returns something; the call produces what it returns. -/
def regionOutput (op : String) (body : Signature) : Typed ValueType :=
  if body.returns.isEmpty then refuse (.moduleReturns op 1 0) else return body.output

/-- A single tensor in row-major order. -/
def standardValue (dtype : DType) (shape : Shape) : Typed ValueType := do
  return .tensor (← TensorType.standard dtype shape)

end OffloadFusion.Typing
