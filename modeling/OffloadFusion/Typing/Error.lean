import OffloadFusion.Tensor.Type

/-!
# Reasons why a type rule refuses

`TypeError` names the unmet condition, and `TypeError.message` words it.
-/

namespace OffloadFusion

/-- The counts from `least` to `most`. -/
structure Interval where
  least : Nat
  most : Nat
deriving DecidableEq, Repr

namespace Interval

/-- One count. -/
def exactly (n : Nat) : Interval := ⟨n, n⟩

/-- All counts from one on. -/
def atLeast (n : Nat) : Interval := ⟨n, Checked.sizeLimit - 1⟩

def contains (i : Interval) (n : Nat) : Bool := i.least ≤ n && n ≤ i.most

def text (i : Interval) : String := toString i.least ++ "..=" ++ toString i.most

end Interval

/-- What is wrong with an attribute. -/
inductive AttributeError where
  /-- The ranges of a slice are not given one for each axis. -/
  | rangeLengths
  /-- A slice keeps nothing of an axis. -/
  | emptyRange (first last axis : Nat)
  /-- An axis to squeeze is missing or longer than one. -/
  | notUnit (axis : Nat) (shape : Shape)
  /-- A convolution has attributes of different lengths. -/
  | spatialLengths
  /-- A convolution window does not fit its input. -/
  | window (size padded : Nat)
deriving DecidableEq, Repr

def AttributeError.message : AttributeError → String
  | rangeLengths => "axes, starts and ends differ in length"
  | emptyRange first last axis => s!"empty range {first}..{last} on axis {axis}"
  | notUnit axis shape => s!"axis {axis} of " ++ shape.text ++ " is not a unit dimension"
  | spatialLengths => "padding, stride and dilation must cover every spatial dim"
  | window size padded => s!"kernel window {size} exceeds padded input {padded}"

/-- The unmet condition of a type rule; `op` is the name of the operation. -/
inductive TypeError where
  | shapeMismatch (op : String) (lhs rhs : Shape)
  | rankMismatch (op : String) (accepted : Interval) (actual : Nat)
  | inputArity (op : String) (accepted : Interval) (actual : Nat)
  | moduleArity (op : String) (accepted : Interval) (actual : Nat)
  | dtypeMismatch (op : String) (expected actual : DType)
  | unsupportedDType (op : String) (dtype : DType)
  | duplicateDims
  | broadcastingFailed (shapes : List Shape)
  | dimOutOfRange (dim : Nat) (shape : Shape)
  | reshapeNumel (source target : Shape)
  | expectedTensor (op : String)
  | expectedTuple (op : String)
  | tupleIndex (index size : Nat)
  | paramMismatch (op : String) (index : Nat) (expected actual : TensorType)
  | invalidLayout (op : String) (index : Nat) (type : TensorType)
  | moduleReturns (op : String) (expected actual : Nat)
  | literalSize (expected actual : Nat)
  | invalidAttribute (op : String) (cause : AttributeError)
deriving DecidableEq, Repr

/-- The name of the unmet condition. -/
def TypeError.kind : TypeError → String
  | shapeMismatch .. => "ShapeMismatch"
  | rankMismatch .. => "RankMismatch"
  | inputArity .. => "InputArity"
  | moduleArity .. => "ModuleArity"
  | dtypeMismatch .. => "DTypeMismatch"
  | unsupportedDType .. => "UnsupportedDType"
  | duplicateDims => "DuplicateDims"
  | broadcastingFailed _ => "BroadcastingFailed"
  | dimOutOfRange .. => "DimOutOfRange"
  | reshapeNumel .. => "ReshapeNumel"
  | expectedTensor _ => "ExpectedTensor"
  | expectedTuple _ => "ExpectedTuple"
  | tupleIndex .. => "TupleIndex"
  | paramMismatch .. => "ParamMismatch"
  | invalidLayout .. => "InvalidLayout"
  | moduleReturns .. => "ModuleReturns"
  | literalSize .. => "LiteralSize"
  | invalidAttribute .. => "InvalidAttribute"

/-- The wording of a refusal. It faults where the text of a type does. -/
def TypeError.message : TypeError → Checked String
  | shapeMismatch op lhs rhs =>
    return s!"Shape mismatch in {op}: lhs: " ++ lhs.text ++ ", rhs: " ++ rhs.text ++ "."
  | rankMismatch op accepted actual =>
    return s!"Rank mismatch in {op}. " ++ accepted.text ++ s!" != {actual}."
  | inputArity op accepted actual =>
    return s!"Wrong input arity for {op}. Allowed range is " ++ accepted.text ++
      s!", node has {actual}."
  | moduleArity op accepted actual =>
    return s!"Wrong module arity for {op}. Allowed range is " ++ accepted.text ++
      s!", node has {actual}."
  | dtypeMismatch op expected actual =>
    return s!"DType mismatch in {op}, expected " ++ expected.title ++ ", got " ++ actual.title ++
      "."
  | unsupportedDType op dtype => return "Unsupported DType " ++ dtype.title ++ s!" for {op}."
  | duplicateDims => return "Duplicate dims in permutation."
  | broadcastingFailed shapes =>
    return "Broadcasting failed: [" ++ ", ".intercalate (shapes.map Shape.text) ++ "]"
  | dimOutOfRange dim shape => return s!"Dim out of range {dim} in shape " ++ shape.text ++ "."
  | reshapeNumel source target =>
    return "Cannot reshape " ++ source.text ++ " into " ++ target.text ++ "."
  | expectedTensor op => return s!"{op} expects a tensor input, got a tuple."
  | expectedTuple op => return s!"{op} expects a tuple input."
  | tupleIndex index size => return s!"Tuple index {index} out of range for {size} elements."
  | paramMismatch op index expected actual => do
    return s!"{op} input {index} is " ++ (← actual.text) ++ " but the module parameter is " ++
      (← expected.text) ++ "."
  | invalidLayout op index type => do
    return s!"{op} input {index} must be packed or broadcasted, got " ++ (← type.text) ++ "."
  | moduleReturns op expected actual =>
    return s!"{op} module must return exactly {expected} value(s), got {actual}."
  | literalSize expected actual =>
    return s!"Literal holds {actual} elements but its type needs {expected}."
  | invalidAttribute op cause => return s!"Invalid attribute for {op}: " ++ cause.message ++ "."

/-- The single tensor that a value must be as an operand of the operation named `op`. -/
def ValueType.expectTensor (op : String) : ValueType → Outcome TypeError TensorType
  | .tensor t => return t
  | .tuple _ => refuse (.expectedTensor op)

end OffloadFusion
