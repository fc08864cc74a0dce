import OffloadFusion.Graph.Basic
import OffloadFusion.Policy.Mode
import OffloadFusion.Typing.Matrix

/-!
# Eligibility

The rules that tell which instructions may be offloaded: dots, convolutions, pointwise instructions
with their bodies, and split reductions with theirs. They only read the program. An operand whose
instruction is gone is a fault.
-/

namespace OffloadFusion.Eligible

/-- The tensor type of an operand, if it is a single tensor. -/
def operandTensor? (p : Program) (i : InstrId) : Checked (Option TensorType) :=
  Instruction.tensor? <$> p.instr i

/-! ## Anchors -/

/-- Whether the mode accepts a dot with these operands. Only the anchor of a fused region is bound
in its contraction length. -/
def dotInMode (mode : Mode) (anchor : Bool) (inputs : List TensorType) (h : Heuristics) : Bool :=
  match mode with
  | .all => true
  | .int8 => inputs.all fun t => t.dtype.is8Bit
  | .fast => !anchor || inputs.head?.any fun t => t.contraction ≤ h.dotThreshold
  | .none => false

/-- Whether an instruction is a dot to offload. A dot with an 8-bit floating result is not. -/
def dot (p : Program) (i : InstrId) (mode : Mode) (anchor : Bool) (h : Heuristics) :
    Checked Bool :=
  if mode = .none then return false
  else match p.instr? i with
    | some { op := .dot _, type := .tensor out, inputs, .. } =>
      if out.dtype.isFp8 then return false
      else do
        let tensors ← inputs.mapM (operandTensor? p)
        return dotInMode mode anchor (tensors.filterMap id) h
    | _ => return false

/-- Whether the mode accepts a convolution with this group count, input and weights. -/
def convInMode (mode : Mode) (group : Nat) (x w : TensorType) (h : Heuristics) : Checked Bool :=
  if x.dtype.isFp8 || x.dtype = .i8 then return true
  else match mode with
    | .int8 | .none => return false
    | .all => return true
    | .fast =>
      if group > 1 ∨ w.rank ≠ 4 then return true
      else do
        let height ← Checked.get w.shape 2
        let width ← Checked.get w.shape 3
        if height ≠ width ∨ h.kernelDivisor = 0 then return true
        return (← Checked.mod width h.kernelDivisor) ≠ 0

/-- The tensor type of an operand at a position. -/
def tensorAt? (p : Program) (inputs : List InstrId) (position : Nat) :
    Checked (Option TensorType) :=
  match inputs[position]? with
  | some i => operandTensor? p i
  | none => return none

/-- Whether an instruction is a convolution to offload. A grouped one must be over two spatial
axes. -/
def conv (p : Program) (i : InstrId) (mode : Mode) (h : Heuristics) : Checked Bool :=
  if mode = .none then return false
  else match p.instr? i with
    | some { op := .conv c, type := .tensor out, inputs, .. } =>
      if c.group > 1 ∧ out.rank ≠ 4 then return false
      else do
        let x ← tensorAt? p inputs 0
        let w ← tensorAt? p inputs 1
        match x, w with
        | some x, some w => convInMode mode c.group x w h
        | _, _ => return false
    | _ => return false

/-! ## Pointwise bodies -/

/-- Result types that can be produced. -/
def supportedTypes : List DType := [.f32, .f16, .fp8e4m3fnuz, .i8, .i32, .bool]

/-- Operations accepted with any supported result. -/
def anyTypeOps : List String := ["@literal", "@param", "@return"]

/-- Operations accepted with any supported result except a boolean one. -/
def numericOps : List String :=
  ["convolution", "quant_convolution", "dot", "quant_dot", "add", "clip", "relu", "sub", "mul",
   "div", "pow", "where", "quantizelinear", "dequantizelinear", "abs", "neg"]

/-- Operations accepted with a floating result. -/
def floatOps : List String :=
  ["ceil", "erf", "exp", "floor", "log", "recip", "sqrt", "rsqrt", "sigmoid", "softmax", "tanh"]

/-- The element type by which a body instruction is judged: its tensor's, or the first one that a
return passes on. -/
def bodyDType? (inst : Instruction) : Option DType :=
  match inst.type with
  | .tensor t => some t.dtype
  | .tuple ts => if inst.op.isReturn then ts.head?.map TensorType.dtype else none

/-- Whether the operand is a 32-bit or 16-bit floating tensor. -/
def isWideFloat (p : Program) (i : InstrId) : Checked Bool := do
  return (← operandTensor? p i).any fun t => t.dtype = .f32 || t.dtype = .f16

/-- Whether an instruction of a pointwise body can be offloaded. `producer` asks for a body that
feeds an offload call. -/
def bodyOp (p : Program) (i : InstrId) (h : Heuristics) (producer : Bool) : Checked Bool :=
  match p.instr? i with
  | none => return false
  | some inst =>
    if producer && h.excludedInputs.contains inst.name then return false
    else match bodyDType? inst with
      | none => return false
      | some dtype =>
        if !supportedTypes.contains dtype then return false
        else if anyTypeOps.contains inst.name then return true
        else if dtype ≠ .bool && numericOps.contains inst.name then return true
        else if dtype.isFloat && floatOps.contains inst.name then return true
        else match inst.op with
          | .convert _ => do
            let wide ← inst.inputs.allM (isWideFloat p)
            return dtype.isFloat && !dtype.isFp8 && wide
          | _ => return false

/-- Whether an instruction is a pointwise whose whole body can be offloaded. -/
def pointwise (p : Program) (i : InstrId) (h : Heuristics) (producer : Bool) : Checked Bool :=
  match p.instr? i with
  | some { op := .pointwise, modules := [body], .. } =>
    match p.module? body with
    | some module => module.body.allM fun j => bodyOp p j h producer
    | none => return false
  | _ => return false

/-! ## Reductions -/

/-- Whether an instruction is a sum or a mean with a floating result. -/
def reduce (p : Program) (i : InstrId) : Bool :=
  match p.instr? i with
  | some { op := .reduce f _, type := .tensor t, .. } => (f = .sum || f = .mean) && t.dtype.isFloat
  | _ => false

/-- Whether an instruction of a split reduction's body can be offloaded. -/
def splitReduceOp (p : Program) (i : InstrId) (h : Heuristics) : Checked Bool := do
  match (← p.instr i).op with
  | .reduce .. => return reduce p i
  | .pointwise => pointwise p i h false
  | .reindex view => return !view.isSlice
  | op => return op.isBoundary

/-- Whether an instruction is a split reduction whose body can be offloaded. -/
def splitReduce (p : Program) (i : InstrId) (h : Heuristics) : Checked Bool :=
  match p.instr? i with
  | some { op := .splitFusedReduce _, modules := [body], .. } =>
    match p.module? body with
    | some module => module.body.allM fun j => splitReduceOp p j h
    | none => return false
  | _ => return false

end OffloadFusion.Eligible
