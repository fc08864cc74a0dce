import OffloadFusion.Op.Literal
import OffloadFusion.Op.Reindex
import OffloadFusion.Tensor.Type

/-!
# Operations

* `Op`: every operation an instruction can hold, with its attributes.
* `Op.name`, `Op.text`: the plain name, and the name with the attributes worth showing.
* `Op.pattern`: the coarse class by which fusion treats an operation.
* `Op.equals`: equality of operations, comparing numbers in the numerical sense.
-/

namespace OffloadFusion

/-- Elementwise functions of one operand. -/
inductive UnaryOp where
  | abs | neg | relu | exp | log | sqrt | rsqrt | recip | sigmoid | tanh | erf | ceil | floor
deriving DecidableEq, Repr

namespace UnaryOp

def name : UnaryOp → String
  | abs => "abs"
  | neg => "neg"
  | relu => "relu"
  | exp => "exp"
  | log => "log"
  | sqrt => "sqrt"
  | rsqrt => "rsqrt"
  | recip => "recip"
  | sigmoid => "sigmoid"
  | tanh => "tanh"
  | erf => "erf"
  | ceil => "ceil"
  | floor => "floor"

/-- The functions in declaration order. -/
def each : List UnaryOp :=
  [abs, neg, relu, exp, log, sqrt, rsqrt, recip, sigmoid, tanh, erf, ceil, floor]

/-- Only meaningful on floating-point values. -/
def isTranscendental : UnaryOp → Bool
  | abs | neg | relu => false
  | _ => true

end UnaryOp

/-- Elementwise functions of two operands. -/
inductive BinaryOp where
  | add | sub | mul | div | pow | max | min
deriving DecidableEq, Repr

/-- The functions in declaration order. -/
def BinaryOp.each : List BinaryOp := [.add, .sub, .mul, .div, .pow, .max, .min]

def BinaryOp.name : BinaryOp → String
  | add => "add"
  | sub => "sub"
  | mul => "mul"
  | div => "div"
  | pow => "pow"
  | max => "max"
  | min => "min"

/-- What a reduction computes along its axes. -/
inductive ReduceOp where
  | sum | mean | max | min
deriving DecidableEq, Repr

/-- The functions in declaration order. -/
def ReduceOp.each : List ReduceOp := [.sum, .mean, .max, .min]

def ReduceOp.name : ReduceOp → String
  | sum => "reduce_sum"
  | mean => "reduce_mean"
  | max => "reduce_max"
  | min => "reduce_min"

/-- Attributes of a convolution over `[N, C, spatial…]` with weights `[K, C / group, kernel…]`. -/
structure Conv where
  padding : List Nat
  stride : List Nat
  dilation : List Nat
  group : Nat
  quantized : Bool
deriving DecidableEq, Repr

namespace Conv

/-- An unpadded convolution of unit stride over a number of spatial axes. -/
def unit (spatial : Nat) : Conv :=
  ⟨List.replicate spatial 0, List.replicate spatial 1, List.replicate spatial 1, 1, false⟩

def withGroup (c : Conv) (group : Nat) : Conv := { c with group }

/-- The same padding on every spatial axis. -/
def withPadding (c : Conv) (padding : Nat) : Conv :=
  { c with padding := c.padding.map fun _ => padding }

/-- The same stride on every spatial axis. -/
def withStride (c : Conv) (stride : Nat) : Conv :=
  { c with stride := c.stride.map fun _ => stride }

def asQuantized (c : Conv) : Conv := { c with quantized := true }

/-- The number of spatial axes. -/
def spatial (c : Conv) : Nat := c.padding.length

def name (c : Conv) : String := if c.quantized then "quant_convolution" else "convolution"

end Conv

/-- How attention scores are adjusted before the softmax. -/
inductive AttentionMask where
  | none
  /-- `scores + bias` -/
  | bias
  /-- `where(cond, scores, fill)` -/
  | select
deriving DecidableEq, Repr

def AttentionMask.name : AttentionMask → String
  | none => "None"
  | bias => "Bias"
  | select => "Select"

/-- The adjustment that the number of attention operands stands for. -/
def AttentionMask.ofArity? : Nat → Option AttentionMask
  | 3 => some none
  | 4 => some bias
  | 5 => some select
  | _ => Option.none

/-- Every operation an instruction can hold. -/
inductive Op where
  /-- A named module input. -/
  | param (name : String) (type : TensorType)
  /-- An embedded constant. -/
  | literal (type : TensorType) (data : LiteralData)
  /-- The end of a module; several operands return a tuple. -/
  | ret
  /-- Batched matrix product; the quantized form accumulates into a wider type. -/
  | dot (quantized : Bool)
  | conv (attributes : Conv)
  /-- Composed attention: `dot(softmax(scale * dot(a, b) [mask]), v)`. The operands are `a, b, v`
  or `a, b, bias, v` or `a, b, cond, fill, v`. -/
  | attention (scale : Single)
  | unary (function : UnaryOp)
  | binary (function : BinaryOp)
  /-- `where(cond, on_true, on_false)` -/
  | select
  /-- `clip(x, min, max)` -/
  | clip
  | convert (target : DType)
  /-- `quantizelinear(x, scale[, zero_point])` -/
  | quantize
  /-- `dequantizelinear(x, scale[, zero_point])` -/
  | dequantize
  | softmax (axis : Nat)
  /-- Reduction; the reduced axes keep extent one. -/
  | reduce (function : ReduceOp) (axes : List Nat)
  | reindex (view : Reindex)
  /-- One component of a tuple. -/
  | tupleElem (index : Nat)
  /-- Elementwise computation described by a module on scalars. -/
  | pointwise
  /-- A reduction split across workgroups, with its fused prologue and epilogue as a module. -/
  | splitFusedReduce (axes : List Nat)
  /-- Call of a region that is compiled as one kernel around the anchor. -/
  | offload (anchor : Op)
deriving DecidableEq, Repr

/-- Coarse class of an operation. -/
inductive Pattern where
  /-- Each output element depends on the input elements at its index. -/
  | elementwise
  /-- Each output element is one input element. -/
  | injective
  /-- Reductions and softmax. -/
  | reduction
  /-- Dot, convolution, attention and offload calls: what a fusion is built around. -/
  | computeIntensive
  /-- Module boundaries, never fused. -/
  | boundary
deriving DecidableEq, Repr

namespace Pattern

def name : Pattern → String
  | elementwise => "Elemwise"
  | injective => "Injective"
  | reduction => "Reduce"
  | computeIntensive => "ComputeIntensive"
  | boundary => "Opaque"

/-- The place in declaration order. -/
def code : Pattern → Nat
  | elementwise => 0
  | injective => 1
  | reduction => 2
  | computeIntensive => 3
  | boundary => 4

end Pattern

namespace Op

def name : Op → String
  | param .. => "@param"
  | literal .. => "@literal"
  | ret => "@return"
  | dot quantized => if quantized then "quant_dot" else "dot"
  | conv c => c.name
  | attention _ => "gemm_softmax_gemm"
  | unary f => f.name
  | binary f => f.name
  | select => "where"
  | clip => "clip"
  | convert _ => "convert"
  | quantize => "quantizelinear"
  | dequantize => "dequantizelinear"
  | softmax _ => "softmax"
  | reduce f _ => f.name
  | reindex v => v.name
  | tupleElem _ => "get_tuple_elem"
  | pointwise => "pointwise"
  | splitFusedReduce _ => "split_fused_reduce"
  | offload _ => "offload"

/-- The operations that a name alone describes. -/
def withoutAttributes : List Op :=
  UnaryOp.each.map unary ++ BinaryOp.each.map binary ++
    [dot false, dot true, select, clip, quantize, dequantize, reindex .contiguous, pointwise, ret]

/-- The name with the attributes worth showing. -/
def text : Op → String
  | param name _ => "@param:" ++ name
  | offload anchor => "offload[" ++ anchor.name ++ "]"
  | attention scale => "gemm_softmax_gemm[scale=" ++ scale.text ++ "]"
  | conv c => if c.group > 1 then c.name ++ "[group=" ++ toString c.group ++ "]" else c.name
  | op => op.name

def isParam : Op → Bool
  | param .. => true
  | _ => false

def isLiteral : Op → Bool
  | literal .. => true
  | _ => false

def isReturn : Op → Bool
  | ret => true
  | _ => false

/-- The anchor of an offload call. -/
def anchor? : Op → Option Op
  | offload anchor => some anchor
  | _ => none

def isOffload (op : Op) : Bool := op.anchor?.isSome

def isTupleElem : Op → Bool
  | tupleElem _ => true
  | _ => false

/-- Parameters, constants and returns. -/
def isBoundary (op : Op) : Bool := op.isParam || op.isLiteral || op.isReturn

def reindex? : Op → Option Reindex
  | reindex v => some v
  | _ => none

def isReshaper (op : Op) : Bool := op.reindex?.isSome

def paramName? : Op → Option String
  | param name _ => some name
  | _ => none

def pattern : Op → Pattern
  | unary _ | binary _ | select | clip | convert _ | quantize | dequantize | pointwise =>
    .elementwise
  | reindex _ | tupleElem _ => .injective
  | softmax _ | reduce .. | splitFusedReduce _ => .reduction
  | dot _ | conv _ | attention _ | offload _ => .computeIntensive
  | param .. | literal .. | ret => .boundary

/-- Equality of operations, comparing numbers in the numerical sense. -/
def equals : Op → Op → Bool
  | literal t d, literal u e => t = u && d.equals e
  | attention a, attention b => a.equals b
  | offload a, offload b => a.equals b
  | a, b => a = b

end Op

end OffloadFusion
