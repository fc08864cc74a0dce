/-!
# Element types

`DType` and its classes: floating, 8-bit, and the accumulator of a quantized operation.
-/

namespace OffloadFusion

/-- Element type of a tensor. -/
inductive DType where
  | f32
  | f16
  | fp8e4m3fnuz
  | i8
  | u8
  | i32
  | i64
  | bool
deriving DecidableEq, Repr

namespace DType

/-- The element types in declaration order. -/
def all : List DType := [f32, f16, fp8e4m3fnuz, i8, u8, i32, i64, bool]

/-- The name used in type texts. -/
def name : DType → String
  | f32 => "f32"
  | f16 => "f16"
  | fp8e4m3fnuz => "fp8e4m3fnuz"
  | i8 => "i8"
  | u8 => "u8"
  | i32 => "i32"
  | i64 => "i64"
  | bool => "bool"

/-- The capitalised name used in error texts. -/
def title : DType → String
  | f32 => "F32"
  | f16 => "F16"
  | fp8e4m3fnuz => "Fp8E4M3Fnuz"
  | i8 => "I8"
  | u8 => "U8"
  | i32 => "I32"
  | i64 => "I64"
  | bool => "Bool"

/-- The place in declaration order. -/
def rank : DType → Nat
  | f32 => 0
  | f16 => 1
  | fp8e4m3fnuz => 2
  | i8 => 3
  | u8 => 4
  | i32 => 5
  | i64 => 6
  | bool => 7

/-- The element types declared after this one. -/
def later (d : DType) : List DType := all.filter fun e => d.rank < e.rank

def isFloat : DType → Bool
  | f32 | f16 | fp8e4m3fnuz => true
  | _ => false

def isFp8 (d : DType) : Bool := d = fp8e4m3fnuz

def isInt8 (d : DType) : Bool := d = i8 || d = u8

/-- The 8-bit types that the quantized anchors accept. -/
def is8Bit (d : DType) : Bool := d.isInt8 || d.isFp8

/-- The result type of a quantized dot or convolution over this element type. -/
def accumulator : DType → Option DType
  | i8 | u8 => some i32
  | fp8e4m3fnuz => some f32
  | _ => none

end DType

end OffloadFusion
