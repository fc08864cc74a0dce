/-!
# Modes and limits

* `Mode`: how willingly a family of operations is offloaded.
* `Heuristics`: the limits that the eligibility rules consult.
-/

namespace OffloadFusion

/-- How willingly a family of operations is offloaded, from the most to the least permissive. -/
inductive Mode where
  | all
  | fast
  /-- Only 8-bit operands. -/
  | int8
  | none
deriving DecidableEq, Repr

namespace Mode

/-- The modes, the most permissive first. -/
def each : List Mode := [all, fast, int8, none]

def name : Mode → String
  | all => "all"
  | fast => "fast"
  | int8 => "int8"
  | none => "none"

/-- The place in the order of restriction. -/
def rank : Mode → Nat
  | all => 0
  | fast => 1
  | int8 => 2
  | none => 3

/-- The more restrictive of two modes. -/
def mostRestrictive (a b : Mode) : Mode := if a.rank ≤ b.rank then b else a

end Mode

/-- Limits that the eligibility rules consult. -/
structure Heuristics where
  /-- The longest contraction of a fused dot in the fast mode. -/
  dotThreshold : Nat
  /-- Square kernels whose extent this divides are not offloaded in the fast mode. -/
  kernelDivisor : Nat
  /-- Operations that a pointwise feeding an offload call may not contain. -/
  excludedInputs : List String
deriving DecidableEq, Repr

/-- The limits used unless others are given. -/
def Heuristics.default : Heuristics := ⟨1024, 3, []⟩

end OffloadFusion
