import OffloadFusion.Checked

/-!
# Dimensions and strides

* `Shape`: the dimensions of a tensor, outermost first. `Strides`: how far one step along each
  axis moves in memory; zero marks a broadcast axis.
* `Shape.rowMajor`: the strides of a dense tensor with the last axis innermost.
* `Shape.isRowMajor`: whether strides are those, up to axes of extent at most one.
* `Shape.multiBroadcast?`: the common shape of several shapes aligned at their last axes.
-/

namespace OffloadFusion

/-- Dimensions of a tensor, outermost first. -/
abbrev Shape := List Nat

/-- Element strides of a view, one for each axis. A zero stride marks a broadcast axis. -/
abbrev Strides := List Int

/-- Numbers joined by `x` in brackets; an empty list reads as a single zero. -/
def crossText (numbers : List String) : String :=
  "[" ++ "x".intercalate (if numbers.isEmpty then ["0"] else numbers) ++ "]"

namespace Strides

/-- The text in types, such as `[3x1]`. -/
def text (s : Strides) : String := crossText (s.map toString)

/-- The strides in the order of `axes`. -/
def permute (s : Strides) (axes : List Nat) : Checked Strides := axes.mapM (Checked.get s)

end Strides

namespace Shape

/-- The shape of the scalar operands inside pointwise bodies. -/
def scalar : Shape := [1]

def rank (s : Shape) : Nat := s.length

/-- The text in types and errors, such as `[2x3]`. -/
def text (s : Shape) : String := crossText (s.map toString)

/-- The text as a list, such as `[2, 3]`. -/
def listText (s : Shape) : String := "[" ++ ", ".intercalate (s.map toString) ++ "]"

/-- The number of elements. -/
def numel (s : Shape) : Checked Nat := Checked.product s

/-- The innermost extent. -/
def last? (s : Shape) : Option Nat := s.getLast?

/-- The leading axes of a matrix-shaped tensor. -/
def batch (s : Shape) : Shape := s.take (s.length - 2)

/-! ## Row-major order -/

/-- Row-major strides with the extent of all axes together. -/
def rowMajorFrom : Shape → Checked (Strides × Int)
  | [] => .ok ([], 1)
  | d :: s => do
    let (inner, extent) ← rowMajorFrom s
    let outer ← Checked.stride (extent * Checked.signed d)
    return (extent :: inner, outer)

/-- Row-major strides. -/
def rowMajor (s : Shape) : Checked Strides := Prod.fst <$> rowMajorFrom s

/-- The extent of all axes together if the strides are row-major, else `none`. Comparing goes from
the innermost axis outwards and stops at the first difference. -/
def rowMajorExtent? : List (Nat × Int) → Checked (Option Int)
  | [] => .ok (some 1)
  | (d, s) :: axes => do
    match ← rowMajorExtent? axes with
    | none => return none
    | some extent =>
      if d > 1 ∧ s ≠ extent then return none
      some <$> Checked.stride (extent * Checked.signed d)

/-- Whether the strides are row-major. Strides of axes of extent at most one are free. -/
def isRowMajor (s : Shape) (strides : Strides) : Checked Bool :=
  if s.length ≠ strides.length then .ok false
  else Option.isSome <$> rowMajorExtent? (s.zip strides)

/-! ## Broadcasting -/

/-- The common extent of two axes, where one is a wildcard. -/
def joinExtent? (a b : Nat) : Option Nat :=
  if b = 1 then some a
  else if a ≠ 1 ∧ b ≠ a then none
  else some b

/-- The extent at a position counted from the last axis; missing axes have extent one. -/
def extentFromEnd (s : Shape) (i : Nat) : Nat := s.reverse.getD i 1

/-- The common shape of several shapes, aligned at their last axes. -/
def multiBroadcast? (shapes : List Shape) : Option Shape := do
  let ranks ← (shapes.map rank).max?
  let extents ← (List.range ranks).mapM fun i =>
    shapes.foldlM (fun extent s => joinExtent? extent (s.extentFromEnd i)) 1
  return extents.reverse

end Shape

end OffloadFusion
