import OffloadFusion.Tensor.Shape

/-!
# Shape-only operations

A `Reindex` changes the view or the layout of a tensor and never its values.
-/

namespace OffloadFusion

/-- Shape-only operations. -/
inductive Reindex where
  /-- Restricts each listed axis to a half-open range. -/
  | slice (axes starts ends : List Nat)
  /-- Reorders the axes; the strides follow. -/
  | transpose (axes : List Nat)
  /-- Places the source axes at `axis` of `target`; every other axis is broadcast. -/
  | broadcast (axis : Nat) (target : Shape)
  /-- Broadcasts to `target`, aligning the last axes. -/
  | multibroadcast (target : Shape)
  /-- Materialises a row-major copy. -/
  | contiguous
  | reshape (target : Shape)
  /-- Drops unit axes; all of them when none is listed. -/
  | squeeze (axes : List Nat)
  /-- Inserts unit axes at positions of the result. -/
  | unsqueeze (axes : List Nat)
  /-- Collapses to two axes around `axis`. -/
  | flatten (axis : Nat)
deriving DecidableEq, Repr

namespace Reindex

def name : Reindex → String
  | slice .. => "slice"
  | transpose _ => "transpose"
  | broadcast .. => "broadcast"
  | multibroadcast _ => "multibroadcast"
  | contiguous => "contiguous"
  | reshape _ => "reshape"
  | squeeze _ => "squeeze"
  | unsqueeze _ => "unsqueeze"
  | flatten _ => "flatten"

/-- Squeezing, unsqueezing and flattening only regroup axes. -/
def isRegrouping : Reindex → Bool
  | squeeze _ | unsqueeze _ | flatten _ => true
  | _ => false

def isSlice : Reindex → Bool
  | slice .. => true
  | _ => false

end Reindex

end OffloadFusion
