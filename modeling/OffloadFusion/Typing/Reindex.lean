import OffloadFusion.Op.Reindex
import OffloadFusion.Typing.Error

/-!
# Types of views

`Reindex.output` gives the type of a shape-only operation on a tensor. Slicing, transposing,
squeezing, unsqueezing and broadcasting keep the memory of the tensor and rearrange its strides;
the other operations produce row-major tensors.
-/

namespace OffloadFusion.Reindex

/-! ## Slicing -/

/-- Restricts one axis of `shape`, a narrowing of the dimensions `source`, to `[first, last)`. -/
def sliceAxis (source shape : Shape) (axis first last : Nat) : Outcome TypeError Shape := do
  if axis ≥ shape.length then refuse (.dimOutOfRange axis source)
  let last := min last (← Checked.get shape axis)
  if first ≥ last then refuse (.invalidAttribute "slice" (.emptyRange first last axis))
  Checked.set shape axis (last - first)

def sliceOutput (axes starts ends : List Nat) (t : TensorType) : Outcome TypeError TensorType := do
  if axes.length ≠ starts.length ∨ axes.length ≠ ends.length then
    refuse (.invalidAttribute "slice" .rangeLengths)
  let shape ← (axes.zip (starts.zip ends)).foldlM (fun shape (axis, first, last) =>
    sliceAxis t.shape shape axis first last) t.shape
  return { t with shape }

/-! ## Transposing -/

/-- The axes are distinct axes of the shape. -/
def checkAxes (shape : Shape) : (seen axes : List Nat) → Outcome TypeError Unit
  | _, [] => return ()
  | seen, axis :: axes => do
    if axis ≥ shape.length then refuse (.dimOutOfRange axis shape)
    if axis ∈ seen then refuse .duplicateDims
    checkAxes shape (axis :: seen) axes

def transposeOutput (axes : List Nat) (t : TensorType) : Outcome TypeError TensorType := do
  if axes.length ≠ t.rank then
    refuse (.rankMismatch "transpose" (.exactly t.rank) axes.length)
  checkAxes t.shape [] axes
  let shape ← (axes.mapM (Checked.get t.shape) : Checked Shape)
  let strides ← t.strides.permute axes
  return { t with shape, strides }

/-! ## Broadcasting -/

/-- Puts the strides into `target` from a position on. -/
def placeStrides (target : Strides) (axis : Nat) (strides : Strides) : Checked Strides :=
  strides.zipIdx.foldlM (fun placed (s, i) => do Checked.set placed (← Checked.add axis i) s) target

/-- The strides of a shape broadcast along every axis. -/
def zeroStrides (shape : Shape) : Strides := shape.map fun _ => 0

/-- Whether the source dimensions stand in the target from a position on. -/
def fits (axis : Nat) (source target : Shape) : Checked Bool := do
  if (← Checked.add axis source.length) > target.length then return false
  source.zipIdx.allM fun (d, i) => do return d = (← Checked.get target (axis + i))

def broadcastOutput (axis : Nat) (target : Shape) (t : TensorType) :
    Outcome TypeError TensorType := do
  if !(← fits axis t.shape target) then refuse (.broadcastingFailed [t.shape, target])
  let strides ← placeStrides (zeroStrides target) axis t.strides
  return { t with shape := target, strides }

/-- The stride of one source axis of extent `source` in a broadcast to extent `target`. -/
def broadcastStride (t : TensorType) (shape : Shape) (axis source target : Nat) :
    Outcome TypeError Int := do
  if source = target then Checked.get t.strides axis
  else if source ≠ 1 then refuse (.broadcastingFailed [t.shape, shape])
  else return 0

def multibroadcastOutput (target : Shape) (t : TensorType) : Outcome TypeError TensorType := do
  if t.rank > target.length then refuse (.broadcastingFailed [t.shape, target])
  let offset := target.length - t.rank
  let inner ← (t.shape.zip (target.drop offset)).zipIdx.mapM fun ((source, extent), axis) =>
    broadcastStride t target axis source extent
  return { t with shape := target, strides := List.replicate offset 0 ++ inner }

/-! ## Regrouping -/

def reshapeOutput (target : Shape) (t : TensorType) : Outcome TypeError TensorType := do
  if (← t.numel) ≠ (← Shape.numel target) then refuse (.reshapeNumel t.shape target)
  TensorType.standard t.dtype target

/-- Inserts an axis into a descending list without repetition. -/
def insertDescending (axis : Nat) : List Nat → List Nat
  | [] => [axis]
  | a :: axes =>
    if axis > a then axis :: a :: axes
    else if axis = a then a :: axes
    else a :: insertDescending axis axes

/-- The axes in descending order, each once. -/
def descending (axes : List Nat) : List Nat := axes.foldr insertDescending []

/-- Inserts an axis into an ascending list. -/
def insertAscending (axis : Nat) : List Nat → List Nat
  | [] => [axis]
  | a :: axes => if axis ≤ a then axis :: a :: axes else a :: insertAscending axis axes

/-- The axes in ascending order, repetitions kept. -/
def ascending (axes : List Nat) : List Nat := axes.foldr insertAscending []

/-- The unit axes of a shape. -/
def unitAxes (shape : Shape) : List Nat :=
  (List.range shape.length).filter fun i => shape[i]? = some 1

/-- Drops a unit axis of the dimensions `source` from `t`. -/
def dropAxis (source : Shape) (t : TensorType) (axis : Nat) : Outcome TypeError TensorType := do
  if axis ≥ source.length then refuse (.invalidAttribute "squeeze" (.notUnit axis source))
  if (← Checked.get source axis) ≠ 1 then
    refuse (.invalidAttribute "squeeze" (.notUnit axis source))
  let shape ← Checked.erase t.shape axis
  let strides ← Checked.erase t.strides axis
  return { t with shape, strides }

def squeezeOutput (axes : List Nat) (t : TensorType) : Outcome TypeError TensorType :=
  (descending (if axes.isEmpty then unitAxes t.shape else axes)).foldlM (dropAxis t.shape) t

/-- Inserts a unit axis; `source` are the dimensions before all insertions and `rank` the rank
after them. Its stride spans the axis that it stands before. -/
def insertAxis (source : Shape) (rank : Nat) (t : TensorType) (axis : Nat) :
    Outcome TypeError TensorType := do
  if axis ≥ rank ∨ axis > t.shape.length then refuse (.dimOutOfRange axis source)
  let stride ←
    if axis < t.shape.length then do
      let stride ← Checked.get t.strides axis
      Checked.stride (stride * Checked.signed (← Checked.get t.shape axis))
    else pure 1
  let shape ← Checked.insert t.shape axis 1
  let strides ← Checked.insert t.strides axis stride
  return { t with shape, strides }

def unsqueezeOutput (axes : List Nat) (t : TensorType) : Outcome TypeError TensorType :=
  (ascending axes).foldlM (insertAxis t.shape (t.rank + axes.length)) t

def flattenOutput (axis : Nat) (t : TensorType) : Outcome TypeError TensorType := do
  if axis > t.rank then refuse (.dimOutOfRange axis t.shape)
  let outer ← Checked.product (t.shape.take axis)
  let inner ← Checked.product (t.shape.drop axis)
  TensorType.standard t.dtype [outer, inner]

/-! ## All views -/

/-- The type of the operation on a tensor. -/
def output : Reindex → TensorType → Outcome TypeError TensorType
  | slice axes starts ends, t => sliceOutput axes starts ends t
  | transpose axes, t => transposeOutput axes t
  | broadcast axis target, t => broadcastOutput axis target t
  | multibroadcast target, t => multibroadcastOutput target t
  | contiguous, t => do return ← t.asStandard
  | reshape target, t => reshapeOutput target t
  | squeeze axes, t => squeezeOutput axes t
  | unsqueeze axes, t => unsqueezeOutput axes t
  | flatten axis, t => flattenOutput axis t

end OffloadFusion.Reindex
