import OffloadFusion.Typing.Op

/-!
# Type rules over an arithmetic

The type rules compute with sizes and strides of 64 bits. Here they are over any `Arithmetic`, and
all positions that they compute are checked against the list that they are read from.

* `Arithmetic.machine`, `Arithmetic.unbounded`: the numbers of 64 bits, and all numbers.
* `Arithmetic.inferType`: type inference over an arithmetic.
* **`Arithmetic.machine_inferType`**: over 64 bits it is `Op.inferType`.
-/

namespace OffloadFusion

open Typing

/-- How numbers are computed: each result is kept, or it is out of range. -/
structure Arithmetic where
  /-- A number as a size. -/
  size : Nat → Checked Nat
  /-- A number as a stride. -/
  stride : Int → Checked Int
  /-- A size read as a stride. -/
  signed : Nat → Int
  size_cases : ∀ n, size n = .ok n ∨ size n = .error .overflow
  stride_cases : ∀ i, stride i = .ok i ∨ stride i = .error .overflow

/-! ## Checked parts of lists -/

namespace Checked

variable {α : Type}

/-- The elements before a position. -/
def upTo (xs : List α) (i : Nat) : Checked (List α) :=
  if i ≤ xs.length then .ok (xs.take i) else .error .outOfRange

/-- The elements from a position on. -/
def onward (xs : List α) (i : Nat) : Checked (List α) :=
  if i ≤ xs.length then .ok (xs.drop i) else .error .outOfRange

end Checked

namespace Reindex

/-- The axes are distinct axes of the shape; `marks` tells of each whether it was seen. -/
def markAxes (shape : Shape) : (marks : List Bool) → (axes : List Nat) → Outcome TypeError Unit
  | _, [] => return ()
  | marks, axis :: axes => do
    if axis ≥ shape.length then refuse (.dimOutOfRange axis shape)
    if ← Checked.get marks axis then refuse .duplicateDims
    markAxes shape (← Checked.set marks axis true) axes

/-- `transposeOutput` with marks. -/
def transposeMarked (axes : List Nat) (t : TensorType) : Outcome TypeError TensorType := do
  if axes.length ≠ t.rank then
    refuse (.rankMismatch "transpose" (.exactly t.rank) axes.length)
  markAxes t.shape (List.replicate t.rank false) axes
  let shape ← (axes.mapM (Checked.get t.shape) : Checked Shape)
  let strides ← t.strides.permute axes
  return { t with shape, strides }

/-- `multibroadcastOutput` by positions. -/
def multibroadcastAt (target : Shape) (t : TensorType) : Outcome TypeError TensorType := do
  if t.rank > target.length then refuse (.broadcastingFailed [t.shape, target])
  let offset := target.length - t.rank
  let inner ← (List.range t.rank).mapM fun axis => do
    let source ← Checked.get t.shape axis
    broadcastStride t target axis source (← Checked.get target (offset + axis))
  return { t with shape := target, strides := List.replicate offset 0 ++ inner }

/-- `unitAxes` by positions. -/
def unitAxesAt (shape : Shape) : Checked (List Nat) :=
  (List.range shape.length).filterM fun i => do return (← Checked.get shape i) = 1

/-- `squeezeOutput` with the unit axes by positions. -/
def squeezeAt (axes : List Nat) (t : TensorType) : Outcome TypeError TensorType := do
  let axes ← (if axes.isEmpty then unitAxesAt t.shape else pure axes : Checked (List Nat))
  (descending axes).foldlM (dropAxis t.shape) t

end Reindex

namespace Arithmetic

/-- Sizes and strides of 64 bits. -/
def machine : Arithmetic where
  size := Checked.size
  stride := Checked.stride
  signed := Checked.signed
  size_cases n := by unfold Checked.size; split <;> simp
  stride_cases i := by unfold Checked.stride; split <;> simp

/-- Numbers without bounds. -/
def unbounded : Arithmetic where
  size := .ok
  stride := .ok
  signed n := n
  size_cases _ := .inl rfl
  stride_cases _ := .inl rfl

variable (A : Arithmetic)

/-! ## Numbers -/

def add (a b : Nat) : Checked Nat := A.size (a + b)

def mul (a b : Nat) : Checked Nat := A.size (a * b)

def product (ns : List Nat) : Checked Nat := ns.foldlM A.mul 1

def sum (ns : List Nat) : Checked Nat := ns.foldlM A.add 0

/-! ## Tensors -/

/-- Row-major strides with the extent of all axes together. -/
def rowMajorFrom : Shape → Checked (Strides × Int)
  | [] => .ok ([], 1)
  | d :: s => do
    let (inner, extent) ← rowMajorFrom s
    let outer ← A.stride (extent * A.signed d)
    return (extent :: inner, outer)

/-- A tensor with row-major strides. -/
def standard (dtype : DType) (shape : Shape) : Checked TensorType := do
  return ⟨dtype, shape, ← Prod.fst <$> A.rowMajorFrom shape⟩

/-- A single tensor in row-major order. -/
def standardValue (dtype : DType) (shape : Shape) : Typed ValueType := do
  return .tensor (← A.standard dtype shape)

/-- The number of elements from the first to the last one that the view touches in memory. -/
def elementSpace (t : TensorType) : Checked Nat := do
  if t.shape.contains 0 then return 0
  let spans ← (t.shape.zip t.strides).mapM fun (d, s) => A.mul (d - 1) s.natAbs
  A.add (← A.sum spans) 1

/-- Dense, possibly permuted. -/
def isPacked (t : TensorType) : Checked Bool := do
  if t.isBroadcasted then return false
  return (← A.product t.shape) = (← A.elementSpace t)

/-- Whether an offload call takes a tensor as it lies in memory. -/
def acceptsLayout (t : TensorType) : Checked Bool := do
  if ← A.isPacked t then return true
  return t.isBroadcasted

/-- Every operand is packed or broadcasted. -/
def checkLayouts (op : String) (tensors : List TensorType) : Typed Unit :=
  tensors.zipIdx.forM fun (t, index) => do
    if !(← A.acceptsLayout t) then refuse (.invalidLayout op index t)

/-! ## Matrices -/

def dot (quantized : Bool) (inputs : List ValueType) (modules : List Signature) :
    Typed ValueType := do
  let op := (Op.dot quantized).name
  let (lhs, rhs) ← twoTensors op inputs
  noModules op modules
  sameDType op lhs [rhs]
  let shape ← Dot.outputShape op lhs.shape rhs.shape
  A.standardValue (← productDType op quantized lhs.dtype) shape

/-- Whether the channels of the input and the weights fit the groups. -/
def groupsFit (c : Conv) (input weights : Shape) : Checked Bool := do
  if c.group = 0 then return false
  let channels ← Checked.get input 1
  if channels ≠ (← A.mul (← Checked.get weights 1) c.group) then return false
  return (← Checked.mod (← Checked.get weights 0) c.group) = 0

/-- The output extent along a spatial axis: the number of places of the window. -/
def outputExtent (c : Conv) (input weights : Shape) (i : Nat) : Typed Nat := do
  let padding ← Checked.get c.padding i
  let padded ← A.add (← Checked.get input (i + 2)) (← A.mul 2 padding)
  let dilation ← Checked.get c.dilation i
  let window ← A.add (← A.mul dilation ((← Checked.get weights (i + 2)) - 1)) 1
  let stride ← Checked.get c.stride i
  if window > padded ∨ stride = 0 then
    refuse (.invalidAttribute c.name (.window window padded))
  A.add (← Checked.div (padded - window) stride) 1

def conv (c : Conv) (inputs : List ValueType) (modules : List Signature) : Typed ValueType := do
  let (input, weights) ← twoTensors c.name inputs
  noModules c.name modules
  sameDType c.name input [weights]
  Conv.checkRank c input.shape
  Conv.checkRank c weights.shape
  if c.stride.length ≠ c.spatial ∨ c.dilation.length ≠ c.spatial then
    refuse (.invalidAttribute c.name .spatialLengths)
  if !(← A.groupsFit c input.shape weights.shape) then
    refuse (.shapeMismatch c.name input.shape weights.shape)
  let batch ← Checked.get input.shape 0
  let features ← Checked.get weights.shape 0
  let extents ← (List.range c.spatial).mapM (A.outputExtent c input.shape weights.shape)
  A.standardValue (← productDType c.name c.quantized input.dtype) (batch :: features :: extents)

/-- The type of attention with operands `a`, `b`, a mask and `v`. -/
def attentionOf (a b : TensorType) (mask : List TensorType) (v : TensorType) :
    Typed ValueType := do
  sameDType Attention.opName a [b, v]
  let scores ← Dot.outputShape Attention.opName a.shape b.shape
  let shape ← Dot.outputShape Attention.opName scores v.shape
  Attention.checkMask (← A.standard a.dtype scores) mask
  A.standardValue a.dtype shape

def attention (inputs : List ValueType) (modules : List Signature) : Typed ValueType := do
  let tensors ← tensorInputs Attention.opName inputs ⟨3, 5⟩
  noModules Attention.opName modules
  match tensors with
  | [a, b, v] => A.attentionOf a b [] v
  | [a, b, bias, v] => A.attentionOf a b [bias] v
  | [a, b, cond, fill, v] => A.attentionOf a b [cond, fill] v
  | _ => throw (.fault .outOfRange)

/-! ## Views -/

/-- Puts the strides into `target` from a position on. -/
def placeStrides (target : Strides) (axis : Nat) (strides : Strides) : Checked Strides :=
  strides.zipIdx.foldlM (fun placed (s, i) => do Checked.set placed (← A.add axis i) s) target

/-- Whether the source dimensions stand in the target from a position on. -/
def fits (axis : Nat) (source target : Shape) : Checked Bool := do
  if (← A.add axis source.length) > target.length then return false
  source.zipIdx.allM fun (d, i) => do return d = (← Checked.get target (axis + i))

def broadcast (axis : Nat) (target : Shape) (t : TensorType) : Outcome TypeError TensorType := do
  if !(← A.fits axis t.shape target) then refuse (.broadcastingFailed [t.shape, target])
  let strides ← A.placeStrides (Reindex.zeroStrides target) axis t.strides
  return { t with shape := target, strides }

def reshape (target : Shape) (t : TensorType) : Outcome TypeError TensorType := do
  if (← A.product t.shape) ≠ (← A.product target) then refuse (.reshapeNumel t.shape target)
  A.standard t.dtype target

/-- Inserts a unit axis; its stride spans the axis that it stands before. -/
def insertAxis (source : Shape) (rank : Nat) (t : TensorType) (axis : Nat) :
    Outcome TypeError TensorType := do
  if axis ≥ rank ∨ axis > t.shape.length then refuse (.dimOutOfRange axis source)
  let stride ←
    if axis < t.shape.length then do
      let stride ← Checked.get t.strides axis
      A.stride (stride * A.signed (← Checked.get t.shape axis))
    else pure 1
  let shape ← Checked.insert t.shape axis 1
  let strides ← Checked.insert t.strides axis stride
  return { t with shape, strides }

def unsqueeze (axes : List Nat) (t : TensorType) : Outcome TypeError TensorType :=
  (Reindex.ascending axes).foldlM (A.insertAxis t.shape (t.rank + axes.length)) t

def flatten (axis : Nat) (t : TensorType) : Outcome TypeError TensorType := do
  if axis > t.rank then refuse (.dimOutOfRange axis t.shape)
  let outer ← A.product (← Checked.upTo t.shape axis)
  let inner ← A.product (← Checked.onward t.shape axis)
  A.standard t.dtype [outer, inner]

/-- The type of a shape-only operation on a tensor. -/
def view : Reindex → TensorType → Outcome TypeError TensorType
  | .slice axes starts ends, t => Reindex.sliceOutput axes starts ends t
  | .transpose axes, t => Reindex.transposeMarked axes t
  | .broadcast axis target, t => A.broadcast axis target t
  | .multibroadcast target, t => Reindex.multibroadcastAt target t
  | .contiguous, t => do return ← A.standard t.dtype t.shape
  | .reshape target, t => A.reshape target t
  | .squeeze axes, t => Reindex.squeezeAt axes t
  | .unsqueeze axes, t => A.unsqueeze axes t
  | .flatten axis, t => A.flatten axis t

/-! ## Operations -/

/-- The type of a constant: its storage must back the element type and fill the dimensions. -/
def literal (data : LiteralData) (t : TensorType) : Typed ValueType := do
  if !data.holds t.dtype then refuse (.unsupportedDType "@literal" t.dtype)
  let expected ← A.product t.shape
  if data.size ≠ expected then refuse (.literalSize expected data.size)
  return .tensor t

/-- Two operands of one type. -/
def binary (op : String) (inputs : List ValueType) (modules : List Signature) :
    Typed ValueType := do
  let (lhs, rhs) ← twoTensors op inputs
  noModules op modules
  let dims ← sameDims op lhs [rhs]
  sameDType op lhs [rhs]
  A.standardValue lhs.dtype dims

def select (op : String) (inputs : List ValueType) (modules : List Signature) :
    Typed ValueType := do
  let (cond, onTrue, onFalse) ← threeTensors op inputs
  noModules op modules
  let dims ← sameDims op cond [onTrue, onFalse]
  hasDType op .bool cond
  sameDType op onTrue [onFalse]
  A.standardValue onTrue.dtype dims

def clip (op : String) (inputs : List ValueType) (modules : List Signature) :
    Typed ValueType := do
  let (x, low, high) ← threeTensors op inputs
  noModules op modules
  let dims ← sameDims op x [low, high]
  sameDType op x [low, high]
  A.standardValue x.dtype dims

/-- Two operands and an optional zero point, of the same dimensions. -/
def scaled (op : String) (inputs : List ValueType) (modules : List Signature)
    (dtype : TensorType → Option TensorType → DType) : Typed ValueType := do
  let tensors ← tensorInputs op inputs ⟨2, 3⟩
  noModules op modules
  match tensors with
  | x :: scale :: zero => do
    let dims ← sameDims op x (scale :: zero)
    A.standardValue (dtype scale zero.head?) dims
  | _ => throw (.fault .outOfRange)

/-- Operands of the same dimensions, which the result takes; its element type is the body's. -/
def pointwise (op : String) (inputs : List ValueType) (modules : List Signature) :
    Typed ValueType := do
  let tensors ← tensorInputs op inputs (.atLeast 1)
  let body ← singleModule op modules
  let (first, rest) ← nonempty tensors
  let dims ← sameDims op first rest
  if body.params.length ≠ tensors.length then
    refuse (.inputArity op (.exactly body.params.length) tensors.length)
  Op.matchDTypes op tensors body.params
  match body.returns with
  | [result] => A.standardValue result.dtype dims
  | returns => refuse (.moduleReturns op 1 returns.length)

/-- The type of the operation, from its operands and modules. -/
def inferType (op : Op) (inputs : List ValueType) (modules : List Signature) : Typed ValueType :=
  match op with
  | .param _ t => do
    Op.nullary op.name inputs modules
    return .tensor t
  | .literal t data => do
    Op.nullary op.name inputs modules
    A.literal data t
  | .ret => do
    let tensors ← tensorInputs op.name inputs (.atLeast 1)
    noModules op.name modules
    return ValueType.ofElements tensors
  | .dot quantized => A.dot quantized inputs modules
  | .conv c => A.conv c inputs modules
  | .attention _ => A.attention inputs modules
  | .unary _ => Op.mapTensor op.name inputs modules fun t => A.standard t.dtype t.shape
  | .binary _ => A.binary op.name inputs modules
  | .select => A.select op.name inputs modules
  | .clip => A.clip op.name inputs modules
  | .convert target => Op.mapTensor op.name inputs modules fun t => A.standard target t.shape
  | .quantize => A.scaled op.name inputs modules fun _ zero =>
      (zero.map TensorType.dtype).getD .u8
  | .dequantize => A.scaled op.name inputs modules fun scale _ => scale.dtype
  | .softmax axis => Op.mapTensor op.name inputs modules fun t => do
      if axis ≥ t.rank then refuse (.dimOutOfRange axis t.shape)
      A.standard t.dtype t.shape
  | .reduce _ axes => Op.mapTensor op.name inputs modules fun t => do
      A.standard t.dtype (← Op.reducedShape t.shape axes)
  | .reindex v => Op.mapTensor op.name inputs modules (A.view v)
  | .tupleElem index => Op.tupleElemOutput op.name index inputs modules
  | .pointwise => A.pointwise op.name inputs modules
  | .splitFusedReduce _ => do
    let tensors ← tensorInputs op.name inputs (.atLeast 1)
    Op.callOutput op.name tensors (← singleModule op.name modules)
  | .offload _ => do
    let tensors ← tensorInputs op.name inputs (.atLeast 2)
    let body ← singleModule op.name modules
    A.checkLayouts op.name tensors
    Op.callOutput op.name tensors body

end Arithmetic

/-! ## Positions -/

section

variable {ε α β : Type} {xs : List α}

/-- A loop over positions is one over the elements there. -/
theorem mapM_range'_eq {f : α × Nat → Except ε β} {g : Nat → Except ε β} {k : Nat}
    (h : ∀ i a, xs[i]? = some a → g (k + i) = f (a, k + i)) :
    (List.range' k xs.length).mapM g = (xs.zipIdx k).mapM f := by
  induction xs generalizing k with
  | nil => rfl
  | cons x xs ih =>
    have hrest : (List.range' (k + 1) xs.length).mapM g = (xs.zipIdx (k + 1)).mapM f :=
      ih fun i a ha => by
        rw [Nat.add_right_comm, Nat.add_assoc]
        exact h (i + 1) a ha
    rw [List.length_cons, List.range'_succ, List.zipIdx_cons, List.mapM_cons, List.mapM_cons, hrest,
      ← Nat.add_zero k, h 0 x rfl]

theorem filterAuxM_eq {p : α → Except ε Bool} {f : α → Bool} (h : ∀ x ∈ xs, p x = .ok (f x))
    (kept : List α) : xs.filterAuxM p kept = .ok ((xs.filter f).reverse ++ kept) := by
  induction xs generalizing kept with
  | nil => rfl
  | cons x xs ih =>
    obtain ⟨hx, hxs⟩ := List.forall_mem_cons.mp h
    rw [List.filterAuxM, hx]
    refine (ih hxs _).trans ?_
    cases hf : f x <;> simp [hf]

theorem filterM_eq {p : α → Except ε Bool} {f : α → Bool} (h : ∀ x ∈ xs, p x = .ok (f x)) :
    xs.filterM p = .ok (xs.filter f) := by
  rw [List.filterM, filterAuxM_eq h]
  simp [bind, Except.bind, pure, Except.pure]

end

namespace Reindex

variable {shape seen axes : List Nat}

theorem markAxes_eq : markAxes shape ((List.range shape.length).map fun a => decide (a ∈ seen))
    axes = checkAxes shape seen axes := by
  induction axes generalizing seen with
  | nil => rfl
  | cons axis axes ih =>
    rw [markAxes, checkAxes]
    by_cases h : axis ≥ shape.length
    · rw [if_pos h, if_pos h]
      rfl
    · have hlt : axis < shape.length := Nat.lt_of_not_le h
      have hget : Checked.get ((List.range shape.length).map fun a => decide (a ∈ seen)) axis =
          .ok (decide (axis ∈ seen)) := by
        rw [Checked.get, List.getElem?_map, List.getElem?_range hlt]
        rfl
      have hset : Checked.set ((List.range shape.length).map fun a => decide (a ∈ seen)) axis true =
          .ok ((List.range shape.length).map fun a => decide (a ∈ axis :: seen)) := by
        rw [Checked.set, if_pos (by simpa using hlt)]
        refine congrArg _ (List.ext_getElem (by simp) fun k hk hk' => ?_)
        rw [List.getElem_set]
        split
        · next heq => simp [← heq]
        · next hne => simp [Ne.symm hne]
      rw [if_neg h, if_neg h, hget, hset, ← ih]
      by_cases hseen : axis ∈ seen
      · rw [if_pos hseen, decide_eq_true hseen]
        rfl
      · rw [if_neg hseen, decide_eq_false hseen]
        rfl

theorem transposeMarked_eq : transposeMarked = transposeOutput := by
  funext axes t
  have hmarks :
      markAxes t.shape (List.replicate t.rank false) axes = checkAxes t.shape [] axes := by
    rw [← markAxes_eq, TensorType.rank, Shape.rank, ← List.length_range (n := t.shape.length),
      ← List.map_const']
    simp
  rw [transposeMarked, hmarks]
  rfl

theorem multibroadcastAt_eq : multibroadcastAt = multibroadcastOutput := by
  funext target t
  rw [multibroadcastAt, multibroadcastOutput]
  by_cases h : t.rank > target.length
  · rw [if_pos h, if_pos h]
    rfl
  · have hlen : (t.shape.zip (target.drop (target.length - t.rank))).length = t.rank := by
      rw [TensorType.rank, Shape.rank] at h ⊢
      rw [List.length_zip, List.length_drop]
      omega
    have hloop : (List.range' 0 (t.shape.zip (target.drop (target.length - t.rank))).length).mapM
        (fun axis => do
          let source ← Checked.get t.shape axis
          broadcastStride t target axis source
            (← Checked.get target (target.length - t.rank + axis))) =
        (t.shape.zip (target.drop (target.length - t.rank))).zipIdx.mapM fun e =>
          broadcastStride t target e.2 e.1.1 e.1.2 := by
      refine mapM_range'_eq fun i a ha => ?_
      obtain ⟨hsource, hextent⟩ := List.getElem?_zip_eq_some.mp ha
      rw [List.getElem?_drop] at hextent
      rw [Nat.zero_add, Checked.get, hsource, Checked.get, hextent]
      rfl
    rw [hlen, ← List.range_eq_range'] at hloop
    rw [if_neg h, if_neg h]
    exact congrArg (· >>= fun inner => pure { t with
      shape := target, strides := List.replicate (target.length - t.rank) 0 ++ inner }) hloop

theorem unitAxesAt_eq : unitAxesAt shape = .ok (unitAxes shape) := by
  refine filterM_eq fun i hi => ?_
  have hlt : i < shape.length := List.mem_range.mp hi
  simp [Checked.get, List.getElem?_eq_getElem hlt, bind, Except.bind, pure, Except.pure]

theorem squeezeAt_eq : squeezeAt = squeezeOutput := by
  funext axes t
  rw [squeezeAt, squeezeOutput, unitAxesAt_eq]
  cases axes.isEmpty <;> rfl

end Reindex

/-! ## Over 64 bits -/

namespace Arithmetic

@[simp] theorem machine_stride (i : Int) : machine.stride i = Checked.stride i := rfl

@[simp] theorem machine_signed (n : Nat) : machine.signed n = Checked.signed n := by
  simp only [machine]

theorem machine_rowMajorFrom : machine.rowMajorFrom = Shape.rowMajorFrom := by
  funext s
  induction s with
  | nil => rfl
  | cons d s ih => simp only [rowMajorFrom, Shape.rowMajorFrom, ih, machine_stride, machine_signed]

theorem machine_standard : machine.standard = TensorType.standard := by
  funext dtype shape
  rw [standard, machine_rowMajorFrom]
  rfl

theorem machine_standardValue : machine.standardValue = Typing.standardValue := by
  unfold standardValue
  rw [machine_standard]
  rfl

theorem machine_unsqueeze : machine.unsqueeze = Reindex.unsqueezeOutput := by
  unfold unsqueeze insertAxis
  simp only [machine_stride, machine_signed]
  rfl

theorem machine_view : machine.view = Reindex.output := by
  funext v t
  cases v with
  | slice axes starts ends => rfl
  | transpose axes => rw [view, Reindex.transposeMarked_eq]; rfl
  | broadcast axis target => rfl
  | multibroadcast target => rw [view, Reindex.multibroadcastAt_eq]; rfl
  | contiguous => rw [view, machine_standard]; rfl
  | reshape target => rw [view, reshape, machine_standard]; rfl
  | squeeze axes => rw [view, Reindex.squeezeAt_eq]; rfl
  | unsqueeze axes => rw [view, machine_unsqueeze]; rfl
  | flatten axis =>
    rw [view, flatten, machine_standard, Reindex.output, Reindex.flattenOutput]
    by_cases h : axis > t.rank
    · rw [if_pos h, if_pos h]
      rfl
    · have hle : axis ≤ t.shape.length := Nat.le_of_not_lt h
      rw [if_neg h, if_neg h, Checked.upTo, Checked.onward, if_pos hle, if_pos hle]
      rfl

/-- **Over 64 bits the rules are those of the operations.** -/
theorem machine_inferType (op : Op) (inputs : List ValueType) (modules : List Signature) :
    machine.inferType op inputs modules = op.inferType inputs modules := by
  cases op with
  | param name t => rfl
  | literal t data => rfl
  | ret => rfl
  | dot quantized => rw [inferType, dot, machine_standardValue]; rfl
  | conv c => rw [inferType, conv, machine_standardValue]; rfl
  | attention scale =>
    unfold inferType attention attentionOf
    rw [machine_standardValue, machine_standard]
    rfl
  | unary f => rw [inferType, machine_standard]; rfl
  | binary f => rw [inferType, binary, machine_standardValue]; rfl
  | select => rw [inferType, select, machine_standardValue]; rfl
  | clip => rw [inferType, clip, machine_standardValue]; rfl
  | convert target => rw [inferType, machine_standard]; rfl
  | quantize => rw [inferType, scaled, machine_standardValue]; rfl
  | dequantize => rw [inferType, scaled, machine_standardValue]; rfl
  | softmax axis => rw [inferType, machine_standard]; rfl
  | reduce f axes => rw [inferType, machine_standard]; rfl
  | reindex v => rw [inferType, machine_view]; rfl
  | tupleElem index => rfl
  | pointwise => rw [inferType, pointwise, machine_standardValue]; rfl
  | splitFusedReduce axes => rfl
  | offload anchor => rfl

end Arithmetic

end OffloadFusion
