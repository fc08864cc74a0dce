import OffloadFusion.Proofs.Indices

/-!
# The meaning of programs

* `Tensor`: element type, dimensions and elements of a value.
* `Interpretation`: what constants, elementwise operations and all other operations compute. Views,
  composed attention and calls have their meaning from it (`Interpretation.value`).
* **`Program.meaning`**: what a module computes from the values of its parameters.
-/

namespace OffloadFusion

/-! ## Tensors -/

/-- A value: element type, dimensions, and the element at each index. -/
structure Tensor (V : Type*) where
  dtype : DType
  shape : Shape
  entries : List Nat → V

namespace Tensor

variable {V : Type*} [Inhabited V]

instance : Inhabited (Tensor V) := ⟨⟨.f32, [], fun _ => default⟩⟩

/-- The tensor with given elements within its dimensions, and a default outside. -/
def ofFn (dtype : DType) (shape : Shape) (f : List Nat → V) : Tensor V :=
  ⟨dtype, shape, fun index => if shape.holds index then f index else default⟩

/-- The operand of a pointwise body that holds one element. -/
def scalar (dtype : DType) (v : V) : Tensor V := ofFn dtype Shape.scalar fun _ => v

end Tensor

/-! ## Operations -/

/-- What the operations compute over elements `V`. -/
structure Interpretation (V : Type*) where
  /-- The element of a constant at a place in row-major order. -/
  constant : DType → LiteralData → Nat → V
  /-- An elementwise operation on one element of each operand. -/
  scalar : Op → List DType → List V → V
  /-- The element at an index of any other operation, from its operands as wholes. -/
  bulk : Op → List (Tensor V) → List Nat → V

namespace Interpretation

variable {V : Type*} [Inhabited V] (I : Interpretation V)

/-! ### Attention -/

/-- The matrix product. -/
def dot (a b : Tensor V) : Tensor V :=
  .ofFn a.dtype (a.shape.dropLast ++ b.shape.drop (b.shape.length - 1)) (I.bulk (.dot false) [a, b])

/-- A scale as an element. -/
def factor (dtype : DType) (scale : Single) : V :=
  match LiteralData.scalar dtype scale with
  | .ok (_, data) => I.constant dtype data 0
  | .error _ => default

/-- The scores times the scale. -/
def scaled (scale : Single) (scores : Tensor V) : Tensor V :=
  .ofFn scores.dtype scores.shape fun index => I.scalar (.binary .mul)
    [scores.dtype, scores.dtype] [scores.entries index, I.factor scores.dtype scale]

/-- The scores with the mask: `scores + bias` or `where(cond, scores, fill)`. -/
def masked (scores : Tensor V) : List (Tensor V) → Tensor V
  | [bias] => .ofFn scores.dtype scores.shape fun index => I.scalar (.binary .add)
      [scores.dtype, bias.dtype] [scores.entries index, bias.entries index]
  | [cond, fill] => .ofFn scores.dtype scores.shape fun index => I.scalar .select
      [cond.dtype, scores.dtype, fill.dtype]
      [cond.entries index, scores.entries index, fill.entries index]
  | _ => scores

/-- The softmax along the last axis. -/
def weights (scores : Tensor V) : Tensor V :=
  .ofFn scores.dtype scores.shape (I.bulk (.softmax (scores.shape.length - 1)) [scores])

/-- `dot(softmax(scale * dot(a, b) [mask]), v)` -/
def attend (scale : Single) (a b : Tensor V) (mask : List (Tensor V)) (v : Tensor V) : Tensor V :=
  I.dot (I.weights (I.masked (I.scaled scale (I.dot a b)) mask)) v

/-- Attention on its operands. -/
def attention (scale : Single) : List (Tensor V) → Tensor V
  | [a, b, v] => I.attend scale a b [] v
  | [a, b, bias, v] => I.attend scale a b [bias] v
  | [a, b, cond, fill, v] => I.attend scale a b [cond, fill] v
  | _ => default

/-! ### All operations -/

variable (M : ModuleId → List (Tensor V) → List (Tensor V))

/-- An element of an elementwise operation, where modules mean `M`. A pointwise instruction applies
its body to the elements at the index. -/
def point (op : Op) (modules : List ModuleId) (xs : List (Tensor V)) (index : List Nat) : V :=
  match op, modules with
  | .pointwise, [body] =>
    ((M body (xs.map fun x => .scalar x.dtype (x.entries index))).headD default).entries [0]
  | _, _ => I.scalar op (xs.map Tensor.dtype) (xs.map fun x => x.entries index)

/-- The elements of an operation on tensors with a result of type `t`. -/
def entries (op : Op) (modules : List ModuleId) (xs : List (Tensor V)) (t : TensorType)
    (index : List Nat) : V :=
  match op with
  | .literal _ data => I.constant t.dtype data (t.shape.position index)
  | .reindex view =>
    let x := xs.headD default
    x.entries (view.sourceIndex x.shape t.shape index)
  | .attention scale => (I.attention scale xs).entries index
  | op => if op.pattern = .elementwise then I.point M op modules xs index else I.bulk op xs index

/-- The value of an operation with a result of a given type. Calls evaluate their module. -/
def value (op : Op) (modules : List ModuleId) (type : ValueType) (xs : List (Tensor V)) :
    List (Tensor V) :=
  match op, modules with
  | .ret, _ => xs
  | .tupleElem index, _ => xs[index]?.toList
  | .splitFusedReduce _, [body] => M body xs
  | .offload _, [body] => M body xs
  | _, _ => type.elements.map fun t => .ofFn t.dtype t.shape (I.entries M op modules xs t)

end Interpretation

/-! ## Programs -/

namespace Program

variable {V : Type*} [Inhabited V] (I : Interpretation V)
  (M : ModuleId → List (Tensor V) → List (Tensor V)) (p : Program) (m : ModuleId)
  (args : List (Tensor V)) (σ : InstrId → List (Tensor V))

/-- The value of a parameter of a type. -/
def argument (t : TensorType) (arg : Option (Tensor V)) : List (Tensor V) :=
  [.ofFn t.dtype t.shape (arg.getD default).entries]

/-- The value of an instruction where the operands have the values `σ`. -/
def valueAt (i : InstrId) : List (Tensor V) :=
  match p.instr? i with
  | none => []
  | some inst => match inst.op with
    | .param _ t => argument t args[(p.parameters m).idxOf i]?
    | op => I.value M op inst.modules inst.type (inst.inputs.flatMap σ)

/-- The values of a module, computed in order. -/
def run : InstrId → List (Tensor V) :=
  (p.body m).foldl (fun σ i => Function.update σ i (p.valueAt I M m args σ i)) fun _ => []

/-- What a module gives: the value of its last instruction, where a return has the values of its
operands. -/
def result : List (Tensor V) := ((p.body m).getLast?.map σ).getD []

/-- What a module computes with calls nested up to a depth. -/
def call : Nat → ModuleId → List (Tensor V) → List (Tensor V)
  | 0, _, _ => []
  | n + 1, m, args => p.result m (p.run I (call n) m args)

/-- **What a module computes from the values of its parameters.** Without cycles, calls are nested
at most as deep as there are modules. -/
def meaning : ModuleId → List (Tensor V) → List (Tensor V) := p.call I (p.modules.next + 1)

end Program

end OffloadFusion
