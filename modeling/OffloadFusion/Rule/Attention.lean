import OffloadFusion.Region.Building
import OffloadFusion.Graph.DeadCode

/-!
# Attention

Composed attention becomes a call of a region that rebuilds it from dots, a scaling, a mask and a
softmax, on its own (`Attention.Alone`) or with the pointwise that is its only consumer
(`Attention.Fused`). Other element types than 32-bit and 16-bit floats are declined.
-/

namespace OffloadFusion.Attention

/-- The scale of an attention over 32-bit or 16-bit floats. -/
def scale? (inst : Instruction) : Option Single :=
  match inst.op, inst.tensor? with
  | .attention scale, some t => if t.dtype = .f32 || t.dtype = .f16 then some scale else none
  | _, _ => none

/-- Appends an instruction to the region. -/
def emit (op : Op) (inputs : List InstrId) : Building InstrId := do
  Edit.addInstruction (← Building.module) op inputs []

/-- Applies the mask, given by the operands between the keys and the values, to scaled scores. -/
def applyMask (scaled : InstrId) : List InstrId → Building InstrId
  | [bias] => do
    let bias ← Building.addNamedInput bias "y_bias"
    emit (.binary .add) [scaled, bias]
  | [cond, fill] => do
    let cond ← Building.addNamedInput cond "y_cond"
    let fill ← Building.addNamedInput fill "y_const"
    emit .select [cond, scaled, fill]
  | _ => return scaled

/-- `dot(softmax(scale * dot(y0, y1) [mask]), z)` with the shape-only chains above the queries, keys
and values. -/
def rebuildFrom (scale : Single) (a b : InstrId) (mask : List InstrId) (v : InstrId) :
    Building InstrId := do
  let m ← Building.module
  let product ← Building.fuseAnchor (.dot false) [a, b]
  let scores ← (← theProgram).tensorOf product
  let (type, data) ← (LiteralData.scalar scores.dtype scale : Outcome GraphError _)
  let factor ← Edit.addLiteral m type data
  let factor ← emit (.reindex (.multibroadcast scores.shape)) [factor]
  let scaled ← emit (.binary .mul) [product, factor]
  let masked ← applyMask scaled mask
  let axis ← Checked.sub scores.rank 1
  let weights ← emit (.softmax axis) [masked]
  let chain ← ReshapeChain.walk (← theProgram) v true
  let z ← Building.addNamedInput chain.upper "z"
  let z ← chain.replay m z
  emit (.dot false) [weights, z]

/-- Rebuilds attention on its operands. -/
def rebuild (scale : Single) : List InstrId → Building InstrId
  | [a, b, v] => rebuildFrom scale a b [] v
  | [a, b, bias, v] => rebuildFrom scale a b [bias] v
  | [a, b, cond, fill, v] => rebuildFrom scale a b [cond, fill] v
  | inputs => Action.refuse (.graph (.typing (.inputArity opName ⟨3, 5⟩ inputs.length)))

namespace Alone

def matcher : Matcher := .named [opName]

/-- Rebuilds the attention at the root. -/
def apply (m : Match) : Fusing Bool := do
  let inst ← (← theProgram).instr m.root
  let some scale := scale? inst | return false
  let name ← Fusing.freshName ("offload_" ++ opName)
  let module ← Edit.createModule name
  let inputs ← Fusing.complete (.onModule module) do return [← rebuild scale inst.inputs]
  Edit.replaceWith m.root (.offload inst.op) inputs [module]
  discard <| Edit.prune inst.inputs
  return true

end Alone

namespace Fused

/-- A pointwise one operand of which is an attention that nothing else consumes. -/
def matcher : Matcher :=
  (Matcher.test .pointwise).and
    (.anyInput (.bind "gsg" ((Matcher.named [opName]).and (.test .usedOnce))))

/-- Rebuilds the attention together with the pointwise at the root. -/
def apply (m : Match) : Fusing Bool := do
  let pw := m.root
  let attention ← m.get "gsg"
  let p ← theProgram
  let inst ← p.instr attention
  let some scale := scale? inst | return false
  let pwInst ← p.instr pw
  let [body] := pwInst.modules | return false
  let dims := (← p.tensorOf pw).shape
  let _ ← p.module body
  let name ← Fusing.freshName ("offload_" ++ opName)
  let module ← Edit.createModule name
  let inputs ← Fusing.complete (.onModule module) do
    let value ← rebuild scale inst.inputs
    Building.rehomeLiterals body dims
    Building.know attention value
    Building.fuse body pwInst.inputs .plain
  Edit.replaceWith pw (.offload inst.op) inputs [module]
  discard <| Edit.prune [attention]
  Edit.releaseModule body
  return true

end Fused

end OffloadFusion.Attention
