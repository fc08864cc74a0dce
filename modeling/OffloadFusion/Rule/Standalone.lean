import OffloadFusion.Region.Building
import OffloadFusion.Graph.DeadCode

/-!
# Anchors on their own

A dot or a convolution becomes a call of a region of its own. The shape-only chains above its
operands move into the region, so the call takes the tensors above them.
-/

namespace OffloadFusion.Standalone

/-- Element types of the operands of an anchor that is wrapped on its own. -/
def inputTypes : List DType := [.f32, .f16, .i8, .fp8e4m3fnuz]

/-- An anchor with operands of those types. -/
def matcher (anchor : Predicate) : Matcher :=
  (Matcher.test anchor).and (.allInputs (.test (.elementType inputTypes)))

/-- Wraps the anchor at the root. -/
def apply (m : Match) : Fusing Bool := do
  let p ← theProgram
  let inst ← p.instr m.root
  let name ← Fusing.freshName ("offload_" ++ inst.name)
  let module ← Edit.createModule name
  let inputs ← Fusing.complete (.onModule module) do
    return [← Building.fuseAnchor inst.op inst.inputs]
  Edit.replaceWith m.root (.offload inst.op) inputs [module]
  discard <| Edit.prune inst.inputs
  return true

end OffloadFusion.Standalone
