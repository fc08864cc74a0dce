import OffloadFusion.Region.Building
import OffloadFusion.Graph.DeadCode

/-!
# Anchors with the pointwise that they feed

A dot or a convolution and the pointwise instruction below it become one call. If the anchor, or a
shape-only step between the two, has other consumers, the call returns both values and those
consumers read the first one.
-/

namespace OffloadFusion.AnchorPointwise

/-- Names of the shape-only operations that may stand between the anchor and the pointwise. -/
def viewNames : List String :=
  ["transpose", "broadcast", "multibroadcast", "contiguous", "reshape", "squeeze", "flatten",
   "unsqueeze"]

/-- A pointwise one operand `x` of which is the anchor or a chain of views of it. -/
def matcher (convMode dotMode : Mode) : Matcher :=
  let anchor := Matcher.anyOf [.test (.dot dotMode true), .test (.conv convMode)]
  (Matcher.test .pointwise).and
    (.anyInput (.bind "x" (.skip (.named viewNames) (.bind "anchor" anchor))))

/-- Whether one of several instructions has more than one consumer. -/
def anyShared (p : Program) : List InstrId → Checked Bool
  | [] => return false
  | i :: is => do
    if (← p.instr i).consumers.length > 1 then return true
    anyShared p is

/-- Replaces the pointwise by the second value of a call, and the anchor by the first one. -/
def splitCall (pw anchor : InstrId) (op : Op) (inputs : List InstrId) (module : ModuleId) :
    Edit Unit := do
  let call ← Edit.insertBefore pw (.offload op) inputs [module]
  Edit.replaceWith pw (.tupleElem 1) [call] []
  let first ← Edit.insertBefore pw (.tupleElem 0) [call] []
  Edit.relocateDependents anchor pw
  Edit.replaceInstruction anchor first
  Edit.removeInstruction anchor

/-- Fuses the anchor into the pointwise at the root. It declines when another operand of the
pointwise depends on the anchor. -/
def apply (m : Match) : Fusing Bool := do
  let pw := m.root
  let anchor ← m.get "anchor"
  let x ← m.get "x"
  let p ← theProgram
  let pwInst ← p.instr pw
  if (pwInst.inputs.filter (· ≠ x)).any (p.reaches anchor) then return false
  let [body] := pwInst.modules | return false
  let chain ← ReshapeChain.walk p x false
  let anchorInst ← p.instr anchor
  let multi ← anyShared p (anchor :: chain.nodes)
  let dims := (← p.tensorOf pw).shape
  let name ← Fusing.uniqueName ("offload_" ++ (← p.module body).name)
  let module ← Edit.createModule name
  let inputs ← Fusing.complete (.onModule module) do
    let anchorValue ← Building.fuseAnchor anchorInst.op anchorInst.inputs
    Building.rehomeLiterals body dims
    let xValue ← chain.replay module anchorValue
    Building.know x xValue
    let fused ← Building.fuse body pwInst.inputs .plain
    return if multi then anchorValue :: fused else fused
  if multi then
    splitCall pw anchor anchorInst.op inputs module
    discard <| Edit.prune (chain.nodes ++ anchorInst.inputs)
  else
    Edit.replaceWith pw (.offload anchorInst.op) inputs [module]
    discard <| Edit.prune [x]
  Edit.releaseModule body
  return true

end OffloadFusion.AnchorPointwise
