import OffloadFusion.Region.Building
import OffloadFusion.Graph.DeadCode

/-!
# Split reductions after a call

A split reduction is merged into the call with one value that it consumes. The region of the call
is copied and the body of the reduction replayed on top of its value. If the call has other
consumers, its value is returned last and they read it there.
-/

namespace OffloadFusion.SplitReduce

/-- A split reduction one operand of which is an offload call with one value. -/
def matcher : Matcher :=
  (Matcher.test .splitReduce).and (.anyInput (.bind "gemm" (.test .singleOutputOffload)))

/-- Whether every consumer of a tuple picks one of its elements. -/
def onlyPicked (p : Program) : List InstrId → Checked Bool
  | [] => return true
  | i :: is => do
    if (← p.instr i).op.isTupleElem then onlyPicked p is else return false

/-- Copies a region without its return, and gives the copy with the value that it returned. -/
def copyOpen (region : ModuleId) (ret : InstrId) (name : String) :
    Edit (ModuleId × InstrId) := do
  let (module, copies) ← Edit.copyModule region name
  let copy ← copies.image ret
  let inst ← (← get).instr copy
  let some value := inst.inputs.head? | Action.refuse (.unknownInstruction copy)
  Edit.removeInstruction copy
  return (module, value)

/-- Replaces the reduction by the first values of a call, and the former call by its last one. -/
def splitCall (reduce gemm : InstrId) (tupled : Bool) (anchor : Op) (inputs : List InstrId)
    (module : ModuleId) (last : Nat) : Edit Unit := do
  let call ← Edit.insertBefore reduce (.offload anchor) inputs [module]
  let value ← Edit.insertBefore reduce (.tupleElem last) [call] []
  Edit.relocateDependents gemm reduce
  Edit.replaceInstruction gemm value
  if tupled then
    ((← (← get).instr reduce).consumers).forM fun consumer => do
      let op := (← (← get).instr consumer).op
      Edit.replaceWith consumer op [call] []
    Edit.removeInstruction reduce
  else Edit.replaceWith reduce (.tupleElem 0) [call] []

/-- Whether the reduction can take the place of the call: no other operand depends on the call, and
a tuple is only consumed by its elements. -/
def admits (p : Program) (reduce gemm : InstrId) : Checked Bool := do
  let inst ← p.instr reduce
  if inst.inputs.any fun i => i ≠ gemm ∧ p.reaches gemm i then return false
  if inst.type.isTuple then onlyPicked p inst.consumers else return true

/-- Merges the reduction at the root into the call. -/
def apply (m : Match) : Fusing Bool := do
  let reduce := m.root
  let gemm ← m.get "gemm"
  let p ← theProgram
  if !(← admits p reduce gemm) then return false
  let inst ← p.instr reduce
  let gemmInst ← p.instr gemm
  let ([body], [oldRegion]) := (inst.modules, gemmInst.modules) | return false
  let some oldReturn := p.return? oldRegion | return false
  let some anchor := gemmInst.op.anchor? | return false
  let multi := gemmInst.consumers.length > 1
  let stem := (← p.module oldRegion).name ++ "_" ++ (← p.module body).name
  let name ← Fusing.uniqueName stem
  let (module, value) ← copyOpen oldRegion oldReturn name
  let region ← Region.ofCopy (← theProgram) module gemmInst.inputs
  let (returns, region) ← Fusing.building (region.know gemm value) do
    let values ← Building.fuse body inst.inputs .inlinePointwise
    return if multi then values ++ [value] else values
  let last ← Checked.sub returns.length 1
  let inputs ← Fusing.complete region (return returns)
  if multi then splitCall reduce gemm inst.type.isTuple anchor inputs module last
  else Edit.replaceWith reduce (.offload anchor) inputs [module]
  discard <| Edit.prune [gemm]
  Edit.releaseModule body
  Edit.releaseModule oldRegion
  return true

end OffloadFusion.SplitReduce
