import OffloadFusion.Region.Building
import OffloadFusion.Graph.DeadCode

/-!
# Pointwise instructions before a call

A pointwise whose only consumer is an offload call moves into the region of the call. The new region
replays the pointwise body first, broadcasting where scalars meet full tensors, and then the old
region.
-/

namespace OffloadFusion.InputFusion

/-- An offload call one operand of which is a pointwise that nothing else consumes. -/
def matcher : Matcher :=
  (Matcher.named ["offload"]).and
    (.anyInput (.bind "pw" ((Matcher.test .inputPointwise).and (.test .usedOnce))))

/-- The instructions without repetition, in order of their first places. -/
def distinct (is : List InstrId) : List InstrId :=
  is.foldl (fun seen i => if i ∈ seen then seen else seen ++ [i]) []

/-- The operands that the merged call would take. -/
def mergedInputs (pw : InstrId) (pwInputs callInputs : List InstrId) : List InstrId :=
  distinct ((pwInputs ++ callInputs).filter (· ≠ pw))

/-- Moves the pointwise into the call at the root. It declines when the call would take fewer than
two operands. -/
def apply (m : Match) : Fusing Bool := do
  let call := m.root
  let pw ← m.get "pw"
  let p ← theProgram
  let callInst ← p.instr call
  let pwInst ← p.instr pw
  let ([oldRegion], [body]) := (callInst.modules, pwInst.modules) | return false
  let some anchor := callInst.op.anchor? | return false
  if (mergedInputs pw pwInst.inputs callInst.inputs).length < 2 then return false
  let stem := (← p.module body).name ++ ":" ++ (← p.module oldRegion).name
  let name ← Fusing.uniqueName stem
  let module ← Edit.createModule name
  let inputs ← Fusing.complete (.onModule module) do
    let produced ← Building.fuse body pwInst.inputs .commonShape
    let some value := produced.head?
      | Action.refuse (.graph (.typing (.moduleReturns "pointwise" 1 0)))
    Building.know pw value
    Building.fuse oldRegion callInst.inputs .plain
  Edit.replaceWith call (.offload anchor) inputs [module]
  discard <| Edit.prune [pw]
  Edit.releaseModule oldRegion
  return true

end OffloadFusion.InputFusion
