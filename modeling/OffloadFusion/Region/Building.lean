import OffloadFusion.Region.Replay

/-!
# Building regions

A `Region` is a module under construction that replays parts of the program around it.

* `addInput`, `addNamedInput`: parameters, each bound to the instruction that feeds it.
* `fuseAnchor`: an anchor with the shape-only chains above its operands.
* `fuse`: a body with its parameters bound to known values.
* `finish`: the return, and the operands of the call in the order of the parameters.
* `Edit.offloadContiguous`: operands in a layout that a call takes.
* `Fusing.complete`: all of a region, from its steps to the operands of its call.
-/

namespace OffloadFusion

/-- A module under construction. -/
structure Region where
  module : ModuleId
  /-- The values in the region of instructions around it and of replayed bodies. -/
  values : Renaming
  /-- The instruction that feeds each parameter at the call. -/
  bindings : Renaming
deriving DecidableEq, Repr

/-- A program with a region under construction. -/
structure Workspace where
  program : Program
  region : Region

instance : HoldsProgram Workspace where
  program := Workspace.program
  withProgram program w := { w with program }

/-- A step of building a region. What it changed before it stops stays changed. -/
abbrev Building := Action Workspace FusionError

namespace Region

/-- A region of a module, nothing known. -/
def onModule (module : ModuleId) : Region := ⟨module, .empty, .empty⟩

/-- Binds a parameter to the instruction that feeds it. -/
def bindParam (region : Region) (param outer : InstrId) : Region :=
  { region with bindings := region.bindings.insert param outer }

/-- Records the value of an instruction. -/
def know (region : Region) (i value : InstrId) : Region :=
  { region with values := region.values.insert i value }

/-- Continues a module whose parameters are fed by `inputs` in declaration order. An input that
feeds several parameters stands for the first one. -/
def ofCopy (p : Program) (module : ModuleId) (inputs : List InstrId) :
    Outcome GraphError Region := do
  let params := p.parameters module
  if params.length ≠ inputs.length then
    refuse (.typing (.inputArity "offload" (.exactly params.length) inputs.length))
  return (params.zip inputs).foldl (fun region (param, outer) =>
    let region := region.bindParam param outer
    if region.values.contains outer then region else region.know outer param) (onModule module)

end Region

namespace Building

/-- The module under construction. -/
def module : Building ModuleId := return (← get).region.module

/-- Records the value of an instruction. -/
def know (i value : InstrId) : Building Unit :=
  modify fun w => { w with region := w.region.know i value }

/-- Runs a step of a replay on the values of the region. -/
def replaying {α : Type} (step : Replay.Replaying α) : Building α :=
  Action.focus (fun w => ⟨w.program, w.region.values⟩)
    (fun s w => ⟨s.program, { w.region with values := s.values }⟩) id step

/-! ## Parameters -/

/-- Declares a parameter of the type of `outer` in row-major order, bound to `outer`. -/
def addNamedInput (outer : InstrId) (name : String) : Building InstrId := do
  let p ← theProgram
  let type ← p.tensorOf outer
  let param ← Edit.addParameter (← module) name (← type.asStandard)
  modify fun w => { w with region := w.region.bindParam param outer }
  return param

/-- The first free name among `x0`, `x1`, … from the number of parameters on. -/
def freeInputName (p : Program) (m : ModuleId) : Checked String :=
  let count := (p.parameters m).length
  let names := (List.range (count + 1)).map fun n => "x" ++ toString (count + n)
  match names.find? fun name => (p.parameter? m name).isNone with
  | some name => .ok name
  | none => .error .exhausted

/-- Declares a parameter for `outer` under the next free name; its value is known from then on. -/
def addInput (outer : InstrId) : Building InstrId := do
  let name ← freeInputName (← theProgram) (← module)
  let param ← addNamedInput outer name
  know outer param
  return param

/-! ## Anchors and bodies -/

/-- Threads the shape-only chains above the operands through parameters `y0`, `y1`, … and gives
the values of the operands. Repeated operands get parameters of their own. -/
def threadInputs : Nat → List InstrId → Building (List InstrId)
  | _, [] => return []
  | n, input :: inputs => do
    let chain ← ReshapeChain.walk (← theProgram) input true
    let param ← addNamedInput chain.upper ("y" ++ toString n)
    let value ← chain.replay (← module) param
    return value :: (← threadInputs (n + 1) inputs)

/-- Applies an operation to operands with the shape-only chains above them. -/
def fuseAnchor (op : Op) (inputs : List InstrId) : Building InstrId := do
  let args ← threadInputs 0 inputs
  Edit.addInstruction (← module) op args []

/-- Copies the constants of a body into the region, broadcast to `dims`; their values are known
from then on. -/
def rehomeLiterals (body : ModuleId) (dims : Shape) : Building Unit := do
  let region ← module
  replaying (Replay.rehome region body dims)

/-- Gives the parameters the values of `inputs` in their order. -/
def bindParams : (params inputs : List InstrId) → Building Unit
  | [], _ => return ()
  | param :: _, [] => replaying (Replay.unbound param)
  | param :: params, input :: inputs => do
    know param (← replaying (Replay.valueOf input))
    bindParams params inputs

/-- Replays a body in the region with its parameters bound to `inputs`, and gives the values that it
returns. Inputs without a known value become parameters of the region. -/
def fuse (body : ModuleId) (inputs : List InstrId) (mode : Replay.Mode) :
    Building (List InstrId) := do
  inputs.forM fun input => do
    if !(← get).region.values.contains input then
      let _ ← addInput input
  bindParams ((← theProgram).parameters body) inputs
  let region ← module
  replaying (Replay.replay region body mode)

/-! ## The finished region -/

/-- The instruction that feeds a parameter. -/
def feederOf (param : InstrId) : Building InstrId := do
  match (← get).region.bindings.image? param with
  | some outer => return outer
  | none => replaying (Replay.unbound param)

/-- Adds the return, and gives the instruction that feeds each parameter in declaration order. -/
def finish (returns : List InstrId) : Building (List InstrId) := do
  let m ← module
  let _ ← Edit.addReturn m returns
  ((← theProgram).parameters m).mapM feederOf

end Building

/-! ## Operands of calls -/

/-- Puts a row-major copy after each operand in a layout that a call does not take; `copies` were
made before. -/
def Edit.contiguousFrom : List InstrId → Renaming → Edit (List InstrId)
  | [], _ => return []
  | input :: inputs, copies => do
    match copies.image? input with
    | some copy => return copy :: (← contiguousFrom inputs copies)
    | none =>
      let p ← get
      let type ← p.tensorOf input
      if ← Op.acceptsLayout type then return input :: (← contiguousFrom inputs copies)
      else
        let copy ← insertAfter input (.reindex .contiguous) [input] []
        return copy :: (← contiguousFrom inputs (copies.insert input copy))

/-- The operands, or row-major copies right after them where a call does not take their layout. -/
def Edit.offloadContiguous (inputs : List InstrId) : Edit (List InstrId) :=
  contiguousFrom inputs .empty

namespace Fusing

/-- Takes steps of building a region. -/
def building {α : Type} (region : Region) (steps : Building α) : Fusing (α × Region) :=
  Action.focus (fun s => ⟨s.program, region⟩) (fun w s => { s with program := w.program }) id do
    return (← steps, (← get).region)

/-- Builds a region by steps that end in its return values, and gives the operands of its call. -/
def complete (region : Region) (steps : Building (List InstrId)) : Fusing (List InstrId) := do
  let (returns, region) ← building region steps
  let (feeders, _) ← building region (Building.finish returns)
  Edit.offloadContiguous feeders

end Fusing

end OffloadFusion
