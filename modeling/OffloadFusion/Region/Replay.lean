import OffloadFusion.Region.Session

/-!
# Replaying bodies

`replay` builds the instructions of a body again inside a region, reading operands through a
renaming. What the renaming knows is not built again; a `Mode` says how the rest is emitted:

* as it is,
* with pointwise instructions expanded in place, or
* with elementwise operands broadcast to a common shape.
-/

namespace OffloadFusion.Replay

/-- How the instructions of a body are emitted. -/
inductive Mode where
  | plain
  /-- Pointwise instructions are expanded in place. -/
  | inlinePointwise
  /-- Elementwise operands of differing dimensions are broadcast to a common shape. -/
  | commonShape
deriving DecidableEq, Repr

/-- A program with the values in a region of instructions elsewhere. -/
structure Scope where
  program : Program
  values : Renaming

instance : HoldsProgram Scope where
  program := Scope.program
  withProgram program s := { s with program }

/-- A step of a replay. What it changed before it stops stays changed. -/
abbrev Replaying := Action Scope FusionError

/-- Records the value of an instruction. -/
def know (i value : InstrId) : Replaying Unit :=
  modify fun s => { s with values := s.values.insert i value }

/-- The value of an instruction, which must be known. -/
def valueOf (i : InstrId) : Replaying InstrId := do
  (← get).values.image i

/-- Runs a step with values of its own. -/
def locally {α : Type} (values : Renaming) (step : Replaying α) : Replaying α :=
  Action.focus (fun s => ⟨s.program, values⟩) (fun t s => { s with program := t.program }) id step

/-- Refuses for want of a value of a parameter. -/
def unbound {α : Type} (param : InstrId) : Replaying α := do
  let inst ← (← theProgram).instr param
  Action.refuse (.unboundParam (inst.op.paramName?.getD ""))

/-! ## Constants -/

/-- The constants of a body with the instructions that hold them. -/
def literals (p : Program) (body : List InstrId) : List (InstrId × TensorType × LiteralData) :=
  body.filterMap fun i =>
    match (p.instr? i).map Instruction.op with
    | some (.literal type data) => some (i, type, data)
    | _ => none

/-- Broadcasts a value to dimensions. -/
def widen (region : ModuleId) (dims : Shape) (value : InstrId) : Replaying InstrId :=
  Edit.addInstruction region (.reindex (.multibroadcast dims)) [value] []

/-- Copies the constants of a body into a region, broadcast to `dims`; their values are known from
then on. -/
def rehome (region body : ModuleId) (dims : Shape) : Replaying Unit := do
  let p ← theProgram
  let module ← p.module body
  (literals p module.body).forM fun (i, type, data) => do
    let copy ← Edit.addLiteral region type data
    know i (← widen region dims copy)

/-! ## Bodies -/

/-- Emits an instruction into a region on operands there. -/
abbrev Emit := Instruction → List InstrId → Replaying InstrId

/-- Emits an instruction as it is. -/
def emitPlain (region : ModuleId) : Emit := fun inst args =>
  Edit.addInstruction region inst.op args inst.modules

/-- Builds the instructions without a value, and gives the operands of the return met last. -/
def replayFrom (region : ModuleId) (emit : Emit) :
    List InstrId → Option (List InstrId) → Replaying (Option (List InstrId))
  | [], returns => return returns
  | i :: rest, returns => do
    let s ← get
    if s.values.contains i then replayFrom region emit rest returns
    else
      let inst ← s.program.instr i
      match inst.op with
      | .ret => replayFrom region emit rest (some inst.inputs)
      | .param name _ => Action.refuse (.unboundParam name)
      | op =>
        let args ← inst.inputs.mapM valueOf
        let copy ← match op with
          | .literal type data => Edit.addLiteral region type data
          | _ => emit inst args
        know i copy
        replayFrom region emit rest returns

/-- Builds the body, and gives the values that it returns: those of the operands of its return, or
else that of its last instruction. -/
def replayWith (region : ModuleId) (emit : Emit) (body : ModuleId) : Replaying (List InstrId) := do
  let module ← (← theProgram).module body
  match ← replayFrom region emit module.body none with
  | some returns => returns.mapM valueOf
  | none =>
    let s ← get
    return ((s.program.body body).getLast?.bind s.values.image?).toList

/-! ## Expanding pointwise instructions -/

/-- Gives the parameters values in their order. -/
def bindParams : (params args : List InstrId) → Replaying Unit
  | [], _ => return ()
  | param :: _, [] => unbound param
  | param :: params, arg :: args => do
    know param arg
    bindParams params args

/-- Expands a pointwise body on values in a region, its constants broadcast to `dims`, and gives
its first return value. -/
def inline (region body : ModuleId) (args : List InstrId) (dims : Shape) : Replaying InstrId := do
  let values ← locally .empty do
    rehome region body dims
    bindParams ((← theProgram).parameters body) args
    replayWith region (emitPlain region) body
  match values with
  | value :: _ => return value
  | [] => Action.refuse (.graph (.typing (.moduleReturns "pointwise" 1 0)))

/-- Emits a pointwise instruction by its body. -/
def emitInline (region : ModuleId) : Emit := fun inst args =>
  match inst.op, inst.modules with
  | .pointwise, [body] => do
    let type ← (inst.type.expectTensor inst.name : Outcome GraphError TensorType)
    inline region body args type.shape
  | .pointwise, modules =>
    Action.refuse (.graph (.typing (.moduleArity "pointwise" (.exactly 1) modules.length)))
  | _, _ => emitPlain region inst args

/-! ## Common shapes -/

/-- The dimensions of a value. -/
def shapeOf (value : InstrId) : Replaying Shape := do
  return (← (← theProgram).tensorOf value).shape

/-- Broadcasts the values whose dimensions differ from the common shape of all. -/
def broadcastCommon (region : ModuleId) (args : List InstrId) : Replaying (List InstrId) := do
  let shapes ← args.mapM shapeOf
  match Shape.multiBroadcast? shapes with
  | none => Action.refuse (.graph (.typing (.broadcastingFailed shapes)))
  | some common =>
    (args.zip shapes).mapM fun (arg, shape) =>
      if shape = common then return arg else widen region common arg

/-- Emits an elementwise instruction on operands of a common shape. -/
def emitCommon (region : ModuleId) : Emit := fun inst args => do
  if inst.op.pattern = .elementwise ∧ args.length > 1 then
    emitPlain region inst (← broadcastCommon region args)
  else emitPlain region inst args

/-! ## All modes -/

def emitter (region : ModuleId) : Mode → Emit
  | .plain => emitPlain region
  | .inlinePointwise => emitInline region
  | .commonShape => emitCommon region

/-- Builds the body in a region, and gives the values that it returns. -/
def replay (region body : ModuleId) (mode : Mode) : Replaying (List InstrId) :=
  replayWith region (emitter region mode) body

end OffloadFusion.Replay
