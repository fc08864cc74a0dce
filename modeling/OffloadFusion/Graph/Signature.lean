import OffloadFusion.Graph.Error
import OffloadFusion.Typing.Op

/-!
# Signatures and inferred types

* `Program.signature`: the types of the parameters and returns of a module.
* `Program.infer`: the type that an operation gets from its operands and modules in a program.
-/

namespace OffloadFusion.Program

/-- A module that must be there. -/
def findModule (p : Program) (m : ModuleId) : Outcome GraphError Module :=
  match p.module? m with
  | some module => return module
  | none => refuse (.unknownModule m)

/-- An instruction that must be there. -/
def findInstr (p : Program) (i : InstrId) : Outcome GraphError Instruction :=
  match p.instr? i with
  | some inst => return inst
  | none => refuse (.unknownInstruction i)

/-- The module that lists an instruction, and the position there. -/
def locate (p : Program) (i : InstrId) : Outcome GraphError (ModuleId × Nat) := do
  let owner := (← p.findInstr i).owner
  match (← p.findModule owner).position? i with
  | some position => return (owner, position)
  | none => refuse (.unknownInstruction i)

/-- The type of the single tensor that an instruction computes. -/
def tensorOf (p : Program) (i : InstrId) : Outcome GraphError TensorType := do
  let inst ← p.instr i
  inst.type.expectTensor inst.name

/-- What a module returns: the operands of its return, or else the elements of its last value. -/
def returnTypes (p : Program) (body : List InstrId) : Outcome GraphError (List TensorType) :=
  match body.getLast? with
  | none => return []
  | some last => do
    let inst ← p.instr last
    if inst.op.isReturn then inst.inputs.mapM p.tensorOf else return inst.type.elements

/-- The types of the parameters and returns of a module. -/
def signature (p : Program) (m : ModuleId) : Outcome GraphError Signature := do
  let module ← p.findModule m
  let params ← (p.parameters m).mapM p.tensorOf
  let returns ← p.returnTypes module.body
  return { params, returns }

/-- The type of a value that must be there. -/
def typeOf (p : Program) (i : InstrId) : Outcome GraphError ValueType := do
  return (← p.findInstr i).type

/-- The type of an operation on operands and modules of the program. -/
def infer (p : Program) (op : Op) (inputs : List InstrId) (modules : List ModuleId) :
    Outcome GraphError ValueType := do
  let types ← inputs.mapM p.typeOf
  let signatures ← modules.mapM p.signature
  op.inferType types signatures

end OffloadFusion.Program
