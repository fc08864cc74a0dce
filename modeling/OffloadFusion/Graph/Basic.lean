import OffloadFusion.Graph.Arena
import OffloadFusion.Op.Basic

/-!
# Tensor programs

* `Instruction`: an operation with operands, sub-modules, the type of its value and its consumers.
* `Module`: an ordered list of instructions under a name.
* `Program`: an arena of instructions and the modules that order them. The main module is always
  there.
-/

namespace OffloadFusion

/-- Lasting handle of an instruction. -/
structure InstrId where
  index : Nat
deriving DecidableEq, Repr

/-- Lasting handle of a module. -/
structure ModuleId where
  index : Nat
deriving DecidableEq, Repr

/-- A node in a module. -/
structure Instruction where
  op : Op
  /-- The operands, which may repeat. -/
  inputs : List InstrId
  /-- The modules that the operation carries. -/
  modules : List ModuleId
  type : ValueType
  /-- The instructions that have this one as an operand, each once, in order of their first use. -/
  consumers : List InstrId
  /-- The module that lists this instruction. -/
  owner : ModuleId
deriving DecidableEq, Repr

namespace Instruction

def name (i : Instruction) : String := i.op.name

/-- The type of a value that is one tensor. -/
def tensor? (i : Instruction) : Option TensorType := i.type.tensor?

end Instruction

/-- An ordered sequence of instructions. -/
structure Module where
  name : String
  /-- The place among all modules; places of removed modules are used again. -/
  slot : Nat
  body : List InstrId
deriving DecidableEq, Repr

namespace Module

/-- The position of an instruction. -/
def position? (m : Module) (i : InstrId) : Option Nat := m.body.idxOf? i

def last? (m : Module) : Option InstrId := m.body.getLast?

end Module

/-- A tensor program. -/
structure Program where
  instructions : Arena Instruction
  modules : Arena Module
  /-- The index of the modules by their names, the last one entered first. -/
  names : List (String × ModuleId)
  /-- The places of removed modules, the last one removed first. -/
  freeSlots : List Nat

namespace Program

/-- The handle of the main module. -/
def main : ModuleId := ⟨0⟩

/-- The name of the main module. -/
def mainName : String := "main"

/-- The program with an empty main module. -/
def empty : Program := ⟨.empty, Arena.empty.add ⟨mainName, 0, []⟩, [(mainName, main)], []⟩

/-! ## Looking up -/

/-- The instruction of a handle, unless it is gone. -/
def instr? (p : Program) (i : InstrId) : Option Instruction := p.instructions.get? i.index

/-- The module of a handle, unless it is gone. -/
def module? (p : Program) (m : ModuleId) : Option Module := p.modules.get? m.index

/-- The instruction of a handle that must be there. -/
def instr (p : Program) (i : InstrId) : Checked Instruction :=
  match p.instr? i with
  | some inst => .ok inst
  | none => .error .deadHandle

/-- The module of a handle that must be there. -/
def module (p : Program) (m : ModuleId) : Checked Module :=
  match p.module? m with
  | some module => .ok module
  | none => .error .deadHandle

/-- The number of instructions of all modules. -/
def size (p : Program) : Nat := p.instructions.count

/-- Puts a module before the first one with a later place. -/
def insertBySlot (entry : ModuleId × Module) : List (ModuleId × Module) → List (ModuleId × Module)
  | [] => [entry]
  | e :: es => if entry.2.slot ≤ e.2.slot then entry :: e :: es else e :: insertBySlot entry es

/-- The modules with their handles in order of their places; the main module is first. -/
def moduleEntries (p : Program) : List (ModuleId × Module) :=
  (p.modules.entries.map fun (i, m) => (⟨i⟩, m)).foldr insertBySlot []

/-- The handles of the modules in order of their places. -/
def moduleIds (p : Program) : List ModuleId := p.moduleEntries.map Prod.fst

/-- The module that the index has for a name. -/
def moduleNamed? (p : Program) (name : String) : Option ModuleId := p.names.lookup name

/-- Whether the instruction of a handle is there and passes a test on its operation. -/
def hasOp (p : Program) (test : Op → Bool) (i : InstrId) : Bool :=
  (p.instr? i).any fun inst => test inst.op

/-- The instructions of a module in order; none if it is gone. -/
def body (p : Program) (m : ModuleId) : List InstrId := ((p.module? m).map Module.body).getD []

/-- The parameters of a module in declaration order. -/
def parameters (p : Program) (m : ModuleId) : List InstrId := (p.body m).filter (p.hasOp Op.isParam)

/-- The parameter of a name. -/
def parameter? (p : Program) (m : ModuleId) (name : String) : Option InstrId :=
  (p.parameters m).find? (p.hasOp fun op => op.paramName? = some name)

/-- The return of a module, which is its last instruction. -/
def return? (p : Program) (m : ModuleId) : Option InstrId :=
  (p.body m).getLast?.filter (p.hasOp Op.isReturn)

/-! ## Dependence -/

/-- The number of operands of all instructions. -/
def inputCount (p : Program) : Nat :=
  (p.instructions.entries.flatMap fun (_, inst) => inst.inputs).length

/-- Whether a search meets `target`: `stack` is left to visit. -/
def search (p : Program) (target : InstrId) :
    Nat → (visited stack : List InstrId) → Bool
  | 0, _, _ => false
  | _ + 1, _, [] => false
  | fuel + 1, visited, i :: stack =>
    if i = target then true
    else if i ∈ visited then p.search target fuel visited stack
    else p.search target fuel (i :: visited) (((p.instr? i).map (·.inputs)).getD [] ++ stack)

/-- Whether `dependent` is `source` or depends on it through its operands. Each instruction is
expanded once, so every operand is visited at most once. -/
def reaches (p : Program) (source dependent : InstrId) : Bool :=
  p.search source (p.inputCount + 2) [] [dependent]

end Program

end OffloadFusion
