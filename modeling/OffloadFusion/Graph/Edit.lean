import OffloadFusion.Graph.Renaming
import OffloadFusion.Graph.Signature

/-!
# Editing programs

An `Edit` changes a program or is refused. What it changed before a refusal stays changed.

* Building: `createModule`, `addParameter`, `addLiteral`, `addInstruction`, `insertBefore`,
  `insertAfter`, `addReturn`, `copyModule`.
* Rewiring: `replaceInstruction`, `replaceArgument`, `replaceWith`, `moveBefore`.
* Removing: `removeInstruction`, `removeModule`.

All of them keep the consumer lists inverse to the operands, and infer the types of what they
change with `refreshType`.
-/

namespace OffloadFusion

/-- A change of a program that may be refused. -/
abbrev Edit := Action Program GraphError

namespace Program

/-! ## Single changes -/

/-- Changes an instruction. -/
def modifyInstr (p : Program) (i : InstrId) (f : Instruction → Instruction) : Program :=
  { p with instructions := p.instructions.modify i.index f }

/-- Changes the order of a module. -/
def modifyBody (p : Program) (m : ModuleId) (f : List InstrId → List InstrId) : Program :=
  { p with modules := p.modules.modify m.index fun module => { module with body := f module.body } }

/-- Adds a consumer to an instruction, once. -/
def addConsumer (p : Program) (producer consumer : InstrId) : Program :=
  p.modifyInstr producer fun inst =>
    if consumer ∈ inst.consumers then inst
    else { inst with consumers := inst.consumers ++ [consumer] }

/-- Drops a consumer from an instruction, unless it still has that as an operand. -/
def dropConsumer (p : Program) (producer consumer : InstrId) : Program :=
  if (p.instr? consumer).any fun inst => producer ∈ inst.inputs then p
  else p.modifyInstr producer fun inst =>
    { inst with consumers := inst.consumers.filter (· ≠ consumer) }

/-- Adds a consumer to each of its operands. -/
def addConsumers (p : Program) (inputs : List InstrId) (consumer : InstrId) : Program :=
  inputs.foldl (fun p input => p.addConsumer input consumer) p

/-- Drops a consumer from former operands. -/
def dropConsumers (p : Program) (inputs : List InstrId) (consumer : InstrId) : Program :=
  inputs.foldl (fun p input => p.dropConsumer input consumer) p

/-- Takes an instruction out of the arena and out of the consumers of its operands. -/
def eraseInstr (p : Program) (i : InstrId) : Program :=
  match p.instr? i with
  | none => p
  | some inst => { p with instructions := p.instructions.erase i.index }.dropConsumers inst.inputs i

end Program

namespace Edit

open Program

/-! ## Conditions -/

/-- The operand is listed in the module before the position. -/
def checkOperand (p : Program) (m : ModuleId) (module : Module) (position : Nat) (name : String)
    (input : InstrId) : Edit Unit := do
  if (← p.findInstr input).owner ≠ m then
    Action.refuse (.foreignInstruction input module.name)
  match module.position? input with
  | some place => if place ≥ position then Action.refuse (.orderViolation name input)
  | none => Action.refuse (.orderViolation name input)

/-- Every operand is listed in the module before the position. -/
def checkPlacement (m : ModuleId) (position : Nat) (name : String) (inputs : List InstrId) :
    Edit Unit := do
  let p ← get
  let module ← p.findModule m
  inputs.forM (checkOperand p m module position name)

/-- The position after the last parameter. -/
def afterParameters (m : ModuleId) : Edit Nat := do
  let p ← get
  let module ← p.findModule m
  return (module.body.reverse.dropWhile fun i => !p.hasOp Op.isParam i).length

/-! ## Building -/

/-- Creates an empty module in the place removed last, or else after all places. -/
def createModule (name : String) : Edit ModuleId := do
  let p ← get
  if (p.moduleNamed? name).isSome then Action.refuse (.duplicateModule name)
  let (slot, freeSlots) := match p.freeSlots with
    | slot :: rest => (slot, rest)
    | [] => (p.modules.count, [])
  let id : ModuleId := ⟨p.modules.next⟩
  set { p with
    modules := p.modules.add ⟨name, slot, []⟩
    names := (name, id) :: p.names
    freeSlots }
  return id

/-- Inserts an instruction at a position of a module. -/
def insertAt (m : ModuleId) (position : Nat) (op : Op) (inputs : List InstrId)
    (modules : List ModuleId) : Edit InstrId := do
  checkPlacement m position op.name inputs
  let p ← get
  let type ← p.infer op inputs modules
  let id : InstrId := ⟨p.instructions.next⟩
  let p := { p with
    instructions := p.instructions.add { op, inputs, modules, type, consumers := [], owner := m } }
  set ((p.addConsumers inputs id).modifyBody m fun body => body.insertIdx position id)
  return id

/-- Declares a parameter after the present ones. -/
def addParameter (m : ModuleId) (name : String) (type : TensorType) : Edit InstrId := do
  let p ← get
  if (p.parameter? m name).isSome then
    Action.refuse (.duplicateParam (← p.findModule m).name name)
  insertAt m (← afterParameters m) (.param name type) [] []

/-- Adds a constant right after the parameters. -/
def addLiteral (m : ModuleId) (type : TensorType) (data : LiteralData) : Edit InstrId := do
  insertAt m (← afterParameters m) (.literal type data) [] []

/-- Appends an instruction, keeping the return last. -/
def addInstruction (m : ModuleId) (op : Op) (inputs : List InstrId) (modules : List ModuleId) :
    Edit InstrId := do
  let p ← get
  let module ← p.findModule m
  let position := module.body.length - if (p.return? m).isSome then 1 else 0
  insertAt m position op inputs modules

/-- Inserts an instruction before another one. -/
def insertBefore (place : InstrId) (op : Op) (inputs : List InstrId) (modules : List ModuleId) :
    Edit InstrId := do
  let (m, position) ← (← get).locate place
  insertAt m position op inputs modules

/-- Inserts an instruction right after another one. -/
def insertAfter (place : InstrId) (op : Op) (inputs : List InstrId) (modules : List ModuleId) :
    Edit InstrId := do
  let p ← get
  let (m, position) ← p.locate place
  if p.hasOp Op.isReturn place then Action.refuse (.afterReturn (← p.findModule m).name)
  insertAt m (position + 1) op inputs modules

/-- Ends a module. -/
def addReturn (m : ModuleId) (inputs : List InstrId) : Edit InstrId := do
  let p ← get
  if (p.return? m).isSome then Action.refuse (.duplicateReturn (← p.findModule m).name)
  insertAt m (← p.findModule m).body.length .ret inputs []

/-- Copies instructions in order to the end of a module, reading operands through `copies`. -/
def copyBody (target : ModuleId) : List InstrId → Renaming → Edit Renaming
  | [], copies => return copies
  | i :: body, copies => do
    let p ← get
    let inst ← p.findInstr i
    let inputs ← (inst.inputs.mapM copies.image : Outcome GraphError _)
    let copy ← insertAt target (p.body target).length inst.op inputs inst.modules
    copyBody target body (copies.insert i copy)

/-- Copies a module under a new name. The result sends each instruction to its copy. -/
def copyModule (source : ModuleId) (name : String) : Edit (ModuleId × Renaming) := do
  let module ← (← get).findModule source
  let target ← createModule name
  return (target, ← copyBody target module.body .empty)

/-! ## Rewiring -/

/-- Infers the types on the stack again, and those of the consumers where a type changed. -/
def refresh : Nat → List InstrId → Edit Unit
  | _, [] => return ()
  | 0, _ => throw (.fault .exhausted)
  | fuel + 1, i :: stack => do
    let p ← get
    let inst ← p.findInstr i
    let type ← p.infer inst.op inst.inputs inst.modules
    if type = inst.type then refresh fuel stack
    else
      set (p.modifyInstr i fun inst => { inst with type })
      refresh fuel (inst.consumers.reverse ++ stack)

/-- Infers the type of an instruction again and, where a type changed, those of the consumers. Where
operands stand before their users, an instruction is met at most once for each chain of consumers
that leads to it. The further factor is for values that depend on themselves, whose types may shrink
by steps until they no longer fit. -/
def refreshType (i : InstrId) : Edit Unit := do
  refresh (1 <<< ((← get).size + 64)) [i]

/-- Swaps one operand for another and infers the type again. -/
def replaceArgument (i old new : InstrId) : Edit Unit := do
  let p ← get
  let _ ← p.findInstr i
  let p := p.modifyInstr i fun inst =>
    { inst with inputs := inst.inputs.map fun input => if input = old then new else input }
  set ((p.dropConsumer old i).addConsumer new i)
  refreshType i

/-- The consumer is listed in the module after the position. -/
def checkAfter (p : Program) (module : Module) (position : Nat) (new consumer : InstrId) :
    Edit Unit := do
  match module.position? consumer with
  | some place =>
    if place ≤ position then
      Action.refuse (.orderViolation (← p.instr consumer).name new)
  | none => Action.refuse (.orderViolation (← p.instr consumer).name new)

/-- Rewires every consumer of `old` other than `new` itself to `new`. Both must have the same
element types and dimensions, and `new` must stand before every rewired consumer. -/
def replaceInstruction (old new : InstrId) : Edit Unit := do
  let p ← get
  let oldInst ← p.findInstr old
  let newInst ← p.findInstr new
  if !oldInst.type.sameShape newInst.type then
    Action.refuse (.typeMismatch oldInst.type newInst.type)
  let (m, position) ← p.locate new
  let module ← p.findModule m
  let consumers := oldInst.consumers.filter (· ≠ new)
  consumers.forM (checkAfter p module position new)
  consumers.forM fun consumer => replaceArgument consumer old new

/-- Replaces the operation and the operands of an instruction. It keeps its handle and consumers,
so the new type must match the old one in element type and dimensions. -/
def replaceWith (i : InstrId) (op : Op) (inputs : List InstrId) (modules : List ModuleId) :
    Edit Unit := do
  let (m, position) ← (← get).locate i
  checkPlacement m position op.name inputs
  let p ← get
  let type ← p.infer op inputs modules
  let old ← p.instr i
  if !old.type.sameShape type then Action.refuse (.typeMismatch old.type type)
  let p := p.modifyInstr i fun inst => { inst with inputs := [] }
  let p := (p.dropConsumers old.inputs i).addConsumers inputs i
  set (p.modifyInstr i fun inst => { inst with op, inputs, modules, type })
  if old.type ≠ type then
    let inst ← (← get).instr i
    inst.consumers.forM refreshType

/-- Moves an instruction to just before another one of the same module. -/
def moveBefore (i place : InstrId) : Edit Unit := do
  let p ← get
  let (m, source) ← p.locate i
  let (n, _) ← p.locate place
  if m ≠ n then Action.refuse (.foreignInstruction i (← p.findModule n).name)
  let p := p.modifyBody m fun body => body.eraseIdx source
  set p
  match (p.body m).idxOf? place with
  | some target => set (p.modifyBody m fun body => body.insertIdx target i)
  | none => Action.refuse (.unknownInstruction place)

/-! ## Removing -/

/-- Removes an instruction that nothing consumes. -/
def removeInstruction (i : InstrId) : Edit Unit := do
  let p ← get
  let inst ← p.findInstr i
  if !inst.consumers.isEmpty then
    Action.refuse (.stillConsumed inst.name inst.consumers.length)
  let (m, position) ← p.locate i
  set ((p.modifyBody m fun body => body.eraseIdx position).eraseInstr i)

/-- Removes a module with its instructions, the last one first. -/
def removeModule (m : ModuleId) : Edit Unit := do
  if m = Program.main then Action.refuse .removeMain
  let p ← get
  let module ← p.findModule m
  let p := { p with
    modules := p.modules.erase m.index
    names := p.names.filter fun entry => entry.1 ≠ module.name
    freeSlots := module.slot :: p.freeSlots }
  set (module.body.reverse.foldl eraseInstr p)

end Edit

end OffloadFusion
