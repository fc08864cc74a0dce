import OffloadFusion.Graph.Error

/-!
# Programs as text

`Program.text` lists the main module first and then the others in order of their places, a line for
each instruction: position, operation, operands, modules and type.
-/

namespace OffloadFusion.Program

/-- An operand: the position of an earlier instruction of the list, else the handle. -/
def operandText (p : Program) (earlier : List InstrId) (i : InstrId) : String :=
  match earlier.idxOf? i with
  | some position => "@" ++ toString position
  | none => p.instrText i

/-- The line of an instruction with the instructions before it. -/
def lineText (p : Program) (earlier : List InstrId) (i : InstrId) : Checked String := do
  let inst ← p.instr i
  let args :=
    if inst.inputs.isEmpty then ""
    else "(" ++ ", ".intercalate (inst.inputs.map (p.operandText (earlier ++ [i]))) ++ ")"
  let names := inst.modules.filterMap fun m => (p.module? m).map Module.name
  let modules := if inst.modules.isEmpty then "" else ", [" ++ ", ".intercalate names ++ "]"
  return s!"  @{earlier.length} = " ++ inst.op.text ++ args ++ modules ++ " -> " ++
    (← inst.type.text) ++ "\n"

/-- The lines of the instructions from a position on. -/
def linesText (p : Program) : (earlier rest : List InstrId) → Checked String
  | _, [] => return ""
  | earlier, i :: rest => do
    return (← p.lineText earlier i) ++ (← linesText p (earlier ++ [i]) rest)

/-- The heading and the lines of a module. -/
def moduleListing (p : Program) (module : Module) : Checked String := do
  return "module: \"" ++ module.name ++ "\"\n" ++ (← p.linesText [] module.body)

/-- The whole program. -/
def text (p : Program) : Checked String := do
  let main ← p.module main
  let others := p.moduleEntries.filter fun (m, _) => m ≠ Program.main
  let listings ← (main :: others.map Prod.snd).mapM p.moduleListing
  return "\n".intercalate listings

end OffloadFusion.Program
