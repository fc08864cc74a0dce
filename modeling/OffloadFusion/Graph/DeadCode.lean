import OffloadFusion.Graph.Edit

/-!
# Dead code

* `Edit.eliminateDeadCode`: removes instructions that nothing consumes and modules that the main
  module does not reach.
* `Edit.prune`: removes given instructions that nothing consumes, and what only they kept.
* `Edit.releaseModule`: removes a module that no instruction references, and what only it kept.
-/

namespace OffloadFusion

/-- How much dead code was removed. -/
structure DeadCode where
  instructions : Nat
  modules : Nat
deriving DecidableEq, Repr

namespace Program

/-- The number of module references of all instructions. -/
def referenceCount (p : Program) : Nat :=
  (p.instructions.entries.flatMap fun (_, inst) => inst.modules).length

/-- The modules that the instructions of a module reference, in order. -/
def references (p : Program) (m : ModuleId) : List ModuleId :=
  (p.body m).flatMap fun i => ((p.instr? i).map Instruction.modules).getD []

/-- Collects the modules reached from those on the stack. -/
def collectModules (p : Program) : Nat → (live stack : List ModuleId) → Checked (List ModuleId)
  | _, live, [] => .ok live
  | 0, _, _ => .error .exhausted
  | fuel + 1, live, m :: stack =>
    if m ∈ live then p.collectModules fuel live stack
    else do
      let _ ← p.module m
      p.collectModules fuel (m :: live) (p.references m ++ stack)

/-- The modules that the main module reaches through references, itself included. -/
def liveModules (p : Program) : Checked (List ModuleId) :=
  p.collectModules (p.referenceCount + 1) [] [main]

/-- Whether an instruction outside a module references it. -/
def isReferenced (p : Program) (m : ModuleId) : Bool :=
  p.instructions.entries.any fun (_, inst) => inst.owner ≠ m ∧ m ∈ inst.modules

end Program

namespace Edit

/-! ## Sweeping a program -/

/-- Removes the instructions, given in order from the last one, that nothing consumes. Parameters,
returns and the instruction `kept` stay. -/
def sweep (kept : Option InstrId) : List InstrId → Edit Nat
  | [] => return 0
  | i :: rest => do
    let inst ← (← get).instr i
    if !inst.consumers.isEmpty || inst.op.isParam || inst.op.isReturn || kept = some i then
      sweep kept rest
    else
      removeInstruction i
      return (← sweep kept rest) + 1

/-- Sweeps a module from back to front. Without a return its last instruction stays. -/
def sweepModule (m : ModuleId) : Edit Nat := do
  let p ← get
  let body := p.body m
  sweep (if (p.return? m).isSome then none else body.getLast?) body.reverse

/-- Removes unconsumed instructions and the modules that the main module does not reach. -/
def eliminateDeadCode : Edit DeadCode := do
  let swept ← (← get).moduleIds.foldlM (fun count m => do return count + (← sweepModule m)) 0
  let p ← get
  let live ← p.liveModules
  let dead := p.moduleIds.filter (· ∉ live)
  dead.forM removeModule
  return ⟨swept, dead.length⟩

/-! ## Following removals -/

/-- Removes the modules on the stack that nothing outside them references, and then those that they
referenced. -/
def releaseFrom : Nat → List ModuleId → Edit Unit
  | _, [] => return ()
  | 0, _ => throw (.fault .exhausted)
  | fuel + 1, m :: stack => do
    let p ← get
    if m = Program.main ∨ (p.module? m).isNone ∨ p.isReferenced m then releaseFrom fuel stack
    else
      let nested := p.references m
      removeModule m
      releaseFrom fuel (nested.reverse ++ stack)

/-- Removes a module that no instruction references, then the modules that only it referenced. -/
def releaseModule (m : ModuleId) : Edit Unit := do
  releaseFrom ((← get).referenceCount + 1) [m]

/-- Removes the instructions on the stack that nothing consumes, and then their operands. -/
def pruneFrom : Nat → List InstrId → Edit Nat
  | _, [] => return 0
  | 0, _ => throw (.fault .exhausted)
  | fuel + 1, i :: stack => do
    match (← get).instr? i with
    | none => pruneFrom fuel stack
    | some inst =>
      if !inst.consumers.isEmpty || inst.op.isParam || inst.op.isReturn then pruneFrom fuel stack
      else
        removeInstruction i
        inst.modules.forM releaseModule
        return (← pruneFrom fuel (inst.inputs.reverse ++ stack)) + 1

/-- Removes the given instructions if nothing consumes them, then their operands that became dead,
and the modules that they alone referenced. Parameters and returns stay. -/
def prune (roots : List InstrId) : Edit Nat := do
  pruneFrom (roots.length + (← get).inputCount + 1) roots.reverse

/-! ## Moving -/

/-- Moves an instruction, and every one between it and `place` that depends on it, to just before
`place` in the same order. -/
def relocateDependents (i place : InstrId) : Edit Unit := do
  let p ← get
  let (m, first) ← p.locate i
  let (_, last) ← p.locate place
  if first < last then
    let body := p.body m
    if body.length < last then throw (.fault .outOfRange)
    ((body.take last).drop first).forM fun j => do
      if (← get).reaches i j then moveBefore j place

end Edit

end OffloadFusion
