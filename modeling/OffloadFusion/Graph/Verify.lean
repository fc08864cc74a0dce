import OffloadFusion.Graph.Signature

/-!
# Verifying programs

`Program.verify` checks every structural condition of every module: modules list their own live
instructions once, operands come first, consumer lists are inverse to operands, returns come last,
referenced modules are there, and stored types are the inferred ones.
-/

namespace OffloadFusion

/-- The broken condition, with the name of the module, the position and the operation. -/
inductive VerifyError where
  | ownership (module : String) (index : Nat)
  | order (module : String) (index : Nat) (name : String)
  | edges (module : String) (index : Nat) (name : String)
  | misplacedReturn (module : String) (index : Nat)
  | staleType (module : String) (index : Nat) (name : String) (stored inferred : ValueType)
  | inference (module : String) (index : Nat) (name : String) (cause : TypeError)
  | missingModule (module : String) (index : Nat) (name : String)
  | orphans (count : Nat)
deriving DecidableEq, Repr

/-- The name of the broken condition. -/
def VerifyError.kind : VerifyError → String
  | ownership .. => "Ownership"
  | order .. => "Order"
  | edges .. => "Edges"
  | misplacedReturn .. => "MisplacedReturn"
  | staleType .. => "StaleType"
  | inference .. => "Inference"
  | missingModule .. => "MissingModule"
  | orphans _ => "Orphans"

/-- The wording of a broken condition. -/
def VerifyError.message : VerifyError → Checked String
  | ownership module index =>
    return s!"{module}: entry {index} is not a live instruction of this module."
  | order module index name =>
    return s!"{module}: {name} at {index} uses an input not defined earlier in the module."
  | edges module index name =>
    return s!"{module}: consumer edges of {name} at {index} do not mirror the input edges."
  | misplacedReturn module index =>
    return s!"{module}: return at {index} is not the last instruction."
  | staleType module index name stored inferred => do
    return s!"{module}: {name} at {index} stores " ++ (← stored.text) ++ " but infers " ++
      (← inferred.text) ++ "."
  | inference module index name _ => return s!"{module}: {name} at {index} fails type inference."
  | missingModule module index name =>
    return s!"{module}: {name} at {index} references a missing module."
  | orphans count => return s!"{count} instruction(s) are not listed by any module."

namespace Program

/-- Every operand lists the instruction as a consumer, every consumer has it as an operand, and no
consumer is listed twice. -/
def edgesInverse (p : Program) (i : InstrId) (inst : Instruction) : Bool :=
  (inst.inputs.all fun input => (p.instr? input).any fun q => i ∈ q.consumers) &&
    (inst.consumers.all fun consumer => (p.instr? consumer).any fun q => i ∈ q.inputs) &&
    decide inst.consumers.Nodup

/-- Checks the instruction at one position; `earlier` are the instructions before it. -/
def verifyAt (p : Program) (m : ModuleId) (module : Module) (earlier : List InstrId) (i : InstrId)
    (index : Nat) : Outcome VerifyError Unit := do
  let some inst := p.instr? i | refuse (.ownership module.name index)
  if inst.owner ≠ m ∨ i ∈ earlier then refuse (.ownership module.name index)
  if inst.inputs.any (· ∉ earlier) then refuse (.order module.name index inst.name)
  if !p.edgesInverse i inst then refuse (.edges module.name index inst.name)
  if inst.op.isReturn ∧ index + 1 ≠ module.body.length then
    refuse (.misplacedReturn module.name index)
  if inst.modules.any fun sub => (p.module? sub).isNone ∨ sub = m then
    refuse (.missingModule module.name index inst.name)
  match p.infer inst.op inst.inputs inst.modules with
  | .ok type =>
    if type ≠ inst.type then refuse (.staleType module.name index inst.name inst.type type)
  | .error (.refused (.typing cause)) => refuse (.inference module.name index inst.name cause)
  | .error (.refused _) => refuse (.missingModule module.name index inst.name)
  | .error (.fault e) => throw (.fault e)

/-- Checks the instructions of a module from a position on. -/
def verifyFrom (p : Program) (m : ModuleId) (module : Module) :
    (earlier rest : List InstrId) → Outcome VerifyError Unit
  | _, [] => return ()
  | earlier, i :: rest => do
    p.verifyAt m module earlier i earlier.length
    verifyFrom p m module (earlier ++ [i]) rest

/-- The instructions that the modules list. -/
def listed (p : Program) : List InstrId := p.moduleEntries.flatMap fun (_, module) => module.body

/-- Checks every module, and that all instructions are listed. -/
def verify (p : Program) : Outcome VerifyError Unit := do
  p.moduleEntries.forM fun (m, module) => p.verifyFrom m module [] module.body
  let listed := p.listed.length
  if listed ≠ p.size then refuse (.orphans ((listed - p.size) + (p.size - listed)))

end Program

end OffloadFusion
