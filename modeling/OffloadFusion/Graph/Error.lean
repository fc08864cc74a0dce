import OffloadFusion.Graph.Basic
import OffloadFusion.Text.Quoted
import OffloadFusion.Typing.Error

/-!
# Reasons why an edit is refused

* `GraphError`: the unmet condition of an edit.
* `Program.instrText`, `Program.moduleText`: how handles read in texts.
* `GraphError.message`: the wording, with the handles read in a program.
-/

namespace OffloadFusion

/-- The unmet condition of an edit. -/
inductive GraphError where
  | unknownModule (module : ModuleId)
  | unknownInstruction (instruction : InstrId)
  | duplicateModule (name : String)
  | duplicateParam (module name : String)
  | duplicateReturn (module : String)
  | afterReturn (module : String)
  | removeMain
  | foreignInstruction (instruction : InstrId) (module : String)
  | stillConsumed (name : String) (consumers : Nat)
  | typeMismatch (source target : ValueType)
  | orderViolation (name : String) (input : InstrId)
  | typing (cause : TypeError)
deriving DecidableEq, Repr

instance : MonadLift (Except (Failure TypeError)) (Except (Failure GraphError)) where
  monadLift := Except.mapError (Failure.map .typing)

namespace Program

/-- The module and the position of an instruction that some module lists. -/
def listing? (p : Program) (i : InstrId) : Option (Module × Nat) :=
  p.moduleEntries.findSome? fun (_, m) => (m.position? i).map (m, ·)

/-- An instruction as `module@position`. -/
def instrPath (p : Program) (i : InstrId) : String :=
  match p.listing? i with
  | some (m, position) => m.name ++ "@" ++ toString position
  | none => "?"

/-- An instruction as `<module@position>`. -/
def instrText (p : Program) (i : InstrId) : String := "<" ++ p.instrPath i ++ ">"

/-- A module as `<name>`. -/
def moduleText (p : Program) (m : ModuleId) : String :=
  match p.module? m with
  | some module => "<" ++ module.name ++ ">"
  | none => "<?>"

end Program

/-- The name of the unmet condition. -/
def GraphError.kind : GraphError → String
  | unknownModule _ => "UnknownModule"
  | unknownInstruction _ => "UnknownInstruction"
  | duplicateModule _ => "DuplicateModule"
  | duplicateParam .. => "DuplicateParam"
  | duplicateReturn _ => "DuplicateReturn"
  | afterReturn _ => "AfterReturn"
  | removeMain => "RemoveMain"
  | foreignInstruction .. => "ForeignInstruction"
  | stillConsumed .. => "StillConsumed"
  | typeMismatch .. => "TypeMismatch"
  | orderViolation .. => "OrderViolation"
  | typing cause => cause.kind

/-- The wording of a refusal. -/
def GraphError.message (p : Program) : GraphError → Checked String
  | unknownModule m => return "Unknown module " ++ p.moduleText m ++ "."
  | unknownInstruction i => return "Unknown instruction " ++ p.instrText i ++ "."
  | duplicateModule name => return "Module " ++ Text.quote name ++ " already exists."
  | duplicateParam module name =>
    return "Parameter " ++ Text.quote name ++ " is already declared in module " ++
      Text.quote module ++ "."
  | duplicateReturn module => return "Module " ++ Text.quote module ++ " already has a return."
  | afterReturn module =>
    return "Nothing may follow the return of module " ++ Text.quote module ++ "."
  | removeMain => return "The main module cannot be removed."
  | foreignInstruction i module =>
    return "Instruction " ++ p.instrText i ++ " is not part of module " ++ Text.quote module ++ "."
  | stillConsumed name consumers => return s!"{name} still has {consumers} consumer(s)."
  | typeMismatch source target => do
    return "Cannot replace a " ++ (← source.text) ++ " value with a " ++ (← target.text) ++
      " value."
  | orderViolation name input =>
    return name ++ " would be placed before its input " ++ p.instrText input ++ "."
  | typing cause => cause.message

end OffloadFusion
