import OffloadFusion.Graph.ReshapeChain
import OffloadFusion.Graph.Verify
import OffloadFusion.Match.Matcher

/-!
# Sessions

* `FusionError`: why a fusion stops.
* `Session`: a program with the counter from which new module names are minted.
* `Fusing`: a change of a session.
-/

namespace OffloadFusion

/-- Why a fusion stops. -/
inductive FusionError where
  | graph (cause : GraphError)
  | verify (cause : VerifyError)
  | missingBinding (name : String)
  | unboundParam (name : String)
deriving DecidableEq, Repr

/-- The name of the reason. -/
def FusionError.kind : FusionError → String
  | graph cause => cause.kind
  | verify cause => "Verify." ++ cause.kind
  | missingBinding _ => "MissingBinding"
  | unboundParam _ => "UnboundParam"

/-- The wording, with the handles read in a program. -/
def FusionError.message (p : Program) : FusionError → Checked String
  | graph cause => cause.message p
  | verify cause => do return "Program is malformed after fusion: " ++ (← cause.message)
  | missingBinding name => return "Match has no binding named " ++ Text.quote name ++ "."
  | unboundParam name => return "Parameter " ++ Text.quote name ++ " has no bound input."

instance : MonadLift (Except (Failure GraphError)) (Except (Failure FusionError)) where
  monadLift := Except.mapError (Failure.map .graph)

instance : MonadLift (Except (Failure VerifyError)) (Except (Failure FusionError)) where
  monadLift := Except.mapError (Failure.map .verify)

/-- The capture under a name that a rule needs. -/
def Match.get (m : Match) (name : String) : Outcome FusionError InstrId :=
  match m.get? name with
  | some i => return i
  | none => refuse (.missingBinding name)

/-! ## States that hold a program -/

/-- A state one part of which is a program. -/
class HoldsProgram (σ : Type) where
  program : σ → Program
  withProgram : Program → σ → σ

instance {σ : Type} [HoldsProgram σ] : MonadLift (EStateM (Failure GraphError) Program)
    (EStateM (Failure FusionError) σ) where
  monadLift := Action.focus HoldsProgram.program HoldsProgram.withProgram .graph

/-- The program as it is now. -/
def theProgram {σ : Type} [HoldsProgram σ] : Action σ FusionError Program :=
  return HoldsProgram.program (← get)

/-- A program with the counter for new module names. -/
structure Session where
  program : Program
  counter : Nat

instance : HoldsProgram Session where
  program := Session.program
  withProgram program s := { s with program }

/-- A change of a session that may stop. -/
abbrev Fusing := Action Session FusionError

namespace Fusing

/-- A free name: the stem with the next number whose name is free. One of as many numbers as there
are modules, and one more, must be. -/
def freshName (stem : String) : Fusing String := do
  let s ← get
  let free (n : Nat) : Bool := (s.program.moduleNamed? (stem ++ toString (s.counter + n))).isNone
  match (List.range (s.program.modules.count + 1)).find? free with
  | none => throw (.fault .exhausted)
  | some n =>
    let counter ← Checked.add (s.counter + n) 1
    set { s with counter }
    return stem ++ toString (s.counter + n)

/-- The name itself if it is free, else a numbered one. -/
def uniqueName (name : String) : Fusing String := do
  if ((← theProgram).moduleNamed? name).isSome then freshName (name ++ "_") else return name

end Fusing

end OffloadFusion
