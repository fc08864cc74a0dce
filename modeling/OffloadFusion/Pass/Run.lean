import OffloadFusion.Rule.Basic
import OffloadFusion.Pass.Stats
import OffloadFusion.Policy.Config

/-!
# The offload pass

`Pass.run` applies the enabled families of rules to the main module, one family after the other,
each until none of its rules applies: attention, anchors with their pointwise, anchors on their
own, then dead code is removed, split reductions, and pointwise instructions before calls. The
program is verified whenever a rule has applied.
-/

namespace OffloadFusion.Pass

/-- The matches that a family declined: the number of the rule with the root. -/
abbrev Declined := List (Nat × InstrId)

/-- Tries the rules at one instruction. It tells whether one applied. -/
def tryRules (h : Heuristics) (i : InstrId) :
    List (Rule × Nat) → Declined → Fusing (Bool × Declined)
  | [], declined => return (false, declined)
  | (rule, k) :: rules, declined => do
    match ← rule.matcher.run (← theProgram) h i with
    | none => tryRules h i rules declined
    | some found =>
      if ← rule.apply found then
        (← theProgram).verify
        return (true, declined)
      else
        tryRules h i rules (if (k, i) ∈ declined then declined else declined ++ [(k, i)])

/-- Tries the rules at instructions in order until one applies. -/
def scan (h : Heuristics) (rules : List (Rule × Nat)) :
    List InstrId → Declined → Fusing (Bool × Declined)
  | [], declined => return (false, declined)
  | i :: order, declined => do
    match ← tryRules h i rules declined with
    | (true, declined) => return (true, declined)
    | (false, declined) => scan h rules order declined

/-- Scans the main module from its start whenever a rule has applied, and gives the number of times
that one did. -/
def exhaust (h : Heuristics) (rules : List (Rule × Nat)) :
    Nat → Declined → Fusing (Nat × Declined)
  | 0, _ => throw (.fault .exhausted)
  | fuel + 1, declined => do
    match ← scan h rules ((← theProgram).body Program.main) declined with
    | (false, declined) => return (0, declined)
    | (true, declined) =>
      let (applied, declined) ← exhaust h rules fuel declined
      return (applied + 1, declined)

/-- Applies a family of rules until none applies, and gives the numbers of applied and of declined
matches. Every applied one uses up an instruction of the main module. -/
def runFamily (h : Heuristics) (rules : List Rule) : Fusing (Nat × Nat) := do
  let fuel := ((← theProgram).body Program.main).length + 1
  let (applied, declined) ← exhaust h rules.zipIdx fuel []
  return (applied, declined.length)

/-- Applies a family if it is enabled. -/
def runFamilyIf (enabled : Bool) (h : Heuristics) (rules : List Rule) : Fusing (Nat × Nat) :=
  if enabled then runFamily h rules else return (0, 0)

/-- The offload calls of the main module. -/
def offloadCalls (p : Program) : List InstrId := (p.body Program.main).filter (p.hasOp Op.isOffload)

/-- All families in their order. -/
def runFamilies (c : Config) : Fusing Stats := do
  let h := c.heuristics
  let (fused, declined₁) ← runFamilyIf c.attentionEnabled h [.fusedAttention]
  let (alone, declined₂) ← runFamilyIf c.attentionEnabled h [.attention]
  let (anchorPointwise, declined₃) ←
    runFamily h [.anchorPointwise (c.mode "fused_convolution") (c.mode "fused_dot")]
  let (standalone, declined₄) ←
    runFamily h [.standaloneConv (c.mode "convolution"), .standaloneDot (c.mode "dot")]
  let deadCode ← Edit.eliminateDeadCode
  let (splitReduce, declined₅) ← runFamilyIf c.reduceFusion h [.splitReduce]
  let (inputFusion, declined₆) ← runFamilyIf c.inputFusion h [.inputFusion]
  return {
    attention := fused + alone
    anchorPointwise
    standalone
    splitReduce
    inputFusion
    declined := declined₁ + declined₂ + declined₃ + declined₄ + declined₅ + declined₆
    deadCode
    offloadCalls := (offloadCalls (← theProgram)).length }

/-- Runs the pass on a program. -/
def run (c : Config) : Action Program FusionError Stats :=
  if c.disabled then return .zero
  else Action.focus (fun p => ⟨p, 0⟩) (fun s _ => s.program) id (runFamilies c)

end OffloadFusion.Pass
