import OffloadFusion.Graph.DeadCode

/-!
# Statistics

`Stats` counts what one run of the pass did.
-/

namespace OffloadFusion

/-- What one run of the pass did. -/
structure Stats where
  /-- Attention rebuilt, with or without a pointwise. -/
  attention : Nat
  /-- Anchors fused with the pointwise that they feed. -/
  anchorPointwise : Nat
  /-- Anchors wrapped on their own. -/
  standalone : Nat
  /-- Split reductions merged into a call. -/
  splitReduce : Nat
  /-- Pointwise instructions moved into the call that they feed. -/
  inputFusion : Nat
  /-- Matches that a rule declined. -/
  declined : Nat
  deadCode : DeadCode
  /-- Offload calls in the main module afterwards. -/
  offloadCalls : Nat
deriving DecidableEq, Repr

namespace Stats

/-- Nothing done. -/
def zero : Stats := ⟨0, 0, 0, 0, 0, 0, ⟨0, 0⟩, 0⟩

/-- The number of applied rules. -/
def applied (s : Stats) : Checked Nat :=
  Checked.sum [s.attention, s.anchorPointwise, s.standalone, s.splitReduce, s.inputFusion]

/-- A table of all counts. -/
def text (s : Stats) : String :=
  "Offload Statistics:\n" ++
  s!"  Attention:        {s.attention}\n" ++
  s!"  Anchor+pointwise: {s.anchorPointwise}\n" ++
  s!"  Standalone:       {s.standalone}\n" ++
  s!"  Split reduce:     {s.splitReduce}\n" ++
  s!"  Input fusion:     {s.inputFusion}\n" ++
  s!"  Declined:         {s.declined}\n" ++
  s!"  DCE instructions: {s.deadCode.instructions}\n" ++
  s!"  DCE modules:      {s.deadCode.modules}\n" ++
  s!"  Offload calls:    {s.offloadCalls}\n"

end Stats

end OffloadFusion
