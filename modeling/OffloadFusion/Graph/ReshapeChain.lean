import OffloadFusion.Graph.Edit

/-!
# Chains of shape-only instructions

A `ReshapeChain` is the run of shape-only instructions above an instruction. `walk` collects it, and
`replay` builds it again on top of another value.
-/

namespace OffloadFusion

/-- A run of shape-only instructions, outermost first. -/
structure ReshapeChain where
  /-- The first instruction upwards that is not walked. -/
  upper : InstrId
  nodes : List InstrId
  /-- The operations of the nodes. Regrouping is kept as a reshape to the dimensions of its
  result, so that it does not depend on the layout of its operand. -/
  ops : List Op
deriving DecidableEq, Repr

namespace ReshapeChain

/-- The operation by which a chain replays an instruction. -/
def replayOp (inst : Instruction) (view : Reindex) : Op :=
  match inst.tensor? with
  | some t => if view.isRegrouping then .reindex (.reshape t.shape) else inst.op
  | none => inst.op

/-- Walks up from `i`; `nodes` and `ops` were walked before. -/
def walkFrom (p : Program) (throughSlice : Bool) :
    Nat → InstrId → List InstrId → List Op → Checked ReshapeChain
  | 0, _, _, _ => .error .exhausted
  | fuel + 1, i, nodes, ops =>
    match (p.instr? i).bind fun inst => inst.op.reindex?.map (inst, ·) with
    | none => .ok ⟨i, nodes, ops⟩
    | some (inst, view) =>
      if view.isSlice && !throughSlice then .ok ⟨i, nodes, ops⟩
      else do
        let above ← Checked.get inst.inputs 0
        walkFrom p throughSlice fuel above (nodes ++ [i]) (ops ++ [replayOp inst view])

/-- Walks up from an instruction. A slice ends the walk unless `throughSlice`. -/
def walk (p : Program) (i : InstrId) (throughSlice : Bool) : Checked ReshapeChain :=
  walkFrom p throughSlice (p.size + 1) i [] []

/-- Builds operations on top of each other, the first one lowest. -/
def stack (m : ModuleId) : List Op → InstrId → Edit InstrId
  | [], base => return base
  | op :: ops, base => do stack m ops (← Edit.addInstruction m op [base] [])

/-- Builds the chain again in a module on top of `base`, and gives its outermost value. -/
def replay (chain : ReshapeChain) (m : ModuleId) (base : InstrId) : Edit InstrId :=
  stack m chain.ops.reverse base

end ReshapeChain

end OffloadFusion
