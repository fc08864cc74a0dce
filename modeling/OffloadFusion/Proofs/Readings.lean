import OffloadFusion.Proofs.Capturing
import OffloadFusion.Proofs.Feeding
import OffloadFusion.Proofs.Fit

/-!
# Readings that have answers

What a rule asks of a fit program before it changes anything:

* `Matcher.exists_run`: a matcher comes to an answer.
* `ReshapeChain.exists_walk`: a walk goes up the order of a module, to an instruction that is there.
* `Building.exists_freeInputName`: a free name is among the first ones.
-/

namespace OffloadFusion

open Program

variable {p : Program} {i : InstrId} {m : ModuleId} {h : Heuristics} {fuel : Nat} {loose : Prop}

theorem Matcher.exists_run (hl : p.Linked) (matcher : Matcher) :
    ∃ found, matcher.run p h i = .ok found := by
  obtain ⟨found, hfound⟩ := agrees hl h matcher i
  exact Outcome.bind_total ⟨_, hfound.handed []⟩ fun found _ => ⟨_, rfl⟩

namespace ReshapeChain

/-- The chain ends at an instruction that is there, and is made of instructions that are. -/
structure Alive (loose : Prop) (p : Program) (chain : ReshapeChain) : Prop where
  upper : (p.instr? chain.upper).isSome
  nodes : ∀ j ∈ chain.nodes, (p.instr? j).isSome
  ops : ∀ op ∈ chain.ops, op.Fit loose

theorem carried_replayOp {inst : Instruction} {view : Reindex} (hop : inst.op = .reindex view) :
    (replayOp inst view).carried = [] := by
  unfold replayOp
  split
  · split
    · rfl
    · rw [hop]
      rfl
  · rw [hop]
    rfl

theorem exists_walkFrom {throughSlice : Bool} {nodes : List InstrId} {ops : List Op}
    (hp : p.Fit loose) (hi : i ∈ p.body m) (hfuel : (p.body m).idxOf i < fuel)
    (hnodes : ∀ j ∈ nodes, (p.instr? j).isSome) (hops : ∀ op ∈ ops, op.Fit loose) :
    ∃ chain, walkFrom p throughSlice fuel i nodes ops = .ok chain ∧ chain.Alive loose p := by
  induction fuel generalizing i nodes ops with
  | zero => omega
  | succ fuel ih =>
    have halive := hp.linked.alive_of_mem hi
    rw [walkFrom]
    split
    · exact ⟨_, rfl, halive, hnodes, hops⟩
    · next inst view hview =>
      split
      · exact ⟨_, rfl, halive, hnodes, hops⟩
      obtain ⟨inst', hinst, hview⟩ := Option.bind_eq_some_iff.mp hview
      obtain ⟨_, hop, he⟩ := Option.map_eq_some_iff.mp hview
      cases he
      have hop := Op.reindex?_eq_some.mp hop
      -- the operand of a view is the next instruction of the walk
      obtain ⟨x, rest, hin⟩ := List.exists_cons_of_ne_nil ((hp.fit hinst).operand view hop)
      obtain ⟨hmem, hlt⟩ := hp.linked.idxOf_input_lt hinst hi (hin ▸ List.mem_cons_self)
      rw [hin]
      exact ih hmem (by omega)
        (List.forall_mem_append.mpr ⟨hnodes, List.forall_mem_singleton.mpr halive⟩)
        (List.forall_mem_append.mpr ⟨hops, List.forall_mem_singleton.mpr
          (Op.fit_of_carried (carried_replayOp hop))⟩)

theorem exists_walk (throughSlice : Bool) (hp : p.Fit loose) (hi : (p.instr? i).isSome) :
    ∃ chain, walk p i throughSlice = .ok chain ∧ chain.Alive loose p := by
  obtain ⟨inst, hinst⟩ := Option.isSome_iff_exists.mp hi
  have hmem := hp.linked.listed hinst
  have hlt := List.idxOf_lt_length_of_mem hmem
  have hle := hp.linked.length_body_le inst.owner
  exact exists_walkFrom hp hmem (by omega) (List.forall_mem_nil _) (List.forall_mem_nil _)

end ReshapeChain

theorem Building.exists_freeInputName (p : Program) (m : ModuleId) :
    ∃ name, freeInputName p m = .ok name := by
  have hlen : ((p.parameters m).filterMap fun i =>
      (p.instr? i).bind fun inst => inst.op.paramName?).length < (p.parameters m).length + 1 :=
    Nat.lt_succ_of_le (List.length_filterMap_le _ _)
  obtain ⟨n, hlt, hfree⟩ := exists_free "x" (p.parameters m).length hlen
  rw [freeInputName]
  split
  · exact ⟨_, rfl⟩
  · next hnone =>
    refine absurd (List.find?_eq_none.mp hnone _
      (List.mem_map.mpr ⟨n, List.mem_range.mpr hlt, rfl⟩)) ?_
    rw [not_not, Option.isNone_iff_eq_none, parameter?, List.find?_eq_none]
    intro i hi hname
    obtain ⟨inst, hinst, hop⟩ := hasOp_iff.mp hname
    exact hfree (List.mem_filterMap.mpr ⟨i, hi, by rw [hinst]; exact of_decide_eq_true hop⟩)

end OffloadFusion
