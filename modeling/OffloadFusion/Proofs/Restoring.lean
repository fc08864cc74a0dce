import OffloadFusion.Proofs.Cutting
import OffloadFusion.Proofs.Rederiving

/-!
# Inferring again restores the types

In a module whose types are the inferred ones but for that of `i` (`Disturbed m i p`), inferring
along consumers from `i` ends, changes nothing but types of what depends on `i`, and where it
succeeds leaves only inferred types behind (**`refreshType_restores`**). An instruction may be met
more than once, as it is each time one of its operands changes
(`refreshType_restores_transposedBoth`).

* `Disturbed.exists_queued`: whether the run succeeds or not, what it leaves behind is a program on
  the way, and nothing but instructions was touched.
* `Disturbed.refreshType_error`: it stops only at an instruction below `i` that cannot be inferred.
-/

namespace OffloadFusion.Program

variable {p q : Program} {i : InstrId} {m : ModuleId}

theorem sameRest_modifyInstr (p : Program) (i : InstrId) (f : Instruction → Instruction) :
    SameRest p (p.modifyInstr i f) := ⟨rfl, rfl, rfl, Arena.next_modify _ _ _⟩

namespace Disturbed

variable (h : Disturbed m i p)

include h

theorem roundInvariant_sameRest :
    Edit.RoundInvariant fun stack q => Queued m i p stack q ∧ SameRest p q :=
  ⟨fun hI hj ht => ⟨hI.1.settle hj ht, hI.2⟩,
    fun hI hj ht => ⟨h.queued_retype hI.1 hj ht, hI.2.trans (sameRest_modifyInstr _ _ _)⟩⟩

/-- What a run leaves behind, also one that stops, is a program on the way. -/
theorem exists_queued : ∃ stack, Queued m i p stack ((Edit.refreshType i).after p) ∧
    SameRest p ((Edit.refreshType i).after p) := by
  have hI := h.roundInvariant_sameRest
  have hstart : Queued m i p [i] p ∧ SameRest p p := ⟨h.queued, rfl, rfl, rfl, rfl⟩
  cases hrun : Edit.refreshType i p with
  | ok u q =>
    rw [Action.after_of_ok hrun]
    exact ⟨[], hI.refreshType_ok hstart hrun⟩
  | error e q =>
    rw [Action.after_of_error hrun]
    obtain ⟨j, rest, hq, -⟩ := hI.refreshType_error h.wired h.mem hstart hrun
    exact ⟨j :: rest, hq⟩

/-- A run stops only at an instruction below `i` that cannot be inferred. -/
theorem refreshType_error {e : Failure GraphError} (he : Edit.refreshType i p = .error e q) :
    ∃ j a, p.DependsOn i j ∧ q.instr? j = some a ∧
      q.infer a.op a.inputs a.modules = .error e := by
  obtain ⟨j, rest, hq, hstuck⟩ :=
    h.roundInvariant.refreshType_error h.wired h.mem h.queued he
  have hd := hq.inside List.mem_cons_self
  obtain ⟨a, ha, -⟩ := h.wired.owned (h.mem_body hd)
  exact ⟨j, _, hd, hq.instr? ha, hstuck _ (hq.instr? ha)⟩

end Disturbed

/-- **Inferring along consumers restores the types** of a wired program in whose module `m` no
instruction carries `m` and all types but that of `i` are the inferred ones:

* it ends, after at most `2 ^ n` rounds for `n` instructions, and not because of its bound;
* whether it succeeds or not, it changes nothing but the types of `i` and of what depends on it;
* if it succeeds, all types of the module are the inferred ones;
* otherwise there is no type for an instruction that is `i` or depends on it. -/
theorem refreshType_restores (h : Disturbed m i p) :
    (∃ n ≤ 2 ^ (p.body m).length, Edit.Refreshes n [i] p (Edit.refreshType i p)) ∧
    (RetypedBelow i p ((Edit.refreshType i).after p) ∧
      SameRest p ((Edit.refreshType i).after p)) ∧
    (∀ q, Edit.refreshType i p = .ok ⟨⟩ q → ∀ j ∈ q.body m, q.Fresh j) ∧
    ∀ e q, Edit.refreshType i p = .error e q → ∃ j a, p.DependsOn i j ∧ q.instr? j = some a ∧
      q.infer a.op a.inputs a.modules = .error e := by
  obtain ⟨stack, hq, hrest⟩ := h.exists_queued
  refine ⟨Edit.exists_refreshes_refreshType h.wired h.mem, ⟨hq.toRetypedBelow, hrest⟩,
    fun q hok j hj => ?_, fun e q he => h.refreshType_error he⟩
  have hdone := h.refreshType_ok hok
  rw [hdone.body] at hj
  exact hdone.fresh hj List.not_mem_nil

/-- A transposed matrix and the matrix it is a transpose of, beside a matrix in another layout. -/
def transposedBoth : Program :=
  (do
    let x ← Edit.addParameter main "x" ⟨.f32, [2, 3], [3, 1]⟩
    let _ ← Edit.addParameter main "y" ⟨.f32, [2, 3], [1, 2]⟩
    let there ← Edit.addInstruction main (.reindex (.transpose [1, 0])) [x] []
    let back ← Edit.addInstruction main (.reindex (.transpose [1, 0])) [there] []
    let _ ← Edit.addReturn main [there, back] : Edit Unit).after .empty

/-- With the other matrix as operand, both transposes have other layouts. The return has both as
operands and is met after each of them. -/
theorem refreshType_restores_transposedBoth :
    let p := transposedBoth.swapped ⟨2⟩ ⟨0⟩ ⟨1⟩
    Disturbed main ⟨2⟩ p ∧
    p.typeAt ⟨4⟩ = .tuple [⟨.f32, [3, 2], [1, 3]⟩, ⟨.f32, [2, 3], [3, 1]⟩] ∧
    ∃ q, Edit.refreshType ⟨2⟩ p = .ok ⟨⟩ q ∧
      q.typeAt ⟨4⟩ = .tuple [⟨.f32, [3, 2], [2, 1]⟩, ⟨.f32, [2, 3], [1, 2]⟩] ∧
      ∀ j ∈ q.body main, q.Fresh j := by
  intro p
  have hv : transposedBoth.verify = .ok ⟨⟩ := by decide +kernel
  have hp : transposedBoth.Valid := verify_ok.mp hv
  have huse : transposedBoth.Uses ⟨2⟩ ⟨0⟩ := by decide +kernel
  have hbefore : Before (transposedBoth.body main) ⟨1⟩ ⟨2⟩ := by
    unfold Before
    decide +kernel
  obtain ⟨inst, hi, hold⟩ := huse
  have ho : inst.owner = main := hp.owner_unique hi hbefore.right_mem
  have h : Disturbed main ⟨2⟩ p := by
    rw [← ho] at hbefore ⊢
    exact (hp.refreshable_swapped hi hold hbefore).disturbed
  obtain ⟨_, q, hok, htype⟩ : ∃ u q, Edit.refreshType ⟨2⟩ p = .ok u q ∧
      q.typeAt ⟨4⟩ = .tuple [⟨.f32, [3, 2], [2, 1]⟩, ⟨.f32, [2, 3], [1, 2]⟩] := by
    decide +kernel
  obtain ⟨-, -, hfresh, -⟩ := refreshType_restores h
  exact ⟨h, by decide +kernel, q, hok, htype, hfresh q hok⟩

end OffloadFusion.Program
