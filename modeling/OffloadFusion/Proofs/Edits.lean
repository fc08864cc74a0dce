import OffloadFusion.Graph.DeadCode
import OffloadFusion.Proofs.Order
import OffloadFusion.Proofs.Outcomes
import OffloadFusion.Proofs.Views

/-!
# What the edits do

One lemma `…_ok` for each edit says what its success means and which program it leaves behind. The
edits that build are atomic: a refusal leaves the program as it was.
-/

namespace OffloadFusion

open Program

variable {p q : Program} {i : InstrId} {m : ModuleId} {n : Nat} {inst : Instruction} {op : Op}
  {inputs : List InstrId} {modules : List ModuleId}

/-! ## Looking up -/

namespace Program

@[simp] theorem findModule_ok {module : Module} :
    p.findModule m = .ok module ↔ p.module? m = some module := by
  unfold findModule
  cases p.module? m <;> simp

@[simp] theorem findInstr_ok : p.findInstr i = .ok inst ↔ p.instr? i = some inst := by
  unfold findInstr
  cases p.instr? i <;> simp

@[simp] theorem instr_ok : p.instr i = .ok inst ↔ p.instr? i = some inst := by
  unfold instr
  cases p.instr? i <;> simp

@[simp] theorem module_ok {module : Module} :
    p.module m = .ok module ↔ p.module? m = some module := by
  unfold Program.module
  cases p.module? m <;> simp

theorem locate_ok : p.locate i = .ok (m, n) ↔
    ∃ inst module, p.instr? i = some inst ∧ inst.owner = m ∧ p.module? m = some module ∧
      module.body.idxOf? i = some n := by
  simp only [locate, Outcome.bind_ok, findInstr_ok, findModule_ok, Module.position?]
  constructor
  · rintro ⟨inst, hi, module, hm, h⟩
    split at h
    · next hk => cases h; exact ⟨inst, module, hi, rfl, hm, hk⟩
    · cases h
  · rintro ⟨inst, module, hi, rfl, hm, hk⟩
    exact ⟨inst, hi, module, hm, by rw [hk]; rfl⟩

/-- The position after the last parameter of a list of instructions. -/
def parametersEnd (p : Program) (body : List InstrId) : Nat :=
  (body.reverse.dropWhile fun i => !p.hasOp Op.isParam i).length

theorem parametersEnd_le (p : Program) (body : List InstrId) :
    p.parametersEnd body ≤ body.length := by
  have := (List.dropWhile_sublist (fun i => !p.hasOp Op.isParam i) (l := body.reverse)).length_le
  rwa [List.length_reverse] at this

end Program

namespace Edit

/-! ## Building -/

theorem readOnly_checkOperand (p : Program) (m : ModuleId) (module : Module) (n : Nat)
    (name : String) (x : InstrId) : (checkOperand p m module n name x).ReadOnly := by
  refine (Action.readOnly_lift _).bind fun xinst => ?_
  cases module.position? x with
  | none =>
    have hplace := Action.readOnly_refuse (σ := Program) (α := PUnit)
      (GraphError.orderViolation name x)
    exact ((Action.readOnly_refuse _).bind fun _ => hplace).ite hplace
  | some place =>
    have hplace : (if place ≥ n then Action.refuse (.orderViolation name x) else pure ⟨⟩ :
        Edit PUnit).ReadOnly := (Action.readOnly_refuse _).ite (Action.readOnly_pure _)
    exact ((Action.readOnly_refuse _).bind fun _ => hplace).ite hplace

theorem checkOperand_ok {module : Module} {name : String} {x : InstrId} {u : Unit} :
    checkOperand p m module n name x q = .ok u q ↔
      (∃ xinst, p.instr? x = some xinst ∧ xinst.owner = m) ∧
        ∃ place, module.body.idxOf? x = some place ∧ place < n := by
  simp only [checkOperand, Action.lift_bind_ok, findInstr_ok, Module.position?]
  simp only [Action.ite_ok, Action.refuse_bind_ok, and_false, false_or, not_not]
  rw [← exists_and_right]
  refine exists_congr fun xinst => ?_
  rw [and_assoc]
  refine and_congr_right fun _ => and_congr_right fun _ => ?_
  cases module.body.idxOf? x <;> simp

theorem readOnly_checkPlacement (name : String) :
    (checkPlacement m n name inputs).ReadOnly := by
  refine Action.readOnly_get.bind fun p => (Action.readOnly_lift _).bind fun module => ?_
  exact Action.ReadOnly.forM fun x => readOnly_checkOperand p m module n name x

theorem checkPlacement_ok {name : String} {u : Unit} :
    checkPlacement m n name inputs p = .ok u q ↔ p = q ∧ ∃ module, p.module? m = some module ∧
      ∀ x ∈ inputs, (∃ xinst, p.instr? x = some xinst ∧ xinst.owner = m) ∧
        ∃ place, module.body.idxOf? x = some place ∧ place < n := by
  simp only [checkPlacement, Action.get_bind_ok, Action.lift_bind_ok, findModule_ok]
  simp only [Action.ReadOnly.forM_ok (readOnly_checkOperand _ _ _ _ _), checkOperand_ok]
  constructor
  · rintro ⟨module, hm, he, h⟩
    exact ⟨he, module, hm, h⟩
  · rintro ⟨he, module, hm, h⟩
    exact ⟨module, hm, he, h⟩

theorem mem_take_of_checkPlacement {name : String} {u : Unit} {module : Module}
    (h : checkPlacement m n name inputs p = .ok u q) (hm : p.module? m = some module) :
    ∀ x ∈ inputs, x ∈ module.body.take n := by
  intro x hx
  obtain ⟨-, module', hm', hin⟩ := checkPlacement_ok.mp h
  rw [hm] at hm'
  cases hm'
  obtain ⟨-, place, hplace, hlt⟩ := hin x hx
  exact mem_take_of_idxOf? hplace hlt

theorem insertAt_ok : insertAt m n op inputs modules p = .ok i q ↔
    ∃ module type, p.module? m = some module ∧
      checkPlacement m n op.name inputs p = .ok ⟨⟩ p ∧ p.infer op inputs modules = .ok type ∧
      i = p.nextId ∧
      q = p.inserted m n { op, inputs, modules, type, consumers := [], owner := m } := by
  simp only [insertAt, Action.bind_ok (x := checkPlacement _ _ _ _), Action.get_bind_ok,
    Action.lift_bind_ok, Action.set_bind_ok, Action.pure_ok]
  constructor
  · rintro ⟨_, p', hc, type, ht, rfl, rfl⟩
    obtain ⟨rfl, module, hm, -⟩ := checkPlacement_ok.mp hc
    exact ⟨module, type, hm, hc, ht, rfl, rfl⟩
  · rintro ⟨module, type, hm, hc, ht, rfl, rfl⟩
    exact ⟨⟨⟩, p, hc, type, ht, rfl, rfl⟩

theorem atomic_insertAt : (insertAt m n op inputs modules).Atomic := by
  refine (readOnly_checkPlacement _).bind_atomic fun _ => ?_
  refine Action.readOnly_get.bind_atomic fun p => ?_
  refine (Action.readOnly_lift _).bind_atomic fun type => ?_
  intro s e s' h
  cases h

theorem readOnly_afterParameters : (afterParameters m).ReadOnly :=
  Action.readOnly_get.bind fun _ => (Action.readOnly_lift _).bind fun _ => Action.readOnly_pure _

theorem afterParameters_ok : afterParameters m p = .ok n q ↔
    p = q ∧ ∃ module, p.module? m = some module ∧ n = p.parametersEnd module.body := by
  simp only [afterParameters, Action.get_bind_ok, Action.lift_bind_ok, findModule_ok,
    Action.pure_ok, parametersEnd]
  constructor
  · rintro ⟨module, hm, hn, he⟩
    exact ⟨he, module, hm, hn.symm⟩
  · rintro ⟨he, module, hm, hn⟩
    exact ⟨module, hm, hn.symm, he⟩

theorem addParameter_ok {name : String} {type : TensorType} :
    addParameter m name type p = .ok i q ↔ p.parameter? m name = none ∧ ∃ module,
      p.module? m = some module ∧
        insertAt m (p.parametersEnd module.body) (.param name type) [] [] p = .ok i q := by
  simp only [addParameter, Action.get_bind_ok, Action.ite_ok, Action.lift_bind_ok,
    Action.refuse_bind_ok, and_false, exists_false, false_or, Bool.not_eq_true,
    Option.isSome_eq_false_iff, Option.isNone_iff_eq_none]
  refine and_congr_right fun _ => ?_
  simp only [Action.bind_ok, afterParameters_ok]
  constructor
  · rintro ⟨_, _, ⟨rfl, module, hm, rfl⟩, h⟩
    exact ⟨module, hm, h⟩
  · rintro ⟨module, hm, h⟩
    exact ⟨_, _, ⟨rfl, module, hm, rfl⟩, h⟩

theorem addLiteral_ok {type : TensorType} {data : LiteralData} :
    addLiteral m type data p = .ok i q ↔ ∃ module, p.module? m = some module ∧
        insertAt m (p.parametersEnd module.body) (.literal type data) [] [] p = .ok i q := by
  simp only [addLiteral, Action.bind_ok, afterParameters_ok]
  constructor
  · rintro ⟨_, _, ⟨rfl, module, hm, rfl⟩, h⟩
    exact ⟨module, hm, h⟩
  · rintro ⟨module, hm, h⟩
    exact ⟨_, _, ⟨rfl, module, hm, rfl⟩, h⟩

theorem addInstruction_ok : addInstruction m op inputs modules p = .ok i q ↔ ∃ module,
    p.module? m = some module ∧ insertAt m
      (module.body.length - if (p.return? m).isSome then 1 else 0) op inputs modules p =
        .ok i q := by
  simp only [addInstruction, Action.get_bind_ok, Action.lift_bind_ok, findModule_ok]

theorem insertBefore_ok {place : InstrId} : insertBefore place op inputs modules p = .ok i q ↔
    ∃ m n, p.locate place = .ok (m, n) ∧ insertAt m n op inputs modules p = .ok i q := by
  simp only [insertBefore, Action.get_bind_ok, Action.lift_bind_ok, Prod.exists]

theorem insertAfter_ok {place : InstrId} : insertAfter place op inputs modules p = .ok i q ↔
    ∃ m n, p.locate place = .ok (m, n) ∧ p.hasOp Op.isReturn place = false ∧
      insertAt m (n + 1) op inputs modules p = .ok i q := by
  simp only [insertAfter, Action.get_bind_ok, Action.lift_bind_ok, Prod.exists, Action.ite_ok,
    Action.refuse_bind_ok, and_false, exists_false, false_or, Bool.not_eq_true]

theorem addReturn_ok : addReturn m inputs p = .ok i q ↔ (p.return? m) = none ∧ ∃ module,
    p.module? m = some module ∧ insertAt m module.body.length .ret inputs [] p = .ok i q := by
  simp only [addReturn, Action.get_bind_ok, Action.lift_bind_ok, findModule_ok, Action.ite_ok,
    Action.refuse_bind_ok, and_false, exists_false, false_or, Bool.not_eq_true,
    Option.isSome_eq_false_iff, Option.isNone_iff_eq_none]

theorem createModule_ok {name : String} : createModule name p = .ok m q ↔
    p.moduleNamed? name = none ∧ m = p.nextModule ∧ q = p.opened name := by
  simp only [createModule, Action.get_bind_ok, Action.ite_ok, Action.refuse_bind_ok, and_false,
    false_or, Bool.not_eq_true, Option.isSome_eq_false_iff, Option.isNone_iff_eq_none,
    Action.set_bind_ok, Action.pure_ok]
  exact and_congr_right fun _ => and_congr ⟨Eq.symm, Eq.symm⟩ ⟨Eq.symm, Eq.symm⟩

end Edit

end OffloadFusion
