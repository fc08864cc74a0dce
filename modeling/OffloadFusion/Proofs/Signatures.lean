import OffloadFusion.Proofs.Calls
import OffloadFusion.Proofs.Edits

/-!
# Signatures and inferred types

What `signature` and `infer` read (`signature_ok`, `infer_ok`): the types of the operands, and for
each module the types of its parameters and of what it returns.
-/

namespace OffloadFusion.Program

variable {p q : Program} {i : InstrId} {m : ModuleId} {inst : Instruction} {op : Op}
  {inputs : List InstrId} {modules : List ModuleId} {type : ValueType}

/-- The instruction is there and has the type. -/
def HasType (p : Program) (i : InstrId) (type : ValueType) : Prop :=
  ∃ inst, p.instr? i = some inst ∧ inst.type = type

theorem hasType_unique {a b : ValueType} (ha : p.HasType i a) (hb : p.HasType i b) : a = b := by
  obtain ⟨inst, hi, rfl⟩ := ha
  obtain ⟨inst', hi', rfl⟩ := hb
  rw [hi] at hi'
  cases hi'
  rfl

theorem tensorOf_ok {t : TensorType} : p.tensorOf i = .ok t ↔ p.HasType i (.tensor t) := by
  simp only [tensorOf, HasType, Outcome.bind_ok, Outcome.lift_checked_ok, Outcome.lift_typed_ok,
    instr_ok, ValueType.expectTensor_ok]

theorem typeOf_ok : p.typeOf i = .ok type ↔ p.HasType i type := by
  simp only [typeOf, HasType, Outcome.bind_ok, findInstr_ok, Outcome.pure_ok]

theorem signature_ok {s : Signature} : p.signature m = .ok s ↔ ∃ module,
    p.module? m = some module ∧
    List.Forall₂ (fun i t => p.HasType i (.tensor t)) (p.parameters m) s.params ∧
    p.returnTypes module.body = .ok s.returns := by
  simp only [signature, Outcome.bind_ok, findModule_ok, Outcome.mapM_ok, tensorOf_ok,
    Outcome.pure_ok]
  constructor
  · rintro ⟨module, hm, params, hp, returns, hr, rfl⟩
    exact ⟨module, hm, hp, hr⟩
  · rintro ⟨module, hm, hp, hr⟩
    exact ⟨module, hm, s.params, hp, s.returns, hr, rfl⟩

theorem infer_ok : p.infer op inputs modules = .ok type ↔ ∃ types signatures,
    List.Forall₂ p.HasType inputs types ∧
    List.Forall₂ (fun m s => p.signature m = .ok s) modules signatures ∧
    op.inferType types signatures = .ok type := by
  simp only [infer, Outcome.bind_ok, Outcome.mapM_ok, typeOf_ok, Outcome.lift_typed_ok]
  constructor
  · rintro ⟨types, ht, signatures, hs, h⟩
    exact ⟨types, signatures, ht, hs, h⟩
  · rintro ⟨types, signatures, ht, hs, h⟩
    exact ⟨types, ht, signatures, hs, h⟩

end OffloadFusion.Program
