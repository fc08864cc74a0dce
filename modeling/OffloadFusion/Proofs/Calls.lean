import Mathlib.Data.List.Forall2
import OffloadFusion.Proofs.Outcomes

/-!
# Types of calls

An offload call and a split reduction take the parameters of their module, up to strides, and
produce what it returns (`callOutput_ok`, `inferType_offload`).
-/

namespace OffloadFusion

open Typing

variable {op : String} {inputs : List ValueType} {tensors : List TensorType} {body : Signature}
  {signatures : List Signature} {type : ValueType}

theorem TensorType.sameShape_iff {t u : TensorType} :
    t.sameShape u = true ↔ t.dtype = u.dtype ∧ t.shape = u.shape := by
  simp [TensorType.sameShape]

@[simp] theorem ValueType.elements_ofElements (ts : List TensorType) :
    (ValueType.ofElements ts).elements = ts := by
  unfold ofElements
  split <;> rfl

theorem ValueType.expectTensor_ok {t : TensorType} :
    type.expectTensor op = .ok t ↔ type = .tensor t := by
  unfold expectTensor
  cases type <;> simp

theorem Interval.contains_atLeast {least count : Nat} (h : least ≤ count)
    (h' : count < Checked.sizeLimit) : (atLeast least).contains count := by
  rw [contains, atLeast, Bool.and_eq_true, decide_eq_true_eq, decide_eq_true_eq]
  exact ⟨h, Nat.le_sub_one_of_lt h'⟩

namespace Typing

theorem mapM_expectTensor_ok :
    inputs.mapM (ValueType.expectTensor op) = .ok tensors ↔ inputs = tensors.map .tensor := by
  simp only [Outcome.mapM_ok, ValueType.expectTensor_ok]
  rw [← List.forall₂_map_right_iff, List.forall₂_eq_eq_eq]

theorem tensorInputs_ok {accepted : Interval} : tensorInputs op inputs accepted = .ok tensors ↔
    accepted.contains inputs.length = true ∧ inputs = tensors.map .tensor := by
  simp only [tensorInputs, Outcome.ite_ok, Outcome.refuse_bind_ok, and_false, false_or,
    Bool.not_eq_true', Bool.not_eq_false, mapM_expectTensor_ok]

theorem singleModule_ok : singleModule op signatures = .ok body ↔ signatures = [body] := by
  unfold singleModule
  split <;> simp_all

theorem find?_zipIdx_none {α : Type} (xs : List α) (test : α → Bool) :
    (xs.zipIdx.find? fun e => test e.1) = none ↔ ∀ x ∈ xs, test x = false := by
  rw [List.find?_eq_none]
  constructor
  · intro h x hx
    rw [← List.zipIdx_map_fst 0 xs] at hx
    obtain ⟨e, he, rfl⟩ := List.mem_map.mp hx
    exact Bool.not_eq_true _ ▸ h e he
  · intro h e he
    have hmem : e.1 ∈ xs := by
      rw [← List.zipIdx_map_fst 0 xs]
      exact List.mem_map_of_mem he
    simp [h e.1 hmem]

/-- The operands are the parameters, up to strides. -/
theorem matchParams_ok {u : Unit} : matchParams op tensors body = .ok u ↔
    List.Forall₂ (fun t param => t.sameShape param = true) tensors body.params := by
  rw [List.forall₂_iff_zip]
  simp only [matchParams, Outcome.ite_ok, Outcome.refuse_bind_ok, and_false, false_or, ne_eq,
    not_not]
  refine and_congr_right fun _ => ?_
  have hnone : ((tensors.zip body.params).zipIdx.find? fun e => !e.1.1.sameShape e.1.2) = none ↔
      ∀ e ∈ tensors.zip body.params, (!e.1.sameShape e.2) = false :=
    find?_zipIdx_none _ fun (e : TensorType × TensorType) => !e.1.sameShape e.2
  constructor
  · intro h a b hab
    split at h
    · cases h
    · next hfind => simpa using hnone.mp hfind (a, b) hab
  · intro h
    have hfind := hnone.mpr fun e he => by simp [h he]
    split
    · next hsome => rw [hfind] at hsome; cases hsome
    · rfl

theorem regionOutput_ok : regionOutput op body = .ok type ↔
    body.returns ≠ [] ∧ body.output = type := by
  unfold regionOutput
  cases hr : body.returns <;> simp

end Typing

theorem Op.acceptsLayout_ok {t : TensorType} {accepts : Bool} : acceptsLayout t = .ok accepts ↔
    ∃ packed, t.isPacked = .ok packed ∧ (packed || t.isBroadcasted) = accepts := by
  rw [acceptsLayout, Outcome.bind_ok]
  refine exists_congr fun packed => and_congr_right fun _ => ?_
  cases packed with
  | true => exact Outcome.pure_ok
  | false => exact Outcome.pure_ok

theorem Op.acceptsLayout_iff {t : TensorType} :
    acceptsLayout t = .ok true ↔ t.isPacked = .ok true ∨ t.isBroadcasted = true := by
  rw [acceptsLayout_ok]
  constructor
  · rintro ⟨packed, hpacked, haccepts⟩
    obtain rfl | hbroadcasted := Bool.or_eq_true_iff.mp haccepts
    · exact .inl hpacked
    · exact .inr hbroadcasted
  · rintro (hpacked | hbroadcasted)
    · exact ⟨true, hpacked, rfl⟩
    · refine ⟨false, ?_, hbroadcasted⟩
      rw [TensorType.isPacked, hbroadcasted]
      rfl

theorem Op.checkLayouts_ok {u : Unit} :
    checkLayouts op tensors = .ok u ↔ ∀ t ∈ tensors, acceptsLayout t = .ok true := by
  rw [checkLayouts, Outcome.forM_ok, Prod.forall]
  constructor
  · intro h t ht
    obtain ⟨index, hlt, rfl⟩ := List.getElem_of_mem ht
    have hround := h tensors[index] index (List.mk_mem_zipIdx_iff_getElem?.mpr (by simp [hlt]))
    simpa using hround
  · intro h t index hmem
    simp [h t (List.fst_mem_of_mem_zipIdx hmem)]

/-- A call takes the parameters of the module and produces what it returns. -/
theorem Op.callOutput_ok : Op.callOutput op tensors body = .ok type ↔
    List.Forall₂ (fun t param => t.sameShape param = true) tensors body.params ∧
      body.returns ≠ [] ∧ body.output = type := by
  simp only [callOutput, Outcome.bind_ok, matchParams_ok, regionOutput_ok, exists_const]

/-- **The type of an offload call.** -/
theorem Op.inferType_offload {anchor : Op}
    (h : (Op.offload anchor).inferType inputs signatures = .ok type) :
    ∃ tensors body, inputs = tensors.map .tensor ∧ signatures = [body] ∧
      List.Forall₂ (fun t param => t.sameShape param = true) tensors body.params ∧
      body.returns = type.elements := by
  simp only [inferType, Outcome.bind_ok, tensorInputs_ok, singleModule_ok, callOutput_ok] at h
  obtain ⟨tensors, ⟨-, hin⟩, body, hsig, -, -, hparams, -, rfl⟩ := h
  exact ⟨tensors, body, hin, hsig, hparams, (ValueType.elements_ofElements _).symm⟩

end OffloadFusion
