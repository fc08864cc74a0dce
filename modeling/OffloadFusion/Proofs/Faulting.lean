import OffloadFusion.Proofs.Outcomes

/-!
# Faults of computations

* `FaultsIn P`: a computation faults in the ways of `P` only.
* `Delivers P Q`: moreover its result, if it has one, has the property `Q`.
* `faultsIn_bind`, `delivers_bind` and their kin: for a sequence it is enough to look at its parts.
* `Typing.faultsIn_tensorInputs` and its kin: checks of operands and modules do not fault at all, so
  they fault in any ways.
-/

namespace OffloadFusion

open Typing

/-! ## Parts -/

/-- Errors among which are the faults. -/
class Faulting (ε : Type) where
  fault : Fault → ε

instance : Faulting Fault := ⟨id⟩

instance {ε : Type} : Faulting (Failure ε) := ⟨.fault⟩

/-- The computation faults in these ways only. -/
def FaultsIn {ε α : Type} [Faulting ε] (P : Fault → Prop) (x : Except ε α) : Prop :=
  ∀ e, x = .error (Faulting.fault e) → P e

/-- The computation faults in these ways only, and its result has the property. -/
structure Delivers {ε α : Type} [Faulting ε] (P : Fault → Prop) (Q : α → Prop)
    (x : Except ε α) : Prop where
  faults : FaultsIn P x
  result : ∀ a, x = .ok a → Q a

section

variable {ε α β : Type} [Faulting ε] {P : Fault → Prop} {Q R : β → Prop}

@[simp] theorem faultsIn_ok {a : α} : FaultsIn P (.ok a : Except ε α) := nofun

@[simp] theorem faultsIn_pure {a : α} : FaultsIn P (pure a : Except ε α) := nofun

@[simp] theorem faultsIn_refuse {ε : Type} {e : ε} : FaultsIn P (refuse e : Outcome ε α) := nofun

@[simp] theorem faultsIn_bind {x : Except ε α} {f : α → Except ε β} :
    FaultsIn P (x >>= f) ↔ FaultsIn P x ∧ ∀ a, x = .ok a → FaultsIn P (f a) := by
  cases x <;> simp [FaultsIn, bind, Except.bind]

@[simp] theorem faultsIn_map {x : Except ε α} {f : α → β} :
    FaultsIn P (f <$> x) ↔ FaultsIn P x := by
  cases x <;> simp [FaultsIn, Functor.map, Except.map]

@[simp] theorem faultsIn_ite {c : Prop} [Decidable c] {x y : Except ε α} :
    FaultsIn P (if c then x else y) ↔ (c → FaultsIn P x) ∧ (¬ c → FaultsIn P y) := by
  split <;> simp_all

@[simp] theorem faultsIn_lift_checked {ε : Type} {x : Checked α} :
    FaultsIn P (liftM x : Outcome ε α) ↔ FaultsIn P x := by
  cases x <;> simp [FaultsIn, liftM, monadLift, MonadLift.monadLift, Except.mapError,
    Faulting.fault]

theorem faultsIn_mapM {xs : List α} {f : α → Except ε β} (h : ∀ x ∈ xs, FaultsIn P (f x)) :
    FaultsIn P (xs.mapM f) := by
  induction xs with
  | nil => exact faultsIn_pure
  | cons x xs ih =>
    rw [List.mapM_cons]
    simp [h x, ih fun y hy => h y (List.mem_cons_of_mem x hy)]

/-- A loop faults where a round does; the rounds may rely on what they keep. -/
theorem faultsIn_foldlM {I : β → Prop} {xs : List α} {f : β → α → Except ε β}
    (h : ∀ b, I b → ∀ x ∈ xs, FaultsIn P (f b x))
    (hkeep : ∀ {b x b'}, I b → f b x = .ok b' → I b') {b : β} (hb : I b) :
    FaultsIn P (xs.foldlM f b) := by
  induction xs generalizing b with
  | nil => exact faultsIn_pure
  | cons x xs ih =>
    rw [List.foldlM_cons]
    refine faultsIn_bind.mpr ⟨h b hb x List.mem_cons_self, fun b' hb' => ?_⟩
    exact ih (fun b hb y hy => h b hb y (List.mem_cons_of_mem x hy)) (hkeep hb hb')

theorem faultsIn_forM {xs : List α} {f : α → Except ε PUnit} (h : ∀ x ∈ xs, FaultsIn P (f x)) :
    FaultsIn P (xs.forM f) := by
  induction xs with
  | nil => exact faultsIn_pure
  | cons x xs ih =>
    exact faultsIn_bind.mpr ⟨h x List.mem_cons_self,
      fun _ _ => ih fun y hy => h y (List.mem_cons_of_mem x hy)⟩

theorem faultsIn_allM {xs : List α} {f : α → Except ε Bool} (h : ∀ x ∈ xs, FaultsIn P (f x)) :
    FaultsIn P (xs.allM f) := by
  induction xs with
  | nil => exact faultsIn_pure
  | cons x xs ih =>
    rw [List.allM]
    refine faultsIn_bind.mpr ⟨h x List.mem_cons_self, fun b _ => ?_⟩
    cases b with
    | true => exact ih fun y hy => h y (List.mem_cons_of_mem x hy)
    | false => exact faultsIn_pure

@[simp] theorem delivers_pure {b : β} : Delivers P Q (pure b : Except ε β) ↔ Q b :=
  ⟨fun h => h.result b rfl, fun h => ⟨faultsIn_pure, fun _ hb => by cases hb; exact h⟩⟩

@[simp] theorem delivers_refuse {ε : Type} {e : ε} : Delivers P Q (refuse e : Outcome ε β) :=
  ⟨faultsIn_refuse, nofun⟩

@[simp] theorem delivers_bind {x : Except ε α} {f : α → Except ε β} :
    Delivers P Q (x >>= f) ↔ FaultsIn P x ∧ ∀ a, x = .ok a → Delivers P Q (f a) := by
  constructor
  · rintro ⟨hfaults, hresult⟩
    obtain ⟨hx, hf⟩ := faultsIn_bind.mp hfaults
    exact ⟨hx, fun a ha => ⟨hf a ha, fun b hb => hresult b (Outcome.bind_ok.mpr ⟨a, ha, hb⟩)⟩⟩
  · rintro ⟨hx, hf⟩
    refine ⟨faultsIn_bind.mpr ⟨hx, fun a ha => (hf a ha).faults⟩, fun b hb => ?_⟩
    obtain ⟨a, ha, hb⟩ := Outcome.bind_ok.mp hb
    exact (hf a ha).result b hb

theorem delivers_refuse_bind {ε : Type} {e : ε} {f : α → Outcome ε β} :
    Delivers P Q (refuse e >>= f) :=
  delivers_bind.mpr ⟨faultsIn_refuse, fun _ ha => absurd ha Outcome.refuse_ok⟩

@[simp] theorem delivers_ite {c : Prop} [Decidable c] {x y : Except ε β} :
    Delivers P Q (if c then x else y) ↔ (c → Delivers P Q x) ∧ (¬ c → Delivers P Q y) := by
  split <;> simp_all

@[simp] theorem delivers_map {x : Except ε α} {f : α → β} :
    Delivers P Q (f <$> x) ↔ Delivers P (fun a => Q (f a)) x := by
  cases x with
  | ok a => exact delivers_pure (ε := ε).trans (delivers_pure (ε := ε) (Q := fun a => Q (f a))).symm
  | error e => exact ⟨fun h => ⟨fun d hd => h.faults d (by cases hd; rfl), nofun⟩,
      fun h => ⟨fun d hd => h.faults d (by cases hd; rfl), nofun⟩⟩

@[simp] theorem delivers_lift_checked {ε : Type} {x : Checked β} :
    Delivers P Q (liftM x : Outcome ε β) ↔ Delivers P Q x :=
  ⟨fun h => ⟨faultsIn_lift_checked.mp h.faults, fun a ha =>
      h.result a (Outcome.lift_checked_ok.mpr ha)⟩,
    fun h => ⟨faultsIn_lift_checked.mpr h.faults, fun a ha =>
      h.result a (Outcome.lift_checked_ok.mp ha)⟩⟩

theorem Delivers.imp {x : Except ε β} (h : Delivers P Q x) (hQ : ∀ b, Q b → R b) :
    Delivers P R x :=
  ⟨h.faults, fun b hb => hQ b (h.result b hb)⟩

end

/-! ## Operands -/

namespace Typing

variable {P : Fault → Prop} {op : String} {inputs : List ValueType} {modules : List Signature}
  {t : TensorType} {ts : List TensorType} {accepted : Interval} {dtype : DType}

@[simp] theorem faultsIn_expectTensor {a : ValueType} : FaultsIn P (a.expectTensor op) := by
  cases a <;> nofun

@[simp] theorem faultsIn_tensorInputs : FaultsIn P (tensorInputs op inputs accepted) := by
  simp [tensorInputs, faultsIn_mapM]

@[simp] theorem faultsIn_oneTensor : FaultsIn P (oneTensor op inputs) := by
  unfold oneTensor
  split <;> simp

@[simp] theorem faultsIn_twoTensors : FaultsIn P (twoTensors op inputs) := by
  unfold twoTensors
  split <;> simp

@[simp] theorem faultsIn_threeTensors : FaultsIn P (threeTensors op inputs) := by
  unfold threeTensors
  split <;> simp

@[simp] theorem faultsIn_noModules : FaultsIn P (noModules op modules) := by simp [noModules]

@[simp] theorem faultsIn_singleModule : FaultsIn P (singleModule op modules) := by
  unfold singleModule
  split <;> simp

@[simp] theorem faultsIn_sameDims : FaultsIn P (sameDims op t ts) := by
  unfold sameDims
  split <;> simp

@[simp] theorem faultsIn_sameDType : FaultsIn P (sameDType op t ts) := by
  unfold sameDType
  split <;> simp

@[simp] theorem faultsIn_hasDType : FaultsIn P (hasDType op dtype t) := by simp [hasDType]

theorem faultsIn_nonempty {α : Type} {as : List α} (h : as ≠ []) : FaultsIn P (nonempty as) := by
  cases as with
  | nil => exact absurd rfl h
  | cons a as => exact faultsIn_ok

@[simp] theorem faultsIn_matchParams {body : Signature} : FaultsIn P (matchParams op ts body) := by
  unfold matchParams
  split <;> simp

@[simp] theorem faultsIn_regionOutput {body : Signature} : FaultsIn P (regionOutput op body) := by
  simp [regionOutput]

end Typing

@[simp] theorem faultsIn_productDType {P : Fault → Prop} {op : String} {quantized : Bool}
    {dtype : DType} : FaultsIn P (productDType op quantized dtype) := by
  unfold productDType
  split
  · simp
  · split <;> simp

@[simp] theorem Attention.faultsIn_checkMask {P : Fault → Prop} {t : TensorType}
    {mask : List TensorType} : FaultsIn P (checkMask t mask) := by
  unfold checkMask
  split <;> simp

namespace Op

variable {P : Fault → Prop} {op : String} {inputs : List ValueType} {modules : List Signature}

@[simp] theorem faultsIn_nullary : FaultsIn P (nullary op inputs modules) := by simp [nullary]

@[simp] theorem faultsIn_matchDTypes {ts params : List TensorType} :
    FaultsIn P (matchDTypes op ts params) := by
  unfold matchDTypes
  split <;> simp

@[simp] theorem faultsIn_callOutput {ts : List TensorType} {body : Signature} :
    FaultsIn P (callOutput op ts body) := by
  simp [callOutput]

@[simp] theorem faultsIn_tupleElemOutput {index : Nat} :
    FaultsIn P (tupleElemOutput op index inputs modules) := by
  unfold tupleElemOutput
  refine faultsIn_bind.mpr ⟨faultsIn_noModules, fun _ _ => ?_⟩
  split
  · split <;> simp
  · simp
  · simp

end Op

end OffloadFusion
