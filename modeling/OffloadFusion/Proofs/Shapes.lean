import OffloadFusion.Proofs.Calls
import OffloadFusion.Proofs.Order

/-!
# Type rules

What each type rule needs and gives (`…_ok`), and that element types and dimensions of a result do
not depend on strides: if the operands agree in tupling, element types and dimensions, so do the
results, where both are there (`Op.inferType_alike`).

* `TensorType.Alike`, `ValueType.Alike`: the same up to strides.
* `Reindex.output_alike`, `…_congr`: most rules only read element types and dimensions, so alike
  operands give the same result; views carry strides on.
-/

namespace OffloadFusion

open Typing

/-! ## The same up to strides -/

/-- The tensors have the same element type and dimensions. -/
def TensorType.Alike (t u : TensorType) : Prop := t.dtype = u.dtype ∧ t.shape = u.shape

/-- The values agree in tupling, element types and dimensions. -/
def ValueType.Alike (a b : ValueType) : Prop :=
  a.isTuple = b.isTuple ∧ List.Forall₂ TensorType.Alike a.elements b.elements

namespace TensorType.Alike

variable {t u v : TensorType}

theorem refl (t : TensorType) : t.Alike t := ⟨rfl, rfl⟩

theorem symm (h : t.Alike u) : u.Alike t := ⟨h.1.symm, h.2.symm⟩

theorem trans (h : t.Alike u) (h' : u.Alike v) : t.Alike v := ⟨h.1.trans h'.1, h.2.trans h'.2⟩

end TensorType.Alike

namespace ValueType

variable {a b c : ValueType} {t : TensorType}

theorem sameShape_iff : a.sameShape b = true ↔ a.Alike b := by
  have hand : ∀ {x y z : Prop}, (x ∧ y) ∧ z ↔ y ∧ x ∧ z := by tauto
  simp only [sameShape, Alike, Bool.and_eq_true, decide_eq_true_eq, List.all_eq_true, hand,
    List.forall₂_iff_zip, Prod.forall, TensorType.sameShape_iff, TensorType.Alike]

theorem Alike.refl (a : ValueType) : a.Alike a :=
  ⟨rfl, List.forall₂_same.mpr fun t _ => .refl t⟩

theorem Alike.symm (h : a.Alike b) : b.Alike a :=
  ⟨h.1.symm, h.2.flip.imp fun _ _ h => TensorType.Alike.symm h⟩

theorem Alike.trans (h : a.Alike b) (h' : b.Alike c) : a.Alike c := by
  refine ⟨h.1.trans h'.1, forall₂_comp (fun {t u v} htu huv => ?_) h.2 h'.2⟩
  exact TensorType.Alike.trans htu huv

theorem alike_tensor : (tensor t).Alike b ↔ ∃ u, b = tensor u ∧ t.Alike u := by
  cases b <;> simp [Alike, isTuple, elements]

theorem alike_tuple {ts : List TensorType} :
    (tuple ts).Alike b ↔ ∃ us, b = tuple us ∧ List.Forall₂ TensorType.Alike ts us := by
  cases b <;> simp [Alike, isTuple, elements]

theorem Alike.ofElements {ts us : List TensorType} (h : List.Forall₂ TensorType.Alike ts us) :
    (ofElements ts).Alike (ofElements us) := by
  refine ⟨?_, by simpa using h⟩
  cases h with
  | nil => rfl
  | cons _ hrest => cases hrest <;> rfl

theorem alike_map_tensor {inputs : List ValueType} {ts : List TensorType} :
    List.Forall₂ Alike (ts.map tensor) inputs ↔
      ∃ us, inputs = us.map tensor ∧ List.Forall₂ TensorType.Alike ts us := by
  induction ts generalizing inputs with
  | nil => simp
  | cons t ts ih =>
    simp only [List.map_cons, List.forall₂_cons_left_iff, alike_tensor, ih]
    constructor
    · rintro ⟨_, _, ⟨u, rfl, hu⟩, ⟨us, rfl, hus⟩, rfl⟩
      exact ⟨u :: us, rfl, u, us, hu, hus, rfl⟩
    · rintro ⟨_, rfl, u, us, hu, hus, rfl⟩
      exact ⟨_, _, ⟨u, rfl, hu⟩, ⟨us, rfl, hus⟩, rfl⟩

end ValueType

/-! ## Operands and results -/

namespace Typing

variable {op : String} {inputs : List ValueType} {modules : List Signature}
  {t u v : TensorType} {ts : List TensorType} {dims : Shape} {x : Unit} {dtype : DType}
  {type : ValueType}

theorem oneTensor_ok : oneTensor op inputs = .ok t ↔ inputs = [.tensor t] := by
  unfold oneTensor
  split <;> simp_all [ValueType.expectTensor_ok]

theorem twoTensors_ok : twoTensors op inputs = .ok (t, u) ↔ inputs = [.tensor t, .tensor u] := by
  unfold twoTensors
  split <;> simp_all [ValueType.expectTensor_ok]

theorem threeTensors_ok : threeTensors op inputs = .ok (t, u, v) ↔
    inputs = [.tensor t, .tensor u, .tensor v] := by
  unfold threeTensors
  split <;> simp_all [ValueType.expectTensor_ok]

theorem noModules_ok : noModules op modules = .ok x ↔ modules = [] := by
  unfold noModules
  cases modules <;> simp

theorem sameDims_ok : sameDims op t ts = .ok dims ↔
    (∀ u ∈ ts, u.shape = t.shape) ∧ dims = t.shape := by
  unfold sameDims
  have hnone : (ts.find? fun u => u.shape ≠ t.shape) = none ↔ ∀ u ∈ ts, u.shape = t.shape := by
    simp
  split
  · next u hu =>
    have : ¬ ∀ u ∈ ts, u.shape = t.shape := fun h => by
      rw [hnone.mpr h] at hu
      cases hu
    simp [this]
  · next hn =>
    rw [Outcome.pure_ok]
    exact ⟨fun h => ⟨hnone.mp hn, h.symm⟩, fun h => h.2.symm⟩

theorem sameDType_ok : sameDType op t ts = .ok x ↔ ∀ u ∈ ts, u.dtype = t.dtype := by
  unfold sameDType
  have hnone : (ts.find? fun u => u.dtype ≠ t.dtype) = none ↔ ∀ u ∈ ts, u.dtype = t.dtype := by
    simp
  split
  · next u hu =>
    have : ¬ ∀ u ∈ ts, u.dtype = t.dtype := fun h => by
      rw [hnone.mpr h] at hu
      cases hu
    simp [this]
  · next hn => exact ⟨fun _ => hnone.mp hn, fun _ => rfl⟩

theorem hasDType_ok : hasDType op dtype t = .ok x ↔ t.dtype = dtype := by
  simp [hasDType]

theorem standard_ok : TensorType.standard dtype dims = .ok t ↔
    ∃ strides, dims.rowMajor = .ok strides ∧ t = ⟨dtype, dims, strides⟩ := by
  simp only [TensorType.standard, Outcome.bind_ok, Outcome.pure_ok]
  exact exists_congr fun _ => and_congr_right fun _ => eq_comm

theorem standardValue_ok : standardValue dtype dims = .ok type ↔
    ∃ strides, dims.rowMajor = .ok strides ∧ type = .tensor ⟨dtype, dims, strides⟩ := by
  simp only [standardValue, Outcome.bind_ok, Outcome.lift_checked_ok, standard_ok,
    Outcome.pure_ok]
  constructor
  · rintro ⟨_, ⟨strides, h, rfl⟩, rfl⟩
    exact ⟨strides, h, rfl⟩
  · rintro ⟨strides, h, rfl⟩
    exact ⟨_, ⟨strides, h, rfl⟩, rfl⟩

end Typing

/-! ## Views -/

theorem foldlM_ok_rel {ε α β γ : Type} {R : α → β → Prop} {f : α → γ → Except ε α}
    {g : β → γ → Except ε β} (hstep : ∀ {a b c a' b'}, R a b → f a c = .ok a' → g b c = .ok b' →
      R a' b') {cs : List γ} {a a' : α} {b b' : β} (h : R a b) (ha : cs.foldlM f a = .ok a')
    (hb : cs.foldlM g b = .ok b') : R a' b' := by
  induction cs generalizing a b with
  | nil =>
    rw [List.foldlM_nil, Outcome.pure_ok] at ha hb
    exact ha ▸ hb ▸ h
  | cons c cs ih =>
    rw [List.foldlM_cons, Outcome.bind_ok] at ha hb
    obtain ⟨a₁, ha₁, ha⟩ := ha
    obtain ⟨b₁, hb₁, hb⟩ := hb
    exact ih (hstep h ha₁ hb₁) ha hb

namespace Reindex

variable {t u t' u' : TensorType}

theorem dropAxis_alike {source : Shape} {axis : Nat} (h : t.Alike u)
    (ht : dropAxis source t axis = .ok t') (hu : dropAxis source u axis = .ok u') :
    t'.Alike u' := by
  simp only [dropAxis, Outcome.ite_ok, Outcome.bind_ok, Outcome.refuse_ok, false_and,
    exists_false, and_false, false_or, Outcome.lift_checked_ok, Outcome.pure_ok] at ht hu
  obtain ⟨-, _, -, -, shape, hs, strides, -, rfl⟩ := ht
  obtain ⟨-, _, -, -, shape', hs', strides', -, rfl⟩ := hu
  rw [h.2, hs'] at hs
  cases hs
  exact ⟨h.1, rfl⟩

theorem insertAxis_shape {source : Shape} {rank axis : Nat}
    (h : insertAxis source rank t axis = .ok t') :
    t'.dtype = t.dtype ∧ Checked.insert t.shape axis 1 = .ok t'.shape := by
  simp only [insertAxis, Outcome.ite_ok, Outcome.bind_ok, Outcome.refuse_ok, false_and,
    exists_false, and_false, false_or, Outcome.lift_checked_ok, Outcome.pure_ok] at h
  obtain ⟨-, ⟨-, _, -, _, -, _, -, shape, hs, _, -, rfl⟩ | ⟨-, _, -, shape, hs, _, -, rfl⟩⟩ := h
  · exact ⟨rfl, hs⟩
  · exact ⟨rfl, hs⟩

theorem insertAxis_alike {source : Shape} {rank axis : Nat} (h : t.Alike u)
    (ht : insertAxis source rank t axis = .ok t') (hu : insertAxis source rank u axis = .ok u') :
    t'.Alike u' := by
  obtain ⟨hd, hs⟩ := insertAxis_shape ht
  obtain ⟨hd', hs'⟩ := insertAxis_shape hu
  rw [h.2, hs'] at hs
  exact ⟨hd.trans (h.1.trans hd'.symm), (Except.ok.inj hs).symm⟩

/-- **The dimensions of a view do not depend on strides.** -/
theorem output_alike (view : Reindex) (h : t.Alike u) (ht : view.output t = .ok t')
    (hu : view.output u = .ok u') : t'.Alike u' := by
  cases view with
  | slice axes starts ends =>
    simp only [output, sliceOutput, Outcome.ite_ok, Outcome.bind_ok, Outcome.refuse_ok, false_and,
      exists_false, and_false, false_or, Outcome.pure_ok] at ht hu
    obtain ⟨-, shape, hs, rfl⟩ := ht
    obtain ⟨-, shape', hs', rfl⟩ := hu
    rw [h.2, hs'] at hs
    cases hs
    exact ⟨h.1, rfl⟩
  | transpose axes =>
    simp only [output, transposeOutput, Outcome.ite_ok, Outcome.bind_ok, Outcome.refuse_ok,
      false_and, exists_false, and_false, false_or, Outcome.lift_checked_ok, Outcome.pure_ok]
      at ht hu
    obtain ⟨-, _, -, shape, hs, _, -, rfl⟩ := ht
    obtain ⟨-, _, -, shape', hs', _, -, rfl⟩ := hu
    rw [h.2, hs'] at hs
    cases hs
    exact ⟨h.1, rfl⟩
  | broadcast axis target =>
    simp only [output, broadcastOutput, Outcome.ite_ok, Outcome.bind_ok, Outcome.refuse_ok,
      false_and, exists_false, and_false, false_or, Outcome.lift_checked_ok, Outcome.pure_ok]
      at ht hu
    obtain ⟨_, -, -, _, -, rfl⟩ := ht
    obtain ⟨_, -, -, _, -, rfl⟩ := hu
    exact ⟨h.1, rfl⟩
  | multibroadcast target =>
    simp only [output, multibroadcastOutput, Outcome.ite_ok, Outcome.bind_ok, Outcome.refuse_ok,
      false_and, exists_false, and_false, false_or, Outcome.pure_ok] at ht hu
    obtain ⟨-, _, -, rfl⟩ := ht
    obtain ⟨-, _, -, rfl⟩ := hu
    exact ⟨h.1, rfl⟩
  | contiguous =>
    simp only [output, TensorType.asStandard, Outcome.lift_checked_ok, standard_ok] at ht hu
    obtain ⟨_, -, rfl⟩ := ht
    obtain ⟨_, -, rfl⟩ := hu
    exact h
  | reshape target =>
    simp only [output, reshapeOutput, Outcome.ite_ok, Outcome.bind_ok, Outcome.refuse_ok,
      false_and, exists_false, and_false, false_or, Outcome.lift_checked_ok, standard_ok] at ht hu
    obtain ⟨_, -, _, -, -, _, -, rfl⟩ := ht
    obtain ⟨_, -, _, -, -, _, -, rfl⟩ := hu
    exact ⟨h.1, rfl⟩
  | squeeze axes =>
    rw [output, squeezeOutput, h.2] at ht
    rw [output, squeezeOutput] at hu
    exact foldlM_ok_rel dropAxis_alike h ht hu
  | unsqueeze axes =>
    rw [output, unsqueezeOutput, TensorType.rank, h.2] at ht
    rw [output, unsqueezeOutput, TensorType.rank] at hu
    exact foldlM_ok_rel insertAxis_alike h ht hu
  | flatten axis =>
    simp only [output, flattenOutput, Outcome.ite_ok, Outcome.bind_ok, Outcome.refuse_ok,
      false_and, exists_false, and_false, false_or, Outcome.lift_checked_ok, standard_ok, h.2]
      at ht hu
    obtain ⟨-, outer, ho, inner, hi, _, -, rfl⟩ := ht
    obtain ⟨-, outer', ho', inner', hi', _, -, rfl⟩ := hu
    rw [ho] at ho'
    rw [hi] at hi'
    cases ho'
    cases hi'
    exact ⟨h.1, rfl⟩

end Reindex

/-! ## Results -/

section

variable {op : String} {inputs inputs' : List ValueType} {modules : List Signature}
  {t t' u u' v v' : TensorType} {a b : ValueType}

/-- A rule on one tensor gives alike results if its rule for tensors does. -/
theorem Op.mapTensor_alike {rule : TensorType → Typed TensorType}
    (hrule : ∀ {t u t' u'}, t.Alike u → rule t = .ok t' → rule u = .ok u' → t'.Alike u')
    (h : List.Forall₂ ValueType.Alike inputs inputs')
    (ha : mapTensor op inputs modules rule = .ok a)
    (hb : mapTensor op inputs' modules rule = .ok b) : a.Alike b := by
  simp only [mapTensor, Outcome.bind_ok, oneTensor_ok, Outcome.pure_ok] at ha hb
  obtain ⟨t, rfl, -, -, t', ht, rfl⟩ := ha
  obtain ⟨u, rfl, -, -, u', hu, rfl⟩ := hb
  have htu : (ValueType.tensor t).Alike (.tensor u) := by simpa using h
  obtain ⟨_, he, htu⟩ := ValueType.alike_tensor.mp htu
  cases he
  exact ValueType.alike_tensor.mpr ⟨u', rfl, hrule htu ht hu⟩

/-- A rule on two tensors that only reads element types and dimensions. -/
theorem alike_of_twoTensors {f : List ValueType → Typed ValueType}
    (hf : ∀ {inputs a}, f inputs = .ok a → ∃ t u, inputs = [.tensor t, .tensor u])
    (hcongr : ∀ {t t' u u' : TensorType}, t.Alike t' → u.Alike u' →
      f [.tensor t, .tensor u] = f [.tensor t', .tensor u'])
    (h : List.Forall₂ ValueType.Alike inputs inputs') (ha : f inputs = .ok a)
    (hb : f inputs' = .ok b) : a.Alike b := by
  obtain ⟨t, u, rfl⟩ := hf ha
  have h : List.Forall₂ ValueType.Alike ([t, u].map .tensor) inputs' := h
  obtain ⟨us, rfl, hus⟩ := ValueType.alike_map_tensor.mp h
  simp only [List.forall₂_cons_left_iff, List.forall₂_nil_left_iff] at hus
  obtain ⟨t', _, ht, ⟨u', _, hu, rfl, rfl⟩, rfl⟩ := hus
  have he : Except.ok a = Except.ok b := ha.symm.trans ((hcongr ht hu).trans hb)
  cases he
  exact .refl a

theorem alike_of_threeTensors {f : List ValueType → Typed ValueType}
    (hf : ∀ {inputs a}, f inputs = .ok a → ∃ t u v, inputs = [.tensor t, .tensor u, .tensor v])
    (hcongr : ∀ {t t' u u' v v' : TensorType}, t.Alike t' → u.Alike u' → v.Alike v' →
      f [.tensor t, .tensor u, .tensor v] = f [.tensor t', .tensor u', .tensor v'])
    (h : List.Forall₂ ValueType.Alike inputs inputs') (ha : f inputs = .ok a)
    (hb : f inputs' = .ok b) : a.Alike b := by
  obtain ⟨t, u, v, rfl⟩ := hf ha
  have h : List.Forall₂ ValueType.Alike ([t, u, v].map .tensor) inputs' := h
  obtain ⟨us, rfl, hus⟩ := ValueType.alike_map_tensor.mp h
  simp only [List.forall₂_cons_left_iff, List.forall₂_nil_left_iff] at hus
  obtain ⟨t', _, ht, ⟨u', _, hu, ⟨v', _, hv, rfl, rfl⟩, rfl⟩, rfl⟩ := hus
  have he : Except.ok a = Except.ok b := ha.symm.trans ((hcongr ht hu hv).trans hb)
  cases he
  exact .refl a

theorem Typing.sameDims_congr {ts us : List TensorType} (op : String) (h : t.Alike u)
    (hs : List.Forall₂ TensorType.Alike ts us) : sameDims op t ts = sameDims op u us := by
  unfold sameDims
  induction hs with
  | nil => simp [h.2]
  | @cons x y xs ys hx _ ih =>
    rw [h.2] at ih ⊢
    by_cases hc : y.shape = u.shape
    · simpa [hx.2, hc] using ih
    · simp [hx.2, hc]

theorem Typing.sameDType_congr {ts us : List TensorType} (op : String) (h : t.Alike u)
    (hs : List.Forall₂ TensorType.Alike ts us) : sameDType op t ts = sameDType op u us := by
  unfold sameDType
  induction hs with
  | nil => simp
  | @cons x y xs ys hx _ ih =>
    rw [h.1] at ih ⊢
    by_cases hc : y.dtype = u.dtype
    · simpa [hx.1, hc] using ih
    · simp [hx.1, hc]

theorem Dot.output_congr (quantized : Bool) (ht : t.Alike t') (hu : u.Alike u') :
    Dot.output quantized [.tensor t, .tensor u] modules =
      Dot.output quantized [.tensor t', .tensor u'] modules := by
  have hsame := sameDType_congr (Op.dot quantized).name ht (.cons hu .nil)
  simp only [Dot.output, twoTensors, ValueType.expectTensor, pure_bind, hsame, ht.1, ht.2, hu.2]

theorem Conv.output_congr (c : Conv) (ht : t.Alike t') (hu : u.Alike u') :
    c.output [.tensor t, .tensor u] modules = c.output [.tensor t', .tensor u'] modules := by
  have hsame := sameDType_congr c.name ht (.cons hu .nil)
  simp only [Conv.output, twoTensors, ValueType.expectTensor, pure_bind, hsame, ht.1, ht.2, hu.2]

theorem Op.binaryOutput_congr (ht : t.Alike t') (hu : u.Alike u') :
    binaryOutput op [.tensor t, .tensor u] modules =
      binaryOutput op [.tensor t', .tensor u'] modules := by
  have hsame := sameDType_congr op ht (.cons hu .nil)
  have hdims := sameDims_congr op ht (.cons hu .nil)
  simp only [binaryOutput, twoTensors, ValueType.expectTensor, pure_bind, hsame, hdims, ht.1]

theorem Op.selectOutput_congr (ht : t.Alike t') (hu : u.Alike u') (hv : v.Alike v') :
    selectOutput op [.tensor t, .tensor u, .tensor v] modules =
      selectOutput op [.tensor t', .tensor u', .tensor v'] modules := by
  have hsame := sameDType_congr op hu (.cons hv .nil)
  have hdims := sameDims_congr op ht (.cons hu (.cons hv .nil))
  simp only [selectOutput, threeTensors, ValueType.expectTensor, pure_bind, hsame, hdims,
    hasDType, ht.1, hu.1]

theorem Op.clipOutput_congr (ht : t.Alike t') (hu : u.Alike u') (hv : v.Alike v') :
    clipOutput op [.tensor t, .tensor u, .tensor v] modules =
      clipOutput op [.tensor t', .tensor u', .tensor v'] modules := by
  have hsame := sameDType_congr op ht (.cons hu (.cons hv .nil))
  have hdims := sameDims_congr op ht (.cons hu (.cons hv .nil))
  simp only [clipOutput, threeTensors, ValueType.expectTensor, pure_bind, hsame, hdims, ht.1]

theorem Attention.outputOf_congr {mask mask' : List TensorType} (ht : t.Alike t')
    (hu : u.Alike u') (hmask : List.Forall₂ TensorType.Alike mask mask') (hv : v.Alike v') :
    outputOf t u mask v = outputOf t' u' mask' v' := by
  have hsame := sameDType_congr opName ht (.cons hu (.cons hv .nil))
  have hcheck : ∀ scores, checkMask scores mask = checkMask scores mask' := by
    intro scores
    rcases hmask with _ | ⟨hx, _ | ⟨hy, _ | ⟨hz, hrest⟩⟩⟩
    · rfl
    · have hdims := sameDims_congr opName (.refl scores) (.cons hx .nil)
      simp only [checkMask, hdims]
    · have hdims := sameDims_congr opName (.refl scores) (.cons hx (.cons hy .nil))
      simp only [checkMask, hdims, hasDType, hx.1]
    · rfl
  simp only [outputOf, hsame, hcheck, ht.1, ht.2, hu.2, hv.2]

theorem forall₂_alike_of_map {ts us : List TensorType}
    (h : List.Forall₂ ValueType.Alike (ts.map .tensor) (us.map .tensor)) :
    List.Forall₂ TensorType.Alike ts us := by
  obtain ⟨_, he, hts⟩ := ValueType.alike_map_tensor.mp h
  rw [(List.map_injective_iff.mpr fun _ _ h => ValueType.tensor.inj h).eq_iff] at he
  exact he ▸ hts

theorem Op.scaledOutput_alike {dtype : TensorType → Option TensorType → DType}
    (hdtype : ∀ {t t' zero zero'}, TensorType.Alike t t' →
      zero.map TensorType.dtype = zero'.map TensorType.dtype → dtype t zero = dtype t' zero')
    (h : List.Forall₂ ValueType.Alike inputs inputs')
    (ha : scaledOutput op inputs modules dtype = .ok a)
    (hb : scaledOutput op inputs' modules dtype = .ok b) : a.Alike b := by
  simp only [scaledOutput, Outcome.bind_ok, tensorInputs_ok] at ha hb
  obtain ⟨ts, ⟨-, rfl⟩, -, -, ha⟩ := ha
  obtain ⟨us, ⟨-, rfl⟩, -, -, hb⟩ := hb
  have hts := forall₂_alike_of_map h
  cases hts with
  | nil => cases ha
  | cons hx hrest =>
    cases hrest with
    | nil => cases ha
    | cons hscale hzero =>
      simp only [Outcome.bind_ok, sameDims_ok] at ha hb
      obtain ⟨_, ⟨-, rfl⟩, ha⟩ := ha
      obtain ⟨_, ⟨-, rfl⟩, hb⟩ := hb
      have hhead : ∀ {xs ys : List TensorType}, List.Forall₂ TensorType.Alike xs ys →
          xs.head?.map TensorType.dtype = ys.head?.map TensorType.dtype := by
        rintro _ _ (_ | ⟨h, _⟩)
        · rfl
        · exact congrArg some h.1
      rw [hdtype hscale (hhead hzero), hx.2, hb] at ha
      cases ha
      exact .refl _

theorem Attention.output_alike (h : List.Forall₂ ValueType.Alike inputs inputs')
    (ha : Attention.output inputs modules = .ok a)
    (hb : Attention.output inputs' modules = .ok b) : a.Alike b := by
  simp only [Attention.output, Outcome.bind_ok, tensorInputs_ok] at ha hb
  obtain ⟨ts, ⟨-, rfl⟩, -, -, ha⟩ := ha
  obtain ⟨us, ⟨-, rfl⟩, -, -, hb⟩ := hb
  -- three, four or five operands; no other number is accepted
  rcases forall₂_alike_of_map h with _ | ⟨h₁, _ | ⟨h₂, _ | ⟨h₃, _ | ⟨h₄, _ | ⟨h₅, _ | ⟨-, -⟩⟩⟩⟩⟩⟩
  · cases ha
  · cases ha
  · cases ha
  · have hcongr := outputOf_congr h₁ h₂ .nil h₃
    have he : Except.ok a = Except.ok b := ha.symm.trans (hcongr.trans hb)
    cases he
    exact .refl _
  · have hcongr := outputOf_congr h₁ h₂ (.cons h₃ .nil) h₄
    have he : Except.ok a = Except.ok b := ha.symm.trans (hcongr.trans hb)
    cases he
    exact .refl _
  · have hcongr := outputOf_congr h₁ h₂ (.cons h₃ (.cons h₄ .nil)) h₅
    have he : Except.ok a = Except.ok b := ha.symm.trans (hcongr.trans hb)
    cases he
    exact .refl _
  · cases ha

theorem Op.tupleElemOutput_ok {index : Nat} : tupleElemOutput op index inputs modules = .ok a ↔
    ∃ ts t, inputs = [.tuple ts] ∧ modules = [] ∧ ts[index]? = some t ∧ a = .tensor t := by
  simp only [tupleElemOutput, Outcome.bind_ok, noModules_ok]
  constructor
  · rintro ⟨-, rfl, ha⟩
    split at ha
    · next ts =>
      split at ha
      · next t ht => exact ⟨ts, t, rfl, rfl, ht, (Outcome.pure_ok.mp ha).symm⟩
      · cases ha
    · cases ha
    · cases ha
  · rintro ⟨ts, t, rfl, rfl, ht, rfl⟩
    refine ⟨⟨⟩, rfl, ?_⟩
    dsimp only
    rw [ht]
    rfl

theorem Op.tupleElemOutput_alike {index : Nat} (h : List.Forall₂ ValueType.Alike inputs inputs')
    (ha : tupleElemOutput op index inputs modules = .ok a)
    (hb : tupleElemOutput op index inputs' modules = .ok b) : a.Alike b := by
  obtain ⟨ts, t, rfl, -, ht, rfl⟩ := tupleElemOutput_ok.mp ha
  obtain ⟨us, u, rfl, -, hu, rfl⟩ := tupleElemOutput_ok.mp hb
  have htuple : (ValueType.tuple ts).Alike (.tuple us) := by simpa using h
  obtain ⟨_, he, hts⟩ := ValueType.alike_tuple.mp htuple
  cases he
  rw [List.getElem?_eq_some_iff] at ht hu
  obtain ⟨hlt, rfl⟩ := ht
  obtain ⟨hlt', rfl⟩ := hu
  exact ValueType.alike_tensor.mpr ⟨_, rfl, List.Forall₂.get hts hlt hlt'⟩

theorem Op.pointwiseOutput_alike (h : List.Forall₂ ValueType.Alike inputs inputs')
    (ha : pointwiseOutput op inputs modules = .ok a)
    (hb : pointwiseOutput op inputs' modules = .ok b) : a.Alike b := by
  -- the dimensions are those of the first operand, the element type is the body's
  have hshape : ∀ {is c}, pointwiseOutput op is modules = .ok c → ∃ body result ts t,
      modules = [body] ∧ body.returns = [result] ∧ is = (t :: ts).map .tensor ∧
        standardValue result.dtype t.shape = .ok c := by
    intro is c hc
    simp only [pointwiseOutput, Outcome.bind_ok, tensorInputs_ok, singleModule_ok] at hc
    obtain ⟨ts, ⟨-, rfl⟩, body, rfl, ⟨t, rest⟩, hts, dims, hdims, hc⟩ := hc
    obtain ⟨-, rfl⟩ := sameDims_ok.mp hdims
    have hts : ts = t :: rest := by
      unfold nonempty at hts
      split at hts <;> simp_all
    simp only [Outcome.ite_ok, Outcome.bind_ok, Outcome.refuse_ok, false_and, exists_false,
      and_false, false_or] at hc
    obtain ⟨-, -, -, hc⟩ := hc
    split at hc
    · next result hr => exact ⟨body, result, rest, t, rfl, hr, by rw [hts], hc⟩
    · cases hc
  obtain ⟨body, result, ts, t, rfl, hr, rfl, hta⟩ := hshape ha
  obtain ⟨_, _, us, u, he, hr', rfl, hub⟩ := hshape hb
  cases he
  rw [hr] at hr'
  cases hr'
  have hts := forall₂_alike_of_map h
  have htu : t.Alike u := by
    cases hts
    assumption
  rw [htu.2, hub] at hta
  cases hta
  exact .refl _

theorem Op.callOutput_unique {ts us : List TensorType} {body : Signature}
    (ha : callOutput op ts body = .ok a) (hb : callOutput op us body = .ok b) : a = b := by
  obtain ⟨-, -, rfl⟩ := callOutput_ok.mp ha
  obtain ⟨-, -, rfl⟩ := callOutput_ok.mp hb
  rfl

theorem TensorType.standard_alike {dtype : DType} {shape : Shape}
    (ht : standard dtype shape = .ok t) : t.dtype = dtype ∧ t.shape = shape := by
  obtain ⟨_, -, rfl⟩ := standard_ok.mp ht
  exact ⟨rfl, rfl⟩

/-- **Element types and dimensions of a result do not depend on the strides of the operands.** -/
theorem Op.inferType_alike (op : Op) (h : List.Forall₂ ValueType.Alike inputs inputs')
    (ha : op.inferType inputs modules = .ok a) (hb : op.inferType inputs' modules = .ok b) :
    a.Alike b := by
  cases op with
  | param name t =>
    simp only [inferType, Outcome.bind_ok, Outcome.pure_ok] at ha hb
    obtain ⟨-, -, rfl⟩ := ha
    obtain ⟨-, -, rfl⟩ := hb
    exact .refl _
  | literal t data =>
    simp only [inferType, Outcome.bind_ok] at ha hb
    obtain ⟨-, -, ha⟩ := ha
    obtain ⟨-, -, hb⟩ := hb
    cases ha.symm.trans hb
    exact .refl _
  | ret =>
    simp only [inferType, Outcome.bind_ok, tensorInputs_ok, Outcome.pure_ok] at ha hb
    obtain ⟨ts, ⟨-, rfl⟩, -, -, rfl⟩ := ha
    obtain ⟨us, ⟨-, rfl⟩, -, -, rfl⟩ := hb
    exact .ofElements (forall₂_alike_of_map h)
  | dot quantized =>
    refine alike_of_twoTensors (f := fun is => Dot.output quantized is modules) (fun h => ?_)
      (Dot.output_congr quantized) h ha hb
    simp only [Dot.output, Outcome.bind_ok, Prod.exists, twoTensors_ok] at h
    obtain ⟨t, u, h, -⟩ := h
    exact ⟨t, u, h⟩
  | conv c =>
    refine alike_of_twoTensors (f := fun is => c.output is modules) (fun h => ?_)
      c.output_congr h ha hb
    simp only [Conv.output, Outcome.bind_ok, Prod.exists, twoTensors_ok] at h
    obtain ⟨t, u, h, -⟩ := h
    exact ⟨t, u, h⟩
  | attention scale =>
    rw [inferType] at ha hb
    exact Attention.output_alike h ha hb
  | unary f =>
    refine mapTensor_alike (fun {t u t' u'} htu ht hu => ?_) h ha hb
    rw [Outcome.lift_checked_ok] at ht hu
    obtain ⟨htd, hts⟩ := TensorType.standard_alike ht
    obtain ⟨hud, hus⟩ := TensorType.standard_alike hu
    exact ⟨htd.trans (htu.1.trans hud.symm), hts.trans (htu.2.trans hus.symm)⟩
  | binary f =>
    refine alike_of_twoTensors (f := fun is => binaryOutput _ is modules) (fun h => ?_)
      binaryOutput_congr h ha hb
    simp only [binaryOutput, Outcome.bind_ok, Prod.exists, twoTensors_ok] at h
    obtain ⟨t, u, h, -⟩ := h
    exact ⟨t, u, h⟩
  | select =>
    refine alike_of_threeTensors (f := fun is => selectOutput _ is modules) (fun h => ?_)
      selectOutput_congr h ha hb
    simp only [selectOutput, Outcome.bind_ok, Prod.exists, threeTensors_ok] at h
    obtain ⟨t, u, v, h, -⟩ := h
    exact ⟨t, u, v, h⟩
  | clip =>
    refine alike_of_threeTensors (f := fun is => clipOutput _ is modules) (fun h => ?_)
      clipOutput_congr h ha hb
    simp only [clipOutput, Outcome.bind_ok, Prod.exists, threeTensors_ok] at h
    obtain ⟨t, u, v, h, -⟩ := h
    exact ⟨t, u, v, h⟩
  | convert target =>
    refine mapTensor_alike (fun {t u t' u'} htu ht hu => ?_) h ha hb
    rw [Outcome.lift_checked_ok] at ht hu
    obtain ⟨htd, hts⟩ := TensorType.standard_alike ht
    obtain ⟨hud, hus⟩ := TensorType.standard_alike hu
    exact ⟨htd.trans hud.symm, hts.trans (htu.2.trans hus.symm)⟩
  | quantize =>
    rw [inferType] at ha hb
    exact scaledOutput_alike (fun _ hz => by rw [hz]) h ha hb
  | dequantize =>
    rw [inferType] at ha hb
    exact scaledOutput_alike (fun ht _ => ht.1) h ha hb
  | softmax axis =>
    refine mapTensor_alike (fun {t u t' u'} htu ht hu => ?_) h ha hb
    simp only [Outcome.ite_ok, Outcome.refuse_bind_ok, and_false, false_or,
      Outcome.lift_checked_ok] at ht hu
    obtain ⟨htd, hts⟩ := TensorType.standard_alike ht.2
    obtain ⟨hud, hus⟩ := TensorType.standard_alike hu.2
    exact ⟨htd.trans (htu.1.trans hud.symm), hts.trans (htu.2.trans hus.symm)⟩
  | reduce f axes =>
    refine mapTensor_alike (fun {t u t' u'} htu ht hu => ?_) h ha hb
    simp only [Outcome.bind_ok, Outcome.lift_checked_ok] at ht hu
    obtain ⟨dims, hdims, ht⟩ := ht
    obtain ⟨dims', hdims', hu⟩ := hu
    rw [htu.2, hdims'] at hdims
    cases hdims
    obtain ⟨htd, hts⟩ := TensorType.standard_alike ht
    obtain ⟨hud, hus⟩ := TensorType.standard_alike hu
    exact ⟨htd.trans (htu.1.trans hud.symm), hts.trans hus.symm⟩
  | reindex view => exact mapTensor_alike (fun htu => view.output_alike htu) h ha hb
  | tupleElem index =>
    rw [inferType] at ha hb
    exact tupleElemOutput_alike h ha hb
  | pointwise =>
    rw [inferType] at ha hb
    exact pointwiseOutput_alike h ha hb
  | splitFusedReduce axes =>
    simp only [inferType, Outcome.bind_ok, singleModule_ok] at ha hb
    obtain ⟨ts, -, body, rfl, ha⟩ := ha
    obtain ⟨us, -, _, he, hb⟩ := hb
    cases he
    rw [callOutput_unique ha hb]
    exact .refl _
  | offload anchor =>
    simp only [inferType, Outcome.bind_ok, singleModule_ok] at ha hb
    obtain ⟨ts, -, body, rfl, -, -, ha⟩ := ha
    obtain ⟨us, -, _, he, -, -, hb⟩ := hb
    cases he
    rw [callOutput_unique ha hb]
    exact .refl _

end

end OffloadFusion
