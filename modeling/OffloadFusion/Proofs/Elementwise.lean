import OffloadFusion.Proofs.Alignment
import OffloadFusion.Proofs.Restriding

/-!
# Elementwise operations

Operations that act index by index take operands of the same dimensions, whatever these are, and
give a row-major tensor. So **what types on scalars types over any dimensions**
(`Op.IsElementwise.inferType_over`).
-/

namespace OffloadFusion

open Typing

variable {op : Op} {name : String} {inputs : List ValueType} {modules : List Signature}
  {type : ValueType} {dims : Shape} {strides : Strides}

/-- The second tensor has the element type of the first one, and the dimensions. -/
def TensorType.Over (dims : Shape) (t u : TensorType) : Prop := u.dtype = t.dtype ∧ u.shape = dims

/-! ## Type rules -/

namespace Op

theorem mapTensor_ok {rule : TensorType → Typed TensorType} :
    mapTensor name inputs modules rule = .ok type ↔
      ∃ t u, inputs = [.tensor t] ∧ modules = [] ∧ rule t = .ok u ∧ type = .tensor u := by
  simp only [mapTensor, Outcome.bind_ok, oneTensor_ok, noModules_ok, Outcome.pure_ok]
  constructor
  · rintro ⟨t, rfl, -, rfl, u, hu, rfl⟩
    exact ⟨t, u, rfl, rfl, hu, rfl⟩
  · rintro ⟨t, u, rfl, rfl, hu, rfl⟩
    exact ⟨t, rfl, ⟨⟩, rfl, u, hu, rfl⟩

theorem binaryOutput_ok : binaryOutput name inputs modules = .ok type ↔
    ∃ t u, inputs = [.tensor t, .tensor u] ∧ modules = [] ∧ u.shape = t.shape ∧
      u.dtype = t.dtype ∧ standardValue t.dtype t.shape = .ok type := by
  simp only [binaryOutput, Outcome.bind_ok, Prod.exists, twoTensors_ok, noModules_ok, sameDims_ok,
    sameDType_ok, List.forall_mem_singleton]
  constructor
  · rintro ⟨t, u, rfl, -, rfl, _, ⟨hs, rfl⟩, -, hd, hv⟩
    exact ⟨t, u, rfl, rfl, hs, hd, hv⟩
  · rintro ⟨t, u, rfl, rfl, hs, hd, hv⟩
    exact ⟨t, u, rfl, ⟨⟩, rfl, _, ⟨hs, rfl⟩, ⟨⟩, hd, hv⟩

theorem selectOutput_ok : selectOutput name inputs modules = .ok type ↔
    ∃ c t u, inputs = [.tensor c, .tensor t, .tensor u] ∧ modules = [] ∧ t.shape = c.shape ∧
      u.shape = c.shape ∧ c.dtype = .bool ∧ u.dtype = t.dtype ∧
      standardValue t.dtype c.shape = .ok type := by
  simp only [selectOutput, Outcome.bind_ok, Prod.exists, threeTensors_ok, noModules_ok, sameDims_ok,
    sameDType_ok, hasDType_ok, List.mem_cons, List.not_mem_nil, or_false, forall_eq_or_imp,
    forall_eq]
  constructor
  · rintro ⟨c, t, u, rfl, -, rfl, _, ⟨⟨ht, hu⟩, rfl⟩, -, hc, -, hd, hv⟩
    exact ⟨c, t, u, rfl, rfl, ht, hu, hc, hd, hv⟩
  · rintro ⟨c, t, u, rfl, rfl, ht, hu, hc, hd, hv⟩
    exact ⟨c, t, u, rfl, ⟨⟩, rfl, _, ⟨⟨ht, hu⟩, rfl⟩, ⟨⟩, hc, ⟨⟩, hd, hv⟩

theorem clipOutput_ok : clipOutput name inputs modules = .ok type ↔
    ∃ x l u, inputs = [.tensor x, .tensor l, .tensor u] ∧ modules = [] ∧ l.shape = x.shape ∧
      u.shape = x.shape ∧ l.dtype = x.dtype ∧ u.dtype = x.dtype ∧
      standardValue x.dtype x.shape = .ok type := by
  simp only [clipOutput, Outcome.bind_ok, Prod.exists, threeTensors_ok, noModules_ok, sameDims_ok,
    sameDType_ok, List.mem_cons, List.not_mem_nil, or_false, forall_eq_or_imp, forall_eq]
  constructor
  · rintro ⟨x, l, u, rfl, -, rfl, _, ⟨⟨hl, hu⟩, rfl⟩, -, ⟨hdl, hdu⟩, hv⟩
    exact ⟨x, l, u, rfl, rfl, hl, hu, hdl, hdu, hv⟩
  · rintro ⟨x, l, u, rfl, rfl, hl, hu, hdl, hdu, hv⟩
    exact ⟨x, l, u, rfl, ⟨⟩, rfl, _, ⟨⟨hl, hu⟩, rfl⟩, ⟨⟩, ⟨hdl, hdu⟩, hv⟩

theorem scaledOutput_ok {dtype : TensorType → Option TensorType → DType} :
    scaledOutput name inputs modules dtype = .ok type ↔
      ∃ x scale zero, inputs = (x :: scale :: zero).map .tensor ∧ modules = [] ∧
        (Interval.mk 2 3).contains inputs.length ∧ (∀ t ∈ scale :: zero, t.shape = x.shape) ∧
        standardValue (dtype scale zero.head?) x.shape = .ok type := by
  simp only [scaledOutput, Outcome.bind_ok, tensorInputs_ok, noModules_ok]
  constructor
  · rintro ⟨ts, ⟨hcount, rfl⟩, -, rfl, h⟩
    split at h
    · next x scale zero =>
      simp only [Outcome.bind_ok, sameDims_ok] at h
      obtain ⟨_, ⟨hs, rfl⟩, hv⟩ := h
      exact ⟨x, scale, zero, rfl, rfl, hcount, hs, hv⟩
    · cases h
  · rintro ⟨x, scale, zero, rfl, rfl, hcount, hs, hv⟩
    refine ⟨_, ⟨hcount, rfl⟩, ⟨⟩, rfl, ?_⟩
    simp only [Outcome.bind_ok, sameDims_ok]
    exact ⟨_, ⟨hs, rfl⟩, hv⟩

/-- The result depends on the operands by the element types of the scale and the zero point. -/
theorem scaledOutput_over {dtype : TensorType → Option TensorType → DType}
    (hdtype : ∀ {s s' zero zero'}, TensorType.Over dims s s' →
      List.Forall₂ (TensorType.Over dims) zero zero' → dtype s' zero'.head? = dtype s zero.head?)
    (hdims : dims.rowMajor = .ok strides) (h : scaledOutput name inputs modules dtype = .ok type) :
    modules = [] ∧ ∃ ts r, inputs = ts.map .tensor ∧ type = .tensor r ∧ ∀ us,
      List.Forall₂ (TensorType.Over dims) ts us →
        scaledOutput name (us.map .tensor) [] dtype = .ok (.tensor ⟨r.dtype, dims, strides⟩) := by
  obtain ⟨x, scale, zero, rfl, rfl, hcount, -, hr⟩ := scaledOutput_ok.mp h
  obtain ⟨_, -, rfl⟩ := standardValue_ok.mp hr
  refine ⟨rfl, _, _, rfl, rfl, fun us hus => ?_⟩
  have hlen := hus.length_eq
  obtain _ | ⟨hx, _ | ⟨hscale, hzero⟩⟩ := hus
  refine scaledOutput_ok.mpr ⟨_, _, _, rfl, rfl, ?_, fun t ht => ?_,
    standardValue_ok.mpr ⟨strides, hx.2.symm ▸ hdims, ?_⟩⟩
  · rw [List.length_map] at hcount ⊢
    rwa [← hlen]
  · obtain ⟨_, -, ht⟩ := forall₂_exists (List.Forall₂.cons hscale hzero).flip ht
    exact ht.2.trans hx.2.symm
  · rw [hdtype hscale hzero, hx.2]

end Op

/-- The operation is elementwise and has no body of its own. -/
def Op.IsElementwise (op : Op) : Prop := op.pattern = .elementwise ∧ op ≠ .pointwise

instance (op : Op) : Decidable op.IsElementwise :=
  inferInstanceAs (Decidable (op.pattern = .elementwise ∧ op ≠ .pointwise))

namespace Op.IsElementwise

theorem isBoundary (h : op.IsElementwise) : op.isBoundary = false := by
  obtain ⟨hpattern, -⟩ := h
  cases op with
  | param | literal | ret => cases hpattern
  | _ => rfl

theorem isParam (h : op.IsElementwise) : op.isParam = false := by
  have := h.isBoundary
  rw [Op.isBoundary, Bool.or_eq_false_iff, Bool.or_eq_false_iff] at this
  exact this.1.1

theorem isReturn (h : op.IsElementwise) : op.isReturn = false := by
  have := h.isBoundary
  rw [Op.isBoundary, Bool.or_eq_false_iff] at this
  exact this.2

end Op.IsElementwise

/-- **An elementwise operation can be applied over any dimensions.** -/
theorem Op.IsElementwise.inferType_over (h : op.IsElementwise) (hdims : dims.rowMajor = .ok strides)
    (hinfer : op.inferType inputs modules = .ok type) :
    modules = [] ∧ ∃ ts r, inputs = ts.map .tensor ∧ type = .tensor r ∧ ∀ us,
      List.Forall₂ (TensorType.Over dims) ts us →
        op.inferType (us.map .tensor) [] = .ok (.tensor ⟨r.dtype, dims, strides⟩) := by
  have hstandard : ∀ {dtype dtype' : DType} {dims'}, dtype' = dtype → dims' = dims →
      TensorType.standard dtype' dims' = .ok ⟨dtype, dims, strides⟩ := by
    rintro dtype _ _ rfl rfl
    exact standard_ok.mpr ⟨strides, hdims, rfl⟩
  have hvalue : ∀ {dtype dtype' : DType} {dims'}, dtype' = dtype → dims' = dims →
      standardValue dtype' dims' = .ok (.tensor ⟨dtype, dims, strides⟩) := by
    rintro dtype _ _ rfl rfl
    exact standardValue_ok.mpr ⟨strides, hdims, rfl⟩
  obtain ⟨hpattern, hpointwise⟩ := h
  cases op with
  | unary f =>
    obtain ⟨t, r, rfl, rfl, hr, rfl⟩ := mapTensor_ok.mp hinfer
    refine ⟨rfl, [t], r, rfl, rfl, fun us hus => ?_⟩
    obtain _ | ⟨hu, _ | _⟩ := hus
    have hd := (TensorType.standard_alike (Outcome.lift_checked_ok.mp hr)).1
    exact mapTensor_ok.mpr ⟨_, _, rfl, rfl,
      Outcome.lift_checked_ok.mpr (hstandard (hu.1.trans hd.symm) hu.2), rfl⟩
  | convert target =>
    obtain ⟨t, r, rfl, rfl, hr, rfl⟩ := mapTensor_ok.mp hinfer
    refine ⟨rfl, [t], r, rfl, rfl, fun us hus => ?_⟩
    obtain _ | ⟨hu, _ | _⟩ := hus
    have hd := (TensorType.standard_alike (Outcome.lift_checked_ok.mp hr)).1
    exact mapTensor_ok.mpr ⟨_, _, rfl, rfl,
      Outcome.lift_checked_ok.mpr (hstandard hd.symm hu.2), rfl⟩
  | binary f =>
    obtain ⟨t, t', rfl, rfl, -, hd, hr⟩ := binaryOutput_ok.mp hinfer
    obtain ⟨_, -, rfl⟩ := standardValue_ok.mp hr
    refine ⟨rfl, [t, t'], _, rfl, rfl, fun us hus => ?_⟩
    obtain _ | ⟨hu, _ | ⟨hu', _ | _⟩⟩ := hus
    exact binaryOutput_ok.mpr ⟨_, _, rfl, rfl, hu'.2.trans hu.2.symm,
      hu'.1.trans (hd.trans hu.1.symm), hvalue hu.1 hu.2⟩
  | select =>
    obtain ⟨c, t, t', rfl, rfl, -, -, hc, hd, hr⟩ := selectOutput_ok.mp hinfer
    obtain ⟨_, -, rfl⟩ := standardValue_ok.mp hr
    refine ⟨rfl, [c, t, t'], _, rfl, rfl, fun us hus => ?_⟩
    obtain _ | ⟨hv, _ | ⟨hu, _ | ⟨hu', _ | _⟩⟩⟩ := hus
    exact selectOutput_ok.mpr ⟨_, _, _, rfl, rfl, hu.2.trans hv.2.symm, hu'.2.trans hv.2.symm,
      hv.1.trans hc, hu'.1.trans (hd.trans hu.1.symm), hvalue hu.1 hv.2⟩
  | clip =>
    obtain ⟨x, t, t', rfl, rfl, -, -, hd, hd', hr⟩ := clipOutput_ok.mp hinfer
    obtain ⟨_, -, rfl⟩ := standardValue_ok.mp hr
    refine ⟨rfl, [x, t, t'], _, rfl, rfl, fun us hus => ?_⟩
    obtain _ | ⟨hv, _ | ⟨hu, _ | ⟨hu', _ | _⟩⟩⟩ := hus
    exact clipOutput_ok.mpr ⟨_, _, _, rfl, rfl, hu.2.trans hv.2.symm, hu'.2.trans hv.2.symm,
      hu.1.trans (hd.trans hv.1.symm), hu'.1.trans (hd'.trans hv.1.symm), hvalue hv.1 hv.2⟩
  | quantize =>
    simp only [inferType] at hinfer ⊢
    refine scaledOutput_over (fun _ hzero => ?_) hdims hinfer
    cases hzero with
    | nil => rfl
    | cons h _ => exact h.1
  | dequantize =>
    simp only [inferType] at hinfer ⊢
    refine scaledOutput_over (fun hscale _ => ?_) hdims hinfer
    exact hscale.1
  | pointwise => exact absurd rfl hpointwise
  | param | literal | ret | dot | conv | attention | softmax | reduce | reindex | tupleElem
  | splitFusedReduce | offload => cases hpattern

end OffloadFusion
