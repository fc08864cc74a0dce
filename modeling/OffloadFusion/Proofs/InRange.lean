import OffloadFusion.Proofs.Arithmetic
import OffloadFusion.Proofs.Axes
import OffloadFusion.Proofs.Faulting
import OffloadFusion.Proofs.Layouts

/-!
# Type rules stay in range

Type rules read and edit shapes and strides at positions that come from attributes, and divide by
attributes. **They do so in range**: over any arithmetic, a type rule only faults where the
arithmetic does, so over unbounded numbers it gives a type or refuses (`Op.inferType_in_range`).

* `Arithmetic.Faults`: the faults of an arithmetic. No position is out of range in one.
* `Arithmetic.delivers_view`, `Arithmetic.delivers_inferType`: the rules, whose results have a
  stride for each axis if their operands do.
-/

namespace OffloadFusion

open Typing

/-! ## Positions -/

namespace Checked

variable {α : Type} {P : Fault → Prop} {xs : List α} {x : α} {i : Nat}

theorem faultsIn_get (h : i < xs.length) : FaultsIn P (get xs i) := by
  rw [get_of_lt h]
  exact faultsIn_ok

theorem faultsIn_set (h : i < xs.length) : FaultsIn P (set xs i x) := by
  rw [set_ok.mpr ⟨h, rfl⟩]
  exact faultsIn_ok

theorem faultsIn_erase (h : i < xs.length) : FaultsIn P (erase xs i) := by
  rw [erase_ok.mpr ⟨h, rfl⟩]
  exact faultsIn_ok

end Checked

/-! ## Operands -/

theorem Typing.count_of_tensorInputs {op : String} {inputs : List ValueType} {accepted : Interval}
    {ts : List TensorType} (h : tensorInputs op inputs accepted = .ok ts) :
    accepted.least ≤ ts.length ∧ ts.length ≤ accepted.most := by
  obtain ⟨hcount, rfl⟩ := tensorInputs_ok.mp h
  rwa [List.length_map, Interval.contains, Bool.and_eq_true, decide_eq_true_eq, decide_eq_true_eq]
    at hcount

/-! ## Matrices -/

@[simp] theorem Dot.faultsIn_outputShape {P : Fault → Prop} {op : String} {lhs rhs : Shape} :
    FaultsIn P (outputShape op lhs rhs) := by
  unfold outputShape checkRank
  by_cases hl : lhs.length < 2
  · simp [hl]
  by_cases hr : rhs.length < 2
  · simp [hl, hr]
  have hl₁ : FaultsIn P (Checked.get lhs (lhs.length - 1)) := Checked.faultsIn_get (by omega)
  have hl₂ : FaultsIn P (Checked.get lhs (lhs.length - 2)) := Checked.faultsIn_get (by omega)
  have hr₁ : FaultsIn P (Checked.get rhs (rhs.length - 1)) := Checked.faultsIn_get (by omega)
  have hr₂ : FaultsIn P (Checked.get rhs (rhs.length - 2)) := Checked.faultsIn_get (by omega)
  simp [hl₁, hl₂, hr₁, hr₂]

namespace Conv

variable {c : Conv} {s : Shape}

theorem checkRank_ok {u : Unit} : checkRank c s = .ok u ↔ s.length = c.spatial + 2 := by
  rw [checkRank, Outcome.ite_ok]
  simp

theorem faultsIn_checkRank {P : Fault → Prop} : FaultsIn P (checkRank c s) := by
  unfold checkRank
  split <;> simp

end Conv

/-! ## Views -/

namespace Reindex

variable {P : Fault → Prop} {t : TensorType} {axes starts ends : List Nat} {source s : Shape}
  {axis : Nat} {target : Shape}

theorem faultsIn_sliceAxis {first last : Nat} :
    FaultsIn P (sliceAxis source s axis first last) := by
  unfold sliceAxis
  by_cases h : axis ≥ s.length
  · simp [h]
  · have hlt : axis < s.length := Nat.lt_of_not_le h
    simp [Checked.faultsIn_get hlt, Checked.faultsIn_set hlt]

theorem faultsIn_slice : FaultsIn P (sliceOutput axes starts ends t) := by
  unfold sliceOutput
  have hloop : FaultsIn P ((axes.zip (starts.zip ends)).foldlM
      (fun (shape : Shape) (e : Nat × Nat × Nat) => sliceAxis t.shape shape e.1 e.2.1 e.2.2)
      t.shape) :=
    faultsIn_foldlM (I := fun _ => True) (fun _ _ _ _ => faultsIn_sliceAxis) (fun _ _ => trivial)
      trivial
  simp [hloop]

@[simp] theorem faultsIn_checkAxes {seen : List Nat} : FaultsIn P (checkAxes s seen axes) := by
  induction axes generalizing seen with
  | nil => exact faultsIn_pure
  | cons axis axes ih => simp [checkAxes, ih]

theorem faultsIn_transpose (h : t.Ranked) : FaultsIn P (transposeMarked axes t) := by
  rw [transposeMarked_eq, transposeOutput]
  by_cases hrank : axes.length ≠ t.rank
  · simp [hrank]
  · simp only [if_neg hrank, faultsIn_bind, faultsIn_checkAxes, true_and]
    intro _ hcheck
    have hlt := fun a ha => ((checkAxes_ok hcheck).2 a ha).1
    refine ⟨faultsIn_lift_checked.mpr (faultsIn_mapM fun a ha => Checked.faultsIn_get (hlt a ha)),
      fun _ _ => ⟨faultsIn_lift_checked.mpr (faultsIn_mapM fun a ha =>
        Checked.faultsIn_get ((hlt a ha).trans_eq h.symm)), fun _ _ => faultsIn_pure⟩⟩

theorem faultsIn_multibroadcast (h : t.Ranked) : FaultsIn P (multibroadcastAt target t) := by
  unfold multibroadcastAt
  by_cases hrank : t.rank > target.length
  · simp [hrank]
  · simp only [if_neg hrank, faultsIn_bind, faultsIn_pure, implies_true, and_true]
    refine faultsIn_mapM fun axis haxis => ?_
    have hlt : axis < t.shape.length := List.mem_range.mp haxis
    have htarget : target.length - t.rank + axis < target.length := by
      have hle : t.shape.length ≤ target.length := Nat.le_of_not_lt hrank
      rw [TensorType.rank, Shape.rank]
      omega
    simp [broadcastStride, Checked.faultsIn_get hlt, Checked.faultsIn_get (hlt.trans_eq h.symm),
      Checked.faultsIn_get htarget]

/-- Axes are taken out in descending order, so those that follow are still there. -/
theorem faultsIn_dropAxes (hsorted : axes.Pairwise (· > ·)) (h : t.Ranked)
    (hlt : ∀ a ∈ axes, a < source.length → a < t.shape.length) :
    FaultsIn P (axes.foldlM (dropAxis source) t) := by
  induction axes generalizing t with
  | nil => exact faultsIn_pure
  | cons axis axes ih =>
    obtain ⟨hgt, hsorted⟩ := List.pairwise_cons.mp hsorted
    obtain ⟨haxis, hlt⟩ := List.forall_mem_cons.mp hlt
    rw [List.foldlM_cons, faultsIn_bind]
    refine ⟨?_, fun u hu => ?_⟩
    · unfold dropAxis
      by_cases hin : axis ≥ source.length
      · simp [hin]
      · have hin' : axis < source.length := Nat.lt_of_not_le hin
        simp [hin, Checked.faultsIn_get hin', Checked.faultsIn_erase (haxis hin'),
          Checked.faultsIn_erase ((haxis hin').trans_eq h.symm)]
    · obtain ⟨-, hin, -, rfl⟩ := dropAxis_ok.mp hu
      refine ih hsorted (h.eraseIdx hin) fun a ha _ => ?_
      have := hgt a ha
      rw [List.length_eraseIdx_of_lt hin]
      omega

theorem faultsIn_squeeze (h : t.Ranked) : FaultsIn P (squeezeAt axes t) := by
  rw [squeezeAt_eq]
  exact faultsIn_dropAxes (pairwise_descending _) h fun _ _ ha => ha

end Reindex

/-! ## Arithmetic -/

namespace Arithmetic

variable {A : Arithmetic} {t : TensorType} {dtype : DType} {s : Shape}

variable (A) in
/-- The faults of the arithmetic. -/
def Faults (e : Fault) : Prop := (∃ n, A.size n = .error e) ∨ ∃ i, A.stride i = .error e

theorem Faults.overflow {e : Fault} (h : A.Faults e) : e = .overflow := by
  obtain ⟨n, hn⟩ | ⟨i, hi⟩ := h
  · obtain h | h := A.size_cases n
    · rw [h] at hn
      cases hn
    · rw [h] at hn
      cases hn
      rfl
  · obtain h | h := A.stride_cases i
    · rw [h] at hi
      cases hi
    · rw [h] at hi
      cases hi
      rfl

theorem not_faults_unbounded (e : Fault) : ¬ unbounded.Faults e := by
  rintro (⟨n, hn⟩ | ⟨i, hi⟩)
  · cases hn
  · cases hi

theorem size_ok {n k : Nat} (h : A.size n = .ok k) : k = n := by
  obtain h' | h' := A.size_cases n
  · rw [h'] at h
    cases h
    rfl
  · rw [h'] at h
    cases h

@[simp] theorem faultsIn_size {n : Nat} : FaultsIn A.Faults (A.size n) := fun _ h => .inl ⟨n, h⟩

@[simp] theorem faultsIn_stride {i : Int} : FaultsIn A.Faults (A.stride i) := fun _ h => .inr ⟨i, h⟩

@[simp] theorem faultsIn_add {a b : Nat} : FaultsIn A.Faults (A.add a b) := faultsIn_size

@[simp] theorem faultsIn_mul {a b : Nat} : FaultsIn A.Faults (A.mul a b) := faultsIn_size

@[simp] theorem faultsIn_product {ns : List Nat} : FaultsIn A.Faults (A.product ns) :=
  faultsIn_foldlM (I := fun _ => True) (fun _ _ _ _ => faultsIn_mul) (fun _ _ => trivial) trivial

@[simp] theorem faultsIn_sum {ns : List Nat} : FaultsIn A.Faults (A.sum ns) :=
  faultsIn_foldlM (I := fun _ => True) (fun _ _ _ _ => faultsIn_add) (fun _ _ => trivial) trivial

/-! ### Tensors -/

theorem delivers_rowMajorFrom :
    Delivers A.Faults (fun r => r.1.length = s.length) (A.rowMajorFrom s) := by
  induction s with
  | nil => exact ⟨faultsIn_ok, fun _ h => by cases h; rfl⟩
  | cons d s ih =>
    rw [rowMajorFrom, delivers_bind]
    refine ⟨ih.faults, fun r hr => delivers_bind.mpr ⟨faultsIn_stride, fun _ _ => ?_⟩⟩
    exact delivers_pure.mpr (congrArg (· + 1) (ih.result r hr))

theorem delivers_standard : Delivers A.Faults TensorType.Ranked (A.standard dtype s) := by
  refine delivers_bind.mpr ⟨by simp [delivers_rowMajorFrom.faults], fun strides h => ?_⟩
  obtain ⟨r, hr, rfl⟩ := Outcome.map_ok.mp h
  exact delivers_pure.mpr (delivers_rowMajorFrom.result r hr)

@[simp] theorem faultsIn_acceptsLayout : FaultsIn A.Faults (A.acceptsLayout t) := by
  simp [acceptsLayout, isPacked, elementSpace, faultsIn_mapM]

@[simp] theorem faultsIn_checkLayouts {op : String} {ts : List TensorType} :
    FaultsIn A.Faults (A.checkLayouts op ts) :=
  faultsIn_forM fun e _ => by simp

/-! ### Convolution -/

theorem faultsIn_groupsFit {c : Conv} {input weights : Shape} (hinput : 2 ≤ input.length)
    (hweights : 2 ≤ weights.length) : FaultsIn A.Faults (A.groupsFit c input weights) := by
  unfold groupsFit
  by_cases hgroup : c.group = 0
  · simp [hgroup]
  · have hmod : ∀ {n : Nat}, FaultsIn A.Faults (Checked.mod n c.group) := fun {n} => by
      rw [Checked.mod, if_neg hgroup]
      exact faultsIn_ok
    have hchannels : FaultsIn A.Faults (Checked.get input 1) := Checked.faultsIn_get (by omega)
    have hfilters : FaultsIn A.Faults (Checked.get weights 0) := Checked.faultsIn_get (by omega)
    have hdepth : FaultsIn A.Faults (Checked.get weights 1) := Checked.faultsIn_get (by omega)
    simp [hchannels, hfilters, hdepth, hmod]

theorem faultsIn_outputExtent {c : Conv} {input weights : Shape} {i : Nat} (hi : i < c.spatial)
    (hinput : input.length = c.spatial + 2) (hweights : weights.length = c.spatial + 2)
    (hstride : c.stride.length = c.spatial) (hdilation : c.dilation.length = c.spatial) :
    FaultsIn A.Faults (A.outputExtent c input weights i) := by
  have hdiv : ∀ {m n : Nat}, ¬ (n = 0) → FaultsIn A.Faults (Checked.div m n) := fun hn => by
    rw [Checked.div, if_neg hn]
    exact faultsIn_ok
  have hpadding : FaultsIn A.Faults (Checked.get c.padding i) := Checked.faultsIn_get hi
  have hdilation : FaultsIn A.Faults (Checked.get c.dilation i) := Checked.faultsIn_get (by omega)
  have hstride : FaultsIn A.Faults (Checked.get c.stride i) := Checked.faultsIn_get (by omega)
  have hinput : FaultsIn A.Faults (Checked.get input (i + 2)) := Checked.faultsIn_get (by omega)
  have hweights : FaultsIn A.Faults (Checked.get weights (i + 2)) := Checked.faultsIn_get (by omega)
  simp +contextual [outputExtent, hpadding, hdilation, hstride, hinput, hweights, hdiv, not_or]

/-! ### Views -/

theorem delivers_placeStrides {target strides : Strides} {axis : Nat}
    (h : axis + strides.length ≤ target.length) :
    Delivers A.Faults (fun placed => placed.length = target.length)
      (A.placeStrides target axis strides) := by
  have hkeep : ∀ {placed : Strides} {e : Int × Nat} {placed' : Strides},
      placed.length = target.length →
      (do Checked.set placed (← A.add axis e.2) e.1 : Checked Strides) = .ok placed' →
        placed'.length = target.length := by
    intro placed e placed' hlen hok
    obtain ⟨k, -, hset⟩ := Outcome.bind_ok.mp hok
    obtain ⟨-, rfl⟩ := Checked.set_ok.mp hset
    exact List.length_set.trans hlen
  refine ⟨faultsIn_foldlM (I := fun placed => placed.length = target.length)
    (fun placed hlen e he => ?_) hkeep rfl, fun placed hok => Outcome.foldlM_keep hkeep rfl hok⟩
  refine faultsIn_bind.mpr ⟨faultsIn_add, fun k hk => Checked.faultsIn_set ?_⟩
  obtain rfl := size_ok hk
  have hlt := (List.mem_zipIdx' he).1
  omega

theorem faultsIn_fits {axis : Nat} {target : Shape} : FaultsIn A.Faults (A.fits axis s target) := by
  refine faultsIn_bind.mpr ⟨faultsIn_add, fun n hn => ?_⟩
  obtain rfl := size_ok hn
  by_cases h : axis + s.length > target.length
  · simp [h]
  · rw [if_neg h]
    refine faultsIn_allM fun e he => faultsIn_bind.mpr ⟨Checked.faultsIn_get ?_, fun _ _ => ?_⟩
    · have hlt := (List.mem_zipIdx' he).1
      omega
    · exact faultsIn_pure

theorem le_of_fits {axis : Nat} {target : Shape} (h : A.fits axis s target = .ok true) :
    axis + s.length ≤ target.length := by
  simp only [fits, Outcome.bind_ok, Outcome.ite_ok, Outcome.pure_ok, Bool.false_eq_true, and_false,
    false_or] at h
  obtain ⟨n, hn, hle, -⟩ := h
  obtain rfl := size_ok hn
  omega

theorem delivers_broadcast {axis : Nat} {target : Shape} (h : t.Ranked) :
    Delivers A.Faults TensorType.Ranked (A.broadcast axis target t) := by
  refine delivers_bind.mpr ⟨faultsIn_lift_checked.mpr faultsIn_fits, fun fitting hfits => ?_⟩
  cases fitting with
  | false => exact delivers_refuse_bind
  | true =>
    have hroom := le_of_fits (Outcome.lift_checked_ok.mp hfits)
    have hzero : (Reindex.zeroStrides target).length = target.length := List.length_map ..
    have hplace : Delivers A.Faults
        (fun placed => placed.length = (Reindex.zeroStrides target).length)
        (A.placeStrides (Reindex.zeroStrides target) axis t.strides) :=
      delivers_placeStrides (by rw [hzero, h]; exact hroom)
    refine delivers_bind.mpr ⟨faultsIn_lift_checked.mpr hplace.faults, fun strides hok => ?_⟩
    exact delivers_pure.mpr ((hplace.result strides (Outcome.lift_checked_ok.mp hok)).trans hzero)

theorem delivers_insertAxis {source : Shape} {rank axis : Nat} (h : t.Ranked) :
    Delivers A.Faults TensorType.Ranked (A.insertAxis source rank t axis) := by
  unfold insertAxis
  by_cases hin : axis ≥ rank ∨ axis > t.shape.length
  · rw [if_pos hin]
    exact delivers_refuse_bind
  · have hle : axis ≤ t.shape.length := by omega
    have hle' : axis ≤ t.strides.length := h ▸ hle
    have hput : ∀ stride : Int, Delivers A.Faults TensorType.Ranked
        (do
          let shape ← Checked.insert t.shape axis 1
          let strides ← Checked.insert t.strides axis stride
          return { t with shape, strides } : Outcome TypeError TensorType) := by
      intro stride
      rw [Checked.insert_ok.mpr ⟨hle, rfl⟩, Checked.insert_ok.mpr ⟨hle', rfl⟩]
      exact delivers_pure.mpr (h.insertIdx hle)
    rw [if_neg hin]
    by_cases hlt : axis < t.shape.length
    · rw [if_pos hlt]
      refine delivers_bind.mpr ⟨faultsIn_lift_checked.mpr
        (Checked.faultsIn_get (hlt.trans_eq h.symm)), fun _ _ => ?_⟩
      refine delivers_bind.mpr ⟨faultsIn_lift_checked.mpr (Checked.faultsIn_get hlt), fun _ _ => ?_⟩
      exact delivers_bind.mpr
        ⟨faultsIn_lift_checked.mpr faultsIn_stride, fun stride _ => hput stride⟩
    · rw [if_neg hlt]
      exact hput 1

theorem delivers_unsqueeze {axes : List Nat} (h : t.Ranked) :
    Delivers A.Faults TensorType.Ranked (A.unsqueeze axes t) :=
  ⟨faultsIn_foldlM (I := TensorType.Ranked) (fun _ hv _ _ => (delivers_insertAxis hv).faults)
      (fun hv hok => (delivers_insertAxis hv).result _ hok) h,
    fun _ hok => Outcome.foldlM_keep (P := TensorType.Ranked)
      (fun hv hround => (delivers_insertAxis hv).result _ hround) h hok⟩

theorem delivers_flatten {axis : Nat} :
    Delivers A.Faults TensorType.Ranked (A.flatten axis t) := by
  unfold flatten
  by_cases h : axis > t.rank
  · rw [if_pos h]
    exact delivers_refuse_bind
  · have hle : axis ≤ t.shape.length := Nat.le_of_not_lt h
    simp [if_neg h, Checked.upTo, Checked.onward, if_pos hle, delivers_standard]

/-- **A view is taken in range**, and its result has a stride for each axis. -/
theorem delivers_view {v : Reindex} (h : t.Ranked) :
    Delivers A.Faults TensorType.Ranked (A.view v t) := by
  have hkept : ∀ {v : Reindex} {u}, v.keepsMemory = true → v.output t = .ok u → u.Ranked :=
    fun hkeeps hu => Reindex.ranked_output hkeeps h hu
  cases v with
  | slice axes starts ends =>
    refine ⟨Reindex.faultsIn_slice, fun u hu => ?_⟩
    exact hkept (v := .slice axes starts ends) rfl hu
  | transpose axes =>
    refine ⟨Reindex.faultsIn_transpose h, fun u hu => ?_⟩
    rw [view, Reindex.transposeMarked_eq] at hu
    exact hkept (v := .transpose axes) rfl hu
  | broadcast axis target => exact delivers_broadcast h
  | multibroadcast target =>
    refine ⟨Reindex.faultsIn_multibroadcast h, fun u hu => ?_⟩
    rw [view, Reindex.multibroadcastAt_eq] at hu
    exact hkept (v := .multibroadcast target) rfl hu
  | contiguous => exact delivers_lift_checked.mpr delivers_standard
  | reshape target => simp [view, reshape, delivers_standard]
  | squeeze axes =>
    refine ⟨Reindex.faultsIn_squeeze h, fun u hu => ?_⟩
    rw [view, Reindex.squeezeAt_eq] at hu
    exact hkept (v := .squeeze axes) rfl hu
  | unsqueeze axes => exact delivers_unsqueeze h
  | flatten axis => exact delivers_flatten

end Arithmetic

/-! ## Operations -/

namespace Op

variable {P : Fault → Prop} {op : String} {inputs : List ValueType} {modules : List Signature}

theorem faultsIn_reducedShape {shape : Shape} {axes : List Nat} :
    FaultsIn P (reducedShape shape axes) := by
  refine faultsIn_foldlM (I := fun _ => True) (fun reduced _ axis _ => ?_) (fun _ _ => trivial)
    trivial
  by_cases h : axis ≥ reduced.length
  · simp [h]
  · have hlt : axis < reduced.length := Nat.lt_of_not_le h
    simp [h, Checked.faultsIn_set hlt]

theorem delivers_mapTensor {rule : TensorType → Typed TensorType} {Q : ValueType → Prop}
    (h : ∀ t, inputs = [.tensor t] → Delivers P (fun u => Q (.tensor u)) (rule t)) :
    Delivers P Q (mapTensor op inputs modules rule) := by
  refine delivers_bind.mpr ⟨faultsIn_oneTensor, fun t ht => ?_⟩
  refine delivers_bind.mpr ⟨faultsIn_noModules, fun _ _ => ?_⟩
  have hrule := h t (oneTensor_ok.mp ht)
  exact delivers_bind.mpr ⟨hrule.faults, fun u hu => delivers_pure.mpr (hrule.result u hu)⟩

end Op

theorem ValueType.ranked_tensor {t : TensorType} : (ValueType.tensor t).Ranked ↔ t.Ranked :=
  List.forall_mem_singleton

/-- The types that an operation carries. -/
def Op.carried : Op → List TensorType
  | .param _ t | .literal t _ => [t]
  | _ => []

namespace Arithmetic

variable {A : Arithmetic} {op : String} {inputs : List ValueType} {modules : List Signature}
  {dtype : DType} {s : Shape}

theorem delivers_standardValue : Delivers A.Faults ValueType.Ranked (A.standardValue dtype s) := by
  refine delivers_bind.mpr ⟨faultsIn_lift_checked.mpr delivers_standard.faults, fun t ht => ?_⟩
  exact delivers_pure.mpr (ValueType.ranked_tensor.mpr (delivers_standard.result t
    (Outcome.lift_checked_ok.mp ht)))

theorem delivers_dot {quantized : Bool} :
    Delivers A.Faults ValueType.Ranked (A.dot quantized inputs modules) := by
  simp [dot, delivers_standardValue]

theorem delivers_conv {c : Conv} :
    Delivers A.Faults ValueType.Ranked (A.conv c inputs modules) := by
  refine delivers_bind.mpr ⟨faultsIn_twoTensors, fun ⟨input, weights⟩ _ => ?_⟩
  refine delivers_bind.mpr ⟨faultsIn_noModules, fun _ _ => ?_⟩
  refine delivers_bind.mpr ⟨faultsIn_sameDType, fun _ _ => ?_⟩
  refine delivers_bind.mpr ⟨Conv.faultsIn_checkRank, fun _ hinput => ?_⟩
  refine delivers_bind.mpr ⟨Conv.faultsIn_checkRank, fun _ hweights => ?_⟩
  have hinput := Conv.checkRank_ok.mp hinput
  have hweights := Conv.checkRank_ok.mp hweights
  by_cases hlengths : c.stride.length ≠ c.spatial ∨ c.dilation.length ≠ c.spatial
  · simp [if_pos hlengths]
  · obtain ⟨hstride, hdilation⟩ := not_or.mp hlengths
    have hfit : FaultsIn A.Faults (A.groupsFit c input.shape weights.shape) :=
      faultsIn_groupsFit (by omega) (by omega)
    have hbatch : FaultsIn A.Faults (Checked.get input.shape 0) := Checked.faultsIn_get (by omega)
    have hfeatures : FaultsIn A.Faults (Checked.get weights.shape 0) :=
      Checked.faultsIn_get (by omega)
    have hextents : FaultsIn A.Faults
        ((List.range c.spatial).mapM (A.outputExtent c input.shape weights.shape)) :=
      faultsIn_mapM fun i hi => faultsIn_outputExtent (List.mem_range.mp hi) hinput hweights
        (not_not.mp hstride) (not_not.mp hdilation)
    simp [if_neg hlengths, hfit, hbatch, hfeatures, hextents, delivers_standardValue]

theorem delivers_attentionOf {a b v : TensorType} {mask : List TensorType} :
    Delivers A.Faults ValueType.Ranked (A.attentionOf a b mask v) := by
  simp [attentionOf, delivers_standardValue, delivers_standard.faults]

theorem delivers_attention :
    Delivers A.Faults ValueType.Ranked (A.attention inputs modules) := by
  refine delivers_bind.mpr ⟨faultsIn_tensorInputs, fun ts hts => ?_⟩
  refine delivers_bind.mpr ⟨faultsIn_noModules, fun _ _ => ?_⟩
  have hcount := count_of_tensorInputs hts
  obtain _ | ⟨a, _ | ⟨b, _ | ⟨c, _ | ⟨d, _ | ⟨e, _ | ⟨f, ts⟩⟩⟩⟩⟩⟩ := ts
  any_goals exact delivers_attentionOf
  all_goals simp only [List.length_cons, List.length_nil] at hcount; omega

theorem delivers_binary : Delivers A.Faults ValueType.Ranked (A.binary op inputs modules) := by
  simp [binary, delivers_standardValue]

theorem delivers_select : Delivers A.Faults ValueType.Ranked (A.select op inputs modules) := by
  simp [select, delivers_standardValue]

theorem delivers_clip : Delivers A.Faults ValueType.Ranked (A.clip op inputs modules) := by
  simp [clip, delivers_standardValue]

theorem delivers_scaled {choose : TensorType → Option TensorType → DType} :
    Delivers A.Faults ValueType.Ranked (A.scaled op inputs modules choose) := by
  refine delivers_bind.mpr ⟨faultsIn_tensorInputs, fun ts hts => ?_⟩
  refine delivers_bind.mpr ⟨faultsIn_noModules, fun _ _ => ?_⟩
  have hcount := count_of_tensorInputs hts
  obtain _ | ⟨x, _ | ⟨scale, zero⟩⟩ := ts
  · cases hcount.1
  · simp at hcount
  · simp [delivers_standardValue]

theorem delivers_pointwise :
    Delivers A.Faults ValueType.Ranked (A.pointwise op inputs modules) := by
  refine delivers_bind.mpr ⟨faultsIn_tensorInputs, fun ts hts => ?_⟩
  refine delivers_bind.mpr ⟨faultsIn_singleModule, fun body _ => ?_⟩
  have hsome : ts ≠ [] := List.length_pos_iff.mp (count_of_tensorInputs hts).1
  refine delivers_bind.mpr ⟨faultsIn_lift_checked.mpr (faultsIn_nonempty hsome), fun _ _ => ?_⟩
  refine delivers_bind.mpr ⟨faultsIn_sameDims, fun dims _ => ?_⟩
  refine delivers_ite.mpr ⟨fun _ => delivers_refuse_bind, fun _ => ?_⟩
  refine delivers_bind.mpr ⟨Op.faultsIn_matchDTypes, fun _ _ => ?_⟩
  split
  · exact delivers_standardValue
  · exact delivers_refuse

theorem delivers_call {P : Fault → Prop} {ts : List TensorType} {body : Signature}
    (hbody : singleModule op modules = .ok body) :
    Delivers P (fun a => (∀ s ∈ modules, ∀ t ∈ s.returns, t.Ranked) → a.Ranked)
      (Op.callOutput op ts body) := by
  refine ⟨Op.faultsIn_callOutput, fun a ha hmodules => ?_⟩
  obtain rfl := singleModule_ok.mp hbody
  obtain ⟨-, -, rfl⟩ := Op.callOutput_ok.mp ha
  rw [ValueType.Ranked, Signature.output, ValueType.elements_ofElements]
  exact hmodules body List.mem_cons_self

/-- **A type rule faults only where the arithmetic does**, where a view is of an operand with a
stride for each axis. Its result has one for each axis if what it takes over from operands,
attributes and modules does. -/
theorem delivers_inferType (A : Arithmetic) (modules : List Signature) (op : Op)
    (hview : ∀ v, op = .reindex v → ∀ a ∈ inputs, a.Ranked) :
    Delivers A.Faults (fun a => (∀ a ∈ inputs, a.Ranked) → (∀ t ∈ op.carried, t.Ranked) →
      (∀ s ∈ modules, ∀ t ∈ s.returns, t.Ranked) → a.Ranked) (A.inferType op inputs modules) := by
  have hkeep : ∀ {x : Typed ValueType}, Delivers A.Faults ValueType.Ranked x →
      Delivers A.Faults (fun a => (∀ a ∈ inputs, a.Ranked) → (∀ t ∈ op.carried, t.Ranked) →
        (∀ s ∈ modules, ∀ t ∈ s.returns, t.Ranked) → a.Ranked) x :=
    fun h => h.imp fun _ ha _ _ _ => ha
  have hstandard : ∀ {dtype s}, Delivers A.Faults (fun u => (ValueType.tensor u).Ranked)
      (liftM (A.standard dtype s) : Outcome TypeError TensorType) :=
    delivers_lift_checked.mpr (delivers_standard.imp fun _ => ValueType.ranked_tensor.mpr)
  cases op with
  | param name t =>
    refine delivers_bind.mpr ⟨Op.faultsIn_nullary, fun _ _ => delivers_pure.mpr fun _ h _ => ?_⟩
    exact ValueType.ranked_tensor.mpr (h t List.mem_cons_self)
  | literal t data =>
    refine delivers_bind.mpr ⟨Op.faultsIn_nullary, fun _ _ => ?_⟩
    have hliteral : Delivers A.Faults (· = .tensor t) (A.literal data t) := by simp [literal]
    refine hliteral.imp fun a ha _ h _ => ?_
    exact ha ▸ ValueType.ranked_tensor.mpr (h t List.mem_cons_self)
  | ret =>
    refine delivers_bind.mpr ⟨faultsIn_tensorInputs, fun ts hts => ?_⟩
    refine delivers_bind.mpr ⟨faultsIn_noModules, fun _ _ => ?_⟩
    refine delivers_pure.mpr fun hinputs _ _ => ?_
    obtain ⟨-, rfl⟩ := tensorInputs_ok.mp hts
    rw [ValueType.Ranked, ValueType.elements_ofElements]
    exact fun t ht => ValueType.ranked_tensor.mp (hinputs _ (List.mem_map_of_mem ht))
  | dot quantized => exact hkeep delivers_dot
  | conv c => exact hkeep delivers_conv
  | attention scale => exact hkeep delivers_attention
  | unary f => exact hkeep (Op.delivers_mapTensor fun _ _ => hstandard)
  | binary f => exact hkeep delivers_binary
  | select => exact hkeep delivers_select
  | clip => exact hkeep delivers_clip
  | convert target => exact hkeep (Op.delivers_mapTensor fun _ _ => hstandard)
  | quantize =>
    rw [inferType]
    exact hkeep delivers_scaled
  | dequantize =>
    rw [inferType]
    exact hkeep delivers_scaled
  | softmax axis =>
    exact hkeep (Op.delivers_mapTensor fun _ _ =>
      delivers_ite.mpr ⟨fun _ => delivers_refuse_bind, fun _ => hstandard⟩)
  | reduce f axes =>
    exact hkeep (Op.delivers_mapTensor fun _ _ =>
      delivers_bind.mpr ⟨Op.faultsIn_reducedShape, fun _ _ => hstandard⟩)
  | reindex v =>
    refine hkeep (Op.delivers_mapTensor fun t ht => ?_)
    have hranked : t.Ranked :=
      ValueType.ranked_tensor.mp (hview v rfl _ (by rw [ht]; exact List.mem_cons_self))
    exact (delivers_view hranked).imp fun _ => ValueType.ranked_tensor.mpr
  | tupleElem index =>
    refine ⟨Op.faultsIn_tupleElemOutput, fun a ha hinputs _ _ => ?_⟩
    obtain ⟨ts, t, rfl, -, ht, rfl⟩ := Op.tupleElemOutput_ok.mp ha
    exact ValueType.ranked_tensor.mpr (hinputs _ List.mem_cons_self t (List.mem_of_getElem? ht))
  | pointwise => exact hkeep delivers_pointwise
  | splitFusedReduce axes =>
    refine delivers_bind.mpr ⟨faultsIn_tensorInputs, fun ts _ => ?_⟩
    refine delivers_bind.mpr ⟨faultsIn_singleModule, fun body hbody => ?_⟩
    exact (delivers_call hbody).imp fun _ h _ _ => h
  | offload anchor =>
    refine delivers_bind.mpr ⟨faultsIn_tensorInputs, fun ts _ => ?_⟩
    refine delivers_bind.mpr ⟨faultsIn_singleModule, fun body hbody => ?_⟩
    refine delivers_bind.mpr ⟨faultsIn_checkLayouts, fun _ _ => ?_⟩
    exact (delivers_call hbody).imp fun _ h _ _ => h

end Arithmetic

namespace Op

variable {inputs : List ValueType}

/-- **Type rules neither leave a list nor divide by zero.** Over unbounded numbers, type inference
on operands with a stride for each axis gives a type or refuses; over those of 64 bits, where it is
`Op.inferType`, it faults by overflow only. What it gives has a stride for each axis, if the types
in the attributes and those that the modules return do. -/
theorem inferType_in_range (modules : List Signature) (op : Op)
    (hinputs : ∀ a ∈ inputs, a.Ranked) :
    ((∃ a, Arithmetic.unbounded.inferType op inputs modules = .ok a) ∨
        ∃ e, Arithmetic.unbounded.inferType op inputs modules = .error (.refused e)) ∧
      Arithmetic.machine.inferType op inputs modules = op.inferType inputs modules ∧
      (∀ e, op.inferType inputs modules = .error (.fault e) → e = .overflow) ∧
      ((∀ t ∈ op.carried, t.Ranked) → (∀ s ∈ modules, ∀ t ∈ s.returns, t.Ranked) →
        ∀ a, Arithmetic.unbounded.inferType op inputs modules = .ok a ∨
          op.inferType inputs modules = .ok a → a.Ranked) := by
  have hunbounded := Arithmetic.unbounded.delivers_inferType modules op fun _ _ => hinputs
  have hmachine := Arithmetic.machine.delivers_inferType modules op fun _ _ => hinputs
  rw [Arithmetic.machine_inferType] at hmachine
  refine ⟨?_, Arithmetic.machine_inferType .., fun e he => (hmachine.faults e he).overflow,
    fun hcarried hmodules a ha => ?_⟩
  · cases h : Arithmetic.unbounded.inferType op inputs modules with
    | ok a => exact .inl ⟨a, rfl⟩
    | error e =>
      cases e with
      | refused reason => exact .inr ⟨reason, rfl⟩
      | fault e => exact absurd (hunbounded.faults e h) (Arithmetic.not_faults_unbounded e)
  · obtain ha | ha := ha
    · exact hunbounded.result a ha hinputs hcarried hmodules
    · exact hmachine.result a ha hinputs hcarried hmodules

/-- A reshape of 2⁸⁰ elements: over unbounded numbers it has a type, over 64 bits it overflows. -/
theorem inferType_in_range_huge :
    (∃ a, Arithmetic.unbounded.inferType (.reindex (.reshape [2 ^ 80]))
        [.tensor ⟨.f32, [2 ^ 40, 2 ^ 40], [2 ^ 40, 1]⟩] [] = .ok a ∧ a.Ranked) ∧
      ∃ e, (Op.reindex (.reshape [2 ^ 80])).inferType
        [.tensor ⟨.f32, [2 ^ 40, 2 ^ 40], [2 ^ 40, 1]⟩] [] = .error (.fault e) ∧ e = .overflow := by
  have hinputs : ∀ a ∈ [ValueType.tensor ⟨.f32, [2 ^ 40, 2 ^ 40], [2 ^ 40, 1]⟩], a.Ranked := by
    decide
  obtain ⟨-, -, hfault, hranked⟩ :=
    inferType_in_range [] (.reindex (.reshape [2 ^ 80])) hinputs
  have hok : Arithmetic.unbounded.inferType (.reindex (.reshape [2 ^ 80]))
      [.tensor ⟨.f32, [2 ^ 40, 2 ^ 40], [2 ^ 40, 1]⟩] [] = .ok (.tensor ⟨.f32, [2 ^ 80], [1]⟩) := by
    decide
  have herror : (Op.reindex (.reshape [2 ^ 80])).inferType
      [.tensor ⟨.f32, [2 ^ 40, 2 ^ 40], [2 ^ 40, 1]⟩] [] = .error (.fault .overflow) := by
    decide
  exact ⟨⟨_, hok, hranked (by decide) (by decide) _ (.inl hok)⟩, _, herror, hfault _ herror⟩

end Op

end OffloadFusion
