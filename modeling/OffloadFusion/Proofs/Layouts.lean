import OffloadFusion.Proofs.Elementwise

/-!
# Type inference does not read layouts

Two lists of operands and two lists of signatures that agree up to strides have the same types to
infer: **either both have a result or neither has, and the results agree up to strides**
(`Op.inferType_iff_of_alike`). Only an offload call looks at the layout of its operands, to accept
it, and only inserting an axis computes with strides, which can leave their range.

* `Reindex.output_follows`: views rearrange strides, one for each axis.
* `…_transfer`: a rule that has a result on the first lists has it on the second ones.
  `Op.inferType_rigid`: mostly it is the same result.
* **`Op.inferType_mixed`**: where each operand may have one of two types, no mix of them fails.
-/

namespace OffloadFusion

open Typing

/-- The signatures agree up to strides. -/
structure Signature.Alike (s s' : Signature) : Prop where
  params : List.Forall₂ TensorType.Alike s.params s'.params
  returns : List.Forall₂ TensorType.Alike s.returns s'.returns

theorem Signature.Alike.refl (s : Signature) : s.Alike s :=
  ⟨List.forall₂_same.mpr fun t _ => .refl t, List.forall₂_same.mpr fun t _ => .refl t⟩

theorem Signature.Alike.symm {s s' : Signature} (h : s.Alike s') : s'.Alike s :=
  ⟨h.params.flip.imp fun _ _ => TensorType.Alike.symm,
    h.returns.flip.imp fun _ _ => TensorType.Alike.symm⟩

theorem Signature.Alike.output {s s' : Signature} (h : s.Alike s') : s.output.Alike s'.output :=
  .ofElements h.returns

/-- There is a stride for each axis of each tensor. -/
def ValueType.Ranked (a : ValueType) : Prop := ∀ t ∈ a.elements, t.Ranked

instance (a : ValueType) : Decidable a.Ranked :=
  inferInstanceAs (Decidable (∀ t ∈ a.elements, t.Ranked))

/-- An offload call takes each tensor as it lies in memory. -/
def ValueType.Placed (a : ValueType) : Prop := ∀ t ∈ a.elements, Op.acceptsLayout t = .ok true

instance (a : ValueType) : Decidable a.Placed :=
  inferInstanceAs (Decidable (∀ t ∈ a.elements, Op.acceptsLayout t = .ok true))

/-! ## Views -/

section

variable {ε α β γ : Type} {e : ε}

theorem Outcome.ne_error_of_bind {x : Except ε α} {f : α → Except ε β}
    (h : x >>= f ≠ .error e) : x ≠ .error e := by
  rintro rfl
  exact h rfl

/-- A loop follows another if each of its rounds does, as long as an error stays away. -/
theorem Outcome.foldlM_follows {R : α → β → Prop} {f : α → γ → Except ε α}
    {g : β → γ → Except ε β} (hstep : ∀ {a b c a'}, R a b → f a c = .ok a' →
      g b c ≠ .error e → ∃ b', g b c = .ok b' ∧ R a' b') {cs : List γ} {a a' : α} {b : β}
    (h : R a b) (ha : cs.foldlM f a = .ok a') (hb : cs.foldlM g b ≠ .error e) :
    ∃ b', cs.foldlM g b = .ok b' ∧ R a' b' := by
  induction cs generalizing a b with
  | nil =>
    cases ha
    exact ⟨b, rfl, h⟩
  | cons c cs ih =>
    rw [List.foldlM_cons, Outcome.bind_ok] at ha
    obtain ⟨a₁, ha₁, ha⟩ := ha
    rw [List.foldlM_cons] at hb
    obtain ⟨b₁, hb₁, h₁⟩ := hstep h ha₁ (ne_error_of_bind hb)
    rw [hb₁] at hb
    obtain ⟨b', hb', h'⟩ := ih h₁ ha hb
    exact ⟨b', by rw [List.foldlM_cons, Outcome.bind_ok]; exact ⟨b₁, hb₁, hb'⟩, h'⟩

end

namespace Reindex

open TensorType

variable {t u t' : TensorType} {source : Shape} {axis rank : Nat}

theorem dropAxis_follows (h : t.Restrided u) (ht : dropAxis source t axis = .ok t') :
    ∃ u', dropAxis source u axis = .ok u' ∧ t'.Restrided u' := by
  suffices hok : ∃ u', dropAxis source u axis = .ok u' ∧ u'.Ranked by
    obtain ⟨u', hu, hranked⟩ := hok
    exact ⟨u', hu, dropAxis_alike h.alike ht hu, hranked⟩
  obtain ⟨hunit, hlt, -⟩ := dropAxis_ok.mp ht
  rw [h.alike.2] at hlt
  exact ⟨_, dropAxis_ok.mpr ⟨hunit, hlt, hlt.trans_eq h.ranked.symm, rfl⟩, h.ranked.eraseIdx hlt⟩

theorem insertAxis_total (hranked : u.Ranked) (haxis : axis < rank) (hle : axis ≤ u.shape.length)
    (hrange : insertAxis source rank u axis ≠ .error (.fault .overflow)) :
    ∃ u', insertAxis source rank u axis = .ok u' ∧ u'.Ranked := by
  have hle' : axis ≤ u.strides.length := hranked ▸ hle
  have hin : ¬ (axis ≥ rank ∨ axis > u.shape.length) := by omega
  by_cases hlt : axis < u.shape.length
  · have hlt' : axis < u.strides.length := hranked ▸ hlt
    have hs := Checked.get_of_lt hlt'
    have hd := Checked.get_of_lt hlt
    cases hstride : Checked.stride (u.strides[axis] * Checked.signed u.shape[axis]) with
    | error e =>
      obtain rfl : e = .overflow := by
        unfold Checked.stride at hstride
        split at hstride <;> cases hstride
        rfl
      refine absurd ?_ hrange
      simp only [insertAxis, if_neg hin, if_pos hlt, hs, hd]
      change (liftM (Checked.stride (u.strides[axis] * Checked.signed u.shape[axis])) >>= _ :
        Outcome TypeError TensorType) = _
      rw [hstride]
      rfl
    | ok stride =>
      simp only [insertAxis, Outcome.ite_ok, Outcome.bind_ok, Outcome.refuse_ok, false_and,
        exists_false, and_false, false_or, Outcome.lift_checked_ok, Outcome.pure_ok,
        Checked.insert_ok]
      exact ⟨_, ⟨hin, .inl ⟨hlt, _, hs, _, hd, stride, hstride, _, ⟨hle, rfl⟩, _, ⟨hle', rfl⟩,
        rfl⟩⟩, hranked.insertIdx hle⟩
  · simp only [insertAxis, Outcome.ite_ok, Outcome.bind_ok, Outcome.refuse_ok, false_and,
      exists_false, and_false, false_or, Outcome.lift_checked_ok, Outcome.pure_ok,
      Checked.insert_ok]
    exact ⟨_, ⟨hin, .inr ⟨hlt, _, rfl, _, ⟨hle, rfl⟩, _, ⟨hle', rfl⟩, rfl⟩⟩,
      hranked.insertIdx hle⟩

/-- An axis can be inserted in any layout, unless its stride is out of range. -/
theorem insertAxis_follows (h : t.Restrided u) (ht : insertAxis source rank t axis = .ok t')
    (hrange : insertAxis source rank u axis ≠ .error (.fault .overflow)) :
    ∃ u', insertAxis source rank u axis = .ok u' ∧ t'.Restrided u' := by
  obtain ⟨haxis, hle, -⟩ := insertAxis_ok ht
  obtain ⟨u', hu, hranked⟩ := insertAxis_total h.ranked haxis (h.alike.2 ▸ hle) hrange
  exact ⟨u', hu, insertAxis_alike h.alike ht hu, hranked⟩

/-- **A view that can be taken of a tensor can be taken of it in any layout**, unless a stride
leaves its range. -/
theorem output_follows (view : Reindex) (h : t.Restrided u) (ht : view.output t = .ok t')
    (hrange : view.output u ≠ .error (.fault .overflow)) :
    ∃ u', view.output u = .ok u' ∧ t'.Restrided u' := by
  cases hview : view.isRegrouping with
  | false => exact output_restrided hview h ht
  | true =>
    cases view with
    | squeeze axes =>
      rw [output, squeezeOutput, h.alike.2] at ht
      rw [output, squeezeOutput] at hrange ⊢
      exact Outcome.foldlM_follows (f := dropAxis u.shape) (g := dropAxis u.shape)
        (fun h ht _ => dropAxis_follows h ht) h ht hrange
    | unsqueeze axes =>
      rw [output, unsqueezeOutput, TensorType.rank, h.alike.2] at ht
      rw [output, unsqueezeOutput, TensorType.rank] at hrange ⊢
      exact Outcome.foldlM_follows insertAxis_follows h ht hrange
    | flatten axis =>
      have hsame : flattenOutput axis t = flattenOutput axis u := by
        unfold flattenOutput TensorType.rank
        rw [h.alike.1, h.alike.2]
      have hu : flattenOutput axis u = .ok t' := hsame.symm.trans ht
      refine ⟨t', hu, .refl t', ?_⟩
      simp only [flattenOutput, Outcome.ite_ok, Outcome.bind_ok, Outcome.refuse_ok, false_and,
        exists_false, and_false, false_or, Outcome.lift_checked_ok] at hu
      obtain ⟨-, _, -, _, -, hu⟩ := hu
      exact ranked_standard hu
    | _ => cases hview

end Reindex

/-! ## Operands and signatures -/

namespace Typing

variable {op : String} {inputs inputs' : List ValueType} {modules modules' : List Signature}
  {t u : TensorType} {ts us : List TensorType} {body body' : Signature} {a : ValueType} {x : Unit}

theorem tensorInputs_alike {accepted : Interval} (h : List.Forall₂ ValueType.Alike inputs inputs')
    (hok : tensorInputs op inputs accepted = .ok ts) :
    ∃ us, inputs' = us.map .tensor ∧ List.Forall₂ TensorType.Alike ts us ∧
      tensorInputs op inputs' accepted = .ok us := by
  obtain ⟨hcount, rfl⟩ := tensorInputs_ok.mp hok
  rw [h.length_eq] at hcount
  obtain ⟨us, rfl, hus⟩ := ValueType.alike_map_tensor.mp h
  exact ⟨us, rfl, hus, tensorInputs_ok.mpr ⟨hcount, rfl⟩⟩

theorem noModules_alike (h : List.Forall₂ Signature.Alike modules modules')
    (hok : noModules op modules = .ok x) : noModules op modules' = .ok x := by
  obtain rfl := noModules_ok.mp hok
  obtain rfl := List.forall₂_nil_left_iff.mp h
  exact hok

theorem singleModule_alike (h : List.Forall₂ Signature.Alike modules modules')
    (hok : singleModule op modules = .ok body) :
    ∃ body', modules' = [body'] ∧ body.Alike body' := by
  obtain rfl := singleModule_ok.mp hok
  obtain ⟨body', _, hbody, hnil, rfl⟩ := List.forall₂_cons_left_iff.mp h
  obtain rfl := List.forall₂_nil_left_iff.mp hnil
  exact ⟨body', rfl, hbody⟩

theorem matchParams_alike (hts : List.Forall₂ TensorType.Alike ts us) (hbody : body.Alike body')
    (hok : matchParams op ts body = .ok x) : matchParams op us body' = .ok x := by
  have hmatch : List.Forall₂ TensorType.Alike ts body.params :=
    (matchParams_ok.mp hok).imp fun _ _ h => TensorType.sameShape_iff.mp h
  have hback : List.Forall₂ TensorType.Alike us ts :=
    hts.flip.imp fun _ _ h => TensorType.Alike.symm h
  have htrans : ∀ {t u v : TensorType}, t.Alike u → u.Alike v → t.Alike v :=
    fun h h' => TensorType.Alike.trans h h'
  have hall := forall₂_comp @htrans (forall₂_comp @htrans hback hmatch) hbody.params
  exact matchParams_ok.mpr (hall.imp fun _ _ h => TensorType.sameShape_iff.mpr h)

theorem callOutput_alike (hts : List.Forall₂ TensorType.Alike ts us) (hbody : body.Alike body')
    (hok : Op.callOutput op ts body = .ok a) :
    ∃ b, Op.callOutput op us body' = .ok b ∧ a.Alike b := by
  simp only [Op.callOutput, Outcome.bind_ok, regionOutput_ok] at hok ⊢
  obtain ⟨x, hmatch, hreturns, rfl⟩ := hok
  refine ⟨_, ⟨x, matchParams_alike hts hbody hmatch, fun hnil => hreturns ?_, rfl⟩, hbody.output⟩
  exact List.forall₂_nil_right_iff.mp (hnil ▸ hbody.returns)

end Typing

/-! ## Results -/

section

variable {op : String} {inputs inputs' : List ValueType} {modules modules' : List Signature}
  {ts us : List TensorType} {body body' : Signature} {a : ValueType}

theorem Op.matchDTypes_congr {params params' : List TensorType}
    (hts : List.Forall₂ TensorType.Alike ts us)
    (hparams : List.Forall₂ TensorType.Alike params params') :
    matchDTypes op ts params = matchDTypes op us params' := by
  unfold matchDTypes
  induction hts generalizing params params' with
  | nil => rfl
  | @cons t u ts us ht _ ih =>
    cases hparams with
    | nil => rfl
    | @cons q q' params params' hq hparams =>
      by_cases hc : u.dtype = q'.dtype
      · simpa [ht.1, hq.1, hc] using ih hparams
      · simp [ht.1, hq.1, hc]

theorem Op.pointwiseOutput_transfer (h : List.Forall₂ ValueType.Alike inputs inputs')
    (hm : List.Forall₂ Signature.Alike modules modules')
    (ha : pointwiseOutput op inputs modules = .ok a) :
    pointwiseOutput op inputs' modules' = .ok a := by
  simp only [pointwiseOutput, Outcome.bind_ok] at ha ⊢
  obtain ⟨ts, hts, ⟨params, returns⟩, hbody, ⟨t, rest⟩, hsplit, dims, hdims, ha⟩ := ha
  obtain ⟨us, -, hlike, hus⟩ := tensorInputs_alike h hts
  obtain ⟨⟨params', returns'⟩, rfl, hparams, hreturns⟩ := singleModule_alike hm hbody
  cases hlike with
  | nil => cases hsplit
  | @cons t u ts us ht hrest =>
    cases hsplit
    have hlike := List.Forall₂.cons ht hrest
    refine ⟨_, hus, ⟨params', returns'⟩, rfl, (u, us), rfl, dims,
      (sameDims_congr op ht hrest).symm.trans hdims, ?_⟩
    rw [← hparams.length_eq, ← matchDTypes_congr hlike hparams, ← hlike.length_eq]
    simp only [Outcome.ite_ok, Outcome.bind_ok, Outcome.refuse_ok, false_and, exists_false,
      and_false, false_or] at ha ⊢
    obtain ⟨hcount, x, hdtypes, ha⟩ := ha
    refine ⟨hcount, x, hdtypes, ?_⟩
    split at ha
    · next r =>
      obtain ⟨r', _, hr, hnil, rfl⟩ := List.forall₂_cons_left_iff.mp hreturns
      obtain rfl := List.forall₂_nil_left_iff.mp hnil
      rw [hr.1] at ha
      exact ha
    · cases ha

theorem Op.scaledOutput_transfer {dtype : TensorType → Option TensorType → DType}
    (hdtype : ∀ {scale scale' zero zero'}, TensorType.Alike scale scale' →
      List.Forall₂ TensorType.Alike zero zero' →
        dtype scale zero.head? = dtype scale' zero'.head?)
    (h : List.Forall₂ ValueType.Alike inputs inputs')
    (hm : List.Forall₂ Signature.Alike modules modules')
    (ha : scaledOutput op inputs modules dtype = .ok a) :
    scaledOutput op inputs' modules' dtype = .ok a := by
  simp only [scaledOutput, Outcome.bind_ok] at ha ⊢
  obtain ⟨ts, hts, x, hnone, ha⟩ := ha
  obtain ⟨us, -, hlike, hus⟩ := tensorInputs_alike h hts
  refine ⟨us, hus, x, noModules_alike hm hnone, ?_⟩
  rcases hlike with _ | ⟨hx, _ | ⟨hscale, hzero⟩⟩
  · cases ha
  · cases ha
  · dsimp only at ha ⊢
    rw [← sameDims_congr op hx (.cons hscale hzero), ← hdtype hscale hzero]
    exact ha

theorem Attention.output_transfer (h : List.Forall₂ ValueType.Alike inputs inputs')
    (hm : List.Forall₂ Signature.Alike modules modules')
    (ha : Attention.output inputs modules = .ok a) : Attention.output inputs' modules' = .ok a := by
  simp only [Attention.output, Outcome.bind_ok] at ha ⊢
  obtain ⟨ts, hts, x, hnone, ha⟩ := ha
  obtain ⟨us, -, hlike, hus⟩ := tensorInputs_alike h hts
  refine ⟨us, hus, x, noModules_alike hm hnone, ?_⟩
  -- three, four or five operands; no other number is accepted
  rcases hlike with _ | ⟨h₁, _ | ⟨h₂, _ | ⟨h₃, _ | ⟨h₄, _ | ⟨h₅, _ | ⟨-, -⟩⟩⟩⟩⟩⟩
  · exact ha
  · exact ha
  · exact ha
  · exact (outputOf_congr h₁ h₂ .nil h₃).symm.trans ha
  · exact (outputOf_congr h₁ h₂ (.cons h₃ .nil) h₄).symm.trans ha
  · exact (outputOf_congr h₁ h₂ (.cons h₃ (.cons h₄ .nil)) h₅).symm.trans ha
  · exact ha

/-- A rule on one tensor finds a result for all layouts if its rule for tensors does. -/
theorem Op.mapTensor_transfer {rule : TensorType → Typed TensorType}
    (hrule : ∀ {t u t'}, t.Restrided u → rule t = .ok t' →
      rule u ≠ .error (.fault .overflow) → ∃ u', rule u = .ok u' ∧ t'.Alike u')
    (h : List.Forall₂ ValueType.Alike inputs inputs')
    (hm : List.Forall₂ Signature.Alike modules modules') (hranked : ∀ b ∈ inputs', b.Ranked)
    (ha : mapTensor op inputs modules rule = .ok a)
    (hrange : mapTensor op inputs' modules' rule ≠ .error (.fault .overflow)) :
    ∃ b, mapTensor op inputs' modules' rule = .ok b ∧ a.Alike b := by
  obtain ⟨t, t', rfl, rfl, ht, rfl⟩ := mapTensor_ok.mp ha
  obtain rfl := List.forall₂_nil_left_iff.mp hm
  obtain ⟨us, rfl, _ | ⟨htu, _ | _⟩⟩ := (@ValueType.alike_map_tensor _ [t]).mp h
  rename_i u
  have hu : u.Ranked := hranked (.tensor u) List.mem_cons_self u List.mem_cons_self
  have hcalc : mapTensor op [.tensor u] [] rule = do return .tensor (← rule u) := rfl
  obtain ⟨u', hu', hlike⟩ := hrule ⟨htu, hu⟩ ht fun he => hrange (by
    rw [List.map_singleton, hcalc, he]
    rfl)
  exact ⟨.tensor u', mapTensor_ok.mpr ⟨u, u', rfl, rfl, hu', rfl⟩,
    ValueType.alike_tensor.mpr ⟨u', rfl, hlike⟩⟩

theorem Op.mapTensor_congr {rule : TensorType → Typed TensorType}
    (hrule : ∀ {t u}, TensorType.Alike t u → rule t = rule u)
    (h : List.Forall₂ ValueType.Alike inputs inputs')
    (hm : List.Forall₂ Signature.Alike modules modules')
    (ha : mapTensor op inputs modules rule = .ok a) :
    mapTensor op inputs' modules' rule = .ok a := by
  obtain ⟨t, t', rfl, rfl, ht, rfl⟩ := mapTensor_ok.mp ha
  obtain rfl := List.forall₂_nil_left_iff.mp hm
  obtain ⟨us, rfl, _ | ⟨htu, _ | _⟩⟩ := (@ValueType.alike_map_tensor _ [t]).mp h
  exact mapTensor_ok.mpr ⟨_, t', rfl, rfl, (hrule htu).symm.trans ht, rfl⟩

theorem Op.tupleElemOutput_transfer {index : Nat} (h : List.Forall₂ ValueType.Alike inputs inputs')
    (hm : List.Forall₂ Signature.Alike modules modules')
    (ha : tupleElemOutput op index inputs modules = .ok a) :
    ∃ b, tupleElemOutput op index inputs' modules' = .ok b ∧ a.Alike b := by
  obtain ⟨ts, t, rfl, rfl, ht, rfl⟩ := tupleElemOutput_ok.mp ha
  obtain rfl := List.forall₂_nil_left_iff.mp hm
  obtain ⟨_, _, htuple, hnil, rfl⟩ := List.forall₂_cons_left_iff.mp h
  obtain rfl := List.forall₂_nil_left_iff.mp hnil
  obtain ⟨us, rfl, hus⟩ := ValueType.alike_tuple.mp htuple
  obtain ⟨hlt, rfl⟩ := List.getElem?_eq_some_iff.mp ht
  have hlt' : index < us.length := hus.length_eq ▸ hlt
  exact ⟨.tensor us[index],
    tupleElemOutput_ok.mpr ⟨us, _, rfl, rfl, List.getElem?_eq_getElem hlt', rfl⟩,
    ValueType.alike_tensor.mpr ⟨_, rfl, hus.get hlt hlt'⟩⟩

theorem Op.nullary_alike {x : Unit} (h : List.Forall₂ ValueType.Alike inputs inputs')
    (hm : List.Forall₂ Signature.Alike modules modules') (hok : nullary op inputs modules = .ok x) :
    nullary op inputs' modules' = .ok x := by
  simp only [nullary, Outcome.bind_ok] at hok ⊢
  obtain ⟨ts, hts, hnone⟩ := hok
  obtain ⟨us, -, -, hus⟩ := tensorInputs_alike h hts
  exact ⟨us, hus, noModules_alike hm hnone⟩

/-- The type that the operation gets follows the layouts of its operands or modules. -/
def Op.followsLayout : Op → Bool
  | ret | reindex _ | tupleElem _ | splitFusedReduce _ | offload _ => true
  | _ => false

theorem Op.inferType_rigid {op : Op} (hrigid : op.followsLayout = false)
    (h : List.Forall₂ ValueType.Alike inputs inputs')
    (hm : List.Forall₂ Signature.Alike modules modules')
    (ha : op.inferType inputs modules = .ok a) : op.inferType inputs' modules' = .ok a := by
  cases op with
  | param name t =>
    simp only [inferType, Outcome.bind_ok] at ha ⊢
    obtain ⟨x, hnullary, ha⟩ := ha
    exact ⟨x, nullary_alike h hm hnullary, ha⟩
  | literal t data =>
    simp only [inferType, Outcome.bind_ok] at ha ⊢
    obtain ⟨x, hnullary, ha⟩ := ha
    exact ⟨x, nullary_alike h hm hnullary, ha⟩
  | dot quantized =>
    have hok := ha
    simp only [inferType, Dot.output, Outcome.bind_ok, Prod.exists, twoTensors_ok] at hok
    obtain ⟨t, u, rfl, x, hnone, -⟩ := hok
    obtain rfl := noModules_ok.mp hnone
    obtain rfl := List.forall₂_nil_left_iff.mp hm
    obtain ⟨us, rfl, _ | ⟨ht, _ | ⟨hu, _ | _⟩⟩⟩ := (@ValueType.alike_map_tensor _ [t, u]).mp h
    exact (Dot.output_congr quantized ht hu).symm.trans ha
  | conv c =>
    have hok := ha
    simp only [inferType, Conv.output, Outcome.bind_ok, Prod.exists, twoTensors_ok] at hok
    obtain ⟨t, u, rfl, x, hnone, -⟩ := hok
    obtain rfl := noModules_ok.mp hnone
    obtain rfl := List.forall₂_nil_left_iff.mp hm
    obtain ⟨us, rfl, _ | ⟨ht, _ | ⟨hu, _ | _⟩⟩⟩ := (@ValueType.alike_map_tensor _ [t, u]).mp h
    exact (c.output_congr ht hu).symm.trans ha
  | binary f =>
    obtain ⟨t, u, rfl, rfl, -⟩ := binaryOutput_ok.mp ha
    obtain rfl := List.forall₂_nil_left_iff.mp hm
    obtain ⟨us, rfl, _ | ⟨ht, _ | ⟨hu, _ | _⟩⟩⟩ := (@ValueType.alike_map_tensor _ [t, u]).mp h
    exact (binaryOutput_congr ht hu).symm.trans ha
  | select =>
    obtain ⟨c, t, u, rfl, rfl, -⟩ := selectOutput_ok.mp ha
    obtain rfl := List.forall₂_nil_left_iff.mp hm
    obtain ⟨us, rfl, _ | ⟨hc, _ | ⟨ht, _ | ⟨hu, _ | _⟩⟩⟩⟩ :=
      (@ValueType.alike_map_tensor _ [c, t, u]).mp h
    exact (selectOutput_congr hc ht hu).symm.trans ha
  | clip =>
    obtain ⟨x, l, u, rfl, rfl, -⟩ := clipOutput_ok.mp ha
    obtain rfl := List.forall₂_nil_left_iff.mp hm
    obtain ⟨us, rfl, _ | ⟨hx, _ | ⟨hl, _ | ⟨hu, _ | _⟩⟩⟩⟩ :=
      (@ValueType.alike_map_tensor _ [x, l, u]).mp h
    exact (clipOutput_congr hx hl hu).symm.trans ha
  | attention scale => exact Attention.output_transfer h hm ha
  | unary f =>
    refine mapTensor_congr (fun htu => ?_) h hm ha
    rw [TensorType.asStandard, TensorType.asStandard, htu.1, htu.2]
  | convert target =>
    refine mapTensor_congr (fun htu => ?_) h hm ha
    rw [TensorType.withDType, TensorType.withDType, htu.2]
  | softmax axis =>
    refine mapTensor_congr (fun htu => ?_) h hm ha
    rw [TensorType.asStandard, TensorType.asStandard, TensorType.rank, TensorType.rank, htu.1,
      htu.2]
  | reduce f axes =>
    refine mapTensor_congr (fun htu => ?_) h hm ha
    rw [htu.1, htu.2]
  | quantize =>
    rw [inferType] at ha ⊢
    refine scaledOutput_transfer (fun _ hzero => ?_) h hm ha
    cases hzero with
    | nil => rfl
    | cons hz _ => exact hz.1
  | dequantize =>
    rw [inferType] at ha ⊢
    exact scaledOutput_transfer (fun hscale _ => hscale.1) h hm ha
  | pointwise => exact pointwiseOutput_transfer h hm ha
  | ret | reindex | tupleElem | splitFusedReduce | offload => cases hrigid

/-- **Wherever an operation types, it types in any layout**, as long as the strides of a view stay
in range and an offload call accepts the layout. -/
theorem Op.inferType_transfer {op : Op} (h : List.Forall₂ ValueType.Alike inputs inputs')
    (hm : List.Forall₂ Signature.Alike modules modules')
    (hranked : op.isReshaper = true → ∀ b ∈ inputs', b.Ranked)
    (hplaced : ∀ anchor, op = .offload anchor → ∀ b ∈ inputs', b.Placed)
    (ha : op.inferType inputs modules = .ok a)
    (hrange : op.isReshaper = true → op.inferType inputs' modules' ≠ .error (.fault .overflow)) :
    ∃ b, op.inferType inputs' modules' = .ok b ∧ a.Alike b := by
  cases hrigid : op.followsLayout with
  | false => exact ⟨a, inferType_rigid hrigid h hm ha, .refl a⟩
  | true =>
    cases op with
    | ret =>
      simp only [inferType, Outcome.bind_ok] at ha ⊢
      obtain ⟨ts, hts, x, hnone, ha⟩ := ha
      cases ha
      obtain ⟨us, -, hlike, hus⟩ := tensorInputs_alike h hts
      exact ⟨_, ⟨us, hus, x, noModules_alike hm hnone, rfl⟩, .ofElements hlike⟩
    | reindex view =>
      refine mapTensor_transfer (fun htu ht hu => ?_) h hm (hranked rfl) ha (hrange rfl)
      obtain ⟨u', hu', hlike⟩ := view.output_follows htu ht hu
      exact ⟨u', hu', hlike.alike⟩
    | tupleElem index => exact tupleElemOutput_transfer h hm ha
    | splitFusedReduce axes =>
      simp only [inferType, Outcome.bind_ok] at ha ⊢
      obtain ⟨ts, hts, body, hbody, ha⟩ := ha
      obtain ⟨us, -, hlike, hus⟩ := tensorInputs_alike h hts
      obtain ⟨body', rfl, hlike'⟩ := singleModule_alike hm hbody
      obtain ⟨b, hb, hab⟩ := callOutput_alike hlike hlike' ha
      exact ⟨b, ⟨us, hus, body', rfl, hb⟩, hab⟩
    | offload anchor =>
      simp only [inferType, Outcome.bind_ok] at ha ⊢
      obtain ⟨ts, hts, body, hbody, x, -, ha⟩ := ha
      obtain ⟨us, rfl, hlike, hus⟩ := tensorInputs_alike h hts
      obtain ⟨body', rfl, hlike'⟩ := singleModule_alike hm hbody
      obtain ⟨b, hb, hab⟩ := callOutput_alike hlike hlike' ha
      refine ⟨b, ⟨us, hus, body', rfl, x, checkLayouts_ok.mpr fun t ht => ?_, hb⟩, hab⟩
      exact hplaced anchor rfl (.tensor t) (List.mem_map_of_mem ht) t List.mem_cons_self
    | _ => cases hrigid

/-! ## Two layouts for each operand -/

section

variable {op : Op} {b : ValueType}

/-- The operation calls the module that it carries. -/
def Op.isCall : Op → Bool
  | splitFusedReduce _ | offload _ => true
  | _ => false

theorem Op.inferType_call (hcall : op.isCall = true) (ha : op.inferType inputs modules = .ok a) :
    ∃ ts body, inputs = ts.map .tensor ∧ modules = [body] ∧ callOutput op.name ts body = .ok a ∧
      ((∃ anchor, op = .offload anchor) → ∀ t ∈ ts, acceptsLayout t = .ok true) := by
  cases op with
  | splitFusedReduce axes =>
    simp only [inferType, Outcome.bind_ok, tensorInputs_ok, singleModule_ok] at ha
    obtain ⟨ts, ⟨-, hin⟩, body, hbody, ha⟩ := ha
    exact ⟨ts, body, hin, hbody, ha, by rintro ⟨_, ⟨⟩⟩⟩
  | offload anchor =>
    simp only [inferType, Outcome.bind_ok, tensorInputs_ok, singleModule_ok] at ha
    obtain ⟨ts, ⟨-, hin⟩, body, hbody, x, hlayouts, ha⟩ := ha
    exact ⟨ts, body, hin, hbody, ha, fun _ => checkLayouts_ok.mp hlayouts⟩
  | _ => cases hcall

/-- What an operation produces that calls a module is up to that module alone. -/
theorem Op.inferType_unique_of_isCall (hcall : op.isCall = true)
    (ha : op.inferType inputs modules = .ok a) (hb : op.inferType inputs' modules = .ok b) :
    a = b := by
  obtain ⟨ts, body, -, rfl, ha, -⟩ := inferType_call hcall ha
  obtain ⟨us, body', -, hbody, hb, -⟩ := inferType_call hcall hb
  cases hbody
  exact callOutput_unique ha hb

theorem Op.placed_of_offload {anchor : Op}
    (ha : (Op.offload anchor).inferType inputs modules = .ok a) : ∀ b ∈ inputs, b.Placed := by
  obtain ⟨ts, body, rfl, -, -, hts⟩ := inferType_call rfl ha
  intro b hb t ht
  obtain ⟨u, hu, rfl⟩ := List.mem_map.mp hb
  obtain rfl := List.mem_singleton.mp ht
  exact hts ⟨anchor, rfl⟩ t hu

/-- **Operands each of which has one of two types.** If an operation types on the first types and on
the second ones, which agree up to strides, it types on any mix of them. It gets one of its two
types then, unless it returns its operands. -/
theorem Op.inferType_mixed {α : Type} {xs : List α} {f g h : α → ValueType}
    (halike : ∀ x ∈ xs, (f x).Alike (g x)) (hmix : ∀ x ∈ xs, h x = f x ∨ h x = g x)
    (ha : op.inferType (xs.map f) modules = .ok a) (hb : op.inferType (xs.map g) modules = .ok b) :
    ∃ c, op.inferType (xs.map h) modules = .ok c ∧ (op.isReturn = false → c = a ∨ c = b) := by
  have hlike : List.Forall₂ ValueType.Alike (xs.map f) (xs.map h) := by
    rw [List.forall₂_map_left_iff, List.forall₂_map_right_iff]
    refine List.forall₂_same.mpr fun x hx => ?_
    obtain he | he := hmix x hx
    · exact he ▸ .refl _
    · exact he ▸ halike x hx
  have hsame : List.Forall₂ Signature.Alike modules modules :=
    List.forall₂_same.mpr fun s _ => .refl s
  have htransfer (hreshaper : op.isReshaper = false)
      (hplaced : ∀ anchor, op = .offload anchor → ∀ b ∈ xs.map h, b.Placed) :
      ∃ c, op.inferType (xs.map h) modules = .ok c := by
    obtain ⟨c, hc, -⟩ := inferType_transfer hlike hsame (fun hr => by cases hreshaper.symm.trans hr)
      hplaced ha fun hr => by cases hreshaper.symm.trans hr
    exact ⟨c, hc⟩
  -- a single operand has one of its two types
  have hsingle (t : ValueType) (hone : xs.map f = [t]) :
      ∃ c, op.inferType (xs.map h) modules = .ok c ∧ (op.isReturn = false → c = a ∨ c = b) := by
    obtain ⟨x, rfl, -⟩ := List.map_eq_singleton_iff.mp hone
    simp only [List.map_singleton] at ha hb ⊢
    obtain he | he := hmix x List.mem_cons_self
    · exact ⟨a, he ▸ ha, fun _ => .inl rfl⟩
    · exact ⟨b, he ▸ hb, fun _ => .inr rfl⟩
  cases hrigid : op.followsLayout with
  | false => exact ⟨a, inferType_rigid hrigid hlike hsame ha, fun _ => .inl rfl⟩
  | true =>
    cases op with
    | ret =>
      obtain ⟨c, hc⟩ := htransfer rfl fun _ he => by cases he
      exact ⟨c, hc, fun hret => by cases hret⟩
    | reindex view =>
      obtain ⟨t, -, ht, -⟩ := mapTensor_ok.mp ha
      exact hsingle _ ht
    | tupleElem index =>
      obtain ⟨ts, -, hts, -⟩ := tupleElemOutput_ok.mp ha
      exact hsingle _ hts
    | splitFusedReduce axes =>
      obtain ⟨c, hc⟩ := htransfer rfl fun _ he => by cases he
      exact ⟨c, hc, fun _ => .inl (inferType_unique_of_isCall rfl hc ha)⟩
    | offload anchor =>
      obtain ⟨c, hc⟩ := htransfer rfl fun _ _ d hd => by
        obtain ⟨x, hx, rfl⟩ := List.mem_map.mp hd
        obtain he | he := hmix x hx
        · exact he ▸ placed_of_offload ha _ (List.mem_map_of_mem hx)
        · exact he ▸ placed_of_offload hb _ (List.mem_map_of_mem hx)
      exact ⟨c, hc, fun _ => .inl (inferType_unique_of_isCall rfl hc ha)⟩
    | _ => cases hrigid
end

/-! ## All layouts -/

/-- **Type inference does not depend on layouts.** On operands and signatures that agree up to
strides, either both inferences have a result or neither has, and their results agree up to strides.
There is a stride for each axis, no computation leaves its range, and the operands of an offload
call are packed or broadcasted. -/
theorem Op.inferType_iff_of_alike (op : Op) (h : List.Forall₂ ValueType.Alike inputs inputs')
    (hm : List.Forall₂ Signature.Alike modules modules') (hranked : ∀ a ∈ inputs, a.Ranked)
    (hranked' : ∀ b ∈ inputs', b.Ranked)
    (hplaced : ∀ anchor, op = .offload anchor →
      (∀ a ∈ inputs, a.Placed) ∧ ∀ b ∈ inputs', b.Placed)
    (hrange : op.inferType inputs modules ≠ .error (.fault .overflow))
    (hrange' : op.inferType inputs' modules' ≠ .error (.fault .overflow)) :
    ((∃ a, op.inferType inputs modules = .ok a) ↔ ∃ b, op.inferType inputs' modules' = .ok b) ∧
      ∀ a b, op.inferType inputs modules = .ok a → op.inferType inputs' modules' = .ok b →
        a.Alike b := by
  have hforth : ∀ {a}, op.inferType inputs modules = .ok a →
      ∃ b, op.inferType inputs' modules' = .ok b ∧ a.Alike b := fun ha =>
    inferType_transfer h hm (fun _ => hranked') (fun anchor he => (hplaced anchor he).2) ha
      fun _ => hrange'
  have hback : ∀ {b}, op.inferType inputs' modules' = .ok b →
      ∃ a, op.inferType inputs modules = .ok a ∧ b.Alike a := fun hb =>
    inferType_transfer (h.flip.imp fun _ _ => ValueType.Alike.symm)
      (hm.flip.imp fun _ _ => Signature.Alike.symm) (fun _ => hranked)
      (fun anchor he => (hplaced anchor he).1) hb fun _ => hrange
  refine ⟨⟨fun ⟨a, ha⟩ => ?_, fun ⟨b, hb⟩ => ?_⟩, fun a b ha hb => ?_⟩
  · obtain ⟨b, hb, -⟩ := hforth ha
    exact ⟨b, hb⟩
  · obtain ⟨a, ha, -⟩ := hback hb
    exact ⟨a, ha⟩
  · obtain ⟨b', hb', hab⟩ := hforth ha
    cases hb'.symm.trans hb
    exact hab

/-- A call on a row-major and a broadcasted operand and one on two permuted operands, with modules
whose layouts are others still. -/
theorem Op.inferType_iff_of_alike_call :
    let row : TensorType := ⟨.f32, [2, 3], [3, 1]⟩
    let column : TensorType := ⟨.f32, [2, 3], [1, 2]⟩
    let repeated : TensorType := ⟨.f32, [2, 3], [0, 1]⟩
    let op : Op := .offload (.dot false)
    let x := op.inferType [.tensor row, .tensor repeated] [⟨[column, row], [row, column]⟩]
    let y := op.inferType [.tensor column, .tensor column] [⟨[row, repeated], [column, column]⟩]
    (x = .ok (.tuple [row, column]) ∧ y = .ok (.tuple [column, column])) ∧
      ((∃ a, x = .ok a) ↔ ∃ b, y = .ok b) ∧ ∀ a b, x = .ok a → y = .ok b → a.Alike b := by
  intro row column repeated op x y
  have hlike : ∀ strides strides',
      TensorType.Alike ⟨.f32, [2, 3], strides⟩ ⟨.f32, [2, 3], strides'⟩ := fun _ _ => ⟨rfl, rfl⟩
  have hvalue : ∀ strides strides', ValueType.Alike (.tensor ⟨.f32, [2, 3], strides⟩)
      (.tensor ⟨.f32, [2, 3], strides'⟩) := fun _ _ => ⟨rfl, .cons ⟨rfl, rfl⟩ .nil⟩
  have hx : x = .ok (.tuple [row, column]) := by decide +kernel
  have hy : y = .ok (.tuple [column, column]) := by decide +kernel
  refine ⟨⟨hx, hy⟩, op.inferType_iff_of_alike (.cons (hvalue ..) (.cons (hvalue ..) .nil))
    (.cons ⟨.cons (hlike ..) (.cons (hlike ..) .nil), .cons (hlike ..) (.cons (hlike ..) .nil)⟩
      .nil) (by decide) (by decide) (fun _ _ => by decide) (fun he => nomatch hx.symm.trans he)
    (fun he => nomatch hy.symm.trans he)⟩

end

end OffloadFusion
