import OffloadFusion.Proofs.Layouts

/-!
# Refusals for a layout

Inference that has a result on some operands may fault on operands in another layout, where a stride
is missing or leaves its range. **Only an offload call refuses an operand for its layout**
(`Op.refused_of_alike`).

* `Unrefused x`: the computation has a result or faults; one rule for each way to build it.
* `Reindex.unrefused_output`: a view that can be taken of a tensor is not refused in other layouts.
-/

namespace OffloadFusion

open Typing

/-- The computation has a result or faults. -/
def Unrefused {ε α : Type} (x : Outcome ε α) : Prop := ∀ e, x ≠ .error (.refused e)

section

variable {ε α β γ : Type} {x : Outcome ε α} {f : α → Outcome ε β}

theorem Unrefused.of_ok {a : α} (h : x = .ok a) : Unrefused x := by
  rw [h]
  nofun

@[simp] theorem unrefused_pure {a : α} : Unrefused (pure a : Outcome ε α) := nofun

@[simp] theorem not_unrefused_refuse {e : ε} : ¬ Unrefused (refuse e : Outcome ε α) :=
  fun h => h e rfl

@[simp] theorem unrefused_lift_checked {x : Checked α} : Unrefused (liftM x : Outcome ε α) := by
  cases x <;> nofun

@[simp] theorem unrefused_bind :
    Unrefused (x >>= f) ↔ Unrefused x ∧ ∀ a, x = .ok a → Unrefused (f a) := by
  cases x <;> simp [Unrefused, bind, Except.bind]

@[simp] theorem unrefused_map {f : α → β} : Unrefused (f <$> x) ↔ Unrefused x := by
  cases x <;> simp [Unrefused, Functor.map, Except.map]

@[simp] theorem unrefused_ite {c : Prop} [Decidable c] {y : Outcome ε α} :
    Unrefused (if c then x else y) ↔ (c → Unrefused x) ∧ (¬ c → Unrefused y) := by
  split <;> simp_all

theorem unrefused_mapM {xs : List γ} {f : γ → Outcome ε β} (h : ∀ x ∈ xs, Unrefused (f x)) :
    Unrefused (xs.mapM f) := by
  induction xs with
  | nil => exact unrefused_pure
  | cons x xs ih =>
    rw [List.mapM_cons]
    simp [h x, ih fun y hy => h y (List.mem_cons_of_mem x hy)]

theorem Outcome.exists_of_forM_error {ε : Type} {xs : List α} {f : α → Except ε Unit} {e : ε}
    (h : xs.forM f = .error e) : ∃ a ∈ xs, f a = .error e := by
  induction xs with
  | nil => cases h
  | cons x xs ih =>
    cases hx : f x with
    | error e' =>
      rw [List.forM, hx] at h
      cases h
      exact ⟨x, List.mem_cons_self, hx⟩
    | ok u =>
      rw [List.forM, hx] at h
      obtain ⟨a, ha, he⟩ := ih h
      exact ⟨a, List.mem_cons_of_mem x ha, he⟩

/-- A loop beside another one that has a result. -/
theorem unrefused_foldlM {R : α → β → Prop} {f : α → γ → Outcome ε α} {g : β → γ → Outcome ε β}
    (hstep : ∀ {a b c a'}, R a b → f a c = .ok a' →
      Unrefused (g b c) ∧ ∀ b', g b c = .ok b' → R a' b') {cs : List γ} {a a' : α} {b : β}
    (h : R a b) (ha : cs.foldlM f a = .ok a') : Unrefused (cs.foldlM g b) := by
  induction cs generalizing a b with
  | nil => exact unrefused_pure
  | cons c cs ih =>
    rw [List.foldlM_cons, Outcome.bind_ok] at ha
    obtain ⟨a₁, ha₁, ha⟩ := ha
    obtain ⟨hc, hnext⟩ := hstep h ha₁
    rw [List.foldlM_cons, unrefused_bind]
    exact ⟨hc, fun b₁ hb₁ => ih (hnext b₁ hb₁) ha⟩

end

/-! ## Views -/

namespace Reindex

open TensorType

variable {t u t' : TensorType} {source : Shape} {axis rank : Nat}

theorem unrefused_dropAxis (ht : dropAxis source t axis = .ok t') :
    Unrefused (dropAxis source u axis) := by
  have hd := Checked.get_ok.mpr (dropAxis_ok.mp ht).1
  simp [dropAxis, Nat.not_le.mpr (Checked.lt_of_get hd), hd]

theorem unrefused_insertAxis (h : t.Alike u) (ht : insertAxis source rank t axis = .ok t') :
    Unrefused (insertAxis source rank u axis) := by
  have hin : ¬ (axis ≥ rank ∨ axis > u.shape.length) := by
    rw [← h.2]
    intro hout
    simp only [insertAxis, if_pos hout, Outcome.refuse_bind_ok] at ht
  simp only [insertAxis, if_neg hin]
  by_cases hlt : axis < u.shape.length <;> simp [hlt]

theorem unrefused_multibroadcast {target : Shape} (h : t.Alike u)
    (ht : multibroadcastOutput target t = .ok t') : Unrefused (multibroadcastOutput target u) := by
  simp only [multibroadcastOutput, Outcome.ite_ok, Outcome.bind_ok, Outcome.refuse_ok, false_and,
    exists_false, and_false, false_or] at ht
  obtain ⟨hrank, inner, hinner, -⟩ := ht
  rw [TensorType.rank, Shape.rank, h.2] at hrank hinner
  simp only [multibroadcastOutput, unrefused_ite, unrefused_bind]
  refine ⟨fun hout => absurd hout hrank, fun _ => ⟨unrefused_mapM ?_, fun _ _ => unrefused_pure⟩⟩
  rintro ⟨⟨source, extent⟩, axis⟩ hmem
  obtain ⟨s, -, hs⟩ := forall₂_exists (Outcome.mapM_ok.mp hinner) hmem
  dsimp only at hs ⊢
  rw [broadcastStride] at hs ⊢
  by_cases heq : source = extent
  · rw [if_pos heq]
    exact unrefused_lift_checked
  · rw [if_neg heq] at hs ⊢
    split at hs
    · cases hs
    · next hone =>
      rw [if_neg hone]
      exact unrefused_pure

/-- **A view that can be taken of a tensor is not refused in other layouts.** -/
theorem unrefused_output (view : Reindex) (h : t.Alike u) (ht : view.output t = .ok t') :
    Unrefused (view.output u) := by
  cases view with
  | slice axes starts ends =>
    simp only [output, sliceOutput, Outcome.ite_ok, Outcome.bind_ok, Outcome.refuse_ok, false_and,
      exists_false, and_false, false_or, h.2] at ht
    obtain ⟨hlen, shape, hs, -⟩ := ht
    simp only [output, sliceOutput, if_neg hlen, unrefused_bind]
    exact ⟨.of_ok hs, fun _ _ => unrefused_pure⟩
  | transpose axes =>
    simp only [output, transposeOutput, Outcome.ite_ok, Outcome.bind_ok, Outcome.refuse_ok,
      false_and, exists_false, and_false, false_or, h.2] at ht
    obtain ⟨hrank, _, haxes, -⟩ := ht
    have hsame : t.rank = u.rank := congrArg Shape.rank h.2
    rw [hsame] at hrank
    simp only [output, transposeOutput, if_neg hrank, unrefused_bind]
    exact ⟨.of_ok haxes, fun _ _ => ⟨unrefused_lift_checked, fun _ _ =>
      ⟨unrefused_lift_checked, fun _ _ => unrefused_pure⟩⟩⟩
  | broadcast axis target =>
    simp only [output, broadcastOutput, Outcome.ite_ok, Outcome.bind_ok, Outcome.refuse_ok,
      false_and, exists_false, and_false, false_or, Outcome.lift_checked_ok, h.2] at ht
    obtain ⟨fitting, hfits, htrue, -⟩ := ht
    obtain rfl : fitting = true := by simpa using htrue
    simp [output, broadcastOutput, hfits]
  | multibroadcast target => exact unrefused_multibroadcast h ht
  | contiguous => simp [output]
  | reshape target =>
    have hsame : reshapeOutput target t = reshapeOutput target u := by
      rw [reshapeOutput, reshapeOutput, numel, numel, h.1, h.2]
    exact .of_ok (hsame.symm.trans ht)
  | squeeze axes =>
    rw [output, squeezeOutput, h.2] at ht
    rw [output, squeezeOutput]
    exact unrefused_foldlM (R := fun _ _ => True) (f := dropAxis u.shape) (g := dropAxis u.shape)
      (fun _ ht => ⟨unrefused_dropAxis ht, fun _ _ => trivial⟩) trivial ht
  | unsqueeze axes =>
    rw [output, unsqueezeOutput, TensorType.rank, h.2] at ht
    rw [output, unsqueezeOutput, TensorType.rank]
    exact unrefused_foldlM (f := insertAxis u.shape _) (g := insertAxis u.shape _)
      (fun h ht => ⟨unrefused_insertAxis h ht, fun _ hu => insertAxis_alike h ht hu⟩) h ht
  | flatten axis =>
    have hsame : flattenOutput axis t = flattenOutput axis u := by
      rw [flattenOutput, flattenOutput, TensorType.rank, TensorType.rank, h.1, h.2]
    exact .of_ok (hsame.symm.trans ht)

end Reindex

/-! ## Operations -/

namespace Op

variable {op : Op} {inputs inputs' : List ValueType} {modules modules' : List Signature}
  {a : ValueType} {e : TypeError}

theorem refused_of_checkLayouts {name : String} {ts : List TensorType}
    (h : checkLayouts name ts = .error (.refused e)) :
    ∃ index t, e = .invalidLayout name index t ∧ ts[index]? = some t ∧
      acceptsLayout t = .ok false := by
  obtain ⟨⟨t, index⟩, hmem, h⟩ := Outcome.exists_of_forM_error h
  dsimp only at h
  cases ht : acceptsLayout t with
  | error fault =>
    rw [ht] at h
    cases h
  | ok accepted =>
    rw [ht] at h
    cases accepted with
    | false =>
      cases h
      exact ⟨index, t, rfl, List.mk_mem_zipIdx_iff_getElem?.mp hmem, ht⟩
    | true => cases h

/-- **Only an offload call refuses operands for their layout.** Where an operation has a type for
operands and modules that agree up to strides, its only refusal is that of a call, for an operand
that is neither packed nor broadcasted. -/
theorem refused_of_alike (h : List.Forall₂ ValueType.Alike inputs inputs')
    (hm : List.Forall₂ Signature.Alike modules modules') (ha : op.inferType inputs modules = .ok a)
    (hb : op.inferType inputs' modules' = .error (.refused e)) :
    ∃ anchor index t, op = .offload anchor ∧ e = .invalidLayout op.name index t ∧
      inputs'[index]? = some (.tensor t) ∧ acceptsLayout t = .ok false := by
  have hother (hreshaper : op.isReshaper = true → False)
      (hoffload : ∀ anchor, op ≠ .offload anchor) : False := by
    obtain ⟨b, hok, -⟩ := inferType_transfer h hm (fun hr => (hreshaper hr).elim)
      (fun anchor he => (hoffload anchor he).elim) ha fun hr => (hreshaper hr).elim
    cases hok.symm.trans hb
  cases op with
  | reindex view =>
    rw [inferType] at ha hb
    obtain ⟨t, t', rfl, rfl, ht, rfl⟩ := mapTensor_ok.mp ha
    obtain rfl := List.forall₂_nil_left_iff.mp hm
    obtain ⟨us, rfl, _ | ⟨htu, _ | _⟩⟩ := (@ValueType.alike_map_tensor _ [t]).mp h
    have hview : Unrefused (mapTensor (reindex view).name [.tensor _] [] view.output) :=
      unrefused_map.mpr (view.unrefused_output htu ht)
    exact (hview e hb).elim
  | offload anchor =>
    simp only [inferType, Outcome.bind_ok] at ha
    obtain ⟨ts, hts, body, hbody, x, -, ha⟩ := ha
    obtain ⟨us, rfl, hlike, hus⟩ := tensorInputs_alike h hts
    obtain ⟨body', rfl, hlike'⟩ := singleModule_alike hm hbody
    obtain ⟨b, hcall, -⟩ := callOutput_alike hlike hlike' ha
    have hcalc : (offload anchor).inferType (us.map .tensor) [body'] = (do
        checkLayouts (offload anchor).name us
        callOutput (offload anchor).name us body') := by
      rw [inferType, hus]
      rfl
    rw [hcalc] at hb
    have hcheck : checkLayouts (offload anchor).name us = .error (.refused e) := by
      cases hlayouts : checkLayouts (offload anchor).name us with
      | ok u =>
        rw [hlayouts] at hb
        cases hcall.symm.trans hb
      | error x =>
        rw [hlayouts] at hb
        cases hb
        rfl
    obtain ⟨index, t, rfl, ht, haccepts⟩ := refused_of_checkLayouts hcheck
    exact ⟨anchor, index, t, rfl, rfl, by rw [List.getElem?_map, ht]; rfl, haccepts⟩
  | _ => exact (hother (fun hr => by cases hr) fun _ he => by cases he).elim

end Op

end OffloadFusion
