import OffloadFusion.Proofs.Completing
import OffloadFusion.Proofs.Elementwise

/-!
# Attention is rebuilt

The type rule of attention does not ask for the element type of a bias or of the values that a mask
fills in, but the sum and the selection by which it is rebuilt do. Where these have the element type
of the scores, and only there, attention is rebuilt to a value of its own type
(**`Attention.completesIff_rebuildFrom`**).
-/

namespace OffloadFusion

open OffloadFusion.Action Program Typing

variable {S : Site} {names : List String} {w₀ w : Workspace} {inputs : List InstrId}
  {type : ValueType} {types : List ValueType}

/-! ## Types of the steps -/

section

variable {t u v : TensorType} {dims : Shape} {op op' : String}

theorem Dot.outputShape_rename (op' : String)
    (h : Dot.outputShape op t.shape u.shape = .ok dims) :
    Dot.outputShape op' t.shape u.shape = .ok dims ∧ 2 ≤ t.shape.length := by
  simp only [Dot.outputShape, Dot.checkRank, Outcome.bind_ok, Outcome.ite_ok, Outcome.refuse_ok,
    and_false, false_and, exists_false, false_or, Outcome.pure_ok, Outcome.lift_checked_ok] at h ⊢
  obtain ⟨_, ⟨hrank, -⟩, hrest⟩ := h
  exact ⟨⟨⟨⟩, ⟨hrank, trivial⟩, hrest⟩, by omega⟩

theorem Dot.length_outputShape {lhs rhs : Shape} (h : Dot.outputShape op lhs rhs = .ok dims) :
    1 ≤ dims.length := by
  simp only [Dot.outputShape, Outcome.bind_ok, Outcome.ite_ok, Outcome.refuse_ok, false_and,
    exists_false, and_false, false_or, Outcome.pure_ok] at h
  obtain ⟨-, -, -, -, -, -, -, -, -, -, -, -, -, -, rfl⟩ := h
  rw [List.length_append]
  exact Nat.le_add_left 1 _

theorem Dot.inferType_of (hd : u.dtype = t.dtype)
    (hs : Dot.outputShape op t.shape u.shape = .ok dims)
    (hv : standardValue t.dtype dims = .ok type) :
    (Op.dot false).inferType [.tensor t, .tensor u] [] = .ok type := by
  have hs' := (Dot.outputShape_rename (Op.dot false).name hs).1
  simp only [Op.inferType, Dot.output, twoTensors, ValueType.expectTensor, pure_bind,
    Outcome.bind_ok, noModules_ok, sameDType_ok, List.forall_mem_singleton]
  exact ⟨⟨⟩, trivial, ⟨⟩, hd, dims, hs', _, rfl, hv⟩

theorem Op.inferType_softmax_of {axis : Nat} (h : axis < t.rank) (ht : t.asStandard = .ok u) :
    (Op.softmax axis).inferType [.tensor t] [] = .ok (.tensor u) := by
  simp only [inferType, mapTensor, Outcome.bind_ok, oneTensor_ok, noModules_ok, Outcome.ite_ok,
    Outcome.lift_checked_ok, Outcome.pure_ok]
  exact ⟨t, rfl, ⟨⟩, trivial, u, .inr ⟨by omega, ht⟩, rfl⟩

theorem LiteralData.scalar_total {dtype : DType} (h : dtype = .f32 ∨ dtype = .f16)
    (value : Single) : ∃ data, scalar dtype value = .ok (TensorType.scalar dtype, data) ∧
      (Op.literal (TensorType.scalar dtype) data).inferType [] [] =
        .ok (.tensor (TensorType.scalar dtype)) := by
  obtain rfl | rfl := h
  · exact ⟨_, rfl, rfl⟩
  · exact ⟨_, rfl, rfl⟩

end

/-! ## Attention -/

namespace Attention

/-- The bias, or the values that a mask fills in: what is combined with the scores. -/
def blended : List InstrId → List InstrId
  | [bias] => [bias]
  | [_, fill] => [fill]
  | _ => []

/-- What is combined with the scores has an element type. -/
def Blends (p : Program) (dtype : DType) (mask : List InstrId) : Prop :=
  ∀ i ∈ blended mask, ∀ t, p.HasType i (.tensor t) → t.dtype = dtype

/-- The types of the steps of attention with scores `s`. -/
structure Steps (a b : TensorType) (mask : List TensorType) (v s : TensorType) (type : ValueType) :
    Prop where
  product : (Op.dot false).inferType [.tensor a, .tensor b] [] = .ok (.tensor s)
  dtype : s.dtype = a.dtype
  rank : 2 ≤ s.shape.length
  standard : s.asStandard = .ok s
  mask : checkMask s mask = .ok ()
  result : (Op.dot false).inferType [.tensor s, .tensor v] [] = .ok type
  resultType : ∃ t, type = .tensor t ∧ t.dtype = s.dtype ∧ t.asStandard = .ok t ∧
    1 ≤ t.shape.length

theorem steps_of_outputOf {a b v : TensorType} {mask : List TensorType}
    (h : outputOf a b mask v = .ok type) : ∃ s, Steps a b mask v s type := by
  simp only [outputOf, Outcome.bind_ok, sameDType_ok, List.forall_mem_cons,
    Outcome.lift_checked_ok] at h
  obtain ⟨-, ⟨hb, hv, -⟩, scores, hscores, shape, hshape, s, hs, _, hmask, htype⟩ := h
  obtain ⟨hd, hsh⟩ := TensorType.standard_alike hs
  rw [← hsh] at hshape
  refine ⟨s, Dot.inferType_of hb hscores ?_, hd, (Dot.outputShape_rename "" hshape).2, ?_,
    hmask, Dot.inferType_of (hv.trans hd.symm) hshape (hd ▸ htype), ?_⟩
  · obtain ⟨strides, hrow, rfl⟩ := standard_ok.mp hs
    exact standardValue_ok.mpr ⟨strides, hrow, rfl⟩
  · rw [TensorType.asStandard, hd, hsh, hs]
  · obtain ⟨strides, hrow, rfl⟩ := standardValue_ok.mp htype
    exact ⟨_, rfl, hd.symm, standard_ok.mpr ⟨strides, hrow, rfl⟩, Dot.length_outputShape hshape⟩

theorem blends_iff {p : Program} {dtype : DType} {mask : List InstrId} {i : InstrId}
    {t : TensorType} (hmask : blended mask = [i]) (ht : p.HasType i (.tensor t)) :
    Blends p dtype mask ↔ t.dtype = dtype := by
  rw [Blends, hmask, List.forall_mem_singleton]
  refine ⟨fun h => h t ht, fun h u hu => ?_⟩
  cases hasType_unique ht hu
  exact h

section

variable (h : Building.Open S names w) (hS : S.Sound)

include h

theorem completes_emit {op : Op} {args : List InstrId} (hop : op.isReturn = false)
    (hparam : op.isParam = false) (ht : List.Forall₂ (w.program.Held S.module) args types)
    (hinfer : op.inferType types [] = .ok type) :
    (emit op args).Completes w (Building.Yields S names w type) :=
  h.completes_module_bind (h.completes_addInstruction hop hparam ht hinfer)

/-- An operation is emitted exactly where it types. -/
theorem completesIff_emit {B : Prop} {op : Op} {args : List InstrId} (hop : op.isReturn = false)
    (hparam : op.isParam = false) (ht : List.Forall₂ (w.program.Held S.module) args types)
    (hinfer : ∀ type', op.inferType types [] = .ok type' ↔ B ∧ type' = type) :
    (emit op args).CompletesIff B w (Building.Yields S names w type) := by
  by_cases hB : B
  · exact .inl ⟨hB, completes_emit h hop hparam ht ((hinfer type).mpr ⟨hB, rfl⟩)⟩
  · refine h.completesIff_module_bind (completesIff_edit.mpr (completesIff_of_not hB
      fun i q hadd => hB ?_))
    -- what was added has the type that the operands give it
    obtain ⟨_, -, hinsert⟩ := Edit.addInstruction_ok.mp hadd
    obtain ⟨_, type', -, -, hinfer', -⟩ := Edit.insertAt_ok.mp hinsert
    obtain ⟨types', signatures, htypes, hsigs, hinfer'⟩ := infer_ok.mp hinfer'
    obtain rfl := List.forall₂_nil_left_iff.mp hsigs
    obtain rfl : types' = types := List.right_unique_forall₂'
      (R := w.program.HasType) (fun _ _ _ => hasType_unique) htypes
      (List.Forall₂.imp (fun _ _ hi => hi.2) ht)
    exact ((hinfer type').mp hinfer').1

include hS

/-- **The mask is applied exactly where it has the element type of the scores.** -/
theorem completesIff_applyMask {scaled : InstrId} {s : TensorType} {mask : List InstrId}
    {ts : List TensorType} (hscaled : w.program.Held S.module scaled (.tensor s))
    (hstandard : s.asStandard = .ok s) (hmask : List.Forall₂ S.Feeds mask ts)
    (hcheck : checkMask s ts = .ok ())
    (hnames : ∀ name ∈ ["y_bias", "y_cond", "y_const"], name ∉ names) :
    (applyMask scaled mask).CompletesIff (Blends S.program s.dtype mask) w fun i w' =>
      ∃ extra, "z" ∉ extra ∧ extra.length ≤ 2 ∧
        Building.Yields S (names ++ extra) w (.tensor s) i w' := by
  have hvalue : standardValue s.dtype s.shape = .ok (.tensor s) := by
    obtain ⟨strides, hrow, he⟩ := standard_ok.mp hstandard
    exact standardValue_ok.mpr ⟨strides, hrow, by rw [← he]⟩
  rcases hmask with _ | ⟨hbias, _ | ⟨hfill, _ | ⟨hmore, hrest⟩⟩⟩
  · rw [applyMask]
    · exact .inl ⟨fun i hi => absurd hi List.not_mem_nil, completes_pure.mpr ⟨[],
        List.not_mem_nil, Nat.zero_le 2, (List.append_nil names).symm ▸ h, .refl S w, hscaled⟩⟩
    all_goals simp
  · next bias t =>
    simp only [checkMask, Outcome.bind_ok, sameDims_ok, List.forall_mem_singleton] at hcheck
    obtain ⟨_, ⟨hshape, -⟩, -⟩ := hcheck
    obtain ⟨u, hu, hparam⟩ := h.completes_addNamedInput hS
      (h.parameter?_eq_none (hnames "y_bias" (by decide))) hbias
    obtain ⟨hud, hus⟩ := TensorType.standard_alike hu
    rw [applyMask, blends_iff rfl hbias.2]
    refine hparam.bind_iff ?_
    rintro bias w₁ ⟨h₁, -⟩
    have hadd : ∀ type, (Op.binary .add).inferType [.tensor s, .tensor u] [] = .ok type ↔
        t.dtype = s.dtype ∧ type = .tensor s := fun type => by
      refine Op.binaryOutput_ok.trans ⟨?_, ?_⟩
      · rintro ⟨_, _, ⟨⟩, -, -, hd, hv⟩
        exact ⟨hud.symm.trans hd, Except.ok.inj (hv.symm.trans hvalue)⟩
      · rintro ⟨hd, rfl⟩
        exact ⟨s, u, rfl, rfl, hus.trans hshape, hud.trans hd, hvalue⟩
    refine (completesIff_emit h₁.isOpen rfl rfl (.cons (h₁.later.fills.held hscaled)
      (.cons h₁.held .nil)) hadd).mono fun i w₂ h₂ => ?_
    exact ⟨["y_bias"], by decide, by decide, h₂.after h₁.later⟩
  · next cond t fill t' =>
    simp only [checkMask, Outcome.bind_ok, sameDims_ok, List.forall_mem_cons, hasDType_ok] at hcheck
    obtain ⟨_, ⟨⟨hshape, hshape', -⟩, -⟩, hbool⟩ := hcheck
    obtain ⟨u, hu, hparam⟩ := h.completes_addNamedInput hS
      (h.parameter?_eq_none (hnames "y_cond" (by decide))) hbias
    obtain ⟨hud, hus⟩ := TensorType.standard_alike hu
    rw [applyMask, blends_iff rfl hfill.2]
    refine hparam.bind_iff ?_
    rintro cond w₁ ⟨h₁, -⟩
    have hname : "y_const" ∉ names ++ ["y_cond"] := fun hmem =>
      (List.mem_append.mp hmem).elim (hnames "y_const" (by decide)) (by decide)
    obtain ⟨u', hu', hparam'⟩ := h₁.isOpen.completes_addNamedInput hS
      (h₁.isOpen.parameter?_eq_none hname) hfill
    obtain ⟨hud', hus'⟩ := TensorType.standard_alike hu'
    refine hparam'.bind_iff ?_
    rintro fill w₂ ⟨h₂, -⟩
    have hlater := h₁.later.trans h₂.later
    have hshapes : s.shape = u.shape := (hus.trans hshape).symm
    have hselect : ∀ type, Op.select.inferType [.tensor u, .tensor s, .tensor u'] [] = .ok type ↔
        t'.dtype = s.dtype ∧ type = .tensor s := fun type => by
      refine Op.selectOutput_ok.trans ⟨?_, ?_⟩
      · rintro ⟨_, _, _, ⟨⟩, -, -, -, -, hd, hv⟩
        rw [← hshapes, hvalue] at hv
        exact ⟨hud'.symm.trans hd, (Except.ok.inj hv).symm⟩
      · rintro ⟨hd, rfl⟩
        exact ⟨u, s, u', rfl, rfl, hshapes, (hus'.trans hshape').trans hshapes, hud.trans hbool,
          hud'.trans hd, hshapes ▸ hvalue⟩
    refine (completesIff_emit h₂.isOpen rfl rfl (.cons (h₂.later.fills.held h₁.held)
      (.cons (hlater.fills.held hscaled) (.cons h₂.held .nil))) hselect).mono
        fun i w₃ h₃ => ⟨["y_cond", "y_const"], by decide, by decide, ?_⟩
    have hyields := h₃.after hlater
    rwa [List.append_assoc] at hyields
  · rw [applyMask]
    · exact .inl ⟨fun i hi => absurd hi List.not_mem_nil, completes_pure.mpr ⟨[],
        List.not_mem_nil, Nat.zero_le 2, (List.append_nil names).symm ▸ h, .refl S w, hscaled⟩⟩
    all_goals simp

end

theorem completes_weigh {masked v : InstrId} {a b tv s : TensorType} {mask : List TensorType}
    (h : Building.Yields S names w₀ (.tensor s) masked w) (hS : S.Sound) (hv : S.Feeds v tv)
    (hsteps : Steps a b mask tv s type) (hz : "z" ∉ names) :
    (do
      let axis ← Checked.sub s.rank 1
      let weights ← emit (.softmax axis) [masked]
      let chain ← ReshapeChain.walk (← theProgram) v true
      let z ← Building.addNamedInput chain.upper "z"
      let z ← chain.replay S.module z
      emit (.dot false) [weights, z] : Building InstrId).Completes w
        (Building.Yields S (names ++ ["z"]) w₀ type) := by
  have hrank : 2 ≤ s.rank := hsteps.rank
  have haxis : Checked.sub s.rank 1 = .ok (s.rank - 1) := if_pos (by omega)
  rw [completes_bind]
  refine (completes_lift_checked haxis).mpr ?_
  rw [completes_bind]
  refine (completes_emit h.isOpen rfl rfl (.cons h.held .nil)
    (Op.inferType_softmax_of (by omega) hsteps.standard)).mono fun weights w₁ h₁ => ?_
  refine h₁.isOpen.completes_thread_bind hS hv hz fun chain z w₂ v₀ v' h₂ hstack hv' => ?_
  rw [completes_bind]
  refine (h₂.isOpen.completes_replay h₂.held hstack).mono fun z w₃ h₃ => ?_
  have hresult : (Op.dot false).inferType [.tensor s, .tensor v'] [] = .ok type :=
    (Dot.output_congr false (.refl s) hv'.alike).symm.trans hsteps.result
  refine (completes_emit h₃.isOpen rfl rfl (.cons ((h₂.later.trans h₃.later).fills.held h₁.held)
    (.cons h₃.held .nil)) hresult).mono fun i w₄ h₄ => ?_
  exact h₄.after (h.later.trans <| h₁.later.trans <| h₂.later.trans h₃.later)

/-- **Attention is rebuilt to a value of its type, exactly where the mask has the element type of
the scores.** -/
theorem completesIff_rebuildFrom (h : Building.Open S [] w) (hS : S.Sound) {scale : Single}
    {a b v : InstrId} {mask : List InstrId} {ta tb tv s : TensorType} {ts : List TensorType}
    (ha : S.Feeds a ta) (hb : S.Feeds b tb) (hmask : List.Forall₂ S.Feeds mask ts)
    (hv : S.Feeds v tv) (hsteps : Steps ta tb ts tv s type)
    (hwide : s.dtype = .f32 ∨ s.dtype = .f16) :
    (rebuildFrom scale a b mask v).CompletesIff (Blends S.program s.dtype mask) w fun i w' =>
      ∃ names, Building.Yields S names w type i w' ∧ 2 ≤ names.length ∧ names.length ≤ 5 := by
  obtain ⟨data, hdata, hliteral⟩ := LiteralData.scalar_total hwide scale
  have hdims : 1 ≤ s.shape.length := Nat.le_of_succ_le hsteps.rank
  obtain ⟨u, hu, hud, hus⟩ :=
    Reindex.multibroadcast_scalar (t := TensorType.scalar s.dtype) rfl rfl hdims
  have hvalue : standardValue s.dtype s.shape = .ok (.tensor s) := by
    obtain ⟨strides, hrow, he⟩ := standard_ok.mp hsteps.standard
    exact standardValue_ok.mpr ⟨strides, hrow, by rw [← he]⟩
  have hrank : 2 ≤ s.rank := hsteps.rank
  have hcongr : ∀ us, List.Forall₂ TensorType.Restrided [ta, tb] us →
      (Op.dot false).inferType (us.map .tensor) [] = .ok (.tensor s) := by
    intro us hus
    obtain ⟨a', _, ha', hrest, rfl⟩ := List.forall₂_cons_left_iff.mp hus
    obtain ⟨b', _, hb', hnil, rfl⟩ := List.forall₂_cons_left_iff.mp hrest
    rw [List.forall₂_nil_left_iff.mp hnil]
    exact (Dot.output_congr false ha'.alike hb'.alike).symm.trans hsteps.product
  have hmul : (Op.binary .mul).inferType [.tensor s, .tensor u] [] = .ok (.tensor s) :=
    Op.binaryOutput_ok.mpr ⟨s, u, rfl, rfl, hus, hud, hvalue⟩
  have hnames : ∀ name ∈ ["y_bias", "y_cond", "y_const", "z"],
      name ∉ [] ++ Building.Open.threadNames 0 2 := by decide
  refine h.completesIff_module_bind ?_
  refine (h.completes_fuseAnchor hS rfl rfl (.cons ha (.cons hb .nil)) hcongr
    fun k => List.not_mem_nil).bind_iff fun product w₁ h₁ => ?_
  rw [completesIff_theProgram_bind]
  refine (completesIff_lift_graph_bind (tensorOf_ok.mpr h₁.held.2)).mpr ?_
  refine (completesIff_lift_graph_bind (Outcome.lift_typed_ok.mpr hdata)).mpr ?_
  refine (h₁.isOpen.completes_emitted
    (h₁.isOpen.unfinished.completes_addLiteral hliteral)).bind_iff fun factor w₂ h₂ => ?_
  refine (completes_emit h₂.isOpen rfl rfl (.cons h₂.held .nil)
    (ReshapeChain.inferType_of_output hu)).bind_iff fun wide w₃ h₃ => ?_
  refine (completes_emit h₃.isOpen rfl rfl
    (.cons ((h₂.later.trans h₃.later).fills.held h₁.held) (.cons h₃.held .nil))
    hmul).bind_iff fun scaled w₄ h₄ => ?_
  refine (completesIff_applyMask h₄.isOpen hS h₄.held hsteps.standard hmask hsteps.mask
    fun name hname => hnames name (List.mem_append_left ["z"] hname)).bind
      fun masked w₅ ⟨extra, hz, hextra, h₅⟩ => ?_
  refine (completes_weigh h₅ hS hv hsteps ?_).mono fun i w₆ h₆ => ?_
  · exact fun hmem => (List.mem_append.mp hmem).elim (hnames "z" (by decide)) hz
  · refine ⟨_, h₆.after (h₁.later.trans <| h₂.later.trans <| h₃.later.trans h₄.later), ?_⟩
    simp only [Building.Open.threadNames, List.nil_append, List.length_append, List.length_map,
      List.length_range', List.length_cons, List.length_nil]
    omega

/-! ## Attention instructions -/

/-- The operands between the keys and the values. -/
def maskOf (inputs : List InstrId) : List InstrId := (inputs.drop 2).dropLast

theorem rebuild_eq {scale : Single} {a b v : InstrId} {mask : List InstrId}
    (h : mask.length ≤ 2) :
    rebuild scale (a :: b :: (mask ++ [v])) = rebuildFrom scale a b mask v :=
  match mask, h with
  | [], _ | [_], _ | [_, _], _ => rfl

theorem output_ok {inputs : List ValueType} {modules : List Signature}
    (h : output inputs modules = .ok type) : ∃ ta tb ts tv, ts.length ≤ 2 ∧
      inputs = (ta :: tb :: (ts ++ [tv])).map .tensor ∧ outputOf ta tb ts tv = .ok type := by
  simp only [output, Outcome.bind_ok, tensorInputs_ok] at h
  obtain ⟨tensors, ⟨-, rfl⟩, -, -, h⟩ := h
  split at h
  · next ta tb tv => exact ⟨ta, tb, [], tv, by decide, rfl, h⟩
  · next ta tb bias tv => exact ⟨ta, tb, [bias], tv, Nat.le_succ 1, rfl, h⟩
  · next ta tb cond fill tv => exact ⟨ta, tb, [cond, fill], tv, Nat.le_refl 2, rfl, h⟩
  · cases h

theorem operands_of_valid {p : Program} {i : InstrId} {inst : Instruction} {scale : Single}
    (hp : p.Valid) (hi : p.instr? i = some inst) (hop : inst.op = .attention scale) :
    ∃ a b mask v ta tb ts tv s, inst.inputs = a :: b :: (mask ++ [v]) ∧ mask.length ≤ 2 ∧
      p.HasType a (.tensor ta) ∧ p.HasType b (.tensor tb) ∧
      List.Forall₂ (fun i t => p.HasType i (.tensor t)) mask ts ∧ p.HasType v (.tensor tv) ∧
      Steps ta tb ts tv s inst.type := by
  obtain ⟨types, signatures, htypes, -, hinfer⟩ := infer_ok.mp (hp.fresh hi)
  rw [hop] at hinfer
  obtain ⟨ta, tb, ts, tv, hlen, rfl, hout⟩ := output_ok hinfer
  obtain ⟨s, hsteps⟩ := steps_of_outputOf hout
  rw [List.forall₂_map_right_iff] at htypes
  obtain ⟨a, _, ha, hkeys, hinputs⟩ := List.forall₂_cons_right_iff.mp htypes
  obtain ⟨b, rest, hb, hrest, rfl⟩ := List.forall₂_cons_right_iff.mp hkeys
  have hmask := List.forall₂_take_append _ _ _ hrest
  obtain ⟨v, _, hv, hnil, hdrop⟩ :=
    List.forall₂_cons_right_iff.mp (List.forall₂_drop_append _ _ _ hrest)
  obtain rfl := List.forall₂_nil_right_iff.mp hnil
  refine ⟨a, b, _, v, ta, tb, ts, tv, s, ?_, hmask.length_eq.le.trans hlen, ha, hb, hmask, hv,
    hsteps⟩
  rw [hinputs, ← hdrop, List.take_append_drop]

/-- What is combined with the scores of an attention has their element type. -/
def Blended (p : Program) (inst : Instruction) : Prop :=
  ∀ t, inst.type = .tensor t → Blends p t.dtype (maskOf inst.inputs)

instance (p : Program) (inst : Instruction) : Decidable (Blended p inst) :=
  decidable_of_iff (∀ t ∈ inst.tensor?, ∀ i ∈ blended (maskOf inst.inputs), ∀ inst' ∈ p.instr? i,
      ∀ u ∈ inst'.tensor?, u.dtype = t.dtype) <| by
    have htensor : ∀ {inst : Instruction} {t}, t ∈ inst.tensor? ↔ inst.type = .tensor t := by
      intro inst t
      rw [Instruction.tensor?]
      cases inst.type <;> simp [ValueType.tensor?, eq_comm]
    simp only [htensor]
    exact ⟨fun h t ht i hi u ⟨inst', hi', hu⟩ => h t ht i hi inst' hi' u hu,
      fun h t ht i hi inst' hi' u hu => h t ht i hi u ⟨inst', hi', hu⟩⟩

theorem maskOf_eq {a b v : InstrId} {mask : List InstrId} :
    maskOf (a :: b :: (mask ++ [v])) = mask := by
  rw [maskOf, List.drop_succ_cons, List.drop_succ_cons, List.drop_zero, List.dropLast_concat]

theorem wide_of_scale {inst : Instruction} {t : TensorType} {scale : Single}
    (h : scale? inst = some scale) (ht : inst.type = .tensor t) :
    t.dtype = .f32 ∨ t.dtype = .f16 := by
  have htensor : inst.tensor? = some t := by rw [Instruction.tensor?, ht]; rfl
  rw [scale?, htensor] at h
  split at h
  · next heq =>
    cases heq
    split at h
    · next hwide => simpa using hwide
    · cases h
  · cases h

/-- **Attention is rebuilt exactly where it is blended with its own element type.** -/
theorem completesIff_rebuild {inst : Instruction} {scale : Single} (h : Building.Open S [] w)
    (hS : S.Sound) {i : InstrId} (hinst : S.program.instr? i = some inst)
    (hsources : ∀ x ∈ inst.inputs, S.sources x) (hscale : scale? inst = some scale) :
    (rebuild scale inst.inputs).CompletesIff (Blended S.program inst) w fun i w' =>
      ∃ names, Building.Yields S names w inst.type i w' ∧ 2 ≤ names.length ∧ names.length ≤ 5 := by
  obtain ⟨a, b, mask, v, ta, tb, ts, tv, s, hinputs, hlen, ha, hb, hmask, hv, hsteps⟩ :=
    operands_of_valid hS.valid hinst (op_of_scale hscale)
  obtain ⟨t, ht, hd, -⟩ := hsteps.resultType
  have hblended : Blended S.program inst ↔ Blends S.program s.dtype mask := by
    rw [Blended, ht, ← hd, hinputs, maskOf_eq]
    exact ⟨fun h => h t rfl, fun h t' ht' => by cases ht'; exact h⟩
  rw [hinputs] at hsources
  simp only [List.forall_mem_cons, List.forall_mem_append] at hsources
  obtain ⟨hsa, hsb, hsmask, hsv, -⟩ := hsources
  have hfeeds : List.Forall₂ S.Feeds mask ts := by
    rw [List.forall₂_iff_zip] at hmask ⊢
    exact ⟨hmask.1, fun hmem => ⟨hsmask _ (List.of_mem_zip hmem).1, hmask.2 hmem⟩⟩
  rw [hblended, hinputs, rebuild_eq hlen]
  exact completesIff_rebuildFrom h hS ⟨hsa, ha⟩ ⟨hsb, hb⟩ hfeeds ⟨hsv, hv⟩ hsteps
    (hd ▸ wide_of_scale hscale ht)

section

variable {s : Session} {found : Match} {inst : Instruction}

theorem exists_tensor {i : InstrId} {scale : Single} (hp : s.program.Valid)
    (hinst : s.program.instr? i = some inst) (hop : inst.op = .attention scale) :
    ∃ t, inst.type = .tensor t ∧ t.asStandard = .ok t ∧ 1 ≤ t.shape.length := by
  obtain ⟨_, _, _, _, _, _, _, _, _, _, _, _, _, _, _, hsteps⟩ := operands_of_valid hp hinst hop
  obtain ⟨t, ht, -, hstandard⟩ := hsteps.resultType
  exact ⟨t, ht, hstandard⟩

/-- **Attention is fused exactly where it is blended with its own element type.** -/
theorem Alone.completesIff_apply (hp : s.program.Valid)
    (hsized : s.program.Sized) (hindexed : s.program.Indexed)
    (hcounter : s.counter + s.program.modules.count + 1 < Checked.sizeLimit)
    (hroot : found.root ∈ s.program.body main) (hinst : s.program.instr? found.root = some inst) :
    (apply found).CompletesIff ((scale? inst).isSome → Blended s.program inst) s fun applied _ =>
      applied = true ↔ (scale? inst).isSome := by
  have hbefore : ∀ x ∈ inst.inputs, Before (s.program.body main) x found.root :=
    fun x hx => hp.toLinked.before_of_uses hroot ⟨inst, hinst, hx⟩
  rw [apply, completesIff_theProgram_bind]
  refine (completesIff_lift_checked_bind (instr_ok.mpr hinst)).mpr ?_
  split
  · next scale hscale =>
    have hop := op_of_scale hscale
    obtain ⟨t, ht, -⟩ := exists_tensor hp hinst hop
    simp only [hscale, Option.isSome_some, forall_const, iff_true]
    have hS : ∀ m, Site.Sound ⟨s.program, m, found.root,
        fun i => Before (s.program.body main) i found.root, fun _ => False, fun _ _ => False⟩ :=
      fun m => Site.sound_before hp hsized
    refine Fusing.completesIff_region _ [t] (fun _ => ⟨rfl, rfl⟩) hS (fun _ => hroot)
      (Fusing.completes_freshName hindexed hcounter _) (fun m w hw => ?_)
      fun m inputs t' hm hcall => ?_
    · refine (completesIff_rebuild hw (hS m) hinst hbefore hscale).bind ?_
      rintro i w' ⟨names, hyields, htwo, hfive⟩
      rw [completes_pure]
      exact ⟨⟨names, hyields.isOpen, Interval.contains_atLeast htwo (hfive.trans_lt (by decide))⟩,
        Interval.contains_atLeast (Nat.le_refl 1) (Nat.one_lt_two.trans (by decide)),
        .cons (ht ▸ hyields.held) .nil⟩
    · rw [ValueType.ofElements, ← ht] at hcall
      have hinner : inst.op.isBoundary = false := by rw [hop]; rfl
      refine Fusing.completes_call (S := ⟨s.program, m, found.root, _, _, _⟩) hcall (hS m) hroot
        hinst hinner hm (fun x hx => (hbefore x hx).left_mem) fun t _ => ?_
      rw [completes_pure]
  · next hnone =>
    rw [Option.eq_none_iff_forall_ne_some.mpr hnone]
    exact .inl ⟨fun h => absurd h Bool.false_ne_true,
      completes_pure.mpr (iff_of_false Bool.false_ne_true Bool.false_ne_true)⟩

end

end Attention

end OffloadFusion
