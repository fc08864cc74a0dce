import OffloadFusion.Proofs.Counting

/-!
# What a run leaves

The families of single anchors and of attention rest everywhere when they come to an end, and what
comes later only brings glue into the main module. Whether an instruction is an anchor to wrap only
depends on its operation and on the element types and dimensions that it reads and gives
(`Standalone.run_congr`), so **nothing that they could have fused is left in the end**
(`Program.nothing_eligible_left`).
-/

namespace OffloadFusion

open OffloadFusion.Action Program

variable {p q : Program} {i x y : InstrId} {a b : Instruction} {h : Heuristics} {mode : Mode}
  {s t : Session} {found : Match}

/-! ## What is read -/

theorem ValueType.Alike.tensor? {a b : ValueType} (h : a.Alike b) :
    Option.Rel TensorType.Alike a.tensor? b.tensor? := by
  cases a with
  | tensor t =>
    obtain ⟨u, rfl, htu⟩ := ValueType.alike_tensor.mp h
    exact .some htu
  | tuple ts =>
    obtain ⟨us, rfl, -⟩ := ValueType.alike_tuple.mp h
    exact .none

theorem all_congr_rel {α β : Type} {R : α → β → Prop} {f : α → Bool} {g : β → Bool}
    (hfg : ∀ {a b}, R a b → f a = g b) {l : List α} {l' : List β} (h : List.Forall₂ R l l') :
    l.all f = l'.all g := by
  induction h with
  | nil => rfl
  | cons hab _ ih => rw [List.all_cons, List.all_cons, hfg hab, ih]

namespace Program

theorem tensor?_typeAt (p : Program) (x : InstrId) :
    (p.instr? x).bind Instruction.tensor? = (p.typeAt x).tensor? := by
  rw [typeAt]
  cases p.instr? x <;> rfl

theorem operandTensor?_eq (hl : p.Linked) (ha : p.instr? i = some a) (hx : x ∈ a.inputs) :
    Eligible.operandTensor? p x = .ok (p.typeAt x).tensor? := by
  obtain ⟨xinst, hxi, -⟩ := hl.operand ha hx
  rw [Eligible.operandTensor?, instr_ok.mpr hxi, typeAt_eq ⟨xinst, hxi, rfl⟩]
  rfl

theorem operandTensors_eq (hl : p.Linked) (ha : p.instr? i = some a) :
    a.inputs.mapM (Eligible.operandTensor? p) =
      .ok (a.inputs.map fun x => (p.typeAt x).tensor?) := by
  refine Outcome.mapM_ok.mpr (List.forall₂_map_right_iff.mpr ?_)
  exact List.forall₂_same.mpr fun x hx => operandTensor?_eq hl ha hx

/-- What survives reads tensors of the same element types and dimensions. -/
theorem Survives.tensors (hab : Survives p q a b) : List.Forall₂ (Option.Rel TensorType.Alike)
    (a.inputs.map fun x => (p.typeAt x).tensor?) (b.inputs.map fun y => (q.typeAt y).tensor?) :=
  List.forall₂_map_left_iff.mpr (List.forall₂_map_right_iff.mpr
    (hab.inputs.imp fun _ _ h => h.tensor?))

end Program

/-! ## Eligibility -/

namespace Eligible

theorem dotInMode_congr (mode : Mode) (anchor : Bool) (h : Heuristics) {ts us : List TensorType}
    (halike : List.Forall₂ TensorType.Alike ts us) :
    dotInMode mode anchor ts h = dotInMode mode anchor us h := by
  cases mode with
  | all | none => rfl
  | int8 => exact all_congr_rel (fun htu => congrArg DType.is8Bit htu.1) halike
  | fast =>
    cases halike with
    | nil => rfl
    | cons htu _ =>
      simp only [dotInMode, List.head?_cons, Option.any_some, TensorType.contraction, htu.2]
      rfl

/-- A dot is one to offload, or not, with any other strides. -/
theorem dot_congr {anchor : Bool} (hab : Survives p q a b) (hp : p.Linked) (hq : q.Linked)
    (ha : p.instr? i = some a) (hb : q.instr? i = some b) :
    dot p i mode anchor h = dot q i mode anchor h := by
  have hin := dotInMode_congr mode anchor h (List.rel_filterMap (fun _ _ hr => hr) hab.tensors)
  have hp' := operandTensors_eq hp ha
  have hq' := operandTensors_eq hq hb
  obtain ⟨op, inputs, modules, type, _, _⟩ := a
  obtain ⟨_, inputs', _, type', _, _⟩ := b
  obtain rfl : op = _ := hab.op
  unfold dot
  rw [ha, hb]
  split
  · rfl
  cases op with
  | dot quantized =>
    cases type with
    | tuple ts =>
      obtain ⟨us, rfl, -⟩ := ValueType.alike_tuple.mp hab.type
      rfl
    | tensor t =>
      obtain ⟨u, rfl, htu⟩ := ValueType.alike_tensor.mp hab.type
      dsimp only at hp' hq' hin ⊢
      rw [hp', hq', htu.1]
      split
      · rfl
      · exact congrArg Except.ok hin
  | _ => rfl

theorem dot_glue {anchor : Bool} (hb : q.instr? i = some b) (hglue : b.op.isGlue = true) :
    dot q i mode anchor h = .ok false := by
  obtain ⟨op, inputs, modules, type, _, _⟩ := b
  rw [dot, hb]
  cases op with
  | dot quantized => cases hglue
  | _ => exact ite_self _

theorem conv_glue (hb : q.instr? i = some b) (hglue : b.op.isGlue = true) :
    conv q i mode h = .ok false := by
  obtain ⟨op, inputs, modules, type, _, _⟩ := b
  rw [conv, hb]
  cases op with
  | conv c => cases hglue
  | _ => exact ite_self _

theorem tensorAt?_eq (hl : p.Linked) (ha : p.instr? i = some a) (n : Nat) :
    tensorAt? p a.inputs n = .ok ((a.inputs.map fun x => (p.typeAt x).tensor?)[n]?.join) := by
  rw [tensorAt?, List.getElem?_map]
  cases hn : a.inputs[n]? with
  | none => rfl
  | some x => exact operandTensor?_eq hl ha (List.mem_of_getElem? hn)

theorem getElem?_join_rel {α β : Type} {R : α → β → Prop} {l : List (Option α)}
    {l' : List (Option β)} (h : List.Forall₂ (Option.Rel R) l l') (n : Nat) :
    Option.Rel R l[n]?.join l'[n]?.join := by
  induction h generalizing n with
  | nil => exact .none
  | cons hab _ ih =>
    cases n with
    | zero => exact hab
    | succ n => exact ih n

theorem convInMode_congr {group : Nat} {x x' w w' : TensorType} (hx : x.Alike x')
    (hw : w.Alike w') : convInMode mode group x w h = convInMode mode group x' w' h := by
  obtain ⟨_, _, _⟩ := x
  obtain ⟨_, _, _⟩ := w
  obtain ⟨rfl, -⟩ := hx
  obtain ⟨-, rfl⟩ := hw
  rfl

theorem conv_congr (hab : Survives p q a b) (hp : p.Linked) (hq : q.Linked)
    (ha : p.instr? i = some a) (hb : q.instr? i = some b) :
    conv p i mode h = conv q i mode h := by
  have hrel := getElem?_join_rel hab.tensors
  have hp' := tensorAt?_eq hp ha
  have hq' := tensorAt?_eq hq hb
  obtain ⟨op, inputs, modules, type, _, _⟩ := a
  obtain ⟨_, inputs', _, type', _, _⟩ := b
  obtain rfl : op = _ := hab.op
  unfold conv
  rw [ha, hb]
  split
  · rfl
  cases op with
  | conv c =>
    cases type with
    | tuple ts =>
      obtain ⟨us, rfl, -⟩ := ValueType.alike_tuple.mp hab.type
      rfl
    | tensor t =>
      obtain ⟨u, rfl, htu⟩ := ValueType.alike_tensor.mp hab.type
      dsimp only at hp' hq' hrel ⊢
      rw [hp' 0, hq' 0, hp' 1, hq' 1, TensorType.rank, TensorType.rank, htu.2]
      split
      · rfl
      have h₀ := hrel 0
      have h₁ := hrel 1
      revert h₀ h₁
      generalize (inputs.map fun x => (p.typeAt x).tensor?)[0]?.join = x₀
      generalize (inputs'.map fun y => (q.typeAt y).tensor?)[0]?.join = y₀
      generalize (inputs.map fun x => (p.typeAt x).tensor?)[1]?.join = x₁
      generalize (inputs'.map fun y => (q.typeAt y).tensor?)[1]?.join = y₁
      rintro (⟨hx⟩ | _) (⟨hw⟩ | _)
      · exact convInMode_congr hx hw
      all_goals rfl
  | _ => rfl

end Eligible

/-! ## Single anchors -/

namespace Standalone

/-- The operand is a tensor of an element type that is wrapped. -/
def typed (p : Program) (x : InstrId) : Bool :=
  (p.typeAt x).tensor?.any fun t => inputTypes.contains t.dtype

theorem eval_elementType {c : Captures} : Matcher.eval p h (.test (.elementType inputTypes)) x c =
    .ok (if typed p x then some c else none) := by
  have htyped : (Predicate.elementType inputTypes).eval p h x = .ok (typed p x) := by
    rw [typed, ← tensor?_typeAt]
    rfl
  rw [Matcher.eval]
  cases hx : p.instr? x with
  | none =>
    rw [typed, ← tensor?_typeAt, hx]
    rfl
  | some inst =>
    simp only [htyped]
    rfl

theorem through_elementType {c : Captures} (xs : List InstrId) :
    Matcher.through (fun x => Matcher.eval p h (.test (.elementType inputTypes)) x) xs c =
      .ok (if xs.all (typed p) then some c else none) := by
  induction xs with
  | nil => rfl
  | cons x xs ih =>
    rw [Matcher.through, eval_elementType, List.all_cons]
    cases typed p x with
    | true => exact ih
    | false => rfl

theorem run_eq {test : Predicate} (ha : p.instr? i = some a) : (matcher test).run p h i =
    (test.eval p h i).map fun passed =>
      if passed && a.inputs.all (typed p) then some ⟨i, []⟩ else none := by
  have heval : Matcher.eval p h (matcher test) i [] = (test.eval p h i).map fun passed =>
      if passed && a.inputs.all (typed p) then some [] else none := by
    have hmatcher : matcher test =
      .allOf [.test test, .allInputs (.test (.elementType inputTypes))] := rfl
    rw [hmatcher, Matcher.eval, ha]
    simp only [Matcher.evalAll, Matcher.eval, ha, through_elementType]
    cases test.eval p h i with
    | error e => rfl
    | ok passed => cases passed <;> cases a.inputs.all (typed p) <;> rfl
  rw [Matcher.run, heval]
  cases test.eval p h i with
  | error e => rfl
  | ok passed => cases passed <;> cases a.inputs.all (typed p) <;> rfl

/-- **Whether a single anchor matches does not depend on strides.** -/
theorem run_congr {test : Predicate} (hab : Survives p q a b) (ha : p.instr? i = some a)
    (hb : q.instr? i = some b) (htest : test.eval p h i = test.eval q h i) :
    (matcher test).run p h i = (matcher test).run q h i := by
  have hall : a.inputs.all (typed p) = b.inputs.all (typed q) := by
    refine all_congr_rel (fun {x y} hxy => ?_) hab.inputs
    have hrel := hxy.tensor?
    rw [typed, typed]
    revert hrel
    generalize (p.typeAt x).tensor? = t
    generalize (q.typeAt y).tensor? = u
    rintro (⟨htu⟩ | _)
    · simp only [Option.any_some, htu.1]
    · rfl
  rw [run_eq ha, run_eq hb, htest, hall]

theorem run_survives {test : Predicate} (htest : test.isAnchor = true) (hab : Survives p q a b)
    (hp : p.Linked) (hq : q.Linked) (ha : p.instr? i = some a) (hb : q.instr? i = some b) :
    (matcher test).run p h i = (matcher test).run q h i := by
  refine run_congr hab ha hb ?_
  cases test with
  | dot mode anchor => exact Eligible.dot_congr hab hp hq ha hb
  | conv mode => exact Eligible.conv_congr hab hp hq ha hb
  | _ => cases htest

theorem run_glue {test : Predicate} (htest : test.isAnchor = true) (hb : q.instr? i = some b)
    (hglue : b.op.isGlue = true) : (matcher test).run q h i = .ok none := by
  have hfalse : test.eval q h i = .ok false := by
    cases test with
    | dot mode anchor => exact Eligible.dot_glue hb hglue
    | conv mode => exact Eligible.conv_glue hb hglue
    | _ => cases htest
  rw [run_eq hb, hfalse]
  rfl

/-- No match is declined. -/
theorem apply_ne_false : apply found s ≠ .ok false t := by
  intro hok
  simp only [apply, Action.bind_ok] at hok
  obtain ⟨_, _, -, _, _, -, _, _, -, _, _, -, _, _, -, _, _, -, _, _, -, hok⟩ := hok
  cases hok

theorem run_of_rests {test : Predicate} {rule : Rule} (hmatcher : rule.matcher = matcher test)
    (happly : rule.apply = apply) (hrests : rule.Rests h s i) :
    (matcher test).run s.program h i = .ok none := by
  obtain hnone | ⟨found, -, hdeclined⟩ := hrests
  · exact hmatcher ▸ hnone
  · rw [happly] at hdeclined
    exact absurd hdeclined apply_ne_false

end Standalone

/-! ## Attention -/

namespace Attention

theorem run_alone {scale : Single} (ha : p.instr? i = some a) (hop : a.op = .attention scale) :
    Alone.matcher.run p h i = .ok (some ⟨i, []⟩) := by
  have hname : [opName].contains a.name = true := by
    rw [Instruction.name, hop]
    rfl
  rw [Matcher.run, Alone.matcher, Matcher.eval, ha]
  simp only [hname, if_true]
  rfl

/-- Only other element types are declined. -/
theorem scale?_of_declined (ha : s.program.instr? found.root = some a)
    (hok : Alone.apply found s = .ok false t) : scale? a = none := by
  rw [Alone.apply, theProgram_bind_ok, Action.lift_checked_bind_ok] at hok
  obtain ⟨inst, hinst, hok⟩ := hok
  cases ha.symm.trans (instr_ok.mp hinst)
  cases hscale : scale? a with
  | none => rfl
  | some scale =>
    simp only [hscale, Action.bind_ok] at hok
    obtain ⟨_, _, -, _, _, -, _, _, -, _, _, -, _, _, -, hok⟩ := hok
    cases hok

theorem scale?_of_rests (hrests : Rule.attention.Rests h s i) (ha : s.program.instr? i = some a) :
    scale? a = none := by
  cases hscale : scale? a with
  | none => rfl
  | some scale =>
    have hop := op_of_scale hscale
    obtain hnone | ⟨found, hmatch, hdeclined⟩ := hrests
    · cases (run_alone ha hop).symm.trans hnone
    · cases (run_alone ha hop).symm.trans hmatch
      rw [scale?_of_declined ha hdeclined] at hscale
      cases hscale

theorem scale?_congr (hab : Survives p q a b) : scale? a = scale? b := by
  have hrel : Option.Rel TensorType.Alike a.tensor? b.tensor? := hab.type.tensor?
  rw [scale?, scale?, hab.op]
  revert hrel
  generalize a.tensor? = t
  generalize b.tensor? = u
  rintro (⟨htu⟩ | _)
  · cases b.op with
    | attention scale => simp only [htu.1]
    | _ => rfl
  · rfl

theorem dtype_of_scale? {scale : Single} {type : TensorType} (hscale : scale? a = none)
    (hop : a.op = .attention scale) (htype : a.tensor? = some type) :
    type.dtype ≠ .f32 ∧ type.dtype ≠ .f16 := by
  rw [scale?, hop, htype] at hscale
  constructor <;> (intro hdtype; simp [hdtype] at hscale)

end Attention

/-! ## Programs in which nothing is left -/

namespace Program

/-- No dot or convolution of the main module is one to wrap on its own. -/
def NoAnchorLeft (c : Config) (p : Program) : Prop :=
  ∀ test, test = .conv (c.mode "convolution") ∨ test = .dot (c.mode "dot") false →
    ∀ i ∈ p.body main, (Standalone.matcher test).run p c.heuristics i = .ok none

/-- No attention of the main module is one to rebuild. -/
def NoAttentionLeft (p : Program) : Prop :=
  ∀ i ∈ p.body main, ∀ a, p.instr? i = some a → Attention.scale? a = none

variable {c : Config}

/-- New glue is no anchor, and what else is there is what was there. -/
theorem NoAnchorLeft.residue (h : p.NoAnchorLeft c) (hr : Residue p q) (hp : p.Linked)
    (hq : q.Linked) : q.NoAnchorLeft c := by
  intro test htest i hi
  have hisAnchor : test.isAnchor = true := by
    obtain rfl | rfl := htest <;> rfl
  obtain ⟨b, hb, -⟩ := hq.owned hi
  by_cases hglue : b.op.isGlue = true
  · exact Standalone.run_glue hisAnchor hb hglue
  · obtain ⟨hi, a, ha, hab⟩ := hr.origin hi hb (Bool.eq_false_iff.mpr hglue)
    rw [← Standalone.run_survives hisAnchor hab hp hq ha hb]
    exact h test htest i hi

theorem NoAttentionLeft.residue (h : p.NoAttentionLeft) (hr : Residue p q) :
    q.NoAttentionLeft := by
  intro i hi b hb
  cases hscale : Attention.scale? b with
  | none => rfl
  | some scale =>
    obtain ⟨hi, a, ha, hab⟩ := hr.origin hi hb (by rw [Attention.op_of_scale hscale]; rfl)
    rw [← Attention.scale?_congr hab, h i hi a ha] at hscale
    cases hscale

end Program

namespace Pass

theorem Stage.standalone_idle {c : Config} {enabled : Bool} {n : Nat}
    (hstage : Stage enabled c.heuristics
      [.standaloneConv (c.mode "convolution"), .standaloneDot (c.mode "dot")] n s t)
    (h : s.program.NoAnchorLeft c) : n = 0 := by
  refine hstage.firings.idle fun rule hrule found t hf => ?_
  have hnone : rule.matcher.run s.program c.heuristics found.root = .ok none := by
    obtain rfl | hrule := List.mem_cons.mp hrule
    · exact h _ (.inl rfl) _ hf.mem
    · obtain rfl := List.mem_singleton.mp hrule
      exact h _ (.inr rfl) _ hf.mem
  cases hnone.symm.trans hf.matched

theorem Stage.attention_idle {enabled : Bool} {rule : Rule} {n : Nat}
    (hstage : Stage enabled h [rule] n s t) (hrule : rule = .fusedAttention ∨ rule = .attention)
    (hp : s.program.Valid) (hleft : s.program.NoAttentionLeft) : n = 0 := by
  refine hstage.firings.idle fun rule' hmem found t hf => ?_
  obtain rfl := List.mem_singleton.mp hmem
  obtain ⟨x, -, hx, inst, scale, hinst, hscale⟩ := hf.rebuilds hp hrule
  cases (hleft x hx inst hinst).symm.trans hscale

namespace Course

variable {c : Config} {stats : Stats} {fused alone : Nat} {s₁ s₂ s₃ s₄ s₅ s₆ : Session}
  (hc : Course c stats fused alone s s₁ s₂ s₃ s₄ s₅ s₆ t) (hp : s.program.Valid)
include hc hp

theorem residue₄ : Residue s₄.program t.program :=
  (((hc.trim hp).residue (hc.valid₄ hp).toLinked).trans
    (hc.splitReduce.firings.residue (hc.valid₅ hp))).trans
      (hc.inputFusion.firings.residue (hc.valid₆ hp))

theorem residue₂ : Residue s₂.program t.program :=
  ((hc.anchorPointwise.firings.residue (hc.valid₂ hp)).trans
    (hc.standalone.firings.residue (hc.valid₃ hp))).trans (hc.residue₄ hp)

theorem residue₃ : Residue s.program s₃.program :=
  ((hc.fusedAttention.firings.residue hp).trans
    (hc.attention.firings.residue (hc.valid₁ hp))).trans
      (hc.anchorPointwise.firings.residue (hc.valid₂ hp))

theorem noAnchorLeft : t.program.NoAnchorLeft c := by
  have hleft : s₄.program.NoAnchorLeft c := by
    intro test htest i hi
    have hrests := hc.standalone.rests rfl i hi
    obtain rfl | rfl := htest
    · exact Standalone.run_of_rests rfl rfl (hrests _ List.mem_cons_self)
    · exact Standalone.run_of_rests rfl rfl (hrests _ (List.mem_cons_of_mem _ List.mem_cons_self))
  exact hleft.residue (hc.residue₄ hp) (hc.valid₄ hp).toLinked (hc.valid hp).toLinked

theorem noAttentionLeft (hon : c.attentionEnabled = true) : t.program.NoAttentionLeft := by
  have hleft : s₂.program.NoAttentionLeft := fun i hi _ ha =>
    Attention.scale?_of_rests (hc.attention.rests hon i hi _ List.mem_cons_self) ha
  exact hleft.residue (hc.residue₂ hp)

theorem idle (hanchor : s.program.NoAnchorLeft c)
    (hattention : c.attentionEnabled = true → s.program.NoAttentionLeft) :
    stats.attention = 0 ∧ stats.standalone = 0 := by
  have halone : fused = 0 ∧ alone = 0 := by
    cases hon : c.attentionEnabled with
    | false => exact ⟨hc.fusedAttention.idle hon, hc.attention.idle hon⟩
    | true =>
      have hleft := hattention hon
      exact ⟨hc.fusedAttention.attention_idle (.inl rfl) hp hleft,
        hc.attention.attention_idle (.inr rfl) (hc.valid₁ hp)
          (hleft.residue (hc.fusedAttention.firings.residue hp))⟩
  refine ⟨by rw [hc.total, halone.1, halone.2], hc.standalone.standalone_idle ?_⟩
  exact hanchor.residue (hc.residue₃ hp) hp.toLinked (hc.valid₃ hp).toLinked

end Course

end Pass

/-! ## All together -/

/-- **Nothing that could be fused on its own is left.** If the pass is on and comes to an end on a
verified program, then no instruction of its main module matches the rule for a single convolution
or the one for a single dot, in the modes of the configuration; and if attention is enabled, no
attention over 32-bit or 16-bit floats is left there. -/
theorem Program.nothing_eligible_left (p q : Program) (c : Config) (stats : Stats)
    (hv : p.verify = .ok ()) (hon : c.disabled = false) (hrun : Pass.run c p = .ok stats q) :
    (∀ i ∈ q.body main,
      (Rule.standaloneConv (c.mode "convolution")).matcher.run q c.heuristics i = .ok none ∧
      (Rule.standaloneDot (c.mode "dot")).matcher.run q c.heuristics i = .ok none) ∧
    (c.attentionEnabled = true → ∀ i ∈ q.body main, ∀ inst scale type, q.instr? i = some inst →
      inst.op = .attention scale → inst.tensor? = some type →
      type.dtype ≠ .f32 ∧ type.dtype ≠ .f16) := by
  have hp := verify_ok.mp hv
  obtain ⟨fused, alone, s₁, s₂, s₃, s₄, s₅, s₆, t, rfl, hc⟩ := Pass.run_ok hp hon hrun
  have hanchor := hc.noAnchorLeft hp
  refine ⟨fun i hi => ⟨hanchor _ (.inl rfl) i hi, hanchor _ (.inr rfl) i hi⟩, ?_⟩
  intro hattention i hi inst scale type hinst hop htype
  exact Attention.dtype_of_scale? (hc.noAttentionLeft hp hattention i hi inst hinst) hop htype

/-- An attention, and a dot that reads it. -/
def Program.attended : Program :=
  (do
    let a ← Edit.addParameter main "a" ⟨.f32, [2, 2], [2, 1]⟩
    let b ← Edit.addParameter main "b" ⟨.f32, [2, 2], [2, 1]⟩
    let scores ← Edit.addInstruction main (.attention ⟨0x3f800000⟩) [a, b, a] []
    let product ← Edit.addInstruction main (.dot false) [scores, b] []
    let _ ← Edit.addReturn main [product] : Edit Unit).after .empty

/-- Both are wrapped. -/
theorem Program.nothing_eligible_after_attention : attended.verify = .ok () ∧
    ∃ stats q, Pass.run { Config.default with attention := true } attended = .ok stats q ∧
      ∀ i ∈ q.body main, ∀ inst scale type, q.instr? i = some inst → inst.op = .attention scale →
        inst.tensor? = some type → type.dtype ≠ .f32 ∧ type.dtype ≠ .f16 := by
  have hv : attended.verify = .ok () := by decide +kernel
  have hends : (match Pass.run { Config.default with attention := true } attended with
      | .ok _ _ => true
      | .error _ _ => false) = true := by decide +kernel
  split at hends
  · next stats q hrun =>
    exact ⟨hv, stats, q, hrun,
      (nothing_eligible_left attended q _ stats hv rfl hrun).2 rfl⟩
  · cases hends

/-! ## Running again -/

/-- **A second run finds no attention and no single anchor.** If the pass is run on what it ended
with, in the same configuration, and comes to an end again, then it has rebuilt no attention and
wrapped no dot or convolution. -/
theorem Program.second_run_idle (p q r : Program) (c : Config) (stats stats' : Stats)
    (hv : p.verify = .ok ()) (hrun : Pass.run c p = .ok stats q)
    (hagain : Pass.run c q = .ok stats' r) : stats'.attention = 0 ∧ stats'.standalone = 0 := by
  have hp := verify_ok.mp hv
  cases hon : c.disabled with
  | true =>
    rw [Pass.run, hon, if_pos rfl] at hagain
    cases hagain
    exact ⟨rfl, rfl⟩
  | false =>
    obtain ⟨_, _, _, _, _, _, _, _, t, rfl, hc⟩ := Pass.run_ok hp hon hrun
    have ht := hc.valid hp
    obtain ⟨_, _, _, _, _, _, _, _, u, -, hc'⟩ := Pass.run_ok ht hon hagain
    exact hc'.idle ht (hc.noAnchorLeft hp) (hc.noAttentionLeft hp)

namespace Program

/-- A pointwise of two dots, the second of which depends on the first one, and a reduction of it. -/
def entangled : Program :=
  (do
    let clamp ← Edit.createModule "f"
    let x ← Edit.addParameter clamp "x0" ⟨.f32, [1], [1]⟩
    let _ ← Edit.addParameter clamp "x1" ⟨.i32, [1], [1]⟩
    let y ← Edit.addInstruction clamp (.unary .relu) [x] []
    let _ ← Edit.addReturn clamp [y]
    let clampInts ← Edit.createModule "g"
    let x ← Edit.addParameter clampInts "x0" ⟨.i32, [1], [1]⟩
    let y ← Edit.addInstruction clampInts (.unary .relu) [x] []
    let _ ← Edit.addReturn clampInts [y]
    let total ← Edit.createModule "h"
    let x ← Edit.addParameter total "x0" ⟨.f32, [2, 2], [2, 1]⟩
    let y ← Edit.addInstruction total (.reduce .sum [1]) [x] []
    let _ ← Edit.addReturn total [y]
    let a ← Edit.addParameter main "a" ⟨.f32, [2, 2], [2, 1]⟩
    let b ← Edit.addParameter main "b" ⟨.f32, [2, 2], [2, 1]⟩
    let c ← Edit.addParameter main "c" ⟨.i32, [2, 2], [2, 1]⟩
    let first ← Edit.addInstruction main (.dot false) [a, b] []
    let ints ← Edit.addInstruction main (.convert .i32) [first] []
    let ints ← Edit.addInstruction main .pointwise [ints] [clampInts]
    let second ← Edit.addInstruction main (.dot false) [ints, c] []
    let result ← Edit.addInstruction main .pointwise [first, second] [clamp]
    let sums ← Edit.addInstruction main (.splitFusedReduce [1]) [result] [total]
    let _ ← Edit.addReturn main [sums] : Edit Unit).after .empty

/-- All families but that of attention. -/
def withoutAttention : Config := { Config.default with reduceFusion := true, inputFusion := true }

/-- What a second run did, if both come to an end. -/
def again? (c : Config) (p : Program) : Option Stats :=
  match Pass.run c p with
  | .ok _ q => match Pass.run c q with
    | .ok stats _ => some stats
    | .error _ _ => none
  | .error _ _ => none

theorem exists_runs {c : Config} {stats' : Stats} (h : again? c p = some stats') :
    ∃ stats q r, Pass.run c p = .ok stats q ∧ Pass.run c q = .ok stats' r := by
  unfold again? at h
  split at h
  · next stats q hrun =>
    split at h
    · next r hagain =>
      cases h
      exact ⟨stats, q, r, hrun, hagain⟩
    · cases h
  · cases h

/-- The first run declines the pointwise, since the second dot depends on the first one, and wraps
the first dot; the second run finds the second dot above the pointwise. -/
theorem second_run_fuses : entangled.verify = .ok () ∧ ∃ stats q stats' r,
    Pass.run withoutAttention entangled = .ok stats q ∧
      Pass.run withoutAttention q = .ok stats' r ∧ stats'.anchorPointwise = 1 ∧
        stats'.splitReduce = 1 ∧ stats'.inputFusion = 1 ∧ stats'.applied = .ok 3 := by
  have hv : entangled.verify = .ok () := by decide +kernel
  have hagain : (again? withoutAttention entangled).any (fun stats => stats.anchorPointwise = 1 ∧
      stats.splitReduce = 1 ∧ stats.inputFusion = 1 ∧ stats.applied = .ok 3) = true := by
    decide +kernel
  obtain ⟨stats', hagain, hcounts⟩ := (Option.any_eq_true _ _).mp hagain
  obtain ⟨stats, q, r, hrun, hrun'⟩ := exists_runs hagain
  exact ⟨hv, stats, q, stats', r, hrun, hrun', of_decide_eq_true hcounts⟩

/-- Its single anchors are all wrapped by the first run. -/
theorem second_run_idle_entangled : ∃ stats q stats' r,
    Pass.run withoutAttention entangled = .ok stats q ∧
      Pass.run withoutAttention q = .ok stats' r ∧ stats'.attention = 0 ∧
        stats'.standalone = 0 := by
  have hv : entangled.verify = .ok () := by decide +kernel
  have hagain : (again? withoutAttention entangled).isSome = true := by decide +kernel
  obtain ⟨stats', hagain⟩ := Option.isSome_iff_exists.mp hagain
  obtain ⟨stats, q, r, hrun, hrun'⟩ := exists_runs hagain
  exact ⟨stats, q, stats', r, hrun, hrun',
    second_run_idle entangled q r withoutAttention stats stats' hv hrun hrun'⟩

end Program

end OffloadFusion
