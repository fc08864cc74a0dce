import OffloadFusion.Proofs.Gridding
import OffloadFusion.Proofs.Rebuilding

/-!
# Pointwise instructions below attention are absorbed

The body of a pointwise instruction that reads an attention is replayed on the value to which the
attention is rebuilt, and one call takes the place of both.

* `Fused.completesIff_steps`: the region of both is built.
* **`applies_iff_blended`**: attention, alone or with the pointwise below it, is fused exactly where
  it is blended with its own element type, and else the rule stops.
-/

namespace OffloadFusion

open OffloadFusion.Action Program Typing

namespace Attention

section

variable {G : Grid} {p : Program} {m body : ModuleId} {root attention : InstrId}
  {inst pwInst : Instruction} {r t : TensorType} {w : Workspace} {C : InstrId → Prop}

/-- **The region of an attention with the pointwise below it is built exactly where the attention is
blended with its own element type.** -/
theorem Fused.completesIff_steps {scale : Single} (hmap : Pointwise p pwInst body G r)
    (hS : (G.site p m root C).Sound) (hopen : Building.Open (G.site p m root C) [] w)
    (hbody : body ≠ m) (helem : p.Elementwise body) (hdims : 1 ≤ G.dims.length)
    (hliterals : ∀ i ∈ p.body body, p.hasOp Op.isLiteral i → G.lax i)
    (hinputs : ∀ i ∈ pwInst.inputs, ¬ G.lax i) (hgives : ∀ x, p.given? body = some x → ¬ G.lax x)
    (hpw : p.instr? root = some pwInst) (hinst : p.instr? attention = some inst)
    (huses : attention ∈ pwInst.inputs)
    (htype : inst.type = .tensor t) (ht : t.asStandard = .ok t)
    (hsources : ∀ x ∈ pwInst.inputs, C x) (hscale : scale? inst = some scale) :
    (do
      let value ← rebuild scale inst.inputs
      Building.rehomeLiterals body G.dims
      Building.know attention value
      Building.fuse body pwInst.inputs .plain).CompletesIff (Blended p inst) w
        (Building.Returns (G.site p m root C) [G.tensor r.dtype]) := by
  have hsource := hsources attention huses
  refine (completesIff_rebuild hopen hS hinst (fun x hx => hS.closed hsource ⟨inst, hinst, hx⟩)
    hscale).bind
    fun value w₁ ⟨names, h₁, htwo, hfive⟩ => ?_
  rw [completes_bind]
  obtain ⟨params, hsig⟩ := hmap.signature
  obtain ⟨module, hmodule, -⟩ := signature_ok.mp hsig
  have halive : (p.module? body).isSome := by rw [hmodule]; rfl
  refine (Grid.completes_rehomeLiterals hS.valid hbody helem halive hdims hliterals
    h₁.isOpen).mono fun _ w₂ ⟨h₂, hlater, hknown⟩ => ?_
  rw [completes_bind]
  have hadmits : G.Admits p attention t := by
    obtain ⟨_, -, _, u, -, hu, hover⟩ := forall₂_exists hmap.operands.flip huses
    cases hasType_unique hu ⟨inst, hinst, htype⟩
    refine ⟨⟨t, hu, rfl, hover.2⟩, hS.valid.isReturn_of_before (hS.before hsource), fun _ => ?_⟩
    obtain ⟨strides, hstrides, he⟩ := standard_ok.mp ht
    rw [hover.2, hmap.rowMajor] at hstrides
    cases hstrides
    rw [he]
  refine (Grid.completes_know h₂ hadmits (hlater.fills.held (htype ▸ h₁.held))).mono
    fun _ w₃ ⟨h₃, hlater', _⟩ => ?_
  have hlax : List.Forall₂ (fun param input => G.lax input → G.lax param) (p.parameters body)
      pwInst.inputs := by
    obtain ⟨hlen, -⟩ := List.forall₂_iff_zip.mp hmap.operands
    exact List.forall₂_iff_zip.mpr ⟨hlen, fun hmem hinput =>
      absurd hinput (hinputs _ (List.of_mem_zip hmem).2)⟩
  refine (hmap.completes_fuse hS h₃ hbody helem (fun x hx => .inr (hsources x hx)) hlax
    fun i hi hop => hlater'.known i (hknown i hi hop)).mono fun values w₄ => ?_
  rintro ⟨value, u, more, rfl, hlen, hover, hsame, h₄⟩
  have hsame := (hmap.type.symm.trans (hsame hgives))
  cases hsame
  refine ⟨⟨_, h₄.isOpen, Interval.contains_atLeast ?_ ?_⟩,
    Interval.contains_atLeast (Nat.le_refl 1) (Nat.one_lt_two.trans (by decide)),
    .cons h₄.held .nil⟩
  · rw [List.length_append]
    omega
  · rw [List.length_append]
    have hoperands := hS.sized.operands hpw
    have hlimit : 10 < Checked.sizeLimit := by decide
    omega

end

variable {s : Session} {found : Match} {inst pwInst : Instruction} {attention : InstrId}

/-- **Attention and the pointwise below it are fused exactly where the attention is blended with its
own element type.** -/
theorem Fused.completesIff_apply (hp : s.program.Valid) (hfree : s.program.Free main)
    (hsized : s.program.Sized) (hindexed : s.program.Indexed)
    (hcounter : s.counter + s.program.modules.count + 1 < Checked.sizeLimit)
    (hroot : found.root ∈ s.program.body main) (hget : found.get "gsg" = .ok attention)
    (hpw : s.program.instr? found.root = some pwInst) (hop : pwInst.op = .pointwise)
    (huses : attention ∈ pwInst.inputs) (hinst : s.program.instr? attention = some inst)
    (helem : ∀ body ∈ pwInst.modules, s.program.Elementwise body)
    (hgives : ∀ body ∈ pwInst.modules, ∀ x, s.program.given? body = some x →
      s.program.hasOp Op.isLiteral x = false) :
    (apply found).CompletesIff ((scale? inst).isSome → Blended s.program inst) s fun applied _ =>
      applied = true ↔ (scale? inst).isSome := by
  have hl := hp.toLinked
  have hbefore : ∀ x ∈ pwInst.inputs, Before (s.program.body main) x found.root :=
    fun x hx => hl.before_of_uses hroot ⟨pwInst, hpw, hx⟩
  have hmem := (hbefore attention huses).left_mem
  obtain ⟨body, G, r, hlax, hmap⟩ := pointwise_of_valid hp hpw hop fun body i =>
    i ∈ s.program.body body ∧ s.program.hasOp Op.isLiteral i
  have hmodules := hmap.modules
  rw [apply]
  refine (completesIff_lift_bind hget).mpr ?_
  rw [completesIff_theProgram_bind]
  refine (completesIff_lift_checked_bind (instr_ok.mpr hinst)).mpr ?_
  split
  · next scale hscale =>
    obtain ⟨t, ht, hstandard, hrank⟩ := exists_tensor hp hinst (op_of_scale hscale)
    simp only [hscale, Option.isSome_some, forall_const, iff_true]
    refine (completesIff_lift_checked_bind (instr_ok.mpr hpw)).mpr ?_
    rw [hmodules, List.forall_mem_singleton] at helem hgives
    rw [hmodules]
    obtain ⟨params, hsig⟩ := hmap.signature
    obtain ⟨module, hmodule, -⟩ := signature_ok.mp hsig
    have hmain : body ≠ main := fun he =>
      hfree _ _ hpw (he ▸ hmodules ▸ List.mem_singleton_self body)
    refine (completesIff_lift_graph_bind (tensorOf_ok.mpr ⟨pwInst, hpw, hmap.type⟩)).mpr ?_
    refine (completesIff_lift_checked_bind (module_ok.mpr hmodule)).mpr ?_
    have hname := Fusing.completes_freshName hindexed hcounter ("offload_" ++ opName)
    have hS : ∀ m, (G.site s.program m found.root
        fun i => Before (s.program.body main) i found.root).Sound :=
      fun m => Site.sound_before hp hsized
    refine Fusing.completesIff_region _ [G.tensor r.dtype] (fun _ => ⟨rfl, rfl⟩) hS
      (fun _ => hroot) hname (fun m w hw => ?_) fun m inputs t' hm hcall => ?_
    · have hbody : body ≠ m := hw.ne_module hmodule
      refine Fused.completesIff_steps hmap (hS m) hw hbody helem ?_ (fun i hi hop => ?_)
        (fun i hi => ?_) (fun x hx => ?_) hpw hinst huses ht hstandard hbefore hscale
      · obtain ⟨_, -, _, u, -, hu, hover⟩ := forall₂_exists hmap.operands.flip huses
        rw [← hover.2]
        cases hasType_unique hu ⟨inst, hinst, ht⟩
        exact hrank
      · rw [hlax]
        exact ⟨hi, hop⟩
      · rw [hlax]
        rintro ⟨hmem', -⟩
        obtain ⟨_, hi', rfl⟩ := hp.owned hmem'
        exact hmain (hl.owner_unique hi' (hbefore i hi).left_mem)
      · rw [hlax]
        rintro ⟨-, hliteral⟩
        rw [hgives x hx] at hliteral
        cases hliteral
    · rw [ValueType.ofElements, ← hmap.type] at hcall
      have hinner : pwInst.op.isBoundary = false := by rw [hop]; rfl
      refine Fusing.completes_call (S := G.site s.program m found.root _) hcall (hS m) hroot hpw
        hinner hm (fun x hx => ?_) fun t ht => ?_
      · rwa [List.mem_singleton.mp hx]
      · refine Fusing.completes_release ht fun t _ => ?_
        rw [completes_pure]
  · next hnone =>
    rw [Option.eq_none_iff_forall_ne_some.mpr hnone]
    exact .inl ⟨fun h => absurd h Bool.false_ne_true,
      completes_pure.mpr (iff_of_false Bool.false_ne_true Bool.false_ne_true)⟩

/-- The attention is left alone if it has another element type, and else fused exactly where it is
blended with its own. -/
structure Rebuilds (p : Program) (counter : Nat) (inst : Instruction) (steps : Fusing Bool) :
    Prop where
  declines : scale? inst = none → steps ⟨p, counter⟩ = .ok false ⟨p, counter⟩
  applies : (scale? inst).isSome → Blended p inst → ∃ t, steps ⟨p, counter⟩ = .ok true t
  stops : (scale? inst).isSome → ¬ Blended p inst → ∃ e t, steps ⟨p, counter⟩ = .error e t

theorem Rebuilds.of_completesIff {p : Program} {counter : Nat} {steps : Fusing Bool}
    {used : List InstrId}
    (h : steps.CompletesIff ((scale? inst).isSome → Blended p inst) ⟨p, counter⟩ fun applied _ =>
      applied = true ↔ (scale? inst).isSome)
    (hends : steps.Ends ⟨p, counter⟩ (Applied used ⟨p, counter⟩)) :
    Rebuilds p counter inst steps := by
  refine ⟨fun hnone => ?_, fun hsome hblended => ?_, fun hsome hnot => h.stops fun hB =>
    hnot (hB hsome)⟩
  · obtain ⟨applied, t, hok, hiff, happlied⟩ :=
      (h.completes fun hsome => by rw [hnone] at hsome; cases hsome).and_ends hends
    rw [hnone] at hiff
    obtain rfl : applied = false := Bool.eq_false_iff.mpr fun he => Bool.false_ne_true (hiff.mp he)
    rw [hok, happlied.declined rfl]
  · obtain ⟨applied, t, hok, hiff⟩ := h.completes fun _ => hblended
    rw [hiff.mpr hsome] at hok
    exact ⟨t, hok⟩

/-- **Attention is fused exactly where it is blended with its own element type.** The type rule of
attention does not compare the element type of a bias, or of the values that a mask fills in, with
that of the scores; the rules that rebuild it stop where they differ. -/
theorem applies_iff_blended (p : Program) (hv : p.verify = .ok ())
    (hfree : ∀ i inst, p.instr? i = some inst → main ∉ inst.modules) (hsized : p.Sized)
    (hindexed : p.Indexed) (h : Heuristics) (counter : Nat)
    (hcounter : counter + p.modules.count + 1 < Checked.sizeLimit) :
    (∀ root found, root ∈ p.body main → Rule.attention.matcher.run p h root = .ok (some found) →
      ∃ inst, p.instr? root = some inst ∧
        Rebuilds p counter inst (Rule.attention.apply found)) ∧
    ∀ root found, root ∈ p.body main →
      Rule.fusedAttention.matcher.run p h root = .ok (some found) →
      (∀ pw body, p.instr? root = some pw → body ∈ pw.modules → p.Elementwise body ∧
        ∀ x, p.given? body = some x → p.hasOp Op.isLiteral x = false) →
      ∃ attention inst, found.get "gsg" = .ok attention ∧ p.instr? attention = some inst ∧
        Rebuilds p counter inst (Rule.fusedAttention.apply found) := by
  have hp := verify_ok.mp hv
  refine ⟨fun root found hroot hmatch => ?_, fun root found hroot hmatch hbodies => ?_⟩
  · obtain ⟨inst, hinst, -⟩ := hp.owned hroot
    have hends := Rule.attention.ends_apply (s := ⟨p, counter⟩) (hp.steady _) hroot hmatch
    obtain rfl : found.root = root := (Matcher.run_ok hmatch).1
    exact ⟨inst, hinst, .of_completesIff (Alone.completesIff_apply (s := ⟨p, counter⟩) hp
      hsized hindexed hcounter hroot hinst) hends⟩
  · have hends := Rule.fusedAttention.ends_apply (s := ⟨p, counter⟩) (hp.steady _) hroot hmatch
    obtain ⟨rfl, ⟨_, htest⟩, attention, hget, ⟨pwInst, hpw, huses⟩, -⟩ :=
      Matcher.exists_capture hmatch
    obtain ⟨pwInst', hpw', hop⟩ := Eligible.op_of_pointwise (Matcher.eval_test_ok htest).1
    cases hpw.symm.trans hpw'
    obtain ⟨inst, hinst, -⟩ := hp.owned (hp.mem_body_of_uses hroot ⟨pwInst, hpw, huses⟩)
    exact ⟨attention, inst, hget, hinst, .of_completesIff (Fused.completesIff_apply
      (s := ⟨p, counter⟩) hp hfree hsized hindexed hcounter hroot hget hpw hop huses hinst
      (fun body hmem => (hbodies pwInst body hpw hmem).1)
      fun body hmem => (hbodies pwInst body hpw hmem).2) hends⟩

/-- An attention with a bias of an element type, and a pointwise below it. -/
def biased (dtype : DType) : Program :=
  (do
    let body ← Edit.createModule "f"
    let x ← Edit.addParameter body "x0" ⟨.f32, [1], [1]⟩
    let y ← Edit.addInstruction body (.unary .relu) [x] []
    let _ ← Edit.addReturn body [y]
    let a ← Edit.addParameter main "a" ⟨.f32, [2, 3], [3, 1]⟩
    let b ← Edit.addParameter main "b" ⟨.f32, [3, 4], [4, 1]⟩
    let bias ← Edit.addParameter main "bias" ⟨dtype, [2, 4], [4, 1]⟩
    let v ← Edit.addParameter main "v" ⟨.f32, [4, 5], [5, 1]⟩
    let scores ← Edit.addInstruction main (.attention ⟨0x3f000000⟩) [a, b, bias, v] []
    let result ← Edit.addInstruction main .pointwise [scores] [body]
    let _ ← Edit.addReturn main [result] : Edit Unit).after .empty

/-- Attention with a bias of its own element type is fused, on its own and with the pointwise. -/
theorem applies_at_single_bias : (biased .f32).verify = .ok () ∧
    (∃ t, Rule.attention.apply ⟨⟨7⟩, []⟩ ⟨biased .f32, 0⟩ = .ok true t) ∧
    ∃ t, Rule.fusedAttention.apply ⟨⟨8⟩, [("gsg", ⟨7⟩)]⟩ ⟨biased .f32, 0⟩ = .ok true t := by
  have hv : (biased .f32).verify = .ok () := by decide +kernel
  have hfree : ∀ i inst, (biased .f32).instr? i = some inst → main ∉ inst.modules := by
    intro i inst hi
    have hall : ∀ entry ∈ (biased .f32).instructions.entries, main ∉ entry.2.modules := by
      decide +kernel
    exact hall (i.index, inst) (Arena.mem_entries.mpr hi)
  have hsized : (biased .f32).Sized := by decide +kernel
  have hindexed : (biased .f32).Indexed :=
    Indexed.of_entries (by decide +kernel) (by decide +kernel)
  have hblended : ∀ inst ∈ (biased .f32).instr? ⟨7⟩,
      (scale? inst).isSome ∧ Blended (biased .f32) inst := by
    decide +kernel
  have hbodies : ∀ pw ∈ (biased .f32).instr? ⟨8⟩, ∀ body ∈ pw.modules,
      (biased .f32).Elementwise body ∧
      ∀ x ∈ (biased .f32).given? body, (biased .f32).hasOp Op.isLiteral x = false := by
    decide +kernel
  obtain ⟨halone, hfused⟩ := applies_iff_blended (biased .f32) hv hfree hsized hindexed .default 0
    (by decide +kernel)
  obtain ⟨inst, hinst, hrebuilds⟩ := halone ⟨7⟩ ⟨⟨7⟩, []⟩ (by decide +kernel) (by decide +kernel)
  obtain ⟨attention, inst', hget, hinst', hrebuilds'⟩ := hfused ⟨8⟩ ⟨⟨8⟩, [("gsg", ⟨7⟩)]⟩
    (by decide +kernel) (by decide +kernel) fun pw body hpw hbody => hbodies pw hpw body hbody
  obtain ⟨hsome, hblends⟩ := hblended inst hinst
  have hseven : Match.get ⟨⟨8⟩, [("gsg", ⟨7⟩)]⟩ "gsg" = .ok ⟨7⟩ := by decide +kernel
  obtain rfl : attention = ⟨7⟩ := Except.ok.inj (hget.symm.trans hseven)
  obtain ⟨hsome', hblends'⟩ := hblended inst' hinst'
  exact ⟨hv, hrebuilds.applies hsome hblends, hrebuilds'.applies hsome' hblends'⟩

/-- Attention with a bias of another element type verifies and matches, but it stops the rule. -/
theorem stops_at_half_bias :
    (biased .f16).verify = .ok () ∧ (biased .f16).Sized ∧
      Rule.attention.matcher.run (biased .f16) .default ⟨7⟩ = .ok (some ⟨⟨7⟩, []⟩) ∧
      ∀ applied t, Rule.attention.apply ⟨⟨7⟩, []⟩ ⟨biased .f16, 0⟩ ≠ .ok applied t := by
  refine ⟨by decide +kernel, by decide +kernel, by decide +kernel, fun applied t h => ?_⟩
  have hstops : (match Rule.attention.apply ⟨⟨7⟩, []⟩ ⟨biased .f16, 0⟩ with
      | .ok _ _ => false
      | .error _ _ => true) = true := by decide +kernel
  rw [h] at hstops
  cases hstops

end Attention

end OffloadFusion
