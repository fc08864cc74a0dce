import OffloadFusion.Proofs.Carrying
import OffloadFusion.Proofs.Preserving
import OffloadFusion.Proofs.Stopping

/-!
# Callers of a changed module

Replacing an instruction infers types again inside its module, but not those of the instructions
that carry the module. **Such a caller keeps the type that inference gives it exactly if the module
takes and returns the same, layouts included, or if the caller is pointwise and the parameters are
left** (`Command.caller_fresh_iff`): a pointwise reads the element type of what its body returns.

* `Op.inferType_recall`: the type of a caller follows what its module returns.
* `Revised m p q`: what a replacement in `m` leaves behind for the callers of `m`.
-/

namespace OffloadFusion

open Typing

/-! ## Types of callers -/

namespace Op

variable {op : Op} {types : List ValueType} {s s' : Signature} {type : ValueType}

theorem eq_nil_or_single {signatures : List Signature}
    (h : op.inferType types signatures = .ok type) : signatures = [] ∨ ∃ s, signatures = [s] := by
  cases hop : op.carriesModules with
  | false => exact .inl (signatures_eq_nil hop h)
  | true =>
    cases op with
    | pointwise =>
      simp only [inferType, pointwiseOutput, Outcome.bind_ok, singleModule_ok] at h
      obtain ⟨-, -, s, hs, -⟩ := h
      exact .inr ⟨s, hs⟩
    | splitFusedReduce axes =>
      simp only [inferType, Outcome.bind_ok, singleModule_ok] at h
      obtain ⟨-, -, s, hs, -⟩ := h
      exact .inr ⟨s, hs⟩
    | offload anchor =>
      obtain ⟨-, s, -, hs, -⟩ := inferType_offload h
      exact .inr ⟨s, hs⟩
    | _ => cases hop

theorem length_params (h : op.inferType types [s] = .ok type) : s.params.length = types.length := by
  cases hop : op.carriesModules with
  | false => cases signatures_eq_nil hop h
  | true =>
    cases op with
    | pointwise =>
      simp only [inferType, pointwiseOutput, Outcome.bind_ok, tensorInputs_ok, singleModule_ok,
        Outcome.ite_ok, Outcome.refuse_ok, false_and, exists_false, and_false, false_or] at h
      obtain ⟨ts, ⟨-, rfl⟩, body, hbody, -, -, -, -, hcount, -⟩ := h
      cases hbody
      rw [List.length_map]
      exact not_not.mp hcount
    | splitFusedReduce axes =>
      simp only [inferType, Outcome.bind_ok, tensorInputs_ok, singleModule_ok, callOutput_ok] at h
      obtain ⟨ts, ⟨-, rfl⟩, body, hbody, hparams, -⟩ := h
      cases hbody
      rw [List.length_map, hparams.length_eq]
    | offload anchor =>
      obtain ⟨ts, body, rfl, hbody, hparams, -⟩ := inferType_offload h
      cases hbody
      rw [List.length_map, hparams.length_eq]
    | _ => cases hop

/-- The type of a caller follows what the module returns; that of a pointwise does not read
layouts. -/
theorem inferType_recall (h : op.inferType types [s] = .ok type) (hparams : s'.params = s.params)
    (hreturns : List.Forall₂ TensorType.Alike s.returns s'.returns) :
    ∃ type', op.inferType types [s'] = .ok type' ∧ type.Alike type' ∧
      (type' = type ↔ op = .pointwise ∨ s'.returns = s.returns) := by
  have hcall : ∀ {name ts}, callOutput name ts s = .ok type → ∃ type',
      callOutput name ts s' = .ok type' ∧ type.Alike type' ∧
        (type' = type ↔ s'.returns = s.returns) := by
    intro name ts hok
    obtain ⟨hmatch, hne, rfl⟩ := callOutput_ok.mp hok
    have hne' : s'.returns ≠ [] := fun hnil =>
      hne (List.forall₂_nil_right_iff.mp (hnil ▸ hreturns))
    refine ⟨s'.output, callOutput_ok.mpr ⟨hparams ▸ hmatch, hne', rfl⟩, .ofElements hreturns, ?_⟩
    constructor
    · intro he
      have he := congrArg ValueType.elements he
      rwa [Signature.output, Signature.output, ValueType.elements_ofElements,
        ValueType.elements_ofElements] at he
    · intro he
      rw [Signature.output, Signature.output, he]
  cases hop : op.carriesModules with
  | false => cases signatures_eq_nil hop h
  | true =>
    cases op with
    | pointwise =>
      have hsame : List.Forall₂ ValueType.Alike types types :=
        List.forall₂_same.mpr fun a _ => .refl a
      have halike : s.Alike s' := ⟨hparams ▸ List.forall₂_same.mpr fun t _ => .refl t, hreturns⟩
      exact ⟨type, pointwiseOutput_transfer hsame (.cons halike .nil) h, .refl _, by simp⟩
    | splitFusedReduce axes =>
      simp only [inferType, Outcome.bind_ok, singleModule_ok, List.cons.injEq, and_true,
        exists_eq_left', reduceCtorEq, false_or] at h ⊢
      obtain ⟨ts, hts, hok⟩ := h
      obtain ⟨type', hok', halike, hiff⟩ := hcall hok
      exact ⟨type', ⟨ts, hts, hok'⟩, halike, hiff⟩
    | offload anchor =>
      simp only [inferType, Outcome.bind_ok, singleModule_ok, List.cons.injEq, and_true,
        exists_eq_left', reduceCtorEq, false_or] at h ⊢
      obtain ⟨ts, hts, x, hlayouts, hok⟩ := h
      obtain ⟨type', hok', halike, hiff⟩ := hcall hok
      exact ⟨type', ⟨ts, hts, x, hlayouts, hok'⟩, halike, hiff⟩
    | _ => cases hop

end Op

namespace Program

variable {p q : Program} {i j c last old new : InstrId} {m : ModuleId} {inst a b : Instruction}
  {op : Op} {inputs : List InstrId} {modules : List ModuleId} {type : ValueType} {s s' : Signature}
  {u : Unit}

/-! ## Signatures -/

theorem rightUnique_hasTensor (p : Program) :
    Relator.RightUnique fun x t => p.HasType x (.tensor t) :=
  fun _ _ _ ht hu => ValueType.tensor.inj (hasType_unique ht hu)

theorem returns_of_last (hs : p.signature m = .ok s) (hlast : (p.body m).getLast? = some last)
    (hi : p.instr? last = some inst) (hfresh : p.Fresh last) : s.returns = inst.type.elements := by
  obtain ⟨module, hm, -, hreturns⟩ := signature_ok.mp hs
  rw [returnTypes_ok, ← body_of_module? hm, hlast] at hreturns
  obtain ⟨inst', hi', hreturns⟩ := hreturns
  cases hi.symm.trans hi'
  split at hreturns
  · next hret =>
    exact p.rightUnique_hasTensor.forall₂ hreturns (hfresh.return_operands hi hret)
  · exact hreturns

/-- What a replacement in `m` leaves behind for the callers of `m`. -/
structure Revised (m : ModuleId) (p q : Program) : Prop where
  steady : q.Steady (some m)
  body : q.body m = p.body m
  isLocal : Local m p q
  stored : ∀ {j a}, q.instr? j = some a → (p.typeAt j).Alike a.type
  /-- A parameter is lost, or else all are declared as before. -/
  declared : (q.parameters m).length < (p.parameters m).length ∨
    q.parameters m = p.parameters m ∧ ∀ {j a b}, j ∈ p.parameters m →
      p.instr? j = some a → q.instr? j = some b → b.op = a.op

namespace Revised

variable (h : Revised m p q) (hp : p.Valid)

include h hp

theorem params_eq (hkept : q.parameters m = p.parameters m) (hs : p.signature m = .ok s)
    (hs' : q.signature m = .ok s') : s'.params = s.params := by
  obtain hlost | ⟨-, hops⟩ := h.declared
  · exact absurd (hkept ▸ hlost) (lt_irrefl _)
  obtain ⟨-, -, hparams, -⟩ := signature_ok.mp hs
  obtain ⟨-, -, hparams', -⟩ := signature_ok.mp hs'
  refine q.rightUnique_hasTensor.forall₂ hparams' (hkept ▸ forall₂_imp_of_mem hparams ?_)
  rintro j hj t ⟨a, ha, hty⟩
  obtain ⟨a', ha', hparam⟩ := hasOp_iff.mp (List.mem_filter.mp hj).2
  cases ha.symm.trans ha'
  have hmem := List.mem_of_mem_filter hj
  obtain ⟨name, t', hop, htype, -⟩ := Fresh.type_of_param (fun _ hi => hp.fresh hi) ha hparam
  obtain ⟨b, hb, -⟩ := h.steady.owned (h.body ▸ hmem)
  have hsame := hops hj ha hb
  obtain ⟨name', u, hop', htype', -⟩ :=
    (h.steady.fresh_own (h.body ▸ hmem)).type_of_param hb (hsame ▸ hparam)
  rw [hsame, hop] at hop'
  cases hop'
  exact ⟨b, hb, htype'.trans (htype.symm.trans hty)⟩

theorem returns_alike (hs : p.signature m = .ok s) (hs' : q.signature m = .ok s') :
    List.Forall₂ TensorType.Alike s.returns s'.returns := by
  cases hlast : (p.body m).getLast? with
  | none =>
    obtain ⟨module, hm, -, hreturns⟩ := signature_ok.mp hs
    obtain ⟨module', hm', -, hreturns'⟩ := signature_ok.mp hs'
    rw [returnTypes_ok, ← body_of_module? hm, hlast] at hreturns
    rw [returnTypes_ok, ← body_of_module? hm', h.body, hlast] at hreturns'
    rw [hreturns, hreturns']
    exact .nil
  | some last =>
    have hmem := List.mem_of_getLast? hlast
    obtain ⟨a, ha, -⟩ := hp.owned hmem
    obtain ⟨b, hb, -⟩ := h.steady.owned (h.body ▸ hmem)
    rw [returns_of_last hs hlast ha fun _ hi => hp.fresh hi,
      returns_of_last hs' (h.body ▸ hlast) hb (h.steady.fresh_own (h.body ▸ hmem)),
      ← typeAt_eq ⟨a, ha, rfl⟩]
    exact (h.stored hb).2

omit hp in
theorem parameters_eq (hs : p.signature m = .ok s) (hs' : q.signature m = .ok s')
    (hlength : s'.params.length = s.params.length) : q.parameters m = p.parameters m := by
  obtain hlost | ⟨hkept, -⟩ := h.declared
  · obtain ⟨-, -, hparams, -⟩ := signature_ok.mp hs
    obtain ⟨-, -, hparams', -⟩ := signature_ok.mp hs'
    rw [hparams'.length_eq, hparams.length_eq, hlength] at hlost
    exact absurd hlost (lt_irrefl _)
  · exact hkept

theorem exists_signatures (hi : q.instr? i = some inst) (hm : m ∈ inst.modules) :
    ∃ types s s', p.signature m = .ok s ∧ q.signature m = .ok s' ∧
      inst.op.inferType types [s] = .ok inst.type ∧
      q.infer inst.op inst.inputs inst.modules = liftM (inst.op.inferType types [s']) := by
  have howner : inst.owner ≠ m := Ne.symm (h.steady.referenced hi hm).2
  obtain ⟨a, ha, hcore⟩ := h.isLocal.outside h.steady.toLinked hi howner
  obtain ⟨hop, hin, hmodules, hty, ho⟩ := Instruction.core_eq_iff.mp hcore
  obtain ⟨types, signatures, htypes, hsigs, hinfer⟩ := infer_ok.mp (hp.fresh ha)
  rw [← hmodules] at hsigs
  obtain ⟨s, hsingle⟩ : ∃ s, signatures = [s] := by
    refine (Op.eq_nil_or_single hinfer).resolve_left ?_
    rintro rfl
    rw [List.forall₂_nil_right_iff.mp hsigs] at hm
    exact List.not_mem_nil hm
  subst hsingle
  obtain ⟨k, rest, hk, hrest, hsplit⟩ := List.forall₂_cons_right_iff.mp hsigs
  obtain rfl := List.forall₂_nil_right_iff.mp hrest
  obtain rfl : m = k := by
    rw [hsplit] at hm
    exact List.mem_singleton.mp hm
  obtain ⟨s', hs'⟩ := h.steady.exists_signature h.isLocal.alive fun _ hj => h.steady.fresh_own hj
  have htypes' : List.Forall₂ q.HasType inst.inputs types := by
    refine hin ▸ forall₂_imp_of_mem htypes fun x hx t ht => ?_
    exact (h.isLocal.core (ho ▸ howner) (hp.ordered ha hx).left_mem).hasType ht
  refine ⟨types, s, s', hk, hs', ?_, ?_⟩
  · rw [hop, hty]
    exact hinfer
  · rw [hsplit]
    exact infer_eq htypes' (.cons hs' .nil)

/-- **What inference gives for a caller of the changed module.** -/
theorem caller (hi : q.instr? i = some inst) (hm : m ∈ inst.modules) :
    ((∃ type, q.infer inst.op inst.inputs inst.modules = .ok type) ↔
      q.parameters m = p.parameters m) ∧
    (∀ type, q.infer inst.op inst.inputs inst.modules = .ok type → inst.type.Alike type) ∧
    (q.infer inst.op inst.inputs inst.modules = .ok inst.type ↔
      q.signature m = p.signature m ∨ inst.op = .pointwise ∧ q.parameters m = p.parameters m) := by
  obtain ⟨types, s, s', hs, hs', hinfer, hnew⟩ := h.exists_signatures hp hi hm
  have hlength : ∀ {type}, inst.op.inferType types [s'] = .ok type →
      q.parameters m = p.parameters m := fun hok =>
    h.parameters_eq hs hs' ((Op.length_params hok).trans (Op.length_params hinfer).symm)
  simp only [hnew, Outcome.lift_typed_ok, hs, hs', Except.ok.injEq]
  by_cases hkept : q.parameters m = p.parameters m
  · have hparams := h.params_eq hp hkept hs hs'
    obtain ⟨type, hok, halike, hiff⟩ :=
      Op.inferType_recall hinfer hparams (h.returns_alike hp hs hs')
    have hsame : s' = s ↔ s'.returns = s.returns := by
      refine ⟨fun he => he ▸ rfl, fun he => ?_⟩
      cases s
      cases s'
      cases hparams
      cases he
      rfl
    refine ⟨⟨fun _ => hkept, fun _ => ⟨type, hok⟩⟩, fun type' hok' => ?_, ?_⟩
    · cases hok.symm.trans hok'
      exact halike
    · rw [hok, Except.ok.injEq, hiff, hsame, and_iff_left hkept]
      exact or_comm
  · refine ⟨⟨?_, fun he => absurd he hkept⟩, fun _ hok => absurd (hlength hok) hkept,
      fun hok => absurd (hlength hok) hkept, ?_⟩
    · rintro ⟨_, hok⟩
      exact hlength hok
    rintro (rfl | ⟨-, he⟩)
    · exact absurd (h.parameters_eq hs hs' rfl) hkept
    · exact absurd he hkept

end Revised

/-! ## Replacements -/

theorem Valid.revised_replaceInstruction (hp : p.Valid) (hi : p.instr? old = some inst)
    (hok : Edit.replaceInstruction old new p = .ok u q) : Revised inst.owner p q := by
  obtain ⟨hpending, hrewired, -⟩ :=
    (hp.steady (some inst.owner)).replaceInstruction_of_mem (hp.listed hi) hok
  obtain ⟨m, hmem, hdrifted⟩ := hp.answers_replaceInstruction.ok hok
  obtain rfl := hp.owner_unique hi hmem
  refine ⟨hpending.steady, hrewired.body _, hdrifted.isLocal, hdrifted.stored, .inr ⟨?_, ?_⟩⟩
  · rw [parameters, parameters, hrewired.body]
    exact List.filter_congr fun j _ => hasOp_of_outline (hrewired.outline j) _
  · intro j a b _ ha hb
    obtain ⟨a', ha', hop, -⟩ := hrewired.exists_instr hb
    cases ha.symm.trans ha'
    exact hop

theorem Valid.revised_replaceWith (hp : p.Valid) (hi : p.instr? i = some inst)
    (hret : op.isReturn = false) (hparam : op.isParam = false) (hmod : inst.owner ∉ modules)
    (hok : Edit.replaceWith i op inputs modules p = .ok u q) : Revised inst.owner p q := by
  obtain ⟨hpending, hrebuilt⟩ := (hp.steady (some inst.owner)).replaceWith hi
    (fun h => absurd (hret.symm.trans h) Bool.false_ne_true) hmod hok
  obtain ⟨m, hmem, hdrifted⟩ := hp.answers_replaceWith.ok hok
  obtain rfl := hp.owner_unique hi hmem
  have hbody : q.body inst.owner = p.body inst.owner := by rw [body, hrebuilt.module?, body]
  have hparams : q.parameters inst.owner = (p.parameters inst.owner).filter (· ≠ i) := by
    rw [parameters, parameters, List.filter_filter, hbody]
    refine List.filter_congr fun j _ => ?_
    by_cases hji : j = i
    · obtain ⟨b, hb, hop, -⟩ := hrebuilt.self hi
      rw [hji, hasOp, hb, Option.any_some, hop, hparam]
      simp
    · rw [hasOp_of_outline (hrebuilt.outline hji)]
      simp [hji]
  refine ⟨hpending.steady, hbody, hdrifted.isLocal, hdrifted.stored, ?_⟩
  by_cases hlost : i ∈ p.parameters inst.owner
  · left
    rw [hparams]
    exact List.length_filter_lt_length_iff_exists.mpr ⟨i, hlost, by simp⟩
  · have hne : ∀ j ∈ p.parameters inst.owner, j ≠ i := fun j hj he => hlost (he ▸ hj)
    refine .inr ⟨hparams.trans (List.filter_eq_self.mpr fun j hj => by simpa using hne j hj), ?_⟩
    intro j a b hj ha hb
    obtain ⟨a', ha', hop, -⟩ := Instruction.exists_of_outline (hrebuilt.outline (hne j hj)) hb
    cases ha.symm.trans ha'
    exact hop

/-- A module that transposes, carried by a pointwise and by a reduction. -/
def calledTwice : Program :=
  (do
    let a ← Edit.addParameter main "a" ⟨.f32, [2, 2], [2, 1]⟩
    let f ← Edit.createModule "f"
    let x ← Edit.addParameter f "x" ⟨.f32, [2, 2], [2, 1]⟩
    let t ← Edit.addInstruction f (.reindex (.transpose [1, 0])) [x] []
    let _ ← Edit.addReturn f [t]
    let _ ← Edit.addInstruction main .pointwise [a] [f]
    let _ ← Edit.addInstruction main (.splitFusedReduce [1]) [a] [f] : Edit Unit).after .empty

end Program

/-! ## All replacements -/

namespace Command

open Program

variable {p q : Program} {m : ModuleId} {i : InstrId} {inst : Instruction}

/-- The edits that change instructions in place. -/
def replaces : Command → Bool
  | replaceInstruction .. | replaceWith .. => true
  | _ => false

/-- **A replacement leaves the type of a caller behind where the signature changes.** After one that
turns nothing into a parameter, a return or a caller of its own module, each caller can be inferred
as long as no parameter is lost, and its type then agrees up to strides. Its stored type is the
inferred one exactly if the signature is the same, or if the caller is pointwise and no parameter is
lost. -/
theorem caller_fresh_iff (c : Command) (h : p.verify = .ok ⟨⟩) (hreplaces : c.replaces = true)
    (htarget : c.target? p = some m)
    (hsupplied : ∀ op modules, c.supplied? = some (op, modules) →
      op.isReturn = false ∧ op.isParam = false ∧ m ∉ modules)
    (hok : c.run p = .ok ⟨⟩ q) (hi : q.instr? i = some inst) (hm : m ∈ inst.modules) :
    ((∃ type, q.infer inst.op inst.inputs inst.modules = .ok type) ↔
      q.parameters m = p.parameters m) ∧
    (∀ type, q.infer inst.op inst.inputs inst.modules = .ok type → inst.type.Alike type) ∧
    (q.infer inst.op inst.inputs inst.modules = .ok inst.type ↔
      q.signature m = p.signature m ∨ inst.op = .pointwise ∧ q.parameters m = p.parameters m) := by
  have hp : p.Valid := verify_ok.mp h
  have hrevised : Revised m p q := by
    cases c with
    | replaceInstruction old new =>
      obtain ⟨inst, hold, rfl⟩ := Option.map_eq_some_iff.mp htarget
      exact hp.revised_replaceInstruction hold hok
    | replaceWith i op inputs modules =>
      obtain ⟨hret, hparam, hmod⟩ := hsupplied op modules rfl
      obtain ⟨inst, hi, rfl⟩ := Option.map_eq_some_iff.mp htarget
      exact hp.revised_replaceWith hi hret hparam hmod hok
    | _ => cases hreplaces
  exact hrevised.caller hp hi hm

/-- The transposition is replaced by a copy: the pointwise keeps the inferred type. -/
theorem caller_fresh_iff_pointwise :
    let c := replaceWith ⟨2⟩ (.reindex .contiguous) [⟨1⟩] []
    calledTwice.verify = .ok ⟨⟩ ∧ ∃ q inst, c.run calledTwice = .ok ⟨⟩ q ∧
      q.instr? ⟨4⟩ = some inst ∧ inst.modules = [⟨1⟩] ∧
      q.signature ⟨1⟩ ≠ calledTwice.signature ⟨1⟩ ∧
      q.infer inst.op inst.inputs inst.modules = .ok inst.type := by
  intro c
  have hv : calledTwice.verify = .ok ⟨⟩ := by decide +kernel
  have hsupplied : ∀ op modules, c.supplied? = some (op, modules) →
      op.isReturn = false ∧ op.isParam = false ∧ (⟨1⟩ : ModuleId) ∉ modules := by
    intro op modules he
    cases he
    exact ⟨rfl, rfl, List.not_mem_nil⟩
  obtain ⟨_, q, hrun, hkept, hsignature, inst, hi, hmodules, hop⟩ : ∃ u q,
      c.run calledTwice = .ok u q ∧ q.parameters ⟨1⟩ = calledTwice.parameters ⟨1⟩ ∧
        q.signature ⟨1⟩ ≠ calledTwice.signature ⟨1⟩ ∧
          ∃ inst ∈ q.instr? ⟨4⟩, inst.modules = [⟨1⟩] ∧ inst.op = .pointwise := by
    decide +kernel
  refine ⟨hv, q, inst, hrun, hi, hmodules, hsignature, ?_⟩
  exact (caller_fresh_iff c hv rfl (by decide +kernel) hsupplied hrun hi
    (hmodules ▸ List.mem_singleton_self _)).2.2.mpr (.inr ⟨hop, hkept⟩)

/-- **The reduction keeps the transposed type** when a copy, or the parameter itself, replaces the
transposition. -/
theorem caller_left_stale :
    calledTwice.verify = .ok ⟨⟩ ∧
    ∀ c ∈ [replaceWith ⟨2⟩ (.reindex .contiguous) [⟨1⟩] [], replaceInstruction ⟨2⟩ ⟨1⟩],
      ∃ q inst, c.run calledTwice = .ok ⟨⟩ q ∧ q.instr? ⟨5⟩ = some inst ∧
        inst.modules = [⟨1⟩] ∧ inst.type = .tensor ⟨.f32, [2, 2], [1, 2]⟩ ∧
        q.infer inst.op inst.inputs inst.modules = .ok (.tensor ⟨.f32, [2, 2], [2, 1]⟩) ∧
        q.verify ≠ .ok ⟨⟩ := by
  refine ⟨by decide +kernel, fun c hc => ?_⟩
  obtain ⟨_, q, hrun, hverify, inst, hi, hmodules, htype, hinfer⟩ : ∃ u q,
      c.run calledTwice = .ok u q ∧ q.verify ≠ .ok ⟨⟩ ∧ ∃ inst ∈ q.instr? ⟨5⟩,
        inst.modules = [⟨1⟩] ∧ inst.type = .tensor ⟨.f32, [2, 2], [1, 2]⟩ ∧
          q.infer inst.op inst.inputs inst.modules = .ok (.tensor ⟨.f32, [2, 2], [2, 1]⟩) := by
    revert c
    decide +kernel
  exact ⟨q, inst, hrun, hi, hmodules, htype, hinfer, hverify⟩

end Command

end OffloadFusion
