import OffloadFusion.Proofs.Indices
import OffloadFusion.Proofs.Regions
import OffloadFusion.Proofs.Verified

/-!
# Chains on other values

A chain of shape-only instructions in a valid program is walked to its end
(**`ReshapeChain.walk_total`**), and its operations turn the tensor above it, in any layout, into
the tensor that it was walked from.

* `Program.Sized`: all sizes of the program can be computed.
* `ReshapeChain.Stacks`: views on top of each other turn one tensor into another.
* `Program.Walked`: what a walk collects (`ReshapeChain.walked_of_walk`).
-/

namespace OffloadFusion

open Program

/-- The sizes of all values can be computed, and no instruction has more operands than there are
strides. -/
structure Program.Sized (p : Program) : Prop where
  values : ∀ {i type}, p.HasType i type → ∀ t ∈ type.elements, t.Sized
  operands : ∀ {i inst}, p.instr? i = some inst → inst.inputs.length < Checked.sizeLimit / 2

instance (p : Program) : Decidable p.Sized :=
  decidable_of_iff (∀ e ∈ p.instructions.entries, (∀ t ∈ e.2.type.elements, t.Sized) ∧
      e.2.inputs.length < Checked.sizeLimit / 2) <| by
    constructor
    · intro h
      refine ⟨fun {i type} ⟨inst, hi, ht⟩ => ?_, fun {i inst} hi => ?_⟩
      · exact ht ▸ (h (i.index, inst) (Arena.mem_entries.mpr hi)).1
      · exact (h (i.index, inst) (Arena.mem_entries.mpr hi)).2
    · intro h e he
      have hi : p.instr? ⟨e.1⟩ = some e.2 := Arena.mem_entries.mp he
      exact ⟨h.values ⟨e.2, hi, rfl⟩, h.operands hi⟩

theorem Program.Sized.tensor {p : Program} {i : InstrId} {t : TensorType} (h : p.Sized)
    (ht : p.HasType i (.tensor t)) : t.Sized := h.values ht t (List.mem_singleton_self t)

theorem Program.Wired.length_body_le {p : Program} (hw : p.Wired) (k : ModuleId) :
    (p.body k).length ≤ p.size := by
  rw [← p.length_handles]
  refine (List.subperm_of_subset (hw.nodup k) fun i hi => mem_handles.mpr ?_).length_le
  obtain ⟨inst, hinst, -⟩ := hw.owned hi
  exact ⟨inst, hinst⟩

theorem Program.Linked.length_body_le {p : Program} (hl : p.Linked) (k : ModuleId) :
    (p.body k).length ≤ p.size := hl.wired.length_body_le k

theorem Program.Linked.idxOf_input_lt {p : Program} {k : ModuleId} {i x : InstrId}
    {inst : Instruction} (hl : p.Linked) (hi : p.instr? i = some inst) (hk : i ∈ p.body k)
    (hx : x ∈ inst.inputs) : x ∈ p.body k ∧ (p.body k).idxOf x < (p.body k).idxOf i := by
  have hbefore := hl.ordered hi hx
  rw [hl.owner_unique hi hk] at hbefore
  exact ⟨hbefore.left_mem, hbefore.idxOf_lt (hl.nodup k)⟩

namespace ReshapeChain

variable {p : Program} {k : ModuleId} {i root : InstrId} {t u : TensorType} {ops : List Op}
  {throughSlice : Bool}

/-- Views on top of each other, the first one lowest, turn one tensor into another. -/
inductive Stacks : List Op → TensorType → TensorType → Prop
  | nil {t : TensorType} : Stacks [] t t
  | cons {view : Reindex} {ops : List Op} {t u v : TensorType} (head : view.output t = .ok u)
    (tail : Stacks ops u v) : Stacks (.reindex view :: ops) t v

/-- The operations turn the first tensor, in any layout, into the second one in some layout. -/
def Carries (ops : List Op) (t u : TensorType) : Prop :=
  ∀ t', t.Restrided t' → ∃ u', Stacks ops t' u' ∧ u.Restrided u'

theorem inferType_reindex {view : Reindex} {types : List ValueType} {signatures : List Signature}
    {type : ValueType} (h : (Op.reindex view).inferType types signatures = .ok type) :
    ∃ t u, types = [.tensor t] ∧ type = .tensor u ∧ view.output t = .ok u := by
  simp only [Op.inferType, Op.mapTensor, Outcome.bind_ok, Typing.oneTensor_ok,
    Outcome.pure_ok] at h
  obtain ⟨t, rfl, -, -, u, hu, rfl⟩ := h
  exact ⟨t, u, rfl, rfl, hu⟩

theorem operand_of_infer {inst : Instruction} {view : Reindex} (hop : inst.op = .reindex view)
    (h : p.infer inst.op inst.inputs inst.modules = .ok inst.type) :
    ∃ x t u, inst.inputs = [x] ∧ p.HasType x (.tensor t) ∧ inst.type = .tensor u ∧
      view.output t = .ok u := by
  obtain ⟨types, signatures, htypes, -, hinfer⟩ := infer_ok.mp h
  rw [hop] at hinfer
  obtain ⟨t, u, rfl, hu, hout⟩ := inferType_reindex hinfer
  obtain ⟨x, rest, hx, hrest, hinputs⟩ := List.forall₂_cons_right_iff.mp htypes
  rw [List.forall₂_nil_right_iff.mp hrest] at hinputs
  exact ⟨x, t, u, hinputs, hx, hu, hout⟩

theorem inferType_of_output {view : Reindex} (h : view.output t = .ok u) :
    (Op.reindex view).inferType [.tensor t] [] = .ok (.tensor u) := by
  simp only [Op.inferType, Op.mapTensor, Outcome.bind_ok, Typing.oneTensor_ok,
    Typing.noModules_ok, Outcome.pure_ok]
  exact ⟨t, rfl, ⟨⟩, trivial, u, h, rfl⟩

/-- The operation by which a view is replayed can be done in any layout, and reads the same. -/
theorem replayOp_restrided {inst : Instruction} {view : Reindex} {t' : TensorType}
    (hop : inst.op = .reindex view) (hinst : inst.type = .tensor u) (hu : view.output t = .ok u)
    (ht : t.Sized) (hu' : u.Sized) (hrestrided : t.Restrided t') :
    ∃ view' u', replayOp inst view = .reindex view' ∧ view'.output t' = .ok u' ∧ u.Restrided u' ∧
      ∀ index, view'.sourceIndex t'.shape u'.shape index =
        view.sourceIndex t.shape u.shape index := by
  have htensor : inst.tensor? = some u := by rw [Instruction.tensor?, hinst]; rfl
  simp only [replayOp, htensor, hop]
  cases hgroup : view.isRegrouping with
  | true =>
    obtain ⟨u', hout, hres⟩ := Reindex.reshape_restrided hgroup hrestrided hu ht hu'
    refine ⟨_, u', rfl, hout, hres, fun index => ?_⟩
    rw [Reindex.sourceIndex_of_isRegrouping hgroup, hrestrided.alike.2, hres.alike.2]
    rfl
  | false =>
    obtain ⟨u', hout, hres⟩ := Reindex.output_restrided hgroup hrestrided hu
    exact ⟨view, u', rfl, hout, hres, fun index => by rw [hrestrided.alike.2, hres.alike.2]⟩

theorem carries_replayOp {inst : Instruction} {view : Reindex} (hop : inst.op = .reindex view)
    (hinst : inst.type = .tensor u) (hu : view.output t = .ok u) (ht : t.Sized) (hu' : u.Sized)
    (htail : Carries ops u v) : Carries (replayOp inst view :: ops) t v := by
  intro t' hrestrided
  obtain ⟨view', u', hreplay, hout, hres, -⟩ := replayOp_restrided hop hinst hu ht hu' hrestrided
  obtain ⟨v', hstack, hres'⟩ := htail u' hres
  exact ⟨v', hreplay ▸ .cons hout hstack, hres'⟩

/-- The chain above an instruction starts from a tensor that it carries to `u`. -/
structure Leads (p : Program) (k : ModuleId) (i : InstrId) (chain : ReshapeChain)
    (u : TensorType) : Prop where
  mem : chain.upper ∈ p.body k
  depends : p.DependsOn chain.upper i
  carries : ∃ t, p.HasType chain.upper (.tensor t) ∧ Carries chain.ops.reverse t u

section

variable (hp : p.Steady (some k)) (hsized : ∀ j ∈ p.body k, ∀ t, p.HasType j (.tensor t) → t.Sized)

include hp hsized

theorem walkFrom_total {fuel : Nat} {nodes : List InstrId} {ops : List Op}
    (hi : i ∈ p.body k) (ht : p.HasType i (.tensor t))
    (hfuel : (p.body k).idxOf i < fuel) (hops : Carries ops.reverse t u) :
    ∃ chain, walkFrom p throughSlice fuel i nodes ops = .ok chain ∧ chain.Leads p k i u := by
  induction fuel generalizing i t nodes ops with
  | zero => exact absurd hfuel (Nat.not_lt_zero _)
  | succ fuel ih =>
    rw [walkFrom]
    split
    · exact ⟨_, rfl, hi, .refl, t, ht, hops⟩
    next inst view hview =>
      split
      · exact ⟨_, rfl, hi, .refl, t, ht, hops⟩
      obtain ⟨hinst, hop⟩ := viewAt_eq_some.mp hview
      obtain ⟨inst', hinst', htype⟩ := ht
      rw [hinst] at hinst'
      cases hinst'
      obtain ⟨x, above, v, hinputs, hx, hv, hout⟩ :=
        operand_of_infer hop (hp.fresh_own hi inst hinst)
      rw [htype] at hv
      cases hv
      have hmem : x ∈ inst.inputs := hinputs ▸ List.mem_singleton_self x
      have hbefore := hp.ordered hinst hmem
      rw [hp.owner_unique hinst hi] at hbefore
      have hget : Checked.get inst.inputs 0 = .ok x := by rw [hinputs]; rfl
      have hidx := hbefore.idxOf_lt (hp.nodup k)
      have hops' : Carries (ops ++ [replayOp inst view]).reverse above u := by
        rw [List.reverse_append]
        exact carries_replayOp hop htype hout (hsized x hbefore.left_mem above hx)
          (hsized i hi t ⟨inst, hinst, htype⟩) hops
      obtain ⟨chain, hwalk, hleads⟩ := ih hbefore.left_mem hx (by omega) hops'
      exact ⟨chain, Outcome.bind_ok.mpr ⟨x, hget, hwalk⟩, hleads.mem,
        hleads.depends.tail ⟨inst, hinst, hmem⟩, hleads.carries⟩

/-- **A chain is walked to its end, and can be built again there.** -/
theorem walk_total (throughSlice : Bool) (hi : i ∈ p.body k) (ht : p.HasType i (.tensor t)) :
    ∃ chain, walk p i throughSlice = .ok chain ∧ chain.Leads p k i t := by
  refine walkFrom_total hp hsized hi ht ?_ fun t' ht' => ⟨t', .nil, ht'⟩
  have hlt := List.idxOf_lt_length_of_mem hi
  have hle := hp.length_body_le k
  omega

end

end ReshapeChain

/-! ## What a walk collects -/

/-- From `i` upwards there are views, each the only operand of the one before, up to `upper`, which
is no view. Slices are views only where they are walked. The operations replay the views, outermost
first. -/
inductive Program.Walked (p : Program) (throughSlice : Bool) :
    InstrId → List InstrId → List Op → (upper : InstrId) → Prop
  | stop {i : InstrId} {inst : Instruction} (here : p.instr? i = some inst)
    (stops : ∀ view, inst.op = .reindex view → view.isSlice = true ∧ throughSlice = false) :
    Walked p throughSlice i [] [] i
  | step {i x upper : InstrId} {inst : Instruction} {view : Reindex} {nodes : List InstrId}
    {ops : List Op} (here : p.instr? i = some inst) (isView : inst.op = .reindex view)
    (walks : view.isSlice = true → throughSlice = true) (reads : inst.inputs = [x])
    (above : Walked p throughSlice x nodes ops upper) :
    Walked p throughSlice i (i :: nodes) (ReshapeChain.replayOp inst view :: ops) upper

theorem Program.Walked.exists_upper {p : Program} {throughSlice : Bool} {i upper : InstrId}
    {nodes : List InstrId} {ops : List Op} {t : TensorType}
    (h : p.Walked throughSlice i nodes ops upper) (hp : p.Valid) (ht : p.HasType i (.tensor t)) :
    ∃ u, p.HasType upper (.tensor u) := by
  induction h generalizing t with
  | stop => exact ⟨t, ht⟩
  | step here isView _ reads _ ih =>
    obtain ⟨x, u, _, hinputs, hx, -⟩ := ReshapeChain.operand_of_infer isView (hp.fresh here)
    cases reads.symm.trans hinputs
    exact ih hx

namespace ReshapeChain

variable {p q : Program} {m : ModuleId} {i : InstrId} {throughSlice : Bool} {chain : ReshapeChain}

/-- What a walk collects is walked, also where the other modules have changed. -/
theorem walked_of_walkFrom {fuel : Nat} {nodes : List InstrId} {ops : List Op} (hp : p.Valid)
    (hsame : ∀ j ∈ p.body m, q.instr? j = p.instr? j) (hi : i ∈ p.body m)
    (hok : walkFrom q throughSlice fuel i nodes ops = .ok chain) :
    ∃ is os, chain.nodes = nodes ++ is ∧ chain.ops = ops ++ os ∧
      p.Walked throughSlice i is os chain.upper := by
  induction fuel generalizing i nodes ops with
  | zero => cases hok
  | succ fuel ih =>
    obtain ⟨inst, hinst, -⟩ := hp.owned hi
    rw [walkFrom, hsame i hi] at hok
    split at hok
    · next hnone =>
      cases hok
      rw [hinst, Option.bind_some, Option.map_eq_none_iff] at hnone
      refine ⟨[], [], (List.append_nil _).symm, (List.append_nil _).symm, .stop hinst ?_⟩
      intro view hop
      rw [Op.reindex?_eq_some.mpr hop] at hnone
      cases hnone
    · next inst' view hview =>
      obtain ⟨hinst', hop⟩ := viewAt_eq_some.mp hview
      cases hinst.symm.trans hinst'
      split at hok
      · next hstop =>
        cases hok
        rw [Bool.and_eq_true, Bool.not_eq_true'] at hstop
        refine ⟨[], [], (List.append_nil _).symm, (List.append_nil _).symm, .stop hinst ?_⟩
        intro view' hop'
        cases hop.symm.trans hop'
        exact hstop
      · next hgo =>
        obtain ⟨x, _, _, hinputs, -⟩ := operand_of_infer hop (hp.fresh hinst)
        rw [hinputs, Outcome.bind_ok] at hok
        obtain ⟨_, ⟨⟩, hok⟩ := hok
        have hx := hp.mem_body_of_uses hi ⟨inst, hinst, hinputs ▸ List.mem_singleton_self x⟩
        obtain ⟨is, os, hnodes, hops, hwalked⟩ := ih hx hok
        refine ⟨i :: is, replayOp inst view :: os, ?_, ?_, .step hinst hop ?_ hinputs hwalked⟩
        · rw [hnodes, List.append_assoc, List.singleton_append]
        · rw [hops, List.append_assoc, List.singleton_append]
        · intro hslice
          rwa [hslice, Bool.true_and, Bool.not_eq_true', Bool.not_eq_false] at hgo

theorem walked_of_walk (hp : p.Valid) (hsame : ∀ j ∈ p.body m, q.instr? j = p.instr? j)
    (hi : i ∈ p.body m) (hok : walk q i throughSlice = .ok chain) :
    p.Walked throughSlice i chain.nodes chain.ops chain.upper := by
  obtain ⟨is, os, hnodes, hops, hwalked⟩ := walked_of_walkFrom hp hsame hi hok
  rwa [hnodes, hops, List.nil_append, List.nil_append]

end ReshapeChain

end OffloadFusion
