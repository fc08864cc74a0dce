import OffloadFusion.Proofs.Supplying

/-!
# The region of an anchor and a pointwise

An anchor and the pointwise that reads it, by way of views, are built into one region. What it
computes is known in full.

* `Program.Lane`: the views from an operand of the pointwise up to the anchor.
* `Compound`: the threads of the anchor, the views on it and the body of the pointwise on those.
* **`AnchorPointwise.ends_steps`**: the steps of the rule build a compound.
* `AnchorPointwise.ends_complete`: the region returns the values of the compound, and the operands
  of its call are the tensors above the threads and the other operands of the pointwise.
-/

namespace OffloadFusion

open OffloadFusion.Action Program

namespace Program

variable {p q r : Program} {i x top : InstrId} {m : ModuleId} {op : Op}
  {nodes inputs : List InstrId} {ops : List Op} {modules : List ModuleId}

/-! ## Views that are no slices -/

/-- From `i` upwards there are views that are no slices, each the only operand of the one before,
up to `top`. The operations replay them, the outermost first. -/
inductive Lane (p : Program) : InstrId → List InstrId → List Op → (top : InstrId) → Prop
  | nil {i : InstrId} : Lane p i [] [] i
  | cons {i x top : InstrId} {inst : Instruction} {view : Reindex} {nodes : List InstrId}
    {ops : List Op} (here : p.instr? i = some inst) (isView : inst.op = .reindex view)
    (notSlice : view.isSlice = false) (reads : inst.inputs = [x])
    (above : Lane p x nodes ops top) :
    Lane p i (i :: nodes) (ReshapeChain.replayOp inst view :: ops) top

namespace Lane

theorem feeds {F : InstrId → Prop} (h : p.Lane i nodes ops top) (hF : p.Feeders F) (hi : F i) :
    F top := by
  induction h with
  | nil => exact hi
  | cons here _ _ reads _ ih =>
    exact ih (hF.closed hi ⟨_, here, reads ▸ List.mem_singleton_self _⟩)

theorem feeds_nodes {F : InstrId → Prop} (h : p.Lane i nodes ops top) (hF : p.Feeders F)
    (hi : F i) : ∀ j ∈ nodes, F j := by
  induction h with
  | nil => exact fun j hj => absurd hj List.not_mem_nil
  | cons here _ _ reads _ ih =>
    exact List.forall_mem_cons.mpr
      ⟨hi, ih (hF.closed hi ⟨_, here, reads ▸ List.mem_singleton_self _⟩)⟩

theorem used (h : p.Lane i nodes ops top) (hi : ∃ j, p.Uses j i) :
    ∀ k ∈ top :: nodes, ∃ j, p.Uses j k := by
  induction h with
  | nil => exact fun k hk => List.mem_singleton.mp hk ▸ hi
  | cons here _ _ reads _ ih =>
    obtain ⟨htop, hnodes⟩ := List.forall_mem_cons.mp
      (ih ⟨_, _, here, reads ▸ List.mem_singleton_self _⟩)
    exact List.forall_mem_cons.mpr ⟨htop, List.forall_mem_cons.mpr ⟨hi, hnodes⟩⟩

theorem isReindex_nodes (h : p.Lane i nodes ops top) :
    ∀ j ∈ nodes, ∃ inst view, p.instr? j = some inst ∧ inst.op = .reindex view := by
  induction h with
  | nil => exact fun j hj => absurd hj List.not_mem_nil
  | cons here isView _ _ _ ih => exact List.forall_mem_cons.mpr ⟨⟨_, _, here, isView⟩, ih⟩

theorem isReindex (h : p.Lane i nodes ops top) : ∀ op ∈ ops, ∃ view, op = .reindex view := by
  induction h with
  | nil => exact fun op hop => absurd hop List.not_mem_nil
  | cons _ isView _ _ _ ih =>
    exact List.forall_mem_cons.mpr ⟨ReshapeChain.exists_replayOp isView, ih⟩

end Lane

/-- A walk that stops at slices goes along a lane. -/
theorem Walked.lane (h : p.Walked false i nodes ops top) : p.Lane i nodes ops top := by
  induction h with
  | stop => exact .nil
  | step here isView walks reads _ ih =>
    exact .cons here isView (Bool.eq_false_iff.mpr fun hslice => by cases walks hslice) reads ih

end Program

/-! ## Compounds -/

/-- What an anchor and the views on it have become in a region. -/
structure Trunk where
  threads : List Thread
  /-- The value of the anchor. -/
  anchor : InstrId
  views : List InstrId
  /-- The value of the last view. -/
  top : InstrId

/-- The module of `q` computes the anchor of `p` on its threads, and views on that. -/
structure Trunk.Rises (c : Trunk) (p q : Program) (m : ModuleId) (anchor : Instruction)
    (ops : List Op) : Prop where
  reads : c.threads.map Thread.operand = anchor.inputs
  threaded : ReplayedFrom p q 0 c.threads
  anchored : q.Node anchor.op (c.threads.map Thread.value) c.anchor
  viewed : q.Stack ops.reverse c.anchor c.views c.top
  lists : ∀ j ∈ c.threads.map Thread.param ++ c.threads.flatMap Thread.nodes ++
    c.anchor :: c.views, j ∈ q.body m

/-- The parameter in `q` takes the tensor of the instruction in `p`, which is made row-major. -/
def Program.ParamFor (p q : Program) (outer param : InstrId) : Prop :=
  ∃ name t u, p.HasType outer (.tensor t) ∧ t.asStandard = .ok u ∧ q.Node (.param name u) [] param

/-- The operands of the pointwise other than `x`, without repetition. -/
def AnchorPointwise.others (pw : Instruction) (x : InstrId) : List InstrId :=
  (pw.inputs.filter (· ≠ x)).eraseDups

/-- What an anchor and the pointwise that reads it have become in a region. -/
structure Compound extends Trunk where
  /-- The parameters for the other operands of the pointwise. -/
  params : List InstrId
  /-- The values of all its operands. -/
  args : List InstrId
  /-- The value of the pointwise. -/
  value : InstrId

/-- The module of `q` computes the anchor of `p` with the views on it and the body of the pointwise
of `p`, where the last view stands for `x` and parameters stand for the other operands. -/
structure Compound.Joins (c : Compound) (p q : Program) (m : ModuleId) (anchor pw : Instruction)
    (x : InstrId) (ops : List Op) : Prop where
  rises : c.toTrunk.Rises p q m anchor ops
  parameters : q.parameters m = c.threads.map Thread.param ++ c.params
  declared : List.Forall₂ (p.ParamFor q) (AnchorPointwise.others pw x) c.params
  args : List.Forall₂ (fun i arg => (i = x ∧ arg = c.top) ∨ ∃ k : Nat,
    (AnchorPointwise.others pw x)[k]? = some i ∧ c.params[k]? = some arg) pw.inputs c.args
  inlined : Replay.Inlined p m p q pw c.args c.value

section

variable {p q r : Program} {m : ModuleId} {anchor pw : Instruction} {x : InstrId} {ops : List Op}

theorem Trunk.Rises.of_sameForm {c : Trunk} (h : c.Rises p q m anchor ops)
    (hlisted : ∀ j ∈ q.body m, j ∈ r.body m) (hform : ∀ j ∈ q.body m, SameForm q r j) :
    c.Rises p r m anchor ops := by
  have hlists := h.lists
  rw [List.forall_mem_append, List.forall_mem_cons] at hlists
  obtain ⟨hthreads, hanchor, hviews⟩ := hlists
  exact ⟨h.reads, h.threaded.of_sameForm fun j hj => hform j (hthreads j hj),
    h.anchored.of_sameForm (hform _ hanchor),
    h.viewed.of_sameForm fun j hj => hform j (hviews j hj), fun j hj => hlisted j (h.lists j hj)⟩

theorem Compound.Joins.of_sameForm {c : Compound} (h : c.Joins p q m anchor pw x ops)
    (hl : q.Linked) (hlisted : ∀ j ∈ q.body m, j ∈ r.body m)
    (hparams : r.parameters m = q.parameters m) (hform : ∀ j ∈ q.body m, SameForm q r j) :
    c.Joins p r m anchor pw x ops := by
  refine ⟨h.rises.of_sameForm hlisted hform, hparams.trans h.parameters,
    (forall₂_imp_of_mem h.declared.flip fun param hmem i hparam => ?_).flip, h.args,
    h.inlined.of_sameForm hl hform⟩
  obtain ⟨name, t, u, ht, hu, hnode⟩ := hparam
  have hmem : param ∈ q.parameters m := h.parameters ▸ List.mem_append_right _ hmem
  exact ⟨name, t, u, ht, hu, hnode.of_sameForm (hform param (List.mem_of_mem_filter hmem))⟩

end

/-! ## Building a compound -/

namespace Building

variable {p q : Program} {m body : ModuleId} {w w' : Workspace} {dims : Shape} {x : InstrId}
  {anchor : Instruction} {ops : List Op} {c : Trunk}

/-- The constants of a body become known, and nothing else does. -/
structure Rehoming (p : Program) (m body : ModuleId) (dims : Shape) (w w' : Workspace) : Prop where
  module : w'.region.module = w.region.module
  bindings : w'.region.bindings = w.region.bindings
  adds : Adds m w.program w'.program
  parameters : w'.program.parameters m = w.program.parameters m
  constants : ∀ i ∈ p.body body, p.hasOp Op.isLiteral i = true → ∃ value,
    w'.region.values.image? i = some value ∧
      Replay.Rehomed p m w.program w'.program dims i value
  others : ∀ i, (i ∈ p.body body → p.hasOp Op.isLiteral i = false) →
    w'.region.values.image? i = w.region.values.image? i

theorem ends_rehomeLiterals (hl : p.Linked) (hbody : body ≠ m) (hmodule : w.region.module = m)
    (hbase : Adds m p w.program) :
    (rehomeLiterals body dims).Ends w fun _ w' => Rehoming p m body dims w w' := by
  subst hmodule
  rw [rehomeLiterals, ends_theModule_bind, replaying, ends_focus]
  have hsame := Replay.preserves_rehome (takes_parameters w.region.module
    (w.program.parameters w.region.module)) body dims ⟨w.program, w.region.values⟩
    ⟨hbase.linked, rfl⟩
  refine ((Replay.ends_rehome hl hbody hbase).and hsame).mono ?_
  rintro _ t ⟨⟨hadds, hconstants, hothers⟩, -, hparams⟩
  exact ⟨rfl, rfl, hadds, hparams, hconstants, hothers⟩

/-- The region computes an anchor and the views on it; the last view and the constants of a body are
known, and nothing else is. -/
structure Primed (p : Program) (m body : ModuleId) (dims : Shape) (anchor : Instruction)
    (x : InstrId) (ops : List Op) (c : Trunk) (w : Workspace) : Prop where
  module : w.region.module = m
  adds : Adds m p w.program
  rises : c.Rises p w.program m anchor ops
  parameters : w.program.parameters m = c.threads.map Thread.param
  fed : List.Forall₂ (fun param upper => w.region.bindings.image? param = some upper)
    (c.threads.map Thread.param) (c.threads.map Thread.upper)
  operand : w.region.values.image? x = some c.top
  constants : ∀ i ∈ p.body body, i ≠ x → p.hasOp Op.isLiteral i = true → ∃ value,
    w.region.values.image? i = some value ∧ Replay.Rehomed p m p w.program dims i value
  nothing : ∀ i, i ≠ x → (i ∈ p.body body → p.hasOp Op.isLiteral i = false) →
    w.region.values.image? i = none

/-- **The anchor is built, the constants and then the views on it.** -/
theorem ends_prime {α : Type} {f : InstrId → Building α} {Q : α → Workspace → Prop}
    {chain : ReshapeChain} {top : InstrId} {nodes : List InstrId} (hp : p.Valid)
    (htracing : Tracing p m [] [] [] w) (hbody : body ≠ m)
    (hinputs : ∀ i ∈ anchor.inputs, i ∈ p.body main) (hop : anchor.op.IsAnchor)
    (hlane : p.Lane x nodes chain.ops top)
    (hrest : ∀ c w', Primed p m body dims anchor x chain.ops c w' → (f c.anchor).Ends w' Q) :
    (do
      let anchorValue ← fuseAnchor anchor.op anchor.inputs
      rehomeLiterals body dims
      let xValue ← chain.replay m anchorValue
      know x xValue
      f anchorValue : Building α).Ends w Q := by
  have hl := hp.toLinked
  rw [ends_bind]
  refine (htracing.ends_fuseAnchor hl hp hinputs hop.isReturn hop.isParam).mono ?_
  rintro anchorValue w₁ ⟨threads, h₁, hreads, hanchored, hthreaded⟩
  simp only [List.nil_append] at h₁
  have hadds₁ := h₁.filling.toBeside.adds
  rw [ends_bind]
  refine (ends_rehomeLiterals hl hbody h₁.module hadds₁).mono fun _ w₂ h₂ => ?_
  have hadds₂ := hadds₁.trans h₂.adds
  rw [ends_bind, ends_edit]
  intro xValue q hok
  obtain ⟨hadds₃, views, hviews, hlisted⟩ := hadds₂.linked.adds_stack hok
  have hparams₃ := hadds₂.linked.parameters_stack (fun op hmem => by
    obtain ⟨view, rfl⟩ := hlane.isReindex op (List.mem_reverse.mp hmem)
    rfl) hok
  rw [ends_bind, know, ends_modify]
  have hlater : Adds m w₁.program q := h₂.adds.trans hadds₃
  have hknown : ∀ i, (w₂.region.know x xValue).values.image? i =
      if i = x then some xValue else w₂.region.values.image? i := fun i =>
    Renaming.image?_insert ..
  have hlists : ∀ j ∈ threads.map Thread.param ++ threads.flatMap Thread.nodes ++ [anchorValue],
      j ∈ w₁.program.body m := by
    rw [h₁.filling.body, List.append_assoc]
    exact fun _ => id
  have hforms : ∀ j ∈ threads.map Thread.param ++ threads.flatMap Thread.nodes ++ [anchorValue],
      SameForm w₁.program q j := fun j hj => hlater.form_of_mem hadds₁.linked (hlists j hj)
  obtain ⟨hformThreads, hformAnchor⟩ := List.forall_mem_append.mp hforms
  refine hrest ⟨threads, anchorValue, views, xValue⟩ ⟨q, w₂.region.know x xValue⟩
    ⟨h₂.module.trans h₁.module, hadds₂.trans hadds₃, ⟨hreads, hthreaded.of_sameForm hformThreads,
      hanchored.of_sameForm (hformAnchor _ (List.mem_singleton_self _)), hviews, ?_⟩, ?_, ?_,
      (hknown x).trans (if_pos rfl), fun i hi hne hliteral => ?_, fun i hne hi => ?_⟩
  · rw [← List.singleton_append, ← List.append_assoc]
    exact List.forall_mem_append.mpr ⟨fun j hj => hlater.body.subset (hlists j hj), hlisted⟩
  · exact hparams₃.trans (h₂.parameters.trans h₁.filling.parameters_eq)
  · show List.Forall₂ (fun param upper => w₂.region.bindings.image? param = some upper) _ _
    rw [h₂.bindings]
    exact h₁.bound
  · obtain ⟨value, hvalue, hrehomed⟩ := h₂.constants i hi hliteral
    exact ⟨value, (hknown i).trans ((if_neg hne).trans hvalue), hrehomed.mono hadds₁ hadds₃⟩
  · rw [hknown, if_neg hne, h₂.others i hi, h₁.nothing]
    rfl

/-- The region computes a compound, and its parameters are fed by what the compound takes. -/
structure Compounded (p : Program) (m : ModuleId) (anchor pw : Instruction) (x : InstrId)
    (ops : List Op) (c : Compound) (w : Workspace) : Prop where
  module : w.region.module = m
  adds : Adds m p w.program
  joins : c.Joins p w.program m anchor pw x ops
  fed : List.Forall₂ (fun param outer => w.region.bindings.image? param = some outer)
    (w.program.parameters m) (c.threads.map Thread.upper ++ AnchorPointwise.others pw x)

theorem Fused.exists_args {inputs results : List InstrId} {mode : Replay.Mode}
    (h : Fused p m body mode inputs results w w')
    (harity : (p.parameters body).length = inputs.length) : ∃ args,
      List.Forall₂ (fun i arg => w'.region.values.image? i = some arg) inputs args ∧
      List.Forall₂ (fun param arg => w'.region.values.image? param = some arg)
        (p.parameters body) args := by
  have hargs : List.Forall₂ (fun i arg => w'.region.values.image? i = some arg) inputs
      (inputs.map fun i => (w'.region.values.image? i).getD i) := by
    rw [List.forall₂_map_right_iff, List.forall₂_same]
    intro i hi
    obtain ⟨value, hvalue, -⟩ := h.offered i hi
    rw [hvalue]
    rfl
  have hbound := h.parameters
  rw [harity, List.take_length] at hbound
  refine ⟨_, hargs, forall₂_comp ?_ hbound hargs⟩
  rintro param i arg ⟨_, hparam, hinput⟩ harg
  exact hparam.trans (hinput.symm.trans harg)

namespace Primed

variable {pw : Instruction} {t : TensorType} {result : InstrId} {results : List InstrId}

theorem unknown_eq (h : Primed p m body dims anchor x ops c w)
    (hinputs : ∀ i ∈ pw.inputs, i ∉ p.body body) :
    w.region.unknown pw.inputs = AnchorPointwise.others pw x := by
  rw [Region.unknown, AnchorPointwise.others]
  congr 1
  refine List.filter_congr fun i hi => ?_
  by_cases he : i = x
  · simp [he, Renaming.contains, h.operand]
  · simp [he, Renaming.contains, h.nothing i he fun hbad => absurd hbad (hinputs i hi)]

section

variable (h : Primed p m body t.shape anchor x ops c w) (hx : x ∉ p.body body)
  (hfused : Fused p m body .plain pw.inputs results w w')

include h hx hfused

/-- The last view keeps standing for `x`. -/
theorem operand_of_fused : w'.region.values.image? x = some c.top :=
  hfused.kept (fun hmem => hx (List.mem_of_mem_filter hmem)) h.operand

/-- **The body is inlined on the values of the operands.** -/
theorem inlined {args : List InstrId} {value : InstrId} (hl : p.Linked)
    (hmodules : pw.modules = [body]) (htype : pw.type = .tensor t)
    (hargs : List.Forall₂ (fun param arg => w'.region.values.image? param = some arg)
      (p.parameters body) args)
    (hhead : (p.returned body).head? = some result)
    (hresult : w'.region.values.image? result = some value) :
    Replay.Inlined p m p w'.program pw args value := by
  have hlater : Adds m w.program w'.program := hfused.continues.adds
  have hne : ∀ i ∈ p.body body, i ≠ x := fun i hi he => hx (he ▸ hi)
  refine ⟨body, t, w'.region.values, result, hmodules, htype, by rw [hargs.length_eq], ?_,
    fun i hi hliteral => ?_, hfused.image.mono (fun _ _ _ hemission => ?_) fun i hi hknown => ?_,
    hhead, hresult⟩
  · rwa [hargs.length_eq, List.take_length]
  · obtain ⟨v, hv, hrehomed⟩ := h.constants i hi (hne i hi) hliteral
    exact ⟨v, hfused.kept (Program.notMem_parameters_of_isLiteral hliteral) hv,
      hrehomed.mono (.refl hl m) hlater⟩
  · cases hemission with
    | plain hcopied => exact hcopied.mono h.adds (.refl hlater.linked m)
  · -- of the body, only constants were known
    refine hknown.imp_right fun hcontains => ?_
    by_contra hliteral
    rw [Renaming.contains, h.nothing i (hne i hi) fun _ => Bool.eq_false_iff.mpr hliteral]
      at hcontains
    cases hcontains

end

/-- **A pointwise whose body is fused then is joined to the anchor.** -/
theorem compounded (h : Primed p m body t.shape anchor x ops c w) (hl : p.Linked)
    (hinputs : ∀ i ∈ pw.inputs, i ∈ p.body main ∧ i ∉ p.body body) (hx : x ∈ pw.inputs)
    (hmodules : pw.modules = [body]) (htype : pw.type = .tensor t)
    (harity : (p.parameters body).length = pw.inputs.length) (hgives : p.returned body = [result])
    (hfused : Fused p m body .plain pw.inputs results w w') :
    ∃ c' : Compound, Compounded p m anchor pw x ops c' w' ∧ c'.toTrunk = c ∧
      results = [c'.value] := by
  have hlater : Adds m w.program w'.program := hfused.continues.adds
  have hadds := h.adds.trans hlater
  have hresults := hfused.results
  rw [hgives] at hresults
  obtain ⟨value, _, hresult, hnil, rfl⟩ := List.forall₂_cons_left_iff.mp hresults
  obtain rfl := List.forall₂_nil_left_iff.mp hnil
  obtain ⟨params, hparams, hdeclared⟩ := hfused.declared
  rw [h.unknown_eq fun i hi => (hinputs i hi).2] at hdeclared
  obtain ⟨args, hargs, hbound⟩ := hfused.exists_args harity
  have hoperand := h.operand_of_fused (hinputs x hx).2 hfused
  have hinlined := h.inlined (hinputs x hx).2 hfused hl hmodules htype hbound (by rw [hgives]; rfl)
    hresult
  refine ⟨⟨c, params, args, value⟩, ⟨hfused.continues.module.trans h.module, hadds,
    ⟨h.rises.of_sameForm (fun j hj => hlater.body.subset hj)
      (fun j hj => hlater.form_of_mem h.adds.linked hj), by rw [hparams, h.parameters], ?_, ?_,
      hinlined⟩, ?_⟩, rfl, rfl⟩
  · refine forall₂_imp_of_mem hdeclared ?_
    rintro i hi param ⟨-, name, t, u, ht, hu, hmade, -⟩
    obtain ⟨inst, hi, -⟩ :=
      hl.owned (hinputs i (List.mem_of_mem_filter (List.mem_eraseDups.mp hi))).1
    obtain ⟨made, hmadeInst, hop, hin, hmod, -⟩ := hmade.made
    exact ⟨name, t, u, (hadds.core hi).symm.hasType ht, hu, made, hmadeInst, hop, hin, hmod⟩
  · refine forall₂_imp_of_mem hargs fun i hi arg harg => ?_
    by_cases he : i = x
    · subst he
      exact .inl ⟨rfl, Option.some.inj (harg.symm.trans hoperand)⟩
    · obtain ⟨k, hk⟩ := List.getElem?_of_mem (List.mem_eraseDups.mpr
        (List.mem_filter.mpr ⟨hi, decide_eq_true he⟩) : i ∈ AnchorPointwise.others pw x)
      obtain ⟨param, hparam, hvalue, -⟩ := forall₂_getElem? hdeclared hk
      exact .inr ⟨k, hk, hparam.trans (congrArg some
        (Option.some.inj (hvalue.symm.trans harg)))⟩
  · rw [show w'.program.parameters m = _ from hparams, h.parameters]
    refine List.rel_append (forall₂_imp_of_mem h.fed fun param hmem upper hupper => ?_)
      (hdeclared.flip.imp fun param i hdecl => ?_)
    · have hparam : param ∈ w.program.parameters m := h.parameters ▸ hmem
      obtain ⟨inst, hi, -⟩ := h.adds.linked.owned (List.mem_of_mem_filter hparam)
      exact (hfused.continues.bound hi).trans hupper
    · obtain ⟨-, _, _, _, -, -, -, hbinding⟩ := hdecl
      exact hbinding

end Primed

end Building

/-! ## The region of the rule -/

namespace AnchorPointwise

open Building

variable {p : Program} {m body : ModuleId} {root x : InstrId} {w : Workspace} {chain : ReshapeChain}
  {nodes : List InstrId} {anchor : InstrId} {anchorInst pw : Instruction} {t : TensorType}

/-- The pointwise and the anchor of a match, with what lies between them. -/
structure Between (p : Program) (root x anchor : InstrId) (pw anchorInst : Instruction)
    (nodes : List InstrId) (ops : List Op) : Prop where
  valid : p.Valid
  rooted : root ∈ p.body main
  pointwise : p.instr? root = some pw
  isPointwise : pw.op = .pointwise
  reads : x ∈ pw.inputs
  anchored : p.instr? anchor = some anchorInst
  isAnchor : anchorInst.op.IsAnchor
  lane : p.Lane x nodes ops anchor
  /-- No other operand of the pointwise depends on the anchor. -/
  apart : ¬ Entangled p pw x anchor

namespace Between

variable {ops : List Op} (h : Between p root x anchor pw anchorInst nodes ops)

include h

theorem before_of_mem {i : InstrId} (hi : i ∈ pw.inputs) : Before (p.body main) i root :=
  h.valid.toLinked.before_of_uses h.rooted ⟨pw, h.pointwise, hi⟩

theorem anchor_before : Before (p.body main) anchor root :=
  h.lane.feeds (h.valid.toLinked.feeders_before root) (h.before_of_mem h.reads)

theorem node {i : InstrId} (hi : i ∈ nodes) : Before (p.body main) i root ∧ i ≠ anchor := by
  refine ⟨h.lane.feeds_nodes (h.valid.toLinked.feeders_before root) (h.before_of_mem h.reads) i hi,
    ?_⟩
  rintro rfl
  obtain ⟨inst, view, hinst, hop⟩ := h.lane.isReindex_nodes i hi
  cases h.anchored.symm.trans hinst
  have hanchor := h.isAnchor
  rw [hop] at hanchor
  exact hanchor

theorem preserves_steps {chain : ReshapeChain} (hops : chain.ops = ops)
    (hmodules : pw.modules = [body]) (multi : Bool) (dims : Shape) :
    (steps anchorInst pw body m dims chain x multi).Preserves
      (Growing (Before (p.body main) · root) p m) := by
  subst hops
  have hF := h.valid.toLinked.feeders_before root
  refine AnchorPointwise.preserves_steps hF h.isAnchor
    (fun i hi => hF.closed h.anchor_before ⟨anchorInst, h.anchored, hi⟩) (fun op hop => ?_)
    (h.valid.toFramed.below_of_mem h.rooted h.pointwise (hmodules ▸ List.mem_singleton_self body))
    (fun i hi => h.before_of_mem hi) multi
  obtain ⟨view, rfl⟩ := h.lane.isReindex op hop
  rfl

end Between

/-- What the region gives: the value of the pointwise, after that of the anchor if that has to be
given, too. -/
def gives (multi : Bool) (c : Compound) : List InstrId :=
  if multi then [c.anchor, c.value] else [c.value]

/-- **The steps of the rule build a compound.** -/
theorem ends_steps (h : Between p root x anchor pw anchorInst nodes chain.ops)
    (htracing : Tracing p m [] [] [] w) (hmodules : pw.modules = [body])
    (htype : pw.type = .tensor t) (multi : Bool) :
    (steps anchorInst pw body m t.shape chain x multi).Ends w fun returns w' =>
      ∃ c, Compounded p m anchorInst pw x chain.ops c w' ∧ returns = gives multi c := by
  have hp := h.valid
  have hl := hp.toLinked
  have hinputs : ∀ i ∈ pw.inputs, i ∈ p.body main := fun i hi => (h.before_of_mem hi).left_mem
  have hapart := Apart.of_mem hp htracing.filling.gone h.rooted h.pointwise
    (hmodules ▸ List.mem_singleton_self body)
  have hout : ∀ i ∈ pw.inputs, i ∉ p.body body := fun i hi => hapart.disjoint (hinputs i hi)
  obtain ⟨body', G, r, -, hmap⟩ := pointwise_of_valid hp h.pointwise h.isPointwise fun _ _ => False
  obtain rfl : body' = body := List.singleton_inj.mp (hmap.modules.symm.trans hmodules)
  obtain ⟨params, hsig⟩ := hmap.signature
  obtain ⟨result, hresult⟩ := exists_returned hsig
  refine ends_prime hp htracing hapart.ne
    (fun i hi => hl.mem_body_of_uses h.anchor_before.left_mem ⟨anchorInst, h.anchored, hi⟩)
    h.isAnchor h.lane
    fun c w' hprimed => ?_
  rw [ends_bind]
  refine (ends_fuse_image .plain hp hprimed.module hprimed.adds hapart.ne hapart.free hout
    fun i hi hret => ?_).mono fun results w'' hfused => ?_
  · refine hprimed.nothing i (fun he => hout x h.reads (he ▸ hi)) fun _ => ?_
    exact (hasOp_inner_of_isReturn hret).2
  · obtain ⟨c', hcompounded, rfl, rfl⟩ := hprimed.compounded hl
      (fun i hi => ⟨hinputs i hi, hout i hi⟩) h.reads hmodules htype hmap.operands.length_eq hresult
      hfused
    rw [ends_pure]
    refine ⟨c', hcompounded, ?_⟩
    cases multi <;> rfl

/-- A new module of `q` joins the anchor and the pointwise of `p`. The operands of its call are the
tensors above the operands of the anchor and then the other operands of the pointwise, or row-major
copies where a call does not take them. -/
structure Joined (p q : Program) (m : ModuleId) (anchorInst pw : Instruction) (x : InstrId)
    (ops : List Op) (multi : Bool) (c : Compound) (operands : List InstrId) : Prop where
  isNew : p.module? m = none
  joins : c.Joins p q m anchorInst pw x ops
  returned : q.returned m = gives multi c
  supplied : List.Forall₂ (Supplied p q) (c.threads.map Thread.upper ++ others pw x) operands

section

variable {s : Session} (h : Between p root x anchor pw anchorInst nodes chain.ops)
  (htracing : Tracing p m [] [] [] ⟨s.program, .onModule m⟩)
  (hgrowing : Growing (Before (p.body main) · root) p m ⟨s.program, .onModule m⟩)
  (hmodules : pw.modules = [body]) (htype : pw.type = .tensor t) (multi : Bool)

include h htracing hgrowing hmodules htype

/-- **The region of the rule is built.** -/
theorem ends_complete :
    (Fusing.complete (.onModule m) (steps anchorInst pw body m t.shape chain x multi)).Ends s
      fun operands s' => Extended root p s'.program ∧
        ∃ c, Joined p s'.program m anchorInst pw x chain.ops multi c operands := by
  have hl := h.valid.toLinked
  have hgrows : (steps anchorInst pw body m t.shape chain x multi).Ends _ _ :=
    h.preserves_steps rfl hmodules multi t.shape _ hgrowing
  have hbuilds := ends_steps h htracing hmodules htype multi
  refine (Fusing.ends_supplied (m := m) (Q := fun returns feeders q => q.Linked ∧ ∃ c : Compound,
    c.Joins p q m anchorInst pw x chain.ops ∧ returns = gives multi c ∧
      feeders = c.threads.map Thread.upper ++ others pw x) hl (hl.feeders_before root)
    h.rooted (fun hself => hself.ne (hl.nodup main) rfl)
    ((hgrows.and hbuilds).mono ?_)).mono ?_
  · rintro returns w ⟨hgrows, c, hc, rfl⟩
    exact ⟨hgrows, hc.adds, _, hc.fed, hc.adds.linked, c, hc.joins, rfl, rfl⟩
  · rintro operands s' ⟨hext, -, hnew, -, _, _, q, ⟨hq, c, hjoins, rfl, rfl⟩, hfinished, hsupplied⟩
    exact ⟨hext, c, hnew, hjoins.of_sameForm hq hfinished.listed hfinished.parameters
      hfinished.form, hfinished.returned, hsupplied⟩

end

end AnchorPointwise

end OffloadFusion
