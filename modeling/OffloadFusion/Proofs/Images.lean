import OffloadFusion.Proofs.Replaying
import OffloadFusion.Proofs.Threading

/-!
# Replayed bodies are images

A replay of a body is a map from its instructions to instructions of a module. Where it ends, each
instruction that had no value before has the value of the same operation on the values of its
operands.

* `Adds`, `Made`: a module is only added to, and what is made there.
* `Emission`: what an operation on values becomes in each mode.
* `Image`: a map that takes a body to what was emitted for it; one instruction takes it further
  (`Image.snoc`).
* **`Building.ends_fuse_image`**: what `fuse` leaves behind is an image of the body, and its results
  are the values of what the body gives.
-/

namespace OffloadFusion

open OffloadFusion.Action

namespace Program

variable {p q r : Program} {i j x : InstrId} {m k : ModuleId} {n : Nat} {op : Op}
  {inst : Instruction} {inputs : List InstrId} {modules : List ModuleId} {type : ValueType}

/-! ## A module that is added to -/

/-- The module was only added to, and all else is as it was. -/
structure Adds (m : ModuleId) (p q : Program) : Prop where
  linked : q.Linked
  module? : ∀ {k}, k ≠ m → q.module? k = p.module? k
  same : ∀ {j inst}, p.instr? j = some inst → inst.owner ≠ m → q.instr? j = some inst
  core : ∀ {j inst}, p.instr? j = some inst → SameCore p q j
  body : (p.body m).Sublist (q.body m)

namespace Adds

theorem refl (hl : p.Linked) (m : ModuleId) : Adds m p p :=
  ⟨hl, fun _ => rfl, fun hj _ => hj, fun _ => rfl, .refl _⟩

theorem exists_instr (h : Adds m p q) (hj : p.instr? j = some inst) :
    ∃ inst', q.instr? j = some inst' ∧ inst.core = inst'.core := (h.core hj).symm.exists_instr hj

theorem gone (h : Adds m p q) (hj : q.instr? j = none) : p.instr? j = none := by
  by_contra hne
  obtain ⟨inst, hp⟩ := Option.ne_none_iff_exists'.mp hne
  obtain ⟨inst', hq, -⟩ := h.exists_instr hp
  rw [hj] at hq
  cases hq

theorem trans (h : Adds m p q) (h' : Adds m q r) : Adds m p r := by
  refine ⟨h'.linked, fun hk => (h'.module? hk).trans (h.module? hk),
    fun hj ho => h'.same (h.same hj ho) ho, fun hj => ?_, h.body.trans h'.body⟩
  obtain ⟨inst', hq, -⟩ := h.exists_instr hj
  exact (h.core hj).trans (h'.core hq)

theorem body_eq (h : Adds m p q) (hk : k ≠ m) : q.body k = p.body k := by
  rw [Program.body, h.module? hk, Program.body]

theorem hasType (h : Adds m p q) (ht : p.HasType i type) : q.HasType i type := by
  obtain ⟨inst, hi, rfl⟩ := ht
  exact (h.core hi).hasType ⟨inst, hi, rfl⟩

/-- What another module lists is the same to the letter. -/
theorem instr?_of_mem (h : Adds m p q) (hl : p.Linked) (hk : k ≠ m) (hi : i ∈ p.body k) :
    q.instr? i = p.instr? i := by
  obtain ⟨inst, hinst, rfl⟩ := hl.owned hi
  rw [hinst, h.same hinst hk]

theorem parameters_eq (h : Adds m p q) (hl : p.Linked) (hk : k ≠ m) :
    q.parameters k = p.parameters k :=
  parameters_congr (h.body_eq hk) fun j hj => by rw [SameCore, h.instr?_of_mem hl hk hj]

end Adds

theorem Beside.adds (h : Beside p m q) : Adds m p q := by
  refine ⟨h.steady.toLinked, h.isLocal.module?, fun hj _ => h.same hj, fun hj => ?_, ?_⟩
  · rw [SameCore, hj, h.same hj]
  · rw [Program.body, h.gone]
    exact List.nil_sublist _

/-- The instruction of the module is a new one, the operation on the operands. -/
structure Made (m : ModuleId) (p q : Program) (op : Op) (inputs : List InstrId)
    (modules : List ModuleId) (i : InstrId) : Prop where
  gone : p.instr? i = none
  made : ∃ inst, q.instr? i = some inst ∧ inst.op = op ∧ inst.inputs = inputs ∧
    inst.modules = modules ∧ inst.owner = m

namespace Made

theorem mono (h : Made m p q op inputs modules i) (hr : Adds m q r) :
    Made m p r op inputs modules i := by
  obtain ⟨inst, hi, rfl, rfl, rfl, rfl⟩ := h.made
  obtain ⟨inst', hi', hcore⟩ := hr.exists_instr hi
  obtain ⟨hop, hin, hmod, -, ho⟩ := Instruction.core_eq_iff.mp hcore
  exact ⟨h.gone, inst', hi', hop.symm, hin.symm, hmod.symm, ho.symm⟩

theorem later (h : Made m q r op inputs modules i) (hq : Adds m p q) :
    Made m p r op inputs modules i := ⟨hq.gone h.gone, h.made⟩

theorem mem_body (h : Made m p q op inputs modules i) (hl : q.Linked) : i ∈ q.body m := by
  obtain ⟨inst, hi, -, -, -, rfl⟩ := h.made
  exact hl.listed hi

theorem hasOp (h : Made m p q op inputs modules i) (test : Op → Bool) :
    q.hasOp test i = test op := by
  obtain ⟨inst, hi, rfl, -⟩ := h.made
  rw [Program.hasOp, hi, Option.any_some]

end Made

/-- **An insertion adds one instruction.** -/
theorem Linked.adds_insertAt (hl : p.Linked) (hn : n ≤ (p.body m).length)
    (hok : Edit.insertAt m n op inputs modules p = .ok i q) :
    Adds m p q ∧ Made m p q op inputs modules i := by
  have hins := inserted_of_ok hl hok
  have hold : ∀ {j inst}, p.instr? j = some inst → SameCore p q j := by
    intro j inst hj
    refine hins.old ?_
    rintro rfl
    rw [hins.gone] at hj
    cases hj
  refine ⟨⟨?_, hins.isLocal.module?, fun {j inst} hj ho => ?_, hold, ?_⟩, hins.gone, ?_⟩
  · obtain ⟨module, type, hm, hc, -, -, rfl⟩ := Edit.insertAt_ok.mp hok
    exact hl.insert hm (body_of_module? hm ▸ hn) (Edit.mem_take_of_checkPlacement hc hm) rfl rfl
  · exact instr?_insertAt hl hok hj
      fun hmem => ho (hl.owner_unique hj (mem_body_of_insertAt hok hmem))
  · rw [hins.body, insertIdx_eq_take_drop hn]
    conv_lhs => rw [← List.take_append_drop n (p.body m)]
    exact .append (.refl _) (.cons _ (.refl _))
  · obtain ⟨type, -, hnew⟩ := hins.new
    exact ⟨_, hnew, rfl, rfl, rfl, rfl⟩

theorem Linked.adds_addInstruction (hl : p.Linked)
    (hok : Edit.addInstruction m op inputs modules p = .ok i q) :
    Adds m p q ∧ Made m p q op inputs modules i := by
  obtain ⟨module, hm, hins⟩ := Edit.addInstruction_ok.mp hok
  rw [← body_of_module? hm] at hins
  exact hl.adds_insertAt (Nat.sub_le _ _) hins

theorem Linked.adds_addLiteral {t : TensorType} {data : LiteralData} (hl : p.Linked)
    (hok : Edit.addLiteral m t data p = .ok i q) :
    Adds m p q ∧ Made m p q (.literal t data) [] [] i := by
  obtain ⟨module, hm, hins⟩ := Edit.addLiteral_ok.mp hok
  rw [← body_of_module? hm] at hins
  exact hl.adds_insertAt (p.parametersEnd_le _) hins

theorem Linked.adds_addParameter {name : String} {t : TensorType} (hl : p.Linked)
    (hok : Edit.addParameter m name t p = .ok i q) :
    Adds m p q ∧ Made m p q (.param name t) [] [] i := by
  obtain ⟨-, module, hm, hins⟩ := Edit.addParameter_ok.mp hok
  rw [← body_of_module? hm] at hins
  exact hl.adds_insertAt (p.parametersEnd_le _) hins

theorem Linked.mem_body_of_addParameter {name : String} {t : TensorType} (hl : p.Linked)
    (hok : Edit.addParameter m name t p = .ok i q) (hj : j ∈ q.body m) : j = i ∨ j ∈ p.body m := by
  obtain ⟨-, module, hm, hins⟩ := Edit.addParameter_ok.mp hok
  rw [← body_of_module? hm] at hins
  rw [(inserted_of_ok hl hins).body] at hj
  exact (List.mem_insertIdx (p.parametersEnd_le _)).mp hj

theorem Linked.parameters_addParameter {name : String} {t : TensorType} (hl : p.Linked)
    (hok : Edit.addParameter m name t p = .ok i q) : q.parameters m = p.parameters m ++ [i] := by
  obtain ⟨-, module, hm, hins⟩ := Edit.addParameter_ok.mp hok
  rw [← body_of_module? hm] at hins
  exact (inserted_of_ok hl hins).parameters_append hl rfl

theorem Linked.adds_stack {ops : List Op} {base top : InstrId} (hl : p.Linked)
    (hok : ReshapeChain.stack m ops base p = .ok top q) :
    Adds m p q ∧ ∃ is, q.Stack ops base is top ∧ ∀ i ∈ is, i ∈ q.body m := by
  induction ops generalizing p base with
  | nil =>
    cases hok
    exact ⟨.refl hl m, [], .nil, fun _ hi => absurd hi List.not_mem_nil⟩
  | cons op ops ih =>
    rw [ReshapeChain.stack, bind_ok] at hok
    obtain ⟨i, r, hadd, hok⟩ := hok
    obtain ⟨hadds, hmade⟩ := hl.adds_addInstruction hadd
    obtain ⟨hadds', is, hstack, hin⟩ := ih hadds.linked hok
    obtain ⟨inst, hi, rfl, hinputs, hmodules, -⟩ := (hmade.mono hadds').made
    exact ⟨hadds.trans hadds', i :: is, .cons ⟨inst, hi, rfl, hinputs, hmodules⟩ hstack,
      List.forall_mem_cons.mpr ⟨(hmade.mono hadds').mem_body hadds'.linked, hin⟩⟩

theorem Linked.parameters_addInstruction (hl : p.Linked) (hop : op.isParam = false)
    (hok : Edit.addInstruction m op inputs modules p = .ok i q) :
    q.parameters m = p.parameters m := by
  obtain ⟨module, hm, hins⟩ := Edit.addInstruction_ok.mp hok
  rw [← body_of_module? hm] at hins
  exact (inserted_of_ok hl hins).parameters_eq hl (Nat.sub_le _ _) hop

theorem Linked.parameters_stack {ops : List Op} {base top : InstrId} (hl : p.Linked)
    (hops : ∀ op ∈ ops, op.isParam = false)
    (hok : ReshapeChain.stack m ops base p = .ok top q) : q.parameters m = p.parameters m := by
  induction ops generalizing p base with
  | nil =>
    cases hok
    rfl
  | cons op ops ih =>
    obtain ⟨hop, hrest⟩ := List.forall_mem_cons.mp hops
    rw [ReshapeChain.stack, bind_ok] at hok
    obtain ⟨i, r, hadd, hok⟩ := hok
    have hstep := hl.parameters_addInstruction hop hadd
    exact (ih (hl.adds_addInstruction hadd).1.linked hrest hok).trans hstep

theorem Linked.returned_addReturn (hl : p.Linked) (hok : Edit.addReturn m inputs p = .ok i q) :
    Adds m p q ∧ q.parameters m = p.parameters m ∧ q.returned m = inputs := by
  obtain ⟨-, module, hm, hins⟩ := Edit.addReturn_ok.mp hok
  rw [← body_of_module? hm] at hins
  have hnew := inserted_of_ok hl hins
  have hle := Nat.le_refl (p.body m).length
  obtain ⟨type, -, hi⟩ := hnew.new
  have hlast : (q.body m).getLast? = some i := by
    rw [hnew.body, List.insertIdx_length_self, List.getLast?_concat]
  refine ⟨(hl.adds_insertAt hle hins).1, hnew.parameters_eq hl hle rfl, ?_⟩
  rw [returned_eq hlast hi]
  rfl

theorem hasOp_inner_of_isReturn (h : p.hasOp Op.isReturn i = true) :
    p.hasOp Op.isParam i = false ∧ p.hasOp Op.isLiteral i = false := by
  obtain ⟨inst, hi, hret⟩ := hasOp_iff.mp h
  rw [hasOp, hasOp, hi, Option.any_some, Option.any_some]
  cases hop : inst.op with
  | ret => exact ⟨rfl, rfl⟩
  | _ => rw [hop] at hret; cases hret

theorem notMem_parameters_of_isLiteral (h : p.hasOp Op.isLiteral i = true) :
    i ∉ p.parameters m := by
  intro hmem
  obtain ⟨inst, t, data, hi, hop⟩ := exists_literal h
  obtain ⟨inst', hi', hparam⟩ := hasOp_iff.mp (List.mem_filter.mp hmem).2
  cases hi.symm.trans hi'
  rw [hop] at hparam
  cases hparam

theorem Valid.literal_operands {t : TensorType} {data : LiteralData} (h : p.Valid)
    (hi : p.instr? i = some inst) (hop : inst.op = .literal t data) :
    inst.inputs = [] ∧ inst.modules = [] := by
  obtain ⟨types, signatures, htypes, hsigs, hinfer⟩ := infer_ok.mp (h.fresh hi)
  rw [hop] at hinfer
  simp only [Op.inferType, Op.nullary, Outcome.bind_ok, Typing.tensorInputs_ok,
    Typing.noModules_ok] at hinfer
  obtain ⟨_, ⟨_, ⟨hcount, -⟩, rfl⟩, -⟩ := hinfer
  have hnone : types.length = 0 := by simpa [Interval.exactly, Interval.contains] using hcount
  exact ⟨List.length_eq_zero_iff.mp (htypes.length_eq.trans hnone),
    List.forall₂_nil_right_iff.mp hsigs⟩

end Program

open Program

/-! ## What is emitted -/

namespace Replay

variable {base p q r p' r' : Program} {m body : ModuleId} {inst : Instruction}
  {args : List InstrId} {i value : InstrId} {mode : Mode} {known : InstrId → Prop}
  {values : Renaming} {l done rest : List InstrId} {dims common : Shape} {emit : Emit}
  {E : Program → Program → Instruction → List InstrId → InstrId → Prop} {s s₀ t : Scope}

/-- The map gives each instruction that is not known before, and is no return, what is emitted for
it on the values of its operands. -/
def Image (base : Program) (body : List InstrId)
    (emitted : Instruction → List InstrId → InstrId → Prop) (known : InstrId → Prop)
    (values : Renaming) : Prop :=
  ∀ i ∈ body, ∀ inst, base.instr? i = some inst → ¬ known i → inst.op.isReturn = false →
    ∃ args value, List.Forall₂ (fun x arg => values.image? x = some arg) inst.inputs args ∧
      values.image? i = some value ∧ emitted inst args value

theorem Image.mono {R R' : Instruction → List InstrId → InstrId → Prop} {known known'}
    (h : Image base l R known values)
    (hR : ∀ inst args value, R inst args value → R' inst args value)
    (hknown : ∀ i ∈ l, known i → known' i) : Image base l R' known' values := by
  intro i hmem inst hi hnot hret
  obtain ⟨args, value, hargs, hvalue, hr⟩ :=
    h i hmem inst hi (fun hk => hnot (hknown i hmem hk)) hret
  exact ⟨args, value, hargs, hvalue, hR inst args value hr⟩

/-- An operation with its modules on the values. -/
def Copied (m : ModuleId) (p q : Program) (inst : Instruction) (args : List InstrId)
    (value : InstrId) : Prop := Made m p q inst.op args inst.modules value

/-- A value as it is, or broadcast to the common dimensions if it has others. -/
def Fitted (m : ModuleId) (p q : Program) (common : Shape) (arg fitted : InstrId) : Prop :=
  ∃ t, q.HasType arg (.tensor t) ∧
    if t.shape = common then fitted = arg
    else Made m p q (.reindex (.multibroadcast common)) [arg] [] fitted

/-- An operation on values that are broadcast to their common shape. -/
def CopiedCommon (m : ModuleId) (p q : Program) (inst : Instruction) (args : List InstrId)
    (value : InstrId) : Prop :=
  ∃ types common fitted, List.Forall₂ (fun arg t => q.HasType arg (.tensor t)) args types ∧
    Shape.multiBroadcast? (types.map TensorType.shape) = some common ∧
    List.Forall₂ (Fitted m p q common) args fitted ∧ Made m p q inst.op fitted inst.modules value

/-- A constant, and on it its broadcast to dimensions. -/
def Rehomed (base : Program) (m : ModuleId) (p q : Program) (dims : Shape)
    (constant value : InstrId) : Prop :=
  ∃ inst t data copy, base.instr? constant = some inst ∧ inst.op = .literal t data ∧
    Made m p q (.literal t data) [] [] copy ∧
    Made m p q (.reindex (.multibroadcast dims)) [copy] [] value

/-- The value that a body gives first in an image where its parameters take the values and its
constants are broadcast to the dimensions of the pointwise. -/
def Inlined (base : Program) (m : ModuleId) (p q : Program) (inst : Instruction)
    (args : List InstrId) (value : InstrId) : Prop :=
  ∃ body t values result, inst.modules = [body] ∧ inst.type = .tensor t ∧
    (base.parameters body).length ≤ args.length ∧
    List.Forall₂ (fun param arg => values.image? param = some arg)
      (base.parameters body) (args.take (base.parameters body).length) ∧
    (∀ i ∈ base.body body, base.hasOp Op.isLiteral i = true → ∃ value,
      values.image? i = some value ∧ Rehomed base m p q t.shape i value) ∧
    Image base (base.body body) (Copied m p q)
      (fun i => base.hasOp Op.isParam i = true ∨ base.hasOp Op.isLiteral i = true) values ∧
    (base.returned body).head? = some result ∧ values.image? result = some value

/-- What an operation on values becomes in each mode. -/
inductive Emission (base : Program) (m : ModuleId) (p q : Program) (inst : Instruction)
    (args : List InstrId) (value : InstrId) : Mode → Prop
  | plain (copied : Copied m p q inst args value) : Emission base m p q inst args value .plain
  | pointwise (isPointwise : inst.op = .pointwise)
    (inlined : Inlined base m p q inst args value) :
    Emission base m p q inst args value .inlinePointwise
  | other (notPointwise : inst.op ≠ .pointwise) (copied : Copied m p q inst args value) :
    Emission base m p q inst args value .inlinePointwise
  | broadcast (several : inst.op.pattern = .elementwise ∧ 1 < args.length)
    (copied : CopiedCommon m p q inst args value) :
    Emission base m p q inst args value .commonShape
  | asIs (notSeveral : ¬ (inst.op.pattern = .elementwise ∧ 1 < args.length))
    (copied : Copied m p q inst args value) : Emission base m p q inst args value .commonShape

/-! ### What is emitted stays -/

section

variable (hp : Adds m p' p) (hq : Adds m q r)

include hp hq

theorem Copied.mono (h : Copied m p q inst args value) : Copied m p' r inst args value :=
  (Made.mono h hq).later hp

theorem Fitted.mono {arg fitted : InstrId} (h : Fitted m p q common arg fitted) :
    Fitted m p' r common arg fitted := by
  obtain ⟨t, ht, h⟩ := h
  refine ⟨t, hq.hasType ht, ?_⟩
  split at h
  · next hdims => rwa [if_pos hdims]
  · next hdims =>
    rw [if_neg hdims]
    exact (h.mono hq).later hp

theorem CopiedCommon.mono (h : CopiedCommon m p q inst args value) :
    CopiedCommon m p' r inst args value := by
  obtain ⟨types, common, fitted, htypes, hcommon, hfitted, hmade⟩ := h
  exact ⟨types, common, fitted, htypes.imp fun _ _ => hq.hasType, hcommon,
    hfitted.imp fun _ _ => Fitted.mono hp hq, (hmade.mono hq).later hp⟩

theorem Rehomed.mono (h : Rehomed base m p q dims i value) : Rehomed base m p' r dims i value := by
  obtain ⟨inst, t, data, copy, hi, hop, hcopy, hvalue⟩ := h
  exact ⟨inst, t, data, copy, hi, hop, (hcopy.mono hq).later hp, (hvalue.mono hq).later hp⟩

theorem Inlined.mono (h : Inlined base m p q inst args value) :
    Inlined base m p' r inst args value := by
  obtain ⟨body, t, values, result, hmod, htype, hlen, hparams, hliterals, himage, hhead, hvalue⟩ :=
    h
  refine ⟨body, t, values, result, hmod, htype, hlen, hparams, fun i hi hop => ?_,
    himage.mono (fun _ _ _ => Copied.mono hp hq) (fun _ _ => id), hhead, hvalue⟩
  obtain ⟨value, hvalue, hrehomed⟩ := hliterals i hi hop
  exact ⟨value, hvalue, hrehomed.mono hp hq⟩

theorem Emission.mono (h : Emission base m p q inst args value mode) :
    Emission base m p' r inst args value mode := by
  cases h with
  | plain h => exact .plain (h.mono hp hq)
  | pointwise hop h => exact .pointwise hop (h.mono hp hq)
  | other hop h => exact .other hop (h.mono hp hq)
  | broadcast hop h => exact .broadcast hop (h.mono hp hq)
  | asIs hop h => exact .asIs hop (h.mono hp hq)

end

/-! ## One instruction after the other -/

/-- What is emitted for what the body lists, and stays so. -/
structure Renders (base : Program) (m body : ModuleId) (emit : Emit)
    (E : Program → Program → Instruction → List InstrId → InstrId → Prop) : Prop where
  mono : ∀ {p' p q r inst args value}, Adds m p' p → Adds m q r → E p q inst args value →
    E p' r inst args value
  literal : ∀ {p q inst t data value}, inst.op = .literal t data → inst.modules = [] →
    Made m p q (.literal t data) [] [] value → E p q inst [] value
  emits : ∀ {i inst}, i ∈ base.body body → base.instr? i = some inst → ∀ s args,
    Adds m base s.program → (emit inst args).Ends s fun value t => t.values = s.values ∧
      Adds m s.program t.program ∧ E s.program t.program inst args value
  inside : ∀ {p q inst args value}, q.Linked → (∀ arg ∈ args, arg ∈ q.body m) →
    E p q inst args value → value ∈ q.body m

/-- What is known after a replay has gone through the instructions. -/
structure Imaged (base : Program) (m : ModuleId)
    (E : Program → Program → Instruction → List InstrId → InstrId → Prop) (s₀ s : Scope)
    (done : List InstrId) : Prop where
  adds : Adds m s₀.program s.program
  kept : ∀ {i value}, s₀.values.image? i = some value → s.values.image? i = some value
  only : ∀ {i value}, s.values.image? i = some value →
    s₀.values.image? i = some value ∨ i ∈ done ∧ base.hasOp Op.isReturn i = false
  image : Image base done (E s₀.program s.program) (s₀.values.contains ·) s.values
  inside : (∀ i value, s₀.values.image? i = some value → value ∈ s₀.program.body m) →
    ∀ i value, s.values.image? i = some value → value ∈ s.program.body m

namespace Imaged

theorem start (h : s₀.program.Linked) : Imaged base m E s₀ s₀ [] :=
  ⟨.refl h m, id, .inl, fun _ hi => absurd hi List.not_mem_nil, id⟩

theorem skip (h : Imaged base m E s₀ s done) (hi : base.instr? i = some inst)
    (hnot : s₀.values.contains i = true ∨ inst.op.isReturn = true) :
    Imaged base m E s₀ s (done ++ [i]) := by
  refine ⟨h.adds, h.kept, fun hv => (h.only hv).imp_right (And.imp_left (List.mem_append_left _)),
    ?_, h.inside⟩
  intro j hj instj hinst hknown hret
  obtain hj | hj := List.mem_append.mp hj
  · exact h.image j hj instj hinst hknown hret
  · obtain rfl := List.mem_singleton.mp hj
    cases hi.symm.trans hinst
    exact (hnot.elim hknown fun hr => Bool.noConfusion (hr.symm.trans hret)).elim

/-- **What is emitted for the next instruction takes the image further.** -/
theorem snoc (h : Imaged base m E s₀ s done) (hr : Renders base m body emit E)
    (hl : s₀.program.Linked) (hi : base.instr? i = some inst)
    (hret : base.hasOp Op.isReturn i = false) (hnew : s.values.image? i = none)
    (hargs : List.Forall₂ (fun x arg => s.values.image? x = some arg) inst.inputs args)
    (hadds : Adds m s.program t.program) (hvalue : E s.program t.program inst args value)
    (hvalues : t.values = s.values.insert i value) : Imaged base m E s₀ t (done ++ [i]) := by
  have hold : ∀ {x arg}, s.values.image? x = some arg → t.values.image? x = some arg := by
    intro x arg hx
    rw [hvalues, Renaming.image?_insert, if_neg, hx]
    rintro rfl
    rw [hnew] at hx
    cases hx
  have hself : t.values.image? i = some value := by
    rw [hvalues, Renaming.image?_insert, if_pos rfl]
  refine ⟨h.adds.trans hadds, fun hv => hold (h.kept hv), fun {j v} hv => ?_, ?_, ?_⟩
  · rw [hvalues, Renaming.image?_insert] at hv
    split at hv
    · next hji => exact .inr ⟨List.mem_append_right _ (List.mem_singleton.mpr hji), hji ▸ hret⟩
    · exact (h.only hv).imp_right (And.imp_left (List.mem_append_left _))
  · intro j hj instj hinst hknown hret
    obtain hj | hj := List.mem_append.mp hj
    · obtain ⟨args, v, hargs, hv, he⟩ := h.image j hj instj hinst hknown hret
      exact ⟨args, v, hargs.imp fun _ _ => hold, hold hv, hr.mono (.refl hl m) hadds he⟩
    · obtain rfl := List.mem_singleton.mp hj
      cases hi.symm.trans hinst
      exact ⟨args, value, hargs.imp fun _ _ => hold, hself,
        hr.mono h.adds (.refl hadds.linked m) hvalue⟩
  · intro hin j v hv
    have hargsIn : ∀ arg ∈ args, arg ∈ t.program.body m := fun arg harg => by
      obtain ⟨x, -, hx⟩ := forall₂_exists hargs.flip harg
      exact hadds.body.subset (h.inside hin x arg hx)
    rw [hvalues, Renaming.image?_insert] at hv
    split at hv
    · cases hv
      exact hr.inside hadds.linked hargsIn hvalue
    · exact hadds.body.subset (h.inside hin j v hv)

end Imaged

theorem ends_valuesOf (is : List InstrId) : (is.mapM valueOf).Ends s fun values t => t = s ∧
    List.Forall₂ (fun x value => s.values.image? x = some value) is values := by
  induction is with
  | nil => exact ⟨rfl, .nil⟩
  | cons i is ih =>
    rw [List.mapM_cons, ends_bind, valueOf, ends_get_bind, ends_lift_graph]
    intro value hvalue
    rw [ends_bind]
    refine ih.mono ?_
    rintro values t ⟨rfl, hvalues⟩
    exact ⟨rfl, .cons (Renaming.image_ok.mp hvalue) hvalues⟩

/-! ## Bodies -/

section

variable (hr : Renders base m body emit E) (hbase : Adds m base s₀.program)

include hr hbase

/-- What an instruction becomes is known, and the rest is replayed with it. -/
theorem ends_copyOne {α : Type} {step : List InstrId → Replaying InstrId} {next : Replaying α}
    {Q : α → Scope → Prop} (h : Imaged base m E s₀ s done)
    (hi : base.instr? i = some inst) (hret : base.hasOp Op.isReturn i = false)
    (hnew : s.values.image? i = none) (hstep : ∀ args,
      List.Forall₂ (fun x arg => s.values.image? x = some arg) inst.inputs args →
      (step args).Ends s fun value t => t.values = s.values ∧ Adds m s.program t.program ∧
        E s.program t.program inst args value)
    (hnext : ∀ t, Imaged base m E s₀ t (done ++ [i]) → next.Ends t Q) :
    (do
      let args ← inst.inputs.mapM valueOf
      let copy ← step args
      know i copy
      next : Replaying α).Ends s Q := by
  rw [ends_bind]
  refine (ends_valuesOf _).mono ?_
  rintro args _ ⟨rfl, hargs⟩
  rw [ends_bind]
  refine (hstep args hargs).mono ?_
  rintro value t ⟨hvalues, hadds, hvalue⟩
  rw [ends_bind, know, ends_modify]
  refine hnext _ (h.snoc hr hbase.linked hi hret hnew hargs hadds hvalue ?_)
  rw [← hvalues]

variable (hp : base.Valid) (hbody : body ≠ m)
  (hret : ∀ i ∈ base.body body, base.hasOp Op.isReturn i = true → s₀.values.image? i = none)

include hp hbody hret

/-- **An image of what is behind becomes an image of the body.** -/
theorem ends_replayFrom {returns : Option (List InstrId)} (hsplit : base.body body = done ++ rest)
    (h : Imaged base m E s₀ s done) :
    (replayFrom m emit rest returns).Ends s fun result t =>
      Imaged base m E s₀ t (base.body body) ∧ Building.Met base rest returns result := by
  induction rest generalizing done s returns with
  | nil =>
    rw [replayFrom, ends_pure, hsplit, List.append_nil]
    exact ⟨h, .inr ⟨fun _ hi => absurd hi List.not_mem_nil, rfl⟩⟩
  | cons i rest ih =>
    have hmem : i ∈ base.body body := hsplit ▸ List.mem_append_right done List.mem_cons_self
    have hsplit' : base.body body = (done ++ [i]) ++ rest := by
      rw [hsplit, List.append_assoc, List.singleton_append]
    have hdone : i ∉ done := by
      have hn := hp.nodup body
      rw [hsplit] at hn
      exact fun hi => (List.disjoint_of_nodup_append hn) hi List.mem_cons_self
    obtain ⟨inst, hi, howner⟩ := hp.owned hmem
    rw [replayFrom, ends_get_bind]
    split
    · next hknown =>
      obtain ⟨value, hvalue⟩ := Option.isSome_iff_exists.mp hknown
      have hbefore := (h.only hvalue).resolve_right fun hlater => hdone hlater.1
      have hnot : base.hasOp Op.isReturn i = false := by
        refine Bool.eq_false_iff.mpr fun hr => ?_
        rw [hret i hmem hr] at hbefore
        cases hbefore
      refine (ih hsplit' (h.skip hi (.inl ?_))).mono fun result t ht => ⟨ht.1, ht.2.cons hnot⟩
      rw [Renaming.contains, hbefore]
      rfl
    next hknown =>
    have hnew : s.values.image? i = none :=
      Option.not_isSome_iff_eq_none.mp hknown
    have hadds := hbase.trans h.adds
    rw [ends_bind, ends_lift_checked]
    intro inst' hi'
    rw [instr_ok, hadds.instr?_of_mem hp.toLinked hbody hmem, hi] at hi'
    cases hi'
    have hnot : inst.op ≠ .ret → base.hasOp Op.isReturn i = false := fun hop => by
      rw [hasOp, hi, Option.any_some]
      cases hop' : inst.op with
      | ret => exact absurd hop' hop
      | _ => rfl
    have hnext : inst.op ≠ .ret → ∀ t, Imaged base m E s₀ t (done ++ [i]) →
        (replayFrom m emit rest returns).Ends t fun result t =>
          Imaged base m E s₀ t (base.body body) ∧ Building.Met base (i :: rest) returns result :=
      fun hop t ht => (ih hsplit' ht).mono fun result t ht => ⟨ht.1, ht.2.cons (hnot hop)⟩
    cases hop : inst.op with
    | ret =>
      have hreturn : base.hasOp Op.isReturn i = true := hasOp_iff.mpr ⟨inst, hi, hop ▸ rfl⟩
      obtain rfl := hp.nil_of_return hsplit hreturn
      rw [replayFrom, ends_pure, hsplit]
      exact ⟨h.skip hi (.inr (hop ▸ rfl)), .inl ⟨i, inst, rfl, hi, hop, rfl⟩⟩
    | param name t => exact ends_refuse (by rintro _ ⟨⟩)
    | literal t data =>
      have hne : inst.op ≠ .ret := by rw [hop]; rintro ⟨⟩
      refine ends_copyOne hr hbase h hi (hnot hne) hnew (fun args hargs => ?_) (hnext hne)
      rw [ends_edit]
      intro value q hok
      obtain ⟨hstep, hmade⟩ := hadds.linked.adds_addLiteral hok
      obtain ⟨hinputs, hmodules⟩ := hp.literal_operands hi hop
      rw [hinputs, List.forall₂_nil_left_iff] at hargs
      subst hargs
      exact ⟨rfl, hstep, hr.literal hop hmodules hmade⟩
    | _ =>
      have hne : inst.op ≠ .ret := by rw [hop]; rintro ⟨⟩
      exact ends_copyOne hr hbase h hi (hnot hne) hnew
        (fun args hargs => hr.emits hmem hi s args hadds) (hnext hne)

/-- **A replay ends with an image of the body, and gives the values of what the body gives.** -/
theorem ends_replayWith : (replayWith m emit body).Ends s₀ fun results t =>
    Imaged base m E s₀ t (base.body body) ∧
      List.Forall₂ (fun x value => t.values.image? x = some value) (base.returned body)
        results := by
  rw [replayWith, ends_theProgram_bind, ends_bind, ends_lift_checked]
  intro module hmodule
  have hlist : module.body = base.body body := by
    rw [← hbase.body_eq hbody]
    exact (body_of_module? (module_ok.mp hmodule)).symm
  rw [ends_bind, hlist]
  refine (ends_replayFrom hr hbase hp hbody hret (List.nil_append _).symm
    (.start hbase.linked)).mono ?_
  rintro result t ⟨ht, ⟨last, inst, hlast, hi, hop, rfl⟩ | ⟨hnone, rfl⟩⟩
  · have hgives : base.returned body = inst.inputs := by
      rw [returned_eq hlast hi, hop]
      rfl
    rw [hgives]
    refine (ends_valuesOf inst.inputs).mono ?_
    rintro values _ ⟨rfl, hvalues⟩
    exact ⟨ht, hvalues⟩
  · rw [ends_get_bind, ends_pure, (hbase.trans ht.adds).body_eq hbody]
    refine ⟨ht, ?_⟩
    cases hlast : (base.body body).getLast? with
    | none =>
      rw [returned, hlast]
      exact .nil
    | some last =>
      have hmem := List.mem_of_getLast? hlast
      obtain ⟨inst, hi, -⟩ := hp.owned hmem
      have hnot := hnone last hmem
      rw [hasOp, hi, Option.any_some] at hnot
      rw [returned_eq hlast hi, hnot, if_neg Bool.false_ne_true, Option.bind_some]
      have himage : ∃ value, t.values.image? last = some value := by
        by_cases hknown : s₀.values.contains last = true
        · obtain ⟨value, hvalue⟩ := Option.isSome_iff_exists.mp hknown
          exact ⟨value, ht.kept hvalue⟩
        · obtain ⟨_, value, -, hvalue, -⟩ := ht.image last hmem inst hi hknown hnot
          exact ⟨value, hvalue⟩
      obtain ⟨value, hvalue⟩ := himage
      rw [hvalue]
      exact .cons hvalue .nil

end

/-- **Nothing is built where all is known but returns.** -/
theorem ends_replayWith_known (hl : base.Linked) (hbody : body ≠ m)
    (hbase : Adds m base s.program) (hall : ∀ i ∈ base.body body,
      base.hasOp Op.isReturn i = false → s.values.contains i = true) :
    (replayWith m emit body).Ends s fun _ t => t = s := by
  have hloop : ∀ {rest returns}, (∀ i ∈ rest, i ∈ base.body body) →
      (replayFrom m emit rest returns).Ends s fun _ t => t = s := by
    intro rest
    induction rest with
    | nil => exact fun _ => rfl
    | cons i rest ih =>
      intro returns hmem
      obtain ⟨hi, hrest⟩ := List.forall_mem_cons.mp hmem
      rw [replayFrom, ends_get_bind]
      split
      · exact ih hrest
      next hknown =>
      rw [ends_bind, ends_lift_checked]
      intro inst hinst
      rw [instr_ok, hbase.instr?_of_mem hl hbody hi] at hinst
      have hret : base.hasOp Op.isReturn i = true := by
        by_contra hne
        exact hknown (hall i hi (Bool.eq_false_iff.mpr hne))
      rw [hasOp, hinst, Option.any_some] at hret
      cases hop : inst.op with
      | ret => exact ih hrest
      | _ => rw [hop] at hret; cases hret
  rw [replayWith, ends_theProgram_bind, ends_bind, ends_lift_checked]
  intro module hmodule
  have hlist : module.body = base.body body := by
    rw [← hbase.body_eq hbody]
    exact (body_of_module? (module_ok.mp hmodule)).symm
  rw [ends_bind]
  refine (hloop fun i hi => hlist ▸ hi).mono ?_
  rintro returns _ rfl
  cases returns with
  | none => exact rfl
  | some returns => exact (ends_valuesOf returns).mono fun _ _ ht => ht.1

/-! ## Modes -/

theorem renders_plain : Renders base m body (emitPlain m) (Copied m) where
  mono hp hq h := Copied.mono hp hq h
  literal {p q inst t data value} hop hmod h := by rwa [Copied, hop, hmod]
  emits _ _ s args hadds := by
    rw [emitPlain, ends_edit]
    exact fun value q hok => ⟨rfl, hadds.linked.adds_addInstruction hok⟩
  inside hl _ h := h.mem_body hl

/-! ### Pointwise instructions -/

theorem ends_rehomeOne {t : TensorType} {data : LiteralData} (hl : s.program.Linked)
    (hi : base.instr? i = some inst) (hop : inst.op = .literal t data) :
    (do
      let copy ← Edit.addLiteral m t data
      know i (← widen m dims copy) : Replaying PUnit).Ends s fun _ s' =>
        Adds m s.program s'.program ∧ ∃ value, s'.values = s.values.insert i value ∧
          Rehomed base m s.program s'.program dims i value := by
  rw [ends_bind, ends_edit]
  intro copy q hcopy
  obtain ⟨hq, hmade⟩ := hl.adds_addLiteral hcopy
  rw [ends_bind, widen, ends_edit]
  intro value r hvalue
  obtain ⟨hr, hmade'⟩ := hq.linked.adds_addInstruction hvalue
  rw [know, ends_modify]
  exact ⟨hq.trans hr, value, rfl, inst, t, data, copy, hi, hop, hmade.mono hr, hmade'.later hq⟩

theorem literals_cons {l : List InstrId} {t : TensorType} {data : LiteralData}
    (hi : base.instr? i = some inst) (hop : inst.op = .literal t data) :
    literals base (i :: l) = (i, t, data) :: literals base l := by
  rw [literals, List.filterMap_cons, hi, Option.map_some, hop]
  rfl

theorem literals_cons_of_not {l : List InstrId} (h : base.hasOp Op.isLiteral i = false) :
    literals base (i :: l) = literals base l := by
  rw [literals, List.filterMap_cons]
  cases hi : base.instr? i with
  | none => rfl
  | some inst =>
    rw [hasOp, hi, Option.any_some] at h
    cases hop : inst.op with
    | literal t data =>
      rw [hop] at h
      cases h
    | _ => simp only [Option.map_some, hop]; rfl

theorem ends_rehomeFrom (hl : s.program.Linked) (l : List InstrId) :
    ((literals base l).forM fun entry => do
      let copy ← Edit.addLiteral m entry.2.1 entry.2.2
      know entry.1 (← widen m dims copy) : Replaying PUnit).Ends s fun _ t =>
        Adds m s.program t.program ∧
        (∀ i ∈ l, base.hasOp Op.isLiteral i = true → ∃ value,
          t.values.image? i = some value ∧ Rehomed base m s.program t.program dims i value) ∧
        ∀ i, (i ∈ l → base.hasOp Op.isLiteral i = false) →
          t.values.image? i = s.values.image? i := by
  induction l generalizing s with
  | nil => exact ⟨.refl hl m, fun _ hi => absurd hi List.not_mem_nil, fun _ _ => rfl⟩
  | cons i l ih =>
    cases hliteral : base.hasOp Op.isLiteral i with
    | true =>
      obtain ⟨inst, t, data, hi, hop⟩ := exists_literal hliteral
      rw [literals_cons hi hop, List.forM, ends_bind]
      refine (ends_rehomeOne hl hi hop).mono ?_
      rintro _ s₁ ⟨hadds, value, hvalues, hrehomed⟩
      refine (ih hadds.linked).mono ?_
      rintro _ t ⟨hadds', hall, hrest⟩
      refine ⟨hadds.trans hadds', fun j hj hop => ?_, fun j hj => ?_⟩
      · by_cases hjl : j ∈ l
        · obtain ⟨v, hv, hr⟩ := hall j hjl hop
          exact ⟨v, hv, hr.mono hadds (.refl hadds'.linked m)⟩
        · obtain rfl := (List.mem_cons.mp hj).resolve_right hjl
          refine ⟨value, ?_, hrehomed.mono (.refl hl m) hadds'⟩
          rw [hrest j fun hmem => absurd hmem hjl, hvalues, Renaming.image?_insert, if_pos rfl]
      · have hji : j ≠ i := by
          rintro rfl
          rw [hj List.mem_cons_self] at hliteral
          cases hliteral
        rw [hrest j fun hmem => hj (List.mem_cons_of_mem i hmem), hvalues,
          Renaming.image?_insert, if_neg hji]
    | false =>
      rw [literals_cons_of_not hliteral]
      refine (ih hl).mono ?_
      rintro _ t ⟨hadds, hall, hrest⟩
      refine ⟨hadds, fun j hj hop => ?_, fun j hj => ?_⟩
      · obtain rfl | hj := List.mem_cons.mp hj
        · rw [hliteral] at hop
          cases hop
        · exact hall j hj hop
      · exact hrest j fun hmem => hj (List.mem_cons_of_mem i hmem)

/-- **The constants of a body are copied and broadcast**, and nothing else gets a value. -/
theorem ends_rehome (hl : base.Linked) (hbody : body ≠ m) (hbase : Adds m base s.program) :
    (rehome m body dims).Ends s fun _ t => Adds m s.program t.program ∧
      (∀ i ∈ base.body body, base.hasOp Op.isLiteral i = true → ∃ value,
        t.values.image? i = some value ∧ Rehomed base m s.program t.program dims i value) ∧
      ∀ i, (i ∈ base.body body → base.hasOp Op.isLiteral i = false) →
        t.values.image? i = s.values.image? i := by
  rw [rehome, ends_theProgram_bind, ends_bind, ends_lift_checked]
  intro module hmodule
  have hlist : module.body = base.body body := by
    rw [← hbase.body_eq hbody]
    exact (body_of_module? (module_ok.mp hmodule)).symm
  have hsame : literals s.program module.body = literals base (base.body body) := by
    rw [hlist, literals, literals]
    exact List.filterMap_congr fun i hi => by rw [hbase.instr?_of_mem hl hbody hi]
  have hprogram : HoldsProgram.program s = s.program := rfl
  rw [hprogram, hsame]
  exact ends_rehomeFrom hbase.linked _

theorem ends_bindParams {params args : List InstrId} (hn : params.Nodup) :
    (bindParams params args).Ends s fun _ t => t.program = s.program ∧
      params.length ≤ args.length ∧
      List.Forall₂ (fun param arg => t.values.image? param = some arg) params
        (args.take params.length) ∧
      ∀ i ∉ params, t.values.image? i = s.values.image? i := by
  induction params generalizing args s with
  | nil =>
    rw [bindParams, ends_pure]
    exact ⟨rfl, Nat.zero_le _, .nil, fun _ _ => rfl⟩
  | cons param params ih =>
    obtain ⟨hparam, hn⟩ := List.nodup_cons.mp hn
    cases args with
    | nil =>
      rw [bindParams, unbound, ends_theProgram_bind, ends_bind, ends_lift_checked]
      exact fun inst _ => ends_refuse (by rintro _ ⟨⟩)
    | cons arg args =>
      rw [bindParams, ends_bind, know, ends_modify]
      refine (ih hn).mono ?_
      rintro _ t ⟨hprogram, hlen, hall, hrest⟩
      refine ⟨hprogram, Nat.succ_le_succ hlen, .cons ?_ hall, fun i hi => ?_⟩
      · rw [hrest param hparam, Renaming.image?_insert, if_pos rfl]
      · obtain ⟨hne, hi⟩ := not_or.mp (mt List.mem_cons.mpr hi)
        rw [hrest i hi, Renaming.image?_insert, if_neg hne]

/-- **A pointwise instruction is expanded to an image of its body.** -/
theorem ends_inline {t : TensorType} (hp : base.Valid) (hbody : body ≠ m)
    (hbase : Adds m base s.program) (hmod : inst.modules = [body]) (htype : inst.type = .tensor t) :
    (inline m body args t.shape).Ends s fun value s' => s'.values = s.values ∧
      Adds m s.program s'.program ∧ Inlined base m s.program s'.program inst args value := by
  have hl := hp.toLinked
  rw [inline, ends_bind, locally, ends_focus, ends_bind]
  refine (ends_rehome hl hbody (s := ⟨s.program, .empty⟩) hbase).mono ?_
  rintro _ s₁ ⟨hadds₁, hliterals, hothers⟩
  have hbase₁ := hbase.trans hadds₁
  rw [ends_theProgram_bind, ends_bind]
  have hparams : (HoldsProgram.program s₁).parameters body = base.parameters body :=
    hbase₁.parameters_eq hl hbody
  rw [hparams]
  refine (ends_bindParams ((hl.nodup body).filter _)).mono ?_
  rintro _ s₂ ⟨hprogram, hlen, hbound, hrest⟩
  have hbase₂ : Adds m base s₂.program := hprogram ▸ hbase₁
  have hvalues : ∀ i ∈ base.body body, base.hasOp Op.isParam i = false →
      base.hasOp Op.isLiteral i = false → s₂.values.image? i = none := by
    intro i hi hparam hliteral
    have hnot : i ∉ base.parameters body := fun hmem => by
      rw [(List.mem_filter.mp hmem).2] at hparam
      cases hparam
    rw [hrest i hnot, hothers i fun _ => hliteral]
    rfl
  refine (ends_replayWith renders_plain hbase₂ hp hbody fun i hi hret => ?_).mono ?_
  · obtain ⟨hparam, hliteral⟩ := hasOp_inner_of_isReturn hret
    exact hvalues i hi hparam hliteral
  rintro results s₃ ⟨himage, hresults⟩
  cases results with
  | nil => exact ends_refuse (by rintro _ ⟨⟩)
  | cons value results =>
    rw [ends_pure]
    have hadds := hadds₁.trans (hprogram ▸ himage.adds)
    refine ⟨rfl, hadds, ?_⟩
    obtain ⟨result, more, hresult, -, hgives⟩ := List.forall₂_cons_right_iff.mp hresults
    refine ⟨body, t, s₃.values, result, hmod, htype, hlen, hbound.imp fun _ _ => himage.kept,
      fun i hi hop => ?_, himage.image.mono (fun _ _ _ => ?_) fun i hi hknown => ?_,
      by rw [hgives]; rfl, hresult⟩
    · obtain ⟨v, hv, hrehomed⟩ := hliterals i hi hop
      refine ⟨v, himage.kept ?_, hrehomed.mono (.refl hbase.linked m) (hprogram ▸ himage.adds)⟩
      rw [hrest i (notMem_parameters_of_isLiteral hop), hv]
    · exact Copied.mono (hprogram ▸ hadds₁) (.refl himage.adds.linked m)
    · by_contra hne
      obtain ⟨hparam, hliteral⟩ := not_or.mp hne
      rw [Renaming.contains, hvalues i hi (Bool.eq_false_iff.mpr hparam)
        (Bool.eq_false_iff.mpr hliteral)] at hknown
      cases hknown

/-- What a pointwise is expanded to is in the module if its operands are. -/
theorem Inlined.mem_body (hp : base.Valid) (hq : q.Linked) (hargs : ∀ arg ∈ args, arg ∈ q.body m)
    (h : Inlined base m p q inst args value) : value ∈ q.body m := by
  obtain ⟨body, t, values, result, -, -, -, hparams, hliterals, himage, hhead, hvalue⟩ := h
  obtain ⟨hresult, hret⟩ := hp.returned_inner (List.mem_of_mem_head? hhead)
  by_cases hparam : base.hasOp Op.isParam result = true
  · obtain ⟨arg, harg, himage⟩ :=
      forall₂_exists hparams (List.mem_filter.mpr ⟨hresult, hparam⟩)
    cases hvalue.symm.trans himage
    exact hargs value (List.mem_of_mem_take harg)
  by_cases hliteral : base.hasOp Op.isLiteral result = true
  · obtain ⟨v, hv, _, _, _, _, -, -, -, hmade⟩ := hliterals result hresult hliteral
    cases hvalue.symm.trans hv
    exact hmade.mem_body hq
  · obtain ⟨inst, hi, -⟩ := hp.owned hresult
    rw [hasOp, hi, Option.any_some] at hret
    obtain ⟨_, v, -, hv, hmade⟩ :=
      himage result hresult inst hi (not_or.mpr ⟨hparam, hliteral⟩) hret
    cases hvalue.symm.trans hv
    exact Made.mem_body hmade hq

theorem renders_inline (hp : base.Valid) (hmodules : m ∉ base.references body) :
    Renders base m body (emitInline m) fun p q inst args value =>
      Emission base m p q inst args value .inlinePointwise where
  mono hp hq h := h.mono hp hq
  literal {p q inst t data value} hop hmod h :=
    .other (by rw [hop]; rintro ⟨⟩) (by rwa [Copied, hop, hmod])
  emits {i inst} hmem hi s args hbase := by
    have hplain := renders_plain.emits hmem hi s args hbase
    unfold emitInline
    split
    · next inner hop hmod =>
      rw [ends_bind, ends_lift_graph]
      intro t ht
      have hne : inner ≠ m := by
        rintro rfl
        refine hmodules (List.mem_flatMap.mpr ⟨i, hmem, ?_⟩)
        rw [hi, Option.map_some, Option.getD_some, hmod]
        exact List.mem_singleton_self _
      have htype := ValueType.expectTensor_ok.mp (Outcome.lift_typed_ok.mp ht)
      refine (ends_inline hp hne hbase hmod htype).mono ?_
      rintro value s' ⟨hvalues, hadds, hinlined⟩
      exact ⟨hvalues, hadds, .pointwise hop hinlined⟩
    · exact ends_refuse (by rintro _ ⟨⟩)
    · next hnot _ =>
      refine hplain.mono ?_
      rintro value t ⟨hvalues, hadds, hcopied⟩
      exact ⟨hvalues, hadds, .other hnot hcopied⟩
  inside hq hargs h := by
    cases h with
    | pointwise _ h => exact h.mem_body hp hq hargs
    | other _ h => exact Made.mem_body h hq

/-! ### Elementwise instructions -/

theorem ends_shapesOf (args : List InstrId) : (args.mapM shapeOf).Ends s fun shapes t => t = s ∧
    ∃ types, List.Forall₂ (fun arg t => s.program.HasType arg (.tensor t)) args types ∧
      shapes = types.map TensorType.shape := by
  induction args with
  | nil => exact ⟨rfl, [], .nil, rfl⟩
  | cons arg args ih =>
    rw [List.mapM_cons, ends_bind, shapeOf, ends_theProgram_bind, ends_bind, ends_lift_graph]
    intro type htype
    rw [ends_pure, ends_bind]
    refine ih.mono ?_
    rintro shapes _ ⟨rfl, types, htypes, rfl⟩
    exact ⟨rfl, type :: types, .cons (tensorOf_ok.mp htype) htypes, rfl⟩

theorem ends_fit {types : List TensorType} (hs : Adds m p s.program)
    (htypes : List.Forall₂ (fun arg t => p.HasType arg (.tensor t)) args types) :
    ((args.zip (types.map TensorType.shape)).mapM fun entry =>
      if entry.2 = common then return entry.1 else widen m common entry.1 :
        Replaying (List InstrId)).Ends s fun fitted t => t.values = s.values ∧
          Adds m s.program t.program ∧
            List.Forall₂ (Fitted m s.program t.program common) args fitted := by
  induction htypes generalizing s with
  | nil => exact ⟨rfl, .refl hs.linked m, .nil⟩
  | @cons arg type args types htype _ ih =>
    have hone : (if type.shape = common then return arg else widen m common arg :
        Replaying InstrId).Ends s fun fitted t => t.values = s.values ∧
          Adds m s.program t.program ∧ Fitted m s.program t.program common arg fitted := by
      split
      · next hdims =>
        exact ⟨rfl, .refl hs.linked m, type, hs.hasType htype, by rw [if_pos hdims]⟩
      · next hdims =>
        rw [widen, ends_edit]
        intro fitted q hok
        obtain ⟨hadds, hmade⟩ := hs.linked.adds_addInstruction hok
        exact ⟨rfl, hadds, type, hadds.hasType (hs.hasType htype), by rwa [if_neg hdims]⟩
    rw [List.map_cons, List.zip_cons_cons, List.mapM_cons, ends_bind]
    refine hone.mono ?_
    rintro fitted t ⟨hvalues, hadds, hfitted⟩
    rw [ends_bind]
    refine (ih (hs.trans hadds)).mono ?_
    rintro rest u ⟨hvalues', hadds', hrest⟩
    rw [ends_pure]
    exact ⟨hvalues'.trans hvalues, hadds.trans hadds',
      .cons (hfitted.mono (.refl hs.linked m) hadds')
      (hrest.imp fun _ _ => Fitted.mono hadds (.refl hadds'.linked m))⟩

/-- **An elementwise operation is copied on values of a common shape.** -/
theorem ends_copyCommon (hl : s.program.Linked) :
    (do emitPlain m inst (← broadcastCommon m args) : Replaying InstrId).Ends s fun value t =>
      t.values = s.values ∧ Adds m s.program t.program ∧
        CopiedCommon m s.program t.program inst args value := by
  rw [ends_bind, broadcastCommon, ends_bind]
  refine (ends_shapesOf args).mono ?_
  rintro _ _ ⟨rfl, types, htypes, rfl⟩
  cases hcommon : Shape.multiBroadcast? (types.map TensorType.shape) with
  | none => exact ends_refuse (by rintro _ ⟨⟩)
  | some common =>
    refine (ends_fit (.refl hl m) htypes).mono ?_
    rintro fitted t ⟨hvalues, hadds, hfitted⟩
    rw [emitPlain, ends_edit]
    intro value q hok
    obtain ⟨hadds', hmade⟩ := hadds.linked.adds_addInstruction hok
    have hall := hadds.trans hadds'
    exact ⟨hvalues, hall, types, common, fitted, htypes.imp fun _ _ => hall.hasType, hcommon,
      hfitted.imp fun _ _ => Fitted.mono (.refl hl m) hadds', hmade.later hadds⟩

theorem renders_common : Renders base m body (emitCommon m) fun p q inst args value =>
    Emission base m p q inst args value .commonShape where
  mono hp hq h := h.mono hp hq
  literal {p q inst t data value} hop hmod h :=
    .asIs (fun hseveral => Nat.not_lt_zero 1 hseveral.2) (by rwa [Copied, hop, hmod])
  emits {i inst} hmem hi s args hbase := by
    rw [emitCommon]
    split
    · next hseveral =>
      refine (ends_copyCommon hbase.linked).mono ?_
      rintro value t ⟨hvalues, hadds, hcopied⟩
      exact ⟨hvalues, hadds, .broadcast hseveral hcopied⟩
    · next hnot =>
      refine (renders_plain.emits hmem hi s args hbase).mono ?_
      rintro value t ⟨hvalues, hadds, hcopied⟩
      exact ⟨hvalues, hadds, .asIs hnot hcopied⟩
  inside hq _ h := by
    cases h with
    | broadcast _ h =>
      obtain ⟨_, _, _, -, -, -, hmade⟩ := h
      exact hmade.mem_body hq
    | asIs _ h => exact Made.mem_body h hq

/-- **In each mode, what is emitted is what the mode makes of an operation.** -/
theorem renders_emitter (hp : base.Valid) (hmodules : m ∉ base.references body) (mode : Mode) :
    Renders base m body (emitter m mode) fun p q inst args value =>
      Emission base m p q inst args value mode := by
  cases mode with
  | plain =>
    have hplain : (fun p q inst args value => Emission base m p q inst args value .plain) =
        Copied m := by
      funext p q inst args value
      exact propext ⟨by rintro ⟨h⟩; exact h, .plain⟩
    exact hplain ▸ renders_plain
  | inlinePointwise => exact renders_inline hp hmodules
  | commonShape => exact renders_common

end Replay

end OffloadFusion
