import OffloadFusion.Proofs.Images
import OffloadFusion.Proofs.Indices

/-!
# Chains that are built again

A chain of views is walked and then built again on another value, where regrouping is done by
reshapes. The two halves meet at `Walked`, a description of what a walk collects.

* `Reads`: the index that an index reads through views on top of each other.
* `Walked.reads`: indices of the first view read within the dimensions of what is above the last.
* `Walked.completes_stack`: the operations can be built on that tensor in any layout, and all
  indices read what they read before.
* **`replay_walk`**: a chain is walked and built again.
-/

namespace OffloadFusion

open OffloadFusion.Action

namespace Program

variable {p q : Program} {i x top upper : InstrId} {nodes : List InstrId} {ops : List Op}
  {m : ModuleId} {throughSlice : Bool} {t u : TensorType} {index source source' : List Nat}
  {view : Reindex}

/-! ## Indices along views -/

/-- Through views, each the only operand of the one before, the element of `i` at an index is the
element of `top` at the index `source`. -/
inductive Reads (p : Program) :
    InstrId → List InstrId → (top : InstrId) → List Nat → (source : List Nat) → Prop
  | here {i : InstrId} {index : List Nat} : Reads p i [] i index index
  | view {i x top : InstrId} {inst : Instruction} {view : Reindex} {t u : TensorType}
    {nodes : List InstrId} {index source : List Nat} (here : p.instr? i = some inst)
    (isView : inst.op = .reindex view) (reads : inst.inputs = [x]) (type : inst.type = .tensor u)
    (operand : p.HasType x (.tensor t))
    (above : Reads p x nodes top (view.sourceIndex t.shape u.shape index) source) :
    Reads p i (i :: nodes) top index source

namespace Reads

theorem above_view {inst : Instruction} (h : p.Reads i (i :: nodes) top index source)
    (here : p.instr? i = some inst) (isView : inst.op = .reindex view)
    (reads : inst.inputs = [x]) (type : inst.type = .tensor u)
    (operand : p.HasType x (.tensor t)) :
    p.Reads x nodes top (view.sourceIndex t.shape u.shape index) source := by
  cases h with
  | view here' isView' reads' type' operand' above =>
    cases here.symm.trans here'
    cases isView.symm.trans isView'
    cases reads.symm.trans reads'
    cases type.symm.trans type'
    cases hasType_unique operand operand'
    exact above

theorem unique (h : p.Reads i nodes top index source) (h' : p.Reads i nodes top index source') :
    source = source' := by
  induction h with
  | here =>
    cases h'
    rfl
  | view here isView reads type operand _ ih =>
    exact ih (h'.above_view here isView reads type operand)

theorem mono (h : p.Reads i nodes top index source) (hq : Adds m p q) :
    q.Reads i nodes top index source := by
  induction h with
  | here => exact .here
  | view here isView reads type operand _ ih =>
    obtain ⟨inst', hinst, hcore⟩ := hq.exists_instr here
    obtain ⟨hop, hinputs, -, htype, -⟩ := Instruction.core_eq_iff.mp hcore
    exact .view hinst (hop ▸ isView) (hinputs ▸ reads) (htype ▸ type) (hq.hasType operand) ih

end Reads

namespace Walked

/-- **Each index within the dimensions reads an element of what is above the views.** -/
theorem reads (h : p.Walked throughSlice i nodes ops upper) (hp : p.Valid)
    (ht : p.HasType i (.tensor t)) (hu : p.HasType upper (.tensor u))
    (hin : t.shape.holds index = true) :
    ∃ source, u.shape.holds source = true ∧ p.Reads i nodes upper index source := by
  induction h generalizing t index with
  | stop =>
    cases hasType_unique ht hu
    exact ⟨index, hin, .here⟩
  | step here isView _ reads _ ih =>
    obtain ⟨x, v, t', hinputs, hx, htype, hout⟩ :=
      ReshapeChain.operand_of_infer isView (hp.fresh here)
    cases reads.symm.trans hinputs
    cases hasType_unique ht ⟨_, here, htype⟩
    obtain ⟨source, hsource, hreads⟩ := ih hx hu (Reindex.holds_sourceIndex hout hin)
    exact ⟨source, hsource, .view here isView reads htype hx hreads⟩

end Walked

/-! ## Building views -/

theorem mem_take_of_not_return (hx : x ∈ q.body m) (hret : q.hasOp Op.isReturn x = false) :
    x ∈ (q.body m).take ((q.body m).length - if (q.return? m).isSome then 1 else 0) := by
  cases hlast : q.return? m with
  | none => exact List.take_length.symm ▸ hx
  | some ret =>
    obtain ⟨hend, hop⟩ := return?_eq_some.mp hlast
    obtain ⟨init, hinit⟩ := List.getLast?_eq_some_iff.mp hend
    rw [hinit] at hx ⊢
    have htake : (init ++ [ret]).take ((init ++ [ret]).length - 1) = init := by simp
    rw [Option.isSome_some, if_pos rfl, htake]
    refine (List.mem_append.mp hx).resolve_right fun hmem => ?_
    rw [List.mem_singleton.mp hmem, hop] at hret
    cases hret

/-- **A view that has a type can be appended.** -/
theorem Linked.completes_view (hl : q.Linked) (hx : q.Held m x (.tensor t))
    (hret : q.hasOp Op.isReturn x = false) (hout : view.output t = .ok u) :
    (Edit.addInstruction m (.reindex view) [x] []).Completes q fun i r =>
      Adds m q r ∧ r.Node (.reindex view) [x] i ∧ r.Held m i (.tensor u) := by
  obtain ⟨module, hm, -⟩ := module?_of_mem_body hx.1
  have hinfer : q.infer (.reindex view) [x] [] = .ok (.tensor u) :=
    infer_of_held (.cons hx .nil) (ReshapeChain.inferType_of_output hout)
  obtain ⟨i, r, -, hok, -, -, hheld⟩ := hl.completes_insertAt (by rw [hm]; rfl) (Nat.sub_le _ _)
    (fun y hy => List.mem_singleton.mp hy ▸ mem_take_of_not_return hx.1 hret) hinfer
  have hadd : Edit.addInstruction m (.reindex view) [x] [] q = .ok i r :=
    Edit.addInstruction_ok.mpr ⟨module, hm, body_of_module? hm ▸ hok⟩
  obtain ⟨hadds, hmade⟩ := hl.adds_addInstruction hadd
  obtain ⟨inst, hi, hop, hinputs, hmodules, -⟩ := hmade.made
  exact ⟨i, r, hadd, hadds, ⟨inst, hi, hop, hinputs, hmodules⟩, hheld⟩

end Program

namespace ReshapeChain

variable {q : Program} {m : ModuleId} {base : InstrId} {op : Op} {ops : List Op}
  {Q : InstrId → Program → Prop}

theorem completes_stack_concat
    (h : (stack m ops base).Completes q fun x r =>
      (Edit.addInstruction m op [x] []).Completes r Q) :
    (stack m (ops ++ [op]) base).Completes q Q := by
  induction ops generalizing q base with
  | nil =>
    rw [stack, completes_pure] at h
    rw [List.nil_append, stack, completes_bind]
    exact h.mono fun x r hx => completes_pure.mpr hx
  | cons first ops ih =>
    rw [stack, completes_bind] at h
    rw [List.cons_append, stack, completes_bind]
    exact h.mono fun x r hx => ih hx

end ReshapeChain

namespace Program

variable {p q : Program} {i upper base : InstrId} {nodes : List InstrId} {ops : List Op}
  {m : ModuleId} {throughSlice : Bool} {t u s : TensorType}

/-- **The views that were walked are built on any layout of the tensor above them.** Every index
reads the same element as before. -/
theorem Walked.completes_stack (h : p.Walked throughSlice i nodes ops upper) (hp : p.Valid)
    (hsized : ∀ {j v}, p.HasType j (.tensor v) → v.Sized) (ht : p.HasType i (.tensor t))
    (hu : p.HasType upper (.tensor u)) (hq : q.Linked) (hbase : q.Held m base (.tensor s))
    (hret : q.hasOp Op.isReturn base = false) (hs : u.Restrided s) :
    (ReshapeChain.stack m ops.reverse base).Completes q fun out r => Adds m q r ∧
      r.hasOp Op.isReturn out = false ∧ ∃ t', r.Held m out (.tensor t') ∧ t.Restrided t' ∧
        ∃ is, ∀ index source, p.Reads i nodes upper index source →
          r.Reads out is base index source := by
  induction h generalizing t with
  | stop =>
    rw [List.reverse_nil, ReshapeChain.stack, completes_pure]
    cases hasType_unique ht hu
    refine ⟨.refl hq m, hret, s, hbase, hs, [], fun index source hreads => ?_⟩
    cases hreads
    exact .here
  | @step i x upper inst view nodes ops here isView _ reads _ ih =>
    obtain ⟨x, v, t', hinputs, hx, htype, hout⟩ :=
      ReshapeChain.operand_of_infer isView (hp.fresh here)
    cases reads.symm.trans hinputs
    cases hasType_unique ht ⟨_, here, htype⟩
    rw [List.reverse_cons]
    refine ReshapeChain.completes_stack_concat ((ih hx hu).mono ?_)
    rintro y r ⟨hadds, hyret, v', hy, hv', is, hreads⟩
    obtain ⟨view', t', hop, hout', ht', hsame⟩ :=
      ReshapeChain.replayOp_restrided isView htype hout (hsized hx) (hsized ht) hv'
    rw [hop]
    refine (hadds.linked.completes_view hy hyret hout').mono ?_
    rintro out r' ⟨hadds', hnode, hheld⟩
    refine ⟨hadds.trans hadds', hnode.hasOp Op.isReturn, t', hheld, ht', out :: is,
      fun index source hread => ?_⟩
    obtain ⟨inst', hinst', hop', hinputs', -⟩ := hnode
    obtain ⟨_, inst'', hinst'', htype'⟩ := hheld
    cases hinst'.symm.trans hinst''
    refine .view hinst' hop' hinputs' htype' (hadds'.hasType hy.2) ?_
    rw [hsame]
    exact (hreads _ _ (hread.above_view here isView reads htype hx)).mono hadds'

end Program

namespace ReshapeChain

open Program

/-- **A chain is walked and built again.** The walk goes up to the first instruction that is no
view, or that is a slice where slices are not walked. What is built on a parameter with the
row-major type of that instruction has the element type and the dimensions that the first view has,
and each index within the dimensions reads the same element. -/
theorem replay_walk (p : Program) (hv : p.verify = .ok ())
    (hsized : ∀ j v, p.HasType j (.tensor v) → v.Sized) (i : InstrId) (t : TensorType)
    (ht : p.HasType i (.tensor t)) (throughSlice : Bool) :
    ∃ chain u, walk p i throughSlice = .ok chain ∧
      p.Walked throughSlice i chain.nodes chain.ops chain.upper ∧
      p.HasType chain.upper (.tensor u) ∧
      ∀ m base s, base ∈ p.parameters m → u.asStandard = .ok s → p.HasType base (.tensor s) →
        ∃ out q t' is, chain.replay m base p = .ok out q ∧ q.HasType out (.tensor t') ∧
          t.Alike t' ∧ ∀ index, t.shape.holds index = true →
            ∃ source, u.shape.holds source = true ∧
              (∀ read, p.Reads i chain.nodes chain.upper index read ↔ read = source) ∧
              ∀ read, q.Reads out is base index read ↔ read = source := by
  have hp := verify_ok.mp hv
  obtain ⟨inst, hinst, -⟩ := id ht
  obtain ⟨chain, hwalk, -⟩ := walk_total (hp.steady _) (fun j _ v hj => hsized j v hj)
    throughSlice (hp.listed hinst) ht
  have hwalked := walked_of_walk hp (fun _ _ => rfl) (hp.listed hinst) hwalk
  obtain ⟨u, hu⟩ := hwalked.exists_upper hp ht
  refine ⟨chain, u, hwalk, hwalked, hu, fun m base s hbase hs htype => ?_⟩
  obtain ⟨hmem, hparam⟩ := List.mem_filter.mp hbase
  obtain ⟨out, q, hok, -, -, t', ⟨-, hout⟩, hlike, is, hsame⟩ :=
    hwalked.completes_stack hp (hsized _ _) ht hu hp.toLinked ⟨hmem, htype⟩
      (hasOp_isReturn_of_isParam hparam) (TensorType.restrided_asStandard hs)
  refine ⟨out, q, t', is, hok, hout, hlike.alike, fun index hin => ?_⟩
  obtain ⟨source, hsource, hreads⟩ := hwalked.reads hp ht hu hin
  refine ⟨source, hsource, fun read => ⟨fun h => h.unique hreads, ?_⟩,
    fun read => ⟨fun h => h.unique (hsame index source hreads), ?_⟩⟩
  · rintro rfl
    exact hreads
  · rintro rfl
    exact hsame index read hreads

/-- A slice whose axes are turned and flattened, and a module that takes the slice in row-major
order. -/
def sliced : Program :=
  (do
    let region ← Edit.createModule "r"
    let _ ← Edit.addParameter region "y0" ⟨.f32, [1, 3, 4], [12, 4, 1]⟩
    let x ← Edit.addParameter main "x0" ⟨.f32, [2, 4, 3], [12, 3, 1]⟩
    let turned ← Edit.addInstruction main (.reindex (.transpose [0, 2, 1])) [x] []
    let half ← Edit.addInstruction main (.reindex (.slice [0] [1] [2])) [turned] []
    let rows ← Edit.addInstruction main (.reindex (.squeeze [0])) [half] []
    let columns ← Edit.addInstruction main (.reindex (.transpose [1, 0])) [rows] []
    let flat ← Edit.addInstruction main (.reindex (.flatten 0)) [columns] []
    let _ ← Edit.addReturn main [flat] : Edit Unit).after .empty

/-- The walk stops at the slice, whose strides the parameter does not have. -/
theorem replay_walk_sliced : sliced.verify = .ok () ∧ sliced.Sized ∧
    sliced.HasType ⟨3⟩ (.tensor ⟨.f32, [1, 3, 4], [12, 1, 3]⟩) ∧
    sliced.HasType ⟨0⟩ (.tensor ⟨.f32, [1, 3, 4], [12, 4, 1]⟩) ∧
    ∃ chain out q is, walk sliced ⟨6⟩ false = .ok chain ∧ chain.upper = ⟨3⟩ ∧
      chain.replay ⟨1⟩ ⟨0⟩ sliced = .ok out q ∧
      sliced.Reads ⟨6⟩ chain.nodes ⟨3⟩ [0, 5] [0, 2, 1] ∧
      q.Reads out is ⟨0⟩ [0, 5] [0, 2, 1] := by
  have hvalid : sliced.verify = .ok () ∧ sliced.Sized := by decide +kernel
  have hhalf : sliced.HasType ⟨3⟩ (.tensor ⟨.f32, [1, 3, 4], [12, 1, 3]⟩) :=
    typeOf_ok.mp (by decide +kernel)
  have hflat : sliced.HasType ⟨6⟩ (.tensor ⟨.f32, [1, 12], [12, 1]⟩) :=
    typeOf_ok.mp (by decide +kernel)
  have hbase : sliced.HasType ⟨0⟩ (.tensor ⟨.f32, [1, 3, 4], [12, 4, 1]⟩) :=
    typeOf_ok.mp (by decide +kernel)
  have hchain : ∃ ops, walk sliced ⟨6⟩ false = .ok ⟨⟨3⟩, [⟨6⟩, ⟨5⟩, ⟨4⟩], ops⟩ :=
    ⟨[.reindex (.reshape [1, 12]), .reindex (.transpose [1, 0]), .reindex (.reshape [3, 4])],
      by decide +kernel⟩
  have hview : ∀ (view : Reindex) (t u : TensorType) {i x : InstrId} {nodes : List InstrId}
      {index source : List Nat}, sliced.typeOf x = .ok (.tensor t) ∧
        (sliced.instr? i).map (fun inst => (inst.op, inst.inputs, inst.type)) =
          some (.reindex view, [x], .tensor u) →
      sliced.Reads x nodes ⟨3⟩ (view.sourceIndex t.shape u.shape index) source →
      sliced.Reads i (i :: nodes) ⟨3⟩ index source := by
    rintro view t u i x nodes index source ⟨hx, hi⟩ above
    obtain ⟨inst, hinst, hview⟩ := Option.map_eq_some_iff.mp hi
    obtain ⟨hop, hinputs, htype⟩ : inst.op = .reindex view ∧ inst.inputs = [x] ∧
      inst.type = .tensor u := by simpa using hview
    exact .view hinst hop hinputs htype (typeOf_ok.mp hx) above
  obtain ⟨ops, hwalk⟩ := hchain
  obtain ⟨chain, u, hwalk', -, hu, hbuilds⟩ :=
    replay_walk sliced hvalid.1 (fun _ _ => hvalid.2.tensor) ⟨6⟩ _ hflat false
  cases hwalk.symm.trans hwalk'
  cases hasType_unique hhalf hu
  obtain ⟨out, q, t', is, hok, -, -, hsame⟩ := hbuilds ⟨1⟩ ⟨0⟩ _ (by decide +kernel) rfl hbase
  obtain ⟨source, -, hbefore, hafter⟩ := hsame [0, 5] (by decide)
  have hread : sliced.Reads ⟨6⟩ [⟨6⟩, ⟨5⟩, ⟨4⟩] ⟨3⟩ [0, 5] [0, 2, 1] :=
    hview (.flatten 0) ⟨.f32, [4, 3], [3, 1]⟩ ⟨.f32, [1, 12], [12, 1]⟩ (by decide +kernel) <|
      hview (.transpose [1, 0]) ⟨.f32, [3, 4], [1, 3]⟩ ⟨.f32, [4, 3], [3, 1]⟩ (by decide +kernel) <|
      hview (.squeeze [0]) ⟨.f32, [1, 3, 4], [12, 1, 3]⟩ ⟨.f32, [3, 4], [1, 3]⟩ (by decide +kernel)
        .here
  exact ⟨hvalid.1, hvalid.2, hhalf, hbase, _, out, q, is, hwalk, rfl, hok, hread,
    (hafter _).mpr ((hbefore _).mp hread)⟩

end ReshapeChain

end OffloadFusion
