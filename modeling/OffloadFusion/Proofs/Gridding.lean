import OffloadFusion.Proofs.Elementwise
import OffloadFusion.Proofs.Replaying

/-!
# Elementwise bodies over a grid

A `Grid` is the dimensions over which the body of a pointwise instruction is replayed. An
elementwise body is replayed on values over the grid once its constants and its parameters have such
values (**`Grid.completes_fuse`**), and every value that an operation of the body computes is
row-major.

* `Program.Elementwise`: the constants are scalars, and all else acts index by index.
* `Grid.completes_rehomeLiterals`: the constants are copied over the grid.
* `Pointwise`, `pointwise_of_valid`: a pointwise instruction of a valid program, over its grid.
* **`Pointwise.completes_fuse`**: unless the body gives a value in another layout, what it gives has
  the type of the instruction.
-/

namespace OffloadFusion

open OffloadFusion.Action Program Typing

theorem exists_forall₂ {α β γ : Type} {R : α → γ → Prop} {T : β → γ → Prop} {xs : List α}
    {ys : List β} (h : List.Forall₂ (fun x y => ∃ z, R x z ∧ T y z) xs ys) :
    ∃ zs, List.Forall₂ R xs zs ∧ List.Forall₂ T ys zs := by
  induction h with
  | nil => exact ⟨[], .nil, .nil⟩
  | cons hxy _ ih =>
    obtain ⟨z, hx, hy⟩ := hxy
    obtain ⟨zs, hxs, hys⟩ := ih
    exact ⟨z :: zs, .cons hx hxs, .cons hy hys⟩

/-- The constants of the module are scalars, and it computes index by index. -/
structure Program.Elementwise (p : Program) (body : ModuleId) : Prop where
  constants : ∀ {i inst t data}, i ∈ p.body body → p.instr? i = some inst →
    inst.op = .literal t data → t.shape = Shape.scalar ∧ t.Ranked
  operations : ∀ {i inst}, i ∈ p.body body → p.instr? i = some inst →
    inst.op.IsElementwise ∨ inst.op.isBoundary

instance (p : Program) (body : ModuleId) : Decidable (p.Elementwise body) :=
  decidable_of_iff (∀ i ∈ p.body body, ((p.instr? i).all fun inst =>
      (inst.op.IsElementwise ∨ inst.op.isBoundary) && match inst.op with
        | .literal t _ => t.shape = Shape.scalar ∧ t.Ranked
        | _ => true) = true) <| by
    simp only [Option.all_eq_true, Bool.and_eq_true, decide_eq_true_eq]
    constructor
    · refine fun h => ⟨fun {i inst t data} hi hinst hop => ?_, fun {i inst} hi hinst =>
        (h i hi inst hinst).1⟩
      have hconstant := (h i hi inst hinst).2
      rw [hop] at hconstant
      exact of_decide_eq_true hconstant
    · refine fun h i hi inst hinst => ⟨h.operations hi hinst, ?_⟩
      split
      · next hop => exact decide_eq_true (h.constants hi hinst hop)
      · rfl

theorem Program.Elementwise.inner {p : Program} {body : ModuleId} {i : InstrId}
    {inst : Instruction} (h : p.Elementwise body) (hmem : i ∈ p.body body)
    (hi : p.instr? i = some inst) (hb : inst.op.isBoundary = false) : inst.op.IsElementwise :=
  (h.operations hmem hi).resolve_right fun hop => Bool.false_ne_true (hb.symm.trans hop)

/-- Where bodies are replayed: dimensions with their row-major strides, and the instructions whose
values may be in another layout. -/
structure Grid where
  dims : Shape
  strides : Strides
  lax : InstrId → Prop

/-- **On operands over dimensions, an elementwise operation is emitted over them**, to a row-major
value. -/
theorem Building.Open.completes_over {S : Site} {names : List String} {region : Region}
    {s : Replay.Scope} {i : InstrId} {inst : Instruction} {args : List InstrId} {dims : Shape}
    {strides : Strides} (hrow : dims.rowMajor = .ok strides) (hp : S.program.Valid)
    (h : Open S names (within region s)) (hi : S.program.instr? i = some inst)
    (hop : inst.op.IsElementwise)
    (hargs : List.Forall₂ (fun x value => ∃ t u, S.program.HasType x (.tensor t) ∧ t.Over dims u ∧
      s.program.Held S.module value (.tensor u)) inst.inputs args) :
    ∃ r, inst.type = .tensor r ∧ inst.modules = [] ∧
      (liftM (Edit.addInstruction S.module inst.op args []) : Replay.Replaying InstrId).Completes s
        fun value s' => Yields S names (within region s) (.tensor ⟨r.dtype, dims, strides⟩) value
          (within region s') := by
  obtain ⟨types, signatures, htypes, hsigs, hinfer⟩ := infer_ok.mp (hp.fresh hi)
  obtain ⟨rfl, ts, r, rfl, hr, hover⟩ := hop.inferType_over hrow hinfer
  have hbetween : List.Forall₂ (fun t value => ∃ u, t.Over dims u ∧
      s.program.Held S.module value (.tensor u)) ts args := by
    refine forall₂_comp (fun {t x value} ht ⟨t', u, ht', hover, hheld⟩ => ?_)
      (List.forall₂_map_right_iff.mp htypes).flip hargs
    cases hasType_unique ht ht'
    exact ⟨u, hover, hheld⟩
  obtain ⟨us, hus, hheld⟩ := exists_forall₂ hbetween
  refine ⟨r, hr, List.forall₂_nil_right_iff.mp hsigs, ?_⟩
  exact h.completes_emit (h.unfinished.completes_addInstruction hop.isReturn hop.isParam
    (List.forall₂_map_right_iff.mpr hheld) (hover us hus))

namespace Grid

open Building Replay

variable {G : Grid} {p q : Program} {m body : ModuleId} {root i : InstrId} {C : InstrId → Prop}
  {names : List String} {w : Workspace} {region : Region} {s : Scope} {inst : Instruction}
  {t u : TensorType}

/-- The tensor is over the grid and may stand for the instruction. -/
def Admits (G : Grid) (p : Program) (i : InstrId) (u : TensorType) : Prop :=
  (∃ t, p.HasType i (.tensor t) ∧ t.Over G.dims u) ∧ p.hasOp Op.isReturn i = false ∧
    (¬ G.lax i → u.strides = G.strides)

/-- A site where bodies are replayed over the grid. -/
def site (G : Grid) (p : Program) (m : ModuleId) (root : InstrId) (C : InstrId → Prop) : Site where
  program := p
  module := m
  root := root
  sources := C
  threaded := fun _ => False
  admits := fun i type => match type with
    | .tensor u => G.Admits p i u
    | .tuple _ => False

/-- The row-major tensor over the grid. -/
def tensor (G : Grid) (dtype : DType) : TensorType := ⟨dtype, G.dims, G.strides⟩

theorem admits_tensor (ht : p.HasType i (.tensor t)) (hret : p.hasOp Op.isReturn i = false) :
    G.Admits p i (G.tensor t.dtype) := ⟨⟨t, ht, rfl, rfl⟩, hret, fun _ => rfl⟩

theorem Admits.dtype (h : G.Admits p i u) (ht : p.HasType i (.tensor t)) : u.dtype = t.dtype := by
  obtain ⟨⟨t', ht', hover⟩, -⟩ := h
  cases hasType_unique ht ht'
  exact hover.1

theorem admits_iff {type : ValueType} :
    (G.site p m root C).admits i type ↔ ∃ u, type = .tensor u ∧ G.Admits p i u := by
  cases type with
  | tensor u =>
    refine ⟨fun h => ⟨u, rfl, h⟩, ?_⟩
    rintro ⟨_, ⟨⟩, h⟩
    exact h
  | tuple ts => exact ⟨False.elim, nofun⟩

theorem stands_iff {value : InstrId} : (G.site p m root C).Stands q i value ↔
    ∃ u, G.Admits p i u ∧ q.Held m value (.tensor u) := by
  constructor
  · rintro ⟨type, hadmits, hheld⟩
    obtain ⟨u, rfl, hadmits⟩ := admits_iff.mp hadmits
    exact ⟨u, hadmits, hheld⟩
  · rintro ⟨u, hadmits, hheld⟩
    exact ⟨.tensor u, hadmits, hheld⟩

theorem completes_know {value : InstrId} (h : Open (G.site p m root C) names w)
    (hadmits : G.Admits p i u) (hheld : w.program.Held m value (.tensor u)) :
    (Building.know i value).Completes w fun _ w' => Open (G.site p m root C) names w' ∧
      Later (G.site p m root C) w w' ∧ w'.region.values.contains i :=
  h.completes_know (stands_iff.mpr ⟨u, hadmits, hheld⟩) nofun

/-! ## Operations -/

/-- **An elementwise operation is emitted over the grid.** -/
theorem copies_plain (hG : G.dims.rowMajor = .ok G.strides) (hp : p.Valid) (hbody : body ≠ m)
    (hmem : i ∈ p.body body) (hi : p.instr? i = some inst) (hop : inst.op.IsElementwise) :
    Copies (G.site p m root C) (emitPlain m) i := by
  intro names region s inst' args h hi' hargs
  obtain ⟨_, hi'', hcore⟩ := (h.unfinished.isLocal.core hbody hmem).exists_instr hi'
  cases hi.symm.trans hi''
  obtain ⟨hop', hinputs, hmodules, -⟩ := Instruction.core_eq_iff.mp hcore
  rw [hinputs] at hargs
  obtain ⟨r, hr, hnil, hemit⟩ := h.completes_over hG hp hi hop (hargs.imp fun x value hx => by
    obtain ⟨u, ⟨⟨t, ht, hover⟩, -⟩, hheld⟩ := stands_iff.mp hx
    exact ⟨t, u, ht, hover, hheld⟩)
  have hnot : p.hasOp Op.isReturn i = false := by
    rw [hasOp, hi, Option.any_some, hop.isReturn]
  rw [emitPlain, hop', hmodules, hnil]
  exact hemit.mono fun value s' hv =>
    ⟨_, admits_iff.mpr ⟨_, rfl, admits_tensor ⟨inst, hi, hr⟩ hnot⟩, hv⟩

/-- An elementwise body can be replayed over the grid. -/
theorem replayable (hG : G.dims.rowMajor = .ok G.strides) (hp : p.Valid) (hbody : body ≠ m)
    (helem : p.Elementwise body) : Replayable (G.site p m root C) (emitPlain m) body := by
  refine ⟨hbody, fun {i type} hadmits => ?_, fun _ _ => False.elim, fun i hmem hb => ?_⟩
  · obtain ⟨u, -, -, hret, -⟩ := admits_iff.mp hadmits
    exact hret
  · obtain ⟨inst, hi, -⟩ := hp.owned hmem
    have hb : p.hasOp Op.isBoundary i = false := hb
    rw [hasOp, hi, Option.any_some] at hb
    exact copies_plain hG hp hbody hmem hi (helem.inner hmem hi hb)

/-! ## Constants -/

theorem completes_rehomeOne (hp : p.Valid) (hdims : 1 ≤ G.dims.length)
    (h : Open (G.site p m root C) names (within region s)) {data : LiteralData}
    (hi : p.instr? i = some inst) (hop : inst.op = .literal t data)
    (hshape : t.shape = Shape.scalar) (hranked : t.Ranked) (hlax : G.lax i) :
    (do
      let copy ← Edit.addLiteral m t data
      Replay.know i (← widen m G.dims copy) : Replaying Unit).Completes s fun _ s' =>
        Open (G.site p m root C) names (within region s') ∧
          Later (G.site p m root C) (within region s) (within region s') ∧
            s'.values.contains i := by
  obtain ⟨hliteral, htype⟩ : (Op.literal t data).inferType [] [] = .ok (.tensor t) ∧
      inst.type = .tensor t := by
    obtain ⟨types, signatures, -, -, hinfer⟩ := infer_ok.mp (hp.fresh hi)
    exact Op.inferType_literal (hop ▸ hinfer)
  obtain ⟨u, hu, hd, hs⟩ := Reindex.multibroadcast_scalar hshape hranked hdims
  rw [completes_bind]
  refine (h.completes_emit (h.unfinished.completes_addLiteral hliteral)).mono fun copy s₁ h₁ => ?_
  rw [completes_bind, widen]
  refine (h₁.isOpen.completes_emit (h₁.isOpen.unfinished.completes_addInstruction rfl rfl
    (.cons h₁.held .nil) (ReshapeChain.inferType_of_output hu))).mono fun wide s₂ h₂ => ?_
  have hadmits : G.Admits p i u := by
    refine ⟨⟨t, ⟨inst, hi, htype⟩, hd, hs⟩, ?_, fun hnot => absurd hlax hnot⟩
    rw [hasOp, hi, Option.any_some, hop]
    rfl
  refine (h₂.isOpen.completes_record (stands_iff.mpr ⟨u, hadmits, h₂.held⟩) id).mono ?_
  rintro _ s₃ ⟨hopen, hlater, hknown⟩
  exact ⟨hopen, h₁.later.trans (h₂.later.trans hlater), hknown⟩

theorem completes_rehome (hp : p.Valid) (hbody : body ≠ m) (helem : p.Elementwise body)
    (halive : (p.module? body).isSome) (hdims : 1 ≤ G.dims.length)
    (hlax : ∀ i ∈ p.body body, p.hasOp Op.isLiteral i → G.lax i)
    (h : Open (G.site p m root C) names (within region s)) :
    (rehome m body G.dims).Completes s fun _ s' =>
      Open (G.site p m root C) names (within region s') ∧
        Later (G.site p m root C) (within region s) (within region s') ∧
          ∀ i ∈ p.body body, p.hasOp Op.isLiteral i → s'.values.contains i := by
  obtain ⟨module, hmodule⟩ := Option.isSome_iff_exists.mp halive
  have hlist := body_of_module? hmodule
  have hmodule' : s.program.module? body = some module :=
    (h.unfinished.isLocal.module? hbody).trans hmodule
  have hsame : ∀ {i}, i ∈ p.body body → SameCore p s.program i :=
    fun hi => h.unfinished.isLocal.core hbody hi
  rw [rehome, completes_theProgram_bind, completes_bind]
  refine (completes_lift_checked (module_ok.mpr hmodule')).mpr ?_
  rw [← hlist]
  refine (completes_forM (I := fun done s' => Replayed (G.site p m root C) names region s s'
    (done.map Prod.fst)) ⟨h, .refl _ _, fun _ hi => absurd hi List.not_mem_nil⟩
      fun done e he s₁ h₁ => ?_).mono fun _ s' hs' => ⟨hs'.isOpen, hs'.later, fun i hi hop => ?_⟩
  · obtain ⟨hmem, inst, hi, hop⟩ := mem_literals.mp he
    obtain ⟨inst', hi', hcore⟩ := (hsame hmem).exists_instr hi
    rw [(Instruction.core_eq_iff.mp hcore).1] at hop
    obtain ⟨hshape, hranked⟩ := helem.constants hmem hi' hop
    refine (completes_rehomeOne hp hdims h₁.isOpen hi' hop hshape hranked (hlax _ hmem ?_)).mono
      fun _ s₂ ⟨h₂, hlater, hknown⟩ => ?_
    · rw [hasOp, hi', Option.any_some, hop]
      rfl
    · rw [List.map_append, List.map_singleton]
      exact h₁.snoc h₂ hlater hknown
  · obtain ⟨inst, t, data, hinst, hop⟩ := exists_literal hop
    obtain ⟨inst', hinst', hcore⟩ := (hsame hi).symm.exists_instr hinst
    have hop' := (Instruction.core_eq_iff.mp hcore).1.symm.trans hop
    refine hs'.known i (List.mem_map.mpr
      ⟨(i, t, data), mem_literals.mpr ⟨hi, inst', hinst', hop'⟩, rfl⟩) ?_
    show p.hasOp Op.isReturn i = false
    rw [hasOp, hinst, Option.any_some, hop]
    rfl

theorem completes_rehomeLiterals (hp : p.Valid) (hbody : body ≠ m) (helem : p.Elementwise body)
    (halive : (p.module? body).isSome) (hdims : 1 ≤ G.dims.length)
    (hlax : ∀ i ∈ p.body body, p.hasOp Op.isLiteral i → G.lax i)
    (h : Open (G.site p m root C) names w) :
    (rehomeLiterals body G.dims).Completes w fun _ w' => Open (G.site p m root C) names w' ∧
      Later (G.site p m root C) w w' ∧
        ∀ i ∈ p.body body, p.hasOp Op.isLiteral i → w'.region.values.contains i :=
  h.completes_module_bind
    (completes_replaying.mpr (completes_rehome hp hbody helem halive hdims hlax h))

/-! ## Bodies -/

/-- **An elementwise body is fused over the grid.** -/
theorem completes_fuse (hS : (G.site p m root C).Sound) (hG : G.dims.rowMajor = .ok G.strides)
    (hbody : body ≠ m) (helem : p.Elementwise body) {params : List TensorType} {r : TensorType}
    (hsig : p.signature body = .ok ⟨params, [r]⟩) {inputs : List InstrId}
    (hinputs : ∀ i ∈ inputs, w.region.values.contains i ∨
      ∃ t, (G.site p m root C).Feeds i t ∧ t.shape = G.dims)
    (hparams : List.Forall₂ (fun param input => ∀ u, G.Admits p input u → G.Admits p param u)
      (p.parameters body) inputs)
    (h : Open (G.site p m root C) names w)
    (hliterals : ∀ i ∈ p.body body, p.hasOp Op.isLiteral i → w.region.values.contains i) :
    (fuse body inputs .plain).Completes w fun values w' => ∃ value x u more, values = [value] ∧
      p.given? body = some x ∧ G.Admits p x u ∧ u.dtype = r.dtype ∧ more.length ≤ inputs.length ∧
        Yields (G.site p m root C) (names ++ more) w (.tensor u) value w' := by
  have hp : p.Valid := hS.valid
  obtain ⟨module, hmodule, -⟩ := signature_ok.mp hsig
  have hoffered : ∀ i ∈ inputs, w.region.values.contains i ∨
      Open.Offered (G.site p m root C) i := by
    refine fun i hi => (hinputs i hi).imp_right ?_
    refine fun ⟨t, hfeeds, hshape⟩ => ⟨t, hfeeds, fun u hu => ?_⟩
    obtain ⟨strides, hstrides, rfl⟩ := Typing.standard_ok.mp hu
    rw [hshape, hG] at hstrides
    cases hstrides
    exact ⟨⟨t, hfeeds.2, rfl, hshape⟩, hp.isReturn_of_before (hS.before hfeeds.1), fun _ => rfl⟩
  have hreplayable : Replayable (G.site p m root C) (emitter m .plain) body :=
    replayable hG hp hbody helem
  refine (h.completes_fuse hreplayable hS (show (p.module? body).isSome by rw [hmodule]; rfl)
    hoffered (hparams.imp fun param input hadmits type htype => ?_) fun i hi hop =>
      .inl (hliterals i hi hop)).mono fun values w' ⟨more, hlen, hopen, hlater, _, hvalues⟩ => ?_
  · obtain ⟨u, rfl, hu⟩ := admits_iff.mp htype
    exact hadmits u hu
  · have hvalues : List.Forall₂ ((G.site p m root C).Stands w'.program) (p.returned body) values :=
      hvalues
    have htensors := returns_of_signature hsig fun x hx => by
      obtain ⟨value, -, hstands⟩ := forall₂_exists hvalues hx
      obtain ⟨u, ⟨⟨t, ht, -⟩, -⟩, -⟩ := stands_iff.mp hstands
      exact ⟨t, ht⟩
    obtain ⟨x, _, hx, hnil, hreturned⟩ := List.forall₂_cons_right_iff.mp htensors
    rw [List.forall₂_nil_right_iff.mp hnil] at hreturned
    rw [hreturned] at hvalues
    obtain ⟨value, _, hstands, hnil', rfl⟩ := List.forall₂_cons_left_iff.mp hvalues
    obtain ⟨u, hadmits, hheld⟩ := stands_iff.mp hstands
    rw [List.forall₂_nil_left_iff.mp hnil']
    have hgiven : p.given? body = some x := by
      rw [given?_eq_head?, hreturned]
      rfl
    exact ⟨value, x, u, more, rfl, hgiven, hadmits, hadmits.dtype hx, hlen, hopen, hlater, hheld⟩

end Grid

/-! ## Pointwise instructions -/

theorem Op.matchDTypes_ok {op : String} {ts params : List TensorType} {u : Unit} :
    matchDTypes op ts params = .ok u ↔ ∀ e ∈ ts.zip params, e.1.dtype = e.2.dtype := by
  rw [matchDTypes]
  split
  · next t q hfound =>
    have hne : t.dtype ≠ q.dtype := by simpa using List.find?_some hfound
    refine iff_of_false Outcome.refuse_ok fun hall => hne ?_
    exact hall (t, q) (List.mem_of_find?_eq_some hfound)
  · next hnone =>
    refine iff_of_true rfl fun e he => ?_
    simpa using List.find?_eq_none.mp hnone e he

/-- The element types agree with those of the parameters, and the result is over the dimensions of
the operands. -/
theorem Op.pointwiseOutput_ok {op : String} {inputs : List ValueType} {modules : List Signature}
    {type : ValueType} (h : pointwiseOutput op inputs modules = .ok type) :
    ∃ params r ts dims strides, modules = [⟨params, [r]⟩] ∧ inputs = ts.map .tensor ∧
      dims.rowMajor = .ok strides ∧ type = .tensor ⟨r.dtype, dims, strides⟩ ∧
      List.Forall₂ (fun param t => t.dtype = param.dtype ∧ t.shape = dims) params ts := by
  simp only [pointwiseOutput, Outcome.bind_ok, tensorInputs_ok, singleModule_ok] at h
  obtain ⟨ts, ⟨-, rfl⟩, ⟨params, returns⟩, rfl, ⟨t, rest⟩, hts, dims, hdims, h⟩ := h
  have hts : ts = t :: rest := by
    unfold nonempty at hts
    split at hts <;> simp_all
  obtain ⟨hshapes, rfl⟩ := sameDims_ok.mp hdims
  simp only [Outcome.ite_ok, Outcome.bind_ok, Outcome.refuse_ok, false_and, exists_false,
    and_false, false_or] at h
  obtain ⟨hlen, _, hdtypes, h⟩ := h
  split at h
  · next r =>
    obtain ⟨strides, hstrides, rfl⟩ := standardValue_ok.mp h
    refine ⟨params, r, ts, t.shape, strides, rfl, rfl, hstrides, rfl, ?_⟩
    refine List.Forall₂.flip
      (List.forall₂_iff_zip.mpr ⟨(not_not.mp hlen).symm, fun {t' q} hmem => ?_⟩)
    refine ⟨matchDTypes_ok.mp hdtypes _ hmem, ?_⟩
    rw [hts] at hmem
    obtain rfl | ht := List.mem_cons.mp (List.of_mem_zip hmem).1
    · rfl
    · exact hshapes t' ht
  · cases h

/-- A pointwise instruction over the grid. -/
structure Pointwise (p : Program) (inst : Instruction) (body : ModuleId) (G : Grid)
    (r : TensorType) : Prop where
  modules : inst.modules = [body]
  rowMajor : G.dims.rowMajor = .ok G.strides
  signature : ∃ params, p.signature body = .ok ⟨params, [r]⟩
  type : inst.type = .tensor (G.tensor r.dtype)
  operands : List.Forall₂ (fun param input => ∃ t u, p.HasType param (.tensor t) ∧
    p.HasType input (.tensor u) ∧ t.Over G.dims u) (p.parameters body) inst.inputs

theorem pointwise_of_valid {p : Program} {i : InstrId} {inst : Instruction} (hp : p.Valid)
    (hi : p.instr? i = some inst) (hop : inst.op = .pointwise)
    (lax : ModuleId → InstrId → Prop) :
    ∃ body G r, G.lax = lax body ∧ Pointwise p inst body G r := by
  obtain ⟨types, signatures, htypes, hsigs, hinfer⟩ := infer_ok.mp (hp.fresh hi)
  rw [hop] at hinfer
  obtain ⟨params, r, ts, dims, strides, rfl, rfl, hrow, htype, hover⟩ :=
    Op.pointwiseOutput_ok hinfer
  obtain ⟨body, _, hsig, hnil, hmodules⟩ := List.forall₂_cons_right_iff.mp hsigs
  rw [List.forall₂_nil_right_iff.mp hnil] at hmodules
  obtain ⟨module, hmodule, hparams, -⟩ := signature_ok.mp hsig
  refine ⟨body, ⟨dims, strides, lax body⟩, r, rfl, hmodules, hrow, ⟨params, hsig⟩, htype, ?_⟩
  have hinputs : List.Forall₂ (fun t input => ∃ u, p.HasType input (.tensor u) ∧ t.Over dims u)
      params inst.inputs :=
    forall₂_comp (fun {t u input} hover hu => ⟨u, hu, hover⟩) hover
      (List.forall₂_map_right_iff.mp htypes).flip
  exact forall₂_comp (fun {param t input} ht ⟨u, hu, hover⟩ => ⟨t, u, ht, hu, hover⟩) hparams
    hinputs

namespace Pointwise

variable {G : Grid} {p : Program} {m body : ModuleId} {root : InstrId} {C : InstrId → Prop}
  {inst : Instruction}
  {r : TensorType} {names : List String} {w : Workspace}

/-- **The body of a pointwise is fused over its dimensions.** What it computes has the type of the
pointwise, unless the body gives a value in another layout. -/
theorem completes_fuse (h : Pointwise p inst body G r) (hS : (G.site p m root C).Sound)
    (hopen : Building.Open (G.site p m root C) names w) (hbody : body ≠ m)
    (helem : p.Elementwise body)
    (hsources : ∀ x ∈ inst.inputs, w.region.values.contains x ∨ C x)
    (hlax : List.Forall₂ (fun param input => G.lax input → G.lax param) (p.parameters body)
      inst.inputs)
    (hliterals : ∀ i ∈ p.body body, p.hasOp Op.isLiteral i → w.region.values.contains i) :
    (Building.fuse body inst.inputs .plain).Completes w fun values w' => ∃ value u more,
      values = [value] ∧ more.length ≤ inst.inputs.length ∧ r.Over G.dims u ∧
      ((∀ x, p.given? body = some x → ¬ G.lax x) → inst.type = .tensor u) ∧
      Building.Yields (G.site p m root C) (names ++ more) w (.tensor u) value w' := by
  obtain ⟨params, hsig⟩ := h.signature
  have hinputs : ∀ i ∈ inst.inputs, w.region.values.contains i ∨
      ∃ t, (G.site p m root C).Feeds i t ∧ t.shape = G.dims := by
    intro i hi
    obtain ⟨_, -, t, u, -, hu, hover⟩ := forall₂_exists h.operands.flip hi
    exact (hsources i hi).imp_right fun hsource => ⟨u, ⟨hsource, hu⟩, hover.2⟩
  have hparams : List.Forall₂ (fun param input => ∀ u, G.Admits p input u → G.Admits p param u)
      (p.parameters body) inst.inputs := by
    obtain ⟨hlen, hzip⟩ := List.forall₂_iff_zip.mp h.operands
    refine List.forall₂_iff_zip.mpr ⟨hlen, fun {param input} hmem u hadmits => ?_⟩
    obtain ⟨t, u', ht, hu', hover⟩ := hzip hmem
    have hparam := (List.mem_filter.mp (List.of_mem_zip hmem).1).2
    refine ⟨⟨t, ht, (hadmits.dtype hu').trans hover.1, ?_⟩, hasOp_isReturn_of_isParam hparam,
      fun hnot => hadmits.2.2 fun hinput => hnot ((List.forall₂_iff_zip.mp hlax).2 hmem hinput)⟩
    obtain ⟨⟨_, -, hshape⟩, -⟩ := hadmits
    exact hshape.2
  refine (Grid.completes_fuse hS h.rowMajor hbody helem hsig hinputs hparams hopen
    hliterals).mono fun values w' => ?_
  rintro ⟨value, x, u, more, rfl, hx, hadmits, hd, hlen, hyields⟩
  obtain ⟨⟨_, -, hover⟩, -, hstrides⟩ := hadmits
  refine ⟨value, u, more, rfl, hlen, ⟨hd, hover.2⟩, fun hnot => ?_, hyields⟩
  rw [h.type, Grid.tensor, ← hstrides (hnot x hx), ← hover.2, ← hd]

end Pointwise

end OffloadFusion
