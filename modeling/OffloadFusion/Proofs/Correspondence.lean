import OffloadFusion.Proofs.Bodies

/-!
# Parameters and what feeds them

However a region is built, each of its parameters is as its feeder: the element type and the
dimensions are the same.

* `Program.Keeps`: a program has all values of another one, of the same types.
* `Building.Paired`: what is bound so far agrees. Every call of a builder keeps it.
* `Building.Call`, `Building.Built`: the calls, and the workspaces that they lead to.
* **`Building.finish_corresponds`**: the end gives one feeder for each parameter, in declaration
  order, and an offload call of the region on them has the types that the region returns.
-/

namespace OffloadFusion

open OffloadFusion.Action Program

namespace Program

variable {p q r : Program} {i param outer : InstrId} {m : ModuleId} {type : ValueType}

/-- The values of the one program are in the other one, with their types. -/
structure Keeps (p q : Program) : Prop where
  linked : q.Linked
  hasType : ∀ {i type}, p.HasType i type → q.HasType i type

namespace Keeps

theorem refl (hl : p.Linked) : Keeps p p := ⟨hl, id⟩

theorem trans (h : Keeps p q) (h' : Keeps q r) : Keeps p r :=
  ⟨h'.linked, fun ht => h'.hasType (h.hasType ht)⟩

end Keeps

theorem Adds.keeps (h : Adds m p q) : Keeps p q := ⟨h.linked, h.hasType⟩

/-- The instruction has the element type and the dimensions of the parameter. -/
def Agree (p : Program) (param outer : InstrId) : Prop :=
  ∃ t u, p.HasType param (.tensor t) ∧ p.HasType outer (.tensor u) ∧ t.Alike u

theorem Agree.mono (h : p.Agree param outer) (hq : Keeps p q) : q.Agree param outer := by
  obtain ⟨t, u, ht, hu, hlike⟩ := h
  exact ⟨t, u, hq.hasType ht, hq.hasType hu, hlike⟩

theorem Linked.hasType_addParameter {name : String} {t : TensorType} (hl : p.Linked)
    (hok : Edit.addParameter m name t p = .ok i q) : q.HasType i (.tensor t) := by
  obtain ⟨-, module, hm, hins⟩ := Edit.addParameter_ok.mp hok
  obtain ⟨type, hinfer, hnew⟩ := (inserted_of_ok hl hins).new
  have htype : p.infer (.param name t) [] [] = .ok (.tensor t) := rfl
  cases htype.symm.trans hinfer
  exact ⟨_, hnew, rfl⟩

end Program

variable {p q : Program} {m : ModuleId} {w w' : Workspace} {outer : InstrId}
  {inputs returns feeders : List InstrId}

theorem Replay.takes_keeps (p : Program) (m : ModuleId) :
    Takes (Program.Keeps p) m fun _ => True where
  nil := trivial
  instruction hq _ _ _ hok := hq.trans (hq.linked.adds_addInstruction hok).1.keeps
  literal hq hok := hq.trans (hq.linked.adds_addLiteral hok).1.keeps
  nested _ := fun _ _ _ _ => trivial

namespace Building

variable {α : Type}

/-! ## What is bound agrees -/

/-- The parameters that are bound so far agree with what feeds them. -/
structure Paired (w : Workspace) : Prop where
  linked : w.program.Linked
  agree : ∀ {param outer}, w.region.bindings.image? param = some outer →
    w.program.Agree param outer

theorem Paired.keeps (h : Paired w) (hq : Program.Keeps w.program q) :
    Paired ⟨q, w.region⟩ := ⟨hq.linked, fun hb => (h.agree hb).mono hq⟩

theorem paired_know (i value : InstrId) : (know i value).Preserves Paired :=
  fun _ hw => ⟨hw.linked, hw.agree⟩

theorem paired_module : module.Preserves Paired := Preserves.get.bind fun _ => .pure _

theorem paired_edit {e : Edit α}
    (h : ∀ q a r, q.Linked → e q = .ok a r → Program.Keeps q r) :
    (liftM e : Building α).Preserves Paired :=
  fun w hw => ends_edit.mpr fun a q hq => hw.keeps (h w.program a q hw.linked hq)

theorem paired_replaying {step : Replay.Replaying α}
    (h : ∀ p, step.Preserves (Replay.Holds (Program.Keeps p))) :
    (replaying step).Preserves Paired := by
  intro w hw
  refine ends_focus.mpr ((h w.program ⟨w.program, w.region.values⟩ (.refl hw.linked)).mono
    fun a t ht => ?_)
  have hkept := hw.keeps ht
  exact ⟨hkept.linked, hkept.agree⟩

theorem paired_addNamedInput (outer : InstrId) (name : String) :
    (addNamedInput outer name).Preserves Paired := by
  intro w hw
  rw [addNamedInput, ends_theProgram_bind, ends_bind, ends_lift_graph]
  intro t ht
  rw [ends_theModule_bind, ends_bind, ends_lift_checked]
  intro u hu
  rw [ends_bind, ends_edit]
  intro param q hok
  obtain ⟨hadds, hmade⟩ := hw.linked.adds_addParameter hok
  rw [ends_bind, ends_modify, ends_pure]
  have hkept := hw.keeps hadds.keeps
  have hparam := hw.linked.hasType_addParameter hok
  have hnew : q.Agree param outer :=
    ⟨u, t, hparam, hadds.hasType (tensorOf_ok.mp ht), TensorType.standard_alike hu⟩
  exact ⟨hkept.linked, fun {param outer} => Renaming.related_insert (R := q.Agree) hnew
    (fun _ _ => hkept.agree) param outer⟩

theorem paired_addInput (outer : InstrId) : (addInput outer).Preserves Paired := by
  refine Preserves.theProgram.bind fun q => paired_module.bind fun m => ?_
  refine (Preserves.lift_checked _).bind fun name => ?_
  refine (paired_addNamedInput outer name).bind fun param => ?_
  exact (paired_know outer param).bind fun _ => .pure _

theorem paired_threadInputs (n : Nat) (inputs : List InstrId) :
    (threadInputs n inputs).Preserves Paired := by
  induction inputs generalizing n with
  | nil => exact .pure _
  | cons input inputs ih =>
    refine Preserves.theProgram.bind fun q => (Preserves.lift_checked _).bind fun chain => ?_
    refine (paired_addNamedInput chain.upper _).bind fun param => paired_module.bind fun m => ?_
    refine (paired_edit fun q a r hl hok => (hl.adds_stack hok).1.keeps).bind fun value => ?_
    exact (ih (n + 1)).bind fun _ => .pure _

theorem paired_fuseAnchor (op : Op) (inputs : List InstrId) :
    (fuseAnchor op inputs).Preserves Paired :=
  (paired_threadInputs 0 inputs).bind fun _ => paired_module.bind fun _ =>
    paired_edit fun _ _ _ hl hok => (hl.adds_addInstruction hok).1.keeps

theorem paired_rehomeLiterals (body : ModuleId) (dims : Shape) :
    (rehomeLiterals body dims).Preserves Paired :=
  paired_module.bind fun m => paired_replaying fun p =>
    Replay.preserves_rehome (Replay.takes_keeps p m) body dims

theorem paired_bindParams (params inputs : List InstrId) :
    (bindParams params inputs).Preserves Paired := by
  induction params generalizing inputs with
  | nil => exact .pure _
  | cons param params ih =>
    cases inputs with
    | nil => exact paired_replaying fun p => Replay.preserves_unbound param
    | cons input inputs =>
      refine (paired_replaying fun p => Replay.preserves_valueOf input).bind fun value => ?_
      exact (paired_know param value).bind fun _ => ih inputs

theorem paired_fuse (body : ModuleId) (inputs : List InstrId) (mode : Replay.Mode) :
    (fuse body inputs mode).Preserves Paired := by
  refine (Preserves.forM fun input _ => Preserves.get.bind fun w => ?_).bind fun _ => ?_
  · split
    · exact (paired_addInput input).bind fun _ => .pure _
    · exact .pure _
  refine Preserves.theProgram.bind fun q => (paired_bindParams _ inputs).bind fun _ => ?_
  exact paired_module.bind fun m => paired_replaying fun p =>
    Replay.preserves_replay (Replay.takes_keeps p m) (fun _ _ _ _ => trivial) mode

/-! ## All calls -/

/-- A call of a builder. -/
inductive Call where
  | addNamedInput (outer : InstrId) (name : String)
  | addInput (outer : InstrId)
  | fuseAnchor (op : Op) (inputs : List InstrId)
  | rehomeLiterals (body : ModuleId) (dims : Shape)
  | fuse (body : ModuleId) (inputs : List InstrId) (mode : Replay.Mode)

def Call.run : Call → Building Unit
  | addNamedInput outer name => discard (Building.addNamedInput outer name)
  | addInput outer => discard (Building.addInput outer)
  | fuseAnchor op inputs => discard (Building.fuseAnchor op inputs)
  | rehomeLiterals body dims => Building.rehomeLiterals body dims
  | fuse body inputs mode => discard (Building.fuse body inputs mode)

/-- **Every call keeps what is bound in agreement.** -/
theorem paired_run (c : Call) : c.run.Preserves Paired := by
  have hdiscard : ∀ {α : Type} {x : Building α}, x.Preserves Paired →
      (discard x).Preserves Paired := fun hx w hw => ends_discard.mpr (hx w hw)
  cases c with
  | addNamedInput outer name => exact hdiscard (paired_addNamedInput outer name)
  | addInput outer => exact hdiscard (paired_addInput outer)
  | fuseAnchor op inputs => exact hdiscard (paired_fuseAnchor op inputs)
  | rehomeLiterals body dims => exact paired_rehomeLiterals body dims
  | fuse body inputs mode => exact hdiscard (paired_fuse body inputs mode)

/-- The workspaces of builders of regions in a program: a new module or one whose parameters agree
with inputs, then calls, and between them edits that leave the parameters and what feeds them with
their types. -/
inductive Built (p : Program) : Workspace → Prop
  | new {name : String} {m : ModuleId} {q : Program}
    (created : Edit.createModule name p = .ok m q) : Built p ⟨q, .onModule m⟩
  | copy {m : ModuleId} {inputs : List InstrId} {region : Region}
    (agree : List.Forall₂ p.Agree (p.parameters m) inputs)
    (opened : Region.ofCopy p m inputs = .ok region) : Built p ⟨p, region⟩
  | call {c : Call} {w w' : Workspace} (before : Built p w) (ran : c.run w = .ok () w') :
    Built p w'
  | between {w : Workspace} {q : Program} (before : Built p w) (linked : q.Linked)
    (same : ∀ {param outer}, w.region.bindings.image? param = some outer →
      ∀ i ∈ [param, outer], ∀ type, w.program.HasType i type → q.HasType i type) :
    Built p ⟨q, w.region⟩

theorem Built.calls {cs : List Call} (h : Built p w) (hok : cs.forM Call.run w = .ok () w') :
    Built p w' := by
  induction cs generalizing w with
  | nil =>
    cases hok
    exact h
  | cons c cs ih =>
    obtain ⟨_, w₁, hrun, hok⟩ := bind_ok.mp hok
    exact ih (h.call hrun) hok

/-- **Whatever has been called, the parameters agree with what feeds them.** -/
theorem Built.paired (h : Built p w) (hl : p.Linked) : Paired w := by
  induction h with
  | new created =>
    obtain ⟨-, -, rfl⟩ := Edit.createModule_ok.mp created
    exact ⟨hl.of_links (fun _ => rfl) (p.body_opened _), by rintro _ _ ⟨⟩⟩
  | copy agree opened =>
    obtain ⟨-, hbound⟩ := Region.ofCopy_ok opened
    exact ⟨hl, fun hb => List.forall₂_zip agree (hbound _ _ hb)⟩
  | @call c w w' before ran ih =>
    have hends := paired_run c w ih
    rw [Ends, ran] at hends
    exact hends
  | between before linked same ih =>
    refine ⟨linked, fun hb => ?_⟩
    obtain ⟨t, u, ht, hu, hlike⟩ := ih.agree hb
    exact ⟨t, u, same hb _ (by simp) _ ht, same hb _ (by simp) _ hu, hlike⟩

/-! ## The end -/

/-- A return gives tensors, and what it gives is what its module returns. -/
theorem keeps_addReturn {ret : InstrId} (hl : p.Linked)
    (hok : Edit.addReturn m returns p = .ok ret q) : Program.Keeps p q ∧
      ∃ module ts, q.module? m = some module ∧ ts ≠ [] ∧ q.returnTypes module.body = .ok ts ∧
        List.Forall₂ (fun i t => q.HasType i (.tensor t)) returns ts := by
  obtain ⟨-, module, hm, hins⟩ := Edit.addReturn_ok.mp hok
  rw [← body_of_module? hm] at hins
  have hadds := (hl.adds_insertAt le_rfl hins).1
  obtain ⟨hgone, ⟨type, hinfer, hnew⟩, hold, hbody, hlocal⟩ := inserted_of_ok hl hins
  obtain ⟨types, signatures, htypes, -, hinfer⟩ := infer_ok.mp hinfer
  simp only [Op.inferType, Outcome.bind_ok, Typing.tensorInputs_ok] at hinfer
  obtain ⟨ts, ⟨hcount, rfl⟩, -⟩ := hinfer
  have hreturns : List.Forall₂ (fun i t => q.HasType i (.tensor t)) returns ts :=
    (List.forall₂_map_right_iff.mp htypes).imp fun _ _ => hadds.hasType
  obtain ⟨module', hm', -⟩ := hadds.linked.owner_alive hnew
  refine ⟨hadds.keeps, module', ts, hm', ?_, ?_, hreturns⟩
  · rintro rfl
    cases hcount
  · rw [returnTypes_ok, ← body_of_module? hm', hbody, List.insertIdx_length_self,
      List.getLast?_concat]
    exact ⟨_, hnew, by simpa [Op.isReturn] using hreturns⟩

/-- **Parameters correspond to what feeds them.** The end gives one feeder for each parameter of the
region, in declaration order and of its element type and dimensions. So an offload call on feeders
that it takes as they lie in memory has the types that the region returns. -/
theorem finish_corresponds (hp : p.verify = .ok ()) (hw : Built p w)
    (hok : finish returns w = .ok feeders w') :
    List.Forall₂ w'.program.Agree (w'.program.parameters w.region.module) feeders ∧
    ∀ anchor, 2 ≤ feeders.length → feeders.length < Checked.sizeLimit →
      (∀ x ∈ feeders, ∀ t, w'.program.HasType x (.tensor t) →
        t.isPacked = .ok true ∨ t.isBroadcasted = true) →
      ∃ signature, w'.program.signature w.region.module = .ok signature ∧
        List.Forall₂ (fun i t => w'.program.HasType i (.tensor t)) returns signature.returns ∧
        w'.program.infer (.offload anchor) feeders [w.region.module] =
          .ok (.ofElements signature.returns) := by
  have hpaired := hw.paired (verify_ok.mp hp).toLinked
  set m := w.region.module with hmodule
  have hends : (finish returns).Ends w fun feeders w' => List.Forall₂ w'.program.Agree
      (w'.program.parameters m) feeders ∧ ∃ module ts, w'.program.module? m = some module ∧
        ts ≠ [] ∧ w'.program.returnTypes module.body = .ok ts ∧
        List.Forall₂ (fun i t => w'.program.HasType i (.tensor t)) returns ts := by
    rw [finish, ends_theModule_bind, ends_bind, ends_edit]
    intro ret q hret
    obtain ⟨hkeeps, hreturns⟩ := keeps_addReturn hpaired.linked hret
    rw [ends_theProgram_bind]
    refine (ends_feeders _).mono ?_
    rintro feeders _ ⟨rfl, hfeeders⟩
    exact ⟨hfeeders.imp fun _ _ hb => (hpaired.keeps hkeeps).agree hb, hreturns⟩
  rw [Ends, hok] at hends
  obtain ⟨hagree, module, ts, hm, hne, hreturnTypes, hreturns⟩ := hends
  refine ⟨hagree, fun anchor htwo hlimit htaken => ?_⟩
  obtain ⟨tensors, params, htensors, hlike, hparams⟩ := exists_between (hagree.imp (by
    rintro _ _ ⟨t, u, ht, hu, hlike⟩
    exact ⟨u, t, hu, hlike, ht⟩))
  have hsig : w'.program.signature m = .ok ⟨params, ts⟩ :=
    signature_ok.mpr ⟨module, hm, hparams, hreturnTypes⟩
  refine ⟨⟨params, ts⟩, hsig, hreturns, infer_ok.mpr ⟨tensors.map .tensor, [⟨params, ts⟩],
    List.forall₂_map_right_iff.mpr htensors, .cons hsig .nil, ?_⟩⟩
  simp only [Op.inferType, Outcome.bind_ok, Typing.tensorInputs_ok, Typing.singleModule_ok]
  refine ⟨tensors, ⟨?_, rfl⟩, _, rfl, ⟨⟩, Op.checkLayouts_ok.mpr fun t ht => ?_,
    Op.callOutput_ok.mpr ⟨?_, hne, rfl⟩⟩
  · rw [List.length_map, ← htensors.length_eq]
    exact Interval.contains_atLeast htwo hlimit
  · obtain ⟨x, hx, htype⟩ := forall₂_exists htensors.flip ht
    exact Op.acceptsLayout_iff.mpr (htaken x hx t htype)
  · exact hlike.imp fun _ _ h => TensorType.sameShape_iff.mpr h.symm

/-- Calls that give one value a parameter twice and another one a parameter in between. -/
def biasedCalls : List Call :=
  [.addNamedInput ⟨4⟩ "a", .fuse ⟨1⟩ [⟨5⟩] .inlinePointwise, .addInput ⟨4⟩]

/-- The call of the region takes the one value twice and the other one in between. -/
theorem finish_corresponds_biased : biased.verify = .ok () ∧ ∃ w feeders w',
    Built biased w ∧ finish [⟨9⟩] w = .ok feeders w' ∧ feeders = [⟨4⟩, ⟨5⟩, ⟨4⟩] ∧
      List.Forall₂ w'.program.Agree (w'.program.parameters w.region.module) feeders ∧
      ∃ signature, w'.program.signature w.region.module = .ok signature ∧
        w'.program.infer (.offload (.dot false)) feeders [w.region.module] =
          .ok (.ofElements signature.returns) := by
  have hv : biased.verify = .ok () := by decide +kernel
  obtain ⟨m, q, hcreated, rfl, feeders, w', hrun, rfl, htypes⟩ : ∃ m q,
      Edit.createModule "s" biased = .ok m q ∧ m = ⟨3⟩ ∧ ∃ feeders w',
        (biasedCalls.forM Call.run >>= fun _ => finish [⟨9⟩]) ⟨q, .onModule m⟩ = .ok feeders w' ∧
          feeders = [⟨4⟩, ⟨5⟩, ⟨4⟩] ∧
          ∀ x ∈ feeders, w'.program.tensorOf x = .ok ⟨.f32, [2], [1]⟩ := by decide +kernel
  obtain ⟨_, w, hcalls, hok⟩ := bind_ok.mp hrun
  have hbuilt : Built biased w := (Built.new hcreated).calls hcalls
  obtain ⟨hagree, hcall⟩ := finish_corresponds hv hbuilt hok
  obtain ⟨signature, hsignature, -, hinfer⟩ := hcall (.dot false) (by decide) (by decide)
    fun x hx t ht => by
      have htype := hasType_unique ht (tensorOf_ok.mp (htypes x hx))
      cases htype
      exact .inl (by decide)
  exact ⟨hv, w, _, w', hbuilt, hok, rfl, hagree, signature, hsignature, hinfer⟩

end Building

end OffloadFusion
