import OffloadFusion.Proofs.Ends
import OffloadFusion.Proofs.Growth
import OffloadFusion.Region.Building

/-!
# Building regions

Replaying bodies and building regions only put instructions into a module, whatever is replayed and
however it is emitted: a replay keeps what such insertions keep (`Replay.preserves_replay`), and the
steps of building keep `Building.Growing`, a new module that nothing references. The parameters of
a region are fed by instructions of the main module out of a set `F` (`Program.Feeders`), so the
operands of its call may be made contiguous there, and nothing outside of `F` gets a new user
(**`Fusing.ends_complete`**).
-/

namespace OffloadFusion

open OffloadFusion.Action Program

variable {p q : Program} {i : InstrId} {m k : ModuleId} {op : Op}

/-! ## Chains -/

theorem Op.reindex?_eq_some {view : Reindex} : op.reindex? = some view ↔ op = .reindex view := by
  cases op <;> simp [reindex?]

namespace ReshapeChain

variable {inst : Instruction}

/-- The chain stays in a set and holds no return. -/
structure Within (C : InstrId → Prop) (chain : ReshapeChain) : Prop where
  upper : C chain.upper
  nodes : ∀ i ∈ chain.nodes, C i
  ops : ∀ op ∈ chain.ops, op.isReturn = false

theorem exists_replayOp {view : Reindex} (hop : inst.op = .reindex view) :
    ∃ view', replayOp inst view = .reindex view' := by
  unfold replayOp
  split
  · split
    · exact ⟨_, rfl⟩
    · exact ⟨view, hop⟩
  · exact ⟨view, hop⟩

theorem isReturn_replayOp {view : Reindex} (hop : inst.op = .reindex view) :
    (replayOp inst view).isReturn = false := by
  obtain ⟨view', h⟩ := exists_replayOp hop
  rw [h]
  rfl

theorem viewAt_eq_some {view : Reindex} :
    ((p.instr? i).bind fun inst => inst.op.reindex?.map (inst, ·)) = some (inst, view) ↔
      p.instr? i = some inst ∧ inst.op = .reindex view := by
  simp only [Option.bind_eq_some_iff, Option.map_eq_some_iff, Prod.mk.injEq]
  constructor
  · rintro ⟨_, hi, _, hop, rfl, rfl⟩
    exact ⟨hi, Op.reindex?_eq_some.mp hop⟩
  · rintro ⟨hi, hop⟩
    exact ⟨inst, hi, view, Op.reindex?_eq_some.mpr hop, rfl, rfl⟩

section

variable {C : InstrId → Prop} (hclosed : ∀ {i x}, C i → p.Uses i x → C x)

include hclosed

theorem within_walkFrom {throughSlice : Bool} {fuel : Nat} {nodes : List InstrId} {ops : List Op}
    {chain : ReshapeChain} (hi : C i) (hnodes : ∀ j ∈ nodes, C j)
    (hops : ∀ op ∈ ops, op.isReturn = false)
    (hok : walkFrom p throughSlice fuel i nodes ops = .ok chain) : chain.Within C := by
  induction fuel generalizing i nodes ops with
  | zero => cases hok
  | succ fuel ih =>
    rw [walkFrom] at hok
    split at hok
    · cases hok
      exact ⟨hi, hnodes, hops⟩
    next inst view hview =>
      split at hok
      · cases hok
        exact ⟨hi, hnodes, hops⟩
      obtain ⟨hinst, hop⟩ := viewAt_eq_some.mp hview
      rw [Outcome.bind_ok] at hok
      obtain ⟨above, habove, hok⟩ := hok
      have hmem : above ∈ inst.inputs := by
        rw [Checked.get] at habove
        split at habove
        · next hget =>
          cases habove
          exact List.mem_of_getElem? hget
        · cases habove
      refine ih (hclosed hi ⟨inst, hinst, hmem⟩) (fun j hj => ?_) (fun op hmem => ?_) hok
      · obtain hj | hj := List.mem_append.mp hj
        · exact hnodes j hj
        · exact List.mem_singleton.mp hj ▸ hi
      · obtain hmem | hmem := List.mem_append.mp hmem
        · exact hops op hmem
        · exact List.mem_singleton.mp hmem ▸ isReturn_replayOp hop

theorem within_walk {throughSlice : Bool} {chain : ReshapeChain} (hi : C i)
    (hok : walk p i throughSlice = .ok chain) : chain.Within C :=
  within_walkFrom hclosed hi (fun _ hj => absurd hj List.not_mem_nil)
    (fun _ hop => absurd hop List.not_mem_nil) hok

end

end ReshapeChain

/-! ## Replaying bodies -/

namespace Replay

variable {α : Type} {region body : ModuleId} {inputs : List InstrId} {modules : List ModuleId}
  {I : Program → Prop} {Ok : List ModuleId → Prop}

theorem mem_literals {is : List InstrId} {e : InstrId × TensorType × LiteralData} :
    e ∈ literals p is ↔ e.1 ∈ is ∧ ∃ inst, p.instr? e.1 = some inst ∧
      inst.op = .literal e.2.1 e.2.2 := by
  obtain ⟨i, t, data⟩ := e
  rw [literals, List.mem_filterMap]
  constructor
  · rintro ⟨j, hj, he⟩
    split at he
    · next hop =>
      cases he
      obtain ⟨inst, hi, hop⟩ := Option.map_eq_some_iff.mp hop
      exact ⟨hj, inst, hi, hop⟩
    · cases he
  · rintro ⟨hi, inst, hinst, hop⟩
    refine ⟨i, hi, ?_⟩
    dsimp only at hinst hop
    rw [hinst, Option.map_some, hop]

/-- The program of the replay is in `I`. -/
def Holds (I : Program → Prop) (s : Scope) : Prop := I s.program

/-- The modules of what a body lists may be carried, at any time. -/
def Replayable (I : Program → Prop) (Ok : List ModuleId → Prop) (body : ModuleId) : Prop :=
  ∀ {q r i inst}, I q → I r → i ∈ q.body body → r.instr? i = some inst → Ok inst.modules

/-- `I` is kept by what is put into the module, but for parameters and returns, as long as that
carries only modules in `Ok`. -/
structure Takes (I : Program → Prop) (m : ModuleId) (Ok : List ModuleId → Prop) : Prop where
  nil : Ok []
  instruction : ∀ {q op inputs modules i r}, I q → op.isReturn = false → op.isParam = false →
    Ok modules → Edit.addInstruction m op inputs modules q = .ok i r → I r
  literal : ∀ {q t data i r}, I q → Edit.addLiteral m t data q = .ok i r → I r
  nested : ∀ {body}, Ok [body] → Replayable I Ok body

/-- The emission of an inner instruction keeps the invariant. -/
def Emits (I : Program → Prop) (Ok : List ModuleId → Prop) (emit : Emit) : Prop :=
  ∀ inst args, inst.op.isReturn = false → inst.op.isParam = false → Ok inst.modules →
    (emit inst args).Preserves (Holds I)

theorem preserves_edit {e : Edit α} (h : ∀ q a r, I q → e q = .ok a r → I r) :
    (liftM e : Replaying α).Preserves (Holds I) :=
  fun s hs => ends_edit.mpr fun a q hq => h s.program a q hs hq

theorem preserves_know (i value : InstrId) : (know i value).Preserves (Holds I) :=
  fun _ hs => hs

theorem preserves_valueOf (i : InstrId) : (valueOf i).Preserves (Holds I) :=
  Preserves.get.bind fun s => .lift_graph (s.values.image i)

theorem preserves_locally {values : Renaming} {step : Replaying α}
    (h : step.Preserves (Holds I)) : (locally values step).Preserves (Holds I) :=
  fun s hs => ends_focus.mpr ((h ⟨s.program, values⟩ hs).mono fun _ _ ht => ht)

theorem preserves_unbound (param : InstrId) : (unbound param : Replaying α).Preserves (Holds I) :=
  Preserves.theProgram.bind fun _ => (Preserves.lift_checked _).bind fun _ => .refuse nofun

theorem preserves_bindParams (params args : List InstrId) :
    (bindParams params args).Preserves (Holds I) := by
  induction params generalizing args with
  | nil => exact .pure _
  | cons param params ih =>
    cases args with
    | nil => exact preserves_unbound param
    | cons arg args => exact (preserves_know param arg).bind fun _ => ih args

section

variable (h : Takes I m Ok)

include h

theorem preserves_addInstruction (hret : op.isReturn = false) (hparam : op.isParam = false)
    (hmod : Ok modules) :
    (liftM (Edit.addInstruction m op inputs modules) : Replaying InstrId).Preserves (Holds I) :=
  preserves_edit fun _ _ _ hq hok => h.instruction hq hret hparam hmod hok

theorem preserves_addLiteral (type : TensorType) (data : LiteralData) :
    (liftM (Edit.addLiteral m type data) : Replaying InstrId).Preserves (Holds I) :=
  preserves_edit fun _ _ _ hq hok => h.literal hq hok

theorem preserves_widen (dims : Shape) (value : InstrId) :
    (widen m dims value).Preserves (Holds I) := preserves_addInstruction h rfl rfl h.nil

theorem preserves_rehome (body : ModuleId) (dims : Shape) :
    (rehome m body dims).Preserves (Holds I) := by
  refine Preserves.theProgram.bind fun q => (Preserves.lift_checked _).bind fun module => ?_
  refine Preserves.forM fun entry _ => ?_
  refine (preserves_addLiteral h entry.2.1 entry.2.2).bind fun copy => ?_
  exact (preserves_widen h dims copy).bind fun value => preserves_know entry.1 value

/-! ### Emitting -/

theorem emits_plain : Emits I Ok (emitPlain m) :=
  fun _ _ hret hparam hmod => preserves_addInstruction h hret hparam hmod

theorem preserves_replayFrom {emit : Emit} (hemit : Emits I Ok emit) {body : List InstrId}
    (hbody : ∀ {q i inst}, I q → i ∈ body → q.instr? i = some inst → Ok inst.modules)
    (returns : Option (List InstrId)) :
    (replayFrom m emit body returns).Preserves (Holds I) := by
  induction body generalizing returns with
  | nil => exact .pure _
  | cons i body ih =>
    replace ih := ih fun hq hi => hbody hq (List.mem_cons_of_mem _ hi)
    intro s hs
    rw [replayFrom, ends_get_bind]
    split
    · exact ih returns s hs
    rw [ends_bind, ends_lift_checked]
    intro inst hi
    have hmod := hbody hs List.mem_cons_self (instr_ok.mp hi)
    split
    · exact ih _ s hs
    · exact ends_refuse nofun
    next hret hparam =>
      have hinner : inst.op.isReturn = false ∧ inst.op.isParam = false := by
        cases hop : inst.op <;> simp_all [Op.isReturn, Op.isParam]
      have hargs : (inst.inputs.mapM valueOf).Preserves (Holds I) :=
        Preserves.mapM fun x _ => preserves_valueOf x
      have hrest : ∀ copy, (know i copy >>= fun _ => replayFrom m emit body returns).Preserves
          (Holds I) := fun copy => (preserves_know i copy).bind fun _ => ih returns
      refine (hargs.bind fun args => ?_) s hs
      split
      · exact (preserves_addLiteral h _ _).bind hrest
      · exact (hemit inst args hinner.1 hinner.2 hmod).bind hrest

theorem preserves_replayWith {emit : Emit} (hemit : Emits I Ok emit) {body : ModuleId}
    (hbody : Replayable I Ok body) : (replayWith m emit body).Preserves (Holds I) := by
  intro s hs
  rw [replayWith, ends_theProgram_bind, ends_bind, ends_lift_checked]
  intro module hmodule
  have hlist : ∀ {q i inst}, I q → i ∈ module.body → q.instr? i = some inst → Ok inst.modules := by
    rw [← body_of_module? (module_ok.mp hmodule)]
    exact fun hq hi => hbody hs hq hi
  refine ((preserves_replayFrom h hemit hlist none).bind fun returns => ?_) s hs
  cases returns with
  | some returns => exact Preserves.mapM fun x _ => preserves_valueOf x
  | none => exact Preserves.get.bind fun s => .pure _

theorem preserves_inline {body : ModuleId} (hbody : Replayable I Ok body) (args : List InstrId)
    (dims : Shape) : (inline m body args dims).Preserves (Holds I) := by
  have hsteps : (do
      rehome m body dims
      bindParams ((← theProgram).parameters body) args
      replayWith m (emitPlain m) body : Replaying (List InstrId)).Preserves (Holds I) := by
    refine (preserves_rehome h body dims).bind fun _ => Preserves.theProgram.bind fun q => ?_
    exact (preserves_bindParams _ args).bind fun _ => preserves_replayWith h (emits_plain h) hbody
  refine (preserves_locally hsteps).bind fun values => ?_
  cases values with
  | nil => exact .refuse nofun
  | cons value values => exact .pure value

theorem emits_inline : Emits I Ok (emitInline m) := by
  intro inst args hret hparam hmod
  unfold emitInline
  split
  · next body _ hbody =>
    exact (Preserves.lift_graph _).bind fun type =>
      preserves_inline h (h.nested (hbody ▸ hmod)) args type.shape
  · exact .refuse nofun
  · exact emits_plain h inst args hret hparam hmod

theorem preserves_broadcastCommon (args : List InstrId) :
    (broadcastCommon m args).Preserves (Holds I) := by
  have hshapes : (args.mapM shapeOf).Preserves (Holds I) := by
    refine Preserves.mapM fun value _ => ?_
    exact Preserves.theProgram.bind fun q => (Preserves.lift_graph _).bind fun _ => .pure _
  refine hshapes.bind fun shapes => ?_
  split
  · exact .refuse nofun
  · refine Preserves.mapM fun entry _ => ?_
    exact Preserves.ite (.pure _) (preserves_widen h _ _)

theorem emits_common : Emits I Ok (emitCommon m) := by
  intro inst args hret hparam hmod
  unfold emitCommon
  refine Preserves.ite ?_ (emits_plain h inst args hret hparam hmod)
  exact (preserves_broadcastCommon h args).bind fun args =>
    emits_plain h inst args hret hparam hmod

/-- **A replay only puts instructions into the region.** -/
theorem preserves_replay {body : ModuleId} (hbody : Replayable I Ok body) (mode : Mode) :
    (replay m body mode).Preserves (Holds I) := by
  refine preserves_replayWith h ?_ hbody
  cases mode
  · exact emits_plain h
  · exact emits_inline h
  · exact emits_common h

end

/-! ### A new module -/

theorem replayable_of_below {body : ModuleId} (hbody : p.Below body) :
    Replayable (Nesting p m) (∀ k ∈ ·, p.Nested k) body := fun hq hr hi hinst =>
  hr.nested_modules hbody (hq.body_of_below hbody ▸ hi) hinst

theorem takes_nesting : Takes (Nesting p m) m (∀ k ∈ ·, p.Nested k) where
  nil := List.forall_mem_nil _
  instruction hq hret _ hmod hok := hq.addInstruction hret hmod hok
  literal hq hok := hq.addLiteral hok
  nested hmod := replayable_of_below (hmod _ (List.mem_singleton_self _)).below

end Replay

/-! ## Building regions -/

/-- Instructions of the main module that may feed a region, with their operands. -/
structure Program.Feeders (p : Program) (F : InstrId → Prop) : Prop where
  inner : ∀ {i}, F i → i ∈ p.body main
  closed : ∀ {i x}, F i → p.Uses i x → F x

theorem Program.Linked.feeders (hl : p.Linked) : p.Feeders (· ∈ p.body main) :=
  ⟨id, hl.mem_body_of_uses⟩

theorem Program.Linked.feeders_before (hl : p.Linked) (root : InstrId) :
    p.Feeders (Before (p.body main) · root) :=
  ⟨Before.left_mem, fun hi hx => (hl.before_of_uses hi.left_mem hx).trans (hl.nodup main) hi⟩

/-- What stands before an instruction, but for an operand that nothing else reads. -/
theorem Program.Linked.feeders_besides {root x : InstrId} (hl : p.Linked)
    (honly : ∀ j, p.Uses j x → j = root) :
    p.Feeders fun i => Before (p.body main) i root ∧ i ≠ x := by
  refine ⟨fun hi => hi.1.left_mem,
    fun {i y} ⟨hi, _⟩ hy => ⟨(hl.feeders_before root).closed hi hy, ?_⟩⟩
  rintro rfl
  exact hi.ne (hl.nodup main) (honly i hy)

theorem Region.image?_bindParam (region : Region) (param outer i : InstrId) :
    (region.bindParam param outer).bindings.image? i =
      if i = param then some outer else region.bindings.image? i := Renaming.image?_insert ..

namespace Building

variable {α : Type} {inputs : List InstrId} {modules : List ModuleId} {F : InstrId → Prop}

/-- The program of the workspace is `p` with the module of the region, whose parameters are fed out
of `F`. -/
structure Growing (F : InstrId → Prop) (p : Program) (m : ModuleId) (w : Workspace) : Prop where
  module : w.region.module = m
  grown : Nesting p m w.program
  fed : ∀ param outer, w.region.bindings.image? param = some outer → F outer

theorem preserves_edit {e : Edit α} (h : ∀ q a r, Nesting p m q → e q = .ok a r → Nesting p m r) :
    (liftM e : Building α).Preserves (Growing F p m) :=
  fun w hw => ends_edit.mpr fun a q hq => ⟨hw.module, h w.program a q hw.grown hq, hw.fed⟩

theorem preserves_know (i value : InstrId) : (know i value).Preserves (Growing F p m) :=
  fun _ hw => ⟨hw.module, hw.grown, hw.fed⟩

theorem contains_know (region : Region) (i value : InstrId) :
    (region.know i value).values.contains i = true := by
  show ((region.values.insert i value).image? i).isSome = true
  rw [Renaming.image?_insert, if_pos rfl]
  rfl

theorem preserves_replaying {step : Replay.Replaying α}
    (h : step.Preserves (Replay.Holds (Nesting p m))) :
    (replaying step).Preserves (Growing F p m) :=
  fun w hw => ends_focus.mpr ((h ⟨w.program, w.region.values⟩ hw.grown).mono
    fun _ _ ht => ⟨hw.module, ht, hw.fed⟩)

theorem preserves_module_bind {f : ModuleId → Building α} (h : (f m).Preserves (Growing F p m)) :
    (module >>= f).Preserves (Growing F p m) := by
  intro w hw
  show (f w.region.module).Ends w _
  rw [hw.module]
  exact h w hw

theorem preserves_addInstruction (hop : op.isReturn = false)
    (hmod : ∀ k ∈ modules, p.Nested k) :
    (liftM (Edit.addInstruction m op inputs modules) :
      Building InstrId).Preserves (Growing F p m) :=
  preserves_edit fun _ _ _ hq hok => hq.addInstruction hop hmod hok

/-! ### Parameters -/

theorem preserves_addNamedInput {outer : InstrId} (houter : F outer) (name : String) :
    (addNamedInput outer name).Preserves (Growing F p m) := by
  refine Preserves.theProgram.bind fun q => (Preserves.lift_graph _).bind fun type => ?_
  refine preserves_module_bind ((Preserves.lift_checked _).bind fun standard => ?_)
  have hparam : (liftM (Edit.addParameter m name standard) : Building InstrId).Preserves
      (Growing F p m) := preserves_edit fun _ _ _ hq hok => hq.addParameter hok
  exact hparam.bind fun param w hw =>
    ⟨hw.module, hw.grown, Renaming.related_insert (R := fun _ o => F o) houter hw.fed⟩

theorem preserves_addInput {outer : InstrId} (houter : F outer) :
    (addInput outer).Preserves (Growing F p m) := by
  refine Preserves.theProgram.bind fun q => preserves_module_bind ?_
  refine (Preserves.lift_checked _).bind fun name => ?_
  refine (preserves_addNamedInput houter name).bind fun param => ?_
  exact (preserves_know outer param).bind fun _ => .pure _

theorem preserves_chain {chain : ReshapeChain} (hops : ∀ op ∈ chain.ops, op.isReturn = false)
    (base : InstrId) : (liftM (chain.replay m base) : Building InstrId).Preserves (Growing F p m) :=
  preserves_edit fun _ _ _ hq hok =>
    hq.stack (fun op hop => hops op (List.mem_reverse.mp hop)) hok

/-- The chain above an instruction that may feed the region may be replayed on a parameter. -/
theorem preserves_walk_bind {input : InstrId} (hF : p.Feeders F) (hinput : F input)
    {f : ReshapeChain → Building α}
    (h : ∀ chain : ReshapeChain, F chain.upper → (∀ op ∈ chain.ops, op.isReturn = false) →
      (f chain).Preserves (Growing F p m)) :
    (theProgram >>= fun q => liftM (ReshapeChain.walk q input true) >>= f).Preserves
      (Growing F p m) := by
  intro w hw
  rw [ends_theProgram_bind, ends_bind, ends_lift_checked]
  intro chain hchain
  have hclosed : ∀ {i x}, F i → w.program.Uses i x → F x := fun hi hx =>
    hF.closed hi ((hw.grown.isLocal.core hw.grown.inner.symm (hF.inner hi)).symm.uses hx)
  have hin := ReshapeChain.within_walk hclosed hinput hchain
  exact h chain hin.upper hin.ops w hw

theorem preserves_threadInputs {n : Nat} (hF : p.Feeders F) (hinputs : ∀ i ∈ inputs, F i) :
    (threadInputs n inputs).Preserves (Growing F p m) := by
  induction inputs generalizing n with
  | nil => exact .pure _
  | cons input inputs ih =>
    refine preserves_walk_bind hF (hinputs input List.mem_cons_self) fun chain hupper hops => ?_
    refine (preserves_addNamedInput hupper _).bind fun param => preserves_module_bind ?_
    refine (preserves_chain hops param).bind fun value => ?_
    exact (ih fun i hi => hinputs i (List.mem_cons_of_mem _ hi)).bind fun _ => .pure _

/-! ### Anchors and bodies -/

theorem preserves_fuseAnchor (hF : p.Feeders F) (hop : op.isReturn = false)
    (hinputs : ∀ i ∈ inputs, F i) :
    (fuseAnchor op inputs).Preserves (Growing F p m) :=
  (preserves_threadInputs hF hinputs).bind fun _ => preserves_module_bind
    (preserves_addInstruction hop (List.forall_mem_nil _))

theorem preserves_rehomeLiterals (body : ModuleId) (dims : Shape) :
    (rehomeLiterals body dims).Preserves (Growing F p m) :=
  preserves_module_bind
    (preserves_replaying (Replay.preserves_rehome Replay.takes_nesting body dims))

theorem preserves_bindParams (params inputs : List InstrId) :
    (bindParams params inputs).Preserves (Growing F p m) := by
  induction params generalizing inputs with
  | nil => exact .pure _
  | cons param params ih =>
    cases inputs with
    | nil => exact preserves_replaying (Replay.preserves_unbound param)
    | cons input inputs =>
      refine (preserves_replaying (Replay.preserves_valueOf input)).bind fun value => ?_
      exact (preserves_know param value).bind fun _ => ih inputs

theorem preserves_known {outer : InstrId} (known : InstrId → Prop) :
    (addInput outer).Preserves fun t =>
      ∀ i, known i → t.region.values.contains i = true := by
  have hmodule : module.Preserves fun t : Workspace =>
      ∀ i, known i → t.region.values.contains i = true := Preserves.get.bind fun _ => .pure _
  refine Preserves.theProgram.bind fun q => hmodule.bind fun _ => ?_
  refine (Preserves.lift_checked _).bind fun name => Preserves.bind ?_ fun param => ?_
  · refine Preserves.theProgram.bind fun q => (Preserves.lift_graph _).bind fun type => ?_
    refine hmodule.bind fun _ => (Preserves.lift_checked _).bind fun standard => ?_
    refine Preserves.bind (fun t ht => ends_edit.mpr fun _ _ _ => ht) fun param => ?_
    exact Preserves.bind (fun t ht => ht) fun _ => .pure _
  · refine Preserves.bind (fun t ht i hi => ?_) fun _ => .pure _
    show ((t.region.values.insert outer param).image? i).isSome = true
    rw [Renaming.image?_insert]
    split
    · rfl
    · exact ht i hi

theorem ends_fuse {body : ModuleId} (hbody : p.Below body) (mode : Replay.Mode) {w : Workspace}
    (hw : Growing F p m w)
    (hinputs : ∀ i ∈ inputs, F i ∨ w.region.values.contains i = true) :
    (fuse body inputs mode).Ends w fun _ t => Growing F p m t := by
  have hforM : (inputs.forM fun input => do
      if !(← get).region.values.contains input then
        let _ ← addInput input : Building Unit).Preserves (fun t => Growing F p m t ∧
          ∀ i, w.region.values.contains i = true → t.region.values.contains i = true) := by
    refine Preserves.forM fun input hmem t ⟨ht, hknown⟩ => ?_
    rw [ends_get_bind]
    split
    · next hnew =>
      have houter : F input := by
        refine (hinputs input hmem).resolve_right fun hin => ?_
        rw [hknown input hin] at hnew
        cases hnew
      rw [ends_bind]
      have hlater : (addInput input).Ends t fun _ t' => ∀ i,
          w.region.values.contains i = true → t'.region.values.contains i = true :=
        preserves_known (w.region.values.contains · = true) t hknown
      exact (Ends.and (preserves_addInput houter t ht) hlater).mono fun _ _ ht' => ht'
    · exact ⟨ht, hknown⟩
  have hrest : ∀ t, Growing F p m t → (do
      bindParams ((← theProgram).parameters body) inputs
      let region ← module
      replaying (Replay.replay region body mode) : Building (List InstrId)).Ends t
        fun _ t => Growing F p m t := by
    refine Preserves.theProgram.bind fun q => ?_
    refine (preserves_bindParams _ inputs).bind fun _ => preserves_module_bind ?_
    exact preserves_replaying
      (Replay.preserves_replay Replay.takes_nesting (Replay.replayable_of_below hbody) mode)
  rw [fuse, ends_bind]
  exact (hforM w ⟨hw, fun _ => id⟩).mono fun _ t ht => hrest t ht.1

theorem preserves_fuse {body : ModuleId} (hbody : p.Below body) (mode : Replay.Mode)
    (hinputs : ∀ i ∈ inputs, F i) : (fuse body inputs mode).Preserves (Growing F p m) :=
  fun _ hw => ends_fuse hbody mode hw fun i hi => .inl (hinputs i hi)

/-! ### The end -/

theorem ends_feederOf (param : InstrId) {w : Workspace} (hw : Growing F p m w) :
    (feederOf param).Ends w fun outer t => F outer ∧ Growing F p m t := by
  rw [feederOf, ends_get_bind]
  split
  · next outer ho => exact ⟨hw.fed param outer ho, hw⟩
  · refine ends_focus.mpr ?_
    rw [Replay.unbound, ends_theProgram_bind, ends_bind, ends_lift_checked]
    exact fun inst _ => ends_refuse nofun

theorem ends_finish (returns : List InstrId) {w : Workspace} (hw : Growing F p m w) :
    (finish returns).Ends w fun feeders t =>
      (∀ i ∈ feeders, F i) ∧ Growing F p m t := by
  have hret : (liftM (Edit.addReturn m returns) : Building InstrId).Preserves (Growing F p m) :=
    preserves_edit fun _ _ _ hq hok => hq.addReturn hok
  show ((do
    let _ ← Edit.addReturn w.region.module returns
    ((← theProgram).parameters w.region.module).mapM feederOf : Building _)).Ends w _
  rw [hw.module, ends_bind]
  refine (hret w hw).mono fun _ t ht => ?_
  rw [ends_theProgram_bind]
  exact ends_mapM (fun param _ t ht => ends_feederOf param ht) ht

end Building

/-! ## Operands of calls -/

/-- Instructions of the main module outside of `F` are not among the operands, and have the users of
before. -/
structure Program.Unread (F : InstrId → Prop) (p q : Program) (inputs : List InstrId) : Prop where
  inputs : ∀ x ∈ inputs, x ∈ p.body main → F x
  users : ∀ j x, x ∈ p.body main → ¬ F x → q.Uses j x → p.Uses j x

/-- The first operand has a copy already, lies as a call takes it, or gets a copy. -/
theorem Edit.contiguousFrom_cons {input : InstrId} {inputs result : List InstrId}
    {copies : Renaming} (hok : contiguousFrom (input :: inputs) copies p = .ok result q) :
    ∃ copy rest, result = copy :: rest ∧
      ((copies.image? input = some copy ∧ contiguousFrom inputs copies p = .ok rest q) ∨
        ∃ t, p.HasType input (.tensor t) ∧
          ((Op.acceptsLayout t = .ok true ∧ copy = input ∧
              contiguousFrom inputs copies p = .ok rest q) ∨
            (Op.acceptsLayout t = .ok false ∧ ∃ r,
              insertAfter input (.reindex .contiguous) [input] [] p = .ok copy r ∧
                contiguousFrom inputs (copies.insert input copy) r = .ok rest q))) := by
  rw [contiguousFrom] at hok
  cases hcopy : copies.image? input with
  | some copy =>
    simp only [hcopy, Action.bind_ok, Action.pure_ok] at hok
    obtain ⟨rest, _, hok, rfl, rfl⟩ := hok
    exact ⟨copy, rest, rfl, .inl ⟨rfl, hok⟩⟩
  | none =>
    simp only [hcopy, Action.get_bind_ok, Action.lift_bind_ok, tensorOf_ok] at hok
    obtain ⟨t, ht, hok⟩ := hok
    rw [Action.lift_checked_bind_ok] at hok
    obtain ⟨accepts, haccepts, hok⟩ := hok
    simp only [Action.ite_ok, Action.bind_ok, Action.pure_ok] at hok
    obtain ⟨rfl, rest, _, hok, rfl, rfl⟩ | ⟨hnot, copy, r, hins, rest, _, hok, rfl, rfl⟩ := hok
    · exact ⟨input, rest, rfl, .inr ⟨t, ht, .inl ⟨haccepts, rfl, hok⟩⟩⟩
    · obtain rfl : accepts = false := Bool.eq_false_iff.mpr hnot
      exact ⟨copy, rest, rfl, .inr ⟨t, ht, .inr ⟨haccepts, r, hins, hok⟩⟩⟩

/-- Making operands in the main module contiguous. What is off the operands stays off the new ones,
and gets no new users. -/
theorem Program.Steady.advance_contiguousFrom {inputs result : List InstrId} {copies : Renaming}
    (off : InstrId → Prop) (h : p.Steady (some main))
    (hin : ∀ i ∈ inputs, i ∈ p.body main ∧ ¬ off i)
    (hcopies : ∀ i c, copies.image? i = some c → ¬ off c) (hoff : ∀ x, off x → x ∈ p.body main)
    (hok : Edit.contiguousFrom inputs copies p = .ok result q) :
    Advance p q ∧ SameCarriers p q ∧ (∀ x ∈ result, ¬ off x) ∧
      ∀ j x, off x → q.Uses j x → p.Uses j x := by
  induction inputs generalizing p copies result with
  | nil =>
    cases hok
    exact ⟨.refl h, .refl _, nofun, fun _ _ _ => id⟩
  | cons input inputs ih =>
    obtain ⟨⟨hmem, hfit⟩, hrest⟩ := List.forall_mem_cons.mp hin
    obtain ⟨copy, rest, rfl, ⟨hcopy, hok'⟩ | ⟨_, -, ⟨-, rfl, hok'⟩ | ⟨-, t, hins, hok'⟩⟩⟩ :=
      Edit.contiguousFrom_cons hok
    · obtain ⟨ha, hsame, hresult, huses⟩ := ih h hrest hcopies hoff hok'
      exact ⟨ha, hsame, List.forall_mem_cons.mpr ⟨hcopies input copy hcopy, hresult⟩, huses⟩
    · obtain ⟨ha, hsame, hresult, huses⟩ := ih h hrest hcopies hoff hok'
      exact ⟨ha, hsame, List.forall_mem_cons.mpr ⟨hfit, hresult⟩, huses⟩
    obtain ⟨n, hend, hins⟩ := h.toLinked.insertAt_of_insertAfter hmem rfl hins
    have hstep := h.advance_insertAt hend rfl List.not_mem_nil hins
    have hnew := inserted_of_ok h.toLinked hins
    have hlisted : ∀ {x}, x ∈ p.body main → x ∈ t.body main := hstep.mem_body h.toLinked
    have hcopyOff : ¬ off copy := fun hc => hnew.ne_of_mem h.toLinked (hoff copy hc) rfl
    obtain ⟨ha, hsame, hresult, huses⟩ := ih hstep.steady
      (fun i hi => ⟨hlisted (hrest i hi).1, (hrest i hi).2⟩)
      (Renaming.related_insert (R := fun _ c => ¬ off c) hcopyOff hcopies)
      (fun x hx => hlisted (hoff x hx)) hok'
    have hinserted := hnew.sameCarriers (alive_of_mem_body hmem)
    refine ⟨hstep.trans ha, hinserted.trans hsame, List.forall_mem_cons.mpr ⟨hcopyOff, hresult⟩,
      fun j x hx huse => ?_⟩
    have huse := huses j x hx huse
    by_cases hj : j = copy
    · subst hj
      obtain ⟨a, ha, hxa⟩ := huse
      obtain ⟨type, -, hcopied⟩ := hnew.new
      cases ha.symm.trans hcopied
      exact absurd hx (List.mem_singleton.mp hxa ▸ hfit)
    · exact (hnew.old hj).symm.uses huse

namespace Fusing

variable {s : Session} {region : Region} {steps : Building (List InstrId)}

theorem ends_building {α : Type} {steps : Building α} {Q : α × Region → Session → Prop}
    (h : steps.Ends ⟨s.program, region⟩ fun a w =>
      Q (a, w.region) { s with program := w.program }) :
    (building region steps).Ends s Q := by
  refine ends_focus.mpr (ends_bind.mpr (h.mono fun a w hw => ?_))
  rw [ends_get_bind]
  exact hw

/-- **A region is completed without a change of the main module**, but for contiguous copies.
Nothing outside of `F` is an operand of the call or gets a new user. -/
theorem ends_complete {F : InstrId → Prop} (hl : p.Linked) (hF : p.Feeders F)
    (hsteps : steps.Ends ⟨s.program, region⟩ fun _ w => Building.Growing F p m w) :
    (complete region steps).Ends s fun inputs t => Advance p t.program ∧
      Unread F p t.program inputs ∧ Placing m none [m] p t.program := by
  rw [complete, ends_bind]
  refine ends_building (hsteps.mono fun returns w hw => ?_)
  rw [ends_bind]
  refine ends_building ((Building.ends_finish returns hw).mono fun feeders w' ⟨hfeeders, hw'⟩ => ?_)
  refine ends_edit.mpr fun inputs q hq => ?_
  have hgrown := hw'.grown
  have hbody := hgrown.body_main
  obtain ⟨ha, hsame, hresult, huses⟩ := Program.Steady.advance_contiguousFrom
    (fun x => x ∈ p.body main ∧ ¬ F x) hgrown.steady
    (fun i hi => ⟨hbody.symm ▸ hF.inner (hfeeders i hi), fun hoff => hoff.2 (hfeeders i hi)⟩)
    (fun _ _ hi => by cases hi) (fun x hx => hbody.symm ▸ hx.1) hq
  refine ⟨(hgrown.advance hl).trans ha, ⟨fun x hx hmem => ?_, fun j x hmem hx huse => ?_⟩,
    hgrown.placing.same hsame⟩
  · exact not_not.mp fun hne => hresult x hx ⟨hmem, hne⟩
  · have huse := huses j x ⟨hmem, hx⟩ huse
    -- a user of an instruction of the main module stands there, too
    have hj := hgrown.steady.mem_body_of_used (hbody.symm ▸ hmem) huse
    exact (hgrown.isLocal.core hgrown.inner.symm (hbody ▸ hj)).symm.uses huse

end Fusing

end OffloadFusion
