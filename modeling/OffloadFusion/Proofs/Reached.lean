import OffloadFusion.Proofs.Names

/-!
# Reached programs

A program is `Reached` if a sequence of edits leads to it from the empty program, whether each edit
succeeded or not.

* `Sound`: the lists of the program fit its arena, and its index of names fits its modules.
* `Command.keeps_sound`: one edit keeps this, also where it stops on the way.
* `Reached.hasMain`: the main module is always there.
* **`Reached.consistent`**: what this says about every reached program.
-/

namespace OffloadFusion

namespace Program

variable {p q : Program} {i old new : InstrId} {m : ModuleId} {n : Nat} {inst : Instruction}
  {op : Op} {inputs : List InstrId} {modules : List ModuleId} {type : ValueType}

/-- The lists fit the arena, and the index of names fits the modules. -/
structure Sound (p : Program) : Prop where
  linked : p.Linked
  indexed : p.Indexed

/-! ## Names stay -/

theorem SameNames.refl (p : Program) : SameNames p p := ⟨rfl, fun _ => rfl⟩

theorem SameNames.trans {r : Program} (h : SameNames p q) (h' : SameNames q r) : SameNames p r :=
  ⟨h'.index.trans h.index, fun m => (h'.modules m).trans (h.modules m)⟩

theorem SameNames.of_module? (hn : q.names = p.names) (h : ∀ m, q.module? m = p.module? m) :
    SameNames p q := ⟨hn, fun m => by rw [h]⟩

theorem sameNames_inserted : SameNames p (p.inserted m n inst) := by
  refine ⟨?_, fun k => ?_⟩
  · exact names_addConsumers _ _ _
  · rw [module?_inserted]
    split
    · rw [Option.map_map]; rfl
    · rfl

theorem Retyped.sameNames (h : Retyped p q) : SameNames p q := .of_module? h.names h.module?

theorem sameNames_swapped : SameNames p (p.swapped i old new) :=
  .of_module? (names_dropConsumer _ _ _) (module?_swapped p i old new)

theorem sameNames_rebuilt {oldInputs : List InstrId} :
    SameNames p (p.rebuilt i oldInputs op inputs modules type) :=
  .of_module? ((names_addConsumers _ _ _).trans (names_dropConsumers _ _ _))
    (module?_rebuilt oldInputs)

theorem sameNames_removed (hl : p.Linked) (hi : p.instr? i = some inst)
    (hloc : p.locate i = .ok (m, n)) : SameNames p (p.removed i m n) := by
  refine ⟨names_eraseInstr _ _, fun k => ?_⟩
  rw [module?_removed hl hi hloc, Option.map_map]
  rfl

/-- The main module is there. -/
def HasMain (p : Program) : Prop := (p.module? main).isSome

theorem HasMain.of_same (h : p.HasMain) (hs : SameNames p q) : q.HasMain := by
  rw [HasMain, ← Option.isSome_map, hs.modules, Option.isSome_map]
  exact h

end Program

namespace Edit

open Program

variable {p q : Program} {i : InstrId} {m : ModuleId} {n : Nat} {op : Op} {inputs : List InstrId}
  {modules : List ModuleId}

/-! ## Edits that change nothing where they fail -/

theorem atomic_addParameter {name : String} {type : TensorType} :
    (addParameter m name type).Atomic := by
  refine Action.readOnly_get.bind_atomic fun p => Action.Atomic.ite ?_ ?_
  · exact (Action.readOnly_lift _).bind_atomic fun _ => Action.atomic_refuse_bind _ _
  · exact readOnly_afterParameters.bind_atomic fun _ => atomic_insertAt

theorem atomic_addLiteral {type : TensorType} {data : LiteralData} :
    (addLiteral m type data).Atomic :=
  readOnly_afterParameters.bind_atomic fun _ => atomic_insertAt

theorem atomic_addInstruction : (addInstruction m op inputs modules).Atomic :=
  Action.readOnly_get.bind_atomic fun _ => (Action.readOnly_lift _).bind_atomic fun _ =>
    atomic_insertAt

theorem atomic_insertBefore : (insertBefore i op inputs modules).Atomic :=
  Action.readOnly_get.bind_atomic fun _ => (Action.readOnly_lift _).bind_atomic fun _ =>
    atomic_insertAt

theorem atomic_insertAfter : (insertAfter i op inputs modules).Atomic := by
  refine Action.readOnly_get.bind_atomic fun _ => (Action.readOnly_lift _).bind_atomic fun _ => ?_
  refine Action.Atomic.ite ?_ atomic_insertAt
  exact (Action.readOnly_lift _).bind_atomic fun _ => Action.atomic_refuse_bind _ _

theorem atomic_addReturn : (addReturn m inputs).Atomic := by
  refine Action.readOnly_get.bind_atomic fun _ => Action.Atomic.ite ?_ ?_
  · exact (Action.readOnly_lift _).bind_atomic fun _ => Action.atomic_refuse_bind _ _
  · exact (Action.readOnly_lift _).bind_atomic fun _ => atomic_insertAt

theorem atomic_createModule {name : String} : (createModule name).Atomic :=
  Action.readOnly_get.bind_atomic fun _ =>
    (Action.atomic_refuse_bind _ _).ite (fun _ _ _ h => nomatch h)

/-! ## One edit -/

/-- **Inserting at a position of the module keeps a program sound.** -/
theorem sound_insertAt (h : p.Sound) {module : Module} (hm : p.module? m = some module)
    (hn : n ≤ module.body.length) (hok : insertAt m n op inputs modules p = .ok i q) :
    q.Sound := by
  obtain ⟨module', type, hm', hc, ht, rfl, rfl⟩ := insertAt_ok.mp hok
  exact ⟨h.linked.insert hm hn (mem_take_of_checkPlacement hc hm) rfl rfl,
    h.indexed.of_same sameNames_inserted⟩

theorem keeps_addParameter {name : String} {type : TensorType} :
    (addParameter m name type).Keeps Sound := by
  refine atomic_addParameter.keeps fun {p i q} h hok => ?_
  obtain ⟨-, module, hm, hins⟩ := addParameter_ok.mp hok
  exact sound_insertAt h hm (p.parametersEnd_le _) hins

theorem keeps_addLiteral {type : TensorType} {data : LiteralData} :
    (addLiteral m type data).Keeps Sound := by
  refine atomic_addLiteral.keeps fun {p i q} h hok => ?_
  obtain ⟨module, hm, hins⟩ := addLiteral_ok.mp hok
  exact sound_insertAt h hm (p.parametersEnd_le _) hins

theorem keeps_addInstruction : (addInstruction m op inputs modules).Keeps Sound := by
  refine atomic_addInstruction.keeps fun {p i q} h hok => ?_
  obtain ⟨module, hm, hins⟩ := addInstruction_ok.mp hok
  exact sound_insertAt h hm (Nat.sub_le _ _) hins

theorem lt_length_of_locate {place : InstrId} (h : p.locate place = .ok (m, n)) :
    ∃ module, p.module? m = some module ∧ n < module.body.length := by
  obtain ⟨inst, module, -, -, hm, hidx⟩ := locate_ok.mp h
  exact ⟨module, hm, (List.idxOf?_eq_some_iff.mp hidx).1⟩

theorem keeps_insertBefore {place : InstrId} :
    (insertBefore place op inputs modules).Keeps Sound := by
  refine atomic_insertBefore.keeps fun {p i q} h hok => ?_
  obtain ⟨m, n, hloc, hins⟩ := insertBefore_ok.mp hok
  obtain ⟨module, hm, hn⟩ := lt_length_of_locate hloc
  exact sound_insertAt h hm (Nat.le_of_lt hn) hins

theorem keeps_insertAfter {place : InstrId} :
    (insertAfter place op inputs modules).Keeps Sound := by
  refine atomic_insertAfter.keeps fun {p i q} h hok => ?_
  obtain ⟨m, n, hloc, -, hins⟩ := insertAfter_ok.mp hok
  obtain ⟨module, hm, hn⟩ := lt_length_of_locate hloc
  exact sound_insertAt h hm hn hins

theorem keeps_addReturn : (addReturn m inputs).Keeps Sound := by
  refine atomic_addReturn.keeps fun {p i q} h hok => ?_
  obtain ⟨-, module, hm, hins⟩ := addReturn_ok.mp hok
  exact sound_insertAt h hm (Nat.le_refl _) hins

theorem keeps_createModule {name : String} : (createModule name).Keeps Sound := by
  refine atomic_createModule.keeps fun {p m q} h hok => ?_
  obtain ⟨hfree, -, rfl⟩ := createModule_ok.mp hok
  exact ⟨h.linked.of_links (fun _ => rfl) (p.body_opened name), h.indexed.opened hfree⟩

/-- A copy that stops on the way leaves a part of the copy behind. -/
theorem keeps_copyBody (body : List InstrId) (copies : Renaming) :
    (copyBody m body copies).Keeps Sound := by
  induction body generalizing copies with
  | nil => exact fun p h => h
  | cons i body ih =>
    intro p h
    rw [copyBody, Action.after_get_bind]
    refine (Action.readOnly_lift _).bind_after h fun inst _ => ?_
    refine (Action.readOnly_lift _).bind_after h fun inputs _ => ?_
    rw [Action.after_bind]
    cases hins : insertAt m (p.body m).length inst.op inputs inst.modules p with
    | ok copy q =>
      obtain ⟨module, type, hm, -⟩ := insertAt_ok.mp hins
      exact ih _ q (sound_insertAt h hm (Nat.le_of_eq (congrArg List.length (body_of_module? hm)))
        hins)
    | error e q => exact (atomic_insertAt _ _ _ hins).symm ▸ h

theorem keeps_copyModule {name : String} : (copyModule m name).Keeps Sound := by
  intro p h
  refine (Action.readOnly_lift _).bind_after h fun module _ => ?_
  refine Action.Keeps.bind keeps_createModule (fun target => ?_) p h
  exact (keeps_copyBody _ _).bind fun copies => (Action.readOnly_pure _).keeps

theorem keeps_removeInstruction : (removeInstruction i).Keeps Sound := by
  refine atomic_removeInstruction.keeps fun {p u q} h hok => ?_
  obtain ⟨inst, m, n, hi, hc, hloc, rfl⟩ := removeInstruction_ok.mp hok
  exact ⟨h.linked.removed hi hloc hc, h.indexed.of_same (sameNames_removed h.linked hi hloc)⟩

theorem keeps_removeModule : (removeModule m).Keeps Sound := by
  refine atomic_removeModule.keeps fun {p u q} h hok => ?_
  obtain ⟨-, module, hm, rfl⟩ := removeModule_ok.mp hok
  exact ⟨h.linked.moduleRemoved hm, h.indexed.moduleRemoved hm⟩

theorem sameNames_replaceArgument (i old new : InstrId) (p : Program) :
    SameNames p ((replaceArgument i old new).after p) := by
  cases hi : p.instr? i with
  | some inst => exact sameNames_swapped.trans (retyped_replaceArgument old new hi).sameNames
  | none =>
    have hnone : p.findInstr i = refuse (.unknownInstruction i) := by rw [findInstr, hi]
    simp only [replaceArgument, Action.after_get_bind, Action.after_lift_bind, hnone]
    exact .refl p

theorem sameNames_replaceInstruction (old new : InstrId) (p : Program) :
    SameNames p ((replaceInstruction old new).after p) := by
  refine (Action.readOnly_lift _).bind_after (.refl p) fun oldInst _ => ?_
  refine (Action.readOnly_lift _).bind_after (.refl p) fun newInst _ => ?_
  rw [Action.after_ite, Action.after_refuse_bind]
  split
  · exact .refl p
  refine (Action.readOnly_lift _).bind_after (.refl p) fun place _ => ?_
  refine (Action.readOnly_lift _).bind_after (.refl p) fun module _ => ?_
  refine (Action.ReadOnly.forM (readOnly_checkAfter p module place.2 new)).bind_after (.refl p)
    fun _ _ => ?_
  exact Action.after_forM SameNames.refl SameNames.trans
    (fun c q => sameNames_replaceArgument c old new q) p

theorem sameNames_replaceWith (p : Program) :
    SameNames p ((replaceWith i op inputs modules).after p) := by
  refine (Action.readOnly_lift _).bind_after (.refl p) fun place _ => ?_
  refine (readOnly_checkPlacement _).bind_after (.refl p) fun _ _ => ?_
  refine (Action.readOnly_lift _).bind_after (.refl p) fun type _ => ?_
  refine Action.ReadOnly.bind_after (fun s => Action.after_lift_checked _ s) (.refl p)
    fun old _ => ?_
  rw [Action.after_ite, Action.after_refuse_bind]
  split
  · exact .refl p
  rw [Action.after_set_bind]
  have hset : SameNames p (p.rebuilt i old.inputs op inputs modules type) := sameNames_rebuilt
  split
  · refine Action.ReadOnly.bind_after (fun s => Action.after_lift_checked _ s) hset fun inst _ => ?_
    exact hset.trans (Action.after_forM SameNames.refl SameNames.trans
      (fun c q => (retyped_refreshType c q).sameNames) _)
  · exact hset

/-! ## The main module -/

theorem hasMain_insertAt (h : p.HasMain) (hok : insertAt m n op inputs modules p = .ok i q) :
    q.HasMain := by
  obtain ⟨module, type, -, -, -, -, rfl⟩ := insertAt_ok.mp hok
  exact h.of_same sameNames_inserted

theorem hasMain_createModule {name : String} : (createModule name).Keeps HasMain := by
  refine atomic_createModule.keeps fun {p m q} h hok => ?_
  obtain ⟨-, -, rfl⟩ := createModule_ok.mp hok
  rw [HasMain, module?_opened]
  split
  · rfl
  · exact h

theorem hasMain_copyBody (body : List InstrId) (copies : Renaming) :
    (copyBody m body copies).Keeps HasMain := by
  induction body generalizing copies with
  | nil => exact fun p h => h
  | cons i body ih =>
    refine Action.readOnly_get.keeps.bind fun p => (Action.readOnly_lift _).keeps.bind fun _ =>
      (Action.readOnly_lift _).keeps.bind fun _ => ?_
    exact (atomic_insertAt.keeps hasMain_insertAt).bind fun _ => ih _

theorem hasMain_copyModule {name : String} : (copyModule m name).Keeps HasMain :=
  Action.readOnly_get.keeps.bind fun _ => (Action.readOnly_lift _).keeps.bind fun _ =>
    hasMain_createModule.bind fun _ => (hasMain_copyBody _ _).bind fun _ =>
      (Action.readOnly_pure _).keeps

theorem hasMain_removeModule : (removeModule m).Keeps HasMain := by
  refine atomic_removeModule.keeps fun {p u q} h hok => ?_
  obtain ⟨hmain, module, hm, rfl⟩ := removeModule_ok.mp hok
  rw [HasMain, module?_moduleRemoved, if_neg hmain]
  exact h

theorem hasMain_removeInstruction :
    (removeInstruction i).Keeps fun p => p.Linked ∧ p.HasMain := by
  refine atomic_removeInstruction.keeps fun {p u q} ⟨hl, h⟩ hok => ?_
  obtain ⟨inst, m, n, hi, hc, hloc, rfl⟩ := removeInstruction_ok.mp hok
  exact ⟨hl.removed hi hloc hc, h.of_same (sameNames_removed hl hi hloc)⟩

end Edit

/-! ## Sequences of edits -/

/-- An edit with its arguments. -/
inductive Command where
  | createModule (name : String)
  | copyModule (source : ModuleId) (name : String)
  | removeModule (m : ModuleId)
  | addParameter (m : ModuleId) (name : String) (type : TensorType)
  | addLiteral (m : ModuleId) (type : TensorType) (data : LiteralData)
  | addInstruction (m : ModuleId) (op : Op) (inputs : List InstrId) (modules : List ModuleId)
  | insertBefore (place : InstrId) (op : Op) (inputs : List InstrId) (modules : List ModuleId)
  | insertAfter (place : InstrId) (op : Op) (inputs : List InstrId) (modules : List ModuleId)
  | addReturn (m : ModuleId) (inputs : List InstrId)
  | replaceInstruction (old new : InstrId)
  | replaceWith (i : InstrId) (op : Op) (inputs : List InstrId) (modules : List ModuleId)
  | removeInstruction (i : InstrId)

namespace Command

/-- Carries the edit out, leaving out what it answers. -/
def run : Command → Edit Unit
  | createModule name => do let _ ← Edit.createModule name
  | copyModule source name => do let _ ← Edit.copyModule source name
  | removeModule m => Edit.removeModule m
  | addParameter m name type => do let _ ← Edit.addParameter m name type
  | addLiteral m type data => do let _ ← Edit.addLiteral m type data
  | addInstruction m op inputs modules => do let _ ← Edit.addInstruction m op inputs modules
  | insertBefore place op inputs modules => do let _ ← Edit.insertBefore place op inputs modules
  | insertAfter place op inputs modules => do let _ ← Edit.insertAfter place op inputs modules
  | addReturn m inputs => do let _ ← Edit.addReturn m inputs
  | replaceInstruction old new => Edit.replaceInstruction old new
  | replaceWith i op inputs modules => Edit.replaceWith i op inputs modules
  | removeInstruction i => Edit.removeInstruction i

open Edit in
/-- **Every edit keeps a program sound**, whether it succeeds or not. -/
theorem keeps_sound (c : Command) : c.run.Keeps Program.Sound := by
  have hdiscard : ∀ {α : Type} {x : Edit α}, x.Keeps Program.Sound →
      (x >>= fun _ => (pure ⟨⟩ : Edit Unit)).Keeps Program.Sound :=
    fun hx => hx.bind fun _ => (Action.readOnly_pure _).keeps
  cases c with
  | createModule name => exact hdiscard keeps_createModule
  | copyModule source name => exact hdiscard keeps_copyModule
  | removeModule m => exact keeps_removeModule
  | addParameter m name type => exact hdiscard keeps_addParameter
  | addLiteral m type data => exact hdiscard keeps_addLiteral
  | addInstruction m op inputs modules => exact hdiscard keeps_addInstruction
  | insertBefore place op inputs modules => exact hdiscard keeps_insertBefore
  | insertAfter place op inputs modules => exact hdiscard keeps_insertAfter
  | addReturn m inputs => exact hdiscard keeps_addReturn
  | replaceInstruction old new =>
    exact fun p h => ⟨keeps_replaceInstruction p h.linked,
      h.indexed.of_same (sameNames_replaceInstruction old new p)⟩
  | replaceWith i op inputs modules =>
    exact fun p h => ⟨keeps_replaceWith p h.linked, h.indexed.of_same (sameNames_replaceWith p)⟩
  | removeInstruction i => exact keeps_removeInstruction

open Edit in
theorem hasMain {p : Program} (c : Command) (hl : p.Linked) (h : p.HasMain) :
    (c.run.after p).HasMain := by
  have hdiscard : ∀ {α : Type} {x : Edit α}, x.Keeps Program.HasMain →
      ((x >>= fun _ => (pure ⟨⟩ : Edit Unit)).after p).HasMain :=
    fun hx => hx.bind (fun _ => (Action.readOnly_pure _).keeps) p h
  cases c with
  | createModule name => exact hdiscard hasMain_createModule
  | copyModule source name => exact hdiscard hasMain_copyModule
  | removeModule m => exact hasMain_removeModule p h
  | addParameter m name type =>
    refine hdiscard (atomic_addParameter.keeps fun h hok => ?_)
    obtain ⟨-, _, -, hins⟩ := addParameter_ok.mp hok
    exact hasMain_insertAt h hins
  | addLiteral m type data =>
    refine hdiscard (atomic_addLiteral.keeps fun h hok => ?_)
    obtain ⟨_, -, hins⟩ := addLiteral_ok.mp hok
    exact hasMain_insertAt h hins
  | addInstruction m op inputs modules =>
    refine hdiscard (atomic_addInstruction.keeps fun h hok => ?_)
    obtain ⟨_, -, hins⟩ := addInstruction_ok.mp hok
    exact hasMain_insertAt h hins
  | insertBefore place op inputs modules =>
    refine hdiscard (atomic_insertBefore.keeps fun h hok => ?_)
    obtain ⟨_, _, -, hins⟩ := insertBefore_ok.mp hok
    exact hasMain_insertAt h hins
  | insertAfter place op inputs modules =>
    refine hdiscard (atomic_insertAfter.keeps fun h hok => ?_)
    obtain ⟨_, _, -, -, hins⟩ := insertAfter_ok.mp hok
    exact hasMain_insertAt h hins
  | addReturn m inputs =>
    refine hdiscard (atomic_addReturn.keeps fun h hok => ?_)
    obtain ⟨-, _, -, hins⟩ := addReturn_ok.mp hok
    exact hasMain_insertAt h hins
  | replaceInstruction old new => exact h.of_same (sameNames_replaceInstruction old new p)
  | replaceWith i op inputs modules => exact h.of_same (sameNames_replaceWith p)
  | removeInstruction i => exact (hasMain_removeInstruction p ⟨hl, h⟩).2

end Command

namespace Program

/-- A sequence of edits leads to the program from the empty one. -/
inductive Reached : Program → Prop
  | empty : Reached .empty
  | step {p : Program} (c : Command) : Reached p → Reached (c.run.after p)

theorem Reached.sound {p : Program} (h : Reached p) : p.Sound := by
  induction h with
  | empty => exact ⟨.empty, .empty⟩
  | step c _ ih => exact c.keeps_sound _ ih

/-- The main module is always there. -/
theorem Reached.hasMain {p : Program} (h : Reached p) : p.HasMain := by
  induction h with
  | empty => rfl
  | @step p c hp ih => exact c.hasMain hp.sound.linked ih

/-- **Consistency of every reached program.** Every live instruction is listed exactly once, by the
module that it belongs to, and nothing else is listed. Operands are earlier instructions of the
same module, and the consumers are, each once, the instructions that have it as an operand. Modules
have different names, and the index has exactly these. -/
theorem Reached.consistent {p : Program} (h : Reached p) :
    (∀ i inst, p.instr? i = some inst → (p.module? inst.owner).isSome ∧
      ∀ m, (p.body m).count i = if m = inst.owner then 1 else 0) ∧
    (∀ m, ∀ i ∈ p.body m, ∃ inst, p.instr? i = some inst) ∧
    (∀ i inst, p.instr? i = some inst → ∀ x ∈ inst.inputs, ∃ xinst, p.instr? x = some xinst ∧
      xinst.owner = inst.owner ∧ Before (p.body inst.owner) x i) ∧
    (∀ i inst, p.instr? i = some inst → inst.consumers.Nodup ∧
      ∀ c, c ∈ inst.consumers ↔ ∃ cinst, p.instr? c = some cinst ∧ i ∈ cinst.inputs) ∧
    (∀ m n module module', p.module? m = some module → p.module? n = some module' →
      module.name = module'.name → m = n) ∧
    (∀ name m, p.moduleNamed? name = some m ↔
      ∃ module, p.module? m = some module ∧ module.name = name) := by
  obtain ⟨hl, hx⟩ := h.sound
  refine ⟨fun i inst hi => ⟨?_, fun m => ?_⟩, fun m i him => ?_, fun i inst hi x hin => ?_,
    fun i inst hi => ⟨hl.distinct hi, fun c => hl.mirrored hi⟩,
    fun m n module module' hm hn he => hx.unique hm hn he, hx⟩
  · obtain ⟨module, hm, -⟩ := hl.owner_alive hi
    rw [hm]
    rfl
  · split
    · next hm => exact List.count_eq_one_of_mem (hl.nodup m) (hm ▸ hl.listed hi)
    · next hm => exact List.count_eq_zero_of_not_mem (hl.notMem_body hi (Ne.symm hm))
  · obtain ⟨inst, hi, -⟩ := hl.owned him
    exact ⟨inst, hi⟩
  · obtain ⟨xinst, hxi, ho⟩ := hl.operand hi hin
    exact ⟨xinst, hxi, ho, hl.ordered hi hin⟩

/-- A parameter and its return, after a failed edit. -/
theorem consistent_after_refusal :
    let p := (Command.addReturn main [⟨0⟩]).run.after ((Command.removeModule main).run.after
      ((Command.addParameter main "x" ⟨.f32, [1], [1]⟩).run.after .empty))
    p.body main = [⟨0⟩, ⟨1⟩] ∧ ∀ i inst, p.instr? i = some inst → inst.consumers.Nodup :=
  ⟨by decide, fun i inst hi =>
    ((Reached.consistent (.step _ (.step _ (.step _ .empty)))).2.2.2.1 i inst hi).1⟩

end Program

end OffloadFusion
