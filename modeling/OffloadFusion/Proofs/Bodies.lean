import OffloadFusion.Proofs.Images

/-!
# Bodies in regions

What `fuse` makes of a body on inputs: the inputs become parameters unless they are known, the
parameters of the body take their values, and the rest becomes an image of the body.

* `Continues`, `Declared`: a region is added to, and gets parameters.
* `Entered`, `Bound`: the inputs are parameters, and then the parameters of the body are bound.
* **`Building.fuse_image`**: whatever the mode, the region then holds an image of the body.
* **`Building.fuse_again`**: a second call on the same body builds nothing of it again.
-/

namespace OffloadFusion

open OffloadFusion.Action Program

/-- The instructions that are not known in the region, without repetition. -/
def Region.unknown (region : Region) (inputs : List InstrId) : List InstrId :=
  (inputs.filter fun i => !region.values.contains i).eraseDups

namespace Region

variable {region : Region} {i : InstrId} {inputs : List InstrId}

theorem unknown_cons_of_contains (h : region.values.contains i = true) :
    region.unknown (i :: inputs) = region.unknown inputs := by
  rw [unknown, List.filter_cons_of_neg (by simp [h]), unknown]

theorem unknown_cons {region' : Region} {value : InstrId}
    (h : region.values.contains i = false)
    (hvalues : region'.values = region.values.insert i value) :
    region.unknown (i :: inputs) = i :: region'.unknown inputs := by
  rw [unknown, List.filter_cons_of_pos (by simp [h]), List.eraseDups_cons, unknown,
    List.filter_filter]
  congr 2
  refine List.filter_congr fun j _ => ?_
  rw [hvalues, Renaming.contains, Renaming.contains, Renaming.image?_insert]
  by_cases hj : j = i
  · simp [hj]
  · simp [hj]

end Region

namespace Building

open Replay

variable {base : Program} {m body : ModuleId} {w w' w'' : Workspace} {i outer param value : InstrId}
  {inputs results : List InstrId} {mode : Replay.Mode} {p q : Program}

/-- The module of the region was only added to, and what fed its instructions still does. -/
structure Continues (m : ModuleId) (w w' : Workspace) : Prop where
  module : w'.region.module = w.region.module
  adds : Adds m w.program w'.program
  bound : ∀ {param inst}, w.program.instr? param = some inst →
    w'.region.bindings.image? param = w.region.bindings.image? param

namespace Continues

theorem refl (hl : w.program.Linked) (m : ModuleId) : Continues m w w :=
  ⟨rfl, .refl hl m, fun _ => rfl⟩

theorem trans (h : Continues m w w') (h' : Continues m w' w'') : Continues m w w'' := by
  refine ⟨h'.module.trans h.module, h.adds.trans h'.adds, fun hi => ?_⟩
  obtain ⟨inst', hi', -⟩ := h.adds.exists_instr hi
  exact (h'.bound hi').trans (h.bound hi)

end Continues

/-- The instruction feeds a new parameter of its type in row-major order. -/
def Declared (m : ModuleId) (p : Program) (w : Workspace) (outer param : InstrId) : Prop :=
  ∃ name t u, w.program.HasType outer (.tensor t) ∧ t.asStandard = .ok u ∧
    Made m p w.program (.param name u) [] [] param ∧
    w.region.bindings.image? param = some outer

theorem Declared.mono (hp : Adds m p q) (h : Declared m q w outer param) (hw : Continues m w w') :
    Declared m p w' outer param := by
  obtain ⟨name, t, u, ht, hu, hmade, hbound⟩ := h
  obtain ⟨inst, hi, -⟩ := hmade.made
  exact ⟨name, t, u, hw.adds.hasType ht, hu, (hmade.mono hw.adds).later hp,
    (hw.bound hi).trans hbound⟩

theorem Declared.mem_body (h : Declared m p w outer param) (hl : w.program.Linked) :
    param ∈ w.program.body m := by
  obtain ⟨_, _, _, -, -, hmade, -⟩ := h
  exact hmade.mem_body hl

theorem ends_theModule_bind {α : Type} {f : ModuleId → Building α} {Q : α → Workspace → Prop} :
    (Building.module >>= f).Ends w Q ↔ (f w.region.module).Ends w Q := Iff.rfl

theorem ends_addNamedInput (hl : w.program.Linked) (name : String) :
    (addNamedInput outer name).Ends w fun param w' => Continues w.region.module w w' ∧
      w'.region.values = w.region.values ∧ Declared w.region.module w.program w' outer param ∧
        w'.program.parameters w.region.module =
          w.program.parameters w.region.module ++ [param] ∧
        ∀ j ∈ w'.program.body w.region.module, j = param ∨ j ∈ w.program.body w.region.module := by
  rw [addNamedInput, ends_theProgram_bind, ends_bind, ends_lift_graph]
  intro t ht
  rw [ends_theModule_bind, ends_bind, ends_lift_checked]
  intro u hu
  rw [ends_bind, ends_edit]
  intro param q hok
  obtain ⟨hadds, hmade⟩ := hl.adds_addParameter hok
  rw [ends_bind, ends_modify, ends_pure]
  refine ⟨⟨rfl, hadds, fun {x inst} hx => ?_⟩, rfl, ⟨name, t, u, hadds.hasType (tensorOf_ok.mp ht),
    hu, hmade, (Region.image?_bindParam ..).trans (if_pos rfl)⟩, hl.parameters_addParameter hok,
    fun _ => hl.mem_body_of_addParameter hok⟩
  refine (Region.image?_bindParam ..).trans (if_neg ?_)
  rintro rfl
  rw [hmade.gone] at hx
  cases hx

theorem ends_addInput (hl : w.program.Linked) :
    (addInput outer).Ends w fun param w' => Continues w.region.module w w' ∧
      w'.region.values = w.region.values.insert outer param ∧
        Declared w.region.module w.program w' outer param ∧
        w'.program.parameters w.region.module =
          w.program.parameters w.region.module ++ [param] ∧
        ∀ j ∈ w'.program.body w.region.module, j = param ∨ j ∈ w.program.body w.region.module := by
  rw [addInput, ends_theProgram_bind, ends_theModule_bind, ends_bind, ends_lift_checked]
  intro name _
  rw [ends_bind]
  refine (ends_addNamedInput hl name).mono ?_
  rintro param w' ⟨hw, hvalues, hdeclared, hadded⟩
  rw [ends_bind, know, ends_modify, ends_pure]
  refine ⟨⟨hw.module, hw.adds, hw.bound⟩, ?_, hdeclared, hadded⟩
  show w'.region.values.insert outer param = _
  rw [hvalues]

/-- What is known after inputs have become parameters unless they were known. -/
structure Entered (m : ModuleId) (w w' : Workspace) (inputs : List InstrId) : Prop where
  continues : Continues m w w'
  kept : ∀ {i value}, w.region.values.image? i = some value →
    w'.region.values.image? i = some value
  only : ∀ {i value}, w'.region.values.image? i = some value →
    w.region.values.image? i = some value ∨ i ∈ inputs ∧ Declared m w.program w' i value
  known : ∀ i ∈ inputs, ∃ value, w'.region.values.image? i = some value
  /-- There is one new parameter for each input that was not known. -/
  declared : ∃ params, w'.program.parameters m = w.program.parameters m ++ params ∧
    List.Forall₂ (fun i param => w'.region.values.image? i = some param ∧
      Declared m w.program w' i param) (w.region.unknown inputs) params
  added : ∀ j ∈ w'.program.body m,
    j ∈ w.program.body m ∨ w'.program.hasOp Op.isParam j = true

namespace Entered

variable {input : InstrId} {w₁ : Workspace}

theorem skip (h : Entered m w w' inputs) (hknown : w.region.values.contains input = true) :
    Entered m w w' (input :: inputs) := by
  refine ⟨h.continues, h.kept,
    fun hi => (h.only hi).imp_right fun h => ⟨List.mem_cons_of_mem _ h.1, h.2⟩, fun i hi => ?_,
    (Region.unknown_cons_of_contains hknown).symm ▸ h.declared, h.added⟩
  obtain rfl | hi := List.mem_cons.mp hi
  · obtain ⟨value, hvalue⟩ := Option.isSome_iff_exists.mp hknown
    exact ⟨value, h.kept hvalue⟩
  · exact h.known i hi

/-- An input that is not known becomes a parameter, and then the others are entered. -/
theorem cons (hl : w.program.Linked) (hnew : w.region.values.image? input = none)
    (hw : Continues m w w₁) (hvalues : w₁.region.values = w.region.values.insert input param)
    (hdeclared : Declared m w.program w₁ input param)
    (hparams : w₁.program.parameters m = w.program.parameters m ++ [param])
    (hadded : ∀ j ∈ w₁.program.body m, j = param ∨ j ∈ w.program.body m)
    (h : Entered m w₁ w' inputs) : Entered m w w' (input :: inputs) := by
  have hself : w₁.region.values.image? input = some param := by
    rw [hvalues, Renaming.image?_insert, if_pos rfl]
  have hlast : Declared m w.program w' input param := hdeclared.mono (.refl hl _) h.continues
  have hmono : ∀ {i value}, Declared m w₁.program w' i value → Declared m w.program w' i value :=
    fun hi => hi.mono hw.adds (.refl h.continues.adds.linked _)
  refine ⟨hw.trans h.continues, fun {i value} hi => h.kept ?_, fun {i value} hi => ?_,
    fun i hi => ?_, ?_, fun j hj => ?_⟩
  · rw [hvalues, Renaming.image?_insert, if_neg, hi]
    rintro rfl
    rw [hnew] at hi
    cases hi
  · obtain hold | ⟨hmem, hdeclared'⟩ := h.only hi
    · rw [hvalues, Renaming.image?_insert] at hold
      split at hold
      · next heq =>
        cases hold
        subst heq
        exact .inr ⟨List.mem_cons_self, hlast⟩
      · exact .inl hold
    · exact .inr ⟨List.mem_cons_of_mem _ hmem, hmono hdeclared'⟩
  · obtain rfl | hi := List.mem_cons.mp hi
    · exact ⟨param, h.kept hself⟩
    · exact h.known i hi
  · obtain ⟨params, hmore, hall⟩ := h.declared
    refine ⟨param :: params, by rw [hmore, hparams, List.append_assoc]; rfl, ?_⟩
    rw [Region.unknown_cons (by rw [Renaming.contains, hnew]; rfl) hvalues]
    exact .cons ⟨h.kept hself, hlast⟩ (hall.imp fun i param hi => ⟨hi.1, hmono hi.2⟩)
  · obtain hj | hparam := h.added j hj
    · obtain rfl | hj := hadded j hj
      · obtain ⟨_, _, _, -, -, hmade, -⟩ := hdeclared
        exact .inr ((hmade.mono h.continues.adds).hasOp Op.isParam)
      · exact .inl hj
    · exact .inr hparam

theorem offered (h : Entered m w w' inputs) (hi : i ∈ inputs) :
    ∃ value, w'.region.values.image? i = some value ∧
      (w.region.values.image? i = some value ∨
        w.region.values.image? i = none ∧ Declared m w.program w' i value) := by
  obtain ⟨value, hvalue⟩ := h.known i hi
  refine ⟨value, hvalue, ?_⟩
  cases hold : w.region.values.image? i with
  | none =>
    obtain hknown | ⟨-, hdeclared⟩ := h.only hvalue
    · rw [hold] at hknown
      cases hknown
    · exact .inr ⟨rfl, hdeclared⟩
  | some old =>
    rw [h.kept hold] at hvalue
    exact .inl hvalue

theorem inside (h : Entered m w w' inputs)
    (hin : ∀ i value, w.region.values.image? i = some value → value ∈ w.program.body m) :
    ∀ i value, w'.region.values.image? i = some value → value ∈ w'.program.body m := by
  intro i value hvalue
  obtain hold | ⟨-, hdeclared⟩ := h.only hvalue
  · exact h.continues.adds.body.subset (hin i value hold)
  · exact hdeclared.mem_body h.continues.adds.linked

end Entered

/-- **Inputs that are not known become parameters.** -/
theorem ends_offer (hl : w.program.Linked) :
    (inputs.forM fun input => do
      if !(← get).region.values.contains input then
        let _ ← addInput input : Building Unit).Ends w fun _ w' =>
      Entered w.region.module w w' inputs := by
  induction inputs generalizing w with
  | nil =>
    exact ⟨.refl hl _, id, .inl, fun _ hi => absurd hi List.not_mem_nil,
      ⟨[], (List.append_nil _).symm, .nil⟩, fun _ => .inl⟩
  | cons input inputs ih =>
    rw [List.forM, ends_bind, ends_get_bind]
    split
    · next hnew =>
      rw [ends_bind]
      refine (ends_addInput hl).mono ?_
      rintro param w₁ ⟨hw₁, hvalues, hdeclared, hparams, hadded⟩
      rw [ends_pure]
      refine (ih hw₁.adds.linked).mono fun _ w₂ h => ?_
      rw [hw₁.module] at h
      have hnew : w.region.values.image? input = none := by
        simpa [Renaming.contains] using hnew
      exact .cons hl hnew hw₁ hvalues hdeclared hparams hadded h
    · next hknown =>
      rw [ends_pure]
      exact (ih hl).mono fun _ w₂ h => h.skip (by simpa using hknown)

/-- **The parameters of a body take the values of its inputs.** -/
theorem ends_bindInputs {params : List InstrId} (hn : params.Nodup)
    (hinputs : ∀ i ∈ inputs, i ∉ params) :
    (bindParams params inputs).Ends w fun _ w' => ∃ values : Renaming,
      w' = ⟨w.program, { w.region with values }⟩ ∧ params.length ≤ inputs.length ∧
      List.Forall₂ (fun param input => ∃ value, values.image? param = some value ∧
        w.region.values.image? input = some value) params (inputs.take params.length) ∧
      ∀ i ∉ params, values.image? i = w.region.values.image? i := by
  induction params generalizing inputs w with
  | nil =>
    rw [bindParams, ends_pure]
    exact ⟨w.region.values, rfl, Nat.zero_le _, .nil, fun _ _ => rfl⟩
  | cons param params ih =>
    obtain ⟨hparam, hn⟩ := List.nodup_cons.mp hn
    cases inputs with
    | nil =>
      rw [bindParams]
      refine ends_focus.mpr ?_
      rw [unbound, ends_theProgram_bind, ends_bind, ends_lift_checked]
      exact fun inst _ => ends_refuse (by rintro _ ⟨⟩)
    | cons input inputs =>
      obtain ⟨-, hrest⟩ := List.forall_mem_cons.mp hinputs
      rw [bindParams, ends_bind]
      refine ends_focus.mpr ?_
      rw [valueOf, ends_get_bind, ends_lift_graph]
      intro value hvalue
      rw [ends_bind, know, ends_modify]
      refine (ih hn fun i hi hmem => hrest i hi (List.mem_cons_of_mem _ hmem)).mono ?_
      rintro _ w' ⟨values, hw', hlen, hall, hothers⟩
      have hinsert : ∀ i ≠ param, (w.region.know param value).values.image? i =
          w.region.values.image? i := fun i hi =>
        (Renaming.image?_insert ..).trans (if_neg hi)
      refine ⟨values, hw', Nat.succ_le_succ hlen, .cons ⟨value, ?_, Renaming.image_ok.mp hvalue⟩
        (forall₂_imp_of_mem hall.flip fun x hx _ himage => ?_).flip, fun i hi => ?_⟩
      · exact (hothers param hparam).trans ((Renaming.image?_insert ..).trans (if_pos rfl))
      · obtain ⟨v, hv, hx'⟩ := himage
        have hne : x ≠ param := by
          rintro rfl
          exact hrest x (List.mem_of_mem_take hx) List.mem_cons_self
        exact ⟨v, hv, (hinsert x hne).symm.trans hx'⟩
      · obtain ⟨hne, hi⟩ := not_or.mp (mt List.mem_cons.mpr hi)
        exact (hothers i hi).trans (hinsert i hne)

/-! ## Fused bodies -/

theorem takes_parameters (m : ModuleId) (params : List InstrId) :
    Takes (fun q => q.Linked ∧ q.parameters m = params) m fun _ => True where
  nil := trivial
  instruction := by
    rintro q op inputs modules i r ⟨hl, rfl⟩ _ hparam _ hok
    exact ⟨(hl.adds_addInstruction hok).1.linked, hl.parameters_addInstruction hparam hok⟩
  literal := by
    rintro q t data i r ⟨hl, rfl⟩ hok
    obtain ⟨module, hm, hins⟩ := Edit.addLiteral_ok.mp hok
    rw [← body_of_module? hm] at hins
    exact ⟨(hl.adds_addLiteral hok).1.linked,
      (inserted_of_ok hl hins).parameters_eq hl (q.parametersEnd_le _) rfl⟩
  nested _ := fun _ _ _ _ => trivial

/-- What is known when a body is to be replayed: its parameters are bound to the inputs, which were
entered before. -/
structure Bound (base : Program) (body : ModuleId) (inputs : List InstrId) (w w₁ : Workspace)
    (values : Renaming) : Prop where
  entered : Entered w.region.module w w₁ inputs
  enough : (base.parameters body).length ≤ inputs.length
  parameters : List.Forall₂ (fun param input => ∃ value, values.image? param = some value ∧
      w₁.region.values.image? input = some value)
    (base.parameters body) (inputs.take (base.parameters body).length)
  others : ∀ i ∉ base.parameters body, values.image? i = w₁.region.values.image? i

/-- **A body is replayed after its parameters are bound.** -/
theorem ends_fuse_bound {Q : List InstrId → Workspace → Prop} (hl : base.Linked)
    (hbase : Adds w.region.module base w.program) (hbody : body ≠ w.region.module)
    (hinputs : ∀ i ∈ inputs, i ∉ base.body body)
    (hrest : ∀ w₁ values, Bound base body inputs w w₁ values →
      (replay w.region.module body mode).Ends ⟨w₁.program, values⟩ fun results t =>
        Q results ⟨t.program, { w₁.region with values := t.values }⟩) :
    (fuse body inputs mode).Ends w Q := by
  rw [fuse, ends_bind]
  refine (ends_offer hbase.linked).mono fun _ w₁ hw₁ => ?_
  rw [ends_theProgram_bind, ends_bind]
  have hparams : (HoldsProgram.program w₁).parameters body = base.parameters body :=
    (hbase.trans hw₁.continues.adds).parameters_eq hl hbody
  rw [hparams]
  refine (ends_bindInputs ((hl.nodup body).filter _) fun i hi hmem =>
    hinputs i hi (List.mem_of_mem_filter hmem)).mono ?_
  rintro _ _ ⟨values, rfl, hlen, hbound, hothers⟩
  rw [ends_theModule_bind, show w₁.region.module = w.region.module from hw₁.continues.module,
    replaying, ends_focus]
  exact hrest w₁ values ⟨hw₁, hlen, hbound, hothers⟩

namespace Bound

variable {w₁ : Workspace} {values : Renaming} (h : Bound base body inputs w w₁ values)

include h

theorem kept (hi : i ∉ base.parameters body) (hvalue : w.region.values.image? i = some value) :
    values.image? i = some value :=
  (h.others i hi).trans (h.entered.kept hvalue)

/-- What is known was known, or is an input or a parameter of the body. -/
theorem only (hvalue : values.image? i = some value) :
    w.region.values.contains i = true ∨ i ∈ inputs ∨ i ∈ base.parameters body := by
  by_cases hparam : i ∈ base.parameters body
  · exact .inr (.inr hparam)
  · obtain hold | ⟨hmem, -⟩ := h.entered.only ((h.others i hparam).symm.trans hvalue)
    · exact .inl (Option.isSome_iff_exists.mpr ⟨value, hold⟩)
    · exact .inr (.inl hmem)

theorem inside (hin : ∀ i value, w.region.values.image? i = some value →
    value ∈ w.program.body w.region.module) :
    ∀ i value, values.image? i = some value → value ∈ w₁.program.body w.region.module := by
  intro i value hvalue
  by_cases hparam : i ∈ base.parameters body
  · obtain ⟨input, -, v, hv, himage⟩ := forall₂_exists h.parameters hparam
    cases hvalue.symm.trans hv
    exact h.entered.inside hin input value himage
  · exact h.entered.inside hin i value ((h.others i hparam).symm.trans hvalue)

variable (hinputs : ∀ i ∈ inputs, i ∉ base.body body)

include hinputs

theorem input (hi : i ∈ inputs) (hvalue : w₁.region.values.image? i = some value) :
    values.image? i = some value :=
  (h.others i fun hmem => hinputs i hi (List.mem_of_mem_filter hmem)).trans hvalue

/-- Of the body, nothing became known but the parameters. -/
theorem before (hi : i ∈ base.body body) (hparam : i ∉ base.parameters body)
    (hvalue : values.image? i = some value) : w.region.values.image? i = some value := by
  rw [h.others i hparam] at hvalue
  exact (h.entered.only hvalue).resolve_right fun hnew => hinputs i hnew.1 hi

end Bound

/-- What a body has become in a region, where its parameters take the values of the inputs. -/
structure Fused (base : Program) (m body : ModuleId) (mode : Replay.Mode)
    (inputs results : List InstrId) (w w' : Workspace) : Prop where
  continues : Continues m w w'
  /-- An input has the value that it had, or else a new parameter that it feeds. -/
  offered : ∀ i ∈ inputs, ∃ value, w'.region.values.image? i = some value ∧
    (w.region.values.image? i = some value ∨
      w.region.values.image? i = none ∧ Declared m w.program w' i value)
  /-- The new parameters of the region are those of the inputs that were not known. -/
  declared : ∃ params, w'.program.parameters m = w.program.parameters m ++ params ∧
    List.Forall₂ (fun i param => w'.region.values.image? i = some param ∧
      Declared m w.program w' i param) (w.region.unknown inputs) params
  enough : (base.parameters body).length ≤ inputs.length
  parameters : List.Forall₂ (fun param input => ∃ value,
      w'.region.values.image? param = some value ∧ w'.region.values.image? input = some value)
    (base.parameters body) (inputs.take (base.parameters body).length)
  kept : ∀ {i value}, i ∉ base.parameters body → w.region.values.image? i = some value →
    w'.region.values.image? i = some value
  only : ∀ {i}, w'.region.values.contains i = true → w.region.values.contains i = true ∨
    i ∈ inputs ∨ i ∈ base.body body ∧ base.hasOp Op.isReturn i = false
  image : Image base (base.body body)
    (fun inst args value => Emission base m w.program w'.program inst args value mode)
    (fun i => base.hasOp Op.isParam i = true ∨ w.region.values.contains i = true)
    w'.region.values
  results : List.Forall₂ (fun i value => w'.region.values.image? i = some value)
    (base.returned body) results
  inside : (∀ i value, w.region.values.image? i = some value → value ∈ w.program.body m) →
    ∀ i value, w'.region.values.image? i = some value → value ∈ w'.program.body m

/-- **Fusing a body makes an image of it.** -/
theorem ends_fuse_image (mode : Replay.Mode) (hp : base.Valid) (hmodule : w.region.module = m)
    (hbase : Adds m base w.program) (hbody : body ≠ m) (hmodules : m ∉ base.references body)
    (hinputs : ∀ i ∈ inputs, i ∉ base.body body)
    (hret : ∀ i ∈ base.body body, base.hasOp Op.isReturn i = true →
      w.region.values.image? i = none) :
    (fuse body inputs mode).Ends w fun results w' =>
      Fused base m body mode inputs results w w' := by
  subst hmodule
  refine ends_fuse_bound hp.toLinked hbase hbody hinputs fun w₁ values hbound => ?_
  have hentered := hbound.entered
  have hdeclares := (preserves_replay (takes_parameters w.region.module
    (w₁.program.parameters w.region.module)) (fun _ _ _ _ => trivial) mode :
      (replay w.region.module body mode).Preserves _)
    ⟨w₁.program, values⟩ ⟨hentered.continues.adds.linked, rfl⟩
  refine ((ends_replayWith (renders_emitter hp hmodules mode)
    (hbase.trans hentered.continues.adds) hp hbody fun i hi hop => ?_).and hdeclares).mono ?_
  · have hparam : i ∉ base.parameters body := fun hmem => by
      rw [hasOp_isReturn_of_isParam (List.mem_filter.mp hmem).2] at hop
      cases hop
    rw [Option.eq_none_iff_forall_ne_some]
    intro value hvalue
    have hknown := hbound.before hinputs hi hparam hvalue
    rw [hret i hi hop] at hknown
    cases hknown
  rintro results t ⟨⟨ht, hresults⟩, _, hsame⟩
  have hcontinues : Continues w.region.module w₁
      ⟨t.program, { w₁.region with values := t.values }⟩ := ⟨rfl, ht.adds, fun _ => rfl⟩
  have hinput : ∀ {i value}, i ∈ inputs → w₁.region.values.image? i = some value →
      t.values.image? i = some value := fun hi hvalue => ht.kept (hbound.input hinputs hi hvalue)
  refine ⟨hentered.continues.trans hcontinues, fun i hi => ?_, ?_, hbound.enough, ?_,
    fun hparam hvalue => ht.kept (hbound.kept hparam hvalue), fun {i} hi => ?_, ?_, hresults,
    fun hin => ht.inside (hbound.inside hin)⟩
  · obtain ⟨value, hvalue, hwhence⟩ := hentered.offered hi
    exact ⟨value, hinput hi hvalue, hwhence.imp_right fun hnew =>
      ⟨hnew.1, hnew.2.mono (.refl hbase.linked _) hcontinues⟩⟩
  · obtain ⟨params, hmore, hall⟩ := hentered.declared
    refine ⟨params, hsame.trans hmore, forall₂_imp_of_mem hall ?_⟩
    rintro i hi param ⟨hvalue, hdecl⟩
    have hmem : i ∈ inputs := List.mem_of_mem_filter (List.mem_eraseDups.mp hi)
    exact ⟨hinput hmem hvalue, hdecl.mono (.refl hbase.linked _) hcontinues⟩
  · refine (forall₂_imp_of_mem hbound.parameters.flip ?_).flip
    rintro x hx param ⟨value, hparam, himage⟩
    exact ⟨value, ht.kept hparam, hinput (List.mem_of_mem_take hx) himage⟩
  · obtain ⟨value, hvalue⟩ := Option.isSome_iff_exists.mp hi
    obtain hvalue | hlater := ht.only hvalue
    · refine (hbound.only hvalue).imp_right fun hrest => hrest.imp_right fun hparam => ?_
      obtain ⟨hmem, hop⟩ := List.mem_filter.mp hparam
      exact ⟨hmem, hasOp_isReturn_of_isParam hop⟩
    · exact .inr (.inr hlater)
  · refine ht.image.mono
      (fun _ _ _ => Emission.mono hentered.continues.adds (.refl ht.adds.linked _))
      fun i hi hknown => ?_
    obtain ⟨value, hvalue⟩ := Option.isSome_iff_exists.mp hknown
    by_cases hparam : i ∈ base.parameters body
    · exact .inl (List.mem_filter.mp hparam).2
    · exact .inr (Option.isSome_iff_exists.mpr
        ⟨value, hbound.before hinputs hi hparam hvalue⟩)

/-- **Replaying a body is a homomorphism.** The instructions of a body that a builder does not know
yet, but for the return, become new instructions of its region: the same operations with the same
modules on the values of their operands, but for what the mode does with operands of differing
dimensions and with pointwise instructions. -/
theorem fuse_image {p : Program} {region : Region} {mode : Replay.Mode}
    (hp : p.verify = .ok ()) (hinputs : ∀ i ∈ inputs, i ∉ p.body body)
    (hbody : body ≠ region.module) (hreferences : region.module ∉ p.references body)
    (hknown : ∀ i ∈ p.body body, region.values.contains i = true →
      p.hasOp Op.isLiteral i = true)
    (hok : fuse body inputs mode ⟨p, region⟩ = .ok results w') :
    Fused p region.module body mode inputs results ⟨p, region⟩ w' := by
  have hvalid := verify_ok.mp hp
  have hends := ends_fuse_image (w := ⟨p, region⟩) mode hvalid rfl
    (.refl hvalid.toLinked region.module) hbody hreferences hinputs fun i hi hret => by
      refine Option.not_isSome_iff_eq_none.mp fun hmem => ?_
      have hliteral := hknown i hi hmem
      rw [(hasOp_inner_of_isReturn hret).2] at hliteral
      cases hliteral
  rw [Ends, hok] at hends
  exact hends

/-- A body of one parameter and a constant, two values for it, and a module to fill. -/
def biased : Program :=
  (do
    let body ← Edit.createModule "f"
    let x ← Edit.addParameter body "x0" ⟨.f32, [2], [1]⟩
    let bias ← Edit.addLiteral body ⟨.f32, [2], [1]⟩ (.f32 [⟨0⟩, ⟨0⟩])
    let sum ← Edit.addInstruction body (.binary .add) [x, bias] []
    let _ ← Edit.addReturn body [sum]
    let _ ← Edit.addParameter main "a" ⟨.f32, [2], [1]⟩
    let _ ← Edit.addParameter main "b" ⟨.f32, [2], [1]⟩
    let _ ← Edit.createModule "r" : Edit Unit).after .empty

/-- The sum is made in the region on a parameter for its input and a copy of the constant. -/
theorem fuse_image_biased : biased.verify = .ok () ∧ ∃ results w,
    fuse ⟨1⟩ [⟨4⟩] .commonShape ⟨biased, .onModule ⟨2⟩⟩ = .ok results w ∧
      Fused biased ⟨2⟩ ⟨1⟩ .commonShape [⟨4⟩] results ⟨biased, .onModule ⟨2⟩⟩ w := by
  have hv : biased.verify = .ok () := by decide +kernel
  obtain ⟨results, w, hok, -⟩ : ∃ results w,
      fuse ⟨1⟩ [⟨4⟩] .commonShape ⟨biased, .onModule ⟨2⟩⟩ = .ok results w ∧ True := by
    decide +kernel
  exact ⟨hv, results, w, hok, fuse_image hv (by decide +kernel) (by decide) (by decide +kernel)
    (by decide +kernel) hok⟩

/-! ## The same body again -/

/-- What a builder knows but for returns is not built again. -/
theorem ends_fuse_known (mode : Replay.Mode) (hp : base.Valid) (hmodule : w.region.module = m)
    (hbase : Adds m base w.program) (hbody : body ≠ m)
    (hinputs : ∀ i ∈ inputs, i ∉ base.body body)
    (hall : ∀ i ∈ base.body body, base.hasOp Op.isReturn i = false →
      w.region.values.contains i = true) :
    (fuse body inputs mode).Ends w fun _ w' => ∀ j ∈ w'.program.body m,
      j ∈ w.program.body m ∨ w'.program.hasOp Op.isParam j = true := by
  subst hmodule
  have hl := hp.toLinked
  refine ends_fuse_bound hl hbase hbody hinputs fun w₁ values hbound => ?_
  have hentered := hbound.entered
  rw [replay]
  refine (ends_replayWith_known hl hbody (hbase.trans hentered.continues.adds)
    fun i hi hret => ?_).mono ?_
  · by_cases hparam : i ∈ base.parameters body
    · obtain ⟨_, -, v, hv, -⟩ := forall₂_exists hbound.parameters hparam
      exact Option.isSome_iff_exists.mpr ⟨v, hv⟩
    · obtain ⟨value, hvalue⟩ := Option.isSome_iff_exists.mp (hall i hi hret)
      exact Option.isSome_iff_exists.mpr ⟨value, hbound.kept hparam hvalue⟩
  · rintro _ _ rfl
    exact hentered.added

theorem Fused.contains {mode : Replay.Mode} (h : Fused base m body mode inputs results w w')
    (hl : base.Linked) (hi : i ∈ base.body body) (hret : base.hasOp Op.isReturn i = false) :
    w'.region.values.contains i = true := by
  by_cases hparam : i ∈ base.parameters body
  · obtain ⟨_, -, value, hvalue, -⟩ := forall₂_exists h.parameters hparam
    exact Option.isSome_iff_exists.mpr ⟨value, hvalue⟩
  by_cases hknown : w.region.values.contains i = true
  · obtain ⟨value, hvalue⟩ := Option.isSome_iff_exists.mp hknown
    exact Option.isSome_iff_exists.mpr ⟨value, h.kept hparam hvalue⟩
  · obtain ⟨inst, hinst, -⟩ := hl.owned hi
    have hop : ¬ base.hasOp Op.isParam i = true := fun hop =>
      hparam (List.mem_filter.mpr ⟨hi, hop⟩)
    rw [hasOp, hinst, Option.any_some] at hret
    obtain ⟨_, value, -, hvalue, -⟩ := h.image i hi inst hinst (not_or.mpr ⟨hop, hknown⟩) hret
    exact Option.isSome_iff_exists.mpr ⟨value, hvalue⟩

/-- **A second call on the same body computes nothing.** It gives the values that the first call
gave, whatever its own inputs are, but for parameters of the body that the body returns. -/
theorem fuse_again {p : Program} {region : Region} {mode mode' : Replay.Mode}
    {a b results' : List InstrId} (hp : p.verify = .ok ()) (hbody : body ≠ region.module)
    (hreferences : region.module ∉ p.references body)
    (hinputs : ∀ i ∈ a ++ b, i ∉ p.body body)
    (hknown : ∀ i ∈ p.body body, p.hasOp Op.isReturn i = true → region.values.contains i = false)
    (hok : fuse body a mode ⟨p, region⟩ = .ok results w)
    (hok' : fuse body b mode' w = .ok results' w') :
    (∀ j ∈ w'.program.body region.module,
      j ∈ w.program.body region.module ∨ w'.program.hasOp Op.isParam j = true) ∧
    ∀ (k : Nat) i, (p.returned body)[k]? = some i → ∃ value, results'[k]? = some value ∧
      if p.hasOp Op.isParam i then ∃ (n : Nat) (input : InstrId),
        (p.parameters body)[n]? = some i ∧ b[n]? = some input ∧
          w'.region.values.image? input = some value
      else results[k]? = some value := by
  have hvalid := verify_ok.mp hp
  obtain ⟨ha, hb⟩ := List.forall_mem_append.mp hinputs
  have hfirst := ends_fuse_image (w := ⟨p, region⟩) mode hvalid rfl
    (.refl hvalid.toLinked region.module) hbody hreferences ha fun i hi hret =>
      Option.not_isSome_iff_eq_none.mp (Bool.eq_false_iff.mp (hknown i hi hret))
  rw [Ends, hok] at hfirst
  have hmodule : w.region.module = region.module := hfirst.continues.module
  have hall : ∀ i ∈ p.body body, p.hasOp Op.isReturn i = false →
      w.region.values.contains i = true := fun i hi => hfirst.contains hvalid.toLinked hi
  have hknown' : ∀ i ∈ p.body body, p.hasOp Op.isReturn i = true →
      w.region.values.image? i = none := by
    intro i hi hret
    refine Option.not_isSome_iff_eq_none.mp fun hmem => ?_
    obtain hold | hmem | ⟨-, hnot⟩ := hfirst.only hmem
    · exact Bool.eq_false_iff.mp (hknown i hi hret) hold
    · exact ha i hmem hi
    · rw [hret] at hnot
      cases hnot
  have hsecond := ends_fuse_image mode' hvalid hmodule hfirst.continues.adds hbody
    hreferences hb hknown'
  have hnothing := ends_fuse_known mode' hvalid hmodule hfirst.continues.adds hbody hb hall
  rw [Ends, hok'] at hsecond hnothing
  refine ⟨hnothing, fun k i hk => ?_⟩
  obtain ⟨hi, hret⟩ := hvalid.returned_inner (List.mem_of_getElem? hk)
  obtain ⟨value, hvalue, himage⟩ := forall₂_getElem? hsecond.results hk
  refine ⟨value, hvalue, ?_⟩
  split
  · next hparam =>
    obtain ⟨n, hn⟩ := List.getElem?_of_mem (List.mem_filter.mpr ⟨hi, hparam⟩)
    obtain ⟨input, hinput, v, hv, hinputValue⟩ := forall₂_getElem? hsecond.parameters hn
    cases himage.symm.trans hv
    refine ⟨n, input, hn, ?_, hinputValue⟩
    rw [List.getElem?_take] at hinput
    split at hinput
    · exact hinput
    · cases hinput
  · next hparam =>
    obtain ⟨v, hv, hfirstValue⟩ := forall₂_getElem? hfirst.results hk
    have hnot : i ∉ p.parameters body := fun hmem => hparam (List.mem_filter.mp hmem).2
    cases himage.symm.trans (hsecond.kept hnot hfirstValue)
    exact hv

/-- The body on one value and then on the other one. -/
def fuseBoth : Building (List InstrId × List InstrId) :=
  return (← fuse ⟨1⟩ [⟨4⟩] .plain, ← fuse ⟨1⟩ [⟨5⟩] .plain)

theorem fuseBoth_ok {results results' : List InstrId} :
    fuseBoth w = .ok (results, results') w'' ↔ ∃ w', fuse ⟨1⟩ [⟨4⟩] .plain w = .ok results w' ∧
      fuse ⟨1⟩ [⟨5⟩] .plain w' = .ok results' w'' := by
  simp only [fuseBoth, bind_ok, pure_ok, Prod.mk.injEq]
  constructor
  · rintro ⟨_, w', hok, _, _, hok', ⟨rfl, rfl⟩, rfl⟩
    exact ⟨w', hok, hok'⟩
  · rintro ⟨w', hok, hok'⟩
    exact ⟨results, w', hok, results', w'', hok', ⟨rfl, rfl⟩, rfl⟩

/-- Nothing is built for the second value. -/
theorem fuse_again_biased : biased.verify = .ok () ∧ ∃ results w results' w',
    fuse ⟨1⟩ [⟨4⟩] .plain ⟨biased, .onModule ⟨2⟩⟩ = .ok results w ∧
      fuse ⟨1⟩ [⟨5⟩] .plain w = .ok results' w' ∧
      ∀ j ∈ w'.program.body ⟨2⟩,
        j ∈ w.program.body ⟨2⟩ ∨ w'.program.hasOp Op.isParam j = true := by
  have hv : biased.verify = .ok () := by decide +kernel
  obtain ⟨⟨results, results'⟩, w', hboth, -⟩ : ∃ both w',
      fuseBoth ⟨biased, .onModule ⟨2⟩⟩ = .ok both w' ∧ True := by decide +kernel
  obtain ⟨w, hok, hok'⟩ := fuseBoth_ok.mp hboth
  exact ⟨hv, results, w, results', w', hok, hok', (fuse_again hv (by decide) (by decide +kernel)
    (by decide +kernel) (by decide +kernel) hok hok').1⟩

/-- **The second call gives the sum of the first one**, which reads the parameter of the first value
and not that of the second one. -/
theorem first_sum_again : biased.verify = .ok () ∧ ∃ w w' sum a b,
    fuse ⟨1⟩ [⟨4⟩] .plain ⟨biased, .onModule ⟨2⟩⟩ = .ok [sum] w ∧
      fuse ⟨1⟩ [⟨5⟩] .plain w = .ok [sum] w' ∧ w'.region.values.image? ⟨4⟩ = some a ∧
      w'.region.values.image? ⟨5⟩ = some b ∧ w'.program.Uses sum a ∧ ¬ w'.program.Uses sum b := by
  obtain ⟨_, w', hboth, rfl, hrest⟩ : ∃ both w', fuseBoth ⟨biased, .onModule ⟨2⟩⟩ = .ok both w' ∧
      both = ([⟨8⟩], [⟨8⟩]) ∧ w'.region.values.image? ⟨4⟩ = some ⟨6⟩ ∧
        w'.region.values.image? ⟨5⟩ = some ⟨9⟩ ∧ w'.program.Uses ⟨8⟩ ⟨6⟩ ∧
          ¬ w'.program.Uses ⟨8⟩ ⟨9⟩ := by decide +kernel
  obtain ⟨w, hok, hok'⟩ := fuseBoth_ok.mp hboth
  exact ⟨by decide +kernel, w, w', ⟨8⟩, ⟨6⟩, ⟨9⟩, hok, hok', hrest⟩

end Building

end OffloadFusion
