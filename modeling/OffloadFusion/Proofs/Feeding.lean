import OffloadFusion.Proofs.Filling

/-!
# Parameters and anchors of an open region

A `Site` is the place where a region is built. `Building.Open` says that the region is still open,
and that each of its parameters is bound to an instruction before the root. What the region holds
and knows only grows (`Later`).

* `Open.completes_addNamedInput`, `Open.completes_addInput`: parameters under new names.
* **`Open.completes_fuseAnchor`**: an anchor with the chains above its operands.
-/

namespace OffloadFusion

open OffloadFusion.Action Program

/-! ## Free names -/

theorem numbered_injective {stem : String} {a b : Nat}
    (h : stem ++ toString a = stem ++ toString b) : a = b := by
  have h : toString a = toString b := by simpa using h
  have hdigits : Nat.toDigits 10 a = Nat.toDigits 10 b := by
    simpa [toString, Nat.repr] using congrArg String.toList h
  rw [← Nat.ofDigitChars_ten_toDigits (n := a), hdigits, Nat.ofDigitChars_ten_toDigits]

/-- Among more numbered names than are taken, one is free. -/
theorem exists_free (stem : String) (start : Nat) {count : Nat} {taken : List String}
    (h : taken.length < count) : ∃ n < count, stem ++ toString (start + n) ∉ taken := by
  by_contra hnone
  push Not at hnone
  have hn : ((List.range count).map fun n => stem ++ toString (start + n)).Nodup :=
    List.nodup_range.map fun a b hab => Nat.add_left_cancel (numbered_injective hab)
  have hsub : ((List.range count).map fun n => stem ++ toString (start + n)) ⊆ taken := by
    rintro name hname
    obtain ⟨n, hlt, rfl⟩ := List.mem_map.mp hname
    exact hnone n (List.mem_range.mp hlt)
  have hle := (List.subperm_of_subset hn hsub).length_le
  rw [List.length_map, List.length_range] at hle
  omega

/-! ## Sites -/

/-- Where a region is built: the program around it, its module, the instruction that its call is to
replace, the instructions that may feed it, those that have a value there only as parameters that
they feed, and the types that values of each instruction may have there. -/
structure Site where
  program : Program
  module : ModuleId
  root : InstrId
  sources : InstrId → Prop
  threaded : InstrId → Prop
  admits : InstrId → ValueType → Prop

namespace Site

/-- The instruction may feed the region, and is a tensor. -/
def Feeds (S : Site) (outer : InstrId) (t : TensorType) : Prop :=
  S.sources outer ∧ S.program.HasType outer (.tensor t)

/-- The module lists the value, which may stand for the instruction. -/
def Stands (S : Site) (q : Program) (i value : InstrId) : Prop :=
  ∃ type, S.admits i type ∧ q.Held S.module value type

theorem Stands.fills {S : Site} {q r : Program} {i value : InstrId} (h : S.Stands q i value)
    (hr : Fills S.module q r) : S.Stands r i value := by
  obtain ⟨type, hadmits, hheld⟩ := h
  exact ⟨type, hadmits, hr.held hheld⟩

/-- The program around is valid and its sizes can be computed. What may feed the region stands
before the root, and so may its operands. -/
structure Sound (S : Site) : Prop where
  valid : S.program.Valid
  sized : S.program.Sized
  before : ∀ {i}, S.sources i → Before (S.program.body main) i S.root
  closed : ∀ {i x}, S.sources i → S.program.Uses i x → S.sources x

/-- All that stands before the root may feed a region there. -/
theorem sound_before {p : Program} {m : ModuleId} {root : InstrId} {threaded : InstrId → Prop}
    {admits : InstrId → ValueType → Prop} (hp : p.Valid) (hsized : p.Sized) :
    Sound ⟨p, m, root, fun i => Before (p.body main) i root, threaded, admits⟩ :=
  ⟨hp, hsized, id, fun hi hx => (hp.before_of_uses hi.left_mem hx).trans (hp.nodup main) hi⟩

end Site

namespace Building

variable {S : Site} {names : List String} {w w' w'' : Workspace} {i outer : InstrId}
  {t u : TensorType} {op : Op} {inputs args : List InstrId} {type : ValueType}
  {types : List ValueType}

/-- A parameter of the region is bound to the instruction. -/
def Fed (S : Site) (w : Workspace) (outer : InstrId) : Prop :=
  ∃ param ∈ w.program.parameters S.module, w.region.bindings.image? param = some outer

/-- The region is open. Its parameters have the given names, and each is bound to an instruction
before the root, whose tensor it takes in some layout. -/
structure Open (S : Site) (names : List String) (w : Workspace) : Prop where
  module : w.region.module = S.module
  unfinished : Program.Open S.program S.module w.program
  named : List.Forall₂ (fun i name => w.program.hasOp (fun op => op.paramName? = some name) i)
    (w.program.parameters S.module) names
  bound : ∀ i ∈ w.program.parameters S.module, ∃ outer t u,
    w.region.bindings.image? i = some outer ∧ S.Feeds outer t ∧ t.Alike u ∧
      w.program.Held S.module i (.tensor u)
  knows : ∀ i value, w.region.values.image? i = some value → S.Stands w.program i value
  fed : ∀ i, S.threaded i → w.region.values.contains i → Fed S w i

/-- The region holds, knows and is fed by what it held, knew and was fed by before. -/
structure Later (S : Site) (w w' : Workspace) : Prop where
  fills : Fills S.module w.program w'.program
  known : ∀ i, w.region.values.contains i → w'.region.values.contains i
  fed : ∀ i, Fed S w i → Fed S w' i

namespace Later

theorem refl (S : Site) (w : Workspace) : Later S w w := ⟨.refl _ _, fun _ => id, fun _ => id⟩

theorem trans (h : Later S w w') (h' : Later S w' w'') : Later S w w'' :=
  ⟨h.fills.trans h'.fills, fun i hi => h'.known i (h.known i hi), fun i hi => h'.fed i (h.fed i hi)⟩

end Later

/-- A step that leaves the region open and gives a value of the type. -/
structure Yields (S : Site) (names : List String) (w : Workspace) (type : ValueType) (i : InstrId)
    (w' : Workspace) : Prop where
  isOpen : Open S names w'
  later : Later S w w'
  held : w'.program.Held S.module i type

theorem Yields.after (h : Later S w w') (h' : Yields S names w' type i w'') :
    Yields S names w type i w'' := ⟨h'.isOpen, h.trans h'.later, h'.held⟩

theorem mem_parameters {p : Program} {m : ModuleId} (h : i ∈ p.parameters m) : i ∈ p.body m :=
  List.mem_of_mem_filter h

namespace Open

section

variable (h : Open S names w)

include h

theorem completes_module_bind {α : Type} {f : ModuleId → Building α} {Q : α → Workspace → Prop}
    (hf : (f S.module).Completes w Q) : (Building.module >>= f).Completes w Q := by
  show (f w.region.module).Completes w Q
  rwa [h.module]

theorem completesIff_module_bind {α : Type} {f : ModuleId → Building α} {B : Prop}
    {Q : α → Workspace → Prop} (hf : (f S.module).CompletesIff B w Q) :
    (Building.module >>= f).CompletesIff B w Q := by
  show (f w.region.module).CompletesIff B w Q
  rwa [h.module]

theorem ne_module {k : ModuleId} {module : Module} (hk : S.program.module? k = some module) :
    k ≠ S.module := by
  rintro rfl
  rw [h.unfinished.gone] at hk
  cases hk

theorem parameter?_eq_none {name : String} (hname : name ∉ names) :
    w.program.parameter? S.module name = none := by
  refine List.find?_eq_none.mpr fun i hi hop => ?_
  obtain ⟨name', hmem, hop'⟩ := forall₂_exists h.named hi
  obtain ⟨inst, hinst, hn⟩ := hasOp_iff.mp hop
  obtain ⟨inst', hinst', hn'⟩ := hasOp_iff.mp hop'
  rw [hinst] at hinst'
  cases hinst'
  rw [decide_eq_true_eq] at hn hn'
  rw [hn] at hn'
  cases hn'
  exact hname hmem

theorem emitted {r : Program} (hr : Emitted S.program S.module w.program type i r) :
    Yields S names w type i { w with program := r } := by
  have hcore : ∀ {j}, j ∈ w.program.parameters S.module → SameCore w.program r j :=
    fun hj => hr.fills.core (mem_parameters hj)
  have hfed : ∀ j, Fed S w j → Fed S { w with program := r } j :=
    fun j ⟨param, hmem, hj⟩ => ⟨param, hr.parameters.symm ▸ hmem, hj⟩
  refine ⟨⟨h.module, hr.isOpen, ?_, ?_, fun j value hj => (h.knows j value hj).fills hr.fills,
    fun j ht hj => hfed j (h.fed j ht hj)⟩, ⟨hr.fills, fun _ => id, hfed⟩, hr.held⟩
  · rw [hr.parameters]
    exact forall₂_imp_of_mem h.named fun j hj name hop => (hcore hj).hasOp _ ▸ hop
  · rw [hr.parameters]
    intro j hj
    obtain ⟨outer, t, u, ho, hfeeds, hu, hheld⟩ := h.bound j hj
    exact ⟨outer, t, u, ho, hfeeds, hu, hr.fills.held hheld⟩

theorem completes_emitted {e : Edit InstrId}
    (he : e.Completes w.program (Emitted S.program S.module w.program type)) :
    (liftM e : Building InstrId).Completes w (Yields S names w type) :=
  completes_edit.mpr (he.mono fun _ _ hr => h.emitted hr)

theorem completes_addInstruction (hop : op.isReturn = false) (hparam : op.isParam = false)
    (ht : List.Forall₂ (w.program.Held S.module) args types)
    (hinfer : op.inferType types [] = .ok type) :
    (liftM (Edit.addInstruction S.module op args []) : Building InstrId).Completes w
      (Yields S names w type) :=
  h.completes_emitted (h.unfinished.completes_addInstruction hop hparam ht hinfer)

/-! ### Parameters -/

/-- **A parameter for an instruction before the root.** -/
theorem completes_addNamedInput (hS : S.Sound) {name : String}
    (hname : w.program.parameter? S.module name = none) (hfeeds : S.Feeds outer t) :
    ∃ u, t.asStandard = .ok u ∧ (addNamedInput outer name).Completes w fun param w' =>
      Yields S (names ++ [name]) w (.tensor u) param w' ∧ Fed S w' outer := by
  obtain ⟨u, hu⟩ := (hS.sized.tensor hfeeds.2).standard
  refine ⟨u, hu, ?_⟩
  have htype := tensorOf_ok.mpr (h.unfinished.hasType hS.valid.toLinked hfeeds.2)
  rw [addNamedInput, completes_theProgram_bind, completes_bind]
  refine (completes_lift_graph htype).mpr (h.completes_module_bind ?_)
  rw [completes_bind]
  refine (completes_lift_checked hu).mpr ?_
  rw [completes_bind, completes_edit]
  refine (h.unfinished.completes_addParameter hname u).mono
    fun param r ⟨hopen, hfills, hparams, hheld, hnew, hop⟩ => ?_
  rw [completes_bind, completes_modify, completes_pure]
  have hcore : ∀ {j}, j ∈ w.program.parameters S.module → SameCore w.program r j :=
    fun hj => hfills.core (mem_parameters hj)
  have hbind : ∀ {j outer'}, j ∈ w.program.parameters S.module →
      w.region.bindings.image? j = some outer' →
        (w.region.bindParam param outer).bindings.image? j = some outer' := by
    intro j outer' hj ho
    rw [Region.image?_bindParam, if_neg, ho]
    rintro rfl
    exact hnew (mem_parameters hj)
  have hlast : (w.region.bindParam param outer).bindings.image? param = some outer := by
    rw [Region.image?_bindParam, if_pos rfl]
  have hfed : ∀ j, Fed S w j → Fed S ⟨r, w.region.bindParam param outer⟩ j :=
    fun j ⟨x, hx, ho⟩ => ⟨x, hparams.symm ▸ List.mem_append_left _ hx, hbind hx ho⟩
  refine ⟨⟨⟨h.module, hopen, ?_, fun j hj => ?_,
    fun j value hj => (h.knows j value hj).fills hfills, fun j ht hj => hfed j (h.fed j ht hj)⟩,
    ⟨hfills, fun _ => id, hfed⟩, hheld⟩, param,
    hparams.symm ▸ List.mem_append_right _ (List.mem_singleton_self param), hlast⟩
  · show List.Forall₂ _ (r.parameters S.module) _
    rw [hparams]
    refine List.rel_append (forall₂_imp_of_mem h.named fun j hj name hop => ?_) (.cons ?_ .nil)
    · exact (hcore hj).hasOp _ ▸ hop
    · show r.hasOp _ param = true
      rw [hop]
      exact decide_eq_true rfl
  · have hj : j ∈ r.parameters S.module := hj
    show ∃ outer' t u, (w.region.bindParam param outer).bindings.image? j = some outer' ∧ _
    rw [hparams] at hj
    obtain hold | hj := List.mem_append.mp hj
    · obtain ⟨outer', t', u', ho, hfeeds', hu', hheld'⟩ := h.bound j hold
      exact ⟨outer', t', u', hbind hold ho, hfeeds', hu', hfills.held hheld'⟩
    · obtain rfl := List.mem_singleton.mp hj
      exact ⟨outer, t, u, hlast, hfeeds, (TensorType.restrided_asStandard hu).alike, hheld⟩

theorem knowing {value : InstrId} (hvalue : S.Stands w.program i value)
    (hfed : S.threaded i → Fed S w i) :
    Open S names { w with region := w.region.know i value } ∧
      Later S w { w with region := w.region.know i value } ∧
        (w.region.know i value).values.contains i := by
  have himage : ∀ j, (w.region.know i value).values.image? j =
      if j = i then some value else w.region.values.image? j := fun j => Renaming.image?_insert ..
  refine ⟨⟨h.module, h.unfinished, h.named, h.bound, fun j value' hj => ?_, fun j ht hj => ?_⟩,
    ⟨.refl _ _, fun j hj => ?_, fun _ => id⟩, ?_⟩
  · exact Renaming.related_insert (R := S.Stands w.program) hvalue h.knows j value' hj
  · have hj : ((w.region.know i value).values.image? j).isSome := hj
    rw [himage] at hj
    split at hj
    · next he => exact he ▸ hfed (he ▸ ht)
    · exact h.fed j ht hj
  · rw [Renaming.contains, himage]
    split
    · rfl
    · exact hj
  · rw [Renaming.contains, himage, if_pos rfl]
    rfl

theorem completes_know {value : InstrId} (hvalue : S.Stands w.program i value)
    (hfed : S.threaded i → Fed S w i) :
    (know i value).Completes w fun _ w' =>
      Open S names w' ∧ Later S w w' ∧ w'.region.values.contains i := by
  rw [know, completes_modify]
  exact h.knowing hvalue hfed

theorem freeInputName_total : ∃ name, freeInputName w.program S.module = .ok name ∧
    w.program.parameter? S.module name = none := by
  have hlen := h.named.length_eq
  obtain ⟨n, hlt, hfree⟩ := exists_free "x" (w.program.parameters S.module).length
    (show names.length < (w.program.parameters S.module).length + 1 by omega)
  rw [freeInputName]
  cases hfind : ((List.range ((w.program.parameters S.module).length + 1)).map fun n =>
      "x" ++ toString ((w.program.parameters S.module).length + n)).find? fun name =>
        (w.program.parameter? S.module name).isNone with
  | some name =>
    exact ⟨name, rfl, Option.isNone_iff_eq_none.mp (List.find?_some (p := fun name =>
      (w.program.parameter? S.module name).isNone) hfind)⟩
  | none =>
    refine absurd (List.find?_eq_none.mp hfind _ (List.mem_map.mpr
      ⟨n, List.mem_range.mpr hlt, rfl⟩)) ?_
    rw [h.parameter?_eq_none hfree]
    decide

theorem completes_addInput (hS : S.Sound) (hfeeds : S.Feeds outer t)
    (hadmits : ∀ u, t.asStandard = .ok u → S.admits outer (.tensor u)) :
    (addInput outer).Completes w fun _ w' => (∃ name, Open S (names ++ [name]) w') ∧
      Later S w w' ∧ w'.region.values.contains outer := by
  obtain ⟨name, hname, hnone⟩ := h.freeInputName_total
  obtain ⟨u, hu, hparam⟩ := h.completes_addNamedInput hS hnone hfeeds
  rw [addInput, completes_theProgram_bind]
  refine h.completes_module_bind ?_
  rw [completes_bind]
  refine (completes_lift_checked hname).mpr ?_
  rw [completes_bind]
  refine hparam.mono fun param w' ⟨hw', hfed⟩ => ?_
  rw [completes_bind]
  refine (hw'.isOpen.completes_know ⟨_, hadmits u hu, hw'.held⟩ fun _ => hfed).mono
    fun _ w'' ⟨hopen, hlater, hknown⟩ => ?_
  rw [completes_pure]
  exact ⟨⟨name, hopen⟩, hw'.later.trans hlater, hknown⟩

/-! ### Chains -/

theorem walk_total (hS : S.Sound) (hfeeds : S.Feeds i t) (throughSlice : Bool) :
    ∃ chain t₀, ReshapeChain.walk w.program i throughSlice = .ok chain ∧
      S.Feeds chain.upper t₀ ∧ ReshapeChain.Carries chain.ops.reverse t₀ t := by
  have hl := hS.valid.toLinked
  have hbody := h.unfinished.body_main
  have hback : ∀ {j type}, j ∈ w.program.body main → w.program.HasType j type →
      S.program.HasType j type := fun hj ht =>
    (h.unfinished.isLocal.core h.unfinished.inner.symm (hbody ▸ hj)).symm.hasType ht
  have hmem : i ∈ w.program.body main := hbody.symm ▸ (hS.before hfeeds.1).left_mem
  obtain ⟨chain, hwalk, hupper, hdepends, t₀, ht₀, hcarries⟩ := ReshapeChain.walk_total
    h.unfinished.steady (fun j hj t ht => hS.sized.tensor (hback hj ht)) throughSlice hmem
    (h.unfinished.hasType hl hfeeds.2)
  have hsource : S.sources chain.upper ∧ chain.upper ∈ w.program.body main := by
    refine hdepends.of_closed (C := fun j => S.sources j ∧ j ∈ w.program.body main)
      (fun {j x} ⟨hj, hmem⟩ huses => ?_) ⟨hfeeds.1, hmem⟩
    have hcore := h.unfinished.isLocal.core h.unfinished.inner.symm (hbody ▸ hmem)
    exact ⟨hS.closed hj (hcore.symm.uses huses), h.unfinished.steady.mem_body_of_uses hmem huses⟩
  exact ⟨chain, t₀, hwalk, ⟨hsource.1, hback hupper ht₀⟩, hcarries⟩

theorem completes_replay {chain : ReshapeChain} {base : InstrId}
    (hbase : w.program.Held S.module base (.tensor t))
    (hstack : ReshapeChain.Stacks chain.ops.reverse t u) :
    (liftM (chain.replay S.module base) : Building InstrId).Completes w
      (Yields S names w (.tensor u)) :=
  h.completes_emitted (h.unfinished.completes_stack hbase hstack)

/-- **The tensor above an instruction before the root becomes a parameter, on which the chain can be
built again.** -/
theorem completes_thread_bind {α : Type} {Q : α → Workspace → Prop} (hS : S.Sound)
    (hfeeds : S.Feeds i t) {name : String} (hname : name ∉ names)
    {f : ReshapeChain → InstrId → Building α}
    (hf : ∀ chain param w' u₀ u, Yields S (names ++ [name]) w (.tensor u₀) param w' →
      ReshapeChain.Stacks chain.ops.reverse u₀ u → t.Restrided u → (f chain param).Completes w' Q) :
    (do
      let chain ← ReshapeChain.walk (← theProgram) i true
      let param ← addNamedInput chain.upper name
      f chain param : Building α).Completes w Q := by
  obtain ⟨chain, t₀, hwalk, hupper, hcarries⟩ := h.walk_total hS hfeeds true
  obtain ⟨u₀, hu₀, hparam⟩ := h.completes_addNamedInput hS (h.parameter?_eq_none hname) hupper
  obtain ⟨u, hstack, hu⟩ := hcarries u₀ (TensorType.restrided_asStandard hu₀)
  rw [completes_theProgram_bind, completes_bind]
  refine (completes_lift_checked hwalk).mpr ?_
  rw [completes_bind]
  exact hparam.mono fun param w' ⟨hw', _⟩ => hf chain param w' u₀ u hw' hstack hu

end

/-- The names of the parameters of an anchor from a number on. -/
def threadNames (n count : Nat) : List String :=
  (List.range' n count).map fun k => "y" ++ toString k

/-- **The operands of an anchor are replayed from parameters.** -/
theorem completes_threadInputs (h : Open S names w) (hS : S.Sound) {n : Nat}
    {ts : List TensorType} (hinputs : List.Forall₂ S.Feeds inputs ts)
    (hnames : ∀ k ≥ n, "y" ++ toString k ∉ names) :
    (threadInputs n inputs).Completes w fun args w' =>
      Open S (names ++ threadNames n inputs.length) w' ∧ Later S w w' ∧
        ∃ us, List.Forall₂ TensorType.Restrided ts us ∧
          List.Forall₂ (w'.program.Held S.module) args (us.map .tensor) := by
  induction hinputs generalizing n names w with
  | nil =>
    rw [threadInputs, completes_pure]
    exact ⟨(List.append_nil names).symm ▸ h, .refl S w, [], .nil, .nil⟩
  | @cons input t inputs ts hfeeds _ ih =>
    rw [threadInputs]
    refine h.completes_thread_bind hS hfeeds (hnames n (Nat.le_refl n))
      fun chain param w₁ u₀ u h₁ hstack hu => h₁.isOpen.completes_module_bind ?_
    rw [completes_bind]
    refine (h₁.isOpen.completes_replay h₁.held hstack).mono fun value w' hw' => ?_
    rw [completes_bind]
    have hnames' : ∀ k ≥ n + 1, "y" ++ toString k ∉ names ++ ["y" ++ toString n] := by
      intro k hk hmem
      obtain hmem | hmem := List.mem_append.mp hmem
      · exact hnames k (by omega) hmem
      · have := numbered_injective (List.mem_singleton.mp hmem)
        omega
    refine (ih hw'.isOpen hnames').mono fun args w'' ⟨hopen, hlater, us, hus, hargs⟩ => ?_
    rw [completes_pure]
    refine ⟨?_, (h₁.later.trans hw'.later).trans hlater, u :: us, .cons hu hus,
      .cons (hlater.fills.held hw'.held) hargs⟩
    rwa [List.append_assoc, List.singleton_append] at hopen

/-- **An anchor is replayed with the chains above its operands.** -/
theorem completes_fuseAnchor (h : Open S names w) (hS : S.Sound) {ts : List TensorType}
    (hop : op.isReturn = false) (hparam : op.isParam = false)
    (hinputs : List.Forall₂ S.Feeds inputs ts)
    (hinfer : ∀ us, List.Forall₂ TensorType.Restrided ts us →
      op.inferType (us.map .tensor) [] = .ok type)
    (hnames : ∀ k : Nat, "y" ++ toString k ∉ names) :
    (fuseAnchor op inputs).Completes w
      (Yields S (names ++ threadNames 0 inputs.length) w type) := by
  rw [fuseAnchor, completes_bind]
  refine (h.completes_threadInputs hS hinputs fun k _ => hnames k).mono
    fun args w' ⟨hopen, hlater, us, hus, hargs⟩ => hopen.completes_module_bind ?_
  exact (hopen.completes_addInstruction hop hparam hargs (hinfer us hus)).mono
    fun _ _ hv => hv.after hlater

end Open

end Building

end OffloadFusion
