import OffloadFusion.Proofs.Completing

/-!
# The region of an anchor, to the letter

The operands of an anchor are threaded into its region: the chain above each of them is replayed on
a parameter of its own. What the region then lists is known in full.

* `SameForm`: an instruction is the same operation on the same operands.
* `Node`, `Stack`: an operation on operands, and operations on top of each other.
* `Views`: the chain above an instruction, as the operations by which it is replayed.
* `Beside`, `Filling`: a module is filled, and all else stays as it was.
* **`Tracing.ends_fuseAnchor`**: the parameters, the chains and the anchor.
* `Tracing.ends_finish`: the return, and the instruction that feeds each parameter.
-/

namespace OffloadFusion

open OffloadFusion.Action

/-- What an instruction computes, and where. -/
def Instruction.form (inst : Instruction) : Op × List InstrId × List ModuleId × ModuleId :=
  (inst.op, inst.inputs, inst.modules, inst.owner)

namespace Program

variable {p q r : Program} {i j x base top upper : InstrId} {m : ModuleId} {n : Nat} {op : Op}
  {inst : Instruction} {inputs is params rest : List InstrId} {ops : List Op}
  {modules : List ModuleId}

/-! ## Operations on operands -/

/-- The instruction is the same operation of the same module on the same operands in both programs,
whatever types and consumers it has. -/
def SameForm (p q : Program) (i : InstrId) : Prop :=
  (q.instr? i).map Instruction.form = (p.instr? i).map Instruction.form

namespace SameForm

theorem trans {r : Program} (h : SameForm p q i) (h' : SameForm q r i) : SameForm p r i :=
  Eq.trans h' h

theorem exists_instr (h : SameForm p q i) (hi : p.instr? i = some inst) :
    ∃ inst', q.instr? i = some inst' ∧ inst'.op = inst.op ∧ inst'.inputs = inst.inputs ∧
      inst'.modules = inst.modules ∧ inst'.owner = inst.owner := by
  rw [SameForm, hi] at h
  cases hi' : q.instr? i with
  | none =>
    rw [hi'] at h
    cases h
  | some inst' =>
    rw [hi'] at h
    simpa [Instruction.form] using h

theorem uses (h : SameForm p q i) : q.Uses i x ↔ p.Uses i x := by
  have himp : ∀ {p q : Program}, SameForm p q i → p.Uses i x → q.Uses i x := by
    rintro p q h ⟨inst, hi, hx⟩
    obtain ⟨inst', hi', -, hin, -⟩ := h.exists_instr hi
    exact ⟨inst', hi', hin ▸ hx⟩
  exact ⟨himp (Eq.symm h), himp h⟩

end SameForm

theorem SameCore.form (h : SameCore p q i) : SameForm p q i := by
  have hform : Instruction.form = Instruction.form ∘ Instruction.core := rfl
  rw [SameForm, hform, ← Option.map_map, h, Option.map_map]

/-! ## Operations on top of each other -/

/-- The instruction is the operation on the operands and carries no module. -/
def Node (p : Program) (op : Op) (inputs : List InstrId) (i : InstrId) : Prop :=
  ∃ inst, p.instr? i = some inst ∧ inst.op = op ∧ inst.inputs = inputs ∧ inst.modules = []

theorem Node.of_sameForm (h : SameForm p q i) (hn : p.Node op inputs i) : q.Node op inputs i := by
  obtain ⟨inst, hi, rfl, rfl, hmodules⟩ := hn
  obtain ⟨inst', hi', hop, hin, hmod, -⟩ := h.exists_instr hi
  exact ⟨inst', hi', hop, hin, hmod.trans hmodules⟩

theorem Node.hasOp (h : p.Node op inputs i) (test : Op → Bool) : p.hasOp test i = test op := by
  obtain ⟨inst, hi, rfl, -⟩ := h
  rw [Program.hasOp, hi, Option.any_some]

/-- The instructions are the operations on top of each other, the first one on `base`; the value of
all is `top`. -/
inductive Stack (p : Program) : List Op → (base : InstrId) → List InstrId → (top : InstrId) → Prop
  | nil {base : InstrId} : Stack p [] base [] base
  | cons {op : Op} {ops : List Op} {base i top : InstrId} {is : List InstrId}
    (head : p.Node op [base] i) (tail : Stack p ops i is top) :
    Stack p (op :: ops) base (i :: is) top

theorem Stack.of_sameForm (h : ∀ j ∈ is, SameForm p q j) (hs : p.Stack ops base is top) :
    q.Stack ops base is top := by
  induction hs with
  | nil => exact .nil
  | cons head tail ih =>
    obtain ⟨hi, hrest⟩ := List.forall_mem_cons.mp h
    exact .cons (.of_sameForm hi head) (ih hrest)

/-- The shape-only instructions above `i` are replayed by the operations, the outermost first, and
`upper` is the first instruction above them that is none. -/
inductive Views (p : Program) : InstrId → List Op → (upper : InstrId) → Prop
  | nil {i : InstrId} {inst : Instruction} (here : p.instr? i = some inst)
    (ends : inst.op.reindex? = none) : Views p i [] i
  | cons {i x upper : InstrId} {inst : Instruction} {view : Reindex} {ops : List Op}
    (here : p.instr? i = some inst) (isView : inst.op = .reindex view) (reads : inst.inputs = [x])
    (above : Views p x ops upper) : Views p i (ReshapeChain.replayOp inst view :: ops) upper

namespace Views

theorem isReindex (h : p.Views i ops upper) : ∀ op ∈ ops, ∃ view, op = .reindex view := by
  induction h with
  | nil => exact fun op hop => absurd hop List.not_mem_nil
  | cons _ isView _ _ ih =>
    exact List.forall_mem_cons.mpr ⟨ReshapeChain.exists_replayOp isView, ih⟩

theorem mem_body (h : p.Views i ops upper) (hl : p.Linked) (hi : i ∈ p.body m) :
    upper ∈ p.body m := by
  induction h with
  | nil => exact hi
  | cons here _ reads _ ih =>
    exact ih (hl.mem_body_of_uses hi ⟨_, here, reads ▸ List.mem_singleton_self _⟩)

theorem before (h : p.Views i ops upper) (hl : p.Linked) (hi : i ∈ p.body m) :
    upper = i ∨ Before (p.body m) upper i := by
  induction h with
  | nil => exact .inl rfl
  | @cons i x upper inst view ops here _ reads _ ih =>
    have hbefore := hl.before_of_uses hi ⟨inst, here, reads ▸ List.mem_singleton_self x⟩
    obtain rfl | hupper := ih hbefore.left_mem
    · exact .inr hbefore
    · exact .inr (hupper.trans (hl.nodup m) hbefore)

end Views

/-- A walk through all views collects the chain above an instruction. -/
theorem Walked.views {nodes : List InstrId} (h : p.Walked true i nodes ops upper) :
    p.Views i ops upper := by
  induction h with
  | stop here stops =>
    refine .nil here (Option.eq_none_iff_forall_ne_some.mpr fun view hview => ?_)
    cases (stops view (Op.reindex?_eq_some.mp hview)).2
  | step here isView _ reads _ ih => exact .cons here isView reads ih

end Program

namespace Program

variable {p q r : Program} {i j x base top upper : InstrId} {m : ModuleId} {n : Nat} {op : Op}
  {inst : Instruction} {inputs is params rest : List InstrId} {ops : List Op}

/-! ## A module that is filled -/

theorem mem_body_of_insertAt {modules : List ModuleId}
    (hok : Edit.insertAt m n op inputs modules q = .ok i r) (hx : x ∈ inputs) : x ∈ q.body m := by
  obtain ⟨module, type, hm, hc, -⟩ := Edit.insertAt_ok.mp hok
  rw [body_of_module? hm]
  exact List.mem_of_mem_take (Edit.mem_take_of_checkPlacement hc hm x hx)

theorem instr?_insertAt {modules : List ModuleId} (hl : q.Linked)
    (hok : Edit.insertAt m n op inputs modules q = .ok i r) (hj : q.instr? j = some inst)
    (hnot : j ∉ inputs) : r.instr? j = some inst := by
  have hgone := (inserted_of_ok hl hok).gone
  have hself : q.nextId ∉ inputs := by
    intro hmem
    obtain ⟨_, hi, -⟩ := hl.owned (mem_body_of_insertAt hok hmem)
    rw [instr?_nextId] at hi
    cases hi
  obtain ⟨_, _, -, -, -, rfl, rfl⟩ := Edit.insertAt_ok.mp hok
  have hne : j ≠ q.nextId := by
    rintro rfl
    rw [hgone] at hj
    cases hj
  rw [instr?_inserted hself, if_neg hne, hj, Option.map_some, if_neg hnot]

/-- The program with a new module that nothing references, and what there was to the letter. -/
structure Beside (p : Program) (m : ModuleId) (q : Program) : Prop extends Grown p m q where
  same : ∀ {j inst}, p.instr? j = some inst → q.instr? j = some inst

theorem Beside.gone_of_gone (h : Beside p m q) (hj : q.instr? j = none) : p.instr? j = none := by
  by_contra hne
  obtain ⟨inst, hp⟩ := Option.ne_none_iff_exists'.mp hne
  rw [h.same hp] at hj
  cases hj

theorem Beside.hasType_of_hasType {type : ValueType} (h : Beside p m q)
    (hj : p.instr? j = some inst) (ht : q.HasType j type) : p.HasType j type := by
  obtain ⟨inst', hj', rfl⟩ := ht
  cases hj'.symm.trans (h.same hj)
  exact ⟨_, hj, rfl⟩

theorem Beside.notMem (h : Beside p m q) (hl : p.Linked) (hj : p.instr? j = some inst) :
    j ∉ q.body m := by
  intro hmem
  obtain ⟨module, hm, -⟩ := hl.owner_alive hj
  rw [h.steady.owner_unique (h.same hj) hmem, h.gone] at hm
  cases hm

/-- The operation on the operands was put at a position of the new module. -/
structure Placed (p : Program) (m : ModuleId) (n : Nat) (op : Op) (inputs : List InstrId)
    (q : Program) (i : InstrId) (r : Program) : Prop extends Beside p m r where
  fills : Fills m q r
  body : r.body m = (q.body m).insertIdx n i
  node : r.Node op inputs i
  absent : i ∉ q.body m

theorem Beside.insertAt (h : Beside p m q) (hl : p.Linked) (hend : q.EndSafe m n op)
    (hok : Edit.insertAt m n op inputs [] q = .ok i r) : Placed p m n op inputs q i r := by
  have hlq := h.steady.toLinked
  have hins := inserted_of_ok hlq hok
  refine ⟨⟨h.toGrown.insertAt hend inner_nil hok, fun hj => ?_⟩, hins.fills hlq hend.le,
    hins.body, ?_, fun hmem => hins.ne_of_mem hlq hmem rfl⟩
  · exact instr?_insertAt hlq hok (h.same hj)
      fun hmem => h.notMem hl hj (mem_body_of_insertAt hok hmem)
  · obtain ⟨type, -, hnew⟩ := hins.new
    exact ⟨_, hnew, rfl, rfl, rfl⟩

/-- The new module declares the parameters, lists the rest after them, and has no return yet. -/
structure Filling (p : Program) (m : ModuleId) (params rest : List InstrId) (q : Program) : Prop
    extends Beside p m q where
  unfinished : q.return? m = none
  body : q.body m = params ++ rest
  params : ∀ i ∈ params, q.hasOp Op.isParam i = true
  rest : ∀ i ∈ rest, q.hasOp Op.isParam i = false

namespace Filling

variable (h : Filling p m params rest q) (hl : p.Linked)

include h

theorem parameters_eq : q.parameters m = params := by
  rw [parameters, h.body, List.filter_append, List.filter_eq_self.mpr h.params,
    List.filter_eq_nil_iff.mpr fun i hi => Bool.eq_false_iff.mp (h.rest i hi), List.append_nil]

theorem parametersEnd_eq : q.parametersEnd (q.body m) = params.length := by
  have hrest : ∀ i ∈ rest.reverse, (!q.hasOp Op.isParam i) = true := by
    intro i hi
    rw [h.rest i (List.mem_reverse.mp hi)]
    rfl
  rw [parametersEnd, h.body, List.reverse_append, List.dropWhile_append_of_pos hrest]
  cases hlast : params.reverse with
  | nil => rw [List.reverse_eq_nil_iff.mp hlast]; rfl
  | cons i is =>
    have hi := h.params i (List.mem_reverse.mp (hlast ▸ List.mem_cons_self))
    rw [List.dropWhile_cons_of_neg (by rw [hi]; decide), ← hlast, List.length_reverse]

theorem hasOp_of_fills (hr : Fills m q r) (test : Op → Bool) (hj : j ∈ params ++ rest) :
    r.hasOp test j = q.hasOp test j := (hr.core (h.body ▸ hj)).hasOp test

include hl

theorem addInstruction (hret : op.isReturn = false) (hparam : op.isParam = false)
    (hok : Edit.addInstruction m op inputs [] q = .ok i r) :
    Filling p m params (rest ++ [i]) r ∧ Fills m q r ∧ r.Node op inputs i := by
  obtain ⟨module, hm, hins⟩ := Edit.addInstruction_ok.mp hok
  rw [← body_of_module? hm, h.unfinished] at hins
  have hend : q.EndSafe m (q.body m).length op := .inr ⟨rfl, h.unfinished⟩
  have hplaced := h.toBeside.insertAt hl hend hins
  refine ⟨⟨hplaced.toBeside, ?_, ?_, fun j hj => ?_, ?_⟩, hplaced.fills, hplaced.node⟩
  · exact (inserted_of_ok h.steady.toLinked hins).unfinished h.steady.toLinked hend hret
      h.unfinished
  · rw [hplaced.body, List.insertIdx_length_self, h.body, List.append_assoc]
  · rw [h.hasOp_of_fills hplaced.fills _ (List.mem_append_left _ hj), h.params j hj]
  · refine List.forall_mem_append.mpr ⟨fun j hj => ?_, List.forall_mem_singleton.mpr ?_⟩
    · rw [h.hasOp_of_fills hplaced.fills _ (List.mem_append_right _ hj), h.rest j hj]
    · rw [hplaced.node.hasOp, hparam]

theorem addParameter {name : String} {t : TensorType}
    (hok : Edit.addParameter m name t q = .ok i r) :
    Filling p m (params ++ [i]) rest r ∧ Fills m q r ∧ r.Node (.param name t) [] i ∧
      i ∉ params := by
  obtain ⟨-, module, hm, hins⟩ := Edit.addParameter_ok.mp hok
  rw [← body_of_module? hm] at hins
  have hend : q.EndSafe m (q.parametersEnd (q.body m)) (.param name t) := endSafe_parametersEnd rfl
  have hplaced := h.toBeside.insertAt hl hend hins
  refine ⟨⟨hplaced.toBeside, ?_, ?_, ?_, fun j hj => ?_⟩, hplaced.fills, hplaced.node,
    fun hmem => hplaced.absent (h.body ▸ List.mem_append_left _ hmem)⟩
  · exact (inserted_of_ok h.steady.toLinked hins).unfinished h.steady.toLinked hend rfl
      h.unfinished
  · rw [hplaced.body, h.parametersEnd_eq, h.body, insertIdx_eq_take_drop (by simp),
      List.take_left, List.drop_left, List.append_assoc, List.singleton_append]
  · refine List.forall_mem_append.mpr ⟨fun j hj => ?_, List.forall_mem_singleton.mpr ?_⟩
    · rw [h.hasOp_of_fills hplaced.fills _ (List.mem_append_left _ hj), h.params j hj]
    · rw [hplaced.node.hasOp, Op.isParam]
  · rw [h.hasOp_of_fills hplaced.fills _ (List.mem_append_right _ hj), h.rest j hj]

theorem stack (hops : ∀ op ∈ ops, ∃ view, op = .reindex view)
    (hok : ReshapeChain.stack m ops base q = .ok top r) :
    ∃ is, Filling p m params (rest ++ is) r ∧ Fills m q r ∧ r.Stack ops base is top := by
  induction ops generalizing q base rest with
  | nil =>
    cases hok
    exact ⟨[], (List.append_nil rest).symm ▸ h, .refl m _, .nil⟩
  | cons op ops ih =>
    obtain ⟨⟨view, rfl⟩, hrest⟩ := List.forall_mem_cons.mp hops
    rw [ReshapeChain.stack, bind_ok] at hok
    obtain ⟨i, t, hadd, hok⟩ := hok
    obtain ⟨hfilling, hfills, hnode⟩ := h.addInstruction hl rfl rfl hadd
    obtain ⟨is, hfilling', hfills', hstack⟩ := ih hfilling hrest hok
    have hi : i ∈ t.body m := by simp [hfilling.body]
    refine ⟨i :: is, ?_, hfills.trans hfills',
      .cons (.of_sameForm (hfills'.core hi).form hnode) hstack⟩
    rwa [List.append_assoc] at hfilling'

end Filling

end Program

open Program

/-! ## Threads -/

/-- The chain above an operand of an anchor and what it becomes in a region, where `param` takes the
tensor of `upper`, and `value` is that of the operand. -/
structure Thread where
  operand : InstrId
  /-- The operations that replay the chain, the outermost first. -/
  ops : List Op
  upper : InstrId
  param : InstrId
  nodes : List InstrId
  value : InstrId

/-- The chain in `p` is replayed in `q` on a parameter of a name, which is row-major. -/
structure Thread.Replays (thread : Thread) (p q : Program) (name : String) : Prop where
  views : p.Views thread.operand thread.ops thread.upper
  param : ∃ t u, p.HasType thread.upper (.tensor t) ∧ t.asStandard = .ok u ∧
    q.Node (.param name u) [] thread.param
  stack : q.Stack thread.ops.reverse thread.param thread.nodes thread.value

variable {p q r : Program} {m : ModuleId} {op : Op} {params rest uppers inputs : List InstrId}
  {threads : List Thread} {w : Workspace} {n : Nat}

theorem Thread.Replays.of_sameForm {thread : Thread} {name : String}
    (hparam : SameForm q r thread.param) (hnodes : ∀ j ∈ thread.nodes, SameForm q r j)
    (h : thread.Replays p q name) : thread.Replays p r name := by
  obtain ⟨t, u, ht, hu, hnode⟩ := h.param
  exact ⟨h.views, ⟨t, u, ht, hu, .of_sameForm hparam hnode⟩, .of_sameForm hnodes h.stack⟩

/-- The chains are replayed on parameters with numbers from `n` on. -/
def ReplayedFrom (p q : Program) (n : Nat) (threads : List Thread) : Prop :=
  ∀ (k : Nat) (thread : Thread), threads[k]? = some thread →
    thread.Replays p q ("y" ++ toString (n + k))

theorem ReplayedFrom.of_sameForm (h : ReplayedFrom p q n threads)
    (hform : ∀ j ∈ threads.map Thread.param ++ threads.flatMap Thread.nodes, SameForm q r j) :
    ReplayedFrom p r n threads := by
  obtain ⟨hparams, hnodes⟩ := List.forall_mem_append.mp hform
  intro k thread hk
  have hmem := List.mem_of_getElem? hk
  exact (h k thread hk).of_sameForm (hparams _ (List.mem_map_of_mem hmem))
    fun j hj => hnodes j (List.mem_flatMap_of_mem hmem hj)

/-- The chains above operands of an instruction end before it. -/
theorem ReplayedFrom.upper_before {root : InstrId} (h : ReplayedFrom p q n threads) (hl : p.Linked)
    (hoperands : ∀ i ∈ threads.map Thread.operand, Before (p.body m) i root) :
    ∀ i ∈ threads.map Thread.upper, Before (p.body m) i root := by
  intro i hi
  obtain ⟨thread, hthread, rfl⟩ := List.mem_map.mp hi
  obtain ⟨k, hk⟩ := List.getElem?_of_mem hthread
  have hoperand := hoperands thread.operand (List.mem_map_of_mem hthread)
  obtain he | hupper := (h k thread hk).views.before hl hoperand.left_mem
  · exact he ▸ hoperand
  · exact hupper.trans (hl.nodup m) hoperand

theorem ReplayedFrom.cons {thread : Thread} (head : thread.Replays p q ("y" ++ toString n))
    (tail : ReplayedFrom p q (n + 1) threads) : ReplayedFrom p q n (thread :: threads) := by
  intro k thread' hk
  cases k with
  | zero =>
    cases hk
    exact head
  | succ k =>
    rw [← Nat.succ_add_eq_add_succ]
    exact tail k thread' hk

namespace Building

/-- The module of the region is filled, its parameters are fed by the instructions above, and no
value is known. -/
structure Tracing (p : Program) (m : ModuleId) (params rest uppers : List InstrId) (w : Workspace) :
    Prop where
  module : w.region.module = m
  nothing : w.region.values = .empty
  filling : Filling p m params rest w.program
  bound : List.Forall₂ (fun param upper => w.region.bindings.image? param = some upper)
    params uppers

/-- The instructions that feed the parameters are those that are bound to them. -/
theorem ends_feeders (params : List InstrId) : (params.mapM feederOf).Ends w fun feeders w' =>
    w' = w ∧ List.Forall₂ (fun param outer => w.region.bindings.image? param = some outer)
      params feeders := by
  induction params with
  | nil => exact ⟨rfl, .nil⟩
  | cons param params ih =>
    rw [List.mapM_cons, ends_bind, feederOf, ends_get_bind]
    split
    · next outer ho =>
      rw [ends_pure, ends_bind]
      refine ih.mono ?_
      rintro feeders _ ⟨rfl, hfeeders⟩
      exact ⟨rfl, .cons ho hfeeders⟩
    · refine ends_focus.mpr ?_
      rw [Replay.unbound, ends_theProgram_bind, ends_bind, ends_lift_checked]
      exact fun inst _ => ends_refuse (by rintro _ ⟨⟩)

namespace Tracing

variable (h : Tracing p m params rest uppers w) (hl : p.Linked)

include h

theorem ends_module_bind {α : Type} {f : ModuleId → Building α} {Q : α → Workspace → Prop} :
    (Building.module >>= f).Ends w Q ↔ (f m).Ends w Q := by
  rw [← h.module]
  rfl

include hl

theorem ends_addNamedInput {outer : InstrId} {inst : Instruction}
    (houter : p.instr? outer = some inst) (name : String) :
    (addNamedInput outer name).Ends w fun param w' =>
      Tracing p m (params ++ [param]) rest (uppers ++ [outer]) w' ∧
        Fills m w.program w'.program ∧ ∃ t u, p.HasType outer (.tensor t) ∧
          t.asStandard = .ok u ∧ w'.program.Node (.param name u) [] param := by
  rw [addNamedInput, ends_theProgram_bind, ends_bind, ends_lift_graph]
  intro t ht
  have ht := h.filling.hasType_of_hasType houter (tensorOf_ok.mp ht)
  rw [h.ends_module_bind, ends_bind, ends_lift_checked]
  intro u hu
  rw [ends_bind, ends_edit]
  intro param r hok
  obtain ⟨hfilling, hfills, hnode, hnew⟩ := h.filling.addParameter hl hok
  rw [ends_bind, ends_modify, ends_pure]
  refine ⟨⟨h.module, h.nothing, hfilling, List.rel_append ?_ (.cons ?_ .nil)⟩, hfills, t, u, ht,
    hu, hnode⟩
  · refine forall₂_imp_of_mem h.bound fun i hi upper hupper => ?_
    have hne : i ≠ param := fun he => hnew (he ▸ hi)
    exact (Region.image?_bindParam ..).trans ((if_neg hne).trans hupper)
  · exact (Region.image?_bindParam ..).trans (if_pos rfl)

/-- **Each operand becomes a parameter with the chain above the operand on it.** -/
theorem ends_threadInputs (hp : p.Valid) (hinputs : ∀ i ∈ inputs, i ∈ p.body main) :
    (threadInputs n inputs).Ends w fun values w' => ∃ threads : List Thread,
      Tracing p m (params ++ threads.map Thread.param) (rest ++ threads.flatMap Thread.nodes)
        (uppers ++ threads.map Thread.upper) w' ∧ Fills m w.program w'.program ∧
      threads.map Thread.operand = inputs ∧ threads.map Thread.value = values ∧
      ReplayedFrom p w'.program n threads := by
  induction inputs generalizing n params rest uppers w with
  | nil =>
    rw [threadInputs, ends_pure]
    refine ⟨[], ?_, .refl _ _, rfl, rfl, fun k thread hk => by cases hk⟩
    simpa using h
  | cons input inputs ih =>
    obtain ⟨hinput, hinputs⟩ := List.forall_mem_cons.mp hinputs
    rw [threadInputs, ends_theProgram_bind, ends_bind, ends_lift_checked]
    intro chain hwalk
    have hsame : ∀ j ∈ p.body main, w.program.instr? j = p.instr? j := by
      intro j hj
      obtain ⟨inst, hinst, -⟩ := hl.owned hj
      rw [hinst, h.filling.same hinst]
    have hviews := (ReshapeChain.walked_of_walk hp hsame hinput hwalk).views
    obtain ⟨inst, hupper, -⟩ := hl.owned (hviews.mem_body hl hinput)
    rw [ends_bind]
    refine (h.ends_addNamedInput hl hupper _).mono ?_
    rintro param w₁ ⟨h₁, hfills₁, t, u, ht, hu, hnode⟩
    rw [h₁.ends_module_bind, ends_bind, ends_edit]
    intro value q hok
    rw [ReshapeChain.replay] at hok
    obtain ⟨nodes, hfilling, hfills₂, hstack⟩ := h₁.filling.stack hl
      (fun op hop => hviews.isReindex op (List.mem_reverse.mp hop)) hok
    have h₂ : Tracing p m (params ++ [param]) (rest ++ nodes) (uppers ++ [chain.upper])
        ⟨q, w₁.region⟩ := ⟨h₁.module, h₁.nothing, hfilling, h₁.bound⟩
    rw [ends_bind]
    refine (ih h₂ hinputs).mono ?_
    rintro values w₃ ⟨threads, h₃, hfills₃, hoperands, hvalues, hreplays⟩
    rw [ends_pure]
    have hparam : param ∈ w₁.program.body m := by simp [h₁.filling.body]
    have hnodes : ∀ j ∈ nodes, j ∈ q.body m := fun j hj => by simp [hfilling.body, hj]
    refine ⟨⟨input, chain.ops, chain.upper, param, nodes, value⟩ :: threads, ?_,
      (hfills₁.trans hfills₂).trans hfills₃, by rw [List.map_cons, hoperands],
      by rw [List.map_cons, hvalues], .cons ?_ hreplays⟩
    · simpa using h₃
    · refine .of_sameForm (hfills₃.core (hfills₂.mem hparam)).form
        (fun j hj => (hfills₃.core (hnodes j hj)).form) ⟨hviews, ⟨t, u, ht, hu, ?_⟩, hstack⟩
      exact .of_sameForm (hfills₂.core hparam).form hnode

/-- **The region of an anchor lists parameters, the chains and the anchor.** -/
theorem ends_fuseAnchor (hp : p.Valid) (hinputs : ∀ i ∈ inputs, i ∈ p.body main)
    (hret : op.isReturn = false) (hparam : op.isParam = false) :
    (fuseAnchor op inputs).Ends w fun anchor w' => ∃ threads : List Thread,
      Tracing p m (params ++ threads.map Thread.param)
        (rest ++ threads.flatMap Thread.nodes ++ [anchor]) (uppers ++ threads.map Thread.upper) w' ∧
      threads.map Thread.operand = inputs ∧
      w'.program.Node op (threads.map Thread.value) anchor ∧
      ReplayedFrom p w'.program 0 threads := by
  rw [fuseAnchor, ends_bind]
  refine (h.ends_threadInputs hl hp hinputs).mono ?_
  rintro values w₁ ⟨threads, h₁, -, hoperands, hvalues, hreplays⟩
  rw [h₁.ends_module_bind, ends_edit]
  intro anchor q hok
  obtain ⟨hfilling, hfills, hnode⟩ := h₁.filling.addInstruction hl hret hparam hok
  refine ⟨threads, ⟨h₁.module, h₁.nothing, hfilling, h₁.bound⟩, hoperands, hvalues ▸ hnode,
    hreplays.of_sameForm fun j hj => (hfills.core ?_).form⟩
  rw [h₁.filling.body]
  exact (List.mem_append.mp hj).elim
    (fun hj => List.mem_append_left _ (List.mem_append_right _ hj))
    (fun hj => List.mem_append_right _ (List.mem_append_right _ hj))

theorem ends_finish {returns : List InstrId} :
    (finish returns).Ends w fun feeders w' => feeders = uppers ∧ Beside p m w'.program ∧
      Fills m w.program w'.program ∧ ∃ ret, w'.program.Node .ret returns ret ∧
        w'.program.body m = params ++ rest ++ [ret] := by
  show ((do
    let _ ← Edit.addReturn w.region.module returns
    ((← theProgram).parameters w.region.module).mapM feederOf : Building _)).Ends w _
  rw [h.module, ends_bind, ends_edit]
  intro ret q hok
  obtain ⟨-, module, hm, hins⟩ := Edit.addReturn_ok.mp hok
  rw [← body_of_module? hm] at hins
  have hend : w.program.EndSafe m (w.program.body m).length .ret := .inr ⟨rfl, h.filling.unfinished⟩
  have hplaced := h.filling.toBeside.insertAt hl hend hins
  have hparams : q.parameters m = params := by
    rw [(inserted_of_ok h.filling.steady.toLinked hins).parameters_eq h.filling.steady.toLinked
      (Nat.le_refl _) rfl, h.filling.parameters_eq]
  rw [ends_theProgram_bind]
  show ((q.parameters m).mapM feederOf).Ends ⟨q, w.region⟩ _
  rw [hparams]
  refine (ends_feeders (w := ⟨q, w.region⟩) params).mono ?_
  rintro feeders _ ⟨rfl, hfeeders⟩
  have hunique : Relator.RightUnique fun param upper =>
      w.region.bindings.image? param = some upper := fun _ _ _ ha hb =>
    Option.some.inj (ha.symm.trans hb)
  refine ⟨hunique.forall₂ hfeeders h.bound, hplaced.toBeside, hplaced.fills, ret, hplaced.node, ?_⟩
  rw [hplaced.body, List.insertIdx_length_self, h.filling.body]

end Tracing

end Building

end OffloadFusion
