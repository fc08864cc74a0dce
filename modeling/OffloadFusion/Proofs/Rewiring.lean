import OffloadFusion.Proofs.Edits
import OffloadFusion.Proofs.Linked

/-!
# Rewiring

What the edits that change operands leave behind, whether they succeed or not.

* `retyped_refresh`: inferring types again changes types only. What each of its rounds keeps
  (`RoundInvariant`), a run keeps.
* `swapped`, `rebuilt`: the programs in which one operand was swapped, or an instruction rebuilt.
  Both stay linked where the new operands stand before the instruction.
-/

namespace OffloadFusion

namespace Instruction

/-- The instruction with `new` in place of the operand `old`. -/
def swapInput (inst : Instruction) (old new : InstrId) : Instruction :=
  { inst with inputs := inst.inputs.map fun input => if input = old then new else input }

/-- The instruction that first may lose `i` as a consumer and then may gain it. -/
def reconsume (inst : Instruction) (i : InstrId) (drop add : Prop) [Decidable drop]
    [Decidable add] : Instruction :=
  let inst := if drop then inst.withoutConsumer i else inst
  if add then inst.withConsumer i else inst

section

variable (inst : Instruction) (i : InstrId) (drop add : Prop) [Decidable drop] [Decidable add]

@[simp] theorem inputs_reconsume : (inst.reconsume i drop add).inputs = inst.inputs := by
  unfold reconsume
  split_ifs <;> simp

@[simp] theorem owner_reconsume : (inst.reconsume i drop add).owner = inst.owner := by
  unfold reconsume
  split_ifs <;> simp

@[simp] theorem core_reconsume : (inst.reconsume i drop add).core = inst.core := by
  unfold reconsume
  split_ifs <;> simp

theorem mem_reconsume {c : InstrId} : c ∈ (inst.reconsume i drop add).consumers ↔
    if c = i then add ∨ (c ∈ inst.consumers ∧ ¬ drop) else c ∈ inst.consumers := by
  unfold reconsume
  by_cases hd : drop <;> by_cases ha : add <;> by_cases hc : c = i <;> simp [hd, ha, hc]

theorem nodup_reconsume (h : inst.consumers.Nodup) :
    (inst.reconsume i drop add).consumers.Nodup := by
  unfold reconsume
  split_ifs
  · exact nodup_withConsumer _ i (nodup_withoutConsumer _ i h)
  · exact nodup_withoutConsumer _ i h
  · exact nodup_withConsumer _ i h
  · exact h

end

end Instruction

namespace Program

variable {p q : Program} {i old new x : InstrId} {inst : Instruction} {inputs : List InstrId}
  {op : Op} {modules : List ModuleId} {type : ValueType}

theorem Retyped.linked (h : Retyped p q) (hl : p.Linked) : q.Linked := hl.of_links h.links h.body

theorem Retyped.wired (h : Retyped p q) (hw : p.Wired) : q.Wired := hw.of_links h.links h.body

/-! ## Swapping an operand -/

theorem mem_swapInput (hold : old ∈ inst.inputs) :
    x ∈ (inst.swapInput old new).inputs ↔ x = new ∨ (x ∈ inst.inputs ∧ x ≠ old) := by
  simp only [Instruction.swapInput, List.mem_map]
  constructor
  · rintro ⟨y, hy, rfl⟩
    split
    · exact .inl rfl
    · next hne => exact .inr ⟨hy, hne⟩
  · rintro (rfl | ⟨hx, hne⟩)
    · exact ⟨old, hold, if_pos rfl⟩
    · exact ⟨x, hx, if_neg hne⟩

/-- The program in which `i` has `new` in place of the operand `old`. -/
def swapped (p : Program) (i old new : InstrId) : Program :=
  ((p.modifyInstr i (·.swapInput old new)).dropConsumer old i).addConsumer new i

@[simp] theorem module?_swapped (p : Program) (i old new : InstrId) (m : ModuleId) :
    (p.swapped i old new).module? m = p.module? m := by
  have : (p.swapped i old new).module? m =
    ((p.modifyInstr i (·.swapInput old new)).dropConsumer old i).module? m := rfl
  rw [this, module?_dropConsumer, module?_modifyInstr]

@[simp] theorem body_swapped (p : Program) (i old new : InstrId) (m : ModuleId) :
    (p.swapped i old new).body m = p.body m := by simp [body]

theorem instr?_swapped (hi : p.instr? i = some inst) (hold : old ∈ inst.inputs) (j : InstrId) :
    (p.swapped i old new).instr? j = (p.instr? j).map fun a =>
      (if j = i then a.swapInput old new else a).reconsume i (j = old ∧ old ≠ new) (j = new) := by
  have huse : ¬ (p.modifyInstr i (·.swapInput old new)).Uses i old ↔ old ≠ new := by
    simp [Uses, hi, mem_swapInput hold]
  rw [swapped, instr?_addConsumer, instr?_dropConsumer, instr?_modifyInstr]
  cases hj : p.instr? j with
  | none => simp
  | some a =>
    simp only [Instruction.reconsume, huse, Option.map_some]
    by_cases h : i = j
    · simp [h]
    · simp [h, Ne.symm h]

/-- **Swapping an operand for one that stands before the instruction.** -/
theorem Linked.swapped (hl : p.Linked) (hi : p.instr? i = some inst) (hold : old ∈ inst.inputs)
    (hnew : Before (p.body inst.owner) new i) : (p.swapped i old new).Linked := by
  refine hl.setOperands hi (inst.swapInput old new).inputs (body_swapped p i old new)
    (instr?_swapped hi hold) ?_ ?_ ?_ ?_ ?_
  · intro j a
    rw [Instruction.owner_reconsume]
    split <;> rfl
  · intro j a ha
    rw [Instruction.inputs_reconsume]
    split
    · next hj =>
      subst hj
      rw [hi] at ha
      cases ha
      rfl
    · rfl
  · intro j a c ha
    have hself : i ∈ a.consumers ↔ j ∈ inst.inputs := by
      rw [hl.mirrored ha]
      simp [Uses, hi]
    have hcons : (if j = i then a.swapInput old new else a).consumers = a.consumers := by
      split <;> rfl
    rw [Instruction.mem_reconsume, hcons]
    split
    · next hc =>
      subst hc
      rw [mem_swapInput hold, hself]
      by_cases hnew : j = new
      · simp [hnew]
      · have : j = old ∧ old ≠ new ↔ j = old := ⟨And.left, fun h => ⟨h, h ▸ hnew⟩⟩
        simp only [hnew, this, false_or, ne_eq]
    · rfl
  · intro j a hn
    refine Instruction.nodup_reconsume _ _ _ _ ?_
    split <;> exact hn
  · intro x hx
    obtain rfl | ⟨hx, -⟩ := (mem_swapInput hold).mp hx
    · exact hnew
    · exact hl.ordered hi hx

/-! ## Rebuilding an instruction -/

/-- The program in which `i` has another operation on other operands, with its new type. -/
def rebuilt (p : Program) (i : InstrId) (oldInputs : List InstrId) (op : Op)
    (inputs : List InstrId) (modules : List ModuleId) (type : ValueType) : Program :=
  (((p.modifyInstr i fun inst => { inst with inputs := [] }).dropConsumers oldInputs
    i).addConsumers inputs i).modifyInstr i fun inst => { inst with op, inputs, modules, type }

@[simp] theorem module?_rebuilt (oldInputs : List InstrId) (m : ModuleId) :
    (p.rebuilt i oldInputs op inputs modules type).module? m = p.module? m := by
  rw [rebuilt, module?_modifyInstr, module?_addConsumers, module?_dropConsumers,
    module?_modifyInstr]

@[simp] theorem body_rebuilt (oldInputs : List InstrId) (m : ModuleId) :
    (p.rebuilt i oldInputs op inputs modules type).body m = p.body m := by simp [body]

theorem instr?_rebuilt (hi : p.instr? i = some inst) (hself : i ∉ inputs)
    (hself' : i ∉ inst.inputs) (j : InstrId) :
    (p.rebuilt i inst.inputs op inputs modules type).instr? j = (p.instr? j).map fun a =>
      (if j = i then { a with op, inputs, modules, type } else a).reconsume i (j ∈ inst.inputs)
        (j ∈ inputs) := by
  have huse : ∀ x, ¬ (p.modifyInstr i fun inst => { inst with inputs := [] }).Uses i x := by
    simp [Uses, hi]
  rw [rebuilt, instr?_modifyInstr, instr?_addConsumers, instr?_dropConsumers, instr?_modifyInstr]
  by_cases h : i = j
  · subst h
    simp [hi, hself, hself', Instruction.reconsume]
  · cases hj : p.instr? j with
    | none => simp [h]
    | some a => simp [h, Ne.symm h, Instruction.reconsume, huse]

/-- **Rebuilding an instruction on operands that stand before it.** -/
theorem Linked.rebuilt (hl : p.Linked) (hi : p.instr? i = some inst)
    (hin : ∀ x ∈ inputs, Before (p.body inst.owner) x i) :
    (p.rebuilt i inst.inputs op inputs modules type).Linked := by
  have hself : i ∉ inputs := fun h => (hin i h).ne (hl.nodup _) rfl
  have hself' : i ∉ inst.inputs := fun h => hl.operand_ne hi h rfl
  refine hl.setOperands hi inputs (body_rebuilt inst.inputs)
    (instr?_rebuilt hi hself hself') ?_ ?_ ?_ ?_ hin
  · intro j a
    rw [Instruction.owner_reconsume]
    split <;> rfl
  · intro j a ha
    rw [Instruction.inputs_reconsume]
    split <;> rfl
  · intro j a c ha
    have hmirror : i ∈ a.consumers ↔ j ∈ inst.inputs := by
      rw [hl.mirrored ha]
      simp [Uses, hi]
    have hcons : (if j = i then { a with op, inputs, modules, type } else a).consumers =
        a.consumers := by
      split <;> rfl
    rw [Instruction.mem_reconsume, hcons]
    split
    · next hc =>
      subst hc
      simp [hmirror]
    · rfl
  · intro j a hn
    refine Instruction.nodup_reconsume _ _ _ _ ?_
    split <;> exact hn

end Program

namespace Edit

open Program

/-- **Inferring types again changes types only.** -/
theorem retyped_refresh (fuel : Nat) (stack : List InstrId) (p : Program) :
    Retyped p ((refresh fuel stack).after p) := by
  induction fuel generalizing p stack with
  | zero => cases stack <;> exact .refl p
  | succ fuel ih =>
    cases stack with
    | nil => exact .refl p
    | cons i stack =>
      simp only [refresh, Action.after_get_bind, Action.after_lift_bind]
      split
      · next inst hi =>
        split
        · next type ht =>
          simp only [Action.after_ite, Action.after_set_bind]
          split
          · exact ih stack p
          · exact (Retyped.modifyInstr p i type).trans (ih _ _)
        · exact .refl p
      · exact .refl p

theorem retyped_refreshType (i : InstrId) (p : Program) :
    Retyped p ((refreshType i).after p) := retyped_refresh _ _ p

/-! ## Rounds of inferring -/

section

variable {fuel : Nat} {stack : List InstrId} {p : Program} {i : InstrId} {inst : Instruction}
  {type : ValueType} {e : Failure GraphError}

theorem refresh_gone (hi : p.instr? i = none) :
    refresh (fuel + 1) (i :: stack) p = .error (.refused (.unknownInstruction i)) p := by
  have hfind : p.findInstr i = .error (.refused (.unknownInstruction i)) := by
    rw [findInstr, hi]
    rfl
  exact Action.lift_bind_of_error _ p hfind

theorem refresh_stuck (hi : p.instr? i = some inst)
    (ht : p.infer inst.op inst.inputs inst.modules = .error e) :
    refresh (fuel + 1) (i :: stack) p = .error e p :=
  (Action.lift_bind_of_ok _ p (findInstr_ok.mpr hi)).trans (Action.lift_bind_of_error _ p ht)

theorem refresh_cons (hi : p.instr? i = some inst)
    (ht : p.infer inst.op inst.inputs inst.modules = .ok type) :
    refresh (fuel + 1) (i :: stack) p = if type = inst.type then refresh fuel stack p
      else refresh fuel (inst.consumers.reverse ++ stack)
        (p.modifyInstr i fun inst => { inst with type }) := by
  refine (Action.lift_bind_of_ok _ p (findInstr_ok.mpr hi)).trans
    ((Action.lift_bind_of_ok _ p ht).trans ?_)
  split <;> rfl

end

/-- Each round of inferring keeps this of the instructions that are left and the program. -/
structure RoundInvariant (I : List InstrId → Program → Prop) : Prop where
  settle : ∀ {j stack p a}, I (j :: stack) p → p.instr? j = some a →
    p.infer a.op a.inputs a.modules = .ok a.type → I stack p
  retype : ∀ {j stack p a type}, I (j :: stack) p → p.instr? j = some a →
    p.infer a.op a.inputs a.modules = .ok type →
      I (a.consumers.reverse ++ stack) (p.modifyInstr j fun inst => { inst with type })

namespace RoundInvariant

variable {I : List InstrId → Program → Prop} {fuel : Nat} {stack : List InstrId} {p q : Program}

/-- **What each round keeps, a run keeps.** -/
theorem refresh_ok {u : Unit} (hI : RoundInvariant I) (h : I stack p)
    (hok : refresh fuel stack p = .ok u q) : I [] q := by
  induction fuel generalizing p stack with
  | zero =>
    cases stack with
    | nil =>
      cases hok
      exact h
    | cons => cases hok
  | succ fuel ih =>
    cases stack with
    | nil =>
      cases hok
      exact h
    | cons j stack =>
      simp only [refresh, Action.get_bind_ok, Action.lift_bind_ok, findInstr_ok, Action.ite_ok,
        Action.set_bind_ok] at hok
      obtain ⟨a, hj, type, ht, ⟨rfl, hok⟩ | ⟨-, hok⟩⟩ := hok
      · exact ih (hI.settle h hj ht) hok
      · exact ih (hI.retype h hj ht) hok

/-- A run that stops before its rounds are used up has met an instruction that cannot be inferred
any more. -/
theorem refresh_error {e : Failure GraphError} (hI : RoundInvariant I) (h : I stack p)
    (he : refresh fuel stack p = .error e q) : e = .fault .exhausted ∨ ∃ j rest, I (j :: rest) q ∧
      ∀ a, q.instr? j = some a → q.infer a.op a.inputs a.modules = .error e := by
  induction fuel generalizing p stack with
  | zero =>
    cases stack with
    | nil => cases he
    | cons =>
      cases he
      exact .inl rfl
  | succ fuel ih =>
    cases stack with
    | nil => cases he
    | cons j stack =>
      cases hj : p.instr? j with
      | none =>
        cases (refresh_gone hj).symm.trans he
        refine .inr ⟨j, stack, h, fun a ha => ?_⟩
        cases hj.symm.trans ha
      | some a =>
        cases ht : p.infer a.op a.inputs a.modules with
        | error e' =>
          cases (refresh_stuck hj ht).symm.trans he
          refine .inr ⟨j, stack, h, fun b hb => ?_⟩
          cases hj.symm.trans hb
          exact ht
        | ok type =>
          rw [refresh_cons hj ht] at he
          split at he
          · next heq => exact ih (hI.settle h hj (heq ▸ ht)) he
          · exact ih (hI.retype h hj ht) he

theorem refreshType_ok {i : InstrId} {u : Unit} (hI : RoundInvariant I) (h : I [i] p)
    (hok : refreshType i p = .ok u q) : I [] q := hI.refresh_ok h hok

end RoundInvariant

/-! ## Swapping operands -/

variable {p : Program} {i old new : InstrId} {inst : Instruction}

theorem replaceArgument_ok {u : Unit} {q : Program} : replaceArgument i old new p = .ok u q ↔
    (∃ inst, p.instr? i = some inst) ∧ refreshType i (p.swapped i old new) = .ok u q := by
  simp only [replaceArgument, Action.get_bind_ok, Action.lift_bind_ok, findInstr_ok,
    Action.set_bind_ok, exists_and_right]
  rfl

theorem replaceArgument_eq (old new : InstrId) (hi : p.instr? i = some inst) :
    replaceArgument i old new p = refreshType i (p.swapped i old new) := by
  have hcalc : replaceArgument i old new p = ((liftM (p.findInstr i) : Edit Instruction) >>=
      fun _ => (set (p.swapped i old new) : Edit PUnit) >>= fun _ => refreshType i) p := rfl
  rw [hcalc, Action.lift_bind_of_ok _ p (findInstr_ok.mpr hi), Action.set_bind]

theorem retyped_replaceArgument (old new : InstrId) (hi : p.instr? i = some inst) :
    Retyped (p.swapped i old new) ((replaceArgument i old new).after p) := by
  have hafter : (replaceArgument i old new).after p = (refreshType i).after (p.swapped i old new) :=
    by rw [Action.after, Action.after, replaceArgument_eq old new hi]
  rw [hafter]
  exact retyped_refreshType i _

/-- The state of the loop that rewires consumers: those that are left still use `old`, and `new`
stands before them. -/
structure Rewirable (m : ModuleId) (old new : InstrId) (left : List InstrId) (p : Program) :
    Prop where
  linked : p.Linked
  uses : ∀ c ∈ left, p.Uses c old
  before : ∀ c ∈ left, Before (p.body m) new c

theorem Rewirable.replaceArgument {m : ModuleId} {c : InstrId} {left : List InstrId}
    (h : Rewirable m old new (c :: left) p) (hc : c ∉ left) :
    Rewirable m old new left ((replaceArgument c old new).after p) := by
  obtain ⟨cinst, hi, hold⟩ := h.uses c List.mem_cons_self
  have hbefore := h.before c List.mem_cons_self
  have howner : cinst.owner = m := h.linked.owner_unique hi hbefore.right_mem
  have hr := retyped_replaceArgument old new hi
  refine ⟨hr.linked (h.linked.swapped hi hold (howner ▸ hbefore)), fun d hd => ?_, fun d hd => ?_⟩
  · have hne : d ≠ c := fun he => hc (he ▸ hd)
    refine hr.uses.mpr ((uses_map (instr?_swapped hi hold d) fun a => ?_).mpr
      (h.uses d (List.mem_cons_of_mem c hd)))
    simp [hne]
  · rw [hr.body, body_swapped]
    exact h.before d (List.mem_cons_of_mem c hd)

/-- The whole loop, whether it ends early or not. -/
theorem Rewirable.forM {m : ModuleId} {left : List InstrId} (h : Rewirable m old new left p)
    (hn : left.Nodup) :
    ((left.forM fun c => Edit.replaceArgument c old new).after p).Linked := by
  induction left generalizing p with
  | nil => exact h.linked
  | cons c left ih =>
    have hstep := h.replaceArgument (List.nodup_cons.mp hn).1
    rw [List.forM, Action.after_bind]
    cases hx : Edit.replaceArgument c old new p with
    | ok u q => exact ih (Action.after_of_ok hx ▸ hstep) (List.nodup_cons.mp hn).2
    | error e q => exact (Action.after_of_error hx ▸ hstep).linked

theorem readOnly_checkAfter (p : Program) (module : Module) (n : Nat) (new c : InstrId) :
    (checkAfter p module n new c).ReadOnly := by
  have hrefuse : Action.ReadOnly ((p.instr c : Edit Instruction) >>= fun inst =>
      (Action.refuse (.orderViolation inst.name new) : Edit PUnit)) :=
    Action.ReadOnly.bind (fun s => Action.after_lift_checked _ s) fun _ => Action.readOnly_refuse _
  unfold checkAfter
  split
  · exact hrefuse.ite (Action.readOnly_pure _)
  · exact hrefuse

theorem checkAfter_ok {module : Module} {n : Nat} {c : InstrId} {q : Program} {u : Unit} :
    checkAfter p module n new c q = .ok u q ↔ ∃ place, module.body.idxOf? c = some place ∧
      n < place := by
  unfold checkAfter Module.position?
  cases hc : module.body.idxOf? c <;> simp

theorem replaceInstruction_ok {q : Program} {u : Unit} :
    replaceInstruction old new p = .ok u q ↔ ∃ oldInst newInst m n module,
      p.instr? old = some oldInst ∧ p.instr? new = some newInst ∧
      oldInst.type.sameShape newInst.type = true ∧ p.locate new = .ok (m, n) ∧
      p.module? m = some module ∧
      (∀ c ∈ oldInst.consumers, c ≠ new → ∃ place, module.body.idxOf? c = some place ∧ n < place) ∧
      ((oldInst.consumers.filter (· ≠ new)).forM fun c => replaceArgument c old new) p =
        .ok u q := by
  simp only [replaceInstruction, Action.get_bind_ok, Action.lift_bind_ok, findInstr_ok,
    findModule_ok, Action.ite_ok, Action.refuse_bind_ok, and_false, false_or,
    Action.ReadOnly.forM_bind_ok (readOnly_checkAfter _ _ _ _), checkAfter_ok, Prod.exists,
    Bool.not_eq_true', Bool.not_eq_false, List.mem_filter, decide_eq_true_eq, and_imp]
  constructor
  · rintro ⟨oldInst, ho, newInst, hn, hs, m, n, hloc, module, hm, hafter, h⟩
    exact ⟨oldInst, newInst, m, n, module, ho, hn, hs, hloc, hm, hafter, h⟩
  · rintro ⟨oldInst, newInst, m, n, module, ho, hn, hs, hloc, hm, hafter, h⟩
    exact ⟨oldInst, ho, newInst, hn, hs, m, n, hloc, module, hm, hafter, h⟩

theorem rewirable_of_check {module : Module} {m : ModuleId} {n : Nat} {left : List InstrId}
    (hl : p.Linked) (ho : p.instr? old = some inst) (hloc : p.locate new = .ok (m, n))
    (hm : p.module? m = some module) (hleft : ∀ c ∈ left, c ∈ inst.consumers)
    (hcheck : ∀ c ∈ left, ∃ place, module.body.idxOf? c = some place ∧ n < place) :
    Rewirable m old new left p := by
  obtain ⟨newInst, module', hn, -, hm', hidx⟩ := locate_ok.mp hloc
  rw [hm] at hm'
  cases hm'
  refine ⟨hl, fun c hc => (hl.mirrored ho).mp (hleft c hc), fun c hc => ?_⟩
  obtain ⟨place, hplace, hlt⟩ := hcheck c hc
  rw [body_of_module? hm]
  exact before_of_idxOf?_lt hidx hplace hlt

/-- What is rewired does not use `old` any more, and nothing else comes to use it. -/
theorem Rewirable.unread {m : ModuleId} {left : List InstrId} {q : Program} {u : Unit} {c : InstrId}
    (h : Rewirable m old new left p) (hn : left.Nodup) (hne : old ≠ new)
    (hok : left.forM (fun c => Edit.replaceArgument c old new) p = .ok u q) (hc : q.Uses c old) :
    p.Uses c old ∧ c ∉ left := by
  induction left generalizing p with
  | nil =>
    cases hok
    exact ⟨hc, List.not_mem_nil⟩
  | cons d left ih =>
    rw [List.forM, Action.bind_ok] at hok
    obtain ⟨_, r, hd, hok⟩ := hok
    have hnext := h.replaceArgument (List.nodup_cons.mp hn).1
    rw [Action.after_of_ok hd] at hnext
    obtain ⟨huse, hleft⟩ := ih hnext (List.nodup_cons.mp hn).2 hok
    obtain ⟨inst, hi, hold⟩ := h.uses d List.mem_cons_self
    have hretyped := retyped_replaceArgument old new hi
    rw [Action.after_of_ok hd] at hretyped
    obtain ⟨a, ha, hmem⟩ := hretyped.uses.mp huse
    rw [instr?_swapped hi hold, Option.map_eq_some_iff] at ha
    obtain ⟨b, hb, rfl⟩ := ha
    rw [Instruction.inputs_reconsume] at hmem
    have hcd : c ≠ d := by
      rintro rfl
      cases hi.symm.trans hb
      rw [if_pos rfl, mem_swapInput hold] at hmem
      exact hmem.elim hne fun hmem => hmem.2 rfl
    rw [if_neg hcd] at hmem
    exact ⟨⟨b, hb, hmem⟩, fun hmem => (List.mem_cons.mp hmem).elim hcd hleft⟩

/-- **Nothing but the new instruction reads one that was replaced.** -/
theorem eq_of_replaceInstruction {q : Program} {u : Unit} {c : InstrId} (hl : p.Linked)
    (hne : old ≠ new) (hok : replaceInstruction old new p = .ok u q) (hc : q.Uses c old) :
    c = new := by
  obtain ⟨oldInst, newInst, m, n, module, ho, -, -, hloc, hm, hcheck, hok⟩ :=
    replaceInstruction_ok.mp hok
  have hrewirable : Rewirable m old new (oldInst.consumers.filter (· ≠ new)) p :=
    rewirable_of_check hl ho hloc hm (fun d hd => List.mem_of_mem_filter hd) fun d hd => by
      obtain ⟨hd, hne⟩ := List.mem_filter.mp hd
      exact hcheck d hd (of_decide_eq_true hne)
  obtain ⟨huse, hleft⟩ := hrewirable.unread ((hl.distinct ho).filter _) hne hok hc
  by_contra hcn
  exact hleft (List.mem_filter.mpr ⟨(hl.mirrored ho).mpr huse, decide_eq_true hcn⟩)

/-- **Rewiring all consumers keeps a program linked**, even where it stops on the way. -/
theorem keeps_replaceInstruction : (replaceInstruction old new).Keeps Linked := by
  intro p hl
  refine (Action.readOnly_lift _).bind_after hl fun oldInst ho => ?_
  refine (Action.readOnly_lift _).bind_after hl fun newInst hn => ?_
  rw [Action.after_ite, Action.after_refuse_bind]
  split
  · exact hl
  refine (Action.readOnly_lift _).bind_after hl fun place hloc => ?_
  refine (Action.readOnly_lift _).bind_after hl fun module hm => ?_
  refine (Action.ReadOnly.forM (readOnly_checkAfter p module place.2 new)).bind_after hl
    fun u hcheck => ?_
  have ho := findInstr_ok.mp (Action.lift_ok.mp ho).1
  have hm := findModule_ok.mp (Action.lift_ok.mp hm).1
  have hcheck := ((Action.ReadOnly.forM_ok (readOnly_checkAfter p module place.2 new)).mp hcheck).2
  refine (rewirable_of_check hl ho (Action.lift_ok.mp hloc).1 hm
    (fun c hc => List.mem_of_mem_filter hc) fun c hc => ?_).forM ((hl.distinct ho).filter _)
  exact checkAfter_ok.mp (hcheck c hc)

/-! ## Rebuilding -/

theorem replaceWith_ok {op : Op} {inputs : List InstrId} {modules : List ModuleId} {u : Unit}
    {q : Program} : replaceWith i op inputs modules p = .ok u q ↔ ∃ m n old type,
      p.locate i = .ok (m, n) ∧ checkPlacement m n op.name inputs p = .ok ⟨⟩ p ∧
      p.infer op inputs modules = .ok type ∧ p.instr? i = some old ∧
      old.type.sameShape type = true ∧
      (old.type = type → p.rebuilt i old.inputs op inputs modules type = q) ∧
      (old.type ≠ type → ∃ inst,
        (p.rebuilt i old.inputs op inputs modules type).instr? i = some inst ∧
        inst.consumers.forM refreshType (p.rebuilt i old.inputs op inputs modules type) =
          .ok u q) := by
  have htail : ∀ {r : Program} {s t : ValueType}, ((s ≠ t ∧ ∃ inst, r.instr? i = some inst ∧
      inst.consumers.forM refreshType r = .ok u q) ∨ (¬ s ≠ t ∧
        (pure ⟨⟩ : Edit PUnit) r = .ok u q)) ↔ (s = t → r = q) ∧ (s ≠ t → ∃ inst,
          r.instr? i = some inst ∧ inst.consumers.forM refreshType r = .ok u q) := by
    intro r s t
    by_cases h : s = t <;> simp [h]
  simp only [replaceWith, Action.get_bind_ok, Action.lift_bind_ok, Prod.exists,
    Action.bind_ok (x := checkPlacement _ _ _ _), Action.lift_checked_bind_ok, instr_ok,
    Action.ite_ok, Action.refuse_bind_ok, and_false, false_or, Action.set_bind_ok,
    Bool.not_eq_true', Bool.not_eq_false, htail]
  constructor
  · rintro ⟨m, n, hloc, _, p', hc, type, ht, old, ho, hs, h⟩
    obtain ⟨rfl, -⟩ := checkPlacement_ok.mp hc
    exact ⟨m, n, old, type, hloc, hc, ht, ho, hs, h⟩
  · rintro ⟨m, n, old, type, hloc, hc, ht, ho, hs, h⟩
    exact ⟨m, n, hloc, ⟨⟩, p, hc, type, ht, old, ho, hs, h⟩

theorem before_of_placement {m : ModuleId} {n : Nat} {name : String} {inputs : List InstrId}
    (hi : p.instr? i = some inst) (hloc : p.locate i = .ok (m, n))
    (hc : checkPlacement m n name inputs p = .ok ⟨⟩ p) :
    ∀ x ∈ inputs, Before (p.body inst.owner) x i := by
  intro x hx
  obtain ⟨inst', module, hi', rfl, hm, hidx⟩ := locate_ok.mp hloc
  rw [hi] at hi'
  cases hi'
  obtain ⟨-, module', hm', hin⟩ := checkPlacement_ok.mp hc
  rw [hm] at hm'
  cases hm'
  obtain ⟨-, place, hplace, hlt⟩ := hin x hx
  rw [body_of_module? hm]
  exact before_of_idxOf?_lt hplace hidx hlt

/-- **Rebuilding keeps a program linked**, even where the new types do not fit. -/
theorem keeps_replaceWith {op : Op} {inputs : List InstrId} {modules : List ModuleId} :
    (replaceWith i op inputs modules).Keeps Linked := by
  intro p hl
  refine (Action.readOnly_lift _).bind_after hl fun place hloc => ?_
  obtain ⟨m, n⟩ := place
  refine (readOnly_checkPlacement _).bind_after hl fun u hc => ?_
  refine (Action.readOnly_lift _).bind_after hl fun type ht => ?_
  refine Action.ReadOnly.bind_after (fun s => Action.after_lift_checked _ s) hl fun old ho => ?_
  rw [Action.after_ite, Action.after_refuse_bind]
  split
  · exact hl
  have ho := instr_ok.mp (Action.lift_checked_ok.mp ho).1
  have hr : (p.rebuilt i old.inputs op inputs modules type).Linked :=
    hl.rebuilt ho (before_of_placement ho (Action.lift_ok.mp hloc).1 hc)
  have hrefresh : ∀ is : List InstrId, Retyped (p.rebuilt i old.inputs op inputs modules type)
      (Action.after (is.forM refreshType) (p.rebuilt i old.inputs op inputs modules type)) :=
    fun is => Action.after_forM Retyped.refl Retyped.trans retyped_refreshType _
  rw [Action.after_set_bind]
  split
  · refine Action.ReadOnly.bind_after (fun s => Action.after_lift_checked _ s) hr fun inst hi => ?_
    exact (hrefresh _).linked hr
  · exact hr

end Edit

end OffloadFusion
