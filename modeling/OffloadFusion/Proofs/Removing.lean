import OffloadFusion.Proofs.Edits
import OffloadFusion.Proofs.Linked

/-!
# Removals

What is left when an instruction that nothing uses, or a whole module, is taken out of a linked
program. Other instructions keep their operands, types and order.
-/

namespace OffloadFusion

namespace Program

variable {p q : Program} {i : InstrId} {m : ModuleId} {inst : Instruction} {module : Module}

theorem Linked.notMem_body (hl : p.Linked) (hi : p.instr? i = some inst) (hm : inst.owner ≠ m) :
    i ∉ p.body m := fun h => hm (hl.owner_unique hi h)

/-! ## An instruction -/

/-- The program without an instruction that nothing uses. -/
def removed (p : Program) (i : InstrId) (m : ModuleId) (n : Nat) : Program :=
  (p.modifyBody m fun body => body.eraseIdx n).eraseInstr i

section

variable {n : Nat} (hl : p.Linked) (hi : p.instr? i = some inst) (hloc : p.locate i = .ok (m, n))

include hi in
theorem instr?_removed (j : InstrId) : (p.removed i m n).instr? j = if i = j then none else
    (p.instr? j).map fun a => if j ∈ inst.inputs then a.withoutConsumer i else a :=
  instr?_eraseInstr _ (i := i) (by rwa [instr?_modifyBody]) j

include hl hi hloc in
theorem module?_removed (k : ModuleId) : (p.removed i m n).module? k =
    (p.module? k).map fun module => { module with body := module.body.filter (· ≠ i) } := by
  obtain ⟨inst', module, hi', rfl, hm, hidx⟩ := locate_ok.mp hloc
  rw [hi] at hi'
  cases hi'
  rw [removed, module?_eraseInstr, module?_modifyBody]
  split
  · next hk =>
    subst hk
    have hn : module.body.Nodup := body_of_module? hm ▸ hl.nodup _
    simp only [hm, Option.map_some, eraseIdx_of_idxOf? hn hidx]
  · next hk =>
    cases hk' : p.module? k with
    | none => rfl
    | some module' =>
      have hfilter : module'.body.filter (· ≠ i) = module'.body := by
        rw [List.filter_eq_self]
        intro j hj
        refine decide_eq_true fun h => hl.notMem_body hi hk ?_
        rw [body_of_module? hk']
        exact h ▸ hj
      simp only [Option.map_some, hfilter]

include hl hi hloc in
theorem body_removed (k : ModuleId) : (p.removed i m n).body k = (p.body k).filter (· ≠ i) := by
  rw [body, module?_removed hl hi hloc, body]
  cases p.module? k <;> rfl

include hl hi hloc in
theorem Linked.removed (hc : inst.consumers = []) : (p.removed i m n).Linked :=
  hl.remove hi hc (body_removed hl hi hloc) (instr?_removed hi)

end

/-! ## A module -/

/-- The program without a module, whose instructions are left behind. -/
def delisted (p : Program) (m : ModuleId) (module : Module) : Program :=
  { p with
    modules := p.modules.erase m.index
    names := p.names.filter fun entry => entry.1 ≠ module.name
    freeSlots := module.slot :: p.freeSlots }

/-- The program without a module and its instructions. -/
def moduleRemoved (p : Program) (m : ModuleId) (module : Module) : Program :=
  module.body.reverse.foldl eraseInstr (p.delisted m module)

/-- Some instructions of a module are gone already, and the others of it may have lost consumers. -/
structure Erasing (p : Program) (m : ModuleId) (gone : InstrId → Prop) (q : Program) : Prop where
  gone : ∀ j, gone j → q.instr? j = none
  inside : ∀ j a, q.instr? j = some a → ∃ a', p.instr? j = some a' ∧ a.core = a'.core
  outside : ∀ j, j ∉ p.body m → q.instr? j = p.instr? j

theorem Erasing.step (hl : p.Linked) {gone : InstrId → Prop} (h : Erasing p m gone q)
    (hi : i ∈ p.body m) : Erasing p m (fun j => j = i ∨ gone j) (q.eraseInstr i) := by
  cases hq : q.instr? i with
  | none =>
    have : q.eraseInstr i = q := by rw [eraseInstr, hq]
    rw [this]
    exact ⟨by rintro j (rfl | hj); exacts [hq, h.gone j hj], h.inside, h.outside⟩
  | some a =>
    have hview := q.instr?_eraseInstr hq
    refine ⟨fun j hj => ?_, fun j b hb => ?_, fun j hj => ?_⟩
    · rw [hview]
      split
      · rfl
      · obtain rfl | hj := hj
        · contradiction
        · rw [h.gone j hj]; rfl
    · rw [hview] at hb
      split at hb
      · cases hb
      · obtain ⟨c, hc, rfl⟩ := Option.map_eq_some_iff.mp hb
        obtain ⟨c', hc', hcore⟩ := h.inside j c hc
        refine ⟨c', hc', ?_⟩
        split
        · rw [Instruction.core_withoutConsumer, hcore]
        · exact hcore
    · -- the operands of `i` are in its module
      have hin : j ∉ a.inputs := by
        intro hmem
        obtain ⟨a', ha', hcore⟩ := h.inside i a hq
        obtain ⟨-, hinputs, -⟩ := Instruction.core_eq_iff.mp hcore
        have := hl.ordered ha' (hinputs ▸ hmem)
        rw [hl.owner_unique ha' hi] at this
        exact hj this.left_mem
      have hne : i ≠ j := fun he => hj (he ▸ hi)
      rw [hview, if_neg hne, h.outside j hj]
      simp [hin]

theorem Erasing.fold (hl : p.Linked) (is : List InstrId) {gone : InstrId → Prop}
    (h : Erasing p m gone q) (his : ∀ i ∈ is, i ∈ p.body m) :
    Erasing p m (fun j => j ∈ is ∨ gone j) (is.foldl eraseInstr q) := by
  induction is generalizing q gone with
  | nil => simpa using h
  | cons i is ih =>
    have := ih (h.step hl (his i List.mem_cons_self)) fun j hj => his j (List.mem_cons_of_mem i hj)
    refine ⟨fun j hj => this.gone j ?_, this.inside, this.outside⟩
    rw [List.mem_cons] at hj
    tauto

theorem instr?_moduleRemoved (hl : p.Linked) (hm : p.module? m = some module) (j : InstrId) :
    (p.moduleRemoved m module).instr? j = if j ∈ p.body m then none else p.instr? j := by
  have hstart : Erasing p m (fun _ => False) (p.delisted m module) :=
    ⟨fun _ => False.elim, fun j a h => ⟨a, h, rfl⟩, fun _ _ => rfl⟩
  have hend := hstart.fold hl module.body.reverse fun i hi => by
    rw [body_of_module? hm]
    exact List.mem_reverse.mp hi
  split
  · next hj =>
    rw [body_of_module? hm] at hj
    exact hend.gone j (.inl (List.mem_reverse.mpr hj))
  · next hj => exact hend.outside j hj

theorem module?_moduleRemoved (k : ModuleId) :
    (p.moduleRemoved m module).module? k = if m = k then none else p.module? k := by
  have hfold : ∀ (is : List InstrId) (q : Program),
      (is.foldl eraseInstr q).module? k = q.module? k := by
    intro is
    induction is with
    | nil => exact fun q => rfl
    | cons i is ih => exact fun q => (ih _).trans (q.module?_eraseInstr i k)
  have h : m.index = k.index ↔ m = k := by cases m; cases k; simp
  rw [moduleRemoved, hfold]
  simp only [delisted, module?, Arena.get?_erase, h]

theorem body_moduleRemoved (k : ModuleId) :
    (p.moduleRemoved m module).body k = if k = m then [] else p.body k := by
  rw [body, module?_moduleRemoved, body]
  by_cases h : k = m
  · simp [h]
  · simp [h, Ne.symm h]

theorem Linked.moduleRemoved (hl : p.Linked) (hm : p.module? m = some module) :
    (p.moduleRemoved m module).Linked :=
  hl.removeModule body_moduleRemoved (instr?_moduleRemoved hl hm)

end Program

namespace Edit

open Program

variable {p q : Program} {i : InstrId} {m : ModuleId} {u : Unit}

theorem removeInstruction_ok : removeInstruction i p = .ok u q ↔ ∃ inst m n,
    p.instr? i = some inst ∧ inst.consumers = [] ∧ p.locate i = .ok (m, n) ∧
      q = p.removed i m n := by
  simp only [removeInstruction, Action.get_bind_ok, Action.lift_bind_ok, findInstr_ok,
    Action.ite_ok, Action.refuse_bind_ok, and_false, false_or, Prod.exists, Action.set_ok,
    Bool.not_eq_true', Bool.not_eq_false, List.isEmpty_iff]
  constructor
  · rintro ⟨inst, hi, hc, m, n, hloc, rfl⟩
    exact ⟨inst, m, n, hi, hc, hloc, rfl⟩
  · rintro ⟨inst, m, n, hi, hc, hloc, rfl⟩
    exact ⟨inst, hi, hc, m, n, hloc, rfl⟩

theorem atomic_removeInstruction : (removeInstruction i).Atomic := by
  refine Action.readOnly_get.bind_atomic fun p =>
    (Action.readOnly_lift _).bind_atomic fun inst => ?_
  refine (Action.atomic_refuse_bind _ _).ite ?_
  exact (Action.readOnly_lift _).bind_atomic fun place => Action.atomic_set _

theorem removeModule_ok : removeModule m p = .ok u q ↔
    m ≠ main ∧ ∃ module, p.module? m = some module ∧ q = p.moduleRemoved m module := by
  simp only [removeModule, Action.get_bind_ok, Action.lift_bind_ok, findModule_ok,
    Action.ite_ok, Action.refuse_bind_ok, and_false, false_or, Action.set_ok]
  exact and_congr_right fun _ => exists_congr fun module => and_congr_right fun _ =>
    ⟨Eq.symm, Eq.symm⟩

theorem atomic_removeModule : (removeModule m).Atomic := by
  refine (Action.atomic_refuse_bind _ _).ite ?_
  refine Action.readOnly_get.bind_atomic fun p => ?_
  exact (Action.readOnly_lift _).bind_atomic fun module => Action.atomic_set _

end Edit

end OffloadFusion
