import Mathlib.Data.List.Flatten
import OffloadFusion.Proofs.Cleanup
import OffloadFusion.Proofs.Completes

/-!
# Cleaning up to the end

Pruning and releasing modules have bounds on their rounds, by the operands and references that there
are. Each removal takes those that it adds to the stack out of the program (`Shrunk.length_le`), so
**the bounds are never met** (`Steady.completes_prune`, `Steady.completes_releaseModule`).
-/

namespace OffloadFusion.Program

open OffloadFusion.Action

variable {p q : Program} {i : InstrId} {m : ModuleId} {inst : Instruction} {fuel : Nat}
  {e : Option ModuleId}

/-! ## What removals take out -/

/-- What an instruction carries; nothing if it is gone. -/
def carried {α : Type} (f : Instruction → List α) (p : Program) (i : InstrId) : List α :=
  ((p.instr? i).map f).getD []

theorem flatMap_entries {α : Type} (f : Instruction → List α) (p : Program) :
    (p.instructions.entries.flatMap fun e => f e.2) = p.handles.flatMap (p.carried f) := by
  rw [handles, List.flatMap_map]
  refine List.flatMap_congr fun e he => ?_
  rw [carried, show p.instr? ⟨e.1⟩ = some e.2 from Arena.mem_entries.mp he]
  rfl

theorem length_flatMap_le {α β : Type} {xs ys : List α} (f : α → List β) (hn : xs.Nodup)
    (hsub : xs ⊆ ys) : (xs.flatMap f).length ≤ (ys.flatMap f).length := by
  obtain ⟨l, hperm, hsub⟩ := List.subperm_of_subset hn hsub
  exact (hperm.flatMap_right f).length_eq ▸ (hsub.flatMap f).length_le

/-- Whatever is there was there before, up to consumers. -/
structure Fewer (p q : Program) : Prop where
  left : ∀ {j inst}, q.instr? j = some inst → ∃ inst', p.instr? j = some inst' ∧
    inst.core = inst'.core

theorem Shrunk.fewer (h : Shrunk p q) : Fewer p q := ⟨h.left⟩

namespace Fewer

theorem refl (p : Program) : Fewer p p := ⟨fun hj => ⟨_, hj, rfl⟩⟩

theorem trans {r : Program} (h : Fewer p q) (h' : Fewer q r) : Fewer p r := by
  refine ⟨fun hj => ?_⟩
  obtain ⟨b, hb, hc⟩ := h'.left hj
  obtain ⟨a, ha, hc'⟩ := h.left hb
  exact ⟨a, ha, hc.trans hc'⟩

/-- What is gone and what is left carry no more than what there was. -/
theorem length_le {α : Type} (h : Fewer p q) {f : Instruction → List α}
    (hf : ∀ {a b : Instruction}, a.core = b.core → f a = f b) {gone : List InstrId}
    (hn : gone.Nodup) (hgone : ∀ i ∈ gone, i ∈ p.handles ∧ q.instr? i = none) :
    (gone.flatMap (p.carried f)).length + (q.instructions.entries.flatMap fun e => f e.2).length ≤
      (p.instructions.entries.flatMap fun e => f e.2).length := by
  have hleft : ∀ i ∈ q.handles, i ∈ p.handles ∧ q.carried f i = p.carried f i := by
    intro i hi
    obtain ⟨inst, hq⟩ := mem_handles.mp hi
    obtain ⟨inst', hp, hc⟩ := h.left hq
    refine ⟨mem_handles.mpr ⟨inst', hp⟩, ?_⟩
    rw [carried, carried, hq, hp, Option.map_some, Option.map_some, hf hc]
  have hnodup : (gone ++ q.handles).Nodup := by
    refine List.nodup_append.mpr ⟨hn, q.nodup_handles, fun i hi j hj he => ?_⟩
    obtain ⟨inst, hq⟩ := mem_handles.mp hj
    rw [← he, (hgone i hi).2] at hq
    cases hq
  have hsub : gone ++ q.handles ⊆ p.handles := by
    intro i hi
    obtain hi | hi := List.mem_append.mp hi
    · exact (hgone i hi).1
    · exact (hleft i hi).1
  have hle := length_flatMap_le (p.carried f) hnodup hsub
  rw [List.flatMap_append, List.length_append] at hle
  rw [flatMap_entries, flatMap_entries, List.flatMap_congr fun i hi => (hleft i hi).2]
  exact hle

theorem inputCount_le (h : Fewer p q) (hi : p.instr? i = some inst) (hgone : q.instr? i = none) :
    inst.inputs.length + q.inputCount ≤ p.inputCount := by
  have hle := h.length_le (f := Instruction.inputs)
    (fun hc => (Instruction.core_eq_iff.mp hc).2.1) (List.nodup_singleton i)
    fun j hj => List.mem_singleton.mp hj ▸ ⟨mem_handles.mpr ⟨inst, hi⟩, hgone⟩
  rwa [List.flatMap_singleton, carried, hi] at hle

theorem inputCount_mono (h : Fewer p q) : q.inputCount ≤ p.inputCount := by
  have hle := h.length_le (f := Instruction.inputs)
    (fun hc => (Instruction.core_eq_iff.mp hc).2.1) List.nodup_nil fun j hj => nomatch hj
  rwa [List.flatMap_nil, List.length_nil, Nat.zero_add] at hle

/-- A module that goes takes its references with it. -/
theorem referenceCount_le (h : Fewer p q) (hl : p.Linked)
    (hgone : ∀ i ∈ p.body m, q.instr? i = none) :
    (p.references m).length + q.referenceCount ≤ p.referenceCount := by
  refine h.length_le (f := Instruction.modules)
    (fun hc => (Instruction.core_eq_iff.mp hc).2.2.1) (hl.nodup m) fun i hi => ?_
  obtain ⟨inst, hinst, -⟩ := hl.owned hi
  exact ⟨mem_handles.mpr ⟨inst, hinst⟩, hgone i hi⟩

end Fewer

theorem Linked.exists_locate (hl : p.Linked) (hi : i ∈ p.body m) :
    ∃ n, p.locate i = .ok (m, n) ∧ (p.body m).idxOf? i = some n := by
  obtain ⟨inst, hinst, ho⟩ := hl.owned hi
  obtain ⟨module, hm, hb⟩ := module?_of_mem_body hi
  obtain ⟨n, hn⟩ := Option.isSome_iff_exists.mp (List.isSome_idxOf?.mpr hi)
  exact ⟨n, locate_ok.mpr ⟨inst, module, hinst, ho, hm, hb ▸ hn⟩, hn⟩

/-! ## Releasing -/

theorem Steady.completes_releaseFrom {stack : List ModuleId} (h : p.Steady e)
    (hfuel : stack.length + p.referenceCount ≤ fuel) :
    (Edit.releaseFrom fuel stack).Completes p fun _ q => Trim e p q := by
  suffices hok : ∃ u q, Edit.releaseFrom fuel stack p = .ok u q by
    obtain ⟨u, q, hok⟩ := hok
    exact ⟨u, q, hok, h.trim_releaseFrom hok⟩
  induction fuel generalizing p stack with
  | zero =>
    cases stack with
    | nil => exact ⟨_, _, rfl⟩
    | cons m stack => simp at hfuel
  | succ fuel ih =>
    cases stack with
    | nil => exact ⟨_, _, rfl⟩
    | cons m stack =>
      rw [List.length_cons] at hfuel
      rw [Edit.releaseFrom]
      simp only [Action.get_bind_ok, Action.ite_ok]
      by_cases hcond : m = main ∨ (p.module? m).isNone = true ∨ p.isReferenced m = true
      · have hrest : stack.length + p.referenceCount ≤ fuel := by omega
        obtain ⟨u, q, hok⟩ := ih h hrest
        exact ⟨u, q, .inl ⟨hcond, hok⟩⟩
      · obtain ⟨hmain, halive, href⟩ := (by simpa only [not_or] using hcond :
          ¬ m = main ∧ ¬ (p.module? m).isNone = true ∧ ¬ p.isReferenced m = true)
        obtain ⟨module, hm⟩ := Option.ne_none_iff_exists'.mp
          (mt Option.isNone_iff_eq_none.mpr halive)
        have hremove := (Edit.removeModule_ok (u := ⟨⟩)).mpr ⟨hmain, module, hm, rfl⟩
        have htrim := h.trim_removeModule (Bool.eq_false_iff.mpr href) hremove
        have hcount := htrim.shrunk.fewer.referenceCount_le h.toLinked (m := m) fun i hi => by
          rw [instr?_moduleRemoved h.toLinked hm, if_pos hi]
        have hrest : ((p.references m).reverse ++ stack).length +
            (p.moduleRemoved m module).referenceCount ≤ fuel := by
          rw [List.length_append, List.length_reverse]
          omega
        obtain ⟨u, q, hok⟩ := ih htrim.steady hrest
        exact ⟨u, q, .inr ⟨hcond, Action.bind_ok.mpr ⟨_, _, hremove, hok⟩⟩⟩

/-- **Releasing a module comes to an end.** -/
theorem Steady.completes_releaseModule (h : p.Steady e) (m : ModuleId) :
    (Edit.releaseModule m).Completes p fun _ q => Trim e p q := by
  rw [Edit.releaseModule, completes_get_bind]
  refine h.completes_releaseFrom ?_
  rw [List.length_singleton]
  omega

theorem Steady.completes_releaseModules (h : p.Steady e) (ms : List ModuleId) :
    (ms.forM Edit.releaseModule).Completes p fun _ q => Trim e p q := by
  induction ms generalizing p with
  | nil => exact ⟨⟨⟩, p, rfl, .refl h⟩
  | cons m ms ih =>
    rw [List.forM, completes_bind]
    refine (h.completes_releaseModule m).mono fun _ q hq => ?_
    exact (ih hq.steady).mono fun _ r hr => hq.trans hr

/-! ## Pruning -/

theorem Steady.completes_pruneFrom {stack : List InstrId} (h : p.Steady (some main))
    (hin : Inside stack p) (hfuel : stack.length + p.inputCount ≤ fuel) :
    (Edit.pruneFrom fuel stack).Completes p fun _ q => Trim (some main) p q := by
  suffices hok : ∃ u q, Edit.pruneFrom fuel stack p = .ok u q by
    obtain ⟨u, q, hok⟩ := hok
    exact ⟨u, q, hok, h.trim_pruneFrom hin hok⟩
  induction fuel generalizing p stack with
  | zero =>
    cases stack with
    | nil => exact ⟨_, _, rfl⟩
    | cons i stack => simp at hfuel
  | succ fuel ih =>
    cases stack with
    | nil => exact ⟨_, _, rfl⟩
    | cons i stack =>
      rw [List.length_cons] at hfuel
      have hrest : Inside stack p := fun j hj => hin j (List.mem_cons_of_mem i hj)
      rw [Edit.pruneFrom]
      simp only [Action.get_bind_ok]
      cases hi : p.instr? i with
      | none => exact ih h hrest (by omega)
      | some inst =>
        simp only [Action.ite_ok]
        by_cases hcond : (!inst.consumers.isEmpty || inst.op.isParam || inst.op.isReturn) = true
        · obtain ⟨u, q, hok⟩ := ih h hrest (by omega)
          exact ⟨u, q, .inl ⟨hcond, hok⟩⟩
        obtain ⟨⟨hc, hparam⟩, hret⟩ : (inst.consumers = [] ∧ inst.op.isParam = false) ∧
            inst.op.isReturn = false := by simpa [not_or] using hcond
        have ho := hin i List.mem_cons_self inst hi
        obtain ⟨n, hloc, -⟩ := h.toLinked.exists_locate (h.listed hi)
        have hremove := (Edit.removeInstruction_ok (u := ⟨⟩)).mpr ⟨inst, _, n, hi, hc, hloc, rfl⟩
        have htrim := h.trim_removeInstruction hi ho hparam hret hremove
        have hcount := htrim.shrunk.fewer.inputCount_le hi (by rw [instr?_removed hi, if_pos rfl])
        obtain ⟨_, q₁, hrelease, htrim₁⟩ := htrim.steady.completes_releaseModules inst.modules
        have hcount₁ := htrim₁.shrunk.fewer.inputCount_mono
        have hall := htrim.trans htrim₁
        have hin' : Inside (inst.inputs.reverse ++ stack) p := by
          intro x hx xinst hxinst
          obtain hx | hx := List.mem_append.mp hx
          · obtain ⟨a, ha, hao⟩ := h.operand hi (List.mem_reverse.mp hx)
            rw [hxinst] at ha
            cases ha
            exact hao.trans ho
          · exact hrest x hx xinst hxinst
        obtain ⟨count, q, hok⟩ := ih hall.steady (hall.shrunk.inside hin') (by
          rw [List.length_append, List.length_reverse]
          omega)
        refine ⟨count + 1, q, .inr ⟨hcond, ?_⟩⟩
        exact Action.bind_ok.mpr ⟨_, _, hremove, Action.bind_ok.mpr ⟨_, _, hrelease,
          Action.bind_ok.mpr ⟨count, q, hok, rfl⟩⟩⟩

/-- **Pruning the main module comes to an end.** -/
theorem Steady.completes_prune {roots : List InstrId} (h : p.Steady (some main))
    (hin : Inside roots p) :
    (Edit.prune roots).Completes p fun _ q => Trim (some main) p q := by
  rw [Edit.prune, completes_get_bind]
  refine h.completes_pruneFrom (fun i hi => hin i (List.mem_reverse.mp hi)) ?_
  rw [List.length_reverse]
  omega

end OffloadFusion.Program
