import OffloadFusion.Proofs.Growth
import OffloadFusion.Proofs.Reached

/-!
# Edits of verified programs

A module that no instruction references can be edited freely: its signature is nobody's concern. So
**a successful edit of the instructions of such a module keeps a verified program verified**
(`Command.verified_run`), as long as a return is only added as one and no instruction is given the
module that it belongs to.

* `Command.target?`: the module that an edit changes. `Command.supplied?`: what it is given to put
  there.
* `Valid.insertAt` and the following: one kind of edit each.
-/

namespace OffloadFusion

namespace Program

variable {p q : Program} {i old new : InstrId} {m : ModuleId} {n : Nat} {inst : Instruction}
  {op : Op} {inputs : List InstrId} {modules : List ModuleId} {u : Unit}

/-! ## One edit -/

theorem Valid.insertAt (h : p.Valid) (hfree : p.Free m) (hend : p.EndSafe m n op)
    (hmod : m ∉ modules) (hok : Edit.insertAt m n op inputs modules p = .ok i q) : q.Valid := by
  have hsteady := (h.steady (some m)).insertAt sparesAny_some.mp hend hmod hok
  exact hsteady.valid_of_free ((inserted_of_ok h.toLinked hok).free hfree hmod)

theorem Valid.replaceInstruction (h : p.Valid) (hi : p.instr? old = some inst)
    (hfree : p.Free inst.owner) (hok : Edit.replaceInstruction old new p = .ok u q) : q.Valid := by
  obtain ⟨hpending, hrewired, -⟩ :=
    (h.steady (some inst.owner)).replaceInstruction_of_mem (h.listed hi) hok
  exact hpending.steady.valid_of_free (hrewired.free hfree)

theorem Valid.replaceWith (h : p.Valid) (hi : p.instr? i = some inst) (hfree : p.Free inst.owner)
    (hop : op.isReturn = false) (hmod : inst.owner ∉ modules)
    (hok : Edit.replaceWith i op inputs modules p = .ok u q) : q.Valid := by
  have hret : op.isReturn → inst.op.isReturn := fun hret => by
    rw [hop] at hret
    cases hret
  obtain ⟨hpending, hrebuilt⟩ := (h.steady (some inst.owner)).replaceWith hi hret hmod hok
  exact hpending.steady.valid_of_free (hrebuilt.free hi hfree hmod)

theorem Valid.removeInstruction (h : p.Valid) (hi : p.instr? i = some inst)
    (hfree : p.Free inst.owner) (hok : Edit.removeInstruction i p = .ok u q) : q.Valid := by
  obtain ⟨inst', m, n, hi', hc, hloc, rfl⟩ := Edit.removeInstruction_ok.mp hok
  cases hi.symm.trans hi'
  obtain ⟨inst', -, hi', rfl, -, -⟩ := locate_ok.mp hloc
  cases hi.symm.trans hi'
  have hsteady := (h.steady (some inst.owner)).removed hi hc hloc
    fun hs => .inl (sparesAny_some.mp hs)
  refine hsteady.valid_of_free fun j b hj => ?_
  have hji : j ≠ i := by
    rintro rfl
    rw [instr?_removed hi, if_pos rfl] at hj
    cases hj
  obtain ⟨a, ha, hcore⟩ := (sameCore_removed hi hji).exists_instr hj
  rw [(Instruction.core_eq_iff.mp hcore).2.2.1]
  exact hfree j a ha

end Program

/-! ## All edits -/

namespace Command

open Program

/-- The module whose instructions the edit changes; none for an edit of whole modules. -/
def target? (p : Program) : Command → Option ModuleId
  | createModule _ | copyModule _ _ | removeModule _ => none
  | addParameter m _ _ | addLiteral m _ _ | addInstruction m _ _ _ | addReturn m _ => some m
  | insertBefore i _ _ _ | insertAfter i _ _ _ | replaceInstruction i _ | replaceWith i _ _ _
  | removeInstruction i => (p.instr? i).map Instruction.owner

/-- The operation and the modules that the edit is given. -/
def supplied? : Command → Option (Op × List ModuleId)
  | addInstruction _ op _ modules | insertBefore _ op _ modules | insertAfter _ op _ modules
  | replaceWith _ op _ modules => some (op, modules)
  | _ => none

variable {p q : Program} {m : ModuleId}

theorem discard_ok {α : Type} {x : Edit α} {u : Unit}
    (h : (x >>= fun _ => (pure ⟨⟩ : Edit Unit)) p = .ok u q) : ∃ a, x p = .ok a q := by
  obtain ⟨a, r, hx, hr⟩ := Action.bind_ok.mp h
  cases hr
  exact ⟨a, hx⟩

theorem valid_run {c : Command} {u : Unit} (h : p.Valid) (htarget : c.target? p = some m)
    (hfree : p.Free m)
    (hsupplied : ∀ op modules, c.supplied? = some (op, modules) → op.isReturn = false ∧ m ∉ modules)
    (hok : c.run p = .ok u q) : q.Valid := by
  cases c with
  | createModule | copyModule | removeModule => cases htarget
  | addParameter k name type =>
    cases htarget
    obtain ⟨i, hok⟩ := discard_ok hok
    obtain ⟨-, module, hm, hok⟩ := Edit.addParameter_ok.mp hok
    rw [← body_of_module? hm] at hok
    exact h.insertAt hfree (endSafe_parametersEnd rfl) List.not_mem_nil hok
  | addLiteral k type data =>
    cases htarget
    obtain ⟨i, hok⟩ := discard_ok hok
    obtain ⟨module, hm, hok⟩ := Edit.addLiteral_ok.mp hok
    rw [← body_of_module? hm] at hok
    exact h.insertAt hfree (endSafe_parametersEnd rfl) List.not_mem_nil hok
  | addInstruction k op inputs modules =>
    cases htarget
    obtain ⟨hop, hmod⟩ := hsupplied op modules rfl
    obtain ⟨i, hok⟩ := discard_ok hok
    obtain ⟨module, hm, hok⟩ := Edit.addInstruction_ok.mp hok
    rw [← body_of_module? hm] at hok
    exact h.insertAt hfree (endSafe_append hop) hmod hok
  | addReturn k inputs =>
    cases htarget
    obtain ⟨i, hok⟩ := discard_ok hok
    obtain ⟨hnone, module, hm, hok⟩ := Edit.addReturn_ok.mp hok
    rw [← body_of_module? hm] at hok
    exact h.insertAt hfree (.inr ⟨rfl, hnone⟩) List.not_mem_nil hok
  | insertBefore place op inputs modules =>
    obtain ⟨hop, hmod⟩ := hsupplied op modules rfl
    obtain ⟨inst, hplace, rfl⟩ := Option.map_eq_some_iff.mp htarget
    obtain ⟨i, hok⟩ := discard_ok hok
    obtain ⟨k, n, hloc, hok⟩ := Edit.insertBefore_ok.mp hok
    obtain ⟨inst', -, hplace', rfl, -, -⟩ := locate_ok.mp hloc
    cases hplace.symm.trans hplace'
    exact h.insertAt hfree (endSafe_before hloc hop) hmod hok
  | insertAfter place op inputs modules =>
    obtain ⟨hop, hmod⟩ := hsupplied op modules rfl
    obtain ⟨inst, hplace, rfl⟩ := Option.map_eq_some_iff.mp htarget
    obtain ⟨i, hok⟩ := discard_ok hok
    obtain ⟨k, n, hloc, hret, hok⟩ := Edit.insertAfter_ok.mp hok
    obtain ⟨inst', -, hplace', rfl, -, -⟩ := locate_ok.mp hloc
    cases hplace.symm.trans hplace'
    exact h.insertAt hfree (endSafe_after hloc hret hop) hmod hok
  | replaceInstruction old new =>
    obtain ⟨inst, hold, rfl⟩ := Option.map_eq_some_iff.mp htarget
    exact h.replaceInstruction hold hfree hok
  | replaceWith i op inputs modules =>
    obtain ⟨hop, hmod⟩ := hsupplied op modules rfl
    obtain ⟨inst, hi, rfl⟩ := Option.map_eq_some_iff.mp htarget
    exact h.replaceWith hi hfree hop hmod hok
  | removeInstruction i =>
    obtain ⟨inst, hi, rfl⟩ := Option.map_eq_some_iff.mp htarget
    exact h.removeInstruction hi hfree hok

/-- **Successful edits keep a verified program verified**: building, rewiring and removing
instructions of a module that no instruction references, where a given operation is no return and
the given modules are others. -/
theorem verified_run (c : Command) (h : p.verify = .ok ⟨⟩) (htarget : c.target? p = some m)
    (hfree : ∀ i inst, p.instr? i = some inst → m ∉ inst.modules)
    (hsupplied : ∀ op modules, c.supplied? = some (op, modules) → op.isReturn = false ∧ m ∉ modules)
    (hok : c.run p = .ok ⟨⟩ q) : q.verify = .ok ⟨⟩ :=
  verify_ok.mpr (valid_run (verify_ok.mp h) htarget hfree hsupplied hok)

end Command

/-- A matrix transposed twice, returned. -/
def Program.twiceTransposed : Program :=
  (do
    let x ← Edit.addParameter main "x" ⟨.f32, [2, 2], [2, 1]⟩
    let a ← Edit.addInstruction main (.reindex (.transpose [1, 0])) [x] []
    let b ← Edit.addInstruction main (.reindex (.transpose [1, 0])) [a] []
    let _ ← Edit.addReturn main [b] : Edit Unit).after .empty

/-- The first view is replaced by a copy, whose layout changes those of the second view and of the
return. -/
theorem Command.verified_run_replaceWith :
    let p := Program.twiceTransposed
    let c := Command.replaceWith ⟨1⟩ (.reindex .contiguous) [⟨0⟩] []
    p.verify = .ok ⟨⟩ ∧ ∃ q, c.run p = .ok ⟨⟩ q ∧ q.verify = .ok ⟨⟩ ∧
      p.typeOf ⟨3⟩ = .ok (.tensor ⟨.f32, [2, 2], [2, 1]⟩) ∧
      q.typeOf ⟨3⟩ = .ok (.tensor ⟨.f32, [2, 2], [1, 2]⟩) := by
  intro p c
  have hv : p.verify = .ok ⟨⟩ := by decide +kernel
  have hfree : ∀ i inst, p.instr? i = some inst → Program.main ∉ inst.modules := by
    intro i inst hi
    have hall : ∀ entry ∈ p.instructions.entries, Program.main ∉ entry.2.modules := by
      decide +kernel
    exact hall (i.index, inst) (Arena.mem_entries.mpr hi)
  have hsupplied : ∀ op modules, c.supplied? = some (op, modules) →
      op.isReturn = false ∧ Program.main ∉ modules := by
    intro op modules he
    cases he
    exact ⟨rfl, List.not_mem_nil⟩
  have hends : (match c.run p with
      | .ok _ q => decide (q.typeOf ⟨3⟩ = .ok (.tensor ⟨.f32, [2, 2], [1, 2]⟩))
      | .error _ _ => false) = true := by decide +kernel
  split at hends
  · next q hrun =>
    exact ⟨hv, q, hrun, c.verified_run hv (by decide +kernel) hfree hsupplied hrun,
      by decide +kernel, of_decide_eq_true hends⟩
  · cases hends

end OffloadFusion
