import OffloadFusion.Proofs.Callers
import OffloadFusion.Proofs.Copies

/-!
# Edits that fail

Building and removing check everything before they change anything, so they are atomic from every
program. `copyModule` inserts one instruction after the other; it is atomic on verified programs
(`Valid.copyModule_error`), where no insertion of the loop fails.
**`Command.unchanged_of_error`** is about all edits but the replacements.
-/

namespace OffloadFusion

namespace Action

variable {σ ε α : Type} {x : Action σ ε α}

theorem Atomic.discard (h : x.Atomic) :
    (x >>= fun _ => (pure ⟨⟩ : Action σ ε PUnit)).Atomic := by
  intro s e s' he
  simp only [bind, EStateM.bind] at he
  cases hx : x s with
  | ok a t =>
    rw [hx] at he
    cases he
  | error e' t =>
    rw [hx] at he
    cases he
    exact h _ _ _ hx

end Action

namespace Program

variable {p q : Program} {source : ModuleId} {name : String} {e : Failure GraphError}

/-- **A copy that fails leaves a valid program as it was**: only the module and the name can be
wrong. -/
theorem Valid.copyModule_error (hp : p.Valid)
    (he : Edit.copyModule source name p = .error e q) : q = p := by
  by_cases hname : p.moduleNamed? name = none
  · cases hm : p.module? source with
    | some module =>
      obtain ⟨result, r, hok, -⟩ := hp.completes_copyModule (by rw [hm]; rfl) hname
      cases he.symm.trans hok
    | none =>
      have hfind : p.findModule source = refuse (.unknownModule source) := by rw [findModule, hm]
      rw [← Action.after_of_error he, Edit.copyModule, Action.after_get_bind,
        Action.after_lift_bind, hfind]
      rfl
  · rw [← Action.after_of_error he, Edit.copyModule, Action.after_get_bind, Action.after_lift_bind]
    split
    · rw [Action.after_bind]
      cases hcreate : Edit.createModule name p with
      | ok target r => exact absurd (Edit.createModule_ok.mp hcreate).1 hname
      | error e' r => exact Edit.atomic_createModule _ _ _ hcreate
    · rfl

end Program

namespace Command

open Program Edit

variable {p q : Program}

/-- **Edits that fail leave a verified program as it was**, with any arguments: creating, copying
and removing modules, adding parameters, constants, instructions and returns, and removing
instructions. -/
theorem unchanged_of_error (c : Command) (h : p.verify = .ok ⟨⟩) (hc : c.replaces = false)
    {e : Failure GraphError} (he : c.run p = .error e q) : q = p := by
  cases c with
  | createModule name => exact atomic_createModule.discard _ _ _ he
  | copyModule source name =>
    simp only [run, bind, EStateM.bind] at he
    cases hcopy : Edit.copyModule source name p with
    | ok result r =>
      rw [hcopy] at he
      cases he
    | error e' r =>
      rw [hcopy] at he
      cases he
      exact (verify_ok.mp h).copyModule_error hcopy
  | removeModule m => exact atomic_removeModule _ _ _ he
  | addParameter m name type => exact atomic_addParameter.discard _ _ _ he
  | addLiteral m type data => exact atomic_addLiteral.discard _ _ _ he
  | addInstruction m op inputs modules => exact atomic_addInstruction.discard _ _ _ he
  | insertBefore place op inputs modules => exact atomic_insertBefore.discard _ _ _ he
  | insertAfter place op inputs modules => exact atomic_insertAfter.discard _ _ _ he
  | addReturn m inputs => exact atomic_addReturn.discard _ _ _ he
  | removeInstruction i => exact atomic_removeInstruction _ _ _ he
  | replaceInstruction | replaceWith => cases hc

/-- One edit of each kind that fails, on the module that carries another one. -/
def failing : List Command :=
  [createModule "g", copyModule ⟨2⟩ "g", removeModule main,
    addParameter ⟨2⟩ "x" ⟨.f32, [2], [1]⟩, addLiteral ⟨4⟩ ⟨.f32, [1], [1]⟩ (.f32 []),
    addInstruction ⟨2⟩ (.binary .add) [⟨3⟩] [], insertBefore ⟨3⟩ (.unary .relu) [⟨4⟩] [],
    insertAfter ⟨6⟩ (.unary .relu) [⟨5⟩] [], addReturn ⟨2⟩ [⟨5⟩], removeInstruction ⟨3⟩]

/-- None of them changes the program. -/
theorem unchanged_of_error_failing :
    carryingModule.verify = .ok ⟨⟩ ∧ ∀ c ∈ failing, c.replaces = false ∧
      ∃ e q, c.run carryingModule = .error e q ∧ q = carryingModule := by
  have hv : carryingModule.verify = .ok ⟨⟩ := by decide +kernel
  have hfails : ∀ c ∈ failing, c.replaces = false ∧
      ∃ e q, c.run carryingModule = .error (.refused e) q ∧ True := by decide +kernel
  refine ⟨hv, fun c hc => ?_⟩
  obtain ⟨hkind, e, q, he, -⟩ := hfails c hc
  exact ⟨hkind, _, q, he, c.unchanged_of_error hv hkind he⟩

/-- On a program that is not verified, a copy may stop half way: here the carried module has lost
its parameter, and the copy of its caller is left without its end. -/
example : ∃ e q, Edit.copyModule ⟨2⟩ "h" ((replaceWith ⟨0⟩ (.literal ⟨.f32, [1], [1]⟩ (.f32 [⟨0⟩]))
    [] []).run.after carryingModule) = .error (.refused e) q ∧ q.body ⟨3⟩ = [⟨7⟩, ⟨8⟩] := by
  decide +kernel

end Command

end OffloadFusion
