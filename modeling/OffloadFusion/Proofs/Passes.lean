import OffloadFusion.Pass.Run
import OffloadFusion.Proofs.Rules

/-!
# The pass keeps programs valid

The loops of the pass keep a program valid with its interface, since every rule does
(`Rule.ends_apply`); so the verification after each rule never fails. The main result is
**`Program.verified_throughout`**.
-/

namespace OffloadFusion

open OffloadFusion.Action Program

variable {p q : Program} {s : Session} {i r : InstrId} {inst : Instruction} {h : Heuristics}

/-! ## The return -/

theorem Kept.return_operands (hp : p.Valid) (hq : q.Valid) (h : Kept p q)
    (hr : p.return? main = some r) :
    ∃ inst inst', p.instr? r = some inst ∧ q.instr? r = some inst' ∧
      List.Forall₂ (fun x y => ∃ t u, p.HasType x (.tensor t) ∧ q.HasType y (.tensor u) ∧
        t.dtype = u.dtype ∧ t.shape = u.shape) inst.inputs inst'.inputs := by
  obtain ⟨inst, hi, hret⟩ := hasOp_iff.mp (return?_eq_some.mp hr).2
  obtain ⟨inst', hi', hret'⟩ := hasOp_iff.mp (return?_eq_some.mp (h.interface.returns hr)).2
  have hbefore := hp.return_operands hi hret
  have hafter := hq.return_operands hi' hret'
  have halike := (h.interface.alike hr ⟨inst, hi, rfl⟩ ⟨inst', hi', rfl⟩).2
  have hread : List.Forall₂ (fun t y => ∃ u, q.HasType y (.tensor u) ∧ t.Alike u)
      inst.type.elements inst'.inputs :=
    forall₂_comp (fun {t u y} htu hu => ⟨u, hu, htu⟩) halike hafter.flip
  refine ⟨inst, inst', hi, hi', forall₂_comp (fun {x t y} hx hy => ?_) hbefore hread⟩
  obtain ⟨u, hy, hd, hs⟩ := hy
  exact ⟨t, u, hx, hy, hd, hs⟩

/-! ## The loops -/

namespace Pass

theorem ends_verify_bind {β : Type} {rest : Fusing β} {Q : β → Session → Prop}
    (hp : s.program.Valid) (hrest : rest.Ends s Q) :
    (do
      (← theProgram).verify
      rest : Fusing β).Ends s Q := by
  rw [ends_theProgram_bind]
  have hok : (HoldsProgram.program s).verify = .ok () := verify_ok.mpr hp
  rw [hok]
  exact hrest

theorem ends_tryRules {rules : List (Rule × Nat)} {declined : Declined} (hp : s.program.Valid)
    (hfree : s.program.Free main) (hi : i ∈ s.program.body main) :
    (tryRules h i rules declined).Ends s fun result t =>
      Kept s.program t.program ∧ (result.1 = false → t = s) := by
  induction rules generalizing declined with
  | nil => exact ⟨.refl (hp.steady _), fun _ => rfl⟩
  | cons rule rules ih =>
    rw [tryRules, ends_theProgram_bind, ends_bind, ends_lift_checked]
    intro found hfound
    cases found with
    | none => exact ih
    | some found =>
      dsimp only
      rw [ends_bind]
      refine (rule.1.ends_apply (hp.steady _) hi hfound).mono fun applied t ht => ?_
      cases applied with
      | true =>
        exact ends_verify_bind (ht.kept.steady.valid_of_free (ht.kept.free hfree)) ⟨ht.kept, nofun⟩
      | false =>
        rw [ht.declined rfl]
        exact ih

theorem ends_scan {rules : List (Rule × Nat)} {order : List InstrId} {declined : Declined}
    (hp : s.program.Valid) (hfree : s.program.Free main)
    (horder : ∀ i ∈ order, i ∈ s.program.body main) :
    (scan h rules order declined).Ends s fun _ t => Kept s.program t.program := by
  induction order generalizing declined with
  | nil => exact .refl (hp.steady _)
  | cons i order ih =>
    rw [scan, ends_bind]
    refine (ends_tryRules hp hfree (horder i List.mem_cons_self)).mono fun result t ht => ?_
    obtain ⟨applied, declined⟩ := result
    cases applied with
    | true => exact ht.1
    | false =>
      rw [ht.2 rfl]
      exact ih fun j hj => horder j (List.mem_cons_of_mem i hj)

/-- What the pass keeps of the program that it started from, in which nothing carries the main
module. -/
structure Keeping (p : Program) (s : Session) : Prop extends Kept p s.program where
  unreferenced : s.program.Free main

namespace Keeping

theorem valid (h : Keeping p s) : s.program.Valid := h.steady.valid_of_free h.unreferenced

theorem trans {t : Session} (h : Keeping p s) (h' : Kept s.program t.program) : Keeping p t :=
  ⟨h.toKept.trans h', h'.free h.unreferenced⟩

end Keeping

theorem preserves_exhaust {rules : List (Rule × Nat)} {fuel : Nat} {declined : Declined} :
    (exhaust h rules fuel declined).Preserves (Keeping p) := by
  induction fuel generalizing declined with
  | zero => exact .fault
  | succ fuel ih =>
    intro s hs
    rw [exhaust, ends_theProgram_bind, ends_bind]
    refine (ends_scan hs.valid hs.unreferenced fun _ hi => hi).mono fun result t ht => ?_
    have hkept := hs.trans ht
    obtain ⟨applied, declined⟩ := result
    cases applied with
    | false => exact hkept
    | true => exact (ih.bind fun result => .pure _) t hkept

theorem preserves_runFamily (rules : List Rule) : (runFamily h rules).Preserves (Keeping p) :=
  Preserves.theProgram.bind fun _ => preserves_exhaust.bind fun _ => .pure _

theorem preserves_runFamilyIf (enabled : Bool) (rules : List Rule) :
    (runFamilyIf enabled h rules).Preserves (Keeping p) :=
  Preserves.ite (preserves_runFamily rules) (.pure _)

theorem preserves_eliminateDeadCode :
    (liftM Edit.eliminateDeadCode : Fusing DeadCode).Preserves (Keeping p) :=
  fun _ hs => ends_edit.mpr fun _ _ hq =>
    hs.trans (.of_trim (hs.steady.trim_eliminateDeadCode hq) hs.steady.toLinked)

theorem preserves_runFamilies (c : Config) : (runFamilies c).Preserves (Keeping p) := by
  refine (preserves_runFamilyIf _ _).bind fun _ => (preserves_runFamilyIf _ _).bind fun _ => ?_
  refine (preserves_runFamily _).bind fun _ => (preserves_runFamily _).bind fun _ => ?_
  refine preserves_eliminateDeadCode.bind fun _ => (preserves_runFamilyIf _ _).bind fun _ => ?_
  refine (preserves_runFamilyIf _ _).bind fun _ => Preserves.theProgram.bind fun _ => .pure _

/-- **The pass keeps a program valid**, or stops for another reason than a failed verification. -/
theorem ends_run (c : Config) (hp : p.Valid) (hfree : p.Free main) :
    (run c).Ends p fun _ q => q.Valid := by
  have hstart : Keeping p ⟨p, 0⟩ := ⟨.refl (hp.steady _), hfree⟩
  rw [run]
  split
  · exact hp
  · exact ends_focus.mpr ((preserves_runFamilies c _ hstart).mono fun _ _ ht => ht.valid)

end Pass

/-! ## All together -/

/-- **Rules and the pass keep programs verified.** In a verified program in which nothing references
the main module, whatever rule applies at a match of its own in the main module leaves a verified
program whose main module has the same parameters with the same types, and the same return with
operands of the same element types and dimensions. The pass never fails in its verification, and
what it ends with is verified. -/
theorem Program.verified_throughout (p : Program) (hv : p.verify = .ok ())
    (hfree : ∀ i inst, p.instr? i = some inst → main ∉ inst.modules) :
    (∀ (rule : Rule) (h : Heuristics) (counter : Nat) (root : InstrId) (found : Match)
        (t : Session), root ∈ p.body main → rule.matcher.run p h root = .ok (some found) →
        rule.apply found ⟨p, counter⟩ = .ok true t →
      t.program.verify = .ok () ∧ t.program.parameters main = p.parameters main ∧
      (∀ i ∈ p.parameters main, t.program.typeOf i = p.typeOf i) ∧
      ∀ r, p.return? main = some r → t.program.return? main = some r ∧
        ∃ inst inst', p.instr? r = some inst ∧ t.program.instr? r = some inst' ∧
          List.Forall₂ (fun x y => ∃ a b, p.HasType x (.tensor a) ∧
            t.program.HasType y (.tensor b) ∧ a.dtype = b.dtype ∧ a.shape = b.shape)
            inst.inputs inst'.inputs) ∧
    ∀ c : Config, (∀ cause q, Pass.run c p ≠ .error (.refused (.verify cause)) q) ∧
      ∀ stats q, Pass.run c p = .ok stats q → q.verify = .ok () := by
  have hp := verify_ok.mp hv
  refine ⟨fun rule h counter root found t hroot hmatch hok => ?_, fun c => ?_⟩
  · have hends := rule.ends_apply (s := ⟨p, counter⟩) (hp.steady _) hroot hmatch
    rw [Ends, hok] at hends
    have hkept : Kept p t.program := hends.kept
    have ht : t.program.Valid := hkept.steady.valid_of_free (hkept.free hfree)
    refine ⟨verify_ok.mpr ht, hkept.interface.parameters, fun i hi => ?_,
      fun r hr => ⟨hkept.interface.returns hr, ?_⟩⟩
    · obtain ⟨inst, hinst, -⟩ := hp.owned (List.mem_of_mem_filter hi)
      have ht : p.HasType i inst.type := ⟨inst, hinst, rfl⟩
      rw [typeOf_ok.mpr ht, typeOf_ok.mpr (hkept.interface.types hi ht)]
    · exact hkept.return_operands hp ht hr
  · have hends := Pass.ends_run c hp hfree
    refine ⟨fun cause q hrun => ?_, fun stats q hrun => ?_⟩
    · rw [Ends, hrun] at hends
      exact hends cause rfl
    · rw [Ends, hrun] at hends
      exact verify_ok.mpr hends

/-- A dot of two parameters, returned. -/
def Program.dotProgram : Program :=
  (do
    let a ← Edit.addParameter main "a" ⟨.f32, [2, 2], [2, 1]⟩
    let b ← Edit.addParameter main "b" ⟨.f32, [2, 2], [2, 1]⟩
    let c ← Edit.addInstruction main (.dot false) [a, b] []
    let _ ← Edit.addReturn main [c] : Edit Unit).after .empty

/-- The dot is wrapped on its own. -/
theorem Program.verified_after_dot :
    dotProgram.verify = .ok () ∧ ∃ t, (Rule.standaloneDot .all).apply ⟨⟨2⟩, []⟩ ⟨dotProgram, 0⟩ =
      .ok true t ∧ t.program.verify = .ok () ∧ t.program.parameters main = [⟨0⟩, ⟨1⟩] ∧
        t.program.return? main = some ⟨3⟩ := by
  have hv : dotProgram.verify = .ok () := by decide +kernel
  have hfree : ∀ i inst, dotProgram.instr? i = some inst → main ∉ inst.modules := by
    intro i inst hi
    have hall : ∀ entry ∈ dotProgram.instructions.entries, main ∉ entry.2.modules := by
      decide +kernel
    exact hall (i.index, inst) (Arena.mem_entries.mpr hi)
  have hmatch : (Rule.standaloneDot .all).matcher.run dotProgram .default ⟨2⟩ =
      .ok (some ⟨⟨2⟩, []⟩) := by decide +kernel
  have happlied : (match (Rule.standaloneDot .all).apply ⟨⟨2⟩, []⟩ ⟨dotProgram, 0⟩ with
      | .ok true _ => true
      | _ => false) = true := by decide +kernel
  split at happlied
  · next t hok =>
    obtain ⟨hverify, hparams, -, hreturn⟩ := (verified_throughout dotProgram hv hfree).1
      (.standaloneDot .all) .default 0 ⟨2⟩ ⟨⟨2⟩, []⟩ t (by decide +kernel) hmatch hok
    have hret : dotProgram.return? main = some ⟨3⟩ := by decide +kernel
    exact ⟨hv, t, hok, hverify, hparams.trans (by decide +kernel), (hreturn ⟨3⟩ hret).1⟩
  · cases happlied

end OffloadFusion
