import OffloadFusion.Proofs.HandingOver
import OffloadFusion.Proofs.Moving

/-!
# Deferring what depends on an instruction

`Edit.relocateDependents i place` goes once through the part of an order from `i` up to `place` and
puts what depends on `i` just before `place`, each time in an order that the last step has changed.
For a module of a verified program that nothing references, **what it does is a stable partition of
that part, and the program stays verified** (`Program.relocateDependents_exact`).

* `Program.deferred`: the two halves of the partition.
* `exists_modifyBody_of_relocate`: the loop changes nothing but one order.
* `Linked.relocateDependents_deferred`, `Linked.relocateDependents_idle`: the two outcomes.
-/

namespace OffloadFusion.Program

open OffloadFusion.Action

variable {p q r : Program} {i j place : InstrId} {m k : ModuleId} {n : Nat} {u : Unit}
  {pre part post todo : List InstrId}

instance (a b : InstrId) : Decidable (p.DependsOn a b) := decidable_of_iff _ reaches_iff

instance (p : Program) (m : ModuleId) : Decidable (p.Free m) :=
  decidable_of_iff (∀ e ∈ p.instructions.entries, m ∉ e.2.modules)
    ⟨fun h i _ hi => h (i.index, _) (Arena.mem_entries.mpr hi),
      fun h e he => h ⟨e.1⟩ e.2 (Arena.mem_entries.mp he)⟩

/-- Part of an order, with what depends on `i` behind the rest; both keep their order. -/
def deferred (p : Program) (i : InstrId) (part : List InstrId) : List InstrId :=
  (part.filter fun j => ¬ p.DependsOn i j) ++ part.filter fun j => p.DependsOn i j

theorem deferred_eq (p : Program) (i : InstrId) (part : List InstrId) : p.deferred i part =
    (part.filter fun j => !p.reaches i j) ++ part.filter fun j => p.reaches i j := by
  have hd : ∀ j, decide (p.DependsOn i j) = p.reaches i j := fun j => by
    rw [Bool.eq_iff_iff, decide_eq_true_iff, reaches_iff]
  simp only [deferred, hd, decide_not]

/-! ## Nothing but an order -/

theorem modifyBody_id (p : Program) (m : ModuleId) : p.modifyBody m id = p := by
  refine congrArg (fun modules => { p with modules }) (congrArg Arena.mk ?_)
  refine Array.ext_getElem? fun k => ?_
  rw [Array.getElem?_modify]
  split
  · cases p.modules.cells[k]? with
    | none => rfl
    | some cell => cases cell <;> rfl
  · rfl

theorem exists_modifyBody_of_moveBefore (hj : p.OwnedBy m j)
    (hok : Edit.moveBefore j place p = .ok u q) : ∃ f, q = p.modifyBody m f := by
  obtain ⟨inst, hinst, ho⟩ := hj
  simp only [Edit.moveBefore, Action.get_bind_ok, Action.lift_bind_ok, Prod.exists, Action.ite_ok,
    Action.refuse_bind_ok, exists_false, and_false, false_or, Action.set_bind_ok] at hok
  obtain ⟨k, source, hsource, _, _, -, -, hok⟩ := hok
  obtain ⟨inst', _, hinst', hk, -⟩ := locate_ok.mp hsource
  cases hinst.symm.trans hinst'
  rw [ho] at hk
  subst hk
  cases hfind : ((p.modifyBody m fun body => body.eraseIdx source).body m).idxOf? place with
  | some target =>
    rw [hfind, Action.set_ok] at hok
    exact ⟨_, hok.symm.trans (modifyBody_modifyBody p m _ _)⟩
  | none =>
    rw [hfind] at hok
    cases hok

/-- Whatever the loop moves, only the order of the module changes. -/
theorem exists_modifyBody_of_relocate (htodo : ∀ j ∈ todo, p.OwnedBy m j)
    (hok : (todo.forM fun j => do
      if (← get).reaches i j then Edit.moveBefore j place : Edit Unit) p = .ok u q) :
    ∃ f, q = p.modifyBody m f := by
  induction todo generalizing p with
  | nil =>
    obtain ⟨-, rfl⟩ := Action.pure_ok.mp hok
    exact ⟨id, (modifyBody_id p m).symm⟩
  | cons j todo ih =>
    obtain ⟨hj, hrest⟩ := List.forall_mem_cons.mp htodo
    rw [List.forM, Action.bind_ok] at hok
    obtain ⟨_, r, hround, hok⟩ := hok
    have hstep : ∃ f, r = p.modifyBody m f := by
      rw [Action.get_bind_ok, Action.ite_ok] at hround
      obtain ⟨-, hmove⟩ | ⟨-, hstay⟩ := hround
      · exact exists_modifyBody_of_moveBefore hj hmove
      · obtain ⟨-, rfl⟩ := Action.pure_ok.mp hstay
        exact ⟨id, (modifyBody_id p m).symm⟩
    obtain ⟨f, rfl⟩ := hstep
    obtain ⟨g, rfl⟩ := ih (p := p.modifyBody m f) hrest hok
    exact ⟨_, modifyBody_modifyBody p m f g⟩

/-! ## The outcomes -/

/-- A place that stands behind the instruction: the part between them is partitioned. -/
theorem Linked.relocateDependents_deferred (hl : p.Linked)
    (hsplit : p.body m = pre ++ i :: part ++ place :: post) :
    ∃ q, Edit.relocateDependents i place p = .ok ⟨⟩ q ∧
      (∃ f, q = p.modifyBody m f) ∧
      Reordered m (pre ++ p.deferred i (i :: part) ++ place :: post) p q := by
  have hn : (pre ++ i :: part ++ place :: post).Nodup := hsplit ▸ hl.nodup m
  have hi : i ∈ p.body m := by simp [hsplit]
  have hplace : place ∈ p.body m := by simp [hsplit]
  obtain ⟨first, hfirst, hidx⟩ := hl.exists_locate hi
  obtain ⟨last, hlast, hidx'⟩ := hl.exists_locate hplace
  obtain ⟨hleft, -, happart⟩ := List.nodup_append.mp hn
  have hnew : i ∉ pre := fun hmem =>
    (List.nodup_append.mp hleft).2.2 i hmem i List.mem_cons_self rfl
  have hout : place ∉ pre ++ i :: part := fun hmem =>
    happart place hmem place List.mem_cons_self rfl
  -- both positions can be read off the split
  rw [hsplit, idxOf?_append_cons hout, Option.some.injEq] at hidx'
  rw [hsplit, List.append_assoc, List.cons_append, idxOf?_append_cons hnew,
    Option.some.injEq] at hidx
  subst hidx hidx'
  have hpart : ((p.body m).take (pre ++ i :: part).length).drop pre.length = i :: part := by
    rw [hsplit, List.take_left, List.drop_left]
  have howned : ∀ j ∈ i :: part, p.OwnedBy m j := fun j hj =>
    hl.owned (hsplit ▸ List.mem_append_left _ (List.mem_append_right pre hj))
  have hstart : Reordered m (pre ++ [] ++ (i :: part ++ []) ++ place :: post) p p := by
    simpa [← hsplit] using Reordered.refl (alive_of_mem_body hi)
  have hn' : (pre ++ [] ++ (i :: part ++ []) ++ place :: post).Nodup := by simpa using hn
  obtain ⟨u, q, hloop, -⟩ := hstart.completes_relocate hn' howned (hl.owned hplace)
  have hend := hstart.relocate hn' howned hloop
  refine ⟨q, ?_, exists_modifyBody_of_relocate howned hloop, ?_⟩
  · refine (Action.lift_bind_of_ok _ p hfirst).trans
      ((Action.lift_bind_of_ok _ p hlast).trans ?_)
    dsimp only
    rw [if_pos (by simp), if_neg (by simp [hsplit]), hpart]
    exact hloop
  · simpa [deferred_eq] using hend

theorem Linked.relocateDependents_idle (hl : p.Linked) (hi : i ∈ p.body m)
    (hplace : place ∈ p.body m) (h : ¬ Before (p.body m) i place) :
    Edit.relocateDependents i place p = .ok ⟨⟩ p := by
  obtain ⟨first, hfirst, hidx⟩ := hl.exists_locate hi
  obtain ⟨last, hlast, hidx'⟩ := hl.exists_locate hplace
  refine (Action.lift_bind_of_ok _ p hfirst).trans
    ((Action.lift_bind_of_ok _ p hlast).trans ?_)
  dsimp only
  rw [if_neg fun hlt => h (before_of_idxOf?_lt hidx hidx' hlt)]
  rfl

/-- **What depends on an instruction is moved behind the rest.** The part of the order from `i` up
to `place` is partitioned, both halves keep their order, nothing else changes, and the program stays
verified. Where `place` does not stand behind `i`, the program is left as it was. -/
theorem relocateDependents_exact (h : p.verify = .ok ⟨⟩) (hfree : p.Free m) (hi : i ∈ p.body m)
    (hplace : place ∈ p.body m) : ∃ q, Edit.relocateDependents i place p = .ok ⟨⟩ q ∧
      (∀ pre part post, p.body m = pre ++ i :: part ++ place :: post →
        q.body m = pre ++ p.deferred i (i :: part) ++ place :: post) ∧
      (¬ Before (p.body m) i place → q = p) ∧
      (∃ l, q = p.modifyBody m fun _ => l) ∧ (∀ j, q.instr? j = p.instr? j) ∧
      q.verify = .ok ⟨⟩ := by
  have hv := verify_ok.mp h
  have hl := hv.toLinked
  by_cases hbefore : Before (p.body m) i place
  · obtain ⟨before, post, hsplit, hmem⟩ := before_iff.mp hbefore
    obtain ⟨pre, part, rfl⟩ := List.append_of_mem hmem
    obtain ⟨q, hok, ⟨f, hf⟩, hr⟩ := hl.relocateDependents_deferred hsplit
    obtain ⟨-, -, -, -, -, -, hlq⟩ := hl.relocated hi hplace hok
    have hlast : (pre ++ p.deferred i (i :: part) ++ place :: post).getLast? =
        (p.body m).getLast? := by
      rw [hsplit, List.getLast?_append_of_ne_nil _ (by simp),
        List.getLast?_append_of_ne_nil _ (by simp)]
    have hsteady := (hv.steady none).reordered hr hlq hlast fun _ => hfree _
    refine ⟨q, hok, fun pre' part' post' hsplit' => ?_, fun hnot => absurd hbefore hnot,
      ⟨f (p.body m), hf.trans (modifyBody_congr rfl)⟩, hr.instr?, verify_ok.mpr hsteady.valid⟩
    obtain ⟨q', hok', -, hr'⟩ := hl.relocateDependents_deferred hsplit'
    cases hok.symm.trans hok'
    exact hr'.body
  · refine ⟨p, hl.relocateDependents_idle hi hplace hbefore, fun pre part post hsplit => ?_,
      fun _ => rfl, ⟨p.body m, ?_⟩, fun _ => rfl, h⟩
    · refine absurd (before_iff.mpr ⟨pre ++ i :: part, post, hsplit, ?_⟩) hbefore
      exact List.mem_append_right pre List.mem_cons_self
    · exact (modifyBody_id p m).symm.trans (modifyBody_congr rfl)

/-- A chain of three instructions between two that do not depend on it. -/
def interleaved : Program :=
  (do
    let x ← Edit.addParameter main "x" ⟨.f32, [4], [1]⟩
    let a ← Edit.addInstruction main (.unary .relu) [x] []
    let b ← Edit.addInstruction main (.binary .add) [a, x] []
    let c ← Edit.addInstruction main (.binary .mul) [x, x] []
    let _ ← Edit.addInstruction main (.binary .add) [b, b] []
    let _ ← Edit.addInstruction main (.binary .add) [c, c] [] : Edit Unit).after .empty

/-- The chain is put behind the product, just before the last sum. -/
theorem relocateDependents_exact_interleaved :
    interleaved.verify = .ok ⟨⟩ ∧ interleaved.Free main ∧ ⟨1⟩ ∈ interleaved.body main ∧
      ⟨5⟩ ∈ interleaved.body main ∧ ∃ q,
        Edit.relocateDependents ⟨1⟩ ⟨5⟩ interleaved = .ok ⟨⟩ q ∧
          q.body main = [⟨0⟩, ⟨3⟩, ⟨1⟩, ⟨2⟩, ⟨4⟩, ⟨5⟩] ∧ q.verify = .ok ⟨⟩ := by
  have hverify : interleaved.verify = .ok ⟨⟩ := by decide +kernel
  have hfree : interleaved.Free main := by decide +kernel
  have hi : ⟨1⟩ ∈ interleaved.body main := by decide +kernel
  have hplace : ⟨5⟩ ∈ interleaved.body main := by decide +kernel
  obtain ⟨q, hok, horder, -, -, -, hq⟩ := relocateDependents_exact hverify hfree hi hplace
  refine ⟨hverify, hfree, hi, hplace, q, hok, ?_, hq⟩
  have hsplit : interleaved.body main = [⟨0⟩] ++ ⟨1⟩ :: [⟨2⟩, ⟨3⟩, ⟨4⟩] ++ ⟨5⟩ :: [] := by
    decide +kernel
  have hdeferred : interleaved.deferred ⟨1⟩ (⟨1⟩ :: [⟨2⟩, ⟨3⟩, ⟨4⟩]) =
      [⟨3⟩, ⟨1⟩, ⟨2⟩, ⟨4⟩] := by decide +kernel
  rw [horder _ _ _ hsplit, hdeferred]
  rfl

end OffloadFusion.Program
