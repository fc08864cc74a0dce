import OffloadFusion.Proofs.Dependence
import OffloadFusion.Proofs.Reached
import OffloadFusion.Proofs.References

/-!
# What is dead

An instruction is `Needed` if it is a parameter or the result of its module depends on it, and a
module is `Live` if the main module reaches it through what needed instructions carry. **Dead code
elimination leaves exactly the needed instructions of the live modules**
(`Program.eliminateDeadCode_exact`).

* `Without gone p q`: `q` is `p` without some instructions that nothing else uses.
* `Without.sweep`: a sweep from back to front meets an instruction when nothing that is needed uses
  it any more, so it decides what is needed in one go.
* `Cleaned`: what is left after dead code elimination.
-/

namespace OffloadFusion.Program

open Relation

variable {p q r : Program} {i j c x : InstrId} {m k : ModuleId} {inst : Instruction}
  {gone more : List InstrId}

/-- What a module ends with: its return, or else its last instruction. -/
def result? (p : Program) (m : ModuleId) : Option InstrId := (p.return? m).or (p.body m).getLast?

/-- The instruction is a parameter, or the result of its module depends on it. -/
def Needed (p : Program) (i : InstrId) : Prop :=
  ∃ inst, p.instr? i = some inst ∧
    (inst.op.isParam = true ∨ ∃ r, p.result? inst.owner = some r ∧ p.DependsOn i r)

/-- A needed instruction of `m` carries `k`. -/
def Needs (p : Program) (k m : ModuleId) : Prop :=
  ∃ i inst, p.instr? i = some inst ∧ p.Needed i ∧ inst.owner = m ∧ k ∈ inst.modules

/-- The main module reaches the module through what needed instructions carry. -/
def Live (p : Program) (m : ModuleId) : Prop := ReflTransGen p.Needs m main

/-! ## Needed instructions -/

/-- Whether or not there is a return, the result is the last instruction. -/
theorem result?_eq_getLast? (p : Program) (m : ModuleId) : p.result? m = (p.body m).getLast? := by
  rw [result?, return?]
  cases h : (p.body m).getLast? with
  | none => rfl
  | some last =>
    rw [Option.filter_some]
    split <;> rfl

theorem Valid.inputs_of_isParam (h : p.Valid) (hi : p.instr? i = some inst)
    (hparam : inst.op.isParam = true) : inst.inputs = [] := by
  obtain ⟨types, signatures, htypes, -, hinfer⟩ := infer_ok.mp (h.fresh hi)
  cases hop : inst.op with
  | param name t =>
    rw [hop] at hinfer
    simp only [Op.inferType, Op.nullary, Outcome.bind_ok, Typing.tensorInputs_ok] at hinfer
    obtain ⟨_, ⟨_, ⟨hcount, -⟩, -⟩, -⟩ := hinfer
    have hnone : types.length = 0 := by simpa [Interval.exactly, Interval.contains] using hcount
    exact List.length_eq_zero_iff.mp (htypes.length_eq.trans hnone)
  | _ => rw [hop] at hparam; cases hparam

/-- **Needed are parameters, results, and operands of what is needed.** -/
theorem Valid.needed_iff (h : p.Valid) (hi : p.instr? i = some inst) :
    p.Needed i ↔ inst.op.isParam = true ∨ p.result? inst.owner = some i ∨
      ∃ c, p.Uses c i ∧ p.Needed c := by
  constructor
  · rintro ⟨inst', hi', hparam | ⟨r, hr, hd⟩⟩
    · cases hi.symm.trans hi'
      exact .inl hparam
    · cases hi.symm.trans hi'
      obtain rfl | ⟨c, huse, hd⟩ := ReflTransGen.cases_head hd
      · exact .inr (.inl hr)
      · obtain ⟨cinst, hc, hmem⟩ := id huse
        obtain ⟨inst', hi', ho⟩ := h.operand hc hmem
        cases hi.symm.trans hi'
        exact .inr (.inr ⟨c, huse, cinst, hc, .inr ⟨r, ho ▸ hr, hd⟩⟩)
  · rintro (hparam | hresult | ⟨c, ⟨cinst, hc, hmem⟩, cinst', hc', hneeded⟩)
    · exact ⟨inst, hi, .inl hparam⟩
    · exact ⟨inst, hi, .inr ⟨i, hresult, .refl⟩⟩
    · cases hc.symm.trans hc'
      obtain ⟨inst', hi', ho⟩ := h.operand hc hmem
      cases hi.symm.trans hi'
      obtain hparam | ⟨r, hr, hd⟩ := hneeded
      · rw [h.inputs_of_isParam hc hparam] at hmem
        cases hmem
      · exact ⟨inst, hi, .inr ⟨r, ho ▸ hr, hd.head ⟨cinst, hc, hmem⟩⟩⟩

/-! ## Programs without some instructions -/

/-- Some instructions are gone; the others are what they were. -/
structure Without (gone : List InstrId) (p q : Program) : Prop where
  linked : q.Linked
  absent : ∀ {i}, i ∈ gone → q.instr? i = none
  left : ∀ {i}, i ∉ gone → SameCore p q i
  body : ∀ m, q.body m = (p.body m).filter (· ∉ gone)
  alive : ∀ m, (q.module? m).isSome = (p.module? m).isSome

namespace Without

theorem refl (hl : p.Linked) : Without [] p p :=
  ⟨hl, nofun, fun _ => rfl, fun m => by simp, fun _ => rfl⟩

theorem removed {n : Nat} (h : Without gone p q) (hi : q.instr? i = some inst)
    (hc : inst.consumers = []) (hloc : q.locate i = .ok (m, n)) :
    Without (i :: gone) p (q.removed i m n) := by
  refine ⟨h.linked.removed hi hloc hc, fun {j} hj => ?_, fun {j} hj => ?_, fun k => ?_,
    fun k => ?_⟩
  · rw [instr?_removed hi]
    obtain rfl | hj := List.mem_cons.mp hj
    · exact if_pos rfl
    · rw [h.absent hj]
      split <;> rfl
  · obtain ⟨hji, hj⟩ := not_or.mp (mt List.mem_cons.mpr hj)
    exact (h.left hj).trans (sameCore_removed hi hji)
  · rw [body_removed h.linked hi hloc, h.body, List.filter_filter]
    refine List.filter_congr fun j _ => ?_
    simp [List.mem_cons, not_or]
  · rw [module?_removed h.linked hi hloc, Option.isSome_map, h.alive]

theorem exists_instr (h : Without gone p q) (hi : q.instr? i = some inst) :
    i ∉ gone ∧ ∃ inst', p.instr? i = some inst' ∧ inst.core = inst'.core := by
  have hgone : i ∉ gone := fun hmem => by
    rw [h.absent hmem] at hi
    cases hi
  exact ⟨hgone, (h.left hgone).exists_instr hi⟩

theorem uses_iff (h : Without gone p q) : q.Uses c i ↔ p.Uses c i ∧ c ∉ gone := by
  constructor
  · rintro ⟨cinst, hc, hmem⟩
    obtain ⟨hgone, cinst', hc', hcore⟩ := h.exists_instr hc
    exact ⟨⟨cinst', hc', (Instruction.core_eq_iff.mp hcore).2.1 ▸ hmem⟩, hgone⟩
  · rintro ⟨huse, hgone⟩
    exact (h.left hgone).uses huse

end Without

/-! ## Signatures -/

theorem Valid.exists_signature (h : p.Valid) (hm : (p.module? m).isSome) :
    ∃ s, p.signature m = .ok s :=
  h.toLinked.exists_signature hm fun _ _ _ hi => h.fresh hi

theorem Without.signature {s : Signature} (h : Without gone p q) (hv : p.Valid)
    (hgone : ∀ i ∈ gone, ¬ p.Needed i) (hs : p.signature m = .ok s) : q.signature m = .ok s := by
  have hleft : ∀ {i}, p.Needed i → i ∉ gone := fun hi hmem => hgone _ hmem hi
  obtain ⟨module, hm, -⟩ := signature_ok.mp hs
  have hparam : ∀ i ∈ p.parameters m, i ∉ gone := by
    intro i hi
    obtain ⟨inst, hinst, hop⟩ := hasOp_iff.mp (List.mem_filter.mp hi).2
    exact hleft ⟨inst, hinst, .inl hop⟩
  have hlast : ∀ last, (p.body m).getLast? = some last → p.Needed last := by
    intro last he
    obtain ⟨inst, hinst, ho⟩ := hv.owned (List.mem_of_getLast? he)
    refine (hv.needed_iff hinst).mpr (.inr (.inl ?_))
    rw [result?_eq_getLast?, ho, he]
  refine signature_keep (by rw [h.alive, hm]; rfl) ?_ (fun i hi t ht => ?_) ?_
    (fun last he => ?_) hs
  · rw [parameters, parameters, h.body, List.filter_filter]
    refine List.filter_congr fun i hi => ?_
    by_cases hmem : i ∈ gone
    · have hnot : i ∉ p.parameters m := fun hp => hparam i hp hmem
      rw [parameters, List.mem_filter, not_and, Bool.not_eq_true] at hnot
      simp [hmem, hnot hi]
    · simp [hmem, (h.left hmem).hasOp]
  · exact (h.left (hparam i hi)).hasType ht
  · rw [h.body]
    cases he : (p.body m).getLast? with
    | none => rw [List.getLast?_eq_none_iff.mp he]; rfl
    | some last => exact getLast?_filter_of he (decide_eq_true (hleft (hlast last he)))
  · refine ⟨h.left (hleft (hlast last he)), fun x hx t ht => ?_⟩
    obtain ⟨inst, hinst, hmem⟩ := id hx
    obtain ⟨xinst, hxi, -⟩ := hv.operand hinst hmem
    have hneeded := (hv.needed_iff hxi).mpr (.inr (.inr ⟨last, hx, hlast last he⟩))
    exact (h.left (hleft hneeded)).hasType ht

/-! ## Sweeping -/

/-- What a sweep keeps at the end of a module without a return. -/
def kept? (p : Program) (m : ModuleId) : Option InstrId :=
  if (p.return? m).isSome then none else (p.body m).getLast?

/-- An instruction that nothing needed uses any more is not needed if it is none that a sweep keeps
anyway. -/
theorem Valid.needed_iff_kept (h : p.Valid) (hi : p.instr? i = some inst) :
    p.Needed i ↔ (∃ c, p.Uses c i ∧ p.Needed c) ∨ inst.op.isParam = true ∨
      inst.op.isReturn = true ∨ p.kept? inst.owner = some i := by
  rw [h.needed_iff hi, ← or_assoc, or_comm]
  refine or_congr_right (or_congr_right ?_)
  rw [result?_eq_getLast?, kept?]
  constructor
  · intro hlast
    cases hret : inst.op.isReturn with
    | true => exact .inl rfl
    | false =>
      refine .inr ?_
      rw [if_neg, hlast]
      rw [return?, hlast, Option.filter_some, hasOp, hi, Option.any_some, hret]
      exact Bool.false_ne_true
  · rintro (hret | hkept)
    · exact h.returns hi hret
    · split at hkept
      · cases hkept
      · exact hkept

theorem mem_right_of_before {l₁ l₂ : List InstrId} (hn : (l₁ ++ i :: l₂).Nodup)
    (h : Before (l₁ ++ i :: l₂) i c) : c ∈ l₂ := by
  obtain hc | hc := List.mem_append.mp h.right_mem
  · exact absurd ((before_append_cons hn).mpr hc) (h.asymm hn)
  · obtain rfl | hc := List.mem_cons.mp hc
    · exact absurd rfl (h.ne hn)
    · exact hc

/-- **A sweep keeps what is needed.** Users stand behind, and there only what is needed is left. -/
theorem Without.kept_iff {l₁ done : List InstrId} (h : Without gone p q) (hv : p.Valid)
    (hbody : p.body m = l₁ ++ i :: done) (hdone : ∀ j ∈ done, j ∈ gone ↔ ¬ p.Needed j)
    (hgone : i ∉ gone) (hi : q.instr? i = some inst) :
    (!inst.consumers.isEmpty || inst.op.isParam || inst.op.isReturn || p.kept? m = some i) = true ↔
      p.Needed i := by
  have hmem : i ∈ p.body m := hbody ▸ List.mem_append_right l₁ List.mem_cons_self
  obtain ⟨inst', hi', hcore⟩ := (h.left hgone).exists_instr hi
  obtain ⟨hop, -, -, -, -⟩ := Instruction.core_eq_iff.mp hcore
  have husers : inst.consumers = [] ↔ ¬ ∃ c, p.Uses c i ∧ p.Needed c := by
    rw [List.eq_nil_iff_forall_not_mem, not_exists]
    refine forall_congr' fun c => not_congr ?_
    rw [h.linked.mirrored hi, h.uses_iff]
    refine and_congr_right fun huse => ?_
    have hbefore := hv.before_of_uses (hv.mem_body_of_used hmem huse) huse
    rw [hdone c (mem_right_of_before (hbody ▸ hv.nodup _) (hbody ▸ hbefore)), not_not]
  rw [hv.needed_iff_kept hi', ← not_not (a := ∃ c, p.Uses c i ∧ p.Needed c), ← husers,
    hv.owner_unique hi' hmem, ← hop]
  simp [or_assoc]

/-- **A sweep from back to front removes what is not needed.** -/
theorem Without.sweep {rest done : List InstrId} (h : Without gone p q) (hv : p.Valid)
    (hbody : p.body m = rest.reverse ++ done) (hrest : ∀ i ∈ rest, i ∉ gone)
    (hdone : ∀ i ∈ done, i ∈ gone ↔ ¬ p.Needed i) :
    ∃ more r, Edit.sweep (p.kept? m) rest q = .ok more.length r ∧ more.Nodup ∧
      (∀ i, i ∈ more ↔ i ∈ rest ∧ ¬ p.Needed i) ∧ Without (more ++ gone) p r := by
  induction rest generalizing q gone done with
  | nil => exact ⟨[], q, rfl, .nil, fun i => by simp, h⟩
  | cons i rest ih =>
    rw [List.reverse_cons, List.append_assoc, List.singleton_append] at hbody
    obtain ⟨hgone, hrest⟩ := List.forall_mem_cons.mp hrest
    have hmem : i ∈ p.body m := hbody ▸ List.mem_append_right _ List.mem_cons_self
    have hnodup : (rest.reverse ++ i :: done).Nodup := hbody ▸ hv.nodup m
    obtain ⟨inst', hi', -⟩ := hv.owned hmem
    obtain ⟨inst, hi, -⟩ := (h.left hgone).symm.exists_instr hi'
    have hkept := h.kept_iff hv hbody hdone hgone hi
    simp only [Edit.sweep, Action.get_bind_ok, Action.lift_checked_bind_ok, instr_ok, Action.ite_ok]
    by_cases hneeded : p.Needed i
    · obtain ⟨more, r, hsweep, hn, hmore, hr⟩ := ih h hbody hrest fun j hj => by
        obtain rfl | hj := List.mem_cons.mp hj
        · exact iff_of_false hgone (not_not.mpr hneeded)
        · exact hdone j hj
      refine ⟨more, r, ⟨inst, hi, .inl ⟨hkept.mpr hneeded, hsweep⟩⟩, hn, fun j => ?_, hr⟩
      rw [hmore, List.mem_cons, or_and_right]
      exact (or_iff_right fun hj => hj.2 (hj.1 ▸ hneeded)).symm
    · have hcond := mt hkept.mp hneeded
      have hc : inst.consumers = [] := by
        by_contra hne
        simp [hne] at hcond
      have hlisted : i ∈ q.body m := by
        rw [h.body]
        exact List.mem_filter.mpr ⟨hmem, decide_eq_true hgone⟩
      obtain ⟨n, hloc, -⟩ := h.linked.exists_locate hlisted
      have hremove := (Edit.removeInstruction_ok (u := ⟨⟩)).mpr ⟨inst, m, n, hi, hc, hloc, rfl⟩
      obtain ⟨-, hbehind, hapart⟩ := List.nodup_append.mp hnodup
      have hrest' : ∀ j ∈ rest, j ∉ i :: gone := by
        intro j hj hmem
        obtain rfl | hmem := List.mem_cons.mp hmem
        · exact hapart j (List.mem_reverse.mpr hj) j List.mem_cons_self rfl
        · exact hrest j hj hmem
      have hdone' : ∀ j ∈ i :: done, j ∈ i :: gone ↔ ¬ p.Needed j := by
        intro j hj
        obtain rfl | hj := List.mem_cons.mp hj
        · exact iff_of_true List.mem_cons_self hneeded
        · have hji : j ≠ i := fun he => (List.nodup_cons.mp hbehind).1 (he ▸ hj)
          rw [List.mem_cons, or_iff_right hji, hdone j hj]
      obtain ⟨more, r, hsweep, hn, hmore, hr⟩ := ih (h.removed hi hc hloc) hbody hrest' hdone'
      have hnew : i ∉ more := fun hmem =>
        hapart i (List.mem_reverse.mpr ((hmore i).mp hmem).1) i List.mem_cons_self rfl
      refine ⟨more ++ [i], r, ⟨inst, hi, .inr ⟨hcond, ?_⟩⟩, ?_, fun j => ?_, ?_⟩
      · rw [List.length_append, List.length_singleton]
        exact Action.bind_ok.mpr ⟨_, _, hremove, Action.bind_ok.mpr ⟨_, _, hsweep, rfl⟩⟩
      · refine List.nodup_append.mpr ⟨hn, List.nodup_singleton i, fun a ha b hb he => hnew ?_⟩
        rwa [← List.mem_singleton.mp hb, ← he]
      · rw [List.mem_append, hmore, List.mem_singleton, List.mem_cons, or_and_right, or_comm]
        refine or_congr_left ⟨?_, fun hj => hj.1⟩
        rintro rfl
        exact ⟨rfl, hneeded⟩
      · rw [List.append_assoc]
        exact hr

theorem Without.sweepAll {ms : List ModuleId} (h : Without gone p q) (count : Nat) (hv : p.Valid)
    (hms : ms.Nodup) (hgone : ∀ m ∈ ms, ∀ i ∈ p.body m, i ∉ gone) :
    ∃ more r, (ms.foldlM (fun count m => do return count + (← Edit.sweepModule m)) count :
        Edit Nat) q = .ok (count + more.length) r ∧ more.Nodup ∧
      (∀ i, i ∈ more ↔ (∃ m ∈ ms, i ∈ p.body m) ∧ ¬ p.Needed i) ∧ Without (more ++ gone) p r := by
  induction ms generalizing q gone count with
  | nil => exact ⟨[], q, rfl, .nil, fun i => by simp, h⟩
  | cons m ms ih =>
    obtain ⟨hm, hrest⟩ := List.forall_mem_cons.mp hgone
    obtain ⟨hnew, hms⟩ := List.nodup_cons.mp hms
    have hbody : q.body m = p.body m := by
      rw [h.body]
      exact List.filter_eq_self.mpr fun i hi => decide_eq_true (hm i hi)
    have hreturn : q.return? m = p.return? m := by
      rw [return?, return?, hbody]
      cases he : (p.body m).getLast? with
      | none => rfl
      | some last =>
        have hlast := hm last (List.mem_of_getLast? he)
        rw [Option.filter_some, Option.filter_some, (h.left hlast).hasOp]
    have hkept : q.kept? m = p.kept? m := by rw [kept?, kept?, hreturn, hbody]
    have hstart : p.body m = (p.body m).reverse.reverse ++ [] := by simp
    obtain ⟨more, r, hsweep, hn, hmore, hr⟩ := h.sweep hv hstart
      (fun i hi => hm i (List.mem_reverse.mp hi)) fun i hi => absurd hi List.not_mem_nil
    have hmodule : Edit.sweepModule m q = .ok more.length r := by
      rw [Edit.sweepModule, Action.get_bind_ok]
      change Edit.sweep (q.kept? m) (q.body m).reverse q = _
      rw [hkept, hbody]
      exact hsweep
    have hother : ∀ k ∈ ms, ∀ i ∈ p.body k, i ∉ more := by
      intro k hk i hi hmem
      obtain ⟨inst, hinst, rfl⟩ := hv.owned hi
      have hown := hv.owner_unique hinst (List.mem_reverse.mp ((hmore i).mp hmem).1)
      exact hnew (hown ▸ hk)
    obtain ⟨more', r', hfold, hn', hmore', hr'⟩ := ih hr (count + more.length) hms
      fun k hk i hi hmem => (List.mem_append.mp hmem).elim (hother k hk i hi) (hrest k hk i hi)
    refine ⟨more' ++ more, r', ?_, ?_, fun i => ?_, ?_⟩
    · simp only [List.foldlM_cons, Action.bind_ok, Action.pure_ok]
      rw [List.length_append, Nat.add_comm more'.length, ← Nat.add_assoc]
      exact ⟨_, r, ⟨_, _, hmodule, rfl, rfl⟩, hfold⟩
    · refine List.nodup_append.mpr ⟨hn', hn, fun a ha b hb he => ?_⟩
      obtain ⟨⟨k, hk, hak⟩, -⟩ := (hmore' a).mp ha
      exact hother k hk a hak (he ▸ hb)
    · rw [List.mem_append, hmore', hmore, List.mem_reverse, ← or_and_right]
      refine and_congr_left fun _ => ?_
      simp only [List.mem_cons, exists_eq_or_imp]
      exact or_comm
    · rw [List.append_assoc]
      exact hr'

/-! ## Dead code -/

/-- What is left after dead code elimination. -/
structure Cleaned (p : Program) (result : DeadCode) (q : Program) : Prop where
  /-- The live modules are left. -/
  module? : ∀ m, (q.module? m).isSome ↔ p.Live m
  /-- Of the instructions, the needed ones of live modules are left. -/
  instr? : ∀ i inst, p.instr? i = some inst →
    ((q.instr? i).isSome ↔ p.Live inst.owner ∧ p.Needed i)
  /-- They are what they were, up to consumers. -/
  same : ∀ i inst, q.instr? i = some inst → ∃ inst', p.instr? i = some inst' ∧
    inst.op = inst'.op ∧ inst.inputs = inst'.inputs ∧ inst.modules = inst'.modules ∧
    inst.type = inst'.type ∧ inst.owner = inst'.owner
  /-- They stand in the same order. -/
  order : ∀ m, (q.body m).Sublist (p.body m)
  /-- Modules take and return what they did. -/
  signature : ∀ m, (q.module? m).isSome →
    ∃ s, p.signature m = .ok s ∧ q.signature m = .ok s
  /-- Instructions are counted that are not needed by their module. -/
  instructions : ∃ gone : List InstrId, gone.Nodup ∧ gone.length = result.instructions ∧
    ∀ i, i ∈ gone ↔ (p.instr? i).isSome ∧ ¬ p.Needed i
  /-- All modules are counted that are not live. -/
  modules : ∃ gone : List ModuleId, gone.Nodup ∧ gone.length = result.modules ∧
    ∀ m, m ∈ gone ↔ (p.module? m).isSome ∧ ¬ p.Live m

theorem Needs.refers (h : p.Needs k m) : p.Refers k m := by
  obtain ⟨i, inst, hi, -, ho, hk⟩ := h
  exact ⟨i, inst, hi, ho, hk⟩

theorem Framed.alive_of_live (h : p.Framed) (hmain : p.HasMain) (hm : p.Live m) :
    (p.module? m).isSome := by
  obtain rfl | ⟨k, hk, -⟩ := ReflTransGen.cases_head hm
  · exact hmain
  · exact h.alive_of_refers hk.refers

/-- Where only what is needed is left, modules refer to what they need. -/
theorem Without.refers_eq (h : Without gone p q)
    (hgone : ∀ i inst, p.instr? i = some inst → (i ∉ gone ↔ p.Needed i)) : q.Refers = p.Needs := by
  funext k m
  refine propext ⟨?_, ?_⟩
  · rintro ⟨i, inst, hi, ho, hk⟩
    obtain ⟨hleft, inst', hi', hcore⟩ := h.exists_instr hi
    obtain ⟨-, -, hmodules, -, howner⟩ := Instruction.core_eq_iff.mp hcore
    exact ⟨i, inst', hi', (hgone i inst' hi').mp hleft, howner ▸ ho, hmodules ▸ hk⟩
  · rintro ⟨i, inst, hi, hneeded, ho, hk⟩
    obtain ⟨inst', hi', hcore⟩ := (h.left ((hgone i inst hi).mpr hneeded)).symm.exists_instr hi
    obtain ⟨-, -, hmodules, -, howner⟩ := Instruction.core_eq_iff.mp hcore
    exact ⟨i, inst', hi', howner ▸ ho, hmodules ▸ hk⟩

theorem Without.cleaned {dead : List ModuleId} (h : Without gone p q) (hv : p.Valid)
    (hmain : p.HasMain) (hn : gone.Nodup)
    (hgone : ∀ i, i ∈ gone ↔ (p.instr? i).isSome ∧ ¬ p.Needed i) (hd : Dropped dead q r)
    (hnd : dead.Nodup) (hdead : ∀ m, m ∈ dead ↔ (p.module? m).isSome ∧ ¬ p.Live m) :
    Cleaned p ⟨gone.length, dead.length⟩ r := by
  have hmodule : ∀ m, (r.module? m).isSome ↔ p.Live m := by
    intro m
    rw [hd.module?]
    split
    · next hmem => simpa using ((hdead m).mp hmem).2
    · next hmem =>
      rw [h.alive]
      refine ⟨fun halive => ?_, hv.alive_of_live hmain⟩
      by_contra hlive
      exact hmem ((hdead m).mpr ⟨halive, hlive⟩)
  have hleft : ∀ i inst, p.instr? i = some inst →
      ((r.instr? i).isSome ↔ i ∉ gone ∧ inst.owner ∉ dead) := by
    intro i inst hi
    constructor
    · intro hleft
      obtain ⟨rinst, hr⟩ := Option.isSome_iff_exists.mp hleft
      obtain ⟨hq, hod⟩ := hd.exists_instr hr
      obtain ⟨hig, inst', hi', hcore⟩ := h.exists_instr hq
      cases hi.symm.trans hi'
      exact ⟨hig, (Instruction.core_eq_iff.mp hcore).2.2.2.2 ▸ hod⟩
    · rintro ⟨hig, hod⟩
      obtain ⟨qinst, hq, hcore⟩ := (h.left hig).symm.exists_instr hi
      have hown := (Instruction.core_eq_iff.mp hcore).2.2.2.2
      exact Option.isSome_iff_exists.mpr ⟨qinst, hd.instr?_of_owner hq (hown ▸ hod)⟩
  refine ⟨hmodule, fun i inst hi => ?_, fun i inst hi => ?_, fun m => ?_, fun m hm => ?_,
    ⟨gone, hn, rfl, hgone⟩, ⟨dead, hnd, rfl, hdead⟩⟩
  · obtain ⟨module, hm, -⟩ := hv.owner_alive hi
    rw [hleft i inst hi, hgone, hdead, hi, hm, and_comm]
    simp only [Option.isSome_some, true_and, not_not]
  · obtain ⟨hi, -⟩ := hd.exists_instr hi
    obtain ⟨-, inst', hi', hcore⟩ := h.exists_instr hi
    exact ⟨inst', hi', Instruction.core_eq_iff.mp hcore⟩
  · by_cases hm : m ∈ dead
    · rw [Program.body, hd.module?, if_pos hm]
      exact List.nil_sublist _
    · rw [hd.body hm, h.body]
      exact List.filter_sublist
  · have hmd : m ∉ dead := fun hmem => ((hdead m).mp hmem).2 ((hmodule m).mp hm)
    have halive : (p.module? m).isSome := hv.alive_of_live hmain ((hmodule m).mp hm)
    obtain ⟨s, hs⟩ := hv.exists_signature halive
    have hq := h.signature hv (fun i hi => ((hgone i).mp hi).2) hs
    exact ⟨s, hs, hd.signature h.linked hmd hq⟩

/-- **Dead code elimination comes to an end and removes what is dead.** -/
theorem Valid.exists_cleaned (h : p.Valid) (hmain : p.HasMain) :
    ∃ result q, Edit.eliminateDeadCode p = .ok result q ∧ Cleaned p result q ∧ q.Valid := by
  obtain ⟨gone, r, hsweep, hn, hgone, hr⟩ := (Without.refl h.toLinked).sweepAll 0 h
    p.nodup_moduleIds fun _ _ _ _ => List.not_mem_nil
  rw [List.append_nil] at hr
  rw [Nat.zero_add] at hsweep
  have hgone' : ∀ i, i ∈ gone ↔ (p.instr? i).isSome ∧ ¬ p.Needed i := by
    intro i
    rw [hgone]
    refine and_congr_left fun _ => ⟨fun ⟨m, _, hi⟩ => ?_, fun hi => ?_⟩
    · obtain ⟨inst, hinst, -⟩ := h.owned hi
      exact Option.isSome_iff_exists.mpr ⟨inst, hinst⟩
    · obtain ⟨inst, hinst⟩ := Option.isSome_iff_exists.mp hi
      obtain ⟨module, hm, -⟩ := h.owner_alive hinst
      exact ⟨_, mem_moduleIds.mpr ⟨module, hm⟩, h.listed hinst⟩
  have hrv : r.Valid := ((h.steady none).trim_sweepAll hsweep).steady.valid
  have hneeds : r.Refers = p.Needs := hr.refers_eq fun i inst hi => by
    rw [hgone', hi, not_and, not_not]
    exact ⟨fun hneeded => hneeded rfl, fun hneeded _ => hneeded⟩
  obtain ⟨live, hlive, hmem⟩ := hrv.exists_liveModules (by rw [hr.alive]; exact hmain)
  have hdead : ∀ m, m ∈ r.moduleIds.filter (· ∉ live) ↔ (p.module? m).isSome ∧ ¬ p.Live m := by
    intro m
    rw [List.mem_filter, mem_moduleIds, decide_eq_true_eq, hmem, hneeds, ← hr.alive,
      Option.isSome_iff_exists]
    rfl
  have hnd : (r.moduleIds.filter (· ∉ live)).Nodup := r.nodup_moduleIds.filter _
  obtain ⟨q, hremove⟩ := hr.linked.exists_removeModules hnd
    (fun hm => ((hdead main).mp hm).2 .refl) fun m hm => by
      rw [hr.alive]
      exact ((hdead m).mp hm).1
  have hok : Edit.eliminateDeadCode p =
      .ok ⟨gone.length, (r.moduleIds.filter (· ∉ live)).length⟩ q := by
    rw [Edit.eliminateDeadCode, Action.get_bind_ok, Action.bind_ok]
    refine ⟨_, r, hsweep, ?_⟩
    rw [Action.get_bind_ok, Action.lift_checked_bind_ok]
    exact ⟨live, hlive, Action.bind_ok.mpr ⟨⟨⟩, q, hremove, rfl⟩⟩
  refine ⟨_, q, hok, hr.cleaned h hmain hn hgone' (dropped_of_removeModules hr.linked hremove).1 hnd
    hdead, ((h.steady none).trim_eliminateDeadCode hok).steady.valid⟩

/-! ## Nothing is left to remove -/

theorem getLast?_of_sublist {l l' : List InstrId} (hs : l.Sublist l') (hn : l'.Nodup)
    (hlast : l'.getLast? = some i) (hi : i ∈ l) : l.getLast? = some i := by
  obtain ⟨init, rfl⟩ := List.getLast?_eq_some_iff.mp hlast
  obtain ⟨l₁, l₂, rfl, h₁, h₂⟩ := List.sublist_append_iff.mp hs
  have hnot : i ∉ l₁ := fun hmem =>
    (List.nodup_append.mp hn).2.2 i (h₁.subset hmem) i (List.mem_singleton.mpr rfl) rfl
  obtain rfl | rfl := List.sublist_singleton.mp h₂
  · exact absurd hi (by simpa using hnot)
  · exact List.getLast?_concat

namespace Cleaned

variable {result : DeadCode}

theorem exists_instr (h : Cleaned p result q) (hi : p.instr? i = some inst)
    (hlive : p.Live inst.owner) (hneeded : p.Needed i) :
    ∃ inst', q.instr? i = some inst' ∧ inst'.op = inst.op ∧ inst'.inputs = inst.inputs ∧
      inst'.modules = inst.modules ∧ inst'.type = inst.type ∧ inst'.owner = inst.owner := by
  obtain ⟨inst', hi'⟩ := Option.isSome_iff_exists.mp ((h.instr? i inst hi).mpr ⟨hlive, hneeded⟩)
  obtain ⟨_, hi₀, hsame⟩ := h.same i inst' hi'
  cases hi.symm.trans hi₀
  exact ⟨inst', hi', hsame⟩

theorem result?_eq (h : Cleaned p result q) (hv : p.Valid) (hq : q.Valid) (hlive : p.Live m)
    (hr : p.result? m = some x) : q.result? m = some x := by
  rw [result?_eq_getLast?] at hr ⊢
  obtain ⟨inst, hx, rfl⟩ := hv.owned (List.mem_of_getLast? hr)
  have hneeded : p.Needed x :=
    (hv.needed_iff hx).mpr (.inr (.inl (by rw [result?_eq_getLast?, hr])))
  obtain ⟨inst', hx', -, -, -, -, ho⟩ := h.exists_instr hx hlive hneeded
  exact getLast?_of_sublist (h.order _) (hv.nodup _) hr (ho ▸ hq.listed hx')

theorem needed (h : Cleaned p result q) (hv : p.Valid) (hq : q.Valid)
    (hi : p.instr? i = some inst) (hlive : p.Live inst.owner) (hneeded : p.Needed i) :
    q.Needed i := by
  obtain ⟨inst', hi', hparam | ⟨x, hx, hd⟩⟩ := id hneeded
  · cases hi.symm.trans hi'
    obtain ⟨inst', hi', hop, -⟩ := h.exists_instr hi hlive hneeded
    exact ⟨inst', hi', .inl (hop ▸ hparam)⟩
  · cases hi.symm.trans hi'
    -- along the operands from `i` up to the result
    induction hd using ReflTransGen.head_induction_on generalizing inst with
    | refl =>
      obtain ⟨inst', hi', -, -, -, -, ho⟩ := h.exists_instr hi hlive hneeded
      exact ⟨inst', hi', .inr ⟨x, ho ▸ h.result?_eq hv hq hlive hx, .refl⟩⟩
    | @head i c huse hd ih =>
      obtain ⟨cinst, hc, hmem⟩ := id huse
      obtain ⟨inst₀, hi₀, ho⟩ := hv.operand hc hmem
      cases hi.symm.trans hi₀
      have hcneeded : p.Needed c := ⟨cinst, hc, .inr ⟨x, ho ▸ hx, hd⟩⟩
      obtain ⟨cinst', hc', -, hinputs, -⟩ := h.exists_instr hc (ho ▸ hlive) hcneeded
      obtain ⟨inst', hi', -⟩ := h.exists_instr hi hlive hneeded
      exact (hq.needed_iff hi').mpr
        (.inr (.inr ⟨c, ⟨cinst', hc', hinputs ▸ hmem⟩, ih hc (ho ▸ hlive) hcneeded hc (ho ▸ hx)⟩))

theorem needed_of_instr? (h : Cleaned p result q) (hv : p.Valid) (hq : q.Valid)
    (hi : q.instr? i = some inst) : q.Needed i := by
  obtain ⟨inst', hi', -⟩ := h.same i inst hi
  obtain ⟨hlive, hneeded⟩ := (h.instr? i inst' hi').mp (by rw [hi]; rfl)
  exact h.needed hv hq hi' hlive hneeded

theorem live (h : Cleaned p result q) (hv : p.Valid) (hq : q.Valid) (hm : p.Live m) :
    q.Live m := by
  induction hm using ReflTransGen.head_induction_on with
  | refl => exact .refl
  | @head m k hneeds hk ih =>
    obtain ⟨i, inst, hi, hneeded, rfl, hmem⟩ := hneeds
    obtain ⟨inst', hi', -, -, hmodules, -, ho⟩ := h.exists_instr hi hk hneeded
    exact ih.head ⟨i, inst', hi', h.needed hv hq hi hk hneeded, ho, hmodules ▸ hmem⟩

end Cleaned

theorem eq_of_sweep {kept : Option InstrId} {is : List InstrId}
    (h : Edit.sweep kept is p = .ok 0 q) : q = p := by
  induction is with
  | nil =>
    cases h
    rfl
  | cons i is ih =>
    simp only [Edit.sweep, Action.get_bind_ok, Action.lift_checked_bind_ok, Action.ite_ok] at h
    obtain ⟨inst, -, ⟨-, h⟩ | ⟨-, h⟩⟩ := h
    · exact ih h
    · simp only [Action.bind_ok, Action.pure_ok] at h
      obtain ⟨_, _, -, n, _, -, hn, -⟩ := h
      cases hn

theorem eq_of_sweepAll {ms : List ModuleId} {count n : Nat}
    (h : (ms.foldlM (fun count m => do return count + (← Edit.sweepModule m)) count : Edit Nat) p =
      .ok n q) : count ≤ n ∧ (n = count → q = p) := by
  induction ms generalizing p count with
  | nil =>
    cases h
    exact ⟨Nat.le_refl _, fun _ => rfl⟩
  | cons m ms ih =>
    simp only [List.foldlM_cons, Action.bind_ok, Action.pure_ok] at h
    obtain ⟨_, r, ⟨swept, _, hsweep, rfl, rfl⟩, h⟩ := h
    obtain ⟨hle, heq⟩ := ih h
    refine ⟨Nat.le_of_add_right_le hle, fun hn => ?_⟩
    have hswept : swept = 0 := by omega
    subst hswept
    rw [Edit.sweepModule, Action.get_bind_ok] at hsweep
    exact (heq hn).trans (eq_of_sweep hsweep)

theorem eq_of_eliminateDeadCode (h : Edit.eliminateDeadCode p = .ok ⟨0, 0⟩ q) : q = p := by
  rw [Edit.eliminateDeadCode, Action.get_bind_ok, Action.bind_ok] at h
  obtain ⟨swept, r, hsweep, h⟩ := h
  rw [Action.get_bind_ok, Action.lift_checked_bind_ok] at h
  obtain ⟨live, -, h⟩ := h
  obtain ⟨_, _, hremove, h⟩ := Action.bind_ok.mp h
  obtain ⟨hresult, rfl⟩ := Action.pure_ok.mp h
  obtain ⟨rfl, hdead⟩ := DeadCode.mk.inj hresult
  rw [List.eq_nil_of_length_eq_zero hdead] at hremove
  cases hremove
  exact (eq_of_sweepAll hsweep).2 rfl

/-- **Dead code elimination removes exactly what is dead.** It comes to an end on every valid
program; the main module is always there (`Reached.hasMain`). -/
theorem eliminateDeadCode_exact (h : p.verify = .ok ()) (hmain : p.HasMain) :
    ∃ result q, Edit.eliminateDeadCode p = .ok result q ∧ Cleaned p result q ∧
      q.verify = .ok () ∧ Edit.eliminateDeadCode q = .ok ⟨0, 0⟩ q := by
  have hv := verify_ok.mp h
  obtain ⟨result, q, hok, hclean, hq⟩ := hv.exists_cleaned hmain
  obtain ⟨⟨n, k⟩, r, hagain, hclean', -⟩ := hq.exists_cleaned ((hclean.module? main).mpr .refl)
  obtain ⟨is, -, rfl, his⟩ := hclean'.instructions
  obtain ⟨ms, -, rfl, hms⟩ := hclean'.modules
  have hisnil : is = [] := List.eq_nil_iff_forall_not_mem.mpr fun i hi => by
    obtain ⟨hsome, hneeded⟩ := (his i).mp hi
    obtain ⟨inst, hinst⟩ := Option.isSome_iff_exists.mp hsome
    exact hneeded (hclean.needed_of_instr? hv hq hinst)
  have hmsnil : ms = [] := List.eq_nil_iff_forall_not_mem.mpr fun m hm => by
    obtain ⟨halive, hlive⟩ := (hms m).mp hm
    exact hlive (hclean.live hv hq ((hclean.module? m).mp halive))
  subst hisnil hmsnil
  rw [eq_of_eliminateDeadCode hagain] at hagain
  exact ⟨result, q, hok, hclean, verify_ok.mpr hq, hagain⟩

/-- A dead chain in the main module, and two modules that only reference each other. -/
def entwined : Program :=
  (do
    let type : TensorType := ⟨.f32, [1], [1]⟩
    let f ← Edit.createModule "f"
    let x ← Edit.addParameter f "x" type
    let y ← Edit.addInstruction f (.unary .relu) [x] []
    let _ ← Edit.addReturn f [y]
    let g ← Edit.createModule "g"
    let x' ← Edit.addParameter g "x" type
    let y' ← Edit.addInstruction g .pointwise [x'] [f]
    let _ ← Edit.addReturn g [y']
    Edit.replaceWith y .pointwise [x] [g]
    let a ← Edit.addParameter main "a" type
    let b ← Edit.addInstruction main (.unary .relu) [a] []
    let _ ← Edit.addInstruction main (.unary .relu) [b] []
    let sum ← Edit.addInstruction main (.binary .add) [a, a] []
    let _ ← Edit.addReturn main [sum] : Edit Unit).after .empty

/-- The chain and the two modules go. -/
theorem eliminateDeadCode_exact_entwined :
    entwined.verify = .ok () ∧ entwined.HasMain ∧ ∃ q,
      Edit.eliminateDeadCode entwined = .ok ⟨2, 2⟩ q ∧ q.verify = .ok () ∧
        Edit.eliminateDeadCode q = .ok ⟨0, 0⟩ q := by
  have hverify : entwined.verify = .ok () := by decide +kernel
  have hmain : entwined.HasMain := by
    rw [HasMain]
    decide +kernel
  obtain ⟨result, q, hok, -, hq, hagain⟩ := eliminateDeadCode_exact hverify hmain
  have hcount : (match Edit.eliminateDeadCode entwined with
      | .ok result _ => result
      | .error _ _ => ⟨0, 0⟩) = ⟨2, 2⟩ := by decide +kernel
  rw [hok] at hcount
  exact ⟨hverify, hmain, q, hcount ▸ hok, hq, hagain⟩

end OffloadFusion.Program
