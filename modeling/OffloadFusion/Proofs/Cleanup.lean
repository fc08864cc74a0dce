import OffloadFusion.Proofs.Interface

/-!
# Cleaning up

Removals that keep a program steady, with its interface (`Trim`):

* `Steady.trim_removeInstruction`: an instruction that nothing uses.
* `Steady.trim_releaseModule`: modules that nothing references any more.
* `Steady.trim_prune`: instructions of the main module, with what only they kept.
* **`Steady.trim_eliminateDeadCode`**: everything dead. The sweep keeps what modules take and
  return; the modules that are removed at the end are all that the main module does not reach.
-/

namespace OffloadFusion.Program

variable {p q r : Program} {i j x : InstrId} {m k : ModuleId} {n fuel : Nat} {inst : Instruction}
  {module : Module} {u : Unit} {e : Option ModuleId}

/-- A removal that ends in a steady program. -/
structure Trim (e : Option ModuleId) (p q : Program) : Prop where
  steady : q.Steady e
  shrunk : Shrunk p q

namespace Trim

theorem refl (h : p.Steady e) : Trim e p p := ⟨h, .refl p⟩

theorem trans (h : Trim e p q) (h' : Trim e q r) : Trim e p r :=
  ⟨h'.steady, h.shrunk.trans h'.shrunk⟩

theorem residue (h : Trim e p q) (hl : p.Linked) : Residue p q :=
  h.shrunk.residue hl h.steady.toLinked

end Trim

/-! ## An instruction -/

section

variable (hl : p.Linked) (hi : p.instr? i = some inst) (hloc : p.locate i = .ok (m, n))

include hl hi hloc

theorem parameters_removed (hparam : inst.op.isParam = false) :
    (p.removed i m n).parameters k = p.parameters k := by
  rw [parameters, parameters, body_removed hl hi hloc, List.filter_filter]
  refine List.filter_congr fun j _ => ?_
  by_cases hj : j = i
  · subst hj
    simp [hasOp, hi, hparam]
  · simp [hj, (sameCore_removed hi hj).hasOp]

theorem getLast?_removed {last : InstrId} (hlast : (p.body k).getLast? = some last)
    (hne : last ≠ i) : ((p.removed i m n).body k).getLast? = some last := by
  rw [body_removed hl hi hloc]
  exact getLast?_filter_of hlast (decide_eq_true hne)

theorem inherits_removed (hparam : inst.op.isParam = false)
    (hlast : ∀ last, (p.body k).getLast? = some last → last ≠ i) :
    Inherits p (p.removed i m n) k := by
  refine ⟨parameters_removed hl hi hloc hparam, ?_, fun {j b} hj hb => ?_⟩
  · cases he : (p.body k).getLast? with
    | none =>
      rw [body_removed hl hi hloc, List.getLast?_eq_none_iff.mp he]
      rfl
    | some last => exact getLast?_removed hl hi hloc he (hlast last he)
  · rw [body_removed hl hi hloc, List.mem_filter, decide_eq_true_eq] at hj
    obtain ⟨a, ha, hc⟩ := (sameCore_removed hi hj.2).exists_instr hb
    exact ⟨hj.1, a, ha, .of_core hc.symm⟩

theorem shrunk_removed (hparam : inst.op.isParam = false) (hret : inst.op.isReturn = false)
    (hkept : m ≠ main → ∀ last, (p.body m).getLast? = some last → last ≠ i) :
    Shrunk p (p.removed i m n) := by
  refine ⟨fun {k} hk halive => ?_, fun {j a} hj => ?_, parameters_removed hl hi hloc hparam,
    fun {r} hr => ?_⟩
  · rw [module?_removed hl hi hloc, Option.isSome_map] at halive
    refine ⟨halive, inherits_removed hl hi hloc hparam fun last he => ?_⟩
    by_cases hkm : k = m
    · subst hkm
      exact hkept hk last he
    · rintro rfl
      obtain ⟨inst', -, hi', hm, -, -⟩ := locate_ok.mp hloc
      exact hkm ((hl.owner_unique hi' (List.mem_of_getLast? he)).symm.trans hm)
  · refine (sameCore_removed hi ?_).exists_instr hj
    rintro rfl
    rw [instr?_removed hi, if_pos rfl] at hj
    cases hj
  · obtain ⟨hlast, hop⟩ := return?_eq_some.mp hr
    have hne : r ≠ i := by
      rintro rfl
      rw [hasOp, hi, Option.any_some, hret] at hop
      cases hop
    exact return?_eq_some.mpr ⟨getLast?_removed hl hi hloc hlast hne,
      ((sameCore_removed hi hne).hasOp _).trans hop⟩

end

theorem Steady.trim_removeInstruction (h : p.Steady (some main)) (hi : p.instr? i = some inst)
    (ho : inst.owner = main) (hparam : inst.op.isParam = false) (hret : inst.op.isReturn = false)
    (hok : Edit.removeInstruction i p = .ok u q) : Trim (some main) p q := by
  obtain ⟨inst', m, n, hi', hc, hloc, rfl⟩ := Edit.removeInstruction_ok.mp hok
  rw [hi] at hi'
  cases hi'
  obtain ⟨inst', -, hi', rfl, -, -⟩ := locate_ok.mp hloc
  rw [hi] at hi'
  cases hi'
  exact ⟨h.removed hi hc hloc fun hs => .inl (ho ▸ sparesAny_some.mp hs),
    shrunk_removed h.toLinked hi hloc hparam hret fun hne => absurd ho hne⟩

/-! ## Modules -/

theorem Dropped.shrunk {dead : List ModuleId} (h : Dropped dead p q) (hl : p.Linked)
    (hmain : main ∉ dead) : Shrunk p q := by
  have hcore : ∀ {j}, j ∈ p.body main → SameCore p q j := h.sameCore hl hmain
  refine ⟨fun {k} hk halive => ?_, fun hj => ⟨_, (h.exists_instr hj).1, rfl⟩,
    parameters_congr (h.body hmain) fun j hj => hcore hj, fun hr => ?_⟩
  · have hkd : k ∉ dead := by
      intro hmem
      rw [h.module?, if_pos hmem] at halive
      cases halive
    refine ⟨by rwa [h.module?, if_neg hkd] at halive, .of_body (h.body hkd) (fun hi ha => ?_) hl⟩
    obtain ⟨b, hb, hc⟩ := (h.sameCore hl hkd hi).symm.exists_instr ha
    exact ⟨b, hb, .of_core hc⟩
  obtain ⟨hlast, hop⟩ := return?_eq_some.mp hr
  rw [return?_eq_some, h.body hmain, (hcore (List.mem_of_getLast? hlast)).hasOp]
  exact ⟨hlast, hop⟩

theorem isReferenced_eq_false : p.isReferenced m = false ↔
    ∀ i inst, p.instr? i = some inst → inst.owner ≠ m → m ∉ inst.modules := by
  have hentry : ∀ n inst, (n, inst) ∈ p.instructions.entries ↔ p.instr? ⟨n⟩ = some inst :=
    fun _ _ => Arena.mem_entries
  simp only [isReferenced, List.any_eq_false, decide_eq_true_eq, not_and, Prod.forall, hentry]
  exact ⟨fun h i inst => h i.index inst, fun h n inst => h ⟨n⟩ inst⟩

theorem Steady.trim_removeModule (h : p.Steady e) (hm : p.isReferenced m = false)
    (hok : Edit.removeModule m p = .ok u q) : Trim e p q := by
  obtain ⟨hmain, module, hmod, rfl⟩ := Edit.removeModule_ok.mp hok
  have hd := Dropped.of_moduleRemoved h.toLinked hmod
  refine ⟨h.dropped hd (h.toLinked.moduleRemoved hmod) fun {i inst} hi ho k hk => ?_,
    hd.shrunk h.toLinked fun hmem => hmain (List.mem_singleton.mp hmem).symm⟩
  rw [List.mem_singleton] at ho ⊢
  rintro rfl
  exact isReferenced_eq_false.mp hm i inst hi ho hk

/-! ### Released modules -/

section

variable {I : Program → Prop} (hI : ∀ {q r m u}, I q → q.isReferenced m = false →
  Edit.removeModule m q = .ok u r → I r)

include hI

/-- What the removal of modules that nothing else references keeps, a release keeps. -/
theorem invariant_releaseFrom {stack : List ModuleId} (h : I p)
    (hok : Edit.releaseFrom fuel stack p = .ok u q) : I q := by
  induction fuel generalizing p stack with
  | zero =>
    cases stack with
    | nil =>
      cases hok
      exact h
    | cons m stack => cases hok
  | succ fuel ih =>
    cases stack with
    | nil =>
      cases hok
      exact h
    | cons m stack =>
      rw [Edit.releaseFrom, Action.get_bind_ok, Action.ite_ok] at hok
      obtain ⟨-, hok⟩ | ⟨hcond, hok⟩ := hok
      · exact ih h hok
      · rw [not_or, not_or] at hcond
        rw [Action.bind_ok] at hok
        obtain ⟨_, r, hr, hok⟩ := hok
        exact ih (hI h (Bool.eq_false_iff.mpr hcond.2.2) hr) hok

theorem invariant_releaseModules {ms : List ModuleId} (h : I p)
    (hok : ms.forM Edit.releaseModule p = .ok u q) : I q := by
  induction ms generalizing p with
  | nil =>
    cases hok
    exact h
  | cons m ms ih =>
    rw [List.forM, Action.bind_ok] at hok
    obtain ⟨_, r, hr, hok⟩ := hok
    rw [Edit.releaseModule, Action.get_bind_ok] at hr
    exact ih (invariant_releaseFrom hI h hr) hok

end

theorem Steady.trim_releaseFrom {stack : List ModuleId} (h : p.Steady e)
    (hok : Edit.releaseFrom fuel stack p = .ok u q) : Trim e p q :=
  invariant_releaseFrom (I := Trim e p)
    (fun hq hm hr => hq.trans (hq.steady.trim_removeModule hm hr)) (.refl h) hok

/-- **Releasing a module keeps a program steady.** -/
theorem Steady.trim_releaseModule (h : p.Steady e) (hok : Edit.releaseModule m p = .ok u q) :
    Trim e p q := by
  rw [Edit.releaseModule, Action.get_bind_ok] at hok
  exact h.trim_releaseFrom hok

theorem Steady.trim_releaseModules {ms : List ModuleId} (h : p.Steady e)
    (hok : ms.forM Edit.releaseModule p = .ok u q) : Trim e p q :=
  invariant_releaseModules (I := Trim e p)
    (fun hq hm hr => hq.trans (hq.steady.trim_removeModule hm hr)) (.refl h) hok

/-! ## Pruning -/

/-- What is still there of the list belongs to the main module. -/
def Inside (is : List InstrId) (p : Program) : Prop :=
  ∀ i ∈ is, ∀ inst, p.instr? i = some inst → inst.owner = main

theorem Shrunk.inside (h : Shrunk p q) {is : List InstrId} (hin : Inside is p) : Inside is q := by
  intro i hi inst hq
  obtain ⟨inst', hp, hc⟩ := h.left hq
  exact (Instruction.core_eq_iff.mp hc).2.2.2.2.trans (hin i hi inst' hp)

/-- What the removal of instructions out of `C` keeps, pruning keeps where it starts in `C`. -/
theorem invariant_pruneFrom {I : Program → Prop} {C : InstrId → Prop} {stack : List InstrId}
    {removed : Nat} (hmodule : ∀ {q r m u}, I q → q.isReferenced m = false →
      Edit.removeModule m q = .ok u r → I r)
    (hinstr : ∀ {q r i inst u}, I q → C i → q.instr? i = some inst → inst.op.isParam = false →
      inst.op.isReturn = false → Edit.removeInstruction i q = .ok u r →
        I r ∧ ∀ x ∈ inst.inputs, C x)
    (h : I p) (hstack : ∀ i ∈ stack, C i) (hok : Edit.pruneFrom fuel stack p = .ok removed q) :
    I q := by
  induction fuel generalizing p stack removed with
  | zero =>
    cases stack with
    | nil =>
      cases hok
      exact h
    | cons m stack => cases hok
  | succ fuel ih =>
    cases stack with
    | nil =>
      cases hok
      exact h
    | cons i stack =>
      obtain ⟨hi, hrest⟩ := List.forall_mem_cons.mp hstack
      rw [Edit.pruneFrom, Action.get_bind_ok] at hok
      cases hinst : p.instr? i with
      | none =>
        rw [hinst] at hok
        exact ih h hrest hok
      | some inst =>
        simp only [hinst, Action.ite_ok] at hok
        obtain ⟨-, hok⟩ | ⟨hcond, hok⟩ := hok
        · exact ih h hrest hok
        simp only [Bool.or_eq_true, not_or, Bool.not_eq_true] at hcond
        simp only [Action.bind_ok, Action.pure_ok] at hok
        obtain ⟨_, p₁, h₁, _, p₂, h₂, _, p₃, h₃, -, rfl⟩ := hok
        obtain ⟨hp₁, hinputs⟩ := hinstr h hi hinst hcond.1.2 hcond.2 h₁
        refine ih (invariant_releaseModules hmodule hp₁ h₂)
          (List.forall_mem_append.mpr ⟨fun x hx => ?_, hrest⟩) h₃
        exact hinputs x (List.mem_reverse.mp hx)

theorem Steady.trim_pruneFrom {stack : List InstrId} {removed : Nat} (h : p.Steady (some main))
    (hin : Inside stack p) (hok : Edit.pruneFrom fuel stack p = .ok removed q) :
    Trim (some main) p q := by
  refine invariant_pruneFrom (I := Trim (some main) p)
    (C := fun i => ∀ inst, p.instr? i = some inst → inst.owner = main)
    (fun hq hm hr => hq.trans (hq.steady.trim_removeModule hm hr))
    (fun {q r i inst u} hq hi hinst hparam hret hr => ?_) (.refl h) hin hok
  obtain ⟨inst', hinst', hc⟩ := hq.shrunk.left hinst
  obtain ⟨-, hinputs, -, -, ho⟩ := Instruction.core_eq_iff.mp hc
  refine ⟨hq.trans (hq.steady.trim_removeInstruction hinst (ho.trans (hi inst' hinst')) hparam
    hret hr), fun x hx xinst hxinst => ?_⟩
  obtain ⟨a, ha, hao⟩ := h.operand hinst' (hinputs ▸ hx)
  cases hxinst.symm.trans ha
  exact hao.trans (hi inst' hinst')

/-- **Pruning the main module keeps a program steady.** -/
theorem Steady.trim_prune {roots : List InstrId} {removed : Nat} (h : p.Steady (some main))
    (hin : Inside roots p) (hok : Edit.prune roots p = .ok removed q) : Trim (some main) p q := by
  rw [Edit.prune, Action.get_bind_ok] at hok
  exact h.trim_pruneFrom (fun i hi => hin i (List.mem_reverse.mp hi)) hok

/-- **Pruning removes an inner instruction that nothing uses.** -/
theorem Steady.gone_of_prune {removed : Nat} (h : p.Steady (some main)) (hi : i ∈ p.body main)
    (hinst : p.instr? i = some inst) (hinner : inst.op.isBoundary = false)
    (hunused : ∀ j, ¬ p.Uses j i) (hok : Edit.prune [i] p = .ok removed q) :
    q.instr? i = none := by
  simp only [Op.isBoundary, Bool.or_eq_false_iff] at hinner
  have ho := h.owner_unique hinst hi
  have hc : inst.consumers = [] := List.eq_nil_iff_forall_not_mem.mpr fun j hj =>
    hunused j ((h.mirrored hinst).mp hj)
  rw [Edit.prune, Action.get_bind_ok, List.reverse_singleton, Edit.pruneFrom,
    Action.get_bind_ok] at hok
  simp only [hinst, hc, hinner.1.1, hinner.2, List.isEmpty_nil, Bool.not_true, Bool.or_false,
    Bool.false_eq_true, if_false, Action.bind_ok, Action.pure_ok] at hok
  obtain ⟨_, p₁, h₁, _, p₂, h₂, _, p₃, h₃, -, rfl⟩ := hok
  have ht₁ := h.trim_removeInstruction hinst ho hinner.1.1 hinner.2 h₁
  have ht₂ := ht₁.steady.trim_releaseModules h₂
  have hin : Inside (inst.inputs.reverse ++ []) p := fun x hx xinst hxinst => by
    rw [List.append_nil, List.mem_reverse] at hx
    exact h.owner_unique hxinst (h.mem_body_of_uses hi ⟨inst, hinst, hx⟩)
  have ht₃ := ht₂.steady.trim_pruneFrom ((ht₁.trans ht₂).shrunk.inside hin) h₃
  by_contra hne
  obtain ⟨b, hb⟩ := Option.ne_none_iff_exists'.mp hne
  obtain ⟨a, ha, -⟩ := (ht₂.trans ht₃).shrunk.left hb
  obtain ⟨inst', m, n, hinst', -, -, rfl⟩ := Edit.removeInstruction_ok.mp h₁
  rw [instr?_removed hinst', if_pos rfl] at ha
  cases ha

/-! ## Sweeping -/

/-- The last instruction of the module is one that a sweep keeps. -/
def KeepsLast (p : Program) (m : ModuleId) (kept : Option InstrId) : Prop :=
  ∀ last, (p.body m).getLast? = some last → p.hasOp Op.isReturn last = true ∨ kept = some last

/-- The sweep leaves what the module takes and returns. -/
theorem unnoticed_removed (hl : p.Linked) (hi : p.instr? i = some inst) (hc : inst.consumers = [])
    (hloc : p.locate i = .ok (m, n)) (hparam : inst.op.isParam = false)
    (hlast : ∀ last, (p.body m).getLast? = some last → last ≠ i) :
    Local.Unnoticed m p (p.removed i m n) j := by
  refine .inr fun s hs => signature_keep (Local.removed hl hi hloc).alive
    (parameters_removed hl hi hloc hparam) (fun x hx t ht => ?_) ?_ (fun last he => ?_) hs
  · refine (sameCore_removed hi ?_).hasType ht
    rintro rfl
    have hop := (List.mem_filter.mp hx).2
    rw [hasOp, hi, Option.any_some, hparam] at hop
    cases hop
  · cases he : (p.body m).getLast? with
    | none =>
      obtain ⟨inst', module, hi', rfl, -, -⟩ := locate_ok.mp hloc
      rw [hi] at hi'
      cases hi'
      have hmem := hl.listed hi
      rw [List.getLast?_eq_none_iff.mp he] at hmem
      cases hmem
    | some last => exact getLast?_removed hl hi hloc he (hlast last he)
  · refine ⟨sameCore_removed hi (hlast last he), fun x hx t ht => ?_⟩
    refine (sameCore_removed hi ?_).hasType ht
    rintro rfl
    have hmem := (hl.mirrored hi).mpr hx
    rw [hc] at hmem
    cases hmem

theorem Steady.trim_sweep {kept : Option InstrId} {is : List InstrId} {removed : Nat}
    (h : p.Steady e) (hin : ∀ i ∈ is, ∀ inst, p.instr? i = some inst → inst.owner = m)
    (hlast : p.KeepsLast m kept) (hok : Edit.sweep kept is p = .ok removed q) : Trim e p q := by
  induction is generalizing p removed with
  | nil =>
    cases hok
    exact .refl h
  | cons i is ih =>
    have hrest : ∀ j ∈ is, ∀ inst, p.instr? j = some inst → inst.owner = m :=
      fun j hj => hin j (List.mem_cons_of_mem i hj)
    simp only [Edit.sweep, Action.get_bind_ok, Action.lift_checked_bind_ok, instr_ok,
      Action.ite_ok] at hok
    obtain ⟨inst, hi, ⟨-, hok⟩ | ⟨hcond, hok⟩⟩ := hok
    · exact ih h hrest hlast hok
    simp only [Bool.or_eq_true, not_or, Bool.not_eq_true, decide_eq_false_iff_not] at hcond
    simp only [Action.bind_ok, Action.pure_ok] at hok
    obtain ⟨_, p₁, h₁, _, p₂, h₂, -, rfl⟩ := hok
    obtain ⟨⟨⟨-, hparam⟩, hret⟩, hkept⟩ := hcond
    obtain ⟨inst', k, n, hi', hc, hloc, rfl⟩ := Edit.removeInstruction_ok.mp h₁
    rw [hi] at hi'
    cases hi'
    have hkm : k = m := by
      obtain ⟨inst', -, hi', rfl, -, -⟩ := locate_ok.mp hloc
      exact hin i List.mem_cons_self inst' hi'
    subst hkm
    have hl := h.toLinked
    have hne : ∀ last, (p.body k).getLast? = some last → last ≠ i := by
      rintro last he rfl
      obtain hop | he := hlast last he
      · rw [hasOp, hi, Option.any_some, hret] at hop
        cases hop
      · exact hkept he
    have hshrunk := shrunk_removed hl hi hloc hparam hret fun _ => hne
    have hsteady := h.removed hi hc hloc fun _ => unnoticed_removed hl hi hc hloc hparam hne
    refine Trim.trans ⟨hsteady, hshrunk⟩ (ih hsteady (fun j hj a ha => ?_) (fun last he => ?_) h₂)
    · obtain ⟨a', ha', hcore⟩ := hshrunk.left ha
      exact (Instruction.core_eq_iff.mp hcore).2.2.2.2.trans (hrest j hj a' ha')
    · have he' : (p.body k).getLast? = some last := by
        cases hp : (p.body k).getLast? with
        | none =>
          rw [body_removed hl hi hloc, List.getLast?_eq_none_iff.mp hp] at he
          cases he
        | some last' =>
          rw [← he, getLast?_removed hl hi hloc hp (hne last' hp)]
      rw [(sameCore_removed hi (hne last he')).hasOp]
      exact hlast last he'

theorem Steady.trim_sweepModule {removed : Nat} (h : p.Steady e)
    (hok : Edit.sweepModule m p = .ok removed q) : Trim e p q := by
  rw [Edit.sweepModule, Action.get_bind_ok] at hok
  have hin : ∀ i ∈ (p.body m).reverse, ∀ inst, p.instr? i = some inst → inst.owner = m :=
    fun i hi inst hinst => h.owner_unique hinst (List.mem_reverse.mp hi)
  refine h.trim_sweep hin (fun last he => ?_) hok
  by_cases hret : (p.return? m).isSome
  · obtain ⟨r, hr⟩ := Option.isSome_iff_exists.mp hret
    obtain ⟨hr, hop⟩ := return?_eq_some.mp hr
    rw [he] at hr
    cases hr
    exact .inl hop
  · exact .inr (by rw [if_neg hret, he])

theorem Steady.trim_sweepAll {ms : List ModuleId} {count removed : Nat} (h : p.Steady e)
    (hok : (ms.foldlM (fun count m => do return count + (← Edit.sweepModule m)) count :
      Edit Nat) p = .ok removed q) : Trim e p q := by
  induction ms generalizing p count with
  | nil =>
    cases hok
    exact .refl h
  | cons m ms ih =>
    simp only [List.foldlM_cons, Action.bind_ok, Action.pure_ok] at hok
    obtain ⟨_, r, ⟨_, _, hr, -, rfl⟩, hok⟩ := hok
    have hstep := h.trim_sweepModule hr
    exact hstep.trans (ih hstep.steady hok)

/-! ## Modules that are not reached -/

theorem collectModules_closed {live stack collected : List ModuleId}
    (hlive : ∀ m ∈ live, ∀ k ∈ p.references m, k ∈ live ∨ k ∈ stack)
    (h : p.collectModules fuel live stack = .ok collected) :
    stack ⊆ collected ∧ live ⊆ collected ∧ ∀ m ∈ collected, p.references m ⊆ collected := by
  induction fuel generalizing live stack with
  | zero =>
    cases stack with
    | nil =>
      cases h
      exact ⟨List.nil_subset _, List.Subset.refl _, fun m hm k hk =>
        (hlive m hm k hk).resolve_right List.not_mem_nil⟩
    | cons m stack => cases h
  | succ fuel ih =>
    cases stack with
    | nil =>
      cases h
      exact ⟨List.nil_subset _, List.Subset.refl _, fun m hm k hk =>
        (hlive m hm k hk).resolve_right List.not_mem_nil⟩
    | cons m stack =>
      rw [collectModules] at h
      split at h
      · next hm =>
        have hnext : ∀ k ∈ live, ∀ x ∈ p.references k, x ∈ live ∨ x ∈ stack := by
          intro k hk x hx
          obtain hx | hx := hlive k hk x hx
          · exact .inl hx
          · obtain rfl | hx := List.mem_cons.mp hx
            · exact .inl hm
            · exact .inr hx
        obtain ⟨hs, hl, hc⟩ := ih hnext h
        exact ⟨List.cons_subset.mpr ⟨hl hm, hs⟩, hl, hc⟩
      · simp only [Outcome.bind_ok] at h
        obtain ⟨_, -, h⟩ := h
        have hnext : ∀ k ∈ m :: live, ∀ x ∈ p.references k,
            x ∈ m :: live ∨ x ∈ p.references m ++ stack := by
          intro k hk x hx
          obtain rfl | hk := List.mem_cons.mp hk
          · exact .inr (List.mem_append_left _ hx)
          · obtain hx | hx := hlive k hk x hx
            · exact .inl (List.mem_cons_of_mem m hx)
            · obtain rfl | hx := List.mem_cons.mp hx
              · exact .inl List.mem_cons_self
              · exact .inr (List.mem_append_right _ hx)
        obtain ⟨hs, hl, hc⟩ := ih hnext h
        exact ⟨List.cons_subset.mpr ⟨hl List.mem_cons_self,
          fun x hx => hs (List.mem_append_right _ hx)⟩,
          fun x hx => hl (List.mem_cons_of_mem m hx), hc⟩

theorem mem_references (hi : i ∈ p.body m) (hinst : p.instr? i = some inst)
    (hk : k ∈ inst.modules) : k ∈ p.references m := by
  rw [references, List.mem_flatMap]
  exact ⟨i, hi, by rwa [hinst]⟩

theorem dropped_of_removeModules {dead : List ModuleId} (hl : p.Linked)
    (hok : dead.forM Edit.removeModule p = .ok u q) : Dropped dead p q ∧ q.Linked := by
  induction dead generalizing p with
  | nil =>
    cases hok
    exact ⟨.refl _, hl⟩
  | cons m dead ih =>
    rw [List.forM, Action.bind_ok] at hok
    obtain ⟨_, r, hr, hok⟩ := hok
    obtain ⟨-, module, hm, rfl⟩ := Edit.removeModule_ok.mp hr
    obtain ⟨hd, hq⟩ := ih (hl.moduleRemoved hm) hok
    exact ⟨(Dropped.of_moduleRemoved hl hm).trans hd, hq⟩

/-- **Eliminating dead code keeps a program steady.** -/
theorem Steady.trim_eliminateDeadCode {result : DeadCode} (h : p.Steady e)
    (hok : Edit.eliminateDeadCode p = .ok result q) : Trim e p q := by
  rw [Edit.eliminateDeadCode, Action.get_bind_ok, Action.bind_ok] at hok
  obtain ⟨_, p₁, h₁, hok⟩ := hok
  rw [Action.get_bind_ok, Action.lift_checked_bind_ok] at hok
  obtain ⟨live, hlive, hok⟩ := hok
  simp only [Action.bind_ok, Action.pure_ok] at hok
  obtain ⟨_, p₂, h₂, -, rfl⟩ := hok
  have hsweep := h.trim_sweepAll h₁
  have hv := hsweep.steady
  obtain ⟨hmain, -, hclosed⟩ := collectModules_closed (fun m hm => absurd hm List.not_mem_nil) hlive
  obtain ⟨hd, hl⟩ := dropped_of_removeModules hv.toLinked h₂
  have hdead : ∀ {k}, k ∈ live → k ∉ p₁.moduleIds.filter (· ∉ live) := fun hk hmem =>
    of_decide_eq_true (List.mem_filter.mp hmem).2 hk
  refine hsweep.trans ⟨hv.dropped hd hl fun {i inst} hi ho k hk => ?_,
    hd.shrunk hv.toLinked (hdead (hmain (List.mem_singleton.mpr rfl)))⟩
  obtain ⟨module, hm, -⟩ := hv.owner_alive hi
  have howner : inst.owner ∈ live := by
    by_contra hne
    exact ho (List.mem_filter.mpr ⟨mem_moduleIds.mpr ⟨module, hm⟩, decide_eq_true hne⟩)
  exact hdead (hclosed _ howner (mem_references (hv.listed hi) hi hk))

end OffloadFusion.Program
