import Mathlib.Algebra.Order.Ring.GeomSum
import OffloadFusion.Proofs.Completing
import OffloadFusion.Proofs.Fit
import OffloadFusion.Proofs.HandingOver
import OffloadFusion.Proofs.Settles

/-!
# Edits without faults

An edit of a fit program has no fault but lapses, and the program stays fit where it succeeds. Every
loop comes with what its rounds use up:

* `exists_refreshes`: an instruction weighs more than all its consumers together. Without a bound
  on its rounds a run ends as well (`Refreshes`).
* `settles_releaseFrom`, `settles_pruneFrom`: the references and operands that are taken out.

What builds or rewires leads `Onward`, so that nothing gets lost on the way (`settles_of_inserts`
and the following, `settles_replaceInstruction`, `settles_replaceWith`,
`settles_relocateDependents`).
-/

namespace OffloadFusion

open OffloadFusion.Action Program

variable {p q : Program} {i old new place : InstrId} {m : ModuleId} {n : Nat} {op : Op}
  {inputs : List InstrId} {modules : List ModuleId} {I : Program → Prop} {loose : Prop}

@[simp] theorem Renaming.faultsIn_image {P : Fault → Prop} {r : Renaming} :
    FaultsIn P (r.image i) := by
  unfold image
  split <;> simp

theorem Program.Fit.lapses_infer (h : p.Fit loose) : Lapses loose (p.infer op inputs modules) :=
  h.linked.lapses_infer h.ranked

theorem Action.Settling.onward {α : Type} {k : Program} {x : Edit α}
    (h : ∀ p, p.Fit loose → x.Settles loose p fun _ q => Onward loose p q) :
    x.Settling loose (Onward loose k) (Onward loose k) :=
  fun p hp => (h p hp.fit).mono fun _ _ _ hq => hp.trans hq

namespace Edit

/-! ## Building -/

theorem settling_checkOperand {module : Module} {name : String} {x : InstrId} :
    (checkOperand p m module n name x).Settling loose I I := by
  refine (Settling.lift faultsIn_findInstr).bind fun _ => .guard fun _ => ?_
  split
  · exact .ite (fun _ => .refuse _) fun _ => .pure _
  · exact .refuse _

theorem settling_checkPlacement {name : String} :
    (checkPlacement m n name inputs).Settling loose I I :=
  Settling.get.bind fun _ => (Settling.lift faultsIn_findModule).bind fun _ =>
    .forM fun _ _ => settling_checkOperand

theorem settling_afterParameters : (afterParameters m).Settling loose I I :=
  Settling.get.bind fun _ => (Settling.lift faultsIn_findModule).bind fun _ => .pure _

theorem settling_insertAt :
    (insertAt m n op inputs modules).Settling loose (Fit loose) fun _ => True :=
  settling_checkPlacement.bind fun _ => .get_bind fun _ hp =>
    (Settling.lift hp.lapses_infer).bind fun _ _ _ => trivial

/-- A new instruction is there, and nothing is lost. -/
def Grows (loose : Prop) (p : Program) (i : InstrId) (q : Program) : Prop :=
  Onward loose p q ∧ (q.instr? i).isSome

section

variable (h : p.Fit loose)

include h

theorem settles_of_inserts {x : Edit InstrId} (hop : op.Fit loose)
    (hx : x.Settling loose (Fit loose) fun _ => True)
    (hok : ∀ {i q}, x p = .ok i q → ∃ m n inputs modules module, p.module? m = some module ∧
      n ≤ module.body.length ∧ insertAt m n op inputs modules p = .ok i q) :
    x.Settles loose p (Grows loose p) :=
  (hx p h).mono fun i q hx _ => by
    obtain ⟨m, n, inputs, modules, module, hm, hn, hins⟩ := hok hx
    exact h.inserted hm hn hop hins

theorem settles_addParameter {name : String} {type : TensorType} (ht : loose ∨ type.Ranked) :
    (addParameter m name type).Settles loose p (Grows loose p) := by
  have hop : (Op.param name type).Fit loose := ht.imp_right List.forall_mem_singleton.mpr
  refine settles_of_inserts h hop (Settling.get.bind fun _ => .guard_bind faultsIn_findModule
    fun _ => settling_afterParameters.bind fun _ => settling_insertAt) fun hok => ?_
  obtain ⟨-, module, hm, hins⟩ := addParameter_ok.mp hok
  exact ⟨m, _, _, _, module, hm, p.parametersEnd_le _, hins⟩

theorem settles_addLiteral {type : TensorType} {data : LiteralData} (ht : loose ∨ type.Ranked) :
    (addLiteral m type data).Settles loose p (Grows loose p) := by
  have hop : (Op.literal type data).Fit loose := ht.imp_right List.forall_mem_singleton.mpr
  refine settles_of_inserts h hop (settling_afterParameters.bind fun _ => settling_insertAt)
    fun hok => ?_
  obtain ⟨module, hm, hins⟩ := addLiteral_ok.mp hok
  exact ⟨m, _, _, _, module, hm, p.parametersEnd_le _, hins⟩

theorem settles_addInstruction (hop : op.Fit loose) :
    (addInstruction m op inputs modules).Settles loose p (Grows loose p) := by
  refine settles_of_inserts h hop (Settling.get.bind fun _ =>
    (Settling.lift faultsIn_findModule).bind fun _ => settling_insertAt) fun hok => ?_
  obtain ⟨module, hm, hins⟩ := addInstruction_ok.mp hok
  exact ⟨m, _, _, _, module, hm, Nat.sub_le _ _, hins⟩

theorem settles_insertBefore (hop : op.Fit loose) :
    (insertBefore place op inputs modules).Settles loose p (Grows loose p) := by
  refine settles_of_inserts h hop (Settling.get.bind fun _ =>
    (Settling.lift faultsIn_locate).bind fun _ => settling_insertAt) fun hok => ?_
  obtain ⟨m, n, hloc, hins⟩ := insertBefore_ok.mp hok
  obtain ⟨module, hm, hn⟩ := lt_length_of_locate hloc
  exact ⟨m, n, _, _, module, hm, Nat.le_of_lt hn, hins⟩

theorem settles_insertAfter (hop : op.Fit loose) :
    (insertAfter place op inputs modules).Settles loose p (Grows loose p) := by
  refine settles_of_inserts h hop (Settling.get.bind fun _ =>
    (Settling.lift faultsIn_locate).bind fun _ => .guard_bind faultsIn_findModule
      fun _ => settling_insertAt) fun hok => ?_
  obtain ⟨m, n, hloc, -, hins⟩ := insertAfter_ok.mp hok
  obtain ⟨module, hm, hn⟩ := lt_length_of_locate hloc
  exact ⟨m, n + 1, _, _, module, hm, hn, hins⟩

theorem settles_addReturn : (addReturn m inputs).Settles loose p (Grows loose p) := by
  have hop : Op.ret.Fit loose := Op.fit_of_carried rfl
  refine settles_of_inserts h hop (Settling.get.bind fun _ => .guard_bind faultsIn_findModule
    fun _ => (Settling.lift faultsIn_findModule).bind fun _ => settling_insertAt) fun hok => ?_
  obtain ⟨-, module, hm, hins⟩ := addReturn_ok.mp hok
  exact ⟨m, _, _, _, module, hm, Nat.le_refl _, hins⟩

theorem settles_createModule {name : String} :
    (createModule name).Settles loose p fun m q => Onward loose p q ∧ (q.module? m).isSome := by
  have hsettling : (createModule name).Settling loose (Fit loose) fun _ => True :=
    Settling.get.bind fun _ => .guard fun _ _ _ => trivial
  refine (hsettling p h).mono fun m q hok _ => ?_
  obtain ⟨hfree, rfl, rfl⟩ := createModule_ok.mp hok
  refine ⟨h.opened hfree, ?_⟩
  rw [module?_opened, if_pos rfl]
  rfl

omit h in
/-- The copied instructions are read while nothing but the copy changes. -/
theorem settles_copyBody {k : Program} (hm : (p.module? m).isSome) (body : List InstrId)
    (copies : Renaming) (h : Onward loose k p) :
    (copyBody m body copies).Settles loose p fun _ q => Onward loose k q := by
  induction body generalizing p copies with
  | nil => exact h
  | cons i body ih =>
    rw [copyBody, settles_get_bind]
    refine settles_lift_bind faultsIn_findInstr fun inst hi => ?_
    have hop := (h.fit.fit (findInstr_ok.mp hi)).op
    refine settles_lift_bind (faultsIn_mapM fun _ _ => Renaming.faultsIn_image) fun args _ => ?_
    rw [settles_bind]
    refine (settling_insertAt p h.fit).mono fun copy q hok _ => ?_
    obtain ⟨module, hm'⟩ := Option.isSome_iff_exists.mp hm
    obtain ⟨hq, -⟩ := h.fit.inserted hm' (Nat.le_of_eq (by rw [body_of_module? hm'])) hop hok
    exact ih (hq.module hm) _ (h.trans hq)

theorem settles_copyModule {name : String} :
    (copyModule m name).Settles loose p fun _ q => Onward loose p q := by
  rw [copyModule, settles_get_bind]
  refine settles_lift_bind faultsIn_findModule fun module _ => ?_
  rw [settles_bind]
  refine (settles_createModule h).mono fun target q _ hcreated => ?_
  obtain ⟨hq, htarget⟩ := hcreated
  exact settles_bind.mpr ((settles_copyBody htarget _ _ hq).mono fun _ _ _ hr => hr)

end

/-! ## Removing -/

theorem settles_removeInstruction (h : p.Fit loose) :
    (removeInstruction i).Settles loose p fun _ q =>
      q.Fit loose ∧ Fewer p q ∧ q.instr? i = none := by
  have hsettling : (removeInstruction i).Settling loose (Fit loose) fun _ => True :=
    Settling.get.bind fun _ => (Settling.lift faultsIn_findInstr).bind fun _ => .guard fun _ =>
      (Settling.lift faultsIn_locate).bind fun _ _ _ => trivial
  refine (hsettling p h).mono fun _ q hok _ => ?_
  have hs := Action.after_of_ok hok ▸ keeps_removeInstruction p h.toSound
  have hmain := Action.after_of_ok hok ▸ (hasMain_removeInstruction p ⟨h.linked, h.main⟩).2
  obtain ⟨inst, m, n, hi, -, hloc, rfl⟩ := removeInstruction_ok.mp hok
  have hfewer : Fewer p (p.removed i m n) := ⟨fun {j b} hj => by
    refine (sameCore_removed hi ?_).exists_instr hj
    rintro rfl
    rw [instr?_removed hi, if_pos rfl] at hj
    cases hj⟩
  refine ⟨h.fewer hs hmain hfewer fun _ _ hk => ?_, hfewer, by rw [instr?_removed hi, if_pos rfl]⟩
  exact (sameNames_removed h.linked hi hloc).alive hk

theorem settles_removeModule (h : p.Fit loose) (hm : p.isReferenced m = false) :
    (removeModule m).Settles loose p fun _ q =>
      q.Fit loose ∧ Fewer p q ∧ ∀ i ∈ p.body m, q.instr? i = none := by
  have hsettling : (removeModule m).Settling loose (Fit loose) fun _ => True := by
    unfold removeModule
    exact .guard fun _ => Settling.get.bind fun p =>
      (Settling.lift faultsIn_findModule).bind fun _ _ _ => trivial
  refine (hsettling p h).mono fun _ q hok _ => ?_
  have hs := Action.after_of_ok hok ▸ keeps_removeModule p h.toSound
  have hmain := Action.after_of_ok hok ▸ hasMain_removeModule p h.main
  obtain ⟨-, module, hmod, rfl⟩ := removeModule_ok.mp hok
  have hd := Dropped.of_moduleRemoved h.linked hmod
  have hfewer : Fewer p (p.moduleRemoved m module) :=
    ⟨fun hj => ⟨_, (hd.exists_instr hj).1, rfl⟩⟩
  refine ⟨h.fewer hs hmain hfewer fun {j b k} hj hk halive => ?_, hfewer, fun i hi => ?_⟩
  · obtain ⟨hp, ho⟩ := hd.exists_instr hj
    rw [List.mem_singleton] at ho
    have hne : m ≠ k := fun he => isReferenced_eq_false.mp hm j b hp ho (he ▸ hk)
    rwa [module?_moduleRemoved, if_neg hne]
  · rw [instr?_moduleRemoved h.linked hmod, if_pos hi]

/-! ## Inferring types again -/

/-- Two to the number of instructions listed from this one on. -/
def weight (body : List InstrId) (i : InstrId) : Nat := 2 ^ (body.length - body.idxOf i)

/-- **An instruction weighs more than all its consumers together.** -/
theorem sum_weight_lt {body xs : List InstrId} (hbody : body.Nodup) (hxs : xs.Nodup)
    (h : ∀ x ∈ xs, Before body i x) : (xs.map (weight body)).sum < weight body i := by
  have hinj : (xs.map fun x => body.length - body.idxOf x).Nodup := by
    refine hxs.map_on fun x hx y hy he => ?_
    have hx' := List.idxOf_lt_length_of_mem (h x hx).right_mem
    have hy' := List.idxOf_lt_length_of_mem (h y hy).right_mem
    exact (List.idxOf_inj (h x hx).right_mem).mp (by omega)
  have hsum : (xs.map (weight body)).sum =
      ∑ k ∈ (xs.map fun x => body.length - body.idxOf x).toFinset, 2 ^ k := by
    rw [List.sum_toFinset _ hinj, List.map_map]
    rfl
  rw [hsum]
  refine Nat.geomSum_lt (Nat.le_refl 2) fun k hk => ?_
  obtain ⟨x, hx, rfl⟩ := List.mem_map.mp (List.mem_toFinset.mp hk)
  have hlt := (h x hx).idxOf_lt hbody
  have hx' := List.idxOf_lt_length_of_mem (h x hx).right_mem
  omega

/-- How inferring along a stack ends and after how many rounds, if there is no bound on these. -/
inductive Refreshes :
    Nat → List InstrId → Program → EStateM.Result (Failure GraphError) Program Unit → Prop
  | done {p : Program} : Refreshes 0 [] p (.ok ⟨⟩ p)
  | gone {p : Program} {i : InstrId} {stack : List InstrId} (hi : p.instr? i = none) :
      Refreshes 1 (i :: stack) p (.error (.refused (.unknownInstruction i)) p)
  | stuck {p : Program} {i : InstrId} {stack : List InstrId} {inst : Instruction}
      {e : Failure GraphError} (hi : p.instr? i = some inst)
      (ht : p.infer inst.op inst.inputs inst.modules = .error e) :
      Refreshes 1 (i :: stack) p (.error e p)
  | settle {n : Nat} {p : Program} {i : InstrId} {stack : List InstrId} {inst : Instruction}
      {r : EStateM.Result (Failure GraphError) Program Unit} (hi : p.instr? i = some inst)
      (ht : p.infer inst.op inst.inputs inst.modules = .ok inst.type)
      (hrest : Refreshes n stack p r) : Refreshes (n + 1) (i :: stack) p r
  | retype {n : Nat} {p : Program} {i : InstrId} {stack : List InstrId} {inst : Instruction}
      {type : ValueType} {r : EStateM.Result (Failure GraphError) Program Unit}
      (hi : p.instr? i = some inst) (ht : p.infer inst.op inst.inputs inst.modules = .ok type)
      (hne : type ≠ inst.type)
      (hrest : Refreshes n (inst.consumers.reverse ++ stack)
        (p.modifyInstr i fun inst => { inst with type }) r) : Refreshes (n + 1) (i :: stack) p r

namespace Refreshes

variable {stack : List InstrId} {r : EStateM.Result (Failure GraphError) Program Unit}

/-- **A bound that is not reached does not count.** -/
theorem refresh_eq {fuel : Nat} (h : Refreshes n stack p r) (hn : n ≤ fuel) :
    refresh fuel stack p = r := by
  induction h generalizing fuel with
  | done => cases fuel <;> rfl
  | gone hi =>
    obtain ⟨fuel, rfl⟩ := Nat.exists_eq_add_of_le' hn
    exact refresh_gone hi
  | stuck hi ht =>
    obtain ⟨fuel, rfl⟩ := Nat.exists_eq_add_of_le' hn
    exact refresh_stuck hi ht
  | settle hi ht hrest ih =>
    obtain ⟨fuel, rfl⟩ := Nat.exists_eq_add_of_le' (Nat.le_of_add_left_le hn)
    rw [refresh_cons hi ht, if_pos rfl]
    exact ih (Nat.le_of_succ_le_succ hn)
  | retype hi ht hne hrest ih =>
    obtain ⟨fuel, rfl⟩ := Nat.exists_eq_add_of_le' (Nat.le_of_add_left_le hn)
    rw [refresh_cons hi ht, if_neg hne]
    exact ih (Nat.le_of_succ_le_succ hn)

theorem ne_exhausted {e : Failure GraphError} (h : Refreshes n stack p (.error e q)) :
    e ≠ .fault .exhausted := by
  generalize hr : (EStateM.Result.error e q : EStateM.Result _ _ Unit) = r at h
  induction h with
  | done => cases hr
  | gone hi =>
    cases hr
    nofun
  | stuck hi ht =>
    cases hr
    rintro rfl
    exact infer_ne_exhausted ht
  | settle hi ht hrest ih => exact ih hr
  | retype hi ht hne hrest ih => exact ih hr

theorem settles {x : Edit Unit} (h : Refreshes n stack p (x p)) (hp : p.Fit loose) :
    x.Settles loose p fun _ q => Onward loose p q := by
  unfold Action.Settles
  generalize x p = r at h
  induction h with
  | done => exact .refl hp
  | gone hi => nofun
  | stuck hi ht => exact fun e he => hp.lapses_infer e (he ▸ ht)
  | settle hi ht hrest ih => exact ih hp
  | retype hi ht hne hrest ih =>
    have hstep := hp.retyped hi ht
    have hrun := ih hstep.fit
    split at hrun
    · exact hstep.trans hrun
    · exact hrun

end Refreshes

/-- **Inferring along a stack ends**: a round takes out more weight than it puts in. -/
theorem exists_refreshes {stack : List InstrId} (hw : p.Wired) (hstack : stack ⊆ p.body m) :
    ∃ n r, n ≤ (stack.map (weight (p.body m))).sum ∧ Refreshes n stack p r := by
  induction hload : (stack.map (weight (p.body m))).sum using Nat.strong_induction_on
    generalizing p stack with
  | _ load ih =>
  subst hload
  cases stack with
  | nil => exact ⟨0, _, Nat.zero_le _, .done⟩
  | cons i stack =>
    obtain ⟨hi, hrest⟩ := List.cons_subset.mp hstack
    obtain ⟨inst, hinst, -⟩ := hw.owned hi
    have hpos : 0 < weight (p.body m) i := Nat.pow_pos Nat.two_pos
    rw [List.map_cons, List.sum_cons] at ih ⊢
    cases ht : p.infer inst.op inst.inputs inst.modules with
    | error e => exact ⟨1, _, by omega, .stuck hinst ht⟩
    | ok type =>
      by_cases hsame : type = inst.type
      · obtain ⟨n, r, hn, hrun⟩ := ih _ (by omega) hw hrest rfl
        exact ⟨n + 1, r, by omega, .settle hinst (hsame ▸ ht) hrun⟩
      · have hr := Retyped.modifyInstr p i type
        have hafter : ∀ c ∈ inst.consumers, Before (p.body m) i c := fun c hc =>
          hw.before_of_used hi ((hw.mirrored hinst).mp hc)
        have hlt := sum_weight_lt (hw.nodup m) (hw.distinct hinst) hafter
        have hinside : inst.consumers.reverse ++ stack ⊆ p.body m := fun j hj => by
          obtain hj | hj := List.mem_append.mp hj
          · exact (hafter j (List.mem_reverse.mp hj)).right_mem
          · exact hrest hj
        have hload : ((inst.consumers.reverse ++ stack).map (weight (p.body m))).sum <
            weight (p.body m) i + (stack.map (weight (p.body m))).sum := by
          rw [List.map_append, List.sum_append, List.map_reverse, List.sum_reverse]
          exact Nat.add_lt_add_right hlt _
        obtain ⟨n, r, hn, hrun⟩ := ih _ hload (hr.wired hw) (by rwa [hr.body m])
          (by rw [hr.body m])
        exact ⟨n + 1, r, by omega, .retype hinst ht hsame hrun⟩

/-- **`refreshType` ends**, and its bound is not what ends it. -/
theorem exists_refreshes_refreshType (hw : p.Wired) (hi : i ∈ p.body m) :
    ∃ n ≤ 2 ^ (p.body m).length, Refreshes n [i] p (refreshType i p) := by
  obtain ⟨n, r, hn, hrun⟩ := exists_refreshes hw (List.cons_subset.mpr ⟨hi, List.nil_subset _⟩)
  rw [List.map_singleton, List.sum_singleton] at hn
  have hn : n ≤ 2 ^ (p.body m).length :=
    hn.trans (Nat.pow_le_pow_right Nat.two_pos (Nat.sub_le _ _))
  have hlen := hw.length_body_le m
  have hfuel : n ≤ 1 <<< (p.size + 64) := by
    rw [Nat.one_shiftLeft]
    exact hn.trans (Nat.pow_le_pow_right Nat.two_pos (by omega))
  have heq : refreshType i p = r := hrun.refresh_eq hfuel
  exact ⟨n, hn, heq ▸ hrun⟩

theorem RoundInvariant.refreshType_error {I : List InstrId → Program → Prop}
    {e : Failure GraphError} (hI : RoundInvariant I) (hw : p.Wired) (hi : i ∈ p.body m)
    (h : I [i] p) (he : refreshType i p = .error e q) : ∃ j rest, I (j :: rest) q ∧
      ∀ a, q.instr? j = some a → q.infer a.op a.inputs a.modules = .error e := by
  obtain ⟨n, -, hrun⟩ := exists_refreshes_refreshType hw hi
  rw [he] at hrun
  exact (hI.refresh_error h he).resolve_left hrun.ne_exhausted

theorem settles_refreshType (h : p.Fit loose) (i : InstrId) :
    (refreshType i).Settles loose p fun _ q => Onward loose p q := by
  cases hi : p.instr? i with
  | some inst =>
    obtain ⟨n, -, hrun⟩ := exists_refreshes_refreshType h.linked.wired (h.linked.listed hi)
    exact hrun.settles h
  | none =>
    have hrun : Refreshes 1 [i] p _ := .gone hi
    have heq : refreshType i p = _ := hrun.refresh_eq (Nat.one_le_iff_ne_zero.mpr (by simp))
    exact (heq ▸ hrun).settles h

/-! ## Rewiring -/

theorem Rewirable.settles_forM {left : List InstrId} (h : Rewirable m old new left p)
    (hn : left.Nodup) (hp : p.Fit loose) :
    (left.forM fun c => Edit.replaceArgument c old new).Settles loose p
      fun _ q => Onward loose p q := by
  induction left generalizing p with
  | nil => exact .refl hp
  | cons c left ih =>
    obtain ⟨hc, hn⟩ := List.nodup_cons.mp hn
    obtain ⟨cinst, hi, hold⟩ := h.uses c List.mem_cons_self
    have hbefore := h.before c List.mem_cons_self
    have howner : cinst.owner = m := h.linked.owner_unique hi hbefore.right_mem
    have hswapped := hp.swapped hi hold (howner ▸ hbefore)
    rw [List.forM, settles_bind, settles_congr (replaceArgument_eq old new hi)]
    refine (settles_refreshType hswapped.fit c).mono fun _ q hok hq => ?_
    have hstep := hswapped.trans hq
    have hnext := h.replaceArgument hc
    rw [Action.after_of_ok ((replaceArgument_eq old new hi).trans hok)] at hnext
    exact (ih hnext hn hstep.fit).mono fun _ _ _ hr => hstep.trans hr

theorem settling_checkAfter {module : Module} {c : InstrId} (hc : (p.instr? c).isSome) :
    (checkAfter p module n new c).Settling loose I I := by
  have hrefuse : Settling loose I I ((p.instr c : Edit Instruction) >>= fun inst =>
      (Action.refuse (.orderViolation inst.name new) : Edit PUnit)) :=
    (Settling.lift_checked (faultsIn_instr (.inr hc))).bind fun _ => .refuse _
  unfold checkAfter
  split
  · exact .ite (fun _ => hrefuse) fun _ => .pure _
  · exact hrefuse

theorem settles_replaceInstruction (h : p.Fit loose) :
    (replaceInstruction old new).Settles loose p fun _ q => Onward loose p q := by
  rw [replaceInstruction, settles_get_bind]
  refine settles_lift_bind faultsIn_findInstr fun oldInst ho => ?_
  refine settles_lift_bind faultsIn_findInstr fun newInst _ => ?_
  refine settles_ite (fun _ => settles_refuse _) fun _ => ?_
  refine settles_lift_bind faultsIn_locate fun place hloc => ?_
  refine settles_lift_bind faultsIn_findModule fun module hm => ?_
  have ho := findInstr_ok.mp ho
  have halive : ∀ c ∈ oldInst.consumers.filter (· ≠ new), (p.instr? c).isSome := fun c hc =>
    h.linked.alive_of_consumer ho (List.mem_of_mem_filter hc)
  have hcheck : ((oldInst.consumers.filter (· ≠ new)).forM
      (checkAfter p module place.2 new)).Settles loose p fun _ _ => True :=
    Settling.forM (I := fun _ => True) (fun c hc => settling_checkAfter (halive c hc)) p trivial
  refine settles_bind.mpr (hcheck.mono fun _ q hok _ => ?_)
  obtain ⟨rfl, hafter⟩ :=
    (Action.ReadOnly.forM_ok (readOnly_checkAfter p module place.2 new)).mp hok
  refine Rewirable.settles_forM (rewirable_of_check h.linked ho hloc (findModule_ok.mp hm)
    (fun c hc => List.mem_of_mem_filter hc) fun c hc => ?_) ((h.linked.distinct ho).filter _) h
  exact checkAfter_ok.mp (hafter c hc)

theorem settles_replaceWith (h : p.Fit loose) (hop : op.Fit loose) :
    (replaceWith i op inputs modules).Settles loose p fun _ q => Onward loose p q := by
  rw [replaceWith, settles_get_bind]
  refine settles_lift_bind faultsIn_locate fun place hloc => ?_
  refine settles_bind.mpr ((settling_checkPlacement (I := fun _ => True) p trivial).mono
    fun _ q hc _ => ?_)
  obtain ⟨rfl, -⟩ := checkPlacement_ok.mp hc
  rw [settles_get_bind]
  refine settles_lift_bind h.lapses_infer fun type hinfer => ?_
  obtain ⟨inst, _, hi, -⟩ := locate_ok.mp hloc
  have hsome : (p.instr? i).isSome := Option.isSome_iff_exists.mpr ⟨inst, hi⟩
  refine settles_instr_bind hsome fun old hold => ?_
  refine settles_ite (fun _ => settles_refuse _) fun _ => ?_
  have hr := h.rebuilt hold (before_of_placement hold hloc hc) hop hinfer
  rw [settles_set_bind]
  refine settles_ite (fun _ => ?_) fun _ => hr
  refine settles_get_bind.mpr (settles_instr_bind (hr.alive hsome) fun inst _ => ?_)
  exact Settling.forM (fun c _ => .onward fun _ hq => settles_refreshType hq c) _ hr

/-! ## Moving -/

theorem sameNames_modifyBody (p : Program) (m : ModuleId) (f : List InstrId → List InstrId) :
    SameNames p (p.modifyBody m f) := by
  refine ⟨rfl, fun k => ?_⟩
  rw [module?_modifyBody]
  split
  · rw [Option.map_map]
    rfl
  · rfl

theorem sameNames_moveBefore (p : Program) : SameNames p ((moveBefore i place).after p) := by
  refine (Action.readOnly_lift _).bind_after (.refl p) fun source _ => ?_
  refine (Action.readOnly_lift _).bind_after (.refl p) fun target _ => ?_
  have hset : SameNames p (p.modifyBody source.1 fun body => body.eraseIdx source.2) :=
    sameNames_modifyBody p _ _
  rw [Action.after_ite]
  split
  · exact (Action.readOnly_lift _).bind_after (.refl p) fun _ _ => .refl p
  · rw [Action.after_set_bind]
    split
    · exact hset.trans (sameNames_modifyBody _ _ _)
    · exact hset

theorem sameNames_relocateDependents (p : Program) :
    SameNames p ((relocateDependents i place).after p) := by
  refine (Action.readOnly_lift _).bind_after (.refl p) fun _ _ => ?_
  refine (Action.readOnly_lift _).bind_after (.refl p) fun _ _ => ?_
  rw [Action.after_ite, Action.after_ite, Action.after_throw_bind]
  split_ifs
  · exact .refl p
  · refine Action.after_forM SameNames.refl SameNames.trans (fun j s => ?_) p
    rw [Action.after_get_bind, Action.after_ite]
    split
    · exact sameNames_moveBefore s
    · exact .refl s
  · exact .refl p

/-- Within a module, there is a place to move to. -/
theorem settles_relocateDependents (h : p.Fit loose) (hi : i ∈ p.body m)
    (hplace : place ∈ p.body m) :
    (relocateDependents i place).Settles loose p fun _ q => Onward loose p q := by
  refine (h.linked.completes_relocateDependents hi hplace).settles.mono fun _ q hok hq => ?_
  obtain ⟨hsame, -⟩ := hq
  obtain ⟨-, -, -, -, -, -, hl⟩ := h.linked.relocated hi hplace hok
  have hnames : SameNames p q := Action.after_of_ok hok ▸ sameNames_relocateDependents p
  exact h.moved ⟨hl, h.indexed.of_same hnames⟩ hnames hsame

/-! ## Without a loss -/

theorem settling_insertBefore (hop : op.carried = []) :
    (insertBefore place op inputs modules).Settling loose (Onward loose p) (Onward loose p) :=
  .onward fun _ hq => (settles_insertBefore hq (Op.fit_of_carried hop)).mono fun _ _ _ => And.left

theorem settling_replaceWith (hop : op.carried = []) :
    (replaceWith i op inputs modules).Settling loose (Onward loose p) (Onward loose p) :=
  .onward fun _ hq => settles_replaceWith hq (Op.fit_of_carried hop)

theorem settling_relocateDependents (hl : p.Linked) (hi : i ∈ p.body m)
    (hplace : place ∈ p.body m) :
    (relocateDependents i place).Settling loose (Onward loose p) (Onward loose p) := fun _ hq =>
  (settles_relocateDependents hq.fit (hq.mem_body hl hi) (hq.mem_body hl hplace)).mono
    fun _ _ _ => hq.trans

/-! ## Following removals -/

theorem settles_releaseFrom {fuel : Nat} {stack : List ModuleId} (h : p.Fit loose)
    (hfuel : stack.length + p.referenceCount ≤ fuel) :
    (releaseFrom fuel stack).Settles loose p fun _ q => q.Fit loose ∧ Fewer p q := by
  induction fuel generalizing p stack with
  | zero =>
    cases stack with
    | nil => exact ⟨h, .refl p⟩
    | cons m stack => simp at hfuel
  | succ fuel ih =>
    cases stack with
    | nil => exact ⟨h, .refl p⟩
    | cons m stack =>
      rw [List.length_cons] at hfuel
      rw [releaseFrom, settles_get_bind]
      refine settles_ite (fun _ => ih h (by omega)) fun hcond => ?_
      obtain ⟨-, -, hcond⟩ := not_or.mp hcond |>.imp_right not_or.mp
      rw [settles_bind]
      refine (settles_removeModule h (Bool.eq_false_iff.mpr hcond)).mono ?_
      rintro _ q - ⟨hq, hfewer, hgone⟩
      have hcount := hfewer.referenceCount_le h.linked hgone
      have hleft : ((p.references m).reverse ++ stack).length + q.referenceCount ≤ fuel := by
        rw [List.length_append, List.length_reverse]
        omega
      refine (ih hq hleft).mono ?_
      rintro _ r - ⟨hr, hfewer'⟩
      exact ⟨hr, hfewer.trans hfewer'⟩

theorem settles_releaseModule (h : p.Fit loose) (m : ModuleId) :
    (releaseModule m).Settles loose p fun _ q => q.Fit loose ∧ Fewer p q := by
  rw [releaseModule, settles_get_bind]
  refine settles_releaseFrom h ?_
  rw [List.length_singleton]
  omega

theorem settles_releaseModules (h : p.Fit loose) (ms : List ModuleId) :
    (ms.forM releaseModule).Settles loose p fun _ q => q.Fit loose ∧ Fewer p q := by
  induction ms generalizing p with
  | nil => exact ⟨h, .refl p⟩
  | cons m ms ih =>
    rw [List.forM, settles_bind]
    refine (settles_releaseModule h m).mono ?_
    rintro _ q - ⟨hq, hfewer⟩
    refine (ih hq).mono ?_
    rintro _ r - ⟨hr, hfewer'⟩
    exact ⟨hr, hfewer.trans hfewer'⟩

theorem settles_pruneFrom {fuel : Nat} {stack : List InstrId} (h : p.Fit loose)
    (hfuel : stack.length + p.inputCount ≤ fuel) :
    (pruneFrom fuel stack).Settles loose p fun _ q => q.Fit loose := by
  induction fuel generalizing p stack with
  | zero =>
    cases stack with
    | nil => exact h
    | cons i stack => simp at hfuel
  | succ fuel ih =>
    cases stack with
    | nil => exact h
    | cons i stack =>
      rw [List.length_cons] at hfuel
      rw [pruneFrom, settles_get_bind]
      cases hi : p.instr? i with
      | none => exact ih h (by omega)
      | some inst =>
        refine settles_ite (fun _ => ih h (by omega)) fun _ => ?_
        rw [settles_bind]
        refine (settles_removeInstruction h).mono ?_
        rintro _ q - ⟨hq, hfewer, hgone⟩
        rw [settles_bind]
        refine (settles_releaseModules hq inst.modules).mono ?_
        rintro _ r - ⟨hr, hfewer'⟩
        rw [settles_bind]
        have hcount := hfewer.inputCount_le hi hgone
        have hcount' := hfewer'.inputCount_mono
        refine (ih hr ?_).mono fun _ _ _ hs => hs
        rw [List.length_append, List.length_reverse]
        omega

theorem settles_prune {roots : List InstrId} (h : p.Fit loose) :
    (prune roots).Settles loose p fun _ q => q.Fit loose := by
  rw [prune, settles_get_bind]
  refine settles_pruneFrom h ?_
  rw [List.length_reverse]
  omega

end Edit

end OffloadFusion
