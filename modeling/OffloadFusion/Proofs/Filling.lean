import Mathlib.Data.List.TakeWhile
import OffloadFusion.Proofs.Chains
import OffloadFusion.Proofs.Completes

/-!
# Filling an open module

`Open p m q` says that the new module `m` of `q` has no return yet. An operation whose operands the
module holds and that types on them can be appended (**`Open.completes_append`**), and so can
constants, parameters under new names, chains and the return; what the module held before it still
holds.
-/

namespace OffloadFusion

open OffloadFusion.Action

namespace Program

variable {p q r : Program} {i j x : InstrId} {m : ModuleId} {n : Nat} {op : Op}
  {inputs : List InstrId} {modules : List ModuleId} {type : ValueType} {types : List ValueType}

/-- The program with a new module that nothing references and that has no return yet. -/
structure Open (p : Program) (m : ModuleId) (q : Program) : Prop extends Grown p m q where
  unfinished : q.return? m = none

/-- The module lists the instruction, which has the type. -/
def Held (q : Program) (m : ModuleId) (i : InstrId) (type : ValueType) : Prop :=
  i ∈ q.body m ∧ q.HasType i type

/-- What the module lists stays there as it is. -/
structure Fills (m : ModuleId) (q r : Program) : Prop where
  mem : ∀ {j}, j ∈ q.body m → j ∈ r.body m
  core : ∀ {j}, j ∈ q.body m → SameCore q r j

namespace Fills

theorem refl (m : ModuleId) (q : Program) : Fills m q q := ⟨id, fun _ => rfl⟩

theorem trans {s : Program} (h : Fills m q r) (h' : Fills m r s) : Fills m q s :=
  ⟨fun hj => h'.mem (h.mem hj), fun hj => (h.core hj).trans (h'.core (h.mem hj))⟩

theorem held (h : Fills m q r) (hi : q.Held m i type) : r.Held m i type :=
  ⟨h.mem hi.1, (h.core hi.1).hasType hi.2⟩

theorem forall₂ (h : Fills m q r) (ht : List.Forall₂ (q.Held m) inputs types) :
    List.Forall₂ (r.Held m) inputs types := ht.imp fun _ _ hi => h.held hi

end Fills

/-- An instruction was added to the open module that has the type. -/
structure Emitted (p : Program) (m : ModuleId) (q : Program) (type : ValueType) (i : InstrId)
    (r : Program) : Prop where
  isOpen : Open p m r
  fills : Fills m q r
  parameters : r.parameters m = q.parameters m
  held : r.Held m i type

/-! ## Insertion -/

theorem infer_of_held (ht : List.Forall₂ (q.Held m) inputs types)
    (hinfer : op.inferType types [] = .ok type) : q.infer op inputs [] = .ok type :=
  infer_ok.mpr ⟨types, [], ht.imp fun _ _ hi => hi.2, .nil, hinfer⟩

theorem exists_idxOf?_of_mem_take {l : List InstrId} (h : x ∈ l.take n) :
    ∃ k, l.idxOf? x = some k ∧ k < n := by
  obtain ⟨k, hk⟩ := Option.isSome_iff_exists.mp (List.isSome_idxOf?.mpr (List.mem_of_mem_take h))
  obtain ⟨j, hj, hx⟩ := List.mem_take_iff_getElem.mp h
  obtain ⟨_, _, hfirst⟩ := List.idxOf?_eq_some_iff.mp hk
  refine ⟨k, hk, ?_⟩
  by_contra hle
  exact hfirst j (by omega) hx

theorem checkPlacement_of_mem {name : String} (hl : q.Linked) (hm : (q.module? m).isSome)
    (hargs : ∀ x ∈ inputs, x ∈ (q.body m).take n) :
    Edit.checkPlacement m n name inputs q = .ok ⟨⟩ q := by
  obtain ⟨module, hm⟩ := Option.isSome_iff_exists.mp hm
  refine Edit.checkPlacement_ok.mpr ⟨rfl, module, hm, fun x hx => ?_⟩
  have htake := hargs x hx
  obtain ⟨inst, hi, ho⟩ := hl.owned (List.mem_of_mem_take htake)
  rw [body_of_module? hm] at htake
  exact ⟨⟨inst, hi, ho⟩, exists_idxOf?_of_mem_take htake⟩

theorem Inserted.fills (h : Inserted m n op inputs modules q i r) (hl : q.Linked)
    (hn : n ≤ (q.body m).length) : Fills m q r := by
  refine ⟨fun hj => ?_, fun hj => h.old (h.ne_of_mem hl hj)⟩
  rw [h.body, List.mem_insertIdx hn]
  exact .inr hj

theorem Inserted.unfinished (h : Inserted m n op inputs modules q i r) (hl : q.Linked)
    (hend : q.EndSafe m n op) (hop : op.isReturn = false) (hnone : q.return? m = none) :
    r.return? m = none := by
  refine return?_eq_none.mpr fun last hlast hret => ?_
  rw [h.body] at hlast
  obtain ⟨he, -⟩ | ⟨he, -⟩ := hend.getLast? (x := i)
  · rw [he] at hlast
    rw [(h.old (h.ne_of_mem hl (List.mem_of_getLast? hlast))).hasOp] at hret
    exact return?_eq_none.mp hnone last hlast hret
  · rw [hlast] at he
    cases he
    obtain ⟨type, -, hnew⟩ := h.new
    rw [hasOp, hnew, Option.any_some, hop] at hret
    cases hret

theorem Inserted.hasOp_new (h : Inserted m n op inputs modules q i r) (test : Op → Bool) :
    r.hasOp test i = test op := by
  obtain ⟨type, -, hnew⟩ := h.new
  rw [hasOp, hnew, Option.any_some]

theorem Inserted.filter_params (h : Inserted m n op inputs modules q i r) (hl : q.Linked)
    {l : List InstrId} (hsub : ∀ j ∈ l, j ∈ q.body m) :
    l.filter (r.hasOp Op.isParam) = l.filter (q.hasOp Op.isParam) :=
  List.filter_congr fun j hj => (h.old (h.ne_of_mem hl (hsub j hj))).hasOp _

theorem Inserted.parameters_eq (h : Inserted m n op inputs modules q i r) (hl : q.Linked)
    (hn : n ≤ (q.body m).length) (hop : op.isParam = false) : r.parameters m = q.parameters m := by
  rw [parameters, h.body, filter_insertIdx hn (by rw [h.hasOp_new, hop]),
    h.filter_params hl fun _ hj => hj, parameters]

/-- No parameter stands after the last one. -/
theorem filter_drop_parametersEnd (q : Program) (body : List InstrId) :
    (body.drop (q.parametersEnd body)).filter (q.hasOp Op.isParam) = [] := by
  have hbody : (body.reverse.dropWhile fun i => !q.hasOp Op.isParam i).reverse ++
      (body.reverse.takeWhile fun i => !q.hasOp Op.isParam i).reverse = body := by
    rw [← List.reverse_append, List.takeWhile_append_dropWhile, List.reverse_reverse]
  have hdrop : body.drop (q.parametersEnd body) =
      (body.reverse.takeWhile fun i => !q.hasOp Op.isParam i).reverse := by
    have hat := congrArg (List.drop (q.parametersEnd body)) hbody
    rwa [List.drop_left' (by rw [List.length_reverse]; rfl), eq_comm] at hat
  rw [hdrop, List.filter_eq_nil_iff]
  intro i hi
  simpa using List.mem_takeWhile_imp (List.mem_reverse.mp hi)

theorem Inserted.parameters_append
    (h : Inserted m (q.parametersEnd (q.body m)) op inputs modules q i r) (hl : q.Linked)
    (hop : op.isParam = true) : r.parameters m = q.parameters m ++ [i] := by
  have hsplit := List.take_append_drop (q.parametersEnd (q.body m)) (q.body m)
  have hsub : ∀ {l : List InstrId}, (∀ j ∈ l, j ∈ q.body m) →
      l.filter (r.hasOp Op.isParam) = l.filter (q.hasOp Op.isParam) := h.filter_params hl
  have hdrop := filter_drop_parametersEnd q (q.body m)
  have htake : (q.body m).filter (q.hasOp Op.isParam) =
      ((q.body m).take (q.parametersEnd (q.body m))).filter (q.hasOp Op.isParam) := by
    conv_lhs => rw [← hsplit]
    rw [List.filter_append, hdrop, List.append_nil]
  rw [parameters, h.body, insertIdx_eq_take_drop (q.parametersEnd_le _), List.filter_append,
    List.filter_cons_of_pos (by rw [h.hasOp_new, hop]),
    hsub fun _ hj => List.mem_of_mem_take hj, hsub fun _ hj => List.mem_of_mem_drop hj, hdrop,
    parameters, htake]

/-- **An operation that types can be inserted after its operands.** -/
theorem Linked.completes_insertAt (hl : q.Linked) (hm : (q.module? m).isSome)
    (hn : n ≤ (q.body m).length) (hargs : ∀ x ∈ inputs, x ∈ (q.body m).take n)
    (hinfer : q.infer op inputs modules = .ok type) :
    (Edit.insertAt m n op inputs modules).Completes q fun i r =>
      Edit.insertAt m n op inputs modules q = .ok i r ∧
        Inserted m n op inputs modules q i r ∧ Fills m q r ∧ r.Held m i type := by
  obtain ⟨module, hmod⟩ := Option.isSome_iff_exists.mp hm
  have hc : Edit.checkPlacement m n op.name inputs q = .ok ⟨⟩ q :=
    checkPlacement_of_mem hl hm hargs
  have hok : Edit.insertAt m n op inputs modules q = .ok q.nextId _ :=
    Edit.insertAt_ok.mpr ⟨module, type, hmod, hc, hinfer, rfl, rfl⟩
  have hins := inserted_of_ok hl hok
  refine ⟨_, _, hok, hok, hins, hins.fills hl hn, ?_, ?_⟩
  · rw [hins.body, List.mem_insertIdx hn]
    exact .inl rfl
  · obtain ⟨type', hinfer', hnew⟩ := hins.new
    rw [hinfer] at hinfer'
    cases hinfer'
    exact ⟨_, hnew, rfl⟩

namespace Open

variable (h : Open p m q)

include h

theorem hasType (hl : p.Linked) (ht : p.HasType i type) : q.HasType i type := by
  obtain ⟨inst, hi, rfl⟩ := ht
  obtain ⟨inst', hq, hc⟩ := h.exists_instr hl hi
  exact ⟨inst', hq, (Instruction.core_eq_iff.mp hc).2.2.2.1.symm⟩

theorem completes_insertAt (hend : q.EndSafe m n op) (hop : op.isReturn = false)
    (hmod : p.Inner m modules) (hargs : ∀ x ∈ inputs, x ∈ (q.body m).take n)
    (hinfer : q.infer op inputs modules = .ok type) :
    (Edit.insertAt m n op inputs modules).Completes q fun i r => Open p m r ∧
      Inserted m n op inputs modules q i r ∧ Fills m q r ∧ r.Held m i type := by
  refine (h.steady.toLinked.completes_insertAt h.isLocal.alive hend.le hargs hinfer).mono
    fun i r ⟨hok, hins, hfills, hheld⟩ =>
      ⟨⟨h.toGrown.insertAt hend hmod hok, ?_⟩, hins, hfills, hheld⟩
  exact hins.unfinished h.steady.toLinked hend hop h.unfinished

/-- **An operation that types on what the module lists can be appended.** -/
theorem completes_append (hop : op.isReturn = false) (hparam : op.isParam = false)
    (hmod : p.Inner m modules) (hargs : ∀ x ∈ inputs, x ∈ q.body m)
    (hinfer : q.infer op inputs modules = .ok type) :
    (Edit.addInstruction m op inputs modules).Completes q (Emitted p m q type) := by
  obtain ⟨module, hm⟩ := Option.isSome_iff_exists.mp h.isLocal.alive
  have hend : q.EndSafe m (q.body m).length op := .inr ⟨rfl, h.unfinished⟩
  obtain ⟨i, r, hok, hopen, hins, hfills, hheld⟩ := h.completes_insertAt hend hop hmod
    (fun x hx => List.take_length.symm ▸ hargs x hx) hinfer
  refine ⟨i, r, Edit.addInstruction_ok.mpr ⟨module, hm, ?_⟩, hopen, hfills, ?_, hheld⟩
  · rw [h.unfinished, ← body_of_module? hm]
    exact hok
  · exact hins.parameters_eq h.steady.toLinked (Nat.le_refl _) hparam

theorem completes_addInstruction (hop : op.isReturn = false) (hparam : op.isParam = false)
    (ht : List.Forall₂ (q.Held m) inputs types) (hinfer : op.inferType types [] = .ok type) :
    (Edit.addInstruction m op inputs []).Completes q (Emitted p m q type) := by
  refine h.completes_append hop hparam inner_nil (fun x hx => ?_)
    (infer_of_held ht hinfer)
  obtain ⟨_, -, hheld⟩ := forall₂_exists ht hx
  exact hheld.1

theorem completes_addLiteral {t : TensorType} {data : LiteralData}
    (hinfer : (Op.literal t data).inferType [] [] = .ok type) :
    (Edit.addLiteral m t data).Completes q (Emitted p m q type) := by
  obtain ⟨module, hm⟩ := Option.isSome_iff_exists.mp h.isLocal.alive
  have hend : q.EndSafe m (q.parametersEnd (q.body m)) (.literal t data) :=
    endSafe_parametersEnd rfl
  obtain ⟨i, r, hok, hopen, hins, hfills, hheld⟩ := h.completes_insertAt hend rfl
    inner_nil (fun x hx => absurd hx List.not_mem_nil)
    (infer_of_held (m := m) .nil hinfer)
  refine ⟨i, r, Edit.addLiteral_ok.mpr ⟨module, hm, body_of_module? hm ▸ hok⟩, hopen, hfills,
    ?_, hheld⟩
  exact hins.parameters_eq h.steady.toLinked (q.parametersEnd_le _) rfl

theorem completes_addParameter {name : String} (hname : q.parameter? m name = none)
    (t : TensorType) :
    (Edit.addParameter m name t).Completes q fun i r => Open p m r ∧ Fills m q r ∧
      r.parameters m = q.parameters m ++ [i] ∧ r.Held m i (.tensor t) ∧ i ∉ q.body m ∧
      ∀ test, r.hasOp test i = test (.param name t) := by
  obtain ⟨module, hm⟩ := Option.isSome_iff_exists.mp h.isLocal.alive
  have hend : q.EndSafe m (q.parametersEnd (q.body m)) (.param name t) :=
    endSafe_parametersEnd rfl
  have hinfer : (Op.param name t).inferType [] [] = .ok (.tensor t) := rfl
  obtain ⟨i, r, hok, hopen, hins, hfills, hheld⟩ := h.completes_insertAt hend rfl
    inner_nil (fun x hx => absurd hx List.not_mem_nil)
    (infer_of_held (m := m) .nil hinfer)
  have hne : ∀ j ∈ q.body m, j ≠ i := fun j hj => hins.ne_of_mem h.steady.toLinked hj
  refine ⟨i, r, Edit.addParameter_ok.mpr ⟨hname, module, hm, body_of_module? hm ▸ hok⟩, hopen,
    hfills, ?_, hheld, fun hmem => hne i hmem rfl, hins.hasOp_new⟩
  exact hins.parameters_append h.steady.toLinked rfl

/-- **A chain can be built on a tensor that it turns into another one.** -/
theorem completes_stack {ops : List Op} {base : InstrId} {t u : TensorType}
    (hbase : q.Held m base (.tensor t)) (hstack : ReshapeChain.Stacks ops t u) :
    (ReshapeChain.stack m ops base).Completes q (Emitted p m q (.tensor u)) := by
  induction hstack generalizing q base with
  | nil => exact ⟨base, q, rfl, h, .refl m q, rfl, hbase⟩
  | cons head tail ih =>
    rw [ReshapeChain.stack, completes_bind]
    refine (h.completes_addInstruction rfl rfl (.cons hbase .nil)
      (ReshapeChain.inferType_of_output head)).mono fun value r hr => ?_
    refine (ih hr.isOpen hr.held).mono fun i s hs => ?_
    exact ⟨hs.isOpen, hr.fills.trans hs.fills, hs.parameters.trans hr.parameters, hs.held⟩

/-- **An open module can be ended.** -/
theorem completes_addReturn {ts : List TensorType}
    (hcount : (Interval.atLeast 1).contains inputs.length)
    (ht : List.Forall₂ (q.Held m) inputs (ts.map .tensor)) :
    (Edit.addReturn m inputs).Completes q fun _ r => Grown p m r ∧ Fills m q r ∧
      r.parameters m = q.parameters m ∧ ∀ us,
        List.Forall₂ (fun i u => r.HasType i (.tensor u)) (q.parameters m) us →
          r.signature m = .ok ⟨us, ts⟩ := by
  obtain ⟨module, hm⟩ := Option.isSome_iff_exists.mp h.isLocal.alive
  have hend : q.EndSafe m (q.body m).length .ret := .inr ⟨rfl, h.unfinished⟩
  have hinfer : Op.ret.inferType (ts.map .tensor) [] = .ok (.ofElements ts) := by
    have hlen := ht.length_eq
    simp only [Op.inferType, Outcome.bind_ok, Typing.tensorInputs_ok, Typing.noModules_ok,
      Outcome.pure_ok]
    exact ⟨ts, ⟨hlen ▸ hcount, rfl⟩, ⟨⟩, trivial, rfl⟩
  have hargs : ∀ x ∈ inputs, x ∈ (q.body m).take (q.body m).length := fun x hx => by
    obtain ⟨_, -, hheld⟩ := forall₂_exists ht hx
    rw [List.take_length]
    exact hheld.1
  obtain ⟨i, r, hok, -, hins, hfills, hheld⟩ := h.steady.toLinked.completes_insertAt h.isLocal.alive
    hend.le hargs (infer_of_held ht hinfer)
  refine ⟨i, r, Edit.addReturn_ok.mpr ⟨h.unfinished, module, hm, body_of_module? hm ▸ hok⟩,
    h.toGrown.insertAt hend inner_nil hok, hfills, ?_, ?_⟩
  · exact hins.parameters_eq h.steady.toLinked (Nat.le_refl _) rfl
  intro us hus
  obtain ⟨module', hm'⟩ := Option.isSome_iff_exists.mp hins.isLocal.alive
  refine signature_ok.mpr ⟨module', hm', ?_, returnTypes_ok.mpr ?_⟩
  · rwa [hins.parameters_eq h.steady.toLinked (Nat.le_refl _) rfl]
  · obtain ⟨type, -, hnew⟩ := hins.new
    rw [← body_of_module? hm', hins.body, List.insertIdx_length_self, List.getLast?_concat]
    refine ⟨_, hnew, ?_⟩
    show List.Forall₂ (fun x t => r.HasType x (.tensor t)) inputs ts
    exact List.forall₂_map_right_iff.mp ((hfills.forall₂ ht).imp fun _ _ hi => hi.2)

end Open

end Program

end OffloadFusion
