import OffloadFusion.Proofs.Lapses
import OffloadFusion.Proofs.Pruning
import OffloadFusion.Proofs.Reached

/-!
# Programs without dead ends

A program is `Fit` if nothing that the pass reads there is missing: its lists fit its arena, the
modules that it refers to are there, views have operands, and types are `loose` or have a stride for
each axis.

* `Valid.fit`: a verified program is fit.
* `Onward p q`: a fit program `q` in which all that was in `p` still is, as after building and
  rewiring. `Onward.inserted` and the following: one kind of change each.
* `Fit.fewer`: what is removed leaves a fit program.
-/

namespace OffloadFusion

variable {loose : Prop}

/-- Unless types may be loose, those that the operation carries have a stride for each axis. -/
def Op.Fit (loose : Prop) (op : Op) : Prop := loose ∨ ∀ t ∈ op.carried, t.Ranked

theorem Op.fit_of_carried {op : Op} (h : op.carried = []) : op.Fit loose :=
  .inr fun _ ht => absurd (h ▸ ht) List.not_mem_nil

theorem Op.eq_of_carried {op : Op} {inputs : List ValueType} {modules : List Signature}
    {a : ValueType} {t : TensorType} (hok : op.inferType inputs modules = .ok a)
    (ht : t ∈ op.carried) : a = .tensor t := by
  cases op with
  | param name type =>
    obtain rfl := List.mem_singleton.mp ht
    obtain ⟨_, -, he⟩ := Outcome.bind_ok.mp hok
    exact (Except.ok.inj he).symm
  | literal type data =>
    obtain rfl := List.mem_singleton.mp ht
    obtain ⟨_, -, hok⟩ := Outcome.bind_ok.mp hok
    rw [LiteralData.output] at hok
    split at hok
    · cases hok
    · obtain ⟨expected, -, hok⟩ := Outcome.bind_ok.mp hok
      split at hok
      · cases hok
      · exact (Except.ok.inj hok).symm
  | _ => cases ht

/-- A view has an operand, and unless types may be loose, there is a stride for each axis. -/
structure Instruction.Fit (loose : Prop) (inst : Instruction) : Prop where
  operand : ∀ view, inst.op = .reindex view → inst.inputs ≠ []
  op : inst.op.Fit loose
  type : loose ∨ inst.type.Ranked

theorem Instruction.Fit.of_core {a b : Instruction} (h : a.Fit loose) (hc : b.core = a.core) :
    b.Fit loose := by
  obtain ⟨hop, hin, -, htype, -⟩ := Instruction.core_eq_iff.mp hc
  exact ⟨fun view hv => hin ▸ h.operand view (hop ▸ hv), hop ▸ h.op, htype ▸ h.type⟩

namespace Program

variable {p q r : Program} {i old new : InstrId} {m : ModuleId} {n : Nat} {inst : Instruction}
  {op : Op} {inputs : List InstrId} {modules : List ModuleId} {type : ValueType} {u : Unit}

/-- Nothing that the pass reads is missing. -/
structure Fit (loose : Prop) (p : Program) : Prop extends p.Sound where
  main : p.HasMain
  /-- Modules that instructions carry are there. -/
  carried : ∀ {i inst k}, p.instr? i = some inst → k ∈ inst.modules → (p.module? k).isSome
  fit : ∀ {i inst}, p.instr? i = some inst → inst.Fit loose

theorem Fit.ranked (h : p.Fit loose) : loose ∨ p.Ranked := by
  by_cases hloose : loose
  · exact .inl hloose
  · refine .inr fun i type ht => ?_
    obtain ⟨inst, hi, rfl⟩ := ht
    exact (h.fit hi).type.resolve_left hloose

theorem infer_modules {k : ModuleId} (hok : p.infer op inputs modules = .ok type)
    (hk : k ∈ modules) : (p.module? k).isSome := by
  obtain ⟨types, signatures, -, hsigs, -⟩ := infer_ok.mp hok
  obtain ⟨s, -, hs⟩ := forall₂_exists hsigs hk
  obtain ⟨module, hm, -⟩ := signature_ok.mp hs
  exact Option.isSome_iff_exists.mpr ⟨module, hm⟩

theorem inputs_ne_nil_of_infer {view : Reindex}
    (hok : p.infer (.reindex view) inputs modules = .ok type) : inputs ≠ [] := by
  rintro rfl
  obtain ⟨types, signatures, htypes, -, hok⟩ := infer_ok.mp hok
  cases htypes
  exact Op.inputs_ne_nil_of_reindex hok rfl

/-- **A verified program is fit**, as far as its index and its types are. -/
theorem Valid.fit (h : p.Valid) (hx : p.Indexed) (hmain : p.HasMain) (htypes : loose ∨ p.Ranked) :
    p.Fit loose := by
  refine ⟨⟨h.toLinked, hx⟩, hmain, fun hi hk => (h.referenced hi hk).1, fun {i inst} hi => ?_⟩
  have hfresh := h.fresh hi
  have htype := htypes.imp_right fun hr => hr i inst.type ⟨inst, hi, rfl⟩
  refine ⟨fun view hv => inputs_ne_nil_of_infer (hv ▸ hfresh), htype.imp_right fun hr t ht => ?_,
    htype⟩
  obtain ⟨types, signatures, -, -, hok⟩ := infer_ok.mp hfresh
  rw [Op.eq_of_carried hok ht] at hr
  exact ValueType.ranked_tensor.mp hr

theorem Fit.infer {consumers : List InstrId} {owner : ModuleId} (h : p.Fit loose)
    (hop : op.Fit loose) (hok : p.infer op inputs modules = .ok type) :
    Instruction.Fit loose { op, inputs, modules, type, consumers, owner } := by
  refine ⟨fun view hv => ?_, hop, ?_⟩
  · obtain rfl : op = .reindex view := hv
    exact inputs_ne_nil_of_infer hok
  by_cases hloose : loose
  · exact .inl hloose
  · exact .inr ((h.ranked.resolve_left hloose).infer (hop.resolve_left hloose) hok)

/-! ## Building and rewiring -/

theorem SameNames.alive {k : ModuleId} (h : SameNames p q) (hk : (p.module? k).isSome) :
    (q.module? k).isSome := by
  rwa [← Option.isSome_map, h.modules, Option.isSome_map]

/-- The second program is fit, and all that was in the first one still is. -/
structure Onward (loose : Prop) (p q : Program) : Prop where
  fit : q.Fit loose
  instr : ∀ {i inst}, p.instr? i = some inst →
    ∃ inst', q.instr? i = some inst' ∧ inst'.owner = inst.owner
  module : ∀ {m}, (p.module? m).isSome → (q.module? m).isSome

namespace Onward

theorem refl (h : p.Fit loose) : Onward loose p p := ⟨h, fun hi => ⟨_, hi, rfl⟩, id⟩

theorem trans (h : Onward loose p q) (h' : Onward loose q r) : Onward loose p r := by
  refine ⟨h'.fit, fun hi => ?_, fun hm => h'.module (h.module hm)⟩
  obtain ⟨b, hb, ho⟩ := h.instr hi
  obtain ⟨c, hc, ho'⟩ := h'.instr hb
  exact ⟨c, hc, ho'.trans ho⟩

theorem alive (h : Onward loose p q) (hi : (p.instr? i).isSome) : (q.instr? i).isSome := by
  obtain ⟨inst, hi⟩ := Option.isSome_iff_exists.mp hi
  obtain ⟨inst', hi', -⟩ := h.instr hi
  exact Option.isSome_iff_exists.mpr ⟨inst', hi'⟩

theorem mem_body (h : Onward loose p q) (hl : p.Linked) (hi : i ∈ p.body m) : i ∈ q.body m := by
  obtain ⟨inst, hinst, rfl⟩ := hl.owned hi
  obtain ⟨inst', hinst', ho⟩ := h.instr hinst
  exact ho ▸ h.fit.linked.listed hinst'

/-- What a change has to keep. -/
theorem of_kept (h : p.Fit loose) (hs : q.Sound)
    (hinstr : ∀ {j a}, p.instr? j = some a → ∃ b, q.instr? j = some b ∧ b.owner = a.owner)
    (hmodule : ∀ {k}, (p.module? k).isSome → (q.module? k).isSome)
    (hfit : ∀ {j b}, q.instr? j = some b →
      b.Fit loose ∧ ∀ k ∈ b.modules, (p.module? k).isSome) : Onward loose p q :=
  ⟨⟨hs, hmodule h.main, fun hj hk => hmodule ((hfit hj).2 _ hk), fun hj => (hfit hj).1⟩, hinstr,
    hmodule⟩

/-- One instruction is changed where it stands, and maybe consumers of others. -/
theorem of_change (h : p.Fit loose) (hs : q.Sound) (hsame : SameNames p q)
    {g : Instruction → Instruction} (hi : p.instr? i = some inst)
    (hq : ∀ j, (q.instr? j).map Instruction.core =
      (p.instr? j).map fun a => (if j = i then g a else a).core)
    (howner : (g inst).owner = inst.owner) (hfit : (g inst).Fit loose)
    (hmodules : ∀ k ∈ (g inst).modules, (p.module? k).isSome) : Onward loose p q := by
  refine .of_kept h hs (fun {j a} hj => ?_) hsame.alive fun {j b} hj => ?_
  · have hcore := hq j
    rw [hj, Option.map_some, Option.map_eq_some_iff] at hcore
    obtain ⟨b, hb, hcore⟩ := hcore
    refine ⟨b, hb, (Instruction.core_eq_iff.mp hcore).2.2.2.2.trans ?_⟩
    split
    · next he =>
      subst he
      cases hi.symm.trans hj
      exact howner
    · rfl
  · have hcore := hq j
    rw [hj, Option.map_some, eq_comm, Option.map_eq_some_iff] at hcore
    obtain ⟨a, ha, hcore⟩ := hcore
    have hmod := (Instruction.core_eq_iff.mp hcore).2.2.1
    split at hcore
    · next he =>
      subst he
      cases hi.symm.trans ha
      rw [if_pos rfl] at hmod
      exact ⟨hfit.of_core hcore.symm, hmod ▸ hmodules⟩
    · next hne =>
      rw [if_neg hne] at hmod
      exact ⟨(h.fit ha).of_core hcore.symm, fun k hk => h.carried ha (hmod ▸ hk)⟩

end Onward

namespace Fit

variable (h : p.Fit loose)

include h

theorem inserted {module : Module} (hm : p.module? m = some module) (hn : n ≤ module.body.length)
    (hop : op.Fit loose) (hok : Edit.insertAt m n op inputs modules p = .ok i q) :
    Onward loose p q ∧ (q.instr? i).isSome := by
  have hs := Edit.sound_insertAt h.toSound hm hn hok
  obtain ⟨hgone, ⟨type, hinfer, hnew⟩, hold, -, -⟩ := inserted_of_ok h.linked hok
  obtain ⟨_, _, -, -, -, -, rfl⟩ := Edit.insertAt_ok.mp hok
  refine ⟨.of_kept h hs (fun {j a} hj => ?_) sameNames_inserted.alive fun {j b} hj => ?_,
    Option.isSome_iff_exists.mpr ⟨_, hnew⟩⟩
  · have hne : j ≠ i := by
      rintro rfl
      cases hj.symm.trans hgone
    obtain ⟨b, hb, hcore⟩ := (hold hne).symm.exists_instr hj
    exact ⟨b, hb, (Instruction.core_eq_iff.mp hcore).2.2.2.2.symm⟩
  · by_cases hne : j = i
    · subst hne
      cases hj.symm.trans hnew
      exact ⟨h.infer hop hinfer, fun k hk => infer_modules hinfer hk⟩
    · obtain ⟨a, ha, hcore⟩ := (hold hne).exists_instr hj
      exact ⟨(h.fit ha).of_core hcore, fun k hk =>
        h.carried ha ((Instruction.core_eq_iff.mp hcore).2.2.1 ▸ hk)⟩

theorem opened {name : String} (hfree : p.moduleNamed? name = none) :
    Onward loose p (p.opened name) := by
  have hl : (p.opened name).Linked := h.linked.of_links (fun _ => rfl) (body_opened p name)
  refine .of_kept h ⟨hl, h.indexed.opened hfree⟩ (fun hj => ⟨_, hj, rfl⟩)
    (fun {k} hk => ?_) fun hj => ⟨h.fit hj, fun _ => h.carried hj⟩
  rw [module?_opened]
  split
  · rfl
  · exact hk

theorem retyped (hi : p.instr? i = some inst)
    (hok : p.infer inst.op inst.inputs inst.modules = .ok type) :
    Onward loose p (p.modifyInstr i fun inst => { inst with type }) := by
  have hr : Retyped p (p.modifyInstr i fun inst => { inst with type }) := .modifyInstr p i type
  have hmodules : ∀ k ∈ inst.modules, (p.module? k).isSome := fun k => h.carried hi
  refine .of_change h ⟨hr.linked h.linked, h.indexed.of_same hr.sameNames⟩ hr.sameNames
    (g := fun inst => { inst with type }) hi (fun j => ?_) rfl (h.infer (h.fit hi).op hok) hmodules
  rw [instr?_modifyInstr]
  by_cases hj : i = j
  · simp [hj, Function.comp_def]
  · simp [hj, Ne.symm hj]

theorem swapped (hi : p.instr? i = some inst) (hold : old ∈ inst.inputs)
    (hnew : Before (p.body inst.owner) new i) : Onward loose p (p.swapped i old new) := by
  have hmodules : ∀ k ∈ inst.modules, (p.module? k).isSome := fun k => h.carried hi
  have hfit : (inst.swapInput old new).Fit loose :=
    ⟨fun view hv => mt List.map_eq_nil_iff.mp ((h.fit hi).operand view hv), (h.fit hi).op,
      (h.fit hi).type⟩
  refine .of_change h ⟨h.linked.swapped hi hold hnew, h.indexed.of_same sameNames_swapped⟩
    sameNames_swapped (g := (·.swapInput old new)) hi (fun j => ?_) rfl hfit hmodules
  rw [instr?_swapped hi hold, Option.map_map]
  simp [Function.comp_def]

theorem rebuilt (hi : p.instr? i = some inst)
    (hin : ∀ x ∈ inputs, Before (p.body inst.owner) x i) (hop : op.Fit loose)
    (hok : p.infer op inputs modules = .ok type) :
    Onward loose p (p.rebuilt i inst.inputs op inputs modules type) := by
  have hself : i ∉ inputs := fun hmem => (hin i hmem).ne (h.linked.nodup _) rfl
  have hself' : i ∉ inst.inputs := fun hmem => h.linked.operand_ne hi hmem rfl
  refine .of_change h ⟨h.linked.rebuilt hi hin, h.indexed.of_same sameNames_rebuilt⟩
    sameNames_rebuilt (g := fun inst => { inst with op, inputs, modules, type }) hi (fun j => ?_)
    rfl (h.infer hop hok) fun k => infer_modules hok
  rw [instr?_rebuilt hi hself hself', Option.map_map]
  simp [Function.comp_def]

theorem moved (hs : q.Sound) (hsame : SameNames p q) (hq : ∀ j, q.instr? j = p.instr? j) :
    Onward loose p q :=
  .of_kept h hs (fun hj => ⟨_, (hq _).trans hj, rfl⟩) hsame.alive fun hj =>
    ⟨h.fit ((hq _).symm.trans hj), fun _ => h.carried ((hq _).symm.trans hj)⟩

/-! ## Removing -/

theorem fewer (hs : q.Sound) (hmain : q.HasMain) (hleft : Fewer p q)
    (halive : ∀ {j b k}, q.instr? j = some b → k ∈ b.modules → (p.module? k).isSome →
      (q.module? k).isSome) : q.Fit loose := by
  refine ⟨hs, hmain, fun {j b k} hj hk => ?_, fun {j b} hj => ?_⟩
  all_goals obtain ⟨a, ha, hcore⟩ := hleft.left hj
  · exact halive hj hk (h.carried ha ((Instruction.core_eq_iff.mp hcore).2.2.1 ▸ hk))
  · exact (h.fit ha).of_core hcore

end Fit

end Program

end OffloadFusion
