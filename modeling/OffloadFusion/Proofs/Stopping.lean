import OffloadFusion.Proofs.Answers
import OffloadFusion.Proofs.Dependence
import OffloadFusion.Proofs.Freshness
import OffloadFusion.Proofs.Refusals

/-!
# Replacements that are refused

Replacing an instruction checks places and types before it changes anything. Then it infers the
types of everything downstream again, in other layouts. **A refused replacement of a verified
program leaves it as it was, unless an offload call downstream refuses the new layout of an
operand** (`Program.refused_replacement`); then the replacement stays half done.

* `Drifted m i p q`: a change of `m` after which types, and operands downstream of `i`, are other
  ones at most in layout.
* `Drifted.infer`: what inferring again can give there. `Drifted.answers_refresh` follows a stack of
  stale instructions, `Drifted.answers_rewire` a list of consumers.
-/

namespace OffloadFusion

namespace Program

open OffloadFusion.Action

variable {p q r : Program} {i j c x old new : InstrId} {m : ModuleId} {inst a b : Instruction}
  {op : Op} {inputs stack left : List InstrId} {modules : List ModuleId} {type : ValueType}
  {e : GraphError}

/-! ## Downstream -/

/-- Another instruction that uses `i` through any number of instructions. -/
def Downstream (p : Program) (i j : InstrId) : Prop := p.DependsOn i j ∧ j ≠ i

theorem Linked.downstream_tail (hl : p.Linked) (h : p.DependsOn i x) (hu : p.Uses c x) :
    p.Downstream i c := by
  refine ⟨h.tail hu, ?_⟩
  rintro rfl
  obtain rfl := hl.dependsOn_antisymm h (.single hu)
  obtain ⟨inst, hi, hx⟩ := hu
  exact hl.operand_ne hi hx rfl

theorem Linked.downstream_before (hl : p.Linked) (hi : i ∈ p.body m) (h : p.Downstream i j) :
    Before (p.body m) i j := by
  obtain rfl | ⟨k, hk⟩ := hl.before_of_dependsOn h.1
  · exact absurd rfl h.2
  · obtain ⟨inst, hinst, rfl⟩ := hl.owned hk.left_mem
    rwa [hl.owner_unique hinst hi] at hk

/-! ## Drift -/

/-- The values have the same type up to strides. -/
def AlikeAt (p : Program) (x y : InstrId) : Prop := (p.typeAt x).Alike (p.typeAt y)

/-- The instructions do the same with operands that have the same types up to strides. -/
def Matching (p : Program) (b a : Instruction) : Prop :=
  b.op = a.op ∧ b.modules = a.modules ∧ List.Forall₂ p.AlikeAt b.inputs a.inputs

theorem Matching.trans {d : Instruction} (h : p.Matching d b) (h' : p.Matching b a) :
    p.Matching d a := by
  obtain ⟨hop, hmodules, hin⟩ := h
  obtain ⟨hop', hmodules', hin'⟩ := h'
  refine ⟨hop.trans hop', hmodules.trans hmodules', ?_⟩
  exact forall₂_comp (fun {x y z} (hxy : p.AlikeAt x y) (hyz : p.AlikeAt y z) =>
    ValueType.Alike.trans hxy hyz) hin hin'

theorem matching_of_core (h : a.core = b.core) : p.Matching b a := by
  obtain ⟨hop, hin, hmodules, -⟩ := Instruction.core_eq_iff.mp h
  exact ⟨hop.symm, hmodules.symm, hin ▸ List.forall₂_same.mpr fun _ _ => .refl _⟩

/-- A change of `m` after which types, and operands downstream of `i`, are other ones at most in
layout. -/
structure Drifted (m : ModuleId) (i : InstrId) (p q : Program) : Prop where
  linked : q.Linked
  module? : ∀ k, q.module? k = p.module? k
  isLocal : Local m p q
  stored : ∀ {j a}, q.instr? j = some a → (p.typeAt j).Alike a.type
  kept : ∀ {j a}, p.Downstream i j → q.instr? j = some a → ∃ b, p.instr? j = some b ∧ p.Matching b a
  closed : ∀ {x c}, p.Downstream i x → q.Uses c x → p.Downstream i c

/-- An offload call downstream of `i` refuses the layout that an operand has now. -/
def StoppedBelow (p : Program) (i : InstrId) (q : Program) (e : GraphError) : Prop :=
  ∃ call inst anchor index x t, p.Downstream i call ∧ q.instr? call = some inst ∧
    inst.op = .offload anchor ∧ inst.inputs[index]? = some x ∧ q.HasType x (.tensor t) ∧
    Op.acceptsLayout t = .ok false ∧ e = .typing (.invalidLayout inst.op.name index t)

/-- The types downstream of `i` were being inferred again when an offload call refused one. -/
def HalfReplaced (p : Program) (i : InstrId) (q : Program) (e : GraphError) : Prop :=
  ∃ m, i ∈ p.body m ∧ Drifted m i p q ∧ p.StoppedBelow i q e

theorem infer_eq {types : List ValueType} {signatures : List Signature}
    (ht : List.Forall₂ p.HasType inputs types)
    (hs : List.Forall₂ (fun k s => p.signature k = .ok s) modules signatures) :
    p.infer op inputs modules = liftM (op.inferType types signatures) := by
  have ht : inputs.mapM p.typeOf = .ok types :=
    Outcome.mapM_ok.mpr (ht.imp fun _ _ => typeOf_ok.mpr)
  rw [infer, ht, Outcome.mapM_ok.mpr hs]
  rfl

namespace Drifted

theorem refl (hp : p.Valid) (hi : i ∈ p.body m) : Drifted m i p p := by
  have halive : (p.module? m).isSome := alive_of_mem_body hi
  have hloc : Local m p p := ⟨halive, fun _ => rfl, fun _ _ => rfl⟩
  refine ⟨hp.toLinked, fun _ => rfl, hloc, fun {j a} hj => ?_,
    fun _ hj => ⟨_, hj, matching_of_core rfl⟩, fun hx hu => hp.downstream_tail hx.1 hu⟩
  rw [typeAt_eq ⟨a, hj, rfl⟩]
  exact .refl _

variable (hp : p.Valid) (hi : i ∈ p.body m) (h : Drifted m i p q)

include h in
theorem alike (ht : q.HasType j type) : (p.typeAt j).Alike type := by
  obtain ⟨a, hj, rfl⟩ := ht
  exact h.stored hj

include hp hi h in
theorem mem_body (hd : p.Downstream i j) : j ∈ q.body m := by
  rw [body, h.module?]
  exact (hp.downstream_before hi hd).right_mem

include hp hi h in
/-- Downstream, the types of operands differ in layout and the signatures of modules are the
same. -/
theorem exists_inputs (hd : p.Downstream i j) (hj : q.instr? j = some a) :
    ∃ types types' signatures, a.op.inferType types signatures = .ok (p.typeAt j) ∧
      List.Forall₂ ValueType.Alike types types' ∧ List.Forall₂ q.HasType a.inputs types' ∧
      List.Forall₂ (fun k s => q.signature k = .ok s) a.modules signatures := by
  obtain ⟨b, hb, hop, hmodules, hin⟩ := h.kept hd hj
  obtain ⟨types, signatures, htypes, hsigs, hinfer⟩ := infer_ok.mp (hp.fresh hb)
  have howner : b.owner = m := hp.owner_unique hb (hp.downstream_before hi hd).right_mem
  have hthere : ∀ x ∈ a.inputs, ∃ t, q.typeOf x = .ok t := fun x hx => by
    obtain ⟨xinst, hxi, -⟩ := h.linked.operand hj hx
    exact ⟨xinst.type, typeOf_ok.mpr ⟨xinst, hxi, rfl⟩⟩
  obtain ⟨types', htypes'⟩ := Outcome.mapM_total hthere
  have htypes' : List.Forall₂ q.HasType a.inputs types' :=
    (Outcome.mapM_ok.mp htypes').imp fun _ _ => typeOf_ok.mp
  refine ⟨types, types', signatures, ?_, ?_, htypes', hmodules ▸ ?_⟩
  · rw [← hop, typeAt_eq ⟨b, hb, rfl⟩]
    exact hinfer
  · have halike : List.Forall₂ (fun t y => t.Alike (p.typeAt y)) types a.inputs :=
      forall₂_comp (fun {t x y} (ht : p.HasType x t) hxy => by rwa [AlikeAt, typeAt_eq ht] at hxy)
        htypes.flip hin
    exact forall₂_comp (fun {t y t'} hty hyt => hty.trans (h.alike hyt)) halike htypes'
  · refine forall₂_imp_of_mem hsigs fun k hk s hs => h.isLocal.signature hp.toLinked ?_ hs
    exact howner ▸ (hp.referenced hb hk).2

include hp hi h in
theorem infer_alike (hd : p.Downstream i j) (hj : q.instr? j = some a)
    (ht : q.infer a.op a.inputs a.modules = .ok type) : (p.typeAt j).Alike type := by
  obtain ⟨types, types', signatures, hinfer, halike, htypes, hsigs⟩ := h.exists_inputs hp hi hd hj
  rw [infer_eq htypes hsigs, Outcome.lift_typed_ok] at ht
  exact a.op.inferType_alike halike hinfer ht

include hp hi h in
/-- Downstream, only an offload call can refuse the types that its operands have now. -/
theorem infer_refused (hd : p.Downstream i j) (hj : q.instr? j = some a)
    (he : q.infer a.op a.inputs a.modules = .error (.refused e)) : p.StoppedBelow i q e := by
  obtain ⟨types, types', signatures, hinfer, halike, htypes, hsigs⟩ := h.exists_inputs hp hi hd hj
  rw [infer_eq htypes hsigs] at he
  cases hnew : a.op.inferType types' signatures with
  | ok type =>
    rw [hnew] at he
    cases he
  | error failure =>
    rw [hnew] at he
    cases failure with
    | fault => cases he
    | refused cause =>
      cases he
      have hsame : List.Forall₂ Signature.Alike signatures signatures :=
        List.forall₂_same.mpr fun s _ => .refl s
      obtain ⟨anchor, index, t, hop, rfl, ht, haccepts⟩ :=
        Op.refused_of_alike halike hsame hinfer hnew
      obtain ⟨x, hx, hxt⟩ : ∃ x, a.inputs[index]? = some x ∧ q.HasType x (.tensor t) := by
        obtain ⟨hlt, hget⟩ := List.getElem?_eq_some_iff.mp ht
        have hlt' : index < a.inputs.length := htypes.length_eq ▸ hlt
        exact ⟨_, List.getElem?_eq_getElem hlt', hget ▸ htypes.get hlt' hlt⟩
      exact ⟨j, a, anchor, index, x, t, hd, hj, hop, hx, hxt, haccepts, rfl⟩

include h in
theorem step (hl : r.Linked) (hj : j ∈ q.body m) (hmodules : ∀ k, r.module? k = q.module? k)
    (hcore : ∀ {x}, x ≠ j → SameCore q r x)
    (hself : ∀ {a}, r.instr? j = some a → (p.typeAt j).Alike a.type ∧
      (p.Downstream i j → ∃ b, q.instr? j = some b ∧ p.Matching b a) ∧
      ∀ x ∈ a.inputs, p.Downstream i x → p.Downstream i j) : Drifted m i p r := by
  refine ⟨hl, fun k => (hmodules k).trans (h.module? k),
    h.isLocal.trans (h.linked.local_of_sameCore hj hmodules hcore), fun {k a} hk => ?_,
    fun {k a} hd hk => ?_, fun {x c} hd hu => ?_⟩
  · by_cases hkj : k = j
    · subst hkj
      exact (hself hk).1
    · obtain ⟨b, hb, hc⟩ := (hcore hkj).exists_instr hk
      rw [(Instruction.core_eq_iff.mp hc).2.2.2.1]
      exact h.stored hb
  · obtain ⟨b, hb, hmatching⟩ : ∃ b, q.instr? k = some b ∧ p.Matching b a := by
      by_cases hkj : k = j
      · subst hkj
        exact (hself hk).2.1 hd
      · obtain ⟨b, hb, hc⟩ := (hcore hkj).exists_instr hk
        exact ⟨b, hb, matching_of_core hc⟩
    obtain ⟨b', hb', hmatching'⟩ := h.kept hd hb
    exact ⟨b', hb', hmatching'.trans hmatching⟩
  · by_cases hcj : c = j
    · subst hcj
      obtain ⟨a, ha, hx⟩ := hu
      exact (hself ha).2.2 x hx hd
    · exact h.closed hd ((hcore hcj).symm.uses hu)

include h in
theorem retype (hmem : j ∈ q.body m) (hd : p.Downstream i j) (hj : q.instr? j = some a)
    (hty : (p.typeAt j).Alike type) :
    Drifted m i p (q.modifyInstr j fun inst => { inst with type }) := by
  refine h.step ((Retyped.modifyInstr q j type).linked h.linked) hmem (fun _ => rfl)
    (sameCore_modifyInstr _) fun {b} hb => ?_
  rw [instr?_modifyInstr, if_pos rfl, hj] at hb
  cases hb
  have hsame : List.Forall₂ p.AlikeAt a.inputs a.inputs :=
    List.forall₂_same.mpr fun _ _ => .refl _
  exact ⟨hty, fun _ => ⟨a, hj, rfl, rfl, hsame⟩, fun _ _ _ => hd⟩

/-! ## Edits on the way -/

include hp hi in
theorem roundInvariant : Edit.RoundInvariant fun stack q =>
    Drifted m i p q ∧ ∀ j ∈ stack, p.Downstream i j := by
  refine ⟨fun h _ _ => ⟨h.1, fun k hk => h.2 k (List.mem_cons_of_mem _ hk)⟩,
    fun {j _ q a _} hI hj ht => ?_⟩
  obtain ⟨h, hstack⟩ := hI
  have hd := hstack j List.mem_cons_self
  refine ⟨h.retype (h.mem_body hp hi hd) hd hj (h.infer_alike hp hi hd hj ht), fun k hk => ?_⟩
  obtain hk | hk := List.mem_append.mp hk
  · exact h.closed hd ((h.linked.mirrored hj).mp (List.mem_reverse.mp hk))
  · exact hstack k (List.mem_cons_of_mem j hk)

include hp hi h in
/-- **Inferring along a stack of instructions downstream** is refused by an offload call only. -/
theorem answers_refresh {fuel : Nat} (hstack : ∀ j ∈ stack, p.Downstream i j) :
    (Edit.refresh fuel stack).Answers q (fun e r => Drifted m i p r ∧ p.StoppedBelow i r e)
      fun _ r => Drifted m i p r := by
  have hI : Edit.RoundInvariant fun stack q => Drifted m i p q ∧ ∀ j ∈ stack, p.Downstream i j :=
    roundInvariant hp hi
  unfold Answers
  split
  · next hok => exact (hI.refresh_ok ⟨h, hstack⟩ hok).1
  · next e r he =>
    obtain hfault | ⟨j, rest, ⟨hr, hd⟩, hstuck⟩ := hI.refresh_error ⟨h, hstack⟩ he
    · cases hfault
    · have hd := hd j List.mem_cons_self
      obtain ⟨a, ha, -⟩ := hr.linked.owned (hr.mem_body hp hi hd)
      exact ⟨hr, hr.infer_refused hp hi hd ha (hstuck a ha)⟩
  · trivial

include hp hi h in
theorem answers_refreshType (hd : p.Downstream i j) :
    (Edit.refreshType j).Answers q (fun e r => Drifted m i p r ∧ p.StoppedBelow i r e)
      fun _ r => Drifted m i p r := by
  rw [Edit.refreshType, answers_get_bind]
  exact h.answers_refresh hp hi fun k hk => List.mem_singleton.mp hk ▸ hd

include h in
theorem swap (hc : q.instr? c = some a) (hold : old ∈ a.inputs) (hnew : Before (q.body m) new c)
    (hd : p.Downstream i c) (halike : p.AlikeAt old new) :
    Drifted m i p (q.swapped c old new) := by
  have ho : a.owner = m := h.linked.owner_unique hc hnew.right_mem
  refine h.step (h.linked.swapped hc hold (ho ▸ hnew)) hnew.right_mem (module?_swapped q c old new)
    (sameCore_swapped hc hold) fun {b} hb => ?_
  obtain ⟨b', hb', hop, hmods, hty, hin⟩ : ∃ b', (q.swapped c old new).instr? c = some b' ∧ _ :=
    exists_swapped hc hold
  cases hb.symm.trans hb'
  refine ⟨hty ▸ h.stored hc, fun _ => ⟨a, hc, hop.symm, hmods.symm, ?_⟩, fun _ _ _ => hd⟩
  rw [hin, List.forall₂_map_right_iff]
  refine List.forall₂_same.mpr fun x _ => ?_
  split
  · next hx => exact hx ▸ halike
  · exact .refl _

include hp in
/-- **Rewiring consumers one after the other** is refused by an offload call only. -/
theorem answers_rewire (hi : old ∈ p.body m) (h : Drifted m old p q)
    (hleft : Edit.Rewirable m old new left q) (hn : left.Nodup)
    (hd : ∀ c ∈ left, p.Downstream old c) (halike : p.AlikeAt old new) :
    (left.forM fun c => Edit.replaceArgument c old new).Answers q
      (fun e r => Drifted m old p r ∧ p.StoppedBelow old r e) fun _ r => Drifted m old p r := by
  induction left generalizing q with
  | nil => exact h
  | cons c left ih =>
    obtain ⟨hc, hn⟩ := List.nodup_cons.mp hn
    obtain ⟨a, ha, hold⟩ := hleft.uses c List.mem_cons_self
    have hdc := hd c List.mem_cons_self
    have hstep : (Edit.replaceArgument c old new).Answers q
        (fun e r => Drifted m old p r ∧ p.StoppedBelow old r e) fun _ r => Drifted m old p r := by
      have hswap := h.swap ha hold (hleft.before c List.mem_cons_self) hdc halike
      have hrefresh := hswap.answers_refreshType hp hi hdc
      rwa [answers_congr (Edit.replaceArgument_eq old new ha)]
    rw [List.forM, answers_bind]
    refine hstep.mono (fun _ _ => id) fun _ r hok hr => ?_
    exact ih hr (Action.after_of_ok hok ▸ hleft.replaceArgument hc) hn fun d hd' =>
      hd d (List.mem_cons_of_mem c hd')

end Drifted

/-! ## Replacements -/

variable (hp : p.Valid)

include hp in
theorem Valid.drifted_rebuilt (hi : p.instr? i = some inst)
    (hin : ∀ x ∈ inputs, Before (p.body inst.owner) x i) (hty : inst.type.Alike type) :
    Drifted inst.owner i p (p.rebuilt i inst.inputs op inputs modules type) := by
  have hself : i ∉ inputs := fun hmem => (hin i hmem).ne (hp.nodup _) rfl
  have hself' : i ∉ inst.inputs := fun hmem => hp.operand_ne hi hmem rfl
  have hmem := hp.listed hi
  refine (Drifted.refl hp hmem).step (hp.rebuilt hi hin) hmem (module?_rebuilt inst.inputs)
    (sameCore_rebuilt hi hself hself') fun {b} hb => ?_
  obtain ⟨b', hb', hc⟩ : ∃ b', (p.rebuilt i inst.inputs op inputs modules type).instr? i =
      some b' ∧ b'.core = { inst with op, inputs, modules, type }.core :=
    instr?_rebuilt_self hi hself hself'
  cases hb.symm.trans hb'
  obtain ⟨-, hinputs, -, htype, -⟩ : b.op = op ∧ b.inputs = inputs ∧ b.modules = modules ∧
    b.type = type ∧ b.owner = inst.owner := Instruction.core_eq_iff.mp hc
  refine ⟨?_, fun hd => absurd rfl hd.2, fun x hx hd => ?_⟩
  · rw [typeAt_eq ⟨inst, hi, rfl⟩, htype]
    exact hty
  · -- what is downstream does not stand before
    exact absurd (hp.downstream_before hmem hd) ((hin x (hinputs ▸ hx)).asymm (hp.nodup _))

include hp in
/-- What rewiring all consumers leaves behind. -/
theorem Valid.answers_replaceInstruction : (Edit.replaceInstruction old new).Answers p
    (fun e q => q = p ∨ p.HalfReplaced old q e)
    fun _ q => ∃ m, old ∈ p.body m ∧ Drifted m old p q := by
  rw [Edit.replaceInstruction, answers_get_bind]
  refine (readOnly_lift _).answers_bind (fun _ => .inl rfl) fun oldInst ho => ?_
  refine (readOnly_lift _).answers_bind (fun _ => .inl rfl) fun newInst hn => ?_
  refine answers_ite (fun _ => .inl rfl) fun hs => ?_
  refine (readOnly_lift _).answers_bind (fun _ => .inl rfl) fun place hloc => ?_
  refine (readOnly_lift _).answers_bind (fun _ => .inl rfl) fun module hm => ?_
  refine (ReadOnly.forM (Edit.readOnly_checkAfter p module place.2 new)).answers_bind
    (fun _ => .inl rfl) fun u hcheck => ?_
  have ho := findInstr_ok.mp (lift_ok.mp ho).1
  have hn := findInstr_ok.mp (lift_ok.mp hn).1
  have hm := findModule_ok.mp (lift_ok.mp hm).1
  have hcheck := ((ReadOnly.forM_ok (Edit.readOnly_checkAfter p module place.2 new)).mp hcheck).2
  have hleft := Edit.rewirable_of_check hp.toLinked ho (lift_ok.mp hloc).1 hm
    (fun c hc => List.mem_of_mem_filter hc) fun c hc => Edit.checkAfter_ok.mp (hcheck c hc)
  have hdistinct := (hp.distinct ho).filter (fun c => decide (c ≠ new))
  have halike : p.AlikeAt old new := by
    rw [AlikeAt, typeAt_eq ⟨oldInst, ho, rfl⟩, typeAt_eq ⟨newInst, hn, rfl⟩]
    exact ValueType.sameShape_iff.mp (by simpa using hs)
  generalize oldInst.consumers.filter (· ≠ new) = left at hleft hdistinct
  cases left with
  | nil => exact ⟨oldInst.owner, hp.listed ho, .refl hp (hp.listed ho)⟩
  | cons c left =>
    have hmem : old ∈ p.body place.1 := hp.mem_body_of_uses
      (hleft.before c List.mem_cons_self).right_mem (hleft.uses c List.mem_cons_self)
    refine ((Drifted.refl hp hmem).answers_rewire hp hmem hleft hdistinct (fun d hd => ?_)
      halike).mono (fun _ _ h => .inr ⟨_, hmem, h⟩) fun _ _ _ h => ⟨_, hmem, h⟩
    exact hp.downstream_tail .refl (hleft.uses d hd)

include hp in
/-- What rebuilding an instruction leaves behind. -/
theorem Valid.answers_replaceWith : (Edit.replaceWith i op inputs modules).Answers p
    (fun e q => q = p ∨ p.HalfReplaced i q e) fun _ q => ∃ m, i ∈ p.body m ∧ Drifted m i p q := by
  rw [Edit.replaceWith, answers_get_bind]
  refine (readOnly_lift _).answers_bind (fun _ => .inl rfl) fun place hloc => ?_
  refine (Edit.readOnly_checkPlacement _).answers_bind (fun _ => .inl rfl) fun u hplace => ?_
  rw [answers_get_bind]
  refine (readOnly_lift _).answers_bind (fun _ => .inl rfl) fun type _ => ?_
  refine answers_lift_checked_bind fun inst hi => ?_
  refine answers_ite (fun _ => .inl rfl) fun hs => ?_
  have hi := instr_ok.mp hi
  have hty : inst.type.Alike type := ValueType.sameShape_iff.mp (by simpa using hs)
  have hin := Edit.before_of_placement hi (lift_ok.mp hloc).1 hplace
  have hrebuilt : Drifted inst.owner i p (p.rebuilt i inst.inputs op inputs modules type) :=
    hp.drifted_rebuilt hi hin hty
  rw [answers_set_bind]
  refine answers_ite (fun _ => ?_) fun _ => ⟨_, hp.listed hi, hrebuilt⟩
  refine answers_get_bind.mpr (answers_lift_checked_bind fun b hb => ?_)
  have hb : (p.rebuilt i inst.inputs op inputs modules type).instr? i = some b := instr_ok.mp hb
  have hdownstream : ∀ c ∈ b.consumers, p.Downstream i c := by
    intro c hc
    -- a consumer in the rebuilt program is one in the program
    have hne : c ≠ i := by
      rintro rfl
      obtain ⟨b', hb', hmem', -⟩ := hrebuilt.linked.consumer hb hc
      exact hrebuilt.linked.operand_ne hb' hmem' rfl
    have hself : i ∉ inputs := fun hmem => (hin i hmem).ne (hp.nodup _) rfl
    have hself' : i ∉ inst.inputs := fun hmem => hp.operand_ne hi hmem rfl
    have hcore : SameCore p (p.rebuilt i inst.inputs op inputs modules type) c :=
      sameCore_rebuilt hi hself hself' hne
    exact hp.downstream_tail .refl (hcore.symm.uses ((hrebuilt.linked.mirrored hb).mp hc))
  have hloop : (b.consumers.forM Edit.refreshType).Answers
      (p.rebuilt i inst.inputs op inputs modules type)
      (fun e r => Drifted inst.owner i p r ∧ p.StoppedBelow i r e)
      fun _ r => Drifted inst.owner i p r :=
    answers_forM hrebuilt fun c hc _ h =>
      h.answers_refreshType hp (hp.listed hi) (hdownstream c hc)
  exact hloop.mono (fun _ _ h => .inr ⟨_, hp.listed hi, h⟩) fun _ _ _ h => ⟨_, hp.listed hi, h⟩

/-- **A refused replacement leaves a verified program as it was, unless an offload call downstream
refuses the layout that one of its operands got.** Even then other modules are the same, and types
differ in layout only. -/
theorem refused_replacement (h : p.verify = .ok ⟨⟩) :
    (∀ old new e q, Edit.replaceInstruction old new p = .error (.refused e) q →
      q = p ∨ p.HalfReplaced old q e) ∧
    ∀ i op inputs modules e q, Edit.replaceWith i op inputs modules p = .error (.refused e) q →
      q = p ∨ p.HalfReplaced i q e :=
  ⟨fun _ _ _ _ he => (verify_ok.mp h).answers_replaceInstruction.refused he,
    fun _ _ _ _ _ _ he => (verify_ok.mp h).answers_replaceWith.refused he⟩

/-- Half of an activation goes to a call, beside a transposed copy of its operand. -/
def slicedForCall : Program :=
  (do
    let a ← Edit.addParameter main "a" ⟨.f32, [4, 4], [4, 1]⟩
    let c ← Edit.addParameter main "c" ⟨.f32, [2, 4], [4, 1]⟩
    let g ← Edit.createModule "g"
    let y ← Edit.addParameter g "y" ⟨.f32, [2, 4], [4, 1]⟩
    let z ← Edit.addParameter g "z" ⟨.f32, [2, 4], [4, 1]⟩
    let sum ← Edit.addInstruction g (.binary .add) [y, z] []
    let _ ← Edit.addReturn g [sum]
    let _ ← Edit.addInstruction main (.reindex (.transpose [1, 0])) [a] []
    let relu ← Edit.addInstruction main (.unary .relu) [a] []
    let half ← Edit.addInstruction main (.reindex (.slice [0] [0] [2])) [relu] []
    let call ← Edit.addInstruction main (.offload (.dot false)) [half, c] [g]
    let _ ← Edit.addReturn main [call] : Edit Unit).after .empty

/-- The activation cannot be replaced by a matrix of other dimensions. -/
theorem refused_replacement_mismatch :
    slicedForCall.verify = .ok ⟨⟩ ∧ ∃ e q,
      Edit.replaceInstruction ⟨7⟩ ⟨1⟩ slicedForCall = .error (.refused e) q ∧
      q = slicedForCall := by
  have hv : slicedForCall.verify = .ok ⟨⟩ := by decide +kernel
  obtain ⟨_, q, hrefused, rfl⟩ : ∃ e q,
      Edit.replaceInstruction ⟨7⟩ ⟨1⟩ slicedForCall = .error (.refused e) q ∧
        e = .typeMismatch (.tensor ⟨.f32, [4, 4], [4, 1]⟩) (.tensor ⟨.f32, [2, 4], [4, 1]⟩) := by
    decide +kernel
  refine ⟨hv, _, q, hrefused, ?_⟩
  obtain hsame | ⟨_, -, -, _, _, _, _, _, _, -, -, -, -, -, -, he⟩ :=
    (refused_replacement hv).1 _ _ _ _ hrefused
  · exact hsame
  · cases he

/-- **The half of a transposed matrix is neither packed nor broadcasted**, so the call refuses it
when the activation is replaced. The slice and its type have changed by then. -/
theorem half_replaced :
    slicedForCall.verify = .ok ⟨⟩ ∧
    (∃ e q, Edit.replaceInstruction ⟨7⟩ ⟨6⟩ slicedForCall = .error (.refused e) q ∧
      q ≠ slicedForCall ∧ q.verify ≠ .ok ⟨⟩) ∧
    ∃ e q, Edit.replaceWith ⟨7⟩ (.reindex (.transpose [1, 0])) [⟨0⟩] [] slicedForCall =
      .error (.refused e) q ∧ q ≠ slicedForCall ∧ q.verify ≠ .ok ⟨⟩ := by
  have hv : slicedForCall.verify = .ok ⟨⟩ := by decide +kernel
  have hother : ∀ {q : Program}, q.verify ≠ .ok ⟨⟩ → q ≠ slicedForCall := fun hq he =>
    hq (he ▸ hv)
  obtain ⟨e, q, hrefused, hq⟩ : ∃ e q,
      Edit.replaceInstruction ⟨7⟩ ⟨6⟩ slicedForCall = .error (.refused e) q ∧
        q.verify ≠ .ok ⟨⟩ := by decide +kernel
  obtain ⟨e', q', hrefused', hq'⟩ : ∃ e q,
      Edit.replaceWith ⟨7⟩ (.reindex (.transpose [1, 0])) [⟨0⟩] [] slicedForCall =
        .error (.refused e) q ∧ q.verify ≠ .ok ⟨⟩ := by decide +kernel
  exact ⟨hv, ⟨e, q, hrefused, hother hq, hq⟩, e', q', hrefused', hother hq', hq'⟩

end Program

end OffloadFusion
