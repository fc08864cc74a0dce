import OffloadFusion.Proofs.Verified

/-!
# Changes of one module

`Local m p q` says that two programs differ in the module `m` only. What the other modules take and
return is then the same, and so are the types inferred there (`Local.infer`), but for instructions
that carry `m`. `Steady e p` is a program whose types are fresh, up to those of the instructions
that carry the module `e`; with no such `e` the program is valid. It stays steady as soon as the
instructions of `m` are in order (`Steady.of_local`).
-/

namespace OffloadFusion

namespace Instruction

theorem exists_of_core {a b : Option Instruction} {inst : Instruction}
    (h : a.map core = b.map core) (ha : a = some inst) :
    ∃ inst', b = some inst' ∧ inst.core = inst'.core := by
  subst ha
  cases b with
  | none => cases h
  | some inst' => exact ⟨inst', rfl, Option.some.inj h⟩

end Instruction

namespace Program

variable {p q r : Program} {i j x : InstrId} {m k : ModuleId} {inst : Instruction} {op : Op}
  {inputs : List InstrId} {modules : List ModuleId} {type : ValueType} {s : Signature}

/-! ## What depends on the core of instructions -/

/-- The instruction is the same in both programs, up to its consumers. -/
def SameCore (p q : Program) (i : InstrId) : Prop :=
  (q.instr? i).map Instruction.core = (p.instr? i).map Instruction.core

namespace SameCore

theorem symm (h : SameCore p q i) : SameCore q p i := Eq.symm h

theorem trans (h : SameCore p q i) (h' : SameCore q r i) : SameCore p r i := Eq.trans h' h

theorem exists_instr (h : SameCore p q i) (hi : q.instr? i = some inst) :
    ∃ inst', p.instr? i = some inst' ∧ inst.core = inst'.core := Instruction.exists_of_core h hi

theorem hasType (h : SameCore p q i) (ht : p.HasType i type) : q.HasType i type := by
  obtain ⟨inst, hi, rfl⟩ := ht
  obtain ⟨inst', hi', hcore⟩ := h.symm.exists_instr hi
  exact ⟨inst', hi', (Instruction.core_eq_iff.mp hcore).2.2.2.1.symm⟩

theorem hasOp (h : SameCore p q i) (test : Op → Bool) : q.hasOp test i = p.hasOp test i := by
  have hop : ∀ o : Option Instruction, (o.any fun inst => test inst.op) =
      ((o.map Instruction.core).any fun inst => test inst.op) := fun o => by cases o <;> rfl
  rw [Program.hasOp, Program.hasOp, hop (q.instr? i), hop (p.instr? i), show _ = _ from h]

theorem uses (h : SameCore p q i) (hu : p.Uses i x) : q.Uses i x := by
  obtain ⟨inst, hi, hx⟩ := hu
  obtain ⟨inst', hi', hcore⟩ := h.symm.exists_instr hi
  exact ⟨inst', hi', (Instruction.core_eq_iff.mp hcore).2.1 ▸ hx⟩

end SameCore

theorem parameters_congr (hb : q.body m = p.body m) (h : ∀ j ∈ p.body m, SameCore p q j) :
    q.parameters m = p.parameters m := by
  rw [parameters, parameters, hb]
  exact List.filter_congr fun j hj => (h j hj).hasOp _

theorem returnTypes_ok {body : List InstrId} {types : List TensorType} :
    p.returnTypes body = .ok types ↔ match body.getLast? with
      | none => types = []
      | some last => ∃ inst, p.instr? last = some inst ∧
        if inst.op.isReturn then List.Forall₂ (fun x t => p.HasType x (.tensor t)) inst.inputs types
        else types = inst.type.elements := by
  unfold returnTypes
  cases body.getLast? with
  | none => exact Outcome.pure_ok.trans eq_comm
  | some last =>
    simp only [Outcome.bind_ok, Outcome.lift_checked_ok, instr_ok]
    refine exists_congr fun inst => and_congr_right fun _ => ?_
    split
    · simp only [Outcome.mapM_ok, tensorOf_ok]
    · rw [Outcome.pure_ok, eq_comm]

/-- A module takes and returns the same if its parameters and its last instruction are the same, and
the operands of that have the same types. -/
theorem signature_keep (hm : (q.module? m).isSome) (hparams : q.parameters m = p.parameters m)
    (htypes : ∀ i ∈ p.parameters m, ∀ t, p.HasType i t → q.HasType i t)
    (hlast : (q.body m).getLast? = (p.body m).getLast?)
    (hcore : ∀ last, (p.body m).getLast? = some last →
      SameCore p q last ∧ ∀ x, p.Uses last x → ∀ t, p.HasType x t → q.HasType x t)
    (h : p.signature m = .ok s) : q.signature m = .ok s := by
  obtain ⟨module, hm', hp, hr⟩ := signature_ok.mp h
  obtain ⟨module', hq⟩ := Option.isSome_iff_exists.mp hm
  refine signature_ok.mpr ⟨module', hq, ?_, ?_⟩
  · rw [hparams]
    exact forall₂_imp_of_mem hp fun i hi t ht => htypes i hi _ ht
  · rw [returnTypes_ok] at hr ⊢
    rw [← body_of_module? hq, hlast]
    rw [← body_of_module? hm'] at hr
    cases he : (p.body m).getLast? with
    | none => rwa [he] at hr
    | some last =>
      rw [he] at hr
      obtain ⟨inst, hi, hr⟩ := hr
      obtain ⟨hsame, huses⟩ := hcore last he
      obtain ⟨inst', hi', hc⟩ := hsame.symm.exists_instr hi
      obtain ⟨hop, hin, -, hty, -⟩ := Instruction.core_eq_iff.mp hc
      refine ⟨inst', hi', ?_⟩
      rw [← hop, ← hin, ← hty]
      split at hr
      · next hret =>
        rw [if_pos hret]
        exact forall₂_imp_of_mem hr fun x hx t ht => huses x ⟨inst, hi, hx⟩ _ ht
      · next hret => rwa [if_neg hret]

theorem signature_of_sameCore (hw : p.Wired) (hm : q.module? m = p.module? m)
    (hcore : ∀ j ∈ p.body m, SameCore p q j) (h : p.signature m = .ok s) :
    q.signature m = .ok s := by
  obtain ⟨module, hm', -⟩ := signature_ok.mp h
  have hb : q.body m = p.body m := by rw [body, hm, body]
  refine signature_keep (by rw [hm, hm']; rfl) (parameters_congr hb hcore)
    (fun i hi t ht => (hcore i (List.mem_of_mem_filter hi)).hasType ht) (by rw [hb])
    (fun last hlast => ?_) h
  have hmem := List.mem_of_getLast? hlast
  exact ⟨hcore last hmem, fun x hx t ht =>
    (hcore x (hw.before_of_uses hmem hx).left_mem).hasType ht⟩

/-- Types are inferred alike where operands have the same types and modules the same signatures. -/
theorem infer_keep (htypes : ∀ x ∈ inputs, ∀ t, p.HasType x t → q.HasType x t)
    (hsigs : ∀ k ∈ modules, ∀ s, p.signature k = .ok s → q.signature k = .ok s)
    (h : p.infer op inputs modules = .ok type) : q.infer op inputs modules = .ok type := by
  obtain ⟨types, signatures, ht, hs, hinfer⟩ := infer_ok.mp h
  exact infer_ok.mpr ⟨types, signatures, forall₂_imp_of_mem ht htypes,
    forall₂_imp_of_mem hs hsigs, hinfer⟩

/-! ## Other modules -/

/-- The instruction does not carry the module. -/
def Spares (p : Program) (m : ModuleId) (i : InstrId) : Prop :=
  ∀ inst, p.instr? i = some inst → m ∉ inst.modules

/-- No instruction references the module. -/
def Free (p : Program) (m : ModuleId) : Prop :=
  ∀ i inst, p.instr? i = some inst → m ∉ inst.modules

/-- The programs differ in one module only, up to consumers. -/
structure Local (m : ModuleId) (p q : Program) : Prop where
  alive : (q.module? m).isSome
  module? : ∀ {k}, k ≠ m → q.module? k = p.module? k
  core : ∀ {k j}, k ≠ m → j ∈ p.body k → SameCore p q j

namespace Local

theorem body (h : Local m p q) (hk : k ≠ m) : q.body k = p.body k := by
  rw [Program.body, h.module? hk, Program.body]

theorem symm (h : Local m p q) (ha : (p.module? m).isSome) : Local m q p :=
  ⟨ha, fun hk => (h.module? hk).symm, fun hk hj => (h.core hk (h.body hk ▸ hj)).symm⟩

theorem trans (h : Local m p q) (h' : Local m q r) : Local m p r :=
  ⟨h'.alive, fun hk => (h'.module? hk).trans (h.module? hk),
    fun hk hj => (h.core hk hj).trans (h'.core hk (h.body hk ▸ hj))⟩

theorem signature (h : Local m p q) (hl : p.Linked) (hk : k ≠ m) (hs : p.signature k = .ok s) :
    q.signature k = .ok s :=
  signature_of_sameCore hl.wired (h.module? hk) (fun _ hj => h.core hk hj) hs

/-- The instruction does not notice the change. -/
def Unnoticed (m : ModuleId) (p q : Program) (i : InstrId) : Prop :=
  p.Spares m i ∨ ∀ s, p.signature m = .ok s → q.signature m = .ok s

theorem signatures (h : Local m p q) (hl : p.Linked) (hu : Unnoticed m p q i)
    (hi : p.instr? i = some inst) :
    ∀ k ∈ inst.modules, ∀ s, p.signature k = .ok s → q.signature k = .ok s := by
  intro k hk s hs
  by_cases hkm : k = m
  · subst hkm
    obtain hspares | hkeep := hu
    · exact absurd hk (hspares inst hi)
    · exact hkeep s hs
  · exact h.signature hl hkm hs

theorem infer (h : Local m p q) (hl : p.Linked) (hu : Unnoticed m p q i)
    (hi : p.instr? i = some inst) (htypes : ∀ x ∈ inst.inputs, ∀ t, p.HasType x t → q.HasType x t)
    (hinfer : p.infer inst.op inst.inputs inst.modules = .ok type) :
    q.infer inst.op inst.inputs inst.modules = .ok type :=
  infer_keep htypes (h.signatures hl hu hi) hinfer

theorem outside (h : Local m p q) (hl : q.Linked) (hi : q.instr? i = some inst)
    (hm : inst.owner ≠ m) : ∃ inst', p.instr? i = some inst' ∧ inst.core = inst'.core :=
  (h.core hm (h.body hm ▸ hl.listed hi)).exists_instr hi

end Local

theorem Linked.local_of_sameCore (hl : p.Linked) (hmem : i ∈ p.body m)
    (hmodules : ∀ k, q.module? k = p.module? k) (hcore : ∀ {j}, j ≠ i → SameCore p q j) :
    Local m p q := by
  obtain ⟨inst, hi, -⟩ := hl.owned hmem
  refine ⟨hmodules m ▸ alive_of_mem_body hmem, fun _ => hmodules _, fun {k j} hk hj => hcore ?_⟩
  rintro rfl
  exact hk ((hl.owner_unique hi hj).symm.trans (hl.owner_unique hi hmem))

theorem sameCore_modifyInstr (f : Instruction → Instruction) (hj : j ≠ i) :
    SameCore p (p.modifyInstr i f) j := by
  rw [SameCore, instr?_modifyInstr, if_neg (Ne.symm hj)]

/-- An instruction of `m` is in order. -/
structure Settled (p : Program) (m : ModuleId) (i : InstrId) (inst : Instruction) : Prop where
  returns : inst.op.isReturn → (p.body m).getLast? = some i
  referenced : ∀ k ∈ inst.modules, (p.module? k).isSome ∧ k ≠ m

theorem Framed.of_local (h : p.Framed) (hl : q.Linked) (hloc : Local m p q)
    (hin : ∀ {i inst}, q.instr? i = some inst → inst.owner = m → Settled q m i inst) :
    q.Framed := by
  have hsettled : ∀ {i inst}, q.instr? i = some inst → Settled q inst.owner i inst := by
    intro i inst hi
    by_cases hm : inst.owner = m
    · exact hm ▸ hin hi hm
    obtain ⟨inst', hi', hcore⟩ := hloc.outside hl hi hm
    obtain ⟨hop, -, hmodules, -, howner⟩ := Instruction.core_eq_iff.mp hcore
    refine ⟨fun hret => ?_, fun k hk => ?_⟩
    · rw [hloc.body hm, howner]
      exact h.returns hi' (hop ▸ hret)
    · obtain ⟨halive, hne⟩ := h.referenced hi' (hmodules ▸ hk)
      refine ⟨?_, howner ▸ hne⟩
      by_cases hkm : k = m
      · exact hkm ▸ hloc.alive
      · rwa [hloc.module? hkm]
  exact { toLinked := hl, returns := fun hi => (hsettled hi).returns,
          referenced := fun hi => (hsettled hi).referenced _ }

/-- The stored type of an instruction is the inferred one. -/
def Fresh (p : Program) (i : InstrId) : Prop :=
  ∀ inst, p.instr? i = some inst → p.infer inst.op inst.inputs inst.modules = .ok inst.type

theorem Valid.iff_fresh : p.Valid ↔ p.Framed ∧ ∀ i, p.Fresh i :=
  ⟨fun h => ⟨h.toFramed, fun _ _ hi => h.fresh hi⟩,
    fun h => { toFramed := h.1, fresh := h.2 _ _ }⟩

theorem Fresh.type_of_param (h : p.Fresh i) (hi : p.instr? i = some inst)
    (hop : inst.op.isParam) :
    ∃ name t, inst.op = .param name t ∧ inst.type = .tensor t ∧ inst.inputs = [] := by
  obtain ⟨types, signatures, htypes, -, hinfer⟩ := infer_ok.mp (h inst hi)
  generalize inst.op = op at hop hinfer
  cases op <;> simp only [Op.isParam, Bool.false_eq_true] at hop
  next name t =>
    simp only [Op.inferType, Op.nullary, Outcome.bind_ok, Outcome.pure_ok,
      Typing.tensorInputs_ok] at hinfer
    obtain ⟨-, ⟨tensors, ⟨hcount, -⟩, -⟩, ht⟩ := hinfer
    have hnil : types = [] := by
      simpa [Interval.contains, Interval.exactly] using hcount
    subst hnil
    exact ⟨name, t, rfl, ht.symm, List.forall₂_nil_right_iff.mp htypes⟩

theorem Fresh.return_operands (h : p.Fresh i) (hi : p.instr? i = some inst)
    (hret : inst.op.isReturn = true) :
    List.Forall₂ (fun x t => p.HasType x (.tensor t)) inst.inputs inst.type.elements := by
  obtain ⟨types, signatures, htypes, -, hinfer⟩ := infer_ok.mp (h inst hi)
  have hop : inst.op = .ret := by
    cases hop : inst.op <;> simp_all [Op.isReturn]
  rw [hop] at hinfer
  simp only [Op.inferType, Outcome.bind_ok, Outcome.pure_ok, Typing.tensorInputs_ok] at hinfer
  obtain ⟨tensors, ⟨-, rfl⟩, -, -, htype⟩ := hinfer
  rw [← htype, ValueType.elements_ofElements]
  rwa [List.forall₂_map_right_iff] at htypes

theorem Valid.return_operands (h : p.Valid) (hi : p.instr? i = some inst)
    (hret : inst.op.isReturn = true) :
    List.Forall₂ (fun x t => p.HasType x (.tensor t)) inst.inputs inst.type.elements :=
  Fresh.return_operands (fun _ hi => h.fresh hi) hi hret

theorem Linked.exists_signature (hl : p.Linked) (hm : (p.module? m).isSome)
    (hfresh : ∀ i ∈ p.body m, p.Fresh i) : ∃ s, p.signature m = .ok s := by
  obtain ⟨module, hm⟩ := Option.isSome_iff_exists.mp hm
  have hparam : ∀ i ∈ p.parameters m, ∃ t, p.tensorOf i = .ok t := by
    intro i hi
    obtain ⟨inst, hinst, hop⟩ := hasOp_iff.mp (List.mem_filter.mp hi).2
    obtain ⟨-, t, -, ht, -⟩ := (hfresh i (List.mem_of_mem_filter hi)).type_of_param hinst hop
    exact ⟨t, tensorOf_ok.mpr ⟨inst, hinst, ht⟩⟩
  have hreturns : ∃ types, p.returnTypes module.body = .ok types := by
    cases he : module.body.getLast? with
    | none => exact ⟨[], returnTypes_ok.mpr (by rw [he])⟩
    | some last =>
      have hmem : last ∈ p.body m := body_of_module? hm ▸ List.mem_of_getLast? he
      obtain ⟨inst, hinst, -⟩ := hl.owned hmem
      refine ⟨inst.type.elements, returnTypes_ok.mpr ?_⟩
      rw [he]
      refine ⟨inst, hinst, ?_⟩
      split
      · next hret => exact (hfresh last hmem).return_operands hinst hret
      · rfl
  obtain ⟨params, hparams⟩ := Outcome.mapM_total hparam
  obtain ⟨returns, hreturns⟩ := hreturns
  refine ⟨⟨params, returns⟩, signature_ok.mpr ⟨module, hm, ?_, hreturns⟩⟩
  exact (Outcome.mapM_ok.mp hparams).imp fun _ _ => tensorOf_ok.mp

theorem Local.fresh (h : Local m p q) (hl : p.Linked) (hu : Local.Unnoticed m p q i)
    (hcore : SameCore p q i) (htypes : ∀ x, p.Uses i x → ∀ t, p.HasType x t → q.HasType x t)
    (hfresh : p.Fresh i) : q.Fresh i := by
  intro inst hi
  obtain ⟨inst', hi', hc⟩ := hcore.exists_instr hi
  obtain ⟨hop, hin, hmodules, hty, -⟩ := Instruction.core_eq_iff.mp hc
  rw [hop, hin, hmodules, hty]
  exact h.infer hl hu hi' (fun x hx => htypes x ⟨inst', hi', hx⟩) (hfresh inst' hi')

theorem Local.fresh_outside (h : Local m p q) (hl : p.Linked) (hlq : q.Linked)
    (hu : Local.Unnoticed m p q i) (hi : q.instr? i = some inst) (hm : inst.owner ≠ m)
    (hfresh : p.Fresh i) : q.Fresh i := by
  have hmem : i ∈ p.body inst.owner := h.body hm ▸ hlq.listed hi
  refine h.fresh hl hu (h.core hm hmem) ?_ hfresh
  rintro x ⟨inst', hi', hx⟩ t ht
  have hbefore := hl.ordered hi' hx
  rw [hl.owner_unique hi' hmem] at hbefore
  exact (h.core hm hbefore.left_mem).hasType ht

/-! ## Steady programs -/

theorem SameCore.spares (h : SameCore p q i) (hs : q.Spares m i) : p.Spares m i := by
  intro inst hi
  obtain ⟨inst', hi', hc⟩ := h.symm.exists_instr hi
  exact (Instruction.core_eq_iff.mp hc).2.2.1 ▸ hs inst' hi'

/-- The instruction does not carry the module, if there is one. -/
def SparesAny (p : Program) (e : Option ModuleId) (i : InstrId) : Prop := ∀ m ∈ e, p.Spares m i

@[simp] theorem sparesAny_some : p.SparesAny (some m) i ↔ p.Spares m i := by
  simp [SparesAny]

theorem SameCore.sparesAny {e : Option ModuleId} (h : SameCore p q i) (hs : q.SparesAny e i) :
    p.SparesAny e i := fun m hm => h.spares (hs m hm)

/-- A framed program with the inferred types, up to those of the instructions that carry `e`. -/
structure Steady (e : Option ModuleId) (p : Program) : Prop extends p.Framed where
  fresh : ∀ {i}, p.SparesAny e i → p.Fresh i

variable {e : Option ModuleId}

theorem Valid.steady (h : p.Valid) (e : Option ModuleId) : p.Steady e :=
  ⟨h.toFramed, fun _ _ hi => h.fresh hi⟩

theorem Steady.valid (h : p.Steady none) : p.Valid :=
  Valid.iff_fresh.mpr ⟨h.toFramed, fun _ => h.fresh nofun⟩

theorem Steady.valid_of_free (h : p.Steady (some m)) (hfree : p.Free m) : p.Valid :=
  Valid.iff_fresh.mpr ⟨h.toFramed, fun i => h.fresh (sparesAny_some.mpr (hfree i))⟩

/-- An instruction of the module itself does not carry it. -/
theorem Framed.spares_own (h : p.Framed) (hi : i ∈ p.body m) : p.SparesAny (some m) i := by
  refine sparesAny_some.mpr fun inst hinst hmem => ?_
  exact (h.referenced hinst hmem).2 (h.owner_unique hinst hi).symm

theorem Steady.fresh_own (h : p.Steady (some m)) (hi : i ∈ p.body m) : p.Fresh i :=
  h.fresh (h.spares_own hi)

/-- **A change of one module that no instruction notices keeps a program steady** if the
instructions of that module are in order. -/
theorem Steady.of_local (h : p.Steady e) (hl : q.Linked) (hloc : Local m p q)
    (hu : ∀ {i}, p.SparesAny e i → Local.Unnoticed m p q i)
    (hin : ∀ {i inst}, q.instr? i = some inst → inst.owner = m →
      Settled q m i inst ∧ (q.SparesAny e i → q.Fresh i)) : q.Steady e := by
  refine ⟨h.toFramed.of_local hl hloc fun hi hm => (hin hi hm).1, fun {i} hs inst hi => ?_⟩
  by_cases hm : inst.owner = m
  · exact (hin hi hm).2 hs inst hi
  · have hcore : SameCore p q i := hloc.core hm (hloc.body hm ▸ hl.listed hi)
    have hp := hcore.sparesAny hs
    exact hloc.fresh_outside h.toLinked hl (hu hp) hi hm (h.fresh hp) inst hi

end Program

end OffloadFusion
