import OffloadFusion.Proofs.Dependence
import OffloadFusion.Proofs.Listed
import OffloadFusion.Proofs.Signatures

/-!
# Verified programs

* `Framed`, `Valid`: a linked program in which returns are last and referenced modules are there,
  and one in which stored types are also the inferred ones.
* **`verify_ok`**: the verifier accepts exactly the valid programs. It looks at one instruction at a
  time and counts at the end; `verifyAt_ok` and `verifyFrom_ok` say what it has seen.
-/

namespace OffloadFusion.Program

/-- A linked program in which returns are last and referenced modules are there. -/
structure Framed (p : Program) : Prop extends p.Linked where
  /-- Returns are last. -/
  returns : ∀ {i inst}, p.instr? i = some inst → inst.op.isReturn →
    (p.body inst.owner).getLast? = some i
  /-- Referenced modules are there. -/
  referenced : ∀ {i inst k}, p.instr? i = some inst → k ∈ inst.modules →
    (p.module? k).isSome ∧ k ≠ inst.owner

/-- A framed program with the inferred types. -/
structure Valid (p : Program) : Prop extends p.Framed where
  /-- Stored types are the inferred ones. -/
  fresh : ∀ {i inst}, p.instr? i = some inst →
    p.infer inst.op inst.inputs inst.modules = .ok inst.type

variable {p : Program} {m : ModuleId} {module : Module} {i : InstrId} {inst : Instruction}
  {earlier rest : List InstrId} {index : Nat} {u : Unit}

/-! ## One instruction -/

/-- What the verifier checks at one position of a module. -/
structure CheckedAt (p : Program) (m : ModuleId) (module : Module) (earlier : List InstrId)
    (i : InstrId) (index : Nat) (inst : Instruction) : Prop where
  alive : p.instr? i = some inst
  owner : inst.owner = m
  once : i ∉ earlier
  ordered : ∀ x ∈ inst.inputs, x ∈ earlier
  inverse : p.edgesInverse i inst = true
  last : inst.op.isReturn → index + 1 = module.body.length
  referenced : ∀ k ∈ inst.modules, (p.module? k).isSome ∧ k ≠ m
  fresh : p.infer inst.op inst.inputs inst.modules = .ok inst.type

theorem verifyAt_ok : p.verifyAt m module earlier i index = .ok u ↔
    ∃ inst, p.CheckedAt m module earlier i index inst := by
  unfold verifyAt
  cases hi : p.instr? i with
  | none =>
    simp only [Outcome.refuse_ok, false_iff, not_exists]
    intro inst h
    rw [h.alive] at hi
    cases hi
  | some inst =>
    simp only [Outcome.ite_ok, Outcome.refuse_bind_ok, and_false, false_or, not_or,
      ne_eq, not_and, not_not, Bool.not_eq_true', Bool.not_eq_false, List.any_eq_true,
      decide_eq_true_eq, not_exists, Option.isNone_iff_eq_none]
    constructor
    · rintro ⟨⟨howner, honce⟩, hordered, hinverse, hlast, href, hfresh⟩
      exact ⟨inst, hi, howner, honce, hordered, hinverse, hlast,
        fun k hk => ⟨Option.isSome_iff_ne_none.mpr (href k hk).1, (href k hk).2⟩,
        by split at hfresh <;> simp_all⟩
    · rintro ⟨inst', h⟩
      have hi' := h.alive
      rw [hi] at hi'
      cases hi'
      exact ⟨⟨h.owner, h.once⟩, h.ordered, h.inverse, h.last,
        fun k hk => ⟨Option.isSome_iff_ne_none.mp (h.referenced k hk).1, (h.referenced k hk).2⟩,
        by rw [h.fresh]; simp⟩

/-! ## A module -/

theorem verifyFrom_ok : p.verifyFrom m module earlier rest = .ok u ↔
    ∀ l₁ i l₂, rest = l₁ ++ i :: l₂ →
      ∃ inst, p.CheckedAt m module (earlier ++ l₁) i (earlier ++ l₁).length inst := by
  induction rest generalizing earlier with
  | nil => simp [verifyFrom]
  | cons i rest ih =>
    simp only [verifyFrom, Outcome.bind_ok, verifyAt_ok, exists_const, ih]
    constructor
    · rintro ⟨hfirst, hrest⟩ l₁ j l₂ he
      cases l₁ with
      | nil =>
        cases he
        simpa using hfirst
      | cons k l₁ =>
        cases he
        simpa using hrest l₁ j l₂ rfl
    · intro h
      refine ⟨by simpa using h [] i rest rfl, fun l₁ j l₂ he => ?_⟩
      simpa using h (i :: l₁) j l₂ (by rw [he]; rfl)

/-! ## The program -/

/-- The verifier's two parts: every module is checked, and the listings are counted. -/
theorem verify_ok_iff : p.verify = .ok u ↔
    (∀ m module, p.module? m = some module → ∀ l₁ i l₂, module.body = l₁ ++ i :: l₂ →
      ∃ inst, p.CheckedAt m module l₁ i l₁.length inst) ∧ p.listed.length = p.size := by
  simp only [verify, Outcome.bind_ok, Outcome.forM_ok, verifyFrom_ok, Prod.forall,
    mem_moduleEntries, exists_const, Outcome.ite_ok, Outcome.refuse_ok, and_false, false_or,
    Outcome.pure_ok, ne_eq, not_not, and_true, List.nil_append]

theorem edgesInverse_iff : p.edgesInverse i inst = true ↔ (∀ x ∈ inst.inputs, ∃ q,
    p.instr? x = some q ∧ i ∈ q.consumers) ∧ (∀ c ∈ inst.consumers, p.Uses c i) ∧
      inst.consumers.Nodup := by
  simp only [edgesInverse, Bool.and_eq_true, List.all_eq_true, Option.any_eq_true,
    decide_eq_true_eq, Uses, and_assoc]

theorem valid_of_checked (hcheck : ∀ m module, p.module? m = some module → ∀ l₁ i l₂,
      module.body = l₁ ++ i :: l₂ → ∃ inst, p.CheckedAt m module l₁ i l₁.length inst)
    (hlen : p.listed.length = p.size) : p.Valid := by
  have hsplit : ∀ {m i}, i ∈ p.body m → ∃ module l₁ l₂ inst, p.body m = l₁ ++ i :: l₂ ∧
      p.body m = module.body ∧ p.CheckedAt m module l₁ i l₁.length inst := by
    intro m i hi
    obtain ⟨module, hm, hb⟩ := module?_of_mem_body hi
    obtain ⟨l₁, l₂, he⟩ := List.append_of_mem hi
    obtain ⟨inst, h⟩ := hcheck m module hm l₁ i l₂ (hb.trans he)
    exact ⟨module, l₁, l₂, inst, he, hb.symm, h⟩
  have hnodup : ∀ m, (p.body m).Nodup := fun m => nodup_of_split fun l₁ i l₂ he => by
    obtain ⟨module, hm, hb⟩ := module?_of_mem_body (p := p) (m := m) (i := i) (by simp [he])
    obtain ⟨inst, h⟩ := hcheck m module hm l₁ i l₂ (hb.trans he)
    exact h.once
  have howned : ∀ m, ∀ i ∈ p.body m, ∃ inst, p.instr? i = some inst ∧ inst.owner = m := by
    intro m i hi
    obtain ⟨_, _, _, inst, -, -, h⟩ := hsplit hi
    exact ⟨inst, h.alive, h.owner⟩
  have hlisted : ∀ {i inst}, p.instr? i = some inst → i ∈ p.body inst.owner := fun hi =>
    listed_of_length hnodup howned hlen hi
  -- so every live instruction was checked in the module that it belongs to
  have hall : ∀ {i inst}, p.instr? i = some inst → ∃ module l₁ l₂,
      p.body inst.owner = l₁ ++ i :: l₂ ∧ p.body inst.owner = module.body ∧
        p.CheckedAt inst.owner module l₁ i l₁.length inst := by
    intro i inst hi
    obtain ⟨module, l₁, l₂, inst', he, hb, h⟩ := hsplit (hlisted hi)
    have hi' := h.alive
    rw [hi] at hi'
    cases hi'
    exact ⟨module, l₁, l₂, he, hb, h⟩
  have hedges : ∀ {i inst}, p.instr? i = some inst → (∀ x ∈ inst.inputs, ∃ q,
      p.instr? x = some q ∧ i ∈ q.consumers) ∧ (∀ c ∈ inst.consumers, p.Uses c i) ∧
        inst.consumers.Nodup := fun hi => by
    obtain ⟨_, _, _, -, -, h⟩ := hall hi
    exact edgesInverse_iff.mp h.inverse
  have hordered : ∀ {i inst x}, p.instr? i = some inst → x ∈ inst.inputs →
      Before (p.body inst.owner) x i := fun hi hx => by
    obtain ⟨_, l₁, l₂, he, -, h⟩ := hall hi
    exact before_iff.mpr ⟨l₁, l₂, he, h.ordered _ hx⟩
  refine { nodup := hnodup, owned := fun hi => howned _ _ hi, listed := hlisted,
           ordered := hordered, mirrored := ?_, distinct := fun hi => (hedges hi).2.2,
           returns := ?_, referenced := ?_, fresh := ?_ }
  · intro i inst c hi
    refine ⟨fun hc => (hedges hi).2.1 c hc, ?_⟩
    rintro ⟨cinst, hc, hx⟩
    obtain ⟨q, hq, hcq⟩ := (hedges hc).1 i hx
    rw [hi] at hq
    cases hq
    exact hcq
  · intro i inst hi hret
    obtain ⟨module, l₁, l₂, he, hb, h⟩ := hall hi
    have hlen := h.last hret
    rw [← hb, he, List.length_append, List.length_cons] at hlen
    have hnil : l₂ = [] := List.eq_nil_of_length_eq_zero (by omega)
    rw [he, hnil]
    simp
  · intro i inst k hi hk
    obtain ⟨_, _, _, -, -, h⟩ := hall hi
    exact h.referenced k hk
  · intro i inst hi
    obtain ⟨_, _, _, -, -, h⟩ := hall hi
    exact h.fresh

theorem Valid.checked (h : p.Valid) (hm : p.module? m = some module) {l₁ l₂ : List InstrId}
    (he : module.body = l₁ ++ i :: l₂) : ∃ inst, p.CheckedAt m module l₁ i l₁.length inst := by
  have hb : p.body m = l₁ ++ i :: l₂ := (body_of_module? hm).trans he
  have hn : (l₁ ++ i :: l₂).Nodup := hb ▸ h.nodup m
  obtain ⟨inst, hi, rfl⟩ := h.owned (m := m) (i := i) (by simp [hb])
  refine ⟨inst, hi, rfl, ?_, fun x hx => ?_, ?_, fun hret => ?_, fun k hk => h.referenced hi hk,
    h.fresh hi⟩
  · exact fun hmem => (List.nodup_append.mp hn).2.2 i hmem i List.mem_cons_self rfl
  · exact (before_append_cons hn).mp (hb ▸ h.ordered hi hx)
  · refine edgesInverse_iff.mpr ⟨fun x hx => ?_, fun c hc => (h.mirrored hi).mp hc, h.distinct hi⟩
    obtain ⟨q, hq, -⟩ := h.operand hi hx
    exact ⟨q, hq, (h.mirrored hq).mpr ⟨inst, hi, hx⟩⟩
  · have hnil := (getLast?_append_cons hn).mp (hb ▸ h.returns hi hret)
    rw [he, hnil]
    simp

/-- **The verifier accepts exactly the valid programs.** -/
theorem verify_ok : p.verify = .ok u ↔ p.Valid := by
  rw [verify_ok_iff]
  exact ⟨fun h => valid_of_checked h.1 h.2,
    fun h => ⟨fun m module hm l₁ i l₂ he => h.checked hm he, h.length_listed⟩⟩

/-! ## Consequences -/

/-- The region of an offload call takes the operands as its parameters, up to strides, and returns
the elements of the type of the call. -/
theorem Valid.offload (h : p.Valid) (hi : p.instr? i = some inst) {anchor : Op}
    (hop : inst.op = .offload anchor) : ∃ region signature, inst.modules = [region] ∧
      p.signature region = .ok signature ∧ signature.returns = inst.type.elements ∧
      List.Forall₂ (fun param operand => ∃ t u, p.HasType param (.tensor t) ∧
        p.HasType operand (.tensor u) ∧ t.dtype = u.dtype ∧ t.shape = u.shape)
        (p.parameters region) inst.inputs := by
  obtain ⟨types, signatures, htypes, hsigs, hinfer⟩ := infer_ok.mp (h.fresh hi)
  rw [hop] at hinfer
  obtain ⟨tensors, body, rfl, rfl, hparams, hreturns⟩ := Op.inferType_offload hinfer
  obtain ⟨region, rest, hsig, hrest, hmodules⟩ := List.forall₂_cons_right_iff.mp hsigs
  rw [List.forall₂_nil_right_iff.mp hrest] at hmodules
  obtain ⟨-, -, hparamTypes, -⟩ := signature_ok.mp hsig
  have hoperands : List.Forall₂ (fun param operand => ∃ t, p.HasType operand (.tensor t) ∧
      t.sameShape param = true) body.params inst.inputs := by
    rw [List.forall₂_map_right_iff] at htypes
    refine forall₂_comp (fun {param t operand} hs ht => ?_) hparams.flip htypes.flip
    exact ⟨t, ht, hs⟩
  refine ⟨region, body, hmodules, hsig, hreturns, forall₂_comp (fun {param t operand} ht hu => ?_)
    hparamTypes hoperands⟩
  obtain ⟨u, hu, hs⟩ := hu
  obtain ⟨hd, hsh⟩ := TensorType.sameShape_iff.mp hs
  exact ⟨t, u, ht, hu, hd.symm, hsh.symm⟩

/-- **The verifier is sound and complete.** It accepts a program exactly if modules list their own
live instructions, each once, and all of them; operands come first in the same module; consumer
lists are inverse to operands; returns are last; referenced modules are others that are there; and
stored types are the inferred ones. Then instructions do not reach each other both ways, and regions
fit their calls. -/
theorem verify_sound_complete (p : Program) :
    (p.verify = .ok () ↔
      (∀ m module, p.module? m = some module → module.body.Nodup ∧
        ∀ i ∈ module.body, ∃ inst, p.instr? i = some inst ∧ inst.owner = m) ∧
      (∀ i inst, p.instr? i = some inst → ∃ m, i ∈ p.body m) ∧
      (∀ i inst, p.instr? i = some inst → ∀ x ∈ inst.inputs, Before (p.body inst.owner) x i) ∧
      (∀ i inst, p.instr? i = some inst → inst.consumers.Nodup ∧
        ∀ c, c ∈ inst.consumers ↔ ∃ cinst, p.instr? c = some cinst ∧ i ∈ cinst.inputs) ∧
      (∀ i inst, p.instr? i = some inst → inst.op.isReturn = true →
        (p.body inst.owner).getLast? = some i) ∧
      (∀ i inst, p.instr? i = some inst → ∀ k ∈ inst.modules,
        (p.module? k).isSome ∧ k ≠ inst.owner) ∧
      (∀ i inst, p.instr? i = some inst →
        p.infer inst.op inst.inputs inst.modules = .ok inst.type)) ∧
    (p.verify = .ok () →
      (∀ a b, p.reaches a b = true → p.reaches b a = true → a = b) ∧
      (∀ i inst anchor, p.instr? i = some inst → inst.op = .offload anchor →
        ∃ region signature, inst.modules = [region] ∧ p.signature region = .ok signature ∧
          signature.returns = inst.type.elements ∧
          List.Forall₂ (fun param operand => ∃ t u, p.HasType param (.tensor t) ∧
            p.HasType operand (.tensor u) ∧ t.dtype = u.dtype ∧ t.shape = u.shape)
            (p.parameters region) inst.inputs)) := by
  rw [verify_ok]
  refine ⟨⟨fun h => ?_, ?_⟩, fun h => ⟨fun a b hab hba => ?_, fun i inst anchor hi hop => ?_⟩⟩
  · refine ⟨fun m module hm => ?_, fun i inst hi => ⟨_, h.listed hi⟩,
      fun i inst hi x hx => h.ordered hi hx,
      fun i inst hi => ⟨h.distinct hi, fun c => h.mirrored hi⟩,
      fun i inst hi => h.returns hi, fun i inst hi k hk => h.referenced hi hk,
      fun i inst hi => h.fresh hi⟩
    rw [← body_of_module? hm]
    exact ⟨h.nodup m, fun i hi => h.owned hi⟩
  · rintro ⟨hown, hlisted, hordered, hedges, hreturns, href, hfresh⟩
    have howned : ∀ {m i}, i ∈ p.body m → ∃ inst, p.instr? i = some inst ∧ inst.owner = m := by
      intro m i hi
      obtain ⟨module, hm, hb⟩ := module?_of_mem_body hi
      exact (hown m module hm).2 i (hb ▸ hi)
    refine { nodup := fun m => ?_, owned := howned, listed := ?_,
             ordered := fun hi hx => hordered _ _ hi _ hx,
             mirrored := fun hi => (hedges _ _ hi).2 _, distinct := fun hi => (hedges _ _ hi).1,
             returns := fun hi => hreturns _ _ hi, referenced := fun hi hk => href _ _ hi _ hk,
             fresh := fun hi => hfresh _ _ hi }
    · cases hm : p.module? m with
      | none => simp [body, hm]
      | some module => exact body_of_module? hm ▸ (hown m module hm).1
    · intro i inst hi
      obtain ⟨m, hm⟩ := hlisted i inst hi
      obtain ⟨inst', hi', rfl⟩ := howned hm
      rw [hi] at hi'
      cases hi'
      exact hm
  · exact h.dependsOn_antisymm (reaches_iff.mp hab) (reaches_iff.mp hba)
  · exact h.offload hi hop

end OffloadFusion.Program
