import OffloadFusion.Proofs.Residue

/-!
# The interface of a program

What changes of the main module keep for those who call it.

* `Interface p q`: the same parameters with the same types, and the same return with operands of the
  same element types and dimensions.
* `Evolved p q`: how building and rewiring in the main module change a program. All instructions
  stay, and boundary operations too; what comes is glue.
* `Shrunk p q`: how removals change it. What is left is the same, up to consumers.
-/

namespace OffloadFusion

/-- The operation may stand in for the other one: boundary operations stay. -/
def Op.StandsFor (a b : Op) : Prop := a = b ∨ (a.isBoundary = false ∧ b.isBoundary = false)

namespace Op.StandsFor

variable {a b c : Op}

theorem refl (a : Op) : a.StandsFor a := .inl rfl

theorem trans (h : a.StandsFor b) (h' : b.StandsFor c) : a.StandsFor c := by
  obtain rfl | ⟨ha, hb⟩ := h
  · exact h'
  obtain rfl | ⟨hb, hc⟩ := h'
  · exact .inr ⟨ha, hb⟩
  · exact .inr ⟨ha, hc⟩

theorem isBoundary (h : a.StandsFor b) : a.isBoundary = b.isBoundary := by
  obtain rfl | ⟨ha, hb⟩ := h
  · rfl
  · rw [ha, hb]

theorem isParam (h : a.StandsFor b) : a.isParam = b.isParam := by
  obtain rfl | ⟨ha, hb⟩ := h
  · rfl
  · simp only [Op.isBoundary, Bool.or_eq_false_iff] at ha hb
    rw [ha.1.1, hb.1.1]

theorem isReturn (h : a.StandsFor b) : a.isReturn = b.isReturn := by
  obtain rfl | ⟨ha, hb⟩ := h
  · rfl
  · simp only [Op.isBoundary, Bool.or_eq_false_iff] at ha hb
    rw [ha.2, hb.2]

end Op.StandsFor

namespace Program

variable {p q r : Program} {i j new old : InstrId} {n : Nat} {inst : Instruction} {op : Op}
  {inputs : List InstrId} {modules : List ModuleId} {type : ValueType} {u : Unit}

/-! ## The interface -/

/-- The main module takes the same parameters and returns values of the same dimensions. -/
structure Interface (p q : Program) : Prop where
  parameters : q.parameters main = p.parameters main
  types : ∀ {i t}, i ∈ p.parameters main → p.HasType i t → q.HasType i t
  returns : ∀ {r}, p.return? main = some r → q.return? main = some r
  alike : ∀ {r a b}, p.return? main = some r → p.HasType r a → q.HasType r b → a.Alike b

namespace Interface

theorem refl (p : Program) : Interface p p :=
  ⟨rfl, fun _ ht => ht, id, fun _ ha hb => hasType_unique ha hb ▸ .refl _⟩

theorem trans (h : Interface p q) (h' : Interface q r) : Interface p r := by
  refine ⟨h'.parameters.trans h.parameters, fun hi ht => ?_, fun hr => h'.returns (h.returns hr),
    fun {i a c} hr ha hc => ?_⟩
  · exact h'.types (h.parameters.symm ▸ hi) (h.types hi ht)
  · obtain ⟨inst, hi, -⟩ := hasOp_iff.mp (return?_eq_some.mp (h.returns hr)).2
    have hb : q.HasType i inst.type := ⟨inst, hi, rfl⟩
    exact (h.alike hr ha hb).trans (h'.alike (h.returns hr) hb hc)

end Interface

/-! ## Modules that go on -/

/-- The instructions have the same operation, operands and modules, and alike types. -/
structure SameStep (a b : Instruction) : Prop where
  op : a.op = b.op
  inputs : a.inputs = b.inputs
  modules : a.modules = b.modules
  type : a.type.Alike b.type

namespace SameStep

variable {a b c : Instruction}

theorem of_core (h : a.core = b.core) : SameStep a b := by
  obtain ⟨hop, hin, hmodules, hty, -⟩ := Instruction.core_eq_iff.mp h
  exact ⟨hop, hin, hmodules, hty ▸ .refl _⟩

theorem trans (h : SameStep a b) (h' : SameStep b c) : SameStep a c :=
  ⟨h.op.trans h'.op, h.inputs.trans h'.inputs, h.modules.trans h'.modules, h.type.trans h'.type⟩

end SameStep

/-- The module has the same parameters and the same last instruction, and what is left of its
instructions is the same up to strides. -/
structure Inherits (p q : Program) (k : ModuleId) : Prop where
  parameters : q.parameters k = p.parameters k
  last : (q.body k).getLast? = (p.body k).getLast?
  left : ∀ {i b}, i ∈ q.body k → q.instr? i = some b →
    i ∈ p.body k ∧ ∃ a, p.instr? i = some a ∧ SameStep a b

namespace Inherits

variable {k m : ModuleId}

theorem refl (p : Program) (k : ModuleId) : Inherits p p k :=
  ⟨rfl, rfl, fun hi hb => ⟨hi, _, hb, .of_core rfl⟩⟩

theorem trans (h : Inherits p q k) (h' : Inherits q r k) : Inherits p r k := by
  refine ⟨h'.parameters.trans h.parameters, h'.last.trans h.last, fun hi hc => ?_⟩
  obtain ⟨hi, b, hb, hbc⟩ := h'.left hi hc
  obtain ⟨hi, a, ha, hab⟩ := h.left hi hb
  exact ⟨hi, a, ha, hab.trans hbc⟩

theorem of_body (hb : q.body k = p.body k)
    (h : ∀ {i a}, i ∈ p.body k → p.instr? i = some a → ∃ b, q.instr? i = some b ∧ SameStep a b)
    (hl : p.Linked) : Inherits p q k := by
  have hstep : ∀ {i b}, i ∈ p.body k → q.instr? i = some b →
      ∃ a, p.instr? i = some a ∧ SameStep a b := by
    intro i b hi hb
    obtain ⟨a, ha, -⟩ := hl.owned hi
    obtain ⟨b', hb', hab⟩ := h hi ha
    rw [hb] at hb'
    cases hb'
    exact ⟨a, ha, hab⟩
  refine ⟨?_, by rw [hb], fun hi hq => ⟨hb ▸ hi, hstep (hb ▸ hi) hq⟩⟩
  rw [Program.parameters, Program.parameters, hb]
  refine List.filter_congr fun i hi => ?_
  obtain ⟨a, ha, -⟩ := hl.owned hi
  obtain ⟨b, hq, hab⟩ := h hi ha
  rw [hasOp, hasOp, ha, hq, Option.any_some, Option.any_some, hab.op]

theorem of_local (h : Local m p q) (hl : p.Linked) (hk : k ≠ m) : Inherits p q k := by
  refine of_body (h.body hk) (fun hi ha => ?_) hl
  obtain ⟨b, hb, hc⟩ := (h.core hk hi).symm.exists_instr ha
  exact ⟨b, hb, .of_core hc⟩

end Inherits

/-! ## Building and rewiring -/

/-- All instructions stay where they are with values of the same dimensions, and boundary
operations stay. -/
structure Evolved (p q : Program) : Prop where
  inner : ∀ {k}, k ≠ main → (p.module? k).isSome → (q.module? k).isSome ∧ Inherits p q k
  kept : ∀ {j inst}, p.instr? j = some inst → ∃ inst', q.instr? j = some inst' ∧
    inst'.owner = inst.owner ∧ inst'.op.StandsFor inst.op ∧ inst.type.Alike inst'.type
  parameters : q.parameters main = p.parameters main
  returns : ∀ {r}, p.return? main = some r → q.return? main = some r
  residue : Residue p q

namespace Evolved

theorem refl (p : Program) : Evolved p p :=
  ⟨fun _ hk => ⟨hk, .refl p _⟩, fun hj => ⟨_, hj, rfl, .refl _, .refl _⟩, rfl, id, .refl p⟩

theorem trans (h : Evolved p q) (h' : Evolved q r) : Evolved p r := by
  refine ⟨fun hne hk => ?_, fun hj => ?_, h'.parameters.trans h.parameters,
    fun hr => h'.returns (h.returns hr), h.residue.trans h'.residue⟩
  · obtain ⟨hq, hpq⟩ := h.inner hne hk
    obtain ⟨hr, hqr⟩ := h'.inner hne hq
    exact ⟨hr, hpq.trans hqr⟩
  obtain ⟨b, hb, ho, hop, hty⟩ := h.kept hj
  obtain ⟨c, hc, ho', hop', hty'⟩ := h'.kept hb
  exact ⟨c, hc, ho'.trans ho, hop'.trans hop, hty.trans hty'⟩

end Evolved

theorem Evolved.interface (h : Evolved p q) (hp : p.Steady (some main))
    (hq : q.Steady (some main)) : Interface p q := by
  refine ⟨h.parameters, fun {i t} hi ht => ?_, h.returns, fun {i a b} _ ha hb => ?_⟩
  · have hmem := List.mem_of_mem_filter hi
    obtain ⟨inst, hi', hparam⟩ := hasOp_iff.mp (List.mem_filter.mp hi).2
    obtain ⟨name, s, hop, hty, -⟩ := (hp.fresh_own hmem).type_of_param hi' hparam
    have hmem' := List.mem_of_mem_filter (h.parameters.symm ▸ hi)
    obtain ⟨inst', hq', -, hfor, -⟩ := h.kept hi'
    obtain he | ⟨-, hb⟩ := hfor
    · obtain ⟨name', s', hop', hty', -⟩ :=
        (hq.fresh_own hmem').type_of_param hq' (he ▸ hparam)
      rw [he, hop] at hop'
      cases hop'
      obtain ⟨a, ha, rfl⟩ := ht
      rw [hi'] at ha
      cases ha
      exact ⟨inst', hq', hty'.trans hty.symm⟩
    · rw [hop] at hb
      cases hb
  · obtain ⟨inst, hi, rfl⟩ := ha
    obtain ⟨inst', hq', -, -, hty⟩ := h.kept hi
    obtain ⟨a, ha, rfl⟩ := hb
    rw [hq'] at ha
    cases ha
    exact hty

/-- A change of the main module by building and rewiring that ends in a program whose types are
fresh, up to those of the instructions that carry the main module. -/
structure Advance (p q : Program) : Prop where
  steady : q.Steady (some main)
  free : p.Free main → q.Free main
  evolved : Evolved p q

namespace Advance

theorem refl (h : p.Steady (some main)) : Advance p p := ⟨h, id, .refl p⟩

theorem trans (h : Advance p q) (h' : Advance q r) : Advance p r :=
  ⟨h'.steady, fun hfree => h'.free (h.free hfree), h.evolved.trans h'.evolved⟩

theorem mem_body (h : Advance p q) (hl : p.Linked) (hi : i ∈ p.body main) : i ∈ q.body main := by
  obtain ⟨inst, hinst, ho⟩ := hl.owned hi
  obtain ⟨inst', hinst', ho', -, -⟩ := h.evolved.kept hinst
  have hmem := h.steady.listed hinst'
  rwa [ho', ho] at hmem

end Advance

theorem filter_insertIdx {l : List InstrId} {f : InstrId → Bool} (hn : n ≤ l.length)
    (hi : f i = false) : (l.insertIdx n i).filter f = l.filter f := by
  rw [insertIdx_eq_take_drop hn, List.filter_append, List.filter_cons_of_neg (by simp [hi]),
    ← List.filter_append, List.take_append_drop]

/-- **An insertion of glue into the main module.** -/
theorem Steady.advance_insertAt (h : p.Steady (some main)) (hend : p.EndSafe main n op)
    (hglue : op.isGlue = true) (hmod : main ∉ modules)
    (hok : Edit.insertAt main n op inputs modules p = .ok i q) : Advance p q := by
  have hop := Op.isBoundary_of_isGlue hglue
  have hl := h.toLinked
  have hins := inserted_of_ok hl hok
  have hne : ∀ {j inst}, p.instr? j = some inst → j ≠ i := by
    rintro j inst hj rfl
    rw [hins.gone] at hj
    cases hj
  refine ⟨h.insertAt sparesAny_some.mp hend hmod hok, fun hfree => hins.free hfree hmod,
    fun {k} hk halive => ?_,
    fun {j inst} hj => ?_, ?_, fun {r} hr => ?_, .of_sameCore fun {j b} hj hb hb' => ?_⟩
  · exact ⟨by rwa [hins.isLocal.module? hk], .of_local hins.isLocal hl hk⟩
  · obtain ⟨inst', hq, hc⟩ := (hins.old (hne hj)).symm.exists_instr hj
    obtain ⟨hop, -, -, hty, ho⟩ := Instruction.core_eq_iff.mp hc
    exact ⟨inst', hq, ho.symm, .inl hop.symm, hty ▸ .refl _⟩
  · have hnew : q.hasOp Op.isParam i = false := by
      obtain ⟨type, -, hq⟩ := hins.new
      simp only [Op.isBoundary, Bool.or_eq_false_iff] at hop
      rw [hasOp, hq]
      exact hop.1.1
    rw [parameters, hins.body, filter_insertIdx hend.le hnew, parameters]
    refine List.filter_congr fun j hj => (hins.old ?_).hasOp _
    obtain ⟨inst, hi, -⟩ := h.owned hj
    exact hne hi
  · obtain ⟨hlast, hret⟩ := return?_eq_some.mp hr
    rw [return?_eq_some, hins.body]
    obtain ⟨he, -⟩ | ⟨-, hnone⟩ := hend.getLast? (x := i)
    · obtain ⟨inst, hi, -⟩ := hasOp_iff.mp hret
      exact ⟨he.trans hlast, ((hins.old (hne hi)).hasOp _).trans hret⟩
    · rw [hr] at hnone
      cases hnone
  · have hji : j ≠ i := by
      rintro rfl
      obtain ⟨type, -, hnew⟩ := hins.new
      cases hb.symm.trans hnew
      exact absurd (hglue.symm.trans hb') Bool.true_eq_false.mp
    rw [hins.body, List.mem_insertIdx hend.le] at hj
    obtain ⟨a, ha, hc⟩ := (hins.old hji).exists_instr hb
    refine ⟨hj.resolve_left hji, hins.old hji, fun x hx => hins.old ?_⟩
    rw [(Instruction.core_eq_iff.mp hc).2.1] at hx
    obtain ⟨xinst, hxi, -⟩ := hl.operand ha hx
    exact hne hxi

/-- A change that keeps the order of the main module, and of each instruction what matters. -/
theorem evolved_of_kept (hb : q.body main = p.body main) (hl : p.Linked)
    (hinner : ∀ {k}, k ≠ main → (p.module? k).isSome → (q.module? k).isSome ∧ Inherits p q k)
    (hkept : ∀ {j inst}, p.instr? j = some inst → ∃ inst', q.instr? j = some inst' ∧
      inst'.owner = inst.owner ∧ inst'.op.StandsFor inst.op ∧ inst.type.Alike inst'.type)
    (hres : Residue p q) : Evolved p q := by
  have hhas : ∀ {test : Op → Bool}, (∀ {a b : Op}, a.StandsFor b → test a = test b) →
      ∀ {j}, j ∈ p.body main → q.hasOp test j = p.hasOp test j := by
    intro test htest j hj
    obtain ⟨inst, hi, -⟩ := hl.owned hj
    obtain ⟨inst', hi', -, hfor, -⟩ := hkept hi
    rw [hasOp, hasOp, hi, hi']
    exact htest hfor
  refine ⟨hinner, hkept, ?_, fun {r} hr => ?_, hres⟩
  · rw [parameters, parameters, hb]
    exact List.filter_congr fun j hj => hhas Op.StandsFor.isParam hj
  · obtain ⟨hlast, hret⟩ := return?_eq_some.mp hr
    rw [return?_eq_some, hb, hhas Op.StandsFor.isReturn (List.mem_of_getLast? hlast)]
    exact ⟨hlast, hret⟩

/-- **Replacing an operand everywhere in the main module.** -/
theorem Steady.advance_replaceInstruction (h : p.Steady (some main))
    (hnew : new ∈ p.body main) (hok : Edit.replaceInstruction old new p = .ok u q) :
    Advance p q := by
  obtain ⟨hq, hr, hs⟩ := h.replaceInstruction hnew hok
  obtain ⟨oldInst, newInst, m, n, module, ho, hn, hsame, hloc, hm, hcheck, -⟩ :=
    Edit.replaceInstruction_ok.mp hok
  refine ⟨hq.steady, hr.free, evolved_of_kept (hr.body main) h.toLinked (fun {k} hk halive => ?_)
    (fun {j inst} hj => ?_) (.of_shaped hq.shaped hq.framed.toLinked fun {j b} hj hb _ => ?_)⟩
  · refine ⟨by rwa [hr.module?], .of_body (hr.body k) (fun {j a} hj ha => ?_) h.toLinked⟩
    obtain ⟨b, hb, hop, hmodules, -⟩ := Instruction.exists_of_outline (hr.outline j).symm ha
    obtain ⟨a', ha', hinputs⟩ := hs.operands hb
    rw [ha] at ha'
    cases ha'
    have hty := hq.shaped.stored hb
    rw [typeAt_eq ⟨a, ha, rfl⟩] at hty
    refine ⟨b, hb, hop, ?_, hmodules, hty⟩
    -- the swapped operand belongs to the main module
    refine List.forall₂_eq_eq_eq ▸ forall₂_imp_of_mem hinputs fun x hx y hxy => ?_
    obtain rfl | ⟨rfl, -⟩ := hxy
    · rfl
    have hread : j ∈ p.body main := by
      by_cases hjn : j = new
      · exact hjn ▸ hnew
      obtain ⟨place, hplace, -⟩ := hcheck j ((h.mirrored ho).mpr ⟨a, ha, hx⟩) hjn
      obtain ⟨newInst', -, hn', rfl, -, -⟩ := locate_ok.mp hloc
      rw [hn] at hn'
      cases hn'
      rw [h.owner_unique hn hnew] at hm
      rw [body_of_module? hm]
      exact List.mem_of_mem_take (mem_take_of_idxOf? hplace (Nat.lt_succ_self place))
    exact absurd ((h.owner_unique ha hj).symm.trans (h.owner_unique ha hread)) hk
  · obtain ⟨inst', hj', hop, -, ho⟩ := Instruction.exists_of_outline (hr.outline j).symm hj
    refine ⟨inst', hj', ho.symm, .inl hop.symm, ?_⟩
    have hty := hq.shaped.stored hj'
    rwa [typeAt_eq ⟨inst, hj, rfl⟩] at hty
  · obtain ⟨a, ha, hop, hmodules, -⟩ := hr.exists_instr hb
    obtain ⟨a', ha', hinputs⟩ := hs.operands hb
    cases ha.symm.trans ha'
    refine ⟨hr.body main ▸ hj, a, ha, hop.symm, hmodules.symm, hinputs.imp fun x y hxy => ?_⟩
    obtain rfl | ⟨rfl, rfl⟩ := hxy
    · exact .refl _
    · rw [typeAt_eq ⟨oldInst, ho, rfl⟩, typeAt_eq ⟨newInst, hn, rfl⟩]
      exact ValueType.sameShape_iff.mp hsame

/-- An instruction of the main module was rebuilt as glue on other operands. -/
structure Glued (i : InstrId) (op : Op) (inputs : List InstrId) (modules : List ModuleId)
    (p q : Program) : Prop extends Advance p q where
  rebuilt : Rebuilt i op inputs modules p q
  spent : q.Spent i
  reads : ∀ {x}, q.Uses i x → x ∈ inputs
  others : ∀ {j x}, j ≠ i → q.Uses j x → p.Uses j x

/-- **Rebuilding an instruction of the main module as glue.** -/
theorem Steady.advance_replaceWith (h : p.Steady (some main)) (hi : i ∈ p.body main)
    (hop : ∀ {inst}, p.instr? i = some inst → op.StandsFor inst.op) (hglue : op.isGlue = true)
    (hmod : main ∉ modules) (hok : Edit.replaceWith i op inputs modules p = .ok u q) :
    Glued i op inputs modules p q := by
  have hmem := hi
  obtain ⟨old, hi, ho⟩ := h.owned hi
  obtain ⟨hq, hr⟩ := Steady.replaceWith (ho.symm ▸ h) hi (fun hret => (hop hi).isReturn ▸ hret)
    (ho ▸ hmod) hok
  rw [ho] at hq
  have hb : q.body main = p.body main := by rw [body, hr.module?, body]
  have hspent : q.Spent i := fun b _ hb => by
    obtain ⟨a, ha, rfl, -⟩ := hr.self hi
    cases hb.symm.trans ha
    exact hglue
  refine ⟨⟨hq.steady, fun hfree => hr.free hi hfree hmod,
    evolved_of_kept hb h.toLinked (fun {k} hk halive => ?_)
    (fun {j inst} hj => ?_) (.of_shaped hq.shaped hq.framed.toLinked fun {j b} hj hb' hb'' => ?_)⟩,
    hr, hspent, fun {x} hu => ?_, fun {j x} hji hu => ?_⟩
  · have hbk : q.body k = p.body k := by rw [body, hr.module?, body]
    refine ⟨by rwa [hr.module?], .of_body hbk (fun {j a} hj ha => ?_) h.toLinked⟩
    have hji : j ≠ i := by
      rintro rfl
      exact hk ((h.owner_unique ha hj).symm.trans (h.owner_unique ha hmem))
    obtain ⟨b, hb, hop, hmodules, -⟩ := Instruction.exists_of_outline (hr.outline hji).symm ha
    have hinputs := hr.operands hji
    rw [ha, hb, Option.map_some, Option.map_some, Option.some.injEq] at hinputs
    have hty := hq.shaped.stored hb
    rw [typeAt_eq ⟨a, ha, rfl⟩] at hty
    exact ⟨b, hb, hop, hinputs.symm, hmodules, hty⟩
  · have htype : ∀ {a}, q.instr? j = some a → inst.type.Alike a.type := by
      intro a ha
      have hty := hq.shaped.stored ha
      rwa [typeAt_eq ⟨inst, hj, rfl⟩] at hty
    by_cases hji : j = i
    · subst hji
      obtain ⟨a, ha, rfl, -, -, hao⟩ := hr.self hj
      exact ⟨a, ha, hao, hop hj, htype ha⟩
    · obtain ⟨a, ha, hop', -, hao⟩ := Instruction.exists_of_outline (hr.outline hji).symm hj
      exact ⟨a, ha, hao.symm, .inl hop'.symm, htype ha⟩
  · have hji : j ≠ i := by
      rintro rfl
      exact absurd ((hspent b hj hb').symm.trans hb'') Bool.true_eq_false.mp
    obtain ⟨a, ha, hop', hmodules, -⟩ := Instruction.exists_of_outline (hr.outline hji) hb'
    have hinputs := hr.operands hji
    rw [ha, hb', Option.map_some, Option.map_some, Option.some.injEq] at hinputs
    refine ⟨hb ▸ hj, a, ha, hop'.symm, hmodules.symm, hinputs ▸ ?_⟩
    exact List.forall₂_same.mpr fun _ _ => .refl _
  · obtain ⟨b, hb', hx⟩ := hu
    obtain ⟨a, ha, -, rfl, -⟩ := hr.self hi
    cases hb'.symm.trans ha
    exact hx
  · obtain ⟨b, hb', hx⟩ := hu
    obtain ⟨a, ha, -⟩ := Instruction.exists_of_outline (hr.outline hji) hb'
    have hinputs := hr.operands hji
    rw [ha, hb', Option.map_some, Option.map_some, Option.some.injEq] at hinputs
    exact ⟨a, ha, hinputs ▸ hx⟩

/-! ## Removals -/

/-- What is left is the same, and so are the parameters and the last instructions of the modules
that are left; the main module keeps its return. -/
structure Shrunk (p q : Program) : Prop where
  inner : ∀ {k}, k ≠ main → (q.module? k).isSome → (p.module? k).isSome ∧ Inherits p q k
  left : ∀ {j inst}, q.instr? j = some inst → ∃ inst', p.instr? j = some inst' ∧
    inst.core = inst'.core
  parameters : q.parameters main = p.parameters main
  returns : ∀ {r}, p.return? main = some r → q.return? main = some r

namespace Shrunk

theorem refl (p : Program) : Shrunk p p :=
  ⟨fun _ hk => ⟨hk, .refl p _⟩, fun hj => ⟨_, hj, rfl⟩, rfl, id⟩

theorem trans (h : Shrunk p q) (h' : Shrunk q r) : Shrunk p r := by
  refine ⟨fun hne hk => ?_, fun hj => ?_, h'.parameters.trans h.parameters,
    fun hr => h'.returns (h.returns hr)⟩
  · obtain ⟨hq, hqr⟩ := h'.inner hne hk
    obtain ⟨hp, hpq⟩ := h.inner hne hq
    exact ⟨hp, hpq.trans hqr⟩
  obtain ⟨b, hb, hc⟩ := h'.left hj
  obtain ⟨a, ha, hc'⟩ := h.left hb
  exact ⟨a, ha, hc.trans hc'⟩

theorem free (h : Shrunk p q) {m : ModuleId} (hfree : p.Free m) : q.Free m := by
  intro j inst hj
  obtain ⟨inst', hj', hc⟩ := h.left hj
  exact (Instruction.core_eq_iff.mp hc).2.2.1 ▸ hfree j inst' hj'

theorem residue (h : Shrunk p q) (hp : p.Linked) (hq : q.Linked) : Residue p q := by
  have hcore : ∀ {j b}, q.instr? j = some b → SameCore p q j := fun {j b} hj => by
    obtain ⟨a, ha, hc⟩ := h.left hj
    rw [SameCore, hj, ha, Option.map_some, Option.map_some, hc]
  refine .of_sameCore fun {i b} hi hb _ => ⟨?_, hcore hb, fun x hx => ?_⟩
  · obtain ⟨a, ha, hc⟩ := h.left hb
    have hmem := hp.listed ha
    rwa [← (Instruction.core_eq_iff.mp hc).2.2.2.2, hq.owner_unique hb hi] at hmem
  · obtain ⟨xinst, hxi, -⟩ := hq.operand hb hx
    exact hcore hxi

theorem interface (h : Shrunk p q) : Interface p q := by
  refine ⟨h.parameters, fun {i t} hi ht => ?_, h.returns, fun {i a b} _ ha hb => ?_⟩
  · rw [← h.parameters] at hi
    obtain ⟨inst, hi', -⟩ := hasOp_iff.mp (List.mem_filter.mp hi).2
    obtain ⟨inst', hp, hc⟩ := h.left hi'
    have hty := (Instruction.core_eq_iff.mp hc).2.2.2.1
    exact hasType_unique ⟨inst', hp, rfl⟩ ht ▸ ⟨inst, hi', hty⟩
  · obtain ⟨inst, hi, rfl⟩ := hb
    obtain ⟨inst', hp, hc⟩ := h.left hi
    rw [(Instruction.core_eq_iff.mp hc).2.2.2.1, hasType_unique ha ⟨inst', hp, rfl⟩]
    exact .refl _

end Shrunk

end Program

end OffloadFusion
