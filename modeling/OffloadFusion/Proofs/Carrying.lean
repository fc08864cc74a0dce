import OffloadFusion.Proofs.References
import OffloadFusion.Proofs.Relocation

/-!
# Carried modules

`p.Carries i op m k`: the instruction `i` of the module `m` carries `k`. A module is `Attached` if
something carries it, up to some that are still to be released.

* `attached_releaseModule`, `attached_prune`: a release follows up the references of what it
  removes, and so does pruning.
* **`Placing m call pending p q`**: on the way from `p` to `q` a new module `m` is put in place.
  Only `call` carries it, it carries what was nested in other modules before, and `pending` lost a
  reference and is to be released. Each edit of the main module has a lemma about it.
-/

namespace OffloadFusion

/-- Whether instructions of the operation carry modules. -/
def Op.carriesModules : Op → Bool
  | .pointwise | .splitFusedReduce _ | .offload _ => true
  | _ => false

open Typing in
theorem Op.signatures_eq_nil {op : Op} {types : List ValueType} {signatures : List Signature}
    {type : ValueType} (hop : op.carriesModules = false)
    (h : op.inferType types signatures = .ok type) : signatures = [] := by
  cases op <;>
    simp only [inferType, nullary, mapTensor, binaryOutput, selectOutput, clipOutput, scaledOutput,
      tupleElemOutput, Dot.output, Conv.output, Attention.output, carriesModules,
      Bool.true_eq_false, Outcome.bind_ok, Prod.exists, noModules_ok] at h hop <;>
    tauto

namespace Program

open Relation

variable {p q r : Program} {i j x : InstrId} {m k n : ModuleId} {inst : Instruction} {op : Op}
  {inputs : List InstrId} {modules pending pending' : List ModuleId} {fuel : Nat} {u : Unit}

/-- The instruction `i` of the module `m` carries `k`. -/
def Carries (p : Program) (i : InstrId) (op : Op) (m k : ModuleId) : Prop :=
  ∃ inst, p.instr? i = some inst ∧ inst.op = op ∧ inst.owner = m ∧ k ∈ inst.modules

theorem refers_iff_carries : p.Refers k m ↔ ∃ i op, p.Carries i op m k := by
  constructor
  · rintro ⟨i, inst, hi, ho, hk⟩
    exact ⟨i, inst.op, inst, hi, rfl, ho, hk⟩
  · rintro ⟨i, -, inst, hi, -, ho, hk⟩
    exact ⟨i, inst, hi, ho, hk⟩

theorem Carries.refers (h : p.Carries i op m k) : p.Refers k m := refers_iff_carries.mpr ⟨i, op, h⟩

theorem Carries.of_outline
    (h : (q.instr? i).map Instruction.outline = (p.instr? i).map Instruction.outline)
    (hc : q.Carries i op m k) : p.Carries i op m k := by
  obtain ⟨inst, hi, rfl, rfl, hk⟩ := hc
  obtain ⟨inst', hi', hop, hmodules, ho⟩ := Instruction.exists_of_outline h hi
  exact ⟨inst', hi', hop.symm, ho.symm, hmodules ▸ hk⟩

theorem SameCore.outline (h : SameCore p q i) :
    (q.instr? i).map Instruction.outline = (p.instr? i).map Instruction.outline := by
  have hcore : Instruction.outline = Instruction.outline ∘ Instruction.core := rfl
  rw [hcore, ← Option.map_map, show _ = _ from h, Option.map_map]

theorem Shrunk.carries (h : Shrunk p q) (hc : q.Carries i op m k) : p.Carries i op m k := by
  obtain ⟨inst, hi, rfl, rfl, hk⟩ := hc
  obtain ⟨inst', hi', hcore⟩ := h.left hi
  obtain ⟨hop, -, hmodules, -, ho⟩ := Instruction.core_eq_iff.mp hcore
  exact ⟨inst', hi', hop.symm, ho.symm, hmodules ▸ hk⟩

/-! ## Nested modules -/

/-- The main module refers to the module, directly or through others. -/
def Below (p : Program) (m : ModuleId) : Prop := TransGen p.Refers m main

/-- A module below the main one refers to the module. -/
def Nested (p : Program) (k : ModuleId) : Prop := ∃ m, p.Below m ∧ p.Refers k m

theorem Nested.below (h : p.Nested k) : p.Below k := by
  obtain ⟨m, hm, hk⟩ := h
  exact hm.head hk

theorem Below.alive (h : p.Below m) (hp : p.Framed) : (p.module? m).isSome := by
  obtain ⟨k, hk, -⟩ := TransGen.head'_iff.mp h
  exact hp.alive_of_refers hk

theorem Framed.below_of_mem (h : p.Framed) (hi : i ∈ p.body main) (hinst : p.instr? i = some inst)
    (hk : k ∈ inst.modules) : p.Below k :=
  .single ⟨i, inst, hinst, h.owner_unique hinst hi, hk⟩

/-! ## Attached modules -/

/-- Every module but the main one and some pending ones is referred to. -/
def Attached (p : Program) (pending : List ModuleId) : Prop :=
  ∀ k, (p.module? k).isSome → k ≠ main → k ∈ pending ∨ ∃ m, p.Refers k m

theorem Attached.mono (h : p.Attached pending) (hs : pending ⊆ pending') : p.Attached pending' :=
  fun k halive hk => (h k halive hk).imp_left fun hmem => hs hmem

theorem Attached.moduleRemoved {module : Module} (h : p.Attached (m :: pending)) (hl : p.Linked)
    (hm : p.module? m = some module) :
    (p.moduleRemoved m module).Attached (p.references m ++ pending) := by
  have hd := Dropped.of_moduleRemoved hl hm
  intro k halive hk
  rw [hd.module?] at halive
  split at halive
  · cases halive
  next hne =>
    obtain hmem | ⟨j, i, inst, hi, ho, hmem⟩ := h k halive hk
    · obtain hkm | hmem := List.mem_cons.mp hmem
      · exact absurd (List.mem_singleton.mpr hkm) hne
      · exact .inl (List.mem_append_right _ hmem)
    · by_cases hjm : inst.owner = m
      · have hlisted : i ∈ p.body m := hjm ▸ hl.listed hi
        exact .inl (List.mem_append_left _ (mem_references hlisted hi hmem))
      · have hleft := hd.instr?_of_owner hi fun hin => hjm (List.mem_singleton.mp hin)
        exact .inr ⟨j, i, inst, hleft, ho, hmem⟩

/-- **A release leaves what is still referred to.** -/
theorem attached_releaseFrom {stack : List ModuleId} (hl : p.Linked)
    (h : p.Attached (stack ++ pending)) (hok : Edit.releaseFrom fuel stack p = .ok u q) :
    q.Linked ∧ q.Attached pending := by
  induction fuel generalizing p stack with
  | zero =>
    cases stack with
    | nil =>
      cases hok
      exact ⟨hl, h⟩
    | cons m stack => cases hok
  | succ fuel ih =>
    cases stack with
    | nil =>
      cases hok
      exact ⟨hl, h⟩
    | cons m stack =>
      rw [Edit.releaseFrom, Action.get_bind_ok, Action.ite_ok] at hok
      obtain ⟨hkept, hok⟩ | ⟨-, hok⟩ := hok
      · refine ih hl (fun k halive hk => ?_) hok
        obtain hmem | hrefers := h k halive hk
        · obtain rfl | hmem := List.mem_cons.mp hmem
          · obtain hmain | hnone | href := hkept
            · exact absurd hmain hk
            · rw [Option.isNone_iff_eq_none.mp hnone] at halive
              cases halive
            · obtain ⟨e, he, hin⟩ := List.any_eq_true.mp href
              exact .inr ⟨e.2.owner, ⟨e.1⟩, e.2, Arena.mem_entries.mp he, rfl,
                (of_decide_eq_true hin).2⟩
          · exact .inl hmem
        · exact .inr hrefers
      · rw [Action.bind_ok] at hok
        obtain ⟨_, r, hr, hok⟩ := hok
        obtain ⟨-, module, hm, rfl⟩ := Edit.removeModule_ok.mp hr
        refine ih (hl.moduleRemoved hm) ((Attached.moduleRemoved h hl hm).mono fun k hk => ?_) hok
        simpa [List.mem_append, or_assoc] using hk

theorem attached_releaseModule (hl : p.Linked) (h : p.Attached (m :: pending))
    (hok : Edit.releaseModule m p = .ok u q) : q.Linked ∧ q.Attached pending := by
  rw [Edit.releaseModule, Action.get_bind_ok] at hok
  have hstack : p.Attached ([m] ++ pending) := h
  exact attached_releaseFrom hl hstack hok

theorem attached_releaseModules {ms : List ModuleId} (hl : p.Linked)
    (h : p.Attached (ms ++ pending)) (hok : ms.forM Edit.releaseModule p = .ok u q) :
    q.Linked ∧ q.Attached pending := by
  induction ms generalizing p with
  | nil =>
    cases hok
    exact ⟨hl, h⟩
  | cons m ms ih =>
    rw [List.forM, Action.bind_ok] at hok
    obtain ⟨_, r, hr, hok⟩ := hok
    obtain ⟨hlr, hattached⟩ := attached_releaseModule hl h hr
    exact ih hlr hattached hok

theorem Attached.removed {m : ModuleId} {n : Nat} (h : p.Attached pending) (hl : p.Linked)
    (hi : p.instr? i = some inst) (hloc : p.locate i = .ok (m, n)) :
    (p.removed i m n).Attached (inst.modules ++ pending) := by
  intro k halive hk
  rw [module?_removed hl hi hloc, Option.isSome_map] at halive
  obtain hmem | ⟨a, j, jinst, hj, ho, hmem⟩ := h k halive hk
  · exact .inl (List.mem_append_right _ hmem)
  · by_cases hji : j = i
    · subst hji
      cases hi.symm.trans hj
      exact .inl (List.mem_append_left _ hmem)
    · obtain ⟨jinst', hj', hcore⟩ := (sameCore_removed hi hji).symm.exists_instr hj
      obtain ⟨-, -, hmodules, -, hown⟩ := Instruction.core_eq_iff.mp hcore
      exact .inr ⟨a, j, jinst', hj', hown ▸ ho, hmodules ▸ hmem⟩

/-- **Pruning releases what the removed instructions carried.** -/
theorem attached_pruneFrom {stack : List InstrId} {removed : Nat} (hl : p.Linked)
    (h : p.Attached pending) (hok : Edit.pruneFrom fuel stack p = .ok removed q) :
    q.Attached pending := by
  induction fuel generalizing p stack removed with
  | zero =>
    cases stack with
    | nil =>
      cases hok
      exact h
    | cons i stack => cases hok
  | succ fuel ih =>
    cases stack with
    | nil =>
      cases hok
      exact h
    | cons i stack =>
      rw [Edit.pruneFrom, Action.get_bind_ok] at hok
      cases hinst : p.instr? i with
      | none =>
        rw [hinst] at hok
        exact ih hl h hok
      | some inst =>
        simp only [hinst, Action.ite_ok] at hok
        obtain ⟨-, hok⟩ | ⟨-, hok⟩ := hok
        · exact ih hl h hok
        simp only [Action.bind_ok, Action.pure_ok] at hok
        obtain ⟨_, p₁, h₁, _, p₂, h₂, _, p₃, h₃, -, rfl⟩ := hok
        obtain ⟨inst', m, n, hi, hc, hloc, rfl⟩ := Edit.removeInstruction_ok.mp h₁
        cases hinst.symm.trans hi
        obtain ⟨hl₂, hattached⟩ := attached_releaseModules (hl.removed hinst hloc hc)
          (h.removed hl hinst hloc) h₂
        exact ih hl₂ hattached h₃

theorem attached_prune {roots : List InstrId} {removed : Nat} (hl : p.Linked)
    (h : p.Attached pending) (hok : Edit.prune roots p = .ok removed q) : q.Attached pending := by
  rw [Edit.prune, Action.get_bind_ok] at hok
  exact attached_pruneFrom hl h hok

/-! ## Instructions that carry nothing -/

theorem Steady.modules_eq_nil (h : p.Steady (some main)) (hmem : i ∈ p.body main)
    (hi : p.instr? i = some inst) (hop : inst.op.carriesModules = false) : inst.modules = [] := by
  obtain ⟨types, signatures, -, hsigs, hinfer⟩ := infer_ok.mp (h.fresh_own hmem inst hi)
  rw [Op.signatures_eq_nil hop hinfer] at hsigs
  exact List.forall₂_nil_right_iff.mp hsigs

/-- Glue that reads a tuple carries nothing, as calls read tensors. -/
theorem Steady.modules_eq_nil_of_tuple (h : p.Steady (some main))
    (hmem : i ∈ p.body main) (hi : p.instr? i = some inst) (hglue : inst.op.isGlue = true)
    {xinst : Instruction} (hx : x ∈ inst.inputs) (hxi : p.instr? x = some xinst)
    (htuple : xinst.type.isTuple = true) : inst.modules = [] := by
  refine h.modules_eq_nil hmem hi ?_
  obtain ⟨types, signatures, htypes, -, hinfer⟩ := infer_ok.mp (h.fresh_own hmem inst hi)
  obtain ⟨type, hin, xinst', hxi', rfl⟩ := forall₂_exists htypes hx
  cases hxi.symm.trans hxi'
  cases hop : inst.op with
  | offload anchor =>
    rw [hop] at hinfer
    simp only [Op.inferType, Outcome.bind_ok, Typing.tensorInputs_ok] at hinfer
    obtain ⟨ts, ⟨-, rfl⟩, -⟩ := hinfer
    obtain ⟨t, -, ht⟩ := List.mem_map.mp hin
    rw [← ht] at htuple
    cases htuple
  | _ =>
    rw [hop] at hglue
    first
      | rfl
      | cases hglue

/-! ## Edits by what they carry -/

/-- The same modules are there, and the same instructions carry the same. -/
structure SameCarriers (p q : Program) : Prop where
  alive : ∀ k, (q.module? k).isSome = (p.module? k).isSome
  carries : ∀ {i op m k}, q.Carries i op m k ↔ p.Carries i op m k

namespace SameCarriers

theorem refl (p : Program) : SameCarriers p p := ⟨fun _ => rfl, Iff.rfl⟩

theorem trans (h : SameCarriers p q) (h' : SameCarriers q r) : SameCarriers p r :=
  ⟨fun k => (h'.alive k).trans (h.alive k), h'.carries.trans h.carries⟩

theorem of_outline (halive : ∀ k, (q.module? k).isSome = (p.module? k).isSome)
    (h : ∀ j, (q.instr? j).map Instruction.outline = (p.instr? j).map Instruction.outline) :
    SameCarriers p q :=
  ⟨halive, .of_outline (h _), .of_outline (h _).symm⟩

theorem of_rewired (h : Rewired p q) : SameCarriers p q :=
  .of_outline (fun k => by rw [h.module?]) h.outline

theorem of_reordered {l : List InstrId} (h : Reordered m l p q) (hm : (p.module? m).isSome) :
    SameCarriers p q := by
  refine .of_outline (fun k => ?_) fun j => by rw [h.instr?]
  by_cases hk : k = m
  · subst hk
    obtain ⟨module, hq, -⟩ := h.self
    rw [hq, hm]
    rfl
  · rw [h.module? hk]

theorem modules_eq_nil (h : SameCarriers p q)
    (hp : ∀ inst, p.instr? i = some inst → inst.modules = []) (hi : q.instr? i = some inst) :
    inst.modules = [] := by
  refine List.eq_nil_iff_forall_not_mem.mpr fun k hk => ?_
  obtain ⟨a, ha, -, -, hka⟩ := h.carries.mp ⟨inst, hi, rfl, rfl, hk⟩
  rw [hp a ha] at hka
  cases hka

end SameCarriers

/-- The programs differ in one instruction, up to operands, types and order. -/
structure ChangesAt (i : InstrId) (p q : Program) : Prop where
  alive : ∀ k, (q.module? k).isSome = (p.module? k).isSome
  outline : ∀ {j}, j ≠ i →
    (q.instr? j).map Instruction.outline = (p.instr? j).map Instruction.outline

theorem Inserted.changesAt {n : Nat} (h : Inserted m n op inputs modules p i q)
    (hm : (p.module? m).isSome) : ChangesAt i p q := by
  refine ⟨fun k => ?_, fun hj => (h.old hj).outline⟩
  by_cases hk : k = m
  · rw [hk, h.isLocal.alive, hm]
  · rw [h.isLocal.module? hk]

theorem Rebuilt.changesAt (h : Rebuilt i op inputs modules p q) : ChangesAt i p q :=
  ⟨fun k => by rw [h.module?], h.outline⟩

theorem changesAt_removed {m : ModuleId} {n : Nat} (hl : p.Linked) (hi : p.instr? i = some inst)
    (hloc : p.locate i = .ok (m, n)) : ChangesAt i p (p.removed i m n) :=
  ⟨fun k => by rw [module?_removed hl hi hloc, Option.isSome_map],
    fun hj => (sameCore_removed hi hj).outline⟩

namespace ChangesAt

theorem carries_iff (h : ChangesAt i p q) (hj : j ≠ i) :
    q.Carries j op m k ↔ p.Carries j op m k :=
  ⟨.of_outline (h.outline hj), .of_outline (h.outline hj).symm⟩

theorem sameCarriers (h : ChangesAt i p q)
    (hp : ∀ inst, p.instr? i = some inst → inst.modules = [])
    (hq : ∀ inst, q.instr? i = some inst → inst.modules = []) : SameCarriers p q := by
  refine ⟨h.alive, fun {j op m k} => ?_⟩
  by_cases hj : j = i
  · subst hj
    refine iff_of_false (fun ⟨inst, hi, _, _, hk⟩ => ?_) fun ⟨inst, hi, _, _, hk⟩ => ?_
    · rw [hq inst hi] at hk
      cases hk
    · rw [hp inst hi] at hk
      cases hk
  · exact h.carries_iff hj

end ChangesAt

theorem Inserted.sameCarriers {n : Nat} (h : Inserted m n op inputs [] p i q)
    (hm : (p.module? m).isSome) : SameCarriers p q := by
  refine (h.changesAt hm).sameCarriers (fun inst hi => ?_) fun inst hi => ?_
  · rw [h.gone] at hi
    cases hi
  · obtain ⟨type, -, hnew⟩ := h.new
    cases hi.symm.trans hnew
    rfl

theorem Rebuilt.sameCarriers (h : Rebuilt i op inputs [] p q) (hi : p.instr? i = some inst)
    (hnone : inst.modules = []) : SameCarriers p q := by
  obtain ⟨b, hb, -, -, hmodules, -⟩ := h.self hi
  refine h.changesAt.sameCarriers (fun a ha => ?_) fun a ha => ?_
  · cases hi.symm.trans ha
    exact hnone
  · cases hb.symm.trans ha
    exact hmodules

/-! ## A new module put in place -/

/-- A new module `m` that only `call` carries, and that carries what was nested; `pending` is to be
released. -/
structure Placing (m : ModuleId) (call : Option InstrId) (pending : List ModuleId) (p q : Program) :
    Prop where
  new : p.module? m = none
  alive : ∀ {k}, k ≠ main → (q.module? k).isSome → k = m ∨ (p.module? k).isSome
  carries : ∀ {i op a k}, q.Carries i op a k → p.Carries i op a k ∨ (a = m ∧ p.Nested k) ∨
    (k = m ∧ call = some i ∧ a = main ∧ op.isOffload = true)
  attached : p.Attached [] → q.Attached pending

namespace Placing

variable {call : Option InstrId}

theorem same (h : Placing m call pending p q) (hs : SameCarriers q r) :
    Placing m call pending p r := by
  refine ⟨h.new, fun hk halive => h.alive hk (hs.alive _ ▸ halive),
    fun hc => h.carries (hs.carries.mp hc), fun hp k halive hk => ?_⟩
  refine (h.attached hp k (hs.alive k ▸ halive) hk).imp_right fun ⟨a, hrefers⟩ => ⟨a, ?_⟩
  obtain ⟨i, op, hc⟩ := refers_iff_carries.mp hrefers
  exact (hs.carries.mpr hc).refers

/-- What an instruction of the main module other than the call carries, it carried before. -/
theorem carried {b : ModuleId} (h : Placing m call pending p q) (hm : main ≠ m) (hl : q.Linked)
    (hi : p.instr? i = some inst) (hmem : i ∈ q.body main) (hcall : call ≠ some i)
    (hc : q.Carries i op b k) : k ∈ inst.modules := by
  obtain ⟨inst', hi', -, -, hk⟩ | ⟨rfl, -⟩ | ⟨-, he, -⟩ := h.carries hc
  · cases hi.symm.trans hi'
    exact hk
  · obtain ⟨b, hb, -, ho, -⟩ := hc
    exact absurd ((hl.owner_unique hb hmem).symm.trans ho) hm
  · exact absurd he hcall

/-- One instruction changes. It carries nothing then, or it is the call. -/
theorem changed (h : Placing m call pending p q) (hc : ChangesAt i q r)
    (hnew : ∀ {op a k}, r.Carries i op a k →
      k = m ∧ call = some i ∧ a = main ∧ op.isOffload = true)
    (hold : ∀ {op a k}, q.Carries i op a k → k ∈ pending')
    (hpending : ∀ k ∈ pending, k ∈ pending' ∨ ∃ a, r.Refers k a) : Placing m call pending' p r := by
  refine ⟨h.new, fun hk halive => h.alive hk (hc.alive _ ▸ halive), fun {j op a k} hj => ?_,
    fun hp k halive hk => ?_⟩
  · by_cases hji : j = i
    · subst hji
      exact .inr (.inr (hnew hj))
    · exact h.carries ((hc.carries_iff hji).mp hj)
  · obtain hmem | ⟨a, hrefers⟩ := h.attached hp k (hc.alive k ▸ halive) hk
    · exact hpending k hmem
    obtain ⟨j, op, hj⟩ := refers_iff_carries.mp hrefers
    by_cases hji : j = i
    · subst hji
      exact .inl (hold hj)
    · exact .inr ⟨a, ((hc.carries_iff hji).mpr hj).refers⟩

theorem called {b : Instruction} (h : Placing m none (m :: pending) p q) (hc : ChangesAt i q r)
    (hb : r.instr? i = some b) (hop : b.op.isOffload = true) (ho : b.owner = main)
    (hmodules : b.modules = [m]) (hold : ∀ {op a k}, q.Carries i op a k → k ∈ pending')
    (hs : pending ⊆ pending') : Placing m (some i) pending' p r := by
  have hexpected : Placing m (some i) (m :: pending) p q :=
    ⟨h.new, h.alive, fun hc => (h.carries hc).imp_right (Or.imp_right (by simp)), h.attached⟩
  refine hexpected.changed hc (fun {op a k} ⟨b', hb', hop', ho', hk⟩ => ?_) hold fun k hk => ?_
  · cases hb.symm.trans hb'
    rw [hmodules] at hk
    exact ⟨List.mem_singleton.mp hk, rfl, ho' ▸ ho, hop' ▸ hop⟩
  · obtain rfl | hk := List.mem_cons.mp hk
    · exact .inr ⟨main, i, b, hb, ho, hmodules ▸ List.mem_singleton_self k⟩
    · exact .inl (hs hk)

theorem dropped (h : Placing m call pending p q) (hc : ChangesAt i q r)
    (hnone : ∀ b, r.instr? i = some b → b.modules = [])
    (hold : ∀ {op a k}, q.Carries i op a k → k ∈ pending') (hs : pending ⊆ pending') :
    Placing m call pending' p r := by
  refine h.changed hc (fun {op a k} ⟨b, hb, _, _, hk⟩ => ?_) hold fun k hk => .inl (hs hk)
  rw [hnone b hb] at hk
  cases hk

/-- Instructions or modules are removed together with what they leave unreferenced. -/
theorem shrunk (h : Placing m call pending p q) (hs : Shrunk q r)
    (hattached : q.Attached pending → r.Attached pending') : Placing m call pending' p r :=
  ⟨h.new, fun hk halive => h.alive hk (hs.inner hk halive).1, fun hc => h.carries (hs.carries hc),
    fun hp => hattached (h.attached hp)⟩

theorem mono (h : Placing m call pending p q) (hs : pending ⊆ pending') :
    Placing m call pending' p q :=
  ⟨h.new, h.alive, h.carries, fun hp => (h.attached hp).mono hs⟩

theorem inserted {n : Nat} (h : Placing m none (m :: pending) p q)
    (hins : Inserted main n op inputs [m] q i r) (hmain : (q.module? main).isSome)
    (hop : op.isOffload = true) : Placing m (some i) pending p r := by
  obtain ⟨type, -, hnew⟩ := hins.new
  refine h.called (hins.changesAt hmain) hnew hop rfl rfl (fun ⟨b, hb, _⟩ => ?_) fun _ => id
  rw [hins.gone] at hb
  cases hb

variable (hm : main ≠ m) (hl : q.Linked) (hi : p.instr? i = some inst) (hmem : i ∈ q.body main)

include hm hl hi hmem

theorem rebuilt (h : Placing m none (m :: pending) p q) (hr : Rebuilt i op inputs [m] q r)
    (hop : op.isOffload = true) : Placing m (some i) (inst.modules ++ pending) p r := by
  obtain ⟨old, hold, ho⟩ := hl.owned hmem
  obtain ⟨b, hb, rfl, -, hmodules, hbo⟩ := hr.self hold
  exact h.called hr.changesAt hb hop (hbo.trans ho) hmodules
    (fun hc => List.mem_append_left _ (h.carried hm hl hi hmem nofun hc))
    (List.subset_append_right ..)

theorem emptied (h : Placing m call pending p q) (hr : Rebuilt i op inputs [] q r)
    (hcall : call ≠ some i) : Placing m call (inst.modules ++ pending) p r := by
  obtain ⟨old, hold, -⟩ := hl.owned hmem
  obtain ⟨b, hb, -, -, hmodules, -⟩ := hr.self hold
  refine h.dropped hr.changesAt (fun b' hb' => ?_)
    (fun hc => List.mem_append_left _ (h.carried hm hl hi hmem hcall hc))
    (List.subset_append_right ..)
  cases hb.symm.trans hb'
  exact hmodules

theorem removed {u : Unit} (h : Placing m call pending p q) (hcall : call ≠ some i)
    (hok : Edit.removeInstruction i q = .ok u r) :
    Placing m call (inst.modules ++ pending) p r := by
  obtain ⟨b, k, n, hb, -, hloc, rfl⟩ := Edit.removeInstruction_ok.mp hok
  refine h.dropped (changesAt_removed hl hb hloc) (fun b' hb' => ?_)
    (fun hc => List.mem_append_left _ (h.carried hm hl hi hmem hcall hc))
    (List.subset_append_right ..)
  rw [instr?_removed hb, if_pos rfl] at hb'
  cases hb'

end Placing

end Program

end OffloadFusion
