import OffloadFusion.Proofs.Cutting
import OffloadFusion.Proofs.Deferring
import OffloadFusion.Proofs.Pruning
import OffloadFusion.Proofs.References

/-!
# Pruning removes the dead cone

`Edit.prune` drops an instruction that it meets while something uses it, and meets it again after
its last user has gone. In a module of a verified program that nothing references, **it removes
exactly the dead cone of the roots, whatever their order, and the modules that only the cone kept**
(`Program.prune_exact`).

* `Cone`, `Released`: the least sets of instructions and of modules to remove.
* `Pruning`: how far pruning has come; kept by each removal (`Pruning.removeInstr`,
  `Pruning.removeModule`) and by what is skipped, and so by the loops.
* `Pruning.mem_gone_iff`, `Pruning.mem_dead_iff`: with nothing left to look at, it is done.
-/

namespace OffloadFusion

/-- Neither a parameter nor a return. -/
def Instruction.IsInner (inst : Instruction) : Prop :=
  inst.op.isParam = false ∧ inst.op.isReturn = false

namespace Program

open OffloadFusion.Action

variable {p q r : Program} {i j c : InstrId} {m k : ModuleId} {inst : Instruction}
  {module : Module} {roots stack gone : List InstrId} {dead pending ms : List ModuleId}
  {n fuel : Nat} {u : Unit}

/-! ## Dead cones -/

/-- The dead cone of some roots: the least set of inner instructions that are roots or operands of
members, and all of whose consumers are members. -/
inductive Cone (p : Program) (roots : List InstrId) : InstrId → Prop
  | root {i : InstrId} {inst : Instruction} (mem : i ∈ roots) (here : p.instr? i = some inst)
    (inner : inst.IsInner) (unused : ∀ c ∈ inst.consumers, Cone p roots c) : Cone p roots i
  | operand {c i : InstrId} {inst : Instruction} (reader : Cone p roots c) (uses : p.Uses c i)
    (here : p.instr? i = some inst) (inner : inst.IsInner)
    (unused : ∀ c ∈ inst.consumers, Cone p roots c) : Cone p roots i

/-- The modules that only the dead cone keeps: the least set of modules other than the main one that
something carries, and that nothing carries but members of the cone and instructions of members. -/
inductive Released (p : Program) (roots : List InstrId) : ModuleId → Prop
  | intro {k : ModuleId} (other : k ≠ main) (carried : ∃ j, p.Refers k j)
    (lost : ∀ i inst, p.instr? i = some inst → k ∈ inst.modules → ¬ p.Cone roots i →
      Released p roots inst.owner) : Released p roots k

/-- The roots that are still there belong to one module. -/
def Within (p : Program) (m : ModuleId) (roots : List InstrId) : Prop :=
  ∀ i ∈ roots, ∀ inst ∈ p.instr? i, inst.owner = m

instance (p : Program) (m : ModuleId) (roots : List InstrId) : Decidable (p.Within m roots) :=
  inferInstanceAs (Decidable (∀ i ∈ roots, ∀ inst ∈ p.instr? i, inst.owner = m))

theorem Cone.mono {roots' : List InstrId} (hsub : ∀ i ∈ roots, i ∈ roots') (h : p.Cone roots i) :
    p.Cone roots' i := by
  induction h with
  | root mem here inner _ ih => exact .root (hsub _ mem) here inner ih
  | operand _ uses here inner _ ihReader ih => exact .operand ihReader uses here inner ih

theorem Released.congr {roots' : List InstrId} (hcone : ∀ i, p.Cone roots' i ↔ p.Cone roots i)
    (h : p.Released roots k) : p.Released roots' k := by
  induction h with
  | intro other carried _ ih =>
    exact .intro other carried fun i inst hi hmem hnot => ih i inst hi hmem (mt (hcone i).mpr hnot)

theorem Cone.owner (h : p.Cone roots i) (hl : p.Linked) (hroots : p.Within m roots)
    (hi : p.instr? i = some inst) : inst.owner = m := by
  induction h generalizing inst with
  | root mem => exact hroots _ mem _ hi
  | operand _ uses here _ _ ih =>
    obtain ⟨cinst, hc, hmem⟩ := uses
    obtain ⟨a, ha, ho⟩ := hl.operand hc hmem
    cases ha.symm.trans hi
    exact ho.trans (ih hc)

theorem Released.not_free (h : p.Released roots k) : ¬ p.Free k := by
  intro hfree
  obtain ⟨-, ⟨_, i, inst, hi, -, hmem⟩, -⟩ := h
  exact hfree i inst hi hmem

theorem fewer_removed (hi : p.instr? i = some inst) : Fewer p (p.removed i m n) := by
  refine ⟨fun {j b} hj => (sameCore_removed hi ?_).exists_instr hj⟩
  rintro rfl
  rw [instr?_removed hi, if_pos rfl] at hj
  cases hj

/-! ## What pruning has met -/

/-- All that carries the module is gone. -/
def Lost (p : Program) (gone : List InstrId) (dead : List ModuleId) (k : ModuleId) : Prop :=
  ∀ i inst, p.instr? i = some inst → k ∈ inst.modules → i ∈ gone ∨ inst.owner ∈ dead

/-- A root or an operand of what is gone. -/
def Met (p : Program) (roots gone : List InstrId) (i : InstrId) : Prop :=
  i ∈ roots ∨ ∃ c ∈ gone, p.Uses c i

theorem Met.cons (h : p.Met roots gone j) (i : InstrId) : p.Met roots (i :: gone) j :=
  h.imp_right fun ⟨c, hc, huses⟩ => ⟨c, List.mem_cons_of_mem i hc, huses⟩

theorem Met.before (h : p.Met roots (i :: gone) j) (hnot : ¬ p.Uses i j) : p.Met roots gone j :=
  h.imp_right fun ⟨c, hc, huses⟩ =>
    ⟨c, (List.mem_cons.mp hc).resolve_left fun he => hnot (he ▸ huses), huses⟩

theorem Lost.before (h : p.Lost (i :: gone) dead k)
    (hnot : ∀ inst, p.instr? i = some inst → k ∉ inst.modules) : p.Lost gone dead k := by
  refine fun j inst hj hmem => (h j inst hj hmem).imp_left fun hgone =>
    (List.mem_cons.mp hgone).resolve_left ?_
  rintro rfl
  exact hnot inst hj hmem

/-- How far pruning has come: what is gone is in the cone or released with it, and what nothing
keeps any more is still to be looked at. -/
structure Pruning (p : Program) (roots gone : List InstrId) (dead : List ModuleId)
    (stack : List InstrId) (pending : List ModuleId) (q : Program) : Prop where
  cut : Cut gone dead p q
  steady : q.Steady none
  nodup : gone.Nodup
  nodupDead : dead.Nodup
  cone : ∀ i ∈ gone, p.Cone roots i
  released : ∀ k ∈ dead, p.Released roots k
  met : ∀ i ∈ stack, p.Met roots gone i
  carried : ∀ k ∈ pending, ∃ j, p.Refers k j
  /-- What is met and unused is gone or on the stack. -/
  unused : ∀ {i inst}, p.Met roots gone i → p.instr? i = some inst → inst.IsInner →
    (∀ c ∈ inst.consumers, c ∈ gone) → i ∈ gone ∨ i ∈ stack
  /-- What was carried and is lost is gone or pending. -/
  lost : ∀ {k}, k ≠ main → (∃ j, p.Refers k j) → p.Lost gone dead k → k ∈ dead ∨ k ∈ pending

namespace Pruning

variable (h : Pruning p roots gone dead stack pending q) (hp : p.Valid)

theorem start (roots : List InstrId) (hp : p.Valid) : Pruning p roots [] [] roots.reverse [] p := by
  refine ⟨.refl p, hp.steady none, .nil, .nil, nofun, nofun,
    fun i hi => .inl (List.mem_reverse.mp hi), nofun, fun hmet _ _ _ => .inr ?_,
    fun _ ⟨_, i, inst, hi, _, hmem⟩ hlost => ?_⟩
  · obtain hmem | ⟨_, hc, -⟩ := hmet
    · exact List.mem_reverse.mpr hmem
    · cases hc
  · obtain hc | hc := hlost i inst hi hmem <;> cases hc

include h

theorem notMem_dead (hfree : p.Free m) : m ∉ dead := fun hm => (h.released m hm).not_free hfree

include hp

theorem isReferenced_eq_false_iff : q.isReferenced k = false ↔ p.Lost gone dead k := by
  rw [isReferenced_eq_false]
  constructor
  · intro href i inst hi hmem
    by_contra hnot
    obtain ⟨hgone, hdead⟩ := not_or.mp hnot
    exact href i _ (h.cut.instr?_eq_some.mpr ⟨inst, hi, hgone, hdead, rfl⟩)
      (hp.referenced hi hmem).2.symm hmem
  · rintro hlost i _ hi - hmem
    obtain ⟨inst, hi', hgone, hdead, rfl⟩ := h.cut.instr?_eq_some.mp hi
    exact (hlost i inst hi' hmem).elim hgone hdead

/-! ### Modules -/

theorem skipModule {rest : List ModuleId} (hpending : pending = k :: rest)
    (hkept : k = main ∨ (q.module? k).isNone ∨ q.isReferenced k = true) :
    Pruning p roots gone dead stack rest q := by
  subst hpending
  refine { h with
    carried := fun k hk => h.carried k (List.mem_cons_of_mem _ hk)
    lost := fun {k'} hmain hcarried hlost => ?_ }
  obtain hdead | hmem := h.lost hmain hcarried hlost
  · exact .inl hdead
  obtain rfl | hmem := List.mem_cons.mp hmem
  · obtain hk | hnone | href := hkept
    · exact absurd hk hmain
    · obtain ⟨_, i, inst, hi, -, hmem⟩ := hcarried
      obtain ⟨module, hm⟩ := Option.isSome_iff_exists.mp (hp.referenced hi hmem).1
      by_contra hnot
      rw [h.cut.module?_eq_some.mpr ⟨(not_or.mp hnot).1, module, hm, rfl⟩] at hnone
      cases hnone
    · rw [(h.isReferenced_eq_false_iff hp).mpr hlost] at href
      cases href
  · exact .inr hmem

/-- A module that nothing carries any more goes, and what its instructions carried is pending. -/
theorem removeModule {rest : List ModuleId} (hpending : pending = k :: rest) (hk : k ≠ main)
    (href : q.isReferenced k = false) (hm : q.module? k = some module) :
    Pruning p roots gone (k :: dead) stack ((q.references k).reverse ++ rest)
      (q.moduleRemoved k module) := by
  subst hpending
  have hlost := (h.isReferenced_eq_false_iff hp).mp href
  have hremove := (Edit.removeModule_ok (u := ⟨⟩)).mpr ⟨hk, module, hm, rfl⟩
  refine { h with
    cut := h.cut.moduleRemoved h.steady.toLinked hm
    steady := (h.steady.trim_removeModule href hremove).steady
    nodupDead := h.nodupDead.cons (h.cut.module?_eq_some.mp hm).1
    released := List.forall_mem_cons.mpr ⟨?_, h.released⟩
    carried := fun k' hk' => ?_
    lost := fun {k'} hmain hcarried hlost' => ?_ }
  · refine .intro hk (h.carried k List.mem_cons_self) fun i inst hi hmem hcone => ?_
    exact (hlost i inst hi hmem).elim (fun hgone => absurd (h.cone i hgone) hcone)
      (h.released inst.owner)
  · obtain hk' | hk' := List.mem_append.mp hk'
    · obtain ⟨i, b, hi, rfl, hmem⟩ :=
        h.steady.toLinked.refers_iff.mpr (List.mem_reverse.mp hk')
      obtain ⟨inst, hi', -, -, rfl⟩ := h.cut.instr?_eq_some.mp hi
      exact ⟨inst.owner, i, inst, hi', rfl, hmem⟩
    · exact h.carried k' (List.mem_cons_of_mem k hk')
  · by_cases hnested : k' ∈ q.references k
    · exact .inr (List.mem_append_left _ (List.mem_reverse.mpr hnested))
    -- otherwise it was lost before
    have hbefore : p.Lost gone dead k' := fun i inst hi hmem => by
      by_contra hnot
      obtain ⟨hgone, hdead⟩ := not_or.mp hnot
      have hq := h.cut.instr?_eq_some.mpr ⟨inst, hi, hgone, hdead, rfl⟩
      obtain hgone' | hdead' := hlost' i inst hi hmem
      · exact hgone hgone'
      obtain ho | hdead' := List.mem_cons.mp hdead'
      · exact hnested (h.steady.toLinked.refers_iff.mp ⟨i, _, hq, ho, hmem⟩)
      · exact hdead hdead'
    obtain hdead | hmem := h.lost hmain hcarried hbefore
    · exact .inl (List.mem_cons_of_mem k hdead)
    obtain rfl | hmem := List.mem_cons.mp hmem
    · exact .inl List.mem_cons_self
    · exact .inr (List.mem_append_right _ hmem)

omit h in
theorem releaseFrom {rest : List ModuleId} (h : Pruning p roots gone dead stack (ms ++ rest) q)
    (hok : Edit.releaseFrom fuel ms q = .ok u r) :
    ∃ dead', Pruning p roots gone dead' stack rest r := by
  induction fuel generalizing q dead ms with
  | zero =>
    cases ms with
    | nil =>
      cases hok
      exact ⟨dead, h⟩
    | cons k ms => cases hok
  | succ fuel ih =>
    cases ms with
    | nil =>
      cases hok
      exact ⟨dead, h⟩
    | cons k ms =>
      rw [Edit.releaseFrom, Action.get_bind_ok, Action.ite_ok] at hok
      obtain ⟨hkept, hok⟩ | ⟨hgoes, hok⟩ := hok
      · exact ih (h.skipModule hp rfl hkept) hok
      · rw [not_or, not_or] at hgoes
        rw [Action.bind_ok] at hok
        obtain ⟨_, s, hremove, hok⟩ := hok
        obtain ⟨hk, module, hm, rfl⟩ := Edit.removeModule_ok.mp hremove
        have hnext : Pruning p roots gone (k :: dead) stack
            ((q.references k).reverse ++ (ms ++ rest)) _ :=
          h.removeModule hp rfl hk (Bool.eq_false_iff.mpr hgoes.2.2) hm
        exact ih (List.append_assoc .. ▸ hnext) hok

omit h in
theorem releaseModules (h : Pruning p roots gone dead stack ms q)
    (hok : ms.forM Edit.releaseModule q = .ok u r) :
    ∃ dead', Pruning p roots gone dead' stack [] r := by
  induction ms generalizing q dead with
  | nil =>
    cases hok
    exact ⟨dead, h⟩
  | cons k ms ih =>
    rw [List.forM, Action.bind_ok] at hok
    obtain ⟨_, s, hrelease, hok⟩ := hok
    rw [Edit.releaseModule, Action.get_bind_ok] at hrelease
    have hstack : Pruning p roots gone dead stack ([k] ++ ms) q := h
    obtain ⟨dead', hnext⟩ := releaseFrom hp hstack hrelease
    exact ih hnext hok

/-! ### Instructions -/

theorem owner_of_met (hroots : p.Within m roots) (hmet : p.Met roots gone i)
    (hi : p.instr? i = some inst) : inst.owner = m := by
  obtain hmem | ⟨c, hc, cinst, hcinst, hmem⟩ := hmet
  · exact hroots i hmem inst hi
  · obtain ⟨a, ha, ho⟩ := hp.operand hcinst hmem
    cases ha.symm.trans hi
    exact ho.trans ((h.cone c hc).owner hp.toLinked hroots hcinst)

theorem skipInstr {rest : List InstrId} (hroots : p.Within m roots) (hfree : p.Free m)
    (hstack : stack = i :: rest)
    (hkept : ∀ inst, q.instr? i = some inst → inst.IsInner → inst.consumers ≠ []) :
    Pruning p roots gone dead rest pending q := by
  subst hstack
  refine { h with
    met := fun j hj => h.met j (List.mem_cons_of_mem i hj)
    unused := fun {j inst} hmet hj hinner hunused => ?_ }
  obtain hgone | hmem := h.unused hmet hj hinner hunused
  · exact .inl hgone
  obtain rfl | hmem := List.mem_cons.mp hmem
  · by_contra hnot
    have hm : inst.owner ∉ dead := h.owner_of_met hp hroots hmet hj ▸ h.notMem_dead hfree
    refine hkept _ (h.cut.instr?_eq_some.mpr ⟨inst, hj, (not_or.mp hnot).1, hm, rfl⟩) hinner ?_
    exact List.filter_eq_nil_iff.mpr fun c hc hleft => of_decide_eq_true hleft (hunused c hc)
  · exact .inr hmem

omit hp in
theorem cone_of_met (hmet : p.Met roots gone i) (hi : p.instr? i = some inst)
    (hinner : inst.IsInner) (hunused : ∀ c ∈ inst.consumers, c ∈ gone) : p.Cone roots i := by
  have hmembers : ∀ c ∈ inst.consumers, p.Cone roots c := fun c hc => h.cone c (hunused c hc)
  obtain hroot | ⟨c, hgone, huses⟩ := hmet
  · exact .root hroot hi hinner hmembers
  · exact .operand (h.cone c hgone) huses hi hinner hmembers

/-- An inner instruction that nothing uses goes, with its operands to look at and what it carried
pending. -/
theorem removeInstr {rest : List InstrId} (hroots : p.Within m roots) (hfree : p.Free m)
    (hstack : stack = i :: rest) (hpending : pending = []) (hi : q.instr? i = some inst)
    (hinner : inst.IsInner) (hc : inst.consumers = []) (hloc : q.locate i = .ok (k, n)) :
    Pruning p roots (i :: gone) dead (inst.inputs.reverse ++ rest) inst.modules
      (q.removed i k n) := by
  subst hstack hpending
  have hlq := h.steady.toLinked
  obtain ⟨a, ha, hnew, hdead, rfl⟩ := h.cut.instr?_eq_some.mp hi
  obtain ⟨_, _, hi', hk, -, -⟩ := locate_ok.mp hloc
  cases hi.symm.trans hi'
  have hmet := h.met i List.mem_cons_self
  have ho : a.owner = m := h.owner_of_met hp hroots hmet ha
  have hm : k = m := hk.symm.trans ho
  have hunused : ∀ c ∈ a.consumers, c ∈ gone := fun c hmem => by
    by_contra hleft
    have hin : c ∈ (a.without gone).consumers :=
      List.mem_filter.mpr ⟨hmem, decide_eq_true hleft⟩
    rw [hc] at hin
    cases hin
  have hspares : ∀ j, q.Spares m j := fun j b hj hmem => by
    obtain ⟨b', hj', -, -, rfl⟩ := h.cut.instr?_eq_some.mp hj
    exact hfree j b' hj' hmem
  refine { h with
    cut := h.cut.removed hp.toLinked hlq hi hloc
    steady := h.steady.removed hi hc hloc fun {j} _ => .inl (hm ▸ hspares j)
    nodup := h.nodup.cons hnew
    cone := List.forall_mem_cons.mpr ⟨h.cone_of_met hmet ha hinner hunused, h.cone⟩
    met := fun j hj => ?_
    carried := fun k' hk' => ⟨_, i, a, ha, rfl, hk'⟩
    unused := fun {j b} hmet' hj hinner' hunused' => ?_
    lost := fun {k'} hmain hcarried hlost => ?_ }
  · obtain hj | hj := List.mem_append.mp hj
    · exact .inr ⟨i, List.mem_cons_self, a, ha, List.mem_reverse.mp hj⟩
    · exact (h.met j (List.mem_cons_of_mem i hj)).cons i
  · by_cases hoperand : j ∈ a.inputs
    · exact .inr (List.mem_append_left _ (List.mem_reverse.mpr hoperand))
    -- otherwise it was met before, and what uses it was gone
    have hnot : ¬ p.Uses i j := fun ⟨a', ha', hmem⟩ => by
      cases ha.symm.trans ha'
      exact hoperand hmem
    have hunused : ∀ c ∈ b.consumers, c ∈ gone := fun c hc =>
      (List.mem_cons.mp (hunused' c hc)).resolve_left fun he =>
        hnot (he ▸ (hp.mirrored hj).mp hc)
    obtain hgone | hmem := h.unused (hmet'.before hnot) hj hinner' hunused
    · exact .inl (List.mem_cons_of_mem i hgone)
    obtain rfl | hmem := List.mem_cons.mp hmem
    · exact .inl List.mem_cons_self
    · exact .inr (List.mem_append_right _ hmem)
  · by_cases hown : k' ∈ a.modules
    · exact .inr hown
    refine .inl ((h.lost hmain hcarried (hlost.before fun a' ha' hmem => ?_)).resolve_right nofun)
    cases ha.symm.trans ha'
    exact hown hmem

/-! ### The loop -/

omit h in
theorem pruneFrom (hroots : p.Within m roots) (hfree : p.Free m)
    (h : Pruning p roots gone dead stack [] q) (hfuel : stack.length + q.inputCount ≤ fuel) :
    ∃ n gone' dead' r, Edit.pruneFrom fuel stack q = .ok n r ∧ gone'.length = gone.length + n ∧
      Pruning p roots gone' dead' [] [] r := by
  induction fuel generalizing q gone dead stack with
  | zero =>
    cases stack with
    | nil => exact ⟨0, gone, dead, q, rfl, rfl, h⟩
    | cons i stack => simp at hfuel
  | succ fuel ih =>
    cases stack with
    | nil => exact ⟨0, gone, dead, q, rfl, rfl, h⟩
    | cons i stack =>
      rw [List.length_cons] at hfuel
      have hrest : stack.length + q.inputCount ≤ fuel := by omega
      rw [Edit.pruneFrom]
      simp only [Action.get_bind_ok]
      cases hi : q.instr? i with
      | none =>
        refine ih (h.skipInstr hp hroots hfree rfl fun inst hinst => ?_) hrest
        cases hi.symm.trans hinst
      | some inst =>
        simp only [Action.ite_ok]
        by_cases hcond : (!inst.consumers.isEmpty || inst.op.isParam || inst.op.isReturn) = true
        · have hkept : ∀ a, q.instr? i = some a → a.IsInner → a.consumers ≠ [] := by
            intro a ha hinner hc
            cases hi.symm.trans ha
            simp [hc, hinner.1, hinner.2] at hcond
          obtain ⟨n, gone', dead', r, hok, hdone⟩ :=
            ih (h.skipInstr hp hroots hfree rfl hkept) hrest
          exact ⟨n, gone', dead', r, .inl ⟨hcond, hok⟩, hdone⟩
        obtain ⟨⟨hc, hparam⟩, hreturn⟩ : (inst.consumers = [] ∧ inst.op.isParam = false) ∧
            inst.op.isReturn = false := by simpa [not_or] using hcond
        obtain ⟨position, hloc, -⟩ :=
          h.steady.toLinked.exists_locate (h.steady.toLinked.listed hi)
        have hremove := (Edit.removeInstruction_ok (u := ⟨⟩)).mpr ⟨inst, _, _, hi, hc, hloc, rfl⟩
        have hremoved := h.removeInstr hp hroots hfree rfl rfl hi ⟨hparam, hreturn⟩ hc hloc
        have hfewer : Fewer q (q.removed i inst.owner position) := fewer_removed hi
        have hcount := hfewer.inputCount_le hi (by rw [instr?_removed hi, if_pos rfl])
        obtain ⟨_, s, hrelease, htrim⟩ := hremoved.steady.completes_releaseModules inst.modules
        have hcount' := htrim.shrunk.fewer.inputCount_mono
        obtain ⟨dead', hreleased⟩ := releaseModules hp hremoved hrelease
        obtain ⟨n, gone', dead'', r, hok, hlength, hdone⟩ := ih hreleased (by
          rw [List.length_append, List.length_reverse]
          omega)
        refine ⟨n + 1, gone', dead'', r, .inr ⟨hcond, ?_⟩, ?_, hdone⟩
        · exact Action.bind_ok.mpr ⟨_, _, hremove, Action.bind_ok.mpr ⟨_, _, hrelease,
            Action.bind_ok.mpr ⟨n, r, hok, rfl⟩⟩⟩
        · rw [hlength, List.length_cons]
          omega

omit hp in
/-- When nothing is left to look at, the whole cone is gone. -/
theorem mem_gone_iff (hstack : stack = []) : i ∈ gone ↔ p.Cone roots i := by
  subst hstack
  refine ⟨h.cone i, fun hcone => ?_⟩
  induction hcone with
  | root mem here inner _ ih => exact (h.unused (.inl mem) here inner ih).resolve_right (by simp)
  | operand _ uses here inner _ ihReader ih =>
    exact (h.unused (.inr ⟨_, ihReader, uses⟩) here inner ih).resolve_right (by simp)

omit hp in
theorem mem_dead_iff (hstack : stack = []) (hpending : pending = []) :
    k ∈ dead ↔ p.Released roots k := by
  refine ⟨h.released k, fun hreleased => ?_⟩
  induction hreleased with
  | intro other carried _ ih =>
    refine (h.lost other carried fun i inst hi hmem => ?_).resolve_right (by simp [hpending])
    rw [h.mem_gone_iff hstack]
    exact or_iff_not_imp_left.mpr (ih i inst hi hmem)

end Pruning

/-! ## Pruning -/

/-- What pruning leaves. -/
structure Pruned (p : Program) (m : ModuleId) (roots : List InstrId) (count : Nat) (q : Program) :
    Prop where
  verified : q.verify = .ok ⟨⟩
  /-- Of the module of the roots, the cone is gone. -/
  gone : ∀ i ∈ p.body m, q.instr? i = none ↔ p.Cone roots i
  /-- Altogether, the cone and the released modules with their instructions are gone. -/
  goneAll : ∀ i inst, p.instr? i = some inst →
    (q.instr? i = none ↔ p.Cone roots i ∨ p.Released roots inst.owner)
  goneModules : ∀ k module, p.module? k = some module →
    (q.module? k = none ↔ p.Released roots k)
  /-- The members of the cone are counted, and everything else is as it was. -/
  counted : ∃ cone released, cone.Nodup ∧ cone.length = count ∧
    (∀ i, i ∈ cone ↔ p.Cone roots i) ∧ (∀ k, k ∈ released ↔ p.Released roots k) ∧
      Cut cone released p q

theorem Pruning.pruned (h : Pruning p roots gone dead [] [] q) (hp : p.Valid) (hfree : p.Free m) :
    p.Pruned m roots gone.length q := by
  have hcone : ∀ i, i ∈ gone ↔ p.Cone roots i := fun i => h.mem_gone_iff rfl
  have hdead : ∀ k, k ∈ dead ↔ p.Released roots k := fun k => h.mem_dead_iff rfl rfl
  have hall : ∀ i inst, p.instr? i = some inst →
      (q.instr? i = none ↔ p.Cone roots i ∨ p.Released roots inst.owner) := fun i inst hi => by
    rw [h.cut.instr?_eq_none hi, hcone, hdead]
  refine ⟨verify_ok.mpr h.steady.valid, fun i hi => ?_, hall, fun k module hk => ?_,
    gone, dead, h.nodup, rfl, hcone, hdead, h.cut⟩
  · obtain ⟨inst, hinst, rfl⟩ := hp.owned hi
    rw [hall i inst hinst]
    exact or_iff_left fun hreleased => hreleased.not_free hfree
  · rw [h.cut.module?, hk, ← hdead]
    split <;> simp_all

theorem Valid.prune (hp : p.Valid) (hfree : p.Free m) (hroots : p.Within m roots) :
    ∃ gone dead q, Edit.prune roots p = .ok gone.length q ∧ Pruning p roots gone dead [] [] q := by
  have hfuel : roots.reverse.length + p.inputCount ≤ roots.length + p.inputCount + 1 := by
    rw [List.length_reverse]
    omega
  obtain ⟨n, gone, dead, q, hok, hlength, hdone⟩ :=
    Pruning.pruneFrom hp hroots hfree (.start roots hp) hfuel
  rw [List.length_nil, Nat.zero_add] at hlength
  exact ⟨gone, dead, q, hlength ▸ hok, hdone⟩

/-- **Pruning removes exactly the dead cone.** From roots in a module that nothing references, it
comes to an end in a verified program. Of that module the dead cone is gone and counted. The other
instructions that are gone are those of the modules that only the cone kept. The same roots in
another order and number give the same program, up to the order in which the places of the released
modules are used again. -/
theorem prune_exact (h : p.verify = .ok ⟨⟩) (hfree : p.Free m) (hroots : p.Within m roots) :
    ∃ count q, Edit.prune roots p = .ok count q ∧ p.Pruned m roots count q ∧
      ∀ roots', (∀ i, i ∈ roots' ↔ i ∈ roots) → ∃ slots, slots.Perm q.freeSlots ∧
        Edit.prune roots' p = .ok count { q with freeSlots := slots } := by
  have hp := verify_ok.mp h
  obtain ⟨gone, dead, q, hok, hdone⟩ := hp.prune hfree hroots
  refine ⟨_, q, hok, hdone.pruned hp hfree, fun roots' hsame => ?_⟩
  have hroots' : p.Within m roots' := fun i hi => hroots i ((hsame i).mp hi)
  obtain ⟨gone', dead', r, hok', hdone'⟩ := hp.prune hfree hroots'
  have hcone : ∀ i, p.Cone roots' i ↔ p.Cone roots i := fun i =>
    ⟨Cone.mono fun j => (hsame j).mp, Cone.mono fun j => (hsame j).mpr⟩
  have hgone : ∀ i, i ∈ gone' ↔ i ∈ gone := fun i => by
    rw [hdone'.mem_gone_iff rfl, hdone.mem_gone_iff rfl, hcone]
  have hdead : ∀ k, k ∈ dead' ↔ k ∈ dead := fun k => by
    rw [hdone'.mem_dead_iff rfl rfl, hdone.mem_dead_iff rfl rfl]
    exact ⟨Released.congr fun i => (hcone i).symm, Released.congr hcone⟩
  obtain ⟨hr, hslots⟩ := hdone.cut.unique hdone'.cut hgone
    ((List.perm_ext_iff_of_nodup hdone'.nodupDead hdone.nodupDead).mpr hdead)
  have hlength : gone'.length = gone.length :=
    ((List.perm_ext_iff_of_nodup hdone'.nodup hdone.nodup).mpr hgone).length_eq
  exact ⟨r.freeSlots, hslots, hlength ▸ hr ▸ hok'⟩

/-- Two pointwise instructions on one value, whose bodies carry a common module. -/
def shared : Program :=
  (do
    let nested ← Edit.createModule "h"
    let x ← Edit.addParameter nested "x0" ⟨.f32, [2], [1]⟩
    let y ← Edit.addInstruction nested (.unary .relu) [x] []
    let _ ← Edit.addReturn nested [y]
    let first ← Edit.createModule "f"
    let x ← Edit.addParameter first "x0" ⟨.f32, [2], [1]⟩
    let y ← Edit.addInstruction first .pointwise [x] [nested]
    let _ ← Edit.addReturn first [y]
    let second ← Edit.createModule "g"
    let x ← Edit.addParameter second "x0" ⟨.f32, [2], [1]⟩
    let y ← Edit.addInstruction second .pointwise [x] [nested]
    let _ ← Edit.addReturn second [y]
    let x ← Edit.addParameter main "x" ⟨.f32, [2], [1]⟩
    let a ← Edit.addInstruction main (.unary .relu) [x] []
    let b ← Edit.addInstruction main .pointwise [a] [first]
    let c ← Edit.addInstruction main .pointwise [a] [second]
    let _ ← Edit.addInstruction main (.binary .add) [b, c] [] : Edit Unit).after .empty

/-- The value is met while it is used, and goes once both readers are gone. The common module goes
after both bodies. -/
theorem prune_exact_shared : shared.verify = .ok ⟨⟩ ∧ shared.Free main ∧
    shared.Within main [⟨13⟩, ⟨10⟩, ⟨13⟩] ∧ ∃ q,
      Edit.prune [⟨13⟩, ⟨10⟩, ⟨13⟩] shared = .ok 4 q ∧ q.verify = .ok ⟨⟩ ∧
        shared.Cone [⟨13⟩, ⟨10⟩, ⟨13⟩] ⟨10⟩ ∧ ¬ shared.Cone [⟨13⟩, ⟨10⟩, ⟨13⟩] ⟨9⟩ ∧
          shared.Released [⟨13⟩, ⟨10⟩, ⟨13⟩] ⟨1⟩ := by
  have hverify : shared.verify = .ok ⟨⟩ := by decide +kernel
  have hfree : shared.Free main := by decide +kernel
  have hroots : shared.Within main [⟨13⟩, ⟨10⟩, ⟨13⟩] := by decide +kernel
  obtain ⟨count, q, hok, hpruned, -⟩ := prune_exact hverify hfree hroots
  have hrun : ∃ n r, Edit.prune [⟨13⟩, ⟨10⟩, ⟨13⟩] shared = .ok n r ∧ n = 4 ∧
      r.instr? ⟨10⟩ = none ∧ r.instr? ⟨9⟩ ≠ none ∧ r.module? ⟨1⟩ = none := by decide +kernel
  obtain ⟨_, _, hok', rfl, hten, hnine, hmodule⟩ := hrun
  cases hok.symm.trans hok'
  have hmem : ⟨10⟩ ∈ shared.body main ∧ ⟨9⟩ ∈ shared.body main := by decide +kernel
  obtain ⟨module, hone⟩ : ∃ module, shared.module? ⟨1⟩ = some module :=
    Option.isSome_iff_exists.mp (by decide +kernel)
  exact ⟨hverify, hfree, hroots, q, hok, hpruned.verified, (hpruned.gone _ hmem.1).mp hten,
    mt (hpruned.gone _ hmem.2).mpr hnine, (hpruned.goneModules _ module hone).mp hmodule⟩

/-- Two pointwise instructions, each with a body of its own. -/
def doubled : Program :=
  (do
    let first ← Edit.createModule "f"
    let x ← Edit.addParameter first "x0" ⟨.f32, [2], [1]⟩
    let y ← Edit.addInstruction first (.unary .relu) [x] []
    let _ ← Edit.addReturn first [y]
    let second ← Edit.createModule "g"
    let x ← Edit.addParameter second "x0" ⟨.f32, [2], [1]⟩
    let y ← Edit.addInstruction second (.unary .relu) [x] []
    let _ ← Edit.addReturn second [y]
    let x ← Edit.addParameter main "x" ⟨.f32, [2], [1]⟩
    let _ ← Edit.addInstruction main .pointwise [x] [first]
    let _ ← Edit.addInstruction main .pointwise [x] [second] : Edit Unit).after .empty

/-- A body goes with its parameters, which are in no cone, and two orders of the roots leave the
places of the bodies in two orders. -/
theorem bodies_outside_cone : doubled.verify = .ok ⟨⟩ ∧ doubled.Free main ∧
    doubled.Within main [⟨7⟩, ⟨8⟩] ∧
    (doubled.instr? ⟨0⟩).isSome ∧ ¬ doubled.Cone [⟨7⟩, ⟨8⟩] ⟨0⟩ ∧
    ∃ q r, Edit.prune [⟨7⟩, ⟨8⟩] doubled = .ok 2 q ∧ q.instr? ⟨0⟩ = none ∧
      Edit.prune [⟨8⟩, ⟨7⟩] doubled = .ok 2 r ∧ q.freeSlots ≠ r.freeSlots := by
  have hparam : ∃ inst ∈ doubled.instr? ⟨0⟩, inst.op.isParam = true := by decide +kernel
  have hq : ∃ n q, Edit.prune [⟨7⟩, ⟨8⟩] doubled = .ok n q ∧ n = 2 ∧ q.instr? ⟨0⟩ = none ∧
      q.freeSlots = [1, 2] := by decide +kernel
  have hr : ∃ n r, Edit.prune [⟨8⟩, ⟨7⟩] doubled = .ok n r ∧ n = 2 ∧ r.freeSlots = [2, 1] := by
    decide +kernel
  obtain ⟨inst, hi, hop⟩ := hparam
  obtain ⟨_, q, hq, rfl, hgone, hslots⟩ := hq
  obtain ⟨_, r, hr, rfl, hslots'⟩ := hr
  refine ⟨by decide +kernel, by decide +kernel, by decide +kernel, Option.isSome_of_mem hi,
    fun hcone => ?_, q, r, hq, hgone, hr, by rw [hslots, hslots']; decide⟩
  obtain ⟨a, ha, hinner⟩ : ∃ a, doubled.instr? ⟨0⟩ = some a ∧ a.IsInner := by
    cases hcone with
    | root _ here inner => exact ⟨_, here, inner⟩
    | operand _ _ here inner => exact ⟨_, here, inner⟩
  cases ha.symm.trans hi
  rw [hinner.1] at hop
  cases hop

end Program

end OffloadFusion
