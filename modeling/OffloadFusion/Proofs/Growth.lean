import OffloadFusion.Proofs.Carrying
import OffloadFusion.Proofs.Interface

/-!
# A module under construction

`Grown p m q` says that `q` is `p` with a new module `m` that nothing references yet. The main
module is then as it was (`Grown.advance`). `Nesting p m q` adds that the new module carries only
what was nested in others before. The edits that fill `m` keep this (`Nesting.addParameter`,
`Nesting.addInstruction`, …): they respect the end of the module, since parameters and constants go
before anything else and instructions before a return.
-/

namespace OffloadFusion

namespace Renaming

theorem lookup_cons (i j k : InstrId) (pairs : List (InstrId × InstrId)) :
    ((i, k) :: pairs).lookup j = if j = i then some k else pairs.lookup j := by
  rw [List.lookup_cons]
  by_cases h : j = i
  · rw [if_pos h, beq_iff_eq.mpr h]
  · rw [if_neg h, beq_eq_false_iff_ne.mpr h]

theorem lookup_overwrite (i image j : InstrId) (pairs : List (InstrId × InstrId)) :
    (pairs.map fun (k, l) => if k = i then (k, image) else (k, l)).lookup j =
      if j = i then (pairs.lookup i).map fun _ => image else pairs.lookup j := by
  induction pairs with
  | nil => simp
  | cons pair pairs ih =>
    obtain ⟨k, l⟩ := pair
    have hhead : (if k = i then (k, image) else (k, l)) = (k, if k = i then image else l) := by
      split <;> rfl
    simp only [List.map_cons, hhead, lookup_cons, ih]
    by_cases hji : j = i <;> by_cases hjk : j = k <;> simp_all [eq_comm]

theorem image?_insert (ρ : Renaming) (i image j : InstrId) :
    (ρ.insert i image).image? j = if j = i then some image else ρ.image? j := by
  unfold insert
  by_cases h : ρ.contains i = true
  · rw [if_pos h, image?, lookup_overwrite]
    obtain ⟨k, hk⟩ := Option.isSome_iff_exists.mp h
    rw [image?] at hk
    rw [hk]
    rfl
  · rw [if_neg h, image?, List.lookup_append, lookup_cons, List.lookup_nil]
    rw [contains, Option.not_isSome_iff_eq_none, image?] at h
    by_cases hj : j = i
    · rw [if_pos hj, if_pos hj, hj, h, Option.none_or]
    · rw [if_neg hj, Option.or_none, if_neg hj, image?]

/-- What relates all keys to their images still does when a key gets a related image. -/
theorem related_insert {ρ : Renaming} {R : InstrId → InstrId → Prop} {i image : InstrId}
    (h : R i image) (hρ : ∀ j j', ρ.image? j = some j' → R j j') (j j' : InstrId)
    (hj : (ρ.insert i image).image? j = some j') : R j j' := by
  rw [image?_insert] at hj
  split at hj
  · next he =>
    cases hj
    exact he ▸ h
  · exact hρ j j' hj

@[simp] theorem image_ok {ρ : Renaming} {i j : InstrId} :
    ρ.image i = .ok j ↔ ρ.image? i = some j := by
  unfold image
  cases ρ.image? i <;> simp

end Renaming

namespace Program

variable {p q r : Program} {i : InstrId} {m k : ModuleId} {n : Nat} {inst : Instruction} {op : Op}
  {inputs : List InstrId} {modules : List ModuleId}

/-! ## Positions -/

/-- The place after the parameters is no place after a return. -/
theorem endSafe_parametersEnd (hop : op.isReturn = false) :
    p.EndSafe m (p.parametersEnd (p.body m)) op := by
  have hle := p.parametersEnd_le (p.body m)
  by_cases hlt : p.parametersEnd (p.body m) < (p.body m).length
  · exact .inl ⟨hlt, hop⟩
  refine .inr ⟨by omega, return?_eq_none.mpr fun r hlast hret => ?_⟩
  obtain ⟨l, hl⟩ := List.getLast?_eq_some_iff.mp hlast
  have hparam : p.hasOp Op.isParam r = false := by
    obtain ⟨inst, hi, hret⟩ := hasOp_iff.mp hret
    rw [hasOp, hi]
    cases hop : inst.op <;> simp_all [Op.isReturn, Op.isParam]
  -- the return is last, so the parameters end before it
  have hshort :=
    (List.dropWhile_sublist (fun i => !p.hasOp Op.isParam i) (l := l.reverse)).length_le
  rw [hl, parametersEnd, List.reverse_append, List.reverse_singleton, List.singleton_append,
    List.dropWhile_cons_of_pos (by rw [hparam]; rfl), List.length_append] at hlt
  rw [List.length_reverse] at hshort
  simp only [List.length_singleton] at hlt
  omega

theorem endSafe_append (hop : op.isReturn = false) :
    p.EndSafe m ((p.body m).length - if (p.return? m).isSome then 1 else 0) op := by
  cases hr : p.return? m with
  | none => exact .inr ⟨rfl, hr⟩
  | some r =>
    have hpos := List.length_pos_of_mem (List.mem_of_getLast? (return?_eq_some.mp hr).1)
    exact .inl ⟨by simp only [Option.isSome_some, if_true]; omega, hop⟩

theorem endSafe_after (hloc : p.locate i = .ok (m, n))
    (hi : p.hasOp Op.isReturn i = false) (hop : op.isReturn = false) :
    p.EndSafe m (n + 1) op := by
  obtain ⟨inst, module, -, -, hm, hidx⟩ := locate_ok.mp hloc
  rw [← body_of_module? hm] at hidx
  obtain ⟨hn, hget, -⟩ := List.idxOf?_eq_some_iff.mp hidx
  by_cases hlt : n + 1 < (p.body m).length
  · exact .inl ⟨hlt, hop⟩
  refine .inr ⟨by omega, return?_eq_none.mpr fun r hlast hret => ?_⟩
  have hn' : (p.body m).length - 1 = n := by omega
  rw [List.getLast?_eq_getElem?, hn', List.getElem?_eq_getElem hn, Option.some.injEq] at hlast
  have hri : r = i := hlast.symm.trans hget
  rw [hri, hi] at hret
  cases hret

theorem Linked.insertAt_of_insertAfter {j : InstrId} (hl : p.Linked) (hi : i ∈ p.body m)
    (hop : op.isReturn = false) (hok : Edit.insertAfter i op inputs modules p = .ok j q) :
    ∃ n, p.EndSafe m n op ∧ Edit.insertAt m n op inputs modules p = .ok j q := by
  obtain ⟨k, n, hloc, hret, hins⟩ := Edit.insertAfter_ok.mp hok
  obtain ⟨inst, -, hinst, rfl, -, -⟩ := locate_ok.mp hloc
  rw [hl.owner_unique hinst hi] at hloc hins
  exact ⟨n + 1, endSafe_after hloc hret hop, hins⟩

theorem endSafe_before (hloc : p.locate i = .ok (m, n)) (hop : op.isReturn = false) :
    p.EndSafe m n op := by
  obtain ⟨inst, module, -, -, hm, hidx⟩ := locate_ok.mp hloc
  rw [← body_of_module? hm] at hidx
  exact .inl ⟨(List.idxOf?_eq_some_iff.mp hidx).1, hop⟩

/-! ## Growing -/

/-- The modules are others than `m`, and than the main module unless something carries that. -/
def Inner (p : Program) (m : ModuleId) (modules : List ModuleId) : Prop :=
  m ∉ modules ∧ (p.Free main → main ∉ modules)

theorem inner_nil : p.Inner m [] := ⟨List.not_mem_nil, fun _ => List.not_mem_nil⟩

/-- The program with a new module that nothing references. -/
structure Grown (p : Program) (m : ModuleId) (q : Program) : Prop where
  gone : p.module? m = none
  inner : m ≠ main
  steady : q.Steady (some main)
  free : q.Free m
  mainFree : p.Free main → q.Free main
  isLocal : Local m p q

namespace Grown

theorem opened (h : p.Steady (some main)) (hmain : i ∈ p.body main) (name : String) :
    Grown p p.nextModule (p.opened name) := by
  have hgone := p.module?_nextModule
  refine ⟨hgone, ?_, h.opened name, fun i inst hi => ?_, id, .opened p name⟩
  · intro he
    rw [← he, body, hgone] at hmain
    cases hmain
  · exact h.toFramed.free_of_gone hgone i inst hi

theorem body_main (h : Grown p m q) : q.body main = p.body main := h.isLocal.body h.inner.symm

theorem exists_instr (h : Grown p m q) (hl : p.Linked) (hi : p.instr? i = some inst) :
    ∃ inst', q.instr? i = some inst' ∧ inst.core = inst'.core := by
  refine (h.isLocal.core ?_ (hl.listed hi)).symm.exists_instr hi
  rintro rfl
  obtain ⟨module, hm, -⟩ := hl.owner_alive hi
  rw [h.gone] at hm
  cases hm

/-- **The main module is as it was.** -/
theorem advance (h : Grown p m q) (hl : p.Linked) : Advance p q := by
  refine ⟨h.steady, h.mainFree, evolved_of_kept h.body_main hl (fun {k} _ halive => ?_)
    (fun {j inst} hj => ?_) (.of_sameCore fun {j b} hj hb _ => ?_)⟩
  · have hkm : k ≠ m := by
      rintro rfl
      rw [h.gone] at halive
      cases halive
    exact ⟨by rwa [h.isLocal.module? hkm], .of_local h.isLocal hl hkm⟩
  · obtain ⟨inst', hq, hc⟩ := h.exists_instr hl hj
    obtain ⟨hop, -, -, hty, ho⟩ := Instruction.core_eq_iff.mp hc
    exact ⟨inst', hq, ho.symm, .inl hop.symm, hty ▸ .refl _⟩
  · have hlq := h.steady.toLinked
    have hcore : ∀ {x}, x ∈ q.body main → SameCore p q x := fun hx =>
      h.isLocal.core h.inner.symm (h.body_main ▸ hx)
    exact ⟨h.body_main ▸ hj, hcore hj, fun x hx => hcore (hlq.mem_body_of_uses hj ⟨b, hb, hx⟩)⟩

/-! ### Edits of the new module -/

theorem insertAt (h : Grown p m q) (hend : q.EndSafe m n op) (hmod : p.Inner m modules)
    (hok : Edit.insertAt m n op inputs modules q = .ok i r) : Grown p m r := by
  have hins := inserted_of_ok h.steady.toLinked hok
  exact ⟨h.gone, h.inner, h.steady.insertAt (fun _ => h.free _) hend hmod.1 hok,
    hins.free h.free hmod.1, fun hfree => hins.free (h.mainFree hfree) (hmod.2 hfree),
    h.isLocal.trans hins.isLocal⟩

theorem removeInstruction {u : Unit} (h : Grown p m q) (hi : i ∈ q.body m)
    (hok : Edit.removeInstruction i q = .ok u r) : Grown p m r := by
  obtain ⟨inst, k, n, hinst, hc, hloc, rfl⟩ := Edit.removeInstruction_ok.mp hok
  obtain ⟨inst', -, hinst', hk, -, -⟩ := locate_ok.mp hloc
  rw [hinst] at hinst'
  cases hinst'
  obtain rfl : k = m := hk.symm.trans (h.steady.owner_unique hinst hi)
  have hl := h.steady.toLinked
  have hleft : ∀ {x : ModuleId}, q.Free x → (q.removed i k n).Free x := by
    intro x hfree j a hj
    have hji : j ≠ i := by
      rintro rfl
      rw [instr?_removed hinst, if_pos rfl] at hj
      cases hj
    obtain ⟨a', hj', hcore⟩ := (sameCore_removed hinst hji).exists_instr hj
    exact (Instruction.core_eq_iff.mp hcore).2.2.1 ▸ hfree j a' hj'
  exact ⟨h.gone, h.inner, h.steady.removed hinst hc hloc fun _ => .inl (h.free _), hleft h.free,
    fun hfree => hleft (h.mainFree hfree), h.isLocal.trans (Local.removed hl hinst hloc)⟩

end Grown

/-! ## Nesting -/

/-- The new module carries only what was nested. -/
structure Nesting (p : Program) (m : ModuleId) (q : Program) : Prop extends Grown p m q where
  base : p.Framed
  carries : ∀ {i op k}, q.Carries i op m k → p.Nested k

namespace Nesting

theorem opened (h : p.Steady (some main)) (hmain : i ∈ p.body main) (name : String) :
    Nesting p p.nextModule (p.opened name) := by
  refine ⟨.opened h hmain name, h.toFramed, fun {i op k} ⟨inst, hi, _, ho, _⟩ => ?_⟩
  obtain ⟨module, hm, -⟩ := h.owner_alive (i := i) hi
  rw [ho, module?_nextModule] at hm
  cases hm

theorem body_of_below (h : Nesting p m q) (hk : p.Below k) : q.body k = p.body k := by
  refine h.isLocal.body ?_
  rintro rfl
  have halive := hk.alive h.base
  rw [h.gone] at halive
  cases halive

theorem nested_modules (h : Nesting p m q) (hk : p.Below k) (hi : i ∈ p.body k)
    (hinst : q.instr? i = some inst) : ∀ x ∈ inst.modules, p.Nested x := by
  intro x hx
  obtain ⟨inst', hi', ho⟩ := h.base.owned hi
  obtain ⟨inst'', hi'', hc⟩ := h.exists_instr h.base.toLinked hi'
  cases hinst.symm.trans hi''
  exact ⟨k, hk, i, inst', hi', ho, (Instruction.core_eq_iff.mp hc).2.2.1 ▸ hx⟩

theorem inner_of_nested (h : Nesting p m q) (hmod : ∀ k ∈ modules, p.Nested k) :
    p.Inner m modules := by
  refine ⟨fun hm => ?_, fun hfree hmain => ?_⟩
  · have halive := (hmod m hm).below.alive h.base
    rw [h.gone] at halive
    cases halive
  · obtain ⟨_, -, i, inst, hi, -, hk⟩ := hmod main hmain
    exact hfree i inst hi hk

/-- **The new module is on its way to its place.** -/
theorem placing (h : Nesting p m q) : Placing m none [m] p q := by
  have hl := h.base.toLinked
  refine ⟨h.gone, fun {k} _ halive => ?_, fun {i op a k} hc => ?_, fun hp k halive hk => ?_⟩
  · by_cases hk : k = m
    · exact .inl hk
    · exact .inr (h.isLocal.module? hk ▸ halive)
  · by_cases ha : a = m
    · exact .inr (.inl ⟨ha, h.carries (ha ▸ hc)⟩)
    · obtain ⟨inst, hi, rfl, rfl, hk⟩ := hc
      obtain ⟨inst', hi', hcore⟩ := h.isLocal.outside h.steady.toLinked hi ha
      obtain ⟨hop, -, hmodules, -, ho⟩ := Instruction.core_eq_iff.mp hcore
      exact .inl ⟨inst', hi', hop.symm, ho.symm, hmodules ▸ hk⟩
  · by_cases hkm : k = m
    · exact .inl (List.mem_singleton.mpr hkm)
    · rw [h.isLocal.module? hkm] at halive
      obtain hmem | ⟨a, i, inst, hi, ho, hmem⟩ := hp k halive hk
      · cases hmem
      · obtain ⟨inst', hi', hcore⟩ := h.exists_instr hl hi
        obtain ⟨-, -, hmodules, -, hown⟩ := Instruction.core_eq_iff.mp hcore
        exact .inr ⟨a, i, inst', hi', hown ▸ ho, hmodules ▸ hmem⟩

/-! ### Filling the new module -/

theorem insertAt (h : Nesting p m q) (hend : q.EndSafe m n op)
    (hmod : ∀ k ∈ modules, p.Nested k)
    (hok : Edit.insertAt m n op inputs modules q = .ok i r) : Nesting p m r := by
  have hins := inserted_of_ok h.steady.toLinked hok
  refine ⟨h.toGrown.insertAt hend (h.inner_of_nested hmod) hok, h.base, fun {j o k} hc => ?_⟩
  by_cases hj : j = i
  · subst hj
    obtain ⟨inst, hi, -, -, hk⟩ := hc
    obtain ⟨type, -, hnew⟩ := hins.new
    cases hi.symm.trans hnew
    exact hmod k hk
  · exact h.carries (hc.of_outline (hins.old hj).outline)

theorem addInstruction (h : Nesting p m q) (hop : op.isReturn = false)
    (hmod : ∀ k ∈ modules, p.Nested k)
    (hok : Edit.addInstruction m op inputs modules q = .ok i r) : Nesting p m r := by
  obtain ⟨module, hm, hins⟩ := Edit.addInstruction_ok.mp hok
  rw [← body_of_module? hm] at hins
  exact h.insertAt (endSafe_append hop) hmod hins

theorem addParameter {name : String} {type : TensorType} (h : Nesting p m q)
    (hok : Edit.addParameter m name type q = .ok i r) : Nesting p m r := by
  obtain ⟨-, module, hm, hins⟩ := Edit.addParameter_ok.mp hok
  rw [← body_of_module? hm] at hins
  exact h.insertAt (endSafe_parametersEnd rfl) (List.forall_mem_nil _) hins

theorem addLiteral {type : TensorType} {data : LiteralData} (h : Nesting p m q)
    (hok : Edit.addLiteral m type data q = .ok i r) : Nesting p m r := by
  obtain ⟨module, hm, hins⟩ := Edit.addLiteral_ok.mp hok
  rw [← body_of_module? hm] at hins
  exact h.insertAt (endSafe_parametersEnd rfl) (List.forall_mem_nil _) hins

theorem addReturn (h : Nesting p m q) (hok : Edit.addReturn m inputs q = .ok i r) :
    Nesting p m r := by
  obtain ⟨hnone, module, hm, hins⟩ := Edit.addReturn_ok.mp hok
  rw [← body_of_module? hm] at hins
  exact h.insertAt (.inr ⟨rfl, hnone⟩) (List.forall_mem_nil _) hins

theorem stack {ops : List Op} {base : InstrId} (h : Nesting p m q)
    (hops : ∀ op ∈ ops, op.isReturn = false)
    (hok : ReshapeChain.stack m ops base q = .ok i r) : Nesting p m r := by
  induction ops generalizing q base with
  | nil =>
    cases hok
    exact h
  | cons op ops ih =>
    rw [ReshapeChain.stack, Action.bind_ok] at hok
    obtain ⟨value, t, hadd, hok⟩ := hok
    have hstep := h.addInstruction (hops op List.mem_cons_self) (List.forall_mem_nil _) hadd
    exact ih hstep (fun op hop => hops op (List.mem_cons_of_mem _ hop)) hok

theorem removeInstruction {u : Unit} (h : Nesting p m q) (hi : i ∈ q.body m)
    (hok : Edit.removeInstruction i q = .ok u r) : Nesting p m r := by
  have hgrown := h.toGrown.removeInstruction hi hok
  obtain ⟨inst, a, n, hinst, -, hloc, rfl⟩ := Edit.removeInstruction_ok.mp hok
  refine ⟨hgrown, h.base, fun {j op k} hc => h.carries (hc.of_outline ?_)⟩
  refine (changesAt_removed h.steady.toLinked hinst hloc).outline ?_
  rintro rfl
  obtain ⟨b, hb, -⟩ := hc
  rw [instr?_removed hinst, if_pos rfl] at hb
  cases hb

/-! ### Copies of modules -/

/-- Copies of instructions in order, the return last. -/
theorem copyBody {copies copies' : Renaming} {e l : List InstrId} (h : Nesting p m q)
    (hk : p.Below k) (hbody : p.body k = e ++ l) (hnone : l ≠ [] → q.return? m = none)
    (himage : ∀ j j', copies.image? j = some j' → j' ∈ q.body m)
    (hok : Edit.copyBody m l copies q = .ok copies' r) :
    Nesting p m r ∧ ∀ j j', copies'.image? j = some j' → j' ∈ r.body m := by
  induction l generalizing q e copies with
  | nil =>
    cases hok
    exact ⟨h, himage⟩
  | cons i l ih =>
    simp only [Edit.copyBody, Action.get_bind_ok, Action.lift_bind_ok, findInstr_ok] at hok
    obtain ⟨inst, hi, inputs, -, hok⟩ := hok
    rw [Action.bind_ok] at hok
    obtain ⟨copy, t, hins, hok⟩ := hok
    have hend := hnone (List.cons_ne_nil i l)
    have hmem : i ∈ p.body k := hbody ▸ List.mem_append_right e List.mem_cons_self
    have hstep := h.insertAt (.inr ⟨rfl, hend⟩) (h.nested_modules hk hmem hi) hins
    have hnew := inserted_of_ok h.steady.toLinked hins
    have hbody' : t.body m = q.body m ++ [copy] := by
      rw [hnew.body, List.insertIdx_length_self]
    refine ih hstep (e := e ++ [i]) (by rw [hbody, List.append_assoc]; rfl) (fun hl => ?_)
      (fun j j' hj => ?_) hok
    · refine return?_eq_none.mpr fun x hlast hret => ?_
      rw [hbody', List.getLast?_concat] at hlast
      cases hlast
      obtain ⟨type, -, hcopy⟩ := hnew.new
      rw [hasOp, hcopy, Option.any_some] at hret
      -- the copied instruction is a return, so nothing follows it in its module
      obtain ⟨inst', hi', ho⟩ := h.base.owned hmem
      obtain ⟨inst'', hi'', hc⟩ := h.exists_instr h.base.toLinked hi'
      rw [hi] at hi''
      cases hi''
      have hop := (Instruction.core_eq_iff.mp hc).1
      have hlast := h.base.returns hi' (hop ▸ hret)
      have hn := h.base.nodup k
      rw [ho, hbody] at hlast
      rw [hbody] at hn
      exact hl ((getLast?_append_cons hn).mp hlast)
    · rw [hbody']
      exact Renaming.related_insert (R := fun _ j' => j' ∈ q.body m ++ [copy])
        (List.mem_append_right _ (List.mem_singleton_self copy))
        (fun j j' hj => List.mem_append_left _ (himage j j' hj)) j j' hj

theorem copyModule {name : String} {copies : Renaming} (h : p.Steady (some main))
    (hmain : i ∈ p.body main) (hk : p.Below k)
    (hok : Edit.copyModule k name p = .ok (m, copies) q) :
    Nesting p m q ∧ ∀ j j', copies.image? j = some j' → j' ∈ q.body m := by
  simp only [Edit.copyModule, Action.get_bind_ok, Action.lift_bind_ok, findModule_ok] at hok
  obtain ⟨module, hmodule, hok⟩ := hok
  simp only [Action.bind_ok, Action.pure_ok, Edit.createModule_ok] at hok
  obtain ⟨_, _, ⟨-, rfl, rfl⟩, _, _, hcopy, he, rfl⟩ := hok
  cases he
  have hopened := Nesting.opened h hmain name
  refine hopened.copyBody hk (e := []) (body_of_module? hmodule) (fun _ => ?_)
    (fun j j' hj => ?_) hcopy
  · rw [return?, body_opened, body, module?_nextModule]
    rfl
  · cases hj

end Nesting

end Program

end OffloadFusion
