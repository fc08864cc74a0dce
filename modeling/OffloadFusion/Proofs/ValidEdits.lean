import OffloadFusion.Proofs.Local
import OffloadFusion.Proofs.Removing

/-!
# Building and removing in steady programs

What an insertion, a new module and removals do to a steady program.

* `Inserted`: what an insertion leaves behind. It keeps a program steady unless it puts something
  after a return or a return before something (`Steady.insertAt`).
* `Steady.removed`: the end of an instruction that nothing uses.
* `Dropped`, `Steady.dropped`: the end of modules that nothing outside of them references.
-/

namespace OffloadFusion.Program

variable {p q r : Program} {i j x : InstrId} {m k : ModuleId} {n : Nat} {inst : Instruction}
  {op : Op} {inputs : List InstrId} {modules : List ModuleId} {module : Module}
  {e : Option ModuleId}

/-! ## Returns -/

theorem return?_eq_some : p.return? m = some i ↔
    (p.body m).getLast? = some i ∧ p.hasOp Op.isReturn i = true := by
  rw [return?, Option.filter_eq_some_iff]

theorem return?_eq_none : p.return? m = none ↔
    ∀ i, (p.body m).getLast? = some i → p.hasOp Op.isReturn i ≠ true := by
  rw [return?, Option.filter_eq_none_iff]

theorem Framed.return?_of_isReturn (h : p.Framed) (hi : p.instr? i = some inst)
    (hret : inst.op.isReturn) : p.return? inst.owner = some i :=
  return?_eq_some.mpr ⟨h.returns hi hret, hasOp_iff.mpr ⟨inst, hi, hret⟩⟩

theorem Framed.nil_of_return (h : p.Framed) {done rest : List InstrId}
    (hsplit : p.body m = done ++ i :: rest) (hret : p.hasOp Op.isReturn i = true) : rest = [] := by
  obtain ⟨inst, hi, hret⟩ := hasOp_iff.mp hret
  have hmem : i ∈ p.body m := hsplit ▸ List.mem_append_right done List.mem_cons_self
  have hlast := h.returns hi hret
  have hn := h.nodup m
  rw [h.owner_unique hi hmem, hsplit] at hlast
  rw [hsplit] at hn
  exact (getLast?_append_cons hn).mp hlast

theorem Framed.isReturn_of_before (h : p.Framed) (hbefore : Before (p.body m) i j) :
    p.hasOp Op.isReturn i = false := by
  obtain ⟨pre, post, hsplit, hi⟩ := before_iff.mp hbefore
  obtain ⟨done, rest, rfl⟩ := List.append_of_mem hi
  rw [List.append_assoc, List.cons_append] at hsplit
  rw [Bool.eq_false_iff]
  exact fun hret => List.append_ne_nil_of_right_ne_nil rest (List.cons_ne_nil j post)
    (h.nil_of_return hsplit hret)

/-! ## Insertion -/

/-- What an insertion at a position leaves behind. -/
structure Inserted (m : ModuleId) (n : Nat) (op : Op) (inputs : List InstrId)
    (modules : List ModuleId) (p : Program) (i : InstrId) (q : Program) : Prop where
  gone : p.instr? i = none
  new : ∃ type, p.infer op inputs modules = .ok type ∧
    q.instr? i = some { op, inputs, modules, type, consumers := [], owner := m }
  old : ∀ {j}, j ≠ i → SameCore p q j
  body : q.body m = (p.body m).insertIdx n i
  isLocal : Local m p q

theorem inserted_of_ok (hl : p.Linked) (hok : Edit.insertAt m n op inputs modules p = .ok i q) :
    Inserted m n op inputs modules p i q := by
  obtain ⟨module, type, hm, hc, hinfer, rfl, rfl⟩ := Edit.insertAt_ok.mp hok
  have hx : p.nextId ∉ inputs := fun hmem => by
    obtain ⟨-, _, -, hin⟩ := Edit.checkPlacement_ok.mp hc
    obtain ⟨⟨xinst, hx, -⟩, -⟩ := hin _ hmem
    rw [instr?_nextId] at hx
    cases hx
  have hview := @instr?_inserted p m n
    { op, inputs, modules, type, consumers := [], owner := m } hx
  have hold : ∀ {j}, j ≠ p.nextId → SameCore p _ j := fun {j} hj => by
    rw [SameCore, hview, if_neg hj, Option.map_map]
    congr 1
    funext inst
    simp only [Function.comp_apply]
    split <;> simp
  refine ⟨instr?_nextId p, ⟨type, hinfer, by rw [hview, if_pos rfl]⟩, hold, ?_, ?_⟩
  · rw [body_inserted hm, if_pos rfl]
  · refine ⟨?_, fun hk => ?_, fun {k j} hk hj => hold ?_⟩
    · rw [module?_inserted, if_pos rfl, hm]
      rfl
    · rw [module?_inserted, if_neg (Ne.symm hk)]
    · rintro rfl
      obtain ⟨inst, hi, -⟩ := hl.owned hj
      rw [instr?_nextId] at hi
      cases hi

theorem Inserted.ne_of_mem (h : Inserted m n op inputs modules p i q) (hl : p.Linked)
    (hj : j ∈ p.body k) : j ≠ i := by
  rintro rfl
  obtain ⟨inst, hj, -⟩ := hl.owned hj
  rw [h.gone] at hj
  cases hj

/-- The position is no place after a return, and a return only goes to the end. -/
def EndSafe (p : Program) (m : ModuleId) (n : Nat) (op : Op) : Prop :=
  (n < (p.body m).length ∧ op.isReturn = false) ∨ (n = (p.body m).length ∧ p.return? m = none)

theorem EndSafe.le (h : p.EndSafe m n op) : n ≤ (p.body m).length := by
  obtain ⟨h, -⟩ | ⟨h, -⟩ := h <;> omega

theorem getLast?_insertIdx {l : List InstrId} (hn : n < l.length) :
    (l.insertIdx n x).getLast? = l.getLast? := by
  rw [insertIdx_eq_take_drop (Nat.le_of_lt hn), List.getLast?_append, List.getLast?_cons,
    List.getLast?_drop, if_neg (by omega)]
  cases h : l.getLast? with
  | none =>
    rw [List.getLast?_eq_none_iff] at h
    simp [h] at hn
  | some y => rfl

/-- What is last stays last, or there was no return and the new instruction is last. -/
theorem EndSafe.getLast? (h : p.EndSafe m n op) :
    ((p.body m).insertIdx n x).getLast? = (p.body m).getLast? ∧ op.isReturn = false ∨
      ((p.body m).insertIdx n x).getLast? = some x ∧ p.return? m = none := by
  obtain ⟨hn, hop⟩ | ⟨rfl, hnone⟩ := h
  · exact .inl ⟨getLast?_insertIdx hn, hop⟩
  · refine .inr ⟨?_, hnone⟩
    rw [List.insertIdx_length_self, List.getLast?_concat]

/-- **An insertion into a module that nothing else carries keeps a program steady.** -/
theorem Steady.insertAt (h : p.Steady e) (hu : ∀ {j}, p.SparesAny e j → p.Spares m j)
    (hend : p.EndSafe m n op) (hmod : m ∉ modules)
    (hok : Edit.insertAt m n op inputs modules p = .ok i q) : q.Steady e := by
  have hins := inserted_of_ok h.toLinked hok
  have hlq : q.Linked := by
    obtain ⟨module, type, hm, hc, -, -, rfl⟩ := Edit.insertAt_ok.mp hok
    exact h.toLinked.insert hm (body_of_module? hm ▸ hend.le)
      (Edit.mem_take_of_checkPlacement hc hm) rfl rfl
  have htypes : ∀ y t, p.HasType y t → q.HasType y t := by
    rintro y t ⟨yinst, hy, rfl⟩
    refine (hins.old ?_).hasType ⟨yinst, hy, rfl⟩
    rintro rfl
    rw [hins.gone] at hy
    cases hy
  refine h.of_local hlq hins.isLocal (fun hs => .inl (hu hs)) fun {j inst} hj ho => ?_
  by_cases hji : j = i
  · subst hji
    obtain ⟨type, hinfer, hnew⟩ := hins.new
    rw [hnew] at hj
    cases hj
    refine ⟨⟨fun hret => ?_, fun k hk => ?_⟩, ?_⟩
    · rw [hins.body]
      obtain ⟨-, hop⟩ | ⟨he, -⟩ := hend.getLast? (x := j)
      · rw [hop] at hret
        cases hret
      · exact he
    · have hne : k ≠ m := fun he => hmod (he ▸ hk)
      obtain ⟨types, signatures, -, hsigs, -⟩ := infer_ok.mp hinfer
      obtain ⟨s, -, hs⟩ := forall₂_exists hsigs hk
      obtain ⟨module, hk', -⟩ := signature_ok.mp hs
      rw [hins.isLocal.module? hne, hk']
      exact ⟨rfl, hne⟩
    · intro _ inst hi
      rw [hnew] at hi
      cases hi
      refine infer_keep (fun y _ t ht => htypes y t ht) (fun k hk s hs => ?_) hinfer
      exact hins.isLocal.signature h.toLinked (fun he => hmod (he ▸ hk)) hs
  · obtain ⟨inst', hj', hcore⟩ := (hins.old hji).exists_instr hj
    obtain ⟨hop, -, hmodules, -, howner⟩ := Instruction.core_eq_iff.mp hcore
    refine ⟨⟨fun hret => ?_, fun k hk => ?_⟩, ?_⟩
    · have hlast := h.return?_of_isReturn hj' (hop ▸ hret)
      rw [← howner, ho] at hlast
      rw [hins.body]
      obtain ⟨he, -⟩ | ⟨-, hnone⟩ := hend.getLast? (x := i)
      · rw [he]
        exact (return?_eq_some.mp hlast).1
      · rw [hlast] at hnone
        cases hnone
    · obtain ⟨hk', hne⟩ := h.referenced hj' (hmodules ▸ hk)
      rw [← howner, ho] at hne
      exact ⟨by rwa [hins.isLocal.module? hne], hne⟩
    · intro hs
      have hp := (hins.old hji).sparesAny hs
      exact hins.isLocal.fresh h.toLinked (.inl (hu hp)) (hins.old hji)
        (fun y _ t ht => htypes y t ht) (h.fresh hp)

theorem Inserted.free (h : Inserted m n op inputs modules p i q) (hfree : p.Free k)
    (hk : k ∉ modules) : q.Free k := by
  intro j inst hj
  by_cases hji : j = i
  · subst hji
    obtain ⟨type, -, hnew⟩ := h.new
    rw [hnew] at hj
    cases hj
    exact hk
  · obtain ⟨inst', hj', hcore⟩ := (h.old hji).exists_instr hj
    rw [(Instruction.core_eq_iff.mp hcore).2.2.1]
    exact hfree j inst' hj'

/-! ## A new module -/

theorem Local.opened (p : Program) (name : String) : Local p.nextModule p (p.opened name) :=
  ⟨by rw [module?_opened, if_pos rfl]; rfl, fun hk => by rw [module?_opened, if_neg hk],
    fun _ _ => rfl⟩

/-- Nothing references a module that is not there yet. -/
theorem Framed.free_of_gone (h : p.Framed) (hm : p.module? m = none) : p.Free m := by
  intro i inst hi hmem
  have halive := (h.referenced hi hmem).1
  rw [hm] at halive
  cases halive

/-- **A new module keeps a program steady.** -/
theorem Steady.opened (h : p.Steady e) (name : String) : (p.opened name).Steady e := by
  have hlq : (p.opened name).Linked := h.toLinked.of_links (fun _ => rfl) (p.body_opened name)
  refine h.of_local hlq (.opened p name)
    (fun _ => .inl (h.free_of_gone p.module?_nextModule _)) ?_
  intro i inst hi ho
  have hmem := h.listed hi
  rw [ho, body, module?_nextModule] at hmem
  cases hmem

/-! ## The end of an instruction -/

section

variable (hl : p.Linked) (hi : p.instr? i = some inst) (hloc : p.locate i = .ok (m, n))

include hi in
theorem sameCore_removed (hj : j ≠ i) : SameCore p (p.removed i m n) j := by
  rw [SameCore, instr?_removed hi, if_neg (Ne.symm hj), Option.map_map]
  congr 1
  funext a
  simp only [Function.comp_apply]
  split <;> rfl

include hl hi hloc in
theorem Local.removed : Local m p (p.removed i m n) := by
  obtain ⟨inst', module, hi', hm, hmod, -⟩ := locate_ok.mp hloc
  rw [hi] at hi'
  cases hi'
  refine ⟨?_, fun {k} hk => ?_, fun {k j} hk hj => sameCore_removed hi ?_⟩
  · rw [module?_removed hl hi hloc, hmod]
    rfl
  · rw [Program.removed, module?_eraseInstr, module?_modifyBody, if_neg (Ne.symm hk)]
  · rintro rfl
    exact hk ((hl.owner_unique hi hj).symm.trans hm)

end

theorem getLast?_filter_of {l : List InstrId} {f : InstrId → Bool} (h : l.getLast? = some i)
    (hf : f i = true) : (l.filter f).getLast? = some i := by
  obtain ⟨ys, rfl⟩ := List.getLast?_eq_some_iff.mp h
  rw [List.filter_append, List.filter_cons_of_pos hf, List.filter_nil, List.getLast?_concat]

/-- **The end of an instruction that nothing uses keeps a program steady** if the change goes
unnoticed. -/
theorem Steady.removed (h : p.Steady e) (hi : p.instr? i = some inst) (hc : inst.consumers = [])
    (hloc : p.locate i = .ok (m, n))
    (hu : ∀ {j}, p.SparesAny e j → Local.Unnoticed m p (p.removed i m n) j) :
    (p.removed i m n).Steady e := by
  have hl := h.toLinked
  have hlocal := Local.removed hl hi hloc
  have hunused : ∀ j, ¬ p.Uses j i := fun j huse => by
    have hmem := (hl.mirrored hi).mpr huse
    rw [hc] at hmem
    cases hmem
  refine h.of_local (hl.removed hi hloc hc) hlocal hu fun {j a} hj ho => ?_
  have hji : j ≠ i := by
    rintro rfl
    rw [instr?_removed hi, if_pos rfl] at hj
    cases hj
  obtain ⟨a', hj', hcore⟩ := (sameCore_removed hi hji).exists_instr hj
  obtain ⟨hop, -, hmodules, -, howner⟩ := Instruction.core_eq_iff.mp hcore
  rw [howner] at ho
  refine ⟨⟨fun hret => ?_, fun k hk => ?_⟩, ?_⟩
  · rw [body_removed hl hi hloc, ← ho]
    exact getLast?_filter_of (h.returns hj' (hop ▸ hret)) (decide_eq_true hji)
  · obtain ⟨hk', hne⟩ := h.referenced hj' (hmodules ▸ hk)
    rw [ho] at hne
    rw [hlocal.module? hne]
    exact ⟨hk', hne⟩
  · intro hs
    have hp := (sameCore_removed hi hji).sparesAny hs
    refine hlocal.fresh hl (hu hp) (sameCore_removed hi hji) (fun x hx t ht => ?_) (h.fresh hp)
    refine (sameCore_removed hi ?_).hasType ht
    rintro rfl
    exact hunused j hx

/-! ## The end of modules -/

/-- Some modules are gone with their instructions. -/
structure Dropped (dead : List ModuleId) (p q : Program) : Prop where
  module? : ∀ k, q.module? k = if k ∈ dead then none else p.module? k
  instr? : ∀ j, q.instr? j = (p.instr? j).filter fun inst => inst.owner ∉ dead

namespace Dropped

variable {dead dead' : List ModuleId}

theorem refl (p : Program) : Dropped [] p p :=
  ⟨fun k => by simp, fun j => by cases p.instr? j <;> rfl⟩

theorem trans (h : Dropped dead p q) (h' : Dropped dead' q r) : Dropped (dead ++ dead') p r := by
  refine ⟨fun k => ?_, fun j => ?_⟩
  · rw [h'.module?, h.module?]
    by_cases hk : k ∈ dead <;> by_cases hk' : k ∈ dead' <;> simp [hk, hk']
  · rw [h'.instr?, h.instr?, Option.filter_filter]
    congr 1
    funext inst
    simp [not_or]

theorem of_moduleRemoved (hl : p.Linked) (hm : p.module? m = some module) :
    Dropped [m] p (p.moduleRemoved m module) := by
  refine ⟨fun k => ?_, fun j => ?_⟩
  · rw [module?_moduleRemoved]
    by_cases hk : k = m
    · simp [hk]
    · simp [hk, Ne.symm hk]
  · rw [instr?_moduleRemoved hl hm]
    cases hj : p.instr? j with
    | none => split <;> rfl
    | some inst =>
      by_cases ho : inst.owner = m
      · have hmem := hl.listed hj
        rw [ho] at hmem
        rw [if_pos hmem, Option.filter_some, if_neg (by simp [ho])]
      · rw [if_neg (hl.notMem_body hj ho), Option.filter_some, if_pos (by simp [ho])]

theorem exists_instr (h : Dropped dead p q) (hi : q.instr? i = some inst) :
    p.instr? i = some inst ∧ inst.owner ∉ dead := by
  rw [h.instr?, Option.filter_eq_some_iff] at hi
  exact ⟨hi.1, of_decide_eq_true hi.2⟩

theorem instr?_of_owner (h : Dropped dead p q) (hi : p.instr? i = some inst)
    (ho : inst.owner ∉ dead) : q.instr? i = some inst := by
  rw [h.instr?, Option.filter_eq_some_iff]
  exact ⟨hi, decide_eq_true ho⟩

theorem body (h : Dropped dead p q) (hk : k ∉ dead) : q.body k = p.body k := by
  rw [Program.body, h.module?, if_neg hk, Program.body]

theorem sameCore (h : Dropped dead p q) (hl : p.Linked) (hk : k ∉ dead) (hj : j ∈ p.body k) :
    SameCore p q j := by
  obtain ⟨inst, hi, rfl⟩ := hl.owned hj
  rw [SameCore, h.instr?_of_owner hi hk, hi]

theorem signature (h : Dropped dead p q) (hl : p.Linked) (hk : k ∉ dead) {s : Signature}
    (hs : p.signature k = .ok s) : q.signature k = .ok s :=
  signature_of_sameCore hl.wired (by rw [h.module?, if_neg hk])
    (fun _ hj => h.sameCore hl hk hj) hs

end Dropped

/-- **The end of modules that nothing else references keeps a program steady.** -/
theorem Steady.dropped {dead : List ModuleId} (h : p.Steady e) (hd : Dropped dead p q)
    (hl : q.Linked) (href : ∀ {i inst}, p.instr? i = some inst → inst.owner ∉ dead →
      ∀ k ∈ inst.modules, k ∉ dead) : q.Steady e := by
  refine { toLinked := hl, returns := ?_, referenced := ?_, fresh := ?_ }
  · intro i inst hi hret
    obtain ⟨hi', ho⟩ := hd.exists_instr hi
    rw [hd.body ho]
    exact h.returns hi' hret
  · intro i inst k hi hk
    obtain ⟨hi', ho⟩ := hd.exists_instr hi
    rw [hd.module?, if_neg (href hi' ho k hk)]
    exact h.referenced hi' hk
  · intro i hs inst hi
    obtain ⟨hi', ho⟩ := hd.exists_instr hi
    have hp : p.SparesAny e i := fun m hm inst' hinst' => by
      cases hi'.symm.trans hinst'
      exact hs m hm inst hi
    refine infer_keep (fun x hx t ht => ?_) (fun k hk s hs => ?_) (h.fresh hp inst hi')
    · exact (hd.sameCore h.toLinked ho (h.ordered hi' hx).left_mem).hasType ht
    · exact hd.signature h.toLinked (href hi' ho k hk) hs

end OffloadFusion.Program
