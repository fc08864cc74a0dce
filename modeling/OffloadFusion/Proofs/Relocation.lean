import OffloadFusion.Proofs.Interface

/-!
# Moving instructions

`Edit.relocateDependents i place` moves what depends on `i` behind the rest of the part of the order
from `i` up to `place`, one instruction after the other. On the way operands may stand behind their
users. The end is a stable partition (`relocateDependents_ok`), which is an order of a linked
program again (`Linked.reordered`) and leaves types fresh (`Steady.reordered`).
-/

namespace OffloadFusion.Program

variable {p q r : Program} {i j place : InstrId} {m k : ModuleId} {inst : Instruction}
  {l pre post kept todo moved : List InstrId} {u : Unit}

/-! ## Orders -/

/-- The programs differ in the order of one module only. -/
structure Reordered (m : ModuleId) (l : List InstrId) (p q : Program) : Prop where
  instr? : ∀ j, q.instr? j = p.instr? j
  module? : ∀ {k}, k ≠ m → q.module? k = p.module? k
  self : ∃ module, q.module? m = some module ∧ module.body = l

namespace Reordered

theorem body (h : Reordered m l p q) : q.body m = l := by
  obtain ⟨module, hm, hb⟩ := h.self
  exact (body_of_module? hm).trans hb

theorem body_ne (h : Reordered m l p q) (hk : k ≠ m) : q.body k = p.body k := by
  rw [Program.body, h.module? hk, Program.body]

theorem uses (h : Reordered m l p q) {c x : InstrId} : q.Uses c x ↔ p.Uses c x := by
  rw [Uses, h.instr?, Uses]

theorem reaches (h : Reordered m l p q) (a b : InstrId) : q.reaches a b = p.reaches a b := by
  rw [Bool.eq_iff_iff, reaches_iff, reaches_iff, DependsOn, DependsOn]
  have huses : (fun x y => q.Uses y x) = fun x y => p.Uses y x := by
    funext x y
    exact propext h.uses
  rw [huses]

theorem locate (h : Reordered m l p q) (hi : p.instr? i = some inst) (ho : inst.owner = m)
    {n : Nat} (hn : l.idxOf? i = some n) : q.locate i = .ok (m, n) := by
  obtain ⟨module, hm, rfl⟩ := h.self
  exact locate_ok.mpr ⟨inst, module, (h.instr? i).trans hi, ho, hm, hn⟩

end Reordered

theorem idxOf?_append_cons (hi : i ∉ pre) : (pre ++ i :: post).idxOf? i = some pre.length := by
  rw [List.idxOf?_eq_some_iff]
  refine ⟨by simp, by simp, fun n hn => ?_⟩
  rw [List.getElem_append_left hn]
  exact fun he => hi (he ▸ List.getElem_mem hn)

theorem Reordered.modifyBody (h : Reordered m l p q) (f : List InstrId → List InstrId) :
    Reordered m (f l) p (q.modifyBody m f) := by
  obtain ⟨module, hm, rfl⟩ := h.self
  refine ⟨h.instr?, fun hk => ?_, { module with body := f module.body }, ?_, rfl⟩
  · rw [module?_modifyBody, if_neg (Ne.symm hk), h.module? hk]
  · rw [module?_modifyBody, if_pos rfl, hm]
    rfl

theorem Reordered.moveBefore (h : Reordered m (pre ++ j :: (todo ++ place :: post)) p q)
    (hn : (pre ++ j :: (todo ++ place :: post)).Nodup) (hj : p.instr? j = some inst)
    (ho : inst.owner = m) (hok : Edit.moveBefore j place q = .ok u r) :
    Reordered m (pre ++ todo ++ j :: place :: post) p r := by
  obtain ⟨hpre, hrest, hdis⟩ := List.nodup_append.mp hn
  have hjpre : j ∉ pre := fun hmem => hdis j hmem j List.mem_cons_self rfl
  have hplace : place ∉ pre ++ todo := by
    rw [List.mem_append, not_or]
    refine ⟨fun hmem => hdis place hmem place (by simp) rfl, fun hmem => ?_⟩
    have htodo := (List.nodup_append.mp (List.nodup_cons.mp hrest).2).2.2
    exact htodo place hmem place List.mem_cons_self rfl
  have hsource := h.locate hj ho (idxOf?_append_cons hjpre)
  have herase : (pre ++ j :: (todo ++ place :: post)).eraseIdx pre.length =
      pre ++ todo ++ place :: post := by
    rw [List.eraseIdx_append_of_length_le (Nat.le_refl _), Nat.sub_self, List.eraseIdx_cons_zero,
      List.append_assoc]
  have hmid := h.modifyBody fun l => l.eraseIdx pre.length
  rw [herase] at hmid
  simp only [Edit.moveBefore, Action.get_bind_ok, Action.lift_bind_ok, hsource, Prod.exists,
    Except.ok.injEq, Prod.mk.injEq, Action.ite_ok, Action.refuse_bind_ok, exists_false, and_false,
    false_or, Action.set_bind_ok, findModule_ok] at hok
  obtain ⟨_, _, ⟨rfl, rfl⟩, k, _, hloc, -, hok⟩ := hok
  rw [hmid.body, idxOf?_append_cons hplace] at hok
  rw [Action.set_ok] at hok
  have hend := hmid.modifyBody fun l => l.insertIdx (pre ++ todo).length j
  rwa [insertIdx_eq_take_drop (by simp), List.take_left, List.drop_left, hok] at hend

/-! ## The loop -/

/-- One round: an instruction that depends on `i` goes to the end of those moved before, any other
one stays. -/
theorem Reordered.relocateOne
    (h : Reordered m (pre ++ kept ++ j :: (todo ++ moved) ++ place :: post) p q)
    (hn : (pre ++ kept ++ j :: (todo ++ moved) ++ place :: post).Nodup)
    (hj : p.instr? j = some inst) (ho : inst.owner = m)
    (hok : (do if (← get).reaches i j then Edit.moveBefore j place : Edit Unit) q = .ok u r) :
    if p.reaches i j then
      Reordered m (pre ++ kept ++ (todo ++ (moved ++ [j])) ++ place :: post) p r
    else Reordered m (pre ++ (kept ++ [j]) ++ (todo ++ moved) ++ place :: post) p r := by
  rw [Action.get_bind_ok, h.reaches, Action.ite_ok] at hok
  obtain ⟨hr, hok⟩ | ⟨hr, hok⟩ := hok
  · rw [if_pos hr]
    have hmid : pre ++ kept ++ j :: (todo ++ moved) ++ place :: post =
        (pre ++ kept) ++ j :: ((todo ++ moved) ++ place :: post) := by simp
    rw [hmid] at h hn
    have hend := h.moveBefore hn hj ho hok
    simpa using hend
  · rw [if_neg hr]
    obtain ⟨-, rfl⟩ := Action.pure_ok.mp hok
    simpa using h

/-- **The whole loop partitions what it goes through.** -/
theorem Reordered.relocate
    (h : Reordered m (pre ++ kept ++ (todo ++ moved) ++ place :: post) p q)
    (hn : (pre ++ kept ++ (todo ++ moved) ++ place :: post).Nodup)
    (htodo : ∀ j ∈ todo, ∃ inst, p.instr? j = some inst ∧ inst.owner = m)
    (hok : (todo.forM fun j => do
      if (← get).reaches i j then Edit.moveBefore j place : Edit Unit) q = .ok u r) :
    Reordered m (pre ++ (kept ++ todo.filter fun j => !p.reaches i j) ++
      (moved ++ todo.filter fun j => p.reaches i j) ++ place :: post) p r := by
  induction todo generalizing q kept moved with
  | nil =>
    obtain ⟨-, rfl⟩ := Action.pure_ok.mp hok
    simpa using h
  | cons j todo ih =>
    rw [List.forM, Action.bind_ok] at hok
    obtain ⟨_, q', hj, hok⟩ := hok
    obtain ⟨inst, hinst, ho⟩ := htodo j List.mem_cons_self
    have hstep := h.relocateOne hn hinst ho hj
    have hrest : ∀ j ∈ todo, ∃ inst, p.instr? j = some inst ∧ inst.owner = m :=
      fun j hj => htodo j (List.mem_cons_of_mem _ hj)
    split at hstep
    · next hr =>
      have hperm : (pre ++ kept ++ (todo ++ (moved ++ [j])) ++ place :: post).Perm
          (pre ++ kept ++ (j :: todo ++ moved) ++ place :: post) := by
        refine List.Perm.append_right _ (List.Perm.append_left _ ?_)
        rw [← List.append_assoc]
        exact List.perm_append_singleton j (todo ++ moved)
      have hend := ih hstep (hperm.nodup_iff.mpr hn) hrest hok
      rw [List.filter_cons_of_neg (by simp [hr]), List.filter_cons_of_pos hr]
      simpa using hend
    · next hr =>
      have heq : pre ++ (kept ++ [j]) ++ (todo ++ moved) ++ place :: post =
          pre ++ kept ++ (j :: todo ++ moved) ++ place :: post := by simp
      have hend := ih hstep (heq ▸ hn) hrest hok
      rw [List.filter_cons_of_pos (by simp [hr]), List.filter_cons_of_neg hr]
      simpa using hend

theorem Reordered.refl (hm : (p.module? m).isSome) : Reordered m (p.body m) p p := by
  obtain ⟨module, hm⟩ := Option.isSome_iff_exists.mp hm
  exact ⟨fun _ => rfl, fun _ => rfl, module, hm, (body_of_module? hm).symm⟩

theorem exists_split_of_locate {n : Nat} (hl : p.Linked) (hi : i ∈ p.body m)
    (hloc : p.locate i = .ok (k, n)) : k = m ∧ ∃ post, (p.body m).drop n = i :: post := by
  obtain ⟨inst, module, hinst, rfl, hm, hidx⟩ := locate_ok.mp hloc
  obtain rfl := hl.owner_unique hinst hi
  obtain ⟨hlt, rfl, -⟩ := List.idxOf?_eq_some_iff.mp hidx
  rw [body_of_module? hm]
  exact ⟨rfl, _, List.drop_eq_getElem_cons hlt⟩

theorem eq_append_between {first last : Nat} (h : first < last)
    (hpost : l.drop last = place :: post) :
    l = l.take first ++ (l.take last).drop first ++ place :: post := by
  have htake : l.take first = (l.take last).take first := by
    rw [List.take_take, Nat.min_eq_left (Nat.le_of_lt h)]
  rw [htake, List.take_append_drop, ← hpost, List.take_append_drop]

/-- **The order after moving what depends on `i` to just before `place`**: a part of the order ahead
of `place` is partitioned. -/
theorem relocateDependents_ok (hl : p.Linked) (hi : i ∈ p.body m) (hplace : place ∈ p.body m)
    (hok : Edit.relocateDependents i place p = .ok u q) : ∃ pre part post,
      p.body m = pre ++ part ++ place :: post ∧ i ∉ pre ∧
      Reordered m (pre ++ ((part.filter fun j => !p.reaches i j) ++
        part.filter fun j => p.reaches i j) ++ place :: post) p q := by
  simp only [Edit.relocateDependents, Action.get_bind_ok, Action.lift_bind_ok, Prod.exists,
    Action.ite_ok, Action.throw_bind_ok, and_false, false_or] at hok
  obtain ⟨k, first, hfirst, k', last, hlast, hok⟩ := hok
  obtain ⟨rfl, rest, hrest⟩ := exists_split_of_locate hl hi hfirst
  obtain ⟨-, post, hpost⟩ := exists_split_of_locate hl hplace hlast
  have hnot : i ∉ (p.body k).take first := by
    have hn := hl.nodup k
    rw [← List.take_append_drop first (p.body k), hrest] at hn
    exact fun hmem => (List.nodup_append.mp hn).2.2 i hmem i List.mem_cons_self rfl
  have hrefl : Reordered k (p.body k) p p := .refl (alive_of_mem_body hi)
  obtain ⟨hlt, -, hok⟩ | ⟨hle, hok⟩ := hok
  · have hsplit := eq_append_between hlt hpost
    refine ⟨_, _, post, hsplit, hnot, ?_⟩
    have hstart : Reordered k ((p.body k).take first ++ [] ++
        (((p.body k).take last).drop first ++ []) ++ place :: post) p p := by
      simpa [← hsplit] using hrefl
    have hend := hstart.relocate (by simpa [← hsplit] using hl.nodup k) (fun j hj => ?_) hok
    · simpa using hend
    · exact hl.owned (List.mem_of_mem_take (List.mem_of_mem_drop hj))
  · obtain ⟨-, rfl⟩ := Action.pure_ok.mp hok
    have hsplit : p.body k = (p.body k).take last ++ [] ++ place :: post := by
      rw [List.append_nil, ← hpost, List.take_append_drop]
    have hsub : (p.body k).take last ⊆ (p.body k).take first :=
      (List.take_prefix_take_left (Nat.le_of_not_lt hle)).subset
    refine ⟨_, [], post, hsplit, fun hmem => hnot (hsub hmem), ?_⟩
    rw [hsplit] at hrefl
    simpa using hrefl

/-! ## The new order -/

/-- **A new order in which operands come first.** -/
theorem Linked.reordered (hl : p.Linked) (h : Reordered m l p q) (hperm : l.Perm (p.body m))
    (hbefore : ∀ {j inst x}, p.instr? j = some inst → inst.owner = m → x ∈ inst.inputs →
      Before l x j) : q.Linked := by
  have hmem : ∀ {k j}, j ∈ q.body k ↔ j ∈ p.body k := by
    intro k j
    by_cases hk : k = m
    · subst hk
      rw [h.body]
      exact hperm.mem_iff
    · rw [h.body_ne hk]
  refine ⟨fun k => ?_, fun hj => ?_, fun hj => ?_, fun {j inst x} hj hx => ?_, fun hj => ?_,
    fun hj => ?_⟩
  · by_cases hk : k = m
    · subst hk
      rw [h.body]
      exact hperm.nodup_iff.mpr (hl.nodup k)
    · rw [h.body_ne hk]
      exact hl.nodup k
  · obtain ⟨inst, hi, ho⟩ := hl.owned (hmem.mp hj)
    exact ⟨inst, (h.instr? _).trans hi, ho⟩
  · exact hmem.mpr (hl.listed ((h.instr? _).symm.trans hj))
  · rw [h.instr?] at hj
    by_cases ho : inst.owner = m
    · rw [ho, h.body]
      exact hbefore hj ho hx
    · rw [h.body_ne ho]
      exact hl.ordered hj hx
  · rw [h.uses]
    exact hl.mirrored ((h.instr? _).symm.trans hj)
  · exact hl.distinct ((h.instr? _).symm.trans hj)

/-- **The new order is one of a linked program.** -/
theorem Linked.relocated (hl : p.Linked) (hi : i ∈ p.body m) (hplace : place ∈ p.body m)
    (hok : Edit.relocateDependents i place p = .ok u q) : ∃ pre part post,
      p.body m = pre ++ part ++ place :: post ∧
      Reordered m (pre ++ ((part.filter fun j => !p.reaches i j) ++
        part.filter fun j => p.reaches i j) ++ place :: post) p q ∧
      (q.body m).Perm (p.body m) ∧ q.Linked := by
  obtain ⟨pre, part, post, hsplit, -, hr⟩ := relocateDependents_ok hl hi hplace hok
  have hpart : ((part.filter fun j => !p.reaches i j) ++
      part.filter fun j => p.reaches i j).Perm part :=
    List.perm_append_comm.trans (List.filter_append_perm _ part)
  have hperm := (List.Perm.append_left pre hpart).append_right (place :: post)
  rw [← hsplit] at hperm
  refine ⟨pre, part, post, hsplit, hr, hr.body ▸ hperm, ?_⟩
  refine hl.reordered hr hperm fun {j inst x} hj ho hx => ?_
  have hbefore := hl.ordered hj hx
  rw [ho, hsplit] at hbefore
  refine hbefore.partition_mid fun hreach => ?_
  exact reaches_iff.mpr ((reaches_iff.mp hreach).tail ⟨inst, hj, hx⟩)

/-- **A module may be put in another order** that operands stand before their users in and that ends
with the same instruction, if those that count on fresh types do not carry it. -/
theorem Steady.reordered {e : Option ModuleId} (h : p.Steady e) (hr : Reordered m l p q)
    (hlq : q.Linked) (hlast : l.getLast? = (p.body m).getLast?)
    (hspares : ∀ {j}, p.SparesAny e j → p.Spares m j) : q.Steady e := by
  have hcore : ∀ j, SameCore p q j := fun j => by rw [SameCore, hr.instr?]
  have hlocal : Local m p q := by
    obtain ⟨module, hm, -⟩ := hr.self
    exact ⟨by rw [hm]; rfl, hr.module?, fun _ _ => hcore _⟩
  refine h.of_local hlq hlocal (fun hs => .inl (hspares hs)) fun {j inst} hj ho => ?_
  have hj' := (hr.instr? j).symm.trans hj
  refine ⟨⟨fun hret => ?_, fun k hk => ?_⟩, fun hs => ?_⟩
  · rw [hr.body, hlast, ← ho]
    exact h.returns hj' hret
  · obtain ⟨halive, hne⟩ := h.referenced hj' hk
    rw [ho] at hne
    exact ⟨by rwa [hr.module? hne], hne⟩
  · have hp := (hcore j).sparesAny hs
    exact hlocal.fresh h.toLinked (.inl (hspares hp)) (hcore j)
      (fun x _ t ht => (hcore x).hasType ht) (h.fresh hp)

/-- What depends on an inner instruction is no parameter. -/
theorem Steady.isParam_of_reaches (h : p.Steady (some main)) (hmem : j ∈ p.body main)
    (hinner : ∀ {inst}, p.instr? i = some inst → inst.op.isBoundary = false)
    (hr : p.reaches i j = true) : p.hasOp Op.isParam j = false := by
  rw [Bool.eq_false_iff]
  intro hparam
  obtain ⟨inst, hj, hop⟩ := hasOp_iff.mp hparam
  obtain rfl | ⟨x, -, inst', hj', hx⟩ := (reaches_iff.mp hr).cases_tail
  · have hb := hinner hj
    simp only [Op.isBoundary, hop, Bool.true_or, Bool.true_eq_false] at hb
  · rw [hj] at hj'
    cases hj'
    obtain ⟨-, -, -, -, hnil⟩ := (h.fresh_own hmem).type_of_param hj hop
    rw [hnil] at hx
    cases hx

/-- **Moving dependents in the main module keeps a program steady.** -/
theorem Steady.advance_relocateDependents (h : p.Steady (some main))
    (hi : i ∈ p.body main) (hplace : place ∈ p.body main)
    (hinner : ∀ {inst}, p.instr? i = some inst → inst.op.isBoundary = false)
    (hok : Edit.relocateDependents i place p = .ok u q) : Advance p q := by
  have hl := h.toLinked
  obtain ⟨pre, part, post, hsplit, hr, hperm, hlq⟩ := hl.relocated hi hplace hok
  have hlast : (q.body main).getLast? = (p.body main).getLast? := by
    rw [hr.body, hsplit, List.getLast?_append_of_ne_nil _ (by simp),
      List.getLast?_append_of_ne_nil _ (by simp)]
  have hcore : ∀ j, SameCore p q j := fun j => by rw [SameCore, hr.instr?]
  have hlocal : Local main p q := by
    obtain ⟨module, hm, -⟩ := hr.self
    exact ⟨by rw [hm]; rfl, hr.module?, fun _ _ => hcore _⟩
  have hlisted : ∀ {j}, j ∈ part → j ∈ p.body main := fun hj => by
    rw [hsplit]
    exact List.mem_append_left _ (List.mem_append_right _ hj)
  refine ⟨h.reordered hr hlq (hr.body ▸ hlast) sparesAny_some.mp,
    fun hfree j inst hj => hfree j inst ((hr.instr? j).symm.trans hj),
    fun {k} hk halive => ⟨by rwa [hr.module? hk], .of_local hlocal hl hk⟩,
    fun {j inst} hj => ⟨inst, (hr.instr? j).trans hj, rfl, .refl _, .refl _⟩, ?_,
    fun {r} hret => ?_, .of_sameCore fun {j b} hj _ _ => ?_⟩
  · -- the moved instructions are no parameters
    have hhas : q.hasOp Op.isParam = p.hasOp Op.isParam := funext fun j => (hcore j).hasOp _
    have hmoved : (part.filter fun j => p.reaches i j).filter (p.hasOp Op.isParam) = [] := by
      rw [List.filter_eq_nil_iff]
      intro j hj
      obtain ⟨hj, hreach⟩ := List.mem_filter.mp hj
      rw [h.isParam_of_reaches (hlisted hj) hinner hreach]
      exact Bool.false_ne_true
    have hkept : (part.filter fun j => !p.reaches i j).filter (p.hasOp Op.isParam) =
        part.filter (p.hasOp Op.isParam) := by
      rw [List.filter_filter]
      refine List.filter_congr fun j hj => ?_
      by_cases hreach : p.reaches i j = true
      · rw [h.isParam_of_reaches (hlisted hj) hinner hreach]
        rfl
      · simp [hreach]
    rw [parameters, parameters, hhas, hr.body, hsplit]
    simp only [List.filter_append, hmoved, hkept, List.append_nil]
  · obtain ⟨he, hop⟩ := return?_eq_some.mp hret
    exact return?_eq_some.mpr ⟨hlast.trans he, ((hcore _).hasOp _).trans hop⟩
  · exact ⟨hperm.mem_iff.mp hj, hcore j, fun x _ => hcore x⟩

end OffloadFusion.Program
