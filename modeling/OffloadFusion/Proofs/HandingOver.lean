import OffloadFusion.Proofs.Completes
import OffloadFusion.Proofs.Pruning
import OffloadFusion.Proofs.Rules

/-!
# Consumers are handed over

An instruction that others read gives way to one of its type that does not depend on it:

* `Linked.completes_relocateDependents`: what depends on it is moved behind the new one;
* `Steady.completes_replaceInstruction`: its consumers read the new one, and no type changes;
* **`Steady.completes_handOver`**: all of this, and then it can be removed.
-/

namespace OffloadFusion.Program

open OffloadFusion.Action

variable {p q r : Program} {i j place old new : InstrId} {m : ModuleId} {inst : Instruction}
  {pre post kept todo moved left : List InstrId} {type : ValueType}

/-! ## Moving -/

/-- The instruction is alive and belongs to the module. -/
def OwnedBy (p : Program) (m : ModuleId) (i : InstrId) : Prop :=
  ∃ inst, p.instr? i = some inst ∧ inst.owner = m

theorem Reordered.completes_moveBefore (h : Reordered m (pre ++ j :: (todo ++ place :: post)) p q)
    (hn : (pre ++ j :: (todo ++ place :: post)).Nodup) (hj : p.OwnedBy m j)
    (hplace : p.OwnedBy m place) : (Edit.moveBefore j place).Completes q fun _ _ => True := by
  obtain ⟨inst, hj, ho⟩ := hj
  obtain ⟨pinst, hp, hpo⟩ := hplace
  have hsplit : pre ++ j :: (todo ++ place :: post) = (pre ++ j :: todo) ++ place :: post := by
    rw [List.append_assoc, List.cons_append]
  have hjpre : j ∉ pre := fun hmem => (List.nodup_append.mp hn).2.2 j hmem j List.mem_cons_self rfl
  have hnot : place ∉ pre ++ j :: todo := fun hmem =>
    (List.nodup_append.mp (hsplit ▸ hn)).2.2 place hmem place List.mem_cons_self rfl
  have hrest : place ∉ pre ++ todo := fun hmem => hnot <| by
    obtain hmem | hmem := List.mem_append.mp hmem
    · exact List.mem_append_left _ hmem
    · exact List.mem_append_right _ (List.mem_cons_of_mem j hmem)
  have hsource := h.locate hj ho (idxOf?_append_cons hjpre)
  have htarget : q.locate place = .ok (m, (pre ++ j :: todo).length) :=
    h.locate hp hpo (hsplit ▸ idxOf?_append_cons hnot)
  have hmid := h.modifyBody fun l => l.eraseIdx pre.length
  rw [List.eraseIdx_append_of_length_le (Nat.le_refl _), Nat.sub_self, List.eraseIdx_cons_zero,
    ← List.append_assoc] at hmid
  rw [Edit.moveBefore, completes_get_bind, completes_bind]
  refine (completes_lift hsource).mpr ?_
  rw [completes_bind]
  refine (completes_lift htarget).mpr ?_
  dsimp only
  rw [if_neg (not_not.mpr rfl), completes_bind, completes_set]
  rw [hmid.body, idxOf?_append_cons hrest]
  exact completes_set.mpr trivial

/-- **What depends on an instruction can be moved to just before another one.** -/
theorem Reordered.completes_relocate
    (h : Reordered m (pre ++ kept ++ (todo ++ moved) ++ place :: post) p q)
    (hn : (pre ++ kept ++ (todo ++ moved) ++ place :: post).Nodup)
    (htodo : ∀ j ∈ todo, p.OwnedBy m j) (hplace : p.OwnedBy m place) :
    (todo.forM fun j => do
      if (← get).reaches i j then Edit.moveBefore j place : Edit Unit).Completes q
        fun _ _ => True := by
  induction todo generalizing q kept moved with
  | nil => exact completes_pure.mpr trivial
  | cons j todo ih =>
    have hj := htodo j List.mem_cons_self
    have hrest : ∀ j ∈ todo, p.OwnedBy m j := fun j hj => htodo j (List.mem_cons_of_mem _ hj)
    have hround : (do if (← get).reaches i j then Edit.moveBefore j place : Edit Unit).Completes q
        fun _ _ => True := by
      rw [completes_get_bind]
      split
      · have heq : pre ++ kept ++ (j :: todo ++ moved) ++ place :: post =
            (pre ++ kept) ++ j :: ((todo ++ moved) ++ place :: post) := by simp
        exact (heq ▸ h).completes_moveBefore (heq ▸ hn) hj hplace
      · exact completes_pure.mpr trivial
    obtain ⟨u, r, hok, -⟩ := hround
    obtain ⟨inst, hinst, ho⟩ := hj
    have hstep := h.relocateOne hn hinst ho hok
    refine completes_bind.mpr ⟨u, r, hok, ?_⟩
    split at hstep
    · have hperm : (pre ++ kept ++ (todo ++ (moved ++ [j])) ++ place :: post).Perm
          (pre ++ kept ++ (j :: todo ++ moved) ++ place :: post) := by
        refine List.Perm.append_right _ (List.Perm.append_left _ ?_)
        rw [← List.append_assoc]
        exact List.perm_append_singleton j (todo ++ moved)
      exact ih hstep (hperm.nodup_iff.mpr hn) hrest
    · have heq : pre ++ (kept ++ [j]) ++ (todo ++ moved) ++ place :: post =
          pre ++ kept ++ (j :: todo ++ moved) ++ place :: post := by simp
      exact ih hstep (heq ▸ hn) hrest

/-- **What depends on an instruction is moved behind the rest of what stands before another
one.** -/
theorem Linked.completes_relocateDependents (hl : p.Linked) (hi : i ∈ p.body m)
    (hplace : place ∈ p.body m) : (Edit.relocateDependents i place).Completes p fun _ q =>
      (∀ j, q.instr? j = p.instr? j) ∧ ∀ {a b}, Before (p.body m) a place → ¬ p.DependsOn i a →
        b ∈ p.body m → p.DependsOn i b → Before (q.body m) a b := by
  have hcompletes : (Edit.relocateDependents i place).Completes p fun _ _ => True := by
    obtain ⟨first, hfirst, -⟩ := hl.exists_locate hi
    obtain ⟨last, hlast, -⟩ := hl.exists_locate hplace
    obtain ⟨-, post, hpost⟩ := exists_split_of_locate hl hplace hlast
    obtain ⟨module, hm, -⟩ := module?_of_mem_body hi
    rw [Edit.relocateDependents, completes_get_bind, completes_bind]
    refine (completes_lift hfirst).mpr ?_
    rw [completes_bind]
    refine (completes_lift hlast).mpr ?_
    dsimp only
    split
    · next hlt =>
      have hsplit := eq_append_between hlt hpost
      have hlen := congrArg List.length hpost
      rw [List.length_drop, List.length_cons] at hlen
      rw [if_neg (by omega)]
      have hrefl : Reordered m ((p.body m).take first ++ [] ++
          (((p.body m).take last).drop first ++ []) ++ place :: post) p p := by
        simpa [← hsplit] using Reordered.refl (by rw [hm]; rfl)
      refine hrefl.completes_relocate (by simpa [← hsplit] using hl.nodup m) (fun j hj => ?_)
        (hl.owned hplace)
      exact hl.owned (List.mem_of_mem_take (List.mem_of_mem_drop hj))
    · exact completes_pure.mpr trivial
  obtain ⟨u, q, hok, -⟩ := hcompletes
  obtain ⟨pre, part, post, hsplit, hpre, hr⟩ := relocateDependents_ok hl hi hplace hok
  refine ⟨u, q, hok, hr.instr?, fun {a b} ha hind hb hdepends => ?_⟩
  have hn := hl.nodup m
  rw [hsplit] at ha hn
  rw [hr.body]
  -- what depends on the instruction does not stand before it
  have hnot : b ∉ pre := by
    intro hmem
    obtain rfl | ⟨k, hbefore⟩ := hl.before_of_dependsOn hdepends
    · exact hpre hmem
    obtain ⟨inst, hinst, -⟩ := hl.owned hi
    rw [(hl.owner_unique hinst hbefore.left_mem).symm.trans (hl.owner_unique hinst hi),
      hsplit] at hbefore
    obtain ⟨u, v, rfl⟩ := List.append_of_mem hmem
    simp only [List.append_assoc, List.cons_append] at hbefore hn
    exact hpre (List.mem_append_left _ ((before_append_cons hn).mp hbefore))
  refine before_partition ((before_append_cons hn).mp ha) ?_ ?_ fun _ => reaches_iff.mpr hdepends
  · rw [Bool.eq_false_iff]
    exact fun hreach => hind (reaches_iff.mp hreach)
  · rw [hsplit, List.append_assoc] at hb
    exact (List.mem_append.mp hb).resolve_left hnot

/-! ## Rewiring -/

theorem Pending.completes_replaceArgument {τ : InstrId → ValueType} {c : InstrId}
    (h : Pending m τ [] p) (hc : p.Uses c old) (hnew : Before (p.body m) new c)
    (hold : p.HasType old type) (htype : p.HasType new type) :
    (Edit.replaceArgument c old new).Completes p fun _ q => q = p.swapped c old new := by
  obtain ⟨inst, hc, hmem⟩ := hc
  have hl := h.framed.toLinked
  have hlocal : Local m p (p.swapped c old new) := local_swapped hc hmem hl hnew.right_mem
  obtain ⟨inst', hc', hop, hmodules, hty, hin⟩ : ∃ inst',
      (p.swapped c old new).instr? c = some inst' ∧ _ := exists_swapped hc hmem
  have hinfer : (p.swapped c old new).infer inst'.op inst'.inputs inst'.modules =
      .ok inst'.type := by
    rw [hop, hmodules, hty, hin]
    have hspares : p.Spares m c := sparesAny_some.mp (h.framed.spares_own hnew.right_mem)
    obtain ⟨types, signatures, htypes, hsigs, hinfer⟩ :=
      infer_ok.mp (h.fresh List.not_mem_nil hspares _ hc)
    refine infer_ok.mpr ⟨types, signatures, List.forall₂_map_left_iff.mpr
      (htypes.imp fun x t ht => ?_), forall₂_imp_of_mem hsigs
        (hlocal.signatures hl (.inl hspares) hc), hinfer⟩
    refine hasType_swapped hc hmem ?_
    split
    · next hx =>
      subst hx
      rw [hasType_unique ht hold]
      exact htype
    · exact ht
  refine ⟨⟨⟩, _, Edit.replaceArgument_ok.mpr ⟨⟨inst, hc⟩, ?_⟩, rfl⟩
  obtain ⟨fuel, hfuel⟩ : ∃ fuel, 1 <<< ((p.swapped c old new).size + 64) = fuel + 1 := by
    rw [Nat.one_shiftLeft]
    exact Nat.exists_eq_add_one.mpr (Nat.two_pow_pos _)
  rw [Edit.refreshType, Action.get_bind_ok, hfuel]
  simp only [Edit.refresh, Action.get_bind_ok, Action.lift_bind_ok, findInstr_ok]
  refine ⟨inst', hc', inst'.type, hinfer, ?_⟩
  rw [if_pos rfl]
  rfl

/-- The consumers of an operand read another one of the same type, one after the other. -/
theorem Pending.completes_rewire {τ : InstrId → ValueType} (h : Pending m τ [] p)
    (hleft : Edit.Rewirable m old new left p) (hn : left.Nodup) (hne : old ≠ new)
    (hold : p.HasType old type) (htype : p.HasType new type) :
    (left.forM fun c => Edit.replaceArgument c old new).Completes p fun _ q =>
      ∀ c, q.Uses c old → p.Uses c old ∧ c ∉ left := by
  induction left generalizing p with
  | nil => exact completes_pure.mpr fun c hc => ⟨hc, List.not_mem_nil⟩
  | cons c left ih =>
    have huse := hleft.uses c List.mem_cons_self
    have hbefore := hleft.before c List.mem_cons_self
    obtain ⟨_, r, hok, rfl⟩ := h.completes_replaceArgument huse hbefore hold htype
    have hτ : (τ old).Alike (τ new) := (h.shaped.hasType hold).trans (h.shaped.hasType htype).symm
    have hnext := hleft.replaceArgument (List.nodup_cons.mp hn).1
    rw [Action.after_of_ok hok] at hnext
    obtain ⟨inst, hc, hmem⟩ := huse
    refine completes_bind.mpr ⟨_, _, hok, ?_⟩
    refine (ih (h.replaceArgument ⟨inst, hc, hmem⟩ hbefore hτ hok).1 hnext
      (List.nodup_cons.mp hn).2 (hasType_swapped hc hmem hold)
      (hasType_swapped hc hmem htype)).mono fun _ q hq d hd => ?_
    obtain ⟨hd, hleft⟩ := hq d hd
    by_cases hdc : d = c
    · -- the swapped consumer no longer reads it
      subst hdc
      obtain ⟨inst', hd', -, -, -, hin⟩ : ∃ inst',
          (p.swapped d old new).instr? d = some inst' ∧ _ := exists_swapped hc hmem
      obtain ⟨a, ha, hread⟩ := hd
      rw [hd'] at ha
      cases ha
      rw [hin] at hread
      obtain hread | ⟨-, hread⟩ := (mem_swapInput hmem).mp hread
      · exact absurd hread hne
      · exact absurd rfl hread
    · exact ⟨(sameCore_swapped hc hmem hdc).symm.uses hd,
        List.not_mem_cons_of_ne_of_not_mem hdc hleft⟩

/-- **The consumers of an instruction can read another one of its type before them**, and then
nothing reads the first one. -/
theorem Steady.completes_replaceInstruction (h : p.Steady (some m))
    (hold : p.HasType old type) (htype : p.HasType new type) (hne : old ≠ new)
    (hnew : new ∈ p.body m) (hread : ¬ p.Uses new old)
    (hafter : ∀ c, p.Uses c old → Before (p.body m) new c) :
    (Edit.replaceInstruction old new).Completes p fun _ q => ∀ c, ¬ q.Uses c old := by
  have hl := h.toLinked
  obtain ⟨oldInst, ho, hty⟩ := hold
  obtain ⟨newInst, hi, htyNew⟩ := htype
  obtain ⟨n, hloc, hidx⟩ := hl.exists_locate hnew
  obtain ⟨module, hm, hbody⟩ := module?_of_mem_body hnew
  have huses : ∀ c ∈ oldInst.consumers, p.Uses c old := fun c hc => (hl.mirrored ho).mp hc
  have hkeep : oldInst.consumers.filter (· ≠ new) = oldInst.consumers := by
    refine List.filter_eq_self.mpr fun c hc => decide_eq_true ?_
    rintro rfl
    exact hread (huses c hc)
  have hcheck : ∀ c ∈ oldInst.consumers,
      ∃ place, module.body.idxOf? c = some place ∧ n < place := by
    intro c hc
    have hbefore := hafter c (huses c hc)
    obtain ⟨k, hk⟩ := Option.isSome_iff_exists.mp (List.isSome_idxOf?.mpr hbefore.right_mem)
    have hlt := hbefore.idxOf_lt (hl.nodup m)
    rw [List.idxOf_eq_getD_idxOf?, List.idxOf_eq_getD_idxOf?, hidx, hk] at hlt
    exact ⟨k, hbody ▸ hk, hlt⟩
  have hstart := Pending.of_steady h
  have hleft := Edit.rewirable_of_check hl ho hloc hm (fun c hc => hc) hcheck
  obtain ⟨u, q, hok, hq⟩ := hstart.completes_rewire hleft (h.distinct ho) hne ⟨oldInst, ho, hty⟩
    ⟨newInst, hi, htyNew⟩
  refine ⟨u, q, Edit.replaceInstruction_ok.mpr ⟨oldInst, newInst, m, n, module, ho, hi, ?_, hloc,
    hm, fun c hc _ => hcheck c hc, hkeep.symm ▸ hok⟩, fun c hc => ?_⟩
  · exact ValueType.sameShape_iff.mpr (hty.trans htyNew.symm ▸ .refl _)
  · obtain ⟨hc, hnot⟩ := hq c hc
    exact hnot ((hl.mirrored ho).mpr hc)

/-! ## Handing over -/

theorem Linked.completes_removeInstruction (hl : p.Linked) (hi : i ∈ p.body m)
    (hunused : ∀ c, ¬ p.Uses c i) : (Edit.removeInstruction i).Completes p fun _ _ => True := by
  obtain ⟨inst, hinst, -⟩ := hl.owned hi
  obtain ⟨n, hloc, -⟩ := hl.exists_locate hi
  have hnone : inst.consumers = [] := by
    refine List.eq_nil_iff_forall_not_mem.mpr fun c hc => hunused c ((hl.mirrored hinst).mp hc)
  exact ⟨⟨⟩, _, Edit.removeInstruction_ok.mpr ⟨inst, m, n, hinst, hnone, hloc, rfl⟩, trivial⟩

/-- **An instruction gives way to one of its type that does not depend on it.** -/
theorem Steady.completes_handOver (h : p.Steady (some main)) (hold : old ∈ p.body main)
    (hinner : ∀ {inst}, p.instr? old = some inst → inst.op.isBoundary = false)
    (hnew : Before (p.body main) new place) (hind : ¬ p.DependsOn old new)
    (htype : p.HasType old type) (htype' : p.HasType new type) :
    (do
      Edit.relocateDependents old place
      Edit.replaceInstruction old new
      Edit.removeInstruction old : Edit Unit).Completes p fun _ _ => True := by
  have hl := h.toLinked
  obtain ⟨_, q, hmove, hsame, hbefore⟩ := hl.completes_relocateDependents hold hnew.right_mem
  refine completes_bind.mpr ⟨_, q, hmove, ?_⟩
  have hq := h.advance_relocateDependents hold hnew.right_mem hinner hmove
  have hhas : ∀ {j}, p.HasType j type → q.HasType j type :=
    fun ⟨inst, hj, ht⟩ => ⟨inst, (hsame _).trans hj, ht⟩
  have huses : ∀ {c}, q.Uses c old → p.Uses c old := fun ⟨inst, hc, hx⟩ =>
    ⟨inst, (hsame _).symm.trans hc, hx⟩
  have hnew' := hq.mem_body hl hnew.left_mem
  obtain ⟨_, r, hreplace, hunused⟩ := hq.steady.completes_replaceInstruction (hhas htype)
    (hhas htype') (fun he => hind (he ▸ .refl)) hnew' (fun huse => hind (.single (huses huse)))
    fun c hc => hbefore hnew hind (hl.mem_body_of_used hold (huses hc)) (.single (huses hc))
  refine completes_bind.mpr ⟨_, r, hreplace, ?_⟩
  have hr := hq.steady.advance_replaceInstruction hnew' hreplace
  exact hr.steady.completes_removeInstruction (hr.mem_body hq.steady.toLinked (hq.mem_body hl hold))
    hunused

end OffloadFusion.Program
