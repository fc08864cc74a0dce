import OffloadFusion.Proofs.Chains
import OffloadFusion.Proofs.Grafting

/-!
# Reductions that move into calls

A split reduction and a call that it reads become one call.

* `Site.splitCall_rerouted`: where the former call has other consumers, they read the last value of
  the new call.
* `HandsDown`: the reduction is the first value of the call, or its elements are elements of it.
* `ends_cleanup`: the former call is gone, and only what it depended on with it.
* `Combined`, `Placed`: the region and its call.
* **`reduces_at_match`**: what the rule makes of a match is known in full.
-/

namespace OffloadFusion

open OffloadFusion.Action Program

theorem Op.exists_tupleElem {op : Op} (h : op.isTupleElem = true) : ∃ i, op = .tupleElem i := by
  cases op <;> first | exact ⟨_, rfl⟩ | cases h

theorem Program.Advance.gone {p q : Program} {i : InstrId} (h : Advance p q)
    (hi : q.instr? i = none) : p.instr? i = none := by
  refine Option.eq_none_iff_forall_ne_some.mpr fun a ha => ?_
  obtain ⟨b, hb, -⟩ := h.evolved.kept ha
  cases hi.symm.trans hb

namespace SplitReduce

variable {p q r : Program} {root gemm call value result : InstrId} {inst gemmInst : Instruction}
  {op : Op} {old body m : ModuleId} {operands : List InstrId} {last : Nat} {tupled : Bool}
  {u : Unit}

/-! ## The call takes its place -/

/-- Elements of the reduction become elements of the call. -/
def handElements (consumers : List InstrId) (call : InstrId) : Edit Unit :=
  consumers.forM fun consumer => do
    let op := (← (← get).instr consumer).op
    Edit.replaceWith consumer op [call] []

namespace Site

variable (h : Site p root gemm inst gemmInst op old body result) (hext : Extended root p q)
  (hm : m ≠ main)
  (hsupplied : List.Forall₂ (Supplied p q) (feeders gemm inst.inputs gemmInst.inputs) operands)

include h hsupplied in
theorem root_notMem : root ∉ operands := fun hi =>
  operand_ne hsupplied hi (by rw [h.reduction]; rfl)
    (fun _ hu => (h.feeds_of_mem_feeders hu).1.ne (h.valid.toLinked.nodup main)) rfl

include h hsupplied in
theorem gemm_notMem : gemm ∉ operands := fun hi =>
  operand_ne hsupplied hi (by rw [h.called]; rfl)
    (fun _ hu he => (h.feeds_of_mem_feeders hu).2 (he ▸ .refl)) rfl

include h hext hm hsupplied

/-- **A call is put before the reduction, and what read the former call reads its last value.** -/
theorem splitCall_rerouted (hok : splitCall root gemm tupled op operands m last q = .ok u r) :
    ∃ q' call value, Advance p q' ∧ Rerouted root gemm value q q' ∧ p.instr? call = none ∧
      q'.Calls call op operands m ∧ call ∈ q'.body main ∧ q'.Node (.tupleElem last) [call] value ∧
      p.instr? value = none ∧ (∀ j, ¬ q'.Uses j gemm) ∧
      (tupled = false → Edit.replaceWith root (.tupleElem 0) [call] [] q' = .ok u r) ∧
      (tupled = true → ∃ a q'', q'.instr? root = some a ∧
        handElements a.consumers call q' = .ok ⟨⟩ q'' ∧
        Edit.removeInstruction root q'' = .ok u r) := by
  have hl := h.valid.toLinked
  have hgemm := h.before.left_mem
  rw [splitCall] at hok
  simp only [Action.bind_ok (x := Edit.insertBefore _ _ _ _),
    Action.bind_ok (x := Edit.relocateDependents _ _),
    Action.bind_ok (x := Edit.replaceInstruction _ _)] at hok
  obtain ⟨call, q₁, h₁, value, q₂, h₂, _, q₃, h₃, _, q₄, h₄, hok⟩ := hok
  obtain ⟨a₁, -, _, hcall⟩ := hext.advance.insertBefore hl h.rooted rfl
    (fun hmem => hm (List.mem_singleton.mp hmem).symm) h₁
  obtain ⟨a₂, hvalue, _, hins⟩ := a₁.insertBefore hl h.rooted rfl List.not_mem_nil h₂
  have hl₂ := a₂.steady.toLinked
  have hroot := a₂.mem_body hl h.rooted
  have hgemm₂ := a₂.mem_body hl hgemm
  have hmoved := a₂.steady.advance_relocateDependents hgemm₂ hroot
    (fun hi => a₂.isBoundary h.called (by rw [h.isCall]; rfl) hi) h₃
  have hvalue₃ := hmoved.mem_body hl₂ hvalue
  obtain ⟨-, hrewired, hswaps⟩ := hmoved.steady.replaceInstruction hvalue₃ h₄
  have hlast := hmoved.steady.advance_replaceInstruction hvalue₃ h₄
  have a₄ := (a₂.trans hmoved).trans hlast
  have hcallNe : ∀ {i}, i ∈ p.body main → i ≠ call := fun hi =>
    hcall.ne_of_mem hext.advance.steady.toLinked (hext.advance.mem_body hl hi)
  have hvalueNe : ∀ {i}, i ∈ p.body main → i ≠ value := fun hi =>
    hins.ne_of_mem a₁.steady.toLinked (a₁.mem_body hl hi)
  have hgemmCall : gemm ∉ [call] := fun hmem => hcallNe hgemm (List.mem_singleton.mp hmem)
  have r₂ : Rerouted root gemm value q₁ q₂ := .inserted hins fun hmem =>
    hcallNe h.rooted (List.mem_singleton.mp hmem)
  have r₄ : Rerouted root gemm value q₂ q₄ := (Rerouted.reordered hl₂ hgemm₂ hroot h₃).trans
    (.rewired hrewired hswaps (h.before.ne (hl.nodup main)).symm (hvalueNe h.rooted))
  have hnode : q₄.Node (.tupleElem last) [call] value := by
    obtain ⟨type, -, hnew⟩ := hins.new
    exact (r₄.kept (hvalueNe h.rooted).symm).node ⟨_, hnew, rfl, rfl, rfl⟩ hgemmCall
  have hvalue₄ := hlast.mem_body hmoved.steady.toLinked hvalue₃
  obtain ⟨valueInst, hvi, -, hreads, -⟩ := id hnode
  refine ⟨q₄, call, value, a₄,
    (Rerouted.inserted hcall (h.root_notMem hsupplied)).trans (r₂.trans r₄),
    hext.advance.gone hcall.gone, ?_, a₄.steady.toLinked.mem_body_of_uses hvalue₄
      ⟨valueInst, hvi, hreads ▸ List.mem_singleton_self call⟩,
    hnode, a₁.gone hins.gone, fun j hj => ?_, fun htupled => ?_, fun htupled => ?_⟩
  · obtain ⟨type, -, hnew⟩ := hcall.new
    have hkept := ((r₂.trans r₄).kept (hcallNe h.rooted).symm).form hnew (h.gemm_notMem hsupplied)
    exact Calls.of_sameForm hkept ⟨_, hnew, rfl, rfl, rfl⟩
  · obtain rfl := Edit.eq_of_replaceInstruction hmoved.steady.toLinked (hvalueNe hgemm) h₄ hj
    obtain ⟨b, hb, hmem⟩ := hj
    cases hvi.symm.trans hb
    exact hgemmCall (hreads ▸ hmem)
  · subst htupled
    exact hok
  · subst htupled
    rw [if_pos rfl, Action.get_bind_ok, Action.lift_checked_bind_ok] at hok
    obtain ⟨a, ha, hok⟩ := hok
    rw [Action.bind_ok] at hok
    obtain ⟨_, q₅, h₅, h₆⟩ := hok
    exact ⟨a, q₅, instr_ok.mp ha, h₅, h₆⟩

end Site

/-! ## The values of the reduction -/

/-- **Elements become elements of the call**, and all else keeps its form. -/
theorem handElements_ok {cs : List InstrId} (hq : q.Steady (some main))
    (hcs : ∀ c ∈ cs, c ∈ q.body main)
    (helements : ∀ c ∈ cs, ∃ a, q.instr? c = some a ∧ a.op.isTupleElem = true)
    (hok : handElements cs call q = .ok u r) : Advance q r ∧ (∀ k, r.body k = q.body k) ∧
      (∀ j ∉ cs, SameForm q r j) ∧
      ∀ c ∈ cs, ∀ a, q.instr? c = some a → r.Node a.op [call] c := by
  induction cs generalizing q with
  | nil =>
    cases hok
    exact ⟨.refl hq, fun _ => rfl, fun _ _ => rfl, fun _ hc => absurd hc List.not_mem_nil⟩
  | cons c cs ih =>
    rw [handElements, List.forM, Action.bind_ok] at hok
    obtain ⟨_, t, hstep, hok⟩ := hok
    simp only [Action.get_bind_ok, Action.lift_checked_bind_ok, instr_ok] at hstep
    obtain ⟨inst, hinst, hstep⟩ := hstep
    obtain ⟨a, ha, hop⟩ := helements c List.mem_cons_self
    cases hinst.symm.trans ha
    have hglue : inst.op.isGlue = true := by
      obtain ⟨i, hi⟩ := Op.exists_tupleElem hop
      rw [hi]
      rfl
    have hglued := hq.advance_replaceWith (hcs c List.mem_cons_self)
      (fun hi => .inl (congrArg Instruction.op (Option.some.inj (hinst.symm.trans hi)))) hglue
      List.not_mem_nil hstep
    obtain ⟨b, hb, hbop, hbin, hbmod, -⟩ := hglued.rebuilt.self hinst
    have hbody : ∀ k, t.body k = q.body k := fun k => by
      rw [Program.body, hglued.rebuilt.module?, Program.body]
    have hsame : ∀ {d}, d ≠ c → SameForm q t d := hglued.rebuilt.form
    obtain ⟨hadvance, hbody', hform, hnode⟩ := ih hglued.steady
      (fun d hd => hbody main ▸ hcs d (List.mem_cons_of_mem c hd)) (fun d hd => by
        by_cases hdc : d = c
        · exact ⟨b, hdc ▸ hb, hbop ▸ hop⟩
        · obtain ⟨a, ha, hop⟩ := helements d (List.mem_cons_of_mem c hd)
          obtain ⟨a', ha', hop', -⟩ := (hsame hdc).exists_instr ha
          exact ⟨a', ha', hop' ▸ hop⟩) hok
    refine ⟨hglued.toAdvance.trans hadvance, fun k => (hbody' k).trans (hbody k), fun j hj => ?_,
      fun d hd a' ha' => ?_⟩
    · obtain ⟨hjc, hjcs⟩ := not_or.mp (mt List.mem_cons.mpr hj)
      exact (hsame hjc).trans (hform j hjcs)
    · by_cases hdc : d = c
      · subst hdc
        rw [← Option.some.inj (hinst.symm.trans ha'), ← hbop]
        by_cases hmem : d ∈ cs
        · exact hnode d hmem b hb
        · exact Node.of_sameForm (hform d hmem) ⟨b, hb, rfl, hbin, hbmod⟩
      · obtain ⟨b', hb', hop', -⟩ := (hsame hdc).exists_instr ha'
        exact hop' ▸ hnode d ((List.mem_cons.mp hd).resolve_left hdc) b' hb'

/-- The reduction becomes the first value of the call. If it is a tuple, it is gone, and its
elements become elements of the call. All else keeps its form. -/
structure HandsDown (root call : InstrId) (tupled : Bool) (p q : Program) : Prop where
  steady : q.Steady (some main)
  form : ∀ {j}, j ≠ root → (tupled = true → ¬ p.Uses j root) → SameForm p q j
  alike : ∀ {j a b}, p.instr? j = some a → q.instr? j = some b →
    b.owner = a.owner ∧ a.type.Alike b.type
  body : ∀ {k}, k ≠ main → q.body k = p.body k
  listed : ∀ {j}, j ∈ p.body main → (tupled = true → j ≠ root) → j ∈ q.body main
  single : tupled = false → q.Node (.tupleElem 0) [call] root
  gone : tupled = true → q.instr? root = none
  elements : tupled = true → ∀ {j a}, p.instr? j = some a → root ∈ a.inputs →
    q.Node a.op [call] j

theorem HandsDown.form_of_inputs {j : InstrId} {a : Instruction}
    (h : HandsDown root call tupled p q) (hj : j ≠ root) (ha : p.instr? j = some a)
    (hread : root ∉ a.inputs) : SameForm p q j := by
  refine h.form hj fun _ huse => ?_
  obtain ⟨b, hb, hmem⟩ := huse
  cases ha.symm.trans hb
  exact hread hmem

/-- Nothing comes to read another instruction than the call. -/
theorem HandsDown.unread {x : InstrId} (h : HandsDown root call tupled p q) (hx : x ≠ call)
    (hunread : ∀ j, ¬ p.Uses j x) (j : InstrId) : ¬ q.Uses j x := by
  have hcall : ∀ {op j}, q.Node op [call] j → ¬ q.Uses j x := by
    rintro op j ⟨a, ha, -, hinputs, -⟩ ⟨b, hb, hmem⟩
    cases ha.symm.trans hb
    exact hx (List.mem_singleton.mp (hinputs ▸ hmem))
  by_cases hj : j = root
  · subst hj
    cases tupled with
    | false => exact hcall (h.single rfl)
    | true =>
      rintro ⟨a, ha, -⟩
      cases (h.gone rfl).symm.trans ha
  by_cases hread : tupled = true ∧ p.Uses j root
  · obtain ⟨ht, a, ha, hmem⟩ := hread
    exact hcall (h.elements ht ha hmem)
  · exact fun huse => hunread j ((h.form hj fun ht hu => hread ⟨ht, hu⟩).uses.mp huse)

section

variable (hl : p.Linked) (hq : Advance p q) (hroot : root ∈ p.body main)
  (hinst : p.instr? root = some inst) (hinner : inst.op.isBoundary = false)

include hl hq hroot hinst hinner

theorem handsDown_single (hok : Edit.replaceWith root (.tupleElem 0) [call] [] q = .ok u r) :
    HandsDown root call false q r := by
  have hglued := hq.replaceWith hl hroot hinst hinner rfl List.not_mem_nil hok
  have hbody : ∀ k, r.body k = q.body k := fun k => by
    rw [Program.body, hglued.rebuilt.module?, Program.body]
  obtain ⟨a, ha, -⟩ := hq.steady.owned (hq.mem_body hl hroot)
  refine ⟨hglued.steady, fun hj _ => hglued.rebuilt.form hj, fun ha hb => ?_, fun _ => hbody _,
    fun hj _ => hbody main ▸ hj, fun _ => ?_, fun h => (by cases h), fun h => by cases h⟩
  · obtain ⟨b', hb', ho, -, halike⟩ := hglued.evolved.kept ha
    cases hb.symm.trans hb'
    exact ⟨ho, halike⟩
  · obtain ⟨b, hb, hop, hin, hmod, -⟩ := hglued.rebuilt.self ha
    exact ⟨b, hb, hop, hin, hmod⟩

theorem handsDown_tuple {a : Instruction} (ha : q.instr? root = some a)
    (helements : ∀ c, q.Uses c root → ∃ b, q.instr? c = some b ∧ b.op.isTupleElem = true)
    (hok : handElements a.consumers call q = .ok ⟨⟩ r) {s : Program}
    (hok' : Edit.removeInstruction root r = .ok u s) : HandsDown root call true q s := by
  have hlq := hq.steady.toLinked
  have huses : ∀ {c}, c ∈ a.consumers ↔ q.Uses c root := hlq.mirrored ha
  obtain ⟨hadvance, hbody, hform, hnode⟩ := handElements_ok hq.steady
    (fun c hc => hlq.mem_body_of_used (hq.mem_body hl hroot) (huses.mp hc))
    (fun c hc => helements c (huses.mp hc)) hok
  have htrim := ((hq.trans hadvance).removeInstruction hl hroot hinst hinner hok').1
  obtain ⟨b, k, n, hb, -, hloc, rfl⟩ := Edit.removeInstruction_ok.mp hok'
  have hlr := hadvance.steady.toLinked
  have hcore : ∀ {j}, j ≠ root → SameCore r (r.removed root k n) j := sameCore_removed hb
  have hlist : ∀ m, (r.removed root k n).body m = (q.body m).filter (· ≠ root) := fun m => by
    rw [body_removed hlr hb hloc, hbody]
  have hself : ∀ {c}, q.Uses c root → c ≠ root := fun huse he => by
    obtain ⟨b, hc, hmem⟩ := huse
    exact hlq.operand_ne hc hmem he.symm
  have hgone : (r.removed root k n).instr? root = none := by rw [instr?_removed hb, if_pos rfl]
  refine ⟨htrim.steady, fun {j} hj hread => ?_, fun {j a' b'} ha' hb' => ?_, fun {m} hm => ?_,
    fun hj hne => ?_, fun h => (by cases h), fun _ => hgone, fun _ {j a'} ha' hmem => ?_⟩
  · exact (hform j fun hmem => hread rfl (huses.mp hmem)).trans (hcore hj).form
  · have hj : j ≠ root := by
      rintro rfl
      cases hgone.symm.trans hb'
    obtain ⟨c, hc, hcb⟩ := (hcore hj).exists_instr hb'
    obtain ⟨c', hc', ho, -, halike⟩ := hadvance.evolved.kept ha'
    cases hc.symm.trans hc'
    obtain ⟨-, -, -, htype, ho'⟩ := Instruction.core_eq_iff.mp hcb
    exact ⟨ho'.trans ho, htype ▸ halike⟩
  · rw [hlist, List.filter_eq_self]
    refine fun j hj => decide_eq_true fun he => hm ?_
    exact (hlq.owner_unique ha (he ▸ hj)).symm.trans
      (hlq.owner_unique ha (hq.mem_body hl hroot))
  · rw [hlist]
    exact List.mem_filter.mpr ⟨hj, decide_eq_true (hne rfl)⟩
  · have huse : q.Uses j root := ⟨a', ha', hmem⟩
    exact Node.of_sameForm (hcore (hself huse)).form (hnode j (huses.mpr huse) a' ha')

end

/-! ## What is pruned -/

namespace Site

variable (h : Site p root gemm inst gemmInst op old body result)

include h

/-- The reduction is nothing that the call depends on. -/
theorem root_above : ¬ p.DependsOn root gemm := fun hd => by
  have hl := h.valid.toLinked
  refine h.before.ne (hl.nodup main) (hl.dependsOn_antisymm ?_ hd)
  exact .single ⟨inst, h.reduction, h.reads⟩

theorem unread_below {i x : InstrId} (hd : p.DependsOn i gemm) (hx : p.Uses i x) :
    x ≠ gemm ∧ x ≠ root := by
  have hl := h.valid.toLinked
  have hbelow : p.DependsOn x gemm := .head hx hd
  refine ⟨?_, fun he => h.root_above (he ▸ hbelow)⟩
  rintro rfl
  obtain rfl := hl.dependsOn_antisymm hd (.single hx)
  obtain ⟨_, hi, hmem⟩ := hx
  exact hl.operand_ne hi hmem rfl

theorem mem_body_below {i : InstrId} (hd : p.DependsOn i gemm) : i ∈ p.body main :=
  hd.of_closed (C := (· ∈ p.body main)) h.valid.toLinked.mem_body_of_uses h.before.left_mem

end Site

/-- Where what the call depends on is still the same, it is what feeds the call. -/
theorem feeders_below (hsame : ∀ {i}, p.DependsOn i gemm → i ∈ q.body main ∧ SameForm p q i) :
    q.Feeders (p.DependsOn · gemm) :=
  ⟨fun hd => (hsame hd).1, fun hd hx => .head ((hsame hd).2.uses.mp hx) hd⟩

/-- **A call that nothing reads is pruned**, and what does not feed it is spared. -/
theorem ends_cleanup {s : Session} {F : InstrId → Prop} (h : s.program.Steady (some main))
    (hF : s.program.Feeders F) (hgemm : F gemm)
    (hinner : ∀ b, s.program.instr? gemm = some b → b.op.isBoundary = false)
    (hunread : ∀ j, ¬ s.program.Uses j gemm) :
    (do
      discard <| Edit.prune [gemm]
      Edit.releaseModule body
      Edit.releaseModule old
      return true : Fusing Bool).Ends s fun _ t => t.program.instr? gemm = none ∧
        ∀ j ∈ s.program.body main, ¬ F j → Sparing j s.program t.program := by
  have hl := h.toLinked
  have hmem := hF.inner hgemm
  obtain ⟨b, hb, -⟩ := h.owned hmem
  rw [ends_bind]
  refine ends_discard.mpr (ends_edit.mpr fun _ q₁ hprune => ?_)
  rw [ends_bind]
  refine ends_edit.mpr fun _ q₂ hbody => ?_
  rw [ends_bind]
  refine ends_edit.mpr fun _ q₃ hold => ends_pure.mpr ?_
  have hpruned := h.trim_prune (fun i hi inst hinst => by
    obtain rfl := List.mem_singleton.mp hi
    exact hl.owner_unique hinst hmem) hprune
  have hreleased := hpruned.steady.trim_releaseModule hbody
  refine ⟨Option.eq_none_iff_forall_ne_some.mpr fun a ha => ?_, fun j hj hnot => ?_⟩
  · have hboth := hreleased.trans (hreleased.steady.trim_releaseModule hold)
    obtain ⟨c, hc, -⟩ := hboth.shrunk.left ha
    cases (h.gone_of_prune hmem hb (hinner b hb) hunread hprune).symm.trans hc
  · have hs := h.sparing_prune_feeders hF hj hnot
      (fun i hi => List.mem_singleton.mp hi ▸ hgemm) hprune
    have hs' := hs.trans (hs.steady.sparing_releaseModule (hs.mem_body hl hj) hbody)
    exact hs'.trans (hs'.steady.sparing_releaseModule (hs'.mem_body hl hj) hold)

/-! ## The combined region -/

/-- The module of `q` is new. It goes on from the region of the call with the body of the reduction,
and its parameters are supplied. -/
structure Combined (p q : Program) (m old body : ModuleId) (gemm : InstrId)
    (inst gemmInst : Instruction) (results : List InstrId) (value : InstrId)
    (returns operands : List InstrId) : Prop where
  isNew : p.module? m = none
  grafted : Grafted p q m old body gemm inst.inputs gemmInst.inputs results value
  returned : q.returned m = returns
  supplied : List.Forall₂ (Supplied p q) (feeders gemm inst.inputs gemmInst.inputs) operands

namespace Combined

variable {results returns : List InstrId}
  (hc : Combined p q m old body gemm inst gemmInst results value returns operands)
  (h : Site p root gemm inst gemmInst op old body result)

include hc

theorem of_sameForm (hl : q.Linked) (hbody : r.body m = q.body m)
    (hform : ∀ j ∈ q.body m, SameForm q r j)
    (hsupplied : List.Forall₂ (Supplied p r) (feeders gemm inst.inputs gemmInst.inputs) operands) :
    Combined p r m old body gemm inst gemmInst results value returns operands :=
  ⟨hc.isNew, hc.grafted.of_sameForm hl (parameters_of_sameForm hl hform hbody) hform,
    (returned_of_sameForm hl hform hbody).trans hc.returned, hsupplied⟩

theorem of_sparing {call j : InstrId} (hm : m ≠ main) (hl : q.Linked) (hs : Sparing j q r)
    (hcall : r.Calls call op operands m) :
    Combined p r m old body gemm inst gemmInst results value returns operands := by
  obtain ⟨callInst, hcallInst, -, -, hmodules⟩ := id hcall
  obtain ⟨halive, -⟩ := hs.steady.referenced hcallInst (hmodules ▸ List.mem_singleton_self m)
  have hbody : r.body m = q.body m := hs.body hm halive
  refine hc.of_sameForm hl hbody (fun i hi => ?_) (supplied_of_sparing hc.supplied hs hcall)
  obtain ⟨_, hi', -⟩ := hs.steady.owned (hbody ▸ hi)
  exact (hs.core hi').form

include h

theorem ne_main : m ≠ main := by
  rintro rfl
  obtain ⟨module, hmain, -⟩ := module?_of_mem_body h.rooted
  rw [hc.isNew] at hmain
  cases hmain

theorem of_rerouted {new : InstrId} (hext : Extended root p q) (hr : Rerouted root gemm new q r) :
    Combined p r m old body gemm inst gemmInst results value returns operands := by
  have hl := h.valid.toLinked
  have hq := hext.advance.steady.toLinked
  refine hc.of_sameForm hq (hr.body (hc.ne_main h)) (fun j hj => ?_) (supplied_of_rerouted
    hc.supplied hr (by rw [h.reduction]; rfl) fun u hu he => ?_)
  · exact hr.form_of_mem hq (hext.advance.mem_body hl h.rooted)
      (hext.advance.mem_body hl h.before.left_mem) (hc.ne_main h) hj
  · exact (h.feeds_of_mem_feeders hu).2 (he ▸ .refl)

theorem of_handsDown {call : InstrId} {tupled : Bool} (hl : q.Linked) (hroot : root ∈ q.body main)
    (hd : HandsDown root call tupled q r) :
    Combined p r m old body gemm inst gemmInst results value returns operands := by
  have hm := hc.ne_main h
  refine hc.of_sameForm hl (hd.body hm) (fun j hj => ?_)
    (forall₂_imp_of_mem hc.supplied fun u hu i hi => hi.of_copy fun hnew hnode => ?_)
  · obtain ⟨a, ha, ho⟩ := hl.owned hj
    have hout : j ∉ q.body main := fun hmain => hm (ho.symm.trans (hl.owner_unique ha hmain))
    exact hd.form (fun he : j = root => hout (he ▸ hroot)) fun _ huse =>
      hout (hl.mem_body_of_used hroot huse)
  · -- a copy of an operand reads that operand only, which stands before the reduction
    refine Node.of_sameForm (hd.form (fun he => ?_) fun _ huse => ?_) hnode
    · rw [he, h.reduction] at hnew
      cases hnew
    · obtain ⟨a, ha, -, hinputs, -⟩ := id hnode
      obtain ⟨a', ha', hmem⟩ := huse
      cases ha.symm.trans ha'
      rw [hinputs, List.mem_singleton] at hmem
      exact (h.feeds_of_mem_feeders hu).1.ne (h.valid.toLinked.nodup main) hmem.symm

end Combined

/-! ## What is left -/

/-- A new call in `q` has the values of the reduction and then that of the former call. A reduction
with one value is the first element of it, and elements of the reduction are elements of it. All
others read `heir`, its last element, in the place of the former call. -/
structure Shared (p q : Program) (root gemm call heir : InstrId) (op : Op)
    (operands : List InstrId) (m : ModuleId) (tupled : Bool) (n : Nat) : Prop where
  isNew : p.instr? call = none ∧ p.instr? heir = none
  calls : q.Calls call op operands m
  listed : call ∈ q.body main
  last : q.Node (.tupleElem n) [call] heir
  single : tupled = false → q.Node (.tupleElem 0) [call] root
  gone : tupled = true → q.instr? root = none
  elements : tupled = true → ∀ {j}, p.Uses j root →
    ∃ i, p.Node (.tupleElem i) [root] j ∧ q.Node (.tupleElem i) [call] j
  alike : ∀ {j a b}, p.instr? j = some a → q.instr? j = some b →
    b.owner = a.owner ∧ a.type.Alike b.type
  others : ∀ {j a b}, j ≠ root → (tupled = true → root ∉ a.inputs) → p.instr? j = some a →
    q.instr? j = some b → b.op = a.op ∧ b.modules = a.modules ∧
      b.inputs = a.inputs.map fun i => if i = gemm then heir else i

namespace Shared

variable {heir : InstrId} {n : Nat} (hs : Shared p q root gemm call heir op operands m tupled n)
  (h : Site p root gemm inst gemmInst op old body result)

include hs h

/-- What the former call depends on stays the same. -/
theorem form_below {i : InstrId} (hd : p.DependsOn i gemm) (halive : (q.instr? i).isSome) :
    SameForm p q i := by
  obtain ⟨a, ha, -⟩ := h.valid.toLinked.owned (h.mem_body_below hd)
  obtain ⟨b, hb⟩ := Option.isSome_iff_exists.mp halive
  have hunread : ∀ x ∈ a.inputs, x ≠ gemm ∧ x ≠ root := fun x hx =>
    h.unread_below hd ⟨a, ha, hx⟩
  obtain ⟨hop, hmodules, hinputs⟩ := hs.others (fun he => h.root_above (he ▸ hd))
    (fun _ hread => (hunread root hread).2 rfl) ha hb
  have hsame : b.inputs = a.inputs :=
    (hinputs.trans (List.map_congr_left fun x hx => if_neg (hunread x hx).1)).trans (List.map_id _)
  rw [SameForm, ha, hb, Option.map_some, Option.map_some, Instruction.form, Instruction.form, hop,
    hsame, hmodules, (hs.alike ha hb).1]

theorem of_sparing (hl : q.Linked)
    (hspare : ∀ j ∈ q.body main, ¬ p.DependsOn j gemm → Sparing j q r) :
    Shared p r root gemm call heir op operands m tupled n := by
  have hfresh : ∀ {i}, p.instr? i = none → ¬ p.DependsOn i gemm := fun hnone hd => by
    obtain ⟨a, ha, -⟩ := h.valid.toLinked.owned (h.mem_body_below hd)
    cases hnone.symm.trans ha
  -- what reads the call belongs to the main module, too
  have hspared : ∀ {op' j}, q.Node op' [call] j → ¬ p.DependsOn j gemm → r.Node op' [call] j :=
    fun {op' j} hnode hnot => by
      obtain ⟨a, ha, hop, hinputs, hmodules⟩ := hnode
      have hmem := hl.mem_body_of_used hs.listed
        ⟨a, ha, hinputs ▸ List.mem_singleton_self call⟩
      exact ⟨a, (hspare j hmem hnot).same.trans ha, hop, hinputs, hmodules⟩
  have hcall := hspare call hs.listed (hfresh hs.isNew.1)
  obtain ⟨callInst, hcallInst, hop⟩ := hs.calls
  refine ⟨hs.isNew, ⟨callInst, hcall.same.trans hcallInst, hop⟩, hcall.mem_body hl hs.listed,
    hspared hs.last (hfresh hs.isNew.2), fun ht => hspared (hs.single ht) h.root_above,
    fun ht => ?_, fun ht {j} huse => ?_, fun {j a b} ha hb => ?_, fun {j a b} hj hread ha hb => ?_⟩
  · refine Option.eq_none_iff_forall_ne_some.mpr fun a ha => ?_
    obtain ⟨b, hb, -⟩ := hcall.shrunk.left ha
    cases (hs.gone ht).symm.trans hb
  · obtain ⟨i, hold, hnode⟩ := hs.elements ht huse
    exact ⟨i, hold, hspared hnode fun hd => (h.unread_below hd huse).2 rfl⟩
  · obtain ⟨c, hc, hcore⟩ := hcall.shrunk.left hb
    obtain ⟨-, -, -, htype, ho⟩ := Instruction.core_eq_iff.mp hcore
    exact htype ▸ ho ▸ hs.alike ha hc
  · obtain ⟨c, hc, hcore⟩ := hcall.shrunk.left hb
    obtain ⟨hop, hinputs, hmodules, -, -⟩ := Instruction.core_eq_iff.mp hcore
    exact hop ▸ hinputs ▸ hmodules ▸ hs.others hj hread ha hc

end Shared

/-- The call of the combined region: in the place of the reduction where nothing else read the
former call, and else a new one. -/
inductive Placed (p q : Program) (root gemm : InstrId) (op : Op) (operands : List InstrId)
    (m : ModuleId) (tupled : Bool) (n : Nat) : (multi : Bool) → Prop
  | alone (calls : q.Calls root op operands m) (spliced : Spliced root gemm gemm p q) :
    Placed p q root gemm op operands m tupled n false
  | shared {call heir : InstrId} (h : Shared p q root gemm call heir op operands m tupled n) :
    Placed p q root gemm op operands m tupled n true

/-- The former call is gone and with it nothing but what it depended on, and a tuple reduction that
handed down its elements. -/
structure Cleared (p q : Program) (root gemm : InstrId) (dropped : Bool) : Prop where
  gone : q.instr? gemm = none
  kept : ∀ j ∈ p.body main, ¬ p.DependsOn j gemm → (dropped = true → j ≠ root) →
    (q.instr? j).isSome

section

variable {s : Session} {results returns : List InstrId} {n : Nat}
  (h : Site p root gemm inst gemmInst op old body result) (hext : Extended root p s.program)
  (hc : Combined p s.program m old body gemm inst gemmInst results value returns operands)

include h hext hc

/-- **The reduction becomes the call.** -/
theorem ends_alone (honly : ∀ j, s.program.Uses j gemm → j = root) :
    (do
      Edit.replaceWith root (.offload op) operands [m]
      discard <| Edit.prune [gemm]
      Edit.releaseModule body
      Edit.releaseModule old
      return true : Fusing Bool).Ends s fun _ t =>
        Combined p t.program m old body gemm inst gemmInst results value returns operands ∧
          (t.program.Calls root op operands m ∧ Spliced root gemm gemm p t.program) ∧
          Cleared p t.program root gemm false := by
  have hl := h.valid.toLinked
  rw [ends_bind, ends_edit]
  intro _ q hok
  obtain ⟨hglued, hq, hr, hcalls⟩ := hext.call hl h.rooted h.reduction h.inner (hc.ne_main h) hok
  have hr := hr gemm gemm
  have hmem : ∀ {i}, i ∈ p.body main → i ∈ q.body main := hq.mem_body hl
  have hsame : ∀ {i}, p.DependsOn i gemm → i ∈ q.body main ∧ SameForm p q i := fun {i} hd => by
    obtain ⟨a, ha, -⟩ := hl.owned (h.mem_body_below hd)
    refine ⟨hmem (h.mem_body_below hd), (hext.rereads hr (fun he => h.root_above (he ▸ hd)) ha).form
      ha fun hread => (h.unread_below hd ⟨a, ha, hread⟩).1 rfl⟩
  have hunread : ∀ j, ¬ q.Uses j gemm := fun j huse => by
    by_cases hj : j = root
    · exact h.gemm_notMem hc.supplied (hglued.reads (hj ▸ huse))
    · exact hj (honly j (hglued.others hj huse))
  refine (ends_cleanup hq.steady (feeders_below hsame) .refl (fun b hb => ?_) hunread).mono ?_
  · exact hq.isBoundary h.called (by rw [h.isCall]; rfl) hb
  rintro _ t ⟨hgone, hspare⟩
  have hspare : ∀ j ∈ q.body main, ¬ p.DependsOn j gemm → Sparing j q t.program := hspare
  have hs := hspare root (hmem h.rooted) h.root_above
  obtain ⟨callInst, hcall, hop⟩ := id hcalls
  have hcalls' : t.program.Calls root op operands m := ⟨callInst, hs.same.trans hcall, hop⟩
  refine ⟨(hc.of_rerouted h hext hr).of_sparing (hc.ne_main h) hq.steady.toLinked hs hcalls',
    ⟨hcalls', hext.spliced hl h.rooted hq hr hs (.inl rfl)⟩, hgone, fun j hj hnot _ => ?_⟩
  obtain ⟨b, hb, -⟩ := hq.steady.owned (hmem hj)
  rw [(hspare j (hmem hj) hnot).same, hb]
  rfl

omit hc in
/-- An element of the reduction is an element while the new call is built. -/
theorem exists_element {heir j : InstrId} (hr : Rerouted root gemm heir s.program q)
    (huse : p.Uses j root) (hpicked : ∃ i, p.Node (.tupleElem i) [root] j) : ∃ i a,
      p.Node (.tupleElem i) [root] j ∧ q.instr? j = some a ∧ a.op = .tupleElem i := by
  obtain ⟨i, hnode⟩ := hpicked
  obtain ⟨b, hb, hop, -⟩ := id hnode
  have hj : j ≠ root := by
    rintro rfl
    obtain ⟨c, hc, hmem⟩ := huse
    exact h.valid.toLinked.operand_ne hc hmem rfl
  obtain ⟨a, ha, hop', -⟩ := hext.rereads hr hj hb b hb
  exact ⟨i, a, hnode, ha, hop'.trans hop⟩

/-- **The reduction hands down its values to a new call**, and what read the former call reads the
last one. -/
theorem shared_of_splitCall (hpicked : tupled = true → ∀ {j}, p.Uses j root →
      ∃ i, p.Node (.tupleElem i) [root] j)
    (hok : splitCall root gemm tupled op operands m n s.program = .ok u q) :
    q.Steady (some main) ∧ (∀ j, ¬ q.Uses j gemm) ∧
      (∀ j ∈ p.body main, (tupled = true → j ≠ root) → j ∈ q.body main) ∧
      Combined p q m old body gemm inst gemmInst results value returns operands ∧
      ∃ call heir, Shared p q root gemm call heir op operands m tupled n := by
  have hl := h.valid.toLinked
  obtain ⟨q', call, heir, hq', hr, hnew, hcalls, hcallMem, hheir, hheirNew, hfree, hsingle,
    htuple⟩ := h.splitCall_rerouted hext (hc.ne_main h) hc.supplied hok
  have hl' := hq'.steady.toLinked
  have hne : ∀ {i j}, i ∈ p.body main → p.instr? j = none → i ≠ j := by
    rintro i _ hi hj rfl
    obtain ⟨a, ha, -⟩ := hl.owned hi
    cases hj.symm.trans ha
  have husers : ∀ {j}, q'.Uses j root ↔ p.Uses j root := hr.users.trans hext.users
  have hreads : ∀ {j a}, j ≠ root → p.instr? j = some a → Rereads gemm heir p q' j :=
    hext.rereads hr
  have helements : tupled = true → ∀ {j}, p.Uses j root → ∃ i a,
      p.Node (.tupleElem i) [root] j ∧ q'.instr? j = some a ∧ a.op = .tupleElem i :=
    fun ht {_} huse => exists_element h hext hr huse (hpicked ht huse)
  have hd : HandsDown root call tupled q' q := by
    cases tupled with
    | false => exact handsDown_single hl hq' h.rooted h.reduction h.inner (hsingle rfl)
    | true =>
      obtain ⟨a, q'', ha, hhand, hremove⟩ := htuple rfl
      refine handsDown_tuple hl hq' h.rooted h.reduction h.inner ha (fun c huse => ?_) hhand hremove
      obtain ⟨i, b, -, hb, hop⟩ := helements rfl (husers.mp huse)
      exact ⟨b, hb, hop ▸ rfl⟩
  -- the call and its last element do not read the reduction
  have hcall : SameForm q' q call := by
    obtain ⟨a, ha, -, hinputs, -⟩ := id hcalls
    exact hd.form_of_inputs (hne h.rooted hnew).symm ha
      (hinputs ▸ h.root_notMem hc.supplied)
  have hheir' : SameForm q' q heir := by
    obtain ⟨a, ha, -, hinputs, -⟩ := id hheir
    exact hd.form_of_inputs (hne h.rooted hheirNew).symm ha fun hmem =>
      hne h.rooted hnew (List.mem_singleton.mp (hinputs ▸ hmem))
  have hunread := hd.unread (hne h.before.left_mem hnew) hfree
  refine ⟨hd.steady, hunread, fun j hj => hd.listed (hq'.mem_body hl hj),
    (hc.of_rerouted h hext hr).of_handsDown h hl' (hq'.mem_body hl h.rooted) hd, call, heir,
    ⟨hnew, hheirNew⟩, hcalls.of_sameForm hcall, hd.listed hcallMem fun _ =>
      (hne h.rooted hnew).symm, hheir.of_sameForm hheir', hd.single, hd.gone, fun ht {j} huse => ?_,
    fun {j a b} ha hb => ?_, fun {j a b} hj hread ha hb => ?_⟩
  · obtain ⟨i, a, hold, ha, hop⟩ := helements ht huse
    obtain ⟨a', ha', hmem⟩ := husers.mpr huse
    cases ha.symm.trans ha'
    exact ⟨i, hold, hop ▸ hd.elements ht ha hmem⟩
  · obtain ⟨c, hc, ho, -, halike⟩ := hq'.evolved.kept ha
    obtain ⟨ho', halike'⟩ := hd.alike hc hb
    exact ⟨ho'.trans ho, halike.trans halike'⟩
  · have hform : SameForm q' q j := hd.form hj fun ht huse => by
      obtain ⟨a', ha', hmem⟩ := husers.mp huse
      cases ha.symm.trans ha'
      exact hread ht hmem
    have hall : Rereads gemm heir p q j := (hreads hj ha).trans (.of_form hform)
    obtain ⟨b', hb', hop, hmodules, -⟩ := hall a ha
    cases hb.symm.trans hb'
    exact ⟨hop, hmodules, hall.inputs_eq ha hb (.inr fun hmem => hunread j ⟨b, hb, hmem⟩)⟩

/-- **The former call goes where a new one has its value.** -/
theorem ends_shared (hpicked : tupled = true → ∀ {j}, p.Uses j root →
      ∃ i, p.Node (.tupleElem i) [root] j) :
    (do
      splitCall root gemm tupled op operands m n
      discard <| Edit.prune [gemm]
      Edit.releaseModule body
      Edit.releaseModule old
      return true : Fusing Bool).Ends s fun _ t =>
        Combined p t.program m old body gemm inst gemmInst results value returns operands ∧
          (∃ call heir, Shared p t.program root gemm call heir op operands m tupled n) ∧
          Cleared p t.program root gemm tupled := by
  have hl := h.valid.toLinked
  rw [ends_bind, ends_edit]
  intro _ q hok
  obtain ⟨hq, hunread, hlisted, hcombined, call, heir, hshared⟩ :=
    shared_of_splitCall h hext hc hpicked hok
  have hl' := hq.toLinked
  have hsame : ∀ {i}, p.DependsOn i gemm → i ∈ q.body main ∧ SameForm p q i := fun {i} hd => by
    have hi := hlisted i (h.mem_body_below hd) fun _ he => h.root_above (he ▸ hd)
    obtain ⟨b, hb, -⟩ := hl'.owned hi
    exact ⟨hi, hshared.form_below h hd (by rw [hb]; rfl)⟩
  refine (ends_cleanup hq (feeders_below hsame) .refl (fun b hb => ?_) hunread).mono ?_
  · obtain ⟨b', hb', hop, -⟩ := (hsame .refl).2.exists_instr h.called
    cases hb.symm.trans hb'
    rw [hop, h.isCall]
    rfl
  rintro _ t ⟨hgone, hspare⟩
  have hspare : ∀ j ∈ q.body main, ¬ p.DependsOn j gemm → Sparing j q t.program := hspare
  have hshared' := hshared.of_sparing h hl' hspare
  have hcall := hspare call hshared.listed fun hd => by
    obtain ⟨a, ha, -⟩ := hl.owned (h.mem_body_below hd)
    cases hshared.isNew.1.symm.trans ha
  refine ⟨hcombined.of_sparing (hc.ne_main h) hl' hcall hshared'.calls, ⟨call, heir, hshared'⟩,
    hgone, fun j hj hnot hdropped => ?_⟩
  obtain ⟨b, hb, -⟩ := hl'.owned (hlisted j hj hdropped)
  rw [(hspare j (hlisted j hj hdropped) hnot).same, hb]
  rfl

end

/-! ## The rule -/

section

variable {h : Heuristics} {found : Match}

theorem exists_captured (hp : p.Valid) (hok : matcher.run p h root = .ok (some found)) :
    ∃ gemm inst gemmInst op old result, found.root = root ∧ found.get "gemm" = .ok gemm ∧
      p.instr? root = some inst ∧ inst.op.isBoundary = false ∧ gemm ∈ inst.inputs ∧
      p.instr? gemm = some gemmInst ∧ gemmInst.op = .offload op ∧ gemmInst.modules = [old] ∧
      p.returned old = [result] := by
  obtain ⟨hr, ⟨_, htest⟩, gemm, hget, ⟨inst, hinst, hmem⟩, _, _, hoperand⟩ :=
    Matcher.exists_capture hok
  obtain ⟨inst', _, hinst', hop⟩ := Eligible.op_of_splitReduce (Matcher.eval_test_ok htest).1
  cases hinst.symm.trans hinst'
  obtain ⟨gemmInst, hgemm, hcall⟩ := (Option.any_eq_true _ _).mp
    (Outcome.pure_ok.mp (Matcher.eval_test_ok hoperand).1)
  obtain ⟨hoffload, htensor⟩ := Bool.and_eq_true_iff.mp hcall
  obtain ⟨op, hop'⟩ : ∃ op, gemmInst.op = .offload op := by
    cases hanchor : gemmInst.op with
    | offload op => exact ⟨op, rfl⟩
    | _ => rw [hanchor] at hoffload; cases hoffload
  obtain ⟨old, signature, hold, hsig, hreturns, -⟩ := hp.offload hgemm hop'
  obtain ⟨t, ht⟩ := Option.isSome_iff_exists.mp htensor
  obtain ⟨params, returns⟩ := signature
  have hone : returns = [t] := by
    rw [Instruction.tensor?] at ht
    cases htype : gemmInst.type with
    | tensor u =>
      rw [htype] at ht hreturns
      cases ht
      exact hreturns
    | tuple => rw [htype] at ht; cases ht
  obtain ⟨result, hresult⟩ := exists_returned (hone ▸ hsig)
  exact ⟨gemm, inst, gemmInst, op, old, result, hr, hget, hinst, hop ▸ rfl, hmem, hgemm, hop', hold,
    hresult⟩

theorem admits_ok (hp : p.Valid) (hinst : p.instr? root = some inst)
    (hok : admits p root gemm = .ok true) :
    (∀ i ∈ inst.inputs, i ≠ gemm → ¬ p.DependsOn gemm i) ∧
      (inst.type.isTuple = true → ∀ {j}, p.Uses j root →
        ∃ i, p.Node (.tupleElem i) [root] j) := by
  rw [admits, Outcome.bind_ok] at hok
  obtain ⟨inst', hi', hok⟩ := hok
  cases hinst.symm.trans (instr_ok.mp hi')
  split at hok
  · cases hok
  next hapart =>
  refine ⟨fun i hi hne hd => hapart ?_, fun htuple {j} huse => ?_⟩
  · exact List.any_eq_true.mpr ⟨i, hi, decide_eq_true ⟨hne, reaches_iff.mpr hd⟩⟩
  · rw [if_pos htuple] at hok
    obtain ⟨a, ha, hop⟩ := onlyPicked_ok hok j ((hp.mirrored hinst).mpr huse)
    obtain ⟨a', ha', hread⟩ := huse
    cases ha.symm.trans ha'
    obtain ⟨i, hop⟩ := Op.exists_tupleElem hop
    obtain ⟨types, signatures, htypes, hsigs, hinfer⟩ := infer_ok.mp (hp.fresh ha)
    rw [hop] at hinfer
    obtain ⟨_, _, rfl, rfl, -⟩ := Op.tupleElemOutput_ok.mp hinfer
    obtain ⟨x, _, -, hrest, hinputs⟩ := List.forall₂_cons_right_iff.mp htypes
    rw [List.forall₂_nil_right_iff.mp hrest] at hinputs
    rw [hinputs, List.mem_singleton] at hread
    exact ⟨i, a, ha, hop, hread ▸ hinputs, List.forall₂_nil_right_iff.mp hsigs⟩

end

theorem Site.shared_iff (h : Site p root gemm inst gemmInst op old body result) :
    1 < gemmInst.consumers.length ↔ ∃ j, p.Uses j gemm ∧ j ≠ root := by
  have hl := h.valid.toLinked
  have hroot : root ∈ gemmInst.consumers :=
    (hl.mirrored h.called).mpr ⟨inst, h.reduction, h.reads⟩
  constructor
  · intro hmany
    by_contra hnone
    have hsub : gemmInst.consumers ⊆ [root] := fun j hj => by
      by_contra hne
      exact hnone ⟨j, (hl.mirrored h.called).mp hj, fun he => hne (he ▸ List.mem_singleton_self _)⟩
    exact Nat.not_lt_of_le ((hl.distinct h.called).subperm hsub).length_le hmany
  · rintro ⟨j, hj, hne⟩
    by_contra hone
    obtain ⟨c, hc⟩ := List.length_eq_one_iff.mp
      (Nat.le_antisymm (Nat.le_of_not_lt hone) (List.length_pos_of_mem hroot))
    have hj := (hl.mirrored h.called).mpr hj
    rw [hc, List.mem_singleton] at hj hroot
    exact hne (hj.trans hroot.symm)

/-- What the rule makes of the program `p`. -/
def Reduces (p q : Program) (root gemm : InstrId) : Prop :=
  ∃ inst gemmInst op old body result m results value operands multi,
    Site p root gemm inst gemmInst op old body result ∧
    (multi = true ↔ ∃ j, p.Uses j gemm ∧ j ≠ root) ∧
    Combined p q m old body gemm inst gemmInst results value
      (if multi then results ++ [value] else results) operands ∧
    Placed p q root gemm op operands m inst.type.isTuple results.length multi ∧
    Cleared p q root gemm (multi && inst.type.isTuple)

/-- **The call of the combined region takes its place.** -/
theorem ends_placed {s : Session} {results : List InstrId}
    (h : Site p root gemm inst gemmInst op old body result) (hext : Extended root p s.program)
    (hc : Combined p s.program m old body gemm inst gemmInst results value
      (if gemmInst.consumers.length > 1 then results ++ [value] else results) operands)
    (hread : ∀ j, s.program.Uses j gemm → p.Uses j gemm)
    (hpicked : inst.type.isTuple = true → ∀ {j}, p.Uses j root →
      ∃ i, p.Node (.tupleElem i) [root] j)
    (hlast : Checked.sub (if gemmInst.consumers.length > 1 then results ++ [value]
      else results).length 1 = .ok last) :
    (do
      if gemmInst.consumers.length > 1 then splitCall root gemm inst.type.isTuple op operands m last
      else Edit.replaceWith root (.offload op) operands [m]
      discard <| Edit.prune [gemm]
      Edit.releaseModule body
      Edit.releaseModule old
      return true : Fusing Bool).Ends s fun _ t => Reduces p t.program root gemm := by
  split
  · next hmany =>
    have hlength : last = results.length := by
      rw [if_pos hmany, List.length_append,
        show Checked.sub (results.length + [value].length) 1 = .ok results.length from
          if_pos (Nat.le_add_left ..)] at hlast
      exact (Except.ok.inj hlast).symm
    rw [if_pos hmany] at hc
    subst hlength
    refine (ends_shared h hext hc hpicked).mono ?_
    rintro _ t ⟨hcombined, ⟨_, _, hshared⟩, hcleared⟩
    exact ⟨_, _, _, _, _, _, _, _, _, _, true, h, iff_of_true rfl (h.shared_iff.mp hmany),
      hcombined, .shared hshared, hcleared⟩
  · next hone =>
    rw [if_neg hone] at hc
    refine (ends_alone h hext hc fun j huse => ?_).mono ?_
    · by_contra hne
      exact hone (h.shared_iff.mpr ⟨j, hread j huse, hne⟩)
    rintro _ t ⟨hcombined, ⟨hcalls, hspliced⟩, hcleared⟩
    exact ⟨_, _, _, _, _, _, _, _, _, _, false, h,
      iff_of_false Bool.false_ne_true (mt h.shared_iff.mpr hone), hcombined,
      .alone hcalls hspliced, hcleared⟩

theorem ends_reduces {s : Session} {found : Match} (hp : s.program.Valid)
    (hroot : found.root ∈ s.program.body main) (hget : found.get "gemm" = .ok gemm)
    (hinst : s.program.instr? found.root = some inst) (hinner : inst.op.isBoundary = false)
    (hreads : gemm ∈ inst.inputs) (hgemm : s.program.instr? gemm = some gemmInst)
    (hop : gemmInst.op = .offload op) (hold : gemmInst.modules = [old])
    (hgives : s.program.returned old = [result]) :
    (apply found).Ends s fun applied t =>
      applied = true → Reduces s.program t.program found.root gemm := by
  have hl := hp.toLinked
  have hdeclines : (pure false : Fusing Bool).Ends s fun applied t =>
      applied = true → Reduces s.program t.program found.root gemm := by
    rw [ends_pure]
    intro he
    cases he
  rw [apply, ends_bind, Fusing.ends_get]
  intro gemm' hget'
  obtain rfl := Except.ok.inj (hget.symm.trans hget')
  rw [ends_theProgram_bind, ends_bind, ends_lift_checked]
  intro admitted hadmits
  split
  · exact hdeclines
  next hadmitted =>
  obtain rfl : admitted = true := by simpa using hadmitted
  obtain ⟨hapart, hpicked⟩ := admits_ok hp hinst hadmits
  rw [ends_bind, ends_lift_checked]
  intro inst' hinst'
  obtain rfl := Option.some.inj (hinst.symm.trans (instr_ok.mp hinst'))
  rw [ends_bind, ends_lift_checked]
  intro gemmInst' hgemm'
  obtain rfl := Option.some.inj (hgemm.symm.trans (instr_ok.mp hgemm'))
  rw [hold, hop]
  dsimp only [Op.anchor?]
  split
  · next body _ hmodules =>
    obtain ⟨hbody, he⟩ := Prod.mk.inj hmodules
    cases he
    have h : Site s.program found.root gemm inst gemmInst op old body result :=
      ⟨hp, hroot, hinst, hinner, hbody, hreads, hapart, hgemm, hop, hold, hgives⟩
    split
    · next ret hret =>
      rw [ends_bind, ends_lift_checked]
      intro oldModule _
      rw [ends_bind, ends_lift_checked]
      intro bodyModule _
      rw [ends_bind]
      refine (Fusing.ends_uniqueName _).mono fun name s₁ hs₁ => ?_
      rw [ends_bind]
      refine ends_edit.mpr ?_
      rintro ⟨m, value⟩ q hopen
      rw [show HoldsProgram.program s₁ = s.program from hs₁] at hopen
      rw [ends_theProgram_bind, ends_bind, ends_lift_graph]
      intro region hregion
      rw [ends_bind]
      refine Fusing.ends_building (ends_bind.mpr ((h.ends_graft hret hopen hregion).mono ?_))
      rintro results w ⟨hgrowing, hadds, hdraws, hgrafted⟩
      rw [ends_pure]
      dsimp only
      rw [ends_bind, ends_lift_checked]
      intro last hlast
      rw [ends_bind]
      refine (Fusing.ends_supplied (m := m) (F := Feeds s.program found.root gemm)
        (Q := fun returns fed q => returns = (if gemmInst.consumers.length > 1 then
          results ++ [value] else results) ∧ fed = feeders gemm inst.inputs gemmInst.inputs ∧
          q.Linked ∧ Grafted s.program q m old body gemm inst.inputs gemmInst.inputs results value)
        hl (feeders_feeds hl _ _) hroot (fun hself => hself.1.ne (hl.nodup main) rfl)
        (ends_pure.mpr ⟨hgrowing, hadds, _, hdraws, rfl, rfl, hadds.linked, hgrafted⟩)).mono ?_
      rintro operands t ⟨hext, hunread, hnew, -, _, _, r, ⟨rfl, rfl, hlr, hgrafted⟩, hfinished,
        hsupplied⟩
      have hc : Combined s.program t.program m old body gemm inst gemmInst results value _
          operands := ⟨hnew, hgrafted.of_sameForm hlr hfinished.parameters hfinished.form,
        hfinished.returned, hsupplied⟩
      exact (ends_placed h hext hc (fun j huse => hunread.users j gemm h.before.left_mem
        (fun hself => hself.2 .refl) huse) hpicked hlast).mono fun _ _ hreduces _ => hreduces
    · exact hdeclines
  · exact hdeclines

/-- **A reduction moves into a call without losing a value.** The call is gone. Where only the
reduction read it, the reduction becomes the call of the combined region, with its consumers, its
element types and its dimensions. Otherwise a new call has the values of the reduction in their
order and then that of the former call; the reduction is its first element, elements of the
reduction are elements of it, and what read the former call reads its last element. The operands are
those of the former call and then the other ones of the reduction, or row-major copies of them. -/
theorem reduces_at_match (p : Program) (hv : p.verify = .ok ()) (h : Heuristics) (counter : Nat)
    (root : InstrId) (found : Match) (t : Session) (hroot : root ∈ p.body main)
    (hmatch : Rule.splitReduce.matcher.run p h root = .ok (some found))
    (hok : Rule.splitReduce.apply found ⟨p, counter⟩ = .ok true t) :
    ∃ gemm, found.get "gemm" = .ok gemm ∧ Reduces p t.program root gemm := by
  obtain ⟨gemm, inst, gemmInst, op, old, result, rfl, hget, hinst, hinner, hreads, hgemm, hop, hold,
    hgives⟩ := exists_captured (verify_ok.mp hv) hmatch
  have hends := ends_reduces (s := ⟨p, counter⟩) (verify_ok.mp hv) hroot hget hinst hinner hreads
    hgemm hop hold hgives
  rw [Ends, show apply found ⟨p, counter⟩ = .ok true t from hok] at hends
  exact ⟨gemm, hget, hends rfl⟩

/-- The sum and the mean of the rows of a dot, which is returned beside them if it is shared. -/
def summed (shared : Bool) : Program :=
  (do
    let region ← Edit.createModule "r"
    let l ← Edit.addParameter region "y0" ⟨.f32, [2, 2], [2, 1]⟩
    let r ← Edit.addParameter region "y1" ⟨.f32, [2, 2], [2, 1]⟩
    let product ← Edit.addInstruction region (.dot false) [l, r] []
    let _ ← Edit.addReturn region [product]
    let body ← Edit.createModule "f"
    let x ← Edit.addParameter body "x0" ⟨.f32, [2, 2], [2, 1]⟩
    let total ← Edit.addInstruction body (.reduce .sum [1]) [x] []
    let mean ← Edit.addInstruction body (.reduce .mean [1]) [x] []
    let _ ← Edit.addReturn body [total, mean]
    let a ← Edit.addParameter main "a" ⟨.f32, [2, 2], [2, 1]⟩
    let b ← Edit.addParameter main "b" ⟨.f32, [2, 2], [2, 1]⟩
    let called ← Edit.addInstruction main (.offload (.dot false)) [a, b] [region]
    let reduced ← Edit.addInstruction main (.splitFusedReduce [1]) [called] [body]
    let first ← Edit.addInstruction main (.tupleElem 0) [reduced] []
    let second ← Edit.addInstruction main (.tupleElem 1) [reduced] []
    let _ ← Edit.addReturn main ([first, second] ++ if shared then [called] else []) :
      Edit Unit).after .empty

/-- Shared or not, the dot is gone; the reduction is gone with it only if it is shared. -/
theorem reduces_at_summed : (∀ shared, (summed shared).verify = .ok () ∧
      Rule.splitReduce.matcher.run (summed shared) .default ⟨11⟩ =
        .ok (some ⟨⟨11⟩, [("gemm", ⟨10⟩)]⟩)) ∧
    (∃ t, Rule.splitReduce.apply ⟨⟨11⟩, [("gemm", ⟨10⟩)]⟩ ⟨summed true, 0⟩ = .ok true t ∧
      t.program.instr? ⟨10⟩ = none ∧ t.program.instr? ⟨11⟩ = none ∧
      Reduces (summed true) t.program ⟨11⟩ ⟨10⟩) ∧
    ∃ t, Rule.splitReduce.apply ⟨⟨11⟩, [("gemm", ⟨10⟩)]⟩ ⟨summed false, 0⟩ = .ok true t ∧
      t.program.instr? ⟨10⟩ = none ∧ (t.program.instr? ⟨11⟩).isSome ∧
      Reduces (summed false) t.program ⟨11⟩ ⟨10⟩ := by
  have hmatches : ∀ shared, (summed shared).verify = .ok () ∧
      Rule.splitReduce.matcher.run (summed shared) .default ⟨11⟩ =
        .ok (some ⟨⟨11⟩, [("gemm", ⟨10⟩)]⟩) ∧ ⟨11⟩ ∈ (summed shared).body main := by decide +kernel
  have hruns : ∀ shared, ∃ applied t, Rule.splitReduce.apply ⟨⟨11⟩, [("gemm", ⟨10⟩)]⟩
      ⟨summed shared, 0⟩ = .ok applied t ∧ applied = true ∧ t.program.instr? ⟨10⟩ = none ∧
        (t.program.instr? ⟨11⟩).isNone = shared := by decide +kernel
  have hgemm : (Match.mk ⟨11⟩ [("gemm", ⟨10⟩)]).get "gemm" = .ok ⟨10⟩ := by decide +kernel
  have hreduces : ∀ shared, ∃ t, Rule.splitReduce.apply ⟨⟨11⟩, [("gemm", ⟨10⟩)]⟩
      ⟨summed shared, 0⟩ = .ok true t ∧ t.program.instr? ⟨10⟩ = none ∧
        (t.program.instr? ⟨11⟩).isNone = shared ∧
        Reduces (summed shared) t.program ⟨11⟩ ⟨10⟩ := by
    intro shared
    obtain ⟨hv, hmatch, hroot⟩ := hmatches shared
    obtain ⟨_, t, hok, rfl, hgone, hdropped⟩ := hruns shared
    obtain ⟨gemm, hget, hreduces⟩ := reduces_at_match (summed shared) hv .default 0 ⟨11⟩
      ⟨⟨11⟩, [("gemm", ⟨10⟩)]⟩ t hroot hmatch hok
    obtain rfl : gemm = ⟨10⟩ := Except.ok.inj (hget.symm.trans hgemm)
    exact ⟨t, hok, hgone, hdropped, hreduces⟩
  obtain ⟨t, hok, hgone, hdropped, hshared⟩ := hreduces true
  obtain ⟨u, hok', hgone', hkept, halone⟩ := hreduces false
  exact ⟨fun shared => ⟨(hmatches shared).1, (hmatches shared).2.1⟩,
    ⟨t, hok, hgone, Option.isNone_iff_eq_none.mp hdropped, hshared⟩,
    u, hok', hgone', Option.isNone_eq_false_iff.mp hkept, halone⟩

/-- A transposed dot, transposed back by the reduction; the first columns of the result go to a
call. -/
def restored : Program :=
  (do
    let region ← Edit.createModule "g"
    let l ← Edit.addParameter region "y0" ⟨.f32, [4, 4], [4, 1]⟩
    let r ← Edit.addParameter region "y1" ⟨.f32, [4, 4], [4, 1]⟩
    let product ← Edit.addInstruction region (.dot false) [l, r] []
    let turned ← Edit.addInstruction region (.reindex (.transpose [1, 0])) [product] []
    let _ ← Edit.addReturn region [turned]
    let body ← Edit.createModule "f"
    let x ← Edit.addParameter body "x0" ⟨.f32, [4, 4], [4, 1]⟩
    let back ← Edit.addInstruction body (.reindex (.transpose [1, 0])) [x] []
    let _ ← Edit.addReturn body [back]
    let later ← Edit.createModule "h"
    let z ← Edit.addParameter later "z0" ⟨.f32, [4, 2], [2, 1]⟩
    let w ← Edit.addParameter later "z1" ⟨.f32, [2, 4], [4, 1]⟩
    let last ← Edit.addInstruction later (.dot false) [z, w] []
    let _ ← Edit.addReturn later [last]
    let a ← Edit.addParameter main "a" ⟨.f32, [4, 4], [4, 1]⟩
    let b ← Edit.addParameter main "b" ⟨.f32, [4, 4], [4, 1]⟩
    let c ← Edit.addParameter main "c" ⟨.f32, [2, 4], [4, 1]⟩
    let called ← Edit.addInstruction main (.offload (.dot false)) [a, b] [region]
    let reduced ← Edit.addInstruction main (.splitFusedReduce [1]) [called] [body]
    let columns ← Edit.addInstruction main (.reindex (.slice [1] [0] [2])) [reduced] []
    let next ← Edit.addInstruction main (.offload (.dot false)) [columns, c] [later]
    let _ ← Edit.addReturn main [next] : Edit Unit).after .empty

/-- The merged region gives another layout than the reduction had. The later call refuses what is
sliced from it, when the reduction is replaced already. -/
theorem stops_at_restored :
    restored.verify = .ok () ∧ restored.Sized ∧
      Rule.splitReduce.matcher.run restored .default ⟨16⟩ = .ok (some ⟨⟨16⟩, [("gemm", ⟨15⟩)]⟩) ∧
      ∃ e t, Rule.splitReduce.apply ⟨⟨16⟩, [("gemm", ⟨15⟩)]⟩ ⟨restored, 0⟩ =
        .error (.refused e) t ∧ t.program.verify ≠ .ok () := by
  decide +kernel

end SplitReduce

end OffloadFusion
