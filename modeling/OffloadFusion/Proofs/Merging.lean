import OffloadFusion.Pass.Run
import OffloadFusion.Proofs.Chains
import OffloadFusion.Proofs.Gridding
import OffloadFusion.Proofs.Meaning
import OffloadFusion.Proofs.Supplying

/-!
# Pointwise instructions that move into calls

A pointwise that only a call reads moves into the region of the call. The rule counts beforehand how
many operands the call will take.

* `mergedInputs_eq`: the count is of the operands of both, each at its first place.
* **`merges_at_match`**: these are the operands that the call gets, and the rule declines where
  there are fewer than two.
-/

namespace OffloadFusion.InputFusion

open OffloadFusion.Action Program Building

variable {p q : Program} {pw root : InstrId} {callInst pwInst : Instruction} {m body old : ModuleId}
  {op : Op} {is pwInputs callInputs operands results results' : List InstrId} {value : InstrId}
  {w₀ w₁ w₂ : Workspace} {s : Session} {found : Match} {h : Heuristics}

/-! ## The operands -/

/-- The operands of the pointwise and then those of the call, but for the pointwise itself, each at
the first of its places. -/
def merged (pw : InstrId) (pwInputs callInputs : List InstrId) : List InstrId :=
  ((pwInputs ++ callInputs).filter (· ≠ pw)).eraseDups

theorem foldl_distinct (seen : List InstrId) :
    is.foldl (fun seen i => if i ∈ seen then seen else seen ++ [i]) seen =
      seen ++ (is.removeAll seen).eraseDups := by
  induction is generalizing seen with
  | nil => exact (List.append_nil _).symm
  | cons i is ih =>
    rw [List.foldl_cons]
    split
    · next hi =>
      rw [ih, List.removeAll, List.removeAll, List.filter_cons_of_neg (by simpa using hi)]
    · next hi =>
      rw [ih, List.append_assoc, List.singleton_append, List.removeAll, List.removeAll,
        List.filter_cons_of_pos (by simpa using hi), List.eraseDups_cons, List.filter_filter]
      congr 3
      refine List.filter_congr fun j _ => ?_
      by_cases hj : j = i <;> simp [hj]

theorem mergedInputs_eq : mergedInputs pw pwInputs callInputs = merged pw pwInputs callInputs := by
  rw [mergedInputs, distinct, foldl_distinct, List.nil_append, merged, List.removeAll]
  congr 1
  exact List.filter_eq_self.mpr fun _ _ => rfl

theorem merged_eq (hpw : pw ∉ pwInputs) : merged pw pwInputs callInputs =
    pwInputs.eraseDups ++ (callInputs.filter fun i => i ≠ pw ∧ i ∉ pwInputs).eraseDups := by
  have hkept : pwInputs.filter (· ≠ pw) = pwInputs :=
    List.filter_eq_self.mpr fun i hi => decide_eq_true fun he => hpw (he ▸ hi)
  rw [merged, List.filter_append, hkept, List.eraseDups_append, List.removeAll, List.filter_filter]
  congr 2
  refine List.filter_congr fun i _ => ?_
  by_cases hi : i = pw <;> simp [hi]

/-- **A region that replays both bodies draws its parameters from the merged operands.** -/
theorem draws_merged (hempty : Draws m w₀ []) (hnone : w₀.region.values = .empty)
    (hadds : Adds m p w₀.program)
    (hpw : pw ∉ pwInputs) (hbody : ∀ i ∈ callInputs, i ∉ p.body body)
    (h₁ : Fused p m body .commonShape pwInputs results w₀ w₁)
    (h₂ : Fused p m old .plain callInputs results'
      { w₁ with region := w₁.region.know pw value } w₂) :
    Draws m w₂ (merged pw pwInputs callInputs) := by
  have hfirst := h₁.draws hadds.linked hempty
  have hunknown : w₀.region.unknown pwInputs = pwInputs.eraseDups := by
    rw [Region.unknown, hnone]
    congr 1
    exact List.filter_eq_self.mpr fun _ _ => rfl
  rw [hunknown, List.nil_append] at hfirst
  have hboth := h₂.draws h₁.continues.adds.linked hfirst
  rw [merged_eq hpw]
  have hrest : (w₁.region.know pw value).unknown callInputs =
      (callInputs.filter fun i => i ≠ pw ∧ i ∉ pwInputs).eraseDups := by
    rw [Region.unknown]
    congr 1
    refine List.filter_congr fun i hi => ?_
    have hknown : (w₁.region.know pw value).values.contains i = true ↔ i = pw ∨ i ∈ pwInputs := by
      rw [Renaming.contains, show (w₁.region.know pw value).values.image? i = _ from
        Renaming.image?_insert ..]
      split
      · next he => simp [he]
      next he =>
      rw [or_iff_right he]
      constructor
      · intro hcontains
        obtain hold | hmem | ⟨hmem, -⟩ := h₁.only hcontains
        · rw [hnone] at hold
          cases hold
        · exact hmem
        · exact absurd hmem (hbody i hi)
      · intro hmem
        obtain ⟨v, hv, -⟩ := h₁.offered i hmem
        rw [hv]
        rfl
    rw [Bool.eq_iff_iff, Bool.not_eq_true', ← Bool.not_eq_true, hknown]
    simp
  rw [hrest] at hboth
  exact hboth

/-! ## The rule -/

/-- A call of the main module and a pointwise that only the call reads. -/
structure Feeds (p : Program) (call pw : InstrId) (callInst pwInst : Instruction) (op : Op)
    (old body : ModuleId) : Prop where
  valid : p.Valid
  rooted : call ∈ p.body main
  called : p.instr? call = some callInst
  isCall : callInst.op = .offload op
  carried : callInst.modules = [old]
  pointwise : p.instr? pw = some pwInst
  isPointwise : pwInst.op = .pointwise
  mapped : pwInst.modules = [body]
  reads : pw ∈ callInst.inputs
  only : ∀ j, p.Uses j pw → j = call

namespace Feeds

variable (hf : Feeds p root pw callInst pwInst op old body)

include hf

theorem before : Before (p.body main) pw root :=
  hf.valid.toLinked.before_of_uses hf.rooted ⟨callInst, hf.called, hf.reads⟩

theorem feeds_of_mem {i : InstrId} (hi : i ∈ pwInst.inputs ∨ i ∈ callInst.inputs ∧ i ≠ pw) :
    Before (p.body main) i root ∧ i ≠ pw := by
  have hl := hf.valid.toLinked
  obtain hi | ⟨hi, hne⟩ := hi
  · have hi := hl.before_of_uses hf.before.left_mem ⟨pwInst, hf.pointwise, hi⟩
    exact ⟨hi.trans (hl.nodup main) hf.before, hi.ne (hl.nodup main)⟩
  · exact ⟨hl.before_of_uses hf.rooted ⟨callInst, hf.called, hi⟩, hne⟩

theorem feeds_of_mem_merged {i : InstrId} (hi : i ∈ merged pw pwInst.inputs callInst.inputs) :
    Before (p.body main) i root ∧ i ≠ pw := by
  obtain ⟨hi, hne⟩ := List.mem_filter.mp (List.mem_eraseDups.mp hi)
  refine hf.feeds_of_mem ((List.mem_append.mp hi).imp_right fun hi => ⟨hi, ?_⟩)
  exact of_decide_eq_true hne

end Feeds

/-- The call in `p` takes in the pointwise. In `q` it keeps its consumers and its type up to
strides, and calls a new module on the merged operands; the pointwise is gone. -/
structure Merges (p q : Program) (call pw : InstrId) (callInst pwInst : Instruction) : Prop where
  calls : ∃ op m operands, callInst.op = .offload op ∧ p.module? m = none ∧
    q.Calls call op operands m ∧ 2 ≤ operands.length ∧
    List.Forall₂ (Supplied p q) (merged pw pwInst.inputs callInst.inputs) operands
  place : ∃ inst, q.instr? call = some inst ∧ inst.owner = callInst.owner ∧
    callInst.type.Alike inst.type ∧ inst.consumers.Perm callInst.consumers
  gone : q.instr? pw = none

section

variable (hf : Feeds p root pw callInst pwInst op old body)

include hf

/-- **Where the body of the pointwise is replayed, the old region is replayed on its value.** -/
theorem ends_fuse_old {F : InstrId → Prop} (hm : p.module? m = none)
    (hF : ∀ i, Before (p.body main) i root ∧ i ≠ pw → F i) (hempty : Draws m w₀ [])
    (hnone : w₀.region.values = .empty) (hadds : Adds m p w₀.program)
    (hgrowing₁ : Growing F p m w₁) (hadds₁ : Adds m p w₁.program) (hknown₁ : Returnless p w₁)
    (hfused : Fused p m body .commonShape pwInst.inputs results w₀ w₁) (value : InstrId) :
    (do
      Building.know pw value
      Building.fuse old callInst.inputs .plain : Building (List InstrId)).Ends w₁ fun _ w =>
        Growing F p m w ∧ Adds m p w.program ∧
          Draws m w (merged pw pwInst.inputs callInst.inputs) := by
  have hl := hf.valid.toLinked
  have hinputs : ∀ i ∈ callInst.inputs, i ∈ p.body main := fun i hi =>
    hl.mem_body_of_uses hf.rooted ⟨callInst, hf.called, hi⟩
  have hold := Apart.of_mem hf.valid hm hf.rooted hf.called
    (hf.carried ▸ List.mem_singleton_self old)
  have hbody := Apart.of_mem hf.valid hm hf.before.left_mem hf.pointwise
    (hf.mapped ▸ List.mem_singleton_self body)
  rw [ends_bind, know, ends_modify]
  refine (ends_fuse_apart (w := { w₁ with region := w₁.region.know pw value }) .plain hf.valid hold
    ⟨hgrowing₁.module, hgrowing₁.grown, hgrowing₁.fed⟩ hadds₁ (hknown₁.know hf.before.left_mem)
    hinputs fun i hi => ?_).mono ?_
  · by_cases he : i = pw
    · exact .inr (by rw [he]; exact Building.contains_know ..)
    · exact .inl (hF i (hf.feeds_of_mem (.inr ⟨hi, he⟩)))
  · rintro _ w₂ ⟨hgrowing₂, hadds₂, -, hfused₂⟩
    exact ⟨hgrowing₂, hadds₂, draws_merged hempty hnone hadds
      (fun hmem => (hf.feeds_of_mem (.inl hmem)).2 rfl)
      (fun i hi => hbody.disjoint (hinputs i hi)) hfused hfused₂⟩

/-- **The call takes its new operands**, and the pointwise that it does not read any more goes. -/
theorem ends_call {F : InstrId → Prop} (hext : Extended root p s.program)
    (hunread : Unread F p s.program operands) (hpwF : ¬ F pw) (hnew : p.module? m = none)
    (hm : m ≠ main) (hmany : 2 ≤ (merged pw pwInst.inputs callInst.inputs).length)
    (hsupplied : List.Forall₂ (Supplied p s.program) (merged pw pwInst.inputs callInst.inputs)
      operands) : (do
      Edit.replaceWith root (.offload op) operands [m]
      discard <| Edit.prune [pw]
      Edit.releaseModule old
      return true : Fusing Bool).Ends s fun _ t =>
        Merges p t.program root pw callInst pwInst := by
  have hl := hf.valid.toLinked
  have hpwMem := hf.before.left_mem
  rw [ends_bind, ends_edit]
  intro _ q hok
  obtain ⟨hglued, hq, hr, hcalls⟩ := hext.call hl hf.rooted hf.called
    (by rw [hf.isCall]; rfl) hm hok
  have hr := hr pw pw
  have hnotMem : pw ∉ operands := fun hmem => operand_ne hsupplied hmem
    (by rw [hf.pointwise]; rfl) (fun u hu => (hf.feeds_of_mem_merged hu).2) rfl
  have hsupplied' := supplied_of_rerouted hsupplied hr (by rw [hf.called]; rfl)
    fun u hu => (hf.feeds_of_mem_merged hu).2
  obtain ⟨pwInst', hpw', -⟩ := hq.steady.owned (hq.mem_body hl hpwMem)
  refine Fusing.ends_prune_unread hq.steady (hq.mem_body hl hf.rooted)
    (hr.before (hext.before hf.before)) hpw'
    (hq.isBoundary hf.pointwise (by rw [hf.isPointwise]; rfl) hpw') (fun j huse => ?_)
    fun t ht hgone => ?_
  · -- the call does not read it, and nothing else did
    by_cases hj : j = root
    · exact hnotMem (hglued.reads (hj ▸ huse))
    · exact hj (hf.only j (hunread.users j pw hpwMem hpwF (hglued.others hj huse)))
  refine Fusing.ends_release_sparing ht.steady
    (ht.mem_body hq.steady.toLinked (hq.mem_body hl hf.rooted)) fun u hu => ?_
  rw [ends_pure]
  have hs := ht.trans hu
  obtain ⟨inst, hinst, hop, hinputs, hmodules⟩ := hcalls
  have hcalls' : u.program.Calls root op operands m :=
    ⟨inst, hs.same.trans hinst, hop, hinputs, hmodules⟩
  obtain ⟨a, b, ha, hb, ho, halike, hperm⟩ :=
    (hext.spliced hl hf.rooted hq hr hs (.inl rfl)).place
  cases hf.called.symm.trans ha
  refine ⟨⟨op, m, operands, hf.isCall, hnew, hcalls', hsupplied.length_eq ▸ hmany,
    supplied_of_sparing hsupplied' hs hcalls'⟩, ⟨b, hb, ho, halike, hperm⟩, ?_⟩
  refine Option.eq_none_iff_forall_ne_some.mpr fun a ha => ?_
  obtain ⟨b, hb, -⟩ := hu.shrunk.left ha
  cases hgone.symm.trans hb

end

/-- **The region takes in the pointwise.** -/
theorem ends_merges (hf : Feeds s.program found.root pw callInst pwInst op old body)
    (hget : found.get "pw" = .ok pw) : (apply found).Ends s fun applied t =>
      applied = true → Merges s.program t.program found.root pw callInst pwInst := by
  have hp := hf.valid
  have hl := hp.toLinked
  have hnone := s.program.module?_nextModule
  rw [apply, ends_bind, Fusing.ends_get]
  intro pw' hget'
  obtain rfl := Except.ok.inj (hget.symm.trans hget')
  rw [ends_theProgram_bind, ends_bind, ends_lift_checked]
  intro callInst' hcall
  obtain rfl := Option.some.inj (hf.called.symm.trans (instr_ok.mp hcall))
  rw [ends_bind, ends_lift_checked]
  intro pwInst' hpw
  obtain rfl := Option.some.inj (hf.pointwise.symm.trans (instr_ok.mp hpw))
  rw [hf.carried, hf.mapped, hf.isCall]
  dsimp only [Op.anchor?]
  split
  · rw [ends_pure]
    intro he
    cases he
  next hmany =>
  rw [mergedInputs_eq, Nat.not_lt] at hmany
  rw [ends_bind, ends_lift_checked]
  intro bodyModule _
  rw [ends_bind, ends_lift_checked]
  intro oldModule _
  rw [ends_bind]
  refine (Fusing.ends_uniqueName _).mono fun name s₁ hs₁ => ?_
  rw [ends_bind, ends_edit]
  intro m q hq
  obtain ⟨-, rfl, rfl⟩ := Edit.createModule_ok.mp hq
  rw [show HoldsProgram.program s₁ = s.program from hs₁, ends_bind]
  refine (Fusing.ends_supplied (m := s.program.nextModule)
    (Q := fun _ feeders _ => feeders = merged pw pwInst.inputs callInst.inputs) hl
    (hl.feeders_besides hf.only) hf.rooted (fun hself => hself.1.ne (hl.nodup main) rfl) ?_).mono ?_
  · have htracing := Standalone.tracing_opened hp hf.rooted name
    have hadds := htracing.filling.toBeside.adds
    have hfeeds := fun i hi => hf.feeds_of_mem (i := i) (.inl hi)
    rw [ends_bind]
    refine (ends_fuse_apart .commonShape hp (.of_mem hp hnone hf.before.left_mem hf.pointwise
        (hf.mapped ▸ List.mem_singleton_self body))
      ⟨rfl, Nesting.opened (hp.steady _) hf.rooted name, fun _ _ hbound => by cases hbound⟩
      hadds (fun i hi => by cases hi) (fun i hi => (hfeeds i hi).1.left_mem)
      fun i hi => .inl (hfeeds i hi)).mono ?_
    rintro produced w₁ ⟨hgrowing₁, hadds₁, hknown₁, hfused₁⟩
    split
    · next value hvalue =>
      refine (ends_fuse_old hf hnone (fun _ => id) htracing.draws rfl hadds hgrowing₁ hadds₁
        hknown₁ hfused₁ value).mono ?_
      rintro _ w ⟨hgrowing, hadds, hdraws⟩
      exact ⟨hgrowing, hadds, _, hdraws, rfl⟩
    · exact ends_refuse (by rintro _ ⟨⟩)
  · rintro operands s₂ ⟨hext, hunread, hnew, hm, _, _, _, rfl, -, hsupplied⟩
    exact (ends_call hf hext hunread (fun hself => hself.2 rfl) hnew hm hmany hsupplied).mono
      fun _ _ hmerges _ => hmerges

/-- The rule declines where the call would take fewer than two operands. -/
theorem declines (hf : Feeds s.program found.root pw callInst pwInst op old body)
    (hget : found.get "pw" = .ok pw)
    (hfew : (merged pw pwInst.inputs callInst.inputs).length < 2) :
    apply found s = .ok false s := by
  have hdeclines : (apply found).Completes s fun applied t => applied = false ∧ t = s := by
    rw [apply, completes_bind]
    refine (completes_lift hget).mpr ?_
    rw [completes_theProgram_bind, completes_bind]
    refine (completes_lift_checked (instr_ok.mpr hf.called)).mpr ?_
    rw [completes_bind]
    refine (completes_lift_checked (instr_ok.mpr hf.pointwise)).mpr ?_
    rw [hf.carried, hf.mapped, hf.isCall]
    dsimp only [Op.anchor?]
    rw [if_pos (by rwa [mergedInputs_eq]), completes_pure]
    exact ⟨rfl, rfl⟩
  obtain ⟨_, _, hok, rfl, rfl⟩ := hdeclines
  exact hok

/-- **A pointwise moves into the call that reads it exactly where two operands are left.** The call
keeps its identifier, its consumers and its type up to strides. Its operands are those of the
pointwise and then its own ones, each at the first of its places, without the pointwise, or
row-major copies of them; there are two of them at least, and the pointwise is gone. Where there
would be fewer, the rule declines and leaves everything as it was. -/
theorem merges_at_match (p : Program) (hv : p.verify = .ok ()) (h : Heuristics) (counter : Nat)
    (root : InstrId) (found : Match) (hroot : root ∈ p.body main)
    (hmatch : Rule.inputFusion.matcher.run p h root = .ok (some found)) :
    ∃ pw callInst pwInst, found.get "pw" = .ok pw ∧ p.instr? root = some callInst ∧
      p.instr? pw = some pwInst ∧
      (∀ t, Rule.inputFusion.apply found ⟨p, counter⟩ = .ok true t →
        Merges p t.program root pw callInst pwInst) ∧
      ((merged pw pwInst.inputs callInst.inputs).length < 2 →
        Rule.inputFusion.apply found ⟨p, counter⟩ = .ok false ⟨p, counter⟩) := by
  have hp := verify_ok.mp hv
  obtain ⟨pw, callInst, pwInst, hc⟩ := exists_captured hmatch
  obtain ⟨-, x, hx, -, -, honly⟩ := match_ok hp.toLinked hmatch
  obtain rfl := Except.ok.inj (hc.operand.symm.trans hx)
  obtain rfl := hc.atRoot
  obtain ⟨op, hop⟩ := hc.anchor
  obtain ⟨old, -, hold, -⟩ := hp.offload hc.call hop
  obtain ⟨body, _, _, -, hmap⟩ := pointwise_of_valid hp hc.instr hc.pointwise fun _ _ => False
  have hf : Feeds p found.root pw callInst pwInst op old body :=
    ⟨hp, hroot, hc.call, hop, hold, hc.instr, hc.pointwise, hmap.modules, hc.uses, honly⟩
  refine ⟨pw, callInst, pwInst, hc.operand, hc.call, hc.instr, fun t hok => ?_,
    declines (s := ⟨p, counter⟩) hf hc.operand⟩
  have hends := ends_merges (s := ⟨p, counter⟩) hf hc.operand
  rw [Ends, show apply found ⟨p, counter⟩ = .ok true t from hok] at hends
  exact hends rfl

/-- A call of a region of a dot on a pointwise of `a` and on `a` again, or on `b`. -/
def prepared (again : Bool) : Program :=
  (do
    let body ← Edit.createModule "f"
    let x ← Edit.addParameter body "x0" ⟨.f32, [2, 2], [2, 1]⟩
    let y ← Edit.addInstruction body (.unary .relu) [x] []
    let _ ← Edit.addReturn body [y]
    let region ← Edit.createModule "r"
    let l ← Edit.addParameter region "y0" ⟨.f32, [2, 2], [2, 1]⟩
    let r ← Edit.addParameter region "y1" ⟨.f32, [2, 2], [2, 1]⟩
    let product ← Edit.addInstruction region (.dot false) [l, r] []
    let _ ← Edit.addReturn region [product]
    let a ← Edit.addParameter main "a" ⟨.f32, [2, 2], [2, 1]⟩
    let b ← Edit.addParameter main "b" ⟨.f32, [2, 2], [2, 1]⟩
    let mapped ← Edit.addInstruction main .pointwise [a] [body]
    let called ← Edit.addInstruction main (.offload (.dot false))
      [mapped, if again then a else b] [region]
    let _ ← Edit.addReturn main [called] : Edit Unit).after .empty

/-- On two operands the pointwise moves into the call, and on one operand the rule declines. -/
theorem merges_at_prepared : (∀ again, (prepared again).verify = .ok () ∧
      Rule.inputFusion.matcher.run (prepared again) .default ⟨10⟩ =
        .ok (some ⟨⟨10⟩, [("pw", ⟨9⟩)]⟩)) ∧
    (∃ t callInst pwInst, Rule.inputFusion.apply ⟨⟨10⟩, [("pw", ⟨9⟩)]⟩ ⟨prepared false, 0⟩ =
      .ok true t ∧ Merges (prepared false) t.program ⟨10⟩ ⟨9⟩ callInst pwInst) ∧
    Rule.inputFusion.apply ⟨⟨10⟩, [("pw", ⟨9⟩)]⟩ ⟨prepared true, 0⟩ =
      .ok false ⟨prepared true, 0⟩ := by
  have hmatches : ∀ again, (prepared again).verify = .ok () ∧
      Rule.inputFusion.matcher.run (prepared again) .default ⟨10⟩ =
        .ok (some ⟨⟨10⟩, [("pw", ⟨9⟩)]⟩) ∧ ⟨10⟩ ∈ (prepared again).body main := by decide +kernel
  have hruns : ∃ applied t, Rule.inputFusion.apply ⟨⟨10⟩, [("pw", ⟨9⟩)]⟩ ⟨prepared false, 0⟩ =
      .ok applied t ∧ applied = true := by decide +kernel
  have hinputs : (∀ inst ∈ (prepared true).instr? ⟨10⟩, inst.inputs = [⟨9⟩, ⟨7⟩]) ∧
      ∀ inst ∈ (prepared true).instr? ⟨9⟩, inst.inputs = [⟨7⟩] := by decide +kernel
  refine ⟨fun again => ⟨(hmatches again).1, (hmatches again).2.1⟩, ?_, ?_⟩
  · obtain ⟨hv, hmatch, hroot⟩ := hmatches false
    obtain ⟨_, t, hok, rfl⟩ := hruns
    obtain ⟨pw, callInst, pwInst, hget, -, -, hmerges, -⟩ :=
      merges_at_match (prepared false) hv .default 0 ⟨10⟩ ⟨⟨10⟩, [("pw", ⟨9⟩)]⟩ hroot hmatch
    obtain rfl : pw = ⟨9⟩ := Except.ok.inj (hget.symm.trans (by decide +kernel))
    exact ⟨t, callInst, pwInst, hok, hmerges t hok⟩
  · obtain ⟨hv, hmatch, hroot⟩ := hmatches true
    obtain ⟨pw, callInst, pwInst, hget, hcall, hpw, -, hdeclines⟩ :=
      merges_at_match (prepared true) hv .default 0 ⟨10⟩ ⟨⟨10⟩, [("pw", ⟨9⟩)]⟩ hroot hmatch
    obtain rfl : pw = ⟨9⟩ := Except.ok.inj (hget.symm.trans (by decide +kernel))
    rw [hinputs.1 callInst hcall, hinputs.2 pwInst hpw] at hdeclines
    exact hdeclines (by decide)

/-! ## Bodies of which too little is replayed -/

/-- A call of a dot on a pointwise whose body gives a constant. -/
def constant : Program :=
  (do
    let body ← Edit.createModule "f"
    let _ ← Edit.addParameter body "x0" ⟨.f32, [1], [1]⟩
    let one ← Edit.addLiteral body ⟨.f32, [1], [1]⟩ (.f32 [⟨0x3f800000⟩])
    let _ ← Edit.addReturn body [one]
    let region ← Edit.createModule "g"
    let l ← Edit.addParameter region "y0" ⟨.f32, [2, 3], [3, 1]⟩
    let r ← Edit.addParameter region "y1" ⟨.f32, [3, 4], [4, 1]⟩
    let product ← Edit.addInstruction region (.dot false) [l, r] []
    let _ ← Edit.addReturn region [product]
    let x ← Edit.addParameter main "x" ⟨.f32, [2, 3], [3, 1]⟩
    let b ← Edit.addParameter main "b" ⟨.f32, [3, 4], [4, 1]⟩
    let mapped ← Edit.addInstruction main .pointwise [x] [body]
    let called ← Edit.addInstruction main (.offload (.dot false)) [mapped, b] [region]
    let _ ← Edit.addReturn main [called] : Edit Unit).after .empty

/-- The constant stands for the pointwise without its dimensions, and the dot refuses it when the
merged region is begun already. -/
theorem stops_at_constant :
    constant.verify = .ok () ∧ constant.Sized ∧ constant.Elementwise ⟨1⟩ ∧
      Rule.inputFusion.matcher.run constant .default ⟨10⟩ = .ok (some ⟨⟨10⟩, [("pw", ⟨9⟩)]⟩) ∧
      ∃ e t, Rule.inputFusion.apply ⟨⟨10⟩, [("pw", ⟨9⟩)]⟩ ⟨constant, 0⟩ = .error (.refused e) t ∧
        constant.moduleIds = [main, ⟨1⟩, ⟨2⟩] ∧ t.program.moduleIds = [main, ⟨1⟩, ⟨2⟩, ⟨3⟩] := by
  decide +kernel

/-- `(a - b) - c` as a pointwise and then a call, both of one module. -/
def repeated : Program :=
  (do
    let minus ← Edit.createModule "f"
    let x ← Edit.addParameter minus "x0" ⟨.f32, [1], [1]⟩
    let y ← Edit.addParameter minus "x1" ⟨.f32, [1], [1]⟩
    let difference ← Edit.addInstruction minus (.binary .sub) [x, y] []
    let _ ← Edit.addReturn minus [difference]
    let a ← Edit.addParameter main "a" ⟨.f32, [1], [1]⟩
    let b ← Edit.addParameter main "b" ⟨.f32, [1], [1]⟩
    let c ← Edit.addParameter main "c" ⟨.f32, [1], [1]⟩
    let mapped ← Edit.addInstruction main .pointwise [a, b] [minus]
    let called ← Edit.addInstruction main (.offload (.dot false)) [mapped, c] [minus]
    let _ ← Edit.addReturn main [called] : Edit Unit).after .empty

/-- Over the integers, differences are what they are, and nothing else is computed. -/
def subtracts : Interpretation Int where
  constant _ _ _ := 0
  scalar op _ xs := match op, xs with
    | .binary .sub, [x, y] => x - y
    | _, _ => 0
  bulk _ _ _ := 0

/-- The region is not replayed after the body, since its instructions have values already: the
program that computed `5 - 3 - 1` computes `5 - 3`. -/
theorem forgets_at_repeated :
    repeated.verify = .ok () ∧ repeated.Acyclic ∧ repeated.Sized ∧ repeated.Elementwise ⟨1⟩ ∧
      ∃ stats q, Pass.run { Config.default with inputFusion := true } repeated = .ok stats q ∧
        q.verify = .ok () ∧
        ((repeated.meaning subtracts main [.scalar .f32 5, .scalar .f32 3, .scalar .f32 1]).map
          fun x => x.entries [0]) = [1] ∧
        ((q.meaning subtracts main [.scalar .f32 5, .scalar .f32 3, .scalar .f32 1]).map
          fun x => x.entries [0]) = [2] := by
  have hacyclic : repeated.Acyclic := acyclic_of_measure (fun m => 1 - m.index) fun {k m} hr => by
    have hall : ∀ entry ∈ repeated.instructions.entries, ∀ k ∈ entry.2.modules,
        1 - k.index < 1 - entry.2.owner.index := by decide +kernel
    obtain ⟨i, inst, hi, rfl, hk⟩ := hr
    exact hall (i.index, inst) (Arena.mem_entries.mpr hi) k hk
  exact ⟨by decide +kernel, hacyclic, by decide +kernel, by decide +kernel, by decide +kernel⟩

end OffloadFusion.InputFusion
