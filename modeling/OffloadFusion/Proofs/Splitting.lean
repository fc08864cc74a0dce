import OffloadFusion.Proofs.Joining

/-!
# Anchors that are shared

The call of an anchor and a pointwise takes the place of the pointwise. Where the anchor or a view
between the two has other consumers, the call gives both values: the pointwise becomes the second
one, and what read the anchor reads the first one.

* `splitCall_rerouted`: the call of both values takes its place.
* `settled`: what is pruned leaves the region and the call.
* **`fuses_at_match`**: the pointwise of a match, its call and its region are known in full, and no
  consumer is lost.
-/

namespace OffloadFusion

open OffloadFusion.Action Program

namespace Program

variable {p : Program} {i : InstrId}

/-- The instruction has a single consumer. -/
def Single (p : Program) (i : InstrId) : Prop :=
  ∃ inst c, p.instr? i = some inst ∧ inst.consumers = [c]

end Program

namespace AnchorPointwise

variable {p q r : Program} {root x anchor new : InstrId} {pw anchorInst : Instruction}
  {nodes operands : List InstrId} {ops : List Op} {m : ModuleId} {multi : Bool} {c : Compound}

namespace Joined

variable (h : Joined p q m anchorInst pw x ops multi c operands)
  (hb : Between p root x anchor pw anchorInst nodes ops)

include h hb

theorem ne_main : m ≠ main := by
  rintro rfl
  obtain ⟨module, hmain, -⟩ := module?_of_mem_body hb.rooted
  rw [h.isNew] at hmain
  cases hmain

theorem upper {i : InstrId} (hi : i ∈ c.threads.map Thread.upper ++ others pw x) :
    Before (p.body main) i root ∧ i ≠ anchor := by
  have hl := hb.valid.toLinked
  obtain hi | hi := List.mem_append.mp hi
  · have hbefore : ∀ j ∈ c.threads.map Thread.operand, Before (p.body main) j anchor :=
      fun j hj => hl.before_of_uses hb.anchor_before.left_mem
        ⟨anchorInst, hb.anchored, h.joins.rises.reads ▸ hj⟩
    have hupper := h.joins.rises.threaded.upper_before hl hbefore i hi
    exact ⟨hupper.trans (hl.nodup main) hb.anchor_before, hupper.ne (hl.nodup main)⟩
  · obtain ⟨hi, hne⟩ := List.mem_filter.mp (List.mem_eraseDups.mp hi)
    refine ⟨hb.before_of_mem hi, ?_⟩
    rintro rfl
    exact hb.apart ⟨i, hi, of_decide_eq_true hne, .refl⟩

theorem root_notMem : root ∉ operands := fun hi => by
  have hl := hb.valid.toLinked
  refine Program.operand_ne h.supplied hi (by rw [hb.pointwise]; rfl) (fun u hu => ?_) rfl
  exact (h.upper hb hu).1.ne (hl.nodup main)

theorem anchor_notMem : anchor ∉ operands := fun hi =>
  Program.operand_ne h.supplied hi (by rw [hb.anchored]; rfl) (fun u hu => (h.upper hb hu).2) rfl

omit hb in
theorem of_sameForm (hq : q.Linked) (hbody : r.body m = q.body m)
    (hform : ∀ j ∈ q.body m, SameForm q r j)
    (hsupplied : List.Forall₂ (Supplied p r) (c.threads.map Thread.upper ++ others pw x)
      operands) : Joined p r m anchorInst pw x ops multi c operands :=
  ⟨h.isNew, h.joins.of_sameForm hq (fun _ hj => hbody ▸ hj)
    (parameters_of_sameForm hq hform hbody) hform,
    (returned_of_sameForm hq hform hbody).trans h.returned, hsupplied⟩

theorem of_rerouted (hext : Extended root p q) (hr : Rerouted root anchor new q r) :
    Joined p r m anchorInst pw x ops multi c operands := by
  have hl := hb.valid.toLinked
  have hq := hext.advance.steady.toLinked
  have hroot : root ∈ q.body main := hext.advance.mem_body hl hb.rooted
  have hanchor : anchor ∈ q.body main := hext.advance.mem_body hl hb.anchor_before.left_mem
  exact h.of_sameForm hq (hr.body (h.ne_main hb))
    (fun j hj => hr.form_of_mem hq hroot hanchor (h.ne_main hb) hj)
    (supplied_of_rerouted h.supplied hr (by rw [hb.pointwise]; rfl) fun u hu => (h.upper hb hu).2)

theorem of_sparing {call : InstrId} (hq : q.Linked) (hs : Sparing root q r)
    (hcall : r.Calls call anchorInst.op operands m) :
    Joined p r m anchorInst pw x ops multi c operands := by
  have hr := hs.steady.toLinked
  obtain ⟨inst, hinst, -, -, hmodules⟩ := id hcall
  obtain ⟨halive, -⟩ := hs.steady.referenced hinst (hmodules ▸ List.mem_singleton_self m)
  have hbody : r.body m = q.body m := hs.body (h.ne_main hb) halive
  refine h.of_sameForm hq hbody (fun j hj => ?_) (supplied_of_sparing h.supplied hs hcall)
  obtain ⟨inst', hj', -⟩ := hr.owned (hbody ▸ hj)
  exact (hs.core hj').form

end Joined

/-! ## The call -/

section

variable {q' : Program} {u : Unit} (hb : Between p root x anchor pw anchorInst nodes ops)
  (hext : Extended root p q) (hj : Joined p q m anchorInst pw x ops multi c operands)

include hb hext hj

/-- **The pointwise becomes the second value of a call, and what read the anchor reads the first
one.** -/
theorem splitCall_rerouted (hok : splitCall root anchor anchorInst.op operands m q = .ok u r) :
    ∃ q' call first, Advance p q' ∧ Rerouted root anchor first q q' ∧ p.instr? call = none ∧
      q'.Calls call anchorInst.op operands m ∧ q'.Node (.tupleElem 1) [call] root ∧
      q'.Node (.tupleElem 0) [call] first ∧ Edit.removeInstruction anchor q' = .ok u r := by
  have hl := hb.valid.toLinked
  have hpwInner : pw.op.isBoundary = false := by rw [hb.isPointwise]; rfl
  have hm : main ∉ [m] := fun hmem => hj.ne_main hb (List.mem_singleton.mp hmem).symm
  simp only [splitCall, Action.bind_ok] at hok
  obtain ⟨call, q₁, h₁, _, q₂, h₂, first, q₃, h₃, _, q₄, h₄, _, q₅, h₅, h₆⟩ := hok
  obtain ⟨a₁, -, _, hcall⟩ := hext.advance.insertBefore hl hb.rooted rfl hm h₁
  have hglued := a₁.replaceWith hl hb.rooted hb.pointwise hpwInner rfl List.not_mem_nil h₂
  have a₂ := a₁.trans hglued.toAdvance
  obtain ⟨a₃, hfirst, _, hins⟩ := a₂.insertBefore hl hb.rooted rfl List.not_mem_nil h₃
  have hl₃ := a₃.steady.toLinked
  have hroot := a₃.mem_body hl hb.rooted
  have hanchor := a₃.mem_body hl hb.anchor_before.left_mem
  have hmoved := a₃.steady.advance_relocateDependents hanchor hroot
    (fun hi => a₃.isBoundary hb.anchored hb.isAnchor.isBoundary hi) h₄
  have hfirst' := hmoved.mem_body hl₃ hfirst
  obtain ⟨-, hrewired, hswaps⟩ := hmoved.steady.replaceInstruction hfirst' h₅
  have a₅ := (a₃.trans hmoved).trans (hmoved.steady.advance_replaceInstruction hfirst' h₅)
  have hcallNe : ∀ {i}, i ∈ p.body main → i ≠ call := fun hi =>
    hcall.ne_of_mem hext.advance.steady.toLinked (hext.advance.mem_body hl hi)
  have hfirstNe : root ≠ first := hins.ne_of_mem a₂.steady.toLinked (a₂.mem_body hl hb.rooted)
  have hanchorCall : anchor ∉ [call] := fun hmem =>
    hcallNe hb.anchor_before.left_mem (List.mem_singleton.mp hmem)
  have hne : root ≠ anchor := (hb.anchor_before.ne (hl.nodup main)).symm
  -- the root is rebuilt in one step, so other instructions are followed on both sides of that
  obtain ⟨rootInst, hrootInst, -⟩ := a₁.steady.owned (a₁.mem_body hl hb.rooted)
  have r₁ : Rerouted root anchor first q q₁ := .inserted hcall (hj.root_notMem hb)
  have r₂ : Rerouted root anchor first q₁ q₂ :=
    .rebuilt hglued.rebuilt a₁.steady.toLinked a₂.steady.toLinked hrootInst
  have r₃ : Rerouted root anchor first q₂ q₃ := .inserted hins fun hmem =>
    hcallNe hb.rooted (List.mem_singleton.mp hmem)
  have r₅ : Rerouted root anchor first q₃ q₅ :=
    (Rerouted.reordered hl₃ hanchor hroot h₄).trans (.rewired hrewired hswaps hne hfirstNe)
  refine ⟨q₅, call, first, a₅, r₁.trans (r₂.trans (r₃.trans r₅)), ?_, ?_, ?_, ?_, h₆⟩
  · refine Option.eq_none_iff_forall_ne_some.mpr fun a ha => ?_
    obtain ⟨b, hb, -⟩ := (hext.core ha).symm.exists_instr ha
    rw [hcall.gone] at hb
    cases hb
  · obtain ⟨type, -, hnew⟩ := hcall.new
    have hreads := ((r₂.trans (r₃.trans r₅)).kept (hcallNe hb.rooted).symm).form hnew
      (hj.anchor_notMem hb)
    exact Calls.of_sameForm hreads ⟨_, hnew, rfl, rfl, rfl⟩
  · obtain ⟨inst, hinst, hop, hinputs, hmodules, -⟩ := hglued.rebuilt.self hrootInst
    have hreads : Rereads anchor first q₂ q₅ root :=
      (Rereads.of_form (hins.old hfirstNe).form).trans
        ((Rereads.of_relocated hl₃ hanchor hroot h₄).trans (.of_rewired hrewired hswaps))
    exact hreads.node ⟨inst, hinst, hop, hinputs, hmodules⟩ hanchorCall
  · obtain ⟨type, -, hnew⟩ := hins.new
    exact (r₅.kept hfirstNe.symm).node ⟨_, hnew, rfl, rfl, rfl⟩ hanchorCall

end

/-! ## What is pruned -/

/-- The call in `q` of the region of an anchor and a pointwise of `p`. It stands in the place of the
pointwise, or else its second value does, and its first one is read in the place of the anchor. -/
inductive Placed (p q : Program) (root anchor : InstrId) (op : Op) (operands : List InstrId)
    (m : ModuleId) : (multi : Bool) → (new : InstrId) → Prop
  | alone (calls : q.Calls root op operands m) : Placed p q root anchor op operands m false anchor
  | split {call new : InstrId} (isNew : p.instr? call = none)
    (calls : q.Calls call op operands m) (second : q.Node (.tupleElem 1) [call] root)
    (first : ∀ j, q.Uses j new → q.Node (.tupleElem 0) [call] new)
    (gone : q.instr? anchor = none) : Placed p q root anchor op operands m true new

section

variable {q' : Program} {u : Unit} (hb : Between p root x anchor pw anchorInst nodes ops)
  (hext : Extended root p q) (hq' : Advance p q') (hr : Rerouted root anchor new q q')

include hb hext hq' hr

/-- **What is left when the call is placed.** -/
theorem settled (hj : Joined p q m anchorInst pw x ops multi c operands) (hs : Sparing root q' r)
    (hplaced : Placed p r root anchor anchorInst.op operands m multi new) :
    Joined p r m anchorInst pw x ops multi c operands ∧ Spliced root anchor new p r := by
  have hl := hb.valid.toLinked
  have hj' := hj.of_rerouted hb hext hr
  have hspliced := hext.spliced hl hb.rooted hq' hr hs
  cases hplaced with
  | alone calls => exact ⟨hj'.of_sparing hb hq'.steady.toLinked hs calls, hspliced (.inl rfl)⟩
  | split _ calls _ _ gone =>
    exact ⟨hj'.of_sparing hb hq'.steady.toLinked hs calls, hspliced (.inr gone)⟩

/-- The anchor is removed, and what else stood before the root still does. -/
theorem sparing_removeInstruction (hok : Edit.removeInstruction anchor q' = .ok u r) :
    Sparing root q' r ∧ r.instr? anchor = none ∧
      ∀ i, Before (p.body main) i root → i ≠ anchor → Before (r.body main) i root := by
  have hl := hb.valid.toLinked
  have hl' := hq'.steady.toLinked
  have hne := hb.anchor_before.ne (hl.nodup main)
  obtain ⟨a, ha, hcore⟩ := (hext.core hb.anchored).symm.exists_instr hb.anchored
  obtain ⟨b, hb', hop, -, ho, -⟩ := hr.kept hne a ha
  obtain ⟨hop', -, -, -, ho'⟩ := Instruction.core_eq_iff.mp hcore
  have hanchor : b.op.IsAnchor := (hop.trans hop'.symm) ▸ hb.isAnchor
  have howner : b.owner = main :=
    hl'.owner_unique hb' (hq'.mem_body hl hb.anchor_before.left_mem)
  refine ⟨.removeInstruction hq'.steady hb' howner hne (fun hmem => ?_) hanchor.isParam
    hanchor.isReturn hok, ?_, fun i hi hanchorNe => ?_⟩
  · -- the anchor stands before the root
    have huse : p.Uses anchor root := hext.users.mp (hr.users.mp ⟨b, hb', hmem⟩)
    exact hb.anchor_before.asymm (hl.nodup main)
      (hl.before_of_uses hb.anchor_before.left_mem huse)
  · obtain ⟨_, k, n, hi, -, -, rfl⟩ := Edit.removeInstruction_ok.mp hok
    rw [instr?_removed hi, if_pos rfl]
  · obtain ⟨_, k, n, hi', -, hloc, rfl⟩ := Edit.removeInstruction_ok.mp hok
    rw [body_removed hl' hi' hloc]
    exact (hr.before (hext.before hi)).filter (decide_eq_true hanchorNe) (decide_eq_true hne.symm)

end

/-! ## The rule -/

theorem anyShared_ok {is : List InstrId} (hl : p.Linked) (hused : ∀ i ∈ is, ∃ j, p.Uses j i)
    (hok : anyShared p is = .ok multi) : multi = false ↔ ∀ i ∈ is, p.Single i := by
  induction is with
  | nil =>
    cases hok
    exact iff_of_true rfl fun i hi => absurd hi List.not_mem_nil
  | cons i is ih =>
    obtain ⟨⟨j, hj⟩, hrest⟩ := List.forall_mem_cons.mp hused
    rw [anyShared, Outcome.bind_ok] at hok
    obtain ⟨inst, hi, hok⟩ := hok
    rw [instr_ok] at hi
    have hmem : j ∈ inst.consumers := (hl.mirrored hi).mpr hj
    rw [List.forall_mem_cons]
    split at hok
    · next hmany =>
      cases hok
      refine iff_of_false Bool.false_ne_true.symm ?_
      rintro ⟨⟨inst', c, hi', hc⟩, -⟩
      cases hi.symm.trans hi'
      rw [hc] at hmany
      exact Nat.lt_irrefl 1 hmany
    · next hone =>
      have hsingle : p.Single i := by
        obtain ⟨c, hc⟩ := List.length_eq_one_iff.mp
          (Nat.le_antisymm (Nat.le_of_not_lt hone) (List.length_pos_of_mem hmem))
        exact ⟨inst, c, hi, hc⟩
      rw [ih hrest hok, and_iff_right hsingle]

/-- What the rule makes of the program `p`. -/
def Fuses (p q : Program) (root x anchor : InstrId) : Prop :=
  ∃ pw anchorInst nodes ops m c operands multi new,
    Between p root x anchor pw anchorInst nodes ops ∧
    (multi = false ↔ ∀ i ∈ anchor :: nodes, p.Single i) ∧
    Joined p q m anchorInst pw x ops multi c operands ∧
    Placed p q root anchor anchorInst.op operands m multi new ∧ Spliced root anchor new p q

section

variable {s : Session} {body : ModuleId}

variable (hb : Between p root x anchor pw anchorInst nodes ops)
  (hext : Extended root p s.program)

include hb hext

/-- **The pointwise becomes the call**, and the views that only it read are pruned. -/
theorem ends_alone (hj : Joined p s.program m anchorInst pw x ops false c operands) :
    (do
      Edit.replaceWith root (.offload anchorInst.op) operands [m]
      discard <| Edit.prune [x]
      Edit.releaseModule body
      return true : Fusing Bool).Ends s fun _ t => ∃ new,
        Joined p t.program m anchorInst pw x ops false c operands ∧
          Placed p t.program root anchor anchorInst.op operands m false new ∧
          Spliced root anchor new p t.program := by
  rw [ends_bind, ends_edit]
  intro _ q hok
  obtain ⟨-, hq, hr, inst, hinst, hcalls⟩ := hext.call hb.valid.toLinked hb.rooted hb.pointwise
    (by rw [hb.isPointwise]; rfl) (hj.ne_main hb) hok
  have hr := hr anchor anchor
  have hmem := hq.mem_body hb.valid.toLinked hb.rooted
  refine Ends.mono (Fusing.ends_sparing hq.steady hmem fun i hi => ?_) fun _ t hs => ?_
  · exact List.mem_singleton.mp hi ▸ hr.before (hext.before (hb.before_of_mem hb.reads))
  · have hplaced : Placed p t.program root anchor anchorInst.op operands m false anchor :=
      .alone ⟨inst, hs.same.trans hinst, hcalls⟩
    obtain ⟨hjoined, hspliced⟩ := settled hb hext hq hr hj hs hplaced
    exact ⟨anchor, hjoined, hplaced, hspliced⟩

/-- **The pointwise and what read the anchor read a call**, and what else they read is pruned where
nothing reads it any more. -/
theorem ends_split (hj : Joined p s.program m anchorInst pw x ops true c operands) :
    (do
      splitCall root anchor anchorInst.op operands m
      discard <| Edit.prune (nodes ++ anchorInst.inputs)
      Edit.releaseModule body
      return true : Fusing Bool).Ends s fun _ t => ∃ new,
        Joined p t.program m anchorInst pw x ops true c operands ∧
          Placed p t.program root anchor anchorInst.op operands m true new ∧
          Spliced root anchor new p t.program := by
  have hl := hb.valid.toLinked
  rw [ends_bind, ends_edit]
  intro _ q hok
  obtain ⟨q', call, first, hq', hr, hnew, hcalls, hsecond, hfirst, hremove⟩ :=
    splitCall_rerouted hb hext hj hok
  obtain ⟨hremoved, hgone, hbefore⟩ := sparing_removeInstruction hb hext hq' hr hremove
  have hroot := hremoved.mem_body hq'.steady.toLinked (hq'.mem_body hl hb.rooted)
  refine Ends.mono (Fusing.ends_sparing hremoved.steady hroot fun i hi => ?_) fun _ t hpruned => ?_
  · obtain hi | hi := List.mem_append.mp hi
    · exact hbefore i (hb.node hi).1 (hb.node hi).2
    · have hi := hl.before_of_uses hb.anchor_before.left_mem ⟨anchorInst, hb.anchored, hi⟩
      exact hbefore i (hi.trans (hl.nodup main) hb.anchor_before) (hi.ne (hl.nodup main))
  · have hs : Sparing root q' t.program := hremoved.trans hpruned
    have halive : ∀ {i inst}, t.program.instr? i = some inst → SameForm q' t.program i :=
      fun hi => (hs.core hi).form
    obtain ⟨inst, hinst, hop, hinputs, hmodules⟩ := hsecond
    have hpw : t.program.instr? root = some inst := hs.same.trans hinst
    have hgone' : t.program.instr? anchor = none := by
      refine Option.eq_none_iff_forall_ne_some.mpr fun a ha => ?_
      obtain ⟨b, hbefore, -⟩ := hpruned.shrunk.left ha
      cases hgone.symm.trans hbefore
    have hplaced : Placed p t.program root anchor anchorInst.op operands m true first := by
      obtain ⟨callInst, hcall, -⟩ := hs.steady.toLinked.operand hpw
        (hinputs ▸ List.mem_singleton_self call)
      refine .split hnew (hcalls.of_sameForm (halive hcall)) ⟨inst, hpw, hop, hinputs, hmodules⟩
        (fun j hread => ?_) hgone'
      obtain ⟨b, hj, hmem⟩ := hread
      obtain ⟨a, ha, -⟩ := hs.steady.toLinked.operand hj hmem
      exact hfirst.of_sameForm (halive ha)
    obtain ⟨hjoined, hspliced⟩ := settled hb hext hq' hr hj hs hplaced
    exact ⟨first, hjoined, hplaced, hspliced⟩

end

variable {h : Heuristics} {s : Session} {found : Match}

theorem ends_fuses (hp : s.program.Valid) (hroot : root ∈ s.program.body main)
    (hc : Captured s.program h root found x anchor) :
    (apply found).Ends s fun applied t =>
      applied = true → Fuses s.program t.program root x anchor := by
  obtain rfl := hc.atRoot
  have hl := hp.toLinked
  obtain ⟨pw, hpw, hop⟩ := hc.pointwise
  obtain ⟨anchorInst, hanchor, hanchorOp⟩ := hc.isAnchor
  rw [apply, ends_bind, Fusing.ends_get]
  intro anchor' hget
  obtain rfl := Except.ok.inj (hget.symm.trans hc.source)
  rw [ends_bind, Fusing.ends_get]
  intro x' hget'
  obtain rfl := Except.ok.inj (hget'.symm.trans hc.operand)
  rw [ends_theProgram_bind, ends_bind, ends_lift_checked]
  intro pw' hpw'
  obtain rfl := Option.some.inj (hpw.symm.trans (instr_ok.mp hpw'))
  split
  · rw [ends_pure]
    intro he
    cases he
  next hfar =>
  split
  · next body hmodules =>
    rw [ends_bind, ends_lift_checked]
    intro chain hwalk
    obtain rfl := upper_eq_of_skipFrom hp hc.walk hwalk
    rw [ends_bind, ends_lift_checked]
    intro anchorInst' hanchor'
    obtain rfl := Option.some.inj (hanchor.symm.trans (instr_ok.mp hanchor'))
    have hb : Between s.program found.root x' chain.upper pw anchorInst chain.nodes chain.ops := by
      obtain ⟨_, hi, hx⟩ := hc.uses
      cases hpw.symm.trans hi
      exact ⟨hp, hroot, hpw, hop, hx, hanchor, hanchorOp, (ReshapeChain.walked_of_walk hp
        (fun _ _ => rfl) (hl.mem_body_of_uses hroot hc.uses) hwalk).lane,
        fun hentangled => hfar (entangled_iff.mpr hentangled)⟩
    rw [ends_bind, ends_lift_checked]
    intro multi hmulti
    have hshared := anyShared_ok hl (hb.lane.used ⟨_, hc.uses⟩) hmulti
    rw [ends_bind, ends_lift_graph]
    intro t ht
    obtain ⟨_, hi, htype⟩ := tensorOf_ok.mp ht
    cases hpw.symm.trans hi
    rw [ends_bind, ends_lift_checked]
    intro module _
    rw [ends_bind]
    refine (Fusing.ends_uniqueName _).mono fun name s₁ hs₁ => ?_
    rw [ends_bind, ends_edit]
    intro m q hq
    obtain ⟨-, rfl, rfl⟩ := Edit.createModule_ok.mp hq
    rw [show HoldsProgram.program s₁ = s.program from hs₁, ends_bind]
    refine (ends_complete hb (Standalone.tracing_opened hp hroot name)
      ⟨rfl, Nesting.opened (hp.steady _) hroot name, fun _ _ hbound => by cases hbound⟩ hmodules
      htype multi).mono ?_
    rintro operands s₂ ⟨hext, c, hj⟩
    cases multi with
    | true =>
      rw [if_pos rfl]
      refine (ends_split hb hext hj).mono ?_
      rintro _ t ⟨new, hrest⟩ -
      exact ⟨_, _, _, _, _, _, _, _, _, hb, hshared, hrest⟩
    | false =>
      refine (ends_alone hb hext hj).mono ?_
      rintro _ t ⟨new, hrest⟩ -
      exact ⟨_, _, _, _, _, _, _, _, _, hb, hshared, hrest⟩
  · rw [ends_pure]
    intro he
    cases he

/-- **An anchor is fused with the pointwise below it without losing a consumer.** The pointwise
keeps its identifier, its consumers, its element type and its dimensions. It is the call itself
where the anchor and the views between have no other consumers. Otherwise it is the second value of
a new call; the anchor is gone, and the first value stands in its place for all other
instructions. What else is gone was read only by the pointwise and by what is gone. -/
theorem fuses_at_match (p : Program) (hv : p.verify = .ok ()) (convMode dotMode : Mode)
    (h : Heuristics) (counter : Nat) (root : InstrId) (found : Match) (t : Session)
    (hroot : root ∈ p.body main)
    (hmatch : (Rule.anchorPointwise convMode dotMode).matcher.run p h root = .ok (some found))
    (hok : (Rule.anchorPointwise convMode dotMode).apply found ⟨p, counter⟩ = .ok true t) :
    ∃ x anchor, found.get "x" = .ok x ∧ found.get "anchor" = .ok anchor ∧
      Fuses p t.program root x anchor := by
  obtain ⟨x, anchor, hc⟩ := exists_captured hmatch
  have hends := ends_fuses (s := ⟨p, counter⟩) (verify_ok.mp hv) hroot hc
  have hok : apply found ⟨p, counter⟩ = .ok true t := hok
  rw [Ends, hok] at hends
  exact ⟨x, anchor, hc.operand, hc.source, hends rfl⟩

/-- A dot that is returned beside the pointwise on it. -/
def forked : Program :=
  (do
    let body ← Edit.createModule "f"
    let x ← Edit.addParameter body "x0" ⟨.f32, [2, 2], [2, 1]⟩
    let y ← Edit.addInstruction body (.unary .relu) [x] []
    let _ ← Edit.addReturn body [y]
    let a ← Edit.addParameter main "a" ⟨.f32, [2, 2], [2, 1]⟩
    let b ← Edit.addParameter main "b" ⟨.f32, [2, 2], [2, 1]⟩
    let product ← Edit.addInstruction main (.dot false) [a, b] []
    let mapped ← Edit.addInstruction main .pointwise [product] [body]
    let _ ← Edit.addReturn main [product, mapped] : Edit Unit).after .empty

/-- The dot and the pointwise are fused to one call of both values, and the dot is gone. -/
theorem fuses_at_forked : forked.verify = .ok () ∧
    (Rule.anchorPointwise .fast .fast).matcher.run forked .default ⟨6⟩ =
      .ok (some ⟨⟨6⟩, [("anchor", ⟨5⟩), ("x", ⟨5⟩)]⟩) ∧
    ∃ t, (Rule.anchorPointwise .fast .fast).apply ⟨⟨6⟩, [("anchor", ⟨5⟩), ("x", ⟨5⟩)]⟩
      ⟨forked, 0⟩ = .ok true t ∧ t.program.instr? ⟨5⟩ = none ∧
      Fuses forked t.program ⟨6⟩ ⟨5⟩ ⟨5⟩ := by
  have hv : forked.verify = .ok () := by decide +kernel
  have hmatch : (Rule.anchorPointwise .fast .fast).matcher.run forked .default ⟨6⟩ =
      .ok (some ⟨⟨6⟩, [("anchor", ⟨5⟩), ("x", ⟨5⟩)]⟩) := by decide +kernel
  have hruns : ∃ applied t, (Rule.anchorPointwise .fast .fast).apply
      ⟨⟨6⟩, [("anchor", ⟨5⟩), ("x", ⟨5⟩)]⟩ ⟨forked, 0⟩ = .ok applied t ∧ applied = true ∧
        t.program.instr? ⟨5⟩ = none := by
    decide +kernel
  obtain ⟨_, t, hok, rfl, hgone⟩ := hruns
  obtain ⟨x, anchor, hx, hanchor, hfuses⟩ := fuses_at_match forked hv .fast .fast .default 0 ⟨6⟩
    ⟨⟨6⟩, [("anchor", ⟨5⟩), ("x", ⟨5⟩)]⟩ t (by decide +kernel) hmatch hok
  obtain rfl : x = ⟨5⟩ := Except.ok.inj (hx.symm.trans (by decide +kernel))
  obtain rfl : anchor = ⟨5⟩ := Except.ok.inj (hanchor.symm.trans (by decide +kernel))
  exact ⟨hv, hmatch, t, hok, hgone, hfuses⟩

/-- The pointwise itself has to be excepted. A view that only it read is gone though it is still
there, and where it read the anchor it does not read the first value of the call. -/
theorem root_is_excepted : (turned true).verify = .ok () ∧
    (Rule.anchorPointwise .fast .fast).matcher.run (turned true) .default ⟨12⟩ =
      .ok (some ⟨⟨12⟩, [("anchor", ⟨10⟩), ("x", ⟨11⟩)]⟩) ∧
    ⟨11⟩ ∈ (turned true).body main ∧ (turned true).Uses ⟨12⟩ ⟨11⟩ ∧
    (∃ t, (Rule.anchorPointwise .fast .fast).apply ⟨⟨12⟩, [("anchor", ⟨10⟩), ("x", ⟨11⟩)]⟩
      ⟨turned true, 0⟩ = .ok true t ∧ t.program.instr? ⟨11⟩ = none ∧
      (t.program.instr? ⟨12⟩).isSome) ∧
    forked.Uses ⟨6⟩ ⟨5⟩ ∧
    ∃ t, (Rule.anchorPointwise .fast .fast).apply ⟨⟨6⟩, [("anchor", ⟨5⟩), ("x", ⟨5⟩)]⟩
      ⟨forked, 0⟩ = .ok true t ∧ ∃ inst ∈ t.program.instr? ⟨6⟩,
        ∀ i ∈ inst.inputs, t.program.hasOp Op.isTupleElem i = false := by
  have hturned : ∃ applied t, (Rule.anchorPointwise .fast .fast).apply
      ⟨⟨12⟩, [("anchor", ⟨10⟩), ("x", ⟨11⟩)]⟩ ⟨turned true, 0⟩ = .ok applied t ∧ applied = true ∧
        t.program.instr? ⟨11⟩ = none ∧ (t.program.instr? ⟨12⟩).isSome = true := by
    decide +kernel
  have hforked : ∃ applied t, (Rule.anchorPointwise .fast .fast).apply
      ⟨⟨6⟩, [("anchor", ⟨5⟩), ("x", ⟨5⟩)]⟩ ⟨forked, 0⟩ = .ok applied t ∧ applied = true ∧
        ∃ inst ∈ t.program.instr? ⟨6⟩,
          ∀ i ∈ inst.inputs, t.program.hasOp Op.isTupleElem i = false := by
    decide +kernel
  have hview : ∃ inst ∈ (turned true).instr? ⟨12⟩, ⟨11⟩ ∈ inst.inputs := by decide +kernel
  have hanchor : ∃ inst ∈ forked.instr? ⟨6⟩, ⟨5⟩ ∈ inst.inputs := by decide +kernel
  obtain ⟨_, t, hok, rfl, hgone, halive⟩ := hturned
  obtain ⟨_, u, hok', rfl, helements⟩ := hforked
  exact ⟨by decide +kernel, by decide +kernel, by decide +kernel, hview, ⟨t, hok, hgone, halive⟩,
    hanchor, u, hok', helements⟩

end AnchorPointwise

end OffloadFusion
