import OffloadFusion.Proofs.Anchoring
import OffloadFusion.Proofs.Threading

/-!
# Anchors are wrapped on their own

A dot or a convolution becomes a call of a region that holds it with the chains above its operands.

* `Supplied`: the tensors above the chains, or row-major copies where a call does not take them.
* `Sparing`: what is pruned before a call leaves the call and its region to the letter.
* `ends_complete`, `completes_complete`: the region is what it is to be, and can be called.
* **`wraps`**: at every match the rule applies, and the call and its region are known in full.
-/

namespace OffloadFusion

open OffloadFusion.Action Program

variable {p q r : Program} {root i x upper : InstrId} {m : ModuleId} {op : Op} {fuel : Nat}
  {inst : Instruction} {inputs : List InstrId} {threads : List Thread} {s : Session}

/-! ## The operands of a call -/

/-- The operand of a call in the place of `upper`: that tensor itself if it is packed or
broadcasted, and else a new row-major copy of it. -/
def Supplied (p q : Program) (upper x : InstrId) : Prop :=
  ∃ t, p.HasType upper (.tensor t) ∧
    (((t.isPacked = .ok true ∨ t.isBroadcasted = true) ∧ x = upper) ∨
      (t.isPacked = .ok false ∧ t.isBroadcasted = false ∧ p.instr? x = none ∧
        q.Node (.reindex .contiguous) [upper] x))

/-- Where the copy stays, it still supplies the operand. -/
theorem Supplied.of_copy (h : Supplied p q upper x)
    (hcopy : p.instr? x = none → q.Node (.reindex .contiguous) [upper] x →
      r.Node (.reindex .contiguous) [upper] x) : Supplied p r upper x := by
  obtain ⟨t, ht, htaken | ⟨hpacked, hbroadcasted, hnew, hnode⟩⟩ := h
  · exact ⟨t, ht, .inl htaken⟩
  · exact ⟨t, ht, .inr ⟨hpacked, hbroadcasted, hnew, hcopy hnew hnode⟩⟩

theorem Supplied.of_form (h : Supplied p q upper x)
    (hform : ∀ inst, q.instr? x = some inst → SameForm q r x) : Supplied p r upper x := by
  refine h.of_copy fun _ hnode => ?_
  have ⟨inst, hx, _⟩ := hnode
  exact hnode.of_sameForm (hform inst hx)

theorem supplied_of_sameForm {uppers xs : List InstrId}
    (h : List.Forall₂ (Supplied p q) uppers xs) (hform : ∀ x ∈ xs, SameForm q r x) :
    List.Forall₂ (Supplied p r) uppers xs :=
  (forall₂_imp_of_mem h.flip fun x hx _ hupper =>
    Supplied.of_form hupper fun _ _ => hform x hx).flip

theorem Edit.supplied_of_copy {t : TensorType} (h : q.Steady (some main)) (hi : i ∈ q.body main)
    (ht : p.HasType i (.tensor t)) (haccepts : Op.acceptsLayout t = .ok false)
    (hold : ∀ j, q.instr? j = none → p.instr? j = none)
    (hok : insertAfter i (.reindex .contiguous) [i] [] q = .ok x r) :
    Padded q r ∧ Supplied p r i x ∧
      ∀ j inst, j ≠ i → q.instr? j = some inst → r.instr? j = some inst := by
  obtain ⟨n, hend, hins⟩ := h.toLinked.insertAt_of_insertAfter hi rfl hok
  have hnew := inserted_of_ok h.toLinked hins
  obtain ⟨_, hpacked, haccepts⟩ := Op.acceptsLayout_ok.mp haccepts
  obtain ⟨rfl, hbroadcasted⟩ := Bool.or_eq_false_iff.mp haccepts
  obtain ⟨type, -, hcopied⟩ := hnew.new
  exact ⟨.of_insertAt h hend rfl List.not_mem_nil hins,
    ⟨t, ht, .inr ⟨hpacked, hbroadcasted, hold _ hnew.gone, _, hcopied, rfl, rfl, rfl⟩⟩,
    fun j inst hj hinst =>
      instr?_insertAt h.toLinked hins hinst fun hmem => hj (List.mem_singleton.mp hmem)⟩

/-- **The tensors above are the operands, or copies of them.** What else there is stays to the
letter. -/
theorem Edit.supplied_of_contiguousFrom {copies : Renaming} {result : List InstrId}
    (h : q.Steady (some main)) (hin : ∀ i ∈ inputs, i ∈ q.body main)
    (hback : ∀ i ∈ inputs, ∀ type, q.HasType i type → p.HasType i type)
    (hold : ∀ j, q.instr? j = none → p.instr? j = none)
    (hcopies : ∀ i c, copies.image? i = some c → Supplied p q i c)
    (hok : contiguousFrom inputs copies q = .ok result r) :
    Padded q r ∧ List.Forall₂ (Supplied p r) inputs result ∧
      ∀ j inst, j ∉ inputs → q.instr? j = some inst → r.instr? j = some inst := by
  induction inputs generalizing q copies result with
  | nil =>
    cases hok
    exact ⟨.refl h, .nil, fun _ _ _ => id⟩
  | cons input inputs ih =>
    obtain ⟨hmem, hrest⟩ := List.forall_mem_cons.mp hin
    obtain ⟨hbackInput, hbackRest⟩ := List.forall_mem_cons.mp hback
    have hlater : ∀ {j}, j ∉ input :: inputs → j ≠ input ∧ j ∉ inputs := fun hj =>
      not_or.mp (mt List.mem_cons.mpr hj)
    obtain ⟨copy, rest, rfl, ⟨hcopy, hok'⟩ |
      ⟨t, ht, ⟨haccepts, rfl, hok'⟩ | ⟨haccepts, q₁, hins, hok'⟩⟩⟩ := contiguousFrom_cons hok
    · obtain ⟨hpadded, hresult, hsame⟩ := ih h hrest hbackRest hold hcopies hok'
      have hinput := (hcopies input copy hcopy).of_form fun _ hc => (hpadded.core hc).form
      exact ⟨hpadded, .cons hinput hresult, fun j inst hj => hsame j inst (hlater hj).2⟩
    · obtain ⟨hpadded, hresult, hsame⟩ := ih h hrest hbackRest hold hcopies hok'
      have htaken := Op.acceptsLayout_iff.mp haccepts
      exact ⟨hpadded, .cons ⟨t, hbackInput _ ht, .inl ⟨htaken, rfl⟩⟩ hresult,
        fun j inst hj => hsame j inst (hlater hj).2⟩
    obtain ⟨hstep, hsupplied, hkept⟩ := supplied_of_copy h hmem (hbackInput _ ht) haccepts hold hins
    have hback' : ∀ i ∈ inputs, ∀ type, q₁.HasType i type → p.HasType i type := by
      intro i hi type ht
      obtain ⟨inst, hinst, -⟩ := h.toLinked.owned (hrest i hi)
      exact hbackRest i hi type ((hstep.core hinst).symm.hasType ht)
    obtain ⟨hpadded, hresult, hsame⟩ := ih hstep.steady
      (fun i hi => hstep.mem_body h.toLinked (hrest i hi)) hback'
      (fun j hj => hold j (hstep.gone hj))
      (Renaming.related_insert hsupplied fun i c hi => (hcopies i c hi).of_form fun _ hc =>
        (hstep.core hc).form)
      hok'
    have hinput := hsupplied.of_form fun _ hc => (hpadded.core hc).form
    exact ⟨hstep.trans hpadded, .cons hinput hresult, fun j inst hj hinst =>
      hsame j inst (hlater hj).2 (hkept j inst (hlater hj).1 hinst)⟩

/-! ## What is pruned -/

namespace Program

/-- Instructions before the root were removed from the main module, and other modules as a whole. -/
structure Sparing (root : InstrId) (p q : Program) : Prop extends Trim (some main) p q where
  same : q.instr? root = p.instr? root
  body : ∀ {k}, k ≠ main → (q.module? k).isSome → q.body k = p.body k

namespace Sparing

theorem refl (h : p.Steady (some main)) : Sparing root p p := ⟨.refl h, rfl, fun _ _ => rfl⟩

theorem trans (h : Sparing root p q) (h' : Sparing root q r) : Sparing root p r := by
  refine ⟨h.toTrim.trans h'.toTrim, h'.same.trans h.same, fun hk halive => ?_⟩
  exact (h'.body hk halive).trans (h.body hk (h'.shrunk.inner hk halive).1)

theorem core (h : Sparing root p q) (hi : q.instr? i = some inst) : SameCore p q i := by
  obtain ⟨inst', hi', hc⟩ := h.shrunk.left hi
  rw [SameCore, hi, hi', Option.map_some, Option.map_some, hc]

theorem removeInstruction {u : Unit} (h : p.Steady (some main)) (hi : p.instr? i = some inst)
    (ho : inst.owner = main) (hne : i ≠ root) (hnot : root ∉ inst.inputs)
    (hparam : inst.op.isParam = false) (hret : inst.op.isReturn = false)
    (hok : Edit.removeInstruction i p = .ok u q) : Sparing root p q := by
  have hl := h.toLinked
  refine ⟨h.trim_removeInstruction hi ho hparam hret hok, ?_, fun {k} hk _ => ?_⟩
  · obtain ⟨_, m, n, -, -, -, rfl⟩ := Edit.removeInstruction_ok.mp hok
    rw [instr?_removed hi, if_neg hne]
    simp [hnot]
  · obtain ⟨_, m, n, -, -, hloc, rfl⟩ := Edit.removeInstruction_ok.mp hok
    rw [body_removed hl hi hloc, List.filter_eq_self]
    exact fun j hj => decide_eq_true fun he =>
      hk ((hl.owner_unique hi (he ▸ hj)).symm.trans ho)

theorem removeModule {u : Unit} (h : p.Steady (some main)) (hroot : root ∈ p.body main)
    (href : p.isReferenced m = false) (hok : Edit.removeModule m p = .ok u q) :
    Sparing root p q := by
  have hl := h.toLinked
  refine ⟨h.trim_removeModule href hok, ?_, fun {k} _ halive => ?_⟩
  · obtain ⟨hm, module, hmod, rfl⟩ := Edit.removeModule_ok.mp hok
    obtain ⟨inst, hinst, ho⟩ := hl.owned hroot
    rw [instr?_moduleRemoved hl hmod, if_neg (hl.notMem_body hinst (ho ▸ Ne.symm hm))]
  · obtain ⟨-, module, -, rfl⟩ := Edit.removeModule_ok.mp hok
    rw [module?_moduleRemoved] at halive
    rw [body_moduleRemoved]
    split
    · next he =>
      rw [if_pos he.symm] at halive
      cases halive
    · rfl

theorem mem_body (h : Sparing root p q) (hl : p.Linked) (hroot : root ∈ p.body main) :
    root ∈ q.body main := by
  obtain ⟨inst, hinst, ho⟩ := hl.owned hroot
  rw [← h.same] at hinst
  exact ho ▸ h.steady.toLinked.listed hinst

end Sparing

theorem Steady.sparing_releaseModule {u : Unit} (h : p.Steady (some main))
    (hroot : root ∈ p.body main) (hok : Edit.releaseModule m p = .ok u q) : Sparing root p q := by
  rw [Edit.releaseModule, Action.get_bind_ok] at hok
  refine invariant_releaseFrom (I := Sparing root p) (fun hq href hr => ?_) (.refl h) hok
  exact hq.trans (.removeModule hq.steady (hq.mem_body h.toLinked hroot) href hr)

/-- **Pruning instructions with what feeds them spares any other one.** -/
theorem Steady.sparing_prune_feeders {roots : List InstrId} {removed : Nat} {C : InstrId → Prop}
    (h : p.Steady (some main)) (hC : p.Feeders C) (hroot : root ∈ p.body main) (hnot : ¬ C root)
    (hroots : ∀ i ∈ roots, C i) (hok : Edit.prune roots p = .ok removed q) :
    Sparing root p q := by
  have hl := h.toLinked
  rw [Edit.prune, Action.get_bind_ok] at hok
  refine invariant_pruneFrom (I := Sparing root p) (C := C)
    (fun hq href hr => hq.trans (.removeModule hq.steady (hq.mem_body hl hroot) href hr))
    (fun {q r i inst u} hq hi hinst hparam hret hr => ?_) (.refl h)
    (fun i hi => hroots i (List.mem_reverse.mp hi)) hok
  -- operands were the same in `p`, where they feed what reads them
  obtain ⟨inst', hinst', hc⟩ := hq.shrunk.left hinst
  obtain ⟨-, hinputs, -, -, ho⟩ := Instruction.core_eq_iff.mp hc
  have hread : ∀ x ∈ inst.inputs, C x := fun x hx =>
    hC.closed hi ⟨inst', hinst', hinputs ▸ hx⟩
  refine ⟨hq.trans (.removeInstruction hq.steady hinst ?_ (fun he => hnot (he ▸ hi))
    (fun hmem => hnot (hread root hmem)) hparam hret hr), hread⟩
  exact ho.trans (hl.owner_unique hinst' (hC.inner hi))

/-- **Pruning what stands before an instruction spares it.** -/
theorem Steady.sparing_prune {roots : List InstrId} {removed : Nat} (h : p.Steady (some main))
    (hroot : root ∈ p.body main) (hbefore : ∀ i ∈ roots, Before (p.body main) i root)
    (hok : Edit.prune roots p = .ok removed q) : Sparing root p q :=
  h.sparing_prune_feeders (h.toLinked.feeders_before root) hroot
    (fun hself => hself.ne (h.toLinked.nodup main) rfl) hbefore hok

end Program

namespace Standalone

/-! ## The region -/

/-- The module of `q` declares the parameters of the threads, builds their chains one after the
other, and returns the operation on their values. -/
structure Encloses (p q : Program) (m : ModuleId) (op : Op) (threads : List Thread) : Prop where
  lists : ∃ anchor ret, q.body m =
      threads.map Thread.param ++ threads.flatMap Thread.nodes ++ [anchor, ret] ∧
    q.Node op (threads.map Thread.value) anchor ∧ q.Node .ret [anchor] ret
  replayed : ReplayedFrom p q 0 threads

theorem Encloses.of_sameForm (h : Encloses p q m op threads) (hbody : r.body m = q.body m)
    (hform : ∀ j ∈ q.body m, SameForm q r j) : Encloses p r m op threads := by
  obtain ⟨anchor, ret, hlists, hanchor, hret⟩ := h.lists
  rw [hlists, List.forall_mem_append] at hform
  obtain ⟨hthreads, hends⟩ := hform
  exact ⟨⟨anchor, ret, hbody.trans hlists, hanchor.of_sameForm (hends anchor (by simp)),
    hret.of_sameForm (hends ret (by simp))⟩, h.replayed.of_sameForm hthreads⟩

/-- **The region of an anchor is built to the letter**, and the anchor is left as it was. -/
theorem ends_complete (hp : p.Valid)
    (htracing : Building.Tracing p m [] [] [] ⟨s.program, .onModule m⟩)
    (hroot : root ∈ p.body main) (hinst : p.instr? root = some inst) (hop : inst.op.IsAnchor) :
    (Fusing.complete (.onModule m) do
      return [← Building.fuseAnchor inst.op inst.inputs]).Ends s fun operands t =>
        t.program.instr? root = some inst ∧ ∃ threads : List Thread,
          threads.map Thread.operand = inst.inputs ∧ Encloses p t.program m inst.op threads ∧
            List.Forall₂ (Supplied p t.program) (threads.map Thread.upper) operands := by
  have hl := hp.toLinked
  have hbefore : ∀ i ∈ inst.inputs, Before (p.body main) i root := fun i hi =>
    hl.before_of_uses hroot ⟨inst, hinst, hi⟩
  rw [Fusing.complete, ends_bind]
  refine Fusing.ends_building (ends_bind.mpr ?_)
  refine (htracing.ends_fuseAnchor hl hp (fun i hi => (hbefore i hi).left_mem) hop.isReturn
    hop.isParam).mono ?_
  rintro anchor w ⟨threads, h, hoperands, hanchor, hreplays⟩
  rw [ends_pure, ends_bind]
  refine Fusing.ends_building ((h.ends_finish hl).mono ?_)
  rintro feeders w' ⟨hfeeders, hbeside, hfills, ret, hret, hbody⟩
  rw [ends_edit]
  intro operands q hok
  have huppers : ∀ i ∈ threads.map Thread.upper, Before (p.body main) i root :=
    hreplays.upper_before hl (hoperands ▸ hbefore)
  rw [List.nil_append] at hfeeders hbody
  rw [hfeeders] at hok
  have hback : ∀ i ∈ threads.map Thread.upper, ∀ type, w'.program.HasType i type →
      p.HasType i type := by
    intro i hi type ht
    obtain ⟨inst, hinst, -⟩ := hl.owned (huppers i hi).left_mem
    exact hbeside.hasType_of_hasType hinst ht
  obtain ⟨hpadded, hsupplied, hsame⟩ := Edit.supplied_of_contiguousFrom hbeside.steady
    (fun i hi => hbeside.body_main.symm ▸ (huppers i hi).left_mem) hback
    (fun j => hbeside.gone_of_gone) (fun _ _ hc => by cases hc) hok
  refine ⟨hsame root inst (fun hmem => (huppers root hmem).ne (hl.nodup main) rfl)
    (hbeside.same hinst), threads, hoperands, ?_, hsupplied⟩
  have hmem : ∀ j ∈ w.program.body m, SameForm w.program w'.program j := fun j hj =>
    (hfills.core hj).form
  rw [h.filling.body] at hmem
  have henclosed : Encloses p w'.program m inst.op threads := by
    refine ⟨⟨anchor, ret, ?_, hanchor.of_sameForm (hmem anchor (by simp)), hret⟩,
      hreplays.of_sameForm fun j hj => hmem j ?_⟩
    · rw [hbody]
      simp
    · exact (List.mem_append.mp hj).elim
        (fun hj => List.mem_append_left _ (List.mem_append_right _ hj)) fun hj => by simp [hj]
  -- copies of operands go to the main module
  refine henclosed.of_sameForm (hpadded.body hbeside.inner) fun j hj => ?_
  obtain ⟨inst', hinst', -⟩ := hbeside.steady.owned hj
  exact (hpadded.core hinst').form

/-! ## The rule -/

/-- The anchor at the root of `p` is in `q` a call of a region that encloses it. -/
structure Wrapped (p q : Program) (root : InstrId) (inst : Instruction) (m : ModuleId)
    (threads : List Thread) (operands : List InstrId) : Prop where
  call : q.instr? root =
    some { inst with op := .offload inst.op, inputs := operands, modules := [m] }
  isNew : p.module? m = none
  reads : threads.map Thread.operand = inst.inputs
  encloses : Encloses p q m inst.op threads
  supplied : List.Forall₂ (Supplied p q) (threads.map Thread.upper) operands

/-- What is pruned leaves the call as it is. -/
theorem Wrapped.of_sparing (h : Wrapped p q root inst m threads inputs) (hm : m ≠ main)
    (hs : Sparing root q r) : Wrapped p r root inst m threads inputs := by
  have hlr := hs.steady.toLinked
  have hcall := hs.same.trans h.call
  obtain ⟨halive, -⟩ := hs.steady.referenced hcall (List.mem_singleton_self m)
  have hbody : r.body m = q.body m := hs.body hm halive
  refine ⟨hcall, h.isNew, h.reads, h.encloses.of_sameForm hbody fun j hj => ?_,
    supplied_of_sameForm h.supplied fun x hx => ?_⟩
  · obtain ⟨inst', hj', -⟩ := hlr.owned (hbody ▸ hj)
    exact (hs.core hj').form
  · obtain ⟨inst', hx', -⟩ := hlr.owned (hlr.ordered hcall hx).left_mem
    exact (hs.core hx').form

/-- **A call in the place of the anchor wraps it.** -/
theorem wrapped_of_rebuilt (hl : q.Linked) (hroot : root ∈ q.body main) (hm : m ≠ main)
    (hnew : p.module? m = none) (hreads : threads.map Thread.operand = inst.inputs)
    (hencloses : Encloses p q m inst.op threads)
    (hsupplied : List.Forall₂ (Supplied p q) (threads.map Thread.upper) inputs)
    (hbefore : ∀ x ∈ inputs, Before (q.body main) x root)
    (hcall : r.instr? root =
      some { inst with op := .offload inst.op, inputs, modules := [m] })
    (hbody : r.body m = q.body m) (hcore : ∀ {j}, j ≠ root → SameCore q r j) :
    Wrapped p r root inst m threads inputs := by
  refine ⟨hcall, hnew, hreads, hencloses.of_sameForm hbody fun j hj => (hcore ?_).form,
    supplied_of_sameForm hsupplied fun x hx => (hcore ((hbefore x hx).ne (hl.nodup main))).form⟩
  rintro rfl
  obtain ⟨inst', hinst', ho⟩ := hl.owned hroot
  exact hm ((hl.owner_unique hinst' hj).symm.trans ho)

theorem tracing_opened (hp : p.Valid) (hroot : root ∈ p.body main) (name : String) :
    Building.Tracing p p.nextModule [] [] [] ⟨p.opened name, .onModule p.nextModule⟩ := by
  have hbody : (p.opened name).body p.nextModule = [] := by
    rw [body_opened, body, module?_nextModule]
    rfl
  have hgrown : Grown p p.nextModule (p.opened name) := .opened (hp.steady _) hroot name
  refine ⟨rfl, rfl, ⟨⟨hgrown, id⟩, ?_, hbody, fun _ hi => absurd hi List.not_mem_nil,
    fun _ hi => absurd hi List.not_mem_nil⟩, .nil⟩
  rw [return?, hbody]
  rfl

/-- The region in a new module of an anchor, to be called in its place. -/
def site (p : Program) (root : InstrId) : Site :=
  ⟨p, p.nextModule, root, fun i => Before (p.body main) i root, fun _ => False, fun _ _ => False⟩

/-- **The region of an anchor can be called in its place.** -/
theorem completes_complete {name : String} (hp : p.Valid) (hsized : p.Sized)
    (hroot : root ∈ p.body main) (hinst : p.instr? root = some inst) (hop : inst.op.IsAnchor)
    (hs : s.program = p.opened name) :
    (Fusing.complete (.onModule p.nextModule) do
      return [← Building.fuseAnchor inst.op inst.inputs]).Completes s fun operands t =>
        Callable (site p root) inst.type operands t.program := by
  have hS : (site p root).Sound := Site.sound_before hp hsized
  have hopen : Building.Open (site p root) [] ⟨s.program, .onModule p.nextModule⟩ :=
    hs ▸ .opened hp hroot rfl name
  obtain ⟨t, htype, -, hlen, hsteps⟩ := hopen.completes_anchor hS hinst hop
    (fun x hx => hp.toLinked.before_of_uses hroot ⟨inst, hinst, hx⟩) fun _ => List.not_mem_nil
  have hreturns : (do return [← Building.fuseAnchor inst.op inst.inputs] :
      Building (List InstrId)).Completes ⟨s.program, .onModule p.nextModule⟩
        (Building.Returns (site p root) [t]) := by
    rw [completes_bind]
    refine hsteps.mono fun i w hyields => ?_
    rw [completes_pure]
    refine ⟨⟨_, hyields.isOpen, Interval.contains_atLeast ?_ ?_⟩,
      Interval.contains_atLeast (Nat.le_refl 1) (Nat.one_lt_two.trans (by decide)),
      .cons (htype ▸ hyields.held) .nil⟩
    · simp [hlen, Building.Open.threadNames]
    · simp [hlen, Building.Open.threadNames, Checked.sizeLimit]
  rw [htype]
  exact (Fusing.completesIff_complete hS (completesIff_true.mpr hreturns)).completes trivial

/-- **The call takes the place of the anchor**, and what only the anchor read is pruned. -/
theorem completes_call (hp : p.Valid) (hroot : root ∈ p.body main)
    (hinst : p.instr? root = some inst) (hop : inst.op.IsAnchor)
    (hcall : Callable (site p root) inst.type inputs s.program)
    (hold : s.program.instr? root = some inst)
    (hreads : threads.map Thread.operand = inst.inputs)
    (hencloses : Encloses p s.program p.nextModule inst.op threads)
    (hsupplied : List.Forall₂ (Supplied p s.program) (threads.map Thread.upper) inputs) :
    (do
      Edit.replaceWith root (.offload inst.op) inputs [p.nextModule]
      discard <| Edit.prune inst.inputs
      return true : Fusing Bool).Completes s fun applied t =>
        applied = true ∧ Wrapped p t.program root inst p.nextModule threads inputs := by
  have hl := hp.toLinked
  have hls := hcall.advance.steady.toLinked
  have hmem := hcall.advance.mem_body hl hroot
  have hne : p.nextModule ≠ main := fun he => by
    rw [← he, body, module?_nextModule] at hroot
    cases hroot
  rw [completes_bind, completes_edit]
  refine (Edit.completes_rebuild hls hmem hold hcall.before (hcall.infer inst.op)).self.mono ?_
  rintro _ q ⟨hok, hq, hbody, hcore⟩
  have hwrapped : Wrapped p q root inst p.nextModule threads inputs :=
    wrapped_of_rebuilt hls hmem hne p.module?_nextModule hreads hencloses hsupplied hcall.before
      hq (hbody _) hcore
  have hadvance : Advance p q := hcall.advance.trans (hcall.advance.replaceWith hl hroot hinst
    hop.isBoundary rfl (fun hmem => hne (List.mem_singleton.mp hmem).symm) hok).toAdvance
  have hin : Inside inst.inputs q := hadvance.inside hl fun i hi =>
    (hl.before_of_uses hroot ⟨inst, hinst, hi⟩).left_mem
  have hbefore : ∀ i ∈ inst.inputs, Before (q.body main) i root := fun i hi =>
    hbody main ▸ hls.before_of_uses hmem ⟨inst, hold, hi⟩
  rw [completes_bind, completes_discard, completes_edit]
  refine (hadvance.steady.completes_prune hin).self.mono ?_
  rintro n r ⟨hpruned, -⟩
  rw [completes_pure]
  exact ⟨rfl, hwrapped.of_sparing hne
    (hadvance.steady.sparing_prune (hbody main ▸ hmem) hbefore hpruned)⟩

/-- **The rule wraps the anchor.** -/
theorem completes_apply {found : Match} (hp : s.program.Valid) (hsized : s.program.Sized)
    (hindexed : s.program.Indexed)
    (hcounter : s.counter + s.program.modules.count + 1 < Checked.sizeLimit)
    (hroot : found.root ∈ s.program.body main)
    (hinst : s.program.instr? found.root = some inst) (hop : inst.op.IsAnchor) :
    (apply found).Completes s fun applied t => applied = true ∧ ∃ m threads operands,
      Wrapped s.program t.program found.root inst m threads operands := by
  rw [apply, completes_theProgram_bind, completes_bind]
  refine (completes_lift_checked (instr_ok.mpr hinst)).mpr ?_
  rw [completes_bind]
  refine (Fusing.completes_freshName hindexed hcounter _).mono ?_
  rintro name t ⟨ht, hnone⟩
  rw [completes_bind]
  refine (Fusing.completes_createModule ht hnone).mono ?_
  rintro m t₁ ⟨hm, ht₁⟩
  subst hm
  rw [completes_bind]
  refine ((completes_complete hp hsized hroot hinst hop ht₁).and_ends (ends_complete hp
    (ht₁ ▸ tracing_opened hp hroot name) hroot hinst hop)).mono ?_
  rintro operands t₂ ⟨hcall, hold, threads, hreads, hencloses, hsupplied⟩
  refine (completes_call hp hroot hinst hop hcall hold hreads hencloses hsupplied).mono ?_
  rintro applied t₃ ⟨happlied, hwrapped⟩
  exact ⟨happlied, _, threads, operands, hwrapped⟩

/-- **At every match of a dot or a convolution of the main module the rule applies.** The anchor
keeps its identifier, its consumers and its type. It is a call of a new region that replays the
chains above its two operands and then the anchor; the call takes the tensors above those chains, or
row-major copies of them. -/
theorem wraps (p : Program) (hv : p.verify = .ok ()) (hsized : p.Sized) (hindexed : p.Indexed)
    (rule : Rule) (mode : Mode) (hrule : rule = .standaloneConv mode ∨ rule = .standaloneDot mode)
    (h : Heuristics) (counter : Nat)
    (hcounter : counter + p.modules.count + 1 < Checked.sizeLimit)
    (root : InstrId) (found : Match) (hroot : root ∈ p.body main)
    (hmatch : rule.matcher.run p h root = .ok (some found)) :
    ∃ t inst m a b x y, rule.apply found ⟨p, counter⟩ = .ok true t ∧ p.instr? root = some inst ∧
      inst.inputs = [a.operand, b.operand] ∧
      t.program.instr? root =
        some { inst with op := .offload inst.op, inputs := [x, y], modules := [m] } ∧
      p.module? m = none ∧ Encloses p t.program m inst.op [a, b] ∧
      Supplied p t.program a.upper x ∧ Supplied p t.program b.upper y := by
  have hp := verify_ok.mp hv
  obtain ⟨hrun, rfl, inst, hinst, hop⟩ : rule.apply found = apply found ∧ found.root = root ∧
      ∃ inst, p.instr? root = some inst ∧ inst.op.IsAnchor := by
    obtain rfl | rfl := hrule
    · exact ⟨rfl, match_ok (Eq.refl (Predicate.conv mode).isAnchor) hmatch⟩
    · exact ⟨rfl, match_ok (Eq.refl (Predicate.dot mode false).isAnchor) hmatch⟩
  obtain ⟨applied, t, hok, rfl, m, threads, operands, hwrapped⟩ :=
    completes_apply (s := ⟨p, counter⟩) hp hsized hindexed hcounter hroot hinst hop
  -- an anchor has two operands
  obtain ⟨types, signatures, htypes, -, hinfer⟩ := infer_ok.mp (hp.fresh hinst)
  obtain ⟨_, _, _, rfl, -⟩ := hop.inferType_ok hinfer
  have hlen : threads.length = 2 := by
    rw [← List.length_map Thread.operand, hwrapped.reads, htypes.length_eq]
    rfl
  obtain ⟨a, b, rfl⟩ := List.length_eq_two.mp hlen
  obtain ⟨x, _, hx, hsupplied, rfl⟩ := List.forall₂_cons_left_iff.mp hwrapped.supplied
  obtain ⟨y, _, hy, hnil, rfl⟩ := List.forall₂_cons_left_iff.mp hsupplied
  obtain rfl := List.forall₂_nil_left_iff.mp hnil
  exact ⟨t, inst, m, a, b, x, y, hrun ▸ hok, hinst, hwrapped.reads.symm, hwrapped.call,
    hwrapped.isNew, hwrapped.encloses, hx, hy⟩

/-- A dot of a parameter that is not packed and a transposed one. -/
def spread : Program :=
  (do
    let a ← Edit.addParameter main "a" ⟨.f32, [2, 3], [4, 1]⟩
    let b ← Edit.addParameter main "b" ⟨.f32, [2, 3], [3, 1]⟩
    let transposed ← Edit.addInstruction main (.reindex (.transpose [1, 0])) [b] []
    let product ← Edit.addInstruction main (.dot false) [a, transposed] []
    let _ ← Edit.addReturn main [product] : Edit Unit).after .empty

/-- The dot is wrapped, with the transposition in the region. -/
theorem wraps_spread : spread.verify = .ok () ∧ spread.Sized ∧ spread.Indexed ∧
    ∃ (t : Session) (inst : Instruction) (m : ModuleId) (a b : Thread) (x y : InstrId),
      (Rule.standaloneDot .all).apply ⟨⟨3⟩, []⟩ ⟨spread, 0⟩ = .ok true t ∧
      a.operand = ⟨0⟩ ∧ b.operand = ⟨2⟩ ∧ t.program.instr? ⟨3⟩ =
        some { inst with op := .offload (.dot false), inputs := [x, y], modules := [m] } ∧
      Encloses spread t.program m (.dot false) [a, b] ∧
      Supplied spread t.program a.upper x ∧ Supplied spread t.program b.upper y := by
  have hv : spread.verify = .ok () := by decide +kernel
  have hsized : spread.Sized := by decide +kernel
  have hindexed : spread.Indexed := Indexed.of_entries (by decide +kernel) (by decide +kernel)
  have hdot : ∀ inst ∈ spread.instr? ⟨3⟩, inst.op = .dot false ∧ inst.inputs = [⟨0⟩, ⟨2⟩] := by
    decide +kernel
  obtain ⟨t, inst, m, a, b, x, y, hok, hinst, hinputs, hcall, -, hencloses, hx, hy⟩ :=
    wraps spread hv hsized hindexed (.standaloneDot .all) .all (.inr rfl) .default 0
      (by decide +kernel) ⟨3⟩ ⟨⟨3⟩, []⟩ (by decide +kernel) (by decide +kernel)
  obtain ⟨hop, hoperands⟩ := hdot inst hinst
  rw [hop] at hcall hencloses
  obtain ⟨ha, hb⟩ : a.operand = ⟨0⟩ ∧ b.operand = ⟨2⟩ := by
    simpa using hinputs.symm.trans hoperands
  exact ⟨hv, hsized, hindexed, t, inst, m, a, b, x, y, hok, ha, hb, hcall, hencloses, hx, hy⟩

end Standalone

end OffloadFusion
