import OffloadFusion.Proofs.Copies
import OffloadFusion.Proofs.Supplying

/-!
# Regions that go on

A split reduction is merged into a call: the region of the call is copied, and the body of the
reduction is replayed on top of the copy.

* `Replica`: the copy of a region without its return (`copyOpen_replica`).
* `Taken`: the parameters of the copy stand for the operands of the call (`taken_of_ofCopy`).
* **`Grafted`**: the copy with the body on top of it, and what feeds its parameters.
-/

namespace OffloadFusion

open OffloadFusion.Action Program

theorem Replay.Emission.of_sameForm {p q r : Program} {m : ModuleId} {inst : Instruction}
    {args : List InstrId} {value : InstrId} (hl : q.Linked)
    (hform : ∀ j ∈ q.body m, SameForm q r j)
    (h : Emission p m p q inst args value .inlinePointwise) :
    Emission p m p r inst args value .inlinePointwise := by
  cases h with
  | pointwise hop h => exact .pointwise hop (h.of_sameForm hl hform)
  | other hop h => exact .other hop (Made.of_sameForm hl hform h)

namespace SplitReduce

variable {p q r : Program} {m source : ModuleId} {name : String} {ret value result : InstrId}
  {copies : Renaming} {copied : List InstrId}

/-! ## Open copies -/

/-- The module of `q` holds copies of what the module `source` of `p` lists but for the return.
`value` is the copy of what `source` gives. -/
structure Replica (p q : Program) (m source : ModuleId) (copies : Renaming)
    (copied : List InstrId) (value : InstrId) : Prop where
  image : Replay.Image p (p.body source) (Replay.Copied m p q) (fun _ => False) copies
  parameters : List.Forall₂ (fun param copy => copies.image? param = some copy)
    (p.parameters source) copied
  value : ∃ result, p.returned source = [result] ∧ copies.image? result = some value

theorem Replica.mono (h : Replica p q m source copies copied value) (hq : Adds m q r)
    (hl : p.Linked) : Replica p r m source copies copied value :=
  ⟨h.image.mono (fun _ _ _ => Replay.Copied.mono (.refl hl m) hq) fun _ _ => id, h.parameters,
    h.value⟩

theorem Replica.of_sameForm (h : Replica p q m source copies copied value) (hl : q.Linked)
    (hform : ∀ j ∈ q.body m, SameForm q r j) : Replica p r m source copies copied value :=
  ⟨h.image.mono (fun _ _ _ hmade => Made.of_sameForm hl hform hmade) fun _ _ => id, h.parameters,
    h.value⟩

section

variable {target copy : InstrId} {q' : Program} {b : Instruction} {u : Unit}
  (h : Program.Copied p source name m copies q) (hcopy : copies.image? ret = some copy)

include h hcopy

/-- Without its return, a copy only adds to the program. -/
theorem adds_of_copied (hok : Edit.removeInstruction copy q = .ok u r) :
    Adds m p r ∧ (∀ j ∈ q.body m, j ≠ copy → SameCore q r j) ∧
      r.body m = (q.body m).filter (· ≠ copy) := by
  have hl := (verify_ok.mp h.verified).toLinked
  obtain ⟨_, b, -, hb, hcopied⟩ := h.copied ret copy hcopy
  obtain ⟨b', k, n, hb', hnone, hloc, rfl⟩ := Edit.removeInstruction_ok.mp hok
  cases hb.symm.trans hb'
  obtain ⟨inst, -, hinst, rfl, -⟩ := locate_ok.mp hloc
  cases hb.symm.trans hinst
  have hkeep : ∀ {j inst}, p.instr? j = some inst →
      (q.removed copy b.owner n).instr? j = some inst := by
    intro j inst hj
    have hout : j ∉ q.body m := fun hmem => by
      rw [h.fresh j hmem] at hj
      cases hj
    have hne : copy ≠ j := fun he => hout (he ▸ (h.range copy).mp ⟨ret, hcopy⟩)
    have hread : j ∉ b.inputs := fun hmem =>
      hout (hcopied.owner ▸ (hl.ordered hb hmem).left_mem)
    rw [instr?_removed hb, if_neg hne, h.instructions j hout, hj, Option.map_some, if_neg hread]
  refine ⟨⟨hl.removed hb hloc hnone, fun {k} hk => ?_, fun hj _ => hkeep hj, fun {j inst} hj => ?_,
    ?_⟩, fun j _ hj => sameCore_removed hb hj, body_removed hl hb hloc m⟩
  · rw [(Local.removed hl hb hloc).module? (hcopied.owner ▸ hk), h.modules k hk]
  · rw [SameCore, hj, hkeep hj]
  · rw [Program.body, h.new]
    exact List.nil_sublist _

/-- **The copy of a region without its return.** -/
theorem replica_of_copied (hret : p.return? source = some ret)
    (hb : q.instr? copy = some b) (hhead : b.inputs.head? = some value)
    (hone : p.returned source = [result]) (hok : Edit.removeInstruction copy q = .ok u r) :
    Replica p r m source copies (r.parameters m) value := by
  obtain ⟨hadds, hsame, hbody⟩ := adds_of_copied h hcopy hok
  obtain ⟨hlast, hop⟩ := return?_eq_some.mp hret
  obtain ⟨a, b', ha, hb', hcopied⟩ := h.copied ret copy hcopy
  cases hb.symm.trans hb'
  rw [hasOp, ha, Option.any_some] at hop
  have hown : ∀ {i j}, copies.image? i = some j → j ∈ q.body m := fun hij =>
    (h.range _).mp ⟨_, hij⟩
  refine ⟨fun i hi inst hinst _ hinner => ?_, ?_, result, hone, ?_⟩
  · obtain ⟨j, hij⟩ := (h.domain i).mpr hi
    obtain ⟨a', c, ha', hc, hcopied'⟩ := h.copied i j hij
    cases hinst.symm.trans ha'
    have hne : j ≠ copy := by
      rintro rfl
      obtain rfl := h.injective i ret j hij hcopy
      cases hinst.symm.trans ha
      rw [hop] at hinner
      cases hinner
    obtain ⟨c', hc', hcore⟩ := (hsame j (hown hij) hne).symm.exists_instr hc
    obtain ⟨hop', hin, hmod, -, ho⟩ := Instruction.core_eq_iff.mp hcore
    exact ⟨c.inputs, j, hcopied'.inputs, hij, h.fresh j (hown hij), c', hc',
      hop'.symm.trans hcopied'.op, hin.symm, hmod.symm.trans hcopied'.modules,
      ho.symm.trans hcopied'.owner⟩
  · have hparams : r.parameters m = q.parameters m := by
      rw [Program.parameters, hbody, List.filter_filter, Program.parameters]
      refine List.filter_congr fun j hj => ?_
      by_cases he : j = copy
      · subst he
        have hparam : b.op.isParam = false := by
          have hret : b.op.isReturn = true := hcopied.op ▸ hop
          cases hop : b.op <;> simp_all [Op.isReturn, Op.isParam]
        simp [hasOp, hb, hparam]
      · rw [(hsame j hj he).hasOp, decide_eq_true he, Bool.and_true]
    rw [hparams]
    refine forall₂_filter h.aligned fun i j hij => ?_
    obtain ⟨a', c, ha', hc, hcopied'⟩ := h.copied i j hij
    rw [hasOp, hasOp, ha', hc, Option.any_some, Option.any_some, hcopied'.op]
  · rw [returned_eq hlast ha, if_pos hop] at hone
    have hinputs := hcopied.inputs
    rw [hone] at hinputs
    obtain ⟨v, rest, hv, -, hlist⟩ := List.forall₂_cons_left_iff.mp hinputs
    rw [hlist] at hhead
    cases hhead
    exact hv

end

/-- **Opening a copy of a region.** -/
theorem copyOpen_replica (hv : p.verify = .ok ()) (halive : (p.module? source).isSome)
    (hret : p.return? source = some ret) (hone : p.returned source = [result])
    (hok : copyOpen source ret name p = .ok (m, value) q) :
    p.module? m = none ∧ Adds m p q ∧
      ∃ copies, Replica p q m source copies (q.parameters m) value := by
  rw [copyOpen, Action.bind_ok] at hok
  obtain ⟨⟨k, copies⟩, t, hcopied, hok⟩ := hok
  have hcopied := (copyModule_exact hv halive name).2 _ _ _ hcopied
  simp only [Action.lift_bind_ok, Renaming.image_ok, Action.get_bind_ok] at hok
  obtain ⟨copy, hcopy, hok⟩ := hok
  rw [Action.lift_checked_bind_ok] at hok
  obtain ⟨b, hb, hok⟩ := hok
  rw [instr_ok] at hb
  cases hhead : b.inputs.head? with
  | none =>
    rw [hhead] at hok
    cases hok
  | some v =>
    simp only [hhead, Action.bind_ok, Action.pure_ok] at hok
    obtain ⟨_, r, hremove, he, rfl⟩ := hok
    cases he
    exact ⟨hcopied.new, (adds_of_copied hcopied hcopy hremove).1, copies, replica_of_copied hcopied
      hcopy hret hb hhead hone hremove⟩

/-! ## Their parameters -/

/-- The region with one more parameter of the copy, which stands for its operand unless a parameter
before it does. -/
def adopt (region : Region) (entry : InstrId × InstrId) : Region :=
  let region := region.bindParam entry.1 entry.2
  if region.values.contains entry.2 then region else region.know entry.2 entry.1

/-- The operands feed the parameters, and the region knows each one by a parameter that it feeds. -/
structure Taken (params inputs : List InstrId) (region : Region) : Prop where
  bound : List.Forall₂ (fun param outer => region.bindings.image? param = some outer) params inputs
  known : ∀ i ∈ inputs, region.values.contains i = true
  only : ∀ {i value}, region.values.image? i = some value →
    ∃ k : Nat, inputs[k]? = some i ∧ params[k]? = some value

section

variable {params inputs : List InstrId} {region : Region} {param outer i : InstrId}

theorem image?_adopt : (adopt region (param, outer)).values.image? i =
    if i = outer ∧ region.values.contains outer = false then some param
    else region.values.image? i := by
  rw [adopt]
  dsimp only
  rw [show (region.bindParam param outer).values = region.values from rfl]
  split
  · next h => rw [if_neg fun hn => by rw [h] at hn; cases hn.2]; rfl
  · next h =>
    rw [show ((region.bindParam param outer).know outer param).values.image? i = _ from
      Renaming.image?_insert ..]
    simp only [Bool.eq_false_iff.mpr h, and_true]
    rfl

theorem Taken.adopt (h : Taken params inputs region) (hparam : param ∉ params) :
    Taken (params ++ [param]) (inputs ++ [outer]) (adopt region (param, outer)) := by
  have hbindings : ∀ x, (SplitReduce.adopt region (param, outer)).bindings.image? x =
      if x = param then some outer else region.bindings.image? x := by
    intro x
    rw [SplitReduce.adopt]
    dsimp only
    split <;> exact Renaming.image?_insert ..
  have hkept : ∀ i, region.values.contains i = true →
      (SplitReduce.adopt region (param, outer)).values.contains i = true := by
    intro i hi
    rw [Renaming.contains, image?_adopt]
    split
    · rfl
    · exact hi
  have houter : (SplitReduce.adopt region (param, outer)).values.contains outer = true := by
    by_cases hknown : region.values.contains outer = true
    · exact hkept outer hknown
    · rw [Renaming.contains, image?_adopt, if_pos ⟨rfl, Bool.eq_false_iff.mpr hknown⟩]
      rfl
  have hlen := h.bound.length_eq
  refine ⟨List.rel_append (forall₂_imp_of_mem h.bound fun x hx o ho => ?_) (.cons ?_ .nil),
    List.forall_mem_append.mpr ⟨fun i hi => hkept i (h.known i hi),
      fun i hi => List.mem_singleton.mp hi ▸ houter⟩, fun {i value} hi => ?_⟩
  · rw [hbindings, if_neg fun he : x = param => hparam (he ▸ hx), ho]
  · rw [hbindings, if_pos rfl]
  · rw [image?_adopt] at hi
    split at hi
    · next he =>
      cases hi
      refine ⟨inputs.length, ?_, ?_⟩
      · rw [List.getElem?_concat_length, he.1]
      · rw [← hlen, List.getElem?_concat_length]
    · obtain ⟨k, hinput, hvalue⟩ := h.only hi
      refine ⟨k, ?_, ?_⟩
      · rw [List.getElem?_append_left (List.getElem?_eq_some_iff.mp hinput).1, hinput]
      · rw [List.getElem?_append_left (List.getElem?_eq_some_iff.mp hvalue).1, hvalue]

theorem Taken.foldl {entries : List (InstrId × InstrId)} (h : Taken params inputs region)
    (hn : (params ++ entries.map Prod.fst).Nodup) :
    Taken (params ++ entries.map Prod.fst) (inputs ++ entries.map Prod.snd)
      (entries.foldl SplitReduce.adopt region) := by
  induction entries generalizing params inputs region with
  | nil =>
    rw [List.map_nil, List.map_nil, List.append_nil, List.append_nil]
    exact h
  | cons entry entries ih =>
    obtain ⟨param, outer⟩ := entry
    rw [List.map_cons, List.append_cons] at hn
    have hparam : param ∉ params := fun hmem =>
      (List.nodup_append.mp (List.nodup_append.mp hn).1).2.2 param hmem param
        (List.mem_singleton_self _) rfl
    have hadopted : Taken (params ++ [param]) (inputs ++ [outer]) _ := h.adopt hparam
    have hrest := ih hadopted hn
    rwa [List.append_assoc, List.append_assoc] at hrest

/-- **The parameters of a copy stand for the operands of the call.** -/
theorem taken_of_ofCopy (hl : p.Linked) (hok : Region.ofCopy p m inputs = .ok region) :
    region.module = m ∧ Taken (p.parameters m) inputs region := by
  refine ⟨(Region.ofCopy_ok hok).1, ?_⟩
  unfold Region.ofCopy at hok
  dsimp only at hok
  split at hok
  · cases hok
  next hlen =>
  rw [ne_eq, not_not] at hlen
  cases hok
  have hfst : ((p.parameters m).zip inputs).map Prod.fst = p.parameters m :=
    List.map_fst_zip (Nat.le_of_eq hlen)
  have hsnd : ((p.parameters m).zip inputs).map Prod.snd = inputs :=
    List.map_snd_zip (Nat.le_of_eq hlen.symm)
  have hnothing : Taken [] [] (Region.onModule m) :=
    ⟨.nil, fun _ hi => absurd hi List.not_mem_nil, fun hi => by cases hi⟩
  have hnodup : ([] ++ ((p.parameters m).zip inputs).map Prod.fst).Nodup := by
    rw [List.nil_append, hfst]
    exact (hl.nodup m).filter _
  have htaken := hnothing.foldl hnodup
  rw [List.nil_append, List.nil_append, hfst, hsnd] at htaken
  exact htaken

end

/-! ## The graft -/

/-- What feeds the region: the operands of the former call, and those of the reduction that are not
among them, without repetition. -/
def feeders (gemm : InstrId) (inputs gemmInputs : List InstrId) : List InstrId :=
  gemmInputs ++ (inputs.filter fun i => i ≠ gemm ∧ i ∉ gemmInputs).eraseDups

/-- What stands for an operand of the reduction: the given value for the former call, and for any
other one a parameter that it feeds. -/
def StandsFor (gemm value : InstrId) (fed params : List InstrId) (input v : InstrId) : Prop :=
  (input = gemm ∧ v = value) ∨ ∃ k : Nat, fed[k]? = some input ∧ params[k]? = some v

/-- The module of `q` is a replica of the region `old` of `p` with an image of the body on top of
it, where the value of the replica stands for the former call. -/
structure Grafted (p q : Program) (m old body : ModuleId) (gemm : InstrId)
    (inputs gemmInputs results : List InstrId) (value : InstrId) : Prop where
  replica : ∃ copies copied more,
    Replica p q m old copies copied value ∧ q.parameters m = copied ++ more
  replayed : ∃ values : Renaming,
    Replay.Image p (p.body body)
      (fun inst args value => Replay.Emission p m p q inst args value .inlinePointwise)
      (fun i => p.hasOp Op.isParam i = true) values ∧
    List.Forall₂ (fun param input => ∃ v, values.image? param = some v ∧
        StandsFor gemm value (feeders gemm inputs gemmInputs) (q.parameters m) input v)
      (p.parameters body) (inputs.take (p.parameters body).length) ∧
    List.Forall₂ (fun result v => values.image? result = some v) (p.returned body) results

section

open Building

variable {old body : ModuleId} {gemm i v : InstrId} {inputs gemmInputs results : List InstrId}
  {region : Region} {w : Workspace}

theorem Grafted.of_sameForm (h : Grafted p q m old body gemm inputs gemmInputs results value)
    (hl : q.Linked) (hparams : r.parameters m = q.parameters m)
    (hform : ∀ j ∈ q.body m, SameForm q r j) :
    Grafted p r m old body gemm inputs gemmInputs results value := by
  obtain ⟨copies, copied, more, hreplica, hdeclares⟩ := h.replica
  obtain ⟨values, himage, hargs, hresults⟩ := h.replayed
  exact ⟨⟨copies, copied, more, hreplica.of_sameForm hl hform, hparams.trans hdeclares⟩,
    values, himage.mono (fun _ _ _ h => h.of_sameForm hl hform) fun _ _ => id, hparams ▸ hargs,
    hresults⟩

theorem Taken.contains_know (h : Taken (q.parameters m) gemmInputs region) :
    (region.know gemm value).values.contains i = true ↔ i = gemm ∨ i ∈ gemmInputs := by
  rw [Renaming.contains, show (region.know gemm value).values.image? i = _ from
    Renaming.image?_insert ..]
  split
  · next he => simp [he]
  next he =>
  rw [or_iff_right he]
  refine ⟨fun hi => ?_, h.known i⟩
  obtain ⟨v, hv⟩ := Option.isSome_iff_exists.mp hi
  obtain ⟨k, hk, -⟩ := h.only hv
  exact List.mem_of_getElem? hk

theorem Taken.unknown_eq (h : Taken (q.parameters m) gemmInputs region) :
    gemmInputs ++ (region.know gemm value).unknown inputs = feeders gemm inputs gemmInputs := by
  rw [Region.unknown, feeders]
  congr 2
  refine List.filter_congr fun i _ => ?_
  rw [Bool.eq_iff_iff, Bool.not_eq_true', ← Bool.not_eq_true, h.contains_know]
  simp

variable (h : Taken (q.parameters m) gemmInputs region)
  (hfused : Fused p m body .inlinePointwise inputs results ⟨q, region.know gemm value⟩ w)
  (hout : ∀ i, i = gemm ∨ i ∈ gemmInputs → i ∉ p.body body)

include h hfused hout

theorem Taken.standsFor (hi : i ∈ inputs) (hv : w.region.values.image? i = some v) :
    StandsFor gemm value (feeders gemm inputs gemmInputs) (w.program.parameters m) i v := by
  have hkeep : ∀ {x}, (region.know gemm value).values.image? i = some x →
      w.region.values.image? i = some x := fun {x} hx => by
    refine hfused.kept (fun hmem => ?_) hx
    exact hout i (h.contains_know.mp (Option.isSome_iff_exists.mpr ⟨x, hx⟩))
      (List.mem_of_mem_filter hmem)
  obtain ⟨params, hparams, hdeclared⟩ := hfused.declared
  have hparams : w.program.parameters m = q.parameters m ++ params := hparams
  rw [← h.unknown_eq, hparams]
  by_cases he : i = gemm
  · refine .inl ⟨he, ?_⟩
    have hknown : (region.know gemm value).values.image? i = some value :=
      (Renaming.image?_insert ..).trans (if_pos he)
    exact Option.some.inj (hv.symm.trans (hkeep hknown))
  · right
    cases hold : region.values.image? i with
    | some x =>
      have hknown : (region.know gemm value).values.image? i = some x :=
        (Renaming.image?_insert ..).trans ((if_neg he).trans hold)
      cases hv.symm.trans (hkeep hknown)
      obtain ⟨k, hinput, hvalue⟩ := h.only hold
      exact ⟨k, (List.getElem?_append_left (List.getElem?_eq_some_iff.mp hinput).1).trans hinput,
        (List.getElem?_append_left (List.getElem?_eq_some_iff.mp hvalue).1).trans hvalue⟩
    | none =>
      have hnew : i ∈ (region.know gemm value).unknown inputs := by
        refine List.mem_eraseDups.mpr (List.mem_filter.mpr ⟨hi, ?_⟩)
        rw [Renaming.contains, show (region.know gemm value).values.image? i = none from
          (Renaming.image?_insert ..).trans ((if_neg he).trans hold)]
        rfl
      obtain ⟨k, hk⟩ := List.getElem?_of_mem hnew
      obtain ⟨param, hparam, hvalue, -⟩ := forall₂_getElem? hdeclared hk
      cases hv.symm.trans hvalue
      refine ⟨gemmInputs.length + k, ?_, ?_⟩
      · rw [List.getElem?_append_right (Nat.le_add_right ..), Nat.add_sub_cancel_left, hk]
      · rw [← h.bound.length_eq, List.getElem?_append_right (Nat.le_add_right ..),
          Nat.add_sub_cancel_left, hparam]

/-- **The body is on top of the replica.** -/
theorem Taken.grafted {source : ModuleId} {copies : Renaming} (hl : p.Linked) (hadds : Adds m p q)
    (hreplica : Replica p q m source copies (q.parameters m) value) :
    Grafted p w.program m source body gemm inputs gemmInputs results value := by
  obtain ⟨params, hparams, -⟩ := hfused.declared
  have hlater : Adds m q w.program := hfused.continues.adds
  refine ⟨⟨copies, q.parameters m, params, hreplica.mono hlater hl, hparams⟩,
    w.region.values, ?_, forall₂_imp_of_mem hfused.parameters.flip ?_ |>.flip, hfused.results⟩
  · refine hfused.image.mono (fun _ _ _ hemitted => hemitted.mono hadds (.refl hlater.linked m))
      fun i hi hknown => ?_
    exact hknown.resolve_right fun hcontains => hout i (h.contains_know.mp hcontains) hi
  · rintro input hinput param ⟨v, hparam, hv⟩
    exact ⟨v, hparam, h.standsFor hfused hout (List.mem_of_mem_take hinput) hv⟩

end

/-! ## Building the graft -/

/-- What stands before the reduction and does not depend on the call may feed the region. -/
def Feeds (p : Program) (root gemm i : InstrId) : Prop :=
  Before (p.body main) i root ∧ ¬ p.DependsOn gemm i

theorem feeders_feeds (hl : p.Linked) (root gemm : InstrId) : p.Feeders (Feeds p root gemm) := by
  refine ⟨fun hi => hi.1.left_mem, fun hi hx => ?_⟩
  obtain ⟨hbefore, hdepends⟩ := hi
  exact ⟨(hl.feeders_before root).closed hbefore hx, fun hd => hdepends (hd.tail hx)⟩

/-- A reduction of the main module and a call with one value that it reads, but for which nothing
that it reads depends on the call. -/
structure Site (p : Program) (root gemm : InstrId) (inst gemmInst : Instruction) (op : Op)
    (old body : ModuleId) (result : InstrId) : Prop where
  valid : p.Valid
  rooted : root ∈ p.body main
  reduction : p.instr? root = some inst
  inner : inst.op.isBoundary = false
  mapped : inst.modules = [body]
  reads : gemm ∈ inst.inputs
  apart : ∀ i ∈ inst.inputs, i ≠ gemm → ¬ p.DependsOn gemm i
  called : p.instr? gemm = some gemmInst
  isCall : gemmInst.op = .offload op
  carried : gemmInst.modules = [old]
  gives : p.returned old = [result]

namespace Site

open Building

variable {root gemm i : InstrId} {inst gemmInst : Instruction} {op : Op} {old body : ModuleId}
  {region : Region} (h : Site p root gemm inst gemmInst op old body result)

include h

theorem before_of_mem (hi : i ∈ inst.inputs) : Before (p.body main) i root :=
  h.valid.toLinked.before_of_uses h.rooted ⟨inst, h.reduction, hi⟩

theorem before : Before (p.body main) gemm root := h.before_of_mem h.reads

theorem before_of_feeds (hi : i ∈ gemmInst.inputs) : Before (p.body main) i gemm :=
  h.valid.toLinked.before_of_uses h.before.left_mem ⟨gemmInst, h.called, hi⟩

theorem feeds_of_mem (hi : i ∈ gemmInst.inputs ∨ i ∈ inst.inputs ∧ i ≠ gemm) :
    Feeds p root gemm i := by
  have hl := h.valid.toLinked
  obtain hi | ⟨hi, hne⟩ := hi
  · have hbefore := h.before_of_feeds hi
    refine ⟨hbefore.trans (hl.nodup main) h.before, fun hd => hbefore.ne (hl.nodup main) ?_⟩
    exact hl.dependsOn_antisymm (.single ⟨gemmInst, h.called, hi⟩) hd
  · exact ⟨h.before_of_mem hi, h.apart i hi hne⟩

theorem feeds_of_mem_feeders (hi : i ∈ feeders gemm inst.inputs gemmInst.inputs) :
    Feeds p root gemm i := by
  refine h.feeds_of_mem ((List.mem_append.mp hi).imp_right fun hi => ?_)
  obtain ⟨hi, hne⟩ := List.mem_filter.mp (List.mem_eraseDups.mp hi)
  exact ⟨hi, (of_decide_eq_true hne).1⟩

/-- **The region goes on from the copy.** -/
theorem ends_graft (hret : p.return? old = some ret)
    (hopen : copyOpen old ret name p = .ok (m, value) q)
    (hregion : Region.ofCopy q m gemmInst.inputs = .ok region) :
    (fuse body inst.inputs .inlinePointwise).Ends ⟨q, region.know gemm value⟩ fun results w =>
      Growing (Feeds p root gemm) p m w ∧ Adds m p w.program ∧
        Draws m w (feeders gemm inst.inputs gemmInst.inputs) ∧
        Grafted p w.program m old body gemm inst.inputs gemmInst.inputs results value := by
  have hp := h.valid
  have hl := hp.toLinked
  have hgemm := h.before.left_mem
  have hmem : old ∈ gemmInst.modules := h.carried ▸ List.mem_singleton_self old
  obtain ⟨hnew, hadds, copies, hreplica⟩ := copyOpen_replica (verify_ok.mpr hp)
    (hp.referenced h.called hmem).1 hret h.gives hopen
  obtain ⟨hmodule, htaken⟩ := taken_of_ofCopy hadds.linked hregion
  have hapart := Apart.of_mem hp hnew h.rooted h.reduction
    (h.mapped ▸ List.mem_singleton_self body)
  have hknown : ∀ i, i = gemm ∨ i ∈ gemmInst.inputs → i ∈ p.body main := by
    rintro i (rfl | hi)
    · exact hgemm
    · exact (h.before_of_feeds hi).left_mem
  have hnested : Nesting p m q :=
    copyOpen_ok (hp.steady _) h.rooted (hp.toFramed.below_of_mem hgemm h.called hmem) hopen
  have hgrowing : Growing (Feeds p root gemm) p m ⟨q, region.know gemm value⟩ :=
    ⟨hmodule, hnested, fun param outer ho => h.feeds_of_mem
      (.inl (List.of_mem_zip ((Region.ofCopy_ok hregion).2 param outer ho)).2)⟩
  refine (ends_fuse_apart .inlinePointwise hp hapart hgrowing hadds
    (fun i hi => .inl (hknown i (htaken.contains_know.mp hi)))
    (fun i hi => (h.before_of_mem hi).left_mem) fun i hi => ?_).mono ?_
  · by_cases he : i = gemm
    · exact .inr (htaken.contains_know.mpr (.inl he))
    · exact .inl (h.feeds_of_mem (.inr ⟨hi, he⟩))
  rintro results w ⟨hgrowing', hadds', -, hfused⟩
  refine ⟨hgrowing', hadds', ?_, htaken.grafted hfused
    (fun i hi => hapart.disjoint (hknown i hi)) hl hadds hreplica⟩
  have hdraws := hfused.draws hadds.linked (show Draws m _ gemmInst.inputs from htaken.bound)
  rwa [htaken.unknown_eq] at hdraws

end Site

end SplitReduce

end OffloadFusion
