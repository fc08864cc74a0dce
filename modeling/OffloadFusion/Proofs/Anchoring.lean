import OffloadFusion.Proofs.Absorbing
import OffloadFusion.Proofs.HandingOver
import OffloadFusion.Proofs.Skipping

/-!
# Anchors are fused with the pointwise below them

A dot or a convolution and the pointwise that reads it, by way of views, become one call.

* `Captured.exists_chained`: the chain above the operand leads to the anchor.
* `Apart`, `Entangled`: what may feed the call does not depend on the anchor.
* `completes_steps`: the region of both is built.
* `completes_splitCall`: the pointwise and the other consumers of the anchor read the call.
* **`applies_iff_apart`**: where the body computes what it gives, the rule applies if nothing else
  that the pointwise reads depends on the anchor, and else leaves the program as it was.
-/

namespace OffloadFusion

open OffloadFusion.Action Program

/-! ## Anchors -/

theorem Op.IsAnchor.inferType_ok {op : Op} {types : List ValueType} {signatures : List Signature}
    {type : ValueType} (hop : op.IsAnchor) (h : op.inferType types signatures = .ok type) :
    ∃ a b t, types = [.tensor a, .tensor b] ∧ type = .tensor t ∧ t.Ranked ∧ ∀ a' b', a.Alike a' →
      b.Alike b' → op.inferType [.tensor a', .tensor b'] [] = .ok type := by
  have hranked : ∀ {dtype dims}, Typing.standardValue dtype dims = .ok type →
      ∃ t, type = .tensor t ∧ t.Ranked := by
    intro dtype dims hvalue
    rw [Typing.standardValue, Outcome.bind_ok] at hvalue
    obtain ⟨t, ht, hvalue⟩ := hvalue
    exact ⟨t, (Outcome.pure_ok.mp hvalue).symm,
      TensorType.ranked_standard (Outcome.lift_checked_ok.mp ht)⟩
  cases op with
  | dot quantized =>
    have h' := h
    simp only [Op.inferType, Dot.output, Outcome.bind_ok, Typing.twoTensors_ok,
      Typing.noModules_ok, Prod.exists] at h'
    obtain ⟨a, b, rfl, -, rfl, -, -, dims, -, dtype, -, hvalue⟩ := h'
    obtain ⟨t, rfl, ht⟩ := hranked hvalue
    exact ⟨a, b, t, rfl, rfl, ht, fun a' b' ha hb =>
      (Dot.output_congr quantized ha hb).symm.trans h⟩
  | conv c =>
    have h' := h
    simp only [Op.inferType, Conv.output, Outcome.bind_ok, Typing.twoTensors_ok,
      Typing.noModules_ok, Prod.exists, Outcome.ite_ok, Outcome.refuse_ok, false_and,
      exists_false, and_false, false_or] at h'
    obtain ⟨a, b, rfl, -, rfl, -, -, -, -, -, -, -, -, -, -, batch, -, features, -, extents, -,
      dtype, -, hvalue⟩ := h'
    obtain ⟨t, rfl, ht⟩ := hranked hvalue
    exact ⟨a, b, t, rfl, rfl, ht, fun a' b' ha hb => (Conv.output_congr c ha hb).symm.trans h⟩
  | _ => exact hop.elim

/-- **An anchor that feeds on the region is replayed there with its own type.** -/
theorem Building.Open.completes_anchor {S : Site} {names : List String} {w : Workspace}
    {i : InstrId} {inst : Instruction} (h : Open S names w) (hS : S.Sound)
    (hinst : S.program.instr? i = some inst) (hop : inst.op.IsAnchor)
    (hsources : ∀ x ∈ inst.inputs, S.sources x) (hnames : ∀ k : Nat, "y" ++ toString k ∉ names) :
    ∃ t, inst.type = .tensor t ∧ t.Ranked ∧ inst.inputs.length = 2 ∧
      (fuseAnchor inst.op inst.inputs).Completes w
        (Yields S (names ++ threadNames 0 inst.inputs.length) w inst.type) := by
  obtain ⟨types, signatures, htypes, -, hinfer⟩ := infer_ok.mp (hS.valid.fresh hinst)
  obtain ⟨a, b, t, rfl, htype, hranked, hanchors⟩ := hop.inferType_ok hinfer
  have hfeeds : List.Forall₂ S.Feeds inst.inputs [a, b] :=
    forall₂_imp_of_mem (List.forall₂_map_right_iff.mp htypes)
      fun x hx u hu => ⟨hsources x hx, hu⟩
  refine ⟨t, htype, hranked, htypes.length_eq, h.completes_fuseAnchor hS hop.isReturn hop.isParam
    hfeeds (fun us hus => ?_) hnames⟩
  obtain ⟨a', _, ha, hrest, rfl⟩ := List.forall₂_cons_left_iff.mp hus
  obtain ⟨b', _, hb, hnil, rfl⟩ := List.forall₂_cons_left_iff.mp hrest
  rw [List.forall₂_nil_left_iff.mp hnil]
  exact hanchors a' b' ha.alike hb.alike

namespace AnchorPointwise

variable {p q r : Program} {h : Heuristics} {i j root x anchor : InstrId} {inst : Instruction}
  {m body : ModuleId} {inputs : List InstrId} {s : Session} {found : Match} {t : TensorType}

/-! ## The chain to the anchor -/

/-- The views above `x` lead to an anchor, which stands before the root. -/
structure Chained (p : Program) (root x anchor : InstrId) (inst : Instruction)
    (chain : ReshapeChain) (ta t : TensorType) : Prop where
  walk : ReshapeChain.walk p x false = .ok chain
  within : chain.Within (· ∈ p.body main)
  instr : p.instr? anchor = some inst
  isAnchor : inst.op.IsAnchor
  type : inst.type = .tensor ta
  operand : p.HasType x (.tensor t)
  carries : ReshapeChain.Carries chain.ops.reverse ta t
  before : Before (p.body main) anchor root

theorem Captured.exists_chained (hc : Captured p h root found x anchor) (hp : p.Valid)
    (hsized : p.Sized) (hroot : root ∈ p.body main) (hx : p.HasType x (.tensor t)) :
    ∃ inst chain ta, Chained p root x anchor inst chain ta t := by
  have hl := hp.toLinked
  have hmem := hl.mem_body_of_uses hroot hc.uses
  obtain ⟨inst, hanchor, hop⟩ := hc.isAnchor
  obtain ⟨chain, hwalk, hleads⟩ := ReshapeChain.walk_total (hp.steady _)
    (fun j _ t ht => hsized.tensor ht) false hmem hx
  have hupper := upper_eq_of_skipFrom hp hc.walk hwalk
  obtain ⟨ta, ⟨inst', hanchor', htype⟩, hcarries⟩ := hleads.carries
  rw [hupper] at hanchor'
  cases hanchor.symm.trans hanchor'
  refine ⟨inst, chain, ta, hwalk, ReshapeChain.within_walk hl.mem_body_of_uses hmem hwalk, hanchor,
    hop, htype, hx, hcarries, ?_⟩
  obtain rfl | ⟨k, hbefore⟩ := hl.before_of_dependsOn ((hupper ▸ hleads.depends).tail hc.uses)
  · -- the root is a pointwise
    obtain ⟨pw, hpw, hpwOp⟩ := hc.pointwise
    cases hpw.symm.trans hanchor
    rw [hpwOp] at hop
    exact hop.elim
  · obtain ⟨pw, hpw, ho⟩ := hl.owned hroot
    rwa [← hl.owner_unique hpw hbefore.right_mem, ho] at hbefore

/-! ## What may feed the region -/

/-- The instruction stands before the root and does not depend on the anchor. -/
def Apart (p : Program) (root anchor i : InstrId) : Prop :=
  Before (p.body main) i root ∧ ¬ p.DependsOn anchor i

/-- An operand of the pointwise other than `x` depends on the anchor. -/
def Entangled (p : Program) (pw : Instruction) (x anchor : InstrId) : Prop :=
  ∃ i ∈ pw.inputs, i ≠ x ∧ p.DependsOn anchor i

theorem entangled_iff {pw : Instruction} :
    (pw.inputs.filter (· ≠ x)).any (p.reaches anchor) = true ↔ Entangled p pw x anchor := by
  simp only [List.any_eq_true, List.mem_filter, decide_eq_true_eq, reaches_iff, and_assoc]
  rfl

theorem sound_apart {threaded : InstrId → Prop} {admits : InstrId → ValueType → Prop}
    (hp : p.Valid) (hsized : p.Sized) :
    Site.Sound ⟨p, m, root, Apart p root anchor, threaded, admits⟩ := by
  refine ⟨hp, hsized, And.left, fun {i x} ⟨hbefore, hfar⟩ huses => ⟨?_, fun hdepends => ?_⟩⟩
  · exact (hp.before_of_uses hbefore.left_mem huses).trans (hp.nodup main) hbefore
  · exact hfar (hdepends.tail huses)

theorem Chained.apart {chain : ReshapeChain} {ta : TensorType}
    (hch : Chained p root x anchor inst chain ta t) (hp : p.Valid) (hi : i ∈ inst.inputs) :
    Apart p root anchor i := by
  have huses : p.Uses anchor i := ⟨inst, hch.instr, hi⟩
  have hbefore := hp.before_of_uses hch.before.left_mem huses
  refine ⟨hbefore.trans (hp.nodup main) hch.before, fun hdepends => ?_⟩
  exact hbefore.ne (hp.nodup main) (hp.dependsOn_antisymm (.single huses) hdepends)

/-- Where nothing else depends on the anchor, the other operands may feed the region. -/
theorem apart_of_not_entangled {pw : Instruction} (hp : p.Valid) (hroot : root ∈ p.body main)
    (hpw : p.instr? root = some pw) (hapart : ¬ Entangled p pw x anchor) (hi : i ∈ pw.inputs) :
    i = x ∨ Apart p root anchor i := by
  refine or_iff_not_imp_left.mpr fun hne => ⟨hp.before_of_uses hroot ⟨pw, hpw, hi⟩, fun hd => ?_⟩
  exact hapart ⟨i, hi, hne, hd⟩

/-! ## The call of both -/

theorem infer_tupleElem {ts : List TensorType} {t : TensorType} {k : Nat}
    (hi : p.HasType i (.tuple ts)) (hk : ts[k]? = some t) :
    p.infer (.tupleElem k) [i] [] = .ok (.tensor t) := by
  refine infer_ok.mpr ⟨[.tuple ts], [], .cons hi .nil, .nil, ?_⟩
  exact Op.tupleElemOutput_ok.mpr ⟨ts, t, rfl, rfl, hk, rfl⟩

section

variable {S : Site} {ta tp : TensorType} {pwInst anchorInst : Instruction} {call first : InstrId}
  {n n' : Nat} {q₁ q₂ q₃ : Program} {type type' : ValueType}

theorem not_dependsOn_first (hS : S.Sound) (hcall : Callable S type inputs q)
    (hroot : (S.program.instr? S.root).isSome) (hanchor : (S.program.instr? anchor).isSome)
    (hne : anchor ≠ S.root) (hind : ¬ S.sources anchor) (h₁ : Added q n inputs type call q₁)
    (h₂ : ∀ {j}, j ≠ S.root → SameCore q₁ q₂ j) (h₃ : Added q₂ n' [call] type' first q₃) :
    ¬ q₃.DependsOn anchor first := by
  have hkept : ∀ {j}, (S.program.instr? j).isSome → (q.instr? j).isSome := by
    intro j hj
    obtain ⟨inst, hj⟩ := Option.isSome_iff_exists.mp hj
    obtain ⟨inst', hj', -⟩ := (hcall.core hj).symm.exists_instr hj
    rw [hj']
    rfl
  have hsource : ∀ {j}, S.sources j → (S.program.instr? j).isSome ∧ j ≠ S.root := by
    intro j hj
    have hbefore := hS.before hj
    obtain ⟨inst, hinst, -⟩ := hS.valid.owned hbefore.left_mem
    exact ⟨by rw [hinst]; rfl, hbefore.ne (hS.valid.nodup main)⟩
  have hnew : ∀ {j}, (q.instr? j).isSome → j ≠ call := by
    rintro j hj rfl
    rw [h₁.gone] at hj
    cases hj
  -- other operands than those of the root stay
  have hstays : ∀ {j}, (q₁.instr? j).isSome → j ≠ S.root → SameCore q₁ q₃ j := by
    intro j hj hne
    obtain ⟨inst, hj⟩ := Option.isSome_iff_exists.mp hj
    obtain ⟨inst', hj', -⟩ := (h₂ hne).symm.exists_instr hj
    exact (h₂ hne).trans (h₃.core hj')
  have huses : ∀ {j x}, (q.instr? j).isSome → j ≠ S.root → q₃.Uses j x → q.Uses j x := by
    intro j x hj hne huse
    obtain ⟨inst, hj⟩ := Option.isSome_iff_exists.mp hj
    obtain ⟨inst', hj', -⟩ := (h₁.core hj).symm.exists_instr hj
    have hcore := (h₁.core hj).trans (hstays (by rw [hj']; rfl) hne)
    exact hcore.symm.uses huse
  intro hdepends
  have hclosed := hdepends.of_closed (C := fun j => j = first ∨ j = call ∨
    ((q.instr? j).isSome ∧ S.Supplies q j)) (fun {j x} hj huse => ?_) (.inl rfl)
  · obtain ⟨inst, hinst⟩ := Option.isSome_iff_exists.mp hanchor
    obtain rfl | rfl | ⟨-, hsource | ⟨hnone, -⟩⟩ := hclosed
    · obtain ⟨inst, hj⟩ := Option.isSome_iff_exists.mp (hkept hanchor)
      obtain ⟨inst₁, hj₁, -⟩ := (h₁.core hj).symm.exists_instr hj
      obtain ⟨inst₂, hj₂, -⟩ := (h₂ hne).symm.exists_instr hj₁
      rw [h₃.gone] at hj₂
      cases hj₂
    · exact hnew (hkept hanchor) rfl
    · exact hind hsource
    · rw [hnone] at hinst
      cases hinst
  · obtain rfl | rfl | ⟨hj, hsource' | ⟨hnone, hreads⟩⟩ := hj
    · exact .inr (.inl (List.mem_singleton.mp (h₃.reads huse)))
    · have hne : j ≠ S.root := fun he => hnew (hkept hroot) he.symm
      obtain ⟨inst, hinst, -⟩ := h₁.type
      have hx := h₁.reads ((hstays (by rw [hinst]; rfl) hne).symm.uses huse)
      obtain ⟨inst', hinst', -⟩ := hcall.advance.steady.owned (hcall.before x hx).left_mem
      exact .inr (.inr ⟨by rw [hinst']; rfl, hcall.supplies x hx⟩)
    · obtain ⟨hp, hne⟩ := hsource hsource'
      obtain ⟨inst, hinst⟩ := Option.isSome_iff_exists.mp hp
      have hx := hS.closed hsource' ((hcall.core hinst).symm.uses (huses hj hne huse))
      exact .inr (.inr ⟨hkept (hsource hx).1, .inl hx⟩)
    · have hne : j ≠ S.root := by
        rintro rfl
        rw [hnone] at hroot
        cases hroot
      have hx := hreads x (huses hj hne huse)
      exact .inr (.inr ⟨hkept (hsource hx).1, .inl hx⟩)

/-- **The anchor and the pointwise give way to a call of both.** -/
theorem completes_splitCall (hS : S.Sound) (hcall : Callable S (.tuple [ta, tp]) inputs q)
    (hpw : S.program.instr? S.root = some pwInst) (hpwType : pwInst.type = .tensor tp)
    (hpwInner : pwInst.op.isBoundary = false) (hanchor : S.program.instr? anchor = some anchorInst)
    (hanchorType : anchorInst.type = .tensor ta) (hanchorInner : anchorInst.op.isBoundary = false)
    (hbefore : Before (S.program.body main) anchor S.root) (hind : ¬ S.sources anchor)
    (hm : main ≠ S.module) (op : Op) :
    (splitCall S.root anchor op inputs S.module).Completes q fun _ r =>
      ∃ t, Advance S.program t ∧ Trim (some main) t r ∧ r.Spent S.root := by
  have hl := hS.valid.toLinked
  have hroot := hbefore.right_mem
  have hne := hbefore.ne (hS.valid.nodup main)
  have hcalled : (splitCall S.root anchor op inputs S.module).Completes q fun _ _ => True := by
    obtain ⟨call, q₁, hok₁, ⟨n₁, h₁⟩, hcallBefore⟩ := Edit.completes_insertBefore
      hcall.advance.steady (hcall.advance.mem_body hl hroot) rfl
      (fun hmem => hm (List.mem_singleton.mp hmem)) hcall.before (hcall.infer op)
    have hpw₁ : q₁.HasType S.root (.tensor tp) :=
      h₁.hasType ((hcall.core hpw).hasType ⟨pwInst, hpw, hpwType⟩)
    have hanchor₁ : q₁.HasType anchor (.tensor ta) :=
      h₁.hasType ((hcall.core hanchor).hasType ⟨anchorInst, hanchor, hanchorType⟩)
    have hcallNe := hcallBefore.ne (h₁.steady.nodup main)
    obtain ⟨_, q₂, hok₂, hbody₂, h₂, -⟩ := Edit.completes_replaceWith h₁.steady.toLinked
      hcallBefore.right_mem hpw₁ (fun x hx => List.mem_singleton.mp hx ▸ hcallBefore)
      (infer_tupleElem (k := 1) h₁.type rfl)
    have a₁ := hcall.advance.trans h₁.toAdvance
    have a₂ := a₁.trans (a₁.replaceWith hl hroot hpw hpwInner rfl List.not_mem_nil hok₂).toAdvance
    have hcallType := (h₂ hcallNe).hasType h₁.type
    obtain ⟨first, q₃, hok₃, ⟨n₃, h₃⟩, hfirst⟩ := Edit.completes_insertBefore a₂.steady
      (hbody₂ ▸ hcallBefore.right_mem) rfl List.not_mem_nil
      (fun x hx => hbody₂ ▸ List.mem_singleton.mp hx ▸ hcallBefore)
      (infer_tupleElem (k := 0) hcallType rfl)
    have a₃ := a₂.trans h₃.toAdvance
    rw [splitCall, completes_bind]
    refine ⟨call, q₁, hok₁, completes_bind.mpr ⟨_, q₂, hok₂, completes_bind.mpr
      ⟨first, q₃, hok₃, ?_⟩⟩⟩
    exact a₃.steady.completes_handOver (a₃.mem_body hl hbefore.left_mem)
      (fun hq => a₃.isBoundary hanchor hanchorInner hq) hfirst
      (not_dependsOn_first hS hcall (by rw [hpw]; rfl) (by rw [hanchor]; rfl) hne hind h₁ h₂ h₃)
      (h₃.hasType ((h₂ hne).hasType hanchor₁)) h₃.type
  obtain ⟨u, r, hok, -⟩ := hcalled
  exact ⟨u, r, hok, (splitCall_ok hl hcall.advance hroot hbefore.left_mem hpw hanchor
    hpwInner hanchorInner hm hok).1⟩

end

/-! ## The region of both -/

section

variable {G : Grid} {pwInst anchorInst : Instruction} {r ta : TensorType}
  {w : Workspace} {chain : ReshapeChain}

/-- **The region of an anchor with the pointwise below it is built.** -/
theorem completes_steps (multi : Bool) (hmap : Pointwise p pwInst body G r)
    (hS : (G.site p m root (Apart p root anchor)).Sound)
    (hopen : Building.Open (G.site p m root (Apart p root anchor)) [] w)
    (hbody : body ≠ m) (helem : p.Elementwise body) (hdims : 1 ≤ G.dims.length)
    (hlax : ∀ i, p.hasOp Op.isBoundary i ∨ i = x → G.lax i)
    (hgives : ∀ i, p.given? body = some i → ¬ G.lax i) (hroot : root ∈ p.body main)
    (hpw : p.instr? root = some pwInst) (huses : x ∈ pwInst.inputs)
    (hapart : ¬ Entangled p pwInst x anchor)
    (hch : Chained p root x anchor anchorInst chain ta t) :
    (do
      let anchorValue ← Building.fuseAnchor anchorInst.op anchorInst.inputs
      Building.rehomeLiterals body G.dims
      let xValue ← chain.replay m anchorValue
      Building.know x xValue
      let fused ← Building.fuse body pwInst.inputs .plain
      return if multi then anchorValue :: fused else fused : Building (List InstrId)).Completes w
        (Building.Returns (G.site p m root (Apart p root anchor))
          (if multi then [ta, G.tensor r.dtype] else [G.tensor r.dtype])) := by
  have hp : p.Valid := hS.valid
  obtain ⟨_, he, hranked, hlength, hanchored⟩ := hopen.completes_anchor hS hch.instr hch.isAnchor
    (fun i hi => hch.apart hp hi) fun k => List.not_mem_nil
  rw [hch.type] at he hanchored
  cases he
  rw [completes_bind]
  refine hanchored.mono fun anchorValue w₁ h₁ => ?_
  rw [completes_bind]
  obtain ⟨params, hsig⟩ := hmap.signature
  obtain ⟨module, hmodule, -⟩ := signature_ok.mp hsig
  have hliteral : ∀ i ∈ p.body body, p.hasOp Op.isLiteral i → G.lax i := fun i _ hi =>
    hlax i (.inl (by rw [p.hasOp_isBoundary, hi, Bool.or_true, Bool.true_or]))
  refine (Grid.completes_rehomeLiterals hp hbody helem (by rw [hmodule]; rfl) hdims
    hliteral h₁.isOpen).mono fun _ w₂ ⟨h₂, hlater₂, hknown₂⟩ => ?_
  obtain ⟨u, hstack, hu⟩ := hch.carries ta ⟨.refl ta, hranked⟩
  rw [completes_bind]
  refine (h₂.completes_replay (hlater₂.fills.held h₁.held) hstack).mono fun xValue w₃ h₃ => ?_
  have hadmits : G.Admits p x u := by
    obtain ⟨_, -, _, t', -, ht', hover⟩ := forall₂_exists hmap.operands.flip huses
    cases hasType_unique ht' hch.operand
    refine ⟨⟨t, hch.operand, hu.alike.1.symm, hu.alike.2.symm.trans hover.2⟩, ?_, fun hnot =>
      absurd (hlax x (.inr rfl)) hnot⟩
    exact hp.isReturn_of_before (hp.before_of_uses hroot ⟨pwInst, hpw, huses⟩)
  rw [completes_bind]
  refine (Grid.completes_know h₃.isOpen hadmits h₃.held).mono fun _ w₄ ⟨h₄, hlater₄, hknows⟩ => ?_
  have hparams : List.Forall₂ (fun param input => G.lax input → G.lax param) (p.parameters body)
      pwInst.inputs := by
    obtain ⟨hlen, -⟩ := List.forall₂_iff_zip.mp hmap.operands
    refine List.forall₂_iff_zip.mpr ⟨hlen, fun {param input} hmem _ => hlax param (.inl ?_)⟩
    rw [p.hasOp_isBoundary, (List.mem_filter.mp (List.of_mem_zip hmem).1).2, Bool.true_or,
      Bool.true_or]
  rw [completes_bind]
  refine (hmap.completes_fuse hS h₄ hbody helem (fun i hi =>
    (apart_of_not_entangled hp hroot hpw hapart hi).imp_left ?_) hparams
    fun i hi hop => hlater₄.known i (h₃.later.known i (hknown₂ i hi hop))).mono fun values w₅ => ?_
  · rintro rfl
    exact hknows
  rintro ⟨value, v, more, rfl, hlen, hover, hsame, h₅⟩
  have hsame := hmap.type.symm.trans (hsame hgives)
  cases hsame
  have hheld := (((hlater₂.trans h₃.later).trans hlater₄).trans h₅.later).fills.held h₁.held
  have hnames : ([] ++ Building.Open.threadNames 0 anchorInst.inputs.length ++ more).length =
      2 + more.length := by
    rw [hlength, List.length_append]
    rfl
  have hoperands := hS.sized.operands hpw
  have hlimit : 10 < Checked.sizeLimit := by decide
  have hvalues : 1 ≤ (if multi then [anchorValue, value] else [value]).length ∧
      (if multi then [anchorValue, value] else [value]).length ≤ 2 := by
    cases multi <;> simp
  rw [completes_pure]
  refine ⟨⟨_, h₅.isOpen, Interval.contains_atLeast ?_ ?_⟩,
    Interval.contains_atLeast hvalues.1 (by omega), ?_⟩
  · omega
  · omega
  · cases multi with
    | false => exact .cons h₅.held .nil
    | true => exact .cons hheld (.cons h₅.held .nil)

end

/-! ## The rule -/

theorem anyShared_total {is : List InstrId} (hl : p.Linked) (his : ∀ i ∈ is, i ∈ p.body m) :
    ∃ shared, anyShared p is = .ok shared := by
  induction is with
  | nil => exact ⟨false, rfl⟩
  | cons i is ih =>
    obtain ⟨hi, hrest⟩ := List.forall_mem_cons.mp his
    obtain ⟨inst, hinst, -⟩ := hl.owned hi
    obtain ⟨shared, hshared⟩ := ih hrest
    rw [anyShared]
    by_cases hmany : inst.consumers.length > 1
    · exact ⟨true, Outcome.bind_ok.mpr ⟨inst, instr_ok.mpr hinst, by rw [if_pos hmany]; rfl⟩⟩
    · refine ⟨shared, Outcome.bind_ok.mpr ⟨inst, instr_ok.mpr hinst, ?_⟩⟩
      rw [if_neg hmany]
      exact hshared

theorem completes_apply {pwInst : Instruction} (hp : s.program.Valid) (hfree : s.program.Free main)
    (hsized : s.program.Sized) (hindexed : s.program.Indexed)
    (hcounter : s.counter + s.program.modules.count + 1 < Checked.sizeLimit)
    (hroot : root ∈ s.program.body main) (hc : Captured s.program h root found x anchor)
    (hpw : s.program.instr? root = some pwInst)
    (hrank : ∀ t, pwInst.type = .tensor t → 1 ≤ t.shape.length)
    (helem : ∀ body ∈ pwInst.modules, s.program.Elementwise body)
    (hgives : ∀ body ∈ pwInst.modules, ∀ i, s.program.given? body = some i →
      s.program.hasOp Op.isBoundary i = false) :
    (apply found).Completes s fun applied _ =>
      applied = true ↔ ¬ Entangled s.program pwInst x anchor := by
  obtain rfl := hc.atRoot
  have hl := hp.toLinked
  obtain ⟨pwInst', hpw', hop⟩ := hc.pointwise
  cases hpw.symm.trans hpw'
  have hinner : pwInst.op.isBoundary = false := by rw [hop]; rfl
  obtain ⟨body, G, r, hlax, hmap⟩ := pointwise_of_valid hp hpw hop fun _ i =>
    s.program.hasOp Op.isBoundary i ∨ i = x
  rw [hmap.modules, List.forall_mem_singleton] at helem hgives
  have huses : x ∈ pwInst.inputs := by
    obtain ⟨_, hi, hx⟩ := hc.uses
    cases hpw.symm.trans hi
    exact hx
  have hxMem := hl.mem_body_of_uses hroot hc.uses
  obtain ⟨_, -, _, t, -, hx, -⟩ := forall₂_exists hmap.operands.flip huses
  obtain ⟨anchorInst, chain, ta, hch⟩ := hc.exists_chained hp hsized hroot hx
  have hmain : body ≠ main := fun he =>
    hfree _ _ hpw (he ▸ hmap.modules ▸ List.mem_singleton_self body)
  have hgives' : ∀ i, s.program.given? body = some i → ¬ G.lax i := by
    intro i hi
    rw [hlax]
    rintro (hboundary | rfl)
    · rw [hgives i hi] at hboundary
      cases hboundary
    · obtain ⟨inst, hinst, ho⟩ := hl.owned hxMem
      have hmem := (hp.returned_inner (List.mem_of_head? (given?_eq_head? .. ▸ hi))).1
      exact hmain ((hl.owner_unique hinst hmem).symm.trans ho)
  obtain ⟨params, hsig⟩ := hmap.signature
  obtain ⟨module, hmodule, -⟩ := signature_ok.mp hsig
  rw [apply, completes_bind]
  refine (completes_lift hc.source).mpr ?_
  rw [completes_bind]
  refine (completes_lift hc.operand).mpr ?_
  rw [completes_theProgram_bind, completes_bind]
  refine (completes_lift_checked (instr_ok.mpr hpw)).mpr ?_
  dsimp only
  split
  · next hentangled =>
    rw [completes_pure]
    exact iff_of_false Bool.false_ne_true (not_not.mpr (entangled_iff.mp hentangled))
  · next hfar =>
    have hapart : ¬ Entangled s.program pwInst x anchor := fun he => hfar (entangled_iff.mpr he)
    rw [hmap.modules]
    obtain ⟨multi, hmulti⟩ := anyShared_total hl (m := main)
      (List.forall_mem_cons.mpr ⟨hch.before.left_mem, hch.within.nodes⟩)
    rw [completes_bind]
    refine (completes_lift_checked hch.walk).mpr ?_
    rw [completes_bind]
    refine (completes_lift_checked (instr_ok.mpr hch.instr)).mpr ?_
    rw [completes_bind]
    refine (completes_lift_checked hmulti).mpr ?_
    rw [completes_bind]
    refine (completes_lift_graph (tensorOf_ok.mpr ⟨pwInst, hpw, hmap.type⟩)).mpr ?_
    rw [completes_bind]
    refine (completes_lift_checked (module_ok.mpr hmodule)).mpr ?_
    have hS : ∀ m, (G.site s.program m found.root (Apart s.program found.root anchor)).Sound :=
      fun m => sound_apart hp hsized
    have hname := Fusing.completes_uniqueName hindexed hcounter ("offload_" ++ module.name)
    refine completesIff_true.mp (Fusing.completesIff_region _
      (if multi then [ta, G.tensor r.dtype] else [G.tensor r.dtype]) (fun _ => ⟨rfl, rfl⟩) hS
      (fun _ => hroot) hname (fun m w hw => completesIff_true.mpr ?_)
      fun m inputs t' hm hcall => ?_)
    · have hbody : body ≠ m := hw.ne_module hmodule
      exact completes_steps multi hmap (hS m) hw hbody helem (hrank _ hmap.type)
        (fun i hi => hlax ▸ hi) hgives' hroot hpw huses hapart hch
    · have hrelease : ∀ t : Session, Kept s.program t.program → (do
          Edit.releaseModule body
          return true : Fusing Bool).Completes t fun applied _ =>
            applied = true ↔ ¬ Entangled s.program pwInst x anchor := by
        refine fun t ht => Fusing.completes_release ht fun t _ => ?_
        rw [completes_pure]
        exact iff_of_true rfl hapart
      have hinputs : ∀ i ∈ anchorInst.inputs, i ∈ s.program.body main := fun i hi =>
        hl.mem_body_of_uses hch.before.left_mem ⟨anchorInst, hch.instr, hi⟩
      cases multi with
      | true =>
        rw [if_pos rfl, completes_bind, completes_edit]
        refine (completes_splitCall (S := G.site s.program m found.root _) (hS m) hcall hpw
          hmap.type hinner hch.instr hch.type hch.isAnchor.isBoundary hch.before
          (fun h => h.2 .refl) hm anchorInst.op).mono ?_
        rintro _ q ⟨t, hadvance, htrim, -⟩
        refine Fusing.completes_prune (hp.steady _) hadvance htrim (fun i hi => ?_) hrelease
        obtain hi | hi := List.mem_append.mp hi
        · exact hch.within.nodes i hi
        · exact hinputs i hi
      | false =>
        refine Fusing.completes_call (S := G.site s.program m found.root _) (hmap.type ▸ hcall)
          (hS m) hroot hpw hinner hm (fun i hi => ?_) hrelease
        exact List.mem_singleton.mp hi ▸ hxMem

/-- **An anchor is fused with the pointwise below it exactly where nothing else that the pointwise
reads depends on the anchor**, and else the program stays as it was. The body has to compute what it
gives: a parameter that it gives may have another layout than the pointwise had, which a later call
need not take. -/
theorem applies_iff_apart (p : Program) (hv : p.verify = .ok ())
    (hfree : ∀ i inst, p.instr? i = some inst → main ∉ inst.modules) (hsized : p.Sized)
    (hindexed : p.Indexed) (convMode dotMode : Mode) (h : Heuristics) (counter : Nat)
    (hcounter : counter + p.modules.count + 1 < Checked.sizeLimit)
    (root : InstrId) (found : Match) (pw : Instruction) (hroot : root ∈ p.body main)
    (hmatch : (Rule.anchorPointwise convMode dotMode).matcher.run p h root = .ok (some found))
    (hpw : p.instr? root = some pw) (hrank : ∀ t, pw.type = .tensor t → 1 ≤ t.shape.length)
    (hbodies : ∀ body ∈ pw.modules, p.Elementwise body ∧
      ∀ i, p.given? body = some i → p.hasOp Op.isBoundary i = false) :
    ∃ x anchor, found.get "x" = .ok x ∧ found.get "anchor" = .ok anchor ∧
      (Entangled p pw x anchor →
        (Rule.anchorPointwise convMode dotMode).apply found ⟨p, counter⟩ =
          .ok false ⟨p, counter⟩) ∧
      (¬ Entangled p pw x anchor →
        ∃ t, (Rule.anchorPointwise convMode dotMode).apply found ⟨p, counter⟩ = .ok true t) := by
  have hp := verify_ok.mp hv
  obtain ⟨x, anchor, hc⟩ := exists_captured hmatch
  have hends := (Rule.anchorPointwise convMode dotMode).ends_apply (s := ⟨p, counter⟩)
    (hp.steady _) hroot hmatch
  obtain ⟨applied, t, hok, hiff, happlied⟩ := (completes_apply (s := ⟨p, counter⟩) hp hfree hsized
    hindexed hcounter hroot hc hpw hrank (fun body hmem => (hbodies body hmem).1)
    fun body hmem => (hbodies body hmem).2).and_ends hends
  have hok : (Rule.anchorPointwise convMode dotMode).apply found ⟨p, counter⟩ = .ok applied t := hok
  refine ⟨x, anchor, hc.operand, hc.source, fun hentangled => ?_, fun hapart => ?_⟩
  · obtain rfl : applied = false := by
      rw [← Bool.not_eq_true]
      exact fun he => hiff.mp he hentangled
    rw [hok, happlied.declined rfl]
  · rw [hiff.mpr hapart] at hok
    exact ⟨t, hok⟩

/-- A dot, transposed into a pointwise whose body gives what it computes or its parameter; the first
rows of the result go to a call. -/
def turned (computes : Bool) : Program :=
  (do
    let body ← Edit.createModule "f"
    let x ← Edit.addParameter body "x0" ⟨.f32, [1], [1]⟩
    let y ← Edit.addInstruction body (.unary .relu) [x] []
    let _ ← Edit.addReturn body [if computes then y else x]
    let region ← Edit.createModule "g"
    let y₀ ← Edit.addParameter region "y0" ⟨.f32, [2, 4], [4, 1]⟩
    let y₁ ← Edit.addParameter region "y1" ⟨.f32, [2, 4], [4, 1]⟩
    let sum ← Edit.addInstruction region (.binary .add) [y₀, y₁] []
    let _ ← Edit.addReturn region [sum]
    let a ← Edit.addParameter main "a" ⟨.f32, [4, 4], [4, 1]⟩
    let b ← Edit.addParameter main "b" ⟨.f32, [4, 4], [4, 1]⟩
    let c ← Edit.addParameter main "c" ⟨.f32, [2, 4], [4, 1]⟩
    let product ← Edit.addInstruction main (.dot false) [a, b] []
    let transposed ← Edit.addInstruction main (.reindex (.transpose [1, 0])) [product] []
    let mapped ← Edit.addInstruction main .pointwise [transposed] [body]
    let rows ← Edit.addInstruction main (.reindex (.slice [0] [0] [2])) [mapped] []
    let call ← Edit.addInstruction main (.offload (.dot false)) [rows, c] [region]
    let _ ← Edit.addReturn main [call] : Edit Unit).after .empty

/-- Where the body computes its value, the rule applies. -/
theorem applies_at_computed : (turned true).verify = .ok () ∧
    ∃ t, (Rule.anchorPointwise .fast .fast).apply ⟨⟨12⟩, [("anchor", ⟨10⟩), ("x", ⟨11⟩)]⟩
      ⟨turned true, 0⟩ = .ok true t := by
  have hv : (turned true).verify = .ok () := by decide +kernel
  have hfree : ∀ i inst, (turned true).instr? i = some inst → main ∉ inst.modules := by
    intro i inst hi
    have hall : ∀ entry ∈ (turned true).instructions.entries, main ∉ entry.2.modules := by
      decide +kernel
    exact hall (i.index, inst) (Arena.mem_entries.mpr hi)
  have hsized : (turned true).Sized := by decide +kernel
  have hindexed : (turned true).Indexed :=
    Indexed.of_entries (by decide +kernel) (by decide +kernel)
  have hfacts : ∀ pw ∈ (turned true).instr? ⟨12⟩, pw.inputs = [⟨11⟩] ∧
      (∀ t ∈ pw.type.elements, 1 ≤ t.shape.length) ∧ ∀ body ∈ pw.modules,
        (turned true).Elementwise body ∧
          ∀ i ∈ (turned true).given? body, (turned true).hasOp Op.isBoundary i = false := by
    decide +kernel
  obtain ⟨pw, hpw⟩ : ∃ pw, (turned true).instr? ⟨12⟩ = some pw :=
    Option.isSome_iff_exists.mp (by decide +kernel)
  obtain ⟨hinputs, hrank, hbodies⟩ := hfacts pw hpw
  obtain ⟨x, anchor, hx, -, -, happlies⟩ := applies_iff_apart (turned true) hv hfree hsized hindexed
    .fast .fast .default 0 (by decide +kernel) ⟨12⟩ ⟨⟨12⟩, [("anchor", ⟨10⟩), ("x", ⟨11⟩)]⟩ pw
    (by decide +kernel) (by decide +kernel) hpw
    (fun t ht => hrank t (ht ▸ List.mem_singleton_self t)) hbodies
  have heleven : Match.get ⟨⟨12⟩, [("anchor", ⟨10⟩), ("x", ⟨11⟩)]⟩ "x" = .ok ⟨11⟩ := by
    decide +kernel
  obtain rfl : x = ⟨11⟩ := Except.ok.inj (hx.symm.trans heleven)
  refine ⟨hv, happlies ?_⟩
  rintro ⟨i, hi, hne, -⟩
  rw [hinputs] at hi
  exact hne (List.mem_singleton.mp hi)

/-- Where the body gives its parameter, the program verifies and the pointwise matches, but the
later call stops the rule. -/
theorem stops_at_parameter :
    (turned false).verify = .ok () ∧ (turned false).Sized ∧
      (Rule.anchorPointwise .fast .fast).matcher.run (turned false) .default ⟨12⟩ =
        .ok (some ⟨⟨12⟩, [("anchor", ⟨10⟩), ("x", ⟨11⟩)]⟩) ∧
      ∀ applied t, (Rule.anchorPointwise .fast .fast).apply
        ⟨⟨12⟩, [("anchor", ⟨10⟩), ("x", ⟨11⟩)]⟩ ⟨turned false, 0⟩ ≠ .ok applied t := by
  refine ⟨by decide +kernel, by decide +kernel, by decide +kernel, fun applied t h => ?_⟩
  have hstops : (match (Rule.anchorPointwise .fast .fast).apply
      ⟨⟨12⟩, [("anchor", ⟨10⟩), ("x", ⟨11⟩)]⟩ ⟨turned false, 0⟩ with
      | .ok _ _ => false
      | .error _ _ => true) = true := by decide +kernel
  rw [h] at hstops
  cases hstops

end AnchorPointwise

end OffloadFusion
