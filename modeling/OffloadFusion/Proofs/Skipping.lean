import OffloadFusion.Proofs.Chains
import OffloadFusion.Proofs.Matches
import OffloadFusion.Rule.Basic

/-!
# The walk of a matcher and the walk of a chain

The expression `skip` follows single operands by the names of their operations, and a `ReshapeChain`
follows views by what they do. From the operand that the matcher of `AnchorPointwise` captures,
**both end at the captured anchor and go over the same instructions**
(`AnchorPointwise.walk_agrees`).

* `Matcher.Passes`: what a walk of a matcher goes over, whatever it follows (`skipFrom_ok`).
* `ReshapeChain.walkFrom_of_walked`: views on top of each other are walked to their end.
* `AnchorPointwise.walked_of_passes`: what passes the names of the views is a chain of views.
-/

namespace OffloadFusion

open Program

variable {p : Program} {h : Heuristics} {i j : InstrId} {fuel : Nat}

/-! ## What a matcher goes over -/

namespace Matcher

/-- From `i` upwards, instructions with one operand that are followed `along` lead to `j`, which is
not followed or has another number of operands. -/
inductive Passes (p : Program) (along : InstrId → Checked Bool) :
    InstrId → List InstrId → InstrId → Prop
  | stop {i : InstrId} {inst : Instruction} (here : p.instr? i = some inst)
    (stops : ∀ above, inst.inputs = [above] → along i = .ok false) : Passes p along i [] i
  | step {i above j : InstrId} {inst : Instruction} {passed : List InstrId}
    (here : p.instr? i = some inst) (reads : inst.inputs = [above]) (follows : along i = .ok true)
    (rest : Passes p along above passed j) : Passes p along i (i :: passed) j

variable {along : InstrId → Checked Bool} {passed : List InstrId}

theorem Passes.unique {passed' : List InstrId} {j' : InstrId} (h : Passes p along i passed j)
    (h' : Passes p along i passed' j') : passed' = passed ∧ j' = j := by
  induction h generalizing passed' j' with
  | stop here stops =>
    cases h' with
    | stop => exact ⟨rfl, rfl⟩
    | step here' reads follows =>
      cases here.symm.trans here'
      cases (stops _ reads).symm.trans follows
  | step here reads follows _ ih =>
    cases h' with
    | stop here' stops =>
      cases here.symm.trans here'
      cases (stops _ reads).symm.trans follows
    | step here' reads' _ rest' =>
      cases here.symm.trans here'
      cases reads.symm.trans reads'
      obtain ⟨rfl, rfl⟩ := ih rest'
      exact ⟨rfl, rfl⟩

theorem skipFrom_ok : skipFrom p along fuel i = .ok j ↔
    ∃ passed, Passes p along i passed j ∧ passed.length < fuel := by
  constructor
  · intro hok
    induction fuel generalizing i with
    | zero => cases hok
    | succ fuel ih =>
      rw [skipFrom, Outcome.bind_ok] at hok
      obtain ⟨inst, hi, hok⟩ := hok
      rw [instr_ok] at hi
      split at hok
      · next above reads =>
        rw [Outcome.bind_ok] at hok
        obtain ⟨follows, halong, hok⟩ := hok
        cases follows with
        | true =>
          obtain ⟨passed, hpasses, hlt⟩ := ih hok
          exact ⟨i :: passed, .step hi reads halong hpasses, Nat.succ_lt_succ hlt⟩
        | false =>
          cases hok
          exact ⟨[], .stop hi fun _ _ => halong, Nat.zero_lt_succ fuel⟩
      · next hnot =>
        cases hok
        exact ⟨[], .stop hi fun above reads => absurd reads (hnot above), Nat.zero_lt_succ fuel⟩
  · rintro ⟨passed, hpasses, hlt⟩
    induction hpasses generalizing fuel with
    | stop here stops =>
      obtain ⟨fuel, rfl⟩ := Nat.exists_eq_add_one_of_ne_zero (Nat.ne_zero_of_lt hlt)
      rw [skipFrom, Outcome.bind_ok]
      refine ⟨_, instr_ok.mpr here, ?_⟩
      split
      · next above reads =>
        rw [stops above reads]
        rfl
      · rfl
    | step here reads follows _ ih =>
      obtain ⟨fuel, rfl⟩ := Nat.exists_eq_add_one_of_ne_zero (Nat.ne_zero_of_lt hlt)
      rw [skipFrom, Outcome.bind_ok]
      refine ⟨_, instr_ok.mpr here, ?_⟩
      rw [reads]
      dsimp only
      rw [follows]
      exact ih (Nat.lt_of_succ_lt_succ hlt)

end Matcher

/-! ## What a chain goes over -/

theorem ReshapeChain.walkFrom_of_walked {throughSlice : Bool} {upper : InstrId}
    {nodes nodes' : List InstrId} {ops ops' : List Op} (h : p.Walked throughSlice i nodes ops upper)
    (hlt : nodes.length < fuel) : walkFrom p throughSlice fuel i nodes' ops' =
      .ok ⟨upper, nodes' ++ nodes, ops' ++ ops⟩ := by
  induction h generalizing fuel nodes' ops' with
  | stop here stops =>
    obtain ⟨fuel, rfl⟩ := Nat.exists_eq_add_one_of_ne_zero (Nat.ne_zero_of_lt hlt)
    rw [walkFrom, List.append_nil, List.append_nil]
    split
    · rfl
    · next view hview =>
      obtain ⟨here', hop⟩ := viewAt_eq_some.mp hview
      cases here.symm.trans here'
      obtain ⟨hslice, rfl⟩ := stops view hop
      rw [hslice]
      rfl
  | @step i x upper inst view nodes ops here isView walks reads _ ih =>
    obtain ⟨fuel, rfl⟩ := Nat.exists_eq_add_one_of_ne_zero (Nat.ne_zero_of_lt hlt)
    have hgoes : ¬ (view.isSlice && !throughSlice) = true := by
      rw [Bool.and_eq_true, Bool.not_eq_true', not_and, Bool.not_eq_false]
      exact walks
    rw [walkFrom, viewAt_eq_some.mpr ⟨here, isView⟩]
    dsimp only
    rw [if_neg hgoes, reads]
    refine (ih (Nat.lt_of_succ_lt_succ hlt)).trans ?_
    rw [List.append_assoc, List.append_assoc]
    rfl

/-! ## Anchors -/

namespace AnchorPointwise

variable {inst : Instruction} {passed : List InstrId}

theorem mem_viewNames {op : Op} :
    op.name ∈ viewNames ↔ ∃ view, op = .reindex view ∧ view.isSlice = false := by
  cases op with
  | reindex view => cases view <;> simp [Op.name, Reindex.name, Reindex.isSlice, viewNames]
  | unary f => cases f <;> simp [Op.name, UnaryOp.name, viewNames]
  | binary f => cases f <;> simp [Op.name, BinaryOp.name, viewNames]
  | reduce f axes => cases f <;> simp [Op.name, ReduceOp.name, viewNames]
  | dot quantized => cases quantized <;> simp [Op.name, viewNames]
  | conv c => simp only [Op.name, Conv.name]; split <;> simp [viewNames]
  | _ => simp [Op.name, viewNames]

theorem along_viewNames (hi : p.instr? i = some inst) :
    Matcher.along p h (.named viewNames) i = .ok (viewNames.contains inst.name) := by
  rw [Matcher.along, Matcher.eval, hi]
  dsimp only
  split <;> simp_all

theorem walked_of_passes (hp : p.Valid)
    (hpasses : Matcher.Passes p (Matcher.along p h (.named viewNames)) i passed j) :
    ∃ ops, p.Walked false i passed ops j := by
  induction hpasses with
  | @stop i inst here stops =>
    refine ⟨[], .stop here fun view hop => ⟨?_, rfl⟩⟩
    -- another view would have one operand and one of the names
    obtain ⟨x, _, _, reads, -⟩ := ReshapeChain.operand_of_infer hop (hp.fresh here)
    have hname := (along_viewNames here).symm.trans (stops x reads)
    rw [← Bool.not_eq_false]
    intro hslice
    have hmem : inst.name ∈ viewNames := mem_viewNames.mpr ⟨view, hop, hslice⟩
    rw [List.contains_iff_mem.mpr hmem] at hname
    cases hname
  | @step i above j inst passed here reads follows _ ih =>
    obtain ⟨ops, hwalked⟩ := ih
    have hname := Except.ok.inj ((along_viewNames here).symm.trans follows)
    obtain ⟨view, hop, hslice⟩ := mem_viewNames.mp (List.contains_iff_mem.mp hname)
    refine ⟨_, .step here hop (fun hyes => ?_) reads hwalked⟩
    rw [hslice] at hyes
    cases hyes

/-- Where a walk by the names of the views ends, so does the walk of the chain. -/
theorem exists_walk_of_skipFrom (hp : p.Valid)
    (hskip : Matcher.skipFrom p (Matcher.along p h (.named viewNames)) (p.size + 1) i = .ok j) :
    ∃ chain, ReshapeChain.walk p i false = .ok chain ∧ chain.upper = j ∧
      Matcher.Passes p (Matcher.along p h (.named viewNames)) i chain.nodes j := by
  obtain ⟨passed, hpasses, hlt⟩ := Matcher.skipFrom_ok.mp hskip
  obtain ⟨ops, hwalked⟩ := walked_of_passes hp hpasses
  exact ⟨_, ReshapeChain.walkFrom_of_walked hwalked hlt, rfl, hpasses⟩

/-- **The walk of the matcher and that of the chain end at the same instruction.** -/
theorem upper_eq_of_skipFrom (hp : p.Valid) {chain : ReshapeChain}
    (hskip : Matcher.skipFrom p (Matcher.along p h (.named viewNames)) (p.size + 1) i = .ok j)
    (hwalk : ReshapeChain.walk p i false = .ok chain) : chain.upper = j := by
  obtain ⟨_, hwalk', rfl, -⟩ := exists_walk_of_skipFrom hp hskip
  cases hwalk.symm.trans hwalk'
  rfl

/-- **At a match, matcher and chain agree.** The captures are an operand of the root and a dot or a
convolution, and none is left from an operand that did not match. From the operand, the chain ends
at the captured anchor, and it consists of what the matcher went over. -/
theorem walk_agrees (hverify : p.verify = .ok ()) (convMode dotMode : Mode) {root : InstrId}
    {found : Match} (hok : (Rule.anchorPointwise convMode dotMode).matcher.run p h root =
      .ok (some found)) :
    ∃ x anchor chain, found = ⟨root, [("anchor", anchor), ("x", x)]⟩ ∧
      found.get "x" = .ok x ∧ found.get "anchor" = .ok anchor ∧ p.Uses root x ∧
      (∃ inst, p.instr? anchor = some inst ∧ inst.op.IsAnchor) ∧
      Matcher.skipFrom p (Matcher.along p h (.named viewNames)) (p.size + 1) x = .ok anchor ∧
      ReshapeChain.walk p x false = .ok chain ∧ chain.upper = anchor ∧
      ∀ passed, Matcher.Passes p (Matcher.along p h (.named viewNames)) x passed anchor ↔
        passed = chain.nodes := by
  obtain ⟨x, anchor, hc⟩ := exists_captured hok
  obtain ⟨chain, hwalk, hupper, hpasses⟩ := exists_walk_of_skipFrom (verify_ok.mp hverify) hc.walk
  refine ⟨x, anchor, chain, ?_, hc.operand, hc.source, hc.uses, hc.isAnchor, hc.walk, hwalk, hupper,
    fun passed => ⟨fun h => (hpasses.unique h).1, fun he => he ▸ hpasses⟩⟩
  rw [← hc.atRoot, ← hc.captures]

/-- A pointwise on a transposed parameter and on a dot behind two views. -/
def sided : Program :=
  (do
    let body ← Edit.createModule "f"
    let x ← Edit.addParameter body "x0" ⟨.f32, [2, 2], [2, 1]⟩
    let y ← Edit.addParameter body "x1" ⟨.f32, [2, 2], [2, 1]⟩
    let sum ← Edit.addInstruction body (.binary .add) [x, y] []
    let _ ← Edit.addReturn body [sum]
    let a ← Edit.addParameter main "a" ⟨.f32, [2, 2], [2, 1]⟩
    let b ← Edit.addParameter main "b" ⟨.f32, [2, 2], [2, 1]⟩
    let transposed ← Edit.addInstruction main (.reindex (.transpose [1, 0])) [a] []
    let product ← Edit.addInstruction main (.dot false) [a, b] []
    let flat ← Edit.addInstruction main (.reindex (.flatten 1)) [product] []
    let square ← Edit.addInstruction main (.reindex .contiguous) [flat] []
    let _ ← Edit.addInstruction main .pointwise [transposed, square] [body] : Edit Unit).after
    .empty

/-- The first operand leads by a view to a parameter, which is no anchor. The second one leads to
the dot, over both views. -/
theorem walk_agrees_sided : sided.verify = .ok () ∧
    (Rule.anchorPointwise .fast .fast).matcher.run sided .default ⟨10⟩ =
      .ok (some ⟨⟨10⟩, [("anchor", ⟨7⟩), ("x", ⟨9⟩)]⟩) ∧
    ∃ chain, ReshapeChain.walk sided ⟨9⟩ false = .ok chain ∧ chain.upper = ⟨7⟩ ∧
      chain.nodes = [⟨9⟩, ⟨8⟩] := by
  have hverify : sided.verify = .ok () := by decide +kernel
  have hmatch : (Rule.anchorPointwise .fast .fast).matcher.run sided .default ⟨10⟩ =
      .ok (some ⟨⟨10⟩, [("anchor", ⟨7⟩), ("x", ⟨9⟩)]⟩) := by decide +kernel
  obtain ⟨x, anchor, chain, hfound, -, -, -, -, -, hwalk, hupper, -⟩ :=
    walk_agrees hverify .fast .fast hmatch
  obtain ⟨rfl, rfl⟩ : anchor = ⟨7⟩ ∧ x = ⟨9⟩ := by simpa using (Match.mk.inj hfound).2.symm
  have hnodes : ReshapeChain.nodes <$> ReshapeChain.walk sided ⟨9⟩ false = .ok [⟨9⟩, ⟨8⟩] := by
    decide +kernel
  rw [hwalk] at hnodes
  exact ⟨hverify, hmatch, chain, hwalk, hupper, Except.ok.inj hnodes⟩

end AnchorPointwise

end OffloadFusion
