import OffloadFusion.Proofs.Edits
import OffloadFusion.Proofs.Linked
import OffloadFusion.Proofs.Outcomes
import OffloadFusion.Rule.Basic

/-!
# Matches

What a successful match says about its root and its captures. One lemma `eval_…_ok` for each kind of
expression, and one theorem for each matcher of a rule that captures something:

* `AnchorPointwise.match_ok`: the capture `x` is an operand of the pointwise at the root, and above
  it, in the same module, stands the dot or convolution captured as `anchor`;
* `Attention.Fused.match_ok`, `SplitReduce.match_ok`, `InputFusion.match_ok`: the capture is an
  operand of the root, and in the first and the last case nothing else reads it.
-/

namespace OffloadFusion

open Program

variable {p : Program} {h : Heuristics} {i : InstrId} {c result : Captures} {m : ModuleId}

/-! ## Tests -/

theorem Eligible.op_of_pointwise {producer : Bool} (hok : pointwise p i h producer = .ok true) :
    ∃ inst, p.instr? i = some inst ∧ inst.op = .pointwise := by
  unfold pointwise at hok
  split at hok
  · next body _ _ _ hi => exact ⟨_, hi, rfl⟩
  · cases hok

theorem Eligible.op_of_splitReduce (hok : splitReduce p i h = .ok true) :
    ∃ inst axes, p.instr? i = some inst ∧ inst.op = .splitFusedReduce axes := by
  unfold splitReduce at hok
  split at hok
  · next hi => exact ⟨_, _, hi, rfl⟩
  · cases hok

/-- The operation is a dot or a convolution. -/
def Op.IsAnchor : Op → Prop
  | .dot _ | .conv _ => True
  | _ => False

theorem Op.IsAnchor.isBoundary {op : Op} (hop : op.IsAnchor) : op.isBoundary = false := by
  cases op <;> first | rfl | exact hop.elim

theorem Op.IsAnchor.isReturn {op : Op} (hop : op.IsAnchor) : op.isReturn = false := by
  cases op <;> first | rfl | exact hop.elim

theorem Op.IsAnchor.isParam {op : Op} (hop : op.IsAnchor) : op.isParam = false := by
  cases op <;> first | rfl | exact hop.elim

theorem Eligible.op_of_dot {mode : Mode} {anchor : Bool} (hok : dot p i mode anchor h = .ok true) :
    ∃ inst, p.instr? i = some inst ∧ inst.op.IsAnchor := by
  unfold dot at hok
  split at hok
  · cases hok
  split at hok
  · next hi => exact ⟨_, hi, trivial⟩
  · cases hok

theorem Eligible.op_of_conv {mode : Mode} (hok : conv p i mode h = .ok true) :
    ∃ inst, p.instr? i = some inst ∧ inst.op.IsAnchor := by
  unfold conv at hok
  split at hok
  · cases hok
  split at hok
  · next hi => exact ⟨_, hi, trivial⟩
  · cases hok

namespace Matcher

/-! ## Expressions -/

theorem eval_test_ok {predicate : Predicate}
    (hok : eval p h (.test predicate) i c = .ok (some result)) :
    predicate.eval p h i = .ok true ∧ result = c := by
  rw [eval] at hok
  split at hok
  · cases hok
  simp only [Outcome.bind_ok, Outcome.pure_ok] at hok
  obtain ⟨passed, hp, hres⟩ := hok
  split at hres
  · next ht =>
    cases hres
    exact ⟨ht ▸ hp, rfl⟩
  · cases hres

theorem eval_named_ok {names : List String}
    (hok : eval p h (.named names) i c = .ok (some result)) :
    ∃ inst, p.instr? i = some inst ∧ inst.name ∈ names := by
  rw [eval] at hok
  split at hok
  · cases hok
  next inst hi =>
    refine ⟨inst, hi, ?_⟩
    simp only [Outcome.pure_ok] at hok
    split at hok
    · next hmem => exact List.contains_iff_mem.mp hmem
    · cases hok

theorem eval_pair_ok {a b : Matcher} (hok : eval p h (.allOf [a, b]) i c = .ok (some result)) :
    ∃ c', eval p h a i c = .ok (some c') ∧ eval p h b i c' = .ok (some result) := by
  have hcons : ∀ {m ms c}, evalAll p h (m :: ms) i c = .ok (some result) →
      ∃ c', eval p h m i c = .ok (some c') ∧ evalAll p h ms i c' = .ok (some result) := by
    intro m ms c hok
    rw [evalAll, Outcome.bind_ok] at hok
    obtain ⟨found, hm, hok⟩ := hok
    cases found with
    | none => cases hok
    | some c' => exact ⟨c', hm, hok⟩
  rw [eval] at hok
  split at hok
  · cases hok
  obtain ⟨c', ha, hok⟩ := hcons hok
  obtain ⟨c'', hb, hok⟩ := hcons hok
  rw [evalAll] at hok
  cases hok
  exact ⟨c', ha, hb⟩

theorem eval_either_ok {a b : Matcher} (hok : eval p h (.anyOf [a, b]) i c = .ok (some result)) :
    eval p h a i c = .ok (some result) ∨ eval p h b i c = .ok (some result) := by
  have hcons : ∀ {m ms}, evalAny p h (m :: ms) i c = .ok (some result) →
      eval p h m i c = .ok (some result) ∨ evalAny p h ms i c = .ok (some result) := by
    intro m ms hok
    rw [evalAny, Outcome.bind_ok] at hok
    obtain ⟨found, hm, hok⟩ := hok
    cases found with
    | none => exact .inr hok
    | some c' =>
      cases hok
      exact .inl hm
  rw [eval] at hok
  split at hok
  · cases hok
  obtain ha | hok := hcons hok
  · exact .inl ha
  obtain hb | hok := hcons hok
  · exact .inr hb
  · rw [evalAny] at hok
    cases hok

theorem firstOf_ok {α β : Type} {f : α → Checked (Option β)} {as : List α} {b : β}
    (hok : firstOf f as = .ok (some b)) : ∃ a ∈ as, f a = .ok (some b) := by
  induction as with
  | nil => cases hok
  | cons a as ih =>
    rw [firstOf, Outcome.bind_ok] at hok
    obtain ⟨found, ha, hok⟩ := hok
    cases found with
    | none =>
      obtain ⟨x, hx, hfx⟩ := ih hok
      exact ⟨x, List.mem_cons_of_mem a hx, hfx⟩
    | some b' =>
      cases hok
      exact ⟨a, List.mem_cons_self, ha⟩

theorem eval_anyInput_ok {matcher : Matcher}
    (hok : eval p h (.anyInput matcher) i c = .ok (some result)) :
    ∃ x, p.Uses i x ∧ eval p h matcher x c = .ok (some result) := by
  rw [eval] at hok
  split at hok
  · cases hok
  next inst hi =>
    obtain ⟨x, hx, hok⟩ := firstOf_ok hok
    exact ⟨x, ⟨inst, hi, hx⟩, hok⟩

theorem eval_bind_ok {name : String} {matcher : Matcher}
    (hok : eval p h (.bind name matcher) i c = .ok (some result)) :
    ∃ c', eval p h matcher i c = .ok (some c') ∧ result = c' ++ [(name, i)] := by
  rw [eval] at hok
  split at hok
  · cases hok
  simp only [Outcome.bind_ok, Outcome.pure_ok, Option.map_eq_some_iff] at hok
  obtain ⟨_, hm, c', rfl, hres⟩ := hok
  exact ⟨c', hm, hres.symm⟩

theorem mem_body_skipFrom {along : InstrId → Checked Bool} {fuel : Nat} {j : InstrId}
    (hl : p.Linked) (hi : i ∈ p.body m) (hok : skipFrom p along fuel i = .ok j) : j ∈ p.body m := by
  induction fuel generalizing i with
  | zero => cases hok
  | succ fuel ih =>
    rw [skipFrom, Outcome.bind_ok] at hok
    obtain ⟨inst, hinst, hok⟩ := hok
    rw [instr_ok] at hinst
    split at hok
    · next above hin =>
      rw [Outcome.bind_ok] at hok
      obtain ⟨walks, -, hok⟩ := hok
      split at hok
      · have hbefore := hl.ordered hinst (hin.symm ▸ List.mem_singleton.mpr rfl)
        rw [hl.owner_unique hinst hi] at hbefore
        exact ih hbefore.left_mem hok
      · cases hok
        exact hi
    · cases hok
      exact hi

/-- What a walk follows along. -/
def along (p : Program) (h : Heuristics) (m : Matcher) (i : InstrId) : Checked Bool :=
  Option.isSome <$> eval p h m i []

theorem eval_skip_ok {view target : Matcher}
    (hok : eval p h (.skip view target) i c = .ok (some result)) :
    ∃ j, skipFrom p (along p h view) (p.size + 1) i = .ok j ∧
      eval p h target j c = .ok (some result) := by
  rw [eval] at hok
  split at hok
  · cases hok
  exact Outcome.bind_ok.mp hok

theorem run_ok {matcher : Matcher} {root : InstrId} {found : Match}
    (hok : matcher.run p h root = .ok (some found)) :
    found.root = root ∧ eval p h matcher root [] = .ok (some found.captures) := by
  simp only [run, Outcome.bind_ok, Outcome.pure_ok, Option.map_eq_some_iff] at hok
  obtain ⟨_, he, captures, rfl, rfl⟩ := hok
  exact ⟨rfl, he⟩

end Matcher

/-! ## Rules -/

variable {root : InstrId} {found : Match}

theorem Match.get_ok {name : String} : found.get name = .ok i ↔ found.get? name = some i := by
  unfold Match.get
  cases found.get? name <;> simp

/-- The root is a pointwise, `x` one of its operands, and the views above it lead to the dot or the
convolution `anchor`. -/
structure AnchorPointwise.Captured (p : Program) (h : Heuristics) (root : InstrId) (found : Match)
    (x anchor : InstrId) : Prop where
  atRoot : found.root = root
  captures : found.captures = [("anchor", anchor), ("x", x)]
  pointwise : ∃ inst, p.instr? root = some inst ∧ inst.op = .pointwise
  operand : found.get "x" = .ok x
  source : found.get "anchor" = .ok anchor
  uses : p.Uses root x
  walk : Matcher.skipFrom p (Matcher.along p h (.named viewNames)) (p.size + 1) x = .ok anchor
  isAnchor : ∃ inst, p.instr? anchor = some inst ∧ inst.op.IsAnchor

theorem AnchorPointwise.exists_captured {convMode dotMode : Mode}
    (hok : (matcher convMode dotMode).run p h root = .ok (some found)) :
    ∃ x anchor, Captured p h root found x anchor := by
  obtain ⟨hr, hrun⟩ := Matcher.run_ok hok
  obtain ⟨_, htest, hinput⟩ := Matcher.eval_pair_ok hrun
  obtain ⟨hpw, rfl⟩ := Matcher.eval_test_ok htest
  obtain ⟨x, hx, hbind⟩ := Matcher.eval_anyInput_ok hinput
  obtain ⟨_, hskip, hcx⟩ := Matcher.eval_bind_ok hbind
  obtain ⟨anchor, hwalk, hbind⟩ := Matcher.eval_skip_ok hskip
  obtain ⟨c, heither, hca⟩ := Matcher.eval_bind_ok hbind
  -- the tests at the anchor capture nothing
  have hop : (∃ inst, p.instr? anchor = some inst ∧ inst.op.IsAnchor) ∧ c = [] := by
    obtain hdot | hconv := Matcher.eval_either_ok heither
    · exact (Matcher.eval_test_ok hdot).imp_left Eligible.op_of_dot
    · exact (Matcher.eval_test_ok hconv).imp_left Eligible.op_of_conv
  obtain ⟨hop, rfl⟩ := hop
  have hcaptures : found.captures = [("anchor", anchor), ("x", x)] := by
    rw [hcx, hca]
    rfl
  refine ⟨x, anchor, hr, hcaptures, Eligible.op_of_pointwise hpw, ?_, ?_, hx, hwalk, hop⟩
  all_goals
    rw [Match.get_ok, Match.get?, hcaptures]
    simp

/-- The root is a pointwise, `x` one of its operands and `anchor` a dot or a convolution. -/
theorem AnchorPointwise.match_ok {convMode dotMode : Mode} (hl : p.Linked)
    (hroot : root ∈ p.body m)
    (hok : (matcher convMode dotMode).run p h root = .ok (some found)) :
    found.root = root ∧ (∃ inst, p.instr? root = some inst ∧ inst.op = .pointwise) ∧
      (∀ x, found.get "x" = .ok x → p.Uses root x) ∧
      ∀ anchor, found.get "anchor" = .ok anchor →
        anchor ∈ p.body m ∧ ∃ inst, p.instr? anchor = some inst ∧ inst.op.IsAnchor := by
  obtain ⟨x, anchor, hc⟩ := exists_captured hok
  refine ⟨hc.atRoot, hc.pointwise, fun y hy => ?_, fun a ha => ?_⟩
  · cases hc.operand.symm.trans hy
    exact hc.uses
  · cases hc.source.symm.trans ha
    exact ⟨Matcher.mem_body_skipFrom hl (hl.mem_body_of_uses hroot hc.uses) hc.walk, hc.isAnchor⟩

/-- A matcher that tests the root and captures one of its operands. -/
theorem Matcher.exists_capture {name : String} {test operand : Matcher}
    (hok : (allOf [test, anyInput (bind name operand)]).run p h root = .ok (some found)) :
    found.root = root ∧ (∃ c, eval p h test root [] = .ok (some c)) ∧
      ∃ x, found.get name = .ok x ∧ p.Uses root x ∧
        ∃ c c', eval p h operand x c = .ok (some c') := by
  obtain ⟨hr, hrun⟩ := run_ok hok
  obtain ⟨c, htest, hinput⟩ := eval_pair_ok hrun
  obtain ⟨x, hx, hbind⟩ := eval_anyInput_ok hinput
  obtain ⟨c', hoperand, hc⟩ := eval_bind_ok hbind
  refine ⟨hr, ⟨c, htest⟩, x, ?_, hx, c, c', hoperand⟩
  rw [Match.get_ok, Match.get?, hc]
  simp

theorem Matcher.capture_ok {name : String} {test operand : Matcher}
    (hok : (allOf [test, anyInput (bind name operand)]).run p h root = .ok (some found)) :
    found.root = root ∧ (∃ c, eval p h test root [] = .ok (some c)) ∧
      ∀ x, found.get name = .ok x → p.Uses root x := by
  obtain ⟨hr, htest, x, hget, hx, -⟩ := exists_capture hok
  refine ⟨hr, htest, fun y hy => ?_⟩
  rw [hget] at hy
  cases hy
  exact hx

theorem Predicate.eq_of_usedOnce {x j : InstrId} (hl : p.Linked)
    (hok : usedOnce.eval p h x = .ok true) (hroot : p.Uses root x) (hj : p.Uses j x) :
    j = root := by
  obtain ⟨inst, hx, honce⟩ := (Option.any_eq_true _ _).mp (Outcome.pure_ok.mp hok)
  obtain ⟨c, hc⟩ := List.length_eq_one_iff.mp (of_decide_eq_true honce)
  have honly : ∀ {k}, p.Uses k x → k = c := fun hk =>
    List.mem_singleton.mp (hc ▸ (hl.mirrored hx).mpr hk)
  exact (honly hj).trans (honly hroot).symm

theorem Attention.Fused.match_ok (hl : p.Linked) (hok : matcher.run p h root = .ok (some found)) :
    found.root = root ∧ (∃ inst, p.instr? root = some inst ∧ inst.op = .pointwise) ∧
      ∃ x, found.get "gsg" = .ok x ∧ p.Uses root x ∧ ∀ j, p.Uses j x → j = root := by
  obtain ⟨hr, ⟨_, htest⟩, x, hget, hx, _, _, hoperand⟩ := Matcher.exists_capture hok
  obtain ⟨_, -, honce⟩ := Matcher.eval_pair_ok hoperand
  exact ⟨hr, Eligible.op_of_pointwise (Matcher.eval_test_ok htest).1, x, hget, hx,
    fun j => Predicate.eq_of_usedOnce hl (Matcher.eval_test_ok honce).1 hx⟩

theorem SplitReduce.match_ok (hok : matcher.run p h root = .ok (some found)) :
    found.root = root ∧
      (∃ inst axes, p.instr? root = some inst ∧ inst.op = .splitFusedReduce axes) ∧
      ∀ x, found.get "gemm" = .ok x → p.Uses root x := by
  obtain ⟨hr, ⟨_, htest⟩, hcapture⟩ := Matcher.capture_ok hok
  exact ⟨hr, Eligible.op_of_splitReduce (Matcher.eval_test_ok htest).1, hcapture⟩

theorem Op.exists_anchor {op : Op} (h : op.name = "offload") : ∃ anchor, op = .offload anchor := by
  cases op with
  | offload anchor => exact ⟨anchor, rfl⟩
  | reindex view => cases view <;> simp [Op.name, Reindex.name] at h
  | unary f => cases f <;> simp [Op.name, UnaryOp.name] at h
  | binary f => cases f <;> simp [Op.name, BinaryOp.name] at h
  | reduce f axes => cases f <;> simp [Op.name, ReduceOp.name] at h
  | dot quantized => cases quantized <;> simp [Op.name] at h
  | conv c => simp only [Op.name, Conv.name] at h; split at h <;> simp at h
  | _ => simp [Op.name] at h

/-- The root is a call, and `pw` one of its operands is a pointwise. -/
structure InputFusion.Captured (p : Program) (root : InstrId) (found : Match) (pw : InstrId)
    (callInst pwInst : Instruction) : Prop where
  atRoot : found.root = root
  operand : found.get "pw" = .ok pw
  call : p.instr? root = some callInst
  anchor : ∃ anchor, callInst.op = .offload anchor
  instr : p.instr? pw = some pwInst
  pointwise : pwInst.op = .pointwise
  uses : pw ∈ callInst.inputs

theorem InputFusion.exists_captured (hok : matcher.run p h root = .ok (some found)) :
    ∃ pw callInst pwInst, Captured p root found pw callInst pwInst := by
  obtain ⟨hr, ⟨_, hname⟩, pw, hget, ⟨callInst, hcall, huses⟩, _, _, htest⟩ :=
    Matcher.exists_capture hok
  obtain ⟨callInst', hcall', hmem⟩ := Matcher.eval_named_ok hname
  cases hcall.symm.trans hcall'
  obtain ⟨_, hpointwise, -⟩ := Matcher.eval_pair_ok htest
  obtain ⟨pwInst, hpw, hop⟩ := Eligible.op_of_pointwise (Matcher.eval_test_ok hpointwise).1
  exact ⟨pw, callInst, pwInst, hr, hget, hcall, Op.exists_anchor (List.mem_singleton.mp hmem), hpw,
    hop, huses⟩

/-- A pointwise `pw` is an operand of the root, and nothing else reads it. -/
theorem InputFusion.match_ok (hl : p.Linked) (hok : matcher.run p h root = .ok (some found)) :
    found.root = root ∧ ∃ x, found.get "pw" = .ok x ∧
      (∃ inst, p.instr? x = some inst ∧ inst.op = .pointwise) ∧ p.Uses root x ∧
        ∀ j, p.Uses j x → j = root := by
  obtain ⟨hr, -, x, hget, hx, _, _, hoperand⟩ := Matcher.exists_capture hok
  obtain ⟨_, hpw, honce⟩ := Matcher.eval_pair_ok hoperand
  exact ⟨hr, x, hget, Eligible.op_of_pointwise (Matcher.eval_test_ok hpw).1, hx,
    fun j => Predicate.eq_of_usedOnce hl (Matcher.eval_test_ok honce).1 hx⟩

/-- A test for dots or for convolutions. -/
def Predicate.isAnchor : Predicate → Bool
  | .dot .. | .conv _ => true
  | _ => false

theorem Predicate.op_of_isAnchor {test : Predicate} (htest : test.isAnchor = true)
    (hok : test.eval p h i = .ok true) : ∃ inst, p.instr? i = some inst ∧ inst.op.IsAnchor := by
  cases test with
  | dot mode anchor => exact Eligible.op_of_dot hok
  | conv mode => exact Eligible.op_of_conv hok
  | _ => cases htest

theorem Standalone.match_ok {test : Predicate} (htest : test.isAnchor = true)
    (hok : (matcher test).run p h root = .ok (some found)) :
    found.root = root ∧ ∃ inst, p.instr? root = some inst ∧ inst.op.IsAnchor := by
  obtain ⟨hr, hrun⟩ := Matcher.run_ok hok
  obtain ⟨_, hanchor, -⟩ := Matcher.eval_pair_ok hrun
  exact ⟨hr, Predicate.op_of_isAnchor htest (Matcher.eval_test_ok hanchor).1⟩

end OffloadFusion
