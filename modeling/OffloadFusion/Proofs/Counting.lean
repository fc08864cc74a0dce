import OffloadFusion.Proofs.Scanning

/-!
# What firing rules count down

Each rule uses up an instruction of one kind of the main module (`Rule.Takes`), and none comes in
again. So a family fires at most as often as there are instructions of its kind
(**`Firings.tally_add_le`**).
-/

namespace OffloadFusion

open OffloadFusion.Action Program

namespace Op

/-! ## Kinds -/

def isPointwise : Op → Bool
  | .pointwise => true
  | _ => false

def isAttention : Op → Bool
  | .attention _ => true
  | _ => false

def isSplitReduce : Op → Bool
  | .splitFusedReduce _ => true
  | _ => false

/-- A dot or a convolution. -/
def isAnchor : Op → Bool
  | .dot _ | .conv _ => true
  | _ => false

theorem isAnchor_of {op : Op} (h : op.IsAnchor) : op.isAnchor = true := by
  cases op with
  | dot | conv => rfl
  | _ => exact h.elim

/-- A test that no glue passes. -/
def Counts (test : Op → Bool) : Prop := ∀ op, op.isGlue = true → test op = false

theorem counts_isPointwise : Counts isPointwise := fun op h => by
  cases op with
  | pointwise => cases h
  | _ => rfl

theorem counts_isAttention : Counts isAttention := fun op h => by
  cases op with
  | attention => cases h
  | _ => rfl

theorem counts_isSplitReduce : Counts isSplitReduce := fun op h => by
  cases op with
  | splitFusedReduce => cases h
  | _ => rfl

theorem counts_isAnchor : Counts isAnchor := fun op h => by
  cases op with
  | dot | conv => cases h
  | _ => rfl

end Op

variable {s t : Session} {h : Heuristics} {rule : Rule} {found : Match} {n : Nat} {i : InstrId}
  {test : Op → Bool} {p q : Program}

/-! ## Single rules -/

/-- Wherever the rule fires, it uses up an instruction that passes the test. -/
def Rule.Takes (rule : Rule) (test : Op → Bool) : Prop :=
  ∀ {h found s t}, rule.Fires h found s t → s.program.Valid →
    ∃ i ∈ rule.used found, i ∈ s.program.body main ∧ s.program.hasOp test i = true

namespace Attention

/-- What applies at an attention rebuilds it. -/
theorem Fused.scale_of_applied {x : InstrId} {inst : Instruction} (hget : found.get "gsg" = .ok x)
    (hinst : s.program.instr? x = some inst) (hok : apply found s = .ok true t) :
    ∃ scale, scale? inst = some scale := by
  rw [apply, Action.lift_bind_ok] at hok
  obtain ⟨x', hx', hok⟩ := hok
  cases hget.symm.trans hx'
  rw [theProgram_bind_ok, Action.lift_checked_bind_ok] at hok
  obtain ⟨inst', hinst', hok⟩ := hok
  cases hinst.symm.trans (instr_ok.mp hinst')
  cases hscale : scale? inst with
  | some scale => exact ⟨scale, rfl⟩
  | none =>
    simp only [hscale] at hok
    cases hok

theorem Alone.scale_of_applied {inst : Instruction}
    (hinst : s.program.instr? found.root = some inst) (hok : apply found s = .ok true t) :
    ∃ scale, scale? inst = some scale := by
  rw [apply, theProgram_bind_ok, Action.lift_checked_bind_ok] at hok
  obtain ⟨inst', hinst', hok⟩ := hok
  cases hinst.symm.trans (instr_ok.mp hinst')
  cases hscale : scale? inst with
  | some scale => exact ⟨scale, rfl⟩
  | none =>
    simp only [hscale] at hok
    cases hok

end Attention

namespace Rule

theorem Fires.rebuilds (hf : rule.Fires h found s t) (hp : s.program.Valid)
    (hrule : rule = fusedAttention ∨ rule = attention) : ∃ x ∈ rule.used found,
      x ∈ s.program.body main ∧ ∃ inst scale, s.program.instr? x = some inst ∧
        Attention.scale? inst = some scale := by
  obtain rfl | rfl := hrule
  · obtain ⟨-, -, x, hget, hx, -⟩ := Attention.Fused.match_ok hp.toLinked hf.matched
    have hmem := hp.mem_body_of_uses hf.mem hx
    obtain ⟨inst, hinst, -⟩ := hp.owned hmem
    obtain ⟨scale, hscale⟩ := Attention.Fused.scale_of_applied hget hinst hf.applied
    refine ⟨x, ?_, hmem, inst, scale, hinst, hscale⟩
    rw [used, Match.get_ok.mp hget]
    exact List.mem_cons_of_mem _ List.mem_cons_self
  · obtain ⟨inst, hinst, -⟩ := hp.owned hf.mem
    obtain ⟨scale, hscale⟩ := Attention.Alone.scale_of_applied hinst hf.applied
    exact ⟨found.root, List.mem_cons_self, hf.mem, inst, scale, hinst, hscale⟩

theorem Fires.anchor (hf : rule.Fires h found s t)
    (hrule : ∃ mode, rule = standaloneConv mode ∨ rule = standaloneDot mode) :
    ∃ inst, s.program.instr? found.root = some inst ∧ inst.op.IsAnchor := by
  obtain ⟨mode, rfl | rfl⟩ := hrule
  · exact (Standalone.match_ok (Eq.refl (Predicate.conv mode).isAnchor) hf.matched).2
  · exact (Standalone.match_ok (Eq.refl (Predicate.dot mode false).isAnchor) hf.matched).2

theorem takes_attention (hrule : rule = fusedAttention ∨ rule = attention) :
    rule.Takes Op.isAttention := by
  intro h found s t hf hp
  obtain ⟨x, hx, hmem, inst, scale, hinst, hscale⟩ := hf.rebuilds hp hrule
  exact ⟨x, hx, hmem, hasOp_iff.mpr ⟨inst, hinst, by rw [Attention.op_of_scale hscale]; rfl⟩⟩

theorem takes_root {rule : Rule} (hused : ∀ found, found.root ∈ rule.used found)
    (htest : ∀ {h found s t}, rule.Fires h found s t → s.program.Valid →
      ∃ inst, s.program.instr? found.root = some inst ∧ test inst.op = true) : rule.Takes test :=
  fun hf hp => ⟨_, hused _, hf.mem, hasOp_iff.mpr (htest hf hp)⟩

theorem takes_fusedAttention : fusedAttention.Takes Op.isPointwise := by
  refine takes_root (fun _ => List.mem_cons_self) fun hf hp => ?_
  obtain ⟨-, ⟨inst, hinst, hop⟩, -⟩ := Attention.Fused.match_ok hp.toLinked hf.matched
  exact ⟨inst, hinst, by rw [hop]; rfl⟩

theorem takes_anchorPointwise (conv dot : Mode) :
    (anchorPointwise conv dot).Takes Op.isPointwise := by
  refine takes_root (fun _ => List.mem_cons_self) fun hf hp => ?_
  obtain ⟨-, ⟨inst, hinst, hop⟩, -⟩ := AnchorPointwise.match_ok hp.toLinked hf.mem hf.matched
  exact ⟨inst, hinst, by rw [hop]; rfl⟩

theorem takes_standalone (hrule : ∃ mode, rule = standaloneConv mode ∨ rule = standaloneDot mode) :
    rule.Takes Op.isAnchor := by
  refine takes_root (fun found => ?_) fun hf _ => ?_
  · obtain ⟨mode, rfl | rfl⟩ := hrule <;> exact List.mem_cons_self
  · obtain ⟨inst, hinst, hop⟩ := hf.anchor hrule
    exact ⟨inst, hinst, Op.isAnchor_of hop⟩

theorem takes_splitReduce : splitReduce.Takes Op.isSplitReduce := by
  refine takes_root (fun _ => List.mem_cons_self) fun hf hp => ?_
  obtain ⟨-, ⟨inst, axes, hinst, hop⟩, -⟩ := SplitReduce.match_ok hf.matched
  exact ⟨inst, hinst, by rw [hop]; rfl⟩

theorem takes_inputFusion : inputFusion.Takes Op.isPointwise := by
  intro h found s t hf hp
  obtain ⟨-, x, hget, ⟨inst, hinst, hop⟩, hx, -⟩ := InputFusion.match_ok hp.toLinked hf.matched
  refine ⟨x, ?_, hp.mem_body_of_uses hf.mem hx, hasOp_iff.mpr ⟨inst, hinst, by rw [hop]; rfl⟩⟩
  rw [used, Match.get_ok.mp hget]
  exact List.mem_cons_self

end Rule

/-! ## Families -/

theorem Program.Residue.tally_le (h : Residue p q) (hq : q.Linked) (htest : Op.Counts test) :
    q.tally test ≤ p.tally test := by
  have hnone : ∀ i ∈ [], i ∈ p.body main ∧ p.hasOp test i = true ∧ q.Spent i := nofun
  exact h.tally_add_le hq htest List.nodup_nil hnone

/-- A rule that fires leaves one instruction less of its kind. -/
theorem Rule.Fires.tally_lt (hf : rule.Fires h found s t) (hp : s.program.Valid)
    (htest : Op.Counts test) (htakes : rule.Takes test) :
    t.program.tally test + 1 ≤ s.program.tally test := by
  have hconsumed := hf.consumed hp
  obtain ⟨i, hi, hmem, hop⟩ := htakes hf hp
  refine hconsumed.residue.tally_add_le hf.valid.toLinked htest (List.nodup_singleton i) ?_
  intro j hj
  obtain rfl := List.mem_singleton.mp hj
  exact ⟨hmem, hop, hconsumed.spent j hi⟩

/-- **A family fires at most as often as there are instructions of its kind.** -/
theorem Firings.tally_add_le {rules : List Rule} (hf : Firings h rules n s t)
    (hp : s.program.Valid) (htest : Op.Counts test) (htakes : ∀ rule ∈ rules, rule.Takes test) :
    t.program.tally test + n ≤ s.program.tally test := by
  induction hf with
  | none => exact Nat.le_refl _
  | cons hmem hfires _ ih =>
    have hfirst := hfires.tally_lt hp htest (htakes _ hmem)
    have hrest := ih hfires.valid
    omega

theorem Firings.idle {rules : List Rule} (hf : Firings h rules n s t)
    (hnone : ∀ rule ∈ rules, ∀ found t, ¬ rule.Fires h found s t) : n = 0 := by
  cases hf with
  | none => rfl
  | cons hmem hfires _ => exact absurd hfires (hnone _ hmem _ _)

end OffloadFusion
