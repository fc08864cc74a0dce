import OffloadFusion.Proofs.Liveness
import OffloadFusion.Proofs.Scanning

/-!
# Modules of a run

A rule that fires puts a new module in place (`Placing`). Only its call carries it, and what it
carries in turn was nested in a module below the main one. So no module comes to refer to itself,
and a module that a run has put in place stays with its call (`Tidy`). Dead code elimination leaves
what the main module reaches, and every rule that fires afterwards releases what it replaces
(`Attached`). **`Pass.run_leaks_nothing`** says this of a whole run.
-/

namespace OffloadFusion

open OffloadFusion.Action Program Relation

variable {p₀ p q : Program} {i j : InstrId} {m k a b : ModuleId} {op op' : Op}
  {call : Option InstrId} {pending : List ModuleId} {s t : Session} {h : Heuristics} {n : Nat}

namespace Program

/-! ## References without cycles -/

theorem Framed.ne_of_gone (h : p.Framed) (hm : p.module? m = none) (hc : p.Carries i op a k) :
    k ≠ m ∧ a ≠ m := by
  refine ⟨?_, ?_⟩
  · rintro rfl
    have halive := h.alive_of_refers hc.refers
    rw [hm] at halive
    cases halive
  · rintro rfl
    obtain ⟨inst, hi, -, rfl, -⟩ := hc
    obtain ⟨module, halive, -⟩ := h.owner_alive hi
    cases hm.symm.trans halive

theorem Placing.ne_main (h : Placing m call pending p q) (hmain : p.HasMain) : main ≠ m := by
  rintro rfl
  rw [HasMain, h.new] at hmain
  cases hmain

theorem Nested.ne_of_gone (h : p.Nested k) (hp : p.Framed) (hm : p.module? m = none) : k ≠ m := by
  obtain ⟨_, -, hr⟩ := h
  obtain ⟨_, _, hc⟩ := refers_iff_carries.mp hr
  exact (hp.ne_of_gone hm hc).1

/-- The new module lies between the main one and all that it carries. -/
theorem Placing.acyclic (h : Placing m call pending p q) (hp : p.Framed) (hmain : p.HasMain)
    (ha : p.Acyclic) : q.Acyclic := by
  refine acyclic_of_measure (fun x => if x = m then 2 * p.rank main else 2 * p.rank x + 1)
    fun {k a} hr => ?_
  obtain ⟨i, op, hc⟩ := refers_iff_carries.mp hr
  obtain hc | ⟨rfl, hk⟩ | ⟨rfl, -, rfl, -⟩ := h.carries hc
  · obtain ⟨hk, ham⟩ := hp.ne_of_gone h.new hc
    have hlt := hp.rank_lt ha hc.refers
    rw [if_neg hk, if_neg ham]
    omega
  · have hlt := hp.rank_lt_of_transGen ha hk.below
    rw [if_neg (hk.ne_of_gone hp h.new), if_pos rfl]
    omega
  · rw [if_pos rfl, if_neg (h.ne_main hmain)]
    omega

theorem Shrunk.acyclic (h : Shrunk p q) (ha : p.Acyclic) : q.Acyclic := by
  have hmono : ∀ k m, q.Refers k m → p.Refers k m := fun k m hr => by
    obtain ⟨i, op, hc⟩ := refers_iff_carries.mp hr
    exact (h.carries hc).refers
  exact fun m hm => ha m (TransGen.mono hmono m m hm)

/-! ## Modules with a call of their own -/

/-- No module refers to itself, and one that is not there in `p₀` is carried by at most one
instruction, a call in the main module. -/
structure Tidy (p₀ p : Program) : Prop where
  acyclic : p.Acyclic
  calls : ∀ {i op a k}, p₀.module? k = none → p.Carries i op a k → a = main ∧ op.isOffload = true
  single : ∀ {i op a j op' b k}, p₀.module? k = none → p.Carries i op a k → p.Carries j op' b k →
    i = j

namespace Tidy

theorem refl (hp : p.Framed) (ha : p.Acyclic) : Tidy p p :=
  ⟨ha, fun hk hc => absurd rfl (hp.ne_of_gone hk hc).1,
    fun hk hc _ => absurd rfl (hp.ne_of_gone hk hc).1⟩

/-- Only the main module carries a new one, so no module below it does. -/
theorem not_nested (h : Tidy p₀ p) (hk : p₀.module? k = none) : ¬ p.Nested k := by
  rintro ⟨a, hbelow, hr⟩
  obtain ⟨i, op, hc⟩ := refers_iff_carries.mp hr
  obtain ⟨rfl, -⟩ := h.calls hk hc
  exact h.acyclic main hbelow

theorem carries (h : Tidy p₀ p) (hplaced : Placing m call pending p q) (hk : p₀.module? k = none)
    (hc : q.Carries i op a k) :
    p.Carries i op a k ∨ (k = m ∧ call = some i ∧ a = main ∧ op.isOffload = true) :=
  (hplaced.carries hc).imp_right fun hnew => hnew.resolve_left fun hn => h.not_nested hk hn.2

/-- **A new module put in place has one call**, and those from before keep theirs. -/
theorem placed (h : Tidy p₀ p) (hp : p.Framed) (hmain : p.HasMain)
    (hplaced : Placing m call pending p q) : Tidy p₀ q := by
  refine ⟨hplaced.acyclic hp hmain h.acyclic, fun hk hc => ?_, fun hk hc hc' => ?_⟩
  · obtain hc | ⟨-, -, hnew⟩ := h.carries hplaced hk hc
    · exact h.calls hk hc
    · exact hnew
  · obtain hc | ⟨hkm, hi, -⟩ := h.carries hplaced hk hc <;>
      obtain hc' | ⟨hkm', hj, -⟩ := h.carries hplaced hk hc'
    · exact h.single hk hc hc'
    · exact absurd hkm' (hp.ne_of_gone hplaced.new hc).1
    · exact absurd hkm (hp.ne_of_gone hplaced.new hc').1
    · exact Option.some.inj (hi.symm.trans hj)

theorem shrunk (h : Tidy p₀ p) (hs : Shrunk p q) : Tidy p₀ q :=
  ⟨hs.acyclic h.acyclic, fun hk hc => h.calls hk (hs.carries hc),
    fun hk hc hc' => h.single hk (hs.carries hc) (hs.carries hc')⟩

end Tidy

/-- Exactly one instruction carries the module, an offload call of the main module. -/
def CalledOnce (p : Program) (m : ModuleId) : Prop :=
  ∃ i inst, p.instr? i = some inst ∧ inst.op.isOffload = true ∧ inst.owner = main ∧
    ∀ j b, p.instr? j = some b → (m ∈ b.modules ↔ j = i)

theorem Tidy.calledOnce (h : Tidy p₀ p) (hm : p₀.module? m = none) (hr : p.Refers m a) :
    p.CalledOnce m := by
  obtain ⟨i, inst, hi, rfl, hmem⟩ := hr
  have hc : p.Carries i inst.op inst.owner m := ⟨inst, hi, rfl, rfl, hmem⟩
  obtain ⟨ho, hop⟩ := h.calls hm hc
  refine ⟨i, inst, hi, hop, ho, fun j b hj => ⟨fun hb => ?_, ?_⟩⟩
  · exact h.single hm ⟨b, hj, rfl, rfl, hb⟩ hc
  · rintro rfl
    cases hi.symm.trans hj
    exact hmem

/-! ## Nothing is left behind -/

/-- **Where every module is referred to, the main one reaches them all.** -/
theorem Attached.reaches (h : p.Attached []) (hp : p.Framed) (ha : p.Acyclic)
    (hm : (p.module? m).isSome) : ReflTransGen p.Refers m main := by
  -- a module refers to strictly more modules than those that it refers to
  induction hn : p.modules.next - p.rank m using Nat.strong_induction_on generalizing m with
  | h n ih =>
    by_cases hmain : m = main
    · exact hmain ▸ .refl
    obtain ⟨a, hr⟩ := (h m hm hmain).resolve_left List.not_mem_nil
    have hlt := hp.rank_lt ha hr
    have hle := p.rank_le a
    have halive : (p.module? a).isSome := by
      obtain ⟨i, inst, hi, rfl, -⟩ := hr
      obtain ⟨module, halive, -⟩ := hp.owner_alive hi
      rw [halive]
      rfl
    exact .head hr (ih _ (by omega) halive rfl)

theorem Valid.hasMain_of_eliminateDeadCode {result : DeadCode} (h : p.Valid)
    (hok : Edit.eliminateDeadCode p = .ok result q) : p.HasMain := by
  obtain ⟨gone, r, hsweep, -, -, hr⟩ := (Without.refl h.toLinked).sweepAll 0 h
    p.nodup_moduleIds fun _ _ _ _ => List.not_mem_nil
  rw [Edit.eliminateDeadCode, Action.get_bind_ok, Action.bind_ok] at hok
  obtain ⟨swept, r', hsweep', hok⟩ := hok
  cases hsweep.symm.trans hsweep'
  rw [Action.get_bind_ok, Action.lift_checked_bind_ok] at hok
  obtain ⟨live, hlive, -⟩ := hok
  rw [liveModules, collectModules, if_neg List.not_mem_nil, Outcome.bind_ok] at hlive
  obtain ⟨module, hmain, -⟩ := hlive
  rw [HasMain, ← hr.alive, module_ok.mp hmain]
  rfl

theorem Valid.attached_of_eliminateDeadCode {result : DeadCode} (h : p.Valid)
    (hok : Edit.eliminateDeadCode p = .ok result q) : q.Attached [] := by
  obtain ⟨result', q', hok', hclean, hq⟩ := h.exists_cleaned (h.hasMain_of_eliminateDeadCode hok)
  cases hok.symm.trans hok'
  intro k halive hk
  have hlive := hclean.live h hq ((hclean.module? k).mp halive)
  obtain rfl | ⟨a, hneeds, -⟩ := ReflTransGen.cases_head hlive
  · exact absurd rfl hk
  · exact .inr ⟨a, hneeds.refers⟩

end Program

/-! ## Runs -/

namespace Firings

variable {rules : List Rule}

theorem tidy (hf : Firings h rules n s t) (hp : s.program.Valid) (htidy : Tidy p₀ s.program) :
    Tidy p₀ t.program := by
  induction hf with
  | none => exact htidy
  | cons _ hfires _ ih =>
    obtain ⟨m, call, hplaced⟩ := hfires.placed hp
    exact ih hfires.valid (htidy.placed hp.toFramed (alive_of_mem_body hfires.mem) hplaced)

theorem attached (hf : Firings h rules n s t) (hp : s.program.Valid)
    (hattached : s.program.Attached []) : t.program.Attached [] := by
  induction hf with
  | none => exact hattached
  | cons _ hfires _ ih =>
    obtain ⟨m, call, hplaced⟩ := hfires.placed hp
    exact ih hfires.valid (hplaced.attached hattached)

theorem hasMain (hf : Firings h rules n s t) (hmain : t.program.HasMain) : s.program.HasMain := by
  cases hf with
  | none => exact hmain
  | cons _ hfires _ => exact alive_of_mem_body hfires.mem

end Firings

namespace Pass

namespace Course

variable {c : Config} {stats : Stats} {fused alone : Nat} {s₁ s₂ s₃ s₄ s₅ s₆ : Session}
  (hc : Course c stats fused alone s s₁ s₂ s₃ s₄ s₅ s₆ t) (hp : s.program.Valid)
include hc hp

theorem hasMain : s.program.HasMain := by
  have hmain := (hc.valid₄ hp).hasMain_of_eliminateDeadCode hc.deadCode
  have hmain₃ := hc.standalone.firings.hasMain hmain
  have hmain₂ := hc.anchorPointwise.firings.hasMain hmain₃
  exact hc.fusedAttention.firings.hasMain (hc.attention.firings.hasMain hmain₂)

theorem tidy (ha : s.program.Acyclic) : Tidy s.program t.program := by
  have htidy₁ := hc.fusedAttention.firings.tidy hp (.refl hp.toFramed ha)
  have htidy₂ := hc.attention.firings.tidy (hc.valid₁ hp) htidy₁
  have htidy₃ := hc.anchorPointwise.firings.tidy (hc.valid₂ hp) htidy₂
  have htidy₄ := hc.standalone.firings.tidy (hc.valid₃ hp) htidy₃
  have htidy₆ := hc.splitReduce.firings.tidy (hc.valid₅ hp) (htidy₄.shrunk (hc.trim hp).shrunk)
  exact hc.inputFusion.firings.tidy (hc.valid₆ hp) htidy₆

theorem attached : t.program.Attached [] := by
  have hattached₅ := (hc.valid₄ hp).attached_of_eliminateDeadCode hc.deadCode
  have hattached₆ := hc.splitReduce.firings.attached (hc.valid₅ hp) hattached₅
  exact hc.inputFusion.firings.attached (hc.valid₆ hp) hattached₆

end Course

/-- **A run leaks no modules and shares no region.** The main module reaches every module that is
left, and what was not there before is carried by one offload call of the main module and by nothing
else. Handles are not given out twice, so a module that was not there is one that the run made. -/
theorem run_leaks_nothing {c : Config} {stats : Stats} (h : p.verify = .ok ()) (ha : p.Acyclic)
    (hon : c.disabled = false) (hrun : run c p = .ok stats q) (hm : (q.module? m).isSome) :
    ReflTransGen q.Refers m main ∧ (p.module? m = none → q.CalledOnce m) := by
  have hp := verify_ok.mp h
  obtain ⟨fused, alone, _, _, _, _, _, _, t, rfl, hc⟩ := run_ok hp hon hrun
  have htidy := hc.tidy hp ha
  have hattached := hc.attached hp
  have hframed := (hc.valid hp).toFramed
  refine ⟨hattached.reaches hframed htidy.acyclic hm, fun hnew => ?_⟩
  have hne : m ≠ main := by
    rintro rfl
    have hmain := hc.hasMain hp
    rw [HasMain, hnew] at hmain
    cases hmain
  obtain ⟨a, hr⟩ := (hattached m hm hne).resolve_left List.not_mem_nil
  exact htidy.calledOnce hnew hr

/-- A dot below a pointwise that applies a body, returned. -/
def rectified : Program :=
  (do
    let f ← Edit.createModule "f"
    let x ← Edit.addParameter f "x0" ⟨.f32, [1], [1]⟩
    let y ← Edit.addInstruction f (.unary .relu) [x] []
    let _ ← Edit.addReturn f [y]
    let a ← Edit.addParameter main "a" ⟨.f32, [2, 2], [2, 1]⟩
    let b ← Edit.addParameter main "b" ⟨.f32, [2, 2], [2, 1]⟩
    let c ← Edit.addInstruction main .pointwise [a] [f]
    let d ← Edit.addInstruction main (.dot false) [c, b] []
    let _ ← Edit.addReturn main [d] : Edit Unit).after .empty

/-- The region of the dot alone and the body go, and the region of both is called once. -/
theorem run_leaks_nothing_rectified : rectified.verify = .ok () ∧ rectified.Acyclic ∧
    ∃ stats q, run { Config.default with inputFusion := true } rectified = .ok stats q ∧
      stats.standalone = 1 ∧ stats.inputFusion = 1 ∧ q.moduleIds = [main, ⟨3⟩] ∧
      q.CalledOnce ⟨3⟩ := by
  have hv : rectified.verify = .ok () := by decide +kernel
  have ha : rectified.Acyclic := acyclic_of_measure (fun m => 1 - m.index) fun {k m} hr => by
    have hall : ∀ entry ∈ rectified.instructions.entries, ∀ k ∈ entry.2.modules,
        1 - k.index < 1 - entry.2.owner.index := by decide +kernel
    obtain ⟨i, inst, hi, rfl, hk⟩ := hr
    exact hall (i.index, inst) (Arena.mem_entries.mpr hi) k hk
  obtain ⟨stats, q, hrun, hstandalone, hinput, hmodules⟩ : ∃ stats q,
      run { Config.default with inputFusion := true } rectified = .ok stats q ∧
        stats.standalone = 1 ∧ stats.inputFusion = 1 ∧ q.moduleIds = [main, ⟨3⟩] := by
    decide +kernel
  have hgone : rectified.module? ⟨3⟩ = none := by decide +kernel
  have halive : (q.module? ⟨3⟩).isSome := by
    have hmem : (⟨3⟩ : ModuleId) ∈ q.moduleIds := by
      rw [hmodules]
      exact List.mem_cons_of_mem _ List.mem_cons_self
    obtain ⟨module, hm⟩ := mem_moduleIds.mp hmem
    rw [hm]
    rfl
  exact ⟨hv, ha, stats, q, hrun, hstandalone, hinput, hmodules,
    (run_leaks_nothing hv ha rfl hrun halive).2 hgone⟩

end Pass

end OffloadFusion
