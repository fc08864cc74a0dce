import OffloadFusion.Pass.Run
import OffloadFusion.Proofs.Rules

/-!
# Runs of the pass

`Rule.Fires` says that a rule has applied at a match in the main module and left a verified program,
and `Rule.Rests` that it does not apply at an instruction. A family that comes to an end has fired a
number of times (`Firings`), and then rests at each instruction of the main module
(**`Pass.runFamily_ok`**). A run that comes to an end is a sequence of such stages
(**`Pass.runFamilies_ok`**), along which nothing but glue comes into the main module
(`Firings.residue`).
-/

namespace OffloadFusion

open OffloadFusion.Action Program

variable {s t u : Session} {i : InstrId} {h : Heuristics} {rule : Rule} {found : Match} {n : Nat}

/-! ## Steps that succeed -/

namespace Action

theorem focus_ok {σ τ ε δ α : Type} {get : τ → σ} {set : σ → τ → τ} {rename : ε → δ}
    {x : Action σ ε α} {r r' : τ} {a : α} : focus get set rename x r = .ok a r' ↔
      ∃ w, x (get r) = .ok a w ∧ r' = set w r := by
  unfold focus
  cases x (get r) with
  | ok b w =>
    refine ⟨fun hok => ?_, fun ⟨w', hok, hr⟩ => ?_⟩
    · cases hok
      exact ⟨w, rfl, rfl⟩
    · cases hok
      rw [hr]
  | error f w => exact ⟨fun hok => (by cases hok), fun ⟨_, hok, _⟩ => (by cases hok)⟩

theorem theProgram_bind_ok {β : Type} {f : Program → Fusing β} {b : β} :
    (theProgram >>= f) s = .ok b t ↔ f s.program s = .ok b t := Iff.rfl

end Action

/-! ## Single rules -/

/-- The rule has applied at a match in the main module, and the program verifies. -/
structure Rule.Fires (rule : Rule) (h : Heuristics) (found : Match) (s t : Session) : Prop where
  mem : found.root ∈ s.program.body main
  matched : rule.matcher.run s.program h found.root = .ok (some found)
  applied : rule.apply found s = .ok true t
  valid : t.program.Valid

/-- The rule does not match at the instruction, or declines the match. -/
def Rule.Rests (rule : Rule) (h : Heuristics) (s : Session) (i : InstrId) : Prop :=
  rule.matcher.run s.program h i = .ok none ∨
    ∃ found, rule.matcher.run s.program h i = .ok (some found) ∧ rule.apply found s = .ok false s

theorem Rule.Fires.consumed (hf : rule.Fires h found s t) (hp : s.program.Valid) :
    Consumed (rule.used found) s.program t.program := by
  have hends := rule.ends_apply (hp.steady _) hf.mem hf.matched
  rw [Ends, hf.applied] at hends
  exact ⟨hends.kept, hends.spent rfl⟩

theorem Rule.Fires.placed (hf : rule.Fires h found s t) (hp : s.program.Valid) :
    ∃ m call, Placing m (some call) [] s.program t.program := by
  have hends := rule.ends_apply (hp.steady _) hf.mem hf.matched
  rw [Ends, hf.applied] at hends
  exact hends.placed rfl

/-- Rules of a family fire, one after the other. -/
inductive Firings (h : Heuristics) (rules : List Rule) : Nat → Session → Session → Prop where
  | none (s : Session) : Firings h rules 0 s s
  | cons {n : Nat} {s t u : Session} {rule : Rule} {found : Match} (hmem : rule ∈ rules)
    (hfires : rule.Fires h found s t) (hrest : Firings h rules n t u) : Firings h rules (n + 1) s u

namespace Firings

variable {rules : List Rule}

theorem valid (hf : Firings h rules n s t) (hp : s.program.Valid) : t.program.Valid := by
  induction hf with
  | none => exact hp
  | cons _ hfires _ ih => exact ih hfires.valid

theorem residue (hf : Firings h rules n s t) (hp : s.program.Valid) :
    Residue s.program t.program := by
  induction hf with
  | none s => exact .refl s.program
  | cons _ hfires _ ih => exact (hfires.consumed hp).residue.trans (ih hfires.valid)

end Firings

namespace Pass

/-! ## Loops -/

theorem verify_bind_ok {β : Type} {rest : Fusing β} {b : β} :
    (do
      (← theProgram).verify
      rest : Fusing β) s = .ok b t ↔ s.program.verify = .ok () ∧ rest s = .ok b t := by
  have hunfold : (do (← theProgram).verify; rest : Fusing β) s =
      ((liftM s.program.verify : Fusing Unit) >>= fun _ => rest) s := rfl
  rw [hunfold, Action.bind_ok]
  cases s.program.verify with
  | ok v =>
    refine ⟨fun ⟨_, _, hv, hrest⟩ => ?_, fun ⟨_, hrest⟩ => ⟨v, s, rfl, hrest⟩⟩
    cases hv
    exact ⟨rfl, hrest⟩
  | error e => exact ⟨fun ⟨_, _, hv, _⟩ => (by cases hv), fun ⟨hv, _⟩ => (by cases hv)⟩

theorem lift_edit_ok {α : Type} {e : Edit α} {a : α} :
    (liftM e : Fusing α) s = .ok a t ↔ ∃ q, e s.program = .ok a q ∧ t = { s with program := q } :=
  focus_ok

section

variable {rules : List (Rule × Nat)} {declined declined' : Declined}

/-- Either the rules rest at the instruction, or one of them has fired. -/
theorem tryRules_ok {fired : Bool} (hp : s.program.Valid) (hi : i ∈ s.program.body main)
    (hok : tryRules h i rules declined s = .ok (fired, declined') t) :
    (fired = false ∧ t = s ∧ ∀ rule ∈ rules, rule.1.Rests h s i) ∨
      (fired = true ∧ ∃ rule ∈ rules, ∃ found, rule.1.Fires h found s t) := by
  induction rules generalizing declined with
  | nil =>
    cases hok
    exact .inl ⟨rfl, rfl, nofun⟩
  | cons rule rules ih =>
    have hlater : rule.1.Rests h s i → ∀ {declined},
        tryRules h i rules declined s = .ok (fired, declined') t →
        (fired = false ∧ t = s ∧ ∀ r ∈ rule :: rules, r.1.Rests h s i) ∨
          (fired = true ∧ ∃ r ∈ rule :: rules, ∃ found, r.1.Fires h found s t) := by
      intro hrests _ hok
      obtain ⟨hfired, ht, hrest⟩ | ⟨hfired, r, hr, hfires⟩ := ih hok
      · exact .inl ⟨hfired, ht, List.forall_mem_cons.mpr ⟨hrests, hrest⟩⟩
      · exact .inr ⟨hfired, r, List.mem_cons_of_mem _ hr, hfires⟩
    rw [tryRules, theProgram_bind_ok, Action.lift_checked_bind_ok] at hok
    obtain ⟨found, hmatch, hok⟩ := hok
    cases found with
    | none => exact hlater (.inl hmatch) hok
    | some found =>
      have hroot : found.root = i := (Matcher.run_ok hmatch).1
      dsimp only at hok
      rw [Action.bind_ok] at hok
      obtain ⟨applied, t', happly, hok⟩ := hok
      cases applied with
      | true =>
        rw [if_pos rfl, verify_bind_ok] at hok
        obtain ⟨hverify, hok⟩ := hok
        cases hok
        refine .inr ⟨rfl, rule, List.mem_cons_self, found, ?_⟩
        exact ⟨hroot ▸ hi, hroot ▸ hmatch, happly, verify_ok.mp hverify⟩
      | false =>
        have hends := rule.1.ends_apply (hp.steady _) hi hmatch
        rw [Ends, happly] at hends
        obtain rfl := hends.declined rfl
        exact hlater (.inr ⟨found, hmatch, happly⟩) hok

theorem scan_ok {fired : Bool} {order : List InstrId} (hp : s.program.Valid)
    (horder : ∀ i ∈ order, i ∈ s.program.body main)
    (hok : scan h rules order declined s = .ok (fired, declined') t) :
    (fired = false ∧ t = s ∧ ∀ i ∈ order, ∀ rule ∈ rules, rule.1.Rests h s i) ∨
      (fired = true ∧ ∃ rule ∈ rules, ∃ found, rule.1.Fires h found s t) := by
  induction order generalizing declined with
  | nil =>
    cases hok
    exact .inl ⟨rfl, rfl, nofun⟩
  | cons i order ih =>
    rw [scan, Action.bind_ok] at hok
    obtain ⟨⟨fired', declined⟩, t', htry, hok⟩ := hok
    obtain ⟨rfl, rfl, hrests⟩ | ⟨rfl, hfires⟩ :=
      tryRules_ok hp (horder i List.mem_cons_self) htry
    · obtain ⟨hfired, ht, hrest⟩ | hfires :=
        ih (fun j hj => horder j (List.mem_cons_of_mem i hj)) hok
      · exact .inl ⟨hfired, ht, List.forall_mem_cons.mpr ⟨hrests, hrest⟩⟩
      · exact .inr hfires
    · cases hok
      exact .inr ⟨rfl, hfires⟩

/-- The rules have fired the given number of times, and rest everywhere. -/
theorem exhaust_ok {fuel : Nat} (hp : s.program.Valid)
    (hok : exhaust h rules fuel declined s = .ok (n, declined') t) :
    Firings h (rules.map Prod.fst) n s t ∧
      ∀ i ∈ t.program.body main, ∀ rule ∈ rules, rule.1.Rests h t i := by
  induction fuel generalizing s n declined with
  | zero => cases hok
  | succ fuel ih =>
    rw [exhaust, theProgram_bind_ok, Action.bind_ok] at hok
    obtain ⟨⟨fired, declined⟩, s', hscan, hok⟩ := hok
    obtain ⟨rfl, rfl, hrests⟩ | ⟨rfl, rule, hmem, found, hfires⟩ := scan_ok hp (fun _ => id) hscan
    · cases hok
      exact ⟨.none _, hrests⟩
    · dsimp only at hok
      rw [Action.bind_ok] at hok
      obtain ⟨⟨k, declined⟩, t', hrest, hok⟩ := hok
      cases hok
      obtain ⟨hfirings, hrests⟩ := ih hfires.valid hrest
      exact ⟨.cons (List.mem_map_of_mem hmem) hfires hfirings, hrests⟩

end

/-! ## Stages -/

/-- A family has fired the given number of times, which is zero unless it is enabled; if it is, it
rests everywhere now. -/
structure Stage (enabled : Bool) (h : Heuristics) (rules : List Rule) (n : Nat) (s t : Session) :
    Prop where
  firings : Firings h rules n s t
  idle : enabled = false → n = 0
  rests : enabled = true → ∀ i ∈ t.program.body main, ∀ rule ∈ rules, rule.Rests h t i

/-- **A family fires until it rests everywhere.** -/
theorem runFamily_ok {rules : List Rule} {k : Nat} (hp : s.program.Valid)
    (hok : runFamily h rules s = .ok (n, k) t) : Stage true h rules n s t := by
  rw [runFamily, theProgram_bind_ok, Action.bind_ok] at hok
  obtain ⟨⟨n', declined⟩, t', hexhaust, hok⟩ := hok
  cases hok
  obtain ⟨hfirings, hrests⟩ := exhaust_ok hp hexhaust
  rw [List.zipIdx_map_fst] at hfirings
  refine ⟨hfirings, nofun, fun _ i hi rule hrule => ?_⟩
  rw [← List.zipIdx_map_fst 0 rules] at hrule
  obtain ⟨entry, hentry, rfl⟩ := List.mem_map.mp hrule
  exact hrests i hi entry hentry

theorem runFamilyIf_ok {enabled : Bool} {rules : List Rule} {k : Nat} (hp : s.program.Valid)
    (hok : runFamilyIf enabled h rules s = .ok (n, k) t) : Stage enabled h rules n s t := by
  unfold runFamilyIf at hok
  cases enabled with
  | true => exact runFamily_ok hp hok
  | false =>
    cases hok
    exact ⟨.none s, fun _ => rfl, nofun⟩

/-- The stages of a run with the sessions between them. -/
structure Course (c : Config) (stats : Stats) (fused alone : Nat)
    (s s₁ s₂ s₃ s₄ s₅ s₆ t : Session) : Prop where
  fusedAttention : Stage c.attentionEnabled c.heuristics [.fusedAttention] fused s s₁
  attention : Stage c.attentionEnabled c.heuristics [.attention] alone s₁ s₂
  anchorPointwise : Stage true c.heuristics
    [.anchorPointwise (c.mode "fused_convolution") (c.mode "fused_dot")] stats.anchorPointwise s₂ s₃
  standalone : Stage true c.heuristics
    [.standaloneConv (c.mode "convolution"), .standaloneDot (c.mode "dot")] stats.standalone s₃ s₄
  deadCode : Edit.eliminateDeadCode s₄.program = .ok stats.deadCode s₅.program
  splitReduce : Stage c.reduceFusion c.heuristics [.splitReduce] stats.splitReduce s₅ s₆
  inputFusion : Stage c.inputFusion c.heuristics [.inputFusion] stats.inputFusion s₆ t
  absorbed : ∃ k, runFamilyIf c.attentionEnabled c.heuristics [.fusedAttention] s =
    .ok (fused, k) s₁
  total : stats.attention = fused + alone

namespace Course

variable {c : Config} {stats : Stats} {fused alone : Nat} {s₁ s₂ s₃ s₄ s₅ s₆ : Session}
  (hc : Course c stats fused alone s s₁ s₂ s₃ s₄ s₅ s₆ t) (hp : s.program.Valid)
include hc hp

theorem valid₁ : s₁.program.Valid := hc.fusedAttention.firings.valid hp

theorem valid₂ : s₂.program.Valid := hc.attention.firings.valid (hc.valid₁ hp)

theorem valid₃ : s₃.program.Valid := hc.anchorPointwise.firings.valid (hc.valid₂ hp)

theorem valid₄ : s₄.program.Valid := hc.standalone.firings.valid (hc.valid₃ hp)

theorem trim : Trim none s₄.program s₅.program :=
  ((hc.valid₄ hp).steady none).trim_eliminateDeadCode hc.deadCode

theorem valid₅ : s₅.program.Valid := (hc.trim hp).steady.valid

theorem valid₆ : s₆.program.Valid := hc.splitReduce.firings.valid (hc.valid₅ hp)

theorem valid : t.program.Valid := hc.inputFusion.firings.valid (hc.valid₆ hp)

end Course

/-- **A run that comes to an end has gone through all stages.** -/
theorem runFamilies_ok {c : Config} {stats : Stats} (hp : s.program.Valid)
    (hok : runFamilies c s = .ok stats t) : ∃ fused alone s₁ s₂ s₃ s₄ s₅ s₆,
      Course c stats fused alone s s₁ s₂ s₃ s₄ s₅ s₆ t := by
  simp only [runFamilies, Action.bind_ok, Prod.exists] at hok
  obtain ⟨fused, _, s₁, h₁, alone, _, s₂, h₂, anchors, _, s₃, h₃, wrapped, _, s₄, h₄, dce, s₅, h₅,
    reduces, _, s₆, h₆, inputs, _, s₇, h₇, _, _, hread, hok⟩ := hok
  cases hread
  cases hok
  have stage₁ := runFamilyIf_ok hp h₁
  have hp₁ := stage₁.firings.valid hp
  have stage₂ := runFamilyIf_ok hp₁ h₂
  have hp₂ := stage₂.firings.valid hp₁
  have stage₃ := runFamily_ok hp₂ h₃
  have hp₃ := stage₃.firings.valid hp₂
  have stage₄ := runFamily_ok hp₃ h₄
  have hp₄ := stage₄.firings.valid hp₃
  obtain ⟨q, hdce, rfl⟩ := lift_edit_ok.mp h₅
  have hp₅ : q.Valid := ((hp₄.steady none).trim_eliminateDeadCode hdce).steady.valid
  have stage₅ := runFamilyIf_ok hp₅ h₆
  have stage₆ := runFamilyIf_ok (stage₅.firings.valid hp₅) h₇
  exact ⟨fused, alone, s₁, s₂, s₃, s₄, _, s₆, stage₁, stage₂, stage₃, stage₄, hdce, stage₅, stage₆,
    ⟨_, h₁⟩, rfl⟩

/-- A run of a pass that is on is such a sequence of stages. -/
theorem run_ok {c : Config} {stats : Stats} {p q : Program} (hp : p.Valid)
    (hon : c.disabled = false) (hrun : run c p = .ok stats q) : ∃ fused alone s₁ s₂ s₃ s₄ s₅ s₆ t,
      t.program = q ∧ Course c stats fused alone ⟨p, 0⟩ s₁ s₂ s₃ s₄ s₅ s₆ t := by
  rw [run, hon, if_neg Bool.false_ne_true, focus_ok] at hrun
  obtain ⟨t, hok, rfl⟩ := hrun
  obtain ⟨fused, alone, s₁, s₂, s₃, s₄, s₅, s₆, hc⟩ := runFamilies_ok hp hok
  exact ⟨fused, alone, s₁, s₂, s₃, s₄, s₅, s₆, t, rfl, hc⟩

end Pass

end OffloadFusion
