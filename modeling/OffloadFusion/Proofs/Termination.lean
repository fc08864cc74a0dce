import OffloadFusion.Proofs.Counting
import OffloadFusion.Proofs.Liveness
import OffloadFusion.Proofs.Progress

/-!
# The pass comes to an end

A family scans the main module again after every rule that fires. Each firing uses up an instruction
of the kind that the family counts down, and the module has no more of them than instructions, so
the scans end (`Pass.settles_exhaust`). No step of a scan has a fault but lapses, and dead code
elimination has none at all. So **a run ends with a result, an error or a lapse, and fires no more
rules than there are instructions for them** (`Pass.run_terminates`).
-/

namespace OffloadFusion

open OffloadFusion.Action Program

variable {s t : Session} {i : InstrId} {h : Heuristics} {c : Config} {n : Nat} {test : Op → Bool}
  {loose : Prop}

/-! ## Dead code -/

namespace Edit

theorem keeps_sweep {kept : Option InstrId} (is : List InstrId) : (sweep kept is).Keeps Sound := by
  induction is with
  | nil => exact (readOnly_pure _).keeps
  | cons i is ih =>
    refine readOnly_get.keeps.bind fun p => Keeps.bind
      (ReadOnly.keeps fun s => after_lift_checked _ s) fun inst => ?_
    split
    · exact ih
    · exact keeps_removeInstruction.bind fun _ => ih.bind fun _ => (readOnly_pure _).keeps

theorem keeps_sweepAll (ms : List ModuleId) (count : Nat) :
    (ms.foldlM (fun count m => do return count + (← sweepModule m)) count : Edit Nat).Keeps
      Sound := by
  induction ms generalizing count with
  | nil => exact (readOnly_pure _).keeps
  | cons m ms ih =>
    rw [List.foldlM_cons]
    exact Keeps.bind (readOnly_get.keeps.bind fun p => (keeps_sweep _).bind fun _ =>
      (readOnly_pure _).keeps) fun _ => ih _

theorem keeps_removeModules (ms : List ModuleId) : (ms.forM removeModule).Keeps Sound := by
  induction ms with
  | nil => exact (readOnly_pure _).keeps
  | cons m ms ih => exact keeps_removeModule.bind fun _ => ih

theorem keeps_eliminateDeadCode : eliminateDeadCode.Keeps Sound :=
  readOnly_get.keeps.bind fun _ => (keeps_sweepAll _ _).bind fun _ => readOnly_get.keeps.bind
    fun _ => Keeps.bind (ReadOnly.keeps fun s => after_lift_checked _ s) fun _ =>
      (keeps_removeModules _).bind fun _ => (readOnly_pure _).keeps

end Edit

/-! ## Scans -/

/-- The program of the session verifies, its index fits its modules, the main module is there, and
types are `loose` or have a stride for each axis. -/
structure Session.InOrder (loose : Prop) (s : Session) : Prop where
  valid : s.program.Valid
  indexed : s.program.Indexed
  main : s.program.HasMain
  types : loose ∨ s.program.Ranked

theorem Session.InOrder.fit (hs : s.InOrder loose) : s.program.Fit loose :=
  hs.valid.fit hs.indexed hs.main hs.types

namespace Pass

theorem settles_verify_bind {β : Type} {rest : Fusing β} {R : β → Session → Prop}
    (hs : HoldsFit loose s) (hrest : s.InOrder loose → rest.Settles loose s R) :
    (do
      (← theProgram).verify
      rest : Fusing β).Settles loose s R := by
  rw [settles_theProgram_bind, settles_bind]
  have hlapses : Lapses loose s.program.verify := hs.linked.lapses_verify hs.ranked
  show Settles loose (liftM s.program.verify : Fusing Unit) s _
  cases hv : s.program.verify with
  | ok u => exact hrest ⟨verify_ok.mp hv, hs.indexed, hs.main, hs.ranked⟩
  | error e =>
    rw [hv] at hlapses
    cases e with
    | refused reason => nofun
    | fault e =>
      rintro _ ⟨⟩
      exact hlapses e rfl

section

variable {rules : List (Rule × Nat)} {declined : Declined}

theorem settles_tryRules (hs : s.InOrder loose) (hi : i ∈ s.program.body main) :
    (tryRules h i rules declined).Settles loose s fun _ t => t.InOrder loose := by
  induction rules generalizing declined with
  | nil => exact hs
  | cons rule rules ih =>
    obtain ⟨found, hmatch⟩ := Matcher.exists_run hs.valid.toLinked rule.1.matcher
    rw [tryRules, settles_theProgram_bind, settles_bind]
    refine settles_lift_checked (hmatch ▸ faultsIn_ok) fun found hmatch => ?_
    cases found with
    | none => exact ih
    | some found =>
      dsimp only
      rw [settles_bind]
      refine (rule.1.settles_apply hs.fit (hs.valid.steady _) hi hmatch).mono
        fun applied t hok ht => ?_
      cases applied with
      | true => exact settles_verify_bind ht id
      | false =>
        have hends := rule.1.ends_apply (hs.valid.steady _) hi hmatch
        rw [Ends, hok] at hends
        obtain rfl := hends.declined rfl
        exact ih

theorem settles_scan {order : List InstrId} (hs : s.InOrder loose)
    (horder : ∀ i ∈ order, i ∈ s.program.body main) :
    (scan h rules order declined).Settles loose s fun _ t => t.InOrder loose := by
  induction order generalizing declined with
  | nil => exact hs
  | cons i order ih =>
    have hi := horder i List.mem_cons_self
    rw [scan, settles_bind]
    refine (settles_tryRules hs hi).mono fun answer t hok ht => ?_
    obtain ⟨fired, declined⟩ := answer
    obtain ⟨rfl, rfl, -⟩ | ⟨rfl, -⟩ := tryRules_ok hs.valid hi hok
    · exact ih fun j hj => horder j (List.mem_cons_of_mem i hj)
    · exact ht

/-- **The scans end**: every one but the last uses up an instruction. -/
theorem settles_exhaust {fuel : Nat} (hs : s.InOrder loose) (htest : Op.Counts test)
    (htakes : ∀ rule ∈ rules, rule.1.Takes test) (hfuel : s.program.tally test < fuel) :
    (exhaust h rules fuel declined).Settles loose s fun _ t => t.InOrder loose := by
  induction fuel generalizing s declined with
  | zero => omega
  | succ fuel ih =>
    rw [exhaust, settles_theProgram_bind, settles_bind]
    refine (settles_scan hs fun _ => id).mono fun answer t hok ht => ?_
    obtain ⟨fired, declined⟩ := answer
    obtain ⟨rfl, -⟩ | ⟨rfl, rule, hrule, found, hfires⟩ := scan_ok hs.valid (fun _ => id) hok
    · exact ht
    · have hless := hfires.tally_lt hs.valid htest (htakes rule hrule)
      exact settles_bind.mpr ((ih ht (by omega)).mono fun _ _ _ hu => hu)

end

/-! ## Families -/

theorem takes_standalone {conv dot : Mode} :
    ∀ r ∈ [Rule.standaloneConv conv, Rule.standaloneDot dot], r.Takes Op.isAnchor :=
  List.forall_mem_cons.mpr ⟨Rule.takes_standalone ⟨conv, .inl rfl⟩,
    List.forall_mem_singleton.mpr (Rule.takes_standalone ⟨dot, .inr rfl⟩)⟩

/-- The step leads from a session in order to one in order, without a fault but lapses. -/
abbrev Orderly {α : Type} (loose : Prop) (x : Fusing α) : Prop :=
  x.Settling loose (Session.InOrder loose) (Session.InOrder loose)

theorem orderly_runFamily {rules : List Rule} (htest : Op.Counts test)
    (htakes : ∀ rule ∈ rules, rule.Takes test) : Orderly loose (runFamily h rules) := by
  intro s hs
  rw [runFamily, settles_theProgram_bind, settles_bind]
  have hcount : s.program.tally test ≤ (s.program.body main).length := List.countP_le_length
  refine (settles_exhaust hs htest (fun rule hrule => ?_) (Nat.lt_succ_of_le hcount)).mono
    fun _ _ _ ht => ht
  exact htakes rule.1 (List.fst_mem_of_mem_zipIdx hrule)

theorem orderly_runFamilyIf {enabled : Bool} {rules : List Rule} (htest : Op.Counts test)
    (htakes : ∀ rule ∈ rules, rule.Takes test) : Orderly loose (runFamilyIf enabled h rules) :=
  .ite (fun _ => orderly_runFamily htest htakes) fun _ => .pure _

theorem orderly_eliminateDeadCode :
    Orderly loose (liftM Edit.eliminateDeadCode : Fusing DeadCode) := by
  intro s hs
  refine Settles.focus ?_
  obtain ⟨result, q, hok, hclean, hq⟩ := hs.valid.exists_cleaned hs.main
  have hsound : q.Sound := after_of_ok hok ▸ Edit.keeps_eliminateDeadCode s.program hs.fit.toSound
  show Settles loose Edit.eliminateDeadCode s.program _
  rw [Settles, hok]
  refine ⟨hq, hsound.indexed, (hclean.module? main).mpr .refl, hs.types.imp_right fun hr => ?_⟩
  rintro i type ⟨inst, hi, rfl⟩
  obtain ⟨inst', hi', -, -, -, htype, -⟩ := hclean.same i inst hi
  exact hr i _ ⟨inst', hi', htype.symm⟩

/-- **No stage has a fault but lapses.** -/
theorem orderly_runFamilies : Orderly loose (runFamilies c) := by
  refine (orderly_runFamilyIf Op.counts_isAttention
    (List.forall_mem_singleton.mpr (Rule.takes_attention (.inl rfl)))).bind fun _ => ?_
  refine (orderly_runFamilyIf Op.counts_isAttention
    (List.forall_mem_singleton.mpr (Rule.takes_attention (.inr rfl)))).bind fun _ => ?_
  refine (orderly_runFamily Op.counts_isPointwise
    (List.forall_mem_singleton.mpr (Rule.takes_anchorPointwise _ _))).bind fun _ => ?_
  refine (orderly_runFamily Op.counts_isAnchor takes_standalone).bind fun _ => ?_
  refine orderly_eliminateDeadCode.bind fun _ => ?_
  refine (orderly_runFamilyIf Op.counts_isSplitReduce
    (List.forall_mem_singleton.mpr Rule.takes_splitReduce)).bind fun _ => ?_
  refine (orderly_runFamilyIf Op.counts_isPointwise
    (List.forall_mem_singleton.mpr Rule.takes_inputFusion)).bind fun _ => ?_
  exact fun s hs => hs

theorem settles_run {p : Program} (hp : p.Valid) (hx : p.Indexed) (hmain : p.HasMain)
    (htypes : loose ∨ p.Ranked) : (run c).Settles loose p fun _ _ => True := by
  refine settles_ite (fun _ => trivial) fun _ => Settles.focus ?_
  exact (orderly_runFamilies ⟨p, 0⟩ ⟨hp, hx, hmain, htypes⟩).mono fun _ _ _ _ => trivial

/-! ## Bounds -/

/-- The number of pointwise instructions that a run takes up with attention. -/
def absorbed (c : Config) (p : Program) : Nat :=
  if c.disabled then 0
  else match runFamilyIf c.attentionEnabled c.heuristics [.fusedAttention] ⟨p, 0⟩ with
    | .ok (n, _) _ => n
    | .error _ _ => 0

namespace Course

variable {stats : Stats} {fused alone : Nat} {s₁ s₂ s₃ s₄ s₅ s₆ : Session}
  (hc : Course c stats fused alone s s₁ s₂ s₃ s₄ s₅ s₆ t) (hp : s.program.Valid)
include hc hp

/-- **No stage brings in what the rules count down.** -/
theorem tally_le (htest : Op.Counts test) :
    s₁.program.tally test ≤ s.program.tally test ∧
    s₂.program.tally test ≤ s₁.program.tally test ∧
    s₃.program.tally test ≤ s₂.program.tally test ∧
    s₄.program.tally test ≤ s₃.program.tally test ∧
    s₅.program.tally test ≤ s₄.program.tally test ∧
    s₆.program.tally test ≤ s₅.program.tally test := by
  have hfirings : ∀ {rules : List Rule} {n : Nat} {u v : Session},
      Firings c.heuristics rules n u v → u.program.Valid →
        v.program.tally test ≤ u.program.tally test :=
    fun hf hu => (hf.residue hu).tally_le (hf.valid hu).toLinked htest
  exact ⟨hfirings hc.fusedAttention.firings hp, hfirings hc.attention.firings (hc.valid₁ hp),
    hfirings hc.anchorPointwise.firings (hc.valid₂ hp),
    hfirings hc.standalone.firings (hc.valid₃ hp),
    ((hc.trim hp).residue (hc.valid₄ hp).toLinked).tally_le (hc.valid₅ hp).toLinked htest,
    hfirings hc.splitReduce.firings (hc.valid₅ hp)⟩

theorem attention_le : stats.attention ≤ s.program.tally Op.isAttention := by
  have hfused := hc.fusedAttention.firings.tally_add_le hp Op.counts_isAttention
    (List.forall_mem_singleton.mpr (Rule.takes_attention (.inl rfl)))
  have halone := hc.attention.firings.tally_add_le (hc.valid₁ hp) Op.counts_isAttention
    (List.forall_mem_singleton.mpr (Rule.takes_attention (.inr rfl)))
  have htotal := hc.total
  omega

theorem pointwise_le : stats.anchorPointwise + stats.inputFusion + fused ≤
    s.program.tally Op.isPointwise := by
  have hfused := hc.fusedAttention.firings.tally_add_le hp Op.counts_isPointwise
    (List.forall_mem_singleton.mpr Rule.takes_fusedAttention)
  have hanchor := hc.anchorPointwise.firings.tally_add_le (hc.valid₂ hp) Op.counts_isPointwise
    (List.forall_mem_singleton.mpr (Rule.takes_anchorPointwise _ _))
  have hinput := hc.inputFusion.firings.tally_add_le (hc.valid₆ hp) Op.counts_isPointwise
    (List.forall_mem_singleton.mpr Rule.takes_inputFusion)
  have hle := hc.tally_le hp Op.counts_isPointwise
  omega

theorem standalone_le : stats.standalone ≤ s.program.tally Op.isAnchor := by
  have hstandalone := hc.standalone.firings.tally_add_le (hc.valid₃ hp) Op.counts_isAnchor
    takes_standalone
  have hle := hc.tally_le hp Op.counts_isAnchor
  omega

theorem splitReduce_le : stats.splitReduce ≤ s.program.tally Op.isSplitReduce := by
  have hsplit := hc.splitReduce.firings.tally_add_le (hc.valid₅ hp) Op.counts_isSplitReduce
    (List.forall_mem_singleton.mpr Rule.takes_splitReduce)
  have hle := hc.tally_le hp Op.counts_isSplitReduce
  omega

end Course

/-- **A run comes to an end**: it succeeds, it is refused, or it panics because a size or a stride
overflows or, if some type has not one stride for each axis, because a view reads beyond them. If it
succeeds, no rule has fired more often than there were instructions for it: attention for the rules
of attention, pointwise instructions for those that take one up, dots and convolutions for the rules
of single anchors, and split reductions. -/
theorem run_terminates (p : Program) (c : Config) (hv : p.verify = .ok ()) (hx : p.Indexed)
    (hmain : p.HasMain) :
    (∀ e q, run c p = .error (.fault e) q → e = .overflow ∨ ¬ p.Ranked ∧ e = .outOfRange) ∧
    ∀ stats q, run c p = .ok stats q →
      stats.attention ≤ p.tally Op.isAttention ∧
      stats.anchorPointwise + stats.inputFusion + absorbed c p ≤ p.tally Op.isPointwise ∧
      stats.standalone ≤ p.tally Op.isAnchor ∧
      stats.splitReduce ≤ p.tally Op.isSplitReduce := by
  have hp := verify_ok.mp hv
  refine ⟨fun e q herror => ?_, fun stats q hrun => ?_⟩
  · have hsettles := settles_run (c := c) hp hx hmain (em p.Ranked).symm
    rw [Settles, herror] at hsettles
    exact hsettles e rfl
  · cases hon : c.disabled with
    | true =>
      rw [run, hon, if_pos rfl] at hrun
      cases hrun
      rw [absorbed, hon]
      exact ⟨Nat.zero_le _, Nat.zero_le _, Nat.zero_le _, Nat.zero_le _⟩
    | false =>
      obtain ⟨fused, alone, _, _, _, _, _, _, t, rfl, hc⟩ := run_ok hp hon hrun
      obtain ⟨k, hfused⟩ := hc.absorbed
      have habsorbed : absorbed c p = fused := by
        rw [absorbed, hon, if_neg Bool.false_ne_true, hfused]
      rw [habsorbed]
      exact ⟨hc.attention_le hp, hc.pointwise_le hp, hc.standalone_le hp, hc.splitReduce_le hp⟩

end Pass

/-- A dot over an axis of a given length, of two values repeated along all axes. -/
def Program.dotOver (length : Nat) : Program :=
  (do
    let a ← Edit.addParameter main "a" ⟨.f32, [4, length], [0, 0]⟩
    let b ← Edit.addParameter main "b" ⟨.f32, [length, 4], [0, 0]⟩
    let c ← Edit.addInstruction main (.dot false) [a, b] []
    let _ ← Edit.addReturn main [c] : Edit Unit).after .empty

/-- A dot, and a pointwise that adds a constant with the given strides. -/
def Program.dotPlus (strides : Strides) : Program :=
  (do
    let body ← Edit.createModule "f"
    let x ← Edit.addParameter body "x0" ⟨.f32, [1], [1]⟩
    let one ← Edit.addLiteral body ⟨.f32, [1], strides⟩ (.f32 [⟨0x3f800000⟩])
    let sum ← Edit.addInstruction body (.binary .add) [x, one] []
    let _ ← Edit.addReturn body [sum]
    let a ← Edit.addParameter main "a" ⟨.f32, [1, 1], [1, 1]⟩
    let b ← Edit.addParameter main "b" ⟨.f32, [1, 1], [1, 1]⟩
    let product ← Edit.addInstruction main (.dot false) [a, b] []
    let result ← Edit.addInstruction main .pointwise [product] [body]
    let _ ← Edit.addReturn main [result] : Edit Unit).after .empty

namespace Pass

/-- How a run panics, if it does. -/
def panic? (c : Config) (p : Program) : Option Fault :=
  match run c p with
  | .error (.fault e) _ => some e
  | _ => none

theorem panic?_eq_some {p : Program} {e : Fault} :
    panic? c p = some e ↔ ∃ q, run c p = .error (.fault e) q := by
  unfold panic?
  split
  · next e' q hrun => simp [hrun]
  · next hno => simpa using fun q hrun => hno e q hrun

/-- A row-major parameter of the region would have more elements than there are sizes, and a
constant without strides is read by its first one where it is broadcast. -/
theorem run_panics :
    ((dotOver (2 ^ 62)).verify = .ok () ∧ (dotOver (2 ^ 62)).HasMain ∧
      ∃ q, run .default (dotOver (2 ^ 62)) = .error (.fault .overflow) q) ∧
    (dotPlus []).verify = .ok () ∧ (dotPlus []).HasMain ∧
      ∃ q, run .default (dotPlus []) = .error (.fault .outOfRange) q := by
  simp only [HasMain, ← panic?_eq_some]
  decide +kernel

/-- A short axis is wrapped. -/
theorem run_terminates_at_dot : (dotOver 2).verify = .ok () ∧
    ∃ stats q, run .default (dotOver 2) = .ok stats q ∧ stats.standalone = 1 ∧
      stats.standalone ≤ (dotOver 2).tally Op.isAnchor := by
  have hv : (dotOver 2).verify = .ok () := by decide +kernel
  have hx : (dotOver 2).Indexed := Indexed.of_entries (by decide +kernel) (by decide +kernel)
  have hmain : (dotOver 2).HasMain := by rw [HasMain]; decide +kernel
  obtain ⟨stats, q, hrun, hone⟩ : ∃ stats q, run .default (dotOver 2) = .ok stats q ∧
      stats.standalone = 1 := by decide +kernel
  have hbounds := (run_terminates (dotOver 2) .default hv hx hmain).2 stats q hrun
  exact ⟨hv, stats, q, hrun, hone, hbounds.2.2.1⟩

end Pass

end OffloadFusion
