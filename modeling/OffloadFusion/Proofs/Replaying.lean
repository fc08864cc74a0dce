import OffloadFusion.Proofs.Feeding

/-!
# Bodies are replayed

A body is replayed in an open region instruction by instruction.

* `Program.returned`: the instructions whose values a body gives.
* `Copies`, `Replayable`: however an operation is emitted on values that a site admits, it becomes
  a value that the site admits.
* `Replayed`: what is known on the way; one instruction takes it further
  (`Open.completes_copyOne`).
* **`Building.Open.completes_fuse`**: a replayable body is replayed to values of what it gives.
-/

namespace OffloadFusion

open OffloadFusion.Action Program

theorem Action.completes_forM {σ ε β : Type} {xs : List β} {g : β → Action σ ε PUnit} {s : σ}
    {I : List β → σ → Prop} (hstart : I [] s)
    (hstep : ∀ done, ∀ x ∈ xs, ∀ t, I done t → (g x).Completes t fun _ t' => I (done ++ [x]) t') :
    (xs.forM g).Completes s fun _ t => I xs t := by
  suffices h : ∀ done rest s, done ++ rest = xs → I done s →
      (rest.forM g).Completes s fun _ t => I xs t from h [] xs s rfl hstart
  intro done rest
  induction rest generalizing done with
  | nil =>
    rintro s rfl hs
    exact completes_pure.mpr ((List.append_nil done).symm ▸ hs)
  | cons x rest ih =>
    intro s hxs hs
    have hmem : x ∈ xs := hxs ▸ List.mem_append_right done List.mem_cons_self
    refine completes_bind.mpr ?_
    exact (hstep done x hmem s hs).mono fun _ t ht => ih (done ++ [x]) t (by simpa using hxs) ht

theorem Op.inferType_literal {t : TensorType} {data : LiteralData} {types : List ValueType}
    {signatures : List Signature} {type : ValueType}
    (h : (Op.literal t data).inferType types signatures = .ok type) :
    (Op.literal t data).inferType [] [] = .ok (.tensor t) ∧ type = .tensor t := by
  simp only [Op.inferType, Outcome.bind_ok] at h ⊢
  obtain ⟨-, -, h⟩ := h
  have htype : type = .tensor t := by
    simp only [LiteralData.output, Outcome.bind_ok, Outcome.ite_ok, Outcome.refuse_ok, false_and,
      exists_false, and_false, false_or, Outcome.pure_ok] at h
    obtain ⟨-, _, -, -, h⟩ := h
    exact h.symm
  exact ⟨⟨⟨⟩, rfl, htype ▸ h⟩, htype⟩

/-! ## What a body gives -/

namespace Program

variable {p : Program} {body : ModuleId} {i x last : InstrId} {inst : Instruction}

theorem hasOp_isBoundary (p : Program) (i : InstrId) : p.hasOp Op.isBoundary i =
    (p.hasOp Op.isParam i || p.hasOp Op.isLiteral i || p.hasOp Op.isReturn i) := by
  cases hi : p.instr? i <;> simp [hasOp, hi, Op.isBoundary]

theorem hasOp_isReturn_of_isParam (h : p.hasOp Op.isParam i = true) :
    p.hasOp Op.isReturn i = false := by
  obtain ⟨inst, hi, hparam⟩ := hasOp_iff.mp h
  rw [hasOp, hi, Option.any_some]
  cases hop : inst.op with
  | param name t => rfl
  | _ => rw [hop] at hparam; cases hparam

/-- The instructions whose values a module gives: the operands of its return, or else its last
instruction. -/
def returned (p : Program) (body : ModuleId) : List InstrId :=
  ((p.body body).getLast?.bind fun last => (p.instr? last).map fun inst =>
    if inst.op.isReturn then inst.inputs else [last]).getD []

/-- The instruction whose value a module with one return value gives. -/
def given? (p : Program) (body : ModuleId) : Option InstrId := do
  let last ← (p.body body).getLast?
  let inst ← p.instr? last
  if inst.op.isReturn then inst.inputs.head? else some last

theorem returned_eq (hlast : (p.body body).getLast? = some last) (hi : p.instr? last = some inst) :
    p.returned body = if inst.op.isReturn then inst.inputs else [last] := by
  rw [returned, hlast, Option.bind_some, hi]
  rfl

theorem given?_eq_head? (p : Program) (body : ModuleId) :
    p.given? body = (p.returned body).head? := by
  unfold given? returned
  cases (p.body body).getLast? with
  | none => rfl
  | some last =>
    simp only [Option.bind_eq_bind, Option.bind_some]
    cases p.instr? last with
    | none => rfl
    | some inst =>
      simp only [Option.bind_some, Option.map_some, Option.getD_some]
      split <;> rfl

theorem Valid.returned_inner (hp : p.Valid) (hx : x ∈ p.returned body) :
    x ∈ p.body body ∧ p.hasOp Op.isReturn x = false := by
  cases hlast : (p.body body).getLast? with
  | none =>
    rw [returned, hlast] at hx
    cases hx
  | some last =>
    have hmem := List.mem_of_getLast? hlast
    obtain ⟨inst, hi, -⟩ := hp.owned hmem
    rw [returned_eq hlast hi] at hx
    split at hx
    · have hbefore := hp.before_of_uses hmem ⟨inst, hi, hx⟩
      exact ⟨hbefore.left_mem, hp.isReturn_of_before hbefore⟩
    · next hop =>
      rw [List.mem_singleton.mp hx, hasOp, hi, Option.any_some]
      exact ⟨hmem, Bool.eq_false_iff.mpr hop⟩

/-- Where a module gives single tensors, these are what its signature says. -/
theorem returns_of_signature {s : Signature} (hsig : p.signature body = .ok s)
    (hx : ∀ x ∈ p.returned body, ∃ t, p.HasType x (.tensor t)) :
    List.Forall₂ (fun x t => p.HasType x (.tensor t)) (p.returned body) s.returns := by
  obtain ⟨module, hmodule, -, hreturns⟩ := signature_ok.mp hsig
  rw [returnTypes_ok, ← body_of_module? hmodule] at hreturns
  cases hlast : (p.body body).getLast? with
  | none =>
    rw [hlast] at hreturns
    rw [returned, hlast, hreturns]
    exact .nil
  | some last =>
    rw [hlast] at hreturns
    obtain ⟨inst, hi, hreturns⟩ := hreturns
    rw [returned_eq hlast hi] at hx ⊢
    split at hreturns
    · next hop => rwa [if_pos hop]
    · next hop =>
      rw [if_neg hop] at hx ⊢
      obtain ⟨t, inst', hi', htype⟩ := hx last (List.mem_singleton_self last)
      cases hi.symm.trans hi'
      rw [hreturns, htype]
      exact .cons ⟨inst, hi, htype⟩ .nil

theorem exists_returned {params : List TensorType} {r : TensorType}
    (hsig : p.signature body = .ok ⟨params, [r]⟩) : ∃ x, p.returned body = [x] := by
  obtain ⟨module, hmodule, -, hreturns⟩ := signature_ok.mp hsig
  rw [returnTypes_ok, ← body_of_module? hmodule] at hreturns
  cases hlast : (p.body body).getLast? with
  | none =>
    rw [hlast] at hreturns
    cases hreturns
  | some last =>
    rw [hlast] at hreturns
    obtain ⟨inst, hi, hreturns⟩ := hreturns
    rw [returned_eq hlast hi]
    split at hreturns
    · next hop =>
      rw [if_pos hop]
      exact List.length_eq_one_iff.mp hreturns.length_eq
    · next hop =>
      rw [if_neg hop]
      exact ⟨last, rfl⟩

end Program

namespace Building

open Replay

variable {S : Site} {names : List String} {w : Workspace} {region : Region} {s₀ s s' : Scope}
  {type : ValueType} {i : InstrId} {body : ModuleId} {emit : Emit}

/-- The region with the values that a replay has reached. -/
def within (region : Region) (s : Scope) : Workspace :=
  ⟨s.program, { region with values := s.values }⟩

theorem valueOf_eq {value : InstrId} (h : s.values.image? i = some value) :
    valueOf i s = .ok value s := by
  show (liftM (s.values.image i) : Replaying InstrId) s = _
  rw [Renaming.image_ok.mpr h]
  rfl

theorem completes_replaying {α : Type} {step : Replaying α} {Q : α → Workspace → Prop} :
    (replaying step).Completes w Q ↔
      step.Completes ⟨w.program, w.region.values⟩ fun a s => Q a (within w.region s) :=
  completes_focus

/-! ## Replays -/

/-- The emission of the instruction on values that the site admits gives one that it admits. -/
def Copies (S : Site) (emit : Emit) (i : InstrId) : Prop :=
  ∀ names region s inst args, Open S names (within region s) → s.program.instr? i = some inst →
    List.Forall₂ (S.Stands s.program) inst.inputs args →
      (emit inst args).Completes s fun value s' => ∃ type, S.admits i type ∧
        Yields S names (within region s) type value (within region s')

/-- The body is another module than the region, no return and nothing that is threaded has a value
there, and the emission copies each of its operations. -/
structure Replayable (S : Site) (emit : Emit) (body : ModuleId) : Prop where
  inner : body ≠ S.module
  returns : ∀ {i type}, S.admits i type → S.program.hasOp Op.isReturn i = false
  threaded : ∀ i ∈ S.program.body body, ¬ S.threaded i
  copies : ∀ i ∈ S.program.body body, S.program.hasOp Op.isBoundary i = false → Copies S emit i

/-- The parameters of the body have values, and its constants have, or may be copied as they are. -/
structure Supplied (S : Site) (body : ModuleId) (values : Renaming) : Prop where
  parameters : ∀ i ∈ S.program.parameters body, values.contains i
  constants : ∀ i ∈ S.program.body body, S.program.hasOp Op.isLiteral i → values.contains i ∨
    ∀ type, S.program.HasType i type → S.admits i type

theorem Supplied.mono {values values' : Renaming} (h : Supplied S body values)
    (hle : ∀ i, values.contains i → values'.contains i) : Supplied S body values' :=
  ⟨fun i hi => hle i (h.parameters i hi), fun i hi hop => (h.constants i hi hop).imp_left (hle i)⟩

/-- What is known after a replay has gone through the instructions. -/
structure Replayed (S : Site) (names : List String) (region : Region) (s s' : Scope)
    (done : List InstrId) : Prop where
  isOpen : Open S names (within region s')
  later : Later S (within region s) (within region s')
  known : ∀ i ∈ done, S.program.hasOp Op.isReturn i = false → s'.values.contains i

theorem Replayed.snoc {done : List InstrId} (h : Replayed S names region s₀ s done)
    (hopen : Open S names (within region s'))
    (hlater : Later S (within region s) (within region s')) (hi : s'.values.contains i) :
    Replayed S names region s₀ s' (done ++ [i]) :=
  ⟨hopen, h.later.trans hlater, fun j hj hnot => (List.mem_append.mp hj).elim
    (fun hj => hlater.known j (h.known j hj hnot)) fun hj => List.mem_singleton.mp hj ▸ hi⟩

theorem Replayed.contains_inputs {done rest : List InstrId} {inst : Instruction}
    (h : Replayed S names region s₀ s done) (hp : S.program.Valid)
    (hsplit : S.program.body body = done ++ i :: rest) (hi : S.program.instr? i = some inst) :
    ∀ x ∈ inst.inputs, s.values.contains x := by
  intro x hx
  have hmem : i ∈ S.program.body body := hsplit ▸ List.mem_append_right done List.mem_cons_self
  have hbefore := hp.before_of_uses hmem ⟨inst, hi, hx⟩
  have hn := hp.nodup body
  rw [hsplit] at hn
  exact h.known x ((before_append_cons hn).mp (hsplit ▸ hbefore)) (hp.isReturn_of_before hbefore)

/-- What was met of the returns among the instructions. -/
def Met (p : Program) (is : List InstrId) (returns result : Option (List InstrId)) : Prop :=
  (∃ i inst, is.getLast? = some i ∧ p.instr? i = some inst ∧ inst.op = .ret ∧
    result = some inst.inputs) ∨
  ((∀ i ∈ is, p.hasOp Op.isReturn i = false) ∧ result = returns)

theorem Met.cons {p : Program} {is : List InstrId} {returns result : Option (List InstrId)}
    (h : Met p is returns result) (hi : p.hasOp Op.isReturn i = false) :
    Met p (i :: is) returns result := by
  obtain ⟨j, inst, hlast, hj⟩ | ⟨hnone, hresult⟩ := h
  · exact .inl ⟨j, inst, by rw [List.getLast?_cons, hlast]; rfl, hj⟩
  · exact .inr ⟨List.forall_mem_cons.mpr ⟨hi, hnone⟩, hresult⟩

namespace Open

theorem completes_emit (h : Open S names (within region s)) {e : Edit InstrId}
    (he : e.Completes s.program (Emitted S.program S.module s.program type)) :
    (liftM e : Replaying InstrId).Completes s fun i s' =>
      Yields S names (within region s) type i (within region s') :=
  completes_edit.mpr (he.mono fun _ _ hr => h.emitted hr)

theorem completes_record (h : Open S names (within region s)) {value : InstrId}
    (hvalue : S.Stands s.program i value) (hnot : ¬ S.threaded i) :
    (Replay.know i value).Completes s fun _ s' => Open S names (within region s') ∧
      Later S (within region s) (within region s') ∧ s'.values.contains i := by
  rw [Replay.know, completes_modify]
  exact h.knowing hvalue fun ht => absurd ht hnot

theorem known_of_mem (h : Open S names (within region s)) (hi : s.values.contains i) :
    ∃ value, s.values.image? i = some value ∧ S.Stands s.program i value := by
  obtain ⟨value, himage⟩ := Option.isSome_iff_exists.mp hi
  exact ⟨value, himage, h.knows i value himage⟩

theorem completes_valuesOf (h : Open S names (within region s)) {is : List InstrId}
    (his : ∀ i ∈ is, s.values.contains i) :
    (is.mapM valueOf).Completes s fun values s' => s' = s ∧
      List.Forall₂ (S.Stands s.program) is values := by
  refine completes_mapM_read fun j hj => ?_
  obtain ⟨value, himage, hvalue⟩ := h.known_of_mem (his j hj)
  exact ⟨value, valueOf_eq himage, hvalue⟩

/-- **An instruction is copied, and its value becomes known.** -/
theorem completes_copyOne (h : Open S names (within region s)) {inst : Instruction}
    (hargs : ∀ x ∈ inst.inputs, s.values.contains x) (hnot : ¬ S.threaded i)
    {step : List InstrId → Replaying InstrId}
    (hstep : ∀ args, List.Forall₂ (S.Stands s.program) inst.inputs args →
      (step args).Completes s fun value s' => ∃ type, S.admits i type ∧
        Yields S names (within region s) type value (within region s'))
    {α : Type} {rest : Replaying α} {Q : α → Scope → Prop}
    (hrest : ∀ s', Open S names (within region s') →
      Later S (within region s) (within region s') → s'.values.contains i → rest.Completes s' Q) :
    (do
      let args ← inst.inputs.mapM valueOf
      let copy ← step args
      Replay.know i copy
      rest : Replaying α).Completes s Q := by
  rw [completes_bind]
  refine (h.completes_valuesOf hargs).mono fun args t ⟨ht, hargs⟩ => ?_
  subst ht
  rw [completes_bind]
  refine (hstep args hargs).mono fun value s₁ ⟨type, hadmits, h₁⟩ => ?_
  rw [completes_bind]
  refine (h₁.isOpen.completes_record ⟨type, hadmits, h₁.held⟩ hnot).mono
    fun _ s₂ ⟨hopen, hlater, hknown⟩ => ?_
  exact hrest s₂ hopen (h₁.later.trans hlater) hknown

/-! ### One instruction -/

section

variable {rest : List InstrId} {returns : Option (List InstrId)} {inst : Instruction}
  {Q : Option (List InstrId) → Scope → Prop}

theorem completes_replay_known (hi : s.values.contains i)
    (h : (replayFrom S.module emit rest returns).Completes s Q) :
    (replayFrom S.module emit (i :: rest) returns).Completes s Q := by
  rw [replayFrom, completes_get_bind, if_pos hi]
  exact h

theorem completes_replay_return (hi : ¬ s.values.contains i)
    (hinst : s.program.instr? i = some inst) (hop : inst.op = .ret)
    (h : (replayFrom S.module emit rest (some inst.inputs)).Completes s Q) :
    (replayFrom S.module emit (i :: rest) returns).Completes s Q := by
  rw [replayFrom, completes_get_bind, if_neg hi, completes_bind]
  refine (completes_lift_checked (instr_ok.mpr hinst)).mpr ?_
  rw [hop]
  exact h

/-- A constant is copied as it is, and an operation as it is emitted. -/
theorem completes_replay_copy (hr : Replayable S emit body) (hp : S.program.Valid)
    (h : Open S names (within region s)) (hmem : i ∈ S.program.body body)
    (hi : ¬ s.values.contains i) (hinst : s.program.instr? i = some inst)
    (hsupplied : Supplied S body s.values) (hret : S.program.hasOp Op.isReturn i = false)
    (hargs : ∀ x ∈ inst.inputs, s.values.contains x)
    (hrest : ∀ s', Open S names (within region s') →
      Later S (within region s) (within region s') → s'.values.contains i →
        (replayFrom S.module emit rest returns).Completes s' Q) :
    (replayFrom S.module emit (i :: rest) returns).Completes s Q := by
  have hnot := hr.threaded i hmem
  obtain ⟨inst', hi', hcore⟩ := (h.unfinished.isLocal.core hr.inner hmem).exists_instr hinst
  obtain ⟨hop, -⟩ := Instruction.core_eq_iff.mp hcore
  have hhas : ∀ test, S.program.hasOp test i = test inst.op := fun test => by
    rw [hasOp, hi', Option.any_some, hop]
  rw [hhas] at hret
  have hcopies : S.program.hasOp Op.isBoundary i = false → ∀ args,
      List.Forall₂ (S.Stands s.program) inst.inputs args →
        (emit inst args).Completes s fun value s' => ∃ type, S.admits i type ∧
          Yields S names (within region s) type value (within region s') :=
    fun hb args => hr.copies i hmem hb names region s inst args h hinst
  rw [replayFrom, completes_get_bind, if_neg hi, completes_bind]
  refine (completes_lift_checked (instr_ok.mpr hinst)).mpr ?_
  rw [hhas] at hcopies
  cases hop' : inst.op with
  | ret => rw [hop'] at hret; cases hret
  | param name t =>
    refine absurd (hsupplied.parameters i (List.mem_filter.mpr ⟨hmem, ?_⟩)) hi
    rw [hhas, hop']
    rfl
  | literal t data =>
    refine h.completes_copyOne hargs hnot (fun args _ => ?_) hrest
    obtain ⟨types, signatures, -, -, hinfer⟩ := infer_ok.mp (hp.fresh hi')
    rw [← hop, hop'] at hinfer
    obtain ⟨hliteral, htype⟩ := Op.inferType_literal hinfer
    have hadmits := (hsupplied.constants i hmem (by rw [hhas, hop']; rfl)).resolve_left hi
    exact (h.completes_emit (h.unfinished.completes_addLiteral hliteral)).mono
      fun value s' hv => ⟨_, hadmits _ ⟨inst', hi', htype⟩, hv⟩
  | _ =>
    refine h.completes_copyOne hargs hnot (hcopies ?_) hrest
    rw [hop']
    rfl

end

/-! ### Bodies -/

theorem completes_replayFrom (hr : Replayable S emit body) (hp : S.program.Valid)
    {rest done : List InstrId} {returns : Option (List InstrId)}
    (hsplit : S.program.body body = done ++ rest) (h : Replayed S names region s₀ s done)
    (hsupplied : Supplied S body s.values) :
    (replayFrom S.module emit rest returns).Completes s fun result s' =>
      Replayed S names region s₀ s' (S.program.body body) ∧
        Met S.program rest returns result := by
  -- along the body: what is behind is known, and what is ahead finds its operands there
  induction rest generalizing done s returns with
  | nil =>
    rw [replayFrom, completes_pure]
    rw [hsplit, List.append_nil]
    exact ⟨h, .inr ⟨fun _ hi => absurd hi List.not_mem_nil, rfl⟩⟩
  | cons i rest ih =>
    have hmem : i ∈ S.program.body body := hsplit ▸ List.mem_append_right done List.mem_cons_self
    have hsplit' : S.program.body body = (done ++ [i]) ++ rest := by
      rw [hsplit, List.append_assoc, List.singleton_append]
    obtain ⟨inst, hi, howner⟩ := hp.owned hmem
    by_cases hknown : s.values.contains i
    · obtain ⟨value, -, type, hadmits, -⟩ := h.isOpen.known_of_mem hknown
      refine completes_replay_known hknown ?_
      refine (ih hsplit' (h.snoc h.isOpen (.refl _ _) hknown) hsupplied).mono ?_
      rintro result s' ⟨hs', hmet⟩
      exact ⟨hs', hmet.cons (hr.returns hadmits)⟩
    · obtain ⟨inst', hi', hcore⟩ :=
        (h.isOpen.unfinished.isLocal.core hr.inner hmem).symm.exists_instr hi
      obtain ⟨hop, hinputs, -⟩ := Instruction.core_eq_iff.mp hcore
      by_cases hret : inst.op = .ret
      · have hreturn : S.program.hasOp Op.isReturn i = true :=
          hasOp_iff.mpr ⟨inst, hi, hret ▸ rfl⟩
        obtain rfl := hp.nil_of_return hsplit hreturn
        refine completes_replay_return hknown hi' (hop ▸ hret) ?_
        rw [replayFrom, completes_pure, ← hinputs]
        refine ⟨⟨h.isOpen, h.later, fun j hj hnot => ?_⟩, .inl ⟨i, inst, rfl, hi, hret, rfl⟩⟩
        rw [hsplit] at hj
        obtain hj | hj := List.mem_append.mp hj
        · exact h.known j hj hnot
        · rw [List.mem_singleton.mp hj] at hnot
          exact absurd hnot (hreturn ▸ Bool.noConfusion)
      · have hnot : S.program.hasOp Op.isReturn i = false := by
          rw [hasOp, hi, Option.any_some]
          cases hop : inst.op with
          | ret => exact absurd hop hret
          | _ => rfl
        refine completes_replay_copy hr hp h.isOpen hmem hknown hi' hsupplied hnot
          (hinputs ▸ h.contains_inputs hp hsplit hi) fun s' hopen hlater hnew => ?_
        refine (ih hsplit' (h.snoc hopen hlater hnew) (hsupplied.mono hlater.known)).mono ?_
        rintro result s' ⟨hs', hmet⟩
        exact ⟨hs', hmet.cons hnot⟩

/-- **A replayable body is replayed to values of what it gives.** -/
theorem completes_replayWith (hr : Replayable S emit body) (hp : S.program.Valid)
    (halive : (S.program.module? body).isSome) (h : Open S names (within region s))
    (hsupplied : Supplied S body s.values) :
    (replayWith S.module emit body).Completes s fun values s' =>
      Open S names (within region s') ∧ Later S (within region s) (within region s') ∧
        List.Forall₂ (S.Stands s'.program) (S.program.returned body) values := by
  obtain ⟨module, hmodule⟩ := Option.isSome_iff_exists.mp halive
  have hlist := body_of_module? hmodule
  have hmodule' : s.program.module? body = some module :=
    (h.unfinished.isLocal.module? hr.inner).trans hmodule
  rw [replayWith, completes_theProgram_bind, completes_bind]
  refine (completes_lift_checked (module_ok.mpr hmodule')).mpr ?_
  rw [completes_bind, ← hlist]
  refine (completes_replayFrom hr hp (List.nil_append _).symm
    ⟨h, .refl _ _, fun _ hi => absurd hi List.not_mem_nil⟩ hsupplied).mono ?_
  rintro result s' ⟨hs', hmet⟩
  have hknown : ∀ x ∈ S.program.returned body, s'.values.contains x := fun x hx =>
    hs'.known x (hp.returned_inner hx).1 (hp.returned_inner hx).2
  obtain ⟨i, inst, hlast, hi, hop, rfl⟩ | ⟨hnone, rfl⟩ := hmet
  · have hgives : S.program.returned body = inst.inputs := by
      rw [returned_eq hlast hi, hop]
      rfl
    rw [hgives] at hknown ⊢
    refine (hs'.isOpen.completes_valuesOf hknown).mono ?_
    rintro values t ⟨ht, hvalues⟩
    subst ht
    exact ⟨hs'.isOpen, hs'.later, hvalues⟩
  · rw [completes_get_bind, completes_pure]
    refine ⟨hs'.isOpen, hs'.later, ?_⟩
    have hbody : s'.program.body body = S.program.body body :=
      hs'.isOpen.unfinished.isLocal.body hr.inner
    rw [hbody]
    cases hlast : (S.program.body body).getLast? with
    | none =>
      rw [returned, hlast]
      exact .nil
    | some last =>
      obtain ⟨inst, hi, -⟩ := hp.owned (List.mem_of_getLast? hlast)
      have hnot := hnone last (List.mem_of_getLast? hlast)
      rw [hasOp, hi, Option.any_some] at hnot
      have hgives : S.program.returned body = [last] := by
        rw [returned_eq hlast hi, hnot, if_neg Bool.false_ne_true]
      obtain ⟨value, himage, hvalue⟩ := hs'.isOpen.known_of_mem
        (hknown last (hgives ▸ List.mem_singleton_self last))
      rw [hgives, Option.bind_some, himage]
      exact .cons hvalue .nil

/-! ## Fused bodies -/

/-- The instruction may feed a parameter of the region, which may stand for it. -/
def Offered (S : Site) (i : InstrId) : Prop :=
  ∃ t, S.Feeds i t ∧ ∀ u, t.asStandard = .ok u → S.admits i (.tensor u)

/-- The operands of a body become parameters unless they have a value. -/
theorem completes_feed (hS : S.Sound) (h : Open S names w) {inputs : List InstrId}
    (hinputs : ∀ i ∈ inputs, w.region.values.contains i ∨ Offered S i) :
    (inputs.forM fun input => do
      if !(← get).region.values.contains input then
        let _ ← addInput input : Building Unit).Completes w fun _ w' =>
      Later S w w' ∧ (∀ i ∈ inputs, w'.region.values.contains i) ∧
        ∃ more, Open S (names ++ more) w' ∧ more.length ≤ inputs.length := by
  refine completes_forM (I := fun done w' => Later S w w' ∧
    (∀ i ∈ done, w'.region.values.contains i) ∧ ∃ more,
      Open S (names ++ more) w' ∧ more.length ≤ done.length)
    ⟨.refl _ w, fun _ hi => absurd hi List.not_mem_nil, [], ?_, Nat.le_refl _⟩
    fun done i hi w₁ ⟨hlater, hdone, more, hopen, hlen⟩ => ?_
  · rwa [List.append_nil]
  · rw [completes_get_bind]
    split
    · next hnew =>
      obtain ⟨t, hfeeds, hadmits⟩ := (hinputs i hi).resolve_left fun hknown => by
        rw [hlater.known i hknown] at hnew
        cases hnew
      rw [completes_bind]
      refine (hopen.completes_addInput hS hfeeds hadmits).mono
        fun _ w₂ ⟨⟨name, hopen'⟩, hlater', hknown⟩ => ?_
      rw [completes_pure]
      refine ⟨hlater.trans hlater', fun j hj => ?_, more ++ [name], ?_, ?_⟩
      · refine (List.mem_append.mp hj).elim (fun hj => hlater'.known j (hdone j hj)) fun hj => ?_
        rwa [List.mem_singleton.mp hj]
      · rwa [← List.append_assoc]
      · rw [List.length_append, List.length_append]
        exact Nat.add_le_add_right hlen 1
    · next hknown =>
      rw [completes_pure]
      refine ⟨hlater, fun j hj => ?_, more, hopen, hlen.trans (by simp)⟩
      refine (List.mem_append.mp hj).elim (hdone j) fun hj => ?_
      rw [List.mem_singleton.mp hj]
      simpa using hknown

theorem completes_bindParams {params inputs : List InstrId} (h : Open S names w)
    (hparams : List.Forall₂ (fun param input => ∀ type, S.admits input type →
      S.admits param type) params inputs) (hnot : ∀ i ∈ params, ¬ S.threaded i)
    (hinputs : ∀ i ∈ inputs, w.region.values.contains i) :
    (bindParams params inputs).Completes w fun _ w' => Open S names w' ∧ Later S w w' ∧
      ∀ i ∈ params, w'.region.values.contains i := by
  induction hparams generalizing w with
  | nil =>
    rw [bindParams, completes_pure]
    exact ⟨h, .refl _ w, fun _ hi => absurd hi List.not_mem_nil⟩
  | @cons param input params inputs hadmits _ ih =>
    obtain ⟨hinput, hrest⟩ := List.forall_mem_cons.mp hinputs
    obtain ⟨hparam, hnot⟩ := List.forall_mem_cons.mp hnot
    obtain ⟨value, himage⟩ := Option.isSome_iff_exists.mp hinput
    obtain ⟨type, htype, hheld⟩ := h.knows input value himage
    rw [bindParams, completes_bind, completes_replaying]
    refine ⟨value, ⟨w.program, w.region.values⟩, valueOf_eq himage, ?_⟩
    dsimp only
    rw [completes_bind]
    refine (h.completes_know ⟨type, hadmits type htype, hheld⟩ fun ht => absurd ht hparam).mono
      fun _ w₁ ⟨h₁, hlater, hknown⟩ => ?_
    refine (ih h₁ hnot fun i hi => hlater.known i (hrest i hi)).mono
      fun _ w₂ ⟨h₂, hlater', hall⟩ => ⟨h₂, hlater.trans hlater', ?_⟩
    exact List.forall_mem_cons.mpr ⟨hlater'.known param hknown, hall⟩

/-- **A replayable body is fused to values of what it gives.** -/
theorem completes_fuse {mode : Replay.Mode} (hr : Replayable S (emitter S.module mode) body)
    (hS : S.Sound) (halive : (S.program.module? body).isSome) {inputs : List InstrId}
    (hinputs : ∀ i ∈ inputs, w.region.values.contains i ∨ Offered S i)
    (hparams : List.Forall₂ (fun param input => ∀ type, S.admits input type →
      S.admits param type) (S.program.parameters body) inputs)
    (h : Open S names w) (hliterals : ∀ i ∈ S.program.body body,
      S.program.hasOp Op.isLiteral i → w.region.values.contains i ∨
        ∀ type, S.program.HasType i type → S.admits i type) :
    (fuse body inputs mode).Completes w fun values w' => ∃ more,
      more.length ≤ inputs.length ∧ Open S (names ++ more) w' ∧ Later S w w' ∧
        (∀ i ∈ inputs, w'.region.values.contains i) ∧
          List.Forall₂ (S.Stands w'.program) (S.program.returned body) values := by
  rw [fuse, completes_bind]
  refine (h.completes_feed hS hinputs).mono ?_
  rintro _ w₁ ⟨hlater₁, hknown, more, h₁, hlen⟩
  rw [completes_theProgram_bind, completes_bind]
  have hsame : w₁.program.parameters body = S.program.parameters body :=
    parameters_congr (h₁.unfinished.isLocal.body hr.inner) fun j hj =>
      h₁.unfinished.isLocal.core hr.inner hj
  rw [show HoldsProgram.program w₁ = w₁.program from rfl, hsame]
  refine (h₁.completes_bindParams hparams (fun i hi => hr.threaded i (mem_parameters hi))
    hknown).mono ?_
  rintro _ w₂ ⟨h₂, hlater₂, hbound⟩
  refine h₂.completes_module_bind ?_
  rw [completes_replaying]
  have hlater := hlater₁.trans hlater₂
  have hsupplied : Supplied S body w₂.region.values :=
    ⟨hbound, fun i hi hop => (hliterals i hi hop).imp_left (hlater.known i)⟩
  have hopen : Open S (names ++ more) (within w₂.region ⟨w₂.program, w₂.region.values⟩) := h₂
  refine (completes_replayWith hr hS.valid halive hopen hsupplied).mono ?_
  rintro values s' ⟨h₃, hlater₃, hvalues⟩
  exact ⟨more, hlen, h₃, hlater.trans hlater₃,
    fun i hi => hlater₃.known i (hlater₂.known i (hknown i hi)), hvalues⟩

end Open

end Building

end OffloadFusion
