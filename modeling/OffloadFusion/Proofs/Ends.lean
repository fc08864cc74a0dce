import OffloadFusion.Proofs.Outcomes

/-!
# How fusion steps end

`x.Ends s Q` says that the step `x` taken from `s` ends with a result and a state in `Q`, or stops
for another reason than a failed verification. The rules follow the steps: `ends_bind` for one step
after the other, `ends_edit` for an edit of the program that a state holds, `ends_mapM` for loops.
`x.Preserves I` is the case where `I` holds before and after.
-/

namespace OffloadFusion.Action

variable {σ τ α β : Type} {x : Action σ FusionError α} {f : α → Action σ FusionError β} {s : σ}
  {P Q : α → σ → Prop} {R : β → σ → Prop} {I : σ → Prop}

/-- The step ends in `Q`, unless it stops for another reason than a failed verification. -/
def Ends (x : Action σ FusionError α) (s : σ) (Q : α → σ → Prop) : Prop :=
  match x s with
  | .ok a t => Q a t
  | .error e _ => ∀ cause, e ≠ .refused (.verify cause)

/-- The step ends in `I` again where it started in `I`. -/
def Preserves (I : σ → Prop) (x : Action σ FusionError α) : Prop :=
  ∀ s, I s → x.Ends s fun _ t => I t

theorem Ends.mono (h : x.Ends s P) (hPQ : ∀ a t, P a t → Q a t) : x.Ends s Q := by
  unfold Ends at h ⊢
  split at h
  · exact hPQ _ _ h
  · exact h

theorem Ends.and (hP : x.Ends s P) (hQ : x.Ends s Q) : x.Ends s fun a t => P a t ∧ Q a t := by
  unfold Ends at hP hQ ⊢
  split at hP
  · next hx =>
    rw [hx] at hQ
    exact ⟨hP, hQ⟩
  · exact hP

/-! ## Steps -/

@[simp] theorem ends_pure {a : α} : (pure a : Action σ FusionError α).Ends s Q ↔ Q a s := Iff.rfl

theorem ends_bind : (x >>= f).Ends s R ↔ x.Ends s fun a t => (f a).Ends t R := by
  unfold Ends
  simp only [bind, EStateM.bind]
  cases x s <;> rfl

theorem ends_discard {Q : PUnit → σ → Prop} :
    (discard x).Ends s Q ↔ x.Ends s fun _ t => Q ⟨⟩ t := by
  unfold Ends
  simp only [discard, Functor.mapConst, EStateM.map, Function.comp_apply]
  cases x s <;> rfl

@[simp] theorem ends_get_bind {f : σ → Action σ FusionError β} :
    ((get : Action σ FusionError σ) >>= f).Ends s R ↔ (f s).Ends s R := Iff.rfl

@[simp] theorem ends_set {t : σ} {Q : PUnit → σ → Prop} :
    (set t : Action σ FusionError PUnit).Ends s Q ↔ Q ⟨⟩ t := Iff.rfl

@[simp] theorem ends_modify {g : σ → σ} {Q : PUnit → σ → Prop} :
    (modify g : Action σ FusionError PUnit).Ends s Q ↔ Q ⟨⟩ (g s) := Iff.rfl

theorem ends_refuse {e : FusionError} (he : ∀ cause, e ≠ .verify cause) :
    (refuse e : Action σ FusionError α).Ends s Q := fun cause h => he cause (Failure.refused.inj h)

theorem ends_fault {e : Fault} : (throw (.fault e) : Action σ FusionError α).Ends s Q := nofun

theorem ends_lift_checked {o : Checked α} :
    (liftM o : Action σ FusionError α).Ends s Q ↔ ∀ a, o = .ok a → Q a s := by
  cases o with
  | ok a => exact ⟨fun h _ he => Except.ok.inj he ▸ h, fun h => h a rfl⟩
  | error e => exact ⟨nofun, fun _ => nofun⟩

theorem ends_lift_graph {o : Outcome GraphError α} :
    (liftM o : Action σ FusionError α).Ends s Q ↔ ∀ a, o = .ok a → Q a s := by
  cases o with
  | ok a => exact ⟨fun h _ he => Except.ok.inj he ▸ h, fun h => h a rfl⟩
  | error e => exact ⟨nofun, fun _ cause he => by cases e <;> cases he⟩

theorem ends_edit [HoldsProgram σ] {e : Edit α} : (liftM e : Action σ FusionError α).Ends s Q ↔
    ∀ a q, e (HoldsProgram.program s) = .ok a q → Q a (HoldsProgram.withProgram q s) := by
  unfold Ends
  simp only [liftM, monadLift, MonadLift.monadLift, focus]
  cases e (HoldsProgram.program s) with
  | ok a q => exact ⟨fun h _ _ he => by cases he; exact h, fun h => h a q rfl⟩
  | error e q => exact ⟨nofun, fun _ cause he => by cases e <;> cases he⟩

theorem ends_theProgram_bind [HoldsProgram σ] {f : Program → Action σ FusionError β} :
    (theProgram >>= f).Ends s R ↔ (f (HoldsProgram.program s)).Ends s R := Iff.rfl

theorem ends_focus {get : τ → σ} {set : σ → τ → τ} {t : τ} {Q : α → τ → Prop} :
    (focus get set id x).Ends t Q ↔ x.Ends (get t) fun a s => Q a (set s t) := by
  have hid : ∀ e : Failure FusionError, e.map id = e := fun e => by cases e <;> rfl
  unfold Ends focus
  cases x (get t) with
  | ok a s => exact Iff.rfl
  | error e s => simp only [hid]

/-- A loop each round of which keeps an invariant and gives something in `C`. -/
theorem ends_mapM {γ : Type} {xs : List β} {g : β → Action σ FusionError γ} {C : γ → Prop}
    (h : ∀ b ∈ xs, ∀ s, I s → (g b).Ends s fun c t => C c ∧ I t) (hs : I s) :
    (xs.mapM g).Ends s fun cs t => (∀ c ∈ cs, C c) ∧ I t := by
  induction xs generalizing s with
  | nil => exact ⟨fun c hc => absurd hc List.not_mem_nil, hs⟩
  | cons b xs ih =>
    rw [List.mapM_cons, ends_bind]
    refine (h b List.mem_cons_self s hs).mono fun c t ht => ?_
    rw [ends_bind]
    refine (ih (fun d hd => h d (List.mem_cons_of_mem b hd)) ht.2).mono fun cs u hu => ?_
    exact ⟨List.forall_mem_cons.mpr ⟨ht.1, hu.1⟩, hu.2⟩

/-! ## Invariants -/

namespace Preserves

theorem pure (a : α) : Preserves I (Pure.pure a : Action σ FusionError α) := fun _ hs => hs

theorem bind (h : x.Preserves I) (hf : ∀ a, (f a).Preserves I) : (x >>= f).Preserves I := by
  intro s hs
  rw [ends_bind]
  exact (h s hs).mono fun a t ht => hf a t ht

theorem refuse {e : FusionError} (he : ∀ cause, e ≠ .verify cause) :
    Preserves I (Action.refuse e : Action σ FusionError α) := fun _ _ => ends_refuse he

theorem fault {e : Fault} : Preserves I (throw (.fault e) : Action σ FusionError α) := fun _ _ =>
  ends_fault

theorem lift_checked (o : Checked α) : Preserves I (liftM o : Action σ FusionError α) :=
  fun _ hs => ends_lift_checked.mpr fun _ _ => hs

theorem lift_graph (o : Outcome GraphError α) : Preserves I (liftM o : Action σ FusionError α) :=
  fun _ hs => ends_lift_graph.mpr fun _ _ => hs

theorem get : Preserves I (MonadState.get : Action σ FusionError σ) := fun _ hs => hs

theorem theProgram [HoldsProgram σ] :
    Preserves I (OffloadFusion.theProgram : Action σ FusionError Program) := fun _ hs => hs

theorem ite {c : Prop} [Decidable c] {y : Action σ FusionError α} (hx : x.Preserves I)
    (hy : y.Preserves I) : (if c then x else y).Preserves I := by
  split <;> assumption

theorem forM {xs : List β} {g : β → Action σ FusionError PUnit}
    (h : ∀ b ∈ xs, (g b).Preserves I) : (xs.forM g).Preserves I := by
  induction xs with
  | nil => exact .pure _
  | cons b xs ih =>
    exact (h b List.mem_cons_self).bind fun _ => ih fun c hc => h c (List.mem_cons_of_mem b hc)

theorem mapM {γ : Type} {xs : List β} {g : β → Action σ FusionError γ}
    (h : ∀ b ∈ xs, (g b).Preserves I) : (xs.mapM g).Preserves I := fun _ hs =>
  (ends_mapM (C := fun _ => True) (fun b hb t ht => (h b hb t ht).mono fun _ _ hu => ⟨trivial, hu⟩)
    hs).mono fun _ _ ht => ht.2

end Preserves

end OffloadFusion.Action
