import OffloadFusion.Proofs.Ends

/-!
# Steps that return

`x.Completes s Q` says that the step `x` taken from `s` returns a result, and that the result and
the state it leaves are in `Q`. The rules follow the steps as those of `Ends` do, but nothing is
lost on the way: a step that is refused or faults does not complete. `Completes.and_ends` joins what
is known to return with what is known of every end.

`x.CompletesIff B s Q` says that the step returns exactly where `B` holds. Such a step may stand
between steps that return.
-/

namespace OffloadFusion.Action

variable {σ τ ε δ α β : Type} {x : Action σ ε α} {f : α → Action σ ε β} {s : σ}
  {P Q : α → σ → Prop} {R : β → σ → Prop}

/-- The step returns, and ends in `Q`. -/
def Completes (x : Action σ ε α) (s : σ) (Q : α → σ → Prop) : Prop :=
  ∃ a t, x s = .ok a t ∧ Q a t

theorem Completes.mono (h : x.Completes s P) (hPQ : ∀ a t, P a t → Q a t) : x.Completes s Q := by
  obtain ⟨a, t, hx, ha⟩ := h
  exact ⟨a, t, hx, hPQ a t ha⟩

theorem Completes.self (h : x.Completes s Q) :
    x.Completes s fun a t => x s = .ok a t ∧ Q a t := by
  obtain ⟨a, t, hx, ha⟩ := h
  exact ⟨a, t, hx, hx, ha⟩

theorem Completes.and_ends {x : Action σ FusionError α} (h : x.Completes s P) (he : x.Ends s Q) :
    x.Completes s fun a t => P a t ∧ Q a t := by
  obtain ⟨a, t, hx, ha⟩ := h
  rw [Ends, hx] at he
  exact ⟨a, t, hx, ha, he⟩

/-! ## Steps -/

@[simp] theorem completes_pure {a : α} : (pure a : Action σ ε α).Completes s Q ↔ Q a s := by
  simp [Completes]

theorem completes_bind :
    (x >>= f).Completes s R ↔ x.Completes s fun a t => (f a).Completes t R := by
  simp only [Completes, bind_ok]
  constructor
  · rintro ⟨b, u, ⟨a, t, hx, hf⟩, hb⟩
    exact ⟨a, t, hx, b, u, hf, hb⟩
  · rintro ⟨a, t, hx, b, u, hf, hb⟩
    exact ⟨b, u, ⟨a, t, hx, hf⟩, hb⟩

theorem completes_discard {Q : PUnit → σ → Prop} :
    (discard x).Completes s Q ↔ x.Completes s fun _ t => Q ⟨⟩ t := by
  unfold Completes
  simp only [discard, Functor.mapConst, EStateM.map, Function.comp_apply]
  cases x s with
  | ok a t =>
    constructor
    · rintro ⟨_, _, ⟨⟩, hQ⟩
      exact ⟨a, t, rfl, hQ⟩
    · rintro ⟨_, _, ⟨⟩, hQ⟩
      exact ⟨_, t, rfl, hQ⟩
  | error e t => simp

@[simp] theorem completes_get_bind {f : σ → Action σ ε β} :
    ((get : Action σ ε σ) >>= f).Completes s R ↔ (f s).Completes s R := Iff.rfl

@[simp] theorem completes_set {t : σ} {Q : PUnit → σ → Prop} :
    (set t : Action σ ε PUnit).Completes s Q ↔ Q ⟨⟩ t :=
  ⟨fun ⟨_, _, h, hQ⟩ => by cases h; exact hQ, fun h => ⟨⟨⟩, t, rfl, h⟩⟩

@[simp] theorem completes_modify {g : σ → σ} {Q : PUnit → σ → Prop} :
    (modify g : Action σ ε PUnit).Completes s Q ↔ Q ⟨⟩ (g s) :=
  ⟨fun ⟨_, _, h, hQ⟩ => by cases h; exact hQ, fun h => ⟨⟨⟩, g s, rfl, h⟩⟩

theorem completes_lift {o : Outcome ε α} {a : α} (h : o = .ok a) :
    (liftM o : Action σ ε α).Completes s Q ↔ Q a s := by
  simp [Completes, h]

theorem completes_lift_checked {o : Checked α} {a : α} (h : o = .ok a) :
    (liftM o : Action σ ε α).Completes s Q ↔ Q a s := by
  simp [Completes, h]

theorem completes_lift_graph {o : Outcome GraphError α} {a : α} {Q : α → σ → Prop} (h : o = .ok a) :
    (liftM o : Action σ FusionError α).Completes s Q ↔ Q a s := by
  subst h
  exact completes_pure

theorem completes_edit [HoldsProgram σ] {e : Edit α} {Q : α → σ → Prop} :
    (liftM e : Action σ FusionError α).Completes s Q ↔ e.Completes (HoldsProgram.program s)
      fun a q => Q a (HoldsProgram.withProgram q s) := by
  unfold Completes
  simp only [liftM, monadLift, MonadLift.monadLift, focus]
  cases e (HoldsProgram.program s) <;> simp

theorem completes_theProgram_bind [HoldsProgram σ] {f : Program → Action σ FusionError β}
    {R : β → σ → Prop} :
    (theProgram >>= f).Completes s R ↔ (f (HoldsProgram.program s)).Completes s R := Iff.rfl

theorem completes_focus {get : τ → σ} {set : σ → τ → τ} {rename : ε → δ} {t : τ}
    {Q : α → τ → Prop} : (focus get set rename x).Completes t Q ↔
      x.Completes (get t) fun a s => Q a (set s t) := by
  unfold Completes focus
  cases x (get t) <;> simp

theorem completes_mapM_read {γ : Type} {xs : List β} {g : β → Action σ ε γ} {C : β → γ → Prop}
    (h : ∀ b ∈ xs, ∃ c, g b s = .ok c s ∧ C b c) :
    (xs.mapM g).Completes s fun cs t => t = s ∧ List.Forall₂ C xs cs := by
  induction xs with
  | nil => exact ⟨[], s, rfl, rfl, .nil⟩
  | cons b xs ih =>
    obtain ⟨c, hg, hc⟩ := h b List.mem_cons_self
    rw [List.mapM_cons, completes_bind]
    refine ⟨c, s, hg, ?_⟩
    dsimp only
    rw [completes_bind]
    refine (ih fun d hd => h d (List.mem_cons_of_mem b hd)).mono fun cs t ht => ?_
    rw [completes_pure]
    exact ⟨ht.1, .cons hc ht.2⟩

/-! ## Steps that return under a condition -/

/-- The step returns exactly where `B` holds, and then ends in `Q`. -/
def CompletesIff (B : Prop) (x : Action σ ε α) (s : σ) (Q : α → σ → Prop) : Prop :=
  (B ∧ x.Completes s Q) ∨ (¬ B ∧ ∃ e t, x s = .error e t)

variable {B : Prop}

theorem completesIff_true : x.CompletesIff True s Q ↔ x.Completes s Q := by
  simp [CompletesIff]

theorem CompletesIff.completes (h : x.CompletesIff B s Q) (hB : B) : x.Completes s Q :=
  h.elim And.right fun h => absurd hB h.1

theorem CompletesIff.stops (h : x.CompletesIff B s Q) (hB : ¬ B) : ∃ e t, x s = .error e t :=
  h.elim (fun h => absurd h.1 hB) And.right

theorem CompletesIff.mono (h : x.CompletesIff B s P) (hPQ : ∀ a t, P a t → Q a t) :
    x.CompletesIff B s Q := h.imp_left fun h => ⟨h.1, h.2.mono hPQ⟩

theorem completesIff_of_not (hB : ¬ B) (h : ∀ a t, x s ≠ .ok a t) : x.CompletesIff B s Q := by
  refine .inr ⟨hB, ?_⟩
  cases hx : x s with
  | ok a t => exact absurd hx (h a t)
  | error e t => exact ⟨e, t, rfl⟩

/-- What follows a step that returns decides. -/
theorem Completes.bind_iff (h : x.Completes s P)
    (hf : ∀ a t, P a t → (f a).CompletesIff B t R) : (x >>= f).CompletesIff B s R := by
  obtain ⟨a, t, hx, ha⟩ := h
  have hbind : (x >>= f) s = f a t := by simp only [bind, EStateM.bind, hx]
  simpa only [CompletesIff, Completes, hbind] using hf a t ha

/-- A step that decides, before steps that return. -/
theorem CompletesIff.bind (h : x.CompletesIff B s P)
    (hf : ∀ a t, P a t → (f a).Completes t R) : (x >>= f).CompletesIff B s R := by
  obtain ⟨hB, h⟩ | ⟨hB, e, t, hx⟩ := h
  · exact .inl ⟨hB, completes_bind.mpr (h.mono hf)⟩
  · refine .inr ⟨hB, e, t, ?_⟩
    show EStateM.bind x f s = _
    rw [EStateM.bind, hx]

theorem completesIff_lift_bind {o : Outcome ε α} {a : α} (h : o = .ok a) :
    ((liftM o : Action σ ε α) >>= f).CompletesIff B s R ↔ (f a).CompletesIff B s R := by
  subst h
  rfl

theorem completesIff_lift_checked_bind {o : Checked α} {a : α} (h : o = .ok a) :
    ((liftM o : Action σ ε α) >>= f).CompletesIff B s R ↔ (f a).CompletesIff B s R := by
  subst h
  rfl

theorem completesIff_lift_graph_bind {o : Outcome GraphError α} {a : α}
    {f : α → Action σ FusionError β} (h : o = .ok a) :
    ((liftM o : Action σ FusionError α) >>= f).CompletesIff B s R ↔ (f a).CompletesIff B s R := by
  subst h
  rfl

theorem completesIff_theProgram_bind [HoldsProgram σ] {f : Program → Action σ FusionError β}
    {R : β → σ → Prop} : (theProgram >>= f).CompletesIff B s R ↔
      (f (HoldsProgram.program s)).CompletesIff B s R := Iff.rfl

theorem completesIff_edit [HoldsProgram σ] {e : Edit α} {Q : α → σ → Prop} :
    (liftM e : Action σ FusionError α).CompletesIff B s Q ↔
      e.CompletesIff B (HoldsProgram.program s) fun a q => Q a (HoldsProgram.withProgram q s) := by
  rw [CompletesIff, CompletesIff, completes_edit]
  refine or_congr_right (and_congr_right fun _ => ?_)
  simp only [liftM, monadLift, MonadLift.monadLift, focus]
  cases e (HoldsProgram.program s) <;> simp

theorem completesIff_focus {get : τ → σ} {set : σ → τ → τ} {rename : ε → δ} {t : τ}
    {Q : α → τ → Prop} : (focus get set rename x).CompletesIff B t Q ↔
      x.CompletesIff B (get t) fun a s => Q a (set s t) := by
  rw [CompletesIff, CompletesIff, completes_focus]
  refine or_congr_right (and_congr_right fun _ => ?_)
  unfold focus
  cases x (get t) <;> simp

end OffloadFusion.Action
