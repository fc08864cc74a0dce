import OffloadFusion.Proofs.Outcomes

/-!
# What a refused action leaves behind

`x.Answers s E Q`: the action `x` taken from `s` ends in `Q` where it succeeds and in `E` where it
is refused; nothing is said of a fault. There is one rule for each way to build an action.
-/

namespace OffloadFusion.Action

variable {σ ε α β : Type} {x : Action σ ε α} {f : α → Action σ ε β} {s : σ}
  {E E' : ε → σ → Prop} {P Q : α → σ → Prop} {R : β → σ → Prop}

/-- The action ends in `Q` if it succeeds, and in `E` if it is refused. -/
def Answers (x : Action σ ε α) (s : σ) (E : ε → σ → Prop) (Q : α → σ → Prop) : Prop :=
  match x s with
  | .ok a t => Q a t
  | .error (.refused e) t => E e t
  | .error (.fault _) _ => True

theorem Answers.refused {e : ε} {t : σ} (h : x.Answers s E Q) (hx : x s = .error (.refused e) t) :
    E e t := by
  rwa [Answers, hx] at h

theorem Answers.ok {a : α} {t : σ} (h : x.Answers s E Q) (hx : x s = .ok a t) : Q a t := by
  rwa [Answers, hx] at h

theorem Answers.mono (h : x.Answers s E P) (hE : ∀ e t, E e t → E' e t)
    (hPQ : ∀ a t, x s = .ok a t → P a t → Q a t) : x.Answers s E' Q := by
  unfold Answers at h ⊢
  split at h
  · next hx => exact hPQ _ _ hx h
  · exact hE _ _ h
  · trivial

theorem answers_congr {y : Action σ ε α} {t : σ} (h : x s = y t) :
    x.Answers s E Q ↔ y.Answers t E Q := by rw [Answers, Answers, h]

theorem answers_bind : (x >>= f).Answers s E R ↔ x.Answers s E fun a t => (f a).Answers t E R := by
  unfold Answers
  simp only [bind, EStateM.bind]
  cases x s with
  | ok a t => rfl
  | error e t => cases e <;> rfl

theorem answers_get_bind {f : σ → Action σ ε β} :
    ((get : Action σ ε σ) >>= f).Answers s E R ↔ (f s).Answers s E R := Iff.rfl

theorem answers_set_bind {t : σ} {f : PUnit → Action σ ε β} :
    ((set t : Action σ ε PUnit) >>= f).Answers s E R ↔ (f ⟨⟩).Answers t E R := Iff.rfl

theorem answers_ite {c : Prop} [Decidable c] {y : Action σ ε α} (hx : c → x.Answers s E Q)
    (hy : ¬ c → y.Answers s E Q) : (if c then x else y).Answers s E Q := by
  split
  · exact hx ‹_›
  · exact hy ‹_›

theorem answers_lift_checked_bind {o : Checked α} (hf : ∀ a, o = .ok a → (f a).Answers s E R) :
    ((liftM o : Action σ ε α) >>= f).Answers s E R := by
  match o, hf with
  | .ok a, hf => exact hf a rfl
  | .error _, _ => trivial

theorem ReadOnly.answers_bind (h : x.ReadOnly) (he : ∀ e, E e s)
    (hf : ∀ a, x s = .ok a s → (f a).Answers s E R) : (x >>= f).Answers s E R := by
  rw [Action.answers_bind, Answers]
  match hx : x s with
  | .ok a t =>
    cases h.of_ok hx
    exact hf a hx
  | .error (.refused e) t => exact h.atomic _ _ _ hx ▸ he e
  | .error (.fault _) _ => trivial

/-- A loop each of whose rounds keeps an invariant. -/
theorem answers_forM {I : σ → Prop} {xs : List α} {g : α → Action σ ε PUnit} (hs : I s)
    (h : ∀ a ∈ xs, ∀ t, I t → (g a).Answers t E fun _ u => I u) :
    (xs.forM g).Answers s E fun _ t => I t := by
  induction xs generalizing s with
  | nil => exact hs
  | cons a xs ih =>
    rw [List.forM, Action.answers_bind]
    exact (h a List.mem_cons_self s hs).mono (fun _ _ => id) fun _ t _ ht =>
      ih ht fun b hb => h b (List.mem_cons_of_mem a hb)

end OffloadFusion.Action
