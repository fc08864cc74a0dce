import Mathlib.Data.List.Forall2
import OffloadFusion.Region.Session

/-!
# Outcomes of actions

How a sequence of steps can succeed, for pure computations (`Outcome`) and for changes of a state
(`Action`): each step succeeded in turn. `Action.after` is the state that an action leaves behind
whether it succeeds or not, and `Action.Keeps P` says that `P` holds there if it held before. What
an action from a given state ends in can be decided (`Action.decidableOk`).
-/

namespace OffloadFusion

/-! ## Pure computations -/

namespace Outcome

variable {ε α β : Type}

@[simp] theorem bind_ok {x : Except ε α} {f : α → Except ε β} {b : β} :
    x >>= f = .ok b ↔ ∃ a, x = .ok a ∧ f a = .ok b := by
  cases x <;> simp [bind, Except.bind]

@[simp] theorem pure_ok {a b : α} : (pure a : Except ε α) = .ok b ↔ a = b := by
  simp [pure, Except.pure]

@[simp] theorem refuse_ok {e : ε} {a : α} : (refuse e : Outcome ε α) ≠ .ok a := nofun

@[simp] theorem throw_ok {e : ε} {a : α} : (throw e : Except ε α) ≠ .ok a := nofun

@[simp] theorem refuse_bind_ok {e : ε} {f : α → Outcome ε β} {b : β} :
    (refuse e >>= f) ≠ .ok b := nofun

@[simp] theorem ite_ok {c : Prop} [Decidable c] {x y : Except ε α} {a : α} :
    (if c then x else y) = .ok a ↔ (c ∧ x = .ok a) ∨ (¬ c ∧ y = .ok a) := by
  split <;> simp_all

@[simp] theorem map_ok {x : Except ε α} {f : α → β} {b : β} :
    f <$> x = .ok b ↔ ∃ a, x = .ok a ∧ f a = b := by
  cases x <;> simp [Functor.map, Except.map]

@[simp] theorem forM_ok {xs : List α} {f : α → Except ε Unit} {u : Unit} :
    xs.forM f = .ok u ↔ ∀ a ∈ xs, f a = .ok () := by
  induction xs with
  | nil => simp [List.forM]
  | cons a xs ih =>
    rw [List.forM, bind_ok, List.forall_mem_cons, ← ih]
    exact ⟨fun ⟨_, ha, hxs⟩ => ⟨ha, hxs⟩, fun ⟨ha, hxs⟩ => ⟨⟨⟩, ha, hxs⟩⟩

theorem mapM_ok {xs : List α} {f : α → Except ε β} {ys : List β} :
    xs.mapM f = .ok ys ↔ List.Forall₂ (fun x y => f x = .ok y) xs ys := by
  induction xs generalizing ys with
  | nil =>
    rw [List.mapM_nil, pure_ok, List.forall₂_nil_left_iff]
    exact eq_comm
  | cons x xs ih =>
    simp only [List.mapM_cons, bind_ok, pure_ok, List.forall₂_cons_left_iff, ih]
    constructor
    · rintro ⟨y, hy, ys', hys, rfl⟩
      exact ⟨y, ys', hy, hys, rfl⟩
    · rintro ⟨y, ys', hy, hys, rfl⟩
      exact ⟨y, hy, ys', hys, rfl⟩

theorem bind_total {x : Except ε α} {f : α → Except ε β} (hx : ∃ a, x = .ok a)
    (hf : ∀ a, x = .ok a → ∃ b, f a = .ok b) : ∃ b, x >>= f = .ok b := by
  obtain ⟨a, ha⟩ := hx
  obtain ⟨b, hb⟩ := hf a ha
  exact ⟨b, bind_ok.mpr ⟨a, ha, hb⟩⟩

theorem mapM_total {xs : List α} {f : α → Except ε β}
    (h : ∀ x ∈ xs, ∃ y, f x = .ok y) : ∃ ys, xs.mapM f = .ok ys := by
  induction xs with
  | nil => exact ⟨[], rfl⟩
  | cons x xs ih =>
    obtain ⟨y, hy⟩ := h x List.mem_cons_self
    obtain ⟨ys, hys⟩ := ih fun z hz => h z (List.mem_cons_of_mem x hz)
    exact ⟨y :: ys, by simp [List.mapM_cons, hy, hys]⟩

theorem allM_total {xs : List α} {f : α → Except ε Bool} (h : ∀ x ∈ xs, ∃ b, f x = .ok b) :
    ∃ b, xs.allM f = .ok b := by
  induction xs with
  | nil => exact ⟨true, rfl⟩
  | cons x xs ih =>
    rw [List.allM]
    refine bind_total (h x List.mem_cons_self) fun b _ => ?_
    cases b with
    | true => exact ih fun y hy => h y (List.mem_cons_of_mem x hy)
    | false => exact ⟨false, rfl⟩

@[simp] theorem lift_checked_ok {x : Checked α} {a : α} :
    (liftM x : Outcome ε α) = .ok a ↔ x = .ok a := by
  cases x <;> simp [liftM, monadLift, MonadLift.monadLift, Except.mapError]

@[simp] theorem lift_typed_ok {x : Outcome TypeError α} {a : α} :
    (liftM x : Outcome GraphError α) = .ok a ↔ x = .ok a := by
  cases x <;> simp [liftM, monadLift, MonadLift.monadLift, Except.mapError]

end Outcome

/-! ## Changes of a state -/

namespace Action

variable {σ ε δ α β : Type}

theorem bind_ok {x : Action σ ε α} {f : α → Action σ ε β} {b : β} {s s'' : σ} :
    (x >>= f) s = .ok b s'' ↔ ∃ a s', x s = .ok a s' ∧ f a s' = .ok b s'' := by
  simp only [bind, EStateM.bind]
  cases x s with
  | ok a s' => exact ⟨fun h => ⟨a, s', rfl, h⟩, by rintro ⟨_, _, ⟨⟩, h⟩; exact h⟩
  | error e s' => simp

@[simp] theorem pure_ok {a b : α} {s s' : σ} :
    (pure a : Action σ ε α) s = .ok b s' ↔ a = b ∧ s = s' := by
  simp [pure, EStateM.pure]

@[simp] theorem set_ok {t s s' : σ} {u : PUnit} :
    (set t : Action σ ε PUnit) s = .ok u s' ↔ t = s' := by
  change EStateM.Result.ok PUnit.unit t = .ok u s' ↔ _
  simp only [EStateM.Result.ok.injEq, true_and]

@[simp] theorem refuse_ok {e : ε} {a : α} {s s' : σ} :
    (refuse e : Action σ ε α) s ≠ .ok a s' := nofun

@[simp] theorem throw_ok {e : Failure ε} {a : α} {s s' : σ} :
    (throw e : Action σ ε α) s ≠ .ok a s' := nofun

@[simp] theorem lift_ok {x : Outcome ε α} {a : α} {s s' : σ} :
    (liftM x : Action σ ε α) s = .ok a s' ↔ x = .ok a ∧ s = s' := by
  cases x with
  | ok b =>
    change (pure b : Action σ ε α) s = .ok a s' ↔ _
    rw [pure_ok, Except.ok.injEq]
  | error e =>
    change (throw e : Action σ ε α) s = .ok a s' ↔ _
    simp only [throw_ok, reduceCtorEq, false_and]

@[simp] theorem lift_checked_ok {x : Checked α} {a : α} {s s' : σ} :
    (liftM x : Action σ ε α) s = .ok a s' ↔ x = .ok a ∧ s = s' := by
  cases x with
  | ok b =>
    change (pure b : Action σ ε α) s = .ok a s' ↔ _
    rw [pure_ok, Except.ok.injEq]
  | error e =>
    change (throw (.fault e) : Action σ ε α) s = .ok a s' ↔ _
    simp only [throw_ok, reduceCtorEq, false_and]

@[simp] theorem get_bind_ok {f : σ → Action σ ε β} {b : β} {s s' : σ} :
    ((get : Action σ ε σ) >>= f) s = .ok b s' ↔ f s s = .ok b s' := Iff.rfl

@[simp] theorem set_bind_ok {f : PUnit → Action σ ε β} {b : β} {s s' t : σ} :
    ((set t : Action σ ε PUnit) >>= f) s = .ok b s' ↔ f ⟨⟩ t = .ok b s' := Iff.rfl

@[simp] theorem refuse_bind_ok {e : ε} {f : α → Action σ ε β} {b : β} {s s' : σ} :
    ((refuse e : Action σ ε α) >>= f) s ≠ .ok b s' := nofun

@[simp] theorem throw_bind_ok {e : Failure ε} {f : α → Action σ ε β} {b : β} {s s' : σ} :
    ((throw e : Action σ ε α) >>= f) s ≠ .ok b s' := nofun

@[simp] theorem lift_bind_ok {x : Outcome ε α} {f : α → Action σ ε β} {b : β} {s s' : σ} :
    ((liftM x : Action σ ε α) >>= f) s = .ok b s' ↔ ∃ a, x = .ok a ∧ f a s = .ok b s' := by
  simp [bind_ok, and_assoc]

@[simp] theorem lift_checked_bind_ok {x : Checked α} {f : α → Action σ ε β} {b : β} {s s' : σ} :
    ((liftM x : Action σ ε α) >>= f) s = .ok b s' ↔ ∃ a, x = .ok a ∧ f a s = .ok b s' := by
  simp [bind_ok, and_assoc]

@[simp] theorem ite_ok {c : Prop} [Decidable c] {x y : Action σ ε α} {a : α} {s s' : σ} :
    (if c then x else y) s = .ok a s' ↔ (c ∧ x s = .ok a s') ∨ (¬ c ∧ y s = .ok a s') := by
  split <;> simp_all

/-! ### Actions that run -/

section

variable {r : EStateM.Result (Failure ε) σ α}

instance decidableOk {P : α → σ → Prop} [∀ a s, Decidable (P a s)] :
    Decidable (∃ a s, r = .ok a s ∧ P a s) :=
  match r with
  | .ok a s => decidable_of_iff (P a s)
    ⟨fun h => ⟨a, s, rfl, h⟩, by rintro ⟨_, _, ⟨⟩, h⟩; exact h⟩
  | .error _ _ => isFalse (by rintro ⟨_, _, ⟨⟩, _⟩)

instance decidableRefused {P : ε → σ → Prop} [∀ e s, Decidable (P e s)] :
    Decidable (∃ e s, r = .error (.refused e) s ∧ P e s) :=
  match r with
  | .ok _ _ => isFalse (by rintro ⟨_, _, ⟨⟩, _⟩)
  | .error (.fault _) _ => isFalse (by rintro ⟨_, _, ⟨⟩, _⟩)
  | .error (.refused e) s => decidable_of_iff (P e s)
    ⟨fun h => ⟨e, s, rfl, h⟩, by rintro ⟨_, _, ⟨⟩, h⟩; exact h⟩

end

section

variable {x : Outcome ε α} (f : α → Action σ ε β) (s : σ)

theorem lift_bind_of_ok {a : α} (h : x = .ok a) :
    ((liftM x : Action σ ε α) >>= f) s = f a s := by
  rw [h]
  rfl

theorem lift_bind_of_error {e : Failure ε} (h : x = .error e) :
    ((liftM x : Action σ ε α) >>= f) s = .error e s := by
  rw [h]
  rfl

theorem set_bind (t : σ) (g : PUnit → Action σ ε β) :
    ((set t : Action σ ε PUnit) >>= g) s = g ⟨⟩ t := rfl

end

/-! ### What is left behind -/

/-- The state after an action, whether it succeeds or not. -/
def after (x : Action σ ε α) (s : σ) : σ :=
  match x s with
  | .ok _ s' => s'
  | .error _ s' => s'

/-- The action keeps a property of the state, whether it succeeds or not. -/
def Keeps (P : σ → Prop) (x : Action σ ε α) : Prop := ∀ s, P s → P (x.after s)

theorem after_of_ok {x : Action σ ε α} {s s' : σ} {a : α} (h : x s = .ok a s') :
    x.after s = s' := by rw [after, h]

theorem after_of_error {x : Action σ ε α} {s s' : σ} {e : Failure ε} (h : x s = .error e s') :
    x.after s = s' := by rw [after, h]

section

variable (s t : σ) (f : α → Action σ ε β)

@[simp] theorem after_set_bind (f : PUnit → Action σ ε β) :
    ((set t : Action σ ε PUnit) >>= f).after s = (f ⟨⟩).after t := rfl

@[simp] theorem after_get_bind (f : σ → Action σ ε β) :
    ((get : Action σ ε σ) >>= f).after s = (f s).after s := rfl

@[simp] theorem after_throw_bind (e : Failure ε) :
    ((throw e : Action σ ε α) >>= f).after s = s := rfl

@[simp] theorem after_refuse_bind (e : ε) :
    ((refuse e : Action σ ε α) >>= f).after s = s := rfl

@[simp] theorem after_ite {c : Prop} [Decidable c] {x y : Action σ ε α} :
    (if c then x else y).after s = if c then x.after s else y.after s := by
  split <;> rfl

theorem after_lift_bind (x : Outcome ε α) : ((liftM x : Action σ ε α) >>= f).after s =
    match x with
    | .ok a => (f a).after s
    | .error _ => s := by
  cases x <;> rfl

end

theorem after_bind (x : Action σ ε α) (f : α → Action σ ε β) (s : σ) :
    (x >>= f).after s = match x s with
      | .ok a s' => (f a).after s'
      | .error _ s' => s' := by
  simp only [after, bind, EStateM.bind]
  cases x s <;> rfl

@[simp] theorem after_lift (x : Outcome ε α) (s : σ) : (liftM x : Action σ ε α).after s = s := by
  cases x <;> rfl

@[simp] theorem after_lift_checked (x : Checked α) (s : σ) :
    (liftM x : Action σ ε α).after s = s := by
  cases x <;> rfl

/-- A loop whose rounds move along a preorder moves along it. -/
theorem after_forM {R : σ → σ → Prop} {xs : List α} {g : α → Action σ ε PUnit}
    (hrefl : ∀ s, R s s) (htrans : ∀ {s t u}, R s t → R t u → R s u)
    (h : ∀ a s, R s ((g a).after s)) (s : σ) : R s ((xs.forM g).after s) := by
  induction xs generalizing s with
  | nil => exact hrefl s
  | cons a xs ih =>
    rw [List.forM, after_bind]
    have ha := h a s
    cases hx : g a s with
    | ok u t => exact htrans (after_of_ok hx ▸ ha) (ih t)
    | error e t => exact after_of_error hx ▸ ha

/-- The action leaves the state as it was. -/
def ReadOnly (x : Action σ ε α) : Prop := ∀ s, x.after s = s

/-- The action leaves the state as it was unless it succeeds. -/
def Atomic (x : Action σ ε α) : Prop := ∀ s e s', x s = .error e s' → s' = s

section

variable {x : Action σ ε α} {f : α → Action σ ε β} {P : σ → Prop}

theorem ReadOnly.of_ok (h : x.ReadOnly) {s s' : σ} {a : α} (hx : x s = .ok a s') : s' = s :=
  (after_of_ok hx).symm.trans (h s)

theorem ReadOnly.atomic (h : x.ReadOnly) : x.Atomic := fun s _ _ hx =>
  (after_of_error hx).symm.trans (h s)

theorem ReadOnly.bind (h : x.ReadOnly) (hf : ∀ a, (f a).ReadOnly) : (x >>= f).ReadOnly := by
  intro s
  rw [after_bind]
  cases hx : x s with
  | ok a s' => rw [h.of_ok hx]; exact hf a s
  | error e s' => exact h.atomic _ _ _ hx

theorem ReadOnly.bind_atomic (h : x.ReadOnly) (hf : ∀ a, (f a).Atomic) : (x >>= f).Atomic := by
  intro s e s'' hxf
  simp only [Bind.bind, EStateM.bind] at hxf
  cases hx : x s with
  | ok a s' =>
    rw [hx, h.of_ok hx] at hxf
    exact hf a _ _ _ hxf
  | error e' s' =>
    rw [hx] at hxf
    cases hxf
    exact h.atomic _ _ _ hx

theorem ReadOnly.forM {xs : List α} {g : α → Action σ ε PUnit} (h : ∀ a, (g a).ReadOnly) :
    (xs.forM g).ReadOnly := by
  induction xs with
  | nil => exact fun _ => rfl
  | cons a xs ih => exact (h a).bind fun _ => ih

theorem ReadOnly.forM_ok {xs : List α} {g : α → Action σ ε PUnit} (h : ∀ a, (g a).ReadOnly)
    {u : PUnit} {s s' : σ} :
    xs.forM g s = .ok u s' ↔ s = s' ∧ ∀ a ∈ xs, g a s = .ok ⟨⟩ s := by
  induction xs with
  | nil => simp [List.forM]
  | cons a xs ih =>
    rw [List.forM, bind_ok, List.forall_mem_cons]
    constructor
    · rintro ⟨_, t, ha, hxs⟩
      cases (h a).of_ok ha
      exact ⟨(ih.mp hxs).1, ha, (ih.mp hxs).2⟩
    · rintro ⟨rfl, ha, hxs⟩
      exact ⟨⟨⟩, s, ha, ih.mpr ⟨rfl, hxs⟩⟩

theorem ReadOnly.forM_bind_ok {xs : List α} {g : α → Action σ ε PUnit} (h : ∀ a, (g a).ReadOnly)
    {f : PUnit → Action σ ε β} {b : β} {s s' : σ} :
    (xs.forM g >>= f) s = .ok b s' ↔ (∀ a ∈ xs, g a s = .ok ⟨⟩ s) ∧ f ⟨⟩ s = .ok b s' := by
  rw [bind_ok]
  constructor
  · rintro ⟨_, _, hxs, hf⟩
    obtain ⟨rfl, hall⟩ := (ReadOnly.forM_ok h).mp hxs
    exact ⟨hall, hf⟩
  · rintro ⟨hxs, hf⟩
    exact ⟨⟨⟩, s, (ReadOnly.forM_ok h).mpr ⟨rfl, hxs⟩, hf⟩

theorem readOnly_get : (get : Action σ ε σ).ReadOnly := fun _ => rfl

theorem readOnly_pure (a : α) : (pure a : Action σ ε α).ReadOnly := fun _ => rfl

theorem readOnly_lift (o : Outcome ε α) : (liftM o : Action σ ε α).ReadOnly := after_lift o

theorem readOnly_refuse (e : ε) : (refuse e : Action σ ε α).ReadOnly := fun _ => rfl

theorem ReadOnly.ite {c : Prop} [Decidable c] {y : Action σ ε α} (hx : x.ReadOnly)
    (hy : y.ReadOnly) : (if c then x else y).ReadOnly := by
  split <;> assumption

theorem Atomic.ite {c : Prop} [Decidable c] {y : Action σ ε α} (hx : x.Atomic) (hy : y.Atomic) :
    (if c then x else y).Atomic := by
  split <;> assumption

theorem atomic_refuse_bind (e : ε) (f : α → Action σ ε β) :
    ((refuse e : Action σ ε α) >>= f).Atomic := by
  intro s e s' h
  cases h
  rfl

theorem atomic_set (t : σ) : (set t : Action σ ε PUnit).Atomic := nofun

theorem Keeps.bind (h : x.Keeps P) (hf : ∀ a, (f a).Keeps P) : (x >>= f).Keeps P := by
  intro s hs
  rw [after_bind]
  cases hx : x s with
  | ok a s' => exact hf a s' (after_of_ok hx ▸ h s hs)
  | error e s' => exact after_of_error hx ▸ h s hs

/-- What follows a reading action starts where that succeeded. -/
theorem ReadOnly.bind_after (h : x.ReadOnly) {s : σ} (hs : P s)
    (hf : ∀ a, x s = .ok a s → P ((f a).after s)) : P ((x >>= f).after s) := by
  rw [after_bind]
  cases hx : x s with
  | ok a s' =>
    cases h.of_ok hx
    exact hf a hx
  | error e s' => exact h.atomic _ _ _ hx ▸ hs

theorem ReadOnly.keeps (h : x.ReadOnly) : x.Keeps P := fun s hs => (h s).symm ▸ hs

theorem Atomic.keeps (h : x.Atomic) (hok : ∀ {s a s'}, P s → x s = .ok a s' → P s') :
    x.Keeps P := by
  intro s hs
  cases hx : x s with
  | ok a s' => exact (after_of_ok hx).symm ▸ hok hs hx
  | error e s' =>
    rw [after_of_error hx, h _ _ _ hx]
    exact hs

end

end Action

end OffloadFusion
