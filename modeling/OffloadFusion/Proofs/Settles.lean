import OffloadFusion.Proofs.Completes
import OffloadFusion.Proofs.Lapses

/-!
# Actions without faults

`x.Settles loose s Q`: the action `x` taken from `s` has no fault but lapses, and where it succeeds
it ends in `Q`. `x.Settling loose I J` leads from `I` to `J`. There is one rule for each way to
build an action.
-/

namespace OffloadFusion.Action

variable {σ τ ε δ α β : Type} {loose : Prop} {x : Action σ ε α} {f : α → Action σ ε β} {s : σ}
  {P Q : α → σ → Prop} {R : β → σ → Prop} {I J K : σ → Prop}

/-- The action has no fault but lapses, and ends in `Q` if it succeeds. -/
def Settles (loose : Prop) (x : Action σ ε α) (s : σ) (Q : α → σ → Prop) : Prop :=
  match x s with
  | .ok a t => Q a t
  | .error e _ => ∀ fault, e = .fault fault → fault.Lapse loose

/-- Where the action starts in `I`, it has no fault but lapses, and ends in `J` if it succeeds. -/
def Settling (loose : Prop) (I J : σ → Prop) (x : Action σ ε α) : Prop :=
  ∀ s, I s → x.Settles loose s fun _ t => J t

/-! ## Steps -/

theorem Settles.mono (h : x.Settles loose s P) (hPQ : ∀ a t, x s = .ok a t → P a t → Q a t) :
    x.Settles loose s Q := by
  unfold Settles at h ⊢
  split at h
  · next hx => exact hPQ _ _ hx h
  · exact h

theorem settles_congr {y : Action σ ε α} {t : σ} (h : x s = y t) :
    x.Settles loose s Q ↔ y.Settles loose t Q := by rw [Settles, Settles, h]

theorem Completes.settles (h : x.Completes s Q) : x.Settles loose s Q := by
  obtain ⟨a, t, hok, hq⟩ := h
  rw [Settles, hok]
  exact hq

theorem settles_bind : (x >>= f).Settles loose s R ↔
    x.Settles loose s fun a t => (f a).Settles loose t R := by
  unfold Settles
  simp only [bind, EStateM.bind]
  cases x s <;> rfl

theorem settles_discard {Q : PUnit → σ → Prop} :
    (discard x).Settles loose s Q ↔ x.Settles loose s fun _ t => Q ⟨⟩ t := by
  unfold Settles
  simp only [discard, Functor.mapConst, EStateM.map, Function.comp_apply]
  cases x s <;> rfl

theorem settles_refuse (e : ε) : (refuse e : Action σ ε α).Settles loose s Q := fun _ he => by
  cases he

theorem settles_lift {o : Outcome ε α} (ho : Lapses loose o) (hQ : ∀ a, o = .ok a → Q a s) :
    (liftM o : Action σ ε α).Settles loose s Q := by
  cases o with
  | ok a => exact hQ a rfl
  | error e => exact fun e' he => ho e' (congrArg _ he)

theorem settles_lift_checked {o : Checked α} (ho : Lapses loose o) (hQ : ∀ a, o = .ok a → Q a s) :
    (liftM o : Action σ ε α).Settles loose s Q := by
  cases o with
  | ok a => exact hQ a rfl
  | error e => exact fun e' he => ho e' (congrArg _ (Failure.fault.inj he))

theorem settles_lift_bind {o : Outcome ε α} (ho : Lapses loose o)
    (hf : ∀ a, o = .ok a → (f a).Settles loose s R) :
    ((liftM o : Action σ ε α) >>= f).Settles loose s R :=
  settles_bind.mpr (settles_lift ho hf)

theorem settles_lift_checked_bind {o : Checked α} (ho : Lapses loose o)
    (hf : ∀ a, o = .ok a → (f a).Settles loose s R) :
    ((liftM o : Action σ ε α) >>= f).Settles loose s R :=
  settles_bind.mpr (settles_lift_checked ho hf)

theorem settles_instr_bind {p : Program} {i : InstrId} {f : Instruction → Action σ ε β}
    (h : (p.instr? i).isSome)
    (hf : ∀ inst, p.instr? i = some inst → (f inst).Settles loose s R) :
    ((liftM (p.instr i) : Action σ ε Instruction) >>= f).Settles loose s R :=
  settles_lift_checked_bind (Program.faultsIn_instr (.inr h)) fun _ hi =>
    hf _ (Program.instr_ok.mp hi)

theorem settles_get_bind {f : σ → Action σ ε β} :
    ((get : Action σ ε σ) >>= f).Settles loose s R ↔ (f s).Settles loose s R := Iff.rfl

theorem settles_set_bind {t : σ} {f : PUnit → Action σ ε β} :
    ((set t : Action σ ε PUnit) >>= f).Settles loose s R ↔ (f ⟨⟩).Settles loose t R := Iff.rfl

theorem settles_ite {c : Prop} [Decidable c] {y : Action σ ε α} (hx : c → x.Settles loose s Q)
    (hy : ¬ c → y.Settles loose s Q) : (if c then x else y).Settles loose s Q := by
  split
  · exact hx ‹_›
  · exact hy ‹_›

theorem Settles.focus {get : τ → σ} {set : σ → τ → τ} {rename : ε → δ} {t : τ} {Q : α → τ → Prop}
    (h : x.Settles loose (get t) fun a s => Q a (set s t)) :
    (focus get set rename x).Settles loose t Q := by
  unfold Settles at h ⊢
  unfold Action.focus
  cases hx : x (get t) with
  | ok a s =>
    rw [hx] at h
    exact h
  | error e s =>
    rw [hx] at h
    cases e with
    | refused reason => nofun
    | fault e => exact fun e' he => h e' (congrArg _ (Failure.fault.inj he))

namespace Settling

theorem pure (a : α) : Settling loose I I (Pure.pure a : Action σ ε α) := fun _ hs => hs

theorem refuse (e : ε) : Settling loose I J (Action.refuse e : Action σ ε α) :=
  fun _ _ => settles_refuse e

theorem get : Settling loose I I (MonadState.get : Action σ ε σ) := fun _ hs => hs

theorem lift {o : Outcome ε α} (ho : Lapses loose o) :
    Settling loose I I (liftM o : Action σ ε α) := fun _ hs => settles_lift ho fun _ _ => hs

theorem lift_checked {o : Checked α} (ho : Lapses loose o) :
    Settling loose I I (liftM o : Action σ ε α) :=
  fun _ hs => settles_lift_checked ho fun _ _ => hs

theorem bind (h : x.Settling loose I J) (hf : ∀ a, (f a).Settling loose J K) :
    (x >>= f).Settling loose I K :=
  fun s hs => settles_bind.mpr ((h s hs).mono fun a t _ ht => hf a t ht)

theorem get_bind {f : σ → Action σ ε β} (h : ∀ s, I s → (f s).Settling loose I J) :
    ((MonadState.get : Action σ ε σ) >>= f).Settling loose I J := fun s hs => h s hs s hs

theorem ite {c : Prop} [Decidable c] {y : Action σ ε α} (hx : c → x.Settling loose I J)
    (hy : ¬ c → y.Settling loose I J) : (if c then x else y).Settling loose I J := by
  split
  · exact hx ‹_›
  · exact hy ‹_›

theorem guard {c : Prop} [Decidable c] {e : ε} {f : PUnit → Action σ ε β}
    (h : ∀ u, (f u).Settling loose I J) :
    (if c then Action.refuse e >>= f else f ⟨⟩).Settling loose I J :=
  .ite (fun _ => (refuse e).bind h) fun _ => h ⟨⟩

/-- What follows a check whose refusal takes a reading. -/
theorem guard_bind {γ : Type} {c : Prop} [Decidable c] {e : γ → ε} {o : Outcome ε γ}
    {f : PUnit → Action σ ε β} (ho : Lapses loose o) (h : ∀ u, (f u).Settling loose I J) :
    (if c then liftM o >>= fun a => Action.refuse (e a) >>= f else f ⟨⟩).Settling loose I J :=
  .ite (fun _ => (lift ho).bind fun a => (refuse (e a)).bind h) fun _ => h ⟨⟩

theorem forM {xs : List β} {g : β → Action σ ε PUnit}
    (h : ∀ b ∈ xs, (g b).Settling loose I I) : (xs.forM g).Settling loose I I := by
  induction xs with
  | nil => exact .pure _
  | cons b xs ih =>
    obtain ⟨hb, hxs⟩ := List.forall_mem_cons.mp h
    exact hb.bind fun _ => ih hxs

end Settling

end OffloadFusion.Action
