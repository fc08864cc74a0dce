import OffloadFusion.Proofs.Anchoring
import OffloadFusion.Proofs.Leftovers

/-!
# Modes that accept less

The modes stand in an order of restriction, and the more restrictive of two modes is the later one.
What the mode decides is the same for all modes but the last one, which accepts nothing
(`conv_judged`, `dot_judged`).

* **`accepts_of_rank_le`**: what is accepted in a mode is accepted in every mode before it, but for
  dots whose contraction the earlier mode bounds and the later one does not.
* `int8_accepts_overlong`: there is such a dot.
-/

namespace OffloadFusion.Eligible

open Program

variable {p : Program} {i : InstrId} {mode a b : Mode} {anchor : Bool} {h : Heuristics}

theorem ne_none_of_rank_le (hab : a.rank ≤ b.rank) (hb : b ≠ .none) : a ≠ .none := by
  rintro rfl
  cases b with
  | none => exact hb rfl
  | all | fast | int8 => exact absurd hab (by decide)

/-! ## Convolutions -/

theorem conv_judged (hok : conv p i mode h = .ok true) : mode ≠ .none ∧ ∃ group x w,
    ∀ mode' ≠ .none, conv p i mode' h = convInMode mode' group x w h := by
  rw [conv] at hok
  split at hok
  · cases hok
  next hmode =>
  refine ⟨hmode, ?_⟩
  split at hok
  · next c out inputs _ _ _ hi =>
    split at hok
    · cases hok
    next hgroup =>
    obtain ⟨x?, hx, hok⟩ := Outcome.bind_ok.mp hok
    obtain ⟨w?, hw, hok⟩ := Outcome.bind_ok.mp hok
    obtain _ | x := x?
    · cases hok
    obtain _ | w := w?
    · cases hok
    refine ⟨c.group, x, w, fun mode' hmode' => ?_⟩
    rw [conv, if_neg hmode', hi]
    dsimp only
    rw [if_neg hgroup, hx, hw]
    rfl
  · cases hok

theorem convInMode_of_rank_le {group : Nat} {x w : TensorType} (hab : a.rank ≤ b.rank)
    (hnone : b ≠ .none) (hb : convInMode b group x w h = .ok true) :
    convInMode a group x w h = .ok true := by
  unfold convInMode at hb ⊢
  split
  · rfl
  next hwide =>
  rw [if_neg hwide] at hb
  cases b with
  | none => exact absurd rfl hnone
  | int8 => cases hb
  | all =>
    cases a with
    | all => rfl
    | fast | int8 | none => exact absurd hab (by decide)
  | fast =>
    cases a with
    | all => rfl
    | fast => exact hb
    | int8 | none => exact absurd hab (by decide)

theorem conv_of_rank_le (hab : a.rank ≤ b.rank) (hb : conv p i b h = .ok true) :
    conv p i a h = .ok true := by
  obtain ⟨hnone, group, x, w, hjudged⟩ := conv_judged hb
  have hnone' := ne_none_of_rank_le hab hnone
  rw [hjudged b hnone] at hb
  rw [hjudged a hnone']
  exact convInMode_of_rank_le hab hnone hb

/-! ## Dots -/

theorem dot_judged (hl : p.Linked) (hok : dot p i mode anchor h = .ok true) : mode ≠ .none ∧
    ∃ inst quantized, p.instr? i = some inst ∧ inst.op = .dot quantized ∧ ∀ mode' ≠ .none,
      dot p i mode' anchor h = .ok (dotInMode mode' anchor
        ((inst.inputs.map fun x => (p.typeAt x).tensor?).filterMap id) h) := by
  rw [dot] at hok
  split at hok
  · cases hok
  next hmode =>
  refine ⟨hmode, ?_⟩
  split at hok
  · next quantized out inputs _ _ _ hi =>
    split at hok
    · cases hok
    next hwide =>
    refine ⟨_, quantized, hi, rfl, fun mode' hmode' => ?_⟩
    have hreads := operandTensors_eq hl hi
    dsimp only at hreads ⊢
    rw [dot, if_neg hmode', hi]
    dsimp only
    rw [if_neg hwide, hreads]
    rfl
  · cases hok

/-- Only the fast mode bounds the contraction of an anchor, although the 8-bit mode is after it. -/
theorem dotInMode_of_rank_le {t : TensorType} {ts : List TensorType} (hab : a.rank ≤ b.rank)
    (hb : dotInMode b anchor (t :: ts) h = true) : dotInMode a anchor (t :: ts) h = true ↔
      ¬ (anchor = true ∧ a = .fast ∧ b = .int8 ∧ h.dotThreshold < t.contraction) := by
  cases a with
  | all => exact iff_of_true rfl (by rintro ⟨-, he, -⟩; cases he)
  | fast =>
    cases b with
    | all => exact absurd hab (by decide)
    | none => cases hb
    | fast => exact iff_of_true hb (by rintro ⟨-, -, he, -⟩; cases he)
    | int8 => cases anchor <;> simp [dotInMode]
  | int8 =>
    cases b with
    | int8 => exact iff_of_true hb (by rintro ⟨-, he, -⟩; cases he)
    | none => cases hb
    | all | fast => exact absurd hab (by decide)
  | none =>
    cases b with
    | none => cases hb
    | all | fast | int8 => exact absurd hab (by decide)

/-- The first operand contracts over more than is allowed for an anchor in the fast mode. -/
def Overlong (p : Program) (i : InstrId) (h : Heuristics) : Prop :=
  ∃ inst x t, p.instr? i = some inst ∧ inst.inputs.head? = some x ∧ p.HasType x (.tensor t) ∧
    h.dotThreshold < t.contraction

theorem dot_of_rank_le (hp : p.Valid) (hab : a.rank ≤ b.rank)
    (hb : dot p i b anchor h = .ok true) : dot p i a anchor h = .ok true ↔
      ¬ (anchor = true ∧ a = .fast ∧ b = .int8 ∧ Overlong p i h) := by
  obtain ⟨hnone, inst, quantized, hi, hop, hjudged⟩ := dot_judged hp.toLinked hb
  have hnone' := ne_none_of_rank_le hab hnone
  -- a dot has two operands, and both of them are tensors
  have hanchor : inst.op.IsAnchor := by rw [hop]; trivial
  obtain ⟨types, signatures, htypes, -, hinfer⟩ := infer_ok.mp (hp.fresh hi)
  obtain ⟨t, u, _, rfl, -⟩ := hanchor.inferType_ok hinfer
  obtain ⟨x, _, hx, hrest, hinputs⟩ := List.forall₂_cons_right_iff.mp htypes
  obtain ⟨y, _, hy, hnil, rfl⟩ := List.forall₂_cons_right_iff.mp hrest
  obtain rfl := List.forall₂_nil_right_iff.mp hnil
  have hreads : (inst.inputs.map fun x => (p.typeAt x).tensor?).filterMap id = [t, u] := by
    rw [hinputs, List.map_cons, List.map_cons, typeAt_eq hx, typeAt_eq hy]
    rfl
  have hoverlong : Overlong p i h ↔ h.dotThreshold < t.contraction := by
    constructor
    · rintro ⟨inst', x', t', hi', hhead, ht', hlt⟩
      cases hi.symm.trans hi'
      rw [hinputs] at hhead
      cases hhead
      cases hasType_unique hx ht'
      exact hlt
    · exact fun hlt => ⟨inst, x, t, hi, by rw [hinputs]; rfl, hx, hlt⟩
  rw [hjudged b hnone, hreads] at hb
  rw [hjudged a hnone', hreads, hoverlong]
  refine Iff.trans ⟨Except.ok.inj, congrArg Except.ok⟩ ?_
  exact dotInMode_of_rank_le hab (Except.ok.inj hb)

/-! ## Both -/

/-- **A more restrictive mode accepts less, with one exception.** A convolution that is accepted in
a mode is accepted in every mode before it. So is a dot, unless it is judged as an anchor, the modes
are the fast one and then the 8-bit one, and it contracts over more than the fast mode allows. -/
theorem accepts_of_rank_le (p : Program) (hv : p.verify = .ok ()) (i : InstrId) (h : Heuristics)
    (anchor : Bool) (a b : Mode) (hab : a.rank ≤ b.rank) :
    (conv p i b h = .ok true → conv p i a h = .ok true) ∧
    (dot p i b anchor h = .ok true → (dot p i a anchor h = .ok true ↔
      ¬ (anchor = true ∧ a = .fast ∧ b = .int8 ∧ Overlong p i h))) :=
  ⟨conv_of_rank_le hab, dot_of_rank_le (verify_ok.mp hv) hab⟩

/-- An 8-bit dot over a long axis. -/
def elongated : Program :=
  (do
    let a ← Edit.addParameter main "a" ⟨.i8, [2, 2048], [2048, 1]⟩
    let b ← Edit.addParameter main "b" ⟨.i8, [2048, 2], [2, 1]⟩
    let product ← Edit.addInstruction main (.dot true) [a, b] []
    let _ ← Edit.addReturn main [product] : Edit Unit).after .empty

/-- Where the dot is no anchor, the fast mode accepts it as the 8-bit mode does. -/
theorem accepts_elongated : elongated.verify = .ok () ∧ Mode.fast.rank ≤ Mode.int8.rank ∧
    dot elongated ⟨2⟩ .int8 false .default = .ok true ∧
    dot elongated ⟨2⟩ .fast false .default = .ok true := by
  have hv : elongated.verify = .ok () := by decide +kernel
  have hint8 : dot elongated ⟨2⟩ .int8 false .default = .ok true := by decide +kernel
  refine ⟨hv, by decide, hint8, ?_⟩
  obtain ⟨-, hdot⟩ := accepts_of_rank_le elongated hv ⟨2⟩ .default false .fast .int8 (by decide)
  refine (hdot hint8).mpr ?_
  rintro ⟨hanchor, -⟩
  cases hanchor

/-- **The 8-bit mode accepts as an anchor what the fast mode before it rejects.** -/
theorem int8_accepts_overlong : elongated.verify = .ok () ∧ Mode.fast.rank ≤ Mode.int8.rank ∧
    dot elongated ⟨2⟩ .int8 true .default = .ok true ∧
    dot elongated ⟨2⟩ .fast true .default = .ok false := by
  decide +kernel

end OffloadFusion.Eligible
