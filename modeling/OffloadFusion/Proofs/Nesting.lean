import Mathlib
import OffloadFusion.Proofs.Packing
import OffloadFusion.Proofs.Strides

/-!
# Nested axes

Whether a tensor is packed is decided by two numbers, its elements and the places from its first to
its last one. That these agree says that the elements fill the places because the axes are nested:
taken in some order, each stride leads past all elements along the axes inside of it.

* `Nested`: axes that are nested in the order given.
* `Nested.eq_zero`: two indices along nested axes lead to different places.
* `TensorType.Layered`, `Reindex.layered_output`: the axes of row-major tensors are nested, and
  those of views of them.
* **`Reindex.isPacked_iff_bijOn`**: a view is packed just if its indices and places correspond one
  to one and no axis is broadcast.
-/

namespace OffloadFusion

/-! ## Narrowed axes -/

section

variable {axes axes' : List Axis}

theorem reach_sublist (h : axes'.Sublist axes) : reach axes' ≤ reach axes := by
  induction h with
  | slnil => exact Nat.le_refl _
  | cons a _ ih =>
    rw [reach_cons]
    omega
  | cons_cons a _ ih =>
    rw [reach_cons, reach_cons]
    omega

theorem reach_narrow (h : List.Forall₂ Reindex.Narrows axes axes') : reach axes' ≤ reach axes := by
  induction h with
  | nil => exact Nat.le_refl _
  | cons hab _ ih =>
    obtain ⟨hle, -, hstride⟩ := hab
    rw [reach_cons, reach_cons, hstride]
    exact Nat.add_le_add (Nat.mul_le_mul_right _ (Nat.sub_le_sub_right hle 1)) ih

theorem room_narrow (h : List.Forall₂ Reindex.Narrows axes axes') : room axes' ≤ room axes := by
  induction h with
  | nil => exact Nat.le_refl _
  | cons hab _ ih =>
    rw [room_cons, room_cons]
    exact Nat.mul_le_mul hab.1 ih

/-- A narrowed tensor spreads along what is left of the axes along which it spread before. -/
theorem footprint_narrow (h : List.Forall₂ Reindex.Narrows axes axes') :
    ∃ narrowed, List.Forall₂ Reindex.Narrows (axes.filter fun a => a.1 ≠ 1 ∧ a.2 ≠ 0) narrowed ∧
      axes'.filter (fun a => a.1 ≠ 1 ∧ a.2 ≠ 0) = narrowed.filter (·.1 ≠ 1) := by
  induction h with
  | nil => exact ⟨[], .nil, rfl⟩
  | @cons a b axes axes' hab _ ih =>
    obtain ⟨narrowed, hnarrowed, hfilter⟩ := ih
    obtain ⟨hle, hpos, hstride⟩ := hab
    by_cases hspreads : a.1 ≠ 1 ∧ a.2 ≠ 0
    · rw [List.filter_cons_of_pos (by simpa using hspreads)]
      refine ⟨b :: narrowed, .cons ⟨hle, hpos, hstride⟩ hnarrowed, ?_⟩
      rw [List.filter_cons, List.filter_cons, hfilter]
      simp [hstride, hspreads.2]
    · rw [List.filter_cons_of_neg (by simpa using hspreads)]
      have hidle : ¬ (b.1 ≠ 1 ∧ b.2 ≠ 0) := fun ⟨hmany, hmoves⟩ =>
        hspreads ⟨by omega, hstride ▸ hmoves⟩
      exact ⟨narrowed, hnarrowed, by rw [List.filter_cons_of_neg (by simpa using hidle), hfilter]⟩

end

/-! ## Nested axes -/

/-- The stride along each axis leads past all elements along the axes inside of it. -/
def Nested : List Axis → Prop
  | [] => True
  | a :: axes => 0 < a.1 ∧ (reach axes : Int) < a.2 ∧ Nested axes

namespace Nested

variable {axes axes' : List Axis}

theorem pos (h : Nested axes) : ∀ a ∈ axes, 0 < a.1 ∧ 0 < a.2 := by
  induction axes with
  | nil => exact fun a ha => absurd ha List.not_mem_nil
  | cons a axes ih =>
    obtain ⟨hpos, hstride, hrest⟩ := h
    exact List.forall_mem_cons.mpr ⟨⟨hpos, by omega⟩, ih hrest⟩

theorem sublist (h : Nested axes) (hsub : axes'.Sublist axes) : Nested axes' := by
  induction hsub with
  | slnil => trivial
  | cons a _ ih => exact ih h.2.2
  | cons_cons a hsub ih =>
    have hreach := reach_sublist hsub
    exact ⟨h.1, by have := h.2.1; omega, ih h.2.2⟩

theorem narrow (h : Nested axes) (hnarrow : List.Forall₂ Reindex.Narrows axes axes') :
    Nested axes' := by
  induction hnarrow with
  | nil => trivial
  | cons hab hrest ih =>
    obtain ⟨-, hpos, hstride⟩ := hab
    have hreach := reach_narrow hrest
    exact ⟨hpos h.1, by have := h.2.1; omega, ih h.2.2⟩

theorem of_rowMajor (h : TensorType.RowMajor axes) (hpos : ∀ a ∈ axes, 0 < a.1) :
    Nested (axes.filter fun a => a.1 ≠ 1 ∧ a.2 ≠ 0) := by
  induction axes with
  | nil => trivial
  | cons a axes ih =>
    obtain ⟨hstride, hrest⟩ := h
    obtain ⟨ha, hpos⟩ := List.forall_mem_cons.mp hpos
    by_cases hspreads : a.1 ≠ 1 ∧ a.2 ≠ 0
    · rw [List.filter_cons_of_pos (by simpa using hspreads)]
      refine ⟨ha, ?_, ih hrest hpos⟩
      rw [reach_filter, hstride.resolve_left hspreads.1, ← (hrest.dense hpos).1]
      omega
    · rw [List.filter_cons_of_neg (by simpa using hspreads)]
      exact ih hrest hpos

end Nested

/-! ## Drifts -/

/-- How far a step with a distance along each axis leads. -/
def drift (steps : List (Axis × Int)) : Int := steps.foldr (fun (a, n) m => a.2 * n + m) 0

section

variable {steps steps' : List (Axis × Int)} {axes axes' : List Axis}

theorem drift_cons (a : Axis) (n : Int) : drift ((a, n) :: steps) = a.2 * n + drift steps := rfl

theorem drift_perm (h : steps.Perm steps') : drift steps = drift steps' := by
  refine h.foldr_eq' (fun _ _ _ _ m => ?_) 0
  exact Int.add_left_comm _ _ m

theorem drift_filter (hunit : ∀ p ∈ steps, p.1.1 = 1 → p.2 = 0) :
    drift (steps.filter fun p => p.1.1 ≠ 1 ∧ p.1.2 ≠ 0) = drift steps := by
  induction steps with
  | nil => rfl
  | cons p steps ih =>
    obtain ⟨a, n⟩ := p
    obtain ⟨hn, hunit⟩ := List.forall_mem_cons.mp hunit
    rw [drift_cons, List.filter_cons]
    split
    · rw [drift_cons, ih hunit]
    · next hidle =>
      have hzero : a.2 * n = 0 := by
        simp only [decide_eq_true_eq, not_and_or, not_not] at hidle
        obtain hone | hzero := hidle
        · rw [show n = 0 from hn hone, Int.mul_zero]
        · rw [hzero, Int.zero_mul]
      rw [ih hunit, hzero, Int.zero_add]

theorem natAbs_drift_le (hbound : ∀ p ∈ steps, p.2.natAbs < p.1.1) :
    (drift steps).natAbs ≤ reach (steps.map Prod.fst) := by
  induction steps with
  | nil => exact Nat.le_refl 0
  | cons p steps ih =>
    obtain ⟨a, n⟩ := p
    obtain ⟨hn, hbound⟩ := List.forall_mem_cons.mp hbound
    rw [drift_cons, List.map_cons, reach_cons]
    calc (a.2 * n + drift steps).natAbs ≤ (a.2 * n).natAbs + (drift steps).natAbs :=
        Int.natAbs_add_le _ _
      _ ≤ (a.1 - 1) * a.2.natAbs + reach (steps.map Prod.fst) := by
        refine Nat.add_le_add ?_ (ih hbound)
        rw [Int.natAbs_mul, Nat.mul_comm]
        exact Nat.mul_le_mul_right _ (Nat.le_sub_one_of_lt hn)

/-- **Steps along nested axes do not lead back.** -/
theorem Nested.eq_zero (h : Nested (steps.map Prod.fst))
    (hbound : ∀ p ∈ steps, p.2.natAbs < p.1.1) (hzero : drift steps = 0) :
    ∀ p ∈ steps, p.2 = 0 := by
  induction steps with
  | nil => exact fun p hp => absurd hp List.not_mem_nil
  | cons p steps ih =>
    obtain ⟨a, n⟩ := p
    obtain ⟨-, hstride, hrest⟩ := h
    obtain ⟨-, hbound⟩ := List.forall_mem_cons.mp hbound
    have hle := natAbs_drift_le hbound
    rw [drift_cons] at hzero
    -- the axes inside do not reach back over one stride
    have hn : n = 0 := by
      by_contra hne
      have habs : a.2.natAbs ≤ (a.2 * n).natAbs := by
        rw [Int.natAbs_mul]
        exact Nat.le_mul_of_pos_right _ (Int.natAbs_pos.mpr hne)
      dsimp only at hstride
      omega
    rw [hn, Int.mul_zero, Int.zero_add] at hzero
    exact List.forall_mem_cons.mpr ⟨hn, ih hrest hbound hzero⟩

theorem exists_drift {index index' : List Nat}
    (hindex : Shape.holds (axes.map Prod.fst) index = true)
    (hindex' : Shape.holds (axes.map Prod.fst) index' = true) :
    ∃ steps : List (Axis × Int), steps.map Prod.fst = axes ∧
      (∀ p ∈ steps, p.2.natAbs < p.1.1) ∧
      drift steps = Strides.place (axes.map Prod.snd) index -
        Strides.place (axes.map Prod.snd) index' ∧
      ((∀ p ∈ steps, p.2 = 0) → index = index') := by
  induction axes generalizing index index' with
  | nil =>
    rw [List.length_eq_zero_iff.mp (Shape.length_of_holds hindex),
      List.length_eq_zero_iff.mp (Shape.length_of_holds hindex')]
    exact ⟨[], rfl, fun p hp => absurd hp List.not_mem_nil, rfl, fun _ => rfl⟩
  | cons a axes ih =>
    cases index with
    | nil => cases hindex
    | cons i index =>
      cases index' with
      | nil => cases hindex'
      | cons i' index' =>
        obtain ⟨hi, hindex⟩ := Shape.holds_cons.mp hindex
        obtain ⟨hi', hindex'⟩ := Shape.holds_cons.mp hindex'
        obtain ⟨steps, hsteps, hbound, hdrift, heq⟩ := ih hindex hindex'
        refine ⟨(a, (i : Int) - i') :: steps, by rw [List.map_cons, hsteps],
          List.forall_mem_cons.mpr ⟨by dsimp only; omega, hbound⟩, ?_, fun hzero => ?_⟩
        · rw [drift_cons, hdrift, List.map_cons, Strides.place_cons, Strides.place_cons,
            Int.mul_sub]
          omega
        · obtain ⟨hi, hrest⟩ := List.forall_mem_cons.mp hzero
          rw [heq hrest, show i = i' by dsimp only at hi; omega]

end

/-! ## Places of indices -/

section

variable {axes : List Axis} {index : List Nat}

/-- Where strides are not negative, the first element has the first place and the last element the
last one. -/
theorem place_bounds (hup : ∀ a ∈ axes, a.1 = 1 ∨ 0 ≤ a.2)
    (hindex : Shape.holds (axes.map Prod.fst) index = true) :
    0 ≤ Strides.place (axes.map Prod.snd) index ∧
      Strides.place (axes.map Prod.snd) index ≤ reach axes := by
  induction axes generalizing index with
  | nil =>
    rw [List.length_eq_zero_iff.mp (Shape.length_of_holds hindex)]
    exact ⟨Int.le_refl 0, Int.le_refl 0⟩
  | cons a axes ih =>
    cases index with
    | nil => cases hindex
    | cons i index =>
      obtain ⟨hi, hindex⟩ := Shape.holds_cons.mp hindex
      obtain ⟨ha, hup⟩ := List.forall_mem_cons.mp hup
      obtain ⟨hlow, hhigh⟩ := ih hup hindex
      rw [List.map_cons, Strides.place_cons, reach_cons, Int.natCast_add]
      have hstep : 0 ≤ a.2 * i ∧ a.2 * i ≤ ((a.1 - 1) * a.2.natAbs : Nat) := by
        obtain hone | hpos := ha
        · obtain rfl : i = 0 := by omega
          rw [Int.natCast_zero, Int.mul_zero]
          omega
        · refine ⟨Int.mul_nonneg hpos (Int.natCast_nonneg i), ?_⟩
          rw [Int.natCast_mul, Int.natAbs_of_nonneg hpos, Int.mul_comm]
          exact Int.mul_le_mul_of_nonneg_right (by omega) hpos
      omega

theorem place_last (hpos : ∀ a ∈ axes, 0 < a.1) (hup : ∀ a ∈ axes, a.1 = 1 ∨ 0 ≤ a.2) :
    ∃ index, Shape.holds (axes.map Prod.fst) index = true ∧
      Strides.place (axes.map Prod.snd) index = reach axes := by
  refine ⟨axes.map (·.1 - 1), ?_⟩
  induction axes with
  | nil => exact ⟨rfl, rfl⟩
  | cons a axes ih =>
    obtain ⟨ha, hpos⟩ := List.forall_mem_cons.mp hpos
    obtain ⟨hstride, hup⟩ := List.forall_mem_cons.mp hup
    obtain ⟨hindex, hplace⟩ := ih hpos hup
    refine ⟨Shape.holds_cons.mpr ⟨Nat.sub_lt ha Nat.one_pos, hindex⟩, ?_⟩
    rw [List.map_cons, List.map_cons, Strides.place_cons, hplace, reach_cons, Int.natCast_add,
      Int.natCast_mul]
    obtain hone | hstride := hstride
    · rw [hone, Nat.sub_self, Int.natCast_zero, Int.mul_zero, Int.zero_mul]
    · rw [Int.natAbs_of_nonneg hstride, Int.mul_comm]

end

/-- As many indices as places, and no two at one place, leave no place out. -/
theorem bijOn_of_injOn {s : Shape} {f : List Nat → Int}
    (hmaps : ∀ index, s.holds index = true → 0 ≤ f index ∧ f index < s.prod)
    (hinj : Set.InjOn f {index | s.holds index = true}) :
    Set.BijOn f {index | s.holds index = true} (Set.Ico 0 (s.prod : Int)) := by
  have hat : ∀ k : Fin s.prod, s.holds (s.indexAt k) = true := fun k => Shape.holds_indexAt k.isLt
  let g : Fin s.prod → Fin s.prod := fun k => ⟨(f (s.indexAt k)).toNat, by
    have := hmaps _ (hat k)
    omega⟩
  have hg : Function.Injective g := fun k k' h => by
    have hplace : f (s.indexAt k) = f (s.indexAt k') := by
      have := hmaps _ (hat k)
      have := hmaps _ (hat k')
      have := Fin.mk.inj h
      omega
    have hindex := hinj (hat k) (hat k') hplace
    rw [Fin.ext_iff, ← Shape.position_indexAt k.isLt, hindex, Shape.position_indexAt k'.isLt]
  refine ⟨fun index hindex => hmaps index hindex, hinj, fun n hn => ?_⟩
  obtain ⟨hlow, hhigh⟩ := hn
  obtain ⟨k, hk⟩ := (Finite.injective_iff_surjective.mp hg) ⟨n.toNat, by omega⟩
  have hvalue := Fin.mk.inj hk
  have := hmaps _ (hat k)
  exact ⟨s.indexAt k, hat k, by omega⟩

/-! ## Layers of a tensor -/

namespace TensorType

variable {t : TensorType} {size : Nat}

/-- The axes along which the tensor spreads are nested in some order, and they lead past no more
than `size` places and elements. -/
structure Layered (size : Nat) (t : TensorType) : Prop where
  ranked : t.Ranked
  nested : ∃ axes, axes.Perm t.footprint ∧ Nested axes
  reach_lt : reach t.footprint < size
  room_le : room t.footprint ≤ size

theorem layered_of_isStandard (h : t.isStandard = .ok true) (hpos : ∀ d ∈ t.shape, 0 < d)
    (hlt : t.shape.prod < Checked.sizeLimit) : t.Layered t.shape.prod := by
  obtain ⟨hranked, -⟩ := isStandard_ok h
  have hrow := rowMajor_of_isStandard h hpos hlt
  have haxes : ∀ a ∈ t.axes, 0 < a.1 := fun a ha => hpos a.1 (List.of_mem_zip ha).1
  obtain ⟨hdense, hspread⟩ := hrow.dense haxes
  rw [room_axes hranked] at hdense
  refine ⟨hranked, ⟨t.footprint, .refl _, .of_rowMajor hrow haxes⟩, ?_,
    Nat.le_of_eq (room_footprint hranked hspread)⟩
  rw [reach_footprint]
  omega

namespace Layered

theorem upward (h : t.Layered size) : ∀ a ∈ t.axes, a.1 = 1 ∨ 0 ≤ a.2 := by
  obtain ⟨axes, hperm, hnested⟩ := h.nested
  intro a ha
  by_contra hdown
  obtain ⟨hmany, hneg⟩ := not_or.mp hdown
  have hmem : a ∈ t.footprint := by
    refine List.mem_filter.mpr ⟨ha, decide_eq_true ⟨hmany, fun hzero => hneg ?_⟩⟩
    rw [hzero]
  exact hneg (Int.le_of_lt (hnested.pos a (hperm.mem_iff.mpr hmem)).2)

theorem pos (h : t.Layered size) (hstrides : 0 ∉ t.strides) : ∀ a ∈ t.axes, 0 < a.1 := by
  obtain ⟨axes, hperm, hnested⟩ := h.nested
  intro a ha
  by_cases hone : a.1 = 1
  · rw [hone]
    exact Nat.one_pos
  · have hmem : a ∈ t.footprint :=
      List.mem_filter.mpr ⟨ha, decide_eq_true ⟨hone, ne_zero_of_axes hstrides a ha hone⟩⟩
    exact (hnested.pos a (hperm.mem_iff.mpr hmem)).1

/-- **The elements of a tensor with nested axes have different places.** -/
theorem injOn_place (h : t.Layered size) (hstrides : 0 ∉ t.strides) :
    Set.InjOn t.strides.place {index | t.shape.holds index = true} := by
  intro index hindex index' hindex' hplace
  obtain ⟨axes, hperm, hnested⟩ := h.nested
  have hfst := map_fst_axes h.ranked
  obtain ⟨steps, hsteps, hbound, hdrift, heq⟩ :=
    exists_drift (hfst.symm ▸ hindex) (hfst.symm ▸ hindex')
  rw [map_snd_axes h.ranked, hplace, Int.sub_self] at hdrift
  have hunit : ∀ p ∈ steps, p.1.1 = 1 → p.2 = 0 := fun p hp hone => by
    have := hbound p hp
    omega
  -- the steps along the axes along which the tensor spreads, in the order in which they are nested
  have hspread : List.Forall₂ (fun a p => p.1 = a) t.footprint
      (steps.filter fun p => p.1.1 ≠ 1 ∧ p.1.2 ≠ 0) := by
    rw [footprint, ← hsteps, List.filter_map, List.forall₂_map_left_iff]
    exact List.forall₂_same.mpr fun _ _ => rfl
  obtain ⟨arranged, harranged, hsame⟩ := List.perm_comp_forall₂ hperm hspread
  have hfst : arranged.map Prod.fst = axes := by
    rw [← List.forall₂_eq_eq_eq, List.forall₂_map_left_iff]
    exact harranged.flip
  have hzero : ∀ p ∈ arranged, p.2 = 0 := by
    refine Nested.eq_zero (hfst ▸ hnested) (fun p hp => ?_) ?_
    · exact hbound p (List.mem_of_mem_filter (hsame.mem_iff.mp hp))
    · rw [drift_perm hsame, drift_filter hunit, hdrift]
  refine heq fun p hp => ?_
  by_cases hone : p.1.1 = 1
  · exact hunit p hp hone
  · have haxis : p.1 ∈ t.axes := hsteps ▸ List.mem_map_of_mem hp
    refine hzero p (hsame.mem_iff.mpr (List.mem_filter.mpr ⟨hp, decide_eq_true ⟨hone, ?_⟩⟩))
    exact ne_zero_of_axes hstrides p.1 haxis hone

/-- **A tensor with nested axes is packed just if its elements fill as many places**, provided that
no axis is broadcast. -/
theorem bijOn_iff (h : t.Layered size) (hstrides : 0 ∉ t.strides) :
    Set.BijOn t.strides.place {index | t.shape.holds index = true}
      (Set.Ico 0 (t.shape.prod : Int)) ↔ t.shape.prod = reach t.axes + 1 := by
  have hbounds : ∀ index, t.shape.holds index = true →
      0 ≤ t.strides.place index ∧ t.strides.place index ≤ reach t.axes := by
    intro index hindex
    rw [← map_fst_axes h.ranked] at hindex
    have hplace := place_bounds h.upward hindex
    rwa [map_snd_axes h.ranked] at hplace
  constructor
  · rintro ⟨hmaps, -, hsurj⟩
    obtain ⟨last, hlast, hplace⟩ := place_last (h.pos hstrides) h.upward
    rw [map_fst_axes h.ranked] at hlast
    rw [map_snd_axes h.ranked] at hplace
    have htop := (hmaps hlast).2
    obtain ⟨index, hindex, hfilled⟩ :=
      hsurj (show (t.shape.prod : Int) - 1 ∈ Set.Ico 0 (t.shape.prod : Int) by
        constructor <;> omega)
    have := (hbounds index hindex).2
    omega
  · intro hprod
    refine bijOn_of_injOn (fun index hindex => ?_) (h.injOn_place hstrides)
    obtain ⟨hlow, hhigh⟩ := hbounds index hindex
    exact ⟨hlow, by omega⟩

theorem isPacked_ok (h : t.Layered size) (hsize : size < Checked.sizeLimit)
    (hstrides : 0 ∉ t.strides) :
    t.isPacked = .ok (decide (t.shape.prod = reach t.axes + 1)) := by
  have hpos : ∀ d ∈ t.shape, 0 < d := by
    rw [← map_fst_axes h.ranked]
    exact List.forall_mem_map.mpr (h.pos hstrides)
  have hroom := h.room_le
  have hreach := h.reach_lt
  rw [room_footprint h.ranked (ne_zero_of_axes hstrides)] at hroom
  rw [reach_footprint] at hreach
  exact isPacked_of_lt hstrides hpos (by omega) (by omega)

end Layered

end TensorType

/-! ## Views -/

namespace Reindex

open TensorType

variable {t u : TensorType} {view : Reindex} {size : Nat}

/-- **Views keep axes nested.** A slice leaves out what it narrows to a unit axis; the others keep
the axes along which their operand spreads. -/
theorem layered_output (hkeeps : view.keepsMemory = true) (h : t.Layered size)
    (hok : view.output t = .ok u) : u.Layered size := by
  have hranked := ranked_output hkeeps h.ranked hok
  obtain ⟨axes, hperm, hnested⟩ := h.nested
  cases hslice : view.isSlice with
  | false =>
    have hfootprint := footprint_output hkeeps hslice h.ranked hok
    exact ⟨hranked, ⟨axes, hperm.trans hfootprint.symm, hnested⟩,
      reach_perm hfootprint ▸ h.reach_lt, room_perm hfootprint ▸ h.room_le⟩
  | true =>
    obtain ⟨sliced, starts, ends, rfl⟩ : ∃ sliced starts ends, view = slice sliced starts ends := by
      cases view with
      | slice sliced starts ends => exact ⟨sliced, starts, ends, rfl⟩
      | _ => cases hslice
    obtain ⟨-, -, hnarrow⟩ := slice_ok hok
    obtain ⟨narrowed, hnarrowed, hfootprint⟩ := footprint_narrow hnarrow
    obtain ⟨arranged, harranged, hsame⟩ := List.perm_comp_forall₂ hperm hnarrowed
    have hfootprint : u.footprint = narrowed.filter (·.1 ≠ 1) := hfootprint
    refine ⟨hranked, ⟨arranged.filter (·.1 ≠ 1), ?_, ?_⟩, ?_, ?_⟩
    · rw [hfootprint]
      exact hsame.filter _
    · exact (hnested.narrow harranged).sublist List.filter_sublist
    · calc reach u.footprint ≤ reach narrowed := hfootprint ▸ reach_sublist List.filter_sublist
        _ ≤ reach t.footprint := reach_narrow hnarrowed
        _ < size := h.reach_lt
    · calc room u.footprint = room narrowed := by rw [hfootprint, room_filter_unit]
        _ ≤ room t.footprint := room_narrow hnarrowed
        _ ≤ size := h.room_le

/-- **Packed views are dense.** Of a row-major tensor with no empty axis, a view by any sequence of
operations that keep its memory is packed just if no axis is broadcast and its indices correspond
one to one to the places from its first element on, as many as it has elements. -/
theorem isPacked_iff_bijOn {views : List Reindex} {n : Nat}
    (hkeeps : ∀ view ∈ views, view.keepsMemory = true) (hstandard : t.isStandard = .ok true)
    (hpos : ∀ d ∈ t.shape, 0 < d) (hn : t.numel = .ok n)
    (hok : views.foldlM (fun t view => view.output t) t = .ok u) :
    ∃ packed, u.isPacked = .ok packed ∧ (packed = true ↔ 0 ∉ u.strides ∧
      Set.BijOn u.strides.place {index | u.shape.holds index = true}
        (Set.Ico 0 (u.shape.prod : Int))) := by
  obtain ⟨rfl, hlt⟩ := Checked.product_ok hn
  have hlayered : u.Layered t.shape.prod := views_induction
    (fun view hview _ _ hv hw => layered_output (hkeeps view hview) hv hw)
    (layered_of_isStandard hstandard hpos hlt) hok
  by_cases hzero : 0 ∈ u.strides
  · refine ⟨false, ?_, by simp [hzero]⟩
    rw [isPacked, isBroadcasted_iff.mpr hzero]
    rfl
  · refine ⟨_, hlayered.isPacked_ok hlt hzero, ?_⟩
    rw [decide_eq_true_eq, hlayered.bijOn_iff hzero]
    exact (and_iff_right hzero).symm

/-- The elements of one matrix of several, in another order. -/
theorem isPacked_iff_bijOn_sliced :
    let views := [slice [0] [1] [2], transpose [2, 0, 1], squeeze [1]]
    let t : TensorType := ⟨.f32, [2, 3, 4], [12, 4, 1]⟩
    let u : TensorType := ⟨.f32, [4, 3], [1, 4]⟩
    (∀ view ∈ views, view.keepsMemory = true) ∧ t.isStandard = .ok true ∧
      (∀ d ∈ t.shape, 0 < d) ∧ t.numel = .ok 24 ∧
      views.foldlM (fun t view => view.output t) t = .ok u ∧ u.isPacked = .ok true ∧
      ∃ packed, u.isPacked = .ok packed ∧ (packed = true ↔ 0 ∉ u.strides ∧
        Set.BijOn u.strides.place {index | u.shape.holds index = true}
          (Set.Ico 0 (u.shape.prod : Int))) := by
  intro views t u
  have hkeeps : ∀ view ∈ views, view.keepsMemory = true := by decide
  have hpos : ∀ d ∈ t.shape, 0 < d := by decide
  have hok : views.foldlM (fun t view => view.output t) t = .ok u := rfl
  exact ⟨hkeeps, rfl, hpos, rfl, hok, rfl, isPacked_iff_bijOn hkeeps rfl hpos rfl hok⟩

end Reindex

end OffloadFusion
