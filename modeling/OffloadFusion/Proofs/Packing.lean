import Mathlib.Algebra.Order.BigOperators.Group.List
import Mathlib.Algebra.Order.BigOperators.GroupWithZero.List
import Mathlib.Algebra.Order.Ring.Nat
import OffloadFusion.Proofs.Axes
import OffloadFusion.Proofs.Calls

/-!
# Dense layouts

A tensor without broadcast axes is packed if it has as many elements as there are places from its
first to its last one.

* `reach`, `room`: how far axes lead and how many indices they have.
* `TensorType.isPacked_of_lt`: `isPacked` compares these.
* `rowMajor_of_isStandard`: the strides of row-major tensors.
* **`Reindex.packed_or_broadcasted`**: what is viewed without slices stays packed, up to broadcast
  axes.
-/

namespace OffloadFusion

/-! ## Reach and room -/

section

variable {axes axes' : List Axis} {a : Axis}

/-- How far the last element along the axes is from the first one. -/
def reach (axes : List Axis) : Nat := (axes.map fun a => (a.1 - 1) * a.2.natAbs).sum

/-- The number of indices along the axes. -/
def room (axes : List Axis) : Nat := (axes.map Prod.fst).prod

theorem reach_cons : reach (a :: axes) = (a.1 - 1) * a.2.natAbs + reach axes := List.sum_cons

theorem room_cons : room (a :: axes) = a.1 * room axes := List.prod_cons

theorem room_append : room (axes ++ axes') = room axes * room axes' := by
  rw [room, List.map_append, List.prod_append, room, room]

theorem reach_perm (h : axes.Perm axes') : reach axes = reach axes' := (h.map _).sum_eq

theorem room_perm (h : axes.Perm axes') : room axes = room axes' := (h.map _).prod_eq

theorem reach_filter : reach (axes.filter fun a => a.1 ≠ 1 ∧ a.2 ≠ 0) = reach axes := by
  induction axes with
  | nil => rfl
  | cons a axes ih =>
    rw [reach_cons, List.filter_cons]
    split
    · rw [reach_cons, ih]
    · next hidle =>
      have hzero : (a.1 - 1) * a.2.natAbs = 0 := by
        simp only [decide_eq_true_eq, not_and_or, not_not] at hidle
        obtain hone | hzero := hidle
        · rw [hone, Nat.sub_self, Nat.zero_mul]
        · rw [hzero, Int.natAbs_zero, Nat.mul_zero]
      rw [ih, hzero, Nat.zero_add]

theorem room_filter_unit (axes : List Axis) : room (axes.filter (·.1 ≠ 1)) = room axes := by
  induction axes with
  | nil => rfl
  | cons a axes ih =>
    rw [room_cons, List.filter_cons]
    split
    · rw [room_cons, ih]
    · next hone =>
      rw [ih, show a.1 = 1 by simpa using hone, Nat.one_mul]

/-- Without broadcast axes, unit axes are the only ones that do not spread. -/
theorem room_filter (h : ∀ a ∈ axes, a.1 ≠ 1 → a.2 ≠ 0) :
    room (axes.filter fun a => a.1 ≠ 1 ∧ a.2 ≠ 0) = room axes := by
  have hsame : axes.filter (fun a => a.1 ≠ 1 ∧ a.2 ≠ 0) = axes.filter (·.1 ≠ 1) :=
    List.filter_congr fun a ha =>
      decide_eq_decide.mpr ⟨And.left, fun hmany => ⟨hmany, h a ha hmany⟩⟩
  rw [hsame, room_filter_unit]

end

/-! ## Judging layouts -/

/-- Without an empty extent, no product on the way is larger than the last one. -/
theorem Checked.foldlM_mul_of_lt {ns : List Nat} {start : Nat} (hpos : ∀ n ∈ ns, 0 < n)
    (hlt : start * ns.prod < sizeLimit) : ns.foldlM mul start = .ok (start * ns.prod) := by
  induction ns generalizing start with
  | nil =>
    rw [List.prod_nil, Nat.mul_one]
    rfl
  | cons n ns ih =>
    obtain ⟨-, hrest⟩ := List.forall_mem_cons.mp hpos
    rw [List.prod_cons, ← Nat.mul_assoc] at hlt ⊢
    have hle : start * n ≤ start * n * ns.prod :=
      Nat.le_mul_of_pos_right _ (List.prod_pos hrest)
    rw [List.foldlM_cons, Outcome.bind_ok]
    exact ⟨start * n, size_ok.mpr ⟨by omega, rfl⟩, ih hrest hlt⟩

theorem Checked.product_of_lt {ns : List Nat} (hpos : ∀ n ∈ ns, 0 < n)
    (hlt : ns.prod < sizeLimit) : product ns = .ok ns.prod := by
  rw [product, foldlM_mul_of_lt hpos (by rwa [Nat.one_mul]), Nat.one_mul]

namespace TensorType

variable {t u : TensorType}

theorem reach_footprint (t : TensorType) : reach t.footprint = reach t.axes := reach_filter

theorem room_axes (h : t.Ranked) : room t.axes = t.shape.prod :=
  congrArg List.prod (map_fst_axes h)

theorem elementSpace_of_lt (hpos : ∀ d ∈ t.shape, 0 < d)
    (hlt : reach t.axes + 1 < Checked.sizeLimit) : t.elementSpace = .ok (reach t.axes + 1) := by
  have hempty : ¬ t.shape.contains 0 = true := fun h =>
    Nat.lt_irrefl 0 (hpos 0 (List.contains_iff_mem.mp h))
  have hspans : ∀ a ∈ t.axes, Checked.mul (a.1 - 1) a.2.natAbs = .ok ((a.1 - 1) * a.2.natAbs) := by
    intro a ha
    have hle : (a.1 - 1) * a.2.natAbs ≤ reach t.axes :=
      List.single_le_sum (fun _ _ => Nat.zero_le _) _ (List.mem_map_of_mem ha)
    exact Checked.size_ok.mpr ⟨by omega, rfl⟩
  rw [elementSpace, if_neg hempty]
  simp only [Outcome.bind_ok]
  refine ⟨t.axes.map fun a => (a.1 - 1) * a.2.natAbs, Outcome.mapM_ok.mpr ?_, reach t.axes,
    Checked.sum_of_lt (Nat.lt_of_succ_lt hlt), Checked.size_ok.mpr ⟨hlt, rfl⟩⟩
  exact List.forall₂_map_right_iff.mpr (List.forall₂_same.mpr hspans)

theorem isBroadcasted_iff : t.isBroadcasted = true ↔ 0 ∈ t.strides := List.contains_iff_mem

/-- **A tensor without broadcast axes is packed** if it has as many elements as there are places
from its first to its last one. -/
theorem isPacked_of_lt (hstrides : 0 ∉ t.strides) (hpos : ∀ d ∈ t.shape, 0 < d)
    (hlt : t.shape.prod < Checked.sizeLimit) (hreach : reach t.axes + 1 < Checked.sizeLimit) :
    t.isPacked = .ok (decide (t.shape.prod = reach t.axes + 1)) := by
  have hnumel : t.numel = .ok t.shape.prod := Checked.product_of_lt hpos hlt
  rw [isPacked, Bool.eq_false_iff.mpr fun h => hstrides (isBroadcasted_iff.mp h), hnumel,
    elementSpace_of_lt hpos hreach]
  rfl

theorem room_footprint (hranked : t.Ranked) (h : ∀ a ∈ t.axes, a.1 ≠ 1 → a.2 ≠ 0) :
    room t.footprint = t.shape.prod :=
  (room_filter h).trans (room_axes hranked)

theorem ne_zero_of_axes (hstrides : 0 ∉ t.strides) : ∀ a ∈ t.axes, a.1 ≠ 1 → a.2 ≠ 0 :=
  fun _ ha _ hzero => hstrides (hzero ▸ (List.of_mem_zip ha).2)

/-! ## Row-major tensors -/

/-- The stride along each axis, unless it is a unit axis, is the number of indices along the axes
inside of it. -/
def RowMajor : List Axis → Prop
  | [] => True
  | a :: axes => (a.1 = 1 ∨ a.2 = room axes) ∧ RowMajor axes

/-- Extents are only known up to the signed range; past it, axes have extent one. -/
theorem rowMajor_of_extent {axes : List Axis} {extent : Int} (hpos : ∀ a ∈ axes, 0 < a.1)
    (hlt : room axes < Checked.sizeLimit) (h : Shape.rowMajorExtent? axes = .ok (some extent)) :
    RowMajor axes ∧ (room axes < 0x8000000000000000 → extent = room axes) := by
  induction axes generalizing extent with
  | nil =>
    cases h
    exact ⟨trivial, fun _ => rfl⟩
  | cons a axes ih =>
    obtain ⟨d, stride⟩ := a
    obtain ⟨hd, hrest⟩ := List.forall_mem_cons.mp hpos
    dsimp only at hd
    rw [Shape.rowMajorExtent?, Outcome.bind_ok] at h
    obtain ⟨_ | inner, hinner, h⟩ := h
    · cases h
    simp only [Outcome.ite_ok, Outcome.pure_ok, reduceCtorEq, and_false, false_or, Outcome.map_ok,
      Option.some.injEq, exists_eq_right, not_and_or, not_not] at h
    obtain ⟨hstride, houter⟩ := h
    rw [room_cons] at hlt ⊢
    dsimp only at hlt ⊢
    have hle : room axes ≤ d * room axes := Nat.le_mul_of_pos_left _ hd
    obtain ⟨hrow, hextent⟩ := ih hrest (by omega) hinner
    refine ⟨⟨or_iff_not_imp_left.mpr fun hne => ?_, hrow⟩, fun hsmall => ?_⟩
    · -- two such blocks would be too many elements
      have hblocks : 2 * room axes ≤ d * room axes := Nat.mul_le_mul_right _ (by omega)
      have hhalf : room axes < 0x8000000000000000 := by
        rw [Checked.sizeLimit] at hlt
        omega
      exact (hstride.resolve_left (by omega)).trans (hextent hhalf)
    · have hpos' : 0 < room axes := List.prod_pos (List.forall_mem_map.mpr hrest)
      have hdsmall : d < 0x8000000000000000 := by
        have : d ≤ d * room axes := Nat.le_mul_of_pos_right _ hpos'
        omega
      rw [hextent (by omega), Checked.signed_of_lt hdsmall, Checked.stride] at houter
      split at houter
      · cases houter
        rw [Nat.mul_comm, Int.natCast_mul]
      · cases houter

theorem isStandard_ok (h : t.isStandard = .ok true) :
    t.Ranked ∧ ∃ extent, Shape.rowMajorExtent? t.axes = .ok (some extent) := by
  rw [isStandard, Shape.isRowMajor, Outcome.ite_ok] at h
  obtain ⟨-, h⟩ | ⟨hlen, h⟩ := h
  · cases h
  · obtain ⟨extent?, hextent, hsome⟩ := Outcome.map_ok.mp h
    obtain ⟨extent, rfl⟩ := Option.isSome_iff_exists.mp hsome
    exact ⟨(not_not.mp hlen).symm, extent, hextent⟩

theorem rowMajorExtent_of_rowMajorFrom {shape : Shape} {strides : Strides} {extent : Int}
    (h : Shape.rowMajorFrom shape = .ok (strides, extent)) :
    Shape.rowMajorExtent? (shape.zip strides) = .ok (some extent) := by
  induction shape generalizing strides extent with
  | nil =>
    cases h
    rfl
  | cons d shape ih =>
    rw [Shape.rowMajorFrom, Outcome.bind_ok] at h
    obtain ⟨⟨inner, extent'⟩, hinner, h⟩ := h
    simp only [Outcome.bind_ok, Outcome.pure_ok] at h
    obtain ⟨outer, houter, he⟩ := h
    cases he
    rw [List.zip_cons_cons, Shape.rowMajorExtent?, Outcome.bind_ok]
    refine ⟨_, ih hinner, ?_⟩
    simp [houter]

theorem isStandard_standard {dtype : DType} {shape : Shape} (h : standard dtype shape = .ok t) :
    t.isStandard = .ok true := by
  obtain ⟨strides, hrow, rfl⟩ := Typing.standard_ok.mp h
  obtain ⟨⟨_, extent⟩, hfrom, rfl⟩ := Outcome.map_ok.mp hrow
  rw [isStandard, Shape.isRowMajor, if_neg (not_not.mpr (Shape.length_rowMajorFrom hfrom).symm),
    Outcome.map_ok]
  exact ⟨some extent, rowMajorExtent_of_rowMajorFrom hfrom, rfl⟩

/-- **The strides of row-major tensors**: each skips what is inside. -/
theorem rowMajor_of_isStandard (h : t.isStandard = .ok true) (hpos : ∀ d ∈ t.shape, 0 < d)
    (hlt : t.shape.prod < Checked.sizeLimit) : RowMajor t.axes := by
  obtain ⟨hranked, extent, hextent⟩ := isStandard_ok h
  refine (rowMajor_of_extent (fun a ha => hpos a.1 (List.of_mem_zip ha).1) ?_ hextent).1
  exact (room_axes hranked).symm ▸ hlt

theorem RowMajor.dense {axes : List Axis} (h : RowMajor axes) (hpos : ∀ a ∈ axes, 0 < a.1) :
    reach axes + 1 = room axes ∧ ∀ a ∈ axes, a.1 ≠ 1 → a.2 ≠ 0 := by
  induction axes with
  | nil => exact ⟨rfl, fun a ha => absurd ha List.not_mem_nil⟩
  | cons a axes ih =>
    obtain ⟨hstride, hrest⟩ := h
    obtain ⟨ha, hpos⟩ := List.forall_mem_cons.mp hpos
    obtain ⟨hdense, hspread⟩ := ih hrest hpos
    refine ⟨?_, List.forall_mem_cons.mpr ⟨fun hmany => ?_, hspread⟩⟩
    · have hspan : (a.1 - 1) * a.2.natAbs = (a.1 - 1) * room axes := by
        obtain hone | hstride := hstride
        · rw [hone, Nat.sub_self, Nat.zero_mul, Nat.zero_mul]
        · rw [hstride, Int.natAbs_natCast]
      rw [reach_cons, room_cons, hspan, Nat.add_assoc, hdense, ← Nat.succ_mul, Nat.succ_eq_add_one,
        Nat.sub_add_cancel ha]
    · rw [hstride.resolve_left hmany]
      omega

/-- The tensor is dense along the axes along which it spreads, provided that it has elements and
that they can be counted. -/
structure Compact (t : TensorType) : Prop where
  ranked : t.Ranked
  dense : t.shape.prod ≠ 0 → t.shape.prod < Checked.sizeLimit →
    reach t.footprint + 1 = room t.footprint

theorem pos_of_prod (h : t.shape.prod ≠ 0) : ∀ d ∈ t.shape, 0 < d := fun _ hd =>
  Nat.pos_of_ne_zero fun hzero => h (List.prod_eq_zero (hzero ▸ hd))

theorem compact_of_isStandard (h : t.isStandard = .ok true) : t.Compact := by
  obtain ⟨hranked, -⟩ := isStandard_ok h
  refine ⟨hranked, fun hne hlt => ?_⟩
  have hpos := pos_of_prod hne
  obtain ⟨hdense, hspread⟩ := (rowMajor_of_isStandard h hpos hlt).dense fun a ha =>
    hpos a.1 (List.of_mem_zip ha).1
  rw [reach_footprint, room_footprint hranked hspread, hdense, room_axes hranked]

/-- **A compact tensor is packed or broadcasted.** -/
theorem Compact.layout {n : Nat} (h : t.Compact) (hn : t.numel = .ok n) :
    t.isPacked = .ok true ∨ t.isBroadcasted = true := by
  refine or_iff_not_imp_right.mpr fun hbroadcasted => ?_
  have hstrides : 0 ∉ t.strides := fun hmem => hbroadcasted (isBroadcasted_iff.mpr hmem)
  obtain ⟨rfl, hlt⟩ := Checked.product_ok hn
  by_cases hne : t.shape.prod = 0
  · -- a tensor without elements touches no place
    have hempty : t.shape.contains 0 = true :=
      List.contains_iff_mem.mpr (List.prod_eq_zero_iff.mp hne)
    rw [isPacked, Bool.eq_false_iff.mpr hbroadcasted, hn, elementSpace, if_pos hempty, hne]
    rfl
  · have hdense : reach t.axes + 1 = t.shape.prod := by
      rw [← reach_footprint, h.dense hne hlt,
        room_footprint h.ranked (ne_zero_of_axes hstrides)]
    rw [isPacked_of_lt hstrides (pos_of_prod hne) hlt (hdense ▸ hlt), hdense, decide_eq_true rfl]

end TensorType

/-! ## Views without slices -/

namespace Reindex

open TensorType

variable {t u : TensorType} {view : Reindex}

theorem views_induction {P : TensorType → Prop} {views : List Reindex}
    (hstep : ∀ view ∈ views, ∀ {v w : TensorType}, P v → view.output v = .ok w → P w) (ht : P t)
    (hok : views.foldlM (fun t view => view.output t) t = .ok u) : P u := by
  induction views generalizing t with
  | nil =>
    cases hok
    exact ht
  | cons view views ih =>
    obtain ⟨hview, hviews⟩ := List.forall_mem_cons.mp hstep
    rw [List.foldlM_cons, Outcome.bind_ok] at hok
    obtain ⟨v, hv, hok⟩ := hok
    exact ih hviews (hview ht hv) hok

theorem isStandard_output (hkeeps : view.keepsMemory = false) (hok : view.output t = .ok u) :
    u.isStandard = .ok true := by
  cases view with
  | contiguous =>
    have hok : (liftM t.asStandard : Outcome TypeError TensorType) = .ok u := hok
    exact isStandard_standard (Outcome.lift_checked_ok.mp hok)
  | reshape target =>
    simp only [output, reshapeOutput, Outcome.ite_ok, Outcome.bind_ok, Outcome.refuse_ok,
      false_and, exists_false, and_false, false_or, Outcome.lift_checked_ok] at hok
    obtain ⟨-, -, -, -, -, hstandard⟩ := hok
    exact isStandard_standard hstandard
  | flatten axis =>
    simp only [output, flattenOutput, Outcome.ite_ok, Outcome.bind_ok, Outcome.refuse_ok,
      false_and, exists_false, and_false, false_or, Outcome.lift_checked_ok] at hok
    obtain ⟨-, _, -, _, -, hstandard⟩ := hok
    exact isStandard_standard hstandard
  | _ => cases hkeeps

theorem room_dvd_of_stretches {axes axes' : List Axis} (h : List.Forall₂ Stretches axes axes') :
    room axes ∣ room axes' := by
  induction h with
  | nil => exact Nat.dvd_refl _
  | cons hab _ ih =>
    rw [room_cons, room_cons]
    obtain rfl | ⟨hone, -⟩ := hab
    · exact Nat.mul_dvd_mul_left _ ih
    · rw [hone, Nat.one_mul]
      exact ih.mul_left _

/-- A view without slices has as many elements as its operand, or a multiple of them. -/
theorem prod_dvd_output (hkeeps : view.keepsMemory = true) (hslice : view.isSlice = false)
    (hranked : t.Ranked) (hok : view.output t = .ok u) : t.shape.prod ∣ u.shape.prod := by
  rw [← room_axes hranked, ← room_axes (ranked_output hkeeps hranked hok)]
  cases view with
  | slice => cases hslice
  | transpose axes => rw [room_perm (transpose_ok hranked hok).2.2.2]
  | broadcast axis target =>
    obtain ⟨-, outer, inner, -, -, -, haxes⟩ := broadcast_ok hranked hok
    rw [haxes, room_append, room_append]
    exact Dvd.dvd.mul_right (Nat.dvd_mul_left _ _) _
  | multibroadcast target =>
    obtain ⟨-, outer, inner, haxes, -, hstretch⟩ := multibroadcast_ok hranked hok
    rw [haxes, room_append]
    exact (room_dvd_of_stretches hstretch).mul_left _
  | squeeze axes =>
    have hregroups : (Reindex.squeeze axes).isRegrouping = true := rfl
    rw [room_axes hranked, room_axes (core_squeeze hranked hok).1, (prod_output hregroups hok).2]
  | unsqueeze axes =>
    have hregroups : (Reindex.unsqueeze axes).isRegrouping = true := rfl
    rw [room_axes hranked, room_axes (core_unsqueeze hranked hok).1, (prod_output hregroups hok).2]
  | contiguous | reshape | flatten => cases hkeeps

/-- **Views but slices stay compact.** -/
theorem compact_output (hslice : view.isSlice = false) (h : t.Compact)
    (hok : view.output t = .ok u) : u.Compact := by
  cases hkeeps : view.keepsMemory with
  | false => exact compact_of_isStandard (isStandard_output hkeeps hok)
  | true =>
    refine ⟨ranked_output hkeeps h.ranked hok, fun hne hlt => ?_⟩
    have hdvd := prod_dvd_output hkeeps hslice h.ranked hok
    have hfootprint := footprint_output hkeeps hslice h.ranked hok
    rw [reach_perm hfootprint, room_perm hfootprint]
    refine h.dense (fun hzero => hne (Nat.eq_zero_of_zero_dvd (hzero ▸ hdvd))) ?_
    exact Nat.lt_of_le_of_lt (Nat.le_of_dvd (Nat.pos_of_ne_zero hne) hdvd) hlt

/-- **Without slices, a view of a row-major tensor needs no contiguous copy**: it is packed or
broadcasted, so a call takes it. -/
theorem packed_or_broadcasted {views : List Reindex} {n : Nat}
    (hslice : ∀ view ∈ views, view.isSlice = false) (hstandard : t.isStandard = .ok true)
    (hok : views.foldlM (fun t view => view.output t) t = .ok u) (hn : u.numel = .ok n) :
    (u.isPacked = .ok true ∨ u.isBroadcasted = true) ∧ Op.acceptsLayout u = .ok true := by
  have hcompact : u.Compact := views_induction
    (fun view hview _ _ hv hw => compact_output (hslice view hview) hv hw)
    (compact_of_isStandard hstandard) hok
  have hlayout := hcompact.layout hn
  exact ⟨hlayout, Op.acceptsLayout_iff.mpr hlayout⟩

/-- A broadcast axis comes and goes between axes in another order. -/
theorem packed_or_broadcasted_squeezed :
    let views := [broadcast 1 [1, 2, 3], transpose [2, 0, 1], squeeze [1], unsqueeze [1]]
    let t : TensorType := ⟨.f32, [2, 3], [3, 1]⟩
    let u : TensorType := ⟨.f32, [3, 1, 2], [1, 6, 3]⟩
    (∀ view ∈ views, view.isSlice = false) ∧ t.isStandard = .ok true ∧
      views.foldlM (fun t view => view.output t) t = .ok u ∧ u.numel = .ok 6 ∧
      (u.isPacked = .ok true ∨ u.isBroadcasted = true) ∧ Op.acceptsLayout u = .ok true := by
  intro views t u
  have hslice : ∀ view ∈ views, view.isSlice = false := by decide
  have hok : views.foldlM (fun t view => view.output t) t = .ok u := rfl
  exact ⟨hslice, rfl, hok, rfl, packed_or_broadcasted hslice rfl hok rfl⟩

end Reindex

end OffloadFusion
