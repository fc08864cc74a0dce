import Mathlib.Data.List.Sort
import OffloadFusion.Proofs.Layouts
import OffloadFusion.Proofs.Packing

/-!
# Unit axes in and out

Unsqueezing puts unit axes in at positions of the growing tensor, lowest first; squeezing takes them
out, highest first. Over distinct axes the one goes the way of the other backwards
(`Reindex.descending_eq`), so **squeezing undoes unsqueezing**, whatever strides were put in
(`Reindex.squeeze_unsqueeze`). Which axes can be put in is a matter of their bound alone: below a
bound there is room for each (`Reindex.add_length_lt`).
-/

namespace OffloadFusion

/-! ## Row-major order -/

namespace Shape

theorem stride_of_rowMajorExtent {axes : List Axis} {extent : Int}
    (h : rowMajorExtent? axes = .ok (some extent)) : Checked.stride extent = .ok extent := by
  cases axes with
  | nil =>
    cases h
    rfl
  | cons a axes =>
    simp only [rowMajorExtent?, Outcome.bind_ok] at h
    obtain ⟨_ | inner, -, h⟩ := h
    · cases h
    simp only [Outcome.ite_ok, Outcome.pure_ok, reduceCtorEq, and_false, false_or, Outcome.map_ok,
      Option.some.injEq, exists_eq_right] at h
    have hstride := h.2
    rw [Checked.stride] at hstride
    split at hstride
    · next hrange =>
      cases hstride
      exact if_pos hrange
    · cases hstride

/-- A unit axis does not count for row-major order, whatever its stride. -/
theorem rowMajorExtent_insertIdx {axes : List Axis} {k : Nat} {s : Int} (hk : k ≤ axes.length) :
    rowMajorExtent? (axes.insertIdx k (1, s)) = rowMajorExtent? axes := by
  induction axes generalizing k with
  | nil =>
    obtain rfl := Nat.le_zero.mp hk
    rfl
  | cons a axes ih =>
    cases k with
    | zero =>
      rw [List.insertIdx_zero, rowMajorExtent?]
      cases h : rowMajorExtent? (a :: axes) with
      | error e => rfl
      | ok extent? =>
        cases extent? with
        | none => rfl
        | some extent =>
          have hone : extent * Checked.signed 1 = extent := Int.mul_one extent
          change (some <$> Checked.stride (extent * Checked.signed 1) : Checked _) = _
          rw [hone, stride_of_rowMajorExtent h]
          rfl
    | succ k =>
      rw [List.insertIdx_succ_cons, rowMajorExtent?, rowMajorExtent?,
        ih (Nat.le_of_succ_le_succ hk)]

end Shape

namespace Reindex

open TensorType

variable {t u : TensorType} {source : Shape} {axis rank n : Nat} {axes : List Nat}

/-! ## Orders -/

theorem ascending_eq (axes : List Nat) : ascending axes = axes.insertionSort (· ≤ ·) := by
  have hinsert : ∀ a axes, insertAscending a axes = axes.orderedInsert (· ≤ ·) a := by
    intro a axes
    induction axes with
    | nil => rfl
    | cons b axes ih => rw [insertAscending, ih, List.orderedInsert_cons]
  induction axes with
  | nil => rfl
  | cons a axes ih => rw [List.insertionSort_cons, ← ih, ← hinsert]; rfl

theorem perm_ascending (axes : List Nat) : (ascending axes).Perm axes :=
  ascending_eq axes ▸ List.perm_insertionSort ..

theorem mem_insertDescending {a : Nat} :
    a ∈ insertDescending axis axes ↔ a = axis ∨ a ∈ axes := by
  induction axes with
  | nil => simp [insertDescending]
  | cons b axes ih =>
    rw [insertDescending]
    split
    · exact List.mem_cons
    · split
      · next heq => simp [heq]
      · rw [List.mem_cons, ih, List.mem_cons, or_left_comm]

theorem mem_descending {a : Nat} : a ∈ descending axes ↔ a ∈ axes := by
  induction axes with
  | nil => rfl
  | cons b axes ih => rw [List.mem_cons, ← ih]; exact mem_insertDescending

theorem pairwise_ascending (hnodup : axes.Nodup) : (ascending axes).Pairwise (· < ·) := by
  have hle : (ascending axes).Pairwise (· ≤ ·) :=
    ascending_eq axes ▸ List.pairwise_insertionSort ..
  have hne : (ascending axes).Pairwise (· ≠ ·) := (perm_ascending axes).nodup_iff.mpr hnodup
  exact (hle.and hne).imp fun h => Nat.lt_of_le_of_ne h.1 h.2

/-- **Distinct axes are taken out in the opposite order** of the one in which they are put in. -/
theorem descending_eq (hnodup : axes.Nodup) : descending axes = (ascending axes).reverse := by
  have hsorted : (ascending axes).reverse.Pairwise (· > ·) :=
    List.pairwise_reverse.mpr (pairwise_ascending hnodup)
  refine (pairwise_descending axes).eq_of_mem_iff hsorted fun a => ?_
  rw [mem_descending, List.mem_reverse, (perm_ascending axes).mem_iff]

theorem add_length_lt (h : (axis :: axes).Pairwise (· < ·)) (hlt : ∀ a ∈ axis :: axes, a < n) :
    axis + axes.length < n := by
  induction axes generalizing axis with
  | nil => exact hlt axis List.mem_cons_self
  | cons b axes ih =>
    obtain ⟨ha, hsorted⟩ := List.pairwise_cons.mp h
    have hb := ih hsorted fun a ha => hlt a (List.mem_cons_of_mem axis ha)
    have := ha b List.mem_cons_self
    rw [List.length_cons]
    omega

/-! ## Putting axes in -/

theorem lt_of_insertAxes (hok : axes.foldlM (insertAxis source rank) t = .ok u) :
    ∀ a ∈ axes, a < rank := by
  induction axes generalizing t with
  | nil => nofun
  | cons b axes ih =>
    rw [List.foldlM_cons, Outcome.bind_ok] at hok
    obtain ⟨v, hv, hok⟩ := hok
    exact List.forall_mem_cons.mpr ⟨(insertAxis_ok hv).1, ih hok⟩

/-- **Growing axes below the rank of the result can be put in**, unless a stride leaves its
range. -/
theorem insertAxes_total (hranked : t.Ranked) (hsorted : axes.Pairwise (· < ·))
    (hlt : ∀ a ∈ axes, a < rank) (hrank : t.shape.length + axes.length = rank)
    (hrange : axes.foldlM (insertAxis source rank) t ≠ .error (.fault .overflow)) :
    ∃ u, axes.foldlM (insertAxis source rank) t = .ok u := by
  induction axes generalizing t with
  | nil => exact ⟨t, rfl⟩
  | cons a axes ih =>
    have hroom := add_length_lt hsorted hlt
    rw [List.length_cons] at hrank
    rw [List.foldlM_cons] at hrange ⊢
    obtain ⟨v, hv, hranked'⟩ := insertAxis_total hranked (hlt a List.mem_cons_self) (by omega)
      (Outcome.ne_error_of_bind hrange)
    obtain ⟨-, hle, -, _, hvalue⟩ := insertAxis_ok hv
    have hlen : v.shape.length = t.shape.length + 1 := by
      rw [hvalue]
      exact List.length_insertIdx_of_le_length hle 1
    rw [hv] at hrange ⊢
    exact ih hranked' hsorted.tail (fun b hb => hlt b (List.mem_cons_of_mem a hb)) (by omega) hrange

/-- Axes that are put in further on leave an extent in its place. -/
theorem getElem?_insertAxes (hlt : ∀ a ∈ axes, n < a)
    (hok : axes.foldlM (insertAxis source rank) t = .ok u) : u.shape[n]? = t.shape[n]? := by
  induction axes generalizing t with
  | nil =>
    cases hok
    rfl
  | cons a axes ih =>
    rw [List.foldlM_cons, Outcome.bind_ok] at hok
    obtain ⟨v, hv, hok⟩ := hok
    obtain ⟨ha, hlt⟩ := List.forall_mem_cons.mp hlt
    obtain ⟨-, -, -, _, rfl⟩ := insertAxis_ok hv
    rw [ih hlt hok, List.getElem?_insertIdx_of_lt ha]

theorem unit_insertAxes (hsorted : axes.Pairwise (· < ·))
    (hok : axes.foldlM (insertAxis source rank) t = .ok u) : ∀ a ∈ axes, u.shape[a]? = some 1 := by
  induction axes generalizing t with
  | nil => nofun
  | cons a axes ih =>
    rw [List.foldlM_cons, Outcome.bind_ok] at hok
    obtain ⟨v, hv, hok⟩ := hok
    obtain ⟨hlt, hsorted⟩ := List.pairwise_cons.mp hsorted
    refine List.forall_mem_cons.mpr ⟨?_, ih hsorted hok⟩
    obtain ⟨-, hle, -, _, rfl⟩ := insertAxis_ok hv
    rw [getElem?_insertAxes hlt hok, List.getElem?_insertIdx_self, if_pos hle]

/-! ## Taking them out again -/

theorem dropAxis_insertAxis {source' : Shape} (hunit : source'[axis]? = some 1)
    (hok : insertAxis source rank t axis = .ok u) : dropAxis source' u axis = .ok t := by
  obtain ⟨-, hle, hle', stride, rfl⟩ := insertAxis_ok hok
  refine dropAxis_ok.mpr ⟨hunit, ?_, ?_, ?_⟩
  · rw [List.length_insertIdx_of_le_length hle]
    omega
  · rw [List.length_insertIdx_of_le_length hle']
    omega
  · rw [List.eraseIdx_insertIdx_self, List.eraseIdx_insertIdx_self]

/-- Axes can be taken out in the opposite order, which leaves the tensor they were put in. -/
theorem dropAxes_insertAxes {source' : Shape} (hunit : ∀ a ∈ axes, source'[a]? = some 1)
    (hok : axes.foldlM (insertAxis source rank) t = .ok u) :
    axes.reverse.foldlM (dropAxis source') u = .ok t := by
  induction axes generalizing t with
  | nil =>
    cases hok
    rfl
  | cons a axes ih =>
    rw [List.foldlM_cons, Outcome.bind_ok] at hok
    obtain ⟨v, hv, hok⟩ := hok
    obtain ⟨ha, hunit⟩ := List.forall_mem_cons.mp hunit
    rw [List.reverse_cons, List.foldlM_append, Outcome.bind_ok]
    refine ⟨v, ih hunit hok, ?_⟩
    rw [List.foldlM_cons, Outcome.bind_ok]
    exact ⟨t, dropAxis_insertAxis ha hv, rfl⟩

theorem isStandard_unsqueeze (hranked : t.Ranked) (hok : (unsqueeze axes).output t = .ok u) :
    u.isStandard = t.isStandard := by
  refine (unsqueeze_induction (P := fun v => v.Ranked ∧ v.isStandard = t.isStandard)
    (fun {v axis stride} ⟨hv, hstandard⟩ hle hle' => ?_) ⟨hranked, rfl⟩ hok).2
  have hlen : (v.strides.insertIdx axis stride).length = (v.shape.insertIdx axis 1).length :=
    hv.insertIdx hle
  have hroom : axis ≤ (v.shape.zip v.strides).length := by
    rw [List.length_zip, hv, Nat.min_self]
    exact hle
  refine ⟨hlen, ?_⟩
  rw [← hstandard, isStandard, isStandard, Shape.isRowMajor, Shape.isRowMajor,
    if_neg (not_not.mpr hlen.symm), if_neg (not_not.mpr hv.symm), zip_insertIdx hle hle',
    Shape.rowMajorExtent_insertIdx hroom]

/-- **Squeezing undoes unsqueezing.** Distinct axes can be put in a tensor if and only if each is
below the rank of the result, as long as no stride leaves its range. The result has unit axes there,
is row-major if and only if the tensor is, and squeezing it along the same axes gives the tensor
back. -/
theorem squeeze_unsqueeze (hranked : t.Ranked) (hne : axes ≠ []) (hnodup : axes.Nodup)
    (hrange : (unsqueeze axes).output t ≠ .error (.fault .overflow)) :
    ((∃ u, (unsqueeze axes).output t = .ok u) ↔ ∀ a ∈ axes, a < t.rank + axes.length) ∧
      ∀ u, (unsqueeze axes).output t = .ok u →
        (∀ a ∈ axes, u.shape[a]? = some 1) ∧ u.isStandard = t.isStandard ∧
          (squeeze axes).output u = .ok t := by
  have hmem : ∀ {a}, a ∈ ascending axes ↔ a ∈ axes := (perm_ascending axes).mem_iff
  refine ⟨⟨fun ⟨u, hu⟩ a ha => lt_of_insertAxes hu a (hmem.mpr ha), fun hlt => ?_⟩, fun u hu => ?_⟩
  · refine insertAxes_total hranked (pairwise_ascending hnodup)
      (fun a ha => hlt a (hmem.mp ha)) ?_ hrange
    rw [(perm_ascending axes).length_eq]
    rfl
  · have hunit := unit_insertAxes (pairwise_ascending hnodup) hu
    refine ⟨fun a ha => hunit a (hmem.mpr ha), isStandard_unsqueeze hranked hu, ?_⟩
    have hsome : axes.isEmpty = false := List.isEmpty_eq_false_iff.mpr hne
    rw [output, squeezeOutput, hsome, if_neg Bool.false_ne_true, descending_eq hnodup]
    exact dropAxes_insertAxes hunit hu

/-- Axes in no order, at the end, in the middle and in front. -/
theorem squeeze_unsqueeze_spread :
    (unsqueeze [4, 0, 1]).output ⟨.f16, [2, 3], [1, 2]⟩ =
        .ok ⟨.f16, [1, 1, 2, 3, 1], [2, 2, 1, 2, 1]⟩ ∧
      (squeeze [4, 0, 1]).output ⟨.f16, [1, 1, 2, 3, 1], [2, 2, 1, 2, 1]⟩ =
        .ok ⟨.f16, [2, 3], [1, 2]⟩ := by
  have hok : (unsqueeze [4, 0, 1]).output ⟨.f16, [2, 3], [1, 2]⟩ =
      .ok ⟨.f16, [1, 1, 2, 3, 1], [2, 2, 1, 2, 1]⟩ := by decide
  have hrange : (unsqueeze [4, 0, 1]).output ⟨.f16, [2, 3], [1, 2]⟩ ≠
      .error (.fault .overflow) := by
    rw [hok]
    nofun
  exact ⟨hok, ((squeeze_unsqueeze (by decide) (by decide) (by decide) hrange).2 _ hok).2.2⟩

end Reindex

end OffloadFusion
