import Mathlib.Data.List.Perm.Basic
import OffloadFusion.Proofs.Indices

/-!
# Axes of views

An axis of a tensor is an extent with the stride along it. Slicing, transposing, broadcasting,
squeezing and unsqueezing keep the memory of their operand and rearrange its axes: they narrow
extents, put axes in another order, put in axes without a stride, and take unit axes out or in.

* `TensorType.axes`, `TensorType.core`: the axes, and those that are no unit axes.
* `Reindex.keepsMemory`: the views that are about axes.
* `Reindex.slice_ok`, …, `Reindex.core_squeeze`, `Reindex.core_unsqueeze`: what each view does.
* `TensorType.footprint`: the axes along which a tensor spreads in memory. **All views but slices
  keep them** (`Reindex.footprint_output`).
-/

namespace OffloadFusion

/-! ## Lists in step -/

section

variable {α β : Type} {xs : List α} {ys : List β} {k : Nat} {x : α} {y : β} {f : α → Bool}

theorem zip_eraseIdx : (xs.eraseIdx k).zip (ys.eraseIdx k) = (xs.zip ys).eraseIdx k := by
  induction xs generalizing ys k with
  | nil => rfl
  | cons x xs ih =>
    cases ys with
    | nil => simp
    | cons y ys =>
      cases k with
      | zero => rfl
      | succ k => simp [ih]

theorem zip_insertIdx (hx : k ≤ xs.length) (hy : k ≤ ys.length) :
    (xs.insertIdx k x).zip (ys.insertIdx k y) = (xs.zip ys).insertIdx k (x, y) := by
  induction k generalizing xs ys with
  | zero => rfl
  | succ k ih =>
    cases xs with
    | nil => cases hx
    | cons x' xs =>
      cases ys with
      | nil => cases hy
      | cons y' ys =>
        simp only [List.insertIdx_succ_cons, List.zip_cons_cons]
        rw [ih (Nat.le_of_succ_le_succ hx) (Nat.le_of_succ_le_succ hy)]

theorem filter_eraseIdx (h : xs[k]? = some x) (hx : f x = false) :
    (xs.eraseIdx k).filter f = xs.filter f := by
  induction xs generalizing k with
  | nil => cases h
  | cons x' xs ih =>
    cases k with
    | zero =>
      cases h
      rw [List.eraseIdx_cons_zero, List.filter_cons_of_neg (by simp [hx])]
    | succ k => rw [List.eraseIdx_cons_succ, List.filter_cons, List.filter_cons, ih h]

theorem filter_insertIdx (h : k ≤ xs.length) (hx : f x = false) :
    (xs.insertIdx k x).filter f = xs.filter f := by
  have hget : (xs.insertIdx k x)[k]? = some x := by rw [List.getElem?_insertIdx_self, if_pos h]
  rw [← filter_eraseIdx hget hx, List.eraseIdx_insertIdx_self]

end

theorem Checked.mapM_get {α : Type} {xs ys : List α} {places : List Nat}
    (h : places.mapM (get xs) = .ok ys) (a : α) : ys = places.map (xs.getD · a) := by
  have hys := Outcome.mapM_ok.mp h
  clear h
  induction hys with
  | nil => rfl
  | cons hy _ ih =>
    rw [List.map_cons, ← ih, List.getD_eq_getElem?_getD, get_ok.mp hy, Option.getD_some]

theorem map_getD_range {α : Type} (xs : List α) (a : α) :
    (List.range xs.length).map (xs.getD · a) = xs := by
  refine List.ext_getElem (by simp) fun k hk hk' => ?_
  rw [List.getElem_map, List.getElem_range, List.getD_eq_getElem?_getD,
    List.getElem?_eq_getElem hk', Option.getD_some]

/-! ## Axes -/

/-- An extent with the stride along it. -/
abbrev Axis := Nat × Int

namespace TensorType

variable {t u : TensorType}

/-- The extents with their strides. -/
def axes (t : TensorType) : List Axis := t.shape.zip t.strides

/-- The axes that are no unit axes. -/
def core (t : TensorType) : List Axis := t.axes.filter (·.1 ≠ 1)

/-- The axes along which the tensor spreads in memory: neither unit axes nor broadcast ones. -/
def footprint (t : TensorType) : List Axis := t.axes.filter fun a => a.1 ≠ 1 ∧ a.2 ≠ 0

theorem footprint_of_core (h : u.core = t.core) : u.footprint = t.footprint := by
  have hcore : ∀ v : TensorType, v.footprint = v.core.filter (·.2 ≠ 0) := fun v => by
    rw [footprint, core, List.filter_filter]
    exact List.filter_congr fun a _ => by simp [And.comm]
  rw [hcore, hcore, h]

theorem map_fst_axes (h : t.Ranked) : t.axes.map Prod.fst = t.shape :=
  List.map_fst_zip (Nat.le_of_eq h.symm)

theorem map_snd_axes (h : t.Ranked) : t.axes.map Prod.snd = t.strides :=
  List.map_snd_zip (Nat.le_of_eq h)

theorem length_axes (h : t.Ranked) : t.axes.length = t.shape.length := by
  rw [← List.length_map Prod.fst, map_fst_axes h]

end TensorType

namespace Reindex

open TensorType

variable {t u v : TensorType} {axis : Nat} {axes starts ends : List Nat} {target : Shape}

/-- The view keeps the memory of its operand and rearranges its axes. -/
def keepsMemory : Reindex → Bool
  | contiguous | reshape _ | flatten _ => false
  | _ => true

/-! ## Slices -/

/-- An axis is restricted to a range of it, which is not empty unless the axis is. -/
def Narrows (a b : Axis) : Prop := b.1 ≤ a.1 ∧ (0 < a.1 → 0 < b.1) ∧ b.2 = a.2

theorem narrows_sliceAxis {source s s' : Shape} {strides : Strides} {first last : Nat}
    (hok : sliceAxis source s axis first last = .ok s') :
    List.Forall₂ Narrows (s.zip strides) (s'.zip strides) := by
  simp only [sliceAxis, Outcome.ite_ok, Outcome.bind_ok, Outcome.refuse_ok, false_and,
    exists_false, and_false, false_or, Outcome.lift_checked_ok, Checked.set_ok, Checked.get_ok]
    at hok
  obtain ⟨-, e, he, hrange, -, rfl⟩ := hok
  refine List.forall₂_iff_get.mpr ⟨by simp, fun k hk hk' => ?_⟩
  simp only [List.get_eq_getElem, List.getElem_zip, Narrows, List.getElem_set]
  split
  · next hkey =>
    subst hkey
    rw [List.getElem?_eq_some_iff] at he
    obtain ⟨_, rfl⟩ := he
    exact ⟨by omega, fun _ => by omega, trivial⟩
  · exact ⟨Nat.le_refl _, id, trivial⟩

/-- **A slice narrows axes.** -/
theorem slice_ok (hok : (slice axes starts ends).output t = .ok u) :
    u.strides = t.strides ∧ u.shape.length = t.shape.length ∧
      List.Forall₂ Narrows t.axes u.axes := by
  simp only [output, sliceOutput, Outcome.ite_ok, Outcome.bind_ok, Outcome.refuse_ok, false_and,
    exists_false, and_false, false_or, Outcome.pure_ok] at hok
  obtain ⟨-, shape, hok, rfl⟩ := hok
  refine ⟨rfl, Outcome.foldlM_keep (P := fun s : Shape => s.length = t.shape.length ∧
    List.Forall₂ Narrows t.axes (s.zip t.strides)) (fun {s range s'} hs hstep => ?_) ?_ hok⟩
  · refine ⟨(length_sliceAxis hstep).trans hs.1,
      forall₂_comp (fun {a b c} h h' => ?_) hs.2 (narrows_sliceAxis hstep)⟩
    exact ⟨h'.1.trans h.1, fun hpos => h'.2.1 (h.2.1 hpos), h'.2.2.trans h.2.2⟩
  · exact ⟨rfl, List.forall₂_same.mpr fun a _ => ⟨Nat.le_refl a.1, id, rfl⟩⟩

/-! ## Transposition -/

/-- **A transposition takes the axes in another order.** -/
theorem transpose_ok (hranked : t.Ranked) (hok : (transpose axes).output t = .ok u) :
    axes.Perm (List.range t.shape.length) ∧ u.shape.length = axes.length ∧
      u.strides = axes.map (t.strides.getD · 0) ∧ u.axes.Perm t.axes := by
  simp only [output, transposeOutput, Outcome.ite_ok, Outcome.bind_ok, Outcome.refuse_ok,
    false_and, exists_false, and_false, false_or, Outcome.lift_checked_ok, Outcome.pure_ok,
    not_not] at hok
  obtain ⟨hrank, _, hcheck, shape, hshape, strides, hstrides, rfl⟩ := hok
  have hperm := perm_of_checkAxes hcheck hrank
  obtain rfl := Checked.mapM_get hshape 0
  obtain rfl := Checked.mapM_get hstrides 0
  have hall : t.axes = (List.range t.shape.length).map fun k =>
      (t.shape.getD k 0, t.strides.getD k 0) := by
    rw [← List.zip_map', map_getD_range, ← hranked, map_getD_range]
    rfl
  refine ⟨hperm, List.length_map _, rfl, ?_⟩
  rw [hall, TensorType.axes, List.zip_map']
  exact hperm.map _

/-! ## Broadcasting -/

theorem eq_of_placeFrom {placed strides zeros : Strides} {k : Nat}
    (hroom : axis + k + strides.length ≤ zeros.length)
    (h : (strides.zipIdx k).foldlM (fun placed e => do
      Checked.set placed (← Checked.add axis e.2) e.1) zeros = .ok placed) :
    placed = zeros.take (axis + k) ++ strides ++ zeros.drop (axis + k + strides.length) := by
  induction strides generalizing zeros k with
  | nil =>
    cases h
    rw [List.append_nil, List.length_nil, Nat.add_zero, List.take_append_drop]
  | cons s strides ih =>
    rw [List.length_cons] at hroom
    simp only [List.zipIdx_cons, List.foldlM_cons, Outcome.bind_ok] at h
    obtain ⟨next, ⟨n, hn, hset⟩, h⟩ := h
    obtain ⟨-, rfl⟩ := Checked.size_ok.mp hn
    obtain ⟨hlt, rfl⟩ := Checked.set_ok.mp hset
    have hplaced := ih (by rw [List.length_set]; omega) h
    rw [← Nat.add_assoc axis k 1, List.take_set, List.take_add_one, List.getElem?_eq_getElem hlt,
      Option.toList_some, List.set_append_right _ _ (List.length_take_le _ _),
      List.drop_set_of_lt (by omega)] at hplaced
    rw [hplaced, List.length_cons, ← Nat.add_assoc]
    simp [Nat.min_eq_left (Nat.le_of_lt hlt), Nat.add_right_comm]

theorem eq_of_placeStrides {placed strides zeros : Strides}
    (hroom : axis + strides.length ≤ zeros.length)
    (h : placeStrides zeros axis strides = .ok placed) :
    placed = zeros.take axis ++ strides ++ zeros.drop (axis + strides.length) :=
  eq_of_placeFrom hroom h

/-- **A broadcast puts the axes between others that have no stride.** -/
theorem broadcast_ok (hranked : t.Ranked) (hok : (broadcast axis target).output t = .ok u) :
    u.Ranked ∧ ∃ outer inner, outer.length = axis ∧ (∀ a ∈ outer, a.2 = 0) ∧
      (∀ a ∈ inner, a.2 = 0) ∧ u.axes = outer ++ t.axes ++ inner := by
  simp only [output, broadcastOutput, Outcome.ite_ok, Outcome.bind_ok, Outcome.refuse_ok,
    false_and, exists_false, and_false, false_or, Outcome.lift_checked_ok, Outcome.pure_ok] at hok
  obtain ⟨fitting, hfits, htrue, strides, hstrides, rfl⟩ := hok
  obtain rfl : fitting = true := by simpa using htrue
  obtain ⟨hle, hsame⟩ := fits_ok hfits
  have hzero : zeroStrides target = List.replicate target.length 0 := List.map_const'
  have hranked : t.strides.length = t.shape.length := hranked
  have hplaced := eq_of_placeStrides (by rwa [hzero, List.length_replicate, hranked]) hstrides
  rw [hzero, List.take_replicate, List.drop_replicate, hranked, Nat.min_eq_left (by omega)]
    at hplaced
  have hmiddle : (target.drop axis).take t.shape.length = t.shape := by
    refine List.ext_getElem? fun k => ?_
    rw [List.getElem?_take, List.getElem?_drop]
    split
    · next hk =>
      rw [hsame k _ (List.getElem?_eq_getElem hk), List.getElem?_eq_getElem hk]
    · next hk => rw [List.getElem?_eq_none (Nat.le_of_not_lt hk)]
  have hrest : t.shape ++ target.drop (axis + t.shape.length) = target.drop axis := by
    rw [← List.drop_drop]
    nth_rewrite 1 [← hmiddle]
    exact List.take_append_drop t.shape.length (target.drop axis)
  have hshape : target = target.take axis ++ t.shape ++ target.drop (axis + t.shape.length) := by
    rw [List.append_assoc, hrest, List.take_append_drop]
  have houter : (target.take axis).length = axis := by
    rw [List.length_take, Nat.min_eq_left (by omega)]
  refine ⟨?_, (target.take axis).zip (List.replicate axis 0),
    (target.drop (axis + t.shape.length)).zip
      (List.replicate (target.length - (axis + t.shape.length)) 0), ?_, fun a ha => ?_,
    fun a ha => ?_, ?_⟩
  · rw [Ranked, hplaced, List.length_append, List.length_append, List.length_replicate,
      List.length_replicate, hranked]
    dsimp only
    omega
  · rw [List.length_zip, houter, List.length_replicate, Nat.min_self]
  · exact List.eq_of_mem_replicate (List.of_mem_zip ha).2
  · exact List.eq_of_mem_replicate (List.of_mem_zip ha).2
  · rw [TensorType.axes, hplaced]
    nth_rewrite 1 [hshape]
    rw [List.zip_append, List.zip_append]
    · rfl
    · rw [houter, List.length_replicate]
    · rw [List.length_append, List.length_append, houter, List.length_replicate, hranked]

/-- An axis is kept, or one element is broadcast along another axis. -/
def Stretches (a b : Axis) : Prop := b = a ∨ a.1 = 1 ∧ b.2 = 0

/-- **A broadcast from the last axis on stretches unit axes and puts others in front.** -/
theorem multibroadcast_ok (hranked : t.Ranked) (hok : (multibroadcast target).output t = .ok u) :
    u.Ranked ∧ ∃ outer inner, u.axes = outer ++ inner ∧ (∀ a ∈ outer, a.2 = 0) ∧
      List.Forall₂ Stretches t.axes inner := by
  simp only [output, multibroadcastOutput, Outcome.ite_ok, Outcome.bind_ok, Outcome.refuse_ok,
    false_and, exists_false, and_false, false_or, Outcome.pure_ok] at hok
  obtain ⟨hrank, inner, hinner, rfl⟩ := hok
  rw [TensorType.rank, Shape.rank] at hrank hinner ⊢
  have hranked : t.strides.length = t.shape.length := hranked
  have hdims : (target.drop (target.length - t.shape.length)).length = t.shape.length := by
    rw [List.length_drop]
    omega
  have houter : (target.take (target.length - t.shape.length)).length =
      target.length - t.shape.length := by
    rw [List.length_take, Nat.min_eq_left (Nat.sub_le _ _)]
  have hlen : inner.length = t.shape.length := by
    rw [Outcome.length_of_mapM hinner, List.length_zipIdx, List.length_zip, hdims, Nat.min_self]
  refine ⟨?_, (target.take (target.length - t.shape.length)).zip
    (List.replicate (target.length - t.shape.length) 0),
    (target.drop (target.length - t.shape.length)).zip inner, ?_, fun a ha => ?_,
    List.forall₂_iff_get.mpr ⟨?_, fun k hk hk' => ?_⟩⟩
  · rw [Ranked, List.length_append, List.length_replicate, hlen]
    dsimp only
    omega
  · rw [← List.zip_append (by rw [houter, List.length_replicate]), List.take_append_drop]
    rfl
  · exact List.eq_of_mem_replicate (List.of_mem_zip ha).2
  · rw [TensorType.axes, List.length_zip, List.length_zip, hranked, hdims, hlen]
  · have hk₁ : k < t.shape.length := by
      rw [TensorType.axes, List.length_zip] at hk
      omega
    have hround := (List.forall₂_iff_get.mp (Outcome.mapM_ok.mp hinner)).2 k
      (by rw [List.length_zipIdx, List.length_zip, hdims]; omega) (by omega)
    simp only [List.get_eq_getElem, List.getElem_zipIdx, List.getElem_zip, Nat.zero_add,
      broadcastStride, Outcome.ite_ok, Outcome.lift_checked_ok, Outcome.refuse_ok, and_false,
      false_or, Outcome.pure_ok, not_not, Checked.get_ok] at hround
    simp only [TensorType.axes, List.get_eq_getElem, List.getElem_zip]
    obtain ⟨hsame, hstride⟩ | ⟨-, hone, hzero⟩ := hround
    · left
      rw [List.getElem?_eq_getElem (hranked ▸ hk₁), Option.some.injEq] at hstride
      rw [hsame, hstride]
    · exact .inr ⟨hone, hzero.symm⟩

/-! ## Unit axes -/

/-- **Squeezing keeps the axes that are no unit axes.** -/
theorem core_squeeze (hranked : t.Ranked) (hok : (squeeze axes).output t = .ok u) :
    u.Ranked ∧ u.core = t.core := by
  refine squeeze_induction (P := fun v => v.Ranked ∧ v.core = t.core)
    (fun {v axis} ⟨hv, hcore⟩ hunit hlt => ⟨hv.eraseIdx (hlt.trans_eq hv), ?_⟩) ⟨hranked, rfl⟩ hok
  · have hat : v.axes[axis]? = some (1, v.strides[axis]) :=
      List.getElem?_zip_eq_some.mpr ⟨hunit, List.getElem?_eq_getElem hlt⟩
    rw [← hcore, TensorType.core, TensorType.axes, zip_eraseIdx]
    exact filter_eraseIdx hat (decide_eq_false (not_not.mpr rfl))

/-- **Unsqueezing keeps the axes that are no unit axes.** -/
theorem core_unsqueeze (hranked : t.Ranked) (hok : (unsqueeze axes).output t = .ok u) :
    u.Ranked ∧ u.core = t.core := by
  refine unsqueeze_induction (P := fun v => v.Ranked ∧ v.core = t.core)
    (fun {v axis stride} ⟨hv, hcore⟩ hle hle' => ⟨hv.insertIdx hle, ?_⟩) ⟨hranked, rfl⟩ hok
  · rw [← hcore, TensorType.core, TensorType.axes, zip_insertIdx hle hle']
    refine filter_insertIdx ?_ (decide_eq_false (not_not.mpr rfl))
    rw [List.length_zip, hv, Nat.min_self]
    exact hle

/-! ## All views -/

/-- **A view that keeps the memory has a stride for each axis** if its operand has. -/
theorem ranked_output {view : Reindex} (hkeeps : view.keepsMemory = true) (hranked : t.Ranked)
    (hok : view.output t = .ok u) : u.Ranked := by
  cases view with
  | slice axes starts ends =>
    obtain ⟨hstrides, hlen, -⟩ := slice_ok hok
    rw [Ranked, hstrides, hlen, hranked]
  | transpose axes =>
    obtain ⟨-, hlen, hstrides, -⟩ := transpose_ok hranked hok
    rw [Ranked, hlen, hstrides, List.length_map]
  | broadcast axis target => exact (broadcast_ok hranked hok).1
  | multibroadcast target => exact (multibroadcast_ok hranked hok).1
  | squeeze axes => exact (core_squeeze hranked hok).1
  | unsqueeze axes => exact (core_unsqueeze hranked hok).1
  | contiguous | reshape | flatten => cases hkeeps

theorem filter_zeros {outer : List Axis} (h : ∀ a ∈ outer, a.2 = 0) :
    outer.filter (fun a => a.1 ≠ 1 ∧ a.2 ≠ 0) = [] :=
  List.filter_eq_nil_iff.mpr fun a ha => by simp [h a ha]

/-- Stretched axes do not spread, and the unit axes they were did not either. -/
theorem filter_of_stretches {as bs : List Axis} (h : List.Forall₂ Stretches as bs) :
    bs.filter (fun a => a.1 ≠ 1 ∧ a.2 ≠ 0) = as.filter fun a => a.1 ≠ 1 ∧ a.2 ≠ 0 := by
  induction h with
  | nil => rfl
  | cons hab _ ih =>
    rw [List.filter_cons, List.filter_cons, ih]
    obtain rfl | ⟨hone, hzero⟩ := hab
    · rfl
    · rw [if_neg (by simp [hzero]), if_neg (by simp [hone])]

/-- **Views but slices spread as their operand does**, up to the order of the axes. -/
theorem footprint_output {view : Reindex} (hkeeps : view.keepsMemory = true)
    (hslice : view.isSlice = false) (hranked : t.Ranked) (hok : view.output t = .ok u) :
    u.footprint.Perm t.footprint := by
  cases view with
  | slice => cases hslice
  | transpose axes => exact (transpose_ok hranked hok).2.2.2.filter _
  | broadcast axis target =>
    obtain ⟨-, outer, inner, -, houter, hinner, haxes⟩ := broadcast_ok hranked hok
    refine List.Perm.of_eq ?_
    rw [footprint, haxes, List.filter_append, List.filter_append, filter_zeros houter,
      filter_zeros hinner, List.nil_append, List.append_nil]
    rfl
  | multibroadcast target =>
    obtain ⟨-, outer, inner, haxes, houter, hstretch⟩ := multibroadcast_ok hranked hok
    refine List.Perm.of_eq ?_
    rw [footprint, haxes, List.filter_append, filter_zeros houter, List.nil_append,
      filter_of_stretches hstretch]
    rfl
  | squeeze axes => exact .of_eq (footprint_of_core (core_squeeze hranked hok).2)
  | unsqueeze axes => exact .of_eq (footprint_of_core (core_unsqueeze hranked hok).2)
  | contiguous | reshape | flatten => cases hkeeps

end Reindex

end OffloadFusion
