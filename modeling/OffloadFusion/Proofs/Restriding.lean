import OffloadFusion.Proofs.Sizes

/-!
# Views of other layouts

A chain of views is replayed on a row-major parameter, whose layout is another one than that of the
tensor it stands for. **A view of a tensor can be taken of the same tensor in any other layout**
(`Reindex.output_restrided`), as long as that has a stride for each axis. Unsqueezing computes
strides, so it could leave their range; all regrouping keeps the number of elements
(`Reindex.prod_output`), to which unit axes do not count (`Shape.prod_core`), and can be done by a
reshape (`Reindex.reshape_restrided`).
-/

namespace OffloadFusion

/-! ## Loops -/

section

variable {ε α β : Type} {f : α → Except ε β} {xs : List α}

theorem Outcome.length_of_mapM {ys : List β} (h : xs.mapM f = .ok ys) : ys.length = xs.length :=
  (Outcome.mapM_ok.mp h).length_eq.symm

theorem Outcome.foldlM_keep {γ : Type} {P : α → Prop} {g : α → γ → Except ε α}
    (hstep : ∀ {a c a'}, P a → g a c = .ok a' → P a') {cs : List γ} {a a' : α} (ha : P a)
    (h : cs.foldlM g a = .ok a') : P a' :=
  foldlM_ok_rel (R := fun a _ => P a) (fun ha hg _ => hstep ha hg) ha h h

end

namespace Checked

variable {α : Type} {xs ys : List α} {x : α} {i : Nat}

theorem get_ok : get xs i = .ok x ↔ xs[i]? = some x := by
  unfold get
  cases xs[i]? <;> simp

theorem get_of_lt (h : i < xs.length) : get xs i = .ok xs[i] :=
  get_ok.mpr (List.getElem?_eq_getElem h)

theorem lt_of_get (h : get xs i = .ok x) : i < xs.length :=
  (List.getElem?_eq_some_iff.mp (get_ok.mp h)).1

theorem set_ok : set xs i x = .ok ys ↔ i < xs.length ∧ xs.set i x = ys := by
  unfold set
  split <;> simp [*]

theorem insert_ok : insert xs i x = .ok ys ↔ i ≤ xs.length ∧ xs.insertIdx i x = ys := by
  unfold insert
  split <;> simp [*]

theorem erase_ok : erase xs i = .ok ys ↔ i < xs.length ∧ xs.eraseIdx i = ys := by
  unfold erase
  split <;> simp [*]

end Checked

theorem Shape.length_rowMajorFrom {shape : Shape} {strides : Strides} {extent : Int}
    (h : rowMajorFrom shape = .ok (strides, extent)) : strides.length = shape.length := by
  induction shape generalizing strides extent with
  | nil =>
    cases h
    rfl
  | cons d shape ih =>
    simp only [rowMajorFrom, Outcome.bind_ok, Prod.exists, Outcome.pure_ok] at h
    obtain ⟨inner, extent', hinner, _, -, he⟩ := h
    cases he
    rw [List.length_cons, List.length_cons, ih hinner]

/-! ## Unit axes -/

namespace Shape

variable {s s' : Shape} {axis : Nat}

/-- The axes that are no unit axes. -/
def core (s : Shape) : Shape := s.filter (· ≠ 1)

theorem core_cons {d : Nat} : core (d :: s) = if d = 1 then s.core else d :: s.core := by
  rw [core, List.filter_cons]
  by_cases hd : d = 1
  · simp [hd, core]
  · simp [hd, core]

theorem core_eraseIdx (h : s[axis]? = some 1) : core (s.eraseIdx axis) = s.core := by
  induction s generalizing axis with
  | nil => cases h
  | cons d s ih =>
    cases axis with
    | zero =>
      cases h
      rfl
    | succ axis => rw [List.eraseIdx_cons_succ, core_cons, core_cons, ih h]

theorem core_insertIdx (h : axis ≤ s.length) : core (s.insertIdx axis 1) = s.core := by
  have hunit : (s.insertIdx axis 1)[axis]? = some 1 := by
    rw [List.getElem?_insertIdx_self, if_pos h]
  rw [← core_eraseIdx hunit, List.eraseIdx_insertIdx_self]

theorem prod_core (s : Shape) : s.core.prod = s.prod := by
  induction s with
  | nil => rfl
  | cons d s ih =>
    rw [core_cons, List.prod_cons]
    split
    · next hd => rw [hd, Nat.one_mul, ih]
    · rw [List.prod_cons, ih]

theorem prod_eq_of_core (h : s.core = s'.core) : s.prod = s'.prod := by
  rw [← prod_core s, h, prod_core s']

end Shape

/-! ## Layouts -/

namespace TensorType

variable {t u v : TensorType}

/-- There is a stride for each axis. -/
def Ranked (t : TensorType) : Prop := t.strides.length = t.shape.length

instance (t : TensorType) : Decidable t.Ranked :=
  inferInstanceAs (Decidable (t.strides.length = t.shape.length))

theorem Ranked.eraseIdx {axis : Nat} (h : t.Ranked) (hlt : axis < t.shape.length) :
    Ranked ⟨t.dtype, t.shape.eraseIdx axis, t.strides.eraseIdx axis⟩ := by
  have hlt' : axis < t.strides.length := hlt.trans_eq h.symm
  rw [Ranked, List.length_eraseIdx_of_lt hlt, List.length_eraseIdx_of_lt hlt', h]

theorem Ranked.insertIdx {axis d : Nat} {stride : Int} (h : t.Ranked)
    (hle : axis ≤ t.shape.length) :
    Ranked ⟨t.dtype, t.shape.insertIdx axis d, t.strides.insertIdx axis stride⟩ := by
  have hle' : axis ≤ t.strides.length := hle.trans_eq h.symm
  rw [Ranked, List.length_insertIdx_of_le_length hle, List.length_insertIdx_of_le_length hle', h]

/-- `u` is the tensor `t` in some layout. -/
structure Restrided (t u : TensorType) : Prop where
  alike : t.Alike u
  ranked : u.Ranked

theorem ranked_standard {dtype : DType} {shape : Shape} (h : standard dtype shape = .ok t) :
    t.Ranked := by
  obtain ⟨strides, hrow, rfl⟩ := Typing.standard_ok.mp h
  obtain ⟨⟨_, extent⟩, hfrom, rfl⟩ := Outcome.map_ok.mp hrow
  exact Shape.length_rowMajorFrom hfrom

theorem restrided_asStandard (h : t.asStandard = .ok u) : t.Restrided u := by
  obtain ⟨hd, hs⟩ := standard_alike h
  exact ⟨⟨hd.symm, hs.symm⟩, ranked_standard h⟩

theorem Sized.numel_eq (h : t.Sized) : t.numel = .ok t.shape.prod := by
  obtain ⟨n, hn⟩ := h.numel
  rw [hn, (Checked.product_ok hn).1]

end TensorType

/-! ## Views -/

namespace Reindex

open TensorType

variable {t u t' : TensorType} {shape : Shape}

theorem length_sliceAxis {source : Shape} {axis first last : Nat} {shape' : Shape}
    (h : sliceAxis source shape axis first last = .ok shape') : shape'.length = shape.length := by
  simp only [sliceAxis, Outcome.ite_ok, Outcome.bind_ok, Outcome.refuse_ok, false_and,
    exists_false, and_false, false_or, Outcome.lift_checked_ok, Checked.set_ok] at h
  obtain ⟨-, _, -, -, -, rfl⟩ := h
  exact List.length_set

theorem placeStrides_ok {target strides : Strides} {axis : Nat}
    (hroom : axis + strides.length ≤ target.length)
    (hsize : axis + strides.length < Checked.sizeLimit) :
    ∃ placed, placeStrides target axis strides = .ok placed ∧ placed.length = target.length := by
  have hloop : ∀ {strides target : Strides} {k : Nat}, axis + (k + strides.length) ≤ target.length →
      axis + (k + strides.length) < Checked.sizeLimit → ∃ placed,
        (strides.zipIdx k).foldlM (fun placed e => do
          Checked.set placed (← Checked.add axis e.2) e.1) target = .ok placed ∧
          placed.length = target.length := by
    intro strides
    induction strides with
    | nil => exact fun _ _ => ⟨_, rfl, rfl⟩
    | cons s strides ih =>
      intro target k hroom hsize
      rw [List.length_cons] at hroom hsize
      have hroom' : axis + (k + 1 + strides.length) ≤ (target.set (axis + k) s).length := by
        rw [List.length_set]
        omega
      obtain ⟨placed, hplaced, hlen⟩ := ih hroom' (by omega)
      have hadd : Checked.add axis k = .ok (axis + k) := Checked.size_ok.mpr ⟨by omega, rfl⟩
      have hset : Checked.set target (axis + k) s = .ok (target.set (axis + k) s) :=
        Checked.set_ok.mpr ⟨by omega, rfl⟩
      refine ⟨placed, ?_, hlen.trans List.length_set⟩
      simp only [List.zipIdx_cons, List.foldlM_cons, Outcome.bind_ok]
      exact ⟨_, ⟨_, hadd, hset⟩, hplaced⟩
  exact hloop (k := 0) (by omega) (by omega)

theorem transpose_restrided {axes : List Nat} (h : t.Restrided u)
    (ht : transposeOutput axes t = .ok t') :
    ∃ u', transposeOutput axes u = .ok u' ∧ u'.Ranked := by
  simp only [transposeOutput, Outcome.ite_ok, Outcome.bind_ok, Outcome.refuse_ok,
    false_and, exists_false, and_false, false_or, Outcome.lift_checked_ok, Outcome.pure_ok] at ht ⊢
  obtain ⟨hrank, _, haxes, shape, hshape, _, -, -⟩ := ht
  rw [rank, h.alike.2] at hrank
  rw [h.alike.2] at haxes hshape
  have hget : ∀ axis ∈ axes, ∃ s, Checked.get u.strides axis = .ok s := by
    intro axis hmem
    obtain ⟨_, -, hd⟩ := forall₂_exists (Outcome.mapM_ok.mp hshape) hmem
    exact ⟨_, Checked.get_of_lt (h.ranked ▸ Checked.lt_of_get hd)⟩
  obtain ⟨strides, hstrides⟩ := Outcome.mapM_total hget
  refine ⟨_, ⟨hrank, _, haxes, shape, hshape, strides, hstrides, rfl⟩, ?_⟩
  exact (Outcome.length_of_mapM hstrides).trans (Outcome.length_of_mapM hshape).symm

theorem broadcast_restrided {axis : Nat} {target : Shape} (h : t.Restrided u)
    (ht : broadcastOutput axis target t = .ok t') :
    ∃ u', broadcastOutput axis target u = .ok u' ∧ u'.Ranked := by
  simp only [broadcastOutput, Outcome.ite_ok, Outcome.bind_ok, Outcome.refuse_ok,
    false_and, exists_false, and_false, false_or, Outcome.lift_checked_ok, Outcome.pure_ok] at ht ⊢
  obtain ⟨fitting, hfits, htrue, _, -, -⟩ := ht
  have hroom : axis + t.shape.length ≤ target.length ∧
      axis + t.shape.length < Checked.sizeLimit := by
    simp only [fits, Outcome.bind_ok, Outcome.ite_ok, Outcome.pure_ok] at hfits
    obtain ⟨n, hn, hfits⟩ := hfits
    obtain ⟨hlt, rfl⟩ := Checked.size_ok.mp hn
    obtain ⟨-, rfl⟩ | ⟨hle, -⟩ := hfits
    · simp at htrue
    · exact ⟨by omega, hlt⟩
  rw [h.alike.2] at hfits hroom
  have hzero : (zeroStrides target).length = target.length := List.length_map ..
  have hplace : axis + u.strides.length ≤ (zeroStrides target).length := by
    rw [h.ranked, hzero]
    exact hroom.1
  obtain ⟨strides, hplaced, hlen⟩ := placeStrides_ok hplace (h.ranked ▸ hroom.2)
  exact ⟨_, ⟨fitting, hfits, htrue, strides, hplaced, rfl⟩, hlen.trans hzero⟩

theorem multibroadcast_restrided {target : Shape} (h : t.Restrided u)
    (ht : multibroadcastOutput target t = .ok t') :
    ∃ u', multibroadcastOutput target u = .ok u' ∧ u'.Ranked := by
  simp only [multibroadcastOutput, Outcome.ite_ok, Outcome.bind_ok, Outcome.refuse_ok,
    false_and, exists_false, and_false, false_or, Outcome.pure_ok] at ht ⊢
  obtain ⟨hrank, inner, hinner, -⟩ := ht
  rw [rank, Shape.rank, h.alike.2] at hrank hinner
  have hstride : ∀ e ∈ (u.shape.zip (target.drop (target.length - u.shape.length))).zipIdx,
      ∃ s, broadcastStride u target e.2 e.1.1 e.1.2 = .ok s := by
    rintro ⟨⟨source, extent⟩, axis⟩ hmem
    obtain ⟨s, -, hs⟩ := forall₂_exists (Outcome.mapM_ok.mp hinner) hmem
    have haxis := (List.mem_zipIdx hmem).2.1
    rw [List.length_zip] at haxis
    dsimp only
    rw [broadcastStride] at hs ⊢
    split at hs
    · next he =>
      rw [if_pos he]
      exact ⟨_, (Outcome.lift_checked_ok.mpr (Checked.get_of_lt (by rw [h.ranked]; omega)))⟩
    · next he =>
      rw [if_neg he]
      split at hs
      · cases hs
      · next hone =>
        rw [if_neg hone]
        exact ⟨0, rfl⟩
  obtain ⟨strides, hstrides⟩ := Outcome.mapM_total hstride
  refine ⟨_, ⟨hrank, strides, hstrides, rfl⟩, ?_⟩
  have hlen := Outcome.length_of_mapM hstrides
  rw [List.length_zipIdx, List.length_zip, List.length_drop] at hlen
  rw [Ranked, List.length_append, List.length_replicate, hlen]
  simp only [rank, Shape.rank]
  omega

/-- **A view of a tensor can be taken of it in any layout.** -/
theorem output_restrided {view : Reindex} (hview : view.isRegrouping = false) (h : t.Restrided u)
    (ht : view.output t = .ok t') : ∃ u', view.output u = .ok u' ∧ t'.Restrided u' := by
  suffices hok : ∃ u', view.output u = .ok u' ∧ u'.Ranked by
    obtain ⟨u', hu, hranked⟩ := hok
    exact ⟨u', hu, output_alike view h.alike ht hu, hranked⟩
  cases view with
  | slice axes starts ends =>
    simp only [output, sliceOutput, Outcome.ite_ok, Outcome.bind_ok, Outcome.refuse_ok, false_and,
      exists_false, and_false, false_or, Outcome.pure_ok] at ht ⊢
    obtain ⟨hlen, shape, hs, -⟩ := ht
    rw [h.alike.2] at hs
    refine ⟨_, ⟨hlen, shape, hs, rfl⟩, ?_⟩
    exact h.ranked.trans (Outcome.foldlM_keep (P := fun s : Shape => u.shape.length = s.length)
      (fun hs hstep => hs.trans (length_sliceAxis hstep).symm) rfl hs)
  | transpose axes => exact transpose_restrided h ht
  | broadcast axis target => exact broadcast_restrided h ht
  | multibroadcast target => exact multibroadcast_restrided h ht
  | contiguous =>
    have ht : (liftM t.asStandard : Outcome TypeError TensorType) = .ok t' := ht
    rw [Outcome.lift_checked_ok, asStandard, h.alike.1, h.alike.2] at ht
    exact ⟨t', Outcome.lift_checked_ok.mpr ht, ranked_standard ht⟩
  | reshape target =>
    simp only [output, reshapeOutput, Outcome.ite_ok, Outcome.bind_ok, Outcome.refuse_ok,
      false_and, exists_false, and_false, false_or, Outcome.lift_checked_ok] at ht ⊢
    rw [numel, h.alike.1, h.alike.2] at ht
    obtain ⟨n, hn, k, hk, hne, hstandard⟩ := ht
    exact ⟨_, ⟨n, hn, k, hk, hne, hstandard⟩, ranked_standard hstandard⟩
  | squeeze | unsqueeze | flatten => cases hview

/-! ## Regrouping -/

theorem pairwise_insertDescending {axis : Nat} {axes : List Nat} (h : axes.Pairwise (· > ·)) :
    (insertDescending axis axes).Pairwise (· > ·) ∧
      ∀ a ∈ insertDescending axis axes, a = axis ∨ a ∈ axes := by
  induction axes with
  | nil => exact ⟨List.pairwise_singleton _ _, fun a ha => .inl (List.mem_singleton.mp ha)⟩
  | cons b axes ih =>
    obtain ⟨hb, htail⟩ := List.pairwise_cons.mp h
    rw [insertDescending]
    split
    · next hlt =>
      refine ⟨List.pairwise_cons.mpr ⟨fun a ha => ?_, h⟩, fun a ha => List.mem_cons.mp ha⟩
      obtain rfl | ha := List.mem_cons.mp ha
      · exact hlt
      · exact Nat.lt_trans (hb a ha) hlt
    · next hle =>
      split
      · exact ⟨h, fun a ha => .inr ha⟩
      · next hne =>
        obtain ⟨hsorted, hmem⟩ := ih htail
        refine ⟨List.pairwise_cons.mpr ⟨fun a ha => ?_, hsorted⟩, fun a ha => ?_⟩
        · obtain rfl | ha := hmem a ha
          · omega
          · exact hb a ha
        · obtain rfl | ha := List.mem_cons.mp ha
          · exact .inr List.mem_cons_self
          · exact (hmem a ha).imp_right (List.mem_cons_of_mem b)

theorem pairwise_descending (axes : List Nat) : (descending axes).Pairwise (· > ·) := by
  induction axes with
  | nil => exact .nil
  | cons a axes ih => exact (pairwise_insertDescending ih).1

theorem dropAxis_ok {source : Shape} {axis : Nat} : dropAxis source t axis = .ok u ↔
    source[axis]? = some 1 ∧ axis < t.shape.length ∧ axis < t.strides.length ∧
      u = ⟨t.dtype, t.shape.eraseIdx axis, t.strides.eraseIdx axis⟩ := by
  simp only [dropAxis, Outcome.ite_ok, Outcome.bind_ok, Outcome.refuse_ok, false_and,
    exists_false, and_false, false_or, Outcome.lift_checked_ok, Outcome.pure_ok, not_not,
    Checked.erase_ok, Checked.get_ok]
  constructor
  · rintro ⟨-, _, hunit, rfl, _, ⟨hlt, rfl⟩, _, ⟨hlt', rfl⟩, rfl⟩
    exact ⟨hunit, hlt, hlt', rfl⟩
  · rintro ⟨hunit, hlt, hlt', rfl⟩
    have hin := Checked.lt_of_get (Checked.get_ok.mpr hunit)
    exact ⟨Nat.not_le.mpr hin, 1, hunit, rfl, _, ⟨hlt, rfl⟩, _, ⟨hlt', rfl⟩, rfl⟩

/-- Squeezing takes out unit axes, one after the other: each is still where it was. -/
theorem dropAxes_induction {P : TensorType → Prop} {source : Shape} {axes : List Nat}
    (hstep : ∀ {v axis}, P v → v.shape[axis]? = some 1 → axis < v.strides.length →
      P ⟨v.dtype, v.shape.eraseIdx axis, v.strides.eraseIdx axis⟩)
    (hsorted : axes.Pairwise (· > ·))
    (hinitial : ∀ a ∈ axes, t.shape.take (a + 1) = source.take (a + 1)) (ht : P t)
    (hok : axes.foldlM (dropAxis source) t = .ok u) : P u := by
  induction axes generalizing t with
  | nil =>
    cases hok
    exact ht
  | cons axis axes ih =>
    rw [List.foldlM_cons, Outcome.bind_ok] at hok
    obtain ⟨v, hv, hok⟩ := hok
    obtain ⟨hd, -, hlt, rfl⟩ := dropAxis_ok.mp hv
    obtain ⟨hgt, hsorted⟩ := List.pairwise_cons.mp hsorted
    have hunit : t.shape[axis]? = some 1 := by
      have hat := congrArg (fun l : List Nat => l[axis]?) (hinitial axis List.mem_cons_self)
      simp only [List.getElem?_take_of_lt (Nat.lt_succ_self axis)] at hat
      exact hat.trans hd
    refine ih hsorted (fun a ha => ?_) (hstep ht hunit hlt) hok
    rw [← hinitial a (List.mem_cons_of_mem axis ha),
      List.take_eraseIdx_eq_take_of_le _ _ _ (hgt a ha)]

theorem squeeze_induction {P : TensorType → Prop} {axes : List Nat}
    (hstep : ∀ {v axis}, P v → v.shape[axis]? = some 1 → axis < v.strides.length →
      P ⟨v.dtype, v.shape.eraseIdx axis, v.strides.eraseIdx axis⟩) (ht : P t)
    (hok : (squeeze axes).output t = .ok u) : P u :=
  dropAxes_induction hstep (pairwise_descending _) (fun _ _ => rfl) ht hok

theorem insertAxis_ok {source : Shape} {rank axis : Nat}
    (hok : insertAxis source rank t axis = .ok u) :
    axis < rank ∧ axis ≤ t.shape.length ∧ axis ≤ t.strides.length ∧ ∃ stride : Int,
      u = ⟨t.dtype, t.shape.insertIdx axis 1, t.strides.insertIdx axis stride⟩ := by
  simp only [insertAxis, Outcome.ite_ok, Outcome.bind_ok, Outcome.refuse_ok, false_and,
    exists_false, and_false, false_or, Outcome.lift_checked_ok, Outcome.pure_ok,
    Checked.insert_ok, not_or, Nat.not_le] at hok
  obtain ⟨⟨hlt, -⟩, ⟨-, _, -, _, -, _, -, _, ⟨hle, rfl⟩, _, ⟨hle', rfl⟩, rfl⟩ |
    ⟨-, _, -, _, ⟨hle, rfl⟩, _, ⟨hle', rfl⟩, rfl⟩⟩ := hok
  · exact ⟨hlt, hle, hle', _, rfl⟩
  · exact ⟨hlt, hle, hle', _, rfl⟩

/-- Unsqueezing puts in unit axes, one after the other. -/
theorem unsqueeze_induction {P : TensorType → Prop} {axes : List Nat}
    (hstep : ∀ {v axis} {stride : Int}, P v → axis ≤ v.shape.length → axis ≤ v.strides.length →
      P ⟨v.dtype, v.shape.insertIdx axis 1, v.strides.insertIdx axis stride⟩) (ht : P t)
    (hok : (unsqueeze axes).output t = .ok u) : P u := by
  refine Outcome.foldlM_keep (P := P) (fun {v axis v'} hv hround => ?_) ht hok
  obtain ⟨-, hle, hle', _, rfl⟩ := insertAxis_ok hround
  exact hstep hv hle hle'

theorem core_shape_squeeze {axes : List Nat} (h : (squeeze axes).output t = .ok t') :
    t'.dtype = t.dtype ∧ t'.shape.core = t.shape.core := by
  refine squeeze_induction (P := fun v => v.dtype = t.dtype ∧ v.shape.core = t.shape.core)
    (fun hv hunit _ => ⟨hv.1, ?_⟩) ⟨rfl, rfl⟩ h
  exact (Shape.core_eraseIdx hunit).trans hv.2

theorem core_shape_unsqueeze {axes : List Nat} (h : (unsqueeze axes).output t = .ok t') :
    t'.dtype = t.dtype ∧ t'.shape.core = t.shape.core := by
  refine unsqueeze_induction (P := fun v => v.dtype = t.dtype ∧ v.shape.core = t.shape.core)
    (fun hv hle _ => ⟨hv.1, ?_⟩) ⟨rfl, rfl⟩ h
  exact (Shape.core_insertIdx hle).trans hv.2

/-- **Regrouping keeps the number of elements.** -/
theorem prod_output {view : Reindex} (hview : view.isRegrouping = true)
    (h : view.output t = .ok t') : t'.dtype = t.dtype ∧ t'.shape.prod = t.shape.prod := by
  cases view with
  | squeeze axes =>
    obtain ⟨hd, hcore⟩ := core_shape_squeeze h
    exact ⟨hd, Shape.prod_eq_of_core hcore⟩
  | unsqueeze axes =>
    obtain ⟨hd, hcore⟩ := core_shape_unsqueeze h
    exact ⟨hd, Shape.prod_eq_of_core hcore⟩
  | flatten axis =>
    simp only [output, flattenOutput, Outcome.ite_ok, Outcome.bind_ok, Outcome.refuse_ok,
      false_and, exists_false, and_false, false_or, Outcome.lift_checked_ok] at h
    obtain ⟨-, outer, houter, inner, hinner, h⟩ := h
    obtain ⟨hd, hs⟩ := standard_alike h
    refine ⟨hd, ?_⟩
    rw [hs, (Checked.product_ok houter).1, (Checked.product_ok hinner).1, List.prod_cons,
      List.prod_singleton, List.prod_take_mul_prod_drop]
  | _ => cases hview

/-- Any regrouping of a tensor can be done by a reshape. -/
theorem reshape_restrided {view : Reindex} (hview : view.isRegrouping = true) (h : t.Restrided u)
    (ht : view.output t = .ok t') (hsized : t.Sized) (hsized' : t'.Sized) :
    ∃ u', reshapeOutput t'.shape u = .ok u' ∧ t'.Restrided u' := by
  obtain ⟨hdtype, hprod⟩ := prod_output hview ht
  obtain ⟨u', hu⟩ := hsized'.standard
  refine ⟨u', ?_, restrided_asStandard hu⟩
  have hn : u.numel = .ok t'.shape.prod := by
    rw [hprod, ← hsized.numel_eq, numel, numel, h.alike.2]
  have hn' : Shape.numel t'.shape = .ok t'.shape.prod := hsized'.numel_eq
  simp only [reshapeOutput, Outcome.bind_ok, Outcome.ite_ok, Outcome.lift_checked_ok]
  refine ⟨_, hn, _, hn', .inr ⟨not_not.mpr rfl, ?_⟩⟩
  rw [← h.alike.1, ← hdtype]
  exact hu

theorem multibroadcast_scalar {dims : Shape} (hshape : t.shape = Shape.scalar) (hranked : t.Ranked)
    (hdims : 1 ≤ dims.length) : ∃ u, (multibroadcast dims).output t = .ok u ∧
      u.dtype = t.dtype ∧ u.shape = dims := by
  rw [TensorType.Ranked, hshape] at hranked
  have hstride : ∀ e ∈ (t.shape.zip (dims.drop (dims.length - t.rank))).zipIdx,
      ∃ s, broadcastStride t dims e.2 e.1.1 e.1.2 = .ok s := by
    rintro ⟨⟨source, extent⟩, axis⟩ hmem
    have hlt := (List.mem_zipIdx hmem).2.1
    obtain ⟨hsource, -⟩ := List.of_mem_zip (List.fst_mem_of_mem_zipIdx hmem)
    rw [hshape] at hsource hlt
    rw [List.length_zip, Shape.scalar, List.length_singleton] at hlt
    obtain rfl := List.mem_singleton.mp hsource
    dsimp only
    rw [broadcastStride]
    split
    · exact ⟨_, Outcome.lift_checked_ok.mpr (Checked.get_of_lt (by
        rw [hranked, Shape.scalar, List.length_singleton]; omega))⟩
    · exact ⟨0, rfl⟩
  obtain ⟨strides, hstrides⟩ := Outcome.mapM_total hstride
  refine ⟨⟨t.dtype, dims, List.replicate (dims.length - t.rank) 0 ++ strides⟩, ?_, rfl, rfl⟩
  have hrank : ¬ t.rank > dims.length := by
    rw [TensorType.rank, Shape.rank, hshape, Shape.scalar, List.length_singleton]
    omega
  simp only [output, multibroadcastOutput, if_neg hrank, Outcome.bind_ok, Outcome.pure_ok]
  exact ⟨strides, hstrides, rfl⟩

end Reindex

end OffloadFusion
