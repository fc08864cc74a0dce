import OffloadFusion.Proofs.Axes

/-!
# Places in memory

The strides of a tensor say where its elements are: an index moves along each axis by the stride of
that axis.

* `Strides.place`: where an index leads to, from the first element on.
* `Strides.place_modify`, `Strides.place_of_stretches`, `Strides.place_core`: an offset of an
  index, axes of one element that are stretched, and unit axes.
* **`Reindex.place_sourceIndex`**: a view has its elements where its operand has those that the
  view reads.
-/

namespace OffloadFusion

theorem Shape.holds_append {outer dims : Shape} {index : List Nat}
    (h : (outer ++ dims).holds index = true) : dims.holds (index.drop outer.length) = true := by
  induction outer generalizing index with
  | nil => exact h
  | cons d outer ih =>
    cases index with
    | nil => cases h
    | cons i index => exact ih (holds_cons.mp h).2

/-! ## Places -/

namespace Strides

variable {strides strides' : Strides} {index index' : List Nat} {axes axes' : List Axis}

/-- Where an index leads to in memory, from the first element on. -/
def place (strides : Strides) (index : List Nat) : Int :=
  (strides.zip index).foldr (fun (stride, i) n => stride * i + n) 0

theorem place_cons (stride : Int) (i : Nat) :
    place (stride :: strides) (i :: index) = stride * i + place strides index := rfl

theorem place_perm (h : (strides.zip index).Perm (strides'.zip index')) :
    place strides index = place strides' index' := by
  refine h.foldr_eq' (fun a _ b _ n => ?_) 0
  exact Int.add_left_comm _ _ n

theorem place_append (hlen : strides.length = index.length) :
    place (strides ++ strides') (index ++ index') =
      place strides index + place strides' index' := by
  induction strides generalizing index with
  | nil =>
    obtain rfl := List.length_eq_zero_iff.mp hlen.symm
    exact (Int.zero_add _).symm
  | cons stride strides ih =>
    cases index with
    | nil => cases hlen
    | cons i index =>
      rw [List.cons_append, List.cons_append, place_cons, place_cons, ih (Nat.succ.inj hlen),
        Int.add_assoc]

theorem place_zeros (h : ∀ a ∈ axes, a.2 = 0) (index : List Nat) :
    place (axes.map Prod.snd) index = 0 := by
  induction axes generalizing index with
  | nil => rfl
  | cons a axes ih =>
    obtain ⟨hzero, hrest⟩ := List.forall_mem_cons.mp h
    cases index with
    | nil => rfl
    | cons i index =>
      rw [List.map_cons, place_cons, ih hrest, hzero, Int.zero_mul, Int.zero_add]

theorem place_modify (hlen : strides.length = index.length) (axis first : Nat) :
    place strides (index.modify axis (· + first)) =
      place strides index + strides.getD axis 0 * first := by
  induction strides generalizing index axis with
  | nil =>
    obtain rfl := List.length_eq_zero_iff.mp hlen.symm
    simp
  | cons stride strides ih =>
    cases index with
    | nil => cases hlen
    | cons i index =>
      cases axis with
      | zero =>
        rw [List.modify_zero_cons, place_cons, place_cons, List.getD_cons_zero, Int.natCast_add,
          Int.mul_add]
        omega
      | succ axis =>
        rw [List.modify_succ_cons, place_cons, place_cons, ih (Nat.succ.inj hlen),
          List.getD_cons_succ, Int.add_assoc]

/-- An axis that is stretched from one element does not move. -/
theorem place_of_stretches (h : List.Forall₂ Reindex.Stretches axes axes')
    (hindex : Shape.holds (axes'.map Prod.fst) index = true) :
    place (axes.map Prod.snd) (((axes.map Prod.fst).zip index).map
      fun (d, i) => if d = 1 then 0 else i) = place (axes'.map Prod.snd) index := by
  induction h generalizing index with
  | nil => rfl
  | @cons a b axes axes' hab _ ih =>
    cases index with
    | nil => cases hindex
    | cons i index =>
      obtain ⟨hi, hindex⟩ := Shape.holds_cons.mp hindex
      simp only [List.map_cons, List.zip_cons_cons, place_cons, ih hindex]
      obtain rfl | ⟨hone, hzero⟩ := hab
      · split
        · next hone => rw [Nat.lt_one_iff.mp (hone ▸ hi : i < 1)]
        · rfl
      · rw [if_pos hone, hzero, Int.natCast_zero, Int.mul_zero, Int.zero_mul]

theorem place_core (hindex : Shape.holds (axes.map Prod.fst) index = true) :
    place (axes.map Prod.snd) index = place ((axes.filter (·.1 ≠ 1)).map Prod.snd)
      (Shape.coreIndex (axes.map Prod.fst) index) := by
  induction axes generalizing index with
  | nil => rfl
  | cons a axes ih =>
    cases index with
    | nil => cases hindex
    | cons i index =>
      obtain ⟨hi, hindex⟩ := Shape.holds_cons.mp hindex
      rw [List.map_cons, List.map_cons, place_cons, ih hindex, Shape.coreIndex]
      by_cases hone : a.1 = 1
      · have hi : i < 1 := hone ▸ hi
        rw [List.filter_cons_of_neg (by simp [hone]), if_pos hone, Nat.lt_one_iff.mp hi,
          Int.natCast_zero, Int.mul_zero, Int.zero_add]
      · rw [List.filter_cons_of_pos (by simp [hone]), if_neg hone]
        rfl

end Strides

/-! ## Views -/

namespace Reindex

open TensorType

variable {t u : TensorType} {index : List Nat}

/-- Where the view starts in memory, from the first element of its operand on: a slice skips what
is before its ranges. -/
def start (view : Reindex) (strides : Strides) : Int :=
  match view with
  | slice axes starts _ =>
    (axes.zip starts).foldr (fun (axis, first) n => strides.getD axis 0 * first + n) 0
  | _ => 0

theorem place_slice {strides : Strides} (hlen : strides.length = index.length)
    (axes starts ends : List Nat) (s target : Shape) :
    strides.place ((slice axes starts ends).sourceIndex s target index) =
      strides.place index + (slice axes starts ends).start strides := by
  rw [sourceIndex, start]
  induction axes.zip starts generalizing index with
  | nil => exact (Int.add_zero _).symm
  | cons offset offsets ih =>
    rw [List.foldl_cons, ih (by rwa [List.length_modify]), Strides.place_modify hlen,
      List.foldr_cons, Int.add_assoc]

theorem place_transpose {axes : List Nat} (hranked : t.Ranked)
    (hok : (transpose axes).output t = .ok u) (hlen : index.length = u.shape.length) :
    t.strides.place ((transpose axes).sourceIndex t.shape u.shape index) =
      u.strides.place index := by
  obtain ⟨hperm, hrank, hstrides, -⟩ := transpose_ok hranked hok
  -- both are read along the axes of the operand
  have hsame : index = axes.map fun axis => index.getD (axes.idxOf axis) 0 := by
    refine List.ext_getElem (by rw [List.length_map, hlen, hrank]) fun k hk hk' => ?_
    rw [List.getElem_map, (hperm.nodup_iff.mpr List.nodup_range).idxOf_getElem,
      List.getD_eq_getElem?_getD, List.getElem?_eq_getElem hk, Option.getD_some]
  have hall : t.strides = (List.range t.shape.length).map (t.strides.getD · 0) := by
    rw [← hranked, map_getD_range]
  rw [hstrides]
  nth_rewrite 1 [hall]
  nth_rewrite 2 [hsame]
  refine Strides.place_perm ?_
  rw [sourceIndex, List.zip_map', List.zip_map']
  exact hperm.symm.map _

theorem place_broadcast {axis : Nat} {target : Shape} (hranked : t.Ranked)
    (hok : (broadcast axis target).output t = .ok u) (hlen : index.length = u.shape.length) :
    t.strides.place ((broadcast axis target).sourceIndex t.shape u.shape index) =
      u.strides.place index := by
  obtain ⟨hranked', outer, inner, rfl, houter, hinner, haxes⟩ := broadcast_ok hranked hok
  rw [← length_axes hranked', haxes, List.length_append, List.length_append, length_axes hranked]
    at hlen
  rw [← map_snd_axes hranked', haxes, List.map_append, List.map_append, map_snd_axes hranked,
    sourceIndex]
  have hsplit : index = index.take outer.length ++ (index.drop outer.length).take t.shape.length ++
      (index.drop outer.length).drop t.shape.length := by
    rw [List.append_assoc, List.take_append_drop, List.take_append_drop]
  have hfront : (outer.map Prod.snd).length = (index.take outer.length).length := by
    rw [List.length_map, List.length_take, hlen]
    omega
  have hmiddle : t.strides.length = ((index.drop outer.length).take t.shape.length).length := by
    rw [List.length_take, List.length_drop, hlen, hranked]
    omega
  nth_rewrite 2 [hsplit]
  rw [Strides.place_append (by rw [List.length_append, List.length_append, hfront, hmiddle]),
    Strides.place_append hfront, Strides.place_zeros houter, Strides.place_zeros hinner,
    Int.zero_add, Int.add_zero]

theorem place_multibroadcast {target : Shape} (hranked : t.Ranked)
    (hok : (multibroadcast target).output t = .ok u) (hindex : u.shape.holds index = true) :
    t.strides.place ((multibroadcast target).sourceIndex t.shape u.shape index) =
      u.strides.place index := by
  obtain ⟨hranked', outer, inner, haxes, houter, hstretch⟩ := multibroadcast_ok hranked hok
  have hlen := Shape.length_of_holds hindex
  rw [← map_fst_axes hranked', haxes, List.map_append] at hindex hlen
  have hfront : (outer.map Prod.snd).length = (index.take outer.length).length := by
    rw [List.length_map, List.length_take, hlen, List.length_append, List.length_map]
    omega
  have hplace : u.strides.place index =
      Strides.place (inner.map Prod.snd) (index.drop outer.length) := by
    rw [← map_snd_axes hranked', haxes, List.map_append]
    nth_rewrite 1 [← List.take_append_drop outer.length index]
    rw [Strides.place_append hfront, Strides.place_zeros houter, Int.zero_add]
  have hskip : u.shape.length - t.shape.length = outer.length := by
    rw [← length_axes hranked', haxes, List.length_append, ← hstretch.length_eq,
      length_axes hranked, Nat.add_sub_cancel]
  have hstretched := Strides.place_of_stretches hstretch (List.length_map Prod.fst ▸
    Shape.holds_append hindex)
  rw [hplace, ← hstretched, sourceIndex, hskip, map_fst_axes hranked, map_snd_axes hranked]

/-- Squeezing and unsqueezing keep the coordinates along the other axes and their strides. -/
theorem place_unitAxes {view : Reindex} {axes : List Nat}
    (hview : view = .squeeze axes ∨ view = .unsqueeze axes) (hranked : t.Ranked)
    (hok : view.output t = .ok u) (hindex : u.shape.holds index = true) :
    t.strides.place (view.sourceIndex t.shape u.shape index) = u.strides.place index := by
  obtain ⟨hranked', hcore⟩ : u.Ranked ∧ u.core = t.core := by
    obtain rfl | rfl := hview
    · exact core_squeeze hranked hok
    · exact core_unsqueeze hranked hok
  have hplace : ∀ {v : TensorType} {index : List Nat}, v.Ranked → v.shape.holds index = true →
      v.strides.place index = Strides.place (v.core.map Prod.snd) (v.shape.coreIndex index) := by
    intro v index hv hindex
    rw [← map_fst_axes hv] at hindex
    have hcore := Strides.place_core hindex
    rwa [map_fst_axes hv, map_snd_axes hv] at hcore
  rw [hplace hranked (holds_sourceIndex hok hindex), hplace hranked' hindex, hcore,
    coreIndex_sourceIndex hview hok hindex]

/-- **Views have the strides of what they read.** A view that keeps the memory of its operand has a
stride for each axis, and each of its indices leads to where the index at which it reads its operand
leads to, up to where the view starts. -/
theorem place_sourceIndex {view : Reindex} (hkeeps : view.keepsMemory = true) (hranked : t.Ranked)
    (hok : view.output t = .ok u) : u.Ranked ∧ ∀ index, u.shape.holds index = true →
      t.shape.holds (view.sourceIndex t.shape u.shape index) = true ∧
      t.strides.place (view.sourceIndex t.shape u.shape index) =
        u.strides.place index + view.start t.strides := by
  refine ⟨ranked_output hkeeps hranked hok, fun index hindex => ⟨holds_sourceIndex hok hindex, ?_⟩⟩
  have hlen := Shape.length_of_holds hindex
  cases view with
  | slice axes starts ends =>
    obtain ⟨hstrides, hrank, -⟩ := slice_ok hok
    rw [hstrides]
    exact place_slice (by rw [hlen, hrank, hranked]) axes starts ends _ _
  | transpose axes => exact (place_transpose hranked hok hlen).trans (Int.add_zero _).symm
  | broadcast axis target => exact (place_broadcast hranked hok hlen).trans (Int.add_zero _).symm
  | multibroadcast target =>
    exact (place_multibroadcast hranked hok hindex).trans (Int.add_zero _).symm
  | squeeze axes =>
    exact (place_unitAxes (.inl rfl) hranked hok hindex).trans (Int.add_zero _).symm
  | unsqueeze axes =>
    exact (place_unitAxes (.inr rfl) hranked hok hindex).trans (Int.add_zero _).symm
  | contiguous | reshape | flatten => cases hkeeps

/-- A slice that restricts an axis twice starts where both ranges of it do. -/
theorem place_sourceIndex_twice :
    let view := slice [0, 1, 0] [1, 0, 1] [4, 2, 3]
    let t : TensorType := ⟨.f32, [4, 3], [-1, 4]⟩
    let u : TensorType := ⟨.f32, [2, 2], [-1, 4]⟩
    view.keepsMemory = true ∧ t.Ranked ∧ view.output t = .ok u ∧ view.start t.strides = -2 ∧
      u.Ranked ∧ ∀ index, u.shape.holds index = true →
        t.shape.holds (view.sourceIndex t.shape u.shape index) = true ∧
        t.strides.place (view.sourceIndex t.shape u.shape index) =
          u.strides.place index + view.start t.strides :=
  ⟨rfl, rfl, rfl, rfl, place_sourceIndex rfl rfl rfl⟩

end Reindex

end OffloadFusion
