import OffloadFusion.Proofs.Restriding

/-!
# Indices that views read

A view reads its operand at another index (`Reindex.sourceIndex`). In row-major order, an index has
one place, and each place within the dimensions has an index.

* `Shape.indexAt_position`, `Shape.position_indexAt`: indices and their places.
* `Reindex.coreIndex_sourceIndex`: what row-major order says of unit axes that are put in or out.
* **`Reindex.holds_sourceIndex`**: a view that has a type reads within the dimensions of its
  operand.
-/

namespace OffloadFusion

namespace Shape

/-- Whether an index lies within the dimensions. -/
def holds : Shape → List Nat → Bool
  | [], [] => true
  | d :: s, i :: index => i < d && holds s index
  | _, _ => false

/-- The place of an index in row-major order. -/
def position (s : Shape) (index : List Nat) : Nat :=
  (s.zip index).foldl (fun n (d, i) => n * d + i) 0

/-- The index at a place in row-major order. -/
def indexAt : Shape → Nat → List Nat
  | [], _ => []
  | _ :: s, n => n / s.prod :: indexAt s (n % s.prod)

end Shape

/-- The index at which a view of dimensions `target` reads its operand of dimensions `s`. -/
def Reindex.sourceIndex (view : Reindex) (s target : Shape) (index : List Nat) : List Nat :=
  match view with
  | slice axes starts _ =>
    (axes.zip starts).foldl (fun index (axis, first) => index.modify axis (· + first)) index
  | transpose axes => (List.range s.length).map fun axis => index.getD (axes.idxOf axis) 0
  | broadcast axis _ => (index.drop axis).take s.length
  | multibroadcast _ =>
    (s.zip (index.drop (target.length - s.length))).map fun (d, i) => if d = 1 then 0 else i
  | contiguous => index
  | reshape _ | squeeze _ | unsqueeze _ | flatten _ => s.indexAt (target.position index)

theorem Reindex.sourceIndex_of_isRegrouping {view : Reindex} (hview : view.isRegrouping = true)
    (s target : Shape) (index : List Nat) :
    view.sourceIndex s target index = s.indexAt (target.position index) := by
  cases view with
  | squeeze | unsqueeze | flatten => rfl
  | _ => cases hview

/-! ## Indices within the dimensions -/

namespace Shape

variable {s : Shape} {index : List Nat} {d i n : Nat}

theorem holds_cons : Shape.holds (d :: s) (i :: index) = true ↔ i < d ∧ s.holds index = true := by
  rw [holds, Bool.and_eq_true, decide_eq_true_eq]

theorem length_of_holds (h : s.holds index = true) : index.length = s.length := by
  induction s generalizing index with
  | nil =>
    cases index with
    | nil => rfl
    | cons => cases h
  | cons d s ih =>
    cases index with
    | nil => cases h
    | cons i index => rw [List.length_cons, List.length_cons, ih (holds_cons.mp h).2]

theorem holds_iff : s.holds index = true ↔ index.length = s.length ∧
    ∀ k i d : Nat, index[k]? = some i → s[k]? = some d → i < d := by
  refine ⟨fun h => ⟨length_of_holds h, ?_⟩, fun h => ?_⟩
  · induction s generalizing index with
    | nil => exact fun k i d _ hd => by cases hd
    | cons e s ih =>
      cases index with
      | nil => cases h
      | cons j index =>
        obtain ⟨hj, hrest⟩ := holds_cons.mp h
        rintro (_ | k) i d hi hd
        · cases hi
          cases hd
          exact hj
        · exact ih hrest k i d hi hd
  · induction s generalizing index with
    | nil => rw [List.length_eq_zero_iff.mp h.1]; rfl
    | cons e s ih =>
      obtain ⟨hlen, hget⟩ := h
      cases index with
      | nil => cases hlen
      | cons j index =>
        exact holds_cons.mpr ⟨hget 0 j e rfl rfl, ih ⟨Nat.succ.inj hlen,
          fun k i d hi hd => hget (k + 1) i d hi hd⟩⟩

theorem getD_lt {k : Nat} (h : s.holds index = true) (hd : s[k]? = some d) :
    index.getD k 0 < d := by
  obtain ⟨hlen, hget⟩ := holds_iff.mp h
  have hk : k < index.length := hlen ▸ (List.getElem?_eq_some_iff.mp hd).1
  rw [List.getD_eq_getElem?_getD, List.getElem?_eq_getElem hk]
  exact hget k _ d (List.getElem?_eq_getElem hk) hd

/-! ## Row-major order -/

theorem foldl_position (hlen : index.length = s.length) (n : Nat) :
    (s.zip index).foldl (fun n e => n * e.1 + e.2) n = n * s.prod + s.position index := by
  have hposition : ∀ (s : Shape) (index : List Nat),
      s.position index = (s.zip index).foldl (fun n e => n * e.1 + e.2) 0 := fun _ _ => rfl
  induction s generalizing index n with
  | nil => simp [hposition]
  | cons d s ih =>
    cases index with
    | nil => cases hlen
    | cons i index =>
      have hrest := Nat.succ.inj hlen
      rw [hposition, List.zip_cons_cons, List.foldl_cons, List.foldl_cons, ih hrest, ih hrest,
        List.prod_cons, Nat.zero_mul, Nat.zero_add, Nat.add_mul, Nat.mul_assoc, Nat.add_assoc]

theorem position_cons (hlen : index.length = s.length) :
    Shape.position (d :: s) (i :: index) = i * s.prod + s.position index := by
  have hstep : Shape.position (d :: s) (i :: index) =
      (s.zip index).foldl (fun n e => n * e.1 + e.2) (0 * d + i) := rfl
  rw [hstep, foldl_position hlen, Nat.zero_mul, Nat.zero_add]

theorem position_lt (h : s.holds index = true) : s.position index < s.prod := by
  induction s generalizing index with
  | nil =>
    cases index with
    | nil => exact Nat.one_pos
    | cons => cases h
  | cons d s ih =>
    cases index with
    | nil => cases h
    | cons i index =>
      obtain ⟨hi, hrest⟩ := holds_cons.mp h
      rw [position_cons (length_of_holds hrest), List.prod_cons]
      calc i * s.prod + position s index < i * s.prod + s.prod := Nat.add_lt_add_left (ih hrest) _
        _ = (i + 1) * s.prod := (Nat.succ_mul i s.prod).symm
        _ ≤ d * s.prod := Nat.mul_le_mul_right _ hi

theorem indexAt_cons : indexAt (d :: s) n = n / s.prod :: s.indexAt (n % s.prod) := rfl

theorem holds_indexAt (h : n < s.prod) : s.holds (s.indexAt n) = true := by
  induction s generalizing n with
  | nil => rfl
  | cons d s ih =>
    rw [List.prod_cons] at h
    have hpos : 0 < s.prod := Nat.pos_of_mul_pos_left (Nat.zero_lt_of_lt h)
    exact holds_cons.mpr ⟨(Nat.div_lt_iff_lt_mul hpos).mpr h, ih (Nat.mod_lt n hpos)⟩

theorem indexAt_position (h : s.holds index = true) : s.indexAt (s.position index) = index := by
  induction s generalizing index with
  | nil =>
    cases index with
    | nil => rfl
    | cons => cases h
  | cons d s ih =>
    cases index with
    | nil => cases h
    | cons i index =>
      obtain ⟨-, hrest⟩ := holds_cons.mp h
      have hlt := position_lt hrest
      have hpos := Nat.zero_lt_of_lt hlt
      rw [position_cons (length_of_holds hrest), indexAt_cons, Nat.mul_comm, Nat.mul_add_div hpos,
        Nat.div_eq_of_lt hlt, Nat.add_zero, Nat.mul_add_mod, Nat.mod_eq_of_lt hlt, ih hrest]

theorem position_indexAt (h : n < s.prod) : s.position (s.indexAt n) = n := by
  induction s generalizing n with
  | nil => exact (Nat.lt_one_iff.mp h).symm
  | cons d s ih =>
    rw [List.prod_cons] at h
    have hrest := Nat.mod_lt n (Nat.pos_of_mul_pos_left (Nat.zero_lt_of_lt h))
    rw [indexAt_cons, position_cons (length_of_holds (holds_indexAt hrest)), ih hrest, Nat.mul_comm,
      Nat.div_add_mod]

/-! ## Unit axes -/

/-- The coordinates along the axes that are no unit axes. -/
def coreIndex : Shape → List Nat → List Nat
  | d :: s, i :: index => if d = 1 then coreIndex s index else i :: coreIndex s index
  | _, _ => []

theorem holds_coreIndex (h : s.holds index = true) : s.core.holds (s.coreIndex index) = true := by
  induction s generalizing index with
  | nil => rfl
  | cons d s ih =>
    cases index with
    | nil => cases h
    | cons i index =>
      obtain ⟨hi, hrest⟩ := holds_cons.mp h
      rw [core_cons, coreIndex]
      split
      · exact ih hrest
      · exact holds_cons.mpr ⟨hi, ih hrest⟩

/-- Unit axes do not count to the place of an index. -/
theorem position_coreIndex (h : s.holds index = true) :
    s.core.position (s.coreIndex index) = s.position index := by
  induction s generalizing index with
  | nil =>
    cases index with
    | nil => rfl
    | cons => cases h
  | cons d s ih =>
    cases index with
    | nil => cases h
    | cons i index =>
      obtain ⟨hi, hrest⟩ := holds_cons.mp h
      rw [core_cons, coreIndex, position_cons (length_of_holds hrest)]
      split
      · next hd =>
        subst hd
        rw [Nat.lt_one_iff.mp hi, Nat.zero_mul, Nat.zero_add, ih hrest]
      · rw [position_cons (length_of_holds (holds_coreIndex hrest)), prod_core, ih hrest]

end Shape

namespace Reindex

variable {t u : TensorType} {s s' : Shape} {index : List Nat} {k n : Nat}

/-! ## Slices -/

/-- Offsets along axes can be added in any order. -/
theorem modify_foldl (offsets : List (Nat × Nat)) (index : List Nat) (axis first : Nat) :
    offsets.foldl (fun index e => index.modify e.1 (· + e.2)) (index.modify axis (· + first)) =
      (offsets.foldl (fun index e => index.modify e.1 (· + e.2)) index).modify axis
        (· + first) := by
  induction offsets generalizing index with
  | nil => rfl
  | cons e offsets ih =>
    have hswap : (index.modify axis (· + first)).modify e.1 (· + e.2) =
        (index.modify e.1 (· + e.2)).modify axis (· + first) := by
      refine List.ext_getElem? fun k => ?_
      simp only [List.getElem?_modify]
      cases index[k]? with
      | none => rfl
      | some i => split <;> split <;> simp [Nat.add_right_comm]
    rw [List.foldl_cons, List.foldl_cons, hswap, ih]

theorem holds_sliceAxis {source : Shape} {axis first last : Nat}
    (hok : sliceAxis source s axis first last = .ok s') (h : s'.holds index = true) :
    s.holds (index.modify axis (· + first)) = true := by
  simp only [sliceAxis, Outcome.ite_ok, Outcome.bind_ok, Outcome.refuse_ok, false_and,
    exists_false, and_false, false_or, Outcome.lift_checked_ok, Checked.set_ok, Checked.get_ok]
    at hok
  obtain ⟨-, e, he, -, -, rfl⟩ := hok
  obtain ⟨hlen, hget⟩ := Shape.holds_iff.mp h
  rw [List.length_set] at hlen
  refine Shape.holds_iff.mpr ⟨(List.length_modify ..).trans hlen, fun k i d hi hd => ?_⟩
  rw [List.getElem?_modify] at hi
  obtain ⟨j, hj, rfl⟩ := Option.map_eq_some_iff.mp hi
  have hnarrow := hget k j
  rw [List.getElem?_set] at hnarrow
  split
  · next hk =>
    subst hk
    cases he.symm.trans hd
    rw [if_pos rfl, if_pos (List.getElem?_eq_some_iff.mp hd).1] at hnarrow
    have := hnarrow _ hj rfl
    omega
  · next hk =>
    rw [if_neg hk] at hnarrow
    exact hnarrow d hj hd

theorem holds_sliceAxes {source : Shape} {ranges : List (Nat × Nat × Nat)}
    (hok : ranges.foldlM (fun shape e => sliceAxis source shape e.1 e.2.1 e.2.2) s = .ok s')
    (h : s'.holds index = true) :
    s.holds ((ranges.map (Prod.map id Prod.fst)).foldl
      (fun index e => index.modify e.1 (· + e.2)) index) = true := by
  induction ranges generalizing s with
  | nil =>
    cases hok
    exact h
  | cons range ranges ih =>
    rw [List.foldlM_cons, Outcome.bind_ok] at hok
    obtain ⟨s₁, hstep, hok⟩ := hok
    rw [List.map_cons, List.foldl_cons, modify_foldl]
    exact holds_sliceAxis hstep (ih hok)

theorem holds_slice {axes starts ends : List Nat} (hok : (slice axes starts ends).output t = .ok u)
    (h : u.shape.holds index = true) :
    t.shape.holds ((slice axes starts ends).sourceIndex t.shape u.shape index) = true := by
  simp only [output, sliceOutput, Outcome.ite_ok, Outcome.bind_ok, Outcome.refuse_ok, false_and,
    exists_false, and_false, false_or, Outcome.pure_ok, not_or, not_not] at hok
  obtain ⟨⟨hstarts, hends⟩, shape, hok, rfl⟩ := hok
  have hzip : axes.zip starts = (axes.zip (starts.zip ends)).map (Prod.map id Prod.fst) := by
    rw [← List.zip_map_right, List.map_fst_zip (Nat.le_of_eq (hstarts.symm.trans hends))]
  have hmoved := holds_sliceAxes hok h
  rwa [← hzip] at hmoved

/-! ## Rearranged axes -/

theorem checkAxes_ok {axes seen : List Nat} {c : Unit} (hok : checkAxes s seen axes = .ok c) :
    axes.Nodup ∧ ∀ a ∈ axes, a < s.length ∧ a ∉ seen := by
  induction axes generalizing seen with
  | nil => exact ⟨.nil, fun a ha => absurd ha List.not_mem_nil⟩
  | cons axis axes ih =>
    simp only [checkAxes, Outcome.ite_ok, Outcome.bind_ok, Outcome.refuse_ok, false_and,
      exists_false, and_false, false_or] at hok
    obtain ⟨hlt, hnew, hok⟩ := hok
    obtain ⟨hn, hrest⟩ := ih hok
    refine ⟨List.nodup_cons.mpr ⟨fun hmem => (hrest axis hmem).2 List.mem_cons_self, hn⟩,
      List.forall_mem_cons.mpr ⟨⟨Nat.lt_of_not_le hlt, hnew⟩, fun a ha => ?_⟩⟩
    exact ⟨(hrest a ha).1, fun hmem => (hrest a ha).2 (List.mem_cons_of_mem _ hmem)⟩

/-- Distinct axes, as many as there are, are all of them. -/
theorem perm_of_checkAxes {axes : List Nat} {c : Unit} (hok : checkAxes s [] axes = .ok c)
    (hlen : axes.length = s.length) : axes.Perm (List.range s.length) := by
  obtain ⟨hn, hrange⟩ := checkAxes_ok hok
  have hsub : axes.Subperm (List.range s.length) :=
    List.subperm_of_subset hn fun a ha => List.mem_range.mpr (hrange a ha).1
  exact hsub.perm_of_length_le (by rw [List.length_range, hlen])

theorem holds_transpose {axes : List Nat} (hok : (transpose axes).output t = .ok u)
    (h : u.shape.holds index = true) :
    t.shape.holds ((transpose axes).sourceIndex t.shape u.shape index) = true := by
  simp only [output, transposeOutput, Outcome.ite_ok, Outcome.bind_ok, Outcome.refuse_ok,
    false_and, exists_false, and_false, false_or, Outcome.lift_checked_ok, Outcome.pure_ok,
    not_not] at hok
  obtain ⟨hrank, _, hcheck, shape, hshape, strides, -, rfl⟩ := hok
  refine Shape.holds_iff.mpr ⟨by simp [sourceIndex], fun k i d hi hd => ?_⟩
  have hk := (List.getElem?_eq_some_iff.mp hd).1
  rw [sourceIndex, List.getElem?_map, List.getElem?_range hk] at hi
  cases hi
  have hmem := (perm_of_checkAxes hcheck hrank).mem_iff.mpr (List.mem_range.mpr hk)
  refine Shape.getD_lt h ?_
  obtain ⟨e, he, hget⟩ := forall₂_getElem? (Outcome.mapM_ok.mp hshape)
    (List.getElem?_eq_getElem (List.idxOf_lt_length_of_mem hmem))
  rw [List.getElem_idxOf, Checked.get_ok, hd] at hget
  cases hget
  exact he

/-! ## Broadcast axes -/

theorem fits_ok {axis : Nat} {target : Shape} (hok : fits axis s target = .ok true) :
    axis + s.length ≤ target.length ∧ ∀ k d : Nat, s[k]? = some d → target[axis + k]? = some d := by
  simp only [fits, Outcome.bind_ok, Outcome.ite_ok, Outcome.pure_ok, Bool.false_eq_true, and_false,
    false_or] at hok
  obtain ⟨n, hn, hle, hall⟩ := hok
  obtain ⟨-, rfl⟩ := Checked.size_ok.mp hn
  have hget : ∀ {xs : List (Nat × Nat)}, (xs.allM fun e => do
      return e.1 = (← Checked.get target (axis + e.2)) : Checked Bool) = .ok true →
        ∀ e ∈ xs, target[axis + e.2]? = some e.1 := by
    intro xs
    induction xs with
    | nil => exact fun _ e he => absurd he List.not_mem_nil
    | cons e xs ih =>
      intro hxs
      rw [List.allM, Outcome.bind_ok] at hxs
      obtain ⟨found, hfound, hxs⟩ := hxs
      simp only [Outcome.bind_ok, Outcome.pure_ok, Checked.get_ok] at hfound
      obtain ⟨d, hd, rfl⟩ := hfound
      by_cases he : e.1 = d
      · rw [decide_eq_true he] at hxs
        exact List.forall_mem_cons.mpr ⟨he ▸ hd, ih hxs⟩
      · rw [decide_eq_false he] at hxs
        cases hxs
  refine ⟨Nat.le_of_not_lt hle, fun k d hd => hget hall (d, k) ?_⟩
  exact List.mem_zipIdx_iff_getElem?.mpr hd

theorem holds_broadcast {axis : Nat} {target : Shape}
    (hok : (broadcast axis target).output t = .ok u) (h : u.shape.holds index = true) :
    t.shape.holds ((broadcast axis target).sourceIndex t.shape u.shape index) = true := by
  simp only [output, broadcastOutput, Outcome.ite_ok, Outcome.bind_ok, Outcome.refuse_ok,
    false_and, exists_false, and_false, false_or, Outcome.lift_checked_ok, Outcome.pure_ok] at hok
  obtain ⟨fitting, hfits, htrue, strides, -, rfl⟩ := hok
  obtain rfl : fitting = true := by simpa using htrue
  obtain ⟨hle, hsame⟩ := fits_ok hfits
  obtain ⟨hlen, hget⟩ := Shape.holds_iff.mp h
  dsimp only at hlen hget
  refine Shape.holds_iff.mpr ⟨?_, fun k i d hi hd => ?_⟩
  · rw [sourceIndex, List.length_take, List.length_drop, hlen]
    omega
  · rw [sourceIndex, List.getElem?_take_of_lt (List.getElem?_eq_some_iff.mp hd).1,
      List.getElem?_drop] at hi
    exact hget _ i d hi (hsame k d hd)

theorem multibroadcastOutput_ok {target : Shape} (hok : multibroadcastOutput target t = .ok u) :
    u.shape = target ∧ t.shape.length ≤ target.length ∧ ∀ k d : Nat, t.shape[k]? = some d →
      d = 1 ∨ target[target.length - t.shape.length + k]? = some d := by
  simp only [multibroadcastOutput, Outcome.ite_ok, Outcome.bind_ok, Outcome.refuse_ok,
    false_and, exists_false, and_false, false_or, Outcome.pure_ok] at hok
  obtain ⟨hrank, inner, hinner, rfl⟩ := hok
  rw [TensorType.rank, Shape.rank] at hrank hinner
  refine ⟨rfl, Nat.le_of_not_lt hrank, fun k d hd => or_iff_not_imp_left.mpr fun hmany => ?_⟩
  have hk := (List.getElem?_eq_some_iff.mp hd).1
  obtain ⟨extent, hextent⟩ : ∃ e, target[target.length - t.shape.length + k]? = some e :=
    ⟨_, List.getElem?_eq_getElem (by omega)⟩
  have hpair : (t.shape.zip (target.drop (target.length - t.shape.length)))[k]? =
      some (d, extent) :=
    List.getElem?_zip_eq_some.mpr ⟨hd, List.getElem?_drop.trans hextent⟩
  obtain ⟨stride, -, hstride⟩ := forall₂_getElem? (Outcome.mapM_ok.mp hinner)
    (k := k) (x := ((d, extent), k)) (by
      rw [List.getElem?_zipIdx, hpair, Option.map_some, Nat.zero_add])
  by_contra hne
  dsimp only at hstride
  rw [broadcastStride, if_neg (fun he : d = extent => hne (he ▸ hextent)), if_pos hmany] at hstride
  cases hstride

theorem holds_multibroadcast {target : Shape} (hok : (multibroadcast target).output t = .ok u)
    (h : u.shape.holds index = true) :
    t.shape.holds ((multibroadcast target).sourceIndex t.shape u.shape index) = true := by
  obtain ⟨rfl, hle, haxes⟩ := multibroadcastOutput_ok hok
  obtain ⟨hlen, hget⟩ := Shape.holds_iff.mp h
  refine Shape.holds_iff.mpr ⟨?_, fun k i d hi hd => ?_⟩
  · rw [sourceIndex, List.length_map, List.length_zip, List.length_drop, hlen]
    omega
  · rw [sourceIndex, List.getElem?_map] at hi
    obtain ⟨e, he, rfl⟩ := Option.map_eq_some_iff.mp hi
    obtain ⟨hd', hi'⟩ := List.getElem?_zip_eq_some.mp he
    cases hd.symm.trans hd'
    rw [List.getElem?_drop] at hi'
    dsimp only
    split
    · next hone =>
      rw [hone]
      exact Nat.one_pos
    · next hmany => exact hget _ e.2 _ hi' ((haxes k _ hd).resolve_left hmany)

/-! ## All views -/

theorem holds_indexAt_position (hprod : s'.prod = s.prod) (h : s'.holds index = true) :
    s.holds (s.indexAt (s'.position index)) = true :=
  Shape.holds_indexAt (hprod ▸ Shape.position_lt h)

/-- **Squeezing and unsqueezing keep the coordinates** along the axes that are no unit axes. -/
theorem coreIndex_sourceIndex {view : Reindex} {axes : List Nat}
    (hview : view = .squeeze axes ∨ view = .unsqueeze axes) (hok : view.output t = .ok u)
    (h : u.shape.holds index = true) :
    t.shape.coreIndex (view.sourceIndex t.shape u.shape index) = u.shape.coreIndex index := by
  have hregroups : view.isRegrouping = true := by obtain rfl | rfl := hview <;> rfl
  have hcore : u.shape.core = t.shape.core := by
    obtain rfl | rfl := hview
    · exact (core_shape_squeeze hok).2
    · exact (core_shape_unsqueeze hok).2
  have hlt := (prod_output hregroups hok).2 ▸ Shape.position_lt h
  have hin := Shape.holds_coreIndex (Shape.holds_indexAt hlt)
  rw [sourceIndex_of_isRegrouping hregroups, ← Shape.indexAt_position hin,
    Shape.position_coreIndex (Shape.holds_indexAt hlt), Shape.position_indexAt hlt, ← hcore,
    ← Shape.position_coreIndex h, Shape.indexAt_position (Shape.holds_coreIndex h)]

/-- **A view reads within the dimensions of its operand.** -/
theorem holds_sourceIndex {view : Reindex} (hok : view.output t = .ok u)
    (h : u.shape.holds index = true) :
    t.shape.holds (view.sourceIndex t.shape u.shape index) = true := by
  cases view with
  | slice axes starts ends => exact holds_slice hok h
  | transpose axes => exact holds_transpose hok h
  | broadcast axis target => exact holds_broadcast hok h
  | multibroadcast target => exact holds_multibroadcast hok h
  | contiguous =>
    have hok : (liftM t.asStandard : Outcome TypeError TensorType) = .ok u := hok
    rw [Outcome.lift_checked_ok] at hok
    exact (TensorType.standard_alike hok).2 ▸ h
  | reshape target =>
    simp only [output, reshapeOutput, Outcome.ite_ok, Outcome.bind_ok, Outcome.refuse_ok,
      false_and, exists_false, and_false, false_or, Outcome.lift_checked_ok, not_not] at hok
    obtain ⟨n, hn, k, hk, rfl, hstandard⟩ := hok
    obtain ⟨-, hs⟩ := TensorType.standard_alike hstandard
    refine holds_indexAt_position ?_ h
    rw [hs]
    exact (Checked.product_ok hk).1.symm.trans (Checked.product_ok hn).1
  | squeeze | unsqueeze | flatten => exact holds_indexAt_position (prod_output rfl hok).2 h

end Reindex

end OffloadFusion
