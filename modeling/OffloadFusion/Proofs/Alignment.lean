import Mathlib.Data.List.Forall2
import OffloadFusion.Tensor.Shape

/-!
# Common shapes

One shape can be broadcast to another if, counted from the last axis, each of its extents is one or
the same (`Shape.Broadcasts`). This orders shapes, and the common shape of several ones is the least
above them.

* `joinExtent?_bounds`, `foldlM_joinExtent_bounds`: what is above the common extent is what is above
  all extents.
* **`Shape.multiBroadcast?_bounds`**: so it is for the common shape, which is there if any shape is
  above all (`Shape.exists_multiBroadcast?`).
-/

namespace OffloadFusion

/-! ## Extents -/

section

variable {a b d e : Nat}

/-- An axis of the extent can be broadcast to the other extent. -/
def Widens (a b : Nat) : Prop := a = 1 ∨ a = b

theorem widens_refl (a : Nat) : Widens a a := .inr rfl

theorem one_widens (a : Nat) : Widens 1 a := .inl rfl

theorem Widens.antisymm (h : Widens a b) (h' : Widens b a) : a = b := by
  obtain rfl | rfl := h
  · obtain rfl | rfl := h' <;> rfl
  · rfl

theorem joinExtent?_bounds (h : Shape.joinExtent? a b = some d) :
    Widens d e ↔ Widens a e ∧ Widens b e := by
  unfold Shape.joinExtent? at h
  split at h
  · next hb =>
    cases h
    subst hb
    exact (and_iff_left (one_widens e)).symm
  · split at h
    · cases h
    · next hsame =>
      cases h
      obtain rfl | rfl : a = 1 ∨ b = a := by
        rwa [not_and_or, not_not, not_not] at hsame
      · exact (and_iff_right (one_widens e)).symm
      · exact and_self_iff.symm

theorem exists_joinExtent? (ha : Widens a e) (hb : Widens b e) :
    ∃ d, Shape.joinExtent? a b = some d := by
  unfold Shape.joinExtent?
  split
  · exact ⟨a, rfl⟩
  · next hone =>
    obtain rfl := hb.resolve_left hone
    rw [if_neg fun h => h.2 (ha.resolve_left h.1).symm]
    exact ⟨b, rfl⟩

variable {extents : List Nat} {start : Nat}

theorem foldlM_joinExtent_bounds (h : extents.foldlM Shape.joinExtent? start = some d) :
    Widens d e ↔ Widens start e ∧ ∀ a ∈ extents, Widens a e := by
  induction extents generalizing start with
  | nil =>
    cases h
    exact (and_iff_left (List.forall_mem_nil _)).symm
  | cons a extents ih =>
    rw [List.foldlM_cons, Option.bind_eq_bind, Option.bind_eq_some_iff] at h
    obtain ⟨next, hnext, h⟩ := h
    rw [ih h, joinExtent?_bounds hnext, List.forall_mem_cons, and_assoc]

theorem exists_foldlM_joinExtent (hstart : Widens start e) (hall : ∀ a ∈ extents, Widens a e) :
    ∃ d, extents.foldlM Shape.joinExtent? start = some d := by
  induction extents generalizing start with
  | nil => exact ⟨start, rfl⟩
  | cons a extents ih =>
    obtain ⟨ha, hrest⟩ := List.forall_mem_cons.mp hall
    obtain ⟨next, hnext⟩ := exists_joinExtent? hstart ha
    obtain ⟨d, hd⟩ := ih ((joinExtent?_bounds hnext).mpr ⟨hstart, ha⟩) hrest
    refine ⟨d, ?_⟩
    rw [List.foldlM_cons, hnext]
    exact hd

end

theorem mapM_eq_some {α β : Type} {xs : List α} {f : α → Option β} {ys : List β} :
    xs.mapM f = some ys ↔ List.Forall₂ (fun x y => f x = some y) xs ys := by
  induction xs generalizing ys with
  | nil =>
    rw [List.mapM_nil, List.forall₂_nil_left_iff]
    exact Option.some_inj.trans eq_comm
  | cons x xs ih =>
    simp only [List.mapM_cons, Option.bind_eq_bind, Option.bind_eq_some_iff, pure,
      Option.some.injEq, List.forall₂_cons_left_iff, ih]
    constructor
    · rintro ⟨y, hy, ys', hys, rfl⟩
      exact ⟨y, ys', hy, hys, rfl⟩
    · rintro ⟨y, ys', hy, hys, rfl⟩
      exact ⟨y, hy, ys', hys, rfl⟩

/-! ## Shapes -/

namespace Shape

variable {s target : Shape} {shapes : List Shape} {i : Nat}

theorem getElem_reverse_eq (h : i < (List.reverse s).length) :
    (List.reverse s)[i] = s.extentFromEnd i := by
  rw [extentFromEnd, List.getD_eq_getElem?_getD, List.getElem?_eq_getElem h, Option.getD_some]

theorem getElem?_fromEnd (h : i < s.length) :
    s[s.length - 1 - i]? = some (s.extentFromEnd i) := by
  rw [← List.getElem?_reverse h, List.getElem?_eq_getElem (by rwa [List.length_reverse]),
    getElem_reverse_eq]

theorem extentFromEnd_of_le (h : s.length ≤ i) : s.extentFromEnd i = 1 := by
  rw [extentFromEnd, List.getD_eq_getElem?_getD,
    List.getElem?_eq_none (by rwa [List.length_reverse]), Option.getD_none]

theorem ext_fromEnd (hlen : s.length = target.length)
    (h : ∀ i < s.length, s.extentFromEnd i = target.extentFromEnd i) : s = target := by
  refine List.reverse_inj.mp (List.ext_getElem (by simpa using hlen) fun i hi hi' => ?_)
  rw [getElem_reverse_eq, getElem_reverse_eq]
  exact h i (by rwa [List.length_reverse] at hi)

/-- Aligned at their last axes, each axis of the one shape can be broadcast to that of the
other. -/
structure Broadcasts (s target : Shape) : Prop where
  rank : s.length ≤ target.length
  extents : ∀ i, Widens (s.extentFromEnd i) (target.extentFromEnd i)

theorem broadcasts_refl (s : Shape) : s.Broadcasts s := ⟨Nat.le_refl _, fun _ => widens_refl _⟩

theorem Broadcasts.antisymm (h : s.Broadcasts target) (h' : target.Broadcasts s) : s = target :=
  ext_fromEnd (Nat.le_antisymm h.rank h'.rank) fun i _ => (h.extents i).antisymm (h'.extents i)

/-- The common shape has the largest rank and a common extent on each axis. -/
theorem multiBroadcast?_eq_some : multiBroadcast? shapes = some s ↔
    (shapes.map Shape.rank).max? = some s.rank ∧ ∀ i < s.length,
      (shapes.map (extentFromEnd · i)).foldlM joinExtent? 1 = some (s.extentFromEnd i) := by
  simp only [multiBroadcast?, Option.bind_eq_bind, Option.bind_eq_some_iff, List.foldlM_map,
    mapM_eq_some, List.forall₂_iff_get, List.length_range, List.get_eq_getElem,
    List.getElem_range, pure, Option.some.injEq]
  constructor
  · rintro ⟨rank, hrank, extents, ⟨rfl, hextents⟩, rfl⟩
    refine ⟨by rw [hrank, Shape.rank, List.length_reverse], fun i hi => ?_⟩
    rw [List.length_reverse] at hi
    rw [hextents i hi hi, ← getElem_reverse_eq (by rwa [List.reverse_reverse])]
    simp only [List.reverse_reverse]
  · rintro ⟨hrank, hextents⟩
    refine ⟨s.length, hrank, s.reverse, ⟨List.length_reverse.symm, fun i hi hi' => ?_⟩,
      List.reverse_reverse s⟩
    rw [hextents i hi, getElem_reverse_eq]

/-- **What is above the common shape is what is above all shapes.** -/
theorem multiBroadcast?_bounds (h : multiBroadcast? shapes = some s) :
    s.Broadcasts target ↔ ∀ s' ∈ shapes, s'.Broadcasts target := by
  obtain ⟨hrank, hextents⟩ := multiBroadcast?_eq_some.mp h
  obtain ⟨hmem, hle⟩ := List.max?_eq_some_iff.mp hrank
  have hle : ∀ s' ∈ shapes, s'.length ≤ s.length := fun s' hs' => hle _ (List.mem_map_of_mem hs')
  have hbounds : ∀ i, Widens (s.extentFromEnd i) (target.extentFromEnd i) ↔
      ∀ s' ∈ shapes, Widens (s'.extentFromEnd i) (target.extentFromEnd i) := by
    intro i
    by_cases hi : i < s.length
    · rw [foldlM_joinExtent_bounds (hextents i hi), and_iff_right (one_widens _),
        List.forall_mem_map]
    · have hi := Nat.le_of_not_lt hi
      rw [extentFromEnd_of_le hi]
      refine iff_of_true (one_widens _) fun s' hs' => ?_
      rw [extentFromEnd_of_le (Nat.le_trans (hle s' hs') hi)]
      exact one_widens _
  constructor
  · exact fun hs s' hs' =>
      ⟨Nat.le_trans (hle s' hs') hs.rank, fun i => (hbounds i).mp (hs.extents i) s' hs'⟩
  · intro hall
    obtain ⟨s', hs', hlen⟩ := List.mem_map.mp hmem
    have hlen : s'.length = s.length := hlen
    exact ⟨hlen ▸ (hall s' hs').rank,
      fun i => (hbounds i).mpr fun s' hs' => (hall s' hs').extents i⟩

theorem exists_multiBroadcast? (hne : shapes ≠ []) (h : ∀ s ∈ shapes, s.Broadcasts target) :
    ∃ s, multiBroadcast? shapes = some s := by
  obtain ⟨rank, hrank⟩ : ∃ rank, (shapes.map Shape.rank).max? = some rank := by
    rw [← Option.isSome_iff_exists, List.isSome_max?_iff]
    exact fun hnil => hne (List.map_eq_nil_iff.mp hnil)
  have hextent : ∀ i, ∃ d, (shapes.map (extentFromEnd · i)).foldlM joinExtent? 1 = some d :=
    fun i => exists_foldlM_joinExtent (one_widens _)
      (List.forall_mem_map.mpr fun s hs => (h s hs).extents i)
  choose extent hextent using hextent
  refine ⟨((List.range rank).map extent).reverse, multiBroadcast?_eq_some.mpr ⟨?_, fun i hi => ?_⟩⟩
  · rw [hrank, Shape.rank, List.length_reverse, List.length_map, List.length_range]
  · rw [hextent, ← getElem_reverse_eq (by rwa [List.length_reverse])]
    simp

/-- **The common shape depends on which shapes there are**, not on their order or repetition. -/
theorem multiBroadcast?_congr {shapes' : List Shape} (h : ∀ s, s ∈ shapes' ↔ s ∈ shapes) :
    multiBroadcast? shapes' = multiBroadcast? shapes := by
  have hsome : ∀ {xs ys : List Shape} {s : Shape}, (∀ s, s ∈ ys ↔ s ∈ xs) →
      multiBroadcast? xs = some s → multiBroadcast? ys = some s := by
    intro xs ys s hsame hs
    have hbelow := (multiBroadcast?_bounds hs).mp (broadcasts_refl s)
    have hne : ys ≠ [] := by
      rintro rfl
      cases List.eq_nil_iff_forall_not_mem.mpr fun s hmem => List.not_mem_nil ((hsame s).mpr hmem)
      cases hs
    obtain ⟨s', hs'⟩ := exists_multiBroadcast? hne fun s hmem => hbelow s ((hsame s).mp hmem)
    have hbelow' := (multiBroadcast?_bounds hs').mp (broadcasts_refl s')
    rw [hs', Broadcasts.antisymm
      ((multiBroadcast?_bounds hs').mpr fun s hmem => hbelow s ((hsame s).mp hmem))
      ((multiBroadcast?_bounds hs).mpr fun s hmem => hbelow' s ((hsame s).mpr hmem))]
  refine Option.ext fun s => ⟨hsome fun s => (h s).symm, hsome h⟩

end Shape

end OffloadFusion
