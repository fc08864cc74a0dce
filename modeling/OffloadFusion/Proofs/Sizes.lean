import Mathlib.Algebra.BigOperators.Ring.List
import Mathlib.Algebra.GroupWithZero.Nat
import OffloadFusion.Proofs.Shapes

/-!
# Sizes in range

`TensorType.Sized` says that the sizes of a tensor can be computed. Then its layout can be judged
(`Sized.acceptsLayout`), and **a row-major layout is one that a call takes**
(`acceptsLayout_standard`): it is dense, or an empty axis makes a stride zero.
-/

namespace OffloadFusion

/-! ## Products and sums -/

namespace Checked

theorem size_ok {n k : Nat} : size n = .ok k ↔ n < sizeLimit ∧ n = k := by
  unfold size
  split <;> simp [*]

theorem product_ok {ns : List Nat} {n : Nat} (h : product ns = .ok n) :
    n = ns.prod ∧ n < sizeLimit := by
  have hfold : ∀ {ns : List Nat} {start n : Nat}, start < sizeLimit →
      ns.foldlM mul start = .ok n → n = start * ns.prod ∧ n < sizeLimit := by
    intro ns
    induction ns with
    | nil =>
      intro start n hstart h
      rw [List.foldlM_nil, Outcome.pure_ok] at h
      subst h
      exact ⟨by rw [List.prod_nil, Nat.mul_one], hstart⟩
    | cons d ns ih =>
      intro start n _ h
      rw [List.foldlM_cons, Outcome.bind_ok] at h
      obtain ⟨next, hnext, h⟩ := h
      obtain ⟨hlt, rfl⟩ := size_ok.mp hnext
      rw [List.prod_cons, ← Nat.mul_assoc]
      exact ih hlt h
  rw [← Nat.one_mul ns.prod]
  exact hfold (by decide) h

theorem sum_of_lt {ns : List Nat} (h : ns.sum < sizeLimit) : sum ns = .ok ns.sum := by
  have hfold : ∀ {ns : List Nat} {start : Nat}, start + ns.sum < sizeLimit →
      ns.foldlM add start = .ok (start + ns.sum) := by
    intro ns
    induction ns with
    | nil => exact fun _ => rfl
    | cons n ns ih =>
      intro start h
      rw [List.sum_cons] at h ⊢
      rw [List.foldlM_cons, Outcome.bind_ok]
      refine ⟨start + n, size_ok.mpr ⟨by omega, rfl⟩, ?_⟩
      rw [ih (by omega), Nat.add_assoc]
  rw [sum, hfold (by omega), Nat.zero_add]

theorem signed_of_lt {n : Nat} (h : n < 0x8000000000000000) : signed n = n := by
  rw [signed, sizeLimit, Int.bmod_eq_of_le] <;> omega

end Checked

/-! ## Row-major tensors -/

/-- In a row-major tensor without empty axes, the elements between the first and the last one are
all others. The strides are only known up to the signed range; past it, axes have extent one. -/
theorem Shape.spans_rowMajor {shape : Shape} {strides : Strides} {extent : Int}
    (hpos : ∀ d ∈ shape, 0 < d) (hlt : shape.prod < Checked.sizeLimit)
    (h : rowMajorFrom shape = .ok (strides, extent)) :
    (∃ spans, ((shape.zip strides).mapM fun (d, s) => Checked.mul (d - 1) s.natAbs) = .ok spans ∧
      spans.sum + 1 = shape.prod) ∧
      (shape.prod < 0x8000000000000000 → extent = shape.prod) := by
  induction shape generalizing strides extent with
  | nil =>
    cases h
    exact ⟨⟨[], rfl, rfl⟩, fun _ => rfl⟩
  | cons d shape ih =>
    rw [rowMajorFrom, Outcome.bind_ok] at h
    obtain ⟨⟨inner, extent'⟩, hinner, h⟩ := h
    simp only [Outcome.bind_ok, Outcome.pure_ok] at h
    obtain ⟨outer, houter, he⟩ := h
    cases he
    obtain ⟨hd, hrest⟩ := List.forall_mem_cons.mp hpos
    rw [List.prod_cons] at hlt ⊢
    have hle : shape.prod ≤ d * shape.prod := Nat.le_mul_of_pos_left _ hd
    obtain ⟨⟨spans, hspans, hsum⟩, hextent⟩ := ih hrest (by omega) hinner
    have hsplit : (d - 1) * shape.prod + shape.prod = d * shape.prod := by
      rw [← Nat.succ_mul, Nat.succ_eq_add_one, Nat.sub_add_cancel hd]
    have hspan : (d - 1) * extent'.natAbs = (d - 1) * shape.prod := by
      by_cases hsmall : shape.prod < 0x8000000000000000
      · rw [hextent hsmall, Int.natAbs_natCast]
      · -- two such blocks would be too many elements
        have hone : d = 1 := by
          by_contra hne
          have : 2 * shape.prod ≤ d * shape.prod := Nat.mul_le_mul_right _ (by omega)
          rw [Checked.sizeLimit] at hlt
          omega
        rw [hone, Nat.sub_self, Nat.zero_mul, Nat.zero_mul]
    refine ⟨⟨(d - 1) * extent'.natAbs :: spans, ?_, ?_⟩, fun hsmall => ?_⟩
    · simp only [List.zip_cons_cons, List.mapM_cons, Outcome.bind_ok, Outcome.pure_ok]
      exact ⟨_, Checked.size_ok.mpr ⟨by rw [hspan]; omega, rfl⟩, spans, hspans, rfl⟩
    · rw [List.sum_cons, hspan]
      omega
    · have hdsmall : d < 0x8000000000000000 := by
        have : d ≤ d * shape.prod := Nat.le_mul_of_pos_right _ (by omega)
        omega
      rw [hextent (by omega), Checked.signed_of_lt hdsmall, Checked.stride] at houter
      split at houter
      · cases houter
        rw [Nat.mul_comm, Int.natCast_mul]
      · cases houter

namespace TensorType

variable {t u : TensorType}

/-- The sizes of the tensor can be computed, and those of its row-major form. -/
structure Sized (t : TensorType) : Prop where
  numel : ∃ n, t.numel = .ok n
  elementSpace : ∃ n, t.elementSpace = .ok n
  standard : ∃ u, t.asStandard = .ok u

instance (t : TensorType) : Decidable t.Sized :=
  decidable_of_iff (t.numel.isOk ∧ t.elementSpace.isOk ∧ t.asStandard.isOk) (by
    have hok : ∀ {ε α : Type} (x : Except ε α), x.isOk = true ↔ ∃ a, x = .ok a := fun x => by
      cases x <;> simp [Except.isOk, Except.toBool]
    rw [hok, hok, hok]
    exact ⟨fun ⟨h₁, h₂, h₃⟩ => ⟨h₁, h₂, h₃⟩, fun ⟨h₁, h₂, h₃⟩ => ⟨h₁, h₂, h₃⟩⟩)

theorem Sized.acceptsLayout (h : t.Sized) : ∃ b, Op.acceptsLayout t = .ok b := by
  obtain ⟨n, hn⟩ := h.numel
  obtain ⟨k, hk⟩ := h.elementSpace
  have hpacked : ∃ b, t.isPacked = .ok b := by
    unfold isPacked
    split
    · exact ⟨false, rfl⟩
    · exact ⟨_, by rw [hn, hk]; rfl⟩
  obtain ⟨b, hb⟩ := hpacked
  rw [Op.acceptsLayout, hb]
  cases b
  · exact ⟨_, rfl⟩
  · exact ⟨true, rfl⟩

/-- **A call takes row-major tensors.** -/
theorem acceptsLayout_standard {n : Nat} (hn : t.numel = .ok n) (hu : t.asStandard = .ok u) :
    Op.acceptsLayout u = .ok true := by
  obtain ⟨strides, hrow, rfl⟩ := Typing.standard_ok.mp hu
  by_cases hzero : (0 : Int) ∈ strides
  · have hb : isBroadcasted ⟨t.dtype, t.shape, strides⟩ = true := List.contains_iff_mem.mpr hzero
    rw [Op.acceptsLayout, isPacked, hb]
    rfl
  · have hb : isBroadcasted ⟨t.dtype, t.shape, strides⟩ = false := by
      rw [Bool.eq_false_iff]
      exact fun h => hzero (List.contains_iff_mem.mp h)
    have hspace : elementSpace ⟨t.dtype, t.shape, strides⟩ = .ok n := by
      obtain ⟨hprod, hlt⟩ := Checked.product_ok hn
      by_cases hempty : (0 : Nat) ∈ t.shape
      · rw [elementSpace, if_pos (List.contains_iff_mem.mpr hempty), hprod,
          List.prod_eq_zero hempty]
        rfl
      · rw [elementSpace, if_neg (fun h => hempty (List.contains_iff_mem.mp h))]
        obtain ⟨⟨_, extent⟩, hfrom, rfl⟩ := Outcome.map_ok.mp hrow
        obtain ⟨⟨spans, hspans, hsum⟩, -⟩ := Shape.spans_rowMajor
          (fun d hd => Nat.pos_of_ne_zero fun he => hempty (he ▸ hd)) (hprod ▸ hlt) hfrom
        simp only [Outcome.bind_ok]
        refine ⟨spans, hspans, spans.sum, Checked.sum_of_lt (by omega), ?_⟩
        rw [Checked.add, hsum, ← hprod]
        exact Checked.size_ok.mpr ⟨by omega, rfl⟩
    have hpacked : isPacked ⟨t.dtype, t.shape, strides⟩ = .ok true := by
      have hnumel : numel ⟨t.dtype, t.shape, strides⟩ = .ok n := hn
      rw [isPacked, hb, hnumel, hspace]
      simp
    rw [Op.acceptsLayout, hpacked]
    rfl

end TensorType

end OffloadFusion
