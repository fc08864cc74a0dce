import OffloadFusion.Proofs.Alignment
import OffloadFusion.Proofs.Indices

/-!
# Two ways of broadcasting

The common shape of several shapes is computed at once (`Shape.multiBroadcast?`), while a broadcast
of a tensor checks its own shape against a target (`Reindex.multibroadcast`).

* `Reindex.accepts_multibroadcast`: broadcasting a tensor succeeds along the order of shapes.
* **`Reindex.multiBroadcast?_least`**: both ways agree on the common shape, which is the least.
-/

namespace OffloadFusion

namespace Reindex

open TensorType Shape

variable {t : TensorType} {target : Shape} {ts : List TensorType}

/-- **A tensor can be broadcast to a shape if its shape can.** -/
theorem accepts_multibroadcast (hranked : t.Ranked) :
    (∃ u, (multibroadcast target).output t = .ok u) ↔ t.shape.Broadcasts target := by
  constructor
  · rintro ⟨u, hok⟩
    obtain ⟨-, hle, haxes⟩ := multibroadcastOutput_ok hok
    refine ⟨hle, fun i => ?_⟩
    by_cases hi : i < t.shape.length
    · obtain hone | hsame := haxes _ _ (getElem?_fromEnd hi)
      · exact .inl hone
      · have hat : target.length - t.shape.length + (t.shape.length - 1 - i) =
            target.length - 1 - i := by omega
        rw [hat, getElem?_fromEnd (Nat.lt_of_lt_of_le hi hle), Option.some.injEq] at hsame
        exact .inr hsame.symm
    · rw [extentFromEnd_of_le (Nat.le_of_not_lt hi)]
      exact one_widens _
  · intro h
    have hstride : ∀ e ∈ (t.shape.zip (target.drop (target.length - t.shape.length))).zipIdx,
        ∃ stride, broadcastStride t target e.2 e.1.1 e.1.2 = .ok stride := by
      rintro ⟨⟨source, extent⟩, axis⟩ hmem
      obtain ⟨hsource, hextent⟩ :=
        List.getElem?_zip_eq_some.mp (List.mk_mem_zipIdx_iff_getElem?.mp hmem)
      have haxis := (List.getElem?_eq_some_iff.mp hsource).1
      have hrank := h.rank
      have hwidens : Widens source extent := by
        -- the same axis of both shapes, counted from the last one
        have hi : t.shape.length - 1 - axis < t.shape.length := by omega
        have hs := getElem?_fromEnd hi
        have he := getElem?_fromEnd (Nat.lt_of_lt_of_le hi hrank)
        rw [show t.shape.length - 1 - (t.shape.length - 1 - axis) = axis by omega, hsource] at hs
        rw [show target.length - 1 - (t.shape.length - 1 - axis) =
          target.length - t.shape.length + axis by omega, ← List.getElem?_drop, hextent] at he
        cases hs
        cases he
        exact h.extents _
      dsimp only
      rw [broadcastStride]
      split
      · exact ⟨_, Outcome.lift_checked_ok.mpr (Checked.get_of_lt (hranked ▸ haxis))⟩
      · next hne =>
        rw [if_neg (not_not.mpr (hwidens.resolve_right hne))]
        exact ⟨0, rfl⟩
    obtain ⟨strides, hstrides⟩ := Outcome.mapM_total hstride
    simp only [output, multibroadcastOutput, Outcome.ite_ok, Outcome.bind_ok, Outcome.refuse_ok,
      false_and, exists_false, and_false, false_or, Outcome.pure_ok]
    exact ⟨_, Nat.not_lt.mpr h.rank, strides, hstrides, rfl⟩

/-- **The common shape is the least to which all tensors can be broadcast.** It is there if they can
be broadcast to one shape at all. Then all can be broadcast to it, it has the largest of their
ranks, and it can itself be broadcast wherever they all can. Their order and repetition do not
count. -/
theorem multiBroadcast?_least (hne : ts ≠ []) (hranked : ∀ t ∈ ts, t.Ranked) :
    ((∃ s, multiBroadcast? (ts.map TensorType.shape) = some s) ↔
        ∃ target, ∀ t ∈ ts, ∃ u, (multibroadcast target).output t = .ok u) ∧
      (∀ s, multiBroadcast? (ts.map TensorType.shape) = some s →
        (∀ t ∈ ts, ∃ u, (multibroadcast s).output t = .ok u) ∧
        (ts.map TensorType.rank).max? = some s.rank ∧
        ∀ target, (∀ t ∈ ts, ∃ u, (multibroadcast target).output t = .ok u) →
          ∀ t : TensorType, t.shape = s → t.Ranked →
            ∃ u, (multibroadcast target).output t = .ok u) ∧
      ∀ shapes : List Shape, (∀ s, s ∈ shapes ↔ s ∈ ts.map TensorType.shape) →
        multiBroadcast? shapes = multiBroadcast? (ts.map TensorType.shape) := by
  have haccepts : ∀ target, (∀ t ∈ ts, ∃ u, (multibroadcast target).output t = .ok u) ↔
      ∀ s ∈ ts.map TensorType.shape, s.Broadcasts target := fun target => by
    rw [List.forall_mem_map]
    exact forall₂_congr fun t ht => accepts_multibroadcast (hranked t ht)
  simp only [haccepts]
  refine ⟨⟨fun ⟨s, hs⟩ => ?_, fun ⟨target, h⟩ => ?_⟩, fun s hs => ⟨?_, ?_, ?_⟩, fun _ h => ?_⟩
  · exact ⟨s, (multiBroadcast?_bounds hs).mp (broadcasts_refl s)⟩
  · exact exists_multiBroadcast? (fun hnil => hne (List.map_eq_nil_iff.mp hnil)) h
  · exact (multiBroadcast?_bounds hs).mp (broadcasts_refl s)
  · rw [← (multiBroadcast?_eq_some.mp hs).1, List.map_map]
    rfl
  · rintro target h t rfl ht
    exact (accepts_multibroadcast ht).mpr ((multiBroadcast?_bounds hs).mpr h)
  · exact multiBroadcast?_congr h

/-- A long axis, an empty one and a scalar. -/
theorem multiBroadcast?_least_empty :
    let ts : List TensorType :=
      [⟨.f32, [4, 1, 3], [3, 3, 1]⟩, ⟨.i8, [0, 1], [7, -2]⟩, ⟨.f16, [], []⟩]
    (∀ t ∈ ts, t.Ranked) ∧ multiBroadcast? (ts.map TensorType.shape) = some [4, 0, 3] ∧
      (∀ t ∈ ts, ∃ u, (multibroadcast [4, 0, 3]).output t = .ok u) ∧
      multiBroadcast? [[0, 1], [], [0, 1], [4, 1, 3]] = some [4, 0, 3] := by
  intro ts
  have hranked : ∀ t ∈ ts, t.Ranked := by decide
  have hcommon : multiBroadcast? (ts.map TensorType.shape) = some [4, 0, 3] := by decide
  obtain ⟨-, hleast, hsame⟩ := multiBroadcast?_least (List.cons_ne_nil _ _) hranked
  refine ⟨hranked, hcommon, (hleast _ hcommon).1, ?_⟩
  rw [hsame [[0, 1], [], [0, 1], [4, 1, 3]] fun s => ?_, hcommon]
  simp only [List.map_cons, List.map_nil, List.mem_cons, List.not_mem_nil, or_false]
  tauto

end Reindex

end OffloadFusion
