import Mathlib.Data.List.Nodup
import OffloadFusion.Graph.Arena

/-!
# The entries of an arena

`mem_entries` ties the list of entries to the view `get?`; every number stands in it at most once.
The next number is above all numbers in use.
-/

namespace OffloadFusion.Arena

variable {α : Type} {a : Arena α} {i : Nat} {x : α}

theorem mem_entries : (i, x) ∈ a.entries ↔ a.get? i = some x := by
  simp only [entries, get?, List.mem_filterMap, Prod.exists, Option.map_eq_some_iff,
    List.mem_zipIdx_iff_getElem?, Array.getElem?_toList, Prod.mk.injEq, Option.join_eq_some_iff]
  constructor
  · rintro ⟨cell, j, hc, y, rfl, rfl, rfl⟩
    exact hc
  · intro h
    exact ⟨some x, i, h, x, rfl, rfl, rfl⟩

theorem nodup_keys (a : Arena α) : (a.entries.map Prod.fst).Nodup := by
  have h : (a.entries.map Prod.fst).Sublist (a.cells.toList.zipIdx.map Prod.snd) := by
    simp only [entries]
    generalize a.cells.toList.zipIdx = cells
    induction cells with
    | nil => simp
    | cons c cells ih =>
      obtain ⟨cell, j⟩ := c
      cases cell with
      | none => simpa using ih.cons _
      | some y => simpa using ih.cons_cons j
  refine List.Nodup.sublist h ?_
  rw [List.zipIdx_map_snd]
  exact List.nodup_range'

theorem lt_next (h : a.get? i = some x) : i < a.next := by
  simp only [get?, Option.join_eq_some_iff] at h
  exact (Array.getElem?_eq_some_iff.mp h).1

@[simp] theorem get?_next (a : Arena α) : a.get? a.next = none := by
  cases h : a.get? a.next with
  | none => rfl
  | some x => exact absurd (lt_next h) (Nat.lt_irrefl _)

@[simp] theorem next_modify (a : Arena α) (i : Nat) (f : α → α) : (a.modify i f).next = a.next := by
  simp [modify, next]

end OffloadFusion.Arena
