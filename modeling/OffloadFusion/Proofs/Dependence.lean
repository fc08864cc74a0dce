import Mathlib.Logic.Relation
import OffloadFusion.Proofs.Linked

/-!
# Dependence

`DependsOn p a b` says that `b` is `a` or uses it through any number of instructions.

* `reaches_iff`: the search decides this. What it has visited and what it has left to visit are
  closed under operands (`Covered`), and the operands not yet put on the stack bound its steps.
* `Linked.before_of_dependsOn`: in a linked program, dependence goes along the order of a module, so
  it is no cycle (`Linked.dependsOn_antisymm`).
-/

namespace OffloadFusion.Program

variable {p : Program} {i a b x : InstrId} {inst : Instruction} {visited stack : List InstrId}
  {target : InstrId} {fuel : Nat}

/-- `b` is `a` or uses it through any number of instructions. -/
def DependsOn (p : Program) : InstrId → InstrId → Prop :=
  Relation.ReflTransGen fun x y => p.Uses y x

/-- The operands of an instruction; none if it is gone. -/
def operands (p : Program) (i : InstrId) : List InstrId := ((p.instr? i).map (·.inputs)).getD []

theorem mem_operands : x ∈ p.operands i ↔ p.Uses i x := by
  unfold operands Uses
  cases p.instr? i <;> simp

/-! ## What the search finds -/

theorem search_sound (h : p.search target fuel visited stack = true) :
    ∃ i ∈ stack, p.DependsOn target i := by
  induction fuel generalizing visited stack with
  | zero => cases h
  | succ fuel ih =>
    cases stack with
    | nil => cases h
    | cons i stack =>
      rw [search] at h
      split at h
      · next hi => exact ⟨i, List.mem_cons_self, hi ▸ .refl⟩
      split at h
      · obtain ⟨j, hj, hd⟩ := ih h
        exact ⟨j, List.mem_cons_of_mem i hj, hd⟩
      · obtain ⟨j, hj, hd⟩ := ih h
        obtain hj | hj := List.mem_append.mp hj
        · exact ⟨i, List.mem_cons_self, hd.tail (mem_operands.mp hj)⟩
        · exact ⟨j, List.mem_cons_of_mem i hj, hd⟩

/-! ## What the search visits -/

/-- The operands of the instructions not yet visited. -/
def pending (p : Program) (visited : List InstrId) : List InstrId :=
  (p.instructions.entries.filter fun e => ⟨e.1⟩ ∉ visited).flatMap fun e => e.2.inputs

theorem length_pending_nil (p : Program) : (p.pending []).length = p.inputCount := by
  rw [pending, inputCount, List.filter_eq_self.mpr fun _ _ => decide_eq_true List.not_mem_nil]

theorem length_pending_cons (hi : i ∉ visited) :
    (p.pending (i :: visited)).length + (p.operands i).length ≤ (p.pending visited).length := by
  have hown : (p.operands i).length ≤ ((p.instructions.entries.filter fun e =>
      (⟨e.1⟩ : InstrId) = i).flatMap fun e => e.2.inputs).length := by
    cases hi : p.instr? i with
    | none => simp [operands, hi]
    | some inst =>
      have hmem : (i.index, inst) ∈ p.instructions.entries.filter fun e => (⟨e.1⟩ : InstrId) = i :=
        List.mem_filter.mpr ⟨Arena.mem_entries.mpr hi, by simp⟩
      rw [operands, hi, List.flatMap_def]
      refine List.Sublist.length_le (List.sublist_flatten_of_mem ?_)
      exact List.mem_map_of_mem hmem
  refine Nat.le_trans (Nat.add_le_add_left hown _) ?_
  -- the instruction itself stands in one part, all others in the other
  unfold pending
  induction p.instructions.entries with
  | nil => simp
  | cons e es ih =>
    by_cases he : (⟨e.1⟩ : InstrId) = i
    · have : (⟨e.1⟩ : InstrId) ∉ visited := he ▸ hi
      simp [he, hi] at ih ⊢
      omega
    · by_cases hv : (⟨e.1⟩ : InstrId) ∈ visited <;> simp [he, hv] at ih ⊢ <;> omega

/-- What is visited is closed under operands, up to the stack, and has no target. -/
structure Covered (p : Program) (target : InstrId) (visited stack : List InstrId) : Prop where
  closed : ∀ i ∈ visited, ∀ x, p.Uses i x → x ∈ visited ∨ x ∈ stack
  target : target ∉ visited

theorem search_complete (hc : p.Covered target visited stack)
    (hfuel : stack.length + (p.pending visited).length < fuel)
    (h : p.search target fuel visited stack = false) :
    ∃ closed : List InstrId, p.Covered target closed [] ∧ visited ⊆ closed ∧ stack ⊆ closed := by
  induction fuel generalizing visited stack with
  | zero => omega
  | succ fuel ih =>
    cases stack with
    | nil => exact ⟨visited, hc, fun _ h => h, fun _ h => nomatch h⟩
    | cons i stack =>
      rw [search] at h
      split at h
      · cases h
      next hne =>
      split at h
      · next hmem =>
        have hc' : p.Covered target visited stack := by
          refine ⟨fun j hj x hx => ?_, hc.target⟩
          obtain hx | hx := hc.closed j hj x hx
          · exact .inl hx
          · obtain rfl | hx := List.mem_cons.mp hx
            · exact .inl hmem
            · exact .inr hx
        obtain ⟨closed, hclosed, hv, hs⟩ := ih hc' (by simp at hfuel; omega) h
        exact ⟨closed, hclosed, hv, List.cons_subset.mpr ⟨hv hmem, hs⟩⟩
      · next hmem =>
        have hc' : p.Covered target (i :: visited) (p.operands i ++ stack) := by
          refine ⟨fun j hj x hx => ?_, ?_⟩
          · obtain rfl | hj := List.mem_cons.mp hj
            · exact .inr (List.mem_append_left _ (mem_operands.mpr hx))
            · obtain hx | hx := hc.closed j hj x hx
              · exact .inl (List.mem_cons_of_mem i hx)
              · obtain rfl | hx := List.mem_cons.mp hx
                · exact .inl List.mem_cons_self
                · exact .inr (List.mem_append_right _ hx)
          · exact List.not_mem_cons_of_ne_of_not_mem (Ne.symm hne) hc.target
        have hlen := length_pending_cons (p := p) hmem
        obtain ⟨closed, hclosed, hv, hs⟩ := ih hc' (by simp at hfuel ⊢; omega) h
        exact ⟨closed, hclosed, fun j hj => hv (List.mem_cons_of_mem i hj),
          List.cons_subset.mpr ⟨hv List.mem_cons_self, fun j hj => hs (List.mem_append_right _ hj)⟩⟩

theorem Covered.mem_of_dependsOn {closed : List InstrId} (h : p.Covered target closed [])
    (hd : p.DependsOn a b) (hb : b ∈ closed) : a ∈ closed := by
  induction hd with
  | refl => exact hb
  | tail _ huse ih => exact ih ((h.closed _ hb _ huse).resolve_right List.not_mem_nil)

/-- A search that visits every operand decides dependence. -/
theorem search_iff (hfuel : p.inputCount + 1 < fuel) :
    p.search a fuel [] [b] = true ↔ p.DependsOn a b := by
  constructor
  · intro h
    obtain ⟨i, hi, hd⟩ := search_sound h
    rwa [List.mem_singleton.mp hi] at hd
  · intro hd
    by_contra hne
    have hfuel : [b].length + (p.pending []).length < fuel := by
      rwa [length_pending_nil, List.length_singleton, Nat.add_comm]
    have hstart : p.Covered a [] [b] := ⟨nofun, List.not_mem_nil⟩
    obtain ⟨closed, hclosed, -, hs⟩ :=
      search_complete hstart hfuel (Bool.not_eq_true _ ▸ hne)
    exact hclosed.target (hclosed.mem_of_dependsOn hd (hs (List.mem_singleton.mpr rfl)))

/-- **The search decides dependence.** -/
theorem reaches_iff : p.reaches a b = true ↔ p.DependsOn a b := search_iff (Nat.lt_succ_self _)

theorem DependsOn.of_closed {C : InstrId → Prop} (hC : ∀ {j x}, C j → p.Uses j x → C x)
    (h : p.DependsOn a b) (hb : C b) : C a := by
  induction h using Relation.ReflTransGen.head_induction_on with
  | refl => exact hb
  | head huse _ ih => exact hC ih huse

/-! ## The order of a module -/

/-- **In a linked program, dependence goes along the order of a module.** -/
theorem Linked.before_of_dependsOn (hl : p.Linked) (hd : p.DependsOn a b) :
    a = b ∨ ∃ m, Before (p.body m) a b := by
  induction hd with
  | refl => exact .inl rfl
  | tail _ huse ih =>
    obtain ⟨inst, hb, hc⟩ := huse
    have hlast := hl.ordered hb hc
    refine .inr ⟨inst.owner, ?_⟩
    obtain rfl | ⟨m, hfirst⟩ := ih
    · exact hlast
    · obtain ⟨cinst, hci, hm⟩ := hl.owned hfirst.right_mem
      have : m = inst.owner := hm.symm.trans (hl.owner_unique hci hlast.left_mem)
      exact (this ▸ hfirst).trans (hl.nodup _) hlast

theorem Linked.dependsOn_antisymm (hl : p.Linked) (hab : p.DependsOn a b)
    (hba : p.DependsOn b a) : a = b := by
  obtain rfl | ⟨m, h⟩ := hl.before_of_dependsOn hab
  · rfl
  obtain rfl | ⟨m', h'⟩ := hl.before_of_dependsOn hba
  · rfl
  obtain ⟨inst, hi, hm⟩ := hl.owned h.left_mem
  have : m' = m := (hl.owner_unique hi h'.right_mem).symm.trans hm
  exact absurd (this ▸ h') (h.asymm (hl.nodup m))

end OffloadFusion.Program
