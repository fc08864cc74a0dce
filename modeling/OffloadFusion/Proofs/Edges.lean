import OffloadFusion.Proofs.Verified
import OffloadFusion.Proofs.Rewiring

/-!
# Edges after swapping an operand

`Edit.replaceArgument i old new` makes `i` a consumer of `new` whether or not `i` had `old` as an
operand.

* `instr?_swapped_all`: the swapped program for every `old`, an operand or not.
* **`replaceArgument_edges`**: the edges that are left. They are inverse to each other exactly if
  `i` used one of the two instructions before.
-/

namespace OffloadFusion

namespace Program

variable {p : Program} {i j c x old new : InstrId} {inst a : Instruction} {m : ModuleId}

theorem mem_swapInput_iff : x ∈ (inst.swapInput old new).inputs ↔
    (old ∈ inst.inputs ∧ x = new) ∨ (x ∈ inst.inputs ∧ x ≠ old) := by
  simp only [Instruction.swapInput, List.mem_map]
  constructor
  · rintro ⟨y, hy, rfl⟩
    split
    · next he => exact .inl ⟨he ▸ hy, rfl⟩
    · next hne => exact .inr ⟨hy, hne⟩
  · rintro (⟨hold, rfl⟩ | ⟨hx, hne⟩)
    · exact ⟨old, hold, if_pos rfl⟩
    · exact ⟨x, hx, if_neg hne⟩

/-- The instruction first loses `i` as a consumer, unless `i` still uses it, and `new` gains it. -/
theorem instr?_swapped_all (hi : p.instr? i = some inst) (j : InstrId) :
    (p.swapped i old new).instr? j = (p.instr? j).map fun a =>
      (if j = i then a.swapInput old new else a).reconsume i
        (j = old ∧ ¬ (old ∈ inst.inputs ∧ old = new)) (j = new) := by
  have huse : (p.modifyInstr i (·.swapInput old new)).Uses i old ↔
      old ∈ inst.inputs ∧ old = new := by
    simp [Uses, hi, mem_swapInput_iff]
  rw [swapped, instr?_addConsumer, instr?_dropConsumer, instr?_modifyInstr]
  cases hj : p.instr? j with
  | none => simp
  | some a =>
    simp only [Instruction.reconsume, huse, Option.map_some]
    by_cases h : i = j
    · simp [h]
    · simp [h, Ne.symm h]

theorem uses_swapped (hi : p.instr? i = some inst) : (p.swapped i old new).Uses c x ↔
    if c = i then (old ∈ inst.inputs ∧ x = new) ∨ (x ∈ inst.inputs ∧ x ≠ old) else p.Uses c x := by
  split
  · next hc =>
    subst hc
    simp only [Uses, instr?_swapped_all hi, hi, Option.map_some, Option.some.injEq, if_true,
      exists_eq_left', Instruction.inputs_reconsume, mem_swapInput_iff]
  · next hc =>
    refine uses_map (instr?_swapped_all hi c) fun a => ?_
    rw [if_neg hc, Instruction.inputs_reconsume]

/-- **The consumers after the swap**: the instructions that use the producer, and `i` for `new`. -/
theorem Linked.consumers_swapped (hl : p.Linked) (hi : p.instr? i = some inst)
    (ha : (p.swapped i old new).instr? j = some a) : a.consumers.Nodup ∧
      ∀ c, c ∈ a.consumers ↔ (p.swapped i old new).Uses c j ∨ (c = i ∧ j = new) := by
  rw [instr?_swapped_all hi, Option.map_eq_some_iff] at ha
  obtain ⟨b, hb, rfl⟩ := ha
  have hcons : (if j = i then b.swapInput old new else b).consumers = b.consumers := by
    split <;> rfl
  refine ⟨Instruction.nodup_reconsume _ _ _ _ (hcons ▸ hl.distinct hb), fun c => ?_⟩
  rw [Instruction.mem_reconsume, hcons, uses_swapped hi, hl.mirrored hb]
  by_cases hc : c = i
  · subst hc
    have hself : p.Uses c j ↔ j ∈ inst.inputs := by simp [Uses, hi]
    rw [if_pos rfl, if_pos rfl, hself]
    -- for `new` both sides hold, and elsewhere `old` is dropped on both sides
    by_cases hj : j = new
    · simp [hj]
    · have : j = old ∧ ¬ (old ∈ inst.inputs ∧ old = new) ↔ j = old :=
        ⟨And.left, fun h => ⟨h, fun hold => hj (h.trans hold.2)⟩⟩
      simp only [this, hj, and_false, false_or, or_false, ne_eq]
  · simp [hc]

/-- **The edges after `replaceArgument` on a verified program**, whatever it returns. Consumer lists
have no duplicates and hold the instructions that use the producer, except that `i` is always a
consumer of `new`. So edges are inverse to each other exactly if `i` used `old` or `new`. -/
theorem replaceArgument_edges (h : p.verify = .ok ⟨⟩) (hi : i ∈ p.body m) (hnew : new ∈ p.body m) :
    (∀ j a, ((Edit.replaceArgument i old new).after p).instr? j = some a → a.consumers.Nodup ∧
      ∀ c, c ∈ a.consumers ↔
        ((Edit.replaceArgument i old new).after p).Uses c j ∨ (c = i ∧ j = new)) ∧
    ((∀ j a, ((Edit.replaceArgument i old new).after p).instr? j = some a →
      ∀ c, c ∈ a.consumers ↔ ((Edit.replaceArgument i old new).after p).Uses c j) ↔
        p.Uses i old ∨ p.Uses i new) := by
  have hl : p.Linked := (verify_ok.mp h).toLinked
  obtain ⟨inst, hinst, -⟩ := hl.owned hi
  have hr := Edit.retyped_replaceArgument old new hinst
  have hedges : ∀ j a, ((Edit.replaceArgument i old new).after p).instr? j = some a →
      a.consumers.Nodup ∧ ∀ c, c ∈ a.consumers ↔
        ((Edit.replaceArgument i old new).after p).Uses c j ∨ (c = i ∧ j = new) := by
    intro j a ha
    obtain ⟨b, hb, -, -, -, hcons, -⟩ := Instruction.exists_of_untyped (hr.untyped j) ha
    obtain ⟨hnodup, hmem⟩ := hl.consumers_swapped hinst hb
    exact ⟨hcons ▸ hnodup, fun c => by rw [hcons, hmem, hr.uses]⟩
  have huse : ((Edit.replaceArgument i old new).after p).Uses i new ↔
      p.Uses i old ∨ p.Uses i new := by
    have hself : ∀ x, p.Uses i x ↔ x ∈ inst.inputs := fun x => by simp [Uses, hinst]
    rw [hr.uses, uses_swapped hinst, if_pos rfl, hself, hself]
    by_cases hn : new = old
    · simp [hn]
    · simp [hn]
  refine ⟨hedges, fun hexact => ?_, fun hused j a ha c => ?_⟩
  · have halive : ∃ a, ((Edit.replaceArgument i old new).after p).instr? new = some a := by
      obtain ⟨b, hb, -⟩ := hl.owned hnew
      have hswapped : ∃ a, (p.swapped i old new).instr? new = some a := by
        rw [instr?_swapped_all hinst, hb]
        exact ⟨_, rfl⟩
      obtain ⟨a', ha'⟩ := hswapped
      obtain ⟨a, ha, -⟩ := Instruction.exists_of_untyped (hr.untyped new).symm ha'
      exact ⟨a, ha⟩
    obtain ⟨a, ha⟩ := halive
    exact huse.mp ((hexact new a ha i).mp (((hedges new a ha).2 i).mpr (.inr ⟨rfl, rfl⟩)))
  · refine ((hedges j a ha).2 c).trans ⟨?_, .inl⟩
    rintro (huses | ⟨rfl, rfl⟩)
    · exact huses
    · exact huse.mpr hused

/-- Two values, of which one is read. -/
def oneRead : Program :=
  (do
    let x ← Edit.addParameter main "x" ⟨.f32, [2], [1]⟩
    let _ ← Edit.addParameter main "y" ⟨.f32, [2], [1]⟩
    let _ ← Edit.addInstruction main (.unary .relu) [x] [] : Edit Unit).after .empty

/-- The reader is moved over to the other value, and edges stay inverse to each other. -/
theorem replaceArgument_edges_read :
    oneRead.verify = .ok ⟨⟩ ∧ (⟨2⟩ : InstrId) ∈ oneRead.body main ∧ ⟨1⟩ ∈ oneRead.body main ∧
    ∀ j a, ((Edit.replaceArgument ⟨2⟩ ⟨0⟩ ⟨1⟩).after oneRead).instr? j = some a →
      ∀ c, c ∈ a.consumers ↔ ((Edit.replaceArgument ⟨2⟩ ⟨0⟩ ⟨1⟩).after oneRead).Uses c j := by
  have hv : oneRead.verify = .ok ⟨⟩ := by decide +kernel
  have hreader : (⟨2⟩ : InstrId) ∈ oneRead.body main := by decide +kernel
  have hother : (⟨1⟩ : InstrId) ∈ oneRead.body main := by decide +kernel
  have huse : oneRead.Uses ⟨2⟩ ⟨0⟩ := by decide +kernel
  exact ⟨hv, hreader, hother, (replaceArgument_edges hv hreader hother).2.mpr (.inl huse)⟩

/-- **An edge without an operand**: where the reader does not have the value as an operand,
replacing it by itself succeeds, and the value lists the reader as a consumer. -/
theorem edge_without_operand :
    oneRead.verify = .ok ⟨⟩ ∧ (∀ i ∈ [⟨1⟩, ⟨2⟩], i ∈ oneRead.body main) ∧ ∃ q,
      Edit.replaceArgument ⟨2⟩ ⟨1⟩ ⟨1⟩ oneRead = .ok ⟨⟩ q ∧
      (∃ a, q.instr? ⟨1⟩ = some a ∧ ⟨2⟩ ∈ a.consumers) ∧ ¬ q.Uses ⟨2⟩ ⟨1⟩ ∧ q.verify ≠ .ok ⟨⟩ := by
  refine ⟨by decide +kernel, by decide +kernel, ?_⟩
  obtain ⟨_, q, hok, hq⟩ : ∃ u q, Edit.replaceArgument ⟨2⟩ ⟨1⟩ ⟨1⟩ oneRead = .ok u q ∧
      ((q.instr? ⟨1⟩).any fun a => ⟨2⟩ ∈ a.consumers) = true ∧ ¬ q.Uses ⟨2⟩ ⟨1⟩ ∧
        q.verify ≠ .ok ⟨⟩ := by decide +kernel
  obtain ⟨hmem, hrest⟩ := hq
  rw [Option.any_eq_true] at hmem
  obtain ⟨a, ha, hmem⟩ := hmem
  exact ⟨q, hok, ⟨a, ha, of_decide_eq_true hmem⟩, hrest⟩

end Program

end OffloadFusion
