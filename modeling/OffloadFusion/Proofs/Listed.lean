import Mathlib.Data.List.Perm.Basic
import OffloadFusion.Graph.Verify
import OffloadFusion.Proofs.Linked

/-!
# What the modules list

* `mem_moduleEntries`: the entries in order of their places are the modules with their handles, each
  once (`nodup_moduleIds`).
* `listed_of_length`: if modules list only their own instructions, each once, and as many as there
  are, they list all of them. `length_listed` is the converse for linked programs.
-/

namespace OffloadFusion.Program

variable {p : Program} {m : ModuleId} {module : Module} {i : InstrId} {inst : Instruction}

/-! ## Modules -/

theorem insertBySlot_perm (entry : ModuleId × Module) (entries : List (ModuleId × Module)) :
    (insertBySlot entry entries).Perm (entry :: entries) := by
  induction entries with
  | nil => exact .refl _
  | cons e es ih =>
    rw [insertBySlot]
    split
    · exact .refl _
    · exact (ih.cons e).trans (.swap entry e es)

theorem moduleEntries_perm (p : Program) :
    p.moduleEntries.Perm (p.modules.entries.map fun (i, m) => (⟨i⟩, m)) := by
  unfold moduleEntries
  induction p.modules.entries.map fun (i, m) => ((⟨i⟩ : ModuleId), m) with
  | nil => exact .refl _
  | cons e es ih => exact (insertBySlot_perm e _).trans (ih.cons e)

theorem mem_moduleEntries : (m, module) ∈ p.moduleEntries ↔ p.module? m = some module := by
  rw [p.moduleEntries_perm.mem_iff, List.mem_map, module?, ← Arena.mem_entries]
  constructor
  · rintro ⟨⟨k, module'⟩, h, he⟩
    cases he
    exact h
  · intro h
    exact ⟨(m.index, module), h, rfl⟩

theorem nodup_moduleIds (p : Program) : p.moduleIds.Nodup := by
  have hperm := p.moduleEntries_perm.map Prod.fst
  rw [moduleIds, hperm.nodup_iff, List.map_map]
  have : (Prod.fst ∘ fun (e : Nat × Module) => ((⟨e.1⟩ : ModuleId), e.2)) =
      ModuleId.mk ∘ Prod.fst := rfl
  rw [this, ← List.map_map]
  exact p.modules.nodup_keys.map fun _ _ h => congrArg ModuleId.index h

theorem mem_moduleIds : m ∈ p.moduleIds ↔ ∃ module, p.module? m = some module := by
  simp only [moduleIds, List.mem_map, Prod.exists, exists_and_right, exists_eq_right,
    mem_moduleEntries]

/-! ## Instructions -/

/-- The handles of all instructions. -/
def handles (p : Program) : List InstrId := p.instructions.entries.map fun (i, _) => ⟨i⟩

theorem mem_handles : i ∈ p.handles ↔ ∃ inst, p.instr? i = some inst := by
  simp only [handles, List.mem_map, Prod.exists, Arena.mem_entries, instr?]
  constructor
  · rintro ⟨k, inst, h, rfl⟩
    exact ⟨inst, h⟩
  · rintro ⟨inst, h⟩
    exact ⟨i.index, inst, h, rfl⟩

theorem nodup_handles (p : Program) : p.handles.Nodup := by
  have : (fun (e : Nat × Instruction) => (⟨e.1⟩ : InstrId)) = InstrId.mk ∘ Prod.fst := rfl
  rw [handles, this, ← List.map_map]
  exact p.instructions.nodup_keys.map fun _ _ h => congrArg InstrId.index h

theorem length_handles (p : Program) : p.handles.length = p.size := by
  rw [handles, List.length_map, size, Arena.count]

theorem mem_listed : i ∈ p.listed ↔ ∃ m, i ∈ p.body m := by
  simp only [listed, List.mem_flatMap, Prod.exists, mem_moduleEntries]
  constructor
  · rintro ⟨m, module, hm, hi⟩
    exact ⟨m, by rwa [body_of_module? hm]⟩
  · rintro ⟨m, hi⟩
    obtain ⟨module, hm, hb⟩ := module?_of_mem_body hi
    exact ⟨m, module, hm, hb ▸ hi⟩

/-- Modules that list only their own instructions list none twice among them. -/
theorem nodup_listed (hn : ∀ m, (p.body m).Nodup)
    (ho : ∀ m, ∀ i ∈ p.body m, ∃ inst, p.instr? i = some inst ∧ inst.owner = m) :
    p.listed.Nodup := by
  rw [listed, List.nodup_flatMap]
  constructor
  · rintro ⟨m, module⟩ hm
    change module.body.Nodup
    rw [← body_of_module? (mem_moduleEntries.mp hm)]
    exact hn m
  · have hids : p.moduleEntries.Pairwise fun a b => a.1 ≠ b.1 :=
      List.pairwise_map.mp p.nodup_moduleIds
    refine hids.imp_of_mem fun {a b} ha hb hne => List.disjoint_left.mpr fun i hia hib => hne ?_
    change i ∈ a.2.body at hia
    change i ∈ b.2.body at hib
    rw [← body_of_module? (mem_moduleEntries.mp ha)] at hia
    rw [← body_of_module? (mem_moduleEntries.mp hb)] at hib
    obtain ⟨inst, hi, hoa⟩ := ho _ i hia
    obtain ⟨inst', hi', hob⟩ := ho _ i hib
    rw [hi] at hi'
    cases hi'
    exact hoa.symm.trans hob

theorem listed_of_length (hn : ∀ m, (p.body m).Nodup)
    (ho : ∀ m, ∀ i ∈ p.body m, ∃ inst, p.instr? i = some inst ∧ inst.owner = m)
    (hlen : p.listed.length = p.size) (hi : p.instr? i = some inst) : i ∈ p.body inst.owner := by
  have hsub : p.listed.Subperm p.handles :=
    List.subperm_of_subset (nodup_listed hn ho) fun j hj => by
      obtain ⟨m, hm⟩ := mem_listed.mp hj
      obtain ⟨a, ha, -⟩ := ho m j hm
      exact mem_handles.mpr ⟨a, ha⟩
  have hperm := hsub.perm_of_length_le (Nat.le_of_eq (by rw [length_handles, hlen]))
  obtain ⟨m, hm⟩ := mem_listed.mp (hperm.mem_iff.mpr (mem_handles.mpr ⟨inst, hi⟩))
  obtain ⟨a, ha, rfl⟩ := ho m i hm
  rw [hi] at ha
  cases ha
  exact hm

theorem Linked.length_listed (hl : p.Linked) : p.listed.length = p.size := by
  have hperm : p.listed.Perm p.handles := by
    refine (List.perm_ext_iff_of_nodup (nodup_listed hl.nodup fun m i hi => hl.owned hi)
      p.nodup_handles).mpr fun j => ?_
    rw [mem_listed, mem_handles]
    constructor
    · rintro ⟨m, hm⟩
      obtain ⟨a, ha, -⟩ := hl.owned hm
      exact ⟨a, ha⟩
    · rintro ⟨a, ha⟩
      exact ⟨a.owner, hl.listed ha⟩
  rw [hperm.length_eq, length_handles]

end OffloadFusion.Program
