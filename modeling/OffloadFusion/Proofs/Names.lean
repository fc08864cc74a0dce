import OffloadFusion.Proofs.Removing
import OffloadFusion.Proofs.Rewiring

/-!
# The index of names

A program is `Indexed` if its index has exactly the names of its modules, each with the module that
bears it. So no two modules share a name (`Indexed.unique`). Only `createModule` and `removeModule`
touch names.
-/

namespace OffloadFusion.Program

theorem lookup_filter_ne (names : List (String × ModuleId)) (dropped name : String) :
    (names.filter fun entry => entry.1 ≠ dropped).lookup name =
      if name = dropped then none else names.lookup name := by
  induction names with
  | nil => simp
  | cons entry names ih =>
    obtain ⟨first, m⟩ := entry
    by_cases hf : first = dropped <;> by_cases hn : name = first
    · subst hf hn
      simpa using ih
    · subst hf
      have hb : (name == first) = false := beq_eq_false_iff_ne.mpr hn
      simpa [hn, List.lookup_cons, hb] using ih
    · subst hn
      simp [hf]
    · have hb : (name == first) = false := beq_eq_false_iff_ne.mpr hn
      simpa [hf, List.lookup_cons, hb] using ih

/-- The index has exactly the modules with their names. -/
def Indexed (p : Program) : Prop := ∀ name m, p.moduleNamed? name = some m ↔
  ∃ module, p.module? m = some module ∧ module.name = name

/-- The programs have the same modules with the same names. -/
structure SameNames (p q : Program) : Prop where
  index : q.names = p.names
  modules : ∀ m, (q.module? m).map Module.name = (p.module? m).map Module.name

namespace Indexed

variable {p q : Program} {m n : ModuleId} {module module' : Module}

theorem unique (h : p.Indexed) (hm : p.module? m = some module) (hn : p.module? n = some module')
    (he : module.name = module'.name) : m = n :=
  Option.some.inj (((h _ m).mpr ⟨module, hm, he⟩).symm.trans ((h _ n).mpr ⟨module', hn, rfl⟩))

theorem empty : Program.empty.Indexed := by
  intro name m
  have hm : m.index = (0 : Nat) ↔ m = main := by cases m; simp [main]
  simp only [moduleNamed?, Program.empty, module?, Arena.get?_add, Arena.next, Arena.empty,
    List.size_toArray, List.length_nil, hm, List.lookup_cons, List.lookup_nil]
  by_cases h : m = main <;> by_cases h' : name = mainName
  · simp [h, h']
  · have : (name == mainName) = false := beq_eq_false_iff_ne.mpr h'
    simp [h, this, Ne.symm h']
  · simp [h, h', Ne.symm h, Arena.get?]
  · have : (name == mainName) = false := beq_eq_false_iff_ne.mpr h'
    simp [h, this, Arena.get?]

/-- It is enough to look at the modules and at the entries of the index. -/
theorem of_entries (hmodules : ∀ e ∈ p.modules.entries, p.moduleNamed? e.2.name = some ⟨e.1⟩)
    (hnames : ∀ e ∈ p.names, (p.module? e.2).map Module.name = some e.1) : p.Indexed := by
  refine fun name m => ⟨fun h => ?_, fun ⟨module, hm, hn⟩ => ?_⟩
  · obtain ⟨l₁, l₂, he, -⟩ := List.lookup_eq_some_iff.mp h
    have hmem : (name, m) ∈ p.names := he ▸ List.mem_append_right l₁ List.mem_cons_self
    exact Option.map_eq_some_iff.mp (hnames (name, m) hmem)
  · exact hn ▸ hmodules (m.index, module) (Arena.mem_entries.mpr hm)

theorem of_same (h : p.Indexed) (hs : SameNames p q) : q.Indexed := by
  have hmod : ∀ name m, (∃ module, q.module? m = some module ∧ module.name = name) ↔
      ∃ module, p.module? m = some module ∧ module.name = name := fun name m => by
    have := hs.modules m
    rw [← Option.map_eq_some_iff, ← Option.map_eq_some_iff, this]
  intro name m
  rw [hmod, moduleNamed?, hs.index]
  exact h name m

theorem opened (h : p.Indexed) {name : String} (hfree : p.moduleNamed? name = none) :
    (p.opened name).Indexed := by
  intro name' m
  have hlookup : (p.opened name).moduleNamed? name' =
      if name' = name then some p.nextModule else p.moduleNamed? name' := by
    simp only [moduleNamed?, Program.opened, List.lookup_cons]
    by_cases he : name' = name
    · simp [he]
    · rw [beq_eq_false_iff_ne.mpr he, if_neg he]
  rw [hlookup, module?_opened]
  by_cases he : name' = name <;> by_cases hm : m = p.nextModule
  · simp [he, hm]
  · have hnone : ∀ module, p.module? m = some module → module.name ≠ name := by
      intro module hmod hname
      have := (h name m).mpr ⟨module, hmod, hname⟩
      rw [hfree] at this
      cases this
    simpa [he, hm, Ne.symm hm] using hnone
  · have : p.moduleNamed? name' ≠ some p.nextModule := fun hsome => by
      obtain ⟨module, hmod, -⟩ := (h _ _).mp hsome
      rw [module?_nextModule] at hmod
      cases hmod
    simp [he, hm, this, Ne.symm he]
  · simp [he, hm, h name' m]

/-- The end of a module frees its name. -/
theorem moduleRemoved (h : p.Indexed) (hm : p.module? m = some module) :
    (p.moduleRemoved m module).Indexed := by
  have hnames : (p.moduleRemoved m module).names =
      p.names.filter fun entry => entry.1 ≠ module.name := by
    have hfold : ∀ (is : List InstrId) (q : Program), (is.foldl eraseInstr q).names = q.names := by
      intro is
      induction is with
      | nil => exact fun q => rfl
      | cons i is ih => exact fun q => (ih _).trans (q.names_eraseInstr i)
    exact hfold _ _
  intro name k
  have hlookup : (p.moduleRemoved m module).moduleNamed? name =
      if name = module.name then none else p.moduleNamed? name := by
    rw [moduleNamed?, hnames, moduleNamed?, lookup_filter_ne]
  rw [hlookup, module?_moduleRemoved]
  by_cases he : name = module.name <;> by_cases hk : m = k
  · simp [he, hk]
  · have hnone : ∀ module', p.module? k = some module' → module'.name ≠ module.name :=
      fun module' hk' hname => hk (h.unique hm hk' hname.symm)
    simpa [he, hk] using hnone
  · have : p.moduleNamed? name ≠ some k := fun hsome => by
      obtain ⟨module', hmod, hname⟩ := (h _ _).mp hsome
      rw [← hk, hm] at hmod
      cases hmod
      exact he hname.symm
    simp [he, hk, this]
  · simp [he, hk, h name k]

end Indexed

end OffloadFusion.Program
