import OffloadFusion.Proofs.Cleanup

/-!
# Programs without some instructions and modules

`Cut gone dead p q` says all of `q` that there is to say: it is `p` without the instructions `gone`
and without the modules `dead` and theirs. It holds from removal to removal
(`Cut.removed`, `Cut.moduleRemoved`), and up to the order in which the places of the modules are
used again, `q` does not depend on the order of the removals (**`Cut.unique`**).
-/

namespace OffloadFusion

/-- The instruction without some of its consumers. -/
def Instruction.without (inst : Instruction) (gone : List InstrId) : Instruction :=
  { inst with consumers := inst.consumers.filter (· ∉ gone) }

@[simp] theorem Instruction.inputs_without (inst : Instruction) (gone : List InstrId) :
    (inst.without gone).inputs = inst.inputs := rfl

@[simp] theorem Instruction.owner_without (inst : Instruction) (gone : List InstrId) :
    (inst.without gone).owner = inst.owner := rfl

theorem Instruction.withoutConsumer_without (inst : Instruction) (gone : List InstrId)
    (c : InstrId) : (inst.without gone).withoutConsumer c = inst.without (c :: gone) := by
  simp [without, withoutConsumer, List.filter_filter, not_or]

theorem Instruction.without_cons_of_notMem {inst : Instruction} {c : InstrId}
    (h : c ∉ inst.consumers) (gone : List InstrId) :
    inst.without (c :: gone) = inst.without gone := by
  refine congrArg (fun consumers => { inst with consumers }) (List.filter_congr fun d hd => ?_)
  have hne : d ≠ c := fun he => h (he ▸ hd)
  simp [hne]

theorem Instruction.without_congr {gone gone' : List InstrId} (h : ∀ i, i ∈ gone' ↔ i ∈ gone)
    (inst : Instruction) : inst.without gone' = inst.without gone := by
  simp only [without, h]

/-- The module without some of its instructions. -/
def Module.without (module : Module) (gone : List InstrId) : Module :=
  { module with body := module.body.filter (· ∉ gone) }

/-- Arenas that give the next number and all values alike are the same. -/
theorem Arena.ext {α : Type} {a b : Arena α} (hnext : a.next = b.next)
    (hget : ∀ i, a.get? i = b.get? i) : a = b := by
  obtain ⟨as⟩ := a
  obtain ⟨bs⟩ := b
  refine congrArg Arena.mk (Array.ext hnext fun i hi hi' => ?_)
  have h := hget i
  rwa [get?, get?, Array.getElem?_eq_getElem hi, Array.getElem?_eq_getElem hi'] at h

namespace Program

variable {p q r : Program} {i j c : InstrId} {m k : ModuleId} {inst : Instruction}
  {module : Module} {gone gone' : List InstrId} {dead dead' : List ModuleId} {n : Nat}

/-! ## What an erasure leaves alone -/

/-- Only instructions change, and none is added. -/
def SameRest (p q : Program) : Prop :=
  q.modules = p.modules ∧ q.names = p.names ∧ q.freeSlots = p.freeSlots ∧
    q.instructions.next = p.instructions.next

theorem SameRest.trans (h : SameRest p q) (h' : SameRest q r) : SameRest p r :=
  ⟨h'.1.trans h.1, h'.2.1.trans h.2.1, h'.2.2.1.trans h.2.2.1, h'.2.2.2.trans h.2.2.2⟩

theorem sameRest_foldl {α : Type} {f : Program → α → Program} (hf : ∀ p a, SameRest p (f p a))
    (as : List α) (p : Program) : SameRest p (as.foldl f p) := by
  induction as generalizing p with
  | nil => exact ⟨rfl, rfl, rfl, rfl⟩
  | cons a as ih => exact (hf p a).trans (ih (f p a))

theorem sameRest_dropConsumer (p : Program) (x c : InstrId) : SameRest p (p.dropConsumer x c) := by
  unfold dropConsumer
  split
  · exact ⟨rfl, rfl, rfl, rfl⟩
  · exact ⟨rfl, rfl, rfl, Array.size_modify⟩

theorem sameRest_eraseInstr (p : Program) (i : InstrId) : SameRest p (p.eraseInstr i) := by
  unfold eraseInstr
  split
  · exact ⟨rfl, rfl, rfl, rfl⟩
  · refine SameRest.trans ?_ (sameRest_foldl (fun p x => p.sameRest_dropConsumer x i) _ _)
    exact ⟨rfl, rfl, rfl, Array.size_setIfInBounds⟩

/-! ## Cuts -/

/-- Some instructions are gone, and some modules with theirs; everything else is as it was. -/
structure Cut (gone : List InstrId) (dead : List ModuleId) (p q : Program) : Prop where
  instr? : ∀ i, q.instr? i =
    ((p.instr? i).filter fun inst => i ∉ gone ∧ inst.owner ∉ dead).map (·.without gone)
  module? : ∀ m, q.module? m = if m ∈ dead then none else (p.module? m).map (·.without gone)
  names : q.names = p.names.filter fun entry =>
    ∀ m ∈ dead, ∀ module ∈ p.module? m, entry.1 ≠ module.name
  /-- The places of the modules are used again, the last one first. -/
  freeSlots : q.freeSlots = (dead.filterMap fun m => (p.module? m).map Module.slot) ++ p.freeSlots
  nextInstr : q.instructions.next = p.instructions.next
  nextModule : q.modules.next = p.modules.next

namespace Cut

theorem refl (p : Program) : Cut [] [] p p := by
  refine ⟨fun i => ?_, fun m => ?_, by simp, by simp, rfl, rfl⟩
  · cases p.instr? i <;> simp [Instruction.without, Option.filter]
  · cases p.module? m <;> simp [Module.without]

theorem instr?_eq_some (h : Cut gone dead p q) : q.instr? i = some inst ↔
    ∃ a, p.instr? i = some a ∧ i ∉ gone ∧ a.owner ∉ dead ∧ a.without gone = inst := by
  simp only [h.instr?, Option.map_eq_some_iff, Option.filter_eq_some_iff, decide_eq_true_eq,
    and_assoc]

theorem instr?_eq_none (h : Cut gone dead p q) (hi : p.instr? i = some inst) :
    q.instr? i = none ↔ i ∈ gone ∨ inst.owner ∈ dead := by
  rw [h.instr?, hi, Option.map_eq_none_iff, Option.filter_eq_none_iff]
  simp only [Option.some.injEq, forall_eq', decide_eq_true_eq, not_and_or, not_not]

theorem module?_eq_some (h : Cut gone dead p q) : q.module? m = some module ↔
    m ∉ dead ∧ ∃ a, p.module? m = some a ∧ a.without gone = module := by
  rw [h.module?]
  split <;> simp_all

theorem removed (h : Cut gone dead p q) (hp : p.Linked) (hq : q.Linked)
    (hi : q.instr? i = some inst) (hloc : q.locate i = .ok (m, n)) :
    Cut (i :: gone) dead p (q.removed i m n) := by
  obtain ⟨a, ha, hgone, howner, rfl⟩ := h.instr?_eq_some.mp hi
  have hrest := sameRest_eraseInstr (q.modifyBody m fun body => body.eraseIdx n) i
  refine ⟨fun j => ?_, fun k => ?_, hrest.2.1.trans h.names, hrest.2.2.1.trans h.freeSlots,
    hrest.2.2.2.trans h.nextInstr, ?_⟩
  · rw [instr?_removed hi, h.instr?]
    by_cases hij : i = j
    · subst hij
      rw [if_pos rfl]
      cases p.instr? i <;> simp
    · rw [if_neg hij]
      cases hj : p.instr? j with
      | none => rfl
      | some b =>
        by_cases hkept : j ∉ gone ∧ b.owner ∉ dead
        · have hkept' : j ∉ i :: gone ∧ b.owner ∉ dead :=
            ⟨List.not_mem_cons_of_ne_of_not_mem (Ne.symm hij) hkept.1, hkept.2⟩
          rw [Option.filter_some, if_pos (decide_eq_true hkept), Option.filter_some,
            if_pos (decide_eq_true hkept'), Option.map_some, Option.map_some, Option.map_some,
            Option.some.injEq, Instruction.inputs_without]
          split
          · exact b.withoutConsumer_without gone i
          · next hnot =>
            refine (Instruction.without_cons_of_notMem (fun hc => hnot ?_) gone).symm
            obtain ⟨a', ha', hmem⟩ := (hp.mirrored hj).mp hc
            cases ha.symm.trans ha'
            exact hmem
        · have hkept' : ¬ (j ∉ i :: gone ∧ b.owner ∉ dead) := fun h =>
            hkept ⟨fun hj => h.1 (List.mem_cons_of_mem i hj), h.2⟩
          rw [Option.filter_some, if_neg (by simpa using hkept), Option.filter_some,
            if_neg (by simpa using hkept')]
          rfl
  · rw [module?_removed hq hi hloc, h.module?]
    split
    · rfl
    · rw [Option.map_map]
      congr 1
      funext module
      simp [Module.without, List.filter_filter, not_or]
  · refine (congrArg Arena.next hrest.1).trans (Eq.trans ?_ h.nextModule)
    exact Array.size_modify

theorem moduleRemoved (h : Cut gone dead p q) (hq : q.Linked) (hm : q.module? m = some module) :
    Cut gone (m :: dead) p (q.moduleRemoved m module) := by
  have hd := Dropped.of_moduleRemoved hq hm
  obtain ⟨hdead, a, ha, rfl⟩ := h.module?_eq_some.mp hm
  have hrest := sameRest_foldl sameRest_eraseInstr (a.without gone).body.reverse
    (q.delisted m (a.without gone))
  refine ⟨fun j => ?_, fun k => ?_, ?_, ?_, hrest.2.2.2.trans h.nextInstr, ?_⟩
  · rw [hd.instr?, h.instr?]
    cases hj : p.instr? j with
    | none => rfl
    | some b =>
      by_cases hkept : j ∉ gone ∧ b.owner ∉ dead
      · by_cases ho : b.owner = m <;> simp [Option.filter_some, hkept, ho]
      · have hkept' : ¬ (j ∉ gone ∧ b.owner ∉ m :: dead) := fun h =>
          hkept ⟨h.1, fun hb => h.2 (List.mem_cons_of_mem m hb)⟩
        simp only [Option.filter_some, hkept, hkept', decide_false]
        rfl
  · rw [hd.module?, h.module?]
    by_cases hk : k = m <;> simp [hk]
  · refine hrest.2.1.trans ?_
    rw [delisted, h.names, List.filter_filter]
    refine List.filter_congr fun entry _ => ?_
    simp [ha, Module.without]
  · refine hrest.2.2.1.trans ?_
    rw [delisted, h.freeSlots, List.filterMap_cons, ha]
    rfl
  · refine (congrArg Arena.next hrest.1).trans (Eq.trans ?_ h.nextModule)
    exact Array.size_setIfInBounds

/-- **A cut does not depend on the order of the removals**, up to the order in which the places of
the modules are used again. -/
theorem unique (h : Cut gone dead p q) (h' : Cut gone' dead' p r)
    (hgone : ∀ i, i ∈ gone' ↔ i ∈ gone) (hdead : dead'.Perm dead) :
    r = { q with freeSlots := r.freeSlots } ∧ r.freeSlots.Perm q.freeSlots := by
  have hinstr : ∀ i, r.instr? i = q.instr? i := fun i => by
    simp only [h'.instr?, h.instr?, hgone, hdead.mem_iff, Instruction.without_congr hgone]
  have hmodule : ∀ m, r.module? m = q.module? m := fun m => by
    simp only [h'.module?, h.module?, hdead.mem_iff, Module.without, hgone]
  have hinstrs : r.instructions = q.instructions :=
    Arena.ext (h'.nextInstr.trans h.nextInstr.symm) fun i => hinstr ⟨i⟩
  have hmodules : r.modules = q.modules :=
    Arena.ext (h'.nextModule.trans h.nextModule.symm) fun m => hmodule ⟨m⟩
  have hnames : r.names = q.names := by
    rw [h'.names, h.names]
    simp only [hdead.mem_iff]
  refine ⟨?_, ?_⟩
  · rw [← hinstrs, ← hmodules, ← hnames]
  · rw [h'.freeSlots, h.freeSlots]
    exact (hdead.filterMap _).append_right _

end Cut

end Program

end OffloadFusion
