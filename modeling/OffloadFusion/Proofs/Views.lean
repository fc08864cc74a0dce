import OffloadFusion.Graph.Edit
import OffloadFusion.Proofs.Arena

/-!
# What single changes do to a program

A program is seen through `instr?`, `module?` and `body`. Each single change of a program is
described by what it does to these views.

* `Uses p c x`: the instruction `c` has `x` as an operand.
* `Instruction.core`: an instruction without its consumers, which is all that types depend on.
-/

namespace OffloadFusion

namespace Instruction

/-- The instruction with one more consumer. -/
def withConsumer (inst : Instruction) (c : InstrId) : Instruction :=
  if c ∈ inst.consumers then inst else { inst with consumers := inst.consumers ++ [c] }

/-- The instruction without a consumer. -/
def withoutConsumer (inst : Instruction) (c : InstrId) : Instruction :=
  { inst with consumers := inst.consumers.filter (· ≠ c) }

/-- The instruction without its consumers. -/
def core (inst : Instruction) : Instruction := { inst with consumers := [] }

section

variable (inst : Instruction) (c : InstrId)

@[simp] theorem core_withConsumer : (inst.withConsumer c).core = inst.core := by
  unfold withConsumer core; split <;> rfl

@[simp] theorem core_withoutConsumer : (inst.withoutConsumer c).core = inst.core := rfl

@[simp] theorem inputs_withConsumer : (inst.withConsumer c).inputs = inst.inputs := by
  unfold withConsumer; split <;> rfl

@[simp] theorem owner_withConsumer : (inst.withConsumer c).owner = inst.owner := by
  unfold withConsumer; split <;> rfl

@[simp] theorem inputs_withoutConsumer : (inst.withoutConsumer c).inputs = inst.inputs := rfl

@[simp] theorem owner_withoutConsumer : (inst.withoutConsumer c).owner = inst.owner := rfl

@[simp] theorem mem_withConsumer {d : InstrId} :
    d ∈ (inst.withConsumer c).consumers ↔ d = c ∨ d ∈ inst.consumers := by
  unfold withConsumer
  split
  · exact ⟨.inr, by rintro (rfl | h) <;> assumption⟩
  · simp [or_comm]

@[simp] theorem mem_withoutConsumer {d : InstrId} :
    d ∈ (inst.withoutConsumer c).consumers ↔ d ∈ inst.consumers ∧ d ≠ c := by
  simp [withoutConsumer]

theorem nodup_withConsumer (h : inst.consumers.Nodup) : (inst.withConsumer c).consumers.Nodup := by
  unfold withConsumer
  split
  · exact h
  · next hc => simpa [List.nodup_append, h] using fun d hd (he : d = c) => hc (he ▸ hd)

theorem nodup_withoutConsumer (h : inst.consumers.Nodup) :
    (inst.withoutConsumer c).consumers.Nodup := h.filter _

@[simp] theorem withConsumer_withConsumer :
    (inst.withConsumer c).withConsumer c = inst.withConsumer c := by
  have : c ∈ (inst.withConsumer c).consumers := by simp
  rw [withConsumer, if_pos this]

@[simp] theorem withoutConsumer_withoutConsumer :
    (inst.withoutConsumer c).withoutConsumer c = inst.withoutConsumer c := by
  simp [withoutConsumer, List.filter_filter]

end

/-- Instructions with the same core agree on everything that types depend on. -/
theorem core_eq_iff {a b : Instruction} : a.core = b.core ↔
    a.op = b.op ∧ a.inputs = b.inputs ∧ a.modules = b.modules ∧ a.type = b.type ∧
      a.owner = b.owner := by
  cases a; cases b; simp [core]

/-- What ties an instruction to others: its operands, its consumers and its module. -/
def links (inst : Instruction) : List InstrId × List InstrId × ModuleId :=
  (inst.inputs, inst.consumers, inst.owner)

theorem exists_of_links {a b : Option Instruction} {inst : Instruction}
    (h : a.map links = b.map links) (ha : a = some inst) :
    ∃ inst', b = some inst' ∧ inst.inputs = inst'.inputs ∧ inst.consumers = inst'.consumers ∧
      inst.owner = inst'.owner := by
  subst ha
  cases b with
  | none => cases h
  | some inst' => simpa [links] using h

/-- The instruction with no type. -/
def untyped (inst : Instruction) : Instruction := { inst with type := .tuple [] }

theorem exists_of_untyped {a b : Option Instruction} {inst : Instruction}
    (h : a.map untyped = b.map untyped) (ha : a = some inst) :
    ∃ inst', b = some inst' ∧ inst.op = inst'.op ∧ inst.inputs = inst'.inputs ∧
      inst.modules = inst'.modules ∧ inst.consumers = inst'.consumers ∧
      inst.owner = inst'.owner := by
  subst ha
  cases b with
  | none => cases h
  | some inst' => simpa [untyped] using h

theorem links_of_untyped {a b : Option Instruction} (h : a.map untyped = b.map untyped) :
    a.map links = b.map links := by
  have : links = links ∘ untyped := rfl
  rw [this, ← Option.map_map, h, Option.map_map]

end Instruction

namespace Program

variable (p : Program)

/-- The instruction `c` has `x` as an operand. -/
def Uses (c x : InstrId) : Prop := ∃ inst, p.instr? c = some inst ∧ x ∈ inst.inputs

theorem any_uses (c x : InstrId) :
    ((p.instr? c).any fun inst => decide (x ∈ inst.inputs)) = true ↔ p.Uses c x := by
  cases h : p.instr? c <;> simp [Uses, h]

instance (c x : InstrId) : Decidable (p.Uses c x) := decidable_of_iff _ (p.any_uses c x)

theorem uses_of_links {p q : Program} {c x : InstrId}
    (h : (q.instr? c).map Instruction.links = (p.instr? c).map Instruction.links) :
    q.Uses c x ↔ p.Uses c x := by
  constructor
  · rintro ⟨inst, hi, hx⟩
    obtain ⟨inst', hi', hin, -, -⟩ := Instruction.exists_of_links h hi
    exact ⟨inst', hi', hin ▸ hx⟩
  · rintro ⟨inst, hi, hx⟩
    obtain ⟨inst', hi', hin, -, -⟩ := Instruction.exists_of_links h.symm hi
    exact ⟨inst', hi', hin ▸ hx⟩

theorem uses_map {p q : Program} {c x : InstrId} {f : Instruction → Instruction}
    (h : q.instr? c = (p.instr? c).map f) (hf : ∀ inst, (f inst).inputs = inst.inputs) :
    q.Uses c x ↔ p.Uses c x := by
  rw [← any_uses, ← any_uses, h]
  cases p.instr? c <;> simp [hf]

theorem body_of_module? {p : Program} {m : ModuleId} {module : Module}
    (h : p.module? m = some module) : p.body m = module.body := by simp [body, h]

theorem module?_of_mem_body {p : Program} {m : ModuleId} {i : InstrId} (h : i ∈ p.body m) :
    ∃ module, p.module? m = some module ∧ module.body = p.body m := by
  unfold body at h ⊢
  cases hm : p.module? m with
  | none => simp [hm] at h
  | some module => exact ⟨module, rfl, by simp⟩

theorem alive_of_mem_body {p : Program} {m : ModuleId} {i : InstrId} (h : i ∈ p.body m) :
    (p.module? m).isSome := by
  obtain ⟨module, hm, -⟩ := module?_of_mem_body h
  rw [hm]
  rfl

theorem hasOp_iff {p : Program} {i : InstrId} {test : Op → Bool} :
    p.hasOp test i = true ↔ ∃ inst, p.instr? i = some inst ∧ test inst.op = true := by
  rw [hasOp, Option.any_eq_true]

theorem exists_literal {p : Program} {i : InstrId} (h : p.hasOp Op.isLiteral i = true) :
    ∃ inst t data, p.instr? i = some inst ∧ inst.op = .literal t data := by
  obtain ⟨inst, hi, hliteral⟩ := hasOp_iff.mp h
  cases hop : inst.op with
  | literal t data => exact ⟨inst, t, data, hi, hop⟩
  | _ => rw [hop] at hliteral; cases hliteral

/-! ## Instructions and orders -/

@[simp] theorem instr?_modifyInstr (i j : InstrId) (f : Instruction → Instruction) :
    (p.modifyInstr i f).instr? j = if i = j then (p.instr? j).map f else p.instr? j := by
  have h : i.index = j.index ↔ i = j := by cases i; cases j; simp
  simp only [modifyInstr, instr?, Arena.get?_modify, h]

@[simp] theorem module?_modifyInstr (i : InstrId) (f : Instruction → Instruction) (m : ModuleId) :
    (p.modifyInstr i f).module? m = p.module? m := rfl

@[simp] theorem body_modifyInstr (i : InstrId) (f : Instruction → Instruction) (m : ModuleId) :
    (p.modifyInstr i f).body m = p.body m := rfl

@[simp] theorem instr?_modifyBody (m : ModuleId) (f : List InstrId → List InstrId) (j : InstrId) :
    (p.modifyBody m f).instr? j = p.instr? j := rfl

@[simp] theorem module?_modifyBody (m n : ModuleId) (f : List InstrId → List InstrId) :
    (p.modifyBody m f).module? n = if m = n then
      (p.module? n).map fun module => { module with body := f module.body } else p.module? n := by
  have h : m.index = n.index ↔ m = n := by cases m; cases n; simp
  simp only [modifyBody, module?, Arena.get?_modify, h]

/-! ## Consumers -/

theorem instr?_addConsumer (i c j : InstrId) : (p.addConsumer i c).instr? j =
    (p.instr? j).map fun inst => if j = i then inst.withConsumer c else inst := by
  rw [addConsumer, instr?_modifyInstr]
  by_cases h : i = j
  · subst h; simp; rfl
  · simp [h, Ne.symm h]

theorem instr?_addConsumers (is : List InstrId) (c j : InstrId) : (p.addConsumers is c).instr? j =
    (p.instr? j).map fun inst => if j ∈ is then inst.withConsumer c else inst := by
  induction is generalizing p with
  | nil => simp [addConsumers]
  | cons i is ih =>
    have hstep : p.addConsumers (i :: is) c = (p.addConsumer i c).addConsumers is c := rfl
    rw [hstep, ih, instr?_addConsumer, Option.map_map]
    congr 1
    funext inst
    by_cases h : j = i <;> by_cases h' : j ∈ is <;> simp [h, h']

@[simp] theorem module?_addConsumers (is : List InstrId) (c : InstrId) (m : ModuleId) :
    (p.addConsumers is c).module? m = p.module? m := by
  induction is generalizing p with
  | nil => rfl
  | cons i is ih => exact ih (p.addConsumer i c)

@[simp] theorem body_addConsumers (is : List InstrId) (c : InstrId) (m : ModuleId) :
    (p.addConsumers is c).body m = p.body m := by simp [body]

@[simp] theorem names_addConsumers (is : List InstrId) (c : InstrId) :
    (p.addConsumers is c).names = p.names := by
  induction is generalizing p with
  | nil => rfl
  | cons i is ih => exact ih (p.addConsumer i c)

/-- A former operand loses the consumer, unless that still uses it. -/
theorem instr?_dropConsumer (i c j : InstrId) : (p.dropConsumer i c).instr? j =
    (p.instr? j).map fun inst => if j = i ∧ ¬ p.Uses c i then inst.withoutConsumer c else inst := by
  unfold dropConsumer
  by_cases h : p.Uses c i
  · rw [if_pos ((p.any_uses c i).mpr h)]
    simp [h]
  · rw [if_neg (mt (p.any_uses c i).mp h), instr?_modifyInstr]
    by_cases hj : i = j
    · subst hj; simp only [h, if_true, true_and, not_false_eq_true]; rfl
    · simp [hj, Ne.symm hj]

theorem uses_dropConsumer (i c d x : InstrId) : (p.dropConsumer i c).Uses d x ↔ p.Uses d x := by
  refine uses_map (p.instr?_dropConsumer i c d) fun inst => ?_
  split <;> rfl

theorem instr?_dropConsumers (is : List InstrId) (c j : InstrId) :
    (p.dropConsumers is c).instr? j = (p.instr? j).map fun inst =>
      if j ∈ is ∧ ¬ p.Uses c j then inst.withoutConsumer c else inst := by
  induction is generalizing p with
  | nil => simp [dropConsumers]
  | cons i is ih =>
    have hstep : p.dropConsumers (i :: is) c = (p.dropConsumer i c).dropConsumers is c := rfl
    rw [hstep, ih, instr?_dropConsumer, Option.map_map]
    congr 1
    funext inst
    simp only [uses_dropConsumer, List.mem_cons, Function.comp_apply]
    by_cases hu : p.Uses c j <;> by_cases h : j = i <;> by_cases h' : j ∈ is <;> simp_all

@[simp] theorem module?_dropConsumer (i c : InstrId) (m : ModuleId) :
    (p.dropConsumer i c).module? m = p.module? m := by
  unfold dropConsumer; split <;> rfl

@[simp] theorem module?_dropConsumers (is : List InstrId) (c : InstrId) (m : ModuleId) :
    (p.dropConsumers is c).module? m = p.module? m := by
  induction is generalizing p with
  | nil => rfl
  | cons i is ih => exact (ih (p.dropConsumer i c)).trans (p.module?_dropConsumer i c m)

@[simp] theorem body_dropConsumers (is : List InstrId) (c : InstrId) (m : ModuleId) :
    (p.dropConsumers is c).body m = p.body m := by simp [body]

@[simp] theorem names_dropConsumer (i c : InstrId) : (p.dropConsumer i c).names = p.names := by
  unfold dropConsumer; split <;> rfl

@[simp] theorem names_dropConsumers (is : List InstrId) (c : InstrId) :
    (p.dropConsumers is c).names = p.names := by
  induction is generalizing p with
  | nil => rfl
  | cons i is ih => exact (ih (p.dropConsumer i c)).trans (p.names_dropConsumer i c)

/-! ## Erasing -/

theorem instr?_erase (i j : InstrId) :
    ({ p with instructions := p.instructions.erase i.index } : Program).instr? j =
      if i = j then none else p.instr? j := by
  have h : i.index = j.index ↔ i = j := by cases i; cases j; simp
  simp only [instr?, Arena.get?_erase, h]

theorem instr?_eraseInstr {i : InstrId} {inst : Instruction} (hi : p.instr? i = some inst)
    (j : InstrId) : (p.eraseInstr i).instr? j = if i = j then none else
      (p.instr? j).map fun q => if j ∈ inst.inputs then q.withoutConsumer i else q := by
  have hu : ∀ x,
      ¬ ({ p with instructions := p.instructions.erase i.index } : Program).Uses i x := by
    rintro x ⟨q, hq, -⟩
    rw [instr?_erase, if_pos rfl] at hq
    cases hq
  rw [eraseInstr, hi]
  simp only [instr?_dropConsumers, instr?_erase, hu, not_false_eq_true, and_true]
  by_cases h : i = j <;> simp [h]

@[simp] theorem module?_eraseInstr (i : InstrId) (m : ModuleId) :
    (p.eraseInstr i).module? m = p.module? m := by
  unfold eraseInstr
  split
  · rfl
  · rw [module?_dropConsumers]; rfl

@[simp] theorem body_eraseInstr (i : InstrId) (m : ModuleId) :
    (p.eraseInstr i).body m = p.body m := by simp [body]

@[simp] theorem names_eraseInstr (i : InstrId) : (p.eraseInstr i).names = p.names := by
  unfold eraseInstr
  split
  · rfl
  · rw [names_dropConsumers]

/-! ## Types only -/

/-- The programs differ in the types of instructions only. -/
structure Retyped (p q : Program) : Prop where
  untyped : ∀ j, (q.instr? j).map Instruction.untyped = (p.instr? j).map Instruction.untyped
  module? : ∀ m, q.module? m = p.module? m
  names : q.names = p.names

namespace Retyped

variable {p} {q r : Program}

theorem refl (p : Program) : Retyped p p := ⟨fun _ => rfl, fun _ => rfl, rfl⟩

theorem trans (h : Retyped p q) (h' : Retyped q r) : Retyped p r :=
  ⟨fun j => (h'.untyped j).trans (h.untyped j), fun m => (h'.module? m).trans (h.module? m),
    h'.names.trans h.names⟩

theorem body (h : Retyped p q) (m : ModuleId) : q.body m = p.body m := by
  rw [Program.body, h.module?, Program.body]

theorem links (h : Retyped p q) (j : InstrId) :
    (q.instr? j).map Instruction.links = (p.instr? j).map Instruction.links :=
  Instruction.links_of_untyped (h.untyped j)

theorem uses (h : Retyped p q) {c x : InstrId} : q.Uses c x ↔ p.Uses c x :=
  uses_of_links (h.links c)

theorem modifyInstr (p : Program) (i : InstrId) (type : ValueType) :
    Retyped p (p.modifyInstr i fun inst => { inst with type }) := by
  refine ⟨fun j => ?_, fun _ => rfl, rfl⟩
  rw [instr?_modifyInstr]
  split
  · rw [Option.map_map]; rfl
  · rfl

end Retyped

/-! ## A new module -/

/-- The place that the next module gets, and the free places after that. -/
def nextPlace (p : Program) : Nat × List Nat :=
  match p.freeSlots with
  | slot :: rest => (slot, rest)
  | [] => (p.modules.count, [])

/-- The handle that the next module gets. -/
def nextModule (p : Program) : ModuleId := ⟨p.modules.next⟩

/-- The program with an empty module of a name. -/
def opened (p : Program) (name : String) : Program :=
  { p with
    modules := p.modules.add ⟨name, p.nextPlace.1, []⟩
    names := (name, p.nextModule) :: p.names
    freeSlots := p.nextPlace.2 }

theorem module?_nextModule : p.module? p.nextModule = none := by simp [module?, nextModule]

@[simp] theorem instr?_opened (name : String) (j : InstrId) :
    (p.opened name).instr? j = p.instr? j := rfl

theorem module?_opened (name : String) (m : ModuleId) : (p.opened name).module? m =
    if m = p.nextModule then some ⟨name, p.nextPlace.1, []⟩ else p.module? m := by
  have : m.index = p.modules.next ↔ m = p.nextModule := by cases m; simp [nextModule]
  simp only [module?, opened, Arena.get?_add, this]

@[simp] theorem body_opened (name : String) (m : ModuleId) :
    (p.opened name).body m = p.body m := by
  by_cases hm : m = p.nextModule
  · subst hm
    simp [body, module?_opened, module?_nextModule]
  · simp [body, module?_opened, hm]

/-! ## A new instruction -/

/-- The handle that the next instruction gets. -/
def nextId (p : Program) : InstrId := ⟨p.instructions.next⟩

/-- The program with a new instruction at a position of a module, which becomes a consumer of its
operands. -/
def inserted (p : Program) (m : ModuleId) (n : Nat) (inst : Instruction) : Program :=
  (({ p with instructions := p.instructions.add inst } : Program).addConsumers inst.inputs
    p.nextId).modifyBody m fun body => body.insertIdx n p.nextId

section

variable {p} {m : ModuleId} {n : Nat} {inst : Instruction}

theorem instr?_nextId (p : Program) : p.instr? p.nextId = none := by simp [instr?, nextId]

theorem instr?_inserted (hx : p.nextId ∉ inst.inputs) (j : InstrId) :
    (p.inserted m n inst).instr? j = if j = p.nextId then some inst else
      (p.instr? j).map fun q => if j ∈ inst.inputs then q.withConsumer p.nextId else q := by
  have h : ({ p with instructions := p.instructions.add inst } : Program).instr? j =
      if j = p.nextId then some inst else p.instr? j := by
    have : j.index = p.instructions.next ↔ j = p.nextId := by cases j; simp [nextId]
    simp only [instr?, Arena.get?_add, this]
  rw [inserted, instr?_modifyBody, instr?_addConsumers, h]
  by_cases hj : j = p.nextId
  · subst hj; simp [hx]
  · simp [hj]

theorem module?_inserted (k : ModuleId) : (p.inserted m n inst).module? k = if m = k then
    (p.module? k).map fun module => { module with body := module.body.insertIdx n p.nextId }
      else p.module? k := by
  rw [inserted, module?_modifyBody, module?_addConsumers]
  rfl

theorem body_inserted {module : Module} (hm : p.module? m = some module) (k : ModuleId) :
    (p.inserted m n inst).body k =
      if m = k then (p.body k).insertIdx n p.nextId else p.body k := by
  simp only [body, module?_inserted]
  by_cases h : m = k
  · subst h; simp [hm]
  · simp [h]

end

end Program

end OffloadFusion
