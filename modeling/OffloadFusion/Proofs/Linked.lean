import OffloadFusion.Proofs.Wired

/-!
# Linked programs

A program is `Linked` if its lists fit its arena: each live instruction stands once in the order of
its module and nothing else does, operands come first, and consumer lists are inverse to operands.
So it is a wired program in which every live instruction is listed (`Linked.wired`).

Every single change keeps this:

* `Linked.insert`: a new instruction after its operands;
* `Linked.setOperands`: other operands for an instruction, from before it;
* `Linked.remove`: the end of an instruction that nothing uses;
* `Linked.removeModule`: the end of a module with all of its instructions;
* `Linked.of_links`: a change that touches neither operands nor consumers nor orders.
-/

namespace OffloadFusion.Program

/-- The lists of a program fit its arena. -/
structure Linked (p : Program) : Prop where
  /-- No module lists an instruction twice. -/
  nodup : ∀ m, (p.body m).Nodup
  /-- What a module lists is alive and belongs to it. -/
  owned : ∀ {m i}, i ∈ p.body m → ∃ inst, p.instr? i = some inst ∧ inst.owner = m
  /-- What is alive is listed by the module that it belongs to. -/
  listed : ∀ {i inst}, p.instr? i = some inst → i ∈ p.body inst.owner
  /-- Operands are earlier instructions of the same module. -/
  ordered : ∀ {i inst x}, p.instr? i = some inst → x ∈ inst.inputs →
    Before (p.body inst.owner) x i
  /-- The consumers are the instructions that have it as an operand. -/
  mirrored : ∀ {i inst c}, p.instr? i = some inst → (c ∈ inst.consumers ↔ p.Uses c i)
  /-- No consumer is listed twice. -/
  distinct : ∀ {i inst}, p.instr? i = some inst → inst.consumers.Nodup

namespace Linked

variable {p q : Program} {i c x : InstrId} {m : ModuleId} {inst : Instruction} {module : Module}

theorem owner_alive (hl : p.Linked) (hi : p.instr? i = some inst) :
    ∃ module, p.module? inst.owner = some module ∧ i ∈ module.body := by
  obtain ⟨module, hm, hb⟩ := module?_of_mem_body (hl.listed hi)
  exact ⟨module, hm, hb ▸ hl.listed hi⟩

theorem wired (hl : p.Linked) : p.Wired :=
  ⟨hl.nodup, hl.owned, hl.ordered, hl.mirrored, hl.distinct⟩

theorem owner_unique (hl : p.Linked) (hi : p.instr? i = some inst) (hm : i ∈ p.body m) :
    inst.owner = m := hl.wired.owner_unique hi hm

theorem operand (hl : p.Linked) (hi : p.instr? i = some inst) (hx : x ∈ inst.inputs) :
    ∃ xinst, p.instr? x = some xinst ∧ xinst.owner = inst.owner :=
  hl.owned (hl.ordered hi hx).left_mem

theorem before_of_uses (hl : p.Linked) (hi : i ∈ p.body m) (hx : p.Uses i x) :
    Before (p.body m) x i := hl.wired.before_of_uses hi hx

theorem mem_body_of_uses (hl : p.Linked) (hi : i ∈ p.body m) (hx : p.Uses i x) : x ∈ p.body m :=
  (hl.before_of_uses hi hx).left_mem

theorem mem_body_of_used (hl : p.Linked) (hx : x ∈ p.body m) (h : p.Uses i x) : i ∈ p.body m :=
  (hl.wired.before_of_used hx h).right_mem

theorem operand_ne (hl : p.Linked) (hi : p.instr? i = some inst) (hx : x ∈ inst.inputs) : x ≠ i :=
  (hl.ordered hi hx).ne (hl.nodup _)

theorem consumer (hl : p.Linked) (hi : p.instr? i = some inst) (hc : c ∈ inst.consumers) :
    ∃ cinst, p.instr? c = some cinst ∧ i ∈ cinst.inputs ∧ cinst.owner = inst.owner := by
  obtain ⟨cinst, h, hx⟩ := (hl.mirrored hi).mp hc
  refine ⟨cinst, h, hx, ?_⟩
  obtain ⟨inst', hi', ho⟩ := hl.operand h hx
  rw [hi] at hi'
  cases hi'
  exact ho.symm

theorem empty : Program.empty.Linked := by
  have hi : ∀ i, Program.empty.instr? i = none := fun i => by simp [Program.empty, instr?]
  have hb : ∀ m, Program.empty.body m = [] := fun m => by
    simp only [body, module?, Program.empty, Arena.get?_add]
    split <;> simp
  constructor <;> intros <;> simp_all

/-- A change that keeps operands, consumers and owners, and all orders. -/
theorem of_links (hl : p.Linked)
    (hi : ∀ j, (q.instr? j).map Instruction.links = (p.instr? j).map Instruction.links)
    (hb : ∀ m, q.body m = p.body m) : q.Linked := by
  refine { hl.wired.of_links hi hb with listed := fun {j inst'} h => ?_ }
  obtain ⟨inst, hp, -, -, ho⟩ := Instruction.exists_of_links (hi j) h
  rw [ho, hb]
  exact hl.listed hp

end Linked

variable {p q : Program} {i c x : InstrId} {m : ModuleId} {inst : Instruction} {module : Module}
  {n : Nat}

/-! ## Insertions -/

theorem mem_body_inserted (hm : p.module? m = some module) (hn : n ≤ module.body.length)
    {k : ModuleId} {j : InstrId} :
    j ∈ (p.inserted m n inst).body k ↔ (m = k ∧ j = p.nextId) ∨ j ∈ p.body k := by
  rw [body_inserted hm]
  by_cases h : m = k
  · subst h
    rw [if_pos rfl, body_of_module? hm, List.mem_insertIdx hn]
    simp
  · simp [h]

theorem uses_inserted (hx : p.nextId ∉ inst.inputs) {d y : InstrId} :
    (p.inserted m n inst).Uses d y ↔ (d = p.nextId ∧ y ∈ inst.inputs) ∨ p.Uses d y := by
  have hi := instr?_inserted (m := m) (n := n) hx
  by_cases h : d = p.nextId
  · subst h
    simp [Uses, hi, instr?_nextId]
  · have huses : (p.inserted m n inst).Uses d y ↔ p.Uses d y := by
      refine uses_map (f := fun q => if d ∈ inst.inputs then q.withConsumer p.nextId else q)
        (by rw [hi, if_neg h]) fun q => ?_
      split <;> simp
    simp [huses, h]

theorem exists_of_inserted {inst' : Instruction} {j : InstrId} (hx : p.nextId ∉ inst.inputs)
    (hj : j ≠ p.nextId) (h : (p.inserted m n inst).instr? j = some inst') :
    ∃ q, p.instr? j = some q ∧ inst'.inputs = q.inputs ∧ inst'.owner = q.owner ∧
      inst' = if j ∈ inst.inputs then q.withConsumer p.nextId else q := by
  rw [instr?_inserted hx, if_neg hj, Option.map_eq_some_iff] at h
  obtain ⟨q, hq, rfl⟩ := h
  refine ⟨q, hq, ?_, ?_, rfl⟩ <;> split <;> simp

namespace Linked

/-- **A new instruction after its operands.** -/
theorem insert (hl : p.Linked) (hm : p.module? m = some module) (hn : n ≤ module.body.length)
    (hin : ∀ x ∈ inst.inputs, x ∈ module.body.take n) (hc : inst.consumers = [])
    (ho : inst.owner = m) : (p.inserted m n inst).Linked := by
  have hbm : p.body m = module.body := body_of_module? hm
  have hfresh : ∀ k, p.nextId ∉ p.body k := fun k hk => by
    obtain ⟨inst', h, -⟩ := hl.owned hk
    rw [instr?_nextId] at h
    cases h
  have hx : p.nextId ∉ inst.inputs := fun h => hfresh m (hbm ▸ List.mem_of_mem_take (hin _ h))
  have hi := instr?_inserted (m := m) (n := n) hx
  have hb : ∀ k, (p.inserted m n inst).body k =
      if m = k then (p.body k).insertIdx n p.nextId else p.body k := body_inserted hm
  constructor
  · intro k
    rw [hb]
    split
    · next h => subst h; exact nodup_insertIdx (hl.nodup _) (hfresh _) (hbm ▸ hn)
    · exact hl.nodup k
  · intro k j hj
    obtain ⟨rfl, rfl⟩ | hj := (mem_body_inserted hm hn).mp hj
    · exact ⟨inst, by rw [hi, if_pos rfl], ho⟩
    · obtain ⟨q, hq, rfl⟩ := hl.owned hj
      have hne : j ≠ p.nextId := fun h => hfresh _ (h ▸ hj)
      refine ⟨_, by rw [hi, if_neg hne, hq]; rfl, ?_⟩
      split
      · exact q.owner_withConsumer _
      · rfl
  · intro j inst' h
    by_cases hj : j = p.nextId
    · subst hj
      rw [hi, if_pos rfl] at h
      cases h
      exact (mem_body_inserted hm hn).mpr (.inl ⟨ho.symm, rfl⟩)
    · obtain ⟨q, hq, -, ho', -⟩ := exists_of_inserted hx hj h
      rw [ho']
      exact (mem_body_inserted hm hn).mpr (.inr (hl.listed hq))
  · intro j inst' y h hy
    by_cases hj : j = p.nextId
    · subst hj
      rw [hi, if_pos rfl] at h
      cases h
      rw [hb, if_pos ho.symm, ho, hbm]
      exact before_insertIdx_self (hin y hy) hn
    · obtain ⟨q, hq, hin', ho', -⟩ := exists_of_inserted hx hj h
      rw [hb, ho']
      have := hl.ordered hq (hin' ▸ hy)
      split
      · exact this.insertIdx n _
      · exact this
  · intro j inst' d h
    rw [uses_inserted hx]
    by_cases hj : j = p.nextId
    · subst hj
      rw [hi, if_pos rfl] at h
      cases h
      have : ¬ p.Uses d p.nextId := by
        rintro ⟨q, hq, hd⟩
        exact hfresh _ (hl.ordered hq hd).left_mem
      simp [hc, hx, this]
    · obtain ⟨q, hq, -, -, rfl⟩ := exists_of_inserted hx hj h
      by_cases hjin : j ∈ inst.inputs
      · rw [if_pos hjin, Instruction.mem_withConsumer, hl.mirrored hq]
        simp [hjin]
      · rw [if_neg hjin, hl.mirrored hq]
        simp [hjin]
  · intro j inst' h
    by_cases hj : j = p.nextId
    · subst hj
      rw [hi, if_pos rfl] at h
      cases h
      simp [hc]
    · obtain ⟨q, hq, -, -, rfl⟩ := exists_of_inserted hx hj h
      split
      · exact Instruction.nodup_withConsumer _ _ (hl.distinct hq)
      · exact hl.distinct hq

/-! ## Other operands -/

/-- **Other operands for an instruction.** `f` says what becomes of each instruction: only `i` gets
other operands, and only `i` moves in and out of consumer lists. -/
theorem setOperands (hl : p.Linked) (hi : p.instr? i = some inst) (inputs : List InstrId)
    {f : InstrId → Instruction → Instruction} (hb : ∀ m, q.body m = p.body m)
    (hs : ∀ j, q.instr? j = (p.instr? j).map (f j))
    (howner : ∀ j a, (f j a).owner = a.owner)
    (hinputs : ∀ j a, p.instr? j = some a →
      (f j a).inputs = if j = i then inputs else a.inputs)
    (hconsumers : ∀ j a c, p.instr? j = some a →
      (c ∈ (f j a).consumers ↔ if c = i then j ∈ inputs else c ∈ a.consumers))
    (hnodup : ∀ j a, a.consumers.Nodup → (f j a).consumers.Nodup)
    (hbefore : ∀ x ∈ inputs, Before (p.body inst.owner) x i) : q.Linked := by
  have hsome : ∀ {j a'}, q.instr? j = some a' → ∃ a, p.instr? j = some a ∧ f j a = a' :=
    fun {j a'} h => by rwa [hs, Option.map_eq_some_iff] at h
  have hu : ∀ c x, q.Uses c x ↔ if c = i then x ∈ inputs else p.Uses c x := by
    intro c x
    have huse : q.Uses c x ↔ ∃ a, p.instr? c = some a ∧ x ∈ (f c a).inputs := by
      constructor
      · rintro ⟨a', h, hx⟩
        obtain ⟨a, ha, rfl⟩ := hsome h
        exact ⟨a, ha, hx⟩
      · rintro ⟨a, ha, hx⟩
        exact ⟨f c a, by rw [hs, ha]; rfl, hx⟩
    rw [huse]
    split
    · next hc =>
      subst hc
      constructor
      · rintro ⟨a, ha, hx⟩
        rwa [hinputs c a ha, if_pos rfl] at hx
      · intro hx
        exact ⟨inst, hi, by rwa [hinputs c inst hi, if_pos rfl]⟩
    · next hc =>
      refine exists_congr fun a => and_congr_right fun ha => ?_
      rw [hinputs c a ha, if_neg hc]
  constructor
  · intro m
    rw [hb]
    exact hl.nodup m
  · intro m j hj
    obtain ⟨a, ha, rfl⟩ := hl.owned (hb m ▸ hj)
    exact ⟨f j a, by rw [hs, ha]; rfl, howner j a⟩
  · intro j a' h
    obtain ⟨a, ha, rfl⟩ := hsome h
    rw [howner, hb]
    exact hl.listed ha
  · intro j a' x h hx
    obtain ⟨a, ha, rfl⟩ := hsome h
    rw [howner, hb]
    rw [hinputs j a ha] at hx
    split at hx
    · next hj =>
      subst hj
      rw [hi] at ha
      cases ha
      exact hbefore x hx
    · exact hl.ordered ha hx
  · intro j a' c h
    obtain ⟨a, ha, rfl⟩ := hsome h
    rw [hconsumers j a c ha, hu]
    split
    · rfl
    · exact hl.mirrored ha
  · intro j a' h
    obtain ⟨a, ha, rfl⟩ := hsome h
    exact hnodup j a (hl.distinct ha)

/-! ## Removals -/

/-- **The end of an instruction that nothing uses.** -/
theorem remove (hl : p.Linked) (hi : p.instr? i = some inst) (hc : inst.consumers = [])
    (hb : ∀ m, q.body m = (p.body m).filter (· ≠ i))
    (hs : ∀ j, q.instr? j = if i = j then none else
      (p.instr? j).map fun a => if j ∈ inst.inputs then a.withoutConsumer i else a) :
    q.Linked := by
  have hunused : ∀ c, ¬ p.Uses c i := fun c hu => by
    have := (hl.mirrored hi).mpr hu
    simp [hc] at this
  have hsome : ∀ {j a'}, q.instr? j = some a' → j ≠ i ∧ ∃ a, p.instr? j = some a ∧
      a'.inputs = a.inputs ∧ a'.owner = a.owner ∧
        a' = if j ∈ inst.inputs then a.withoutConsumer i else a := by
    intro j a' h
    rw [hs] at h
    split at h
    · cases h
    · next hij =>
      rw [Option.map_eq_some_iff] at h
      obtain ⟨a, ha, rfl⟩ := h
      refine ⟨Ne.symm hij, a, ha, ?_, ?_, rfl⟩ <;> split <;> rfl
  have hu : ∀ c x, q.Uses c x ↔ c ≠ i ∧ p.Uses c x := by
    intro c x
    by_cases h : c = i
    · subst h
      simp [Uses, hs]
    · have : q.Uses c x ↔ p.Uses c x :=
        uses_map (f := fun a => if c ∈ inst.inputs then a.withoutConsumer i else a)
          (by rw [hs, if_neg (Ne.symm h)]) fun a => by split <;> rfl
      simp [this, h]
  constructor
  · intro m
    rw [hb]
    exact (hl.nodup m).filter _
  · intro m j hj
    rw [hb] at hj
    obtain ⟨hj, hne⟩ := List.mem_filter.mp hj
    obtain ⟨a, ha, rfl⟩ := hl.owned hj
    refine ⟨_, by rw [hs, if_neg (Ne.symm (of_decide_eq_true hne)), ha]; rfl, ?_⟩
    split <;> rfl
  · intro j a' h
    obtain ⟨hne, a, ha, -, ho, -⟩ := hsome h
    rw [hb, ho]
    exact List.mem_filter.mpr ⟨hl.listed ha, decide_eq_true hne⟩
  · intro j a' x h hx
    obtain ⟨hne, a, ha, hin, ho, -⟩ := hsome h
    rw [hin] at hx
    rw [hb, ho]
    have hxi : x ≠ i := by
      rintro rfl
      exact hunused j ⟨a, ha, hx⟩
    exact (hl.ordered ha hx).filter (decide_eq_true hxi) (decide_eq_true hne)
  · intro j a' c h
    obtain ⟨-, a, ha, -, -, rfl⟩ := hsome h
    rw [hu]
    have hself : p.Uses i j → j ∈ inst.inputs := by
      rintro ⟨inst', hi', hj⟩
      rw [hi] at hi'
      cases hi'
      exact hj
    split
    · rw [Instruction.mem_withoutConsumer, hl.mirrored ha, and_comm]
    · next hj =>
      rw [hl.mirrored ha]
      exact ⟨fun hc => ⟨by rintro rfl; exact hj (hself hc), hc⟩, And.right⟩
  · intro j a' h
    obtain ⟨-, a, ha, -, -, rfl⟩ := hsome h
    split
    · exact a.nodup_withoutConsumer _ (hl.distinct ha)
    · exact hl.distinct ha

/-- **A module with all of its instructions.** -/
theorem removeModule (hl : p.Linked) (hb : ∀ k, q.body k = if k = m then [] else p.body k)
    (hs : ∀ j, q.instr? j = if j ∈ p.body m then none else p.instr? j) : q.Linked := by
  have hsome : ∀ {j a}, q.instr? j = some a → j ∉ p.body m ∧ p.instr? j = some a ∧ a.owner ≠ m := by
    intro j a h
    rw [hs] at h
    split at h
    · cases h
    · next hj => exact ⟨hj, h, fun ho => hj (ho ▸ hl.listed h)⟩
  constructor
  · intro k
    rw [hb]
    split
    · exact List.nodup_nil
    · exact hl.nodup k
  · intro k j hj
    rw [hb] at hj
    split at hj
    · cases hj
    · next hk =>
      obtain ⟨a, ha, rfl⟩ := hl.owned hj
      exact ⟨a, by rw [hs, if_neg fun h => hk (hl.owner_unique ha h), ha], rfl⟩
  · intro j a h
    obtain ⟨-, ha, ho⟩ := hsome h
    rw [hb, if_neg ho]
    exact hl.listed ha
  · intro j a x h hx
    obtain ⟨-, ha, ho⟩ := hsome h
    rw [hb, if_neg ho]
    exact hl.ordered ha hx
  · intro j a c h
    obtain ⟨-, ha, ho⟩ := hsome h
    rw [hl.mirrored ha]
    constructor
    · rintro ⟨b, hc, hx⟩
      obtain ⟨a', ha', howner⟩ := hl.operand hc hx
      rw [ha] at ha'
      cases ha'
      exact ⟨b, by rw [hs, if_neg fun h => ho (howner.trans (hl.owner_unique hc h)), hc], hx⟩
    · rintro ⟨b, hc, hx⟩
      exact ⟨b, (hsome hc).2.1, hx⟩
  · intro j a h
    exact hl.distinct (hsome h).2.1

end Linked

end OffloadFusion.Program
