import OffloadFusion.Proofs.Order
import OffloadFusion.Proofs.Views

/-!
# Wired programs

A program is `Wired` if operands stand before their users in the same module and consumer lists are
inverse to operands. An instruction without operands and users need not be listed by a module, as
after a refused move. Types and references to modules play no part.

* `Wired.before_of_uses`, `Wired.before_of_used`: operands and users of what a module lists are in
  the same module, before it and after it.
* `Wired.of_links`: a change that touches neither operands nor consumers nor orders.
-/

namespace OffloadFusion.Program

/-- Operands stand before their users, and consumer lists mirror the operands. -/
structure Wired (p : Program) : Prop where
  /-- No module lists an instruction twice. -/
  nodup : ∀ m, (p.body m).Nodup
  /-- What a module lists is alive and belongs to it. -/
  owned : ∀ {m i}, i ∈ p.body m → ∃ inst, p.instr? i = some inst ∧ inst.owner = m
  /-- Operands are earlier instructions of the same module. -/
  ordered : ∀ {i inst x}, p.instr? i = some inst → x ∈ inst.inputs →
    Before (p.body inst.owner) x i
  /-- The consumers are the instructions that have it as an operand. -/
  mirrored : ∀ {i inst c}, p.instr? i = some inst → (c ∈ inst.consumers ↔ p.Uses c i)
  /-- No consumer is listed twice. -/
  distinct : ∀ {i inst}, p.instr? i = some inst → inst.consumers.Nodup

namespace Wired

variable {p q : Program} {i c x : InstrId} {m : ModuleId} {inst : Instruction}

theorem owner_unique (hw : p.Wired) (hi : p.instr? i = some inst) (hm : i ∈ p.body m) :
    inst.owner = m := by
  obtain ⟨inst', hi', rfl⟩ := hw.owned hm
  rw [hi] at hi'
  cases hi'
  rfl

theorem before_of_uses (hw : p.Wired) (hi : i ∈ p.body m) (hx : p.Uses i x) :
    Before (p.body m) x i := by
  obtain ⟨inst, hinst, hmem⟩ := hx
  have hbefore := hw.ordered hinst hmem
  rwa [hw.owner_unique hinst hi] at hbefore

theorem before_of_used (hw : p.Wired) (hi : i ∈ p.body m) (hc : p.Uses c i) :
    Before (p.body m) i c := by
  obtain ⟨cinst, hcinst, hmem⟩ := hc
  have hbefore := hw.ordered hcinst hmem
  obtain ⟨inst, hinst, ho⟩ := hw.owned hbefore.left_mem
  rwa [← ho, hw.owner_unique hinst hi] at hbefore

/-- A change that keeps operands, consumers and owners, and all orders. -/
theorem of_links (hw : p.Wired)
    (hi : ∀ j, (q.instr? j).map Instruction.links = (p.instr? j).map Instruction.links)
    (hb : ∀ m, q.body m = p.body m) : q.Wired := by
  have hsome : ∀ {j inst'}, q.instr? j = some inst' → ∃ inst, p.instr? j = some inst ∧
      inst'.inputs = inst.inputs ∧ inst'.consumers = inst.consumers ∧ inst'.owner = inst.owner :=
    fun h => Instruction.exists_of_links (hi _) h
  have hu : ∀ c x, q.Uses c x ↔ p.Uses c x := fun c x => uses_of_links (hi c)
  constructor
  · intro m
    rw [hb]
    exact hw.nodup m
  · intro m j hj
    obtain ⟨inst, h, rfl⟩ := hw.owned (hb m ▸ hj)
    obtain ⟨inst', h', -, -, ho⟩ := Instruction.exists_of_links (hi j).symm h
    exact ⟨inst', h', ho.symm⟩
  · intro j inst' x h hx
    obtain ⟨inst, hp, hin, -, ho⟩ := hsome h
    rw [ho, hb]
    exact hw.ordered hp (hin ▸ hx)
  · intro j inst' c h
    obtain ⟨inst, hp, -, hc, -⟩ := hsome h
    rw [hc, hu]
    exact hw.mirrored hp
  · intro j inst' h
    obtain ⟨inst, hp, -, hc, -⟩ := hsome h
    rw [hc]
    exact hw.distinct hp

end Wired

end OffloadFusion.Program
