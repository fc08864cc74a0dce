import OffloadFusion.Proofs.Dependence
import OffloadFusion.Proofs.Freshness

/-!
# Types below an instruction

`Edit.refreshType i` infers the type of `i` again and then follows consumers as long as types
change. If the other types of the module are the inferred ones (`Disturbed m i p`), it changes
nothing but types of what depends on `i`, and every instruction with a type that is not the
inferred one stays on the stack (`Queued m i p`). So a run that succeeds leaves only inferred types
behind (`Disturbed.refreshType_ok`).

* `RetypedBelow i p q`: a change of nothing but types of what depends on `i`. What is inferred then
  is up to the types of the operands (`RetypedBelow.infer`).
-/

namespace OffloadFusion.Program

variable {p q r : Program} {i j x : InstrId} {m k : ModuleId} {a : Instruction} {op : Op}
  {inputs stack : List InstrId} {modules : List ModuleId} {type : ValueType} {u : Unit}

theorem Wired.mem_body_of_dependsOn (hw : p.Wired) (hi : i ∈ p.body m) (hd : p.DependsOn i j) :
    j ∈ p.body m := by
  induction hd with
  | refl => exact hi
  | tail _ hu ih => exact (hw.before_of_used ih hu).right_mem

theorem Linked.mem_body_of_dependsOn (hl : p.Linked) (hi : i ∈ p.body m) (hd : p.DependsOn i j) :
    j ∈ p.body m := hl.wired.mem_body_of_dependsOn hi hd

/-! ## Changes of types -/

namespace Retyped

theorem symm (h : Retyped p q) : Retyped q p :=
  ⟨fun j => (h.untyped j).symm, fun m => (h.module? m).symm, h.names.symm⟩

theorem instr? (h : Retyped p q) (hj : p.instr? j = some a) :
    q.instr? j = some { a with type := q.typeAt j } := by
  obtain ⟨b, hb, hop, hin, hmodules, hcons, ho⟩ :=
    Instruction.exists_of_untyped (h.untyped j).symm hj
  rw [typeAt_eq ⟨b, hb, rfl⟩, hb, hop, hin, hmodules, hcons, ho]

theorem instr?_eq (h : Retyped p q) (ht : q.typeAt j = p.typeAt j) : q.instr? j = p.instr? j := by
  cases hj : p.instr? j with
  | none => simpa [hj] using h.untyped j
  | some a => rw [h.instr? hj, ht, typeAt_eq ⟨a, hj, rfl⟩]

theorem hasType (h : Retyped p q) (he : q.typeAt x = p.typeAt x) (ht : p.HasType x type) :
    q.HasType x type := by
  obtain ⟨a, ha, rfl⟩ := ht
  exact ⟨a, (h.instr?_eq he).trans ha, rfl⟩

theorem dependsOn (h : Retyped p q) : q.DependsOn i j ↔ p.DependsOn i j := by
  simp only [DependsOn, h.uses]

end Retyped

theorem typeAt_retype (hj : q.instr? j = some a) (x : InstrId) :
    (q.modifyInstr j fun inst => { inst with type }).typeAt x =
      if x = j then type else q.typeAt x := by
  rw [typeAt, instr?_modifyInstr]
  by_cases hx : x = j
  · subst hx
    rw [if_pos rfl, if_pos rfl, hj]
    rfl
  · rw [if_neg (Ne.symm hx), if_neg hx, typeAt]

/-- The programs differ in the types of what depends on `i` only. -/
structure RetypedBelow (i : InstrId) (p q : Program) : Prop extends Retyped p q where
  kept : ∀ {j}, ¬ p.DependsOn i j → q.instr? j = p.instr? j

namespace RetypedBelow

theorem refl (i : InstrId) (p : Program) : RetypedBelow i p p := ⟨.refl p, fun _ => rfl⟩

theorem modifyInstr (h : RetypedBelow i p q) (hd : p.DependsOn i j) (type : ValueType) :
    RetypedBelow i p (q.modifyInstr j fun inst => { inst with type }) := by
  refine ⟨h.toRetyped.trans (.modifyInstr q j type), fun {k} hk => ?_⟩
  rw [instr?_modifyInstr, if_neg, h.kept hk]
  rintro rfl
  exact hk hd

theorem typeAt_eq (h : RetypedBelow i p q) (hj : ¬ p.DependsOn i j) : q.typeAt j = p.typeAt j := by
  rw [typeAt, h.kept hj, typeAt]

variable (hw : p.Wired) (hi : i ∈ p.body m) (hq : RetypedBelow i p q) (hr : RetypedBelow i p r)

include hw hi hq hr

theorem signature {s : Signature} (hk : k ≠ m) (hs : q.signature k = .ok s) :
    r.signature k = .ok s := by
  refine signature_of_sameCore (hq.wired hw) ((hr.module? k).trans (hq.module? k).symm)
    (fun j hj => ?_) hs
  have hn : ¬ p.DependsOn i j := fun hd => by
    obtain ⟨b, hb, rfl⟩ := hw.owned (hq.body k ▸ hj)
    exact hk (hw.owner_unique hb (hw.mem_body_of_dependsOn hi hd))
  rw [SameCore, hq.kept hn, hr.kept hn]

/-- **What is inferred is up to the types of the operands.** -/
theorem infer (hmodules : m ∉ modules) (htypes : ∀ x ∈ inputs, r.typeAt x = q.typeAt x)
    (h : q.infer op inputs modules = .ok type) : r.infer op inputs modules = .ok type := by
  have hqr : Retyped q r := hq.toRetyped.symm.trans hr.toRetyped
  exact infer_keep (fun x hx t ht => hqr.hasType (htypes x hx) ht)
    (fun k hk s hs => hq.signature hw hi hr (fun he => hmodules (he ▸ hk)) hs) h

end RetypedBelow

/-! ## Inferring again -/

/-- In the module `m` of a wired program, whose instructions do not carry it, the types are the
inferred ones but for that of `i`. -/
structure Disturbed (m : ModuleId) (i : InstrId) (p : Program) : Prop where
  wired : p.Wired
  mem : i ∈ p.body m
  spares : ∀ {j}, j ∈ p.body m → p.Spares m j
  fresh : ∀ {j}, j ∈ p.body m → j ≠ i → p.Fresh j

/-- What changed since `p` are types of what depends on `i`, and the types of the module are the
inferred ones but for those of the instructions on the stack. -/
structure Queued (m : ModuleId) (i : InstrId) (p : Program) (stack : List InstrId) (q : Program) :
    Prop extends RetypedBelow i p q where
  inside : ∀ {j}, j ∈ stack → p.DependsOn i j
  fresh : ∀ {j}, j ∈ p.body m → j ∉ stack → q.Fresh j

namespace Queued

theorem mono {stack' : List InstrId} (h : Queued m i p stack q) (hsub : stack ⊆ stack')
    (hin : ∀ {j}, j ∈ stack' → p.DependsOn i j) : Queued m i p stack' q :=
  ⟨h.toRetypedBelow, hin, fun hj hn => h.fresh hj fun hmem => hn (hsub hmem)⟩

theorem settle (h : Queued m i p (j :: stack) q) (hj : q.instr? j = some a)
    (ht : q.infer a.op a.inputs a.modules = .ok a.type) : Queued m i p stack q := by
  refine ⟨h.toRetypedBelow, fun hk => h.inside (List.mem_cons_of_mem j hk), fun {k} hk hn => ?_⟩
  by_cases hkj : k = j
  · subst hkj
    intro b hb
    cases hj.symm.trans hb
    exact ht
  · exact h.fresh hk (List.not_mem_cons_of_ne_of_not_mem hkj hn)

/-- What is not on the stack has the type that is inferred for it. -/
theorem infer_ok (h : Queued m i p stack q) (hj : p.instr? j = some a) (hmem : j ∈ p.body m)
    (hn : j ∉ stack) : q.infer a.op a.inputs a.modules = .ok (q.typeAt j) :=
  h.fresh hmem hn _ (h.instr? hj)

end Queued

namespace Disturbed

variable (h : Disturbed m i p)

include h

theorem queued : Queued m i p [i] p := by
  refine ⟨.refl i p, fun hj => ?_, fun hj hn => h.fresh hj fun he => hn (he ▸ List.mem_cons_self)⟩
  rw [List.mem_singleton.mp hj]
  exact .refl

theorem mem_body (hd : p.DependsOn i j) : j ∈ p.body m := h.wired.mem_body_of_dependsOn h.mem hd

theorem spares_of_retyped (hr : Retyped p q) (hj : j ∈ p.body m) : q.Spares m j := by
  intro b hb
  obtain ⟨a, ha, -⟩ := h.wired.owned hj
  cases (hr.instr? ha).symm.trans hb
  exact h.spares hj a ha

/-- An instruction gets its inferred type; then its consumers may have other ones. -/
theorem queued_retype (hq : Queued m i p (j :: stack) q) (hj : q.instr? j = some a)
    (ht : q.infer a.op a.inputs a.modules = .ok type) :
    Queued m i p (a.consumers.reverse ++ stack)
      (q.modifyInstr j fun inst => { inst with type }) := by
  have hd := hq.inside List.mem_cons_self
  have hwq := hq.wired h.wired
  have hr := hq.toRetypedBelow.modifyInstr hd type
  refine ⟨hr, fun {c} hc => ?_, fun {k} hk hn b hb => ?_⟩
  · obtain hc | hc := List.mem_append.mp hc
    · exact hd.tail (hq.uses.mp ((hwq.mirrored hj).mp (List.mem_reverse.mp hc)))
    · exact hq.inside (List.mem_cons_of_mem j hc)
  · rw [List.mem_append, List.mem_reverse, not_or] at hn
    have hspares := h.spares_of_retyped hr.toRetyped hk b hb
    -- no operand of what is off the stack has another type than before
    have hkeep : ∀ x ∈ b.inputs, (q.modifyInstr j fun inst => { inst with type }).typeAt x =
        q.typeAt x := fun x hx => by
      have huse : q.Uses k x := (Retyped.modifyInstr q j type).uses.mp ⟨b, hb, hx⟩
      rw [typeAt_retype hj, if_neg]
      rintro rfl
      exact hn.1 ((hwq.mirrored hj).mpr huse)
    refine hq.toRetypedBelow.infer h.wired h.mem hr hspares hkeep ?_
    rw [instr?_modifyInstr] at hb
    split at hb
    · next hkj =>
      subst hkj
      rw [hj] at hb
      cases hb
      exact ht
    · next hkj =>
      exact hq.fresh hk (List.not_mem_cons_of_ne_of_not_mem (Ne.symm hkj) hn.2) b hb

theorem roundInvariant : Edit.RoundInvariant (Queued m i p) :=
  ⟨fun hq hj ht => hq.settle hj ht, fun hq hj ht => h.queued_retype hq hj ht⟩

/-- **A run that succeeds leaves the inferred types behind.** -/
theorem refreshType_ok (hok : Edit.refreshType i p = .ok u q) : Queued m i p [] q :=
  h.roundInvariant.refreshType_ok h.queued hok

end Disturbed

/-- In the module of `i` in a linked program, all types but that of `i` are the inferred ones. -/
structure Refreshable (m : ModuleId) (i : InstrId) (p : Program) : Prop where
  linked : p.Linked
  mem : i ∈ p.body m
  spares : ∀ {j}, j ∈ p.body m → p.Spares m j
  fresh : ∀ {j}, j ∈ p.body m → j ≠ i → p.Fresh j

namespace Refreshable

variable (h : Refreshable m i p)

include h

theorem disturbed : Disturbed m i p := ⟨h.linked.wired, h.mem, h.spares, h.fresh⟩

theorem refreshType_ok (hok : Edit.refreshType i p = .ok u q) : Queued m i p [] q :=
  h.disturbed.refreshType_ok hok

end Refreshable

end OffloadFusion.Program
