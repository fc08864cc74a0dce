import OffloadFusion.Proofs.Rewiring
import OffloadFusion.Proofs.Shapes
import OffloadFusion.Proofs.ValidEdits

/-!
# Types after a change of operands

Edits that change operands infer types again until all of them are fresh.

* `Shaped m τ p`: the types that `p` stores and infers agree with `τ` up to strides, where the
  module `m` is not carried.
* `Pending m τ stale p`: a shaped program whose instructions are fresh, up to some of the module `m`
  and those that carry `m`. `Pending.refreshType` says that inferring along a stack of stale
  instructions clears it.
* `Steady.replaceInstruction`, **`Steady.replaceWith`**: the edits end in a steady program.
-/

namespace OffloadFusion

/-- The part of an instruction that rewiring keeps. -/
def Instruction.outline (inst : Instruction) : Op × List ModuleId × ModuleId :=
  (inst.op, inst.modules, inst.owner)

theorem Instruction.exists_of_outline {a b : Option Instruction} {inst : Instruction}
    (h : a.map outline = b.map outline) (ha : a = some inst) :
    ∃ inst', b = some inst' ∧ inst.op = inst'.op ∧ inst.modules = inst'.modules ∧
      inst.owner = inst'.owner := by
  subst ha
  cases b with
  | none => cases h
  | some inst' => simpa [outline] using h

namespace Program

variable {p q r : Program} {i j c x old new : InstrId} {m k : ModuleId} {inst : Instruction}
  {op : Op} {inputs stale rest : List InstrId} {modules : List ModuleId} {type : ValueType}
  {τ : InstrId → ValueType} {u : Unit}

/-! ## What stays -/

theorem hasOp_of_outline
    (h : (q.instr? i).map Instruction.outline = (p.instr? i).map Instruction.outline)
    (test : Op → Bool) : q.hasOp test i = p.hasOp test i := by
  have hop : ∀ o : Option Instruction, (o.any fun inst => test inst.op) =
      ((o.map Instruction.outline).any fun outline => test outline.1) := fun o => by cases o <;> rfl
  rw [hasOp, hasOp, hop (q.instr? i), hop (p.instr? i), h]

/-- The programs have the same orders and the same operations. -/
structure Rewired (p q : Program) : Prop where
  module? : ∀ m, q.module? m = p.module? m
  outline : ∀ j, (q.instr? j).map Instruction.outline = (p.instr? j).map Instruction.outline

namespace Rewired

theorem refl (p : Program) : Rewired p p := ⟨fun _ => rfl, fun _ => rfl⟩

theorem trans (h : Rewired p q) (h' : Rewired q r) : Rewired p r :=
  ⟨fun m => (h'.module? m).trans (h.module? m), fun j => (h'.outline j).trans (h.outline j)⟩

theorem of_retyped (h : Retyped p q) : Rewired p q := by
  refine ⟨h.module?, fun j => ?_⟩
  have : Instruction.outline = Instruction.outline ∘ Instruction.untyped := rfl
  rw [this, ← Option.map_map, h.untyped, Option.map_map]

theorem body (h : Rewired p q) (m : ModuleId) : q.body m = p.body m := by
  rw [Program.body, h.module?, Program.body]

theorem exists_instr (h : Rewired p q) (hi : q.instr? i = some inst) :
    ∃ inst', p.instr? i = some inst' ∧ inst.op = inst'.op ∧ inst.modules = inst'.modules ∧
      inst.owner = inst'.owner := Instruction.exists_of_outline (h.outline i) hi

theorem free (h : Rewired p q) (hfree : p.Free m) : q.Free m := by
  intro i inst hi
  obtain ⟨inst', hi', -, hmodules, -⟩ := h.exists_instr hi
  exact hmodules ▸ hfree i inst' hi'

theorem framed (h : Rewired p q) (hl : q.Linked) (hp : p.Framed) : q.Framed := by
  refine { toLinked := hl, returns := fun hi hret => ?_, referenced := fun hi hk => ?_ }
  · obtain ⟨inst', hi', hop, -, ho⟩ := h.exists_instr hi
    rw [h.body, ho]
    exact hp.returns hi' (hop ▸ hret)
  · obtain ⟨inst', hi', -, hmodules, ho⟩ := h.exists_instr hi
    rw [h.module?, ho]
    exact hp.referenced hi' (hmodules ▸ hk)

end Rewired

/-- The operands are the same, or `new` stands in place of `old`. -/
structure Swaps (old new : InstrId) (p q : Program) : Prop where
  operands : ∀ {j a}, q.instr? j = some a → ∃ b, p.instr? j = some b ∧
    List.Forall₂ (fun x y => y = x ∨ (x = old ∧ y = new)) b.inputs a.inputs

namespace Swaps

theorem refl (p : Program) : Swaps old new p p :=
  ⟨fun hj => ⟨_, hj, List.forall₂_same.mpr fun _ _ => .inl rfl⟩⟩

theorem trans (h : Swaps old new p q) (h' : Swaps old new q r) : Swaps old new p r := by
  refine ⟨fun {j c} hj => ?_⟩
  obtain ⟨b, hb, hbc⟩ := h'.operands hj
  obtain ⟨a, ha, hab⟩ := h.operands hb
  refine ⟨a, ha, forall₂_comp (fun {x y z} hxy hyz => ?_) hab hbc⟩
  obtain rfl | ⟨rfl, rfl⟩ := hxy
  · exact hyz
  · obtain rfl | ⟨-, rfl⟩ := hyz <;> exact .inr ⟨rfl, rfl⟩

theorem of_retyped (h : Retyped p q) : Swaps old new p q := by
  refine ⟨fun {j b} hj => ?_⟩
  obtain ⟨a, ha, -, hin, -⟩ := Instruction.exists_of_untyped (h.untyped j) hj
  exact ⟨a, ha, hin ▸ List.forall₂_same.mpr fun _ _ => .inl rfl⟩

end Swaps

/-! ## Types up to strides -/

/-- The stored and the inferred types agree with `τ` up to strides. What an instruction that carries
the module infers does not matter. -/
structure Shaped (m : ModuleId) (τ : InstrId → ValueType) (p : Program) : Prop where
  stored : ∀ {i inst}, p.instr? i = some inst → (τ i).Alike inst.type
  inferred : ∀ {i inst types signatures type}, p.instr? i = some inst → m ∉ inst.modules →
    List.Forall₂ (fun x t => (τ x).Alike t) inst.inputs types →
    List.Forall₂ (fun k s => p.signature k = .ok s) inst.modules signatures →
    inst.op.inferType types signatures = .ok type → (τ i).Alike type

theorem Shaped.hasType (h : Shaped m τ p) (ht : p.HasType x type) : (τ x).Alike type := by
  obtain ⟨inst, hi, rfl⟩ := ht
  exact h.stored hi

theorem Shaped.infer (h : Shaped m τ p) (hi : p.instr? i = some inst) (hm : m ∉ inst.modules)
    (ht : p.infer inst.op inst.inputs inst.modules = .ok type) : (τ i).Alike type := by
  obtain ⟨types, signatures, htypes, hsigs, hinfer⟩ := infer_ok.mp ht
  exact h.inferred hi hm (forall₂_imp_of_mem htypes fun x _ t hx => h.hasType hx) hsigs hinfer

/-- The stored type of an instruction. -/
def typeAt (p : Program) (i : InstrId) : ValueType := ((p.instr? i).map (·.type)).getD (.tuple [])

theorem typeAt_eq (ht : p.HasType i type) : p.typeAt i = type := by
  obtain ⟨inst, hi, rfl⟩ := ht
  rw [typeAt, hi]
  rfl

theorem signatures_unique {ss ts : List Signature}
    (hs : List.Forall₂ (fun k s => p.signature k = .ok s) modules ss)
    (ht : List.Forall₂ (fun k s => p.signature k = .ok s) modules ts) : ss = ts := by
  rw [← Outcome.mapM_ok] at hs ht
  exact Except.ok.inj (hs.symm.trans ht)

theorem alike_of_infer {signatures : List Signature} {types : List ValueType} {type' : ValueType}
    (hinfer : p.infer op inputs modules = .ok type)
    (htypes : List.Forall₂ (fun x t => (p.typeAt x).Alike t) inputs types)
    (hsigs : List.Forall₂ (fun k s => p.signature k = .ok s) modules signatures)
    (h : op.inferType types signatures = .ok type') : type.Alike type' := by
  obtain ⟨types₀, signatures₀, htypes₀, hsigs₀, hinfer₀⟩ := infer_ok.mp hinfer
  cases signatures_unique hsigs hsigs₀
  refine op.inferType_alike ?_ hinfer₀ h
  refine forall₂_comp (fun {t₀ x t} hx hxt => ?_) htypes₀.flip htypes
  exact typeAt_eq hx ▸ hxt

theorem Steady.shaped (h : p.Steady (some m)) : Shaped m p.typeAt p := by
  refine ⟨fun {i inst} hi => ?_,
    fun {i inst types signatures type} hi hm htypes hsigs hinfer => ?_⟩
  · rw [typeAt_eq ⟨inst, hi, rfl⟩]
    exact .refl _
  · rw [typeAt_eq ⟨inst, hi, rfl⟩]
    have hspares : p.Spares m i := fun inst' hi' => by
      cases hi.symm.trans hi'
      exact hm
    exact alike_of_infer (h.fresh (sparesAny_some.mpr hspares) inst hi) htypes hsigs hinfer

/-- A change of one module after which no instruction has other operands, up to `τ`. -/
theorem Shaped.of_local (h : Shaped m τ p) (hloc : Local m q p) (hl : q.Linked)
    (hin : ∀ {j inst}, q.instr? j = some inst → ∃ inst', p.instr? j = some inst' ∧
      inst.op = inst'.op ∧ inst.modules = inst'.modules ∧ (τ j).Alike inst.type ∧
      ∀ types, List.Forall₂ (fun x t => (τ x).Alike t) inst.inputs types →
        List.Forall₂ (fun x t => (τ x).Alike t) inst'.inputs types) : Shaped m τ q := by
  refine ⟨fun hj => ?_, fun {j inst types signatures type} hj hm htypes hsigs hinfer => ?_⟩
  · obtain ⟨-, -, -, -, hty, -⟩ := hin hj
    exact hty
  · obtain ⟨inst', hj', hop, hmodules, -, hinputs⟩ := hin hj
    have hspares : q.Spares m j := fun a ha => by
      cases hj.symm.trans ha
      exact hm
    have hsigs' := forall₂_imp_of_mem hsigs (hloc.signatures hl (.inl hspares) hj)
    exact h.inferred hj' (hmodules ▸ hm) (hinputs types htypes) (hmodules ▸ hsigs') (hop ▸ hinfer)

/-! ## Inferring again -/

/-- An instruction that gets its inferred type is fresh, and what was fresh stays so, up to its
consumers and what carries its module. -/
theorem Linked.fresh_retype (hl : p.Linked) (hmem : i ∈ p.body m) (hi : p.instr? i = some inst)
    (hspares : p.Spares m i) (ht : p.infer inst.op inst.inputs inst.modules = .ok type)
    (hj : j ∉ inst.consumers) (hfresh : j ≠ i → p.Spares m j ∧ p.Fresh j) :
    (p.modifyInstr i fun inst => { inst with type }).Fresh j := by
  have hcore : ∀ {x}, x ≠ i → SameCore p (p.modifyInstr i fun inst => { inst with type }) x :=
    sameCore_modifyInstr _
  have hlocal : Local m p (p.modifyInstr i fun inst => { inst with type }) :=
    hl.local_of_sameCore hmem (fun _ => rfl) hcore
  by_cases hji : j = i
  · subst hji
    intro a ha
    rw [instr?_modifyInstr, if_pos rfl, hi] at ha
    cases ha
    have hinfer := hlocal.infer hl (.inl hspares) hi
      (fun x hx t hxt => (hcore (hl.operand_ne hi hx)).hasType hxt) ht
    exact hinfer
  · obtain ⟨hs, hfresh⟩ := hfresh hji
    refine hlocal.fresh hl (.inl hs) (hcore hji) (fun x hx t hxt => (hcore ?_).hasType hxt) hfresh
    rintro rfl
    exact hj ((hl.mirrored hi).mpr hx)

/-- All instructions are fresh, up to some of `m` and those that carry `m`, and types agree with
`τ`. -/
structure Pending (m : ModuleId) (τ : InstrId → ValueType) (stale : List InstrId) (p : Program) :
    Prop where
  framed : p.Framed
  shaped : Shaped m τ p
  inside : ∀ {i}, i ∈ stale → i ∈ p.body m
  fresh : ∀ {i}, i ∉ stale → p.Spares m i → p.Fresh i

namespace Pending

theorem steady (h : Pending m τ [] p) : p.Steady (some m) :=
  ⟨h.framed, fun hs => h.fresh List.not_mem_nil (sparesAny_some.mp hs)⟩

theorem of_steady (h : p.Steady (some m)) : Pending m p.typeAt [] p :=
  ⟨h.toFramed, h.shaped, nofun, fun _ hs => h.fresh (sparesAny_some.mpr hs)⟩

theorem mono {stale' : List InstrId} (h : Pending m τ stale p) (hsub : stale ⊆ stale')
    (hin : ∀ {j}, j ∈ stale' → j ∈ p.body m) : Pending m τ stale' p :=
  { h with inside := hin, fresh := fun hj => h.fresh fun hmem => hj (hsub hmem) }

theorem settle (h : Pending m τ (i :: stale) p) (hi : p.instr? i = some inst)
    (ht : p.infer inst.op inst.inputs inst.modules = .ok inst.type) : Pending m τ stale p := by
  refine { h with inside := fun hj => h.inside (List.mem_cons_of_mem i hj), fresh := ?_ }
  intro j hj hs
  by_cases hji : j = i
  · subst hji
    intro inst' hi'
    rw [hi] at hi'
    cases hi'
    exact ht
  · exact h.fresh (List.not_mem_cons_of_ne_of_not_mem hji hj) hs

/-- An instruction gets its inferred type; then its consumers may be stale. -/
theorem retype (h : Pending m τ (i :: stale) p) (hi : p.instr? i = some inst)
    (ht : p.infer inst.op inst.inputs inst.modules = .ok type) :
    Pending m τ (inst.consumers.reverse ++ stale)
      (p.modifyInstr i fun inst => { inst with type }) := by
  have hl := h.framed.toLinked
  have hr := Retyped.modifyInstr p i type
  have hmem := h.inside List.mem_cons_self
  have hcore : ∀ {j}, j ≠ i → SameCore p (p.modifyInstr i fun inst => { inst with type }) j :=
    sameCore_modifyInstr _
  have hlocal : Local m p (p.modifyInstr i fun inst => { inst with type }) :=
    hl.local_of_sameCore hmem (fun _ => rfl) hcore
  have halive : (p.module? m).isSome := hlocal.alive
  have hspares : p.Spares m i := sparesAny_some.mp (h.framed.spares_own hmem)
  refine ⟨(Rewired.of_retyped hr).framed (hr.linked hl) h.framed, ?_, fun hj => ?_,
    fun {j} hj hs => ?_⟩
  · refine h.shaped.of_local (hlocal.symm halive) (hr.linked hl) fun {j a} hj => ?_
    rw [instr?_modifyInstr] at hj
    split at hj
    · next he =>
      subst he
      rw [hi] at hj
      cases hj
      exact ⟨inst, hi, rfl, rfl, h.shaped.infer hi (hspares inst hi) ht, fun _ htypes => htypes⟩
    · exact ⟨a, hj, rfl, rfl, h.shaped.stored hj, fun _ htypes => htypes⟩
  · rw [hr.body]
    obtain hj | hj := List.mem_append.mp hj
    · obtain ⟨cinst, hc, -, ho⟩ := hl.consumer hi (List.mem_reverse.mp hj)
      rw [← hl.owner_unique hi hmem, ← ho]
      exact hl.listed hc
    · exact h.inside (List.mem_cons_of_mem i hj)
  · rw [List.mem_append, List.mem_reverse, not_or] at hj
    refine hl.fresh_retype hmem hi hspares ht hj.1 fun hji => ?_
    have hp := (hcore hji).spares hs
    exact ⟨hp, h.fresh (List.not_mem_cons_of_ne_of_not_mem hji hj.2) hp⟩

theorem roundInvariant (m : ModuleId) (τ : InstrId → ValueType) (rest : List InstrId) :
    Edit.RoundInvariant fun stack q => Pending m τ (stack ++ rest) q := by
  refine ⟨fun h hj ht => h.settle hj ht, fun h hj ht => ?_⟩
  rw [List.append_assoc]
  exact h.retype hj ht

/-- **Inferring along a stack of stale instructions clears it.** -/
theorem refreshType (h : Pending m τ (i :: rest) p) (hok : Edit.refreshType i p = .ok u q) :
    Pending m τ rest q ∧ Retyped p q :=
  ⟨(roundInvariant m τ rest).refreshType_ok h hok,
    Action.after_of_ok hok ▸ Edit.retyped_refreshType i p⟩

theorem refreshAll {is : List InstrId} (h : Pending m τ is p)
    (hok : is.forM Edit.refreshType p = .ok u q) : Pending m τ [] q ∧ Retyped p q := by
  induction is generalizing p with
  | nil =>
    cases hok
    exact ⟨h, .refl _⟩
  | cons i is ih =>
    rw [List.forM, Action.bind_ok] at hok
    obtain ⟨_, r, hi, hok⟩ := hok
    obtain ⟨hr, hpr⟩ := h.refreshType hi
    obtain ⟨hq, hrq⟩ := ih hr hok
    exact ⟨hq, hpr.trans hrq⟩

end Pending

/-! ## Swapping operands -/

section

variable (hi : p.instr? i = some inst) (hold : old ∈ inst.inputs)

include hi hold in
theorem sameCore_swapped (hj : j ≠ i) : SameCore p (p.swapped i old new) j := by
  rw [SameCore, instr?_swapped hi hold, Option.map_map]
  congr 1
  funext a
  rw [Function.comp_apply, if_neg hj, Instruction.core_reconsume]

include hi hold in
theorem rewired_swapped : Rewired p (p.swapped i old new) := by
  refine ⟨module?_swapped p i old new, fun j => ?_⟩
  have houtline : Instruction.outline = Instruction.outline ∘ Instruction.core := rfl
  rw [instr?_swapped hi hold, Option.map_map, houtline]
  congr 1
  funext a
  simp only [Function.comp_apply, Instruction.core_reconsume]
  split <;> rfl

include hi hold in
theorem swaps_swapped : Swaps old new p (p.swapped i old new) := by
  refine ⟨fun {j a} hj => ?_⟩
  rw [instr?_swapped hi hold, Option.map_eq_some_iff] at hj
  obtain ⟨b, hb, rfl⟩ := hj
  refine ⟨b, hb, ?_⟩
  rw [Instruction.inputs_reconsume]
  split
  · rw [Instruction.swapInput, List.forall₂_map_right_iff]
    refine List.forall₂_same.mpr fun x _ => ?_
    split
    · next hx => exact .inr ⟨hx, rfl⟩
    · exact .inl rfl
  · exact List.forall₂_same.mpr fun _ _ => .inl rfl

include hi hold in
theorem exists_swapped : ∃ inst', (p.swapped i old new).instr? i = some inst' ∧
    inst'.op = inst.op ∧ inst'.modules = inst.modules ∧ inst'.type = inst.type ∧
      inst'.inputs = inst.inputs.map fun x => if x = old then new else x := by
  refine ⟨_, by rw [instr?_swapped hi hold, hi, Option.map_some, if_pos rfl], ?_⟩
  have hc := (inst.swapInput old new).core_reconsume i (i = old ∧ old ≠ new) (i = new)
  obtain ⟨hop, hin, hmodules, hty, -⟩ := Instruction.core_eq_iff.mp hc
  exact ⟨hop, hmodules, hty, hin⟩

include hi hold in
theorem hasType_swapped (ht : p.HasType x type) : (p.swapped i old new).HasType x type := by
  by_cases hx : x = i
  · subst hx
    obtain ⟨a, ha, rfl⟩ := ht
    rw [hi] at ha
    cases ha
    obtain ⟨inst', hi', -, -, hty, -⟩ : ∃ inst', (p.swapped x old new).instr? x = some inst' ∧ _ :=
      exists_swapped hi hold
    exact ⟨inst', hi', hty⟩
  · exact (sameCore_swapped hi hold hx).hasType ht

include hi hold in
theorem local_swapped (hl : p.Linked) (hmem : i ∈ p.body m) : Local m p (p.swapped i old new) :=
  hl.local_of_sameCore hmem (module?_swapped p i old new) (sameCore_swapped hi hold)

end

namespace Pending

theorem swap (h : Pending m τ [] p) (hi : p.instr? i = some inst) (hold : old ∈ inst.inputs)
    (hnew : Before (p.body m) new i) (hτ : (τ old).Alike (τ new)) :
    Pending m τ [i] (p.swapped i old new) := by
  have hl := h.framed.toLinked
  have hm : inst.owner = m := hl.owner_unique hi hnew.right_mem
  have hlq := hl.swapped hi hold (hm.symm ▸ hnew)
  have hr : Rewired p (p.swapped i old new) := rewired_swapped hi hold
  have hcore : ∀ {j}, j ≠ i → SameCore p (p.swapped i old new) j := sameCore_swapped hi hold
  have halive : (p.module? m).isSome := alive_of_mem_body hnew.right_mem
  have hlocal : Local m p (p.swapped i old new) := local_swapped hi hold hl hnew.right_mem
  obtain ⟨inst', hi', hop, hmodules, hty, hin⟩ : ∃ inst',
      (p.swapped i old new).instr? i = some inst' ∧ _ := exists_swapped hi hold
  refine ⟨hr.framed hlq h.framed, ?_, fun hj => ?_, fun {j} hj hs => ?_⟩
  · refine h.shaped.of_local (hlocal.symm halive) hlq fun {j a} hj => ?_
    by_cases hji : j = i
    · subst hji
      rw [hi'] at hj
      cases hj
      refine ⟨inst, hi, hop, hmodules, hty ▸ h.shaped.stored hi, fun types htypes => ?_⟩
      rw [hin, List.forall₂_map_left_iff] at htypes
      refine htypes.imp fun x t hxt => ?_
      split at hxt
      · next hx => exact hx ▸ hτ.trans hxt
      · exact hxt
    · obtain ⟨a', hj', hc⟩ := (hcore hji).exists_instr hj
      obtain ⟨hop, hin, hmodules, hty, -⟩ := Instruction.core_eq_iff.mp hc
      exact ⟨a', hj', hop, hmodules, hty ▸ h.shaped.stored hj', fun _ ht => hin ▸ ht⟩
  · rw [hr.body, List.mem_singleton.mp hj]
    exact hnew.right_mem
  · rw [List.mem_singleton] at hj
    have hp := (hcore hj).spares hs
    exact hlocal.fresh hl (.inl hp) (hcore hj) (fun _ _ _ => hasType_swapped hi hold)
      (h.fresh List.not_mem_nil hp)

theorem replaceArgument (h : Pending m τ [] p) (hi : p.Uses i old)
    (hnew : Before (p.body m) new i) (hτ : (τ old).Alike (τ new))
    (hok : Edit.replaceArgument i old new p = .ok u q) :
    Pending m τ [] q ∧ Rewired p q ∧ Swaps old new p q := by
  obtain ⟨inst, hi, hold⟩ := hi
  obtain ⟨-, hok⟩ := Edit.replaceArgument_ok.mp hok
  obtain ⟨hq, hr⟩ := (h.swap hi hold hnew hτ).refreshType hok
  exact ⟨hq, (rewired_swapped hi hold).trans (.of_retyped hr),
    (swaps_swapped hi hold).trans (.of_retyped hr)⟩

theorem rewire {left : List InstrId} (h : Pending m τ [] p)
    (hleft : Edit.Rewirable m old new left p) (hn : left.Nodup) (hτ : (τ old).Alike (τ new))
    (hok : left.forM (fun c => Edit.replaceArgument c old new) p = .ok u q) :
    Pending m τ [] q ∧ Rewired p q ∧ Swaps old new p q := by
  induction left generalizing p with
  | nil =>
    cases hok
    exact ⟨h, .refl _, .refl _⟩
  | cons c left ih =>
    rw [List.forM, Action.bind_ok] at hok
    obtain ⟨_, r, hc, hok⟩ := hok
    obtain ⟨hr, hpr, hspr⟩ := h.replaceArgument (hleft.uses c List.mem_cons_self)
      (hleft.before c List.mem_cons_self) hτ hc
    have hnext := hleft.replaceArgument (List.nodup_cons.mp hn).1
    rw [Action.after_of_ok hc] at hnext
    obtain ⟨hq, hrq, hsrq⟩ := ih hr hnext (List.nodup_cons.mp hn).2 hok
    exact ⟨hq, hpr.trans hrq, hspr.trans hsrq⟩

end Pending

/-- Where an operand of `m` is replaced everywhere, all types are inferred again. -/
theorem Steady.replaceInstruction (h : p.Steady (some m)) (hnew : new ∈ p.body m)
    (hok : Edit.replaceInstruction old new p = .ok u q) :
    Pending m p.typeAt [] q ∧ Rewired p q ∧ Swaps old new p q := by
  obtain ⟨oldInst, newInst, k, n, module, ho, hn, hs, hloc, hk, hcheck, hok⟩ :=
    Edit.replaceInstruction_ok.mp hok
  obtain ⟨newInst', -, hn', rfl, -, -⟩ := locate_ok.mp hloc
  rw [hn] at hn'
  cases hn'
  obtain rfl := h.toLinked.owner_unique hn hnew
  have hstart : Pending newInst.owner p.typeAt [] p := .of_steady h
  have hτ : (p.typeAt old).Alike (p.typeAt new) := by
    rw [typeAt_eq ⟨oldInst, ho, rfl⟩, typeAt_eq ⟨newInst, hn, rfl⟩]
    exact ValueType.sameShape_iff.mp hs
  refine hstart.rewire ?_ ((h.distinct ho).filter _) hτ hok
  refine Edit.rewirable_of_check h.toLinked ho hloc hk (fun c hc => List.mem_of_mem_filter hc) ?_
  intro c hc
  obtain ⟨hc, hne⟩ := List.mem_filter.mp hc
  exact hcheck c hc (of_decide_eq_true hne)

theorem Steady.replaceInstruction_of_mem (h : p.Steady (some m)) (hold : old ∈ p.body m)
    (hok : Edit.replaceInstruction old new p = .ok u q) :
    Pending m p.typeAt [] q ∧ Rewired p q ∧ Swaps old new p q := by
  obtain ⟨inst, newInst, k, n, module, ho, -, -, hloc, hk, hcheck, hforM⟩ :=
    Edit.replaceInstruction_ok.mp hok
  by_cases hnone : inst.consumers.filter (· ≠ new) = []
  · -- nothing but the new instruction has the old one as an operand
    rw [hnone] at hforM
    cases hforM
    exact ⟨.of_steady h, .refl _, .refl _⟩
  · obtain ⟨c, hc⟩ := List.exists_mem_of_ne_nil _ hnone
    obtain ⟨hc, hne⟩ := List.mem_filter.mp hc
    obtain ⟨cinst, hcinst, -, howner⟩ := h.toLinked.consumer ho hc
    obtain ⟨place, hplace, -⟩ := hcheck c hc (of_decide_eq_true hne)
    have hmem : c ∈ p.body k := by
      rw [body_of_module? hk]
      exact List.mem_of_getElem (List.idxOf?_eq_some_iff.mp hplace).2.1
    obtain ⟨newInst', -, hnew, rfl, -, -⟩ := locate_ok.mp hloc
    have hsame : newInst'.owner = m := (h.toLinked.owner_unique hcinst hmem).symm.trans
      (howner.trans (h.toLinked.owner_unique ho hold))
    exact h.replaceInstruction (hsame ▸ h.toLinked.listed hnew) hok

/-! ## Rebuilding -/

/-- What rebuilding an instruction leaves behind. -/
structure Rebuilt (i : InstrId) (op : Op) (inputs : List InstrId) (modules : List ModuleId)
    (p q : Program) : Prop where
  module? : ∀ m, q.module? m = p.module? m
  outline : ∀ {j}, j ≠ i →
    (q.instr? j).map Instruction.outline = (p.instr? j).map Instruction.outline
  operands : ∀ {j}, j ≠ i →
    (q.instr? j).map Instruction.inputs = (p.instr? j).map Instruction.inputs
  self : ∀ {old}, p.instr? i = some old → ∃ inst, q.instr? i = some inst ∧ inst.op = op ∧
    inst.inputs = inputs ∧ inst.modules = modules ∧ inst.owner = old.owner

theorem Rebuilt.free {old : Instruction} (h : Rebuilt i op inputs modules p q)
    (hi : p.instr? i = some old) (hfree : p.Free m) (hm : m ∉ modules) : q.Free m := by
  intro j b hj
  by_cases hji : j = i
  · subst hji
    obtain ⟨inst, hq, -, -, rfl, -⟩ := h.self hi
    cases hj.symm.trans hq
    exact hm
  · obtain ⟨a, ha, -, hmodules, -⟩ := Instruction.exists_of_outline (h.outline hji) hj
    exact hmodules ▸ hfree j a ha

theorem Rebuilt.trans_retyped (h : Rebuilt i op inputs modules p q) (hr : Retyped q r) :
    Rebuilt i op inputs modules p r := by
  refine ⟨fun m => (hr.module? m).trans (h.module? m),
    fun hj => ((Rewired.of_retyped hr).outline _).trans (h.outline hj), fun {j} hj => ?_,
    fun hi => ?_⟩
  · have hinputs : Instruction.inputs = Instruction.inputs ∘ Instruction.untyped := rfl
    rw [hinputs, ← Option.map_map, hr.untyped, Option.map_map]
    exact h.operands hj
  obtain ⟨inst, hq, rfl, rfl, rfl, ho⟩ := h.self hi
  obtain ⟨inst', hr', hop, hin, hmodules, -, ho'⟩ :=
    Instruction.exists_of_untyped (hr.untyped i).symm hq
  exact ⟨inst', hr', hop.symm, hin.symm, hmodules.symm, ho'.symm.trans ho⟩

section

variable {old : Instruction} (hi : p.instr? i = some old) (hself : i ∉ inputs)
  (hself' : i ∉ old.inputs)

include hi hself hself'

theorem sameCore_rebuilt (hj : j ≠ i) :
    SameCore p (p.rebuilt i old.inputs op inputs modules type) j := by
  rw [SameCore, instr?_rebuilt hi hself hself', Option.map_map]
  congr 1
  funext a
  rw [Function.comp_apply, if_neg hj, Instruction.core_reconsume]

theorem instr?_rebuilt_self : ∃ inst,
    (p.rebuilt i old.inputs op inputs modules type).instr? i = some inst ∧
      inst.core = { old with op, inputs, modules, type }.core := by
  refine ⟨_, by rw [instr?_rebuilt hi hself hself', hi, Option.map_some, if_pos rfl], ?_⟩
  rw [Instruction.core_reconsume]

theorem rebuilt_rebuilt : Rebuilt i op inputs modules p
    (p.rebuilt i old.inputs op inputs modules type) := by
  refine ⟨module?_rebuilt old.inputs, fun {j} hj => ?_, fun {j} hj => ?_, fun {a} ha => ?_⟩
  · have houtline : Instruction.outline = Instruction.outline ∘ Instruction.core := rfl
    rw [houtline, ← Option.map_map, ← Option.map_map, sameCore_rebuilt hi hself hself' hj]
  · have hinputs : ∀ a : Option Instruction,
        a.map Instruction.inputs = (a.map Instruction.core).map Instruction.inputs :=
      fun a => by cases a <;> rfl
    rw [hinputs, hinputs (p.instr? j), sameCore_rebuilt hi hself hself' hj]
  · rw [hi] at ha
    cases ha
    obtain ⟨inst, hq, hc⟩ : ∃ inst, (p.rebuilt i old.inputs op inputs modules type).instr? i =
        some inst ∧ inst.core = { old with op, inputs, modules, type }.core :=
      instr?_rebuilt_self hi hself hself'
    obtain ⟨hop, hin, hmodules, -, ho⟩ := Instruction.core_eq_iff.mp hc
    exact ⟨inst, hq, hop, hin, hmodules, ho⟩

end

/-- An instruction is rebuilt with a type of the same dimensions. If its type is another one then,
its consumers may be stale. -/
theorem Steady.rebuilt {old : Instruction} (h : p.Steady (some old.owner))
    (hi : p.instr? i = some old) (hret : op.isReturn → old.op.isReturn)
    (hmod : old.owner ∉ modules)
    (hin : ∀ x ∈ inputs, Before (p.body old.owner) x i)
    (hinfer : p.infer op inputs modules = .ok type) (hty : old.type.Alike type)
    (hinside : ∀ {j}, j ∈ stale → j ∈ p.body old.owner)
    (hstale : ∀ {j}, j ∉ stale → p.Uses j i → old.type = type) :
    Pending old.owner p.typeAt stale (p.rebuilt i old.inputs op inputs modules type) := by
  have hl := h.toLinked
  have hself : i ∉ inputs := fun hmem => (hin i hmem).ne (hl.nodup _) rfl
  have hself' : i ∉ old.inputs := fun hmem => hl.operand_ne hi hmem rfl
  have hlq : (p.rebuilt i old.inputs op inputs modules type).Linked := hl.rebuilt hi hin
  have hcore : ∀ {j}, j ≠ i → SameCore p (p.rebuilt i old.inputs op inputs modules type) j :=
    sameCore_rebuilt hi hself hself'
  obtain ⟨inst, hq, hc⟩ : ∃ inst, (p.rebuilt i old.inputs op inputs modules type).instr? i =
      some inst ∧ inst.core = { old with op, inputs, modules, type }.core :=
    instr?_rebuilt_self hi hself hself'
  obtain ⟨hop, hinputs, hmodules, htype, -⟩ : inst.op = op ∧ inst.inputs = inputs ∧
    inst.modules = modules ∧ inst.type = type ∧ inst.owner = old.owner :=
    Instruction.core_eq_iff.mp hc
  have hlocal : Local old.owner p (p.rebuilt i old.inputs op inputs modules type) :=
    hl.local_of_sameCore (hl.listed hi) (module?_rebuilt old.inputs) hcore
  have hsymm := hlocal.symm (by rw [← module?_rebuilt old.inputs]; exact hlocal.alive)
  refine ⟨h.toFramed.of_local hlq hlocal fun {j a} hj ho => ?_,
    ⟨fun {j a} hj => ?_, fun {j a types signatures t} hj hm htypes hsigs hinfer' => ?_⟩,
    fun hj => ?_, fun {j} hj hs => ?_⟩
  · by_cases hji : j = i
    · subst hji
      rw [hq] at hj
      cases hj
      refine ⟨fun hr => ?_, fun k hk => ?_⟩
      · rw [body_rebuilt]
        exact h.returns hi (hret (hop ▸ hr))
      · rw [hmodules] at hk
        obtain ⟨types, signatures, -, hsigs, -⟩ := infer_ok.mp hinfer
        obtain ⟨s, -, hs⟩ := forall₂_exists hsigs hk
        obtain ⟨module, hk', -⟩ := signature_ok.mp hs
        rw [module?_rebuilt, hk']
        exact ⟨rfl, fun he => hmod (he ▸ hk)⟩
    · obtain ⟨a', hj', hc'⟩ := (hcore hji).exists_instr hj
      obtain ⟨hop', -, hmodules', -, ho'⟩ := Instruction.core_eq_iff.mp hc'
      refine ⟨fun hr => ?_, fun k hk => ?_⟩
      · rw [body_rebuilt, ← ho, ho']
        exact h.returns hj' (hop' ▸ hr)
      · rw [module?_rebuilt, ← ho, ho']
        exact h.referenced hj' (hmodules' ▸ hk)
  · by_cases hji : j = i
    · subst hji
      rw [hq] at hj
      cases hj
      rw [typeAt_eq ⟨old, hi, rfl⟩, htype]
      exact hty
    · obtain ⟨a', hj', hc'⟩ := (hcore hji).exists_instr hj
      rw [(Instruction.core_eq_iff.mp hc').2.2.2.1]
      exact h.shaped.stored hj'
  · have hspares : Spares (p.rebuilt i old.inputs op inputs modules type) old.owner j :=
      fun b hb => by
        cases hj.symm.trans hb
        exact hm
    have hsigs' := forall₂_imp_of_mem hsigs (hsymm.signatures hlq (.inl hspares) hj)
    by_cases hji : j = i
    · subst hji
      rw [hq] at hj
      cases hj
      rw [hop] at hinfer'
      rw [hinputs] at htypes
      rw [hmodules] at hsigs'
      rw [typeAt_eq ⟨old, hi, rfl⟩]
      exact hty.trans (alike_of_infer hinfer htypes hsigs' hinfer')
    · obtain ⟨a', hj', hc'⟩ := (hcore hji).exists_instr hj
      obtain ⟨hop', hin', hmodules', -, -⟩ := Instruction.core_eq_iff.mp hc'
      exact h.shaped.inferred hj' (hmodules' ▸ hm) (hin' ▸ htypes) (hmodules' ▸ hsigs')
        (hop' ▸ hinfer')
  · rw [body_rebuilt]
    exact hinside hj
  · by_cases hji : j = i
    · subst hji
      intro a ha
      rw [hq] at ha
      cases ha
      rw [hop, hinputs, hmodules, htype]
      refine infer_keep (fun x hx t ht => ?_) (fun k hk s hs => ?_) hinfer
      · exact (hcore fun he => hself (he ▸ hx)).hasType ht
      · exact hlocal.signature hl (fun he => hmod (he ▸ hk)) hs
    · have hp := (hcore hji).spares hs
      refine hlocal.fresh hl (.inl hp) (hcore hji) (fun x hx t ht => ?_)
        (h.fresh (sparesAny_some.mpr hp))
      by_cases hxi : x = i
      · subst hxi
        have he := hstale hj hx
        obtain ⟨a, ha, rfl⟩ := ht
        rw [hi] at ha
        cases ha
        exact ⟨inst, hq, htype.trans he.symm⟩
      · exact (hcore hxi).hasType ht

/-- **Rebuilding an instruction keeps a program steady** but for what carries its module, and types
change in strides only. -/
theorem Steady.replaceWith {old : Instruction} (h : p.Steady (some old.owner))
    (hi : p.instr? i = some old) (hret : op.isReturn → old.op.isReturn)
    (hmod : old.owner ∉ modules)
    (hok : Edit.replaceWith i op inputs modules p = .ok u q) :
    Pending old.owner p.typeAt [] q ∧ Rebuilt i op inputs modules p q := by
  obtain ⟨m, n, old', type, hloc, hplace, hinfer, hi', hs, hsame, hnew⟩ :=
    Edit.replaceWith_ok.mp hok
  rw [hi] at hi'
  cases hi'
  have hl := h.toLinked
  have hin := Edit.before_of_placement hi hloc hplace
  have hself : i ∉ inputs := fun hmem => (hin i hmem).ne (hl.nodup _) rfl
  have hself' : i ∉ old.inputs := fun hmem => hl.operand_ne hi hmem rfl
  have hty := ValueType.sameShape_iff.mp hs
  have hr : Rebuilt i op inputs modules p (p.rebuilt i old.inputs op inputs modules type) :=
    rebuilt_rebuilt hi hself hself'
  by_cases he : old.type = type
  · rw [← hsame he]
    exact ⟨h.rebuilt hi hret hmod hin hinfer hty nofun fun _ _ => he, hr⟩
  · obtain ⟨inst, hq, hok⟩ := hnew he
    have hlq : (p.rebuilt i old.inputs op inputs modules type).Linked := hl.rebuilt hi hin
    have ho : inst.owner = old.owner := by
      obtain ⟨inst', hq', -, -, -, ho⟩ := hr.self hi
      rw [hq] at hq'
      cases hq'
      exact ho
    have hpending : Pending old.owner p.typeAt inst.consumers
        (p.rebuilt i old.inputs op inputs modules type) := by
      refine h.rebuilt hi hret hmod hin hinfer hty (fun hj => ?_) fun {j} hj huse => ?_
      · obtain ⟨cinst, hc, -, hco⟩ := hlq.consumer hq hj
        rw [← ho, ← hco, ← body_rebuilt old.inputs]
        exact hlq.listed hc
      · -- an instruction that uses it is among the consumers
        have hji : j ≠ i := by
          rintro rfl
          obtain ⟨a, ha, hmem⟩ := huse
          rw [hi] at ha
          cases ha
          exact hself' hmem
        exact absurd ((hlq.mirrored hq).mpr ((sameCore_rebuilt hi hself hself' hji).uses huse)) hj
    obtain ⟨hend, hretyped⟩ := hpending.refreshAll hok
    exact ⟨hend, hr.trans_retyped hretyped⟩

end Program

end OffloadFusion
