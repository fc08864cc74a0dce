import OffloadFusion.Proofs.Wrapping

/-!
# Operands that give way to others

What happens in the main module where a call takes the place of an instruction, its root.

* `Rereads`, `Rerouted`: other instructions stay, with one operand in the place of another.
* `Extended`: what the program looks like when the region of the call is built.
* **`Extended.spliced`**: the root keeps its place, and what is gone was read only by the root and
  by what is gone.
-/

namespace OffloadFusion

open OffloadFusion.Action Program

namespace Program

variable {p q r : Program} {root old new i j : InstrId} {m : ModuleId} {op : Op}
  {inst a : Instruction} {inputs : List InstrId} {modules : List ModuleId} {n : Nat} {u : Unit}

theorem Rebuilt.form (h : Rebuilt root op inputs modules p q) (hj : j ≠ root) : SameForm p q j := by
  have houtline := h.outline hj
  have hinputs := h.operands hj
  rw [SameForm]
  cases ha : p.instr? j <;> cases hb : q.instr? j <;>
    simp_all [Instruction.outline, Instruction.form]

/-! ## Other operands in place -/

/-- The instruction stays, with `new` for some of the operands `old`. -/
def Rereads (old new : InstrId) (p q : Program) (j : InstrId) : Prop :=
  ∀ a, p.instr? j = some a → ∃ b, q.instr? j = some b ∧ b.op = a.op ∧ b.modules = a.modules ∧
    b.owner = a.owner ∧ List.Forall₂ (fun x y => y = x ∨ (x = old ∧ y = new)) a.inputs b.inputs

namespace Rereads

theorem of_form (h : SameForm p q j) : Rereads old new p q j := by
  intro a ha
  obtain ⟨b, hb, hop, hinputs, hmodules, ho⟩ := h.exists_instr ha
  exact ⟨b, hb, hop, hmodules, ho, hinputs ▸ List.forall₂_same.mpr fun _ _ => .inl rfl⟩

theorem of_rewired (h : Rewired p q) (hs : Swaps old new p q) : Rereads old new p q j := by
  intro a ha
  obtain ⟨b, hb, hop, hmodules, ho⟩ := Instruction.exists_of_outline (h.outline j).symm ha
  obtain ⟨a', ha', hinputs⟩ := hs.operands hb
  cases ha.symm.trans ha'
  exact ⟨b, hb, hop.symm, hmodules.symm, ho.symm, hinputs⟩

theorem of_relocated (hl : p.Linked) (hold : old ∈ p.body main) (hroot : root ∈ p.body main)
    (hok : Edit.relocateDependents old root p = .ok u q) : Rereads old new p q j := by
  obtain ⟨_, _, _, -, -, h⟩ := relocateDependents_ok hl hold hroot hok
  exact .of_form (by rw [SameForm, h.instr?])

theorem trans (h : Rereads old new p q j) (h' : Rereads old new q r j) :
    Rereads old new p r j := by
  intro a ha
  obtain ⟨b, hb, hop, hmodules, ho, hinputs⟩ := h a ha
  obtain ⟨c, hc, hop', hmodules', ho', hinputs'⟩ := h' b hb
  refine ⟨c, hc, hop'.trans hop, hmodules'.trans hmodules, ho'.trans ho,
    forall₂_comp (fun {x y z} hxy hyz => ?_) hinputs hinputs'⟩
  obtain rfl | ⟨rfl, rfl⟩ := hxy
  · exact hyz
  · obtain rfl | ⟨-, rfl⟩ := hyz <;> exact .inr ⟨rfl, rfl⟩

theorem form (h : Rereads old new p q j) (ha : p.instr? j = some a) (hold : old ∉ a.inputs) :
    SameForm p q j := by
  obtain ⟨b, hb, hop, hmodules, ho, hinputs⟩ := h a ha
  have heq : a.inputs = b.inputs := by
    refine List.forall₂_eq_eq_eq ▸ forall₂_imp_of_mem hinputs fun x hx y hxy => ?_
    obtain rfl | ⟨rfl, -⟩ := hxy
    · rfl
    · exact absurd hx hold
  rw [SameForm, ha, hb, Option.map_some, Option.map_some, Instruction.form, Instruction.form, hop,
    heq, hmodules, ho]

theorem node (h : Rereads old new p q j) (hnode : p.Node op inputs j) (hold : old ∉ inputs) :
    q.Node op inputs j := by
  obtain ⟨inst, hj, hop, hinputs, hmodules⟩ := hnode
  exact Node.of_sameForm (h.form hj (hinputs ▸ hold)) ⟨inst, hj, hop, hinputs, hmodules⟩

/-- Where nothing reads the old operand any more, the new one has taken its place everywhere. -/
theorem inputs_eq {b : Instruction} (h : Rereads old new p q j) (ha : p.instr? j = some a)
    (hb : q.instr? j = some b) (hgone : new = old ∨ old ∉ b.inputs) :
    b.inputs = a.inputs.map fun i => if i = old then new else i := by
  obtain ⟨b', hb', -, -, -, hinputs⟩ := h a ha
  cases hb.symm.trans hb'
  refine List.forall₂_eq_eq_eq ▸ List.forall₂_map_right_iff.mpr
    (forall₂_imp_of_mem hinputs.flip fun y hy x hxy => ?_)
  by_cases hx : x = old
  · rw [if_pos hx]
    obtain rfl | ⟨-, he⟩ := hxy
    · obtain he | hnot := hgone
      · exact hx.trans he.symm
      · exact absurd (hx ▸ hy) hnot
    · exact he
  · rw [if_neg hx]
    exact hxy.resolve_right fun h => hx h.1

end Rereads

/-- Instructions other than the root stay, with `new` for some of the operands `old`. What stands
before the root stays there, and what reads it is the same. -/
structure Rerouted (root old new : InstrId) (p q : Program) : Prop where
  kept : ∀ {j}, j ≠ root → Rereads old new p q j
  body : ∀ {k}, k ≠ main → q.body k = p.body k
  before : ∀ {i}, Before (p.body main) i root → Before (q.body main) i root
  users : ∀ {j}, q.Uses j root ↔ p.Uses j root

namespace Rerouted

theorem trans (h : Rerouted root old new p q) (h' : Rerouted root old new q r) :
    Rerouted root old new p r :=
  ⟨fun hj => (h.kept hj).trans (h'.kept hj), fun hk => (h'.body hk).trans (h.body hk),
    fun hi => h'.before (h.before hi), h'.users.trans h.users⟩

theorem inserted (h : Inserted main n op inputs modules p i q) (hroot : root ∉ inputs) :
    Rerouted root old new p q := by
  have hcore : ∀ {j}, j ≠ i → SameCore p q j := h.old
  refine ⟨fun {j} _ a ha => Rereads.of_form (hcore fun he => ?_).form a ha,
    fun hk => h.isLocal.body hk, fun hi => h.body ▸ hi.insertIdx n i, fun {j} => ?_⟩
  · rw [he, h.gone] at ha
    cases ha
  · by_cases hj : j = i
    · subst hj
      obtain ⟨type, -, hnew⟩ := h.new
      constructor
      · rintro ⟨b, hb, hx⟩
        cases hnew.symm.trans hb
        exact absurd hx hroot
      · rintro ⟨b, hb, -⟩
        rw [h.gone] at hb
        cases hb
    · exact (hcore hj).form.uses

theorem rebuilt (h : Rebuilt root op inputs modules p q) (hp : p.Linked) (hq : q.Linked)
    (hi : p.instr? root = some inst) : Rerouted root old new p q := by
  have hbody : ∀ k, q.body k = p.body k := fun k => by
    rw [Program.body, h.module?, Program.body]
  have hform : ∀ {j}, j ≠ root → SameForm p q j := h.form
  refine ⟨fun hj => .of_form (hform hj), fun _ => hbody _, fun hi => hbody main ▸ hi,
    fun {j} => ?_⟩
  by_cases hj : j = root
  · subst hj
    constructor
    · rintro ⟨b, hb, hx⟩
      exact absurd rfl (hq.operand_ne hb hx)
    · rintro ⟨a, ha, hx⟩
      exact absurd rfl (hp.operand_ne ha hx)
  · exact (hform hj).uses

/-- What depends on the old operand is moved to just before the root. -/
theorem reordered (hl : p.Linked) (hold : old ∈ p.body main) (hroot : root ∈ p.body main)
    (hok : Edit.relocateDependents old root p = .ok u q) : Rerouted root old new p q := by
  obtain ⟨pre, part, post, hsplit, -, h⟩ := relocateDependents_ok hl hold hroot hok
  refine ⟨fun _ => .of_relocated hl hold hroot hok, fun hk => h.body_ne hk, fun {i} hi => ?_,
    h.uses⟩
  have hn := hl.nodup main
  rw [hsplit] at hi hn
  rw [h.body]
  refine before_iff.mpr ⟨_, post, rfl, ?_⟩
  obtain hi | hi := List.mem_append.mp ((before_append_cons hn).mp hi)
  · exact List.mem_append_left _ hi
  · exact List.mem_append_right _ (mem_partition.mpr hi)

theorem rewired (h : Rewired p q) (hs : Swaps old new p q) (hold : root ≠ old)
    (hnew : root ≠ new) : Rerouted root old new p q := by
  refine ⟨fun _ => .of_rewired h hs, fun _ => h.body _, fun hi => h.body main ▸ hi,
    fun {j} => ⟨?_, ?_⟩⟩
  · rintro ⟨b, hb, hx⟩
    obtain ⟨a, ha, hinputs⟩ := hs.operands hb
    obtain ⟨x, hmem, he | ⟨-, he⟩⟩ := forall₂_exists hinputs.flip hx
    · exact ⟨a, ha, he ▸ hmem⟩
    · exact absurd he hnew
  · rintro ⟨a, ha, hx⟩
    obtain ⟨b, hb, -, -, -, hinputs⟩ := Rereads.of_rewired h hs a ha
    obtain ⟨y, hmem, he | ⟨he, -⟩⟩ := forall₂_exists hinputs hx
    · exact ⟨b, hb, he ▸ hmem⟩
    · exact absurd he hold

theorem form_of_mem (h : Rerouted root old new p q) (hl : p.Linked) (hroot : root ∈ p.body main)
    (hold : old ∈ p.body main) (hm : m ≠ main) (hj : j ∈ p.body m) : SameForm p q j := by
  obtain ⟨inst, hinst, ho⟩ := hl.owned hj
  have hout : j ∉ p.body main := fun hmain => hm (ho.symm.trans (hl.owner_unique hinst hmain))
  refine (h.kept fun he : j = root => hout (he ▸ hroot)).form hinst fun hmem => ?_
  exact hout (hl.mem_body_of_used hold ⟨inst, hinst, hmem⟩)

end Rerouted

/-! ## The program around a call -/

/-- A program around a new region, where what reads the root is the same as before. -/
structure Extended (root : InstrId) (p q : Program) : Prop where
  advance : Advance p q
  core : ∀ {j inst}, p.instr? j = some inst → SameCore p q j
  before : ∀ {a b}, Before (p.body main) a b → Before (q.body main) a b
  users : ∀ {j}, q.Uses j root ↔ p.Uses j root

/-- The root of `p` keeps its place in `q`, what read the anchor reads `new`, and what is gone was
read only by the root and by what is gone. -/
structure Spliced (root anchor new : InstrId) (p q : Program) : Prop where
  place : ∃ a b, p.instr? root = some a ∧ q.instr? root = some b ∧ b.owner = a.owner ∧
    a.type.Alike b.type ∧ b.consumers.Perm a.consumers
  others : ∀ {j a b}, j ≠ root → p.instr? j = some a → q.instr? j = some b → b.op = a.op ∧
    b.modules = a.modules ∧ b.owner = a.owner ∧
    b.inputs = a.inputs.map fun i => if i = anchor then new else i
  removed : ∀ {i}, i ≠ anchor → q.instr? i = none →
    ∀ j, p.Uses j i → j = root ∨ q.instr? j = none

theorem Extended.rereads {p₁ : Program} (h : Extended root p p₁) (hr : Rerouted root old new p₁ q)
    (hj : j ≠ root) (ha : p.instr? j = some a) : Rereads old new p q j :=
  (Rereads.of_form (h.core ha).form).trans (hr.kept hj)

/-- **What is pruned after the call took its place.** -/
theorem Extended.spliced {p₁ : Program} {anchor : InstrId} (h : Extended root p p₁) (hl : p.Linked)
    (hroot : root ∈ p.body main) (hq : Advance p q) (hr : Rerouted root anchor new p₁ q)
    (hs : Sparing root q r) (hgone : new = anchor ∨ r.instr? anchor = none) :
    Spliced root anchor new p r := by
  have hlr := hs.steady.toLinked
  have hothers : ∀ {j a b}, j ≠ root → p.instr? j = some a → r.instr? j = some b →
      b.op = a.op ∧ b.modules = a.modules ∧ b.owner = a.owner ∧
        b.inputs = a.inputs.map fun i => if i = anchor then new else i := by
    intro j a b hj ha hb
    have hreads : Rereads anchor new p r j :=
      (h.rereads hr hj ha).trans (.of_form (hs.core hb).form)
    obtain ⟨b', hb', hop, hmodules, ho, -⟩ := hreads a ha
    cases hb.symm.trans hb'
    refine ⟨hop, hmodules, ho, hreads.inputs_eq ha hb (hgone.imp_right fun hgone hmem => ?_)⟩
    obtain ⟨x, hx, -⟩ := hlr.operand hb hmem
    rw [hgone] at hx
    cases hx
  refine ⟨?_, hothers, fun {i} hi hnone j hread => or_iff_not_imp_left.mpr fun hj => ?_⟩
  · obtain ⟨a, ha, -⟩ := hl.owned hroot
    obtain ⟨b, hb, ho, -, halike⟩ := hq.evolved.kept ha
    refine ⟨a, b, ha, hs.same.trans hb, ho, halike,
      (List.perm_ext_iff_of_nodup (hq.steady.distinct hb) (hl.distinct ha)).mpr fun c => ?_⟩
    rw [hq.steady.mirrored hb, hl.mirrored ha, hr.users, h.users]
  · obtain ⟨a, ha, hmem⟩ := hread
    -- what a survivor reads survives
    refine Option.eq_none_iff_forall_ne_some.mpr fun b hb => ?_
    obtain ⟨-, -, -, hinputs⟩ := hothers hj ha hb
    have hread : i ∈ b.inputs := hinputs ▸ List.mem_map.mpr ⟨i, hmem, if_neg hi⟩
    obtain ⟨x, hx, -⟩ := hlr.operand hb hread
    rw [hnone] at hx
    cases hx

end Program

end OffloadFusion
