import OffloadFusion.Proofs.Freshness

/-!
# What a fusion leaves of the main module

A fusion puts calls, elements of their values and contiguous copies into the main module (`isGlue`).
All else that stands there afterwards stood there before, with the same operation and modules, and
reads values of the same element types and dimensions: `Residue p q`. Programs that follow each
other may so be compared with the first one (`Residue.trans`), and what a fusion used up stays so
(`Spent.residue`).
-/

namespace OffloadFusion

/-- Whether a fusion may put the operation into the main module. -/
def Op.isGlue : Op → Bool
  | .offload _ | .tupleElem _ | .reindex .contiguous => true
  | _ => false

theorem Op.isBoundary_of_isGlue {op : Op} (h : op.isGlue = true) : op.isBoundary = false := by
  cases op <;> simp_all [isGlue, isBoundary, isParam, isLiteral, isReturn]

namespace Program

variable {p q r : Program} {i : InstrId} {a b c : Instruction} {m : ModuleId}

/-- The same operation and modules on values of the same element types and dimensions. -/
structure Survives (p q : Program) (a b : Instruction) : Prop where
  op : a.op = b.op
  modules : a.modules = b.modules
  type : a.type.Alike b.type
  inputs : List.Forall₂ (fun x y => (p.typeAt x).Alike (q.typeAt y)) a.inputs b.inputs

theorem Survives.trans (h : Survives p q a b) (h' : Survives q r b c) : Survives p r a c :=
  ⟨h.op.trans h'.op, h.modules.trans h'.modules, h.type.trans h'.type,
    forall₂_comp (fun hx hy => hx.trans hy) h.inputs h'.inputs⟩

/-- What the main module of `q` lists, up to glue, is left of that of `p`. -/
structure Residue (p q : Program) : Prop where
  origin : ∀ {i b}, i ∈ q.body main → q.instr? i = some b → b.op.isGlue = false →
    i ∈ p.body main ∧ ∃ a, p.instr? i = some a ∧ Survives p q a b

theorem typeAt_congr (h : SameCore p q i) : q.typeAt i = p.typeAt i := by
  have htype : ∀ o : Option Instruction, (o.map (·.type)).getD (.tuple []) =
      ((o.map Instruction.core).map (·.type)).getD (.tuple []) := fun o => by cases o <;> rfl
  rw [typeAt, typeAt, htype, show _ = _ from h, ← htype]

theorem Shaped.typeAt {τ : InstrId → ValueType} (h : Shaped m τ q) (hi : q.instr? i = some b) :
    (τ i).Alike (q.typeAt i) := by
  rw [typeAt_eq ⟨b, hi, rfl⟩]
  exact h.stored hi

namespace Residue

theorem trans (h : Residue p q) (h' : Residue q r) : Residue p r := by
  refine ⟨fun hi hc hglue => ?_⟩
  obtain ⟨hi, b, hb, hbc⟩ := h'.origin hi hc hglue
  obtain ⟨hi, a, ha, hab⟩ := h.origin hi hb (hbc.op ▸ hglue)
  exact ⟨hi, a, ha, hab.trans hbc⟩

theorem of_sameCore (h : ∀ {i b}, i ∈ q.body main → q.instr? i = some b → b.op.isGlue = false →
    i ∈ p.body main ∧ SameCore p q i ∧ ∀ x ∈ b.inputs, SameCore p q x) : Residue p q := by
  refine ⟨fun hi hb hglue => ?_⟩
  obtain ⟨hi, hcore, hinputs⟩ := h hi hb hglue
  obtain ⟨a, ha, hc⟩ := hcore.exists_instr hb
  obtain ⟨hop, hin, hmodules, hty, -⟩ := Instruction.core_eq_iff.mp hc
  refine ⟨hi, a, ha, hop.symm, hmodules.symm, hty ▸ .refl _, ?_⟩
  rw [← hin]
  exact List.forall₂_same.mpr fun x hx => typeAt_congr (hinputs x hx) ▸ .refl _

theorem refl (p : Program) : Residue p p :=
  of_sameCore fun hi _ _ => ⟨hi, rfl, fun _ _ => rfl⟩

/-- The instructions keep their operations, and read the same values or ones like them. -/
theorem of_shaped (hs : Shaped m p.typeAt q) (hl : q.Linked)
    (h : ∀ {i b}, i ∈ q.body main → q.instr? i = some b → b.op.isGlue = false →
      i ∈ p.body main ∧ ∃ a, p.instr? i = some a ∧ a.op = b.op ∧ a.modules = b.modules ∧
        List.Forall₂ (fun x y => (p.typeAt x).Alike (p.typeAt y)) a.inputs b.inputs) :
    Residue p q := by
  refine ⟨fun {i b} hi hb hglue => ?_⟩
  obtain ⟨hi, a, ha, hop, hmodules, hinputs⟩ := h hi hb hglue
  have hty := hs.stored hb
  rw [typeAt_eq ⟨a, ha, rfl⟩] at hty
  refine ⟨hi, a, ha, hop, hmodules, hty, ?_⟩
  have hread : List.Forall₂ (fun y y' => y' = y ∧ (p.typeAt y).Alike (q.typeAt y)) b.inputs
      b.inputs := List.forall₂_same.mpr fun y hy => by
    obtain ⟨binst, hy, -⟩ := hl.operand hb hy
    exact ⟨rfl, hs.typeAt hy⟩
  exact forall₂_comp (fun hx ⟨hy, hty⟩ => hy ▸ hx.trans hty) hinputs hread

theorem isGlue (h : Residue p q) (ha : p.instr? i = some a) (hglue : a.op.isGlue = true)
    (hi : i ∈ q.body main) (hb : q.instr? i = some b) : b.op.isGlue = true := by
  by_contra hne
  obtain ⟨-, a', ha', hab⟩ := h.origin hi hb (Bool.eq_false_iff.mpr hne)
  cases ha.symm.trans ha'
  exact hne (hab.op ▸ hglue)

end Residue

/-! ## What is used up -/

/-- The main module does not list the instruction, or it is glue. -/
def Spent (q : Program) (i : InstrId) : Prop :=
  ∀ b, i ∈ q.body main → q.instr? i = some b → b.op.isGlue = true

theorem Spent.of_gone (h : q.instr? i = none) : q.Spent i := fun b _ hb => by
  cases h.symm.trans hb

theorem Spent.residue (h : p.Spent i) (hr : Residue p q) : q.Spent i := by
  intro b hi hb
  by_contra hne
  obtain ⟨hi, a, ha, hab⟩ := hr.origin hi hb (Bool.eq_false_iff.mpr hne)
  exact hne (hab.op ▸ h a hi ha)

/-! ## Counting -/

/-- The number of instructions of the main module whose operation passes a test. -/
def tally (p : Program) (test : Op → Bool) : Nat := (p.body main).countP (p.hasOp test)

/-- What passes a test that glue does not pass was there before. -/
theorem Residue.mem_of_hasOp {test : Op → Bool} (h : Residue p q) (hl : q.Linked)
    (htest : ∀ op, op.isGlue = true → test op = false) (hi : i ∈ q.body main)
    (hop : q.hasOp test i = true) : i ∈ p.body main ∧ p.hasOp test i = true ∧ ¬ q.Spent i := by
  obtain ⟨b, hb, -⟩ := hl.owned hi
  rw [hasOp, hb, Option.any_some] at hop
  have hglue : b.op.isGlue = false := Bool.eq_false_iff.mpr fun he => by
    rw [htest b.op he] at hop
    cases hop
  obtain ⟨hmem, a, ha, hab⟩ := h.origin hi hb hglue
  refine ⟨hmem, by rwa [hasOp, ha, Option.any_some, hab.op], fun hs => ?_⟩
  exact absurd (hs b hi hb) (Bool.eq_false_iff.mp hglue)

/-- **No count grows, and what is used up is not counted any more.** -/
theorem Residue.tally_add_le {test : Op → Bool} {used : List InstrId} (h : Residue p q)
    (hq : q.Linked) (htest : ∀ op, op.isGlue = true → test op = false)
    (hn : used.Nodup) (hused : ∀ i ∈ used, i ∈ p.body main ∧ p.hasOp test i = true ∧ q.Spent i) :
    q.tally test + used.length ≤ p.tally test := by
  rw [tally, tally, List.countP_eq_length_filter, List.countP_eq_length_filter,
    ← List.length_append]
  have hleft : ∀ {i}, i ∈ (q.body main).filter (q.hasOp test) →
      i ∈ p.body main ∧ p.hasOp test i = true ∧ ¬ q.Spent i := fun hi =>
    h.mem_of_hasOp hq htest (List.mem_filter.mp hi).1 (List.mem_filter.mp hi).2
  have hnodup : ((q.body main).filter (q.hasOp test) ++ used).Nodup := by
    refine List.nodup_append.mpr ⟨(hq.nodup main).filter _, hn, fun i hi j hj he => ?_⟩
    exact (hleft hi).2.2 (he ▸ (hused j hj).2.2)
  refine (List.subperm_of_subset hnodup fun i hi => List.mem_filter.mpr ?_).length_le
  obtain hi | hi := List.mem_append.mp hi
  · exact ⟨(hleft hi).1, (hleft hi).2.1⟩
  · exact ⟨(hused i hi).1, (hused i hi).2.1⟩

/-! ## Readers -/

/-- Only glue reads the instruction. -/
def OnlyGlued (p : Program) (x : InstrId) : Prop :=
  ∀ j b, p.instr? j = some b → x ∈ b.inputs → b.op.isGlue = true

theorem OnlyGlued.inserted {x : InstrId} {n : Nat} {op : Op} {inputs : List InstrId}
    {modules : List ModuleId} (h : p.OnlyGlued x) (hins : Inserted m n op inputs modules p i q)
    (hglue : op.isGlue = true) : q.OnlyGlued x := by
  intro j b hj hx
  by_cases hji : j = i
  · subst hji
    obtain ⟨type, -, hnew⟩ := hins.new
    cases hj.symm.trans hnew
    exact hglue
  · obtain ⟨a, ha, hc⟩ := (hins.old hji).exists_instr hj
    obtain ⟨hop, hin, -⟩ := Instruction.core_eq_iff.mp hc
    exact hop ▸ h j a ha (hin ▸ hx)

theorem OnlyGlued.swapped {x old new : InstrId} (h : p.OnlyGlued x) (hr : Rewired p q)
    (hs : Swaps old new p q) (hne : x ≠ new) : q.OnlyGlued x := by
  intro j b hj hx
  obtain ⟨a, ha, hop, -⟩ := hr.exists_instr hj
  obtain ⟨a', ha', hinputs⟩ := hs.operands hj
  cases ha.symm.trans ha'
  obtain ⟨y, hy, hxy⟩ := forall₂_exists hinputs.flip hx
  obtain rfl | ⟨-, rfl⟩ := hxy
  · exact hop ▸ h j a ha hy
  · exact absurd rfl hne

end Program

end OffloadFusion
