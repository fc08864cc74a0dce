import OffloadFusion.Proofs.Cleanup
import OffloadFusion.Proofs.Matches
import OffloadFusion.Proofs.Regions
import OffloadFusion.Proofs.Relocation

/-!
# What rules keep

Each rule builds a region off the main module, puts a call of it there by insertions and in-place
replacements (`Advance`), and cleans up (`Trim`). The result is `Kept`: types are fresh up to those
of the instructions that carry the main module, the interface is that of before, and but for glue
the main module only lists what it listed before. A rule that applies uses up the instructions of
`Rule.used`, leaves one call of the new module and releases what that replaces (`Placing`); one that
declines has not changed anything.
-/

namespace OffloadFusion

open OffloadFusion.Action Program

variable {p q r : Program} {s : Session} {i root : InstrId} {m : ModuleId} {inst : Instruction}
  {op : Op} {inputs roots : List InstrId} {modules : List ModuleId} {h : Heuristics}
  {found : Match}

/-- What a rule leaves of a program. -/
structure Kept (p q : Program) : Prop where
  steady : q.Steady (some main)
  free : p.Free main → q.Free main
  interface : Interface p q
  residue : Residue p q

namespace Kept

theorem refl (hp : p.Steady (some main)) : Kept p p := ⟨hp, id, .refl p, .refl p⟩

theorem trans (h : Kept p q) (h' : Kept q r) : Kept p r :=
  ⟨h'.steady, fun hfree => h'.free (h.free hfree), h.interface.trans h'.interface,
    h.residue.trans h'.residue⟩

theorem of_trim (h : Trim (some main) p q) (hl : p.Linked) : Kept p q :=
  ⟨h.steady, h.shrunk.free, h.shrunk.interface, h.residue hl⟩

end Kept

/-- A kept program in which some instructions are used up. -/
structure Consumed (used : List InstrId) (p q : Program) : Prop extends Kept p q where
  spent : ∀ i ∈ used, q.Spent i

theorem Consumed.trans {used : List InstrId} (h : Consumed used p q) (h' : Kept q r) :
    Consumed used p r :=
  ⟨h.toKept.trans h', fun i hi => (h.spent i hi).residue h'.residue⟩

/-- A kept program in which a call of a new module took the place of some instructions, and some
modules are still to be released. -/
structure Merged (used : List InstrId) (pending : List ModuleId) (p q : Program) : Prop
    extends Consumed used p q where
  placed : ∃ m call, Placing m (some call) pending p q

theorem Merged.mono {used used' : List InstrId} {pending pending' : List ModuleId}
    (h : Merged used pending p q) (hused : used' ⊆ used) (hpending : pending ⊆ pending') :
    Merged used' pending' p q := by
  obtain ⟨m, call, hplaced⟩ := h.placed
  exact ⟨⟨h.toKept, fun i hi => h.spent i (hused hi)⟩, m, call, hplaced.mono hpending⟩

/-- A rule that applies leaves a kept program where a call took the place of some instructions, and
one that declines has not changed anything. -/
structure Applied (used : List InstrId) (s : Session) (applied : Bool) (t : Session) : Prop where
  kept : Kept s.program t.program
  declined : applied = false → t = s
  spent : applied = true → ∀ i ∈ used, t.program.Spent i
  placed : applied = true → ∃ m call, Placing m (some call) [] s.program t.program

namespace Applied

variable {used : List InstrId}

theorem of_merged {t : Session} (h : Merged used [] s.program t.program) :
    Applied used s true t := ⟨h.toKept, nofun, fun _ => h.spent, fun _ => h.placed⟩

theorem refl (hp : s.program.Steady (some main)) : Applied used s false s :=
  ⟨.refl hp, fun _ => rfl, nofun, nofun⟩

end Applied

namespace Program

namespace Advance

variable {t : Program}

theorem kept (h : Advance p q) (hp : p.Steady (some main)) (h' : Trim (some main) q r) :
    Kept p r :=
  Kept.trans ⟨h.steady, h.free, h.evolved.interface hp h.steady, h.evolved.residue⟩
    (.of_trim h' h.steady.toLinked)

theorem isBoundary (h : Advance p q) (hi : p.instr? i = some inst)
    (hop : inst.op.isBoundary = false) {inst' : Instruction} (hq : q.instr? i = some inst') :
    inst'.op.isBoundary = false := by
  obtain ⟨a, ha, -, hfor, -⟩ := h.evolved.kept hi
  rw [hq] at ha
  cases ha
  exact hfor.isBoundary.trans hop

theorem inside (h : Advance p q) (hl : p.Linked) (hroots : ∀ i ∈ roots, i ∈ p.body main) :
    Inside roots q :=
  fun i hi _ hinst => h.steady.owner_unique hinst (h.mem_body hl (hroots i hi))

/-! ### Steps in the main module -/

theorem insertBefore {place : InstrId} (h : Advance p q) (hl : p.Linked)
    (hplace : place ∈ p.body main) (hglue : op.isGlue = true) (hmod : main ∉ modules)
    (hok : Edit.insertBefore place op inputs modules q = .ok i r) :
    Advance p r ∧ i ∈ r.body main ∧ ∃ n, Inserted main n op inputs modules q i r := by
  obtain ⟨k, n, hloc, hins⟩ := Edit.insertBefore_ok.mp hok
  obtain ⟨a, -, ha, rfl, -, -⟩ := locate_ok.mp hloc
  rw [h.steady.owner_unique ha (h.mem_body hl hplace)] at hloc hins
  have hret : op.isReturn = false := by
    have hop := Op.isBoundary_of_isGlue hglue
    simp only [Op.isBoundary, Bool.or_eq_false_iff] at hop
    exact hop.2
  have hend := endSafe_before hloc hret
  refine ⟨h.trans (h.steady.advance_insertAt hend hglue hmod hins), ?_⟩
  have hnew := inserted_of_ok h.steady.toLinked hins
  refine ⟨?_, n, hnew⟩
  rw [hnew.body, List.mem_insertIdx hend.le]
  exact .inl rfl

theorem replaceWith {u : Unit} (h : Advance p q) (hl : p.Linked) (hi : i ∈ p.body main)
    (hinst : p.instr? i = some inst) (hinner : inst.op.isBoundary = false)
    (hglue : op.isGlue = true) (hmod : main ∉ modules)
    (hok : Edit.replaceWith i op inputs modules q = .ok u r) : Glued i op inputs modules q r :=
  h.steady.advance_replaceWith (h.mem_body hl hi)
    (fun hq => .inr ⟨Op.isBoundary_of_isGlue hglue, h.isBoundary hinst hinner hq⟩) hglue hmod hok

theorem call {anchor : Op} {u : Unit} (h : Advance p q) (hl : p.Linked) (hi : i ∈ p.body main)
    (hplaced : Placing m none [m] p q) (hinst : p.instr? i = some inst)
    (hinner : inst.op.isBoundary = false) (hm : main ≠ m)
    (hok : Edit.replaceWith i (.offload anchor) inputs [m] q = .ok u r) :
    Glued i (.offload anchor) inputs [m] q r ∧ Placing m (some i) inst.modules p r := by
  have hglued := h.replaceWith hl hi hinst hinner rfl
    (fun hmem => hm (List.mem_singleton.mp hmem)) hok
  have hcalled := hplaced.rebuilt hm h.steady.toLinked hinst (h.mem_body hl hi) hglued.rebuilt rfl
  rw [List.append_nil] at hcalled
  exact ⟨hglued, hcalled⟩

/-- What reads an inner instruction is moved before `place`, and then reads another one. -/
theorem handOver {old new place : InstrId} {u v : Unit} (h : Advance p q) (hl : p.Linked)
    (hold : old ∈ p.body main) (hplace : place ∈ p.body main) (hinst : p.instr? old = some inst)
    (hinner : inst.op.isBoundary = false) (hnew : new ∈ q.body main)
    (hmove : Edit.relocateDependents old place q = .ok u r)
    (hok : Edit.replaceInstruction old new r = .ok v t) : Advance p t ∧ SameCarriers q t := by
  have hold' := h.mem_body hl hold
  have hplace' := h.mem_body hl hplace
  have hmoved := h.steady.advance_relocateDependents hold' hplace'
    (fun hq => h.isBoundary hinst hinner hq) hmove
  have hnew' := hmoved.mem_body h.steady.toLinked hnew
  obtain ⟨_, _, _, -, -, hreordered⟩ := relocateDependents_ok h.steady.toLinked hold' hplace' hmove
  obtain ⟨-, hrewired, -⟩ := hmoved.steady.replaceInstruction hnew' hok
  exact ⟨h.trans (hmoved.trans (hmoved.steady.advance_replaceInstruction hnew' hok)),
    (SameCarriers.of_reordered hreordered (alive_of_mem_body hold')).trans (.of_rewired hrewired)⟩

theorem rereadAll {cs : List InstrId} {u : Unit} (hq : q.Steady (some main))
    (hcs : ∀ c ∈ cs, c ∈ q.body main) (hglue : ∀ c ∈ cs, q.Spent c)
    (hnone : ∀ c ∈ cs, ∀ inst, q.instr? c = some inst → inst.modules = [])
    (hok : (cs.forM fun consumer => do
      let op := (← (← get).instr consumer).op
      Edit.replaceWith consumer op inputs [] : Edit Unit) q = .ok u r) :
    Advance q r ∧ SameCarriers q r := by
  induction cs generalizing q with
  | nil =>
    cases hok
    exact ⟨.refl hq, .refl _⟩
  | cons c cs ih =>
    rw [List.forM, Action.bind_ok] at hok
    obtain ⟨_, t, hstep, hok⟩ := hok
    simp only [Action.get_bind_ok, Action.lift_checked_bind_ok, instr_ok] at hstep
    obtain ⟨inst, hinst, hstep⟩ := hstep
    have hmem := hcs c List.mem_cons_self
    have hglued := hq.advance_replaceWith hmem
      (fun hi => .inl (congrArg Instruction.op (Option.some.inj (hinst.symm.trans hi))))
      (hglue c List.mem_cons_self inst hmem hinst) List.not_mem_nil hstep
    have ht := hglued.toAdvance
    have hsame := hglued.rebuilt.sameCarriers hinst (hnone c List.mem_cons_self inst hinst)
    have hrest : ∀ d ∈ cs, d ∈ t.body main := fun d hd =>
      ht.mem_body hq.toLinked (hcs d (List.mem_cons_of_mem c hd))
    obtain ⟨ha, hsame'⟩ := ih ht.steady hrest
      (fun d hd => (hglue d (List.mem_cons_of_mem c hd)).residue ht.evolved.residue)
      (fun d hd b hb => hsame.modules_eq_nil (hnone d (List.mem_cons_of_mem c hd)) hb) hok
    exact ⟨ht.trans ha, hsame.trans hsame'⟩

theorem removeInstruction {u : Unit} (h : Advance p q) (hl : p.Linked) (hi : i ∈ p.body main)
    (hinst : p.instr? i = some inst) (hinner : inst.op.isBoundary = false)
    (hok : Edit.removeInstruction i q = .ok u r) : Trim (some main) q r ∧ r.Spent i := by
  obtain ⟨a, ha, ho⟩ := h.steady.owned (h.mem_body hl hi)
  have hb := h.isBoundary hinst hinner ha
  simp only [Op.isBoundary, Bool.or_eq_false_iff] at hb
  refine ⟨h.steady.trim_removeInstruction ha ho hb.1.1 hb.2 hok, .of_gone ?_⟩
  obtain ⟨a', m, n, ha', -, -, rfl⟩ := Edit.removeInstruction_ok.mp hok
  rw [instr?_removed ha', if_pos rfl]

end Advance

end Program

/-! ## From a region to its call -/

namespace Fusing

theorem ends_freshName (stem : String) :
    (freshName stem).Ends s fun _ t => t.program = s.program := by
  rw [freshName, ends_get_bind]
  dsimp only
  split
  · exact ends_fault
  · rw [ends_bind, ends_lift_checked]
    intro counter _
    rw [ends_bind, ends_set]
    rfl

theorem ends_uniqueName (name : String) :
    (uniqueName name).Ends s fun _ t => t.program = s.program := by
  rw [uniqueName, ends_theProgram_bind]
  split
  · exact ends_freshName _
  · rfl

theorem ends_region {β : Type} {name : Fusing String} {steps : ModuleId → Building (List InstrId)}
    {rest : ModuleId → List InstrId → Fusing β} {F : InstrId → Prop} {Q : β → Session → Prop}
    (hp : s.program.Steady (some main)) (hF : s.program.Feeders F)
    (hmain : i ∈ s.program.body main)
    (hname : name.Ends s fun _ t => t.program = s.program)
    (hsteps : ∀ m, (steps m).Preserves (Building.Growing F s.program m))
    (hrest : ∀ m inputs t, main ≠ m → Advance s.program t.program →
      Unread F s.program t.program inputs → Placing m none [m] s.program t.program →
      (rest m inputs).Ends t Q) :
    (do
      let name ← name
      let module ← Edit.createModule name
      let inputs ← complete (.onModule module) (steps module)
      rest module inputs : Fusing β).Ends s Q := by
  rw [ends_bind]
  refine hname.mono fun name t ht => ?_
  rw [ends_bind]
  refine ends_edit.mpr fun m q hq => ?_
  obtain ⟨-, rfl, rfl⟩ := Edit.createModule_ok.mp hq
  rw [show HoldsProgram.program t = s.program from ht]
  have hgrown := Nesting.opened hp hmain name
  rw [ends_bind]
  refine (ends_complete hp.toLinked hF (hsteps _ _ ⟨rfl, hgrown, fun _ _ ho => ?_⟩)).mono
    fun inputs t' ⟨ht', hunread, hplaced⟩ =>
      hrest _ inputs t' hgrown.inner.symm ht' hunread hplaced
  cases ho

theorem ends_prune {rest : Fusing Bool} {Q : Bool → Session → Prop} {call : Option InstrId}
    {pending : List ModuleId} (hp : p.Steady (some main)) (h : Advance p q)
    (ht : Trim (some main) q s.program) (hplaced : Placing m call pending p s.program)
    (hroots : ∀ i ∈ roots, i ∈ p.body main)
    (hrest : ∀ (t : Session) (removed : Nat), Kept p t.program → Kept s.program t.program →
      Placing m call pending p t.program → Edit.prune roots s.program = .ok removed t.program →
      rest.Ends t Q) :
    (do
      discard <| Edit.prune roots
      rest : Fusing Bool).Ends s Q := by
  rw [ends_bind]
  refine ends_discard.mpr (ends_edit.mpr fun _ r hr => ?_)
  have hin := ht.shrunk.inside (h.inside hp.toLinked hroots)
  have htrim := ht.steady.trim_prune hin hr
  have hlinked := ht.steady.toLinked
  exact hrest _ _ (h.kept hp (ht.trans htrim)) (.of_trim htrim hlinked)
    (hplaced.shrunk htrim.shrunk fun hattached => attached_prune hlinked hattached hr) hr

theorem ends_call {anchor : Op} {rest : Fusing Bool} {Q : Bool → Session → Prop}
    (hp : p.Steady (some main)) (h : Advance p s.program) (hroot : root ∈ p.body main)
    (hplaced : Placing m none [m] p s.program) (hinst : p.instr? root = some inst)
    (hinner : inst.op.isBoundary = false) (hm : main ≠ m) (hroots : ∀ i ∈ roots, i ∈ p.body main)
    (hrest : ∀ t : Session, Merged [root] inst.modules p t.program → rest.Ends t Q) :
    (do
      Edit.replaceWith root (.offload anchor) inputs [m]
      discard <| Edit.prune roots
      rest : Fusing Bool).Ends s Q := by
  rw [ends_bind]
  refine ends_edit.mpr fun _ q hq => ?_
  obtain ⟨hglued, hcalled⟩ := h.call hp.toLinked hroot hplaced hinst hinner hm hq
  have hcall := h.trans hglued.toAdvance
  refine ends_prune hp hcall (.refl hcall.steady) hcalled hroots
    fun t _ ht ht' hcalled _ => hrest t ⟨⟨ht, ?_⟩, m, root, hcalled⟩
  exact fun i hi => List.mem_singleton.mp hi ▸ hglued.spent.residue ht'.residue

/-- The call of a region takes the place of the root, and its operand that nothing else uses and
that does not feed the region is removed. -/
theorem ends_absorb {anchor : Op} {rest : Fusing Bool} {F : InstrId → Prop}
    {Q : Bool → Session → Prop} {xinst : Instruction} {x : InstrId}
    (hp : p.Steady (some main)) (h : Advance p s.program) (hunread : Unread F p s.program inputs)
    (hplaced : Placing m none [m] p s.program) (hroot : root ∈ p.body main)
    (hinst : p.instr? root = some inst) (hinner : inst.op.isBoundary = false) (hm : main ≠ m)
    (hx : x ∈ p.body main) (hxinst : p.instr? x = some xinst)
    (hxinner : xinst.op.isBoundary = false) (hxF : ¬ F x) (honly : ∀ j, p.Uses j x → j = root)
    (hrest : ∀ t : Session, Merged [root, x] inst.modules p t.program → rest.Ends t Q) :
    (do
      Edit.replaceWith root (.offload anchor) inputs [m]
      discard <| Edit.prune [x]
      rest : Fusing Bool).Ends s Q := by
  have hl := hp.toLinked
  rw [ends_bind]
  refine ends_edit.mpr fun _ q hq => ?_
  obtain ⟨hglued, hcalled⟩ := h.call hl hroot hplaced hinst hinner hm hq
  have hcall := h.trans hglued.toAdvance
  refine ends_prune hp hcall (.refl hcall.steady) hcalled
    (fun i hi => List.mem_singleton.mp hi ▸ hx)
    fun t _ ht ht' hcalled hprune => hrest t ⟨⟨ht, fun i hi => ?_⟩, m, root, hcalled⟩
  obtain rfl | hi := List.mem_cons.mp hi
  · exact hglued.spent.residue ht'.residue
  rw [List.mem_singleton.mp hi]
  have hxq := hcall.mem_body hl hx
  obtain ⟨xinst', hxinst', -⟩ := hcall.steady.owned hxq
  refine .of_gone (hcall.steady.gone_of_prune hxq hxinst'
    (hcall.isBoundary hxinst hxinner hxinst') (fun j huse => ?_) hprune)
  -- the call does not read it, and nothing else did
  by_cases hj : j = root
  · subst hj
    exact hxF (hunread.inputs x (hglued.reads huse) hx)
  · exact hj (honly j (hunread.users j x hx hxF (hglued.others hj huse)))

theorem ends_release {body : ModuleId} {used : List InstrId} {pending : List ModuleId}
    {rest : Fusing Bool} {Q : Bool → Session → Prop}
    (h : Merged used (body :: pending) p s.program)
    (hrest : ∀ t : Session, Merged used pending p t.program → rest.Ends t Q) :
    (do
      Edit.releaseModule body
      rest : Fusing Bool).Ends s Q := by
  rw [ends_bind]
  refine ends_edit.mpr fun _ q hq => hrest _ ?_
  have hl := h.steady.toLinked
  have htrim := h.steady.trim_releaseModule hq
  obtain ⟨m, call, hplaced⟩ := h.placed
  exact ⟨h.toConsumed.trans (.of_trim htrim hl), m, call,
    hplaced.shrunk htrim.shrunk fun hattached => (attached_releaseModule hl hattached hq).2⟩

theorem ends_get {name : String} {Q : InstrId → Session → Prop} :
    (liftM (found.get name) : Fusing InstrId).Ends s Q ↔
      ∀ i, found.get name = .ok i → Q i s := by
  simp only [Match.get_ok]
  unfold Match.get
  cases found.get? name with
  | none => exact ⟨fun _ => nofun, fun _ => ends_refuse nofun⟩
  | some i => exact ⟨fun h _ he => Option.some.inj he ▸ h, fun h => h i rfl⟩

end Fusing

/-! ## Attention -/

namespace Attention

theorem op_of_scale {scale : Single} (hs : scale? inst = some scale) :
    inst.op = .attention scale := by
  unfold scale? at hs
  split at hs
  · next hop _ =>
    split at hs
    · cases hs
      exact hop
    · cases hs
  · cases hs

variable {F : InstrId → Prop}

theorem preserves_emit (hop : op.isReturn = false) :
    (emit op inputs).Preserves (Building.Growing F p m) :=
  Building.preserves_module_bind
    (Building.preserves_addInstruction hop (List.forall_mem_nil _))

theorem preserves_applyMask {scaled : InstrId} {mask : List InstrId}
    (hmask : ∀ i ∈ mask, F i) :
    (applyMask scaled mask).Preserves (Building.Growing F p m) := by
  unfold applyMask
  split
  · next bias =>
    have hbias := hmask bias List.mem_cons_self
    exact (Building.preserves_addNamedInput hbias _).bind fun _ => preserves_emit rfl
  · next cond fill =>
    have hcond := hmask cond List.mem_cons_self
    have hfill := hmask fill (List.mem_cons_of_mem _ List.mem_cons_self)
    refine (Building.preserves_addNamedInput hcond _).bind fun _ => ?_
    exact (Building.preserves_addNamedInput hfill _).bind fun _ => preserves_emit rfl
  · exact .pure _

theorem preserves_rebuildFrom {scale : Single} {a b v : InstrId} {mask : List InstrId}
    (hF : p.Feeders F) (hab : ∀ i ∈ [a, b], F i) (hmask : ∀ i ∈ mask, F i) (hv : F v) :
    (rebuildFrom scale a b mask v).Preserves (Building.Growing F p m) := by
  refine Building.preserves_module_bind ?_
  refine (Building.preserves_fuseAnchor hF rfl hab).bind fun product => Preserves.theProgram.bind
    fun q => (Preserves.lift_graph _).bind fun scores => ?_
  refine (Preserves.lift_graph _).bind fun (type, data) => ?_
  have hlit : (liftM (Edit.addLiteral m type data) : Building InstrId).Preserves
      (Building.Growing F p m) := Building.preserves_edit fun _ _ _ hq hok => hq.addLiteral hok
  refine hlit.bind fun factor => (preserves_emit rfl).bind fun factor => ?_
  refine (preserves_emit rfl).bind fun scaled => (preserves_applyMask hmask).bind fun masked => ?_
  refine (Preserves.lift_checked _).bind fun axis => (preserves_emit rfl).bind fun weights => ?_
  refine Building.preserves_walk_bind hF hv fun chain hupper hops => ?_
  refine (Building.preserves_addNamedInput hupper "z").bind fun z => ?_
  exact (Building.preserves_chain hops z).bind fun z => preserves_emit rfl

theorem preserves_rebuild {scale : Single} (hF : p.Feeders F) (hinputs : ∀ i ∈ inputs, F i) :
    (rebuild scale inputs).Preserves (Building.Growing F p m) := by
  unfold rebuild
  split
  · exact preserves_rebuildFrom hF (by simp_all) (by simp_all) (by simp_all)
  · exact preserves_rebuildFrom hF (by simp_all) (by simp_all) (by simp_all)
  · exact preserves_rebuildFrom hF (by simp_all) (by simp_all) (by simp_all)
  · exact .refuse nofun

end Attention

/-! ## Calls with several values -/

/-- The pointwise reads the second value of the call, and what read the anchor the first one. -/
theorem AnchorPointwise.splitCall_ok {pw anchor : InstrId} {pwInst anchorInst : Instruction}
    {u : Unit} (hl : p.Linked) (h : Advance p q) (hpw : pw ∈ p.body main)
    (hanchor : anchor ∈ p.body main) (hpi : p.instr? pw = some pwInst)
    (hai : p.instr? anchor = some anchorInst) (hpb : pwInst.op.isBoundary = false)
    (hab : anchorInst.op.isBoundary = false) (hm : main ≠ m)
    (hok : splitCall pw anchor op inputs m q = .ok u r) :
    (∃ t, Advance p t ∧ Trim (some main) t r ∧ r.Spent pw) ∧
      (Placing m none [m] p q →
        ∃ call, Placing m (some call) (anchorInst.modules ++ pwInst.modules) p r) := by
  simp only [splitCall, Action.bind_ok] at hok
  obtain ⟨call, p₁, h₁, _, p₂, h₂, first, p₃, h₃, _, p₄, h₄, _, p₅, h₅, h₆⟩ := hok
  obtain ⟨a₁, -, _, hcall⟩ := h.insertBefore hl hpw rfl
    (fun hmem => hm (List.mem_singleton.mp hmem)) h₁
  have hglued := a₁.replaceWith hl hpw hpi hpb rfl List.not_mem_nil h₂
  have a₂ := a₁.trans hglued.toAdvance
  -- the pointwise is used up here, so the rest is followed from here on
  have hl₂ := a₂.steady.toLinked
  obtain ⟨anchorInst', hai', -, hfor, -⟩ := a₂.evolved.kept hai
  have hanchor' := a₂.mem_body hl hanchor
  have hpw' := a₂.mem_body hl hpw
  have hab' := hfor.isBoundary.trans hab
  obtain ⟨a₃, hfirst, _, hins⟩ := (Advance.refl a₂.steady).insertBefore hl₂ hpw' rfl
    List.not_mem_nil h₃
  obtain ⟨a₅, hsame⟩ := a₃.handOver hl₂ hanchor' hpw' hai' hab' hfirst h₄ h₅
  obtain ⟨htrim, -⟩ := a₅.removeInstruction hl₂ hanchor' hai' hab' h₆
  refine ⟨⟨p₅, a₂.trans a₅, htrim,
    (hglued.spent.residue a₅.evolved.residue).residue (htrim.residue a₅.steady.toLinked)⟩,
    fun hplaced => ⟨call, ?_⟩⟩
  have hnew : ∀ {i}, i ∈ p.body main → some call ≠ some i := fun hi he =>
    hcall.ne_of_mem h.steady.toLinked (h.mem_body hl hi) (Option.some.inj he).symm
  have hcalled := hplaced.inserted hcall (alive_of_mem_body (h.mem_body hl hpw)) rfl
  have hread := hcalled.emptied hm a₁.steady.toLinked hpi (a₁.mem_body hl hpw) hglued.rebuilt
    (hnew hpw)
  have hmoved := (hread.same (hins.sameCarriers (alive_of_mem_body hpw'))).same hsame
  have hremoved := hmoved.removed hm a₅.steady.toLinked hai (a₅.mem_body hl₂ hanchor')
    (hnew hanchor) h₆
  rwa [List.append_nil] at hremoved

/-- The steps by which the region of an anchor and a pointwise is built. -/
def AnchorPointwise.steps (anchor pw : Instruction) (body m : ModuleId) (dims : Shape)
    (chain : ReshapeChain) (x : InstrId) (multi : Bool) : Building (List InstrId) := do
  let anchorValue ← Building.fuseAnchor anchor.op anchor.inputs
  Building.rehomeLiterals body dims
  let xValue ← chain.replay m anchorValue
  Building.know x xValue
  let fused ← Building.fuse body pw.inputs .plain
  return if multi then anchorValue :: fused else fused

theorem AnchorPointwise.preserves_steps {F : InstrId → Prop} {anchor pw : Instruction}
    {body : ModuleId} {dims : Shape} {chain : ReshapeChain} {x : InstrId} (hF : p.Feeders F)
    (hop : anchor.op.IsAnchor) (hinputs : ∀ i ∈ anchor.inputs, F i)
    (hops : ∀ op ∈ chain.ops, op.isReturn = false) (hbelow : p.Below body)
    (hreads : ∀ i ∈ pw.inputs, F i) (multi : Bool) :
    (steps anchor pw body m dims chain x multi).Preserves (Building.Growing F p m) := by
  refine (Building.preserves_fuseAnchor hF hop.isReturn hinputs).bind fun anchorValue => ?_
  refine (Building.preserves_rehomeLiterals body _).bind fun _ => ?_
  refine (Building.preserves_chain hops anchorValue).bind fun xValue => ?_
  refine (Building.preserves_know x xValue).bind fun _ => ?_
  exact (Building.preserves_fuse hbelow .plain hreads).bind fun fused => .pure _

theorem SplitReduce.onlyPicked_ok {is : List InstrId} (hok : onlyPicked p is = .ok true) :
    ∀ i ∈ is, ∃ inst, p.instr? i = some inst ∧ inst.op.isTupleElem = true := by
  induction is with
  | nil => nofun
  | cons i is ih =>
    rw [onlyPicked, Outcome.bind_ok] at hok
    obtain ⟨inst, hi, hok⟩ := hok
    split at hok
    · next hop => exact List.forall_mem_cons.mpr ⟨⟨inst, instr_ok.mp hi, hop⟩, ih hok⟩
    · cases hok

/-- The reduction reads nothing else that depends on the call, and only elements read a tuple. -/
theorem SplitReduce.onlyGlued_of_admits {reduce gemm : InstrId} (hl : p.Linked)
    (hi : p.instr? reduce = some inst) (htuple : inst.type.isTuple = true)
    (hok : admits p reduce gemm = .ok true) : p.OnlyGlued reduce := by
  rw [admits, Outcome.bind_ok] at hok
  obtain ⟨inst', hi', hok⟩ := hok
  cases hi.symm.trans (instr_ok.mp hi')
  split at hok
  · cases hok
  intro j b hj hx
  obtain ⟨b', hj', hop⟩ := onlyPicked_ok hok j ((hl.mirrored hi).mpr ⟨b, hj, hx⟩)
  cases hj.symm.trans hj'
  cases hb : b.op <;> simp_all [Op.isTupleElem, Op.isGlue]

theorem Program.Advance.onlyGlued {x : InstrId} (h : Advance p q) (honly : p.OnlyGlued x)
    (hx : x ∈ p.body main) (huses : ∀ j, q.Uses j x → p.Uses j x) (hl : p.Linked) :
    q.OnlyGlued x := by
  intro j b hj hread
  have huse : q.Uses j x := ⟨b, hj, hread⟩
  obtain ⟨a, ha, hread'⟩ := huses j huse
  exact h.evolved.residue.isGlue ha (honly j a ha hread')
    (h.steady.mem_body_of_used (h.mem_body hl hx) huse) hj

theorem SplitReduce.splitCall_ok {reduce gemm : InstrId} {reduceInst gemmInst : Instruction}
    {tupled : Bool} {anchor : Op} {last : Nat} {u : Unit} (hl : p.Linked) (h : Advance p q)
    (hreduce : reduce ∈ p.body main) (hgemm : gemm ∈ p.body main)
    (hri : p.instr? reduce = some reduceInst) (hgi : p.instr? gemm = some gemmInst)
    (hrb : reduceInst.op.isBoundary = false) (hgb : gemmInst.op.isBoundary = false)
    (hm : main ≠ m)
    (hglued : tupled = true → reduceInst.type.isTuple = true ∧ q.OnlyGlued reduce)
    (hplaced : Placing m none [m] p q)
    (hok : splitCall reduce gemm tupled anchor inputs m last q = .ok u r) :
    (∃ t, Advance p t ∧ Trim (some main) t r ∧ r.Spent reduce) ∧
      ∃ call, Placing m (some call) reduceInst.modules p r := by
  rw [splitCall] at hok
  simp only [Action.bind_ok (x := Edit.insertBefore _ _ _ _),
    Action.bind_ok (x := Edit.relocateDependents _ _),
    Action.bind_ok (x := Edit.replaceInstruction _ _)] at hok
  obtain ⟨call, p₁, h₁, value, p₂, h₂, _, p₃, h₃, _, p₄, h₄, hok⟩ := hok
  obtain ⟨a₁, -, _, hcall⟩ := h.insertBefore hl hreduce rfl
    (fun hmem => hm (List.mem_singleton.mp hmem)) h₁
  obtain ⟨a₂, hvalue, _, hins⟩ := a₁.insertBefore hl hreduce rfl List.not_mem_nil h₂
  obtain ⟨a₄, hsame⟩ := a₂.handOver hl hgemm hreduce hgi hgb hvalue h₃ h₄
  have hnew : some call ≠ some reduce := fun he =>
    hcall.ne_of_mem h.steady.toLinked (h.mem_body hl hreduce) (Option.some.inj he).symm
  have hcalled := hplaced.inserted hcall (alive_of_mem_body (h.mem_body hl hreduce)) rfl
  have hmoved := (hcalled.same (hins.sameCarriers
    (alive_of_mem_body (a₁.mem_body hl hreduce)))).same hsame
  cases tupled with
  | false =>
    have hread := a₄.replaceWith hl hreduce hri hrb rfl List.not_mem_nil hok
    have hdone := hmoved.emptied hm a₄.steady.toLinked hri (a₄.mem_body hl hreduce) hread.rebuilt
      hnew
    rw [List.append_nil] at hdone
    exact ⟨⟨r, a₄.trans hread.toAdvance, .refl hread.steady, hread.spent⟩, call, hdone⟩
  | true =>
    obtain ⟨htuple, hglued⟩ := hglued rfl
    have hlinked := h.steady.toLinked
    have hlinked₁ := a₁.steady.toLinked
    have hlinked₂ := a₂.steady.toLinked
    have hglued₄ : p₄.OnlyGlued reduce := by
      obtain ⟨_, _, -, hins₁⟩ := Edit.insertBefore_ok.mp h₁
      obtain ⟨_, _, -, hins₂⟩ := Edit.insertBefore_ok.mp h₂
      have hnew₂ := inserted_of_ok hlinked₁ hins₂
      have g₂ := (hglued.inserted (inserted_of_ok hlinked hins₁) rfl).inserted hnew₂ rfl
      -- nothing is rebuilt where dependents are moved
      obtain ⟨_, _, _, -, -, hmoved⟩ := relocateDependents_ok hlinked₂ (a₂.mem_body hl hgemm)
        (a₂.mem_body hl hreduce) h₃
      have g₃ : p₃.OnlyGlued reduce := fun j b hj =>
        g₂ j b ((hmoved.instr? j).symm.trans hj)
      have a₃ := a₂.steady.advance_relocateDependents (a₂.mem_body hl hgemm)
        (a₂.mem_body hl hreduce) (fun hq => a₂.isBoundary hgi hgb hq) h₃
      obtain ⟨-, hr, hs⟩ := a₃.steady.replaceInstruction
        (a₃.mem_body hlinked₂ hvalue) h₄
      exact g₃.swapped hr hs (hnew₂.ne_of_mem hlinked₁ (a₁.mem_body hl hreduce))
    rw [if_pos rfl, Action.get_bind_ok, Action.lift_checked_bind_ok] at hok
    obtain ⟨inst, hinst, hok⟩ := hok
    rw [instr_ok] at hinst
    rw [Action.bind_ok] at hok
    obtain ⟨_, p₅, h₅, h₆⟩ := hok
    have htuple₄ : inst.type.isTuple = true := by
      obtain ⟨a, ha, -, -, halike⟩ := a₄.evolved.kept hri
      cases hinst.symm.trans ha
      exact halike.1 ▸ htuple
    have hcs : ∀ c ∈ inst.consumers, c ∈ p₄.body main ∧ p₄.Spent c ∧
        ∀ b, p₄.instr? c = some b → b.modules = [] := by
      intro c hc
      obtain ⟨cinst, hci, hread, -⟩ := a₄.steady.consumer hinst hc
      have hmem := a₄.steady.mem_body_of_used (a₄.mem_body hl hreduce) ⟨cinst, hci, hread⟩
      have hglue := hglued₄ c cinst hci hread
      refine ⟨hmem, fun b _ hb => ?_, fun b hb => ?_⟩
      · cases hci.symm.trans hb
        exact hglue
      · cases hci.symm.trans hb
        exact a₄.steady.modules_eq_nil_of_tuple hmem hci hglue hread hinst htuple₄
    obtain ⟨areread, hreread⟩ := Advance.rereadAll a₄.steady (fun c hc => (hcs c hc).1)
      (fun c hc => (hcs c hc).2.1) (fun c hc => (hcs c hc).2.2) h₅
    have a₅ := a₄.trans areread
    obtain ⟨htrim, hspent⟩ := a₅.removeInstruction hl hreduce hri hrb h₆
    have hdone := (hmoved.same hreread).removed hm a₅.steady.toLinked hri (a₅.mem_body hl hreduce)
      hnew h₆
    rw [List.append_nil] at hdone
    exact ⟨⟨p₅, a₅, htrim, hspent⟩, call, hdone⟩

/-! ## A region that is continued -/

theorem SplitReduce.copyOpen_ok {region : ModuleId} {ret value : InstrId} {name : String}
    (hp : p.Steady (some main)) (hmain : i ∈ p.body main) (hregion : p.Below region)
    (hok : copyOpen region ret name p = .ok (m, value) q) : Nesting p m q := by
  rw [copyOpen, Action.bind_ok] at hok
  obtain ⟨⟨k, copies⟩, t, hcopy, hok⟩ := hok
  obtain ⟨hgrown, himage⟩ := Nesting.copyModule hp hmain hregion hcopy
  simp only [Action.lift_bind_ok, Renaming.image_ok, Action.get_bind_ok] at hok
  obtain ⟨copy, hret, hok⟩ := hok
  rw [Action.lift_checked_bind_ok] at hok
  obtain ⟨inst, -, hok⟩ := hok
  cases hhead : inst.inputs.head? with
  | none =>
    rw [hhead] at hok
    cases hok
  | some v =>
    simp only [hhead, Action.bind_ok, Action.pure_ok] at hok
    obtain ⟨_, r, hremove, he, rfl⟩ := hok
    cases he
    exact hgrown.removeInstruction (himage ret copy hret) hremove

/-- The parameters of the copy are fed by the operands of the call, in order. -/
theorem Region.ofCopy_ok {region : Region} (hok : ofCopy p m inputs = .ok region) :
    region.module = m ∧ ∀ param outer, region.bindings.image? param = some outer →
      (param, outer) ∈ (p.parameters m).zip inputs := by
  unfold ofCopy at hok
  dsimp only at hok
  split at hok
  · cases hok
  cases hok
  refine List.foldlRecOn (motive := fun region : Region => region.module = m ∧
    ∀ param outer, region.bindings.image? param = some outer →
      (param, outer) ∈ (p.parameters m).zip inputs) _ _ ?_ ?_
  · exact ⟨rfl, fun _ _ ho => nomatch ho⟩
  rintro region ⟨hmodule, hfed⟩ ⟨param, outer⟩ hpair
  have hbind : ∀ x o, (region.bindParam param outer).bindings.image? x = some o →
      (x, o) ∈ (p.parameters m).zip inputs :=
    Renaming.related_insert (R := fun x o => (x, o) ∈ (p.parameters m).zip inputs) hpair hfed
  dsimp only
  split
  · exact ⟨hmodule, hbind⟩
  · exact ⟨hmodule, hbind⟩

/-! ## The rules -/

theorem Op.IsAnchor.carriesModules (hop : op.IsAnchor) : op.carriesModules = false := by
  cases op <;> first | rfl | exact hop.elim


/-- The instructions that a rule uses up where it applies. -/
def Rule.used (rule : Rule) (found : Match) : List InstrId :=
  match rule with
  | fusedAttention => found.root :: (found.get? "gsg").toList
  | inputFusion => (found.get? "pw").toList
  | _ => [found.root]

section

variable (hp : s.program.Steady (some main)) (hroot : found.root ∈ s.program.body main)

include hp hroot

theorem Standalone.ends_apply
    (hop : ∃ inst, s.program.instr? found.root = some inst ∧ inst.op.IsAnchor) :
    (apply found).Ends s (Applied [found.root] s) := by
  obtain ⟨inst, hinst, hanchor⟩ := hop
  have hl := hp.toLinked
  have hinputs : ∀ i ∈ inst.inputs, i ∈ s.program.body main :=
    fun i hi => hl.mem_body_of_uses hroot ⟨inst, hinst, hi⟩
  rw [apply, ends_theProgram_bind, ends_bind, ends_lift_checked]
  intro inst' hi
  rw [instr_ok] at hi
  have he : inst' = inst := Option.some.inj (hi.symm.trans hinst)
  subst he
  refine Fusing.ends_region hp hl.feeders hroot (Fusing.ends_freshName _)
    (fun m => ?_) fun m inputs t hm ht _ hplaced => ?_
  · refine (Building.preserves_fuseAnchor hl.feeders hanchor.isReturn hinputs).bind fun _ => ?_
    exact .pure _
  · refine Fusing.ends_call hp ht hroot hplaced hinst hanchor.isBoundary hm hinputs fun t ht => ?_
    rw [hp.modules_eq_nil hroot hinst hanchor.carriesModules] at ht
    exact .of_merged ht

theorem Attention.Alone.ends_apply :
    (apply found).Ends s (Applied [found.root] s) := by
  have hl := hp.toLinked
  rw [apply, ends_theProgram_bind, ends_bind, ends_lift_checked]
  intro inst hinst
  rw [instr_ok] at hinst
  have hinputs : ∀ i ∈ inst.inputs, i ∈ s.program.body main :=
    fun i hi => hl.mem_body_of_uses hroot ⟨inst, hinst, hi⟩
  split
  · next scale hs =>
    have hinner : inst.op.isBoundary = false := by rw [op_of_scale hs]; rfl
    refine Fusing.ends_region hp hl.feeders hroot (Fusing.ends_freshName _)
      (fun m => ?_) fun m inputs t hm ht _ hplaced => ?_
    · exact (preserves_rebuild hl.feeders hinputs).bind fun _ => .pure _
    · refine Fusing.ends_call hp ht hroot hplaced hinst hinner hm hinputs fun t ht => ?_
      rw [hp.modules_eq_nil hroot hinst (by rw [op_of_scale hs]; rfl)] at ht
      exact .of_merged ht
  · exact .refl hp

theorem Attention.Fused.ends_apply {x : InstrId}
    (hop : ∃ inst, s.program.instr? found.root = some inst ∧ inst.op = .pointwise)
    (hget : found.get "gsg" = .ok x) (huses : s.program.Uses found.root x)
    (honly : ∀ j, s.program.Uses j x → j = found.root) :
    (apply found).Ends s (Applied [found.root, x] s) := by
  obtain ⟨pwInst, hpw, hop⟩ := hop
  have hinner : pwInst.op.isBoundary = false := by rw [hop]; rfl
  have hl := hp.toLinked
  have hF := hl.feeders_besides honly
  have hbefore := hl.before_of_uses hroot huses
  rw [apply, ends_bind, Fusing.ends_get]
  intro attention hattention
  obtain rfl : attention = x := Except.ok.inj (hattention.symm.trans hget)
  rw [ends_theProgram_bind, ends_bind, ends_lift_checked]
  intro inst hinst
  rw [instr_ok] at hinst
  split
  · next scale hs =>
    rw [ends_bind, ends_lift_checked]
    intro pwInst' hi
    rw [instr_ok] at hi
    have he : pwInst' = pwInst := Option.some.inj (hi.symm.trans hpw)
    subst he
    split
    · next body hbody =>
      rw [ends_bind, ends_lift_graph]
      intro type _
      rw [ends_bind, ends_lift_checked]
      intro module _
      have hinputs : ∀ i ∈ inst.inputs,
          Before (s.program.body main) i found.root ∧ i ≠ attention := fun i hi => by
        have hi := hl.before_of_uses hbefore.left_mem ⟨inst, hinst, hi⟩
        exact ⟨hi.trans (hl.nodup main) hbefore, hi.ne (hl.nodup main)⟩
      have hbelow : s.program.Below body :=
        hp.toFramed.below_of_mem hroot hpw (hbody ▸ List.mem_singleton_self body)
      refine Fusing.ends_region hp hF hroot (Fusing.ends_freshName _)
        (fun m => ?_) fun m inputs t hm ht hunread hplaced => ?_
      · refine (preserves_rebuild hF hinputs).bind fun value => ?_
        refine (Building.preserves_rehomeLiterals body _).bind fun _ w hw => ?_
        -- the attention has a value in the region, and is no operand of the call
        refine Building.ends_fuse hbelow .plain
          (w := { w with region := w.region.know attention value })
          ⟨hw.module, hw.grown, hw.fed⟩ fun i hi => ?_
        by_cases he : i = attention
        · exact .inr (by rw [he]; exact Building.contains_know ..)
        · exact .inl ⟨hl.before_of_uses hroot ⟨_, hpw, hi⟩, he⟩
      · refine Fusing.ends_absorb hp ht hunread hplaced hroot hpw hinner hm hbefore.left_mem hinst
          (by rw [op_of_scale hs]; rfl) (fun hx => hx.2 rfl) honly fun t ht => ?_
        rw [hbody] at ht
        exact Fusing.ends_release ht fun t ht => .of_merged ht
    · exact .refl hp
  · exact .refl hp

theorem InputFusion.ends_apply {x : InstrId} (hget : found.get "pw" = .ok x)
    (hop : ∃ inst, s.program.instr? x = some inst ∧ inst.op = .pointwise)
    (huses : s.program.Uses found.root x)
    (honly : ∀ j, s.program.Uses j x → j = found.root) :
    (apply found).Ends s (Applied [x] s) := by
  obtain ⟨pwInst, hinst, hop⟩ := hop
  have hl := hp.toLinked
  have hF := hl.feeders_besides honly
  have hbefore := hl.before_of_uses hroot huses
  rw [apply, ends_bind, Fusing.ends_get]
  intro pw hpw
  obtain rfl : pw = x := Except.ok.inj (hpw.symm.trans hget)
  rw [ends_theProgram_bind, ends_bind, ends_lift_checked]
  intro callInst hcall
  rw [ends_bind, ends_lift_checked]
  intro pwInst' hi
  rw [instr_ok] at hcall hi
  have he : pwInst' = pwInst := Option.some.inj (hi.symm.trans hinst)
  subst he
  split
  · next oldRegion body hmodules =>
    obtain ⟨hcarried, hbody⟩ := Prod.mk.inj hmodules
    split
    · next anchor hanchor =>
      split
      · exact .refl hp
      have hinner : callInst.op.isBoundary = false := by
        cases hop : callInst.op <;> simp_all [Op.anchor?, Op.isBoundary, Op.isParam, Op.isLiteral,
          Op.isReturn]
      rw [ends_bind, ends_lift_checked]
      intro bodyModule _
      rw [ends_bind, ends_lift_checked]
      intro oldModule _
      have hinputs : ∀ i ∈ pwInst'.inputs,
          Before (s.program.body main) i found.root ∧ i ≠ pw := fun i hi => by
        have hi := hl.before_of_uses hbefore.left_mem ⟨_, hinst, hi⟩
        exact ⟨hi.trans (hl.nodup main) hbefore, hi.ne (hl.nodup main)⟩
      have hold : s.program.Below oldRegion :=
        hp.toFramed.below_of_mem hroot hcall (hcarried ▸ List.mem_singleton_self oldRegion)
      have hbelow : s.program.Below body :=
        hp.toFramed.below_of_mem hbefore.left_mem hinst (hbody ▸ List.mem_singleton_self body)
      refine Fusing.ends_region hp hF hroot (Fusing.ends_uniqueName _)
        (fun m => ?_) fun m inputs t hm ht hunread hplaced => ?_
      · refine (Building.preserves_fuse hbelow .commonShape hinputs).bind fun produced => ?_
        split
        · next value _ =>
          intro w hw
          refine Building.ends_fuse hold .plain
            (w := { w with region := w.region.know pw value })
            ⟨hw.module, hw.grown, hw.fed⟩ fun i hi => ?_
          by_cases he : i = pw
          · exact .inr (by rw [he]; exact Building.contains_know ..)
          · exact .inl ⟨hl.before_of_uses hroot ⟨_, hcall, hi⟩, he⟩
        · exact .refuse fun cause h => by cases h
      · refine Fusing.ends_absorb hp ht hunread hplaced hroot hcall hinner hm hbefore.left_mem hinst
          (by rw [hop]; rfl) (fun hx => hx.2 rfl) honly fun t ht => ?_
        rw [hcarried] at ht
        exact Fusing.ends_release ht fun t ht =>
          .of_merged (ht.mono (List.subset_cons_self ..) (List.Subset.refl []))
    · exact .refl hp
  · exact .refl hp

theorem AnchorPointwise.ends_apply
    (hop : ∃ inst, s.program.instr? found.root = some inst ∧ inst.op = .pointwise)
    (hx : ∀ x, found.get "x" = .ok x → s.program.Uses found.root x)
    (hanchor : ∀ anchor, found.get "anchor" = .ok anchor → anchor ∈ s.program.body main ∧
      ∃ inst, s.program.instr? anchor = some inst ∧ inst.op.IsAnchor) :
    (apply found).Ends s (Applied [found.root] s) := by
  obtain ⟨pwInst, hpw, hop⟩ := hop
  have hinner : pwInst.op.isBoundary = false := by rw [hop]; rfl
  have hl := hp.toLinked
  have hF := hl.feeders
  rw [apply, ends_bind, Fusing.ends_get]
  intro anchor hget
  obtain ⟨hmem, anchorInst, hai, hop⟩ := hanchor anchor hget
  rw [ends_bind, Fusing.ends_get]
  intro x hget
  have hxmem := hl.mem_body_of_uses hroot (hx x hget)
  rw [ends_theProgram_bind, ends_bind, ends_lift_checked]
  intro pwInst' hi
  rw [instr_ok] at hi
  have he : pwInst' = pwInst := Option.some.inj (hi.symm.trans hpw)
  subst he
  split
  · exact .refl hp
  split
  · next body hbody =>
    rw [ends_bind, ends_lift_checked]
    intro chain hchain
    have hwithin := ReshapeChain.within_walk hF.closed hxmem hchain
    rw [ends_bind, ends_lift_checked]
    intro anchorInst' hi
    rw [instr_ok] at hi
    have he : anchorInst' = anchorInst := Option.some.inj (hi.symm.trans hai)
    subst he
    rw [ends_bind, ends_lift_checked]
    intro multi _
    rw [ends_bind, ends_lift_graph]
    intro type _
    rw [ends_bind, ends_lift_checked]
    intro module _
    have hinputs : ∀ i ∈ anchorInst'.inputs, i ∈ s.program.body main :=
      fun i hi => hl.mem_body_of_uses hmem ⟨_, hai, hi⟩
    have hbelow : s.program.Below body :=
      hp.toFramed.below_of_mem hroot hpw (hbody ▸ List.mem_singleton_self body)
    refine Fusing.ends_region hp hF hroot (Fusing.ends_uniqueName _)
      (fun m => ?_) fun m inputs t hm ht _ hplaced => ?_
    · exact preserves_steps hF hop hinputs hwithin.ops hbelow
        (fun i hi => hl.mem_body_of_uses hroot ⟨_, hpw, hi⟩) multi
    · have hrelease : ∀ t : Session, Merged [found.root] pwInst'.modules s.program t.program → (do
          Edit.releaseModule body
          return true : Fusing Bool).Ends t (Applied [found.root] s) := fun t ht => by
        rw [hbody] at ht
        exact Fusing.ends_release ht fun t ht => .of_merged ht
      split
      · rw [ends_bind]
        refine ends_edit.mpr fun _ q hq => ?_
        obtain ⟨⟨t', hadvance, htrim, hspent⟩, hsplit⟩ := splitCall_ok hl ht hroot hmem hpw hai
          hinner hop.isBoundary hm hq
        obtain ⟨call, hcalled⟩ := hsplit hplaced
        rw [hp.modules_eq_nil hmem hai hop.carriesModules, List.nil_append] at hcalled
        refine Fusing.ends_prune hp hadvance htrim hcalled (fun i hi => ?_)
          fun t _ ht ht' hcalled _ => hrelease t
            ⟨⟨ht, fun i hi => List.mem_singleton.mp hi ▸ hspent.residue ht'.residue⟩,
              m, call, hcalled⟩
        obtain hi | hi := List.mem_append.mp hi
        · exact hwithin.nodes i hi
        · exact hinputs i hi
      · refine Fusing.ends_call hp ht hroot hplaced hpw hinner hm (fun i hi => ?_) hrelease
        exact List.mem_singleton.mp hi ▸ hxmem
  · exact .refl hp

theorem SplitReduce.ends_apply
    (hop : ∃ inst axes, s.program.instr? found.root = some inst ∧ inst.op = .splitFusedReduce axes)
    (hgemm : ∀ x, found.get "gemm" = .ok x → s.program.Uses found.root x) :
    (apply found).Ends s (Applied [found.root] s) := by
  obtain ⟨inst, axes, hri, hop⟩ := hop
  have hinner : inst.op.isBoundary = false := by rw [hop]; rfl
  have hl := hp.toLinked
  -- the reduction itself does not feed the region
  have hF := hl.feeders_before found.root
  rw [apply, ends_bind, Fusing.ends_get]
  intro gemm hget
  have hbefore := hl.before_of_uses hroot (hgemm gemm hget)
  rw [ends_theProgram_bind, ends_bind, ends_lift_checked]
  intro admitted hadmits
  split
  · exact .refl hp
  next hadmitted =>
  obtain rfl : admitted = true := by simpa using hadmitted
  rw [ends_bind, ends_lift_checked]
  intro inst' hi
  rw [instr_ok] at hi
  have he : inst' = inst := Option.some.inj (hi.symm.trans hri)
  subst he
  rw [ends_bind, ends_lift_checked]
  intro gemmInst hgi
  rw [instr_ok] at hgi
  have hinputs : ∀ i ∈ gemmInst.inputs, Before (s.program.body main) i found.root :=
    fun i hi => hF.closed hbefore ⟨_, hgi, hi⟩
  split
  · next body oldRegion hmodules =>
    obtain ⟨hbody, hcarried⟩ := Prod.mk.inj hmodules
    have hbelow : s.program.Below body :=
      hp.toFramed.below_of_mem hroot hri (hbody ▸ List.mem_singleton_self body)
    have hold : s.program.Below oldRegion :=
      hp.toFramed.below_of_mem hbefore.left_mem hgi (hcarried ▸ List.mem_singleton_self oldRegion)
    split
    · next oldReturn hreturn =>
      split
      · next anchor hanchor =>
        have hgb : gemmInst.op.isBoundary = false := by
          cases hop : gemmInst.op <;> simp_all [Op.anchor?, Op.isBoundary, Op.isParam,
            Op.isLiteral, Op.isReturn]
        rw [ends_bind, ends_lift_checked]
        intro oldModule _
        rw [ends_bind, ends_lift_checked]
        intro bodyModule _
        rw [ends_bind]
        refine (Fusing.ends_uniqueName _).mono fun name t ht => ?_
        rw [ends_bind]
        refine ends_edit.mpr ?_
        rintro ⟨m, value⟩ q hq
        rw [show HoldsProgram.program t = s.program from ht] at hq
        have hgrown := copyOpen_ok hp hroot hold hq
        rw [ends_theProgram_bind, ends_bind, ends_lift_graph]
        intro region hregion
        obtain ⟨hmodule, hfed⟩ := Region.ofCopy_ok hregion
        have hgrowing : Building.Growing (Before (s.program.body main) · found.root) s.program m
            ⟨q, region.know gemm value⟩ :=
          ⟨hmodule, hgrown, fun param outer ho =>
            hinputs outer (List.of_mem_zip (hfed param outer ho)).2⟩
        rw [ends_bind]
        refine Fusing.ends_building ?_
        have hfuse := Building.preserves_fuse (p := s.program) (m := m) hbelow .inlinePointwise
          fun i hi => hl.before_of_uses hroot ⟨_, hri, hi⟩
        refine ((hfuse.bind fun values => .pure _) _ hgrowing).mono fun returns w hw => ?_
        dsimp only
        rw [ends_bind, ends_lift_checked]
        intro last _
        rw [ends_bind]
        refine (Fusing.ends_complete hl hF
          (ends_pure.mpr ⟨hw.module, hw.grown, hw.fed⟩)).mono ?_
        rintro inputs t ⟨ht, hunread, hplaced⟩
        have hm := hgrown.inner.symm
        have hrelease : ∀ t : Session, Merged [found.root] inst'.modules s.program t.program → (do
            Edit.releaseModule body
            Edit.releaseModule oldRegion
            return true : Fusing Bool).Ends t (Applied [found.root] s) := fun t ht => by
          have hpending : inst'.modules ⊆ [body, oldRegion] := by simp [hbody]
          exact Fusing.ends_release (ht.mono (List.Subset.refl _) hpending) fun t ht =>
            Fusing.ends_release ht fun t ht => .of_merged ht
        have hroots : ∀ i ∈ [gemm], i ∈ s.program.body main :=
          fun i hi => List.mem_singleton.mp hi ▸ hbefore.left_mem
        split
        · rw [ends_bind]
          refine ends_edit.mpr fun _ r hr => ?_
          have hglued : inst'.type.isTuple = true →
              inst'.type.isTuple = true ∧ t.program.OnlyGlued found.root := by
            refine fun htuple => ⟨htuple, ?_⟩
            refine ht.onlyGlued (onlyGlued_of_admits hl hri htuple hadmits) hroot
              (fun j huse => ?_) hl
            exact hunread.users j _ hroot (fun hself => hself.ne (hl.nodup main) rfl) huse
          obtain ⟨⟨t', hadvance, htrim, hspent⟩, call, hcalled⟩ := splitCall_ok hl ht hroot
            hbefore.left_mem hri hgi hinner hgb hm hglued hplaced hr
          exact Fusing.ends_prune hp hadvance htrim hcalled hroots fun t _ ht ht' hcalled _ =>
            hrelease t ⟨⟨ht, fun i hi => List.mem_singleton.mp hi ▸ hspent.residue ht'.residue⟩,
              m, call, hcalled⟩
        · exact Fusing.ends_call hp ht hroot hplaced hri hinner hm hroots hrelease
      · exact .refl hp
    · exact .refl hp
  · exact .refl hp

end

/-- **Every rule keeps the program and uses up its instructions, or declines and leaves the session
as it was.** -/
theorem Rule.ends_apply (rule : Rule) (hp : s.program.Steady (some main))
    (hroot : root ∈ s.program.body main)
    (hmatch : rule.matcher.run s.program h root = .ok (some found)) :
    (rule.apply found).Ends s (Applied (rule.used found) s) := by
  have hr : found.root = root := (Matcher.run_ok hmatch).1
  have hroot' : found.root ∈ s.program.body main := hr ▸ hroot
  have hl := hp.toLinked
  cases rule with
  | fusedAttention =>
    obtain ⟨-, hop, hcapture⟩ := Attention.Fused.match_ok hl hmatch
    obtain ⟨x, hget, hx, honly⟩ := hcapture
    have hused : fusedAttention.used found = [found.root, x] := by
      rw [used, Match.get_ok.mp hget]
      rfl
    exact hused ▸ Attention.Fused.ends_apply hp hroot' (hr ▸ hop) hget (hr ▸ hx) (hr ▸ honly)
  | attention => exact Attention.Alone.ends_apply hp hroot'
  | anchorPointwise conv dot =>
    obtain ⟨-, hop, hx, hanchor⟩ := AnchorPointwise.match_ok hl hroot hmatch
    exact AnchorPointwise.ends_apply hp hroot' (hr ▸ hop) (hr ▸ hx) hanchor
  | standaloneConv mode =>
    obtain ⟨-, hop⟩ := Standalone.match_ok (Eq.refl ((Predicate.conv mode).isAnchor)) hmatch
    exact Standalone.ends_apply hp hroot' (hr ▸ hop)
  | standaloneDot mode =>
    obtain ⟨-, hop⟩ := Standalone.match_ok (Eq.refl ((Predicate.dot mode false).isAnchor)) hmatch
    exact Standalone.ends_apply hp hroot' (hr ▸ hop)
  | splitReduce =>
    obtain ⟨-, hop, hgemm⟩ := SplitReduce.match_ok hmatch
    exact SplitReduce.ends_apply hp hroot' (hr ▸ hop) (hr ▸ hgemm)
  | inputFusion =>
    obtain ⟨-, hcapture⟩ := InputFusion.match_ok hl hmatch
    obtain ⟨x, hget, hop, hx, honly⟩ := hcapture
    have hused : inputFusion.used found = [x] := by
      rw [used, Match.get_ok.mp hget]
      rfl
    exact hused ▸ InputFusion.ends_apply hp hroot' hget hop (hr ▸ hx) (hr ▸ honly)

end OffloadFusion
