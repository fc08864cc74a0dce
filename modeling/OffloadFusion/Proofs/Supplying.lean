import OffloadFusion.Proofs.Bodies
import OffloadFusion.Proofs.References
import OffloadFusion.Proofs.Rerouting

/-!
# Regions and what supplies them

A rule builds a region, puts a call of it in the place of an instruction, its root, and prunes what
the call does not need. Which operands the call gets is known from the parameters of the region.

* `Building.Draws`: the instructions that feed the parameters of a region, in order.
* `Building.ends_fuse_apart`: a body that an instruction of the main module carries is fused.
* **`Fusing.ends_supplied`**: the operands are those instructions, or row-major copies of them.
* `Extended.call`: the root becomes the call.
* `Fusing.ends_prune_before`, `Fusing.ends_release_sparing`: what is pruned spares the call.
* `supplied_of_rerouted`, `supplied_of_sparing`: the operands stay what they are.
-/

namespace OffloadFusion

open OffloadFusion.Action Program

/-! ## Operations that stay -/

section

variable {p q r : Program} {i value : InstrId} {m : ModuleId} {op : Op} {inputs args : List InstrId}
  {modules : List ModuleId} {inst : Instruction} {dims : Shape} (hl : q.Linked)
  (hform : ∀ j ∈ q.body m, SameForm q r j)

include hl hform

theorem Program.Made.of_sameForm (h : Made m p q op inputs modules i) :
    Made m p r op inputs modules i := by
  obtain ⟨inst, hi, rfl, rfl, rfl, ho⟩ := h.made
  obtain ⟨inst', hi', hop, hin, hmod, ho'⟩ := (hform i (h.mem_body hl)).exists_instr hi
  exact ⟨h.gone, inst', hi', hop, hin, hmod, ho'.trans ho⟩

theorem Replay.Inlined.of_sameForm (h : Inlined p m p q inst args value) :
    Inlined p m p r inst args value := by
  obtain ⟨body, t, values, result, hmod, htype, hlen, hparams, hliterals, himage, hhead, hvalue⟩ :=
    h
  refine ⟨body, t, values, result, hmod, htype, hlen, hparams, fun i hi hop => ?_,
    himage.mono (fun _ _ _ hcopied => Made.of_sameForm hl hform hcopied) (fun _ _ => id), hhead,
    hvalue⟩
  obtain ⟨value, hvalue, inst, t, data, copy, hinst, hliteral, hcopy, hwiden⟩ := hliterals i hi hop
  exact ⟨value, hvalue, inst, t, data, copy, hinst, hliteral, hcopy.of_sameForm hl hform,
    hwiden.of_sameForm hl hform⟩

section

variable (hbody : r.body m = q.body m)

include hbody

theorem Program.parameters_of_sameForm : r.parameters m = q.parameters m := by
  rw [Program.parameters, Program.parameters, hbody]
  refine List.filter_congr fun j hj => ?_
  obtain ⟨inst, hi, -⟩ := hl.owned hj
  obtain ⟨inst', hi', hop, -⟩ := (hform j hj).exists_instr hi
  rw [hasOp, hasOp, hi, hi', Option.any_some, Option.any_some, hop]

theorem Program.returned_of_sameForm : r.returned m = q.returned m := by
  cases hlast : (q.body m).getLast? with
  | none => rw [returned, returned, hbody, hlast, Option.bind_none, Option.bind_none]
  | some last =>
    have hmem := List.mem_of_getLast? hlast
    obtain ⟨inst, hi, -⟩ := hl.owned hmem
    obtain ⟨inst', hi', hop, hin, -⟩ := (hform last hmem).exists_instr hi
    rw [returned_eq hlast hi, returned_eq (hbody ▸ hlast) hi', hop, hin]

end

end

theorem Program.Adds.form_of_mem {p q : Program} {m k : ModuleId} {j : InstrId} (h : Adds m p q)
    (hl : p.Linked) (hj : j ∈ p.body k) : SameForm p q j := by
  obtain ⟨inst, hi, -⟩ := hl.owned hj
  exact (h.core hi).form

/-! ## Feeders -/

namespace Building

variable {base : Program} {m body : ModuleId} {w w' : Workspace}
  {feeders inputs results returns : List InstrId} {mode : Replay.Mode}

/-- The region draws its parameters from the instructions, in order. -/
def Draws (m : ModuleId) (w : Workspace) (feeders : List InstrId) : Prop :=
  List.Forall₂ (fun param outer => w.region.bindings.image? param = some outer)
    (w.program.parameters m) feeders

theorem Tracing.draws {params rest uppers : List InstrId}
    (h : Tracing base m params rest uppers w) :
    Draws m w uppers := by
  rw [Draws, h.filling.parameters_eq]
  exact h.bound

/-- The region of a body is also fed by those of its inputs that were not known. -/
theorem Fused.draws (h : Fused base m body mode inputs results w w') (hl : w.program.Linked)
    (hfed : Draws m w feeders) : Draws m w' (feeders ++ w.region.unknown inputs) := by
  obtain ⟨params, hparams, hdeclared⟩ := h.declared
  rw [Draws, hparams]
  refine List.rel_append (forall₂_imp_of_mem hfed fun param hmem upper hupper => ?_)
    (hdeclared.flip.imp fun param i hdecl => ?_)
  · obtain ⟨inst, hi, -⟩ := hl.owned (List.mem_of_mem_filter hmem)
    exact (h.continues.bound hi).trans hupper
  · obtain ⟨-, _, _, _, -, -, -, hbinding⟩ := hdecl
    exact hbinding

/-- A region gives its returns and is fed in the order of its parameters. -/
theorem Draws.ends_finish (h : Draws m w feeders) (hl : w.program.Linked)
    (hmodule : w.region.module = m) : (finish returns).Ends w fun outers w' =>
      outers = feeders ∧ Adds m w.program w'.program ∧
        w'.program.parameters m = w.program.parameters m ∧ w'.program.returned m = returns := by
  rw [finish, ends_theModule_bind, hmodule, ends_bind, ends_edit]
  intro ret q hok
  obtain ⟨hadds, hparams, hreturned⟩ := hl.returned_addReturn hok
  rw [ends_theProgram_bind]
  show ((q.parameters m).mapM feederOf).Ends ⟨q, w.region⟩ _
  rw [hparams]
  refine (ends_feeders (w := ⟨q, w.region⟩) _).mono ?_
  rintro outers _ ⟨rfl, houters⟩
  have hunique : Relator.RightUnique fun param outer =>
      w.region.bindings.image? param = some outer := fun _ _ _ ha hb =>
    Option.some.inj (ha.symm.trans hb)
  exact ⟨hunique.forall₂ houters h, hadds, hparams, hreturned⟩

/-! ## Bodies of the main module -/

/-- A module is another one than the region, does not refer to it and lists nothing that the main
module lists. -/
structure Apart (p : Program) (m body : ModuleId) : Prop where
  ne : body ≠ m
  free : m ∉ p.references body
  below : p.Below body
  disjoint : ∀ {i}, i ∈ p.body main → i ∉ p.body body

theorem Apart.of_mem {p : Program} {root : InstrId} {inst : Instruction} (hp : p.Valid)
    (hm : p.module? m = none) (hroot : root ∈ p.body main) (hinst : p.instr? root = some inst)
    (hbody : body ∈ inst.modules) : Apart p m body := by
  have hl := hp.toLinked
  obtain ⟨halive, hne⟩ := hp.referenced hinst hbody
  rw [hl.owner_unique hinst hroot] at hne
  refine ⟨fun he => ?_, fun hmem => ?_, hp.toFramed.below_of_mem hroot hinst hbody,
    fun {i} hi hmem => ?_⟩
  · rw [he, hm] at halive
    cases halive
  · obtain ⟨i, inst, hi, -, hk⟩ := hl.refers_iff.mpr hmem
    have := (hp.referenced hi hk).1
    rw [hm] at this
    cases this
  · obtain ⟨inst, hinst, ho⟩ := hl.owned hmem
    exact hne (ho.symm.trans (hl.owner_unique hinst hi))

/-- No return is known to a region but those of the main module. -/
def Returnless (p : Program) (w : Workspace) : Prop :=
  ∀ i, w.region.values.contains i = true → i ∈ p.body main ∨ p.hasOp Op.isReturn i = false

theorem Returnless.know {p : Program} {i value : InstrId} (h : Returnless p w)
    (hi : i ∈ p.body main) : Returnless p { w with region := w.region.know i value } := by
  intro j hj
  rw [Renaming.contains, show (w.region.know i value).values.image? j = _ from
    Renaming.image?_insert ..] at hj
  split at hj
  · next he => exact .inl (he ▸ hi)
  · exact h j hj

/-- **A body of the main module is fused.** -/
theorem ends_fuse_apart {p : Program} {F : InstrId → Prop} (mode : Replay.Mode) (hp : p.Valid)
    (hapart : Apart p m body) (hgrowing : Growing F p m w) (hadds : Adds m p w.program)
    (hknown : Returnless p w) (hinputs : ∀ i ∈ inputs, i ∈ p.body main)
    (hfeeds : ∀ i ∈ inputs, F i ∨ w.region.values.contains i = true) :
    (fuse body inputs mode).Ends w fun results w' => Growing F p m w' ∧ Adds m p w'.program ∧
      Returnless p w' ∧ Fused p m body mode inputs results w w' := by
  have himage := ends_fuse_image mode hp hgrowing.module hadds hapart.ne hapart.free
    (fun i hi => hapart.disjoint (hinputs i hi)) fun i hi hret => by
      refine Option.not_isSome_iff_eq_none.mp fun hcontains => ?_
      obtain hmain | hnot := hknown i hcontains
      · exact hapart.disjoint hmain hi
      · rw [hret] at hnot
        cases hnot
  refine ((ends_fuse hapart.below mode hgrowing hfeeds).and himage).mono ?_
  rintro results w' ⟨hgrowing', hfused⟩
  refine ⟨hgrowing', hadds.trans hfused.continues.adds, fun i hi => ?_, hfused⟩
  obtain hold | hmem | ⟨-, hnot⟩ := hfused.only hi
  · exact hknown i hold
  · exact .inl (hinputs i hmem)
  · exact .inr hnot

end Building

namespace Program

variable {p q r : Program} {root old new i j : InstrId} {m : ModuleId} {op : Op}
  {inst : Instruction} {feeders inputs operands returns : List InstrId} {u : Unit}

/-! ## A finished region -/

/-- The module is finished by a return of the values, and what it lists stays. -/
structure Finished (m : ModuleId) (returns : List InstrId) (p q : Program) : Prop where
  listed : ∀ j ∈ p.body m, j ∈ q.body m
  form : ∀ j ∈ p.body m, SameForm p q j
  parameters : q.parameters m = p.parameters m
  returned : q.returned m = returns

/-- The instruction calls the region of an anchor. -/
def Calls (p : Program) (i : InstrId) (op : Op) (inputs : List InstrId) (m : ModuleId) : Prop :=
  ∃ inst, p.instr? i = some inst ∧ inst.op = .offload op ∧ inst.inputs = inputs ∧
    inst.modules = [m]

theorem Calls.of_sameForm (h : SameForm p q i) (hc : p.Calls i op inputs m) :
    q.Calls i op inputs m := by
  obtain ⟨inst, hi, hop, rfl, hmodules⟩ := hc
  obtain ⟨inst', hi', hop', hin, hmod, -⟩ := h.exists_instr hi
  exact ⟨inst', hi', hop'.trans hop, hin, hmod.trans hmodules⟩

/-! ## The operands of the call -/

/-- What is supplied is no instruction of before but one that feeds the region. -/
theorem operand_ne (hsupplied : List.Forall₂ (Supplied p q) feeders operands) (hi : i ∈ operands)
    (hj : (p.instr? j).isSome) (hne : ∀ u ∈ feeders, u ≠ j) : i ≠ j := by
  rintro rfl
  obtain ⟨u, hu, t, -, ⟨-, rfl⟩ | ⟨-, -, hnew, -⟩⟩ := forall₂_exists hsupplied.flip hi
  · exact hne i hu rfl
  · rw [hnew] at hj
    cases hj

theorem supplied_of_rerouted (hsupplied : List.Forall₂ (Supplied p q) feeders operands)
    (hr : Rerouted root old new q r) (hroot : (p.instr? root).isSome)
    (hold : ∀ u ∈ feeders, u ≠ old) : List.Forall₂ (Supplied p r) feeders operands := by
  refine forall₂_imp_of_mem hsupplied fun u hu i hi => hi.of_copy fun hnew hnode => ?_
  refine (hr.kept fun he => ?_).node hnode fun hmem => hold u hu (List.mem_singleton.mp hmem).symm
  rw [he] at hnew
  rw [hnew] at hroot
  cases hroot

theorem supplied_of_sparing (hsupplied : List.Forall₂ (Supplied p q) feeders operands)
    (hs : Sparing root q r) (hcall : r.Calls i op operands m) :
    List.Forall₂ (Supplied p r) feeders operands := by
  obtain ⟨inst, hinst, -, hinputs, -⟩ := hcall
  refine supplied_of_sameForm hsupplied fun j hj => ?_
  obtain ⟨inst', hj', -⟩ := hs.steady.toLinked.operand hinst (hinputs ▸ hj)
  exact (hs.core hj').form

/-! ## The call -/

/-- **The root becomes the call.** -/
theorem Extended.call (hext : Extended root p q) (hl : p.Linked) (hroot : root ∈ p.body main)
    (hinst : p.instr? root = some inst) (hinner : inst.op.isBoundary = false) (hm : m ≠ main)
    (hok : Edit.replaceWith root (.offload op) operands [m] q = .ok u r) :
    Glued root (.offload op) operands [m] q r ∧ Advance p r ∧
      (∀ old new, Rerouted root old new q r) ∧ r.Calls root op operands m := by
  have hglued := hext.advance.replaceWith hl hroot hinst hinner rfl
    (fun hmem => hm (List.mem_singleton.mp hmem).symm) hok
  obtain ⟨old, hold, -⟩ := hext.advance.steady.owned (hext.advance.mem_body hl hroot)
  obtain ⟨inst', hinst', hop, hinputs, hmodules, -⟩ := hglued.rebuilt.self hold
  exact ⟨hglued, hext.advance.trans hglued.toAdvance, fun _ _ => .rebuilt hglued.rebuilt
    hext.advance.steady.toLinked hglued.steady.toLinked hold, inst', hinst', hop, hinputs, hmodules⟩

end Program

/-! ## Building it all -/

namespace Fusing

variable {p : Program} {root : InstrId} {m : ModuleId} {s : Session} {region : Region}
  {steps : Building (List InstrId)} {F : InstrId → Prop}
  {Q : List InstrId → List InstrId → Program → Prop}

/-- **The operands of a call supply its region in the order of the parameters.** -/
theorem ends_supplied (hl : p.Linked) (hF : p.Feeders F) (hroot : root ∈ p.body main)
    (hrootF : ¬ F root) (hsteps : steps.Ends ⟨s.program, region⟩ fun returns w =>
      Building.Growing F p m w ∧ Adds m p w.program ∧
        ∃ feeders, Building.Draws m w feeders ∧ Q returns feeders w.program) :
    (complete region steps).Ends s fun operands t => Extended root p t.program ∧
      Unread F p t.program operands ∧ p.module? m = none ∧ m ≠ main ∧
      ∃ returns feeders q, Q returns feeders q ∧ Finished m returns q t.program ∧
        List.Forall₂ (Supplied p t.program) feeders operands := by
  have hbuilt : (complete region steps).Ends s fun operands t =>
      (∀ {j inst}, p.instr? j = some inst → SameCore p t.program j) ∧
      (∀ {a b}, Before (p.body main) a b → Before (t.program.body main) a b) ∧
      p.module? m = none ∧ m ≠ main ∧ ∃ returns feeders q, Q returns feeders q ∧
        Finished m returns q t.program ∧
        List.Forall₂ (Supplied p t.program) feeders operands := by
    rw [complete, ends_bind]
    refine ends_building (hsteps.mono ?_)
    rintro returns w ⟨hgrows, hadds, feeders, hfed, hQ⟩
    rw [ends_bind]
    refine ends_building (((hfed.ends_finish hadds.linked hgrows.module).and
      (Building.ends_finish _ hgrows)).mono ?_)
    rintro _ w' ⟨⟨rfl, hadds', hparams, hreturned⟩, hfeeders, hgrows'⟩
    rw [ends_edit]
    intro operands q hok
    have hsteady := hgrows'.grown.steady
    have hmain := hgrows'.grown.body_main
    have hbase := hadds.trans hadds'
    obtain ⟨hpadded, hsupplied, -⟩ := Edit.supplied_of_contiguousFrom hsteady
      (fun i hi => hmain.symm ▸ hF.inner (hfeeders i hi)) (fun i hi type htype => by
        obtain ⟨inst, hinst, -⟩ := hl.owned (hF.inner (hfeeders i hi))
        exact (hbase.core hinst).symm.hasType htype)
      (fun j => hbase.gone) (fun _ _ hcopy => by cases hcopy) hok
    have hbody : q.body m = w'.program.body m := hpadded.body hgrows'.grown.inner
    have hform : ∀ j ∈ w'.program.body m, SameForm w'.program q j := fun j hj => by
      obtain ⟨inst, hj, -⟩ := hsteady.owned hj
      exact (hpadded.core hj).form
    refine ⟨fun {j inst} hj => ?_, fun hbefore => hpadded.before (hmain.symm ▸ hbefore),
      hgrows'.grown.gone, hgrows'.grown.inner, returns, _, w.program, hQ,
      ⟨fun j hj => hbody.symm ▸ hadds'.body.subset hj, fun j hj => ?_, ?_, ?_⟩, hsupplied⟩
    · obtain ⟨inst', hj', -⟩ := hbase.exists_instr hj
      exact (hbase.core hj).trans (hpadded.core hj')
    · exact (hadds'.form_of_mem hadds.linked hj).trans (hform j (hadds'.body.subset hj))
    · exact (parameters_of_sameForm hsteady.toLinked hform hbody).trans hparams
    · exact (returned_of_sameForm hsteady.toLinked hform hbody).trans hreturned
  refine ((ends_complete hl hF (hsteps.mono fun _ _ h => h.1)).and hbuilt).mono ?_
  rintro operands t ⟨⟨hadvance, hunread, -⟩, hcore, hbefore, hrest⟩
  refine ⟨⟨hadvance, hcore, hbefore, fun {j} => ⟨hunread.users j root hroot hrootF, ?_⟩⟩, hunread,
    hrest⟩
  rintro ⟨inst, hj, hmem⟩
  exact (hcore hj).uses ⟨inst, hj, hmem⟩

/-! ## What is pruned -/

section

variable {rest : Fusing Bool} {Q : Bool → Session → Prop} (h : s.program.Steady (some main))
  (hroot : root ∈ s.program.body main)

include h hroot

theorem ends_prune_before {roots : List InstrId}
    (hbefore : ∀ i ∈ roots, Before (s.program.body main) i root)
    (hrest : ∀ t : Session, Sparing root s.program t.program → rest.Ends t Q) :
    (do
      discard <| Edit.prune roots
      rest : Fusing Bool).Ends s Q := by
  rw [ends_bind]
  refine ends_discard.mpr (ends_edit.mpr fun _ q hprune => hrest _ ?_)
  exact h.sparing_prune hroot hbefore hprune

theorem ends_prune_unread {x : InstrId} {inst : Instruction}
    (hx : Before (s.program.body main) x root) (hinst : s.program.instr? x = some inst)
    (hinner : inst.op.isBoundary = false) (hunread : ∀ j, ¬ s.program.Uses j x)
    (hrest : ∀ t : Session, Sparing root s.program t.program → t.program.instr? x = none →
      rest.Ends t Q) :
    (do
      discard <| Edit.prune [x]
      rest : Fusing Bool).Ends s Q := by
  rw [ends_bind]
  refine ends_discard.mpr (ends_edit.mpr fun _ q hprune => hrest _ ?_ ?_)
  · exact h.sparing_prune hroot (fun i hi => List.mem_singleton.mp hi ▸ hx) hprune
  · exact h.gone_of_prune hx.left_mem hinst hinner hunread hprune

theorem ends_release_sparing {body : ModuleId}
    (hrest : ∀ t : Session, Sparing root s.program t.program → rest.Ends t Q) :
    (do
      Edit.releaseModule body
      rest : Fusing Bool).Ends s Q := by
  rw [ends_bind]
  exact ends_edit.mpr fun _ q hrelease => hrest _ (h.sparing_releaseModule hroot hrelease)

theorem ends_sparing {roots : List InstrId} {body : ModuleId}
    (hbefore : ∀ i ∈ roots, Before (s.program.body main) i root) :
    (do
      discard <| Edit.prune roots
      Edit.releaseModule body
      return true : Fusing Bool).Ends s fun _ t => Sparing root s.program t.program :=
  ends_prune_before h hroot hbefore fun _ ht =>
    ends_release_sparing ht.steady (ht.mem_body h.toLinked hroot) fun _ hu =>
      ends_pure.mpr (ht.trans hu)

end

end Fusing

end OffloadFusion
