import OffloadFusion.Proofs.Refreshing
import OffloadFusion.Proofs.Rounds
import OffloadFusion.Proofs.Stopping

/-!
# Inferring types in module order

`Edit.inferInOrder i` infers the type of `i` and of all that depends on it, each once, in the order
of the module. `Edit.replaceArgument` infers along consumer lists instead, and may meet an
instruction while another operand still has its old type.

* `Refreshable.inferInOrder_of_queued`: a run along consumers that succeeds is repeated by the pass.
* `Refreshable.infer_between`: where types change in layout only, no instruction is met too early.
* `Refreshable.metEarly`: otherwise that is the only way in which the pass can succeed alone.
* **`replaceArgument_rederives`**: all of this for the edit. `sum_met_early` is a case where the
  pass succeeds alone.
-/

namespace OffloadFusion

/-- What depends on `i`, in the order of the module. -/
def Program.below (p : Program) (m : ModuleId) (i : InstrId) : List InstrId :=
  (p.body m).filter (p.reaches i)

namespace Edit

open Program

/-- Infers the type of an instruction once. -/
def inferOnce (i : InstrId) : Edit Unit := do
  let p ← get
  let inst ← p.findInstr i
  let type ← p.infer inst.op inst.inputs inst.modules
  set (p.modifyInstr i fun inst => { inst with type })

/-- Infers the types of `i` and of all that depends on it, each once in the order of the module. -/
def inferInOrder (i : InstrId) : Edit Unit := do
  let p ← get
  let inst ← p.findInstr i
  (p.below inst.owner i).forM inferOnce

variable {p q : Program} {i : InstrId} {left : List InstrId} {u : Unit}

theorem inferOnce_ok : inferOnce i p = .ok u q ↔ ∃ inst type, p.instr? i = some inst ∧
    p.infer inst.op inst.inputs inst.modules = .ok type ∧
    (p.modifyInstr i fun inst => { inst with type }) = q := by
  simp only [inferOnce, Action.get_bind_ok, Action.lift_bind_ok, findInstr_ok, Action.set_ok]
  constructor
  · rintro ⟨inst, hi, type, ht, hq⟩
    exact ⟨inst, type, hi, ht, hq⟩
  · rintro ⟨inst, type, hi, ht, hq⟩
    exact ⟨inst, hi, type, ht, hq⟩

theorem inferInOrder_ok : inferInOrder i p = .ok u q ↔ ∃ inst, p.instr? i = some inst ∧
    (p.below inst.owner i).forM inferOnce p = .ok u q := by
  simp only [inferInOrder, Action.get_bind_ok, Action.lift_bind_ok, findInstr_ok]

/-- **What each step of the pass keeps, the pass keeps.** -/
theorem forM_inferOnce_induction {I : List InstrId → Program → Prop}
    (hstep : ∀ {j left p a type}, I (j :: left) p → p.instr? j = some a →
      p.infer a.op a.inputs a.modules = .ok type →
        I left (p.modifyInstr j fun inst => { inst with type }))
    (h : I left p) (hok : left.forM inferOnce p = .ok u q) : I [] q := by
  induction left generalizing p with
  | nil =>
    cases hok
    exact h
  | cons j left ih =>
    rw [List.forM, Action.bind_ok] at hok
    obtain ⟨_, r, hj, hok⟩ := hok
    obtain ⟨a, type, ha, ht, rfl⟩ := inferOnce_ok.mp hj
    exact ih (hstep h ha ht) hok

end Edit

namespace Program

variable {p q r s : Program} {i j old new : InstrId} {m : ModuleId} {inst a : Instruction}
  {op : Op} {stack done left : List InstrId} {modules : List ModuleId} {type : ValueType} {u : Unit}

/-! ## The order of the pass -/

theorem Linked.mem_below (hl : p.Linked) (hi : i ∈ p.body m) :
    j ∈ p.below m i ↔ p.DependsOn i j := by
  rw [below, List.mem_filter, reaches_iff]
  exact ⟨And.right, fun hd => ⟨hl.mem_body_of_dependsOn hi hd, hd⟩⟩

/-- Consumers come later in the pass, and operands earlier or not at all. -/
theorem Linked.below_split (hl : p.Linked) (hi : i ∈ p.body m)
    (hsplit : p.below m i = done ++ j :: left) :
    (∀ c, p.Uses c j → c ∈ left) ∧ ∀ x, p.Uses j x → x ∉ j :: left := by
  have hn : (p.below m i).Nodup := (hl.nodup m).filter _
  have hmem : ∀ {k}, k ∈ done ++ j :: left ↔ p.DependsOn i k := hsplit ▸ hl.mem_below hi
  have hbefore : ∀ {k l}, p.Uses l k → p.DependsOn i k → k ∈ done ++ j :: left →
      Before (done ++ j :: left) k l := by
    intro k l hu hd hk
    have hkbody := hl.mem_body_of_dependsOn hi hd
    have hlbody := hl.mem_body_of_used hkbody hu
    have hb := (hl.before_of_uses hlbody hu).filter (reaches_iff.mpr hd)
      (reaches_iff.mpr (hd.tail hu))
    rwa [← hsplit]
  rw [hsplit] at hn
  have hj : p.DependsOn i j := hmem.mp (List.mem_append_right done List.mem_cons_self)
  refine ⟨fun c hu => ?_, fun x hu hx => ?_⟩
  · have hjc := hbefore hu hj (hmem.mpr hj)
    obtain hc | hc := List.mem_append.mp hjc.right_mem
    · exact absurd ((before_append_cons hn).mpr hc) (hjc.asymm hn)
    · exact (List.mem_cons.mp hc).resolve_left (hjc.ne hn).symm
  · have hxmem := List.mem_append_right done hx
    have hxj := (before_append_cons hn).mp (hbefore hu (hmem.mp hxmem) hxmem)
    exact (List.nodup_append.mp hn).2.2 x hxj x hx rfl

/-- **What each round along consumers keeps, the pass keeps**, if it stays true with more
instructions on the stack: consumers are still to come. -/
theorem Linked.inferInOrder_ok {I : List InstrId → Program → Prop} (hl : p.Linked)
    (hi : i ∈ p.body m) (hI : Edit.RoundInvariant I)
    (hmono : ∀ {stack stack' q}, Retyped p q → I stack q → stack ⊆ stack' →
      (∀ j ∈ stack', p.DependsOn i j) → I stack' q)
    (h : I [i] p) (hok : Edit.inferInOrder i p = .ok u q) : I [] q := by
  obtain ⟨inst, hinst, hok⟩ := Edit.inferInOrder_ok.mp hok
  obtain rfl := hl.owner_unique hinst hi
  have hstart : I (p.below inst.owner i) p := by
    refine hmono (.refl p) h (fun j hj => ?_) fun j hj => (hl.mem_below hi).mp hj
    rw [List.mem_singleton.mp hj]
    exact (hl.mem_below hi).mpr .refl
  have hrun := Edit.forM_inferOnce_induction (I := fun left q =>
    (∃ done, p.below inst.owner i = done ++ left) ∧ Retyped p q ∧ I left q)
    (fun {j left q a type} hleft hj ht => ?_) ⟨⟨[], rfl⟩, .refl p, hstart⟩ hok
  · exact hrun.2.2
  · obtain ⟨⟨done, hsplit⟩, hr, hleft⟩ := hleft
    have hr' := hr.trans (.modifyInstr q j type)
    have hlater := (hl.below_split hi hsplit).1
    refine ⟨⟨done ++ [j], by simp [hsplit]⟩, hr', hmono hr' (hI.retype hleft hj ht) (fun c hc => ?_)
      fun k hk => (hl.mem_below hi).mp (by simp [hsplit, hk])⟩
    obtain hc | hc := List.mem_append.mp hc
    · exact hlater c (hr.uses.mp (((hr.linked hl).mirrored hj).mp (List.mem_reverse.mp hc)))
    · exact hc

namespace Refreshable

variable (h : Refreshable m i p)

include h

/-- **A pass that succeeds leaves the inferred types behind.** -/
theorem inferInOrder_ok (hok : Edit.inferInOrder i p = .ok u q) : Queued m i p [] q :=
  h.linked.inferInOrder_ok h.mem h.disturbed.roundInvariant
    (fun _ hq hsub hin => hq.mono hsub fun hj => hin _ hj) h.disturbed.queued hok

theorem forM_inferOnce_of_queued (hq : Queued m i p [] q) (hsplit : p.below m i = done ++ left)
    (hs : RetypedBelow i p s) (hagree : ∀ x, x ∉ left → s.typeAt x = q.typeAt x) :
    ∃ r, left.forM Edit.inferOnce s = .ok ⟨⟩ r ∧ RetypedBelow i p r ∧
      ∀ x, r.typeAt x = q.typeAt x := by
  induction left generalizing done s with
  | nil => exact ⟨s, rfl, hs, fun x => hagree x List.not_mem_nil⟩
  | cons j left ih =>
    have hl := h.linked
    have hd : p.DependsOn i j := (hl.mem_below h.mem).mp (by simp [hsplit])
    have hearlier := (hl.below_split h.mem hsplit).2
    have hmem := h.disturbed.mem_body hd
    obtain ⟨b, hb, -⟩ := hl.owned hmem
    have hinfer := hq.toRetypedBelow.infer hl.wired h.mem hs (h.spares hmem b hb)
      (fun x hx => hagree x (hearlier x ⟨b, hb, hx⟩)) (hq.infer_ok hb hmem List.not_mem_nil)
    have hnext : p.below m i = (done ++ [j]) ++ left := by simp [hsplit]
    obtain ⟨r, hr, hrest⟩ := ih hnext (hs.modifyInstr hd (q.typeAt j)) fun x hx => by
      rw [typeAt_retype (hs.instr? hb)]
      split
      · next hxj => rw [hxj]
      · next hxj => exact hagree x (List.not_mem_cons_of_ne_of_not_mem hxj hx)
    refine ⟨r, ?_, hrest⟩
    rw [List.forM, Action.bind_ok]
    exact ⟨⟨⟩, _, Edit.inferOnce_ok.mpr ⟨_, _, hs.instr? hb, hinfer, rfl⟩, hr⟩

/-- **A run along consumers that succeeds is repeated by the pass.** -/
theorem inferInOrder_of_queued (hq : Queued m i p [] q) :
    ∃ r, Edit.inferInOrder i p = .ok ⟨⟩ r ∧ ∀ j, r.instr? j = q.instr? j := by
  obtain ⟨inst, hi, rfl⟩ := h.linked.owned h.mem
  have hsplit : p.below inst.owner i = [] ++ p.below inst.owner i := rfl
  obtain ⟨r, hok, hr, htypes⟩ := h.forM_inferOnce_of_queued hq hsplit (.refl i p) fun x hx =>
    (hq.typeAt_eq fun hd => hx ((h.linked.mem_below h.mem).mpr hd)).symm
  have hqr : Retyped q r := hq.toRetyped.symm.trans hr.toRetyped
  exact ⟨r, Edit.inferInOrder_ok.mpr ⟨inst, hi, hok⟩, fun j => hqr.instr?_eq (htypes j)⟩

end Refreshable

/-! ## Types on the way -/

theorem Linked.infer_ok_iff (hl : p.Linked) (hj : p.instr? j = some a) :
    p.infer op a.inputs modules = .ok type ↔ ∃ signatures,
      List.Forall₂ (fun k s => p.signature k = .ok s) modules signatures ∧
      op.inferType (a.inputs.map p.typeAt) signatures = .ok type := by
  have htypes : List.Forall₂ p.HasType a.inputs (a.inputs.map p.typeAt) := by
    refine List.forall₂_map_right_iff.mpr (List.forall₂_same.mpr fun x hx => ?_)
    obtain ⟨xinst, hxi, -⟩ := hl.operand hj hx
    exact ⟨xinst, hxi, (typeAt_eq ⟨xinst, hxi, rfl⟩).symm⟩
  constructor
  · intro hinfer
    obtain ⟨-, signatures, -, hsigs, -⟩ := infer_ok.mp hinfer
    rw [infer_eq htypes hsigs, Outcome.lift_typed_ok] at hinfer
    exact ⟨signatures, hsigs, hinfer⟩
  · rintro ⟨signatures, hsigs, hinfer⟩
    exact infer_ok.mpr ⟨_, signatures, htypes, hsigs, hinfer⟩

/-- What is not a return has its type from `p` or the one from `r`. -/
def Between (p r s : Program) : Prop :=
  ∀ x, p.hasOp Op.isReturn x = false → s.typeAt x = p.typeAt x ∨ s.typeAt x = r.typeAt x

namespace Refreshable

variable (h : Refreshable m i p) (hp : p.Framed) (hr : Queued m i p [] r)
  (halike : ∀ x, (p.typeAt x).Alike (r.typeAt x))

include h hp hr halike

/-- **Where types change in layout only, no instruction is met too early.** -/
theorem infer_between (hs : RetypedBelow i p s) (hbetween : Between p r s) (hd : p.DependsOn i j)
    (hj : p.instr? j = some a) : ∃ type, s.infer a.op a.inputs a.modules = .ok type ∧
      (p.hasOp Op.isReturn j = false → type = p.typeAt j ∨ type = r.typeAt j) := by
  have hl := h.linked
  have hmem := h.disturbed.mem_body hd
  have hspares : m ∉ a.modules := h.spares hmem a hj
  have hinfer := hr.infer_ok hj hmem List.not_mem_nil
  by_cases hji : j = i
  · -- the operands of `i` are the same
    subst hji
    refine ⟨r.typeAt j, hr.toRetypedBelow.infer hl.wired hmem hs hspares (fun x hx => ?_) hinfer,
      fun _ => .inr rfl⟩
    have hn : ¬ p.DependsOn j x := fun hd =>
      hl.operand_ne hj hx (hl.dependsOn_antisymm (.single ⟨a, hj, hx⟩) hd)
    rw [hs.typeAt_eq hn, hr.typeAt_eq hn]
  · have hbefore := h.fresh hmem hji a hj
    rw [← typeAt_eq ⟨a, hj, rfl⟩] at hbefore
    obtain ⟨signatures, hsigs, hold⟩ := (hl.infer_ok_iff hj).mp hbefore
    obtain ⟨signatures', hsigs', hnew⟩ := ((hr.linked hl).infer_ok_iff (hr.instr? hj)).mp hinfer
    have hkeep : ∀ {q : Program}, RetypedBelow i p q →
        List.Forall₂ (fun k s => q.signature k = .ok s) a.modules signatures := fun hq =>
      forall₂_imp_of_mem hsigs fun k hk s hs' =>
        (RetypedBelow.refl i p).signature hl.wired h.mem hq (fun he => hspares (he ▸ hk)) hs'
    cases signatures_unique (hkeep hr.toRetypedBelow) hsigs'
    obtain ⟨type, htype, hone⟩ := Op.inferType_mixed (fun x _ => halike x)
      (fun x hx => hbetween x (hp.isReturn_of_before (hl.before_of_uses hmem ⟨a, hj, hx⟩))) hold
      hnew
    refine ⟨type, ((hs.linked hl).infer_ok_iff (hs.instr? hj)).mpr ⟨signatures, hkeep hs, htype⟩,
      fun hret => hone ?_⟩
    simpa [hasOp, hj] using hret

/-- A round of the run along consumers. -/
theorem between_retype (hq : Queued m i p (j :: stack) q) (hbetween : Between p r q)
    (hj : q.instr? j = some a) (ht : q.infer a.op a.inputs a.modules = .ok type) :
    Between p r (q.modifyInstr j fun inst => { inst with type }) := by
  have hd := hq.inside List.mem_cons_self
  obtain ⟨b, hb, -⟩ := h.linked.owned (h.disturbed.mem_body hd)
  obtain ⟨type', ht', hone⟩ := h.infer_between hp hr halike hq.toRetypedBelow hbetween hd hb
  cases (hq.instr? hb).symm.trans hj
  cases ht.symm.trans ht'
  intro x hx
  rw [typeAt_retype hj]
  split
  · next hxj =>
    subst hxj
    exact hone hx
  · exact hbetween x hx

theorem exists_refreshType : ∃ q, Edit.refreshType i p = .ok ⟨⟩ q := by
  cases hrun : Edit.refreshType i p with
  | ok u q => exact ⟨q, rfl⟩
  | error e q =>
    have hinvariant : Edit.RoundInvariant fun stack q => Queued m i p stack q ∧ Between p r q :=
      ⟨fun hI hj ht => ⟨hI.1.settle hj ht, hI.2⟩, fun hI hj ht =>
        ⟨h.disturbed.queued_retype hI.1 hj ht, h.between_retype hp hr halike hI.1 hI.2 hj ht⟩⟩
    obtain ⟨j, rest, ⟨hq, hbetween⟩, hstuck⟩ := hinvariant.refreshType_error h.linked.wired h.mem
      ⟨h.disturbed.queued, fun x _ => .inl rfl⟩ hrun
    have hd := hq.inside List.mem_cons_self
    obtain ⟨b, hb, -⟩ := h.linked.owned (h.disturbed.mem_body hd)
    obtain ⟨type, ht, -⟩ := h.infer_between hp hr halike hq.toRetypedBelow hbetween hd hb
    have hfailed := hstuck _ (hq.instr? hb)
    cases ht.symm.trans hfailed

end Refreshable

/-! ## Swapped operands -/

section

variable (hp : p.Valid) (hi : p.instr? i = some inst) (hold : old ∈ inst.inputs)
  (hnew : Before (p.body inst.owner) new i)

include hp hi hold hnew

theorem Valid.refreshable_swapped : Refreshable inst.owner i (p.swapped i old new) := by
  have hmem : i ∈ p.body inst.owner := hnew.right_mem
  have hl := hp.swapped hi hold hnew
  have hframed := (rewired_swapped hi hold).framed hl hp.toFramed
  have hlocal : Local inst.owner p (p.swapped i old new) :=
    local_swapped hi hold hp.toLinked hmem
  refine ⟨hl, by rwa [body_swapped], fun hj => sparesAny_some.mp (hframed.spares_own hj),
    fun {j} hj hji => ?_⟩
  have hcore : SameCore p (p.swapped i old new) j := sameCore_swapped hi hold hji
  rw [body_swapped] at hj
  exact hlocal.fresh hp.toLinked (.inl (sparesAny_some.mp (hp.spares_own hj))) hcore
    (fun _ _ _ => hasType_swapped hi hold) fun _ hb => hp.fresh hb

/-- The pass changes types in layout only if the new operand differs in layout only. -/
theorem Valid.alike_inferInOrder (halike : p.AlikeAt old new)
    (hok : Edit.inferInOrder i (p.swapped i old new) = .ok u r) (x : InstrId) :
    ((p.swapped i old new).typeAt x).Alike (r.typeAt x) := by
  have hl := hp.swapped hi hold hnew
  have hmem : i ∈ (p.swapped i old new).body inst.owner := by
    rw [body_swapped]
    exact hnew.right_mem
  have hswap : Pending inst.owner p.typeAt [i] (p.swapped i old new) :=
    (Pending.of_steady (hp.steady (some inst.owner))).swap hi hold hnew halike
  have hrun := hl.inferInOrder_ok hmem (Pending.roundInvariant inst.owner p.typeAt [])
    (fun hr hq hsub hin => hq.mono (by simpa using hsub) fun hj => by
      rw [hr.body]
      exact hl.mem_body_of_dependsOn hmem (hin _ (by simpa using hj))) hswap hok
  have hr := ((hp.refreshable_swapped hi hold hnew).inferInOrder_ok hok).toRetyped
  cases hx : (p.swapped i old new).instr? x with
  | none =>
    have hnone : r.instr? x = none := by simpa [hx] using hr.untyped x
    rw [typeAt, typeAt, hx, hnone]
    exact .refl _
  | some a =>
    obtain ⟨b, hb, -⟩ := Instruction.exists_of_untyped (hr.untyped x).symm hx
    rw [typeAt_eq ⟨a, hx, rfl⟩, typeAt_eq ⟨b, hb, rfl⟩]
    exact (hswap.shaped.stored hx).symm.trans (hrun.shaped.stored hb)

end

/-- An instruction could not be inferred while one of its operands, which depends on `i`, had
another type than it has in `r`. -/
def MetEarly (i : InstrId) (r q : Program) (e : Failure GraphError) : Prop :=
  ∃ j a x, q.instr? j = some a ∧ q.infer a.op a.inputs a.modules = .error e ∧ x ∈ a.inputs ∧
    q.DependsOn i x ∧ q.typeAt x ≠ r.typeAt x

/-- A run along consumers that stops where the pass does not has met an instruction too early. -/
theorem Refreshable.metEarly {e : Failure GraphError} (h : Refreshable m i p)
    (hr : Queued m i p [] r) (he : Edit.refreshType i p = .error e q) : MetEarly i r q e := by
  have hl := h.linked
  obtain ⟨j, rest, hq, hstuck⟩ :=
    h.disturbed.roundInvariant.refreshType_error hl.wired h.mem h.disturbed.queued he
  have hmem := h.disturbed.mem_body (hq.inside List.mem_cons_self)
  obtain ⟨a, hj, -⟩ := hl.owned hmem
  have hfailed := hstuck _ (hq.instr? hj)
  by_contra hearly
  -- if every operand had its type, so would the instruction
  have hsame : ∀ x ∈ a.inputs, q.typeAt x = r.typeAt x := by
    intro x hx
    by_cases hd : p.DependsOn i x
    · by_contra hne
      exact hearly ⟨j, _, x, hq.instr? hj, hfailed, hx, hq.toRetyped.dependsOn.mpr hd, hne⟩
    · rw [hq.typeAt_eq hd, hr.typeAt_eq hd]
  have hok := hr.toRetypedBelow.infer hl.wired h.mem hq.toRetypedBelow (h.spares hmem a hj) hsame
    (hr.infer_ok hj hmem List.not_mem_nil)
  cases hok.symm.trans hfailed

/-- **Swapping an operand against one pass in module order**, for a verified program. Where the edit
succeeds, so does the pass, with the same types. Where the new operand has the same element types
and dimensions as the old one, the edit succeeds exactly if the pass does. In general the edit may
stop where the pass does not, only because it met an instruction too early. -/
theorem replaceArgument_rederives (h : p.verify = .ok ⟨⟩) (huse : p.Uses i old)
    (hnew : Before (p.body m) new i) :
    (∀ q, Edit.replaceArgument i old new p = .ok ⟨⟩ q →
      ∃ r, Edit.inferInOrder i (p.swapped i old new) = .ok ⟨⟩ r ∧
        ∀ j, r.instr? j = q.instr? j) ∧
    ((p.typeAt old).Alike (p.typeAt new) →
      ((∃ q, Edit.replaceArgument i old new p = .ok ⟨⟩ q) ↔
        ∃ r, Edit.inferInOrder i (p.swapped i old new) = .ok ⟨⟩ r)) ∧
    ∀ e q r, Edit.replaceArgument i old new p = .error e q →
      Edit.inferInOrder i (p.swapped i old new) = .ok ⟨⟩ r → MetEarly i r q e := by
  have hp : p.Valid := verify_ok.mp h
  obtain ⟨inst, hi, hold⟩ := huse
  obtain rfl := hp.owner_unique hi hnew.right_mem
  have hs : Refreshable inst.owner i (p.swapped i old new) := hp.refreshable_swapped hi hold hnew
  rw [Edit.replaceArgument_eq old new hi]
  have hforth : ∀ q, Edit.refreshType i (p.swapped i old new) = .ok ⟨⟩ q →
      ∃ r, Edit.inferInOrder i (p.swapped i old new) = .ok ⟨⟩ r ∧ ∀ j, r.instr? j = q.instr? j :=
    fun q hok => hs.inferInOrder_of_queued (hs.refreshType_ok hok)
  refine ⟨hforth, fun halike => ⟨fun hok => ?_, fun hok => ?_⟩, fun e q r he hok =>
    hs.metEarly (hs.inferInOrder_ok hok) he⟩
  · obtain ⟨q, hok⟩ := hok
    obtain ⟨r, hr, -⟩ := hforth q hok
    exact ⟨r, hr⟩
  · obtain ⟨r, hok⟩ := hok
    have hframed := (rewired_swapped hi hold).framed hs.linked hp.toFramed
    exact hs.exists_refreshType hframed (hs.inferInOrder_ok hok)
      (hp.alike_inferInOrder hi hold hnew halike hok)

/-- A matrix is transposed there and back, beside a matrix in another layout. -/
def transposedTwice : Program :=
  (do
    let x ← Edit.addParameter main "x" ⟨.f32, [2, 3], [3, 1]⟩
    let _ ← Edit.addParameter main "y" ⟨.f32, [2, 3], [1, 2]⟩
    let there ← Edit.addInstruction main (.reindex (.transpose [1, 0])) [x] []
    let back ← Edit.addInstruction main (.reindex (.transpose [1, 0])) [there] []
    let _ ← Edit.addReturn main [back] : Edit Unit).after .empty

/-- The other matrix is taken instead, and all layouts down to the return change. -/
theorem replaceArgument_rederives_layouts :
    (transposedTwice.verify = .ok ⟨⟩ ∧ transposedTwice.Uses ⟨2⟩ ⟨0⟩ ∧
      Before (transposedTwice.body main) ⟨1⟩ ⟨2⟩) ∧
    (∃ r, Edit.inferInOrder ⟨2⟩ (transposedTwice.swapped ⟨2⟩ ⟨0⟩ ⟨1⟩) = .ok ⟨⟩ r ∧
      r.typeAt ⟨4⟩ = .tensor ⟨.f32, [2, 3], [1, 2]⟩) ∧
    ∃ q, Edit.replaceArgument ⟨2⟩ ⟨0⟩ ⟨1⟩ transposedTwice = .ok ⟨⟩ q := by
  have hv : transposedTwice.verify = .ok ⟨⟩ := by decide +kernel
  have huse : transposedTwice.Uses ⟨2⟩ ⟨0⟩ := by decide +kernel
  have hbefore : Before (transposedTwice.body main) ⟨1⟩ ⟨2⟩ := by
    unfold Before
    decide +kernel
  have halike : (transposedTwice.typeAt ⟨0⟩).Alike (transposedTwice.typeAt ⟨1⟩) :=
    ValueType.sameShape_iff.mp (by decide +kernel)
  have hrederives := replaceArgument_rederives hv huse hbefore
  obtain ⟨_, r, hr, htype⟩ : ∃ u r,
      Edit.inferInOrder ⟨2⟩ (transposedTwice.swapped ⟨2⟩ ⟨0⟩ ⟨1⟩) = .ok u r ∧
        r.typeAt ⟨4⟩ = .tensor ⟨.f32, [2, 3], [1, 2]⟩ := by decide +kernel
  exact ⟨⟨hv, huse, hbefore⟩, ⟨r, hr, htype⟩, (hrederives.2.1 halike).mpr ⟨r, hr⟩⟩

/-- The sum of a value that is rectified once and twice, beside a longer vector. -/
def addedTwice : Program :=
  (do
    let x ← Edit.addParameter main "x" ⟨.f32, [2], [1]⟩
    let _ ← Edit.addParameter main "y" ⟨.f32, [3], [1]⟩
    let once ← Edit.addInstruction main (.unary .relu) [x] []
    let twice ← Edit.addInstruction main (.unary .relu) [once] []
    let sum ← Edit.addInstruction main (.binary .add) [twice, once] []
    let _ ← Edit.addReturn main [sum] : Edit Unit).after .empty

/-- **The sum is met too early**: its second operand has the new dimensions by then and its first
one the old ones. In module order all types can be inferred. -/
theorem sum_met_early :
    (addedTwice.verify = .ok ⟨⟩ ∧ addedTwice.Uses ⟨2⟩ ⟨0⟩ ∧
      Before (addedTwice.body main) ⟨1⟩ ⟨2⟩) ∧
    (∃ r, Edit.inferInOrder ⟨2⟩ (addedTwice.swapped ⟨2⟩ ⟨0⟩ ⟨1⟩) = .ok ⟨⟩ r ∧
      r.verify = .ok ⟨⟩) ∧
    ∃ e q, Edit.replaceArgument ⟨2⟩ ⟨0⟩ ⟨1⟩ addedTwice = .error (.refused e) q ∧
      q ≠ addedTwice ∧ q.verify ≠ .ok ⟨⟩ := by
  have hv : addedTwice.verify = .ok ⟨⟩ := by decide +kernel
  have hbefore : Before (addedTwice.body main) ⟨1⟩ ⟨2⟩ := by
    unfold Before
    decide +kernel
  obtain ⟨_, r, hr, hok⟩ : ∃ u r,
      Edit.inferInOrder ⟨2⟩ (addedTwice.swapped ⟨2⟩ ⟨0⟩ ⟨1⟩) = .ok u r ∧ r.verify = .ok ⟨⟩ := by
    decide +kernel
  obtain ⟨e, q, he, hq⟩ : ∃ e q,
      Edit.replaceArgument ⟨2⟩ ⟨0⟩ ⟨1⟩ addedTwice = .error (.refused e) q ∧
        q.verify ≠ .ok ⟨⟩ := by decide +kernel
  exact ⟨⟨hv, by decide +kernel, hbefore⟩, ⟨r, hr, hok⟩, e, q, he, fun hsame => hq (hsame ▸ hv), hq⟩

end Program

end OffloadFusion
