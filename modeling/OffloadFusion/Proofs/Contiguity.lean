import OffloadFusion.Proofs.Completing
import OffloadFusion.Proofs.Deferring

/-!
# Row-major copies of operands

`Edit.offloadContiguous` goes through the operands of a call and puts a row-major copy after each
one that a call does not take as it lies, once for each instruction.

* `Program.Supplemented`: some instructions of a module have a copy right after them, and nothing
  else has changed.
* `Program.Supplemented.insertAfter`: one more copy.
* `Edit.completes_supplements`: the loop over the operands.
* **`Program.offloadContiguous_exact`**: the operands are replaced by copies just where a call does
  not take them, and the program stays verified.
-/

namespace OffloadFusion

open OffloadFusion.Action Program

variable {p q r : Program} {i j c : InstrId} {m k : ModuleId} {n : Nat} {inst : Instruction}
  {t u : TensorType} {type : ValueType} {copy : InstrId → Option InstrId} {inputs : List InstrId}

/-- An entry of a list that stands alone gets a companion right after it. -/
theorem insertIdx_flatMap {l : List InstrId} {f g : InstrId → List InstrId}
    (hn : (l.flatMap f).Nodup) (hi : i ∈ l) (hf : f i = [i]) (hg : g i = [i, c])
    (hsame : ∀ j ≠ i, g j = f j) (hidx : (l.flatMap f).idxOf? i = some n) :
    (l.flatMap f).insertIdx (n + 1) c = l.flatMap g := by
  obtain ⟨pre, post, rfl⟩ := List.append_of_mem hi
  rw [List.flatMap_append, List.flatMap_cons, hf, List.singleton_append] at hn hidx ⊢
  obtain ⟨-, hpost, hapart⟩ := List.nodup_append.mp hn
  have hpre : i ∉ pre.flatMap f := fun hmem => hapart i hmem i List.mem_cons_self rfl
  have hrest : i ∉ post.flatMap f := (List.nodup_cons.mp hpost).1
  -- the other entries keep what follows them
  have hkeep : ∀ {part : List InstrId}, i ∉ part.flatMap f → part.flatMap g = part.flatMap f := by
    intro part hnot
    refine List.flatMap_congr fun j hj => hsame j ?_
    rintro rfl
    exact hnot (List.mem_flatMap.mpr ⟨j, hj, hf ▸ List.mem_singleton_self j⟩)
  rw [idxOf?_append_cons hpre, Option.some.injEq] at hidx
  subst hidx
  have hlen : (pre.flatMap f ++ [i]).length = (pre.flatMap f).length + 1 := by
    rw [List.length_append, List.length_singleton]
  rw [List.flatMap_append, List.flatMap_cons, hg, hkeep hpre, hkeep hrest,
    List.append_cons (pre.flatMap f), ← hlen, insertIdx_eq_take_drop (by simp), List.take_left,
    List.drop_left, List.append_assoc]
  rfl

/-! ## Programs with copies -/

namespace Program

/-- The list with the copies right after what they are copies of. -/
def supplement (copy : InstrId → Option InstrId) (l : List InstrId) : List InstrId :=
  l.flatMap fun i => i :: (copy i).toList

/-- Some tensors of the module that a call does not take have a row-major copy right after them,
which nothing reads yet. Nothing else has changed. -/
structure Supplemented (m : ModuleId) (copy : InstrId → Option InstrId) (p q : Program) :
    Prop where
  new : ∀ i c, copy i = some c → i ∈ p.body m ∧ p.instr? c = none ∧
    ∃ t u, p.HasType i (.tensor t) ∧ Op.acceptsLayout t = .ok false ∧ t.asStandard = .ok u ∧
      q.instr? c = some ⟨.reindex .contiguous, [i], [], .tensor u, [], m⟩
  old : ∀ i inst, p.instr? i = some inst →
    q.instr? i = some { inst with consumers := inst.consumers ++ (copy i).toList }
  gone : ∀ j, p.instr? j = none → (∀ i, copy i ≠ some j) → q.instr? j = none
  modules : ∀ k, q.module? k =
    (p.module? k).map fun module => { module with body := supplement copy module.body }
  names : q.names = p.names
  freeSlots : q.freeSlots = p.freeSlots

namespace Supplemented

theorem refl (p : Program) (m : ModuleId) : Supplemented m (fun _ => none) p p := by
  refine ⟨fun _ _ hc => absurd hc (Option.some_ne_none _).symm, fun i inst hi => ?_,
    fun j hj _ => hj, fun k => ?_, rfl, rfl⟩
  · rw [hi, Option.toList_none, List.append_nil]
  · have hsame : ∀ l, supplement (fun _ => none) l = l := fun l => List.flatMap_singleton' l
    simp only [hsame, Option.map_id']

variable (h : Supplemented m copy p q)

include h

theorem body (k : ModuleId) : q.body k = supplement copy (p.body k) := by
  rw [Program.body, Program.body, h.modules]
  cases p.module? k <;> rfl

theorem mem_body (hi : i ∈ p.body k) : i ∈ q.body k := by
  rw [h.body]
  exact List.mem_flatMap.mpr ⟨i, hi, List.mem_cons_self⟩

theorem hasType (ht : p.HasType i type) : q.HasType i type := by
  obtain ⟨inst, hi, rfl⟩ := ht
  exact ⟨_, h.old i inst hi, rfl⟩

theorem isReturn (hi : p.instr? i = some inst) :
    q.hasOp Op.isReturn i = p.hasOp Op.isReturn i := by
  rw [hasOp, hasOp, h.old i inst hi, hi]
  rfl

theorem copy_eq_none (ht : p.HasType i (.tensor t)) (haccepts : Op.acceptsLayout t = .ok true) :
    copy i = none := by
  by_contra hne
  obtain ⟨c, hc⟩ := Option.ne_none_iff_exists'.mp hne
  obtain ⟨-, -, t', u, ht', hrefuses, -⟩ := h.new i c hc
  cases hasType_unique ht ht'
  cases haccepts.symm.trans hrefuses

/-- **One more copy.** -/
theorem insertAfter (hl : p.Linked) (hq : q.Linked) (hi : i ∈ p.body m)
    (ht : p.HasType i (.tensor t)) (hnone : copy i = none)
    (haccepts : Op.acceptsLayout t = .ok false) (hu : t.asStandard = .ok u)
    (hidx : (q.body m).idxOf? i = some n) :
    Supplemented m (fun j => if j = i then some q.nextId else copy j) p
      (q.inserted m (n + 1) ⟨.reindex .contiguous, [i], [], .tensor u, [], m⟩) := by
  have hnew : ∀ {j inst}, p.instr? j = some inst → j ≠ q.nextId := fun {j inst} hj he => by
    have hold := h.old j inst hj
    rw [he, instr?_nextId] at hold
    cases hold
  have hfresh : p.instr? q.nextId = none := by
    by_contra hne
    obtain ⟨inst, hinst⟩ := Option.ne_none_iff_exists'.mp hne
    exact hnew hinst rfl
  have ⟨iinst, hinst, _⟩ := ht
  have hview := @instr?_inserted q m (n + 1)
    ⟨.reindex .contiguous, [i], [], .tensor u, [], m⟩
    (fun hmem => hnew hinst (List.mem_singleton.mp hmem).symm)
  refine ⟨fun j d hj => ?_, fun j inst hj => ?_, fun j hj hnot => ?_, fun k => ?_, h.names,
    h.freeSlots⟩
  · by_cases hji : j = i
    · subst hji
      rw [if_pos rfl, Option.some.injEq] at hj
      subst hj
      exact ⟨hi, hfresh, t, u, ht, haccepts, hu, by rw [hview, if_pos rfl]⟩
    · rw [if_neg hji] at hj
      obtain ⟨hmem, hgone, t', u', ht', hrefuses, hu', hd⟩ := h.new j d hj
      refine ⟨hmem, hgone, t', u', ht', hrefuses, hu', ?_⟩
      have hne : d ≠ q.nextId := fun he => by
        rw [he, instr?_nextId] at hd
        cases hd
      have hdi : d ∉ [i] := fun he => by
        rw [List.mem_singleton.mp he, hinst] at hgone
        cases hgone
      rw [hview, if_neg hne, hd, Option.map_some, if_neg hdi]
  · rw [hview, if_neg (hnew hj), h.old j inst hj, Option.map_some]
    by_cases hji : j = i
    · subst hji
      have hunread : q.nextId ∉ inst.consumers ++ (copy j).toList := fun hmem => by
        obtain ⟨_, hnext, -⟩ := (hq.mirrored (h.old j inst hj)).mp hmem
        rw [instr?_nextId] at hnext
        cases hnext
      rw [if_pos (List.mem_singleton_self j), if_pos rfl, Instruction.withConsumer,
        if_neg hunread, hnone, Option.toList_none, List.append_nil, Option.toList_some]
    · rw [if_neg (mt List.mem_singleton.mp hji), if_neg hji]
  · have hne : j ≠ q.nextId := fun he => hnot i (by rw [if_pos rfl, he])
    have hold : q.instr? j = none := h.gone j hj fun x hx => by
      by_cases hxi : x = i
      · rw [hxi, hnone] at hx
        cases hx
      · exact hnot x (by rw [if_neg hxi, hx])
    rw [hview, if_neg hne, hold]
    rfl
  · rw [module?_inserted, h.modules]
    cases hk : p.module? k with
    | none => split <;> rfl
    | some module =>
      have hbody := body_of_module? hk
      split
      · next hmk =>
        subst hmk
        have hone := insertIdx_flatMap (c := q.nextId)
          (g := fun j => j :: (if j = i then some q.nextId else copy j).toList)
          (h.body m ▸ hq.nodup m) hi (by rw [hnone]; rfl) (by rw [if_pos rfl]; rfl)
          (fun j hj => by rw [if_neg hj]) (h.body m ▸ hidx)
        rw [hbody] at hone
        exact congrArg some (congrArg (fun body => { module with body }) hone)
      · next hmk =>
        have hsame : supplement (fun j => if j = i then some q.nextId else copy j) module.body =
            supplement copy module.body := by
          refine List.flatMap_congr fun j hj => ?_
          have hji : j ≠ i := fun he => hmk ((hl.owner_unique hinst hi).symm.trans
            (hl.owner_unique hinst (he ▸ hbody ▸ hj)))
          dsimp only
          rw [if_neg hji]
        rw [Option.map_some, Option.map_some, hsame]

end Supplemented

end Program

/-! ## The operands of a call -/

theorem mem_take_succ {l : List InstrId} (h : l.idxOf? i = some n) : i ∈ l.take (n + 1) := by
  obtain ⟨hlt, hget, -⟩ := List.idxOf?_eq_some_iff.mp h
  exact List.mem_take_iff_getElem.mpr ⟨n, by omega, hget⟩

theorem Edit.completes_supplement (h : Supplemented m copy p q) (hl : p.Linked)
    (hq : q.Steady none) (hfree : q.Free m) (hi : i ∈ p.body m)
    (hret : p.hasOp Op.isReturn i = false) (ht : p.HasType i (.tensor t)) (hsized : t.Sized)
    (hnone : copy i = none) (haccepts : Op.acceptsLayout t = .ok false) :
    (insertAfter i (.reindex .contiguous) [i] []).Completes q fun c r =>
      Supplemented m (fun j => if j = i then some c else copy j) p r ∧ r.Steady none ∧
        r.Free m := by
  have hlq := hq.toLinked
  have hmem := h.mem_body hi
  obtain ⟨n, hloc, hidx⟩ := hlq.exists_locate hmem
  obtain ⟨u, hu⟩ := hsized.standard
  obtain ⟨inst, hinst, -⟩ := hl.owned hi
  have hret' : q.hasOp Op.isReturn i = false := (h.isReturn hinst).trans hret
  have hend : q.EndSafe m (n + 1) (.reindex .contiguous) := endSafe_after hloc hret' rfl
  have hargs : ∀ x ∈ [i], x ∈ (q.body m).take (n + 1) := fun x hx =>
    List.mem_singleton.mp hx ▸ mem_take_succ hidx
  have hinfer : q.infer (.reindex .contiguous) [i] [] = .ok (.tensor u) :=
    infer_of_held (m := m) (.cons ⟨hmem, h.hasType ht⟩ .nil)
      (ReshapeChain.inferType_of_output (Outcome.lift_checked_ok.mpr hu))
  obtain ⟨c, r, hok, -, hins, -⟩ :=
    hlq.completes_insertAt (alive_of_mem_body hmem) hend.le hargs hinfer
  have hsteady := hq.insertAt (fun _ => hfree _) hend List.not_mem_nil hok
  refine ⟨c, r, insertAfter_ok.mpr ⟨m, n, hloc, hret', hok⟩, ?_, hsteady,
    hins.free hfree List.not_mem_nil⟩
  obtain ⟨_, type, -, -, hinfer', rfl, rfl⟩ := insertAt_ok.mp hok
  cases hinfer.symm.trans hinfer'
  exact h.insertAfter hl hlq hi ht hnone haccepts hu hidx

namespace Renaming

/-- The copies made for some operands, beyond those made before. -/
structure Supplements (inputs : List InstrId) (p : Program) (ρ ρ' : Renaming) : Prop where
  keep : ∀ i c, ρ.image? i = some c → ρ'.image? i = some c
  only : ∀ i c, ρ'.image? i = some c → ρ.image? i = some c ∨ i ∈ inputs
  taken : ∀ i ∈ inputs, ρ'.image? i = none → ∀ t, p.HasType i (.tensor t) →
    Op.acceptsLayout t = .ok true

namespace Supplements

variable {ρ ρ' : Renaming}

theorem refl (p : Program) (ρ : Renaming) : Supplements [] p ρ ρ :=
  ⟨fun _ _ => id, fun _ _ => .inl, fun _ hi => absurd hi List.not_mem_nil⟩

theorem cons (h : Supplements inputs p ρ ρ')
    (hi : ρ'.image? i = none → ∀ t, p.HasType i (.tensor t) → Op.acceptsLayout t = .ok true) :
    Supplements (i :: inputs) p ρ ρ' :=
  ⟨h.keep, fun j c hj => (h.only j c hj).imp_right (List.mem_cons_of_mem i),
    List.forall_mem_cons.mpr ⟨hi, h.taken⟩⟩

theorem of_insert (h : Supplements inputs p (ρ.insert i c) ρ') (hi : ρ.image? i = none) :
    ρ'.image? i = some c ∧ Supplements (i :: inputs) p ρ ρ' := by
  have hcopy : ρ'.image? i = some c := h.keep i c (by rw [image?_insert, if_pos rfl])
  refine ⟨hcopy, fun j d hj => h.keep j d ?_, fun j d hj => ?_,
    List.forall_mem_cons.mpr ⟨fun hnone => ?_, h.taken⟩⟩
  · rw [image?_insert, if_neg, hj]
    rintro rfl
    cases hi.symm.trans hj
  · obtain hj | hj := h.only j d hj
    · rw [image?_insert] at hj
      split at hj
      · next he => exact .inr (he ▸ List.mem_cons_self)
      · exact .inl hj
    · exact .inr (List.mem_cons_of_mem i hj)
  · cases hcopy.symm.trans hnone

end Supplements

end Renaming

/-- **The loop over the operands** gives each one or its copy. -/
theorem Edit.completes_supplements {copies : Renaming} (h : Supplemented m copies.image? p q)
    (hl : p.Linked) (hq : q.Steady none) (hfree : q.Free m)
    (hin : ∀ i ∈ inputs, i ∈ p.body m ∧ p.hasOp Op.isReturn i = false ∧
      ∃ t, p.HasType i (.tensor t) ∧ t.Sized) :
    (contiguousFrom inputs copies).Completes q fun result r => ∃ copies' : Renaming,
      result = inputs.map (fun i => (copies'.image? i).getD i) ∧
        Supplemented m copies'.image? p r ∧ r.Steady none ∧
          copies.Supplements inputs p copies' := by
  induction inputs generalizing q copies with
  | nil => exact ⟨[], q, rfl, copies, rfl, h, hq, .refl p copies⟩
  | cons input inputs ih =>
    obtain ⟨⟨hmem, hret, t, ht, hsized⟩, hrest⟩ := List.forall_mem_cons.mp hin
    rw [contiguousFrom]
    cases himage : copies.image? input with
    | some copy =>
      rw [completes_bind]
      refine (ih h hq hfree hrest).mono ?_
      rintro result r ⟨copies', rfl, hr, hsteady, hsupplements⟩
      rw [completes_pure]
      have hcopy := hsupplements.keep input copy himage
      refine ⟨copies', by rw [List.map_cons, hcopy, Option.getD_some], hr, hsteady,
        hsupplements.cons fun hnone => ?_⟩
      cases hcopy.symm.trans hnone
    | none =>
      obtain ⟨accepts, haccepts⟩ := hsized.acceptsLayout
      rw [completes_get_bind, completes_bind]
      refine (completes_lift (tensorOf_ok.mpr (h.hasType ht))).mpr ?_
      rw [completes_bind]
      refine (completes_lift_checked haccepts).mpr ?_
      cases accepts with
      | true =>
        rw [if_pos rfl, completes_bind]
        refine (ih h hq hfree hrest).mono ?_
        rintro result r ⟨copies', rfl, hr, hsteady, hsupplements⟩
        rw [completes_pure]
        refine ⟨copies', by rw [List.map_cons, hr.copy_eq_none ht haccepts, Option.getD_none], hr,
          hsteady, hsupplements.cons fun _ t' ht' => ?_⟩
        cases hasType_unique ht ht'
        exact haccepts
      | false =>
        rw [if_neg Bool.false_ne_true, completes_bind]
        refine (completes_supplement h hl hq hfree hmem hret ht hsized himage haccepts).mono ?_
        rintro copy q' ⟨hq', hsteady', hfree'⟩
        rw [← funext (Renaming.image?_insert copies input copy)] at hq'
        rw [completes_bind]
        refine (ih hq' hsteady' hfree' hrest).mono ?_
        rintro result r ⟨copies', rfl, hr, hsteady, hsupplements⟩
        rw [completes_pure]
        obtain ⟨hcopy, hsupplements⟩ := hsupplements.of_insert himage
        exact ⟨copies', by rw [List.map_cons, hcopy, Option.getD_some], hr, hsteady, hsupplements⟩

namespace Program

/-- **Contiguous operands.** In a module of a verified program that nothing references, each operand
that a call does not take as it lies has a row-major copy right after it in the end, one for all its
repetitions. The operands are replaced by their copies, which a call takes, nothing else has
changed, and the program stays verified. -/
theorem offloadContiguous_exact (h : p.verify = .ok ⟨⟩) (hfree : p.Free m)
    (hin : ∀ i ∈ inputs, i ∈ p.body m ∧ p.hasOp Op.isReturn i = false ∧
      ∃ t, p.HasType i (.tensor t) ∧ t.Sized) :
    ∃ copy q, Edit.offloadContiguous inputs p = .ok (inputs.map fun i => (copy i).getD i) q ∧
      (∀ i ∈ inputs, ∀ t, p.HasType i (.tensor t) →
        (copy i = none ↔ t.isPacked = .ok true ∨ t.isBroadcasted = true) ∧
        ∃ u, q.HasType ((copy i).getD i) (.tensor u) ∧ u.dtype = t.dtype ∧ u.shape = t.shape ∧
          (u.isPacked = .ok true ∨ u.isBroadcasted = true)) ∧
      (∀ i, i ∉ inputs → copy i = none) ∧ Supplemented m copy p q ∧ q.verify = .ok ⟨⟩ := by
  have hp := verify_ok.mp h
  have hstart : Supplemented m Renaming.empty.image? p p := .refl p m
  obtain ⟨_, q, hok, copies, rfl, hq, hsteady, hsupplements⟩ :=
    Edit.completes_supplements hstart hp.toLinked (hp.steady none) hfree hin
  refine ⟨copies.image?, q, hok, fun i hi t ht => ⟨?_, ?_⟩, fun i hi => ?_, hq,
    verify_ok.mpr hsteady.valid⟩
  · rw [← Op.acceptsLayout_iff]
    exact ⟨fun hnone => hsupplements.taken i hi hnone t ht, hq.copy_eq_none ht⟩
  · cases hcopy : copies.image? i with
    | none =>
      exact ⟨t, hq.hasType ht, rfl, rfl,
        Op.acceptsLayout_iff.mp (hsupplements.taken i hi hcopy t ht)⟩
    | some c =>
      obtain ⟨-, -, t', u, ht', -, hu, hc⟩ := hq.new i c hcopy
      cases hasType_unique ht ht'
      obtain ⟨-, -, t', ht', hsized⟩ := hin i hi
      cases hasType_unique ht ht'
      obtain ⟨hd, hs⟩ := TensorType.standard_alike hu
      obtain ⟨n, hn⟩ := hsized.numel
      exact ⟨u, ⟨_, hc, rfl⟩, hd, hs,
        Op.acceptsLayout_iff.mp (TensorType.acceptsLayout_standard hn hu)⟩
  · by_contra hne
    obtain ⟨c, hc⟩ := Option.ne_none_iff_exists'.mp hne
    obtain hempty | hmem := hsupplements.only i c hc
    · cases hempty
    · exact hi hmem

/-- A strip of a matrix that is read by a sum, next to the matrix. -/
def sliced : Program :=
  (do
    let x ← Edit.addParameter main "x" ⟨.f32, [4, 6], [6, 1]⟩
    let strip ← Edit.addInstruction main (.reindex (.slice [1] [0] [2])) [x] []
    let sum ← Edit.addInstruction main (.binary .add) [strip, strip] []
    let _ ← Edit.addReturn main [sum] : Edit Unit).after .empty

/-- The strip gets one copy, which stands before the sum; the matrix is taken as it lies. -/
theorem offloadContiguous_exact_sliced : sliced.verify = .ok ⟨⟩ ∧ sliced.Free main ∧
    (∀ i ∈ [⟨1⟩, ⟨0⟩, ⟨1⟩], i ∈ sliced.body main ∧ sliced.hasOp Op.isReturn i = false ∧
      ∃ t, sliced.HasType i (.tensor t) ∧ t.Sized) ∧
    ∃ q, Edit.offloadContiguous [⟨1⟩, ⟨0⟩, ⟨1⟩] sliced = .ok [⟨4⟩, ⟨0⟩, ⟨4⟩] q ∧
      q.body main = [⟨0⟩, ⟨1⟩, ⟨4⟩, ⟨2⟩, ⟨3⟩] ∧ q.verify = .ok ⟨⟩ := by
  have hverify : sliced.verify = .ok ⟨⟩ := by decide +kernel
  have hfree : sliced.Free main := by decide +kernel
  have hplaces : ∀ i ∈ ([⟨1⟩, ⟨0⟩, ⟨1⟩] : List InstrId),
      i ∈ sliced.body main ∧ sliced.hasOp Op.isReturn i = false := by decide +kernel
  have htypes : ∀ i ∈ ([⟨1⟩, ⟨0⟩, ⟨1⟩] : List InstrId),
      sliced.tensorOf i = .ok ⟨.f32, [4, 6], [6, 1]⟩ ∨
        sliced.tensorOf i = .ok ⟨.f32, [4, 2], [6, 1]⟩ := by decide +kernel
  have hin : ∀ i ∈ [⟨1⟩, ⟨0⟩, ⟨1⟩], i ∈ sliced.body main ∧ sliced.hasOp Op.isReturn i = false ∧
      ∃ t, sliced.HasType i (.tensor t) ∧ t.Sized := by
    intro i hi
    obtain ⟨hmem, hret⟩ := hplaces i hi
    refine ⟨hmem, hret, ?_⟩
    obtain ht | ht := htypes i hi
    · exact ⟨_, tensorOf_ok.mp ht, by decide⟩
    · exact ⟨_, tensorOf_ok.mp ht, by decide⟩
  obtain ⟨copy, q, hok, -, -, -, hq⟩ := offloadContiguous_exact hverify hfree hin
  have hrun : ∃ out r, Edit.offloadContiguous [⟨1⟩, ⟨0⟩, ⟨1⟩] sliced = .ok out r ∧
      out = [⟨4⟩, ⟨0⟩, ⟨4⟩] ∧ r.body main = [⟨0⟩, ⟨1⟩, ⟨4⟩, ⟨2⟩, ⟨3⟩] := by decide +kernel
  obtain ⟨out, r, hok', rfl, hbody⟩ := hrun
  obtain ⟨-, rfl⟩ := EStateM.Result.ok.inj (hok.symm.trans hok')
  exact ⟨hverify, hfree, hin, q, hok', hbody, hq⟩

end Program

end OffloadFusion
