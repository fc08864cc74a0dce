import OffloadFusion.Proofs.Filling
import OffloadFusion.Proofs.Preserving

/-!
# Copies of modules

`Edit.copyModule` inserts the instructions of a module one after the other into a new one.

* `IsCopy`: an instruction with the same operation, modules and type on the copied operands.
* `Copying p name done copies q`: the state of the loop. The instructions in `done` have copies in
  the new module, in the same order, and everything else is as it was.
* `Copying.completes_insert`: the next instruction can be copied, since its operands were, and its
  copy gets the same type. So the loop does not stop (`Copying.completes_copyBody`).
* **`copyModule_exact`**: a module of a verified program can be copied under every free name, and
  the copy is isomorphic to it (`Copied`).
-/

namespace OffloadFusion

open OffloadFusion.Action

theorem forall₂_getLast? {α β : Type*} {R : α → β → Prop} {xs : List α} {ys : List β}
    (h : List.Forall₂ R xs ys) : (xs.getLast? = none ∧ ys.getLast? = none) ∨
      ∃ x y, xs.getLast? = some x ∧ ys.getLast? = some y ∧ R x y := by
  induction h with
  | nil => exact .inl ⟨rfl, rfl⟩
  | cons hxy _ ih =>
    right
    rw [List.getLast?_cons, List.getLast?_cons]
    obtain ⟨hx, hy⟩ | ⟨x, y, hx, hy, hr⟩ := ih
    · rw [hx, hy]
      exact ⟨_, _, rfl, rfl, hxy⟩
    · rw [hx, hy]
      exact ⟨x, y, rfl, rfl, hr⟩

theorem forall₂_filter {α β : Type*} {R : α → β → Prop} {f : α → Bool} {g : β → Bool} {xs : List α}
    {ys : List β} (h : List.Forall₂ R xs ys) (hfg : ∀ x y, R x y → f x = g y) :
    List.Forall₂ R (xs.filter f) (ys.filter g) := by
  induction h with
  | nil => exact .nil
  | cons hxy _ ih =>
    rw [List.filter_cons, List.filter_cons, hfg _ _ hxy]
    split
    · exact .cons hxy ih
    · exact ih

/-- Elements side by side determine each other if one list has no repetition. -/
theorem forall₂_injective {α β : Type*} {R : α → β → Prop} {xs : List α} {ys : List β}
    (h : List.Forall₂ R xs ys) (hn : ys.Nodup) (hR : ∀ {x y y'}, R x y → R x y' → y = y')
    {x x' : α} {y : β} (hx : x ∈ xs) (hx' : x' ∈ xs) (hxy : R x y) (hxy' : R x' y) : x = x' := by
  induction h with
  | nil => cases hx
  | cons hab hrest ih =>
    obtain ⟨hnot, hn⟩ := List.nodup_cons.mp hn
    have hlater : ∀ {z}, z ∈ _ → R z y → y ∈ _ := fun hz hzy => by
      obtain ⟨y', hy', hzy'⟩ := forall₂_exists hrest hz
      exact hR hzy hzy' ▸ hy'
    obtain rfl | htail := List.mem_cons.mp hx <;> obtain rfl | htail' := List.mem_cons.mp hx'
    · rfl
    · exact absurd (hR hxy hab ▸ hlater htail' hxy') hnot
    · exact absurd (hR hxy' hab ▸ hlater htail hxy) hnot
    · exact ih hn htail htail'

namespace Program

variable {p q r : Program} {i j x y : InstrId} {m source target : ModuleId} {n : Nat} {op : Op}
  {a b : Instruction} {inputs done rest : List InstrId} {modules : List ModuleId} {name : String}
  {copies : Renaming} {type : ValueType}

/-- An insertion leaves everything but its operands exactly as it was. -/
theorem instr?_of_insertAt (hok : Edit.insertAt m n op inputs modules q = .ok i r) (hj : j ≠ i)
    (hx : j ∉ inputs) : r.instr? j = q.instr? j := by
  obtain ⟨module, type, -, hc, -, rfl, rfl⟩ := Edit.insertAt_ok.mp hok
  have hnew : q.nextId ∉ inputs := by
    intro hmem
    obtain ⟨-, _, -, hin⟩ := Edit.checkPlacement_ok.mp hc
    obtain ⟨⟨xinst, hx, -⟩, -⟩ := hin _ hmem
    rw [instr?_nextId] at hx
    cases hx
  rw [instr?_inserted hnew, if_neg hj]
  simp only [hx, if_false, Option.map_id']

theorem sameNames_of_insertAt (hok : Edit.insertAt m n op inputs modules q = .ok i r) :
    SameNames q r := by
  obtain ⟨module, type, -, -, -, -, rfl⟩ := Edit.insertAt_ok.mp hok
  exact sameNames_inserted

/-! ## The state of the loop -/

/-- The instruction `b` does in the module what `a` does, on the copies of the operands. -/
structure IsCopy (copies : Renaming) (target : ModuleId) (a b : Instruction) : Prop where
  op : b.op = a.op
  modules : b.modules = a.modules
  type : b.type = a.type
  owner : b.owner = target
  inputs : List.Forall₂ (fun x y => copies.image? x = some y) a.inputs b.inputs

/-- The instructions in `done` have copies in the new module, in the same order, and everything else
is as it was. -/
structure Copying (p : Program) (name : String) (done : List InstrId) (copies : Renaming)
    (q : Program) : Prop where
  valid : q.Valid
  alive : (q.module? p.nextModule).isSome
  free : q.Free p.nextModule
  names : SameNames (p.opened name) q
  others : ∀ {k}, k ≠ p.nextModule → q.module? k = p.module? k
  outside : ∀ {j}, j ∉ q.body p.nextModule → q.instr? j = p.instr? j
  gone : ∀ {j}, j ∈ q.body p.nextModule → p.instr? j = none
  aligned : List.Forall₂ (fun i j => copies.image? i = some j) done (q.body p.nextModule)
  domain : ∀ {i j}, copies.image? i = some j → i ∈ done
  copied : ∀ {i j}, copies.image? i = some j →
    ∃ a b, p.instr? i = some a ∧ q.instr? j = some b ∧ IsCopy copies p.nextModule a b

theorem ne_nextModule (hm : (p.module? m).isSome) : m ≠ p.nextModule := by
  rintro rfl
  rw [module?_nextModule] at hm
  cases hm

namespace Copying

theorem opened (hp : p.Valid) (name : String) : Copying p name [] .empty (p.opened name) := by
  have hbody : (p.opened name).body p.nextModule = [] := by
    rw [body_opened, body, module?_nextModule]
    rfl
  refine { valid := ((hp.steady none).opened name).valid, alive := ?_, free := ?_, names := .refl _,
           others := ?_, outside := fun _ => rfl, gone := ?_, aligned := ?_, domain := ?_,
           copied := ?_ }
  · rw [module?_opened, if_pos rfl]
    rfl
  · exact hp.toFramed.free_of_gone p.module?_nextModule
  · intro k hk
    rw [module?_opened, if_neg hk]
  · intro j hj
    rw [hbody] at hj
    cases hj
  · rw [hbody]
    exact .nil
  · intro i j hij
    cases hij
  · intro i j hij
    cases hij

section

variable (h : Copying p name done copies q)

include h

theorem kept (hi : p.instr? i = some a) : q.instr? i = some a := by
  rw [h.outside, hi]
  intro hmem
  rw [h.gone hmem] at hi
  cases hi

theorem isLocal (hl : p.Linked) : Local p.nextModule p q := by
  refine ⟨h.alive, h.others, fun {k j} _ hj => ?_⟩
  obtain ⟨inst, hj, -⟩ := hl.owned hj
  rw [SameCore, h.kept hj, hj]

theorem hasType (hxy : copies.image? x = some y) (ht : p.HasType x type) : q.HasType y type := by
  obtain ⟨a, b, ha, hb, hcopy⟩ := h.copied hxy
  obtain ⟨a', ha', rfl⟩ := ht
  cases ha.symm.trans ha'
  exact ⟨b, hb, hcopy.type⟩

theorem hasTypes {α : Type} {f : α → ValueType} {xs ys : List InstrId} {ts : List α}
    (hxy : List.Forall₂ (fun x y => copies.image? x = some y) xs ys)
    (ht : List.Forall₂ (fun x t => p.HasType x (f t)) xs ts) :
    List.Forall₂ (fun y t => q.HasType y (f t)) ys ts := by
  refine forall₂_comp (fun {y x t} hyx ht => ?_) hxy.flip ht
  exact h.hasType hyx ht

theorem hasOp (hxy : copies.image? x = some y) (test : Op → Bool) :
    q.hasOp test y = p.hasOp test x := by
  obtain ⟨a, b, ha, hb, hcopy⟩ := h.copied hxy
  rw [Program.hasOp, Program.hasOp, ha, hb, Option.any_some, Option.any_some, hcopy.op]

theorem listed (hxy : copies.image? x = some y) : y ∈ q.body p.nextModule := by
  obtain ⟨y', hy', hxy'⟩ := forall₂_exists h.aligned (h.domain hxy)
  cases hxy.symm.trans hxy'
  exact hy'

theorem exists_images (hl : p.Linked) (hbody : p.body source = done ++ i :: rest)
    (hi : p.instr? i = some a) : ∃ inputs, a.inputs.mapM copies.image = .ok inputs ∧
      List.Forall₂ (fun x y => copies.image? x = some y) a.inputs inputs := by
  have himage : ∀ x ∈ a.inputs, ∃ y, copies.image x = .ok y := by
    intro x hx
    have hmem : i ∈ p.body source := hbody ▸ List.mem_append_right done List.mem_cons_self
    have hbefore := hl.before_of_uses hmem ⟨a, hi, hx⟩
    rw [hbody] at hbefore
    have hdone : x ∈ done := (before_append_cons (hbody ▸ hl.nodup source)).mp hbefore
    obtain ⟨y, -, hxy⟩ := forall₂_exists h.aligned hdone
    exact ⟨y, Renaming.image_ok.mpr hxy⟩
  obtain ⟨inputs, hinputs⟩ := Outcome.mapM_total himage
  exact ⟨inputs, hinputs, (Outcome.mapM_ok.mp hinputs).imp fun _ _ => Renaming.image_ok.mp⟩

theorem infer (hp : p.Valid) (hi : p.instr? i = some a)
    (hinputs : List.Forall₂ (fun x y => copies.image? x = some y) a.inputs inputs) :
    q.infer a.op inputs a.modules = .ok a.type := by
  obtain ⟨types, signatures, htypes, hsigs, hinfer⟩ := infer_ok.mp (hp.fresh hi)
  refine infer_ok.mpr ⟨types, signatures, h.hasTypes hinputs htypes, ?_, hinfer⟩
  refine forall₂_imp_of_mem hsigs fun k hk s hs => ?_
  have hne := ne_nextModule (hp.referenced hi hk).1
  exact (h.isLocal hp.toLinked).signature hp.toLinked hne hs

/-- No return was copied before the last instruction. -/
theorem endSafe (hp : p.Framed) (hbody : p.body source = done ++ i :: rest) :
    q.EndSafe p.nextModule (q.body p.nextModule).length op := by
  refine .inr ⟨rfl, return?_eq_none.mpr fun y hlast hret => ?_⟩
  obtain ⟨-, hnone⟩ | ⟨x, y', hx, hy, hxy⟩ := forall₂_getLast? h.aligned
  · rw [hnone] at hlast
    cases hlast
  · cases hlast.symm.trans hy
    have hbefore : Before (p.body source) x i := by
      rw [hbody]
      exact (before_append_cons (hbody ▸ hp.nodup source)).mpr (List.mem_of_getLast? hx)
    rw [h.hasOp hxy, hp.isReturn_of_before hbefore] at hret
    cases hret

/-- **One round**: the next instruction can be copied. -/
theorem completes_insert (hp : p.Valid) (hbody : p.body source = done ++ i :: rest)
    (hi : p.instr? i = some a)
    (hinputs : List.Forall₂ (fun x y => copies.image? x = some y) a.inputs inputs) :
    (Edit.insertAt p.nextModule (q.body p.nextModule).length a.op inputs a.modules).Completes q
      fun copy r => Copying p name (done ++ [i]) (copies.insert i copy) r := by
  have hl := h.valid.toLinked
  have hinfer := h.infer hp hi hinputs
  have hmod : p.nextModule ∉ a.modules := fun hk => ne_nextModule (hp.referenced hi hk).1 rfl
  have hend : q.EndSafe p.nextModule (q.body p.nextModule).length a.op :=
    h.endSafe hp.toFramed hbody
  have hlisted : ∀ y ∈ inputs, y ∈ q.body p.nextModule := by
    intro y hy
    obtain ⟨x, -, hxy⟩ := forall₂_exists hinputs.flip hy
    exact h.listed hxy
  obtain ⟨copy, r, -, hok, hins, -, -⟩ := hl.completes_insertAt h.alive hend.le
    (fun y hy => by rw [List.take_length]; exact hlisted y hy) hinfer
  have hlist : r.body p.nextModule = q.body p.nextModule ++ [copy] := by
    rw [hins.body, List.insertIdx_length_self]
  have hnot : i ∉ done := by
    have hn := hp.nodup source
    rw [hbody] at hn
    exact fun hmem => (List.nodup_append.mp hn).2.2 i hmem i List.mem_cons_self rfl
  have hself : (copies.insert i copy).image? i = some copy := by
    rw [Renaming.image?_insert, if_pos rfl]
  have hold : ∀ {x y}, copies.image? x = some y → (copies.insert i copy).image? x = some y := by
    intro x y hxy
    have hne : x ≠ i := fun he => hnot (he ▸ h.domain hxy)
    rw [Renaming.image?_insert, if_neg hne, hxy]
  have hcopied : ∀ {x y}, copies.image? x = some y → ∃ a b, p.instr? x = some a ∧
      r.instr? y = some b ∧ IsCopy (copies.insert i copy) p.nextModule a b := by
    intro x y hxy
    obtain ⟨a', b, ha', hb, hcopy⟩ := h.copied hxy
    obtain ⟨b', hb', hcore⟩ :=
      (hins.old (hins.ne_of_mem hl (h.listed hxy))).symm.exists_instr hb
    obtain ⟨hop, hin, hmodules, hty, ho⟩ := Instruction.core_eq_iff.mp hcore
    refine ⟨a', b', ha', hb', hop ▸ hcopy.op, hmodules ▸ hcopy.modules, hty ▸ hcopy.type,
      ho ▸ hcopy.owner, ?_⟩
    rw [← hin]
    exact hcopy.inputs.imp fun _ _ => hold
  have hnew : ∃ b, r.instr? copy = some b ∧
      IsCopy (copies.insert i copy) p.nextModule a b := by
    obtain ⟨type, htype, hb⟩ := hins.new
    rw [hinfer] at htype
    cases htype
    exact ⟨_, hb, rfl, rfl, rfl, rfl, hinputs.imp fun _ _ => hold⟩
  refine ⟨copy, r, hok, ?_⟩
  refine { valid := h.valid.insertAt h.free hend hmod hok, alive := hins.isLocal.alive,
           free := hins.free h.free hmod, names := h.names.trans (sameNames_of_insertAt hok),
           others := ?_, outside := ?_, gone := ?_, aligned := ?_, domain := ?_, copied := ?_ }
  · intro k hk
    rw [hins.isLocal.module? hk, h.others hk]
  · intro j hj
    rw [hlist, List.mem_append, List.mem_singleton, not_or] at hj
    rw [instr?_of_insertAt hok hj.2 fun hx => hj.1 (hlisted j hx), h.outside hj.1]
  · intro j hj
    rw [hlist, List.mem_append, List.mem_singleton] at hj
    obtain hj | rfl := hj
    · exact h.gone hj
    · rw [← h.outside fun hmem => hins.ne_of_mem hl hmem rfl, hins.gone]
  · rw [hlist]
    exact List.rel_append (h.aligned.imp fun _ _ => hold) (.cons hself .nil)
  · intro x y hxy
    rw [Renaming.image?_insert] at hxy
    split at hxy
    · next he => exact List.mem_append_right _ (List.mem_singleton.mpr he)
    · exact List.mem_append_left _ (h.domain hxy)
  · intro x y hxy
    rw [Renaming.image?_insert] at hxy
    split at hxy
    · next he =>
      cases hxy
      obtain ⟨b, hb, hcopy⟩ := hnew
      exact ⟨a, b, he ▸ hi, hb, hcopy⟩
    · exact hcopied hxy

end

/-- **The whole loop**: all instructions of a module can be copied. -/
theorem completes_copyBody (h : Copying p name done copies q) (hp : p.Valid)
    (hbody : p.body source = done ++ rest) :
    (Edit.copyBody p.nextModule rest copies).Completes q
      fun copies r => Copying p name (p.body source) copies r := by
  induction rest generalizing done copies q with
  | nil =>
    rw [List.append_nil] at hbody
    exact completes_pure.mpr (hbody ▸ h)
  | cons i rest ih =>
    obtain ⟨a, hi, -⟩ := hp.owned (m := source) (i := i) (by simp [hbody])
    obtain ⟨inputs, himages, hinputs⟩ := h.exists_images hp.toLinked hbody hi
    rw [Edit.copyBody, completes_get_bind, completes_bind,
      completes_lift (findInstr_ok.mpr (h.kept hi)), completes_bind, completes_lift himages,
      completes_bind]
    refine (h.completes_insert hp hbody hi hinputs).mono fun copy r hr => ih hr ?_
    rw [hbody, List.append_assoc]
    rfl

theorem parameters (h : Copying p name (p.body source) copies q) :
    List.Forall₂ (fun x y => copies.image? x = some y) (p.parameters source)
      (q.parameters p.nextModule) :=
  forall₂_filter h.aligned fun _ _ hxy => (h.hasOp hxy _).symm

/-- **The copy takes and returns the same.** -/
theorem signature (h : Copying p name (p.body source) copies q) {s : Signature}
    (hs : p.signature source = .ok s) : q.signature p.nextModule = .ok s := by
  obtain ⟨module, hm, hparams, hreturns⟩ := signature_ok.mp hs
  obtain ⟨copy, hcopy⟩ := Option.isSome_iff_exists.mp h.alive
  refine signature_ok.mpr ⟨copy, hcopy, h.hasTypes h.parameters hparams, ?_⟩
  rw [returnTypes_ok, ← body_of_module? hcopy]
  rw [returnTypes_ok, ← body_of_module? hm] at hreturns
  obtain ⟨hx, hy⟩ | ⟨x, y, hx, hy, hxy⟩ := forall₂_getLast? h.aligned
  · rw [hx] at hreturns
    rwa [hy]
  · rw [hx] at hreturns
    rw [hy]
    obtain ⟨a, b, ha, hb, hab⟩ := h.copied hxy
    obtain ⟨a', ha', hreturns⟩ := hreturns
    cases ha.symm.trans ha'
    refine ⟨b, hb, ?_⟩
    rw [hab.op, hab.type]
    split at hreturns
    · next hret =>
      rw [if_pos hret]
      exact h.hasTypes hab.inputs hreturns
    · next hret => rwa [if_neg hret]

end Copying

/-! ## The copy -/

/-- The module `target` of `q` is a copy of the module `source` of `p` under a name, and everything
else is as it was. -/
structure Copied (p : Program) (source : ModuleId) (name : String) (target : ModuleId)
    (copies : Renaming) (q : Program) : Prop where
  new : p.module? target = none
  named : (q.module? target).map Module.name = some name
  /-- Copies stand at the positions of what they are copies of. -/
  aligned : List.Forall₂ (fun i j => copies.image? i = some j) (p.body source) (q.body target)
  domain : ∀ i, (∃ j, copies.image? i = some j) ↔ i ∈ p.body source
  range : ∀ j, (∃ i, copies.image? i = some j) ↔ j ∈ q.body target
  injective : ∀ i i' j, copies.image? i = some j → copies.image? i' = some j → i = i'
  copied : ∀ i j, copies.image? i = some j →
    ∃ a b, p.instr? i = some a ∧ q.instr? j = some b ∧ IsCopy copies target a b
  signature : ∃ s, p.signature source = .ok s ∧ q.signature source = .ok s ∧
    q.signature target = .ok s
  modules : ∀ m, m ≠ target → q.module? m = p.module? m
  instructions : ∀ i, i ∉ q.body target → q.instr? i = p.instr? i
  fresh : ∀ j ∈ q.body target, p.instr? j = none
  names : ∀ other, q.moduleNamed? other = if other = name then some target else p.moduleNamed? other
  verified : q.verify = .ok ⟨⟩

theorem Copying.copied_module (h : Copying p name (p.body source) copies q) (hp : p.Valid)
    (hsource : (p.module? source).isSome) : Copied p source name p.nextModule copies q := by
  obtain ⟨s, hs⟩ := hp.toLinked.exists_signature hsource fun i _ _ hi => hp.fresh hi
  have hsame := (h.isLocal hp.toLinked).signature hp.toLinked (ne_nextModule hsource) hs
  have hfunction : ∀ {x y y'}, copies.image? x = some y → copies.image? x = some y' → y = y' :=
    fun hy hy' => Option.some.inj (hy.symm.trans hy')
  refine { new := p.module?_nextModule, named := ?_, aligned := h.aligned, domain := fun i => ?_,
           range := fun j => ?_, injective := fun i i' j hi hi' => ?_,
           copied := fun _ _ => h.copied, signature := ⟨s, hs, hsame, h.signature hs⟩,
           modules := fun _ => h.others, instructions := fun _ => h.outside,
           fresh := fun _ => h.gone, names := fun other => ?_, verified := verify_ok.mpr h.valid }
  · rw [h.names.modules, module?_opened, if_pos rfl]
    rfl
  · constructor
    · rintro ⟨j, hij⟩
      exact h.domain hij
    · intro hi
      obtain ⟨j, -, hij⟩ := forall₂_exists h.aligned hi
      exact ⟨j, hij⟩
  · constructor
    · rintro ⟨i, hij⟩
      exact h.listed hij
    · intro hj
      obtain ⟨i, -, hij⟩ := forall₂_exists h.aligned.flip hj
      exact ⟨i, hij⟩
  · exact forall₂_injective h.aligned (h.valid.nodup _) hfunction (h.domain hi) (h.domain hi') hi
      hi'
  · have hindex : q.names = (name, p.nextModule) :: p.names := h.names.index
    rw [moduleNamed?, hindex, List.lookup_cons, moduleNamed?]
    by_cases he : other = name
    · rw [if_pos he, beq_iff_eq.mpr he]
    · rw [if_neg he, beq_eq_false_iff_ne.mpr he]

theorem Valid.completes_copyModule (hp : p.Valid) (hsource : (p.module? source).isSome)
    (hname : p.moduleNamed? name = none) :
    (Edit.copyModule source name).Completes p
      fun result q => Copied p source name result.1 result.2 q := by
  obtain ⟨module, hm⟩ := Option.isSome_iff_exists.mp hsource
  have hcreate : Edit.createModule name p = .ok p.nextModule (p.opened name) :=
    Edit.createModule_ok.mpr ⟨hname, rfl, rfl⟩
  rw [Edit.copyModule, completes_get_bind, completes_bind, completes_lift (findModule_ok.mpr hm),
    completes_bind]
  refine ⟨_, _, hcreate, completes_bind.mpr ?_⟩
  rw [← body_of_module? hm]
  have hbody : p.body source = [] ++ p.body source := rfl
  refine ((Copying.opened hp name).completes_copyBody hp hbody).mono fun copies q hq => ?_
  exact completes_pure.mpr (hq.copied_module hp hsource)

theorem named_of_copyModule {result : ModuleId × Renaming}
    (hok : Edit.copyModule source name p = .ok result q) : p.moduleNamed? name = none := by
  simp only [Edit.copyModule, Action.get_bind_ok, Action.lift_bind_ok] at hok
  obtain ⟨module, -, hok⟩ := hok
  obtain ⟨target, r, hcreate, -⟩ := Action.bind_ok.mp hok
  exact (Edit.createModule_ok.mp hcreate).1

/-- **Copies of modules are isomorphic to them.** A module of a verified program can be copied
exactly under the names that are free. The copies stand in a module of their own at the same
positions, with the same operations, modules and types, on the copied operands; the modules have
equal signatures, everything else is as it was, and the program is verified again. -/
theorem copyModule_exact (h : p.verify = .ok ⟨⟩) (hsource : (p.module? source).isSome)
    (name : String) :
    ((∃ result q, Edit.copyModule source name p = .ok result q) ↔ p.moduleNamed? name = none) ∧
    ∀ target copies q, Edit.copyModule source name p = .ok (target, copies) q →
      Copied p source name target copies q := by
  have hp := verify_ok.mp h
  refine ⟨⟨?_, fun hname => ?_⟩, fun target copies q hok => ?_⟩
  · rintro ⟨result, q, hok⟩
    exact named_of_copyModule hok
  · obtain ⟨result, q, hok, -⟩ := hp.completes_copyModule hsource hname
    exact ⟨result, q, hok⟩
  · obtain ⟨result, q', hok', hcopied⟩ :=
      hp.completes_copyModule hsource (named_of_copyModule hok)
    cases hok.symm.trans hok'
    exact hcopied

/-- A module that doubles its parameter and carries another module. -/
def carryingModule : Program :=
  (do
    let g ← Edit.createModule "g"
    let y ← Edit.addParameter g "y" ⟨.f32, [1], [1]⟩
    let relu ← Edit.addInstruction g (.unary .relu) [y] []
    let _ ← Edit.addReturn g [relu]
    let f ← Edit.createModule "f"
    let x ← Edit.addParameter f "x" ⟨.f32, [2], [1]⟩
    let sum ← Edit.addInstruction f (.binary .add) [x, x] []
    let active ← Edit.addInstruction f .pointwise [sum] [g]
    let _ ← Edit.addReturn f [active] : Edit Unit).after .empty

/-- The copy carries the same module, and its sum has the copied parameter twice. -/
theorem copyModule_exact_carrying :
    carryingModule.verify = .ok ⟨⟩ ∧ (carryingModule.module? ⟨2⟩).isSome ∧
    ∃ copies q, Edit.copyModule ⟨2⟩ "h" carryingModule = .ok (⟨3⟩, copies) q ∧
      Copied carryingModule ⟨2⟩ "h" ⟨3⟩ copies q ∧ q.body ⟨3⟩ = [⟨7⟩, ⟨8⟩, ⟨9⟩, ⟨10⟩] ∧
      (q.instr? ⟨8⟩).map Instruction.inputs = some [⟨7⟩, ⟨7⟩] ∧
      (q.instr? ⟨9⟩).map Instruction.modules = some [⟨1⟩] := by
  have hv : carryingModule.verify = .ok ⟨⟩ := by decide +kernel
  have halive : (carryingModule.module? ⟨2⟩).isSome := by decide +kernel
  obtain ⟨⟨target, copies⟩, q, hok, rfl, hq⟩ : ∃ result q,
      Edit.copyModule ⟨2⟩ "h" carryingModule = .ok result q ∧ result.1 = ⟨3⟩ ∧
        q.body ⟨3⟩ = [⟨7⟩, ⟨8⟩, ⟨9⟩, ⟨10⟩] ∧
        (q.instr? ⟨8⟩).map Instruction.inputs = some [⟨7⟩, ⟨7⟩] ∧
        (q.instr? ⟨9⟩).map Instruction.modules = some [⟨1⟩] := by decide +kernel
  exact ⟨hv, halive, copies, q, hok, (copyModule_exact hv halive "h").2 _ _ _ hok, hq⟩

end Program

end OffloadFusion
