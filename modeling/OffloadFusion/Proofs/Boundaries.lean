import OffloadFusion.Proofs.Filling
import OffloadFusion.Proofs.Preserving

/-!
# Returns and parameters of what is built

`BoundaryRules p m`: a return is the last instruction of the module, and its parameters have
different names. `Edit.addReturn` and `Edit.addParameter` look after this; the insertions of any
operation take a return or a parameter as it is given. So **after a sequence of successful building
calls the rules hold exactly where every call was orderly** (`Command.boundaryRules_iff_orderly`):
a general insertion may bring a return only to the end of a module without one, and a parameter only
under a free name. No later call repairs a breach.

* `Program.Admits`: whether the rules let an operation stand at a position.
* `boundaryRules_insertAt`, `Command.boundaryRules_run`: one insertion and one call.
* `Command.breach_unnoticed`: two returns, and two parameters of one name.
-/

namespace OffloadFusion

namespace Program

variable {p q : Program} {i j place : InstrId} {m k : ModuleId} {n : Nat} {op : Op}
  {inputs : List InstrId} {modules : List ModuleId} {name : String}

/-- The name under which an instruction is a parameter. -/
def paramName? (p : Program) (i : InstrId) : Option String :=
  (p.instr? i).bind fun inst => inst.op.paramName?

/-- The names of the parameters of a module in declaration order. -/
def paramNames (p : Program) (m : ModuleId) : List String := (p.body m).filterMap p.paramName?

/-- The rules for the boundary of a module. -/
structure BoundaryRules (p : Program) (m : ModuleId) : Prop where
  /-- A return is the last instruction, so that there is at most one. -/
  returns : ∀ i ∈ p.body m, p.hasOp Op.isReturn i = true → (p.body m).getLast? = some i
  /-- The parameters have different names. -/
  names : (p.paramNames m).Nodup

/-- A parameter would have a free name. -/
def Unnamed (p : Program) (m : ModuleId) (op : Op) : Prop :=
  ∀ name ∈ op.paramName?, p.parameter? m name = none

instance (m : ModuleId) (op : Op) : Decidable (p.Unnamed m op) :=
  inferInstanceAs (Decidable (∀ name ∈ op.paramName?, p.parameter? m name = none))

/-- The rules let an operation stand at a position. -/
def Admits (p : Program) (m : ModuleId) (n : Nat) (op : Op) : Prop :=
  p.EndSafe m n op ∧ p.Unnamed m op

/-! ## Names -/

theorem isParam_of_paramName? (h : op.paramName? = some name) : op.isParam = true := by
  unfold Op.paramName? at h
  split at h
  · rfl
  · cases h

theorem mem_paramNames : name ∈ p.paramNames m ↔ (p.parameter? m name).isSome := by
  rw [paramNames, List.mem_filterMap, parameter?, List.find?_isSome, parameters]
  constructor
  · rintro ⟨i, hi, hname⟩
    obtain ⟨inst, hinst, hop⟩ := Option.bind_eq_some_iff.mp hname
    have hparam := hasOp_iff.mpr ⟨inst, hinst, isParam_of_paramName? hop⟩
    exact ⟨i, List.mem_filter.mpr ⟨hi, hparam⟩, hasOp_iff.mpr ⟨inst, hinst, decide_eq_true hop⟩⟩
  · rintro ⟨i, hi, hname⟩
    obtain ⟨inst, hinst, hop⟩ := hasOp_iff.mp hname
    exact ⟨i, (List.mem_filter.mp hi).1,
      Option.bind_eq_some_iff.mpr ⟨inst, hinst, of_decide_eq_true hop⟩⟩

theorem notMem_paramNames : name ∉ p.paramNames m ↔ p.parameter? m name = none := by
  rw [mem_paramNames, Bool.not_eq_true, Option.isSome_eq_false_iff, Option.isNone_iff_eq_none]

theorem SameCore.paramName? (h : SameCore p q i) : q.paramName? i = p.paramName? i := by
  have hcore : ∀ o : Option Instruction, (o.bind fun inst => inst.op.paramName?) =
      ((o.map Instruction.core).bind fun inst => inst.op.paramName?) := fun o => by cases o <;> rfl
  rw [Program.paramName?, Program.paramName?, hcore (q.instr? i), hcore (p.instr? i),
    show _ = _ from h]

/-- What the rules say depends on what the module lists. -/
theorem boundaryRules_congr (hb : q.body m = p.body m) (h : ∀ j ∈ p.body m, SameCore p q j) :
    q.BoundaryRules m ↔ p.BoundaryRules m := by
  have hnames : q.paramNames m = p.paramNames m := by
    rw [paramNames, paramNames, hb]
    exact List.filterMap_congr fun j hj => (h j hj).paramName?
  constructor
  · rintro ⟨hret, hnodup⟩
    refine ⟨fun j hj hop => ?_, hnames ▸ hnodup⟩
    exact hb ▸ hret j (hb ▸ hj) ((h j hj).hasOp _ ▸ hop)
  · rintro ⟨hret, hnodup⟩
    refine ⟨fun j hj hop => ?_, hnames.symm ▸ hnodup⟩
    rw [hb] at hj ⊢
    exact hret j hj ((h j hj).hasOp _ ▸ hop)

/-! ## One insertion -/

theorem Inserted.nodup_paramNames (h : Inserted m n op inputs modules p i q) (hl : p.Linked)
    (hn : n ≤ (p.body m).length) : (q.paramNames m).Nodup ↔
      (p.paramNames m).Nodup ∧ p.Unnamed m op := by
  have hnew : q.paramName? i = op.paramName? := by
    obtain ⟨type, -, hnew⟩ := h.new
    rw [paramName?, hnew, Option.bind_some]
  have hold : (p.body m).filterMap q.paramName? = p.paramNames m :=
    List.filterMap_congr fun j hj => (h.old (h.ne_of_mem hl hj)).paramName?
  have hperm := (List.perm_insertIdx i (p.body m) hn).filterMap q.paramName?
  rw [paramNames, h.body, hperm.nodup_iff, List.filterMap_cons, hnew, Unnamed]
  cases op.paramName? with
  | none => simp [hold]
  | some name =>
    simp only [List.nodup_cons, Option.mem_some_iff, forall_eq', hold, notMem_paramNames]
    exact and_comm

theorem Inserted.mem_body (h : Inserted m n op inputs modules p i q) (hn : n ≤ (p.body m).length) :
    j ∈ q.body m ↔ j = i ∨ j ∈ p.body m := by
  rw [h.body, List.mem_insertIdx hn]

theorem Inserted.returns_below (h : Inserted m n op inputs modules p i q) (hl : p.Linked)
    (hn : n < (p.body m).length) :
    (∀ j ∈ q.body m, q.hasOp Op.isReturn j = true → (q.body m).getLast? = some j) ↔
      (∀ j ∈ p.body m, p.hasOp Op.isReturn j = true → (p.body m).getLast? = some j) ∧
        op.isReturn = false := by
  have hlast : (q.body m).getLast? = (p.body m).getLast? := by rw [h.body, getLast?_insertIdx hn]
  have hold : ∀ j ∈ p.body m, q.hasOp Op.isReturn j = p.hasOp Op.isReturn j :=
    fun j hj => (h.old (h.ne_of_mem hl hj)).hasOp _
  have hmem : ∀ j, j ∈ q.body m ↔ j = i ∨ j ∈ p.body m := fun j => h.mem_body (Nat.le_of_lt hn)
  rw [hlast, ← h.hasOp_new Op.isReturn]
  constructor
  · intro hret
    refine ⟨fun j hj hop => hret j ((hmem j).mpr (.inr hj)) ((hold j hj).trans hop), ?_⟩
    rw [Bool.eq_false_iff]
    intro hop
    have hi := List.mem_of_getLast? (hret i ((hmem i).mpr (.inl rfl)) hop)
    exact h.ne_of_mem hl hi rfl
  · rintro ⟨hret, hnot⟩ j hj hop
    obtain rfl | hj := (hmem j).mp hj
    · rw [hnot] at hop
      cases hop
    · exact hret j hj ((hold j hj).symm.trans hop)

theorem Inserted.returns_at_end (h : Inserted m (p.body m).length op inputs modules p i q)
    (hl : p.Linked) :
    (∀ j ∈ q.body m, q.hasOp Op.isReturn j = true → (q.body m).getLast? = some j) ↔
      (∀ j ∈ p.body m, p.hasOp Op.isReturn j = true → (p.body m).getLast? = some j) ∧
        p.return? m = none := by
  have hlast : (q.body m).getLast? = some i := by
    rw [h.body, List.insertIdx_length_self, List.getLast?_concat]
  have hold : ∀ j ∈ p.body m, q.hasOp Op.isReturn j = p.hasOp Op.isReturn j :=
    fun j hj => (h.old (h.ne_of_mem hl hj)).hasOp _
  rw [hlast]
  constructor
  · intro hret
    have hnone : ∀ j ∈ p.body m, p.hasOp Op.isReturn j ≠ true := fun j hj hop => by
      have hj' := (h.mem_body (Nat.le_refl _)).mpr (.inr hj)
      have he := Option.some.inj (hret j hj' ((hold j hj).trans hop))
      exact h.ne_of_mem hl hj he.symm
    exact ⟨fun j hj hop => absurd hop (hnone j hj),
      return?_eq_none.mpr fun r hr => hnone r (List.mem_of_getLast? hr)⟩
  · rintro ⟨hret, hnone⟩ j hj hop
    obtain rfl | hj := (h.mem_body (Nat.le_refl _)).mp hj
    · rfl
    · have hop := (hold j hj).symm.trans hop
      exact absurd hop (return?_eq_none.mp hnone j (hret j hj hop))

theorem Inserted.returns_iff (h : Inserted m n op inputs modules p i q) (hl : p.Linked)
    (hn : n ≤ (p.body m).length) :
    (∀ j ∈ q.body m, q.hasOp Op.isReturn j = true → (q.body m).getLast? = some j) ↔
      (∀ j ∈ p.body m, p.hasOp Op.isReturn j = true → (p.body m).getLast? = some j) ∧
        p.EndSafe m n op := by
  obtain hlt | rfl := Nat.lt_or_eq_of_le hn
  · have hend : p.EndSafe m n op ↔ op.isReturn = false := by
      simp only [EndSafe, hlt, true_and, Nat.ne_of_lt hlt, false_and, or_false]
    rw [hend]
    exact h.returns_below hl hlt
  · have hend : p.EndSafe m (p.body m).length op ↔ p.return? m = none := by
      simp only [EndSafe, Nat.lt_irrefl, false_and, true_and, false_or]
    rw [hend]
    exact h.returns_at_end hl

/-- **An insertion keeps the rules exactly where they admit it**, and repairs no breach. -/
theorem boundaryRules_insertAt (hl : p.Linked) (hn : n ≤ (p.body m).length)
    (hok : Edit.insertAt m n op inputs modules p = .ok i q) :
    (∀ k, q.BoundaryRules k) ↔ (∀ k, p.BoundaryRules k) ∧ p.Admits m n op := by
  have h := inserted_of_ok hl hok
  have hself : q.BoundaryRules m ↔ p.BoundaryRules m ∧ p.Admits m n op := by
    constructor
    · rintro ⟨hret, hnames⟩
      obtain ⟨hret, hend⟩ := (h.returns_iff hl hn).mp hret
      obtain ⟨hnames, hfree⟩ := (h.nodup_paramNames hl hn).mp hnames
      exact ⟨⟨hret, hnames⟩, hend, hfree⟩
    · rintro ⟨⟨hret, hnames⟩, hend, hfree⟩
      exact ⟨(h.returns_iff hl hn).mpr ⟨hret, hend⟩, (h.nodup_paramNames hl hn).mpr ⟨hnames, hfree⟩⟩
  have hother : ∀ k, k ≠ m → (q.BoundaryRules k ↔ p.BoundaryRules k) := fun k hk =>
    boundaryRules_congr (h.isLocal.body hk) fun j hj => h.isLocal.core hk hj
  constructor
  · intro hall
    refine ⟨fun k => ?_, (hself.mp (hall m)).2⟩
    by_cases hk : k = m
    · exact hk ▸ (hself.mp (hall m)).1
    · exact (hother k hk).mp (hall k)
  · rintro ⟨hall, hadmits⟩ k
    by_cases hk : k = m
    · exact hk ▸ hself.mpr ⟨hall m, hadmits⟩
    · exact (hother k hk).mpr (hall k)

/-! ## Admitted positions -/

theorem endSafe_append_iff :
    p.EndSafe m ((p.body m).length - if (p.return? m).isSome then 1 else 0) op ↔
      (op.isReturn = true → p.return? m = none) := by
  by_cases hop : op.isReturn = true
  · refine ⟨fun h _ => ?_, fun h => .inr ⟨?_, h hop⟩⟩
    · obtain ⟨-, hnot⟩ | ⟨-, hnone⟩ := h
      · rw [hop] at hnot
        cases hnot
      · exact hnone
    · rw [h hop]
      rfl
  · exact ⟨fun _ h => absurd h hop, fun _ => endSafe_append (Bool.eq_false_iff.mpr hop)⟩

theorem endSafe_before_iff (hloc : p.locate place = .ok (m, n)) :
    p.EndSafe m n op ↔ op.isReturn = false := by
  refine ⟨fun h => ?_, endSafe_before hloc⟩
  obtain ⟨module, hm, hlt⟩ := Edit.lt_length_of_locate hloc
  obtain ⟨-, hnot⟩ | ⟨he, -⟩ := h
  · exact hnot
  · rw [body_of_module? hm] at he
    omega

theorem getLast?_of_locate (hl : p.Linked) (hloc : p.locate place = .ok (m, n)) :
    (p.body m).getLast? = some place ↔ n + 1 = (p.body m).length := by
  obtain ⟨inst, module, -, -, hm, hidx⟩ := locate_ok.mp hloc
  rw [← body_of_module? hm] at hidx
  obtain ⟨hlt, hget, -⟩ := List.idxOf?_eq_some_iff.mp hidx
  have hsplit : p.body m = (p.body m).take n ++ place :: (p.body m).drop (n + 1) := by
    rw [← hget, ← List.drop_eq_getElem_cons hlt, List.take_append_drop]
  have hnodup := hl.nodup m
  rw [hsplit] at hnodup
  conv_lhs => rw [hsplit]
  rw [getLast?_append_cons hnodup, List.drop_eq_nil_iff]
  omega

theorem endSafe_after_iff (hl : p.Linked) (hloc : p.locate place = .ok (m, n))
    (hret : p.hasOp Op.isReturn place = false) :
    p.EndSafe m (n + 1) op ↔ (op.isReturn = true → (p.body m).getLast? = some place) := by
  by_cases hop : op.isReturn = true
  · rw [getLast?_of_locate hl hloc]
    refine ⟨fun h _ => ?_, fun h => .inr ⟨h hop, ?_⟩⟩
    · obtain ⟨-, hnot⟩ | ⟨he, -⟩ := h
      · rw [hop] at hnot
        cases hnot
      · exact he
    · refine return?_eq_none.mpr fun r hlast hr => ?_
      rw [(getLast?_of_locate hl hloc).mpr (h hop), Option.some.injEq] at hlast
      rw [← hlast, hret] at hr
      cases hr
  · exact ⟨fun _ h => absurd h hop, fun _ => endSafe_after hloc hret (Bool.eq_false_iff.mpr hop)⟩

end Program

/-! ## Calls -/

namespace Command

open Program

variable {p q : Program} {c : Command} {cs : List Command} {u : Unit}

/-- The calls that build: they open a module or add an instruction. -/
def builds : Command → Bool
  | createModule _ | addParameter .. | addLiteral .. | addInstruction .. | insertBefore ..
  | insertAfter .. | addReturn .. => true
  | _ => false

/-- Where the call may add any operation, a return goes to the end of a module without one, and a
parameter has a free name. -/
def Orderly (p : Program) : Command → Prop
  | addInstruction m op _ _ => (op.isReturn = true → p.return? m = none) ∧ p.Unnamed m op
  | insertBefore place op _ _ => ∀ inst ∈ p.instr? place,
      op.isReturn = false ∧ p.Unnamed inst.owner op
  | insertAfter place op _ _ => ∀ inst ∈ p.instr? place,
      (op.isReturn = true → (p.body inst.owner).getLast? = some place) ∧ p.Unnamed inst.owner op
  | createModule _ | copyModule .. | removeModule _ | addParameter .. | addLiteral ..
  | addReturn .. | replaceInstruction .. | replaceWith .. | removeInstruction _ => True

instance (p : Program) : (c : Command) → Decidable (c.Orderly p)
  | addInstruction .. | insertBefore .. | insertAfter .. => by
    unfold Orderly
    infer_instance
  | createModule _ | copyModule .. | removeModule _ | addParameter .. | addLiteral ..
  | addReturn .. | replaceInstruction .. | replaceWith .. | removeInstruction _ =>
    inferInstanceAs (Decidable True)

/-- **A building call keeps the rules exactly where it is orderly**, and repairs no breach. -/
theorem boundaryRules_run (hl : p.Linked) (hb : c.builds = true) (hok : c.run p = .ok u q) :
    (∀ k, q.BoundaryRules k) ↔ (∀ k, p.BoundaryRules k) ∧ c.Orderly p := by
  cases c with
  | createModule name =>
    obtain ⟨m, hok⟩ := discard_ok hok
    obtain ⟨-, -, rfl⟩ := Edit.createModule_ok.mp hok
    rw [Orderly, and_true]
    exact forall_congr' fun k => boundaryRules_congr (p.body_opened name k) fun _ _ => rfl
  | addParameter m name type =>
    obtain ⟨i, hok⟩ := discard_ok hok
    obtain ⟨hfree, module, hm, hok⟩ := Edit.addParameter_ok.mp hok
    rw [← body_of_module? hm] at hok
    have hadmits : p.Admits m (p.parametersEnd (p.body m)) (.param name type) :=
      ⟨endSafe_parametersEnd rfl, fun _ he => Option.some.inj he ▸ hfree⟩
    rw [boundaryRules_insertAt hl hadmits.1.le hok, Orderly, and_true]
    exact and_iff_left hadmits
  | addLiteral m type data =>
    obtain ⟨i, hok⟩ := discard_ok hok
    obtain ⟨module, hm, hok⟩ := Edit.addLiteral_ok.mp hok
    rw [← body_of_module? hm] at hok
    have hadmits : p.Admits m (p.parametersEnd (p.body m)) (.literal type data) :=
      ⟨endSafe_parametersEnd rfl, nofun⟩
    rw [boundaryRules_insertAt hl hadmits.1.le hok, Orderly, and_true]
    exact and_iff_left hadmits
  | addInstruction m op inputs modules =>
    obtain ⟨i, hok⟩ := discard_ok hok
    obtain ⟨module, hm, hok⟩ := Edit.addInstruction_ok.mp hok
    rw [← body_of_module? hm] at hok
    rw [boundaryRules_insertAt hl (Nat.sub_le _ _) hok, Admits, endSafe_append_iff, Orderly]
  | insertBefore place op inputs modules =>
    obtain ⟨i, hok⟩ := discard_ok hok
    obtain ⟨m, n, hloc, hok⟩ := Edit.insertBefore_ok.mp hok
    obtain ⟨inst, module, hplace, rfl, hm, -⟩ := locate_ok.mp hloc
    obtain ⟨module', hm', hlt⟩ := Edit.lt_length_of_locate hloc
    rw [← body_of_module? hm'] at hlt
    rw [boundaryRules_insertAt hl (Nat.le_of_lt hlt) hok, Admits, endSafe_before_iff hloc, Orderly,
      hplace]
    simp only [Option.mem_some_iff, forall_eq']
  | insertAfter place op inputs modules =>
    obtain ⟨i, hok⟩ := discard_ok hok
    obtain ⟨m, n, hloc, hret, hok⟩ := Edit.insertAfter_ok.mp hok
    obtain ⟨inst, module, hplace, rfl, hm, -⟩ := locate_ok.mp hloc
    obtain ⟨module', hm', hlt⟩ := Edit.lt_length_of_locate hloc
    rw [← body_of_module? hm'] at hlt
    rw [boundaryRules_insertAt hl hlt hok, Admits, endSafe_after_iff hl hloc hret, Orderly, hplace]
    simp only [Option.mem_some_iff, forall_eq']
  | addReturn m inputs =>
    obtain ⟨i, hok⟩ := discard_ok hok
    obtain ⟨hnone, module, hm, hok⟩ := Edit.addReturn_ok.mp hok
    rw [← body_of_module? hm] at hok
    have hadmits : p.Admits m (p.body m).length .ret := ⟨.inr ⟨rfl, hnone⟩, nofun⟩
    rw [boundaryRules_insertAt hl (Nat.le_refl _) hok, Orderly, and_true]
    exact and_iff_left hadmits
  | copyModule | removeModule | replaceInstruction | replaceWith | removeInstruction => cases hb

theorem boundaryRules_forM (hs : p.Sound) (hb : ∀ c ∈ cs, c.builds = true)
    (hok : cs.forM run p = .ok u q) : (∀ k, q.BoundaryRules k) ↔ (∀ k, p.BoundaryRules k) ∧
      ∀ pre c post, cs = pre ++ c :: post → c.Orderly ((pre.forM run).after p) := by
  induction cs generalizing p with
  | nil =>
    obtain ⟨-, rfl⟩ := Action.pure_ok.mp hok
    simp
  | cons c cs ih =>
    rw [List.forM, Action.bind_ok] at hok
    obtain ⟨_, r, hc, hok⟩ := hok
    have hr : r.Sound := Action.after_of_ok hc ▸ c.keeps_sound p hs
    have hafter : ∀ pre : List Command,
        ((c :: pre).forM run).after p = (pre.forM run).after r := fun pre => by
      rw [List.forM, Action.after_bind, hc]
    rw [ih hr (fun c' hc' => hb c' (List.mem_cons_of_mem c hc')) hok,
      boundaryRules_run hs.linked (hb c List.mem_cons_self) hc, and_assoc]
    refine and_congr_right fun _ => ⟨?_, fun h => ?_⟩
    · rintro ⟨hfirst, hrest⟩ pre d post he
      cases pre with
      | nil =>
        obtain ⟨rfl, -⟩ := List.cons.inj he
        exact hfirst
      | cons b pre =>
        obtain ⟨rfl, htail⟩ := List.cons.inj he
        rw [hafter]
        exact hrest pre d post htail
    · refine ⟨h [] c cs rfl, fun pre d post he => ?_⟩
      have hd := h (c :: pre) d post (congrArg (c :: ·) he)
      rwa [hafter] at hd

/-- **What successful building calls leave behind.** Every module has at most one return, as its
last instruction, and no two parameters of one name, exactly if each call was orderly for the
program that it was made on. -/
theorem boundaryRules_iff_orderly (cs : List Command) (hb : ∀ c ∈ cs, c.builds = true)
    (hok : cs.forM run .empty = .ok ⟨⟩ q) : (∀ m, q.BoundaryRules m) ↔
      ∀ pre c post, cs = pre ++ c :: post → c.Orderly ((pre.forM run).after .empty) := by
  have hempty : ∀ m, Program.empty.BoundaryRules m := fun m => by
    have hbody : Program.empty.body m = [] := by
      by_contra hne
      obtain ⟨i, hi⟩ := List.exists_mem_of_ne_nil _ hne
      obtain ⟨inst, hinst, -⟩ := Linked.empty.owned hi
      simp [Program.empty, instr?] at hinst
    constructor
    · rw [hbody]
      exact List.forall_mem_nil _
    · rw [paramNames, hbody]
      exact .nil
  rw [boundaryRules_forM ⟨.empty, .empty⟩ hb hok, and_iff_right hempty]

/-- A return and a parameter that come by general insertions, in order. -/
theorem boundaryRules_iff_orderly_returned :
    let cs := [addParameter main "x" ⟨.f32, [2], [1]⟩, addInstruction main .ret [⟨0⟩] [],
      insertAfter ⟨0⟩ (.param "y" ⟨.f32, [2], [1]⟩) [] []]
    (∀ c ∈ cs, c.builds = true) ∧ ∃ q, cs.forM run .empty = .ok ⟨⟩ q ∧
      q.body main = [⟨0⟩, ⟨2⟩, ⟨1⟩] ∧ ∀ m, q.BoundaryRules m := by
  intro cs
  have hb : ∀ c ∈ cs, c.builds = true := by decide
  have horderly : ∀ pre c post, cs = pre ++ c :: post →
      c.Orderly ((pre.forM run).after .empty) := by
    intro pre c post he
    change [_, _, _] = _ at he
    match pre with
    | [] | [_] | [_, _] =>
      cases he
      decide +kernel
    | _ :: _ :: _ :: _ =>
      have hlength := congrArg List.length he
      simp at hlength
  obtain ⟨_, q, hrun, hbody⟩ : ∃ u q, cs.forM run .empty = .ok u q ∧
      q.body main = [⟨0⟩, ⟨2⟩, ⟨1⟩] := by decide +kernel
  exact ⟨hb, q, hrun, hbody, (boundaryRules_iff_orderly cs hb hrun).mpr horderly⟩

/-- A second return and a second parameter of a name are taken as they come. -/
theorem breach_unnoticed :
    let cs := [addParameter main "x" ⟨.f32, [2], [1]⟩, addReturn main [⟨0⟩],
      addInstruction main .ret [⟨0⟩] [], insertAfter ⟨0⟩ (.param "x" ⟨.f32, [2], [1]⟩) [] []]
    (∀ c ∈ cs, c.builds = true) ∧ ∃ q, cs.forM run .empty = .ok ⟨⟩ q ∧
      (q.body main).filter (q.hasOp Op.isReturn) = [⟨2⟩, ⟨1⟩] ∧ q.paramNames main = ["x", "x"] ∧
      q.verify ≠ .ok ⟨⟩ := by
  intro cs
  obtain ⟨_, q, hrun, hbreach⟩ : ∃ u q, cs.forM run .empty = .ok u q ∧
      (q.body main).filter (q.hasOp Op.isReturn) = [⟨2⟩, ⟨1⟩] ∧
        q.paramNames main = ["x", "x"] ∧ q.verify ≠ .ok ⟨⟩ := by decide +kernel
  exact ⟨by decide, q, hrun, hbreach⟩

end Command

end OffloadFusion
