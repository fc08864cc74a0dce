import OffloadFusion.Proofs.Chains
import OffloadFusion.Proofs.Matches

/-!
# What a matcher captures

Evaluating an expression with one list of captures, which every part appends to and which a part
that does not match cuts back, is the same as handing captures on. In a verified program **the
answer does not depend on the captures, and every capture is of an instruction that matches there**
(`Matcher.captures_explained`).

* `Predicate.eval_total`: every test has an answer.
* `Matcher.evalInto`: the evaluation with one list; `Matcher.bare`: an expression without captures.
* `Matcher.Reading`: three evaluations agree, with one lemma for parts that all have to match and
  one for parts one of which has to.
* `Matcher.agrees`: they agree on every expression, by one lemma for each form.
-/

namespace OffloadFusion

open Program

variable {p : Program} {h : Heuristics} {i j : InstrId} {m : ModuleId} {mode : Mode} {fuel : Nat}

/-! ## Tests have answers -/

namespace Eligible

variable {inst : Instruction}

theorem operandTensor?_total {x : InstrId} (hl : p.Linked) (hi : p.instr? i = some inst)
    (hx : x ∈ inst.inputs) : ∃ t, operandTensor? p x = .ok t := by
  obtain ⟨xinst, hx, -⟩ := hl.operand hi hx
  exact ⟨xinst.tensor?, Outcome.map_ok.mpr ⟨xinst, instr_ok.mpr hx, rfl⟩⟩

theorem dot_total (hl : p.Linked) (anchor : Bool) : ∃ b, dot p i mode anchor h = .ok b := by
  unfold dot
  split
  · exact ⟨false, rfl⟩
  split
  · next hi =>
    split
    · exact ⟨false, rfl⟩
    · exact Outcome.bind_total (Outcome.mapM_total fun x hx => operandTensor?_total hl hi hx)
        fun _ _ => ⟨_, rfl⟩
  · exact ⟨false, rfl⟩

theorem tensorAt?_total (hl : p.Linked) (hi : p.instr? i = some inst) (n : Nat) :
    ∃ t, tensorAt? p inst.inputs n = .ok t := by
  unfold tensorAt?
  split
  · next hx => exact operandTensor?_total hl hi (List.mem_of_getElem? hx)
  · exact ⟨none, rfl⟩

/-- The two spatial axes are those of weights with four axes. -/
theorem convInMode_total (group : Nat) (x w : TensorType) :
    ∃ b, convInMode mode group x w h = .ok b := by
  have haxis : ∀ n < w.rank, ∃ d, Checked.get w.shape n = .ok d := fun n hn =>
    ⟨w.shape[n], Checked.get_ok.mpr (List.getElem?_eq_getElem hn)⟩
  unfold convInMode
  split
  · exact ⟨true, rfl⟩
  split
  · exact ⟨false, rfl⟩
  · exact ⟨false, rfl⟩
  · exact ⟨true, rfl⟩
  · split
    · exact ⟨true, rfl⟩
    next hrank =>
      rw [not_or, not_not] at hrank
      refine Outcome.bind_total (haxis 2 (by omega)) fun height _ => ?_
      refine Outcome.bind_total (haxis 3 (by omega)) fun width _ => ?_
      split
      · exact ⟨true, rfl⟩
      next hdivisor =>
        rw [not_or] at hdivisor
        refine Outcome.bind_total ⟨width % h.kernelDivisor, ?_⟩ fun _ _ => ⟨_, rfl⟩
        rw [Checked.mod, if_neg hdivisor.2]

theorem conv_total (hl : p.Linked) : ∃ b, conv p i mode h = .ok b := by
  unfold conv
  split
  · exact ⟨false, rfl⟩
  split
  · next hi =>
    split
    · exact ⟨false, rfl⟩
    refine Outcome.bind_total (tensorAt?_total hl hi 0) fun x _ => ?_
    refine Outcome.bind_total (tensorAt?_total hl hi 1) fun w _ => ?_
    split
    · exact convInMode_total _ _ _
    · exact ⟨false, rfl⟩
  · exact ⟨false, rfl⟩

theorem bodyOp_total (hl : p.Linked) (producer : Bool) : ∃ b, bodyOp p i h producer = .ok b := by
  unfold bodyOp
  split
  · exact ⟨false, rfl⟩
  next inst hi =>
  split
  · exact ⟨false, rfl⟩
  split
  · exact ⟨false, rfl⟩
  split
  · exact ⟨false, rfl⟩
  split
  · exact ⟨true, rfl⟩
  split
  · exact ⟨true, rfl⟩
  split
  · exact ⟨true, rfl⟩
  split
  · refine Outcome.bind_total (Outcome.allM_total fun x hx => ?_) fun _ _ => ⟨_, rfl⟩
    exact Outcome.bind_total (operandTensor?_total hl hi hx) fun _ _ => ⟨_, rfl⟩
  · exact ⟨false, rfl⟩

theorem pointwise_total (hl : p.Linked) (producer : Bool) :
    ∃ b, pointwise p i h producer = .ok b := by
  unfold pointwise
  split
  · split
    · exact Outcome.allM_total fun j _ => bodyOp_total hl producer
    · exact ⟨false, rfl⟩
  · exact ⟨false, rfl⟩

theorem splitReduceOp_total (hl : p.Linked) (hi : p.instr? i = some inst) :
    ∃ b, splitReduceOp p i h = .ok b := by
  refine Outcome.bind_total ⟨inst, instr_ok.mpr hi⟩ fun inst' _ => ?_
  split
  · exact ⟨_, rfl⟩
  · exact pointwise_total hl false
  · exact ⟨_, rfl⟩
  · exact ⟨_, rfl⟩

theorem splitReduce_total (hl : p.Linked) : ∃ b, splitReduce p i h = .ok b := by
  unfold splitReduce
  split
  · split
    · next module hmodule =>
      refine Outcome.allM_total fun j hj => ?_
      rw [← body_of_module? hmodule] at hj
      obtain ⟨inst, hj, -⟩ := hl.owned hj
      exact splitReduceOp_total hl hj
    · exact ⟨false, rfl⟩
  · exact ⟨false, rfl⟩

end Eligible

/-- **Every test has an answer in a linked program.** -/
theorem Predicate.eval_total (hl : p.Linked) (test : Predicate) : ∃ b, test.eval p h i = .ok b := by
  cases test with
  | dot mode anchor => exact Eligible.dot_total hl anchor
  | conv mode => exact Eligible.conv_total hl
  | pointwise => exact Eligible.pointwise_total hl false
  | inputPointwise => exact Eligible.pointwise_total hl true
  | splitReduce => exact Eligible.splitReduce_total hl
  | usedOnce => exact ⟨_, rfl⟩
  | singleOutputOffload => exact ⟨_, rfl⟩
  | elementType => exact ⟨_, rfl⟩

namespace Matcher

theorem skipFrom_total {along : InstrId → Checked Bool} (hl : p.Linked)
    (halong : ∀ j, ∃ b, along j = .ok b) (hi : i ∈ p.body m) (hfuel : (p.body m).idxOf i < fuel) :
    ∃ j, skipFrom p along fuel i = .ok j := by
  induction fuel generalizing i with
  | zero => omega
  | succ fuel ih =>
    obtain ⟨inst, hinst, -⟩ := hl.owned hi
    rw [skipFrom]
    refine Outcome.bind_total ⟨inst, instr_ok.mpr hinst⟩ fun inst' hinst' => ?_
    split
    · next above hin =>
      refine Outcome.bind_total (halong i) fun follows _ => ?_
      split
      · obtain ⟨hmem, hlt⟩ := hl.idxOf_input_lt (instr_ok.mp hinst') hi
          (hin.symm ▸ List.mem_singleton_self above)
        exact ih hmem (by omega)
      · exact ⟨i, rfl⟩
    · exact ⟨i, rfl⟩

/-! ## One list of captures -/

/-- The list of captures, cut to its former length unless there was a match. -/
def cutBack (length : Nat) (result : Bool × Captures) : Bool × Captures :=
  (result.1, if result.1 then result.2 else result.2.take length)

/-- Hands one list of captures to all parts, up to the first one that does not match. -/
def allInto {α : Type} (f : α → Captures → Checked (Bool × Captures)) :
    List α → Captures → Checked (Bool × Captures)
  | [], captures => return (true, captures)
  | a :: as, captures => do
    match ← f a captures with
    | (true, captures) => allInto f as captures
    | (false, captures) => return (false, captures)

/-- Hands one list of captures to all parts, up to the first one that matches. -/
def anyInto {α : Type} (f : α → Captures → Checked (Bool × Captures)) :
    List α → Captures → Checked (Bool × Captures)
  | [], captures => return (false, captures)
  | a :: as, captures => do
    match ← f a captures with
    | (true, captures) => return (true, captures)
    | (false, captures) => anyInto f as captures

mutual

/-- Evaluates an expression with a single list that all of its parts append to. A part that does not
match cuts the list back to what it was given. -/
def evalInto (p : Program) (h : Heuristics) :
    Matcher → InstrId → Captures → Checked (Bool × Captures)
  | m, i, captures =>
    match p.instr? i with
    | none => return (false, captures)
    | some inst => cutBack captures.length <$>
      match m with
      | any => return (true, captures)
      | named names => return (names.contains inst.name, captures)
      | test predicate => return (← predicate.eval p h i, captures)
      | allOf matchers => evalAllInto p h matchers i captures
      | anyOf matchers => evalAnyInto p h matchers i captures
      | anyInput matcher => anyInto (fun input => evalInto p h matcher input) inst.inputs captures
      | allInputs matcher => allInto (fun input => evalInto p h matcher input) inst.inputs captures
      | skip along target => do
        let walks (j : InstrId) : Checked Bool := Prod.fst <$> evalInto p h along j []
        evalInto p h target (← skipFrom p walks (p.size + 1) i) captures
      | bind name matcher => do
        match ← evalInto p h matcher i captures with
        | (true, captures) => return (true, captures ++ [(name, i)])
        | (false, captures) => return (false, captures)

/-- All expressions match, one after the other. -/
def evalAllInto (p : Program) (h : Heuristics) :
    List Matcher → InstrId → Captures → Checked (Bool × Captures)
  | [], _, captures => return (true, captures)
  | m :: ms, i, captures => do
    match ← evalInto p h m i captures with
    | (true, captures) => evalAllInto p h ms i captures
    | (false, captures) => return (false, captures)

/-- The first expression that matches. -/
def evalAnyInto (p : Program) (h : Heuristics) :
    List Matcher → InstrId → Captures → Checked (Bool × Captures)
  | [], _, captures => return (false, captures)
  | m :: ms, i, captures => do
    match ← evalInto p h m i captures with
    | (true, captures) => return (true, captures)
    | (false, captures) => evalAnyInto p h ms i captures

end

mutual

/-- The expression without its captures. -/
def bare : Matcher → Matcher
  | any => any
  | named names => named names
  | test predicate => test predicate
  | allOf matchers => allOf (bareAll matchers)
  | anyOf matchers => anyOf (bareAll matchers)
  | anyInput matcher => anyInput (bare matcher)
  | allInputs matcher => allInputs (bare matcher)
  | skip along target => skip (bare along) (bare target)
  | bind _ matcher => bare matcher

/-- The expressions without their captures. -/
def bareAll : List Matcher → List Matcher
  | [] => []
  | m :: ms => bare m :: bareAll ms

end

/-- A capture of `inner` under a name is part of an expression, and not of what a skip walks
along. -/
inductive Binds (name : String) (inner : Matcher) : Matcher → Prop
  | here : Binds name inner (bind name inner)
  | allOf {m : Matcher} {ms : List Matcher} : m ∈ ms → Binds name inner m →
    Binds name inner (allOf ms)
  | anyOf {m : Matcher} {ms : List Matcher} : m ∈ ms → Binds name inner m →
    Binds name inner (anyOf ms)
  | anyInput {m : Matcher} : Binds name inner m → Binds name inner (anyInput m)
  | allInputs {m : Matcher} : Binds name inner m → Binds name inner (allInputs m)
  | skip {along target : Matcher} : Binds name inner target →
    Binds name inner (skip along target)
  | bind {outer : String} {m : Matcher} : Binds name inner m → Binds name inner (bind outer m)

/-- The captured instruction matches what the expression captures under its name. -/
def Explains (p : Program) (h : Heuristics) (m : Matcher) (e : String × InstrId) : Prop :=
  ∃ inner found, Binds e.1 inner m ∧ inner.run p h e.2 = .ok (some found)

/-! ## Readings -/

/-- Three evaluations of the same parts: with captures handed on, with one list that parts append
to, and without captures. They agree on whether there is a match; a match adds the same captures
to any others, each of which is explained. -/
structure Reading (P : String × InstrId → Prop) (found : Option Captures)
    (f : Captures → Checked (Option Captures)) (g : Captures → Checked (Bool × Captures))
    (b : Captures → Checked (Option Captures)) : Prop where
  handed : ∀ c, f c = .ok (found.map (c ++ ·))
  /-- Without a match, there may be captures left. -/
  shared : ∀ c, ∃ left, g c = .ok (found.isSome, c ++ left) ∧ ∀ added ∈ found, left = added
  bare : ∀ c, b c = .ok (found.map fun _ => c)
  explained : ∀ added ∈ found, ∀ e ∈ added, P e

/-- With one list, nothing is left without a match. -/
structure ExactReading (P : String × InstrId → Prop) (found : Option Captures)
    (f : Captures → Checked (Option Captures)) (g : Captures → Checked (Bool × Captures))
    (b : Captures → Checked (Option Captures)) : Prop extends Reading P found f g b where
  exact : ∀ c, g c = .ok (found.isSome, c ++ found.getD [])

section

variable {P P' : String × InstrId → Prop} {found : Option Captures}
  {f b : Captures → Checked (Option Captures)} {g : Captures → Checked (Bool × Captures)}

theorem Reading.mono (hr : Reading P found f g b) (hsub : ∀ e, P e → P' e) :
    Reading P' found f g b :=
  ⟨hr.handed, hr.shared, hr.bare, fun added hadded e he => hsub e (hr.explained added hadded e he)⟩

theorem exists_reading_of_bool (passes : Bool) :
    ∃ found, Reading P found (fun c => .ok (if passes then some c else none))
      (fun c => .ok (passes, c)) (fun c => .ok (if passes then some c else none)) := by
  cases passes with
  | true => exact ⟨some [], by simp, fun c => ⟨[], by simp, by simp⟩, by simp, by simp⟩
  | false => exact ⟨none, by simp, fun c => ⟨[], by simp, nofun⟩, by simp, nofun⟩

theorem Reading.cutBack (hr : Reading P found f g b) :
    ExactReading P found f (fun c => cutBack c.length <$> g c) b := by
  have hexact : ∀ c, Matcher.cutBack c.length <$> g c = .ok (found.isSome, c ++ found.getD []) := by
    intro c
    obtain ⟨left, hg, hleft⟩ := hr.shared c
    rw [hg]
    cases found with
    | none => exact congrArg (fun l => Except.ok (false, l)) (by simp)
    | some added =>
      rw [hleft added rfl]
      rfl
  refine ⟨⟨hr.handed, fun c => ⟨_, hexact c, ?_⟩, hr.bare, hr.explained⟩, hexact⟩
  rintro added rfl
  rfl

end

variable {α : Type} {P : String × InstrId → Prop} {as : List α}
  {f b : α → Captures → Checked (Option Captures)} {g : α → Captures → Checked (Bool × Captures)}

theorem exists_reading_through
    (has : ∀ a ∈ as, ∃ found, ExactReading P found (f a) (g a) (b a)) :
    ∃ found, Reading P found (through f as) (allInto g as) (through b as) := by
  induction as with
  | nil => exact ⟨some [], by simp [through], by simp [allInto], by simp [through], by simp⟩
  | cons a as ih =>
    obtain ⟨⟨found, ha⟩, has⟩ := List.forall_mem_cons.mp has
    cases found with
    | none =>
      refine ⟨none, fun c => ?_, fun c => ⟨[], ?_, nofun⟩, fun c => ?_, nofun⟩
      · rw [through, ha.handed]
        rfl
      · rw [allInto, ha.exact]
        rfl
      · rw [through, ha.bare]
        rfl
    | some added =>
      obtain ⟨rest, hrest⟩ := ih has
      refine ⟨rest.map (added ++ ·), fun c => ?_, fun c => ?_, fun c => ?_, ?_⟩
      · rw [through, ha.handed]
        refine (hrest.handed (c ++ added)).trans ?_
        rw [Option.map_map]
        simp [Function.comp_def]
      · obtain ⟨left, hshared, hleft⟩ := hrest.shared (c ++ added)
        refine ⟨added ++ left, ?_, ?_⟩
        · rw [allInto, ha.exact]
          refine hshared.trans ?_
          simp
        · intro all hall
          obtain ⟨more, hmore, rfl⟩ := Option.map_eq_some_iff.mp hall
          rw [hleft more hmore]
      · rw [through, ha.bare]
        refine (hrest.bare c).trans ?_
        rw [Option.map_map]
        rfl
      · intro all hall e he
        obtain ⟨more, hmore, rfl⟩ := Option.map_eq_some_iff.mp hall
        obtain he | he := List.mem_append.mp he
        · exact ha.explained added rfl e he
        · exact hrest.explained more hmore e he

theorem exists_reading_firstOf
    (has : ∀ a ∈ as, ∃ found, ExactReading P found (f a) (g a) (b a)) :
    ∃ found, Reading P found (fun c => firstOf (fun a => f a c) as) (anyInto g as)
      (fun c => firstOf (fun a => b a c) as) := by
  induction as with
  | nil => exact ⟨none, by simp [firstOf], fun c => ⟨[], by simp [anyInto], nofun⟩,
      by simp [firstOf], nofun⟩
  | cons a as ih =>
    obtain ⟨⟨found, ha⟩, has⟩ := List.forall_mem_cons.mp has
    cases found with
    | none =>
      obtain ⟨rest, hrest⟩ := ih has
      refine ⟨rest, fun c => ?_, fun c => ?_, fun c => ?_, hrest.explained⟩
      · rw [firstOf, ha.handed]
        exact hrest.handed c
      · obtain ⟨left, hshared, hleft⟩ := hrest.shared c
        refine ⟨left, ?_, hleft⟩
        rw [anyInto, ha.exact, Option.getD_none, List.append_nil]
        exact hshared
      · rw [firstOf, ha.bare]
        exact hrest.bare c
    | some added =>
      refine ⟨some added, fun c => ?_, fun c => ⟨added, ?_, ?_⟩, fun c => ?_, ha.explained⟩
      · rw [firstOf, ha.handed]
        rfl
      · rw [anyInto, ha.exact]
        rfl
      · rintro _ ⟨⟩
        rfl
      · rw [firstOf, ha.bare]
        rfl

/-! ## One reading for each form -/

/-- Handing captures on, sharing one list and leaving captures out agree on an expression. -/
def Agrees (p : Program) (h : Heuristics) (m : Matcher) (i : InstrId) : Prop :=
  ∃ found, ExactReading (Explains p h m) found (eval p h m i) (evalInto p h m i)
    (eval p h m.bare i)

theorem evalAll_eq (ms : List Matcher) :
    evalAll p h ms i = through (fun m => eval p h m i) ms := by
  induction ms with
  | nil => rfl
  | cons m ms ih => funext c; rw [evalAll, through, ih]

theorem evalAny_eq (ms : List Matcher) (c : Captures) :
    evalAny p h ms i c = firstOf (fun m => eval p h m i c) ms := by
  induction ms with
  | nil => rfl
  | cons m ms ih =>
    rw [evalAny, firstOf, ih]
    exact congrArg (eval p h m i c >>= ·) (funext fun found => by cases found <;> rfl)

theorem evalAll_bareAll (ms : List Matcher) :
    evalAll p h (bareAll ms) i = through (fun m => eval p h m.bare i) ms := by
  induction ms with
  | nil => rfl
  | cons m ms ih => funext c; rw [bareAll, evalAll, through, ih]

theorem evalAny_bareAll (ms : List Matcher) (c : Captures) :
    evalAny p h (bareAll ms) i c = firstOf (fun m => eval p h m.bare i c) ms := by
  induction ms with
  | nil => rfl
  | cons m ms ih =>
    rw [bareAll, evalAny, firstOf, ih]
    exact congrArg (eval p h m.bare i c >>= ·) (funext fun found => by cases found <;> rfl)

theorem evalAllInto_eq (ms : List Matcher) :
    evalAllInto p h ms i = allInto (fun m => evalInto p h m i) ms := by
  induction ms with
  | nil => rfl
  | cons m ms ih => funext c; rw [evalAllInto, allInto, ih]

theorem evalAnyInto_eq (ms : List Matcher) :
    evalAnyInto p h ms i = anyInto (fun m => evalInto p h m i) ms := by
  induction ms with
  | nil => rfl
  | cons m ms ih => funext c; rw [evalAnyInto, anyInto, ih]

variable {inst : Instruction} {ms : List Matcher} {m along target : Matcher}

theorem agrees_of_dead (hi : p.instr? i = none) : Agrees p h m i := by
  have hnone : ∀ (m : Matcher) c, eval p h m i c = .ok none := fun m c => by rw [eval, hi]; rfl
  have hinto : ∀ c, evalInto p h m i c = .ok (false, c) := fun c => by rw [evalInto, hi]; rfl
  refine ⟨none, ⟨hnone m, fun c => ⟨[], ?_, fun added hadded => ?_⟩, hnone m.bare,
    fun added hadded => ?_⟩, fun c => ?_⟩
  · rw [hinto, List.append_nil]
    rfl
  · exact absurd hadded (Option.not_mem_none added)
  · exact absurd hadded (Option.not_mem_none added)
  · rw [hinto, Option.getD_none, List.append_nil]
    rfl

theorem agrees_of_reading {found : Option Captures} {f b : Captures → Checked (Option Captures)}
    {g : Captures → Checked (Bool × Captures)} (hr : Reading (Explains p h m) found f g b)
    (hf : ∀ c, eval p h m i c = f c) (hg : ∀ c, evalInto p h m i c = cutBack c.length <$> g c)
    (hb : ∀ c, eval p h m.bare i c = b c) : Agrees p h m i := by
  obtain rfl := funext hf
  obtain rfl := funext hb
  refine ⟨found, ?_⟩
  rw [funext hg]
  exact hr.cutBack

theorem Agrees.within (hm : Agrees p h m i) (whole : Matcher)
    (hsub : ∀ {name inner}, Binds name inner m → Binds name inner whole) :
    ∃ found, ExactReading (Explains p h whole) found (eval p h m i) (evalInto p h m i)
      (eval p h m.bare i) := by
  obtain ⟨found, hr⟩ := hm
  exact ⟨found, hr.toReading.mono fun _ ⟨inner, match', hbinds, hrun⟩ =>
    ⟨inner, match', hsub hbinds, hrun⟩, hr.exact⟩

theorem agrees_allOf (hi : p.instr? i = some inst) (hms : ∀ m ∈ ms, Agrees p h m i) :
    Agrees p h (.allOf ms) i := by
  obtain ⟨found, hr⟩ := exists_reading_through fun m hm => (hms m hm).within (.allOf ms) (.allOf hm)
  refine agrees_of_reading hr (fun c => ?_) (fun c => ?_) fun c => ?_
  · rw [eval, hi, ← evalAll_eq]
  · rw [evalInto, hi, ← evalAllInto_eq]
  · rw [bare, eval, hi, ← evalAll_bareAll]

theorem agrees_anyOf (hi : p.instr? i = some inst) (hms : ∀ m ∈ ms, Agrees p h m i) :
    Agrees p h (.anyOf ms) i := by
  obtain ⟨found, hr⟩ := exists_reading_firstOf fun m hm => (hms m hm).within (.anyOf ms) (.anyOf hm)
  refine agrees_of_reading hr (fun c => ?_) (fun c => ?_) fun c => ?_
  · rw [eval, hi, ← evalAny_eq]
  · rw [evalInto, hi, ← evalAnyInto_eq]
  · rw [bare, eval, hi, ← evalAny_bareAll]

theorem agrees_anyInput (hi : p.instr? i = some inst) (hm : ∀ x, Agrees p h m x) :
    Agrees p h (.anyInput m) i := by
  obtain ⟨found, hr⟩ := exists_reading_firstOf fun x (_ : x ∈ inst.inputs) =>
    (hm x).within (.anyInput m) .anyInput
  refine agrees_of_reading hr (fun c => ?_) (fun c => ?_) fun c => ?_
  · rw [eval, hi]
  · rw [evalInto, hi]
  · rw [bare, eval, hi]

theorem agrees_allInputs (hi : p.instr? i = some inst) (hm : ∀ x, Agrees p h m x) :
    Agrees p h (.allInputs m) i := by
  obtain ⟨found, hr⟩ := exists_reading_through fun x (_ : x ∈ inst.inputs) =>
    (hm x).within (.allInputs m) .allInputs
  refine agrees_of_reading hr (fun c => ?_) (fun c => ?_) fun c => ?_
  · rw [eval, hi]
  · rw [evalInto, hi]
  · rw [bare, eval, hi]

/-- What a skip walks along is evaluated with captures of its own, so all three walks are one. -/
theorem agrees_skip (hl : p.Linked) (hi : p.instr? i = some inst)
    (halong : ∀ j, Agrees p h along j) (htarget : ∀ j, Agrees p h target j) :
    Agrees p h (.skip along target) i := by
  have hpasses : ∀ j, ∃ b, (Option.isSome <$> eval p h along j []) = .ok b ∧
      (Prod.fst <$> evalInto p h along j []) = .ok b ∧
      (Option.isSome <$> eval p h along.bare j []) = .ok b := by
    intro j
    obtain ⟨found, hr⟩ := halong j
    refine ⟨found.isSome, ?_, ?_, ?_⟩
    · rw [hr.handed]
      cases found <;> rfl
    · rw [hr.exact]
      rfl
    · rw [hr.bare]
      cases found <;> rfl
  have hinto : (fun j => Prod.fst <$> evalInto p h along j []) =
      fun j => Option.isSome <$> eval p h along j [] := funext fun j => by
    obtain ⟨b, hf, hg, -⟩ := hpasses j
    rw [hf, hg]
  have hbare : (fun j => Option.isSome <$> eval p h along.bare j []) =
      fun j => Option.isSome <$> eval p h along j [] := funext fun j => by
    obtain ⟨b, hf, -, hb⟩ := hpasses j
    rw [hf, hb]
  have hmem := hl.listed hi
  have hlt := List.idxOf_lt_length_of_mem hmem
  have hle := hl.length_body_le inst.owner
  have hfuel : (p.body inst.owner).idxOf i < p.size + 1 := by omega
  obtain ⟨j, hj⟩ := skipFrom_total hl (fun j => (hpasses j).imp fun _ hb => hb.1) hmem hfuel
  obtain ⟨found, hr⟩ := (htarget j).within (.skip along target) .skip
  refine agrees_of_reading hr.toReading (fun c => ?_) (fun c => ?_) fun c => ?_
  · rw [eval, hi]
    dsimp only
    rw [hj]
    rfl
  · rw [evalInto, hi]
    dsimp only
    rw [hinto, hj]
    rfl
  · rw [bare, eval, hi]
    dsimp only
    rw [hbare, hj]
    rfl

theorem agrees_bind {name : String} (hi : p.instr? i = some inst) (hm : Agrees p h m i) :
    Agrees p h (.bind name m) i := by
  obtain ⟨found, hr⟩ := hm
  have hr' : Reading (Explains p h (.bind name m)) (found.map (· ++ [(name, i)]))
      (eval p h (.bind name m) i)
      (fun c => .ok (found.isSome, c ++ (found.map (· ++ [(name, i)])).getD []))
      (eval p h m.bare i) := by
    refine ⟨fun c => ?_, fun c => ⟨_, by rw [Option.isSome_map], ?_⟩, fun c => ?_, ?_⟩
    · rw [eval, hi]
      dsimp only
      rw [hr.handed]
      cases found with
      | none => rfl
      | some added => exact congrArg (fun l => Except.ok (some l)) (List.append_assoc ..)
    · intro added hadded
      rw [hadded]
      rfl
    · rw [hr.bare]
      cases found <;> rfl
    · intro all hall e he
      obtain ⟨added, rfl, rfl⟩ := Option.map_eq_some_iff.mp hall
      obtain he | he := List.mem_append.mp he
      · obtain ⟨inner, match', hbinds, hrun⟩ := hr.explained added rfl e he
        exact ⟨inner, match', .bind hbinds, hrun⟩
      · obtain rfl := List.mem_singleton.mp he
        refine ⟨m, ⟨i, added⟩, .here, ?_⟩
        rw [run, hr.handed]
        rfl
  refine agrees_of_reading hr' (fun c => rfl) (fun c => ?_) fun c => by rw [bare]
  rw [evalInto, hi]
  dsimp only
  rw [hr.exact]
  cases found with
  | none => rfl
  | some added => exact congrArg (fun l => Except.ok (true, l)) (by simp)

mutual

/-- **In a linked program, the three evaluations of an expression agree.** -/
theorem agrees (hl : p.Linked) (h : Heuristics) : (m : Matcher) → (i : InstrId) → Agrees p h m i
  | m, i => by
    cases hi : p.instr? i with
    | none => exact agrees_of_dead hi
    | some inst =>
      cases m with
      | any =>
        obtain ⟨found, hr⟩ := exists_reading_of_bool (P := Explains p h .any) true
        exact agrees_of_reading hr (fun c => by rw [eval, hi]; rfl)
          (fun c => by rw [evalInto, hi]; rfl) fun c => by rw [bare, eval, hi]; rfl
      | named names =>
        obtain ⟨found, hr⟩ := exists_reading_of_bool (P := Explains p h (.named names))
          (names.contains inst.name)
        exact agrees_of_reading hr (fun c => by rw [eval, hi]; rfl)
          (fun c => by rw [evalInto, hi]; rfl) fun c => by rw [bare, eval, hi]; rfl
      | test predicate =>
        obtain ⟨passes, hpasses⟩ := Predicate.eval_total (h := h) (i := i) hl predicate
        obtain ⟨found, hr⟩ := exists_reading_of_bool (P := Explains p h (.test predicate)) passes
        refine agrees_of_reading hr (fun c => ?_) (fun c => ?_) fun c => ?_
        · rw [eval, hi]
          dsimp only
          rw [hpasses]
          rfl
        · rw [evalInto, hi]
          dsimp only
          rw [hpasses]
          rfl
        · rw [bare, eval, hi]
          dsimp only
          rw [hpasses]
          rfl
      | allOf ms => exact agrees_allOf hi fun m hm => agreesAll hl h ms m hm i
      | anyOf ms => exact agrees_anyOf hi fun m hm => agreesAll hl h ms m hm i
      | anyInput m => exact agrees_anyInput hi (agrees hl h m)
      | allInputs m => exact agrees_allInputs hi (agrees hl h m)
      | skip along target => exact agrees_skip hl hi (agrees hl h along) (agrees hl h target)
      | bind name m => exact agrees_bind hi (agrees hl h m i)

theorem agreesAll (hl : p.Linked) (h : Heuristics) : (ms : List Matcher) → ∀ m ∈ ms,
    ∀ i, Agrees p h m i
  | [] => nofun
  | m :: ms => List.forall_mem_cons.mpr ⟨agrees hl h m, agreesAll hl h ms⟩

end

/-! ## No stray captures -/

/-- **A matcher leaves no stray capture.** In a verified program, an expression has an answer at
every instruction, whatever was captured before: the one that it has without its captures. Without a
match the list of captures is as it was. With a match, captures were appended to it, and each of
them is one that the expression makes, of an instruction that matches there. -/
theorem captures_explained (hverify : p.verify = .ok ()) (h : Heuristics) (m : Matcher)
    (i : InstrId) (c : Captures) :
    ∃ matched after, evalInto p h m i c = .ok (matched, after) ∧
      eval p h m i c = .ok (if matched then some after else none) ∧
      evalInto p h m.bare i c = .ok (matched, c) ∧
      (matched = false → after = c) ∧
      (matched = true → ∃ added, after = c ++ added ∧ ∀ e ∈ added, ∃ inner found,
        Binds e.1 inner m ∧ inner.run p h e.2 = .ok (some found)) := by
  have hl := (verify_ok.mp hverify).toLinked
  obtain ⟨found, hr⟩ := agrees hl h m i
  obtain ⟨blank, hbare⟩ := agrees hl h m.bare i
  -- without captures, nothing is added
  have hsame : blank.map (c ++ ·) = found.map fun _ => c :=
    Except.ok.inj ((hbare.handed c).symm.trans (hr.bare c))
  refine ⟨_, _, hr.exact c, ?_, ?_, ?_, ?_⟩
  · rw [hr.handed]
    cases found <;> rfl
  · rw [hbare.exact]
    cases found with
    | none =>
      rw [Option.map_none, Option.map_eq_none_iff] at hsame
      subst hsame
      simp
    | some added =>
      rw [Option.map_some, Option.map_eq_some_iff] at hsame
      obtain ⟨more, rfl, hmore⟩ := hsame
      simp [hmore]
  · intro hnone
    rw [Option.isSome_eq_false_iff, Option.isNone_iff_eq_none] at hnone
    simp [hnone]
  · intro hsome
    obtain ⟨added, rfl⟩ := Option.isSome_iff_exists.mp hsome
    exact ⟨added, rfl, hr.explained added rfl⟩

/-- A dot behind two views. -/
def viewed : Program :=
  (do
    let a ← Edit.addParameter main "a" ⟨.f32, [4, 8], [8, 1]⟩
    let b ← Edit.addParameter main "b" ⟨.f32, [8, 4], [4, 1]⟩
    let product ← Edit.addInstruction main (.dot false) [a, b] []
    let copy ← Edit.addInstruction main (.reindex .contiguous) [product] []
    let flat ← Edit.addInstruction main (.reindex (.reshape [16])) [copy] []
    let _ ← Edit.addInstruction main (.unary .relu) [flat] [] : Edit Unit).after .empty

/-- An alternative that captures before it fails, and one that captures when it has matched. -/
def alternatives : Matcher :=
  .anyOf [(Matcher.anyInput (.bind "wrong" .any)).and (.named ["relu"]),
    .bind "right" (.named ["contiguous"])]

/-- What the first alternative captured is gone, and what was there before stays. -/
theorem captures_explained_alternatives : viewed.verify = .ok () ∧
    evalInto viewed .default alternatives ⟨3⟩ [("old", ⟨0⟩)] =
      .ok (true, [("old", ⟨0⟩), ("right", ⟨3⟩)]) ∧
    evalInto viewed .default alternatives.bare ⟨3⟩ [("old", ⟨0⟩)] = .ok (true, [("old", ⟨0⟩)]) ∧
    (∃ inner found, Binds "right" inner alternatives ∧
      inner.run viewed .default ⟨3⟩ = .ok (some found)) ∧
    evalInto viewed .default alternatives ⟨2⟩ [("old", ⟨0⟩)] = .ok (false, [("old", ⟨0⟩)]) := by
  have hverify : viewed.verify = .ok () := by decide +kernel
  have hat : evalInto viewed .default alternatives ⟨3⟩ [("old", ⟨0⟩)] =
      .ok (true, [("old", ⟨0⟩), ("right", ⟨3⟩)]) := by decide +kernel
  have hdot : evalInto viewed .default alternatives ⟨2⟩ [("old", ⟨0⟩)] =
      .ok (false, [("old", ⟨0⟩)]) := by decide +kernel
  obtain ⟨matched, after, heval, -, hbare, -, hyes⟩ :=
    captures_explained hverify .default alternatives ⟨3⟩ [("old", ⟨0⟩)]
  obtain ⟨rfl, rfl⟩ := Prod.mk.inj (Except.ok.inj (heval.symm.trans hat))
  obtain ⟨added, hadded, hexplained⟩ := hyes rfl
  obtain rfl : [("right", ⟨3⟩)] = added := List.cons.inj hadded |>.2
  exact ⟨hverify, hat, hbare, hexplained _ List.mem_cons_self, hdot⟩

end Matcher

end OffloadFusion
