import OffloadFusion.Policy.Eligible

/-!
# Matching instructions

A `Matcher` is an expression over an instruction and what lies above it. `Matcher.run` evaluates it
at a root; on success it gives the root and the instructions that `bind` captured, in order.
-/

namespace OffloadFusion

/-- Eligibility tests inside a matcher. -/
inductive Predicate where
  | dot (mode : Mode) (anchor : Bool)
  | conv (mode : Mode)
  | pointwise
  /-- A pointwise that may feed an offload call. -/
  | inputPointwise
  | splitReduce
  | usedOnce
  /-- An offload call with one tensor as its value. -/
  | singleOutputOffload
  /-- A tensor with one of these element types. -/
  | elementType (dtypes : List DType)
deriving DecidableEq, Repr

/-- Whether an instruction passes a test. -/
def Predicate.eval (p : Program) (h : Heuristics) (i : InstrId) : Predicate → Checked Bool
  | dot mode anchor => Eligible.dot p i mode anchor h
  | conv mode => Eligible.conv p i mode h
  | pointwise => Eligible.pointwise p i h false
  | inputPointwise => Eligible.pointwise p i h true
  | splitReduce => Eligible.splitReduce p i h
  | usedOnce => return (p.instr? i).any fun inst => inst.consumers.length = 1
  | singleOutputOffload =>
    return (p.instr? i).any fun inst => inst.op.isOffload && inst.tensor?.isSome
  | elementType dtypes =>
    return ((p.instr? i).bind Instruction.tensor?).any fun t => dtypes.contains t.dtype

/-- An expression over an instruction and what lies above it. -/
inductive Matcher where
  | any
  /-- The operation has one of these names. -/
  | named (names : List String)
  | test (predicate : Predicate)
  | allOf (matchers : List Matcher)
  | anyOf (matchers : List Matcher)
  /-- Some operand matches; the first one counts. -/
  | anyInput (matcher : Matcher)
  | allInputs (matcher : Matcher)
  /-- Walks up through instructions with one operand that match `along`, then tests `target` where
  the walk ends. -/
  | skip (along target : Matcher)
  /-- Captures the instruction under a name. -/
  | bind (name : String) (matcher : Matcher)

/-- Captured instructions in the order of their capture. -/
abbrev Captures := List (String × InstrId)

/-- A root that matches, with its captures. -/
structure Match where
  root : InstrId
  captures : Captures
deriving DecidableEq, Repr

/-- The latest capture under a name. -/
def Match.get? (m : Match) (name : String) : Option InstrId :=
  (m.captures.reverse.find? fun (n, _) => n = name).map Prod.snd

namespace Matcher

/-- Both expressions; a conjunction on the left takes the other one as its last part. -/
def and : Matcher → Matcher → Matcher
  | allOf matchers, other => allOf (matchers ++ [other])
  | m, other => allOf [m, other]

/-- Follows the single operand as long as the instruction passes `along`. -/
def skipFrom (p : Program) (along : InstrId → Checked Bool) : Nat → InstrId → Checked InstrId
  | 0, _ => .error .exhausted
  | fuel + 1, i => do
    match (← p.instr i).inputs with
    | [above] => if ← along i then skipFrom p along fuel above else return i
    | _ => return i

/-- The first result on a list that is there. -/
def firstOf {α β : Type} (f : α → Checked (Option β)) : List α → Checked (Option β)
  | [] => return none
  | a :: as => do
    match ← f a with
    | some b => return some b
    | none => firstOf f as

/-- Hands captures through all elements of a list, as long as they match. -/
def through {α : Type} (f : α → Captures → Checked (Option Captures)) :
    List α → Captures → Checked (Option Captures)
  | [], captures => return some captures
  | a :: as, captures => do
    match ← f a captures with
    | some captures => through f as captures
    | none => return none

mutual

/-- Evaluates an expression at an instruction. A match adds to the captures made before; a dead
instruction matches nothing. -/
def eval (p : Program) (h : Heuristics) :
    Matcher → InstrId → Captures → Checked (Option Captures)
  | m, i, captures =>
    match p.instr? i with
    | none => return none
    | some inst =>
      match m with
      | any => return some captures
      | named names => return if names.contains inst.name then some captures else none
      | test predicate => do
        return if ← predicate.eval p h i then some captures else none
      | allOf matchers => evalAll p h matchers i captures
      | anyOf matchers => evalAny p h matchers i captures
      | anyInput matcher => firstOf (fun input => eval p h matcher input captures) inst.inputs
      | allInputs matcher => through (fun input => eval p h matcher input) inst.inputs captures
      | skip along target => do
        let walks (j : InstrId) : Checked Bool := Option.isSome <$> eval p h along j []
        eval p h target (← skipFrom p walks (p.size + 1) i) captures
      | bind name matcher => do
        return (← eval p h matcher i captures).map (· ++ [(name, i)])

/-- All expressions match, one after the other. -/
def evalAll (p : Program) (h : Heuristics) :
    List Matcher → InstrId → Captures → Checked (Option Captures)
  | [], _, captures => return some captures
  | m :: ms, i, captures => do
    match ← eval p h m i captures with
    | some captures => evalAll p h ms i captures
    | none => return none

/-- The first expression that matches. -/
def evalAny (p : Program) (h : Heuristics) :
    List Matcher → InstrId → Captures → Checked (Option Captures)
  | [], _, _ => return none
  | m :: ms, i, captures => do
    match ← eval p h m i captures with
    | some captures => return some captures
    | none => evalAny p h ms i captures

end

/-- Evaluates an expression at a root. -/
def run (m : Matcher) (p : Program) (h : Heuristics) (root : InstrId) : Checked (Option Match) := do
  return (← m.eval p h root []).map (⟨root, ·⟩)

end Matcher

end OffloadFusion
