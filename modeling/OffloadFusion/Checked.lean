/-!
# Checked arithmetic

Sizes are 64-bit unsigned and strides 64-bit signed. Numbers are kept as `Nat` and `Int`, and each
operation checks that its result is in range.

* `Fault`: why a computation has no answer at all.
* `Checked`: a computation that may fault.
* `Failure`: a refusal with a reason, or a fault.
-/

namespace OffloadFusion

/-- Why a computation has no answer at all, as opposed to a refusal with a reason. -/
inductive Fault where
  /-- A size or stride left its 64-bit range. -/
  | overflow
  /-- A list was read or edited beyond its end. -/
  | outOfRange
  /-- A number was divided by zero. -/
  | divisionByZero
  /-- A handle whose instruction or module is gone was followed. -/
  | deadHandle
  /-- An iteration went past its bound. -/
  | exhausted
deriving DecidableEq, Repr

/-- A computation that may fault. -/
abbrev Checked := Except Fault

/-- Why an operation did not go through: it was refused for a reason, or it faulted. -/
inductive Failure (ε : Type) where
  | refused (reason : ε)
  | fault (fault : Fault)
deriving DecidableEq, Repr

/-- Changes the reason of a refusal. -/
def Failure.map {ε δ : Type} (f : ε → δ) : Failure ε → Failure δ
  | refused reason => refused (f reason)
  | fault e => fault e

/-- A pure computation that may be refused or fault. -/
abbrev Outcome (ε α : Type) := Except (Failure ε) α

/-- Refuses for a reason. -/
def refuse {ε α : Type} (reason : ε) : Outcome ε α := .error (.refused reason)

instance {ε : Type} : MonadLift Checked (Except (Failure ε)) where
  monadLift := Except.mapError .fault

/-- A computation on a state that may be refused or fault. Edits made before that stay. -/
abbrev Action (σ ε : Type) := EStateM (Failure ε) σ

instance {σ ε : Type} : MonadLift (Except (Failure ε)) (EStateM (Failure ε) σ) where
  monadLift
    | .ok a => pure a
    | .error e => throw e

namespace Action

variable {σ τ ε δ α : Type}

/-- Stops with a reason. -/
def refuse (reason : ε) : Action σ ε α := throw (.refused reason)

/-- Runs an action on one part of a larger state, renaming its reasons. -/
def focus (get : τ → σ) (set : σ → τ → τ) (rename : ε → δ) (action : Action σ ε α) :
    Action τ δ α := fun t =>
  match action (get t) with
  | .ok a s => .ok a (set s t)
  | .error e s => .error (e.map rename) (set s t)

end Action

namespace Checked

/-- The number of sizes. -/
def sizeLimit : Nat := 0x10000000000000000

/-- The number of strides from zero on. -/
def strideLimit : Int := 0x8000000000000000

/-- A number as a size. -/
def size (n : Nat) : Checked Nat := if n < sizeLimit then .ok n else .error .overflow

def add (a b : Nat) : Checked Nat := size (a + b)

def sub (a b : Nat) : Checked Nat := if b ≤ a then .ok (a - b) else .error .overflow

def mul (a b : Nat) : Checked Nat := size (a * b)

def div (a b : Nat) : Checked Nat := if b = 0 then .error .divisionByZero else .ok (a / b)

def mod (a b : Nat) : Checked Nat := if b = 0 then .error .divisionByZero else .ok (a % b)

/-- A number as a stride. -/
def stride (i : Int) : Checked Int :=
  if -strideLimit ≤ i ∧ i < strideLimit then .ok i else .error .overflow

/-- A size read as a stride: the upper half of the sizes stands for the negative strides. -/
def signed (n : Nat) : Int := Int.bmod n sizeLimit

/-- The product, from the left. -/
def product (ns : List Nat) : Checked Nat := ns.foldlM mul 1

/-- The sum, from the left. -/
def sum (ns : List Nat) : Checked Nat := ns.foldlM add 0

variable {α : Type}

/-- The element at a position. -/
def get (xs : List α) (i : Nat) : Checked α :=
  match xs[i]? with
  | some a => .ok a
  | none => .error .outOfRange

/-- The list with the element at a position replaced. -/
def set (xs : List α) (i : Nat) (a : α) : Checked (List α) :=
  if i < xs.length then .ok (xs.set i a) else .error .outOfRange

/-- The list with an element put before a position, which may be the end. -/
def insert (xs : List α) (i : Nat) (a : α) : Checked (List α) :=
  if i ≤ xs.length then .ok (xs.insertIdx i a) else .error .outOfRange

/-- The list without the element at a position. -/
def erase (xs : List α) (i : Nat) : Checked (List α) :=
  if i < xs.length then .ok (xs.eraseIdx i) else .error .outOfRange

end Checked

end OffloadFusion
