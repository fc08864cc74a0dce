import OffloadFusion.Checked
import OffloadFusion.Policy.Mode
import OffloadFusion.Text.Blank
import OffloadFusion.Text.Quoted

/-!
# Configuration

* `SpecificOps`: the list of options asked for and ruled out, such as `fused,attention,!dot`.
* `Config`: the settings of the pass. `Config.ofEnvironment` reads them from variables.
* `Config.mode`: the mode of one option.
-/

namespace OffloadFusion

/-! ## Lists of options -/

/-- The options asked for and those ruled out. -/
structure SpecificOps where
  requested : List String
  rejected : List String
deriving DecidableEq, Repr

namespace SpecificOps

def empty : SpecificOps := ⟨[], []⟩

/-- The parts of a text between commas. -/
def splitCommas : List Char → List (List Char)
  | [] => [[]]
  | ',' :: cs => [] :: splitCommas cs
  | c :: cs =>
    match splitCommas cs with
    | part :: parts => (c :: part) :: parts
    | [] => [[c]]

/-- Adds an entry; a leading `!` or `~` marks one that is ruled out. -/
def add (ops : SpecificOps) : List Char → SpecificOps
  | [] => ops
  | '!' :: cs | '~' :: cs => { ops with rejected := ops.rejected ++ [String.ofList cs] }
  | cs => { ops with requested := ops.requested ++ [String.ofList cs] }

/-- Reads a list of entries between commas; blanks around them and empty entries do not count. -/
def parse (list : String) : SpecificOps :=
  ((splitCommas list.toList).map Text.trimList).foldl add empty

/-- Whether `part` stands somewhere in a text. -/
def occursIn (part : List Char) : List Char → Bool
  | [] => part.isEmpty
  | c :: cs => part.isPrefixOf (c :: cs) || occursIn part cs

/-- The entry that stands for every option whose name contains it. -/
def umbrella : String := "fused"

/-- Whether a list names an option, by itself or by the umbrella entry. -/
def covers (list : List String) (option : String) : Bool :=
  occursIn umbrella.toList option.toList && list.contains umbrella || list.contains option

def requests (ops : SpecificOps) (option : String) : Bool := covers ops.requested option

def rejects (ops : SpecificOps) (option : String) : Bool := covers ops.rejected option

end SpecificOps

/-! ## Settings -/

/-- The settings of the pass. -/
structure Config where
  disabled : Bool
  attention : Bool
  reduceFusion : Bool
  inputFusion : Bool
  specificOps : SpecificOps
  deviceName : String
  heuristics : Heuristics
deriving DecidableEq, Repr

/-- Why a number does not read. -/
inductive NumberError where
  | empty
  | invalidDigit
  | tooLarge
deriving DecidableEq, Repr

def NumberError.message : NumberError → String
  | empty => "cannot parse integer from empty string"
  | invalidDigit => "invalid digit found in string"
  | tooLarge => "number too large to fit in target type"

/-- A variable whose value does not read as a number. -/
structure ConfigError where
  setting : String
  value : String
  cause : NumberError
deriving DecidableEq, Repr

def ConfigError.message (e : ConfigError) : String :=
  e.setting ++ "=" ++ Text.quote e.value ++ " is not a number: " ++ e.cause.message

/-- Reads decimal digits as a size, after the number `n`. The first digit that is wrong or makes the
number too large counts. -/
def parseDigits (n : Nat) : List Char → Except NumberError Nat
  | [] => .ok n
  | c :: cs =>
    if !c.isDigit then .error .invalidDigit
    else
      let n := n * 10 + (c.toNat - '0'.toNat)
      if n < Checked.sizeLimit then parseDigits n cs else .error .tooLarge

/-- Reads a size in decimal digits after an optional plus sign. -/
def parseSize : List Char → Except NumberError Nat
  | [] => .error .empty
  | ['+'] => .error .invalidDigit
  | '+' :: cs => parseDigits 0 cs
  | cs => parseDigits 0 cs

/-- Whether a value switches an option on. -/
def parseFlag (value : String) : Bool :=
  ["1", "true", "on", "yes", "enable", "enabled"].contains
    (String.ofList ((Text.trimList value.toList).map Char.toLower))

namespace Config

/-- The settings without any variable. -/
def default : Config :=
  { disabled := false, attention := false, reduceFusion := false, inputFusion := false,
    specificOps := .empty, deviceName := "", heuristics := .default }

def disableVariable : String := "PISTON_OFFLOAD_DISABLE"

def opsVariable : String := "PISTON_OFFLOAD_OPS"

def reduceVariable : String := "PISTON_OFFLOAD_REDUCE_FUSION"

def inputVariable : String := "PISTON_OFFLOAD_INPUT_FUSION"

def thresholdVariable : String := "PISTON_OFFLOAD_DOT_K_THRESHOLD"

/-- Reads the contraction limit; blanks around the number do not count. -/
def parseThreshold (value : String) : Except ConfigError Nat :=
  (parseSize (Text.trimList value.toList)).mapError fun cause =>
    { setting := thresholdVariable, value, cause }

/-- Reads the settings from variables. -/
def ofEnvironment (lookup : String → Option String) : Except ConfigError Config := do
  let flag (setting : String) : Bool := (lookup setting).any parseFlag
  let specificOps := SpecificOps.parse ((lookup opsVariable).getD "")
  let dotThreshold ← match lookup thresholdVariable with
    | some value => parseThreshold value
    | none => pure Heuristics.default.dotThreshold
  return {
    disabled := flag disableVariable
    attention := specificOps.requests "attention"
    reduceFusion := flag reduceVariable
    inputFusion := flag inputVariable
    specificOps
    deviceName := ""
    heuristics := { Heuristics.default with dotThreshold } }

/-- Sets the list of options; attention follows it. -/
def withSpecificOps (c : Config) (list : String) : Config :=
  let specificOps := SpecificOps.parse list
  { c with specificOps, attention := specificOps.requests "attention" }

def attentionEnabled (c : Config) : Bool := !c.disabled && c.attention

/-- The devices for which everything is offloaded. -/
def fullDevices : String := "gfx11"

/-- The mode of one option, such as `fused_convolution`, `fused_dot`, `convolution` or `dot`. -/
def mode (c : Config) (option : String) : Mode :=
  if c.specificOps.rejects option then .none
  else if c.specificOps.requests option then .all
  else if fullDevices.toList.isPrefixOf c.deviceName.toList then .all
  else .fast

end Config

end OffloadFusion
