import OffloadFusion.Number.Shortest

/-!
# Binary floating-point numbers

`Single` and `Half` hold the bits of the 32-bit and 16-bit interchange formats.

* `Single.equals`: numerical equality, where a NaN differs from itself and the zeros are equal.
* `Single.toHalf`: rounding to the nearest, ties to even.
* `Single.text`: the shortest decimal that reads back.
-/

namespace OffloadFusion

/-- The bits of a 32-bit floating-point number. -/
structure Single where
  bits : UInt32
deriving DecidableEq, Repr

/-- The bits of a 16-bit floating-point number. -/
structure Half where
  bits : UInt16
deriving DecidableEq, Repr

namespace Single

def isNegative (x : Single) : Bool := x.bits.toNat / 0x80000000 = 1

/-- The biased exponent. -/
def biased (x : Single) : Nat := x.bits.toNat / 0x800000 % 0x100

/-- The trailing bits of the mantissa. -/
def fraction (x : Single) : Nat := x.bits.toNat % 0x800000

def isNaN (x : Single) : Bool := x.biased = 255 && x.fraction ≠ 0

def isInfinite (x : Single) : Bool := x.biased = 255 && x.fraction = 0

def isZero (x : Single) : Bool := x.biased = 0 && x.fraction = 0

/-- The mantissa of a finite number. -/
def mantissa (x : Single) : Nat := if x.biased = 0 then x.fraction else 0x800000 + x.fraction

/-- The power of two by which the mantissa of a finite number is scaled. -/
def exponent (x : Single) : Int := max x.biased 1 - 150

/-- Numerical equality: a NaN differs from itself, and the two zeros are equal. -/
def equals (x y : Single) : Bool :=
  !x.isNaN && !y.isNaN && (x = y || x.isZero && y.isZero)

end Single

namespace Half

/-- The bits without the sign. -/
def magnitude (x : Half) : Nat := x.bits.toNat % 0x8000

def isNaN (x : Half) : Bool := x.magnitude > 0x7c00

def isZero (x : Half) : Bool := x.magnitude = 0

/-- Numerical equality: a NaN differs from itself, and the two zeros are equal. -/
def equals (x y : Half) : Bool :=
  !x.isNaN && !y.isNaN && (x = y || x.isZero && y.isZero)

end Half

/-! ## Rounding -/

/-- The quotient by `2 ^ places` rounded to the nearest whole number, ties to even. -/
def roundShift (n places : Nat) : Nat :=
  let one := 1 <<< places
  let q := n / one
  let r := 2 * (n % one)
  if r > one ∨ r = one ∧ q % 2 = 1 then q + 1 else q

/-- The magnitude bits of the 16-bit number nearest to `m · 2 ^ q`. The bits count the numbers from
zero, so a rounding carry into the exponent needs no case. -/
def halfMagnitude (m : Nat) (q : Int) : Nat :=
  let unit : Int := max (-24) (q + (Nat.log2 m : Int) - 10)
  let steps := if unit ≥ q then roundShift m (unit - q).toNat else m <<< (q - unit).toNat
  min ((unit + 24).toNat * 0x400 + steps) 0x7c00

namespace Single

/-- The nearest 16-bit number, ties to even. A NaN keeps the upper bits of its payload and becomes
quiet. -/
def toHalf (x : Single) : Half :=
  let magnitude :=
    if x.isNaN then 0x7e00 ||| x.fraction / 0x2000
    else if x.isInfinite then 0x7c00
    else halfMagnitude x.mantissa x.exponent
  ⟨UInt16.ofNat ((if x.isNegative then 0x8000 else 0) + magnitude)⟩

/-! ## Text -/

/-- A positive finite number with the distances to its neighbours. -/
def toBinary (x : Single) : Shortest.Binary :=
  ⟨x.mantissa, x.exponent, x.fraction = 0 && x.biased > 1⟩

/-- No number needs a digit below `10 ^ -54`, and none reaches `10 ^ 39`. -/
def shortest? (x : Single) : Option Shortest.Decimal := x.toBinary.search 39 94

/-- The shortest decimal that reads back, without an exponent; `NaN` has no sign. -/
def text (x : Single) : String :=
  if x.isNaN then "NaN"
  else
    let sign := if x.isNegative then "-" else ""
    if x.isInfinite then sign ++ "inf"
    else if x.isZero then sign ++ "0"
    else sign ++ (x.shortest?.map Shortest.Decimal.text).getD "0"

end Single

end OffloadFusion
