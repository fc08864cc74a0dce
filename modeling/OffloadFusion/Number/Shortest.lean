/-!
# Shortest decimals

A binary number `m · 2 ^ q` stands for every real number that rounds to it. `shortest` finds the
decimal with the fewest digits among them, and of two such decimals the nearer one, in exact
arithmetic.
-/

namespace OffloadFusion.Shortest

/-- A positive binary number `mantissa · 2 ^ exponent`. Its neighbours are at distance
`2 ^ exponent`, but the lower one at half of that if `narrow`. -/
structure Binary where
  mantissa : Nat
  exponent : Int
  narrow : Bool

/-- A decimal number `digits · 10 ^ exponent`. -/
structure Decimal where
  digits : Nat
  exponent : Int

namespace Binary

/-- The unit `2 ^ exponent` of the number in steps of `10 ^ k`, as a fraction. -/
def unit (b : Binary) (k : Int) : Nat × Nat :=
  (Nat.pow 10 (-k).toNat <<< b.exponent.toNat, Nat.pow 10 k.toNat <<< (-b.exponent).toNat)

/-- Whether `c · 10 ^ k` rounds to the number. The ends of the interval do if the mantissa is
even. -/
def holds (b : Binary) (c : Nat) (k : Int) : Bool :=
  let (num, den) := b.unit k
  let low := (4 * b.mantissa - if b.narrow then 1 else 2) * num
  let high := (4 * b.mantissa + 2) * num
  let point := 4 * c * den
  if b.mantissa % 2 = 0 then low ≤ point && point ≤ high else low < point && point < high

/-- The nearer of the two multiples of `10 ^ k` around the number that rounds to it. -/
def onGrid? (b : Binary) (k : Int) : Option Nat :=
  let (num, den) := b.unit k
  let below := b.mantissa * num / den
  let nearerFirst :=
    if 2 * (b.mantissa * num % den) < den then [below, below + 1] else [below + 1, below]
  nearerFirst.find? (b.holds · k)

/-- The first hit on the grids of `10 ^ k`, from the coarsest on. -/
def search (b : Binary) (k : Int) : Nat → Option Decimal
  | 0 => none
  | fuel + 1 =>
    match b.onGrid? k with
    | some c => some ⟨c, k⟩
    | none => b.search (k - 1) fuel

end Binary

/-- The text without an exponent and without a fraction of zeros. -/
def Decimal.text (d : Decimal) : String :=
  let digits := (toString d.digits).toList
  if d.exponent ≥ 0 then String.ofList (digits ++ List.replicate d.exponent.toNat '0')
  else
    let places := (-d.exponent).toNat
    let padded := List.replicate (places + 1 - digits.length) '0' ++ digits
    let whole := padded.length - places
    String.ofList (padded.take whole ++ '.' :: padded.drop whole)

end OffloadFusion.Shortest
