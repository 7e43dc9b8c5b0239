import EntityFlow.Decimal.Binary64

/-! # The shortest decimal that reads back

Of the decimals that lie closer to a number than to any other binary64 number, the ones with the
fewest digits are taken, and of these the nearest. -/

namespace EntityFlow

/-- The magnitude `coefficient * 10 ^ exponent`. -/
structure Decimal where
  coefficient : Nat
  exponent : Int
deriving DecidableEq, Repr, Inhabited

namespace Binary64

/-- A number on an exact scale: its magnitude and the ends of the interval of reals that round to
it, as numerators over one denominator. -/
structure Interval where
  low : Nat
  value : Nat
  high : Nat
  den : Nat
  /-- The ends themselves round to the number. -/
  closed : Bool
deriving Repr

/-- The interval below a power of two is half as wide, because numbers there lie twice as dense. -/
def interval (x : Binary64) : Interval :=
  let m := 4 * x.significand
  let below := if x.significand = 1 <<< 52 && x.exponent != minExponent then 1 else 2
  let q := x.exponent - 2
  let scale := if 0 ≤ q then 1 <<< q.toNat else 1
  let den := if 0 ≤ q then 1 else 1 <<< (-q).toNat
  ⟨(m - below) * scale, m * scale, (m + 2) * scale, den, x.significand % 2 = 0⟩

def Interval.contains (i : Interval) (num den : Nat) : Bool :=
  if i.closed then i.low * den ≤ num * i.den && num * i.den ≤ i.high * den
  else i.low * den < num * i.den && num * i.den < i.high * den

/-- The exponent of the leading decimal digit of a positive magnitude. -/
def Interval.leadingDigit (i : Interval) : Int :=
  let guess : Int := (Nat.toDigits 10 i.value).length - (Nat.toDigits 10 i.den).length
  let reached := if 0 ≤ guess then i.den * Nat.pow 10 guess.toNat ≤ i.value
    else i.den ≤ i.value * Nat.pow 10 (-guess).toNat
  if reached then guess else guess - 1

/-- The decimal nearest to the number among those with `exponent` that lie in the interval, an exact
tie going to the larger one. -/
def Interval.onGrid? (i : Interval) (exponent : Int) : Option Decimal :=
  let up := if 0 ≤ exponent then Nat.pow 10 exponent.toNat else 1
  let down := if 0 ≤ exponent then 1 else Nat.pow 10 (-exponent).toNat
  let step := i.den * up
  let value := i.value * down
  let low := value / step
  let lowIn := i.contains (low * up) down
  let highIn := i.contains ((low + 1) * up) down
  let nearHigh := (low + 1) * step - value ≤ value - low * step
  if highIn && (nearHigh || !lowIn) then some ⟨low + 1, exponent⟩
  else if lowIn then some ⟨low, exponent⟩
  else none

/-- Try grids of more and more digits, from `exponent` downwards. -/
def Interval.search (i : Interval) (exponent : Int) : (grids : Nat) → Decimal
  | 0 => ⟨i.value / i.den, 0⟩
  | grids + 1 => (i.onGrid? exponent).getD (search i (exponent - 1) grids)

/-- Seventeen digits tell every number from its neighbours. -/
def shortest (x : Binary64) : Decimal :=
  if x.isZero then ⟨0, 0⟩
  else x.interval.search x.interval.leadingDigit 17

end Binary64

end EntityFlow
