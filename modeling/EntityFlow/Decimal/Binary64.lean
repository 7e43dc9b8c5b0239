/-! # Finite binary64 numbers in exact arithmetic

A number is a sign and a magnitude `significand * 2 ^ exponent`. Every operation computes the exact
quotient and rounds once, to the nearest representable number, a tie going to the even one. -/

namespace EntityFlow

structure Binary64 where
  negative : Bool
  significand : Nat
  exponent : Int
deriving DecidableEq, Repr, Inhabited

namespace Binary64

/-- Exponent of the smallest magnitude above zero. -/
def minExponent : Int := -1074

/-- Exponent of the numbers next to overflow. -/
def maxExponent : Int := 971

/-- The form every operation answers in: a full significand, or the smallest exponent. -/
def IsCanonical (x : Binary64) : Prop :=
  minExponent ≤ x.exponent ∧ x.exponent ≤ maxExponent ∧ x.significand < 1 <<< 53 ∧
    (1 <<< 52 ≤ x.significand ∨ x.exponent = minExponent)

def zero (negative : Bool) : Binary64 := ⟨negative, 0, minExponent⟩

def isZero (x : Binary64) : Bool := x.significand == 0

/-- The magnitude as a quotient of naturals. -/
def fraction (x : Binary64) : Nat × Nat :=
  if 0 ≤ x.exponent then (x.significand <<< x.exponent.toNat, 1)
  else (x.significand, 1 <<< (-x.exponent).toNat)

/-- `num / den` rounded to the nearest natural, a tie to the even one. -/
def roundHalfEven (num den : Nat) : Nat :=
  let low := num / den
  let twice := 2 * (num % den)
  if twice < den then low
  else if den < twice then low + 1
  else if low % 2 = 0 then low else low + 1

/-- The exponent of the leading bit of `num / den`, for positive `num` and `den`. -/
def leadingBit (num den : Nat) : Int :=
  let guess : Int := Nat.log2 num - Nat.log2 den
  let reached := if 0 ≤ guess then den <<< guess.toNat ≤ num else den ≤ num <<< (-guess).toNat
  if reached then guess else guess - 1

/-- The number nearest to `num / den`; `none` beyond the largest finite one. -/
def round (negative : Bool) (num den : Nat) : Option Binary64 :=
  if num = 0 then some (zero negative)
  else
    let q := max minExponent (leadingBit num den - 52)
    let m := if 0 ≤ q then roundHalfEven num (den <<< q.toNat)
      else roundHalfEven (num <<< (-q).toNat) den
    let (m, q) := if m = 1 <<< 53 then (1 <<< 52, q + 1) else (m, q)
    if q ≤ maxExponent then some ⟨negative, m, if m = 0 then minExponent else q⟩ else none

def ofInt (i : Int) : Option Binary64 := round (i < 0) i.natAbs 1

def negate (x : Binary64) : Binary64 := { x with negative := !x.negative }

def mul (x y : Binary64) : Option Binary64 :=
  let (a, b) := x.fraction
  let (c, d) := y.fraction
  round (x.negative != y.negative) (a * c) (b * d)

/-- Quotient by a number other than zero. -/
def div (x y : Binary64) : Option Binary64 :=
  let (a, b) := x.fraction
  let (c, d) := y.fraction
  round (x.negative != y.negative) (a * d) (b * c)

/-- The number nearest to `10 ^ k`. -/
def powerOfTen (k : Nat) : Option Binary64 := round false (Nat.pow 10 k) 1

/-- The largest power of ten that is still a number. -/
def maxPowerOfTen : Nat := 308

/-- Divide by powers of ten until the exponent is used up. Each full step takes 308 off it, and
three of them bring any 64-bit significand to zero. -/
def scaleDown : (steps : Nat) → Binary64 → (k : Nat) → Option Binary64
  | 0, x, _ => some (zero x.negative)
  | steps + 1, x, k =>
      if k ≤ maxPowerOfTen then (powerOfTen k).bind x.div
      else if x.isZero then some x
      else do
        let unit ← powerOfTen maxPowerOfTen
        scaleDown steps (← x.div unit) (k - maxPowerOfTen)

/-- The number a decimal `significand * 10 ^ exponent` is read as: the significand is rounded first,
then scaled by a power of ten. `none` when the result is too large. -/
def ofDecimal (negative : Bool) (significand : Nat) (exponent : Int) : Option Binary64 := do
  let x ← round negative significand 1
  if 0 ≤ exponent then
    if exponent.toNat ≤ maxPowerOfTen then x.mul (← powerOfTen exponent.toNat)
    else if x.isZero then some x else none
  else scaleDown 4 x (-exponent).toNat

end Binary64

end EntityFlow
