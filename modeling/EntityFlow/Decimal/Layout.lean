import EntityFlow.Decimal.Shortest

/-! # Decimal text of a number -/

namespace EntityFlow

/-- How a decimal is laid out: leading digits from `10 ^ least` to below `10 ^ limit` are written
positionally, all others with an exponent. -/
structure DecimalLayout where
  least : Int
  limit : Int
deriving Repr

namespace DecimalLayout

/-- Positional text, with at least one digit on each side of the point. -/
def positional (digits : List Char) (lead : Int) : List Char :=
  if 0 ≤ lead then
    let width := lead.toNat + 1
    let whole := digits.take width ++ List.replicate (width - digits.length) '0'
    let part := digits.drop width
    whole ++ '.' :: (if part.isEmpty then ['0'] else part)
  else
    '0' :: '.' :: List.replicate ((-lead).toNat - 1) '0' ++ digits

/-- One digit before the point, and no point when no digit follows. -/
def scientific (digits : List Char) (lead : Int) : List Char :=
  let rest := digits.drop 1
  digits.take 1 ++ (if rest.isEmpty then [] else '.' :: rest) ++ 'e' :: (toString lead).toList

/-- Digits without zeros at the end. -/
def trimZeros (digits : List Char) : List Char :=
  (digits.reverse.dropWhile (· == '0')).reverse

def magnitude (layout : DecimalLayout) (d : Decimal) : List Char :=
  let all := Nat.toDigits 10 d.coefficient
  let lead : Int := all.length - 1 + d.exponent
  if d.coefficient = 0 then ['0', '.', '0']
  else if layout.least ≤ lead && lead < layout.limit then positional (trimZeros all) lead
  else scientific (trimZeros all) lead

/-- The shortest decimal that reads back, with its sign. -/
def render (layout : DecimalLayout) (x : Binary64) : String :=
  String.ofList ((if x.negative then ['-'] else []) ++ layout.magnitude x.shortest)

end DecimalLayout

/-- Numbers below `0.0001` or from `10 ^ 16` on are written with an exponent. -/
def DecimalLayout.standard : DecimalLayout := ⟨-4, 16⟩

/-- A binary64 number with those that are not finite. -/
inductive Float64 where
  | finite (x : Binary64)
  | infinite (negative : Bool)
  | nan
deriving DecidableEq, Repr, Inhabited

namespace Float64

def isFinite : Float64 → Bool
  | .finite _ => true
  | .infinite _ | .nan => false

def render : Float64 → String
  | .finite x => DecimalLayout.standard.render x
  | .infinite negative => if negative then "-inf" else "inf"
  | .nan => "NaN"

end Float64

end EntityFlow
