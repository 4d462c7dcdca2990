import LuaRestyle.Literal.Shortest

/-!
# Numbers as literals

A float keeps a point or an exponent, so that it is read as a float again.
Decimals whose first digit has an exponent from -4 to 15 are written without
one.  A few numbers have no literal and are written as expressions.
-/

namespace LuaRestyle

namespace Decimal

def digits (d : Decimal) : List Char := (toString d.coefficient).toList

/-- The power of ten of the first digit. -/
def magnitude (d : Decimal) : Int := d.exponent + (d.digits.length - 1 : Nat)

def zeros (n : Nat) : List Char := List.replicate n '0'

def positional (d : Decimal) : List Char :=
  let e := d.magnitude
  if e < 0 then '0' :: '.' :: (zeros (-e - 1).toNat ++ d.digits)
  else
    let whole := e.toNat + 1
    let padded := d.digits ++ zeros (whole - d.digits.length)
    let fraction := padded.drop whole
    padded.take whole ++ '.' :: (if fraction.isEmpty then ['0'] else fraction)

def scientific (d : Decimal) : List Char :=
  let fraction := d.digits.drop 1
  d.digits.take 1 ++ (if fraction.isEmpty then [] else '.' :: fraction) ++
    'e' :: (toString d.magnitude).toList

def text (d : Decimal) : List Char :=
  if -4 ≤ d.magnitude ∧ d.magnitude < 16 then d.positional else d.scientific

end Decimal

structure DoubleFields where
  negative : Bool
  exponent : Nat
  fraction : Nat
deriving DecidableEq, Repr

namespace DoubleFields

def ofBits (bits : UInt64) : DoubleFields where
  negative := twoTo 63 ≤ bits.toNat
  exponent := bits.toNat / twoTo 52 % twoTo 11
  fraction := bits.toNat % twoTo 52

def isNaN (x : DoubleFields) : Bool := x.exponent == 2047 && x.fraction != 0

def isInfinite (x : DoubleFields) : Bool := x.exponent == 2047 && x.fraction == 0

/-- The absolute value of a finite double. -/
def binary (x : DoubleFields) : Binary :=
  if x.exponent = 0 then ⟨x.fraction, -1074, false⟩
  else ⟨twoTo 52 + x.fraction, (x.exponent : Int) - 1075, x.fraction == 0 && 1 < x.exponent⟩

def magnitudeText (x : DoubleFields) : List Char :=
  if x.binary.mantissa = 0 then ['0', '.', '0'] else x.binary.shortest.text

def literal (x : DoubleFields) : String :=
  if x.isNaN then "0/0"
  else if x.isInfinite then if x.negative then "-math.huge" else "math.huge"
  else String.ofList ((if x.negative then ['-'] else []) ++ x.magnitudeText)

end DoubleFields

/-- The literal of an integer.  The least one has no literal of its own. -/
def integerLiteral (i : Int64) : String :=
  if i = Int64.minValue then "math.mininteger" else toString i.toInt

end LuaRestyle
