/-!
# Shortest decimals

A binary number stands for all reals that are nearer to it than to its
neighbours.  Among the decimals in this interval the ones on the coarsest
power of ten have the fewest digits; of the two next to the number the nearer
one is taken, and the greater one if both are equally near.

Everything is counted in quarters of the last binary place, where the number
and both ends of its interval are whole.
-/

namespace LuaRestyle

def twoTo (n : Nat) : Nat := Nat.pow 2 n

def tenTo (n : Nat) : Nat := Nat.pow 10 n

/-- The positive number `mantissa * 2 ^ exponent`.  Where the numbers below lie
closer together than those above, the interval is narrow below. -/
structure Binary where
  mantissa : Nat
  exponent : Int
  narrowBelow : Bool
deriving DecidableEq, Repr

/-- The number `coefficient * 10 ^ exponent`. -/
structure Decimal where
  coefficient : Nat
  exponent : Int
deriving DecidableEq, Repr

namespace Binary

/-- The number, the lower and the upper end of its interval, in quarters of the
last place. -/
def quarters (b : Binary) : Nat := 4 * b.mantissa

def lowest (b : Binary) : Nat := if b.narrowBelow then b.quarters - 1 else b.quarters - 2

def highest (b : Binary) : Nat := b.quarters + 2

/-- `n` quarters of the last place, in units of a fixed size that depends on the
power of ten `g` they are compared with. -/
def scaled (b : Binary) (g : Int) (n : Nat) : Nat :=
  n * twoTo (b.exponent - 2).toNat * tenTo (-g).toNat

/-- The power of ten `g` in the same units. -/
def grid (b : Binary) (g : Int) : Nat := tenTo g.toNat * twoTo (2 - b.exponent).toNat

/-- The decimal is read back as the number.  The ends of the interval go to the
neighbour with the even mantissa. -/
def isReadBackFrom (b : Binary) (d : Decimal) : Bool :=
  let point := d.coefficient * b.grid d.exponent
  let lo := b.scaled d.exponent b.lowest
  let hi := b.scaled d.exponent b.highest
  if b.mantissa % 2 = 0 then lo ≤ point && point ≤ hi else lo < point && point < hi

/-- The better of the two multiples of a power of ten that are next to the number,
if one of them is read back. -/
def onGrid? (b : Binary) (g : Int) : Option Decimal :=
  let value := b.scaled g b.quarters
  let unit := b.grid g
  let below : Decimal := ⟨value / unit, g⟩
  let above : Decimal := ⟨value / unit + 1, g⟩
  match b.isReadBackFrom below, b.isReadBackFrom above with
  | true, true =>
      some (if 2 * value < (2 * (value / unit) + 1) * unit then below else above)
  | true, false => some below
  | false, true => some above
  | false, false => none

/-- The powers of ten among which a double has a shortest decimal, coarsest first. -/
def powers : List Int := (List.range 634).map fun (i : Nat) => 309 - (i : Int)

def shortest (b : Binary) : Decimal := (powers.findSome? b.onGrid?).getD ⟨0, 0⟩

end Binary

end LuaRestyle
