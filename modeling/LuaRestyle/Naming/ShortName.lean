/-!
# Short names

The words over the lower case letters, numbered by length and then by the
alphabet: `a` to `z` are zero to twenty-five, `aa` comes next.
-/

namespace LuaRestyle

def letter (n : Nat) : Char := Char.ofNat ('a'.toNat + n % 26)

/-- The letters of the word with number `index`, of which there are at most `n + 1`. -/
def wordLetters : Nat → Nat → List Char
  | 0, index => [letter index]
  | n + 1, index =>
      if index < 26 then [letter index]
      else wordLetters n (index / 26 - 1) ++ [letter index]

/-- The word with number `index`.  Every letter divides the number by twenty-six,
so there are fewer letters than the number says. -/
def wordAt (index : Nat) : String := String.ofList (wordLetters index index)

end LuaRestyle
