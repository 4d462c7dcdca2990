/-!
# Quoting

A text is written in double quotes.  Control characters become escapes of three
digits, so that a digit behind them is not taken for part of them.
-/

namespace LuaRestyle

def digit (n : Nat) : Char := Char.ofNat ('0'.toNat + n % 10)

def threeDigits (n : Nat) : List Char := [digit (n / 100), digit (n / 10), digit n]

def isControl (c : Char) : Bool := c.toNat < 32 || c.toNat == 127

def quoteChar (c : Char) : List Char :=
  if c = '"' then ['\\', '"']
  else if c = '\\' then ['\\', '\\']
  else if c = '\n' then ['\\', 'n']
  else if c = '\r' then ['\\', 'r']
  else if c = '\t' then ['\\', 't']
  else if isControl c then '\\' :: threeDigits c.toNat
  else [c]

def quote (text : String) : String :=
  String.ofList ('"' :: (text.toList.flatMap quoteChar ++ ['"']))

end LuaRestyle
