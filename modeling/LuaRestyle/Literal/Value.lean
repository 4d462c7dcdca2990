import LuaRestyle.Literal.Number
import LuaRestyle.Literal.Quote
import LuaRestyle.Token

/-!
# Values as literals

Plain data are written as an expression that evaluates to them.  The entries of
a table keep their order.  As long as their keys count up from one they are
written without keys; from the first other key on all keys are written.  No
table has an entry under `nil` or under a number that is none, and such entries
are left out.
-/

namespace LuaRestyle

inductive Value where
  | nil
  | boolean (b : Bool)
  | integer (i : Int64)
  | float (x : Float)
  | string (text : String)
  | table (entries : List (Value × Value))

namespace Value

def list (values : List Value) : Value :=
  table (values.mapIdx fun i v => (integer (Int64.ofNat (i + 1)), v))

def record (entries : List (String × Value)) : Value :=
  table (entries.map fun (key, v) => (string key, v))

def isKey : Value → Bool
  | nil => false
  | float x => !(DoubleFields.ofBits x.toBits).isNaN
  | _ => true

/-- The key that comes next when keys are counted. -/
def counts (next : Option Int) : Value → Bool
  | integer i => next == some i.toInt
  | _ => false

def name? : Value → Option String
  | string text => if isName text then some text else none
  | _ => none

mutual

def literal : Value → String
  | nil => "nil"
  | boolean b => if b then "true" else "false"
  | integer i => integerLiteral i
  | float x => (DoubleFields.ofBits x.toBits).literal
  | string text => quote text
  | table entries => "\x7b" ++ ", ".intercalate (fields (some 1) entries) ++ "\x7d"

/-- The fields of a table.  `next` is the key that need not be written, if there is
one. -/
def fields (next : Option Int) : List (Value × Value) → List String
  | [] => []
  | (key, value) :: entries =>
      if !key.isKey then fields next entries
      else if key.counts next then literal value :: fields (next.map (· + 1)) entries
      else
        match key.name? with
        | some name => (name ++ " = " ++ literal value) :: fields none entries
        | none => ("[" ++ literal key ++ "] = " ++ literal value) :: fields none entries

end

end Value

def countUpTo {α : Type} (entries : List α) : Option Nat → Nat
  | some limit => (entries.take limit).length
  | none => entries.length

end LuaRestyle
