/-!
# Operators

An operator has a text and a binding power on each side.  An operator takes
what stands between it and another one if it binds more tightly on that side.
An operator that is weaker on its right than on its left groups to the right.
-/

namespace LuaRestyle

inductive BinaryOp where
  | or | and
  | lt | gt | le | ge | ne | eq
  | bitOr | bitXor | bitAnd | shl | shr
  | concat
  | add | sub | mul | div | idiv | mod | pow
deriving DecidableEq, Repr

namespace BinaryOp

def all : List BinaryOp :=
  [or, and, lt, gt, le, ge, ne, eq, bitOr, bitXor, bitAnd, shl, shr, concat,
    add, sub, mul, div, idiv, mod, pow]

def text : BinaryOp → String
  | or => "or"
  | and => "and"
  | lt => "<"
  | gt => ">"
  | le => "<="
  | ge => ">="
  | ne => "~="
  | eq => "=="
  | bitOr => "|"
  | bitXor => "~"
  | bitAnd => "&"
  | shl => "<<"
  | shr => ">>"
  | concat => ".."
  | add => "+"
  | sub => "-"
  | mul => "*"
  | div => "/"
  | idiv => "//"
  | mod => "%"
  | pow => "^"

def ofText? (text : String) : Option BinaryOp := all.find? (·.text == text)

def leftPower : BinaryOp → Nat
  | or => 1
  | and => 2
  | lt | gt | le | ge | ne | eq => 3
  | bitOr => 4
  | bitXor => 5
  | bitAnd => 6
  | shl | shr => 7
  | concat => 9
  | add | sub => 10
  | mul | div | idiv | mod => 11
  | pow => 14

def rightPower : BinaryOp → Nat
  | concat => 8
  | pow => 13
  | op => op.leftPower

theorem mem_all (op : BinaryOp) : op ∈ all := by
  cases op <;> decide

theorem ofText?_text (op : BinaryOp) : ofText? op.text = some op := by
  cases op <;> decide

theorem text_of_ofText? {text : String} {op : BinaryOp} (h : ofText? text = some op) :
    op.text = text := by
  have hop := List.find?_some h
  exact beq_iff_eq.1 hop

theorem rightPower_le_leftPower (op : BinaryOp) : op.rightPower ≤ op.leftPower := by
  cases op <;> decide

end BinaryOp

inductive UnaryOp where
  | not | neg | len | bitNot
deriving DecidableEq, Repr

namespace UnaryOp

def all : List UnaryOp := [not, neg, len, bitNot]

def text : UnaryOp → String
  | not => "not"
  | neg => "-"
  | len => "#"
  | bitNot => "~"

def ofText? (text : String) : Option UnaryOp := all.find? (·.text == text)

def power : Nat := 12

theorem mem_all (op : UnaryOp) : op ∈ all := by
  cases op <;> decide

theorem ofText?_text (op : UnaryOp) : ofText? op.text = some op := by
  cases op <;> decide

theorem text_of_ofText? {text : String} {op : UnaryOp} (h : ofText? text = some op) :
    op.text = text := by
  have hop := List.find?_some h
  exact beq_iff_eq.1 hop

end UnaryOp

end LuaRestyle
