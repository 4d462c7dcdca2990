import LuaRestyle.Literal.Value
import LuaRestyle.Proofs.Literal.Scalars
import LuaRestyle.Proofs.Tree.Core

/-!
# What a literal stands for

The value of an expression is defined as far as expressions are literals of plain data other than
floats.  The fields of a table become its entries in their order; those without a key are counted.

Values depend on the core of an expression only (`Expr.value?_core`).
-/

namespace LuaRestyle

namespace Value

def isNil : Value → Bool
  | nil => true
  | _ => false

def negated? : Value → Option Value
  | integer i => some (integer (-i))
  | _ => none

mutual

/-- There is no float in the value, not even among the keys of its tables. -/
def isFloatless : Value → Bool
  | float _ => false
  | table entries => entriesFloatless entries
  | _ => true

def entriesFloatless : List (Value × Value) → Bool
  | [] => true
  | (key, value) :: entries => key.isFloatless && value.isFloatless && entriesFloatless entries

end

mutual

/-- The value without the entries under `nil`, at every depth. -/
def pruned : Value → Value
  | table entries => table (prunedEntries entries)
  | v => v

def prunedEntries : List (Value × Value) → List (Value × Value)
  | [] => []
  | (key, value) :: entries =>
      if key.isNil then prunedEntries entries
      else (key.pruned, value.pruned) :: prunedEntries entries

end

end Value

namespace Expr

def isNamed (s : String) (e : Expr) : Bool :=
  match e.form with
  | .name x => x.name == s
  | _ => false

mutual

def value? : Expr → Option Value
  | ⟨.nil, _⟩ => some .nil
  | ⟨.true, _⟩ => some (.boolean true)
  | ⟨.false, _⟩ => some (.boolean false)
  | ⟨.number text, _⟩ => (Numeral.integer? text).map .integer
  | ⟨.unary .neg operand, _⟩ => (value? operand).bind Value.negated?
  | ⟨.member base field, _⟩ =>
      if base.isNamed "math" && field == "mininteger" then some (.integer Int64.minValue)
      else none
  | ⟨.string text, _⟩ => (Quoted.text? text).map .string
  | ⟨.table ⟨fs, _, _⟩, _⟩ => (entries? 1 fs).map .table
  | _ => none

/-- The entries of a table.  `next` is the key of the next field that is written without one. -/
def entries? (next : Nat) : List Field → Option (List (Value × Value))
  | [] => some []
  | .positional e :: fs =>
      (value? e).bind fun v =>
        (entries? (next + 1) fs).map ((.integer (Int64.ofNat next), v) :: ·)
  | .named name e :: fs =>
      (value? e).bind fun v => (entries? next fs).map ((.string name, v) :: ·)
  | .keyed key e :: fs =>
      (value? key).bind fun k => (value? e).bind fun v => (entries? next fs).map ((k, v) :: ·)

end

variable {number : NameId → NameId}

theorem isNamed_core (s : String) (e : Expr) : (Core.expr number e).isNamed s = e.isNamed s := by
  obtain ⟨form, o⟩ := e
  cases form <;> rfl

mutual

/-- Expressions with the same core have the same value. -/
theorem value?_core : (e : Expr) → (Core.expr number e).value? = e.value?
  | ⟨.nil, _⟩ | ⟨.true, _⟩ | ⟨.false, _⟩ | ⟨.vararg _, _⟩ | ⟨.number _, _⟩ | ⟨.string _, _⟩
  | ⟨.name _, _⟩ | ⟨.function _, _⟩ | ⟨.index _ _, _⟩ | ⟨.call _ _ _, _⟩ | ⟨.paren _, _⟩
  | ⟨.binary _ _ _, _⟩ => by simp only [Core.expr, value?]
  | ⟨.table ⟨fs, _, _⟩, _⟩ => by simp only [Core.expr, Core.table, value?, entries?_core fs]
  | ⟨.member base field, _⟩ => by simp only [Core.expr, value?, isNamed_core]
  | ⟨.unary op operand, _⟩ => by
      cases op <;> simp only [Core.expr, value?, value?_core operand]

theorem entries?_core : (fs : List Field) → ∀ next,
    entries? next (Core.fields number fs) = entries? next fs
  | [], _ => rfl
  | .positional e :: fs, _ => by
      simp only [Core.fields, entries?, value?_core e, entries?_core fs]
  | .named _ e :: fs, _ => by
      simp only [Core.fields, entries?, value?_core e, entries?_core fs]
  | .keyed key e :: fs, _ => by
      simp only [Core.fields, entries?, value?_core key, value?_core e, entries?_core fs]

end

end Expr

end LuaRestyle
