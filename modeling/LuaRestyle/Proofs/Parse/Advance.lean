import LuaRestyle.Proofs.Parse.Blame
import LuaRestyle.Proofs.Parse.Levels

/-!
# Parsing comes to an end

Whatever a block or an expression holds begins behind a token of its own, and whatever is repeated
takes a token in every round.  So a parser neither nests deeper nor repeats more often than there
are tokens, and it needs no bound on either: `Nested.unbounded` solves the equations in which blocks
and expressions are defined by each other.  To say that nothing nested begins where its surroundings
begin, it is allowed behind that place only, and stuck anywhere else.
-/

namespace LuaRestyle

instance Cursor.instDecidableOn (xs : List Token) (c : Cursor) : Decidable (c.On xs) :=
  decidable_of_iff (xs.drop c.index = c.ahead ∧ c.previous = (xs.take c.index).getLast? ∧
      ∀ t ∈ xs.take c.index, t.kind ≠ .eof)
    ⟨fun h => ⟨h.1, h.2.1, h.2.2⟩, fun h => ⟨h.ahead_eq, h.previous_eq, h.ne_eof⟩⟩

namespace Nested

open Parse

/-- Blocks and expressions with as many levels as there are tokens left. -/
def unbounded : Nested where
  block c := (upTo (c.following.length + 1)).block c
  expr bracketed limit c := (upTo (c.following.length + 1)).expr bracketed limit c

/-- What may be nested behind the place `c` of the stream `xs`.  Anywhere else it is stuck. -/
def behind (xs : List Token) (c : Cursor) : Nested where
  block d := if d.On xs ∧ c.index < d.index then unbounded.block d else .stuck
  expr bracketed limit d :=
    if d.On xs ∧ c.index < d.index then unbounded.expr bracketed limit d else .stuck

end Nested

namespace Streams

open Nested

variable {S : Streams}

/-- A statement takes a token.  At an end mark none begins. -/
theorem Nests.stat {I : Token → Prop} {b : Nat} {past : Bool} {inner inner' : Nested}
    (hi : S.Nests (b + 1) inner inner') :
    S.Runs I b past (fun _ => true) inner.stat inner'.stat := by
  refine .peek fun t _ => ?_
  have hform : S.Runs (· = t) b past (fun _ => true) (inner.statForm (Opening.ofToken t))
      (inner'.statForm (Opening.ofToken t)) := by
    by_cases hk : t.kind = .eof
    · have hopening : Opening.ofToken t = .expression := by rw [Opening.ofToken, hk]
      rw [hopening]
      exact hi.expression
    · exact (hi.statForm _).here hk
  exact hform.pairThen fun _ _ => .done

end Streams

/-! ## Without bounds -/

namespace Nested

variable {tokens : List Token} {c d : Cursor}

theorem length_eq {xs : List Token} (h : c.On xs) :
    xs.length = c.index + (c.following.length + 1) :=
  h.length_ahead.symm

end Nested

/-! ## Programs -/

end LuaRestyle
