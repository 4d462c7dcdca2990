import LuaRestyle.Parse.Program
import LuaRestyle.Proofs.Parse.Repetition

/-!
# More levels change no answer

A parser is stuck when it needs more levels than it was given.  Nothing takes that back: a sequence
with a stuck part is stuck.  So a production over parsers that are stuck less often does the same
wherever it was not stuck itself.  `Below` is this order; every production is monotone in it, and
so are the levels.
-/

namespace LuaRestyle

namespace Parse

variable {α β γ : Type} {f g : Parse α}

/-- Wherever the first parser is not stuck, the second one does the same. -/
def Below (f g : Parse α) : Prop := ∀ c, f c ≠ .stuck → g c = f c

namespace Below

theorem refl (f : Parse α) : Below f f := fun _ _ => rfl

theorem stuck : Below stuck g := fun _ h => absurd rfl h

theorem bind {k l : α → Parse β} (h : Below f g) (hk : ∀ a, Below (k a) (l a)) :
    Below (f >>= k) (g >>= l) := by
  intro c hc
  have hg := h c fun hf => hc (bind_eq_stuck.2 (.inl hf))
  cases hf : f c with
  | ok a d =>
      rw [hf] at hg
      rw [bind_of_ok hf] at hc
      rw [bind_of_ok hf, bind_of_ok hg, hk a d hc]
  | refused e =>
      rw [hf] at hg
      rw [bind_eq_refused.2 (.inl hf), bind_eq_refused.2 (.inl hg)]
  | stuck => exact absurd (bind_eq_stuck.2 (.inl hf)) hc

/-- Behind a parser that stays the same. -/
theorem after {p : Parse α} {k l : α → Parse β} (hk : ∀ a, Below (k a) (l a)) :
    Below (p >>= k) (p >>= l) :=
  (refl p).bind hk

/-- Behind a parser that hands out tokens along with its result. -/
theorem bindPair {f g : Parse (α × γ)} {k l : α × γ → Parse β} (h : Below f g)
    (hk : ∀ a own, Below (k (a, own)) (l (a, own))) : Below (f >>= k) (g >>= l) :=
  h.bind fun r => hk r.1 r.2

theorem afterPair {p : Parse (α × γ)} {k l : α × γ → Parse β}
    (hk : ∀ a own, Below (k (a, own)) (l (a, own))) : Below (p >>= k) (p >>= l) :=
  (refl p).bindPair hk

/-- A result may be worked up in the same way. -/
theorem yield {k : α → Parse β} (h : Below f g) : Below (f >>= k) (g >>= k) :=
  h.bind fun a => refl (k a)

/-! ## Repetition -/

theorem manyWithin {isLast : α → Bool} {step step' : Parse (Option α)} (h : Below step step')
    (rounds : List Token) :
    Below (manyWithin isLast step rounds) (manyWithin isLast step' rounds) := by
  induction rounds with
  | nil => exact stuck
  | cons t rounds ih =>
      refine h.bind fun o => ?_
      cases o with
      | none => exact refl _
      | some a =>
          dsimp only
          split
          · exact refl _
          · exact ih.yield

theorem manyUntil {isLast : α → Bool} {step step' : Parse (Option α)} (h : Below step step') :
    Below (manyUntil isLast step) (manyUntil isLast step') :=
  fun c => manyWithin h _ c

theorem many {step step' : Parse (Option α)} (h : Below step step') :
    Below (many step) (many step') :=
  manyUntil h

theorem growWithin {step step' : α → Parse (Option α)} (h : ∀ a, Below (step a) (step' a))
    (rounds : List Token) (a : α) :
    Below (growWithin step rounds a) (growWithin step' rounds a) := by
  induction rounds generalizing a with
  | nil => exact stuck
  | cons t rounds ih =>
      refine (h a).bind fun o => ?_
      cases o with
      | none => exact refl _
      | some b => exact ih b

theorem grow {step step' : α → Parse (Option α)} (h : ∀ a, Below (step a) (step' a)) (a : α) :
    Below (grow step a) (grow step' a) :=
  fun c => growWithin h _ a c

variable {item item' : Parse (α × List TokenId)}

theorem moreByComma (h : Below item item') : Below (moreByComma item) (moreByComma item') := by
  refine (many (after fun o => ?_)).yield
  cases o with
  | none => exact refl _
  | some comma => exact h.yield

theorem commaSeparated (h : Below item item') :
    Below (commaSeparated item) (commaSeparated item') :=
  h.bindPair fun _ _ => (moreByComma h).yield

end Below

end Parse

namespace Nested

open Parse

structure Below (inner inner' : Nested) : Prop where
  block : Parse.Below inner.block inner'.block
  expr (bracketed : Bool) (limit : Nat) :
    Parse.Below (inner.expr bracketed limit) (inner'.expr bracketed limit)

namespace Below

variable {inner inner' : Nested}

theorem exprs (hi : inner.Below inner') (bracketed : Bool) :
    Parse.Below (inner.exprs bracketed) (inner'.exprs bracketed) :=
  .commaSeparated (hi.expr bracketed 0).yield

/-! ## Expressions -/

theorem functionBody (hi : inner.Below inner') :
    Parse.Below inner.functionBody inner'.functionBody :=
  .after fun _ => .after fun _ => .after fun _ => hi.block.yield

theorem field (hi : inner.Below inner') : Parse.Below inner.field inner'.field := by
  refine .after fun o => ?_
  cases o with
  | some opener =>
      exact (hi.expr true 0).bind fun _ => .after fun _ => .after fun _ => (hi.expr true 0).yield
  | none =>
      refine .after fun t => .after fun u => ?_
      split
      · exact .afterPair fun _ _ => .after fun _ => (hi.expr true 0).yield
      · exact (hi.expr true 0).yield

theorem field? (hi : inner.Below inner') : Parse.Below inner.field? inner'.field? := by
  refine .after fun t => ?_
  split
  · exact .refl _
  · exact hi.field.yield

theorem table (hi : inner.Below inner') : Parse.Below inner.table inner'.table :=
  .after fun _ => (Parse.Below.manyUntil hi.field?).yield

theorem args (hi : inner.Below inner') : Parse.Below inner.args inner'.args := by
  refine .after fun t => ?_
  split
  · exact .refl _
  split
  · exact hi.table.yield
  split
  · refine .after fun opener => .after fun u => ?_
    split
    · exact .refl _
    · exact (hi.exprs true).yield
  · exact .refl _

theorem primary (hi : inner.Below inner') : Parse.Below inner.primary inner'.primary := by
  refine .after fun t => ?_
  split
  · exact .refl _
  split
  · exact .after fun _ => (hi.expr true 0).yield
  · exact .refl _

theorem suffix? (hi : inner.Below inner') (bracketed : Bool) (e : Expr) :
    Parse.Below (inner.suffix? bracketed e) (inner'.suffix? bracketed e) := by
  refine .after fun t => ?_
  dsimp only
  split
  · exact .refl _
  split
  · exact .after fun _ => (hi.expr true 0).yield
  split
  · exact .after fun _ => .afterPair fun _ _ => hi.args.yield
  refine .after fun begins => ?_
  split
  · exact .refl _
  split
  · exact hi.args.yield
  · exact .refl _

theorem suffixed (hi : inner.Below inner') (bracketed : Bool) :
    Parse.Below (inner.suffixed bracketed) (inner'.suffixed bracketed) :=
  hi.primary.bind fun e => .grow (hi.suffix? bracketed) e

theorem simple (hi : inner.Below inner') (bracketed : Bool) :
    Parse.Below (inner.simple bracketed) (inner'.simple bracketed) := by
  refine .after fun t => ?_
  split
  · exact .refl _
  split
  · exact .after fun _ => hi.functionBody.yield
  split
  · exact .refl _
  split
  · exact hi.table.yield
  · exact hi.suffixed bracketed

theorem unary (hi : inner.Below inner') (bracketed : Bool) :
    Parse.Below (inner.unary bracketed) (inner'.unary bracketed) := by
  refine .after fun t => ?_
  split
  · exact .after fun _ => (hi.expr bracketed _).yield
  · exact hi.simple bracketed

theorem binary? (hi : inner.Below inner') (bracketed : Bool) (limit : Nat) (position : Position)
    (lhs : Expr) : Parse.Below (inner.binary? bracketed limit position lhs)
      (inner'.binary? bracketed limit position lhs) := by
  refine .after fun t => ?_
  split
  · exact .refl _
  split
  · exact .refl _
  · exact .after fun _ => (hi.expr bracketed _).yield

theorem exprAbove (hi : inner.Below inner') (bracketed : Bool) (limit : Nat) :
    Parse.Below (inner.exprAbove bracketed limit) (inner'.exprAbove bracketed limit) :=
  .after fun t => (hi.unary bracketed).bind fun e =>
    .grow (hi.binary? bracketed limit t.position) e

/-! ## Statements -/

theorem clause (hi : inner.Below inner') : Parse.Below inner.clause inner'.clause :=
  (hi.expr false 0).bind fun _ => .after fun _ => hi.block.yield

theorem elseif? (hi : inner.Below inner') : Parse.Below inner.elseif? inner'.elseif? := by
  refine .after fun o => ?_
  cases o with
  | none => exact .refl _
  | some token => exact hi.clause.yield

theorem else? (hi : inner.Below inner') : Parse.Below inner.else? inner'.else? := by
  refine .after fun o => ?_
  cases o with
  | none => exact .refl _
  | some token => exact hi.block.yield

theorem loopBody (hi : inner.Below inner') : Parse.Below inner.loopBody inner'.loopBody :=
  .after fun _ => hi.block.yield

theorem numericFor (hi : inner.Below inner') (x : Ident) :
    Parse.Below (inner.numericFor x) (inner'.numericFor x) := by
  refine (hi.exprs false).bindPair fun bounds commas => ?_
  dsimp only
  split
  · exact hi.loopBody.yield
  · exact hi.loopBody.yield
  · exact .refl _

theorem genericFor (hi : inner.Below inner') (x : Ident) :
    Parse.Below (inner.genericFor x) (inner'.genericFor x) := by
  refine .after fun t => ?_
  split
  · exact .afterPair fun _ _ => .after fun _ => (hi.exprs false).bindPair fun _ _ =>
      hi.loopBody.yield
  · exact .refl _

theorem forLoop (hi : inner.Below inner') : Parse.Below inner.forLoop inner'.forLoop := by
  refine .after fun _ => .afterPair fun x token => .after fun o => ?_
  cases o with
  | some equals => exact (hi.numericFor x).yield
  | none => exact (hi.genericFor x).yield

theorem function (hi : inner.Below inner') : Parse.Below inner.function inner'.function :=
  .after fun _ => .afterPair fun _ _ => .after fun _ => .after fun _ => hi.functionBody.yield

theorem localFunction (hi : inner.Below inner') (first : TokenId) :
    Parse.Below (inner.localFunction first) (inner'.localFunction first) :=
  .after fun _ => .afterPair fun _ _ => hi.functionBody.yield

theorem localNames (hi : inner.Below inner') :
    Parse.Below inner.localNames inner'.localNames := by
  refine .after fun first => .after fun t => ?_
  split
  · exact hi.localFunction first
  · refine .afterPair fun names own => .after fun o => ?_
    cases o with
    | none => exact .refl _
    | some equals => exact (hi.exprs false).yield

theorem returnValues (hi : inner.Below inner') :
    Parse.Below inner.returnValues inner'.returnValues := by
  refine .after fun first => .after fun t => ?_
  split
  · exact .refl _
  · exact (hi.exprs false).yield

theorem assign (hi : inner.Below inner') (e : Expr) :
    Parse.Below (inner.assign e) (inner'.assign e) := by
  refine (Parse.Below.moreByComma (hi.suffixed false).yield).bindPair fun others commas => ?_
  dsimp only
  split
  · exact .refl _
  · exact .after fun _ => (hi.exprs false).yield

theorem expression (hi : inner.Below inner') :
    Parse.Below inner.expression inner'.expression := by
  refine (hi.suffixed false).bind fun e => .after fun t => ?_
  split
  · exact hi.assign e
  · exact .refl _

theorem statForm (hi : inner.Below inner') (opening : Opening) :
    Parse.Below (inner.statForm opening) (inner'.statForm opening) := by
  cases opening with
  | ifThen =>
      exact .after fun _ => hi.clause.bindPair fun _ _ =>
        (Parse.Below.many hi.elseif?).bind fun _ => hi.else?.yield
  | whileDo => exact .after fun _ => (hi.expr false 0).bind fun _ => .after fun _ => hi.block.yield
  | block => exact .after fun _ => hi.block.yield
  | forLoop => exact hi.forLoop
  | repeatUntil =>
      exact .after fun _ => hi.block.bind fun _ => .after fun _ => (hi.expr false 0).yield
  | function => exact hi.function
  | localNames => exact hi.localNames
  | «return» => exact hi.returnValues
  | «break» => exact .refl _
  | expression => exact hi.expression

theorem stat (hi : inner.Below inner') : Parse.Below inner.stat inner'.stat :=
  .after fun _ => (hi.statForm _).yield

theorem stat? (hi : inner.Below inner') : Parse.Below inner.stat? inner'.stat? := by
  refine .after fun t => ?_
  split
  · exact .refl _
  split
  · exact .refl _
  · exact hi.stat.yield

/-! ## Levels -/

theorem lift (hi : inner.Below inner') : inner.lift.Below inner'.lift where
  block := .manyUntil hi.stat?
  expr := hi.exprAbove

theorem upTo {n m : Nat} (h : n ≤ m) : (upTo n).Below (upTo m) := by
  induction n generalizing m with
  | zero => exact ⟨.stuck, fun _ _ => .stuck⟩
  | succ n ih =>
      cases m with
      | zero => exact absurd h (Nat.not_succ_le_zero n)
      | succ m => exact (ih (Nat.le_of_succ_le_succ h)).lift

end Below

end Nested

end LuaRestyle
