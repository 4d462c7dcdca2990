import LuaRestyle.Parse.Error
import LuaRestyle.Tree.Basic

/-!
# Reading a stream token by token

A `Cursor` stands at one token of a stream.  There is always a token to look
at: the last one is never passed.  A parser takes a cursor to a value and
another cursor, refuses the stream, or is stuck.

A parser is stuck when a repetition or a nesting goes on for longer than there
are tokens.  No stream makes that happen, because every round and every level
takes a token; it is kept apart from refusals so that this can be said.
-/

namespace LuaRestyle

/-- A place in a stream of tokens, and how many names were numbered before it. -/
structure Cursor where
  previous : Option Token := none
  current : Token
  following : List Token
  index : TokenId := 0
  names : Nat := 0

namespace Cursor

/-- Step over the current token, unless it is the last one. -/
def next (c : Cursor) : Cursor :=
  match c.following with
  | [] => c
  | t :: ts => ⟨some c.current, t, ts, c.index + 1, c.names⟩

/-- The current token stands on a later line than the one before it ends. -/
def onNewLine (c : Cursor) : Bool :=
  c.previous.any (·.endLine < c.current.position.line)

end Cursor

inductive Reply (α : Type) where
  | ok (value : α) (cursor : Cursor)
  | refused (error : ParseError)
  | stuck

def Parse (α : Type) : Type := Cursor → Reply α

namespace Parse

variable {α β : Type}

instance instMonadParse : Monad Parse where
  pure a := fun c => .ok a c
  bind p f := fun c =>
    match p c with
    | .ok a d => f a d
    | .refused e => .refused e
    | .stuck => .stuck

@[simp] theorem pure_apply (a : α) (c : Cursor) : (pure a : Parse α) c = .ok a c := rfl

/-- A sequence succeeds if both of its parts do, one behind the other. -/
theorem bind_eq_ok {p : Parse α} {f : α → Parse β} {c e : Cursor} {b : β} :
    (p >>= f) c = .ok b e ↔ ∃ a d, p c = .ok a d ∧ f a d = .ok b e := by
  change (match p c with
    | .ok a d => f a d
    | .refused e => .refused e
    | .stuck => .stuck) = _ ↔ _
  cases p c with
  | ok a d => simp [and_assoc]
  | refused e => simp
  | stuck => simp

/-- A sequence is refused if its first part is, or its second behind the first. -/
theorem bind_eq_refused {p : Parse α} {f : α → Parse β} {c : Cursor} {e : ParseError} :
    (p >>= f) c = .refused e ↔
      p c = .refused e ∨ ∃ a d, p c = .ok a d ∧ f a d = .refused e := by
  change (match p c with
    | .ok a d => f a d
    | .refused e => .refused e
    | .stuck => .stuck) = _ ↔ _
  cases p c with
  | ok a d => simp [and_assoc]
  | refused e => simp
  | stuck => simp

/-- A sequence is stuck if its first part is, or its second behind the first. -/
theorem bind_eq_stuck {p : Parse α} {f : α → Parse β} {c : Cursor} :
    (p >>= f) c = .stuck ↔
      p c = .stuck ∨ ∃ a d, p c = .ok a d ∧ f a d = .stuck := by
  change (match p c with
    | .ok a d => f a d
    | .refused e => .refused e
    | .stuck => .stuck) = _ ↔ _
  cases p c with
  | ok a d => simp [and_assoc]
  | refused e => simp
  | stuck => simp

def stuck : Parse α := fun _ => .stuck

def peek : Parse Token := fun c => .ok c.current c

def peekNext : Parse Token := fun c => .ok (c.following.headD c.current) c

def refuse (fault : ParseFault) : Parse α := fun c => .refused ⟨c.current.position, fault⟩

def expected (what : String) : Parse α :=
  fun c => .refused ⟨c.current.position, .expected what c.current.text⟩

def take : Parse TokenId := fun c => .ok c.index c.next

def freshName : Parse NameId := fun c => .ok c.names { c with names := c.names + 1 }

def symbol? (text : String) : Parse (Option TokenId) := do
  if (← peek).isSymbol text then some <$> take else pure none

def symbol (text : String) : Parse TokenId := do
  if (← peek).isSymbol text then take else expected ("`" ++ text ++ "`")

def keyword? (word : String) : Parse (Option TokenId) := do
  if (← peek).isKeyword word then some <$> take else pure none

def keyword (word : String) : Parse TokenId := do
  if (← peek).isKeyword word then take else expected word

/-- Take a name that denotes no variable. -/
def name : Parse (String × TokenId) := do
  let t ← peek
  if t.kind = .ident then return (t.text, ← take) else expected "Ident"

/-- Take a name that declares or denotes a variable. -/
def ident : Parse (Ident × TokenId) := do
  let (text, token) ← name
  return (⟨text, ← freshName⟩, token)

/-! ## Repetition

Rounds are counted off against the tokens that are left, the current one
included, so that one more round is allowed than tokens can be taken. -/

/-- Repeat `step` for as long as it finds something, but not behind an item that
has to be the last. -/
def manyWithin (isLast : α → Bool) (step : Parse (Option α)) :
    List Token → Parse (List α)
  | [] => stuck
  | _ :: rounds => do
      match ← step with
      | none => pure []
      | some a =>
          if isLast a then pure [a]
          else return a :: (← manyWithin isLast step rounds)

def manyUntil (isLast : α → Bool) (step : Parse (Option α)) : Parse (List α) :=
  fun c => manyWithin isLast step (c.current :: c.following) c

def many (step : Parse (Option α)) : Parse (List α) := manyUntil (fun _ => false) step

def growWithin (step : α → Parse (Option α)) : List Token → α → Parse α
  | [], _ => stuck
  | _ :: rounds, a => do
      match ← step a with
      | none => pure a
      | some b => growWithin step rounds b

def grow (step : α → Parse (Option α)) (a : α) : Parse α :=
  fun c => growWithin step (c.current :: c.following) a c

def moreByComma (item : Parse (α × List TokenId)) : Parse (List α × List TokenId) := do
  let rest ← many do
    match ← symbol? "," with
    | none => pure none
    | some comma =>
        let (a, own) ← item
        return some (a, comma :: own)
  return (rest.map (·.1), rest.flatMap (·.2))

def commaSeparated (item : Parse (α × List TokenId)) : Parse (List α × List TokenId) := do
  let (a, own) ← item
  let (rest, more) ← moreByComma item
  return (a :: rest, own ++ more)

end Parse

end LuaRestyle
