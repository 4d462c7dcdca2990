import LuaRestyle.Proofs.Parse.Keeps

/-!
# What a parser hands out

`Ensures S p Q` says that a parser which runs over tokens whose kinds and texts
satisfy `S` hands out only values with the property `Q`.  That all tokens ahead satisfy `S`
is an invariant, so that `Ensures` has the rules of `Keeps`; what it adds is what is known of a
token that is looked at or taken.
-/

namespace LuaRestyle

variable {S : TokenKind → String → Prop}

namespace Cursor

def Suits (S : TokenKind → String → Prop) (c : Cursor) : Prop :=
  ∀ t ∈ c.ahead, t.kind ≠ .eof → S t.kind t.text

theorem Suits.next {c : Cursor} (h : c.Suits S) : c.next.Suits S := by
  intro t ht
  refine h t ?_
  unfold Cursor.next at ht
  split at ht
  case h_1 => exact ht
  case h_2 u us hus =>
    rw [ahead, hus]
    exact List.mem_cons_of_mem _ ht

instance stable_suits : Stable (Suits S) where
  next h := h.next
  numbered _ h := h

theorem Suits.current {c : Cursor} (h : c.Suits S) (hk : c.current.kind ≠ .eof) :
    S c.current.kind c.current.text :=
  h _ List.mem_cons_self hk

end Cursor

namespace Parse

variable {α β : Type} {p : Parse α} {f : α → Parse β} {Q P : α → Prop} {R : β → Prop}

/-- Over tokens that satisfy `S` the parser hands out only values that satisfy `Q`. -/
def Ensures (S : TokenKind → String → Prop) (p : Parse α) (Q : α → Prop) : Prop :=
  ∀ c a d, c.Suits S → p c = .ok a d → Q a ∧ d.Suits S

namespace Ensures

theorem bind (hp : Ensures S p Q) (hf : ∀ a, Q a → Ensures S (f a) R) : Ensures S (p >>= f) R :=
  Keeps.bind hp hf

theorem pure {a : α} (h : Q a) : Ensures S (pure a) Q := Keeps.pure h

theorem mono (h : Ensures S p P) (hPQ : ∀ a, P a → Q a) : Ensures S p Q := Keeps.mono h hPQ

theorem map {g : α → β} (hp : Ensures S p Q) (hg : ∀ a, Q a → R (g a)) : Ensures S (g <$> p) R :=
  Keeps.map hp hg

theorem refuse {fault : ParseFault} : Ensures S (refuse fault) Q := Keeps.refuse

theorem expected {what : String} : Ensures S (expected what) Q := Keeps.expected

theorem stuck : Ensures S stuck Q := Keeps.stuck

theorem peek : Ensures S peek fun t => t.kind ≠ .eof → S t.kind t.text := by
  intro c t d hc h
  cases h
  exact ⟨hc.current, hc⟩

theorem peekNext : Ensures S peekNext fun _ => True := Keeps.peekNext

theorem take : Ensures S take fun _ => True := Keeps.take

theorem freshName : Ensures S freshName fun _ => True := Keeps.freshName

theorem symbol {s : String} : Ensures S (symbol s) fun _ => True := Keeps.symbol

theorem symbol? {s : String} : Ensures S (symbol? s) fun _ => True := Keeps.symbol?

theorem keyword {s : String} : Ensures S (keyword s) fun _ => True := Keeps.keyword

theorem keyword? {s : String} : Ensures S (keyword? s) fun _ => True := Keeps.keyword?

theorem name : Ensures S name fun r => S .ident r.1 := by
  refine peek.bind fun t ht => ?_
  split
  case isTrue hk =>
    refine take.bind fun i _ => pure ?_
    rw [hk] at ht
    exact ht nofun
  case isFalse => exact expected

theorem ident : Ensures S ident fun r => S .ident r.1.name :=
  name.bind fun _ hr => freshName.bind fun _ _ => pure hr

/-- All items of a repetition have what each step ensures, and none but the last of
them had to be the last. -/
theorem manyUntil {isLast : α → Bool} {step : Parse (Option α)}
    (hstep : Ensures S step fun o => ∀ a ∈ o, Q a) :
    Ensures S (manyUntil isLast step) fun as =>
      (∀ a ∈ as, Q a) ∧ ∀ a ∈ as.dropLast, isLast a = false :=
  Keeps.manyUntil hstep

theorem many {step : Parse (Option α)} (hstep : Ensures S step fun o => ∀ a ∈ o, Q a) :
    Ensures S (many step) fun as => ∀ a ∈ as, Q a :=
  Keeps.many hstep

/-- What a step keeps when it extends a value, growing keeps. -/
theorem grow {step : α → Parse (Option α)}
    (hstep : ∀ a, Q a → Ensures S (step a) fun o => ∀ b ∈ o, Q b) {a : α} (ha : Q a) :
    Ensures S (grow step a) Q :=
  Keeps.grow hstep ha

variable {item : Parse (α × List TokenId)}

theorem moreByComma (hitem : Ensures S item fun r => Q r.1) :
    Ensures S (moreByComma item) fun r => ∀ a ∈ r.1, Q a :=
  Keeps.moreByComma hitem

theorem commaSeparated (hitem : Ensures S item fun r => Q r.1) :
    Ensures S (commaSeparated item) fun r => r.1 ≠ [] ∧ ∀ a ∈ r.1, Q a :=
  Keeps.commaSeparated hitem

end Ensures

end Parse

end LuaRestyle
