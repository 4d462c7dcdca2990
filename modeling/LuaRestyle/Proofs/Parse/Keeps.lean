import LuaRestyle.Parse.Expr
import LuaRestyle.Proofs.Parse.Repetition

/-!
# Invariants of a parser

`Keeps I p Q` says that a parser which is started where `I` holds hands out only values with the
property `Q`, and stops where `I` holds again.  It is closed under sequencing and repetition, so
that a production is gone through part by part, without a look at the cursor.

The invariants for which the small parsers do nothing unexpected are those that stay when a token
is passed and when a name is numbered: `Cursor.Stable`.
-/

namespace LuaRestyle

class Cursor.Stable (I : Cursor → Prop) : Prop where
  next {c : Cursor} (h : I c) : I c.next
  numbered {c : Cursor} (n : Nat) (h : I c) : I { c with names := n }

namespace Parse

variable {I : Cursor → Prop} {α β : Type} {p : Parse α} {f : α → Parse β} {Q P : α → Prop}
  {R : β → Prop}

/-- From where `I` holds the parser hands out only values that satisfy `Q`, and `I` holds again. -/
def Keeps (I : Cursor → Prop) (p : Parse α) (Q : α → Prop) : Prop :=
  ∀ c a d, I c → p c = .ok a d → Q a ∧ I d

namespace Keeps

theorem bind (hp : Keeps I p Q) (hf : ∀ a, Q a → Keeps I (f a) R) : Keeps I (p >>= f) R := by
  intro c b e hc h
  obtain ⟨a, d, ha, hb⟩ := bind_eq_ok.1 h
  obtain ⟨hQ, hd⟩ := hp c a d hc ha
  exact hf a hQ d b e hd hb

theorem pure {a : α} (h : Q a) : Keeps I (pure a) Q := by
  intro c b d hc hb
  obtain ⟨rfl, rfl⟩ := pure_eq_ok.1 hb
  exact ⟨h, hc⟩

theorem mono (h : Keeps I p P) (hPQ : ∀ a, P a → Q a) : Keeps I p Q := by
  intro c a d hc ha
  obtain ⟨hP, hd⟩ := h c a d hc ha
  exact ⟨hPQ a hP, hd⟩

theorem map {g : α → β} (hp : Keeps I p Q) (hg : ∀ a, Q a → R (g a)) : Keeps I (g <$> p) R := by
  intro c b d hc hb
  obtain ⟨a, ha, rfl⟩ := map_eq_ok.1 hb
  obtain ⟨hQ, hd⟩ := hp c a d hc ha
  exact ⟨hg a hQ, hd⟩

theorem refuse {fault : ParseFault} : Keeps I (refuse fault) Q := fun _ _ _ _ h =>
  absurd h refuse_ne_ok

theorem expected {what : String} : Keeps I (expected what) Q := fun _ _ _ _ h =>
  absurd h expected_ne_ok

theorem stuck : Keeps I stuck Q := fun _ _ _ _ h => absurd h stuck_ne_ok

theorem peek : Keeps I peek fun _ => True := by
  intro c t d hc h
  cases h
  exact ⟨trivial, hc⟩

theorem peekNext : Keeps I peekNext fun _ => True := by
  intro c t d hc h
  cases h
  exact ⟨trivial, hc⟩

/-! ## Repetition -/

theorem manyWithin {isLast : α → Bool} {step : Parse (Option α)}
    (hstep : Keeps I step fun o => ∀ a ∈ o, Q a) (rounds : List Token) :
    Keeps I (manyWithin isLast step rounds) fun as =>
      (∀ a ∈ as, Q a) ∧ ∀ a ∈ as.dropLast, isLast a = false := by
  induction rounds with
  | nil => exact stuck
  | cons t rounds ih =>
      refine hstep.bind fun o ho => ?_
      cases o with
      | none => exact pure (by simp)
      | some a =>
          simp only
          split
          case isTrue => exact pure (by simpa using ho)
          case isFalse hlast =>
            refine ih.bind fun as has => pure ⟨?_, ?_⟩
            · intro b hb
              rcases List.mem_cons.1 hb with rfl | hb
              · exact ho b rfl
              · exact has.1 b hb
            · intro b hb
              cases as with
              | nil => simp at hb
              | cons x xs =>
                  rcases List.mem_cons.1 hb with rfl | hb
                  · simpa using hlast
                  · exact has.2 b hb

/-- All items of a repetition have what each step gives, and none but the last of them had to be
the last. -/
theorem manyUntil {isLast : α → Bool} {step : Parse (Option α)}
    (hstep : Keeps I step fun o => ∀ a ∈ o, Q a) :
    Keeps I (manyUntil isLast step) fun as =>
      (∀ a ∈ as, Q a) ∧ ∀ a ∈ as.dropLast, isLast a = false :=
  fun c as d hc h => manyWithin hstep _ c as d hc h

theorem many {step : Parse (Option α)} (hstep : Keeps I step fun o => ∀ a ∈ o, Q a) :
    Keeps I (many step) fun as => ∀ a ∈ as, Q a :=
  (manyUntil hstep).mono fun _ h => h.1

/-- What a step keeps when it extends a value, growing keeps. -/
theorem grow {step : α → Parse (Option α)}
    (hstep : ∀ a, Q a → Keeps I (step a) fun o => ∀ b ∈ o, Q b) {a : α} (ha : Q a) :
    Keeps I (grow step a) Q := by
  have hwithin : ∀ (rounds : List Token) (a : α), Q a → Keeps I (growWithin step rounds a) Q := by
    intro rounds
    induction rounds with
    | nil => exact fun a _ => stuck
    | cons t rounds ih =>
        intro a ha
        refine (hstep a ha).bind fun o ho => ?_
        cases o with
        | none => exact pure ha
        | some b => exact ih b (ho b rfl)
  exact fun c b d hc h => hwithin _ a ha c b d hc h

/-! ## Parsers that pass tokens -/

section Stable

variable [Cursor.Stable I]

theorem take : Keeps I take fun _ => True := by
  intro c i d hc h
  cases h
  exact ⟨trivial, Cursor.Stable.next hc⟩

theorem freshName : Keeps I freshName fun _ => True := by
  intro c i d hc h
  cases h
  exact ⟨trivial, Cursor.Stable.numbered _ hc⟩

theorem symbol {s : String} : Keeps I (symbol s) fun _ => True := by
  refine peek.bind fun t _ => ?_
  split
  · exact take
  · exact expected

theorem symbol? {s : String} : Keeps I (symbol? s) fun _ => True := by
  refine peek.bind fun t _ => ?_
  split
  · exact take.map fun _ _ => trivial
  · exact pure trivial

theorem keyword {s : String} : Keeps I (keyword s) fun _ => True := by
  refine peek.bind fun t _ => ?_
  split
  · exact take
  · exact expected

theorem keyword? {s : String} : Keeps I (keyword? s) fun _ => True := by
  refine peek.bind fun t _ => ?_
  split
  · exact take.map fun _ _ => trivial
  · exact pure trivial

theorem name : Keeps I name fun _ => True := by
  refine peek.bind fun t _ => ?_
  split
  · exact take.bind fun _ _ => pure trivial
  · exact expected

theorem ident : Keeps I ident fun _ => True :=
  name.bind fun _ _ => freshName.bind fun _ _ => pure trivial

variable {item : Parse (α × List TokenId)}

theorem moreByComma (hitem : Keeps I item fun r => Q r.1) :
    Keeps I (moreByComma item) fun r => ∀ a ∈ r.1, Q a := by
  refine (many (Q := fun r : α × List TokenId => Q r.1) ?_).bind fun rest hrest => pure ?_
  · refine symbol?.bind fun o _ => ?_
    cases o with
    | none => exact pure nofun
    | some comma =>
        refine hitem.bind fun r hr => pure ?_
        rintro b ⟨⟩
        exact hr
  · intro a ha
    obtain ⟨r, hr, rfl⟩ := List.mem_map.1 ha
    exact hrest r hr

theorem commaSeparated (hitem : Keeps I item fun r => Q r.1) :
    Keeps I (commaSeparated item) fun r => r.1 ≠ [] ∧ ∀ a ∈ r.1, Q a := by
  refine hitem.bind fun r hr => (moreByComma hitem).bind fun more hmore => pure ⟨nofun, ?_⟩
  intro a ha
  rcases List.mem_cons.1 ha with rfl | ha
  · exact hr
  · exact hmore a ha

end Stable

end Keeps

end Parse

/-! ## Productions that hand out no part of a tree -/

namespace Nested

open Parse

variable {I : Cursor → Prop}

theorem keeps_separator? [Cursor.Stable I] : Keeps I separator? fun _ => True := by
  refine Keeps.symbol?.bind fun o _ => ?_
  cases o with
  | some comma => exact .pure trivial
  | none => exact .symbol?

theorem keeps_beginsStatement {bracketed : Bool} :
    Keeps I (beginsStatement bracketed) fun _ => True := by
  intro c b d hc h
  cases h
  exact ⟨trivial, hc⟩

end Nested

end LuaRestyle
