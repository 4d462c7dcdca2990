import LuaRestyle.Proofs.Layout.Marks
import LuaRestyle.Proofs.Parse.Repetition
import LuaRestyle.Proofs.Tree.Core

/-!
# What the stream offers

`c.Offers number n broken ms xs` says that the tokens from `c` on carry the marks `ms`,
that fewer than `n` tokens follow the current one, and that the occurrences that are
numbered from here on get the numbers of `xs`, as far as `number` tells numbers apart.
`p.Yields number n c P ms xs` says that the parser `p` succeeds at `c` with a value that
satisfies `P`, where the stream then offers the marks `ms` and the occurrences `xs`.

A production is read back by following its template: each text is taken off the front
of the marks, and each nested node by what is known of the nested parser.
-/

namespace LuaRestyle

/-- Tokens of the same kind and text, wherever they stand. -/
structure Token.Alike (t u : Token) : Prop where
  kind_eq : t.kind = u.kind
  text_eq : t.text = u.text

namespace Token.Alike

variable {t u : Token} (h : t.Alike u)

include h

theorem isSymbol_eq (s : String) : t.isSymbol s = u.isSymbol s := by
  rw [isSymbol, isSymbol, h.kind_eq, h.text_eq]

theorem isKeyword_eq (s : String) : t.isKeyword s = u.isKeyword s := by
  rw [isKeyword, isKeyword, h.kind_eq, h.text_eq]

theorem operator?_eq : t.operator? = u.operator? := by
  rw [operator?, operator?, h.kind_eq, h.text_eq]

theorem closesBlock_eq : t.closesBlock = u.closesBlock := by
  rw [closesBlock, closesBlock, h.kind_eq, h.text_eq]

theorem atom?_eq : Nested.atom? t = Nested.atom? u := by
  rw [Nested.atom?, Nested.atom?, h.kind_eq, h.text_eq]

theorem opening_eq : Opening.ofToken t = Opening.ofToken u := by
  rw [Opening.ofToken, Opening.ofToken, h.kind_eq, h.text_eq]

end Token.Alike

/-- The occurrences are numbered like those that come into being from the `n`-th on. -/
def Numbered (number : NameId → NameId) : Nat → List Ident → Prop
  | _, [] => True
  | n, x :: xs => number x.id = number n ∧ Numbered number (n + 1) xs

/-- Where numbers are forgotten, all are in order. -/
theorem numbered_forget (n : Nat) (xs : List Ident) : Numbered (fun _ => 0) n xs := by
  induction xs generalizing n with
  | nil => trivial
  | cons x xs ih => exact ⟨rfl, ih (n + 1)⟩

theorem numbered_id {n : Nat} {xs : List Ident}
    (h : xs.map (·.id) = List.range' n xs.length) : Numbered id n xs := by
  induction xs generalizing n with
  | nil => trivial
  | cons x xs ih =>
      rw [List.map_cons, List.length_cons, List.range'_succ] at h
      exact ⟨(List.cons.inj h).1, ih (List.cons.inj h).2⟩

namespace Typeset

variable {previous : Option Token} {broken : Bool} {ms : List Mark} {ts : List Token}

theorem length_eq (h : Typeset previous broken ms ts) :
    ts.length = ms.countP (·.isSome) := by
  induction h with
  | nil => rfl
  | line _ ih => simpa using ih
  | text _ _ _ _ ih => simpa using ih

theorem head (h : Typeset previous broken ms ts) {s : String} (hs : firstText ms = some s) :
    ∃ t us, ts = t :: us ∧ t.Alike (Lexeme.token s) := by
  induction h with
  | nil => cases hs
  | line _ ih => exact ih hs
  | text htext hkind =>
      cases hs
      exact ⟨_, _, rfl, hkind, htext⟩

end Typeset

theorem exists_firstText {ms : List Mark} (h : ms.getLast? = some (some "")) :
    ∃ s, firstText ms = some s := by
  induction ms with
  | nil => cases h
  | cons m ms ih =>
      cases m with
      | some s => exact ⟨s, rfl⟩
      | none =>
          cases ms with
          | nil => cases h
          | cons m' ms => exact ih (by rwa [List.getLast?_cons_cons] at h)

namespace Cursor

/-- The stream ahead carries the marks `ms`, is shorter than `n` behind the current token,
and the next occurrences are numbered like `xs`. -/
structure Offers (number : NameId → NameId) (c : Cursor) (n : Nat) (broken : Bool)
    (ms : List Mark) (xs : List Ident) : Prop where
  typeset : Typeset c.previous broken ms c.ahead
  numbered : Numbered number c.names xs
  closed : ms.getLast? = some (some "")
  bound : c.following.length < n

namespace Offers

variable {number : NameId → NameId} {c d : Cursor} {n m : Nat} {broken : Bool} {ms : List Mark}
  {xs : List Ident} {x : Ident} {s : String}

theorem mono (h : c.Offers number n broken ms xs) (hnm : n ≤ m) :
    c.Offers number m broken ms xs :=
  ⟨h.typeset, h.numbered, h.closed, Nat.lt_of_lt_of_le h.bound hnm⟩

theorem succ (h : c.Offers number n broken ms xs) : c.Offers number (n + 1) broken ms xs :=
  h.mono (Nat.le_succ n)

/-- Where a line may end, it does not matter whether it does. -/
theorem line (h : c.Offers number n broken (none :: ms) xs) : c.Offers number n true ms xs := by
  refine ⟨?_, h.numbered, ?_, h.bound⟩
  · cases h.typeset with
    | line h => exact h
  · cases ms with
    | nil => cases h.closed
    | cons m ms => exact h.closed

theorem current (h : c.Offers number n broken ms xs) (hs : firstText ms = some s) :
    c.current.Alike (Lexeme.token s) := by
  obtain ⟨t, us, hts, ht⟩ := h.typeset.head hs
  rw [(List.cons.inj hts).1]
  exact ht

/-- Where fewer texts are offered, fewer tokens are left. -/
theorem less {m : Nat} {b : Bool} {ms' : List Mark} {ys : List Ident}
    (h : c.Offers number n broken ms xs) (h' : d.Offers number m b ms' ys)
    (hlt : ms'.countP (·.isSome) < ms.countP (·.isSome)) :
    d.following.length < c.following.length := by
  have hc : c.following.length + 1 = ms.countP (·.isSome) := h.typeset.length_eq
  have hd : d.following.length + 1 = ms'.countP (·.isSome) := h'.typeset.length_eq
  omega

/-- A text that is not the end mark can be taken. -/
theorem next (h : c.Offers number (n + 1) broken (some s :: ms) xs) (hs : s ≠ "") :
    c.next.Offers number n false ms xs := by
  obtain ⟨htypeset, hnumbered, hclosed, hbound⟩ := h
  have hms : ms.getLast? = some (some "") := by
    cases ms with
    | nil =>
        cases hclosed
        exact absurd rfl hs
    | cons m ms => rwa [List.getLast?_cons_cons] at hclosed
  obtain ⟨previous, current, following, index, names⟩ := c
  cases htypeset with
  | text htext hkind hline htypeset =>
      obtain ⟨r, hr⟩ := exists_firstText hms
      obtain ⟨t, us, rfl, -⟩ := htypeset.head hr
      refine ⟨htypeset, hnumbered, hms, ?_⟩
      simp only [Cursor.next, List.length_cons] at hbound ⊢
      omega

/-- The token behind the current one. -/
theorem following (h : c.Offers number n broken (some s :: ms) xs) {r : String}
    (hr : firstText ms = some r) :
    (c.following.headD c.current).Alike (Lexeme.token r) := by
  obtain ⟨previous, current, following, index, names⟩ := c
  cases h.typeset with
  | text htext hkind hline htypeset =>
      obtain ⟨t, us, rfl, ht⟩ := htypeset.head hr
      exact ht

/-- A text without a line break in front of it does not stand on a new line. -/
theorem not_onNewLine (h : c.Offers number n false (some s :: ms) xs) : c.onNewLine = false := by
  cases h.typeset with
  | text htext hkind hline htypeset => exact hline rfl

/-- An occurrence is numbered. -/
theorem fresh (h : c.Offers number n broken ms (x :: xs)) :
    number x.id = number c.names ∧
      ({ c with names := c.names + 1 } : Cursor).Offers number n broken ms xs :=
  ⟨h.numbered.1, h.typeset, h.numbered.2, h.closed, h.bound⟩

end Offers

end Cursor

namespace Parse

variable {α β : Type}

/-- The parser succeeds with a value that satisfies `P`, and the stream offers the marks
`ms` and the occurrences `xs` from there on. -/
def Yields (number : NameId → NameId) (n : Nat) (p : Parse α) (c : Cursor) (P : α → Prop)
    (ms : List Mark) (xs : List Ident) : Prop :=
  ∃ a d, p c = .ok a d ∧ P a ∧ d.Offers number n false ms xs

variable {number : NameId → NameId} {n : Nat} {c : Cursor} {P Q : α → Prop} {R : β → Prop}
  {ms ms' : List Mark} {xs xs' : List Ident} {broken : Bool} {s : String} {x : Ident}

namespace Yields

theorem pure {a : α} (ha : P a) (h : c.Offers number n false ms xs) :
    Yields number n (pure a) c P ms xs :=
  ⟨a, c, rfl, ha, h⟩

theorem bind {m : Nat} {p : Parse α} {f : α → Parse β} (h : Yields number m p c P ms xs)
    (hf : ∀ a d, P a → d.Offers number m false ms xs → Yields number n (f a) d R ms' xs') :
    Yields number n (p >>= f) c R ms' xs' := by
  obtain ⟨a, d, hp, ha, hd⟩ := h
  obtain ⟨b, e, hb, hR, he⟩ := hf a d ha hd
  exact ⟨b, e, bind_eq_ok.2 ⟨a, d, hp, hb⟩, hR, he⟩

theorem peek {f : Token → Parse α} (h : Yields number n (f c.current) c P ms xs) :
    Yields number n (peek >>= f) c P ms xs := h

theorem peekNext {f : Token → Parse α}
    (h : Yields number n (f (c.following.headD c.current)) c P ms xs) :
    Yields number n (peekNext >>= f) c P ms xs := h

theorem fresh {f : NameId → Parse α}
    (h : Yields number n (f c.names) { c with names := c.names + 1 } P ms xs) :
    Yields number n (freshName >>= f) c P ms xs := h

theorem ite_bind {b : Bool} {p q : Parse α} {f : α → Parse β}
    (h : Yields number n ((if b then p else q) >>= f) c R ms xs) :
    Yields number n (if b then p >>= f else q >>= f) c R ms xs := by
  cases b <;> exact h

theorem map {p : Parse α} {f : α → β} (h : Yields number n p c P ms xs)
    (hf : ∀ a, P a → R (f a)) : Yields number n (f <$> p) c R ms xs := by
  obtain ⟨a, d, hp, ha, hd⟩ := h
  exact ⟨f a, d, map_eq_ok.2 ⟨a, hp, rfl⟩, hf a ha, hd⟩

theorem imp {p : Parse α} (h : Yields number n p c P ms xs) (hPQ : ∀ a, P a → Q a) :
    Yields number n p c Q ms xs := by
  obtain ⟨a, d, hp, ha, hd⟩ := h
  exact ⟨a, d, hp, hPQ a ha, hd⟩

theorem succ {p : Parse α} (h : Yields number n p c P ms xs) :
    Yields number (n + 1) p c P ms xs := by
  obtain ⟨a, d, hp, ha, hd⟩ := h
  exact ⟨a, d, hp, ha, hd.succ⟩

/-- A repetition reads item by item what is offered, if its step reads each item and finds
nothing at the end.  Each item may count on `S` for what is behind it. -/
theorem many {ι γ : Type} {step : Parse (Option α)} {marks : ι → List Mark}
    {occurrences : ι → List Ident} {view : α → γ} {target : ι → γ} {S : List Mark → Prop}
    {items : List ι}
    (hstep : ∀ i ∈ items, ∀ (c : Cursor) (ms : List Mark) (xs : List Ident), S ms →
      c.Offers number n false (marks i ++ ms) (occurrences i ++ xs) →
      Yields number n step c (fun o => ∃ a, o = some a ∧ view a = target i) ms xs)
    (hmarks : ∀ i ∈ items, 0 < (marks i).countP (·.isSome) ∧ ∀ ms, S (marks i ++ ms))
    (hend : ∀ d : Cursor, d.Offers number n false ms xs → step d = .ok none d) (hms : S ms)
    (h : c.Offers number n false (items.flatMap marks ++ ms) (items.flatMap occurrences ++ xs)) :
    Yields number n (many step) c (fun as => as.map view = items.map target) ms xs := by
  obtain ⟨as, d, hcollects, hview, hd⟩ : ∃ as d, Collects step c as d ∧
      as.map view = items.map target ∧ d.Offers number n false ms xs := by
    induction items generalizing c with
    | nil => exact ⟨[], c, .nil c, rfl, h⟩
    | cons i items ih =>
        rw [List.flatMap_cons, List.flatMap_cons, List.append_assoc, List.append_assoc] at h
        rw [List.forall_mem_cons] at hstep hmarks
        have hbehind : S (items.flatMap marks ++ ms) := by
          cases items with
          | nil => exact hms
          | cons j items =>
              rw [List.flatMap_cons, List.append_assoc]
              exact (hmarks.2 j List.mem_cons_self).2 _
        obtain ⟨o, c₁, ho, ⟨a, rfl, ha⟩, hc₁⟩ := hstep.1 c _ _ hbehind h
        obtain ⟨as, d, hcollects, hview, hd⟩ := ih hstep.2 hmarks.2 hc₁
        refine ⟨a :: as, d, .cons ho (h.less hc₁ ?_) hcollects, ?_, hd⟩
        · rw [@List.countP_append _ _ (marks i)]
          exact Nat.lt_add_of_pos_left hmarks.1.1
        · rw [List.map_cons, List.map_cons, ha, hview]
  exact ⟨as, d, many_of_collects hcollects (hend d hd), hview, hd⟩

end Yields

end Parse

namespace Cursor.Offers

open Parse

variable {number : NameId → NameId} {c : Cursor} {n : Nat} {broken : Bool} {ms : List Mark}
  {xs : List Ident} {x : Ident} {s r : String}

theorem take (h : c.Offers number (n + 1) broken (some s :: ms) xs) (hs : s ≠ "") :
    Yields number n take c (fun _ => True) ms xs :=
  ⟨_, _, rfl, trivial, h.next hs⟩

theorem symbol (h : c.Offers number (n + 1) broken (some s :: ms) xs) (hs : s ∈ symbols) :
    Yields number n (symbol s) c (fun _ => True) ms xs := by
  have hne : ∀ s ∈ symbols, s ≠ "" := by decide
  refine ⟨c.index, c.next, symbol_eq_ok.2 ⟨?_, rfl, rfl⟩, trivial, h.next (hne s hs)⟩
  rw [(h.current rfl).isSymbol_eq, Lexeme.isSymbol_token hs]

theorem symbol?_some (h : c.Offers number (n + 1) broken (some s :: ms) xs) (hs : s ∈ symbols) :
    Yields number n (symbol? s) c (fun o => o.isSome = true) ms xs := by
  have hne : ∀ s ∈ symbols, s ≠ "" := by decide
  refine ⟨some c.index, c.next, symbol?_eq_some.2 ⟨?_, rfl, rfl⟩, rfl, h.next (hne s hs)⟩
  rw [(h.current rfl).isSymbol_eq, Lexeme.isSymbol_token hs]

theorem symbol?_none (h : c.Offers number n false ms xs) (hr : firstText ms = some r)
    (hne : r ≠ s) : Yields number n (symbol? s) c (· = none) ms xs := by
  refine ⟨none, c, symbol?_eq_none.2 ⟨?_, rfl⟩, rfl, h⟩
  rw [(h.current hr).isSymbol_eq, Lexeme.ne_of_isSymbol hne]

theorem keyword (h : c.Offers number (n + 1) broken (some s :: ms) xs) (hs : s ∈ reservedWords) :
    Yields number n (keyword s) c (fun _ => True) ms xs := by
  have hne : ∀ s ∈ reservedWords, s ≠ "" := by decide
  refine ⟨c.index, c.next, keyword_eq_ok.2 ⟨?_, rfl, rfl⟩, trivial, h.next (hne s hs)⟩
  rw [(h.current rfl).isKeyword_eq, Lexeme.isKeyword_token hs]

theorem keyword?_some (h : c.Offers number (n + 1) broken (some s :: ms) xs)
    (hs : s ∈ reservedWords) :
    Yields number n (keyword? s) c (fun o => o.isSome = true) ms xs := by
  have hne : ∀ s ∈ reservedWords, s ≠ "" := by decide
  refine ⟨some c.index, c.next, keyword?_eq_some.2 ⟨?_, rfl, rfl⟩, rfl, h.next (hne s hs)⟩
  rw [(h.current rfl).isKeyword_eq, Lexeme.isKeyword_token hs]

theorem keyword?_none (h : c.Offers number n false ms xs) (hr : firstText ms = some r)
    (hne : r ≠ s) : Yields number n (keyword? s) c (· = none) ms xs := by
  refine ⟨none, c, keyword?_eq_none.2 ⟨?_, rfl⟩, rfl, h⟩
  rw [(h.current hr).isKeyword_eq, Lexeme.ne_of_isKeyword hne]

theorem freshName (h : c.Offers number n false ms (x :: xs)) :
    Yields number n freshName c (fun id => number id = number x.id) ms xs :=
  ⟨_, _, rfl, h.fresh.1.symm, h.fresh.2⟩

theorem name (h : c.Offers number (n + 1) broken (some s :: ms) xs) (hs : isName s = true) :
    Yields number n name c (fun a => a.1 = s) ms xs := by
  have hcurrent := h.current rfl
  have hne : s ≠ "" := by
    rintro rfl
    cases hs
  refine ⟨(c.current.text, c.index), c.next, name_eq_ok.2 ⟨?_, rfl, rfl, rfl⟩, hcurrent.text_eq,
    h.next hne⟩
  rw [hcurrent.kind_eq]
  exact Lexeme.kindOf_name hs

theorem ident (h : c.Offers number (n + 1) broken (some x.name :: ms) (x :: xs))
    (hx : isName x.name = true) :
    Yields number n ident c (fun a => Core.ident number a.1 = Core.ident number x) ms xs := by
  have hcurrent := h.current rfl
  have hne : x.name ≠ "" := by
    intro heq
    rw [heq] at hx
    cases hx
  obtain ⟨hid, hfresh⟩ := (h.next hne).fresh
  refine ⟨(⟨c.current.text, c.names⟩, c.index), _, ident_eq_ok.2 ⟨?_, rfl, rfl, rfl⟩, ?_, ?_⟩
  · rw [hcurrent.kind_eq]
    exact Lexeme.kindOf_name hx
  · rw [names_next] at hid
    simp only [Core.ident, hid]
    rw [hcurrent.text_eq]
    rfl
  · rwa [names_next] at hfresh

end Cursor.Offers

end LuaRestyle
