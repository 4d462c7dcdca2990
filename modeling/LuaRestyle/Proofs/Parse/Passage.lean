import LuaRestyle.Parse.Cursor

/-!
# Passing over tokens

What a parser does to the cursor is that it passes over some tokens and numbers
some names.  `c.Passes ts d` is the first half: the stream ahead of `c` is `ts`
and then the stream ahead of `d`.  None of the tokens passed ends the stream,
and that is what keeps a closed stream closed.

The small parsers are described once, by equivalences.  They are read from left
to right where the outcome of a parser is known, and from right to left where
the stream is.
-/

namespace LuaRestyle

namespace Cursor

def ahead (c : Cursor) : List Token := c.current :: c.following

def Closed (c : Cursor) : Prop := ∃ t, c.ahead.getLast? = some t ∧ t.kind = .eof

/-- From `c` to `d` the tokens `ts` are passed, none of which is an end mark. -/
structure Passes (c : Cursor) (ts : List Token) (d : Cursor) : Prop where
  ahead_eq : c.ahead = ts ++ d.ahead
  index_eq : d.index = c.index + ts.length
  previous_eq : d.previous = ts.getLast?.or c.previous
  ne_eof : ∀ t ∈ ts, t.kind ≠ .eof

@[simp] theorem names_next (c : Cursor) : c.next.names = c.names := by
  unfold next
  split <;> rfl

namespace Passes

variable {c d e : Cursor} {ts us : List Token}

theorem refl (c : Cursor) : c.Passes [] c :=
  ⟨rfl, rfl, rfl, by simp⟩

/-- Numbering a name passes over nothing. -/
theorem numbered (c : Cursor) (n : Nat) : c.Passes [] { c with names := n } :=
  ⟨rfl, rfl, rfl, by simp⟩

theorem trans (h : c.Passes ts d) (h' : d.Passes us e) : c.Passes (ts ++ us) e := by
  refine ⟨?_, ?_, ?_, ?_⟩
  · rw [h.ahead_eq, h'.ahead_eq, List.append_assoc]
  · rw [h'.index_eq, h.index_eq, List.length_append, Nat.add_assoc]
  · rw [h'.previous_eq, h.previous_eq, List.getLast?_append]
    cases us.getLast? <;> simp
  · intro t ht
    rcases List.mem_append.1 ht with ht | ht
    · exact h.ne_eof t ht
    · exact h'.ne_eof t ht

theorem closed (h : c.Passes ts d) (hc : c.Closed) : d.Closed := by
  obtain ⟨t, ht, hk⟩ := hc
  refine ⟨t, ?_, hk⟩
  rw [h.ahead_eq, List.getLast?_append] at ht
  have hd : d.ahead.getLast? ≠ none := by simp [ahead]
  cases hl : d.ahead.getLast? with
  | none => exact absurd hl hd
  | some u => simpa [hl] using ht

end Passes

/-- In a closed stream every token but an end mark can be passed. -/
theorem Closed.passes_next {c : Cursor} (hc : c.Closed) (h : c.current.kind ≠ .eof) :
    c.Passes [c.current] c.next := by
  obtain ⟨t, ht, hk⟩ := hc
  cases hf : c.following with
  | nil =>
      rw [ahead, hf, List.getLast?_singleton] at ht
      cases ht
      exact absurd hk h
  | cons u us =>
      rw [next, hf]
      refine ⟨?_, rfl, rfl, ?_⟩
      · simp [ahead, hf]
      · simpa using h

end Cursor

namespace Token

theorem kind_of_isSymbol {t : Token} {s : String} (h : t.isSymbol s = true) :
    t.kind = .symbol := by
  simp only [isSymbol, Bool.and_eq_true, beq_iff_eq] at h
  exact h.1

theorem text_of_isSymbol {t : Token} {s : String} (h : t.isSymbol s = true) :
    t.text = s := by
  simp only [isSymbol, Bool.and_eq_true, beq_iff_eq] at h
  exact h.2

theorem kind_of_isKeyword {t : Token} {s : String} (h : t.isKeyword s = true) :
    t.kind = .keyword := by
  simp only [isKeyword, Bool.and_eq_true, beq_iff_eq] at h
  exact h.1

theorem text_of_isKeyword {t : Token} {s : String} (h : t.isKeyword s = true) :
    t.text = s := by
  simp only [isKeyword, Bool.and_eq_true, beq_iff_eq] at h
  exact h.2

end Token

namespace Parse

variable {α β : Type} {c d : Cursor} {i : TokenId} {s : String}

@[simp] theorem peek_bind (f : Token → Parse α) : (peek >>= f) c = f c.current c := rfl

@[simp] theorem peekNext_bind (f : Token → Parse α) :
    (peekNext >>= f) c = f (c.following.headD c.current) c := rfl

theorem map_eq_ok {p : Parse α} {f : α → β} {b : β} :
    (f <$> p) c = .ok b d ↔ ∃ a, p c = .ok a d ∧ f a = b := by
  change (p >>= fun a => pure (f a)) c = _ ↔ _
  rw [bind_eq_ok]
  constructor
  · rintro ⟨a, d', hp, hb⟩
    cases hb
    exact ⟨a, hp, rfl⟩
  · rintro ⟨a, hp, rfl⟩
    exact ⟨a, d, hp, rfl⟩

@[simp] theorem pure_eq_ok {a b : α} : (pure a : Parse α) c = .ok b d ↔ a = b ∧ c = d := by
  simp

@[simp] theorem expected_ne_ok {a : α} : (expected s : Parse α) c ≠ .ok a d := by
  simp [expected]

@[simp] theorem refuse_ne_ok {a : α} {fault : ParseFault} :
    (refuse fault : Parse α) c ≠ .ok a d := by
  simp [refuse]

@[simp] theorem stuck_ne_ok {a : α} : (stuck : Parse α) c ≠ .ok a d := by
  simp [stuck]

theorem take_eq_ok : take c = .ok i d ↔ i = c.index ∧ d = c.next := by
  simp [take, eq_comm]

theorem freshName_eq_ok {n : NameId} :
    freshName c = .ok n d ↔ n = c.names ∧ d = { c with names := c.names + 1 } := by
  simp [freshName, eq_comm]

theorem symbol_eq_ok :
    symbol s c = .ok i d ↔ c.current.isSymbol s = true ∧ i = c.index ∧ d = c.next := by
  simp only [symbol, peek_bind]
  split <;> simp_all [take_eq_ok]

theorem symbol?_eq_some :
    symbol? s c = .ok (some i) d ↔
      c.current.isSymbol s = true ∧ i = c.index ∧ d = c.next := by
  simp only [symbol?, peek_bind]
  split <;> simp_all [map_eq_ok, take_eq_ok]

theorem symbol?_eq_none :
    symbol? s c = .ok none d ↔ c.current.isSymbol s = false ∧ d = c := by
  simp only [symbol?, peek_bind]
  split <;> simp_all [map_eq_ok, eq_comm (a := c)]

theorem keyword_eq_ok :
    keyword s c = .ok i d ↔ c.current.isKeyword s = true ∧ i = c.index ∧ d = c.next := by
  simp only [keyword, peek_bind]
  split <;> simp_all [take_eq_ok]

theorem keyword?_eq_some :
    keyword? s c = .ok (some i) d ↔
      c.current.isKeyword s = true ∧ i = c.index ∧ d = c.next := by
  simp only [keyword?, peek_bind]
  split <;> simp_all [map_eq_ok, take_eq_ok]

theorem keyword?_eq_none :
    keyword? s c = .ok none d ↔ c.current.isKeyword s = false ∧ d = c := by
  simp only [keyword?, peek_bind]
  split <;> simp_all [map_eq_ok, eq_comm (a := c)]

theorem name_eq_ok {text : String} :
    name c = .ok (text, i) d ↔
      c.current.kind = .ident ∧ text = c.current.text ∧ i = c.index ∧ d = c.next := by
  simp only [name, peek_bind]
  split
  case isTrue h =>
    simp [h, bind_eq_ok, take_eq_ok, eq_comm (b := text), eq_comm (b := d),
      eq_comm (b := i), and_assoc]
  case isFalse h => simp [h]

theorem ident_eq_ok {x : Ident} :
    ident c = .ok (x, i) d ↔
      c.current.kind = .ident ∧ x = ⟨c.current.text, c.names⟩ ∧ i = c.index ∧
        d = { c.next with names := c.names + 1 } := by
  simp only [ident, bind_eq_ok, Prod.exists, name_eq_ok, freshName_eq_ok, pure_eq_ok]
  constructor
  · rintro ⟨text, j, c', ⟨hk, rfl, rfl, rfl⟩, n, e, ⟨rfl, rfl⟩, hx, rfl⟩
    cases hx
    simp [hk]
  · rintro ⟨hk, rfl, rfl, rfl⟩
    exact ⟨_, _, _, ⟨hk, rfl, rfl, rfl⟩, _, _, ⟨rfl, rfl⟩, by simp⟩

end Parse

end LuaRestyle
