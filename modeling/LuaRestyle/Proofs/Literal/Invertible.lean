import LuaRestyle.Proofs.Literal.Evaluation
import LuaRestyle.Proofs.Restyle.Grouping
import Mathlib.Data.List.Forall2

/-!
# Literals are read back

The literal of a value without floats is an expression, and the value of the expression is the
value that was written, less the entries that no table has.

A literal is written piece by piece (`Writes`), and each form of value gives an expression that
spells its literal (`Expr.Spells`).  The program that returns the literal is then read back like
any other, and since it begins with `return` it has no other statement.
-/

namespace LuaRestyle

/-! ## Texts side by side -/

/-- A comma and the brackets that close stand behind any text but a point. -/
theorem apart_closer {a s : String} {c : Char} (ha : Plain a) (hs : s.toList = [c])
    (hc : c = ',' ∨ c = '\x7d' ∨ c = ']') : Apart a s := by
  have hword : isWordPart c = false := by rcases hc with rfl | rfl | rfl <;> rfl
  have hpoint : (c == '.') = false := by rcases hc with rfl | rfl | rfl <;> rfl
  have hfuses : ∀ x, fuses x c = false := by
    intro x
    unfold fuses
    split <;> first | rfl | exact absurd hc (by decide)
  refine ⟨ha.joins (by rw [hs]; exact hword), ?_⟩
  rw [keepApart, hs]
  cases a.toList.getLast? with
  | none => rfl
  | some x => simp [hword, hpoint, hfuses]

/-- The brackets that open and a minus stand in front of any text that begins with no symbol of
a few. -/
theorem apart_opener {a s : String} {x c : Char} {cs : List Char} (ha : a.toList = [x])
    (hx : x = '\x7b' ∨ x = '[' ∨ x = '-') (hs : s.toList = c :: cs)
    (hc : c ≠ '[' ∧ c ≠ '=' ∧ c ≠ '-') : Apart a s := by
  have hdigit : x.isDigit = false ∧ x ≠ '.' := by rcases hx with rfl | rfl | rfl <;> decide
  have hword : isWordPart x = false := by rcases hx with rfl | rfl | rfl <;> rfl
  have hnumeric : looksNumeric [x] = false := by rcases hx with rfl | rfl | rfl <;> rfl
  have hfuses : fuses x c = false := by
    unfold fuses
    split <;> first | rfl | exact absurd hc (by decide) | exact absurd hx (by decide)
  refine ⟨(mild_of_head ha hdigit.1 hdigit.2).joins s, ?_⟩
  simp [keepApart, ha, hs, hword, hnumeric, hfuses]

theorem plain_of_head {s : String} {c : Char} {cs : List Char} (hs : s.toList = c :: cs)
    (hc : c ≠ '.') : Plain s := by
  rintro rfl
  cases hs
  exact hc rfl

/-- Numbers begin with a digit and not with a symbol. -/
theorem exists_head_repr (n : Nat) :
    ∃ c cs, (Nat.repr n).toList = c :: cs ∧ (c ≠ '[' ∧ c ≠ '=' ∧ c ≠ '-') ∧ c ≠ '.' := by
  obtain ⟨c, cs, hcs⟩ := List.exists_cons_of_ne_nil (Numeral.is_repr n).ne_nil
  have hdigit : c.isDigit = true := by
    apply Numeral.isDigit_of_mem_toDigits (n := n)
    rw [← Nat.toList_repr, hcs]
    exact List.mem_cons_self
  refine ⟨c, cs, hcs, ⟨?_, ?_, ?_⟩, ?_⟩ <;> rintro rfl <;> exact absurd hdigit (by decide)

/-! ## Writing piece by piece -/

/-- Behind a text that satisfies `S` the marks are written as `text`, up to a text that satisfies
`T`: what can be written behind such a text can be written behind them. -/
def Writes (S T : String → Prop) (ms : List Mark) (text : String) : Prop :=
  ∀ last, S last → ∀ (rest : List Mark) (cs : List Char), (∀ a, T a → Inked a rest cs) →
    Inked last (ms ++ rest) (text.toList ++ cs)

namespace Writes

variable {S S' T T' U : String → Prop} {ms ms' : List Mark} {text text' : String}

theorem append (h : Writes S T ms text) (h' : Writes T U ms' text') :
    Writes S U (ms ++ ms') (text ++ text') := by
  intro last hlast rest cs hrest
  rw [List.append_assoc, String.toList_append, List.append_assoc]
  exact h last hlast _ _ fun a ha => h' a ha rest cs hrest

theorem mono (h : Writes S T ms text) (hS : ∀ a, S' a → S a) (hT : ∀ a, T a → T' a) :
    Writes S' T' ms text :=
  fun last hlast rest cs hrest => h last (hS last hlast) rest cs fun a ha => hrest a (hT a ha)

theorem nil : Writes S S [] "" := fun last hlast _ _ hrest => hrest last hlast

theorem lexeme {s : String} (hs : IsLexeme s) (hapart : ∀ a, S a → a ≠ "" → Apart a s)
    (hT : T s) : Writes S T [some s] s :=
  fun last hlast _ _ hrest => .text hs (hapart last hlast) (hrest s hT)

theorem closer {s : String} {c : Char} (hs : s.toList = [c])
    (hc : c = ',' ∨ c = '\x7d' ∨ c = ']') (hsymbol : s ∈ symbols) (hT : T s) :
    Writes Plain T [some s] s :=
  lexeme ⟨_, Lexeme.is_symbol hsymbol⟩ (fun _ ha _ => apart_closer ha hs hc) hT

theorem equals : Writes S (· = "") [some "="] " = " := fun _ _ _ _ hrest =>
  .blank (.inl rfl) (.text ⟨_, Lexeme.is_symbol (by decide)⟩ (absurd rfl)
    (.blank (.inl rfl) (hrest "" rfl)))

theorem comma : Writes Plain (· = "") [some ","] ", " := fun _ ha _ _ hrest =>
  .text ⟨_, Lexeme.is_symbol (by decide)⟩ (fun _ => apart_closer ha rfl (.inl rfl))
    (.blank (.inl rfl) (hrest "" rfl))

end Writes

def FieldStart (a : String) : Prop := a = "" ∨ a = "\x7b"

def ValueStart (a : String) : Prop := FieldStart a ∨ a = "["

theorem Writes.valueStart {T : String → Prop} {s : String} {c : Char} {cs : List Char}
    (hs : IsLexeme s) (hhead : s.toList = c :: cs) (hc : c ≠ '[' ∧ c ≠ '=' ∧ c ≠ '-') (hT : T s) :
    Writes ValueStart T [some s] s := by
  refine .lexeme hs ?_ hT
  rintro a ((rfl | rfl) | rfl) hne
  · exact absurd rfl hne
  · exact apart_opener rfl (.inl rfl) hhead hc
  · exact apart_opener rfl (.inr (.inl rfl)) hhead hc

theorem Writes.inField {T : String → Prop} {ms : List Mark} {text : String}
    (h : Writes ValueStart T ms text) : Writes FieldStart T ms text :=
  h.mono (fun _ => .inl) fun _ => id

theorem Writes.behindBlank {T : String → Prop} {ms : List Mark} {text : String}
    (h : Writes ValueStart T ms text) : Writes (· = "") T ms text :=
  h.mono (fun _ ha => .inl (.inl ha)) fun _ => id

/-! ## Expressions that spell a literal -/

namespace Expr

/-- The expression is written as `text` and has the value `v`. -/
structure Spells (e : Expr) (text : String) (v : Value) : Prop where
  grammar : Grammar.expr e = true
  writes : Writes ValueStart Plain (Marks.expr e) text
  value : e.value? = some v

namespace Spells

theorem word {e : Expr} {s : String} {v : Value} (hs : s = "nil" ∨ s = "true" ∨ s = "false")
    (hgrammar : Grammar.expr e = true) (hmarks : Marks.expr e = [some s])
    (hvalue : e.value? = some v) : e.Spells s v := by
  refine ⟨hgrammar, ?_, hvalue⟩
  rw [hmarks]
  rcases hs with rfl | rfl | rfl <;>
    exact .valueStart ⟨_, Lexeme.is_keyword (by decide)⟩ rfl (by decide) (Mild.plain (by decide))

theorem string (text : String) :
    Spells { form := .string (quote text) } (quote text) (.string text) := by
  have hlexeme := Quoted.is_quote text
  have hhead := Quoted.toList_quote text
  refine ⟨isLiteral_iff.2 hlexeme, ?_, ?_⟩
  · exact .valueStart ⟨_, hlexeme⟩ hhead (by decide) (plain_of_head hhead (by decide))
  · rw [value?, Quoted.text?_quote]
    rfl

theorem number {n : Nat} (h : (n : Int) ≤ Int64.maxValue.toInt) :
    Spells { form := .number (Nat.repr n) } (Nat.repr n) (.integer (Int64.ofNat n)) := by
  obtain ⟨c, cs, hhead, hc, hpoint⟩ := exists_head_repr n
  refine ⟨isLiteral_iff.2 (Numeral.is_repr n), ?_, ?_⟩
  · exact .valueStart ⟨_, Numeral.is_repr n⟩ hhead hc (plain_of_head hhead hpoint)
  · rw [value?, Numeral.integer?_repr h]
    rfl

theorem minus {n : Nat} (h : (n : Int) ≤ Int64.maxValue.toInt) :
    Spells { form := .unary .neg { form := .number (Nat.repr n) } } ("-" ++ Nat.repr n)
      (.integer (-Int64.ofNat n)) := by
  obtain ⟨c, cs, hhead, hc, hpoint⟩ := exists_head_repr n
  have hnumber := number h
  refine ⟨?_, ?_, ?_⟩
  · rw [Grammar.expr, hnumber.grammar]
    rfl
  · rw [Marks.expr_unary]
    have hminus : Writes ValueStart (· = "-") [some "-"] "-" := by
      refine .lexeme ⟨_, Lexeme.is_symbol (by decide)⟩ ?_ rfl
      rintro a ((rfl | rfl) | rfl) hne
      · exact absurd rfl hne
      · exact ⟨Mild.joins (by decide) _, rfl⟩
      · exact ⟨Mild.joins (by decide) _, rfl⟩
    have hdigits : Writes (· = "-") Plain [some (Nat.repr n)] (Nat.repr n) := by
      refine .lexeme ⟨_, Numeral.is_repr n⟩ ?_ (plain_of_head hhead hpoint)
      rintro a rfl -
      exact apart_opener rfl (.inr (.inr rfl)) hhead hc
    exact hminus.append hdigits
  · rw [value?, hnumber.value]
    rfl

theorem least : Spells { form := .member { form := .name ⟨"math", 0⟩ } "mininteger" }
    "math.mininteger" (.integer Int64.minValue) := by
  refine ⟨by decide, ?_, rfl⟩
  have hmath : Writes ValueStart (· = "math") [some "math"] "math" :=
    .valueStart ⟨_, Lexeme.isName_iff.1 (by decide)⟩ rfl (by decide) rfl
  have hpoint : Writes (· = "math") (· = ".") [some "."] "." := by
    refine .lexeme ⟨_, Lexeme.is_symbol (by decide)⟩ ?_ rfl
    rintro a rfl -
    exact ⟨Mild.joins (by decide) _, rfl⟩
  have hfield : Writes (· = ".") Plain [some "mininteger"] "mininteger" := by
    refine .lexeme ⟨_, Lexeme.isName_iff.1 (by decide)⟩ ?_ (Mild.plain (by decide))
    rintro a rfl -
    exact ⟨joins_point_of_isName (by decide), rfl⟩
  have htext : "math.mininteger" = "math" ++ "." ++ "mininteger" := rfl
  rw [htext, Marks.expr_member]
  exact (hmath.append hpoint).append hfield

/-- Every integer has an expression. -/
theorem exists_integer (i : Int64) : ∃ e : Expr, e.Spells (integerLiteral i) (.integer i) := by
  unfold integerLiteral
  split
  case isTrue h => exact ⟨_, h ▸ least⟩
  case isFalse h =>
    have hi := Int64.ofInt_toInt i
    cases hint : i.toInt with
    | ofNat n =>
        rw [hint] at hi
        have hle : Int.ofNat n ≤ Int64.maxValue.toInt := hint ▸ Int64.toInt_le i
        have hspells := number hle
        rw [← Int64.ofInt_eq_ofNat, show Int64.ofInt (n : Int) = i from hi] at hspells
        exact ⟨_, hspells⟩
    | negSucc n =>
        rw [hint] at hi
        -- Without its sign every integer has 64 bits but for the least.
        have hne : i.toInt ≠ Int64.minValue.toInt := fun heq => h (Int64.toInt_inj.1 heq)
        have hge : Int64.minValue.toInt ≤ i.toInt := Int64.minValue_le_toInt i
        have hmin : Int64.minValue.toInt = -9223372036854775808 := rfl
        have hmax : Int64.maxValue.toInt = 9223372036854775807 := rfl
        have hle : ((n + 1 : Nat) : Int) ≤ Int64.maxValue.toInt := by omega
        have hspells := minus hle
        rw [← Int64.ofInt_eq_ofNat, Int64.neg_ofInt,
          show Int64.ofInt (-((n + 1 : Nat) : Int)) = i from hi] at hspells
        exact ⟨_, hspells⟩

end Spells

end Expr

/-! ## Fields and tables -/

structure Field.Spells (f : Field) (text : String) : Prop where
  grammar : Grammar.field f = true
  writes : Writes FieldStart Plain (Marks.field f) text

namespace Field.Spells

variable {e k : Expr} {text keyText name : String} {v key : Value}

theorem positional (h : e.Spells text v) : (Field.positional e).Spells text :=
  ⟨h.grammar, h.writes.inField⟩

theorem named (hname : isName name = true) (h : e.Spells text v) :
    (Field.named name e).Spells (name ++ " = " ++ text) := by
  obtain ⟨c, cs, hhead, hc⟩ := exists_head_of_isName hname
  have hne : c ≠ '[' ∧ c ≠ '=' ∧ c ≠ '-' := by
    refine ⟨?_, ?_, ?_⟩ <;> rintro rfl <;> exact absurd hc (by decide)
  have hfront : Writes ValueStart Plain [some name] name :=
    .valueStart ⟨_, Lexeme.isName_iff.1 hname⟩ hhead hne (mild_of_isName hname).plain
  refine ⟨?_, ?_⟩
  · rw [Grammar.field, hname, h.grammar]
    rfl
  · exact (hfront.inField.append .equals).append h.writes.behindBlank

theorem keyed (hk : k.Spells keyText key) (h : e.Spells text v) :
    (Field.keyed k e).Spells ("[" ++ keyText ++ "] = " ++ text) := by
  have hopen : Writes FieldStart (· = "[") [some "["] "[" := by
    refine .lexeme ⟨_, Lexeme.is_symbol (by decide)⟩ ?_ rfl
    rintro a (rfl | rfl) hne
    · exact absurd rfl hne
    · exact ⟨Mild.joins (by decide) _, rfl⟩
  have hclose : Writes Plain (· = "") ([some "]"] ++ [some "="]) ("]" ++ " = ") :=
    (Writes.closer (T := fun _ => True) rfl (.inr (.inr rfl)) (by decide) trivial).append .equals
  refine ⟨?_, ?_⟩
  · rw [Grammar.field, hk.grammar, h.grammar]
    rfl
  · have hkey := hk.writes.mono (fun _ => .inr) fun _ => id
    have hall := ((hopen.append hkey).append hclose).append h.writes.behindBlank
    simpa [Marks.field] using hall

theorem grammar_of_mem {fs : List Field} {texts : List String}
    (h : List.Forall₂ Field.Spells fs texts) : ∀ f ∈ fs, Grammar.field f = true := by
  induction h with
  | nil => exact List.forall_mem_nil _
  | cons hf _ ih => exact List.forall_mem_cons.2 ⟨hf.grammar, ih⟩

end Field.Spells

/-- Fields are written with a comma and a blank between them. -/
theorem Writes.separated {ms : List Mark} {text : String} {mss : List (List Mark)}
    {texts : List String} (h : Writes FieldStart Plain ms text)
    (hs : List.Forall₂ (Writes FieldStart Plain) mss texts) :
    Writes FieldStart Plain (ms ++ Part.behindCommas mss) (", ".intercalate (text :: texts)) := by
  induction hs generalizing ms text with
  | nil => simpa using h
  | @cons ms' text' mss texts h' _ ih =>
      rw [Part.behindCommas_cons, String.intercalate_cons_cons, String.append_assoc]
      exact h.append (Writes.comma.append ((ih h').mono (fun _ => .inl) fun _ => id))

theorem Expr.Spells.table {fs : List Field} {texts : List String} {entries : List (Value × Value)}
    (h : List.Forall₂ Field.Spells fs texts) (hvalue : Expr.entries? 1 fs = some entries) :
    Expr.Spells { form := .table { fields := fs } }
      ("\x7b" ++ ", ".intercalate texts ++ "\x7d") (.table entries) := by
  have hgrammar : Grammar.fields fs = true := Grammar.fields_iff.2 (Field.Spells.grammar_of_mem h)
  have hopen : Writes ValueStart (· = "\x7b") [some "\x7b"] "\x7b" :=
    .valueStart ⟨_, Lexeme.is_symbol (by decide)⟩ rfl (by decide) rfl
  have hfields : Writes (· = "\x7b") Plain (Marks.commaSeparated (fs.map Marks.field))
      (", ".intercalate texts) := by
    cases h with
    | nil => exact Writes.nil.mono (fun _ => id) fun a ha => ha ▸ Mild.plain (by decide)
    | cons hf hfs =>
        refine (Writes.separated hf.writes ?_).mono (fun _ => .inr) fun _ => id
        rw [List.forall₂_map_left_iff]
        exact hfs.imp fun _ _ hf => hf.writes
  have hclose : Writes Plain Plain [some "\x7d"] "\x7d" :=
    .closer rfl (.inr (.inl rfl)) (by decide) (Mild.plain (by decide))
  refine ⟨hgrammar, ?_, ?_⟩
  · rw [Marks.expr_table, Marks.table_eq]
    have hall := (hopen.append hfields).append hclose
    simpa using hall
  · rw [Expr.value?, hvalue]
    rfl

/-! ## Every value has an expression -/

namespace Value

theorem isKey_of_isFloatless {key : Value} (h : key.isFloatless = true) :
    key.isKey = !key.isNil := by
  cases key with
  | float => exact absurd h Bool.false_ne_true
  | _ => rfl

theorem exists_of_counts {key : Value} {next : Option Int} (h : key.counts next = true) :
    ∃ i, key = integer i ∧ next = some i.toInt := by
  cases key with
  | integer i => exact ⟨i, rfl, beq_iff_eq.1 h⟩
  | _ => exact absurd h Bool.false_ne_true

theorem of_name?_eq_some {key : Value} {name : String} (h : key.name? = some name) :
    key = string name ∧ isName name = true := by
  cases key with
  | string text =>
      simp only [name?, Option.ite_none_right_eq_some, Option.some.injEq] at h
      exact ⟨congrArg string h.2, h.2 ▸ h.1⟩
  | _ => cases h

mutual

/-- A value without floats has an expression. -/
theorem exists_spells : (v : Value) → v.isFloatless = true →
    ∃ e : Expr, e.Spells v.literal v.pruned
  | nil, _ => ⟨{ form := .nil }, .word (.inl rfl) rfl rfl rfl⟩
  | boolean true, _ => ⟨{ form := .true }, .word (.inr (.inl rfl)) rfl rfl rfl⟩
  | boolean false, _ => ⟨{ form := .false }, .word (.inr (.inr rfl)) rfl rfl rfl⟩
  | integer i, _ => Expr.Spells.exists_integer i
  | float _, h => absurd h Bool.false_ne_true
  | string text, _ => ⟨_, .string text⟩
  | table entries, h => by
      obtain ⟨fs, hspells, hentries⟩ := exists_fields entries h (some 1) 1 (by simp)
      exact ⟨_, .table hspells hentries⟩

/-- The entries of a table have fields.  As long as keys are counted, the key that comes next is
that of the next field without a key. -/
theorem exists_fields : (entries : List (Value × Value)) → entriesFloatless entries = true →
    ∀ (next : Option Int) (count : Nat), (∀ i ∈ next, i = count) →
    ∃ fs, List.Forall₂ Field.Spells fs (fields next entries) ∧
      Expr.entries? count fs = some (prunedEntries entries)
  | [], _, _, _, _ => ⟨[], .nil, rfl⟩
  | (key, value) :: entries, h, next, count, hnext => by
      rw [entriesFloatless, Bool.and_eq_true, Bool.and_eq_true] at h
      obtain ⟨⟨hkey, hvalue⟩, hentries⟩ := h
      rw [fields, prunedEntries, isKey_of_isFloatless hkey, Bool.not_not]
      split
      case isTrue hnil => exact exists_fields entries hentries next count hnext
      case isFalse hnil =>
        obtain ⟨e, he⟩ := exists_spells value hvalue
        split
        case isTrue hcounts =>
          obtain ⟨i, rfl, rfl⟩ := exists_of_counts hcounts
          have hi : i.toInt = count := hnext _ rfl
          obtain ⟨fs, hspells, hfs⟩ := exists_fields entries hentries (some (i.toInt + 1))
            (count + 1) (by simp [hi])
          refine ⟨.positional e :: fs, .cons (.positional he) hspells, ?_⟩
          rw [Expr.entries?, he.value, hfs, ← Int64.ofInt_eq_ofNat, ← hi, Int64.ofInt_toInt]
          rfl
        case isFalse =>
          -- From here on no key is counted, and no field is without one.
          obtain ⟨fs, hspells, hfs⟩ := exists_fields entries hentries none count (by simp)
          cases hname : key.name? with
          | some name =>
              obtain ⟨rfl, hisName⟩ := of_name?_eq_some hname
              refine ⟨.named name e :: fs, .cons (.named hisName he) hspells, ?_⟩
              rw [Expr.entries?, he.value, hfs]
              rfl
          | none =>
              obtain ⟨k, hk⟩ := exists_spells key hkey
              refine ⟨.keyed k e :: fs, .cons (.keyed hk he) hspells, ?_⟩
              rw [Expr.entries?, hk.value, he.value, hfs]
              rfl

end

end Value

/-! ## Programs that return a literal -/

theorem Token.closesBlock_of_return {t : Token} (h : t.isKeyword "return" = true) :
    t.closesBlock = false := by
  rw [Token.isKeyword, Bool.and_eq_true, beq_iff_eq, beq_iff_eq] at h
  rw [Token.closesBlock, h.1, h.2]
  rfl

namespace Nested

open Parse

variable {inner : Nested} {c d : Cursor}

theorem form_of_returnValues {form : StatForm} {own : List TokenId}
    (h : inner.returnValues c = .ok (form, own) d) : ∃ values, form = .return values := by
  rw [returnValues, bind_eq_ok] at h
  obtain ⟨first, c', -, h⟩ := h
  rw [peek_bind] at h
  split at h
  case isTrue => exact ⟨[], (congrArg Prod.fst (pure_eq_ok.1 h).1).symm⟩
  case isFalse =>
    obtain ⟨⟨values, commas⟩, c'', -, h⟩ := bind_eq_ok.1 h
    exact ⟨values, (congrArg Prod.fst (pure_eq_ok.1 h).1).symm⟩

/-- A statement that begins with `return` is one. -/
theorem form_of_stat? {s : Stat} (hc : c.current.isKeyword "return" = true)
    (h : inner.stat? c = .ok (some s) d) : ∃ values, s.form = .return values := by
  have hcloses := Token.closesBlock_of_return hc
  rw [Token.isKeyword, Bool.and_eq_true, beq_iff_eq, beq_iff_eq] at hc
  have hopening : Opening.ofToken c.current = .return := by
    rw [Opening.ofToken, hc.1, hc.2]
    rfl
  have hsymbol : c.current.isSymbol ";" = false := by
    rw [Token.isSymbol, hc.1]
    rfl
  rw [stat?, peek_bind, hcloses, if_neg Bool.false_ne_true, hsymbol, if_neg Bool.false_ne_true,
    bind_eq_ok] at h
  obtain ⟨s', c₁, hstat, h⟩ := h
  rw [stat, peek_bind, hopening, bind_eq_ok] at hstat
  obtain ⟨⟨form, own⟩, c₂, hform, hstat⟩ := hstat
  obtain ⟨values, rfl⟩ := form_of_returnValues hform
  obtain ⟨rfl, -⟩ := pure_eq_ok.1 hstat
  obtain ⟨semicolon, c₃, -, h⟩ := bind_eq_ok.1 h
  exact ⟨values, Option.some.inj (pure_eq_ok.1 h).1 ▸ rfl⟩

/-- A block that begins with `return` has no other statement. -/
theorem statements_of_return {body : List Stat} (hc : c.current.isKeyword "return" = true)
    (h : inner.statements c = .ok body d) : ∃ s values, body = [s] ∧ s.form = .return values := by
  obtain ⟨hfound, hlast, hend⟩ := found_of_manyUntil (fun _ _ h => (stat?_eq_none h).2) h
  cases hfound with
  | nil =>
      obtain ⟨s, hs, -⟩ | hnone := hend
      · cases hs
      · exact absurd (stat?_eq_none hnone).1 (by simp [Token.closesBlock_of_return hc])
  | @cons _ _ _ s ss hs hss =>
      obtain ⟨values, hform⟩ := form_of_stat? hc hs
      cases ss with
      | nil => exact ⟨s, values, rfl, hform⟩
      | cons s' ss =>
          have hopen := hlast s (by simp)
          rw [Stat.endsBlock, hform] at hopen
          cases hopen

end Nested

theorem body_of_return {tokens : List Token} {chunk : Chunk} {t : Token}
    (h : parse (t :: tokens) = .ok chunk) (ht : t.isKeyword "return" = true) :
    ∃ s values, chunk.body = [s] ∧ s.form = .return values := by
  obtain ⟨c, d, -, -, -, hahead, -, -, -, htokens, hblock⟩ := parse_eq_ok h
  obtain ⟨tail, heq, -⟩ := closeStream_eq (t :: tokens)
  rw [← htokens, heq] at hahead
  have hcurrent : c.current = t := (List.cons.inj hahead).1
  exact Nested.statements_of_return (hcurrent ▸ ht) hblock

/-- A program that is written as `return` and an expression returns an expression of the same
core and does nothing else. -/
theorem readProgram_return {e : Expr} {text : String} (hgrammar : Grammar.expr e = true)
    (h : Writes ValueStart Plain (Marks.expr e) text) :
    ∃ chunk s e', readProgram ("return " ++ text) = .ok chunk ∧ chunk.body = [s] ∧
      s.form = .return [e'] ∧ Core.expr (fun _ => 0) e' = Core.expr (fun _ => 0) e := by
  have hchunk : (Chunk.returning e 0).isGrammatical = true := by
    simp [Chunk.isGrammatical, Chunk.returning, Grammar.stats, Grammar.stat, Grammar.exprs,
      hgrammar]
  have hmarks : Layout.marks (Layout.pieces (·.name) (Chunk.returning e 0)) =
      some "return" :: Marks.expr e := by
    have hstat := Marks.stat_return {} none [e]
    have hending := Marks.marks_ending { form := .return [e] } []
    simp only [Marks.stat, Marks.commaSeparated, List.map_cons, List.map_nil,
      Part.behindCommas_nil, List.append_nil] at hstat
    have hdivider : Marks.divider [] = [] := rfl
    simp [Layout.pieces, Chunk.returning, Layout.statements, Stat.isEmpty, Stat.isFunction, hstat,
      hending, hdivider]
  have hinked : Inked "" (some "return" :: Marks.expr e) ("return " ++ text).toList := by
    have hword : Writes (· = "") (· = "") [some "return"] "return " := fun _ ha _ _ hrest =>
      .text ⟨_, Lexeme.is_keyword (by decide)⟩ (absurd ha) (.blank (.inl rfl) (hrest "" rfl))
    have hall := hword.append h.behindBlank
    simpa using hall "" rfl [] [] fun a _ => .nil a
  rw [← hmarks] at hinked
  obtain ⟨ts, htokens, hset⟩ := tokenize_of_inked hinked
  obtain ⟨chunk, hparse, hcore⟩ := parse_of_typeset_all hchunk hset
  have hcore := hcore (fun _ => 0) (numbered_forget 0 _)
  rw [hmarks] at hset
  cases hset with
  | @text _ _ t _ _ ts htext hkind _ _ =>
      have ht : t.isKeyword "return" = true := by
        rw [Token.isKeyword, htext, hkind]
        rfl
      obtain ⟨⟨form, o, semicolon⟩, values, hbody, rfl⟩ := body_of_return hparse ht
      rw [core_returning, Chunk.core, hbody] at hcore
      have hvalues : Core.exprs (fun _ => 0) values = [Core.expr (fun _ => 0) e] :=
        StatForm.return.inj (congrArg Stat.form (List.cons.inj hcore).1)
      rw [Core.exprs_eq_map, List.map_eq_singleton_iff] at hvalues
      obtain ⟨e', rfl, he'⟩ := hvalues
      exact ⟨chunk, _, e', by simp only [readProgram, htokens, hparse], hbody, rfl, he'⟩

/-- A value without floats, written as a literal, is read back: the program that returns the
literal has no other statement and returns nothing else, and the expression stands for the
value less the entries under `nil`, at every depth and with the others in their order. -/
theorem readProgram_literal {v : Value} (h : v.isFloatless = true) :
    ∃ chunk s e, readProgram ("return " ++ v.literal) = .ok chunk ∧ chunk.body = [s] ∧
      s.form = .return [e] ∧ e.value? = some v.pruned := by
  obtain ⟨e, hspells⟩ := v.exists_spells h
  obtain ⟨chunk, s, e', hread, hbody, hform, hcore⟩ :=
    readProgram_return hspells.grammar hspells.writes
  refine ⟨chunk, s, e', hread, hbody, hform, ?_⟩
  rw [← Expr.value?_core e', hcore, Expr.value?_core, hspells.value]

/-- A control character in front of a digit, the least integer, entries under `nil`, a reserved
word and a table for keys. -/
theorem readProgram_literal_keys :
    ∃ v : Value, v.isFloatless = true ∧
      v.literal = "\x7b\"\\0012\\\"\", math.mininteger, " ++
        "[\"end\"] = \x7b[\x7b\x7d] = -7\x7d, x = nil\x7d" ∧
      ∃ chunk s e, readProgram ("return " ++ v.literal) = .ok chunk ∧ chunk.body = [s] ∧
        s.form = .return [e] ∧
        e.value? = some (.table [(.integer 1, .string "\x012\""),
          (.integer 2, .integer Int64.minValue),
          (.string "end", .table [(.table [], .integer (-7))]), (.string "x", .nil)]) :=
  ⟨.table [(.integer 1, .string "\x012\""), (.nil, .boolean true),
      (.integer 2, .integer Int64.minValue),
      (.string "end", .table [(.nil, .nil), (.table [], .integer (-7))]), (.string "x", .nil)],
    rfl, by decide +kernel, readProgram_literal rfl⟩

end LuaRestyle
