import LuaRestyle.Layout.Style
import LuaRestyle.Proofs.Token.Stream
import Mathlib.Data.List.Chain

/-!
# Reading back what a layout writes

The marks of a list of pieces are the texts it shows, in order, and between them
the places where a line may end.  Marks stand between a layout and a parser: the
compact and the expanded layout write them (`Inked`), the lexer turns what is
written into tokens that carry the same marks (`Typeset`), and nothing else about
those tokens matters to a parser.

Neighbours that are written without a blank between them have to be apart; what
that means for two texts is `Apart`.
-/

namespace LuaRestyle

abbrev Mark := Option String

namespace Piece

def isBlank : Piece → Bool
  | space | line | blankLine => true
  | _ => false

def mark? : Piece → Option Mark
  | line | blankLine => some none
  | p => p.text?.map some

end Piece

namespace Layout

def marks (ps : List Piece) : List Mark := ps.filterMap Piece.mark?

def texts (ps : List Piece) : List String := ps.filterMap Piece.text?

@[simp] theorem marks_nil : marks [] = [] := rfl

@[simp] theorem marks_append (ps qs : List Piece) : marks (ps ++ qs) = marks ps ++ marks qs :=
  List.filterMap_append

end Layout

/-- The second text does not make a longer number of the first. -/
structure Joins (a b : String) : Prop where
  runsInto_eq : runsInto a b = false
  isDigit_eq : a = "." → ∀ d ∈ b.toList.head?, d.isDigit = false

/-- Of two texts without a blank between them the first is read as it stands. -/
structure Apart (a b : String) : Prop extends Joins a b where
  keepApart_eq : keepApart a b = false

def IsLexeme (s : String) : Prop := ∃ k, Lexeme.Is k s.toList

/-- The characters write the marks behind the text `last`, which is empty if there is
none or a blank stands behind it. -/
inductive Inked : String → List Mark → List Char → Prop
  | nil (last : String) : Inked last [] []
  | blank {last : String} {ms : List Mark} {b : Char} {cs : List Char}
      (hb : b = ' ' ∨ b = '\t') (h : Inked "" ms cs) : Inked last ms (b :: cs)
  | line {last : String} {ms : List Mark} {cs : List Char} (h : Inked "" ms cs) :
      Inked last (none :: ms) ('\n' :: cs)
  | unbroken {last : String} {ms : List Mark} {cs : List Char} (h : Inked last ms cs) :
      Inked last (none :: ms) cs
  | text {last s : String} {ms : List Mark} {cs : List Char} (hs : IsLexeme s)
      (hapart : last ≠ "" → Apart last s) (h : Inked s ms cs) :
      Inked last (some s :: ms) (s.toList ++ cs)

namespace Lexeme

/-- The kind of a text that is a lexeme.  The empty text is an end mark. -/
def kindOf (s : String) : TokenKind :=
  match scan s.toList.length s.toList with
  | .ok (k, _) => k
  | .error _ => .eof

theorem Is.kindOf_eq {k : TokenKind} {s : String} (h : Is k s.toList) : kindOf s = k := by
  rw [kindOf, h.scan_eq]

end Lexeme

/-- The tokens carry the marks behind the token `previous`.  A token stands on a new
line only where a line may end; `broken` says whether one may end in front of the
first. -/
inductive Typeset : Option Token → Bool → List Mark → List Token → Prop
  | nil (previous : Option Token) (broken : Bool) : Typeset previous broken [] []
  | line {previous : Option Token} {broken : Bool} {ms : List Mark} {ts : List Token}
      (h : Typeset previous true ms ts) : Typeset previous broken (none :: ms) ts
  | text {previous : Option Token} {broken : Bool} {t : Token} {s : String} {ms : List Mark}
      {ts : List Token} (htext : t.text = s) (hkind : t.kind = Lexeme.kindOf s)
      (hline : broken = false → previous.any (·.endLine < t.position.line) = false)
      (h : Typeset (some t) false ms ts) : Typeset previous broken (some s :: ms) (t :: ts)

namespace Inked

variable {last : String} {ms : List Mark} {cs : List Char}

theorem blanks {bs : List Char} (hbs : ∀ b ∈ bs, b = ' ' ∨ b = '\t') (h : Inked "" ms cs) :
    Inked "" ms (bs ++ cs) := by
  induction bs with
  | nil => exact h
  | cons b bs ih =>
      exact .blank (hbs b List.mem_cons_self) (ih fun c hc => hbs c (List.mem_cons_of_mem _ hc))

/-- A lexeme ends in front of what is written behind it. -/
theorem ends {k : TokenKind} (h : Inked last ms cs) (hlast : Lexeme.Is k last.toList) :
    Lexeme.Ends k last.toList cs := by
  induction h with
  | nil => exact Lexeme.ends_nil _ _
  | blank hb _ => exact Lexeme.ends_blank _ _ (by rcases hb with rfl | rfl <;> rfl) _
  | line _ => exact Lexeme.ends_blank _ _ rfl _
  | unbroken _ ih => exact ih hlast
  | @text last s ms cs hs hapart _ _ =>
      obtain ⟨k', hk'⟩ := hs
      have hne : last ≠ "" := by
        rintro rfl
        exact hlast.ne_nil rfl
      have ha := hapart hne
      exact Lexeme.ends_of_apart hlast ha.keepApart_eq ha.runsInto_eq ha.isDigit_eq hk'.ne_nil

/-- The first character is a blank or begins a lexeme. -/
theorem head_ne (h : Inked last ms cs) : ∀ c ∈ cs.head?, c ≠ '\ufeff' ∧ c ≠ '!' := by
  induction h with
  | nil => nofun
  | blank hb _ =>
      intro c hc
      cases hc
      rcases hb with rfl | rfl <;> decide
  | line _ =>
      intro c hc
      cases hc
      decide
  | unbroken _ ih => exact ih
  | @text last s ms cs hs _ _ _ =>
      obtain ⟨k, hk⟩ := hs
      obtain ⟨d, ds, hd⟩ := List.exists_cons_of_ne_nil hk.ne_nil
      intro c hc
      rw [hd] at hk hc
      cases hc
      exact hk.head_ne.2

/-- No written text begins like a line that names an interpreter. -/
theorem ne_interpreter {rest : List Char} (h : Inked last ms cs) : cs ≠ '#' :: '!' :: rest := by
  induction h with
  | nil => nofun
  | blank hb _ => rcases hb with rfl | rfl <;> nofun
  | line _ => nofun
  | unbroken _ ih => exact ih
  | @text last s ms cs hs _ h _ =>
      obtain ⟨k, hk⟩ := hs
      obtain ⟨d, ds, hd⟩ := List.exists_cons_of_ne_nil hk.ne_nil
      rw [hd] at hk ⊢
      intro heq
      obtain ⟨hsign, hrest⟩ := List.cons.inj heq
      obtain ⟨-, rfl⟩ := hk.eq_of_sign (.inr hsign)
      exact (h.head_ne '!' (by rw [show cs = '!' :: rest from hrest]; rfl)).2 rfl

end Inked

theorem lineBreaks_eq_zero {cs : List Char} (h : ∀ c ∈ cs, c ≠ '\n' ∧ c ≠ '\r') :
    lineBreaks cs = 0 := by
  fun_induction lineBreaks cs with
  | case1 => rfl
  | case2 cs ih => exact absurd rfl (h '\r' List.mem_cons_self).2
  | case3 c cs hpair hc ih =>
      have hne := h c List.mem_cons_self
      exact absurd hc (by simp [hne.1, hne.2])
  | case4 c cs hpair hc ih => exact ih fun d hd => h d (List.mem_cons_of_mem _ hd)

/-- Blanks without a line break lead to the line on which the last token ended. -/
theorem any_endLine_lt_advance {previous : Option Token} {p : Position} {blanks : List Char}
    (hp : ∀ t ∈ previous, t.endLine = p.line) (h : ∀ b ∈ blanks, b ≠ '\n' ∧ b ≠ '\r') :
    previous.any (·.endLine < (p.advance blanks).line) = false := by
  cases previous with
  | none => rfl
  | some t =>
      rw [Position.line_advance, lineBreaks_eq_zero h, Nat.add_zero, ← hp t rfl]
      simp

/-- What is written is read back: the tokens carry the marks, and then comes the end
mark. -/
theorem Inked.typeset {last : String} {ms : List Mark} {cs : List Char} (h : Inked last ms cs)
    {blanks : List Char} (hblanks : ∀ b ∈ blanks, Trivia.isBlank b = true)
    {previous : Option Token} {broken : Bool}
    (hbroken : broken = false → ∀ b ∈ blanks, b ≠ '\n' ∧ b ≠ '\r') (front : List Char)
    {p : Position} (hp : ∀ t ∈ previous, t.endLine = p.line) {n : Nat}
    (hn : (blanks ++ cs).length ≤ n) :
    ∃ ts, tokensFrom n front p (blanks ++ cs) = .ok ts ∧
      Typeset previous broken (ms ++ [some ""]) ts := by
  induction h generalizing blanks previous broken front p n with
  | nil =>
      rw [List.append_nil] at hn ⊢
      refine ⟨_, tokensFrom_blanks hblanks front p hn, ?_⟩
      exact .text (t := ⟨.eof, "", p.advance blanks, String.ofList (front ++ blanks)⟩) rfl rfl
        (fun hb => any_endLine_lt_advance hp (hbroken hb)) (.nil _ _)
  -- Blanks are collected in front until a text comes.
  | @blank last ms b cs hb _ ih =>
      have hblank : Trivia.isBlank b = true ∧ b ≠ '\n' ∧ b ≠ '\r' := by
        rcases hb with rfl | rfl <;> decide
      rw [List.append_cons] at hn ⊢
      refine ih ?_ ?_ front hp hn
      · intro c hc
        rcases List.mem_append.1 hc with hc | hc
        · exact hblanks c hc
        · rw [List.mem_singleton.1 hc]
          exact hblank.1
      · intro hb' c hc
        rcases List.mem_append.1 hc with hc | hc
        · exact hbroken hb' c hc
        · rw [List.mem_singleton.1 hc]
          exact hblank.2
  | @line last ms cs _ ih =>
      rw [List.append_cons] at hn ⊢
      have hblanks' : ∀ c ∈ blanks ++ ['\n'], Trivia.isBlank c = true := by
        intro c hc
        rcases List.mem_append.1 hc with hc | hc
        · exact hblanks c hc
        · rw [List.mem_singleton.1 hc]
          rfl
      obtain ⟨ts, hts, hset⟩ := @ih _ hblanks' previous true nofun front p hp n hn
      exact ⟨ts, hts, .line hset⟩
  | unbroken _ ih =>
      obtain ⟨ts, hts, hset⟩ := @ih _ hblanks previous true nofun front p hp n hn
      exact ⟨ts, hts, .line hset⟩
  | @text last s ms cs hs _ h ih =>
      obtain ⟨k, hk⟩ := hs
      have hlen := List.length_pos_iff.2 hk.ne_nil
      cases n with
      | zero =>
          simp only [List.length_append] at hn
          omega
      | succ n =>
          have htokens := tokensFrom_lexeme hblanks hk (h.ends hk) front p hn
          rw [String.ofList_toList] at htokens
          generalize ht : (⟨k, s, p.advance blanks, String.ofList (front ++ blanks)⟩ : Token) = t
            at htokens
          have hend : t.endLine = ((p.advance blanks).advance s.toList).line := by
            rw [Position.line_advance, Token.endLine, ← ht]
          have hlast : ∀ u ∈ some t, u.endLine = ((p.advance blanks).advance s.toList).line := by
            rintro u ⟨⟩
            exact hend
          have hle : ([] ++ cs).length ≤ n := by
            simp only [List.length_append, List.nil_append] at hn ⊢
            omega
          obtain ⟨ts, hts, hset⟩ := @ih [] nofun (some t) false nofun [] _ hlast n hle
          rw [List.nil_append] at hts
          rw [hts] at htokens
          refine ⟨t :: ts, htokens, ?_⟩
          rw [← ht] at hset ⊢
          exact .text rfl hk.kindOf_eq.symm (fun hb => any_endLine_lt_advance hp (hbroken hb)) hset

/-- A text that writes marks is read back as it stands from its beginning on. -/
theorem tokenize_of_inked {ms : List Mark} {source : String} (h : Inked "" ms source.toList) :
    ∃ ts, tokenize source = .ok ts ∧ Typeset none false (ms ++ [some ""]) ts := by
  have hmark : ¬['\ufeff'] <+: source.toList := by
    rintro ⟨cs, hcs⟩
    exact absurd rfl (h.head_ne '\ufeff' (by rw [← hcs]; rfl)).1
  have hline : ¬['#', '!'] <+: source.toList := by
    rintro ⟨cs, hcs⟩
    exact h.ne_interpreter hcs.symm
  obtain ⟨ts, hts, hset⟩ := @Inked.typeset _ _ _ h [] nofun none false nofun [] Position.start nofun
    source.toList.length (Nat.le_refl _)
  exact ⟨ts, (tokenize_unmarked hmark hline).trans hts, hset⟩

theorem Inked.spaced {last s : String} {ms : List Mark} {cs : List Char} (hs : IsLexeme s)
    (hjoins : last ≠ "" → Joins last s) (h : Inked s ms cs) :
    Inked last (some s :: ms) ((spaced last s).toList ++ cs) := by
  unfold LuaRestyle.spaced
  split
  case isTrue =>
    rw [String.toList_append]
    exact .blank (.inl rfl) (.text hs (absurd rfl) h)
  case isFalse hapart => exact .text hs (fun hne => ⟨hjoins hne, by simpa using hapart⟩) h

namespace Layout

/-- Texts that can be joined are written compactly. -/
theorem inked_compact {ps : List Piece} (last : String) (hlex : ∀ s ∈ texts ps, IsLexeme s)
    (hlast : last ≠ "" → ∀ s ∈ (texts ps).head?, Joins last s)
    (hchain : (texts ps).IsChain Joins) :
    Inked last (marks ps) (String.join (compact last ps)).toList := by
  induction ps generalizing last with
  | nil => exact .nil last
  | cons p ps ih =>
      have htext : ∀ s, p.text? = some s →
          Inked last (some s :: marks ps) (String.join (compact last (p :: ps))).toList := by
        intro s hs
        have htexts : texts (p :: ps) = s :: texts ps := List.filterMap_cons_some hs
        rw [htexts] at hlex hlast hchain
        simp only [compact, hs, String.join_cons, String.toList_append]
        refine .spaced (hlex s List.mem_cons_self) (fun hne => hlast hne s rfl) ?_
        refine ih s (fun u hu => hlex u (List.mem_cons_of_mem _ hu)) (fun _ u hu => ?_)
          hchain.tail
        cases htail : texts ps with
        | nil => simp [htail] at hu
        | cons v vs =>
            rw [htail] at hu hchain
            cases hu
            exact (List.isChain_cons_cons.1 hchain).1
      cases p with
      | token source s | name source s => exact htext s rfl
      | divider => exact htext ";" rfl
      | line | blankLine => exact .unbroken (ih last hlex hlast hchain)
      | space | indent | dedent | kept => exact ih last hlex hlast hchain

/-- From the text `a` to the text `b` all neighbours without a blank between them can
be joined, and no blank follows a point. -/
inductive Clear : String → List Piece → String → Prop
  | nil (a : String) : Clear a [] a
  | text {a b s : String} {p : Piece} {ps : List Piece} (hs : p.text? = some s)
      (hjoins : a ≠ "" → Joins a s) (h : Clear s ps b) : Clear a (p :: ps) b
  | blank {a b : String} {p : Piece} {ps : List Piece} (hp : p.isBlank = true)
      (ha : a ≠ ".") (h : Clear "" ps b) : Clear a (p :: ps) b
  | skip {a b : String} {p : Piece} {ps : List Piece} (hp : p.mark? = none)
      (hblank : p.isBlank = false) (h : Clear a ps b) : Clear a (p :: ps) b

theorem Clear.append {a b c : String} {ps qs : List Piece} (h : Clear a ps b)
    (h' : Clear b qs c) : Clear a (ps ++ qs) c := by
  induction h with
  | nil => exact h'
  | text hs hjoins _ ih => exact .text hs hjoins (ih h')
  | blank hp ha _ ih => exact .blank hp ha (ih h')
  | skip hp hblank _ ih => exact .skip hp hblank (ih h')

/-- No point stands in front of a digit, whatever blanks there are. -/
theorem Clear.isChain {a b : String} {ps : List Piece} (h : Clear a ps b) :
    ((texts ps).IsChain fun a b => a = "." → ∀ d ∈ b.toList.head?, d.isDigit = false) ∧
      (a = "." → ∀ s ∈ (texts ps).head?, ∀ d ∈ s.toList.head?, d.isDigit = false) := by
  induction h with
  | nil => exact ⟨.nil, by simp [texts]⟩
  | @text a b s p ps hs hjoins _ ih =>
      have htexts : texts (p :: ps) = s :: texts ps := List.filterMap_cons_some hs
      rw [htexts]
      refine ⟨?_, ?_⟩
      · rw [List.isChain_cons]
        exact ⟨fun u hu hdot => ih.2 hdot u hu, ih.1⟩
      · rintro rfl u hu
        cases hu
        exact (hjoins (by decide)).isDigit_eq rfl
  | @blank a b p ps hp ha _ ih =>
      have htexts : texts (p :: ps) = texts ps := by cases p <;> first | rfl | cases hp
      rw [htexts]
      exact ⟨ih.1, fun hdot => absurd hdot ha⟩
  | @skip a b p ps hp hblank _ ih =>
      have htexts : texts (p :: ps) = texts ps := by cases p <;> first | rfl | cases hp
      rw [htexts]
      exact ih

/-! ## The expanded layout -/

theorem range_of_isWordPart {c : Char} (h : isWordPart c = true) : '0' ≤ c ∧ c ≤ 'z' := by
  rcases isWordPart_iff.1 h with h | h | h | rfl
  · have hc : 'A' ≤ c ∧ c ≤ 'Z' := of_decide_eq_true h
    exact ⟨Char.le_trans (by decide) hc.1, Char.le_trans hc.2 (by decide)⟩
  · have hc := Bool.and_eq_true_iff.1 h
    exact ⟨Char.le_trans (by decide) (of_decide_eq_true hc.1), of_decide_eq_true hc.2⟩
  · have hc := Bool.and_eq_true_iff.1 h
    exact ⟨of_decide_eq_true hc.1, Char.le_trans (of_decide_eq_true hc.2) (by decide)⟩
  · decide

theorem isBlank_eq_false {c : Char} (hlo : '!' ≤ c) (hhi : c ≤ '~') : isBlank c = false := by
  have hlo' : 33 ≤ c.toNat := hlo
  have hhi' : c.toNat ≤ 126 := hhi
  simp only [isBlank, blankRanges, List.any_cons, List.any_nil, Bool.or_false,
    Bool.or_eq_false_iff, Bool.and_eq_false_iff, decide_eq_false_iff_not]
  omega

theorem isBlank_of_isNumeralTail {c : Char} (h : isNumeralTail c = true) : isBlank c = false := by
  rw [isNumeralTail, Bool.or_eq_true, beq_iff_eq] at h
  rcases h with h | rfl
  · have hc := range_of_isWordPart h
    exact isBlank_eq_false (Char.le_trans (by decide) hc.1) (Char.le_trans hc.2 (by decide))
  · decide

/-- The last character of a lexeme is not blank. -/
theorem isBlank_getLast? {k : TokenKind} {a : List Char} (h : Lexeme.Is k a) :
    ∀ x ∈ a.getLast?, isBlank x = false := by
  have hscan := h.scan_eq
  obtain ⟨c, cs, rfl⟩ := List.exists_cons_of_ne_nil h.ne_nil
  generalize hsplit : (⟨c :: cs, []⟩ : Split) = s at hscan
  have htaken : c :: cs = s.taken := by rw [← hsplit]
  intro x hx
  cases Lexeme.scan_eq_ok.1 hscan with
  | word hc =>
      refine isBlank_of_isNumeralTail (Numeral.isNumeralTail_of_isWordPart ?_)
      refine h.isWordPart_getLast? ?_ x hx
      simp only [Lexeme.word]
      split <;> simp
  | numeral => exact isBlank_of_isNumeralTail (h.isNumeralTail_getLast? x hx)
  | quoted hc hs =>
      unfold Quoted.scan at hs
      split at hs <;> cases hs
      case h_1 t ht =>
        rw [htaken, Split.taken_behind, List.getLast?_append, Quoted.getLast?_of_body ht] at hx
        cases hx
        rcases hc with rfl | rfl <;> decide
  | @long level _ hlevel hs =>
      obtain ⟨t, ht, rfl⟩ := Option.map_eq_some_iff.1 hs
      have hlast : (LongBracket.closer level).getLast? = some ']' := by
        simp [LongBracket.closer, List.getLast?_cons]
      have hne : LongBracket.closer level ≠ [] := by simp [LongBracket.closer]
      rw [htaken, Split.taken_behind, List.getLast?_append,
        LongBracket.getLast?_of_splitBehind? ht hne, hlast] at hx
      cases hx
      decide
  | symbol _ _ _ _ hs =>
      obtain ⟨t, ht, hst⟩ := Lexeme.mem_symbols_of_symbol hs
      have hall : ∀ t ∈ symbols, t.toList.getLast?.all (!isBlank ·) = true := by decide
      rw [htaken, hst] at hx
      simpa using (Option.all_eq_true _ _).1 (hall t ht) x hx

/-- A pen that remembers a text has written something else than a blank last. -/
def Pen.Steady (pen : Pen) : Prop := pen.last ≠ "" → pen.tail.all isBlank = false

theorem getLast?_spaced {last s : String} (hs : s.toList ≠ []) :
    (spaced last s).toList.getLast? = s.toList.getLast? := by
  obtain ⟨x, hx⟩ : ∃ x, s.toList.getLast? = some x := ⟨_, List.getLast?_eq_some_getLast hs⟩
  unfold spaced
  split
  · rw [String.toList_append, List.getLast?_append, hx]
    rfl
  · rfl

theorem inked_expanded {pen : Pen} {ps : List Piece} {b : String} (h : Clear pen.last ps b)
    (hlex : ∀ s ∈ texts ps, IsLexeme s) (hpen : pen.Steady) :
    Inked pen.last (marks ps) (String.join (expanded pen ps)).toList := by
  induction ps generalizing pen with
  | nil => exact .nil _
  | cons p ps ih =>
      simp only [expanded, String.join_cons, String.toList_append]
      have hrest := @ih (pen.write p).2
      cases p with
      | token source s | name source s =>
          cases h with
          | blank hp | skip hp => cases hp
          | text hs hjoins h =>
              cases hs
              have hlexeme := hlex s List.mem_cons_self
              refine .spaced hlexeme hjoins (hrest h (fun u hu => hlex u (.tail _ hu)) fun _ => ?_)
              obtain ⟨k, hk⟩ := hlexeme
              obtain ⟨x, hx⟩ : ∃ x, s.toList.getLast? = some x :=
                ⟨_, List.getLast?_eq_some_getLast hk.ne_nil⟩
              simp only [Pen.write, getLast?_spaced hk.ne_nil, hx, Option.or, Option.all,
                isBlank_getLast? hk x hx]
      | divider =>
          cases h with
          | blank hp | skip hp => cases hp
          | text hs hjoins h =>
              cases hs
              have hsteady : (some ';').all isBlank = false := by decide
              exact .spaced (hlex ";" List.mem_cons_self) hjoins
                (hrest h (fun u hu => hlex u (.tail _ hu)) fun _ => hsteady)
      | line =>
          cases h with
          | text hp | skip hp => cases hp
          | blank _ _ h =>
              have htabs : ∀ b ∈ List.replicate pen.depth '\t', b = ' ' ∨ b = '\t' :=
                fun b hb => .inr (List.eq_of_mem_replicate hb)
              have hwritten : (pen.write .line).1.toList =
                  '\n' :: List.replicate pen.depth '\t' := by
                simp only [Pen.write, String.toList_append, String.toList_ofList]
                rfl
              rw [hwritten]
              exact .line (.blanks htabs (hrest h hlex (absurd rfl)))
      | blankLine =>
          cases h with
          | text hp | skip hp => cases hp
          | blank _ _ h =>
              have hwritten : "\n".toList = ['\n'] := rfl
              change Inked pen.last (none :: marks ps) ("\n".toList ++ _)
              rw [hwritten]
              exact .line (hrest h hlex (absurd rfl))
      | space =>
          cases h with
          | text hp => cases hp
          | skip _ hp => cases hp
          | blank _ _ h =>
              simp only [Pen.write] at hrest ⊢
              split
              case isTrue hblank =>
                -- Behind a blank nothing is remembered, so that nothing is forgotten here.
                have hlast : pen.last = "" := by
                  refine Decidable.byContradiction fun hne => ?_
                  rw [hpen hne] at hblank
                  cases hblank
                rw [← hlast] at h
                rw [if_pos hblank] at hrest
                exact hrest h hlex hpen
              case isFalse hblank =>
                rw [if_neg hblank] at hrest
                have hwritten : " ".toList = [' '] := rfl
                rw [hwritten]
                exact .blank (.inl rfl) (hrest h hlex (absurd rfl))
      | indent | dedent | kept =>
          cases h with
          | text hp | blank hp => cases hp
          | skip _ _ h => exact hrest h hlex hpen

end Layout

end LuaRestyle
