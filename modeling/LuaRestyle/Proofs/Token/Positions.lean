import Mathlib.Data.List.Chain
import Mathlib.Data.List.DropRight
import LuaRestyle.Proofs.Layout.Ink
import LuaRestyle.Proofs.Token.Alone

/-!
# Positions are exact

A position is kept by passing over one piece of text after another, and passing over two
pieces is passing over both unless a line break stands across the seam.  No lexeme ends with a
carriage return and none begins with a line feed, so the pieces of a source have no such
seam.  The position of a token is therefore what a look at the whole text in front of it tells:
the number of lines that have ended there, and the length of the line that has not.
-/

namespace LuaRestyle

/-! ## Lines of a text -/

/-- A line of the text ends at the given place: with a line feed, or with a carriage return that
no line feed follows. -/
def endsLine (text : List Char) (i : Nat) : Bool :=
  text[i]? == some '\n' || (text[i]? == some '\r' && text[i + 1]? != some '\n')

def lineEnds (text : List Char) : Nat := (List.range text.length).countP (endsLine text)

def lastLine (text : List Char) : List Char := text.rtakeWhile Trivia.isInline

/-- The position behind a text that begins a document.  A byte order mark takes no place. -/
def Position.behind (text : String) : Position :=
  let shown := (Trivia.splitByteOrderMark text.toList).rest
  ⟨1 + lineEnds shown, 1 + (lastLine shown).length⟩

theorem lineEnds_cons (c : Char) (cs : List Char) :
    lineEnds (c :: cs) = (if endsLine (c :: cs) 0 then 1 else 0) + lineEnds cs := by
  rw [lineEnds, List.length_cons, List.range_succ_eq_map, List.countP_cons, List.countP_map,
    Nat.add_comm]
  rfl

theorem lineEnds_eq_lineBreaks (cs : List Char) : lineEnds cs = lineBreaks cs := by
  fun_induction lineBreaks cs with
  | case1 => rfl
  | case2 cs ih =>
      have hfirst : endsLine ('\r' :: '\n' :: cs) 0 = false := rfl
      have hsecond : endsLine ('\n' :: cs) 0 = true := rfl
      rw [lineEnds_cons, lineEnds_cons, hfirst, hsecond, ih]
      simp [Nat.add_comm]
  | case3 c cs hpair hc ih =>
      have hends : endsLine (c :: cs) 0 = true := by
        rcases hc with rfl | rfl
        · rfl
        · cases cs with
          | nil => rfl
          | cons d ds =>
              have hd : d ≠ '\n' := by
                rintro rfl
                exact hpair ds rfl rfl
              simp [endsLine, hd]
      rw [lineEnds_cons, hends, ih, if_pos rfl, Nat.add_comm]
  | case4 c cs hpair hc ih =>
      have hends : endsLine (c :: cs) 0 = false := by
        rw [not_or] at hc
        simp [endsLine, hc.1, hc.2]
      rw [lineEnds_cons, hends, ih]
      simp

theorem lastLine_cons (c : Char) (cs : List Char) :
    lastLine (c :: cs) = if (c :: cs).all Trivia.isInline then c :: cs else lastLine cs := by
  simp only [lastLine, List.rtakeWhile, List.reverse_cons, List.takeWhile_append]
  by_cases hall : cs.all Trivia.isInline = true
  · have htake : cs.reverse.takeWhile Trivia.isInline = cs.reverse :=
      List.takeWhile_eq_self_iff.2 fun x hx => List.all_eq_true.1 hall x (List.mem_reverse.1 hx)
    cases hc : Trivia.isInline c <;> simp [htake, hall, hc]
  · have htake : (cs.reverse.takeWhile Trivia.isInline).length ≠ cs.reverse.length := by
      intro hlength
      have hself := (List.takeWhile_prefix Trivia.isInline).eq_of_length hlength
      refine hall (List.all_eq_true.2 fun x hx => ?_)
      exact List.takeWhile_eq_self_iff.1 hself x (List.mem_reverse.2 hx)
    rw [if_neg htake, List.all_cons, Bool.eq_false_iff.2 hall, Bool.and_false]
    rfl

namespace Position

/-- Passing over a text leads behind its last line. -/
theorem column_advance (p : Position) (cs : List Char) :
    (p.advance cs).column =
      (lastLine cs).length + if cs.all Trivia.isInline then p.column else 1 := by
  fun_induction Position.advance p cs with
  | case1 p => simp [lastLine]
  | case2 p cs ih =>
      rw [ih, lastLine_cons, lastLine_cons]
      simp [Trivia.isInline, nextLine]
  | case3 p c cs hpair hc ih =>
      have hbreak : Trivia.isInline c = false := by rcases hc with rfl | rfl <;> rfl
      rw [ih, lastLine_cons]
      simp [hbreak, nextLine]
  | case4 p c cs hpair hc ih =>
      have hinline : Trivia.isInline c = true := by simpa [Trivia.isInline] using hc
      rw [ih, lastLine_cons, List.all_cons, hinline, Bool.true_and]
      by_cases hall : cs.all Trivia.isInline = true
      · have hself : lastLine cs = cs := List.rtakeWhile_eq_self_iff.2 (List.all_eq_true.1 hall)
        simp only [hall, if_true, hself, List.length_cons, nextColumn]
        omega
      · simp only [hall, if_false, Bool.false_eq_true]

/-- The position that is kept while a document is read is the one that its text tells. -/
theorem advance_start (cs : List Char) :
    start.advance cs = ⟨1 + lineEnds cs, 1 + (lastLine cs).length⟩ := by
  have hline := line_advance start cs
  have hcolumn := column_advance start cs
  rw [← lineEnds_eq_lineBreaks] at hline
  generalize start.advance cs = p at hline hcolumn
  cases p with
  | mk line column =>
      simp only [start, ite_self] at hline hcolumn
      rw [hline, hcolumn, Nat.add_comm 1 (lastLine cs).length]

/-- Two pieces of text are passed over one after the other, unless a line break stands across
the seam. -/
theorem advance_append (p : Position) {as bs : List Char}
    (hseam : as.getLast? = some '\r' → bs.head? ≠ some '\n') :
    p.advance (as ++ bs) = (p.advance as).advance bs := by
  fun_induction Position.advance p as with
  | case1 p => rfl
  | case2 p cs ih =>
      refine ih fun hlast => hseam ?_
      rw [List.getLast?_cons, List.getLast?_cons, hlast]
      rfl
  | case3 p c cs hpair hc ih | case4 p c cs hpair hc ih =>
      rw [List.cons_append, Position.advance]
      · simp only [hc, if_true, if_false]
        refine ih fun hlast => hseam ?_
        rw [List.getLast?_cons, hlast]
        rfl
      · rintro ds rfl hds
        cases cs with
        | nil => exact hseam rfl (by rw [show bs = '\n' :: ds from hds]; rfl)
        | cons e es =>
            obtain ⟨rfl, -⟩ := List.cons.inj hds
            exact hpair es rfl rfl

/-! ## The order of positions -/

def Before (p q : Position) : Prop := p.line < q.line ∨ p.line = q.line ∧ p.column < q.column

instance : IsTrans Position Before where
  trans p q r := by
    simp only [Before]
    omega

theorem before_nextLine (p : Position) : p.Before p.nextLine := .inl (Nat.lt_succ_self _)

theorem before_nextColumn (p : Position) : p.Before p.nextColumn := .inr ⟨rfl, Nat.lt_succ_self _⟩

/-- Passing over a text never leads back. -/
theorem Before.advance {p q : Position} (h : p.Before q) (cs : List Char) :
    p.Before (q.advance cs) := by
  fun_induction Position.advance q cs with
  | case1 q => exact h
  | case2 q cs ih => exact ih (trans_of Before h q.before_nextLine)
  | case3 q c cs hpair hc ih => exact ih (trans_of Before h q.before_nextLine)
  | case4 q c cs hpair hc ih => exact ih (trans_of Before h q.before_nextColumn)

theorem before_advance (p : Position) {cs : List Char} (hcs : cs ≠ []) :
    p.Before (p.advance cs) := by
  fun_cases Position.advance p cs with
  | case1 => exact absurd rfl hcs
  | case2 cs => exact p.before_nextLine.advance cs
  | case3 c cs hpair hc => exact p.before_nextLine.advance cs
  | case4 c cs hpair hc => exact p.before_nextColumn.advance cs

end Position

/-- No position is before itself. -/
theorem Position.not_before_self (p : Position) : ¬p.Before p := by
  simp only [Before]
  omega

/-! ## The seams of a source -/

/-- A line break does not stand across the end of a lexeme. -/
theorem Lexeme.Is.getLast?_ne {k : TokenKind} {a : List Char} (h : Is k a) :
    a.getLast? ≠ some '\r' := by
  intro hlast
  exact absurd (Layout.isBlank_getLast? h _ hlast) (by decide)

theorem Lexeme.Is.head?_ne {k : TokenKind} {a : List Char} (h : Is k a) :
    a.head? ≠ some '\n' := by
  obtain ⟨c, cs, rfl⟩ := List.exists_cons_of_ne_nil h.ne_nil
  intro hhead
  cases hhead
  exact absurd h.head_ne.1 (by decide)

theorem Trivia.getLast?_splitInterpreterLine (cs : List Char) :
    (splitInterpreterLine cs).taken.getLast? ≠ some '\r' := by
  have hinline : ∀ c ∈ (splitInterpreterLine cs).taken, isInline c = true := by
    unfold splitInterpreterLine
    split
    case h_1 cs =>
        simp only [Split.taken_behind, List.mem_append]
        rintro c (hc | hc)
        · rcases List.mem_pair.1 hc with rfl | rfl <;> rfl
        · exact List.mem_takeWhile_imp hc
    case h_2 => exact List.forall_mem_nil _
  intro hlast
  exact absurd (hinline _ (List.mem_of_getLast? hlast)) (by decide)

/-- No seam of a source tears a line break apart: the trivia and then the lexeme are passed over
behind all that came before. -/
theorem Lexeme.Is.advance_behind {k : TokenKind} {a passed : List Char} (h : Is k a)
    (hseam : passed.getLast? ≠ some '\r') (blank : List Char) :
    Position.start.advance (passed ++ blank ++ a) =
        ((Position.start.advance passed).advance blank).advance a ∧
      (passed ++ blank ++ a).getLast? ≠ some '\r' := by
  constructor
  · rw [Position.start.advance_append fun _ => h.head?_ne,
      Position.start.advance_append (absurd · hseam)]
  · rw [List.getLast?_append_of_ne_nil _ h.ne_nil]
    exact h.getLast?_ne

/-! ## The positions of tokens -/

/-- The token `u` stands next to the token `t`: its trivia are all there is between them. -/
def Token.NextTo (t u : Token) : Prop :=
  t.text ≠ "" ∧ u.position = (t.position.advance t.text.toList).advance u.trivia.toList

theorem Token.NextTo.before {t u : Token} (h : t.NextTo u) : t.position.Before u.position := by
  have htext : t.text.toList ≠ [] := by
    rw [ne_eq, String.toList_eq_nil_iff]
    exact h.1
  rw [h.2]
  exact (t.position.before_advance htext).advance _

theorem Token.NextTo.line_eq {t u : Token} (h : t.NextTo u) :
    u.position.line = t.endLine + lineEnds u.trivia.toList := by
  rw [h.2, Position.line_advance, Position.line_advance, lineEnds_eq_lineBreaks, Token.endLine]

/-- Every token stands next to the one in front of it. -/
theorem isChain_nextTo_of_tokensFrom {n : Nat} {front cs : List Char} {p : Position}
    {ts : List Token} (h : tokensFrom n front p cs = .ok ts) :
    ∃ t us blank, ts = t :: us ∧ t.trivia.toList = front ++ blank ∧
      t.position = p.advance blank ∧ ts.IsChain Token.NextTo := by
  induction n generalizing front cs p ts with
  | zero =>
      cases h
      exact ⟨_, [], [], rfl, by simp, rfl, .singleton _⟩
  | succ n ih =>
      obtain ⟨blank, -, hcases⟩ := tokensFrom_succ_eq_ok h
      rcases hcases with ⟨-, rfl⟩ | ⟨kind, s, us, hrest, hs, hus, rfl⟩
      · exact ⟨_, [], blank.taken, rfl, by simp, rfl, .singleton _⟩
      · refine ⟨_, us, blank.taken, rfl, by simp, rfl, ?_⟩
        obtain ⟨u, vs, blank', rfl, htrivia, hposition, hchain⟩ := ih hus
        refine List.isChain_cons_cons.2 ⟨⟨?_, ?_⟩, hchain⟩
        · obtain ⟨c, cs', hcs'⟩ := List.exists_cons_of_ne_nil hrest
          rw [ne_eq, ← String.toList_eq_nil_iff, String.toList_ofList]
          exact Lexeme.taken_ne_nil_of_scan (hcs' ▸ hs)
        · rw [hposition, htrivia, String.toList_ofList]
          rfl

/-- The position of a token is the one behind all that was passed over in front of it, first
`before` and then the `text` of the tokens. -/
theorem position_of_tokensFrom {n : Nat} {front before cs : List Char} {ts : List Token}
    (hseam : before.getLast? ≠ some '\r')
    (h : tokensFrom n front (Position.start.advance before) cs = .ok ts) {us vs : List Token}
    {t : Token} (hts : ts = us ++ t :: vs) :
    ∃ text, (String.join (us.map Token.written) ++ t.trivia).toList = front ++ text ∧
      t.position = Position.start.advance (before ++ text) := by
  induction n generalizing front before cs ts us with
  | zero =>
      cases h
      obtain rfl : us = [] := by
        cases us with
        | nil => rfl
        | cons u us => simp at hts
      cases hts
      exact ⟨[], by simp, by simp⟩
  | succ n ih =>
      obtain ⟨blank, -, hcases⟩ := tokensFrom_succ_eq_ok h
      have hblank : Position.start.advance (before ++ blank.taken) = _ :=
        Position.start.advance_append (absurd · hseam)
      cases us with
      | nil =>
          rcases hcases with ⟨-, rfl⟩ | ⟨kind, s, us, hrest, hs, hus, rfl⟩
          all_goals
            cases hts
            exact ⟨blank.taken, by simp, hblank.symm⟩
      | cons u us =>
          rcases hcases with ⟨-, rfl⟩ | ⟨kind, s, us', hrest, hs, hus, rfl⟩
          · simp at hts
          · obtain ⟨rfl, hus'⟩ := List.cons.inj hts
            obtain ⟨c, cs', hcs'⟩ := List.exists_cons_of_ne_nil hrest
            obtain ⟨hpassed, hseam'⟩ :=
              (Lexeme.is_of_scan (hcs' ▸ hs)).advance_behind hseam blank.taken
            rw [← hpassed] at hus
            obtain ⟨text, htext, hposition⟩ := ih hseam' hus hus'
            refine ⟨blank.taken ++ (s.taken ++ text), ?_, by simpa using hposition⟩
            rw [List.nil_append] at htext
            simp [Token.written, ← htext]

/-- A byte order mark is told apart in the beginning of a source as it is in the source. -/
theorem Position.behind_eq_advance {source : String} {mark rest text : List Char}
    (hmark : Trivia.splitByteOrderMark source.toList = ⟨mark, rest⟩) (htext : text <+: rest) :
    Position.behind (String.ofList (mark ++ text)) = Position.start.advance text := by
  have hcut : Trivia.splitByteOrderMark
      ((Trivia.splitByteOrderMark source.toList).taken ++ text) = _ :=
    Trivia.splitByteOrderMark_again (Halts.of_isPrefix (by rwa [hmark])).noFurther
  rw [hmark] at hcut
  rw [Position.advance_start, Position.behind, String.toList_ofList, hcut]

/-- The text in front of a token of a source tells its position. -/
theorem position_of_tokenize {source : String} {ts : List Token} (h : tokenize source = .ok ts)
    {us vs : List Token} {t : Token} (hts : ts = us ++ t :: vs) :
    source = String.join (us.map Token.written) ++ t.trivia ++ t.text ++
        String.join (vs.map Token.written) ∧
      t.position = Position.behind (String.join (us.map Token.written) ++ t.trivia) := by
  obtain ⟨-, -, -, -, -, -, hjoin⟩ := tokenize_lossless h
  have hsource : source = String.join (us.map Token.written) ++ t.trivia ++ t.text ++
      String.join (vs.map Token.written) := by
    rw [← hjoin, hts, List.map_append, List.map_cons, String.join_append, String.join_cons,
      Token.written, String.append_assoc, String.append_assoc, String.append_assoc]
  refine ⟨hsource, ?_⟩
  obtain ⟨mark, line, rest, cs, hmark, hline, -, heq⟩ := tokenize_eq_tokensFrom source
  have hseam := Trivia.getLast?_splitInterpreterLine rest
  rw [hline] at hseam
  obtain ⟨text, htext, hposition⟩ := position_of_tokensFrom hseam (heq.symm.trans h) hts
  have hbegin : line ++ text <+: rest := by
    have hwhole := Trivia.whole_splitByteOrderMark source.toList
    rw [hmark, Split.whole] at hwhole
    have hfront : mark ++ (line ++ text) <+: source.toList := by
      refine ⟨(t.text ++ String.join (vs.map Token.written)).toList, ?_⟩
      rw [← List.append_assoc mark, ← htext, ← String.toList_append, ← String.append_assoc,
        ← hsource]
    rwa [← hwhole, List.prefix_append_right_inj] at hfront
  have hbehind := Position.behind_eq_advance hmark hbegin
  rw [← List.append_assoc, ← htext, String.ofList_toList] at hbehind
  exact hposition.trans hbehind.symm

/-- The positions of tokens increase. -/
theorem pairwise_before_of_tokenize {source : String} {ts : List Token}
    (h : tokenize source = .ok ts) : ts.Pairwise fun t u => t.position.Before u.position := by
  obtain ⟨-, -, -, -, -, -, hchain⟩ := isChain_nextTo_of_tokensFrom h
  have hbefore : (ts.map Token.position).IsChain Position.Before :=
    (List.isChain_map Token.position).2 (hchain.imp fun t u htu => htu.before)
  exact List.pairwise_map.1 hbefore.pairwise

/-- Positions are exact.  A token stands at the position that the text in front of it tells: the
number of lines that have ended there, and the place on the line that has not.  The positions of
the tokens increase, and a token begins as many lines behind the end of the token in front of it
as there are line breaks between the two. -/
theorem tokenize_positions {source : String} {ts : List Token} (h : tokenize source = .ok ts) :
    (∀ us t vs, ts = us ++ t :: vs →
      source = String.join (us.map Token.written) ++ t.trivia ++ t.text ++
          String.join (vs.map Token.written) ∧
        t.position = Position.behind (String.join (us.map Token.written) ++ t.trivia)) ∧
      ts.Pairwise (fun t u => t.position.Before u.position) ∧
      ∀ us t u vs, ts = us ++ t :: u :: vs →
        u.position.line = t.endLine + lineEnds u.trivia.toList := by
  obtain ⟨-, -, -, -, -, -, hchain⟩ := isChain_nextTo_of_tokensFrom h
  refine ⟨fun us t vs hts => position_of_tokenize h hts, pairwise_before_of_tokenize h, ?_⟩
  rintro us t u vs rfl
  exact ((List.isChain_append_cons_cons.1 hchain).2.1).line_eq

theorem tokenize_positions_mixed :
    ∃ ts, tokenize "\ufeffx=[[\r\n]]\r--\n\r'\\\r\n'y" = .ok ts ∧
      (∀ us t vs, ts = us ++ t :: vs →
        "\ufeffx=[[\r\n]]\r--\n\r'\\\r\n'y" =
            String.join (us.map Token.written) ++ t.trivia ++ t.text ++
              String.join (vs.map Token.written) ∧
          t.position = Position.behind (String.join (us.map Token.written) ++ t.trivia)) ∧
      ts.Pairwise (fun t u => t.position.Before u.position) ∧
      ∀ us t u vs, ts = us ++ t :: u :: vs →
        u.position.line = t.endLine + lineEnds u.trivia.toList := by
  obtain ⟨ts, hts⟩ :=
    exists_eq_ok (r := tokenize "\ufeffx=[[\r\n]]\r--\n\r'\\\r\n'y") (by decide +kernel)
  exact ⟨ts, hts, tokenize_positions hts⟩

end LuaRestyle
