import LuaRestyle.Proofs.Token.Alone

/-!
# Reading across a line break

A line break separates: behind it a source is read as if it began there.  So the tokens of two
texts with a line break between them are the tokens of the first and then those of the second,
wherever they stand, and what ended the first text is trivia in front of the second.
-/

namespace LuaRestyle

namespace Token

def unplaced (t : Token) : Token := { t with position := .nowhere }

def behind (text : String) (t : Token) : Token := { t with trivia := text ++ t.trivia }

theorem behind_empty : behind "" = id := by
  funext t
  simp [behind]

/-- What stands in front of the first token does not show in kinds and texts. -/
theorem map_kind_text_modifyHead_behind (text : String) (ts : List Token) :
    (ts.modifyHead (behind text)).map (fun t => (t.kind, t.text)) =
      ts.map fun t => (t.kind, t.text) := by
  cases ts <;> rfl

theorem map_trivia_modifyHead_behind (text : String) (ts : List Token) :
    (ts.modifyHead (behind text)).map (·.trivia) = (ts.map (·.trivia)).modifyHead (text ++ ·) := by
  cases ts <;> rfl

end Token

/-- The blanks and comments at the beginning of the text are read on from `front`. -/
def Trivia.Joins (front cs : List Char) : Prop :=
  ∀ n m s, cs.length ≤ n → (front ++ cs).length ≤ m → scan n cs = .ok s →
    scan m (front ++ cs) = .ok (s.behind front)

namespace Trivia

theorem joins_nil (cs : List Char) : Joins [] cs := by
  intro n m s hn hm h
  exact (scan_eq_ok hm).2 (skips_of_scan hn h)

/-- Trivia and a line break may stand in front of any text. -/
theorem Is.joins_line {blank : List Char} (h : Is blank) (cs : List Char) :
    Joins (blank ++ ['\n']) cs := by
  intro n m s hn hm hs
  refine (scan_eq_ok hm).2 ?_
  have hline : Skips ('\n' :: cs) (s.behind ['\n']) := .blank (by decide) (skips_of_scan hn hs)
  have hskips := (is_iff.1 h).resume (Halts.line cs).noFurther hline
  simpa [Split.behind] using hskips

end Trivia

/-- A text that is read again behind trivia, from any place on, has the same tokens; only the
first of them has the trivia in front of its own. -/
theorem tokensFrom_behind {n m : Nat} {pre cs : List Char} {p : Position} {ts : List Token}
    (hn : cs.length ≤ n) (h : tokensFrom n [] p cs = .ok ts) (hpre : Trivia.Joins pre cs)
    (front : List Char) (q : Position) (hm : (pre ++ cs).length ≤ m) :
    ∃ us, tokensFrom m front q (pre ++ cs) = .ok us ∧
      us.map Token.unplaced =
        (ts.modifyHead (Token.behind (String.ofList (front ++ pre)))).map Token.unplaced := by
  induction n generalizing m pre cs p ts front q with
  | zero =>
      obtain rfl := List.length_eq_zero_iff.1 (Nat.le_zero.1 hn)
      cases h
      have hscan := hpre 0 m ⟨[], []⟩ (Nat.le_refl _) hm rfl
      rw [Split.behind, List.append_nil] at hscan
      rw [List.append_nil]
      refine ⟨_, tokensFrom_of_trivia front q hscan, ?_⟩
      simp [Token.behind, Token.unplaced]
  | succ n ih =>
      obtain ⟨blank, hblank, hcases⟩ := tokensFrom_succ_eq_ok h
      have hscan := hpre (n + 1) m blank hn hm hblank
      have hwhole := Trivia.whole_of_scan hblank
      rw [Split.whole] at hwhole
      rcases hcases with ⟨hrest, rfl⟩ | ⟨kind, s, us, hrest, hs, hus, rfl⟩
      · rw [hrest, List.append_nil] at hwhole
        rw [Split.behind, hrest, hwhole] at hscan
        refine ⟨_, tokensFrom_of_trivia front q hscan, ?_⟩
        simp [Token.behind, Token.unplaced, hwhole, String.append_assoc]
      · obtain ⟨c, cs', hcs'⟩ := List.exists_cons_of_ne_nil hrest
        have hle := length_rest_le_of_scan hn hblank hrest hs
        have hlexeme := Lexeme.whole_of_scan hs
        rw [hcs'] at hs
        have htaken := List.length_pos_iff.2 (Lexeme.taken_ne_nil_of_scan hs)
        rw [Split.whole] at hlexeme
        rw [← hwhole, ← hlexeme, ← List.append_assoc pre] at hm hscan ⊢
        rw [Split.behind, ← hlexeme] at hscan
        simp only [List.length_append] at hm
        obtain ⟨m, rfl⟩ : ∃ i, m = i + 1 := ⟨m - 1, by omega⟩
        have hread := tokensFrom_again front q hscan hs (Halts.refl s.rest).noFurther (by omega)
        obtain ⟨vs, hvs, hsame⟩ := ih hle hus (Trivia.joins_nil s.rest) []
          ((q.advance (pre ++ blank.taken)).advance s.taken) (m := m)
          (by rw [List.nil_append]; omega)
        rw [List.nil_append] at hvs
        rw [hvs] at hread
        refine ⟨_, hread, ?_⟩
        rw [List.append_nil, String.ofList_nil, Token.behind_empty, List.modifyHead_id, id] at hsame
        simp [Token.behind, Token.unplaced, hsame, String.append_assoc]

/-- Where a text holds no further token, another one is read behind what is left of it. -/
theorem tokensFrom_trivia_line {m : Nat} {blank ds : List Char} {p : Position} {us : List Token}
    (h : Trivia.Is blank) (hds : tokensFrom ds.length [] p ds = .ok us) (front : List Char)
    (q : Position) (hm : (blank ++ '\n' :: ds).length ≤ m) :
    ∃ vs, tokensFrom m front q (blank ++ '\n' :: ds) = .ok vs ∧
      vs.map Token.unplaced =
        (us.modifyHead (Token.behind (String.ofList (front ++ blank) ++ "\n"))).map
          Token.unplaced := by
  rw [List.append_cons] at hm ⊢
  obtain ⟨vs, hvs, hsame⟩ := tokensFrom_behind (Nat.le_refl _) hds (h.joins_line ds) front q hm
  refine ⟨vs, hvs, hsame.trans ?_⟩
  rw [← List.append_assoc, String.ofList_append]

/-- The tokens of a text and, behind a line break, those of another one. -/
theorem tokensFrom_line {n m : Nat} {front cs ds : List Char} {p p' : Position}
    {ts us : List Token} (hn : cs.length ≤ n) (h : tokensFrom n front p cs = .ok ts)
    (hds : tokensFrom ds.length [] p' ds = .ok us) (q : Position)
    (hm : (cs ++ '\n' :: ds).length ≤ m) :
    ∃ body last vs, ts = body ++ [last] ∧ tokensFrom m front q (cs ++ '\n' :: ds) = .ok vs ∧
      vs.map Token.unplaced =
        (body ++ us.modifyHead (Token.behind (last.trivia ++ "\n"))).map Token.unplaced := by
  induction n generalizing m front cs p ts q with
  | zero =>
      obtain rfl := List.length_eq_zero_iff.1 (Nat.le_zero.1 hn)
      cases h
      obtain ⟨vs, hvs, hsame⟩ := tokensFrom_trivia_line (show Trivia.Is [] from rfl) hds front q hm
      refine ⟨[], _, vs, rfl, hvs, ?_⟩
      rwa [List.append_nil] at hsame
  | succ n ih =>
      obtain ⟨blank, hblank, hcases⟩ := tokensFrom_succ_eq_ok h
      have hwhole := Trivia.whole_of_scan hblank
      rw [Split.whole] at hwhole
      rcases hcases with ⟨hrest, rfl⟩ | ⟨kind, s, ts', hrest, hs, hts', rfl⟩
      · rw [hrest, List.append_nil] at hwhole
        have his := Trivia.is_of_scan hblank hn
        rw [hwhole] at his ⊢
        obtain ⟨vs, hvs, hsame⟩ := tokensFrom_trivia_line his hds front q hm
        exact ⟨[], _, vs, rfl, hvs, hsame⟩
      · obtain ⟨c, cs', hcs'⟩ := List.exists_cons_of_ne_nil hrest
        have hle := length_rest_le_of_scan hn hblank hrest hs
        have hlexeme := Lexeme.whole_of_scan hs
        have hhalts : Halts blank.rest (s.taken ++ (s.rest ++ '\n' :: ds)) := by
          rw [← hlexeme, Split.whole]
          exact (Halts.append_line s.rest ds).append_left s.taken
        have hscan := Trivia.scan_halts hblank hn hhalts (absurd · hrest) (m := m)
        rw [hcs'] at hs
        have htaken := List.length_pos_iff.2 (Lexeme.taken_ne_nil_of_scan hs)
        rw [Split.whole] at hlexeme
        rw [← hwhole, ← hlexeme, List.append_assoc, List.append_assoc] at hm ⊢
        simp only [List.length_append] at hm
        obtain ⟨m, rfl⟩ : ∃ i, m = i + 1 := ⟨m - 1, by omega⟩
        have hread := tokensFrom_again front q (hscan (by omega)) hs
          (Halts.append_line s.rest ds).noFurther (by omega)
        obtain ⟨body, last, vs, rfl, hvs, hsame⟩ := ih hle hts'
          ((q.advance blank.taken).advance s.taken) (m := m) (by rw [List.length_append]; omega)
        rw [hvs] at hread
        refine ⟨_ :: body, last, _, rfl, hread, ?_⟩
        rw [List.map_cons, hsame]
        rfl

/-- Reading respects line breaks.  Two texts that can be read can be read with a line break
between them, unless the second begins like a file.  The tokens are those of the first text up
to its end mark and then those of the second, each of the same kind and with the same text and
trivia, but for what stands in front of the first token of the second text: what ended the first
text and the line break come in front of its own trivia. -/
theorem tokenize_line {source₁ source₂ : String} {ts₁ ts₂ : List Token} {last₁ last₂ : Token}
    (h₁ : tokenize source₁ = .ok (ts₁ ++ [last₁])) (h₂ : tokenize source₂ = .ok (ts₂ ++ [last₂]))
    (hmark : ¬['\ufeff'] <+: source₂.toList) (hline : ¬['#', '!'] <+: source₂.toList) :
    ∃ ts, tokenize (source₁ ++ "\n" ++ source₂) = .ok ts ∧
      ts.map (fun t => (t.kind, t.text)) =
        (ts₁ ++ ts₂).map (fun t => (t.kind, t.text)) ++ [(.eof, "")] ∧
      ts.map (·.trivia) = ts₁.map (·.trivia) ++
        ((ts₂ ++ [last₂]).map (·.trivia)).modifyHead (last₁.trivia ++ "\n" ++ ·) := by
  obtain ⟨mark, line, rest, cs, hmark₁, hline₁, hsource, heq⟩ := tokenize_eq_tokensFrom source₁
  obtain ⟨body, last, ts, hsplit, hts, hsame⟩ := tokensFrom_line (Nat.le_refl _) (heq.symm.trans h₁)
    ((tokenize_unmarked hmark hline).symm.trans h₂) (Position.start.advance line) (Nat.le_refl _)
  obtain ⟨rfl, hlast⟩ := List.append_inj' hsplit rfl
  obtain rfl : last₁ = last := List.singleton_inj.1 hlast
  have hwritten : source₁ ++ "\n" ++ source₂ =
      String.ofList (mark ++ (line ++ (cs ++ '\n' :: source₂.toList))) := by
    apply String.toList_injective
    simp [hsource]
  refine ⟨ts, ?_, ?_, ?_⟩
  · rw [hwritten, tokenize_halts hmark₁ hline₁ (.append_line cs _)]
    exact hts
  · obtain ⟨body₂, last, hsplit₂, hkind, htext, -⟩ := tokenize_lossless h₂
    obtain ⟨rfl, hlast⟩ := List.append_inj' hsplit₂ rfl
    obtain rfl : last₂ = last := List.singleton_inj.1 hlast
    have hshown := congrArg (List.map fun t : Token => (t.kind, t.text)) hsame
    rw [List.map_map, List.map_map] at hshown
    calc ts.map (fun t => (t.kind, t.text))
        = (ts₁ ++ (ts₂ ++ [last₂]).modifyHead (.behind (last₁.trivia ++ "\n"))).map
            fun t => (t.kind, t.text) := hshown
      _ = (ts₁ ++ ts₂).map (fun t => (t.kind, t.text)) ++ [(.eof, "")] := by
          rw [List.map_append, Token.map_kind_text_modifyHead_behind]
          simp [hkind, htext]
  · have hshown := congrArg (List.map Token.trivia) hsame
    rw [List.map_map, List.map_map] at hshown
    calc ts.map (·.trivia)
        = (ts₁ ++ (ts₂ ++ [last₂]).modifyHead (.behind (last₁.trivia ++ "\n"))).map
            (·.trivia) := hshown
      _ = _ := by rw [List.map_append, Token.map_trivia_modifyHead_behind]

/-- A comment at the end of one text and a long string at the beginning of the other. -/
theorem tokenize_line_comment :
    ∃ ts₁ last₁ ts₂ last₂ ts, tokenize "\ufeffa[=--[==x" = .ok (ts₁ ++ [last₁]) ∧
      tokenize " [[\r]]3. -- z" = .ok (ts₂ ++ [last₂]) ∧
      tokenize ("\ufeffa[=--[==x" ++ "\n" ++ " [[\r]]3. -- z") = .ok ts ∧
      ts.map (fun t => (t.kind, t.text)) =
        (ts₁ ++ ts₂).map (fun t => (t.kind, t.text)) ++ [(.eof, "")] ∧
      ts.map (·.trivia) = ts₁.map (·.trivia) ++
        ((ts₂ ++ [last₂]).map (·.trivia)).modifyHead (last₁.trivia ++ "\n" ++ ·) := by
  obtain ⟨us₁, hus₁⟩ := exists_eq_ok (r := tokenize "\ufeffa[=--[==x") (by decide +kernel)
  obtain ⟨us₂, hus₂⟩ := exists_eq_ok (r := tokenize " [[\r]]3. -- z") (by decide +kernel)
  obtain ⟨ts₁, last₁, rfl, -⟩ := tokenize_lossless hus₁
  obtain ⟨ts₂, last₂, rfl, -⟩ := tokenize_lossless hus₂
  obtain ⟨ts, hts⟩ := tokenize_line hus₁ hus₂ (by decide) (by decide)
  exact ⟨ts₁, last₁, ts₂, last₂, ts, hus₁, hus₂, hts⟩

end LuaRestyle
