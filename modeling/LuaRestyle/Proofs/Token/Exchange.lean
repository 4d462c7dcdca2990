import LuaRestyle.Proofs.Token.Halt
import Mathlib.Data.List.Forall2

/-!
# Exchanging names

Where a lexeme or a comment ends is never decided by what a word is, only by the fact that
one begins.  So two texts that agree up to a place where a word begins in both are cut alike
up to there, and names may be exchanged for other names throughout a source: its tokens keep
their kinds, their trivia and their lines.
-/

namespace LuaRestyle

/-- The texts agree, at least up to a place where a word begins in both of them. -/
inductive Akin : List Char → List Char → Prop
  | nil : Akin [] []
  | same (c : Char) {cs ds : List Char} (h : Akin cs ds) : Akin (c :: cs) (c :: ds)
  | word {c d : Char} (hc : isWordStart c = true) (hd : isWordStart d = true)
      (cs ds : List Char) : Akin (c :: cs) (d :: ds)

namespace Akin

variable {as cs ds : List Char}

theorem append_left (as : List Char) (h : Akin cs ds) : Akin (as ++ cs) (as ++ ds) := by
  induction as with
  | nil => exact h
  | cons a as ih => exact .same a ih

theorem refl (cs : List Char) : Akin cs cs := by
  have happend := append_left cs .nil
  rwa [List.append_nil] at happend

/-- The signs with which the second text begins are those of the first. -/
theorem isPrefix_of_isPrefix (h : Akin cs ds) (has : as.all isSign = true) (hbegin : as <+: ds) :
    as <+: cs := by
  induction h generalizing as with
  | nil => exact hbegin
  | same c _ ih =>
      cases as with
      | nil => exact List.nil_prefix
      | cons a as =>
          rw [List.all_cons, Bool.and_eq_true] at has
          rw [List.cons_prefix_cons] at hbegin ⊢
          exact ⟨hbegin.1, ih has.2 hbegin.2⟩
  | word _ hd =>
      cases as with
      | nil => exact List.nil_prefix
      | cons a as =>
          obtain ⟨rfl, -⟩ := List.cons_prefix_cons.1 hbegin
          simp [isSign, hd] at has

theorem noFurther (h : Akin cs ds) : NoFurther cs ds := by
  refine ⟨fun as has => h.isPrefix_of_isPrefix has, fun hword => ?_⟩
  cases h with
  | nil => exact hword
  | same => exact hword
  | word hc => exact hc

/-- A line begins in both texts or in neither. -/
theorem head?_newline (h : Akin cs ds) (hline : ds.head? = some '\n') : cs.head? = some '\n' := by
  cases h with
  | nil => exact hline
  | same => exact hline
  | word _ hd =>
      cases hline
      exact absurd hd (by decide)

end Akin

/-- Trivia are cut off again in front of a text that is akin to what followed them. -/
theorem Trivia.scan_akin {n m : Nat} {cs r : List Char} {s : Split} (h : scan n cs = .ok s)
    (hn : cs.length ≤ n) (hakin : Akin s.rest r) (hm : s.taken.length ≤ m) :
    scan m (s.taken ++ r) = .ok ⟨s.taken, r⟩ :=
  ((skips_of_scan hn h).again hakin.noFurther hakin.head?_newline).scan_eq hm

/-! ## Tokens -/

namespace Token

structure Renames (t v : Token) : Prop where
  kind_eq : v.kind = t.kind
  trivia_eq : v.trivia = t.trivia
  position_eq : v.position = t.position
  text_eq : v.text = t.text ∨ t.kind = .ident ∧ isName t.text = true ∧ isName v.text = true

/-- The tokens differ at most in the column where they stand. -/
structure Agrees (v u : Token) : Prop where
  kind_eq : u.kind = v.kind
  text_eq : u.text = v.text
  trivia_eq : u.trivia = v.trivia
  line_eq : u.position.line = v.position.line

end Token

theorem lineBreaks_of_isName {text : String} (h : isName text = true) :
    lineBreaks text.toList = 0 := by
  have hnone : ∀ cs : List Char, (∀ c ∈ cs, isWordPart c = true) → lineBreaks cs = 0 := by
    intro cs hcs
    fun_induction lineBreaks cs with
    | case1 => rfl
    | case2 => exact absurd (hcs '\r' List.mem_cons_self) (by decide)
    | case3 c cs _ hc =>
        have hword := hcs c List.mem_cons_self
        rcases hc with rfl | rfl <;> exact absurd hword (by decide)
    | case4 c cs _ _ ih => exact ih fun d hd => hcs d (List.mem_cons_of_mem _ hd)
  unfold isName at h
  split at h
  case h_1 => cases h
  case h_2 c cs hcs =>
    simp only [Bool.and_eq_true, List.all_eq_true] at h
    rw [hcs]
    refine hnone _ fun b hb => ?_
    rcases List.mem_cons.1 hb with rfl | hb
    · exact isWordPart_of_isWordStart h.1.1
    · exact h.1.2 b hb

namespace Token.Renames

variable {t v : Token}

theorem lineBreaks_eq (h : t.Renames v) : lineBreaks v.text.toList = lineBreaks t.text.toList := by
  rcases h.text_eq with htext | ⟨-, ht, hv⟩
  · rw [htext]
  · rw [lineBreaks_of_isName ht, lineBreaks_of_isName hv]

theorem akin (h : t.Renames v) {r r' : List Char} (hakin : Akin r r') :
    Akin (t.text.toList ++ r) (v.text.toList ++ r') := by
  rcases h.text_eq with htext | ⟨-, ht, hv⟩
  · rw [htext]
    exact hakin.append_left _
  · obtain ⟨c, cs, hcs, hc⟩ := exists_head_of_isName ht
    obtain ⟨d, ds, hds, hd⟩ := exists_head_of_isName hv
    rw [hcs, hds]
    exact .word hc hd _ _

/-- The text of a token, or the name that takes its place, is cut off again. -/
theorem scan_eq (h : t.Renames v) {n m : Nat} {c : Char} {cs r : List Char} {s : Split}
    (hs : Lexeme.scan n (c :: cs) = .ok (t.kind, s)) (htext : t.text.toList = s.taken)
    (hakin : Akin s.rest r) (hm : v.text.toList.length ≤ m + 1) :
    Lexeme.scan m (v.text.toList ++ r) = .ok (t.kind, ⟨v.text.toList, r⟩) := by
  rcases h.text_eq with heq | ⟨hkind, -, hv⟩
  · rw [heq, htext] at hm ⊢
    exact Lexeme.scan_again hs hakin.noFurther hm
  · rw [hkind] at hs ⊢
    have hends := (Lexeme.ends_of_scan hs (by decide)).again (by decide) hakin.noFurther
    exact (Lexeme.isName_iff.1 hv).scan_append hends hm

end Token.Renames

/-- The text `ds` writes the tokens `vs` behind `front`, and they are read from it again,
wherever on the line of `p` it begins. -/
def Rereads (front : List Char) (p : Position) (vs : List Token) (ds : List Char) : Prop :=
  (String.join (vs.map Token.written)).toList = front ++ ds ∧
    ∀ (m : Nat) (q : Position), ds.length ≤ m → q.line = p.line →
      ∃ us, tokensFrom m front q ds = .ok us ∧ List.Forall₂ Token.Agrees vs us

theorem rereads_end {front blank : List Char} {p : Position} {vs : List Token}
    (hscan : ∀ m, blank.length ≤ m → Trivia.scan m blank = .ok ⟨blank, []⟩)
    (hvs : List.Forall₂ Token.Renames
      [⟨.eof, "", p.advance blank, String.ofList (front ++ blank)⟩] vs) :
    Rereads front p vs blank := by
  cases hvs with
  | @cons _ v _ _ hv hnil =>
      cases hnil
      have htext : v.text = "" := by
        rcases hv.text_eq with htext | ⟨hkind, -⟩
        · exact htext
        · cases hkind
      refine ⟨by simp [Token.written, htext, hv.trivia_eq], fun m q hm hline => ?_⟩
      refine ⟨_, tokensFrom_of_trivia front q (hscan m hm), .cons ?_ .nil⟩
      refine ⟨hv.kind_eq.symm, htext.symm, hv.trivia_eq.symm, ?_⟩
      rw [hv.position_eq, Position.line_advance, Position.line_advance, hline]

theorem Rereads.cons {n : Nat} {front blank r : List Char} {p : Position} {k : TokenKind}
    {v : Token} {vs : List Token} {c : Char} {cs : List Char} {s : Split}
    (hblank : ∀ m, blank.length ≤ m →
      Trivia.scan m (blank ++ (v.text.toList ++ r)) = .ok ⟨blank, v.text.toList ++ r⟩)
    (hs : Lexeme.scan n (c :: cs) = .ok (k, s))
    (hv : Token.Renames
      ⟨k, String.ofList s.taken, p.advance blank, String.ofList (front ++ blank)⟩ v)
    (hakin : Akin s.rest r) (h : Rereads [] ((p.advance blank).advance s.taken) vs r) :
    Rereads front p (v :: vs) (blank ++ (v.text.toList ++ r)) := by
  obtain ⟨hwritten, htokens⟩ := h
  refine ⟨?_, fun m q hm hline => ?_⟩
  · rw [List.map_cons, String.join_cons, String.toList_append, hwritten, Token.written,
      String.toList_append, hv.trivia_eq, String.toList_ofList]
    simp only [List.append_assoc, List.nil_append]
  · have hne : v.text.toList ≠ [] := by
      rcases hv.text_eq with htext | ⟨-, -, hname⟩
      · rw [htext, String.toList_ofList]
        exact Lexeme.taken_ne_nil_of_scan hs
      · exact (Lexeme.isName_iff.1 hname).ne_nil
    have hpos := List.length_pos_iff.2 hne
    simp only [List.length_append] at hm
    obtain ⟨m, rfl⟩ : ∃ k, m = k + 1 := ⟨m - 1, by omega⟩
    have hscan := hv.scan_eq hs String.toList_ofList hakin (m := m) (by omega)
    have hlines : ((q.advance blank).advance v.text.toList).line =
        ((p.advance blank).advance s.taken).line := by
      have hbreaks := hv.lineBreaks_eq
      simp only [String.toList_ofList] at hbreaks
      simp only [Position.line_advance, hline, hbreaks]
    obtain ⟨us, hus, hagrees⟩ := htokens m _ (by omega) hlines
    have hread := tokensFrom_of_scan front q (hblank (m + 1) (by omega)) hne hscan
    rw [hus] at hread
    refine ⟨_, hread, .cons ⟨hv.kind_eq.symm, String.ofList_toList, hv.trivia_eq.symm, ?_⟩ hagrees⟩
    rw [hv.position_eq, Position.line_advance, Position.line_advance, hline]

/-- The tokens of a text under other names.  The text that they write is akin to the one
they were read from. -/
theorem exists_rereads {n : Nat} {front cs : List Char} {p : Position} {ts vs : List Token}
    (hn : cs.length ≤ n) (h : tokensFrom n front p cs = .ok ts)
    (hvs : List.Forall₂ Token.Renames ts vs) : ∃ ds, Akin cs ds ∧ Rereads front p vs ds := by
  induction n generalizing front cs p ts vs with
  | zero =>
      obtain rfl := List.length_eq_zero_iff.1 (Nat.le_zero.1 hn)
      cases h
      refine ⟨[], .nil, rereads_end (fun m _ => by cases m <;> rfl) ?_⟩
      simpa using hvs
  | succ n ih =>
      obtain ⟨blank, hblank, hcases⟩ := tokensFrom_succ_eq_ok h
      have hwhole := Trivia.whole_of_scan hblank
      rw [Split.whole] at hwhole
      rcases hcases with ⟨hrest, rfl⟩ | ⟨kind, s, us, hrest, hs, hus, rfl⟩
      · refine ⟨blank.taken, ?_, rereads_end (fun m hm => ?_) hvs⟩
        · rw [← hwhole, hrest, List.append_nil]
          exact .refl _
        · have hscan := Trivia.scan_akin hblank hn (by rw [hrest]; exact .nil) hm
          rwa [List.append_nil] at hscan
      · obtain ⟨c, cs', hcs'⟩ := List.exists_cons_of_ne_nil hrest
        have hlexeme := Lexeme.whole_of_scan hs
        rw [hcs'] at hs
        have htaken := List.length_pos_iff.2 (Lexeme.taken_ne_nil_of_scan hs)
        cases hvs with
        | @cons _ v _ vs hv hvs =>
            have hle : s.rest.length ≤ n := by
              have h₁ := congrArg List.length hwhole
              have h₂ := congrArg List.length hlexeme
              simp only [Split.whole, List.length_append] at h₁ h₂
              omega
            obtain ⟨r, hakin, hrereads⟩ := ih hle hus hvs
            have hrest' : Akin blank.rest (v.text.toList ++ r) := by
              have hakin' := hv.akin hakin
              rwa [String.toList_ofList, ← Split.whole, hlexeme] at hakin'
            refine ⟨blank.taken ++ (v.text.toList ++ r), ?_, ?_⟩
            · rw [← hwhole]
              exact hrest'.append_left _
            · exact .cons (fun m hm => Trivia.scan_akin hblank hn hrest' hm) hs hv hakin hrereads

/-- Names may be exchanged for other names in a source.  Its tokens keep their kinds, their
trivia and their lines. -/
theorem tokenize_renames {source : String} {ts vs : List Token} (h : tokenize source = .ok ts)
    (hvs : List.Forall₂ Token.Renames ts vs) :
    ∃ us, tokenize (String.join (vs.map Token.written)) = .ok us ∧
      List.Forall₂ Token.Agrees vs us := by
  obtain ⟨mark, line, rest, cs, hmark, hline, -, heq⟩ := tokenize_eq_tokensFrom source
  rw [heq] at h
  obtain ⟨ds, hakin, hwritten, htokens⟩ := exists_rereads (Nat.le_refl _) h hvs
  obtain ⟨us, hus, hagrees⟩ := htokens ds.length _ (Nat.le_refl _) rfl
  refine ⟨us, ?_, hagrees⟩
  have hread := tokenize_again hmark hline hakin.noFurther
  rwa [← List.append_assoc, ← hwritten, String.ofList_toList, hus] at hread

end LuaRestyle
