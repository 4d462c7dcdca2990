import LuaRestyle.Proofs.Parse.ProgramSource
import LuaRestyle.Proofs.Parse.StatBack

/-!
# Programs are read back

A program is laid out like a block but for lines, and the parser does not mind lines in
front of a statement.  So a stream that carries the marks of a grammatical program is
parsed to a program of the same core.
-/

namespace LuaRestyle

/-- The same texts in the same order, where a line may also end in front of a text in `ms'`
if it may in `ms`. -/
inductive Loosens : List Mark → List Mark → Prop
  | nil : Loosens [] []
  | text {ms ms' : List Mark} (s : String) (h : Loosens ms ms') :
      Loosens (some s :: ms) (some s :: ms')
  | add {ms ms' : List Mark} (h : Loosens ms ms') : Loosens ms (none :: ms')
  | line {ms ms' : List Mark} (h : Loosens ms (none :: ms')) : Loosens (none :: ms) (none :: ms')

namespace Loosens

variable {ms ms' ns ns' : List Mark}

theorem refl (ms : List Mark) : Loosens ms ms := by
  induction ms with
  | nil => exact .nil
  | cons m ms ih =>
      cases m with
      | none => exact .line (.add ih)
      | some s => exact .text s ih

theorem append (h : Loosens ms ms') (h' : Loosens ns ns') : Loosens (ms ++ ns) (ms' ++ ns') := by
  induction h with
  | nil => exact h'
  | text s _ ih => exact .text s ih
  | add _ ih => exact .add ih
  | line _ ih => exact .line ih

end Loosens

namespace Typeset

variable {previous : Option Token} {broken : Bool} {ms ms' : List Mark} {ts : List Token}

theorem mayBreak (h : Typeset previous broken ms ts) : Typeset previous true ms ts := by
  cases h with
  | nil => exact .nil previous true
  | line h => exact .line h
  | text htext hkind _ h => exact .text htext hkind nofun h

theorem loosen (h : Typeset previous broken ms ts) (hloosens : Loosens ms ms') :
    Typeset previous broken ms' ts := by
  induction hloosens generalizing previous broken ts with
  | nil => exact h
  | text s _ ih =>
      cases h with
      | text htext hkind hline h => exact .text htext hkind hline (ih h)
  | add _ ih => exact .line (ih h).mayBreak
  | line _ ih =>
      cases h with
      | line h =>
          cases ih h with
          | line h => exact .line h

theorem getLast? {s : String} (h : Typeset previous broken (ms ++ [some s]) ts) :
    ∃ t, ts.getLast? = some t ∧ t.Alike (Lexeme.token s) := by
  induction ms generalizing previous broken ts with
  | nil =>
      cases h with
      | text htext hkind _ h =>
          cases h
          exact ⟨_, rfl, hkind, htext⟩
  | cons m ms ih =>
      cases h with
      | line h => exact ih h
      | text _ _ _ h =>
          obtain ⟨t, ht, halike⟩ := ih h
          refine ⟨t, ?_, halike⟩
          rw [List.getLast?_cons, ht, Option.getD_some]

end Typeset

namespace Layout

/-- The statements of a program stand on lines of their own, but for the first. -/
theorem loosens_statements (first : Bool) (ss : List Stat) :
    Loosens (marks (statements (·.name) first ss)) (Marks.lines ss) := by
  induction ss generalizing first with
  | nil => exact .nil
  | cons s ss ih =>
      cases hs : s.isEmpty with
      | true =>
          have hmarks : marks (stat (·.name) s) = [] := Marks.stat_of_isEmpty hs
          have hending := Marks.marks_ending s ss
          rw [if_pos hs] at hending
          rw [Marks.lines_cons_of_isEmpty hs, statements, if_pos hs, marks_append, marks_append,
            hmarks, hending]
          exact ih first
      | false =>
          have hending := Marks.marks_ending s ss
          rw [hs, if_neg Bool.false_ne_true] at hending
          have hrest : Loosens (Marks.stat s ++ (Marks.divider ss ++
              marks (statements (·.name) false ss))) (Marks.stat s ++ (Marks.divider ss ++
                Marks.lines ss)) :=
            (Loosens.refl _).append ((Loosens.refl _).append (ih false))
          rw [Marks.lines_cons hs, statements, hs, if_neg Bool.false_ne_true]
          simp only [marks_append, hending, List.append_assoc]
          cases first <;> cases s.isFunction
          · exact .line (.add hrest)
          · exact .line (.line (.add hrest))
          · exact .add hrest
          · exact .line (.add hrest)

theorem loosens_pieces (chunk : Chunk) :
    Loosens (marks (pieces (·.name) chunk)) (Marks.lines chunk.body) :=
  loosens_statements true chunk.body

end Layout

/-- A stream that carries the marks of a grammatical program is a program of its core. -/
theorem parse_of_typeset {chunk : Chunk} {ts : List Token} (hgrammar : chunk.isGrammatical = true)
    (h : Typeset none false (Layout.marks (Layout.pieces (·.name) chunk) ++ [some ""]) ts)
    (number : NameId → NameId) (hnumbered : Numbered number 0 (Occurrences.stats chunk.body)) :
    ∃ chunk', parse ts = .ok chunk' ∧ chunk'.core number = chunk.core number := by
  have hset := h.loosen ((Layout.loosens_pieces chunk).append (.refl [some ""]))
  obtain ⟨last, hlast, halike⟩ := hset.getLast?
  have hkind : last.kind = .eof := halike.kind_eq
  have hstream := closeStream_of_closed hlast hkind
  obtain ⟨⟨first, rest⟩, hclose⟩ : ∃ p, closeStream ts = p := ⟨_, rfl⟩
  rw [hclose] at hstream
  obtain rfl : first :: rest = ts := hstream
  have hoffers : (⟨none, first, rest, 0, 0⟩ : Cursor).Offers number (rest.length + 1) false
      (Marks.lines chunk.body ++ [some ""]) (Occurrences.stats chunk.body ++ []) := by
    exact ⟨hset, by rwa [List.append_nil], by simp, Nat.lt_succ_self _⟩
  obtain ⟨body, d, hbody, hcore, hd⟩ :=
    (Nested.readsBack_upTo number (rest.length + 1)).block hgrammar rfl (by decide) hoffers
  have hend : d.current.kind = .eof := (hd.current rfl).kind_eq
  have hprogram : Parse.program ⟨none, first, rest, 0, 0⟩ = .ok body d := by
    refine Parse.bind_eq_ok.2 ⟨body, d, hbody, ?_⟩
    rw [Parse.peek_bind, if_pos hend]
    rfl
  refine ⟨⟨body, (first :: rest).toArray, d.names⟩, ?_, hcore⟩
  simp only [parse, hclose, hprogram]

/-- The program that is read back has the core of the program, and its occurrences have the
numbers that they had, as far as those were given in order. -/
theorem parse_of_typeset_all {chunk : Chunk} {ts : List Token}
    (hgrammar : chunk.isGrammatical = true)
    (h : Typeset none false (Layout.marks (Layout.pieces (·.name) chunk) ++ [some ""]) ts) :
    ∃ chunk', parse ts = .ok chunk' ∧ ∀ number,
      Numbered number 0 (Occurrences.stats chunk.body) → chunk'.core number = chunk.core number := by
  obtain ⟨chunk', hparse, -⟩ := parse_of_typeset hgrammar h (fun _ => 0) (numbered_forget 0 _)
  refine ⟨chunk', hparse, fun number hnumber => ?_⟩
  obtain ⟨chunk'', hparse', hcore⟩ := parse_of_typeset hgrammar h number hnumber
  rw [hparse] at hparse'
  cases hparse'
  exact hcore

end LuaRestyle
