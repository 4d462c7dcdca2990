/-!
# Positions in a source text

A position is a line and a column, both counted from one.  Columns count
characters.  A line ends with a line feed, with a carriage return, or with the
two together, which count as one line break.

Positions are never stored while a text is being read: the position after a
piece of text is `Position.advance` of the position before it, so that every
statement about positions is a statement about the characters passed over.
-/

namespace LuaRestyle

structure Position where
  line : Nat
  column : Nat
deriving DecidableEq, Repr

namespace Position

def start : Position := ⟨1, 1⟩

/-- The position given to whatever was made rather than read. -/
def nowhere : Position := ⟨0, 0⟩

def nextLine (p : Position) : Position := ⟨p.line + 1, 1⟩

def nextColumn (p : Position) : Position := ⟨p.line, p.column + 1⟩

def advance (p : Position) : List Char → Position
  | [] => p
  | '\r' :: '\n' :: cs => p.nextLine.advance cs
  | c :: cs =>
      if c = '\n' ∨ c = '\r' then p.nextLine.advance cs
      else p.nextColumn.advance cs

@[simp] theorem advance_nil (p : Position) : p.advance [] = p := rfl

def text (p : Position) : String := toString p.line ++ ":" ++ toString p.column

end Position

def lineBreaks : List Char → Nat
  | [] => 0
  | '\r' :: '\n' :: cs => lineBreaks cs + 1
  | c :: cs => if c = '\n' ∨ c = '\r' then lineBreaks cs + 1 else lineBreaks cs

@[simp] theorem lineBreaks_nil : lineBreaks [] = 0 := rfl

/-- Passing over a text moves down by its line breaks. -/
theorem Position.line_advance (p : Position) (cs : List Char) :
    (p.advance cs).line = p.line + lineBreaks cs := by
  fun_induction lineBreaks cs generalizing p with
  | case1 => rfl
  | case2 cs ih =>
      simp only [Position.advance, ih, Position.nextLine]
      omega
  | case3 c cs hpair hc ih =>
      rw [Position.advance]
      · simp only [hc, if_true, ih, Position.nextLine]
        omega
      · exact hpair
  | case4 c cs hpair hc ih =>
      rw [Position.advance]
      · simp only [hc, if_false, ih, Position.nextColumn]
      · exact hpair

theorem count_pairs_cons (c : Char) (cs : List Char) :
    ((c :: cs).zip cs).count ('\r', '\n') =
      (cs.zip cs.tail).count ('\r', '\n') +
        if c = '\r' ∧ cs.head? = some '\n' then 1 else 0 := by
  cases cs with
  | nil => simp
  | cons d ds => simp [List.count_cons]

/-- Each line feed and each carriage return is a line break, but a pair of them is one
and not two. -/
theorem lineBreaks_add_count_pairs (cs : List Char) :
    lineBreaks cs + (cs.zip cs.tail).count ('\r', '\n') = cs.count '\n' + cs.count '\r' := by
  fun_induction lineBreaks cs with
  | case1 => rfl
  | case2 cs ih =>
      have hfeed : ¬('\n' = '\r' ∧ cs.head? = some '\n') := fun h => absurd h.1 (by decide)
      rw [List.tail_cons, count_pairs_cons, List.tail_cons, count_pairs_cons, if_neg hfeed,
        if_pos ⟨rfl, rfl⟩, List.count_cons_of_ne (by decide), List.count_cons_self,
        List.count_cons_self, List.count_cons_of_ne (by decide)]
      omega
  | case3 c cs hpair hc ih =>
      have hsingle : ¬(c = '\r' ∧ cs.head? = some '\n') := by
        rintro ⟨hreturn, hhead⟩
        obtain ⟨ds, hds⟩ := List.head?_eq_some_iff.1 hhead
        exact hpair ds hreturn hds
      rw [List.tail_cons, count_pairs_cons, if_neg hsingle]
      rcases hc with rfl | rfl
      · rw [List.count_cons_self, List.count_cons_of_ne (by decide)]
        omega
      · rw [List.count_cons_self, List.count_cons_of_ne (by decide)]
        omega
  | case4 c cs hpair hc ih =>
      rw [not_or] at hc
      rw [List.tail_cons, count_pairs_cons, if_neg fun h => hc.2 h.1, List.count_cons_of_ne hc.1,
        List.count_cons_of_ne hc.2]
      exact ih

theorem lineBreaks_eq_count (cs : List Char) :
    lineBreaks cs =
      cs.count '\n' + cs.count '\r' - (cs.zip cs.tail).count ('\r', '\n') := by
  rw [← lineBreaks_add_count_pairs, Nat.add_sub_cancel]

end LuaRestyle
