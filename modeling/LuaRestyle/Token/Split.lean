/-!
# Cutting a text in two

Every scanner takes some characters off the front of a text and hands back
what follows.  The result is a `Split`, and the first thing to know about a
scanner is that its split puts the text back together: `Split.whole`.
-/

namespace LuaRestyle

structure Split where
  taken : List Char
  rest : List Char
deriving DecidableEq, Repr

namespace Split

def whole (s : Split) : List Char := s.taken ++ s.rest

def behind (s : Split) (front : List Char) : Split := ⟨front ++ s.taken, s.rest⟩

def span (p : Char → Bool) (cs : List Char) : Split := ⟨cs.takeWhile p, cs.dropWhile p⟩

@[simp] theorem whole_mk (taken rest : List Char) :
    (Split.mk taken rest).whole = taken ++ rest := rfl

@[simp] theorem whole_behind (s : Split) (front : List Char) :
    (s.behind front).whole = front ++ s.whole := by
  simp [behind, whole]

@[simp] theorem rest_behind (s : Split) (front : List Char) :
    (s.behind front).rest = s.rest := rfl

@[simp] theorem taken_behind (s : Split) (front : List Char) :
    (s.behind front).taken = front ++ s.taken := rfl

@[simp] theorem whole_span (p : Char → Bool) (cs : List Char) :
    (span p cs).whole = cs :=
  List.takeWhile_append_dropWhile

variable {p : Char → Bool} {cs ds r : List Char}

theorem of_mem_taken_span {c : Char} (h : c ∈ (span p cs).taken) : p c = true :=
  List.all_eq_true.1 List.all_takeWhile c h

/-- Behind a run of characters stands none of their sort. -/
theorem head?_rest_span (p : Char → Bool) (cs : List Char) :
    ∀ b ∈ (span p cs).rest.head?, p b = false := by
  intro b hb
  have hnot := List.head?_dropWhile_not p cs
  rw [show (cs.dropWhile p).head? = some b from hb] at hnot
  simpa using hnot

/-- A run of characters is cut off in front of something else. -/
theorem span_run (hds : ∀ d ∈ ds, p d = true) (hr : ∀ b ∈ r.head?, p b = false) :
    span p (ds ++ r) = ⟨ds, r⟩ := by
  rw [span, List.takeWhile_append_of_pos hds, List.dropWhile_append_of_pos hds]
  cases r with
  | nil => simp
  | cons b r => simp [hr b rfl]

/-- A run that was cut off is cut off again. -/
theorem span_taken_append (hr : ∀ b ∈ r.head?, p b = false) :
    span p ((span p cs).taken ++ r) = ⟨(span p cs).taken, r⟩ :=
  span_run (fun _ => of_mem_taken_span) hr

end Split

end LuaRestyle
