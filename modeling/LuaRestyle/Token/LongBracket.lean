import LuaRestyle.Token.Split

/-!
# Long brackets

A long bracket of level `n` opens with two brackets around `n` equals signs
and extends to the first closer of the same level, whatever stands between
them.  Strings and comments share the form.
-/

namespace LuaRestyle.LongBracket

def opener (n : Nat) : List Char := '[' :: (List.replicate n '=' ++ ['['])

def closer (n : Nat) : List Char := ']' :: (List.replicate n '=' ++ [']'])

def level? : List Char → Option Nat
  | '[' :: cs =>
      if (cs.dropWhile (· == '=')).head? = some '[' then
        some (cs.takeWhile (· == '=')).length
      else none
  | _ => none

def splitBehind? (pattern : List Char) : List Char → Option Split
  | [] => none
  | c :: cs =>
      if pattern.isPrefixOf (c :: cs) then some ⟨pattern, (c :: cs).drop pattern.length⟩
      else (splitBehind? pattern cs).map (·.behind [c])

/-- Cut behind the long bracket of level `n` with which a text begins.  There is
none if the bracket is never closed. -/
def split? (n : Nat) (cs : List Char) : Option Split :=
  (splitBehind? (closer n) (cs.drop (n + 2))).map (·.behind (cs.take (n + 2)))

theorem whole_of_splitBehind? {pattern cs : List Char} {s : Split}
    (h : splitBehind? pattern cs = some s) : s.whole = cs := by
  induction cs generalizing s with
  | nil => simp [splitBehind?] at h
  | cons c cs ih =>
      rw [splitBehind?] at h
      split at h
      case isTrue hp =>
        cases h
        obtain ⟨t, ht⟩ := List.isPrefixOf_iff_prefix.1 hp
        simp [← ht]
      case isFalse hp =>
        obtain ⟨t, ht, rfl⟩ := Option.map_eq_some_iff.1 h
        simp [ih ht]

theorem whole_of_split? {n : Nat} {cs : List Char} {s : Split}
    (h : split? n cs = some s) : s.whole = cs := by
  obtain ⟨t, ht, rfl⟩ := Option.map_eq_some_iff.1 h
  simp [whole_of_splitBehind? ht]

end LuaRestyle.LongBracket
