import LuaRestyle.Naming.Basic

/-!
# The shortest names

The variables of a scope are named one after the other, each with the first
short name behind those of the variables named before it in this scope and
around it.  Scopes side by side begin with the same name.

Nothing has to be searched but the reserved names: along the way from the
outermost scope to a variable the short names are handed out in order, so what
lies before the next one is reserved or in use, and what lies behind is not in
use.
-/

namespace LuaRestyle.Naming

/-- The number of the first short name from `index` on that is not reserved, if
there is one among the next `n`. -/
def nextFree (reserved : List String) : Nat → Nat → Nat
  | 0, index => index
  | n + 1, index =>
      if reserved.contains (wordAt index) then nextFree reserved n (index + 1) else index

/-- The number of the first short name from `index` on that is not reserved.  It
cannot be further away than there are reserved names. -/
def firstFree (reserved : List String) (index : Nat) : Nat :=
  nextFree reserved reserved.length index

/-- Name a variable.  The names from the given number on are not in use. -/
def shorten (reserved : List String) (state : Naming × Nat) (entry : VarId × Variable) :
    Naming × Nat :=
  if entry.2.isRenamable then
    let index := firstFree reserved state.2
    (state.1.set entry.1 (wordAt index), index + 1)
  else state

/-- A naming under way, and for every scope passed so far the number of the first
name that is not in use there. -/
structure ShortState where
  naming : Naming
  unused : Array Nat := #[]

/-- Name the variables of a scope.  The scope around it has been passed before. -/
def shortenScope (tree : ScopeTree) (reserved : List String) (state : ShortState)
    (s : Scope) : ShortState :=
  let around := (s.parent.bind (state.unused[·]?)).getD 0
  let (naming, unused) :=
    (variablesOf tree s).foldl (shorten reserved) (state.naming, around)
  ⟨naming, state.unused.push unused⟩

/-- The shortest names.  A search among all short names, from the first one on, would give the
same: each is the first that is neither reserved nor taken, `Naming.isLeast_short`. -/
def short (tree : ScopeTree) : Naming :=
  (tree.scopes.toList.foldl (shortenScope tree (reserved tree)) { naming := source tree }).naming

@[simp] theorem nextFree_zero (reserved : List String) (index : Nat) :
    nextFree reserved 0 index = index := rfl

theorem le_nextFree (reserved : List String) (n index : Nat) :
    index ≤ nextFree reserved n index := by
  induction n generalizing index with
  | zero => exact Nat.le_refl index
  | succ n ih =>
      rw [nextFree]
      split
      · exact Nat.le_trans (Nat.le_succ index) (ih (index + 1))
      · exact Nat.le_refl index

/-- Everything that the search passes over is reserved. -/
theorem mem_reserved_of_lt_nextFree {reserved : List String} {n index i : Nat}
    (hle : index ≤ i) (hlt : i < nextFree reserved n index) : wordAt i ∈ reserved := by
  induction n generalizing index with
  | zero =>
      rw [nextFree_zero] at hlt
      omega
  | succ n ih =>
      rw [nextFree] at hlt
      split at hlt
      case isTrue h =>
        rcases Nat.eq_or_lt_of_le hle with rfl | hlt'
        · exact List.contains_iff_mem.1 h
        · exact ih hlt' hlt
      case isFalse h => omega

end LuaRestyle.Naming
