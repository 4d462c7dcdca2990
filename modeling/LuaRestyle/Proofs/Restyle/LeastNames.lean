import LuaRestyle.Proofs.Naming.Least
import LuaRestyle.Proofs.Restyle.Renaming

/-!
# The shortest names are the least

Words come in the order of their length, and those of one length in the order of the alphabet.
In every program the globals that can be renamed are named with the first words that are not
reserved, in the order in which they stand, and every other variable with the least word that
nothing in its sight is called.
-/

namespace LuaRestyle

/-- The shortest names are the least possible.  Of the words that are not reserved exactly `k` come
before the name of the renamable global at place `k`.  A renamable variable of another scope is
named with a word that is free where it stands, and every other free word comes behind it. -/
theorem short_names_least (chunk : Chunk) :
    (∀ (k : Nat) (v : VarId) (x : Variable),
      (Naming.renamable (Naming.globals (resolve chunk)))[k]? = some (v, x) →
        IsWord ((Naming.short (resolve chunk)).name v) ∧
        (Naming.short (resolve chunk)).name v ∉ Naming.reserved (resolve chunk) ∧
        {word | IsWord word ∧ word ∉ Naming.reserved (resolve chunk) ∧
          Precedes word ((Naming.short (resolve chunk)).name v)}.encard = k) ∧
      ∀ (v : VarId) (x : Variable), (resolve chunk).vars[v]? = some x →
        x.isRenamable = true → x.scope ≠ ScopeTree.globalScope →
          ∃ s : Scope, (resolve chunk).scopes[x.scope]? = some s ∧ v ∈ s.vars.toList ∧
            Naming.Free (resolve chunk) (Naming.short (resolve chunk)) x.scope
              (Naming.earlier s v) ((Naming.short (resolve chunk)).name v) ∧
            ∀ word, Naming.Free (resolve chunk) (Naming.short (resolve chunk)) x.scope
              (Naming.earlier s v) word →
                word = (Naming.short (resolve chunk)).name v ∨
                  Precedes ((Naming.short (resolve chunk)).name v) word :=
  ⟨fun _ _ _ h => Naming.encard_short_globals (wellScoped_resolve chunk) h,
    fun _ _ hx hren hinner => Naming.free_short (wellScoped_resolve chunk) hx hren hinner⟩

/-- Three of the first words are names of other programs: the second global is called `e`, and the
second variable of the function `g`. -/
theorem short_names_least_reserved :
    ∃ chunk, readProgram "x = a, c function f(u) local v = b(u) end" = .ok chunk ∧
      (∃ (v : VarId) (x : Variable),
        (Naming.renamable (Naming.globals (resolve chunk)))[1]? = some (v, x) ∧
          {word | IsWord word ∧ word ∉ Naming.reserved (resolve chunk) ∧
            Precedes word "e"}.encard = 1) ∧
      ∃ (v : VarId) (x : Variable) (s : Scope), (resolve chunk).vars[v]? = some x ∧
        x.isRenamable = true ∧ x.scope ≠ ScopeTree.globalScope ∧
        (resolve chunk).scopes[x.scope]? = some s ∧
        ∀ word, Naming.Free (resolve chunk) (Naming.short (resolve chunk)) x.scope
          (Naming.earlier s v) word → word = "g" ∨ Precedes "g" word := by
  obtain ⟨chunk, hchunk, hvars⟩ := exists_eq_ok_and
    (r := readProgram "x = a, c function f(u) local v = b(u) end")
    (p := fun chunk => ((Naming.renamable (Naming.globals (resolve chunk)))[1]?.any fun e =>
        (Naming.short (resolve chunk)).name e.1 == "e") &&
      ((resolve chunk).vars[8]?.any fun x => x.isRenamable && x.scope != ScopeTree.globalScope) &&
      (Naming.short (resolve chunk)).name 8 == "g")
    (by decide +kernel)
  simp only [Bool.and_eq_true, Option.any_eq_true, beq_iff_eq, bne_iff_ne] at hvars
  obtain ⟨⟨⟨⟨v, x⟩, hv, hvname⟩, y, hy, hren, hinner⟩, hname⟩ := hvars
  obtain ⟨-, -, hcount⟩ := (short_names_least chunk).1 1 v x hv
  obtain ⟨s, hs, -, -, hleast⟩ := (short_names_least chunk).2 8 y hy hren hinner
  rw [hvname] at hcount
  rw [hname] at hleast
  exact ⟨chunk, hchunk, ⟨v, x, hv, hcount⟩, 8, y, s, hy, hren, hinner, hs, hleast⟩

end LuaRestyle
