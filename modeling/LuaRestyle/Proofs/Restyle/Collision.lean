import LuaRestyle.Proofs.Restyle.Renaming

/-!
# No two variables share a name

Both namings keep apart what could be taken for each other.  The shortest names are used again
where the scopes of two variables do not lie in each other, and the names that say what a variable
is are never used again.  No assumption is made on the program, not even that its names are names:
the tree of a chunk is orderly whatever its tokens spell.
-/

namespace LuaRestyle

theorem distinctParams_resolve (chunk : Chunk) : Naming.DistinctParams (resolve chunk) := by
  rw [resolve_eq_run]
  exact (placed_resolve chunk).places

theorem captureFree_naming (chunk : Chunk) {naming : Naming}
    (h : naming ∈ [Naming.short (resolve chunk), Naming.descriptive (resolve chunk)]) :
    naming.CaptureFree (resolve chunk) := by
  rcases List.mem_pair.1 h with rfl | rfl
  · exact captureFree_short_resolve chunk
  · exact Naming.captureFree_descriptive (wellScoped_resolve chunk) (distinctParams_resolve chunk)
      (scopes_resolve_pos chunk)

/-- Names do not collide.  Under both namings what cannot be renamed keeps its name, and what can
is given a name that is no reserved word.  Of two variables one of which can be renamed, the
shortest names differ if the scope of one lies in that of the other, and the names that say what a
variable is differ wherever the two are. -/
theorem naming_collision_free (chunk : Chunk) :
    (∀ naming ∈ [Naming.short (resolve chunk), Naming.descriptive (resolve chunk)],
      naming.names.size = (resolve chunk).vars.size ∧
        ∀ (v : VarId) (x : Variable), (resolve chunk).vars[v]? = some x →
          (x.isRenamable = false → naming.name v = x.name) ∧
          (x.isRenamable = true → isName (naming.name v) = true ∧ naming.name v ≠ "goto")) ∧
      (∀ (v w : VarId) (x y : Variable), (resolve chunk).vars[v]? = some x →
        (resolve chunk).vars[w]? = some y → v ≠ w → (resolve chunk).Within x.scope y.scope →
        x.isRenamable = true ∨ y.isRenamable = true →
          (Naming.short (resolve chunk)).name v ≠ (Naming.short (resolve chunk)).name w) ∧
      ∀ (v w : VarId) (x y : Variable), (resolve chunk).vars[v]? = some x →
        (resolve chunk).vars[w]? = some y → v ≠ w →
        x.isRenamable = true ∨ y.isRenamable = true →
          (Naming.descriptive (resolve chunk)).name v ≠
            (Naming.descriptive (resolve chunk)).name w := by
  refine ⟨fun naming hmem => ?_, ?_, ?_⟩
  · have hfree := captureFree_naming chunk hmem
    refine ⟨hfree.size_eq, fun v x hx => ⟨hfree.kept v x hx, fun hren => ?_⟩⟩
    refine ⟨hfree.named v x hx hren, fun hgoto => hfree.fresh v x hx hren ?_⟩
    rw [hgoto]
    exact List.mem_append_right _ List.mem_cons_self
  · intro v w x y hx hy hne hwithin hren hname
    have hfree := captureFree_naming chunk List.mem_cons_self
    obtain ⟨hxr, hyr⟩ := hfree.isRenamable_of_name_eq hx hy hren hname
    exact hne (hfree.apart v w x y hx hy hxr hyr hwithin hname)
  · intro v w x y hx hy hne hren hname
    have hfree := captureFree_naming chunk (List.mem_cons_of_mem _ List.mem_cons_self)
    obtain ⟨hxr, hyr⟩ := hfree.isRenamable_of_name_eq hx hy hren hname
    exact hne (Naming.eq_of_descriptive_eq (wellScoped_resolve chunk)
      (distinctParams_resolve chunk) hx hy hxr hyr hname)

/-- A variable of an inner scope, and a global variable of another program that is called as the
first one of this program would be. -/
theorem naming_collision_free_global :
    ∃ chunk, readProgram "x = G_1 function f() local G_1 = x end" = .ok chunk ∧
      ∃ (v w : VarId) (x y : Variable), (resolve chunk).vars[v]? = some x ∧
        (resolve chunk).vars[w]? = some y ∧ v ≠ w ∧ (resolve chunk).Within x.scope y.scope ∧
        x.isRenamable = true ∧ y.name = "G_1" ∧
        (Naming.short (resolve chunk)).name v ≠ (Naming.short (resolve chunk)).name w ∧
        (Naming.descriptive (resolve chunk)).name v ≠
          (Naming.descriptive (resolve chunk)).name w := by
  obtain ⟨chunk, hchunk, hvars⟩ := exists_eq_ok_and
    (r := readProgram "x = G_1 function f() local G_1 = x end")
    (p := fun chunk => (resolve chunk).vars[5]?.any (·.isRenamable) &&
      (resolve chunk).vars[3]?.any fun y => y.name == "G_1" && y.scope == ScopeTree.globalScope)
    (by decide +kernel)
  simp only [Bool.and_eq_true, Option.any_eq_true, beq_iff_eq] at hvars
  obtain ⟨⟨x, hx, hren⟩, y, hy, hname, hglobal⟩ := hvars
  obtain ⟨s, hs, -⟩ := (wellScoped_resolve chunk).listed 5 x hx
  have hwithin : (resolve chunk).Within x.scope y.scope := by
    rw [hglobal]
    exact (wellScoped_resolve chunk).within_global (Array.getElem?_eq_some_iff.1 hs).1
  obtain ⟨-, hshort, hdescriptive⟩ := naming_collision_free chunk
  exact ⟨chunk, hchunk, 5, 3, x, y, hx, hy, by decide, hwithin, hren, hname,
    hshort 5 3 x y hx hy (by decide) hwithin (.inl hren),
    hdescriptive 5 3 x y hx hy (by decide) (.inl hren)⟩

end LuaRestyle
