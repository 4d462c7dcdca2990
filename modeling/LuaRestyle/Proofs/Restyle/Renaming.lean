import LuaRestyle.Proofs.Naming.Descriptive
import LuaRestyle.Proofs.Naming.Short
import LuaRestyle.Proofs.Parse.Grammatical
import LuaRestyle.Proofs.Restyle.Faithful
import LuaRestyle.Proofs.Scope.Orderly

/-!
# Renaming keeps what a program means

A program under its shortest names, or under names that say what a variable is, is
resolved to the scope tree that it had before: only the names in it are others.
-/

namespace LuaRestyle

namespace Walk

open ScopeTree

/-- No walk begins with anything that can be renamed. -/
theorem rename_start {n : Nat} {naming : Naming} {t : ScopeTree} (hnaming : naming.CaptureFree t)
    (hgrows : (start n).tree.Grows t) : (start n).rename naming.name = start n := by
  have hkept : ∀ (v : VarId) (x : Variable), (start n).tree.vars[v]? = some x →
      x.implicit = true → naming.name v = x.name := by
    intro v x hx himplicit
    obtain ⟨y, hy, hsame⟩ := hgrows.vars v x hx
    have hkeep : y.isRenamable = false := by
      simp [Variable.isRenamable, hsame.implicit_eq, himplicit]
    rw [hnaming.kept v y hy hkeep, hsame.name_eq]
  have henv : naming.name 0 = "_ENV" := hkept 0 _ rfl rfl
  have hdots : naming.name 1 = "..." := hkept 1 _ rfl rfl
  have htree : (start n).tree.rename naming.name = (start n).tree := by
    simp [start, introduce, enter, addScope, ScopeTree.declare, ScopeTree.rename, Scope.rename, globalScope,
      henv, hdots]
  rw [rename, htree]

end Walk

/-- An occurrence is spelled as the variable that it denotes is named. -/
theorem spell_eq_name {t : ScopeTree} {naming : Naming} (hnaming : naming.CaptureFree t)
    {x : Ident} {v : VarId} {y : Variable} (hv : t.binding x.id = some v)
    (hy : t.vars[v]? = some y) : t.spell naming x = naming.name v := by
  have hlt : v < naming.names.size := by
    rw [hnaming.size_eq]
    exact (Array.getElem?_eq_some_iff.1 hy).1
  rw [ScopeTree.spell, hv, Option.bind_some, Naming.name, Array.getElem?_eq_getElem hlt]
  rfl

theorem wellScoped_resolve (chunk : Chunk) : (resolve chunk).WellScoped := by
  rw [resolve_eq_run]
  exact ((Walk.sound_start _).run _).1.tree

theorem scopes_resolve_pos (chunk : Chunk) : 0 < (resolve chunk).scopes.size := by
  rw [resolve_eq_run]
  exact Nat.lt_of_le_of_lt (Nat.zero_le _) ((Walk.sound_start _).run _).1.current_lt

theorem captureFree_short_resolve (chunk : Chunk) :
    (Naming.short (resolve chunk)).CaptureFree (resolve chunk) :=
  Naming.captureFree_short (wellScoped_resolve chunk)

theorem captureFree_descriptive_resolve {chunk : Chunk} (h : chunk.isGrammatical = true) :
    (Naming.descriptive (resolve chunk)).CaptureFree (resolve chunk) := by
  have hparams : Naming.DistinctParams (resolve chunk) := by
    rw [resolve_eq_run]
    exact (regular_resolve h).places
  exact Naming.captureFree_descriptive (wellScoped_resolve chunk) hparams
    (scopes_resolve_pos chunk)

/-- Under a naming without capture a grammatical program is resolved as before, but for
names. -/
theorem resolve_respell {tokens : List Token} {chunk : Chunk} (hparse : parse tokens = .ok chunk)
    (hgrammar : chunk.isGrammatical = true) {naming : Naming}
    (hnaming : naming.CaptureFree (resolve chunk)) :
    resolve (chunk.respell ((resolve chunk).spell naming)) =
      (resolve chunk).rename naming.name := by
  have hsound := Walk.sound_start chunk.nameCount
  have hids := parse_nodup hparse
  have hdots := (regular_resolve hgrammar).dots
  have hf : ∀ x ∈ Steps.idents (Steps.stats chunk.body), ∀ v,
      (resolve chunk).binding x.id = some v →
        (resolve chunk).spell naming x = naming.name v := by
    intro x hx v hv
    obtain ⟨u, y, hu, hy, -⟩ :=
      exists_binding_resolve hparse ((Steps.idents_stats chunk.body).mem_iff.1 hx)
    rw [hv] at hu
    cases hu
    exact spell_eq_name hnaming hv hy
  generalize hspell : (resolve chunk).spell naming = f at hf ⊢
  rw [resolve_eq_run] at hnaming hf ⊢
  rw [resolve_eq_run]
  have hrun := hsound.rename_run (Steps.respelled_stats f chunk.body) hids hnaming
    (fun v x hx hname => by
      rcases hdots v x hx hname with h | h | ⟨h, h'⟩
      · simp [Variable.isRenamable, h]
      · simp [Variable.isRenamable, h]
      · simp [Variable.isRenamable, h, h']) hf
  rw [Walk.rename_start hnaming (hsound.run _).2] at hrun
  exact congrArg Walk.tree hrun

/-- Renaming captures nothing.  Under its shortest names, and under names that say what
a variable is, every occurrence of a name is written as the variable that it denotes is
named, and the program so written is resolved to the same scopes, the same variables and
the same bindings, with the variables under their new names. -/
theorem resolve_respell_eq_rename {source : String} {chunk : Chunk}
    (h : readProgram source = .ok chunk) :
    ∀ naming ∈ [Naming.short (resolve chunk), Naming.descriptive (resolve chunk)],
      (∀ x ∈ Occurrences.stats chunk.body, ∃ v, (resolve chunk).binding x.id = some v ∧
        v < naming.names.size ∧ (resolve chunk).spell naming x = naming.name v) ∧
      resolve (chunk.respell ((resolve chunk).spell naming)) =
        (resolve chunk).rename naming.name := by
  obtain ⟨tokens, htokens, hparse⟩ := readProgram_eq_ok h
  have hgrammar := isGrammatical_of_parse (is_of_mem_tokenize htokens) hparse
  intro naming hmem
  have hnaming : naming.CaptureFree (resolve chunk) := by
    rcases List.mem_cons.1 hmem with rfl | hmem
    · exact captureFree_short_resolve chunk
    · rw [List.mem_singleton.1 hmem]
      exact captureFree_descriptive_resolve hgrammar
  refine ⟨fun x hx => ?_, resolve_respell hparse hgrammar hnaming⟩
  obtain ⟨v, y, hv, hy, -⟩ := exists_binding_resolve hparse hx
  have hlt : v < naming.names.size := by
    rw [hnaming.size_eq]
    exact (Array.getElem?_eq_some_iff.1 hy).1
  exact ⟨v, hv, hlt, spell_eq_name hnaming hv hy⟩

theorem resolve_respell_eq_rename_shadowing :
    ∃ chunk, readProgram "local x, x = ... function f:g(a, b) local a = self; y = z(a, b, f) end" =
        .ok chunk ∧
      ∀ naming ∈ [Naming.short (resolve chunk), Naming.descriptive (resolve chunk)],
        (∀ x ∈ Occurrences.stats chunk.body, ∃ v, (resolve chunk).binding x.id = some v ∧
          v < naming.names.size ∧ (resolve chunk).spell naming x = naming.name v) ∧
        resolve (chunk.respell ((resolve chunk).spell naming)) =
          (resolve chunk).rename naming.name := by
  obtain ⟨chunk, hchunk⟩ := exists_eq_ok (r := readProgram
    "local x, x = ... function f:g(a, b) local a = self; y = z(a, b, f) end") (by decide +kernel)
  exact ⟨chunk, hchunk, resolve_respell_eq_rename hchunk⟩

end LuaRestyle
