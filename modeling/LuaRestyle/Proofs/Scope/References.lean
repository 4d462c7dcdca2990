import LuaRestyle.Proofs.Scope.Coherent
import Mathlib.Data.List.Nodup

/-!
# The references of all variables

A walk adds each occurrence that it passes to the references of one variable.  The references
of all variables together are therefore the occurrences of the program, as often as they occur
in it: `Walk.Sound.references_run`.

If no two occurrences have the same number, a variable lists exactly those that are bound to
it.
-/

namespace LuaRestyle

namespace ScopeTree

variable {tree : ScopeTree}

def references (t : ScopeTree) : List NameId := t.vars.toList.flatMap (·.references.toList)

theorem references_declare {x : Variable} (hx : x.references = #[]) :
    (tree.declare x).references = tree.references := by
  simp [references, declare, hx]

theorem references_bind {v : VarId} (hv : v < tree.vars.size) (id : NameId) :
    (tree.bind id v).references.Perm (id :: tree.references) := by
  obtain ⟨before, x, behind, hvars, -, hmodify⟩ := List.exists_of_modify
    (fun y : Variable => { y with references := y.references.push id })
    (Nat.lt_of_lt_of_eq hv Array.length_toList.symm)
  have hbind : (tree.bind id v).vars.toList =
      before ++ { x with references := x.references.push id } :: behind :=
    Array.toList_modify.trans hmodify
  simp only [references, hvars, hbind, List.flatMap_append, List.flatMap_cons, Array.toList_push,
    List.append_assoc, List.singleton_append]
  rw [← List.append_assoc, ← List.append_assoc]
  exact List.perm_middle

theorem references_markAssigned (v : VarId) :
    (tree.markAssigned v).references = tree.references := by
  have hmap : (tree.markAssigned v).vars.toList.map (·.references.toList) =
      tree.vars.toList.map (·.references.toList) := by
    apply List.ext_getElem?
    intro u
    rw [List.getElem?_map, List.getElem?_map, Array.getElem?_toList, Array.getElem?_toList,
      getElem?_vars_markAssigned, Option.map_map]
    congr 1
    funext x
    simp only [Function.comp_apply]
    split <;> rfl
  rw [references, references, List.flatMap_def, List.flatMap_def, hmap]

/-- If the references do not repeat, a variable lists exactly the occurrences that are bound to
it. -/
theorem Traced.binding_eq_some_iff (h : tree.Traced) (hnodup : tree.references.Nodup)
    (id : NameId) (v : VarId) : tree.binding id = some v ↔ tree.Refers v id := by
  refine ⟨h.refers_of_binding id v, fun hv => ?_⟩
  obtain ⟨u, hu⟩ := Option.isSome_iff_exists.1 ((h.isSome_binding id).2 ⟨v, hv⟩)
  obtain ⟨x, hx, hidx⟩ := hv
  obtain ⟨y, hy, hidy⟩ := h.refers_of_binding id u hu
  rw [← Array.getElem?_toList] at hx hy
  obtain ⟨hxlt, hx⟩ := List.getElem?_eq_some_iff.1 hx
  obtain ⟨hylt, hy⟩ := List.getElem?_eq_some_iff.1 hy
  have hdisjoint := List.pairwise_iff_getElem.1 (List.nodup_flatMap.1 hnodup).2
  -- Two variables that list the same occurrence are one.
  rcases Nat.lt_trichotomy u v with hlt | heq | hlt
  · have hapart := hdisjoint u v hylt hxlt hlt
    rw [hx, hy] at hapart
    exact absurd hidx (hapart hidy)
  · rw [hu, heq]
  · have hapart := hdisjoint v u hxlt hylt hlt
    rw [hx, hy] at hapart
    exact absurd hidy (hapart hidx)

end ScopeTree

namespace Walk

open ScopeTree

variable {w : Walk}

theorem references_resolveName (w : Walk) (name : String) :
    (w.resolveName name).1.references = w.tree.references := by
  rw [resolveName]
  split
  case h_1 => rfl
  case h_2 => exact references_declare rfl

/-- A step adds the occurrence that it passes to the references, and nothing else. -/
theorem Sound.references_step (h : w.Sound) (s : Step) :
    (w.step s).tree.references.Perm ((s.ident?.map (·.id)).toList ++ w.tree.references) := by
  cases s with
  | enter kind => exact .refl _
  | leave => exact .refl _
  | declare x kind index implicit =>
      have hlt : w.tree.vars.size <
          (w.introduce x.name kind index implicit).tree.vars.size := by
        simp [Walk.introduce, ScopeTree.declare]
      have hbind := references_bind hlt x.id
      rwa [show (w.introduce x.name kind index implicit).tree.references = w.tree.references from
        references_declare rfl] at hbind
  | refer x =>
      obtain ⟨-, -, -, -, y, hy, -⟩ := h.resolveName x.name
      have hbind := references_bind (Array.getElem?_eq_some_iff.1 hy).1 x.id
      rwa [references_resolveName] at hbind
  | assign x =>
      obtain ⟨-, -, -, -, y, hy, -⟩ := h.resolveName x.name
      have hbind := references_bind (Array.getElem?_eq_some_iff.1 hy).1 x.id
      rwa [references_resolveName, ← references_markAssigned (w.resolveName x.name).2] at hbind

/-- After a walk the references are those of before and the occurrences that were passed. -/
theorem Sound.references_run (h : w.Sound) (ss : List Step) :
    (w.run ss).tree.references.Perm ((Steps.idents ss).map (·.id) ++ w.tree.references) := by
  induction ss generalizing w with
  | nil => exact .refl _
  | cons s ss ih =>
      have hstep := h.references_step s
      have hrun := ih (h.step s).1
      rw [run_cons]
      cases hs : s.ident? with
      | none =>
          rw [hs] at hstep
          rw [Sound.idents_cons_none hs]
          exact hrun.trans (hstep.append_left _)
      | some x =>
          rw [hs] at hstep
          rw [Sound.idents_cons hs]
          exact hrun.trans ((hstep.append_left _).trans List.perm_middle)

end Walk

/-- The references in the scope tree of a program are its occurrences. -/
theorem references_resolve (chunk : Chunk) :
    (resolve chunk).references.Perm ((Occurrences.stats chunk.body).map (·.id)) := by
  have hrun := (Walk.sound_start chunk.nameCount).references_run (Steps.stats chunk.body)
  have hstart : (Walk.start chunk.nameCount).tree.references = [] := rfl
  rw [hstart, List.append_nil] at hrun
  rw [resolve_eq_run]
  exact hrun.trans ((Steps.idents_stats chunk.body).map (·.id))

end LuaRestyle
