import LuaRestyle.Naming.Basic
import LuaRestyle.Proofs.Scope.Rename

/-!
# Namings that capture nothing

A naming is free of capture if what cannot be renamed keeps its name, and all others
are given names, but no such name and not that of another variable in sight.  Then a program
written under the naming is walked in step with the program itself, and every
occurrence denotes the same variable as before: `Walk.run_rename`.
-/

namespace LuaRestyle

namespace Naming

def name (naming : Naming) (v : VarId) : String := (naming.names[v]?).getD ""

theorem size_set (naming : Naming) (v : VarId) (text : String) :
    (naming.set v text).names.size = naming.names.size :=
  Array.size_setIfInBounds

theorem name_set_self {naming : Naming} {v : VarId} (hv : v < naming.names.size) (text : String) :
    (naming.set v text).name v = text := by
  rw [name, set, Array.getElem?_setIfInBounds_self_of_lt hv]
  rfl

theorem name_set_of_ne {naming : Naming} {u v : VarId} (h : u ≠ v) (text : String) :
    (naming.set v text).name u = naming.name u := by
  rw [name, set, Array.getElem?_setIfInBounds_ne h.symm]
  rfl

theorem name_source {t : ScopeTree} {v : VarId} {x : Variable} (h : t.vars[v]? = some x) :
    (source t).name v = x.name := by
  rw [name, source, Array.getElem?_map, h]
  rfl

theorem mem_variablesOf {t : ScopeTree} {s : Scope} {v : VarId} {x : Variable} :
    (v, x) ∈ variablesOf t s ↔ v ∈ s.vars.toList ∧ t.vars[v]? = some x := by
  simp [variablesOf, List.mem_filterMap]

/-- Every variable is found in its scope. -/
theorem exists_mem_variablesOf {t : ScopeTree} (h : t.WellScoped) {v : VarId} {x : Variable}
    (hx : t.vars[v]? = some x) :
    ∃ s : Scope, t.scopes[x.scope]? = some s ∧ (v, x) ∈ variablesOf t s := by
  obtain ⟨s, hs, hv⟩ := h.listed v x hx
  exact ⟨s, hs, mem_variablesOf.2 ⟨hv, hx⟩⟩

/-- The variables found in a scope belong to it. -/
theorem scope_of_mem_variablesOf {t : ScopeTree} (h : t.WellScoped) {i : ScopeId} {s : Scope}
    (hs : t.scopes[i]? = some s) {v : VarId} {x : Variable} (hx : (v, x) ∈ variablesOf t s) :
    x.scope = i := by
  obtain ⟨hv, hx⟩ := mem_variablesOf.1 hx
  obtain ⟨y, hy, -, hscope⟩ := h.scope_of_mem hs hv
  rw [hx] at hy
  cases hy
  exact hscope

/-- A variable is found in its scope and in no other. -/
theorem mem_variablesOf_iff_scope {t : ScopeTree} (h : t.WellScoped) {i : ScopeId} {s : Scope}
    (hs : t.scopes[i]? = some s) {v : VarId} {x : Variable} :
    (v, x) ∈ variablesOf t s ↔ t.vars[v]? = some x ∧ x.scope = i := by
  constructor
  · exact fun hx => ⟨(mem_variablesOf.1 hx).2, scope_of_mem_variablesOf h hs hx⟩
  · rintro ⟨hx, rfl⟩
    obtain ⟨s', hs', hmem⟩ := exists_mem_variablesOf h hx
    rw [hs] at hs'
    cases hs'
    exact hmem

theorem lt_size_of_mem_variablesOf {t : ScopeTree} {s : Scope} {v : VarId} {x : Variable}
    (hx : (v, x) ∈ variablesOf t s) : v < t.vars.size :=
  (Array.getElem?_eq_some_iff.1 (mem_variablesOf.1 hx).2).1

theorem globals_eq {t : ScopeTree} {s : Scope} (hs : t.scopes[ScopeTree.globalScope]? = some s) :
    globals t = variablesOf t s := by
  rw [globals, hs, Option.elim_some]

/-- No variable is found twice in a scope. -/
theorem nodup_variablesOf {t : ScopeTree} (h : t.WellScoped) {i : ScopeId} {s : Scope}
    (hs : t.scopes[i]? = some s) : ((variablesOf t s).map (·.1)).Nodup := by
  have hsublist : ∀ vs : List VarId,
      ((vs.filterMap fun v => (t.vars[v]?).map (v, ·)).map (·.1)).Sublist vs := by
    intro vs
    induction vs with
    | nil => exact .slnil
    | cons v vs ih =>
        cases hv : t.vars[v]? with
        | none => simpa [hv] using ih.cons v
        | some x => simpa [hv] using ih.cons_cons v
  exact (hsublist _).nodup ((h.increasing i s hs).imp Nat.ne_of_lt)

/-- What is renamed gets a name, and none that could be taken for that of another
variable. -/
structure CaptureFree (naming : Naming) (t : ScopeTree) : Prop where
  size_eq : naming.names.size = t.vars.size
  kept : ∀ (v : VarId) (x : Variable), t.vars[v]? = some x → x.isRenamable = false →
    naming.name v = x.name
  fresh : ∀ (v : VarId) (x : Variable), t.vars[v]? = some x → x.isRenamable = true →
    naming.name v ∉ reserved t
  apart : ∀ (u v : VarId) (x y : Variable), t.vars[u]? = some x → t.vars[v]? = some y →
    x.isRenamable = true → y.isRenamable = true → t.Within x.scope y.scope →
    naming.name u = naming.name v → u = v
  named : ∀ (v : VarId) (x : Variable), t.vars[v]? = some x → x.isRenamable = true →
    isName (naming.name v) = true

theorem mem_reserved_of_not_isRenamable {t : ScopeTree} {v : VarId} {x : Variable}
    (hx : t.vars[v]? = some x) (hkeep : x.isRenamable = false) : x.name ∈ reserved t := by
  have hmem : x ∈ t.vars.toList := Array.mem_toList_iff.2 (Array.mem_of_getElem? hx)
  have hfilter : x ∈ t.vars.toList.filter (!·.isRenamable) :=
    List.mem_filter.2 ⟨hmem, by rw [hkeep]; rfl⟩
  exact List.mem_append_right _ (List.mem_cons_of_mem _ (List.mem_map_of_mem hfilter))

/-- A variable that can be renamed shares its name with none that cannot. -/
theorem CaptureFree.isRenamable_of_name_eq {naming : Naming} {t : ScopeTree}
    (h : naming.CaptureFree t) {u v : VarId} {x y : Variable} (hx : t.vars[u]? = some x)
    (hy : t.vars[v]? = some y) (hren : x.isRenamable = true ∨ y.isRenamable = true)
    (hname : naming.name u = naming.name v) : x.isRenamable = true ∧ y.isRenamable = true := by
  cases hxr : x.isRenamable with
  | false =>
      have hyr : y.isRenamable = true := hren.resolve_left (by simp [hxr])
      refine absurd ?_ (h.fresh v y hy hyr)
      rw [← hname, h.kept u x hx hxr]
      exact mem_reserved_of_not_isRenamable hx hxr
  | true =>
      cases hyr : y.isRenamable with
      | false =>
          refine absurd ?_ (h.fresh u x hx hxr)
          rw [hname, h.kept v y hy hyr]
          exact mem_reserved_of_not_isRenamable hy hyr
      | true => exact ⟨rfl, rfl⟩

/-- Of two variables that can be seen from one place, those with the same new name had
the same name before. -/
theorem CaptureFree.name_eq {naming : Naming} {t : ScopeTree} (h : naming.CaptureFree t)
    {u v : VarId} {x y : Variable} (hx : t.vars[u]? = some x) (hy : t.vars[v]? = some y)
    (hwithin : t.Within x.scope y.scope ∨ t.Within y.scope x.scope)
    (hname : naming.name u = naming.name v) : x.name = y.name := by
  by_cases hren : x.isRenamable = true ∨ y.isRenamable = true
  · obtain ⟨hxr, hyr⟩ := h.isRenamable_of_name_eq hx hy hren hname
    have huv : u = v := by
      rcases hwithin with hwithin | hwithin
      · exact h.apart u v x y hx hy hxr hyr hwithin hname
      · exact (h.apart v u y x hy hx hyr hxr hwithin hname.symm).symm
    subst huv
    rw [hx] at hy
    cases hy
    rfl
  · rw [not_or, Bool.not_eq_true, Bool.not_eq_true] at hren
    rw [← h.kept u x hx hren.1, ← h.kept v y hy hren.2, hname]

end Naming

namespace ScopeTree

variable {t t' : ScopeTree}

/-- Of two scopes around one, the one lies around the other. -/
theorem Within.total {i a b : ScopeId} (ha : t.Within i a) (hb : t.Within i b) :
    t.Within a b ∨ t.Within b a := by
  induction ha with
  | refl i => exact .inl hb
  | @inside i p a s hs hp ha ih =>
      cases hb with
      | refl => exact .inr (.inside hs hp ha)
      | inside hs' hp' hb =>
          rw [hs] at hs'
          cases hs'
          rw [hp] at hp'
          cases hp'
          exact ih hb

/-- The outermost scope lies around all others. -/
theorem WellScoped.within_global (h : t.WellScoped) {i : ScopeId} (hi : i < t.scopes.size) :
    t.Within i globalScope := by
  induction i using Nat.strongRecOn with
  | ind i ih =>
      by_cases hglobal : i = globalScope
      · rw [hglobal]
        exact .refl _
      · have hs : t.scopes[i]? = some t.scopes[i] := Array.getElem?_eq_getElem hi
        obtain ⟨p, hp⟩ := Option.isSome_iff_exists.1 (h.parent_isSome i _ hs hglobal)
        have hlt := h.parent_lt i p _ hs hp
        exact .inside hs hp (ih p hlt (Nat.lt_trans hlt hi))

end ScopeTree

namespace Walk

open ScopeTree

variable {w : Walk} {naming : Naming} {t : ScopeTree}

/-- Under a naming without capture the new name of what a name denotes is found
exactly where the name is. -/
theorem Sound.rename_resolveName (h : w.Sound) {k : String}
    (hnaming : naming.CaptureFree t) (hgrows : (w.resolveName k).1.Grows t) :
    (w.rename naming.name).resolveName (naming.name (w.resolveName k).2) =
      ((w.resolveName k).1.rename naming.name, (w.resolveName k).2) := by
  obtain ⟨-, hgrows', -, -, y, hy, hname⟩ := h.resolveName k
  -- What the name denotes is in sight from where the walk stands.
  have hsight : w.tree.Within w.current y.scope := by
    rw [Walk.resolveName] at hy
    split at hy
    case h_1 v hv =>
      obtain ⟨x, hx, -, hwithin⟩ := h.tree.exists_of_lookup hv
      rw [hx] at hy
      cases hy
      exact hwithin
    case h_2 =>
      rw [getElem?_vars_declare, if_pos rfl] at hy
      cases hy
      exact h.tree.within_global h.current_lt
  refine Walk.rename_resolveName (lookupUpTo_rename ?_ ?_) ?_
  · rintro a s hwithin hs ⟨n, u⟩ hentry hu
    obtain ⟨x, hx, rfl, hscope⟩ := h.tree.named a s hs n u hentry
    obtain ⟨x', hx', hsame⟩ := (hgrows'.trans hgrows).vars u x hx
    obtain ⟨y', hy', hsame'⟩ := hgrows.vars _ y hy
    have hboth := (hwithin.total hsight).imp (·.mono (hgrows'.trans hgrows))
      (·.mono (hgrows'.trans hgrows))
    rw [← hscope, ← hsame.scope_eq, ← hsame'.scope_eq] at hboth
    have hnames := hnaming.name_eq hx' hy' hboth hu
    rw [← hsame.name_eq, hnames, hsame'.name_eq, hname]
  · intro v hv
    rw [Walk.resolveName, show w.tree.lookup w.current k = some v from hv]
  · intro hnone
    rw [Walk.resolveName, hnone]

/-- A variable that a walk declares keeps its name if it cannot be renamed later. -/
theorem name_of_declare (hnaming : naming.CaptureFree t) {x : Ident} {kind : VariableKind}
    {index : Nat} {implicit : Bool} (hgrows : (w.declare x kind index implicit).tree.Grows t)
    (hkeep : implicit = true ∨ kind = .vararg) : naming.name w.tree.vars.size = x.name := by
  have hnew : (w.introduce x.name kind index implicit).tree.vars[w.tree.vars.size]? =
      some ⟨x.name, kind, w.current, index, #[], false, implicit⟩ := by
    rw [introduce, getElem?_vars_declare, if_pos rfl]
  obtain ⟨y, hy, hsame⟩ := ((Grows.bind x.id w.tree.vars.size).trans hgrows).vars _ _ hnew
  have hyr : y.isRenamable = false := by
    rcases hkeep with rfl | rfl
    · simp [Variable.isRenamable, hsame.implicit_eq]
    · simp [Variable.isRenamable, hsame.kind_eq]
  rw [hnaming.kept _ y hy hyr, hsame.name_eq]

/-- What a respelled step does is what the step does, but for names. -/
theorem Sound.rename_step (h : w.Sound) {f : Ident → String} {s s' : Step}
    (hs : s.Respelled f s') (hnaming : naming.CaptureFree t)
    (hgrows : (w.step s).tree.Grows t)
    (hdots : ∀ (v : VarId) (x : Variable), t.vars[v]? = some x → x.name = "..." →
      x.isRenamable = false)
    (hf : ∀ x, s.ident? = some x → ∀ v, (w.step s).tree.binding x.id = some v →
      f x = naming.name v) :
    (w.rename naming.name).step s' = (w.step s).rename naming.name := by
  cases hs with
  | enter kind => exact (rename_enter h kind).symm
  | leave => exact rename_leave.symm
  | declare x kind index =>
      have hx := hf x rfl w.tree.vars.size (binding_bind_self _ _)
      rw [Ident.respell, hx]
      exact (rename_declare x kind index false).symm
  | self id =>
      have hself := name_of_declare hnaming hgrows (.inl rfl)
      refine Eq.trans ?_ (rename_declare _ _ _ _).symm
      rw [hself]
      rfl
  | dots id =>
      have hself := name_of_declare hnaming hgrows (.inr rfl)
      refine Eq.trans ?_ (rename_declare _ _ _ _).symm
      rw [hself]
      rfl
  | refer x =>
      have hx := hf x rfl (w.resolveName x.name).2 (binding_bind_self _ _)
      rw [Ident.respell, hx]
      exact (rename_refer (h.rename_resolveName hnaming ((Grows.bind _ _).trans hgrows))).symm
  | referDots id =>
      have hgrows' : (w.resolveName "...").1.Grows t := (Grows.bind _ _).trans hgrows
      obtain ⟨-, -, -, -, y, hy, hname⟩ := h.resolveName "..."
      obtain ⟨y', hy', hsame⟩ := hgrows'.vars _ y hy
      have hname' : y'.name = "..." := hsame.name_eq.trans hname
      have hkept := (hnaming.kept _ y' hy' (hdots _ y' hy' hname')).trans hname'
      have hresolve := h.rename_resolveName hnaming hgrows'
      rw [hkept] at hresolve
      exact (rename_refer (x := Occurrences.dots id) hresolve).symm
  | assign x =>
      have hx := hf x rfl (w.resolveName x.name).2 (binding_bind_self _ _)
      rw [Ident.respell, hx]
      exact (rename_assign (h.rename_resolveName hnaming
        (((Grows.bind _ _).trans (.markAssigned _)).trans hgrows))).symm

/-- A walk over respelled steps goes as the walk over the steps, but for names. -/
theorem Sound.rename_run (h : w.Sound) {f : Ident → String} {ss ss' : List Step}
    (hss : Steps.Respelled f ss ss') (hids : ((Steps.idents ss).map (·.id)).Nodup)
    (hnaming : naming.CaptureFree (w.run ss).tree)
    (hdots : ∀ (v : VarId) (x : Variable), (w.run ss).tree.vars[v]? = some x →
      x.name = "..." → x.isRenamable = false)
    (hf : ∀ x ∈ Steps.idents ss, ∀ v, (w.run ss).tree.binding x.id = some v →
      f x = naming.name v) :
    (w.rename naming.name).run ss' = (w.run ss).rename naming.name := by
  induction hss generalizing w with
  | nil => rfl
  | @cons s s' ss ss' hs _ ih =>
      obtain ⟨hsound, -⟩ := h.step s
      -- An occurrence is bound where the walk passes it and nowhere after.
      have hfix : ∀ x, s.ident? = some x → x ∈ Steps.idents (s :: ss) ∧
          (w.run (s :: ss)).tree.binding x.id = (w.step s).tree.binding x.id := by
        intro x hx
        rw [idents_cons hx, List.map_cons, List.nodup_cons] at hids
        rw [idents_cons hx, run_cons]
        exact ⟨List.mem_cons_self, hsound.binding_run_of_ne fun y hy heq =>
          hids.1 (List.mem_map.2 ⟨y, hy, heq⟩)⟩
      have hstep := h.rename_step hs hnaming (hsound.run ss).2 hdots fun x hx v hv =>
        hf x (hfix x hx).1 v ((hfix x hx).2.trans hv)
      have hsublist : (Steps.idents ss).Sublist (Steps.idents (s :: ss)) :=
        (List.sublist_cons_self s ss).filterMap _
      rw [run_cons, run_cons, hstep]
      exact ih hsound ((hsublist.map _).nodup hids) hnaming hdots fun x hx =>
        hf x (hsublist.subset hx)

end Walk

end LuaRestyle
