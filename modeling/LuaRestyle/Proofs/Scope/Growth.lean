import LuaRestyle.Proofs.Scope.Step

/-!
# How a scope tree grows

A scope tree grows by four operations, and each is described here by what it
does to the scope, the variable and the binding with a given number.  What is
once declared never changes its name, its kind, its place or its scope, and no
scope is moved: `Grows` says that one tree is a later state of another.

`WellScoped` says that scopes lie inside scopes with smaller numbers, and that
a scope and its variables name each other.
-/

namespace LuaRestyle

namespace Variable

structure SameDeclaration (x y : Variable) : Prop where
  name_eq : x.name = y.name
  kind_eq : x.kind = y.kind
  scope_eq : x.scope = y.scope
  index_eq : x.index = y.index
  implicit_eq : x.implicit = y.implicit

theorem SameDeclaration.refl (x : Variable) : x.SameDeclaration x := ⟨rfl, rfl, rfl, rfl, rfl⟩

theorem SameDeclaration.trans {x y z : Variable} (h : x.SameDeclaration y)
    (h' : y.SameDeclaration z) : x.SameDeclaration z :=
  ⟨h.1.trans h'.1, h.2.trans h'.2, h.3.trans h'.3, h.4.trans h'.4, h.5.trans h'.5⟩

end Variable

namespace ScopeTree

/-! ## What the operations do -/

variable {tree : ScopeTree}

theorem getElem?_scopes_addScope {p : ScopeId} (hp : p < tree.scopes.size) (kind : ScopeKind)
    (i : ScopeId) :
    (tree.addScope (some p) kind).scopes[i]? =
      if i = tree.scopes.size then
        some { id := tree.scopes.size, parent := some p, kind,
               depth := (tree.scopes[p]?).elim 0 (·.depth + 1) }
      else (tree.scopes[i]?).map fun s =>
        if i = p then { s with children := s.children.push tree.scopes.size } else s := by
  simp only [addScope, Array.getElem?_modify, Array.getElem?_push, Option.bind_some]
  rcases Decidable.em (p = i) with rfl | hne
  · rw [if_pos rfl, if_neg (Nat.ne_of_lt hp), if_neg (Nat.ne_of_lt hp)]
    simp
  · rw [if_neg hne]
    split
    · rfl
    · cases tree.scopes[i]? <;> simp [Ne.symm hne]

/-- The scope that is opened lies inside `p` and is empty. -/
theorem getElem?_scopes_addScope_size {p : ScopeId} (hp : p < tree.scopes.size)
    (kind : ScopeKind) :
    (tree.addScope (some p) kind).scopes[tree.scopes.size]? =
      some { id := tree.scopes.size, parent := some p, kind,
             depth := (tree.scopes[p]?).elim 0 (·.depth + 1) } := by
  rw [getElem?_scopes_addScope hp, if_pos rfl]

/-- An old scope gets at most one more child. -/
theorem getElem?_scopes_addScope_of_some {p : ScopeId} (hp : p < tree.scopes.size)
    (kind : ScopeKind) {i : ScopeId} {s : Scope} (hs : tree.scopes[i]? = some s) :
    (tree.addScope (some p) kind).scopes[i]? =
      some { s with
        children := if i = p then s.children.push tree.scopes.size else s.children } := by
  have hi : i ≠ tree.scopes.size := Nat.ne_of_lt (Array.getElem?_eq_some_iff.1 hs).1
  rw [getElem?_scopes_addScope hp, if_neg hi, hs, Option.map_some]
  split <;> rfl

theorem scope_addScope_cases {p : ScopeId} (hp : p < tree.scopes.size) {kind : ScopeKind}
    {i : ScopeId} {s' : Scope} (hs' : (tree.addScope (some p) kind).scopes[i]? = some s') :
    (i = tree.scopes.size ∧
        s' = { id := i, parent := some p, kind,
               depth := (tree.scopes[p]?).elim 0 (·.depth + 1) }) ∨
      ∃ s : Scope, tree.scopes[i]? = some s ∧
        s' = { s with
          children := if i = p then s.children.push tree.scopes.size else s.children } := by
  rcases Decidable.em (i = tree.scopes.size) with rfl | hi
  · rw [getElem?_scopes_addScope_size hp] at hs'
    cases hs'
    exact .inl ⟨rfl, rfl⟩
  · cases hs : tree.scopes[i]? with
    | none =>
        rw [getElem?_scopes_addScope hp, if_neg hi, hs] at hs'
        cases hs'
    | some s =>
        rw [getElem?_scopes_addScope_of_some hp kind hs] at hs'
        cases hs'
        exact .inr ⟨s, rfl, rfl⟩

theorem getElem?_scopes_declare (v : Variable) (i : ScopeId) :
    (tree.declare v).scopes[i]? = (tree.scopes[i]?).map fun s =>
      if i = v.scope then
        { s with vars := s.vars.push tree.vars.size, names := (v.name, tree.vars.size) :: s.names }
      else s := by
  simp only [declare, Array.getElem?_modify]
  rcases Decidable.em (v.scope = i) with rfl | hne
  · simp
  · rw [if_neg hne]
    cases tree.scopes[i]? <;> simp [Ne.symm hne]

theorem scope_declare_cases {v : Variable} {i : ScopeId} {s' : Scope}
    (hs' : (tree.declare v).scopes[i]? = some s') :
    ∃ s : Scope, tree.scopes[i]? = some s ∧
      ((i = v.scope ∧ s' = { s with
          vars := s.vars.push tree.vars.size, names := (v.name, tree.vars.size) :: s.names }) ∨
        (i ≠ v.scope ∧ s' = s)) := by
  rw [getElem?_scopes_declare] at hs'
  obtain ⟨s, hs, rfl⟩ := Option.map_eq_some_iff.1 hs'
  refine ⟨s, hs, ?_⟩
  split
  case isTrue hi => exact .inl ⟨hi, rfl⟩
  case isFalse hi => exact .inr ⟨hi, rfl⟩

theorem getElem?_vars_declare (x : Variable) (v : VarId) :
    (tree.declare x).vars[v]? = if v = tree.vars.size then some x else tree.vars[v]? := by
  simp only [declare, Array.getElem?_push]

@[simp] theorem scopes_bind (id : NameId) (v : VarId) : (tree.bind id v).scopes = tree.scopes :=
  rfl

theorem getElem?_vars_bind (id : NameId) (v u : VarId) :
    (tree.bind id v).vars[u]? = (tree.vars[u]?).map fun x =>
      if u = v then { x with references := x.references.push id } else x := by
  simp only [bind, reserve, Array.getElem?_modify]
  rcases Decidable.em (v = u) with rfl | hne
  · simp
  · rw [if_neg hne]
    cases tree.vars[u]? <;> simp [Ne.symm hne]

theorem binding_reserve (id i : NameId) : (tree.reserve id).binding i = tree.binding i := by
  simp only [binding, reserve, Array.getElem?_append, Array.getElem?_replicate]
  rcases Nat.lt_or_ge i tree.bindings.size with h | h
  · rw [if_pos h]
  · rw [if_neg (Nat.not_lt.2 h), Array.getElem?_eq_none h]
    split <;> rfl

theorem binding_bind_self (id : NameId) (v : VarId) : (tree.bind id v).binding id = some v := by
  have hsize : id < (tree.reserve id).bindings.size := by
    simp only [reserve, Array.size_append, Array.size_replicate]
    exact Nat.lt_of_succ_le (Nat.sub_le_iff_le_add'.1 (Nat.le_refl _))
  have hset : (tree.bind id v).bindings[id]? = some (some v) :=
    Array.getElem?_setIfInBounds_self_of_lt hsize
  rw [binding, hset]
  rfl

theorem binding_bind_of_ne {id i : NameId} (hne : i ≠ id) (v : VarId) :
    (tree.bind id v).binding i = tree.binding i := by
  have hset : (tree.bind id v).bindings[i]? = (tree.reserve id).bindings[i]? :=
    Array.getElem?_setIfInBounds_ne hne.symm
  rw [binding, hset]
  exact binding_reserve id i

@[simp] theorem scopes_markAssigned (v : VarId) : (tree.markAssigned v).scopes = tree.scopes :=
  rfl

theorem getElem?_vars_markAssigned (v u : VarId) :
    (tree.markAssigned v).vars[u]? = (tree.vars[u]?).map fun x =>
      if u = v then { x with assigned := true } else x := by
  simp only [markAssigned, Array.getElem?_modify]
  rcases Decidable.em (v = u) with rfl | hne
  · simp
  · rw [if_neg hne]
    cases tree.vars[u]? <;> simp [Ne.symm hne]

/-! ## What never changes -/

/-- Each scope and each variable of the first tree is still there in the second,
at the same place and with the same declaration. -/
structure Grows (t t' : ScopeTree) : Prop where
  scopes : ∀ (i : ScopeId) (s : Scope), t.scopes[i]? = some s →
    ∃ s' : Scope, t'.scopes[i]? = some s' ∧ s'.parent = s.parent
  vars : ∀ (v : VarId) (x : Variable), t.vars[v]? = some x →
    ∃ y : Variable, t'.vars[v]? = some y ∧ y.SameDeclaration x

namespace Grows

variable {t t' t'' : ScopeTree}

theorem refl (t : ScopeTree) : t.Grows t :=
  ⟨fun _ s h => ⟨s, h, rfl⟩, fun _ x h => ⟨x, h, .refl x⟩⟩

theorem trans (h : t.Grows t') (h' : t'.Grows t'') : t.Grows t'' := by
  refine ⟨fun i s hs => ?_, fun v x hx => ?_⟩
  · obtain ⟨s', hs', hparent⟩ := h.scopes i s hs
    obtain ⟨s'', hs'', hparent'⟩ := h'.scopes i s' hs'
    exact ⟨s'', hs'', hparent'.trans hparent⟩
  · obtain ⟨y, hy, hsame⟩ := h.vars v x hx
    obtain ⟨z, hz, hsame'⟩ := h'.vars v y hy
    exact ⟨z, hz, hsame'.trans hsame⟩

theorem addScope {p : ScopeId} (hp : p < tree.scopes.size) (kind : ScopeKind) :
    tree.Grows (tree.addScope (some p) kind) := by
  refine ⟨fun i s hs => ?_, fun v x hx => ⟨x, hx, .refl x⟩⟩
  exact ⟨_, getElem?_scopes_addScope_of_some hp kind hs, rfl⟩

theorem declare (x : Variable) : tree.Grows (tree.declare x) := by
  refine ⟨fun i s hs => ?_, fun v y hy => ?_⟩
  · rw [getElem?_scopes_declare, hs, Option.map_some]
    refine ⟨_, rfl, ?_⟩
    split <;> rfl
  · have hv : v ≠ tree.vars.size := Nat.ne_of_lt (Array.getElem?_eq_some_iff.1 hy).1
    rw [getElem?_vars_declare, if_neg hv, hy]
    exact ⟨y, rfl, .refl y⟩

theorem bind (id : NameId) (v : VarId) : tree.Grows (tree.bind id v) := by
  refine ⟨fun i s hs => ⟨s, hs, rfl⟩, fun u x hx => ?_⟩
  rw [getElem?_vars_bind, hx, Option.map_some]
  refine ⟨_, rfl, ?_⟩
  split <;> exact ⟨rfl, rfl, rfl, rfl, rfl⟩

theorem markAssigned (v : VarId) : tree.Grows (tree.markAssigned v) := by
  refine ⟨fun i s hs => ⟨s, hs, rfl⟩, fun u x hx => ?_⟩
  rw [getElem?_vars_markAssigned, hx, Option.map_some]
  refine ⟨_, rfl, ?_⟩
  split <;> exact ⟨rfl, rfl, rfl, rfl, rfl⟩

end Grows

/-! ## Scopes and their variables -/

/-- A list of numbers stays in order when a larger one is put behind it. -/
theorem pairwise_lt_push {xs : Array Nat} {n : Nat} (h : xs.toList.Pairwise (· < ·))
    (hn : ∀ k ∈ xs.toList, k < n) : (xs.push n).toList.Pairwise (· < ·) := by
  rw [Array.toList_push, List.pairwise_append]
  refine ⟨h, List.pairwise_singleton _ _, ?_⟩
  intro k hk m hm
  rw [List.mem_singleton.1 hm]
  exact hn k hk

/-- Scopes lie inside scopes with smaller numbers, all but the outermost inside
one.  The variables of a scope are those that say so, each listed once and by its
own name. -/
structure WellScoped (t : ScopeTree) : Prop where
  parent_lt : ∀ (i p : ScopeId) (s : Scope), t.scopes[i]? = some s → s.parent = some p → p < i
  parent_isSome : ∀ (i : ScopeId) (s : Scope), t.scopes[i]? = some s → i ≠ globalScope →
    s.parent.isSome
  names_eq : ∀ (i : ScopeId) (s : Scope), t.scopes[i]? = some s →
    s.names.map (·.2) = s.vars.toList.reverse
  named : ∀ (i : ScopeId) (s : Scope), t.scopes[i]? = some s → ∀ n v, (n, v) ∈ s.names →
    ∃ x : Variable, t.vars[v]? = some x ∧ x.name = n ∧ x.scope = i
  listed : ∀ (v : VarId) (x : Variable), t.vars[v]? = some x →
    ∃ s : Scope, t.scopes[x.scope]? = some s ∧ v ∈ s.vars.toList
  increasing : ∀ (i : ScopeId) (s : Scope), t.scopes[i]? = some s →
    s.vars.toList.Pairwise (· < ·)

namespace WellScoped

/-- The variables listed in a scope belong to it. -/
theorem scope_of_mem (h : tree.WellScoped) {i : ScopeId} {s : Scope} {v : VarId}
    (hs : tree.scopes[i]? = some s) (hv : v ∈ s.vars.toList) :
    ∃ x : Variable, tree.vars[v]? = some x ∧ (x.name, v) ∈ s.names ∧ x.scope = i := by
  have hmem : v ∈ s.names.map (·.2) := by
    rw [h.names_eq i s hs]
    exact List.mem_reverse.2 hv
  obtain ⟨⟨n, u⟩, hnu, rfl⟩ := List.mem_map.1 hmem
  obtain ⟨x, hx, rfl, hscope⟩ := h.named i s hs n u hnu
  exact ⟨x, hx, hnu, hscope⟩

theorem lt_size_of_mem (h : tree.WellScoped) {i : ScopeId} {s : Scope} {v : VarId}
    (hs : tree.scopes[i]? = some s) (hv : v ∈ s.vars.toList) : v < tree.vars.size := by
  obtain ⟨x, hx, -⟩ := h.scope_of_mem hs hv
  exact (Array.getElem?_eq_some_iff.1 hx).1

theorem addScope (h : tree.WellScoped) {p : ScopeId} (hp : p < tree.scopes.size)
    (kind : ScopeKind) : (tree.addScope (some p) kind).WellScoped := by
  refine ⟨?_, ?_, ?_, ?_, ?_, ?_⟩
  · intro i q s' hs' hq
    obtain ⟨rfl, rfl⟩ | ⟨s, hs, rfl⟩ := scope_addScope_cases hp hs'
    · cases hq
      exact hp
    · exact h.parent_lt i q s hs hq
  · intro i s' hs' hi
    obtain ⟨rfl, rfl⟩ | ⟨s, hs, rfl⟩ := scope_addScope_cases hp hs'
    · rfl
    · exact h.parent_isSome i s hs hi
  · intro i s' hs'
    obtain ⟨rfl, rfl⟩ | ⟨s, hs, rfl⟩ := scope_addScope_cases hp hs'
    · rfl
    · exact h.names_eq i s hs
  · intro i s' hs' n v hnv
    obtain ⟨rfl, rfl⟩ | ⟨s, hs, rfl⟩ := scope_addScope_cases hp hs'
    · cases hnv
    · exact h.named i s hs n v hnv
  · intro v x hx
    obtain ⟨s, hs, hv⟩ := h.listed v x hx
    exact ⟨_, getElem?_scopes_addScope_of_some hp kind hs, hv⟩
  · intro i s' hs'
    obtain ⟨rfl, rfl⟩ | ⟨s, hs, rfl⟩ := scope_addScope_cases hp hs'
    · exact .nil
    · exact h.increasing i s hs

theorem declare (h : tree.WellScoped) {x : Variable} (hx : x.scope < tree.scopes.size) :
    (tree.declare x).WellScoped := by
  have hnamed : ∀ (i : ScopeId) (s : Scope), tree.scopes[i]? = some s → ∀ n v, (n, v) ∈ s.names →
      ∃ y : Variable, (tree.declare x).vars[v]? = some y ∧ y.name = n ∧ y.scope = i := by
    intro i s hs n v hnv
    obtain ⟨y, hy, hname, hscope⟩ := h.named i s hs n v hnv
    have hv : v ≠ tree.vars.size := Nat.ne_of_lt (Array.getElem?_eq_some_iff.1 hy).1
    rw [getElem?_vars_declare, if_neg hv]
    exact ⟨y, hy, hname, hscope⟩
  refine ⟨?_, ?_, ?_, ?_, ?_, ?_⟩
  · intro i q s' hs' hq
    obtain ⟨s, hs, ⟨-, rfl⟩ | ⟨-, rfl⟩⟩ := scope_declare_cases hs'
    · exact h.parent_lt i q s hs hq
    · exact h.parent_lt i q s' hs hq
  · intro i s' hs' hi
    obtain ⟨s, hs, ⟨-, rfl⟩ | ⟨-, rfl⟩⟩ := scope_declare_cases hs'
    · exact h.parent_isSome i s hs hi
    · exact h.parent_isSome i s' hs hi
  · intro i s' hs'
    obtain ⟨s, hs, ⟨-, rfl⟩ | ⟨-, rfl⟩⟩ := scope_declare_cases hs'
    · rw [List.map_cons, h.names_eq i s hs, Array.toList_push, List.reverse_append]
      rfl
    · exact h.names_eq i s' hs
  · intro i s' hs' n v hnv
    obtain ⟨s, hs, ⟨rfl, rfl⟩ | ⟨-, rfl⟩⟩ := scope_declare_cases hs'
    · rcases List.mem_cons.1 hnv with heq | hnv
      · cases heq
        rw [getElem?_vars_declare, if_pos rfl]
        exact ⟨x, rfl, rfl, rfl⟩
      · exact hnamed _ s hs n v hnv
    · exact hnamed i s' hs n v hnv
  · intro v y hy
    rw [getElem?_vars_declare] at hy
    split at hy
    case isTrue hv =>
        cases hy
        obtain ⟨s, hs⟩ : ∃ s, tree.scopes[x.scope]? = some s :=
          ⟨_, Array.getElem?_eq_getElem hx⟩
        rw [getElem?_scopes_declare, hs, Option.map_some, if_pos rfl]
        exact ⟨_, rfl, by simp [hv]⟩
    case isFalse hv =>
        obtain ⟨s, hs, hmem⟩ := h.listed v y hy
        rw [getElem?_scopes_declare, hs, Option.map_some]
        refine ⟨_, rfl, ?_⟩
        split
        · simp [hmem]
        · exact hmem
  · intro i s' hs'
    obtain ⟨s, hs, ⟨-, rfl⟩ | ⟨-, rfl⟩⟩ := scope_declare_cases hs'
    · exact pairwise_lt_push (h.increasing i s hs) fun v hv => h.lt_size_of_mem hs hv
    · exact h.increasing i s' hs

/-- What is noted about variables, declarations apart, does not matter. -/
theorem of_vars {t : ScopeTree} (h : tree.WellScoped) (hscopes : t.scopes = tree.scopes)
    (hvars : ∀ v : VarId, ∃ f : Variable → Variable, t.vars[v]? = (tree.vars[v]?).map f ∧
      ∀ x, (f x).name = x.name ∧ (f x).scope = x.scope) : t.WellScoped := by
  refine ⟨?_, ?_, ?_, ?_, ?_, ?_⟩
  · rw [hscopes]
    exact h.parent_lt
  · rw [hscopes]
    exact h.parent_isSome
  · rw [hscopes]
    exact h.names_eq
  · intro i s hs n v hnv
    rw [hscopes] at hs
    obtain ⟨x, hx, hname, hscope⟩ := h.named i s hs n v hnv
    obtain ⟨f, hf, hsame⟩ := hvars v
    exact ⟨f x, by rw [hf, hx, Option.map_some], (hsame x).1.trans hname,
      (hsame x).2.trans hscope⟩
  · intro v y hy
    obtain ⟨f, hf, hsame⟩ := hvars v
    rw [hf] at hy
    obtain ⟨x, hx, rfl⟩ := Option.map_eq_some_iff.1 hy
    rw [(hsame x).2, hscopes]
    exact h.listed v x hx
  · rw [hscopes]
    exact h.increasing

theorem bind (h : tree.WellScoped) (id : NameId) (v : VarId) : (tree.bind id v).WellScoped := by
  refine h.of_vars rfl fun u => ⟨_, getElem?_vars_bind id v u, fun x => ?_⟩
  split <;> exact ⟨rfl, rfl⟩

theorem markAssigned (h : tree.WellScoped) (v : VarId) : (tree.markAssigned v).WellScoped := by
  refine h.of_vars rfl fun u => ⟨_, getElem?_vars_markAssigned v u, fun x => ?_⟩
  split <;> exact ⟨rfl, rfl⟩

end WellScoped

end ScopeTree

end LuaRestyle
