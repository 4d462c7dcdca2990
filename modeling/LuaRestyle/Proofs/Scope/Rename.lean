import LuaRestyle.Proofs.Scope.Binding

/-!
# Walks under other names

`t.rename ρ` is the scope tree in which each variable `v` is called `ρ v`, and all
else is as in `t`.  Growing a tree and renaming it commute, and so does looking a
name up, as long as no variable in sight has come to be called like another one that
was called differently: `lookupUpTo_rename`.
-/

namespace LuaRestyle

def Scope.rename (ρ : VarId → String) (s : Scope) : Scope :=
  { s with names := s.names.map fun entry => (ρ entry.2, entry.2) }

namespace ScopeTree

def rename (ρ : VarId → String) (t : ScopeTree) : ScopeTree :=
  { t with
    scopes := t.scopes.map (Scope.rename ρ)
    vars := t.vars.mapIdx fun v x => { x with name := ρ v } }

variable {t : ScopeTree} {ρ : VarId → String}

@[simp] theorem size_scopes_rename : (t.rename ρ).scopes.size = t.scopes.size :=
  Array.size_map

@[simp] theorem size_vars_rename : (t.rename ρ).vars.size = t.vars.size :=
  Array.size_mapIdx

theorem getElem?_scopes_rename (i : ScopeId) :
    (t.rename ρ).scopes[i]? = (t.scopes[i]?).map (Scope.rename ρ) :=
  Array.getElem?_map

theorem getElem?_vars_rename (v : VarId) :
    (t.rename ρ).vars[v]? = (t.vars[v]?).map fun x => { x with name := ρ v } :=
  Array.getElem?_mapIdx

/-- Trees are equal if their scopes, variables and bindings are. -/
theorem ext_getElem? {t t' : ScopeTree} (hscopes : ∀ i : ScopeId, t.scopes[i]? = t'.scopes[i]?)
    (hvars : ∀ v : VarId, t.vars[v]? = t'.vars[v]?) (hbindings : t.bindings = t'.bindings) :
    t = t' := by
  cases t
  cases t'
  simp only [mk.injEq]
  exact ⟨Array.ext_getElem? hscopes, Array.ext_getElem? hvars, hbindings⟩

theorem rename_addScope {p : ScopeId} (hp : p < t.scopes.size) (kind : ScopeKind) :
    (t.addScope (some p) kind).rename ρ = (t.rename ρ).addScope (some p) kind := by
  refine ext_getElem? (fun i => ?_) (fun v => ?_) rfl
  · rw [getElem?_scopes_rename, getElem?_scopes_addScope hp,
      getElem?_scopes_addScope (by simpa using hp), getElem?_scopes_rename, getElem?_scopes_rename,
      size_scopes_rename]
    split
    · cases t.scopes[p]? <;> rfl
    · cases t.scopes[i]? with
      | none => rfl
      | some s =>
          simp only [Option.map_some, Option.some.injEq]
          split <;> rfl
  · rw [getElem?_vars_rename]
    exact (getElem?_vars_rename v).symm

theorem rename_declare (x : Variable) :
    (t.declare x).rename ρ = (t.rename ρ).declare { x with name := ρ t.vars.size } := by
  refine ext_getElem? (fun i => ?_) (fun v => ?_) rfl
  · rw [getElem?_scopes_rename, getElem?_scopes_declare, getElem?_scopes_declare,
      getElem?_scopes_rename, size_vars_rename]
    cases t.scopes[i]? with
    | none => rfl
    | some s =>
        simp only [Option.map_some, Option.some.injEq]
        split <;> rfl
  · rw [getElem?_vars_rename, getElem?_vars_declare, getElem?_vars_declare, size_vars_rename,
      getElem?_vars_rename]
    split
    case isTrue hv =>
      subst hv
      rfl
    case isFalse => rfl

theorem rename_bind (id : NameId) (v : VarId) :
    (t.bind id v).rename ρ = (t.rename ρ).bind id v := by
  refine ext_getElem? (fun i => ?_) (fun u => ?_) rfl
  · rw [getElem?_scopes_rename, scopes_bind, scopes_bind, getElem?_scopes_rename]
  · rw [getElem?_vars_rename, getElem?_vars_bind, getElem?_vars_bind, getElem?_vars_rename]
    cases t.vars[u]? with
    | none => rfl
    | some x =>
        simp only [Option.map_some, Option.some.injEq]
        split <;> rfl

theorem rename_markAssigned (v : VarId) :
    (t.markAssigned v).rename ρ = (t.rename ρ).markAssigned v := by
  refine ext_getElem? (fun i => ?_) (fun u => ?_) rfl
  · rw [getElem?_scopes_rename, scopes_markAssigned, scopes_markAssigned, getElem?_scopes_rename]
  · rw [getElem?_vars_rename, getElem?_vars_markAssigned, getElem?_vars_markAssigned,
      getElem?_vars_rename]
    cases t.vars[u]? with
    | none => rfl
    | some x =>
        simp only [Option.map_some, Option.some.injEq]
        split <;> rfl

/-! ## Looking names up -/

/-- Among declarations, the name `k` and its new name `k'` lead to the same place. -/
theorem lookup_map_rename {l : List (String × VarId)} {k k' : String}
    (honly : ∀ entry ∈ l, ρ entry.2 = k' → entry.1 = k)
    (hfound : ∀ v, l.lookup k = some v → ρ v = k') :
    (l.map fun entry => (ρ entry.2, entry.2)).lookup k' = l.lookup k := by
  induction l with
  | nil => rfl
  | cons entry l ih =>
      obtain ⟨n, v⟩ := entry
      rw [List.map_cons, List.lookup_cons, List.lookup_cons]
      by_cases hn : n = k
      · subst hn
        have hv : ρ v = k' := hfound v (by simp)
        simp [hv]
      · have hv : ρ v ≠ k' := fun hv => hn (honly (n, v) List.mem_cons_self hv)
        have hk : (k == n) = false := by simpa using Ne.symm hn
        have hk' : (k' == ρ v) = false := by simpa using Ne.symm hv
        rw [hk, hk']
        refine ih (fun e he => honly e (List.mem_cons_of_mem _ he)) fun u hu => hfound u ?_
        rw [List.lookup_cons, hk]
        exact hu

theorem get?_rename {k k' : String} {s : Scope}
    (honly : ∀ entry ∈ s.names, ρ entry.2 = k' → entry.1 = k)
    (hfound : ∀ v, s.get? k = some v → ρ v = k') : (s.rename ρ).get? k' = s.get? k :=
  lookup_map_rename honly hfound

/-- The same holds up the scopes, if in all of them only what is called `k` comes to
be called `k'`. -/
theorem lookupUpTo_rename {k k' : String} {n : Nat} {i : ScopeId}
    (honly : ∀ (a : ScopeId) (s : Scope), t.Within i a → t.scopes[a]? = some s →
      ∀ entry ∈ s.names, ρ entry.2 = k' → entry.1 = k)
    (hfound : ∀ v, t.lookupUpTo k n i = some v → ρ v = k') :
    (t.rename ρ).lookupUpTo k' n i = t.lookupUpTo k n i := by
  induction n generalizing i with
  | zero =>
      have hrenamed := getElem?_scopes_rename (t := t) (ρ := ρ) i
      cases hs : t.scopes[i]? with
      | none =>
          rw [hs] at hrenamed
          rw [lookupUpTo_of_none hs, lookupUpTo_of_none hrenamed]
      | some s =>
          rw [hs] at hrenamed
          rw [lookupUpTo_zero hs] at hfound
          rw [lookupUpTo_zero hs, lookupUpTo_zero hrenamed]
          exact get?_rename (honly i s (.refl i) hs) hfound
  | succ n ih =>
      have hrenamed := getElem?_scopes_rename (t := t) (ρ := ρ) i
      cases hs : t.scopes[i]? with
      | none =>
          rw [hs] at hrenamed
          rw [lookupUpTo_of_none hs, lookupUpTo_of_none hrenamed]
      | some s =>
          rw [hs] at hrenamed
          rw [lookupUpTo_succ hs] at hfound
          have hget : (s.rename ρ).get? k' = s.get? k :=
            get?_rename (honly i s (.refl i) hs) fun v hv => hfound v (by rw [hv, Option.some_or])
          have hparent : (s.rename ρ).parent = s.parent := rfl
          rw [lookupUpTo_succ hs, lookupUpTo_succ hrenamed, hget, hparent]
          cases hg : s.get? k with
          | some v => rfl
          | none =>
              cases hp : s.parent with
              | none => rfl
              | some p =>
                  rw [hg, hp, Option.none_or, Option.bind_some] at hfound
                  exact ih (fun a s' hw => honly a s' (.inside hs hp hw)) hfound

end ScopeTree

namespace Walk

open ScopeTree

def rename (ρ : VarId → String) (w : Walk) : Walk := ⟨w.tree.rename ρ, w.current⟩

variable {w : Walk} {ρ : VarId → String}

theorem rename_enter (h : w.Sound) (kind : ScopeKind) :
    (w.enter kind).rename ρ = (w.rename ρ).enter kind := by
  rw [enter, rename, rename_addScope h.current_lt, enter, rename, size_scopes_rename]

theorem rename_leave : w.leave.rename ρ = (w.rename ρ).leave := by
  simp only [leave, rename, getElem?_scopes_rename]
  cases w.tree.scopes[w.current]? <;> rfl

theorem rename_declare (x : Ident) (kind : VariableKind) (index : Nat) (implicit : Bool) :
    (w.declare x kind index implicit).rename ρ =
      (w.rename ρ).declare ⟨ρ w.tree.vars.size, x.id⟩ kind index implicit := by
  simp only [declare, introduce, rename, rename_bind, ScopeTree.rename_declare, size_vars_rename]

/-- Passing an occurrence and renaming commute if the new name of what the occurrence
denotes is found where its name was. -/
theorem rename_resolveName {k k' : String}
    (hlookup : (w.tree.rename ρ).lookup w.current k' = w.tree.lookup w.current k)
    (hnew : w.tree.lookup w.current k = none → k' = ρ w.tree.vars.size) :
    (w.rename ρ).resolveName k' = ((w.resolveName k).1.rename ρ, (w.resolveName k).2) := by
  simp only [resolveName, rename, hlookup]
  cases h : w.tree.lookup w.current k with
  | some v => rfl
  | none =>
      rw [hnew h, ScopeTree.rename_declare, size_vars_rename]

theorem rename_refer {x : Ident} {k' : String}
    (h : (w.rename ρ).resolveName k' =
      ((w.resolveName x.name).1.rename ρ, (w.resolveName x.name).2)) :
    (w.refer x).rename ρ = (w.rename ρ).refer ⟨k', x.id⟩ := by
  simp only [refer, h]
  simp only [rename, rename_bind]

theorem rename_assign {x : Ident} {k' : String}
    (h : (w.rename ρ).resolveName k' =
      ((w.resolveName x.name).1.rename ρ, (w.resolveName x.name).2)) :
    (w.assign x).rename ρ = (w.rename ρ).assign ⟨k', x.id⟩ := by
  simp only [assign, h]
  simp only [rename, rename_bind, rename_markAssigned]

end Walk

end LuaRestyle
