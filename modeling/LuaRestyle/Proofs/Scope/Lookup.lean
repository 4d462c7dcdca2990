import LuaRestyle.Proofs.Scope.Balanced

/-!
# Looking for a name

A name is looked for in a scope, and then in the one around it.  What is found depends on
the scopes with smaller numbers only, so a new scope changes nothing, a declaration changes
what is seen from its scope and not from those around it, and a new global is seen from
everywhere where its name meant nothing.

A name that is declared in a scope around is found.  The program itself has further arguments,
so `...` is found wherever a walk stands: `Walk.exists_lookup_dots`.
-/

namespace LuaRestyle.ScopeTree

variable {t t' : ScopeTree}

/-- Scopes are numbered from the outside, so a search that is as long as the number of its
scope leaves none out. -/
theorem WellScoped.lookupUpTo_congr (ht : t.WellScoped) (name : String) {n m : Nat} {i : ScopeId}
    (hi : i < t.scopes.size) (hn : i ≤ n) (hm : i ≤ m) :
    t.lookupUpTo name n i = t.lookupUpTo name m i := by
  have hs := Array.getElem?_eq_getElem hi
  cases hp : t.scopes[i].parent with
  | none => cases n <;> cases m <;> simp [lookupUpTo_zero hs, lookupUpTo_succ hs, hp]
  | some p =>
      have hlt := ht.parent_lt i p _ hs hp
      obtain ⟨n, rfl⟩ := Nat.exists_eq_add_one_of_ne_zero (Nat.ne_of_gt (Nat.zero_lt_of_lt
        (Nat.lt_of_lt_of_le hlt hn)))
      obtain ⟨m, rfl⟩ := Nat.exists_eq_add_one_of_ne_zero (Nat.ne_of_gt (Nat.zero_lt_of_lt
        (Nat.lt_of_lt_of_le hlt hm)))
      rw [lookupUpTo_succ hs, lookupUpTo_succ hs, hp, Option.bind_some, Option.bind_some,
        ht.lookupUpTo_congr name (Nat.lt_trans hlt hi)
          (Nat.le_of_lt_succ (Nat.lt_of_lt_of_le hlt hn))
          (Nat.le_of_lt_succ (Nat.lt_of_lt_of_le hlt hm))]
termination_by n

/-- A name denotes what the scope itself says, or else what it denotes around it. -/
theorem WellScoped.lookup_eq (ht : t.WellScoped) {i : ScopeId} {s : Scope}
    (hs : t.scopes[i]? = some s) (name : String) :
    t.lookup i name = (s.get? name).or (s.parent.bind (t.lookup · name)) := by
  have hi := (Array.getElem?_eq_some_iff.1 hs).1
  rw [lookup, ht.lookupUpTo_congr name hi (Nat.le_refl i) (Nat.le_succ i), lookupUpTo_succ hs]
  cases hp : s.parent with
  | none => rfl
  | some p =>
      have hlt := ht.parent_lt i p s hs hp
      rw [Option.bind_some, Option.bind_some, lookup, ht.lookupUpTo_congr name
        (Nat.lt_trans hlt hi) (Nat.le_of_lt hlt) (Nat.le_refl p)]

/-- The name of a variable of a scope around is found, here or on the way there. -/
theorem WellScoped.exists_lookup (ht : t.WellScoped) {v : VarId} {x : Variable} {i : ScopeId}
    (hx : t.vars[v]? = some x) (h : t.Within i x.scope) : ∃ u, t.lookup i x.name = some u := by
  generalize hscope : x.scope = a at h
  induction h with
  | refl i =>
      obtain ⟨s, hs, hv⟩ := ht.listed v x hx
      obtain ⟨y, hy, hmem, -⟩ := ht.scope_of_mem hs hv
      rw [hx] at hy
      cases hy
      rw [← hscope, ht.lookup_eq hs]
      cases hget : s.get? x.name with
      | none => exact absurd (List.lookup_eq_none_iff.1 hget _ hmem) (by simp)
      | some u => exact ⟨u, rfl⟩
  | @inside i p a s hs hp _ ih =>
      obtain ⟨u, hu⟩ := ih hscope
      rw [ht.lookup_eq hs, hp, Option.bind_some, hu]
      cases s.get? x.name with
      | none => exact ⟨u, rfl⟩
      | some w => exact ⟨w, rfl⟩

/-- What is seen from a scope depends on the scopes with smaller numbers. -/
theorem lookup_congr (ht : t.WellScoped) (ht' : t'.WellScoped) (name : String) {i : ScopeId}
    (hi : i < t.scopes.size)
    (h : ∀ k ≤ i, ∀ s, t.scopes[k]? = some s → ∃ s' : Scope, t'.scopes[k]? = some s' ∧
      s'.names = s.names ∧ s'.parent = s.parent) :
    t'.lookup i name = t.lookup i name := by
  induction i using Nat.strongRecOn with
  | ind i ih =>
      have hs := Array.getElem?_eq_getElem hi
      obtain ⟨s', hs', hnames, hparent⟩ := h i (Nat.le_refl i) _ hs
      rw [ht.lookup_eq hs, ht'.lookup_eq hs', Scope.get?, Scope.get?, hnames, hparent]
      cases hp : t.scopes[i].parent with
      | none => rfl
      | some p =>
          have hlt := ht.parent_lt i p _ hs hp
          rw [Option.bind_some, Option.bind_some, ih p hlt (Nat.lt_trans hlt hi)
            fun k hk => h k (Nat.le_trans hk (Nat.le_of_lt hlt))]

theorem lookup_addScope (ht : t.WellScoped) {p : ScopeId} (hp : p < t.scopes.size)
    (kind : ScopeKind) (name : String) {i : ScopeId} (hi : i < t.scopes.size) :
    (t.addScope (some p) kind).lookup i name = t.lookup i name := by
  refine lookup_congr ht (ht.addScope hp kind) name hi fun _ _ s hs => ?_
  exact ⟨_, getElem?_scopes_addScope_of_some hp kind hs, rfl, rfl⟩

/-- From a new scope the same is seen as from the scope around it. -/
theorem lookup_addScope_new (ht : t.WellScoped) {p : ScopeId} (hp : p < t.scopes.size)
    (kind : ScopeKind) (name : String) :
    (t.addScope (some p) kind).lookup t.scopes.size name = t.lookup p name := by
  rw [(ht.addScope hp kind).lookup_eq (getElem?_scopes_addScope_size hp kind)]
  exact lookup_addScope ht hp kind name hp

/-- A declaration is not seen from the scopes around its own. -/
theorem lookup_declare_of_lt (ht : t.WellScoped) {x : Variable} (hx : x.scope < t.scopes.size)
    (name : String) {i : ScopeId} (hi : i < x.scope) :
    (t.declare x).lookup i name = t.lookup i name := by
  refine lookup_congr ht (ht.declare hx) name (Nat.lt_trans hi hx) fun k hk s hs => ?_
  rw [getElem?_scopes_declare, hs, Option.map_some,
    if_neg (Nat.ne_of_lt (Nat.lt_of_le_of_lt hk hi))]
  exact ⟨s, rfl, rfl, rfl⟩

theorem lookup_declare (ht : t.WellScoped) {x : Variable} (hx : x.scope < t.scopes.size)
    (name : String) :
    (t.declare x).lookup x.scope name =
      if name = x.name then some t.vars.size else t.lookup x.scope name := by
  have hs := Array.getElem?_eq_getElem hx
  have hnew := @getElem?_scopes_declare t x x.scope
  rw [hs, Option.map_some, if_pos rfl] at hnew
  rw [(ht.declare hx).lookup_eq hnew, ht.lookup_eq hs, Scope.get?, Scope.get?, List.lookup_cons]
  by_cases hname : name = x.name
  · simp [hname]
  · rw [if_neg hname, beq_eq_false_iff_ne.2 hname]
    cases hp : t.scopes[x.scope].parent with
    | none => rfl
    | some p =>
        rw [Option.bind_some, Option.bind_some,
          lookup_declare_of_lt ht hx name (ht.parent_lt _ p _ hs hp)]

/-- What means nothing in a scope means nothing around it. -/
theorem WellScoped.lookup_parent_eq_none (ht : t.WellScoped) {i p : ScopeId} {s : Scope}
    (hs : t.scopes[i]? = some s) (hp : s.parent = some p) {name : String}
    (h : t.lookup i name = none) : t.lookup p name = none := by
  rw [ht.lookup_eq hs, hp, Option.bind_some, Option.or_eq_none_iff] at h
  exact h.2

/-- A global is seen from everywhere where its name meant nothing. -/
theorem lookup_declare_global (ht : t.WellScoped) {x : Variable} (hx : x.scope = globalScope)
    (name : String) {i : ScopeId} (hi : i < t.scopes.size) (hnone : t.lookup i x.name = none) :
    (t.declare x).lookup i name =
      if name = x.name then some t.vars.size else t.lookup i name := by
  have hscope : x.scope < t.scopes.size := by
    rw [hx]
    exact Nat.lt_of_le_of_lt (Nat.zero_le i) hi
  induction i using Nat.strongRecOn with
  | ind i ih =>
      rcases Decidable.em (i = x.scope) with rfl | hne
      · exact lookup_declare ht hscope name
      · have hs := Array.getElem?_eq_getElem hi
        have hnew := @getElem?_scopes_declare t x i
        rw [hs, Option.map_some, if_neg hne] at hnew
        obtain ⟨p, hp⟩ := Option.isSome_iff_exists.1 (ht.parent_isSome i _ hs (hx ▸ hne))
        have hlt := ht.parent_lt i p _ hs hp
        have hrest := ih p hlt (Nat.lt_trans hlt hi) (ht.lookup_parent_eq_none hs hp hnone)
        rw [ht.lookup_eq hs, hp, Option.bind_some, Option.or_eq_none_iff] at hnone
        rw [(ht.declare hscope).lookup_eq hnew, ht.lookup_eq hs, hp, Option.bind_some,
          Option.bind_some, hrest]
        by_cases hname : name = x.name
        · rw [if_pos hname, if_pos hname, hname, hnone.1, Option.none_or]
        · rw [if_neg hname, if_neg hname]

/-- What is seen is a matter of the scopes alone. -/
theorem lookup_eq_of_scopes (h : t'.scopes = t.scopes) (i : ScopeId) (name : String) :
    t'.lookup i name = t.lookup i name := by
  have hupTo : ∀ n i, t'.lookupUpTo name n i = t.lookupUpTo name n i := by
    intro n
    induction n with
    | zero => intro i; rw [lookupUpTo, lookupUpTo, h]
    | succ n ih =>
        intro i
        cases hs : t.scopes[i]? with
        | none => rw [lookupUpTo, lookupUpTo, h, hs]
        | some s =>
            have hs' : t'.scopes[i]? = some s := by rw [h, hs]
            rw [lookupUpTo_succ hs, lookupUpTo_succ hs', funext ih]
  exact hupTo i i

end LuaRestyle.ScopeTree

namespace LuaRestyle.Walk

open ScopeTree

/-- However far a walk over a program has come, `...` denotes something: the further arguments of
a function around, or those of the program. -/
theorem exists_lookup_dots (chunk : Chunk) {done : List Step}
    (h : done <+: Steps.stats chunk.body) :
    ∃ v, ((start chunk.nameCount).run done).tree.lookup
      ((start chunk.nameCount).run done).current "..." = some v := by
  have hstart := sound_start chunk.nameCount
  obtain ⟨hsound, hgrows⟩ := hstart.run done
  have hdots : (start chunk.nameCount).tree.vars[1]? =
      some ⟨"...", .vararg, rootScope, 0, #[], false, true⟩ := rfl
  obtain ⟨x, hx, hsame⟩ := hgrows.vars 1 _ hdots
  have hwithin := hstart.within_run (Steps.balanced_stats chunk.body) h
  have hscope : x.scope = (start chunk.nameCount).current := hsame.scope_eq
  rw [← hscope] at hwithin
  obtain ⟨v, hv⟩ := hsound.tree.exists_lookup hx hwithin
  rw [hsame.name_eq] at hv
  exact ⟨v, hv⟩

end LuaRestyle.Walk
