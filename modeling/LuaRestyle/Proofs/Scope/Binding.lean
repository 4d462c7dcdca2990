import LuaRestyle.Proofs.Scope.Growth

/-!
# What an occurrence denotes

A name is looked for in a scope and then in those around it, so what is found
is declared by that name in a scope around: `exists_of_lookup`.  Every step of a
walk binds its occurrence to a variable of its name, and touches no other
binding.  After a whole walk every occurrence therefore denotes a variable of
its own name, if no two occurrences have the same number:
`Walk.Sound.exists_binding_run`.
-/

namespace LuaRestyle

namespace ScopeTree

/-- The scope `a` is the scope `i` or lies around it. -/
inductive Within (t : ScopeTree) : ScopeId → ScopeId → Prop
  | refl (i : ScopeId) : Within t i i
  | inside {i p a : ScopeId} {s : Scope} (hs : t.scopes[i]? = some s)
      (hp : s.parent = some p) (h : Within t p a) : Within t i a

variable {t t' : ScopeTree}

theorem Within.trans {i a b : ScopeId} (h : t.Within i a) (h' : t.Within a b) : t.Within i b := by
  induction h with
  | refl i => exact h'
  | inside hs hp _ ih => exact .inside hs hp (ih h')

theorem Within.mono {i a : ScopeId} (h : t.Within i a) (hgrows : t.Grows t') :
    t'.Within i a := by
  induction h with
  | refl i => exact .refl i
  | inside hs hp _ ih =>
      obtain ⟨s', hs', hparent⟩ := hgrows.scopes _ _ hs
      exact .inside hs' (hparent.trans hp) ih

theorem lookupUpTo_of_none {i : ScopeId} (hs : t.scopes[i]? = none) (name : String) (n : Nat) :
    t.lookupUpTo name n i = none := by
  rw [lookupUpTo, hs]

theorem lookupUpTo_zero {i : ScopeId} {s : Scope} (hs : t.scopes[i]? = some s) (name : String) :
    t.lookupUpTo name 0 i = s.get? name := by
  rw [lookupUpTo, hs]
  simp only
  cases s.get? name <;> rfl

theorem lookupUpTo_succ {i : ScopeId} {s : Scope} (hs : t.scopes[i]? = some s) (name : String)
    (n : Nat) :
    t.lookupUpTo name (n + 1) i = (s.get? name).or (s.parent.bind (t.lookupUpTo name n)) := by
  rw [lookupUpTo, hs]
  simp only
  cases s.get? name <;> cases s.parent <;> rfl

theorem mem_names_of_get? {s : Scope} {name : String} {v : VarId} (h : s.get? name = some v) :
    (name, v) ∈ s.names := by
  obtain ⟨l, r, hnames, -⟩ := List.lookup_eq_some_iff.1 h
  simp [hnames]

theorem exists_of_lookupUpTo {name : String} {n : Nat} {i : ScopeId} {v : VarId}
    (h : t.lookupUpTo name n i = some v) :
    ∃ (a : ScopeId) (s : Scope), t.Within i a ∧ t.scopes[a]? = some s ∧ (name, v) ∈ s.names := by
  induction n generalizing i with
  | zero =>
      cases hs : t.scopes[i]? with
      | none =>
          rw [lookupUpTo_of_none hs] at h
          cases h
      | some s =>
          rw [lookupUpTo_zero hs] at h
          exact ⟨i, s, .refl i, hs, mem_names_of_get? h⟩
  | succ n ih =>
      cases hs : t.scopes[i]? with
      | none =>
          rw [lookupUpTo_of_none hs] at h
          cases h
      | some s =>
          rw [lookupUpTo_succ hs] at h
          rcases Option.or_eq_some_iff.1 h with hget | ⟨-, haround⟩
          · exact ⟨i, s, .refl i, hs, mem_names_of_get? hget⟩
          · obtain ⟨p, hp, hrest⟩ := Option.bind_eq_some_iff.1 haround
            obtain ⟨a, s', hwithin, hs', hmem⟩ := ih hrest
            exact ⟨a, s', .inside hs hp hwithin, hs', hmem⟩

/-- What a name denotes is declared by that name in a scope around. -/
theorem WellScoped.exists_of_lookup (ht : t.WellScoped) {name : String} {i : ScopeId}
    {v : VarId} (h : t.lookup i name = some v) :
    ∃ x : Variable, t.vars[v]? = some x ∧ x.name = name ∧ t.Within i x.scope := by
  obtain ⟨a, s, hwithin, hs, hmem⟩ := exists_of_lookupUpTo h
  obtain ⟨x, hx, hname, rfl⟩ := ht.named a s hs name v hmem
  exact ⟨x, hx, hname, hwithin⟩

end ScopeTree

namespace Walk

open ScopeTree

/-- The tree of the walk is in order and the walk stands in one of its scopes. -/
structure Sound (w : Walk) : Prop where
  tree : w.tree.WellScoped
  current_lt : w.current < w.tree.scopes.size

namespace Sound

variable {w : Walk}

theorem size_scopes_declare (t : ScopeTree) (x : Variable) :
    (t.declare x).scopes.size = t.scopes.size := by
  simp [ScopeTree.declare]

theorem size_scopes_addScope (t : ScopeTree) (p : ScopeId) (kind : ScopeKind) :
    (t.addScope (some p) kind).scopes.size = t.scopes.size + 1 := by
  simp [ScopeTree.addScope]

theorem introduce (h : w.Sound) (name : String) (kind : VariableKind) (index : Nat)
    (implicit : Bool) : (w.introduce name kind index implicit).Sound := by
  refine ⟨h.tree.declare h.current_lt, ?_⟩
  rw [Walk.introduce, size_scopes_declare]
  exact h.current_lt

theorem enter (h : w.Sound) (kind : ScopeKind) : (w.enter kind).Sound := by
  refine ⟨h.tree.addScope h.current_lt kind, ?_⟩
  rw [Walk.enter, size_scopes_addScope]
  exact Nat.lt_succ_self _

theorem leave (h : w.Sound) : w.leave.Sound := by
  refine ⟨h.tree, ?_⟩
  simp only [Walk.leave]
  cases hs : w.tree.scopes[w.current]? with
  | none => exact h.current_lt
  | some s =>
      cases hp : s.parent with
      | none => simpa [hp] using h.current_lt
      | some p =>
          have hlt := Nat.lt_trans (h.tree.parent_lt _ p s hs hp) h.current_lt
          simpa [hp] using hlt

/-- A name is given a meaning: nothing that was there changes, and what the name
denotes then has it. -/
theorem resolveName (h : w.Sound) (name : String) :
    (w.resolveName name).1.WellScoped ∧ w.tree.Grows (w.resolveName name).1 ∧
      (w.resolveName name).1.scopes.size = w.tree.scopes.size ∧
      (∀ id, (w.resolveName name).1.binding id = w.tree.binding id) ∧
      ∃ x : Variable, (w.resolveName name).1.vars[(w.resolveName name).2]? = some x ∧
        x.name = name := by
  rw [Walk.resolveName]
  split
  case h_1 v hv =>
      obtain ⟨x, hx, hname, -⟩ := h.tree.exists_of_lookup hv
      exact ⟨h.tree, .refl _, rfl, fun _ => rfl, x, hx, hname⟩
  case h_2 =>
      have hglobal : globalScope < w.tree.scopes.size :=
        Nat.lt_of_le_of_lt (Nat.zero_le _) h.current_lt
      refine ⟨h.tree.declare hglobal, .declare _, size_scopes_declare _ _, fun _ => rfl,
        ⟨name, .global, globalScope, 0, #[], false, false⟩, ?_, rfl⟩
      rw [getElem?_vars_declare, if_pos rfl]

/-- The occurrence `x` is bound to a variable of its name, and other occurrences to
what they were bound to before. -/
def Binds (t t' : ScopeTree) (x : Ident) : Prop :=
  (∀ id, id ≠ x.id → t'.binding id = t.binding id) ∧
    ∃ (v : VarId) (y : Variable), t'.binding x.id = some v ∧ t'.vars[v]? = some y ∧
      y.name = x.name

theorem binds_bind {t : ScopeTree} {x : Ident} {v : VarId} {y : Variable}
    (hy : t.vars[v]? = some y) (hname : y.name = x.name) : Binds t (t.bind x.id v) x := by
  obtain ⟨y', hy', hsame⟩ := (Grows.bind x.id v).vars v y hy
  exact ⟨fun id hid => binding_bind_of_ne hid v, v, y', binding_bind_self x.id v, hy',
    hsame.name_eq.trans hname⟩

theorem Binds.markAssigned {t t' : ScopeTree} {x : Ident} (h : Binds t t' x) (u : VarId) :
    Binds t (t'.markAssigned u) x := by
  obtain ⟨hother, v, y, hv, hy, hname⟩ := h
  obtain ⟨y', hy', hsame⟩ := (Grows.markAssigned u).vars v y hy
  exact ⟨hother, v, y', hv, hy', hsame.name_eq.trans hname⟩

/-- One step keeps the walk in order, moves nothing, and binds the occurrence that
it passes. -/
theorem step (h : w.Sound) (s : Step) :
    (w.step s).Sound ∧ w.tree.Grows (w.step s).tree ∧
      (s.ident? = none → ∀ id, (w.step s).tree.binding id = w.tree.binding id) ∧
      ∀ x, s.ident? = some x → Binds w.tree (w.step s).tree x := by
  cases s with
  | enter kind => exact ⟨h.enter kind, .addScope h.current_lt kind, fun _ _ => rfl, nofun⟩
  | leave => exact ⟨h.leave, .refl _, fun _ _ => rfl, nofun⟩
  | declare x kind index implicit =>
      have hw := h.introduce x.name kind index implicit
      refine ⟨⟨hw.tree.bind _ _, hw.current_lt⟩, (Grows.declare _).trans (.bind _ _), nofun, ?_⟩
      intro y hy
      cases hy
      have hnew : (w.introduce x.name kind index implicit).tree.vars[w.tree.vars.size]? =
          some ⟨x.name, kind, w.current, index, #[], false, implicit⟩ := by
        rw [Walk.introduce, getElem?_vars_declare, if_pos rfl]
      exact binds_bind hnew rfl
  | refer x =>
      obtain ⟨htree, hgrows, hsize, hbinding, y, hy, hname⟩ := h.resolveName x.name
      have hlt : w.current < (w.resolveName x.name).1.scopes.size := hsize ▸ h.current_lt
      refine ⟨⟨htree.bind _ _, hlt⟩, hgrows.trans (.bind _ _), nofun, ?_⟩
      intro z hz
      cases hz
      obtain ⟨hother, hself⟩ := binds_bind hy hname
      exact ⟨fun id hid => (hother id hid).trans (hbinding id), hself⟩
  | assign x =>
      obtain ⟨htree, hgrows, hsize, hbinding, y, hy, hname⟩ := h.resolveName x.name
      have hlt : w.current < (w.resolveName x.name).1.scopes.size := hsize ▸ h.current_lt
      refine ⟨⟨(htree.bind _ _).markAssigned _, hlt⟩,
        (hgrows.trans (.bind _ _)).trans (.markAssigned _), nofun, ?_⟩
      intro z hz
      cases hz
      obtain ⟨hother, hself⟩ := (binds_bind hy hname).markAssigned (w.resolveName x.name).2
      exact ⟨fun id hid => (hother id hid).trans (hbinding id), hself⟩

theorem run (h : w.Sound) (ss : List Step) :
    (w.run ss).Sound ∧ w.tree.Grows (w.run ss).tree := by
  induction ss generalizing w with
  | nil => exact ⟨h, .refl _⟩
  | cons s ss ih =>
      obtain ⟨hsound, hgrows, -⟩ := h.step s
      obtain ⟨hsound', hgrows'⟩ := ih hsound
      exact ⟨hsound', hgrows.trans hgrows'⟩

theorem idents_cons {s : Step} {x : Ident} (h : s.ident? = some x) (ss : List Step) :
    Steps.idents (s :: ss) = x :: Steps.idents ss :=
  List.filterMap_cons_some h

theorem idents_cons_none {s : Step} (h : s.ident? = none) (ss : List Step) :
    Steps.idents (s :: ss) = Steps.idents ss :=
  List.filterMap_cons_none h

theorem binding_run_of_ne (h : w.Sound) {ss : List Step} {id : NameId}
    (hid : ∀ x ∈ Steps.idents ss, x.id ≠ id) :
    (w.run ss).tree.binding id = w.tree.binding id := by
  induction ss generalizing w with
  | nil => rfl
  | cons s ss ih =>
      obtain ⟨hsound, -, hnone, hsome⟩ := h.step s
      rw [run_cons]
      cases hs : s.ident? with
      | none =>
          rw [idents_cons_none hs] at hid
          rw [ih hsound hid, hnone hs id]
      | some x =>
          rw [idents_cons hs, List.forall_mem_cons] at hid
          rw [ih hsound hid.2, (hsome x hs).1 id hid.1.symm]

/-- After a walk every occurrence denotes a variable of its own name. -/
theorem exists_binding_run (h : w.Sound) {ss : List Step}
    (hids : ((Steps.idents ss).map (·.id)).Nodup) {x : Ident} (hx : x ∈ Steps.idents ss) :
    ∃ (v : VarId) (y : Variable), (w.run ss).tree.binding x.id = some v ∧
      (w.run ss).tree.vars[v]? = some y ∧ y.name = x.name := by
  induction ss generalizing w with
  | nil => cases hx
  | cons s ss ih =>
      obtain ⟨hsound, -, -, hsome⟩ := h.step s
      rw [run_cons]
      cases hs : s.ident? with
      | none =>
          rw [idents_cons_none hs] at hids hx
          exact ih hsound hids hx
      | some z =>
          rw [idents_cons hs] at hids hx
          rw [List.map_cons, List.nodup_cons] at hids
          rcases List.mem_cons.1 hx with rfl | hx
          · obtain ⟨-, v, y, hv, hy, hname⟩ := hsome x hs
            have hlater : ∀ z ∈ Steps.idents ss, z.id ≠ x.id := fun z hz heq =>
              hids.1 (List.mem_map.2 ⟨z, hz, heq⟩)
            obtain ⟨y', hy', hsame⟩ := (hsound.run ss).2.vars v y hy
            exact ⟨v, y', (hsound.binding_run_of_ne hlater).trans hv, hy',
              hsame.name_eq.trans hname⟩
          · exact ih hsound hids.2 hx

end Sound

def outside (nameCount : Nat) : Walk :=
  ⟨({ bindings := Array.replicate nameCount none } : ScopeTree).addScope none .global, globalScope⟩

theorem eq_of_scopes_outside {nameCount : Nat} {i : ScopeId} {s : Scope}
    (hs : (outside nameCount).tree.scopes[i]? = some s) :
    i = globalScope ∧ s = ⟨globalScope, none, .global, 0, #[], #[], []⟩ := by
  cases i with
  | zero =>
      cases hs
      exact ⟨rfl, rfl⟩
  | succ i => simp [outside, addScope] at hs

theorem sound_outside (nameCount : Nat) : (outside nameCount).Sound := by
  refine ⟨⟨?_, ?_, ?_, ?_, ?_, ?_⟩, Nat.zero_lt_one⟩
  · intro i p s hs hp
    rw [(eq_of_scopes_outside hs).2] at hp
    cases hp
  · intro i s hs hi
    exact absurd (eq_of_scopes_outside hs).1 hi
  · intro i s hs
    rw [(eq_of_scopes_outside hs).2]
    rfl
  · intro i s hs n v hnv
    rw [(eq_of_scopes_outside hs).2] at hnv
    cases hnv
  · intro v x hx
    simp [outside, addScope] at hx
  · intro i s hs
    rw [(eq_of_scopes_outside hs).2]
    exact .nil

/-- Every walk begins in order. -/
theorem sound_start (nameCount : Nat) : (start nameCount).Sound :=
  (((sound_outside nameCount).introduce "_ENV" .localVar 0 true).enter .chunk).introduce
    "..." .vararg 0 true

end Walk

end LuaRestyle
