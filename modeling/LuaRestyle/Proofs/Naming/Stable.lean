import LuaRestyle.Naming.Descriptive
import LuaRestyle.Naming.Short
import LuaRestyle.Proofs.Naming.CaptureFree

/-!
# Given names depend on the structure of a program alone

A naming without capture leaves alone what later namings ask about names: which
variables can be renamed, and which names are reserved.  So a tree gets the same names
before and after it is renamed.  Both namings are carried along the scopes together,
and agree on more and more variables.
-/

namespace LuaRestyle.Naming

open ScopeTree

/-! ## What a renaming leaves alone -/

def renamePair (ρ : VarId → String) (e : VarId × Variable) : VarId × Variable :=
  (e.1, { e.2 with name := ρ e.1 })

theorem variablesOf_rename (t : ScopeTree) (ρ : VarId → String) (s : Scope) :
    variablesOf (t.rename ρ) (s.rename ρ) = (variablesOf t s).map (renamePair ρ) := by
  rw [variablesOf, variablesOf, List.map_filterMap]
  refine List.filterMap_congr fun v _ => ?_
  rw [getElem?_vars_rename]
  cases t.vars[v]? <;> rfl

/-- New names under which what could be renamed still can, and nothing else is named
differently. -/
structure Harmless (ρ : VarId → String) (t : ScopeTree) : Prop where
  isRenamable_eq : ∀ (v : VarId) (x : Variable), t.vars[v]? = some x →
    ({ x with name := ρ v } : Variable).isRenamable = x.isRenamable
  kept : ∀ (v : VarId) (x : Variable), t.vars[v]? = some x → x.isRenamable = false →
    ρ v = x.name

/-- No new name is that of the environment, by which a variable would become one that
cannot be renamed. -/
theorem CaptureFree.harmless {naming : Naming} {t : ScopeTree} (h : naming.CaptureFree t)
    (henv : "_ENV" ∈ reserved t) : Harmless naming.name t := by
  refine ⟨fun v x hx => ?_, h.kept⟩
  cases hren : x.isRenamable with
  | false =>
      rw [h.kept v x hx hren]
      exact hren
  | true =>
      have hne : naming.name v ≠ "_ENV" := fun heq => h.fresh v x hx hren (heq ▸ henv)
      simp only [Variable.isRenamable, Bool.and_eq_true] at hren ⊢
      refine ⟨hren.1, ?_⟩
      split
      case h_1 hkind => simp [hkind] at hren
      case h_2 hkind => simpa [hkind] using hren.2
      case h_3 hkind =>
        simp only [hkind, Bool.and_eq_true] at hren
        exact Bool.and_eq_true_iff.2 ⟨bne_iff_ne.2 hne, hren.2.2⟩
      case h_4 hkind =>
        simp only [hkind, Bool.and_eq_true] at hren
        exact Bool.and_eq_true_iff.2 ⟨bne_iff_ne.2 hne, hren.2.2⟩

variable {t : ScopeTree} {ρ : VarId → String}

theorem Harmless.isRenamable_recall (h : Harmless ρ t) {s : Scope} {e : VarId × Variable}
    (he : e ∈ variablesOf t s) : (renamePair ρ e).2.isRenamable = e.2.isRenamable :=
  h.isRenamable_eq e.1 e.2 (mem_variablesOf.1 he).2

theorem Harmless.reserved_rename (h : Harmless ρ t) : reserved (t.rename ρ) = reserved t := by
  have hnames : ∀ (n : Nat) (xs : List Variable),
      (∀ i x, xs[i]? = some x → t.vars[n + i]? = some x) →
      ((xs.mapIdx fun i x => ({ x with name := ρ (n + i) } : Variable)).filter
        (!·.isRenamable)).map (·.name) = (xs.filter (!·.isRenamable)).map (·.name) := by
    intro n xs hxs
    induction xs generalizing n with
    | nil => rfl
    | cons x xs ih =>
        have hx : t.vars[n]? = some x := hxs 0 x rfl
        have hrest := ih (n + 1) fun i y hy => by
          rw [Nat.add_assoc, Nat.add_comm 1 i]
          exact hxs (i + 1) y hy
        have hshift : (fun i (x : Variable) => ({ x with name := ρ (n + (i + 1)) } : Variable)) =
            fun i x => { x with name := ρ (n + 1 + i) } := by
          funext i x
          rw [Nat.add_assoc, Nat.add_comm 1 i]
        rw [List.mapIdx_cons, List.filter_cons, List.filter_cons, Nat.add_zero,
          h.isRenamable_eq n x hx, hshift]
        cases hren : x.isRenamable with
        | false => simp [hrest, h.kept n x hx hren]
        | true => simpa using hrest
  have hvars := hnames 0 t.vars.toList fun i x hx => by
    rw [Nat.zero_add]
    rwa [Array.getElem?_toList] at hx
  simp only [Nat.zero_add] at hvars
  rw [reserved, reserved, rename, Array.toList_mapIdx, hvars]

/-! ## Namings that agree -/

structure AgreeOn (P : VarId → Prop) (a b : Naming) : Prop where
  size_eq : a.names.size = b.names.size
  name_eq : ∀ v, P v → a.name v = b.name v

variable {P Q : VarId → Prop} {a b : Naming}

theorem AgreeOn.mono (h : AgreeOn P a b) (hQ : ∀ v, Q v → P v) : AgreeOn Q a b :=
  ⟨h.size_eq, fun v hv => h.name_eq v (hQ v hv)⟩

theorem AgreeOn.set (h : AgreeOn P a b) (v : VarId) (text : String) :
    AgreeOn (fun u => P u ∨ u = v) (a.set v text) (b.set v text) := by
  refine ⟨by rw [size_set, size_set, h.size_eq], fun u hu => ?_⟩
  by_cases huv : u = v
  · subst huv
    by_cases hlt : u < a.names.size
    · rw [name_set_self hlt, name_set_self (h.size_eq ▸ hlt)]
    · have hle : ∀ c : Naming, ¬ u < c.names.size → (c.set u text).name u = "" := by
        intro c hc
        rw [name, Array.getElem?_eq_none (by rw [size_set]; exact Nat.le_of_not_lt hc)]
        rfl
      rw [hle a hlt, hle b (h.size_eq ▸ hlt)]
  · rw [name_set_of_ne huv, name_set_of_ne huv, h.name_eq u (hu.resolve_right huv)]

theorem AgreeOn.eq (h : AgreeOn P a b) (hall : ∀ v, v < a.names.size → P v) : a = b := by
  obtain ⟨names⟩ := a
  obtain ⟨names'⟩ := b
  have hnames : names = names' := by
    refine Array.ext h.size_eq fun v hv hv' => ?_
    have hname := h.name_eq v (hall v hv)
    simpa [name, Array.getElem?_eq_getElem hv, Array.getElem?_eq_getElem hv'] using hname
  rw [hnames]

/-- Before any name is given, the tree and the renamed tree agree on what cannot be
renamed. -/
theorem Harmless.agreeOn_source (h : Harmless ρ t) :
    AgreeOn (fun v => ∀ x, t.vars[v]? = some x → x.isRenamable = false) (source t)
      (source (t.rename ρ)) := by
  refine ⟨by simp [source], fun v hv => ?_⟩
  cases hx : t.vars[v]? with
  | none => simp [name, source, getElem?_vars_rename, hx]
  | some x =>
      rw [name_source hx]
      simp [name, source, getElem?_vars_rename, hx, h.kept v x hx (hv x hx)]

def Listed (vs : List (VarId × Variable)) (v : VarId) : Prop :=
  ∃ x, (v, x) ∈ vs ∧ x.isRenamable = true

theorem not_listed_nil {v : VarId} : ¬ Listed [] v := fun ⟨_, hx, _⟩ => nomatch hx

theorem Listed.of_cons {e : VarId × Variable} {vs : List (VarId × Variable)} {v : VarId}
    (h : Listed (e :: vs) v) : (v = e.1 ∧ e.2.isRenamable = true) ∨ Listed vs v := by
  obtain ⟨x, hx, hren⟩ := h
  rcases List.mem_cons.1 hx with rfl | hx
  · exact .inl ⟨rfl, hren⟩
  · exact .inr ⟨x, hx, hren⟩

/-- Two runs along scopes, over a tree and over the renamed tree, agree on the variables
of all scopes that they have passed. -/
theorem foldl_scopes {σ : Type} (step step' : σ → Scope → σ) (ss : List Scope)
    {R : (VarId → Prop) → σ → σ → Prop} (hmono : ∀ P Q a b, R P a b → (∀ v, Q v → P v) → R Q a b)
    (hstep : ∀ P a b, ∀ s ∈ ss, R P a b →
      R (fun v => P v ∨ Listed (variablesOf t s) v) (step a s) (step' b (s.rename ρ)))
    {a b : σ} (h : R P a b) :
    R (fun v => P v ∨ ∃ s ∈ ss, Listed (variablesOf t s) v) (ss.foldl step a)
      ((ss.map (Scope.rename ρ)).foldl step' b) := by
  induction ss generalizing P a b with
  | nil => exact hmono _ _ _ _ h fun v hv => hv.resolve_right (by simp)
  | cons s ss ih =>
      have hnext := hstep P a b s List.mem_cons_self h
      have hrest := ih (fun P a b s' hs' => hstep P a b s' (List.mem_cons_of_mem s hs')) hnext
      refine hmono _ _ _ _ hrest fun v hv => ?_
      rcases hv with hv | ⟨s', hs', hv⟩
      · exact .inl (.inl hv)
      · rcases List.mem_cons.1 hs' with rfl | hs'
        · exact .inl (.inr hv)
        · exact .inr ⟨s', hs', hv⟩

/-- Every variable of a tree cannot be renamed or is listed in its scope. -/
theorem kept_or_listed (ht : t.WellScoped) (v : VarId) :
    (∀ x, t.vars[v]? = some x → x.isRenamable = false) ∨
      ∃ s ∈ t.scopes.toList, Listed (variablesOf t s) v := by
  by_cases hkeep : ∀ x, t.vars[v]? = some x → x.isRenamable = false
  · exact .inl hkeep
  · simp only [not_forall, Bool.not_eq_false] at hkeep
    obtain ⟨x, hx, hren⟩ := hkeep
    obtain ⟨s, hs, hmem⟩ := exists_mem_variablesOf ht hx
    exact .inr ⟨s, Array.mem_toList_iff.2 (Array.mem_of_getElem? hs), x, hmem, hren⟩

/-! ## The shortest names -/

theorem AgreeOn.foldl_shorten (h : AgreeOn P a b) (reserved : List String)
    (vs : List (VarId × Variable)) (n : Nat)
    (hren : ∀ e ∈ vs, (renamePair ρ e).2.isRenamable = e.2.isRenamable) :
    AgreeOn (fun v => P v ∨ Listed vs v) (vs.foldl (shorten reserved) (a, n)).1
        ((vs.map (renamePair ρ)).foldl (shorten reserved) (b, n)).1 ∧
      (vs.foldl (shorten reserved) (a, n)).2 =
        ((vs.map (renamePair ρ)).foldl (shorten reserved) (b, n)).2 := by
  induction vs generalizing P a b n with
  | nil => exact ⟨h.mono fun v hv => hv.resolve_right not_listed_nil, rfl⟩
  | cons e vs ih =>
      have hrest := fun e' he' => hren e' (List.mem_cons_of_mem e he')
      rw [List.map_cons, List.foldl_cons, List.foldl_cons, shorten, shorten,
        hren e List.mem_cons_self]
      cases he : e.2.isRenamable with
      | false =>
          obtain ⟨hagree, hnext⟩ := ih h n hrest
          refine ⟨hagree.mono fun v hv => hv.imp id fun hv => ?_, hnext⟩
          exact hv.of_cons.resolve_left fun hv => by rw [he] at hv; exact nomatch hv.2
      | true =>
          obtain ⟨hagree, hnext⟩ := ih (h.set e.1 (wordAt (firstFree reserved n)))
            (firstFree reserved n + 1) hrest
          refine ⟨hagree.mono fun v hv => ?_, hnext⟩
          rcases hv with hv | hv
          · exact .inl (.inl hv)
          · rcases hv.of_cons with hv | hv
            · exact .inl (.inr hv.1)
            · exact .inr hv

theorem short_rename (ht : t.WellScoped) (h : Harmless ρ t) : short (t.rename ρ) = short t := by
  have hrun := foldl_scopes (t := t) (ρ := ρ) (shortenScope t (reserved t))
    (shortenScope (t.rename ρ) (reserved t)) t.scopes.toList
    (R := fun P (state state' : ShortState) =>
      AgreeOn P state.naming state'.naming ∧ state.unused = state'.unused)
    (a := { naming := source t }) (b := { naming := source (t.rename ρ) })
    (fun P Q a b hR hQ => ⟨hR.1.mono hQ, hR.2⟩)
    (fun P state state' s hs hR => by
      obtain ⟨hagree, hunused⟩ := hR
      obtain ⟨hnaming, hnext⟩ := hagree.foldl_shorten (ρ := ρ) (reserved t)
        (variablesOf t s) ((s.parent.bind (state.unused[·]?)).getD 0)
        fun e he => h.isRenamable_recall he
      rw [← variablesOf_rename] at hnaming hnext
      simp only [shortenScope, Scope.rename, ← hunused] at hnaming hnext ⊢
      exact ⟨hnaming, by rw [hnext]⟩)
    ⟨h.agreeOn_source, rfl⟩
  have hscopes : (t.rename ρ).scopes.toList = t.scopes.toList.map (Scope.rename ρ) :=
    Array.toList_map
  rw [short, short, h.reserved_rename, hscopes]
  exact (hrun.1.eq fun v _ => kept_or_listed ht v).symm

/-! ## Names that say what a variable is -/

theorem AgreeOn.describeGlobals (h : AgreeOn P a b) (reserved : List String)
    (vs : List (VarId × Variable)) (n : Nat) :
    AgreeOn (fun v => P v ∨ Listed vs v) (describeGlobals reserved n vs a)
      (describeGlobals reserved n (vs.map (renamePair ρ)) b) := by
  induction vs generalizing P a b n with
  | nil => exact h.mono fun v hv => hv.resolve_right not_listed_nil
  | cons e vs ih =>
      refine (ih (h.set e.1 (avoid reserved (globalName n))) (n + 1)).mono fun v hv => ?_
      rcases hv with hv | hv
      · exact .inl (.inl hv)
      · exact hv.of_cons.imp (fun hv => .inr hv.1) id

theorem AgreeOn.describeLocals (h : AgreeOn P a b) (reserved : List String)
    (vs : List (VarId × Variable)) (scope n : Nat) :
    AgreeOn (fun v => P v ∨ Listed vs v) (describeLocals reserved scope n vs a)
      (describeLocals reserved scope n (vs.map (renamePair ρ)) b) := by
  induction vs generalizing P a b n with
  | nil => exact h.mono fun v hv => hv.resolve_right not_listed_nil
  | cons e vs ih =>
      have hcons : ∀ v, P v ∨ Listed (e :: vs) v → (P v ∨ v = e.1) ∨ Listed vs v := by
        intro v hv
        rcases hv with hv | hv
        · exact .inl (.inl hv)
        · exact hv.of_cons.imp (fun hv => .inr hv.1) id
      rw [List.map_cons, Naming.describeLocals]
      split
      case isTrue hkind =>
        have hrest := ih (h.set e.1 (avoid reserved (paramName scope e.2.index))) n
        simpa [Naming.describeLocals, renamePair, hkind] using hrest.mono hcons
      case isFalse hkind =>
        have hrest := ih (h.set e.1 (avoid reserved (localName scope n))) (n + 1)
        simpa [Naming.describeLocals, renamePair, hkind] using hrest.mono hcons

theorem Harmless.renamable_rename (h : Harmless ρ t) (s : Scope) :
    renamable (variablesOf (t.rename ρ) (s.rename ρ)) =
      (renamable (variablesOf t s)).map (renamePair ρ) := by
  rw [renamable, renamable, variablesOf_rename, List.filter_map]
  congr 1
  exact List.filter_congr fun e he => h.isRenamable_recall he

theorem Listed.renamable {vs : List (VarId × Variable)} {v : VarId} (h : Listed vs v) :
    Listed (Naming.renamable vs) v := by
  obtain ⟨x, hx, hren⟩ := h
  exact ⟨x, List.mem_filter.2 ⟨hx, hren⟩, hren⟩

theorem AgreeOn.describeScope (h : Harmless ρ t) (reserved : List String) (s : Scope)
    {state state' : Naming × Nat} (hagree : AgreeOn P state.1 state'.1)
    (hcount : state.2 = state'.2) :
    AgreeOn (fun v => P v ∨ Listed (variablesOf t s) v) (describeScope t reserved state s).1
        (describeScope (t.rename ρ) reserved state' (s.rename ρ)).1 ∧
      (describeScope t reserved state s).2 =
        (describeScope (t.rename ρ) reserved state' (s.rename ρ)).2 := by
  obtain ⟨naming, count⟩ := state
  obtain ⟨naming', count'⟩ := state'
  cases hcount
  have hlocals := hagree.describeLocals (ρ := ρ) reserved (renamable (variablesOf t s))
    (count + 1) 1
  rw [Naming.describeScope, Naming.describeScope, h.renamable_rename]
  cases hvs : renamable (variablesOf t s) with
  | nil =>
      refine ⟨hagree.mono fun v hv => hv.resolve_right fun hv => ?_, rfl⟩
      obtain ⟨x, hx, -⟩ := hv.renamable
      rw [hvs] at hx
      cases hx
  | cons e vs =>
      rw [hvs] at hlocals
      refine ⟨hlocals.mono fun v hv => hv.imp id fun hv => ?_, rfl⟩
      exact hvs ▸ hv.renamable

theorem descriptive_rename (ht : t.WellScoped) (hpos : 0 < t.scopes.size) (h : Harmless ρ t) :
    descriptive (t.rename ρ) = descriptive t := by
  have hs : t.scopes[globalScope]? = some t.scopes[globalScope] := Array.getElem?_eq_getElem hpos
  have hglobals' : renamable (globals (t.rename ρ)) = (renamable (globals t)).map (renamePair ρ) := by
    rw [globals_eq hs, ← h.renamable_rename, globals, getElem?_scopes_rename, hs]
    rfl
  have hinner : innerScopes (t.rename ρ) = (innerScopes t).map (Scope.rename ρ) := by
    rw [innerScopes, innerScopes, rename, Array.toList_map, List.map_drop]
  have hstart := h.agreeOn_source.describeGlobals (ρ := ρ) (reserved t)
    (renamable (globals t)) 1
  rw [← hglobals'] at hstart
  have hrun := foldl_scopes (t := t) (ρ := ρ) (describeScope t (reserved t))
    (describeScope (t.rename ρ) (reserved t)) (innerScopes t)
    (R := fun P (state state' : Naming × Nat) => AgreeOn P state.1 state'.1 ∧ state.2 = state'.2)
    (a := (_, 0)) (b := (_, 0))
    (fun P Q a b hR hQ => ⟨hR.1.mono hQ, hR.2⟩)
    (fun P state state' s _ hR => hR.1.describeScope h (reserved t) s hR.2) ⟨hstart, rfl⟩
  rw [descriptive, descriptive, h.reserved_rename, hinner]
  refine (hrun.1.eq fun v _ => ?_).symm
  rcases kept_or_listed ht v with hv | ⟨s, hs', hv⟩
  · exact .inl (.inl hv)
  · -- The scope is the outermost one or one of those inside it.
    obtain ⟨i, hi⟩ := List.mem_iff_getElem?.1 hs'
    cases i with
    | zero =>
        rw [Array.getElem?_toList] at hi
        rw [← globals_eq hi] at hv
        exact .inl (.inr hv.renamable)
    | succ i =>
        refine .inr ⟨s, List.mem_iff_getElem?.2 ⟨i, ?_⟩, hv⟩
        rw [innerScopes, List.getElem?_drop, Nat.add_comm 1 i, hi]

end LuaRestyle.Naming
