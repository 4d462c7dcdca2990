import LuaRestyle.Proofs.Naming.CaptureFree
import LuaRestyle.Proofs.Naming.Fresh

/-!
# The shortest names capture nothing

The numbers of the short names grow within a scope, and inside it they begin where
those of the scope around it stop.  So two variables have the same name only where
neither is in sight of the other.
-/

namespace LuaRestyle.Naming

open ScopeTree

/-- What naming the variables `vs` does to a naming and the number of the first name that
is not in use. -/
structure Shortened (reserved : List String) (vs : List (VarId × Variable))
    (before after : Naming × Nat) : Prop where
  le : before.2 ≤ after.2
  size_eq : after.1.names.size = before.1.names.size
  kept : ∀ v, (∀ x, (v, x) ∈ vs → x.isRenamable = false) → after.1.name v = before.1.name v
  given : ∀ v x, (v, x) ∈ vs → x.isRenamable = true →
    ∃ i, before.2 ≤ i ∧ i < after.2 ∧ after.1.name v = wordAt i ∧ wordAt i ∉ reserved
  apart : ∀ u v x y, (u, x) ∈ vs → (v, y) ∈ vs → x.isRenamable = true → y.isRenamable = true →
    after.1.name u = after.1.name v → u = v

/-- A variable in front that keeps its name. -/
theorem Shortened.keep {reserved : List String} {vs : List (VarId × Variable)}
    {before after : Naming × Nat} (h : Shortened reserved vs before after) {v : VarId}
    {x : Variable} (hx : x.isRenamable = false) :
    Shortened reserved ((v, x) :: vs) before after := by
  -- What is renamable is not the variable in front.
  have htail : ∀ u y, (u, y) ∈ (v, x) :: vs → y.isRenamable = true → (u, y) ∈ vs := by
    intro u y hu hy
    rcases List.mem_cons.1 hu with heq | hu
    · cases heq
      rw [hx] at hy
      cases hy
    · exact hu
  refine ⟨h.le, h.size_eq, fun u hu => h.kept u fun y hy => hu y (List.mem_cons_of_mem _ hy), ?_,
    ?_⟩
  · intro u y hu hy
    exact h.given u y (htail u y hu hy) hy
  · intro u u' y y' hu hu' hy hy'
    exact h.apart u u' y y' (htail u y hu hy) (htail u' y' hu' hy') hy hy'

/-- A variable in front that gets the first name, which lies before all others. -/
theorem Shortened.give {reserved : List String} {vs : List (VarId × Variable)} {naming : Naming}
    {n i : Nat} {after : Naming × Nat} {v : VarId} {x : Variable}
    (h : Shortened reserved vs (naming.set v (wordAt i), i + 1) after)
    (hv : v < naming.names.size) (hnew : v ∉ vs.map (·.1)) (hx : x.isRenamable = true)
    (hle : n ≤ i) (hi : wordAt i ∉ reserved) :
    Shortened reserved ((v, x) :: vs) (naming, n) after := by
  have hself : after.1.name v = wordAt i := by
    rw [h.kept v fun y hy => absurd (List.mem_map_of_mem hy) hnew]
    exact name_set_self hv _
  have hlt : i < after.2 := h.le
  -- The variables behind it have later names.
  have hother : ∀ u y, (u, y) ∈ vs → y.isRenamable = true → after.1.name u ≠ wordAt i := by
    intro u y hu hy heq
    obtain ⟨j, hj, -, hname, -⟩ := h.given u y hu hy
    rw [hname] at heq
    have hji : j = i := wordAt_injective heq
    have hle : i + 1 ≤ j := hj
    omega
  refine ⟨Nat.le_trans hle (Nat.le_of_lt hlt), h.size_eq.trans (size_set _ _ _), ?_, ?_, ?_⟩
  · intro u hu
    have hne : u ≠ v := by
      rintro rfl
      have hkept := hu x List.mem_cons_self
      rw [hx] at hkept
      cases hkept
    rw [h.kept u fun y hy => hu y (List.mem_cons_of_mem _ hy)]
    exact name_set_of_ne hne _
  · intro u y hu hy
    rcases List.mem_cons.1 hu with heq | hu
    · cases heq
      exact ⟨i, hle, hlt, hself, hi⟩
    · obtain ⟨j, hj, hj', hname, hnot⟩ := h.given u y hu hy
      have hle' : i + 1 ≤ j := hj
      exact ⟨j, Nat.le_trans hle (Nat.le_of_succ_le hle'), hj', hname, hnot⟩
  · intro u u' y y' hu hu' hy hy' heq
    rcases List.mem_cons.1 hu with hfst | hu
    · rcases List.mem_cons.1 hu' with hfst' | hu'
      · cases hfst
        cases hfst'
        rfl
      · cases hfst
        exact absurd (heq.symm.trans hself) (hother u' y' hu' hy')
    · rcases List.mem_cons.1 hu' with hfst' | hu'
      · cases hfst'
        exact absurd (heq.trans hself) (hother u y hu hy)
      · exact h.apart u u' y y' hu hu' hy hy' heq

theorem shortened_foldl (reserved : List String) {vs : List (VarId × Variable)}
    {state : Naming × Nat} (hnodup : (vs.map (·.1)).Nodup)
    (hlt : ∀ v x, (v, x) ∈ vs → v < state.1.names.size) :
    Shortened reserved vs state (vs.foldl (shorten reserved) state) := by
  induction vs generalizing state with
  | nil => exact ⟨Nat.le_refl _, rfl, fun _ _ => rfl, nofun, nofun⟩
  | cons e vs ih =>
      obtain ⟨v, x⟩ := e
      obtain ⟨naming, n⟩ := state
      rw [List.map_cons, List.nodup_cons] at hnodup
      have htail : ∀ u y, (u, y) ∈ vs → u < naming.names.size := fun u y hu =>
        hlt u y (List.mem_cons_of_mem _ hu)
      rw [List.foldl_cons, shorten]
      split
      case isTrue hx =>
        have hrest := @ih (naming.set v (wordAt (firstFree reserved n)), firstFree reserved n + 1)
          hnodup.2 fun u y hu => (size_set naming v _).symm ▸ htail u y hu
        exact hrest.give (hlt v x List.mem_cons_self) hnodup.1 hx (le_nextFree _ _ _)
          (wordAt_firstFree_notMem reserved n)
      case isFalse hx => exact (ih hnodup.2 htail).keep (Bool.eq_false_iff.2 hx)

/-- The number of the first name that is not in use around a scope. -/
def around (unused : Array Nat) (s : Scope) : Nat := (s.parent.bind (unused[·]?)).getD 0

/-- The variables of the first `k` scopes have short names, numbered from where those
around their scope stop, and all others have their own. -/
structure ShortUpTo (t : ScopeTree) (k : Nat) (state : ShortState) : Prop where
  size_unused : state.unused.size = k
  size_eq : state.naming.names.size = t.vars.size
  kept : ∀ (v : VarId) (x : Variable), t.vars[v]? = some x → x.isRenamable = false →
    state.naming.name v = x.name
  le : ∀ (i : ScopeId) (s : Scope) (n : Nat), t.scopes[i]? = some s →
    state.unused[i]? = some n → around state.unused s ≤ n
  given : ∀ (v : VarId) (x : Variable) (s : Scope) (n : Nat), t.vars[v]? = some x →
    x.isRenamable = true → t.scopes[x.scope]? = some s → state.unused[x.scope]? = some n →
    ∃ i, around state.unused s ≤ i ∧ i < n ∧ state.naming.name v = wordAt i ∧
      wordAt i ∉ reserved t
  apart : ∀ (u v : VarId) (x y : Variable), t.vars[u]? = some x → t.vars[v]? = some y →
    x.isRenamable = true → y.isRenamable = true → x.scope = y.scope → x.scope < k →
    state.naming.name u = state.naming.name v → u = v

theorem shortUpTo_zero (t : ScopeTree) : ShortUpTo t 0 { naming := source t } :=
  ⟨rfl, Array.size_map, fun _ _ hx _ => name_source hx, nofun, nofun,
    fun _ _ _ _ _ _ _ _ _ h => absurd h (Nat.not_lt_zero _)⟩

/-- What lies around a scope has been passed before it. -/
theorem around_push {t : ScopeTree} (ht : t.WellScoped) {unused : Array Nat} {i : ScopeId}
    {s : Scope} (hs : t.scopes[i]? = some s) (hi : i ≤ unused.size) (n : Nat) :
    around (unused.push n) s = around unused s := by
  cases hp : s.parent with
  | none =>
      rw [around, around, hp]
      rfl
  | some p =>
      have hlt : p < unused.size := Nat.lt_of_lt_of_le (ht.parent_lt i p s hs hp) hi
      rw [around, around, hp, Option.bind_some, Option.bind_some,
        Array.getElem?_push, if_neg (Nat.ne_of_lt hlt)]

/-- What the next scope finds: its variables can be named, from where those around it stop. -/
theorem ShortUpTo.shortened {t : ScopeTree} (ht : t.WellScoped) {k : Nat} {state : ShortState}
    (h : ShortUpTo t k state) {s : Scope} (hs : t.scopes[k]? = some s) :
    Shortened (reserved t) (variablesOf t s) (state.naming, around state.unused s)
      ((variablesOf t s).foldl (shorten (reserved t)) (state.naming, around state.unused s)) := by
  refine shortened_foldl (reserved t) (nodup_variablesOf ht hs) fun v x hx => ?_
  rw [h.size_eq]
  exact lt_size_of_mem_variablesOf hx

/-- The variables of other scopes keep the names that they have got, and so does what may not be
renamed. -/
theorem Shortened.name_eq {t : ScopeTree} (ht : t.WellScoped) {k : ScopeId} {s : Scope}
    (hs : t.scopes[k]? = some s) {before after : Naming × Nat}
    (h : Shortened (reserved t) (variablesOf t s) before after) {v : VarId} {x : Variable}
    (hx : t.vars[v]? = some x) (hor : x.scope ≠ k ∨ x.isRenamable = false) :
    after.1.name v = before.1.name v := by
  refine h.kept v fun y hy => ?_
  obtain ⟨hyx, hscope⟩ := (mem_variablesOf_iff_scope ht hs).1 hy
  rw [hx] at hyx
  cases hyx
  exact hor.resolve_left (not_not_intro hscope)

/-- The number of a scope is the one that was put down last, for the last scope, or one that was
there before.  Either way the scopes around it have kept theirs. -/
theorem ShortUpTo.unused_push {t : ScopeTree} (ht : t.WellScoped) {k : Nat} {state : ShortState}
    (h : ShortUpTo t k state) {s : Scope} (hs : t.scopes[k]? = some s) {m : Nat} {i : ScopeId}
    {s' : Scope} {n : Nat} (hs' : t.scopes[i]? = some s')
    (hn : (state.unused.push m)[i]? = some n) :
    around (state.unused.push m) s' = around state.unused s' ∧
      (i = k ∧ s' = s ∧ n = m ∨ i ≠ k ∧ state.unused[i]? = some n) := by
  have hsize : i < state.unused.size + 1 := by
    rw [← Array.size_push m]
    exact (Array.getElem?_eq_some_iff.1 hn).1
  refine ⟨around_push ht hs' (Nat.le_of_lt_succ hsize) m, ?_⟩
  rw [Array.getElem?_push, h.size_unused] at hn
  split at hn
  case isTrue hik =>
    rw [hik, hs] at hs'
    cases hs'
    cases hn
    exact .inl ⟨hik, rfl, rfl⟩
  case isFalse hik => exact .inr ⟨hik, hn⟩

theorem ShortUpTo.shortenScope {t : ScopeTree} (ht : t.WellScoped) {k : Nat} {state : ShortState}
    (h : ShortUpTo t k state) {s : Scope} (hs : t.scopes[k]? = some s) :
    ShortUpTo t (k + 1) (shortenScope t (reserved t) state s) := by
  have hfold := h.shortened ht hs
  generalize hafter : (variablesOf t s).foldl (shorten (reserved t))
    (state.naming, around state.unused s) = after at hfold
  have hstate : Naming.shortenScope t (reserved t) state s =
      ⟨after.1, state.unused.push after.2⟩ := by
    rw [← hafter]
    rfl
  rw [hstate]
  have hmem : ∀ (v : VarId) (x : Variable), t.vars[v]? = some x → x.scope = k →
      (v, x) ∈ variablesOf t s := fun v x hx hscope =>
    (mem_variablesOf_iff_scope ht hs).2 ⟨hx, hscope⟩
  have hearlier : ∀ (v : VarId) (x : Variable), t.vars[v]? = some x → x.scope ≠ k →
      after.1.name v = state.naming.name v := fun v x hx hne => hfold.name_eq ht hs hx (.inl hne)
  refine ⟨?_, hfold.size_eq.trans h.size_eq, ?_, ?_, ?_, ?_⟩
  · rw [Array.size_push, h.size_unused]
  · intro v x hx hkeep
    exact (hfold.name_eq ht hs hx (.inr hkeep)).trans (h.kept v x hx hkeep)
  · intro i s' n hs' hn
    obtain ⟨haround, ⟨rfl, rfl, rfl⟩ | ⟨-, hn⟩⟩ := h.unused_push ht hs hs' hn
    · rw [haround]
      exact hfold.le
    · rw [haround]
      exact h.le i s' n hs' hn
  · intro v x s' n hx hren hs' hn
    obtain ⟨haround, ⟨hscope, rfl, rfl⟩ | ⟨hne, hn⟩⟩ := h.unused_push ht hs hs' hn
    · rw [haround]
      exact hfold.given v x (hmem v x hx hscope) hren
    · rw [haround]
      simp only [hearlier v x hx hne]
      exact h.given v x s' n hx hren hs' hn
  · intro u v x y hx hy hxr hyr hscope hlt heq
    by_cases hk : x.scope = k
    · exact hfold.apart u v x y (hmem u x hx hk) (hmem v y hy (hscope ▸ hk)) hxr hyr heq
    · simp only [hearlier u x hx hk, hearlier v y hy (hscope ▸ hk)] at heq
      exact h.apart u v x y hx hy hxr hyr hscope
        (Nat.lt_of_le_of_ne (Nat.le_of_lt_succ hlt) hk) heq

theorem ShortUpTo.foldl {t : ScopeTree} (ht : t.WellScoped) {k : Nat} (hk : k ≤ t.scopes.size) :
    ShortUpTo t k ((t.scopes.toList.take k).foldl (Naming.shortenScope t (reserved t))
      { naming := source t }) := by
  induction k with
  | zero => exact shortUpTo_zero t
  | succ k ih =>
      have hs : t.scopes[k]? = some t.scopes[k] := Array.getElem?_eq_getElem hk
      rw [List.take_add_one, Array.getElem?_toList, hs, Option.toList_some, List.foldl_append]
      exact (ih (Nat.le_of_lt hk)).shortenScope ht hs

/-- What is not in use around a scope is what is not in use in the next scope around. -/
theorem ShortUpTo.around_eq {t : ScopeTree} (ht : t.WellScoped) {state : ShortState}
    (h : ShortUpTo t t.scopes.size state) {i p : ScopeId} {s : Scope}
    (hs : t.scopes[i]? = some s) (hp : s.parent = some p) :
    state.unused[p]? = some (around state.unused s) := by
  have hlt : p < state.unused.size := by
    rw [h.size_unused]
    exact Nat.lt_trans (ht.parent_lt i p s hs hp) (Array.getElem?_eq_some_iff.1 hs).1
  rw [around, hp, Option.bind_some, Array.getElem?_eq_getElem hlt, Option.getD_some]

/-- The names that are in use in a scope are in use in those inside it. -/
theorem ShortUpTo.le_of_within {t : ScopeTree} (ht : t.WellScoped) {state : ShortState}
    (h : ShortUpTo t t.scopes.size state) {i a : ScopeId} (hwithin : t.Within i a)
    {m n : Nat} (hi : state.unused[i]? = some m) (ha : state.unused[a]? = some n) : n ≤ m := by
  induction hwithin generalizing m with
  | refl i =>
      rw [hi] at ha
      cases ha
      exact Nat.le_refl _
  | inside hs hp _ ih =>
      exact Nat.le_trans (ih (h.around_eq ht hs hp) ha) (h.le _ _ _ hs hi)

/-- A short name was given, and is not reserved. -/
theorem ShortUpTo.exists_wordAt {t : ScopeTree} (ht : t.WellScoped) {state : ShortState}
    (h : ShortUpTo t t.scopes.size state) {v : VarId} {x : Variable} (hx : t.vars[v]? = some x)
    (hren : x.isRenamable = true) :
    ∃ (s : Scope) (n i : Nat), t.scopes[x.scope]? = some s ∧ state.unused[x.scope]? = some n ∧
      around state.unused s ≤ i ∧ i < n ∧ state.naming.name v = wordAt i ∧
      wordAt i ∉ reserved t := by
  obtain ⟨s, hs, -⟩ := ht.listed v x hx
  have hlt : x.scope < state.unused.size := by
    rw [h.size_unused]
    exact (Array.getElem?_eq_some_iff.1 hs).1
  have hn := Array.getElem?_eq_getElem hlt
  obtain ⟨i, hi⟩ := h.given v x s _ hx hren hs hn
  exact ⟨s, _, i, hs, hn, hi⟩

theorem shortUpTo_short {t : ScopeTree} (ht : t.WellScoped) :
    ∃ state, ShortUpTo t t.scopes.size state ∧ state.naming = short t := by
  refine ⟨_, ShortUpTo.foldl ht (Nat.le_refl _), ?_⟩
  rw [short, ← Array.length_toList, List.take_length]

theorem isName_short {t : ScopeTree} (ht : t.WellScoped) {v : VarId} {x : Variable}
    (hx : t.vars[v]? = some x) (hren : x.isRenamable = true) : isName ((short t).name v) = true := by
  obtain ⟨state, h, hstate⟩ := shortUpTo_short ht
  obtain ⟨-, -, i, -, -, -, -, hname, hnot⟩ := h.exists_wordAt ht hx hren
  rw [← hstate, hname]
  exact isName_wordAt fun hword => hnot (List.mem_append_left _ hword)

/-- The shortest names capture nothing. -/
theorem captureFree_short {t : ScopeTree} (ht : t.WellScoped) : (short t).CaptureFree t := by
  have hnamed := fun v x => @isName_short t ht v x
  obtain ⟨state, h, hstate⟩ := shortUpTo_short ht
  rw [← hstate] at hnamed ⊢
  refine ⟨h.size_eq, h.kept, ?_, ?_, hnamed⟩
  · intro v x hx hren
    obtain ⟨-, -, i, -, -, -, -, hname, hnot⟩ := h.exists_wordAt ht hx hren
    rwa [hname]
  · intro u v x y hx hy hxr hyr hwithin heq
    obtain ⟨s, m, i, hs, -, hi, -, hname, -⟩ := h.exists_wordAt ht hx hxr
    obtain ⟨-, n, j, -, hn, -, hj, hname', -⟩ := h.exists_wordAt ht hy hyr
    have hij : i = j := wordAt_injective (hname.symm.trans (heq.trans hname'))
    generalize hscope : y.scope = a at hwithin hn
    cases hwithin with
    | refl =>
        exact h.apart u v x y hx hy hxr hyr hscope.symm (Array.getElem?_eq_some_iff.1 hs).1 heq
    | inside hs' hp hwithin =>
        -- The name of the outer variable is in use where those of the inner scope begin.
        rw [hs] at hs'
        cases hs'
        have hle := h.le_of_within ht hwithin (h.around_eq ht hs hp) hn
        omega

end LuaRestyle.Naming
