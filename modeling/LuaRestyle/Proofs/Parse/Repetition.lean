import LuaRestyle.Proofs.Parse.Passage

/-!
# Repetitions

A repetition is a chain of steps, each of which finds something.  `Found` is the
chain of `manyUntil`, `Grown` that of `grow`.  Rounds are counted off against the
tokens ahead, so a chain is never cut short if every step passes a token.
-/

namespace LuaRestyle.Parse

variable {α : Type}

inductive Found (step : Parse (Option α)) : Cursor → List α → Cursor → Prop
  | nil (c : Cursor) : Found step c [] c
  | cons {c d e : Cursor} {a : α} {as : List α}
      (h : step c = .ok (some a) d) (rest : Found step d as e) : Found step c (a :: as) e

inductive Grown (step : α → Parse (Option α)) : α → Cursor → α → Cursor → Prop
  | refl (a : α) (c : Cursor) : Grown step a c a c
  | head {a b a' : α} {c d c' : Cursor}
      (h : step a c = .ok (some a') c') (rest : Grown step a' c' b d) : Grown step a c b d

namespace Grown

variable {step : α → Parse (Option α)} {a b a' : α} {c d c' : Cursor}

theorem trans (h : Grown step a c a' c') (h' : Grown step a' c' b d) :
    Grown step a c b d := by
  induction h with
  | refl => exact h'
  | head h _ ih => exact .head h (ih h')

theorem tail (h : Grown step a c a' c') (h' : step a' c' = .ok (some b) d) :
    Grown step a c b d :=
  h.trans (.head h' (.refl b d))

/-- What one step keeps, a chain of them keeps. -/
theorem keep {P : α → Cursor → Prop} (hstep : ∀ a c b d, P a c → step a c = .ok (some b) d → P b d)
    (h : Grown step a c b d) (ha : P a c) : P b d := by
  induction h with
  | refl => exact ha
  | head h _ ih => exact ih (hstep _ _ _ _ ha h)

end Grown

/-! ## From the outcome to the chain -/

section Outcome

variable {isLast : α → Bool} {step : Parse (Option α)} {c d : Cursor} {as : List α}

/-- A repetition that comes to an end has followed a chain, with no last item in
between, up to a last item or to where nothing was found. -/
theorem found_of_manyWithin (hnone : ∀ c d, step c = .ok none d → d = c) (rounds : List Token)
    (h : manyWithin isLast step rounds c = .ok as d) :
    Found step c as d ∧ (∀ a ∈ as.dropLast, isLast a = false) ∧
      ((∃ a ∈ as.getLast?, isLast a = true) ∨ step d = .ok none d) := by
  induction rounds generalizing c as with
  | nil => exact absurd h stuck_ne_ok
  | cons t rounds ih =>
      rw [manyWithin, bind_eq_ok] at h
      obtain ⟨o, c', hstep, h⟩ := h
      cases o with
      | none =>
          obtain ⟨rfl, rfl⟩ := pure_eq_ok.1 h
          have hc := hnone _ _ hstep
          rw [hc] at hstep ⊢
          exact ⟨.nil c, by simp, .inr hstep⟩
      | some a =>
          simp only at h
          split at h
          case isTrue hlast =>
            obtain ⟨rfl, rfl⟩ := pure_eq_ok.1 h
            exact ⟨.cons hstep (.nil _), by simp, .inl ⟨a, by simp, hlast⟩⟩
          case isFalse hlast =>
            rw [bind_eq_ok] at h
            obtain ⟨as', d', hrest, h⟩ := h
            obtain ⟨rfl, rfl⟩ := pure_eq_ok.1 h
            obtain ⟨hfound, hdrop, hend⟩ := ih hrest
            refine ⟨.cons hstep hfound, ?_, ?_⟩
            · intro x hx
              cases as' with
              | nil => simp at hx
              | cons y ys =>
                  rw [List.dropLast_cons_cons, List.mem_cons] at hx
                  rcases hx with rfl | hx
                  · simpa using hlast
                  · exact hdrop x hx
            · rcases hend with ⟨x, hx, hlast'⟩ | hend
              · refine .inl ⟨x, ?_, hlast'⟩
                cases as' with
                | nil => simp at hx
                | cons y ys => rwa [List.getLast?_cons_cons]
              · exact .inr hend

theorem found_of_manyUntil (hnone : ∀ c d, step c = .ok none d → d = c)
    (h : manyUntil isLast step c = .ok as d) :
    Found step c as d ∧ (∀ a ∈ as.dropLast, isLast a = false) ∧
      ((∃ a ∈ as.getLast?, isLast a = true) ∨ step d = .ok none d) :=
  found_of_manyWithin hnone _ h

theorem found_of_many (hnone : ∀ c d, step c = .ok none d → d = c)
    (h : many step c = .ok as d) : Found step c as d ∧ step d = .ok none d := by
  obtain ⟨hfound, -, hend⟩ := found_of_manyUntil hnone h
  rcases hend with ⟨a, -, ha⟩ | hend
  · cases ha
  · exact ⟨hfound, hend⟩

end Outcome

theorem grown_of_growWithin {step : α → Parse (Option α)}
    (hnone : ∀ a c d, step a c = .ok none d → d = c) (rounds : List Token) {a b : α}
    {c d : Cursor} (h : growWithin step rounds a c = .ok b d) :
    Grown step a c b d ∧ step b d = .ok none d := by
  induction rounds generalizing a c with
  | nil => exact absurd h stuck_ne_ok
  | cons t rounds ih =>
      rw [growWithin, bind_eq_ok] at h
      obtain ⟨o, c', hstep, h⟩ := h
      cases o with
      | none =>
          obtain ⟨rfl, rfl⟩ := pure_eq_ok.1 h
          have hc := hnone _ _ _ hstep
          rw [hc] at hstep ⊢
          exact ⟨.refl _ _, hstep⟩
      | some a' =>
          obtain ⟨hgrown, hend⟩ := ih h
          exact ⟨.head hstep hgrown, hend⟩

/-- A value that has stopped growing has followed a chain to where it could not be
extended. -/
theorem grown_of_grow {step : α → Parse (Option α)}
    (hnone : ∀ a c d, step a c = .ok none d → d = c) {a b : α} {c d : Cursor}
    (h : grow step a c = .ok b d) : Grown step a c b d ∧ step b d = .ok none d :=
  grown_of_growWithin hnone _ h

/-! ## From the chain to the outcome

Every round of a repetition takes one of the tokens that are left, so that a chain of
steps is followed to its end if each step passes over a token. -/

theorem bind_of_ok {β : Type} {p : Parse α} {f : α → Parse β} {a : α} {c d : Cursor}
    (h : p c = .ok a d) : (p >>= f) c = f a d := by
  simp only [bind, h]

/-- From `c` to `d` the step finds the items `as`, and passes over a token for each. -/
inductive Collects (step : Parse (Option α)) : Cursor → List α → Cursor → Prop
  | nil (c : Cursor) : Collects step c [] c
  | cons {c d e : Cursor} {a : α} {as : List α} (h : step c = .ok (some a) d)
      (hless : d.following.length < c.following.length) (rest : Collects step d as e) :
      Collects step c (a :: as) e

/-- From `a` at `c` the step gets to `b` at `d`, and passes over a token each time. -/
inductive Climbs (step : α → Parse (Option α)) (a : α) (c : Cursor) : α → Cursor → Prop
  | refl : Climbs step a c a c
  | tail {b b' : α} {d d' : Cursor} (h : Climbs step a c b d) (hstep : step b d = .ok (some b') d')
      (hless : d'.following.length < d.following.length) : Climbs step a c b' d'

theorem manyWithin_of_collects {isLast : α → Bool} {step : Parse (Option α)} {c d : Cursor}
    {as : List α} (h : Collects step c as d) (hdrop : ∀ a ∈ as.dropLast, isLast a = false)
    (hend : (∃ a ∈ as.getLast?, isLast a = true) ∨
      (∀ a ∈ as, isLast a = false) ∧ step d = .ok none d)
    (rounds : List Token) (hrounds : c.following.length < rounds.length) :
    manyWithin isLast step rounds c = .ok as d := by
  induction h generalizing rounds with
  | nil c =>
      cases rounds with
      | nil => exact absurd hrounds (Nat.not_lt_zero _)
      | cons t rounds =>
          rcases hend with ⟨a, ha, -⟩ | ⟨-, hend⟩
          · cases ha
          · rw [manyWithin, bind_eq_ok]
            exact ⟨none, c, hend, rfl⟩
  | @cons c d e a as hstep hless rest ih =>
      cases rounds with
      | nil => exact absurd hrounds (Nat.not_lt_zero _)
      | cons t rounds =>
          rw [manyWithin, bind_eq_ok]
          refine ⟨some a, d, hstep, ?_⟩
          cases as with
          | nil =>
              cases rest
              rcases hend with ⟨a', ha', hlast⟩ | ⟨hnot, hend⟩
              · rw [List.getLast?_singleton] at ha'
                cases ha'
                simp [hlast]
              · have hrest := ih nofun (.inr ⟨nofun, hend⟩) rounds (by simp at hrounds; omega)
                simp only [hnot a List.mem_cons_self, Bool.false_eq_true, if_false, bind_eq_ok]
                exact ⟨[], d, hrest, rfl⟩
          | cons b bs =>
              rw [List.dropLast_cons_cons, List.forall_mem_cons] at hdrop
              have hrest := ih hdrop.2 ?_ rounds (by simp at hrounds; omega)
              · simp only [hdrop.1, Bool.false_eq_true, if_false, bind_eq_ok]
                exact ⟨b :: bs, e, hrest, rfl⟩
              · rcases hend with hend | ⟨hnot, hend⟩
                · rw [List.getLast?_cons_cons] at hend
                  exact .inl hend
                · exact .inr ⟨fun x hx => hnot x (List.mem_cons_of_mem a hx), hend⟩

/-- A chain that ends with a last item is followed to its end. -/
theorem manyUntil_of_last {isLast : α → Bool} {step : Parse (Option α)} {c d : Cursor}
    {as : List α} (h : Collects step c as d) (hdrop : ∀ a ∈ as.dropLast, isLast a = false)
    (hlast : ∃ a ∈ as.getLast?, isLast a = true) : manyUntil isLast step c = .ok as d :=
  manyWithin_of_collects h hdrop (.inl hlast) _ (Nat.lt_succ_self _)

/-- A chain without a last item is followed to where nothing is found. -/
theorem manyUntil_of_none {isLast : α → Bool} {step : Parse (Option α)} {c d : Cursor}
    {as : List α} (h : Collects step c as d) (hnot : ∀ a ∈ as, isLast a = false)
    (hend : step d = .ok none d) : manyUntil isLast step c = .ok as d :=
  manyWithin_of_collects h (fun a ha => hnot a (as.dropLast_sublist.subset ha)) (.inr ⟨hnot, hend⟩) _
    (Nat.lt_succ_self _)

/-- A chain on which only the end can be a last item is followed to its end, if nothing is
found there. -/
theorem manyUntil_of_collects {isLast : α → Bool} {step : Parse (Option α)} {c d : Cursor}
    {as : List α} (h : Collects step c as d) (hdrop : ∀ a ∈ as.dropLast, isLast a = false)
    (hend : step d = .ok none d) : manyUntil isLast step c = .ok as d := by
  by_cases hlast : ∃ a ∈ as.getLast?, isLast a = true
  · exact manyUntil_of_last h hdrop hlast
  · refine manyUntil_of_none h (fun a ha => ?_) hend
    obtain rfl | ⟨init, last, rfl⟩ := as.eq_nil_or_concat
    · cases ha
    · rw [List.concat_eq_append] at hdrop hlast ha
      rw [List.dropLast_concat] at hdrop
      rw [List.getLast?_concat] at hlast
      rw [List.mem_append, List.mem_singleton] at ha
      rcases ha with ha | rfl
      · exact hdrop a ha
      · exact Bool.eq_false_iff.2 fun h => hlast ⟨a, rfl, h⟩

theorem many_of_collects {step : Parse (Option α)} {c d : Cursor} {as : List α}
    (h : Collects step c as d) (hend : step d = .ok none d) : many step c = .ok as d :=
  manyUntil_of_none h (fun _ _ => rfl) hend

/-- A chain is followed with enough rounds left for what comes behind it. -/
theorem growWithin_of_climbs {step : α → Parse (Option α)} {a b : α} {c d : Cursor}
    (h : Climbs step a c b d) (rounds : List Token) (hrounds : c.following.length < rounds.length) :
    ∃ left : List Token, d.following.length < left.length ∧
      growWithin step rounds a c = growWithin step left b d := by
  induction h with
  | refl => exact ⟨rounds, hrounds, rfl⟩
  | @tail b b' d d' _ hstep hless ih =>
      obtain ⟨left, hleft, heq⟩ := ih
      cases left with
      | nil => exact absurd hleft (Nat.not_lt_zero _)
      | cons t left =>
          refine ⟨left, by simp only [List.length_cons] at hleft; omega, ?_⟩
          rw [heq, growWithin, bind_of_ok hstep]

theorem grow_of_climbs {step : α → Parse (Option α)} {a b : α} {c d : Cursor}
    (h : Climbs step a c b d) (hend : step b d = .ok none d) : grow step a c = .ok b d := by
  obtain ⟨left, hleft, heq⟩ := growWithin_of_climbs h (c.current :: c.following) (Nat.lt_succ_self _)
  rw [grow, heq]
  cases left with
  | nil => exact absurd hleft (Nat.not_lt_zero _)
  | cons t left =>
      rw [growWithin, bind_eq_ok]
      exact ⟨none, d, hend, rfl⟩

end LuaRestyle.Parse
