import LuaRestyle.Proofs.Parse.Dealing

/-!
# Where names are written

Whatever the names are, a program is laid out in the same pieces but for the names of its
occurrences.  A slot is a place in the layout: a piece that is always the same, or an
occurrence that is written there.  `Slotted P` says that the pieces `P f`, as names are
spelled by `f`, fill a list of slots that does not depend on `f`.
-/

namespace LuaRestyle

inductive Slot where
  | fixed (p : Piece)
  | occurrence (source : Option TokenId) (x : Ident)

namespace Slot

def fill (f : Ident → String) : Slot → Piece
  | fixed p => p
  | occurrence source x => .name source (f x)

end Slot

namespace Layout

/-- The pieces fill the same slots under every spelling. -/
def Slotted (P : (Ident → String) → List Piece) : Prop :=
  ∃ slots : List Slot, ∀ f, P f = slots.map (Slot.fill f)

namespace Slotted

variable {P Q : (Ident → String) → List Piece}

theorem fixed (ps : List Piece) : Slotted fun _ => ps :=
  ⟨ps.map .fixed, fun f => by rw [List.map_map]; exact (List.map_id ps).symm⟩

theorem occurrence (source : Option TokenId) (x : Ident) :
    Slotted fun f => [.name source (f x)] :=
  ⟨[.occurrence source x], fun _ => rfl⟩

theorem append (hP : Slotted P) (hQ : Slotted Q) : Slotted fun f => P f ++ Q f := by
  obtain ⟨slots, hslots⟩ := hP
  obtain ⟨slots', hslots'⟩ := hQ
  refine ⟨slots ++ slots', fun f => ?_⟩
  simp only [hslots f, hslots' f, List.map_append]

theorem indented (hP : Slotted P) : Slotted fun f => indented (P f) :=
  (fixed [.indent]).append (hP.append (fixed [.dedent]))

end Slotted

end Layout

namespace Part

/-- However tokens are dealt to the template, its pieces fill the same slots under every
spelling. -/
structure Fills (P : (Ident → String) → List Part) : Prop where
  place : ∀ ids, Layout.Slotted fun f => place ids (P f)
  texts : ∀ f g, texts (P f) = texts (P g)

namespace Fills

variable {P Q : (Ident → String) → List Part}

theorem fixed (ps : List Part) : Fills fun _ => ps :=
  ⟨fun _ => .fixed _, fun _ _ => rfl⟩

theorem ident (x : Ident) : Fills fun f => [Layout.identPart f x] :=
  ⟨fun ids => .occurrence ids.head? x, fun _ _ => rfl⟩

theorem inner {P : (Ident → String) → List Piece} (h : Layout.Slotted P) :
    Fills fun f => [.inner (P f)] :=
  ⟨fun ids => by simpa [Part.place] using h, fun _ _ => rfl⟩

theorem append (hP : Fills P) (hQ : Fills Q) : Fills fun f => P f ++ Q f := by
  refine ⟨fun ids => ?_, fun f g => ?_⟩
  · have htexts : ∀ f, Part.texts (P f) = Part.texts (P (·.name)) := fun f => hP.texts f _
    simp only [place_append, htexts]
    exact (hP.place ids).append (hQ.place _)
  · rw [texts_append, texts_append, hP.texts f g, hQ.texts f g]

theorem cons (p : Part) (hP : Fills P) : Fills fun f => p :: P f := (fixed [p]).append hP

theorem commaSeparated {items : (Ident → String) → List (List Part)} (hP : Fills P)
    (hitems : Fills fun f => Part.commaSeparated (items f))
    (hlength : ∀ f g, (items f).isEmpty = (items g).isEmpty) :
    Fills fun f => Part.commaSeparated (P f :: items f) := by
  cases hempty : (items (·.name)).isEmpty with
  | true =>
      have hnil : ∀ f, items f = [] := fun f => List.isEmpty_iff.1 ((hlength f _).trans hempty)
      simpa only [hnil, Part.commaSeparated] using hP
  | false =>
      have hcons : ∀ f, Part.commaSeparated (P f :: items f) =
          P f ++ comma ++ Part.commaSeparated (items f) := by
        intro f
        cases hf : items f with
        | nil =>
            rw [hlength _ f, hf] at hempty
            cases hempty
        | cons item rest => rfl
      simp only [hcons]
      exact (hP.append (fixed comma)).append hitems

theorem idents (xs : List Ident) (more : List (List Part)) :
    Fills fun f => Part.commaSeparated (xs.map (fun x => [Layout.identPart f x]) ++ more) := by
  induction xs with
  | nil => exact fixed (Part.commaSeparated more)
  | cons x xs ih => exact commaSeparated (ident x) ih fun f g => by cases xs <;> rfl

end Fills

end Part

/-! ## Trees -/

namespace Layout

open LuaRestyle.Part (Fills)

theorem isEmpty_exprs (es : List Expr) (f g : Ident → String) :
    (exprs f es).isEmpty = (exprs g es).isEmpty := by
  cases es <;> simp [exprs]

theorem isEmpty_fields (fs : List Field) (f g : Ident → String) :
    (fields f fs).isEmpty = (fields g fs).isEmpty := by
  cases fs with
  | nil => rfl
  | cons fd fs => cases fd <;> simp [fields]

theorem fills_idents (xs : List Ident) : Fills fun f => identParts f xs := by
  simpa only [identParts, List.append_nil] using Fills.idents xs []

mutual

theorem slotted_expr : (e : Expr) → Slotted fun f => expr f e
  | ⟨.nil, _⟩ | ⟨.true, _⟩ | ⟨.false, _⟩ | ⟨.vararg _, _⟩ | ⟨.number _, _⟩ | ⟨.string _, _⟩ => by
      simp only [expr]
      exact .fixed _
  | ⟨.name x, o⟩ => by
      simp only [expr]
      exact (Fills.ident x).place o.tokens
  | ⟨.function body, o⟩ => by
      simp only [expr]
      exact (Fills.cons _ (.inner (slotted_function body))).place o.tokens
  | ⟨.table t, o⟩ => by
      simp only [expr]
      exact (Fills.inner (slotted_table t)).place o.tokens
  | ⟨.index base key, o⟩ => by
      simp only [expr]
      exact ((Fills.inner (slotted_expr base)).append (.cons _
        ((Fills.inner (slotted_expr key)).append (.fixed _)))).place o.tokens
  | ⟨.member base name, o⟩ => by
      simp only [expr]
      exact ((Fills.inner (slotted_expr base)).append (.fixed _)).place o.tokens
  | ⟨.call callee method as, o⟩ => by
      simp only [expr]
      exact ((Fills.inner (slotted_expr callee)).append
        ((Fills.fixed _).append (fills_args as))).place o.tokens
  | ⟨.paren inner, o⟩ => by
      simp only [expr]
      exact (Fills.cons _ ((Fills.inner (slotted_expr inner)).append (.fixed _))).place o.tokens
  | ⟨.binary op lhs rhs, o⟩ => by
      simp only [expr]
      exact ((Fills.inner (slotted_expr lhs)).append
        ((Fills.fixed (Part.spaced op.text)).append (.inner (slotted_expr rhs)))).place o.tokens
  | ⟨.unary op operand, o⟩ => by
      simp only [expr]
      exact (Fills.cons _ ((Fills.fixed _).append (.inner (slotted_expr operand)))).place o.tokens

theorem fills_exprs : (es : List Expr) → Fills fun f => Part.commaSeparated (exprs f es)
  | [] => by
      simp only [exprs]
      exact .fixed _
  | e :: es => by
      simp only [exprs]
      exact .commaSeparated (.inner (slotted_expr e)) (fills_exprs es) (isEmpty_exprs es)

theorem fills_args : (as : Args) → Fills fun f => args f as
  | .list es => by
      simp only [args]
      exact .cons _ ((fills_exprs es).append (.fixed _))
  | .string text => by
      simp only [args]
      exact .fixed _
  | .table t => by
      simp only [args]
      exact .inner (slotted_table t)

theorem slotted_table : (t : Table) → Slotted fun f => table f t
  | ⟨fs, trailing, tokens⟩ => by
      simp only [table]
      exact (Fills.cons _ (((fills_fields fs).append (.fixed _)).append (.fixed _))).place tokens

theorem fills_fields : (fs : List Field) → Fills fun f => Part.commaSeparated (fields f fs)
  | [] => by
      simp only [fields]
      exact .fixed _
  | .positional value :: fs => by
      simp only [fields]
      exact .commaSeparated (.inner (slotted_expr value)) (fills_fields fs) (isEmpty_fields fs)
  | .named name value :: fs => by
      simp only [fields]
      exact .commaSeparated (.cons _ ((Fills.fixed _).append (.inner (slotted_expr value))))
        (fills_fields fs) (isEmpty_fields fs)
  | .keyed key value :: fs => by
      simp only [fields]
      exact .commaSeparated (((Fills.cons _ ((Fills.inner (slotted_expr key)).append
        (.fixed _))).append (.fixed _)).append (.inner (slotted_expr value)))
        (fills_fields fs) (isEmpty_fields fs)

theorem slotted_function : (b : FunctionBody) → Slotted fun f => function f b
  | ⟨_, params, vararg, body, tokens⟩ => by
      simp only [function]
      exact (Fills.cons _ (((Fills.idents params _).append (.cons _
        (.inner (slotted_lines body).indented))).append (.fixed _))).place tokens

theorem slotted_stat : (s : Stat) → Slotted fun f => stat f s
  | ⟨.assign targets values, o, _⟩ => by
      simp only [stat]
      exact (((fills_exprs targets).append (.fixed (Part.spaced "="))).append
        (fills_exprs values)).place o.tokens
  | ⟨.localNames names values, o, _⟩ => by
      have hvalues : Fills fun f => if values.isEmpty then []
          else Part.spaced "=" ++ Part.commaSeparated (exprs f values) := by
        cases values.isEmpty with
        | true => exact .fixed _
        | false => exact (Fills.fixed (Part.spaced "=")).append (fills_exprs values)
      simp only [stat]
      exact (((Fills.fixed _).append (fills_idents names)).append hvalues).place o.tokens
  | ⟨.function base names method body, o, _⟩ => by
      simp only [stat]
      exact (((((Fills.cons _ (.cons _ (.ident base))).append
        (.fixed (names.flatMap (behindMark "."))))).append
        (.fixed ((method.map (behindMark ":")).getD []))).append
        (.inner (slotted_function body))).place o.tokens
  | ⟨.localFunction x body, o, _⟩ => by
      simp only [stat]
      exact (Fills.cons _ (.cons _ (.cons _ (.cons _ ((Fills.ident x).append
        (.inner (slotted_function body))))))).place o.tokens
  | ⟨.ifThen cs none, o, _⟩ => by
      simp only [stat]
      exact ((fills_clauses _ cs).append (.fixed (Part.closer "end"))).place o.tokens
  | ⟨.ifThen cs (some body), o, _⟩ => by
      simp only [stat]
      exact ((((fills_clauses _ cs).append (.fixed (Part.closer "else"))).append
        (.inner (slotted_lines body).indented)).append (.fixed (Part.closer "end"))).place o.tokens
  | ⟨.whileDo cond body, o, _⟩ => by
      simp only [stat]
      exact ((Fills.cons _ (.cons _ ((Fills.inner (slotted_expr cond)).append (.cons _ (.cons _
        (.inner (slotted_lines body).indented)))))).append (.fixed (Part.closer "end"))).place o.tokens
  | ⟨.repeatUntil body cond, o, _⟩ => by
      simp only [stat]
      exact (((Fills.cons _ (.inner (slotted_lines body).indented)).append
        (.fixed (Part.closer "until"))).append (.cons _ (.inner (slotted_expr cond)))).place o.tokens
  | ⟨.numericFor x start stop none body, o, _⟩ => by
      simp only [stat]
      exact ((((((Fills.cons _ (.cons _ (.ident x))).append (.fixed (Part.spaced "="))).append
        (.inner (slotted_expr start))).append (.fixed Part.comma)).append
        ((Fills.inner (slotted_expr stop)).append (.cons _ (.cons _
          (.inner (slotted_lines body).indented))))).append (.fixed (Part.closer "end"))).place o.tokens
  | ⟨.numericFor x start stop (some step) body, o, _⟩ => by
      simp only [stat]
      exact ((((((((Fills.cons _ (.cons _ (.ident x))).append (.fixed (Part.spaced "="))).append
        (.inner (slotted_expr start))).append (.fixed Part.comma)).append
        (.inner (slotted_expr stop))).append (.fixed Part.comma)).append
        ((Fills.inner (slotted_expr step)).append (.cons _ (.cons _
          (.inner (slotted_lines body).indented))))).append (.fixed (Part.closer "end"))).place o.tokens
  | ⟨.genericFor xs es body, o, _⟩ => by
      simp only [stat]
      exact ((((((Fills.fixed _).append (fills_idents xs)).append (.fixed (Part.spaced "in"))).append
        (fills_exprs es)).append (.cons _ (.cons _ (.inner (slotted_lines body).indented)))).append
        (.fixed (Part.closer "end"))).place o.tokens
  | ⟨.block body, o, _⟩ => by
      simp only [stat]
      exact ((Fills.cons _ (.inner (slotted_lines body).indented)).append
        (.fixed (Part.closer "end"))).place o.tokens
  | ⟨.return values, o, _⟩ => by
      have hvalues : Fills fun f => if values.isEmpty then []
          else Part.space :: Part.commaSeparated (exprs f values) := by
        cases values.isEmpty with
        | true => exact .fixed _
        | false => exact .cons _ (fills_exprs values)
      simp only [stat]
      exact (Fills.cons _ hvalues).place o.tokens
  | ⟨.break, o, _⟩ | ⟨.empty, o, _⟩ => by
      simp only [stat]
      exact .fixed _
  | ⟨.call e, o, _⟩ => by
      simp only [stat]
      exact (Fills.inner (slotted_expr e)).place o.tokens

theorem fills_clauses (opening : List Part) : (cs : List Clause) →
    Fills fun f => clauses f opening cs
  | [] => by
      simp only [clauses]
      exact .fixed _
  | ⟨cond, body⟩ :: cs => by
      simp only [clauses]
      exact (((Fills.fixed _).append (.cons _ ((Fills.inner (slotted_expr cond)).append
        (.cons _ (.cons _ (.inner (slotted_lines body).indented)))))).append
        (fills_clauses _ cs))

theorem slotted_lines : (ss : List Stat) → Slotted fun f => lines f ss
  | [] => by
      simp only [lines]
      exact .fixed _
  | s :: ss => by
      simp only [lines]
      exact ((((Slotted.fixed _).append (slotted_stat s)).append (.fixed _)).append
        (slotted_lines ss))

end

theorem slotted_statements (first : Bool) (ss : List Stat) :
    Slotted fun f => statements f first ss := by
  induction ss generalizing first with
  | nil => exact .fixed _
  | cons s ss ih =>
      simp only [statements]
      cases s.isEmpty with
      | true => exact ((slotted_stat s).append (.fixed _)).append (ih first)
      | false => exact (((Slotted.fixed _).append (slotted_stat s)).append (.fixed _)).append (ih false)

/-- A program is laid out in the same slots under every spelling. -/
theorem slotted_pieces (chunk : Chunk) : Slotted fun f => pieces f chunk :=
  slotted_statements true chunk.body

end Layout

end LuaRestyle
