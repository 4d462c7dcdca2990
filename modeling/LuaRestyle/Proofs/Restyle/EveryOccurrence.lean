import LuaRestyle.Proofs.Restyle.FaithfulNames
import LuaRestyle.Proofs.Scope.References

/-!
# Every occurrence is bound once

The occurrences of a parsed program are numbered without gaps, and each of them denotes one
variable, whose name is what the source shows there.  What the source shows is said by its
tokens: `Chunk.Shows i x` if the name of the occurrence `x` is written for the token `i`.  An
occurrence that no token shows is a mark of further arguments or the `self` of a method.
-/

namespace LuaRestyle

/-- The occurrence is a mark of further arguments or the `self` of a method. -/
def Ident.IsImplied (x : Ident) : Prop :=
  x = Occurrences.dots x.id ∨ x = Occurrences.self x.id

namespace Layout

variable {f : Ident → String}

/-- The occurrences `xs` are written among the names `ns`, but for those that are implied. -/
def Covers (f : Ident → String) (xs : List Ident) (ns : List String) : Prop :=
  ∀ x ∈ xs, x.IsImplied ∨ f x ∈ ns

namespace Covers

variable {xs ys : List Ident} {ns ms : List String}

theorem nil (ns : List String) : Covers f [] ns := List.forall_mem_nil _

theorem append (h : Covers f xs ns) (h' : Covers f ys ms) : Covers f (xs ++ ys) (ns ++ ms) := by
  intro x hx
  rcases List.mem_append.1 hx with hx | hx
  · exact (h x hx).imp_right (List.mem_append_left ms)
  · exact (h' x hx).imp_right (List.mem_append_right ns)

theorem idents (xs : List Ident) : Covers f xs (xs.map f) :=
  fun _ hx => .inr (List.mem_map_of_mem hx)

theorem cons (x : Ident) (h : Covers f xs ns) : Covers f (x :: xs) (f x :: ns) :=
  (idents [x]).append h

theorem dots (vararg : Option NameId) : Covers f (vararg.map Occurrences.dots).toList [] := by
  intro x hx
  obtain ⟨id, -, rfl⟩ := Option.map_eq_some_iff.1 (Option.mem_toList.1 hx)
  exact .inl (.inl rfl)

theorem self (selfId : Option NameId) : Covers f (selfId.map Occurrences.self).toList [] := by
  intro x hx
  obtain ⟨id, -, rfl⟩ := Option.map_eq_some_iff.1 (Option.mem_toList.1 hx)
  exact .inl (.inr rfl)

end Covers

mutual

theorem covers_expr : (e : Expr) → Covers f (Occurrences.expr e) (names (expr f e))
  | ⟨.nil, _⟩ | ⟨.true, _⟩ | ⟨.false, _⟩ | ⟨.number _, _⟩ | ⟨.string _, _⟩ => .nil _
  | ⟨.vararg id, _⟩ => by
      simpa [Occurrences.expr, expr, Part.names] using Covers.dots (f := f) (some id)
  | ⟨.name x, _⟩ => by
      simpa [Occurrences.expr, expr, Part.names, identPart] using Covers.idents (f := f) [x]
  | ⟨.function body, _⟩ => by
      simpa [Occurrences.expr, expr, Part.names] using covers_function body
  | ⟨.table t, _⟩ => by
      simpa [Occurrences.expr, expr, Part.names] using covers_table t
  | ⟨.index base key, _⟩ => by
      simpa [Occurrences.expr, expr, Part.names] using
        (covers_expr base).append (covers_expr key)
  | ⟨.member base name, _⟩ => by
      simpa [Occurrences.expr, expr, Part.names, behindMark] using
        (covers_expr base).append (.nil [name])
  | ⟨.call callee method as, _⟩ => by
      simpa [Occurrences.expr, expr, Part.names] using
        (covers_expr callee).append ((Covers.nil method.toList).append (covers_args as))
  | ⟨.paren inner, _⟩ => by
      simpa [Occurrences.expr, expr, Part.names] using covers_expr inner
  | ⟨.binary _ lhs rhs, _⟩ => by
      simpa [Occurrences.expr, expr, Part.names] using (covers_expr lhs).append (covers_expr rhs)
  | ⟨.unary op operand, _⟩ => by
      have hspace : Part.names (if op = .not then [.space] else []) = [] := by split <;> rfl
      simpa [Occurrences.expr, expr, Part.names, hspace] using covers_expr operand

theorem covers_exprs :
    (es : List Expr) → Covers f (Occurrences.exprs es) ((exprs f es).flatMap Part.names)
  | [] => .nil _
  | e :: es => by
      simpa [Occurrences.exprs, exprs, Part.names] using (covers_expr e).append (covers_exprs es)

theorem covers_args : (as : Args) → Covers f (Occurrences.args as) (Part.names (args f as))
  | .list es => by simpa [Occurrences.args, args, Part.names] using covers_exprs es
  | .string _ => .nil _
  | .table t => by simpa [Occurrences.args, args, Part.names] using covers_table t

theorem covers_table : (t : Table) → Covers f (Occurrences.table t) (names (table f t))
  | ⟨fs, trailing, _⟩ => by
      have htrailing : Part.names (if trailing then [.kept ","] else []) = [] := by split <;> rfl
      simpa [Occurrences.table, table, Part.names, htrailing] using covers_fields fs

theorem covers_fields :
    (fs : List Field) → Covers f (Occurrences.fields fs) ((fields f fs).flatMap Part.names)
  | [] => .nil _
  | .positional value :: fs => by
      simpa [Occurrences.fields, fields, Part.names] using
        (covers_expr value).append (covers_fields fs)
  | .named name value :: fs => by
      simpa [Occurrences.fields, fields, Part.names] using
        (Covers.nil [name]).append ((covers_expr value).append (covers_fields fs))
  | .keyed key value :: fs => by
      simpa [Occurrences.fields, fields, Part.names] using
        (covers_expr key).append ((covers_expr value).append (covers_fields fs))

theorem covers_function :
    (b : FunctionBody) → Covers f (Occurrences.function b) (names (function f b))
  | ⟨selfId, params, vararg, body, _⟩ => by
      simpa [Occurrences.function, function, Part.names] using
        ((Covers.idents params).append (.dots vararg)).append
          ((covers_lines body).append (.self selfId))

theorem covers_stat : (s : Stat) → Covers f (Occurrences.stat s) (names (stat f s))
  | ⟨.assign targets values, _, _⟩ => by
      simpa [Occurrences.stat, stat] using (covers_exprs targets).append (covers_exprs values)
  | ⟨.localNames xs values, _, _⟩ => by
      simpa [Occurrences.stat, stat, Part.names] using
        (Covers.idents xs).append (covers_exprs values)
  | ⟨.function base ks method body, _, _⟩ => by
      simpa [Occurrences.stat, stat, Part.names, identPart] using
        Covers.cons base ((Covers.nil ks).append
          ((Covers.nil method.toList).append (covers_function body)))
  | ⟨.localFunction x body, _, _⟩ => by
      simpa [Occurrences.stat, stat, Part.names, identPart] using
        Covers.cons x (covers_function body)
  | ⟨.ifThen cs none, _, _⟩ => by
      have hopening : Part.names [.token "if"] = [] := rfl
      simpa [Occurrences.stat, stat] using covers_clauses hopening cs
  | ⟨.ifThen cs (some body), _, _⟩ => by
      have hopening : Part.names [.token "if"] = [] := rfl
      simpa [Occurrences.stat, stat, Part.names] using
        (covers_clauses hopening cs).append (covers_lines body)
  | ⟨.whileDo cond body, _, _⟩ => by
      simpa [Occurrences.stat, stat, Part.names] using
        (covers_expr cond).append (covers_lines body)
  | ⟨.repeatUntil body cond, _, _⟩ => by
      simpa [Occurrences.stat, stat, Part.names] using
        (covers_lines body).append (covers_expr cond)
  | ⟨.numericFor x start stop none body, _, _⟩ => by
      simpa [Occurrences.stat, stat, Part.names, identPart] using
        Covers.cons x ((covers_expr start).append ((covers_expr stop).append (covers_lines body)))
  | ⟨.numericFor x start stop (some step) body, _, _⟩ => by
      simpa [Occurrences.stat, stat, Part.names, identPart] using
        Covers.cons x ((covers_expr start).append ((covers_expr stop).append
          ((covers_expr step).append (covers_lines body))))
  | ⟨.genericFor xs es body, _, _⟩ => by
      simpa [Occurrences.stat, stat, Part.names] using
        (Covers.idents xs).append ((covers_exprs es).append (covers_lines body))
  | ⟨.block body, _, _⟩ => by
      simpa [Occurrences.stat, stat, Part.names] using covers_lines body
  | ⟨.return values, _, _⟩ => by
      simpa [Occurrences.stat, stat, Part.names] using covers_exprs values
  | ⟨.break, _, _⟩ | ⟨.empty, _, _⟩ => .nil _
  | ⟨.call e, _, _⟩ => by simpa [Occurrences.stat, stat, Part.names] using covers_expr e

theorem covers_lines :
    (ss : List Stat) → Covers f (Occurrences.stats ss) (names (lines f ss))
  | [] => .nil _
  | s :: ss => by
      have hline : names (if s.isEmpty then [] else [.line]) = [] := by split <;> rfl
      simpa [Occurrences.stats, lines, hline] using (covers_stat s).append (covers_lines ss)

theorem covers_clauses {opening : List Part} (hopening : Part.names opening = []) :
    (cs : List Clause) →
      Covers f (Occurrences.clauses cs) (Part.names (clauses f opening cs))
  | [] => .nil _
  | ⟨cond, body⟩ :: cs => by
      simpa [Occurrences.clauses, clauses, Part.names, hopening] using
        ((covers_expr cond).append (covers_lines body)).append
          (covers_clauses (Part.names_closer _) cs)

end

theorem Spells.exists_source {i : TokenId} {ts : List Token} {ps : List Piece}
    (h : Spells i ts ps) {source : Option TokenId} {text : String}
    (hname : .name source text ∈ ps) : ∃ j, source = some j := by
  induction h with
  | nil => cases hname
  | @text i t ts p ps hp _ ih =>
      rcases List.mem_cons.1 hname with rfl | hname
      · cases hp with
        | name => exact ⟨i, rfl⟩
      · exact ih hname
  | layout hp _ ih =>
      rcases List.mem_cons.1 hname with rfl | hname
      · cases hp
      · exact ih hname

end Layout

/-- An occurrence that no token shows is implied. -/
theorem Chunk.isImplied_of_not_shows {chunk : Chunk} {ts : List Token}
    (hspells : Layout.Spells 0 ts (Layout.pieces (·.name) chunk)) {x : Ident}
    (hx : x ∈ Occurrences.stats chunk.body) (hnot : ∀ i, ¬chunk.Shows i x) : x.IsImplied := by
  obtain ⟨slots, hslots⟩ := Layout.slotted_pieces chunk
  simp only at hslots
  have hslot : ∀ source, .occurrence source x ∉ slots := by
    intro source hmem
    have hname : .name source x.name ∈ Layout.pieces (·.name) chunk := by
      rw [hslots]
      exact List.mem_map_of_mem hmem
    obtain ⟨i, rfl⟩ := hspells.exists_source hname
    refine hnot i fun spell => ?_
    rw [hslots]
    exact List.mem_map_of_mem hmem
  -- Its name could be any name at all without a change in the pieces.
  let ns := Layout.names (Layout.pieces (·.name) chunk)
  let f : Ident → String := fun y => if y = x then Naming.avoid ns x.name else y.name
  have hsame : Layout.pieces f chunk = Layout.pieces (·.name) chunk := by
    rw [hslots, hslots]
    refine List.map_congr_left fun slot hmem => ?_
    cases slot with
    | fixed p => rfl
    | occurrence source y =>
        have hne : y ≠ x := fun heq => hslot source (heq ▸ hmem)
        simp only [Slot.fill, f, if_neg hne]
  have hcovers : Layout.Covers f (Occurrences.stats chunk.body)
      (Layout.names (Layout.pieces f chunk)) := by
    rw [Layout.pieces, Layout.names_statements]
    exact Layout.covers_lines chunk.body
  rw [hsame] at hcovers
  refine (hcovers x hx).resolve_right fun hmem => ?_
  simp only [f, if_pos rfl] at hmem
  exact Naming.avoid_notMem ns x.name hmem

/-- The occurrences of a parsed program are numbered from zero on.  Taken together, the
references of its variables are these numbers, each once, and a variable lists exactly the
occurrences that are bound to it.  Every occurrence is bound to a variable whose name is the
text of each token that shows the occurrence, or `...` or `self` if none does.  Under the naming
that keeps these names, the program is therefore written as it is. -/
theorem parse_binds_every_occurrence {tokens : List Token} {chunk : Chunk}
    (h : parse tokens = .ok chunk) :
    (Occurrences.stats chunk.body).map (·.id) = List.range chunk.nameCount ∧
      (resolve chunk).references.Perm (List.range chunk.nameCount) ∧
      (∀ id v, (resolve chunk).binding id = some v ↔ (resolve chunk).Refers v id) ∧
      (∀ x ∈ Occurrences.stats chunk.body, ∃ (v : VarId) (y : Variable),
        (resolve chunk).binding x.id = some v ∧ (resolve chunk).vars[v]? = some y ∧
          y.name = x.name ∧
          (∀ i, chunk.Shows i x →
            ∃ t : Token, tokens[i]? = some t ∧ t.kind = .ident ∧ t.text = y.name) ∧
          ((∀ i, ¬chunk.Shows i x) →
            x = Occurrences.dots x.id ∧ y.name = "..." ∨
              x = Occurrences.self x.id ∧ y.name = "self")) ∧
      ∀ style, chunk.printUnder (resolve chunk) (Naming.source (resolve chunk)) style =
        chunk.print style := by
  obtain ⟨-, -, hspells, hids⟩ := parse_source h
  have hreferences : (resolve chunk).references.Perm (List.range chunk.nameCount) :=
    hids ▸ references_resolve chunk
  have htraced : (resolve chunk).Traced := by
    rw [resolve_eq_run]
    exact (whole_resolve chunk).traced
  have hnodup : (resolve chunk).references.Nodup := hreferences.nodup_iff.2 List.nodup_range
  refine ⟨hids, hreferences, htraced.binding_eq_some_iff hnodup, ?_, printUnder_source h⟩
  intro x hx
  obtain ⟨v, y, hv, hy, hname⟩ := exists_binding_resolve h hx
  refine ⟨v, y, hv, hy, hname, fun i hi => ?_, fun hnot => ?_⟩
  · obtain ⟨k, t, rfl, ht, hkind, htext⟩ := hspells.name_mem (hi (·.name))
    refine ⟨t, ?_, hkind, htext.trans hname.symm⟩
    obtain ⟨behind, hbehind⟩ : tokens.takeWhile (·.kind ≠ .eof) <+: tokens :=
      List.takeWhile_prefix _
    rw [Nat.zero_add, ← hbehind, List.getElem?_append_left (List.getElem?_eq_some_iff.1 ht).1, ht]
  · rcases Chunk.isImplied_of_not_shows hspells hx hnot with heq | heq
    · exact .inl ⟨heq, hname.trans (congrArg Ident.name heq)⟩
    · exact .inr ⟨heq, hname.trans (congrArg Ident.name heq)⟩

theorem parse_binds_every_occurrence_method :
    ∃ tokens chunk, tokenize "function t:m(...) self.n = x; return ... end" = .ok tokens ∧
      parse tokens = .ok chunk ∧
      (resolve chunk).references.Perm (List.range chunk.nameCount) ∧
      ∀ style, chunk.printUnder (resolve chunk) (Naming.source (resolve chunk)) style =
        chunk.print style := by
  obtain ⟨chunk, hchunk⟩ := exists_eq_ok
    (r := readProgram "function t:m(...) self.n = x; return ... end") (by decide +kernel)
  obtain ⟨tokens, htokens, hparse⟩ := readProgram_eq_ok hchunk
  obtain ⟨-, hreferences, -, -, hprint⟩ := parse_binds_every_occurrence hparse
  exact ⟨tokens, chunk, htokens, hparse, hreferences, hprint⟩

end LuaRestyle
