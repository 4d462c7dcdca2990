import LuaRestyle.Proofs.Tree.Node

/-!
# Nodes and what encloses them

Whether a line break in front of a parenthesis counts depends on where an expression stands: in
brackets no statement can begin.  A `Site` is a node together with that.  Brackets count as far as
the innermost function around the node, because the body of a function is made of statements
again.

The sites of a tree are its nodes, each with what encloses it (`Site.exists_below_iff`).
-/

namespace LuaRestyle

/-- A node, whether it lies in brackets within the innermost function around it, and whether it is
what a field, a key or arguments are attached to. -/
structure Site where
  node : Node
  bracketed : Bool
  extended : Bool

namespace Site

/-- The nodes directly below a node, with what encloses them.  Parentheses, the key of an index,
arguments and the fields of a table are bracketed, and operands if their operator is; a function
begins anew, and so does whatever is part of a statement. -/
def children (s : Site) : List Site :=
  match s.node with
  | .expr e =>
      match e.form with
      | .function body => [⟨.block body.body, false, false⟩]
      | .table t => (t.fields.flatMap Field.nodes).map (⟨·, true, false⟩)
      | .index base key => [⟨.expr base, s.bracketed, true⟩, ⟨.expr key, true, false⟩]
      | .member base _ => [⟨.expr base, s.bracketed, true⟩]
      | .call callee _ as =>
          ⟨.expr callee, s.bracketed, true⟩ :: as.nodes.map (⟨·, true, false⟩)
      | .paren inner => [⟨.expr inner, true, false⟩]
      | .binary _ lhs rhs =>
          [⟨.expr lhs, s.bracketed, false⟩, ⟨.expr rhs, s.bracketed, false⟩]
      | .unary _ operand => [⟨.expr operand, s.bracketed, false⟩]
      | _ => []
  | .stat st => (Node.stat st).children.map (⟨·, false, false⟩)
  | .block b => (Node.block b).children.map (⟨·, false, false⟩)

inductive Below : Site → Site → Prop
  | refl (s : Site) : Below s s
  | child {s u v : Site} (hu : u ∈ s.children) (h : Below u v) : Below s v

def All (P : Site → Prop) (s : Site) : Prop := ∀ u, s.Below u → P u

abbrev Each (P : Site → Prop) (bracketed : Bool) (ns : List Node) : Prop :=
  ∀ n ∈ ns, (Site.mk n bracketed false).All P

def takesSuffix (s : Site) : Bool :=
  match s.node with
  | .expr e => e.takesSuffix
  | _ => false

/-- The site at the end of a path, which says at each site on the way which child to go on with. -/
def at? (s : Site) : List Nat → Option Site
  | [] => some s
  | i :: path => s.children[i]?.bind (·.at? path)

variable {P : Site → Prop} {s : Site}

theorem below_of_at? {path : List Nat} {u : Site} (h : s.at? path = some u) : s.Below u := by
  induction path generalizing s with
  | nil =>
      obtain rfl := Option.some.inj h
      exact .refl s
  | cons i path ih =>
      obtain ⟨v, hv, h⟩ := Option.bind_eq_some_iff.1 h
      exact .child (List.mem_of_getElem? hv) (ih h)

theorem All.intro (h : P s) (hchildren : ∀ u ∈ s.children, u.All P) : s.All P := by
  intro v hv
  cases hv with
  | refl => exact h
  | child hu hv => exact hchildren _ hu v hv

theorem map_node_children (s : Site) : s.children.map (·.node) = s.node.children := by
  obtain ⟨node, bracketed, extended⟩ := s
  have hnodes : ∀ (b : Bool) (ns : List Node),
      (ns.map fun n => Site.mk n b false).map (·.node) = ns := by
    intro b ns
    rw [List.map_map]
    exact List.map_id ns
  cases node with
  | stat st => exact hnodes _ _
  | block b => exact hnodes _ _
  | expr e =>
      obtain ⟨form, o⟩ := e
      cases form with
      | table t => exact hnodes _ _
      | call callee method as => exact congrArg (Node.expr callee :: ·) (hnodes true as.nodes)
      | _ => rfl

/-- Every node below a node has its site, and nothing else does. -/
theorem exists_below_iff {n : Node} : (∃ u, s.Below u ∧ u.node = n) ↔ s.node.Below n := by
  constructor
  · rintro ⟨u, hu, rfl⟩
    induction hu with
    | refl s => exact .refl _
    | @child s u v hu _ ih =>
        refine .child ?_ ih
        rw [← map_node_children]
        exact List.mem_map_of_mem hu
  · intro h
    generalize hm : s.node = m at h
    induction h generalizing s with
    | refl m => exact ⟨s, .refl s, hm⟩
    | @child m k n hk _ ih =>
        rw [← hm, ← map_node_children] at hk
        obtain ⟨u, hu, hnode⟩ := List.mem_map.1 hk
        obtain ⟨v, hv, hn⟩ := ih hnode
        exact ⟨v, .child hu hv, hn⟩

end Site

def Chunk.root (chunk : Chunk) : Site := ⟨.block chunk.body, false, false⟩

end LuaRestyle
