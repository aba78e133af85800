import TreeCodec.Path
import TreeCodec.Tree.Object

/-!
# Places in a tree

A path names at most one node of a tree. `Tree.get?` finds the node, and
`Tree.replaceAt?` puts another one in its place. Both answer `none` for a path
that leads nowhere.
-/

namespace TreeCodec.Tree

/-- The child that a segment leads to. -/
def child? : Tree → Segment → Option Tree
  | .object o, .key k => Object.find? o k
  | .array items, .index i => items[i]?
  | _, _ => none

/-- The tree with another child where a segment leads to. -/
def setChild (t : Tree) (s : Segment) (c : Tree) : Tree :=
  match t, s with
  | .object o, .key k => .object (Object.insert k c o)
  | .array items, .index i => .array (items.set i c)
  | t, _ => t

/-- The node at the end of a path. -/
def get? (t : Tree) : Path → Option Tree
  | [] => some t
  | s :: p =>
    match t.child? s with
    | some c => c.get? p
    | none => none

/-- The tree with another node at the end of a path. -/
def replaceAt? (t : Tree) (new : Tree) : Path → Option Tree
  | [] => some new
  | s :: p =>
    match t.child? s with
    | some c => (c.replaceAt? new p).map (t.setChild s)
    | none => none

end TreeCodec.Tree
