/-!
# Paths

A path leads from the root of a tree through object keys and array indices.
Its text writes a point between a key and what stands before it, and an index
in brackets: `spec.items[0].name`.
-/

namespace TreeCodec

/-- One step down into a container. -/
inductive Segment
  | key (k : String)
  | index (i : Nat)
  deriving DecidableEq

/-- The steps from the root, the first step first. -/
abbrev Path := List Segment

/-- The text of a path with one more segment. There is no point in front of a
key as long as the text is empty. -/
def Segment.appendTo (text : String) : Segment → String
  | .key k => if text = "" then k else text ++ "." ++ k
  | .index i => text ++ "[" ++ toString i ++ "]"

namespace Path

def render (p : Path) : String := p.foldl Segment.appendTo ""

@[simp] theorem render_nil : render [] = "" := rfl

theorem render_append (p : Path) (s : Segment) : render (p ++ [s]) = s.appendTo (render p) := by
  simp [render]

end Path

end TreeCodec
