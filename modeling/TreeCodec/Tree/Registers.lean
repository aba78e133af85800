import TreeCodec.Tree.Place

/-!
# Two registers of trees

A tree and a copy of it, edited independently: each step works on one of two
registers, and what it does to one never shows in the other.

* `Registers.step` carries one step out and says what came of it;
* `Registers.run` carries out several and keeps the registers after each.
-/

namespace TreeCodec

structure Registers where
  first : Tree
  second : Tree

/-- The register that a step works on. -/
inductive Register
  | first
  | second

namespace Registers

/-- Where a new tree goes, relative to the node at the path: under a key of an
object, behind the items of an array, or in place of the node. A placement that
does not fit the node replaces it. -/
structure Placement where
  underKey? : Option String
  push : Bool

inductive Step
  /-- The second register becomes the first one's tree. -/
  | copy
  /-- As `copy`, if the first register holds an object. -/
  | copyObject
  | swap
  /-- The node at the path becomes null. -/
  | take (r : Register) (path : Path)
  | put (r : Register) (path : Path) (where_ : Placement) (new : Tree)
  | read (r : Register) (path : Path)

/-- What came of a step. -/
inductive Outcome
  | done
  | notAnObject
  | noSuchPath
  /-- The node that was taken out. -/
  | taken (node : Tree)
  | found (node : Tree)

def get (rs : Registers) : Register → Tree
  | .first => rs.first
  | .second => rs.second

def set (rs : Registers) (r : Register) (t : Tree) : Registers :=
  match r with
  | .first => { rs with first := t }
  | .second => { rs with second := t }

/-- The node with a new tree placed in it. -/
def Placement.apply (place : Placement) (new : Tree) (node : Tree) : Tree :=
  match place.underKey?, node with
  | some key, .object o => .object (Object.insert key new o)
  | _, .array items => if place.push then .array (items ++ [new]) else new
  | _, _ => new

/-- Replaces the node at a path, and answers with what the node was. -/
def edit (rs : Registers) (r : Register) (path : Path) (change : Tree → Tree)
    (outcome : Tree → Outcome) : Outcome × Registers :=
  match (rs.get r).get? path with
  | none => (.noSuchPath, rs)
  | some node =>
    match (rs.get r).replaceAt? (change node) path with
    | none => (.noSuchPath, rs)
    | some t => (outcome node, rs.set r t)

def step (rs : Registers) : Step → Outcome × Registers
  | .copy => (.done, { rs with second := rs.first })
  | .copyObject =>
    match rs.first with
    | .object o => (.done, { rs with second := .object o })
    | _ => (.notAnObject, rs)
  | .swap => (.done, ⟨rs.second, rs.first⟩)
  | .take r path => rs.edit r path (fun _ => .null) .taken
  | .put r path place new => rs.edit r path (place.apply new) fun _ => .done
  | .read r path =>
    match (rs.get r).get? path with
    | some node => (.found node, rs)
    | none => (.noSuchPath, rs)

/-- Each step's outcome, with the registers after it. -/
def run (rs : Registers) : List Step → List (Outcome × Registers)
  | [] => []
  | s :: rest =>
    let next := rs.step s
    next :: run next.2 rest

end Registers

end TreeCodec
