import TreeCodec.Path
import TreeCodec.Tree.Object

/-!
# Unknown keys

A strict conversion notes which keys of the source no field consumed. Records are
levels, which open and close like brackets. An inlined record has no level of its
own: its fields consume keys of the record that it is inlined into.

* `Scope`: where in the source a conversion stands, and whether it is strict;
* `Audit.openLevel`, `Audit.consume`, `Audit.closeLevel`: what becomes of the levels
  at the begin of a record, at each of its fields, and at its end;
* `Scope.beginRecord`, `Scope.askKey`, `Scope.endRecord`: whether that is noted at all;
* `Audit.report`: the unknown keys in the order in which they are reported.
-/

namespace TreeCodec

/-- Where a conversion stands. -/
structure Scope where
  strict : Bool
  /-- The path from the root of the source, which only a strict conversion keeps. -/
  path : Path
  /-- The fields of a record at this place consume keys of an enclosing record. -/
  inlined : Bool

namespace Scope

def root (strict : Bool) : Scope := ⟨strict, [], false⟩

/-- The place one segment further down. -/
def enter (s : Scope) (segment : Segment) : Scope where
  strict := s.strict
  path := if s.strict then s.path ++ [segment] else s.path
  inlined := false

/-- The same place, for an inlined field. -/
def inline (s : Scope) : Scope := { s with inlined := true }

/-- Whether a record at this place is a level of its own. -/
def opensLevel (s : Scope) : Bool := s.strict && !s.inlined

end Scope

/-- What a strict conversion has noted. -/
structure Audit where
  /-- The keys consumed at the open levels, the innermost level first. -/
  levels : List (List String)
  /-- The unknown keys of closed levels, in the order in which they were found. -/
  unknown : List Path
  deriving DecidableEq

namespace Audit

def empty : Audit := ⟨[], []⟩

def openLevel (a : Audit) : Audit := { a with levels := [] :: a.levels }

/-- Notes a key as consumed at the innermost level. -/
def consume (a : Audit) (key : String) : Audit :=
  match a.levels with
  | [] => a
  | keys :: outer => { a with levels := (key :: keys) :: outer }

/-- Ends the innermost level: the keys of its object that it did not consume are
unknown. -/
def closeLevel (a : Audit) (path : Path) (o : Object) : Audit :=
  match a.levels with
  | [] => a
  | keys :: outer =>
    let unmatched := (Object.keys o).filter fun key => !keys.contains key
    ⟨outer, a.unknown ++ unmatched.map fun key => path ++ [.key key]⟩

/-- The unknown keys in the order of the texts that report them. -/
def report (a : Audit) (text : Path → String) : List Path :=
  a.unknown.mergeSort fun p q => decide (text p ≤ text q)

end Audit

namespace Scope

/-- What is noted where a record begins. -/
def beginRecord (s : Scope) (a : Audit) : Audit := if s.opensLevel then a.openLevel else a

/-- What is noted where a field asks for a key. -/
def askKey (s : Scope) (key : String) (a : Audit) : Audit := if s.strict then a.consume key else a

/-- What is noted where a record ends. -/
def endRecord (s : Scope) (o : Object) (a : Audit) : Audit :=
  if s.opensLevel then a.closeLevel s.path o else a

end Scope

end TreeCodec
