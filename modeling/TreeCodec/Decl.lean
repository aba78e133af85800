import TreeCodec.Datum
import TreeCodec.Ty

/-!
# Declarations

A catalogue says what the declared types are: records with named fields, tuples
with numbered ones, newtypes, and enumerations. It also holds what a type has by
declaration alone: a default and an invariant.

* `FieldInfo.ofField`: how a field takes part in an object;
* `Catalogue.fields`: the fields of any type that has fields;
* `Catalogue.inner?`: the type one layer below a wrapper.
-/

namespace TreeCodec

/-- A field of a record or a tuple. -/
structure Field where
  /-- The key under which an object holds the field. -/
  key : String
  ty : Ty
  /-- The field's own fields stand in the object of the record that has it. -/
  inline : Bool := false
  /-- The field is left out of the object while it is empty. -/
  omitEmpty : Bool := false
  /-- The field has no part in the object. -/
  skipped : Bool := false
  /-- What the field holds when the object has nothing for it. -/
  default? : Option Datum := none

/-- A variant of an enumeration. -/
structure Variant where
  name : String
  payload : List Ty := []

inductive Body
  | record (fields : List Field)
  | tuple (fields : List Field)
  | newtype (inner : Ty)
  | enumeration (variants : List Variant)

/-- What a declared type is. -/
structure Decl where
  body : Body
  default? : Option Datum := none
  /-- What must hold of every datum that is built of the type. -/
  invariant : Datum → Bool := fun _ => true

/-- The declared types by name. -/
structure Catalogue where
  decls : List (String × Decl)

/-! ## Fields -/

/-- How a field takes part in an object. -/
structure FieldInfo where
  /-- The key, which is empty for a field that has none of its own. -/
  name : String
  omitEmpty : Bool
  inline : Bool
  excluded : Bool
  deriving DecidableEq

def FieldInfo.ofField (f : Field) : FieldInfo where
  name := if f.inline || f.skipped then "" else f.key
  omitEmpty := f.omitEmpty
  inline := f.inline
  excluded := f.skipped

/-- Members by position, numbered from `i`. -/
def Field.numbered (i : Nat) : List Ty → List Field
  | [] => []
  | t :: ts => { key := toString i, ty := t } :: numbered (i + 1) ts

namespace Catalogue

def find? (c : Catalogue) (name : String) : Option Decl := c.decls.lookup name

/-- The body of a declared type. -/
def body? (c : Catalogue) (name : String) : Option Body := (c.find? name).map Decl.body

/-- The fields of a type. A wrapper has its content as its only field. -/
def fields (c : Catalogue) : Ty → List Field
  | .tuple ts => Field.numbered 0 ts
  | .nonZero k => Field.numbered 0 [.int k]
  | .named name =>
    match c.body? name with
    | some (.record fs) => fs
    | some (.tuple fs) => fs
    | some (.newtype t) => Field.numbered 0 [t]
    | _ => []
  | _ => []

/-- The type one layer below a wrapper: a newtype, a non-zero integer, or a
pointer that holds its content. -/
def inner? (c : Catalogue) : Ty → Option Ty
  | .nonZero k => some (.int k)
  | .pointer .owned t => some t
  | .pointer .counted t => some t
  | .pointer .atomic t => some t
  | .named name =>
    match c.body? name with
    | some (.newtype t) => some t
    | _ => none
  | _ => none

theorem inner?_newtype {c : Catalogue} {name : String} {t : Ty}
    (body : c.body? name = some (.newtype t)) : c.inner? (.named name) = some t := by
  simp only [inner?, body]

/-- Whether a datum satisfies what its type demands beyond its shape. -/
def invariant (c : Catalogue) (ty : Ty) (d : Datum) : Bool :=
  match ty with
  | .named name =>
    match c.find? name with
    | some decl => decl.invariant d
    | none => true
  | _ => true

/-! ## Peeling -/

/-- The innermost type and datum below any number of wrappers and present
options. -/
def peel (c : Catalogue) (ty : Ty) : Datum → Ty × Datum
  | .wrapped d =>
    match c.inner? ty with
    | some t => c.peel t d
    | none => (ty, .wrapped d)
  | .present d =>
    match ty with
    | .option t => c.peel t d
    | _ => (ty, .present d)
  | d => (ty, d)

/-- The text at the innermost layer, if the innermost type is one of text. -/
def text? (c : Catalogue) (ty : Ty) (d : Datum) : Option String :=
  match c.peel ty d with
  | (.string, .text s) => some s
  | (.borrowedText, .text s) => some s
  | _ => none

end Catalogue

end TreeCodec
