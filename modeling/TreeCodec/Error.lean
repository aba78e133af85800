import TreeCodec.Base64
import TreeCodec.Decimal
import TreeCodec.Path
import TreeCodec.Tree
import TreeCodec.Ty

/-!
# Errors

Why a conversion failed. Each cause carries what its text speaks of; the texts
are all in `Error.message`, and `Error.kind` sorts the causes into the classes
that callers tell apart.
-/

namespace TreeCodec

/-- Which way a conversion goes. -/
inductive Direction
  | toTree
  | fromTree
  deriving DecidableEq

/-- A tree, or a datum's part, of a kind that the type has no use for. -/
inductive Mismatch
  /-- A map whose keys are not text. -/
  | keyType (ty : Ty)
  /-- A field to be inlined that is no object. -/
  | inlined (k : Kind)
  | record (k : Kind)
  | list (k : Kind)
  | map (k : Kind)
  | other (ty : Ty) (k : Kind)
  /-- An array of the wrong length. -/
  | length (ty : Ty) (found expected : Nat)
  /-- A custom conversion's own finding. -/
  | custom (text : String)
  deriving DecidableEq

/-- A scalar that the type cannot hold. -/
inductive Misfit
  | kind (k : Kind) (ty : Ty)
  | integer (n : Int) (ty : Ty)
  | float (x : Binary64) (ty : Ty)
  /-- A string that is not one character long. -/
  | charLength (n : Nat)
  /-- A signed integer beyond 64 bits. -/
  | tooWide (n : Int)
  /-- A custom conversion's own finding. -/
  | custom (text : String)
  deriving DecidableEq

/-- A type, or a part of one, that has no form in a tree. -/
inductive NoForm
  | type (ty : Ty)
  | scalar (ty : Ty)
  /-- A variant that carries data. -/
  | payload (ty : Ty) (variant : String)
  | zero (ty : Ty)
  /-- An enumeration whose first variant carries data. -/
  | zeroVariant (ty : Ty)
  /-- A type whose zero would contain itself. -/
  | endlessZero (ty : Ty)
  deriving DecidableEq

/-- A datum that could not be built. -/
inductive Unbuilt
  /-- Zero as a non-zero integer. -/
  | zero (k : IntTy)
  /-- An array without items, built from an array without items. -/
  | emptyArray (ty : Ty)
  /-- An array of more than `Ty.maxArrayLength` items. -/
  | longArray (ty : Ty)
  | weakPointer (ty : Ty)
  | borrowedPointer (ty : Ty)
  | invariant
  /-- A datum that is not of its type. -/
  | mistyped (ty : Ty)
  deriving DecidableEq

inductive Error
  /-- A type that is no object where an object is asked for. -/
  | invalidArgument (d : Direction) (ty : Ty)
  | mismatch (m : Mismatch)
  | misfit (m : Misfit)
  /-- An unsigned integer beyond 64 bits with a sign. -/
  | overflow (n : Nat)
  | unknownVariant (ty : Ty) (variant : String)
  | noForm (f : NoForm)
  | base64 (e : Base64.Error)
  | depthExceeded (limit : Nat)
  /-- A custom conversion's refusal. -/
  | custom (text : String)
  | unbuilt (u : Unbuilt)
  /-- Keys that no field consumed, in the order of the report. -/
  | unknownFields (paths : List Path)
  deriving DecidableEq

/-- The classes of errors. -/
inductive ErrorKind
  | invalidArgument
  | shapeMismatch
  | coercion
  | overflow
  | unknownVariant
  | unsupportedShape
  | base64
  | depthExceeded
  | custom
  | reflection
  | strictDecoding
  deriving DecidableEq

def Mismatch.message : Mismatch → String
  | .keyType ty => s!"map keys must be strings, got {ty.display}"
  | .inlined k => s!"cannot inline {k.name} into an object"
  | .record k => s!"cannot restore struct from: {k.name}"
  | .list k => s!"cannot restore slice from {k.name}"
  | .map k => s!"cannot restore map from {k.name}"
  | .other ty k => s!"cannot restore {ty.display} from {k.name}"
  | .length ty found expected =>
    s!"cannot restore {ty.display} from an array of {found} elements, expected {expected}"
  | .custom text => text

def Misfit.message : Misfit → String
  | .kind k ty => s!"cannot convert {k.name} to {ty.display}"
  | .integer n ty => s!"cannot convert {n} to {ty.display}: out of range"
  | .float x ty => s!"cannot convert {x.text} to {ty.display}: out of range"
  | .charLength n => s!"cannot convert string of length {n} to char"
  | .tooWide n => s!"signed value {n} does not fit into int64 (overflow)"
  | .custom text => text

def NoForm.message : NoForm → String
  | .type ty => ty.display
  | .scalar ty => s!"scalar {ty.display}"
  | .payload ty variant =>
    s!"{ty.display}::{variant} carries data; only unit variants have an unstructured form"
  | .zero ty => s!"{ty.display} has no zero value"
  | .zeroVariant ty => s!"{ty.display} has no zero value: its first variant carries data"
  | .endlessZero ty => s!"{ty.display} has no finite zero value"

def Unbuilt.message : Unbuilt → String
  | .zero k =>
    s!"While trying to put {k.display} into a NonZero<{k.display}>: value should be non-zero"
  | .emptyArray ty => "Value \x27" ++ ty.display ++ "\x27 was not initialized"
  | .longArray ty =>
    s!"Operation failed on shape {ty.display}: " ++
      s!"arrays larger than {Ty.maxArrayLength} elements are not yet supported"
  | .weakPointer ty =>
    s!"Operation failed on shape {ty.display}: " ++
      "only the following pointers are currently supported: Box<T>, Rc<T>, Arc<T>, and &T"
  | .borrowedPointer ty =>
    s!"Operation failed on shape {ty.display}: SmartPointer missing new_into_fn"
  | .invariant => "Invariant violation: Type invariants check failed"
  | .mistyped ty => s!"the datum is not of type {ty.display}"

namespace Error

/-- How a key that no field consumed is reported. -/
def unknownField (p : Path) : String := "unknown field \"" ++ p.render ++ "\""

def message : Error → String
  | invalidArgument .toTree ty =>
    s!"ToUnstructured requires a non-nil pointer to an object, got {ty.display}"
  | invalidArgument .fromTree ty =>
    s!"FromUnstructured requires a non-nil pointer to an object, got {ty.display}"
  | mismatch m => m.message
  | misfit m => m.message
  | overflow n => s!"unsigned value {n} does not fit into int64 (overflow)"
  | unknownVariant ty variant => s!"unrecognized variant \"{variant}\" for {ty.display}"
  | noForm f => s!"unsupported shape: {f.message}"
  | base64 e => s!"invalid base64 byte string: {e.message}"
  | depthExceeded limit => s!"maximum nesting depth of {limit} exceeded"
  | custom text => text
  | unbuilt u => u.message
  | unknownFields paths =>
    "strict decoding error: " ++ ", ".intercalate (paths.map unknownField)

def kind : Error → ErrorKind
  | invalidArgument .. => .invalidArgument
  | mismatch .. => .shapeMismatch
  | misfit .. => .coercion
  | overflow .. => .overflow
  | unknownVariant .. => .unknownVariant
  | noForm .. => .unsupportedShape
  | base64 .. => .base64
  | depthExceeded .. => .depthExceeded
  | custom .. => .custom
  | unbuilt .. => .reflection
  | unknownFields .. => .strictDecoding

/-- The error below this one, of which the text is part of this one's. -/
def source? : Error → Option String
  | base64 e => some e.message
  | unknownFields paths => some (message (unknownFields paths))
  | _ => none

end Error

end TreeCodec
