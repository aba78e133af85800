import TreeCodec.Codec.Decoding
import TreeCodec.Codec.Encoding

/-!
# Conversions

Whole conversions between data and trees, in any computation that can fail and can
ask for field information.

* `Codec.toTree`, `Codec.toObject`: from a datum;
* `Codec.fromTree`, `Codec.fromObject`: to a datum, strictly or not. What a strict
  conversion finds unknown fails it only if nothing else does;
* `Codec.transcode`: there, back into another type, and there again.
-/

namespace TreeCodec.Codec

variable {m : Type → Type} [Monad m] [MonadExceptOf Error m] [MonadFields m]

/-- The tree of a datum. -/
def toTree (cx : Codec) (ty : Ty) (d : Datum) : m Tree := encode cx cx.maxDepth ty d

/-- The object that a tree is asked to be. -/
def objectOf (ty : Ty) : Tree → Except Error Object
  | .object o => .ok o
  | _ => .error (.invalidArgument .toTree ty)

/-- The object of a datum that becomes one. -/
def toObject (cx : Codec) (ty : Ty) (d : Datum) : m Object := do
  let t ← cx.toTree ty d
  MonadExcept.ofExcept (objectOf ty t)

/-- Whether a datum that was read may be handed out: its type's invariant comes first,
then what is unknown. -/
def accept (cx : Codec) (ty : Ty) (d : Datum) (audit : Audit) : Except Error Datum :=
  if cx.catalogue.invariant ty d then
    if audit.unknown.isEmpty then .ok d
    else .error (.unknownFields (audit.report Error.unknownField))
  else .error (.unbuilt .invariant)

/-- Builds the datum of a type, by a reading that has noted nothing yet. -/
def build (cx : Codec) (ty : Ty) (read : StateT Audit m Datum) : m Datum := do
  let result ← read.run .empty
  MonadExcept.ofExcept (cx.accept ty result.1 result.2)

/-- The datum of a tree. -/
def fromTree (cx : Codec) (strict : Bool) (ty : Ty) (x : Tree) : m Datum :=
  cx.build ty ((decoder cx cx.maxDepth).tree (.root strict) ty x)

/-- Whether a conversion from an object into the type may begin. -/
def acceptsObject (cx : Codec) (ty : Ty) : Bool :=
  if (cx.registry.decoder? ty).isSome then true
  else
    match ty with
    | .map _ _ _ => true
    | .named name =>
      match cx.catalogue.body? name with
      | some (.record _) => true
      | _ => false
    | _ => false

/-- The datum of an object. -/
def fromObject (cx : Codec) (strict : Bool) (ty : Ty) (o : Object) : m Datum :=
  if cx.acceptsObject ty then
    cx.build ty ((decoder cx cx.maxDepth).object (.root strict) ty o)
  else throw (.invalidArgument .fromTree ty)

/-! ## Transcoding -/

/-- A computation's result, failure included. -/
def attempt {α : Type} (x : m α) : m (Except Error α) :=
  tryCatch (do let a ← x; return .ok a) fun e => pure (.error e)

/-- What became of a datum on its way into another type. Stages behind a failed one
are not there. -/
structure Transcript where
  tree : Except Error Tree
  datum? : Option (Except Error Datum) := none
  back? : Option (Except Error Tree) := none

/-- Writes a datum of type `src`, reads it as one of type `dst`, and writes that. -/
def transcode (cx : Codec) (strict : Bool) (src dst : Ty) (d : Datum) : m Transcript := do
  match ← attempt (cx.toTree src d) with
  | .error e => return { tree := .error e }
  | .ok t =>
    match ← attempt (cx.fromTree strict dst t) with
    | .error e => return { tree := .ok t, datum? := some (.error e) }
    | .ok d' =>
      let back ← attempt (cx.toTree dst d')
      return { tree := .ok t, datum? := some (.ok d'), back? := some back }

end TreeCodec.Codec
