import TreeCodec.Codec.Basic
import TreeCodec.FieldCache
import TreeCodec.Scalar
import TreeCodec.Tree.Object

/-!
# From data to trees

A datum is written by its type's description. `Codec.encodeStep` says what one
layer becomes, given how the layers below are written; `Codec.encode` ties the
knot and counts the layers.

* optional data are null or what they hold; wrappers are what they hold;
* lists, arrays and tuples are arrays, lists of bytes are base64 text;
* maps and records are objects, enumerations the names of their variants;
* `Codec.encodeFields` writes a record's fields one after another: a later field
  takes the place of an earlier one under the same key.
-/

namespace TreeCodec

/-- Whether a field's datum is the zero that `Field.omitEmpty` leaves out, its
type being no wrapper other than a pointer. Records and enumerations have no such
zero, and pointers only that of text. -/
def Catalogue.isZeroLayer (c : Catalogue) (ty : Ty) (d : Datum) : Bool :=
  match ty, d with
  | .tree, .tree t => t.isNull
  | .option _, .absent => true
  | .option _, _ => false
  | ty, d =>
    match c.text? ty d with
    | some s => s.isEmpty
    | none =>
      match ty, d with
      | .list _, .seq items => items.isEmpty
      | .array _ _, .seq items => items.isEmpty
      | .map _ _ _, .map entries => entries.isEmpty
      | ty, d => Scalar.isZero ty d

/-- Whether a type is a wrapper other than a pointer. -/
def Catalogue.isTransparent (c : Catalogue) : Ty → Bool
  | .pointer _ _ => false
  | ty => (c.inner? ty).isSome

/-- Whether a field's datum is the zero that `Field.omitEmpty` leaves out. -/
def Catalogue.isZero (c : Catalogue) (ty : Ty) (d : Datum) : Bool :=
  if c.isTransparent ty then
    let inner := c.peel ty d
    c.isZeroLayer inner.1 inner.2
  else c.isZeroLayer ty d

namespace Codec

variable {m : Type → Type} [Monad m] [MonadExceptOf Error m]

/-- Puts an inlined field's entries among a record's. Null adds none. -/
def splice (o : Object) : Tree → Except Error Object
  | .object entries => .ok (Object.extend o entries)
  | .null => .ok o
  | t => .error (.mismatch (.inlined t.kind))

/-- Puts a field's tree into a record's object. A custom conversion may have made
null of a field that is left out while it is empty. -/
def place (info : FieldInfo) (o : Object) (t : Tree) : Except Error Object :=
  if info.inline then splice o t
  else if info.omitEmpty && t.isNull then .ok o
  else .ok (Object.insert info.name t o)

/-- Writes the field of a record at position `i` into an object. -/
def encodeField [MonadFields m] (cx : Codec) (encode : Ty → Datum → m Tree) (ty : Ty) (i : Nat)
    (f : Field) (d : Datum) (o : Object) : m Object := do
  let info ← fieldInfo ty i f
  if info.excluded || (info.omitEmpty && cx.catalogue.isZero f.ty d) then
    return o
  else
    let t ← encode f.ty d
    MonadExcept.ofExcept (place info o t)

/-- Writes the fields of a record from position `i` on into an object. -/
def encodeFields [MonadFields m] (cx : Codec) (encode : Ty → Datum → m Tree) (ty : Ty) :
    Nat → List Field → List Datum → Object → m Object
  | i, f :: fs, d :: ds, o => do
    let o ← encodeField cx encode ty i f d o
    encodeFields cx encode ty (i + 1) fs ds o
  | _, [], [], o => pure o
  | _, _, _, _ => throw (.unbuilt (.mistyped ty))

/-- Writes the members of a product. -/
def encodeMembers (encode : Ty → Datum → m Tree) (ty : Ty) : List Ty → List Datum → m (List Tree)
  | t :: ts, d :: ds => do
    let x ← encode t d
    let xs ← encodeMembers encode ty ts ds
    return x :: xs
  | [], [] => pure []
  | _, _ => throw (.unbuilt (.mistyped ty))

/-- Writes the items of a list or an array. -/
def encodeItems (encode : Datum → m Tree) : List Datum → m (List Tree)
  | [] => pure []
  | d :: ds => do
    let x ← encode d
    let xs ← encodeItems encode ds
    return x :: xs

/-- Writes the entries of a map into an object. Keys are text at their innermost
layer. -/
def encodeEntries (cx : Codec) (encode : Datum → m Tree) (key : Ty) (o : Object) :
    List (Datum × Datum) → m Object
  | [] => pure o
  | (k, d) :: rest =>
    match cx.catalogue.text? key k with
    | none => throw (.mismatch (.keyType (cx.catalogue.peel key k).1))
    | some s => do
      let t ← encode d
      encodeEntries cx encode key (Object.insert s t o) rest

/-- Writes a list of bytes. -/
def encodeBytes (ty : Ty) (items : List Datum) : Except Error Tree :=
  match items.mapM Datum.byte? with
  | some bytes => .ok (.string (Base64.encodeString bytes))
  | none => .error (.unbuilt (.mistyped ty))

/-- Writes the variant of an enumeration, which is its name. -/
def encodeVariant (ty : Ty) (variants : List Variant) : Datum → Except Error Tree
  | .variant index _ =>
    match variants[index]? with
    | some v =>
      if v.payload.isEmpty then .ok (.string v.name)
      else .error (.noForm (.payload ty v.name))
    | none => .error (.unbuilt (.mistyped ty))
  | _ => .error (.unbuilt (.mistyped ty))

/-- Writes a datum of a declared type without hook. A newtype is left behind
together with the wrappers right below it. -/
def encodeDeclared [MonadFields m] (cx : Codec) (encode : Ty → Datum → m Tree) (ty : Ty)
    (body : Body) (d : Datum) : m Tree :=
  match body, d with
  | .newtype _, .wrapped d =>
    let inner := cx.catalogue.peel ty (.wrapped d)
    encode inner.1 inner.2
  | .record fs, .product ds => do
    let o ← encodeFields cx encode ty 0 fs ds []
    return .object o
  | .tuple fs, .product ds => do
    let xs ← encodeMembers encode ty (fs.map Field.ty) ds
    return .array xs
  | .enumeration vs, d => MonadExcept.ofExcept (encodeVariant ty vs d)
  | _, _ => throw (.unbuilt (.mistyped ty))

/-- Writes one layer of a datum that has no hook. -/
def encodeLayer [MonadFields m] (cx : Codec) (encode : Ty → Datum → m Tree) (ty : Ty)
    (d : Datum) : m Tree :=
  match ty, d with
  | .option _, .absent => pure .null
  | .option t, .present d => encode t d
  | .pointer .weak _, .absent => pure .null
  | .pointer _ t, .wrapped d => encode t d
  | .nonZero k, .wrapped d => encode (.int k) d
  | .tuple ts, .product ds => do
    let xs ← encodeMembers encode ty ts ds
    return .array xs
  | .named name, d =>
    match cx.catalogue.body? name with
    | some body => encodeDeclared cx encode ty body d
    | none => throw (.noForm (.type ty))
  | .list t, .seq items =>
    if ty.isBytes then MonadExcept.ofExcept (encodeBytes ty items)
    else do
      let xs ← encodeItems (encode t) items
      return .array xs
  | .array t _, .seq items => do
    let xs ← encodeItems (encode t) items
    return .array xs
  | .map _ key value, .map entries => do
    let o ← encodeEntries cx (encode value) key [] entries
    return .object o
  | .tree, _ => throw (.noForm (.type ty))
  | .borrowedText, _ => throw (.noForm (.type ty))
  | .slice _, _ => throw (.noForm (.type ty))
  | .set _ _, _ => throw (.noForm (.type ty))
  | ty, d => MonadExcept.ofExcept (Scalar.encode ty d)

/-- Writes one layer of a datum, by the hook of its type if there is one. -/
def encodeStep [MonadFields m] (cx : Codec) (encode : Ty → Datum → m Tree) (ty : Ty) (d : Datum) :
    m Tree :=
  match cx.registry.encoder? ty with
  | some hook => MonadExcept.ofExcept (hook d)
  | none => encodeLayer cx encode ty d

/-- Writes a datum, going at most `depth` layers down. -/
def encode [MonadFields m] (cx : Codec) : Nat → Ty → Datum → m Tree
  | 0, _, _ => throw (.depthExceeded cx.maxDepth)
  | depth + 1, ty, d => encodeStep cx (encode cx depth) ty d

end Codec

end TreeCodec
