import TreeCodec.Audit
import TreeCodec.Codec.Basic
import TreeCodec.FieldCache
import TreeCodec.Scalar
import TreeCodec.Zero

/-!
# From trees to data

A tree is read by the description of the type that is asked for. A `Decoder` reads
trees, and objects apart from other trees; `Codec.decoder` gives the decoder of a
depth by way of the one for the depth below, which reads the parts.

* null is the zero of every type, before hooks and before all else;
* wrappers read the same tree as what they wrap;
* `Codec.decodeFields` reads a record's fields one after another: an inlined field
  reads the record's own object, another one the tree under its key, and where
  there is none the field is zero;
* what a strict conversion notes on the way is in `TreeCodec.Audit`.
-/

namespace TreeCodec

/-- How trees and objects are read. -/
structure Decoder (m : Type → Type) where
  tree : Scope → Ty → Tree → StateT Audit m Datum
  object : Scope → Ty → Object → StateT Audit m Datum

namespace Codec

variable {m : Type → Type} [Monad m] [MonadExceptOf Error m]

/-! ## Products and collections -/

/-- Reads items by position, from position `i` on. -/
def decodeItems (dec : Decoder m) (scope : Scope) (i : Nat) :
    List Ty → List Tree → StateT Audit m (List Datum)
  | t :: ts, x :: xs => do
    let d ← dec.tree (scope.enter (.index i)) t x
    let ds ← decodeItems dec scope (i + 1) ts xs
    return d :: ds
  | _, _ => pure []

/-- Reads an array of exactly as many items as there are types. -/
def decodePositional (dec : Decoder m) (scope : Scope) (ty : Ty) (members : List Ty) :
    Tree → StateT Audit m (List Datum)
  | .array xs =>
    if xs.length = members.length then decodeItems dec scope 0 members xs
    else throw (.mismatch (.length ty xs.length members.length))
  | t => throw (.mismatch (.other ty t.kind))

/-- Reads an array type. The length is looked at before anything is built. -/
def decodeArray (dec : Decoder m) (scope : Scope) (t : Ty) (n : Nat) :
    Tree → StateT Audit m Datum
  | .array xs =>
    let ty := Ty.array t n
    if xs.length ≠ n then throw (.mismatch (.length ty xs.length n))
    else if n = 0 then throw (.unbuilt (.emptyArray ty))
    else if Ty.maxArrayLength < n then throw (.unbuilt (.longArray ty))
    else do
      let ds ← decodeItems dec scope 0 (.replicate n t) xs
      return .seq ds
  | x => throw (.mismatch (.other (.array t n) x.kind))

/-- Reads a list. -/
def decodeList (dec : Decoder m) (scope : Scope) (t : Ty) : Tree → StateT Audit m Datum
  | .array xs => do
    let ds ← decodeItems dec scope 0 (.replicate xs.length t) xs
    return .seq ds
  | x => throw (.mismatch (.list x.kind))

/-- Reads a list of bytes. -/
def decodeBytes : Tree → Except Error Datum
  | .string s =>
    match Base64.decodeString s with
    | .ok bytes => .ok (.seq (bytes.map .ofByte))
    | .error e => .error (.base64 e)
  | x => .error (.mismatch (.list x.kind))

/-- Reads the entries of a map. A key is made before its value is read. -/
def decodeEntries (cx : Codec) (dec : Decoder m) (scope : Scope) (key value : Ty) :
    Object → StateT Audit m (List (Datum × Datum))
  | [] => pure []
  | (k, x) :: rest => do
    let kd ← MonadExcept.ofExcept (cx.catalogue.keyOf key k)
    let d ← dec.tree (scope.enter (.key k)) value x
    let ds ← decodeEntries cx dec scope key value rest
    return (kd, d) :: ds

/-- Reads the name of a variant that carries nothing. -/
def decodeVariant (ty : Ty) (variants : List Variant) : Tree → Except Error Datum
  | .string s =>
    match variants.findIdx? (·.name = s) with
    | some i =>
      match variants[i]? with
      | some ⟨_, []⟩ => .ok (.variant i [])
      | _ => .error (.noForm (.payload ty s))
    | none => .error (.unknownVariant ty s)
  | t => .error (.mismatch (.other ty t.kind))

/-! ## Records -/

/-- Reads the field of a record that stands under a key of the record's object. -/
def decodeKey (cx : Codec) (dec : Decoder m) (scope : Scope) (f : Field) (key : String)
    (o : Object) : StateT Audit m Datum := do
  modify (scope.askKey key)
  match Object.find? o key with
  | some x => dec.tree (scope.enter (.key key)) f.ty x
  | none => MonadExcept.ofExcept (cx.catalogue.zeroField f)

/-- Reads the field of a record at position `i`. -/
def decodeField [MonadFields m] (cx : Codec) (dec : Decoder m) (scope : Scope) (ty : Ty)
    (o : Object) (i : Nat) (f : Field) : StateT Audit m Datum := do
  let info ← fieldInfo ty i f
  if info.excluded then MonadExcept.ofExcept (cx.catalogue.zeroField f)
  else if info.inline then dec.object scope.inline f.ty o
  else decodeKey cx dec scope f info.name o

/-- Reads the fields of a record from position `i` on. -/
def decodeFields [MonadFields m] (cx : Codec) (dec : Decoder m) (scope : Scope) (ty : Ty)
    (o : Object) : Nat → List Field → StateT Audit m (List Datum)
  | _, [] => pure []
  | i, f :: fs => do
    let d ← decodeField cx dec scope ty o i f
    let ds ← decodeFields cx dec scope ty o (i + 1) fs
    return d :: ds

/-- Reads a record, a level of its own unless it is inlined. -/
def decodeRecord [MonadFields m] (cx : Codec) (dec : Decoder m) (scope : Scope) (ty : Ty)
    (fs : List Field) (o : Object) : StateT Audit m Datum := do
  modify scope.beginRecord
  let ds ← decodeFields cx dec scope ty o 0 fs
  modify (scope.endRecord o)
  return .product ds

/-! ## Layers -/

/-- The non-zero integer of an integer. -/
def wrapNonZero (k : IntTy) (d : Datum) : Except Error Datum :=
  match d with
  | .int 0 => .error (.unbuilt (.zero k))
  | d => .ok (.wrapped d)

/-- Reads through a pointer, given how its content is read. -/
def decodePointer (p : Pointer) (t : Ty) (content : StateT Audit m Datum) :
    StateT Audit m Datum :=
  match p with
  | .weak => throw (.unbuilt (.weakPointer (.pointer p t)))
  | .borrowed => do
    let _ ← content
    throw (.unbuilt (.borrowedPointer (.pointer p t)))
  | _ => do
    let d ← content
    return .wrapped d

/-- Reads one layer of a declared type without hook from a tree other than null. -/
def decodeDeclared [MonadFields m] (cx : Codec) (dec : Decoder m) (scope : Scope) (ty : Ty)
    (body : Body) (x : Tree) : StateT Audit m Datum :=
  match body with
  | .newtype t => do
    let d ← dec.tree scope t x
    return .wrapped d
  | .record fs =>
    match x with
    | .object o => decodeRecord cx dec scope ty fs o
    | x => throw (.mismatch (.record x.kind))
  | .tuple fs => do
    let ds ← decodePositional dec scope ty (fs.map Field.ty) x
    return .product ds
  | .enumeration vs => MonadExcept.ofExcept (decodeVariant ty vs x)

/-- Reads one layer of a type without hook from a tree other than null. -/
def decodeLayer [MonadFields m] (cx : Codec) (dec : Decoder m) (scope : Scope) (ty : Ty)
    (x : Tree) : StateT Audit m Datum :=
  match ty with
  | .option t => do
    let d ← dec.tree scope t x
    return .present d
  | .pointer p t => decodePointer p t (dec.tree scope t x)
  | .nonZero k => do
    let d ← dec.tree scope (.int k) x
    MonadExcept.ofExcept (wrapNonZero k d)
  | .tuple ts => do
    let ds ← decodePositional dec scope ty ts x
    return .product ds
  | .named name =>
    match cx.catalogue.body? name with
    | some body => decodeDeclared cx dec scope ty body x
    | none => throw (.noForm (.type ty))
  | .list t =>
    if ty.isBytes then MonadExcept.ofExcept (decodeBytes x) else decodeList dec scope t x
  | .array t n => decodeArray dec scope t n x
  | .map _ key value =>
    match x with
    | .object o => do
      let es ← decodeEntries cx dec scope key value o
      return .map es
    | x => throw (.mismatch (.map x.kind))
  | .tree => throw (.noForm (.type ty))
  | .borrowedText => throw (.noForm (.type ty))
  | .slice _ => throw (.noForm (.type ty))
  | .set _ _ => throw (.noForm (.type ty))
  | ty => MonadExcept.ofExcept (Scalar.decode ty x)

/-- Reads one layer from a tree: null, then hooks, then the type's description. -/
def decodeStep [MonadFields m] (cx : Codec) (dec : Decoder m) (scope : Scope) (ty : Ty)
    (x : Tree) : StateT Audit m Datum :=
  match x with
  | .null => MonadExcept.ofExcept (cx.catalogue.zero ty)
  | x =>
    match cx.registry.decoder? ty with
    | some hook => MonadExcept.ofExcept (hook x)
    | none => decodeLayer cx dec scope ty x

/-- Reads one layer of a type without hook from an object, for the types that an
object can fill. -/
def decodeObjectLayer [MonadFields m] (cx : Codec) (dec : Decoder m) (scope : Scope) (ty : Ty)
    (o : Object) : StateT Audit m Datum :=
  match ty with
  | .option t => do
    let d ← dec.object scope t o
    return .present d
  | .pointer p t => decodePointer p t (dec.object scope t o)
  | .nonZero k => do
    let d ← dec.object scope (.int k) o
    MonadExcept.ofExcept (wrapNonZero k d)
  | .map _ key value => do
    let es ← decodeEntries cx dec scope key value o
    return .map es
  | .named name =>
    match cx.catalogue.body? name with
    | some (.newtype t) => do
      let d ← dec.object scope t o
      return .wrapped d
    | some (.record fs) => decodeRecord cx dec scope ty fs o
    | _ => throw (.mismatch (.other ty .object))
  | ty => throw (.mismatch (.other ty .object))

/-- Reads one layer from an object. -/
def decodeObjectStep [MonadFields m] (cx : Codec) (dec : Decoder m) (scope : Scope) (ty : Ty)
    (o : Object) : StateT Audit m Datum :=
  match cx.registry.decoder? ty with
  | some hook => MonadExcept.ofExcept (hook (.object o))
  | none => decodeObjectLayer cx dec scope ty o

/-- Reads at most `depth` layers down. What is left of the depth is looked at
only where something is read, so that a limit costs nothing before it is met. -/
def decoder [MonadFields m] (cx : Codec) (depth : Nat) : Decoder m where
  tree scope ty x :=
    match depth with
    | 0 => throw (.depthExceeded cx.maxDepth)
    | depth + 1 => decodeStep cx (decoder cx depth) scope ty x
  object scope ty o :=
    match depth with
    | 0 => throw (.depthExceeded cx.maxDepth)
    | depth + 1 => decodeObjectStep cx (decoder cx depth) scope ty o

/-- Nothing is read at depth zero. -/
theorem decoder_zero [MonadFields m] (cx : Codec) :
    (decoder cx 0 : Decoder m) =
      ⟨fun _ _ _ => throw (.depthExceeded cx.maxDepth),
        fun _ _ _ => throw (.depthExceeded cx.maxDepth)⟩ := rfl

/-- A layer is read by way of the decoder for the depth below. -/
theorem decoder_succ [MonadFields m] (cx : Codec) (depth : Nat) :
    (decoder cx (depth + 1) : Decoder m) =
      ⟨decodeStep cx (decoder cx depth), decodeObjectStep cx (decoder cx depth)⟩ := rfl

end Codec

end TreeCodec
