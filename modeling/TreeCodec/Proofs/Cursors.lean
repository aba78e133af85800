import TreeCodec.Codec

/-!
# Cursors

The decoder of a codec is told where it stands. The same reading can be carried out with one
cursor, which says where the reading stands and what it has noted, and which every step moves
by hand: what is entered is left again, and what is set for a part is set back behind it.

* `Cursor`: the state, with the path as its text, and the moves;
* `WalkM`: computations that move a cursor and keep all cursors there were, also of what fails;
* `Codec.walker`: the reading of trees and of objects. It says by itself where a part
  begins and ends, for the items of an array, the entries of a map and the fields of a record;
  what wraps something, and what a hook reads, moves nothing.
-/

namespace TreeCodec

/-- Where a reading stands and what it has noted. -/
structure Cursor where
  strict : Bool
  /-- The text of the path from the root, which only a strict reading keeps. -/
  path : String
  /-- The fields of the record at this place consume keys of an enclosing record. -/
  inlined : Bool
  /-- The keys consumed at the open levels, the innermost level first. -/
  levels : List (List String)
  /-- The texts of the unknown keys' paths, in the order in which they were found. -/
  unknown : List String
  /-- How many layers the reading is in. -/
  depth : Nat
  deriving DecidableEq

namespace Cursor

/-- Where a reading begins. -/
def fresh (strict : Bool) : Cursor := ⟨strict, "", false, [], [], 0⟩

/-- Goes one segment further down. -/
def push (segment : Segment) (c : Cursor) : Cursor :=
  if c.strict then { c with path := segment.appendTo c.path } else c

/-- What the path is cut back to when a part has been left. -/
def mark (c : Cursor) : Nat := c.path.length

def truncate (mark : Nat) (c : Cursor) : Cursor :=
  { c with path := String.ofList (c.path.toList.take mark) }

def setInlined (inlined : Bool) (c : Cursor) : Cursor := { c with inlined := inlined }

def openLevel (c : Cursor) : Cursor :=
  if c.strict then { c with levels := [] :: c.levels } else c

/-- Notes a key as consumed at the innermost level, if there is one. -/
def consume (key : String) (c : Cursor) : Cursor :=
  if c.strict then
    match c.levels with
    | [] => c
    | keys :: outer => { c with levels := (key :: keys) :: outer }
  else c

/-- Ends the innermost level: the keys of its object that it did not consume are unknown. -/
def closeLevel (o : Object) (c : Cursor) : Cursor :=
  if c.strict then
    match c.levels with
    | [] => c
    | keys :: outer =>
      let unmatched := (Object.keys o).filter fun key => !keys.contains key
      { c with
        levels := outer
        unknown := c.unknown ++ unmatched.map fun key => (Segment.key key).appendTo c.path }
  else c

def descend (c : Cursor) : Cursor := { c with depth := c.depth + 1 }

def ascend (c : Cursor) : Cursor := { c with depth := c.depth - 1 }

end Cursor

/-! ## Walks -/

/-- A cursor with all the cursors before it, the last one first. -/
structure Walk where
  cursor : Cursor
  trail : List Cursor

/-- All cursors of a walk, the present one first. -/
def Walk.cursors (w : Walk) : List Cursor := w.cursor :: w.trail

/-- Failing computations that move a cursor. A failure leaves it where it is. -/
abbrev WalkM := EStateM Error Walk

/-- The present cursor. -/
def here : WalkM Cursor := do
  let w ← get
  return w.cursor

def move (step : Cursor → Cursor) : WalkM PUnit :=
  modify fun w => ⟨step w.cursor, w.cursors⟩

def moveUnless (stay : Bool) (step : Cursor → Cursor) : WalkM PUnit :=
  if stay then pure ⟨⟩ else move step

namespace WalkM

variable {α : Type}

/-- What becomes of a walk. -/
def result (x : WalkM α) (w : Walk) : Except Error α :=
  match x w with
  | .ok v _ => .ok v
  | .error e _ => .error e

/-- The cursors when a walk is over, however it ends. -/
def final (x : WalkM α) (w : Walk) : Walk :=
  match x w with
  | .ok _ w' => w'
  | .error _ w' => w'

end WalkM

/-- What is read: a tree, or an object apart from other trees. -/
inductive Source
  | tree (x : Tree)
  | object (o : Object)

/-- How trees and objects are read by a walk. -/
structure Walker where
  tree : Ty → Tree → WalkM Datum
  object : Ty → Object → WalkM Datum

def Walker.read (w : Walker) (ty : Ty) : Source → WalkM Datum
  | .tree x => w.tree ty x
  | .object o => w.object ty o

def Decoder.read (dec : Decoder (Except Error)) (s : Scope) (ty : Ty) :
    Source → StateT Audit (Except Error) Datum
  | .tree x => dec.tree s ty x
  | .object o => dec.object s ty o

namespace Codec

/-! ## Products and collections -/

/-- Reads items by position, from position `i` on, and cuts the path back behind each. -/
def walkItems (w : Walker) (mark : Nat) (i : Nat) : List Ty → List Tree → WalkM (List Datum)
  | t :: ts, x :: xs => do
    move (.push (.index i))
    let d ← w.tree t x
    move (.truncate mark)
    let ds ← walkItems w mark (i + 1) ts xs
    return d :: ds
  | _, _ => pure []

/-- Reads the entries of a map, and cuts the path back behind each. A key is made before its
value is read. -/
def walkEntries (cx : Codec) (w : Walker) (key value : Ty) (mark : Nat) :
    Object → WalkM (List (Datum × Datum))
  | [] => pure []
  | (k, x) :: rest => do
    let kd ← MonadExcept.ofExcept (cx.catalogue.keyOf key k)
    move (.push (.key k))
    let d ← w.tree value x
    move (.truncate mark)
    let ds ← walkEntries cx w key value mark rest
    return (kd, d) :: ds

/-- Reads parts that have levels of their own, given how they are read from a mark on. -/
def walkParts {α : Type} (parts : Nat → WalkM α) : WalkM α := do
  let c ← here
  move (.setInlined false)
  let v ← parts c.mark
  move (.setInlined c.inlined)
  return v

/-- Reads an array of exactly as many items as there are types. -/
def walkPositional (w : Walker) (ty : Ty) (members : List Ty) : Tree → WalkM (List Datum)
  | .array xs =>
    if xs.length = members.length then walkParts fun mark => walkItems w mark 0 members xs
    else throw (.mismatch (.length ty xs.length members.length))
  | t => throw (.mismatch (.other ty t.kind))

/-- Reads an array type. The length is looked at before anything is built. -/
def walkArray (w : Walker) (t : Ty) (n : Nat) : Tree → WalkM Datum
  | .array xs =>
    let ty := Ty.array t n
    if xs.length ≠ n then throw (.mismatch (.length ty xs.length n))
    else if n = 0 then throw (.unbuilt (.emptyArray ty))
    else if Ty.maxArrayLength < n then throw (.unbuilt (.longArray ty))
    else do
      let ds ← walkParts fun mark => walkItems w mark 0 (.replicate n t) xs
      return .seq ds
  | x => throw (.mismatch (.other (.array t n) x.kind))

/-- Reads a list. -/
def walkList (w : Walker) (t : Ty) : Tree → WalkM Datum
  | .array xs => do
    let ds ← walkParts fun mark => walkItems w mark 0 (.replicate xs.length t) xs
    return .seq ds
  | x => throw (.mismatch (.list x.kind))

/-- Reads a map. -/
def walkMap (cx : Codec) (w : Walker) (key value : Ty) (o : Object) : WalkM Datum := do
  let es ← walkParts fun mark => walkEntries cx w key value mark o
  return .map es

/-! ## Records -/

/-- Reads the field of a record that stands under a key of the record's object. -/
def walkKey (cx : Codec) (w : Walker) (inlined : Bool) (mark : Nat) (f : Field) (key : String)
    (o : Object) : WalkM Datum := do
  move (.consume key)
  match Object.find? o key with
  | some x => do
    move (.setInlined false)
    move (.push (.key key))
    let d ← w.tree f.ty x
    move (.truncate mark)
    move (.setInlined inlined)
    return d
  | none => MonadExcept.ofExcept (cx.catalogue.zeroField f)

/-- Reads a field of a record that began with a flag and a mark. -/
def walkField (cx : Codec) (w : Walker) (inlined : Bool) (mark : Nat) (o : Object) (f : Field) :
    WalkM Datum :=
  let info := FieldInfo.ofField f
  if info.excluded then MonadExcept.ofExcept (cx.catalogue.zeroField f)
  else if info.inline then do
    move (.setInlined true)
    let d ← w.object f.ty o
    move (.setInlined inlined)
    return d
  else walkKey cx w inlined mark f info.name o

/-- Reads the fields of a record. -/
def walkFields (cx : Codec) (w : Walker) (inlined : Bool) (mark : Nat) (o : Object) :
    List Field → WalkM (List Datum)
  | [] => pure []
  | f :: fs => do
    let d ← walkField cx w inlined mark o f
    let ds ← walkFields cx w inlined mark o fs
    return d :: ds

/-- Reads a record, a level of its own unless it is inlined. -/
def walkRecord (cx : Codec) (w : Walker) (fs : List Field) (o : Object) : WalkM Datum := do
  let c ← here
  moveUnless c.inlined .openLevel
  let ds ← walkFields cx w c.inlined c.mark o fs
  moveUnless c.inlined (.closeLevel o)
  return .product ds

/-! ## Layers -/

/-- Reads through a pointer, given how its content is read. -/
def walkPointer (p : Pointer) (t : Ty) (content : WalkM Datum) : WalkM Datum :=
  match p with
  | .weak => throw (.unbuilt (.weakPointer (.pointer p t)))
  | .borrowed => do
    let _ ← content
    throw (.unbuilt (.borrowedPointer (.pointer p t)))
  | _ => do
    let d ← content
    return .wrapped d

/-- Reads one layer of a declared type without hook from a tree other than null. -/
def walkDeclared (cx : Codec) (w : Walker) (ty : Ty) (body : Body) (x : Tree) : WalkM Datum :=
  match body with
  | .newtype t => do
    let d ← w.tree t x
    return .wrapped d
  | .record fs =>
    match x with
    | .object o => walkRecord cx w fs o
    | x => throw (.mismatch (.record x.kind))
  | .tuple fs => do
    let ds ← walkPositional w ty (fs.map Field.ty) x
    return .product ds
  | .enumeration vs => MonadExcept.ofExcept (decodeVariant ty vs x)

/-- Reads one layer of a type without hook from a tree other than null. -/
def walkLayer (cx : Codec) (w : Walker) (ty : Ty) (x : Tree) : WalkM Datum :=
  match ty with
  | .option t => do
    let d ← w.tree t x
    return .present d
  | .pointer p t => walkPointer p t (w.tree t x)
  | .nonZero k => do
    let d ← w.tree (.int k) x
    MonadExcept.ofExcept (wrapNonZero k d)
  | .tuple ts => do
    let ds ← walkPositional w ty ts x
    return .product ds
  | .named name =>
    match cx.catalogue.body? name with
    | some body => walkDeclared cx w ty body x
    | none => throw (.noForm (.type ty))
  | .list t =>
    if ty.isBytes then MonadExcept.ofExcept (decodeBytes x) else walkList w t x
  | .array t n => walkArray w t n x
  | .map _ key value =>
    match x with
    | .object o => walkMap cx w key value o
    | x => throw (.mismatch (.map x.kind))
  | .tree => throw (.noForm (.type ty))
  | .borrowedText => throw (.noForm (.type ty))
  | .slice _ => throw (.noForm (.type ty))
  | .set _ _ => throw (.noForm (.type ty))
  | ty => MonadExcept.ofExcept (Scalar.decode ty x)

/-- Reads one layer from a tree: null, then hooks, then the type's description. -/
def walkStep (cx : Codec) (w : Walker) (ty : Ty) (x : Tree) : WalkM Datum :=
  match x with
  | .null => MonadExcept.ofExcept (cx.catalogue.zero ty)
  | x =>
    match cx.registry.decoder? ty with
    | some hook => MonadExcept.ofExcept (hook x)
    | none => walkLayer cx w ty x

/-- Reads one layer of a type without hook from an object, for the types that an object can
fill. -/
def walkObjectLayer (cx : Codec) (w : Walker) (ty : Ty) (o : Object) : WalkM Datum :=
  match ty with
  | .option t => do
    let d ← w.object t o
    return .present d
  | .pointer p t => walkPointer p t (w.object t o)
  | .nonZero k => do
    let d ← w.object (.int k) o
    MonadExcept.ofExcept (wrapNonZero k d)
  | .map _ key value => walkMap cx w key value o
  | .named name =>
    match cx.catalogue.body? name with
    | some (.newtype t) => do
      let d ← w.object t o
      return .wrapped d
    | some (.record fs) => walkRecord cx w fs o
    | _ => throw (.mismatch (.other ty .object))
  | ty => throw (.mismatch (.other ty .object))

/-- Reads one layer from an object. -/
def walkObjectStep (cx : Codec) (w : Walker) (ty : Ty) (o : Object) : WalkM Datum :=
  match cx.registry.decoder? ty with
  | some hook => MonadExcept.ofExcept (hook (.object o))
  | none => walkObjectLayer cx w ty o

/-! ## Whole readings -/

/-- Goes one layer down for a content, if the limit admits it, and comes up again whatever
becomes of the content. -/
def walkNested (cx : Codec) (content : WalkM Datum) : WalkM Datum := do
  let c ← here
  if cx.maxDepth ≤ c.depth then throw (.depthExceeded cx.maxDepth)
  else do
    move .descend
    tryFinally content (move .ascend)

/-- Reads at most `room` layers down. The limit is looked at in each of them, so that room
beyond it is of no use. -/
def walker (cx : Codec) (room : Nat) : Walker where
  tree ty x :=
    match room with
    | 0 => throw (.depthExceeded cx.maxDepth)
    | room + 1 => walkNested cx (walkStep cx (walker cx room) ty x)
  object ty o :=
    match room with
    | 0 => throw (.depthExceeded cx.maxDepth)
    | room + 1 => walkNested cx (walkObjectStep cx (walker cx room) ty o)

end Codec

end TreeCodec
