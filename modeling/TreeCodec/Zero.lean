import TreeCodec.Decl
import TreeCodec.Error

/-!
# Defaults and zeros

What stands for a datum that the source does not give: the default of its type,
or else a zero that is built up by the type's description.

* `Ty.default?`: the default, by declaration or by the members' defaults;
* `Catalogue.zero`: the default if there is one; else empty collections, arrays
  and records of zeros, and the first variant of an enumeration;
* `Catalogue.zeroField`: a field's own default comes first;
* `Catalogue.keyOf`: a string as the key of a map.

Zeros of declared types are built in layers: a type may be opened as often as
there are declarations. A zero that needs more would contain itself.
-/

namespace TreeCodec

mutual

/-- The default of a type, if it has one. -/
def Ty.default? (c : Catalogue) : Ty → Option Datum
  | .bool => some (.bool false)
  | .char => some (.char (Char.ofNat 0))
  | .int _ => some (.int 0)
  | .float32 => some (.float32 (.zero false))
  | .float64 => some (.float64 (.zero false))
  | .string => some (.text "")
  | .borrowedText => none
  | .opaqueScalar .sharedText => some (.text "")
  | .opaqueScalar .filePath => some (.text "")
  | .opaqueScalar .ipAddress => none
  | .tree => some (.tree .null)
  | .nonZero _ => some (.wrapped (.int 0))
  | .option _ => some .absent
  | .pointer .atomic (.slice _) => some (.wrapped (.seq []))
  | .pointer .weak _ => some .absent
  | .pointer _ _ => none
  | .slice _ => none
  | .list _ => some (.seq [])
  | .array t n =>
    if n = 0 then some (.seq [])
    else if n ≤ 32 then (t.default? c).map fun d => .seq (.replicate n d)
    else none
  | .set _ _ => some (.seq [])
  | .map _ _ _ => some (.map [])
  | .tuple ts => (Ty.defaults? c ts).map .product
  | .named name => (c.find? name).bind Decl.default?

/-- The defaults of several types, if all have one. -/
def Ty.defaults? (c : Catalogue) : List Ty → Option (List Datum)
  | [] => some []
  | t :: ts =>
    match t.default? c, Ty.defaults? c ts with
    | some d, some ds => some (d :: ds)
    | _, _ => none

end

namespace Catalogue

mutual

/-- The zero of a type, with the zeros of declared types without a default given. -/
def zeroWith (c : Catalogue) (declared : String → Except Error Datum) (ty : Ty) :
    Except Error Datum :=
  match ty.default? c with
  | some d => .ok d
  | none =>
    match ty with
    | .array t n =>
      if Ty.maxArrayLength < n then .error (.unbuilt (.longArray ty))
      else (c.zeroWith declared t).map fun d => .seq (.replicate n d)
    | .pointer p t =>
      match c.zeroWith declared t with
      | .error e => .error e
      | .ok d =>
        if p = .borrowed then .error (.unbuilt (.borrowedPointer ty)) else .ok (.wrapped d)
    | .tuple ts => (c.zerosWith declared ts).map .product
    | .named name => declared name
    | _ => .error (.noForm (.zero ty))

def zerosWith (c : Catalogue) (declared : String → Except Error Datum) :
    List Ty → Except Error (List Datum)
  | [] => .ok []
  | t :: ts =>
    match c.zeroWith declared t with
    | .error e => .error e
    | .ok d => (c.zerosWith declared ts).map (d :: ·)

end

/-- The zero of a field: its own default, or the zero of its type. -/
def zeroFieldWith (c : Catalogue) (declared : String → Except Error Datum) (f : Field) :
    Except Error Datum :=
  match f.default? with
  | some d => .ok d
  | none => c.zeroWith declared f.ty

def zeroFieldsWith (c : Catalogue) (declared : String → Except Error Datum) :
    List Field → Except Error (List Datum)
  | [] => .ok []
  | f :: fs =>
    match c.zeroFieldWith declared f with
    | .error e => .error e
    | .ok d => (c.zeroFieldsWith declared fs).map (d :: ·)

/-- The zero of a declared type without a default, opening declarations at most
`depth` deep. -/
def zeroDeclared (c : Catalogue) : Nat → String → Except Error Datum
  | 0, name => .error (.noForm (.endlessZero (.named name)))
  | depth + 1, name =>
    match c.body? name with
    | some (.record fs) => (c.zeroFieldsWith (c.zeroDeclared depth) fs).map .product
    | some (.tuple fs) => (c.zeroFieldsWith (c.zeroDeclared depth) fs).map .product
    | some (.newtype t) => (c.zeroWith (c.zeroDeclared depth) t).map .wrapped
    | some (.enumeration (⟨_, []⟩ :: _)) => .ok (.variant 0 [])
    | some (.enumeration _) => .error (.noForm (.zeroVariant (.named name)))
    | none => .error (.noForm (.zero (.named name)))

/-- The zero of a type. -/
def zero (c : Catalogue) (ty : Ty) : Except Error Datum :=
  c.zeroWith (c.zeroDeclared c.decls.length) ty

/-- The zero of a field: its own default, or the zero of its type. -/
def zeroField (c : Catalogue) (f : Field) : Except Error Datum :=
  c.zeroFieldWith (c.zeroDeclared c.decls.length) f

/-! ## Keys -/

/-- A string as a key, with the keys of declared types given. -/
def keyWith (key : String) (declared : String → Except Error Datum) : Ty → Except Error Datum
  | .string => .ok (.text key)
  | .option t => (keyWith key declared t).map .present
  | .pointer .owned t => (keyWith key declared t).map .wrapped
  | .pointer .counted t => (keyWith key declared t).map .wrapped
  | .pointer .atomic t => (keyWith key declared t).map .wrapped
  | .nonZero k => .error (.mismatch (.keyType (.int k)))
  | .named name => declared name
  | ty => .error (.mismatch (.keyType ty))

/-- A string as a key of a declared type, opening declarations at most `depth`
deep. -/
def keyDeclared (c : Catalogue) (key : String) : Nat → String → Except Error Datum
  | 0, name => .error (.mismatch (.keyType (.named name)))
  | depth + 1, name =>
    match c.body? name with
    | some (.newtype t) => (keyWith key (c.keyDeclared key depth) t).map .wrapped
    | _ => .error (.mismatch (.keyType (.named name)))

/-- A string as a key of a map: text, at the innermost layer of the key's type. -/
def keyOf (c : Catalogue) (ty : Ty) (key : String) : Except Error Datum :=
  keyWith key (c.keyDeclared key c.decls.length) ty

end Catalogue

end TreeCodec
