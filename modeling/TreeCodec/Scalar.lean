import TreeCodec.Datum
import TreeCodec.Error
import TreeCodec.Family

/-!
# Scalars

Scalars as trees, and trees as scalars. Integers and floats keep their value or
are refused; a float narrows to the nearest of its type.

* `Scalar.encode`: integers must fit 64 bits with a sign;
* `Scalar.decode`: the families decide first (`Family.accepts`), then the range
  of the type.
-/

namespace TreeCodec.Scalar

/-- An integer as a tree. -/
def encodeInt (k : IntTy) (n : Int) : Except Error Tree :=
  if IntTy.int64.contains n then .ok (.int (.ofInt n))
  else if k.signed then .error (.misfit (.tooWide n))
  else .error (.overflow n.toNat)

/-- A scalar as a tree. -/
def encode : Ty → Datum → Except Error Tree
  | .bool, .bool b => .ok (.bool b)
  | .char, .char c => .ok (.string (String.singleton c))
  | .int k, .int n => encodeInt k n
  | .float32, .float32 x => .ok (.float x.convert)
  | .float64, .float64 x => .ok (.float x)
  | .string, .text s => .ok (.string s)
  | .opaqueScalar k, _ => .error (.noForm (.scalar (.opaqueScalar k)))
  | ty, _ => .error (.unbuilt (.mistyped ty))

/-- A string as a character or as text. -/
def decodeString (ty : Ty) (s : String) : Except Error Datum :=
  match ty, s.toList with
  | .char, [c] => .ok (.char c)
  | .char, cs => .error (.misfit (.charLength cs.length))
  | _, _ => .ok (.text s)

/-- An integer as one of the type's. -/
def decodeInt (ty : Ty) (n : Int) : Except Error Datum :=
  match ty with
  | .int k => if k.contains n then .ok (.int n) else .error (.misfit (.integer n ty))
  | _ => .error (.noForm (.scalar ty))

/-- A float as one of the type's, the nearest one. -/
def decodeFloat (ty : Ty) (x : Binary64) : Except Error Datum :=
  match ty with
  | .float32 => .ok (.float32 x.convert)
  | _ => .ok (.float64 x)

/-- The integer that a float denotes, if it lies within 128 bits with a sign. -/
def wholeFloat (ty : Ty) (x : Binary64) : Except Error Int :=
  match x.toInt? with
  | some n => if IntTy.int128.contains n then .ok n else .error (.misfit (.float x ty))
  | none => .error (.misfit (.kind .float ty))

/-- A tree as a scalar. -/
def decode (ty : Ty) (t : Tree) : Except Error Datum :=
  match ty.family? with
  | none => .error (.noForm (.scalar ty))
  | some dst =>
    match t.family? with
    | none => .error (.misfit (.kind t.kind ty))
    | some src =>
      if src.accepts dst t then
        match t, dst with
        | .string s, _ => decodeString ty s
        | .bool b, _ => .ok (.bool b)
        | .int n, .float => decodeFloat ty (.ofInt n.toInt)
        | .int n, _ => decodeInt ty n.toInt
        | .float x, .integer =>
          match wholeFloat ty x with
          | .ok n => decodeInt ty n
          | .error e => .error e
        | .float x, _ => decodeFloat ty x
        | t, _ => .error (.misfit (.kind t.kind ty))
      else .error (.misfit (.kind t.kind ty))

/-- Whether a scalar is the one that an omitted field stands for. Text is not
looked at here. -/
def isZero (ty : Ty) (d : Datum) : Bool :=
  match encode ty d with
  | .ok (.bool b) => !b
  | .ok (.int n) => n == 0
  | .ok (.float x) => x.isZero
  | .ok .null => true
  | _ => false

end TreeCodec.Scalar
