import TreeCodec.Tree
import TreeCodec.Ty

/-!
# Families of scalars

Strings, booleans, integers and floats are four families. A scalar of a tree may
be stored into a type of its own family; besides, an integer may become a float,
and a float without a fractional part an integer (`Family.accepts`). Widths are
not looked at here.
-/

namespace TreeCodec

inductive Family
  | string
  | bool
  | integer
  | float
  deriving DecidableEq

/-- The family of a tree. Null and containers have none. -/
def Tree.family? : Tree → Option Family
  | .string _ => some .string
  | .bool _ => some .bool
  | .int _ => some .integer
  | .float _ => some .float
  | .null => none
  | .array _ => none
  | .object _ => none

/-- The family of a type. Types other than plain scalars have none. -/
def Ty.family? : Ty → Option Family
  | .bool => some .bool
  | .int _ => some .integer
  | .float32 => some .float
  | .float64 => some .float
  | .char => some .string
  | .string => some .string
  | _ => none

/-- Whether a tree of family `src` may be stored into a type of family `dst`. -/
def Family.accepts (src dst : Family) (t : Tree) : Bool :=
  if src = dst then true
  else
    match src, dst, t with
    | .integer, .float, _ => true
    | .float, .integer, .float x => x.isIntegral
    | _, _, _ => false

end TreeCodec
