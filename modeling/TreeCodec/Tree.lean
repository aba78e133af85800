import TreeCodec.Binary

/-!
# Trees

A tree is a datum whose type is not known beforehand: null, a boolean, a 64-bit
integer, a 64-bit float, a string, an array of trees, or an object, which holds
trees under distinct string keys in the order of the keys.

* `Tree.kind` and the accessors `asBool?` … `asObject?` look at the root;
* `Tree.numEq` compares trees, floats as numbers.
-/

namespace TreeCodec

inductive Tree
  | null
  | bool (b : Bool)
  | int (n : Int64)
  | float (x : Binary64)
  | string (s : String)
  | array (items : List Tree)
  | object (entries : List (String × Tree))

/-- The entries of an object, by increasing key. -/
abbrev Object := List (String × Tree)

/-- What a tree is at its root. -/
inductive Kind
  | null
  | bool
  | int
  | float
  | string
  | array
  | object
  deriving DecidableEq

def Kind.name : Kind → String
  | .null => "null"
  | .bool => "bool"
  | .int => "int64"
  | .float => "float64"
  | .string => "string"
  | .array => "array"
  | .object => "object"

namespace Tree

instance : Inhabited Tree := ⟨null⟩

def kind : Tree → Kind
  | null => .null
  | bool _ => .bool
  | int _ => .int
  | float _ => .float
  | string _ => .string
  | array _ => .array
  | object _ => .object

def isNull : Tree → Bool
  | null => true
  | _ => false

def asBool? : Tree → Option Bool
  | bool b => some b
  | _ => none

def asInt? : Tree → Option Int64
  | int n => some n
  | _ => none

/-- The number as a float, which for an integer is the nearest one. -/
def asFloat? : Tree → Option Binary64
  | float x => some x
  | int n => some (.ofInt n.toInt)
  | _ => none

def asString? : Tree → Option String
  | string s => some s
  | _ => none

def asArray? : Tree → Option (List Tree)
  | array items => some items
  | _ => none

def asObject? : Tree → Option Object
  | object entries => some entries
  | _ => none

/-! ## Equality -/

mutual

/-- Equality of trees whose floats are compared as numbers: a tree with a NaN in
it differs from itself. -/
def numEq : Tree → Tree → Bool
  | null, null => true
  | bool a, bool b => a == b
  | int a, int b => a == b
  | float a, float b => a.numEq b
  | string a, string b => a == b
  | array a, array b => numEqItems a b
  | object a, object b => numEqEntries a b
  | _, _ => false

def numEqItems : List Tree → List Tree → Bool
  | [], [] => true
  | a :: as, b :: bs => numEq a b && numEqItems as bs
  | _, _ => false

def numEqEntries : List (String × Tree) → List (String × Tree) → Bool
  | [], [] => true
  | (j, a) :: as, (k, b) :: bs => j == k && numEq a b && numEqEntries as bs
  | _, _ => false

end

end Tree

end TreeCodec
