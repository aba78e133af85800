import TreeCodec.Tree

/-!
# Data

A datum is what a type describes: a scalar, an optional or wrapped datum, a
sequence, the members of a product in the order of declaration, the entries of a
map, a variant of an enumeration, or a tree in a slot for any tree.

A datum does not carry its type. Pointers, newtypes and non-zero integers are a
layer of their own, so that a datum of such a type is a `wrapped` datum.
-/

namespace TreeCodec

inductive Datum
  | bool (b : Bool)
  | char (c : Char)
  | int (n : Int)
  | float32 (x : Binary32)
  | float64 (x : Binary64)
  | text (s : String)
  /-- The optional datum that is not there, and what a weak pointer to nothing holds. -/
  | absent
  | present (d : Datum)
  /-- What a pointer, a newtype or a non-zero integer holds. -/
  | wrapped (d : Datum)
  /-- The items of a list, an array, a slice or a set. -/
  | seq (items : List Datum)
  /-- The members of a record or a tuple. -/
  | product (members : List Datum)
  | map (entries : List (Datum × Datum))
  /-- A variant of an enumeration by its position, with what it carries. -/
  | variant (index : Nat) (payload : List Datum)
  | tree (t : Tree)

instance : Inhabited Datum := ⟨.absent⟩

/-- The bytes of a sequence of bytes. -/
def Datum.byte? : Datum → Option UInt8
  | .int n => if 0 ≤ n ∧ n < 256 then some (.ofNat n.toNat) else none
  | _ => none

/-- The datum of a byte. -/
def Datum.ofByte (b : UInt8) : Datum := .int b.toNat

end TreeCodec
