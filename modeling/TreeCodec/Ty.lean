/-!
# Types

Type expressions describe the data that is written to trees and read from them.
Declared types (records, enumerations, newtypes) are named here and described in
`TreeCodec.Decl`; all other types are built from scalars.

* `IntTy.contains`: the integers of an integer type;
* `Ty.display`: the text by which messages name a type;
* the instance `DecidableEq Ty`: types are told apart by their expressions.
-/

namespace TreeCodec

/-! ## Integer types -/

inductive IntWidth
  | w8
  | w16
  | w32
  | w64
  | w128
  /-- The width of an address, which is 64 bits. -/
  | word
  deriving DecidableEq

def IntWidth.bits : IntWidth → Nat
  | .w8 => 8
  | .w16 => 16
  | .w32 => 32
  | .w64 => 64
  | .w128 => 128
  | .word => 64

def IntWidth.display : IntWidth → String
  | .word => "size"
  | w => toString w.bits

structure IntTy where
  signed : Bool
  width : IntWidth
  deriving DecidableEq

namespace IntTy

/-- Unsigned bytes, the items of byte strings. -/
def byte : IntTy := ⟨false, .w8⟩

/-- Signed integers as wide as those of a tree. -/
def int64 : IntTy := ⟨true, .w64⟩

/-- The widest signed integers. -/
def int128 : IntTy := ⟨true, .w128⟩

def min (k : IntTy) : Int :=
  if k.signed then -(Nat.pow 2 (k.width.bits - 1) : Nat) else 0

def max (k : IntTy) : Int :=
  (Nat.pow 2 (if k.signed then k.width.bits - 1 else k.width.bits) : Nat) - 1

/-- Whether an integer is one of the type's. -/
def contains (k : IntTy) (n : Int) : Bool := k.min ≤ n && n ≤ k.max

def display (k : IntTy) : String := (if k.signed then "i" else "u") ++ k.width.display

end IntTy

/-! ## Type expressions -/

/-- How a pointer holds what it points to. -/
inductive Pointer
  /-- By itself. -/
  | owned
  /-- Together with others, counted. -/
  | counted
  /-- Together with others, counted across threads. -/
  | atomic
  /-- On loan. -/
  | borrowed
  /-- Without keeping it: it may be gone. -/
  | weak
  deriving DecidableEq

/-- Scalars that have no form in a tree. -/
inductive Opaque
  | sharedText
  | filePath
  | ipAddress
  deriving DecidableEq

def Opaque.display : Opaque → String
  | .sharedText => "Cow<\x27_, str>"
  | .filePath => "PathBuf"
  | .ipAddress => "IpAddr"

/-- How a map or a set arranges its entries. -/
inductive Arrangement
  | ordered
  | hashed
  deriving DecidableEq

inductive Ty
  | bool
  | char
  | int (k : IntTy)
  | float32
  | float64
  | string
  /-- Text on loan. It counts as text for emptiness and as a key, but has no form as a value. -/
  | borrowedText
  | opaqueScalar (k : Opaque)
  /-- A slot for any tree. -/
  | tree
  /-- Integers other than zero. -/
  | nonZero (k : IntTy)
  | option (t : Ty)
  | pointer (p : Pointer) (t : Ty)
  | slice (t : Ty)
  | list (t : Ty)
  | array (t : Ty) (length : Nat)
  | set (a : Arrangement) (t : Ty)
  | map (a : Arrangement) (key : Ty) (value : Ty)
  | tuple (members : List Ty)
  /-- A declared type. -/
  | named (name : String)

namespace Ty

instance : Inhabited Ty := ⟨bool⟩

/-- The type of byte strings. -/
def isBytes : Ty → Bool
  | list (int k) => k = .byte
  | _ => false

/-- Longer arrays can be described and written, but not built. -/
def maxArrayLength : Nat := 63

/-! ## Equality -/

mutual

/-- Whether two types are the same expression. -/
def same : Ty → Ty → Bool
  | bool, bool | char, char | float32, float32 | float64, float64 => true
  | string, string | borrowedText, borrowedText | tree, tree => true
  | int a, int b | nonZero a, nonZero b => a = b
  | opaqueScalar a, opaqueScalar b => a = b
  | option a, option b | slice a, slice b | list a, list b => same a b
  | pointer p a, pointer q b => p = q && same a b
  | array a m, array b n => m = n && same a b
  | set v a, set w b => v = w && same a b
  | map v j a, map w k b => v = w && same j k && same a b
  | tuple as, tuple bs => sameAll as bs
  | named a, named b => a = b
  | _, _ => false

def sameAll : List Ty → List Ty → Bool
  | [], [] => true
  | a :: as, b :: bs => same a b && sameAll as bs
  | _, _ => false

end

mutual

theorem same_refl : ∀ t : Ty, same t t = true
  | bool | char | float32 | float64 | string | borrowedText | tree => rfl
  | int _ | nonZero _ | opaqueScalar _ | named _ => by simp [same]
  | option t | slice t | list t | pointer _ t | array t _ | set _ t => by simp [same, same_refl t]
  | map _ k t => by simp [same, same_refl k, same_refl t]
  | tuple ts => by simp [same, sameAll_refl ts]

theorem sameAll_refl : ∀ ts : List Ty, sameAll ts ts = true
  | [] => rfl
  | t :: ts => by simp [sameAll, same_refl t, sameAll_refl ts]

end

theorem eq_of_same : ∀ a b : Ty, same a b = true → a = b := by
  apply same.induct (fun a b => same a b = true → a = b)
    (fun as bs => sameAll as bs = true → as = bs) <;> intros <;> simp_all [same, sameAll]

instance : DecidableEq Ty := fun a b =>
  if h : same a b = true then isTrue (eq_of_same a b h)
  else isFalse fun hab => h (hab ▸ same_refl a)

/-! ## Names -/

mutual

/-- The text that names a type in messages. -/
def display : Ty → String
  | bool => "bool"
  | char => "char"
  | int k => k.display
  | float32 => "f32"
  | float64 => "f64"
  | string => "String"
  | borrowedText => "&str"
  | opaqueScalar k => k.display
  | tree => "Value"
  | nonZero k => s!"NonZero<{k.display}>"
  | option t => s!"Option<{display t}>"
  | pointer .borrowed t => "&" ++ display t
  | pointer .owned t => s!"Box<{display t}>"
  | pointer .counted t => s!"Rc<{display t}>"
  | pointer .atomic t => s!"Arc<{display t}>"
  | pointer .weak t => s!"Weak<{display t}>"
  | slice t => s!"[{display t}]"
  | list t => s!"Vec<{display t}>"
  | array t n => s!"[{display t}; {n}]"
  | set .ordered t => s!"BTreeSet<{display t}>"
  | set .hashed t => s!"HashSet<{display t}>"
  | map .ordered k t => s!"BTreeMap<{display k}, {display t}>"
  | map .hashed k t => s!"HashMap<{display k}, {display t}>"
  | tuple ts => "(" ++ ", ".intercalate (displayAll ts) ++ ")"
  | named name => name

def displayAll : List Ty → List String
  | [] => []
  | t :: ts => display t :: displayAll ts

end

end Ty

end TreeCodec
