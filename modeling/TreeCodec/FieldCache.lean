import TreeCodec.Decl
import TreeCodec.Error

/-!
# Field information

Conversions ask for a field's information where they meet the field. A plain
conversion derives it there and then; a conversion in `ConvertM` looks it up in a
cache first and adds what it had to derive.

* `MonadFields`: computations that can ask for field information;
* `FieldCache.resolve`: look-up, and derivation of what is missing;
* `ConvertM`: failing computations with a cache that survives their failure.
-/

namespace TreeCodec

/-- Field information by type and position. -/
structure FieldCache where
  entries : List ((Ty × Nat) × FieldInfo)

namespace FieldCache

def empty : FieldCache := ⟨[]⟩

def size (cache : FieldCache) : Nat := cache.entries.length

def find? (cache : FieldCache) (ty : Ty) (index : Nat) : Option FieldInfo :=
  cache.entries.lookup (ty, index)

/-- The information of a type's field at an index, and the cache that has it. -/
def resolve (cache : FieldCache) (ty : Ty) (index : Nat) (f : Field) : FieldInfo × FieldCache :=
  match cache.find? ty index with
  | some info => (info, cache)
  | none =>
    let info := FieldInfo.ofField f
    (info, ⟨((ty, index), info) :: cache.entries⟩)

end FieldCache

/-- Computations that can ask for the information of a type's field at an index. -/
class MonadFields (m : Type → Type) where
  fieldInfo : Ty → Nat → Field → m FieldInfo

export MonadFields (fieldInfo)

instance : MonadFields (Except Error) := ⟨fun _ _ f => .ok (.ofField f)⟩

/-- Failing computations that share a cache, which also keeps what a failed one
has asked for. -/
abbrev ConvertM := ExceptT Error (StateM FieldCache)

instance : MonadFields ConvertM :=
  ⟨fun ty index f => ExceptT.lift fun cache => cache.resolve ty index f⟩

instance {σ : Type} {m : Type → Type} [Monad m] [MonadFields m] : MonadFields (StateT σ m) :=
  ⟨fun ty index f => StateT.lift (fieldInfo ty index f)⟩

end TreeCodec
