import TreeCodec.Datum
import TreeCodec.Error

/-!
# Custom conversions

A hook replaces the conversion that a type's description prescribes, in one
direction or in both. A registry holds the hooks of some types; each starts with
the hook of `Ty.tree`, by which a slot for any tree holds the tree itself.

* `Registry.encoder?`, `Registry.decoder?`: the hooks in use;
* `Registry.register`: another hook of a type replaces the type's hook in the
  directions that it has, and leaves the other ones alone
  (`encoder?_register`, `decoder?_register`).
-/

namespace TreeCodec

structure Hook where
  encode? : Option (Datum → Except Error Tree) := none
  decode? : Option (Tree → Except Error Datum) := none

/-- The hooks of a type, each of which replaces the one that was there. -/
def Hook.over (new old : Hook) : Hook :=
  ⟨new.encode?.or old.encode?, new.decode?.or old.decode?⟩

structure Registry where
  entries : List (Ty × Hook)

namespace Registry

/-- The number of types with a hook. -/
def size (r : Registry) : Nat := r.entries.length

/-- The hook of a type, which has no direction if the type is not registered. -/
def hook (r : Registry) (ty : Ty) : Hook := (r.entries.lookup ty).getD {}

def encoder? (r : Registry) (ty : Ty) : Option (Datum → Except Error Tree) := (r.hook ty).encode?

def decoder? (r : Registry) (ty : Ty) : Option (Tree → Except Error Datum) := (r.hook ty).decode?

/-- Adds a hook to those of a type, behind all types if the type has none. -/
def insert (ty : Ty) (new : Hook) : List (Ty × Hook) → List (Ty × Hook)
  | [] => [(ty, new)]
  | (t, old) :: rest => if t = ty then (t, new.over old) :: rest else (t, old) :: insert ty new rest

def register (r : Registry) (ty : Ty) (new : Hook) : Registry := ⟨insert ty new r.entries⟩

/-- The hook of a slot for any tree. -/
def slot : Hook where
  encode? := some fun
    | .tree t => .ok t
    | _ => .error (.unbuilt (.mistyped .tree))
  decode? := some fun t => .ok (.tree t)

/-- The registry that knows slots for any tree only. -/
def initial : Registry := ⟨[(.tree, slot)]⟩

/-! ## Laws -/

theorem lookup_insert (ty : Ty) (new : Hook) (entries : List (Ty × Hook)) (t : Ty) :
    ((insert ty new entries).lookup t).getD {} =
      if t = ty then new.over ((entries.lookup ty).getD {}) else (entries.lookup t).getD {} := by
  induction entries with
  | nil =>
    simp only [insert, List.lookup_cons, List.lookup_nil]
    by_cases h : t = ty
    · simp [h, Hook.over]
    · have hb : (t == ty) = false := by simpa using h
      simp [h, hb]
  | cons e rest ih =>
    obtain ⟨u, old⟩ := e
    simp only [insert]
    by_cases hu : u = ty
    · subst hu
      by_cases ht : t = u
      · simp [ht]
      · have hb : (t == u) = false := by simpa using ht
        simp [List.lookup_cons, ht, hb]
    · simp only [hu, if_false, List.lookup_cons]
      by_cases ht : t = u
      · subst ht
        simp [hu]
      · have hb : (t == u) = false := by simpa using ht
        have hc : (ty == u) = false := by simpa using Ne.symm hu
        simp only [hb, hc, ih]

theorem encoder?_register (r : Registry) (ty : Ty) (new : Hook) (t : Ty) :
    (r.register ty new).encoder? t =
      if t = ty then new.encode?.or (r.encoder? ty) else r.encoder? t := by
  simp only [encoder?, hook, register, lookup_insert]
  split <;> rfl

theorem decoder?_register (r : Registry) (ty : Ty) (new : Hook) (t : Ty) :
    (r.register ty new).decoder? t =
      if t = ty then new.decode?.or (r.decoder? ty) else r.decoder? t := by
  simp only [decoder?, hook, register, lookup_insert]
  split <;> rfl

theorem hook_initial {ty : Ty} (h : ty ≠ .tree) : initial.hook ty = {} := by
  have other : (ty == Ty.tree) = false := by simpa using h
  simp [hook, initial, List.lookup_cons, other]

/-- At first only slots are written by a hook. -/
theorem encoder?_initial {ty : Ty} (h : ty ≠ .tree) : initial.encoder? ty = none := by
  rw [encoder?, hook_initial h]

/-- At first only slots are read by a hook. -/
theorem decoder?_initial {ty : Ty} (h : ty ≠ .tree) : initial.decoder? ty = none := by
  rw [decoder?, hook_initial h]

end Registry

end TreeCodec
