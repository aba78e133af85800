import TreeCodec.Proofs.HookedTypes
import TreeCodec.Proofs.Simulation
import TreeCodec.Proofs.Written

/-!
# Roots of objects

A conversion to an object looks at the tree that it wrote, below all layers; a conversion
from an object looks at the type alone. Where the type is hooked in both directions or is
no layer around another one, the second may begin wherever the first one succeeds
(`written_object_is_accepted`). An option or a pointer is refused, though what it holds may
have been written as an object (`site_is_refused`).

* `Registry.Paired`: hooks for both directions or for none;
* `Catalogue.isLayered`: options, pointers and other wrappers;
* `Codec.acceptsObject_of_written`: no other type without hooks is written as an object but
  maps and records;
* `Codec.raises_of_fromObject`: a conversion from an object that may begin refuses none by
  itself.
-/

namespace TreeCodec

/-! ## Hooks in both directions -/

namespace Registry

/-- Every type that has a hook in one direction has one in the other direction. -/
def Paired (r : Registry) : Prop := ∀ ty, (r.encoder? ty).isSome = (r.decoder? ty).isSome

theorem paired_initial : initial.Paired := by
  intro ty
  by_cases slot : ty = .tree
  · subst slot
    rfl
  · rw [encoder?_initial slot, decoder?_initial slot]
    rfl

theorem Paired.register {r : Registry} (h : r.Paired) (ty : Ty) {new : Hook}
    (both : new.encode?.isSome = new.decode?.isSome) : (r.register ty new).Paired := by
  intro t
  rw [encoder?_register, decoder?_register]
  split
  · rw [Option.isSome_or, Option.isSome_or, both, h ty]
  · exact h t

theorem Paired.encoder?_eq_none {r : Registry} (h : r.Paired) {ty : Ty}
    (hook : r.decoder? ty = none) : r.encoder? ty = none := by
  have same := h ty
  rw [hook] at same
  exact Option.isNone_iff_eq_none.mp (Option.isSome_eq_false_iff.mp same)

/-- An error in which a reading by hook ends. -/
def Raises (r : Registry) (e : Error) : Prop :=
  ∃ ty hook x, r.decoder? ty = some hook ∧ hook x = .error e

end Registry

/-! ## Types of objects -/

/-- Whether a type is a layer around another one: an option, a pointer or another wrapper. -/
def Catalogue.isLayered (c : Catalogue) : Ty → Bool
  | .option _ => true
  | .pointer _ _ => true
  | ty => c.isTransparent ty

theorem Catalogue.Content.isLayered {c : Catalogue} {ty t : Ty} {d e : Datum}
    (h : c.Content ty d t e) : c.isLayered ty = true := by
  cases h with
  | newtype body => exact congrArg Option.isSome (inner?_newtype body)
  | _ => rfl

namespace Codec

variable {cx : Codec} {ty : Ty} {d : Datum} {o : Object}

theorem of_toObject (h : cx.toObject ty d = (.ok o : Except Error Object)) :
    cx.toTree ty d = (.ok (.object o) : Except Error Tree) := by
  obtain ⟨t, ht, h⟩ := of_bind_ok h
  cases t with
  | object es =>
    cases h
    exact ht
  | _ => cases h

theorem acceptsObject_of_map {a : Arrangement} {key t : Ty} :
    cx.acceptsObject (.map a key t) = true :=
  ite_self true

theorem acceptsObject_of_record {name : String} {fs : List Field}
    (body : cx.catalogue.body? name = some (.record fs)) : cx.acceptsObject (.named name) = true := by
  simp only [acceptsObject, body, ite_self]

/-- Without hooks only maps and records are written as objects, and layers around others. -/
theorem acceptsObject_of_written (paired : cx.registry.Paired)
    (own : (cx.registry.decoder? ty).isSome = true ∨ cx.catalogue.isLayered ty = false)
    (h : cx.toObject ty d = (.ok o : Except Error Object)) : cx.acceptsObject ty = true := by
  rcases hook : cx.registry.decoder? ty with _ | read
  · have bare : cx.catalogue.isLayered ty = false := own.resolve_left (by simp [hook])
    have written : (encode cx cx.maxDepth ty d : Except Error Tree) = .ok (.object o) := of_toObject h
    rcases depth : cx.maxDepth with _ | depth <;> rw [depth] at written
    · cases written
    rw [encode_unhooked (paired.encoder?_eq_none hook)] at written
    cases writesLayer_of_ok written with
    | content layer => simp [layer.isLayered] at bare
    | newtype body => simp [(Catalogue.Content.newtype body .absent).isLayered] at bare
    | map => exact acceptsObject_of_map
    | record body => exact acceptsObject_of_record body
    | scalar written => cases (Scalar.family?_of_encode written).2
  · have hooked : (cx.registry.decoder? ty).isSome = true := by rw [hook, Option.isSome_some]
    exact if_pos hooked

/-- An option or a pointer without hook is refused, whatever the object is. -/
theorem fromObject_refused (hook : cx.registry.decoder? ty = none)
    (layer : (∃ t, ty = .option t) ∨ ∃ p t, ty = .pointer p t) (strict : Bool) (o : Object) :
    cx.fromObject strict ty o = (.error (.invalidArgument .fromTree ty) : Except Error Datum) := by
  have refused : cx.acceptsObject ty = false := by
    obtain ⟨t, rfl⟩ | ⟨p, t, rfl⟩ := layer <;> simp [acceptsObject, hook]
  rw [fromObject, refused]
  rfl

end Codec

/-! ## Errors -/

namespace Codec

variable {cx : Codec} {ty : Ty}

theorem kind_of_accept {d : Datum} {audit : Audit} {e : Error} (h : cx.accept ty d audit = .error e) :
    e.kind ≠ .invalidArgument := by
  rw [accept] at h
  split at h
  · split at h
    · cases h
    · cases h
      exact ErrorKind.noConfusion
  · cases h
    exact ErrorKind.noConfusion

section Ends

/- What holds of all local errors, of those by hooks, of the one at the limit and of those in
which a datum that was read is refused. -/
variable {P : Error → Prop} {e : Error} {strict : Bool} (own : ∀ e, e.isLocal = true → P e)
  (hooks : ∀ e, cx.registry.Raises e → P e) (limit : P (.depthExceeded cx.maxDepth))
  (refused : ∀ d audit e, cx.accept ty d audit = .error e → P e)
include refused

/-- It holds of the error of what is built, if it does of those of the reading. -/
theorem of_build_error {read : StateT Audit (Except Error) Datum}
    (ends : ∀ a e, read.run a = .error e → P e) (h : cx.build ty read = .error e) : P e := by
  rcases result : read.run .empty with e' | ⟨d, a⟩
  · rw [build, result] at h
    cases h
    exact ends .empty e result
  · rw [build_of_ok result] at h
    exact refused d a e h

include own hooks limit

/-- It holds of the error of a conversion from a tree, and of one from an object that may
begin. -/
theorem of_reading_error :
    (∀ t, cx.fromTree strict ty t = (.error e : Except Error Datum) → P e) ∧
    ∀ o, cx.acceptsObject ty = true → cx.fromObject strict ty o = (.error e : Except Error Datum) →
      P e := by
  let sim := Simulation.ending P own
  have admitted : sim.AdmitsHooks cx.registry := fun t hook hk x e he => hooks e ⟨t, hook, x, hk, he⟩
  have fields : sim.Knows cx.catalogue := fun _ _ _ _ _ _ => trivial
  have place : sim.place (.root strict) (.root strict) := trivial
  have ends := sim.decoder cx admitted fields limit cx.maxDepth
  refine ⟨fun t h => of_build_error refused (ends.tree place ty t) h, fun o accepted h => ?_⟩
  rw [fromObject, if_pos accepted] at h
  exact of_build_error refused (ends.object place ty o) h

end Ends

/-- A conversion from an object that may begin does not refuse its type; only a hook may. -/
theorem raises_of_fromObject (accepted : cx.acceptsObject ty = true) {strict : Bool} {o : Object}
    {e : Error} (h : cx.fromObject strict ty o = (.error e : Except Error Datum))
    (refusal : e.kind = .invalidArgument) : cx.registry.Raises e := by
  let P (e : Error) : Prop := e.kind = .invalidArgument → cx.registry.Raises e
  have own (e : Error) (he : e.isLocal = true) : P e := by
    cases e <;> first | exact ErrorKind.noConfusion | cases he
  have limit : P (.depthExceeded cx.maxDepth) := ErrorKind.noConfusion
  have refused (d : Datum) (audit : Audit) (e : Error) (given : cx.accept ty d audit = .error e) :
      P e := fun refusal => absurd refusal (kind_of_accept given)
  have raised : P e := (of_reading_error own (fun _ raised _ => raised) limit refused).2 o accepted h
  exact raised refusal

end Codec

/-! ## Both ways -/

/-- What was written as an object may be read from an object, if the hooks go both ways and the
type has one or is no layer around another type: only a hook may then refuse with an invalid
argument. Options and pointers without hook are refused, whatever they hold. -/
theorem written_object_is_accepted (cx : Codec) (paired : cx.registry.Paired) (ty : Ty) :
    (∀ d o, cx.toObject ty d = (.ok o : Except Error Object) →
      (cx.registry.decoder? ty).isSome = true ∨ cx.catalogue.isLayered ty = false →
      cx.acceptsObject ty = true ∧ ∀ strict e,
        cx.fromObject strict ty o = (.error e : Except Error Datum) →
        e.kind = .invalidArgument → cx.registry.Raises e) ∧
    (cx.registry.decoder? ty = none → ((∃ t, ty = .option t) ∨ ∃ p t, ty = .pointer p t) →
      ∀ strict o, cx.fromObject strict ty o =
        (.error (.invalidArgument .fromTree ty) : Except Error Datum)) := by
  refine ⟨fun d o written own => ?_, fun hook layer => Codec.fromObject_refused hook layer⟩
  have accepted := Codec.acceptsObject_of_written paired own written
  exact ⟨accepted, fun _ _ failed => Codec.raises_of_fromObject accepted failed⟩

/-- A stop, which has no hook, a temperature, which has, and an optional temperature. -/
theorem written_object_is_accepted_weather :
    (∃ o, Codec.route.toObject (.named "stop") (.stop "a" 1 2 [] .absent) =
        (.ok o : Except Error Object) ∧ Codec.route.acceptsObject (.named "stop") = true ∧
      ∀ strict e, Codec.route.fromObject strict (.named "stop") o =
        (.error e : Except Error Datum) → e.kind = .invalidArgument →
        Codec.route.registry.Raises e) ∧
    let cx := Codec.weather Codec.defaultDepth
    ∃ o, cx.toObject (.named "celsius") (.wrapped (.int 21)) = (.ok o : Except Error Object) ∧
      cx.acceptsObject (.named "celsius") = true ∧
      ∀ strict, cx.fromObject strict (.option (.named "celsius")) o =
        (.error (.invalidArgument .fromTree (.option (.named "celsius"))) : Except Error Datum) := by
  constructor
  · have written : Codec.route.toObject (.named "stop") (.stop "a" 1 2 [] .absent) =
        (.ok [("label", .string "a"), ("next", .null), ("x", .int 1), ("y", .int 2)] :
          Except Error Object) := rfl
    have paired : Codec.route.registry.Paired := Registry.paired_initial
    have accepted := (written_object_is_accepted Codec.route paired (.named "stop")).1 _ _ written
      (.inr rfl)
    exact ⟨_, written, accepted⟩
  · intro cx
    have written : cx.toObject (.named "celsius") (.wrapped (.int 21)) =
        (.ok [("celsius", .int 21)] : Except Error Object) := rfl
    have paired : cx.registry.Paired := Registry.paired_initial.register _ rfl
    have accepted := (written_object_is_accepted cx paired (.named "celsius")).1 _ _ written
      (.inl rfl)
    have refused := (written_object_is_accepted cx paired (.option (.named "celsius"))).2 rfl
      (.inl ⟨_, rfl⟩)
    exact ⟨_, written, accepted.1, fun strict => refused strict _⟩

/-- Points, and sites, which are points in another type. -/
def Catalogue.sites : Catalogue where
  decls :=
    [("point", { body := .record [{ key := "x", ty := .int .int64 }, { key := "y", ty := .int .int64 }] }),
      ("site", { body := .newtype (.named "point") })]

/-- A point that is optional, pointed to or a site is written as an object, and no object is read
as one, strictly or not. A point with hooks may be refused by its own. -/
theorem site_is_refused :
    let cx : Codec := .standard .sites
    let point := Datum.product [.int 1, .int 2]
    let o : Object := [("x", .int 1), ("y", .int 2)]
    let refusal := Error.invalidArgument .fromTree (.named "point")
    let hook : Hook :=
      { encode? := some fun _ => .ok (.object o), decode? := some fun _ => .error refusal }
    let hooked : Codec := { cx with registry := Registry.initial.register (.named "point") hook }
    (cx.registry.Paired ∧
      ∀ e ∈ [(Ty.option (.named "point"), Datum.present point),
          (.pointer .owned (.named "point"), .wrapped point), (.named "site", .wrapped point)],
        HasType .sites e.1 e.2 ∧ cx.toObject e.1 e.2 = (.ok o : Except Error Object) ∧
        ∀ strict, cx.fromObject strict e.1 o =
          (.error (.invalidArgument .fromTree e.1) : Except Error Datum)) ∧
    hooked.registry.Paired ∧
      hooked.toObject (.named "point") point = (.ok o : Except Error Object) ∧
      ∀ strict, hooked.fromObject strict (.named "point") o =
        (.error refusal : Except Error Datum) := by
  intro cx point o refusal hook hooked
  have typed : HasType .sites (.named "point") point :=
    .record rfl (.cons (.int rfl) (.cons (.int rfl) .nil))
  constructor
  · simp only [List.forall_mem_cons, List.not_mem_nil, false_implies, implies_true, and_true]
    refine ⟨Registry.paired_initial, ⟨.present typed, rfl, fun strict => ?_⟩,
      ⟨.pointer _ typed, rfl, fun strict => ?_⟩, .newtype rfl typed, rfl, fun strict => rfl⟩
    · exact Codec.fromObject_refused rfl (.inl ⟨_, rfl⟩) strict o
    · exact Codec.fromObject_refused rfl (.inr ⟨_, _, rfl⟩) strict o
  · exact ⟨Registry.paired_initial.register _ rfl, rfl, fun strict => rfl⟩

end TreeCodec
