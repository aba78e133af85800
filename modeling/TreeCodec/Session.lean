import TreeCodec.Codec

/-!
# Sessions

A run of conversions that share a codec, a cache of field information and a slot
for one datum, with a registry of hooks in the making. Hooks come into use when a
codec is built from the registry.

* `Session.step` carries one step out and says what came of it;
* `Session.run` carries out several and keeps the session after each.
-/

namespace TreeCodec

structure Session where
  /-- The hooks that the next codec is built with. -/
  registry : Registry
  codec : Codec
  cache : FieldCache
  slot? : Option (Ty × Datum)

namespace Session

inductive Step
  /-- Adds the hooks of a type to the registry. -/
  | register (ty : Ty) (hook : Hook)
  | resetHooks
  /-- Builds a codec from the registry, with the cache so far or an empty one. -/
  | build (keepCache : Bool) (depth? : Option Nat)
  /-- Goes on with a copy of the codec, which shares its cache. -/
  | clone
  /-- Asks for the information of a type's field. -/
  | resolve (ty : Ty) (index : Nat)
  | setSlot (ty : Ty) (d : Datum)
  /-- Reads an object into the slot. -/
  | into (o : Object) (strict : Bool)
  /-- Writes the slot. -/
  | encodeSlot
  | toTree (ty : Ty) (d : Datum)
  | toObject (ty : Ty) (d : Datum)
  | fromTree (ty : Ty) (t : Tree) (strict : Bool)
  | fromObject (ty : Ty) (o : Object) (strict : Bool)
  | transcode (src dst : Ty) (d : Datum) (strict : Bool)

/-- What came of a step. -/
inductive Outcome
  /-- The number of types in the registry. -/
  | registered (size : Nat)
  | cacheEmpty (b : Bool)
  | info (i : FieldInfo)
  | noSuchField
  | slot (ty : Ty) (d : Datum)
  | noSlot
  /-- Whether a reading into the slot succeeded, and the slot after it. -/
  | into (result : Except Error Unit) (ty : Ty) (d : Datum)
  | tree (result : Except Error Tree)
  | object (result : Except Error Object)
  | datum (ty : Ty) (result : Except Error Datum)
  | transcript (dst : Ty) (t : Codec.Transcript)

/-- The session at its begin. -/
def start (catalogue : Catalogue) : Session where
  registry := .initial
  codec := .standard catalogue
  cache := .empty
  slot? := none

/-- The result of a computation with the session's cache, and the session with the
cache after it. -/
def convert {α : Type} (s : Session) (x : ConvertM α) : Except Error α × Session :=
  let (result, cache) := Id.run (x.run.run s.cache)
  (result, { s with cache })

/-- The result of a transcoding, each of whose stages may fail by itself. -/
def transcript (s : Session) (strict : Bool) (src dst : Ty) (d : Datum) :
    Codec.Transcript × Session :=
  match s.convert (s.codec.transcode strict src dst d) with
  | (.ok t, s) => (t, s)
  | (.error e, s) => ({ tree := .error e }, s)

def step (s : Session) : Step → Outcome × Session
  | .register ty hook =>
    let registry := s.registry.register ty hook
    (.registered registry.size, { s with registry })
  | .resetHooks => (.registered Registry.initial.size, { s with registry := .initial })
  | .build keepCache depth? =>
    let codec : Codec := ⟨s.codec.catalogue, s.registry, depth?.getD Codec.defaultDepth⟩
    let cache := if keepCache then s.cache else .empty
    (.registered s.registry.size, { s with codec, cache })
  | .clone => (.cacheEmpty (s.cache.size == 0), s)
  | .resolve ty index =>
    match (s.codec.catalogue.fields ty)[index]? with
    | some f =>
      let (info, cache) := s.cache.resolve ty index f
      (.info info, { s with cache })
    | none => (.noSuchField, s)
  | .setSlot ty d => (.slot ty d, { s with slot? := some (ty, d) })
  | .into o strict =>
    match s.slot? with
    | none => (.noSlot, s)
    | some (ty, old) =>
      match s.convert (s.codec.fromObject strict ty o) with
      | (.ok new, s) => (.into (.ok ()) ty new, { s with slot? := some (ty, new) })
      | (.error e, s) => (.into (.error e) ty old, s)
  | .encodeSlot =>
    match s.slot? with
    | none => (.noSlot, s)
    | some (ty, d) =>
      let (result, s) := s.convert (s.codec.toTree ty d)
      (.tree result, s)
  | .toTree ty d =>
    let (result, s) := s.convert (s.codec.toTree ty d)
    (.tree result, s)
  | .toObject ty d =>
    let (result, s) := s.convert (s.codec.toObject ty d)
    (.object result, s)
  | .fromTree ty t strict =>
    let (result, s) := s.convert (s.codec.fromTree strict ty t)
    (.datum ty result, s)
  | .fromObject ty o strict =>
    let (result, s) := s.convert (s.codec.fromObject strict ty o)
    (.datum ty result, s)
  | .transcode src dst d strict =>
    let (t, s) := s.transcript strict src dst d
    (.transcript dst t, s)

/-- Each step's outcome, with the session after it. -/
def run (s : Session) : List Step → List (Outcome × Session)
  | [] => []
  | st :: rest =>
    let next := s.step st
    next :: run next.2 rest

end Session

end TreeCodec
