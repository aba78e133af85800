import TreeCodec.Proofs.Positions
import TreeCodec.Proofs.Recovery

/-!
# Keys that written trees leave unknown

What is to be shown of a tree that was written: no key is unknown in it but those that a
record holds for what it inlines and what is no record, such as a map.

* `Codec.Absorbs`: an inlined field that may put such keys into the object of its record, and
  `Codec.Absorbed` the paths to them;
* `Codec.Accounted`: what is asked of a tree, `Codec.PartAccounted` of the object of a record
  that others may share;
* `Codec.FieldsAccounted.cons`: fields that consume different keys do not disturb one another;
* `Codec.Accounted.field`: what a field contributes is accounted for if its tree is.
-/

namespace TreeCodec

namespace Codec

/-! ## Paths of unknown keys -/

mutual

/-- What is unknown in a tree is below the tree. -/
theorem Unknown.extends {cx : Codec} : ∀ {ty : Ty} {x : Tree} {p q : Path}, cx.Unknown ty x p q →
    ∃ rest, q = p ++ rest
  | _, _, _, _, .content _ _ _ h => h.extends
  | _, _, _, _, .item _ _ _ _ h => by
    obtain ⟨rest, rfl⟩ := h.extends
    exact ⟨_, List.append_assoc ..⟩
  | _, _, _, _, .key _ _ _ _ => ⟨_, rfl⟩
  | _, _, _, _, .part h => by
    obtain ⟨k, rest, rfl⟩ := h.enters
    exact ⟨_, rfl⟩

/-- What is unknown in a part of an object is under a key of the object. -/
theorem UnknownPart.enters {cx : Codec} : ∀ {ty : Ty} {o : Object} {p q : Path},
    cx.UnknownPart ty o p q → ∃ k rest, q = p ++ .key k :: rest
  | _, _, _, _, .content _ _ h => h.enters
  | _, _, _, _, .entry _ _ _ h => by
    obtain ⟨rest, rfl⟩ := h.extends
    exact ⟨_, rest, List.append_assoc ..⟩
  | _, _, _, _, .field _ _ _ _ _ _ h => by
    obtain ⟨rest, rfl⟩ := h.extends
    exact ⟨_, rest, List.append_assoc ..⟩
  | _, _, _, _, .inlined _ _ _ _ _ h => h.enters

end

/-- An inlined field of the type may put keys into the object of its record that no field
consumes: the type is neither a record nor a wrapper, or there is such a type below wrappers
and inlined records. -/
inductive Absorbs (cx : Codec) : Ty → Prop
  | other {ty : Ty} (content : ∀ t, cx.catalogue.below ty ≠ .content t)
    (record : ∀ fs, cx.catalogue.below ty ≠ .record fs) : Absorbs cx ty
  | content {ty t : Ty} (layer : cx.catalogue.below ty = .content t) (h : Absorbs cx t) :
    Absorbs cx ty
  | inlined {ty : Ty} {fs : List Field} {f : Field} (layer : cx.catalogue.below ty = .record fs)
    (hf : f ∈ fs) (kept : f.skipped = false) (inline : f.inline = true) (h : Absorbs cx f.ty) :
    Absorbs cx ty

/-- A path that leads from a type into a record with a field that absorbs keys. -/
def Absorbed (cx : Codec) (ty : Ty) (q : Path) : Prop :=
  ∃ r k rest u fs, q = r ++ .key k :: rest ∧ cx.At ty r u ∧ cx.catalogue.below u = .record fs ∧
    cx.Absorbs u

/-- The fields of a type that is a record consume different keys. -/
def KeysApart (cx : Codec) (ty : Ty) : Prop :=
  ∀ fs, cx.catalogue.below ty = .record fs →
    fs.Pairwise fun f g => ∀ k, cx.FieldConsumes f k → ¬ cx.FieldConsumes g k

variable {cx : Codec} {ty t : Ty} {x : Tree} {o : Object} {p q : Path}

/-- A catalogue all of whose records have fields that consume different keys. -/
theorem keysApart_of_records
    (h : ∀ name fs, cx.catalogue.body? name = some (.record fs) →
      fs.Pairwise fun f g => ∀ k, cx.FieldConsumes f k → ¬ cx.FieldConsumes g k)
    (ty : Ty) : cx.KeysApart ty := by
  intro fs layer
  obtain ⟨name, -, body⟩ := Catalogue.record_of_below layer
  exact h name fs body

/-- A type that absorbs nothing finds what is unknown to it under a key that it consumes. -/
theorem UnknownPart.absorbs_or_finds : ∀ {ty : Ty}, cx.UnknownPart ty o p q →
    cx.Absorbs ty ∨ ∃ k x, cx.Consumes ty k ∧ Object.find? o k = some x
  | _, .content hook layer h => by
    rcases h.absorbs_or_finds with h | ⟨k, x, hk, hx⟩
    · exact .inl (.content layer h)
    · exact .inr ⟨k, x, .content hook layer hk, hx⟩
  | _, .entry _ layer _ _ => .inl (.other (by simp [layer]) (by simp [layer]))
  | _, .field hook layer hf kept apart hx _ => .inr ⟨_, _, .own hook layer hf kept apart, hx⟩
  | _, .inlined hook layer hf kept inline h => by
    rcases h.absorbs_or_finds with h | ⟨k, x, hk, hx⟩
    · exact .inl (.inlined layer hf kept inline h)
    · exact .inr ⟨k, x, .inlined hook layer hf kept inline hk, hx⟩

section Absorbed

variable {rest : Path}

theorem Absorbed.wrapped (hook : cx.registry.decoder? ty = none)
    (layer : cx.catalogue.below ty = .content t) : cx.Absorbed t rest → cx.Absorbed ty rest :=
  fun ⟨r, k, rest, u, fs, split, at', record⟩ =>
    ⟨r, k, rest, u, fs, split, .wrapped hook (.content layer) at', record⟩

theorem Absorbed.item {item? : Nat → Option Ty} {i : Nat} (hook : cx.registry.decoder? ty = none)
    (layer : cx.catalogue.below ty = .items item?) (ht : item? i = some t) :
    cx.Absorbed t rest → cx.Absorbed ty (.index i :: rest) :=
  fun ⟨r, k, rest, u, fs, split, at', record⟩ =>
    ⟨.index i :: r, k, rest, u, fs, by rw [split]; rfl, .item hook layer ht at', record⟩

theorem Absorbed.entry (hook : cx.registry.decoder? ty = none)
    (layer : cx.catalogue.below ty = .entries t) (key : String) :
    cx.Absorbed t rest → cx.Absorbed ty (.key key :: rest) :=
  fun ⟨r, k, rest, u, fs, split, at', record⟩ =>
    ⟨.key key :: r, k, rest, u, fs, by rw [split]; rfl, .entry hook layer key at', record⟩

variable {fs : List Field} {f : Field} (hook : cx.registry.decoder? ty = none)
  (layer : cx.catalogue.below ty = .record fs) (hf : f ∈ fs) (kept : f.skipped = false)
include hook layer hf kept

theorem Absorbed.field (apart : f.inline = false) :
    cx.Absorbed f.ty rest → cx.Absorbed ty (.key f.key :: rest) :=
  fun ⟨r, k, rest, u, gs, split, at', record⟩ =>
    ⟨.key f.key :: r, k, rest, u, gs, by rw [split]; rfl, .field hook layer hf kept apart at', record⟩

theorem Absorbed.inlined (inline : f.inline = true) : cx.Absorbed f.ty rest → cx.Absorbed ty rest :=
  fun ⟨r, k, rest, u, gs, split, at', record⟩ =>
    ⟨r, k, rest, u, gs, split, .inlined hook layer hf kept inline at', record⟩

end Absorbed

/-! ## What is written -/

/-- The object of a record that absorbs nothing. All its keys are consumed, and whatever
object has the keys that the record consumes as this one has no unknown key of the record,
but for those that records further down absorb. -/
structure PartAccounted (cx : Codec) (ty : Ty) (es : List (String × Tree)) : Prop where
  own : ∀ k ∈ es.map (·.1), cx.Consumes ty k
  known {o : Object}
    (h : ∀ k, cx.Consumes ty k → Object.find? o k = Object.find? (Object.ofList es) k)
    {p q : Path} : cx.UnknownPart ty o p q → ∃ rest, q = p ++ rest ∧ cx.Absorbed ty rest

/-- A tree in which no key is unknown but those that records absorb. -/
structure Accounted (cx : Codec) (ty : Ty) (x : Tree) : Prop where
  known {p q : Path} : cx.Unknown ty x p q → ∃ rest, q = p ++ rest ∧ cx.Absorbed ty rest
  part {es : Object} : x = .object es → ¬ cx.Absorbs ty → cx.PartAccounted ty es

/-- The entries of a field of a record. -/
structure FieldAccounted (cx : Codec) (ty : Ty) (f : Field) (es : List (String × Tree)) : Prop where
  own : ∀ k ∈ es.map (·.1), cx.FieldConsumes f k
  known {o : Object}
    (h : ∀ k, cx.FieldConsumes f k → Object.find? o k = Object.find? (Object.ofList es) k)
    {p q : Path} : cx.UnknownField f o p q → ∃ rest, q = p ++ rest ∧ cx.Absorbed ty rest

/-- The entries of several fields of a record. -/
structure FieldsAccounted (cx : Codec) (ty : Ty) (fs : List Field) (es : List (String × Tree)) :
    Prop where
  own : ∀ k ∈ es.map (·.1), ∃ f ∈ fs, cx.FieldConsumes f k
  known {o : Object} (h : ∀ k, (∃ f ∈ fs, cx.FieldConsumes f k) →
      Object.find? o k = Object.find? (Object.ofList es) k)
    {p q : Path} : (∃ f ∈ fs, cx.UnknownField f o p q) → ∃ rest, q = p ++ rest ∧ cx.Absorbed ty rest

/-- A type that is neither a record nor a wrapper is no part of a record. -/
theorem Accounted.other (content : ∀ t, cx.catalogue.below ty ≠ .content t)
    (record : ∀ fs, cx.catalogue.below ty ≠ .record fs)
    (known : ∀ {p q}, cx.Unknown ty x p q → ∃ rest, q = p ++ rest ∧ cx.Absorbed ty rest) :
    cx.Accounted ty x :=
  ⟨known, fun _ plain => absurd (.other content record) plain⟩

theorem Accounted.leaf (layer : cx.catalogue.below ty = .nothing) : cx.Accounted ty x :=
  .other (by simp [layer]) (by simp [layer]) fun h => absurd h (not_unknown_nothing layer)

theorem Accounted.null : cx.Accounted ty .null :=
  ⟨fun h => absurd h not_unknown_null, nofun⟩

theorem Accounted.content (hook : cx.registry.decoder? ty = none)
    (layer : cx.catalogue.below ty = .content t) (h : cx.Accounted t x) : cx.Accounted ty x where
  known unknown := by
    by_cases hx : x = .null
    · exact absurd (hx ▸ unknown) not_unknown_null
    · obtain ⟨rest, rfl, absorbed⟩ := h.known ((unknown_content hook layer hx).mp unknown)
      exact ⟨rest, rfl, absorbed.wrapped hook layer⟩
  part hx plain := by
    have inner := h.part hx fun absorbs => plain (.content layer absorbs)
    refine ⟨fun k hk => .content hook layer (inner.own k hk), fun {o} same p q unknown => ?_⟩
    obtain ⟨rest, rfl, absorbed⟩ := inner.known (o := o)
      (fun k hk => same k (.content hook layer hk)) ((unknownPart_content hook layer).mp unknown)
    exact ⟨rest, rfl, absorbed.wrapped hook layer⟩

/-- A field that puts nothing there leaves nothing to find. -/
theorem FieldAccounted.empty {f : Field}
    (plain : f.skipped = false → f.inline = true → ¬ cx.Absorbs f.ty) :
    cx.FieldAccounted ty f [] := by
  refine ⟨nofun, fun {o} none p q unknown => ?_⟩
  obtain ⟨kept, ⟨apart, x, hx, -⟩ | ⟨inline, unknown⟩⟩ := unknown
  · rw [none _ ⟨kept, .inl ⟨apart, rfl⟩⟩] at hx
    cases hx
  · rcases unknown.absorbs_or_finds with absorbs | ⟨k, x, hk, hx⟩
    · exact absurd absorbs (plain kept inline)
    · rw [none k ⟨kept, .inr ⟨inline, hk⟩⟩] at hx
      cases hx

section Record

variable {fs : List Field} (hook : cx.registry.decoder? ty = none)
  (layer : cx.catalogue.below ty = .record fs)
include hook layer

theorem Accounted.field {f : Field} (hf : f ∈ fs) (kept : f.skipped = false)
    (plain : f.inline = true → ¬ cx.Absorbs f.ty) (h : cx.Accounted f.ty x)
    {es : List (String × Tree)} (entries : entriesOf f x = .ok es) : cx.FieldAccounted ty f es := by
  have empty : cx.FieldAccounted ty f [] := .empty fun _ => plain
  rcases inline : f.inline with _ | _
  · rw [entriesOf_apart inline] at entries
    split at entries
    · cases entries
      exact empty
    · cases entries
      have own : cx.FieldConsumes f f.key := ⟨kept, .inl ⟨inline, rfl⟩⟩
      refine ⟨fun k hk => ?_, fun {o} same p q unknown => ?_⟩
      · rw [List.mem_singleton.mp hk]
        exact own
      · obtain ⟨-, ⟨-, y, hy, unknown⟩ | ⟨inline', -⟩⟩ := unknown
        · obtain rfl : y = x := by
            rw [same _ own] at hy
            simpa [Object.ofList, Object.extend, Object.insert, Object.find?_cons] using hy.symm
          obtain ⟨rest, rfl, absorbed⟩ := h.known unknown
          exact ⟨_, List.append_assoc .., absorbed.field hook layer hf kept inline⟩
        · rw [inline] at inline'
          cases inline'
  · simp only [entriesOf, inline, if_true] at entries
    split at entries
    · cases entries
      have part := h.part rfl (plain inline)
      refine ⟨fun k hk => ⟨kept, .inr ⟨inline, part.own k hk⟩⟩, fun {o} same p q unknown => ?_⟩
      obtain ⟨-, ⟨apart, -⟩ | ⟨-, unknown⟩⟩ := unknown
      · rw [inline] at apart
        cases apart
      · obtain ⟨rest, rfl, absorbed⟩ := part.known (o := o)
          (fun k hk => same k ⟨kept, .inr ⟨inline, hk⟩⟩) unknown
        exact ⟨rest, rfl, absorbed.inlined hook layer hf kept inline⟩
    · cases entries
      exact empty
    · cases entries

end Record

theorem FieldsAccounted.nil : cx.FieldsAccounted ty [] [] := ⟨nofun, by simp⟩

/-- Fields that consume other keys than the ones behind them leave these alone. -/
theorem FieldsAccounted.cons {f : Field} {fs : List Field} {es rest : List (String × Tree)}
    (hf : cx.FieldAccounted ty f es) (hfs : cx.FieldsAccounted ty fs rest)
    (keys : ∀ g ∈ fs, ∀ k, cx.FieldConsumes f k → ¬ cx.FieldConsumes g k) :
    cx.FieldsAccounted ty (f :: fs) (es ++ rest) := by
  have now : Object.Decides (cx.FieldConsumes f) (fun o => ∀ p q, cx.UnknownField f o p q →
      ∃ rest, q = p ++ rest ∧ cx.Absorbed ty rest) es := ⟨hf.own, fun same _ _ => hf.known same⟩
  have behind : Object.Decides (fun k => ∃ g ∈ fs, cx.FieldConsumes g k)
      (fun o => ∀ p q, (∃ g ∈ fs, cx.UnknownField g o p q) →
        ∃ rest, q = p ++ rest ∧ cx.Absorbed ty rest) rest :=
    ⟨hfs.own, fun same _ _ => hfs.known same⟩
  have known := now.append behind fun k hk ⟨g, hg, hgk⟩ => keys g hg k hk hgk
  have either (k : String) : (∃ g ∈ f :: fs, cx.FieldConsumes g k) ↔
      cx.FieldConsumes f k ∨ ∃ g ∈ fs, cx.FieldConsumes g k := List.exists_mem_cons_iff ..
  refine ⟨fun k hk => (either k).mpr (known.own k hk), fun {o} same p q => ?_⟩
  have ⟨first, later⟩ := known.holds (o := o) fun k hk => same k ((either k).mpr hk)
  rintro ⟨g, hg, unknown⟩
  rcases List.mem_cons.mp hg with rfl | hg
  · exact first p q unknown
  · exact later p q ⟨g, hg, unknown⟩

end Codec

end TreeCodec
