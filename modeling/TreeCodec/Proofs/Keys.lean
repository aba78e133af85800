import TreeCodec.Codec

/-!
# Keys of a type

What a type asks of an object, said by the type alone, layer by layer:

* `Catalogue.below`: what is below a layer;
* `Codec.Consumes`: the keys that are a field's own, here or in a record inlined here;
* `Codec.FieldConsumes`: the keys of one field (`consumes_record`).

`Catalogue.route` is a catalogue to look at.
-/

namespace TreeCodec

/-- What is below a layer of a type. -/
inductive Below
  /-- A type that reads the same tree: what is optional, wrapped or pointed to. -/
  | content (t : Ty)
  /-- Items of an array, by their position. -/
  | items (item? : Nat → Option Ty)
  /-- Entries of an object, which read alike. -/
  | entries (value : Ty)
  /-- Fields of an object. -/
  | record (fs : List Field)
  | nothing

/-- Whether a pointer holds what it points to, so that it is read as its content. -/
def Pointer.holds : Pointer → Bool
  | .owned => true
  | .counted => true
  | .atomic => true
  | .borrowed => false
  | .weak => false

/-- What is below a layer of a type. Weak pointers and pointers on loan are not read. -/
def Catalogue.below (c : Catalogue) : Ty → Below
  | .option t => .content t
  | .pointer .owned t => .content t
  | .pointer .counted t => .content t
  | .pointer .atomic t => .content t
  | .nonZero k => .content (.int k)
  | .list t => .items fun _ => some t
  | .array t _ => .items fun _ => some t
  | .tuple ts => .items fun i => ts[i]?
  | .map _ _ value => .entries value
  | .named name =>
    match c.body? name with
    | some (.newtype t) => .content t
    | some (.record fs) => .record fs
    | some (.tuple fs) => .items fun i => (fs.map Field.ty)[i]?
    | _ => .nothing
  | _ => .nothing

namespace Catalogue

variable {c : Catalogue} {name : String}

theorem below_newtype {t : Ty} (body : c.body? name = some (.newtype t)) :
    c.below (.named name) = .content t := by
  simp only [below, body]

theorem below_record {fs : List Field} (body : c.body? name = some (.record fs)) :
    c.below (.named name) = .record fs := by
  simp only [below, body]

theorem below_positional {fs : List Field} (body : c.body? name = some (.tuple fs)) :
    c.below (.named name) = .items ((fs.map Field.ty)[·]?) := by
  simp only [below, body]

theorem below_enumeration {vs : List Variant} (body : c.body? name = some (.enumeration vs)) :
    c.below (.named name) = .nothing := by
  simp only [below, body]

theorem below_pointer (c : Catalogue) {p : Pointer} (holds : p.holds = true) (t : Ty) :
    c.below (.pointer p t) = .content t := by
  cases p <;> trivial

end Catalogue

/-- A route of stops, each of which has its point inlined and leads to the next one. -/
def Catalogue.route : Catalogue where
  decls :=
    [("point", { body := .record [{ key := "x", ty := .int .int64 }, { key := "y", ty := .int .int64 }] }),
      ("stop", { body := .record [
        { key := "label", ty := .string },
        { key := "at", ty := .pointer .owned (.named "point"), inline := true },
        { key := "notes", ty := .list .string, omitEmpty := true },
        { key := "next", ty := .option (.pointer .owned (.named "stop")) }] })]

namespace Codec

/-- The keys that a type consumes at the level of the object it is read from. A type with
a hook consumes none, nor does a map. -/
inductive Consumes (cx : Codec) : Ty → String → Prop
  | content {ty t : Ty} {k : String} (hook : cx.registry.decoder? ty = none)
    (layer : cx.catalogue.below ty = .content t) (h : Consumes cx t k) : Consumes cx ty k
  | own {ty : Ty} {fs : List Field} {f : Field} (hook : cx.registry.decoder? ty = none)
    (layer : cx.catalogue.below ty = .record fs) (hf : f ∈ fs) (kept : f.skipped = false)
    (apart : f.inline = false) : Consumes cx ty f.key
  | inlined {ty : Ty} {fs : List Field} {f : Field} {k : String}
    (hook : cx.registry.decoder? ty = none) (layer : cx.catalogue.below ty = .record fs)
    (hf : f ∈ fs) (kept : f.skipped = false) (inline : f.inline = true)
    (h : Consumes cx f.ty k) : Consumes cx ty k

/-- The keys that a field consumes: its own, or those of what it inlines. -/
def FieldConsumes (cx : Codec) (f : Field) (k : String) : Prop :=
  f.skipped = false ∧ (f.inline = false ∧ k = f.key ∨ f.inline = true ∧ cx.Consumes f.ty k)

variable {cx : Codec} {ty t : Ty} {k : String}

theorem not_consumes_of_hook {hook : Tree → Except Error Datum}
    (h : cx.registry.decoder? ty = some hook) : ¬ cx.Consumes ty k := by
  intro hc
  cases hc <;> simp_all

theorem consumes_content (hook : cx.registry.decoder? ty = none)
    (layer : cx.catalogue.below ty = .content t) : cx.Consumes ty k ↔ cx.Consumes t k := by
  refine ⟨fun h => ?_, .content hook layer⟩
  cases h with
  | content _ layer' h => cases layer.symm.trans layer'; exact h
  | own _ layer' => simp [layer] at layer'
  | inlined _ layer' => simp [layer] at layer'

/-- The keys of a record are those of its fields. -/
theorem consumes_record {fs : List Field} (hook : cx.registry.decoder? ty = none)
    (layer : cx.catalogue.below ty = .record fs) :
    cx.Consumes ty k ↔ ∃ f ∈ fs, cx.FieldConsumes f k := by
  constructor
  · intro h
    cases h with
    | content _ layer' => simp [layer] at layer'
    | own _ layer' hf kept apart =>
      cases layer.symm.trans layer'
      exact ⟨_, hf, kept, .inl ⟨apart, rfl⟩⟩
    | inlined _ layer' hf kept inline h =>
      cases layer.symm.trans layer'
      exact ⟨_, hf, kept, .inr ⟨inline, h⟩⟩
  · rintro ⟨f, hf, kept, ⟨apart, rfl⟩ | ⟨inline, h⟩⟩
    · exact .own hook layer hf kept apart
    · exact .inlined hook layer hf kept inline h

/-- Maps consume nothing. -/
theorem not_consumes_entries (layer : cx.catalogue.below ty = .entries t) : ¬ cx.Consumes ty k := by
  intro h
  cases h with
  | content _ layer' => simp [layer] at layer'
  | own _ layer' => simp [layer] at layer'
  | inlined _ layer' => simp [layer] at layer'

/-- The standard codec of routes. -/
def route : Codec := .standard .route

end Codec

end TreeCodec
