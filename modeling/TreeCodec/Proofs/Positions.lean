import TreeCodec.Proofs.Keys

/-!
# Types within a type

Where in a tree a type meets which other types, said by the types alone:

* `Catalogue.Wraps`: a layer that is read from the tree of the layer below;
* `Codec.Reaches`: several such layers, down to a type that no hook reads;
* `Codec.At`: the types that a type meets at a path, those of inlined fields among them;
* `Codec.Everywhere`: what holds of all of them;
* `Codec.Asks`: which keys of an object a type reads, and as what.
-/

namespace TreeCodec

/-- A type is read from the tree that another one is read from: it holds that one or has it
on loan. -/
inductive Catalogue.Wraps (c : Catalogue) : Ty → Ty → Prop
  | content {ty t : Ty} (layer : c.below ty = .content t) : Wraps c ty t
  | loan (t : Ty) : Wraps c (.pointer .borrowed t) t

/-- A type wraps at most one type. -/
theorem Catalogue.Wraps.unique {c : Catalogue} {ty t u : Ty} (layer : c.below ty = .content t)
    (h : c.Wraps ty u) : u = t := by
  cases h with
  | content layer' => cases layer.symm.trans layer'; rfl
  | loan => cases layer

theorem Catalogue.Wraps.eq {c : Catalogue} {ty t u : Ty} (h : c.Wraps ty t) (h' : c.Wraps ty u) :
    u = t := by
  cases h with
  | content layer => exact h'.unique layer
  | loan =>
    cases h' with
    | content layer => cases layer
    | loan => rfl

/-- A wrapper is no map. -/
theorem Catalogue.Wraps.not_entries {c : Catalogue} {ty t u : Ty} (h : c.Wraps ty t) :
    c.below ty ≠ .entries u := by
  cases h with
  | content layer => simp [layer]
  | loan => rintro ⟨⟩

/-- A record wraps nothing. -/
theorem Catalogue.not_wraps_record {c : Catalogue} {ty t : Ty} {fs : List Field}
    (layer : c.below ty = .record fs) : ¬ c.Wraps ty t := by
  intro h
  cases h with
  | content layer' => simp [layer] at layer'
  | loan => cases layer

/-- Records are declared. -/
theorem Catalogue.record_of_below {c : Catalogue} {ty : Ty} {fs : List Field}
    (layer : c.below ty = .record fs) :
    ∃ name, ty = .named name ∧ c.body? name = some (.record fs) := by
  cases ty with
  | pointer p t => cases p <;> cases layer
  | named name =>
    refine ⟨name, rfl, ?_⟩
    rcases body : c.body? name with _ | b
    · simp [below, body] at layer
    · cases b <;> simp_all [below]
  | _ => cases layer

/-- What is declared is among the declarations. -/
theorem Catalogue.mem_of_body? {c : Catalogue} {name : String} {b : Body} (h : c.body? name = some b) :
    ∃ e ∈ c.decls, e.2.body = b := by
  obtain ⟨decl, found, rfl⟩ := Option.map_eq_some_iff.mp h
  obtain ⟨before, after, split, -⟩ := List.lookup_eq_some_iff.mp found
  exact ⟨(name, decl), by rw [split]; simp, rfl⟩

/-- Routes inline points only. -/
theorem Catalogue.inlined_route {name : String} {fs : List Field} {f : Field}
    (body : Catalogue.route.body? name = some (.record fs)) (hf : f ∈ fs)
    (inline : f.inline = true) : f.ty = .pointer .owned (.named "point") := by
  obtain ⟨e, he, body⟩ := mem_of_body? body
  simp only [route, List.mem_cons, List.not_mem_nil, or_false] at he
  rcases he with rfl | rfl <;> cases body <;>
    simp only [List.mem_cons, List.not_mem_nil, or_false] at hf
  · rcases hf with rfl | rfl <;> cases inline
  · rcases hf with rfl | rfl | rfl | rfl <;> cases inline
    rfl

namespace Codec

/-- Below wrappers without hooks, none or more of them, stands a type without hook. -/
inductive Reaches (cx : Codec) : Ty → Ty → Prop
  | here {ty : Ty} (hook : cx.registry.decoder? ty = none) : Reaches cx ty ty
  | wrapped {ty t u : Ty} (hook : cx.registry.decoder? ty = none)
    (layer : cx.catalogue.Wraps ty t) (h : Reaches cx t u) : Reaches cx ty u

/-- A type reaches a record. -/
def HoldsRecord (cx : Codec) (ty : Ty) : Prop :=
  ∃ u fs, cx.Reaches ty u ∧ cx.catalogue.below u = .record fs

/-- The types that a type meets in a tree, by the path to where it meets them. What a hook
reads is closed to it. -/
inductive At (cx : Codec) : Ty → Path → Ty → Prop
  | here (ty : Ty) : At cx ty [] ty
  | wrapped {ty t u : Ty} {p : Path} (hook : cx.registry.decoder? ty = none)
    (layer : cx.catalogue.Wraps ty t) (h : At cx t p u) : At cx ty p u
  | item {ty t u : Ty} {item? : Nat → Option Ty} {i : Nat} {p : Path}
    (hook : cx.registry.decoder? ty = none) (layer : cx.catalogue.below ty = .items item?)
    (ht : item? i = some t) (h : At cx t p u) : At cx ty (.index i :: p) u
  | entry {ty t u : Ty} {p : Path} (hook : cx.registry.decoder? ty = none)
    (layer : cx.catalogue.below ty = .entries t) (k : String) (h : At cx t p u) :
    At cx ty (.key k :: p) u
  | field {ty u : Ty} {fs : List Field} {f : Field} {p : Path}
    (hook : cx.registry.decoder? ty = none) (layer : cx.catalogue.below ty = .record fs)
    (hf : f ∈ fs) (kept : f.skipped = false) (apart : f.inline = false) (h : At cx f.ty p u) :
    At cx ty (.key f.key :: p) u
  | inlined {ty u : Ty} {fs : List Field} {f : Field} {p : Path}
    (hook : cx.registry.decoder? ty = none) (layer : cx.catalogue.below ty = .record fs)
    (hf : f ∈ fs) (kept : f.skipped = false) (inline : f.inline = true) (h : At cx f.ty p u) :
    At cx ty p u

/-- The keys that a type reads in the object it is read from, each with the type that reads
what stands there. A record reads the keys of the records that it inlines. -/
inductive Asks (cx : Codec) : Ty → String → Ty → Prop
  | wrapped {ty t u : Ty} {k : String} (hook : cx.registry.decoder? ty = none)
    (layer : cx.catalogue.Wraps ty t) (h : Asks cx t k u) : Asks cx ty k u
  | own {ty : Ty} {fs : List Field} {f : Field} (hook : cx.registry.decoder? ty = none)
    (layer : cx.catalogue.below ty = .record fs) (hf : f ∈ fs) (kept : f.skipped = false)
    (apart : f.inline = false) : Asks cx ty f.key f.ty
  | inlined {ty u : Ty} {fs : List Field} {f : Field} {k : String}
    (hook : cx.registry.decoder? ty = none) (layer : cx.catalogue.below ty = .record fs)
    (hf : f ∈ fs) (kept : f.skipped = false) (inline : f.inline = true)
    (h : Asks cx f.ty k u) : Asks cx ty k u

section Asks

variable {cx : Codec} {ty t u : Ty} {k : String}

theorem asks_content (hook : cx.registry.decoder? ty = none)
    (layer : cx.catalogue.below ty = .content t) : cx.Asks ty k u ↔ cx.Asks t k u := by
  refine ⟨fun h => ?_, .wrapped hook (.content layer)⟩
  cases h with
  | wrapped _ layer' h => exact layer'.unique layer ▸ h
  | own _ layer' => simp [layer] at layer'
  | inlined _ layer' => simp [layer] at layer'

/-- A record asks for what its fields ask for. -/
theorem asks_record {fs : List Field} (hook : cx.registry.decoder? ty = none)
    (layer : cx.catalogue.below ty = .record fs) :
    cx.Asks ty k u ↔ ∃ f ∈ fs, f.skipped = false ∧
      (f.inline = false ∧ k = f.key ∧ u = f.ty ∨ f.inline = true ∧ cx.Asks f.ty k u) := by
  constructor
  · intro h
    cases h with
    | wrapped _ layer' => exact absurd layer' (Catalogue.not_wraps_record layer)
    | own _ layer' hf kept apart =>
      cases layer.symm.trans layer'
      exact ⟨_, hf, kept, .inl ⟨apart, rfl, rfl⟩⟩
    | inlined _ layer' hf kept inline h =>
      cases layer.symm.trans layer'
      exact ⟨_, hf, kept, .inr ⟨inline, h⟩⟩
  · rintro ⟨f, hf, kept, ⟨apart, rfl, rfl⟩ | ⟨inline, h⟩⟩
    · exact .own hook layer hf kept apart
    · exact .inlined hook layer hf kept inline h

end Asks

/-- What holds of a type and of all types that it meets. -/
def Everywhere (cx : Codec) (Q : Ty → Prop) (ty : Ty) : Prop := ∀ p u, cx.At ty p u → Q u

namespace Everywhere

variable {cx : Codec} {Q : Ty → Prop} {ty t : Ty}

theorem here (h : cx.Everywhere Q ty) : Q ty := h [] ty (.here ty)

theorem wrapped (h : cx.Everywhere Q ty) (hook : cx.registry.decoder? ty = none)
    (layer : cx.catalogue.Wraps ty t) : cx.Everywhere Q t :=
  fun p u at' => h p u (.wrapped hook layer at')

theorem item {item? : Nat → Option Ty} {i : Nat} (h : cx.Everywhere Q ty)
    (hook : cx.registry.decoder? ty = none) (layer : cx.catalogue.below ty = .items item?)
    (ht : item? i = some t) : cx.Everywhere Q t :=
  fun p u at' => h (.index i :: p) u (.item hook layer ht at')

theorem entry (h : cx.Everywhere Q ty) (hook : cx.registry.decoder? ty = none)
    (layer : cx.catalogue.below ty = .entries t) : cx.Everywhere Q t :=
  fun p u at' => h (.key "" :: p) u (.entry hook layer "" at')

theorem field {fs : List Field} {f : Field} (h : cx.Everywhere Q ty)
    (hook : cx.registry.decoder? ty = none) (layer : cx.catalogue.below ty = .record fs)
    (hf : f ∈ fs) (kept : f.skipped = false) : cx.Everywhere Q f.ty := by
  rcases inline : f.inline with _ | _
  · exact fun p u at' => h (.key f.key :: p) u (.field hook layer hf kept inline at')
  · exact fun p u at' => h p u (.inlined hook layer hf kept inline at')

end Everywhere

/-- The inlined fields of a type that is a record satisfy a condition on their type. -/
def InlinesOnly (cx : Codec) (P : Ty → Prop) (ty : Ty) : Prop :=
  cx.registry.decoder? ty = none → ∀ fs, cx.catalogue.below ty = .record fs →
    ∀ f ∈ fs, f.skipped = false → f.inline = true → P f.ty

/-- A catalogue all of whose records satisfy a condition on inlined fields. -/
theorem inlinesOnly_of_records {cx : Codec} {P : Ty → Prop}
    (h : ∀ name fs, cx.catalogue.body? name = some (.record fs) → ∀ f ∈ fs, f.inline = true → P f.ty)
    (ty : Ty) : cx.InlinesOnly P ty := by
  intro _ fs layer f hf _ inline
  obtain ⟨name, -, body⟩ := Catalogue.record_of_below layer
  exact h name fs body f hf inline

end Codec

end TreeCodec
