import TreeCodec.Proofs.Keys

/-!
# Unknown keys of a tree

Which keys of a tree no field consumes, said by the type and the tree alone, layer by layer:

* `Codec.Unknown`: below a tree, the keys of its own objects included;
* `Codec.UnknownPart`: below an object whose own keys are left to the record that it is
  part of;
* `Codec.unknown_content`, `Codec.unknown_items`, `Codec.unknown_entries`,
  `Codec.unknown_record`: what that comes to at each kind of layer.
-/

namespace TreeCodec

namespace Codec

mutual

/-- The paths of the keys that no field consumes, in a tree at path `p` as a type reads
it. Null has none, nor has what a hook reads. -/
inductive Unknown (cx : Codec) : Ty → Tree → Path → Path → Prop
  | content {ty t : Ty} {x : Tree} {p q : Path} (hook : cx.registry.decoder? ty = none)
    (layer : cx.catalogue.below ty = .content t) (hx : x ≠ .null) (h : Unknown cx t x p q) :
    Unknown cx ty x p q
  | item {ty t : Ty} {item? : Nat → Option Ty} {xs : List Tree} {x : Tree} {i : Nat} {p q : Path}
    (hook : cx.registry.decoder? ty = none) (layer : cx.catalogue.below ty = .items item?)
    (ht : item? i = some t) (hx : xs[i]? = some x) (h : Unknown cx t x (p ++ [.index i]) q) :
    Unknown cx ty (.array xs) p q
  | key {ty : Ty} {fs : List Field} {o : Object} {k : String} {p : Path}
    (hook : cx.registry.decoder? ty = none) (layer : cx.catalogue.below ty = .record fs)
    (hk : k ∈ Object.keys o) (h : ¬ cx.Consumes ty k) :
    Unknown cx ty (.object o) p (p ++ [.key k])
  | part {ty : Ty} {o : Object} {p q : Path} (h : UnknownPart cx ty o p q) :
    Unknown cx ty (.object o) p q

/-- As `Unknown`, of an object whose own keys are another type's: the type reads it as
part of a record that inlines the type. -/
inductive UnknownPart (cx : Codec) : Ty → Object → Path → Path → Prop
  | content {ty t : Ty} {o : Object} {p q : Path} (hook : cx.registry.decoder? ty = none)
    (layer : cx.catalogue.below ty = .content t) (h : UnknownPart cx t o p q) :
    UnknownPart cx ty o p q
  | entry {ty t : Ty} {o : Object} {k : String} {x : Tree} {p q : Path}
    (hook : cx.registry.decoder? ty = none) (layer : cx.catalogue.below ty = .entries t)
    (hx : (k, x) ∈ o) (h : Unknown cx t x (p ++ [.key k]) q) : UnknownPart cx ty o p q
  | field {ty : Ty} {fs : List Field} {f : Field} {o : Object} {x : Tree} {p q : Path}
    (hook : cx.registry.decoder? ty = none) (layer : cx.catalogue.below ty = .record fs)
    (hf : f ∈ fs) (kept : f.skipped = false) (apart : f.inline = false)
    (hx : Object.find? o f.key = some x) (h : Unknown cx f.ty x (p ++ [.key f.key]) q) :
    UnknownPart cx ty o p q
  | inlined {ty : Ty} {fs : List Field} {f : Field} {o : Object} {p q : Path}
    (hook : cx.registry.decoder? ty = none) (layer : cx.catalogue.below ty = .record fs)
    (hf : f ∈ fs) (kept : f.skipped = false) (inline : f.inline = true)
    (h : UnknownPart cx f.ty o p q) : UnknownPart cx ty o p q

end

/-- The unknown keys below one field of a record, given the record's object. -/
def UnknownField (cx : Codec) (f : Field) (o : Object) (p q : Path) : Prop :=
  f.skipped = false ∧
    (f.inline = false ∧
        (∃ x, Object.find? o f.key = some x ∧ cx.Unknown f.ty x (p ++ [.key f.key]) q) ∨
      f.inline = true ∧ cx.UnknownPart f.ty o p q)

variable {cx : Codec} {ty t : Ty} {x : Tree} {o : Object} {p q : Path}

theorem not_unknown_null : ¬ cx.Unknown ty .null p q := by
  intro h
  cases h with
  | content _ _ hx => exact hx rfl

theorem not_unknownPart_of_hook {hook : Tree → Except Error Datum}
    (h : cx.registry.decoder? ty = some hook) : ¬ cx.UnknownPart ty o p q := by
  intro hu
  cases hu <;> simp_all

theorem not_unknown_of_hook {hook : Tree → Except Error Datum}
    (h : cx.registry.decoder? ty = some hook) : ¬ cx.Unknown ty x p q := by
  intro hu
  cases hu with
  | part hu => exact not_unknownPart_of_hook h hu
  | _ => simp_all

theorem not_unknown_nothing (layer : cx.catalogue.below ty = .nothing) :
    ¬ cx.Unknown ty x p q := by
  intro h
  cases h with
  | part h => cases h <;> simp_all
  | _ => simp_all

theorem unknownPart_content (hook : cx.registry.decoder? ty = none)
    (layer : cx.catalogue.below ty = .content t) :
    cx.UnknownPart ty o p q ↔ cx.UnknownPart t o p q := by
  refine ⟨fun h => ?_, .content hook layer⟩
  cases h with
  | content _ layer' h => cases layer.symm.trans layer'; exact h
  | entry _ layer' => simp [layer] at layer'
  | field _ layer' => simp [layer] at layer'
  | inlined _ layer' => simp [layer] at layer'

theorem unknown_content (hook : cx.registry.decoder? ty = none)
    (layer : cx.catalogue.below ty = .content t) (hx : x ≠ .null) :
    cx.Unknown ty x p q ↔ cx.Unknown t x p q := by
  refine ⟨fun h => ?_, .content hook layer hx⟩
  cases h with
  | content _ layer' _ h => cases layer.symm.trans layer'; exact h
  | item _ layer' => simp [layer] at layer'
  | key _ layer' => simp [layer] at layer'
  | part h => exact .part ((unknownPart_content hook layer).mp h)

theorem unknown_items {item? : Nat → Option Ty} {xs : List Tree}
    (hook : cx.registry.decoder? ty = none) (layer : cx.catalogue.below ty = .items item?) :
    cx.Unknown ty (.array xs) p q ↔
      ∃ i t x, item? i = some t ∧ xs[i]? = some x ∧ cx.Unknown t x (p ++ [.index i]) q := by
  constructor
  · intro h
    cases h with
    | content _ layer' => simp [layer] at layer'
    | item _ layer' ht hx h =>
      cases layer.symm.trans layer'
      exact ⟨_, _, _, ht, hx, h⟩
  · rintro ⟨i, t, x, ht, hx, h⟩
    exact .item hook layer ht hx h

/-- Bytes are items that stand in a text. -/
theorem not_unknown_text {item? : Nat → Option Ty} {s : String}
    (layer : cx.catalogue.below ty = .items item?) : ¬ cx.Unknown ty (.string s) p q := by
  intro h
  cases h with
  | content _ layer' => simp [layer] at layer'

theorem unknownPart_entries (hook : cx.registry.decoder? ty = none)
    (layer : cx.catalogue.below ty = .entries t) :
    cx.UnknownPart ty o p q ↔ ∃ k x, (k, x) ∈ o ∧ cx.Unknown t x (p ++ [.key k]) q := by
  constructor
  · intro h
    cases h with
    | content _ layer' => simp [layer] at layer'
    | entry _ layer' hx h => cases layer.symm.trans layer'; exact ⟨_, _, hx, h⟩
    | field _ layer' => simp [layer] at layer'
    | inlined _ layer' => simp [layer] at layer'
  · rintro ⟨k, x, hx, h⟩
    exact .entry hook layer hx h

theorem unknown_entries (layer : cx.catalogue.below ty = .entries t) :
    cx.Unknown ty (.object o) p q ↔ cx.UnknownPart ty o p q := by
  refine ⟨fun h => ?_, .part⟩
  cases h with
  | content _ layer' => simp [layer] at layer'
  | key _ layer' => simp [layer] at layer'
  | part h => exact h

theorem unknownPart_record {fs : List Field} (hook : cx.registry.decoder? ty = none)
    (layer : cx.catalogue.below ty = .record fs) :
    cx.UnknownPart ty o p q ↔ ∃ f ∈ fs, cx.UnknownField f o p q := by
  constructor
  · intro h
    cases h with
    | content _ layer' => simp [layer] at layer'
    | entry _ layer' => simp [layer] at layer'
    | field _ layer' hf kept apart hx h =>
      cases layer.symm.trans layer'
      exact ⟨_, hf, kept, .inl ⟨apart, _, hx, h⟩⟩
    | inlined _ layer' hf kept inline h =>
      cases layer.symm.trans layer'
      exact ⟨_, hf, kept, .inr ⟨inline, h⟩⟩
  · rintro ⟨f, hf, kept, ⟨apart, x, hx, h⟩ | ⟨inline, h⟩⟩
    · exact .field hook layer hf kept apart hx h
    · exact .inlined hook layer hf kept inline h

theorem unknown_record {fs : List Field} (hook : cx.registry.decoder? ty = none)
    (layer : cx.catalogue.below ty = .record fs) :
    cx.Unknown ty (.object o) p q ↔
      cx.UnknownPart ty o p q ∨ ∃ k ∈ Object.keys o, ¬ cx.Consumes ty k ∧ q = p ++ [.key k] := by
  constructor
  · intro h
    cases h with
    | content _ layer' => simp [layer] at layer'
    | key _ _ hk h => exact .inr ⟨_, hk, h, rfl⟩
    | part h => exact .inl h
  · rintro (h | ⟨k, hk, h, rfl⟩)
    · exact .part h
    · exact .key hook layer hk h

end Codec

end TreeCodec
