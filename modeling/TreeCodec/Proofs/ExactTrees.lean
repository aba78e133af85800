import TreeCodec.Proofs.Unknown

/-!
# Exact trees

The trees that are read as they stand: nothing in them is converted, filled in or left out.

* `Tree.Ordered`: the objects of a tree list their entries by increasing key, which is how
  objects are built;
* `Catalogue.Inexact`: somewhere in a tree, as a type reads it, a number is of the other
  kind, null stands for a datum that is not written as null, or a field's key is missing;
* `Codec.Exact`: neither that nor an unknown key is found in a tree, and its objects are in
  order. It passes on to what is below, layer by layer.
-/

namespace TreeCodec

/-- The objects of a tree list their entries by increasing key. -/
inductive Tree.Ordered : Tree → Prop
  | null : Ordered .null
  | bool (b : Bool) : Ordered (.bool b)
  | int (n : Int64) : Ordered (.int n)
  | float (x : Binary64) : Ordered (.float x)
  | string (s : String) : Ordered (.string s)
  | array {xs : List Tree} (h : ∀ x ∈ xs, Ordered x) : Ordered (.array xs)
  | object {o : Object} (sorted : o.Sorted) (h : ∀ e ∈ o, Ordered e.2) : Ordered (.object o)

theorem Object.mem_of_find? {o : Object} {k : String} {x : Tree} (h : find? o k = some x) :
    (k, x) ∈ o := by
  obtain ⟨l, r, rfl, -⟩ := List.lookup_eq_some_iff.mp h
  simp

/-- The types with a datum that null is written for: options, slots, and pointers to such. -/
def Ty.admitsNull : Ty → Bool
  | .option _ => true
  | .tree => true
  | .pointer p t => p.holds && t.admitsNull
  | _ => false

/-- Somewhere in a tree there is what a type reads, but writes otherwise. -/
inductive Catalogue.Inexact (c : Catalogue) : Ty → Tree → Prop
  | null {ty : Ty} (h : ty.admitsNull = false) : Inexact c ty .null
  | int (n : Int64) : Inexact c .float64 (.int n)
  | float (k : IntTy) (y : Binary64) : Inexact c (.int k) (.float y)
  | missing {ty : Ty} {fs : List Field} {f : Field} {o : Object} (layer : c.below ty = .record fs)
    (hf : f ∈ fs) (kept : f.skipped = false) (apart : f.inline = false)
    (h : Object.find? o f.key = none) : Inexact c ty (.object o)
  | content {ty t : Ty} {x : Tree} (layer : c.below ty = .content t) (hx : x ≠ .null)
    (h : Inexact c t x) : Inexact c ty x
  | item {ty t : Ty} {item? : Nat → Option Ty} {xs : List Tree} {x : Tree} {i : Nat}
    (layer : c.below ty = .items item?) (ht : item? i = some t) (hx : xs[i]? = some x)
    (h : Inexact c t x) : Inexact c ty (.array xs)
  | entry {ty t : Ty} {o : Object} {e : String × Tree} (layer : c.below ty = .entries t)
    (he : e ∈ o) (h : Inexact c t e.2) : Inexact c ty (.object o)
  | field {ty : Ty} {fs : List Field} {f : Field} {o : Object} {x : Tree}
    (layer : c.below ty = .record fs) (hf : f ∈ fs) (kept : f.skipped = false)
    (apart : f.inline = false) (hx : Object.find? o f.key = some x) (h : Inexact c f.ty x) :
    Inexact c ty (.object o)
  | inlined {ty : Ty} {fs : List Field} {f : Field} {o : Object} (layer : c.below ty = .record fs)
    (hf : f ∈ fs) (kept : f.skipped = false) (inline : f.inline = true)
    (h : Inexact c f.ty (.object o)) : Inexact c ty (.object o)

namespace Catalogue

variable {c : Catalogue} {ty t : Ty} {x : Tree} {o : Object}

theorem inexact_null : c.Inexact ty .null ↔ ty.admitsNull = false := by
  refine ⟨fun h => ?_, .null⟩
  cases h with
  | null h => exact h
  | content _ hx => exact absurd rfl hx

theorem not_inexact_int (k : IntTy) (n : Int64) : ¬ c.Inexact (.int k) (.int n) := by
  intro h
  cases h with
  | content layer => cases layer

theorem inexact_content (layer : c.below ty = .content t) (hx : x ≠ .null) :
    c.Inexact ty x ↔ c.Inexact t x := by
  refine ⟨fun h => ?_, .content layer hx⟩
  cases h with
  | null => exact absurd rfl hx
  | int => cases layer
  | float => cases layer
  | content layer' _ h => cases layer.symm.trans layer'; exact h
  | missing layer' => simp [layer] at layer'
  | item layer' => simp [layer] at layer'
  | entry layer' => simp [layer] at layer'
  | field layer' => simp [layer] at layer'
  | inlined layer' => simp [layer] at layer'

theorem inexact_entries (layer : c.below ty = .entries t) :
    c.Inexact ty (.object o) ↔ ∃ e ∈ o, c.Inexact t e.2 := by
  refine ⟨fun h => ?_, fun ⟨e, he, h⟩ => .entry layer he h⟩
  cases h with
  | content layer' => simp [layer] at layer'
  | missing layer' => simp [layer] at layer'
  | entry layer' he h => cases layer.symm.trans layer'; exact ⟨_, he, h⟩
  | field layer' => simp [layer] at layer'
  | inlined layer' => simp [layer] at layer'

/-- A record whose fields all have keys of their own. -/
theorem not_inexact_record {fs : List Field} (layer : c.below ty = .record fs)
    (h : ∀ f ∈ fs, f.inline = false ∧ ∃ x, Object.find? o f.key = some x ∧ ¬ c.Inexact f.ty x) :
    ¬ c.Inexact ty (.object o) := by
  intro hi
  cases hi with
  | content layer' => simp [layer] at layer'
  | missing layer' hf _ _ missing =>
    cases layer.symm.trans layer'
    obtain ⟨-, x, hx, -⟩ := h _ hf
    cases missing.symm.trans hx
  | entry layer' => simp [layer] at layer'
  | field layer' hf _ _ hx hi =>
    cases layer.symm.trans layer'
    obtain ⟨-, x, hx', exact⟩ := h _ hf
    cases hx.symm.trans hx'
    exact exact hi
  | inlined layer' hf _ inline =>
    cases layer.symm.trans layer'
    rw [(h _ hf).1] at inline
    cases inline

end Catalogue

namespace Codec

/-- A tree at path `p` that a type reads as it stands. -/
structure Exact (cx : Codec) (ty : Ty) (x : Tree) (p : Path) : Prop where
  ordered : x.Ordered
  exact : ¬ cx.catalogue.Inexact ty x
  known (q : Path) : ¬ cx.Unknown ty x p q

/-- An object at path `p` that a type reads as it stands, but for keys that are left to the
record that the type is part of. -/
structure ExactPart (cx : Codec) (ty : Ty) (o : Object) (p : Path) : Prop where
  ordered : (Tree.object o).Ordered
  exact : ¬ cx.catalogue.Inexact ty (.object o)
  known (q : Path) : ¬ cx.UnknownPart ty o p q

variable {cx : Codec} {ty t : Ty} {x : Tree} {o : Object} {p : Path}

theorem Exact.content (h : cx.Exact ty x p) (hook : cx.registry.decoder? ty = none)
    (layer : cx.catalogue.below ty = .content t) (hx : x ≠ .null) : cx.Exact t x p where
  ordered := h.ordered
  exact hi := h.exact (.content layer hx hi)
  known q hu := h.known q (.content hook layer hx hu)

theorem Exact.item {item? : Nat → Option Ty} {xs : List Tree} {i : Nat}
    (h : cx.Exact ty (.array xs) p) (hook : cx.registry.decoder? ty = none)
    (layer : cx.catalogue.below ty = .items item?) (ht : item? i = some t) (hx : xs[i]? = some x) :
    cx.Exact t x (p ++ [.index i]) where
  ordered := by
    cases h.ordered with
    | array h => exact h x (List.mem_of_getElem? hx)
  exact hi := h.exact (.item layer ht hx hi)
  known q hu := h.known q (.item hook layer ht hx hu)

theorem Exact.entry {k : String} (h : cx.Exact ty (.object o) p)
    (hook : cx.registry.decoder? ty = none) (layer : cx.catalogue.below ty = .entries t)
    (hx : (k, x) ∈ o) : cx.Exact t x (p ++ [.key k]) where
  ordered := by
    cases h.ordered with
    | object _ h => exact h _ hx
  exact hi := h.exact (.entry layer hx hi)
  known q hu := h.known q (.part (.entry hook layer hx hu))

theorem Exact.part (h : cx.Exact ty (.object o) p) : cx.ExactPart ty o p where
  ordered := h.ordered
  exact := h.exact
  known q hu := h.known q (.part hu)

/-- A record that is a level of its own consumes all keys of its object. -/
theorem Exact.consumes {fs : List Field} (h : cx.Exact ty (.object o) p)
    (hook : cx.registry.decoder? ty = none) (layer : cx.catalogue.below ty = .record fs)
    {k : String} (hk : k ∈ Object.keys o) : cx.Consumes ty k := by
  refine Classical.byContradiction fun stray => ?_
  exact h.known _ (.key hook layer hk stray)

theorem ExactPart.sorted (h : cx.ExactPart ty o p) : o.Sorted := by
  cases h.ordered with
  | object sorted _ => exact sorted

theorem ExactPart.content (h : cx.ExactPart ty o p) (hook : cx.registry.decoder? ty = none)
    (layer : cx.catalogue.below ty = .content t) : cx.ExactPart t o p where
  ordered := h.ordered
  exact hi := h.exact (.content layer (by simp) hi)
  known q hu := h.known q (.content hook layer hu)

section Record

variable {fs : List Field} {f : Field} (h : cx.ExactPart ty o p)
  (hook : cx.registry.decoder? ty = none) (layer : cx.catalogue.below ty = .record fs)
  (hf : f ∈ fs) (kept : f.skipped = false)
include h hook layer hf kept

/-- What stands under the key of a field. -/
theorem ExactPart.field (apart : f.inline = false) :
    ∃ x, Object.find? o f.key = some x ∧ cx.Exact f.ty x (p ++ [.key f.key]) := by
  rcases hx : Object.find? o f.key with _ | x
  · exact absurd (.missing layer hf kept apart hx) h.exact
  · refine ⟨x, rfl, ?_, fun hi => h.exact (.field layer hf kept apart hx hi),
      fun q hu => h.known q (.field hook layer hf kept apart hx hu)⟩
    cases h.ordered with
    | object _ h => exact h _ (Object.mem_of_find? hx)

theorem ExactPart.inlined (inline : f.inline = true) : cx.ExactPart f.ty o p where
  ordered := h.ordered
  exact hi := h.exact (.inlined layer hf kept inline hi)
  known q hu := h.known q (.inlined hook layer hf kept inline hu)

end Record

end Codec

end TreeCodec
