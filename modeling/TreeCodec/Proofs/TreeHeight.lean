import TreeCodec.Proofs.ExactTrees
import TreeCodec.Proofs.Lossless
import TreeCodec.Proofs.Reading
import TreeCodec.Proofs.UnknownKeys
import TreeCodec.Proofs.Written

/-!
# How high trees may be

A depth limit bounds the height of the trees that are written, and of those that are read
strictly, but for what slots hold: a slot takes one level, however high the tree in it
(`limit_bounds_height`, `slots_escape_limit`).

* `Tree.height`: the number of trees within one another;
* `Codec.height_encode`: what is written at a depth is no higher than that, but for slots;
* `Codec.ReadsLayer`, `Codec.ReadsObject`: the ways in which a layer is read;
* `Codec.Keeps`: the trees within a tree that slots keep whole;
* `Codec.bounded_decoder`: what is read at a depth, all keys being known, is no higher than
  that, but for slots.
-/

namespace TreeCodec

/-! ## Heights -/

namespace Tree

mutual

/-- The height of a tree: null and scalars have height one, an array or an object is one
higher than the highest tree in it. -/
def height : Tree → Nat
  | array items => heights items + 1
  | object entries => entryHeights entries + 1
  | _ => 1

/-- The height of the highest of several trees. -/
def heights : List Tree → Nat
  | [] => 0
  | x :: xs => Nat.max x.height (heights xs)

/-- The height of the highest tree of several entries. -/
def entryHeights : List (String × Tree) → Nat
  | [] => 0
  | (_, x) :: es => Nat.max x.height (entryHeights es)

end

theorem height_of_family {x : Tree} (scalar : x.family?.isSome) : x.height = 1 := by
  cases x <;> first | rfl | cases scalar

theorem height_lt_of_entry {o : Object} {e : String × Tree} (h : e ∈ o) :
    e.2.height < (object o).height := by
  rw [height, Nat.lt_succ_iff]
  induction o with
  | nil => cases h
  | cons e' o ih =>
    rw [entryHeights]
    rcases List.mem_cons.mp h with rfl | h
    · exact Nat.le_max_left ..
    · exact Nat.le_trans (ih h) (Nat.le_max_right ..)

theorem height_array_lt {xs : List Tree} {n : Nat} (positive : 0 < n) (h : ∀ x ∈ xs, x.height < n) :
    (array xs).height < n + 1 := by
  rw [height, Nat.add_lt_add_iff_right]
  induction xs with
  | nil => exact positive
  | cons x xs ih =>
    have ⟨first, rest⟩ := List.forall_mem_cons.mp h
    exact Nat.max_lt.mpr ⟨first, ih rest⟩

theorem height_object_lt {o : Object} {n : Nat} (positive : 0 < n) (h : ∀ e ∈ o, e.2.height < n) :
    (object o).height < n + 1 := by
  rw [height, Nat.add_lt_add_iff_right]
  induction o with
  | nil => exact positive
  | cons e o ih =>
    have ⟨first, rest⟩ := List.forall_mem_cons.mp h
    exact Nat.max_lt.mpr ⟨first, ih rest⟩

end Tree

/-! ## Writing -/

/-- A tree in a slot is no higher than a bound. -/
def Datum.SlotWithin (h : Nat) (ty : Ty) (d : Datum) : Prop :=
  ∀ t, ty = .tree → d = .tree t → t.height ≤ h

/-- Only scalars are read as scalars. -/
theorem Scalar.family?_of_decode {ty : Ty} {x : Tree} {d : Datum} (h : decode ty x = .ok d) :
    x.family?.isSome := by
  rw [decode] at h
  split at h
  · cases h
  · split at h
    · cases h
    · rename_i src family
      rw [family]
      rfl

namespace Codec

/-- What a field puts into an object is no higher than its tree. -/
theorem height_le_of_entriesOf {f : Field} {x : Tree} {es : List (String × Tree)}
    (h : entriesOf f x = .ok es) {e : String × Tree} (mem : e ∈ es) : e.2.height ≤ x.height := by
  rcases inline : f.inline with _ | _
  · rw [entriesOf_apart inline] at h
    split at h <;> cases h
    · cases mem
    · cases List.mem_singleton.mp mem
      exact Nat.le_refl _
  · simp only [entriesOf, inline, if_true] at h
    split at h
    · cases h
      exact Nat.le_of_lt (Tree.height_lt_of_entry mem)
    · cases h
      cases mem
    · cases h

variable {cx : Codec}

/-- A tree that is written at a depth is no higher than the depth and what slots hold. -/
theorem height_encode (initial : cx.registry = .initial) {h : Nat} (positive : 0 < h) (depth : Nat)
    {ty : Ty} {d : Datum} {x : Tree} (slots : cx.catalogue.Throughout (Datum.SlotWithin h) ty d)
    (hx : (encode cx depth ty d : Except Error Tree) = .ok x) : x.height < h + depth := by
  induction depth generalizing ty d x with
  | zero => cases hx
  | succ depth ih =>
    have above : 0 < h + depth := Nat.lt_of_lt_of_le positive (Nat.le_add_right ..)
    by_cases slot : ty = .tree
    · subst slot
      rw [encode, encodeStep, initial] at hx
      cases d with
      | tree t =>
        cases hx
        exact Nat.lt_succ_of_le (Nat.le_trans (slots.here _ rfl rfl) (Nat.le_add_right ..))
      | _ => cases hx
    rw [encode_unhooked (encoder?_of_initial initial slot)] at hx
    cases writesLayer_of_ok hx with
    | absent => exact Nat.succ_lt_succ above
    | content layer written =>
      exact Nat.lt_succ_of_lt (ih (slots.part (.content layer)) written)
    | newtype body written =>
      exact Nat.lt_succ_of_lt (ih (slots.part (.content (.newtype body _))).peel written)
    | array members written =>
      refine Tree.height_array_lt above fun x mem => ?_
      obtain ⟨i, hi⟩ := List.mem_iff_getElem?.mp mem
      obtain ⟨t, e, ht, he, written⟩ := of_encodeMembers written hi
      exact ih (slots.part (.member members ht he)) written
    | bytes => exact Nat.succ_lt_succ above
    | map written =>
      refine Tree.height_object_lt above fun e mem => ?_
      obtain ⟨k, d, mem, written, -⟩ := of_mapEntries written (Object.mem_of_mem_ofList mem)
      exact ih (slots.part (.value mem)) written
    | record body written =>
      refine Tree.height_object_lt above fun e mem => ?_
      obtain ⟨i, f, d, x, own, hf, kept, he, written, put, mem⟩ :=
        of_contributions written (Object.mem_of_mem_ofList mem)
      exact Nat.lt_of_le_of_lt (height_le_of_entriesOf put mem)
        (ih (slots.part (.field body hf kept he)) written)
    | variant => exact Nat.succ_lt_succ above
    | scalar written =>
      rw [Tree.height_of_family (Scalar.family?_of_encode written).2]
      exact Nat.succ_lt_succ above

/-! ## Reading -/

variable {dec : Decoder (Except Error)} {ty t u : Ty} {x y : Tree} {o : Object} {s : Scope}

/-- What a tree is that a layer without hook is read from, by the way in which its parts are
read. -/
inductive ReadsLayer (cx : Codec) (dec : Decoder (Except Error)) : Ty → Tree → Prop
  | content {ty t : Ty} {x : Tree} {s : Scope} {d : Datum} (layer : cx.catalogue.below ty = .content t)
    (h : Yields (dec.tree s t x) d) : ReadsLayer cx dec ty x
  | array {ty : Ty} {item? : Nat → Option Ty} {xs : List Tree}
    (layer : cx.catalogue.below ty = .items item?)
    (h : ∀ (i : Nat) x, xs[i]? = some x →
      ∃ t s d, item? i = some t ∧ Yields (dec.tree s t x) d) : ReadsLayer cx dec ty (.array xs)
  | entries {ty t : Ty} {o : Object} (layer : cx.catalogue.below ty = .entries t)
    (h : ∀ e ∈ o, ∃ s d, Yields (dec.tree s t e.2) d) : ReadsLayer cx dec ty (.object o)
  | record {ty : Ty} {fs : List Field} {o : Object} (layer : cx.catalogue.below ty = .record fs)
    (h : ∀ f ∈ fs, ∃ s i d, Yields (decodeField cx dec s ty o i f) d) :
    ReadsLayer cx dec ty (.object o)
  | scalar (ty : Ty) {x : Tree} (h : x.family?.isSome) : ReadsLayer cx dec ty x

/-- What an object is read as, if not as a hook has it. -/
inductive ReadsObject (cx : Codec) (dec : Decoder (Except Error)) : Ty → Object → Prop
  | content {ty t : Ty} {o : Object} {s : Scope} {d : Datum}
    (layer : cx.catalogue.below ty = .content t) (h : Yields (dec.object s t o) d) :
    ReadsObject cx dec ty o
  | entries {ty t : Ty} (layer : cx.catalogue.below ty = .entries t) (o : Object) :
    ReadsObject cx dec ty o
  | record {ty : Ty} {fs : List Field} {o : Object} (layer : cx.catalogue.below ty = .record fs)
    (h : ∀ f ∈ fs, ∃ s i d, Yields (decodeField cx dec s ty o i f) d) : ReadsObject cx dec ty o

/-- Items are read one after another, each at its position. -/
theorem yields_items {ts : List Ty} {xs : List Tree} {i : Nat} {ds : List Datum}
    (length : xs.length = ts.length) (h : Yields (decodeItems dec s i ts xs) ds) {j : Nat}
    (hx : xs[j]? = some x) : ∃ t s d, ts[j]? = some t ∧ Yields (dec.tree s t x) d := by
  induction ts generalizing xs i ds j with
  | nil =>
    rw [List.length_eq_zero_iff.mp length] at hx
    cases hx
  | cons t ts ih =>
    cases xs with
    | nil => cases length
    | cons y xs =>
      obtain ⟨d, first, h⟩ := h.of_bind
      obtain ⟨ds, -, rest⟩ := h.of_map
      cases j with
      | zero =>
        cases hx
        exact ⟨t, _, d, rfl, first⟩
      | succ j => exact ih (Nat.succ.inj length) rest hx

theorem yields_positional {ts : List Ty} {ds : List Datum}
    (h : Yields (decodePositional dec s ty ts x) ds) :
    ∃ xs, x = .array xs ∧ ∀ (i : Nat) y, xs[i]? = some y →
      ∃ t s d, ts[i]? = some t ∧ Yields (dec.tree s t y) d := by
  cases x with
  | array xs =>
    rw [decodePositional] at h
    split at h
    · exact ⟨xs, rfl, fun i y hy => yields_items ‹_› h hy⟩
    · exact absurd h Yields.not_throw
  | _ => exact absurd h Yields.not_throw

theorem yields_entry {key value : Ty} {es : List (Datum × Datum)}
    (h : Yields (decodeEntries cx dec s key value o) es) {e : String × Tree} (mem : e ∈ o) :
    ∃ s d, Yields (dec.tree s value e.2) d := by
  have entries := yields_entries h
  clear h
  induction entries with
  | nil => cases mem
  | cons first _ ih =>
    rcases List.mem_cons.mp mem with rfl | mem
    · exact ⟨_, _, first.2⟩
    · exact ih mem

/-- The fields of a record are read, each at its position. -/
theorem yields_each {fs : List Field} {i : Nat} {ds : List Datum}
    (h : Yields (decodeFields cx dec s ty o i fs) ds) {f : Field} (hf : f ∈ fs) :
    ∃ s i d, Yields (decodeField cx dec s ty o i f) d := by
  induction fs generalizing i ds with
  | nil => cases hf
  | cons g gs ih =>
    obtain ⟨d, first, h⟩ := h.of_bind
    obtain ⟨ds, -, rest⟩ := h.of_map
    rcases List.mem_cons.mp hf with rfl | hf
    · exact ⟨s, i, d, first⟩
    · exact ih rest hf

theorem readsLayer_declared {name : String} {body : Body} {d : Datum}
    (declared : cx.catalogue.body? name = some body)
    (h : Yields (decodeDeclared cx dec s (.named name) body x) d) :
    cx.ReadsLayer dec (.named name) x := by
  cases body with
  | newtype t =>
    obtain ⟨e, -, h⟩ := h.of_map
    exact .content (Catalogue.below_newtype declared) h
  | record fs =>
    cases x with
    | object o =>
      obtain ⟨ds, -, fields⟩ := yields_record h
      exact .record (Catalogue.below_record declared) fun f hf => yields_each fields hf
    | _ => exact absurd h Yields.not_throw
  | tuple fs =>
    obtain ⟨ds, -, h⟩ := h.of_map
    obtain ⟨xs, rfl, items⟩ := yields_positional h
    exact .array (Catalogue.below_positional declared) items
  | enumeration vs =>
    have given : decodeVariant (.named name) vs x = .ok d := Yields.of_ofExcept h
    cases x with
    | string => exact .scalar _ rfl
    | _ => cases given

/-- A layer without hook is read in no other way. -/
theorem readsLayer_of_yields {d : Datum} (h : Yields (decodeLayer cx dec s ty x) d) :
    cx.ReadsLayer dec ty x := by
  have replicated {ty t : Ty} {item? : Nat → Option Ty} {n i : Nat} {xs : List Tree}
      {ds : List Datum} (layer : cx.catalogue.below ty = .items item?) (all : ∀ i, item? i = some t)
      (length : xs.length = (List.replicate n t).length)
      (h : Yields (decodeItems dec s i (.replicate n t) xs) ds) :
      cx.ReadsLayer dec ty (.array xs) := by
    refine .array layer fun j y hy => ?_
    obtain ⟨u, s', e, hu, read⟩ := yields_items length h hy
    rw [all, ← List.eq_of_mem_replicate (List.mem_of_getElem? hu)]
    exact ⟨u, s', e, rfl, read⟩
  cases ty with
  | option t =>
    obtain ⟨e, -, h⟩ := h.of_map
    exact .content rfl h
  | pointer p t =>
    cases p with
    | weak => exact absurd h Yields.not_throw
    | borrowed =>
      obtain ⟨_, -, h⟩ := h.of_bind
      exact absurd h Yields.not_throw
    | _ =>
      obtain ⟨e, -, h⟩ := h.of_map
      exact .content rfl h
  | nonZero k =>
    obtain ⟨e, h, -⟩ := h.of_bind
    exact .content rfl h
  | tuple ts =>
    obtain ⟨ds, -, h⟩ := h.of_map
    obtain ⟨xs, rfl, items⟩ := yields_positional h
    exact .array rfl items
  | named name =>
    simp only [decodeLayer] at h
    split at h
    · exact readsLayer_declared ‹_› h
    · exact absurd h Yields.not_throw
  | list t =>
    rcases bytes : (Ty.list t).isBytes with _ | _ <;> simp only [decodeLayer, bytes] at h
    · cases x with
      | array xs =>
        obtain ⟨ds, -, h⟩ := h.of_map
        exact replicated rfl (fun _ => rfl) (List.length_replicate ..).symm h
      | _ => exact absurd h Yields.not_throw
    · have given : decodeBytes x = .ok d := Yields.of_ofExcept h
      cases x with
      | string => exact .scalar _ rfl
      | _ => cases given
  | array t n =>
    cases x with
    | array xs =>
      simp only [decodeLayer, decodeArray] at h
      split at h
      · exact absurd h Yields.not_throw
      · split at h
        · exact absurd h Yields.not_throw
        · split at h
          · exact absurd h Yields.not_throw
          · obtain ⟨ds, -, h⟩ := h.of_map
            refine replicated rfl (fun _ => rfl) ?_ h
            rw [List.length_replicate]
            exact Decidable.not_not.mp ‹_›
    | _ => exact absurd h Yields.not_throw
  | map a key value =>
    cases x with
    | object o =>
      obtain ⟨es, -, h⟩ := h.of_map
      exact .entries rfl fun e he => yields_entry h he
    | _ => exact absurd h Yields.not_throw
  | tree | borrowedText | slice | set => exact absurd h Yields.not_throw
  | opaqueScalar k =>
    have given : Scalar.decode (.opaqueScalar k) x = .ok d := Yields.of_ofExcept h
    exact .scalar _ (Scalar.family?_of_decode given)
  | _ =>
    have given : Scalar.decode _ x = .ok d := Yields.of_ofExcept h
    exact .scalar _ (Scalar.family?_of_decode given)

theorem readsObject_of_yields {d : Datum} (h : Yields (decodeObjectLayer cx dec s ty o) d) :
    cx.ReadsObject dec ty o := by
  cases ty with
  | option t =>
    obtain ⟨e, -, h⟩ := h.of_map
    exact .content rfl h
  | pointer p t =>
    cases p with
    | weak => exact absurd h Yields.not_throw
    | borrowed =>
      obtain ⟨_, -, h⟩ := h.of_bind
      exact absurd h Yields.not_throw
    | _ =>
      obtain ⟨e, -, h⟩ := h.of_map
      exact .content rfl h
  | nonZero k =>
    obtain ⟨e, h, -⟩ := h.of_bind
    exact .content rfl h
  | map a key value => exact .entries rfl o
  | named name =>
    simp only [decodeObjectLayer] at h
    split at h
    · obtain ⟨e, -, h⟩ := h.of_map
      exact .content (Catalogue.below_newtype ‹_›) h
    · obtain ⟨ds, -, fields⟩ := yields_record h
      exact .record (Catalogue.below_record ‹_›) fun f hf => yields_each fields hf
    · exact absurd h Yields.not_throw
  | _ => exact absurd h Yields.not_throw

/-! ### What slots keep -/

/-- A tree is kept whole by a slot, where a type reads it in a tree. -/
inductive Keeps (cx : Codec) : Ty → Tree → Tree → Prop
  | slot (x : Tree) : Keeps cx .tree x x
  | wrapped {ty t : Ty} {x y : Tree} (layer : cx.catalogue.Wraps ty t) (h : Keeps cx t x y) :
    Keeps cx ty x y
  | item {ty t : Ty} {item? : Nat → Option Ty} {xs : List Tree} {x y : Tree} {i : Nat}
    (layer : cx.catalogue.below ty = .items item?) (ht : item? i = some t) (hx : xs[i]? = some x)
    (h : Keeps cx t x y) : Keeps cx ty (.array xs) y
  | entry {ty t : Ty} {o : Object} {k : String} {x y : Tree}
    (layer : cx.catalogue.below ty = .entries t) (hx : (k, x) ∈ o) (h : Keeps cx t x y) :
    Keeps cx ty (.object o) y
  | asked {ty t : Ty} {o : Object} {k : String} {x y : Tree} (asks : cx.Asks ty k t)
    (hx : Object.find? o k = some x) (h : Keeps cx t x y) : Keeps cx ty (.object o) y

theorem keeps_slot (h : cx.Keeps .tree x y) : y = x := by
  cases h with
  | slot => rfl
  | wrapped layer => cases layer with | content layer => cases layer
  | item layer => cases layer
  | entry layer => cases layer
  | asked asks => cases asks <;> contradiction

theorem keeps_list {xs : List Tree} (h : cx.Keeps (.list t) (.array xs) y) :
    ∃ x ∈ xs, cx.Keeps t x y := by
  cases h with
  | wrapped layer => cases layer with | content layer => cases layer
  | item layer ht hx h =>
    cases layer
    cases ht
    exact ⟨_, List.mem_of_getElem? hx, h⟩

/-- A tree at path `p` of which a type knows all keys, with no high tree in a slot. -/
structure Held (cx : Codec) (h : Nat) (ty : Ty) (x : Tree) (p : Path) : Prop where
  ordered : x.Ordered
  known (q : Path) : ¬ cx.Unknown ty x p q
  kept (y : Tree) : cx.Keeps ty x y → y.height ≤ h

/-- An object at path `p` of which a type knows all keys, but for those that are left to the
record that the type is part of. -/
structure HeldPart (cx : Codec) (h : Nat) (ty : Ty) (o : Object) (p : Path) : Prop where
  ordered : (Tree.object o).Ordered
  known (q : Path) : ¬ cx.UnknownPart ty o p q
  kept {k : String} {t : Ty} {x : Tree} (asks : cx.Asks ty k t) (hx : Object.find? o k = some x)
    (y : Tree) : cx.Keeps t x y → y.height ≤ h

section Held

variable {h : Nat} {p : Path}

theorem Held.content (held : cx.Held h ty x p) (hook : cx.registry.decoder? ty = none)
    (layer : cx.catalogue.below ty = .content t) (hx : x ≠ .null) : cx.Held h t x p where
  ordered := held.ordered
  known q hu := held.known q (.content hook layer hx hu)
  kept y keeps := held.kept y (.wrapped (.content layer) keeps)

theorem Held.item {item? : Nat → Option Ty} {xs : List Tree} {i : Nat}
    (held : cx.Held h ty (.array xs) p) (hook : cx.registry.decoder? ty = none)
    (layer : cx.catalogue.below ty = .items item?) (ht : item? i = some t) (hx : xs[i]? = some x) :
    cx.Held h t x (p ++ [.index i]) where
  ordered := by
    cases held.ordered with
    | array h => exact h x (List.mem_of_getElem? hx)
  known q hu := held.known q (.item hook layer ht hx hu)
  kept y keeps := held.kept y (.item layer ht hx keeps)

theorem Held.entry {k : String} (held : cx.Held h ty (.object o) p)
    (hook : cx.registry.decoder? ty = none) (layer : cx.catalogue.below ty = .entries t)
    (hx : (k, x) ∈ o) : cx.Held h t x (p ++ [.key k]) where
  ordered := by
    cases held.ordered with
    | object _ h => exact h _ hx
  known q hu := held.known q (.part (.entry hook layer hx hu))
  kept y keeps := held.kept y (.entry layer hx keeps)

theorem Held.part (held : cx.Held h ty (.object o) p) : cx.HeldPart h ty o p where
  ordered := held.ordered
  known q hu := held.known q (.part hu)
  kept asks hx y keeps := held.kept y (.asked asks hx keeps)

theorem HeldPart.sorted (held : cx.HeldPart h ty o p) : o.Sorted := by
  cases held.ordered with
  | object sorted _ => exact sorted

theorem HeldPart.content (held : cx.HeldPart h ty o p) (hook : cx.registry.decoder? ty = none)
    (layer : cx.catalogue.below ty = .content t) : cx.HeldPart h t o p where
  ordered := held.ordered
  known q hu := held.known q (.content hook layer hu)
  kept asks := held.kept (.wrapped hook (.content layer) asks)

variable {fs : List Field} {f : Field} (held : cx.HeldPart h ty o p)
  (hook : cx.registry.decoder? ty = none) (layer : cx.catalogue.below ty = .record fs) (hf : f ∈ fs)
  (kept : f.skipped = false)
include held hook layer hf kept

theorem HeldPart.field (apart : f.inline = false) (hx : Object.find? o f.key = some x) :
    cx.Held h f.ty x (p ++ [.key f.key]) where
  ordered := by
    cases held.ordered with
    | object _ h => exact h _ (Object.mem_of_find? hx)
  known q hu := held.known q (.field hook layer hf kept apart hx hu)
  kept := held.kept (.own hook layer hf kept apart) hx

theorem HeldPart.inlined (inline : f.inline = true) : cx.HeldPart h f.ty o p where
  ordered := held.ordered
  known q hu := held.known q (.inlined hook layer hf kept inline hu)
  kept asks := held.kept (.inlined hook layer hf kept inline asks)

end Held

/-! ### What is read -/

/-- A decoder that reads no high trees. -/
structure Bounded (cx : Codec) (h n : Nat) (dec : Decoder (Except Error)) : Prop where
  tree {s : Scope} {ty : Ty} {x : Tree} {d : Datum} {p : Path} (held : cx.Held h ty x p)
    (read : Yields (dec.tree s ty x) d) : x.height < n
  part {s : Scope} {ty : Ty} {o : Object} {d : Datum} {p : Path} {k : String} {x : Tree}
    (held : cx.HeldPart h ty o p) (read : Yields (dec.object s ty o) d) (hk : cx.Consumes ty k)
    (hx : Object.find? o k = some x) : x.height < n

section Bounded

variable {h n : Nat} {p : Path}

/-- What stands under a key that a record consumes is read by one of its fields. -/
theorem Bounded.record (hb : cx.Bounded h n dec) (hook : cx.registry.decoder? ty = none)
    {fs : List Field} (layer : cx.catalogue.below ty = .record fs)
    (read : ∀ f ∈ fs, ∃ s i d, Yields (decodeField cx dec s ty o i f) d)
    (held : cx.HeldPart h ty o p) {k : String} (hk : cx.Consumes ty k)
    (hx : Object.find? o k = some x) : x.height < n := by
  obtain ⟨f, hf, kept, own⟩ := (consumes_record hook layer).mp hk
  obtain ⟨s, i, d, read⟩ := read f hf
  obtain ⟨apart, rfl⟩ | ⟨inline, hk⟩ := own
  · rw [decodeField_apart kept apart, decodeKey] at read
    obtain ⟨-, -, read⟩ := read.of_bind
    rw [hx] at read
    exact hb.tree (held.field hook layer hf kept apart hx) read
  · rw [decodeField_inlined kept inline] at read
    exact hb.part (held.inlined hook layer hf kept inline) read hk hx

variable (initial : cx.registry = .initial)
include initial

theorem Bounded.step (positive : 0 < h) {depth : Nat} (hb : cx.Bounded h (h + depth) (decoder cx depth)) :
    cx.Bounded h (h + (depth + 1)) (decoder cx (depth + 1)) := by
  have above : 0 < h + depth := Nat.lt_of_lt_of_le positive (Nat.le_add_right ..)
  constructor
  · intro s ty x d p held read
    by_cases null : x = .null
    · subst null
      exact Nat.succ_lt_succ above
    by_cases slot : ty = .tree
    · subst slot
      exact Nat.lt_succ_of_le (Nat.le_trans (held.kept x (.slot x)) (Nat.le_add_right ..))
    have hook := decoder?_of_initial initial slot
    cases readsLayer_of_yields (yields_layer null hook read) with
    | content layer read =>
      exact Nat.lt_succ_of_lt (hb.tree (held.content hook layer null) read)
    | array layer items =>
      refine Tree.height_array_lt above fun x mem => ?_
      obtain ⟨i, hi⟩ := List.mem_iff_getElem?.mp mem
      obtain ⟨t, s', e, ht, read⟩ := items i x hi
      exact hb.tree (held.item hook layer ht hi) read
    | entries layer entries =>
      refine Tree.height_object_lt above fun e mem => ?_
      obtain ⟨s', e', read⟩ := entries e mem
      exact hb.tree (held.entry hook layer mem) read
    | record layer fields =>
      -- A record that is a level of its own consumes all keys of its object.
      refine Tree.height_object_lt above fun e mem => ?_
      have hk : cx.Consumes ty e.1 := by
        by_contra stray
        exact held.known _ (.key hook layer (List.mem_map.mpr ⟨e, mem, rfl⟩) stray)
      exact hb.record hook layer fields held.part hk (held.part.sorted.find?_of_mem mem)
    | scalar scalar =>
      rw [Tree.height_of_family scalar]
      exact Nat.succ_lt_succ above
  · intro s ty o d p k x held read hk hx
    have slot : ty ≠ .tree := by
      rintro rfl
      cases hk <;> contradiction
    have hook := decoder?_of_initial initial slot
    cases readsObject_of_yields (yields_objectLayer hook read) with
    | content layer read =>
      exact Nat.lt_succ_of_lt (hb.part (held.content hook layer) read
        ((consumes_content hook layer).mp hk) hx)
    | entries layer => exact absurd hk (not_consumes_entries layer)
    | record layer fields => exact Nat.lt_succ_of_lt (hb.record hook layer fields held hk hx)

theorem bounded_decoder (positive : 0 < h) (depth : Nat) :
    cx.Bounded h (h + depth) (decoder cx depth) := by
  induction depth with
  | zero => exact ⟨fun _ read => absurd read Yields.not_throw,
      fun _ read => absurd read Yields.not_throw⟩
  | succ depth ih => exact ih.step initial positive

end Bounded

end Codec

/-! ## What limits bound -/

/-- A limit bounds the height of trees, but for what slots hold. If no tree in a slot of a
datum is higher than `h`, the tree that is written of it is higher than the limit by less
than `h`. A tree that is not is not read strictly, unless a slot keeps a tree higher than `h`
of it. Where there is no slot, `h` is one and the limit bounds the height. -/
theorem limit_bounds_height (cx : Codec) (initial : cx.registry = .initial) (ty : Ty) {h : Nat}
    (positive : 0 < h) :
    (∀ d x, cx.catalogue.Throughout (Datum.SlotWithin h) ty d →
      cx.toTree ty d = (.ok x : Except Error Tree) → x.height < h + cx.maxDepth) ∧
    ∀ x : Tree, x.Ordered → (∀ y, cx.Keeps ty x y → y.height ≤ h) → h + cx.maxDepth ≤ x.height →
      ∀ d, cx.fromTree true ty x ≠ (.ok d : Except Error Datum) := by
  refine ⟨fun d x slots written => Codec.height_encode initial positive cx.maxDepth slots written,
    fun x ordered kept high d read => ?_⟩
  have notes := (cx.notesUnknown_decoder cx.maxDepth).tree [] ty x
  obtain ⟨given, known⟩ := Codec.of_build_ok notes read
  have low := (Codec.bounded_decoder initial positive cx.maxDepth).tree ⟨ordered, known, kept⟩ given
  omega

/-- Lists of lists of trees under a limit of two, with nothing high in the slots. -/
theorem limit_bounds_height_lists :
    let cx : Codec := ⟨⟨[]⟩, .initial, 2⟩
    let lists := Ty.list (.list .tree)
    (cx.toTree lists (.seq [.seq []]) = (.ok (.array [.array []]) : Except Error Tree) ∧
      (Tree.array [.array []]).height < 1 + cx.maxDepth) ∧
    ∀ d, cx.fromTree true lists (.array [.array [.null]]) ≠ (.ok d : Except Error Datum) := by
  intro cx lists
  have bounds := limit_bounds_height cx rfl lists Nat.one_pos
  have slots : cx.catalogue.Throughout (Datum.SlotWithin 1) lists (.seq [.seq []]) := by
    refine .list nofun fun d hd => ?_
    rw [List.mem_singleton.mp hd]
    exact .list nofun nofun
  have kept (y : Tree) (keeps : cx.Keeps lists (.array [.array [.null]]) y) : y.height ≤ 1 := by
    obtain ⟨x, hx, keeps⟩ := Codec.keeps_list keeps
    rw [List.mem_singleton.mp hx] at keeps
    obtain ⟨z, hz, keeps⟩ := Codec.keeps_list keeps
    rw [List.mem_singleton.mp hz] at keeps
    rw [Codec.keeps_slot keeps]
    exact Nat.le_refl 1
  have ordered : (Tree.array [.array [.null]]).Ordered := by
    refine .array fun x hx => ?_
    rw [List.mem_singleton.mp hx]
    refine .array fun y hy => ?_
    rw [List.mem_singleton.mp hy]
    exact .null
  exact ⟨⟨rfl, bounds.1 _ _ slots rfl⟩, bounds.2 _ ordered kept (by decide)⟩

/-- A slot takes one level, however high the tree in it: under a limit of one, every tree is
written of a slot and read into one, strictly or not. -/
theorem slots_escape_limit :
    let cx : Codec := ⟨⟨[]⟩, .initial, 1⟩
    (∀ t, HasType cx.catalogue .tree (.tree t) ∧
      cx.toTree .tree (.tree t) = (.ok t : Except Error Tree) ∧
      ∀ strict, cx.fromTree strict .tree t = (.ok (.tree t) : Except Error Datum)) ∧
    (Tree.array [.array [.null]]).height = 3 := by
  refine ⟨fun t => ⟨.tree t, rfl, fun strict => ?_⟩, rfl⟩
  cases t <;> rfl

end TreeCodec
