import Mathlib.Data.List.Perm.Basic
import TreeCodec.Proofs.DepthLimit
import TreeCodec.Proofs.ExactTrees
import TreeCodec.Proofs.LeafTrees
import TreeCodec.Proofs.Recovery

/-!
# What is written back

What it is for data to be written as the trees, objects, fields, items and entries that they
were read from, and how these are put together:

* `Codec.Writes`: what is claimed of a datum and a tree, and `Codec.WritesPart` of a record
  that is part of another one;
* `Object.IsPart`: the entries that a field puts into an object are those that it was read
  from;
* `Codec.writes_null`: what null is read as is written as null.
-/

namespace TreeCodec

/-! ## Parts of objects -/

namespace Object

/-- Some entries are those of an object under the keys of a set. -/
structure IsPart (o : Object) (K : String → Prop) (es : List (String × Tree)) : Prop where
  own : ∀ k ∈ es.map (·.1), K k
  same : ∀ k, K k → find? (ofList es) k = find? o k

namespace IsPart

variable {o : Object} {K K' : String → Prop} {es es' : List (String × Tree)}

theorem congr (h : o.IsPart K es) (hK : ∀ k, K k ↔ K' k) : o.IsPart K' es := by
  rwa [← funext fun k => propext (hK k)]

theorem nil : o.IsPart (fun _ => False) [] := ⟨by simp, by simp⟩

theorem single {k : String} {x : Tree} (h : find? o k = some x) : o.IsPart (· = k) [(k, x)] where
  own _ hk := List.mem_singleton.mp hk
  same j hj := by
    subst hj
    rw [h, ofList_cons]
    exact (find?_cons ..).trans (if_pos rfl)

theorem append (h : o.IsPart K es) (h' : o.IsPart K' es') (apart : ∀ k, K k → ¬ K' k) :
    o.IsPart (fun k => K k ∨ K' k) (es ++ es') := by
  refine ⟨fun k hk => ?_, fun k hk => ?_⟩
  · rw [List.map_append, List.mem_append] at hk
    exact hk.imp (h.own k) (h'.own k)
  · rcases hk with hk | hk
    · rw [find?_ofList_ahead fun there => apart k hk (h'.own k there), h.same k hk]
    · rw [find?_ofList_behind fun there => apart k (h.own k there) hk, h'.same k hk]

theorem put_together (h : o.IsPart K es) : o.IsPart K (ofList es) where
  own k hk := by
    change k ∈ (ofList es).keys at hk
    rw [ofList, mem_keys_extend] at hk
    exact hk.elim (h.own k) fun none => absurd none List.not_mem_nil
  same k hk := by rw [(sorted_ofList es).ofList_eq, h.same k hk]

/-- The same part is put together alike. -/
theorem unique (h : o.IsPart K es) (h' : o.IsPart K es') : ofList es = ofList es' := by
  refine Sorted.ext (sorted_ofList es) (sorted_ofList es') fun k => ?_
  by_cases hk : K k
  · rw [h.same k hk, h'.same k hk]
  · rw [find?_ofList_eq_none fun there => hk (h.own k there),
      find?_ofList_eq_none fun there => hk (h'.own k there)]

/-- A part with all keys of a sorted object is the object. -/
theorem ofList_eq (h : o.IsPart K es) (sorted : o.Sorted) (all : ∀ k ∈ o.keys, K k) :
    ofList es = o := by
  have whole : o.IsPart K o := ⟨all, fun k _ => by rw [sorted.ofList_eq]⟩
  rw [h.unique whole, sorted.ofList_eq]

end IsPart

/-- A sorted object is put together from its entries in any order. -/
theorem Sorted.ofList_eq_of_perm {o : Object} {es : List (String × Tree)} (h : o.Sorted)
    (order : es.Perm o) : ofList es = o := by
  have distinct : o.keys.Nodup := List.Pairwise.imp (fun lt same => by
    subst same
    exact String.lt_irrefl _ lt) h
  have names : (es.map (·.1)).Perm o.keys := order.map _
  have all := (perm_ofList (names.nodup_iff.mpr distinct)).trans order
  have sorted := sorted_ofList es
  rw [Sorted, keys, List.pairwise_map] at h sorted
  exact all.eq_of_pairwise (fun a b _ _ lt lt' => absurd lt (String.lt_asymm lt')) sorted h

end Object

namespace Codec

variable {cx : Codec}

/-! ## What is written back -/

section Written

variable (cx)

/-- A datum is written as a tree, in whatever order its maps list their entries and
whatever the limit is, by an encoding that goes as deep as the datum is high. -/
def Writes (ty : Ty) (d : Datum) (x : Tree) : Prop :=
  ∀ e, d.Same e → ∀ limit depth, e.height ≤ depth →
    encode (cx.withDepth limit) depth ty e = (.ok x : Except Error Tree)

/-- A datum is written as the part of an object that its type consumes. -/
def WritesPart (ty : Ty) (d : Datum) (o : Object) : Prop :=
  ∃ es : Object, es.Sorted ∧ o.IsPart (cx.Consumes ty) es ∧ cx.Writes ty d (.object es)

/-- A field puts the entries into an object that it was read from. -/
def WritesField (f : Field) (d : Datum) (o : Object) : Prop :=
  ∀ e, d.Same e → ∀ limit depth, e.height ≤ depth → ∃ es, o.IsPart (cx.FieldConsumes f) es ∧
    (cx.withDepth limit).contribution (encode (cx.withDepth limit) depth) f e = .ok es

def WritesFields (fs : List Field) (ds : List Datum) (o : Object) : Prop :=
  ∀ es, List.Forall₂ Datum.Same ds es → ∀ limit depth ty, Datum.heights es ≤ depth →
    ∃ ps, o.IsPart (fun k => ∃ f ∈ fs, cx.FieldConsumes f k) ps ∧
      (cx.withDepth limit).contributions (encode (cx.withDepth limit) depth) ty fs es = .ok ps

/-- Items of several types are written as trees. -/
def WritesItems (ts : List Ty) (ds : List Datum) (xs : List Tree) : Prop :=
  ∀ es, List.Forall₂ Datum.Same ds es → ∀ limit depth ty, Datum.heights es ≤ depth →
    encodeMembers (encode (cx.withDepth limit) depth) ty ts es = (.ok xs : Except Error (List Tree))

/-- An entry of a map is written as an entry of an object. -/
def WritesEntry (key value : Ty) (p : String × Tree) (e : Datum × Datum) : Prop :=
  cx.catalogue.text? key e.1 = some p.1 ∧ cx.Writes value e.2 p.2

end Written

variable {ty t : Ty} {d : Datum} {x : Tree}

/-- What is to be shown of a layer without hook. -/
theorem Writes.layer (hook : cx.registry.encoder? ty = none)
    (h : ∀ e, d.Same e → ∀ limit depth, e.height ≤ depth + 1 →
      encodeLayer (cx.withDepth limit) (encode (cx.withDepth limit) depth) ty e =
        (.ok x : Except Error Tree)) : cx.Writes ty d x := by
  intro e he limit depth deep
  have positive := e.height_pos
  obtain ⟨below, rfl⟩ : ∃ n, depth = n + 1 := ⟨depth - 1, by omega⟩
  have hook' : (cx.withDepth limit).registry.encoder? ty = none := hook
  exact (encode_unhooked hook' below e).trans (h e he limit below deep)

/-- Wrappers are written as what they hold. -/
theorem Writes.wrapped (hook : cx.registry.encoder? ty = none)
    (layer : ∀ (cx' : Codec) encode e, cx'.catalogue = cx.catalogue →
      (encodeLayer cx' encode ty (.wrapped e) : Except Error Tree) = encode t e)
    (h : cx.Writes t d x) : cx.Writes ty (.wrapped d) x := by
  refine .layer hook fun e he limit depth deep => ?_
  obtain ⟨e, rfl, same⟩ := he.wrapped_inv
  rw [Datum.height] at deep
  exact (layer (cx.withDepth limit) _ _ rfl).trans (h e same limit depth (by omega))

theorem Writes.present (hook : cx.registry.encoder? (.option t) = none) (h : cx.Writes t d x) :
    cx.Writes (.option t) (.present d) x := by
  refine .layer hook fun e he limit depth deep => ?_
  obtain ⟨e, rfl, same⟩ := he.present_inv
  rw [Datum.height] at deep
  exact h e same limit depth (by omega)

theorem WritesItems.nil : cx.WritesItems [] [] [] := by
  intro es same limit depth ty _
  cases same
  rfl

theorem WritesItems.cons {ts : List Ty} {ds : List Datum} {xs : List Tree} (h : cx.Writes t d x)
    (hs : cx.WritesItems ts ds xs) : cx.WritesItems (t :: ts) (d :: ds) (x :: xs) := by
  intro es same limit depth ty deep
  cases same with
  | cons first rest =>
    rw [Datum.heights, Nat.max_le] at deep
    rw [encodeMembers, h _ first limit depth deep.1, hs _ rest limit depth ty deep.2]
    rfl

theorem WritesFields.nil {o : Object} : cx.WritesFields [] [] o := by
  intro es same limit depth ty _
  cases same
  exact ⟨[], Object.IsPart.nil.congr (by simp), rfl⟩

theorem WritesFields.cons {f : Field} {fs : List Field} {ds : List Datum} {o : Object}
    (h : cx.WritesField f d o) (hs : cx.WritesFields fs ds o)
    (keys : ∀ g ∈ fs, ∀ k, cx.FieldConsumes f k → ¬ cx.FieldConsumes g k) :
    cx.WritesFields (f :: fs) (d :: ds) o := by
  intro es same limit depth ty deep
  cases same with
  | cons first rest =>
    rw [Datum.heights, Nat.max_le] at deep
    obtain ⟨ps, part, written⟩ := h _ first limit depth deep.1
    obtain ⟨ps', part', written'⟩ := hs _ rest limit depth ty deep.2
    refine ⟨ps ++ ps', ?_, ?_⟩
    · refine (part.append part' fun k hk others => ?_).congr (by simp)
      obtain ⟨g, hg, hgk⟩ := others
      exact keys g hg k hk hgk
    · rw [contributions, written, written']
      rfl

/-- The entries of an object are written back from those of a map in the same order. -/
theorem mapEntries_of_writesEntry {key value : Ty} {o : Object} {ys zs : List (Datum × Datum)}
    (h : List.Forall₂ (cx.WritesEntry key value) o ys) (keys : ys.map Prod.fst = zs.map Prod.fst)
    (values : List.Forall₂ Datum.Same (ys.map Prod.snd) (zs.map Prod.snd)) {limit depth : Nat}
    (deep : Datum.entryHeights zs ≤ depth) :
    (cx.withDepth limit).mapEntries (encode (cx.withDepth limit) depth value) key zs = .ok o := by
  induction h generalizing zs with
  | nil =>
    cases List.map_eq_nil_iff.mp keys.symm
    rfl
  | @cons p y o ys hp _ ih =>
    obtain ⟨spelled, written⟩ := hp
    cases zs with
    | nil => cases keys
    | cons z zs =>
      obtain ⟨k, e⟩ := z
      obtain ⟨same, others⟩ := List.cons.inj keys
      cases same
      cases values with
      | cons first rest =>
        rw [Datum.entryHeights, Nat.max_le] at deep
        have spelled' : (cx.withDepth limit).catalogue.text? key y.1 = some p.1 := spelled
        simp only [mapEntries, spelled', written _ first limit depth deep.1, ih others rest deep.2]
        rfl

theorem Writes.map {a : Arrangement} {key value : Ty} {o : Object} {es : List (Datum × Datum)}
    (hook : cx.registry.encoder? (.map a key value) = none) (sorted : o.Sorted)
    (h : List.Forall₂ (cx.WritesEntry key value) o es) :
    cx.Writes (.map a key value) (.map es) (.object o) := by
  refine .layer hook fun e he limit depth deep => ?_
  obtain ⟨ys, zs, rfl, order, keys, values⟩ := he.map_inv
  rw [Datum.height] at deep
  obtain ⟨o', h', order'⟩ := List.perm_comp_forall₂ order.symm h.flip
  have written : (cx.withDepth limit).mapEntries (encode (cx.withDepth limit) depth value) key zs = .ok o' :=
    mapEntries_of_writesEntry h'.flip keys values (Nat.le_of_succ_le_succ deep)
  simp only [encodeLayer, encodeEntries_eq, written]
  exact congrArg (Except.ok ∘ Tree.object) (sorted.ofList_eq_of_perm order')

/-- A datum without parts is written as its layer is. -/
theorem Writes.leaf (hook : cx.registry.encoder? ty = none) (atom : d.isAtom = true)
    (h : ∀ (cx' : Codec) encode, cx'.catalogue = cx.catalogue →
      encodeLayer cx' encode ty d = (.ok x : Except Error Tree)) : cx.Writes ty d x := by
  refine .layer hook fun e he limit depth _ => ?_
  rw [← he.eq_of_isAtom atom]
  exact h _ _ rfl

/-! ## Null -/

section Initial

variable (initial : cx.registry = .initial)
include initial

theorem writes_slot (t : Tree) : cx.Writes .tree (.tree t) t := by
  intro e he limit depth deep
  cases he
  obtain ⟨below, rfl⟩ : ∃ n, depth = n + 1 := ⟨depth - 1, by simp only [Datum.height] at deep; omega⟩
  have initial' : (cx.withDepth limit).registry = .initial := initial
  exact encode_slot (by rw [initial']; rfl) below t

/-- What null is read as is written as null. -/
theorem writes_null : ∀ (ty : Ty) {d : Datum}, ty.admitsNull = true → cx.catalogue.zero ty = .ok d →
    cx.Writes ty d .null
  | .option t, d, _, zero => by
    cases zero
    exact .leaf (encoder?_of_initial initial (by simp)) rfl fun _ _ _ => rfl
  | .tree, d, _, zero => by
    cases zero
    exact writes_slot initial .null
  | .pointer p t, d, null, zero => by
    rw [Ty.admitsNull, Bool.and_eq_true] at null
    have plain : Ty.default? cx.catalogue (.pointer p t) = none := by
      cases t with
      | slice u => cases null.2
      | _ => cases p <;> first | rfl | cases null.1
    rw [Catalogue.zero, Catalogue.zeroWith, plain] at zero
    rcases inner : cx.catalogue.zeroWith (cx.catalogue.zeroDeclared cx.catalogue.decls.length) t with
      e | e <;> simp only [inner] at zero
    · cases zero
    · have there : p ≠ .borrowed := fun borrowed => by
        subst borrowed
        cases null.1
      rw [if_neg there] at zero
      cases zero
      refine (writes_null t null.2 inner).wrapped (encoder?_of_initial initial (by simp)) ?_
      intro cx' encode e _
      cases p <;> rfl

theorem Writes.newtype {name : String} (body : cx.catalogue.body? name = some (.newtype t))
    (h : cx.Writes t d x) : cx.Writes (.named name) (.wrapped d) x := by
  intro e he limit depth deep
  obtain ⟨e, rfl, same⟩ := he.wrapped_inv
  rw [Datum.height] at deep
  obtain ⟨below, rfl⟩ : ∃ n, depth = n + 1 := ⟨depth - 1, by omega⟩
  have initial' : (cx.withDepth limit).registry = .initial := initial
  obtain ⟨k, written⟩ := encode_newtype (encoder?_of_initial initial' (by simp))
    (peelsFreely_of_initial initial' t) body below e
  exact written.trans (h e same limit (below + k) (by omega))

end Initial

/-! ## Layers -/

theorem Writes.list {ds : List Datum} {xs : List Tree} (hook : cx.registry.encoder? (.list t) = none)
    (items : (Ty.list t).isBytes = false)
    (h : cx.WritesItems (.replicate ds.length t) ds xs) : cx.Writes (.list t) (.seq ds) (.array xs) := by
  refine .layer hook fun e he limit depth deep => ?_
  obtain ⟨es, rfl, same⟩ := he.seq_inv
  rw [Datum.height] at deep
  have written := h es same limit depth (.list t) (by omega)
  rw [same.length_eq] at written
  simp only [encodeLayer, items, encodeItems_eq _ (.list t), written]
  rfl

theorem Writes.array {n : Nat} {ds : List Datum} {xs : List Tree}
    (hook : cx.registry.encoder? (.array t n) = none)
    (h : cx.WritesItems (.replicate ds.length t) ds xs) :
    cx.Writes (.array t n) (.seq ds) (.array xs) := by
  refine .layer hook fun e he limit depth deep => ?_
  obtain ⟨es, rfl, same⟩ := he.seq_inv
  rw [Datum.height] at deep
  have written := h es same limit depth (.array t n) (by omega)
  rw [same.length_eq] at written
  simp only [encodeLayer, encodeItems_eq _ (.array t n), written]
  rfl

theorem Writes.tuple {ts : List Ty} {ds : List Datum} {xs : List Tree}
    (hook : cx.registry.encoder? (.tuple ts) = none) (h : cx.WritesItems ts ds xs) :
    cx.Writes (.tuple ts) (.product ds) (.array xs) := by
  refine .layer hook fun e he limit depth deep => ?_
  obtain ⟨es, rfl, same⟩ := he.product_inv
  rw [Datum.height] at deep
  have written := h es same limit depth (.tuple ts) (by omega)
  simp only [encodeLayer, written]
  rfl

theorem Writes.positional {name : String} {fs : List Field} {ds : List Datum} {xs : List Tree}
    (hook : cx.registry.encoder? (.named name) = none)
    (body : cx.catalogue.body? name = some (.tuple fs))
    (h : cx.WritesItems (fs.map Field.ty) ds xs) : cx.Writes (.named name) (.product ds) (.array xs) := by
  refine .layer hook fun e he limit depth deep => ?_
  obtain ⟨es, rfl, same⟩ := he.product_inv
  rw [Datum.height] at deep
  have written := h es same limit depth (.named name) (by omega)
  have body' : (cx.withDepth limit).catalogue.body? name = some (.tuple fs) := body
  simp only [encodeLayer, body', encodeDeclared, written]
  rfl

/-- A record is written as what its fields were read from. -/
theorem WritesFields.record {name : String} {fs : List Field} {ds : List Datum} {o : Object}
    (hook : cx.registry.encoder? (.named name) = none)
    (body : cx.catalogue.body? name = some (.record fs)) (h : cx.WritesFields fs ds o) :
    ∃ es : Object, es.Sorted ∧ o.IsPart (fun k => ∃ f ∈ fs, cx.FieldConsumes f k) es ∧
      cx.Writes (.named name) (.product ds) (.object es) := by
  obtain ⟨ps, part, -⟩ := h ds (Datum.Same.forall₂_refl ds) 0 _ (.named name) (Nat.le_refl _)
  refine ⟨_, Object.sorted_ofList ps, part.put_together, .layer hook fun e he limit depth deep => ?_⟩
  obtain ⟨es, rfl, same⟩ := he.product_inv
  rw [Datum.height] at deep
  obtain ⟨ps', part', written⟩ := h es same limit depth (.named name) (by omega)
  have body' : (cx.withDepth limit).catalogue.body? name = some (.record fs) := body
  simp only [encodeLayer, body', encodeDeclared, encodeFields_eq, written]
  exact congrArg (Except.ok ∘ Tree.object) (part'.unique part)

theorem wrapNonZero_eq {k : IntTy} {e : Datum} (h : wrapNonZero k e = .ok d) : d = .wrapped e := by
  rw [wrapNonZero.eq_def] at h
  split at h <;> cases h
  rfl

end Codec

end TreeCodec
