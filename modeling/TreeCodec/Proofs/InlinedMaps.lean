import TreeCodec.Proofs.RoundTrip

/-!
# Maps inlined into records

The entries of an inlined map stand in the object of its record, among the other fields. The
map is read from that whole object: it gets back the entries that it had, and with them an
entry for each of the other fields (`fromTree_toTree_inlined_map`). So the datum of such a
record comes back if and only if the record has no other field.

* `Codec.MapRecord`: a record with an inlined map, and `Codec.TakesSiblings`: what such a
  record is read as;
* `Codec.yields_mapRecord`: an inlined map is read from an object entry by entry;
* `Codec.MapRecord.of_encode`: what is written of a datum of such a record.
-/

namespace TreeCodec

/-- Entries that are related to entries put one behind another fall apart like these. -/
theorem forall₂_append {α β : Type} {R : α → β → Prop} {xs ys : List α} {zs : List β}
    (h : List.Forall₂ R (xs ++ ys) zs) :
    ∃ us vs, zs = us ++ vs ∧ List.Forall₂ R xs us ∧ List.Forall₂ R ys vs :=
  ⟨zs.take xs.length, zs.drop xs.length, (List.take_append_drop ..).symm,
    (List.forall₂_take_append zs xs ys h.flip).flip, (List.forall₂_drop_append zs xs ys h.flip).flip⟩

/-- A field under its own key, which is always there. -/
structure Field.IsPlain (f : Field) : Prop where
  kept : f.skipped = false
  apart : f.inline = false
  always : f.omitEmpty = false

namespace Codec

/-- A record that inlines one map, from texts to values without loss. Its other fields are
without loss too, and stand under keys of their own. -/
structure MapRecord (cx : Codec) (name : String) (before : List Field) (g : Field)
    (after : List Field) (value : Ty) : Prop where
  body : cx.catalogue.body? name = some (.record (before ++ g :: after))
  map : ∃ a, g.ty = .map a .string value
  kept : g.skipped = false
  inline : g.inline = true
  plain : ∀ f ∈ before ++ after, f.IsPlain
  keys : ((before ++ after).map Field.key).Nodup
  lossless : ∀ f ∈ before ++ after, cx.Lossless f.ty
  value : cx.Lossless value

/-- What a record with an inlined map is read as, its map being `es` and the data of its other
fields `ds` and `us`: the fields are what they were, and so are the map's own entries, but
the map has an entry for each of the other fields as well. -/
def TakesSiblings (before after : List Field) (ds : List Datum) (es : List (Datum × Datum))
    (us : List Datum) (w : Datum) : Prop :=
  ∃ ws entries vs, w = .product (ws ++ .map entries :: vs) ∧
    List.Forall₂ Datum.Same ds ws ∧ List.Forall₂ Datum.Same us vs ∧
    ∃ own others, entries.Perm (own ++ others) ∧ (Datum.map es).Same (.map own) ∧
      others.map Prod.fst = (before ++ after).map fun f => .text f.key

/-! ## Reading -/

section Reading

variable {cx : Codec} {dec : Decoder (Except Error)} {s : Scope} {value : Ty} {o : Object}

theorem keys_of_readsEntry {es : List (Datum × Datum)}
    (h : List.Forall₂ (cx.ReadsEntry dec s .string value) o es) :
    es.map Prod.fst = o.map fun p => .text p.1 := by
  induction h with
  | nil => rfl
  | @cons p e o es first _ ih =>
    obtain ⟨k, d⟩ := e
    cases first.1
    rw [List.map_cons, List.map_cons, ih]

theorem yields_fields {ty : Ty} {i : Nat} {before : List Field} {g : Field} {after : List Field}
    {ws : List Datum}
    (read : Yields (decodeFields cx dec s ty o i (before ++ g :: after)) ws) :
    ∃ us d vs, ws = us ++ d :: vs ∧ Yields (decodeFields cx dec s ty o i before) us ∧
      Yields (decodeField cx dec s ty o i g) d ∧
      Yields (decodeFields cx dec s ty o (i + 1) after) vs := by
  rw [decodeFields_append] at read
  obtain ⟨us, first, read⟩ := read.of_bind
  obtain ⟨rest, rfl, others⟩ := read.of_map
  obtain ⟨d, middle, others⟩ := others.of_bind
  obtain ⟨vs, rfl, last⟩ := others.of_map
  exact ⟨us, d, vs, rfl, first, middle, last⟩

/-- An inlined map is read from the object of its record, entry by entry. -/
theorem yields_mapRecord {name : String} {before : List Field} {g : Field} {after : List Field}
    {depth : Nat} {w : Datum} (initial : cx.registry = .initial)
    (record : cx.MapRecord name before g after value)
    (read : Yields ((decoder cx (depth + 2)).tree s (.named name) (.object o)) w) :
    ∃ us entries vs, w = .product (us ++ .map entries :: vs) ∧
      Yields (decodeFields cx (decoder cx (depth + 1)) s (.named name) o 0 before) us ∧
      List.Forall₂ (cx.ReadsEntry (decoder cx depth) s.inline .string value) o entries ∧
      Yields (decodeFields cx (decoder cx (depth + 1)) s (.named name) o 1 after) vs := by
  have layer := yields_layer (Tree.object_ne_null o) (decoder?_of_initial initial (by simp)) read
  simp only [decodeLayer, record.body, decodeDeclared] at layer
  obtain ⟨ws, rfl, fields⟩ := yields_record layer
  obtain ⟨us, d, vs, rfl, first, middle, last⟩ := yields_fields fields
  obtain ⟨a, map⟩ := record.map
  rw [decodeField_inlined record.kept record.inline, map] at middle
  obtain ⟨entries, rfl, inlined⟩ :=
    (yields_objectLayer (decoder?_of_initial initial (by simp)) middle).of_map
  exact ⟨us, entries, vs, rfl, first, yields_entries inlined, last⟩

end Reading

/-! ## Writing -/

section Writing

variable {cx : Codec} {depth : Nat}

/-- A plain field is written under its key. -/
theorem keys_of_contributions {ty : Ty} {fs : List Field} {ds : List Datum}
    {ps : List (String × Tree)} (plain : ∀ f ∈ fs, f.IsPlain)
    (h : cx.contributions (encode cx depth) ty fs ds = .ok ps) :
    ps.map (·.1) = fs.map Field.key := by
  induction fs generalizing ds ps with
  | nil =>
    cases ds <;> cases h
    rfl
  | cons f fs ih =>
    cases ds with
    | nil => cases h
    | cons d ds =>
      obtain ⟨kept, apart, always⟩ := plain f List.mem_cons_self
      obtain ⟨es, first, h⟩ := of_bind_ok h
      obtain ⟨rest, last, h⟩ := of_bind_ok h
      cases h
      simp only [contribution, kept, always, Bool.false_and, Bool.or_false, Bool.false_eq_true,
        if_false] at first
      obtain ⟨x, -, first⟩ := of_bind_ok first
      rw [entriesOf_apart apart, always] at first
      cases first
      exact congrArg (f.key :: ·) (ih (fun g hg => plain g (List.mem_cons_of_mem _ hg)) last)

/-- An inlined map puts its entries there. -/
theorem of_contribution_map {g : Field} {a : Arrangement} {key value : Ty} {es : List (Datum × Datum)}
    {ps : List (String × Tree)} (initial : cx.registry = .initial) (map : g.ty = .map a key value)
    (kept : g.skipped = false) (inline : g.inline = true)
    (h : cx.contribution (encode cx depth) g (.map es) = .ok ps) :
    ∃ k qs, cx.mapEntries (encode cx k value) key es = .ok qs ∧ ps = Object.ofList qs := by
  rw [contribution, kept, Bool.false_or, map] at h
  split at h
  · rename_i out
    rw [Bool.and_eq_true] at out
    have empty : es = [] := by
      simpa [Catalogue.isZero, Catalogue.isTransparent, Catalogue.inner?, Catalogue.isZeroLayer,
        Catalogue.text?, Catalogue.peel] using out.2
    subst empty
    cases h
    exact ⟨0, [], rfl, rfl⟩
  · obtain ⟨x, hx, h⟩ := of_bind_ok h
    cases depth with
    | zero => cases hx
    | succ depth =>
      rw [encode_unhooked (encoder?_of_initial initial (by simp))] at hx
      obtain ⟨qs, hqs, rfl⟩ := of_encode_map hx
      rw [entriesOf_inlined inline] at h
      cases h
      exact ⟨depth, qs, hqs, rfl⟩

end Writing

/-! ## What comes back -/

section Parts

variable {cx : Codec} {name : String} {before : List Field} {g : Field} {after : List Field}
  {value : Ty} {ds us : List Datum} {es : List (Datum × Datum)} {below : Nat}

theorem fieldConsumes_plain {f : Field} (plain : f.IsPlain) {k : String} :
    cx.FieldConsumes f k ↔ k = f.key := by
  simp [FieldConsumes, plain.kept, plain.apart]

/-- Plain fields come back. -/
theorem Restores.plain {L : Ty → Prop} {dec : Decoder (Except Error)} {height : Nat}
    (closed : ∀ t, L t → cx.Faithful L t) (hd : cx.Restores dec L height) {ty : Ty} {fs : List Field}
    {depth : Nat} {ps : List (String × Tree)} (h : ∀ f ∈ fs, L f.ty) (plain : ∀ f ∈ fs, f.IsPlain)
    (keys : (fs.map Field.key).Nodup) (typed : HasTypes cx.catalogue (fs.map Field.ty) ds)
    (low : Datum.heights ds ≤ height)
    (hx : cx.contributions (encode cx depth) ty fs ds = .ok ps) : cx.FieldsComeBack dec fs ds ps := by
  refine hd.fields closed h (fun f hf => (plain f hf).kept) ?_ (fun f hf inline => ?_)
    (fun f hf omits => ?_) typed low hx
  · rw [List.Nodup, List.pairwise_map] at keys
    refine keys.imp_of_mem fun hf hg distinct k hk hk' => distinct ?_
    rw [fieldConsumes_plain (plain _ hf)] at hk
    rw [fieldConsumes_plain (plain _ hg)] at hk'
    exact hk.symm.trans hk'
  · rw [(plain f hf).apart] at inline
    cases inline
  · rw [(plain f hf).always] at omits
    cases omits

/-- The entries in the object of a record with an inlined map: those of the fields before
it, its own, and those of the fields behind it. -/
structure MapParts (cx : Codec) (below : Nat) (before after : List Field) (value : Ty)
    (ds : List Datum) (es : List (Datum × Datum)) (us : List Datum)
    (ps ms qs : List (String × Tree)) : Prop where
  ahead : cx.FieldsComeBack (decoder cx (below + 1)) before ds ps
  aheadKeys : ps.map (·.1) = before.map Field.key
  own : ∃ es', es.Perm es' ∧ List.Forall₂ (cx.EntryComesBack (decoder cx below) .string value) ms es'
  ownKeys : (ms.map (·.1)).Nodup
  behind : cx.FieldsComeBack (decoder cx (below + 1)) after us qs
  behindKeys : qs.map (·.1) = after.map Field.key

theorem MapRecord.of_hasType (record : cx.MapRecord name before g after value)
    (length : before.length = ds.length)
    (typed : HasType cx.catalogue (.named name) (.product (ds ++ .map es :: us))) :
    HasTypes cx.catalogue (before.map Field.ty) ds ∧
      ((es.map Prod.fst).Nodup ∧ (∀ e ∈ es, HasType cx.catalogue .string e.1) ∧
        ∀ e ∈ es, HasType cx.catalogue value e.2) ∧
      HasTypes cx.catalogue (after.map Field.ty) us := by
  obtain ⟨_, product, typeds⟩ := typed.record_inv record.body
  cases product
  obtain ⟨a, map⟩ := record.map
  rw [List.map_append, List.map_cons, map] at typeds
  obtain ⟨first, typeds⟩ := typeds.append_inv (by rw [List.length_map, length])
  cases typeds with
  | cons middle last =>
    cases middle with
    | map _ distinct hk hv => exact ⟨first, ⟨distinct, hk, hv⟩, last⟩

/-- What the fields of such a record put into its object, one after another. -/
theorem MapRecord.of_contributions (initial : cx.registry = .initial)
    (record : cx.MapRecord name before g after value) (length : before.length = ds.length)
    {depth : Nat} {ty : Ty} {all : List (String × Tree)}
    (h : cx.contributions (encode cx depth) ty (before ++ g :: after) (ds ++ .map es :: us) = .ok all) :
    ∃ ps ms qs k, all = ps ++ (Object.ofList ms ++ qs) ∧
      cx.contributions (encode cx depth) ty before ds = .ok ps ∧
      cx.mapEntries (encode cx k value) .string es = .ok ms ∧
      cx.contributions (encode cx depth) ty after us = .ok qs := by
  rw [contributions_append _ _ _ length] at h
  obtain ⟨ps, hps, h⟩ := of_bind_ok h
  obtain ⟨rest, hrest, h⟩ := of_bind_ok h
  obtain ⟨own, hown, hrest⟩ := of_bind_ok hrest
  obtain ⟨qs, hqs, hrest⟩ := of_bind_ok hrest
  cases hrest
  cases h
  obtain ⟨a, map⟩ := record.map
  obtain ⟨k, ms, hms, rfl⟩ := of_contribution_map initial map record.kept record.inline hown
  exact ⟨ps, ms, qs, k, rfl, hps, hms, hqs⟩

theorem MapRecord.of_encode (initial : cx.registry = .initial)
    (record : cx.MapRecord name before g after value) (length : before.length = ds.length)
    (typed : HasType cx.catalogue (.named name) (.product (ds ++ .map es :: us)))
    (low : (Datum.product (ds ++ .map es :: us)).height ≤ below + 2) {depth : Nat} {x : Tree}
    (hx : encode cx depth (.named name) (.product (ds ++ .map es :: us)) =
      (.ok x : Except Error Tree)) :
    ∃ ps ms qs, x = .object (Object.ofList (ps ++ (ms ++ qs))) ∧
      cx.MapParts below before after value ds es us ps ms qs := by
  have faithful t (h : cx.Lossless t) : cx.Faithful cx.Lossless t := h.layer.faithful initial
  have restores n := restores_decoder faithful n
  cases depth with
  | zero => cases hx
  | succ depth =>
  rw [encode_unhooked (encoder?_of_initial initial (by simp))] at hx
  obtain ⟨all, hall, rfl⟩ := of_encode_record record.body hx
  obtain ⟨ps, ms, qs, k, rfl, hps, hms, hqs⟩ := record.of_contributions initial length hall
  obtain ⟨first, ⟨distinct, hk, hv⟩, last⟩ := record.of_hasType length typed
  rw [Datum.height, Nat.succ_le_succ_iff, Datum.heights_append, Nat.max_le, Datum.heights,
    Nat.max_le, Datum.height, Nat.succ_le_succ_iff] at low
  have plain := record.plain
  have lossless := record.lossless
  have keys := record.keys
  rw [List.map_append, List.nodup_append] at keys
  simp only [List.forall_mem_append] at plain lossless
  have entries := (restores below).entries record.value hk hv low.2.1 hms
  have names := nodup_texts .string entries distinct
  have order := Object.perm_ofList names
  obtain ⟨es', sorted, order'⟩ := List.perm_comp_forall₂ order entries
  refine ⟨ps, _, qs, rfl, ?_, keys_of_contributions plain.1 hps, ⟨es', order'.symm, sorted⟩, ?_, ?_,
    keys_of_contributions plain.2 hqs⟩
  · exact (restores _).plain faithful lossless.1 plain.1 keys.1 first low.1 hps
  · exact (order.map _).nodup_iff.mpr names
  · exact (restores _).plain faithful lossless.2 plain.2 keys.2.1 last low.2.2 hqs

/-! ## What is read back -/

section Back

variable {dec : Decoder (Except Error)} {s : Scope} {ps ms qs : List (String × Tree)}

theorem keys_of_entriesComeBack (h : List.Forall₂ (cx.EntryComesBack dec .string value) ps es) :
    es.map Prod.fst = ps.map fun p => .text p.1 := by
  induction h with
  | nil => rfl
  | @cons p e ps es first _ ih =>
    obtain ⟨k, d⟩ := e
    obtain ⟨typed, spelled, -⟩ := first
    cases typed
    cases spelled
    rw [List.map_cons, List.map_cons, ih]

/-- Entries that come back are read as such. -/
theorem same_of_readsEntry {zs : List (Datum × Datum)}
    (h : List.Forall₂ (cx.EntryComesBack dec .string value) ps es)
    (read : List.Forall₂ (cx.ReadsEntry dec s .string value) ps zs) :
    List.Forall₂ Datum.Same (es.map Prod.snd) (zs.map Prod.snd) := by
  induction h generalizing zs with
  | nil =>
    cases read
    exact .nil
  | cons first _ ih =>
    cases read with
    | cons there rest =>
      obtain ⟨d, same, given⟩ := first.2.2.read (s.enter (.key _))
      cases given.eq_of_yields there.2
      exact .cons same (ih rest)

namespace MapParts

variable (parts : cx.MapParts below before after value ds es us ps ms qs)
include parts

theorem mem_keys {k : String} (hk : k ∈ ms.map (·.1)) : .text k ∈ es.map Prod.fst := by
  obtain ⟨es', order, own⟩ := parts.own
  rw [(order.map Prod.fst).mem_iff, keys_of_entriesComeBack own]
  obtain ⟨p, hp, rfl⟩ := List.mem_map.mp hk
  exact List.mem_map.mpr ⟨p, hp, rfl⟩

/-- No key is there twice if the map has none of the other fields' keys. -/
theorem nodup (keys : ((before ++ after).map Field.key).Nodup)
    (apart : ∀ f ∈ before ++ after, .text f.key ∉ es.map Prod.fst) :
    ((ps ++ (ms ++ qs)).map (·.1)).Nodup := by
  rw [List.map_append, List.map_append, parts.aheadKeys, parts.behindKeys,
    (List.perm_append_comm_assoc ..).nodup_iff, ← List.map_append]
  refine List.nodup_append.mpr ⟨parts.ownKeys, keys, fun k hk j hj same => ?_⟩
  obtain ⟨f, hf, rfl⟩ := List.mem_map.mp hj
  exact apart f hf (same ▸ parts.mem_keys hk)

variable (plain : ∀ f ∈ before ++ after, f.IsPlain) (nodup : ((ps ++ (ms ++ qs)).map (·.1)).Nodup)
include nodup

include plain in
/-- The map does not disturb the fields before it. -/
theorem same_ahead {ty : Ty} {i : Nat} {ws : List Datum}
    (read : Yields (decodeFields cx (decoder cx (below + 1)) s ty
      (Object.ofList (ps ++ (ms ++ qs))) i before) ws) : List.Forall₂ Datum.Same ds ws := by
  rw [List.map_append, List.nodup_append] at nodup
  have agree (k : String) (hk : ∃ f ∈ before, cx.FieldConsumes f k) :
      Object.find? (Object.ofList (ps ++ (ms ++ qs))) k = Object.find? (Object.ofList ps) k := by
    obtain ⟨f, hf, hk⟩ := hk
    rw [fieldConsumes_plain (plain f (List.mem_append_left _ hf))] at hk
    have own : k ∈ ps.map (·.1) := by
      rw [parts.aheadKeys, hk]
      exact List.mem_map_of_mem hf
    exact Object.find?_ofList_ahead fun h => nodup.2.2 k own k h rfl
  obtain ⟨ws', same, given⟩ := parts.ahead.read agree s ty i
  cases given.eq_of_yields read
  exact same

include plain in
/-- Nor the fields behind it. -/
theorem same_behind {ty : Ty} {i : Nat} {ws : List Datum}
    (read : Yields (decodeFields cx (decoder cx (below + 1)) s ty
      (Object.ofList (ps ++ (ms ++ qs))) i after) ws) : List.Forall₂ Datum.Same us ws := by
  rw [← List.append_assoc, List.map_append, List.nodup_append] at nodup
  have agree (k : String) (hk : ∃ f ∈ after, cx.FieldConsumes f k) :
      Object.find? (Object.ofList (ps ++ (ms ++ qs))) k = Object.find? (Object.ofList qs) k := by
    obtain ⟨f, hf, hk⟩ := hk
    rw [fieldConsumes_plain (plain f (List.mem_append_right _ hf))] at hk
    have own : k ∈ qs.map (·.1) := by
      rw [parts.behindKeys, hk]
      exact List.mem_map_of_mem hf
    rw [← List.append_assoc]
    exact Object.find?_ofList_behind fun h => nodup.2.2 k h k own rfl
  obtain ⟨ws', same, given⟩ := parts.behind.read agree s ty i
  cases given.eq_of_yields read
  exact same

/-- The map gets back its own entries, and an entry for each of the other fields. -/
theorem own_and_others {entries : List (Datum × Datum)}
    (read : List.Forall₂ (cx.ReadsEntry (decoder cx below) s .string value)
      (Object.ofList (ps ++ (ms ++ qs))) entries) :
    ∃ own others, entries.Perm (own ++ others) ∧ (Datum.map es).Same (.map own) ∧
      others.map Prod.fst = (before ++ after).map fun f => .text f.key := by
  obtain ⟨zs, read, order⟩ := List.perm_comp_forall₂ (Object.perm_ofList nodup).symm read
  obtain ⟨xs, rest, rfl, first, read⟩ := forall₂_append read
  obtain ⟨own, ys, rfl, middle, last⟩ := forall₂_append read
  obtain ⟨es', order', back⟩ := parts.own
  refine ⟨own, xs ++ ys, order.symm.trans (List.perm_append_comm_assoc ..), ?_, ?_⟩
  · have keys := (keys_of_entriesComeBack back).trans (keys_of_readsEntry middle).symm
    exact .map order' keys (same_of_readsEntry back middle)
  · have text (rs : List (String × Tree)) (fs : List Field) (h : rs.map (·.1) = fs.map Field.key) :
        (rs.map fun p => Datum.text p.1) = fs.map fun f => .text f.key := by
      have texts := congrArg (List.map Datum.text) h
      rwa [List.map_map, List.map_map] at texts
    rw [List.map_append, List.map_append, keys_of_readsEntry first, keys_of_readsEntry last,
      text ps before parts.aheadKeys, text qs after parts.behindKeys]

end MapParts

end Back

/-- A record of nothing but an inlined map comes back. -/
theorem MapRecord.gives_alone {s : Scope} {ms : List (String × Tree)} (initial : cx.registry = .initial)
    (record : cx.MapRecord name [] g [] value) (names : (ms.map (·.1)).Nodup)
    (own : ∃ es', es.Perm es' ∧
      List.Forall₂ (cx.EntryComesBack (decoder cx below) .string value) ms es') :
    ∃ zs, (Datum.map es).Same (.map zs) ∧
      Gives ((decoder cx (below + 2)).tree s (.named name) (.object (Object.ofList ms)))
        (.product [.map zs]) := by
  obtain ⟨es', order, back⟩ := own
  obtain ⟨ys, sorted, order'⟩ := List.perm_comp_forall₂ (Object.perm_ofList names) back
  obtain ⟨zs, keys, values, given⟩ := read_entries .string sorted s.inline
  refine ⟨zs, .map (order.trans order'.symm) keys values, ?_⟩
  refine gives_layer (Tree.object_ne_null _) (decoder?_of_initial initial (by simp)) ?_
  simp only [decodeLayer, record.body, decodeDeclared, List.nil_append]
  refine gives_record ?_
  obtain ⟨a, map⟩ := record.map
  rw [decodeFields, decodeField_inlined record.kept record.inline, map]
  have field : Gives ((decoder cx (below + 1)).object s.inline (.map a .string value)
      (Object.ofList ms)) (.map zs) :=
    gives_objectLayer (decoder?_of_initial initial (by simp)) (given.map Datum.map)
  exact field.bind ((Gives.pure []).map (_ :: ·))

end Parts

/-- What is read of the tree of a record with an inlined map. -/
theorem MapRecord.of_fromTree {cx : Codec} (initial : cx.registry = .initial) {name : String}
    {before after : List Field} {g : Field} {value : Ty}
    (record : cx.MapRecord name before g after value) {below : Nat} (deep : cx.maxDepth = below + 2)
    {ds us : List Datum} {es : List (Datum × Datum)} {ps ms qs : List (String × Tree)}
    (parts : cx.MapParts below before after value ds es us ps ms qs)
    (apart : ∀ f ∈ before ++ after, .text f.key ∉ es.map Prod.fst) {w : Datum}
    (read : cx.fromTree false (.named name) (.object (Object.ofList (ps ++ (ms ++ qs)))) =
      (.ok w : Except Error Datum)) :
    TakesSiblings before after ds es us w := by
  have place : Simulation.quiet.place (.root false) (.root false) := rfl
  have notes := (cx.quiet_decoder cx.maxDepth).tree place (.named name)
    (.object (Object.ofList (ps ++ (ms ++ qs))))
  obtain ⟨yields, -⟩ := of_build_ok notes read
  rw [deep] at yields
  obtain ⟨ws, entries, vs, rfl, first, middle, last⟩ := yields_mapRecord initial record yields
  have nodup := parts.nodup record.keys apart
  exact ⟨ws, entries, vs, rfl, parts.same_ahead record.plain nodup first,
    parts.same_behind record.plain nodup last, parts.own_and_others nodup middle⟩

/-- A map that has taken in the key of another field is not what it was. -/
theorem TakesSiblings.eq_nil_of_same {before after : List Field} {ds us : List Datum}
    {es : List (Datum × Datum)} {w : Datum} (h : TakesSiblings before after ds es us w)
    (apart : ∀ f ∈ before ++ after, .text f.key ∉ es.map Prod.fst)
    (same : (Datum.product (ds ++ .map es :: us)).Same w) : before ++ after = [] := by
  obtain ⟨ws, entries, vs, rfl, ahead, -, own, others, order, -, keys⟩ := h
  obtain ⟨all, product, members⟩ := same.product_inv
  cases product
  obtain ⟨ws', rest, split, first, members⟩ := forall₂_append members
  obtain ⟨rfl, rfl⟩ := List.append_inj split (ahead.length_eq.symm.trans first.length_eq)
  cases members with
  | cons map _ =>
  obtain ⟨ys, zs, entries', order', keys', -⟩ := map.map_inv
  cases entries'
  refine List.eq_nil_iff_forall_not_mem.mpr fun f hf => apart f hf ?_
  rw [(order'.map Prod.fst).mem_iff, keys', (order.map Prod.fst).mem_iff, List.map_append,
    List.mem_append, keys]
  exact .inr (List.mem_map_of_mem hf)

end Codec

/-- The tree of a record with an inlined map is read as the record if and only if it has no
other field. Whatever it is read as, the map takes in what stands beside it. -/
theorem fromTree_toTree_inlined_map (cx : Codec) (initial : cx.registry = .initial) {name : String}
    {before after : List Field} {g : Field} {value : Ty}
    (record : cx.MapRecord name before g after value) {ds us : List Datum}
    {es : List (Datum × Datum)} (length : before.length = ds.length)
    (typed : HasType cx.catalogue (.named name) (.product (ds ++ .map es :: us)))
    (valid : cx.catalogue.Valid (.named name) (.product (ds ++ .map es :: us)))
    (apart : ∀ f ∈ before ++ after, .text f.key ∉ es.map Prod.fst)
    (deep : (Datum.product (ds ++ .map es :: us)).height ≤ cx.maxDepth) {x : Tree}
    (written : cx.toTree (.named name) (.product (ds ++ .map es :: us)) =
      (.ok x : Except Error Tree)) :
    ((∃ e, (Datum.product (ds ++ .map es :: us)).Same e ∧
        cx.fromTree false (.named name) x = (.ok e : Except Error Datum)) ↔ before ++ after = []) ∧
      ∀ w, cx.fromTree false (.named name) x = (.ok w : Except Error Datum) →
        Codec.TakesSiblings before after ds es us w := by
  obtain ⟨below, limit⟩ : ∃ n, cx.maxDepth = n + 2 := by
    refine Nat.exists_eq_add_of_le' (Nat.le_trans (Nat.succ_le_succ ?_) deep)
    exact Nat.le_trans (Datum.height_pos (.map es)) (Datum.height_le_of_mem (by simp))
  obtain ⟨ps, ms, qs, rfl, parts⟩ :=
    Codec.MapRecord.of_encode initial record length typed (limit ▸ deep) written
  have back {w} := record.of_fromTree initial limit parts apart (w := w)
  refine ⟨⟨fun ⟨e, same, read⟩ => ?_, fun alone => ?_⟩, fun w => back⟩
  · exact (back read).eq_nil_of_same apart same
  · obtain ⟨rfl, rfl⟩ := List.append_eq_nil_iff.mp alone
    obtain rfl := List.map_eq_nil_iff.mp parts.aheadKeys
    obtain rfl := List.map_eq_nil_iff.mp parts.behindKeys
    obtain rfl := List.length_eq_zero_iff.mp length.symm
    obtain ⟨all, product, typeds⟩ := typed.record_inv record.body
    cases product
    obtain rfl := List.length_eq_zero_iff.mp (Nat.succ.inj typeds.length_eq.symm)
    obtain ⟨zs, same, given⟩ := record.gives_alone initial parts.ownKeys parts.own
    have same : (Datum.product [.map es]).Same (.product [.map zs]) := .product (.cons same .nil)
    refine ⟨_, same, Codec.fromTree_of_gives ?_ (valid _ same)⟩
    rw [limit, List.nil_append, List.append_nil]
    exact given

/-! ## Tags -/

namespace Catalogue

/-- The name of a thing. -/
def thingName : Field := { key := "name", ty := .string }

/-- The tags of a thing. -/
def thingTags : Field := { key := "tags", ty := .map .ordered .string .string, inline := true }

/-- Things with a name, and with tags beside it. -/
def things : Catalogue where
  decls := [("thing", { body := .record [thingName, thingTags] })]

end Catalogue

namespace Codec

def things (maxDepth : Nat) : Codec := ⟨.things, .initial, maxDepth⟩

theorem mapRecord_thing (maxDepth : Nat) :
    (things maxDepth).MapRecord "thing" [Catalogue.thingName] Catalogue.thingTags [] .string := by
  have text : (things maxDepth).Lossless .string :=
    ⟨(· = .string), rfl, by rintro t rfl; exact .scalar rfl⟩
  refine ⟨rfl, ⟨_, rfl⟩, rfl, rfl, ?_, by simp, ?_, text⟩ <;>
    simp only [List.append_nil, List.forall_mem_cons]
  · exact ⟨⟨rfl, rfl, rfl⟩, by simp⟩
  · exact ⟨text, by simp⟩

end Codec

theorem hasType_thing (name : String) {es : List (Datum × Datum)} (distinct : (es.map Prod.fst).Nodup)
    (hk : ∀ e ∈ es, HasType .things .string e.1) (hv : ∀ e ∈ es, HasType .things .string e.2) :
    HasType .things (.named "thing") (.product [.text name, .map es]) :=
  .record rfl (.cons (.string name) (.cons (.map _ distinct hk hv) .nil))

/-- A thing with a tag. -/
theorem fromTree_toTree_inlined_map_thing :
    let cx := Codec.things Codec.defaultDepth
    let tag := (Datum.text "k", Datum.text "v")
    let d := Datum.product [.text "a", .map [tag]]
    ∃ x, HasType .things (.named "thing") d ∧
      cx.toTree (.named "thing") d = (.ok x : Except Error Tree) ∧
      (¬ ∃ e, d.Same e ∧ cx.fromTree false (.named "thing") x = (.ok e : Except Error Datum)) ∧
      ∀ w, cx.fromTree false (.named "thing") x = (.ok w : Except Error Datum) →
        Codec.TakesSiblings [Catalogue.thingName] [] [.text "a"] [tag] [] w := by
  intro cx tag d
  have typed : HasType .things (.named "thing") d :=
    hasType_thing "a" (by simp) (by simp [tag, HasType.string]) (by simp [tag, HasType.string])
  have split : d = .product ([.text "a"] ++ .map [tag] :: []) := rfl
  rw [split] at typed ⊢
  obtain ⟨alone, back⟩ := fromTree_toTree_inlined_map cx rfl (Codec.mapRecord_thing _) rfl typed
    (fun _ _ => rfl) (by simp [tag, Catalogue.thingName]) (by decide) rfl
  exact ⟨_, typed, rfl, fun same => List.cons_ne_nil _ _ (alone.mp same), back⟩

/-- A thing without tags comes back with one, however deep the codec goes: the tag is its
name. -/
theorem name_becomes_tag :
    let thing := Datum.product [.text "a", .map []]
    let tagged := Datum.product [.text "a", .map [(.text "name", .text "a")]]
    (∀ maxDepth, (Codec.things maxDepth).MapRecord "thing" [Catalogue.thingName]
      Catalogue.thingTags [] .string) ∧
    HasType .things (.named "thing") thing ∧ ¬ thing.Same tagged ∧
    ∀ maxDepth, 3 ≤ maxDepth → ∃ x,
      (Codec.things maxDepth).toTree (.named "thing") thing = (.ok x : Except Error Tree) ∧
      (Codec.things maxDepth).fromTree false (.named "thing") x =
        (.ok tagged : Except Error Datum) := by
  intro thing tagged
  refine ⟨Codec.mapRecord_thing, hasType_thing "a" .nil (by simp) (by simp), fun same => ?_,
    fun maxDepth deep => ?_⟩
  · obtain ⟨_, product, members⟩ := same.product_inv
    obtain rfl := Datum.product.inj product
    cases members with
    | cons _ members =>
    cases members with
    | cons map _ =>
    obtain ⟨ys, zs, entries, order, keys, -⟩ := map.map_inv
    cases entries
    cases order.nil_eq
    cases keys
  · obtain ⟨k, rfl⟩ := Nat.exists_eq_add_of_le' deep
    exact ⟨_, rfl, rfl⟩

end TreeCodec
