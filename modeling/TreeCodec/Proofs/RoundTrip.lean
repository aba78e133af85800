import Mathlib.Data.List.Perm.Basic
import TreeCodec.Proofs.Recovery

/-!
# Data come back from their trees

The tree of a datum of a lossless type is read as the datum, strictly or not
(`fromTree_toTree`). The proof is by the depth of the reading, which must not be less than
the height of the datum: if the parts of data come back (`Codec.Restores`), so do the data
(`Codec.Restores.step`).
-/

namespace TreeCodec

namespace Codec

/-- A decoder that restores data up to a height, of the types of a set. -/
structure Restores (cx : Codec) (dec : Decoder (Except Error)) (L : Ty → Prop) (height : Nat) : Prop where
  tree {ty : Ty} {d : Datum} {depth : Nat} {x : Tree} (h : L ty) (hd : HasType cx.catalogue ty d)
    (low : d.height ≤ height) (hx : encode cx depth ty d = (.ok x : Except Error Tree)) :
    cx.ComesBack dec ty d x
  part {ty : Ty} {d : Datum} {depth : Nat} {x : Tree} (h : L ty)
    (record : cx.catalogue.ReachesRecord ty) (bare : cx.Bare ty) (hd : HasType cx.catalogue ty d)
    (low : d.height ≤ height) (hx : encode cx depth ty d = (.ok x : Except Error Tree)) :
    ∃ es, x = .object es ∧ cx.PartComesBack dec ty d es

namespace Restores

variable {cx : Codec} {L : Ty → Prop} (closed : ∀ t, L t → cx.Faithful L t)
  {dec : Decoder (Except Error)} {height : Nat}
  (hd : cx.Restores dec L height)

/-! ## Fields -/

section Fields

include closed hd

theorem field {f : Field} {d : Datum} {depth : Nat} {es : List (String × Tree)} (h : L f.ty)
    (kept : f.skipped = false)
    (inlined : f.inline = true → cx.catalogue.ReachesRecord f.ty ∧ cx.Bare f.ty)
    (omitted : f.omitEmpty = true → f.default? = none ∧ f.ty.isOmittable = true)
    (typed : HasType cx.catalogue f.ty d) (low : d.height ≤ height)
    (hx : cx.contribution (encode cx depth) f d = .ok es) : cx.FieldComesBack dec f d es := by
  have apart (leaves : f.omitEmpty = true) : f.inline = false := by
    rcases inline : f.inline with _ | _
    · rfl
    · have omittable := (omitted leaves).2
      rw [(inlined inline).1.isOmittable_eq] at omittable
      cases omittable
  rw [contribution, kept, Bool.false_or] at hx
  split at hx
  · rename_i out
    cases hx
    rw [Bool.and_eq_true] at out
    obtain ⟨none, omittable⟩ := omitted out.1
    refine .omitted kept (apart out.1) ?_
    rw [Catalogue.zeroField, Catalogue.zeroFieldWith, none]
    exact Catalogue.zero_of_isZero omittable typed out.2
  · rename_i full
    obtain ⟨t, ht, hes⟩ := of_bind_ok hx
    rcases inline : f.inline with _ | _
    · rw [entriesOf_apart inline] at hes
      split at hes
      · rename_i gone
        rw [Bool.and_eq_true] at gone
        have nonzero : cx.catalogue.isZero f.ty d = false := by simpa [gone.1] using full
        have there := ne_null_of_omittable closed h (omitted gone.1).2 typed nonzero ht
        cases t with
        | null => exact absurd rfl there
        | _ => cases gone.2
      · cases hes
        exact (hd.tree h typed low ht).field kept inline
    · obtain ⟨record, bare⟩ := inlined inline
      obtain ⟨es', rfl, back⟩ := hd.part h record bare typed low ht
      rw [entriesOf_inlined inline] at hes
      cases hes
      exact back.field kept inline

theorem fields {ty : Ty} {fs : List Field} {ds : List Datum} {depth : Nat}
    {es : List (String × Tree)} (h : ∀ f ∈ fs, L f.ty) (kept : ∀ f ∈ fs, f.skipped = false)
    (keys : fs.Pairwise fun f g => ∀ k, cx.FieldConsumes f k → ¬ cx.FieldConsumes g k)
    (inlined : ∀ f ∈ fs, f.inline = true → cx.catalogue.ReachesRecord f.ty ∧ cx.Bare f.ty)
    (omitted : ∀ f ∈ fs, f.omitEmpty = true → f.default? = none ∧ f.ty.isOmittable = true)
    (typed : HasTypes cx.catalogue (fs.map Field.ty) ds) (low : Datum.heights ds ≤ height)
    (hx : cx.contributions (encode cx depth) ty fs ds = .ok es) : cx.FieldsComeBack dec fs ds es := by
  induction fs generalizing ds es with
  | nil =>
    cases typed
    cases hx
    exact .nil
  | cons f fs ih =>
    rw [List.map_cons] at typed
    cases typed with
    | cons typed typeds =>
      obtain ⟨es₁, h₁, hx⟩ := of_bind_ok hx
      obtain ⟨es₂, h₂, hx⟩ := of_bind_ok hx
      cases hx
      rw [List.pairwise_cons] at keys
      rw [Datum.heights, Nat.max_le] at low
      simp only [List.forall_mem_cons] at h kept inlined omitted
      have first := hd.field closed h.1 kept.1 inlined.1 omitted.1 typed low.1 h₁
      exact .cons first (ih h.2 kept.2 keys.2 inlined.2 omitted.2 typeds low.2 h₂) keys.1

end Fields

/-! ## Items and entries -/

section Items

include hd

theorem items {ty : Ty} {ts : List Ty} {ds : List Datum} {depth : Nat} {xs : List Tree}
    (h : ∀ t ∈ ts, L t) (typed : HasTypes cx.catalogue ts ds) (low : Datum.heights ds ≤ height)
    (hx : encodeMembers (encode cx depth) ty ts ds = (.ok xs : Except Error (List Tree))) :
    cx.ItemsComeBack dec ts ds xs := by
  induction ts generalizing ds xs with
  | nil =>
    cases typed
    cases hx
    exact .nil
  | cons t ts ih =>
    cases typed with
    | cons typed typeds =>
      obtain ⟨x, hx₁, hx⟩ := of_bind_ok hx
      obtain ⟨xs, hx₂, hx⟩ := of_bind_ok hx
      cases hx
      rw [Datum.heights, Nat.max_le] at low
      simp only [List.forall_mem_cons] at h
      exact .cons (hd.tree h.1 typed low.1 hx₁) (ih h.2 typeds low.2 hx₂)

theorem entries {key value : Ty} {es : List (Datum × Datum)} {depth : Nat}
    {ps : List (String × Tree)} (h : L value) (hk : ∀ e ∈ es, HasType cx.catalogue key e.1)
    (hv : ∀ e ∈ es, HasType cx.catalogue value e.2) (low : Datum.entryHeights es ≤ height)
    (hx : cx.mapEntries (encode cx depth value) key es = .ok ps) :
    List.Forall₂ (cx.EntryComesBack dec key value) ps es := by
  induction es generalizing ps with
  | nil =>
    cases hx
    exact .nil
  | cons e es ih =>
    obtain ⟨k, d⟩ := e
    rw [mapEntries] at hx
    rcases spelled : cx.catalogue.text? key k with _ | s <;> rw [spelled] at hx
    · cases hx
    · obtain ⟨t, ht, hx⟩ := of_bind_ok hx
      obtain ⟨ps, hps, hx⟩ := of_bind_ok hx
      cases hx
      rw [Datum.entryHeights, Nat.max_le] at low
      simp only [List.forall_mem_cons] at hk hv
      exact .cons ⟨hk.1, spelled, hd.tree h hv.1 low.1 ht⟩ (ih hk.2 hv.2 low.2 hps)

end Items

/-! ## Layers -/

section Layers

variable {depth : Nat} {ty : Ty} {d : Datum} {x : Tree} {below : Nat}
  (hb : cx.Restores (decoder cx below) L below)

theorem leaf (hook : cx.registry.decoder? ty = none) (layer : cx.catalogue.below ty = .nothing)
    (hx : x ≠ .null) (h : ∀ s, Gives (decodeLayer cx (decoder cx below) s ty x) d) :
    cx.ComesBack (decoder cx (below + 1)) ty d x :=
  .leaf layer fun s => gives_layer hx hook (h s)

include hb

theorem list {t : Ty} {ds : List Datum} (hook : cx.registry.decoder? (.list t) = none) (h : L t)
    (typed : ∀ d ∈ ds, HasType cx.catalogue t d) (low : Datum.heights ds ≤ below)
    (hx : encodeLayer cx (encode cx depth) (.list t) (.seq ds) = (.ok x : Except Error Tree)) :
    cx.ComesBack (decoder cx (below + 1)) (.list t) (.seq ds) x := by
  rcases bytes : (Ty.list t).isBytes with _ | _
  · obtain ⟨xs, hxs, rfl⟩ := of_encode_list bytes hx
    have items := hb.items (fun u hu => (List.eq_of_mem_replicate hu) ▸ h) (.replicate typed) low hxs
    refine ⟨fun s => ?_, fun p q => ?_⟩
    · obtain ⟨ds', hds, given⟩ := items.read s 0
      refine ⟨.seq ds', .seq hds, gives_layer (Tree.array_ne_null _) hook ?_⟩
      have length := items.length
      rw [List.length_replicate] at length
      simp only [decodeLayer, bytes, decodeList, length]
      exact given.map Datum.seq
    · refine items.known_array hook rfl (fun i u hi hu => ?_) p q
      cases hu
      rw [List.length_replicate] at hi
      rw [List.getElem?_replicate, if_pos hi]
  · obtain ⟨⟨s, rfl⟩, read⟩ := decodeBytes_of_encodeBytes (of_encode_bytes bytes hx)
    refine ⟨fun s => ⟨.seq ds, .refl _, ?_⟩, fun p q => not_unknown_text rfl⟩
    refine gives_layer (Tree.string_ne_null _) hook ?_
    simp only [decodeLayer, bytes, if_true]
    exact .ofExcept read

theorem array {t : Ty} {ds : List Datum} (hook : cx.registry.decoder? (.array t ds.length) = none)
    (some : 0 < ds.length) (short : ds.length ≤ Ty.maxArrayLength) (h : L t)
    (typed : ∀ d ∈ ds, HasType cx.catalogue t d) (low : Datum.heights ds ≤ below)
    (hx : encodeLayer cx (encode cx depth) (.array t ds.length) (.seq ds) = (.ok x : Except Error Tree)) :
    cx.ComesBack (decoder cx (below + 1)) (.array t ds.length) (.seq ds) x := by
  obtain ⟨xs, hxs, rfl⟩ := of_encode_array hx
  have items := hb.items (fun u hu => (List.eq_of_mem_replicate hu) ▸ h) (.replicate typed) low hxs
  have length := items.length
  rw [List.length_replicate] at length
  refine ⟨fun s => ?_, fun p q => ?_⟩
  · obtain ⟨ds', hds, given⟩ := items.read s 0
    refine ⟨.seq ds', .seq hds, gives_layer (Tree.array_ne_null _) hook ?_⟩
    rw [decodeLayer, decodeArray, if_neg (by omega), if_neg (by omega), if_neg (by omega)]
    exact given.map Datum.seq
  · refine items.known_array hook rfl (fun i u hi hu => ?_) p q
    cases hu
    rw [List.length_replicate] at hi
    rw [List.getElem?_replicate, if_pos hi]

theorem map {a : Arrangement} {key value : Ty} {names : List String} {es : List (Datum × Datum)}
    (hook : cx.registry.decoder? (.map a key value) = none)
    (text : cx.catalogue.TextKey names key) (h : L value) (distinct : (es.map Prod.fst).Nodup)
    (hk : ∀ e ∈ es, HasType cx.catalogue key e.1) (hv : ∀ e ∈ es, HasType cx.catalogue value e.2)
    (low : Datum.entryHeights es ≤ below)
    (hx : encodeLayer cx (encode cx depth) (.map a key value) (.map es) = (.ok x : Except Error Tree)) :
    cx.ComesBack (decoder cx (below + 1)) (.map a key value) (.map es) x := by
  obtain ⟨ps, hps, rfl⟩ := of_encode_map hx
  have entries := hb.entries h hk hv low hps
  have order := Object.perm_ofList (nodup_texts text entries distinct)
  obtain ⟨es', sorted, order'⟩ := List.perm_comp_forall₂ order entries
  refine ⟨fun s => ?_, fun p q => ?_⟩
  · obtain ⟨zs, keys, values, given⟩ := read_entries text sorted s
    refine ⟨.map zs, .map order'.symm keys values, gives_layer (Tree.object_ne_null _) hook ?_⟩
    exact given.map Datum.map
  · rw [unknown_entries rfl, unknownPart_entries hook rfl]
    rintro ⟨k, y, hy, unknown⟩
    exact known_entries sorted hy _ q unknown

theorem positional {name : String} {fs : List Field} {ds : List Datum}
    (hook : cx.registry.decoder? (.named name) = none)
    (body : cx.catalogue.body? name = some (.tuple fs)) (h : ∀ f ∈ fs, L f.ty)
    (typed : HasTypes cx.catalogue (fs.map Field.ty) ds) (low : Datum.heights ds ≤ below)
    (hx : encodeLayer cx (encode cx depth) (.named name) (.product ds) = (.ok x : Except Error Tree)) :
    cx.ComesBack (decoder cx (below + 1)) (.named name) (.product ds) x := by
  obtain ⟨xs, hxs, rfl⟩ := of_encode_positional body hx
  have items := hb.items (fun t ht => by
    obtain ⟨f, hf, rfl⟩ := List.mem_map.mp ht
    exact h f hf) typed low hxs
  have layer := Catalogue.below_positional body
  refine ⟨fun s => ?_, fun p q => items.known_array hook layer (fun i t _ ht => ht) p q⟩
  obtain ⟨ds', hds, given⟩ := items.positional (.named name) s
  refine ⟨.product ds', .product hds, gives_layer (Tree.array_ne_null _) hook ?_⟩
  simp only [decodeLayer, body, decodeDeclared]
  exact given.map Datum.product

theorem tuple {ts : List Ty} {ds : List Datum} (hook : cx.registry.decoder? (.tuple ts) = none)
    (h : ∀ t ∈ ts, L t) (typed : HasTypes cx.catalogue ts ds) (low : Datum.heights ds ≤ below)
    (hx : encodeLayer cx (encode cx depth) (.tuple ts) (.product ds) = (.ok x : Except Error Tree)) :
    cx.ComesBack (decoder cx (below + 1)) (.tuple ts) (.product ds) x := by
  obtain ⟨xs, hxs, rfl⟩ := of_encode_tuple hx
  have items := hb.items h typed low hxs
  refine ⟨fun s => ?_, fun p q => items.known_array hook rfl (fun i t _ ht => ht) p q⟩
  obtain ⟨ds', hds, given⟩ := items.positional (.tuple ts) s
  exact ⟨.product ds', .product hds, gives_layer (Tree.array_ne_null _) hook (given.map Datum.product)⟩

end Layers

/-! ## Whole data -/

section Step

variable {below : Nat} (hb : cx.Restores (decoder cx below) L below)
include closed hb

/-- The fields of a record, from which its object is put together. -/
theorem record {name : String} {fs : List Field} {d : Datum} {depth : Nat} {x : Tree}
    (body : cx.catalogue.body? name = some (.record fs)) (layer : cx.LosslessLayer L (.named name))
    (bare : ∀ f ∈ fs, f.inline = true → cx.Bare f.ty)
    (typed : HasType cx.catalogue (.named name) d) (low : d.height ≤ below + 1)
    (hx : encodeLayer cx (encode cx depth) (.named name) d = (.ok x : Except Error Tree)) :
    ∃ ds es, d = .product ds ∧ x = .object (Object.ofList es) ∧
      cx.FieldsComeBack (decoder cx below) fs ds es := by
  obtain ⟨ds, rfl, typeds⟩ := typed.record_inv body
  obtain ⟨es, hes, rfl⟩ := of_encode_record body hx
  rw [Datum.height] at low
  refine ⟨ds, es, rfl, rfl, ?_⟩
  cases layer with
  | scalar exact => cases exact
  | newtype body' => simp [body] at body'
  | positional body' => simp [body] at body'
  | enumeration body' => simp [body] at body'
  | record body' h kept keys inlined omitted =>
    cases body.symm.trans body'
    exact hb.fields closed h kept keys (fun f hf inline => ⟨inlined f hf inline, bare f hf inline⟩)
      omitted typeds (by omega) hes

/-- A layer without hook, written as another tree than null. -/
theorem layer {ty : Ty} {d : Datum} {depth : Nat} {x : Tree} (null : x ≠ .null)
    (hook : cx.registry.encoder? ty = none) (hook' : cx.registry.decoder? ty = none)
    (lossless : cx.LosslessLayer L ty)
    (free : ∀ name t, ty = .named name → cx.catalogue.body? name = some (.newtype t) →
      cx.PeelsFreely t)
    (bare : ∀ name fs, ty = .named name → cx.catalogue.body? name = some (.record fs) →
      ∀ f ∈ fs, f.inline = true → cx.Bare f.ty)
    (typed : HasType cx.catalogue ty d) (low : d.height ≤ below + 1)
    (hx : encode cx (depth + 1) ty d = (.ok x : Except Error Tree)) :
    cx.ComesBack (decoder cx (below + 1)) ty d x := by
  have layer := hx
  rw [encode_unhooked hook] at layer
  cases lossless with
  | scalar exact =>
    have read := Scalar.decode_of_encode exact typed (scalar_of_encode hook exact hx)
    refine leaf hook' ?_ null fun s => ?_
    · cases ty <;> first | rfl | cases exact
    · cases ty <;> first | exact .ofExcept read | cases exact
  | tree => cases layer
  | @nonZero k h =>
    cases typed with
    | nonZero hn h0 =>
      rw [Datum.height] at low
      have content := hb.tree h (.int hn) (by omega) layer
      refine ⟨fun s => ?_, fun p q => ?_⟩
      · obtain ⟨e, he, given⟩ := content.read s
        cases he
        have wrapped := wrapNonZero_of_ne k h0
        exact ⟨_, .refl _, gives_layer null hook' (given.bind (.ofExcept wrapped))⟩
      · rw [unknown_content hook' rfl null]
        exact content.known p q
  | option h there =>
    cases typed with
    | absent => cases layer; exact absurd rfl null
    | present typed =>
      rw [Datum.height] at low
      have content := hb.tree h typed (by omega) layer
      exact content.content .present (fun _ => .present) hook' rfl null fun s e given =>
        gives_layer null hook' (given.map Datum.present)
  | pointer holds h =>
    cases typed with
    | pointer p typed =>
      rw [Datum.height] at low
      have content := hb.tree h typed (by omega) (by simpa only [encodeLayer] using layer)
      exact content.content .wrapped (fun _ => .wrapped) hook' (cx.catalogue.below_pointer holds _) null
        fun s e given => gives_layer null hook' (gives_pointer holds given)
    | gone => cases holds
  | list h =>
    cases typed with
    | list typed =>
      rw [Datum.height] at low
      exact hb.list hook' h typed (by omega) layer
  | array some short h =>
    cases typed with
    | array typed =>
      rw [Datum.height] at low
      exact hb.array hook' some short h typed (by omega) layer
  | map text h =>
    cases typed with
    | map a distinct hk hv =>
      rw [Datum.height] at low
      exact hb.map hook' text h distinct hk hv (by omega) layer
  | tuple h =>
    cases typed with
    | tuple typed =>
      rw [Datum.height] at low
      exact hb.tuple hook' h typed (by omega) layer
  | @newtype name t body h there =>
    obtain ⟨e, rfl, he⟩ := typed.newtype_inv body
    obtain ⟨k, hk⟩ := encode_newtype hook (free _ _ rfl body) body depth e
    rw [Datum.height] at low
    have content := hb.tree h he (by omega) (hk.symm.trans hx)
    have below := Catalogue.below_newtype body
    refine content.content .wrapped (fun _ => .wrapped) hook' below null fun s e given => ?_
    refine gives_layer null hook' ?_
    simp only [decodeLayer, body, decodeDeclared]
    exact given.map Datum.wrapped
  | positional body h =>
    obtain ⟨ds, rfl, typeds⟩ := typed.positional_inv body
    rw [Datum.height] at low
    exact hb.positional hook' body h typeds (by omega) layer
  | @enumeration name vs body unit names =>
    obtain ⟨i, v, ds, rfl, hv, hds⟩ := typed.variant_inv body
    have read := (decodeVariant_of_encodeVariant unit names hv hds (of_encode_variant body layer)).2
    refine leaf hook' (Catalogue.below_enumeration body) null fun s => ?_
    simp only [decodeLayer, body, decodeDeclared]
    exact .ofExcept read
  | @record name fs body h kept keys inlined omitted =>
    obtain ⟨ds, es, rfl, rfl, fields⟩ := hb.record closed body
      (.record body h kept keys inlined omitted) (bare _ _ rfl body) typed low layer
    have below := Catalogue.below_record body
    refine ⟨fun s => ?_, fields.known_record hook' below⟩
    obtain ⟨ds', hds, given⟩ := fields.read (fun _ _ => rfl) s (.named name) 0
    refine ⟨.product ds', .product hds, gives_layer null hook' ?_⟩
    simp only [decodeLayer, body, decodeDeclared]
    exact gives_record given

theorem tree_succ {ty : Ty} {d : Datum} {depth : Nat} {x : Tree} (lossless : L ty)
    (typed : HasType cx.catalogue ty d) (low : d.height ≤ below + 1)
    (hx : encode cx depth ty d = (.ok x : Except Error Tree)) :
    cx.ComesBack (decoder cx (below + 1)) ty d x := by
  by_cases null : x = .null
  · subst null
    exact ⟨fun s => ⟨d, .refl d, gives_null (zero_of_null closed lossless typed hx)⟩,
      fun _ _ => not_unknown_null⟩
  cases depth with
  | zero => cases hx
  | succ depth =>
  cases closed ty lossless with
  | slot write read =>
    cases typed with
    | tree t =>
      rw [encode_slot write] at hx
      cases hx
      exact .leaf rfl fun s => gives_hook null read rfl
  | hook write? read? back =>
    obtain ⟨-, e, he, given⟩ := back d x typed (hook_of_encode write? hx)
    exact ⟨fun s => ⟨e, he, gives_hook null read? given⟩, fun p q => not_unknown_of_hook read?⟩
  | layer write? read? layer free bare =>
    exact hb.layer closed null write? read? layer free bare typed low hx

theorem part_succ {ty : Ty} {d : Datum} {depth : Nat} {x : Tree} (lossless : L ty)
    (record : cx.catalogue.ReachesRecord ty) (bare : cx.Bare ty)
    (typed : HasType cx.catalogue ty d) (low : d.height ≤ below + 1)
    (hx : encode cx depth ty d = (.ok x : Except Error Tree)) :
    ∃ es, x = .object es ∧ cx.PartComesBack (decoder cx (below + 1)) ty d es := by
  obtain ⟨hook, hook'⟩ := bare ty (.here ty)
  cases depth with
  | zero => cases hx
  | succ depth =>
  have layer := hx
  rw [encode_unhooked hook] at layer
  cases closed ty lossless with
  | slot => cases record
  | hook write? => cases hook.symm.trans write?
  | layer _ _ lossless free inlined =>
  cases record with
  | @record name fs body =>
    obtain ⟨ds, es, rfl, rfl, fields⟩ :=
      hb.record closed body lossless (inlined _ _ rfl body) typed low layer
    have below := Catalogue.below_record body
    refine ⟨_, rfl, fields.part hook' below fun s o ds' given => gives_objectLayer hook' ?_⟩
    simp only [decodeObjectLayer, body]
    exact gives_record given
  | @newtype name t body record =>
    obtain ⟨e, rfl, he⟩ := typed.newtype_inv body
    obtain ⟨k, hk⟩ := encode_newtype hook (free _ _ rfl body) body depth e
    rw [Datum.height] at low
    have bare := bare.of_inner (Catalogue.inner?_newtype body)
    obtain ⟨es, rfl, part⟩ :=
      hb.part (lossless.of_newtype body) record bare he (by omega) (hk.symm.trans hx)
    have below := Catalogue.below_newtype body
    refine ⟨es, rfl, part.wrapped hook' below fun s o e given => gives_objectLayer hook' ?_⟩
    simp only [decodeObjectLayer, body]
    exact given.map Datum.wrapped
  | @pointer p t holds record =>
    have bare := bare.of_inner (Catalogue.inner?_pointer holds)
    cases typed with
    | pointer _ typed =>
      rw [Datum.height] at low
      obtain ⟨es, rfl, part⟩ := hb.part lossless.of_pointer record bare typed (by omega)
        (by simpa only [encodeLayer] using layer)
      exact ⟨es, rfl, part.wrapped hook' (cx.catalogue.below_pointer holds t) fun s o e given =>
        gives_objectLayer hook' (gives_pointer holds given)⟩
    | gone => cases holds

/-- Parts that come back make a whole that comes back. -/
theorem step : cx.Restores (decoder cx (below + 1)) L (below + 1) where
  tree := hb.tree_succ closed
  part := hb.part_succ closed

end Step

end Restores

variable {cx : Codec}

/-- A reading restores the data that are no higher than it is deep. -/
theorem restores_decoder {L : Ty → Prop} (closed : ∀ t, L t → cx.Faithful L t) (depth : Nat) :
    cx.Restores (decoder cx depth) L depth := by
  induction depth with
  | zero =>
    refine ⟨fun {ty d depth x} _ _ low _ => ?_, fun {ty d depth x} _ _ _ _ low _ => ?_⟩
    · exact absurd d.height_pos (by omega)
    · exact absurd d.height_pos (by omega)
  | succ depth ih => exact ih.step closed

end Codec

/-- Whether a datum satisfies the invariant of its type, in whatever order its maps list
their entries. -/
def Catalogue.Valid (c : Catalogue) (ty : Ty) (d : Datum) : Prop :=
  ∀ e, d.Same e → c.invariant ty e = true

/-- What is read is handed out, unless it is to be read strictly. -/
theorem Codec.fromTree_of_gives {cx : Codec} {ty : Ty} {d : Datum} {x : Tree}
    (h : Gives ((Codec.decoder cx cx.maxDepth).tree (.root false) ty x) d)
    (valid : cx.catalogue.invariant ty d = true) :
    cx.fromTree false ty x = (.ok d : Except Error Datum) := by
  have place : Simulation.quiet.place (.root false) (.root false) := rfl
  have notes := (cx.quiet_decoder cx.maxDepth).tree place ty x
  exact build_of_gives h notes (fun _ h => h) valid

/-- A datum that comes back is handed out, strictly or not. -/
theorem Codec.ComesBack.fromTree {cx : Codec} {ty : Ty} {d : Datum} {x : Tree}
    (back : cx.ComesBack (Codec.decoder cx cx.maxDepth) ty d x) (valid : cx.catalogue.Valid ty d) :
    ∃ e, d.Same e ∧ ∀ strict, cx.fromTree strict ty x = (.ok e : Except Error Datum) := by
  obtain ⟨e, he, lax⟩ := back.read (.root false)
  refine ⟨e, he, fun strict => ?_⟩
  cases strict with
  | false => exact fromTree_of_gives lax (valid e he)
  | true =>
    have place : (Simulation.sameValue (Except Error)).place (.root false) (.root true) := trivial
    have given := lax.of_sameValue ((cx.sameValue_decoder cx.maxDepth).tree place ty x)
    have notes := (cx.notesUnknown_decoder cx.maxDepth).tree [] ty x
    exact build_of_gives given notes (back.known []) (valid e he)

/-- The tree of a datum of a lossless type is read as the datum, strictly or not, by a
codec that goes as deep as the datum is high. -/
theorem fromTree_toTree (cx : Codec) (initial : cx.registry = .initial) {ty : Ty}
    (lossless : cx.Lossless ty) {d : Datum} (typed : HasType cx.catalogue ty d)
    (valid : cx.catalogue.Valid ty d) (deep : d.height ≤ cx.maxDepth) {x : Tree}
    (written : cx.toTree ty d = (.ok x : Except Error Tree)) :
    ∃ e, d.Same e ∧ ∀ strict, cx.fromTree strict ty x = (.ok e : Except Error Datum) := by
  obtain ⟨L, hL, closed⟩ := lossless
  have faithful t (h : L t) : cx.Faithful L t := (closed t h).faithful initial
  exact ((Codec.restores_decoder faithful cx.maxDepth).tree hL typed deep written).fromTree valid

/-- A stop of a route. -/
def Datum.stop (label : String) (x y : Int) (notes : List String) (next : Datum) : Datum :=
  .product [.text label, .wrapped (.product [.int x, .int y]), .seq (notes.map .text), next]

theorem hasType_stop (label : String) {x y : Int} (hx : IntTy.int64.contains x = true)
    (hy : IntTy.int64.contains y = true) (notes : List String) {next : Datum}
    (hn : HasType .route (.option (.pointer .owned (.named "stop"))) next) :
    HasType .route (.named "stop") (.stop label x y notes next) := by
  have point : HasType .route (.named "point") (.product [.int x, .int y]) :=
    .record rfl (.cons (.int hx) (.cons (.int hy) .nil))
  have texts : HasType .route (.list .string) (.seq (notes.map .text)) := by
    refine .list fun d hd => ?_
    obtain ⟨s, -, rfl⟩ := List.mem_map.mp hd
    exact .string s
  exact .record rfl (.cons (.string label) (.cons (.pointer _ point) (.cons texts (.cons hn .nil))))

/-- A route of two stops, the first of which has no notes. -/
theorem fromTree_toTree_route :
    ∃ d x, HasType .route (.named "stop") d ∧
      Codec.route.toTree (.named "stop") d = (.ok x : Except Error Tree) ∧
      ∃ e, d.Same e ∧
        ∀ strict, Codec.route.fromTree strict (.named "stop") x = (.ok e : Except Error Datum) := by
  have last := hasType_stop "b" (x := 3) (y := 4) rfl rfl ["n"] (.absent _)
  have first := hasType_stop "a" (x := 1) (y := 2) rfl rfl [] (.present (.pointer .owned last))
  refine ⟨_, _, first, rfl, ?_⟩
  exact fromTree_toTree Codec.route rfl Codec.lossless_route first (fun _ _ => rfl) (by decide) rfl

end TreeCodec
