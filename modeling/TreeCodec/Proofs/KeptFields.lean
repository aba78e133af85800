import TreeCodec.Proofs.Positions
import TreeCodec.Proofs.Writing

/-!
# Writing without skipped fields

What skipped fields of records hold has no part in what is written: data that differ in
nothing else (`Codec.SameKept`) are written alike.

* `Codec.SameKept.peel`: so are they below wrappers;
* `Codec.Overlooks.encodeStep`: a layer is written alike if its parts are;
* `Codec.overlooks_encode`: so is a datum of any depth.
-/

namespace TreeCodec.Codec

/-- Data that differ, as a type writes them, only in skipped fields of records. What a hook
writes does not differ. -/
inductive SameKept (cx : Codec) : Ty → Datum → Datum → Prop
  | refl (ty : Ty) (d : Datum) : SameKept cx ty d d
  | present {t : Ty} {d e : Datum} (hook : cx.registry.encoder? (.option t) = none)
    (h : SameKept cx t d e) : SameKept cx (.option t) (.present d) (.present e)
  | pointer (p : Pointer) {t : Ty} {d e : Datum} (hook : cx.registry.encoder? (.pointer p t) = none)
    (h : SameKept cx t d e) : SameKept cx (.pointer p t) (.wrapped d) (.wrapped e)
  | wrapped {ty t : Ty} {d e : Datum} (hook : cx.registry.encoder? ty = none)
    (inner : cx.catalogue.inner? ty = some t) (h : SameKept cx t d e) :
    SameKept cx ty (.wrapped d) (.wrapped e)
  | seq {ty : Ty} {item? : Nat → Option Ty} {ds es : List Datum}
    (hook : cx.registry.encoder? ty = none) (layer : cx.catalogue.below ty = .items item?)
    (length : ds.length = es.length)
    (h : ∀ (i : Nat) (t : Ty) (d e : Datum), item? i = some t → ds[i]? = some d →
      es[i]? = some e → SameKept cx t d e) : SameKept cx ty (.seq ds) (.seq es)
  | product {ty : Ty} {item? : Nat → Option Ty} {ds es : List Datum}
    (hook : cx.registry.encoder? ty = none) (layer : cx.catalogue.below ty = .items item?)
    (length : ds.length = es.length)
    (h : ∀ (i : Nat) (t : Ty) (d e : Datum), item? i = some t → ds[i]? = some d →
      es[i]? = some e → SameKept cx t d e) : SameKept cx ty (.product ds) (.product es)
  | map {ty t : Ty} {ps qs : List (Datum × Datum)} (hook : cx.registry.encoder? ty = none)
    (layer : cx.catalogue.below ty = .entries t) (keys : ps.map Prod.fst = qs.map Prod.fst)
    (h : ∀ (i : Nat) (p q : Datum × Datum), ps[i]? = some p → qs[i]? = some q →
      SameKept cx t p.2 q.2) : SameKept cx ty (.map ps) (.map qs)
  | record {ty : Ty} {fs : List Field} {ds es : List Datum}
    (hook : cx.registry.encoder? ty = none) (layer : cx.catalogue.below ty = .record fs)
    (length : ds.length = es.length)
    (h : ∀ (i : Nat) (f : Field) (d e : Datum), fs[i]? = some f → f.skipped = false →
      ds[i]? = some d → es[i]? = some e → SameKept cx f.ty d e) :
    SameKept cx ty (.product ds) (.product es)

variable {cx : Codec} {ty : Ty} {d e : Datum}

/-! ## Wrappers and zeros -/

namespace SameKept

/-- Integers have no fields. -/
theorem eq_of_int {k : IntTy} (h : cx.SameKept (.int k) d e) : d = e := by
  cases h with
  | refl => rfl
  | wrapped _ inner => cases inner
  | seq _ layer => cases layer
  | product _ layer => cases layer
  | map _ layer => cases layer
  | record _ layer => cases layer

theorem eq_of_ints {k : IntTy} {ds es : List Datum} (length : ds.length = es.length)
    (h : ∀ (i : Nat) (d e : Datum), ds[i]? = some d → es[i]? = some e → cx.SameKept (.int k) d e) :
    ds = es :=
  List.ext_getElem length fun i hd he =>
    (h i _ _ (List.getElem?_eq_getElem hd) (List.getElem?_eq_getElem he)).eq_of_int

/-- Peeling ends at the same type, whatever skipped fields hold. -/
theorem peel (h : cx.SameKept ty d e) :
    (cx.catalogue.peel ty d).1 = (cx.catalogue.peel ty e).1 ∧
      cx.SameKept (cx.catalogue.peel ty d).1 (cx.catalogue.peel ty d).2
        (cx.catalogue.peel ty e).2 := by
  induction h with
  | refl ty d => exact ⟨rfl, .refl _ _⟩
  | present _ _ ih => exact ih
  | pointer p hook h ih => cases p <;> first | exact ih | exact ⟨rfl, .pointer _ hook h⟩
  | wrapped hook inner h ih =>
    simp only [Catalogue.peel, inner]
    exact ih
  | seq hook layer length h => exact ⟨rfl, .seq hook layer length h⟩
  | product hook layer length h => exact ⟨rfl, .product hook layer length h⟩
  | map hook layer keys h => exact ⟨rfl, .map hook layer keys h⟩
  | record hook layer length h => exact ⟨rfl, .record hook layer length h⟩

theorem text_eq (h : cx.SameKept ty d e) : cx.catalogue.text? ty d = cx.catalogue.text? ty e := by
  obtain ⟨same, inner⟩ := h.peel
  unfold Catalogue.text?
  rcases hd : cx.catalogue.peel ty d with ⟨t, a⟩
  rcases he : cx.catalogue.peel ty e with ⟨u, b⟩
  rw [hd, he] at same inner
  obtain rfl : t = u := same
  have inner : cx.SameKept t a b := inner
  -- Text has no parts, so that only data that are the same are text.
  cases inner with
  | refl => rfl
  | present => rfl
  | pointer => rfl
  | _ => cases t <;> rfl

theorem scalar_eq (h : cx.SameKept ty d e) : Scalar.encode ty d = Scalar.encode ty e := by
  cases h with
  | refl => rfl
  | present => rfl
  | pointer => rfl
  | _ => cases ty <;> rfl

/-- Whether a field is left out while it is empty does not hang on skipped fields below it. -/
theorem isZeroLayer_eq (h : cx.SameKept ty d e) :
    cx.catalogue.isZeroLayer ty d = cx.catalogue.isZeroLayer ty e := by
  have text := h.text_eq
  have scalar : Scalar.isZero ty d = Scalar.isZero ty e := by rw [Scalar.isZero, h.scalar_eq]; rfl
  cases h with
  | refl => rfl
  | present => rfl
  | pointer => simp only [Catalogue.isZeroLayer, text, scalar]
  | @seq _ _ ds es _ _ length =>
    have empty : ds.isEmpty = es.isEmpty := by
      rw [Bool.eq_iff_iff, List.isEmpty_iff_length_eq_zero, length, List.isEmpty_iff_length_eq_zero]
    cases ty <;> simp only [Catalogue.isZeroLayer, text, scalar, empty]
  | map _ _ keys =>
    have empty := congrArg List.isEmpty keys
    simp only [List.isEmpty_map] at empty
    cases ty <;> simp only [Catalogue.isZeroLayer, text, scalar, empty]
  | _ => cases ty <;> simp only [Catalogue.isZeroLayer, text, scalar]

theorem isZero_eq (h : cx.SameKept ty d e) :
    cx.catalogue.isZero ty d = cx.catalogue.isZero ty e := by
  obtain ⟨same, inner⟩ := h.peel
  simp only [Catalogue.isZero, ← same, inner.isZeroLayer_eq, h.isZeroLayer_eq]

end SameKept

/-! ## Parts -/

variable {encode : Ty → Datum → Except Error Tree}

theorem encodeMembers_alike (ty : Ty) {ts : List Ty} {ds es : List Datum}
    (length : ds.length = es.length)
    (h : ∀ (i : Nat) (t : Ty) (d e : Datum), ts[i]? = some t → ds[i]? = some d →
      es[i]? = some e → encode t d = encode t e) :
    encodeMembers encode ty ts ds = encodeMembers encode ty ts es := by
  induction ds generalizing ts es with
  | nil => rw [List.eq_nil_of_length_eq_zero length.symm]
  | cons d ds ih =>
    obtain ⟨e, es, rfl⟩ := List.exists_cons_of_length_eq_add_one length.symm
    cases ts with
    | nil => rfl
    | cons t ts =>
      have rest := ih (Nat.succ.inj length) fun i u a b hu ha hb => h (i + 1) u a b hu ha hb
      rw [encodeMembers, encodeMembers, h 0 t d e rfl rfl rfl, rest]

theorem encodeItems_alike (t : Ty) {ds es : List Datum} (length : ds.length = es.length)
    (h : ∀ (i : Nat) (d e : Datum), ds[i]? = some d → es[i]? = some e → encode t d = encode t e) :
    encodeItems (encode t) ds = encodeItems (encode t) es := by
  rw [encodeItems_eq encode t, encodeItems_eq encode t, length]
  refine encodeMembers_alike t length fun i u d e hu hd he => ?_
  obtain rfl := List.eq_of_mem_replicate (List.mem_of_getElem? hu)
  exact h i d e hd he

theorem mapEntries_alike (t key : Ty) {ps qs : List (Datum × Datum)}
    (keys : ps.map Prod.fst = qs.map Prod.fst)
    (h : ∀ (i : Nat) (p q : Datum × Datum), ps[i]? = some p → qs[i]? = some q →
      encode t p.2 = encode t q.2) :
    cx.mapEntries (encode t) key ps = cx.mapEntries (encode t) key qs := by
  induction ps generalizing qs with
  | nil => rw [List.map_eq_nil_iff.mp keys.symm]
  | cons p ps ih =>
    obtain ⟨q, qs, rfl, first, rest⟩ := List.map_eq_cons_iff.mp keys.symm
    obtain ⟨k, d⟩ := p
    obtain ⟨k', e⟩ := q
    cases first
    have same : encode t d = encode t e := h 0 _ _ rfl rfl
    rw [mapEntries, mapEntries, same, ih rest.symm fun i p q hp hq => h (i + 1) p q hp hq]

/-- A skipped field contributes nothing, whatever it holds. -/
theorem contributions_alike (ty : Ty) {fs : List Field} {ds es : List Datum}
    (length : ds.length = es.length)
    (h : ∀ (i : Nat) (f : Field) (d e : Datum), fs[i]? = some f → f.skipped = false →
      ds[i]? = some d → es[i]? = some e → cx.contribution encode f d = cx.contribution encode f e) :
    cx.contributions encode ty fs ds = cx.contributions encode ty fs es := by
  induction ds generalizing fs es with
  | nil => rw [List.eq_nil_of_length_eq_zero length.symm]
  | cons d ds ih =>
    obtain ⟨e, es, rfl⟩ := List.exists_cons_of_length_eq_add_one length.symm
    cases fs with
    | nil => rfl
    | cons f fs =>
      have first : cx.contribution encode f d = cx.contribution encode f e := by
        rcases kept : f.skipped with _ | _
        · exact h 0 f d e rfl kept rfl rfl
        · simp only [contribution, kept, Bool.true_or, if_true]
      have rest := ih (Nat.succ.inj length)
        fun i g a b hg kept ha hb => h (i + 1) g a b hg kept ha hb
      rw [contributions, contributions, first, rest]

/-! ## Layers -/

/-- A writer that does not see what skipped fields hold. -/
def Overlooks (cx : Codec) (encode : Ty → Datum → Except Error Tree) : Prop :=
  ∀ {ty d e}, cx.SameKept ty d e → encode ty d = encode ty e

namespace Overlooks

variable (he : cx.Overlooks encode) {ds es : List Datum}
include he

theorem contribution {f : Field} (h : cx.SameKept f.ty d e) :
    cx.contribution encode f d = cx.contribution encode f e := by
  rw [Codec.contribution, Codec.contribution, h.isZero_eq, he h]

theorem seq {item? : Nat → Option Ty} (layer : cx.catalogue.below ty = .items item?)
    (length : ds.length = es.length)
    (h : ∀ (i : Nat) (t : Ty) (d e : Datum), item? i = some t → ds[i]? = some d →
      es[i]? = some e → cx.SameKept t d e) :
    encodeLayer cx encode ty (.seq ds) = encodeLayer cx encode ty (.seq es) := by
  cases ty with
  | list t =>
    cases layer
    have items := encodeItems_alike t length fun i d e hd hes => he (h i t d e rfl hd hes)
    simp only [encodeLayer, items]
    split
    · rename_i bytes
      obtain ⟨k, rfl⟩ : ∃ k, t = .int k := by cases t <;> first | exact ⟨_, rfl⟩ | cases bytes
      rw [SameKept.eq_of_ints length fun i d e hd hes => h i _ d e rfl hd hes]
    · rfl
  | array t n =>
    cases layer
    have items := encodeItems_alike t length fun i d e hd hes => he (h i t d e rfl hd hes)
    simp only [encodeLayer, items]
  | tuple ts => rfl
  | pointer p t => cases p <;> cases layer
  | named name =>
    simp only [encodeLayer]
    rcases cx.catalogue.body? name with _ | ⟨fs⟩ | ⟨fs⟩ | ⟨u⟩ | ⟨vs⟩ <;> rfl
  | _ => cases layer

theorem product {item? : Nat → Option Ty} (layer : cx.catalogue.below ty = .items item?)
    (length : ds.length = es.length)
    (h : ∀ (i : Nat) (t : Ty) (d e : Datum), item? i = some t → ds[i]? = some d →
      es[i]? = some e → cx.SameKept t d e) :
    encodeLayer cx encode ty (.product ds) = encodeLayer cx encode ty (.product es) := by
  cases ty with
  | list t => rfl
  | array t n => rfl
  | tuple ts =>
    cases layer
    have members : encodeMembers encode (.tuple ts) ts ds = encodeMembers encode (.tuple ts) ts es :=
      encodeMembers_alike _ length fun i t d e ht hd hes => he (h i t d e ht hd hes)
    simp only [encodeLayer, members]
  | pointer p t => cases p <;> cases layer
  | named name =>
    rcases body : cx.catalogue.body? name with _ | ⟨fs⟩ | ⟨fs⟩ | ⟨u⟩ | ⟨vs⟩ <;>
      simp only [Catalogue.below, body, reduceCtorEq] at layer
    cases layer
    have members : encodeMembers encode (.named name) (fs.map Field.ty) ds =
        encodeMembers encode (.named name) (fs.map Field.ty) es :=
      encodeMembers_alike _ length fun i t d e ht hd hes => he (h i t d e ht hd hes)
    simp only [encodeLayer, body, encodeDeclared, members]
  | _ => cases layer

theorem map {t : Ty} {ps qs : List (Datum × Datum)} (layer : cx.catalogue.below ty = .entries t)
    (keys : ps.map Prod.fst = qs.map Prod.fst)
    (h : ∀ (i : Nat) (p q : Datum × Datum), ps[i]? = some p → qs[i]? = some q →
      cx.SameKept t p.2 q.2) :
    encodeLayer cx encode ty (.map ps) = encodeLayer cx encode ty (.map qs) := by
  cases ty with
  | map a key t =>
    cases layer
    have entries : cx.mapEntries (encode t) key ps = cx.mapEntries (encode t) key qs :=
      mapEntries_alike t key keys fun i p q hp hq => he (h i p q hp hq)
    simp only [encodeLayer, encodeEntries_eq, entries]
  | pointer p t => cases p <;> cases layer
  | named name =>
    rcases body : cx.catalogue.body? name with _ | ⟨fs⟩ | ⟨fs⟩ | ⟨u⟩ | ⟨vs⟩ <;>
      simp [Catalogue.below, body] at layer
  | _ => cases layer

theorem record {fs : List Field} (layer : cx.catalogue.below ty = .record fs)
    (length : ds.length = es.length)
    (h : ∀ (i : Nat) (f : Field) (d e : Datum), fs[i]? = some f → f.skipped = false →
      ds[i]? = some d → es[i]? = some e → cx.SameKept f.ty d e) :
    encodeLayer cx encode ty (.product ds) = encodeLayer cx encode ty (.product es) := by
  obtain ⟨name, rfl, body⟩ := Catalogue.record_of_below layer
  have fields : cx.contributions encode (.named name) fs ds =
      cx.contributions encode (.named name) fs es :=
    contributions_alike _ length fun i f d e hf kept hd hes =>
      he.contribution (h i f d e hf kept hd hes)
  simp only [encodeLayer, body, encodeDeclared, encodeFields_eq, fields]

/-- A newtype is written as what peeling leaves, which is alike too. -/
theorem wrapped {t : Ty} (inner : cx.catalogue.inner? ty = some t) (h : cx.SameKept t d e)
    (whole : cx.SameKept ty (.wrapped d) (.wrapped e)) :
    encodeLayer cx encode ty (.wrapped d) = encodeLayer cx encode ty (.wrapped e) := by
  cases ty with
  | nonZero k => cases inner; exact he h
  | pointer p u => cases p <;> cases inner <;> exact he h
  | named name =>
    have ⟨same, below⟩ := whole.peel
    rcases body : cx.catalogue.body? name with _ | ⟨fs⟩ | ⟨fs⟩ | ⟨u⟩ | ⟨vs⟩ <;>
      simp only [encodeLayer, body, encodeDeclared, encodeVariant, ← same, he below]
  | _ => cases inner

theorem encodeStep (h : cx.SameKept ty d e) :
    Codec.encodeStep cx encode ty d = Codec.encodeStep cx encode ty e := by
  have unhooked (hook : cx.registry.encoder? ty = none)
      (same : encodeLayer cx encode ty d = encodeLayer cx encode ty e) :
      Codec.encodeStep cx encode ty d = Codec.encodeStep cx encode ty e := by
    simp only [Codec.encodeStep, hook, same]
  cases h with
  | refl => rfl
  | present hook h => exact unhooked hook (he h)
  | pointer p hook h => exact unhooked hook (by cases p <;> exact he h)
  | wrapped hook inner h => exact unhooked hook (he.wrapped inner h (.wrapped hook inner h))
  | seq hook layer length h => exact unhooked hook (he.seq layer length h)
  | product hook layer length h => exact unhooked hook (he.product layer length h)
  | map hook layer keys h => exact unhooked hook (he.map layer keys h)
  | record hook layer length h => exact unhooked hook (he.record layer length h)

end Overlooks

/-! ## Whole data -/

theorem overlooks_encode (cx : Codec) (depth : Nat) : cx.Overlooks (Codec.encode cx depth) := by
  induction depth with
  | zero => exact fun _ => rfl
  | succ depth ih => exact fun h => ih.encodeStep h

end TreeCodec.Codec
