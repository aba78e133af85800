import TreeCodec.Proofs.Keys
import TreeCodec.Proofs.Leaves
import TreeCodec.Proofs.Writing

/-!
# Lossless types

The types whose data a tree holds without loss, said layer by layer. A type is lossless
if it is one of a set of types that all are made of types of the set
(`Codec.Lossless`), so that declared types may be recursive.

Null, omission and hooks need care:

* `Codec.of_null`: only options, slots, and pointers to such data are written as null, and
  null is read as what was written (`Codec.zero_of_null`);
* `Catalogue.zero_of_isZero`: a field that is left out held the zero of its type;
* `Codec.Faithful`: what a type is to be like under the hooks in use. Its own undo each other,
  or it has none, and neither has what it peels or inlines.
-/

namespace TreeCodec

/-! ## The types -/

/-- The types whose omitted data are the zero of the type. -/
def Ty.isOmittable : Ty → Bool
  | .bool => true
  | .int _ => true
  | .string => true
  | .list _ => true
  | .map _ _ _ => true
  | .option _ => true
  | .tree => true
  | _ => false

/-- The types that are a record, or newtypes over one or pointers that hold one. -/
inductive Catalogue.ReachesRecord (c : Catalogue) : Ty → Prop
  | record {name : String} {fs : List Field} (body : c.body? name = some (.record fs)) :
    ReachesRecord c (.named name)
  | newtype {name : String} {t : Ty} (body : c.body? name = some (.newtype t))
    (h : ReachesRecord c t) : ReachesRecord c (.named name)
  | pointer {p : Pointer} {t : Ty} (holds : p.holds = true) (h : ReachesRecord c t) :
    ReachesRecord c (.pointer p t)

theorem Catalogue.ReachesRecord.isOmittable_eq {c : Catalogue} {ty : Ty} (h : c.ReachesRecord ty) :
    ty.isOmittable = false := by
  cases h <;> rfl

theorem Catalogue.inner?_pointer {c : Catalogue} {p : Pointer} {t : Ty} (holds : p.holds = true) :
    c.inner? (.pointer p t) = some t := by
  cases p <;> first | rfl | cases holds

theorem Catalogue.ReachesRecord.of_peelsTo {c : Catalogue} {ty t : Ty} (h : c.ReachesRecord ty)
    (below : c.PeelsTo ty t) : c.ReachesRecord t := by
  induction below with
  | here => exact h
  | inner inner _ ih =>
    refine ih ?_
    cases h with
    | record body => simp [Catalogue.inner?, body] at inner
    | newtype body h =>
      rw [Catalogue.inner?_newtype body] at inner
      cases inner
      exact h
    | pointer holds h =>
      rw [Catalogue.inner?_pointer holds] at inner
      cases inner
      exact h
  | option => cases h

/-- What is written of the data of a type is not null, and is read as the data. -/
def Catalogue.Undone (c : Catalogue) (ty : Ty) (write : Datum → Except Error Tree)
    (read : Tree → Except Error Datum) : Prop :=
  ∀ d x, HasType c ty d → write d = .ok x → x ≠ .null ∧ ∃ e, d.Same e ∧ read x = .ok e

theorem Catalogue.undone_of_inverse {c : Catalogue} {ty : Ty} {write : Datum → Except Error Tree}
    {read : Tree → Except Error Datum}
    (inverse : ∀ d, HasType c ty d → ∃ x, x ≠ .null ∧ write d = .ok x ∧ read x = .ok d) :
    c.Undone ty write read := by
  intro d x hd hx
  obtain ⟨y, there, hy, back⟩ := inverse d hd
  cases hx.symm.trans hy
  exact ⟨there, d, .refl d, back⟩

namespace Codec

/-- No datum of the type is written as null. -/
def NeverNull (cx : Codec) (ty : Ty) : Prop :=
  ∀ depth d, HasType cx.catalogue ty d → encode cx depth ty d ≠ (.ok .null : Except Error Tree)

/-- A layer of a type that loses nothing, if the types of a set lose nothing. -/
inductive LosslessLayer (cx : Codec) (L : Ty → Prop) : Ty → Prop
  | scalar {ty : Ty} (exact : ty.isExact = true) : LosslessLayer cx L ty
  | tree : LosslessLayer cx L .tree
  | nonZero {k : IntTy} (h : L (.int k)) : LosslessLayer cx L (.nonZero k)
  | option {t : Ty} (h : L t) (there : cx.NeverNull t) : LosslessLayer cx L (.option t)
  | pointer {p : Pointer} {t : Ty} (holds : p.holds = true) (h : L t) :
    LosslessLayer cx L (.pointer p t)
  | list {t : Ty} (h : L t) : LosslessLayer cx L (.list t)
  | array {t : Ty} {n : Nat} (some : 0 < n) (short : n ≤ Ty.maxArrayLength) (h : L t) :
    LosslessLayer cx L (.array t n)
  | map {a : Arrangement} {key value : Ty} {names : List String}
    (text : cx.catalogue.TextKey names key) (h : L value) : LosslessLayer cx L (.map a key value)
  | tuple {ts : List Ty} (h : ∀ t ∈ ts, L t) : LosslessLayer cx L (.tuple ts)
  | newtype {name : String} {t : Ty} (body : cx.catalogue.body? name = some (.newtype t))
    (h : L t) (there : cx.NeverNull t) : LosslessLayer cx L (.named name)
  | positional {name : String} {fs : List Field}
    (body : cx.catalogue.body? name = some (.tuple fs)) (h : ∀ f ∈ fs, L f.ty) :
    LosslessLayer cx L (.named name)
  | enumeration {name : String} {vs : List Variant}
    (body : cx.catalogue.body? name = some (.enumeration vs)) (unit : ∀ v ∈ vs, v.payload = [])
    (names : (vs.map Variant.name).Nodup) : LosslessLayer cx L (.named name)
  /-- The fields of a record consume different keys, inlined ones those of their records. -/
  | record {name : String} {fs : List Field}
    (body : cx.catalogue.body? name = some (.record fs)) (h : ∀ f ∈ fs, L f.ty)
    (kept : ∀ f ∈ fs, f.skipped = false)
    (keys : fs.Pairwise fun f g => ∀ k, cx.FieldConsumes f k → ¬ cx.FieldConsumes g k)
    (inlined : ∀ f ∈ fs, f.inline = true → cx.catalogue.ReachesRecord f.ty)
    (omitted : ∀ f ∈ fs, f.omitEmpty = true → f.default? = none ∧ f.ty.isOmittable = true) :
    LosslessLayer cx L (.named name)

theorem LosslessLayer.of_newtype {cx : Codec} {L : Ty → Prop} {name : String} {t : Ty}
    (layer : cx.LosslessLayer L (.named name)) (body : cx.catalogue.body? name = some (.newtype t)) :
    L t := by
  cases layer with
  | scalar exact => cases exact
  | newtype body' h => cases body.symm.trans body'; exact h
  | positional body' => simp [body] at body'
  | enumeration body' => simp [body] at body'
  | record body' => simp [body] at body'

/-- What a record inlines is a record. -/
theorem LosslessLayer.reachesRecord {cx : Codec} {L : Ty → Prop} {name : String} {fs : List Field}
    (layer : cx.LosslessLayer L (.named name)) (body : cx.catalogue.body? name = some (.record fs)) :
    ∀ f ∈ fs, f.inline = true → cx.catalogue.ReachesRecord f.ty := by
  cases layer with
  | scalar exact => cases exact
  | newtype body' => simp [body] at body'
  | positional body' => simp [body] at body'
  | enumeration body' => simp [body] at body'
  | record body' _ _ _ inlined _ => cases body.symm.trans body'; exact inlined

theorem LosslessLayer.of_pointer {cx : Codec} {L : Ty → Prop} {p : Pointer} {t : Ty}
    (layer : cx.LosslessLayer L (.pointer p t)) : L t := by
  cases layer with
  | scalar exact => cases exact
  | pointer _ h => exact h

/-- A type of a set of types, each made of types of the set without loss. -/
def Lossless (cx : Codec) (ty : Ty) : Prop :=
  ∃ L : Ty → Prop, L ty ∧ ∀ t, L t → cx.LosslessLayer L t

theorem LosslessLayer.mono {cx : Codec} {L L' : Ty → Prop} (sub : ∀ t, L t → L' t) {ty : Ty}
    (layer : cx.LosslessLayer L ty) : cx.LosslessLayer L' ty := by
  cases layer with
  | scalar exact => exact .scalar exact
  | tree => exact .tree
  | nonZero h => exact .nonZero (sub _ h)
  | option h there => exact .option (sub _ h) there
  | pointer holds h => exact .pointer holds (sub _ h)
  | list h => exact .list (sub _ h)
  | array some short h => exact .array some short (sub _ h)
  | map text h => exact .map text (sub _ h)
  | tuple h => exact .tuple fun t ht => sub _ (h t ht)
  | newtype body h there => exact .newtype body (sub _ h) there
  | positional body h => exact .positional body fun f hf => sub _ (h f hf)
  | enumeration body unit names => exact .enumeration body unit names
  | record body h kept keys inlined omitted =>
    exact .record body (fun f hf => sub _ (h f hf)) kept keys inlined omitted

/-- The lossless types are such a set. -/
theorem Lossless.layer {cx : Codec} {ty : Ty} (h : cx.Lossless ty) : cx.LosslessLayer cx.Lossless ty := by
  obtain ⟨L, hL, closed⟩ := h
  exact (closed ty hL).mono fun t ht => ⟨L, ht, closed⟩

end Codec

/-! ## Omitted data -/

theorem Scalar.eq_zero_of_isZero {k : IntTy} {n : Int} (h : isZero (.int k) (.int n) = true) :
    n = 0 := by
  simp only [isZero, encode, encodeInt] at h
  by_cases fits : IntTy.int64.contains n = true
  · rw [if_pos fits] at h
    have none : Int64.ofInt n = 0 := eq_of_beq h
    rw [← toInt_of_contains fits, none]
    rfl
  · rw [if_neg fits] at h
    rcases hs : k.signed with _ | _ <;> simp [hs] at h

/-- A datum that a field leaves out is the zero of its type. -/
theorem Catalogue.zero_of_isZero {c : Catalogue} {ty : Ty} {d : Datum} (hty : ty.isOmittable = true)
    (hd : HasType c ty d) (h : c.isZero ty d = true) : c.zero ty = .ok d := by
  cases hd with
  | bool b =>
    have off : b = false := by
      simpa [isZero, isTransparent, inner?, isZeroLayer, text?, peel, Scalar.isZero, Scalar.encode] using h
    subst off
    rfl
  | int hn =>
    have none := Scalar.eq_zero_of_isZero h
    subst none
    rfl
  | string s =>
    have empty : s = "" := by
      simpa [isZero, isTransparent, inner?, isZeroLayer, text?, peel] using h
    subst empty
    rfl
  | @list t ds _ =>
    have empty : ds = [] := by
      simpa [isZero, isTransparent, inner?, isZeroLayer, text?, peel] using h
    subst empty
    rfl
  | @map a key value es _ _ _ =>
    have empty : es = [] := by
      simpa [isZero, isTransparent, inner?, isZeroLayer, text?, peel] using h
    subst empty
    rfl
  | absent t => rfl
  | present _ => simp [isZero, isTransparent, inner?, isZeroLayer] at h
  | tree t =>
    cases t with
    | null => rfl
    | _ => simp [isZero, isTransparent, inner?, isZeroLayer, Tree.isNull] at h
  | _ => cases hty

/-! ## Writing without hooks -/

namespace Codec

variable {cx : Codec}

theorem encode_unhooked {ty : Ty} (hook : cx.registry.encoder? ty = none) (depth : Nat) (d : Datum) :
    (encode cx (depth + 1) ty d : Except Error Tree) = encodeLayer cx (encode cx depth) ty d := by
  rw [encode, encodeStep, hook]

theorem encodeLayer_exact {ty : Ty} (exact : ty.isExact = true) (encode : Ty → Datum → Except Error Tree)
    (d : Datum) : encodeLayer cx encode ty d = Scalar.encode ty d := by
  have same : encodeLayer cx encode ty d = MonadExcept.ofExcept (Scalar.encode ty d) := by
    cases ty with
    | bool => rfl
    | char => rfl
    | int k => rfl
    | float64 => rfl
    | string => rfl
    | _ => cases exact
  rw [same]
  rcases Scalar.encode ty d with e | x <;> rfl

/-- What has a hook is written by it. -/
theorem hook_of_encode {ty : Ty} {write : Datum → Except Error Tree}
    (hook : cx.registry.encoder? ty = some write) {depth : Nat} {d : Datum} {x : Tree}
    (h : encode cx depth ty d = (.ok x : Except Error Tree)) : write d = .ok x := by
  cases depth with
  | zero => cases h
  | succ depth =>
    rw [encode, encodeStep, hook] at h
    change MonadExcept.ofExcept (write d) = _ at h
    rcases hw : write d with e | y <;> rw [hw] at h <;> cases h
    rfl

/-- Exact scalars are written as such. -/
theorem scalar_of_encode {ty : Ty} (hook : cx.registry.encoder? ty = none) (exact : ty.isExact = true)
    {depth : Nat} {d : Datum} {x : Tree} (h : encode cx depth ty d = (.ok x : Except Error Tree)) :
    Scalar.encode ty d = .ok x := by
  cases depth with
  | zero => cases h
  | succ depth => rwa [encode_unhooked hook, encodeLayer_exact exact] at h

/-- A newtype is written as its content is, somewhere above. -/
theorem encode_newtype {name : String} {t : Ty} (hook : cx.registry.encoder? (.named name) = none)
    (free : cx.PeelsFreely t) (body : cx.catalogue.body? name = some (.newtype t)) (depth : Nat)
    (d : Datum) :
    ∃ k, (encode cx (depth + 1) (.named name) (.wrapped d) : Except Error Tree) =
      encode cx (depth + k) t d := by
  obtain ⟨k, hk⟩ := encode_peel free depth d
  exact ⟨k, (encode_newtype_peel hook body depth d).trans hk.symm⟩

/-- A slot is written as the tree that it holds. -/
theorem encode_slot (hook : cx.registry.encoder? .tree = Registry.slot.encode?) (depth : Nat) (t : Tree) :
    encode cx (depth + 1) .tree (.tree t) = (.ok t : Except Error Tree) := by
  rw [encode, encodeStep, hook]
  rfl

/-- Only options and pointers are written as null, and non-zero integers if integers are. -/
theorem LosslessLayer.of_null {L : Ty → Prop} {ty : Ty} (h : cx.LosslessLayer L ty)
    (hook : cx.registry.encoder? ty = none)
    (free : ∀ name t, ty = .named name → cx.catalogue.body? name = some (.newtype t) → cx.PeelsFreely t)
    {depth : Nat} {d : Datum} (hd : HasType cx.catalogue ty d)
    (null : encode cx (depth + 1) ty d = (.ok .null : Except Error Tree)) :
    (∃ t, ty = .option t ∧ d = .absent) ∨
      (∃ k e, L (.int k) ∧ HasType cx.catalogue (.int k) e ∧
        encode cx depth (.int k) e = (.ok .null : Except Error Tree)) ∨
      ∃ p t e, ty = .pointer p t ∧ d = .wrapped e ∧ p.holds = true ∧ L t ∧
        HasType cx.catalogue t e ∧ encode cx depth t e = (.ok .null : Except Error Tree) := by
  have layer := null
  rw [encode_unhooked hook] at layer
  cases h with
  | scalar exact =>
    exact absurd rfl (Scalar.ne_null_of_encode exact hd (scalar_of_encode hook exact null))
  | tree => cases layer
  | nonZero h =>
    cases hd with
    | nonZero hn h0 => exact .inr (.inl ⟨_, _, h, .int hn, layer⟩)
  | option h there =>
    cases hd with
    | absent => exact .inl ⟨_, rfl, rfl⟩
    | present hd => exact absurd layer (there depth _ hd)
  | pointer holds h =>
    cases hd with
    | pointer _ hd =>
      refine .inr (.inr ⟨_, _, _, rfl, rfl, holds, h, hd, ?_⟩)
      simpa only [encodeLayer] using layer
    | gone => cases holds
  | @list t h =>
    cases hd with
    | list hd =>
      rcases bytes : (Ty.list t).isBytes with _ | _
      · obtain ⟨xs, -, hx⟩ := of_encode_list bytes layer
        cases hx
      · obtain ⟨⟨s, hs⟩, -⟩ := decodeBytes_of_encodeBytes (of_encode_bytes bytes layer)
        cases hs
  | array some short h =>
    cases hd with
    | array hd =>
      obtain ⟨xs, -, hx⟩ := of_encode_array layer
      cases hx
  | map text h =>
    cases hd with
    | map a distinct hk hv =>
      obtain ⟨ps, -, hx⟩ := of_encode_map layer
      cases hx
  | tuple h =>
    cases hd with
    | tuple hd =>
      obtain ⟨xs, -, hx⟩ := of_encode_tuple layer
      cases hx
  | newtype body h there =>
    obtain ⟨e, rfl, he⟩ := hd.newtype_inv body
    obtain ⟨k, hk⟩ := encode_newtype hook (free _ _ rfl body) body depth e
    exact absurd (hk.symm.trans null) (there (depth + k) e he)
  | positional body h =>
    obtain ⟨ds, rfl, hds⟩ := hd.positional_inv body
    obtain ⟨xs, -, hx⟩ := of_encode_positional body layer
    cases hx
  | enumeration body unit names =>
    obtain ⟨i, v, ds, rfl, hv, hds⟩ := hd.variant_inv body
    have variant := of_encode_variant body layer
    cases (decodeVariant_of_encodeVariant unit names hv hds variant).1
  | record body h kept keys inlined omitted =>
    obtain ⟨ds, rfl, hds⟩ := hd.record_inv body
    obtain ⟨es, -, hx⟩ := of_encode_record body layer
    cases hx

theorem NeverNull.pointer {p : Pointer} {t : Ty} (h : cx.NeverNull t)
    (hook : cx.registry.encoder? (.pointer p t) = none) (holds : p.holds = true) :
    cx.NeverNull (.pointer p t) := by
  intro depth d hd null
  cases depth with
  | zero => cases null
  | succ depth =>
    rw [encode_unhooked hook] at null
    cases hd with
    | pointer _ hd => exact h depth _ hd (by simpa only [encodeLayer] using null)
    | gone => cases holds

theorem neverNull_of_undone {ty : Ty} {write : Datum → Except Error Tree}
    {read : Tree → Except Error Datum} (write? : cx.registry.encoder? ty = some write)
    (undone : cx.catalogue.Undone ty write read) : cx.NeverNull ty :=
  fun _ d hd null => (undone d _ hd (hook_of_encode write? null)).1 rfl

/-! ## Hooks and layers -/

/-- Neither what peeling a type leaves behind nor what is at its end has a hook. -/
def Bare (cx : Codec) (ty : Ty) : Prop :=
  ∀ t, cx.catalogue.PeelsTo ty t →
    cx.registry.encoder? t = none ∧ cx.registry.decoder? t = none

theorem Bare.of_inner {ty t : Ty} (h : cx.Bare ty) (inner : cx.catalogue.inner? ty = some t) :
    cx.Bare t :=
  fun u below => h u (.inner inner below)

/-- A type that loses nothing, if the types of a set lose nothing. -/
inductive Faithful (cx : Codec) (L : Ty → Prop) : Ty → Prop
  | slot (write : cx.registry.encoder? .tree = Registry.slot.encode?)
    (read : cx.registry.decoder? .tree = Registry.slot.decode?) : Faithful cx L .tree
  /-- Its hooks undo each other, and do not write null. -/
  | hook {ty : Ty} {write : Datum → Except Error Tree} {read : Tree → Except Error Datum}
    (write? : cx.registry.encoder? ty = some write) (read? : cx.registry.decoder? ty = some read)
    (back : cx.catalogue.Undone ty write read) : Faithful cx L ty
  /-- It has no hook, nor do what a newtype peels and what a record inlines. -/
  | layer {ty : Ty} (write? : cx.registry.encoder? ty = none) (read? : cx.registry.decoder? ty = none)
    (layer : cx.LosslessLayer L ty)
    (free : ∀ name t, ty = .named name → cx.catalogue.body? name = some (.newtype t) →
      cx.PeelsFreely t)
    (bare : ∀ name fs, ty = .named name → cx.catalogue.body? name = some (.record fs) →
      ∀ f ∈ fs, f.inline = true → cx.Bare f.ty) : Faithful cx L ty

section Closed

variable {L : Ty → Prop}

/-- Integers are not written as null. -/
theorem Faithful.int_neverNull {k : IntTy} (h : cx.Faithful L (.int k)) : cx.NeverNull (.int k) := by
  intro depth d hd null
  cases h with
  | hook write? _ back => exact neverNull_of_undone write? back depth d hd null
  | layer write? =>
    exact absurd rfl (Scalar.ne_null_of_encode rfl hd (scalar_of_encode write? rfl null))

variable (closed : ∀ t, L t → cx.Faithful L t)
include closed

/-- Only options, slots and pointers are written as null. -/
theorem of_null {ty : Ty} {depth : Nat} {d : Datum} (h : L ty) (hd : HasType cx.catalogue ty d)
    (null : encode cx (depth + 1) ty d = (.ok .null : Except Error Tree)) :
    (∃ t, ty = .option t ∧ d = .absent) ∨ (ty = .tree ∧ d = .tree .null) ∨
      ∃ p t e, ty = .pointer p t ∧ d = .wrapped e ∧ p.holds = true ∧ L t ∧
        HasType cx.catalogue t e ∧ encode cx depth t e = (.ok .null : Except Error Tree) := by
  cases closed ty h with
  | slot write =>
    cases hd with
    | tree t =>
      rw [encode_slot write] at null
      cases null
      exact .inr (.inl ⟨rfl, rfl⟩)
  | hook write? _ back => exact absurd null (neverNull_of_undone write? back _ d hd)
  | layer write? _ layer free =>
    obtain absent | ⟨k, e, hk, he, int⟩ | pointer := layer.of_null write? free hd null
    · exact .inl absent
    · exact absurd int ((closed _ hk).int_neverNull depth e he)
    · exact .inr (.inr pointer)

/-- Null is read as the datum that was written as null. -/
theorem zero_of_null {depth : Nat} {ty : Ty} {d : Datum} (h : L ty) (hd : HasType cx.catalogue ty d)
    (null : encode cx depth ty d = (.ok .null : Except Error Tree)) : cx.catalogue.zero ty = .ok d := by
  induction depth generalizing ty d with
  | zero => cases null
  | succ depth ih =>
    obtain ⟨t, rfl, rfl⟩ | ⟨rfl, rfl⟩ | ⟨p, t, e, rfl, rfl, holds, ht, he, below⟩ :=
      of_null closed h hd null
    · rfl
    · rfl
    · have content := ih ht he below
      -- Only a counted slice has a default of its own, and slices are not written as null.
      have plain : Ty.default? cx.catalogue (.pointer p t) = none := by
        cases t with
        | slice u =>
          cases closed _ ht with
          | hook write? _ back => exact absurd below (neverNull_of_undone write? back depth e he)
          | layer _ _ layer =>
            cases layer with
            | scalar exact => cases exact
        | _ => cases p <;> first | rfl | cases holds
      have there : p ≠ .borrowed := fun borrowed => by
        subst borrowed
        cases holds
      rw [Catalogue.zero] at content ⊢
      rw [Catalogue.zeroWith, plain, content]
      simp only [if_neg there]

/-- A tree that was written for a field that is left out while it is empty is not null. -/
theorem ne_null_of_omittable {ty : Ty} (h : L ty) (hty : ty.isOmittable = true) {depth : Nat}
    {d : Datum} {x : Tree} (hd : HasType cx.catalogue ty d) (full : cx.catalogue.isZero ty d = false)
    (hx : encode cx depth ty d = (.ok x : Except Error Tree)) : x ≠ .null := by
  intro null
  subst null
  cases depth with
  | zero => cases hx
  | succ depth =>
    obtain ⟨t, rfl, rfl⟩ | ⟨rfl, rfl⟩ | ⟨p, t, e, rfl, -⟩ := of_null closed h hd hx
    · cases full
    · cases full
    · cases hty

end Closed

/-! ## Codecs without hooks -/

section Initial

variable (initial : cx.registry = .initial)
include initial

theorem encoder?_of_initial {ty : Ty} (h : ty ≠ .tree) : cx.registry.encoder? ty = none := by
  rw [initial]
  exact Registry.encoder?_initial h

theorem decoder?_of_initial {ty : Ty} (h : ty ≠ .tree) : cx.registry.decoder? ty = none := by
  rw [initial]
  exact Registry.decoder?_initial h

theorem peelsFreely_of_initial (ty : Ty) : cx.PeelsFreely ty := fun t _ peeled =>
  encoder?_of_initial initial fun slot => by
    subst slot
    cases peeled

theorem bare_of_reachesRecord {ty : Ty} (h : cx.catalogue.ReachesRecord ty) : cx.Bare ty := by
  intro t below
  have slot : t ≠ .tree := fun slot => by
    subst slot
    cases h.of_peelsTo below
  exact ⟨encoder?_of_initial initial slot, decoder?_of_initial initial slot⟩

/-- Without hooks but that of slots, what is lossless is faithful. -/
theorem LosslessLayer.faithful {L : Ty → Prop} {ty : Ty} (layer : cx.LosslessLayer L ty) :
    cx.Faithful L ty := by
  by_cases slot : ty = .tree
  · subst slot
    exact .slot (by rw [initial]; rfl) (by rw [initial]; rfl)
  refine .layer (encoder?_of_initial initial slot) (decoder?_of_initial initial slot) layer
    (fun _ t _ _ => peelsFreely_of_initial initial t) fun name fs named body f hf inline => ?_
  subst named
  exact bare_of_reachesRecord initial (layer.reachesRecord body f hf inline)

/-! ## Data never written as null -/

/-- Lossless types other than options, slots and pointers are never written as null. -/
theorem LosslessLayer.neverNull {L : Ty → Prop} {ty : Ty} (layer : cx.LosslessLayer L ty)
    (option : ∀ t, ty ≠ .option t) (slot : ty ≠ .tree) (pointer : ∀ p t, ty ≠ .pointer p t) :
    cx.NeverNull ty := by
  intro depth d hd null
  cases depth with
  | zero => cases null
  | succ depth =>
    obtain ⟨t, h, -⟩ | ⟨k, e, -, he, int⟩ | ⟨p, t, -, h, -⟩ :=
      layer.of_null (encoder?_of_initial initial slot)
        (fun _ t _ _ => peelsFreely_of_initial initial t) hd null
    · exact option t h
    · have hook : cx.registry.encoder? (.int k) = none := encoder?_of_initial initial (by simp)
      exact Scalar.ne_null_of_encode rfl he (scalar_of_encode hook rfl int) rfl
    · exact pointer p t h

end Initial

/-! ## Routes -/

/-- The types of a route. -/
inductive RouteTy : Ty → Prop
  | stop : RouteTy (.named "stop")
  | next : RouteTy (.option (.pointer .owned (.named "stop")))
  | nextStop : RouteTy (.pointer .owned (.named "stop"))
  | point : RouteTy (.named "point")
  | place : RouteTy (.pointer .owned (.named "point"))
  | coordinate : RouteTy (.int .int64)
  | label : RouteTy .string
  | notes : RouteTy (.list .string)

theorem consumes_point {k : String} :
    route.Consumes (.pointer .owned (.named "point")) k ↔ k = "x" ∨ k = "y" := by
  rw [consumes_content rfl rfl, consumes_record rfl rfl]
  simp [FieldConsumes]

theorem losslessLayer_stop : route.LosslessLayer RouteTy (.named "stop") := by
  refine .record rfl ?_ ?_ ?_ ?_ ?_
  · simp only [List.forall_mem_cons]
    exact ⟨.label, .place, .notes, .next, nofun⟩
  · simp
  · simp [FieldConsumes, consumes_point]
  · simp only [List.forall_mem_cons]
    exact ⟨nofun, fun _ => .pointer rfl (.record rfl), nofun, nofun, nofun⟩
  · simp [Ty.isOmittable]

theorem lossless_route : route.Lossless (.named "stop") := by
  refine ⟨RouteTy, .stop, fun t ht => ?_⟩
  have stop : route.NeverNull (.named "stop") :=
    losslessLayer_stop.neverNull rfl nofun nofun nofun
  cases ht with
  | stop => exact losslessLayer_stop
  | next => exact .option .nextStop (stop.pointer rfl rfl)
  | nextStop => exact .pointer rfl .stop
  | point =>
    refine .record rfl ?_ ?_ ?_ ?_ ?_
    · simp only [List.forall_mem_cons]
      exact ⟨.coordinate, .coordinate, nofun⟩
    · simp
    · simp [FieldConsumes]
    · simp
    · simp
  | place => exact .pointer rfl .point
  | coordinate => exact .scalar rfl
  | label => exact .scalar rfl
  | notes => exact .list .label

end Codec

end TreeCodec
