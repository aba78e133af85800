import TreeCodec.Proofs.ByteStrings
import TreeCodec.Proofs.WrittenLeaves

/-!
# Errors of writing

Writing data of most types fails for nothing but a leaf without form that is to be written, and
each such leaf fails it (`unwritable_leaves_fail`). Integers without form fail it wherever they are,
skipped fields aside: what is left out while it is empty holds none.

* `Codec.Writable`: the types;
* `FailsJust.bind`: computations that fail with just some errors, one after the other;
* `Catalogue.ReachesObject.written`: what is inlined is written as an object, or as null;
* `Codec.encode_failsJust`: a datum is written, or fails as a written leaf of it does.
-/

namespace TreeCodec

/-! ## Computations -/

/-- A computation that fails with one of some errors if there are any, and succeeds otherwise. -/
def FailsJust {α : Type} (P : Error → Prop) : Except Error α → Prop
  | .ok _ => ∀ e, ¬ P e
  | .error e => P e

namespace FailsJust

variable {α β : Type} {P Q : Error → Prop} {r : Except Error α}

theorem congr (h : FailsJust P r) (same : ∀ e, P e ↔ Q e) : FailsJust Q r := by
  rwa [← funext fun e => propext (same e)]

theorem ok_iff (h : FailsJust P r) : (∃ v, r = .ok v) ↔ ∀ e, ¬ P e := by
  cases r with
  | ok v => exact ⟨fun _ => h, fun _ => ⟨v, rfl⟩⟩
  | error e => exact ⟨nofun, fun none => absurd h (none e)⟩

theorem of_error (h : FailsJust P r) {e : Error} (failed : r = .error e) : P e := by
  subst failed
  exact h

theorem bind {f : α → Except Error β} (hr : FailsJust P r)
    (hf : ∀ v, r = .ok v → FailsJust Q (f v)) :
    FailsJust (fun e => P e ∨ Q e) (r >>= f) := by
  cases r with
  | error e => exact .inl hr
  | ok v =>
    have rest := hf v rfl
    change FailsJust _ (f v)
    generalize f v = s at rest
    cases s with
    | error e => exact .inr rest
    | ok w => exact fun e => not_or.mpr ⟨hr e, rest e⟩

/-- What follows and does not fail adds no error. -/
theorem follow {f : α → Except Error β} (hr : FailsJust P r)
    (hf : ∀ v, r = .ok v → ∃ w, f v = .ok w) : FailsJust P (r >>= f) := by
  refine (hr.bind (Q := fun _ => False) fun v hv => ?_).congr fun e => or_iff_left id
  obtain ⟨w, hw⟩ := hf v hv
  rw [hw]
  exact fun _ => id

theorem mapped (hr : FailsJust P r) {f : α → β} : FailsJust P (r.map f) := by
  cases r <;> exact hr

theorem map (hr : FailsJust P r) (f : α → β) : FailsJust P (r >>= fun v => .ok (f v)) :=
  hr.follow fun v _ => ⟨f v, rfl⟩

end FailsJust

/-! ## Types -/

/-- The types that are a record or a map, or hold one: what is optional, newtypes and pointers. -/
inductive Catalogue.ReachesObject (c : Catalogue) : Ty → Prop
  | record {name : String} {fs : List Field} (body : c.body? name = some (.record fs)) :
    ReachesObject c (.named name)
  | map (a : Arrangement) (key value : Ty) : ReachesObject c (.map a key value)
  | option {t : Ty} (h : ReachesObject c t) : ReachesObject c (.option t)
  | pointer (p : Pointer) {t : Ty} (h : ReachesObject c t) : ReachesObject c (.pointer p t)
  | newtype {name : String} {t : Ty} (body : c.body? name = some (.newtype t))
    (h : ReachesObject c t) : ReachesObject c (.named name)

namespace Codec

/-- A layer of a type whose data are written but for leaves, if those of a set of types are. -/
inductive WritableLayer (cx : Codec) (L : Ty → Prop) : Ty → Prop
  | scalar {ty : Ty} (exact : ty.isExact = true) : WritableLayer cx L ty
  | float32 : WritableLayer cx L .float32
  | borrowedText : WritableLayer cx L .borrowedText
  | sharedText : WritableLayer cx L (.opaqueScalar .sharedText)
  | tree : WritableLayer cx L .tree
  | option {t : Ty} (h : L t) : WritableLayer cx L (.option t)
  | pointer {p : Pointer} {t : Ty} (holds : p.holds = true) (h : L t) :
    WritableLayer cx L (.pointer p t)
  | list {t : Ty} (h : L t) : WritableLayer cx L (.list t)
  | array {t : Ty} {n : Nat} (h : L t) : WritableLayer cx L (.array t n)
  | map {a : Arrangement} {key value : Ty} {names : List String}
    (text : cx.catalogue.TextKey names key) (h : L value) : WritableLayer cx L (.map a key value)
  | tuple {ts : List Ty} (h : ∀ t ∈ ts, L t) : WritableLayer cx L (.tuple ts)
  | newtype {name : String} {t : Ty} (body : cx.catalogue.body? name = some (.newtype t))
    (h : L t) : WritableLayer cx L (.named name)
  | positional {name : String} {fs : List Field}
    (body : cx.catalogue.body? name = some (.tuple fs)) (h : ∀ f ∈ fs, L f.ty) :
    WritableLayer cx L (.named name)
  | enumeration {name : String} {vs : List Variant}
    (body : cx.catalogue.body? name = some (.enumeration vs)) (unit : ∀ v ∈ vs, v.payload = []) :
    WritableLayer cx L (.named name)
  /-- What is inlined is a record or a map. Skipped fields may be of any type. -/
  | record {name : String} {fs : List Field}
    (body : cx.catalogue.body? name = some (.record fs))
    (h : ∀ f ∈ fs, f.skipped = false → L f.ty)
    (inlined : ∀ f ∈ fs, f.skipped = false → f.inline = true →
      cx.catalogue.ReachesObject f.ty) : WritableLayer cx L (.named name)

/-- A type of a set of types, each made of types of the set and written but for leaves. -/
def Writable (cx : Codec) (ty : Ty) : Prop :=
  ∃ L : Ty → Prop, L ty ∧ ∀ t, L t → cx.WritableLayer L t

theorem WritableLayer.mono {cx : Codec} {L L' : Ty → Prop} (sub : ∀ t, L t → L' t) {ty : Ty}
    (layer : cx.WritableLayer L ty) : cx.WritableLayer L' ty := by
  cases layer with
  | scalar exact => exact .scalar exact
  | float32 => exact .float32
  | borrowedText => exact .borrowedText
  | sharedText => exact .sharedText
  | tree => exact .tree
  | option h => exact .option (sub _ h)
  | pointer holds h => exact .pointer holds (sub _ h)
  | list h => exact .list (sub _ h)
  | array h => exact .array (sub _ h)
  | map text h => exact .map text (sub _ h)
  | tuple h => exact .tuple fun t ht => sub _ (h t ht)
  | newtype body h => exact .newtype body (sub _ h)
  | positional body h => exact .positional body fun f hf => sub _ (h f hf)
  | enumeration body unit => exact .enumeration body unit
  | record body h inlined => exact .record body (fun f hf kept => sub _ (h f hf kept)) inlined

variable {cx : Codec} {ty t : Ty} {d x : Datum}

/-- The writable types are such a set. -/
theorem Writable.layer (h : cx.Writable ty) : cx.WritableLayer cx.Writable ty := by
  obtain ⟨L, hL, closed⟩ := h
  exact (closed ty hL).mono fun t ht => ⟨L, ht, closed⟩

theorem WritableLayer.of_content {L : Ty → Prop} (layer : cx.WritableLayer L ty)
    (content : cx.catalogue.Content ty d t x) : L t := by
  cases content with
  | option => cases layer with | scalar exact => cases exact | option h => exact h
  | pointer => cases layer with | scalar exact => cases exact | pointer _ h => exact h
  | nonZero => cases layer with | scalar exact => cases exact
  | newtype body =>
    cases layer with
    | scalar exact => cases exact
    | newtype body' h => cases body.symm.trans body'; exact h
    | positional body' => simp [body] at body'
    | enumeration body' => simp [body] at body'
    | record body' => simp [body] at body'

end Codec

/-! ## What is inlined -/

/-- What reaches an object still does below what holds it. -/
theorem Catalogue.ReachesObject.of_content {c : Catalogue} {ty t : Ty} {d x : Datum}
    (layer : c.Content ty d t x) (h : c.ReachesObject ty) : c.ReachesObject t := by
  cases layer with
  | option => cases h with | option h => exact h
  | pointer => cases h with | pointer _ h => exact h
  | nonZero => cases h
  | newtype body =>
    cases h with
    | record body' => simp [body] at body'
    | newtype body' h => cases body.symm.trans body'; exact h

/-- It is written as an object, or as null where there is none. -/
theorem Catalogue.ReachesObject.written {cx : Codec} (initial : cx.registry = .initial)
    {depth : Nat} {ty : Ty} {d : Datum} {y : Tree} (h : cx.catalogue.ReachesObject ty)
    (written : Codec.encode cx depth ty d = (.ok y : Except Error Tree)) :
    (∃ o, y = .object o) ∨ y = .null := by
  induction depth generalizing ty d with
  | zero => cases written
  | succ depth ih =>
    have slot : ty ≠ .tree := by
      rintro rfl
      cases h
    rw [Codec.encode_unhooked (Codec.encoder?_of_initial initial slot)] at written
    cases Codec.writesLayer_of_ok written with
    | absent => exact .inr rfl
    | content layer hy => exact ih (h.of_content layer) hy
    | @newtype name t d y body hy =>
      have keeps {t u : Ty} {x y : Datum} (layer : cx.catalogue.Content t x u y)
          (h : cx.catalogue.ReachesObject t) : cx.catalogue.ReachesObject u := h.of_content layer
      exact ih (Catalogue.Content.keep_peel keeps (keeps (.newtype body d) h)) hy
    | array members =>
      cases members with
      | positional body => cases h <;> simp_all
      | _ => cases h
    | bytes => cases h
    | map => exact .inl ⟨_, rfl⟩
    | record => exact .inl ⟨_, rfl⟩
    | variant body => cases h <;> simp_all
    | scalar hy =>
      have family := (Scalar.family?_of_encode hy).1
      cases h <;> cases family

/-! ## Parts -/

/-- Two lists have something at the same position: at the first one, or further back. -/
theorem exists_getElem?_cons {α β : Type} (Q : α → β → Prop) {a : α} {b : β} {as : List α}
    {bs : List β} :
    (∃ (i : Nat) (x : α) (y : β), (a :: as)[i]? = some x ∧ (b :: bs)[i]? = some y ∧ Q x y) ↔
      Q a b ∨ ∃ (i : Nat) (x : α) (y : β), as[i]? = some x ∧ bs[i]? = some y ∧ Q x y := by
  constructor
  · rintro ⟨i, x, y, hx, hy, h⟩
    cases i with
    | zero =>
      cases hx
      cases hy
      exact .inl h
    | succ i => exact .inr ⟨i, x, y, hx, hy, h⟩
  · rintro (h | ⟨i, x, y, hx, hy, h⟩)
    · exact ⟨0, a, b, rfl, rfl, h⟩
    · exact ⟨i + 1, x, y, hx, hy, h⟩

namespace Codec

section Parts

variable {cx : Codec} {encode : Ty → Datum → Except Error Tree} {P : Ty → Datum → Error → Prop}
  {ty t : Ty}

/-- Members fail if one of them does, at some position. -/
theorem encodeMembers_failsJust {ts : List Ty} {ds : List Datum}
    (each : ∀ (i : Nat) t x, ts[i]? = some t → ds[i]? = some x → FailsJust (P t x) (encode t x))
    (length : ts.length = ds.length) :
    FailsJust (fun e => ∃ (i : Nat) (t : Ty) (x : Datum),
        ts[i]? = some t ∧ ds[i]? = some x ∧ P t x e)
      (encodeMembers encode ty ts ds) := by
  induction ts generalizing ds with
  | nil =>
    cases ds with
    | nil => rintro e ⟨i, t, x, ht, -⟩; cases ht
    | cons x ds => cases length
  | cons t ts ih =>
    cases ds with
    | nil => cases length
    | cons x ds =>
      have rest := ih (fun i => each (i + 1)) (Nat.succ.inj length)
      refine ((each 0 t x rfl rfl).bind fun y _ => rest.map (y :: ·)).congr fun e => ?_
      exact (exists_getElem?_cons fun t x => P t x e).symm

/-- The entries of a map fail if one of its values does: its keys have texts. -/
theorem mapEntries_failsJust {key : Ty} {es : List (Datum × Datum)}
    (each : ∀ k x, (k, x) ∈ es → FailsJust (P t x) (encode t x))
    (text : ∀ k x, (k, x) ∈ es → ∃ s, cx.catalogue.text? key k = some s) :
    FailsJust (fun e => ∃ k x, (k, x) ∈ es ∧ P t x e) (cx.mapEntries (encode t) key es) := by
  induction es with
  | nil => rintro e ⟨k, x, mem, -⟩; cases mem
  | cons entry es ih =>
    obtain ⟨k, x⟩ := entry
    obtain ⟨s, hs⟩ := text k x List.mem_cons_self
    have rest := ih (fun l y mem => each l y (List.mem_cons_of_mem _ mem))
      fun l y mem => text l y (List.mem_cons_of_mem _ mem)
    simp only [mapEntries, hs]
    refine ((each k x List.mem_cons_self).bind fun y _ => rest.map ((s, y) :: ·)).congr fun e => ?_
    simp [or_and_right, exists_or]

/-- A field fails if it is written and its datum fails: what it writes can be put in its place. -/
theorem contribution_failsJust {f : Field} {x : Datum}
    (each : f.skipped = false → FailsJust (P f.ty x) (encode f.ty x))
    (inlined : f.skipped = false → f.inline = true → ∀ y, encode f.ty x = .ok y →
      (∃ o, y = .object o) ∨ y = .null) :
    FailsJust (fun e => f.skipped = false ∧ (f.omitEmpty && cx.catalogue.isZero f.ty x) = false ∧
      P f.ty x e) (cx.contribution encode f x) := by
  rw [contribution]
  rcases kept : f.skipped with _ | _
  · rcases out : (f.omitEmpty && cx.catalogue.isZero f.ty x) with _ | _
    · refine ((each kept).follow fun y hy => ?_).congr fun e => by simp
      rcases inline : f.inline with _ | _
      · rw [entriesOf_apart inline]
        split <;> exact ⟨_, rfl⟩
      · obtain ⟨o, rfl⟩ | rfl := inlined kept inline y hy
        · exact ⟨o, entriesOf_inlined inline o⟩
        · exact ⟨[], by rw [entriesOf, if_pos inline]⟩
    · simp [FailsJust]
  · simp [FailsJust]

theorem contributions_failsJust {fs : List Field} {ds : List Datum}
    (each : ∀ (i : Nat) f x, fs[i]? = some f → ds[i]? = some x → f.skipped = false →
      FailsJust (P f.ty x) (encode f.ty x))
    (inlined : ∀ (i : Nat) f x, fs[i]? = some f → f.skipped = false → f.inline = true → ∀ y,
      encode f.ty x = .ok y → (∃ o, y = .object o) ∨ y = .null)
    (length : fs.length = ds.length) :
    FailsJust (fun e => ∃ (i : Nat) (f : Field) (x : Datum), fs[i]? = some f ∧ ds[i]? = some x ∧
      f.skipped = false ∧ (f.omitEmpty && cx.catalogue.isZero f.ty x) = false ∧ P f.ty x e)
      (cx.contributions encode ty fs ds) := by
  induction fs generalizing ds with
  | nil =>
    cases ds with
    | nil => rintro e ⟨i, f, x, hf, -⟩; cases hf
    | cons x ds => cases length
  | cons f fs ih =>
    cases ds with
    | nil => cases length
    | cons x ds =>
      have first : FailsJust _ (cx.contribution encode f x) :=
        contribution_failsJust (each 0 f x rfl rfl) (inlined 0 f x rfl)
      have rest := ih (fun i => each (i + 1)) (fun i => inlined (i + 1)) (Nat.succ.inj length)
      refine (first.bind fun es _ => rest.map (es ++ ·)).congr fun e => ?_
      exact (exists_getElem?_cons fun (f : Field) x => f.skipped = false ∧
        (f.omitEmpty && cx.catalogue.isZero f.ty x) = false ∧ P f.ty x e).symm

end Parts

end Codec

/-! ## Scalars -/

theorem IntTy.contains_iff {k : IntTy} {n : Int} :
    k.contains n = true ↔ k.min ≤ n ∧ n ≤ k.max := by
  simp [IntTy.contains]

/-- Only unsigned integers and those of the widest type may leave 64 bits with a sign. -/
theorem IntTy.unsigned_or_widest {k : IntTy} {n : Int} (hn : k.contains n = true)
    (wide : IntTy.int64.contains n = false) :
    k.signed = false ∧ IntTy.int64.max < n ∨ k = .int128 := by
  obtain ⟨least, most⟩ := IntTy.contains_iff.mp hn
  rw [Bool.eq_false_iff, ne_eq, IntTy.contains_iff] at wide
  obtain ⟨signed, width⟩ := k
  cases signed with
  | false =>
    have some : 0 ≤ n := by simpa [IntTy.min] using least
    have negative : IntTy.int64.min ≤ 0 := by decide
    exact .inl ⟨rfl, by omega⟩
  | true =>
    cases width with
    | w128 => exact .inr rfl
    | _ =>
      simp [IntTy.min, IntTy.max, IntTy.int64, IntWidth.bits] at least most wide
      omega

/-- An integer has a form, or is refused as one that has none. -/
theorem Scalar.encodeInt_failsJust {k : IntTy} {n : Int} (hn : k.contains n = true) :
    FailsJust (LeafError (.int k) (.int n)) (encodeInt k n) := by
  rw [encodeInt]
  split
  · rename_i fits
    rintro e (⟨-, above⟩ | outside)
    · exact absurd (IntTy.contains_iff.mp fits).2 (Int.not_le.mpr above)
    · exact absurd fits (ne_true_of_eq_false outside)
  · rename_i wide
    have wide := Bool.eq_false_iff.mpr wide
    obtain ⟨unsigned, above⟩ | rfl := IntTy.unsigned_or_widest hn wide
    · rw [unsigned]
      exact .overflow unsigned above
    · exact .tooWide wide

/-! ## Layers -/

theorem Ty.eq_byte_of_isBytes {t : Ty} (bytes : (Ty.list t).isBytes = true) : t = .int .byte := by
  cases t with
  | int k => exact congrArg Ty.int (of_decide_eq_true bytes)
  | _ => cases bytes

/-- A key of a map has a text. -/
theorem Catalogue.TextKey.exists_text? {c : Catalogue} {names : List String} {ty : Ty} {d : Datum}
    (h : c.TextKey names ty) (typed : HasType c ty d) : ∃ s, c.text? ty d = some s := by
  induction h generalizing d with
  | string => cases typed with | string s => exact ⟨s, rfl⟩
  | newtype body _ ih =>
    obtain ⟨x, rfl, held⟩ := typed.newtype_inv body
    rw [text?_newtype body]
    exact ih held

namespace Codec

/-- Data lower than some height are written, or fail as a written leaf of theirs does, and what is
inlined is written as an object or as null. -/
structure FailsBelow (cx : Codec) (encode : Ty → Datum → Except Error Tree) (height : Nat) :
    Prop where
  each {t : Ty} {x : Datum} (h : cx.Writable t) (typed : HasType cx.catalogue t x)
    (low : x.height < height) : FailsJust (cx.catalogue.Fails t x) (encode t x)
  inlined {t : Ty} {x : Datum} {y : Tree} (h : cx.catalogue.ReachesObject t)
    (written : encode t x = .ok y) : (∃ o, y = .object o) ∨ y = .null

section Layers

variable {cx : Codec} {encode : Ty → Datum → Except Error Tree} {ty t : Ty} {d x : Datum}
  {name : String} {fs : List Field} {ds : List Datum}

theorem scalar_failsJust (exact : ty.isExact = true) (typed : HasType cx.catalogue ty d) :
    FailsJust (cx.catalogue.Fails ty d) (Scalar.encode ty d) := by
  cases typed with
  | int hn => exact (Scalar.encodeInt_failsJust hn).congr fun e => (Catalogue.fails_atom rfl).symm
  | bool => exact Catalogue.not_fails_atom rfl fun _ leaf => by cases leaf
  | char => exact Catalogue.not_fails_atom rfl fun _ leaf => by cases leaf
  | float64 => exact Catalogue.not_fails_atom rfl fun _ leaf => by cases leaf
  | string => exact Catalogue.not_fails_atom rfl fun _ leaf => by cases leaf
  | _ => cases exact

/-- Bytes have a form, as a text. -/
theorem bytes_failsJust (typed : HasType cx.catalogue .bytes d) :
    FailsJust (cx.catalogue.Fails .bytes d) (encodeLayer cx encode .bytes d) := by
  obtain ⟨bytes, rfl⟩ := hasType_bytes_iff.mp typed
  have written : encodeLayer cx encode .bytes (.ofBytes bytes) =
      MonadExcept.ofExcept (encodeBytes .bytes (bytes.map .ofByte)) := rfl
  rw [written, encodeBytes, mapM_byte?]
  intro e h
  obtain leaf | ⟨t, x, part, -⟩ := h.cases
  · cases leaf
  · cases part with
    | content layer => cases layer
    | member layer => cases layer with | list items => cases items

theorem FailsBelow.members (below : cx.FailsBelow encode d.height) {ts : List Ty}
    (layer : cx.catalogue.Members ty d ts ds) (h : ∀ t ∈ ts, cx.Writable t)
    (typed : HasTypes cx.catalogue ts ds) (low : ∀ x ∈ ds, x.height < d.height) :
    FailsJust (cx.catalogue.Fails ty d)
      (encodeMembers encode ty ts ds >>= fun xs => .ok (Tree.array xs)) := by
  have each (i : Nat) (t : Ty) (x : Datum) (ht : ts[i]? = some t) (hx : ds[i]? = some x) :
      FailsJust (cx.catalogue.Fails t x) (encode t x) :=
    below.each (h t (List.mem_of_getElem? ht)) (typed.get ht hx) (low x (List.mem_of_getElem? hx))
  have items : FailsJust _ (encodeMembers encode ty ts ds) :=
    encodeMembers_failsJust each typed.length_eq
  exact (items.map Tree.array).congr fun _ => (Catalogue.fails_members layer).symm

theorem FailsBelow.content (below : cx.FailsBelow encode d.height)
    (layer : cx.catalogue.Content ty d t x) (h : cx.Writable t) (typed : HasType cx.catalogue t x)
    (low : x.height < d.height) : FailsJust (cx.catalogue.Fails ty d) (encode t x) :=
  (below.each h typed low).congr fun _ => (Catalogue.fails_content layer).symm

/-- What is below all wrappers is writable as they are. -/
theorem FailsBelow.peeled (below : cx.FailsBelow encode d.height)
    (layer : cx.catalogue.Content ty d t x) (h : cx.Writable t) (typed : HasType cx.catalogue t x)
    (low : x.height < d.height) : FailsJust (cx.catalogue.Fails ty d)
      (encode (cx.catalogue.peel t x).1 (cx.catalogue.peel t x).2) := by
  obtain ⟨h', typed'⟩ := Catalogue.Content.keep_peel
    (Q := fun t x => cx.Writable t ∧ HasType cx.catalogue t x)
    (fun layer h => ⟨h.1.layer.of_content layer, (Catalogue.Part.content layer).hasType h.2⟩)
    ⟨h, typed⟩
  have low' := Nat.lt_of_le_of_lt (cx.catalogue.height_peel_le t x) low
  refine (below.each h' typed' low').congr fun e => ?_
  rw [Catalogue.fails_peel, Catalogue.fails_content layer]

theorem FailsBelow.map {a : Arrangement} {key : Ty} {names : List String}
    {es : List (Datum × Datum)} (below : cx.FailsBelow encode (Datum.map es).height)
    (text : cx.catalogue.TextKey names key) (h : cx.Writable t)
    (typed : HasType cx.catalogue (.map a key t) (.map es)) :
    FailsJust (cx.catalogue.Fails (.map a key t) (.map es))
      (encodeLayer cx encode (.map a key t) (.map es)) := by
  cases typed with
  | map _ _ keys values =>
    have entries := mapEntries_failsJust
      (fun k x mem => below.each h (values _ mem) (Datum.height_lt_map mem))
      fun k x mem => text.exists_text? (keys _ mem)
    simp only [encodeLayer, encodeEntries_eq]
    exact (entries.mapped.map Tree.object).congr fun _ => Catalogue.fails_map.symm

theorem FailsBelow.record (below : cx.FailsBelow encode (Datum.product ds).height)
    (body : cx.catalogue.body? name = some (.record fs))
    (h : ∀ f ∈ fs, f.skipped = false → cx.Writable f.ty)
    (inlined : ∀ f ∈ fs, f.skipped = false → f.inline = true → cx.catalogue.ReachesObject f.ty)
    (typed : HasTypes cx.catalogue (fs.map Field.ty) ds) :
    FailsJust (cx.catalogue.Fails (.named name) (.product ds))
      (encodeLayer cx encode (.named name) (.product ds)) := by
  have each (i : Nat) (f : Field) (x : Datum) (hf : fs[i]? = some f) (hx : ds[i]? = some x)
      (kept : f.skipped = false) : FailsJust (cx.catalogue.Fails f.ty x) (encode f.ty x) :=
    below.each (h f (List.mem_of_getElem? hf) kept)
      (typed.get (by rw [List.getElem?_map, hf]; rfl) hx)
      (Datum.height_lt_product (List.mem_of_getElem? hx))
  have fields : FailsJust _ (cx.contributions encode (.named name) fs ds) :=
    contributions_failsJust each (fun i f x hf kept inline _ =>
      below.inlined (inlined f (List.mem_of_getElem? hf) kept inline))
      (by simpa using typed.length_eq)
  simp only [encodeLayer, body, encodeDeclared, encodeFields_eq]
  exact (fields.mapped.map Tree.object).congr fun _ => (Catalogue.fails_record body).symm

/-- A layer of a writable type. -/
theorem FailsBelow.layer (below : cx.FailsBelow encode d.height) (writable : cx.Writable ty)
    (typed : HasType cx.catalogue ty d) (slot : ty ≠ .tree) :
    FailsJust (cx.catalogue.Fails ty d) (encodeLayer cx encode ty d) := by
  cases writable.layer with
  | scalar exact =>
    rw [encodeLayer_exact exact]
    exact scalar_failsJust exact typed
  | float32 =>
    cases typed
    exact Catalogue.not_fails_atom rfl fun _ leaf => by cases leaf
  | borrowedText =>
    cases typed
    exact .here (.borrowedText _)
  | sharedText =>
    cases typed
    exact .here (.sharedText _)
  | tree => exact absurd rfl slot
  | option h =>
    cases typed with
    | absent => exact Catalogue.not_fails_atom rfl fun _ leaf => by cases leaf
    | present typed => exact below.content (.option _ _) h typed (Nat.lt_succ_self _)
  | @pointer p t holds h =>
    cases typed with
    | pointer _ typed =>
      have content := below.content (.pointer p t _) h typed (Nat.lt_succ_self _)
      simpa only [encodeLayer] using content
    | gone => cases holds
  | @list t h =>
    cases typed with
    | @list _ ds items =>
      rcases bytes : (Ty.list t).isBytes with _ | _
      · simp only [encodeLayer, bytes, encodeItems_eq encode (.list t)]
        exact below.members (.list bytes ds) (fun u hu => List.eq_of_mem_replicate hu ▸ h)
          (.replicate items) fun x => Datum.height_lt_seq
      · obtain rfl := Ty.eq_byte_of_isBytes bytes
        exact bytes_failsJust (.list items)
  | @array t n h =>
    cases typed with
    | @array _ ds items =>
      simp only [encodeLayer, encodeItems_eq encode (.array t ds.length)]
      exact below.members (.array t _ ds) (fun u hu => List.eq_of_mem_replicate hu ▸ h)
        (.replicate items) fun x => Datum.height_lt_seq
  | tuple h =>
    cases typed with
    | tuple members =>
      exact below.members (.tuple _ _) h members fun x => Datum.height_lt_product
  | map text h =>
    cases typed with
    | map _ distinct keys values => exact below.map text h (.map _ distinct keys values)
  | newtype body h =>
    obtain ⟨x, rfl, held⟩ := typed.newtype_inv body
    have content := below.peeled (.newtype body x) h held (Nat.lt_succ_self _)
    simpa only [encodeLayer, body, encodeDeclared, Catalogue.peel, Catalogue.inner?_newtype body]
      using content
  | positional body h =>
    obtain ⟨ds, rfl, members⟩ := typed.positional_inv body
    simp only [encodeLayer, body, encodeDeclared]
    exact below.members (.positional body ds) (List.forall_mem_map.mpr h) members
      fun x => Datum.height_lt_product
  | enumeration body unit =>
    obtain ⟨i, v, ds, rfl, hv, -⟩ := typed.variant_inv body
    have bare : v.payload = [] := unit v (List.mem_of_getElem? hv)
    simp only [encodeLayer, body, encodeDeclared, encodeVariant, hv, bare, List.isEmpty_nil,
      if_true]
    exact Catalogue.not_fails_atom rfl fun _ leaf => by cases leaf
  | record body h inline =>
    obtain ⟨ds, rfl, members⟩ := typed.record_inv body
    exact below.record body h inline members

end Layers

/-! ## Whole conversions -/

/-- A datum is written, or fails as a leaf of it that is written does. -/
theorem encode_failsJust {cx : Codec} (initial : cx.registry = .initial) {depth : Nat} {ty : Ty}
    {d : Datum} (writable : cx.Writable ty) (typed : HasType cx.catalogue ty d)
    (deep : d.height ≤ depth) :
    FailsJust (cx.catalogue.Fails ty d) (encode cx depth ty d : Except Error Tree) := by
  induction depth generalizing ty d with
  | zero => exact absurd d.height_pos (Nat.not_lt_of_le deep)
  | succ depth ih =>
    -- What is below this layer is lower than it, and so within the depth that is left.
    have below : cx.FailsBelow (encode cx depth) d.height :=
      ⟨fun h held low => ih h held (by omega), fun h => h.written initial⟩
    by_cases slot : ty = .tree
    · subst slot
      cases typed
      rw [encode_slot (by rw [initial]; rfl)]
      exact Catalogue.not_fails_atom rfl fun _ leaf => by cases leaf
    · rw [encode_unhooked (encoder?_of_initial initial slot)]
      exact below.layer writable typed slot

end Codec

/-- No leaf fails where the integers fit and no text without form is written. -/
theorem Catalogue.not_fails_iff {c : Catalogue} {ty : Ty} {d : Datum} (typed : HasType c ty d) :
    (∀ e, ¬ c.Fails ty d e) ↔
      (∀ k n, c.Visits ty d (.int k) (.int n) → IntTy.int64.contains n = true) ∧
      ∀ t s, c.Writes ty d t (.text s) → t ≠ .borrowedText ∧ t ≠ .opaqueScalar .sharedText := by
  constructor
  · intro none
    refine ⟨fun k n visit => ?_, fun t s writes => ⟨?_, ?_⟩⟩
    · rcases fits : IntTy.int64.contains n with _ | _
      · have some : n ≠ 0 := by rintro rfl; cases fits
        have writes := visit.writes typed some
        have held : HasType c (.int k) (.int n) :=
          Throughout.of_hasType (fun _ _ h => h) typed _ _ visit
        cases held with
        | int hn =>
          obtain ⟨unsigned, above⟩ | rfl := IntTy.unsigned_or_widest hn fits
          · exact absurd ⟨_, _, writes, .overflow unsigned above⟩ (none _)
          · exact absurd ⟨_, _, writes, .tooWide fits⟩ (none _)
      · rfl
    · rintro rfl
      exact none _ ⟨_, _, writes, .borrowedText s⟩
    · rintro rfl
      exact none _ ⟨_, _, writes, .sharedText s⟩
  · rintro ⟨fit, form⟩ e ⟨t, b, writes, leaf⟩
    cases leaf with
    | overflow _ above =>
      have fits := IntTy.contains_iff.mp (fit _ _ writes.visits)
      exact absurd fits.2 (Int.not_le.mpr above)
    | tooWide outside => exact absurd (fit _ _ writes.visits) (ne_true_of_eq_false outside)
    | borrowedText s => exact (form _ s writes).1 rfl
    | sharedText s => exact (form _ s writes).2 rfl

/-- Without hooks, a datum is written just where its integers fit 64 bits with a sign, those in
skipped fields aside, and no text on loan or shared with others is to be written. Else the
error is that of such an integer or text. -/
theorem written_iff_leaves_have_form (cx : Codec) (initial : cx.registry = .initial) (ty : Ty)
    (d : Datum) (writable : cx.Writable ty) (typed : HasType cx.catalogue ty d)
    (deep : d.height ≤ cx.maxDepth) :
    ((∃ x, cx.toTree ty d = (.ok x : Except Error Tree)) ↔
      (∀ k n, cx.catalogue.Visits ty d (.int k) (.int n) → IntTy.int64.contains n = true) ∧
      ∀ t s, cx.catalogue.Writes ty d t (.text s) →
        t ≠ .borrowedText ∧ t ≠ .opaqueScalar .sharedText) ∧
    ∀ e, cx.toTree ty d = (.error e : Except Error Tree) →
      ∃ t b, cx.catalogue.Writes ty d t b ∧ LeafError t b e := by
  have just := Codec.encode_failsJust initial writable typed deep
  exact ⟨just.ok_iff.trans (Catalogue.not_fails_iff typed), fun e failed => just.of_error failed⟩

/-- A chain of meters in one object: a count, a note on loan, and a secret that is skipped. -/
def Catalogue.meters : Catalogue where
  decls :=
    [("meter", { body := .record [
      { key := "count", ty := .int ⟨false, .w64⟩, omitEmpty := true },
      { key := "note", ty := .borrowedText, omitEmpty := true },
      { key := "secret", ty := .opaqueScalar .sharedText, skipped := true },
      { key := "next", ty := .option (.pointer .owned (.named "meter")), inline := true }] })]

/-- A meter that counts too far, behind one that is empty. -/
theorem written_iff_leaves_have_form_meter :
    let cx : Codec := .standard .meters
    let meter (n : Int) (next : Datum) : Datum := .product [.int n, .text "", .text "s", next]
    let d := meter 0 (.present (.wrapped (meter (IntTy.int64.max + 1) .absent)))
    cx.registry = .initial ∧ cx.Writable (.named "meter") ∧
    HasType cx.catalogue (.named "meter") d ∧ d.height ≤ cx.maxDepth ∧
    ((∃ x, cx.toTree (.named "meter") d = (.ok x : Except Error Tree)) ↔
      (∀ k n, cx.catalogue.Visits (.named "meter") d (.int k) (.int n) →
        IntTy.int64.contains n = true) ∧
      ∀ t s, cx.catalogue.Writes (.named "meter") d t (.text s) →
        t ≠ .borrowedText ∧ t ≠ .opaqueScalar .sharedText) ∧
    ∀ e, cx.toTree (.named "meter") d = (.error e : Except Error Tree) →
      ∃ t b, cx.catalogue.Writes (.named "meter") d t b ∧ LeafError t b e := by
  intro cx meter d
  have body : cx.catalogue.body? "meter" = some (.record _) := rfl
  have writable : cx.Writable (.named "meter") := by
    refine ⟨(· ∈ [.named "meter", .int ⟨false, .w64⟩, .borrowedText,
      .option (.pointer .owned (.named "meter")), .pointer .owned (.named "meter")]), by simp, ?_⟩
    simp only [List.forall_mem_cons]
    refine ⟨.record body ?_ ?_, .scalar rfl, .borrowedText, .option ?_, .pointer rfl ?_, nofun⟩
    · simp
    · simp only [List.forall_mem_cons]
      exact ⟨nofun, nofun, nofun, fun _ _ => .option (.pointer _ (.record body)), nofun⟩
    · simp
    · simp
  have typed (n : Int) (next : Datum) (hn : IntTy.contains ⟨false, .w64⟩ n = true)
      (hnext : HasType cx.catalogue (.option (.pointer .owned (.named "meter"))) next) :
      HasType cx.catalogue (.named "meter") (meter n next) :=
    .record body (.cons (.int hn) (.cons (.borrowedText "") (.cons (.opaqueScalar _ "s")
      (.cons hnext .nil))))
  have held : HasType cx.catalogue (.named "meter") d :=
    typed _ _ rfl (.present (.pointer _ (typed _ _ rfl (.absent _))))
  have deep : d.height ≤ cx.maxDepth := by decide
  exact ⟨rfl, writable, held, deep,
    written_iff_leaves_have_form cx rfl (.named "meter") d writable held deep⟩

/-- Text on loan and shared text hold no integer, but are refused, however deep the codec goes. -/
theorem text_without_form_is_refused :
    let c : Catalogue := ⟨[]⟩
    let Refused (ty : Ty) (d : Datum) : Prop :=
      HasType c ty d ∧ (∀ k n, ¬ c.Visits ty d (.int k) (.int n)) ∧ ∀ maxDepth, 1 ≤ maxDepth →
        ∃ e, Codec.toTree ⟨c, .initial, maxDepth⟩ ty d = (.error e : Except Error Tree) ∧
          e.kind = .unsupportedShape
    Refused .borrowedText (.text "a") ∧ Refused (.opaqueScalar .sharedText) (.text "a") := by
  intro c Refused
  have bare (ty : Ty) (k : IntTy) (n : Int) : ¬ c.Visits ty (.text "a") (.int k) (.int n) := by
    intro visit
    cases visit with
    | part first => cases first with
      | content layer => cases layer
      | member layer => cases layer
  refine ⟨⟨.borrowedText "a", bare _, fun maxDepth deep => ?_⟩,
    ⟨.opaqueScalar _ "a", bare _, fun maxDepth deep => ?_⟩⟩
  all_goals
    obtain ⟨depth, rfl⟩ := Nat.exists_eq_add_of_le' deep
    exact ⟨_, rfl, rfl⟩

end TreeCodec
