import TreeCodec.Proofs.OmittedFields

/-!
# Omitted fields behind wrappers

A field that holds a datum in a wrapper is left out just where one that holds the datum by itself
is, as long as the wrapper is none of the pointers: a pointer counts as empty only if it holds an
empty text. Where a datum is in options, or a newtype is around a pointer, what is below all of
them decides for the wrapper, but not for the datum; if that is not empty, nothing is left out
either way.

* `Catalogue.isZero_of_transparent`, `Catalogue.isZero_of_pointer`: what counts as empty in a
  wrapper, by what it holds;
* `Codec.writesNull_wrapped`: a wrapper is written as null just where what it holds is;
* `Codec.WritesAlone`: a field whose key nothing else in its record shows, and
  `Codec.WritesAlone.find?_eq_none_iff` that its key is missing just where it is left out;
* `wrapped_field_is_left_out`: the fields compared;
* `boxed_zero_is_written`: a zero in a pointer is written.
-/

namespace TreeCodec

/-! ## What counts as empty in a wrapper -/

namespace Catalogue

variable {c : Catalogue} {w t : Ty} {d : Datum} {s : String}

theorem peel_of_inner? (inner : c.inner? w = some t) (d : Datum) :
    c.peel w (.wrapped d) = c.peel t d := by
  simp only [peel, inner]

/-- A wrapper other than a pointer counts as empty by what is below all wrappers and options. -/
theorem isZero_of_transparent (inner : c.inner? w = some t) (clear : c.isTransparent w = true)
    (d : Datum) :
    c.isZero w (.wrapped d) = c.isZeroLayer (c.peel t d).1 (c.peel t d).2 := by
  rw [isZero, if_pos clear, peel_of_inner? inner]

theorem pointer_of_inner? (inner : c.inner? w = some t) (solid : c.isTransparent w = false) :
    ∃ p, w = .pointer p t := by
  cases Content.of_inner? inner .absent with
  | pointer p => exact ⟨p, rfl⟩
  | _ => exact absurd (congrArg Option.isSome inner) (ne_true_of_eq_false solid)

/-- A text below all wrappers counts as empty if it is. -/
theorem isZeroLayer_peel_of_text (text : c.text? t d = some s) :
    c.isZeroLayer (c.peel t d).1 (c.peel t d).2 = s.isEmpty := by
  rw [text?] at text
  split at text <;> cases text <;> rename_i peeled <;> rw [peeled] <;> rfl

/-- What holds a text counts as empty if the text is, options aside. -/
theorem isZeroLayer_of_text (text : c.text? t d = some s) (there : ∀ u, t ≠ .option u) :
    c.isZeroLayer t d = s.isEmpty := by
  cases t with
  | option u => exact absurd rfl (there u)
  | tree => cases d <;> cases text
  | _ => simp only [isZeroLayer, text]

/-- A pointer counts as empty just where it holds an empty text. -/
theorem isZero_of_pointer (inner : c.inner? w = some t) (solid : c.isTransparent w = false)
    (d : Datum) : c.isZero w (.wrapped d) = true ↔ c.text? t d = some "" := by
  have text : c.text? w (.wrapped d) = c.text? t d := by rw [text?, peel_of_inner? inner, text?]
  obtain ⟨p, rfl⟩ := pointer_of_inner? inner solid
  rw [← text, isZero, if_neg (by rw [solid]; exact Bool.false_ne_true)]
  refine ⟨text?_of_pointer, fun empty => ?_⟩
  rw [isZeroLayer_of_text empty fun _ => Ty.noConfusion]
  rfl

/-- A datum in no option counts as empty by what is below all its wrappers, if it is in no
pointer or a text. -/
theorem isZero_eq_peel (there : ∀ u, t ≠ .option u)
    (clear : c.isTransparent t = true ∨ c.inner? t = none ∨ c.text? t d ≠ none) :
    c.isZero t d = c.isZeroLayer (c.peel t d).1 (c.peel t d).2 := by
  rcases solid : c.isTransparent t with _ | _
  · rw [isZero, if_neg (by rw [solid]; exact Bool.false_ne_true)]
    obtain clear | bare | text := clear
    · rw [solid] at clear
      cases clear
    · have same : c.peel t d = (t, d) := by
        cases d with
        | wrapped e => simp only [peel, bare]
        | present e => cases t <;> first | exact absurd rfl (there _) | rfl
        | _ => rfl
      rw [same]
    · obtain ⟨s, text⟩ := Option.ne_none_iff_exists'.mp text
      rw [isZeroLayer_of_text text there, isZeroLayer_peel_of_text text]
  · rw [isZero, if_pos solid]

/-- Below all wrappers and options there is nothing more to hold than what a pointer does not own. -/
theorem pointer_of_content_peel {ty u : Ty} {e : Datum}
    (layer : c.Content (c.peel ty d).1 (c.peel ty d).2 u e) :
    ∃ p, c.peel ty d = (.pointer p u, .wrapped e) ∧ c.inner? (.pointer p u) = none := by
  induction ty, d using Catalogue.peel.induct c with
  | case1 ty d t inner ih =>
    simp only [peel, inner] at layer ⊢
    exact ih layer
  | case2 ty d inner =>
    simp only [peel, inner] at layer ⊢
    cases layer with
    | pointer p => exact ⟨p, rfl, inner⟩
    | nonZero => cases inner
    | newtype body => rw [inner?_newtype body] at inner; cases inner
  | case3 d t ih => exact ih layer
  | case4 ty d other =>
    have whole : c.peel ty (.present d) = (ty, .present d) := by
      cases ty <;> first | exact absurd rfl (other _) | rfl
    rw [whole] at layer
    cases layer
    exact absurd rfl (other _)
  | case5 ty d other other' =>
    have whole : c.peel ty d = (ty, d) := by
      cases d <;> first | exact absurd rfl (other _) | exact absurd rfl (other' _) | rfl
    rw [whole] at layer
    cases layer with
    | option => exact absurd rfl (other' _)
    | _ => exact absurd rfl (other _)

/-- What counts as empty below all wrappers and options is empty there. -/
theorem blank_of_isZeroLayer_peel (typed : HasType c t d)
    (zero : c.isZeroLayer (c.peel t d).1 (c.peel t d).2 = true) :
    c.Blank (c.peel t d).1 (c.peel t d).2 := by
  have step {ty u : Ty} {e e' : Datum} (layer : c.Content ty e u e') (typed : HasType c ty e) :
      HasType c u e' := (Part.content layer).hasType typed
  refine blank_of_bare (Content.keep_peel step typed) (fun u e layer => ?_) zero
  obtain ⟨p, whole, bare⟩ := pointer_of_content_peel layer
  rw [whole] at zero
  have text := text?_of_pointer zero
  simp [text?, peel, bare] at text

end Catalogue

/-! ## What is written as null in a wrapper -/

namespace Codec

variable {cx : Codec}

/-- Nothing but null is written of a datum. -/
def WritesNull (cx : Codec) (ty : Ty) (d : Datum) : Prop :=
  ∃ depth, encode cx depth ty d = (.ok .null : Except Error Tree)

/-- What is written at some depth is null if null is written at another one. -/
theorem WritesNull.eq_null {ty : Ty} {d : Datum} (null : cx.WritesNull ty d) {depth : Nat} {x : Tree}
    (written : encode cx depth ty d = (.ok x : Except Error Tree)) : x = .null := by
  obtain ⟨depth', null⟩ := null
  have deeper := encode_mono (Nat.le_max_left depth depth') written
  rw [encode_mono (Nat.le_max_right depth depth') null] at deeper
  cases deeper
  rfl

/-- What is below all wrappers and options is written as null just where the whole is. -/
theorem writesNull_peel (initial : cx.registry = .initial) (ty : Ty) (d : Datum) :
    cx.WritesNull (cx.catalogue.peel ty d).1 (cx.catalogue.peel ty d).2 ↔ cx.WritesNull ty d := by
  constructor
  · rintro ⟨depth, null⟩
    obtain ⟨k, same⟩ := encode_peel (peelsFreely_of_initial initial ty) depth d
    exact ⟨depth + k, same.trans null⟩
  · rintro ⟨depth, null⟩
    obtain ⟨k, same⟩ := encode_peel (peelsFreely_of_initial initial ty) depth d
    exact ⟨depth, same.symm.trans (encode_mono (Nat.le_add_right depth k) null)⟩

/-- A wrapper is written as null just where what it holds is. -/
theorem writesNull_wrapped (initial : cx.registry = .initial) {w t : Ty}
    (inner : cx.catalogue.inner? w = some t) (d : Datum) :
    cx.WritesNull w (.wrapped d) ↔ cx.WritesNull t d := by
  rw [← writesNull_peel initial w, ← writesNull_peel initial t,
    Catalogue.peel_of_inner? inner]

/-! ## A field that is left out -/

/-- A field shows a key: its own, or one of what it inlines. -/
def FieldShows (cx : Codec) (f : Field) (d : Datum) (k : String) : Prop :=
  f.skipped = false ∧ (f.inline = false ∧ k = f.key ∨ f.inline = true ∧ cx.catalogue.Shows k f.ty d)

/-- A record is written as an object, and holds a datum in a field that is left out while it is
empty and whose key no other field shows. -/
inductive WritesAlone (cx : Codec) (f : Field) (d : Datum) (o : Object) : Prop
  | intro {name : String} {fs : List Field} {ds : List Datum} {i : Nat}
    (body : cx.catalogue.body? name = some (.record fs))
    (written : cx.toTree (.named name) (.product ds) = (.ok (.object o) : Except Error Tree))
    (hf : fs[i]? = some f) (hd : ds[i]? = some d) (kept : f.skipped = false)
    (apart : f.inline = false) (leaves : f.omitEmpty = true)
    (alone : ∀ j g e, j ≠ i → fs[j]? = some g → ds[j]? = some e → ¬ cx.FieldShows g e f.key)

section Contributions

variable {f : Field} {d : Datum} {depth : Nat} {own : List (String × Tree)}
  (h : cx.contribution (encode cx depth) f d = .ok own)
include h

/-- A field contributes nothing while it is empty, or written as null. -/
theorem eq_nil_of_contribution (apart : f.inline = false) (leaves : f.omitEmpty = true)
    (out : cx.catalogue.isZero f.ty d = true ∨ cx.WritesNull f.ty d) : own = [] := by
  obtain zero | null := out
  · rw [contribution, leaves, zero, Bool.and_self, Bool.or_true, if_pos rfl] at h
    cases h
    rfl
  · obtain rfl | ⟨-, x, hx, entries⟩ := of_contribution h
    · rfl
    · rw [entriesOf_apart apart, leaves, null.eq_null hx] at entries
      cases entries
      rfl

/-- What a field contributes stands under keys that it shows. -/
theorem fieldShows_of_contribution (initial : cx.registry = .initial) {p : String × Tree}
    (mem : p ∈ own) : cx.FieldShows f d p.1 := by
  obtain rfl | ⟨kept, x, hx, entries⟩ := of_contribution h
  · cases mem
  refine ⟨kept, ?_⟩
  obtain ⟨apart, rfl⟩ | ⟨inline, rfl⟩ := of_entriesOf entries mem
  · exact .inl ⟨apart, rfl⟩
  · exact .inr ⟨inline, keys_of_encode initial hx (List.mem_map.mpr ⟨p, mem, rfl⟩)⟩

end Contributions

/-- The key of a field that is left out while it is empty is missing just where the field counts
as empty or is written as null. -/
theorem WritesAlone.find?_eq_none_iff (initial : cx.registry = .initial) {f : Field} {d : Datum}
    {o : Object} (h : cx.WritesAlone f d o) :
    o.find? f.key = none ↔ cx.catalogue.isZero f.ty d = true ∨ cx.WritesNull f.ty d := by
  obtain @⟨name, fs, ds, i, body, written, hf, hd, kept, apart, leaves, alone⟩ := h
  constructor
  · intro missing
    obtain ⟨-, out⟩ := leavesOut_of_missing initial body written hf hd kept apart missing
    exact out.imp_right fun null => ⟨cx.maxDepth, null⟩
  · intro out
    change encode cx cx.maxDepth _ _ = _ at written
    rcases limit : cx.maxDepth with _ | depth <;> rw [limit] at written
    · cases written
    rw [encode_unhooked (encoder?_of_initial initial (by simp))] at written
    obtain ⟨es, hes, object⟩ := of_encode_record body written
    cases object
    rcases found : Object.find? (Object.ofList es) f.key with _ | u
    · rfl
    -- No field contributes the entry: not this one, which is left out, and none besides it.
    obtain ⟨j, g, e, own, hg, he, contributed, mem⟩ :=
      contribution_of_mem hes (Object.mem_of_mem_ofList (Object.mem_of_find? found))
    by_cases same : j = i
    · subst same
      cases hf.symm.trans hg
      cases hd.symm.trans he
      rw [eq_nil_of_contribution contributed apart leaves out] at mem
      cases mem
    · exact absurd (fieldShows_of_contribution contributed initial mem) (alone j g e same hg he)

/-- The only field of a record shows its key alone. -/
theorem WritesAlone.only (name : String) {f : Field} {d : Datum} {o : Object}
    (body : cx.catalogue.body? name = some (.record [f])) (kept : f.skipped = false)
    (apart : f.inline = false) (leaves : f.omitEmpty = true)
    (written : cx.toTree (.named name) (.product [d]) = (.ok (.object o) : Except Error Tree)) :
    cx.WritesAlone f d o := by
  refine .intro (i := 0) body written rfl rfl kept apart leaves fun j g e other hg => ?_
  obtain ⟨k, rfl⟩ := Nat.exists_eq_succ_of_ne_zero other
  cases hg

end Codec

/-! ## Fields compared -/

/-- A field that holds a datum in a wrapper, beside one that holds it by itself.

If the wrapper is no pointer and the datum in no option, and in no pointer either or else a text,
then the one is left out just where the other one is. If the wrapper is a pointer, it is left out
just where the other one is and the datum is an empty text or is written as null, unless the
datum is an empty text in an option. And both are kept or both left out, whatever the wrapper and
the type, if the datum is not empty below all wrappers and options, or is written as null. -/
theorem wrapped_field_is_left_out (cx : Codec) (initial : cx.registry = .initial) {f g : Field}
    (inner : cx.catalogue.inner? f.ty = some g.ty) {x : Datum} (typed : HasType cx.catalogue g.ty x)
    {o o' : Object} (outer : cx.WritesAlone f (.wrapped x) o) (plain : cx.WritesAlone g x o') :
    (cx.catalogue.isTransparent f.ty = true → (∀ u, g.ty ≠ .option u) →
      (cx.catalogue.isTransparent g.ty = true ∨ cx.catalogue.inner? g.ty = none ∨
        cx.catalogue.text? g.ty x ≠ none) →
      (o.find? f.key = none ↔ o'.find? g.key = none)) ∧
    (cx.catalogue.isTransparent f.ty = false →
      ((∀ u, g.ty ≠ .option u) ∨ cx.catalogue.text? g.ty x ≠ some "") →
      (o.find? f.key = none ↔ o'.find? g.key = none ∧
        (cx.catalogue.text? g.ty x = some "" ∨ cx.WritesNull g.ty x))) ∧
    ((cx.catalogue.Blank (cx.catalogue.peel g.ty x).1 (cx.catalogue.peel g.ty x).2 →
        cx.WritesNull g.ty x) →
      (o.find? f.key = none ↔ o'.find? g.key = none)) := by
  rw [outer.find?_eq_none_iff initial, plain.find?_eq_none_iff initial,
    Codec.writesNull_wrapped initial inner]
  refine ⟨fun clear there held => ?_, fun solid there => ?_, fun full => ?_⟩
  · rw [Catalogue.isZero_of_transparent inner clear, Catalogue.isZero_eq_peel there held]
  · rw [Catalogue.isZero_of_pointer inner solid]
    refine ⟨fun out => ⟨out.imp_left fun empty => ?_, out⟩, And.right⟩
    have some : cx.catalogue.text? g.ty x ≠ none := by simp [empty]
    have there := there.resolve_right fun full => full empty
    rw [Catalogue.isZero_eq_peel there (.inr (.inr some)), Catalogue.isZeroLayer_peel_of_text empty]
    rfl
  · have blank (zero : cx.catalogue.isZeroLayer (cx.catalogue.peel g.ty x).1
        (cx.catalogue.peel g.ty x).2 = true) : cx.WritesNull g.ty x :=
      full (Catalogue.blank_of_isZeroLayer_peel typed zero)
    constructor
    · rintro (zero | null)
      · have below := Catalogue.isZeroLayer_peel zero
        rw [Catalogue.peel_of_inner? inner] at below
        exact .inr (blank below)
      · exact .inr null
    · rintro (zero | null)
      · exact .inr (blank (Catalogue.isZeroLayer_peel zero))
      · exact .inr null

/-- A number that is left out while it is zero. -/
def Field.count (ty : Ty) : Field where
  key := "n"
  ty := ty
  omitEmpty := true

/-- Numbers by themselves, in a newtype and in a pointer. -/
def Catalogue.counts : Catalogue where
  decls :=
    [("count", { body := .newtype (.int .int64) }),
      ("plain", { body := .record [.count (.int .int64)] }),
      ("named", { body := .record [.count (.named "count")] }),
      ("boxed", { body := .record [.count (.pointer .owned (.int .int64))] })]

/-- A zero in a newtype is left out, as it is by itself, and one in a pointer is not. -/
theorem wrapped_field_is_left_out_count :
    let cx : Codec := ⟨.counts, .initial, 3⟩
    let f := Field.count (.named "count")
    let b := Field.count (.pointer .owned (.int .int64))
    let g := Field.count (.int .int64)
    cx.catalogue.inner? f.ty = some g.ty ∧ cx.catalogue.inner? b.ty = some g.ty ∧
    HasType cx.catalogue g.ty (.int 0) ∧ cx.WritesAlone f (.wrapped (.int 0)) [] ∧
    cx.WritesAlone b (.wrapped (.int 0)) [("n", .int 0)] ∧ cx.WritesAlone g (.int 0) [] ∧
    (Object.find? [] f.key = none ↔ Object.find? [] g.key = none) ∧
    (Object.find? [("n", .int 0)] b.key = none ↔ Object.find? [] g.key = none ∧
      (cx.catalogue.text? g.ty (.int 0) = some "" ∨ cx.WritesNull g.ty (.int 0))) := by
  intro cx f b g
  have typed : HasType cx.catalogue g.ty (.int 0) := .int rfl
  have named : cx.WritesAlone f (.wrapped (.int 0)) [] := .only "named" rfl rfl rfl rfl rfl
  have boxed : cx.WritesAlone b (.wrapped (.int 0)) [("n", .int 0)] :=
    .only "boxed" rfl rfl rfl rfl rfl
  have plain : cx.WritesAlone g (.int 0) [] := .only "plain" rfl rfl rfl rfl rfl
  exact ⟨rfl, rfl, typed, named, boxed, plain,
    (wrapped_field_is_left_out cx rfl rfl typed named plain).1 rfl nofun (.inr (.inl rfl)),
    (wrapped_field_is_left_out cx rfl rfl typed boxed plain).2.1 rfl (.inl nofun)⟩

/-- A zero in a pointer is written, though it is left out by itself, however deep the codec
goes. -/
theorem boxed_zero_is_written :
    let b := Field.count (.pointer .owned (.int .int64))
    let g := Field.count (.int .int64)
    Catalogue.counts.inner? b.ty = some g.ty ∧ HasType .counts g.ty (.int 0) ∧
    ∀ maxDepth, 3 ≤ maxDepth →
      let cx : Codec := ⟨.counts, .initial, maxDepth⟩
      ∃ o o', cx.WritesAlone b (.wrapped (.int 0)) o ∧ cx.WritesAlone g (.int 0) o' ∧
        o.find? b.key = some (.int 0) ∧ o'.find? g.key = none := by
  intro b g
  refine ⟨rfl, .int rfl, fun maxDepth deep => ?_⟩
  obtain ⟨k, rfl⟩ := Nat.exists_eq_add_of_le' deep
  exact ⟨[("n", .int 0)], [], .only "boxed" rfl rfl rfl rfl rfl, .only "plain" rfl rfl rfl rfl rfl,
    rfl, rfl⟩

end TreeCodec
