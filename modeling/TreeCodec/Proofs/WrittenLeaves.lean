import TreeCodec.Proofs.OmittedWrappers

/-!
# Leaves that are written

Some leaves of a datum have no form in a tree: integers that do not fit 64 bits with a sign, and
text on loan or shared with others. A leaf that is written is not below a field that is skipped,
nor below one that is left out while it is empty.

* `LeafError`: the leaves without form, each with its error;
* `Catalogue.Writes`: the written parts of a datum, however far down;
* `Catalogue.Fails`: the errors of the written leaves of a datum, layer by layer;
* `Catalogue.Visits.writes`: integers other than zero are written, as what is left out holds none.
-/

namespace TreeCodec

/-- The leaves without form in a tree, and how writing them fails. -/
inductive LeafError : Ty → Datum → Error → Prop
  | overflow {k : IntTy} {n : Int} (unsigned : k.signed = false) (above : IntTy.int64.max < n) :
    LeafError (.int k) (.int n) (.overflow n.toNat)
  | tooWide {n : Int} (outside : IntTy.int64.contains n = false) :
    LeafError (.int .int128) (.int n) (.misfit (.tooWide n))
  | borrowedText (s : String) : LeafError .borrowedText (.text s) (.noForm (.type .borrowedText))
  | sharedText (s : String) : LeafError (.opaqueScalar .sharedText) (.text s)
    (.noForm (.scalar (.opaqueScalar .sharedText)))

namespace Catalogue

variable {c : Catalogue} {ty t u : Ty} {d x b : Datum} {e : Error}

/-! ## Written parts -/

/-- What is one layer down in a datum and is written, with its type. -/
inductive WrittenPart (c : Catalogue) : Ty → Datum → Ty → Datum → Prop
  | content {ty t : Ty} {d x : Datum} (h : c.Content ty d t x) : WrittenPart c ty d t x
  | member {ty t : Ty} {d x : Datum} {ts : List Ty} {ds : List Datum} {i : Nat}
    (h : c.Members ty d ts ds) (ht : ts[i]? = some t) (hx : ds[i]? = some x) :
    WrittenPart c ty d t x
  | value {a : Arrangement} {key t : Ty} {k x : Datum} {es : List (Datum × Datum)}
    (mem : (k, x) ∈ es) : WrittenPart c (.map a key t) (.map es) t x
  | field {name : String} {fs : List Field} {f : Field} {ds : List Datum} {x : Datum} {i : Nat}
    (body : c.body? name = some (.record fs)) (hf : fs[i]? = some f) (hx : ds[i]? = some x)
    (kept : f.skipped = false) (there : (f.omitEmpty && c.isZero f.ty x) = false) :
    WrittenPart c (.named name) (.product ds) f.ty x

theorem WrittenPart.part (h : c.WrittenPart ty d t x) : c.Part ty d t x := by
  cases h with
  | content layer => exact .content layer
  | member layer ht hx => exact .member layer ht hx
  | value mem => exact .value mem
  | field body hf hx kept => exact .field body hf kept hx

/-- What is some layers down in a datum and is written, with its type. -/
inductive Writes (c : Catalogue) : Ty → Datum → Ty → Datum → Prop
  | here (ty : Ty) (d : Datum) : Writes c ty d ty d
  | part {ty t u : Ty} {d x b : Datum} (h : c.WrittenPart ty d t x) (rest : Writes c t x u b) :
    Writes c ty d u b

theorem Writes.visits (h : c.Writes ty d u b) : c.Visits ty d u b := by
  induction h with
  | here ty d => exact .here ty d
  | part first _ ih => exact .part first.part ih

/-! ## Errors of leaves -/

/-- The errors of the leaves that are written. -/
def Fails (c : Catalogue) (ty : Ty) (d : Datum) (e : Error) : Prop :=
  ∃ u b, c.Writes ty d u b ∧ LeafError u b e

theorem Fails.here (h : LeafError ty d e) : c.Fails ty d e := ⟨ty, d, .here ty d, h⟩

theorem Fails.part (h : c.WrittenPart ty d t x) : c.Fails t x e → c.Fails ty d e :=
  fun ⟨u, b, rest, leaf⟩ => ⟨u, b, .part h rest, leaf⟩

/-- A datum fails as a leaf, or as one of its parts does. -/
theorem Fails.cases (h : c.Fails ty d e) :
    LeafError ty d e ∨ ∃ t x, c.WrittenPart ty d t x ∧ c.Fails t x e := by
  obtain ⟨u, b, writes, leaf⟩ := h
  cases writes with
  | here => exact .inl leaf
  | part first rest => exact .inr ⟨_, _, first, u, b, rest, leaf⟩

theorem fails_atom (atom : d.isAtom = true) : c.Fails ty d e ↔ LeafError ty d e := by
  refine ⟨fun h => h.cases.resolve_right ?_, .here⟩
  rintro ⟨t, x, part, -⟩
  cases part with
  | content layer => cases layer <;> cases atom
  | member layer => cases layer <;> cases atom
  | value => cases atom
  | field => cases atom

theorem not_fails_atom (atom : d.isAtom = true) (leaf : ∀ e, ¬ LeafError ty d e) (e : Error) :
    ¬ c.Fails ty d e := fun h => leaf e ((fails_atom atom).mp h)

/-- What holds something has no other part. -/
theorem Part.eq_of_content (layer : c.Content ty d t x) (part : c.Part ty d u b) :
    u = t ∧ b = x := by
  cases part with
  | content layer' =>
    cases layer with
    | newtype body =>
      cases layer' with
      | newtype body' => cases body.symm.trans body'; exact ⟨rfl, rfl⟩
    | _ => cases layer'; exact ⟨rfl, rfl⟩
  | member layer' => cases layer <;> cases layer'
  | value => cases layer
  | field => cases layer

theorem fails_content (layer : c.Content ty d t x) : c.Fails ty d e ↔ c.Fails t x e := by
  refine ⟨fun h => ?_, .part (.content layer)⟩
  obtain leaf | ⟨u, b, part, below⟩ := h.cases
  · cases layer <;> cases leaf
  · obtain ⟨rfl, rfl⟩ := part.part.eq_of_content layer
    exact below

theorem fails_members {ts : List Ty} {ds : List Datum} (layer : c.Members ty d ts ds) :
    c.Fails ty d e ↔ ∃ (i : Nat) (t : Ty) (x : Datum),
      ts[i]? = some t ∧ ds[i]? = some x ∧ c.Fails t x e := by
  refine ⟨fun h => ?_, fun ⟨i, t, x, ht, hx, below⟩ => .part (.member layer ht hx) below⟩
  obtain leaf | ⟨u, b, part, below⟩ := h.cases
  · cases layer <;> cases leaf
  · cases part with
    | content layer' => cases layer <;> cases layer'
    | member layer' ht hx =>
      cases layer with
      | positional body =>
        cases layer' with
        | positional body' => cases body.symm.trans body'; exact ⟨_, _, _, ht, hx, below⟩
      | _ => cases layer'; exact ⟨_, _, _, ht, hx, below⟩
    | value => cases layer
    | field body => cases layer with | positional body' => cases body.symm.trans body'

theorem fails_map {a : Arrangement} {key : Ty} {es : List (Datum × Datum)} :
    c.Fails (.map a key t) (.map es) e ↔ ∃ k x, (k, x) ∈ es ∧ c.Fails t x e := by
  refine ⟨fun h => ?_, fun ⟨k, x, mem, below⟩ => .part (.value mem) below⟩
  obtain leaf | ⟨u, b, part, below⟩ := h.cases
  · cases leaf
  · cases part with
    | content layer => cases layer
    | member layer => cases layer
    | value mem => exact ⟨_, _, mem, below⟩

theorem fails_record {name : String} {fs : List Field} {ds : List Datum}
    (body : c.body? name = some (.record fs)) :
    c.Fails (.named name) (.product ds) e ↔ ∃ (i : Nat) (f : Field) (x : Datum),
      fs[i]? = some f ∧ ds[i]? = some x ∧ f.skipped = false ∧
      (f.omitEmpty && c.isZero f.ty x) = false ∧ c.Fails f.ty x e := by
  refine ⟨fun h => ?_, fun ⟨i, f, x, hf, hx, kept, there, below⟩ =>
    .part (.field body hf hx kept there) below⟩
  obtain leaf | ⟨u, b, part, below⟩ := h.cases
  · cases leaf
  · cases part with
    | content layer => cases layer
    | member layer => cases layer with | positional body' => cases body.symm.trans body'
    | field body' hf hx kept there =>
      cases body.symm.trans body'
      exact ⟨_, _, _, hf, hx, kept, there, below⟩

/-- What is below all wrappers fails as the whole does. -/
theorem fails_peel (ty : Ty) (d : Datum) :
    c.Fails (c.peel ty d).1 (c.peel ty d).2 e ↔ c.Fails ty d e := by
  have step {t u : Ty} {x y : Datum} (layer : c.Content t x u y)
      (same : c.Fails t x e ↔ c.Fails ty d e) : c.Fails u y e ↔ c.Fails ty d e :=
    (fails_content layer).symm.trans same
  exact Content.keep_peel step Iff.rfl

/-! ## Integers in what is left out -/

variable {k : IntTy} {n : Int}

/-- What is empty has no part but what it holds, which is empty. -/
theorem Blank.of_part (blank : c.Blank ty d) (part : c.Part ty d t x) : c.Blank t x := by
  cases part with
  | content layer =>
    cases layer with
    | option => cases blank
    | pointer => cases blank with | pointer _ h => exact h
    | nonZero => cases blank
    | newtype body =>
      cases blank with
      | newtype body' h => cases body.symm.trans body'; exact h
  | member layer ht hx => cases blank <;> cases layer <;> cases hx
  | value mem => cases blank; cases mem
  | field => cases blank

/-- The integers of what is empty are zero. -/
theorem Blank.int_eq_zero (blank : c.Blank ty d) (visit : c.Visits ty d (.int k) (.int n)) :
    n = 0 := by
  generalize hu : Ty.int k = u at visit
  generalize hb : Datum.int n = b at visit
  induction visit with
  | here =>
    cases hu
    cases hb
    cases blank
    rfl
  | part first _ ih => exact ih (blank.of_part first) hu hb

/-- Below what holds it, an integer is where it was. -/
theorem Visits.of_content (layer : c.Content ty d t x) (visit : c.Visits ty d (.int k) (.int n)) :
    c.Visits t x (.int k) (.int n) := by
  cases visit with
  | here => cases layer
  | part first rest =>
    obtain ⟨rfl, rfl⟩ := first.eq_of_content layer
    exact rest

/-- The integers of what counts as empty are zero. -/
theorem int_eq_zero_of_isZero (typed : HasType c ty d) (zero : c.isZero ty d = true)
    (visit : c.Visits ty d (.int k) (.int n)) : n = 0 :=
  (blank_of_isZeroLayer_peel typed (isZeroLayer_peel zero)).int_eq_zero
    (Content.keep_peel Visits.of_content visit)

/-- Integers other than zero are written unless they are in a field that is skipped. -/
theorem Visits.writes (visit : c.Visits ty d (.int k) (.int n)) (typed : HasType c ty d)
    (some : n ≠ 0) : c.Writes ty d (.int k) (.int n) := by
  generalize hu : Ty.int k = u at visit ⊢
  generalize hb : Datum.int n = b at visit ⊢
  induction visit with
  | here => exact .here ..
  | part first rest ih =>
    refine .part ?_ (ih (first.hasType typed) hu hb)
    cases first with
    | content layer => exact .content layer
    | member layer ht hx => exact .member layer ht hx
    | value mem => exact .value mem
    | @field name fs f ds x i body hf kept hx =>
      -- The field is not left out: below it there is an integer other than zero.
      refine .field body hf hx kept (Bool.eq_false_iff.mpr fun out => some ?_)
      subst hu hb
      have typed := (Part.field body hf kept hx).hasType typed
      exact int_eq_zero_of_isZero typed (Bool.and_eq_true_iff.mp out).2 rest

end Catalogue

end TreeCodec
