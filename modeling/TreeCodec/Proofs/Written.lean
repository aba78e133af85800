import TreeCodec.Proofs.Positions
import TreeCodec.Proofs.Typing
import TreeCodec.Proofs.Writing

/-!
# The parts of a datum and of its tree

What is one layer down in a datum, and how the tree of a layer is made of the trees of its
parts:

* `Catalogue.Part`: a part of a datum with the type that writes it; skipped fields are none;
* `Catalogue.Throughout`: what holds of a datum and of all its parts, however far down;
* `Codec.WritesLayer`: the ways in which a layer without hook is written, and
  `Codec.writesLayer_of_ok` that there are no others;
* `Codec.of_encodeMembers`, `Codec.of_mapEntries`, `Codec.of_contributions`: where the items
  and entries of a written tree come from.
-/

namespace TreeCodec

/-! ## Data -/

namespace Catalogue

/-- What is held by an optional datum, a pointer, a non-zero integer or a newtype. -/
inductive Content (c : Catalogue) : Ty → Datum → Ty → Datum → Prop
  | option (t : Ty) (d : Datum) : Content c (.option t) (.present d) t d
  | pointer (p : Pointer) (t : Ty) (d : Datum) : Content c (.pointer p t) (.wrapped d) t d
  | nonZero (k : IntTy) (d : Datum) : Content c (.nonZero k) (.wrapped d) (.int k) d
  | newtype {name : String} {t : Ty} (body : c.body? name = some (.newtype t)) (d : Datum) :
    Content c (.named name) (.wrapped d) t d

/-- What holds something is read as what it holds, or not at all. -/
theorem Content.below_or {c : Catalogue} {ty t : Ty} {d e : Datum} (h : c.Content ty d t e) :
    c.below ty = .content t ∨ c.below ty = .nothing := by
  cases h with
  | pointer p => cases p <;> first | exact .inl rfl | exact .inr rfl
  | newtype body => exact .inl (below_newtype body)
  | _ => exact .inl rfl

/-- Only a weak pointer is not read from the tree of what it holds. -/
theorem Content.wraps_or {c : Catalogue} {ty t : Ty} {d e : Datum} (h : c.Content ty d t e) :
    c.Wraps ty t ∨ ty = .pointer .weak t := by
  cases h with
  | pointer p =>
    cases p with
    | weak => exact .inr rfl
    | borrowed => exact .inl (.loan t)
    | _ => exact .inl (.content rfl)
  | newtype body => exact .inl (.content (below_newtype body))
  | _ => exact .inl (.content rfl)

/-- Peeling goes on with what is held, or stops. -/
theorem Content.peel_or {c : Catalogue} {ty t : Ty} {d e : Datum} (h : c.Content ty d t e) :
    c.peel ty d = c.peel t e ∨ c.peel ty d = (ty, .wrapped e) := by
  cases h with
  | option => exact .inl rfl
  | pointer p => cases p <;> first | exact .inl rfl | exact .inr rfl
  | nonZero => exact .inl rfl
  | newtype body => exact .inl (by simp only [peel, inner?_newtype body])

/-- What a wrapper holds. -/
theorem Content.of_inner? {c : Catalogue} {ty t : Ty} (inner : c.inner? ty = some t) (d : Datum) :
    c.Content ty (.wrapped d) t d := by
  cases ty with
  | nonZero k => cases inner; exact .nonZero k d
  | pointer p u => cases p <;> cases inner <;> exact .pointer _ _ d
  | named name =>
    rcases body : c.body? name with _ | b
    · simp [inner?, body] at inner
    · cases b with
      | newtype u =>
        rw [inner?_newtype body] at inner
        cases inner
        exact .newtype body d
      | _ => simp [inner?, body] at inner
  | _ => cases inner

/-- Peeling keeps what a layer hands down to its content. -/
theorem Content.keep_peel {c : Catalogue} {Q : Ty → Datum → Prop}
    (step : ∀ {ty t d e}, c.Content ty d t e → Q ty d → Q t e) {ty : Ty} {d : Datum} (h : Q ty d) :
    Q (c.peel ty d).1 (c.peel ty d).2 := by
  induction ty, d using Catalogue.peel.induct c with
  | case1 ty d t inner ih =>
    simp only [Catalogue.peel, inner]
    exact ih (step (.of_inner? inner d) h)
  | case2 ty d inner => simpa only [Catalogue.peel, inner] using h
  | case3 d t ih => exact ih (step (.option t d) h)
  | case4 ty d other =>
    cases ty <;> first | exact absurd rfl (other _) | exact h
  | case5 ty d other other' =>
    cases d <;> first | exact absurd rfl (other _) | exact absurd rfl (other' _) | exact h

/-- The members of a datum that is written as an array, with their types. -/
inductive Members (c : Catalogue) : Ty → Datum → List Ty → List Datum → Prop
  | list {t : Ty} (items : (Ty.list t).isBytes = false) (ds : List Datum) :
    Members c (.list t) (.seq ds) (.replicate ds.length t) ds
  | array (t : Ty) (n : Nat) (ds : List Datum) :
    Members c (.array t n) (.seq ds) (.replicate ds.length t) ds
  | tuple (ts : List Ty) (ds : List Datum) : Members c (.tuple ts) (.product ds) ts ds
  | positional {name : String} {fs : List Field} (body : c.body? name = some (.tuple fs))
    (ds : List Datum) : Members c (.named name) (.product ds) (fs.map Field.ty) ds

/-- The members' types are the types of the items. -/
theorem Members.below {c : Catalogue} {ty : Ty} {d : Datum} {ts : List Ty} {ds : List Datum}
    (h : c.Members ty d ts ds) : ∃ item?, c.below ty = .items item? ∧
      ∀ (i : Nat) t, ts[i]? = some t → item? i = some t := by
  have all {t u : Ty} {i n : Nat} (hu : (List.replicate n t)[i]? = some u) : some t = some u :=
    congrArg some (List.eq_of_mem_replicate (List.mem_of_getElem? hu)).symm
  cases h with
  | list => exact ⟨_, rfl, fun _ _ => all⟩
  | array => exact ⟨_, rfl, fun _ _ => all⟩
  | tuple => exact ⟨_, rfl, fun _ _ ht => ht⟩
  | positional body => exact ⟨_, below_positional body, fun _ _ ht => ht⟩

/-- What is one layer down in a datum, with its type. Skipped fields are not. -/
inductive Part (c : Catalogue) : Ty → Datum → Ty → Datum → Prop
  | content {ty t : Ty} {d e : Datum} (h : c.Content ty d t e) : Part c ty d t e
  | member {ty t : Ty} {d e : Datum} {ts : List Ty} {ds : List Datum} {i : Nat}
    (h : c.Members ty d ts ds) (ht : ts[i]? = some t) (he : ds[i]? = some e) : Part c ty d t e
  | value {a : Arrangement} {key t : Ty} {k e : Datum} {es : List (Datum × Datum)}
    (mem : (k, e) ∈ es) : Part c (.map a key t) (.map es) t e
  | field {name : String} {fs : List Field} {f : Field} {ds : List Datum} {e : Datum} {i : Nat}
    (body : c.body? name = some (.record fs)) (hf : fs[i]? = some f) (kept : f.skipped = false)
    (he : ds[i]? = some e) : Part c (.named name) (.product ds) f.ty e

/-- The parts of a datum have the types that write them. -/
theorem Part.hasType {c : Catalogue} {ty t : Ty} {d e : Datum} (h : c.Part ty d t e)
    (typed : HasType c ty d) : HasType c t e := by
  have all {t u : Ty} {ds : List Datum} {e : Datum} {i n : Nat} (h : ∀ d ∈ ds, HasType c t d)
      (hu : (List.replicate n t)[i]? = some u) (he : ds[i]? = some e) : HasType c u e :=
    List.eq_of_mem_replicate (List.mem_of_getElem? hu) ▸ h e (List.mem_of_getElem? he)
  cases h with
  | content layer =>
    cases layer with
    | option => cases typed with | present h => exact h
    | pointer => cases typed with | pointer _ h => exact h
    | nonZero => cases typed with | nonZero hn _ => exact .int hn
    | newtype body =>
      obtain ⟨_, same, h⟩ := typed.newtype_inv body
      cases same
      exact h
  | member layer ht he =>
    cases layer with
    | list => cases typed with | list h => exact all h ht he
    | array => cases typed with | array h => exact all h ht he
    | tuple => cases typed with | tuple h => exact h.get ht he
    | positional body =>
      obtain ⟨_, same, h⟩ := typed.positional_inv body
      cases same
      exact h.get ht he
  | value mem => cases typed with | map _ _ _ hv => exact hv _ mem
  | field body hf _ he =>
    obtain ⟨_, same, h⟩ := typed.record_inv body
    cases same
    exact h.get (by rw [List.getElem?_map, hf]; rfl) he

/-- What is some layers down in a datum, with its type. -/
inductive Visits (c : Catalogue) : Ty → Datum → Ty → Datum → Prop
  | here (ty : Ty) (d : Datum) : Visits c ty d ty d
  | part {ty t u : Ty} {d e b : Datum} (h : c.Part ty d t e) (rest : Visits c t e u b) :
    Visits c ty d u b

/-- What holds of a datum and of all its parts. -/
def Throughout (c : Catalogue) (Q : Ty → Datum → Prop) (ty : Ty) (d : Datum) : Prop :=
  ∀ t e, c.Visits ty d t e → Q t e

namespace Throughout

variable {c : Catalogue} {Q : Ty → Datum → Prop} {ty t : Ty} {d e : Datum}

theorem here (h : c.Throughout Q ty d) : Q ty d := h ty d (.here ty d)

theorem part (h : c.Throughout Q ty d) (below : c.Part ty d t e) : c.Throughout Q t e :=
  fun u b visit => h u b (.part below visit)

/-- What holds of all data of their types holds throughout them. -/
theorem of_hasType (h : ∀ t e, HasType c t e → Q t e) (typed : HasType c ty d) :
    c.Throughout Q ty d := by
  intro t e visit
  induction visit with
  | here ty d => exact h ty d typed
  | part below _ ih => exact ih (below.hasType typed)

theorem list {ds : List Datum} (here : Q (.list t) (.seq ds)) (h : ∀ d ∈ ds, c.Throughout Q t d) :
    c.Throughout Q (.list t) (.seq ds) := by
  intro u b visit
  cases visit with
  | here => exact here
  | part first rest =>
    cases first with
    | content layer => cases layer
    | member layer ht he =>
      cases layer
      rw [List.eq_of_mem_replicate (List.mem_of_getElem? ht)] at rest
      exact h _ (List.mem_of_getElem? he) u b rest

/-- Peeling leads to a part. -/
theorem peel (h : c.Throughout Q ty d) : c.Throughout Q (c.peel ty d).1 (c.peel ty d).2 :=
  Content.keep_peel (fun layer h => h.part (.content layer)) h

end Throughout

end Catalogue

/-! ## Trees -/

/-- Scalars are written as scalars. -/
theorem Scalar.family?_of_encode {ty : Ty} {d : Datum} {x : Tree} (h : encode ty d = .ok x) :
    ty.family?.isSome ∧ x.family?.isSome := by
  rw [encode.eq_def] at h
  split at h
  case h_3 =>
    rw [encodeInt] at h
    split at h
    · cases h
      exact ⟨rfl, rfl⟩
    · split at h <;> cases h
  all_goals cases h <;> exact ⟨rfl, rfl⟩

namespace Codec

section Members

variable {cx : Codec} {encode : Ty → Datum → Except Error Tree}

/-- An item of an array is the tree of the member at its position. -/
theorem of_encodeMembers {ty : Ty} {ts : List Ty} {ds : List Datum} {xs : List Tree}
    (h : encodeMembers encode ty ts ds = .ok xs) {i : Nat} {x : Tree} (hx : xs[i]? = some x) :
    ∃ t d, ts[i]? = some t ∧ ds[i]? = some d ∧ encode t d = .ok x := by
  induction ts generalizing ds xs i with
  | nil =>
    cases ds <;> cases h
    cases hx
  | cons t ts ih =>
    cases ds with
    | nil => cases h
    | cons d ds =>
      obtain ⟨y, hy, h⟩ := of_bind_ok h
      obtain ⟨ys, hys, h⟩ := of_bind_ok h
      cases h
      cases i with
      | zero =>
        cases hx
        exact ⟨t, d, rfl, rfl, hy⟩
      | succ i => exact ih hys hx

/-- An entry of the object of a map is the tree of one of the map's values, under the text of
its key. -/
theorem of_mapEntries {t key : Ty} {es : List (Datum × Datum)} {ps : List (String × Tree)}
    (h : cx.mapEntries (encode t) key es = .ok ps) {p : String × Tree} (mem : p ∈ ps) :
    ∃ k d, (k, d) ∈ es ∧ encode t d = .ok p.2 ∧ cx.catalogue.text? key k = some p.1 := by
  induction es generalizing ps with
  | nil =>
    cases h
    cases mem
  | cons e es ih =>
    rw [mapEntries] at h
    split at h
    · cases h
    · rename_i s text
      obtain ⟨x, hx, h⟩ := of_bind_ok h
      obtain ⟨rest, hrest, h⟩ := of_bind_ok h
      cases h
      rcases List.mem_cons.mp mem with rfl | mem
      · exact ⟨e.1, e.2, List.mem_cons_self, hx, text⟩
      · obtain ⟨k, d, mem, hd⟩ := ih hrest mem
        exact ⟨k, d, List.mem_cons_of_mem _ mem, hd⟩

/-- A field that contributes something is written. -/
theorem of_contribution {f : Field} {d : Datum} {es : List (String × Tree)}
    (h : cx.contribution encode f d = .ok es) :
    es = [] ∨ f.skipped = false ∧ ∃ x, encode f.ty d = .ok x ∧ entriesOf f x = .ok es := by
  rw [contribution] at h
  split at h
  · cases h
    exact .inl rfl
  · rename_i out
    have kept : f.skipped = false := by
      rw [Bool.or_eq_true, not_or, Bool.not_eq_true] at out
      exact out.1
    exact .inr ⟨kept, of_bind_ok h⟩

/-- An entry of a record's object is one of those that some field contributes. -/
theorem contribution_of_mem {ty : Ty} {fs : List Field} {ds : List Datum} {es : List (String × Tree)}
    (h : cx.contributions encode ty fs ds = .ok es) {p : String × Tree} (mem : p ∈ es) :
    ∃ (i : Nat) (f : Field) (d : Datum) (own : List (String × Tree)),
      fs[i]? = some f ∧ ds[i]? = some d ∧ cx.contribution encode f d = .ok own ∧ p ∈ own := by
  induction fs generalizing ds es with
  | nil =>
    cases ds <;> cases h
    cases mem
  | cons f fs ih =>
    cases ds with
    | nil => cases h
    | cons d ds =>
      obtain ⟨first, hfirst, h⟩ := of_bind_ok h
      obtain ⟨rest, hrest, h⟩ := of_bind_ok h
      cases h
      rcases List.mem_append.mp mem with mem | mem
      · exact ⟨0, f, d, first, rfl, rfl, hfirst, mem⟩
      · obtain ⟨i, g, e, own, hg, he, written, mem⟩ := ih hrest mem
        exact ⟨i + 1, g, e, own, hg, he, written, mem⟩

/-- An entry of a record's object is contributed by a field that is written. -/
theorem of_contributions {ty : Ty} {fs : List Field} {ds : List Datum} {es : List (String × Tree)}
    (h : cx.contributions encode ty fs ds = .ok es) {p : String × Tree} (mem : p ∈ es) :
    ∃ (i : Nat) (f : Field) (d : Datum) (x : Tree) (own : List (String × Tree)),
      fs[i]? = some f ∧ f.skipped = false ∧ ds[i]? = some d ∧
      encode f.ty d = .ok x ∧ entriesOf f x = .ok own ∧ p ∈ own := by
  obtain ⟨i, f, d, own, hf, hd, contributed, mem⟩ := contribution_of_mem h mem
  obtain rfl | ⟨kept, x, hx, entries⟩ := of_contribution contributed
  · cases mem
  · exact ⟨i, f, d, x, own, hf, kept, hd, hx, entries, mem⟩

end Members

/-- How a layer without hook is written, by the way in which its parts are. -/
inductive WritesLayer (cx : Codec) (encode : Ty → Datum → Except Error Tree) :
    Ty → Datum → Tree → Prop
  | absent (ty : Ty) : WritesLayer cx encode ty .absent .null
  | content {ty t : Ty} {d e : Datum} {x : Tree} (h : cx.catalogue.Content ty d t e)
    (hx : encode t e = .ok x) : WritesLayer cx encode ty d x
  /-- A newtype leaves the wrappers right below it behind. -/
  | newtype {name : String} {t : Ty} {d : Datum} {x : Tree}
    (body : cx.catalogue.body? name = some (.newtype t))
    (hx : encode (cx.catalogue.peel t d).1 (cx.catalogue.peel t d).2 = .ok x) :
    WritesLayer cx encode (.named name) (.wrapped d) x
  | array {ty : Ty} {d : Datum} {ts : List Ty} {ds : List Datum} {xs : List Tree}
    (h : cx.catalogue.Members ty d ts ds) (hxs : encodeMembers encode ty ts ds = .ok xs) :
    WritesLayer cx encode ty d (.array xs)
  | bytes {t : Ty} (bytes : (Ty.list t).isBytes = true) (d : Datum) (s : String) :
    WritesLayer cx encode (.list t) d (.string s)
  | map {a : Arrangement} {key t : Ty} {es : List (Datum × Datum)} {ps : List (String × Tree)}
    (hps : cx.mapEntries (encode t) key es = .ok ps) :
    WritesLayer cx encode (.map a key t) (.map es) (.object (Object.ofList ps))
  | record {name : String} {fs : List Field} {ds : List Datum} {es : List (String × Tree)}
    (body : cx.catalogue.body? name = some (.record fs))
    (hes : cx.contributions encode (.named name) fs ds = .ok es) :
    WritesLayer cx encode (.named name) (.product ds) (.object (Object.ofList es))
  | variant {name : String} {vs : List Variant}
    (body : cx.catalogue.body? name = some (.enumeration vs)) (d : Datum) (s : String) :
    WritesLayer cx encode (.named name) d (.string s)
  | scalar {ty : Ty} {d : Datum} {x : Tree} (hx : Scalar.encode ty d = .ok x) :
    WritesLayer cx encode ty d x

variable {cx : Codec} {encode : Ty → Datum → Except Error Tree} {ty : Ty} {d : Datum} {x : Tree}

theorem writesLayer_of_declared {name : String} {body : Body}
    (declared : cx.catalogue.body? name = some body)
    (h : encodeDeclared cx encode (.named name) body d = .ok x) :
    cx.WritesLayer encode (.named name) d x := by
  have layer : encodeLayer cx encode (.named name) d = .ok x := by
    simpa only [encodeLayer, declared] using h
  unfold encodeDeclared at h
  split at h
  · have inner := Catalogue.inner?_newtype declared
    simp only [Catalogue.peel, inner] at h
    exact .newtype declared h
  · obtain ⟨es, hes, rfl⟩ := of_encode_record declared layer
    exact .record declared hes
  · obtain ⟨xs, hxs, rfl⟩ := of_encode_positional declared layer
    exact .array (.positional declared _) hxs
  · have written := of_encode_variant declared layer
    rw [encodeVariant.eq_def] at written
    split at written
    · split at written
      · split at written <;> cases written
        exact .variant declared _ _
      · cases written
    · cases written
  · cases h

/-- A layer without hook is written in no other way. -/
theorem writesLayer_of_ok (h : encodeLayer cx encode ty d = .ok x) :
    cx.WritesLayer encode ty d x := by
  have layer := h
  unfold encodeLayer at h
  split at h
  · cases h
    exact .absent _
  · exact .content (.option _ _) h
  · cases h
    exact .absent _
  · exact .content (.pointer _ _ _) h
  · exact .content (.nonZero _ _) h
  · obtain ⟨xs, hxs, rfl⟩ := of_encode_tuple layer
    exact .array (.tuple _ _) hxs
  · split at h
    · exact writesLayer_of_declared ‹_› h
    · cases h
  · rename_i t ds
    rcases bytes : (Ty.list t).isBytes with _ | _
    · obtain ⟨xs, hxs, rfl⟩ := of_encode_list bytes layer
      exact .array (.list bytes _) hxs
    · have written := of_encode_bytes bytes layer
      rw [encodeBytes] at written
      split at written <;> cases written
      exact .bytes bytes _ _
  · obtain ⟨xs, hxs, rfl⟩ := of_encode_array layer
    exact .array (.array _ _ _) hxs
  · obtain ⟨ps, hps, rfl⟩ := of_encode_map layer
    exact .map hps
  iterate 4 cases h
  · refine .scalar ?_
    rcases hs : Scalar.encode _ d with e | y <;> rw [hs] at h <;> cases h
    rfl

end Codec

end TreeCodec
