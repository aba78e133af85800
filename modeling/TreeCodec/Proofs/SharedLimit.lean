import TreeCodec.Proofs.Correspondence
import TreeCodec.Proofs.HookedTypes
import TreeCodec.Proofs.Limits
import TreeCodec.Proofs.OwnOutput
import TreeCodec.Proofs.Splicing
import TreeCodec.Proofs.Written

/-!
# One limit for both directions

A limit that lets a datum be written lets its tree be read, if both directions take the same
steps (`own_output_is_within_limit`). They do not where a newtype stands right above other
wrappers, which are written in one step and read one by one, nor where an inlined optional
record is absent, which takes no step to write (`own_output_exceeds_limit`).

* `Uncut`: readings that fail at no limit, with a rule for each part of a decoder;
* `Catalogue.Level`: where the two directions take the same steps;
* `Codec.Readable`: what is to be shown of a tree, and of an object that a record shares;
* `Codec.readable_encode`: it holds of all that is written, by induction on the depth.
-/

namespace TreeCodec

/-! ## Readings that are not cut -/

/-- A reading that fails at no limit, whatever was noted before. -/
def Uncut {α : Type} (x : StateT Audit (Except Error) α) : Prop := ∀ a, ¬ Exceeds (x.run a)

namespace Uncut

variable {α β : Type} {x : StateT Audit (Except Error) α}

theorem pure (v : α) : Uncut (pure v) := fun a => not_exceeds_ok (v, a)

theorem ofLocal {r : Except Error α} (h : LocalResult r) :
    Uncut (MonadExcept.ofExcept r : StateT Audit (Except Error) α) := by
  cases r with
  | ok v => exact pure v
  | error e => exact fun _ => LocalResult.not_exceeds (.error (h e rfl))

theorem refuse {e : Error} (h : e.isLocal = true) : Uncut (throw e : StateT Audit (Except Error) α) :=
  fun _ => LocalResult.not_exceeds (.error h)

theorem bind {f : α → StateT Audit (Except Error) β} (hx : Uncut x) (hf : ∀ v, Uncut (f v)) :
    Uncut (x >>= f) := by
  intro a
  rw [StateT.run_bind]
  rcases hr : x.run a with e | ⟨v, b⟩
  · rintro ⟨limit, same⟩
    cases same
    exact hx a ⟨limit, hr⟩
  · exact hf v b

theorem map (hx : Uncut x) (f : α → β) : Uncut (x >>= fun v => Pure.pure (f v)) :=
  hx.bind fun v => pure (f v)

theorem modify (f : Audit → Audit) :
    Uncut (modify f : StateT Audit (Except Error) PUnit) := fun _ => nofun

/-! ### The parts of a layer -/

variable {cx : Codec} {dec : Decoder (Except Error)} {s : Scope} {ty t : Ty} {o : Object}

theorem decodePointer {content : StateT Audit (Except Error) Datum} (h : Uncut content)
    (p : Pointer) (t : Ty) : Uncut (Codec.decodePointer p t content) := by
  cases p with
  | weak => exact refuse rfl
  | borrowed => exact h.bind fun _ => refuse rfl
  | _ => exact h.map Datum.wrapped

theorem decodeItems {ts : List Ty} {xs : List Tree}
    (h : ∀ (j : Nat) t x, ts[j]? = some t → xs[j]? = some x → ∀ s, Uncut (dec.tree s t x)) (s : Scope)
    (i : Nat) : Uncut (Codec.decodeItems dec s i ts xs) := by
  induction ts generalizing xs i with
  | nil => exact pure []
  | cons t ts ih =>
    cases xs with
    | nil => exact pure []
    | cons x xs =>
      refine (h 0 t x rfl rfl _).bind fun d => Uncut.map (ih ?_ (i + 1)) (d :: ·)
      exact fun j => h (j + 1)

theorem decodeEntries {key value : Ty} (h : ∀ e ∈ o, ∀ s, Uncut (dec.tree s value e.2)) (s : Scope) :
    Uncut (Codec.decodeEntries cx dec s key value o) := by
  induction o with
  | nil => exact pure []
  | cons e o ih =>
    have ⟨first, rest⟩ := List.forall_mem_cons.mp h
    refine (ofLocal (Catalogue.localResult_keyOf cx.catalogue key e.1)).bind fun k => ?_
    exact (first _).bind fun d => (ih rest).map ((k, d) :: ·)

theorem decodeKey {f : Field} (h : ∀ x, Object.find? o f.key = some x → ∀ s, Uncut (dec.tree s f.ty x))
    (s : Scope) : Uncut (Codec.decodeKey cx dec s f f.key o) := by
  refine (modify _).bind fun _ => ?_
  split
  · exact h _ ‹_› _
  · exact ofLocal (Catalogue.localResult_zeroField cx.catalogue f)

theorem decodeRecord {fs : List Field} (h : Uncut (Codec.decodeFields cx dec s ty o 0 fs)) :
    Uncut (Codec.decodeRecord cx dec s ty fs o) :=
  (modify _).bind fun _ => h.bind fun _ => (modify _).bind fun _ => pure _

/-- What holds something is read as what it holds. -/
theorem content {d e : Datum} {x : Tree} (layer : cx.catalogue.Content ty d t e)
    (h : Uncut (dec.tree s t x)) : Uncut (Codec.decodeLayer cx dec s ty x) := by
  cases layer with
  | option => exact h.map Datum.present
  | pointer p => exact h.decodePointer p t
  | nonZero k => exact h.bind fun d => ofLocal (Codec.localResult_wrapNonZero k d)
  | newtype body =>
    simp only [Codec.decodeLayer, body]
    exact h.map Datum.wrapped

theorem objectContent {d e : Datum} (layer : cx.catalogue.Content ty d t e)
    (h : Uncut (dec.object s t o)) : Uncut (Codec.decodeObjectLayer cx dec s ty o) := by
  cases layer with
  | option => exact h.map Datum.present
  | pointer p => exact h.decodePointer p t
  | nonZero k => exact h.bind fun d => ofLocal (Codec.localResult_wrapNonZero k d)
  | newtype body =>
    simp only [Codec.decodeObjectLayer, body]
    exact h.map Datum.wrapped

end Uncut

/-! ## Data whose layers are read in the steps in which they are written -/

/-- Writing and reading take the same steps at a datum: a newtype has no wrapper right below
it, and the record that an inlined field has below its wrappers is there. -/
structure Catalogue.Level (c : Catalogue) (ty : Ty) (d : Datum) : Prop where
  newtype {name : String} {t : Ty} {e : Datum} (hty : ty = .named name)
    (body : c.body? name = some (.newtype t)) (hd : d = .wrapped e) : c.peel t e = (t, e)
  inlined {name : String} {fs : List Field} {f : Field} {ds : List Datum} {e : Datum} {i : Nat}
    (hty : ty = .named name) (body : c.body? name = some (.record fs)) (hd : d = .product ds)
    (hf : fs[i]? = some f) (kept : f.skipped = false) (inline : f.inline = true)
    (he : ds[i]? = some e) : ∃ u es, c.peel f.ty e = (u, .product es)

namespace Catalogue

variable {c : Catalogue} {ty : Ty} {d : Datum} {u : Ty} {es : List Datum}

/-- A record below wrappers is no zero. -/
theorem isZero_of_product (h : c.peel ty d = (u, .product es)) : c.isZero ty d = false := by
  have layer {ty : Ty} {d : Datum} (h : c.peel ty d = (u, .product es)) :
      c.isZeroLayer ty d = false := by
    have text : c.text? ty d = none := by
      rw [text?, h]
      split <;> simp_all
    cases d with
    | product | present | wrapped =>
      clear h
      cases ty <;> simp [isZeroLayer, text, Scalar.isZero, Scalar.encode]
    | _ => cases h
  rw [isZero]
  split
  · exact layer (by rw [h]; rfl)
  · exact layer h

end Catalogue

namespace Codec

variable {cx : Codec} {ty t : Ty} {d e : Datum} {x : Tree}

/-- A record below wrappers is not written as null. -/
theorem ne_null_of_product (initial : cx.registry = .initial) {u : Ty} {es : List Datum}
    {depth : Nat} (h : cx.catalogue.peel ty d = (u, .product es))
    (hx : (encode cx depth ty d : Except Error Tree) = .ok x) : x ≠ .null := by
  induction depth generalizing ty d with
  | zero => cases hx
  | succ depth ih =>
    by_cases slot : ty = .tree
    · subst slot
      rw [encode, encodeStep, initial] at hx
      cases d with
      | tree => cases h
      | _ => cases hx
    · rw [encode_unhooked (encoder?_of_initial initial slot)] at hx
      cases writesLayer_of_ok hx with
      | absent => cases h
      | content layer written =>
        rcases layer.peel_or with same | same
        · exact ih (same ▸ h) written
        · rw [same] at h
          cases h
      | newtype body written =>
        simp only [Catalogue.peel, Catalogue.inner?_newtype body] at h
        rw [h] at written
        exact ih rfl written
      | scalar written =>
        rintro rfl
        cases (Scalar.family?_of_encode written).2
      | _ => rintro ⟨⟩

/-! ## What is to be shown -/

/-- A tree that is read at a depth without failing at a limit, whatever object a record shares
with it. -/
structure Readable (cx : Codec) (depth : Nat) (ty : Ty) (x : Tree) : Prop where
  tree (s : Scope) : Uncut ((decoder cx depth : Decoder (Except Error)).tree s ty x)
  part {es : Object} (hx : x = .object es) (plain : ¬ cx.Absorbs ty) :
    Object.Decides (cx.Consumes ty)
      (fun o => ∀ s, Uncut ((decoder cx depth : Decoder (Except Error)).object s ty o)) es

namespace Readable

variable {depth : Nat}

theorem null (cx : Codec) (depth : Nat) (ty : Ty) : cx.Readable (depth + 1) ty .null :=
  ⟨fun _ => .ofLocal (Catalogue.localResult_zero cx.catalogue ty), nofun⟩

variable (hook : cx.registry.decoder? ty = none)
include hook

theorem of_layer
    (tree : ∀ s, Uncut (decodeLayer cx (decoder cx depth : Decoder (Except Error)) s ty x))
    (part : ∀ es, x = .object es → ¬ cx.Absorbs ty → Object.Decides (cx.Consumes ty) (fun o => ∀ s,
      Uncut (decodeObjectLayer cx (decoder cx depth : Decoder (Except Error)) s ty o)) es) :
    cx.Readable (depth + 1) ty x := by
  refine ⟨fun s => ?_, fun hx plain => (part _ hx plain).imp (fun _ => .rfl) fun o h s => ?_⟩
  · show Uncut (decodeStep cx _ s ty x)
    rw [decodeStep.eq_def]
    split
    · exact .ofLocal (Catalogue.localResult_zero cx.catalogue ty)
    · rw [hook]
      exact tree s
  · show Uncut (decodeObjectStep cx _ s ty o)
    rw [decodeObjectStep, hook]
    exact h s

/-- A tree that is no object is no part of a record. -/
theorem of_kind (kind : x.kind ≠ .object)
    (tree : ∀ s, Uncut (decodeLayer cx (decoder cx depth : Decoder (Except Error)) s ty x)) :
    cx.Readable (depth + 1) ty x :=
  .of_layer hook tree fun _ hx => absurd (hx ▸ rfl) kind

theorem content (layer : cx.catalogue.Content ty d t e) (h : cx.Readable depth t x) :
    cx.Readable (depth + 1) ty x := by
  refine .of_layer hook (fun s => .content layer (h.tree s)) fun es hx plain => ?_
  rcases layer.below_or with below | below
  · refine (h.part hx fun absorbs => plain (.content below absorbs)).imp
      (fun k => (consumes_content hook below).symm) fun o h s => ?_
    exact .objectContent layer (h s)
  · exact absurd (.other (by simp [below]) (by simp [below])) plain

theorem array {ts : List Ty} {ds : List Datum} {xs : List Tree}
    (members : cx.catalogue.Members ty d ts ds)
    (items : ∀ (j : Nat) x, xs[j]? = some x → ∃ t, ts[j]? = some t ∧ cx.Readable depth t x) :
    cx.Readable (depth + 1) ty (.array xs) := by
  refine .of_kind hook nofun fun s => ?_
  -- A list and an array may be read as other numbers of items than were written.
  have read (us : List Ty) (same : ∀ (j : Nat) t u, ts[j]? = some t → us[j]? = some u → u = t) :
      Uncut (decodeItems (decoder cx depth : Decoder (Except Error)) s 0 us xs) := by
    refine .decodeItems (fun j u x hu hx => ?_) s 0
    obtain ⟨t, ht, readable⟩ := items j x hx
    rw [same j t u ht hu]
    exact readable.tree
  have all (ty : Ty) : Uncut (decodePositional (decoder cx depth : Decoder (Except Error)) s ty ts
      (.array xs)) := by
    rw [decodePositional]
    split
    · exact read ts fun j t u ht hu => Option.some.inj (hu.symm.trans ht)
    · exact .refuse rfl
  have alike {t : Ty} {m n : Nat} (j : Nat) (u v : Ty) (hu : (List.replicate m t)[j]? = some u)
      (hv : (List.replicate n t)[j]? = some v) : v = u :=
    (List.eq_of_mem_replicate (List.mem_of_getElem? hv)).trans
      (List.eq_of_mem_replicate (List.mem_of_getElem? hu)).symm
  cases members with
  | list bytes =>
    simp only [decodeLayer, bytes, Bool.false_eq_true, if_false]
    exact (read _ alike).map Datum.seq
  | array t n =>
    simp only [decodeLayer, decodeArray]
    split
    · exact .refuse rfl
    · split
      · exact .refuse rfl
      · split
        · exact .refuse rfl
        · exact (read _ alike).map Datum.seq
  | tuple => exact (all _).map Datum.product
  | positional body =>
    simp only [decodeLayer, body]
    exact (all _).map Datum.product

theorem scalar (h : Scalar.encode ty d = .ok x) : cx.Readable (depth + 1) ty x := by
  have ⟨scalar, family⟩ := Scalar.family?_of_encode h
  have kind : x.kind ≠ .object := fun kind => by
    cases x <;> cases kind
    cases family
  refine .of_kind hook kind fun s => ?_
  have read : decodeLayer cx (decoder cx depth : Decoder (Except Error)) s ty x =
      MonadExcept.ofExcept (Scalar.decode ty x) := by
    cases ty <;> first | rfl | cases scalar
  rw [read]
  exact .ofLocal (Scalar.localResult_decode ty x)

omit hook

/-- A weak pointer is not read. -/
theorem weak (hook : cx.registry.decoder? (.pointer .weak t) = none) :
    cx.Readable (depth + 1) (.pointer .weak t) x :=
  .of_layer hook (fun _ => .refuse rfl) fun _ _ plain => absurd (.other nofun nofun) plain

theorem bytes (hook : cx.registry.decoder? (.list t) = none) (bytes : (Ty.list t).isBytes = true)
    (text : String) : cx.Readable (depth + 1) (.list t) (.string text) := by
  refine .of_kind hook nofun fun s => ?_
  simp only [decodeLayer, bytes, if_true]
  exact .ofLocal (localResult_decodeBytes _)

theorem variant {name : String} {vs : List Variant} (hook : cx.registry.decoder? (.named name) = none)
    (body : cx.catalogue.body? name = some (.enumeration vs)) (text : String) :
    cx.Readable (depth + 1) (.named name) (.string text) := by
  refine .of_kind hook nofun fun s => ?_
  simp only [decodeLayer, body]
  exact .ofLocal (localResult_decodeVariant _ vs _)

theorem map {a : Arrangement} {key : Ty} {es : List (String × Tree)}
    (hook : cx.registry.decoder? (.map a key t) = none)
    (entries : ∀ e ∈ es, cx.Readable depth t e.2) :
    cx.Readable (depth + 1) (.map a key t) (.object (Object.ofList es)) := by
  refine .of_layer hook (fun s => ?_) fun _ _ plain => ?_
  · have read : Uncut (decodeEntries cx (decoder cx depth : Decoder (Except Error)) s key t
        (Object.ofList es)) :=
      .decodeEntries (fun e he => (entries e (Object.mem_of_mem_ofList he)).tree) s
    exact read.map Datum.map
  · exact absurd (.other (by simp [Catalogue.below]) (by simp [Catalogue.below])) plain

end Readable

/-! ### Records -/

/-- The entries of a field, whose reading does not fail at a limit whatever else there is. -/
def ReadableField (cx : Codec) (depth : Nat) (f : Field) : List (String × Tree) → Prop :=
  Object.Decides (cx.FieldConsumes f) fun o => ∀ s ty i,
    Uncut (decodeField cx (decoder cx depth : Decoder (Except Error)) s ty o i f)

/-- The entries of several fields. -/
def ReadableFields (cx : Codec) (depth : Nat) (fs : List Field) : List (String × Tree) → Prop :=
  Object.Decides (fun k => ∃ f ∈ fs, cx.FieldConsumes f k) fun o => ∀ s ty i,
    Uncut (decodeFields cx (decoder cx depth : Decoder (Except Error)) s ty o i fs)

section Fields

variable {depth : Nat} {f : Field} {es : List (String × Tree)}

/-- A field that puts nothing there reads nothing, unless it is inlined. -/
theorem readableField_nil (own : f.skipped = true ∨ f.inline = false) :
    cx.ReadableField depth f [] := by
  refine ⟨nofun, fun {o} same s ty i => ?_⟩
  rcases skipped : f.skipped with _ | _
  · have apart : f.inline = false := own.resolve_left (by simp [skipped])
    rw [decodeField_apart skipped apart]
    refine .decodeKey (fun x hx => ?_) s
    rw [same f.key ⟨skipped, .inl ⟨apart, rfl⟩⟩] at hx
    cases hx
  · rw [decodeField_skipped skipped]
    exact .ofLocal (Catalogue.localResult_zeroField cx.catalogue f)

theorem Readable.field (kept : f.skipped = false) (apart : f.inline = false)
    (h : cx.Readable depth f.ty x) : cx.ReadableField depth f [(f.key, x)] := by
  have consumed : cx.FieldConsumes f f.key := ⟨kept, .inl ⟨apart, rfl⟩⟩
  refine ⟨fun k hk => ?_, fun {o} same s ty i => ?_⟩
  · rw [List.mem_singleton.mp hk]
    exact consumed
  · rw [decodeField_apart kept apart]
    refine .decodeKey (fun y hy => ?_) s
    rw [same _ consumed] at hy
    obtain rfl : x = y := by
      simpa [Object.ofList, Object.extend, Object.insert, Object.find?_cons] using hy
    exact h.tree

theorem Readable.inlined {es : Object} (kept : f.skipped = false) (inline : f.inline = true)
    (plain : ¬ cx.Absorbs f.ty) (h : cx.Readable depth f.ty (.object es)) :
    cx.ReadableField depth f es := by
  refine (h.part rfl plain).imp (fun k => ?_) fun o read s ty i => ?_
  · exact ⟨fun hk => ⟨kept, .inr ⟨inline, hk⟩⟩,
      fun hk => hk.2.elim (fun own => absurd (inline.symm.trans own.1) nofun) And.right⟩
  · rw [decodeField_inlined kept inline]
    exact read s.inline

theorem readableField_of_contribution (initial : cx.registry = .initial)
    (readable : ∀ x, f.skipped = false →
      (encode cx depth f.ty d : Except Error Tree) = .ok x → cx.Readable depth f.ty x)
    (plain : f.skipped = false → f.inline = true → ¬ cx.Absorbs f.ty)
    (there : f.skipped = false → f.inline = true →
      ∃ u ms, cx.catalogue.peel f.ty d = (u, .product ms))
    (h : cx.contribution (encode cx depth) f d = .ok es) : cx.ReadableField depth f es := by
  rcases kept : f.skipped with _ | _
  · rcases inline : f.inline with _ | _
    · have empty : cx.ReadableField depth f [] := readableField_nil (.inr inline)
      obtain rfl | ⟨-, x, hx, own⟩ := of_contribution h
      · exact empty
      · rw [entriesOf_apart inline] at own
        split at own <;> cases own
        · exact empty
        · exact (readable x kept hx).field kept inline
    · obtain ⟨u, ms, product⟩ := there kept inline
      have written : cx.catalogue.isZero f.ty d = false := Catalogue.isZero_of_product product
      simp only [contribution, kept, written, Bool.and_false, Bool.or_false, Bool.false_eq_true,
        if_false] at h
      obtain ⟨x, hx, own⟩ := of_bind_ok h
      have some : x ≠ .null := ne_null_of_product initial product hx
      simp only [entriesOf, inline, if_true] at own
      split at own
      · cases own
        exact (readable _ kept hx).inlined kept inline (plain kept inline)
      · exact absurd rfl some
      · cases own
  · obtain rfl | ⟨skipped, -⟩ := of_contribution h
    · exact readableField_nil (.inl kept)
    · rw [kept] at skipped
      cases skipped

/-- Fields that consume different keys are read one after another. -/
theorem readableFields_of_contributions {ty : Ty} {fs : List Field} {ds : List Datum}
    (each : ∀ (i : Nat) f d es, fs[i]? = some f → ds[i]? = some d →
      cx.contribution (encode cx depth) f d = .ok es → cx.ReadableField depth f es)
    (keys : fs.Pairwise fun f g => ∀ k, cx.FieldConsumes f k → ¬ cx.FieldConsumes g k)
    (h : cx.contributions (encode cx depth) ty fs ds = .ok es) : cx.ReadableFields depth fs es := by
  induction fs generalizing ds es with
  | nil =>
    cases ds <;> cases h
    exact ⟨nofun, fun _ _ _ _ => .pure []⟩
  | cons f fs ih =>
    cases ds with
    | nil => cases h
    | cons d ds =>
      obtain ⟨own, hown, h⟩ := of_bind_ok h
      obtain ⟨rest, hrest, h⟩ := of_bind_ok h
      cases h
      have ⟨first, others⟩ := List.pairwise_cons.mp keys
      have head := each 0 f d own rfl rfl hown
      have tail := ih (fun i => each (i + 1)) others hrest
      have apart k (hk : cx.FieldConsumes f k) : ¬ ∃ g ∈ fs, cx.FieldConsumes g k :=
        fun ⟨g, hg, hgk⟩ => first g hg k hk hgk
      refine (head.append tail apart).imp
        (fun k => (List.exists_mem_cons_iff (cx.FieldConsumes · k) f fs).symm) ?_
      exact fun o ⟨field, fields⟩ s ty i =>
        (field s ty i).bind fun d => (fields s ty (i + 1)).map (d :: ·)

theorem ReadableFields.record {name : String} {fs : List Field}
    (hook : cx.registry.decoder? (.named name) = none)
    (body : cx.catalogue.body? name = some (.record fs)) (h : cx.ReadableFields depth fs es) :
    cx.Readable (depth + 1) (.named name) (.object (Object.ofList es)) := by
  refine .of_layer hook (fun s => ?_) fun own hx _ => ?_
  · simp only [decodeLayer, body, decodeDeclared]
    exact .decodeRecord (h.holds (fun _ _ => rfl) s _ 0)
  · cases hx
    refine h.ofList.imp (fun k => (consumes_record hook (Catalogue.below_record body)).symm)
      fun o read s => ?_
    simp only [decodeObjectLayer, body]
    exact .decodeRecord (read s _ 0)

end Fields

/-! ## What is written -/

/-- A datum that is level throughout, of a type that meets no record whose fields share keys
or which inlines anything but records, is written at a depth only if its tree is readable
there. -/
theorem readable_encode (initial : cx.registry = .initial) (depth : Nat) {ty : Ty} {d : Datum}
    {x : Tree} (apart : cx.Everywhere cx.KeysApart ty)
    (plain : cx.Everywhere (cx.InlinesOnly fun t => ¬ cx.Absorbs t) ty)
    (level : cx.catalogue.Throughout cx.catalogue.Level ty d)
    (h : (encode cx depth ty d : Except Error Tree) = .ok x) : cx.Readable depth ty x := by
  induction depth generalizing ty d x with
  | zero => cases h
  | succ depth ih =>
    by_cases slot : ty = .tree
    · subst slot
      refine ⟨fun s => ?_, fun _ plain => absurd (.other nofun nofun) plain⟩
      show Uncut (decodeStep cx _ s .tree x)
      rw [decodeStep.eq_def, initial]
      split
      · exact .ofLocal (Catalogue.localResult_zero cx.catalogue .tree)
      · exact .pure (Datum.tree _)
    have hook : cx.registry.decoder? ty = none := decoder?_of_initial initial slot
    rw [encode_unhooked (encoder?_of_initial initial slot)] at h
    cases writesLayer_of_ok h with
    | absent => exact .null cx depth _
    | content layer hx =>
      rcases layer.wraps_or with wraps | rfl
      · exact .content hook layer (ih (apart.wrapped hook wraps) (plain.wrapped hook wraps)
          (level.part (.content layer)) hx)
      · exact .weak hook
    | @newtype _ t e _ body hx =>
      -- What is peeled along with a newtype would be read layer by layer.
      rw [level.here.newtype rfl body rfl] at hx
      have layer : cx.catalogue.Content _ _ t e := .newtype body e
      have wraps : cx.catalogue.Wraps _ t := .content (Catalogue.below_newtype body)
      exact .content hook layer (ih (apart.wrapped hook wraps) (plain.wrapped hook wraps)
        (level.part (.content layer)) hx)
    | array members hxs =>
      obtain ⟨item?, layer, typed⟩ := members.below
      refine .array hook members fun i x hx => ?_
      obtain ⟨t, e, ht, he, written⟩ := of_encodeMembers hxs hx
      exact ⟨t, ht, ih (apart.item hook layer (typed i t ht)) (plain.item hook layer (typed i t ht))
        (level.part (.member members ht he)) written⟩
    | bytes bytes => exact .bytes hook bytes _
    | map hps =>
      refine .map hook fun p mem => ?_
      obtain ⟨k, e, mem, written, -⟩ := of_mapEntries hps mem
      exact ih (apart.entry hook rfl) (plain.entry hook rfl) (level.part (.value mem)) written
    | record body hes =>
      have layer := Catalogue.below_record body
      refine (readableFields_of_contributions (fun i f e es hf he own => ?_)
        (apart.here _ layer) hes).record hook body
      have mem := List.mem_of_getElem? hf
      refine readableField_of_contribution initial (fun x kept hx => ?_)
        (plain.here hook _ layer f mem) (fun kept inline => ?_) own
      · exact ih (apart.field hook layer mem kept) (plain.field hook layer mem kept)
          (level.part (.field body hf kept he)) hx
      · exact level.here.inlined rfl body rfl hf kept inline he
    | variant body => exact .variant hook body _
    | scalar hx => exact .scalar hook hx

/-- What is read without failing at a limit is handed out, or refused for another cause. -/
theorem Readable.not_exceeds (h : cx.Readable cx.maxDepth ty x) (strict : Bool) :
    ¬ Exceeds (cx.fromTree strict ty x : Except Error Datum) := by
  rcases read : ((decoder cx cx.maxDepth : Decoder (Except Error)).tree (.root strict) ty x).run
      .empty with e | ⟨d, a⟩
  · have failed : cx.fromTree strict ty x = (.error e : Except Error Datum) := build_error read
    rw [failed]
    rintro ⟨limit, same⟩
    cases same
    exact h.tree _ _ ⟨limit, read⟩
  · have built : cx.fromTree strict ty x = cx.accept ty d a := build_of_ok read
    rw [built]
    exact not_exceeds_accept cx ty d a

end Codec

/-! ## Stops, readings and loops -/

/-- Nothing is peeled along with a newtype of routes, and the point of a stop is there. -/
theorem Catalogue.level_route {ty : Ty} {d : Datum} (typed : HasType .route ty d) :
    Catalogue.route.Level ty d := by
  refine ⟨fun {name t e} hty body hd => ?_, fun {name fs f ds e i} hty body hd hf kept inline he => ?_⟩
  · obtain ⟨decl, mem, newtype⟩ := Catalogue.mem_of_body? body
    simp only [route, List.mem_cons, List.not_mem_nil, or_false] at mem
    rcases mem with rfl | rfl <;> cases newtype
  · subst hty
    obtain ⟨_, same, members⟩ := typed.record_inv body
    cases hd.symm.trans same
    have member : HasType .route f.ty e := members.get (by rw [List.getElem?_map, hf]; rfl) he
    rw [Catalogue.inlined_route body (List.mem_of_getElem? hf) inline] at member ⊢
    cases member with
    | pointer _ point =>
      obtain ⟨ms, rfl, -⟩ := point.record_inv rfl
      exact ⟨_, ms, rfl⟩

namespace Codec

/-- Loops, read without hooks. -/
def endless (limit : Nat) : Codec := ⟨.loop, .initial, limit⟩

/-- A loop reads an object over and over, down to any limit. -/
theorem object_endless (limit depth : Nat) {ty : Ty}
    (hty : ty = .named "loop" ∨ ty = .option (.pointer .owned (.named "loop")) ∨
      ty = .pointer .owned (.named "loop")) (s : Scope) (o : Object) (a : Audit) :
    ((decoder (endless limit) depth).object s ty o).run a =
      (.error (.depthExceeded limit) : Except Error _) := by
  have cut {α β : Type} {x : StateT Audit (Except Error) α} {a : Audit}
      (h : x.run a = .error (.depthExceeded limit)) (f : α → StateT Audit (Except Error) β) :
      (x >>= f).run a = .error (.depthExceeded limit) := by
    rw [StateT.run_bind, h]
    rfl
  induction depth generalizing ty s a with
  | zero => rfl
  | succ depth ih =>
    rcases hty with rfl | rfl | rfl
    · let dec : Decoder (Except Error) := decoder (endless limit) depth
      have field : (decodeField (endless limit) dec s (.named "loop") o 0 .next).run
          (s.beginRecord a) = .error (.depthExceeded limit) := by
        rw [decodeField_inlined rfl rfl]
        exact ih (.inr (.inl rfl)) s.inline _
      exact cut (cut field fun d => decodeFields (endless limit) dec s (.named "loop") o 1 [] >>=
        fun ds => pure (d :: ds)) fun ds => modify (s.endRecord o) >>= fun _ => pure (Datum.product ds)
    · exact cut (ih (.inr (.inr rfl)) s a) _
    · exact cut (ih (.inl rfl) s a) _

end Codec

/-- What a limit lets be written, the same limit lets be read, strictly or not, where both
directions take the same steps throughout the datum, the fields of each record consume
different keys and only records are inlined. -/
theorem own_output_is_within_limit (cx : Codec) (initial : cx.registry = .initial) (ty : Ty)
    (apart : cx.Everywhere cx.KeysApart ty)
    (plain : cx.Everywhere (cx.InlinesOnly fun t => ¬ cx.Absorbs t) ty) (d : Datum)
    (level : cx.catalogue.Throughout cx.catalogue.Level ty d) (x : Tree)
    (h : cx.toTree ty d = (.ok x : Except Error Tree)) (strict : Bool) :
    ¬ Exceeds (cx.fromTree strict ty x : Except Error Datum) :=
  (Codec.readable_encode initial cx.maxDepth apart plain level h).not_exceeds strict

/-- A stop is read under the limit under which it is written. -/
theorem own_output_is_within_limit_stop :
    ∃ x, Codec.route.toTree (.named "stop") (.stop "a" 1 2 [] .absent) = (.ok x : Except Error Tree) ∧
      ∀ strict, ¬ Exceeds (Codec.route.fromTree strict (.named "stop") x : Except Error Datum) := by
  have typed := hasType_stop "a" (x := 1) (y := 2) rfl rfl [] (.absent _)
  have level := Catalogue.Throughout.of_hasType (fun _ _ => Catalogue.level_route) typed
  let x : Tree := .object
    [("label", .string "a"), ("next", .null), ("x", .int 1), ("y", .int 2)]
  have written :
      Codec.route.toTree (.named "stop") (.stop "a" 1 2 [] .absent) = (.ok x : Except Error Tree) :=
    rfl
  exact ⟨x, written, own_output_is_within_limit Codec.route rfl (.named "stop")
    (Codec.keysApart_route _) (Codec.plain_route _) _ level x written⟩

/-- A limit lets be written what it does not let be read: a newtype of a newtype under a limit
of two, and the last of a chain of inlined records under every limit. -/
theorem own_output_exceeds_limit :
    (let cx : Codec := ⟨.weather, .initial, 2⟩
      let reading : Datum := .wrapped (.wrapped (.int 21))
      HasType .weather (.named "reading") reading ∧
        cx.toTree (.named "reading") reading = (.ok (.int 21) : Except Error Tree) ∧
        ∀ strict, cx.fromTree strict (.named "reading") (.int 21) =
          (.error (.depthExceeded 2) : Except Error Datum)) ∧
    ∀ limit, 1 ≤ limit →
      let cx := Codec.endless (limit + 1)
      HasType .loop (.named "loop") (.product [.absent]) ∧
        cx.toTree (.named "loop") (.product [.absent]) = (.ok (.object []) : Except Error Tree) ∧
        ∀ strict, cx.fromTree strict (.named "loop") (.object []) =
          (.error (.depthExceeded (limit + 1)) : Except Error Datum) := by
  refine ⟨⟨.newtype rfl (.newtype rfl (.int rfl)), rfl, fun strict => by cases strict <;> rfl⟩,
    fun limit positive => ⟨.record rfl (.cons (.absent _) .nil), ?_, fun strict => ?_⟩⟩
  · obtain ⟨below, rfl⟩ : ∃ n, limit = n + 1 := ⟨limit - 1, by omega⟩
    rfl
  · have read := Codec.object_endless (limit + 1) (limit + 1) (.inl rfl) (.root strict) [] .empty
    exact Codec.build_error read

end TreeCodec
