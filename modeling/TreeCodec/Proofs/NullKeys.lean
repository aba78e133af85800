import TreeCodec.Proofs.InertKeys
import TreeCodec.Proofs.ObjectRoots
import TreeCodec.Proofs.OmittedFields
import TreeCodec.Proofs.Splicing
import TreeCodec.Proofs.UnknownKeys

/-!
# Null under a key

A key that an object has null under is read as the zero of the field's type. A key that the
object does not have is read as the zero of the field, which may be a default of the field's
own. Where the two are the same, and nothing that is inlined looks at the object as a whole, a
key that is null and a missing one cannot be told apart (`null_key_is_missing`). A field with
another default tells them apart (`null_form_differs`).

* `Object.AlikeBut`: objects that are alike but for a key, which is null or missing in both;
* `Codec.PlainKey`: the types for which null under the key does not count;
* `Codec.cut_alikeBut`: two such objects are read alike, but for the level that null takes;
* `Audit.closeLevel_alikeBut`: so are they reported, the key being consumed.
-/

namespace TreeCodec

/-! ## Objects alike but for a key -/

namespace Object

/-- An object has null under a key, or it does not have the key. -/
def BlankAt (o : Object) (k : String) : Prop := o.find? k = none ∨ o.find? k = some .null

/-- Objects that are alike but for a key, which is null or missing in both. -/
structure AlikeBut (k : String) (o o' : Object) : Prop where
  blank : o.BlankAt k
  blank' : o'.BlankAt k
  find {j : String} (h : j ≠ k) : o.find? j = o'.find? j
  others : o.keys.filter (· ≠ k) = o'.keys.filter (· ≠ k)

namespace AlikeBut

variable {k : String} {o o' : Object}

theorem refl (h : o.BlankAt k) : o.AlikeBut k o := ⟨h, h, fun _ => rfl, rfl⟩

theorem symm (h : AlikeBut k o o') : AlikeBut k o' o :=
  ⟨h.blank', h.blank, fun hj => (h.find hj).symm, h.others.symm⟩

/-- Keys that are picked without the key in question are the same. -/
theorem filter_keys (h : AlikeBut k o o') {p : String → Bool} (hp : p k = false) :
    o.keys.filter p = o'.keys.filter p := by
  have within (l : List String) : l.filter p = (l.filter (· ≠ k)).filter p := by
    rw [List.filter_filter]
    refine List.filter_congr fun j _ => ?_
    by_cases hj : j = k <;> simp [hj, hp]
  rw [within, h.others, ← within]

end AlikeBut

/-- Insertion adds no other key. -/
theorem filter_keys_insert (o : Object) (k : String) (t : Tree) :
    (o.insert k t).keys.filter (· ≠ k) = o.keys.filter (· ≠ k) := by
  induction o with
  | nil => simp [insert, keys]
  | cons e rest ih =>
    obtain ⟨j, u⟩ := e
    simp only [insert]
    split
    · simp [keys]
    · split
      · rename_i same
        subst same
        simp [keys]
      · simp only [keys, List.map_cons, List.filter_cons] at ih ⊢
        rw [ih]

/-- An object without a key, and the object with null under it. -/
theorem alikeBut_insert {o : Object} {k : String} (missing : o.find? k = none) :
    (o.insert k .null).AlikeBut k o where
  blank := .inr (by rw [find?_insert, if_pos rfl])
  blank' := .inl missing
  find hj := by rw [find?_insert, if_neg hj]
  others := filter_keys_insert o k .null

end Object

/-- What is unknown at the end of a level is the same where the key was consumed. -/
theorem Audit.closeLevel_alikeBut {k : String} {o o' : Object} (alike : o.AlikeBut k o') (a : Audit)
    (p : Path) (consumed : ∀ ks outer, a.levels = ks :: outer → k ∈ ks) :
    a.closeLevel p o = a.closeLevel p o' := by
  rcases a with ⟨_ | ⟨ks, outer⟩, unknown⟩
  · rfl
  · have key : k ∈ ks := consumed ks outer rfl
    have same := alike.filter_keys (p := fun j => !ks.contains j) (by simp [key])
    simp only [closeLevel, same]

/-! ## Types that a null key does not count for -/

namespace Codec

/-- A type that sees the object it is read from as a whole: below wrappers there is a hook or
a map. -/
inductive TakesWhole (cx : Codec) : Ty → Prop
  | hook {ty : Ty} {hook : Tree → Except Error Datum} (h : cx.registry.decoder? ty = some hook) :
    TakesWhole cx ty
  | entries {ty t : Ty} (layer : cx.catalogue.below ty = .entries t) : TakesWhole cx ty
  | wrapped {ty t : Ty} (layer : cx.catalogue.Wraps ty t) (h : TakesWhole cx t) : TakesWhole cx ty

/-- What reaches a record sees no object as a whole. -/
theorem HoldsRecord.not_takesWhole {cx : Codec} {ty : Ty} (h : cx.HoldsRecord ty) :
    ¬ cx.TakesWhole ty := by
  obtain ⟨u, fs, reach, record⟩ := h
  induction reach with
  | here hook =>
    intro whole
    cases whole with
    | hook h => simp [hook] at h
    | entries layer => simp [record] at layer
    | wrapped layer => exact Catalogue.not_wraps_record record layer
  | wrapped hook layer _ ih =>
    intro whole
    cases whole with
    | hook h => simp [hook] at h
    | entries layer' => exact layer.not_entries layer'
    | wrapped layer' whole => exact ih record (layer.eq layer' ▸ whole)

/-- Nothing but fields looks at a key, and no default of their own: what a type inlines does not
see the object as a whole, and the zero of each field with the key is the zero of its type. -/
structure PlainKey (cx : Codec) (k : String) (ty : Ty) : Prop where
  parts (t : Ty) : cx.At ty [] t → cx.InlinesOnly (fun u => ¬ cx.TakesWhole u) t
  zeros (t : Ty) (fs : List Field) (f : Field) : cx.At ty [] t → cx.registry.decoder? t = none →
    cx.catalogue.below t = .record fs → f ∈ fs → f.skipped = false → f.inline = false →
    f.key = k → cx.catalogue.zeroField f = cx.catalogue.zero f.ty

namespace PlainKey

variable {cx : Codec} {k : String} {ty t : Ty} (plain : cx.PlainKey k ty)
  (hook : cx.registry.decoder? ty = none)
include plain hook

theorem wrapped (layer : cx.catalogue.Wraps ty t) : cx.PlainKey k t :=
  ⟨fun u at' => plain.parts u (.wrapped hook layer at'),
    fun u fs f at' => plain.zeros u fs f (.wrapped hook layer at')⟩

variable {fs : List Field} {f : Field} (layer : cx.catalogue.below ty = .record fs) (hf : f ∈ fs)
  (kept : f.skipped = false)
include layer hf kept

theorem inlined (inline : f.inline = true) : cx.PlainKey k f.ty ∧ ¬ cx.TakesWhole f.ty :=
  ⟨⟨fun u at' => plain.parts u (.inlined hook layer hf kept inline at'),
    fun u fs f at' => plain.zeros u fs f (.inlined hook layer hf kept inline at')⟩,
    plain.parts ty (.here ty) hook fs layer f hf kept inline⟩

theorem own (apart : f.inline = false) (key : f.key = k) :
    cx.catalogue.zeroField f = cx.catalogue.zero f.ty :=
  plain.zeros ty fs f (.here ty) hook layer hf kept apart key

end PlainKey

/-! ## Reading -/

/-- Null and nothing under a key are read alike by a field with the zero of its type. -/
theorem decodeKey_blank {cx : Codec} {f : Field} {o : Object}
    (zero : cx.catalogue.zeroField f = cx.catalogue.zero f.ty) (blank : o.BlankAt f.key)
    (limit depth : Nat) (s : Scope) :
    (decodeKey cx (decoder (cx.withDepth limit) (depth + 1)) s f f.key o :
        StateT Audit (Except Error) Datum) =
      (do
        modify (s.askKey f.key)
        MonadExcept.ofExcept (cx.catalogue.zeroField f)) := by
  rw [decodeKey]
  rcases blank with missing | null
  · rw [missing]
  · rw [null, zero]
    rfl

section Read

variable {cx : Codec} {k : String} {o o' : Object} (alike : o.AlikeBut k o') {ty : Ty}
  {limit limit' depth depth' : Nat} (s : Scope)
include alike

/-- The key in question is read as the zero of its field, if null may go a level down. -/
theorem cut_blankKey {f : Field} (key : f.key = k)
    (zero : cx.catalogue.zeroField f = cx.catalogue.zero f.ty) (deep : depth < depth') :
    (Simulation.cut limit).rel
      (decodeKey cx (decoder (cx.withDepth limit) depth) s f f.key o)
      (decodeKey cx (decoder (cx.withDepth limit') depth') s f f.key o') := by
  obtain ⟨below, rfl⟩ : ∃ n, depth' = n + 1 := ⟨depth' - 1, by omega⟩
  subst key
  rw [decodeKey_blank zero alike.blank']
  cases depth with
  | succ depth =>
    rw [decodeKey_blank zero alike.blank]
    exact fun _ => .inl rfl
  | zero =>
    apply (Simulation.cut limit).rel_bind (fun _ => .inl rfl)
    intro _
    rcases alike.blank with missing | null
    · rw [missing]
      exact fun _ => .inl rfl
    · rw [null]
      exact fun _ => .inr rfl

section Fields

variable {fs : List Field} (hook : cx.registry.decoder? ty = none)
  (layer : cx.catalogue.below ty = .record fs) (plain : cx.PlainKey k ty)
  (inner : ∀ t, cx.PlainKey k t → ¬ cx.TakesWhole t → (Simulation.cut limit).rel
    ((decoder (cx.withDepth limit) depth).object s.inline t o)
    ((decoder (cx.withDepth limit') depth').object s.inline t o'))
  (deep : depth < depth')
include hook layer plain inner deep

/-- A field is read alike if what it inlines is. -/
theorem cut_decodeField {f : Field} (hf : f ∈ fs) (i : Nat) :
    (Simulation.cut limit).rel
      (decodeField cx (decoder (cx.withDepth limit) depth) s ty o i f)
      (decodeField cx (decoder (cx.withDepth limit') depth') s ty o' i f) := by
  rcases kept : f.skipped with _ | _
  · rcases inline : f.inline with _ | _
    · rw [decodeField_apart kept inline, decodeField_apart kept inline]
      by_cases key : f.key = k
      · exact cut_blankKey alike s key (plain.own hook layer hf kept inline key) deep
      · have same : decodeKey cx (decoder (cx.withDepth limit') depth' : Decoder (Except Error)) s
            f f.key o' = decodeKey cx (decoder (cx.withDepth limit') depth') s f f.key o := by
          rw [decodeKey, decodeKey, alike.find key]
        rw [same]
        exact Simulation.decodeKey cx (cut_decoder cx limit limit' (Nat.le_of_lt deep)) rfl f f.key o
    · rw [decodeField_inlined kept inline, decodeField_inlined kept inline]
      obtain ⟨part, whole⟩ := plain.inlined hook layer hf kept inline
      exact inner f.ty part whole
  · rw [decodeField_skipped kept, decodeField_skipped kept]
    exact fun _ => .inl rfl

theorem cut_decodeFields (gs : List Field) (sub : gs ⊆ fs) (i : Nat) :
    (Simulation.cut limit).rel
      (decodeFields cx (decoder (cx.withDepth limit) depth) s ty o i gs)
      (decodeFields cx (decoder (cx.withDepth limit') depth') s ty o' i gs) := by
  induction gs generalizing i with
  | nil => exact fun _ => .inl rfl
  | cons g gs ih =>
    obtain ⟨first, rest⟩ := List.cons_subset.mp sub
    have field := cut_decodeField alike s hook layer plain inner deep first i
    exact (Simulation.cut limit).rel_bind field fun d => Simulation.map (ih rest (i + 1)) (d :: ·)

end Fields

/-- What is inlined is read alike, at one level more. -/
theorem cut_inlined (plain : cx.PlainKey k ty) (part : ¬ cx.TakesWhole ty)
    (deep : depth < depth') :
    (Simulation.cut limit).rel
      ((decoder (cx.withDepth limit) depth).object s.inline ty o)
      ((decoder (cx.withDepth limit') depth').object s.inline ty o') := by
  induction depth generalizing ty depth' with
  | zero => exact fun _ => .inr rfl
  | succ depth ih =>
    obtain ⟨below, rfl⟩ : ∃ n, depth' = n + 1 := ⟨depth' - 1, by omega⟩
    have deep : depth < below := by omega
    rcases hook : cx.registry.decoder? ty with _ | read
    · simp only [decoder_succ, decodeObjectStep_withDepth, decodeObjectStep, hook]
      apply Simulation.decodeObjectLayer_of
      · intro t layer
        exact ih (plain.wrapped hook layer) (fun h => part (.wrapped layer h)) deep
      · rintro a key value rfl
        exact absurd (.entries rfl) part
      · rintro name fs rfl body
        rw [decodeRecord_inline, decodeRecord_inline]
        have fields := cut_decodeFields alike s hook (Catalogue.below_record body) plain
          (fun t plain part => ih plain part deep) deep fs (List.Subset.refl fs) 0
        exact Simulation.map fields Datum.product
    · exact absurd (.hook hook) part

end Read

/-! ## Whole readings -/

/-- A record is read by its fields, between what is noted at its begin and at its end. -/
theorem run_decodeRecord (cx : Codec) (dec : Decoder (Except Error)) (s : Scope) (ty : Ty)
    (fs : List Field) (o : Object) (a : Audit) :
    (decodeRecord cx dec s ty fs o).run a =
      ((decodeFields cx dec s ty o 0 fs).run (s.beginRecord a) >>= fun r =>
        .ok (.product r.1, s.endRecord o r.2)) := rfl

section Record

variable {cx : Codec} {o o' : Object} {name : String} {fs : List Field} {f : Field} (hf : f ∈ fs)
  (kept : f.skipped = false) (apart : f.inline = false) {limit limit' depth depth' : Nat}
  (strict : Bool)
include hf kept apart

/-- A record that has the key for a field's own notes the same at its end. -/
theorem endRecord_alikeBut (alike : o.AlikeBut f.key o') {a b : Audit} {ds : List Datum} {ty : Ty}
    (read : (decodeFields cx (decoder (cx.withDepth limit) depth) (.root strict) ty o 0 fs).run
      ((Scope.root strict).beginRecord a) = (.ok (ds, b) : Except Error (List Datum × Audit))) :
    (Scope.root strict).endRecord o b = (Scope.root strict).endRecord o' b := by
  cases strict with
  | false => rfl
  | true =>
    have notes := ((cx.withDepth limit).notesUnknown_decoder depth).decodeFields [] false ty o 0 fs
    rw [decodeFields_of_catalogue (cx.sameHooks_withDepth limit).catalogue] at notes
    obtain ⟨ks, qs, hk, -, rfl⟩ := notes _ ds b read
    have ends (p : Object) (b : Audit) : (Scope.root true).endRecord p b = b.closeLevel [] p := rfl
    rw [ends, ends]
    refine Audit.closeLevel_alikeBut alike _ [] fun keys outer levels => ?_
    cases levels
    exact List.mem_append_left _ ((hk f.key).mpr ⟨f, hf, kept, .inl ⟨apart, rfl⟩⟩)

variable (hook : cx.registry.decoder? (.named name) = none)
  (body : cx.catalogue.body? name = some (.record fs)) (plain : cx.PlainKey f.key (.named name))
include hook body plain

/-- Objects alike but for a key of the record are read alike, at one level more. -/
theorem cut_alikeBut (alike : o.AlikeBut f.key o') (deep : depth < depth') :
    (Simulation.cut limit).rel (cx.readObject limit depth (.root strict) (.named name) o)
      (cx.readObject limit' depth' (.root strict) (.named name) o') := by
  cases depth with
  | zero => exact fun _ => .inr rfl
  | succ depth =>
    obtain ⟨below, rfl⟩ : ∃ n, depth' = n + 1 := ⟨depth' - 1, by omega⟩
    have deep : depth < below := by omega
    have fields : (Simulation.cut limit).rel
        (decodeFields cx (decoder (cx.withDepth limit) depth) (.root strict) (.named name) o 0 fs)
        (decodeFields cx (decoder (cx.withDepth limit') below) (.root strict) (.named name) o' 0 fs) :=
      cut_decodeFields alike (.root strict) hook (Catalogue.below_record body) plain
        (fun t plain part => cut_inlined alike (.root strict) plain part deep) deep fs
        (List.Subset.refl fs) 0
    rw [readObject_record body hook, readObject_record body hook]
    intro a
    rw [run_decodeRecord, run_decodeRecord]
    rcases fields ((Scope.root strict).beginRecord a) with same | cut
    · rw [← same]
      rcases read : (decodeFields cx (decoder (cx.withDepth limit) depth) (.root strict) (.named name)
          o 0 fs).run ((Scope.root strict).beginRecord a) with e | ⟨ds, b⟩
      · exact .inl rfl
      · refine .inl ?_
        show Except.ok (Datum.product ds, (Scope.root strict).endRecord o b) =
          Except.ok (Datum.product ds, (Scope.root strict).endRecord o' b)
        rw [endRecord_alikeBut hf kept apart strict alike read]
    · rw [cut]
      exact .inr rfl

/-- Objects alike but for a key of the record are read alike from some limit on. -/
theorem eventually_alikeBut (alike : o.AlikeBut f.key o') (a : Audit) : ∃ least, ∀ limit ≥ least,
    (cx.readObject limit limit (.root strict) (.named name) o).run a =
      (cx.readObject limit limit (.root strict) (.named name) o').run a := by
  have cut {p p' : Object} (same : p.AlikeBut f.key p') limit limit' depth depth'
      (deep : depth < depth') :
      (cx.readObject limit depth (.root strict) (.named name) p).run a =
          (cx.readObject limit' depth' (.root strict) (.named name) p').run a ∨
        (cx.readObject limit depth (.root strict) (.named name) p).run a =
          .error (.depthExceeded limit) :=
    cut_alikeBut hf kept apart strict hook body plain same deep a
  apply eventually_alike 1 (cut (.refl alike.blank)) (cut alike)
  exact fun limit depth => cut alike.symm limit limit depth (depth + 1) depth.lt_succ_self

end Record

/-- A record without hook is read from an object as it is read from the tree. -/
theorem object_eq_readObject {cx : Codec} {name : String} {fs : List Field}
    (body : cx.catalogue.body? name = some (.record fs))
    (hook : cx.registry.decoder? (.named name) = none) (limit depth : Nat) (s : Scope) (o : Object) :
    (decoder (cx.withDepth limit) depth).object s (.named name) o =
      cx.readObject limit depth s (.named name) o := by
  cases depth with
  | zero => rfl
  | succ depth => rw [object_record body hook, readObject_record body hook]

/-- A key that is null was read as the zero of its field's type. -/
theorem zero_of_nullKey {cx : Codec} {name : String} {fs : List Field} {i : Nat} {f : Field}
    {o : Object} {strict : Bool} {w : Datum} (hook : cx.registry.decoder? (.named name) = none)
    (body : cx.catalogue.body? name = some (.record fs)) (hf : fs[i]? = some f)
    (kept : f.skipped = false) (apart : f.inline = false)
    (read : cx.fromTree strict (.named name) (.object o) = (.ok w : Except Error Datum))
    (null : o.find? f.key = some .null) :
    ∃ ws z, w = .product ws ∧ ws[i]? = some z ∧ cx.catalogue.zero f.ty = .ok z := by
  obtain ⟨ws, z, product, hz, depth, key⟩ := yields_key_of_fromTree hook body hf kept apart read
  obtain ⟨-, -, key⟩ := key.of_bind
  rw [null] at key
  cases depth with
  | zero => exact absurd key Yields.not_throw
  | succ depth => exact ⟨ws, z, product, hz, yields_null key⟩

end Codec

/-- A key that an object lacks is read as the zero of its field, and null under it as the zero of
the field's type. Where these are the same, and nothing that is inlined sees the object as a
whole, the object with null under the key is read as the object without it, strictly or not,
from some limit on: as the same datum or with the same error. -/
theorem null_key_is_missing (cx : Codec) {name : String} {fs : List Field}
    (hook : cx.registry.decoder? (.named name) = none)
    (body : cx.catalogue.body? name = some (.record fs)) {i : Nat} {f : Field}
    (hf : fs[i]? = some f) (kept : f.skipped = false) (apart : f.inline = false) {o : Object}
    (missing : o.find? f.key = none) :
    (∀ strict w, cx.fromTree strict (.named name) (.object o) = (.ok w : Except Error Datum) →
      ∃ ws z, w = .product ws ∧ ws[i]? = some z ∧ cx.catalogue.zeroField f = .ok z) ∧
    (∀ strict w, cx.fromTree strict (.named name) (.object (o.insert f.key .null)) =
        (.ok w : Except Error Datum) →
      ∃ ws z, w = .product ws ∧ ws[i]? = some z ∧ cx.catalogue.zero f.ty = .ok z) ∧
    (cx.PlainKey f.key (.named name) → ∃ least, ∀ limit ≥ least, ∀ strict,
      ((cx.withDepth limit).fromTree strict (.named name) (.object (o.insert f.key .null)) :
          Except Error Datum) =
        (cx.withDepth limit).fromTree strict (.named name) (.object o) ∧
      ((cx.withDepth limit).fromObject strict (.named name) (o.insert f.key .null) :
          Except Error Datum) =
        (cx.withDepth limit).fromObject strict (.named name) o) := by
  have present : (o.insert f.key .null).find? f.key = some .null := by
    rw [Object.find?_insert, if_pos rfl]
  refine ⟨fun strict w read => Codec.zeroField_of_missing hook body hf kept apart read missing,
    fun strict w read => Codec.zero_of_nullKey hook body hf kept apart read present, fun plain => ?_⟩
  have alike := Object.alikeBut_insert missing
  have member : f ∈ fs := List.mem_of_getElem? hf
  have settles strict :=
    Codec.eventually_alikeBut member kept apart strict hook body plain alike .empty
  choose least settles using settles
  refine ⟨max (least true) (least false), fun limit large strict => ?_⟩
  have same := settles strict limit (by cases strict <;> omega)
  have accepts : (cx.withDepth limit).acceptsObject (.named name) = true :=
    Codec.acceptsObject_of_record body
  constructor
  · exact Codec.build_congr same
  · rw [Codec.fromObject, Codec.fromObject, if_pos accepts, if_pos accepts]
    apply Codec.build_congr
    show ((Codec.decoder (cx.withDepth limit) limit).object _ _ _).run _ =
      ((Codec.decoder (cx.withDepth limit) limit).object _ _ _).run _
    rw [Codec.object_eq_readObject body hook, Codec.object_eq_readObject body hook, same]

/-- No field of a route has a default of its own, and what is inlined reaches records. -/
theorem Codec.plainKey_route (k : String) (ty : Ty) : Codec.route.PlainKey k ty where
  parts t at' hook fs layer f hf kept inline :=
    (inlinesRecords_route ty [] t at' hook fs layer f hf kept inline).not_takesWhole
  zeros t fs f _ _ layer hf _ _ _ := by
    obtain ⟨name, -, body⟩ := Catalogue.record_of_below layer
    obtain ⟨e, he, body⟩ := Catalogue.mem_of_body? body
    simp only [route, standard, Catalogue.route, List.mem_cons, List.not_mem_nil, or_false] at he
    rcases he with rfl | rfl <;> cases body <;>
      simp only [List.mem_cons, List.not_mem_nil, or_false] at hf
    · rcases hf with rfl | rfl <;> rfl
    · rcases hf with rfl | rfl | rfl | rfl <;> rfl

/-- A stop for which the next one is null is read as a stop without a next one, though it has a
key that no stop has. -/
theorem null_key_is_missing_stop :
    let o : Object := [("label", .string "a"), ("x", .int 1), ("z", .int 2)]
    let o' : Object := [("label", .string "a"), ("next", .null), ("x", .int 1), ("z", .int 2)]
    Codec.route.PlainKey "next" (.named "stop") ∧
    ∃ least, ∀ limit ≥ least, ∀ strict,
      ((Codec.route.withDepth limit).fromTree strict (.named "stop") (.object o') :
          Except Error Datum) =
        (Codec.route.withDepth limit).fromTree strict (.named "stop") (.object o) := by
  intro o o'
  have plain := Codec.plainKey_route "next" (.named "stop")
  have body : Catalogue.route.body? "stop" =
    some (.record (Catalogue.route.fields (.named "stop"))) := rfl
  have missing : o.find? "next" = none := rfl
  have filled : o.insert "next" .null = o' := rfl
  obtain ⟨-, -, alike⟩ :=
    null_key_is_missing Codec.route rfl body (i := 3) rfl rfl rfl missing
  obtain ⟨least, same⟩ := alike plain
  refine ⟨plain, least, fun limit large strict => ?_⟩
  rw [← filled]
  exact (same limit large strict).1

/-- A count that is null is read as none, and a missing one as five, however deep the codec goes. -/
theorem null_form_differs :
    Registry.initial.decoder? (.named "form") = none ∧ ∀ maxDepth, 2 ≤ maxDepth → ∀ strict,
      let cx : Codec := ⟨.forms, .initial, maxDepth⟩
      cx.fromTree strict (.named "form") (.object [("count", .null)]) =
          (.ok (.product [.int 0, .absent, .wrapped (.int 1)]) : Except Error Datum) ∧
        cx.fromTree strict (.named "form") (.object []) =
          (.ok (.product [.int 5, .absent, .wrapped (.int 1)]) : Except Error Datum) := by
  refine ⟨rfl, fun maxDepth deep strict => ?_⟩
  obtain ⟨k, rfl⟩ := Nat.exists_eq_add_of_le' deep
  cases strict <;> exact ⟨rfl, rfl⟩

end TreeCodec
