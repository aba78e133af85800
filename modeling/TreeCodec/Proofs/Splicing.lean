import TreeCodec.Proofs.DepthLimit
import TreeCodec.Proofs.Reading
import TreeCodec.Proofs.Writing

/-!
# Inlining is splicing

A record that inlines records without hooks converts as the record does that has their
fields in the place of the inlined ones.

* `Splicing`: how the fields of a record are spliced, record by record, to any depth;
* `Splicing.data`: the same members, regrouped, and none of them lost (`Splicing.data_injective`);
* `Splicing.encodeFields_eq`: both records put the same entries into their objects;
* `Splicing.rel_decodeRecord`: both records are read alike, but for the depth that inlined
  records take.
-/

namespace TreeCodec

/-- A declared record that no hook converts. -/
structure Codec.PlainRecord (cx : Codec) (name : String) (fs : List Field) : Prop where
  body : cx.catalogue.body? name = some (.record fs)
  encoder : cx.registry.encoder? (.named name) = none
  decoder : cx.registry.decoder? (.named name) = none

/-- A field that inlines a record without hook. -/
structure Codec.Inlines (cx : Codec) (f : Field) (gs : List Field) : Prop where
  kept : f.skipped = false
  inline : f.inline = true
  record : ∃ name, f.ty = .named name ∧ cx.PlainRecord name gs

/-- How fields are spliced. What could be spliced may stay, so a record spliced in full is
one case of several. -/
inductive Splicing (cx : Codec) : List Field → List Field → Type
  | nil : Splicing cx [] []
  /-- A field stays as it is. -/
  | keep (f : Field) {fs fs' : List Field} (rest : Splicing cx fs fs') :
    Splicing cx (f :: fs) (f :: fs')
  /-- The fields of an inlined record, spliced themselves, take the place of the field. -/
  | splice {f : Field} {gs gs' fs fs' : List Field} (inlined : cx.Inlines f gs)
    (inner : Splicing cx gs gs') (rest : Splicing cx fs fs') : Splicing cx (f :: fs) (gs' ++ fs')

namespace Splicing

variable {cx : Codec} {fs fs' : List Field}

/-- The members of a record after its fields were spliced. -/
def data {fs fs' : List Field} : Splicing cx fs fs' → List Datum → List Datum
  | .keep _ rest, d :: ds => d :: rest.data ds
  | .splice _ inner rest, .product es :: ds => inner.data es ++ rest.data ds
  | _, ds => ds

@[simp] theorem data_keep {f : Field} (rest : Splicing cx fs fs') (d : Datum) (ds : List Datum) :
    (keep f rest).data (d :: ds) = d :: rest.data ds := rfl

@[simp] theorem data_splice {f : Field} {gs gs' : List Field} (inlined : cx.Inlines f gs)
    (inner : Splicing cx gs gs') (rest : Splicing cx fs fs') (es ds : List Datum) :
    (splice inlined inner rest).data (.product es :: ds) = inner.data es ++ rest.data ds := rfl

/-- The members of a record have the types of its fields after these were spliced. -/
theorem hasTypes_data (p : Splicing cx fs fs') {ds : List Datum}
    (typed : HasTypes cx.catalogue (fs.map Field.ty) ds) :
    HasTypes cx.catalogue (fs'.map Field.ty) (p.data ds) := by
  induction p generalizing ds with
  | nil => exact typed
  | keep f rest ih =>
    cases typed with
    | cons h hs => exact .cons h (ih hs)
  | @splice f gs gs' fs fs' inlined inner rest innerData restData =>
    obtain ⟨name, named, record⟩ := inlined.record
    cases typed with
    | cons h hs =>
      rw [named] at h
      obtain ⟨es, rfl, members⟩ := h.record_inv record.body
      rw [List.map_append]
      exact (innerData members).append (restData hs)

/-- Splicing loses no member. -/
theorem data_injective (p : Splicing cx fs fs') {ds es : List Datum}
    (typed : HasTypes cx.catalogue (fs.map Field.ty) ds)
    (typed' : HasTypes cx.catalogue (fs.map Field.ty) es) (h : p.data ds = p.data es) : ds = es := by
  induction p generalizing ds es with
  | nil => exact h
  | keep f rest ih =>
    cases typed with
    | cons _ hs =>
      cases typed' with
      | cons _ hs' =>
        rw [data_keep, data_keep] at h
        obtain ⟨rfl, same⟩ := List.cons.inj h
        rw [ih hs hs' same]
  | @splice f gs gs' fs fs' inlined inner rest innerData restData =>
    obtain ⟨name, named, record⟩ := inlined.record
    cases typed with
    | cons hd hs =>
      cases typed' with
      | cons hd' hs' =>
        rw [named] at hd hd'
        obtain ⟨ms, rfl, members⟩ := hd.record_inv record.body
        obtain ⟨ms', rfl, members'⟩ := hd'.record_inv record.body
        have lengths := (inner.hasTypes_data members).length_eq.symm.trans
          (inner.hasTypes_data members').length_eq
        rw [data_splice, data_splice] at h
        obtain ⟨same, same'⟩ := List.append_inj h lengths
        rw [innerData members members' same, restData hs hs' same']

/-- The datum of a record after its fields were spliced. -/
def datum (p : Splicing cx fs fs') : Datum → Datum
  | .product ds => .product (p.data ds)
  | d => d

/-- How many inlined records are spliced within one another. -/
def depth {fs fs' : List Field} : Splicing cx fs fs' → Nat
  | .nil => 0
  | .keep _ rest => rest.depth
  | .splice _ inner rest => max (inner.depth + 1) rest.depth

end Splicing

namespace Codec

/-! ## Reading -/

/-- How an object is read at a depth and under a limit. -/
def readObject (cx : Codec) (limit depth : Nat) (s : Scope) (ty : Ty) (o : Object) :
    StateT Audit (Except Error) Datum :=
  (decoder (cx.withDepth limit) depth).tree s ty (.object o)

section Read

variable {cx : Codec} {dec : Decoder (Except Error)} {s : Scope} {o : Object}

/-- An inlined record is read as its fields are. -/
theorem decodeRecord_inline (ty : Ty) (fs : List Field) :
    decodeRecord cx dec s.inline ty fs o = (do
      let ds ← decodeFields cx dec s ty o 0 fs
      return .product ds) := by
  have closed : s.inline.opensLevel = false := Bool.and_false _
  have begins : modify s.inline.beginRecord = (pure ⟨⟩ : StateT Audit (Except Error) PUnit) := by
    funext a
    show Except.ok (PUnit.unit, s.inline.beginRecord a) = Except.ok (PUnit.unit, a)
    rw [Scope.beginRecord, closed]
    rfl
  have ends : modify (s.inline.endRecord o) = (pure ⟨⟩ : StateT Audit (Except Error) PUnit) := by
    funext a
    show Except.ok (PUnit.unit, s.inline.endRecord o a) = Except.ok (PUnit.unit, a)
    rw [Scope.endRecord, closed]
    rfl
  have fields : decodeFields cx dec s.inline ty o 0 fs = decodeFields cx dec s ty o 0 fs :=
    decodeFields_anywhere (show s.inline.inline = s.inline from rfl) ty ty 0 0 fs
  rw [decodeRecord, begins, ends, fields]
  simp only [pure_bind]

variable {name : String} {fs : List Field} (body : cx.catalogue.body? name = some (.record fs))
  (hook : cx.registry.decoder? (.named name) = none) (limit depth : Nat)
include body hook

theorem readObject_record :
    cx.readObject limit (depth + 1) s (.named name) o =
      decodeRecord cx (decoder (cx.withDepth limit) depth : Decoder (Except Error)) s (.named name) fs o := by
  rw [readObject, decoder_succ, decodeStep_withDepth]
  simp only [decodeStep, hook, decodeLayer, body, decodeDeclared]

theorem object_record :
    (decoder (cx.withDepth limit) (depth + 1)).object s (.named name) o =
      decodeRecord cx (decoder (cx.withDepth limit) depth : Decoder (Except Error)) s (.named name) fs o := by
  rw [decoder_succ, decodeObjectStep_withDepth]
  simp only [decodeObjectStep, hook, decodeObjectLayer, body]

end Read

end Codec

namespace Splicing

variable {cx : Codec} {fs fs' : List Field}

/-- Spliced fields are read as the fields before they were spliced, in a relation that the
fields which stay keep and in which the limit is below all readings if it can be met. -/
theorem rel_decodeFields {sim : Simulation (Except Error) (Except Error)}
    (here : ∀ s, sim.place s s) (knows : ∀ ty i f, sim.knows ty i f) (p : Splicing cx fs fs')
    (limit depth : Nat) {dec : Decoder (Except Error)}
    (agree : ∀ k ≤ p.depth, sim.Agree (Codec.decoder (cx.withDepth limit) (depth - k)) dec)
    (bottom : depth < p.depth → ∀ x : StateT Audit (Except Error) (List Datum),
      sim.rel (throw (.depthExceeded limit)) x)
    (s : Scope) (ty ty' : Ty) (o : Object) (i i' : Nat) :
    sim.rel (p.data <$> Codec.decodeFields cx (Codec.decoder (cx.withDepth limit) depth) s ty o i fs)
      (Codec.decodeFields cx dec s ty' o i' fs') := by
  induction p generalizing depth ty i i' with
  | nil => exact sim.rel_pure []
  | keep f rest ih =>
    have field := Simulation.decodeField cx (agree 0 (Nat.zero_le _)) (here s) o (knows ty i f)
    have fields := ih depth agree bottom ty (i + 1) (i' + 1)
    have both := sim.rel_bind field fun d => Simulation.map fields (d :: ·)
    simp only [map_eq_pure_bind, bind_assoc, pure_bind] at both
    simp only [Codec.decodeFields, map_eq_pure_bind, bind_assoc, pure_bind]
    exact both
  | @splice f gs gs' fs fs' inlined inner rest innerFields restFields =>
    obtain ⟨name, named, record⟩ := inlined.record
    rw [Splicing.depth] at agree bottom
    -- Before splicing, the inlined record is a layer of its own, which may meet the limit.
    simp only [Codec.decodeFields, Codec.decodeField_inlined inlined.kept inlined.inline, named]
    cases depth with
    | zero => exact bottom (by omega) _
    | succ depth =>
      have first := innerFields depth (fun k hk => by simpa using agree (k + 1) (by omega))
        (fun low => bottom (by omega)) (.named name) 0 i'
      have later := restFields (depth + 1) (fun k hk => agree k (by omega))
        (fun low => bottom (by omega)) ty (i + 1) i'
      have both := sim.rel_bind first fun es => Simulation.map later (es ++ ·)
      rw [Codec.object_record record.body record.decoder, Codec.decodeRecord_inline, Codec.decodeFields_append]
      simp only [map_eq_pure_bind, bind_assoc, pure_bind] at both ⊢
      exact both

theorem rel_decodeRecord {sim : Simulation (Except Error) (Except Error)}
    (here : ∀ s, sim.place s s) (knows : ∀ ty i f, sim.knows ty i f) (p : Splicing cx fs fs')
    (limit depth : Nat) {dec : Decoder (Except Error)}
    (agree : ∀ k ≤ p.depth, sim.Agree (Codec.decoder (cx.withDepth limit) (depth - k)) dec)
    (bottom : depth < p.depth → ∀ x : StateT Audit (Except Error) (List Datum),
      sim.rel (throw (.depthExceeded limit)) x)
    (s : Scope) (ty ty' : Ty) (o : Object) :
    sim.rel (p.datum <$> Codec.decodeRecord cx (Codec.decoder (cx.withDepth limit) depth) s ty fs o)
      (Codec.decodeRecord cx dec s ty' fs' o) := by
  have fields := rel_decodeFields here knows p limit depth agree bottom s ty ty' o 0 0
  have whole := sim.rel_bind (sim.rel_beginRecord (here s)) fun _ =>
    sim.rel_bind fields fun ds =>
      sim.rel_bind (sim.rel_endRecord o (here s)) fun _ => sim.rel_pure (Datum.product ds)
  simp only [map_eq_pure_bind, bind_assoc, pure_bind] at whole
  simp only [Codec.decodeRecord, map_eq_pure_bind, bind_assoc, pure_bind]
  exact whole

/-! ### Within a limit -/

section Limits

variable {name name' : String} (record : cx.PlainRecord name fs) (record' : cx.PlainRecord name' fs')
  (p : Splicing cx fs fs') (s : Scope) (o : Object)
include record record'

/-- What the limit does not cut is read alike after the fields were spliced. -/
theorem cut_spliced (limit limit' : Nat) {depth depth' : Nat} (h : depth ≤ depth') :
    (Simulation.cut limit).rel (p.datum <$> cx.readObject limit depth s (.named name) o)
      (cx.readObject limit' depth' s (.named name') o) := by
  cases depth with
  | zero => exact fun _ => .inr rfl
  | succ depth =>
    obtain ⟨below, rfl⟩ : ∃ n, depth' = n + 1 := ⟨depth' - 1, by omega⟩
    rw [Codec.readObject_record record.body record.decoder,
      Codec.readObject_record record'.body record'.decoder]
    refine rel_decodeRecord (fun _ => rfl) (fun _ _ _ => trivial) p limit depth (fun k _ => ?_)
      (fun _ _ _ => .inr rfl) s _ _ o
    exact Codec.cut_decoder cx limit limit' (by omega)

/-- What the limit does not cut after the fields were spliced is read alike before, given
the depth that inlined records take. -/
theorem cut_unspliced (limit limit' depth : Nat) :
    (Simulation.cut limit).rel (cx.readObject limit depth s (.named name') o)
      (p.datum <$> cx.readObject limit' (depth + p.depth) s (.named name) o) := by
  cases depth with
  | zero => exact fun _ => .inr rfl
  | succ depth =>
    rw [Nat.add_right_comm, Codec.readObject_record record.body record.decoder,
      Codec.readObject_record record'.body record'.decoder]
    have agree k (hk : k ≤ p.depth) := (Codec.cut_decoder cx limit limit'
      (show depth ≤ depth + p.depth - k by omega)).flip
    exact rel_decodeRecord (fun _ => rfl) (fun _ _ _ => trivial) p limit' (depth + p.depth) agree
      (fun low => by omega) s (.named name) (.named name') o

/-- From some limit on, records are read alike before and after their fields were spliced:
a reading that no limit lets pass is cut on both sides. -/
theorem eventually_spliced (a : Audit) : ∃ least, ∀ limit ≥ least,
    (cx.readObject limit limit s (.named name') o).run a =
      (p.datum <$> cx.readObject limit limit s (.named name) o).run a := by
  let whole limit depth := (p.datum <$> cx.readObject limit depth s (.named name) o).run a
  let spliced limit depth := (cx.readObject limit depth s (.named name') o).run a
  have deeper limit limit' depth depth' (h : depth + p.depth ≤ depth') :
      whole limit depth = whole limit' depth' ∨ whole limit depth = .error (.depthExceeded limit) := by
    have read : (Simulation.cut limit).rel (cx.readObject limit depth s (.named name) o)
        (cx.readObject limit' depth' s (.named name) o) :=
      (Codec.cut_decoder cx limit limit' (by omega)).tree rfl (.named name) (.object o)
    simpa only [bind_pure_comp] using Simulation.map read p.datum a
  have forth limit limit' depth depth' (h : depth + p.depth ≤ depth') :
      whole limit depth = spliced limit' depth' ∨ whole limit depth = .error (.depthExceeded limit) :=
    cut_spliced record record' p s o limit limit' (by omega) a
  have back limit depth := cut_unspliced record record' p s o limit limit depth a
  obtain ⟨least, same⟩ := Codec.eventually_alike p.depth deeper forth back
  exact ⟨least, fun limit large => (same limit large).symm⟩

end Limits

end Splicing

/-! ## Writing -/

namespace Codec

variable {cx : Codec} {name : String} {fs : List Field} (record : cx.PlainRecord name fs)
include record

/-- A record is written as the object that its fields fill. -/
theorem encode_record (depth : Nat) (ds : List Datum) :
    (encode cx (depth + 1) (.named name) (.product ds) : Except Error Tree) =
      (do
        let o ← encodeFields cx (encode cx depth) (.named name) 0 fs ds []
        return .object o) := by
  rw [encode, encodeStep, record.encoder]
  simp only [encodeLayer, record.body, encodeDeclared]

/-- Records are not left out while they are empty. -/
theorem isZero_record (ds : List Datum) : cx.catalogue.isZero (.named name) (.product ds) = false := by
  have plain : cx.catalogue.isTransparent (.named name) = false := by
    simp [Catalogue.isTransparent, Catalogue.inner?, record.body]
  rw [Catalogue.isZero, plain]
  rfl

end Codec

/-- An inlined record puts into an object what its fields put there. -/
theorem Codec.encodeField_inlined {cx : Codec} {f : Field} {name : String} {gs : List Field}
    (kept : f.skipped = false) (inline : f.inline = true) (named : f.ty = .named name)
    (record : cx.PlainRecord name gs) {depth : Nat} {es : List Datum}
    (low : (Datum.product es).height ≤ depth) {o : Object} (sorted : o.Sorted) (ty : Ty) (i : Nat) :
    (encodeField cx (encode cx depth) ty i f (.product es) o : Except Error Object) =
      encodeFields cx (encode cx depth) (.named name) 0 gs es o := by
  have positive := (Datum.product es).height_pos
  obtain ⟨below, rfl⟩ : ∃ n, depth = n + 1 := ⟨depth - 1, by omega⟩
  have parts : (encodeFields cx (encode cx below) (.named name) 0 gs es [] : Except Error Object) =
      encodeFields cx (encode cx (below + 1)) (.named name) 0 gs es [] := by
    refine encodeFields_congr cx _ 0 gs es [] fun e he t => ?_
    have lower := Datum.height_lt_product he
    exact encode_of_height_le cx t e (by omega) (by omega)
  rw [encodeField_eq, contribution, kept, named, isZero_record record, encode_record record, parts,
    encodeFields_eq, encodeFields_eq, Bool.and_false]
  rcases cx.contributions (encode cx (below + 1)) (.named name) gs es with e | entries
  · rfl
  · show (entriesOf f (.object (Object.ofList entries))).map o.extend = .ok (o.extend entries)
    rw [entriesOf_inlined inline]
    exact congrArg Except.ok (sorted.extend_ofList entries)

namespace Splicing

variable {cx : Codec} {fs fs' : List Field}

/-- Spliced fields are written as the fields before they were spliced. -/
theorem encodeFields_eq (p : Splicing cx fs fs') {ds : List Datum}
    (typed : HasTypes cx.catalogue (fs.map Field.ty) ds) {depth : Nat} (low : Datum.heights ds ≤ depth)
    {o : Object} (sorted : o.Sorted) (ty ty' : Ty) (i i' : Nat) :
    (Codec.encodeFields cx (Codec.encode cx depth) ty i fs ds o : Except Error Object) =
      Codec.encodeFields cx (Codec.encode cx depth) ty' i' fs' (p.data ds) o := by
  induction p generalizing ds o ty i i' with
  | nil =>
    cases typed
    rfl
  | keep f rest ih =>
    cases typed with
    | @cons t ts d ds h hs =>
      rw [Datum.heights, Nat.max_le] at low
      rw [data_keep, Codec.encodeFields, Codec.encodeFields, Codec.encodeField_eq, Codec.encodeField_eq]
      rcases cx.contribution (Codec.encode cx depth) f d with e | es
      · rfl
      · exact ih hs low.2 (sorted.extend es) ty (i + 1) (i' + 1)
  | @splice f gs gs' fs fs' inlined inner rest innerFields restFields =>
    obtain ⟨name, named, record⟩ := inlined.record
    cases typed with
    | @cons t ts d ds h hs =>
      rw [named] at h
      obtain ⟨es, rfl, members⟩ := h.record_inv record.body
      rw [Datum.heights, Nat.max_le] at low
      have lengths := (inner.hasTypes_data members).length_eq
      rw [List.length_map] at lengths
      have below : Datum.heights es ≤ depth := by
        have := low.1
        rw [Datum.height] at this
        omega
      rw [data_splice, Codec.encodeFields_append _ _ _ _ _ lengths, Codec.encodeFields,
        Codec.encodeField_inlined inlined.kept inlined.inline named record low.1 sorted,
        innerFields members below sorted (.named name) 0 i']
      rcases ho : Codec.encodeFields cx (Codec.encode cx depth) ty' i' gs' (inner.data es) o with e | o'
      · rfl
      · exact restFields hs low.2 (Codec.sorted_encodeFields _ _ sorted ho) ty (i + 1) i'

/-! ## Whole conversions -/

section Whole

variable {name name' : String} (record : cx.PlainRecord name fs) (record' : cx.PlainRecord name' fs')
include record record'

theorem hasType_datum (p : Splicing cx fs fs') {d : Datum} (typed : HasType cx.catalogue (.named name) d) :
    HasType cx.catalogue (.named name') (p.datum d) := by
  obtain ⟨ds, rfl, members⟩ := typed.record_inv record.body
  exact .record record'.body (p.hasTypes_data members)

omit record' in
/-- Records are told apart after their fields were spliced. -/
theorem datum_injective (p : Splicing cx fs fs') {d e : Datum}
    (typed : HasType cx.catalogue (.named name) d) (typed' : HasType cx.catalogue (.named name) e)
    (h : p.datum d = p.datum e) : d = e := by
  obtain ⟨ds, rfl, members⟩ := typed.record_inv record.body
  obtain ⟨es, rfl, members'⟩ := typed'.record_inv record.body
  rw [p.data_injective members members' (Datum.product.inj h)]

/-- Records become the same tree before and after their fields were spliced. -/
theorem toTree_datum (p : Splicing cx fs fs') {d : Datum} (typed : HasType cx.catalogue (.named name) d)
    (deep : d.height ≤ cx.maxDepth) :
    (cx.toTree (.named name) d : Except Error Tree) = cx.toTree (.named name') (p.datum d) := by
  obtain ⟨ds, rfl, members⟩ := typed.record_inv record.body
  rw [Datum.height] at deep
  obtain ⟨below, hb⟩ : ∃ n, cx.maxDepth = n + 1 := ⟨cx.maxDepth - 1, by omega⟩
  have low : Datum.heights ds ≤ below := by omega
  have sorted : Object.Sorted [] := List.Pairwise.nil
  show Codec.encode cx cx.maxDepth (.named name) (.product ds) =
    (Codec.encode cx cx.maxDepth (.named name') (.product (p.data ds)) : Except Error Tree)
  rw [hb, Codec.encode_record record, Codec.encode_record record',
    p.encodeFields_eq members low sorted (.named name) (.named name') 0 0]

variable (free : ∀ d, cx.catalogue.invariant (.named name) d = true)
  (free' : ∀ d, cx.catalogue.invariant (.named name') d = true) (strict : Bool) (o : Object)
include free free'

/-- Records whose reading the limit does not cut are read alike after their fields were
spliced. -/
theorem fromTree_of_uncut (p : Splicing cx fs fs')
    (uncut : (cx.fromTree strict (.named name) (.object o) : Except Error Datum) ≠
      .error (.depthExceeded cx.maxDepth)) :
    (cx.fromTree strict (.named name') (.object o) : Except Error Datum) =
      p.datum <$> cx.fromTree strict (.named name) (.object o) := by
  have readings := cut_spliced record record' p (.root strict) o cx.maxDepth cx.maxDepth
    (Nat.le_refl cx.maxDepth) .empty
  rcases readings with same | cut
  · exact (Codec.build_congr same.symm).trans
      (Codec.build_map cx fun d a _ => (free' _).trans (free d).symm)
  · have failed : (cx.readObject cx.maxDepth cx.maxDepth (.root strict) (.named name) o).run .empty =
        .error (.depthExceeded cx.maxDepth) := by
      rw [StateT.run_map] at cut
      rcases hx : (cx.readObject cx.maxDepth cx.maxDepth (.root strict) (.named name) o).run .empty with
        e | ⟨d, a⟩ <;> rw [hx] at cut <;> cases cut
      rfl
    exact absurd (Codec.build_error failed) uncut

end Whole

end Splicing

/-- Inlining is splicing. The records of a type without hook are written as those of the
type in which inlined records are spliced, where no two of them become one. An object is read
as the one as it is read as the other, failures and reports included: at every limit that does
not cut the reading, and from some limit on in any case. -/
theorem inlining_is_splicing {cx : Codec} {name name' : String} {fs fs' : List Field}
    (record : cx.PlainRecord name fs) (record' : cx.PlainRecord name' fs')
    (free : ∀ d, cx.catalogue.invariant (.named name) d = true)
    (free' : ∀ d, cx.catalogue.invariant (.named name') d = true) (p : Splicing cx fs fs') :
    (∀ d, HasType cx.catalogue (.named name) d →
      HasType cx.catalogue (.named name') (p.datum d) ∧
      (d.height ≤ cx.maxDepth →
        (cx.toTree (.named name) d : Except Error Tree) = cx.toTree (.named name') (p.datum d)) ∧
      ∀ e, HasType cx.catalogue (.named name) e → p.datum d = p.datum e → d = e) ∧
    (∀ o strict,
      (cx.fromTree strict (.named name) (.object o) : Except Error Datum) ≠
        .error (.depthExceeded cx.maxDepth) →
      (cx.fromTree strict (.named name') (.object o) : Except Error Datum) =
        p.datum <$> cx.fromTree strict (.named name) (.object o)) ∧
    ∀ o, ∃ least, ∀ limit ≥ least, ∀ strict,
      ((cx.withDepth limit).fromTree strict (.named name') (.object o) : Except Error Datum) =
        p.datum <$> (cx.withDepth limit).fromTree strict (.named name) (.object o) := by
  refine ⟨fun d typed => ?_, fun o strict uncut => ?_, fun o => ?_⟩
  · exact ⟨p.hasType_datum record record' typed, p.toTree_datum record record' typed,
      fun e => p.datum_injective record typed⟩
  · exact p.fromTree_of_uncut record record' free free' strict o uncut
  · obtain ⟨lax, hlax⟩ := p.eventually_spliced record record' (.root false) o .empty
    obtain ⟨strict, hstrict⟩ := p.eventually_spliced record record' (.root true) o .empty
    refine ⟨max lax strict, fun limit large b => ?_⟩
    have same : (cx.readObject limit limit (.root b) (.named name') o).run .empty =
        (p.datum <$> cx.readObject limit limit (.root b) (.named name) o).run .empty := by
      cases b
      · exact hlax limit (by omega)
      · exact hstrict limit (by omega)
    exact (Codec.build_congr same).trans
      (Codec.build_map (cx.withDepth limit) fun d a _ => (free' _).trans (free d).symm)

/-- A pin inlines a mark, and that a point; a flat pin has the fields of both for its own.
Both labels stand under one key. -/
def Catalogue.pins : Catalogue where
  decls :=
    [("point", { body := .record [{ key := "x", ty := .int .int64 }, { key := "y", ty := .int .int64 }] }),
      ("mark", { body := .record [
        { key := "label", ty := .string },
        { key := "at", ty := .named "point", inline := true }] }),
      ("pin", { body := .record [
        { key := "mark", ty := .named "mark", inline := true },
        { key := "label", ty := .string }] }),
      ("flat pin", { body := .record [
        { key := "label", ty := .string },
        { key := "x", ty := .int .int64 },
        { key := "y", ty := .int .int64 },
        { key := "label", ty := .string }] })]

/-- The standard codec of pins. -/
def Codec.pins : Codec := .standard .pins

theorem Codec.plainRecord_pins {name : String} {fs : List Field}
    (body : Catalogue.pins.body? name = some (.record fs)) : Codec.pins.PlainRecord name fs :=
  ⟨body, Registry.encoder?_initial nofun, Registry.decoder?_initial nofun⟩

/-- A pin without what it inlines. -/
def Splicing.pin : Splicing .pins (Catalogue.pins.fields (.named "pin"))
    (Catalogue.pins.fields (.named "flat pin")) :=
  have mark : Codec.pins.Inlines { key := "mark", ty := .named "mark", inline := true }
      (Catalogue.pins.fields (.named "mark")) := ⟨rfl, rfl, "mark", rfl, Codec.plainRecord_pins rfl⟩
  have point : Codec.pins.Inlines { key := "at", ty := .named "point", inline := true }
      (Catalogue.pins.fields (.named "point")) := ⟨rfl, rfl, "point", rfl, Codec.plainRecord_pins rfl⟩
  .splice mark (.keep _ (.splice point (.keep _ (.keep _ .nil)) .nil)) (.keep _ .nil)

/-- A pin whose mark has another label, and an object with a key that no pin has. -/
theorem inlining_is_splicing_pin :
    let pin := Datum.product [.product [.text "m", .product [.int 1, .int 2]], .text "p"]
    let flat := Datum.product [.text "m", .int 1, .int 2, .text "p"]
    let o : Object := [("label", .string "p"), ("x", .int 1), ("z", .null)]
    (HasType .pins (.named "pin") pin ∧ pin.height ≤ Codec.pins.maxDepth ∧
      (Codec.pins.toTree (.named "pin") pin : Except Error Tree) =
        Codec.pins.toTree (.named "flat pin") flat) ∧
    (Codec.pins.fromTree true (.named "pin") (.object o) : Except Error Datum) ≠
        .error (.depthExceeded Codec.pins.maxDepth) ∧
      (Codec.pins.fromTree true (.named "flat pin") (.object o) : Except Error Datum) =
        Splicing.pin.datum <$> Codec.pins.fromTree true (.named "pin") (.object o) := by
  intro pin flat o
  have record : Codec.pins.PlainRecord "pin" _ := Codec.plainRecord_pins rfl
  have record' : Codec.pins.PlainRecord "flat pin" _ := Codec.plainRecord_pins rfl
  obtain ⟨writes, reads, -⟩ :=
    inlining_is_splicing record record' (fun _ => rfl) (fun _ => rfl) Splicing.pin
  have point : HasType .pins (.named "point") (.product [.int 1, .int 2]) :=
    .record rfl (.cons (.int rfl) (.cons (.int rfl) .nil))
  have mark : HasType .pins (.named "mark") (.product [.text "m", .product [.int 1, .int 2]]) :=
    .record rfl (.cons (.string _) (.cons point .nil))
  have typed : HasType .pins (.named "pin") pin := .record rfl (.cons mark (.cons (.string _) .nil))
  have deep : pin.height ≤ Codec.pins.maxDepth := by decide
  have uncut : (Codec.pins.fromTree true (.named "pin") (.object o) : Except Error Datum) ≠
      .error (.depthExceeded Codec.pins.maxDepth) := nofun
  exact ⟨⟨typed, deep, (writes pin typed).2.1 deep⟩, uncut, reads o true uncut⟩

end TreeCodec
