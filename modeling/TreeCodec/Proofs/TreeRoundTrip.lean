import TreeCodec.Proofs.UnknownKeys
import TreeCodec.Proofs.WritingBack

/-!
# Trees come back from their data

An exact tree that is read as a datum of a lossless type whose records leave no field out
is what the datum is written as (`toTree_fromTree`). The proof is by the depth of the
reading: if what is below is written back (`Codec.Rewrites`), so is the layer
(`Codec.Rewrites.step`).
-/

namespace TreeCodec

namespace Codec

variable {cx : Codec}

/-- A decoder whose readings of exact trees are written back, as the types of a set. -/
structure Rewrites (cx : Codec) (dec : Decoder (Except Error)) (L : Ty → Prop) : Prop where
  tree {s : Scope} {ty : Ty} {x : Tree} {d : Datum} {p : Path} (h : L ty) (exact : cx.Exact ty x p)
    (read : Yields (dec.tree s ty x) d) : cx.Writes ty d x
  part {s : Scope} {ty : Ty} {o : Object} {d : Datum} {p : Path} (h : L ty)
    (record : cx.catalogue.ReachesRecord ty) (exact : cx.ExactPart ty o p)
    (read : Yields (dec.object s ty o) d) : cx.WritesPart ty d o

namespace Rewrites

variable {L : Ty → Prop} {dec : Decoder (Except Error)} {s : Scope} {p : Path}
  (hd : cx.Rewrites dec L)
include hd

theorem items {i : Nat} {ts : List Ty} {xs : List Tree} {ds : List Datum} (h : ∀ t ∈ ts, L t)
    (length : xs.length = ts.length)
    (exact : ∀ (j : Nat) (t : Ty) (x : Tree), ts[j]? = some t → xs[j]? = some x →
      ∃ p, cx.Exact t x p)
    (read : Yields (decodeItems dec s i ts xs) ds) : cx.WritesItems ts ds xs := by
  induction ts generalizing i xs ds with
  | nil =>
    obtain rfl := List.length_eq_zero_iff.mp length
    obtain rfl := Yields.of_pure read
    exact .nil
  | cons t ts ih =>
    cases xs with
    | nil => cases length
    | cons x xs =>
      obtain ⟨d, first, read⟩ := read.of_bind
      obtain ⟨ds, rfl, rest⟩ := read.of_map
      obtain ⟨q, head⟩ := exact 0 t x rfl rfl
      rw [List.forall_mem_cons] at h
      exact .cons (hd.tree h.1 head first)
        (ih h.2 (Nat.succ.inj length) (fun j => exact (j + 1)) rest)

theorem entries {key value : Ty} {names : List String} {o : Object} {es : List (Datum × Datum)}
    (text : cx.catalogue.TextKey names key) (h : L value)
    (exact : ∀ k x, (k, x) ∈ o → ∃ p, cx.Exact value x p)
    (read : Yields (decodeEntries cx dec s key value o) es) :
    List.Forall₂ (cx.WritesEntry key value) o es := by
  have all := (List.forall₂_and_left o es).mpr
    ⟨fun p (hp : p ∈ o) => exact p.1 p.2 hp, yields_entries read⟩
  refine all.imp fun p e ⟨⟨q, head⟩, spelled, first⟩ => ?_
  exact ⟨text.text?_of_keyOf spelled, hd.tree h head first⟩

theorem field {ty : Ty} {o : Object} {fs : List Field} {i : Nat} {f : Field} {d : Datum}
    (exact : cx.ExactPart ty o p) (hook : cx.registry.decoder? ty = none)
    (layer : cx.catalogue.below ty = .record fs) (hf : f ∈ fs) (h : L f.ty)
    (kept : f.skipped = false) (full : f.omitEmpty = false)
    (inlined : f.inline = true → cx.catalogue.ReachesRecord f.ty)
    (read : Yields (decodeField cx dec s ty o i f) d) : cx.WritesField f d o := by
  have contributes (limit depth : Nat) (e : Datum) :
      (cx.withDepth limit).contribution (encode (cx.withDepth limit) depth) f e =
        encode (cx.withDepth limit) depth f.ty e >>= entriesOf f := by
    rw [contribution, kept, full]
    rfl
  rcases inline : f.inline with _ | _
  · obtain ⟨x, hx, below⟩ := exact.field hook layer hf kept inline
    rw [decodeField_apart kept inline, decodeKey, hx] at read
    obtain ⟨-, -, read⟩ := read.of_bind
    have written := hd.tree h below read
    intro e he limit depth deep
    have consumes (k : String) : k = f.key ↔ cx.FieldConsumes f k := by
      simp [FieldConsumes, kept, inline]
    refine ⟨[(f.key, x)], (Object.IsPart.single hx).congr consumes, ?_⟩
    rw [contributes, written e he limit depth deep]
    show entriesOf f x = _
    rw [entriesOf_apart inline, full]
    rfl
  · have below := exact.inlined hook layer hf kept inline
    rw [decodeField_inlined kept inline] at read
    obtain ⟨es, -, part, written⟩ := hd.part h (inlined inline) below read
    intro e he limit depth deep
    have consumes (k : String) : cx.Consumes f.ty k ↔ cx.FieldConsumes f k := by
      simp [FieldConsumes, kept, inline]
    refine ⟨es, part.congr consumes, ?_⟩
    rw [contributes, written e he limit depth deep]
    exact entriesOf_inlined inline es

theorem fields {ty : Ty} {o : Object} {all fs : List Field} {i : Nat} {ds : List Datum}
    (exact : cx.ExactPart ty o p) (hook : cx.registry.decoder? ty = none)
    (layer : cx.catalogue.below ty = .record all) (sub : ∀ f ∈ fs, f ∈ all)
    (h : ∀ f ∈ fs, L f.ty) (kept : ∀ f ∈ fs, f.skipped = false)
    (keys : fs.Pairwise fun f g => ∀ k, cx.FieldConsumes f k → ¬ cx.FieldConsumes g k)
    (full : ∀ f ∈ fs, f.omitEmpty = false)
    (inlined : ∀ f ∈ fs, f.inline = true → cx.catalogue.ReachesRecord f.ty)
    (read : Yields (decodeFields cx dec s ty o i fs) ds) : cx.WritesFields fs ds o := by
  induction fs generalizing i ds with
  | nil =>
    obtain rfl := Yields.of_pure read
    exact .nil
  | cons f fs ih =>
    obtain ⟨d, first, read⟩ := read.of_bind
    obtain ⟨ds, rfl, rest⟩ := read.of_map
    rw [List.pairwise_cons] at keys
    simp only [List.forall_mem_cons] at sub h kept full inlined
    have head := hd.field exact hook layer sub.1 h.1 kept.1 full.1 inlined.1 first
    exact .cons head (ih sub.2 h.2 kept.2 keys.2 full.2 inlined.2 rest) keys.1

theorem members {ty : Ty} {ts : List Ty} {x : Tree} {ds : List Datum} (h : ∀ t ∈ ts, L t)
    (exact : cx.Exact ty x p) (hook : cx.registry.decoder? ty = none)
    (layer : cx.catalogue.below ty = .items (ts[·]?))
    (read : Yields (decodePositional dec s ty ts x) ds) :
    ∃ xs, x = .array xs ∧ cx.WritesItems ts ds xs := by
  cases x with
  | array xs =>
    rw [decodePositional] at read
    split at read
    · rename_i length
      exact ⟨xs, rfl, hd.items h length (fun j t y ht hy => ⟨_, exact.item hook layer ht hy⟩) read⟩
    · exact absurd read Yields.not_throw
  | _ => exact absurd read Yields.not_throw

/-- Items that are all of one type. -/
theorem replicate {t ty : Ty} {n : Nat} {xs : List Tree} {ds : List Datum} (h : L t)
    (exact : cx.Exact ty (.array xs) p) (hook : cx.registry.decoder? ty = none)
    (layer : cx.catalogue.below ty = .items fun _ => some t) (length : xs.length = n)
    (read : Yields (decodeItems dec s 0 (.replicate n t) xs) ds) :
    cx.WritesItems (.replicate ds.length t) ds xs := by
  have all : xs.length = (List.replicate n t).length := by rw [List.length_replicate, length]
  have same := length_of_decodeItems all read
  rw [List.length_replicate] at same
  rw [same]
  refine hd.items (fun u hu => (List.eq_of_mem_replicate hu) ▸ h) all (fun j u y hu hy => ?_) read
  rw [List.getElem?_replicate] at hu
  split at hu <;> cases hu
  exact ⟨_, exact.item hook layer rfl hy⟩

end Rewrites

/-! ## Whole readings -/

/-- The records of a set of types leave no field out. -/
def KeepsFields (cx : Codec) (L : Ty → Prop) : Prop :=
  ∀ name fs, L (.named name) → cx.catalogue.body? name = some (.record fs) →
    ∀ f ∈ fs, f.omitEmpty = false

namespace Rewrites

variable {L : Ty → Prop} {s : Scope} {p : Path} {below : Nat} (initial : cx.registry = .initial)
  (closed : ∀ t, L t → cx.LosslessLayer L t) (full : cx.KeepsFields L)
  (hb : cx.Rewrites (decoder cx below) L)
include initial closed full hb

theorem record {name : String} {fs : List Field} {o : Object} {d : Datum}
    (body : cx.catalogue.body? name = some (.record fs)) (lossless : L (.named name))
    (exact : cx.ExactPart (.named name) o p)
    (read : Yields (decodeRecord cx (decoder cx below) s (.named name) fs o) d) :
    cx.WritesPart (.named name) d o := by
  obtain ⟨ds, rfl, fields⟩ := yields_record read
  have hook : cx.registry.decoder? (.named name) = none := decoder?_of_initial initial (by simp)
  have hook' : cx.registry.encoder? (.named name) = none := encoder?_of_initial initial (by simp)
  have layer := Catalogue.below_record body
  cases closed _ lossless with
  | scalar exact => cases exact
  | newtype body' => simp [body] at body'
  | positional body' => simp [body] at body'
  | enumeration body' => simp [body] at body'
  | record body' h kept keys inlined _ =>
    cases body.symm.trans body'
    have written := hb.fields exact hook layer (fun _ hf => hf) h kept keys
      (full name fs lossless body) inlined fields
    obtain ⟨es, sorted, part, hes⟩ := written.record hook' body
    exact ⟨es, sorted, part.congr fun k => (consumes_record hook layer).symm, hes⟩

omit initial closed full in
theorem list {t : Ty} {x : Tree} {d : Datum} (hook : cx.registry.decoder? (.list t) = none)
    (hook' : cx.registry.encoder? (.list t) = none) (h : L t) (exact : cx.Exact (.list t) x p)
    (read : Yields (decodeLayer cx (decoder cx below) s (.list t) x) d) : cx.Writes (.list t) d x := by
  rcases bytes : (Ty.list t).isBytes with _ | _ <;>
    simp only [decodeLayer, bytes, Bool.false_eq_true, if_false, if_true] at read
  · cases x with
    | array xs =>
      obtain ⟨ds, rfl, items⟩ := read.of_map
      exact .list hook' bytes (hb.replicate h exact hook rfl rfl items)
    | _ => exact absurd read Yields.not_throw
  · obtain ⟨ds, rfl, atoms, written⟩ := encodeBytes_of_decodeBytes (.list t) read.of_ofExcept
    refine .layer hook' fun e he limit depth _ => ?_
    obtain ⟨es, rfl, same⟩ := he.seq_inv
    obtain rfl := Datum.Same.eq_of_isAtom_items same atoms
    simp only [encodeLayer, bytes, if_true, written]
    rfl

omit initial closed full in
theorem array {t : Ty} {n : Nat} {x : Tree} {d : Datum}
    (hook : cx.registry.decoder? (.array t n) = none)
    (hook' : cx.registry.encoder? (.array t n) = none) (h : L t) (exact : cx.Exact (.array t n) x p)
    (read : Yields (decodeLayer cx (decoder cx below) s (.array t n) x) d) :
    cx.Writes (.array t n) d x := by
  cases x with
  | array xs =>
    rw [decodeLayer, decodeArray] at read
    split at read
    · exact absurd read Yields.not_throw
    · rename_i length
      split at read
      · exact absurd read Yields.not_throw
      · split at read
        · exact absurd read Yields.not_throw
        · obtain ⟨ds, rfl, items⟩ := read.of_map
          exact .array hook' (hb.replicate h exact hook rfl (Decidable.not_not.mp length) items)
  | _ => exact absurd read Yields.not_throw

theorem tree_succ {ty : Ty} {x : Tree} {d : Datum} (lossless : L ty) (exact : cx.Exact ty x p)
    (read : Yields ((decoder cx (below + 1)).tree s ty x) d) : cx.Writes ty d x := by
  by_cases null : x = .null
  · subst null
    refine writes_null initial ty ?_ (yields_null read)
    rcases admits : ty.admitsNull with _ | _
    · exact absurd (.null admits) exact.exact
    · rfl
  by_cases slot : ty = .tree
  · subst slot
    have hook : cx.registry.decoder? .tree = some fun t => .ok (.tree t) := by rw [initial]; rfl
    have given := yields_hook null hook read
    cases given
    exact writes_slot initial x
  have hook := decoder?_of_initial initial slot
  have hook' := encoder?_of_initial initial slot
  have read := yields_layer null hook read
  cases closed ty lossless with
  | scalar scalar =>
    have given : Scalar.decode ty x = .ok d := by
      cases ty <;> first | exact read.of_ofExcept | cases scalar
    have family := Scalar.family_of_decode scalar
      (fun float n int => exact.exact (by subst float int; exact .int n))
      (fun k int y float => exact.exact (by subst int float; exact .float k y)) given
    obtain ⟨written, atom⟩ := Scalar.encode_of_decode scalar family given
    exact .leaf hook' atom fun cx' encode _ => (encodeLayer_exact scalar encode d).trans written
  | tree => exact absurd rfl slot
  | @nonZero k h =>
    obtain ⟨e, content, read⟩ := read.of_bind
    obtain rfl := wrapNonZero_eq read.of_ofExcept
    exact (hb.tree h (exact.content hook rfl null) content).wrapped hook' fun _ _ _ _ => rfl
  | option h there =>
    obtain ⟨e, rfl, content⟩ := read.of_map
    exact (hb.tree h (exact.content hook rfl null) content).present hook'
  | @pointer q t holds h =>
    obtain ⟨e, rfl, content⟩ := yields_pointer read
    have inner := cx.catalogue.below_pointer holds t
    refine (hb.tree h (exact.content hook inner null) content).wrapped hook' fun cx' encode e _ => ?_
    cases q <;> rfl
  | @list t h => exact hb.list hook hook' h exact read
  | @array t n some short h => exact hb.array hook hook' h exact read
  | @map a key value names text h =>
    cases x with
    | object o =>
      obtain ⟨es, rfl, entries⟩ := read.of_map
      refine .map hook' exact.part.sorted (hb.entries text h (fun k y hy => ?_) entries)
      exact ⟨_, exact.entry hook rfl hy⟩
    | _ => exact absurd read Yields.not_throw
  | @tuple ts h =>
    obtain ⟨ds, rfl, members⟩ := read.of_map
    obtain ⟨xs, rfl, written⟩ := hb.members h exact hook rfl members
    exact Writes.tuple hook' written
  | @newtype name t body h there =>
    simp only [decodeLayer, body, decodeDeclared] at read
    obtain ⟨e, rfl, content⟩ := read.of_map
    have inner := Catalogue.below_newtype body
    exact (hb.tree h (exact.content hook inner null) content).newtype initial body
  | @positional name fs body h =>
    simp only [decodeLayer, body, decodeDeclared] at read
    obtain ⟨ds, rfl, members⟩ := read.of_map
    have types : ∀ t ∈ fs.map Field.ty, L t := fun t ht => by
      obtain ⟨f, hf, rfl⟩ := List.mem_map.mp ht
      exact h f hf
    obtain ⟨xs, rfl, written⟩ := hb.members types exact hook (Catalogue.below_positional body) members
    exact Writes.positional hook' body written
  | @enumeration name vs body unit names =>
    simp only [decodeLayer, body, decodeDeclared] at read
    obtain ⟨written, atom⟩ := encodeVariant_of_decodeVariant read.of_ofExcept
    refine .leaf hook' atom fun cx' encode same => ?_
    simp only [encodeLayer, same, body, encodeDeclared, written]
    rfl
  | @record name fs body _ _ _ _ _ =>
    simp only [decodeLayer, body, decodeDeclared] at read
    cases x with
    | object o =>
      obtain ⟨es, sorted, part, written⟩ :=
        hb.record initial closed full body lossless exact.part read
      have all := part.ofList_eq exact.part.sorted fun k hk =>
        exact.consumes hook (Catalogue.below_record body) hk
      rwa [← all, sorted.ofList_eq]
    | _ => exact absurd read Yields.not_throw

theorem part_succ {ty : Ty} {o : Object} {d : Datum} (lossless : L ty)
    (record : cx.catalogue.ReachesRecord ty) (exact : cx.ExactPart ty o p)
    (read : Yields ((decoder cx (below + 1)).object s ty o) d) : cx.WritesPart ty d o := by
  have slot : ty ≠ .tree := by rintro rfl; cases record
  have hook := decoder?_of_initial initial slot
  have hook' := encoder?_of_initial initial slot
  have read := yields_objectLayer hook read
  cases record with
  | @record name fs body =>
    simp only [decodeObjectLayer, body] at read
    exact hb.record initial closed full body lossless exact read
  | @newtype name t body record =>
    simp only [decodeObjectLayer, body] at read
    obtain ⟨e, rfl, content⟩ := read.of_map
    have layer := Catalogue.below_newtype body
    have inner := (closed _ lossless).of_newtype body
    obtain ⟨es, sorted, part, written⟩ := hb.part inner record (exact.content hook layer) content
    exact ⟨es, sorted, part.congr fun k => (consumes_content hook layer).symm,
      written.newtype initial body⟩
  | @pointer q t holds record =>
    obtain ⟨e, rfl, content⟩ := yields_pointer read
    have layer := cx.catalogue.below_pointer holds t
    have inner := (closed _ lossless).of_pointer
    obtain ⟨es, sorted, part, written⟩ := hb.part inner record (exact.content hook layer) content
    refine ⟨es, sorted, part.congr fun k => (consumes_content hook layer).symm,
      written.wrapped hook' fun cx' encode e _ => ?_⟩
    cases q <;> rfl

/-- What is below being written back, so is the layer. -/
theorem step : cx.Rewrites (decoder cx (below + 1)) L where
  tree := hb.tree_succ initial closed full
  part := hb.part_succ initial closed full

end Rewrites

theorem rewrites_decoder (initial : cx.registry = .initial) {L : Ty → Prop}
    (closed : ∀ t, L t → cx.LosslessLayer L t) (full : cx.KeepsFields L) (depth : Nat) :
    cx.Rewrites (decoder cx depth) L := by
  induction depth with
  | zero => exact ⟨fun _ _ read => absurd read Yields.not_throw,
      fun _ _ _ read => absurd read Yields.not_throw⟩
  | succ depth ih => exact ih.step initial closed full

/-- A lossless type none of whose records leaves a field out. -/
def LosslessInFull (cx : Codec) (ty : Ty) : Prop :=
  ∃ L : Ty → Prop, L ty ∧ (∀ t, L t → cx.LosslessLayer L t) ∧ cx.KeepsFields L

end Codec

/-- An exact tree that is read strictly as a datum of a lossless type whose records leave
no field out is the tree that the datum is written as, in whatever order its maps list
their entries, under every limit that is no less than the height of the datum. -/
theorem toTree_fromTree (cx : Codec) (initial : cx.registry = .initial) {ty : Ty}
    (lossless : cx.LosslessInFull ty) {x : Tree} (ordered : x.Ordered)
    (exact : ¬ cx.catalogue.Inexact ty x) {d : Datum}
    (read : cx.fromTree true ty x = (.ok d : Except Error Datum)) {e : Datum} (same : d.Same e)
    {limit : Nat} (deep : e.height ≤ limit) :
    (cx.withDepth limit).toTree ty e = (.ok x : Except Error Tree) := by
  obtain ⟨L, hL, closed, full⟩ := lossless
  have notes := (cx.notesUnknown_decoder cx.maxDepth).tree [] ty x
  obtain ⟨given, known⟩ := Codec.of_build_ok notes read
  have written := (Codec.rewrites_decoder initial closed full cx.maxDepth).tree hL
    ⟨ordered, exact, known⟩ given
  exact written e same limit limit deep

/-! ## Places -/

namespace Codec

/-- Points of routes by their names, some of which are not known. -/
def places : Ty := .map .hashed .string (.option (.pointer .owned (.named "point")))

theorem losslessInFull_places : route.LosslessInFull places := by
  let L (t : Ty) : Prop := t ∈ [places, .option (.pointer .owned (.named "point")),
    .pointer .owned (.named "point"), .named "point", .int .int64]
  have point : route.LosslessLayer L (.named "point") :=
    .record rfl (by simp [L]) (by simp) (by simp [FieldConsumes]) (by simp) (by simp)
  have there : route.NeverNull (.named "point") := point.neverNull rfl (by simp) (by simp) (by simp)
  refine ⟨L, by simp [L], ?_, ?_⟩
  · simp only [L, List.forall_mem_cons]
    refine ⟨.map .string (by simp), .option (by simp) (there.pointer rfl rfl), .pointer rfl (by simp),
      point, .scalar rfl, by simp⟩
  · intro name fs h body
    obtain rfl : name = "point" := by simpa [L, places] using h
    cases body
    simp

end Codec

/-- Two places, of which one is not known, listed in another order. -/
theorem toTree_fromTree_places :
    let x := Tree.object [("a", .null), ("b", .object [("x", .int 1), ("y", .int 2)])]
    let b := Datum.present (.wrapped (.product [.int 1, .int 2]))
    let d := Datum.map [(.text "a", .absent), (.text "b", b)]
    let e := Datum.map [(.text "b", b), (.text "a", .absent)]
    x.Ordered ∧ ¬ Catalogue.route.Inexact Codec.places x ∧ d.Same e ∧
      Codec.route.fromTree true Codec.places x = (.ok d : Except Error Datum) ∧
      (Codec.route.withDepth 5).toTree Codec.places e = (.ok x : Except Error Tree) := by
  intro x b d e
  have ordered : x.Ordered := by
    refine .object (by decide) ?_
    simp only [List.forall_mem_cons]
    refine ⟨.null, .object (by decide) ?_, by simp⟩
    simp only [List.forall_mem_cons]
    exact ⟨.int 1, .int 2, by simp⟩
  have point : ¬ Catalogue.route.Inexact (.named "point") (.object [("x", .int 1), ("y", .int 2)]) :=
    Catalogue.not_inexact_record rfl (by simp [Object.find?_cons, Catalogue.not_inexact_int])
  have exact : ¬ Catalogue.route.Inexact Codec.places x := by
    rw [Codec.places, Catalogue.inexact_entries rfl]
    rintro ⟨e, he, h⟩
    rcases List.mem_cons.mp he with rfl | he
    · rw [Catalogue.inexact_null] at h
      cases h
    · cases List.mem_singleton.mp he
      have below := (Catalogue.inexact_content rfl (Tree.object_ne_null _)).mp h
      exact point ((Catalogue.inexact_content rfl (Tree.object_ne_null _)).mp below)
  have same : d.Same e := .map (.swap ..) rfl (Datum.Same.forall₂_refl _)
  have read : Codec.route.fromTree true Codec.places x = (.ok d : Except Error Datum) := rfl
  exact ⟨ordered, exact, same, read,
    toTree_fromTree Codec.route rfl Codec.losslessInFull_places ordered exact read same (by decide)⟩

end TreeCodec
