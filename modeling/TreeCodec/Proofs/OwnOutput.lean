import TreeCodec.Proofs.Accounted
import TreeCodec.Proofs.InlinedMaps
import TreeCodec.Proofs.Written

/-!
# Strict conversions of written trees

Where the fields of each record consume different keys, a strict conversion knows all keys of
a tree that was written for the same type, but for those that an inlined field absorbs which
is no record (`own_output_is_known`). Inlined maps do leave keys unknown
(`tag_is_reported`).

* `Codec.AccountsFor.layer`: a layer is accounted for if what is below it is;
* `Codec.accounted_encode`: so is what is written at any depth;
* `Codec.of_fromTree_report`: what a strict conversion reports is unknown.
-/

namespace TreeCodec

namespace Catalogue

variable {c : Catalogue} {ty t : Ty}

theorem below_of_inner? (inner : c.inner? ty = some t) : c.below ty = .content t := by
  cases ty with
  | nonZero k => cases inner; rfl
  | pointer p u => cases p <;> cases inner <;> rfl
  | named name =>
    rcases body : c.body? name with _ | b
    · simp [inner?, body] at inner
    · cases b <;> simp_all [inner?, below]
  | _ => cases inner

theorem peelsTo_peel (c : Catalogue) (ty : Ty) (d : Datum) : c.PeelsTo ty (c.peel ty d).1 := by
  induction ty, d using Catalogue.peel.induct c with
  | case1 ty d t inner ih => simpa only [peel, inner] using .inner inner ih
  | case2 ty d inner =>
    simp only [peel, inner]
    exact .here ty
  | case3 d t ih => exact .option ih
  | case4 ty d other =>
    cases ty <;> first | exact absurd rfl (other _) | exact .here _
  | case5 ty d other other' =>
    cases d <;> first | exact absurd rfl (other _) | exact absurd rfl (other' _) | exact .here _

end Catalogue

namespace Codec

variable {cx : Codec} {ty t : Ty} {x : Tree}

/-! ## Layers -/

section Layers

variable (initial : cx.registry = .initial)
include initial

theorem hook_of_below (layer : cx.catalogue.below ty ≠ .nothing) : cx.registry.decoder? ty = none :=
  decoder?_of_initial initial fun slot => layer (by rw [slot]; rfl)

theorem Everywhere.peeled {Q : Ty → Prop} {u : Ty} (h : cx.Everywhere Q ty)
    (below : cx.catalogue.PeelsTo ty u) : cx.Everywhere Q u := by
  have step {ty t : Ty} (layer : cx.catalogue.below ty = .content t) (h : cx.Everywhere Q ty) :
      cx.Everywhere Q t := h.wrapped (hook_of_below initial (by simp [layer])) (.content layer)
  induction below with
  | here => exact h
  | inner inner _ ih => exact ih (step (Catalogue.below_of_inner? inner) h)
  | option _ ih => exact ih (step rfl h)

theorem Accounted.of_peeled {u : Ty} (below : cx.catalogue.PeelsTo ty u) (h : cx.Accounted u x) :
    cx.Accounted ty x := by
  have step {ty t : Ty} (layer : cx.catalogue.below ty = .content t) (h : cx.Accounted t x) :
      cx.Accounted ty x := h.content (hook_of_below initial (by simp [layer])) layer
  induction below with
  | here => exact h
  | inner inner _ ih => exact step (Catalogue.below_of_inner? inner) (ih h)
  | option _ ih => exact step rfl (ih h)

end Layers

/-- A writer whose trees are accounted for where the keys of records are apart. -/
def AccountsFor (cx : Codec) (encode : Ty → Datum → Except Error Tree) : Prop :=
  ∀ {ty d x}, cx.Everywhere cx.KeysApart ty → encode ty d = .ok x → cx.Accounted ty x

namespace AccountsFor

variable {encode : Ty → Datum → Except Error Tree} (he : cx.AccountsFor encode)
include he

theorem fields {fs : List Field} (hook : cx.registry.decoder? ty = none)
    (layer : cx.catalogue.below ty = .record fs) (apart : cx.Everywhere cx.KeysApart ty)
    (plain : ∀ f ∈ fs, f.skipped = false → f.inline = true → ¬ cx.Absorbs f.ty)
    {gs : List Field} (sub : gs ⊆ fs)
    (keys : gs.Pairwise fun f g => ∀ k, cx.FieldConsumes f k → ¬ cx.FieldConsumes g k)
    {ds : List Datum} {es : List (String × Tree)} (h : cx.contributions encode ty gs ds = .ok es) :
    cx.FieldsAccounted ty gs es := by
  induction gs generalizing ds es with
  | nil =>
    cases ds <;> cases h
    exact .nil
  | cons g gs ih =>
    cases ds with
    | nil => cases h
    | cons d ds =>
      obtain ⟨first, hfirst, h⟩ := of_bind_ok h
      obtain ⟨rest, hrest, h⟩ := of_bind_ok h
      cases h
      have ⟨hg, sub'⟩ := List.cons_subset.mp sub
      have ⟨keys', keysRest⟩ := List.pairwise_cons.mp keys
      refine .cons ?_ (ih sub' keysRest hrest) keys'
      obtain rfl | ⟨kept, t, ht, entries⟩ := of_contribution hfirst
      · exact .empty (plain g hg)
      · have accounted := he (apart.field hook layer hg kept) ht
        exact accounted.field hook layer hg kept (plain g hg kept) entries

theorem record {fs : List Field} (hook : cx.registry.decoder? ty = none)
    (layer : cx.catalogue.below ty = .record fs) (apart : cx.Everywhere cx.KeysApart ty)
    {ds : List Datum} {es : List (String × Tree)} (h : cx.contributions encode ty fs ds = .ok es) :
    cx.Accounted ty (.object (Object.ofList es)) := by
  by_cases absorbs : cx.Absorbs ty
  · -- Whatever is unknown is under a key of the record that absorbs it.
    have absorbed (k : String) (rest : Path) : cx.Absorbed ty (.key k :: rest) :=
      ⟨[], k, rest, ty, fs, rfl, .here ty, layer, absorbs⟩
    refine ⟨fun {p q} unknown => ?_, fun _ plain => absurd absorbs plain⟩
    rcases (unknown_record hook layer).mp unknown with part | ⟨k, -, -, rfl⟩
    · obtain ⟨k, rest, rfl⟩ := part.enters
      exact ⟨_, rfl, absorbed k rest⟩
    · exact ⟨_, rfl, absorbed k []⟩
  · have plain (f : Field) (hf : f ∈ fs) (kept : f.skipped = false) (inline : f.inline = true) :
        ¬ cx.Absorbs f.ty := fun h => absorbs (.inlined layer hf kept inline h)
    have fields := he.fields hook layer apart plain (List.Subset.refl fs)
      (apart.here fs layer) h
    have own (k : String) (hk : k ∈ Object.keys (Object.ofList es)) : cx.Consumes ty k := by
      rw [Object.ofList, Object.mem_keys_extend] at hk
      exact (consumes_record hook layer).mpr (fields.own k (hk.resolve_right List.not_mem_nil))
    refine ⟨fun {p q} unknown => ?_, fun {es'} hes' _ => ?_⟩
    · rcases (unknown_record hook layer).mp unknown with part | ⟨k, hk, unread, -⟩
      · exact fields.known (fun _ _ => rfl) ((unknownPart_record hook layer).mp part)
      · exact absurd (own k hk) unread
    · cases hes'
      refine ⟨own, fun {o} same p q unknown => ?_⟩
      refine fields.known (o := o) (fun k hk => ?_) ((unknownPart_record hook layer).mp unknown)
      rw [same k ((consumes_record hook layer).mpr hk), (Object.sorted_ofList es).find?_ofList]

theorem array {d : Datum} {ts : List Ty} {ds : List Datum} {xs : List Tree}
    (hook : cx.registry.decoder? ty = none) (apart : cx.Everywhere cx.KeysApart ty)
    (members : cx.catalogue.Members ty d ts ds) (h : encodeMembers encode ty ts ds = .ok xs) :
    cx.Accounted ty (.array xs) := by
  obtain ⟨item?, layer, typed⟩ := members.below
  refine .other (by simp [layer]) (by simp [layer]) fun unknown => ?_
  obtain ⟨i, t, x, ht, hx, unknown⟩ := (unknown_items hook layer).mp unknown
  obtain ⟨u, e, hu, -, written⟩ := of_encodeMembers h hx
  obtain rfl : t = u := Option.some.inj (ht.symm.trans (typed i u hu))
  obtain ⟨rest, rfl, absorbed⟩ := (he (apart.item hook layer ht) written).known unknown
  exact ⟨_, List.append_assoc .., absorbed.item hook layer ht⟩

theorem map {a : Arrangement} {key : Ty} (hook : cx.registry.decoder? (.map a key t) = none)
    (apart : cx.Everywhere cx.KeysApart (.map a key t)) {ps : List (Datum × Datum)}
    {es : List (String × Tree)} (h : cx.mapEntries (encode t) key ps = .ok es) :
    cx.Accounted (.map a key t) (.object (Object.ofList es)) := by
  refine .other (by simp [Catalogue.below]) (by simp [Catalogue.below]) fun unknown => ?_
  obtain ⟨k, x, mem, unknown⟩ := (unknownPart_entries hook rfl).mp ((unknown_entries rfl).mp unknown)
  obtain ⟨-, d, -, written, -⟩ := of_mapEntries h (Object.mem_of_mem_ofList mem)
  obtain ⟨rest, rfl, absorbed⟩ := (he (apart.entry hook rfl) written).known unknown
  exact ⟨_, List.append_assoc .., absorbed.entry hook rfl k⟩

theorem layer (initial : cx.registry = .initial) {d : Datum} (slot : ty ≠ .tree)
    (apart : cx.Everywhere cx.KeysApart ty) (h : encodeLayer cx encode ty d = .ok x) :
    cx.Accounted ty x := by
  have hook : cx.registry.decoder? ty = none := decoder?_of_initial initial slot
  cases writesLayer_of_ok h with
  | absent => exact .null
  | content layer written =>
    rcases layer.below_or with below | below
    · exact (he (apart.wrapped hook (.content below)) written).content hook below
    · exact .leaf below
  | @newtype _ t d _ body written =>
    have below := cx.catalogue.peelsTo_peel t d
    have layer := Catalogue.below_newtype body
    have accounted := he ((apart.wrapped hook (.content layer)).peeled initial below) written
    exact (accounted.of_peeled initial below).content hook layer
  | array members written => exact he.array hook apart members written
  | bytes =>
    exact .other (by simp [Catalogue.below]) (by simp [Catalogue.below])
      fun unknown => absurd unknown (not_unknown_text rfl)
  | map written => exact he.map hook apart written
  | record body written => exact he.record hook (Catalogue.below_record body) apart written
  | variant body => exact .leaf (Catalogue.below_enumeration body)
  | scalar written =>
    have family := (Scalar.family?_of_encode written).1
    exact .leaf (by cases ty <;> first | rfl | cases family)

end AccountsFor

/-! ## Whole trees -/

theorem accounted_encode (initial : cx.registry = .initial) (depth : Nat) :
    cx.AccountsFor (encode cx depth) := by
  induction depth with
  | zero => exact fun _ h => nomatch h
  | succ depth ih =>
    intro ty d x apart h
    by_cases slot : ty = .tree
    · subst slot
      exact .leaf rfl
    · rw [encode_unhooked (encoder?_of_initial initial slot)] at h
      exact ih.layer initial slot apart h

end Codec

/-- Readings whose error, if they end in one, is no report. -/
def Simulation.reportless : Simulation (Except Error) (Except Error) :=
  .ending (·.kind ≠ .strictDecoding) fun _ => Error.kind_ne_of_isLocal

namespace Codec

variable {cx : Codec} {ty : Ty} {x : Tree}

/-- What a strict conversion reports is unknown in the tree, and it reports something. -/
theorem of_fromTree_report (hr : cx.registry.Reportless) {ps : List Path}
    (h : cx.fromTree true ty x = (.error (.unknownFields ps) : Except Error Datum)) :
    ps ≠ [] ∧ ∀ q ∈ ps, cx.Unknown ty x [] q := by
  have hooks : Simulation.reportless.AdmitsHooks cx.registry := hr
  have limit : Simulation.reportless.admits (.depthExceeded cx.maxDepth) := nofun
  have place : Simulation.reportless.place (.root true) (.root true) := trivial
  have fields : Simulation.reportless.Knows cx.catalogue := fun _ _ _ _ _ _ => trivial
  have unreported := (Simulation.decoder cx hooks fields limit cx.maxDepth).tree place ty x
  have notes := (cx.notesUnknown_decoder cx.maxDepth).tree [] ty x
  rcases read : ((decoder cx cx.maxDepth : Decoder (Except Error)).tree (.root true) ty x).run .empty
    with e | ⟨d, a⟩
  · have failed : cx.fromTree true ty x = (.error e : Except Error Datum) := by
      rw [fromTree, build, read]
      rfl
    rw [failed] at h
    cases h
    exact absurd rfl (unreported .empty _ read)
  · obtain ⟨ks, qs, -, hq, rfl⟩ := notes .empty d a read
    rw [fromTree, build_of_ok read, accept] at h
    split at h
    · split at h
      · cases h
      · rename_i some
        cases h
        refine ⟨fun none => some ?_, fun q hm => (hq q).mp ?_⟩
        · rw [List.isEmpty_iff, ← List.length_eq_zero_iff, ← List.length_mergeSort]
          exact List.length_eq_zero_iff.mpr none
        · simpa [Audit.note, Audit.empty] using (Audit.mem_report _ _ q).mp hm
    · cases h

/-- What a type absorbs, a record that it meets absorbs by an inlined field. -/
theorem Absorbed.not_inlinesOnly (initial : cx.registry = .initial) {rest : Path}
    (h : cx.Absorbed ty rest) :
    ¬ cx.Everywhere (cx.InlinesOnly fun t => ¬ cx.Absorbs t) ty := by
  obtain ⟨r, k, rest, u, fs, -, at', layer, absorbs⟩ := h
  intro plain
  cases absorbs with
  | other _ record => exact record fs layer
  | content layer' => simp [layer] at layer'
  | inlined layer' hf kept inline absorbs =>
    exact plain r u at' (hook_of_below initial (by simp [layer])) _ layer' _ hf kept inline absorbs

end Codec

/-! ## Things and stops -/

namespace Codec

theorem keysApart_things (maxDepth : Nat) (ty : Ty) :
    (things maxDepth).Everywhere (things maxDepth).KeysApart ty := by
  refine fun _ u _ => keysApart_of_records (fun name fs body => ?_) u
  obtain ⟨e, he, body⟩ := Catalogue.mem_of_body? body
  obtain rfl := List.mem_singleton.mp he
  cases body
  have tags (k : String) : ¬ (things maxDepth).FieldConsumes Catalogue.thingTags k := by
    rintro ⟨-, ⟨apart, -⟩ | ⟨-, consumes⟩⟩
    · cases apart
    · exact not_consumes_entries rfl consumes
  simp [tags]

theorem keysApart_route (ty : Ty) : route.Everywhere route.KeysApart ty := by
  refine fun _ u _ => keysApart_of_records (fun name fs body => ?_) u
  obtain ⟨e, he, body⟩ := Catalogue.mem_of_body? body
  simp only [route, standard, Catalogue.route, List.mem_cons, List.not_mem_nil, or_false] at he
  rcases he with rfl | rfl <;> cases body
  · simp [FieldConsumes]
  · simp [FieldConsumes, consumes_point]

theorem not_absorbs_place : ¬ route.Absorbs (.pointer .owned (.named "point")) := by
  intro h
  cases h with
  | other content _ => exact content _ rfl
  | inlined layer => cases layer
  | content layer h =>
    cases layer
    cases h with
    | other _ record => exact record _ rfl
    | content layer => cases layer
    | inlined layer hf _ inline _ =>
      cases layer
      simp only [List.mem_cons, List.not_mem_nil, or_false] at hf
      rcases hf with rfl | rfl <;> cases inline

theorem plain_route (ty : Ty) :
    route.Everywhere (route.InlinesOnly fun t => ¬ route.Absorbs t) ty := by
  refine fun _ u _ => inlinesOnly_of_records (fun name fs body f hf inline => ?_) u
  rw [Catalogue.inlined_route body hf inline]
  exact not_absorbs_place

/-- A thing with a tag. -/
def taggedThing : Datum := .product [.text "a", .map [(.text "k", .text "v")]]

/-- A strict conversion reports the tag of a thing, whatever the depth. -/
theorem reports_tag {maxDepth : Nat} (deep : 3 ≤ maxDepth) : ∃ x d,
    (things maxDepth).toTree (.named "thing") taggedThing = (.ok x : Except Error Tree) ∧
    (things maxDepth).fromTree false (.named "thing") x = (.ok d : Except Error Datum) ∧
    (things maxDepth).fromTree true (.named "thing") x =
      (.error (.unknownFields [[.key "k"]]) : Except Error Datum) := by
  obtain ⟨k, rfl⟩ := Nat.exists_eq_add_of_le' deep
  refine ⟨.object [("k", .string "v"), ("name", .string "a")], _, rfl, rfl, ?_⟩
  have read : ((decoder (things (k + 3)) (k + 3)).tree (.root true) (.named "thing")
      (.object [("k", .string "v"), ("name", .string "a")])).run .empty =
      (.ok (_, ⟨[], [[.key "k"]]⟩) : Except Error _) := rfl
  exact (build_of_ok read).trans
    (congrArg (Except.error ∘ Error.unknownFields) (List.mergeSort_singleton _))

end Codec

/-! ## What is reported -/

/-- What a strict conversion reports in a tree that was written for the same type is under a
key of a record with an inlined field that absorbs keys, if the fields of every record consume
different keys. So it reports nothing where inlined fields absorb none. -/
theorem own_output_is_known (cx : Codec) (initial : cx.registry = .initial) (ty : Ty)
    (apart : cx.Everywhere cx.KeysApart ty) (d : Datum) (x : Tree)
    (h : cx.toTree ty d = (.ok x : Except Error Tree)) :
    (∀ ps, cx.fromTree true ty x = (.error (.unknownFields ps) : Except Error Datum) →
      ∀ q ∈ ps, cx.Absorbed ty q) ∧
    (cx.Everywhere (cx.InlinesOnly fun t => ¬ cx.Absorbs t) ty →
      ∀ ps, cx.fromTree true ty x ≠ (.error (.unknownFields ps) : Except Error Datum)) := by
  have accounted := Codec.accounted_encode initial cx.maxDepth apart h
  have reportless : cx.registry.Reportless := initial ▸ Registry.reportless_initial
  have absorbed (ps : List Path)
      (report : cx.fromTree true ty x = (.error (.unknownFields ps) : Except Error Datum))
      (q : Path) (hq : q ∈ ps) : cx.Absorbed ty q := by
    have unknown := (Codec.of_fromTree_report reportless report).2 q hq
    obtain ⟨rest, rfl, absorbed⟩ := accounted.known unknown
    exact absorbed
  refine ⟨absorbed, fun plain ps report => ?_⟩
  obtain ⟨q, hq⟩ := List.exists_mem_of_ne_nil ps (Codec.of_fromTree_report reportless report).1
  exact (absorbed ps report q hq).not_inlinesOnly initial plain

/-- The tag of a thing is absorbed, and of a stop nothing is reported. -/
theorem own_output_is_known_thing :
    (∃ x, (Codec.things 3).toTree (.named "thing") Codec.taggedThing = (.ok x : Except Error Tree) ∧
      (Codec.things 3).fromTree true (.named "thing") x =
        (.error (.unknownFields [[.key "k"]]) : Except Error Datum) ∧
      (Codec.things 3).Absorbed (.named "thing") [.key "k"]) ∧
    ∃ x, Codec.route.toTree (.named "stop") (.stop "a" 1 2 [] .absent) = (.ok x : Except Error Tree) ∧
      ∀ ps, Codec.route.fromTree true (.named "stop") x ≠
        (.error (.unknownFields ps) : Except Error Datum) := by
  constructor
  · obtain ⟨x, -, written, -, report⟩ := Codec.reports_tag (Nat.le_refl 3)
    have absorbed := (own_output_is_known (Codec.things 3) rfl (.named "thing")
      (Codec.keysApart_things 3 _) Codec.taggedThing x written).1
    exact ⟨x, written, report, absorbed _ report _ List.mem_cons_self⟩
  · let x : Tree := .object
      [("label", .string "a"), ("next", .null), ("x", .int 1), ("y", .int 2)]
    have written :
        Codec.route.toTree (.named "stop") (.stop "a" 1 2 [] .absent) = (.ok x : Except Error Tree) :=
      rfl
    exact ⟨x, written, (own_output_is_known Codec.route rfl (.named "stop")
      (Codec.keysApart_route _) _ x written).2 (Codec.plain_route _)⟩

/-- An inlined map leaves the keys of its entries unknown, whatever the depth: a thing with a
tag has keys apart, it is written, a lax conversion reads what is written, and a strict one
reports the tag. -/
theorem tag_is_reported :
    HasType .things (.named "thing") Codec.taggedThing ∧ ∀ maxDepth, 3 ≤ maxDepth →
      let cx := Codec.things maxDepth
      cx.Everywhere cx.KeysApart (.named "thing") ∧ ∃ x d,
        cx.toTree (.named "thing") Codec.taggedThing = (.ok x : Except Error Tree) ∧
        cx.fromTree false (.named "thing") x = (.ok d : Except Error Datum) ∧
        cx.fromTree true (.named "thing") x =
          (.error (.unknownFields [[.key "k"]]) : Except Error Datum) :=
  ⟨hasType_thing "a" (by simp) (by simp [HasType.string]) (by simp [HasType.string]),
    fun maxDepth deep => ⟨Codec.keysApart_things maxDepth _, Codec.reports_tag deep⟩⟩

end TreeCodec
