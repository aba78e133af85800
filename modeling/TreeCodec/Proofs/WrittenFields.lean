import TreeCodec.Proofs.Correspondence
import TreeCodec.Proofs.ExactTrees
import TreeCodec.Proofs.InlinedMaps
import TreeCodec.Proofs.Written

/-!
# Fields in the object of a record

A field that is not left out is written under its key. What is inlined behind it is written
over it if it has the same key. The keys that records declare are told apart beforehand, but
those of an inlined map or slot are data, and such a one may name a field
(`written_field_stands`, `tag_takes_the_name`).

* `Catalogue.Declares`, `Catalogue.Spells`: the keys of a datum's object by declaration and by
  data, and `Codec.keys_of_encode` that there are no others;
* `Codec.LeavesOut`: what `Field.omitEmpty` leaves out;
* `Codec.encode_mono`: what is written at some depth is written the same at greater ones;
* `Codec.SpelledBehind`: what is written over a field.
-/

namespace TreeCodec

/-! ## Keys by declaration and by data -/

namespace Catalogue

/-- The keys that a type declares for its object: those of a record's fields and of the records
that are inlined there. -/
inductive Declares (c : Catalogue) : Ty → String → Prop
  | content {ty t : Ty} {d e : Datum} {k : String} (layer : c.Content ty d t e)
    (h : Declares c t k) : Declares c ty k
  | own {name : String} {fs : List Field} {f : Field} (body : c.body? name = some (.record fs))
    (hf : f ∈ fs) (kept : f.skipped = false) (apart : f.inline = false) :
    Declares c (.named name) f.key
  | inlined {name : String} {fs : List Field} {f : Field} {k : String}
    (body : c.body? name = some (.record fs)) (hf : f ∈ fs) (kept : f.skipped = false)
    (inline : f.inline = true) (h : Declares c f.ty k) : Declares c (.named name) k

/-- The keys that a field declares: its own, or those of what it inlines. -/
def FieldDeclares (c : Catalogue) (f : Field) (k : String) : Prop :=
  f.skipped = false ∧ (f.inline = false ∧ k = f.key ∨ f.inline = true ∧ c.Declares f.ty k)

/-- No two fields declare the same key. -/
def DeclaresApart (c : Catalogue) (fs : List Field) : Prop :=
  fs.Pairwise fun f g => ∀ k, c.FieldDeclares f k → ¬ c.FieldDeclares g k

/-- The keys of a datum's object that are data: those of a map, of the object in a slot, and of
what is inlined. -/
inductive Spells (c : Catalogue) : Ty → Datum → String → Prop
  | entry {a : Arrangement} {key t : Ty} {es : List (Datum × Datum)} {k d : Datum} {s : String}
    (mem : (k, d) ∈ es) (text : c.text? key k = some s) : Spells c (.map a key t) (.map es) s
  | slot {o : Object} {s : String} (mem : s ∈ o.keys) : Spells c .tree (.tree (.object o)) s
  | content {ty t : Ty} {d e : Datum} {s : String} (layer : c.Content ty d t e)
    (h : Spells c t e s) : Spells c ty d s
  | inlined {name : String} {fs : List Field} {f : Field} {ds : List Datum} {e : Datum} {i : Nat}
    {s : String} (body : c.body? name = some (.record fs)) (hf : fs[i]? = some f)
    (kept : f.skipped = false) (inline : f.inline = true) (he : ds[i]? = some e)
    (h : Spells c f.ty e s) : Spells c (.named name) (.product ds) s

/-- The keys that a datum's object may have. -/
def Shows (c : Catalogue) (k : String) (ty : Ty) (d : Datum) : Prop :=
  c.Declares ty k ∨ c.Spells ty d k

variable {c : Catalogue} {k : String}

theorem Shows.content {ty t : Ty} {d e : Datum} (layer : c.Content ty d t e) (h : c.Shows k t e) :
    c.Shows k ty d :=
  h.imp (.content layer) (.content layer)

/-- What is below wrappers and options shows through them. -/
theorem Shows.of_peel {ty : Ty} {d : Datum} (h : c.Shows k (c.peel ty d).1 (c.peel ty d).2) :
    c.Shows k ty d := by
  have keep {ty t : Ty} {d e : Datum} (layer : c.Content ty d t e) (hidden : ¬ c.Shows k ty d) :
      ¬ c.Shows k t e := fun h => hidden (.content layer h)
  exact Classical.byContradiction fun hidden => Content.keep_peel keep hidden h

/-- Of fields that declare different keys, only one declares a key. -/
theorem DeclaresApart.not_declares {fs : List Field} (apart : c.DeclaresApart fs) {i j : Nat} {f g : Field}
    (hij : i < j) (hf : fs[i]? = some f) (hg : fs[j]? = some g) (own : c.FieldDeclares f k) :
    ¬ c.FieldDeclares g k := by
  obtain ⟨hi, rfl⟩ := List.getElem?_eq_some_iff.mp hf
  obtain ⟨hj, rfl⟩ := List.getElem?_eq_some_iff.mp hg
  exact List.pairwise_iff_getElem.mp apart i j hi hj hij k own

end Catalogue

/-! ## Greater depths -/

/-- Computations of which the second one succeeds with the value of the first one, if that
succeeds. -/
def Correspondence.succeeding : Correspondence (Except Error) (Except Error) where
  rel x y := ∀ v, x = .ok v → y = .ok v
  admits _ := True
  admits_of_kind _ := trivial
  knows _ _ _ := True
  rel_pure _ _ h := h
  rel_bind hx hf w h := by
    obtain ⟨v, hv, h⟩ := Codec.of_bind_ok h
    rw [hx v hv]
    exact hf v w h
  rel_throw _ _ h := nomatch h
  rel_fieldInfo _ _ h := h

namespace Codec

variable {cx : Codec}

/-- What is written at some depth is written the same at greater ones. -/
theorem encode_mono {depth depth' : Nat} (h : depth ≤ depth') {ty : Ty} {d : Datum} {x : Tree}
    (written : encode cx depth ty d = (.ok x : Except Error Tree)) :
    encode cx depth' ty d = (.ok x : Except Error Tree) := by
  induction depth generalizing depth' ty d x with
  | zero => cases written
  | succ depth ih =>
    obtain ⟨below, rfl⟩ : ∃ n, depth' = n + 1 := ⟨depth' - 1, by omega⟩
    have lower (t : Ty) (e : Datum) :
        Correspondence.succeeding.rel (encode cx depth t e) (encode cx below t e) :=
      fun _ written => ih (by omega) written
    have hooks : Correspondence.succeeding.AdmitsHooks cx.registry :=
      ⟨fun _ _ _ _ => trivial, fun _ _ _ _ => trivial⟩
    have fields : Correspondence.succeeding.reading.Knows cx.catalogue := fun _ _ _ _ _ _ => trivial
    exact Correspondence.encodeStep lower fields hooks ty d x written

/-! ## The keys of an object -/

section Keys

variable {encode : Ty → Datum → Except Error Tree} {ty : Ty} {d : Datum} {es : Object} {k : String}

/-- The keys of a field's entries are its own, or those of the object that it inlines. -/
theorem of_entriesOf {f : Field} {x : Tree} {own : List (String × Tree)}
    (h : entriesOf f x = .ok own) {p : String × Tree} (mem : p ∈ own) :
    f.inline = false ∧ p = (f.key, x) ∨ f.inline = true ∧ x = .object own := by
  rcases inline : f.inline with _ | _
  · rw [entriesOf_apart inline] at h
    split at h <;> cases h
    · cases mem
    · exact .inl ⟨rfl, List.mem_singleton.mp mem⟩
  · simp only [entriesOf, inline, if_true] at h
    cases x with
    | object entries =>
      cases h
      exact .inr ⟨rfl, rfl⟩
    | null =>
      cases h
      cases mem
    | _ => cases h

/-- If the parts of a layer show their keys, so does the layer. -/
theorem keys_of_layer
    (below : ∀ {t e es}, encode t e = .ok (.object es) → ∀ k ∈ Object.keys es,
      cx.catalogue.Shows k t e)
    (h : encodeLayer cx encode ty d = .ok (.object es)) (hk : k ∈ Object.keys es) :
    cx.catalogue.Shows k ty d := by
  cases writesLayer_of_ok h with
  | content layer written => exact .content layer (below written k hk)
  | newtype body written => exact .content (.newtype body _) (.of_peel (below written k hk))
  | map written =>
    obtain ⟨p, mem, rfl⟩ := List.mem_map.mp hk
    obtain ⟨kd, e, at', -, text⟩ := of_mapEntries written (Object.mem_of_mem_ofList mem)
    exact .inr (.entry at' text)
  | record body written =>
    obtain ⟨p, mem, rfl⟩ := List.mem_map.mp hk
    obtain ⟨i, f, e, x, own, hf, kept, he, hx, entries, mem⟩ :=
      of_contributions written (Object.mem_of_mem_ofList mem)
    have field : f ∈ _ := List.mem_of_getElem? hf
    obtain ⟨apart, rfl⟩ | ⟨inline, rfl⟩ := of_entriesOf entries mem
    · exact .inl (.own body field kept apart)
    · exact (below hx p.1 (List.mem_map.mpr ⟨p, mem, rfl⟩)).imp
        (.inlined body field kept inline) (.inlined body hf kept inline he)
  | scalar written => cases (Scalar.family?_of_encode written).2

end Keys

/-- The keys of a datum's object are declared or data. -/
theorem keys_of_encode (initial : cx.registry = .initial) {depth : Nat} {ty : Ty} {d : Datum}
    {es : Object} (h : encode cx depth ty d = (.ok (.object es) : Except Error Tree)) {k : String}
    (hk : k ∈ es.keys) : cx.catalogue.Shows k ty d := by
  induction depth generalizing ty d es k with
  | zero => cases h
  | succ depth ih =>
    by_cases slot : ty = .tree
    · subst slot
      rw [encode, encodeStep, initial] at h
      cases d with
      | tree t =>
        cases h
        exact .inr (.slot hk)
      | _ => cases h
    · rw [encode_unhooked (encoder?_of_initial initial slot)] at h
      exact keys_of_layer (fun written _ hk => ih written hk) h hk

/-! ## One field among others -/

/-- Whether a field's datum is left out of the object of its record, though the field has a
part in it: it counts as empty, or nothing but null is written of it. -/
def LeavesOut (cx : Codec) (f : Field) (d : Datum) : Prop :=
  f.omitEmpty = true ∧
    (cx.catalogue.isZero f.ty d = true ∨ cx.toTree f.ty d = (.ok .null : Except Error Tree))

section Contributions

variable {encode : Ty → Datum → Except Error Tree} {ty : Ty} {fs : List Field} {ds : List Datum}
  {es : List (String × Tree)}

/-- A field that is not inlined has one entry, unless it is left out. -/
theorem of_contribution_apart {f : Field} {d : Datum} (kept : f.skipped = false)
    (apart : f.inline = false) (h : cx.contribution encode f d = .ok es) :
    (f.omitEmpty = true ∧ (cx.catalogue.isZero f.ty d = true ∨ encode f.ty d = .ok .null)) ∨
      ∃ x, encode f.ty d = .ok x ∧ es = [(f.key, x)] := by
  rw [contribution, kept, Bool.false_or] at h
  split at h
  · rename_i out
    rw [Bool.and_eq_true] at out
    exact .inl ⟨out.1, .inl out.2⟩
  · obtain ⟨x, hx, h⟩ := of_bind_ok h
    rw [entriesOf_apart apart] at h
    split at h <;> cases h
    · rename_i out
      rw [Bool.and_eq_true] at out
      cases x with
      | null => exact .inl ⟨out.1, .inr hx⟩
      | _ => cases out.2
    · exact .inr ⟨x, hx, rfl⟩

/-- What a field contributes stands between what the others contribute. -/
theorem contributions_at (h : cx.contributions encode ty fs ds = .ok es) {i : Nat} {f : Field}
    {d : Datum} (hf : fs[i]? = some f) (hd : ds[i]? = some d) :
    ∃ ps own qs, es = ps ++ (own ++ qs) ∧ cx.contribution encode f d = .ok own ∧
      cx.contributions encode ty (fs.drop (i + 1)) (ds.drop (i + 1)) = .ok qs := by
  induction fs generalizing ds es i with
  | nil => cases hf
  | cons g fs ih =>
    cases ds with
    | nil => cases hd
    | cons e ds =>
      obtain ⟨first, hfirst, h⟩ := of_bind_ok h
      obtain ⟨rest, hrest, h⟩ := of_bind_ok h
      cases h
      cases i with
      | zero =>
        cases hf
        cases hd
        exact ⟨[], first, rest, rfl, hfirst, hrest⟩
      | succ i =>
        obtain ⟨ps, own, qs, rfl, field, behind⟩ := ih hrest hf hd
        exact ⟨first ++ ps, own, qs, (List.append_assoc ..).symm, field, behind⟩

end Contributions

/-- Behind position `i` of a record an inlined field puts a tree under a key that is data. -/
def SpelledBehind (cx : Codec) (fs : List Field) (ds : List Datum) (i : Nat) (k : String)
    (u : Tree) : Prop :=
  ∃ j g e es, i < j ∧ fs[j]? = some g ∧ g.skipped = false ∧ g.inline = true ∧ ds[j]? = some e ∧
    cx.catalogue.Spells g.ty e k ∧ cx.toTree g.ty e = (.ok (.object es) : Except Error Tree) ∧
    (k, u) ∈ es

variable {name : String} {fs : List Field} {ds : List Datum} {o : Object} {i : Nat} {f : Field}
  {d : Datum}

/-- A field that is not left out has its entry among those of the record. -/
theorem entry_of_toTree (initial : cx.registry = .initial)
    (body : cx.catalogue.body? name = some (.record fs))
    (written : cx.toTree (.named name) (.product ds) = (.ok (.object o) : Except Error Tree))
    (hf : fs[i]? = some f) (hd : ds[i]? = some d) (kept : f.skipped = false)
    (apart : f.inline = false) (shown : ¬ cx.LeavesOut f d) :
    ∃ depth x ps qs, cx.maxDepth = depth + 1 ∧ cx.toTree f.ty d = (.ok x : Except Error Tree) ∧
      o = Object.ofList (ps ++ ([(f.key, x)] ++ qs)) ∧
      cx.contributions (encode cx depth) (.named name) (fs.drop (i + 1)) (ds.drop (i + 1)) =
        .ok qs := by
  have whole : (encode cx cx.maxDepth (.named name) (.product ds) : Except Error Tree) =
      .ok (.object o) := written
  rcases limit : cx.maxDepth with _ | depth <;> rw [limit] at whole
  · cases whole
  have deeper : depth ≤ cx.maxDepth := by omega
  rw [encode_unhooked (encoder?_of_initial initial (by simp))] at whole
  obtain ⟨es, hes, object⟩ := of_encode_record body whole
  obtain ⟨ps, own, qs, rfl, field, behind⟩ := contributions_at hes hf hd
  obtain ⟨empty, out⟩ | ⟨x, hx, rfl⟩ := of_contribution_apart kept apart field
  · exact absurd ⟨empty, out.imp id (encode_mono deeper)⟩ shown
  · exact ⟨depth, x, ps, qs, rfl, encode_mono deeper hx, Tree.object.inj object, behind⟩

/-- A field whose key is missing is left out. -/
theorem leavesOut_of_missing (initial : cx.registry = .initial)
    (body : cx.catalogue.body? name = some (.record fs))
    (written : cx.toTree (.named name) (.product ds) = (.ok (.object o) : Except Error Tree))
    (hf : fs[i]? = some f) (hd : ds[i]? = some d) (kept : f.skipped = false)
    (apart : f.inline = false) (missing : o.find? f.key = none) : cx.LeavesOut f d := by
  refine Classical.byContradiction fun shown => ?_
  obtain ⟨_, x, ps, qs, -, -, rfl, -⟩ := entry_of_toTree initial body written hf hd kept apart shown
  refine Object.find?_eq_none_iff.mp missing ((Object.mem_keys_extend [] _ _).mpr (.inl ?_))
  simp

end Codec

/-! ## What stands under a field's key -/

/-- A field that is not inlined and not left out has its tree in the object of its record, if the
record and those inlined in it declare different keys, unless an inlined map or slot behind the
field has the field's key. Then the key is there still, with a tree of that map or slot. -/
theorem written_field_stands (cx : Codec) (initial : cx.registry = .initial) {name : String}
    {fs : List Field} (body : cx.catalogue.body? name = some (.record fs))
    (apart : cx.catalogue.DeclaresApart fs) {ds : List Datum} {o : Object}
    (written : cx.toTree (.named name) (.product ds) = (.ok (.object o) : Except Error Tree))
    {i : Nat} {f : Field} {d : Datum} (hf : fs[i]? = some f) (hd : ds[i]? = some d)
    (kept : f.skipped = false) (own : f.inline = false) (shown : ¬ cx.LeavesOut f d) :
    ∃ x u, cx.toTree f.ty d = (.ok x : Except Error Tree) ∧ o.find? f.key = some u ∧
      (u = x ∨ cx.SpelledBehind fs ds i f.key u) := by
  obtain ⟨depth, x, ps, qs, limit, hx, rfl, behind⟩ :=
    Codec.entry_of_toTree initial body written hf hd kept own shown
  have deeper : depth ≤ cx.maxDepth := by omega
  have alone : Object.find? (Object.ofList [(f.key, x)]) f.key = some x :=
    (Object.find?_cons f.key x [] f.key).trans (if_pos rfl)
  have under : Object.find? (Object.ofList (ps ++ ([(f.key, x)] ++ qs))) f.key =
      ((Object.ofList qs).find? f.key).or (some x) := by
    rw [Object.find?_ofList_append, Object.find?_ofList_append, alone, Option.or_assoc,
      Option.some_or]
  rcases found : (Object.ofList qs).find? f.key with _ | u <;> rw [found] at under
  · exact ⟨x, x, hx, under, .inl rfl⟩
  · have entry := Object.mem_of_mem_ofList (Object.mem_of_find? found)
    obtain ⟨j, g, e, y, es, hg, kept', he, hy, entries, mem⟩ := Codec.of_contributions behind entry
    rw [List.getElem?_drop] at hg he
    have later : i < i + 1 + j := by omega
    have different := apart.not_declares later hf hg ⟨kept, .inl ⟨own, rfl⟩⟩
    obtain ⟨apart', same⟩ | ⟨inline, rfl⟩ := Codec.of_entriesOf entries mem
    · exact absurd ⟨kept', .inl ⟨apart', congrArg Prod.fst same⟩⟩ different
    · have shows := Codec.keys_of_encode initial hy (List.mem_map.mpr ⟨_, mem, rfl⟩)
      have spelled := shows.resolve_left fun h => different ⟨kept', .inr ⟨inline, h⟩⟩
      have written := Codec.encode_mono deeper hy
      exact ⟨x, u, hx, under, .inr
        ⟨_, g, e, es, later, hg, kept', inline, he, spelled, written, mem⟩⟩

/-- Things declare their name, and nothing by their tags. -/
theorem Catalogue.declaresApart_thing :
    Catalogue.things.DeclaresApart [Catalogue.thingName, Catalogue.thingTags] := by
  have tags (k : String) : ¬ Catalogue.things.FieldDeclares Catalogue.thingTags k := by
    rintro ⟨-, ⟨apart, -⟩ | ⟨-, declared⟩⟩
    · cases apart
    · cases declared with
      | content layer => cases layer
  simp [DeclaresApart, tags]

/-- The name of a thing stands beside a tag. -/
theorem written_field_stands_thing :
    let cx := Codec.things Codec.defaultDepth
    let ds := [Datum.text "a", .map [(.text "k", .text "v")]]
    ∃ o, cx.toTree (.named "thing") (.product ds) = (.ok (.object o) : Except Error Tree) ∧
      ∃ x u, cx.toTree .string (.text "a") = (.ok x : Except Error Tree) ∧
        Object.find? o "name" = some u ∧
        (u = x ∨ cx.SpelledBehind [Catalogue.thingName, Catalogue.thingTags] ds 0 "name" u) := by
  intro cx ds
  have written : cx.toTree (.named "thing") (.product ds) =
      (.ok (.object [("k", .string "v"), ("name", .string "a")]) : Except Error Tree) := rfl
  have shown : ¬ cx.LeavesOut Catalogue.thingName (.text "a") := fun out => Bool.false_ne_true out.1
  exact ⟨_, written, written_field_stands cx rfl rfl Catalogue.declaresApart_thing written
    (f := Catalogue.thingName) (i := 0) rfl rfl rfl rfl shown⟩

/-- A tag that is called like the name of a thing takes its place, however deep the codec goes:
the tree under the key is not the name's. -/
theorem tag_takes_the_name :
    let d := Datum.product [.text "a", .map [(.text "name", .text "b")]]
    Catalogue.things.DeclaresApart [Catalogue.thingName, Catalogue.thingTags] ∧
    HasType .things (.named "thing") d ∧ ∀ maxDepth, 3 ≤ maxDepth →
      let cx := Codec.things maxDepth
      ¬ cx.LeavesOut Catalogue.thingName (.text "a") ∧
      cx.toTree .string (.text "a") = (.ok (.string "a") : Except Error Tree) ∧
      cx.toTree (.named "thing") d =
        (.ok (.object [("name", .string "b")]) : Except Error Tree) := by
  intro d
  refine ⟨Catalogue.declaresApart_thing, hasType_thing "a" (by simp) (by simp [HasType.string])
    (by simp [HasType.string]), fun maxDepth deep => ?_⟩
  obtain ⟨k, rfl⟩ := Nat.exists_eq_add_of_le' deep
  exact ⟨fun out => Bool.false_ne_true out.1, rfl, rfl⟩

end TreeCodec
