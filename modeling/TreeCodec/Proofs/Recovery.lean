import TreeCodec.Proofs.Lossless
import TreeCodec.Proofs.Reading
import TreeCodec.Proofs.UnknownKeys

/-!
# What comes back

What it is for trees, objects, fields, items and entries to be read as the data that they
were written for, and how these are put together:

* `Codec.ComesBack`: what is asked of a tree, and `Codec.PartComesBack` of the object of a
  record, which other fields may share when the record is inlined;
* `Codec.FieldsComeBack.cons`: fields that consume different keys do not disturb one another;
* `Codec.ComesBack.content`: layers that read the same tree as their content.
-/

namespace TreeCodec

theorem Object.find?_ofList_append (es es' : List (String × Tree)) (key : String) :
    find? (ofList (es ++ es')) key = (find? (ofList es') key).or (find? (ofList es) key) := by
  rw [← find?_extend]
  exact congrArg (find? · key) (extend_append [] es es')

theorem Object.find?_ofList_eq_none {es : List (String × Tree)} {key : String}
    (h : key ∉ es.map (·.1)) : find? (ofList es) key = none := by
  rw [find?_eq_none_iff, ofList, mem_keys_extend]
  exact fun hk => hk.elim h nofun

/-- Entries behind others do not disturb those under other keys, -/
theorem Object.find?_ofList_ahead {es rest : List (String × Tree)} {key : String}
    (h : key ∉ rest.map (·.1)) : find? (ofList (es ++ rest)) key = find? (ofList es) key := by
  rw [find?_ofList_append, find?_ofList_eq_none h, Option.none_or]

/-- nor do the ones before them. -/
theorem Object.find?_ofList_behind {es rest : List (String × Tree)} {key : String}
    (h : key ∉ es.map (·.1)) : find? (ofList (es ++ rest)) key = find? (ofList rest) key := by
  rw [find?_ofList_append, find?_ofList_eq_none h, Option.or_none]

/-- Entries that decide a property of objects by some keys: all of them are under such keys,
and whatever object has the same trees under these keys has the property. -/
structure Object.Decides (K : String → Prop) (P : Object → Prop) (es : List (String × Tree)) :
    Prop where
  own : ∀ k ∈ es.map (·.1), K k
  holds {o : Object} (same : ∀ k, K k → find? o k = find? (ofList es) k) : P o

namespace Object.Decides

variable {K K' : String → Prop} {P P' : Object → Prop} {es rest : List (String × Tree)}

theorem imp (h : Decides K P es) (keys : ∀ k, K k ↔ K' k) (hP : ∀ o, P o → P' o) :
    Decides K' P' es :=
  ⟨fun k hk => (keys k).mp (h.own k hk),
    fun same => hP _ (h.holds fun k hk => same k ((keys k).mp hk))⟩

/-- Entries that go by different keys leave one another alone. -/
theorem append (h : Decides K P es) (h' : Decides K' P' rest) (apart : ∀ k, K k → ¬ K' k) :
    Decides (fun k => K k ∨ K' k) (fun o => P o ∧ P' o) (es ++ rest) := by
  refine ⟨fun k hk => ?_, fun same => ⟨h.holds fun k hk => ?_, h'.holds fun k hk => ?_⟩⟩
  · rw [List.map_append, List.mem_append] at hk
    exact hk.imp (h.own k) (h'.own k)
  · rw [same k (.inl hk), find?_ofList_ahead fun there => apart k hk (h'.own k there)]
  · rw [same k (.inr hk), find?_ofList_behind fun there => apart k (h.own k there) hk]

/-- Entries may be put together first. -/
theorem ofList (h : Decides K P es) : Decides K P (Object.ofList es) := by
  refine ⟨fun k hk => ?_, fun same => h.holds fun k hk => ?_⟩
  · rcases (mem_keys_extend [] es k).mp hk with hk | hk
    · exact h.own k hk
    · cases hk
  · rw [same k hk, (sorted_ofList es).find?_ofList]

end Object.Decides

namespace Codec

/-! ## What comes back -/

section

variable (cx : Codec) (dec : Decoder (Except Error))

/-- A tree that is read as a datum, but for the order in maps, and has no unknown key. -/
structure ComesBack (ty : Ty) (d : Datum) (x : Tree) : Prop where
  read (s : Scope) : ∃ e, d.Same e ∧ Gives (dec.tree s ty x) e
  known (p q : Path) : ¬ cx.Unknown ty x p q

/-- The object of a record. Whatever object has the record's keys as this one is read as
the record. -/
structure PartComesBack (ty : Ty) (d : Datum) (es : Object) : Prop where
  sorted : es.Sorted
  own : ∀ k ∈ Object.keys es, cx.Consumes ty k
  read {o : Object} (h : ∀ k, cx.Consumes ty k → Object.find? o k = Object.find? es k) (s : Scope) :
    ∃ e, d.Same e ∧ Gives (dec.object s ty o) e
  known {o : Object} (h : ∀ k, cx.Consumes ty k → Object.find? o k = Object.find? es k)
    (p q : Path) : ¬ cx.UnknownPart ty o p q

/-- The entries of a field. -/
structure FieldComesBack (f : Field) (d : Datum) (es : List (String × Tree)) : Prop where
  own : ∀ k ∈ es.map (·.1), cx.FieldConsumes f k
  read {o : Object}
    (h : ∀ k, cx.FieldConsumes f k → Object.find? o k = Object.find? (Object.ofList es) k)
    (s : Scope) (ty : Ty) (i : Nat) : ∃ e, d.Same e ∧ Gives (decodeField cx dec s ty o i f) e
  known {o : Object}
    (h : ∀ k, cx.FieldConsumes f k → Object.find? o k = Object.find? (Object.ofList es) k)
    (p q : Path) : ¬ cx.UnknownField f o p q

/-- The entries of several fields. -/
structure FieldsComeBack (fs : List Field) (ds : List Datum) (es : List (String × Tree)) : Prop where
  own : ∀ k ∈ es.map (·.1), ∃ f ∈ fs, cx.FieldConsumes f k
  read {o : Object} (h : ∀ k, (∃ f ∈ fs, cx.FieldConsumes f k) →
      Object.find? o k = Object.find? (Object.ofList es) k)
    (s : Scope) (ty : Ty) (i : Nat) :
    ∃ ds', List.Forall₂ Datum.Same ds ds' ∧ Gives (decodeFields cx dec s ty o i fs) ds'
  known {o : Object} (h : ∀ k, (∃ f ∈ fs, cx.FieldConsumes f k) →
      Object.find? o k = Object.find? (Object.ofList es) k)
    (p q : Path) : ¬ ∃ f ∈ fs, cx.UnknownField f o p q

end

variable {cx : Codec} {dec : Decoder (Except Error)}

/-! ## Fields -/

theorem FieldsComeBack.nil : cx.FieldsComeBack dec [] [] [] where
  own _ hk := nomatch hk
  read _ _ _ _ := ⟨[], .nil, .pure []⟩
  known _ _ _ := by simp

/-- Fields that consume other keys than the ones behind them leave these alone. -/
theorem FieldsComeBack.cons {f : Field} {fs : List Field} {d : Datum} {ds : List Datum}
    {es rest : List (String × Tree)} (hf : cx.FieldComesBack dec f d es)
    (hfs : cx.FieldsComeBack dec fs ds rest)
    (keys : ∀ g ∈ fs, ∀ k, cx.FieldConsumes f k → ¬ cx.FieldConsumes g k) :
    cx.FieldsComeBack dec (f :: fs) (d :: ds) (es ++ rest) := by
  have apart (k : String) (hk : cx.FieldConsumes f k) : ¬ ∃ g ∈ fs, cx.FieldConsumes g k :=
    fun ⟨g, hg, hgk⟩ => keys g hg k hk hgk
  have read := Object.Decides.append ⟨hf.own, hf.read⟩ ⟨hfs.own, hfs.read⟩ apart
  have known := Object.Decides.append ⟨hf.own, hf.known⟩ ⟨hfs.own, hfs.known⟩ apart
  have either (k : String) : (∃ g ∈ f :: fs, cx.FieldConsumes g k) ↔
      cx.FieldConsumes f k ∨ ∃ g ∈ fs, cx.FieldConsumes g k := List.exists_mem_cons_iff ..
  refine ⟨fun k hk => (either k).mpr (read.own k hk), fun {o} h s ty i => ?_,
    fun {o} h p q => ?_⟩
  · have ⟨first, later⟩ := read.holds (o := o) fun k hk => h k ((either k).mpr hk)
    obtain ⟨e, he, given⟩ := first s ty i
    obtain ⟨ds', hds, given'⟩ := later s ty (i + 1)
    exact ⟨e :: ds', .cons he hds, given.bind (given'.map (e :: ·))⟩
  · have ⟨first, later⟩ := known.holds (o := o) fun k hk => h k ((either k).mpr hk)
    rintro ⟨g, hg, unknown⟩
    rcases List.mem_cons.mp hg with rfl | hg
    · exact first p q unknown
    · exact later p q ⟨g, hg, unknown⟩

/-- A field that is left out holds the zero of its type. -/
theorem FieldComesBack.omitted {f : Field} {d : Datum} (kept : f.skipped = false)
    (apart : f.inline = false) (zero : cx.catalogue.zeroField f = .ok d) :
    cx.FieldComesBack dec f d [] := by
  have consumed : cx.FieldConsumes f f.key := ⟨kept, .inl ⟨apart, rfl⟩⟩
  refine ⟨nofun, fun h s ty i => ⟨d, .refl d, ?_⟩, fun h p q unknown => ?_⟩
  · rw [decodeField_apart kept apart]
    exact gives_missing (h _ consumed) zero
  · obtain ⟨-, ⟨-, x, hx, -⟩ | ⟨inline, -⟩⟩ := unknown
    · rw [h _ consumed] at hx
      cases hx
    · rw [apart] at inline
      cases inline

/-- A field under its own key. -/
theorem ComesBack.field {f : Field} {d : Datum} {x : Tree} (h : cx.ComesBack dec f.ty d x)
    (kept : f.skipped = false) (apart : f.inline = false) :
    cx.FieldComesBack dec f d [(f.key, x)] := by
  have consumed : cx.FieldConsumes f f.key := ⟨kept, .inl ⟨apart, rfl⟩⟩
  have there : Object.find? (Object.ofList [(f.key, x)]) f.key = some x := by
    rw [Object.ofList_cons]
    exact (Object.find?_cons ..).trans (if_pos rfl)
  refine ⟨fun k hk => ?_, fun agree s ty i => ?_, fun agree p q unknown => ?_⟩
  · cases List.mem_singleton.mp hk
    exact consumed
  · obtain ⟨e, he, given⟩ := h.read (s.enter (.key f.key))
    refine ⟨e, he, ?_⟩
    rw [decodeField_apart kept apart]
    exact gives_key ((agree _ consumed).trans there) given
  · obtain ⟨-, ⟨-, y, hy, hu⟩ | ⟨inline, -⟩⟩ := unknown
    · rw [agree _ consumed, there] at hy
      cases hy
      exact h.known _ q hu
    · rw [apart] at inline
      cases inline

/-- A field whose record is inlined. -/
theorem PartComesBack.field {f : Field} {d : Datum} {es : Object} (h : cx.PartComesBack dec f.ty d es)
    (kept : f.skipped = false) (inline : f.inline = true) : cx.FieldComesBack dec f d es := by
  have consumed (k : String) (hk : cx.Consumes f.ty k) : cx.FieldConsumes f k :=
    ⟨kept, .inr ⟨inline, hk⟩⟩
  rw [← h.sorted.ofList_eq]
  refine ⟨fun k hk => ?_, fun agree s ty i => ?_, fun agree p q unknown => ?_⟩
  · rw [h.sorted.ofList_eq] at hk
    exact consumed k (h.own k hk)
  · rw [h.sorted.ofList_eq, h.sorted.ofList_eq] at agree
    rw [decodeField_inlined kept inline]
    exact h.read (fun k hk => agree k (consumed k hk)) s.inline
  · rw [h.sorted.ofList_eq, h.sorted.ofList_eq] at agree
    obtain ⟨-, ⟨apart, -⟩ | ⟨-, hu⟩⟩ := unknown
    · rw [inline] at apart
      cases apart
    · exact h.known (fun k hk => agree k (consumed k hk)) p q hu

/-! ## Items and entries -/

/-- The items of an array, each of a type of its own. -/
structure ItemsComeBack (cx : Codec) (dec : Decoder (Except Error)) (ts : List Ty) (ds : List Datum)
    (xs : List Tree) : Prop where
  length : xs.length = ts.length
  read (s : Scope) (i : Nat) :
    ∃ ds', List.Forall₂ Datum.Same ds ds' ∧ Gives (decodeItems dec s i ts xs) ds'
  known {j : Nat} {t : Ty} {x : Tree} (ht : ts[j]? = some t) (hx : xs[j]? = some x) (p q : Path) :
    ¬ cx.Unknown t x p q

theorem ItemsComeBack.nil : cx.ItemsComeBack dec [] [] [] where
  length := rfl
  read _ _ := ⟨[], .nil, .pure []⟩
  known ht := nomatch ht

theorem ItemsComeBack.cons {t : Ty} {ts : List Ty} {d : Datum} {ds : List Datum} {x : Tree}
    {xs : List Tree} (h : cx.ComesBack dec t d x) (hs : cx.ItemsComeBack dec ts ds xs) :
    cx.ItemsComeBack dec (t :: ts) (d :: ds) (x :: xs) := by
  refine ⟨congrArg Nat.succ hs.length, fun s i => ?_, fun {j} _ _ ht hx p q => ?_⟩
  · obtain ⟨e, he, given⟩ := h.read (s.enter (.index i))
    obtain ⟨ds', hds, given'⟩ := hs.read s (i + 1)
    exact ⟨e :: ds', .cons he hds, given.bind (given'.map (e :: ·))⟩
  · cases j with
    | zero =>
      cases ht
      cases hx
      exact h.known p q
    | succ j => exact hs.known ht hx p q

/-- A tree under a text is an entry of a map. -/
def EntryComesBack (cx : Codec) (dec : Decoder (Except Error)) (key value : Ty)
    (p : String × Tree) (e : Datum × Datum) : Prop :=
  HasType cx.catalogue key e.1 ∧ cx.catalogue.text? key e.1 = some p.1 ∧
    cx.ComesBack dec value e.2 p.2

theorem read_entries {key value : Ty} {names : List String} (text : cx.catalogue.TextKey names key)
    {o : Object} {es : List (Datum × Datum)}
    (h : List.Forall₂ (cx.EntryComesBack dec key value) o es) (s : Scope) :
    ∃ es', es.map Prod.fst = es'.map Prod.fst ∧
      List.Forall₂ Datum.Same (es.map Prod.snd) (es'.map Prod.snd) ∧
      Gives (decodeEntries cx dec s key value o) es' := by
  induction h with
  | nil => exact ⟨[], rfl, .nil, .pure []⟩
  | @cons p e o es hp _ ih =>
    obtain ⟨typed, spelled, back⟩ := hp
    obtain ⟨d, hd, given⟩ := back.read (s.enter (.key p.1))
    obtain ⟨es', keys, values, given'⟩ := ih
    refine ⟨(e.1, d) :: es', congrArg (e.1 :: ·) keys, .cons hd values, ?_⟩
    have key := Gives.ofExcept (text.keyOf_of_text? typed spelled)
    exact key.bind (given.bind (given'.map ((e.1, d) :: ·)))

theorem known_entries {key value : Ty} {o : Object} {es : List (Datum × Datum)}
    (h : List.Forall₂ (cx.EntryComesBack dec key value) o es) {k : String} {x : Tree}
    (hx : (k, x) ∈ o) (p q : Path) : ¬ cx.Unknown value x p q := by
  induction h with
  | nil => cases hx
  | cons hp _ ih =>
    rcases List.mem_cons.mp hx with rfl | hx
    · exact hp.2.2.known p q
    · exact ih hx

/-- The texts of different keys are different. -/
theorem nodup_texts {key value : Ty} {names : List String} (text : cx.catalogue.TextKey names key)
    {ps : List (String × Tree)} {es : List (Datum × Datum)}
    (h : List.Forall₂ (cx.EntryComesBack dec key value) ps es) (distinct : (es.map Prod.fst).Nodup) :
    (ps.map (·.1)).Nodup := by
  induction h with
  | nil => exact List.nodup_nil
  | @cons p e ps es hp hps ih =>
    rw [List.map_cons, List.nodup_cons] at distinct ⊢
    refine ⟨fun twice => distinct.1 ?_, ih distinct.2⟩
    clear ih distinct
    induction hps with
    | nil => cases twice
    | @cons p' e' ps es hp' _ ih =>
      rw [List.map_cons, List.mem_cons] at twice ⊢
      rcases twice with same | twice
      · left
        exact text.text?_inj hp.1 hp'.1 hp.2.1 (same ▸ hp'.2.1)
      · exact .inr (ih twice)

/-! ## Layers -/

/-- A layer that reads the same tree as its content and puts it into a wrapping. -/
theorem ComesBack.content {dec' : Decoder (Except Error)} {ty t : Ty} {d : Datum} {x : Tree}
    (h : cx.ComesBack dec t d x) (wrap : Datum → Datum) (same : ∀ e, d.Same e → (wrap d).Same (wrap e))
    (hook : cx.registry.decoder? ty = none) (layer : cx.catalogue.below ty = .content t)
    (hx : x ≠ .null)
    (reads : ∀ s e, Gives (dec.tree s t x) e → Gives (dec'.tree s ty x) (wrap e)) :
    cx.ComesBack dec' ty (wrap d) x := by
  refine ⟨fun s => ?_, fun p q => ?_⟩
  · obtain ⟨e, he, given⟩ := h.read s
    exact ⟨wrap e, same e he, reads s e given⟩
  · rw [unknown_content hook layer hx]
    exact h.known p q

theorem PartComesBack.wrapped {dec' : Decoder (Except Error)} {ty t : Ty} {d : Datum} {es : Object}
    (h : cx.PartComesBack dec t d es) (hook : cx.registry.decoder? ty = none)
    (layer : cx.catalogue.below ty = .content t)
    (reads : ∀ s o e, Gives (dec.object s t o) e → Gives (dec'.object s ty o) (.wrapped e)) :
    cx.PartComesBack dec' ty (.wrapped d) es := by
  have consumed (k : String) : cx.Consumes ty k ↔ cx.Consumes t k := consumes_content hook layer
  refine ⟨h.sorted, fun k hk => ?_, fun agree s => ?_, fun agree p q => ?_⟩
  · rw [consumed]
    exact h.own k hk
  · obtain ⟨e, he, given⟩ := h.read (fun k hk => agree k ((consumed k).mpr hk)) s
    exact ⟨.wrapped e, .wrapped he, reads s _ e given⟩
  · rw [unknownPart_content hook layer]
    exact h.known (fun k hk => agree k ((consumed k).mpr hk)) p q

/-- What has nothing below it and is read as a datum. -/
theorem ComesBack.leaf {ty : Ty} {d : Datum} {x : Tree} (layer : cx.catalogue.below ty = .nothing)
    (h : ∀ s, Gives (dec.tree s ty x) d) : cx.ComesBack dec ty d x :=
  ⟨fun s => ⟨d, .refl d, h s⟩, fun _ _ => not_unknown_nothing layer⟩

theorem ItemsComeBack.positional {ts : List Ty} {ds : List Datum} {xs : List Tree}
    (h : cx.ItemsComeBack dec ts ds xs) (ty : Ty) (s : Scope) :
    ∃ ds', List.Forall₂ Datum.Same ds ds' ∧
      Gives (decodePositional dec s ty ts (.array xs)) ds' := by
  obtain ⟨ds', hds, given⟩ := h.read s 0
  refine ⟨ds', hds, ?_⟩
  rw [decodePositional, if_pos h.length]
  exact given

/-- The items of an array have no unknown keys. -/
theorem ItemsComeBack.known_array {ty : Ty} {item? : Nat → Option Ty} {ts : List Ty}
    {ds : List Datum} {xs : List Tree} (h : cx.ItemsComeBack dec ts ds xs)
    (hook : cx.registry.decoder? ty = none) (layer : cx.catalogue.below ty = .items item?)
    (ht : ∀ i t, i < ts.length → item? i = some t → ts[i]? = some t) (p q : Path) :
    ¬ cx.Unknown ty (.array xs) p q := by
  rw [unknown_items hook layer]
  rintro ⟨i, t, x, hi, hx, unknown⟩
  have bound : i < ts.length := h.length ▸ (List.getElem?_eq_some_iff.mp hx).1
  exact h.known (ht i t bound hi) hx _ q unknown

/-- A record as a tree of its own. -/
theorem FieldsComeBack.known_record {ty : Ty} {fs : List Field} {ds : List Datum}
    {es : List (String × Tree)} (h : cx.FieldsComeBack dec fs ds es)
    (hook : cx.registry.decoder? ty = none) (layer : cx.catalogue.below ty = .record fs)
    (p q : Path) : ¬ cx.Unknown ty (.object (Object.ofList es)) p q := by
  rw [unknown_record hook layer, unknownPart_record hook layer]
  rintro (unknown | ⟨k, hk, stray, -⟩)
  · exact h.known (fun _ _ => rfl) p q unknown
  · rw [Object.ofList, Object.mem_keys_extend] at hk
    rcases hk with hk | hk
    · rw [consumes_record hook layer] at stray
      exact stray (h.own k hk)
    · cases hk

/-- A record as a part of another one. -/
theorem FieldsComeBack.part {dec' : Decoder (Except Error)} {ty : Ty} {fs : List Field}
    {ds : List Datum} {es : List (String × Tree)} (h : cx.FieldsComeBack dec fs ds es)
    (hook : cx.registry.decoder? ty = none) (layer : cx.catalogue.below ty = .record fs)
    (reads : ∀ s o ds', Gives (decodeFields cx dec s ty o 0 fs) ds' →
      Gives (dec'.object s ty o) (.product ds')) :
    cx.PartComesBack dec' ty (.product ds) (Object.ofList es) := by
  have consumed (k : String) : cx.Consumes ty k ↔ ∃ f ∈ fs, cx.FieldConsumes f k :=
    consumes_record hook layer
  refine ⟨Object.sorted_ofList es, fun k hk => ?_, fun agree s => ?_, fun agree p q => ?_⟩
  · rw [Object.ofList, Object.mem_keys_extend] at hk
    rcases hk with hk | hk
    · exact (consumed k).mpr (h.own k hk)
    · cases hk
  · obtain ⟨ds', hds, given⟩ := h.read (fun k hk => agree k ((consumed k).mpr hk)) s ty 0
    exact ⟨.product ds', .product hds, reads s _ ds' given⟩
  · rw [unknownPart_record hook layer]
    exact h.known (fun k hk => agree k ((consumed k).mpr hk)) p q

end Codec

end TreeCodec
