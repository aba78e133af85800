import TreeCodec.Proofs.Positions
import TreeCodec.Proofs.Reading

/-!
# Keys without effect

A lax conversion does not see what stands under keys that no field reads
(`unread_keys_are_inert`), where inlined fields reach records: of two trees that differ in
nothing else (`Codec.Alike`) it makes the same datum, or it fails with the same error.

* `Codec.Alike.of_part`: an object that differs in unread keys only is alike for every record
  that is inlined into its own;
* `Codec.Inert.decodeStep`, `Codec.Inert.decodeObjectStep`: a layer reads alike trees alike if
  its parts do;
* `Codec.inert_decoder`: so does a decoder of any depth.
-/

namespace TreeCodec

namespace Codec

/-- The inlined fields of a type, and of all types that it meets, reach records. -/
def InlinesRecords (cx : Codec) (ty : Ty) : Prop := cx.Everywhere (cx.InlinesOnly cx.HoldsRecord) ty

/-- Trees that differ, as a type reads them, only under keys of records that the records do
not read. -/
inductive Alike (cx : Codec) : Ty → Tree → Tree → Prop
  | refl (ty : Ty) (x : Tree) : Alike cx ty x x
  | wrapped {ty t : Ty} {x y : Tree} (hook : cx.registry.decoder? ty = none)
    (layer : cx.catalogue.Wraps ty t) (h : Alike cx t x y) : Alike cx ty x y
  | items {ty : Ty} {item? : Nat → Option Ty} {xs ys : List Tree}
    (hook : cx.registry.decoder? ty = none) (layer : cx.catalogue.below ty = .items item?)
    (length : xs.length = ys.length)
    (h : ∀ (i : Nat) (t : Ty) (x y : Tree), item? i = some t → xs[i]? = some x →
      ys[i]? = some y → Alike cx t x y) :
    Alike cx ty (.array xs) (.array ys)
  | entries {ty t : Ty} {o o' : Object} (hook : cx.registry.decoder? ty = none)
    (layer : cx.catalogue.below ty = .entries t) (keys : Object.keys o = Object.keys o')
    (h : ∀ (i : Nat) (e e' : String × Tree), o[i]? = some e → o'[i]? = some e' →
      Alike cx t e.2 e'.2) :
    Alike cx ty (.object o) (.object o')
  | record {ty : Ty} {fs : List Field} {o o' : Object} (hook : cx.registry.decoder? ty = none)
    (layer : cx.catalogue.below ty = .record fs)
    (held : ∀ k t, cx.Asks ty k t → (Object.find? o k = none ↔ Object.find? o' k = none))
    (h : ∀ k t x y, cx.Asks ty k t → Object.find? o k = some x → Object.find? o' k = some y →
      Alike cx t x y) : Alike cx ty (.object o) (.object o')

/-- Objects that differ, as a part of a record reads them, only under keys that the part does
not read, and below. -/
structure AlikePart (cx : Codec) (ty : Ty) (o o' : Object) : Prop where
  held {k : String} {t : Ty} : cx.Asks ty k t → (Object.find? o k = none ↔ Object.find? o' k = none)
  alike {k : String} {t : Ty} {x y : Tree} : cx.Asks ty k t → Object.find? o k = some x →
    Object.find? o' k = some y → cx.Alike t x y

variable {cx : Codec} {ty t : Ty} {x y : Tree} {o o' : Object}

/-- What a hook reads is the same tree. -/
theorem Alike.eq_of_hook {hook : Tree → Except Error Datum}
    (hk : cx.registry.decoder? ty = some hook) (h : cx.Alike ty x y) : x = y := by
  cases h <;> simp_all

theorem Alike.null_iff (h : cx.Alike ty x y) : x = .null ↔ y = .null := by
  induction h with
  | wrapped _ _ _ ih => exact ih
  | _ => simp

/-- Objects in which all keys that a record reads stand alike. -/
theorem Alike.of_unread {fs : List Field} (hook : cx.registry.decoder? ty = none)
    (layer : cx.catalogue.below ty = .record fs)
    (same : ∀ k t, cx.Asks ty k t → Object.find? o k = Object.find? o' k) :
    cx.Alike ty (.object o) (.object o') := by
  refine .record hook layer (fun k t asks => by rw [same k t asks]) fun k t x y asks hx hy => ?_
  cases hx.symm.trans ((same k t asks).trans hy)
  exact .refl t x

theorem AlikePart.alike_of_reaches {u : Ty} {fs : List Field} (reach : cx.Reaches ty u)
    (layer : cx.catalogue.below u = .record fs) (h : cx.AlikePart ty o o') :
    cx.Alike ty (.object o) (.object o') := by
  induction reach with
  | here hook => exact .record hook layer (fun k t => h.held) fun k t x y => h.alike
  | wrapped hook wraps _ ih =>
    exact .wrapped hook wraps (ih layer ⟨fun asks => h.held (.wrapped hook wraps asks),
      fun asks => h.alike (.wrapped hook wraps asks)⟩)

/-! ## Layers -/

/-- A wrapper does one thing with what it wraps, whether that is read from a tree or from an
object. -/
theorem decodeLayer_wraps (layer : cx.catalogue.Wraps ty t) (dec : Decoder (Except Error)) :
    ∃ g : StateT Audit (Except Error) Datum → StateT Audit (Except Error) Datum,
      (∀ s x, decodeLayer cx dec s ty x = g (dec.tree s t x)) ∧
        ∀ s o, decodeObjectLayer cx dec s ty o = g (dec.object s t o) := by
  cases layer with
  | loan => exact ⟨decodePointer .borrowed t, fun _ _ => rfl, fun _ _ => rfl⟩
  | content layer =>
    cases ty with
    | option t =>
      cases layer
      exact ⟨fun r => r >>= fun d => pure (.present d), fun _ _ => rfl, fun _ _ => rfl⟩
    | pointer p u =>
      obtain rfl : u = t := by cases p <;> cases layer <;> rfl
      exact ⟨decodePointer p u, fun _ _ => rfl, fun _ _ => rfl⟩
    | nonZero k =>
      cases layer
      exact ⟨fun r => r >>= fun d => MonadExcept.ofExcept (wrapNonZero k d), fun _ _ => rfl,
        fun _ _ => rfl⟩
    | named name =>
      rcases body : cx.catalogue.body? name with _ | ⟨fs⟩ | ⟨fs⟩ | ⟨u⟩ | ⟨vs⟩ <;>
        simp [Catalogue.below, body] at layer
      subst layer
      refine ⟨fun r => r >>= fun d => pure (.wrapped d), fun s x => ?_, fun s o => ?_⟩
      · simp only [decodeLayer, body, decodeDeclared]
      · simp only [decodeObjectLayer, body]
    | _ => cases layer

/-- A decoder that reads alike trees alike, wherever it stands in a lax conversion. -/
structure Inert (cx : Codec) (dec : Decoder (Except Error)) : Prop where
  tree (s : Scope) (lax : s.strict = false) {ty : Ty} (fit : cx.InlinesRecords ty)
    {x y : Tree} (h : cx.Alike ty x y) : dec.tree s ty x = dec.tree s ty y
  object (s : Scope) (lax : s.strict = false) {ty : Ty} (fit : cx.InlinesRecords ty)
    {o o' : Object} (h : cx.Alike ty (.object o) (.object o')) :
    dec.object s ty o = dec.object s ty o'

theorem decodeItems_congr {dec : Decoder (Except Error)} {s : Scope} (i : Nat) (ts : List Ty)
    {xs ys : List Tree} (length : xs.length = ys.length)
    (h : ∀ (j : Nat) (t : Ty) (x y : Tree), ts[j]? = some t → xs[j]? = some x → ys[j]? = some y →
      ∀ segment, dec.tree (s.enter segment) t x = dec.tree (s.enter segment) t y) :
    decodeItems dec s i ts xs = decodeItems dec s i ts ys := by
  induction ts generalizing i xs ys with
  | nil => rfl
  | cons t ts ih =>
    cases xs with
    | nil =>
      cases ys with
      | nil => rfl
      | cons y ys => cases length
    | cons x xs =>
      cases ys with
      | nil => cases length
      | cons y ys =>
        rw [decodeItems, decodeItems, h 0 t x y rfl rfl rfl,
          ih (i + 1) (Nat.succ.inj length) fun j u z w hu hz hw => h (j + 1) u z w hu hz hw]

namespace Inert

variable {dec : Decoder (Except Error)} (hd : cx.Inert dec) {s : Scope} (lax : s.strict = false)
include hd lax

theorem decodeItems {ts : List Ty} {xs ys : List Tree} (length : xs.length = ys.length)
    (h : ∀ (j : Nat) (t : Ty) (x y : Tree), ts[j]? = some t → xs[j]? = some x → ys[j]? = some y →
      cx.InlinesRecords t ∧ cx.Alike t x y) :
    Codec.decodeItems dec s 0 ts xs = Codec.decodeItems dec s 0 ts ys :=
  decodeItems_congr 0 ts length fun j t x y ht hx hy segment =>
    have ⟨fit, alike⟩ := h j t x y ht hx hy
    hd.tree (s.enter segment) lax fit alike

theorem decodeEntries {key value : Ty} (fit : cx.InlinesRecords value)
    (keys : Object.keys o = Object.keys o')
    (h : ∀ (i : Nat) (e e' : String × Tree), o[i]? = some e → o'[i]? = some e' →
      cx.Alike value e.2 e'.2) :
    Codec.decodeEntries cx dec s key value o = Codec.decodeEntries cx dec s key value o' := by
  induction o generalizing o' with
  | nil =>
    cases o' with
    | nil => rfl
    | cons e' o' => cases keys
  | cons e o ih =>
    cases o' with
    | nil => cases keys
    | cons e' o' =>
      obtain ⟨k, x⟩ := e
      obtain ⟨k', y⟩ := e'
      obtain ⟨rfl, rest⟩ := List.cons.inj keys
      have first : dec.tree (s.enter (.key k)) value x = dec.tree (s.enter (.key k)) value y :=
        hd.tree (s.enter (.key k)) lax fit (h 0 _ _ rfl rfl)
      rw [Codec.decodeEntries, Codec.decodeEntries]
      rw [first, ih rest fun i a b ha hb => h (i + 1) a b ha hb]

variable (fit : cx.InlinesRecords ty) (hook : cx.registry.decoder? ty = none)
include fit hook

theorem decodePositional {ts : List Ty} (layer : cx.catalogue.below ty = .items (ts[·]?))
    {xs ys : List Tree} (length : xs.length = ys.length)
    (h : ∀ (i : Nat) (t : Ty) (x y : Tree), ts[i]? = some t → xs[i]? = some x →
      ys[i]? = some y → cx.Alike t x y) :
    Codec.decodePositional dec s ty ts (.array xs) =
      Codec.decodePositional dec s ty ts (.array ys) := by
  rw [Codec.decodePositional, Codec.decodePositional, length,
    hd.decodeItems lax length fun i t x y ht hx hy => ⟨fit.item hook layer ht, h i t x y ht hx hy⟩]

theorem items {item? : Nat → Option Ty} (layer : cx.catalogue.below ty = .items item?)
    {xs ys : List Tree} (length : xs.length = ys.length)
    (h : ∀ (i : Nat) (t : Ty) (x y : Tree), item? i = some t → xs[i]? = some x →
      ys[i]? = some y → cx.Alike t x y) :
    Codec.decodeLayer cx dec s ty (.array xs) = Codec.decodeLayer cx dec s ty (.array ys) := by
  have replicated {t : Ty} {n : Nat} (ht : ∀ i, item? i = some t) :
      Codec.decodeItems dec s 0 (.replicate n t) xs =
        Codec.decodeItems dec s 0 (.replicate n t) ys := by
    refine hd.decodeItems lax length fun i u x y hu hx hy => ?_
    obtain rfl := List.eq_of_mem_replicate (List.mem_of_getElem? hu)
    exact ⟨fit.item hook layer (ht i), h i u x y (ht i) hx hy⟩
  cases ty with
  | list t =>
    cases layer
    simp only [Codec.decodeLayer, Codec.decodeList, length, replicated fun _ => rfl]
    rfl
  | array t n =>
    cases layer
    simp only [Codec.decodeLayer, Codec.decodeArray, length, replicated fun _ => rfl]
  | tuple ts =>
    cases layer
    simp only [Codec.decodeLayer, hd.decodePositional lax fit hook rfl length h]
  | pointer p t => cases p <;> cases layer
  | named name =>
    rcases body : cx.catalogue.body? name with _ | ⟨fs⟩ | ⟨fs⟩ | ⟨u⟩ | ⟨vs⟩ <;>
      simp only [Catalogue.below, body, reduceCtorEq] at layer
    cases layer
    simp only [Codec.decodeLayer, body, decodeDeclared,
      hd.decodePositional lax fit hook (Catalogue.below_positional body) length h]
  | _ => cases layer

/-- What a map reads from a tree it reads from an object. -/
theorem entries {t : Ty} (layer : cx.catalogue.below ty = .entries t)
    (keys : Object.keys o = Object.keys o')
    (h : ∀ (i : Nat) (e e' : String × Tree), o[i]? = some e → o'[i]? = some e' →
      cx.Alike t e.2 e'.2) :
    Codec.decodeObjectLayer cx dec s ty o = Codec.decodeObjectLayer cx dec s ty o' ∧
      ∀ p, Codec.decodeLayer cx dec s ty (.object p) = Codec.decodeObjectLayer cx dec s ty p := by
  cases ty with
  | map a key value =>
    cases layer
    refine ⟨?_, fun p => rfl⟩
    simp only [Codec.decodeObjectLayer, hd.decodeEntries lax (fit.entry hook rfl) keys h]
  | pointer p t => cases p <;> cases layer
  | named name =>
    rcases body : cx.catalogue.body? name with _ | ⟨fs⟩ | ⟨fs⟩ | ⟨u⟩ | ⟨vs⟩ <;>
      simp [Catalogue.below, body] at layer
  | _ => cases layer

variable {fs : List Field} (layer : cx.catalogue.below ty = .record fs) (h : cx.AlikePart ty o o')
include layer h

theorem decodeField {f : Field} (hf : f ∈ fs) (i : Nat) :
    Codec.decodeField cx dec s ty o i f = Codec.decodeField cx dec s ty o' i f := by
  rcases kept : f.skipped with _ | _
  · rcases inline : f.inline with _ | _
    · have asks : cx.Asks ty f.key f.ty := .own hook layer hf kept inline
      rw [decodeField_apart kept inline, decodeField_apart kept inline, decodeKey, decodeKey]
      rcases hx : Object.find? o f.key with _ | x
      · rw [(h.held asks).mp hx]
      · rcases hy : Object.find? o' f.key with _ | y
        · rw [(h.held asks).mpr hy] at hx
          cases hx
        · have same := hd.tree (s.enter (.key f.key)) lax (fit.field hook layer hf kept)
            (h.alike asks hx hy)
          simp only [same]
    · obtain ⟨u, gs, reach, record⟩ := fit.here hook _ layer _ hf kept inline
      have part : cx.AlikePart f.ty o o' :=
        ⟨fun asks => h.held (.inlined hook layer hf kept inline asks),
          fun asks => h.alike (.inlined hook layer hf kept inline asks)⟩
      rw [decodeField_inlined kept inline, decodeField_inlined kept inline]
      exact hd.object s.inline lax (fit.field hook layer hf kept)
        (part.alike_of_reaches reach record)
  · rw [decodeField_skipped kept, decodeField_skipped kept]

theorem decodeFields (gs : List Field) (sub : gs ⊆ fs) (i : Nat) :
    Codec.decodeFields cx dec s ty o i gs = Codec.decodeFields cx dec s ty o' i gs := by
  induction gs generalizing i with
  | nil => rfl
  | cons g gs ih =>
    have ⟨first, rest⟩ := List.cons_subset.mp sub
    rw [Codec.decodeFields, Codec.decodeFields, hd.decodeField lax fit hook layer h first, ih rest]

/-- A record looks at its object as a whole only to note what is left of it. -/
theorem decodeRecord :
    Codec.decodeRecord cx dec s ty fs o = Codec.decodeRecord cx dec s ty fs o' := by
  have quiet (p : Object) : s.endRecord p = id := by
    funext a
    simp [Scope.endRecord, Scope.opensLevel, lax]
  rw [Codec.decodeRecord, Codec.decodeRecord, quiet, quiet,
    hd.decodeFields lax fit hook layer h fs (List.Subset.refl fs) 0]

theorem record : Codec.decodeObjectLayer cx dec s ty o = Codec.decodeObjectLayer cx dec s ty o' ∧
    Codec.decodeLayer cx dec s ty (.object o) = Codec.decodeLayer cx dec s ty (.object o') := by
  obtain ⟨name, rfl, body⟩ := Catalogue.record_of_below layer
  have same := hd.decodeRecord lax fit hook layer h
  simp only [Codec.decodeObjectLayer, Codec.decodeLayer, body, decodeDeclared, same, and_self]

end Inert

/-- Trees of which none or both are null are read as the layer reads them. -/
theorem decodeStep_congr {dec : Decoder (Except Error)} {s : Scope}
    (hook : cx.registry.decoder? ty = none) (null : x = .null ↔ y = .null)
    (same : decodeLayer cx dec s ty x = decodeLayer cx dec s ty y) :
    decodeStep cx dec s ty x = decodeStep cx dec s ty y := by
  have read {z : Tree} (hz : z ≠ .null) : decodeStep cx dec s ty z = decodeLayer cx dec s ty z := by
    rw [decodeStep.eq_def]
    split
    · contradiction
    · rw [hook]
  by_cases hx : x = .null
  · rw [hx, null.mp hx]
  · rw [read hx, read (mt null.mpr hx), same]

theorem Inert.decodeStep {dec : Decoder (Except Error)} (hd : cx.Inert dec) {s : Scope}
    (lax : s.strict = false) (fit : cx.InlinesRecords ty) (h : cx.Alike ty x y) :
    Codec.decodeStep cx dec s ty x = Codec.decodeStep cx dec s ty y := by
  have null := h.null_iff
  cases h with
  | refl => rfl
  | wrapped hook layer h =>
    obtain ⟨g, tree, -⟩ := decodeLayer_wraps layer dec
    refine decodeStep_congr hook null ?_
    rw [tree, tree, hd.tree s lax (fit.wrapped hook layer) h]
  | items hook layer length h =>
    exact decodeStep_congr hook null (hd.items lax fit hook layer length h)
  | entries hook layer keys h =>
    obtain ⟨same, object⟩ := hd.entries lax fit hook layer keys h
    refine decodeStep_congr hook null ?_
    rw [object, object, same]
  | record hook layer held h =>
    have part : cx.AlikePart ty _ _ := ⟨fun asks => held _ _ asks, fun asks => h _ _ _ _ asks⟩
    exact decodeStep_congr hook null (hd.record lax fit hook layer part).2

theorem Inert.decodeObjectStep {dec : Decoder (Except Error)} (hd : cx.Inert dec) {s : Scope}
    (lax : s.strict = false) (fit : cx.InlinesRecords ty)
    (h : cx.Alike ty (.object o) (.object o')) :
    Codec.decodeObjectStep cx dec s ty o = Codec.decodeObjectStep cx dec s ty o' := by
  rcases hook : cx.registry.decoder? ty with _ | read
  · simp only [Codec.decodeObjectStep, hook]
    cases h with
    | refl => rfl
    | wrapped _ layer h =>
      obtain ⟨g, -, object⟩ := decodeLayer_wraps layer dec
      rw [object, object, hd.object s lax (fit.wrapped hook layer) h]
    | entries _ layer keys h => exact (hd.entries lax fit hook layer keys h).1
    | record _ layer held h =>
      have part : cx.AlikePart ty o o' := ⟨fun asks => held _ _ asks, fun asks => h _ _ _ _ asks⟩
      exact (hd.record lax fit hook layer part).1
  · cases h.eq_of_hook hook
    rfl

/-! ## Whole readings -/

theorem inert_decoder (cx : Codec) (depth : Nat) : cx.Inert (decoder cx depth) := by
  induction depth with
  | zero => exact ⟨fun _ _ _ _ _ _ _ => rfl, fun _ _ _ _ _ _ _ => rfl⟩
  | succ depth ih =>
    exact ⟨fun _ lax _ fit _ _ h => ih.decodeStep lax fit h,
      fun _ lax _ fit _ _ h => ih.decodeObjectStep lax fit h⟩

end Codec

/-- Where all inlined fields of a type reach records, a lax conversion has the same outcome
for trees that differ only in what stands under keys that no field reads: the same datum or
the same error. -/
theorem unread_keys_are_inert (cx : Codec) (ty : Ty) (fit : cx.InlinesRecords ty) :
    (∀ x y, cx.Alike ty x y →
      (cx.fromTree false ty x : Except Error Datum) = cx.fromTree false ty y) ∧
    ∀ o o', cx.Alike ty (.object o) (.object o') →
      (cx.fromObject false ty o : Except Error Datum) = cx.fromObject false ty o' := by
  refine ⟨fun x y h => ?_, fun o o' h => ?_⟩
  · rw [Codec.fromTree, Codec.fromTree, (cx.inert_decoder cx.maxDepth).tree _ rfl fit h]
  · rw [Codec.fromObject, Codec.fromObject, (cx.inert_decoder cx.maxDepth).object _ rfl fit h]

namespace Codec

/-- The inlined fields of routes reach records. -/
theorem inlinesRecords_route (ty : Ty) : route.InlinesRecords ty := by
  refine fun _ u _ => inlinesOnly_of_records (fun name fs body f hf inline => ?_) u
  rw [Catalogue.inlined_route body hf inline]
  exact ⟨.named "point", _, .wrapped rfl (.content rfl) (.here rfl), rfl⟩

/-- The keys that a stop reads are its own and its point's. -/
theorem key_of_asks_stop {k : String} {t : Ty} (h : route.Asks (.named "stop") k t) :
    k ∈ ["label", "x", "y", "notes", "next"] := by
  have point (h : route.Asks (.pointer .owned (.named "point")) k t) : k = "x" ∨ k = "y" := by
    rw [asks_content rfl rfl, asks_record rfl rfl] at h
    obtain ⟨f, hf, -, own | ⟨inline, -⟩⟩ := h <;>
      simp only [List.mem_cons, List.not_mem_nil, or_false] at hf <;> rcases hf with rfl | rfl
    · exact .inl own.2.1
    · exact .inr own.2.1
    · cases inline
    · cases inline
  obtain ⟨f, hf, -, own | ⟨inline, h⟩⟩ := (asks_record rfl rfl).mp h <;>
    simp only [List.mem_cons, List.not_mem_nil, or_false] at hf <;> rcases hf with rfl | rfl | rfl | rfl
  case inl.inr.inl => cases own.1
  case inr.inr.inl => rcases point h with rfl | rfl <;> simp
  all_goals first | cases inline | simp [own.2.1]

end Codec

/-- Two stops with different keys that are no stop's. -/
theorem unread_keys_are_inert_route :
    let x : Tree := .object [("label", .string "a"), ("x", .int 1), ("z", .int 2)]
    let y : Tree := .object [("a", .array [.null]), ("label", .string "a"), ("x", .int 1)]
    Codec.route.InlinesRecords (.named "stop") ∧
      Codec.route.Alike (.named "stop") x y ∧
      (Codec.route.fromTree false (.named "stop") x : Except Error Datum) =
        Codec.route.fromTree false (.named "stop") y := by
  intro x y
  have fit := Codec.inlinesRecords_route (.named "stop")
  have alike : Codec.route.Alike (.named "stop") x y := by
    refine .of_unread rfl rfl fun k t asks => ?_
    have own := Codec.key_of_asks_stop asks
    simp only [List.mem_cons, List.not_mem_nil, or_false] at own
    rcases own with rfl | rfl | rfl | rfl | rfl <;> rfl
  exact ⟨fit, alike, (unread_keys_are_inert Codec.route (.named "stop") fit).1 x y alike⟩

end TreeCodec
