import TreeCodec.Proofs.Notes
import TreeCodec.Proofs.Reading
import TreeCodec.Proofs.StrictMode
import TreeCodec.Proofs.Unknown

/-!
# What a strict conversion reports

A strict conversion reports the unknown keys of its tree and no others
(`strict_reports_unknown`). Every part of a strict reading notes what its type and its tree
account for (`Codec.NotesUnknown`), whatever its value is:

* `Codec.NotesUnknown.decodeLayer`, `Codec.NotesUnknown.decodeObjectLayer`: so does a layer
  if its parts do;
* `Codec.notesUnknown_decoder`: so does a decoder of any depth;
* `Codec.build_reportsJust`: what is noted is what is reported.
-/

namespace TreeCodec

/-! ## What a strict reading notes -/

/-- A decoder whose strict readings note what the type and the tree account for. An
inlined reading leaves the object's own keys to the record that it is part of. -/
structure Codec.NotesUnknown (cx : Codec) (dec : Decoder (Except Error)) : Prop where
  tree (p : Path) (ty : Ty) (x : Tree) :
    Notes (dec.tree ⟨true, p, false⟩ ty x) noKey (cx.Unknown ty x p)
  object (p : Path) (ty : Ty) (o : Object) :
    Notes (dec.object ⟨true, p, false⟩ ty o) noKey (cx.Unknown ty (.object o) p)
  part (p : Path) (ty : Ty) (o : Object) :
    Notes (dec.object ⟨true, p, true⟩ ty o) (cx.Consumes ty) (cx.UnknownPart ty o p)

namespace Codec.NotesUnknown

variable {cx : Codec} {dec : Decoder (Except Error)} (hd : cx.NotesUnknown dec)
include hd

theorem decodeItems (p : Path) (inlined : Bool) (i : Nat) (ts : List Ty) (xs : List Tree) :
    Notes (Codec.decodeItems dec ⟨true, p, inlined⟩ i ts xs) noKey fun q =>
      ∃ j t x, ts[j]? = some t ∧ xs[j]? = some x ∧ cx.Unknown t x (p ++ [.index (i + j)]) q := by
  induction ts generalizing i xs with
  | nil => exact (Notes.pure _).congr (fun _ => Iff.rfl) fun q => by simp [noPath]
  | cons t ts ih =>
    cases xs with
    | nil => exact (Notes.pure _).congr (fun _ => Iff.rfl) fun q => by simp [noPath]
    | cons x xs =>
      refine ((hd.tree _ t x).bind fun d => (ih (i + 1) xs).map (d :: ·)).congr
        (fun _ => or_self_iff) fun q => ?_
      constructor
      · rintro (h | ⟨j, t', x', ht, hx, h⟩)
        · exact ⟨0, t, x, rfl, rfl, h⟩
        · rw [Nat.add_right_comm] at h
          exact ⟨j + 1, t', x', ht, hx, h⟩
      · rintro ⟨j, t', x', ht, hx, h⟩
        cases j with
        | zero =>
          cases ht
          cases hx
          exact .inl h
        | succ j =>
          rw [← Nat.add_assoc, Nat.add_right_comm] at h
          exact .inr ⟨j, t', x', ht, hx, h⟩

theorem decodeEntries (p : Path) (inlined : Bool) (key value : Ty) (o : Object) :
    Notes (Codec.decodeEntries cx dec ⟨true, p, inlined⟩ key value o) noKey fun q =>
      ∃ k x, (k, x) ∈ o ∧ cx.Unknown value x (p ++ [.key k]) q := by
  induction o with
  | nil => exact (Notes.pure _).congr (fun _ => Iff.rfl) fun q => by simp [noPath]
  | cons e rest ih =>
    obtain ⟨k, x⟩ := e
    refine ((Notes.ofExcept _).bind fun kd => (hd.tree _ value x).bind fun d =>
      ih.map ((kd, d) :: ·)).congr (fun _ => by simp [noKey]) fun q => ?_
    constructor
    · rintro (h | h | ⟨k', x', hx, h⟩)
      · exact h.elim
      · exact ⟨k, x, List.mem_cons_self, h⟩
      · exact ⟨k', x', List.mem_cons_of_mem _ hx, h⟩
    · rintro ⟨k', x', hx, h⟩
      rcases List.mem_cons.mp hx with hx | hx
      · cases hx
        exact .inr (.inl h)
      · exact .inr (.inr ⟨k', x', hx, h⟩)

theorem decodeKey (p : Path) (inlined : Bool) (f : Field) (o : Object) :
    Notes (Codec.decodeKey cx dec ⟨true, p, inlined⟩ f f.key o) (· = f.key) fun q =>
      ∃ x, Object.find? o f.key = some x ∧ cx.Unknown f.ty x (p ++ [.key f.key]) q := by
  have asked := Notes.askKey p inlined f.key
  rw [Codec.decodeKey]
  rcases hx : Object.find? o f.key with _ | x
  · refine (asked.bind fun _ => Notes.ofExcept _).congr (fun _ => or_iff_left id) fun q => ?_
    simp [noPath]
  · refine (asked.bind fun _ => hd.tree _ f.ty x).congr (fun _ => or_iff_left id) fun q => ?_
    simp [noPath]

theorem decodeField (p : Path) (inlined : Bool) (ty : Ty) (o : Object) (i : Nat) (f : Field) :
    Notes (Codec.decodeField cx dec ⟨true, p, inlined⟩ ty o i f) (cx.FieldConsumes f)
      (cx.UnknownField f o p) := by
  rcases hs : f.skipped with _ | _
  · rcases hi : f.inline with _ | _
    · rw [decodeField_apart hs hi]
      refine (hd.decodeKey p inlined f o).congr (fun k => ?_) fun q => ?_
      · simp [FieldConsumes, hs, hi]
      · simp [UnknownField, hs, hi]
    · rw [decodeField_inlined hs hi]
      refine (hd.part p f.ty o).congr (fun k => ?_) fun q => ?_
      · simp [FieldConsumes, hs, hi]
      · simp [UnknownField, hs, hi]
  · rw [decodeField_skipped hs]
    refine (Notes.ofExcept _).congr (fun k => ?_) fun q => ?_
    · simp [FieldConsumes, hs, noKey]
    · simp [UnknownField, hs, noPath]

theorem decodeFields (p : Path) (inlined : Bool) (ty : Ty) (o : Object) (i : Nat)
    (fs : List Field) :
    Notes (Codec.decodeFields cx dec ⟨true, p, inlined⟩ ty o i fs)
      (fun k => ∃ f ∈ fs, cx.FieldConsumes f k) fun q => ∃ f ∈ fs, cx.UnknownField f o p q := by
  induction fs generalizing i with
  | nil => exact (Notes.pure _).congr (fun _ => by simp [noKey]) fun q => by simp [noPath]
  | cons f fs ih =>
    exact ((hd.decodeField p inlined ty o i f).bind fun d => (ih (i + 1)).map (d :: ·)).congr
      (fun _ => by simp) fun q => by simp

/-! ## Layers -/

variable {ty : Ty}

theorem items {item? : Nat → Option Ty} (hook : cx.registry.decoder? ty = none)
    (layer : cx.catalogue.below ty = .items item?) (p : Path) (ts : List Ty) (xs : List Tree)
    (ht : ∀ i x t, xs[i]? = some x → (ts[i]? = some t ↔ item? i = some t)) :
    Notes (Codec.decodeItems dec ⟨true, p, false⟩ 0 ts xs) noKey (cx.Unknown ty (.array xs) p) := by
  refine (hd.decodeItems p false 0 ts xs).congr (fun _ => Iff.rfl) fun q => ?_
  rw [unknown_items hook layer]
  constructor
  · rintro ⟨i, t, x, hti, hx, h⟩
    rw [Nat.zero_add] at h
    exact ⟨i, t, x, (ht i x t hx).mp hti, hx, h⟩
  · rintro ⟨i, t, x, hti, hx, h⟩
    refine ⟨i, t, x, (ht i x t hx).mpr hti, hx, ?_⟩
    rwa [Nat.zero_add]

theorem decodePositional {ts : List Ty} (hook : cx.registry.decoder? ty = none)
    (layer : cx.catalogue.below ty = .items (ts[·]?)) (p : Path) (x : Tree) :
    Notes (Codec.decodePositional dec ⟨true, p, false⟩ ty ts x) noKey (cx.Unknown ty x p) := by
  cases x with
  | array xs =>
    rw [Codec.decodePositional]
    split
    · exact hd.items hook layer p ts xs fun _ _ _ _ => Iff.rfl
    · exact Notes.throw _
  | _ => exact Notes.throw _

theorem decodeList {t : Ty} (hook : cx.registry.decoder? (.list t) = none) (p : Path) (x : Tree) :
    Notes (Codec.decodeList dec ⟨true, p, false⟩ t x) noKey (cx.Unknown (.list t) x p) := by
  cases x with
  | array xs =>
    refine (hd.items hook rfl p (.replicate xs.length t) xs fun i x u hx => ?_).map _
    have hi : i < xs.length := (List.getElem?_eq_some_iff.mp hx).1
    rw [List.getElem?_replicate, if_pos hi]
  | _ => exact Notes.throw _

theorem decodeArray {t : Ty} {n : Nat} (hook : cx.registry.decoder? (.array t n) = none) (p : Path)
    (x : Tree) :
    Notes (Codec.decodeArray dec ⟨true, p, false⟩ t n x) noKey (cx.Unknown (.array t n) x p) := by
  cases x with
  | array xs =>
    rw [Codec.decodeArray]
    split
    · exact Notes.throw _
    · rename_i length
      split
      · exact Notes.throw _
      · split
        · exact Notes.throw _
        · refine (hd.items hook rfl p (.replicate n t) xs fun i x u hx => ?_).map _
          have hi : i < xs.length := (List.getElem?_eq_some_iff.mp hx).1
          rw [List.getElem?_replicate, if_pos (by omega)]
  | _ => exact Notes.throw _

/-- A record that is a level of its own adds the keys that its fields left. -/
theorem decodeRecord {fs : List Field} (hook : cx.registry.decoder? ty = none)
    (layer : cx.catalogue.below ty = .record fs) (p : Path) (o : Object) :
    Notes (Codec.decodeRecord cx dec ⟨true, p, false⟩ ty fs o) noKey (cx.Unknown ty (.object o) p) := by
  intro a v a' h
  have fields := hd.decodeFields p false ty o 0 fs a.openLevel
  change ((Codec.decodeFields cx dec ⟨true, p, false⟩ ty o 0 fs).run a.openLevel >>= fun r =>
    (Except.ok (Datum.product r.1, r.2.closeLevel p o) : Except Error (Datum × Audit))) = _ at h
  rcases hr : (Codec.decodeFields cx dec ⟨true, p, false⟩ ty o 0 fs).run a.openLevel with
    e | ⟨ds, b⟩ <;> rw [hr] at h
  · cases h
  · obtain ⟨ks, qs, hk, hq, rfl⟩ := fields ds b hr
    cases h
    refine ⟨[], qs ++ ((Object.keys o).filter fun k => !ks.contains k).map fun k => p ++ [.key k],
      by simp [noKey], fun q => ?_, ?_⟩
    · have consumed : ∀ k, k ∈ ks ↔ cx.Consumes ty k := fun k => by
        rw [hk, consumes_record hook layer]
      rw [unknown_record hook layer, unknownPart_record hook layer, List.mem_append, hq]
      refine or_congr Iff.rfl ?_
      simp only [List.mem_map, List.mem_filter, Bool.not_eq_true', List.contains_eq_mem,
        decide_eq_false_iff_not, consumed]
      constructor
      · rintro ⟨k, ⟨hk, hc⟩, rfl⟩
        exact ⟨k, hk, hc, rfl⟩
      · rintro ⟨k, hk, hc, rfl⟩
        exact ⟨k, ⟨hk, hc⟩, rfl⟩
    · rcases a with ⟨_ | ⟨keys, outer⟩, unknown⟩ <;>
        simp [Audit.note, Audit.openLevel, Audit.closeLevel]

/-- A record that is part of another one leaves the keys of the object to it. -/
theorem decodeRecord_part {fs : List Field} (hook : cx.registry.decoder? ty = none)
    (layer : cx.catalogue.below ty = .record fs) (p : Path) (o : Object) :
    Notes (Codec.decodeRecord cx dec ⟨true, p, true⟩ ty fs o) (cx.Consumes ty)
      (cx.UnknownPart ty o p) := by
  have fields := (hd.decodeFields p true ty o 0 fs).map Datum.product
  exact fields.congr (fun k => (consumes_record hook layer).symm) fun q =>
    (unknownPart_record hook layer).symm

/-- A layer that reads the same tree notes what its content notes. -/
theorem content {t : Ty} {p : Path} {x : Tree} (hook : cx.registry.decoder? ty = none)
    (layer : cx.catalogue.below ty = .content t) (hx : x ≠ .null) :
    Notes (dec.tree ⟨true, p, false⟩ t x) noKey (cx.Unknown ty x p) :=
  (hd.tree p t x).congr (fun _ => Iff.rfl) fun _ => (unknown_content hook layer hx).symm

theorem content_object {t : Ty} {p : Path} {o : Object} (hook : cx.registry.decoder? ty = none)
    (layer : cx.catalogue.below ty = .content t) :
    Notes (dec.object ⟨true, p, false⟩ t o) noKey (cx.Unknown ty (.object o) p) :=
  (hd.object p t o).congr (fun _ => Iff.rfl) fun _ =>
    (unknown_content hook layer (by simp)).symm

theorem content_part {t : Ty} {p : Path} {o : Object} (hook : cx.registry.decoder? ty = none)
    (layer : cx.catalogue.below ty = .content t) :
    Notes (dec.object ⟨true, p, true⟩ t o) (cx.Consumes ty) (cx.UnknownPart ty o p) :=
  (hd.part p t o).congr (fun _ => (consumes_content hook layer).symm) fun _ =>
    (unknownPart_content hook layer).symm

theorem decodeEntries_map {a : Arrangement} {key value : Ty}
    (hook : cx.registry.decoder? (.map a key value) = none) (p : Path) (inlined : Bool)
    (o : Object) :
    Notes (Codec.decodeEntries cx dec ⟨true, p, inlined⟩ key value o) noKey
      (cx.UnknownPart (.map a key value) o p) :=
  (hd.decodeEntries p inlined key value o).congr (fun _ => Iff.rfl) fun _ =>
    (unknownPart_entries hook rfl).symm

theorem decodeDeclared {name : String} {body : Body} (hook : cx.registry.decoder? (.named name) = none)
    (hb : cx.catalogue.body? name = some body) (p : Path) {x : Tree} (hx : x ≠ .null) :
    Notes (Codec.decodeDeclared cx dec ⟨true, p, false⟩ (.named name) body x) noKey
      (cx.Unknown (.named name) x p) := by
  cases body with
  | newtype t => exact (hd.content hook (Catalogue.below_newtype hb) hx).map Datum.wrapped
  | record fs =>
    cases x with
    | object o => exact hd.decodeRecord hook (Catalogue.below_record hb) p o
    | _ => exact Notes.throw _
  | tuple fs => exact (hd.decodePositional hook (Catalogue.below_positional hb) p x).map Datum.product
  | enumeration vs =>
    exact (Notes.ofExcept _).quiet fun _ => not_unknown_nothing (Catalogue.below_enumeration hb)

theorem decodeLayer (hook : cx.registry.decoder? ty = none) (p : Path) {x : Tree} (hx : x ≠ .null) :
    Notes (Codec.decodeLayer cx dec ⟨true, p, false⟩ ty x) noKey (cx.Unknown ty x p) := by
  have scalar (layer : cx.catalogue.below ty = .nothing) :
      Notes (MonadExcept.ofExcept (Scalar.decode ty x)) noKey (cx.Unknown ty x p) :=
    (Notes.ofExcept _).quiet fun _ => not_unknown_nothing layer
  cases ty with
  | option t => exact (hd.content hook rfl hx).map Datum.present
  | pointer q t =>
    exact Notes.decodePointer fun holds => hd.content hook (cx.catalogue.below_pointer holds t) hx
  | nonZero k => exact (hd.content hook rfl hx).follow fun d => Notes.ofExcept _
  | tuple ts => exact (hd.decodePositional hook rfl p x).map Datum.product
  | named name =>
    simp only [Codec.decodeLayer]
    split
    · rename_i body hb
      exact hd.decodeDeclared hook hb p hx
    · exact Notes.throw _
  | list t =>
    simp only [Codec.decodeLayer]
    split
    · cases x with
      | string s => exact (Notes.ofExcept _).quiet fun _ => not_unknown_text rfl
      | _ => exact Notes.throw _
    · exact hd.decodeList hook p x
  | array t n => exact hd.decodeArray hook p x
  | map a key value =>
    cases x with
    | object o =>
      refine ((hd.decodeEntries_map hook p false o).map Datum.map).congr (fun _ => Iff.rfl) fun _ => ?_
      exact (unknown_entries rfl).symm
    | _ => exact Notes.throw _
  | tree => exact Notes.throw _
  | borrowedText => exact Notes.throw _
  | slice t => exact Notes.throw _
  | set a t => exact Notes.throw _
  | _ => exact scalar rfl

theorem decodeObjectLayer (hook : cx.registry.decoder? ty = none) (p : Path) (o : Object) :
    Notes (Codec.decodeObjectLayer cx dec ⟨true, p, false⟩ ty o) noKey (cx.Unknown ty (.object o) p) := by
  refine Notes.decodeObjectLayer (fun t layer => hd.content_object hook layer) (fun a key value hm => ?_)
    fun fs layer => hd.decodeRecord hook layer p o
  subst hm
  exact (hd.decodeEntries_map hook p false o).congr (fun _ => Iff.rfl) fun _ => (unknown_entries rfl).symm

theorem decodeObjectLayer_part (hook : cx.registry.decoder? ty = none) (p : Path) (o : Object) :
    Notes (Codec.decodeObjectLayer cx dec ⟨true, p, true⟩ ty o) (cx.Consumes ty)
      (cx.UnknownPart ty o p) := by
  refine Notes.decodeObjectLayer (fun t layer => hd.content_part hook layer) (fun a key value hm => ?_)
    fun fs layer => hd.decodeRecord_part hook layer p o
  subst hm
  refine (hd.decodeEntries_map hook p true o).congr (fun k => ?_) fun _ => Iff.rfl
  exact ⟨False.elim, not_consumes_entries rfl⟩

end Codec.NotesUnknown

/-! ## Whole readings -/

namespace Codec

theorem notesUnknown_decoder (cx : Codec) (depth : Nat) : cx.NotesUnknown (decoder cx depth) := by
  induction depth with
  | zero => exact ⟨fun _ _ _ => Notes.throw _, fun _ _ _ => Notes.throw _, fun _ _ _ => Notes.throw _⟩
  | succ depth ih =>
    rw [decoder_succ]
    refine ⟨fun p ty x => ?_, fun p ty o => ?_, fun p ty o => ?_⟩
    · show Notes (decodeStep cx _ _ ty x) _ _
      rw [decodeStep.eq_def]
      split
      · exact (Notes.ofExcept _).quiet fun _ => not_unknown_null
      · rename_i hx
        split
        · rename_i hook hk
          exact (Notes.ofExcept _).quiet fun _ => not_unknown_of_hook hk
        · rename_i hk
          exact ih.decodeLayer hk p hx
    · show Notes (decodeObjectStep cx _ _ ty o) _ _
      rw [decodeObjectStep]
      split
      · rename_i hook hk
        exact (Notes.ofExcept _).quiet fun _ => not_unknown_of_hook hk
      · rename_i hk
        exact ih.decodeObjectLayer hk p o
    · show Notes (decodeObjectStep cx _ _ ty o) _ _
      rw [decodeObjectStep]
      split
      · rename_i hook hk
        exact (Notes.ofExcept _).congr
          (fun _ => ⟨False.elim, not_consumes_of_hook hk⟩)
          fun _ => ⟨False.elim, not_unknownPart_of_hook hk⟩
      · rename_i hk
        exact ih.decodeObjectLayer_part hk p o

end Codec

/-! ## Lax readings -/

/-- Lax readings note nothing. -/
def Simulation.quiet : Simulation (Except Error) (Except Error) where
  rel x _ := Notes x noKey noPath
  place s _ := s.strict = false
  admits _ := True
  admits_local _ := trivial
  rel_pure v := .pure v
  rel_bind hx hf := hx.follow hf
  rel_throw _ := .throw _
  rel_fieldInfo {_ _ f} _ := Notes.pure (FieldInfo.ofField f)
  place_enter _ h := h
  place_inline h := h
  rel_beginRecord h := .modify fun a => by simp [Scope.beginRecord, Scope.opensLevel, h]
  rel_askKey _ h := .modify fun a => by simp [Scope.askKey, h]
  rel_endRecord _ h := .modify fun a => by simp [Scope.endRecord, Scope.opensLevel, h]

theorem Codec.quiet_decoder (cx : Codec) (depth : Nat) :
    Simulation.quiet.Agree (decoder cx depth) (decoder cx depth) :=
  Simulation.decoder cx (fun _ _ _ _ _ _ => trivial) (fun _ _ _ _ _ _ => trivial) trivial depth

/-! ## Whole conversions -/

/-- What a strict conversion gives where the lax one gives a datum. -/
inductive ReportsJust (U : Path → Prop) (d : Datum) : Except Error Datum → Prop
  /-- It gives the datum too, if there is no unknown key. -/
  | nothing : (∀ q, ¬ U q) → ReportsJust U d (.ok d)
  /-- It reports the unknown keys, all of them and no other, in the order of the texts. -/
  | unknown {ps : List Path} : ps ≠ [] → (∀ q, q ∈ ps ↔ U q) →
    ps.Pairwise (fun p q => Error.unknownField p ≤ Error.unknownField q) →
    ReportsJust U d (.error (.unknownFields ps))

theorem Audit.mem_report (a : Audit) (text : Path → String) (q : Path) :
    q ∈ a.report text ↔ q ∈ a.unknown :=
  List.mem_mergeSort

theorem Audit.report_pairwise (a : Audit) (text : Path → String) :
    (a.report text).Pairwise fun p q => text p ≤ text q := by
  have total (p q : Path) : (decide (text p ≤ text q) || decide (text q ≤ text p)) = true := by
    simpa using String.le_total (text p) (text q)
  have trans (p q r : Path) (h : decide (text p ≤ text q) = true)
      (h' : decide (text q ≤ text r) = true) : decide (text p ≤ text r) = true := by
    simp only [decide_eq_true_eq] at h h' ⊢
    exact String.le_trans h h'
  exact (List.pairwise_mergeSort trans total a.unknown).imp of_decide_eq_true

namespace Codec

variable {cx : Codec} {ty : Ty} {d : Datum}

/-- A datum is accepted as it was read, and only if it satisfies its type's invariant. -/
theorem eq_of_accept {v : Datum} {a : Audit} (h : cx.accept ty v a = .ok d) :
    v = d ∧ cx.catalogue.invariant ty d = true := by
  rw [accept] at h
  split at h
  · rename_i hi
    split at h
    · cases h
      exact ⟨rfl, hi⟩
    · cases h
  · cases h

theorem ofExcept_eq {α : Type} (r : Except Error α) :
    (MonadExcept.ofExcept r : Except Error α) = r := by
  cases r <;> rfl

/-- What is made of a reading is what is accepted of its datum and its notes. -/
theorem build_of_ok {read : StateT Audit (Except Error) Datum} {v : Datum} {a : Audit}
    (h : read.run .empty = .ok (v, a)) : cx.build ty read = cx.accept ty v a := by
  rw [build, h]
  exact ofExcept_eq _

/-- A datum that is read without unknown keys is handed out. -/
theorem build_of_gives {U : Path → Prop} {read : StateT Audit (Except Error) Datum}
    (h : Gives read d) (hn : Notes read noKey U) (hU : ∀ q, ¬ U q)
    (hi : cx.catalogue.invariant ty d = true) : cx.build ty read = .ok d := by
  obtain ⟨a, ha⟩ := h .empty
  obtain ⟨ks, qs, -, hq, rfl⟩ := hn .empty d a ha
  have none : qs = [] := List.eq_nil_iff_forall_not_mem.mpr fun q hm => hU q ((hq q).mp hm)
  subst none
  rw [build_of_ok ha, accept, if_pos hi]
  rfl

/-- A datum is handed out only if it was read without unknown keys. -/
theorem of_build_ok {U : Path → Prop} {read : StateT Audit (Except Error) Datum}
    (hn : Notes read noKey U) (h : cx.build ty read = .ok d) : Yields read d ∧ ∀ q, ¬ U q := by
  rcases hr : read.run .empty with e | ⟨v, a⟩
  · rw [build, hr] at h
    cases h
  · rw [build_of_ok hr] at h
    obtain ⟨rfl, hi⟩ := eq_of_accept h
    refine ⟨⟨_, _, hr⟩, fun q hq => ?_⟩
    obtain ⟨ks, qs, -, hu, rfl⟩ := hn .empty v a hr
    have some : q ∈ (Audit.empty.note ks qs).unknown := (hu q).mpr hq
    rw [accept, if_pos hi] at h
    split at h
    · rename_i none
      rw [List.isEmpty_iff.mp none] at some
      cases some
    · cases h

theorem accept_reportsJust {U : Path → Prop} {a : Audit} (hi : cx.catalogue.invariant ty d = true)
    (hU : ∀ q, q ∈ a.unknown ↔ U q) : ReportsJust U d (cx.accept ty d a) := by
  rw [accept, if_pos hi]
  split
  · rename_i none
    refine .nothing fun q hq => ?_
    rw [← hU, List.isEmpty_iff.mp none] at hq
    cases hq
  · rename_i some
    refine .unknown (fun h => some ?_) (fun q => ?_) (a.report_pairwise _)
    · rw [List.isEmpty_iff, ← List.length_eq_zero_iff, ← List.length_mergeSort]
      exact List.length_eq_zero_iff.mpr h
    · rw [a.mem_report, hU]

/-- Data built by a lax and by a strict reading with the same value. -/
theorem build_reportsJust {U : Path → Prop} {lax strict : StateT Audit (Except Error) Datum}
    (hs : SameValue lax strict) (hn : Notes strict noKey U) (h : cx.build ty lax = .ok d) :
    ReportsJust U d (cx.build ty strict) := by
  have same := hs .empty .empty
  rw [StateT.run'_eq, StateT.run'_eq] at same
  rcases hl : lax.run .empty with e | ⟨v, a⟩
  · rw [build, hl] at h
    cases h
  · rcases hr : strict.run .empty with e | ⟨w, b⟩ <;> rw [hl, hr] at same <;> cases same
    obtain ⟨ks, qs, hk, hq, rfl⟩ := hn .empty _ _ hr
    rw [build_of_ok hl] at h
    obtain ⟨rfl, hi⟩ := eq_of_accept h
    rw [build_of_ok hr]
    exact accept_reportsJust hi fun q => by simpa [Audit.note, Audit.empty] using hq q

end Codec

/-- Where a lax conversion of a tree gives a datum, the strict one reports just the unknown
keys of the tree, and gives the datum if there is none. -/
theorem strict_reports_unknown (cx : Codec) (ty : Ty) (x : Tree) (d : Datum)
    (h : cx.fromTree false ty x = (.ok d : Except Error Datum)) :
    ReportsJust (cx.Unknown ty x []) d (cx.fromTree true ty x) := by
  have place : (Simulation.sameValue (Except Error)).place (.root false) (.root true) := trivial
  have same := (cx.sameValue_decoder cx.maxDepth).tree place ty x
  have notes := (cx.notesUnknown_decoder cx.maxDepth).tree [] ty x
  exact Codec.build_reportsJust same notes h

/-- A stop whose point has a third coordinate, which no field consumes. -/
theorem strict_reports_unknown_route :
    ∃ x d, Codec.route.fromTree false (.named "stop") x = (.ok d : Except Error Datum) ∧
      ReportsJust (Codec.route.Unknown (.named "stop") x []) d
        (Codec.route.fromTree true (.named "stop") x) := by
  refine ⟨.object [("label", .string "a"), ("x", .int 1), ("z", .int 2)],
    .product [.text "a", .wrapped (.product [.int 1, .int 0]), .seq [], .absent], rfl, ?_⟩
  exact strict_reports_unknown Codec.route (.named "stop") _ _ rfl

end TreeCodec
