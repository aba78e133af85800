import TreeCodec.Proofs.Accounted
import TreeCodec.Proofs.ExactTrees
import TreeCodec.Proofs.InertKeys
import TreeCodec.Proofs.Splicing

/-!
# Unknown keys are noted once

A strict reading visits no place of a tree twice, so it notes no unknown key twice. What two
parts of a layer note is below different segments of the path, or below different keys of a
record.

* `Codec.Tidy`: types whose inlined fields reach records, and whose records have fields with
  different keys;
* `UnknownPart.consumes`: what a part of a record finds unknown is below a key that it consumes;
* `Once.bind`: computations that note different paths, one after the other;
* `Codec.notesOnce_decoder`: a decoder of any depth notes no path twice.
-/

namespace TreeCodec

namespace Codec

/-! ## Types -/

/-- The inlined fields of a type, and of all types that it meets, reach records, and the fields of
records consume different keys. -/
structure Tidy (cx : Codec) (ty : Ty) : Prop where
  inlines : cx.InlinesRecords ty
  apart : cx.Everywhere cx.KeysApart ty

namespace Tidy

variable {cx : Codec} {ty t : Ty} (tidy : cx.Tidy ty) (hook : cx.registry.decoder? ty = none)
include tidy hook

theorem content (layer : cx.catalogue.below ty = .content t) : cx.Tidy t :=
  ⟨tidy.inlines.wrapped hook (.content layer), tidy.apart.wrapped hook (.content layer)⟩

theorem item {item? : Nat → Option Ty} {i : Nat} (layer : cx.catalogue.below ty = .items item?)
    (ht : item? i = some t) : cx.Tidy t :=
  ⟨tidy.inlines.item hook layer ht, tidy.apart.item hook layer ht⟩

theorem entry (layer : cx.catalogue.below ty = .entries t) : cx.Tidy t :=
  ⟨tidy.inlines.entry hook layer, tidy.apart.entry hook layer⟩

theorem field {fs : List Field} {f : Field} (layer : cx.catalogue.below ty = .record fs)
    (hf : f ∈ fs) (kept : f.skipped = false) : cx.Tidy f.ty :=
  ⟨tidy.inlines.field hook layer hf kept, tidy.apart.field hook layer hf kept⟩

end Tidy

/-! ## Paths of parts -/

variable {cx : Codec} {ty t : Ty} {o : Object} {p q : Path}

theorem HoldsRecord.content (holds : cx.HoldsRecord ty)
    (layer : cx.catalogue.below ty = .content t) : cx.HoldsRecord t := by
  obtain ⟨u, fs, reach, record⟩ := holds
  cases reach with
  | here => simp [layer] at record
  | wrapped _ layer' reach => exact ⟨u, fs, layer'.unique layer ▸ reach, record⟩

theorem HoldsRecord.not_entries (holds : cx.HoldsRecord ty) :
    cx.catalogue.below ty ≠ .entries t := by
  obtain ⟨u, fs, reach, record⟩ := holds
  cases reach with
  | here => simp [record]
  | wrapped _ layer _ => exact layer.not_entries

/-- What a part of a record finds unknown is below a key that it consumes. -/
theorem UnknownPart.consumes : ∀ {ty : Ty}, cx.UnknownPart ty o p q → cx.InlinesRecords ty →
    cx.HoldsRecord ty → ∃ k rest, cx.Consumes ty k ∧ q = p ++ .key k :: rest
  | _, .content hook layer h, inlines, holds => by
    obtain ⟨k, rest, consumes, split⟩ :=
      h.consumes (inlines.wrapped hook (.content layer)) (holds.content layer)
    exact ⟨k, rest, .content hook layer consumes, split⟩
  | _, .entry _ layer _ _, _, holds => absurd layer holds.not_entries
  | _, .field hook layer hf kept apart _ h, _, _ => by
    obtain ⟨rest, rfl⟩ := h.extends
    exact ⟨_, rest, .own hook layer hf kept apart, List.append_assoc ..⟩
  | _, .inlined hook layer hf kept inline h, inlines, _ => by
    obtain ⟨k, rest, consumes, split⟩ := h.consumes (inlines.field hook layer hf kept)
      (inlines.here hook _ layer _ hf kept inline)
    exact ⟨k, rest, .inlined hook layer hf kept inline consumes, split⟩

/-- What a field finds unknown is below a key that it consumes. -/
theorem UnknownField.consumes {fs : List Field} {f : Field} (tidy : cx.Tidy ty)
    (hook : cx.registry.decoder? ty = none) (layer : cx.catalogue.below ty = .record fs)
    (hf : f ∈ fs) (h : cx.UnknownField f o p q) :
    ∃ k rest, cx.FieldConsumes f k ∧ q = p ++ .key k :: rest := by
  obtain ⟨kept, ⟨apart, x, -, h⟩ | ⟨inline, h⟩⟩ := h
  · obtain ⟨rest, rfl⟩ := h.extends
    exact ⟨f.key, rest, ⟨kept, .inl ⟨apart, rfl⟩⟩, List.append_assoc ..⟩
  · obtain ⟨k, rest, consumes, split⟩ := h.consumes (tidy.field hook layer hf kept).inlines
      (tidy.inlines.here hook fs layer f hf kept inline)
    exact ⟨k, rest, ⟨kept, .inr ⟨inline, consumes⟩⟩, split⟩

end Codec

namespace Tree.Ordered

theorem item {xs : List Tree} {x : Tree} (ordered : (Tree.array xs).Ordered) (hx : x ∈ xs) :
    x.Ordered := by
  cases ordered with
  | array h => exact h x hx

theorem entry {o : Object} {e : String × Tree} (ordered : (Tree.object o).Ordered) (he : e ∈ o) :
    e.2.Ordered := by
  cases ordered with
  | object _ h => exact h e he

theorem sorted {o : Object} (ordered : (Tree.object o).Ordered) : o.Sorted := by
  cases ordered with
  | object sorted _ => exact sorted

theorem keys_nodup {o : Object} (ordered : (Tree.object o).Ordered) : (Object.keys o).Nodup := by
  apply List.Pairwise.imp _ ordered.sorted
  rintro k _ h rfl
  exact String.lt_irrefl k h

end Tree.Ordered

/-! ## Computations -/

/-- A computation that notes no path twice. -/
def Once {α : Type} (x : StateT Audit (Except Error) α) : Prop :=
  ∀ a v a', x.run a = .ok (v, a') → ∃ ks qs, qs.Nodup ∧ a' = a.note ks qs

namespace Once

variable {α β : Type} {K K' : String → Prop} {U U' : Path → Prop}
  {x : StateT Audit (Except Error) α}

/-- The notes of a computation, and that they are different. -/
theorem notes (once : Once x) (notes : Notes x K U) {a a' : Audit} {v : α}
    (h : x.run a = .ok (v, a')) : ∃ ks qs, (∀ k, k ∈ ks ↔ K k) ∧ (∀ q, q ∈ qs ↔ U q) ∧ qs.Nodup ∧
      a' = a.note ks qs := by
  obtain ⟨ks, qs, hk, hq, rfl⟩ := notes a v a' h
  obtain ⟨ks', qs', nodup, same⟩ := once a v _ h
  have paths : a.unknown ++ qs = a.unknown ++ qs' := congrArg Audit.unknown same
  exact ⟨ks, qs, hk, hq, List.append_cancel_left paths ▸ nodup, rfl⟩

/-- What notes no path at all notes none twice. -/
theorem of_noPath (h : Notes x K noPath) : Once x := by
  intro a v a' hr
  obtain ⟨ks, qs, -, hq, rfl⟩ := h a v a' hr
  obtain rfl : qs = [] := List.eq_nil_iff_forall_not_mem.mpr fun q hm => (hq q).mp hm
  exact ⟨ks, [], List.nodup_nil, rfl⟩

theorem throw (e : Error) : Once (throw e : StateT Audit (Except Error) α) := nofun

theorem ofExcept (r : Except Error α) :
    Once (MonadExcept.ofExcept r : StateT Audit (Except Error) α) :=
  of_noPath (Notes.ofExcept r)

/-- Computations one after the other, none of which notes a path of the other. -/
theorem bind {f : α → StateT Audit (Except Error) β} (hx : Once x) (nx : Notes x K U)
    (hf : ∀ v, Once (f v)) (nf : ∀ v, Notes (f v) K' U') (apart : ∀ q, U q → ¬ U' q) :
    Once (x >>= f) := by
  intro a w a'' h
  rw [StateT.run_bind] at h
  rcases hr : x.run a with e | ⟨v, a'⟩ <;> rw [hr] at h
  · cases h
  · obtain ⟨ks, qs, -, hq, nodup, rfl⟩ := hx.notes nx hr
    obtain ⟨ks', qs', -, hq', nodup', rfl⟩ := (hf v).notes (nf v) h
    refine ⟨ks' ++ ks, qs ++ qs', nodup.append nodup' fun q hm hm' => ?_, Audit.note_note ..⟩
    exact apart q ((hq q).mp hm) ((hq' q).mp hm')

theorem follow {f : α → StateT Audit (Except Error) β} (hx : Once x)
    (hf : ∀ v, Notes (f v) noKey noPath) : Once (x >>= f) := by
  intro a w a'' h
  rw [StateT.run_bind] at h
  rcases hr : x.run a with e | ⟨v, a'⟩ <;> rw [hr] at h
  · cases h
  · obtain ⟨ks, qs, nodup, rfl⟩ := hx a v a' hr
    obtain ⟨ks', qs', -, hq', rfl⟩ := hf v _ w a'' h
    obtain rfl : qs' = [] := List.eq_nil_iff_forall_not_mem.mpr fun q hm => (hq' q).mp hm
    exact ⟨ks' ++ ks, qs ++ [], by rwa [List.append_nil], Audit.note_note ..⟩

/-- What comes before and notes no path makes no path noted twice. -/
theorem after {f : α → StateT Audit (Except Error) β} (nx : Notes x K noPath)
    (hf : ∀ v, Once (f v)) : Once (x >>= f) := by
  intro a w a'' h
  rw [StateT.run_bind] at h
  rcases hr : x.run a with e | ⟨v, a'⟩ <;> rw [hr] at h
  · cases h
  · obtain ⟨ks, qs, -, hq, rfl⟩ := nx a v a' hr
    obtain rfl : qs = [] := List.eq_nil_iff_forall_not_mem.mpr fun q hm => (hq q).mp hm
    obtain ⟨ks', qs', nodup, rfl⟩ := hf v _ w a'' h
    exact ⟨ks' ++ ks, [] ++ qs', nodup, Audit.note_note ..⟩

theorem map (h : Once x) (f : α → β) : Once (x >>= fun v => Pure.pure (f v)) :=
  h.follow fun v => .pure (f v)

theorem decodePointer {p : Pointer} {t : Ty} {x : StateT Audit (Except Error) Datum}
    (h : p.holds = true → Once x) : Once (Codec.decodePointer p t x) := by
  cases p with
  | weak => exact throw _
  | borrowed =>
    intro a v a' hr
    rw [Codec.decodePointer, StateT.run_bind] at hr
    rcases hx : x.run a with e | ⟨d, b⟩ <;> rw [hx] at hr <;> cases hr
  | _ => exact (h rfl).map Datum.wrapped

end Once

/-! ## Readings -/

/-- A decoder whose strict readings note no path twice, of tidy types and of trees whose objects
list no key twice. -/
structure Codec.NotesOnce (cx : Codec) (dec : Decoder (Except Error)) : Prop where
  tree (p : Path) {ty : Ty} {x : Tree} (tidy : cx.Tidy ty) (ordered : x.Ordered) :
    Once (dec.tree ⟨true, p, false⟩ ty x)
  object (p : Path) (inlined : Bool) {ty : Ty} {o : Object} (tidy : cx.Tidy ty)
    (ordered : (Tree.object o).Ordered) : Once (dec.object ⟨true, p, inlined⟩ ty o)

/-- Paths below different segments are different. -/
theorem Path.segment_eq {p r r' : Path} {s s' : Segment} (h : p ++ [s] ++ r = p ++ [s'] ++ r') :
    s = s' := by
  rw [List.append_assoc, List.append_assoc] at h
  exact (List.cons.inj (List.append_cancel_left h)).1

namespace Codec.NotesOnce

variable {cx : Codec} {dec : Decoder (Except Error)} (hd : cx.NotesOnce dec)
  (hn : cx.NotesUnknown dec) (p : Path) (inlined : Bool)
include hd hn

theorem decodeItems (i : Nat) {ts : List Ty} {xs : List Tree} (tidy : ∀ t ∈ ts, cx.Tidy t)
    (ordered : ∀ x ∈ xs, x.Ordered) : Once (Codec.decodeItems dec ⟨true, p, inlined⟩ i ts xs) := by
  induction ts generalizing i xs with
  | nil => exact .of_noPath (.pure _)
  | cons t ts ih =>
    cases xs with
    | nil => exact .of_noPath (.pure _)
    | cons x xs =>
      have first := hd.tree (p ++ [.index i]) (tidy t List.mem_cons_self)
        (ordered x List.mem_cons_self)
      have rest := ih (i + 1) (fun u hu => tidy u (List.mem_cons_of_mem _ hu))
        fun y hy => ordered y (List.mem_cons_of_mem _ hy)
      refine first.bind (hn.tree _ t x) (fun d => rest.map (d :: ·))
        (fun d => (hn.decodeItems p inlined (i + 1) ts xs).map (d :: ·)) ?_
      rintro q h ⟨j, u, y, -, -, h'⟩
      obtain ⟨r, rfl⟩ := h.extends
      obtain ⟨r', same⟩ := h'.extends
      have index := Segment.index.inj (Path.segment_eq same)
      omega

theorem decodeEntries {key value : Ty} {o : Object} (tidy : cx.Tidy value)
    (ordered : (Tree.object o).Ordered) :
    Once (Codec.decodeEntries cx dec ⟨true, p, inlined⟩ key value o) := by
  have sorted := ordered.sorted
  have each := fun e => ordered.entry (e := e)
  clear ordered
  induction o with
  | nil => exact .of_noPath (.pure _)
  | cons e o ih =>
    obtain ⟨k, x⟩ := e
    have first := hd.tree (p ++ [.key k]) tidy (each _ List.mem_cons_self)
    have rest := ih sorted.tail fun e he => each e (List.mem_cons_of_mem _ he)
    refine .after (.ofExcept _) fun kd => first.bind (hn.tree _ value x)
      (fun d => rest.map ((kd, d) :: ·))
      (fun d => (hn.decodeEntries p inlined key value o).map ((kd, d) :: ·)) ?_
    rintro q h ⟨l, y, hl, h'⟩
    obtain ⟨r, rfl⟩ := h.extends
    obtain ⟨r', same⟩ := h'.extends
    cases Path.segment_eq same
    exact sorted.head_not_mem (List.mem_map.mpr ⟨_, hl, rfl⟩)

variable {ty : Ty} {o : Object}

omit hn in
theorem decodeField {f : Field} {i : Nat} (tidy : f.skipped = false → cx.Tidy f.ty)
    (ordered : (Tree.object o).Ordered) :
    Once (Codec.decodeField cx dec ⟨true, p, inlined⟩ ty o i f) := by
  rcases kept : f.skipped with _ | _
  · rcases apart : f.inline with _ | _
    · rw [decodeField_apart kept apart, Codec.decodeKey]
      refine .after (.askKey p inlined f.key) fun _ => ?_
      rcases hx : Object.find? o f.key with _ | x
      · exact .ofExcept _
      · exact hd.tree _ (tidy kept) (ordered.entry (Object.mem_of_find? hx))
    · rw [decodeField_inlined kept apart]
      exact hd.object p true (tidy kept) ordered
  · rw [decodeField_skipped kept]
    exact .ofExcept _

theorem decodeFields {fs : List Field} (i : Nat) (tidy : cx.Tidy ty)
    (hook : cx.registry.decoder? ty = none) {gs : List Field}
    (layer : cx.catalogue.below ty = .record gs) (fields : ∀ f ∈ fs, f ∈ gs)
    (apart : fs.Pairwise fun f g => ∀ k, cx.FieldConsumes f k → ¬ cx.FieldConsumes g k)
    (ordered : (Tree.object o).Ordered) :
    Once (Codec.decodeFields cx dec ⟨true, p, inlined⟩ ty o i fs) := by
  induction fs generalizing i with
  | nil => exact .of_noPath (.pure _)
  | cons f fs ih =>
    obtain ⟨first, others⟩ := List.pairwise_cons.mp apart
    have hf := fields f List.mem_cons_self
    have hfs := fun g hg => fields g (List.mem_cons_of_mem f hg)
    refine (hd.decodeField p inlined (tidy.field hook layer hf) ordered).bind
      (hn.decodeField p inlined ty o i f) (fun d => (ih (i + 1) hfs others).map (d :: ·))
      (fun d => (hn.decodeFields p inlined ty o (i + 1) fs).map (d :: ·)) ?_
    rintro q h ⟨g, hg, h'⟩
    -- Both find what is below keys that they consume, and no key is consumed by both.
    obtain ⟨k, r, consumes, rfl⟩ := h.consumes tidy hook layer hf
    obtain ⟨k', r', consumes', same⟩ := h'.consumes tidy hook layer (hfs g hg)
    cases (List.cons.inj (List.append_cancel_left same)).1
    exact first g hg k consumes consumes'

/-- A record that is a level of its own notes the keys that its fields left, each of them once. -/
theorem decodeRecord {fs : List Field} (tidy : cx.Tidy ty) (hook : cx.registry.decoder? ty = none)
    (layer : cx.catalogue.below ty = .record fs) (ordered : (Tree.object o).Ordered) :
    Once (Codec.decodeRecord cx dec ⟨true, p, inlined⟩ ty fs o) := by
  have fields := hd.decodeFields hn p inlined 0 tidy hook layer (fun _ hf => hf)
    (tidy.apart.here _ layer) ordered
  cases inlined with
  | true => exact fields.map Datum.product
  | false =>
    intro a v a' h
    change ((Codec.decodeFields cx dec ⟨true, p, false⟩ ty o 0 fs).run a.openLevel >>= fun r =>
      (Except.ok (Datum.product r.1, r.2.closeLevel p o) : Except Error (Datum × Audit))) = _ at h
    rcases hr : (Codec.decodeFields cx dec ⟨true, p, false⟩ ty o 0 fs).run a.openLevel with
      e | ⟨ds, b⟩ <;> rw [hr] at h
    · cases h
    · obtain ⟨ks, qs, hk, hq, nodup, rfl⟩ := fields.notes (hn.decodeFields p false ty o 0 fs) hr
      cases h
      -- What the fields found is below consumed keys, what is left is not.
      refine ⟨[], qs ++ ((Object.keys o).filter fun k => !ks.contains k).map fun k => p ++ [.key k],
        nodup.append ((ordered.keys_nodup.filter _).map fun k k' same => ?_) fun q hm hm' => ?_, ?_⟩
      · exact Segment.key.inj (List.cons.inj (List.append_cancel_left same)).1
      · obtain ⟨f, hf, h⟩ := (hq q).mp hm
        obtain ⟨k, r, consumes, rfl⟩ := h.consumes tidy hook layer hf
        obtain ⟨k', left, same⟩ := List.mem_map.mp hm'
        have unconsumed : k' ∉ ks := by simpa using (List.mem_filter.mp left).2
        cases (List.cons.inj (List.append_cancel_left same)).1
        exact unconsumed ((hk _).mpr ⟨f, hf, consumes⟩)
      · rcases a with ⟨_ | ⟨keys, outer⟩, unknown⟩ <;>
          simp [Audit.note, Audit.openLevel, Audit.closeLevel]

theorem items {item? : Nat → Option Ty} {ts : List Ty} {xs : List Tree} (tidy : cx.Tidy ty)
    (hook : cx.registry.decoder? ty = none) (layer : cx.catalogue.below ty = .items item?)
    (ht : ∀ t ∈ ts, ∃ i, item? i = some t) (ordered : (Tree.array xs).Ordered) :
    Once (Codec.decodeItems dec ⟨true, p, inlined⟩ 0 ts xs) := by
  refine hd.decodeItems hn p inlined 0 (fun t h => ?_) fun x => ordered.item
  obtain ⟨i, hi⟩ := ht t h
  exact tidy.item hook layer hi

theorem decodePositional {ts : List Ty} {x : Tree} (tidy : cx.Tidy ty)
    (hook : cx.registry.decoder? ty = none) (layer : cx.catalogue.below ty = .items (ts[·]?))
    (ordered : x.Ordered) : Once (Codec.decodePositional dec ⟨true, p, inlined⟩ ty ts x) := by
  cases x with
  | array xs =>
    rw [Codec.decodePositional]
    split
    · exact hd.items hn p inlined tidy hook layer (fun t => List.getElem?_of_mem) ordered
    · exact .throw _
  | _ => exact .throw _

theorem decodeList {t : Ty} {x : Tree} (tidy : cx.Tidy (.list t))
    (hook : cx.registry.decoder? (.list t) = none) (ordered : x.Ordered) :
    Once (Codec.decodeList dec ⟨true, p, inlined⟩ t x) := by
  cases x with
  | array xs =>
    refine (hd.items hn p inlined tidy hook rfl (fun u hu => ⟨0, ?_⟩) ordered).map Datum.seq
    rw [List.eq_of_mem_replicate hu]
  | _ => exact .throw _

theorem decodeArray {t : Ty} {n : Nat} {x : Tree} (tidy : cx.Tidy (.array t n))
    (hook : cx.registry.decoder? (.array t n) = none) (ordered : x.Ordered) :
    Once (Codec.decodeArray dec ⟨true, p, inlined⟩ t n x) := by
  cases x with
  | array xs =>
    rw [Codec.decodeArray]
    split
    · exact .throw _
    · split
      · exact .throw _
      · split
        · exact .throw _
        · refine (hd.items hn p inlined tidy hook rfl (fun u hu => ⟨0, ?_⟩) ordered).map Datum.seq
          rw [List.eq_of_mem_replicate hu]
  | _ => exact .throw _

theorem decodeDeclared {name : String} {body : Body} {x : Tree} (tidy : cx.Tidy (.named name))
    (hook : cx.registry.decoder? (.named name) = none) (hb : cx.catalogue.body? name = some body)
    (ordered : x.Ordered) :
    Once (Codec.decodeDeclared cx dec ⟨true, p, false⟩ (.named name) body x) := by
  cases body with
  | newtype t =>
    exact (hd.tree p (tidy.content hook (Catalogue.below_newtype hb)) ordered).map Datum.wrapped
  | record fs =>
    cases x with
    | object o => exact hd.decodeRecord hn p false tidy hook (Catalogue.below_record hb) ordered
    | _ => exact .throw _
  | tuple fs =>
    have members := hd.decodePositional hn p false tidy hook (Catalogue.below_positional hb) ordered
    exact members.map Datum.product
  | enumeration vs => exact .ofExcept _

theorem decodeLayer {x : Tree} (tidy : cx.Tidy ty) (hook : cx.registry.decoder? ty = none)
    (ordered : x.Ordered) : Once (Codec.decodeLayer cx dec ⟨true, p, false⟩ ty x) := by
  have scalar : Once (MonadExcept.ofExcept (Scalar.decode ty x)) := .ofExcept _
  cases ty with
  | option t => exact (hd.tree p (tidy.content hook rfl) ordered).map Datum.present
  | pointer q t =>
    exact .decodePointer fun holds =>
      hd.tree p (tidy.content hook (cx.catalogue.below_pointer holds t)) ordered
  | nonZero k => exact (hd.tree p (tidy.content hook rfl) ordered).follow fun d => .ofExcept _
  | tuple ts => exact (hd.decodePositional hn p false tidy hook rfl ordered).map Datum.product
  | named name =>
    simp only [Codec.decodeLayer]
    split
    · rename_i body hb
      exact hd.decodeDeclared hn p tidy hook hb ordered
    · exact .throw _
  | list t =>
    simp only [Codec.decodeLayer]
    split
    · exact .ofExcept _
    · exact hd.decodeList hn p false tidy hook ordered
  | array t n => exact hd.decodeArray hn p false tidy hook ordered
  | map a key value =>
    cases x with
    | object o => exact (hd.decodeEntries hn p false (tidy.entry hook rfl) ordered).map Datum.map
    | _ => exact .throw _
  | tree => exact .throw _
  | borrowedText => exact .throw _
  | slice t => exact .throw _
  | set a t => exact .throw _
  | _ => exact scalar

theorem decodeObjectLayer (tidy : cx.Tidy ty) (hook : cx.registry.decoder? ty = none)
    (ordered : (Tree.object o).Ordered) :
    Once (Codec.decodeObjectLayer cx dec ⟨true, p, inlined⟩ ty o) := by
  cases ty with
  | option t => exact (hd.object p inlined (tidy.content hook rfl) ordered).map Datum.present
  | pointer q t =>
    exact .decodePointer fun holds =>
      hd.object p inlined (tidy.content hook (cx.catalogue.below_pointer holds t)) ordered
  | nonZero k =>
    exact (hd.object p inlined (tidy.content hook rfl) ordered).follow fun d => .ofExcept _
  | map a key value =>
    exact (hd.decodeEntries hn p inlined (tidy.entry hook rfl) ordered).map Datum.map
  | named name =>
    simp only [Codec.decodeObjectLayer]
    split
    · rename_i t body
      have content := hd.object p inlined (tidy.content hook (Catalogue.below_newtype body)) ordered
      exact content.map Datum.wrapped
    · rename_i fs body
      exact hd.decodeRecord hn p inlined tidy hook (Catalogue.below_record body) ordered
    · exact .throw _
  | _ => exact .throw _

end Codec.NotesOnce

/-- Strict readings of any depth note no path twice. -/
theorem Codec.notesOnce_decoder (cx : Codec) (depth : Nat) : cx.NotesOnce (decoder cx depth) := by
  induction depth with
  | zero => exact ⟨fun _ _ _ _ _ => .throw _, fun _ _ _ _ _ _ => .throw _⟩
  | succ depth ih =>
    have notes := cx.notesUnknown_decoder depth
    rw [decoder_succ]
    refine ⟨fun p ty x tidy ordered => ?_, fun p inlined ty o tidy ordered => ?_⟩
    · show Once (decodeStep cx _ _ ty x)
      rw [decodeStep.eq_def]
      split
      · exact .ofExcept _
      · split
        · exact .ofExcept _
        · rename_i hook
          exact ih.decodeLayer notes p tidy hook ordered
    · show Once (decodeObjectStep cx _ _ ty o)
      rw [decodeObjectStep]
      split
      · exact .ofExcept _
      · rename_i hook
        exact ih.decodeObjectLayer notes p inlined tidy hook ordered

end TreeCodec
