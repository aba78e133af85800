import TreeCodec.Proofs.InertKeys
import TreeCodec.Proofs.KeptFields
import TreeCodec.Proofs.Typing
import TreeCodec.Proofs.UnknownKeys

/-!
# Skipped fields

Skipped fields of records have no part in trees (`skipped_fields_stay_out`): what they hold
is not written, what stands under their keys is not read where no other field reads it, and
a record that is read has their zeros (`Codec.Reset`). Members of tuples are never skipped,
whatever their declaration says, and an inlined map takes in what stands under a skipped
field's key (`skipped_fields_show`).

* `Codec.Resets.layer`, `Codec.Resets.objectLayer`: a layer has its skipped fields reset if its
  parts have;
* `Codec.resets_decoder`: so has what is read at any depth.
-/

namespace TreeCodec

namespace Codec

/-- Data of which the skipped fields hold their zeros. Zeros of whole types, and what hooks
read, are as they are. -/
inductive Reset (cx : Codec) : Ty → Datum → Prop
  | zero {ty : Ty} {d : Datum} (h : cx.catalogue.zero ty = .ok d) : Reset cx ty d
  | hooked {ty : Ty} {d : Datum} {hook : Tree → Except Error Datum} {x : Tree}
    (hk : cx.registry.decoder? ty = some hook) (h : hook x = .ok d) : Reset cx ty d
  | leaf {ty : Ty} (layer : cx.catalogue.below ty = .nothing) (d : Datum) : Reset cx ty d
  | present {t : Ty} {d : Datum} (h : Reset cx t d) : Reset cx (.option t) (.present d)
  | wrapped {ty t : Ty} {d : Datum} (inner : cx.catalogue.inner? ty = some t) (h : Reset cx t d) :
    Reset cx ty (.wrapped d)
  | seq {ty : Ty} {item? : Nat → Option Ty} {ds : List Datum}
    (layer : cx.catalogue.below ty = .items item?)
    (h : ∀ (i : Nat) (t : Ty) (d : Datum), item? i = some t → ds[i]? = some d → Reset cx t d) :
    Reset cx ty (.seq ds)
  | product {ty : Ty} {item? : Nat → Option Ty} {ds : List Datum}
    (layer : cx.catalogue.below ty = .items item?)
    (h : ∀ (i : Nat) (t : Ty) (d : Datum), item? i = some t → ds[i]? = some d → Reset cx t d) :
    Reset cx ty (.product ds)
  | map {ty t : Ty} {es : List (Datum × Datum)} (layer : cx.catalogue.below ty = .entries t)
    (h : ∀ e ∈ es, Reset cx t e.2) : Reset cx ty (.map es)
  | record {ty : Ty} {fs : List Field} {ds : List Datum}
    (layer : cx.catalogue.below ty = .record fs) (length : ds.length = fs.length)
    (skipped : ∀ (i : Nat) (f : Field) (d : Datum), fs[i]? = some f → ds[i]? = some d →
      f.skipped = true → cx.catalogue.zeroField f = .ok d)
    (kept : ∀ (i : Nat) (f : Field) (d : Datum), fs[i]? = some f → ds[i]? = some d →
      cx.catalogue.zeroField f ≠ .ok d → Reset cx f.ty d) : Reset cx ty (.product ds)

section Wrappers

variable {cx : Codec} {content : StateT Audit (Except Error) Datum} {d : Datum}

theorem Reset.pointer {p : Pointer} {t : Ty} (h : Yields (decodePointer p t content) d)
    (hc : ∀ e, Yields content e → cx.Reset t e) : cx.Reset (.pointer p t) d := by
  obtain ⟨e, rfl, inner⟩ := yields_pointer h
  cases p with
  | borrowed => exact .leaf rfl _
  | weak => exact .leaf rfl _
  | _ => exact .wrapped rfl (hc e inner)

theorem Reset.nonZero {k : IntTy}
    (h : Yields (content >>= fun d => MonadExcept.ofExcept (wrapNonZero k d)) d) :
    cx.Reset (.nonZero k) d := by
  obtain ⟨e, -, h⟩ := h.of_bind
  have made := h.of_ofExcept
  rw [wrapNonZero.eq_def] at made
  split at made <;> cases made
  exact .wrapped rfl (.leaf rfl e)

end Wrappers

/-- A decoder of data of which the skipped fields hold their zeros. -/
structure Resets (cx : Codec) (dec : Decoder (Except Error)) : Prop where
  tree {s : Scope} {ty : Ty} {x : Tree} {d : Datum} : Yields (dec.tree s ty x) d → cx.Reset ty d
  object {s : Scope} {ty : Ty} {o : Object} {d : Datum} :
    Yields (dec.object s ty o) d → cx.Reset ty d

namespace Resets

variable {cx : Codec} {dec : Decoder (Except Error)} (hd : cx.Resets dec) {s : Scope} {ty t : Ty}
  {x : Tree} {o : Object} {d : Datum}
include hd

/-! ## Parts -/

theorem items {i : Nat} {ts : List Ty} {xs : List Tree} {ds : List Datum}
    (h : Yields (decodeItems dec s i ts xs) ds) (j : Nat) (t : Ty) (d : Datum)
    (ht : ts[j]? = some t) (hds : ds[j]? = some d) : cx.Reset t d := by
  induction ts generalizing i xs ds j with
  | nil => cases ht
  | cons u ts ih =>
    cases xs with
    | nil =>
      cases h.of_pure
      cases hds
    | cons x xs =>
      obtain ⟨e, first, h⟩ := h.of_bind
      obtain ⟨es, rfl, rest⟩ := h.of_map
      cases j with
      | zero =>
        cases ht
        cases hds
        exact hd.tree first
      | succ j => exact ih rest j ht hds

theorem positional {ts : List Ty} {ds : List Datum}
    (h : Yields (decodePositional dec s ty ts x) ds) (j : Nat) (t : Ty) (d : Datum)
    (ht : ts[j]? = some t) (hds : ds[j]? = some d) : cx.Reset t d := by
  rw [decodePositional.eq_def] at h
  split at h
  · split at h
    · exact hd.items h j t d ht hds
    · exact absurd h Yields.not_throw
  · exact absurd h Yields.not_throw

/-- Items that are all of one type. -/
theorem seq {n : Nat} {xs : List Tree} {ds : List Datum}
    (layer : cx.catalogue.below ty = .items fun _ => some t) (length : xs.length = n)
    (h : Yields (decodeItems dec s 0 (.replicate n t) xs) ds) : cx.Reset ty (.seq ds) := by
  have size := length_of_decodeItems (length.trans List.length_replicate.symm) h
  refine .seq layer fun i u d hu hds => ?_
  cases hu
  have inside : i < n := by
    rw [List.length_replicate] at size
    exact size ▸ (List.getElem?_eq_some_iff.mp hds).1
  exact hd.items h i t d (List.getElem?_replicate_of_lt inside) hds

theorem entries {key : Ty} {es : List (Datum × Datum)}
    (h : Yields (decodeEntries cx dec s key t o) es) : ∀ e ∈ es, cx.Reset t e.2 := by
  have reads := yields_entries h
  clear h
  induction reads with
  | nil => simp
  | cons first _ ih => exact List.forall_mem_cons.mpr ⟨hd.tree first.2, ih⟩

/-- A skipped field is its zero, and so is one that its object has nothing for. -/
theorem field {f : Field} {i : Nat} (h : Yields (decodeField cx dec s ty o i f) d) :
    cx.catalogue.zeroField f = .ok d ∨ f.skipped = false ∧ cx.Reset f.ty d := by
  rcases kept : f.skipped with _ | _
  · rcases inline : f.inline with _ | _
    · rw [decodeField_apart kept inline] at h
      obtain ⟨-, -, h⟩ := h.of_bind
      split at h
      · exact .inr ⟨rfl, hd.tree h⟩
      · exact .inl h.of_ofExcept
    · rw [decodeField_inlined kept inline] at h
      exact .inr ⟨rfl, hd.object h⟩
  · rw [decodeField_skipped kept] at h
    exact .inl h.of_ofExcept

theorem fields {i : Nat} {fs : List Field} {ds : List Datum}
    (h : Yields (decodeFields cx dec s ty o i fs) ds) :
    ds.length = fs.length ∧ ∀ (j : Nat) (f : Field) (d : Datum), fs[j]? = some f → ds[j]? = some d →
      cx.catalogue.zeroField f = .ok d ∨ f.skipped = false ∧ cx.Reset f.ty d := by
  induction fs generalizing i ds with
  | nil =>
    cases h.of_pure
    exact ⟨rfl, fun j f d hf => by cases hf⟩
  | cons g fs ih =>
    obtain ⟨e, first, h⟩ := h.of_bind
    obtain ⟨es, rfl, rest⟩ := h.of_map
    obtain ⟨length, reset⟩ := ih rest
    refine ⟨congrArg Nat.succ length, fun j f d hf hds => ?_⟩
    cases j with
    | zero =>
      cases hf
      cases hds
      exact hd.field first
    | succ j => exact reset j f d hf hds

theorem record {fs : List Field} (layer : cx.catalogue.below ty = .record fs)
    (h : Yields (decodeRecord cx dec s ty fs o) d) : cx.Reset ty d := by
  obtain ⟨ds, rfl, fields⟩ := yields_record h
  obtain ⟨length, reset⟩ := hd.fields fields
  refine .record layer length (fun i f d hf hds skipped => ?_) fun i f d hf hds other => ?_
  · exact (reset i f d hf hds).resolve_right fun kept => by rw [skipped] at kept; cases kept.1
  · exact ((reset i f d hf hds).resolve_left other).2

/-! ## Layers -/

theorem list (h : Yields (decodeLayer cx dec s (.list t) x) d) : cx.Reset (.list t) d := by
  simp only [decodeLayer] at h
  split at h
  · rename_i bytes
    -- Bytes are integers, below which there are no fields.
    obtain ⟨k, rfl⟩ : ∃ k, t = .int k := by cases t <;> first | exact ⟨_, rfl⟩ | cases bytes
    have decoded := h.of_ofExcept
    rw [decodeBytes.eq_def] at decoded
    split at decoded
    · split at decoded <;> cases decoded
      exact .seq rfl fun i u d hu _ => by cases hu; exact .leaf rfl d
    · cases decoded
  · rw [decodeList.eq_def] at h
    split at h
    · obtain ⟨ds, rfl, items⟩ := h.of_map
      exact hd.seq rfl rfl items
    · exact absurd h Yields.not_throw

theorem array {n : Nat} (h : Yields (decodeLayer cx dec s (.array t n) x) d) :
    cx.Reset (.array t n) d := by
  simp only [decodeLayer, decodeArray.eq_def] at h
  split at h
  · split at h
    · exact absurd h Yields.not_throw
    · rename_i length
      split at h
      · exact absurd h Yields.not_throw
      · split at h
        · exact absurd h Yields.not_throw
        · obtain ⟨ds, rfl, items⟩ := h.of_map
          exact hd.seq rfl (Decidable.not_not.mp length) items
  · exact absurd h Yields.not_throw

theorem layer (h : Yields (decodeLayer cx dec s ty x) d) : cx.Reset ty d := by
  cases ty with
  | option t =>
    obtain ⟨e, rfl, inner⟩ := h.of_map
    exact .present (hd.tree inner)
  | pointer p t => exact .pointer h fun e => hd.tree
  | nonZero k => exact .nonZero h
  | tuple ts =>
    obtain ⟨ds, rfl, members⟩ := h.of_map
    exact .product rfl (hd.positional members)
  | named name =>
    simp only [decodeLayer] at h
    rcases body : cx.catalogue.body? name with _ | ⟨fs⟩ | ⟨fs⟩ | ⟨t⟩ | ⟨vs⟩ <;> rw [body] at h
    · exact absurd h Yields.not_throw
    · simp only [decodeDeclared] at h
      split at h
      · exact hd.record (Catalogue.below_record body) h
      · exact absurd h Yields.not_throw
    · obtain ⟨ds, rfl, members⟩ := h.of_map
      exact .product (Catalogue.below_positional body) (hd.positional members)
    · obtain ⟨e, rfl, inner⟩ := h.of_map
      exact .wrapped (Catalogue.inner?_newtype body) (hd.tree inner)
    · exact .leaf (Catalogue.below_enumeration body) d
  | list t => exact hd.list h
  | array t n => exact hd.array h
  | map a key t =>
    simp only [decodeLayer] at h
    split at h
    · obtain ⟨es, rfl, entries⟩ := h.of_map
      exact .map rfl (hd.entries entries)
    · exact absurd h Yields.not_throw
  | _ => exact .leaf rfl d

theorem objectLayer (h : Yields (decodeObjectLayer cx dec s ty o) d) : cx.Reset ty d := by
  cases ty with
  | option t =>
    obtain ⟨e, rfl, inner⟩ := h.of_map
    exact .present (hd.object inner)
  | pointer p t => exact .pointer h fun e => hd.object
  | nonZero k => exact .nonZero h
  | map a key t =>
    obtain ⟨es, rfl, entries⟩ := h.of_map
    exact .map rfl (hd.entries entries)
  | named name =>
    simp only [decodeObjectLayer] at h
    rcases body : cx.catalogue.body? name with _ | ⟨fs⟩ | ⟨fs⟩ | ⟨t⟩ | ⟨vs⟩ <;> rw [body] at h
    · exact absurd h Yields.not_throw
    · exact hd.record (Catalogue.below_record body) h
    · exact absurd h Yields.not_throw
    · obtain ⟨e, rfl, inner⟩ := h.of_map
      exact .wrapped (Catalogue.inner?_newtype body) (hd.object inner)
    · exact absurd h Yields.not_throw
  | _ => exact absurd h Yields.not_throw

theorem decodeStep (h : Yields (Codec.decodeStep cx dec s ty x) d) : cx.Reset ty d := by
  rw [decodeStep.eq_def] at h
  split at h
  · exact .zero h.of_ofExcept
  · split at h
    · rename_i hook hk
      exact .hooked hk h.of_ofExcept
    · exact hd.layer h

theorem decodeObjectStep (h : Yields (Codec.decodeObjectStep cx dec s ty o) d) : cx.Reset ty d := by
  rw [decodeObjectStep.eq_def] at h
  split at h
  · rename_i hook hk
    exact .hooked hk h.of_ofExcept
  · exact hd.objectLayer h

end Resets

/-! ## Whole readings -/

theorem resets_decoder (cx : Codec) (depth : Nat) : cx.Resets (decoder cx depth) := by
  induction depth with
  | zero => exact ⟨fun h => absurd h Yields.not_throw, fun h => absurd h Yields.not_throw⟩
  | succ depth ih => exact ⟨fun h => ih.decodeStep h, fun h => ih.decodeObjectStep h⟩

theorem yields_of_build {cx : Codec} {ty : Ty} {read : StateT Audit (Except Error) Datum}
    {d : Datum} (h : cx.build ty read = .ok d) : Yields read d := by
  rcases hr : read.run .empty with e | ⟨v, a⟩
  · rw [build, hr] at h
    cases h
  · rw [build_of_ok hr] at h
    obtain ⟨rfl, -⟩ := eq_of_accept h
    exact ⟨_, _, hr⟩

/-- Objects that differ only under a key that no field reads, such as one of a skipped field. -/
theorem Alike.of_unread_key {cx : Codec} {ty : Ty} {fs : List Field} {key : String} {o o' : Object}
    (hook : cx.registry.decoder? ty = none) (layer : cx.catalogue.below ty = .record fs)
    (unread : ∀ t, ¬ cx.Asks ty key t)
    (same : ∀ k, k ≠ key → Object.find? o k = Object.find? o' k) :
    cx.Alike ty (.object o) (.object o') :=
  .of_unread hook layer fun k t asks => same k fun own => unread t (own ▸ asks)

end Codec

/-- Skipped fields of records have no part in trees: data that differ only in them are written
alike, in what is read they hold their zeros, and where inlined fields reach records the same
is read whatever stands under keys that no field reads. -/
theorem skipped_fields_stay_out (cx : Codec) (ty : Ty) :
    (∀ d e, cx.SameKept ty d e → (cx.toTree ty d : Except Error Tree) = cx.toTree ty e) ∧
    (∀ strict x d, (cx.fromTree strict ty x : Except Error Datum) = .ok d → cx.Reset ty d) ∧
    (cx.InlinesRecords ty → ∀ x y d, cx.Alike ty x y →
      (cx.fromTree false ty x : Except Error Datum) = .ok d →
      (cx.fromTree false ty y : Except Error Datum) = .ok d) := by
  refine ⟨fun d e h => cx.overlooks_encode cx.maxDepth h, fun strict x d h => ?_,
    fun fit x y d h hd => ?_⟩
  · exact (cx.resets_decoder cx.maxDepth).tree (Codec.yields_of_build h)
  · have same := (cx.inert_decoder cx.maxDepth).tree (.root false) rfl fit h
    rwa [Codec.fromTree, same] at hd

/-! ## Visits -/

/-- Visits have a token that is skipped, and so has, by its declaration, a member of a pair. -/
def Catalogue.visits : Catalogue where
  decls :=
    [("visit", { body := .record [
        { key := "user", ty := .string },
        { key := "token", ty := .string, skipped := true, default? := some (.text "none") }] }),
      ("pair", { body := .tuple [
        { key := "0", ty := .int .int64, skipped := true }, { key := "1", ty := .string }] })]

/-- Drafts have a number that is skipped beside an inlined map. -/
def Catalogue.drafts : Catalogue where
  decls := [("draft", { body := .record [
    { key := "number", ty := .int .int64, skipped := true },
    { key := "rest", ty := .map .hashed .string .string, inline := true }] })]

namespace Codec

/-- The standard codec of visits. -/
def visits : Codec := .standard .visits

/-- The standard codec of drafts. -/
def drafts : Codec := .standard .drafts

theorem inlinesRecords_visits (ty : Ty) : visits.InlinesRecords ty := by
  refine fun _ u _ => inlinesOnly_of_records (fun name fs body f hf inline => ?_) u
  obtain ⟨e, he, body⟩ := Catalogue.mem_of_body? body
  simp only [visits, standard, Catalogue.visits, List.mem_cons, List.not_mem_nil, or_false] at he
  rcases he with rfl | rfl <;> cases body
  simp only [List.mem_cons, List.not_mem_nil, or_false] at hf
  rcases hf with rfl | rfl <;> cases inline

/-- No field of a visit reads its token. -/
theorem not_asks_token (t : Ty) : ¬ visits.Asks (.named "visit") "token" t := by
  intro h
  obtain ⟨f, hf, kept, own | ⟨inline, -⟩⟩ := (asks_record rfl rfl).mp h <;>
    simp only [List.mem_cons, List.not_mem_nil, or_false] at hf <;> rcases hf with rfl | rfl
  · simp at own
  · cases kept
  · cases inline
  · cases kept

end Codec

/-- Two visits with different tokens, and their trees with a token and without one. -/
theorem skipped_fields_stay_out_visits :
    let cx := Codec.visits
    let ty : Ty := .list (.named "visit")
    let visit (token : String) : Datum := .seq [.product [.text "a", .text token]]
    let x : Tree := .array [.object [("token", .string "x"), ("user", .string "a")]]
    let y : Tree := .array [.object [("user", .string "a")]]
    (cx.SameKept ty (visit "x") (visit "y") ∧
      (cx.toTree ty (visit "x") : Except Error Tree) = cx.toTree ty (visit "y")) ∧
    (cx.fromTree false ty x = (.ok (visit "none") : Except Error Datum) ∧
      cx.Reset ty (visit "none")) ∧
    cx.InlinesRecords ty ∧ cx.Alike ty x y ∧
      cx.fromTree false ty y = (.ok (visit "none") : Except Error Datum) := by
  intro cx ty visit x y
  have ⟨written, reset, same⟩ := skipped_fields_stay_out cx ty
  have kept : cx.SameKept ty (visit "x") (visit "y") := by
    refine .seq rfl rfl rfl fun i t d e ht hd he => ?_
    cases ht
    cases i with
    | succ i => cases hd
    | zero =>
      cases hd
      cases he
      refine .record rfl rfl rfl fun j f d e hf kept hd he => ?_
      match j with
      | 0 => cases hf; cases hd; cases he; exact .refl _ _
      | 1 => cases hf; cases kept
      | j + 2 => cases hf
  have fit := Codec.inlinesRecords_visits ty
  have alike : cx.Alike ty x y := by
    refine .items rfl rfl rfl fun i t x y ht hx hy => ?_
    cases ht
    cases i with
    | succ i => cases hx
    | zero =>
      cases hx
      cases hy
      refine .of_unread_key rfl rfl Codec.not_asks_token fun k other => ?_
      simp [Object.find?_cons, other]
  have read : cx.fromTree false ty x = (.ok (visit "none") : Except Error Datum) := rfl
  exact ⟨⟨kept, written _ _ kept⟩, ⟨read, reset false x _ read⟩, fit, alike,
    same fit x y _ alike read⟩

/-- Skipped members of pairs are written and read, and a map that is inlined beside a skipped
field takes in what stands under its key. -/
theorem skipped_fields_show :
    (let cx := Codec.visits
      let ty : Ty := .named "pair"
      let written (d : Datum) : Except Error Tree := cx.toTree ty d
      let read (x : Tree) : Except Error Datum := cx.fromTree false ty x
      HasType .visits ty (.product [.int 1, .text "a"]) ∧
      HasType .visits ty (.product [.int 2, .text "a"]) ∧
      written (.product [.int 1, .text "a"]) = .ok (.array [.int 1, .string "a"]) ∧
      written (.product [.int 2, .text "a"]) = .ok (.array [.int 2, .string "a"]) ∧
      read (.array [.int 1, .string "a"]) = .ok (.product [.int 1, .text "a"]) ∧
      read (.array [.int 2, .string "a"]) = .ok (.product [.int 2, .text "a"])) ∧
    let cx := Codec.drafts
    let read (x : Tree) : Except Error Datum := cx.fromTree false (.named "draft") x
    read (.object [("number", .string "1")]) =
        .ok (.product [.int 0, .map [(.text "number", .text "1")]]) ∧
      read (.object [("number", .string "2")]) =
        .ok (.product [.int 0, .map [(.text "number", .text "2")]]) := by
  refine ⟨⟨?_, ?_, rfl, rfl, rfl, rfl⟩, rfl, rfl⟩
  · exact .positional rfl (.cons (.int rfl) (.cons (.string "a") .nil))
  · exact .positional rfl (.cons (.int rfl) (.cons (.string "a") .nil))

end TreeCodec
