import TreeCodec.Proofs.OmittedFields

/-!
# Where data come from

A datum that is read from a tree is put together from data that are read from parts of the
tree, at whatever depth and in whatever mode (`Codec.ReadAs.origin`). Which part of the tree
that is, is said by the type, the tree and the datum (`Codec.Origin`): the item at the same
position, the entry at the same position, what stands under the key of a field, or all of
the tree, for what wraps and what is inlined.
-/

namespace TreeCodec.Codec

/-- What in a datum was read from what in the tree that the datum was read from, each as a type.
What a hook reads has no parts. -/
inductive Origin (cx : Codec) : Ty → Tree → Datum → Ty → Tree → Datum → Prop
  | here (ty : Ty) (x : Tree) (d : Datum) : Origin cx ty x d ty x d
  | content {ty t u : Ty} {x y : Tree} {d e b : Datum} (hook : cx.registry.decoder? ty = none)
    (layer : cx.catalogue.Content ty d t e) (h : Origin cx t x e u y b) : Origin cx ty x d u y b
  | member {ty t u : Ty} {xs : List Tree} {x y : Tree} {d e b : Datum} {ts : List Ty}
    {ds : List Datum} {i : Nat} (hook : cx.registry.decoder? ty = none)
    (layer : cx.catalogue.Members ty d ts ds) (ht : ts[i]? = some t) (hx : xs[i]? = some x)
    (he : ds[i]? = some e) (h : Origin cx t x e u y b) : Origin cx ty (.array xs) d u y b
  | value {a : Arrangement} {key t u : Ty} {o : Object} {p : String × Tree} {y : Tree} {b : Datum}
    {es : List (Datum × Datum)} {e : Datum × Datum} {i : Nat}
    (hook : cx.registry.decoder? (.map a key t) = none) (hp : o[i]? = some p) (he : es[i]? = some e)
    (h : Origin cx t p.2 e.2 u y b) : Origin cx (.map a key t) (.object o) (.map es) u y b
  | field {name : String} {fs : List Field} {f : Field} {u : Ty} {o : Object} {x y : Tree}
    {ds : List Datum} {e b : Datum} {i : Nat} (hook : cx.registry.decoder? (.named name) = none)
    (body : cx.catalogue.body? name = some (.record fs)) (hf : fs[i]? = some f)
    (kept : f.skipped = false) (apart : f.inline = false) (found : Object.find? o f.key = some x)
    (he : ds[i]? = some e) (h : Origin cx f.ty x e u y b) :
    Origin cx (.named name) (.object o) (.product ds) u y b
  | inlined {name : String} {fs : List Field} {f : Field} {u : Ty} {o : Object} {y : Tree}
    {ds : List Datum} {e b : Datum} {i : Nat} (hook : cx.registry.decoder? (.named name) = none)
    (body : cx.catalogue.body? name = some (.record fs)) (hf : fs[i]? = some f)
    (kept : f.skipped = false) (inline : f.inline = true) (he : ds[i]? = some e)
    (h : Origin cx f.ty (.object o) e u y b) : Origin cx (.named name) (.object o) (.product ds) u y b

variable {cx : Codec} {ty t u : Ty} {x y : Tree} {d e b : Datum}

/-- Nothing is read from within null. -/
theorem Origin.null (h : cx.Origin ty .null d u y b) : y = .null := by
  generalize whole : Tree.null = x at h
  induction h with
  | here => rfl
  | content _ _ _ ih => exact ih whole
  | _ => cases whole

/-- A datum that is read at some place, at some depth, from a tree or from an object. -/
def ReadAs (cx : Codec) (ty : Ty) (x : Tree) (d : Datum) : Prop :=
  ∃ depth s, Yields ((decoder cx depth).tree s ty x) d ∨
    ∃ o, x = .object o ∧ Yields ((decoder cx depth).object s ty o) d

namespace ReadAs

/-- A layer that no hook reads is read by its description. -/
theorem layer (h : cx.ReadAs ty x d) (hook : cx.registry.decoder? ty = none) (some : x ≠ .null) :
    ∃ depth s, Yields (decodeLayer cx (decoder cx depth) s ty x) d ∨
      ∃ o, x = .object o ∧ Yields (decodeObjectLayer cx (decoder cx depth) s ty o) d := by
  obtain ⟨depth, s, h⟩ := h
  cases depth with
  | zero =>
    rcases h with h | ⟨o, -, h⟩
    · exact absurd h Yields.not_throw
    · exact absurd h Yields.not_throw
  | succ depth =>
    rcases h with h | ⟨o, rfl, h⟩
    · exact ⟨depth, s, .inl (yields_layer some hook h)⟩
    · exact ⟨depth, s, .inr ⟨o, rfl, yields_objectLayer hook h⟩⟩

/-- What a layer holds is read by the decoder of the parts. -/
theorem yields_content {dec : Decoder (Except Error)} {s : Scope}
    (layer : cx.catalogue.Content ty d t e) :
    (∀ x, Yields (decodeLayer cx dec s ty x) d → Yields (dec.tree s t x) e) ∧
      ∀ o, Yields (decodeObjectLayer cx dec s ty o) d → Yields (dec.object s t o) e := by
  have nonZero {k : IntTy} {content : StateT Audit (Except Error) Datum} {e : Datum}
      (h : Yields (content >>= fun d => MonadExcept.ofExcept (wrapNonZero k d)) (.wrapped e)) :
      Yields content e := by
    obtain ⟨w, inner, h⟩ := h.of_bind
    have made := h.of_ofExcept
    rw [wrapNonZero.eq_def] at made
    split at made <;> cases made
    exact inner
  have mapped {content : StateT Audit (Except Error) Datum} {e : Datum} {wrap : Datum → Datum}
      (injective : ∀ v, wrap e = wrap v → e = v)
      (h : Yields (content >>= fun d => pure (wrap d)) (wrap e)) : Yields content e := by
    obtain ⟨v, same, h⟩ := h.of_map
    exact injective v same ▸ h
  have pointer {p : Pointer} {t : Ty} {content : StateT Audit (Except Error) Datum} {e : Datum}
      (h : Yields (decodePointer p t content) (.wrapped e)) : Yields content e := by
    obtain ⟨v, same, h⟩ := yields_pointer h
    cases same
    exact h
  cases layer with
  | option => exact ⟨fun _ => mapped fun _ => Datum.present.inj, fun _ => mapped fun _ => Datum.present.inj⟩
  | pointer => exact ⟨fun _ => pointer, fun _ => pointer⟩
  | nonZero => exact ⟨fun _ => nonZero, fun _ => nonZero⟩
  | newtype body =>
    simp only [decodeLayer, decodeObjectLayer, body, decodeDeclared]
    exact ⟨fun _ => mapped fun _ => Datum.wrapped.inj, fun _ => mapped fun _ => Datum.wrapped.inj⟩

/-- What is held is read from the same tree. -/
theorem content (h : cx.ReadAs ty x d) (hook : cx.registry.decoder? ty = none) (some : x ≠ .null)
    (layer : cx.catalogue.Content ty d t e) : cx.ReadAs t x e := by
  obtain ⟨depth, s, read | ⟨o, rfl, read⟩⟩ := h.layer hook some
  · exact ⟨depth, s, .inl ((yields_content layer).1 x read)⟩
  · exact ⟨depth, s, .inr ⟨o, rfl, (yields_content layer).2 o read⟩⟩

/-- Items are read by position. -/
theorem yields_item_at {dec : Decoder (Except Error)} {s : Scope} {ts : List Ty} {xs : List Tree}
    {ds : List Datum} {i j : Nat} (h : Yields (decodeItems dec s i ts xs) ds) (ht : ts[j]? = some t)
    (hx : xs[j]? = some x) (hd : ds[j]? = some d) : ∃ s, Yields (dec.tree s t x) d := by
  induction ts generalizing i j xs ds with
  | nil => cases ht
  | cons u ts ih =>
    cases xs with
    | nil => cases hx
    | cons y xs =>
      obtain ⟨e, first, h⟩ := h.of_bind
      obtain ⟨es, rfl, rest⟩ := h.of_map
      cases j with
      | zero =>
        cases ht
        cases hx
        cases hd
        exact ⟨_, first⟩
      | succ j => exact ih rest ht hx hd

theorem yields_positional_at {dec : Decoder (Except Error)} {s : Scope} {ts : List Ty}
    {xs : List Tree} {ds : List Datum} {i : Nat}
    (h : Yields (decodePositional dec s ty ts (.array xs)) ds) (ht : ts[i]? = some t)
    (hx : xs[i]? = some x) (he : ds[i]? = some e) : ∃ s, Yields (dec.tree s t x) e := by
  rw [decodePositional] at h
  split at h
  · exact yields_item_at h ht hx he
  · exact absurd h Yields.not_throw

/-- The members of a layer are read from the items of an array, each at its position. -/
theorem yields_member {dec : Decoder (Except Error)} {s : Scope} {xs : List Tree} {ts : List Ty}
    {ds : List Datum} {i : Nat} (layer : cx.catalogue.Members ty d ts ds)
    (h : Yields (decodeLayer cx dec s ty (.array xs)) d) (ht : ts[i]? = some t)
    (hx : xs[i]? = some x) (he : ds[i]? = some e) : ∃ s, Yields (dec.tree s t x) e := by
  have inside : i < xs.length := (List.getElem?_eq_some_iff.mp hx).1
  have alike {u : Ty} {n : Nat} (ht : (List.replicate n u)[i]? = some t) :
      (List.replicate xs.length u)[i]? = some t := by
    rw [List.eq_of_mem_replicate (List.mem_of_getElem? ht)]
    exact List.getElem?_replicate_of_lt inside
  cases layer with
  | list items =>
    simp only [decodeLayer, items] at h
    obtain ⟨_, same, h⟩ := h.of_map
    cases same
    exact yields_item_at h (alike ht) hx he
  | array u n =>
    simp only [decodeLayer, decodeArray] at h
    split at h
    · exact absurd h Yields.not_throw
    · rename_i length
      split at h
      · exact absurd h Yields.not_throw
      · split at h
        · exact absurd h Yields.not_throw
        · obtain ⟨_, same, h⟩ := h.of_map
          cases same
          rw [← Decidable.not_not.mp length] at h
          exact yields_item_at h (alike ht) hx he
  | tuple =>
    obtain ⟨_, same, h⟩ := h.of_map
    cases same
    exact yields_positional_at h ht hx he
  | positional body =>
    simp only [decodeLayer, body, decodeDeclared] at h
    obtain ⟨_, same, h⟩ := h.of_map
    cases same
    exact yields_positional_at h ht hx he

theorem member {xs : List Tree} {ts : List Ty} {ds : List Datum} {i : Nat}
    (h : cx.ReadAs ty (.array xs) d) (hook : cx.registry.decoder? ty = none)
    (layer : cx.catalogue.Members ty d ts ds) (ht : ts[i]? = some t) (hx : xs[i]? = some x)
    (he : ds[i]? = some e) : cx.ReadAs t x e := by
  obtain ⟨depth, s, read | ⟨_, same, -⟩⟩ := h.layer hook (Tree.array_ne_null xs)
  · obtain ⟨s', read⟩ := yields_member layer read ht hx he
    exact ⟨depth, s', .inl read⟩
  · cases same

/-- Entries are read by position. -/
theorem yields_entry_at {dec : Decoder (Except Error)} {s : Scope} {key : Ty} {o : Object}
    {p : String × Tree} {es : List (Datum × Datum)} {q : Datum × Datum} {i : Nat}
    (h : Yields (decodeEntries cx dec s key t o) es) (hp : o[i]? = some p) (hq : es[i]? = some q) :
    ∃ s, Yields (dec.tree s t p.2) q.2 := by
  obtain ⟨hi, rfl⟩ := List.getElem?_eq_some_iff.mp hp
  obtain ⟨hi', rfl⟩ := List.getElem?_eq_some_iff.mp hq
  exact ⟨_, ((List.forall₂_iff_get.mp (yields_entries h)).2 i hi hi').2⟩

theorem value {a : Arrangement} {key : Ty} {o : Object} {p : String × Tree}
    {es : List (Datum × Datum)} {q : Datum × Datum} {i : Nat}
    (h : cx.ReadAs (.map a key t) (.object o) (.map es))
    (hook : cx.registry.decoder? (.map a key t) = none) (hp : o[i]? = some p)
    (hq : es[i]? = some q) : cx.ReadAs t p.2 q.2 := by
  obtain ⟨depth, s, read | ⟨_, same, read⟩⟩ := h.layer hook (Tree.object_ne_null o)
  · obtain ⟨_, same, read⟩ := read.of_map
    cases same
    obtain ⟨s', read⟩ := yields_entry_at read hp hq
    exact ⟨depth, s', .inl read⟩
  · cases same
    obtain ⟨_, same, read⟩ := read.of_map
    cases same
    obtain ⟨s', read⟩ := yields_entry_at read hp hq
    exact ⟨depth, s', .inl read⟩

section Record

variable {name : String} {fs : List Field} {f : Field} {o : Object} {ds : List Datum} {i : Nat}
  (h : cx.ReadAs (.named name) (.object o) (.product ds))
  (hook : cx.registry.decoder? (.named name) = none)
  (body : cx.catalogue.body? name = some (.record fs)) (hf : fs[i]? = some f)
  (kept : f.skipped = false) (he : ds[i]? = some e)
include h hook body hf he

/-- Fields are read by position. -/
theorem field_at : ∃ depth s j,
    Yields (decodeField cx (decoder cx depth) s (.named name) o j f) e := by
  obtain ⟨depth, s, read | ⟨_, same, read⟩⟩ := h.layer hook (Tree.object_ne_null o)
  · simp only [decodeLayer, body, decodeDeclared] at read
    obtain ⟨_, same, fields⟩ := yields_record read
    cases same
    obtain ⟨w, hw, read⟩ := yields_field_at hf fields
    cases hw.symm.trans he
    exact ⟨depth, s, _, read⟩
  · cases same
    simp only [decodeObjectLayer, body] at read
    obtain ⟨_, same, fields⟩ := yields_record read
    cases same
    obtain ⟨w, hw, read⟩ := yields_field_at hf fields
    cases hw.symm.trans he
    exact ⟨depth, s, _, read⟩

include kept

theorem field (apart : f.inline = false) (found : Object.find? o f.key = some x) :
    cx.ReadAs f.ty x e := by
  obtain ⟨depth, s, j, read⟩ := h.field_at hook body hf he
  rw [decodeField_apart kept apart] at read
  obtain ⟨-, -, read⟩ := read.of_bind
  rw [found] at read
  exact ⟨depth, _, .inl read⟩

theorem inlined (inline : f.inline = true) : cx.ReadAs f.ty (.object o) e := by
  obtain ⟨depth, s, j, read⟩ := h.field_at hook body hf he
  rw [decodeField_inlined kept inline] at read
  exact ⟨depth, _, .inr ⟨o, rfl, read⟩⟩

end Record

/-- What comes of a part of the tree was read from it. -/
theorem origin (h : cx.ReadAs ty x d) (origin : cx.Origin ty x d u y b) (some : y ≠ .null) :
    cx.ReadAs u y b := by
  induction origin with
  | here => exact h
  | content hook layer below ih =>
    refine ih (h.content hook ?_ layer) some
    rintro rfl
    exact some below.null
  | member hook layer ht hx he _ ih => exact ih (h.member hook layer ht hx he) some
  | value hook hp he _ ih => exact ih (h.value hook hp he) some
  | field hook body hf kept apart found he _ ih =>
    exact ih (h.field hook body hf kept he apart found) some
  | inlined hook body hf kept inline he _ ih =>
    exact ih (h.inlined hook body hf kept he inline) some

end ReadAs

end TreeCodec.Codec
