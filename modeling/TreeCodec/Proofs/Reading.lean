import Mathlib.Data.List.Forall2
import TreeCodec.Proofs.Keys
import TreeCodec.Proofs.StrictMode

/-!
# Readings that succeed

`Gives x v` says that a reading succeeds with a value, whatever was noted before. The
rules follow the functions of a decoder, so that a reading is followed part by part.
`Yields x v` says that it does so after some notes; its rules take a reading apart.
-/

namespace TreeCodec

namespace Tree

theorem string_ne_null (s : String) : string s ≠ null := fun h => by cases h

theorem array_ne_null (xs : List Tree) : array xs ≠ null := fun h => by cases h

theorem object_ne_null (o : Object) : object o ≠ null := fun h => by cases h

end Tree

/-- A noting computation that succeeds with a value, whatever was noted before. -/
def Gives {α : Type} (x : StateT Audit (Except Error) α) (v : α) : Prop :=
  ∀ a, ∃ a', x.run a = .ok (v, a')

namespace Gives

variable {α β : Type}

theorem pure (v : α) : Gives (pure v) v := fun a => ⟨a, rfl⟩

theorem bind {x : StateT Audit (Except Error) α} {f : α → StateT Audit (Except Error) β} {v : α}
    {w : β} (hx : Gives x v) (hf : Gives (f v) w) : Gives (x >>= f) w := by
  intro a
  obtain ⟨a', ha⟩ := hx a
  obtain ⟨a'', ha'⟩ := hf a'
  refine ⟨a'', ?_⟩
  rw [StateT.run_bind, ha]
  exact ha'

theorem map {x : StateT Audit (Except Error) α} {v : α} (hx : Gives x v) (f : α → β) :
    Gives (x >>= fun v => Pure.pure (f v)) (f v) :=
  hx.bind (pure (f v))

theorem ofExcept {r : Except Error α} {v : α} (h : r = .ok v) :
    Gives (MonadExcept.ofExcept r : StateT Audit (Except Error) α) v := by
  subst h
  exact pure v

theorem modify (f : Audit → Audit) : Gives (modify f : StateT Audit (Except Error) PUnit) ⟨⟩ :=
  fun a => ⟨f a, rfl⟩

end Gives

/-- A noting computation that succeeds with a value after some notes. -/
def Yields {α : Type} (x : StateT Audit (Except Error) α) (v : α) : Prop :=
  ∃ a a', x.run a = .ok (v, a')

namespace Yields

variable {α β : Type}

theorem of_pure {v w : α} (h : Yields (pure v) w) : v = w := by
  obtain ⟨a, a', h⟩ := h
  cases h
  rfl

theorem not_throw {e : Error} {v : α} : ¬ Yields (throw e) v := by
  rintro ⟨a, a', h⟩
  cases h

theorem of_ofExcept {r : Except Error α} {v : α}
    (h : Yields (MonadExcept.ofExcept r : StateT Audit (Except Error) α) v) : r = .ok v := by
  cases r with
  | error e => exact absurd h not_throw
  | ok w => rw [of_pure h]

theorem of_bind {x : StateT Audit (Except Error) α} {f : α → StateT Audit (Except Error) β} {w : β}
    (h : Yields (x >>= f) w) : ∃ v, Yields x v ∧ Yields (f v) w := by
  obtain ⟨a, b, h⟩ := h
  rw [StateT.run_bind] at h
  rcases hx : x.run a with e | ⟨v, a'⟩ <;> rw [hx] at h
  · cases h
  · exact ⟨v, ⟨a, a', hx⟩, ⟨a', b, h⟩⟩

theorem of_map {x : StateT Audit (Except Error) α} {f : α → β} {w : β}
    (h : Yields (x >>= fun v => pure (f v)) w) : ∃ v, w = f v ∧ Yields x v := by
  obtain ⟨v, hx, h⟩ := h.of_bind
  exact ⟨v, (of_pure h).symm, hx⟩

end Yields

/-- Computations with the same value succeed alike. -/
theorem Yields.gives_of_sameValue {α : Type} {x y : StateT Audit (Except Error) α} {v : α}
    (h : Yields x v) (same : SameValue x y) : Gives y v := by
  intro b
  obtain ⟨a, a', ha⟩ := h
  have value := same a b
  rw [StateT.run'_eq, StateT.run'_eq, ha] at value
  rcases hb : y.run b with e | ⟨w, b'⟩ <;> rw [hb] at value <;> cases value
  exact ⟨b', rfl⟩

theorem Gives.of_sameValue {α : Type} {x y : StateT Audit (Except Error) α} {v : α}
    (h : Gives x v) (same : SameValue x y) : Gives y v :=
  Yields.gives_of_sameValue ⟨.empty, h .empty⟩ same

/-- A computation that gives a value yields no other one. -/
theorem Gives.eq_of_yields {α : Type} {x : StateT Audit (Except Error) α} {v w : α} (h : Gives x v)
    (h' : Yields x w) : v = w := by
  obtain ⟨a, a', hw⟩ := h'
  obtain ⟨b, hv⟩ := h a
  cases hv.symm.trans hw
  rfl

namespace Codec

variable {cx : Codec} {ty : Ty} {x : Tree} {o : Object} {d : Datum} {s : Scope} {depth : Nat}

/-! ## Layers -/

theorem gives_null (h : cx.catalogue.zero ty = .ok d) :
    Gives ((decoder cx (depth + 1)).tree s ty .null) d :=
  .ofExcept h

theorem gives_hook {hook : Tree → Except Error Datum} (hx : x ≠ .null)
    (hook? : cx.registry.decoder? ty = some hook) (h : hook x = .ok d) :
    Gives ((decoder cx (depth + 1)).tree s ty x) d := by
  show Gives (decodeStep cx _ s ty x) d
  rw [decodeStep.eq_def]
  split
  · contradiction
  · rw [hook?]
    exact .ofExcept h

theorem gives_layer (hx : x ≠ .null) (hook : cx.registry.decoder? ty = none)
    (h : Gives (decodeLayer cx (decoder cx depth) s ty x) d) :
    Gives ((decoder cx (depth + 1)).tree s ty x) d := by
  show Gives (decodeStep cx _ s ty x) d
  rw [decodeStep.eq_def]
  split
  · contradiction
  · rw [hook]
    exact h

theorem gives_objectLayer (hook : cx.registry.decoder? ty = none)
    (h : Gives (decodeObjectLayer cx (decoder cx depth) s ty o) d) :
    Gives ((decoder cx (depth + 1)).object s ty o) d := by
  show Gives (decodeObjectStep cx _ s ty o) d
  rw [decodeObjectStep, hook]
  exact h

/-- Pointers that hold their content are read as the content. -/
theorem gives_pointer {p : Pointer} {t : Ty} {content : StateT Audit (Except Error) Datum}
    (holds : p.holds = true) (h : Gives content d) :
    Gives (decodePointer p t content) (.wrapped d) := by
  cases p with
  | weak => cases holds
  | borrowed => cases holds
  | _ => exact h.map Datum.wrapped

theorem yields_null (h : Yields ((decoder cx (depth + 1)).tree s ty .null) d) :
    cx.catalogue.zero ty = .ok d :=
  h.of_ofExcept

theorem yields_hook {hook : Tree → Except Error Datum} (hx : x ≠ .null)
    (hook? : cx.registry.decoder? ty = some hook) (h : Yields ((decoder cx (depth + 1)).tree s ty x) d) :
    hook x = .ok d := by
  change Yields (decodeStep cx _ s ty x) d at h
  rw [decodeStep.eq_def] at h
  split at h
  · contradiction
  · rw [hook?] at h
    exact h.of_ofExcept

theorem yields_layer (hx : x ≠ .null) (hook : cx.registry.decoder? ty = none)
    (h : Yields ((decoder cx (depth + 1)).tree s ty x) d) :
    Yields (decodeLayer cx (decoder cx depth) s ty x) d := by
  change Yields (decodeStep cx _ s ty x) d at h
  rw [decodeStep.eq_def] at h
  split at h
  · contradiction
  · rwa [hook] at h

theorem yields_objectLayer (hook : cx.registry.decoder? ty = none)
    (h : Yields ((decoder cx (depth + 1)).object s ty o) d) :
    Yields (decodeObjectLayer cx (decoder cx depth) s ty o) d := by
  change Yields (decodeObjectStep cx _ s ty o) d at h
  rwa [decodeObjectStep, hook] at h

theorem yields_pointer {p : Pointer} {t : Ty} {content : StateT Audit (Except Error) Datum}
    (h : Yields (decodePointer p t content) d) : ∃ e, d = .wrapped e ∧ Yields content e := by
  cases p with
  | weak => exact absurd h Yields.not_throw
  | borrowed =>
    obtain ⟨e, -, h⟩ := h.of_bind
    exact absurd h Yields.not_throw
  | _ => exact h.of_map

variable {dec : Decoder (Except Error)} {i : Nat}

theorem length_of_decodeItems {ts : List Ty} {xs : List Tree} {ds : List Datum}
    (length : xs.length = ts.length) (h : Yields (decodeItems dec s i ts xs) ds) :
    ds.length = ts.length := by
  induction ts generalizing xs i ds with
  | nil =>
    obtain rfl := Yields.of_pure h
    rfl
  | cons t ts ih =>
    cases xs with
    | nil => cases length
    | cons x xs =>
      obtain ⟨d, -, h⟩ := h.of_bind
      obtain ⟨ds, rfl, rest⟩ := h.of_map
      exact congrArg Nat.succ (ih (Nat.succ.inj length) rest)

/-- An entry of a map that is read from an entry of an object. -/
def ReadsEntry (cx : Codec) (dec : Decoder (Except Error)) (s : Scope) (key value : Ty)
    (p : String × Tree) (e : Datum × Datum) : Prop :=
  cx.catalogue.keyOf key p.1 = .ok e.1 ∧ Yields (dec.tree (s.enter (.key p.1)) value p.2) e.2

/-- A map has an entry for every one of its object. -/
theorem yields_entries {key value : Ty} {es : List (Datum × Datum)}
    (h : Yields (decodeEntries cx dec s key value o) es) :
    List.Forall₂ (cx.ReadsEntry dec s key value) o es := by
  induction o generalizing es with
  | nil =>
    obtain rfl := Yields.of_pure h
    exact .nil
  | cons p o ih =>
    obtain ⟨k, hk, h⟩ := h.of_bind
    obtain ⟨d, first, h⟩ := h.of_bind
    obtain ⟨es, rfl, rest⟩ := h.of_map
    exact .cons ⟨hk.of_ofExcept, first⟩ (ih rest)

/-! ## Records -/

variable {f : Field}

theorem decodeField_skipped (skipped : f.skipped = true) :
    decodeField cx dec s ty o i f = MonadExcept.ofExcept (cx.catalogue.zeroField f) := by
  show (if (FieldInfo.ofField f).excluded then _ else _) = _
  simp only [FieldInfo.ofField, skipped, if_true]

theorem decodeField_inlined (kept : f.skipped = false) (inline : f.inline = true) :
    decodeField cx dec s ty o i f = dec.object s.inline f.ty o := by
  show (if (FieldInfo.ofField f).excluded then _ else _) = _
  simp only [FieldInfo.ofField, kept, inline, if_true, Bool.false_eq_true, if_false]

theorem decodeField_apart (kept : f.skipped = false) (apart : f.inline = false) :
    decodeField cx dec s ty o i f = decodeKey cx dec s f f.key o := by
  show (if (FieldInfo.ofField f).excluded then _ else _) = _
  simp only [FieldInfo.ofField, kept, apart, Bool.or_false, Bool.false_eq_true, if_false]

theorem gives_key (found : Object.find? o f.key = some x)
    (h : Gives (dec.tree (s.enter (.key f.key)) f.ty x) d) :
    Gives (decodeKey cx dec s f f.key o) d := by
  refine (Gives.modify _).bind ?_
  rw [found]
  exact h

/-- A field that the object has nothing for is its zero. -/
theorem gives_missing (missing : Object.find? o f.key = none)
    (h : cx.catalogue.zeroField f = .ok d) : Gives (decodeKey cx dec s f f.key o) d := by
  refine (Gives.modify _).bind ?_
  rw [missing]
  exact .ofExcept h

/-- Fields are read alike in every record, from every position on, and whether or not the
record is inlined. -/
theorem decodeFields_anywhere {s s' : Scope} (h : s.inline = s'.inline) (ty ty' : Ty) (i i' : Nat)
    (fs : List Field) : decodeFields cx dec s ty o i fs = decodeFields cx dec s' ty' o i' fs := by
  have field (j j' : Nat) (f : Field) :
      decodeField cx dec s ty o j f = decodeField cx dec s' ty' o j' f := by
    cases s
    cases s'
    cases h
    rfl
  induction fs generalizing i i' with
  | nil => rfl
  | cons f fs ih => rw [decodeFields, decodeFields, field i i', ih (i + 1) (i' + 1)]

theorem decodeFields_append (ty : Ty) (i : Nat) (fs gs : List Field) :
    decodeFields cx dec s ty o i (fs ++ gs) = do
      let ds ← decodeFields cx dec s ty o i fs
      let es ← decodeFields cx dec s ty o i gs
      return ds ++ es := by
  induction fs generalizing i with
  | nil => simp only [List.nil_append, decodeFields, pure_bind, bind_pure]
  | cons f fs ih =>
    rw [List.cons_append, decodeFields, ih, decodeFields, decodeFields_anywhere rfl ty ty (i + 1) i gs]
    simp only [bind_assoc, pure_bind, List.cons_append]

theorem gives_record {fs : List Field} {ds : List Datum}
    (h : Gives (decodeFields cx dec s ty o 0 fs) ds) :
    Gives (decodeRecord cx dec s ty fs o) (.product ds) :=
  (Gives.modify _).bind (h.bind ((Gives.modify _).bind (.pure _)))

theorem yields_record {fs : List Field} (h : Yields (decodeRecord cx dec s ty fs o) d) :
    ∃ ds, d = .product ds ∧ Yields (decodeFields cx dec s ty o 0 fs) ds := by
  obtain ⟨-, -, h⟩ := h.of_bind
  obtain ⟨ds, fields, h⟩ := h.of_bind
  obtain ⟨-, -, h⟩ := h.of_bind
  exact ⟨ds, h.of_pure.symm, fields⟩

/-! ## Building -/

section Build

variable {ty' : Ty} {x y : StateT Audit (Except Error) Datum}

/-- Readings that end alike build the same datum. -/
theorem build_congr (h : x.run .empty = y.run .empty) : cx.build ty x = cx.build ty y := by
  rw [build, build, h]

/-- A reading that fails builds nothing. -/
theorem build_error {e : Error} (h : x.run .empty = .error e) : cx.build ty x = .error e := by
  rw [build, h]
  rfl

/-- What is read of one type is handed out as another one, if the other one's invariant says of
it what the type's own does. -/
theorem build_map (cx : Codec) {f : Datum → Datum}
    (alike : ∀ d a, x.run .empty = .ok (d, a) →
      cx.catalogue.invariant ty' (f d) = cx.catalogue.invariant ty d) :
    cx.build ty' (f <$> x) = f <$> cx.build ty x := by
  rw [build, build, StateT.run_map]
  rcases hx : x.run .empty with e | ⟨d, a⟩
  · rfl
  · have accepts : cx.accept ty' (f d) a = (cx.accept ty d a).map f := by
      rw [accept, accept, alike d a hx]
      split
      · split <;> rfl
      · rfl
    show MonadExcept.ofExcept (cx.accept ty' (f d) a) =
      f <$> (MonadExcept.ofExcept (cx.accept ty d a) : Except Error Datum)
    rw [accepts]
    rcases cx.accept ty d a with e | d <;> rfl

end Build

end Codec

end TreeCodec
