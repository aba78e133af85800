import TreeCodec.Codec.Decoding
import TreeCodec.Proofs.Keys

/-!
# What a computation notes

`Notes x K U` says what a computation that succeeds has noted: the keys of `K` as consumed
at the level that is open, and the paths of `U` as unknown. The rules follow the functions
of a decoder, so that what a reading notes is put together from what its parts note.
-/

namespace TreeCodec

/-- With keys consumed at the innermost level and unknown keys found. -/
def Audit.note (a : Audit) (ks : List String) (qs : List Path) : Audit where
  levels :=
    match a.levels with
    | [] => []
    | keys :: outer => (ks ++ keys) :: outer
  unknown := a.unknown ++ qs

theorem Audit.note_note (a : Audit) (ks ks' : List String) (qs qs' : List Path) :
    (a.note ks qs).note ks' qs' = a.note (ks' ++ ks) (qs ++ qs') := by
  rcases a with ⟨_ | ⟨keys, outer⟩, unknown⟩ <;> simp [note]

theorem Audit.note_nil (a : Audit) : a.note [] [] = a := by
  rcases a with ⟨_ | ⟨keys, outer⟩, unknown⟩ <;> simp [note]

/-- A computation that, if it succeeds, notes just the keys of `K` as consumed and just
the paths of `U` as unknown. -/
def Notes {α : Type} (x : StateT Audit (Except Error) α) (K : String → Prop)
    (U : Path → Prop) : Prop :=
  ∀ a v a', x.run a = .ok (v, a') →
    ∃ ks qs, (∀ k, k ∈ ks ↔ K k) ∧ (∀ q, q ∈ qs ↔ U q) ∧ a' = a.note ks qs

/-- No key. -/
def noKey (_ : String) : Prop := False

/-- No path. -/
def noPath (_ : Path) : Prop := False

namespace Notes

variable {α β : Type} {K K' : String → Prop} {U U' : Path → Prop}

theorem congr {x : StateT Audit (Except Error) α} (h : Notes x K U) (hK : ∀ k, K k ↔ K' k)
    (hU : ∀ q, U q ↔ U' q) : Notes x K' U' := by
  rwa [← funext fun k => propext (hK k), ← funext fun q => propext (hU q)]

theorem pure (v : α) : Notes (pure v) noKey noPath := by
  intro a _ _ h
  cases h
  exact ⟨[], [], by simp [noKey], by simp [noPath], a.note_nil.symm⟩

theorem throw (e : Error) : Notes (throw e : StateT Audit (Except Error) α) K U := nofun

theorem ofExcept (r : Except Error α) :
    Notes (MonadExcept.ofExcept r : StateT Audit (Except Error) α) noKey noPath := by
  cases r with
  | ok v => exact pure v
  | error e => exact throw e

theorem bind {x : StateT Audit (Except Error) α} {f : α → StateT Audit (Except Error) β}
    (hx : Notes x K U) (hf : ∀ v, Notes (f v) K' U') :
    Notes (x >>= f) (fun k => K k ∨ K' k) (fun q => U q ∨ U' q) := by
  intro a w a'' h
  rw [StateT.run_bind] at h
  rcases hr : x.run a with e | ⟨v, a'⟩ <;> rw [hr] at h
  · cases h
  · obtain ⟨ks, qs, hk, hq, rfl⟩ := hx a v a' hr
    obtain ⟨ks', qs', hk', hq', rfl⟩ := hf v _ w a'' h
    refine ⟨ks' ++ ks, qs ++ qs', fun k => ?_, fun q => ?_, Audit.note_note ..⟩
    · rw [List.mem_append, hk, hk', or_comm]
    · rw [List.mem_append, hq, hq']

/-- What follows and notes nothing leaves the notes as they are. -/
theorem follow {x : StateT Audit (Except Error) α} {f : α → StateT Audit (Except Error) β}
    (h : Notes x K U) (hf : ∀ v, Notes (f v) noKey noPath) : Notes (x >>= f) K U :=
  (h.bind hf).congr (fun _ => or_iff_left id) fun _ => or_iff_left id

theorem map {x : StateT Audit (Except Error) α} (h : Notes x K U) (f : α → β) :
    Notes (x >>= fun v => Pure.pure (f v)) K U :=
  h.follow fun v => pure (f v)

/-- What notes nothing notes the paths of a place that has none. -/
theorem quiet {x : StateT Audit (Except Error) α} (h : Notes x noKey noPath)
    (hU : ∀ q, ¬ U q) : Notes x noKey U :=
  h.congr (fun _ => Iff.rfl) fun q => ⟨False.elim, hU q⟩

/-- Only pointers that hold their content read it to an end. -/
theorem decodePointer {p : Pointer} {t : Ty} {x : StateT Audit (Except Error) Datum}
    (h : p.holds = true → Notes x K U) :
    Notes (Codec.decodePointer p t x) K U := by
  cases p with
  | weak => exact Notes.throw _
  | borrowed =>
    intro a v a' hr
    rw [Codec.decodePointer, StateT.run_bind] at hr
    rcases hx : x.run a with e | ⟨d, b⟩ <;> rw [hx] at hr <;> cases hr
  | _ => exact (h rfl).map Datum.wrapped

/-- A strict reading that asks for a key notes the key. -/
theorem askKey (p : Path) (inlined : Bool) (key : String) :
    Notes (modify (Scope.askKey ⟨true, p, inlined⟩ key)) (· = key) noPath := by
  intro a v a' h
  cases h
  refine ⟨[key], [], fun k => List.mem_singleton, by simp [noPath], ?_⟩
  rcases a with ⟨_ | ⟨keys, outer⟩, unknown⟩ <;> simp [Scope.askKey, Audit.consume, Audit.note]

/-- A step that leaves the notes as they are. -/
theorem modify {f : Audit → Audit} (h : ∀ a, f a = a) :
    Notes (modify f : StateT Audit (Except Error) PUnit) noKey noPath := by
  intro a _ a' hr
  cases hr
  refine ⟨[], [], by simp [noKey], by simp [noPath], ?_⟩
  rw [h, Audit.note_nil]

/-- An object is read as a content, as the entries of a map or as a record. -/
theorem decodeObjectLayer {cx : Codec} {dec : Decoder (Except Error)} {s : Scope} {ty : Ty} {o : Object}
    (content : ∀ t, cx.catalogue.below ty = .content t → Notes (dec.object s t o) K U)
    (entries : ∀ a key value, ty = .map a key value →
      Notes (Codec.decodeEntries cx dec s key value o) K U)
    (record : ∀ fs, cx.catalogue.below ty = .record fs →
      Notes (Codec.decodeRecord cx dec s ty fs o) K U) :
    Notes (Codec.decodeObjectLayer cx dec s ty o) K U := by
  cases ty with
  | option t => exact (content t rfl).map Datum.present
  | pointer p t =>
    exact Notes.decodePointer fun holds => content t (cx.catalogue.below_pointer holds t)
  | nonZero k => exact (content (.int k) rfl).follow fun d => Notes.ofExcept _
  | map a key value => exact (entries a key value rfl).map Datum.map
  | named name =>
    simp only [Codec.decodeObjectLayer]
    split
    · rename_i t body
      exact (content t (Catalogue.below_newtype body)).map Datum.wrapped
    · rename_i fs body
      exact record fs (Catalogue.below_record body)
    · exact Notes.throw _
  | _ => exact Notes.throw _

end Notes

end TreeCodec
