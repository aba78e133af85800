import TreeCodec.Proofs.Cursors
import TreeCodec.Proofs.UnknownKeys

/-!
# Walks and readings

A walk with one cursor comes to what a reading comes to that is told where it stands
(`Codec.walker_follows`): with the same datum and the same notes at the same place, or with the
same error. That is one relation between computations, which the steps of a walk keep.

* `Cursor.standing`: the cursor of a place, of notes and of a depth;
* `Tracks`: a walk that leads from place to place and comes to what a reading comes to, and
  of which a lax one leaves path, levels and unknown keys alone at every step;
* `Walker.Follows`: a walker whose walks lead back to where they began, kept by a layer if
  the parts are read so (`Walker.Follows.step`, `Walker.Follows.objectStep`).
-/

namespace TreeCodec

/-! ## Places -/

/-- The same place, for parts that have levels of their own. -/
def Scope.apart (s : Scope) : Scope := { s with inlined := false }

/-- The cursor of a place, of what has been noted and of a depth. -/
def Cursor.standing (s : Scope) (a : Audit) (n : Nat) : Cursor :=
  ⟨s.strict, s.path.render, s.inlined, a.levels, a.unknown.map Path.render, n⟩

/-- A segment is written behind a text. -/
theorem Segment.appendTo_toList (segment : Segment) (text : String) :
    ∃ more, (segment.appendTo text).toList = text.toList ++ more := by
  cases segment with
  | key k =>
    rw [appendTo]
    split
    · rename_i first
      exact ⟨k.toList, by rw [first]; rfl⟩
    · exact ⟨".".toList ++ k.toList, by simp⟩
  | index i => exact ⟨"[".toList ++ ((toString i).toList ++ "]".toList), by simp [appendTo]⟩

namespace Cursor

variable (s : Scope) (a : Audit) (n : Nat)

/-- Every cursor is the cursor of a place, its path in one segment if need be. -/
theorem exists_standing (c : Cursor) : ∃ s a, c = standing s a c.depth := by
  refine ⟨⟨c.strict, [.key c.path], c.inlined⟩, ⟨c.levels, c.unknown.map fun p => [.key p]⟩, ?_⟩
  have whole (p : String) : Path.render [.key p] = p := rfl
  simp only [standing, whole, List.map_map, Function.comp_def, List.map_id']

/-- A part is entered with the flag cleared. -/
theorem standing_push (segment : Segment) :
    (standing s.apart a n).push segment = standing (s.enter segment) a n := by
  rcases s with ⟨_ | _, path, inlined⟩
  · rfl
  · simp [push, standing, Scope.apart, Scope.enter, Path.render_append]

/-- The path is cut back to what it was before the part was entered. -/
theorem standing_truncate (segment : Segment) :
    (standing (s.enter segment) a n).truncate s.path.render.length =
      standing s.apart a n := by
  have longer : ∃ more, (s.enter segment).path.render.toList = s.path.render.toList ++ more := by
    rcases s with ⟨_ | _, path, inlined⟩
    · exact ⟨[], (List.append_nil _).symm⟩
    · rw [Scope.enter, if_pos rfl, Path.render_append]
      exact segment.appendTo_toList _
  obtain ⟨more, longer⟩ := longer
  rw [truncate, standing, standing, longer, ← String.length_toList, List.take_left',
    String.ofList_toList]
  · rfl
  · rfl

theorem standing_beginRecord (apart : s.inlined = false) :
    (standing s a n).openLevel = standing s (s.beginRecord a) n := by
  rcases s with ⟨_ | _, path, inlined⟩ <;> cases apart <;> rfl

theorem standing_askKey (key : String) :
    (standing s a n).consume key = standing s (s.askKey key a) n := by
  rcases s with ⟨_ | _, path, inlined⟩
  · rfl
  · rcases a with ⟨_ | ⟨keys, outer⟩, unknown⟩ <;> rfl

theorem standing_endRecord (o : Object) (apart : s.inlined = false) :
    (standing s a n).closeLevel o = standing s (s.endRecord o a) n := by
  rcases s with ⟨_ | _, path, inlined⟩ <;> cases apart
  · rfl
  · rcases a with ⟨_ | ⟨keys, outer⟩, unknown⟩
    · rfl
    · simp [closeLevel, standing, Scope.endRecord, Scope.opensLevel, Audit.closeLevel,
        Path.render_append]

end Cursor

/-! ## Lax walks -/

/-- A lax cursor like another one, but perhaps for the flag and the depth. -/
structure Cursor.Alike (c c' : Cursor) : Prop where
  lax : c'.strict = false
  path : c'.path = c.path
  levels : c'.levels = c.levels
  unknown : c'.unknown = c.unknown

theorem Cursor.Alike.trans {c c' c'' : Cursor} (h : c.Alike c') (h' : c'.Alike c'') : c.Alike c'' :=
  ⟨h'.lax, h'.path.trans h.path, h'.levels.trans h.levels, h'.unknown.trans h.unknown⟩

/-- From a lax cursor on, there have been only cursors like it. -/
def Walk.Still (start w : Walk) : Prop :=
  start.cursor.strict = false → ∃ since, w.cursors = since ++ start.cursors ∧
    ∀ c ∈ since, start.cursor.Alike c

namespace Walk.Still

variable {w w' w'' : Walk}

theorem refl (w : Walk) : w.Still w := fun _ => ⟨[], rfl, nofun⟩

theorem present (h : w.Still w') (lax : w.cursor.strict = false) : w.cursor.Alike w'.cursor := by
  obtain ⟨since, split, all⟩ := h lax
  cases since with
  | nil =>
    rw [show w'.cursor = w.cursor from (List.cons.inj split).1]
    exact ⟨lax, rfl, rfl, rfl⟩
  | cons c since =>
    rw [show w'.cursor = c from (List.cons.inj split).1]
    exact all c List.mem_cons_self

theorem trans (h : w.Still w') (h' : w'.Still w'') : w.Still w'' := by
  intro lax
  have between := h.present lax
  obtain ⟨since, split, all⟩ := h lax
  obtain ⟨later, split', all'⟩ := h' between.lax
  refine ⟨later ++ since, by rw [split', split, List.append_assoc], fun c hc => ?_⟩
  rcases List.mem_append.mp hc with hc | hc
  · exact between.trans (all' c hc)
  · exact all c hc

theorem step {f : Cursor → Cursor} (h : w.cursor.strict = false → w.cursor.Alike (f w.cursor)) :
    w.Still ⟨f w.cursor, w.cursors⟩ :=
  fun lax => ⟨[f w.cursor], rfl, fun _ hc => List.mem_singleton.mp hc ▸ h lax⟩

end Walk.Still

/-! ## Walks from place to place -/

/-- A walk ends as a reading does, and if that yields a datum, at the cursor for its notes. -/
inductive Walk.Ends {α : Type} (start : Walk) (back : Audit → Cursor) :
    EStateM.Result Error Walk α → Except Error (α × Audit) → Prop
  | ok {v : α} {a : Audit} {w : Walk} (place : w.cursor = back a) (still : start.Still w) :
    Ends start back (.ok v w) (.ok (v, a))
  | error {e : Error} {w : Walk} (still : start.Still w) : Ends start back (.error e w) (.error e)

theorem Walk.Ends.after {α : Type} {start w : Walk} {back : Audit → Cursor}
    {r : EStateM.Result Error Walk α} {q : Except Error (α × Audit)} (h : w.Ends back r q)
    (still : start.Still w) : start.Ends back r q := by
  cases h with
  | ok place still' => exact .ok place (still.trans still')
  | error still' => exact .error (still.trans still')

/-- A walk from one place and depth to another that comes to what a reading comes to. -/
def Tracks {α : Type} (s : Scope) (n : Nat) (x : WalkM α) (s' : Scope) (n' : Nat)
    (y : StateT Audit (Except Error) α) : Prop :=
  ∀ a trail, Walk.Ends ⟨.standing s a n, trail⟩ (.standing s' · n') (x ⟨.standing s a n, trail⟩)
    (y.run a)

section Ends

variable {α : Type} {start w : Walk} {back : Audit → Cursor} {x : WalkM α}
  {q : Except Error (α × Audit)}

theorem Walk.Ends.result_eq (h : start.Ends back (x w) q) : x.result w = Prod.fst <$> q := by
  rw [WalkM.result]
  generalize x w = r at h
  cases h <;> rfl

theorem Walk.Ends.cursor_eq (h : start.Ends back (x w) q) {v : α} {a : Audit} (read : q = .ok (v, a)) :
    (x.final w).cursor = back a := by
  rw [WalkM.final]
  generalize x w = r at h
  cases h with
  | ok place => cases read; exact place
  | error => cases read

theorem Walk.Ends.still (h : start.Ends back (x w) q) : start.Still (x.final w) := by
  rw [WalkM.final]
  generalize x w = r at h
  cases h with
  | ok _ still => exact still
  | error still => exact still

end Ends

namespace Tracks

variable {α β : Type} {s s' s'' : Scope} {n n' n'' : Nat} {x : WalkM α}
  {y : StateT Audit (Except Error) α}

theorem pure (v : α) : Tracks s n (pure v) s n (pure v) := fun _ _ => .ok rfl (.refl _)

theorem throw (e : Error) : Tracks s n (throw e : WalkM α) s' n' (throw e) := fun _ _ =>
  .error (.refl _)

theorem ofExcept (r : Except Error α) :
    Tracks s n (MonadExcept.ofExcept r) s n (MonadExcept.ofExcept r) := by
  cases r with
  | ok v => exact pure v
  | error e => exact throw e

theorem bind {f : α → WalkM β} {g : α → StateT Audit (Except Error) β} (h : Tracks s n x s' n' y)
    (hf : ∀ v, Tracks s' n' (f v) s'' n'' (g v)) : Tracks s n (x >>= f) s'' n'' (y >>= g) := by
  intro a trail
  have first := h a trail
  rw [StateT.run_bind]
  show Walk.Ends _ _ (EStateM.bind x f _) _
  rw [EStateM.bind]
  generalize x _ = r at *
  generalize y.run a = q at *
  cases first with
  | error still => exact .error still
  | @ok v a' w place still =>
    -- What follows begins at the cursor where the first part has ended.
    have second := hf v a' w.trail
    rw [← show w.cursor = _ from place] at second
    exact second.after still

theorem map (h : Tracks s n x s' n' y) (f : α → β) :
    Tracks s n (x >>= fun v => Pure.pure (f v)) s' n' (y >>= fun v => Pure.pure (f v)) :=
  h.bind fun v => pure (f v)

/-- A move of the cursor that notes something. -/
theorem noting {f : Cursor → Cursor} {g : Audit → Audit}
    (place : ∀ a, f (.standing s a n) = .standing s' (g a) n')
    (still : s.strict = false → s'.strict = false ∧ s'.path = s.path ∧ ∀ a, g a = a) :
    Tracks s n (move f) s' n' (modify g) := by
  refine fun a trail => .ok (place a) (.step fun lax => ?_)
  obtain ⟨strict, path, same⟩ := still lax
  rw [place, same]
  exact ⟨strict, congrArg Path.render path, rfl, rfl⟩

/-- What follows a move that notes nothing. -/
theorem moved {f : Cursor → Cursor} (place : ∀ a, f (.standing s a n) = .standing s' a n')
    (still : s.strict = false → s'.strict = false ∧ s'.path = s.path) (h : Tracks s' n' x s'' n'' y) :
    Tracks s n (move f >>= fun _ => x) s'' n'' y :=
  (noting (g := id) place fun lax => ⟨(still lax).1, (still lax).2, fun _ => rfl⟩).bind fun _ => h

theorem flag (inlined : Bool) (h : Tracks ⟨s.strict, s.path, inlined⟩ n x s' n' y) :
    Tracks s n (move (.setInlined inlined) >>= fun _ => x) s' n' y := by
  have place a : Cursor.setInlined inlined (.standing s a n) =
      .standing ⟨s.strict, s.path, inlined⟩ a n := rfl
  exact moved place (fun lax => ⟨lax, rfl⟩) h

/-- What leads on from a reading that is at its end. -/
theorem back {f : α → WalkM α} (h : Tracks s n x s' n' y)
    (hf : ∀ v, Tracks s' n' (f v) s'' n'' (Pure.pure v)) : Tracks s n (x >>= f) s'' n'' y := by
  have rest := h.bind hf
  rwa [bind_pure] at rest

/-- What looks at the cursor finds its place. -/
theorem look {f : Cursor → WalkM α} (h : ∀ a, Tracks s n (f (.standing s a n)) s' n' y) :
    Tracks s n (here >>= f) s' n' y :=
  fun a trail => h a a trail

/-- What is noted of a record unless it is inlined. -/
theorem outside {f : Cursor → Cursor} {g : Audit → Audit}
    (place : s.inlined = false → ∀ a, f (.standing s a n) = .standing s (g a) n)
    (still : s.opensLevel = false → ∀ a, g a = a) :
    Tracks s n (moveUnless s.inlined f) s n (modify g) := by
  rcases inlined : s.inlined with _ | _
  · refine noting (place inlined) fun lax => ⟨lax, rfl, still ?_⟩
    rw [Scope.opensLevel, lax, Bool.false_and]
  · refine fun a trail => .ok (congrArg (Cursor.standing s · n) ?_) (.refl _)
    exact (still (by rw [Scope.opensLevel, inlined, Bool.not_true, Bool.and_false]) a).symm

end Tracks

/-- A walker at a depth whose walks come to what a decoder reads, and back to where they began. -/
structure Walker.Follows (w : Walker) (dec : Decoder (Except Error)) (n : Nat) : Prop where
  tree (s : Scope) (ty : Ty) (x : Tree) : Tracks s n (w.tree ty x) s n (dec.tree s ty x)
  object (s : Scope) (ty : Ty) (o : Object) : Tracks s n (w.object ty o) s n (dec.object s ty o)

theorem Walker.Follows.read {w : Walker} {dec : Decoder (Except Error)} {n : Nat}
    (h : w.Follows dec n) (s : Scope) (ty : Ty) (source : Source) :
    Tracks s n (w.read ty source) s n (dec.read s ty source) := by
  cases source with
  | tree x => exact h.tree s ty x
  | object o => exact h.object s ty o

namespace Walker.Follows

open Codec

variable {w : Walker} {dec : Decoder (Except Error)} {n : Nat} (h : w.Follows dec n) (cx : Codec)
  (s : Scope)

/-! ## Parts -/

/-- A part that is entered and left again. -/
theorem part {α : Type} {β : Type} (segment : Segment) {x : WalkM α} {f : α → WalkM β}
    {y : StateT Audit (Except Error) α} {g : α → StateT Audit (Except Error) β} (s' : Scope)
    (first : Tracks (s.enter segment) n x (s.enter segment) n y)
    (rest : ∀ v, Tracks s.apart n (f v) s' n (g v)) :
    Tracks s.apart n
      (do move (.push segment); let v ← x; move (.truncate s.path.render.length); f v) s' n
      (y >>= g) := by
  have lax (strict : s.strict = false) : (s.enter segment).path = s.path := by
    rw [Scope.enter, strict]
    rfl
  refine Tracks.moved (fun a => Cursor.standing_push s a n segment)
    (fun strict => ⟨strict, lax strict⟩) (first.bind fun v => ?_)
  exact Tracks.moved (fun a => Cursor.standing_truncate s a n segment)
    (fun strict => ⟨strict, (lax strict).symm⟩) (rest v)

/-- Parts that have levels of their own. -/
theorem parts {α : Type} {walk : Nat → WalkM α} {y : StateT Audit (Except Error) α}
    (below : Tracks s.apart n (walk s.path.render.length) s.apart n y) :
    Tracks s n (walkParts walk) s n y :=
  Tracks.look fun _ => .flag false (below.back fun v => .flag s.inlined (.pure v))

include h

theorem items (i : Nat) (ts : List Ty) (xs : List Tree) :
    Tracks s.apart n (walkItems w s.path.render.length i ts xs) s.apart n
      (decodeItems dec s i ts xs) := by
  induction ts generalizing i xs with
  | nil => exact .pure []
  | cons t ts ih =>
    cases xs with
    | nil => exact .pure []
    | cons x xs => exact part s _ _ (h.tree _ t x) fun d => (ih (i + 1) xs).map (d :: ·)

theorem entries (key value : Ty) (o : Object) :
    Tracks s.apart n (walkEntries cx w key value s.path.render.length o) s.apart n
      (decodeEntries cx dec s key value o) := by
  induction o with
  | nil => exact .pure []
  | cons e rest ih =>
    exact (Tracks.ofExcept _).bind fun kd =>
      part s _ _ (h.tree _ value e.2) fun d => ih.map ((kd, d) :: ·)

theorem positional (ty : Ty) (ts : List Ty) (x : Tree) :
    Tracks s n (walkPositional w ty ts x) s n (decodePositional dec s ty ts x) := by
  cases x with
  | array xs =>
    rw [walkPositional, decodePositional]
    split
    · exact parts s (h.items s 0 ts xs)
    · exact .throw _
  | _ => exact .throw _

theorem array (t : Ty) (m : Nat) (x : Tree) :
    Tracks s n (walkArray w t m x) s n (decodeArray dec s t m x) := by
  cases x with
  | array xs =>
    rw [walkArray, decodeArray]
    split
    · exact .throw _
    · split
      · exact .throw _
      · split
        · exact .throw _
        · exact (parts s (h.items s 0 _ xs)).map Datum.seq
  | _ => exact .throw _

theorem list (t : Ty) (x : Tree) : Tracks s n (walkList w t x) s n (decodeList dec s t x) := by
  cases x with
  | array xs => exact (parts s (h.items s 0 _ xs)).map Datum.seq
  | _ => exact .throw _

theorem map (key value : Ty) (o : Object) :
    Tracks s n (walkMap cx w key value o) s n
      (decodeEntries cx dec s key value o >>= fun es => pure (.map es)) :=
  (parts s (h.entries cx s key value o)).map Datum.map

/-! ## Records -/

theorem key (f : Field) (key : String) (o : Object) :
    Tracks s n (walkKey cx w s.inlined s.path.render.length f key o) s n
      (decodeKey cx dec s f key o) := by
  refine (Tracks.noting (fun a => Cursor.standing_askKey s a n key) fun lax => ?_).bind fun _ => ?_
  · exact ⟨lax, rfl, fun a => by rw [Scope.askKey, lax]; rfl⟩
  · cases Object.find? o key with
    | none => exact .ofExcept _
    | some x =>
      show Tracks s n _ s n (dec.tree _ f.ty x)
      rw [← bind_pure (dec.tree _ _ _)]
      exact .flag false (part s _ _ (h.tree _ f.ty x) fun d => .flag s.inlined (.pure d))

theorem field (ty : Ty) (o : Object) (i : Nat) (f : Field) :
    Tracks s n (walkField cx w s.inlined s.path.render.length o f) s n
      (decodeField cx dec s ty o i f) := by
  show Tracks s n _ s n (if (FieldInfo.ofField f).excluded then _ else _)
  rw [walkField]
  split
  · exact .ofExcept _
  · split
    · exact .flag true ((h.object s.inline f.ty o).back fun d => .flag s.inlined (.pure d))
    · exact h.key cx s f _ o

theorem fields (ty : Ty) (o : Object) (i : Nat) (fs : List Field) :
    Tracks s n (walkFields cx w s.inlined s.path.render.length o fs) s n
      (decodeFields cx dec s ty o i fs) := by
  induction fs generalizing i with
  | nil => exact .pure []
  | cons f fs ih => exact (h.field cx s ty o i f).bind fun d => (ih (i + 1)).map (d :: ·)

theorem record (ty : Ty) (fs : List Field) (o : Object) :
    Tracks s n (walkRecord cx w fs o) s n (decodeRecord cx dec s ty fs o) := by
  have begins : Tracks s n (moveUnless s.inlined .openLevel) s n (modify s.beginRecord) :=
    .outside (fun apart a => Cursor.standing_beginRecord s a n apart) fun inside a => by
      rw [Scope.beginRecord, inside, if_neg Bool.false_ne_true]
  have ends : Tracks s n (moveUnless s.inlined (.closeLevel o)) s n (modify (s.endRecord o)) :=
    .outside (fun apart a => Cursor.standing_endRecord s a n o apart) fun inside a => by
      rw [Scope.endRecord, inside, if_neg Bool.false_ne_true]
  exact Tracks.look fun _ => begins.bind fun _ => (h.fields cx s ty o 0 fs).bind fun ds =>
    ends.bind fun _ => .pure (Datum.product ds)

/-! ## Layers -/

omit h in
theorem pointer {p : Pointer} {t : Ty} {x : WalkM Datum} {y : StateT Audit (Except Error) Datum}
    (content : Tracks s n x s n y) : Tracks s n (walkPointer p t x) s n (decodePointer p t y) := by
  cases p with
  | weak => exact .throw _
  | borrowed => exact content.bind fun _ => .throw _
  | _ => exact content.map Datum.wrapped

theorem declared (ty : Ty) (body : Body) (x : Tree) :
    Tracks s n (walkDeclared cx w ty body x) s n (decodeDeclared cx dec s ty body x) := by
  cases body with
  | newtype t => exact (h.tree s t x).map Datum.wrapped
  | record fs =>
    cases x with
    | object o => exact h.record cx s ty fs o
    | _ => exact .throw _
  | tuple fs => exact (h.positional s ty _ x).map Datum.product
  | enumeration vs => exact .ofExcept _

theorem layer (ty : Ty) (x : Tree) :
    Tracks s n (walkLayer cx w ty x) s n (decodeLayer cx dec s ty x) := by
  have scalar : Tracks s n (MonadExcept.ofExcept (Scalar.decode ty x)) s n
      (MonadExcept.ofExcept (Scalar.decode ty x)) := .ofExcept _
  cases ty with
  | option t => exact (h.tree s t x).map Datum.present
  | pointer p t => exact pointer s (h.tree s t x)
  | nonZero k => exact (h.tree s _ x).bind fun d => .ofExcept _
  | tuple ts => exact (h.positional s _ ts x).map Datum.product
  | named name =>
    simp only [walkLayer, decodeLayer]
    cases cx.catalogue.body? name with
    | some body => exact h.declared cx s _ body x
    | none => exact .throw _
  | list t =>
    simp only [walkLayer, decodeLayer]
    split
    · exact .ofExcept _
    · exact h.list s t x
  | array t m => exact h.array s t m x
  | map a key value =>
    cases x with
    | object o => exact h.map cx s key value o
    | _ => exact .throw _
  | tree => exact .throw _
  | borrowedText => exact .throw _
  | slice t => exact .throw _
  | set a t => exact .throw _
  | _ => exact scalar

theorem step (ty : Ty) (x : Tree) :
    Tracks s n (walkStep cx w ty x) s n (decodeStep cx dec s ty x) := by
  cases x with
  | null => exact .ofExcept _
  | _ =>
    simp only [walkStep, decodeStep]
    cases cx.registry.decoder? ty with
    | some hook => exact .ofExcept _
    | none => exact h.layer cx s ty _

theorem objectLayer (ty : Ty) (o : Object) :
    Tracks s n (walkObjectLayer cx w ty o) s n (decodeObjectLayer cx dec s ty o) := by
  cases ty with
  | option t => exact (h.object s t o).map Datum.present
  | pointer p t => exact pointer s (h.object s t o)
  | nonZero k => exact (h.object s _ o).bind fun d => .ofExcept _
  | map a key value => exact h.map cx s key value o
  | named name =>
    simp only [walkObjectLayer, decodeObjectLayer]
    rcases cx.catalogue.body? name with _ | ⟨fs⟩ | ⟨fs⟩ | ⟨t⟩ | ⟨vs⟩
    · exact .throw _
    · exact h.record cx s _ fs o
    · exact .throw _
    · exact (h.object s t o).map Datum.wrapped
    · exact .throw _
  | _ => exact .throw _

theorem objectStep (ty : Ty) (o : Object) :
    Tracks s n (walkObjectStep cx w ty o) s n (decodeObjectStep cx dec s ty o) := by
  rw [walkObjectStep, decodeObjectStep]
  cases cx.registry.decoder? ty with
  | some hook => exact .ofExcept _
  | none => exact h.objectLayer cx s ty o

end Walker.Follows

/-! ## Whole readings -/

namespace Codec

variable (cx : Codec) {s : Scope} {n : Nat} {x : WalkM Datum} {y : StateT Audit (Except Error) Datum}

/-- A last move is made whatever became of what is before it. -/
theorem tryFinally_move (f : Cursor → Cursor) (w : Walk) :
    (tryFinally x (move f) : WalkM Datum) w =
      match x w with
      | .ok d w' => .ok d ⟨f w'.cursor, w'.cursors⟩
      | .error e w' => .error e ⟨f w'.cursor, w'.cursors⟩ := by
  simp only [tryFinally, Functor.map, EStateM.map, tryFinally']
  cases x w <;> rfl

/-- One layer down and up again. -/
theorem tracks_nested (room : n < cx.maxDepth) (below : Tracks s (n + 1) x s (n + 1) y) :
    Tracks s n (walkNested cx x) s n y := by
  refine Tracks.look fun a => ?_
  rw [show (Cursor.standing s a n).depth = n from rfl, if_neg (Nat.not_le.mpr room)]
  refine Tracks.moved (fun a => show _ = Cursor.standing s a (n + 1) from rfl)
    (fun lax => ⟨lax, rfl⟩) fun a trail => ?_
  -- A failed content is come up from as well, so that both of its ends are looked at.
  have inner := below a trail
  rw [tryFinally_move]
  generalize x _ = r at *
  generalize y.run a = q at *
  have up (w : Walk) : w.Still ⟨w.cursor.ascend, w.cursors⟩ := .step fun lax => ⟨lax, rfl, rfl, rfl⟩
  cases inner with
  | error still => exact .error (still.trans (up _))
  | ok place still => exact .ok (by rw [place]; rfl) (still.trans (up _))

theorem walkNested_throw (limit : cx.maxDepth ≤ n) :
    Tracks s n (walkNested cx x) s n (throw (.depthExceeded cx.maxDepth)) := by
  refine Tracks.look fun a => ?_
  rw [show (Cursor.standing s a n).depth = n from rfl, if_pos limit]
  exact .throw _

/-- A walk goes as deep as it has room, and no deeper than the limit. -/
theorem walker_follows (room n : Nat) :
    (walker cx room).Follows (decoder cx (min room (cx.maxDepth - n))) n := by
  induction room generalizing n with
  | zero =>
    rw [Nat.zero_min]
    exact ⟨fun _ _ _ => .throw _, fun _ _ _ => .throw _⟩
  | succ room ih =>
    -- One layer down there is one room less, and one depth less to the limit.
    by_cases deep : n < cx.maxDepth
    · have below := ih (n + 1)
      rw [show min (room + 1) (cx.maxDepth - n) = min room (cx.maxDepth - (n + 1)) + 1 by omega,
        decoder_succ]
      exact ⟨fun s ty x => cx.tracks_nested deep (below.step cx s ty x),
        fun s ty o => cx.tracks_nested deep (below.objectStep cx s ty o)⟩
    · have limit := Nat.not_lt.mp deep
      rw [Nat.sub_eq_zero_of_le limit, Nat.min_zero]
      exact ⟨fun _ _ _ => cx.walkNested_throw limit, fun _ _ _ => cx.walkNested_throw limit⟩

end Codec

end TreeCodec
