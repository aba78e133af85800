import TreeCodec.Proofs.Positions
import TreeCodec.Proofs.Refusals

/-!
# Two readings side by side

Readings of the same tree that differ in where they stand, in what was noted before
them, in how deep they may go or in the computations they run in go through the same
steps. What follows from that is proved once, for every relation between computations
that these steps keep (`Simulation`):

* `Simulation.decodeStep`, `Simulation.decodeObjectStep`: if the parts are read alike,
  so is a layer;
* `Simulation.decoder`: so readings of the same depth are related;
* `Simulation.ending`: the errors in which a reading ends are those of its layers.
-/

namespace TreeCodec

theorem Scope.enter_congr {s s' : Scope} (segment : Segment) (h : s = s') :
    s.enter segment = s'.enter segment :=
  congrArg (Scope.enter · segment) h

/-- A relation between computations that the steps of a reading keep. -/
structure Simulation (m m' : Type → Type) [Monad m] [Monad m'] [MonadExceptOf Error m]
    [MonadExceptOf Error m'] [MonadFields m] [MonadFields m'] where
  rel {α : Type} : StateT Audit m α → StateT Audit m' α → Prop
  /-- Where the two readings may stand. -/
  place : Scope → Scope → Prop
  /-- The errors in which both may end. -/
  admits : Error → Prop
  admits_local {e : Error} : e.isLocal = true → admits e
  /-- The fields whose information both may ask for. -/
  knows : Ty → Nat → Field → Prop := fun _ _ _ => True
  rel_pure {α : Type} (v : α) : rel (pure v) (pure v)
  rel_bind {α β : Type} {x : StateT Audit m α} {y : StateT Audit m' α}
    {f : α → StateT Audit m β} {g : α → StateT Audit m' β} :
    rel x y → (∀ v, rel (f v) (g v)) → rel (x >>= f) (y >>= g)
  rel_throw {α : Type} {e : Error} :
    admits e → rel (throw e : StateT Audit m α) (throw e)
  rel_fieldInfo {ty : Ty} {i : Nat} {f : Field} :
    knows ty i f → rel (fieldInfo ty i f) (fieldInfo ty i f)
  place_enter {s s' : Scope} (segment : Segment) :
    place s s' → place (s.enter segment) (s'.enter segment)
  place_inline {s s' : Scope} : place s s' → place s.inline s'.inline
  rel_beginRecord {s s' : Scope} : place s s' → rel (modify s.beginRecord) (modify s'.beginRecord)
  rel_askKey {s s' : Scope} (key : String) :
    place s s' → rel (modify (s.askKey key)) (modify (s'.askKey key))
  rel_endRecord {s s' : Scope} (o : Object) :
    place s s' → rel (modify (s.endRecord o)) (modify (s'.endRecord o))

namespace Simulation

variable {m m' : Type → Type} [Monad m] [Monad m'] [MonadExceptOf Error m]
  [MonadExceptOf Error m'] [MonadFields m] [MonadFields m'] (sim : Simulation m m')

/-- Two decoders that read every tree and every object alike. -/
structure Agree (dec : Decoder m) (dec' : Decoder m') : Prop where
  tree {s s' : Scope} (h : sim.place s s') (ty : Ty) (x : Tree) :
    sim.rel (dec.tree s ty x) (dec'.tree s' ty x)
  object {s s' : Scope} (h : sim.place s s') (ty : Ty) (o : Object) :
    sim.rel (dec.object s ty o) (dec'.object s' ty o)

/-- The hooks of a registry end only in errors that are admitted. -/
def AdmitsHooks (r : Registry) : Prop :=
  ∀ ty hook, r.decoder? ty = some hook → ∀ x e, hook x = .error e → sim.admits e

/-- The fields of a record are those whose information may be asked for. -/
def KnowsRecord (ty : Ty) (fs : List Field) : Prop := ∀ i f, fs[i]? = some f → sim.knows ty i f

/-- The information of all fields that are declared may be asked for. -/
def Knows (c : Catalogue) : Prop :=
  ∀ name fs, c.body? name = some (.record fs) → sim.KnowsRecord (.named name) fs

variable {sim}

theorem refuse {α : Type} {e : Error} (h : e.isLocal = true) :
    sim.rel (throw e : StateT Audit m α) (throw e) :=
  sim.rel_throw (sim.admits_local h)

theorem ofExcept {α : Type} {r : Except Error α} (h : ∀ e, r = .error e → sim.admits e) :
    sim.rel (MonadExcept.ofExcept r : StateT Audit m α) (MonadExcept.ofExcept r) := by
  cases r with
  | ok v => exact sim.rel_pure v
  | error e => exact sim.rel_throw (h e rfl)

theorem ofLocal {α : Type} {r : Except Error α} (h : LocalResult r) :
    sim.rel (MonadExcept.ofExcept r : StateT Audit m α) (MonadExcept.ofExcept r) :=
  ofExcept fun e he => sim.admits_local (h e he)

/-- What is done with the value of related computations is related. -/
theorem map {α β : Type} {x : StateT Audit m α} {y : StateT Audit m' α} (h : sim.rel x y)
    (f : α → β) : sim.rel (x >>= fun v => pure (f v)) (y >>= fun v => pure (f v)) :=
  sim.rel_bind h fun v => sim.rel_pure (f v)

/-! ## The parts of a layer -/

variable {dec : Decoder m} {dec' : Decoder m'} {s s' : Scope}

theorem decodeItems (hd : sim.Agree dec dec') (hs : sim.place s s') (i : Nat) (ts : List Ty)
    (xs : List Tree) : sim.rel (Codec.decodeItems dec s i ts xs) (Codec.decodeItems dec' s' i ts xs) := by
  induction ts generalizing i xs with
  | nil => exact sim.rel_pure []
  | cons t ts ih =>
    cases xs with
    | nil => exact sim.rel_pure []
    | cons x xs =>
      exact sim.rel_bind (hd.tree (sim.place_enter _ hs) t x) fun d => map (ih (i + 1) xs) (d :: ·)

theorem decodePositional (hd : sim.Agree dec dec') (hs : sim.place s s') (ty : Ty) (ts : List Ty)
    (x : Tree) :
    sim.rel (Codec.decodePositional dec s ty ts x) (Codec.decodePositional dec' s' ty ts x) := by
  cases x with
  | array xs =>
    rw [Codec.decodePositional, Codec.decodePositional]
    split
    · exact decodeItems hd hs 0 ts xs
    · exact refuse rfl
  | _ => exact refuse rfl

theorem decodeArray (hd : sim.Agree dec dec') (hs : sim.place s s') (t : Ty) (n : Nat) (x : Tree) :
    sim.rel (Codec.decodeArray dec s t n x) (Codec.decodeArray dec' s' t n x) := by
  cases x with
  | array xs =>
    rw [Codec.decodeArray, Codec.decodeArray]
    split
    · exact refuse rfl
    · split
      · exact refuse rfl
      · split
        · exact refuse rfl
        · exact map (decodeItems hd hs 0 _ xs) Datum.seq
  | _ => exact refuse rfl

theorem decodeList (hd : sim.Agree dec dec') (hs : sim.place s s') (t : Ty) (x : Tree) :
    sim.rel (Codec.decodeList dec s t x) (Codec.decodeList dec' s' t x) := by
  cases x with
  | array xs => exact map (decodeItems hd hs 0 _ xs) Datum.seq
  | _ => exact refuse rfl

theorem decodeEntries (cx : Codec) (hd : sim.Agree dec dec') (hs : sim.place s s') (key value : Ty)
    (o : Object) :
    sim.rel (Codec.decodeEntries cx dec s key value o) (Codec.decodeEntries cx dec' s' key value o) := by
  induction o with
  | nil => exact sim.rel_pure []
  | cons e rest ih =>
    refine sim.rel_bind (ofLocal (cx.catalogue.localResult_keyOf key e.1)) fun kd => ?_
    exact sim.rel_bind (hd.tree (sim.place_enter _ hs) value e.2) fun d => map ih ((kd, d) :: ·)

theorem decodeKey (cx : Codec) (hd : sim.Agree dec dec') (hs : sim.place s s') (f : Field)
    (key : String) (o : Object) :
    sim.rel (Codec.decodeKey cx dec s f key o) (Codec.decodeKey cx dec' s' f key o) := by
  refine sim.rel_bind (sim.rel_askKey key hs) fun _ => ?_
  split
  · exact hd.tree (sim.place_enter _ hs) f.ty _
  · exact ofLocal (cx.catalogue.localResult_zeroField f)

theorem decodeField (cx : Codec) (hd : sim.Agree dec dec') (hs : sim.place s s') {ty : Ty}
    (o : Object) {i : Nat} {f : Field} (hk : sim.knows ty i f) :
    sim.rel (Codec.decodeField cx dec s ty o i f) (Codec.decodeField cx dec' s' ty o i f) := by
  refine sim.rel_bind (sim.rel_fieldInfo hk) fun info => ?_
  split
  · exact ofLocal (cx.catalogue.localResult_zeroField f)
  · split
    · exact hd.object (sim.place_inline hs) f.ty o
    · exact decodeKey cx hd hs f info.name o

theorem decodeFields (cx : Codec) (hd : sim.Agree dec dec') (hs : sim.place s s') {ty : Ty}
    (o : Object) (i : Nat) (fs : List Field)
    (hk : ∀ j f, fs[j]? = some f → sim.knows ty (i + j) f) :
    sim.rel (Codec.decodeFields cx dec s ty o i fs) (Codec.decodeFields cx dec' s' ty o i fs) := by
  induction fs generalizing i with
  | nil => exact sim.rel_pure []
  | cons f fs ih =>
    refine sim.rel_bind (decodeField cx hd hs o (hk 0 f rfl)) fun d => map (ih (i + 1) ?_) (d :: ·)
    exact fun j g hg => Nat.add_right_comm i 1 j ▸ hk (j + 1) g hg

theorem decodeRecord (cx : Codec) (hd : sim.Agree dec dec') (hs : sim.place s s') {ty : Ty}
    {fs : List Field} (hk : sim.KnowsRecord ty fs) (o : Object) :
    sim.rel (Codec.decodeRecord cx dec s ty fs o) (Codec.decodeRecord cx dec' s' ty fs o) := by
  refine sim.rel_bind (sim.rel_beginRecord hs) fun _ => ?_
  have known j f (hf : fs[j]? = some f) : sim.knows ty (0 + j) f := j.zero_add.symm ▸ hk j f hf
  refine sim.rel_bind (decodeFields cx hd hs o 0 fs known) fun ds => ?_
  exact sim.rel_bind (sim.rel_endRecord o hs) fun _ => sim.rel_pure (Datum.product ds)

theorem decodePointer (p : Pointer) (t : Ty) {x : StateT Audit m Datum} {y : StateT Audit m' Datum}
    (h : sim.rel x y) : sim.rel (Codec.decodePointer p t x) (Codec.decodePointer p t y) := by
  cases p with
  | weak => exact refuse rfl
  | borrowed => exact sim.rel_bind h fun _ => refuse rfl
  | _ => exact map h Datum.wrapped

theorem decodeDeclared (cx : Codec) (hd : sim.Agree dec dec') (hs : sim.place s s') (ty : Ty)
    (body : Body) (hk : ∀ fs, body = .record fs → sim.KnowsRecord ty fs) (x : Tree) :
    sim.rel (Codec.decodeDeclared cx dec s ty body x) (Codec.decodeDeclared cx dec' s' ty body x) := by
  cases body with
  | newtype t => exact map (hd.tree hs t x) Datum.wrapped
  | record fs =>
    cases x with
    | object o => exact decodeRecord cx hd hs (hk fs rfl) o
    | _ => exact refuse rfl
  | tuple fs => exact map (decodePositional hd hs ty _ x) Datum.product
  | enumeration vs => exact ofLocal (Codec.localResult_decodeVariant ty vs x)

/-! ## Layers -/

theorem decodeLayer (cx : Codec) (hk : sim.Knows cx.catalogue) (hd : sim.Agree dec dec')
    (hs : sim.place s s') (ty : Ty) (x : Tree) :
    sim.rel (Codec.decodeLayer cx dec s ty x) (Codec.decodeLayer cx dec' s' ty x) := by
  have scalar : sim.rel (MonadExcept.ofExcept (Scalar.decode ty x))
      (MonadExcept.ofExcept (Scalar.decode ty x)) := ofLocal (Scalar.localResult_decode ty x)
  cases ty with
  | option t => exact map (hd.tree hs t x) Datum.present
  | pointer p t => exact decodePointer p t (hd.tree hs t x)
  | nonZero k => exact sim.rel_bind (hd.tree hs _ x) fun d => ofLocal (Codec.localResult_wrapNonZero k d)
  | tuple ts => exact map (decodePositional hd hs _ ts x) Datum.product
  | named name =>
    simp only [Codec.decodeLayer]
    split
    · rename_i body declared
      exact decodeDeclared cx hd hs _ body (fun fs record => hk name fs (record ▸ declared)) x
    · exact refuse rfl
  | list t =>
    simp only [Codec.decodeLayer]
    split
    · exact ofLocal (Codec.localResult_decodeBytes x)
    · exact decodeList hd hs t x
  | array t n => exact decodeArray hd hs t n x
  | map a key value =>
    cases x with
    | object o => exact map (decodeEntries cx hd hs key value o) Datum.map
    | _ => exact refuse rfl
  | tree => exact refuse rfl
  | borrowedText => exact refuse rfl
  | slice t => exact refuse rfl
  | set a t => exact refuse rfl
  | _ => exact scalar

theorem decodeStep (cx : Codec) (hr : sim.AdmitsHooks cx.registry) (hk : sim.Knows cx.catalogue)
    (hd : sim.Agree dec dec') (hs : sim.place s s') (ty : Ty) (x : Tree) :
    sim.rel (Codec.decodeStep cx dec s ty x) (Codec.decodeStep cx dec' s' ty x) := by
  rw [Codec.decodeStep.eq_def, Codec.decodeStep.eq_def]
  split
  · exact ofLocal (cx.catalogue.localResult_zero ty)
  · split
    · rename_i hook hk
      exact ofExcept (hr ty hook hk _)
    · exact decodeLayer cx hk hd hs ty _

/-- Two objects are read alike if they are as contents, as the entries of a map and as records. -/
theorem decodeObjectLayer_of {cx : Codec} {ty : Ty} {o o' : Object}
    (content : ∀ t, cx.catalogue.Wraps ty t → sim.rel (dec.object s t o) (dec'.object s' t o'))
    (entries : ∀ a key value, ty = .map a key value →
      sim.rel (Codec.decodeEntries cx dec s key value o) (Codec.decodeEntries cx dec' s' key value o'))
    (record : ∀ name fs, ty = .named name → cx.catalogue.body? name = some (.record fs) →
      sim.rel (Codec.decodeRecord cx dec s ty fs o) (Codec.decodeRecord cx dec' s' ty fs o')) :
    sim.rel (Codec.decodeObjectLayer cx dec s ty o) (Codec.decodeObjectLayer cx dec' s' ty o') := by
  cases ty with
  | option t => exact map (content t (.content rfl)) Datum.present
  | pointer p t =>
    cases p with
    | weak => exact refuse rfl
    | borrowed => exact decodePointer .borrowed t (content t (.loan t))
    | owned => exact decodePointer .owned t (content t (.content rfl))
    | counted => exact decodePointer .counted t (content t (.content rfl))
    | atomic => exact decodePointer .atomic t (content t (.content rfl))
  | nonZero k =>
    refine sim.rel_bind (content (.int k) (.content rfl)) fun d => ?_
    exact ofLocal (Codec.localResult_wrapNonZero k d)
  | map a key value => exact map (entries a key value rfl) Datum.map
  | named name =>
    simp only [Codec.decodeObjectLayer]
    split
    · rename_i t declared
      exact map (content t (.content (Catalogue.below_newtype declared))) Datum.wrapped
    · rename_i fs declared
      exact record name fs rfl declared
    · exact refuse rfl
  | _ => exact refuse rfl

theorem decodeObjectLayer (cx : Codec) (hk : sim.Knows cx.catalogue) (hd : sim.Agree dec dec')
    (hs : sim.place s s') (ty : Ty) (o : Object) :
    sim.rel (Codec.decodeObjectLayer cx dec s ty o) (Codec.decodeObjectLayer cx dec' s' ty o) := by
  apply decodeObjectLayer_of
  · exact fun t _ => hd.object hs t o
  · exact fun _ key value _ => decodeEntries cx hd hs key value o
  · rintro name fs rfl declared
    exact decodeRecord cx hd hs (hk name fs declared) o

theorem decodeObjectStep (cx : Codec) (hr : sim.AdmitsHooks cx.registry)
    (hk : sim.Knows cx.catalogue) (hd : sim.Agree dec dec') (hs : sim.place s s') (ty : Ty)
    (o : Object) :
    sim.rel (Codec.decodeObjectStep cx dec s ty o) (Codec.decodeObjectStep cx dec' s' ty o) := by
  rw [Codec.decodeObjectStep, Codec.decodeObjectStep]
  split
  · rename_i hook hk
    exact ofExcept (hr ty hook hk _)
  · exact decodeObjectLayer cx hk hd hs ty o

/-! ## Whole readings -/

/-- Readings of the same depth are related. -/
theorem decoder (cx : Codec) (hr : sim.AdmitsHooks cx.registry) (hk : sim.Knows cx.catalogue)
    (hl : sim.admits (.depthExceeded cx.maxDepth)) (depth : Nat) :
    sim.Agree (Codec.decoder cx depth) (Codec.decoder cx depth) := by
  induction depth with
  | zero => exact ⟨fun _ _ _ => sim.rel_throw hl, fun _ _ _ => sim.rel_throw hl⟩
  | succ depth ih =>
    exact ⟨fun hs ty x => decodeStep cx hr hk ih hs ty x,
      fun hs ty o => decodeObjectStep cx hr hk ih hs ty o⟩

/-! ## Errors -/

/-- Readings whose error, if they end in one, satisfies a property that all local errors
have. -/
def ending (P : Error → Prop) (own : ∀ e, e.isLocal = true → P e) :
    Simulation (Except Error) (Except Error) where
  rel x _ := ∀ a e, x.run a = .error e → P e
  place _ _ := True
  admits := P
  admits_local h := own _ h
  rel_pure _ _ _ h := nomatch h
  rel_bind {_ _ x _ f _} hx hf a e h := by
    rw [StateT.run_bind] at h
    rcases hr : x.run a with e' | ⟨v, b⟩ <;> rw [hr] at h
    · cases h
      exact hx a e hr
    · exact hf v b e h
  rel_throw admitted _ _ h := by cases h; exact admitted
  rel_fieldInfo _ _ _ h := nomatch h
  place_enter _ _ := trivial
  place_inline _ := trivial
  rel_beginRecord _ _ _ h := nomatch h
  rel_askKey _ _ _ _ h := nomatch h
  rel_endRecord _ _ _ _ h := nomatch h

end Simulation

end TreeCodec
