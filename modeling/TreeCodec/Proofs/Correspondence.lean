import TreeCodec.Proofs.Simulation

/-!
# Two conversions side by side

Conversions of the same thing that differ in how deep they may go, or in the computations
they run in, go through the same steps. What follows from that is proved once, for every
relation between computations that the steps keep (`Correspondence`):

* `Correspondence.reading`: readings are related as a `Simulation`;
* `Correspondence.encodeStep`: if the parts are written alike, so is a layer;
* `Correspondence.toTree`, `Correspondence.toObject`, `Correspondence.fromTree`,
  `Correspondence.fromObject`: so whole conversions are related.

The errors of a conversion other than those of its hooks and of its limit are no failures at
a limit (`Exceeds`), and related computations may end in them.
-/

namespace TreeCodec

/-! ## Failures at a limit -/

/-- A result that is a failure at a limit. -/
def Exceeds {α : Type} (r : Except Error α) : Prop := ∃ limit, r = .error (.depthExceeded limit)

section Exceeds

variable {α : Type}

theorem not_exceeds_ok (v : α) : ¬ Exceeds (.ok v : Except Error α) := nofun

theorem not_exceeds_error {e : Error} (h : e.kind ≠ .depthExceeded) :
    ¬ Exceeds (.error e : Except Error α) := by
  rintro ⟨limit, ⟨⟩⟩
  exact h rfl

theorem LocalResult.not_exceeds {r : Except Error α} (h : LocalResult r) : ¬ Exceeds r := by
  rintro ⟨limit, rfl⟩
  cases h _ rfl

theorem kind_ne_of_not_exceeds {r : Except Error α} (h : ¬ Exceeds r) {e : Error}
    (he : r = .error e) : e.kind ≠ .depthExceeded := by
  intro kind
  cases e <;> cases kind
  exact h ⟨_, he⟩

end Exceeds

namespace Codec

theorem not_exceeds_place (info : FieldInfo) (o : Object) (t : Tree) :
    ¬ Exceeds (place info o t) := by
  rw [place]
  split
  · cases t <;> first | exact not_exceeds_ok _ | exact not_exceeds_error (by rintro ⟨⟩)
  · split <;> exact not_exceeds_ok _

theorem not_exceeds_encodeBytes (ty : Ty) (items : List Datum) :
    ¬ Exceeds (encodeBytes ty items) := by
  rw [encodeBytes]
  split
  · exact not_exceeds_ok _
  · exact not_exceeds_error (by rintro ⟨⟩)

theorem not_exceeds_encodeVariant (ty : Ty) (vs : List Variant) (d : Datum) :
    ¬ Exceeds (encodeVariant ty vs d) := by
  rw [encodeVariant.eq_def]
  split
  · split
    · split
      · exact not_exceeds_ok _
      · exact not_exceeds_error (by rintro ⟨⟩)
    · exact not_exceeds_error (by rintro ⟨⟩)
  · exact not_exceeds_error (by rintro ⟨⟩)

theorem not_exceeds_scalar (ty : Ty) (d : Datum) : ¬ Exceeds (Scalar.encode ty d) := by
  rw [Scalar.encode.eq_def]
  split
  case h_3 =>
    rw [Scalar.encodeInt]
    split
    · exact not_exceeds_ok _
    · split <;> exact not_exceeds_error (by rintro ⟨⟩)
  all_goals first | exact not_exceeds_ok _ | exact not_exceeds_error (by rintro ⟨⟩)

theorem not_exceeds_accept (cx : Codec) (ty : Ty) (d : Datum) (a : Audit) :
    ¬ Exceeds (cx.accept ty d a) := by
  rw [accept]
  split
  · split
    · exact not_exceeds_ok d
    · exact not_exceeds_error (by rintro ⟨⟩)
  · exact not_exceeds_error (by rintro ⟨⟩)

theorem not_exceeds_objectOf (ty : Ty) (t : Tree) : ¬ Exceeds (objectOf ty t) := by
  cases t <;> first | exact not_exceeds_ok _ | exact not_exceeds_error (by rintro ⟨⟩)

end Codec

/-! ## Correspondences -/

/-- A relation between computations that the steps of a conversion keep. -/
structure Correspondence (m m' : Type → Type) [Monad m] [Monad m'] [MonadExceptOf Error m]
    [MonadExceptOf Error m'] [MonadFields m] [MonadFields m'] where
  rel {α : Type} : m α → m' α → Prop
  /-- The errors in which both may end. -/
  admits : Error → Prop
  admits_of_kind {e : Error} : e.kind ≠ .depthExceeded → admits e
  /-- The fields whose information both may ask for. -/
  knows : Ty → Nat → Field → Prop
  rel_pure {α : Type} (v : α) : rel (pure v) (pure v)
  rel_bind {α β : Type} {x : m α} {y : m' α} {f : α → m β} {g : α → m' β} :
    rel x y → (∀ v, rel (f v) (g v)) → rel (x >>= f) (y >>= g)
  rel_throw {α : Type} {e : Error} : admits e → rel (throw e : m α) (throw e)
  rel_fieldInfo {ty : Ty} {i : Nat} {f : Field} :
    knows ty i f → rel (fieldInfo ty i f) (fieldInfo ty i f)

namespace Correspondence

variable {m m' : Type → Type} [Monad m] [Monad m'] [MonadExceptOf Error m]
  [MonadExceptOf Error m'] [MonadFields m] [MonadFields m'] (rc : Correspondence m m')

/-- The hooks of a registry end only in errors that are admitted. -/
structure AdmitsHooks (r : Registry) : Prop where
  encoder {ty : Ty} {hook : Datum → Except Error Tree} (h : r.encoder? ty = some hook) {d : Datum}
    {e : Error} (he : hook d = .error e) : rc.admits e
  decoder {ty : Ty} {hook : Tree → Except Error Datum} (h : r.decoder? ty = some hook) {x : Tree}
    {e : Error} (he : hook x = .error e) : rc.admits e

/-- Related readings: they note alike, and stand at the same place. -/
def reading : Simulation m m' where
  rel x y := ∀ a, rc.rel (x.run a) (y.run a)
  place s s' := s = s'
  admits := rc.admits
  admits_local {e} h := rc.admits_of_kind (by cases e <;> simp_all [Error.isLocal, Error.kind])
  knows := rc.knows
  rel_pure v a := rc.rel_pure (v, a)
  rel_bind h hf a := rc.rel_bind (h a) fun r => hf r.1 r.2
  rel_throw h a := rc.rel_bind (rc.rel_throw h) fun v => rc.rel_pure (v, a)
  rel_fieldInfo h a := rc.rel_bind (rc.rel_fieldInfo h) fun info => rc.rel_pure (info, a)
  place_enter segment h := Scope.enter_congr segment h
  place_inline h := congrArg Scope.inline h
  rel_beginRecord {s _} h a := h ▸ rc.rel_pure (PUnit.unit, s.beginRecord a)
  rel_askKey {s _} key h a := h ▸ rc.rel_pure (PUnit.unit, s.askKey key a)
  rel_endRecord {s _} o h a := h ▸ rc.rel_pure (PUnit.unit, s.endRecord o a)

variable {rc}

theorem refuse {α : Type} {e : Error} (h : e.kind ≠ .depthExceeded) :
    rc.rel (throw e : m α) (throw e) :=
  rc.rel_throw (rc.admits_of_kind h)

theorem ofExcept {α : Type} {r : Except Error α} (h : ∀ e, r = .error e → rc.admits e) :
    rc.rel (MonadExcept.ofExcept r : m α) (MonadExcept.ofExcept r) := by
  cases r with
  | ok v => exact rc.rel_pure v
  | error e => exact rc.rel_throw (h e rfl)

theorem ofUnlimited {α : Type} {r : Except Error α} (h : ¬ Exceeds r) :
    rc.rel (MonadExcept.ofExcept r : m α) (MonadExcept.ofExcept r) :=
  ofExcept fun _ he => rc.admits_of_kind (kind_ne_of_not_exceeds h he)

/-- What is done with the value of related computations is related. -/
theorem map {α β : Type} {x : m α} {y : m' α} (h : rc.rel x y) (f : α → β) :
    rc.rel (x >>= fun v => pure (f v)) (y >>= fun v => pure (f v)) :=
  rc.rel_bind h fun v => rc.rel_pure (f v)

/-! ## Writing -/

section Writing

variable {cx : Codec} {encode : Ty → Datum → m Tree} {encode' : Ty → Datum → m' Tree}
  (he : ∀ ty d, rc.rel (encode ty d) (encode' ty d))
include he

theorem encodeItems (t : Ty) (ds : List Datum) :
    rc.rel (Codec.encodeItems (encode t) ds) (Codec.encodeItems (encode' t) ds) := by
  induction ds with
  | nil => exact rc.rel_pure []
  | cons d ds ih => exact rc.rel_bind (he t d) fun x => map ih (x :: ·)

theorem encodeMembers (ty : Ty) (ts : List Ty) (ds : List Datum) :
    rc.rel (Codec.encodeMembers encode ty ts ds) (Codec.encodeMembers encode' ty ts ds) := by
  induction ts generalizing ds with
  | nil =>
    cases ds with
    | nil => exact rc.rel_pure []
    | cons d ds => exact refuse (by rintro ⟨⟩)
  | cons t ts ih =>
    cases ds with
    | nil => exact refuse (by rintro ⟨⟩)
    | cons d ds => exact rc.rel_bind (he t d) fun x => map (ih ds) (x :: ·)

theorem encodeEntries (key t : Ty) (o : Object) (es : List (Datum × Datum)) :
    rc.rel (Codec.encodeEntries cx (encode t) key o es)
      (Codec.encodeEntries cx (encode' t) key o es) := by
  induction es generalizing o with
  | nil => exact rc.rel_pure o
  | cons e es ih =>
    rw [Codec.encodeEntries, Codec.encodeEntries]
    split
    · exact refuse (by rintro ⟨⟩)
    · exact rc.rel_bind (he t e.2) fun x => ih _

theorem encodeField {ty : Ty} {i : Nat} {f : Field} (hk : rc.knows ty i f) (d : Datum)
    (o : Object) :
    rc.rel (Codec.encodeField cx encode ty i f d o) (Codec.encodeField cx encode' ty i f d o) := by
  refine rc.rel_bind (rc.rel_fieldInfo hk) fun info => ?_
  split
  · exact rc.rel_pure o
  · exact rc.rel_bind (he f.ty d) fun t => ofUnlimited (Codec.not_exceeds_place info o t)

theorem encodeFields {ty : Ty} (i : Nat) (fs : List Field) (ds : List Datum) (o : Object)
    (hk : ∀ j f, fs[j]? = some f → rc.knows ty (i + j) f) :
    rc.rel (Codec.encodeFields cx encode ty i fs ds o)
      (Codec.encodeFields cx encode' ty i fs ds o) := by
  induction fs generalizing i ds o with
  | nil =>
    cases ds with
    | nil => exact rc.rel_pure o
    | cons d ds => exact refuse (by rintro ⟨⟩)
  | cons f fs ih =>
    cases ds with
    | nil => exact refuse (by rintro ⟨⟩)
    | cons d ds =>
      refine rc.rel_bind (encodeField he (hk 0 f rfl) d o) fun o => ih (i + 1) ds o ?_
      exact fun j g hg => Nat.add_right_comm i 1 j ▸ hk (j + 1) g hg

theorem encodeDeclared (ty : Ty) (body : Body)
    (hk : ∀ fs, body = .record fs → rc.reading.KnowsRecord ty fs) (d : Datum) :
    rc.rel (Codec.encodeDeclared cx encode ty body d)
      (Codec.encodeDeclared cx encode' ty body d) := by
  unfold Codec.encodeDeclared
  split
  · exact he _ _
  · rename_i fs ds
    have known j f (hf : fs[j]? = some f) : rc.knows ty (0 + j) f := j.zero_add.symm ▸ hk fs rfl j f hf
    exact map (encodeFields he 0 fs ds [] known) Tree.object
  · exact map (encodeMembers he ty _ _) Tree.array
  · exact ofUnlimited (Codec.not_exceeds_encodeVariant ty _ _)
  · exact refuse (by rintro ⟨⟩)

variable (hk : rc.reading.Knows cx.catalogue)
include hk

theorem encodeLayer (ty : Ty) (d : Datum) :
    rc.rel (Codec.encodeLayer cx encode ty d) (Codec.encodeLayer cx encode' ty d) := by
  unfold Codec.encodeLayer
  split
  · exact rc.rel_pure Tree.null
  · exact he _ _
  · exact rc.rel_pure Tree.null
  · exact he _ _
  · exact he _ _
  · exact map (encodeMembers he _ _ _) Tree.array
  · split
    · rename_i body declared
      exact encodeDeclared he _ body (fun fs record => hk _ fs (record ▸ declared)) _
    · exact refuse (by rintro ⟨⟩)
  · split
    · exact ofUnlimited (Codec.not_exceeds_encodeBytes _ _)
    · exact map (encodeItems he _ _) Tree.array
  · exact map (encodeItems he _ _) Tree.array
  · exact map (encodeEntries he _ _ [] _) Tree.object
  iterate 4 exact refuse (by rintro ⟨⟩)
  exact ofUnlimited (Codec.not_exceeds_scalar _ _)

/-- A layer is written alike if its parts are. -/
theorem encodeStep (hooks : rc.AdmitsHooks cx.registry) (ty : Ty) (d : Datum) :
    rc.rel (Codec.encodeStep cx encode ty d) (Codec.encodeStep cx encode' ty d) := by
  unfold Codec.encodeStep
  split
  · rename_i hook hook?
    exact ofExcept fun e failed => hooks.encoder hook? failed
  · exact encodeLayer he hk ty d

end Writing

/-! ## Results -/

theorem objectOf {x : m Tree} {y : m' Tree} (h : rc.rel x y) (ty : Ty) :
    rc.rel (x >>= fun t => MonadExcept.ofExcept (Codec.objectOf ty t))
      (y >>= fun t => MonadExcept.ofExcept (Codec.objectOf ty t)) :=
  rc.rel_bind h fun t => ofUnlimited (Codec.not_exceeds_objectOf ty t)

/-- What is made of related readings is related, whatever the limits of the codecs are. -/
theorem build (cx : Codec) {x : StateT Audit m Datum} {y : StateT Audit m' Datum}
    (h : rc.reading.rel x y) (ty : Ty) : rc.rel (cx.build ty x) (cx.build ty y) :=
  rc.rel_bind (h .empty) fun r => ofUnlimited (cx.not_exceeds_accept ty r.1 r.2)

/-! ## Whole conversions -/

/-- Conversions by the codec end only in errors that are admitted, and ask only for what may
be asked for. -/
structure Admits (rc : Correspondence m m') (cx : Codec) : Prop where
  hooks : rc.AdmitsHooks cx.registry
  fields : rc.reading.Knows cx.catalogue
  limit : rc.admits (.depthExceeded cx.maxDepth)

section Whole

variable {cx : Codec} (h : rc.Admits cx)
include h

theorem encode (depth : Nat) (ty : Ty) (d : Datum) :
    rc.rel (Codec.encode cx depth ty d) (Codec.encode cx depth ty d) := by
  induction depth generalizing ty d with
  | zero => exact rc.rel_throw h.limit
  | succ depth ih => exact encodeStep ih h.fields h.hooks ty d

theorem decoder (depth : Nat) :
    rc.reading.Agree (Codec.decoder cx depth) (Codec.decoder cx depth) :=
  Simulation.decoder cx (fun _ _ hook? _ _ failed => h.hooks.decoder hook? failed) h.fields h.limit
    depth

theorem toTree (ty : Ty) (d : Datum) : rc.rel (cx.toTree ty d) (cx.toTree ty d) :=
  encode h cx.maxDepth ty d

theorem toObject (ty : Ty) (d : Datum) : rc.rel (cx.toObject ty d) (cx.toObject ty d) :=
  objectOf (toTree h ty d) ty

theorem fromTree (strict : Bool) (ty : Ty) (x : Tree) :
    rc.rel (cx.fromTree strict ty x) (cx.fromTree strict ty x) :=
  build cx ((decoder h cx.maxDepth).tree rfl ty x) ty

theorem fromObject (strict : Bool) (ty : Ty) (o : Object) :
    rc.rel (cx.fromObject strict ty o) (cx.fromObject strict ty o) := by
  rw [Codec.fromObject, Codec.fromObject]
  split
  · exact build cx ((decoder h cx.maxDepth).object rfl ty o) ty
  · exact refuse (by rintro ⟨⟩)

end Whole

end Correspondence

end TreeCodec
