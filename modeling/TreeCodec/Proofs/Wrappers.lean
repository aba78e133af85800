import TreeCodec.Proofs.DepthLimit
import TreeCodec.Proofs.HookedTypes
import TreeCodec.Proofs.UnknownKeys

/-!
# Wrappers

Pointers that hold their content, options and newtypes, any number of them around a type
and in any order (`Codec.Encloses`), do not show in a tree (`wrappers_do_not_show`): the
datum within is written as it is by itself, and a tree other than null is read as it is
without the wrappers. Each layer costs a level of depth, so that this is said of all limits
from some limit on. What does show is an invariant of the type, which is looked at only where
the type is what was asked for (`wrapped_range_is_free`).

* `Codec.Encloses.encode`: writing leaves the layers behind, several at once or one by one;
* `Codec.Encloses.readsThrough`: reading goes through them one by one and notes nothing;
* `Codec.reading_settles`: from some limit on, a level more or less does not matter;
* `Codec.Encloses.build_accepted`, `Codec.Encloses.build_refused`: what is handed out of a
  datum that was read, in its wrappers and without.
-/

namespace TreeCodec

/-- No hook writes or reads a type. -/
structure Codec.Hookless (cx : Codec) (ty : Ty) : Prop where
  encoder : cx.registry.encoder? ty = none
  decoder : cx.registry.decoder? ty = none

/-- A type wraps another one any number of times, with how it wraps a datum. The layers have
no hooks. Newtypes among them are built of any datum. -/
inductive Codec.Encloses (cx : Codec) (t : Ty) : Ty → (Datum → Datum) → Prop
  | core : Encloses cx t t id
  | pointer {u : Ty} {wrap : Datum → Datum} (p : Pointer) (holds : p.holds = true)
    (hookless : cx.Hookless (.pointer p u)) (h : Encloses cx t u wrap) :
    Encloses cx t (.pointer p u) fun d => .wrapped (wrap d)
  | option {u : Ty} {wrap : Datum → Datum} (hookless : cx.Hookless (.option u))
    (h : Encloses cx t u wrap) : Encloses cx t (.option u) fun d => .present (wrap d)
  | newtype {u : Ty} {wrap : Datum → Datum} {name : String}
    (body : cx.catalogue.body? name = some (.newtype u))
    (infallible : ∀ d, cx.catalogue.invariant (.named name) d = true)
    (hookless : cx.Hookless (.named name)) (h : Encloses cx t u wrap) :
    Encloses cx t (.named name) fun d => .wrapped (wrap d)

namespace Codec

/-! ## Writing -/

section Writing

variable {cx : Codec} {t u : Ty} {wrap : Datum → Datum}

/-- Nothing is peeled off a type that is neither an option nor a wrapper. -/
theorem PeelsFreely.of_not_peeled (bare : cx.catalogue.isPeeled t = false) : cx.PeelsFreely t := by
  intro u below peeled
  cases below with
  | here => exact absurd peeled (by simp [bare])
  | inner inner => cases t <;> simp_all [Catalogue.isPeeled]
  | option => cases bare

/-- A datum is written as what is below its own wrappers. -/
theorem encode_peel_of_height_le (free : cx.PeelsFreely t) {d : Datum} {depth : Nat}
    (deep : d.height ≤ depth) :
    (encode cx depth (cx.catalogue.peel t d).1 (cx.catalogue.peel t d).2 : Except Error Tree) =
      encode cx depth t d := by
  obtain ⟨k, above⟩ := encode_peel free depth d
  rw [← above]
  exact encode_of_height_le cx t d (by omega) deep

/-- Peeling leaves all layers behind. -/
theorem Encloses.peel (chain : cx.Encloses t u wrap) (d : Datum) :
    cx.catalogue.peel u (wrap d) = cx.catalogue.peel t d := by
  induction chain with
  | core => rfl
  | @pointer u _ p holds _ _ ih =>
    have inner : cx.catalogue.inner? (.pointer p u) = some u := by cases p <;> trivial
    simpa only [Catalogue.peel, inner] using ih
  | option _ _ ih => simpa only [Catalogue.peel] using ih
  | newtype body _ _ _ ih => simpa only [Catalogue.peel, Catalogue.inner?_newtype body] using ih

/-- What is within wrappers is no higher than they are. -/
theorem Encloses.height_le (chain : cx.Encloses t u wrap) (d : Datum) :
    d.height ≤ (wrap d).height := by
  induction chain with
  | core => exact Nat.le_refl _
  | _ => rw [Datum.height]; omega

/-- A datum is written in its wrappers as it is without them. -/
theorem Encloses.encode (chain : cx.Encloses t u wrap) (free : cx.PeelsFreely t) {d : Datum}
    {depth : Nat} (deep : (wrap d).height ≤ depth) :
    (Codec.encode cx depth u (wrap d) : Except Error Tree) = Codec.encode cx depth t d := by
  induction chain generalizing depth with
  | core => rfl
  | pointer p holds hookless chain ih =>
    have height := chain.height_le d
    rw [Datum.height] at deep
    obtain ⟨below, rfl⟩ : ∃ n, depth = n + 1 := ⟨depth - 1, by omega⟩
    rw [encode_unhooked hookless.encoder, encode_succ_of_height_le cx t (by omega), ← ih (by omega)]
    cases p <;> rfl
  | option hookless chain ih =>
    have height := chain.height_le d
    rw [Datum.height] at deep
    obtain ⟨below, rfl⟩ : ∃ n, depth = n + 1 := ⟨depth - 1, by omega⟩
    rw [encode_unhooked hookless.encoder, encode_succ_of_height_le cx t (by omega), ← ih (by omega)]
    rfl
  | newtype body _ hookless chain _ =>
    -- all layers below are left behind at once, whatever they are
    have height := chain.height_le d
    rw [Datum.height] at deep
    obtain ⟨below, rfl⟩ : ∃ n, depth = n + 1 := ⟨depth - 1, by omega⟩
    rw [encode_newtype_peel hookless.encoder body, chain.peel,
      encode_succ_of_height_le cx t (by omega), encode_peel_of_height_le free (by omega)]

/-- A limit changes no wrappers. -/
theorem Encloses.withDepth (chain : cx.Encloses t u wrap) (limit : Nat) :
    (cx.withDepth limit).Encloses t u wrap := by
  induction chain with
  | core => exact .core
  | pointer p holds hookless _ ih => exact .pointer p holds ⟨hookless.encoder, hookless.decoder⟩ ih
  | option hookless _ ih => exact .option ⟨hookless.encoder, hookless.decoder⟩ ih
  | newtype body infallible hookless _ ih =>
    exact .newtype body infallible ⟨hookless.encoder, hookless.decoder⟩ ih

end Writing

/-! ## Reading -/

section Reading

variable {cx : Codec} {t u ty : Ty} {wrap : Datum → Datum}

/-- A tree other than null is read by a type's description where no hook reads it. -/
theorem decodeStep_hookless {x : Tree} (hook : cx.registry.decoder? ty = none) (hx : x ≠ .null)
    (dec : Decoder (Except Error)) (s : Scope) :
    decodeStep cx dec s ty x = decodeLayer cx dec s ty x := by
  rw [decodeStep.eq_def]
  split
  · contradiction
  · rw [hook]

/-- A type is read as another one is some layers further down, and wraps what is read. -/
def ReadsThrough (cx : Codec) (t u : Ty) (wrap : Datum → Datum) : Prop :=
  ∃ layers, ∀ limit depth scope x, x ≠ .null →
    ((decoder (cx.withDepth limit) (depth + layers)).tree scope u x :
      StateT Audit (Except Error) Datum) =
      wrap <$> (decoder (cx.withDepth limit) depth).tree scope t x

/-- One layer more is one level more. -/
theorem ReadsThrough.layer (inner : cx.ReadsThrough t u wrap) {f : Datum → Datum}
    (step : ∀ dec s x, x ≠ .null →
      (decodeStep cx dec s ty x : StateT Audit (Except Error) Datum) = f <$> dec.tree s u x) :
    cx.ReadsThrough t ty fun d => f (wrap d) := by
  obtain ⟨layers, inner⟩ := inner
  refine ⟨layers + 1, fun limit depth scope x hx => ?_⟩
  rw [← Functor.map_map, ← inner limit depth scope x hx, ← step _ scope x hx, ← Nat.add_assoc,
    decoder_succ, decodeStep_withDepth]

/-- A tree other than null is read through all wrappers. -/
theorem Encloses.readsThrough (chain : cx.Encloses t u wrap) : cx.ReadsThrough t u wrap := by
  induction chain with
  | core => exact ⟨0, fun _ _ _ _ _ => (id_map _).symm⟩
  | pointer p holds hookless _ ih =>
    refine ih.layer fun dec s x hx => ?_
    rw [decodeStep_hookless hookless.decoder hx]
    cases p <;> first | exact bind_pure_comp _ _ | cases holds
  | option hookless _ ih =>
    refine ih.layer fun dec s x hx => ?_
    rw [decodeStep_hookless hookless.decoder hx]
    exact bind_pure_comp _ _
  | newtype body _ hookless _ ih =>
    refine ih.layer fun dec s x hx => ?_
    rw [decodeStep_hookless hookless.decoder hx]
    simp only [decodeLayer, body]
    exact bind_pure_comp _ _

/-- Limits cut a reading always, or else up to some depth, from which on it stays the same. -/
theorem reading_settles (cx : Codec) (t : Ty) (x : Tree) (scope : Scope) (a : Audit) :
    ∃ least, ∀ limit depth, least ≤ depth → depth ≤ limit →
      ((decoder (m := Except Error) (cx.withDepth limit) depth).tree scope t x).run a =
        ((decoder (cx.withDepth limit) limit).tree scope t x).run a := by
  by_cases h : ∃ limit depth, ((decoder (m := Except Error) (cx.withDepth limit) depth).tree scope
      t x).run a ≠ .error (.depthExceeded limit)
  · obtain ⟨limit₀, least, uncut⟩ := h
    have settled limit depth (deep : least ≤ depth) := ((cx.cut_decoder limit₀ limit deep).tree
      (rfl : scope = scope) t x a).resolve_right uncut
    exact ⟨least, fun limit depth deep within =>
      (settled limit depth deep).symm.trans (settled limit limit (Nat.le_trans deep within))⟩
  · have cut limit depth := not_not.mp fun uncut => h ⟨limit, depth, uncut⟩
    exact ⟨0, fun limit depth _ _ => (cut limit depth).trans (cut limit limit).symm⟩

/-- From some limit on, a tree other than null is read as another type is and wrapped. -/
theorem Encloses.fromTree_eq (chain : cx.Encloses t u wrap) {x : Tree} (hx : x ≠ .null) :
    ∃ least, ∀ limit, least ≤ limit → ∀ strict,
      ((cx.withDepth limit).fromTree strict u x : Except Error Datum) =
        (cx.withDepth limit).build u
          (wrap <$> (decoder (cx.withDepth limit) limit).tree (.root strict) t x) := by
  obtain ⟨layers, through⟩ := chain.readsThrough
  have settles strict := cx.reading_settles t x (.root strict) .empty
  choose least settles using settles
  refine ⟨max (least true) (least false) + layers, fun limit deep strict => ?_⟩
  have enough : least strict ≤ limit - layers := by cases strict <;> omega
  have read := settles strict limit (limit - layers) enough (Nat.sub_le _ _)
  have whole := through limit (limit - layers) (.root strict) x hx
  rw [Nat.sub_add_cancel (by omega)] at whole
  show (cx.withDepth limit).build u
    ((decoder (cx.withDepth limit) limit).tree (.root strict) u x) = _
  rw [whole, Codec.build, Codec.build, StateT.run_map, StateT.run_map, read]

/-- Wrappers tell data apart. -/
theorem Encloses.injective (chain : cx.Encloses t u wrap) : Function.Injective wrap := by
  induction chain with
  | core => exact Function.injective_id
  | pointer _ _ _ _ ih => exact fun d e same => ih (Datum.wrapped.inj same)
  | option _ _ ih => exact fun d e same => ih (Datum.present.inj same)
  | newtype _ _ _ _ ih => exact fun d e same => ih (Datum.wrapped.inj same)

/-- Wrappers demand nothing of what they wrap. -/
theorem Encloses.invariant (chain : cx.Encloses t u wrap) :
    u = t ∧ wrap = id ∨ ∀ d, cx.catalogue.invariant u (wrap d) = true := by
  cases chain with
  | core => exact .inl ⟨rfl, rfl⟩
  | newtype _ infallible => exact .inr fun d => infallible _
  | _ => exact .inr fun d => rfl

section Build

variable {lax read : StateT Audit (Except Error) Datum} (same : SameValue lax read)
  (quiet : Notes lax noKey noPath)
include same quiet

/-- What is read of a type is handed out in its wrappers as it is without them, where the type
accepts what is within the wrappers that a lax reading hands out. -/
theorem Encloses.build_accepted (chain : cx.Encloses t u wrap)
    (accepted : ∀ d, cx.build u (wrap <$> lax) = .ok (wrap d) →
      cx.catalogue.invariant t d = true) :
    cx.build u (wrap <$> read) = wrap <$> cx.build t read := by
  refine build_map cx fun d a hr => ?_
  rcases chain.invariant with ⟨rfl, rfl⟩ | free
  · rfl
  · have given : Gives lax d := Yields.gives_of_sameValue ⟨_, _, hr⟩ same.symm
    rw [free d, accepted d (build_of_gives (U := noPath) ?_ ?_ (fun _ => id) (free d))]
    · simpa only [bind_pure_comp] using given.map wrap
    · simpa only [bind_pure_comp] using quiet.map wrap

/-- What a type refuses is not handed out without wrappers. -/
theorem Encloses.build_refused (chain : cx.Encloses t u wrap) {d : Datum}
    (h : cx.build u (wrap <$> lax) = .ok (wrap d)) (refused : cx.catalogue.invariant t d = false) :
    cx.build t read = .error (.unbuilt .invariant) := by
  rw [← bind_pure_comp] at h
  obtain ⟨_, wrapped, yields⟩ := (of_build_ok (quiet.map wrap) h).1.of_map
  cases chain.injective wrapped
  obtain ⟨a, hr⟩ := yields.gives_of_sameValue same .empty
  rw [build_of_ok hr, accept, if_neg (by simp [refused])]

end Build

end Reading

end Codec

/-- Wrappers do not show. From some limit on, a datum is written in its wrappers as it is
without them, and a tree other than null is read as it is without them, the datum being
wrapped: failures and reports are the same. Only an invariant of the type itself shows, where
it refuses the datum that is read. It is not looked at within wrappers, so that the datum is
handed out there, or the keys are reported that are unknown to the type. -/
theorem wrappers_do_not_show {cx : Codec} {t u : Ty} {wrap : Datum → Datum}
    (chain : cx.Encloses t u wrap) (free : cx.PeelsFreely t) :
    (∀ d, ∃ least, ∀ limit, least ≤ limit →
      ((cx.withDepth limit).toTree u (wrap d) : Except Error Tree) =
        (cx.withDepth limit).toTree t d) ∧
    ∀ x : Tree, x ≠ .null → ∃ least, ∀ limit, least ≤ limit →
      let bare (strict : Bool) : Except Error Datum := (cx.withDepth limit).fromTree strict t x
      let wrapped (strict : Bool) : Except Error Datum := (cx.withDepth limit).fromTree strict u x
      ((∀ d, wrapped false = .ok (wrap d) → cx.catalogue.invariant t d = true) →
        ∀ strict, wrapped strict = wrap <$> bare strict) ∧
      ∀ d, wrapped false = .ok (wrap d) → cx.catalogue.invariant t d = false →
        (∀ strict, bare strict = .error (.unbuilt .invariant)) ∧
          ReportsJust ((cx.withDepth limit).Unknown t x []) (wrap d) (wrapped true) := by
  refine ⟨fun d => ⟨(wrap d).height, fun limit deep => (chain.withDepth limit).encode free deep⟩,
    fun x hx => ?_⟩
  obtain ⟨least, through⟩ := chain.fromTree_eq hx
  refine ⟨least, fun limit deep => ?_⟩
  intro bare wrapped
  have chain := chain.withDepth limit
  let read strict : StateT Audit (Except Error) Datum :=
    (Codec.decoder (cx.withDepth limit) limit).tree (.root strict) t x
  have whole strict : wrapped strict = (cx.withDepth limit).build u (wrap <$> read strict) :=
    through limit deep strict
  have same strict : SameValue (read false) (read strict) :=
    ((cx.withDepth limit).sameValue_decoder limit).tree trivial t x
  have place : Simulation.quiet.place (.root false) (.root false) := rfl
  have quiet : Notes (read false) noKey noPath :=
    ((cx.withDepth limit).quiet_decoder limit).tree place t x
  have notes : Notes (read true) noKey ((cx.withDepth limit).Unknown t x []) :=
    ((cx.withDepth limit).notesUnknown_decoder limit).tree [] t x
  refine ⟨fun accepted strict => ?_, fun d given refused => ⟨fun strict => ?_, ?_⟩⟩
  · rw [whole] at accepted ⊢
    exact chain.build_accepted (same strict) quiet accepted
  · exact chain.build_refused (same strict) quiet (whole false ▸ given) refused
  · rw [whole] at given ⊢
    refine Codec.build_reportsJust ((same true).map wrap) ?_ given
    simpa only [bind_pure_comp] using notes.map wrap

/-- Ranges, whose ends are in order. -/
def Catalogue.ranges : Catalogue where
  decls := [("range", {
    body := .record [{ key := "lo", ty := .int .int64 }, { key := "hi", ty := .int .int64 }]
    invariant := fun
      | .product [.int lo, .int hi] => decide (lo ≤ hi)
      | _ => false })]

/-- Optional readings of temperatures, with a hook for the numbers in them; and a pointer to a
range whose ends are not in order, read strictly from an object that has a key more. -/
theorem wrappers_do_not_show_reading :
    (let hook : Hook := { decode? := some fun _ => .error (.custom "no number") }
    let cx : Codec := ⟨.weather, Registry.initial.register (.int .int64) hook, 8⟩
    let reading := Ty.option (.pointer .owned (.named "reading"))
    let wrap (d : Datum) := Datum.present (.wrapped (.wrapped (.wrapped d)))
    cx.Encloses (.int .int64) reading wrap ∧ cx.PeelsFreely (.int .int64) ∧
    ∀ x : Tree, x ≠ .null → ∃ least, ∀ limit, least ≤ limit → ∀ strict,
      ((cx.withDepth limit).fromTree strict reading x : Except Error Datum) =
        wrap <$> (cx.withDepth limit).fromTree strict (.int .int64) x) ∧
    let cx : Codec := ⟨.ranges, .initial, 8⟩
    let range := Ty.named "range"
    let x := Tree.object [("hi", .int 1), ("lo", .int 2), ("middle", .null)]
    ∃ limit, (cx.withDepth limit).fromTree true range x =
        (.error (.unbuilt .invariant) : Except Error Datum) ∧
      ReportsJust ((cx.withDepth limit).Unknown range x []) (.wrapped (.product [.int 2, .int 1]))
        ((cx.withDepth limit).fromTree true (.pointer .owned range) x) := by
  constructor
  · intro hook cx reading wrap
    have celsius : cx.Encloses (.int .int64) (.named "celsius") .wrapped :=
      .newtype rfl (fun _ => rfl) ⟨rfl, rfl⟩ .core
    have chain : cx.Encloses (.int .int64) reading wrap :=
      .option ⟨rfl, rfl⟩ (.pointer .owned rfl ⟨rfl, rfl⟩
        (.newtype rfl (fun _ => rfl) ⟨rfl, rfl⟩ celsius))
    have free : cx.PeelsFreely (.int .int64) := .of_not_peeled rfl
    refine ⟨chain, free, fun x hx => ?_⟩
    obtain ⟨least, same⟩ := (wrappers_do_not_show chain free).2 x hx
    exact ⟨least, fun limit deep => (same limit deep).1 fun d _ => rfl⟩
  · intro cx range x
    have chain : cx.Encloses range (.pointer .owned range) .wrapped :=
      .pointer .owned rfl ⟨rfl, rfl⟩ .core
    have free : cx.PeelsFreely range := .of_not_peeled rfl
    obtain ⟨least, same⟩ := (wrappers_do_not_show chain free).2 x (Tree.object_ne_null _)
    obtain ⟨refused, reported⟩ :=
      (same (least + 3) (Nat.le_add_right ..)).2 (.product [.int 2, .int 1]) rfl rfl
    exact ⟨least + 3, refused true, reported⟩

/-- A range whose ends are not in order is refused, but not in a pointer to it, however deep the
codec goes. -/
theorem wrapped_range_is_free :
    let cx : Codec := ⟨.ranges, .initial, 8⟩
    let range := Ty.named "range"
    let x := Tree.object [("hi", .int 1), ("lo", .int 2)]
    cx.Encloses range (.pointer .owned range) .wrapped ∧ cx.PeelsFreely range ∧ x ≠ .null ∧
    ∀ limit, 3 ≤ limit → ∀ strict,
      (cx.withDepth limit).fromTree strict range x =
        (.error (.unbuilt .invariant) : Except Error Datum) ∧
      (cx.withDepth limit).fromTree strict (.pointer .owned range) x =
        (.ok (.wrapped (.product [.int 2, .int 1])) : Except Error Datum) := by
  intro cx range x
  refine ⟨.pointer .owned rfl ⟨rfl, rfl⟩ .core, .of_not_peeled rfl, Tree.object_ne_null _,
    fun limit deep strict => ?_⟩
  obtain ⟨k, rfl⟩ := Nat.exists_eq_add_of_le' deep
  cases strict <;> exact ⟨rfl, rfl⟩

end TreeCodec
