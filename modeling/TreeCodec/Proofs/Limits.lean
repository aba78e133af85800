import Mathlib.Data.Nat.Find
import TreeCodec.Proofs.Correspondence
import TreeCodec.Proofs.DepthLimit
import TreeCodec.Proofs.StrictMode

/-!
# What a depth limit changes

A depth limit cuts conversions and changes nothing else (`limit_only_cuts`): a conversion
that it does not cut has the same outcome under every larger limit, and one that it cuts
fails with the limit itself. So the limits that cut a conversion are those below some limit,
or they are all (`exceeds_loop`). Conversions under two limits go through the same steps
until the smaller one cuts (`CutAt`):

* `Codec.cutAt_decoder`: so do readings;
* `Codec.cutAt_encode`: so do writings.
-/

namespace TreeCodec

/-! ## Hooks -/

/-- No hook fails at a limit. So it is if hooks fail only with errors of their own. -/
structure Registry.Limitless (r : Registry) : Prop where
  encoder {ty : Ty} {hook : Datum → Except Error Tree} :
    r.encoder? ty = some hook → ∀ d, ¬ Exceeds (hook d)
  decoder {ty : Ty} {hook : Tree → Except Error Datum} :
    r.decoder? ty = some hook → ∀ x, ¬ Exceeds (hook x)

theorem Registry.limitless_initial : Registry.initial.Limitless where
  encoder {ty hook} h d := by
    by_cases slot : ty = .tree
    · subst slot
      cases h
      cases d with
      | tree t => exact not_exceeds_ok t
      | _ => exact not_exceeds_error (by rintro ⟨⟩)
    · rw [encoder?_initial slot] at h
      cases h
  decoder {ty hook} h x := by
    by_cases slot : ty = .tree
    · subst slot
      cases h
      exact not_exceeds_ok _
    · rw [decoder?_initial slot] at h
      cases h

/-- Hooks that are added may fail with errors of their own. -/
theorem Registry.Limitless.register {r : Registry} (hr : r.Limitless) (ty : Ty) (new : Hook)
    (he : ∀ hook, new.encode? = some hook → ∀ d, ¬ Exceeds (hook d))
    (hd : ∀ hook, new.decode? = some hook → ∀ x, ¬ Exceeds (hook x)) :
    (r.register ty new).Limitless where
  encoder {t hook} h := by
    rw [encoder?_register] at h
    split at h
    · rcases own : new.encode? with _ | own' <;> rw [own] at h
      · exact hr.encoder h
      · cases h
        exact he hook own
    · exact hr.encoder h
  decoder {t hook} h := by
    rw [decoder?_register] at h
    split at h
    · rcases own : new.decode? with _ | own' <;> rw [own] at h
      · exact hr.decoder h
      · cases h
        exact hd hook own
    · exact hr.decoder h

/-! ## Two limits -/

theorem ConvertM.answer_bind_of_error {α β : Type} {x : ConvertM α} (f : α → ConvertM β)
    {cache : FieldCache} {e : Error} (h : (x.answer cache).1 = .error e) :
    ((x >>= f).answer cache).1 = .error e := by
  rw [answer_bind]
  rcases hx : x.answer cache with ⟨_ | _, _⟩ <;> rw [hx] at h <;> cases h
  rfl

/-- Computations of which the first one is cut at a limit, or else both have one outcome and
no limit has a part in it. -/
def CutAt (limit : Nat) {α : Type} (x y : ConvertM α) : Prop :=
  ∀ cache, (x.answer cache).1 = .error (.depthExceeded limit) ∨
    ¬ Exceeds (x.answer cache).1 ∧ y.answer cache = x.answer cache

/-- What a limit cuts, whatever would come of it under another one. -/
theorem CutAt.cut {limit : Nat} {α : Type} (y : ConvertM α) :
    CutAt limit (throw (.depthExceeded limit)) y :=
  fun _ => .inl rfl

theorem CutAt.bind {limit : Nat} {α β : Type} {x y : ConvertM α} {f g : α → ConvertM β}
    (h : CutAt limit x y) (hf : ∀ v, CutAt limit (f v) (g v)) :
    CutAt limit (x >>= f) (y >>= g) := by
  intro cache
  rcases h cache with cut | ⟨within, same⟩
  · exact .inl (ConvertM.answer_bind_of_error f cut)
  · rw [ConvertM.answer_bind, ConvertM.answer_bind, same]
    rcases hx : x.answer cache with ⟨e | v, cache'⟩
    · rw [hx] at within
      exact .inr ⟨fun ⟨n, he⟩ => within ⟨n, by cases he; rfl⟩, rfl⟩
    · exact hf v cache'

/-- Conversions that go through the same steps until a limit cuts the first one. -/
def Correspondence.cutAt (limit : Nat) : Correspondence ConvertM ConvertM where
  rel := CutAt limit
  admits e := e.kind ≠ .depthExceeded
  admits_of_kind := id
  knows _ _ _ := True
  rel_pure v _ := .inr ⟨not_exceeds_ok v, rfl⟩
  rel_bind := CutAt.bind
  rel_throw h _ := .inr ⟨not_exceeds_error h, rfl⟩
  rel_fieldInfo _ _ := .inr ⟨not_exceeds_ok _, rfl⟩

theorem Registry.Limitless.admitted {r : Registry} (hr : r.Limitless) (limit : Nat) :
    (Correspondence.cutAt limit).AdmitsHooks r where
  encoder h _ _ he := kind_ne_of_not_exceeds (hr.encoder h _) he
  decoder h _ _ he := kind_ne_of_not_exceeds (hr.decoder h _) he

namespace Codec

variable {cx : Codec}

theorem knows_cutAt (c : Catalogue) (limit : Nat) : (Correspondence.cutAt limit).reading.Knows c :=
  fun _ _ _ _ _ _ => trivial

/-- A reading that may go less deep is cut or the same, whatever the larger limit is. -/
theorem cutAt_decoder (hooks : cx.registry.Limitless) (limit limit' : Nat) {depth depth' : Nat}
    (h : depth ≤ depth') :
    (Correspondence.cutAt limit).reading.Agree (decoder (cx.withDepth limit) depth)
      (decoder (cx.withDepth limit') depth') := by
  induction depth generalizing depth' with
  | zero => exact ⟨fun _ _ _ _ => .cut _, fun _ _ _ _ => .cut _⟩
  | succ depth ih =>
    obtain ⟨below, rfl⟩ : ∃ n, depth' = n + 1 := ⟨depth' - 1, by omega⟩
    have agree := ih (show depth ≤ below by omega)
    have admitted : (Correspondence.cutAt limit).reading.AdmitsHooks cx.registry :=
      fun _ _ hook? _ _ failed => (hooks.admitted limit).decoder hook? failed
    simp only [decoder_succ, decodeStep_withDepth, decodeObjectStep_withDepth]
    exact ⟨fun hs ty x => Simulation.decodeStep cx admitted (knows_cutAt _ limit) agree hs ty x,
      fun hs ty o => Simulation.decodeObjectStep cx admitted (knows_cutAt _ limit) agree hs ty o⟩

/-- A writing that may go less deep is cut or the same, whatever the larger limit is. -/
theorem cutAt_encode (hooks : cx.registry.Limitless) (limit limit' : Nat) {depth depth' : Nat}
    (h : depth ≤ depth') (ty : Ty) (d : Datum) :
    CutAt limit (encode (cx.withDepth limit) depth ty d)
      (encode (cx.withDepth limit') depth' ty d) := by
  induction depth generalizing depth' ty d with
  | zero => exact .cut _
  | succ depth ih =>
    obtain ⟨below, rfl⟩ : ∃ n, depth' = n + 1 := ⟨depth' - 1, by omega⟩
    rw [encode, encode, encodeStep_withDepth, encodeStep_withDepth]
    have lower (t : Ty) (e : Datum) : (Correspondence.cutAt limit).rel
        (encode (cx.withDepth limit) depth t e) (encode (cx.withDepth limit') below t e) :=
      ih (by omega) t e
    exact Correspondence.encodeStep lower (knows_cutAt _ limit) (hooks.admitted limit) ty d

theorem cutAt_build {limit : Nat} (limit' : Nat) {x y : StateT Audit ConvertM Datum} (ty : Ty)
    (h : (Correspondence.cutAt limit).reading.rel x y) :
    CutAt limit ((cx.withDepth limit).build ty x) ((cx.withDepth limit').build ty y) :=
  Correspondence.build cx h ty

end Codec

/-- What a limit is to a conversion, whose outcome is given for each limit. -/
structure OnlyCuts {α : Type} (outcome : Nat → Except Error α × FieldCache) : Prop where
  /-- Where it does not cut, a larger limit changes nothing. -/
  same {limit limit' : Nat} : limit ≤ limit' → ¬ Exceeds (outcome limit).1 →
    outcome limit' = outcome limit
  /-- Where it cuts, the failure tells the limit. -/
  tells {limit n : Nat} : (outcome limit).1 = .error (.depthExceeded n) → n = limit
  /-- The limits that cut are the first ones, or all. -/
  initial : (∀ limit, Exceeds (outcome limit).1) ∨
    ∃ least, ∀ limit, Exceeds (outcome limit).1 ↔ limit < least

theorem OnlyCuts.of_cutAt {α : Type} {run : Nat → ConvertM α} {cache : FieldCache}
    (h : ∀ {limit limit'}, limit ≤ limit' → CutAt limit (run limit) (run limit')) :
    OnlyCuts fun limit => (run limit).answer cache := by
  have same {limit limit' : Nat} (hl : limit ≤ limit')
      (within : ¬ Exceeds ((run limit).answer cache).1) :
      (run limit').answer cache = (run limit).answer cache :=
    ((h hl cache).resolve_left fun cut => within ⟨_, cut⟩).2
  refine ⟨same, fun {limit n} cut => ?_, ?_⟩
  · rcases h (Nat.le_refl limit) cache with cut' | ⟨within, -⟩
    · rw [cut] at cut'
      cases cut'
      rfl
    · exact absurd ⟨n, cut⟩ within
  · by_cases some : ∃ limit, ¬ Exceeds ((run limit).answer cache).1
    · classical
      refine .inr ⟨Nat.find some, fun limit => ⟨fun cut => ?_, fun below => ?_⟩⟩
      · refine Nat.lt_of_not_le fun above => Nat.find_spec some ?_
        rwa [same above (Nat.find_spec some)] at cut
      · exact Classical.not_not.mp (Nat.find_min some below)
    · exact .inl fun limit => Classical.not_not.mp fun within => some ⟨limit, within⟩

/-- A limit only cuts, in every conversion and from any cache: to a tree, to an object, from
a tree and from an object, strictly or not. -/
theorem limit_only_cuts (cx : Codec) (hooks : cx.registry.Limitless) (ty : Ty) (cache : FieldCache) :
    (∀ d, OnlyCuts fun limit => ((cx.withDepth limit).toTree ty d : ConvertM Tree).answer cache) ∧
    (∀ d, OnlyCuts fun limit => ((cx.withDepth limit).toObject ty d : ConvertM Object).answer cache) ∧
    (∀ strict x, OnlyCuts fun limit =>
      ((cx.withDepth limit).fromTree strict ty x : ConvertM Datum).answer cache) ∧
    ∀ strict o, OnlyCuts fun limit =>
      ((cx.withDepth limit).fromObject strict ty o : ConvertM Datum).answer cache := by
  refine ⟨fun d => .of_cutAt fun hl => ?_, fun d => .of_cutAt fun {limit limit'} hl => ?_,
    fun strict x => .of_cutAt fun hl => ?_, fun strict o => .of_cutAt fun {limit limit'} hl => ?_⟩
  · exact Codec.cutAt_encode hooks _ _ hl ty d
  · have trees : (Correspondence.cutAt limit).rel ((cx.withDepth limit).toTree ty d)
        ((cx.withDepth limit').toTree ty d) := Codec.cutAt_encode hooks _ _ hl ty d
    exact Correspondence.objectOf trees ty
  · exact Codec.cutAt_build _ ty ((Codec.cutAt_decoder hooks _ _ hl).tree rfl ty x)
  · show CutAt limit (if cx.acceptsObject ty then _ else _) (if cx.acceptsObject ty then _ else _)
    split
    · exact Codec.cutAt_build _ ty ((Codec.cutAt_decoder hooks _ _ hl).object rfl ty o)
    · exact (Correspondence.cutAt limit).rel_throw
        ((Correspondence.cutAt limit).admits_of_kind nofun)

/-! ## A type that inlines itself -/

/-- The only field of a loop, which is inlined. -/
def Field.next : Field :=
  { key := "next", ty := .option (.pointer .owned (.named "loop")), inline := true }

/-- A record that inlines itself, so that it reads one object over and over. -/
def Catalogue.loop : Catalogue where
  decls := [("loop", { body := .record [.next] })]

/-- Loops, read with a hook that refuses labels. -/
def Codec.loop : Codec where
  catalogue := .loop
  registry := Registry.initial.register .string { decode? := some fun _ => .error (.custom "no label") }
  maxDepth := Codec.defaultDepth

/-- A cache that has no false information about loops. -/
def FieldCache.KnowsLoop (cache : FieldCache) : Prop :=
  ∀ info, cache.find? (.named "loop") 0 = some info → info = .ofField .next

theorem FieldCache.KnowsLoop.resolve {cache : FieldCache} (h : cache.KnowsLoop) :
    ∃ cache', cache'.KnowsLoop ∧
      cache.resolve (.named "loop") 0 .next = (.ofField .next, cache') := by
  rw [FieldCache.resolve]
  rcases known : cache.find? (.named "loop") 0 with _ | info
  · refine ⟨_, fun info found => ?_, rfl⟩
    simpa [FieldCache.find?] using found.symm
  · cases h info known
    exact ⟨cache, h, rfl⟩

/-- A reading that a limit cuts, from any cache without false information about loops. -/
def IsCut (limit : Nat) {α : Type} (x : StateT Audit ConvertM α) : Prop :=
  ∀ a cache, cache.KnowsLoop → ((x.run a).answer cache).1 = .error (.depthExceeded limit)

theorem IsCut.bind {limit : Nat} {α β : Type} {x : StateT Audit ConvertM α} (h : IsCut limit x)
    (f : α → StateT Audit ConvertM β) : IsCut limit (x >>= f) := by
  intro a cache known
  rw [StateT.run_bind]
  exact ConvertM.answer_bind_of_error _ (h a cache known)

/-- The only field of a loop reads the loop's own object. -/
theorem IsCut.decodeFields {limit : Nat} {cx : Codec} {dec : Decoder ConvertM} {s : Scope} {o : Object}
    (h : IsCut limit (dec.object s.inline Field.next.ty o)) :
    IsCut limit (Codec.decodeFields cx dec s (.named "loop") o 0 [.next]) := by
  refine IsCut.bind (fun a cache known => ?_) _
  obtain ⟨cache', known', resolved⟩ := known.resolve
  rw [Codec.decodeField, StateT.run_bind, ConvertM.answer_bind]
  have info :
      ((fieldInfo (.named "loop") 0 .next : StateT Audit ConvertM FieldInfo).run a).answer cache =
      (.ok (.ofField .next, a), cache') := by
    have lifted : (fieldInfo (.named "loop") 0 .next : StateT Audit ConvertM FieldInfo).run a =
        (·, a) <$> (fieldInfo (.named "loop") 0 .next : ConvertM FieldInfo) :=
      (StateT.run_lift ..).trans (bind_pure_comp ..)
    rw [lifted, ConvertM.answer_map, ConvertM.answer_fieldInfo, resolved]
    rfl
  rw [info]
  exact h a cache' known'

/-- Every limit cuts the reading of a loop from an object. -/
theorem isCut_loop (limit depth : Nat) {ty : Ty}
    (hty : ty = .named "loop" ∨ ty = .option (.pointer .owned (.named "loop")) ∨
      ty = .pointer .owned (.named "loop")) (s : Scope) (o : Object) :
    IsCut limit ((Codec.decoder (Codec.loop.withDepth limit) depth).object s ty o) := by
  induction depth generalizing ty s with
  | zero => exact fun _ _ _ => rfl
  | succ depth ih =>
    rcases hty with rfl | rfl | rfl
    · intro a cache known
      have fields : IsCut limit (Codec.decodeFields (Codec.loop.withDepth limit) _ s _ o 0 [.next]) :=
        (ih (.inr (.inl rfl)) s.inline).decodeFields
      exact fields.bind (fun ds => modify (s.endRecord o) >>= fun _ => Pure.pure (Datum.product ds))
        (s.beginRecord a) cache known
    · exact (ih (.inr (.inr rfl)) s).bind _
    · exact (ih (.inl rfl) s).bind _

/-- Loops are read from an object under no limit. -/
theorem exceeds_loop (strict : Bool) (o : Object) (limit : Nat) :
    Exceeds (((Codec.loop.withDepth limit).fromObject strict (.named "loop") o :
      ConvertM Datum).answer .empty).1 := by
  have cut := isCut_loop limit limit (.inl rfl) (.root strict) o .empty .empty nofun
  exact ⟨limit, ConvertM.answer_bind_of_error _ cut⟩

/-- Reading a loop: a limit that cuts is told, and no limit is large enough. Writing a loop in a
loop: a limit of four cuts, one of five does not, and a larger one changes nothing. -/
theorem limit_only_cuts_loop :
    let o : Object := [("next", .object [("next", .null)])]
    let outcome (limit : Nat) : Except Error Datum × FieldCache :=
      ((Codec.loop.withDepth limit).fromObject true (.named "loop") o : ConvertM Datum).answer .empty
    let d : Datum := .product [.present (.wrapped (.product [.absent]))]
    let written (limit : Nat) : Except Error Tree × FieldCache :=
      ((Codec.loop.withDepth limit).toTree (.named "loop") d : ConvertM Tree).answer .empty
    Codec.loop.registry.Limitless ∧ (OnlyCuts outcome ∧ ∀ limit, Exceeds (outcome limit).1) ∧
      OnlyCuts written ∧ (written 4).1 = .error (.depthExceeded 4) ∧
      (written 5).1 = .ok (.object []) ∧ ∀ limit, 5 ≤ limit → written limit = written 5 := by
  intro o outcome d written
  have hooks : Codec.loop.registry.Limitless := by
    refine Registry.limitless_initial.register .string _ nofun fun hook h x => ?_
    cases h
    exact not_exceeds_error (by rintro ⟨⟩)
  obtain ⟨toTree, -, -, fromObject⟩ := limit_only_cuts Codec.loop hooks (.named "loop") .empty
  refine ⟨hooks, ⟨fromObject true o, exceeds_loop true o⟩, toTree d, rfl, rfl, fun limit deep => ?_⟩
  exact (toTree d).same deep (not_exceeds_ok _)

end TreeCodec
