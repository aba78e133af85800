import TreeCodec.Proofs.FieldCaches
import TreeCodec.Proofs.HookedTypes
import TreeCodec.Proofs.SameHooks
import TreeCodec.Session

/-!
# Runs of a session

What a conversion of a session comes to depends on the codec that was built last and on the
slot, not on what was converted before (`history_does_not_show`). The steps of a run say what
the codec goes by (`Setup.ofSteps`): a depth, and the directions in which types have their hooks.

* `Session.plain`: what a step that converts comes to without a cache;
* `Session.step_plain`: with a cache it comes to that too, and beyond that only adds to it;
* `Session.Follows.step`: each step keeps the session in line with its setup;
* `Session.getElem?_run`: the sessions of a run.
-/

namespace TreeCodec

/-! ## Registrations -/

namespace Hook

/-- A hook in some directions only. -/
def restrict (h : Hook) (dirs : List Direction) : Hook where
  encode? := if .toTree ∈ dirs then h.encode? else none
  decode? := if .fromTree ∈ dirs then h.decode? else none

/-- Whether a hook converts in a direction. -/
def goes (h : Hook) : Direction → Bool
  | .toTree => h.encode?.isSome
  | .fromTree => h.decode?.isSome

def directions (h : Hook) : List Direction := [.toTree, .fromTree].filter h.goes

end Hook

namespace Registry

variable {impl : Ty → Hook} {r : Registry} {hooks : List (Ty × Direction)}

/-- A registry has the hooks of some types in some directions, and those of slots. -/
structure Holds (impl : Ty → Hook) (r : Registry) (hooks : List (Ty × Direction)) : Prop where
  encoder (ty : Ty) : r.encoder? ty =
    if ty = .tree ∨ (ty, .toTree) ∈ hooks then (impl ty).encode? else none
  decoder (ty : Ty) : r.decoder? ty =
    if ty = .tree ∨ (ty, .fromTree) ∈ hooks then (impl ty).decode? else none

theorem holds_initial (slot : impl .tree = Registry.slot) : initial.Holds impl [] := by
  refine ⟨fun ty => ?_, fun ty => ?_⟩ <;> by_cases h : ty = .tree
  · subst h
    rw [if_pos (.inl rfl), slot]
    rfl
  · rw [encoder?_initial h, if_neg (by simp [h])]
  · subst h
    rw [if_pos (.inl rfl), slot]
    rfl
  · rw [decoder?_initial h, if_neg (by simp [h])]

/-- What a registry has depends neither on order nor on multiplicity. -/
theorem Holds.of_mem_iff (h : r.Holds impl hooks) {hooks' : List (Ty × Direction)}
    (same : ∀ p, p ∈ hooks' ↔ p ∈ hooks) : r.Holds impl hooks' :=
  ⟨fun ty => by simp only [h.encoder, same], fun ty => by simp only [h.decoder, same]⟩

theorem or_ite {α : Type} (hook? : Option α) (old new : Prop) [Decidable old] [Decidable new] :
    (if new then hook? else none).or (if old then hook? else none) =
      if old ∨ new then hook? else none := by
  by_cases old <;> by_cases new <;> simp [*]

/-- A type's hook is added in the directions in which it is registered. -/
theorem Holds.register (h : r.Holds impl hooks) (ty : Ty) (dirs : List Direction) :
    (r.register ty ((impl ty).restrict dirs)).Holds impl (hooks ++ dirs.map (ty, ·)) := by
  have mem (dir : Direction) (t : Ty) : (t, dir) ∈ hooks ++ dirs.map (ty, ·) ↔
      (t, dir) ∈ hooks ∨ t = ty ∧ dir ∈ dirs := by
    simp only [List.mem_append, List.mem_map, Prod.mk.injEq]
    exact or_congr_right ⟨fun ⟨_, h, same, eq⟩ => ⟨same.symm, eq ▸ h⟩, fun ⟨same, h⟩ =>
      ⟨dir, h, same.symm, rfl⟩⟩
  refine ⟨fun t => ?_, fun t => ?_⟩
  · simp only [encoder?_register, h.encoder, mem, Hook.restrict]
    by_cases ht : t = ty
    · subst ht
      simp only [if_true, or_ite, true_and, or_assoc]
    · simp only [ht, if_false, false_and, or_false]
  · simp only [decoder?_register, h.decoder, mem, Hook.restrict]
    by_cases ht : t = ty
    · subst ht
      simp only [if_true, or_ite, true_and, or_assoc]
    · simp only [ht, if_false, false_and, or_false]

/-- The registry of the hooks of some types in some directions, registered one by one. -/
def ofHooks (impl : Ty → Hook) (hooks : List (Ty × Direction)) : Registry :=
  hooks.foldl (fun r p => r.register p.1 ((impl p.1).restrict [p.2])) .initial

theorem holds_ofHooks (slot : impl .tree = Registry.slot) (hooks : List (Ty × Direction)) :
    (ofHooks impl hooks).Holds impl hooks := by
  have more (rest done : List (Ty × Direction)) (r : Registry) (h : r.Holds impl done) :
      (rest.foldl (fun r p => r.register p.1 ((impl p.1).restrict [p.2])) r).Holds impl
        (done ++ rest) := by
    induction rest generalizing done r with
    | nil => simpa using h
    | cons p rest ih => simpa using ih _ _ (h.register p.1 [p.2])
  exact more hooks [] .initial (holds_initial slot)

end Registry

/-! ## Setups -/

/-- What a session goes by: the hooks that were registered since the last reset, and the
hooks and the depth of the codec that was built last. -/
structure Setup where
  hooks : List (Ty × Direction)
  used : List (Ty × Direction)
  depth : Nat

namespace Setup

/-- The setup where nothing was registered or built. -/
def start : Setup := ⟨[], [], Codec.defaultDepth⟩

/-- The setup after a step. -/
def after (u : Setup) : Session.Step → Setup
  | .register ty hook => { u with hooks := u.hooks ++ hook.directions.map (ty, ·) }
  | .resetHooks => { u with hooks := [] }
  | .build _ depth? => { hooks := u.hooks, used := u.hooks, depth := depth?.getD Codec.defaultDepth }
  | _ => u

/-- The setup that the steps of a run lead to. -/
def ofSteps (steps : List Session.Step) : Setup := steps.foldl after start

end Setup

namespace Session

/-! ## Steps without a cache -/

/-- Whether a step converts or asks for field information. -/
def Step.converts : Step → Bool
  | .register _ _ => false
  | .resetHooks => false
  | .build _ _ => false
  | .clone => false
  | .setSlot _ _ => false
  | _ => true

/-- Whether a step begins a cache anew. -/
def Step.emptiesCache : Step → Bool
  | .build keepCache _ => !keepCache
  | _ => false

/-- What a step that converts comes to without a cache, and the slot after it. -/
def plain (cx : Codec) (slot? : Option (Ty × Datum)) : Step → Option (Outcome × Option (Ty × Datum))
  | .resolve ty index =>
    match (cx.catalogue.fields ty)[index]? with
    | some f => some (.info (.ofField f), slot?)
    | none => some (.noSuchField, slot?)
  | .into o strict =>
    match slot? with
    | none => some (.noSlot, none)
    | some (ty, old) =>
      match (cx.fromObject strict ty o : Except Error Datum) with
      | .ok new => some (.into (.ok ()) ty new, some (ty, new))
      | .error e => some (.into (.error e) ty old, some (ty, old))
  | .encodeSlot =>
    match slot? with
    | none => some (.noSlot, none)
    | some (ty, d) => some (.tree (cx.toTree ty d), some (ty, d))
  | .toTree ty d => some (.tree (cx.toTree ty d), slot?)
  | .toObject ty d => some (.object (cx.toObject ty d), slot?)
  | .fromTree ty t strict => some (.datum ty (cx.fromTree strict ty t), slot?)
  | .fromObject ty o strict => some (.datum ty (cx.fromObject strict ty o), slot?)
  | .transcode src dst d strict =>
    match (cx.transcode strict src dst d : Except Error Codec.Transcript) with
    | .ok t => some (.transcript dst t, slot?)
    | .error e => some (.transcript dst { tree := .error e }, slot?)
  | _ => none

/-- What is read into the slot does not depend on what was in it, apart from its type. -/
theorem slot_of_plain_into {cx : Codec} {ty : Ty} {old : Datum} {o : Object} {strict : Bool}
    {outcome : Outcome} {slot? : Option (Ty × Datum)}
    (h : plain cx (some (ty, old)) (.into o strict) = some (outcome, slot?)) :
    slot? =
      match (cx.fromObject strict ty o : Except Error Datum) with
      | .ok new => some (ty, new)
      | .error _ => some (ty, old) := by
  rw [plain] at h
  split at h <;> cases h <;> rfl

/-- Codecs with the same hooks and limits convert alike. -/
theorem plain_eq {cx cx' : Codec} (same : cx.SameHooks cx') (limit : cx.maxDepth = cx'.maxDepth)
    (slot? : Option (Ty × Datum)) (st : Step) : plain cx slot? st = plain cx' slot? st := by
  cases st <;> simp only [plain, same.catalogue, same.toTree limit, same.toObject limit,
    same.fromTree limit, same.fromObject limit, same.transcode limit]

variable {s : Session} {c : Catalogue}

/-- A conversion of a session with a coherent cache comes to what it comes to without one. -/
theorem convert_of_reproduces {α : Type} {x : ConvertM α} {y : Except Error α}
    (h : Reproduces c x y) (coherent : s.cache.Coherent c) :
    ∃ cache', s.convert x = (y, { s with cache := cache' }) ∧ cache'.Coherent c ∧
      cache'.Extends s.cache ∧
      ∀ s' : Session, s'.cache.Coherent c → s'.cache.Extends cache' → s'.convert x = (y, s') := by
  obtain ⟨cache', first, coherent', extended, again⟩ := h s.cache coherent
  refine ⟨cache', ?_, coherent', extended, fun s' coherent'' extended' => ?_⟩
  · show ((x.answer s.cache).1, { s with cache := (x.answer s.cache).2 }) = _
    rw [first]
  · show ((x.answer s'.cache).1, { s' with cache := (x.answer s'.cache).2 }) = _
    rw [again s'.cache coherent'' extended']

/-- A step comes to an outcome and a slot. Beyond that it only adds to the cache, and it adds
nothing when it is carried out again. -/
def ComesTo (s : Session) (st : Step) (outcome : Outcome) (slot? : Option (Ty × Datum)) : Prop :=
  ∃ cache', s.step st = (outcome, { s with cache := cache', slot? := slot? }) ∧
    cache'.Coherent s.codec.catalogue ∧ cache'.Extends s.cache ∧
    ∀ s' : Session, s'.codec = s.codec → s'.slot? = slot? →
      s'.cache.Coherent s.codec.catalogue → s'.cache.Extends cache' → (s'.step st).2.cache = s'.cache

/-- A step that is a conversion, of whose result an outcome is made. -/
theorem comesTo_of_reproduces (coherent : s.cache.Coherent s.codec.catalogue) {α : Type}
    {x : ConvertM α} {y : Except Error α} (h : Reproduces s.codec.catalogue x y) {st : Step}
    (make : Except Error α → Outcome)
    (carried : ∀ s' : Session, s'.codec = s.codec → s'.slot? = s.slot? →
      s'.step st = (make (s'.convert x).1, (s'.convert x).2)) :
    s.ComesTo st (make y) s.slot? := by
  obtain ⟨cache', first, coherent', extended, again⟩ := convert_of_reproduces h coherent
  refine ⟨cache', by rw [carried s rfl rfl, first], coherent', extended, ?_⟩
  intro s' codec slot coherent'' extended'
  rw [carried s' codec slot, again s' coherent'' extended']

/-- Without a slot nothing is done. -/
theorem comesTo_noSlot (coherent : s.cache.Coherent s.codec.catalogue) (empty : s.slot? = none)
    {st : Step} (still : ∀ s' : Session, s'.slot? = none → s'.step st = (.noSlot, s')) :
    s.ComesTo st .noSlot none := by
  have same : ({ s with slot? := none } : Session) = s := by rw [← empty]
  refine ⟨s.cache, (still s empty).trans (by rw [same]), coherent, .refl _, ?_⟩
  exact fun s' _ slot _ _ => by rw [still s' slot]

/-- What an object is read into keeps its type. -/
theorem comesTo_into (coherent : s.cache.Coherent s.codec.catalogue) {ty : Ty} {old : Datum}
    (slot : s.slot? = some (ty, old)) (o : Object) (strict : Bool) :
    match (s.codec.fromObject strict ty o : Except Error Datum) with
    | .ok new => s.ComesTo (.into o strict) (.into (.ok ()) ty new) (some (ty, new))
    | .error e => s.ComesTo (.into o strict) (.into (.error e) ty old) (some (ty, old)) := by
  obtain ⟨cache', first, coherent', extended, again⟩ :=
    convert_of_reproduces (s.codec.reproduces_fromObject strict ty o) coherent
  split
  case h_1 new read =>
    rw [read] at first again
    refine ⟨cache', by simp only [step, slot, first], coherent', extended, ?_⟩
    intro s' codec slot' coherent'' extended'
    simp only [step, slot', codec, again s' coherent'' extended']
  case h_2 e read =>
    rw [read] at first again
    refine ⟨cache', by simp only [step, slot, first], coherent', extended, ?_⟩
    intro s' codec slot' coherent'' extended'
    simp only [step, slot', codec, again s' coherent'' extended']

/-- A step that converts comes to what it comes to without a cache. -/
theorem step_plain (coherent : s.cache.Coherent s.codec.catalogue) {st : Step} {outcome : Outcome}
    {slot? : Option (Ty × Datum)} (h : plain s.codec s.slot? st = some (outcome, slot?)) :
    s.ComesTo st outcome slot? := by
  cases st with
  | register => cases h
  | resetHooks => cases h
  | build => cases h
  | clone => cases h
  | setSlot => cases h
  | resolve ty index =>
    rcases hf : (s.codec.catalogue.fields ty)[index]? with _ | f <;> simp only [plain, hf] at h <;>
      cases h
    · refine ⟨s.cache, by simp only [step, hf], coherent, .refl _, fun s' codec _ _ _ => ?_⟩
      simp only [step, codec, hf]
    · obtain ⟨cache', resolved, coherent', extended, known⟩ := coherent.resolve hf
      refine ⟨cache', by simp only [step, hf, resolved], coherent', extended, ?_⟩
      intro s' codec _ coherent'' extended'
      have known' : (ty, index) ∈ s'.cache.entries.map Prod.fst :=
        (extended'.map Prod.fst).subset known
      simp only [step, codec, hf, coherent''.resolve_of_mem hf known']
  | into o strict =>
    rcases slot : s.slot? with _ | ⟨ty, old⟩ <;> simp only [plain, slot] at h
    · cases h
      exact comesTo_noSlot coherent slot fun s' empty => by simp only [step, empty]
    · have read := comesTo_into coherent slot o strict
      split at h <;> cases h <;> simp_all only
  | encodeSlot =>
    rcases slot : s.slot? with _ | ⟨ty, d⟩ <;> simp only [plain, slot] at h <;> cases h
    · exact comesTo_noSlot coherent slot fun s' empty => by simp only [step, empty]
    · rw [← slot]
      refine comesTo_of_reproduces coherent (s.codec.reproduces_toTree ty d) .tree ?_
      intro s' codec slot'
      simp only [step, slot', slot, codec]
  | toTree ty d =>
    cases h
    refine comesTo_of_reproduces coherent (s.codec.reproduces_toTree ty d) .tree ?_
    exact fun s' codec _ => by rw [step, codec]
  | toObject ty d =>
    cases h
    refine comesTo_of_reproduces coherent (s.codec.reproduces_toObject ty d) .object ?_
    exact fun s' codec _ => by rw [step, codec]
  | fromTree ty t strict =>
    cases h
    refine comesTo_of_reproduces coherent (s.codec.reproduces_fromTree strict ty t) (.datum ty) ?_
    exact fun s' codec _ => by rw [step, codec]
  | fromObject ty o strict =>
    cases h
    refine comesTo_of_reproduces coherent (s.codec.reproduces_fromObject strict ty o) (.datum ty) ?_
    exact fun s' codec _ => by rw [step, codec]
  | transcode src dst d strict =>
    let make : Except Error Codec.Transcript → Outcome
      | .ok t => .transcript dst t
      | .error e => .transcript dst { tree := .error e }
    have made : s.ComesTo (.transcode src dst d strict)
        (make (s.codec.transcode strict src dst d)) s.slot? := by
      refine comesTo_of_reproduces coherent (s.codec.reproduces_transcode strict src dst d) make ?_
      intro s' codec _
      rw [step, transcript, codec]
      rcases s'.convert (s.codec.transcode strict src dst d) with ⟨_ | _, _⟩ <;> rfl
    rw [plain] at h
    split at h <;> cases h <;> simp_all only [make]

/-- Every step that converts comes to something without a cache. -/
theorem exists_plain {st : Step} (converts : st.converts = true) (cx : Codec)
    (slot? : Option (Ty × Datum)) : ∃ outcome slot', plain cx slot? st = some (outcome, slot') := by
  cases st with
  | register => cases converts
  | resetHooks => cases converts
  | build => cases converts
  | clone => cases converts
  | setSlot => cases converts
  | _ =>
    simp only [plain]
    repeat' split
    all_goals exact ⟨_, _, rfl⟩

/-- So every step that converts comes to something. -/
theorem exists_comesTo (coherent : s.cache.Coherent s.codec.catalogue) {st : Step}
    (converts : st.converts = true) : ∃ outcome slot?,
      plain s.codec s.slot? st = some (outcome, slot?) ∧ s.ComesTo st outcome slot? := by
  obtain ⟨outcome, slot?, plain⟩ := exists_plain converts s.codec s.slot?
  exact ⟨outcome, slot?, plain, step_plain coherent plain⟩

/-! ## Runs -/

/-- Every registration of a type is one of the type's own hook, in some directions. -/
def Step.Uses (impl : Ty → Hook) : Step → Prop
  | .register ty hook => hook = (impl ty).restrict hook.directions
  | _ => True

/-- The session after the steps of a run. -/
def after (s : Session) (steps : List Step) : Session := steps.foldl (fun s st => (s.step st).2) s

/-- What comes of a step of a run comes of it after the steps before it. -/
theorem getElem?_run (s : Session) (steps : List Step) (i : Nat) :
    (run s steps)[i]? = steps[i]?.map (s.after (steps.take i)).step := by
  induction steps generalizing s i with
  | nil => rfl
  | cons st rest ih =>
    cases i with
    | zero => rfl
    | succ i => exact ih (s.step st).2 i

/-- A session is in line with a setup. -/
structure Follows (c : Catalogue) (impl : Ty → Hook) (u : Setup) (s : Session) : Prop where
  catalogue : s.codec.catalogue = c
  registered : s.registry.Holds impl u.hooks
  built : s.codec.registry.Holds impl u.used
  depth : s.codec.maxDepth = u.depth
  coherent : s.cache.Coherent c

variable {impl : Ty → Hook} {u : Setup}

theorem follows_start (c : Catalogue) (slot : impl .tree = Registry.slot) :
    (start c).Follows c impl .start where
  catalogue := rfl
  registered := Registry.holds_initial slot
  built := Registry.holds_initial slot
  depth := rfl
  coherent := FieldCache.coherent_empty c

/-- A step keeps a session in line with its setup. -/
theorem Follows.step (h : s.Follows c impl u) (slot : impl .tree = Registry.slot) {st : Step}
    (uses : st.Uses impl) : (s.step st).2.Follows c impl (u.after st) := by
  by_cases converts : st.converts = true
  · obtain ⟨outcome, slot?, -, cache', stepped, coherent', -, -⟩ :=
      exists_comesTo (h.catalogue ▸ h.coherent) converts
    have still : u.after st = u := by cases st <;> first | rfl | cases converts
    rw [stepped, still]
    exact ⟨h.catalogue, h.registered, h.built, h.depth, h.catalogue ▸ coherent'⟩
  · cases st with
    | register ty hook =>
      have added := h.registered.register ty hook.directions
      rw [← uses] at added
      exact ⟨h.catalogue, added, h.built, h.depth, h.coherent⟩
    | resetHooks =>
      exact ⟨h.catalogue, Registry.holds_initial slot, h.built, h.depth, h.coherent⟩
    | build keepCache depth? =>
      refine ⟨h.catalogue, h.registered, h.registered, rfl, ?_⟩
      cases keepCache
      · exact FieldCache.coherent_empty c
      · exact h.coherent
    | clone => exact h
    | setSlot ty d => exact ⟨h.catalogue, h.registered, h.built, h.depth, h.coherent⟩
    | _ => exact absurd rfl converts

/-- So a run keeps it. -/
theorem Follows.after (h : s.Follows c impl u) (slot : impl .tree = Registry.slot)
    {steps : List Step} (uses : ∀ st ∈ steps, st.Uses impl) :
    (s.after steps).Follows c impl (steps.foldl Setup.after u) := by
  induction steps generalizing s u with
  | nil => exact h
  | cons st rest ih =>
    exact ih (h.step slot (uses st List.mem_cons_self)) fun t ht => uses t (List.mem_cons_of_mem _ ht)

/-- The codec of a session has the hooks of its setup, however they came to be registered. -/
theorem Follows.sameHooks (h : s.Follows c impl u) (slot : impl .tree = Registry.slot)
    {hooks : List (Ty × Direction)} (same : ∀ p, p ∈ hooks ↔ p ∈ u.used) (depth : Nat) :
    s.codec.SameHooks ⟨c, .ofHooks impl hooks, depth⟩ := by
  have listed := Registry.holds_ofHooks slot hooks
  have built := h.built.of_mem_iff same
  exact ⟨h.catalogue, fun ty => (built.encoder ty).trans (listed.encoder ty).symm,
    fun ty => (built.decoder ty).trans (listed.decoder ty).symm⟩

/-- A step takes nothing from the cache unless it begins a new one. -/
theorem extends_step (coherent : s.cache.Coherent s.codec.catalogue) {st : Step}
    (keeps : st.emptiesCache = false) : (s.step st).2.cache.Extends s.cache := by
  by_cases converts : st.converts = true
  · obtain ⟨outcome, slot?, -, cache', stepped, -, extended, -⟩ := exists_comesTo coherent converts
    rwa [stepped]
  · cases st with
    | register => exact .refl _
    | resetHooks => exact .refl _
    | build keepCache =>
      cases keepCache
      · cases keeps
      · exact .refl _
    | clone => exact .refl _
    | setSlot => exact .refl _
    | _ => exact absurd rfl converts

/-- A step that converts adds nothing to the cache when it is carried out again. -/
theorem cache_step_step (coherent : s.cache.Coherent s.codec.catalogue) {st : Step}
    (converts : st.converts = true) : ((s.step st).2.step st).2.cache = (s.step st).2.cache := by
  obtain ⟨outcome, slot?, -, cache', stepped, coherent', -, again⟩ := exists_comesTo coherent converts
  rw [stepped]
  exact again _ rfl rfl coherent' (.refl _)

/-- A step that converts comes to what it comes to without a cache, by any codec with the hooks
and the depth of the setup. -/
theorem Follows.plain (h : s.Follows c impl u) (slot : impl .tree = Registry.slot)
    {hooks : List (Ty × Direction)} (same : ∀ p, p ∈ hooks ↔ p ∈ u.used) {st : Step}
    (converts : st.converts = true) :
    plain ⟨c, .ofHooks impl hooks, u.depth⟩ s.slot? st = some ((s.step st).1, (s.step st).2.slot?) := by
  obtain ⟨outcome, slot?, plain, cache', stepped, -⟩ :=
    exists_comesTo (h.catalogue ▸ h.coherent) converts
  rw [stepped, ← plain_eq (h.sameHooks slot same u.depth) h.depth]
  exact plain

/-- What a step comes to without a cache it comes to with an empty one. -/
theorem step_empty {cx : Codec} {slot? slot' : Option (Ty × Datum)} {st : Step} {outcome : Outcome}
    (plain : plain cx slot? st = some (outcome, slot')) (registry : Registry) :
    (step ⟨registry, cx, .empty, slot?⟩ st).1 = outcome := by
  obtain ⟨cache', stepped, -⟩ :=
    step_plain (s := ⟨registry, cx, .empty, slot?⟩) (FieldCache.coherent_empty _) plain
  rw [stepped]

end Session

/-- What was converted before does not show. Of every step of a run, the types' hooks being
fixed, there are an outcome and a session after it, and

* if the step converts, they are what the conversion gives without a cache (`Session.plain`),
  and with an empty one, by any codec of the depth and the hooks that the last one before was
  built with, the standard codec if none was built;
* the cache holds the information of declared fields, as it is derived from them, once for
  each field;
* the step takes nothing from the cache unless it begins a new one, and if it converts it adds
  nothing when it is carried out again;
* reading into the slot leaves it as it was, or leaves the datum that is read from the object
  whatever was in the slot. -/
theorem history_does_not_show (c : Catalogue) {impl : Ty → Hook}
    (slot : impl .tree = Registry.slot) {steps : List Session.Step}
    (uses : ∀ st ∈ steps, st.Uses impl) {i : Nat} {st : Session.Step} (hi : steps[i]? = some st)
    {hooks : List (Ty × Direction)}
    (same : ∀ p, p ∈ hooks ↔ p ∈ (Setup.ofSteps (steps.take i)).used) :
    let before := (Session.start c).after (steps.take i)
    let cx : Codec := ⟨c, .ofHooks impl hooks, (Setup.ofSteps (steps.take i)).depth⟩
    ∃ outcome after, (Session.run (.start c) steps)[i]? = some (outcome, after) ∧
      (st.converts = true → Session.plain cx before.slot? st = some (outcome, after.slot?) ∧
        ∀ registry, (Session.step ⟨registry, cx, .empty, before.slot?⟩ st).1 = outcome) ∧
      ((∀ ty j info, ((ty, j), info) ∈ after.cache.entries →
        ∃ f, (c.fields ty)[j]? = some f ∧ info = .ofField f) ∧
        (after.cache.entries.map Prod.fst).Nodup) ∧
      ((st.emptiesCache = false → after.cache.Extends before.cache) ∧
        (st.converts = true → (after.step st).2.cache = after.cache)) ∧
      ∀ ty old o strict, st = .into o strict → before.slot? = some (ty, old) →
        after.slot? =
          match (cx.fromObject strict ty o : Except Error Datum) with
          | .ok new => some (ty, new)
          | .error _ => some (ty, old) := by
  intro before cx
  have follows : before.Follows c impl (Setup.ofSteps (steps.take i)) :=
    (Session.follows_start c slot).after slot fun t ht => uses t (List.mem_of_mem_take ht)
  have coherent : before.cache.Coherent before.codec.catalogue := follows.catalogue ▸ follows.coherent
  have next := (follows.step slot (uses st (List.mem_of_getElem? hi))).coherent
  have ran : (Session.run (.start c) steps)[i]? = some (before.step st) := by
    rw [Session.getElem?_run, hi]
    rfl
  refine ⟨(before.step st).1, (before.step st).2, ran, fun converts => ?_,
    ⟨fun ty j info => next.genuine, next.distinct⟩,
    ⟨Session.extends_step coherent, Session.cache_step_step coherent⟩, ?_⟩
  · have plain := follows.plain slot same converts
    exact ⟨plain, Session.step_empty plain⟩
  · rintro ty old o strict rfl inSlot
    have plain := follows.plain slot same (rfl : (Session.Step.into o strict).converts = true)
    rw [inSlot] at plain
    exact Session.slot_of_plain_into plain

/-- The hooks of temperatures and of slots. -/
def Hook.weather (ty : Ty) : Hook :=
  if ty = .tree then Registry.slot
  else if ty = .named "celsius" then ⟨some Codec.writeCelsius, some Codec.readCelsius⟩
  else {}

/-- A session that reads two days into one with a temperature at noon, the first of them
without a unit. -/
theorem history_does_not_show_day :
    let celsius := Ty.named "celsius"
    let noon (n : Int) := Datum.product [.wrapped (.int n), .seq []]
    let steps : List Session.Step :=
      [.register celsius ⟨some Codec.writeCelsius, some Codec.readCelsius⟩,
        .build true (some 8),
        .setSlot (.named "day") (noon 21),
        .into [("noon", .int 7)] false,
        .into [("noon", .object [("celsius", .int 7)])] true]
    ∃ failed done, (Session.run (.start .weather) steps)[3]? =
        some (.into (.error (.custom "no temperature")) (.named "day") (noon 21), failed) ∧
      failed.slot? = some (.named "day", noon 21) ∧
      (Session.run (.start .weather) steps)[4]? =
        some (.into (.ok ()) (.named "day") (noon 7), done) ∧
      done.slot? = some (.named "day", noon 7) ∧
      (∀ ty j info, ((ty, j), info) ∈ done.cache.entries →
        ∃ f, (Catalogue.weather.fields ty)[j]? = some f ∧ info = .ofField f) ∧
      failed.cache.size = 1 ∧ done.cache.size = 2 ∧ done.cache.Extends failed.cache ∧
      (done.step (.into [("noon", .object [("celsius", .int 7)])] true)).2.cache = done.cache := by
  intro celsius noon steps
  let hooks : List (Ty × Direction) :=
    [(celsius, .fromTree), (celsius, .toTree), (celsius, .fromTree)]
  have uses : ∀ st ∈ steps, st.Uses Hook.weather := by
    simp only [steps, List.forall_mem_cons]
    exact ⟨rfl, trivial, trivial, trivial, trivial, nofun⟩
  have listed (p : Ty × Direction) : p ∈ hooks ↔ p ∈ [(celsius, .toTree), (celsius, .fromTree)] := by
    simp only [hooks, List.mem_cons, List.not_mem_nil, or_false]
    tauto
  obtain ⟨outcome, failed, ran, plain, -, -, slot⟩ :=
    history_does_not_show .weather rfl uses (i := 3) rfl listed
  obtain ⟨outcome', done, ran', plain', ⟨genuine, -⟩, ⟨extended, again⟩, slot'⟩ :=
    history_does_not_show .weather rfl uses (i := 4) rfl listed
  cases congrArg Prod.fst (Option.some.inj (plain rfl).1)
  cases congrArg Prod.fst (Option.some.inj (plain' rfl).1)
  have before : (Session.start .weather).after (steps.take 4) = failed :=
    congrArg Prod.snd (Option.some.inj ran)
  have after : (Session.start .weather).after steps = done :=
    congrArg Prod.snd (Option.some.inj ran')
  refine ⟨failed, done, ran, slot _ _ _ _ rfl rfl, ran', slot' _ _ _ _ rfl rfl, genuine, ?_, ?_,
    before ▸ extended rfl, again rfl⟩
  · rw [← before]
    rfl
  · rw [← after]
    rfl

end TreeCodec
