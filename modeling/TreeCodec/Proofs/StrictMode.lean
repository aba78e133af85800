import TreeCodec.Proofs.Keys
import TreeCodec.Proofs.Simulation

/-!
# Strict conversions

A strict conversion differs from a lax one in what it notes, and what is noted decides
nothing until the datum is built. So a strict conversion fails as the lax one does, and
where the lax one succeeds it gives the same datum or reports unknown keys
(`strict_adds_only_report`). It follows from two simulations:

* `Simulation.sameValue`: the value of a reading depends neither on where it stands nor
  on what was noted before;
* `Simulation.lax`: a lax reading notes nothing, and its error is no report.
-/

namespace TreeCodec

/-! ## Computations with a cache -/

/-- The result of a computation that begins with a cache, and the cache after it. -/
def ConvertM.answer {α : Type} (x : ConvertM α) (cache : FieldCache) :
    Except Error α × FieldCache :=
  Id.run (x.run.run cache)

namespace ConvertM

variable {α β : Type}

theorem answer_bind (x : ConvertM α) (f : α → ConvertM β) (cache : FieldCache) :
    (x >>= f).answer cache =
      match x.answer cache with
      | (.ok v, cache') => (f v).answer cache'
      | (.error e, cache') => (.error e, cache') := by
  show Id.run (ExceptT.bindCont f (x cache).1 (x cache).2) = _
  rw [show x.answer cache = x cache from rfl]
  rcases x cache with ⟨_ | _, _⟩ <;> rfl

theorem answer_map (f : α → β) (x : ConvertM α) (cache : FieldCache) :
    (f <$> x).answer cache = ((x.answer cache).1.map f, (x.answer cache).2) := by
  rw [← bind_pure_comp, answer_bind]
  rcases x.answer cache with ⟨_ | _, _⟩ <;> rfl

theorem answer_ofExcept (r : Except Error α) (cache : FieldCache) :
    (MonadExcept.ofExcept r : ConvertM α).answer cache = (r, cache) := by
  cases r <;> rfl

theorem answer_fieldInfo (ty : Ty) (i : Nat) (f : Field) (cache : FieldCache) :
    (fieldInfo ty i f : ConvertM FieldInfo).answer cache =
      (.ok (cache.resolve ty i f).1, (cache.resolve ty i f).2) :=
  rfl

end ConvertM

/-! ## The value of a reading -/

section SameValue

variable {m : Type → Type} [Monad m] {α β : Type}

/-- Two noting computations with the same value, whatever was noted before each. -/
def SameValue (x y : StateT Audit m α) : Prop := ∀ a b, x.run' a = y.run' b

theorem SameValue.symm {x y : StateT Audit m α} (h : SameValue x y) : SameValue y x :=
  fun a b => (h b a).symm

theorem SameValue.trans {x y z : StateT Audit m α} (h : SameValue x y) (h' : SameValue y z) :
    SameValue x z :=
  fun a b => (h a a).trans (h' a b)

variable [LawfulMonad m]

theorem SameValue.lift (x : m α) : SameValue (StateT.lift x : StateT Audit m α) (StateT.lift x) :=
  fun a b => by simp [StateT.run'_eq]

/-- A continuation that does not look at the notes may as well begin without any. -/
theorem run'_bind_of_sameValue {x : StateT Audit m α} {f : α → StateT Audit m β}
    (hf : ∀ v, SameValue (f v) (f v)) (a : Audit) :
    (x >>= f).run' a = x.run' a >>= fun v => (f v).run' .empty := by
  simp only [StateT.run'_eq, StateT.run_bind, map_bind, bind_map_left]
  exact bind_congr fun p => by simpa only [StateT.run'_eq] using hf p.1 p.2 .empty

theorem SameValue.bind {x y : StateT Audit m α} {f g : α → StateT Audit m β} (hx : SameValue x y)
    (hf : ∀ v, SameValue (f v) (g v)) : SameValue (x >>= f) (y >>= g) := by
  intro a b
  rw [run'_bind_of_sameValue (fun v => (hf v).trans (hf v).symm) a,
    run'_bind_of_sameValue (fun v => (hf v).symm.trans (hf v)) b, hx a b]
  exact bind_congr fun v => hf v .empty .empty

theorem SameValue.map {x y : StateT Audit m α} (h : SameValue x y) (f : α → β) :
    SameValue (f <$> x) (f <$> y) := by
  rw [← bind_pure_comp, ← bind_pure_comp]
  exact h.bind fun v a b => by simp [StateT.run'_eq]

end SameValue

/-- Readings of the same depth have the same value, wherever they stand. -/
def Simulation.sameValue (m : Type → Type) [Monad m] [LawfulMonad m] [MonadExceptOf Error m]
    [MonadFields m] : Simulation m m where
  rel := SameValue
  place _ _ := True
  admits _ := True
  admits_local _ := trivial
  rel_pure v a b := by simp [StateT.run'_eq]
  rel_bind := .bind
  rel_throw {_ e} _ := SameValue.lift (MonadExceptOf.throw e)
  rel_fieldInfo {ty i f} _ := SameValue.lift (MonadFields.fieldInfo ty i f)
  place_enter _ _ := trivial
  place_inline _ := trivial
  rel_beginRecord _ a b := by simp [StateT.run'_eq]
  rel_askKey _ _ a b := by simp [StateT.run'_eq]
  rel_endRecord _ _ a b := by simp [StateT.run'_eq]

namespace Codec

variable {m : Type → Type} [Monad m] [LawfulMonad m] [MonadExceptOf Error m] [MonadFields m]

/-- The value of a reading depends neither on where it stands nor on what was noted. -/
theorem sameValue_decoder (cx : Codec) (depth : Nat) :
    (Simulation.sameValue m).Agree (decoder cx depth) (decoder cx depth) :=
  Simulation.decoder cx (fun _ _ _ _ _ _ => trivial) (fun _ _ _ _ _ _ => trivial) trivial depth

end Codec

/-! ## Lax readings -/

/-- A computation that notes nothing and whose error, if it ends in one, is no report. -/
def IsLax {α : Type} (x : StateT Audit ConvertM α) : Prop :=
  ∀ a cache, match (x.run a).answer cache with
    | (.ok (_, a'), _) => a' = a
    | (.error e, _) => e.kind ≠ .strictDecoding

theorem IsLax.bind {α β : Type} {x : StateT Audit ConvertM α} {f : α → StateT Audit ConvertM β}
    (hx : IsLax x) (hf : ∀ v, IsLax (f v)) : IsLax (x >>= f) := by
  intro a cache
  have h := hx a cache
  rw [StateT.run_bind, ConvertM.answer_bind]
  rcases hr : (x.run a).answer cache with ⟨e | ⟨v, a'⟩, cache'⟩
  · simpa only [hr] using h
  · simp only [hr] at h
    subst h
    exact hf v a' cache'

theorem isLax_modify {f : Audit → Audit} (h : ∀ a, f a = a) :
    IsLax (modify f : StateT Audit ConvertM PUnit) :=
  fun a _ => h a

/-- An error that is no report, whatever else it is. -/
theorem Error.kind_ne_of_isLocal {e : Error} (h : e.isLocal = true) : e.kind ≠ .strictDecoding := by
  cases e <;> simp_all [Error.isLocal, Error.kind]

/-- Lax readings note nothing and do not report. -/
def Simulation.lax : Simulation ConvertM ConvertM where
  rel x y := x = y ∧ IsLax x
  place s s' := s = s' ∧ s.strict = false
  admits e := e.kind ≠ .strictDecoding
  admits_local := Error.kind_ne_of_isLocal
  rel_pure _ := ⟨rfl, fun _ _ => rfl⟩
  rel_bind h hf := ⟨by rw [h.1, funext fun v => (hf v).1], h.2.bind fun v => (hf v).2⟩
  rel_throw h := ⟨rfl, fun _ _ => h⟩
  rel_fieldInfo _ := ⟨rfl, fun _ _ => rfl⟩
  place_enter segment h := ⟨by rw [h.1], h.2⟩
  place_inline h := ⟨by rw [h.1], h.2⟩
  rel_beginRecord h :=
    ⟨by rw [h.1], isLax_modify fun a => by simp [Scope.beginRecord, Scope.opensLevel, h.2]⟩
  rel_askKey _ h := ⟨by rw [h.1], isLax_modify fun a => by simp [Scope.askKey, h.2]⟩
  rel_endRecord _ h :=
    ⟨by rw [h.1], isLax_modify fun a => by simp [Scope.endRecord, Scope.opensLevel, h.2]⟩

/-- No hook reports unknown keys. So it is if hooks fail only with errors of their own. -/
def Registry.Reportless (r : Registry) : Prop :=
  ∀ ty hook, r.decoder? ty = some hook → ∀ x e, hook x = .error e → e.kind ≠ .strictDecoding

theorem Registry.reportless_initial : Registry.initial.Reportless := by
  intro ty hook h x e he
  by_cases ht : ty = .tree
  · subst ht
    cases h
    cases he
  · rw [decoder?_initial ht] at h
    cases h

/-- A hook that is added may fail with errors of its own. -/
theorem Registry.Reportless.register {r : Registry} (hr : r.Reportless) (ty : Ty) (new : Hook)
    (hn : ∀ hook, new.decode? = some hook → ∀ x e, hook x = .error e → e.kind ≠ .strictDecoding) :
    (r.register ty new).Reportless := by
  intro t hook h
  rw [decoder?_register] at h
  split at h
  · rcases hd : new.decode? with _ | own <;> rw [hd] at h
    · exact hr ty hook h
    · cases h
      exact hn hook hd
  · exact hr t hook h

theorem Codec.lax_decoder {cx : Codec} (hr : cx.registry.Reportless) (depth : Nat) :
    Simulation.lax.Agree (decoder cx depth) (decoder cx depth) := by
  have hooks : Simulation.lax.AdmitsHooks cx.registry := hr
  have limit : Simulation.lax.admits (.depthExceeded cx.maxDepth) := fun h => by cases h
  exact Simulation.decoder cx hooks (fun _ _ _ _ _ _ => trivial) limit depth

/-! ## Whole conversions -/

/-- What is left to a strict conversion, given the answer of a lax one from the same
cache. -/
inductive AddsOnlyReport : (lax strict : Except Error Datum × FieldCache) → Prop
  /-- It fails alike, and not with a report. -/
  | fails {e : Error} {cache : FieldCache} :
    e.kind ≠ .strictDecoding → AddsOnlyReport (.error e, cache) (.error e, cache)
  /-- It gives the same datum. -/
  | agrees {d : Datum} {cache : FieldCache} : AddsOnlyReport (.ok d, cache) (.ok d, cache)
  /-- It reports unknown keys in place of the datum, at least one. -/
  | reports {d : Datum} {cache : FieldCache} {p : Path} {ps : List Path} :
    AddsOnlyReport (.ok d, cache) (.error (.unknownFields (p :: ps)), cache)

namespace Codec

variable (cx : Codec) (ty : Ty)

theorem answer_build (read : StateT Audit ConvertM Datum) (cache : FieldCache) :
    (cx.build ty read).answer cache =
      match (read.run .empty).answer cache with
      | (.ok (d, a), cache') => (cx.accept ty d a, cache')
      | (.error e, cache') => (.error e, cache') := by
  rw [build, ConvertM.answer_bind]
  rcases (read.run .empty).answer cache with ⟨e | ⟨d, a⟩, cache'⟩
  · rfl
  · exact ConvertM.answer_ofExcept _ _

/-- A report names at least one key. -/
theorem accept_of_invariant {d : Datum} (h : cx.catalogue.invariant ty d = true) (a : Audit) :
    cx.accept ty d a = .ok d ∨ ∃ p ps, cx.accept ty d a = .error (.unknownFields (p :: ps)) := by
  rw [accept, if_pos h]
  split
  · exact .inl rfl
  · rename_i hne
    right
    rcases hl : a.report Error.unknownField with _ | ⟨p, ps⟩
    · have : (a.report Error.unknownField).length = a.unknown.length := List.length_mergeSort _
      rw [hl] at this
      simp [List.length_eq_zero_iff.mp this.symm] at hne
    · exact ⟨p, ps, rfl⟩

/-- Data built by a lax and by a strict reading with the same value. -/
theorem build_addsOnlyReport {lax strict : StateT Audit ConvertM Datum} (hl : IsLax lax)
    (hs : SameValue lax strict) (cache : FieldCache) :
    AddsOnlyReport ((cx.build ty lax).answer cache) ((cx.build ty strict).answer cache) := by
  have hv := congrArg (·.answer cache) (hs .empty .empty)
  have hq := hl .empty cache
  simp only [StateT.run'_eq, ConvertM.answer_map] at hv
  rw [answer_build, answer_build]
  rcases hx : (lax.run .empty).answer cache with ⟨e | ⟨d, a⟩, c⟩ <;>
    rcases hy : (strict.run .empty).answer cache with ⟨e' | ⟨d', a'⟩, c'⟩ <;>
    simp only [hx, hy, Except.map, Prod.mk.injEq, reduceCtorEq, false_and, Except.error.injEq,
      Except.ok.injEq] at hv hq
  · obtain ⟨rfl, rfl⟩ := hv
    exact .fails hq
  · obtain ⟨rfl, rfl⟩ := hv
    subst hq
    show AddsOnlyReport (cx.accept ty d .empty, c) (cx.accept ty d a', c)
    by_cases hi : cx.catalogue.invariant ty d = true
    · rw [show cx.accept ty d .empty = .ok d by rw [accept, if_pos hi]; rfl]
      rcases cx.accept_of_invariant ty hi a' with h | ⟨p, ps, h⟩
      · rw [h]
        exact .agrees
      · rw [h]
        exact .reports
    · have refused : ∀ b, cx.accept ty d b = .error (.unbuilt .invariant) := fun b => by
        rw [accept, if_neg hi]
      rw [refused, refused]
      exact .fails fun h => by cases h

end Codec

/-- A strict conversion, from a tree or from an object, and from any cache, differs from
the lax one only in that it may report unknown keys where the lax one succeeds. -/
theorem strict_adds_only_report (cx : Codec) (hr : cx.registry.Reportless) (ty : Ty)
    (cache : FieldCache) :
    (∀ x : Tree, AddsOnlyReport ((cx.fromTree false ty x : ConvertM Datum).answer cache)
      ((cx.fromTree true ty x : ConvertM Datum).answer cache)) ∧
    ∀ o : Object, AddsOnlyReport ((cx.fromObject false ty o : ConvertM Datum).answer cache)
      ((cx.fromObject true ty o : ConvertM Datum).answer cache) := by
  have hlax := Codec.lax_decoder hr cx.maxDepth
  have hsame := cx.sameValue_decoder (m := ConvertM) cx.maxDepth
  refine ⟨fun x => ?_, fun o => ?_⟩
  · exact cx.build_addsOnlyReport ty (hlax.tree ⟨rfl, rfl⟩ ty x).2 (hsame.tree trivial ty x) cache
  · rw [Codec.fromObject, Codec.fromObject]
    split
    · exact cx.build_addsOnlyReport ty (hlax.object ⟨rfl, rfl⟩ ty o).2 (hsame.object trivial ty o)
        cache
    · exact .fails fun h => by cases h

/-- Routes, read with a hook that refuses labels. -/
theorem strict_adds_only_report_route :
    ∃ cx : Codec, cx.registry.Reportless ∧ ∀ x : Tree,
      AddsOnlyReport ((cx.fromTree false (.named "stop") x : ConvertM Datum).answer .empty)
        ((cx.fromTree true (.named "stop") x : ConvertM Datum).answer .empty) := by
  have refuses : (Registry.initial.register .string
      { decode? := some fun _ => .error (.custom "no label") }).Reportless := by
    refine Registry.reportless_initial.register .string _ fun hook h x e he => ?_
    cases h
    cases he
    exact nofun
  refine ⟨⟨.route, _, 8⟩, refuses, ?_⟩
  exact (strict_adds_only_report ⟨.route, _, 8⟩ refuses (.named "stop") .empty).1

end TreeCodec
