import TreeCodec.Proofs.Correspondence
import TreeCodec.Proofs.StrictMode

/-!
# Field information from a cache

A conversion that looks field information up in a cache comes to what it comes to without
one, as long as the cache holds only what the declarations say (`FieldCache.Coherent`). It
only ever adds to the cache, and what it adds it finds when it is carried out again. That is
one relation between a conversion with a cache and the conversion without (`Reproduces`),
which the steps of a conversion keep:

* `Codec.reproduces_toTree`, `Codec.reproduces_toObject`, `Codec.reproduces_fromTree`,
  `Codec.reproduces_fromObject`: conversions;
* `Codec.reproduces_transcode`: several in a row, of which each may fail by itself.
-/

namespace TreeCodec

/-! ## Caches -/

namespace FieldCache

/-- A cache holds the information that the declarations give, once for each field. -/
structure Coherent (c : Catalogue) (cache : FieldCache) : Prop where
  genuine {ty : Ty} {i : Nat} {info : FieldInfo} : ((ty, i), info) ∈ cache.entries →
    ∃ f, (c.fields ty)[i]? = some f ∧ info = .ofField f
  distinct : (cache.entries.map Prod.fst).Nodup

theorem coherent_empty (c : Catalogue) : empty.Coherent c := ⟨nofun, .nil⟩

/-- A cache has all that another one has, behind what was added to that one. -/
def Extends (later cache : FieldCache) : Prop := cache.entries <:+ later.entries

theorem Extends.refl (cache : FieldCache) : cache.Extends cache := List.suffix_refl _

theorem Extends.trans {a b c : FieldCache} (h : b.Extends a) (h' : c.Extends b) : c.Extends a :=
  List.IsSuffix.trans h h'

variable {c : Catalogue} {cache : FieldCache} {ty : Ty} {i : Nat} {f : Field}

theorem mem_of_find? {info : FieldInfo} (h : cache.find? ty i = some info) :
    ((ty, i), info) ∈ cache.entries := by
  obtain ⟨before, after, split, -⟩ := List.lookup_eq_some_iff.mp h
  rw [split]
  simp

theorem find?_eq_none : cache.find? ty i = none ↔ (ty, i) ∉ cache.entries.map Prod.fst := by
  rw [find?, List.lookup_eq_none_iff]
  simp only [List.mem_map, not_exists, not_and, bne_iff_ne, ne_eq]
  exact ⟨fun h e he key => h e he key.symm, fun h e he key => h e he key.symm⟩

/-- A coherent cache answers with the information of the field that is asked for. -/
theorem Coherent.resolve_of_mem (h : cache.Coherent c) (field : (c.fields ty)[i]? = some f)
    (known : (ty, i) ∈ cache.entries.map Prod.fst) : cache.resolve ty i f = (.ofField f, cache) := by
  rcases found : cache.find? ty i with _ | info
  · exact absurd known (find?_eq_none.mp found)
  · obtain ⟨g, hg, rfl⟩ := h.genuine (mem_of_find? found)
    cases field.symm.trans hg
    rw [resolve, found]

/-- What a coherent cache does not know of a field it learns. -/
theorem Coherent.resolve (h : cache.Coherent c) (field : (c.fields ty)[i]? = some f) :
    ∃ cache', cache.resolve ty i f = (.ofField f, cache') ∧ cache'.Coherent c ∧
      cache'.Extends cache ∧ (ty, i) ∈ cache'.entries.map Prod.fst := by
  by_cases known : (ty, i) ∈ cache.entries.map Prod.fst
  · exact ⟨cache, h.resolve_of_mem field known, h, .refl cache, known⟩
  · refine ⟨⟨((ty, i), .ofField f) :: cache.entries⟩, ?_, ⟨?_, List.nodup_cons.mpr ⟨known, h.distinct⟩⟩,
      List.suffix_cons _ _, List.mem_cons_self⟩
    · rw [FieldCache.resolve, find?_eq_none.mpr known]
    · intro t j info he
      rcases List.mem_cons.mp he with new | old
      · cases new
        exact ⟨f, field, rfl⟩
      · exact h.genuine old

end FieldCache

/-! ## Computations -/

/-- What is attempted has its failure as its result. -/
theorem ConvertM.answer_attempt {α : Type} (x : ConvertM α) (cache : FieldCache) :
    (Codec.attempt x : ConvertM (Except Error α)).answer cache =
      (.ok (x.answer cache).1, (x.answer cache).2) := by
  rw [show x.answer cache = x cache from rfl]
  rcases hx : x cache with ⟨_ | _, _⟩ <;>
    simp only [Codec.attempt, answer, tryCatch, tryCatchThe, MonadExceptOf.tryCatch,
      ExceptT.tryCatch, StateT.run, ExceptT.run, bind, ExceptT.bind, StateT.bind, ExceptT.mk, hx] <;>
    rfl

theorem Codec.attempt_eq {α : Type} (y : Except Error α) : attempt y = .ok y := by
  cases y <;> rfl

/-- A computation with a cache comes to what one without comes to. It only adds to a
coherent cache, and it adds nothing when it is carried out again. -/
def Reproduces (c : Catalogue) {α : Type} (x : ConvertM α) (y : Except Error α) : Prop :=
  ∀ cache : FieldCache, cache.Coherent c → ∃ cache', x.answer cache = (y, cache') ∧
    cache'.Coherent c ∧ cache'.Extends cache ∧
    ∀ later, later.Coherent c → later.Extends cache' → x.answer later = (y, later)

namespace Reproduces

variable {c : Catalogue} {α β : Type}

/-- A computation that does not look at the cache. -/
theorem of_answer {x : ConvertM α} {y : Except Error α} (h : ∀ cache, x.answer cache = (y, cache)) :
    Reproduces c x y :=
  fun cache coherent => ⟨cache, h cache, coherent, .refl cache, fun later _ _ => h later⟩

theorem bind {x : ConvertM α} {y : Except Error α} {f : α → ConvertM β} {g : α → Except Error β}
    (h : Reproduces c x y) (hf : ∀ v, Reproduces c (f v) (g v)) :
    Reproduces c (x >>= f) (y >>= g) := by
  intro cache coherent
  obtain ⟨cache', first, coherent', extended, again⟩ := h cache coherent
  rcases y with e | v
  · refine ⟨cache', ?_, coherent', extended, fun later hl hext => ?_⟩
    · rw [ConvertM.answer_bind, first]
      rfl
    · rw [ConvertM.answer_bind, again later hl hext]
      rfl
  · obtain ⟨cache'', second, coherent'', extended', again'⟩ := hf v cache' coherent'
    refine ⟨cache'', ?_, coherent'', extended.trans extended', fun later hl hext => ?_⟩
    · rw [ConvertM.answer_bind, first]
      exact second
    · rw [ConvertM.answer_bind, again later hl (extended'.trans hext)]
      exact again' later hl hext

theorem fieldInfo {ty : Ty} {i : Nat} {f : Field} (field : (c.fields ty)[i]? = some f) :
    Reproduces c (MonadFields.fieldInfo ty i f) (MonadFields.fieldInfo ty i f) := by
  intro cache coherent
  obtain ⟨cache', resolved, coherent', extended, known⟩ := coherent.resolve field
  refine ⟨cache', ?_, coherent', extended, fun later hl hext => ?_⟩
  · rw [ConvertM.answer_fieldInfo, resolved]
    rfl
  · have known' : (ty, i) ∈ later.entries.map Prod.fst := (hext.map Prod.fst).subset known
    rw [ConvertM.answer_fieldInfo, hl.resolve_of_mem field known']
    rfl

/-- A computation whose failure is its result. -/
theorem attempt {x : ConvertM α} {y : Except Error α} (h : Reproduces c x y) :
    Reproduces c (Codec.attempt x) (Codec.attempt y) := by
  intro cache coherent
  obtain ⟨cache', first, coherent', extended, again⟩ := h cache coherent
  rw [Codec.attempt_eq]
  refine ⟨cache', ?_, coherent', extended, fun later hl hext => ?_⟩
  · rw [ConvertM.answer_attempt, first]
  · rw [ConvertM.answer_attempt, again later hl hext]

end Reproduces

/-! ## Conversions -/

/-- Conversions with a cache beside conversions without. -/
def Correspondence.reproduces (c : Catalogue) : Correspondence ConvertM (Except Error) where
  rel := Reproduces c
  admits _ := True
  admits_of_kind _ := trivial
  knows ty i f := (c.fields ty)[i]? = some f
  rel_pure _ := .of_answer fun _ => rfl
  rel_bind := .bind
  rel_throw _ := .of_answer fun _ => rfl
  rel_fieldInfo := .fieldInfo

namespace Codec

variable (cx : Codec)

/-- A conversion asks for the information of declared fields only. -/
theorem admits_reproduces : (Correspondence.reproduces cx.catalogue).Admits cx where
  hooks := ⟨fun _ _ _ _ => trivial, fun _ _ _ _ => trivial⟩
  fields name fs body i f hf := by
    show (cx.catalogue.fields (.named name))[i]? = some f
    simpa only [Catalogue.fields, body] using hf
  limit := trivial

theorem reproduces_toTree (ty : Ty) (d : Datum) :
    Reproduces cx.catalogue (cx.toTree ty d) (cx.toTree ty d) :=
  Correspondence.toTree cx.admits_reproduces ty d

theorem reproduces_toObject (ty : Ty) (d : Datum) :
    Reproduces cx.catalogue (cx.toObject ty d) (cx.toObject ty d) :=
  Correspondence.toObject cx.admits_reproduces ty d

theorem reproduces_fromTree (strict : Bool) (ty : Ty) (x : Tree) :
    Reproduces cx.catalogue (cx.fromTree strict ty x) (cx.fromTree strict ty x) :=
  Correspondence.fromTree cx.admits_reproduces strict ty x

theorem reproduces_fromObject (strict : Bool) (ty : Ty) (o : Object) :
    Reproduces cx.catalogue (cx.fromObject strict ty o) (cx.fromObject strict ty o) :=
  Correspondence.fromObject cx.admits_reproduces strict ty o

theorem reproduces_transcode (strict : Bool) (src dst : Ty) (d : Datum) :
    Reproduces cx.catalogue (cx.transcode strict src dst d) (cx.transcode strict src dst d) := by
  refine (cx.reproduces_toTree src d).attempt.bind fun r => ?_
  rcases r with e | t
  · exact .of_answer fun _ => rfl
  refine (cx.reproduces_fromTree strict dst t).attempt.bind fun r => ?_
  rcases r with e | d'
  · exact .of_answer fun _ => rfl
  · exact (cx.reproduces_toTree dst d').attempt.bind fun back => .of_answer fun _ => rfl

end Codec

end TreeCodec
