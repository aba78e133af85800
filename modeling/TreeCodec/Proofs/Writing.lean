import TreeCodec.Codec

/-!
# What is put into an object

Fields and entries are written into an object one after another. Each of them puts some
entries there, whatever the object holds already:

* `Codec.contribution`: the entries of one field, none of them if it is left out;
* `Codec.encodeFields_eq`: the object of a record is put together from the entries of its
  fields;
* `Codec.encodeEntries_eq`: so is the object of a map from its entries.

Wrappers without hooks put nothing of their own anywhere: what is written is what
`Catalogue.peel` leaves of a datum (`Codec.encode_peel`).
-/

namespace TreeCodec

/-- Entries under different keys are put together in some order. -/
theorem Object.perm_ofList {es : List (String × Tree)} (h : (es.map (·.1)).Nodup) :
    (ofList es).Perm es := by
  have general : ∀ (o : Object) (es : List (String × Tree)), (es.map (·.1)).Nodup →
      (∀ k ∈ es.map (·.1), k ∉ o.keys) → (extend o es).Perm (es ++ o) := by
    intro o es
    induction es generalizing o with
    | nil => exact fun _ _ => .refl _
    | cons e es ih =>
      intro nodup fresh
      rw [List.map_cons, List.nodup_cons] at nodup
      have rest := ih (o.insert e.1 e.2) nodup.2 fun k hk hm => by
        rcases (mem_keys_insert o e.1 e.2 k).mp hm with rfl | hm
        · exact nodup.1 hk
        · exact fresh k (List.mem_cons_of_mem _ hk) hm
      refine rest.trans ?_
      have placed := perm_insert e.2 (fresh e.1 List.mem_cons_self)
      exact (placed.append_left es).trans List.perm_middle
  have all := general [] es h fun _ _ hm => by cases hm
  rwa [List.append_nil] at all

/-- What is in an object was put there. -/
theorem Object.mem_of_mem_ofList {e : String × Tree} {es : List (String × Tree)}
    (h : e ∈ ofList es) : e ∈ es := by
  have inserted {o : Object} {key : String} {t : Tree} (h : e ∈ o.insert key t) :
      e = (key, t) ∨ e ∈ o := by
    induction o with
    | nil => exact .inl (List.mem_singleton.mp h)
    | cons e' rest ih =>
      simp only [Object.insert] at h
      split at h
      · exact List.mem_cons.mp h
      · split at h
        · exact (List.mem_cons.mp h).imp id (List.mem_cons_of_mem _)
        · rcases List.mem_cons.mp h with rfl | h
          · exact .inr List.mem_cons_self
          · exact (ih h).imp id (List.mem_cons_of_mem _)
  have general (o : Object) (es : List (String × Tree)) (h : e ∈ extend o es) : e ∈ es ∨ e ∈ o := by
    induction es generalizing o with
    | nil => exact .inr h
    | cons e' es ih =>
      rcases ih (o.insert e'.1 e'.2) h with h | h
      · exact .inl (List.mem_cons_of_mem _ h)
      · rcases inserted h with rfl | h
        · exact .inl List.mem_cons_self
        · exact .inr h
  exact (general [] es h).resolve_right List.not_mem_nil

namespace Codec

variable (cx : Codec) (encode : Ty → Datum → Except Error Tree)

/-! ## Fields -/

/-- The entries that a field's tree puts into the object of its record. -/
def entriesOf (f : Field) (t : Tree) : Except Error (List (String × Tree)) :=
  if f.inline then
    match t with
    | .object es => .ok es
    | .null => .ok []
    | t => .error (.mismatch (.inlined t.kind))
  else if f.omitEmpty && t.isNull then .ok []
  else .ok [(f.key, t)]

/-- The entries that a field puts into the object of its record. -/
def contribution (f : Field) (d : Datum) : Except Error (List (String × Tree)) :=
  if f.skipped || (f.omitEmpty && cx.catalogue.isZero f.ty d) then .ok []
  else encode f.ty d >>= entriesOf f

/-- The entries that several fields put there, one after another. -/
def contributions (ty : Ty) : List Field → List Datum → Except Error (List (String × Tree))
  | f :: fs, d :: ds => do
    let es ← cx.contribution encode f d
    let rest ← contributions ty fs ds
    return es ++ rest
  | [], [] => .ok []
  | _, _ => .error (.unbuilt (.mistyped ty))

theorem entriesOf_inlined {f : Field} (inline : f.inline = true) (es : Object) :
    entriesOf f (.object es) = .ok es := by
  rw [entriesOf, if_pos inline]

theorem entriesOf_apart {f : Field} (apart : f.inline = false) (t : Tree) :
    entriesOf f t = if f.omitEmpty && t.isNull then .ok [] else .ok [(f.key, t)] := by
  simp only [entriesOf, apart, Bool.false_eq_true, if_false]

theorem place_eq {f : Field} (kept : f.skipped = false) (o : Object) (t : Tree) :
    place (.ofField f) o t = (entriesOf f t).map o.extend := by
  rcases hi : f.inline with _ | _
  · rw [entriesOf_apart hi]
    simp only [place, FieldInfo.ofField, hi, kept, Bool.false_or, Bool.false_eq_true, if_false]
    split <;> rfl
  · simp only [place, FieldInfo.ofField, entriesOf, hi, if_true]
    cases t <;> rfl

theorem encodeField_eq (ty : Ty) (i : Nat) (f : Field) (d : Datum) (o : Object) :
    encodeField cx encode ty i f d o = (cx.contribution encode f d).map o.extend := by
  show (if f.skipped || (f.omitEmpty && cx.catalogue.isZero f.ty d) then Except.ok o
    else encode f.ty d >>= fun t => MonadExcept.ofExcept (place (.ofField f) o t)) = _
  rw [contribution]
  split
  · rfl
  · rename_i out
    have kept : f.skipped = false := by
      rw [Bool.or_eq_true, not_or, Bool.not_eq_true] at out
      exact out.1
    rcases encode f.ty d with e | t
    · rfl
    · show MonadExcept.ofExcept (place (.ofField f) o t) = (entriesOf f t).map o.extend
      rw [place_eq kept]
      rcases entriesOf f t with e | es <;> rfl

/-- A record's object is put together from what its fields contribute. -/
theorem encodeFields_eq (ty : Ty) (i : Nat) (fs : List Field) (ds : List Datum) (o : Object) :
    encodeFields cx encode ty i fs ds o = (cx.contributions encode ty fs ds).map o.extend := by
  induction fs generalizing i ds o with
  | nil => cases ds <;> rfl
  | cons f fs ih =>
    cases ds with
    | nil => rfl
    | cons d ds =>
      rw [encodeFields, encodeField_eq, contributions]
      rcases cx.contribution encode f d with e | es
      · rfl
      · show encodeFields cx encode ty (i + 1) fs ds (o.extend es) =
          (cx.contributions encode ty fs ds >>= fun rest => .ok (es ++ rest)).map o.extend
        rw [ih]
        rcases cx.contributions encode ty fs ds with e | rest
        · rfl
        · exact congrArg Except.ok (Object.extend_append o es rest).symm

theorem contributions_append (ty : Ty) {gs fs : List Field} {es ds : List Datum}
    (h : gs.length = es.length) :
    cx.contributions encode ty (gs ++ fs) (es ++ ds) = (do
      let ps ← cx.contributions encode ty gs es
      let qs ← cx.contributions encode ty fs ds
      return ps ++ qs) := by
  induction gs generalizing es with
  | nil =>
    rw [List.length_eq_zero_iff.mp h.symm]
    exact (bind_pure (cx.contributions encode ty fs ds)).symm
  | cons g gs ih =>
    cases es with
    | nil => cases h
    | cons e es =>
      rw [List.cons_append, List.cons_append, contributions, contributions, ih (Nat.succ.inj h)]
      simp only [bind_assoc]
      refine bind_congr fun ps => bind_congr fun ps' => bind_congr fun qs => ?_
      exact congrArg Except.ok (List.append_assoc ..).symm

/-- Fields are written one after another, at any position. -/
theorem encodeFields_append (ty : Ty) (i : Nat) {gs fs : List Field} {es ds : List Datum} (o : Object)
    (h : gs.length = es.length) :
    encodeFields cx encode ty i (gs ++ fs) (es ++ ds) o = (do
      let o ← encodeFields cx encode ty i gs es o
      encodeFields cx encode ty i fs ds o) := by
  simp only [encodeFields_eq, contributions_append cx encode ty h]
  rcases cx.contributions encode ty gs es with e | ps
  · rfl
  · show _ = (cx.contributions encode ty fs ds).map (o.extend ps).extend
    rcases cx.contributions encode ty fs ds with e | qs
    · rfl
    · exact congrArg Except.ok (Object.extend_append o ps qs)

/-- Fields leave an object in order. -/
theorem sorted_encodeFields {ty : Ty} {i : Nat} {fs : List Field} {ds : List Datum} {o o' : Object}
    (sorted : o.Sorted) (h : encodeFields cx encode ty i fs ds o = .ok o') : o'.Sorted := by
  rw [encodeFields_eq] at h
  rcases hc : cx.contributions encode ty fs ds with e | es <;> rw [hc] at h <;> cases h
  exact sorted.extend es

/-! ## Entries of maps -/

/-- The entries that the entries of a map put into its object, one after another. -/
def mapEntries (encode : Datum → Except Error Tree) (key : Ty) :
    List (Datum × Datum) → Except Error (List (String × Tree))
  | [] => .ok []
  | (k, d) :: rest =>
    match cx.catalogue.text? key k with
    | none => .error (.mismatch (.keyType (cx.catalogue.peel key k).1))
    | some s => do
      let t ← encode d
      let es ← mapEntries encode key rest
      return (s, t) :: es

theorem encodeEntries_eq (encode : Datum → Except Error Tree) (key : Ty)
    (es : List (Datum × Datum)) (o : Object) :
    encodeEntries cx encode key o es = (cx.mapEntries encode key es).map o.extend := by
  induction es generalizing o with
  | nil => rfl
  | cons e es ih =>
    obtain ⟨k, d⟩ := e
    rw [encodeEntries, mapEntries]
    rcases cx.catalogue.text? key k with _ | s
    · rfl
    · rcases encode d with e | t
      · rfl
      · show encodeEntries cx encode key (o.insert s t) es =
          (cx.mapEntries encode key es >>= fun rest => .ok ((s, t) :: rest)).map o.extend
        rw [ih]
        rcases cx.mapEntries encode key es with e | rest <;> rfl

/-! ## Items -/

/-- Items are members that are all of one type. -/
theorem encodeItems_eq (ty t : Ty) (ds : List Datum) :
    encodeItems (encode t) ds = encodeMembers encode ty (.replicate ds.length t) ds := by
  induction ds with
  | nil => rfl
  | cons d ds ih =>
    rw [encodeItems, ih]
    rfl

end Codec

namespace Codec

variable {cx : Codec}

/-! ## What is written of a layer -/

/-- What follows a computation succeeds only if the computation does. -/
theorem of_bind_ok {α β : Type} {x : Except Error α} {f : α → Except Error β} {w : β}
    (h : x >>= f = .ok w) : ∃ v, x = .ok v ∧ f v = .ok w := by
  rcases x with e | v
  · cases h
  · exact ⟨v, rfl, h⟩

section Layers

variable {encode : Ty → Datum → Except Error Tree} {name : String} {x : Tree}

theorem of_encode_record {fs : List Field} {ds : List Datum}
    (body : cx.catalogue.body? name = some (.record fs))
    (h : encodeLayer cx encode (.named name) (.product ds) = .ok x) :
    ∃ es, cx.contributions encode (.named name) fs ds = .ok es ∧ x = .object (Object.ofList es) := by
  simp only [encodeLayer, body, encodeDeclared, encodeFields_eq] at h
  obtain ⟨o, ho, h⟩ := of_bind_ok h
  rcases hc : cx.contributions encode (.named name) fs ds with e | es <;> rw [hc] at ho <;> cases ho
  cases h
  exact ⟨es, rfl, rfl⟩

theorem of_encode_map {a : Arrangement} {key value : Ty} {es : List (Datum × Datum)}
    (h : encodeLayer cx encode (.map a key value) (.map es) = .ok x) :
    ∃ ps, cx.mapEntries (encode value) key es = .ok ps ∧ x = .object (Object.ofList ps) := by
  simp only [encodeLayer, encodeEntries_eq] at h
  obtain ⟨o, ho, h⟩ := of_bind_ok h
  rcases hm : cx.mapEntries (encode value) key es with e | ps <;> rw [hm] at ho <;> cases ho
  cases h
  exact ⟨ps, rfl, rfl⟩

theorem of_encode_list {t : Ty} {ds : List Datum} (items : (Ty.list t).isBytes = false)
    (h : encodeLayer cx encode (.list t) (.seq ds) = .ok x) :
    ∃ xs, encodeMembers encode (.list t) (.replicate ds.length t) ds = .ok xs ∧ x = .array xs := by
  simp only [encodeLayer, items, encodeItems_eq encode (.list t)] at h
  obtain ⟨xs, hxs, h⟩ := of_bind_ok h
  cases h
  exact ⟨xs, hxs, rfl⟩

theorem of_encode_bytes {t : Ty} {ds : List Datum} (bytes : (Ty.list t).isBytes = true)
    (h : encodeLayer cx encode (.list t) (.seq ds) = .ok x) : encodeBytes (.list t) ds = .ok x := by
  simp only [encodeLayer, bytes, if_true] at h
  rcases hb : encodeBytes (.list t) ds with e | y <;> rw [hb] at h <;> cases h
  rfl

theorem of_encode_variant {vs : List Variant} {d : Datum}
    (body : cx.catalogue.body? name = some (.enumeration vs))
    (h : encodeLayer cx encode (.named name) d = .ok x) : encodeVariant (.named name) vs d = .ok x := by
  simp only [encodeLayer, body, encodeDeclared] at h
  rcases hv : encodeVariant (.named name) vs d with e | y <;> rw [hv] at h <;> cases h
  rfl

theorem of_encode_array {t : Ty} {n : Nat} {ds : List Datum}
    (h : encodeLayer cx encode (.array t n) (.seq ds) = .ok x) :
    ∃ xs, encodeMembers encode (.array t n) (.replicate ds.length t) ds = .ok xs ∧ x = .array xs := by
  simp only [encodeLayer, encodeItems_eq encode (.array t n)] at h
  obtain ⟨xs, hxs, h⟩ := of_bind_ok h
  cases h
  exact ⟨xs, hxs, rfl⟩

theorem of_encode_tuple {ts : List Ty} {ds : List Datum}
    (h : encodeLayer cx encode (.tuple ts) (.product ds) = .ok x) :
    ∃ xs, encodeMembers encode (.tuple ts) ts ds = .ok xs ∧ x = .array xs := by
  obtain ⟨xs, hxs, h⟩ := of_bind_ok h
  cases h
  exact ⟨xs, hxs, rfl⟩

theorem of_encode_positional {fs : List Field} {ds : List Datum}
    (body : cx.catalogue.body? name = some (.tuple fs))
    (h : encodeLayer cx encode (.named name) (.product ds) = .ok x) :
    ∃ xs, encodeMembers encode (.named name) (fs.map Field.ty) ds = .ok xs ∧ x = .array xs := by
  simp only [encodeLayer, body, encodeDeclared] at h
  obtain ⟨xs, hxs, h⟩ := of_bind_ok h
  cases h
  exact ⟨xs, hxs, rfl⟩

end Layers

end Codec

/-! ## Wrappers -/

/-- Whether `Catalogue.peel` leaves a type behind: a wrapper or an option. -/
def Catalogue.isPeeled (c : Catalogue) : Ty → Bool
  | .option _ => true
  | ty => (c.inner? ty).isSome

/-- Below wrappers and options, none or more of them, stands a type. -/
inductive Catalogue.PeelsTo (c : Catalogue) : Ty → Ty → Prop
  | here (ty : Ty) : PeelsTo c ty ty
  | inner {ty t u : Ty} (inner : c.inner? ty = some t) (h : PeelsTo c t u) : PeelsTo c ty u
  | option {t u : Ty} (h : PeelsTo c t u) : PeelsTo c (.option t) u

namespace Codec

/-- Peeling a type leaves no hook behind. -/
def PeelsFreely (cx : Codec) (ty : Ty) : Prop :=
  ∀ t, cx.catalogue.PeelsTo ty t → cx.catalogue.isPeeled t = true → cx.registry.encoder? t = none

variable {cx : Codec}

/-- A newtype is written as what is below all wrappers, whatever hooks these have. -/
theorem encode_newtype_peel {name : String} {t : Ty}
    (hook : cx.registry.encoder? (.named name) = none)
    (body : cx.catalogue.body? name = some (.newtype t)) (depth : Nat) (d : Datum) :
    (encode cx (depth + 1) (.named name) (.wrapped d) : Except Error Tree) =
      encode cx depth (cx.catalogue.peel t d).1 (cx.catalogue.peel t d).2 := by
  have inner := Catalogue.inner?_newtype body
  rw [encode, encodeStep, hook]
  simp only [encodeLayer, body, encodeDeclared, Catalogue.peel, inner]

/-- A wrapper without hook is written as what is right below it, or else as what is below
all wrappers. -/
theorem encode_wrapped {ty t : Ty} (hook : cx.registry.encoder? ty = none)
    (inner : cx.catalogue.inner? ty = some t) :
    (∀ depth d, (encode cx (depth + 1) ty (.wrapped d) : Except Error Tree) =
      encode cx depth t d) ∨
    ∀ depth d, (encode cx (depth + 1) ty (.wrapped d) : Except Error Tree) =
      encode cx depth (cx.catalogue.peel t d).1 (cx.catalogue.peel t d).2 := by
  have step (depth : Nat) (d : Datum) : (encode cx (depth + 1) ty (.wrapped d) : Except Error Tree) =
      encodeLayer cx (encode cx depth) ty (.wrapped d) := by
    rw [encode, encodeStep, hook]
  cases ty with
  | nonZero k => cases inner; exact .inl step
  | pointer p u => cases p <;> cases inner <;> exact .inl step
  | named name =>
    right
    rcases body : cx.catalogue.body? name with _ | b
    · simp [Catalogue.inner?, body] at inner
    · cases b with
      | newtype u =>
        rw [Catalogue.inner?_newtype body] at inner
        cases inner
        exact encode_newtype_peel hook body
      | _ => simp [Catalogue.inner?, body] at inner
  | _ => cases inner

/-- What is below wrappers without hooks is written as it is by itself, some layers up. -/
theorem encode_peel {ty : Ty} (free : cx.PeelsFreely ty) (depth : Nat) (d : Datum) :
    ∃ k, (encode cx (depth + k) ty d : Except Error Tree) =
      encode cx depth (cx.catalogue.peel ty d).1 (cx.catalogue.peel ty d).2 := by
  induction ty, d using Catalogue.peel.induct cx.catalogue with
  | case1 ty d t inner ih =>
    obtain ⟨k, hk⟩ := ih fun u below => free u (.inner inner below)
    have peeled : cx.catalogue.peel ty (.wrapped d) = cx.catalogue.peel t d := by
      simp [Catalogue.peel, inner]
    have left : cx.catalogue.isPeeled ty = true := by cases ty <;> simp_all [Catalogue.isPeeled]
    rw [peeled]
    rcases encode_wrapped (free ty (.here ty) left) inner with h | h
    · exact ⟨k + 1, (h (depth + k) d).trans hk⟩
    · exact ⟨1, h depth d⟩
  | case2 ty d inner => exact ⟨0, by simp [Catalogue.peel, inner]⟩
  | case3 d t ih =>
    obtain ⟨k, hk⟩ := ih fun u below => free u (.option below)
    refine ⟨k + 1, Eq.trans ?_ hk⟩
    show encode cx (depth + k + 1) (.option t) (.present d) = _
    rw [encode, encodeStep, free _ (.here _) rfl]
    rfl
  | case4 ty d other => exact ⟨0, by cases ty <;> simp_all [Catalogue.peel]⟩
  | case5 ty d other other' => exact ⟨0, by cases d <;> simp_all [Catalogue.peel]⟩

end Codec

end TreeCodec
