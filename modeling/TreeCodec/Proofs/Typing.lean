import Mathlib.Data.List.Forall2
import TreeCodec.Decl

/-!
# Data of a type

A datum does not carry its type; which data are a type's is said here.

* `HasType`: the data of a type. Maps list their entries in any order, under keys that
  are told apart;
* `Datum.height`: how many layers a datum is high;
* `Datum.Same`: data that differ at most in the order in which maps list their entries.
-/

namespace TreeCodec

/-! ## Typing -/

mutual

/-- The data of a type. Invariants are not looked at. -/
inductive HasType (c : Catalogue) : Ty → Datum → Prop
  | bool (b : Bool) : HasType c .bool (.bool b)
  | char (x : Char) : HasType c .char (.char x)
  | int {k : IntTy} {n : Int} (hn : k.contains n = true) : HasType c (.int k) (.int n)
  | float32 (x : Binary32) : HasType c .float32 (.float32 x)
  | float64 (x : Binary64) : HasType c .float64 (.float64 x)
  | string (s : String) : HasType c .string (.text s)
  | borrowedText (s : String) : HasType c .borrowedText (.text s)
  | opaqueScalar (k : Opaque) (s : String) : HasType c (.opaqueScalar k) (.text s)
  | tree (t : Tree) : HasType c .tree (.tree t)
  | nonZero {k : IntTy} {n : Int} (hn : k.contains n = true) (h0 : n ≠ 0) :
    HasType c (.nonZero k) (.wrapped (.int n))
  | absent (t : Ty) : HasType c (.option t) .absent
  | present {t : Ty} {d : Datum} (h : HasType c t d) : HasType c (.option t) (.present d)
  | pointer (p : Pointer) {t : Ty} {d : Datum} (h : HasType c t d) :
    HasType c (.pointer p t) (.wrapped d)
  /-- What a weak pointer pointed to is gone. -/
  | gone (t : Ty) : HasType c (.pointer .weak t) .absent
  | slice {t : Ty} {ds : List Datum} (h : ∀ d ∈ ds, HasType c t d) : HasType c (.slice t) (.seq ds)
  | list {t : Ty} {ds : List Datum} (h : ∀ d ∈ ds, HasType c t d) : HasType c (.list t) (.seq ds)
  | array {t : Ty} {ds : List Datum} (h : ∀ d ∈ ds, HasType c t d) :
    HasType c (.array t ds.length) (.seq ds)
  | set (a : Arrangement) {t : Ty} {ds : List Datum} (h : ∀ d ∈ ds, HasType c t d) :
    HasType c (.set a t) (.seq ds)
  | map (a : Arrangement) {key value : Ty} {es : List (Datum × Datum)}
    (distinct : (es.map Prod.fst).Nodup) (hk : ∀ e ∈ es, HasType c key e.1)
    (hv : ∀ e ∈ es, HasType c value e.2) : HasType c (.map a key value) (.map es)
  | tuple {ts : List Ty} {ds : List Datum} (h : HasTypes c ts ds) : HasType c (.tuple ts) (.product ds)
  | newtype {name : String} {t : Ty} {d : Datum} (body : c.body? name = some (.newtype t))
    (h : HasType c t d) : HasType c (.named name) (.wrapped d)
  | record {name : String} {fs : List Field} {ds : List Datum}
    (body : c.body? name = some (.record fs)) (h : HasTypes c (fs.map Field.ty) ds) :
    HasType c (.named name) (.product ds)
  | positional {name : String} {fs : List Field} {ds : List Datum}
    (body : c.body? name = some (.tuple fs)) (h : HasTypes c (fs.map Field.ty) ds) :
    HasType c (.named name) (.product ds)
  | variant {name : String} {vs : List Variant} {v : Variant} {i : Nat} {ds : List Datum}
    (body : c.body? name = some (.enumeration vs)) (hv : vs[i]? = some v)
    (h : HasTypes c v.payload ds) : HasType c (.named name) (.variant i ds)

/-- The data of several types, one each. -/
inductive HasTypes (c : Catalogue) : List Ty → List Datum → Prop
  | nil : HasTypes c [] []
  | cons {t : Ty} {ts : List Ty} {d : Datum} {ds : List Datum} (h : HasType c t d)
    (hs : HasTypes c ts ds) : HasTypes c (t :: ts) (d :: ds)

end

/-- Data that are all of one type. -/
theorem HasTypes.replicate {c : Catalogue} {t : Ty} {ds : List Datum} (h : ∀ d ∈ ds, HasType c t d) :
    HasTypes c (.replicate ds.length t) ds := by
  induction ds with
  | nil => exact .nil
  | cons d ds ih =>
    exact .cons (h d List.mem_cons_self) (ih fun e he => h e (List.mem_cons_of_mem _ he))

theorem HasTypes.append {c : Catalogue} {ts us : List Ty} {ds es : List Datum} (h : HasTypes c ts ds)
    (h' : HasTypes c us es) : HasTypes c (ts ++ us) (ds ++ es) := by
  induction ds generalizing ts with
  | nil => cases h; exact h'
  | cons d ds ih =>
    cases h with
    | cons hd hds => exact .cons hd (ih hds)

theorem HasTypes.length_eq {c : Catalogue} {ts : List Ty} {ds : List Datum} (h : HasTypes c ts ds) :
    ts.length = ds.length := by
  induction ds generalizing ts with
  | nil => cases h; rfl
  | cons d ds ih =>
    cases h with
    | cons _ hds => exact congrArg (· + 1) (ih hds)

theorem HasTypes.append_inv {c : Catalogue} {ts us : List Ty} {ds es : List Datum}
    (h : HasTypes c (ts ++ us) (ds ++ es)) (length : ts.length = ds.length) :
    HasTypes c ts ds ∧ HasTypes c us es := by
  induction ds generalizing ts with
  | nil =>
    rw [List.length_eq_zero_iff.mp length] at h ⊢
    exact ⟨.nil, h⟩
  | cons d ds ih =>
    cases ts with
    | nil => cases length
    | cons t ts =>
      cases h with
      | cons hd hds =>
        obtain ⟨first, last⟩ := ih hds (Nat.succ.inj length)
        exact ⟨.cons hd first, last⟩

theorem HasTypes.get {c : Catalogue} {ts : List Ty} {ds : List Datum} (h : HasTypes c ts ds) {i : Nat}
    {t : Ty} {d : Datum} (ht : ts[i]? = some t) (hd : ds[i]? = some d) : HasType c t d := by
  induction ds generalizing ts i with
  | nil => cases hd
  | cons e ds ih =>
    cases h with
    | cons he hds =>
      cases i with
      | zero =>
        cases ht
        cases hd
        exact he
      | succ i => exact ih hds ht hd

namespace HasType

variable {c : Catalogue} {name : String} {d : Datum}

theorem newtype_inv {t : Ty} (h : HasType c (.named name) d) (body : c.body? name = some (.newtype t)) :
    ∃ e, d = .wrapped e ∧ HasType c t e := by
  cases h with
  | newtype body' h => cases body.symm.trans body'; exact ⟨_, rfl, h⟩
  | record body' => simp [body] at body'
  | positional body' => simp [body] at body'
  | variant body' => simp [body] at body'

theorem record_inv {fs : List Field} (h : HasType c (.named name) d)
    (body : c.body? name = some (.record fs)) :
    ∃ ds, d = .product ds ∧ HasTypes c (fs.map Field.ty) ds := by
  cases h with
  | newtype body' => simp [body] at body'
  | record body' h => cases body.symm.trans body'; exact ⟨_, rfl, h⟩
  | positional body' => simp [body] at body'
  | variant body' => simp [body] at body'

theorem positional_inv {fs : List Field} (h : HasType c (.named name) d)
    (body : c.body? name = some (.tuple fs)) :
    ∃ ds, d = .product ds ∧ HasTypes c (fs.map Field.ty) ds := by
  cases h with
  | newtype body' => simp [body] at body'
  | record body' => simp [body] at body'
  | positional body' h => cases body.symm.trans body'; exact ⟨_, rfl, h⟩
  | variant body' => simp [body] at body'

theorem variant_inv {vs : List Variant} (h : HasType c (.named name) d)
    (body : c.body? name = some (.enumeration vs)) :
    ∃ i v ds, d = .variant i ds ∧ vs[i]? = some v ∧ HasTypes c v.payload ds := by
  cases h with
  | newtype body' => simp [body] at body'
  | record body' => simp [body] at body'
  | positional body' => simp [body] at body'
  | variant body' hv h => cases body.symm.trans body'; exact ⟨_, _, _, rfl, hv, h⟩

end HasType

/-! ## Height -/

namespace Datum

mutual

/-- The number of layers of a datum. -/
def height : Datum → Nat
  | present d => d.height + 1
  | wrapped d => d.height + 1
  | seq items => heights items + 1
  | product members => heights members + 1
  | map entries => entryHeights entries + 1
  | variant _ payload => heights payload + 1
  | _ => 1

/-- The height of the highest of several data. -/
def heights : List Datum → Nat
  | [] => 0
  | d :: ds => Nat.max d.height (heights ds)

/-- The height of the highest value of several entries. -/
def entryHeights : List (Datum × Datum) → Nat
  | [] => 0
  | (_, d) :: es => Nat.max d.height (entryHeights es)

end

theorem height_pos (d : Datum) : 0 < d.height := by
  cases d <;> simp [height]

theorem height_le_of_mem {d : Datum} {ds : List Datum} (h : d ∈ ds) : d.height ≤ heights ds := by
  induction ds with
  | nil => cases h
  | cons e ds ih =>
    rw [heights]
    rcases List.mem_cons.mp h with rfl | h
    · exact Nat.le_max_left ..
    · exact Nat.le_trans (ih h) (Nat.le_max_right ..)

theorem heights_append (ds es : List Datum) : heights (ds ++ es) = max (heights ds) (heights es) := by
  induction ds with
  | nil => rw [List.nil_append, heights, Nat.zero_max]
  | cons d ds ih =>
    rw [List.cons_append, heights, heights, ih]
    exact (Nat.max_assoc ..).symm

theorem height_le_of_mem_entries {e : Datum × Datum} {es : List (Datum × Datum)} (h : e ∈ es) :
    e.2.height ≤ entryHeights es := by
  induction es with
  | nil => cases h
  | cons e' es ih =>
    rw [entryHeights]
    rcases List.mem_cons.mp h with rfl | h
    · exact Nat.le_max_left ..
    · exact Nat.le_trans (ih h) (Nat.le_max_right ..)

theorem height_lt_seq {d : Datum} {ds : List Datum} (h : d ∈ ds) : d.height < (seq ds).height := by
  rw [height]
  exact Nat.lt_succ_of_le (height_le_of_mem h)

theorem height_lt_product {d : Datum} {ds : List Datum} (h : d ∈ ds) :
    d.height < (product ds).height := by
  rw [height]
  exact Nat.lt_succ_of_le (height_le_of_mem h)

theorem height_lt_map {e : Datum × Datum} {es : List (Datum × Datum)} (h : e ∈ es) :
    e.2.height < (map es).height := by
  rw [height]
  exact Nat.lt_succ_of_le (height_le_of_mem_entries h)

/-! ## Order of entries -/

/-- Data that are equal, but for the order in which maps list their entries. -/
inductive Same : Datum → Datum → Prop
  | refl (d : Datum) : Same d d
  | present {d e : Datum} (h : Same d e) : Same (.present d) (.present e)
  | wrapped {d e : Datum} (h : Same d e) : Same (.wrapped d) (.wrapped e)
  | seq {ds es : List Datum} (h : List.Forall₂ Same ds es) : Same (.seq ds) (.seq es)
  | product {ds es : List Datum} (h : List.Forall₂ Same ds es) : Same (.product ds) (.product es)
  | map {xs ys zs : List (Datum × Datum)} (order : xs.Perm ys)
    (keys : ys.map Prod.fst = zs.map Prod.fst)
    (values : List.Forall₂ Same (ys.map Prod.snd) (zs.map Prod.snd)) : Same (.map xs) (.map zs)

/-- Data without parts that `Datum.Same` looks into. -/
def isAtom : Datum → Bool
  | present _ => false
  | wrapped _ => false
  | seq _ => false
  | product _ => false
  | map _ => false
  | _ => true

theorem Same.eq_of_isAtom {d e : Datum} (h : Same d e) (atom : d.isAtom = true) : d = e := by
  cases h with
  | refl => rfl
  | _ => cases atom

namespace Same

variable {d e : Datum} {ds : List Datum}

theorem present_inv (h : Same (.present d) e) : ∃ e', e = .present e' ∧ Same d e' := by
  cases h with
  | refl => exact ⟨d, rfl, .refl d⟩
  | present h => exact ⟨_, rfl, h⟩

theorem wrapped_inv (h : Same (.wrapped d) e) : ∃ e', e = .wrapped e' ∧ Same d e' := by
  cases h with
  | refl => exact ⟨d, rfl, .refl d⟩
  | wrapped h => exact ⟨_, rfl, h⟩

theorem forall₂_refl (ds : List Datum) : List.Forall₂ Same ds ds :=
  List.forall₂_same.mpr fun d _ => .refl d

theorem seq_inv (h : Same (.seq ds) e) : ∃ es, e = .seq es ∧ List.Forall₂ Same ds es := by
  cases h with
  | refl => exact ⟨ds, rfl, forall₂_refl ds⟩
  | seq h => exact ⟨_, rfl, h⟩

theorem product_inv (h : Same (.product ds) e) : ∃ es, e = .product es ∧ List.Forall₂ Same ds es := by
  cases h with
  | refl => exact ⟨ds, rfl, forall₂_refl ds⟩
  | product h => exact ⟨_, rfl, h⟩

theorem map_inv {xs : List (Datum × Datum)} (h : Same (.map xs) e) :
    ∃ ys zs, e = .map zs ∧ xs.Perm ys ∧ ys.map Prod.fst = zs.map Prod.fst ∧
      List.Forall₂ Same (ys.map Prod.snd) (zs.map Prod.snd) := by
  cases h with
  | refl => exact ⟨xs, xs, rfl, .refl xs, rfl, forall₂_refl _⟩
  | map order keys values => exact ⟨_, _, rfl, order, keys, values⟩

theorem eq_of_isAtom_items {es : List Datum} (h : List.Forall₂ Same ds es)
    (atoms : ∀ d ∈ ds, d.isAtom = true) : ds = es := by
  induction h with
  | nil => rfl
  | cons first _ ih =>
    rw [List.forall_mem_cons] at atoms
    rw [first.eq_of_isAtom atoms.1, ih atoms.2]

end Same

end Datum

end TreeCodec
