import TreeCodec.Proofs.SkippedFields
import TreeCodec.Proofs.WrittenFields

/-!
# Fields that are left out come back

A field whose key is missing is read as its zero: its own default, or else its type's default,
or else a zero built by the type's description. What `Field.omitEmpty` leaves out is said by
the datum: what counts as empty, or is written as null. The two agree for the data that are
empty layer by layer (`omitted_field_comes_back`). They differ where a default is not empty, and
where an optional datum is there though it is written as null (`omitted_form_changes`).

* `Datum.NumEq`: equality of data, floats compared as numbers;
* `Catalogue.Blank`: the data of a type that are empty, all equal to one another
  (`Catalogue.Blank.numEq`);
* `Catalogue.blank_of_isZero`, `Codec.blank_of_null`: what is left out is empty;
* `Catalogue.blank_of_zeroWith`: so is the zero of its type, if it is made with no default that
  is not empty (`Catalogue.DefaultUsed`);
* `Codec.zeroField_of_missing`: a missing key is read as the zero of its field.
-/

namespace TreeCodec

/-! ## Equality -/

/-- Equality of data. Floats are compared as numbers, so that a NaN equals nothing, and the
entries of maps in any order. -/
inductive Datum.NumEq : Datum → Datum → Prop
  | bool (b : Bool) : NumEq (.bool b) (.bool b)
  | char (c : Char) : NumEq (.char c) (.char c)
  | int (n : Int) : NumEq (.int n) (.int n)
  | float32 {x y : Binary32} (h : x.numEq y = true) : NumEq (.float32 x) (.float32 y)
  | float64 {x y : Binary64} (h : x.numEq y = true) : NumEq (.float64 x) (.float64 y)
  | text (s : String) : NumEq (.text s) (.text s)
  | absent : NumEq .absent .absent
  | present {d e : Datum} (h : NumEq d e) : NumEq (.present d) (.present e)
  | wrapped {d e : Datum} (h : NumEq d e) : NumEq (.wrapped d) (.wrapped e)
  | seq {ds es : List Datum} (h : List.Forall₂ NumEq ds es) : NumEq (.seq ds) (.seq es)
  | product {ds es : List Datum} (h : List.Forall₂ NumEq ds es) : NumEq (.product ds) (.product es)
  | map {xs ys zs : List (Datum × Datum)} (order : xs.Perm ys)
    (keys : List.Forall₂ NumEq (ys.map Prod.fst) (zs.map Prod.fst))
    (values : List.Forall₂ NumEq (ys.map Prod.snd) (zs.map Prod.snd)) : NumEq (.map xs) (.map zs)
  | variant (i : Nat) {ds es : List Datum} (h : List.Forall₂ NumEq ds es) :
    NumEq (.variant i ds) (.variant i es)
  | tree {t u : Tree} (h : t.numEq u = true) : NumEq (.tree t) (.tree u)

/-! ## Zeros of floats -/

namespace Binary

/-- The two zeros are equal as numbers. -/
theorem numEq_of_isZero {F : FloatFormat} {x y : Binary F} (hx : x.isZero = true)
    (hy : y.isZero = true) : x.numEq y = true := by
  have number {z : Binary F} (hz : z.isZero = true) : z.isNaN = false := by
    simp only [isZero, Bool.and_eq_true, beq_iff_eq] at hz
    simp [isNaN, hz.2]
  simp [numEq, hx, hy, number hx, number hy]

/-- Only the code zero is that of a zero. -/
theorem code_eq_zero_of_isZero {F : FloatFormat} {negative : Bool} {code : Nat}
    (below : code < F.topExponent * F.fractionCount)
    (h : (ofCode negative code : Binary F).isZero = true) : code = 0 := by
  simp only [isZero, ofCode, Bool.and_eq_true, beq_iff_eq] at h
  obtain ⟨exponent, fraction⟩ := h
  have small : code / F.fractionCount < F.exponentCount :=
    Nat.lt_trans (Nat.div_lt_of_lt_mul (Nat.mul_comm .. ▸ below)) F.topExponent_lt
  rw [Nat.mod_eq_of_lt small] at exponent
  rw [← Nat.div_add_mod code F.fractionCount, exponent, fraction, Nat.mul_zero]

/-- A number that needs no rounding does not become a zero. -/
theorem not_isZero_ofScaled {negative : Bool} {m : Nat} {q : Int} (some : m ≠ 0)
    (narrow : m.log2 < FloatFormat.double.fractionBits) (coarse : FloatFormat.double.minScale < q) :
    (ofScaled negative m q : Binary64).isZero = false := by
  have finer : max (q + (Nat.log2 m : Int) - FloatFormat.double.fractionBits)
      FloatFormat.double.minScale - q < 0 := by omega
  obtain ⟨k, hk⟩ := Int.eq_negSucc_of_lt_zero finer
  have weight : 0 < m * Nat.pow 2 (k + 1) :=
    Nat.mul_pos (Nat.pos_of_ne_zero some) (Nat.two_pow_pos _)
  simp only [ofScaled, hk, if_neg some]
  refine Bool.eq_false_iff.mpr fun zero => ?_
  split at zero
  · rename_i below
    have none := code_eq_zero_of_isZero below zero
    exact absurd (Nat.eq_zero_of_add_eq_zero_left none) (Nat.ne_of_gt weight)
  · cases zero

theorem significand_lt {F : FloatFormat} (x : Binary F) : x.significand < 2 * F.fractionCount := by
  have fraction := x.fraction.isLt
  unfold significand
  split <;> omega

/-- Only a zero has no significand. -/
theorem isZero_of_significand {F : FloatFormat} {x : Binary F} (h : x.significand = 0) :
    x.isZero = true := by
  have count := F.fractionCount_pos
  unfold significand at h
  split at h
  · simp [isZero, *]
  · omega

/-- A single-precision number is a zero if it is one in double precision. -/
theorem isZero_of_convert {x : Binary32} (h : (x.convert : Binary64).isZero = true) :
    x.isZero = true := by
  unfold convert at h
  split at h
  · by_cases some : x.significand = 0
    · exact isZero_of_significand some
    · have narrow : x.significand.log2 < 24 := (Nat.log2_lt some).mpr x.significand_lt
      have bits : FloatFormat.double.fractionBits = 52 := rfl
      have finest : FloatFormat.double.minScale < FloatFormat.single.minScale := by decide
      have coarse : FloatFormat.double.minScale < x.scale := by
        unfold scale
        omega
      rw [not_isZero_ofScaled some (by omega) coarse] at h
      cases h
  · split at h <;> cases h

end Binary

/-! ## Empty data -/

namespace Catalogue

/-- The data of a type that are empty: false, the zeros, empty texts and collections, null, and
what is not there. A pointer or a newtype is empty if what it holds is. -/
inductive Blank (c : Catalogue) : Ty → Datum → Prop
  | bool : Blank c .bool (.bool false)
  | int (k : IntTy) : Blank c (.int k) (.int 0)
  | float32 {x : Binary32} (h : x.isZero = true) : Blank c .float32 (.float32 x)
  | float64 {x : Binary64} (h : x.isZero = true) : Blank c .float64 (.float64 x)
  | string : Blank c .string (.text "")
  | borrowedText : Blank c .borrowedText (.text "")
  | tree : Blank c .tree (.tree .null)
  | absent (t : Ty) : Blank c (.option t) .absent
  | gone (t : Ty) : Blank c (.pointer .weak t) .absent
  | list (t : Ty) : Blank c (.list t) (.seq [])
  | array (t : Ty) : Blank c (.array t 0) (.seq [])
  | map (a : Arrangement) (key value : Ty) : Blank c (.map a key value) (.map [])
  | pointer {p : Pointer} {t : Ty} {d : Datum} (there : p ≠ .weak) (h : Blank c t d) :
    Blank c (.pointer p t) (.wrapped d)
  | newtype {name : String} {t : Ty} {d : Datum} (body : c.body? name = some (.newtype t))
    (h : Blank c t d) : Blank c (.named name) (.wrapped d)

/-- How a type holds a datum that is empty if what it holds is: pointers and newtypes hold it,
and no option does. -/
inductive HeldPlainly (c : Catalogue) : Ty → Datum → Prop
  | bare {ty : Ty} {d : Datum} (h : ∀ t e, ¬ c.Content ty d t e) : HeldPlainly c ty d
  | nonZero (k : IntTy) (d : Datum) : HeldPlainly c (.nonZero k) (.wrapped d)
  | pointer {p : Pointer} {t : Ty} {d : Datum} (there : p ≠ .weak) (h : HeldPlainly c t d) :
    HeldPlainly c (.pointer p t) (.wrapped d)
  | newtype {name : String} {t : Ty} {d : Datum} (body : c.body? name = some (.newtype t))
    (h : HeldPlainly c t d) : HeldPlainly c (.named name) (.wrapped d)

/-- The zero of a type is made with the default of a newtype, below pointers and newtypes that
have none. What is below a default is not looked at. -/
inductive DefaultUsed (c : Catalogue) : Ty → String → Datum → Prop
  | own {name : String} {t : Ty} {e : Datum} (body : c.body? name = some (.newtype t))
    (default : (Ty.named name).default? c = some e) : DefaultUsed c (.named name) name e
  | newtype {name inner : String} {t : Ty} {e : Datum} (body : c.body? name = some (.newtype t))
    (none : (Ty.named name).default? c = none) (h : DefaultUsed c t inner e) :
    DefaultUsed c (.named name) inner e
  | pointer {p : Pointer} {t : Ty} {name : String} {e : Datum}
    (none : (Ty.pointer p t).default? c = none) (h : DefaultUsed c t name e) :
    DefaultUsed c (.pointer p t) name e

variable {c : Catalogue} {ty : Ty} {d : Datum}

/-- The empty data of a type are equal. -/
theorem Blank.numEq {z : Datum} (hz : c.Blank ty z) (hd : c.Blank ty d) : z.NumEq d := by
  induction hz generalizing d with
  | bool => cases hd; exact .bool false
  | int k => cases hd; exact .int 0
  | float32 hx => cases hd with | float32 hy => exact .float32 (Binary.numEq_of_isZero hx hy)
  | float64 hx => cases hd with | float64 hy => exact .float64 (Binary.numEq_of_isZero hx hy)
  | string => cases hd; exact .text ""
  | borrowedText => cases hd; exact .text ""
  | tree => cases hd; exact .tree rfl
  | absent t => cases hd; exact .absent
  | gone t =>
    cases hd with
    | gone => exact .absent
    | pointer there => exact absurd rfl there
  | list t => cases hd; exact .seq .nil
  | array t => cases hd; exact .seq .nil
  | map a key value => cases hd; exact .map (.refl []) .nil .nil
  | pointer there _ ih =>
    cases hd with
    | gone => exact absurd rfl there
    | pointer _ h => exact .wrapped (ih h)
  | newtype body _ ih =>
    cases hd with
    | newtype body' h =>
      cases body.symm.trans body'
      exact .wrapped (ih h)

/-! ## What counts as empty -/

/-- What holds nothing is not peeled. -/
theorem peel_of_bare (bare : ∀ t e, ¬ c.Content ty d t e) : c.peel ty d = (ty, d) := by
  cases d with
  | wrapped e =>
    rcases inner : c.inner? ty with _ | t
    · simp only [peel, inner]
    · exact absurd (.of_inner? inner e) (bare t e)
  | present e =>
    cases ty with
    | option t => exact absurd (.option t e) (bare t e)
    | _ => rfl
  | _ => rfl

/-- A pointer counts as empty only if it holds an empty text. -/
theorem text?_of_pointer {p : Pointer} {t : Ty} (h : c.isZeroLayer (.pointer p t) d = true) :
    c.text? (.pointer p t) d = some "" := by
  simp only [isZeroLayer] at h
  split at h
  · rename_i s text
    rw [text, String.isEmpty_iff.mp h]
  · cases h

/-- What counts as empty does so below all wrappers. -/
theorem isZeroLayer_peel (h : c.isZero ty d = true) :
    c.isZeroLayer (c.peel ty d).1 (c.peel ty d).2 = true := by
  unfold isZero at h
  split at h
  · exact h
  · rename_i solid
    cases d with
    | wrapped e =>
      rcases inner : c.inner? ty with _ | t
      · simpa only [peel, inner] using h
      · cases ty with
        | pointer p u =>
          have text := text?_of_pointer h
          unfold text? at text
          split at text
          all_goals
            rename_i peeled
            cases text
          all_goals
            rw [peeled]
            rfl
        | _ => exact absurd (congrArg Option.isSome inner) solid
    | present e =>
      cases ty with
      | option t => cases h
      | _ => exact h
    | _ => exact h

/-- What holds nothing and counts as empty is empty. -/
theorem blank_of_bare (typed : HasType c ty d) (bare : ∀ t e, ¬ c.Content ty d t e)
    (h : c.isZeroLayer ty d = true) : c.Blank ty d := by
  cases typed with
  | bool b =>
    obtain rfl : b = false := by simpa [isZeroLayer, text?, peel, Scalar.isZero, Scalar.encode] using h
    exact .bool
  | int hn =>
    obtain rfl := Scalar.eq_zero_of_isZero h
    exact .int _
  | float32 x => exact .float32 (Binary.isZero_of_convert h)
  | float64 x => exact .float64 h
  | string s =>
    obtain rfl : s = "" := by simpa [isZeroLayer, text?, peel] using h
    exact .string
  | borrowedText s =>
    obtain rfl : s = "" := by simpa [isZeroLayer, text?, peel] using h
    exact .borrowedText
  | tree t =>
    cases t with
    | null => exact .tree
    | _ => cases h
  | absent t => exact .absent t
  | @list t ds _ =>
    obtain rfl : ds = [] := by simpa [isZeroLayer, text?, peel] using h
    exact .list t
  | @array t ds _ =>
    obtain rfl : ds = [] := by simpa [isZeroLayer, text?, peel] using h
    exact .array t
  | @map a key value es _ _ _ =>
    obtain rfl : es = [] := by simpa [isZeroLayer, text?, peel] using h
    exact .map a key value
  | nonZero => exact absurd (.nonZero _ _) (bare _ _)
  | present => exact absurd (.option _ _) (bare _ _)
  | pointer => exact absurd (.pointer _ _ _) (bare _ _)
  | newtype body => exact absurd (.newtype body _) (bare _ _)
  | _ => cases h

/-- What counts as empty and is held plainly is empty. -/
theorem blank_of_isZeroLayer (plain : c.HeldPlainly ty d) (typed : HasType c ty d)
    (h : c.isZeroLayer (c.peel ty d).1 (c.peel ty d).2 = true) : c.Blank ty d := by
  induction plain with
  | bare bare =>
    rw [peel_of_bare bare] at h
    exact blank_of_bare typed bare h
  | nonZero k d =>
    cases typed with
    | nonZero _ some => exact absurd (Scalar.eq_zero_of_isZero h) some
  | @pointer p t d there _ ih =>
    cases typed with
    | pointer _ typed =>
      refine .pointer there (ih typed ?_)
      cases p with
      | borrowed => cases text?_of_pointer h
      | weak => exact absurd rfl there
      | _ => exact h
  | newtype body _ ih =>
    obtain ⟨_, same, typed⟩ := typed.newtype_inv body
    cases same
    refine .newtype body (ih typed ?_)
    simpa only [peel, inner?_newtype body] using h

theorem blank_of_isZero (plain : c.HeldPlainly ty d) (typed : HasType c ty d)
    (h : c.isZero ty d = true) : c.Blank ty d :=
  blank_of_isZeroLayer plain typed (isZeroLayer_peel h)

/-! ## Zeros -/

/-- The zero of a type whose empty datum holds nothing is empty. -/
theorem blank_of_bare_zeroWith (bare : ∀ t e, ¬ c.Content ty d t e) (blank : c.Blank ty d)
    {declared : String → Except Error Datum} {z : Datum} (h : c.zeroWith declared ty = .ok z) :
    c.Blank ty z := by
  cases blank with
  | bool => cases h; exact .bool
  | int k => cases h; exact .int k
  | float32 => cases h; exact .float32 rfl
  | float64 => cases h; exact .float64 rfl
  | string => cases h; exact .string
  | borrowedText => cases h
  | tree => cases h; exact .tree
  | absent t => cases h; exact .absent t
  | gone t => cases h; exact .gone t
  | list t => cases h; exact .list t
  | array t =>
    obtain rfl : z = .seq [] := by simpa [zeroWith, Ty.default?, eq_comm] using h
    exact .array t
  | map a key value => cases h; exact .map a key value
  | pointer => exact absurd (.pointer _ _ _) (bare _ _)
  | newtype body => exact absurd (.newtype body _) (bare _ _)

/-- A pointer without a default has the zero of what it holds. -/
theorem of_zeroWith_pointer {declared : String → Except Error Datum} {p : Pointer} {t : Ty} {z : Datum}
    (none : (Ty.pointer p t).default? c = none) (h : c.zeroWith declared (.pointer p t) = .ok z) :
    ∃ y, z = .wrapped y ∧ c.zeroWith declared t = .ok y := by
  rw [zeroWith, none] at h
  simp only at h
  split at h
  · cases h
  · rename_i y inner
    split at h <;> cases h
    exact ⟨y, rfl, inner⟩

/-- A newtype has its default for a zero, or else the zero of what it holds. -/
theorem of_zeroWith_newtype {name : String} {t : Ty} (body : c.body? name = some (.newtype t))
    {depth : Nat} {z : Datum} (h : c.zeroWith (c.zeroDeclared depth) (.named name) = .ok z) :
    (Ty.named name).default? c = some z ∨ (Ty.named name).default? c = none ∧
      ∃ depth y, z = .wrapped y ∧ c.zeroWith (c.zeroDeclared depth) t = .ok y := by
  rw [zeroWith] at h
  split at h
  · rename_i default
    cases h
    exact .inl default
  · rename_i none
    cases depth with
    | zero => cases h
    | succ depth =>
      simp only [zeroDeclared, body] at h
      rcases inner : c.zeroWith (c.zeroDeclared depth) t with e | y <;> rw [inner] at h <;> cases h
      exact .inr ⟨none, depth, y, rfl, inner⟩

/-- The zero of a type that holds an empty datum plainly is empty, if the default is that it is
made with. -/
theorem blank_of_zeroWith (plain : c.HeldPlainly ty d) (blank : c.Blank ty d)
    (used : ∀ name e, c.DefaultUsed ty name e → c.Blank (.named name) e) {depth : Nat} {z : Datum}
    (h : c.zeroWith (c.zeroDeclared depth) ty = .ok z) : c.Blank ty z := by
  induction plain generalizing depth z with
  | bare bare => exact blank_of_bare_zeroWith bare blank h
  | nonZero => cases blank
  | @pointer p t d there _ ih =>
    cases blank with
    | pointer _ blank =>
      -- Only a pointer to a slice has a default, and no slice is empty.
      have none : (Ty.pointer p t).default? c = none := by
        cases p <;> cases blank <;> first | rfl | exact absurd rfl there
      obtain ⟨y, rfl, inner⟩ := of_zeroWith_pointer none h
      exact .pointer there (ih blank (fun name e h => used name e (.pointer none h)) inner)
  | newtype body _ ih =>
    cases blank with
    | newtype body' blank =>
      cases body.symm.trans body'
      obtain default | ⟨none, depth, y, rfl, inner⟩ := of_zeroWith_newtype body h
      · exact used _ _ (.own body default)
      · exact .newtype body (ih blank (fun name e h => used name e (.newtype body none h)) inner)

end Catalogue

namespace Codec

variable {cx : Codec}

/-! ## What is written as null -/

/-- What holds nothing and is written as null is empty. -/
theorem blank_of_bare_null (initial : cx.registry = .initial) {ty : Ty} {d : Datum}
    (typed : HasType cx.catalogue ty d) (bare : ∀ t e, ¬ cx.catalogue.Content ty d t e) {depth : Nat}
    (h : encode cx depth ty d = (.ok .null : Except Error Tree)) : cx.catalogue.Blank ty d := by
  cases depth with
  | zero => cases h
  | succ depth =>
    by_cases slot : ty = .tree
    · subst slot
      cases typed with
      | tree t =>
        rw [encode, encodeStep, initial] at h
        cases h
        exact .tree
    · rw [encode_unhooked (encoder?_of_initial initial slot)] at h
      cases writesLayer_of_ok h with
      | absent =>
        cases typed with
        | absent t => exact .absent t
        | gone t => exact .gone t
      | content layer => exact absurd layer (bare _ _)
      | newtype body => exact absurd (.newtype body _) (bare _ _)
      | scalar written => cases (Scalar.family?_of_encode written).2

/-- What is written as null and is held plainly is empty. -/
theorem blank_of_null (initial : cx.registry = .initial) {ty : Ty} {d : Datum}
    (plain : cx.catalogue.HeldPlainly ty d) (typed : HasType cx.catalogue ty d) {depth : Nat}
    (h : encode cx depth ty d = (.ok .null : Except Error Tree)) : cx.catalogue.Blank ty d := by
  induction plain generalizing depth with
  | bare bare => exact blank_of_bare_null initial typed bare h
  | nonZero k d =>
    cases typed with
    | nonZero hn some =>
      cases depth with
      | zero => cases h
      | succ depth =>
        rw [encode_unhooked (encoder?_of_initial initial (by simp))] at h
        have blank := blank_of_bare_null initial (.int hn) (by rintro _ _ ⟨⟩) h
        cases blank
        exact absurd rfl some
  | pointer there _ ih =>
    cases typed with
    | pointer p typed =>
      cases depth with
      | zero => cases h
      | succ depth =>
        rw [encode_unhooked (encoder?_of_initial initial (by simp))] at h
        cases writesLayer_of_ok h with
        | content layer written =>
          cases layer
          exact .pointer there (ih typed written)
        | scalar written => cases (Scalar.family?_of_encode written).2
  | newtype body _ ih =>
    obtain ⟨_, same, typed⟩ := typed.newtype_inv body
    cases same
    cases depth with
    | zero => cases h
    | succ depth =>
      rw [encode_newtype_peel (encoder?_of_initial initial (by simp)) body] at h
      -- What a newtype leaves behind is written as null as well, some layers up.
      obtain ⟨k, deeper⟩ := encode_peel (peelsFreely_of_initial initial _) depth _
      exact .newtype body (ih typed (deeper.trans h))

/-- What is left out and held plainly is empty. -/
theorem blank_of_leavesOut (initial : cx.registry = .initial) {f : Field} {d : Datum}
    (plain : cx.catalogue.HeldPlainly f.ty d) (typed : HasType cx.catalogue f.ty d)
    (h : cx.LeavesOut f d) : cx.catalogue.Blank f.ty d := by
  obtain ⟨-, zero | null⟩ := h
  · exact Catalogue.blank_of_isZero plain typed zero
  · exact blank_of_null initial plain typed null

/-! ## What is read of a missing key -/

/-- The fields of a record are read, each at its position. -/
theorem yields_field_at {dec : Decoder (Except Error)} {s : Scope} {ty : Ty} {o : Object} {i j : Nat}
    {fs : List Field} {f : Field} {ws : List Datum} (hf : fs[j]? = some f)
    (read : Yields (decodeFields cx dec s ty o i fs) ws) :
    ∃ w, ws[j]? = some w ∧ Yields (decodeField cx dec s ty o (i + j) f) w := by
  induction fs generalizing i j ws with
  | nil => cases hf
  | cons g fs ih =>
    obtain ⟨w, first, read⟩ := read.of_bind
    obtain ⟨ws, rfl, rest⟩ := read.of_map
    cases j with
    | zero =>
      cases hf
      exact ⟨w, rfl, first⟩
    | succ j =>
      obtain ⟨v, hv, field⟩ := ih hf rest
      exact ⟨v, hv, Nat.add_right_comm i 1 j ▸ field⟩

section Read

variable {name : String} {fs : List Field} {i : Nat} {f : Field} {o : Object} {strict : Bool}
  {w : Datum} (hook : cx.registry.decoder? (.named name) = none)
  (body : cx.catalogue.body? name = some (.record fs)) (hf : fs[i]? = some f)
  (kept : f.skipped = false) (apart : f.inline = false)
  (read : cx.fromTree strict (.named name) (.object o) = (.ok w : Except Error Datum))
include hook body hf kept apart read

/-- A record that was read has at the position of a field what was read under its key. -/
theorem yields_key_of_fromTree : ∃ ws z, w = .product ws ∧ ws[i]? = some z ∧
    ∃ depth, Yields (decodeKey cx (decoder cx depth) (.root strict) f f.key o) z := by
  have whole := yields_of_build read
  rcases limit : cx.maxDepth with _ | depth <;> rw [limit] at whole
  · exact absurd whole Yields.not_throw
  have layer := yields_layer (Tree.object_ne_null o) hook whole
  simp only [decodeLayer, body, decodeDeclared] at layer
  obtain ⟨ws, rfl, fields⟩ := yields_record layer
  obtain ⟨z, hz, field⟩ := yields_field_at hf fields
  rw [decodeField_apart kept apart] at field
  exact ⟨ws, z, rfl, hz, depth, field⟩

/-- A missing key is read as the zero of its field. -/
theorem zeroField_of_missing (missing : o.find? f.key = none) :
    ∃ ws z, w = .product ws ∧ ws[i]? = some z ∧ cx.catalogue.zeroField f = .ok z := by
  obtain ⟨ws, z, product, hz, _, key⟩ := yields_key_of_fromTree hook body hf kept apart read
  obtain ⟨-, -, key⟩ := key.of_bind
  rw [missing] at key
  exact ⟨ws, z, product, hz, key.of_ofExcept⟩

end Read

end Codec

/-! ## What comes back -/

/-- A field whose key is left out of the object of its record is read as its zero. That is the
datum that was written, if the datum is held plainly and the default that the zero is made with
is empty: the field's own, or else that of a newtype, where there is one. -/
theorem omitted_field_comes_back (cx : Codec) (initial : cx.registry = .initial) {name : String}
    {fs : List Field} (body : cx.catalogue.body? name = some (.record fs)) {ds : List Datum}
    (typed : HasType cx.catalogue (.named name) (.product ds)) {o : Object}
    (written : cx.toTree (.named name) (.product ds) = (.ok (.object o) : Except Error Tree))
    {i : Nat} {f : Field} {d : Datum} (hf : fs[i]? = some f) (hd : ds[i]? = some d)
    (kept : f.skipped = false) (apart : f.inline = false) (missing : o.find? f.key = none)
    {strict : Bool} {w : Datum}
    (read : cx.fromTree strict (.named name) (.object o) = (.ok w : Except Error Datum)) :
    ∃ ws z, w = .product ws ∧ ws[i]? = some z ∧ cx.catalogue.zeroField f = .ok z ∧
      ((∀ e, f.default? = some e → cx.catalogue.Blank f.ty e) →
        (f.default? = none → ∀ name e, cx.catalogue.DefaultUsed f.ty name e →
          cx.catalogue.Blank (.named name) e) →
        cx.catalogue.HeldPlainly f.ty d → z.NumEq d) := by
  have hook : cx.registry.decoder? (.named name) = none :=
    Codec.decoder?_of_initial initial (by simp)
  obtain ⟨ws, z, product, hz, zero⟩ :=
    Codec.zeroField_of_missing hook body hf kept apart read missing
  refine ⟨ws, z, product, hz, zero, fun own used plain => ?_⟩
  have out := Codec.leavesOut_of_missing initial body written hf hd kept apart missing
  obtain ⟨_, product', members⟩ := typed.record_inv body
  cases product'
  have typed : HasType cx.catalogue f.ty d := members.get (by rw [List.getElem?_map, hf]; rfl) hd
  have blank := Codec.blank_of_leavesOut initial plain typed out
  refine Catalogue.Blank.numEq ?_ blank
  rw [Catalogue.zeroField, Catalogue.zeroFieldWith] at zero
  split at zero
  · rename_i e default
    cases zero
    exact own _ default
  · rename_i none
    exact Catalogue.blank_of_zeroWith plain blank (used none) zero

/-- A gauge, whose level is the ground by default, though the first level is the default of
levels. -/
def Catalogue.gauges : Catalogue where
  decls :=
    [("level", { body := .newtype (.int .int64), default? := some (.wrapped (.int 1)) }),
      ("gauge", { body := .record [
        { key := "level", ty := .named "level", omitEmpty := true,
          default? := some (.wrapped (.int 0)) }] })]

/-- A stop without notes comes back without, and a gauge at the ground is read so. -/
theorem omitted_field_comes_back_stop :
    (let cx := Codec.route
    let o : Object := [("label", .string "a"), ("next", .null), ("x", .int 1), ("y", .int 2)]
    let d : Datum := .stop "a" 1 2 [] .absent
    HasType .route (.named "stop") d ∧
      cx.toTree (.named "stop") d = (.ok (.object o) : Except Error Tree) ∧
      cx.fromTree true (.named "stop") (.object o) = (.ok d : Except Error Datum) ∧
      ∃ ws z, d = .product ws ∧ ws[2]? = some z ∧ z.NumEq (.seq [])) ∧
    let cx := Codec.standard .gauges
    let d : Datum := .product [.wrapped (.int 0)]
    HasType .gauges (.named "gauge") d ∧
      cx.toTree (.named "gauge") d = (.ok (.object []) : Except Error Tree) ∧
      cx.fromTree true (.named "gauge") (.object []) = (.ok d : Except Error Datum) ∧
      ∃ ws z, d = .product ws ∧ ws[0]? = some z ∧ z.NumEq (.wrapped (.int 0)) := by
  constructor
  · intro cx o d
    have typed : HasType .route (.named "stop") d := hasType_stop "a" rfl rfl [] (.absent _)
    have written : cx.toTree (.named "stop") d = (.ok (.object o) : Except Error Tree) := rfl
    have read : cx.fromTree true (.named "stop") (.object o) = (.ok d : Except Error Datum) := rfl
    have plain : Catalogue.route.HeldPlainly (.list .string) (.seq []) := .bare (by rintro _ _ ⟨⟩)
    obtain ⟨ws, z, product, hz, -, same⟩ := omitted_field_comes_back cx rfl rfl typed written
      (i := 2) rfl rfl rfl rfl rfl read
    exact ⟨typed, written, read, ws, z, product, hz, same (by simp) (fun _ => nofun) plain⟩
  · intro cx d
    have typed : HasType .gauges (.named "gauge") d :=
      .record rfl (.cons (.newtype rfl (.int rfl)) .nil)
    have written : cx.toTree (.named "gauge") d = (.ok (.object []) : Except Error Tree) := rfl
    have read : cx.fromTree true (.named "gauge") (.object []) = (.ok d : Except Error Datum) := rfl
    have ground : Catalogue.gauges.Blank (.named "level") (.wrapped (.int 0)) :=
      .newtype rfl (.int .int64)
    have plain : Catalogue.gauges.HeldPlainly (.named "level") (.wrapped (.int 0)) :=
      .newtype rfl (.bare (by rintro _ _ ⟨⟩))
    obtain ⟨ws, z, product, hz, -, same⟩ := omitted_field_comes_back cx rfl rfl typed written
      (i := 0) rfl rfl rfl rfl rfl read
    refine ⟨typed, written, read, ws, z, product, hz, same (fun e own => ?_) nofun plain⟩
    cases own
    exact ground

/-- Forms with a count that has a default of its own, a note, and a level, whose type has a
default of its own. -/
def Catalogue.forms : Catalogue where
  decls :=
    [("level", { body := .newtype (.int .int64), default? := some (.wrapped (.int 1)) }),
      ("form", { body := .record [
        { key := "count", ty := .int .int64, omitEmpty := true, default? := some (.int 5) },
        { key := "note", ty := .option (.option .string), omitEmpty := true },
        { key := "level", ty := .named "level", omitEmpty := true }] })]

/-- All fields of a form may be left out and be read as something else, however deep the codec
goes: a count of zero as the default, a note that is there without a text as none, and a level
of zero as the first level. -/
theorem omitted_form_changes :
    let ds := [Datum.int 0, .present .absent, .wrapped (.int 0)]
    let ws := [Datum.int 5, .absent, .wrapped (.int 1)]
    HasType .forms (.named "form") (.product ds) ∧
    (∀ (i : Nat) d w, ds[i]? = some d → ws[i]? = some w → ¬ Datum.NumEq w d) ∧
    ∀ maxDepth, 4 ≤ maxDepth →
      let cx : Codec := ⟨.forms, .initial, maxDepth⟩
      cx.toTree (.named "form") (.product ds) = (.ok (.object []) : Except Error Tree) ∧
      ∀ strict, cx.fromTree strict (.named "form") (.object []) =
        (.ok (.product ws) : Except Error Datum) := by
  intro ds ws
  refine ⟨?_, ?_, fun maxDepth deep => ?_⟩
  · exact .record rfl (.cons (.int rfl) (.cons (.present (.absent _))
      (.cons (.newtype rfl (.int rfl)) .nil)))
  · rintro (_ | _ | _ | i) d w hd hw same <;> cases hd <;> cases hw
    · cases same
    · cases same
    · cases same with
      | wrapped same => cases same
  · obtain ⟨k, rfl⟩ := Nat.exists_eq_add_of_le' deep
    refine ⟨rfl, fun strict => ?_⟩
    cases strict <;> rfl

end TreeCodec
