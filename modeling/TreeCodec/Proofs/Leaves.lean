import Mathlib.Data.List.Nodup
import TreeCodec.Codec
import TreeCodec.Proofs.Base64
import TreeCodec.Proofs.Typing

/-!
# Leaves come back

What is written without looking below a layer is read as the datum that was written:

* `Scalar.decode_of_encode`: scalars, but for 32-bit floats and what has no form;
* `Codec.decodeVariant_of_encodeVariant`: variants that carry nothing;
* `Codec.decodeBytes_of_encodeBytes`: byte strings;
* `Catalogue.TextKey.keyOf_of_text?`: keys of maps that are text at their innermost layer.

None of them is written as null.
-/

namespace TreeCodec

/-! ## Scalars -/

/-- The scalars that a tree holds just as they are. -/
def Ty.isExact : Ty → Bool
  | .bool => true
  | .char => true
  | .int _ => true
  | .float64 => true
  | .string => true
  | _ => false

namespace Scalar

variable {c : Catalogue} {ty : Ty} {d : Datum} {x : Tree}

theorem toInt_of_contains {n : Int} (h : IntTy.int64.contains n = true) : (Int64.ofInt n).toInt = n := by
  have range : -(2 : Int) ^ 63 ≤ n ∧ n ≤ 2 ^ 63 - 1 := by
    simpa [IntTy.contains, IntTy.min, IntTy.max, IntTy.int64, IntWidth.bits] using h
  exact Int64.toInt_ofInt_of_le range.1 (by omega)

/-- An integer that is written fits a tree, and is read back from it. -/
theorem decode_of_encodeInt {k : IntTy} {n : Int} (hn : k.contains n = true)
    (h : encodeInt k n = .ok x) : decode (.int k) x = .ok (.int n) := by
  rw [encodeInt] at h
  split at h
  · rename_i fits
    cases h
    show decodeInt (.int k) (Int64.ofInt n).toInt = _
    rw [toInt_of_contains fits, decodeInt, if_pos hn]
  · split at h <;> cases h

theorem decode_of_encode (hty : ty.isExact = true) (hd : HasType c ty d) (h : encode ty d = .ok x) :
    decode ty x = .ok d := by
  cases hd with
  | bool b => cases h; rfl
  | char y =>
    cases h
    show decodeString .char (String.singleton y) = _
    simp [decodeString]
  | int hn => exact decode_of_encodeInt hn h
  | float64 y => cases h; rfl
  | string s =>
    cases h
    show decodeString .string s = _
    simp [decodeString]
  | _ => cases hty

theorem ne_null_of_encodeInt {k : IntTy} {n : Int} (h : encodeInt k n = .ok x) : x ≠ .null := by
  rw [encodeInt] at h
  split at h
  · cases h
    exact nofun
  · split at h <;> cases h

theorem ne_null_of_encode (hty : ty.isExact = true) (hd : HasType c ty d) (h : encode ty d = .ok x) :
    x ≠ .null := by
  cases hd with
  | int hn => exact ne_null_of_encodeInt h
  | bool b => cases h; exact nofun
  | char y => cases h; exact nofun
  | float64 y => cases h; exact nofun
  | string s => cases h; exact nofun
  | _ => cases hty

end Scalar

/-! ## Variants -/

namespace Codec

variable {c : Catalogue} {ty : Ty} {x : Tree}

/-- A variant's name is read as the variant, as no other one has it. -/
theorem decodeVariant_of_encodeVariant {vs : List Variant} {i : Nat} {v : Variant} {ds : List Datum}
    (unit : ∀ v ∈ vs, v.payload = []) (names : (vs.map Variant.name).Nodup) (hv : vs[i]? = some v)
    (hd : HasTypes c v.payload ds) (h : encodeVariant ty vs (.variant i ds) = .ok x) :
    x = .string v.name ∧ decodeVariant ty vs x = .ok (.variant i ds) := by
  obtain ⟨hi, rfl⟩ := List.getElem?_eq_some_iff.mp hv
  have empty : vs[i].payload = [] := unit _ (List.getElem_mem hi)
  have written : x = .string vs[i].name := by
    simp only [encodeVariant, hv, empty, List.isEmpty_nil, if_true] at h
    cases h
    rfl
  have found : vs.findIdx? (·.name = vs[i].name) = some i := by
    rw [List.findIdx?_eq_some_iff_getElem]
    refine ⟨hi, by simp, fun j hj => ?_⟩
    have apart := (List.pairwise_iff_getElem.mp names) j i
      (by rw [List.length_map]; omega) (by rwa [List.length_map]) hj
    simpa using apart
  refine ⟨written, ?_⟩
  rw [empty] at hd
  cases hd
  subst written
  have shape : vs[i]? = some ⟨vs[i].name, []⟩ := by rw [hv, ← empty]
  simp only [decodeVariant, found, shape]

theorem wrapNonZero_of_ne (k : IntTy) {n : Int} (h : n ≠ 0) :
    wrapNonZero k (.int n) = .ok (.wrapped (.int n)) := by
  rw [wrapNonZero.eq_def]
  split
  · rename_i zero
    cases zero
    exact absurd rfl h
  · rfl

/-! ## Byte strings -/

theorem ofByte_of_byte? {d : Datum} {b : UInt8} (h : d.byte? = some b) : Datum.ofByte b = d := by
  cases d with
  | int n =>
    rw [Datum.byte?] at h
    split at h
    · rename_i range
      cases h
      rw [Datum.ofByte, UInt8.toNat_ofNat']
      congr 1
      omega
    · cases h
  | _ => cases h

theorem map_ofByte_of_mapM {ds : List Datum} {bytes : List UInt8} (h : ds.mapM Datum.byte? = some bytes) :
    bytes.map Datum.ofByte = ds := by
  induction ds generalizing bytes with
  | nil => cases h; rfl
  | cons d ds ih =>
    rw [List.mapM_cons] at h
    rcases hb : d.byte? with _ | b <;> rw [hb] at h
    · cases h
    · rcases hr : ds.mapM Datum.byte? with _ | bs <;> rw [hr] at h
      · cases h
      · cases h
        rw [List.map_cons, ofByte_of_byte? hb, ih hr]

theorem decodeBytes_of_encodeBytes {ds : List Datum} (h : encodeBytes ty ds = .ok x) :
    (∃ s, x = .string s) ∧ decodeBytes x = .ok (.seq ds) := by
  rw [encodeBytes] at h
  split at h
  · rename_i bytes hb
    cases h
    refine ⟨⟨_, rfl⟩, ?_⟩
    rw [decodeBytes, Base64.decodeString_encodeString]
    exact congrArg (Except.ok ∘ Datum.seq) (map_ofByte_of_mapM hb)
  · cases h

end Codec

/-! ## Keys -/

namespace Catalogue

/-- The types whose data are text at their innermost layer, below newtypes of these
names, the outermost one first. -/
inductive TextKey (c : Catalogue) : List String → Ty → Prop
  | string : TextKey c [] .string
  | newtype {name : String} {names : List String} {t : Ty} (body : c.body? name = some (.newtype t))
    (h : TextKey c names t) : TextKey c (name :: names) (.named name)

namespace TextKey

variable {c : Catalogue} {names names' : List String} {ty : Ty}

theorem names_unique (h : c.TextKey names ty) (h' : c.TextKey names' ty) : names = names' := by
  induction h generalizing names' with
  | string => cases h'; rfl
  | newtype body _ ih =>
    cases h' with
    | newtype body' h' =>
      cases body.symm.trans body'
      rw [ih h']

/-- A newtype further inside is a type of text too, with fewer newtypes. -/
theorem of_mem (h : c.TextKey names ty) {name : String} (hn : name ∈ names) :
    ∃ rest, c.TextKey (name :: rest) (.named name) ∧ rest.length < names.length := by
  induction h with
  | string => cases hn
  | newtype body h ih =>
    rcases List.mem_cons.mp hn with rfl | hn
    · exact ⟨_, .newtype body h, Nat.lt_succ_self _⟩
    · obtain ⟨rest, hr, hlt⟩ := ih hn
      exact ⟨rest, hr, Nat.lt_succ_of_lt hlt⟩

/-- No newtype is inside itself. -/
theorem nodup (h : c.TextKey names ty) : names.Nodup := by
  induction h with
  | string => exact List.nodup_nil
  | newtype body h ih =>
    refine List.nodup_cons.mpr ⟨fun inside => ?_, ih⟩
    obtain ⟨rest, hr, hlt⟩ := h.of_mem inside
    cases (TextKey.newtype body h).names_unique hr
    exact Nat.lt_irrefl _ hlt

theorem subset (h : c.TextKey names ty) : names ⊆ c.decls.map Prod.fst := by
  induction h with
  | string => exact List.nil_subset _
  | @newtype name names t body h ih =>
    refine List.cons_subset.mpr ⟨?_, ih⟩
    obtain ⟨decl, found, -⟩ := Option.map_eq_some_iff.mp body
    obtain ⟨l, r, hl, -⟩ := List.lookup_eq_some_iff.mp found
    rw [hl]
    simp

/-- The newtypes are no more than there are declarations. -/
theorem length_le (h : c.TextKey names ty) : names.length ≤ c.decls.length := by
  have bound := h.nodup.length_le_of_subset h.subset
  rwa [List.length_map] at bound

variable {d : Datum} {s : String}

theorem text?_newtype {name : String} {t : Ty} (body : c.body? name = some (.newtype t)) (d : Datum) :
    c.text? (.named name) (.wrapped d) = c.text? t d := by
  simp [text?, peel, inner?, body]

theorem keyWith_of_text? (h : c.TextKey names ty) (hd : HasType c ty d) (hs : c.text? ty d = some s)
    {depth : Nat} (enough : names.length ≤ depth) :
    keyWith s (c.keyDeclared s depth) ty = .ok d := by
  induction h generalizing d depth with
  | string => cases hd; cases hs; rfl
  | newtype body h ih =>
    obtain ⟨e, rfl, he⟩ := hd.newtype_inv body
    rw [text?_newtype body] at hs
    obtain ⟨m, rfl⟩ : ∃ m, depth = m + 1 := ⟨depth - 1, by rw [List.length_cons] at enough; omega⟩
    have inner := ih he hs (Nat.le_of_succ_le_succ enough)
    simp only [keyWith, keyDeclared, body, inner]
    rfl

/-- The text of a key is read as the key. -/
theorem keyOf_of_text? (h : c.TextKey names ty) (hd : HasType c ty d) (hs : c.text? ty d = some s) :
    c.keyOf ty s = .ok d :=
  h.keyWith_of_text? hd hs h.length_le

/-- Different keys are different texts. -/
theorem text?_inj (h : c.TextKey names ty) {e : Datum} (hd : HasType c ty d) (he : HasType c ty e)
    (hs : c.text? ty d = some s) (hs' : c.text? ty e = some s) : d = e := by
  have read := h.keyOf_of_text? hd hs
  rw [h.keyOf_of_text? he hs'] at read
  cases read
  rfl

end TextKey

end Catalogue

end TreeCodec
