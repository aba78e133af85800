import TreeCodec.Proofs.Leaves

/-!
# Leaves are written as they were read

The converse of `TreeCodec.Proofs.Leaves`: what is read without looking below a layer is
written as the tree that it was read from.

* `Scalar.encode_of_decode`: scalars, from a tree of their own family;
* `Codec.encodeVariant_of_decodeVariant`: variants that carry nothing;
* `Codec.encodeBytes_of_decodeBytes`: byte strings, whose text is canonical;
* `Catalogue.TextKey.text?_of_keyOf`: keys of maps that are text at their innermost layer.
-/

namespace TreeCodec

namespace Scalar

variable {ty : Ty} {d : Datum} {x : Tree}

/-- What is read as a scalar is of a family that the scalar's family takes in. -/
theorem accepts_of_decode (h : decode ty x = .ok d) :
    ∃ src dst, x.family? = some src ∧ ty.family? = some dst ∧ src.accepts dst x = true := by
  rw [decode] at h
  rcases hd : ty.family? with _ | dst <;> rw [hd] at h
  · cases h
  rcases hs : x.family? with _ | src <;> rw [hs] at h
  · cases h
  rcases ha : src.accepts dst x with _ | _
  · simp [ha] at h
  · exact ⟨src, dst, rfl, rfl, ha⟩

/-- Only integers are read as floats, and floats as integers. -/
theorem family_of_decode (hty : ty.isExact = true) (int : ty = .float64 → ∀ n, x ≠ .int n)
    (float : ∀ k, ty = .int k → ∀ y, x ≠ .float y) (h : decode ty x = .ok d) :
    x.family? = ty.family? := by
  obtain ⟨src, dst, hs, hd, accepts⟩ := accepts_of_decode h
  by_cases same : src = dst
  · rw [hs, hd, same]
  rw [Family.accepts.eq_def, if_neg same] at accepts
  split at accepts
  · -- An integer as a float.
    have wide : ty = .float64 := by cases ty <;> simp_all [Ty.family?, Ty.isExact]
    cases x <;> cases hs
    exact absurd rfl (int wide _)
  · -- A float as an integer.
    rename_i y
    obtain ⟨k, rfl⟩ : ∃ k, ty = .int k := by cases ty <;> simp_all [Ty.family?]
    exact absurd rfl (float k rfl y)
  · cases accepts

theorem contains_toInt (n : Int64) : IntTy.int64.contains n.toInt = true := by
  have lower := n.le_toInt
  have upper := n.toInt_lt
  simp [IntTy.contains, IntTy.min, IntTy.max, IntTy.int64, IntWidth.bits]
  omega

/-- A scalar that is read from a tree of its own family is written as the tree. -/
theorem encode_of_decode (hty : ty.isExact = true) (family : x.family? = ty.family?)
    (h : decode ty x = .ok d) : encode ty d = .ok x ∧ d.isAtom = true := by
  cases ty with
  | bool =>
    cases x <;> cases family
    cases h
    exact ⟨rfl, rfl⟩
  | char =>
    cases x <;> cases family
    rename_i s
    change decodeString .char s = .ok d at h
    rcases spelled : s.toList with _ | ⟨c, _ | ⟨c', rest⟩⟩ <;> simp only [decodeString, spelled] at h <;>
      cases h
    refine ⟨?_, rfl⟩
    have single : String.singleton c = s := by rw [← String.toList_inj, spelled]; simp
    rw [encode, single]
  | int k =>
    cases x <;> cases family
    rename_i n
    change decodeInt (.int k) n.toInt = .ok d at h
    rw [decodeInt] at h
    split at h <;> cases h
    refine ⟨?_, rfl⟩
    rw [encode, encodeInt, if_pos (contains_toInt n), Int64.ofInt_toInt]
  | float64 =>
    cases x <;> cases family
    cases h
    exact ⟨rfl, rfl⟩
  | string =>
    cases x <;> cases family
    rename_i s
    change decodeString .string s = .ok d at h
    simp only [decodeString] at h
    cases h
    exact ⟨rfl, rfl⟩
  | _ => cases hty

end Scalar

namespace Codec

variable {ty : Ty} {d : Datum} {x : Tree}

/-- A variant that is read from a name is written as the name. -/
theorem encodeVariant_of_decodeVariant {vs : List Variant} (h : decodeVariant ty vs x = .ok d) :
    encodeVariant ty vs d = .ok x ∧ d.isAtom = true := by
  cases x with
  | string s =>
    rw [decodeVariant] at h
    split at h
    · rename_i i found
      split at h
      · rename_i name hv
        cases h
        obtain ⟨hi, named, -⟩ := List.findIdx?_eq_some_iff_getElem.mp found
        obtain ⟨_, variant⟩ := List.getElem?_eq_some_iff.mp hv
        rw [variant, decide_eq_true_eq] at named
        cases named
        exact ⟨by simp [encodeVariant, hv], rfl⟩
      · cases h
    · cases h
  | _ => cases h

theorem byte?_ofByte (b : UInt8) : (Datum.ofByte b).byte? = some b := by
  have range : 0 ≤ (b.toNat : Int) ∧ (b.toNat : Int) < 256 := by
    have := b.toNat_lt
    omega
  rw [Datum.ofByte, Datum.byte?, if_pos range, Int.toNat_natCast, UInt8.ofNat_toNat]

theorem mapM_byte? (bytes : List UInt8) : (bytes.map Datum.ofByte).mapM Datum.byte? = some bytes := by
  induction bytes with
  | nil => rfl
  | cons b bytes ih => rw [List.map_cons, List.mapM_cons, byte?_ofByte, ih]; rfl

/-- Bytes that are read from a text are written as the text. -/
theorem encodeBytes_of_decodeBytes (ty : Ty) (h : decodeBytes x = .ok d) :
    ∃ ds, d = .seq ds ∧ (∀ e ∈ ds, e.isAtom = true) ∧ encodeBytes ty ds = .ok x := by
  cases x with
  | string s =>
    rw [decodeBytes] at h
    rcases hs : Base64.decodeString s with e | bytes <;> rw [hs] at h <;> cases h
    refine ⟨_, rfl, fun e he => ?_, ?_⟩
    · obtain ⟨b, -, rfl⟩ := List.mem_map.mp he
      rfl
    · simp only [encodeBytes, mapM_byte?, Base64.encodeString_of_decodeString hs]
  | _ => cases h

end Codec

namespace Catalogue.TextKey

variable {c : Catalogue} {names : List String} {ty : Ty} {d : Datum} {s : String}

theorem text?_of_keyWith (h : c.TextKey names ty) {depth : Nat}
    (read : keyWith s (c.keyDeclared s depth) ty = .ok d) : c.text? ty d = some s := by
  induction h generalizing d depth with
  | string => cases read; rfl
  | @newtype name names t body h ih =>
    cases depth with
    | zero => cases read
    | succ depth =>
      simp only [keyWith, keyDeclared, body] at read
      rcases inner : keyWith s (c.keyDeclared s depth) t with e | k <;> rw [inner] at read <;> cases read
      rw [text?_newtype body]
      exact ih inner

/-- A key that is read from a text is the text. -/
theorem text?_of_keyOf (h : c.TextKey names ty) (read : c.keyOf ty s = .ok d) :
    c.text? ty d = some s :=
  h.text?_of_keyWith read

end Catalogue.TextKey

end TreeCodec
